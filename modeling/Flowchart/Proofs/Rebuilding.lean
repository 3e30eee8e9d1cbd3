import Flowchart.Proofs.Rereading

/-!
Statements found again in another text. Where lexemes are spelled as the parts of a statement are, one
part after the other, the grammar has a statement there that mirrors it. What follows must not be
taken for a part of it: an else after a condition without one, or a handler after a block without
one.
-/
namespace Flowchart

open Lexeme Token

open List hiding beq_eq_decide

variable {lexemes rest : List Lexeme} {token : Token} {text : Text} {ks : List Spelling}
  {ending : Ending}

/-- The lexemes are spelled as given. With a strict likeness no comments stand before them. -/
structure Spelled (like : Likeness) (lexemes : List Lexeme) (ks : List Spelling) : Prop where
  spellings : Lexeme.spellings lexemes = ks
  bare : like.strict = true → ∀ lexeme ∈ lexemes, lexeme.comments = []

/-- What must not follow a statement: an else, or a handler. -/
structure Ending where
  noElse : Bool := false
  noHandler : Bool := false
deriving DecidableEq

/-- The spellings begin with the given words. -/
def Spelling.begin (words : List Text) (ks : List Spelling) : Bool :=
  words.isPrefixOf (ks.map Spelling.text)

theorem Spelling.begin_cons (word : Text) (words : List Text) (s : Spelling) (ks : List Spelling) :
    Spelling.begin (word :: words) (s :: ks) = (decide (word = s.text) && Spelling.begin words ks) := by
  unfold Spelling.begin
  rw [map_cons, isPrefixOf_cons_cons, beq_eq_decide]

structure Ending.Allows (ending : Ending) (ks : List Spelling) : Prop where
  noElse : ending.noElse = true → Spelling.begin ["else"] ks = false
  noHandler : ending.noHandler = true → Spelling.begin ["on", "fail"] ks = false

variable {like : Likeness}

theorem Spelled.append {a b : List Spelling} (h : Spelled like lexemes (a ++ b)) :
    ∃ first second, lexemes = first ++ second ∧ Spelled like first a ∧ Spelled like second b := by
  have hsplit := h.spellings
  obtain ⟨first, second, rfl, hfirst, hsecond⟩ := map_eq_append_iff.mp hsplit
  exact ⟨first, second, rfl,
    ⟨hfirst, fun hstrict lexeme hmem => h.bare hstrict lexeme (mem_append_left _ hmem)⟩,
    ⟨hsecond, fun hstrict lexeme hmem => h.bare hstrict lexeme (mem_append_right _ hmem)⟩⟩

theorem Spelled.cons {lexemes : List Lexeme} {s : Spelling} {ks : List Spelling}
    (h : Spelled like lexemes (s :: ks)) :
    ∃ first rest, lexemes = first :: rest ∧ first.token.spelling = s ∧
      (like.strict → first.comments = []) ∧ Spelled like rest ks := by
  obtain ⟨first, rest, rfl, hfirst, hrest⟩ := map_eq_cons_iff.mp h.spellings
  exact ⟨first, rest, rfl, hfirst, fun hstrict => h.bare hstrict first mem_cons_self,
    hrest, fun hstrict lexeme hmem => h.bare hstrict lexeme (mem_cons_of_mem _ hmem)⟩

theorem Spelled.nil {lexemes : List Lexeme} (h : Spelled like lexemes []) : lexemes = [] :=
  map_eq_nil_iff.mp h.spellings

namespace Token

theorem is_of_spelling {cls : TokenClass} (hproper : token.isComment = false)
    (h : token.spelling = ⟨cls, text⟩) (htext : '\n' ∉ text) : token.is text := by
  have hiff := text_eq_iff hproper htext
  rw [h] at hiff
  exact decide_eq_true (hiff.mpr rfl)

theorem spelling_text_of_is (hproper : token.isComment = false) (h : token.is text)
    (htext : '\n' ∉ text) : token.spelling.text = text :=
  (text_eq_iff hproper htext).mp (of_decide_eq_true h)

theorem isWord_of_spelling (h : token.spelling = ⟨.word, text⟩) :
    token.isWord ∧ token.text = text := by
  have hcls := congrArg Spelling.cls h
  unfold Token.spelling at hcls h
  rw [Spelling.cls_of] at hcls
  rw [hcls] at h
  exact ⟨decide_eq_true hcls, congrArg Spelling.text h⟩

end Token

namespace Mirrors

theorem append {a a' b b' : List Statement} (h : Mirrors like a a') (h' : Mirrors like b b') :
    Mirrors like (a ++ b) (a' ++ b') := by
  induction h with
  | nil => exact h'
  | omitted homits _ ih => exact .omitted homits ih
  | comment hstrict _ ih => exact .comment hstrict ih
  | plain hplain _ ih => exact .plain hplain ih
  | cond hcondition hbody hnothing hotherwise _ _ _ ih =>
    exact .cond hcondition hbody hnothing hotherwise ih
  | loop hcondition hbody hhandlers hhandler _ _ _ ih =>
    exact .loop hcondition hbody hhandlers hhandler ih
  | each htyped hcollection hbody hhandlers hhandler _ _ _ ih =>
    exact .each htyped hcollection hbody hhandlers hhandler ih
  | attempt hbody hhandlers hhandler _ _ _ ih => exact .attempt hbody hhandlers hhandler ih
  | lock hbody hhandlers hhandler _ _ _ ih => exact .lock hbody hhandlers hhandler ih

theorem comments {found : List Statement} (hstrict : like.strict → found = [])
    (hfound : ∀ statement ∈ found, ∃ extent lines, statement = .comment extent lines) :
    Mirrors like [] found := by
  induction found with
  | nil => exact .nil
  | cons first rest ih =>
    obtain ⟨extent, lines, rfl⟩ := hfound first mem_cons_self
    cases hlike : like.strict with
    | true => exact absurd (hstrict hlike) (cons_ne_nil _ _)
    | false =>
      refine .comment hlike (ih (fun h => ?_) fun statement hmem =>
        hfound statement (mem_cons_of_mem _ hmem))
      exact absurd (h.symm.trans hlike) (by decide)

end Mirrors

namespace StatementReader

open Cursor Reader

variable {src : Source} {c : Cursor} {ts : List Spelling}

theorem Sits.take {taken : List Lexeme} (h : Sits src c) (hrest : c.rest = taken ++ rest) :
    ∃ c', c.Takes taken c' ∧ c'.rest = rest ∧ Sits src c' := by
  have htakes : c.Takes taken { c with rest := rest, last := stopOf c.last (flat taken) } :=
    ⟨hrest, rfl, rfl⟩
  exact ⟨_, htakes, rfl, (h.takes htakes).1⟩

/-- The comments before a lexeme are found as statements of their own. -/
theorem Sits.strip {comments : List Token} (hsits : Sits src c)
    (hrest : c.rest = ⟨comments, token⟩ :: rest) :
    ∃ found c', (∀ statement ∈ found, ∃ extent lines, statement = .comment extent lines) ∧
      (comments = [] → found = []) ∧ c'.rest = ⟨[], token⟩ :: rest ∧ c'.log = c.log ∧
      Sits src c' ∧ ∀ statements c'', Reads src (.statements statements) c' c'' →
        Reads src (.statements (found ++ statements)) c c'' := by
  -- Each run of comments takes at least its first one.
  induction hlength : comments.length using Nat.strong_induction_on generalizing comments c with
  | _ length ih =>
    cases comments with
    | nil =>
      exact ⟨[], c, nofun, fun _ => rfl, hrest, rfl, hsits,
        fun _ _ hreads => hreads⟩
    | cons first comments =>
      rcases hrun : commentRun first comments with ⟨run, left⟩
      have hsplit := congrArg List.length (commentRun_append first comments)
      rw [hrun, length_append] at hsplit
      dsimp only at hsplit
      have hcomment : ∃ comment c₁, comment? src c = .ok (some comment) c₁ ∧
          (∃ extent lines, comment = .comment extent lines) ∧
          c₁.rest = ⟨left, token⟩ :: rest ∧ c₁.log = c.log := by
        unfold comment?
        rw [hrest]
        dsimp only
        rw [hrun]
        exact ⟨_, _, rfl, ⟨_, _, rfl⟩, rfl, rfl⟩
      obtain ⟨comment, c₁, hread, hform, hrest₁, hlog₁⟩ := hcomment
      obtain ⟨_, _, _, hsteps, -⟩ := comment?_steps hread
      rw [length_cons] at hlength
      obtain ⟨found, c', hfound, -, hrest', hlog', hsits', hreads⟩ :=
        ih left.length (by omega) (hsits.lays hsteps).2 hrest₁ rfl
      refine ⟨comment :: found, c', ?_, fun h => absurd h (cons_ne_nil _ _), hrest',
        hlog'.trans hlog₁, hsits', fun statements c'' h => .comment hread (hreads statements c'' h)⟩
      intro statement hmem
      rcases mem_cons.mp hmem with rfl | hmem
      · exact hform
      · exact hfound statement hmem

/-- Wherever lexemes are spelled as given and what follows is allowed to, something is found that
takes exactly these lexemes and reports no problem. -/
def Finds (like : Likeness) (ks : List Spelling) (ending : Ending)
    (found : Source → Cursor → Cursor → Prop) : Prop :=
  ∀ src c lexemes rest, Sits src c → c.rest = lexemes ++ rest → Spelled like lexemes ks →
    ending.Allows (spellings rest) → ∃ c', c'.rest = rest ∧ c'.log = c.log ∧ found src c c'

theorem allows_of_no : (({} : Ending)).Allows ks :=
  ⟨fun h => absurd h (by decide), fun h => absurd h (by decide)⟩

/-- The spelling of a symbol or a keyword. -/
def mark (text : Text) : Spelling := ⟨.symbol, text⟩

def keyword (text : Text) : Spelling := ⟨.word, text⟩

theorem Token.spelling_of_isWord (h : token.isWord) :
    token.spelling = keyword token.text := by
  unfold Token.spelling
  rw [of_decide_eq_true h]
  rfl

/-- The spellings of a block around those of its statements. -/
def braced (ks : List Spelling) : List Spelling := mark "\x7b" :: (ks ++ [mark "\x7d"])

def BlockFound (like : Likeness) (statements : List Statement) (src : Source) (c c' : Cursor) :
    Prop :=
  ∃ body, Reads src (.block body) c c' ∧ Mirrors like statements body.statements

/-- A statement is found at its first token, before which no comments stand. -/
def FindsStatement (like : Likeness) (ks : List Spelling) (ending : Ending)
    (statement : Statement) : Prop :=
  ∀ src c first more rest, Sits src c → c.rest = ⟨[], first⟩ :: more ++ rest →
    Spelled like (⟨[], first⟩ :: more) ks → ending.Allows (spellings rest) →
    first.is "\x7d" = false ∧ ∃ found c', c'.rest = rest ∧ c'.log = c.log ∧
      Reads src (.statement found) c c' ∧ Mirrors like [statement] [found]

/-- The statements of a block, with the spellings of those that are written again. -/
inductive Lines (like : Likeness) : List Statement → List Spelling → Prop
  | nil : Lines like [] []
  | omitted {statement : Statement} {rest : List Statement} {ks : List Spelling}
      (homits : like.omits statement = true) (hrest : Lines like rest ks) :
      Lines like (statement :: rest) ks
  | cons {statement : Statement} {rest : List Statement} {ks more : List Spelling}
      {ending : Ending} (hne : ks ≠ [])
      (hfinds : FindsStatement like ks ending statement)
      (hfollow : ∀ tail, ending.Allows (more ++ mark "\x7d" :: tail))
      (hrest : Lines like rest more) :
      Lines like (statement :: rest) (ks ++ more)

theorem spellings_append (a b : List Lexeme) : spellings (a ++ b) = spellings a ++ spellings b :=
  map_append

/-- The statements of a block are found up to its closing brace, with any comments between them. -/
theorem Lines.finds {statements : List Statement} (h : Lines like statements ks) {closing : Lexeme}
    (hsits : Sits src c) (hrest : c.rest = lexemes ++ closing :: rest)
    (hspelled : Spelled like (lexemes ++ [closing]) (ks ++ [mark "\x7d"])) :
    ∃ found c', c'.rest = ⟨[], closing.token⟩ :: rest ∧ c'.log = c.log ∧
      Reads src (.statements found) c c' ∧ Mirrors like statements found := by
  induction h generalizing c lexemes with
  | nil =>
    obtain rfl : lexemes = [] := by
      have hlength := congrArg List.length hspelled.spellings
      simpa [spellings] using hlength
    obtain ⟨first, _, hsplit, hspelling, hbare, -⟩ := hspelled.cons
    obtain ⟨rfl, -⟩ := List.cons.inj hsplit
    have hproper := hsits.proper closing (by rw [hrest]; simp)
    obtain ⟨found, c', hfound, hnone, hrest', hlog', hsits', hreads⟩ := hsits.strip hrest
    have hclosing := is_of_spelling hproper.1 hspelling (by decide)
    refine ⟨found, c', hrest', hlog', ?_, .comments (fun hstrict => hnone (hbare hstrict)) hfound⟩
    have hdone := hreads [] c' (.done hrest' hclosing)
    rwa [append_nil] at hdone
  | omitted homits _ ih =>
    obtain ⟨found, c', hrest', hlog', hreads, hmirrors⟩ := ih hsits hrest hspelled
    exact ⟨found, c', hrest', hlog', hreads, .omitted homits hmirrors⟩
  | @cons statement others ks more ending hne hfinds hfollow hlines ih =>
    rw [append_assoc] at hspelled
    obtain ⟨front, _, hsplit, hfront, hback⟩ := hspelled.append
    obtain ⟨left, _, rfl, hleft, hlast⟩ := hback.append
    obtain ⟨last, _, rfl, hspelling, hbare, hnil⟩ := hlast.cons
    obtain rfl := hnil.nil
    rw [← append_assoc] at hsplit
    obtain ⟨rfl, hclosing⟩ := append_inj' hsplit rfl
    obtain rfl : closing = last := (List.cons.inj hclosing).1
    obtain ⟨s, ks, rfl⟩ := exists_cons_of_ne_nil hne
    obtain ⟨⟨comments, token⟩, front, rfl, hfirst, hcomments, htail⟩ := hfront.cons
    have hrest : c.rest = ⟨comments, token⟩ :: (front ++ (left ++ closing :: rest)) := by
      rw [hrest]
      simp
    obtain ⟨found, c₁, hfound, hnone, hrest₁, hlog₁, hsits₁, hreads₁⟩ := hsits.strip hrest
    have hspelled₁ : Spelled like (⟨[], token⟩ :: front) (s :: ks) := by
      refine ⟨hfront.spellings, fun hstrict lexeme hmem => ?_⟩
      rcases mem_cons.mp hmem with rfl | hmem
      · rfl
      · exact htail.bare hstrict lexeme hmem
    have hafter : ending.Allows (spellings (left ++ closing :: rest)) := by
      rw [spellings_append, hleft.spellings]
      unfold spellings
      rw [map_cons, hspelling]
      exact hfollow _
    obtain ⟨hbrace, written, c₂, hrest₂, hlog₂, hreads₂, hmirrors₂⟩ :=
      hfinds src c₁ token front _ hsits₁ hrest₁ hspelled₁ hafter
    obtain ⟨others', c', hrest', hlog', hreads', hmirrors'⟩ :=
      ih (hsits₁.reads hreads₂).1 hrest₂ hback
    refine ⟨found ++ written :: others', c', hrest', hlog'.trans (hlog₂.trans hlog₁),
      hreads₁ _ _ (.cons hrest₁ hbrace hreads₂ hreads'), ?_⟩
    have hcommentsMirror := Mirrors.comments (fun hstrict => hnone (hcomments hstrict)) hfound
    exact hcommentsMirror.append (hmirrors₂.append hmirrors')

theorem Lines.block {statements : List Statement} {ks : List Spelling}
    (h : Lines like statements ks) : Finds like (braced ks) {} (BlockFound like statements) := by
  intro src c lexemes rest hsits hrest hspelled _
  obtain ⟨opening, _, rfl, hspelling, -, hinner⟩ := hspelled.cons
  obtain ⟨lexemes, last, rfl, hfront, hlast⟩ := hinner.append
  obtain ⟨closing, _, rfl, hclosing, -, hnil⟩ := hlast.cons
  obtain rfl := hnil.nil
  have hproper := hsits.proper opening (by rw [hrest]; simp)
  have hproper' := hsits.proper closing (by rw [hrest]; simp)
  have hrest : c.rest = [opening] ++ (lexemes ++ closing :: rest) := by
    rw [hrest]
    simp
  obtain ⟨c₁, hopens, hrest₁, hsits₁⟩ := hsits.take hrest
  obtain ⟨found, c₂, hrest₂, hlog₂, hreads, hmirrors⟩ := h.finds hsits₁ hrest₁ hinner
  have hsits₂ := (hsits₁.reads hreads).1
  have hrest₂ : c₂.rest = [⟨[], closing.token⟩] ++ rest := hrest₂
  obtain ⟨c', hcloses, hrest', -⟩ := hsits₂.take hrest₂
  refine ⟨c', hrest', hcloses.log.trans (hlog₂.trans hopens.log), _,
    .block hopens (is_of_spelling hproper.1 hspelling (by decide)) hreads hcloses
      (is_of_spelling hproper'.1 hclosing (by decide)), hmirrors⟩

/-- A block and what follows it are found one after the other. -/
theorem Lines.followed {statements : List Statement} {after : List Spelling}
    {found : Source → Cursor → Cursor → Prop} (h : Lines like statements ks)
    (hafter : Finds like after ending found) :
    Finds like (braced ks ++ after) ending fun src c c' => ∃ body c₁,
      Reads src (.block body) c c₁ ∧ Mirrors like statements body.statements ∧ found src c₁ c' := by
  intro src c lexemes rest hsits hrest hspelled hallows
  obtain ⟨front, back, rfl, hfront, hback⟩ := hspelled.append
  rw [append_assoc] at hrest
  obtain ⟨c₁, hrest₁, hlog₁, body, hreads, hmirrors⟩ :=
    h.block src c front _ hsits hrest hfront allows_of_no
  obtain ⟨c', hrest', hlog', hfound⟩ :=
    hafter src c₁ back rest (hsits.reads hreads).1 hrest₁ hback hallows
  exact ⟨c', hrest', hlog'.trans hlog₁, body, c₁, hreads, hmirrors, hfound⟩

/-- Something is found after other lexemes. -/
theorem Finds.behind {front : List Spelling} {found : Source → Cursor → Cursor → Prop}
    (h : Finds like ks ending found) :
    Finds like (front ++ ks) ending fun src c c' => ∃ taken c₁, c.Takes taken c₁ ∧
      Spelled like taken front ∧ found src c₁ c' := by
  intro src c lexemes rest hsits hrest hspelled hallows
  obtain ⟨taken, back, rfl, hfront, hback⟩ := hspelled.append
  rw [append_assoc] at hrest
  obtain ⟨c₁, htakes, hrest₁, hsits₁⟩ := hsits.take hrest
  obtain ⟨c', hrest', hlog', hfound⟩ := h src c₁ back rest hsits₁ hrest₁ hback hallows
  exact ⟨c', hrest', hlog'.trans htakes.log, taken, c₁, htakes, hfront, hfound⟩

theorem Spelled.keyword {word : Text} (hword : '\n' ∉ word)
    (h : Spelled like lexemes (keyword word :: ks)) (hsits : Sits src c)
    (hrest : c.rest = lexemes ++ rest) :
    ∃ first taken, lexemes = first :: taken ∧ first.token.is word ∧ Spelled like taken ks := by
  obtain ⟨first, taken, rfl, hfirst, -, htaken⟩ := h.cons
  have hproper := hsits.proper first (by rw [hrest]; simp)
  exact ⟨first, taken, rfl, is_of_spelling hproper.1 hfirst hword, htaken⟩

/-- The type is found again before the name. -/
def TypeFound (like : Likeness) (ks : List Spelling) (name typeName : Text) : Prop :=
  ∀ src c typed word rest, Sits src c → c.rest = typed ++ word :: rest → Spelled like typed ks →
    word.token.spelling = keyword name →
    ∃ found, TypeText.Names src typed (word :: rest) found ∧ like.texts typeName found

/-- An expression that ends before a block is found again. -/
def ExprFound (like : Likeness) (ks : List Spelling) (agree : Expr → Prop) : Prop :=
  ∀ src c taken rest, Sits src c → c.rest = taken ++ rest → Spelled like taken ks →
    ∃ found, ExprReader.Forms src "\x7b" taken found ∧ agree found

theorem ExprFound.after {word : Text} {agree : Expr → Prop} (hword : '\n' ∉ word)
    (h : ExprFound like ks agree) (hspelled : Spelled like lexemes (keyword word :: ks))
    (hsits : Sits src c) (hrest : c.rest = lexemes ++ rest) :
    ∃ first taken found, lexemes = first :: taken ∧ first.token.is word ∧
      ExprReader.Forms src "\x7b" taken found ∧ agree found := by
  obtain ⟨first, taken, rfl, hfirst, htaken⟩ := Spelled.keyword hword hspelled hsits hrest
  have hstart : c.rest = [first] ++ (taken ++ rest) := hrest
  obtain ⟨c₀, -, hrest₀, hsits₀⟩ := hsits.take hstart
  obtain ⟨found, hforms, hagree⟩ := h src c₀ taken _ hsits₀ hrest₀ htaken
  exact ⟨first, taken, found, rfl, hfirst, hforms, hagree⟩

def HandlerFound (like : Likeness) (handler : Handler) (src : Source) (c c' : Cursor) : Prop :=
  ∃ found, Reads src (.handler found) c c' ∧ like.handlers handler found ∧
    Mirrors like handler.statements found.statements

theorem finds_unhandled : Finds like [] { noHandler := true } (HandlerFound like .nothing) := by
  intro src c lexemes rest hsits hrest hspelled hallows
  obtain rfl := hspelled.nil
  refine ⟨c, hrest, rfl, .nothing, .unhandled ?_, trivial, .nil⟩
  have hno := hallows.noHandler rfl
  rw [nil_append] at hrest
  rw [← hrest] at hno
  rw [Bool.and_eq_false_iff, ← Bool.not_eq_true, ← Bool.not_eq_true, ← not_and_or]
  rintro ⟨hon, hfail⟩
  obtain ⟨first, hfirst, hon⟩ := rest_of_at? hon
  have hsecond : c.next.at? "fail" := by
    unfold peekSecond? at hfail
    rw [hfirst] at hfail
    exact hfail
  obtain ⟨second, hnext, hfail⟩ := rest_of_at? hsecond
  have hrest' : c.rest = first :: second :: c.next.next.rest := by rw [hfirst, hnext]
  have hproper := hsits.proper first (by rw [hrest']; simp)
  have hproper' := hsits.proper second (by rw [hrest']; simp)
  rw [hrest'] at hno
  unfold Spelling.begin spellings at hno
  simp only [map_cons, spelling_text_of_is hproper.1 hon (by decide),
    spelling_text_of_is hproper'.1 hfail (by decide)] at hno
  exact absurd hno (by simp)

/-- What a handler binds is found again between its keywords and its block. -/
def BindingFound (like : Likeness) (ks : List Spelling) (binding : Option (Text × Text)) : Prop :=
  ∀ src c taken rest, Sits src c → c.rest = taken ++ rest → Spelled like taken ks →
    ∃ found, Binds src rest taken found ∧
      ∀ body body', like.handlers (.onFail binding body) (.onFail found body')

theorem binding_nothing : BindingFound like [] none := by
  intro src c taken rest _ _ hspelled
  obtain rfl := hspelled.nil
  exact ⟨none, .nothing, fun _ _ => trivial⟩

theorem binding_error {typeName name : Text} (htyped : TypeFound like ts name typeName)
    (hbrace : Spelling.begin ["\x7b"] ts = false) :
    BindingFound like (ts ++ [keyword name]) (some (typeName, name)) := by
  intro src c taken rest hsits hrest hspelled
  obtain ⟨typed, _, rfl, htypes, hlast⟩ := hspelled.append
  obtain ⟨word, _, rfl, hword, -, hnil⟩ := hlast.cons
  obtain rfl := hnil.nil
  obtain ⟨hisWord, rfl⟩ := isWord_of_spelling hword
  rw [append_assoc] at hrest
  obtain ⟨found, hnames, htexts⟩ := htyped src c typed word rest hsits hrest htypes hword
  refine ⟨some (found, word.token.text), .error ?_ hnames hisWord, fun _ _ => ⟨htexts, rfl⟩⟩
  cases typed with
  | nil => rfl
  | cons first more =>
    refine eq_false_of_ne_true fun his => ?_
    have hfirst := hsits.proper first (by rw [hrest]; simp)
    have htext := spelling_text_of_is hfirst.1 his (by decide)
    rw [← htypes.spellings] at hbrace
    unfold Spelling.begin spellings at hbrace
    simp only [map_cons, htext] at hbrace
    exact absurd hbrace (by simp)

theorem finds_handled {binding : Option (Text × Text)} {body : Block}
    (hbinding : BindingFound like ts binding) (h : Lines like body.statements ks) :
    Finds like (keyword "on" :: keyword "fail" :: ts ++ braced ks) {}
      (HandlerFound like (.onFail binding body)) := by
  intro src c lexemes rest hsits hrest hspelled hallows
  obtain ⟨c', hrest', hlog', _, c₁, htakes, hfront, found, hreads, hmirrors⟩ :=
    h.block.behind src c lexemes rest hsits hrest hspelled hallows
  obtain ⟨on, _, rfl, hon, hfront⟩ := Spelled.keyword (by decide) hfront hsits htakes.rest
  obtain ⟨a, -, hresta, hsitsa⟩ := @Sits.take _ src c [on] hsits htakes.rest
  obtain ⟨fail, taken, rfl, hfail, hfront⟩ := Spelled.keyword (by decide) hfront hsitsa hresta
  obtain ⟨b, -, hrestb, hsitsb⟩ := @Sits.take _ src a [fail] hsitsa hresta
  obtain ⟨binding', hbinds, hagree⟩ := hbinding src b taken _ hsitsb hrestb hfront
  exact ⟨c', hrest', hlog', .onFail binding' found, .handled htakes hon hfail hbinds hreads,
    hagree _ _, hmirrors⟩

def OtherFound (like : Likeness) (otherwise : Otherwise) (src : Source) (c c' : Cursor) : Prop :=
  ∃ found, Reads src (.other found) c c' ∧ otherwise.isNothing = found.isNothing ∧
    Mirrors like otherwise.statements found.statements

def CondFound (like : Likeness) (condition : Expr) (body : Block) (otherwise : Otherwise)
    (src : Source) (c c' : Cursor) : Prop :=
  ∃ condition' body' otherwise', Reads src (.conditional condition' body' otherwise') c c' ∧
    ∀ extent extent', Mirrors like [.cond extent condition body otherwise]
      [.cond extent' condition' body' otherwise']

variable {condition : Expr} {body : Block} {otherwise : Otherwise} {cs bs os : List Spelling}

theorem finds_alone : Finds like [] { noElse := true } (OtherFound like .nothing) := by
  intro src c lexemes rest hsits hrest hspelled hallows
  obtain rfl := hspelled.nil
  refine ⟨c, hrest, rfl, .nothing, .alone (eq_false_of_ne_true fun hat => ?_), rfl, .nil⟩
  obtain ⟨next, hnext, helse⟩ := rest_of_at? hat
  have hproper := hsits.proper next (by rw [hnext]; simp)
  have hno := hallows.noElse rfl
  rw [← nil_append rest, ← hrest, hnext] at hno
  unfold Spelling.begin spellings at hno
  simp only [map_cons, spelling_text_of_is hproper.1 helse (by decide)] at hno
  exact absurd hno (by simp)

theorem finds_fallback (hgiven : otherwise.isNothing = false)
    (hotherwise : Lines like otherwise.statements os) :
    Finds like (keyword "else" :: braced os) {} (OtherFound like otherwise) := by
  intro src c lexemes rest hsits hrest hspelled hallows
  obtain ⟨c', hrest', hlog', _, c₁, htakes, hfront, last, hlast, hmirrors⟩ :=
    @Finds.behind _ _ _ [keyword "else"] _ hotherwise.block src c lexemes rest hsits hrest hspelled
      hallows
  obtain ⟨other, _, rfl, helse, hnil⟩ := Spelled.keyword (by decide) hfront hsits htakes.rest
  obtain rfl := hnil.nil
  exact ⟨c', hrest', hlog', .block last, .fallback htakes helse hlast, hgiven, hmirrors⟩

/-- A condition that is all there is after an else goes on as a further condition. -/
theorem finds_chained {inner : Expr} {innerBody : Block} {innerOtherwise : Otherwise}
    (hgiven : otherwise.isNothing = false)
    (hinner : Finds like os ending (CondFound like inner innerBody innerOtherwise))
    (hsole : ∀ found, (∀ extent, Mirrors like [.cond extent inner innerBody innerOtherwise] [found])
      → Mirrors like otherwise.statements [found]) :
    Finds like (keyword "else" :: os) ending (OtherFound like otherwise) := by
  intro src c lexemes rest hsits hrest hspelled hallows
  obtain ⟨c', hrest', hlog', _, c₁, htakes, hfront, condition', body', otherwise', hreads,
    hmirrors⟩ := @Finds.behind _ _ _ [keyword "else"] _ hinner src c lexemes rest hsits hrest
      hspelled hallows
  obtain ⟨other, _, rfl, helse, hnil⟩ := Spelled.keyword (by decide) hfront hsits htakes.rest
  obtain rfl := hnil.nil
  obtain ⟨next, hpeek, -⟩ := hreads.conditional_first
  obtain ⟨comments, hnext⟩ := rest_of_peek? hpeek
  exact ⟨c', hrest', hlog', _, .chained htakes helse hnext hreads, hgiven,
    hsole _ fun extent => hmirrors extent _⟩

/-- A condition, its block and what follows the block are found one after the other. -/
theorem finds_conditional (hcondition : ExprFound like cs (like.conditions condition))
    (hbody : Lines like body.statements bs)
    (hother : Finds like os ending (OtherFound like otherwise)) :
    Finds like (keyword "if" :: cs ++ (braced bs ++ os)) ending
      (CondFound like condition body otherwise) := by
  intro src c lexemes rest hsits hrest hspelled hallows
  obtain ⟨c', hrest', hlog', _, c₁, htakes, hfront, body', c₂, hreads, hmirrors, other, hreads',
    hnothing, hmirrors'⟩ :=
      (hbody.followed hother).behind src c lexemes rest hsits hrest hspelled hallows
  obtain ⟨first, taken, found, rfl, hif, hforms, hagree⟩ :=
    hcondition.after (by decide) hfront hsits htakes.rest
  exact ⟨c', hrest', hlog', found, body', other, .conditional htakes hif hforms hreads hreads',
    fun _ _ => .cond hagree hmirrors hnothing hmirrors' .nil⟩

theorem finds_cond (extent : Extent)
    (h : Finds like ks ending (CondFound like condition body otherwise)) :
    FindsStatement like ks ending (.cond extent condition body otherwise) := by
  intro src c first more rest hsits hrest hspelled hallows
  obtain ⟨c', hrest', hlog', condition', body', otherwise', hreads, hmirrors⟩ :=
    h src c _ rest hsits hrest hspelled hallows
  obtain ⟨keyword, hpeek, hif⟩ := hreads.conditional_first
  unfold peek? at hpeek
  rw [hrest] at hpeek
  obtain rfl : first = keyword := Option.some.inj hpeek
  exact ⟨is_of_is hif (by decide), _, c', hrest', hlog', .cond hrest hreads, hmirrors extent _⟩

variable {handler : Handler} {hs : List Spelling} {make : Extent → Block → Handler → Statement}

/-- What stands before the body of a statement with a handler is found again. -/
def HeadFound (like : Likeness) (ks : List Spelling)
    (make : Extent → Block → Handler → Statement) : Prop :=
  ∀ src c taken rest, Sits src c → c.rest = taken ++ rest → Spelled like taken ks →
    ∃ found, Head src rest taken found ∧ ∀ {extent extent' body body' handler handler'},
      Mirrors like body.statements body'.statements → like.handlers handler handler' →
      Mirrors like handler.statements handler'.statements →
      Mirrors like [make extent body handler] [found extent' body' handler']

theorem head_loop (hcondition : ExprFound like cs (like.conditions condition)) :
    HeadFound like (keyword "while" :: cs) (.loop · condition) := by
  intro src c taken rest hsits hrest hspelled
  obtain ⟨first, taken, found, rfl, hwhile, hforms, hagree⟩ :=
    hcondition.after (by decide) hspelled hsits hrest
  exact ⟨_, .loop hwhile hforms,
    fun hbody hhandlers hhandler => .loop hagree hbody hhandlers hhandler .nil⟩

theorem head_each {typeName name : Text} {collection : Expr} {es : List Spelling}
    (htyped : TypeFound like ts name typeName)
    (hcollection : ExprFound like es (like.exprs collection)) :
    HeadFound like (keyword "foreach" :: (ts ++ keyword name :: keyword "in" :: es))
      (.each · typeName name collection) := by
  intro src c taken rest hsits hrest hspelled
  obtain ⟨first, _, rfl, hforeach, hspelled⟩ := Spelled.keyword (by decide) hspelled hsits hrest
  obtain ⟨typed, _, rfl, htypes, hspelled⟩ := hspelled.append
  obtain ⟨word, _, rfl, hname, -, hafter⟩ := hspelled.cons
  rw [cons_append, append_assoc] at hrest
  obtain ⟨a, -, hresta, hsitsa⟩ := @Sits.take _ src c [first] hsits hrest
  obtain ⟨b, -, hrestb, hsitsb⟩ := hsitsa.take hresta
  obtain ⟨d, -, hrestd, hsitsd⟩ := @Sits.take _ src b [word] hsitsb hrestb
  obtain ⟨hisWord, rfl⟩ := isWord_of_spelling hname
  obtain ⟨typeName', hnames, htexts⟩ := htyped src a typed word _ hsitsa hresta htypes hname
  obtain ⟨other, taken, collection', rfl, hin, hforms, hagree⟩ :=
    hcollection.after (by decide) hafter hsitsd hrestd
  exact ⟨_, .each hforeach hnames hisWord hin hforms,
    fun hbody hhandlers hhandler => .each htexts hagree hbody hhandlers hhandler .nil⟩

theorem head_attempt : HeadFound like [keyword "do"] .attempt := by
  intro src c taken rest hsits hrest hspelled
  obtain ⟨first, _, rfl, hdo, hnil⟩ := Spelled.keyword (by decide) hspelled hsits hrest
  obtain rfl := hnil.nil
  exact ⟨_, .attempt hdo, fun hbody hhandlers hhandler => .attempt hbody hhandlers hhandler .nil⟩

theorem head_lock : HeadFound like [keyword "lock"] .lock := by
  intro src c taken rest hsits hrest hspelled
  obtain ⟨first, _, rfl, hlock, hnil⟩ := Spelled.keyword (by decide) hspelled hsits hrest
  obtain rfl := hnil.nil
  exact ⟨_, .lock hlock, fun hbody hhandlers hhandler => .lock hbody hhandlers hhandler .nil⟩

theorem Head.first (h : Head src rest lexemes make) :
    ∃ keyword taken, lexemes = keyword :: taken ∧ keyword.token.is "\x7d" = false := by
  cases h with
  | loop hkeyword | each hkeyword | attempt hkeyword | lock hkeyword =>
    exact ⟨_, _, rfl, is_of_is hkeyword (by decide)⟩

/-- A statement with a handler is found by its head, its body and its handler. -/
theorem finds_guarded (extent : Extent) (hhead : HeadFound like ks make)
    (hbody : Lines like body.statements bs)
    (hhandler : Finds like hs ending (HandlerFound like handler)) :
    FindsStatement like (ks ++ (braced bs ++ hs)) ending (make extent body handler) := by
  intro src c first more rest hsits hrest hspelled hallows
  obtain ⟨c', hrest', hlog', _, c₁, htakes, hfront, body', c₂, hreads, hmirrors, handler', hreads',
    hhandlers, hmirrors'⟩ :=
      (hbody.followed hhandler).behind src c _ rest hsits hrest hspelled hallows
  obtain ⟨found, hfound, hagree⟩ := hhead src c _ _ hsits htakes.rest hfront
  obtain ⟨keyword, taken, rfl, hbrace⟩ := hfound.first
  obtain rfl : keyword = ⟨[], first⟩ := (List.cons.inj (htakes.rest.symm.trans hrest)).1
  exact ⟨hbrace, _, c', hrest', hlog', .guarded htakes hfound hreads hreads',
    hagree hmirrors hhandlers hmirrors'⟩

end StatementReader

end Flowchart

import Flowchart.Proofs.Declaring
import Flowchart.Proofs.Rewriting

/-!
Rendering a statement and reading it again. The text that is rendered from the node of a statement,
put in braces, is read as a block with this statement in it. Two things break this: an assignment whose
target reaches past its semicolon, and a statement that starts with an else after a condition that
loses the braces of its own else.
-/
namespace Flowchart

open Lexeme Token StatementReader List Statement SourceFile

variable {ks : List Spelling} {statement : Statement} {rest lexemes : List Lexeme} {make : Shape}
  {c c' : Cursor}

variable {like : Likeness} {setting : Setting} {width : Nat} {src : Source}
  {good : Statement → Prop}

/-- The first two of some spellings decide whether they begin with two words. -/
theorem Spelling.begin_two {words : List Text} (hwords : words.length = 2) (hks : 2 ≤ ks.length)
    (tail tail' : List Spelling) :
    Spelling.begin words (ks ++ tail) = Spelling.begin words (ks ++ tail') := by
  obtain ⟨first, second, rfl⟩ := length_eq_two.mp hwords
  match ks, hks with
  | a :: b :: more, _ =>
    rfl

namespace Lexeme

theorem spellings_ofTokens (pending tokens : List Token) :
    spellings (ofTokens pending tokens) = Spelling.uncommented (tokens.map Token.spelling) := by
  have hplain : (fun s : Spelling => !s.isComment) ∘ spelling = fun token => !token.isComment :=
    funext fun token => congrArg (!·) (isComment_spelling token)
  rw [Spelling.uncommented, filter_map, hplain, ← map_token_ofTokens pending, map_map]
  rfl

theorem bare_ofTokens {tokens : List Token} (h : ∀ token ∈ tokens, token.isComment = false) :
    ∀ lexeme ∈ ofTokens [] tokens, lexeme.comments = [] := by
  induction tokens with
  | nil => exact nofun
  | cons token tokens ih =>
    unfold ofTokens
    rw [h token mem_cons_self]
    intro lexeme hmem
    rcases mem_cons.mp hmem with rfl | hmem
    · rfl
    · exact ih (fun other hother => h other (mem_cons_of_mem _ hother)) lexeme hmem

end Lexeme

/-- A text that is spelled like a block with some lines in it is read as a block with the statements of
the lines. -/
theorem StatementReader.Lines.read_shows {statements : List Statement} {ss : List Spelling}
    (h : Lines like statements ks) (hspells : Text.Spells src.text ss)
    (hshows : Spelling.Shows like ss (braced ks)) :
    ∃ block, Block.read src = .ok block ∧ Mirrors like statements block.statements := by
  obtain ⟨tokens, hcuts, rfl⟩ := hspells.cuts {}
  have hscan := Token.scan_eq_ok_iff.mpr hcuts
  have hsits := FileReader.sits_of_scan hscan
  have hspelled : Spelled like (ofTokens [] tokens) (braced ks) := by
    refine ⟨?_, fun hstrict => bare_ofTokens fun token hmem => ?_⟩
    · rw [spellings_ofTokens, hshows.uncommented]
    · have hplain := hshows.uncommented
      rw [← hshows.strict hstrict] at hplain
      have hnone := filter_eq_self.mp hplain _ (mem_map_of_mem hmem)
      unfold Spelling.isComment Token.spelling at hnone
      simpa [Token.isComment] using hnone
  obtain ⟨c', hrest, hlog, block, hreads, hmirrors⟩ := h.block _ { rest := ofTokens [] tokens }
    (ofTokens [] tokens) [] hsits (append_nil _).symm hspelled allows_of_no
  exact ⟨block, Block.read_of_reads hscan hreads hlog hrest, hmirrors⟩

theorem StatementReader.Lines.read {statements : List Statement} {text : Text}
    (h : Lines like statements ks) (hputs : Text.Puts like text ks) (file : Text) :
    ∃ block, Block.read ⟨file, "\x7b" ++ text ++ "\x7d"⟩ = .ok block ∧
      Mirrors like statements block.statements := by
  obtain ⟨ss, hwrites, hshows⟩ := (hputs.close (c := '\x7d') (by decide)).lone (c := '\x7b') (by decide)
  exact h.read_shows hwrites.spells hshows

/-- The tokens of a text are neither comments nor run over several lines. -/
def Text.isClean (text : Text) : Bool :=
  (Text.tokens? text).any fun tokens =>
    tokens.all fun token => token.1 ≠ .comment && '\n' ∉ token.2

theorem Text.Spells.clean {text : Text} {ss : List Spelling} (h : Spells text ss)
    (hclean : text.isClean) : ∀ s ∈ ss, s.Clean := by
  obtain ⟨tokens, hcuts, rfl⟩ := h.cuts {}
  intro s hs
  obtain ⟨token, hmem, rfl⟩ := mem_map.mp hs
  unfold isClean Text.tokens? at hclean
  rw [Token.scan_eq_ok_iff.mpr hcuts] at hclean
  have hall := all_eq_true.mp hclean (token.cls, token.text) (mem_map_of_mem hmem)
  rw [Bool.and_eq_true, decide_eq_true_eq, decide_eq_true_eq] at hall
  refine ⟨?_, ?_⟩
  · unfold Token.spelling
    rw [Spelling.cls_of]
    exact hall.1
  · obtain ⟨cls, text, start, stop⟩ := token
    cases cls with
    | comment => exact absurd rfl hall.1
    | quoted =>
      change '\n' ∉ (if '\n' ∈ text then ("\n" : Text) else text)
      rw [if_neg hall.2]
      exact hall.2
    | word | number | symbol => exact hall.2

namespace Statement

/-- The statement was read, and is not just a comment. -/
def isRead : Statement → Bool
  | .comment .. => false
  | .invalid .. => false
  | _ => true

/-- The tokens of a statement are neither comments nor run over several lines. -/
def isClean (statement : Statement) : Bool := Text.isClean statement.source

def startsWith (word : Text) (statement : Statement) : Bool :=
  (Text.tokens? statement.source).any fun tokens => tokens.head?.any (·.2 = word)

theorem within_of_isPlain (h : statement.isPlain) : statement.within = [statement] := by
  cases statement <;> first | exact absurd h Bool.false_ne_true | rw [within]

/-- The statement stands in the file, where a block is not closed. -/
def Stands (src : Source) (statement : Statement) : Prop :=
  ∃ c c', Sits src c ∧ c.rest.head?.any (·.token.is "\x7d") = false ∧
    Reads src (.statement statement) c c'

end Statement

/-- A statement stands in the file; nothing is asked of other phrases. -/
def StatementReader.Phrase.Stands (src : Source) : Phrase → Prop
  | .statement found => found.Stands src
  | _ => True

/-- The cursor at the token of a lexeme, past its comments. -/
def Cursor.past (c : Cursor) (first : Lexeme) (rest : List Lexeme) : Cursor :=
  { c with rest := ⟨[], first.token⟩ :: rest, last := stopOf c.last first.comments }

namespace StatementReader

/-- A condition is read in the same way without the comments before it. -/
theorem Reads.conditional_bare {condition : Expr} {body : Block} {otherwise : Otherwise}
    {first : Lexeme} (h : Reads src (.conditional condition body otherwise) c c')
    (hrest : c.rest = first :: rest) :
    Reads src (.conditional condition body otherwise) (c.past first rest) c' := by
  cases h with
  | conditional htakes hkeyword hcondition hbody hother =>
    obtain ⟨rfl, hmore⟩ := List.cons.inj (hrest.symm.trans htakes.rest)
    refine .conditional ⟨congrArg _ hmore, ?_, htakes.log⟩ hkeyword hcondition hbody hother
    rw [htakes.last, flat, stopOf_append]
    rfl

theorem Sits.past {first : Lexeme} (h : Sits src c) (hrest : c.rest = first :: rest) :
    Sits src (c.past first rest) := by
  have hsteps : Steps c first.comments (c.past first rest) := by
    refine ⟨?_, rfl, ?_⟩
    · rw [hrest]
      rfl
    · rw [hrest]
      exact Within.cons (nil_subset _)
  exact (h.lays hsteps).2

/-- Whatever holds of the statements that stand in a file, of its comments and of what could not be
read in it holds of all that is read of it. -/
theorem Reads.forall_within (hstands : ∀ {statement}, statement.Stands src → good statement)
    (hcomments : ∀ {comment c c'}, Sits src c → comment? src c = .ok (some comment) c' → good comment)
    (hinvalid : ∀ extent, good (.invalid extent)) {phrase : Phrase} (h : Reads src phrase c c')
    (hsits : Sits src c) (hself : phrase.Stands src) :
    ∀ statement ∈ phrase.within, good statement := by
  induction h with
  | plain _ hplain =>
    rw [Phrase.within, within_of_isPlain (hplain.isPlain _)]
    exact forall_mem_singleton.mpr (hstands hself)
  | cond _ _ ih =>
    exact forall_mem_cons.mpr ⟨hstands hself, ih hsits trivial⟩
  | guarded htakes hhead hbody _ ihbody ihhandler =>
    have hsits₁ := (hsits.takes htakes).1
    rw [Phrase.within, hhead.within_eq]
    exact forall_mem_cons.mpr ⟨hstands hself, forall_mem_append.mpr
      ⟨ihbody hsits₁ trivial, ihhandler (hsits₁.reads hbody).1 trivial⟩⟩
  | conditional htakes _ _ hbody _ ihbody ihother =>
    have hsits₁ := (hsits.takes htakes).1
    exact forall_mem_append.mpr ⟨ihbody hsits₁ trivial, ihother (hsits₁.reads hbody).1 trivial⟩
  | alone _ | unhandled _ | done _ _ => exact forall_mem_nil _
  | chained htakes _ hnext hinner ih =>
    have hsits₁ := (hsits.takes htakes).1
    obtain ⟨word, hpeek, hif⟩ := hinner.conditional_first
    unfold Cursor.peek? at hpeek
    rw [hnext] at hpeek
    obtain rfl := Option.some.inj hpeek
    refine forall_mem_cons.mpr ⟨hstands ?_, ih hsits₁ trivial⟩
    exact ⟨_, _, hsits₁.past hnext, is_of_is hif (by decide),
      .cond rfl (hinner.conditional_bare hnext)⟩
  | fallback htakes _ _ ih | handled htakes _ _ _ _ ih => exact ih (hsits.takes htakes).1 trivial
  | block hopens _ hbody _ _ ih =>
    exact ih (hsits.takes hopens).1 trivial
  | comment hcomment hmore ih =>
    have hgood := hcomments hsits hcomment
    obtain ⟨first, run, lines, hsteps, rfl⟩ := comment?_steps hcomment
    exact forall_mem_cons.mpr ⟨hgood, ih (hsits.lays hsteps).2 trivial⟩
  | cons hrest hbrace hstatement _ ihstatement ihmore =>
    refine forall_mem_append.mpr ⟨ihstatement hsits ?_, ihmore (hsits.reads hstatement).1 trivial⟩
    exact ⟨_, _, hsits, by rw [hrest]; exact hbrace, hstatement⟩
  | broken hrest hbrace hskip hleft hlast hlog hmore ih =>
    obtain ⟨more, hsteps⟩ := skipBroken_steps hrest hbrace hskip hleft hlast
    exact forall_mem_cons.mpr ⟨hinvalid _, ih (hsits.lays hsteps).2 trivial⟩

/-- A statement covers the piece from its first token on to where the cursor is after it. -/
theorem Reads.extent_eq (h : Reads src (.statement statement) c c') :
    ∃ first rest, c.rest = ⟨[], first⟩ :: rest ∧
      statement.extent = src.extent first.start c'.last := by
  cases h with
  | plain htakes hplain => exact ⟨_, _, htakes.rest, hplain.extent_eq _⟩
  | cond hfirst _ => exact ⟨_, _, hfirst, rfl⟩
  | guarded htakes hhead => exact ⟨_, _, htakes.rest, by cases hhead <;> rfl⟩

theorem flat_ne_nil (lexeme : Lexeme) (lexemes : List Lexeme) : flat (lexeme :: lexemes) ≠ [] := by
  rw [flat]
  simp

theorem Reads.statement_steps (h : Reads src (.statement statement) c c') :
    ∃ tokens, tokens ≠ [] ∧ Steps c tokens c' := by
  have hstep {lexeme : Lexeme} {taken : List Lexeme} {body : Block} {after : Phrase}
      {c₁ c₂ : Cursor} (htakes : c.Takes (lexeme :: taken) c₁)
      (hbody : Reads src (.block body) c₁ c₂) (hafter : Reads src after c₂ c') :
      ∃ tokens, tokens ≠ [] ∧ Steps c tokens c' := by
    obtain ⟨tokens, hsteps⟩ := hbody.steps
    obtain ⟨others, hsteps'⟩ := hafter.steps
    exact ⟨_, fun hnil => flat_ne_nil _ _ (append_eq_nil_iff.mp hnil).1,
      (Steps.of_takes htakes).trans (hsteps.trans hsteps')⟩
  cases h with
  | plain htakes _ => exact ⟨_, flat_ne_nil _ _, .of_takes htakes⟩
  | cond _ hcond =>
    cases hcond with
    | conditional htakes _ _ hbody hother => exact hstep htakes hbody hother
  | guarded htakes _ hbody hhandler => exact hstep htakes hbody hhandler

/-- The source of a statement is cut into its tokens. -/
theorem Reads.source_spells {tokens : List Token} (h : Reads src (.statement statement) c c')
    (hsits : Sits src c) (hsteps : Steps c tokens c') :
    ∃ first more, tokens = first :: more ∧ c.rest.head? = some ⟨[], first⟩ ∧
      Text.Spells statement.source (tokens.map Token.spelling) := by
  obtain ⟨first, rest, hrest, hextent⟩ := h.extent_eq
  obtain ⟨tokens', hne, hsteps'⟩ := h.statement_steps
  obtain rfl : tokens = tokens' :=
    append_cancel_right (hsteps.rest.symm.trans hsteps'.rest)
  obtain ⟨token, more, rfl⟩ := exists_cons_of_ne_nil hne
  have hflat := hsteps.rest
  rw [hrest, flat] at hflat
  obtain ⟨rfl, -⟩ := List.cons.inj hflat
  have hspells := (hsits.lays hsteps).1.spells
  rw [← hsteps.last] at hspells
  refine ⟨first, more, rfl, by rw [hrest]; rfl, ?_⟩
  rw [source, hextent]
  exact hspells

theorem FitBetween.of_isClean (h : Reads src (.statement statement) c c') (hsits : Sits src c)
    (hclean : statement.isClean) : FitBetween like c c' := by
  intro _ tokens hsteps token hmem
  obtain ⟨-, -, -, -, hspells⟩ := h.source_spells hsits hsteps
  exact hspells.clean hclean _ (mem_map_of_mem hmem)

/-- A statement that does not start with a word is not written with it. -/
theorem spelling_ne {first : Token} {word : Text} (h : Reads src (.statement statement) c c')
    (hsits : Sits src c) (hrest : c.rest = ⟨[], first⟩ :: rest) (hword : '\n' ∉ word)
    (hstarts : statement.startsWith word = false) : word ≠ first.spelling.text := by
  intro htext
  obtain ⟨tokens, -, hsteps⟩ := h.statement_steps
  obtain ⟨first', more, rfl, hhead, hspells⟩ := h.source_spells hsits hsteps
  rw [hrest] at hhead
  obtain rfl : first = first' := congrArg Lexeme.token (Option.some.inj hhead)
  obtain ⟨tokens, hcuts, htokens⟩ := hspells.cuts {}
  obtain ⟨token, others, rfl, hspelling, -⟩ := map_eq_cons_iff.mp htokens
  have hproper := (hsits.proper ⟨[], first⟩ (by rw [hrest]; simp)).1
  have hplain : token.isComment = false := by
    have hcls := congrArg Spelling.cls hspelling
    unfold Token.spelling at hcls
    rw [Spelling.cls_of, Spelling.cls_of] at hcls
    unfold Token.isComment
    rw [hcls]
    exact hproper
  have his : token.text = word :=
    (text_eq_iff hplain hword).mpr ((congrArg Spelling.text hspelling).trans htext.symm)
  unfold startsWith Text.tokens? at hstarts
  rw [Token.scan_eq_ok_iff.mpr hcuts] at hstarts
  simp [Except.toOption, his] at hstarts

theorem Plain.two_le_length (h : Plain src rest lexemes make) : 2 ≤ lexemes.length := by
  cases h with
  | simple _ hsimple => exact hsimple.two_le_length
  | _ => simp

theorem Plain.overreaches_eq (h : Plain src rest lexemes make) (extent extent' : Extent) :
    (make extent).overreaches = (make extent').overreaches := by
  have hsimple {lexemes : List Lexeme} (h : Simple src rest lexemes make) :
      (make extent).overreaches = (make extent').overreaches := by
    cases h <;> rfl
  cases h with
  | bare hbare => cases hbare <;> rfl
  | gives hgives => cases hgives <;> rfl
  | simple _ h => exact hsimple h

end StatementReader

theorem Statement.overreaches_of_isKept (h : statement.isKept setting) :
    statement.overreaches = false := by
  cases statement with
  | assign extent target value =>
    unfold isKept at h
    rw [Bool.and_eq_true, Bool.not_eq_true', Bool.not_eq_true'] at h
    exact h.2
  | _ => rfl

/-- A plain statement that is written as it stands. It does not start with an else, and without a
strict likeness neither with the word that starts a handler. -/
theorem StatementReader.Plain.written {first : Token} {taken : List Lexeme}
    (h : Plain src c'.rest (⟨[], first⟩ :: taken) make) (hsits : Sits src c)
    (htakes : c.Takes (⟨[], first⟩ :: taken) c') (hfit : Fit like (⟨[], first⟩ :: taken))
    (hbrace : first.is "\x7d" = false) (hadmits : like.Admits) (width : Nat)
    (hkept : (make (src.extent first.start c'.last)).isKept setting)
    (helse : (make (src.extent first.start c'.last)).startsWith "else" = false)
    (hon : like.strict ∨ (make (src.extent first.start c'.last)).startsWith "on" = false) :
    Written like setting width (make (src.extent first.start c'.last)) c c'
      (spellings (⟨[], first⟩ :: taken)) {} := by
  have hlast : c'.last = stopOf {} (flat (⟨[], first⟩ :: taken)) := by
    rw [htakes.last, flat, nil_append, stopOf_cons, stopOf_cons]
  have hreach (extent : Extent) : (make extent).overreaches = false :=
    (h.overreaches_eq extent _).trans (overreaches_of_isKept hkept)
  obtain ⟨node, text, hnode, hkind, hrender, hputs⟩ :=
    h.renders hsits htakes.rest hfit width hkept
  refine ⟨cons_ne_nil _ _, ?_, ⟨fun tail => ?_, fun tail hbegin => ?_⟩, Bool.noConfusion,
    node, text, hnode, hrender, hputs, fun h => absurd h hkind⟩
  · rw [hlast]
    exact plain_found hsits htakes.rest hfit hbrace h hreach hadmits
  · have hne := spelling_ne (.plain htakes h) hsits htakes.rest (by decide) helse
    change Spelling.begin ["else"] (first.spelling :: (spellings taken ++ tail)) = false
    rw [Spelling.begin_cons, decide_eq_false hne]
    rfl
  · rcases hon with hstrict | hon
    · refine ⟨hstrict, ?_⟩
      rw [htakes.rest, spellings_append]
      refine (Spelling.begin_two rfl ?_ _ _).trans hbegin
      rw [spellings, length_map]
      exact h.two_le_length
    · have hne := spelling_ne (.plain htakes h) hsits htakes.rest (by decide) hon
      change Spelling.begin _ (first.spelling :: (spellings taken ++ tail)) at hbegin
      rw [Spelling.begin_cons, decide_eq_false hne] at hbegin
      cases hbegin

/-- Statements that are written as they stand and do not start with an else can be written. -/
theorem writable_exact (setting : Setting) (width : Nat) :
    Writable .exact setting width fun statement =>
      statement.isKept setting ∧ statement.startsWith "else" = false where
  omits := fun _ _ => rfl
  plain := fun hsits htakes hfit hbrace hplain hgood =>
    .inr ⟨_, _, hplain.written hsits htakes hfit hbrace Likeness.exact_admits width hgood.1 hgood.2
      (.inl rfl)⟩
  cond := by
    rintro extent condition body otherwise ⟨hkept, -⟩
    exact ⟨Bool.not_eq_true' _ ▸ hkept, fun h => absurd h (by decide)⟩
  loop := by
    rintro extent condition body handler ⟨hkept, -⟩
    exact ⟨Bool.not_eq_true' _ ▸ hkept, fun h => absurd h (by decide)⟩
  comment := fun h => absurd h.1 Bool.false_ne_true
  invalid := fun h => absurd h.1 Bool.false_ne_true

/-- A statement that can be written is rendered, and read again in braces. -/
theorem StatementReader.Reads.rendered {node : Node} (hgood : Writable like setting width good)
    (h : Reads src (.statement statement) c c') (hsits : Sits src c)
    (hbrace : c.rest.head?.any (·.token.is "\x7d") = false) (hfit : FitBetween like c c')
    (hall : ∀ part ∈ statement.within, good part) (hnode : statement.node? setting = some node) :
    ∃ text, Render.render width node = .ok text ∧ ∀ file, ∃ block,
      Block.read ⟨file, "\x7b" ++ text ++ "\x7d"⟩ = .ok block ∧
        Mirrors like [statement] block.statements := by
  rcases h.treated hgood hsits hfit hall hbrace with ⟨-, hnone⟩ | ⟨ks, ending, hwritten⟩
  · cases hnone.symm.trans hnode
  · obtain ⟨found, text, hfound, hrender, hputs, -⟩ := hwritten.renders
    obtain rfl : found = node := Option.some.inj (hfound.symm.trans hnode)
    have hall := AllWritten.cons hwritten .nil (.closing c')
    rw [append_nil] at hall
    exact ⟨text, hrender, hall.lines.read hputs⟩

theorem Mirrors.exact_single {found : List Statement} (h : Mirrors .exact [statement] found) :
    ∃ other, found = [other] := by
  have hnil {found : List Statement} (h : Mirrors .exact [] found) : found = [] := by
    generalize hempty : [] = statements at h
    induction h with
    | nil => rfl
    | comment hstrict => cases hstrict
    | _ => cases hempty
  cases h with
  | omitted homits _ => cases homits
  | comment hstrict _ => cases hstrict
  | plain _ hrest | cond _ _ _ _ hrest | loop _ _ _ _ hrest | each _ _ _ _ _ hrest
  | attempt _ _ _ hrest | lock _ _ _ hrest => exact ⟨_, congrArg _ (hnil hrest)⟩

theorem SourceFile.forall_within {file : SourceFile} (h : read src = .ok file)
    (hstands : ∀ {statement}, statement.Stands src → good statement)
    (hcomments : ∀ {comment c c'}, Sits src c → comment? src c = .ok (some comment) c' → good comment)
    (hinvalid : ∀ extent, good (.invalid extent)) :
    ∀ function ∈ file.functions, ∀ statement ∈ function.body.within, good statement := by
  intro function hfunction
  obtain ⟨_, _, hsits, -, -, -, hdeclares⟩ := declares_of_read h
  obtain ⟨_, _, _, _, _, -, -, hsits, -, hbody⟩ := hdeclares.place hsits function hfunction
  exact hbody.forall_within hstands hcomments hinvalid hsits trivial

theorem SourceFile.stands {file : SourceFile} (h : read src = .ok file) :
    ∀ function ∈ file.functions, ∀ statement ∈ function.body.within, statement.isRead →
      statement.Stands src := by
  refine forall_within h (fun hstands _ => hstands) (fun _ hcomment hread => ?_) nofun
  obtain ⟨_, _, _, -, rfl⟩ := comment?_steps hcomment
  cases hread

theorem Statement.isRead_of_isKept (h : statement.isKept setting) :
    statement.isRead := by
  cases statement <;> first | rfl | exact absurd h Bool.false_ne_true

theorem Statement.node?_of_isKept (h : statement.isKept setting) :
    ∃ node, statement.node? setting = some node := by
  cases statement with
  | expression extent value =>
    unfold isKept at h
    rw [Bool.and_eq_true, Bool.and_eq_true, Bool.not_eq_true', Bool.not_eq_true'] at h
    rw [node?, Walker.express, Call.recognize_of_not h.1.1, h.1.2]
    exact ⟨_, rfl⟩
  | _ => rw [node?]; exact ⟨_, rfl⟩

/-- Rendering the node of a statement and reading the text in braces gives the statement back. The
statement may stand at any depth of a function; its tokens are neither comments nor run over several
lines, and every statement in it is written as it stands and does not start with an else. -/
theorem render_read_mirrors {file : SourceFile} {function : FunctionDef} {statement : Statement}
    (hread : read src = .ok file) (hfunction : function ∈ file.functions)
    (hstatement : statement ∈ function.body.within) (hclean : statement.isClean = true)
    (hkept : ∀ part ∈ statement.within,
      part.isKept setting = true ∧ part.startsWith "else" = false) (width : Nat) (name : Text) :
    ∃ node text block found,
      Walker.walkStatement setting statement {} =
        .ok (some node, { hasReturn := statement.returns }) ∧
      Render.render width node = .ok text ∧
      Block.read ⟨name, "\x7b" ++ text ++ "\x7d"⟩ = .ok block ∧ block.statements = [found] ∧
      Mirrors .exact [statement] [found] := by
  have hself := (hkept statement statement.mem_within).1
  obtain ⟨c, c', hsits, hbrace, hreads⟩ :=
    stands hread function hfunction statement hstatement
      (isRead_of_isKept hself)
  obtain ⟨node, hnode⟩ := node?_of_isKept hself
  obtain ⟨text, hrender, hblock⟩ := hreads.rendered (writable_exact setting width) hsits hbrace
    (StatementReader.FitBetween.of_isClean hreads hsits hclean) hkept hnode
  obtain ⟨block, hblock, hmirrors⟩ := hblock name
  obtain ⟨found, hfound⟩ := hmirrors.exact_single
  refine ⟨node, text, block, found, ?_, hrender, hblock, hfound, hfound ▸ hmirrors⟩
  have hwalk := Walker.walkStatement_eq setting statement [] false
  rw [hnode] at hwalk
  exact hwalk

theorem render_read_mirrors_nested :
    ∃ src file, src.text =
        ("function f() \x7b while (a) \x7b if b \x7b break; \x7d else \x7b c = d; \x7d \x7d \x7d" : Text) ∧
      read src = .ok file ∧
      ∃ function ∈ file.functions, function.body.within.length = 4 ∧
        ∀ statement ∈ function.body.within, statement.isClean = true ∧
          (∀ part ∈ statement.within, part.isKept {} = true ∧ part.startsWith "else" = false) ∧
          ∃ node text block found,
            Walker.walkStatement {} statement {} =
              .ok (some node, { hasReturn := statement.returns }) ∧
            Render.render 4 node = .ok text ∧
            Block.read ⟨"m", "\x7b" ++ text ++ "\x7d"⟩ = .ok block ∧ block.statements = [found] ∧
            Mirrors .exact [statement] [found] := by
  let src : Source :=
    ⟨"m", "function f() \x7b while (a) \x7b if b \x7b break; \x7d else \x7b c = d; \x7d \x7d \x7d"⟩
  obtain ⟨file, hread, function, hmem, hlength, hall⟩ := Except.exists_ok (read src)
    (fun file => ∃ function ∈ file.functions, function.body.within.length = 4 ∧
      ∀ statement ∈ function.body.within, statement.isClean = true ∧
        ∀ part ∈ statement.within, part.isKept {} = true ∧ part.startsWith "else" = false)
    (by decide +kernel)
  refine ⟨src, file, rfl, hread, function, hmem, hlength, fun statement hstatement => ?_⟩
  obtain ⟨hclean, hkept⟩ := hall statement hstatement
  exact ⟨hclean, hkept, render_read_mirrors hread hmem hstatement hclean hkept 4 "m"⟩

/-- A target that opens a bracket takes in the statement after it: reading the rendered text again
gives two statements for the one that was rendered. -/
theorem render_read_overreach :
    ∃ src file, src.text = ("function f() \x7b m[a = b; map<]> x = 1; \x7d" : Text) ∧
      read src = .ok file ∧ file.diagnostics = [] ∧
      ∃ function ∈ file.functions, ∃ statement ∈ function.body.statements,
        statement.isClean = true ∧ statement.startsWith "else" = false ∧
        ∃ node text block,
          Walker.walkStatement {} statement {} =
            .ok (some node, { hasReturn := statement.returns }) ∧
          Render.render 4 node = .ok text ∧
          Block.read ⟨"m", "\x7b" ++ text ++ "\x7d"⟩ = .ok block ∧
          block.statements.length = 2 := by
  let src : Source := ⟨"m", "function f() \x7b m[a = b; map<]> x = 1; \x7d"⟩
  obtain ⟨file, hread, hproblems, function, hmem, statement, hstatement, hclean, helse, hshape⟩ :=
    Except.exists_ok (read src) (fun file => file.diagnostics.length = 0 ∧
      ∃ function ∈ file.functions, ∃ statement ∈ function.body.statements,
        statement.isClean = true ∧ statement.startsWith "else" = false ∧
        (statement.node? {}).bind (fun node => (Render.render 4 node).toOption.bind fun text =>
          (Block.read ⟨"m", "\x7b" ++ text ++ "\x7d"⟩).toOption.map (·.statements.length)) =
        some 2) (by decide +kernel)
  obtain ⟨node, hnode, hshape⟩ := Option.bind_eq_some_iff.mp hshape
  obtain ⟨text, hrender, hshape⟩ := Option.bind_eq_some_iff.mp hshape
  obtain ⟨block, hblock, hlength⟩ := Option.map_eq_some_iff.mp hshape
  have hwalk := Walker.walkStatement_eq {} statement [] false
  rw [hnode] at hwalk
  exact ⟨src, file, rfl, hread, eq_nil_of_length_eq_zero hproblems, function, hmem, statement,
    hstatement, hclean, helse, node, text, block, hwalk, Except.eq_ok_of_toOption hrender,
    Except.eq_ok_of_toOption hblock, hlength⟩

end Flowchart

import Flowchart.Proofs.CallSource

/-!
What the text of a call keeps of the statement that the call comes from: how the statement begins, the
checks before the call and what the call invokes.
-/
namespace Flowchart

open Lexeme Token List Statement

variable {tokens : List Token} {path method target text : Text} {mark : Mark} {callee : Callee}
  {src : Source} {value : Expr} {first : Lexeme} {rest : List Lexeme} {c : Cursor}

/-- What a call invokes, with no blanks around its path. -/
def Callee.trimmed : Callee → Callee
  | .resource target path method => .resource target (Text.trim path) method
  | callee => callee

/-- The sign is a token of the text. -/
def Text.has (sign text : Text) : Bool :=
  (tokens? text).any fun tokens => tokens.any (·.2 = sign)

def Callee.ending (method : Text) : List (TokenClass × Text) := [(.symbol, "."), (.word, method)]

/-- The path can be written before the name of the method: it closes its brackets, ends in no comment,
and its last token stays apart from the dot. -/
def Callee.keepsPath : Callee → Bool
  | .resource _ path method => Text.isClosed path &&
      decide (Text.tokens? (Text.trim path ++ "." ++ method) =
        (Text.tokens? path).map (· ++ ending method))
  | _ => true

/-- The beginning of the statement can be written before another value: where it is a final variable's,
its type starts with no word that starts another statement, and the target of an assignment has neither
a semicolon nor an angle bracket in it. -/
def Lead.isRestorable : Lead → Bool
  | .declared true typeName _ => (Text.tokens? typeName).any fun tokens =>
      tokens.head?.any fun token => !(("final" : Text) :: leading).contains token.2
  | .assigned target => !Text.hasSemicolon target && !Text.has "<" target
  | _ => true

/-- The beginning of a statement without the word for a final variable. -/
def Lead.unfinal : Lead → Lead
  | .declared _ typeName name => .declared false typeName name
  | lead => lead

/-- How a statement begins, the checks before its call, and what the call invokes. -/
structure Modifiers where
  lead : Lead
  checks : List Bool
  callee : Callee
deriving DecidableEq

/-- The modifiers that the text of a call keeps: it is never that of a final variable, and of several
checks it has the outermost one. -/
def Modifiers.kept (modifiers : Modifiers) : Modifiers where
  lead := modifiers.lead.unfinal
  checks := modifiers.checks.take 1
  callee := modifiers.callee

def Statement.modifiers? (statement : Statement) : Option Modifiers :=
  statement.held?.bind fun (lead, value) =>
    match value.unchecked with
    | .call _ callee _ => some ⟨lead, value.checks, callee.trimmed⟩
    | _ => none

/-- A statement whose call is recognized and can be written and read again. -/
def Statement.isRestorable (setting : Setting) (statement : Statement) : Bool :=
  statement.held?.any fun (lead, value) =>
    (Call.recognized? setting value).any fun (symbol, callee, args) =>
      lead.isRestorable && callee.keepsPath &&
        callee.accepts ((Call.withCallee setting.connectors symbol {} callee).kind.getD default) &&
        symbol.params.all (Text.isWord ·.name) && args.all fun arg => Text.isClosed (Call.given arg).2

namespace Call

open ExprReader StatementReader Text

/-- The tokens of what a call invokes, where its text stands at `mark`. -/
structure Invokes (src : Source) (mark : Mark) (callee : Callee) (tokens : List Token)
    (first : Token) (more : List Lexeme) : Prop where
  cuts : Cuts mark callee.text tokens
  last : tokens.getLast?.any isComment = false
  lexemes : Lexeme.ofTokens [] tokens = bare first :: more
  name : callee.names.head? = some first.text
  headed : Headed src callee.trimmed (bare first) more
  passes (hpath : ∀ path ∈ callee.path?, ∀ found ∈ tokens? path,
    passes "=" 0 (proper found) = true) :
    ExprReader.passes "=" 0 (texts (bare first :: more)) = true

theorem any_last_keys (tokens : List Token) :
    tokens.getLast?.any isComment = (Token.keys tokens).getLast?.any (·.1 = .comment) := by
  unfold Token.keys
  rw [getLast?_map, Option.any_map]
  rfl

/-- The dot after a path and the name of the method, where the path's last token stays apart. -/
theorem path_cuts {front : List Token} {dot last : Token} (hmethod : isWord method)
    (hdot : dot.text = ".") (hlast : last.text = method)
    (h : Cuts mark (trim path ++ "." ++ method) (front ++ [dot, last])) :
    Cuts mark (trim path) front ∧ dot.start = mark.after (trim path) := by
  have hends : (trim path ++ "." ++ method).getLast?.all (!isBlank ·) := by
    obtain ⟨last, hsome, hblank⟩ := (Option.any_eq_true _ _).mp (Writes.keyword hmethod).last
    rw [getLast?_append, hsome]
    exact hblank
  have hsplit : front ++ [dot, last] = (front ++ [dot]) ++ [last] := by simp
  rw [hsplit] at h
  obtain ⟨before, htext, hbefore, -⟩ := h.last_eq hends
  rw [hlast] at htext
  obtain rfl := append_cancel_right htext
  obtain ⟨path', htext', hpath, hstart⟩ := hbefore.last_eq (by simp [isBlank])
  rw [hdot] at htext'
  obtain rfl := append_cancel_right htext'
  exact ⟨hpath, hstart⟩

theorem invokes_words {kind : NodeKind} (hnames : ∀ name ∈ callee.names, isWord name)
    (haccepts : callee.accepts kind) (hpath : callee.path? = none) (src : Source)
    (mark : Mark) : ∃ tokens first more, Invokes src mark callee tokens first more := by
  have hplain : callee.names = callee.words ∧ callee.accepts kind = callee.suits kind ∧
      callee.trimmed = callee := by
    cases callee with
    | function | remote => exact ⟨rfl, rfl, rfl⟩
    | resource => cases hpath
  rw [hplain.1] at hnames
  rw [hplain.2.1] at haccepts
  obtain ⟨first, more, hcuts, hheads⟩ := callee_cuts hnames haccepts src mark
  have hneutral : ∀ token ∈ first :: more, token.isComment = false := fun token hmem =>
    (hheads.neutral token hmem).plain
  refine ⟨first :: more, first, more.map bare, hcuts, last_of_plain hneutral,
    ofTokens_eq_map hneutral, hplain.1 ▸ hheads.text, ?_, fun _ => hheads.passes (.inr rfl)⟩
  rw [hplain.2.2]
  exact hheads.headed hnames

variable {found : List (TokenClass × Text)}

theorem resource_cuts {before after : Text}
    (hsrc : src.text = before ++ ((Callee.resource target path method).text ++ after))
    (htarget : isWord target) (hmethod : isWord method) (hfound : tokens? path = some found)
    (hne : found ≠ [])
    (hkeeps : tokens? (trim path ++ "." ++ method) = some (found ++ Callee.ending method)) :
    ∃ name arrow slash between dot last,
      Cuts (({} : Mark).after before) (Callee.resource target path method).text
        ([name, arrow] ++ (slash :: between ++ [dot, last])) ∧
      (name.isWord ∧ name.text = target) ∧ Sign arrow "->" ∧
      Token.keys (slash :: between) = found ∧ Sign dot "." ∧
      (last.isWord ∧ last.text = method) ∧ src.slice slash.start dot.start = trim path := by
  obtain ⟨tokens, hcuts, hkeys⟩ :=
    cuts_of_tokens? hkeeps (({} : Mark).after (before ++ (target ++ "->")))
  obtain ⟨front, ends, rfl, rfl, hends⟩ := map_eq_append_iff.mp hkeys
  obtain ⟨dot, lasts, rfl, hdot, hlasts⟩ := map_eq_cons_iff.mp hends
  obtain ⟨last, rfl, hlast⟩ := map_eq_singleton_iff.mp hlasts
  obtain ⟨hdotCls, hdotText⟩ := Prod.mk.inj hdot
  obtain ⟨hlastCls, hlastText⟩ := Prod.mk.inj hlast
  obtain ⟨slash, between, rfl⟩ :=
    exists_cons_of_ne_nil fun hnil : front = [] => hne (by rw [hnil]; rfl)
  obtain ⟨hpath, hstart⟩ := path_cuts hmethod hdotText hlastText hcuts
  obtain ⟨name, hnameCuts, hname, rfl⟩ := keyword_cuts htarget (({} : Mark).after before)
  have hplain := isComment_of_isWord hname
  rw [Mark.after_append, Mark.after_append] at hcuts
  obtain ⟨arrow, harrowCuts, harrow⟩ : ∃ arrow, Cuts ((({} : Mark).after before).after name.text)
      ([] ++ '-' :: '>' :: (trim path ++ "." ++ method))
      (arrow :: (slash :: between ++ [dot, last])) ∧ Sign arrow "->" :=
    ⟨_, .token rfl (by decide) (take?_arrow _) hcuts, rfl, rfl⟩
  refine ⟨name, arrow, slash, between, dot, last, ?_, ⟨hname, rfl⟩, harrow, rfl,
    ⟨hdotCls, hdotText⟩, ⟨decide_eq_true hlastCls, hlastText⟩, ?_⟩
  · have hwhole := hnameCuts.followed hplain harrowCuts (show separates '-' by decide)
    simpa [Callee.text] using hwhole
  · rw [hpath.start_eq (ends_of_trim (trim_trim path)).1, hstart, ← Mark.after_append]
    refine Source.slice_after (?_ : src.text = _ ++ (trim path ++ ("." ++ method ++ after)))
    rw [hsrc]
    simp [Callee.text]

/-- The texts of a call's target, path and method pass where those of the path do. -/
theorem passes_resource {stop : Text} {path : List Text} (htarget : isWord target)
    (hmethod : isWord method) (hstop : stop = ";" ∨ stop = "=")
    (h : ExprReader.passes stop 0 path) :
    ExprReader.passes stop 0 ([target] ++ ([("->" : Text)] ++ (path ++
      ([("." : Text)] ++ [method])))) := by
  have hword : ∀ word : Text, Text.isWord word → ExprReader.passes stop 0 [word] :=
    fun word hword => passes_words (by rcases hstop with rfl | rfl <;> decide)
      fun other hmem => mem_singleton.mp hmem ▸ hword
  refine passes_append (hword target htarget) (passes_append ?_ (passes_append h
    (passes_append ?_ (hword method hmethod))))
  all_goals rcases hstop with rfl | rfl <;> decide

theorem invokes_resource {before after : Text}
    (hsrc : src.text = before ++ ((Callee.resource target path method).text ++ after))
    (htarget : isWord target) (hmethod : isWord method)
    (hkeeps : (Callee.resource target path method).keepsPath)
    (hrooted : ∃ slash more, tokens? path = some (slash :: more) ∧ slash.1 ≠ .comment ∧ slash.2 =
      "/") :
    ∃ tokens first more, Invokes src (({} : Mark).after before) (.resource target path method)
      tokens first more := by
  obtain ⟨first, others, hfound, hcomment, hslash⟩ := hrooted
  obtain ⟨hclosed, htokens⟩ := (Bool.and_eq_true _ _).mp hkeeps
  have htail := of_decide_eq_true htokens
  rw [hfound] at htail
  unfold isClosed at hclosed
  rw [hfound, Option.any_some, Bool.and_eq_true, Bool.and_eq_true] at hclosed
  obtain ⟨⟨hlast, hpasses⟩, -⟩ := hclosed
  obtain ⟨name, arrow, slash, between, dot, last, hcuts, ⟨hname, rfl⟩, harrow, hkeys, hdot,
    ⟨hlastWord, rfl⟩, hslice⟩ :=
    resource_cuts hsrc htarget hmethod hfound (cons_ne_nil _ _) htail
  have hlastPath : (slash :: between).getLast?.any isComment = false := by
    rw [any_last_keys, hkeys]
    obtain ⟨key, hkey, hplain⟩ := (Option.any_eq_true _ _).mp hlast
    rw [hkey]
    exact decide_eq_false (of_decide_eq_true hplain)
  obtain ⟨rfl, -⟩ := cons.inj hkeys
  have hpath : Lexeme.ofTokens [] (slash :: between) =
      bare slash :: Lexeme.ofTokens [] between := ofTokens_cons (decide_eq_false hcomment) between
  have hlexemes : Lexeme.ofTokens [] ([name, arrow] ++ (slash :: between ++ [dot, last])) =
      bare name :: (bare arrow :: bare slash ::
        (Lexeme.ofTokens [] between ++ [bare dot, bare last])) := by
    change Lexeme.ofTokens [] (name :: arrow :: (slash :: between ++ [dot, last])) = _
    rw [ofTokens_cons (isComment_of_isWord hname), ofTokens_cons harrow.plain,
      ofTokens_append (.inr rfl) hlastPath, hpath, ofTokens_cons hdot.plain,
      ofTokens_cons (isComment_of_isWord hlastWord)]
    rfl
  have htexts : texts (bare name :: (bare arrow :: bare slash ::
      (Lexeme.ofTokens [] between ++ [bare dot, bare last]))) =
      [name.text] ++ ([("->" : Text)] ++ (proper (Token.keys (slash :: between)) ++
        ([("." : Text)] ++ [last.text]))) := by
    have hproper : proper (Token.keys (slash :: between)) = texts (Lexeme.ofTokens [] (slash :: between)) :=
      proper_eq_texts _
    rw [hproper, hpath, ← harrow.text, ← hdot.text]
    simp [texts, bare]
  refine ⟨_, name, _, hcuts, ?_, hlexemes, rfl, ⟨hname, htarget, ?_, ?_, ?_⟩, fun hequals => ?_⟩
  · have hsplit : [name, arrow] ++ (slash :: between ++ [dot, last]) =
        name :: arrow :: slash :: between ++ [dot] ++ [last] := by simp
    rw [hsplit, getLast?_concat]
    exact isComment_of_isWord hlastWord
  · have htokens : (bare name :: (bare arrow :: bare slash ::
        (Lexeme.ofTokens [] between ++ [bare dot, bare last]))).map Lexeme.token =
        name :: arrow :: slash :: ((Lexeme.ofTokens [] between).map Lexeme.token ++ [dot, last]) := by
      simp [bare]
    have hsigns : (name.isWord && arrow.is "->" && slash.is "/" && dot.is "." && last.isWord) =
        true := by
      unfold Token.is
      rw [hname, harrow.text, show slash.text = "/" from hslash, hdot.text, hlastWord]
      decide
    rw [htokens, callee?_resource _ _ _ _ (by simp), reverse_append]
    exact (if_pos hsigns).trans (by rw [hslice]; rfl)
  · rw [htexts]
    exact passes_resource htarget hmethod (.inl rfl) (hkeys ▸ hpasses)
  · exact .inr ⟨bare arrow, bare slash, _, rfl, decide_eq_false (by rw [bare, harrow.cls]; decide),
      .inr harrow.text⟩
  · rw [htexts]
    exact passes_resource htarget hmethod (.inr rfl) (hequals path rfl _ (hkeys ▸ hfound))

theorem invokes_callee {callee : Callee} {kind : NodeKind} {src : Source} {before after : Text}
    (hsrc : src.text = before ++ (callee.text ++ after))
    (hnames : ∀ name ∈ callee.names, isWord name) (haccepts : callee.accepts kind)
    (hkeeps : callee.keepsPath)
    (hrooted : ∀ path ∈ callee.path?, ∃ slash more, tokens? path = some (slash :: more) ∧
      slash.1 ≠ .comment ∧ slash.2 = "/") :
    ∃ tokens first more, Invokes src (({} : Mark).after before) callee tokens first more := by
  cases callee with
  | function | remote => exact invokes_words hnames haccepts rfl src _
  | resource target path method =>
    exact invokes_resource hsrc (hnames target (by simp [Callee.names]))
      (hnames method (by simp [Callee.names])) hkeeps (hrooted path rfl)

/-- The text of a call, of the semicolon and of the brace stands at `mark`. -/
inductive Written (src : Source) (mark : Mark) (callee : Callee) (value : Expr) (text : Text) : Prop
  | intro {checks tokens : List Token} {first opening closing semicolon brace : Token}
      {more inner : List Lexeme} (headed : Headed src callee.trimmed (bare first) more)
      (name : callee.names.head? = some first.text)
      (ends : Ends value.checkText checks opening closing semicolon brace)
      (cuts : Cuts mark text tokens)
      (lexemes : Lexeme.ofTokens [] tokens = lexemesOf checks (bare first :: more) (bare opening)
        inner (bare closing) ++ [bare semicolon, bare brace])
      (passes : ExprReader.passes ";" 0 (texts inner) = true)
      (parens : ExprReader.parens 0 (texts inner) = true)
      (equals : (∀ path ∈ callee.path?, ∀ found ∈ tokens? path,
        ExprReader.passes "=" 0 (proper found) = true) →
        ExprReader.passes "=" 0 (texts (bare first :: more)) = true)

theorem Invokes.written {inner : Text} {first : Token} {more : List Lexeme}
    (hinvokes : Invokes src (mark.after value.checkText) callee tokens first more)
    (hinner : Closed inner) : Written src mark callee value
      (value.checkText ++ (callee.text ++ '(' :: (inner ++ [')', ';', '\x7d']))) := by
  obtain ⟨arguments, hcuts, hshut⟩ :=
    hinner ((((mark.after value.checkText).after callee.text).after "("))
  obtain ⟨tokens, checks, opening, closing, semicolon, brace, hcuts, hlexemes, hends⟩ :=
    call_cuts value hinvokes.cuts hinvokes.last hcuts hshut.last
  rw [hinvokes.lexemes] at hlexemes
  exact ⟨hinvokes.headed, hinvokes.name, hends, hcuts, hlexemes, hshut.passes, hshut.parens,
    hinvokes.passes⟩

theorem Checked.map_is {checks : List Token} (h : Checked value.checkText checks) :
    checks.map (·.is "checkpanic") = value.checks.take 1 := by
  have hnone (htext : value.checkText = []) (hchecks : value.checks = []) :
      checks.map (·.is "checkpanic") = value.checks.take 1 := by
    rw [htext] at h
    rw [hchecks]
    generalize hempty : [] = empty at h
    cases h with
    | unchecked => rfl
    | checked => simp at hempty
  cases value with
  | call | other => exact hnone rfl rfl
  | check extent panics inner =>
    generalize htext : (Expr.check extent panics inner).checkText = text at h
    cases h with
    | unchecked => cases panics <;> cases htext
    | @checked check hword hmem =>
      simp only [mem_cons, not_mem_nil, or_false] at hmem
      rw [map_singleton, Token.is]
      rcases hmem with hcheck | hcheck <;> rw [hcheck] at htext ⊢
      · cases panics with
        | true => exact absurd (show ("checkpanic " : Text) = "check" ++ " " from htext) (by decide)
        | false => rfl
      · cases panics with
        | true => rfl
        | false => exact absurd (show ("check " : Text) = "checkpanic" ++ " " from htext) (by decide)

theorem trimmed_trimmed (callee : Callee) : callee.trimmed.trimmed = callee.trimmed := by
  cases callee with
  | function | remote => rfl
  | resource target path method => rw [Callee.trimmed, Callee.trimmed, trim_trim]

theorem modifiers?_eq {statement : Statement} {lead : Lead} {value : Expr} {extent : Extent}
    {callee : Callee} {args : List Expr} (hheld : statement.held? = some (lead, value))
    (hcall : value.unchecked = .call extent callee args) :
    statement.modifiers? = some ⟨lead, value.checks, callee.trimmed⟩ := by
  rw [modifiers?, hheld, Option.bind_some]
  dsimp only
  rw [hcall]

theorem equals_cuts (mark : Mark) (rest : Text) : ∃ equals, Sign equals "=" ∧
    ∀ {tokens}, Cuts (mark.after " = ") rest tokens → Cuts mark (" = " ++ rest) (equals :: tokens) :=
  ⟨_, ⟨rfl, rfl⟩, fun {tokens} h => @Cuts.token mark " " (" " ++ rest) "=" (" " ++ rest) '=' .symbol
    tokens rfl (by decide) rfl (.blank rfl h)⟩

/-- The lexemes of a text that is taken from a source, where the text stands in another source. -/
theorem stretch_cuts {src src' : Source} {c : Cursor} {front more left : List Lexeme}
    {first : Lexeme} {before after text : Text} (hsits : Sits src c)
    (hrest : c.rest = front ++ (first :: more ++ left))
    (htext : src.slice first.token.start (stopOf {} (flat (first :: more))) = text)
    (hsrc : src'.text = before ++ (text ++ after)) :
    trim text = text ∧ tokens? text = some (Token.keys (first.token :: flat more)) ∧
      ∃ tokens start others, Cuts (({} : Mark).after before) text tokens ∧
        tokens.getLast?.any isComment = false ∧
        Lexeme.ofTokens [] tokens = bare start :: others ∧
        Alike (first :: more) (bare start :: others) ∧
        (∀ lexeme ∈ bare start :: others, lexeme.token.Taken) ∧
        src'.slice start.start (stopOf {} (flat (bare start :: others))) = text := by
  obtain ⟨hkeys, htrim⟩ := hsits.slice hrest
  rw [htext] at hkeys htrim
  refine ⟨htrim, hkeys, ?_⟩
  have hproper : ∀ lexeme ∈ first :: more, lexeme.Proper := fun lexeme hmem =>
    hsits.proper lexeme (mem_of_between hrest hmem)
  obtain ⟨tokens, hcuts, hsame⟩ := cuts_of_tokens? hkeys (({} : Mark).after before)
  have halike := alike_ofTokens hproper hsame
  have hlast : tokens.getLast?.any isComment = false := by
    rw [any_last_keys, show Token.keys tokens = Token.keys (first.token :: flat more) from hsame,
      ← any_last_keys]
    exact last_flat hproper
  obtain ⟨start, rest, rfl⟩ : ∃ start rest, tokens = start :: rest :=
    exists_cons_of_ne_nil fun hnil => by rw [hnil] at hsame; cases hsame
  have hstart : start.isComment = false := by
    have hcls : start.cls = first.token.cls := (Prod.mk.inj (cons.inj hsame).1).1
    rw [isComment, hcls]
    exact (hproper first mem_cons_self).1
  have hlexemes := ofTokens_cons hstart rest
  rw [hlexemes] at halike
  refine ⟨start :: rest, start, _, hcuts, hlast, hlexemes, halike, fun lexeme hmem => ?_, ?_⟩
  · rw [← hlexemes] at hmem
    have hin := mem_map_of_mem (f := Lexeme.token) hmem
    rw [map_token_ofTokens] at hin
    exact hcuts.taken _ (mem_of_mem_filter hin)
  · obtain ⟨hhead, hend⟩ := ends_of_trim htrim
    have hstop : stopOf {} (start :: rest) = (({} : Mark).after before).after text := by
      rw [← hcuts.stopOf_eq hend, stopOf_cons, stopOf_cons]
    rw [← hlexemes, flat_ofTokens_eq [] (.inl (cons_ne_nil _ _)) hlast, nil_append,
      hcuts.start_eq hhead, hstop, ← Mark.after_append]
    exact Source.slice_after hsrc

theorem Sign.same {lexeme : Lexeme} {sign : Token} (h : Sign sign "=") (hsits : Sits src c)
    (hmem : lexeme ∈ c.rest) (his : lexeme.token.is "=") : lexeme.token.Same sign := by
  refine ⟨?_, (hsits.proper lexeme hmem).1⟩
  rw [hsits.spelling_eq hmem his Writes.equals.spells, spelling, h.cls, h.text]
  rfl

theorem target_signs {before : List Lexeme}
    (hrestorable : (Lead.assigned target).isRestorable)
    (hkeys : tokens? target = some (Token.keys (first.token :: flat before)))
    (htaken : ∀ lexeme ∈ first :: before, lexeme.token.Taken)
    (hbefore : ∀ lexeme ∈ first :: before, lexeme.token.is "=" = false) :
    ∀ sign ∈ [("=" : Text), ";", "<"], ∀ lexeme ∈ first :: before, lexeme.token.is sign = false := by
  obtain ⟨hsemicolon, hangle⟩ := (Bool.and_eq_true _ _).mp hrestorable
  rw [Bool.not_eq_true', hasSemicolon, hkeys] at hsemicolon
  rw [Bool.not_eq_true', has, hkeys] at hangle
  intro sign hmem lexeme hlexeme
  have hkey : (lexeme.token.cls, lexeme.token.text) ∈ Token.keys (first.token :: flat before) :=
    mem_map_of_mem (mem_flat hlexeme)
  simp only [mem_cons, not_mem_nil, or_false] at hmem
  rcases hmem with rfl | rfl | rfl
  · exact hbefore lexeme hlexeme
  · refine decide_eq_false fun htext => Bool.false_ne_true (hsemicolon.symm.trans ?_)
    rw [cls_of_lone (htaken lexeme hlexeme) htext (by decide), htext] at hkey
    exact contains_iff_mem.mpr hkey
  · refine decide_eq_false fun htext => Bool.false_ne_true (hangle.symm.trans ?_)
    exact any_eq_true.mpr ⟨_, hkey, decide_eq_true htext⟩

/-- What stands before a value in a statement that can be written again, and before the semicolon and
the lexemes after the value. -/
inductive Led (src : Source) (taken : List Lexeme) (semicolon : Lexeme) (after : List Lexeme) :
    List Lexeme → Lead → Prop
  | declared {first word equals : Lexeme} {final typed : List Lexeme} {isFinal : Bool}
      {typeName : Text} (hbrace : first.token.is "\x7d" = false)
      (hstarts : startsSimple first.token ((typed ++ [word]).head?.map Lexeme.token) = true)
      (hfinal : first.token.is "final" = false)
      (htyped : TypeText.Names src (first :: typed)
        (word :: equals :: (taken ++ semicolon :: after)) typeName)
      (hword : word.token.isWord = true) :
      Led src taken semicolon after (final ++ (first :: typed ++ [word, equals]))
        (.declared isFinal typeName word.token.text)
  | assigned {first equals : Lexeme} {before : List Lexeme}
      (hbrace : first.token.is "\x7d" = false)
      (hstarts : startsSimple first.token ((before ++ [equals]).head?.map Lexeme.token) = true)
      (hfinal : first.token.is "final" = false)
      (hdeclares : declares (first :: before ++ equals :: (taken ++ semicolon :: after)) = false)
      (hbefore : ∀ lexeme ∈ first :: before, lexeme.token.is "=" = false)
      (hequals : equals.token.is "=" = true) (hopen : openAfter 0 (first :: before) = some 0) :
      Led src taken semicolon after (first :: before ++ [equals])
        (.assigned (trim (src.slice first.token.start (stopOf {} (flat (first :: before))))))
  | alone {first : Lexeme} {others : List Lexeme} (htaken : taken = first :: others)
      (hstarts : startsSimple first.token ((others ++ [semicolon]).head?.map Lexeme.token) = true)
      (hfinal : first.token.is "final" = false)
      (hstop : targetStop? 0 none (taken ++ semicolon :: after) = none) :
      Led src taken semicolon after [] .alone

/-- The type of a final variable starts the statement once the word before it is gone. -/
theorem start_of_final {start : Lexeme} {typed : List Lexeme} {word : Lexeme} {typeName name : Text}
    (hlead : (Lead.declared true typeName name).isRestorable)
    (hkeys : tokens? typeName = some (Token.keys (start.token :: flat typed)))
    (htaken : start.token.Taken) (htyped : TypeText.Names src (start :: typed) rest typeName) :
    start.token.is "\x7d" = false ∧
      startsSimple start.token ((typed ++ [word]).head?.map Lexeme.token) ∧
      start.token.is "final" = false := by
  rw [Lead.isRestorable, hkeys, Option.any_some] at hlead
  have hnot : start.token.text ∉ ("final" : Text) :: leading := fun hmem => by
    rw [Token.keys, map_cons, head?_cons, Option.any_some, contains_iff_mem.mpr hmem] at hlead
    cases hlead
  rw [mem_cons, not_or] at hnot
  refine ⟨decide_eq_false ?_, startsSimple_of_not_leading hnot.2, decide_eq_false hnot.1⟩
  rcases TypeText.scan_first htyped.found with hopens | hword
  · rw [of_decide_eq_true hopens]
    decide
  · exact ne_of_isWord (isWord_text htaken hword) (by decide)

theorem led_of_simple {lexemes after : List Lexeme} {make : Shape} {extent : Extent} {lead : Lead}
    (hsits : Sits src c) (hrest : c.rest = first :: lexemes ++ after)
    (hbrace : first.token.is "\x7d" = false)
    (hstarts : startsSimple first.token (lexemes.head?.map Lexeme.token))
    (h : Simple src after (first :: lexemes) make)
    (hheld : (make extent).held? = some (lead, value)) (hlead : lead.isRestorable) :
    ∃ front taken semicolon, first :: lexemes = front ++ (taken ++ [semicolon]) ∧
      Forms src ";" taken value ∧ Led src taken semicolon after front lead := by
  generalize hwhole : first :: lexemes = whole at h
  cases h with
  | @declaration final typed tail isFinal word typeName init hfinal htyped hword htail =>
    cases htail with
    | none => cases hheld
    | @some equals semicolon taken value' hequals hvalue hsemicolon =>
      cases hheld
      obtain ⟨start, typed, rfl, htype⟩ := htyped.text
      have hfound : TypeText.Names src (start :: typed)
          (word :: equals :: (taken ++ semicolon :: after)) typeName := by simpa using htyped
      have hstart : start.token.is "\x7d" = false ∧
          startsSimple start.token ((typed ++ [word]).head?.map Lexeme.token) ∧
          start.token.is "final" = false := by
        rcases hfinal with ⟨rfl, keyword, rfl, -⟩ | ⟨rfl, rfl, hfinal⟩
        · have hfrom : c.rest = [keyword] ++ (start :: typed ++
              (word :: equals :: (taken ++ semicolon :: after))) := by
            rw [hrest, hwhole]
            simp
          exact start_of_final hlead (htype ▸ (hsits.slice hfrom).1)
            (hsits.taken start (by rw [hfrom]; simp)) hfound
        · obtain ⟨rfl, rfl⟩ := cons.inj hwhole
          refine ⟨hbrace, ?_, hfinal⟩
          rw [← hstarts]
          cases typed <;> rfl
      exact ⟨final ++ (start :: typed ++ [word, equals]), taken, semicolon, by simp, hvalue,
        .declared hstart.1 hstart.2.1 hstart.2.2 hfound hword⟩
  | @assignment before taken first' equals semicolon stop value' hfinal hdeclares hbefore hequals
      hvalue hsemicolon hstop =>
    cases hheld
    obtain ⟨rfl, rfl⟩ := cons.inj hwhole
    rcases target_cases hbefore hequals hvalue.passes hsemicolon hstop with
      ⟨hopen, rfl⟩ | ⟨more, left, rfl, rfl⟩
    · refine ⟨first :: before ++ [equals], taken, semicolon, by simp, hvalue,
        .assigned hbrace ?_ hfinal hdeclares hbefore hequals hopen⟩
      rw [← hstarts]
      cases before <;> rfl
    · have hover := overreaches_of_stop default value hsits hrest hsemicolon
      have hnone := ((Bool.and_eq_true _ _).mp hlead).1
      rw [Bool.not_eq_true'] at hnone
      exact absurd (hover.symm.trans hnone) (by decide)
  | @expression taken semicolon value' hfinal hdeclares hstop hvalue hsemicolon =>
    cases hheld
    obtain ⟨first', others, rfl⟩ := exists_cons_of_ne_nil hvalue.nonempty
    obtain ⟨rfl, rfl⟩ := cons.inj hwhole
    exact ⟨[], first :: others, semicolon, rfl, hvalue, .alone rfl hstarts hfinal hstop⟩

theorem led_of_reads {c' : Cursor} {statement : Statement} {lead : Lead} (hsits : Sits src c)
    (hbrace : c.rest.head?.any (·.token.is "\x7d") = false)
    (h : Reads src (.statement statement) c c') (hheld : statement.held? = some (lead, value))
    (hlead : lead.isRestorable) :
    ∃ front taken semicolon, c.rest = front ++ (taken ++ semicolon :: c'.rest) ∧
      Forms src ";" taken value ∧ Led src taken semicolon c'.rest front lead := by
  cases h with
  | plain htakes hplain =>
    cases hplain with
    | simple hstarts hsimple =>
      obtain ⟨front, taken, semicolon, hlexemes, hvalue, hled⟩ :=
        led_of_simple hsits htakes.rest (by rw [htakes.rest] at hbrace; exact hbrace) hstarts
          hsimple hheld hlead
      refine ⟨front, taken, semicolon, ?_, hvalue, hled⟩
      rw [htakes.rest, hlexemes]
      simp
    | bare hbare => cases hbare <;> cases hheld
    | gives hgives => cases hgives <;> cases hheld
  | cond => cases hheld
  | guarded _ hhead => cases hhead <;> cases hheld

theorem isClosed_of_keepsPath (h : callee.keepsPath) :
    ∀ path ∈ callee.path?, isClosed path := by
  cases callee with
  | function | remote => exact fun _ hmem => absurd hmem (Option.not_mem_none _)
  | resource target path method =>
    rintro _ ⟨⟩
    exact ((Bool.and_eq_true _ _).mp h).1

theorem trim_ne_nil_of_tokens? {key : TokenClass × Text} (h : tokens? text = some (key :: found)) :
    trim text ≠ [] := by
  intro hnil
  have hback := dropWhile_eq_nil_iff.mp (reverse_eq_nil_iff.mp hnil)
  have hblank : text.all isBlank := by
    rw [← takeWhile_append_dropWhile (l := text), all_isBlank_append]
    exact ⟨all_takeWhile, all_eq_true.mpr fun c hmem => hback c (mem_reverse.mpr hmem)⟩
  have hnone := (Cuts.done hblank : Cuts {} text []).tokens?_eq
  rw [h] at hnone
  cases hnone

section Source

variable {src' : Source} {front taken after : List Lexeme} {semicolon : Lexeme} {lead : Lead}
  {extent : Extent} {args : List Expr}

theorem source_call (hsits : Sits src c) (hrest : c.rest = front ++ (taken ++ semicolon :: after))
    (hvalue : Forms src ";" taken value) (hcall : value.unchecked = .call extent callee args) :
    (∀ name ∈ callee.names, isWord name) ∧
      (∀ name ∈ callee.names.head?, name ∉ [("check" : Text), "checkpanic"]) ∧
      ∀ path ∈ callee.path?, ∃ slash more, tokens? path = some (slash :: more) ∧
        slash.1 ≠ .comment ∧ slash.2 = "/" := by
  obtain ⟨checks, start, others, opening, inner, rfl, -, -, hcallee, -, hstart⟩ := hvalue.call hcall
  have hfrom : c.rest = (front ++ checks) ++
      (start :: others ++ (opening :: inner ++ semicolon :: after)) := by
    rw [hrest]
    simp
  obtain ⟨hnames, hfirst, hpath⟩ := hsits.callee hfrom hcallee
  refine ⟨hnames, fun name hname => ?_, fun path hmem => ?_⟩
  · rw [hfirst] at hname
    exact Option.some.inj hname ▸ hstart
  · obtain ⟨target, arrow, slash, between, dot, method, hhead, -, hslash, hkeys⟩ := hpath path hmem
    refine ⟨_, _, hkeys, ?_, of_decide_eq_true hslash⟩
    exact of_decide_eq_false (hsits.proper slash (by rw [hfrom, hhead]; simp)).1

theorem Led.given (h : Led src taken semicolon after front lead) (hsits : Sits src c)
    (hrest : c.rest = front ++ (taken ++ semicolon :: after)) :
    ∀ entry ∈ lead.properties, trim entry.2.value ≠ [] := by
  cases h with
  | @declared first word equals final typed isFinal typeName hbrace hstarts hfinal htyped hword =>
    have hfrom : c.rest = final ++ (first :: typed ++
        (word :: equals :: (taken ++ semicolon :: after))) := by
      rw [hrest]
      simp
    obtain ⟨hkeys, -⟩ := hsits.slice hfrom
    obtain ⟨_, _, hlexemes, rfl⟩ := htyped.text
    obtain ⟨rfl, rfl⟩ := cons.inj hlexemes
    intro entry hmem
    rcases mem_cons.mp hmem with rfl | hmem
    · exact trim_ne_nil_of_tokens? hkeys
    · rw [mem_singleton.mp hmem]
      exact trim_ne_nil_of_isWord (isWord_text (hsits.taken word (by rw [hfrom]; simp)) hword)
  | @assigned first equals before hbrace hstarts hfinal hdeclares hbefore hequals hopen =>
    have hfrom : c.rest = [] ++ (first :: before ++ (equals :: (taken ++ semicolon :: after))) := by
      rw [hrest]
      simp
    obtain ⟨hkeys, htrim⟩ := hsits.slice hfrom
    intro entry hmem
    rw [mem_singleton.mp hmem]
    change trim (trim _) ≠ []
    rw [trim_trim]
    exact trim_ne_nil_of_tokens? hkeys
  | alone => exact nofun

/-- The block with just one statement, that has the modifiers. -/
def Restores (src : Source) (modifiers : Modifiers) : Prop :=
  ∃ block found, Block.read src = .ok block ∧ block.statements = [found] ∧
    found.modifiers? = some modifiers

theorem Written.read_alone (h : Written src' (({} : Mark).after "\x7b") callee value text)
    (hname : ∀ name ∈ callee.names.head?, name ∉ [("check" : Text), "checkpanic"])
    (hsrc : src'.text = '\x7b' :: text)
    (hlead : value.checks = [] →
      ∀ name ∈ callee.names.head?, name ∉ leading ∧ name ≠ "final")
    (hpath : ∀ path ∈ callee.path?, ∀ found ∈ tokens? path,
      ExprReader.passes "=" 0 (proper found)) :
    Restores src' ⟨.alone, value.checks.take 1, callee.trimmed⟩ := by
  obtain @⟨checks, _, _, _, _, _, _, _, _, hheaded, hfirst, hends, hcuts, hlexemes, hpasses, hparens,
    hequals⟩ := h
  have hunchecked (hnil : checks = []) : value.checks = [] := by
    have htake := hends.checked.map_is
    rw [hnil] at htake
    exact (take_eq_nil_iff.mp htake.symm).resolve_left Nat.one_ne_zero
  obtain ⟨_, block, extent, _, found, hread, hblock, -, hchecks, hcall⟩ :=
    hheaded.read hends hsrc hcuts hlexemes (hname _ hfirst)
      (fun hnil => hlead (hunchecked hnil) _ hfirst) hpasses hparens (hequals hpath)
  refine ⟨block, _, hread, hblock, ?_⟩
  rw [@modifiers?_eq (.expression extent found) .alone _ _ _ _ rfl hcall, hchecks,
    hends.checked.map_is, trimmed_trimmed]

/-- A call is read as the value of a statement that begins before it. -/
theorem Written.read_behind (front : List Token) (make : Expr → Shape) {start : Token}
    {others : List Lexeme} {front' : Text}
    (h : Written src' (({} : Mark).after ("\x7b" ++ front')) callee value text)
    (hname : ∀ name ∈ callee.names.head?, name ∉ [("check" : Text), "checkpanic"])
    (hsrc : src'.text = "\x7b" ++ (front' ++ text))
    (hfront : ∀ tokens, Cuts ((({} : Mark).after "\x7b").after front') text tokens →
      Cuts (({} : Mark).after "\x7b") (front' ++ text) (front ++ tokens))
    (hlast : front.getLast?.any isComment = false)
    (hlexemes : Lexeme.ofTokens [] front = bare start :: others) (hbrace : start.text ≠ "\x7d")
    (hplain : ∀ taken found ending rest, Forms src' ";" taken found → ending.token.is ";" →
      Plain src' rest (bare start :: others ++ (taken ++ [ending])) (make found))
    (hheld : ∀ extent found, (make found extent).held? = some (lead, found)) :
    Restores src' ⟨lead, value.checks.take 1, callee.trimmed⟩ := by
  obtain @⟨checks, _, _, opening, closing, ending, brace, _, _, hheaded, hfirst, hends, hcuts,
    hlexemes', hpasses, hparens, -⟩ := h
  obtain ⟨_, callExtent, found, hforms, -, hchecks, hcall⟩ :=
    @Headed.forms _ _ _ _ _ (bare opening) (bare closing) _ _ hheaded hends.checked
      (hname _ hfirst) hends.opening.text hends.closing.text hpasses hparens
  rw [Mark.after_append] at hcuts
  obtain ⟨block, extent, hread, hblock⟩ := read_plain hsrc (hfront _ hcuts) (by
      rw [ofTokens_append (.inr rfl) hlast, hlexemes, hlexemes']
      simp) hends.brace hbrace
    (hplain _ found (bare ending) [bare brace] hforms (decide_eq_true hends.semicolon.text))
  refine ⟨block, _, hread, hblock, ?_⟩
  rw [modifiers?_eq (hheld extent found) hcall, hchecks, hends.checked.map_is, trimmed_trimmed]

theorem text_ne_of_alike {start : Token} {before others : List Lexeme}
    (h : Alike (first :: before) (bare start :: others)) (hbrace : first.token.is "\x7d" = false) :
    start.text ≠ "\x7d" := by
  cases h with
  | cons hfirst _ => exact of_decide_eq_false ((hfirst.is (by decide)).symm.trans hbrace)

section Restoring

variable (hsits : Sits src c) (hrest : c.rest = front ++ (taken ++ semicolon :: after))
  (hname : ∀ name ∈ callee.names.head?, name ∉ [("check" : Text), "checkpanic"])
  (hwritten : Written src' (({} : Mark).after ("\x7b" ++ lead.text)) callee value text)
  (hsrc : src'.text = "\x7b" ++ (lead.text ++ text))

include hsits hrest hname hwritten hsrc

theorem Led.read_assigned (h : Led src taken semicolon after front lead)
    (hlead : lead.isRestorable) (hassigned : lead = .assigned target) :
    Restores src' ⟨lead, value.checks.take 1, callee.trimmed⟩ := by
  cases h with
  | declared | alone => cases hassigned
  | @assigned first equals before hbrace hstarts hfinal hdeclares hbefore hequals hopen =>
    have hfrom : c.rest = [] ++ (first :: before ++ equals :: (taken ++ semicolon :: after)) := by
      rw [hrest]
      simp
    obtain ⟨-, htrim⟩ := hsits.slice hfrom
    generalize htarget : src.slice first.token.start (stopOf {} (flat (first :: before))) = target
      at htrim hlead hsrc hwritten ⊢
    rw [htrim] at hlead hsrc hwritten ⊢
    rw [Lead.text, htrim] at hsrc hwritten
    obtain ⟨-, hkeys, front, start, others, hfront, hlast, hlexemes, halike, htaken, hslice⟩ :=
      @stretch_cuts src src' c _ _ _ first "\x7b" (" = " ++ text) target hsits hfrom htarget
        (by rw [hsrc, append_assoc])
    have hsigns := target_signs hlead hkeys (fun lexeme hmem =>
      hsits.taken lexeme (mem_of_between hfrom hmem)) hbefore
    have hsigns' : ∀ sign ∈ [("=" : Text), ";", "<"], ∀ lexeme ∈ bare start :: others,
        lexeme.token.is sign = false := fun sign hmem =>
      halike.all_is ((by decide : ∀ sign ∈ [("=" : Text), ";", "<"], '\n' ∉ sign) sign hmem)
        (hsigns sign hmem)
    obtain ⟨sign, hsign, hsignCuts⟩ := equals_cuts ((({} : Mark).after "\x7b").after target) text
    have hsame : equals.token.Same sign := hsign.same hsits (by rw [hrest]; simp) hequals
    refine hwritten.read_behind (front ++ [sign]) (fun found => (.assign · (trim (src'.slice
      start.start (stopOf {} (flat (bare start :: others))))) found)) hname hsrc
      (fun tokens hcuts => ?_) ?_ (by
        rw [ofTokens_append (.inr rfl) hlast, hlexemes, ofTokens_cons hsign.plain, cons_append])
      (text_ne_of_alike halike hbrace) (fun taken found ending rest hforms hending => ?_)
      fun extent found => by rw [held?, hslice, htrim]
    · rw [Mark.after_append] at hcuts
      simpa using hfront.followed hlast (hsignCuts hcuts) rfl
    · rw [getLast?_concat]
      exact hsign.plain
    · simpa [Lexeme.ofTokens, bare] using @Plain.assigned before _ first src' (bare start) others equals (bare sign) _
        ending rest found hstarts hfinal hdeclares hequals hopen halike hsame (by
          rw [TypeText.isEquals, bare, hsign.cls, Token.is, hsign.text]
          decide) htaken hsigns' hforms hending

theorem Led.read_declared {isFinal : Bool} {typeName word : Text}
    (h : Led src taken semicolon after front lead)
    (hdeclared : lead = .declared isFinal typeName word) :
    Restores src' ⟨lead.unfinal, value.checks.take 1, callee.trimmed⟩ := by
  cases h with
  | assigned | alone => cases hdeclared
  | @declared first word equals final typed isFinal typeName hbrace hstarts hfinal htyped hword =>
    have hfrom : c.rest = final ++ (first :: typed ++
        word :: equals :: (taken ++ semicolon :: after)) := by
      rw [hrest]
      simp
    have htaken : word.token.Taken := hsits.taken word (by rw [hfrom]; simp)
    have hspelled := isWord_text htaken hword
    obtain ⟨-, htrim⟩ := hsits.slice hfrom
    obtain ⟨_, _, hlexemes', rfl⟩ := htyped.text
    obtain ⟨rfl, rfl⟩ := cons.inj hlexemes'
    generalize htype : src.slice first.token.start (stopOf {} (flat (first :: typed))) = typeName
      at htyped htrim hsrc hwritten ⊢
    have htext : (Lead.declared isFinal typeName word.token.text).text =
        typeName ++ (" " ++ (word.token.text ++ " = ")) := by
      rw [Lead.text, htrim, trim_word hspelled, append_assoc, append_assoc]
    rw [htext] at hsrc hwritten
    obtain ⟨-, -, front, start, others, hfront, hlast, hlexemes, halike, -, hslice⟩ :=
      @stretch_cuts src src' c _ _ _ first "\x7b" (" " ++ (word.token.text ++ (" = " ++ text)))
        typeName hsits hfrom htype (by rw [hsrc]; simp)
    obtain ⟨variable', hvariable, hvariableWord, hvariableText⟩ := keyword_cuts hspelled
      (((({} : Mark).after "\x7b").after typeName).after " ")
    have hplainWord := isComment_of_isWord hvariableWord
    obtain ⟨sign, hsign, hsignCuts⟩ := equals_cuts ((((({} : Mark).after "\x7b").after
      typeName).after " ").after word.token.text) text
    have hsame : word.token.Same (bare variable').token := by
      refine ⟨?_, isComment_of_isWord hword⟩
      rw [spelling, spelling, bare, hvariableText, of_decide_eq_true hword,
        of_decide_eq_true hvariableWord]
    refine hwritten.read_behind (front ++ [variable', sign]) (fun found => (.varDecl · false (src'.slice
      start.start (stopOf {} (flat (bare start :: others)))) variable'.text (some found))) hname hsrc
      (fun tokens hcuts => ?_) ?_ (by
        rw [ofTokens_append (.inr rfl) hlast, hlexemes, ofTokens_cons hplainWord,
          ofTokens_cons hsign.plain, cons_append])
      (text_ne_of_alike halike hbrace) (fun taken found ending rest hforms hending => ?_)
      fun extent found => by
        rw [hslice, hvariableText]
        rfl
    · rw [Mark.after_append, Mark.after_append, Mark.after_append] at hcuts
      have hblank : Cuts ((({} : Mark).after "\x7b").after typeName)
          (" " ++ (word.token.text ++ (" = " ++ text))) ([variable'] ++ sign :: tokens) :=
        .blank rfl (hvariable.followed hplainWord (hsignCuts hcuts) rfl)
      simpa using hfront.followed hlast hblank rfl
    · rw [getLast?_append]
      exact hsign.plain
    · simpa [Lexeme.ofTokens, bare] using @Plain.declared typed _ first src src' (bare start) others (bare sign) _
        ending rest found word (bare variable') typeName hstarts hfinal htyped hword
        (isColon_of_isWord htaken hword) halike hsame (decide_eq_true hsign.text) hforms hending

end Restoring

/-- The statement with the call is read from a block in which it is written again. -/
theorem Led.restores (h : Led src taken semicolon after front lead) (hsits : Sits src c)
    (hrest : c.rest = front ++ (taken ++ semicolon :: after))
    (hvalue : Forms src ";" taken value) (hcall : value.unchecked = .call extent callee args)
    (hlead : lead.isRestorable) (hkeeps : callee.keepsPath)
    (hwritten : Written src' (({} : Mark).after ("\x7b" ++ lead.text)) callee value text)
    (hsrc : src'.text = "\x7b" ++ (lead.text ++ text)) :
    Restores src' (Modifiers.kept ⟨lead, value.checks, callee.trimmed⟩) := by
  obtain ⟨-, hname, -⟩ := source_call hsits hrest hvalue hcall
  cases lead with
  | declared => exact h.read_declared hsits hrest hname hwritten hsrc rfl
  | assigned => exact h.read_assigned hsits hrest hname hwritten hsrc hlead rfl
  | alone =>
    cases h with
    | @alone first others htaken hstarts hfinal hstop =>
    subst htaken
    obtain ⟨hleading, hpath⟩ := hsits.alone hrest hvalue hcall hstarts hfinal hstop
    exact hwritten.read_alone hname hsrc hleading fun path hmem =>
      hpath path hmem (isClosed_of_keepsPath hkeeps path hmem)

/-- The statement with the call is read from the text that is written for it. -/
theorem Led.restored {kind : NodeKind} {inner : Text}
    (h : Led src taken semicolon after front lead) (hsits : Sits src c)
    (hrest : c.rest = front ++ (taken ++ semicolon :: after))
    (hvalue : Forms src ";" taken value) (hcall : value.unchecked = .call extent callee args)
    (hlead : lead.isRestorable) (hkeeps : callee.keepsPath)
    (haccepts : callee.accepts kind)
    (hinner : Closed inner) (name : Text) :
    Restores ⟨name, "\x7b" ++ (lead.text ++ value.checkText ++ callee.text ++ "(" ++ inner ++ ")" ++
      ";") ++ "\x7d"⟩ (Modifiers.kept ⟨lead, value.checks, callee.trimmed⟩) := by
  generalize hsrc' : (⟨name, "\x7b" ++ (lead.text ++ value.checkText ++ callee.text ++ "(" ++ inner ++
    ")" ++ ";") ++ "\x7d"⟩ : Source) = src'
  have hsrc : src'.text = "\x7b" ++ (lead.text ++ (value.checkText ++ (callee.text ++
      '(' :: (inner ++ [')', ';', '\x7d'])))) := by
    rw [← hsrc']
    simp
  obtain ⟨hnames, -, hrooted⟩ := source_call hsits hrest hvalue hcall
  obtain ⟨_, first, more, hinvokes⟩ :=
    @invokes_callee callee kind src' ("\x7b" ++ lead.text ++ value.checkText)
      ('(' :: (inner ++ [')', ';', '\x7d'])) (by rw [hsrc]; simp) hnames haccepts hkeeps hrooted
  rw [Mark.after_append] at hinvokes
  exact h.restores hsits hrest hvalue hcall hlead hkeeps (hinvokes.written hinner) hsrc

end Source

end Call

section RoundTrip

open Call StatementReader

variable {setting : Setting}

theorem Statement.restorable_parts {statement : Statement}
    (h : statement.isRestorable setting) :
    ∃ lead value symbol callee args, statement.held? = some (lead, value) ∧
      recognized? setting value = some (symbol, callee, args) ∧ lead.isRestorable ∧
      callee.keepsPath ∧
      callee.accepts ((withCallee setting.connectors symbol {} callee).kind.getD default) ∧
      (∀ param ∈ symbol.params, Text.isWord param.name) ∧
      ∀ arg ∈ args, Text.isClosed (given arg).2 := by
  obtain ⟨⟨lead, value⟩, hheld, h⟩ := (Option.any_eq_true _ _).mp h
  obtain ⟨⟨symbol, callee, args⟩, hrecognized, h⟩ := (Option.any_eq_true _ _).mp h
  simp only [Bool.and_eq_true, all_eq_true] at h
  obtain ⟨⟨⟨⟨hlead, hkeeps⟩, haccepts⟩, hparams⟩, hargs⟩ := h
  exact ⟨lead, value, symbol, callee, args, hheld, hrecognized, hlead, hkeeps, haccepts, hparams,
    hargs⟩

theorem Modifiers.kept_eq_iff (modifiers : Modifiers) :
    modifiers.kept = modifiers ↔
      modifiers.lead.isFinal = false ∧ modifiers.checks.length ≤ 1 := by
  obtain ⟨lead, checks, callee⟩ := modifiers
  have hlead : lead.unfinal = lead ↔ lead.isFinal = false := by
    cases lead with
    | declared isFinal typeName name => cases isFinal <;> simp [Lead.unfinal, Lead.isFinal]
    | assigned | alone => exact iff_of_true rfl rfl
  have hchecks : checks.take 1 = checks ↔ checks.length ≤ 1 := by
    rcases checks with _ | ⟨first, _ | ⟨second, others⟩⟩ <;> simp
  rw [Modifiers.kept, Modifiers.mk.injEq]
  rw [hlead, hchecks, and_iff_left rfl]

/-- A statement with a recognized call is rendered as a statement of the same form: it declares the
same variable of the same type or assigns to the same target, and its call invokes the same function or
method. All its modifiers are there again just if it declares no final variable and its call has at
most one check. -/
theorem render_read_restores {file : SourceFile} {function : FunctionDef} {statement : Statement}
    (hread : SourceFile.read src = .ok file) (hfunction : function ∈ file.functions)
    (hstatement : statement ∈ function.body.within)
    (hrestorable : statement.isRestorable setting = true) (width : Nat) (name : Text) :
    ∃ node text block found modifiers,
      Walker.walkStatement setting statement {} =
        .ok (some node, { hasReturn := statement.returns }) ∧
      Render.render width node = .ok text ∧
      Block.read ⟨name, "\x7b" ++ text ++ "\x7d"⟩ = .ok block ∧ block.statements = [found] ∧
      statement.modifiers? = some modifiers ∧ found.modifiers? = some modifiers.kept ∧
      (found.modifiers? = statement.modifiers? ↔
        modifiers.lead.isFinal = false ∧ modifiers.checks.length ≤ 1) := by
  obtain ⟨lead, value, symbol, callee, args, hheld, hrecognized, hlead, hkeeps, haccepts, hparams,
    hargs⟩ := restorable_parts hrestorable
  obtain ⟨extent, hcall, -, -⟩ := recognized?_eq_some hrecognized
  obtain ⟨c, c', hsits, hbrace, hreads⟩ :=
    SourceFile.stands hread function hfunction statement hstatement (by
      cases statement <;> first | rfl | cases hheld)
  obtain ⟨front, taken, semicolon, hrest, hvalue, hled⟩ :=
    led_of_reads hsits hbrace hreads hheld hlead
  obtain ⟨hnames, -, hrooted⟩ := source_call hsits hrest hvalue hcall
  obtain ⟨node, inner, hnode, hinner, hrender⟩ := render_held width hheld hrecognized
    (hled.given hsits hrest) hnames (fun path hmem => by
      obtain ⟨_, _, hfound, -⟩ := hrooted path hmem
      exact trim_ne_nil_of_tokens? hfound) haccepts hparams hargs
  obtain ⟨block, found, hblock, hfound, hkept⟩ :=
    hled.restored hsits hrest hvalue hcall hlead hkeeps haccepts hinner name
  have hmodifiers := modifiers?_eq hheld hcall
  refine ⟨node, _, block, found, _, ?_, hrender, hblock, hfound, hmodifiers, hkept, ?_⟩
  · have hwalk := Walker.walkStatement_eq setting statement [] false
    rw [hnode] at hwalk
    exact hwalk
  · rw [hkept, hmodifiers, Option.some.injEq]
    exact Modifiers.kept_eq_iff _

/-- Functions and a client with a parameter each that may be left out. -/
def restoring : Setting where
  symbols :=
    let params : List (Parameter TypeDesc) :=
      [{ name := "p", type := .basic .int, defaultable := true }]
    .ofTable
      { functions :=
          [⟨none, "f", params, .basic .int⟩, ⟨some ⟨"o", "m"⟩, "g", params, .basic .int⟩]
        vars := [{ name := "c", type := .named none "C" }]
        classes := [⟨none, "C", [⟨"send", .remoteMethod, params, .basic .int⟩,
          ⟨"get", .resourceMethod, params, .basic .int⟩]⟩]
        qualifiers := [("m", ⟨"o", "m"⟩)] }

theorem render_read_restores_all :
    ∃ src file, src.text = ("function h() \x7b final int x = f(); y.z = check m:g(1); " ++
        "checkpanic c->send(p = 2); map<int> r = check checkpanic c->/a/[b] .get(); \x7d" : Text) ∧
      SourceFile.read src = .ok file ∧
      ∃ function ∈ file.functions, function.body.within.length = 4 ∧
        ∀ statement ∈ function.body.within, statement.isRestorable restoring = true ∧
          ∃ node text block found modifiers,
            Walker.walkStatement restoring statement {} =
              .ok (some node, { hasReturn := statement.returns }) ∧
            Render.render 4 node = .ok text ∧
            Block.read ⟨"m", "\x7b" ++ text ++ "\x7d"⟩ = .ok block ∧ block.statements = [found] ∧
            statement.modifiers? = some modifiers ∧ found.modifiers? = some modifiers.kept ∧
            (found.modifiers? = statement.modifiers? ↔
              modifiers.lead.isFinal = false ∧ modifiers.checks.length ≤ 1) := by
  let src : Source := ⟨"m", "function h() \x7b final int x = f(); y.z = check m:g(1); " ++
    "checkpanic c->send(p = 2); map<int> r = check checkpanic c->/a/[b] .get(); \x7d"⟩
  obtain ⟨file, hread, function, hmem, hlength, hall⟩ := Except.exists_ok (SourceFile.read src)
    (fun file => ∃ function ∈ file.functions, function.body.within.length = 4 ∧
      ∀ statement ∈ function.body.within, statement.isRestorable restoring = true)
    (by decide +kernel)
  refine ⟨src, file, rfl, hread, function, hmem, hlength, fun statement hstatement => ?_⟩
  have hrestorable := hall statement hstatement
  exact ⟨hrestorable, render_read_restores hread hmem hstatement hrestorable 4 "m"⟩

/-- The statements of a text that is read with no diagnostic. -/
def Source.statements? (src : Source) : Option (List Statement) :=
  ((SourceFile.read src).toOption.filter (·.diagnostics.isEmpty)).map fun file =>
    file.functions.flatMap (·.body.statements)

def Statement.written? (setting : Setting) (statement : Statement) : Option Text :=
  ((Walker.walkStatement setting statement {}).toOption.bind Prod.fst).bind fun node =>
    (Render.render 4 node).toOption

/-- A function with a final variable and a call that has two checks. -/
def forgetful : Source :=
  ⟨"m", "function h() \x7b final int x = f(); check checkpanic f(); \x7d"⟩

/-- A final variable of a call is final no more, and of two checks the inner one is lost. -/
theorem render_read_forgets :
    forgetful.statements?.map (·.map modifiers?) =
      some [some ⟨.declared true "int" "x", [], .function none "f"⟩,
        some ⟨.alone, [false, true], .function none "f"⟩] ∧
    forgetful.statements?.map (·.map (written? restoring)) =
      some [some ("int x = f();" : Text), some ("check f();" : Text)] ∧
    (Block.read ⟨"m", "\x7bint x = f();\x7d"⟩).toOption.map (·.statements.map modifiers?) =
      some [some ⟨.declared false "int" "x", [], .function none "f"⟩] ∧
    (Block.read ⟨"m", "\x7bcheck f();\x7d"⟩).toOption.map (·.statements.map modifiers?) =
      some [some ⟨.alone, [false], .function none "f"⟩] := by
  refine ⟨?_, ?_, ?_, ?_⟩ <;> decide +kernel

end RoundTrip

end Flowchart

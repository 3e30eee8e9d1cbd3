import Flowchart.Proofs.CallReading

/-!
Binding the arguments of a rendered call again. A call that stands alone is rendered as one statement,
which is read as a call of the same function or method, and its arguments go to the same parameters.
-/
namespace Flowchart

open List Statement

/-- The words that start statements of their own. -/
def Statement.leading : List Text :=
  ["return", "if", "while", "foreach", "do", "lock", "break", "continue", "panic", "fail"]

/-- The words that no call starts with. -/
def Callee.reserved : List Text := leading ++ [("final" : Text), "check", "checkpanic"]

/-- What a call invokes is named by words, and the first one may start an expression. -/
def Callee.isNamed (callee : Callee) : Bool :=
  callee.words.all Text.isWord && callee.words.head?.all (!reserved.contains ·)

namespace Call

open ExprReader Token Text StatementReader

variable {src : Source} {callee : Callee} {first brace : Token} {more : List Token} {tokens : List
  Token} {text : Text}

def bare (token : Token) : Lexeme := ⟨[], token⟩

theorem ofTokens_cons {token : Token} (h : token.isComment = false) (tokens : List Token) :
    Lexeme.ofTokens [] (token :: tokens) = bare token :: Lexeme.ofTokens [] tokens := by
  rw [Lexeme.ofTokens, h]
  rfl

theorem ofTokens_append {front pending : List Token} (hpending : front ≠ [] ∨ pending = [])
    (hlast : front.getLast?.any isComment = false) :
    Lexeme.ofTokens pending (front ++ tokens) =
      Lexeme.ofTokens pending front ++ Lexeme.ofTokens [] tokens := by
  induction front generalizing pending with
  | nil =>
    obtain rfl := hpending.resolve_left (fun hne => hne rfl)
    rfl
  | cons token front ih =>
    rw [cons_append, Lexeme.ofTokens, Lexeme.ofTokens.eq_2 pending token front]
    cases front with
    | nil =>
      have hplain : token.isComment = false := hlast
      rw [hplain]
      rfl
    | cons next front =>
      split
      · exact ih (.inl (cons_ne_nil _ _)) hlast
      · exact congrArg (_ :: ·) (ih (.inr rfl) hlast)

theorem ofTokens_eq_map (h : ∀ token ∈ tokens, token.isComment = false) :
    Lexeme.ofTokens [] tokens = tokens.map bare := by
  induction tokens with
  | nil => rfl
  | cons token tokens ih =>
    rw [ofTokens_cons (h token mem_cons_self),
      ih fun other hother => h other (mem_cons_of_mem _ hother)]
    rfl

theorem scan_of_name {first next : Lexeme} {lexemes rest : List Lexeme} {stop : Mark}
    (hword : isWord first.token.text)
    (hname : TypeText.name (first :: lexemes) = TypeText.arguments stop (next :: rest))
    (hnext : ∀ sign ∈ [("<" : Text), "?", "[", "|"], next.token.text ≠ sign) :
    TypeText.scan (first :: lexemes) = .found stop (next :: rest) := by
  have hparen : first.token.is "(" = false := decide_eq_false (ne_of_isWord hword (by decide))
  have hsign {sign : Text} (hsign : sign ∈ [("<" : Text), "?", "[", "|"]) :
      next.token.is sign = false := decide_eq_false (hnext sign hsign)
  unfold TypeText.scan
  rw [length_cons, TypeText.members, hparen, if_neg Bool.false_ne_true, hname, TypeText.arguments,
    hsign (by decide), if_neg Bool.false_ne_true]
  dsimp only
  rw [TypeText.suffixes, hsign (by decide), hsign (by decide), hsign (by decide)]
  rfl

theorem scan_name {name next : Lexeme} {rest : List Lexeme} (hname : name.token.isWord)
    (hword : isWord name.token.text)
    (hnext : ∀ sign ∈ [(":" : Text), "<", "?", "[", "|"], next.token.text ≠ sign) :
    TypeText.scan (name :: next :: rest) = .found name.token.stop (next :: rest) := by
  have hcolon : next.token.is ":" = false := decide_eq_false (hnext ":" (by decide))
  refine scan_of_name hword ?_ (forall_mem_cons.mp hnext).2
  unfold TypeText.name
  dsimp only
  rw [if_pos hname]
  cases rest with
  | nil => rfl
  | cons second rest =>
    dsimp only
    rw [hcolon]
    rfl

theorem scan_qualified {qualifier colon name next : Lexeme} {rest : List Lexeme}
    (hqualifier : qualifier.token.isWord) (hword : isWord qualifier.token.text)
    (hcolon : colon.token.text = ":") (hname : name.token.isWord)
    (hnext : ∀ sign ∈ [("<" : Text), "?", "[", "|"], next.token.text ≠ sign) :
    TypeText.scan (qualifier :: colon :: name :: next :: rest) =
      .found name.token.stop (next :: rest) := by
  have hcolons : colon.token.is ":" := decide_eq_true hcolon
  refine scan_of_name hword ?_ hnext
  unfold TypeText.name
  dsimp only
  rw [if_pos hqualifier, hcolons, hname]
  rfl

theorem Heads.isWord_text (h : Heads src callee first more)
    (hwords : ∀ word ∈ callee.words, isWord word) : isWord first.text :=
  hwords first.text (mem_of_mem_head? h.text)

structure Headed (src : Source) (callee : Callee) (first : Lexeme) (more : List Lexeme) : Prop where
  word : first.token.isWord = true
  spelled : isWord first.token.text = true
  callee : callee? src ((first :: more).map Lexeme.token) = some callee
  passes : ExprReader.passes ";" 0 (Lexeme.texts (first :: more)) = true
  shape : more = [] ∨ ∃ sign name rest, more = sign :: name :: rest ∧ sign.token.isWord = false ∧
    ((sign.token.text = ":" ∧ name.token.isWord = true ∧ rest = []) ∨ sign.token.text = "->")

/-- Tokens before a parenthesis that do not split a statement. -/
theorem passes_neutral {stop : Text} {rest : List Text} (h : ∀ token ∈ tokens, Neutral token)
    (hstop : stop = ";" ∨ stop = "=") :
    ExprReader.passes stop 0 (textsOf tokens ++ rest) = ExprReader.passes stop 0 rest := by
  induction tokens with
  | nil => rfl
  | cons token tokens ih =>
    have htoken := h token mem_cons_self
    rw [textsOf_cons, cons_append, passes_plain _ (fun hboth => hstop.elim
      (fun heq => htoken.semicolon (hboth.2.trans heq)) fun heq => htoken.equals (hboth.2.trans heq))
      htoken.opens htoken.closes htoken.semicolon,
      ih fun other hother => h other (mem_cons_of_mem _ hother)]

theorem map_token_bare (tokens : List Token) : (tokens.map bare).map Lexeme.token = tokens := by
  rw [map_map]
  exact map_id _

theorem texts_bare (tokens : List Token) : Lexeme.texts (tokens.map bare) = textsOf tokens := by
  unfold Lexeme.texts textsOf
  rw [map_map]
  rfl

theorem Heads.passes {stop : Text} (h : Heads src callee first more)
    (hstop : stop = ";" ∨ stop = "=") :
    ExprReader.passes stop 0 (Lexeme.texts (bare first :: more.map bare)) := by
  rw [← map_cons, texts_bare, ← append_nil (textsOf _), passes_neutral h.neutral hstop]
  rfl

theorem Heads.headed (h : Heads src callee first more)
    (hwords : ∀ word ∈ callee.words, isWord word) :
    Headed src callee (bare first) (more.map bare) where
  word := h.word
  spelled := h.isWord_text hwords
  callee := by
    rw [← map_cons, map_token_bare]
    exact h.callee
  passes := h.passes (.inl rfl)
  shape := by
    rcases h.shape with rfl | ⟨sign, name, rfl, hsign, hplain, hname⟩
    · exact .inl rfl
    · exact .inr ⟨bare sign, bare name, [], rfl, hplain, hsign.imp_left fun h => ⟨h, hname, rfl⟩⟩

section Standing

variable {start : Lexeme} {others inner : List Lexeme} {opening closing semicolon : Lexeme}
  {checks : List Token} {checkText : Text}

theorem Headed.declares_eq (h : Headed src callee start others) (hopening : opening.token.text = "(")
    (hplain : opening.token.isWord = false) (rest : List Lexeme) :
    declares (start :: others ++ opening :: rest) = false := by
  have hnot {stop : Mark} {name : Lexeme} {left : List Lexeme} {lexemes : List Lexeme}
      (hscan : TypeText.scan lexemes = .found stop (name :: left))
      (hname : name.token.isWord = false) : declares lexemes = false := by
    unfold declares
    rw [hscan]
    cases left with
    | nil => rfl
    | cons follow left =>
      dsimp only
      rw [hname]
      rfl
  have hparen : ∀ sign ∈ [(":" : Text), "<", "?", "[", "|"], ("(" : Text) ≠ sign := by decide
  have harrow : ∀ sign ∈ [(":" : Text), "<", "?", "[", "|"], "->" ≠ sign := by decide
  rcases h.shape with rfl | ⟨sign, name, more, rfl, hsigns, ⟨hcolon, hname, rfl⟩ | harrows⟩
  · exact hnot (scan_name h.word h.spelled (hopening ▸ hparen)) hplain
  · refine hnot (scan_qualified h.word h.spelled hcolon hname fun sign hmem => ?_) hplain
    exact hopening ▸ hparen sign (mem_cons_of_mem _ hmem)
  · exact hnot (scan_name h.word h.spelled (harrows ▸ harrow)) hsigns

theorem Headed.declares_checked {check : Token} (h : Headed src callee start others)
    (hcheck : check.isWord) (hcheck' : isWord check.text)
    (hopening : opening.token.text = "(") (rest : List Lexeme) :
    declares (bare check :: (start :: others ++ opening :: rest)) = false := by
  have hsigns : ∀ sign ∈ [(":" : Text), "<", "?", "[", "|"], start.token.text ≠ sign := by
    have hnone : ∀ sign ∈ [(":" : Text), "<", "?", "[", "|"], isWord sign = false := by decide
    exact fun sign hmem => ne_of_isWord h.spelled (hnone sign hmem)
  have hscan : ∀ left, TypeText.scan (bare check :: start :: left) =
      .found check.stop (start :: left) := fun left =>
    @scan_name (bare check) start left hcheck hcheck' hsigns
  have hnot {follow : Lexeme} {left : List Lexeme} (hequals : follow.token.text ≠ "=")
      (hsemicolon : follow.token.text ≠ ";") :
      declares (bare check :: start :: follow :: left) = false := by
    have hequals' : follow.token.is "=" = false := decide_eq_false hequals
    have hsemicolon' : follow.token.is ";" = false := decide_eq_false hsemicolon
    unfold declares
    rw [hscan]
    dsimp only
    rw [hequals', hsemicolon', Bool.or_false, Bool.and_false]
  rcases h.shape with rfl | ⟨sign, name, more, rfl, -, ⟨hsign, -, -⟩ | hsign⟩
  · exact hnot (by rw [hopening]; decide) (by rw [hopening]; decide)
  · exact hnot (by rw [hsign]; decide) (by rw [hsign]; decide)
  · exact hnot (by rw [hsign]; decide) (by rw [hsign]; decide)

theorem ofTokens_call {first opening closing : Token} {more inner : List Token} (bound : Nat)
    (hcallee : callee? src (first :: more) = some callee)
    (hopening : opening.text = "(") (hclosing : closing.text = ")")
    (hcheck : first.text ∉ [("check" : Text), "checkpanic"])
    (hparens : ExprReader.parens 0 (textsOf inner)) :
    ∃ extent, ofTokens src (bound + 1) (first :: more ++ opening :: (inner ++ [closing])) =
      .call extent callee ((argumentGroups inner).map (ofTokens src bound)) := by
  have hopen : opening.is "(" := decide_eq_true hopening
  have hopen' : opening.is ")" = false := decide_eq_false (by rw [hopening]; decide)
  have hclose : closing.is ")" := decide_eq_true hclosing
  have hparts : callParts? (first :: more ++ opening :: (inner ++ [closing])) =
      some (first :: more, inner) := by
    have hreverse : (first :: more ++ opening :: (inner ++ [closing])).reverse =
        closing :: (inner.reverse ++ opening :: (first :: more).reverse) := by simp
    unfold callParts?
    rw [hreverse]
    dsimp only
    rw [if_pos hclose, matchBack_parens hparens, append_nil, matchBack.eq_def]
    simp only [hopen, hopen', Bool.false_eq_true, if_false, if_true]
    rw [if_neg (by simp), reverse_reverse]
  have hnot : (first.is "check" || first.is "checkpanic") = false := by
    rw [Bool.or_eq_false_iff]
    exact ⟨decide_eq_false fun heq => hcheck (mem_cons.mpr (.inl heq)),
      decide_eq_false fun heq => hcheck (mem_cons_of_mem _ (mem_singleton.mpr heq))⟩
  obtain ⟨second, others, hsecond⟩ : ∃ second others,
      more ++ opening :: (inner ++ [closing]) = second :: others := by
    cases more with
    | nil => exact ⟨_, _, rfl⟩
    | cons second more => exact ⟨_, _, rfl⟩
  refine ⟨extentOf src (first :: more ++ opening :: (inner ++ [closing])), ?_⟩
  rw [cons_append, hsecond] at hparts ⊢
  unfold ofTokens
  dsimp only
  rw [hnot, if_neg Bool.false_ne_true, hparts]
  dsimp only
  rw [hcallee]

/-- The tokens of a check before a call. -/
inductive Checked : Text → List Token → Prop
  | unchecked : Checked [] []
  | checked {check : Token} (hword : check.isWord = true)
      (htext : check.text ∈ [("check" : Text), "checkpanic"]) : Checked (check.text ++ " ") [check]

theorem Checked.neutral (h : Checked checkText checks) : ∀ token ∈ checks, Neutral token := by
  cases h with
  | unchecked => exact nofun
  | checked hword htext =>
    have hwords : ∀ text ∈ [("check" : Text), "checkpanic"], isWord text := by decide
    intro token hmem
    rw [mem_singleton.mp hmem]
    exact .of_isWord hword (hwords _ htext)

/-- The lexemes of a call, from its check to its closing parenthesis. -/
def lexemesOf (checks : List Token) (head : List Lexeme) (opening : Lexeme) (inner : List Lexeme)
    (closing : Lexeme) : List Lexeme :=
  checks.map bare ++ (head ++ opening :: (inner ++ [closing]))

theorem Headed.forms (h : Headed src callee start others) (hchecks : Checked checkText checks)
    (hstart : start.token.text ∉ [("check" : Text), "checkpanic"])
    (hopening : opening.token.text = "(") (hclosing : closing.token.text = ")")
    (hpasses : ExprReader.passes ";" 0 (Lexeme.texts inner))
    (hparens : ExprReader.parens 0 (Lexeme.texts inner)) :
    ∃ bound extent value,
      Forms src ";" (lexemesOf checks (start :: others) opening inner closing) value ∧
      value.checkText = checkText ∧ value.checks = checks.map (·.is "checkpanic") ∧
      value.unchecked = .call extent callee
        ((argumentGroups (inner.map Lexeme.token)).map (ofTokens src bound)) := by
  have htexts : Lexeme.texts (lexemesOf checks (start :: others) opening inner closing) =
      textsOf checks ++ (Lexeme.texts (start :: others) ++
        ("(" : Text) :: (Lexeme.texts inner ++ [(")" : Text)])) := by
    rw [← texts_bare]
    unfold Lexeme.texts lexemesOf
    simp only [map_append, map_cons, map_nil, hopening, hclosing]
  have hpass : ExprReader.passes ";" 0 (Lexeme.texts
      (lexemesOf checks (start :: others) opening inner closing)) := by
    rw [htexts, passes_neutral hchecks.neutral (.inl rfl)]
    refine passes_append h.passes ?_
    exact passes_enclosed hpasses
  have htokens : (lexemesOf checks (start :: others) opening inner closing).map Lexeme.token =
      checks ++ (start.token :: others.map Lexeme.token ++
        opening.token :: (inner.map Lexeme.token ++ [closing.token])) := by
    unfold lexemesOf
    simp only [map_append, map_cons, map_nil, map_token_bare]
  have hforms {value : Expr} {bound : Nat}
      (hbound : (lexemesOf checks (start :: others) opening inner closing).length = bound)
      (hvalue : value = ofTokens src bound (checks ++ (start.token :: others.map Lexeme.token ++
        opening.token :: (inner.map Lexeme.token ++ [closing.token])))) :
      Forms src ";" (lexemesOf checks (start :: others) opening inner closing) value := by
    refine ⟨?_, hpass, ?_⟩
    · simp [lexemesOf]
    · rw [htokens, hbound, hvalue]
  obtain ⟨extent, hvalue⟩ := @ofTokens_call src callee start.token opening.token closing.token
    (others.map Lexeme.token) (inner.map Lexeme.token)
    (others ++ opening :: (inner ++ [closing])).length h.callee hopening hclosing hstart (by
      unfold textsOf
      rw [map_map]
      exact hparens)
  cases hchecks with
  | unchecked => exact ⟨_, extent, _, hforms rfl hvalue.symm, rfl, rfl, rfl⟩
  | @checked check hword htext =>
    have his : (check.is "check" || check.is "checkpanic") := by
      rw [Bool.or_eq_true]
      simp only [mem_cons, not_mem_nil, or_false] at htext
      exact htext.imp (decide_eq_true ·) (decide_eq_true ·)
    have hof : ofTokens src ((others ++ opening :: (inner ++ [closing])).length + 1 + 1)
        (check :: (start.token :: others.map Lexeme.token ++
          opening.token :: (inner.map Lexeme.token ++ [closing.token]))) =
        .check (extentOf src (check :: (start.token :: others.map Lexeme.token ++
          opening.token :: (inner.map Lexeme.token ++ [closing.token])))) (check.is "checkpanic")
          (.call extent callee ((argumentGroups (inner.map Lexeme.token)).map
            (ofTokens src (others ++ opening :: (inner ++ [closing])).length))) := by
      rw [← hvalue]
      exact if_pos his
    refine ⟨_, extent, _, hforms rfl hof.symm, ?_, rfl, rfl⟩
    simp only [mem_cons, not_mem_nil, or_false] at htext
    unfold Token.is
    rcases htext with htext | htext <;> rw [htext] <;> rfl

/-- A call that stands alone is read as an expression. -/
theorem Headed.simple {value : Expr} (h : Headed src callee start others)
    (hchecks : Checked checkText checks) (hfinal : checks = [] → start.token.text ≠ "final")
    (hopening : opening.token.text = "(") (hplain : opening.token.isWord = false)
    (hclosing : closing.token.text = ")") (hsemicolon : semicolon.token.text = ";")
    (hpasses : ExprReader.passes ";" 0 (Lexeme.texts inner))
    (hequals : ExprReader.passes "=" 0 (Lexeme.texts (start :: others)))
    (hvalue : Forms src ";" (lexemesOf checks (start :: others) opening inner closing) value)
    (rest : List Lexeme) :
    Simple src rest (lexemesOf checks (start :: others) opening inner closing ++ [semicolon])
      (.expression · value) := by
  have hends : semicolon.token.is ";" := decide_eq_true hsemicolon
  have hafter (previous : Option Mark) :
      targetStop? 0 previous (opening :: (inner ++ closing :: semicolon :: rest)) = none := by
    have hopens : opening.token.opens := by unfold Token.opens; simp [Token.is, hopening]
    have hneither : semicolon.token.opens = false ∧ semicolon.token.closes = false := by
      unfold Token.opens Token.closes Token.is
      rw [hsemicolon]
      decide
    have hkinds : closing.token.opens = false ∧ closing.token.closes := by
      unfold Token.opens Token.closes Token.is
      rw [hclosing]
      decide
    rw [targetStop?_cons, if_pos hopens, targetStop?_passes hpasses, targetStop?_cons, hkinds.1,
      hkinds.2, if_neg Bool.false_ne_true]
    dsimp only
    rw [targetStop?_cons]
    simp only [hneither.1, hneither.2, hends, Bool.false_eq_true, if_false, and_self, if_true]
  have hfront : ExprReader.passes "=" 0 (Lexeme.texts (checks.map bare ++ (start :: others))) =
      true := by
    rw [Lexeme.texts, map_append, ← Lexeme.texts, texts_bare,
      passes_neutral hchecks.neutral (.inr rfl)]
    exact hequals
  have hshape : lexemesOf checks (start :: others) opening inner closing ++ semicolon :: rest =
      checks.map bare ++ (start :: others ++ opening :: (inner ++ closing :: semicolon :: rest)) := by
    simp [lexemesOf]
  refine .expression ?_ ?_ ?_ hvalue hends
  · cases hchecks with
    | unchecked => exact decide_eq_false (hfinal rfl)
    | checked _ htext =>
      have hnot : ∀ text ∈ [("check" : Text), "checkpanic"], text ≠ "final" := by decide
      exact decide_eq_false (hnot _ htext)
  · rw [hshape]
    cases hchecks with
    | unchecked => exact h.declares_eq hopening hplain _
    | checked hcheckWord htext =>
      have hwords : ∀ text ∈ [("check" : Text), "checkpanic"], isWord text := by decide
      exact h.declares_checked hcheckWord (hwords _ htext) hopening _
  · rw [hshape, ← append_assoc, targetStop?_skips hfront]
    exact hafter _

theorem startsSimple_of_not_leading {token : Token} {second : Option Token}
    (h : token.text ∉ leading) : startsSimple token second := by
  have hnot : ∀ word ∈ leading, token.is word = false := fun word hmem =>
    decide_eq_false fun heq => h (heq ▸ hmem)
  unfold startsSimple
  rw [hnot "return" (by decide), hnot "if" (by decide), hnot "while" (by decide),
    hnot "foreach" (by decide), hnot "do" (by decide), hnot "lock" (by decide),
    hnot "break" (by decide), hnot "continue" (by decide), hnot "panic" (by decide),
    hnot "fail" (by decide)]
  rfl

theorem Checked.leads (hchecks : Checked checkText checks) (more : List Lexeme)
    (hword : isWord first.text) (hfirst : checks = [] → first.text ∉ leading) :
    ∃ lead lexemes, checks.map bare ++ bare first :: more = bare lead :: lexemes ∧
      isWord lead.text ∧ lead.text ∉ leading := by
  cases hchecks with
  | unchecked => exact ⟨first, more, rfl, hword, hfirst rfl⟩
  | @checked check _ htext =>
    have hnot : ∀ text ∈ [("check" : Text), "checkpanic"],
        isWord text ∧ text ∉ leading := by decide
    exact ⟨check, bare first :: more, rfl, hnot _ htext⟩

end Standing

theorem check_cuts (value : Expr) {mark : Mark} {rest : Text}
    (hrest : Cuts (mark.after value.checkText) rest tokens) :
    ∃ checks, Cuts mark (value.checkText ++ rest) (checks ++ tokens) ∧
      Checked value.checkText checks := by
  have hchecked {check : Text} (hcheck : check ∈ [("check" : Text), "checkpanic"])
      (htext : value.checkText = check ++ " ") : ∃ checks,
      Cuts mark (value.checkText ++ rest) (checks ++ tokens) ∧ Checked value.checkText checks := by
    have hwords : ∀ text ∈ [("check" : Text), "checkpanic"], isWord text := by decide
    obtain ⟨token, hcuts, hword, rfl⟩ := keyword_cuts (hwords check hcheck) mark
    rw [htext] at hrest ⊢
    refine ⟨[token], ?_, .checked hword hcheck⟩
    rw [Mark.after_append] at hrest
    have hblank : Cuts (mark.after token.text) (" " ++ rest) tokens := .blank rfl hrest
    rw [append_assoc]
    exact hcuts.append hblank rfl (forall_mem_singleton.mpr (isComment_of_isWord hword))
  cases value with
  | check _ isPanic _ =>
    cases isPanic with
    | true => exact @hchecked "checkpanic" (by decide) rfl
    | false => exact @hchecked "check" (by decide) rfl
  | call | other => exact ⟨[], hrest, .unchecked⟩

/-- A token for a sign. -/
structure Sign (token : Token) (sign : Text) : Prop where
  cls : token.cls = .symbol
  text : token.text = sign

theorem Sign.plain {token : Token} {sign : Text} (h : Sign token sign) : token.isComment = false :=
  decide_eq_false (by rw [h.cls]; decide)

theorem lone_cuts {c : Char} {rest : Text} {mark : Mark} {tokens : List Token}
    (h : isLone c) (hrest : Cuts (mark.after [c]) rest tokens) :
    ∃ token, Cuts mark (c :: rest) (token :: tokens) ∧ Sign token [c] := by
  obtain ⟨hblank, -, htake⟩ := take?_lone h rest
  obtain ⟨token, hcuts, hsign⟩ : ∃ token, Cuts mark ([] ++ c :: rest) (token :: tokens) ∧
      Sign token [c] := ⟨_, .token rfl hblank htake hrest, rfl, rfl⟩
  exact ⟨token, hcuts, hsign⟩

/-- What is read between the braces of a text are the statements of a block. -/
theorem read_braced {statements : List Statement} {c' : Cursor} (hsrc : src.text = '\x7b' :: text)
    (hcuts : Cuts (({} : Mark).after "\x7b") text tokens) (h : Reads src (.statements statements)
      ⟨Lexeme.ofTokens [] tokens, ({} : Mark).after "\x7b", []⟩ c') (hlog : c'.log = [])
    (hend : c'.rest = [bare brace]) (hclose : brace.is "\x7d") :
    ∃ block, Block.read src = .ok block ∧ block.statements = statements := by
  obtain ⟨opening, hwhole, hopening⟩ := @lone_cuts '\x7b' _ {} _ (by decide) hcuts
  obtain ⟨_, _, htokens, -, -, hstop, -⟩ := hwhole.unlone (by decide)
  obtain ⟨rfl, -⟩ := cons.inj htokens
  have hopens : Cursor.Takes { rest := Lexeme.ofTokens [] (opening :: tokens) } [bare opening]
      ⟨Lexeme.ofTokens [] tokens, ({} : Mark).after "\x7b", []⟩ :=
    ⟨ofTokens_cons hopening.plain tokens, hstop.symm, rfl⟩
  have hcloses : c'.Takes [bare brace] ⟨[], _, c'.log⟩ := ⟨hend, rfl, rfl⟩
  exact ⟨_, Block.read_of_reads (scan_eq_ok_iff.mpr (hsrc ▸ hwhole))
    (.block hopens (decide_eq_true hopening.text) h hcloses hclose) hlog rfl, rfl⟩

/-- A statement without blocks is read from the start of a block, where other statements follow. -/
theorem read_before {taken rest : List Lexeme} {make : Shape} {others : List Statement}
    {c' : Cursor} (hsrc : src.text = '\x7b' :: text)
    (hcuts : Cuts (({} : Mark).after "\x7b") text tokens)
    (hlexemes : Lexeme.ofTokens [] tokens = bare first :: taken ++ rest)
    (hfirst : first.text ≠ "\x7d") (hplain : Plain src rest (bare first :: taken) make)
    (hmore : Reads src (.statements others)
      ⟨rest, stopOf {} (Lexeme.flat (bare first :: taken)), []⟩ c') (hlog : c'.log = [])
    (hend : c'.rest = [bare brace]) (hclose : brace.is "\x7d") :
    ∃ block extent, Block.read src = .ok block ∧ block.statements = make extent :: others := by
  have hbody : Cursor.Takes ⟨Lexeme.ofTokens [] tokens, ({} : Mark).after "\x7b", []⟩
      (bare first :: taken) ⟨rest, stopOf {} (Lexeme.flat (bare first :: taken)), []⟩ :=
    ⟨hlexemes, rfl, rfl⟩
  obtain ⟨block, hblock, hstatements⟩ := read_braced hsrc hcuts
    (.cons hlexemes (decide_eq_false hfirst) (.plain hbody hplain) hmore) hlog hend hclose
  exact ⟨block, _, hblock, hstatements⟩

/-- A statement without blocks is read from a block that has nothing else. -/
theorem read_plain {taken : List Lexeme} {make : Shape} (hsrc : src.text = '\x7b' :: text)
    (hcuts : Cuts (({} : Mark).after "\x7b") text tokens)
    (hlexemes : Lexeme.ofTokens [] tokens = bare first :: taken ++ [bare brace])
    (hbrace : Sign brace "\x7d") (hfirst : first.text ≠ "\x7d")
    (hplain : Plain src [bare brace] (bare first :: taken) make) :
    ∃ block extent, Block.read src = .ok block ∧ block.statements = [make extent] := by
  have hclose : brace.is "\x7d" := decide_eq_true hbrace.text
  exact read_before hsrc hcuts hlexemes hfirst hplain (.done rfl hclose) rfl rfl hclose

/-- The tokens of a call around what it invokes and its arguments, and the two after it. -/
structure Ends (checkText : Text) (checks : List Token) (opening closing semicolon brace : Token) :
    Prop where
  checked : Checked checkText checks
  opening : Sign opening "("
  closing : Sign closing ")"
  semicolon : Sign semicolon ";"
  brace : Sign brace "\x7d"

theorem call_cuts {mark : Mark} {inner : Text} {head arguments : List Token} (value : Expr)
    (hhead : Cuts (mark.after value.checkText) text head) (hlast : head.getLast?.any isComment = false)
    (hinner : Cuts (((mark.after value.checkText).after text).after "(") inner arguments)
    (hends : arguments.getLast?.any isComment = false) :
    ∃ tokens checks opening closing semicolon brace,
      Cuts mark (value.checkText ++ (text ++ '(' :: (inner ++ [')', ';', '\x7d']))) tokens ∧
      Lexeme.ofTokens [] tokens = lexemesOf checks (Lexeme.ofTokens [] head) (bare opening)
        (Lexeme.ofTokens [] arguments) (bare closing) ++ [bare semicolon, bare brace] ∧
      Ends value.checkText checks opening closing semicolon brace := by
  obtain ⟨brace, hcuts, hbrace⟩ := @lone_cuts '\x7d' [] ((((((mark.after value.checkText).after
    text).after "(").after inner).after [')']).after [';']) [] (by decide) (.done rfl)
  obtain ⟨semicolon, hcuts, hsemicolon⟩ := @lone_cuts ';' _ _ _ (by decide) hcuts
  obtain ⟨closing, hcuts, hclosing⟩ := @lone_cuts ')' _ _ _ (by decide) hcuts
  obtain ⟨opening, hcuts, hopening⟩ := @lone_cuts '(' _ _ _ (by decide)
    (hinner.followed hends hcuts (by decide))
  obtain ⟨checks, hcuts, hchecks⟩ := check_cuts value
    (hhead.followed hlast hcuts (show separates '(' by decide))
  refine ⟨_, checks, opening, closing, semicolon, brace, hcuts, ?_, hchecks, hopening, hclosing,
    hsemicolon, hbrace⟩
  have hplain : ∀ check ∈ checks, check.isComment = false := fun check hmem =>
    (hchecks.neutral check hmem).plain
  rw [ofTokens_append (.inr rfl) (last_of_plain hplain), ofTokens_eq_map hplain,
    ofTokens_append (.inr rfl) hlast, ofTokens_cons hopening.plain,
    ofTokens_append (.inr rfl) hends, ofTokens_cons hclosing.plain,
    ofTokens_cons hsemicolon.plain, ofTokens_cons hbrace.plain]
  simp [lexemesOf, Lexeme.ofTokens]

theorem Headed.read {checkText : Text} {checks : List Token} {more inner : List Lexeme}
    {opening closing semicolon : Token} (h : Headed src callee (bare first) more)
    (hends : Ends checkText checks opening closing semicolon brace)
    (hsrc : src.text = '\x7b' :: text) (hcuts : Cuts (({} : Mark).after "\x7b") text tokens)
    (hlexemes : Lexeme.ofTokens [] tokens = lexemesOf checks (bare first :: more) (bare opening) inner
      (bare closing) ++ [bare semicolon, bare brace])
    (hcheck : first.text ∉ [("check" : Text), "checkpanic"])
    (hfree : checks = [] → first.text ∉ leading ∧ first.text ≠ "final")
    (hpasses : ExprReader.passes ";" 0 (Lexeme.texts inner))
    (hparens : ExprReader.parens 0 (Lexeme.texts inner))
    (hequals : ExprReader.passes "=" 0 (Lexeme.texts (bare first :: more))) :
    ∃ bound block extent callExtent found, Block.read src = .ok block ∧
      block.statements = [.expression extent found] ∧ found.checkText = checkText ∧
      found.checks = checks.map (·.is "checkpanic") ∧
      found.unchecked = .call callExtent callee
        ((argumentGroups (inner.map Lexeme.token)).map (ofTokens src bound)) := by
  obtain ⟨bound, callExtent, found, hforms, htext, hchecks, hcall⟩ :=
    @Headed.forms _ _ _ _ _ (bare opening) (bare closing) _ _ h hends.checked hcheck
      hends.opening.text hends.closing.text hpasses hparens
  have hsimple := @Headed.simple _ _ _ _ _ (bare opening) (bare closing) (bare semicolon) _ _ found h hends.checked
    (fun hnil => (hfree hnil).2) hends.opening.text
    (decide_eq_false (by rw [bare, hends.opening.cls]; decide)) hends.closing.text
    hends.semicolon.text hpasses hequals hforms [bare brace]
  obtain ⟨start, others, hstart, hword, hleading⟩ := hends.checked.leads
    (more ++ bare opening :: (inner ++ [bare closing, bare semicolon])) h.spelled
    fun hnil => (hfree hnil).1
  have hshape : lexemesOf checks (bare first :: more) (bare opening) inner (bare closing) ++
      [bare semicolon] = bare start :: others := by
    rw [← hstart]
    simp [lexemesOf, bare]
  rw [hshape] at hsimple
  obtain ⟨block, extent, hread, hblock⟩ := read_plain hsrc hcuts
    (by rw [hlexemes, ← hshape]; simp) hends.brace (ne_of_isWord hword (by decide))
    (.simple (startsSimple_of_not_leading hleading) hsimple)
  exact ⟨bound, block, extent, callExtent, found, hread, hblock, htext, hchecks, hcall⟩

theorem trim_trim (text : Text) : trim (trim text) = trim text := by
  refine trim_eq_self ?_ ?_ <;> rw [Option.all_eq_true] <;> intro c hc
  · obtain ⟨rest, hrest⟩ : trim text <+: trimStart text := by
      have hsuffix := List.reverse_prefix.mpr (dropWhile_suffix isBlank (l := (trimStart text).reverse))
      rwa [reverse_reverse] at hsuffix
    have hhead : (trimStart text).head? = some c := by rw [← hrest, head?_append, hc]; rfl
    have hblank := head?_dropWhile_not isBlank text
    rw [show text.dropWhile isBlank = trimStart text from rfl, hhead] at hblank
    rw [hblank]
    rfl
  · obtain ⟨d, hlast, hblank⟩ := getLast?_trim (ne_nil_of_mem (mem_of_getLast? hc))
    obtain rfl : d = c := Option.some.inj (hlast.symm.trans hc)
    rw [hblank]
    rfl

theorem trim_given (arg : Expr) : trim (given arg).2 = (given arg).2 := by
  unfold given
  cases hnamed : arg.namedArgument? with
  | none => exact trim_trim _
  | some pair =>
    obtain ⟨cut, -, hpair⟩ := Option.bind_eq_some_iff.mp hnamed
    dsimp only at hpair
    split at hpair
    · rw [← Option.some.inj hpair]
      exact trim_trim _
    · cases hpair

end Call

end Flowchart

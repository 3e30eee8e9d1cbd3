import Flowchart.Proofs.Seams

/-!
Two readers that run side by side on sources with the same tokens. From cursors at the same token they
both succeed, with values in relation and again at the same token, or both fail with the same fault.
A reader that is put together from such readers is one as well, so two runs of the whole grammar agree
as soon as its smallest readers do.
-/
namespace Flowchart

open List

/-- Problems that agree in everything but where they are reported. -/
structure Diagnostic.Alike (a b : Diagnostic) : Prop where
  severity : a.severity = b.severity
  message : a.message = b.message
  code : a.code = b.code

variable {src src' : Source}

/-- Tokens with the same class and text that start and stop at marks which go together. -/
structure Token.Twins (align : Alignment src src') (a b : Token) : Prop where
  cls : a.cls = b.cls
  text : a.text = b.text
  start : align.holds a.start b.start
  stop : align.holds a.stop b.stop
  proper : a.isComment = false

/-- Comments with the same text, at marks which go together and so many lines apart. -/
structure Token.Remarks (align : Alignment src src') (a b : Token) : Prop where
  text : a.text = b.text
  start : align.holds a.start b.start
  stop : align.holds a.stop b.stop
  line : b.start.position.line = a.start.position.line + align.lines

/-- Twin tokens with the same comments before them. -/
structure Lexeme.Twins (align : Alignment src src') (a b : Lexeme) : Prop where
  token : a.token.Twins align b.token
  comments : Forall₂ (Token.Remarks align) a.comments b.comments

/-- Cursors at the same token, with alike problems in their logs. -/
structure Cursor.Twins (align : Alignment src src') (c c' : Cursor) : Prop where
  rest : List.Forall₂ (Lexeme.Twins align) c.rest c'.rest
  last : align.holds c.last c'.last
  log : List.Forall₂ Diagnostic.Alike c.log c'.log

variable {align : Alignment src src'}

theorem rel_getLast? {α : Type} {R : α → α → Prop} {a b : List α} (h : Forall₂ R a b) :
    Option.Rel R a.getLast? b.getLast? := by
  have hlast := rel_reverse h
  rw [getLast?_eq_head?_reverse, getLast?_eq_head?_reverse]
  generalize a.reverse = back, b.reverse = back' at hlast
  cases hlast with
  | nil => exact .none
  | cons hfirst _ => exact .some hfirst

namespace Token.Twins

variable {a b : Token}

theorem same (h : Twins align a b) : Same a b := by
  refine ⟨?_, h.proper⟩
  unfold spelling
  rw [h.cls, h.text]

theorem is (h : Twins align a b) (text : Text) : a.is text = b.is text := by
  unfold Token.is
  rw [h.text]

end Token.Twins

namespace Cursor.Twins

variable {c c' : Cursor}

theorem peek? (h : Twins align c c') : Option.Rel (Token.Twins align) c.peek? c'.peek? := by
  obtain ⟨hrest, -, -⟩ := h
  unfold Cursor.peek?
  generalize c.rest = rest, c'.rest = rest' at hrest
  cases hrest with
  | nil => exact .none
  | cons hfirst _ => exact .some hfirst.token

theorem at? (h : Twins align c c') (text : Text) : c.at? text = c'.at? text := by
  have hpeek := h.peek?
  unfold Cursor.at?
  generalize c.peek? = found, c'.peek? = found' at hpeek
  cases hpeek with
  | none => rfl
  | some htwins => exact htwins.is text

theorem peekSecond? (h : Twins align c c') (text : Text) :
    c.peekSecond?.any (·.is text) = c'.peekSecond?.any (·.is text) := by
  obtain ⟨hrest, -, -⟩ := h
  unfold Cursor.peekSecond?
  generalize c.rest = rest, c'.rest = rest' at hrest
  cases hrest with
  | nil => rfl
  | cons _ hmore =>
    cases hmore with
    | nil => rfl
    | cons hsecond _ => exact hsecond.token.is text

theorem next (h : Twins align c c') : Twins align c.next c'.next := by
  obtain ⟨rest, last, log⟩ := c
  obtain ⟨rest', last', log'⟩ := c'
  obtain ⟨hrest, hlast, hlog⟩ := h
  cases hrest with
  | nil => exact ⟨.nil, hlast, hlog⟩
  | cons hfirst hmore => exact ⟨hmore, hfirst.token.stop, hlog⟩

end Cursor.Twins

namespace Reader

variable {α β : Type} {R : α → α → Prop} {S : β → β → Prop} {x x' : Reader α}

/-- Both readers succeed, with values in relation and cursors at the same token, or both fail with the
same fault. -/
inductive Results (align : Alignment src src') (R : α → α → Prop) :
    EStateM.Result SyntaxError Cursor α → EStateM.Result SyntaxError Cursor α → Prop
  | ok {a a' : α} {c c' : Cursor} (hvalue : R a a') (hcursors : c.Twins align c') :
      Results align R (.ok a c) (.ok a' c')
  | error {e e' : SyntaxError} {c c' : Cursor} (hfault : e.fault = e'.fault)
      (hlog : List.Forall₂ Diagnostic.Alike c.log c'.log) :
      Results align R (.error e c) (.error e' c')

/-- From cursors at the same token the readers have the same result, up to where things stand. -/
def Agree (align : Alignment src src') (R : α → α → Prop) (read read' : Reader α) : Prop :=
  ∀ c c' : Cursor, c.Twins align c' → Results align R (read c) (read' c')

theorem agree_pure {a a' : α} (h : R a a') : Agree align R (pure a) (pure a') :=
  fun _ _ hc => .ok h hc

theorem Agree.bind {f f' : α → Reader β} (hx : Agree align R x x')
    (hf : ∀ a a', R a a' → Agree align S (f a) (f' a')) :
    Agree align S (x >>= f) (x' >>= f') := by
  intro c c' hc
  have hresult := hx c c' hc
  change Results align S (EStateM.bind x f c) (EStateM.bind x' f' c')
  unfold EStateM.bind
  generalize x c = result, x' c' = result' at hresult
  cases hresult with
  | ok hvalue hcursors => exact hf _ _ hvalue _ _ hcursors
  | error hfault hlog => exact .error hfault hlog

theorem Agree.map {g g' : α → β} (hx : Agree align R x x') (hg : ∀ a a', R a a' → S (g a) (g' a')) :
    Agree align S (g <$> x) (g' <$> x') := by
  intro c c' hc
  have hresult := hx c c' hc
  change Results align S (EStateM.map g x c) (EStateM.map g' x' c')
  unfold EStateM.map
  generalize x c = result, x' c' = result' at hresult
  cases hresult with
  | ok hvalue hcursors => exact .ok (hg _ _ hvalue) hcursors
  | error hfault hlog => exact .error hfault hlog

theorem agree_ite {test test' : Bool} {y y' : Reader α} (htest : test = test')
    (hx : Agree align R x x') (hy : Agree align R y y') :
    Agree align R (if test then x else y) (if test' then x' else y') := by
  subst htest
  split
  · exact hx
  · exact hy

theorem agree_get : Agree align (Cursor.Twins align) get get := fun _ _ hc => .ok hc hc

theorem agree_set {c c' : Cursor} (h : c.Twins align c') :
    Agree align (fun _ _ => True) (set c : Reader PUnit) (set c') := fun _ _ _ => .ok trivial h

theorem agree_failAt {token token' : Token} {fault fault' : SyntaxFault} (h : fault = fault') :
    Agree align R (failAt token fault) (failAt token' fault') := fun _ _ hc => .error h hc.log

theorem agree_failAtEnd (fault : SyntaxFault) :
    Agree align R (failAtEnd src fault) (failAtEnd src' fault) := fun _ _ hc => .error rfl hc.log

theorem agree_advance : Agree align (fun _ _ => True) advance advance :=
  fun _ _ hc => .ok trivial hc.next

theorem agree_eat (text : Text) : Agree align (· = ·) (eat text) (eat text) := by
  intro c c' hc
  unfold eat
  rw [hc.at? text]
  split
  · exact .ok rfl hc.next
  · exact .ok rfl hc

theorem agree_expect (text : Text) :
    Agree align (Token.Twins align) (expect src text) (expect src' text) := by
  intro c c' hc
  have hpeek := hc.peek?
  unfold expect
  generalize c.peek? = found, c'.peek? = found' at hpeek
  cases hpeek with
  | none => exact .error rfl hc.log
  | some htoken =>
    dsimp only
    rw [htoken.is text]
    split
    · exact .ok htoken hc.next
    · exact .error (congrArg (SyntaxFault.expected text) htoken.text) hc.log

theorem agree_expectWord : Agree align (Token.Twins align) (expectWord src) (expectWord src') := by
  intro c c' hc
  have hpeek := hc.peek?
  unfold expectWord
  generalize c.peek? = found, c'.peek? = found' at hpeek
  cases hpeek with
  | none => exact .error rfl hc.log
  | some htoken =>
    dsimp only
    rw [htoken.same.isWord]
    split
    · exact .ok htoken hc.next
    · exact .error (congrArg SyntaxFault.expectedIdentifier htoken.text) hc.log

end Reader

namespace TypeText

open Reader

/-- Both scans find the end of a type, at marks which go together, or both stop at the same token. -/
inductive Scan.Twins (align : Alignment src src') : Scan → Scan → Prop
  | found {stop stop' : Mark} {rest rest' : List Lexeme} (hstop : align.holds stop stop')
      (hrest : List.Forall₂ (Lexeme.Twins align) rest rest') :
      Twins align (.found stop rest) (.found stop' rest')
  | failed {rest rest' : List Lexeme} (hrest : List.Forall₂ (Lexeme.Twins align) rest rest') :
      Twins align (.failed rest) (.failed rest')

variable {lexemes lexemes' : List Lexeme} {stop stop' : Mark}

/-- Twin lexemes and the marks which go together, with nothing after them. -/
def twinPairs (align : Alignment src src') : Lexeme.Pairing where
  lexemes := Lexeme.Twins align
  marks := align.holds
  same h := h.token.same
  stop h := h.token.stop

theorem paired_iff_twins : Lexeme.Paired (twinPairs align) [] [] lexemes lexemes' ↔
    List.Forall₂ (Lexeme.Twins align) lexemes lexemes' := by
  constructor
  · intro h
    induction h with
    | done => exact .nil
    | cons hfirst _ ih => exact .cons hfirst ih
  · intro h
    induction h with
    | nil => exact .done
    | cons hfirst _ ih => exact .cons hfirst ih

theorem scan_twins (h : List.Forall₂ (Lexeme.Twins align) lexemes lexemes') :
    Scan.Twins align (scan lexemes) (scan lexemes') := by
  have hscan := scan_paired (paired_iff_twins.mpr h)
  generalize scan lexemes = found, scan lexemes' = found' at hscan
  cases hscan with
  | found hstop hleft => exact .found hstop (paired_iff_twins.mp hleft)
  | failed hleft => exact .failed (paired_iff_twins.mp hleft)
  | past hmore _ => exact absurd ⟨rfl, rfl⟩ hmore

theorem agree_read : Agree align Text.Alike (TypeText.read src) (TypeText.read src') := by
  intro c c' hc
  have hrest := hc.rest
  have hscan := scan_twins hrest
  unfold TypeText.read
  generalize scan c.rest = found, scan c'.rest = found' at hscan
  generalize c.rest = rest, c'.rest = rest' at hrest
  cases hrest with
  | nil => exact .error rfl hc.log
  | cons hfirst hmore =>
    cases hscan with
    | found hstop hleft =>
      exact .ok (align.slices hfirst.token.start hstop) ⟨hleft, hstop, hc.log⟩
    | failed hleft =>
      cases hleft with
      | nil => exact .error rfl hc.log
      | cons _ _ => exact .error rfl hc.log

end TypeText

namespace ExprReader

open Reader

theorem extentOf_twins {tokens tokens' : List Token}
    (h : List.Forall₂ (Token.Twins align) tokens tokens') :
    Text.Alike (extentOf src tokens).source (extentOf src' tokens').source := by
  have hlast := rel_getLast? h
  unfold extentOf
  generalize tokens.getLast? = last, tokens'.getLast? = last' at hlast
  cases h with
  | nil => exact ⟨[], rfl, rfl⟩
  | cons hfirst _ =>
    cases hlast with
    | none => exact ⟨[], rfl, rfl⟩
    | some hlast => exact align.slices hfirst.start hlast.stop

/-- Twin tokens are read as alike expressions. -/
def twinCompanions (align : Alignment src src') : Companions src src' where
  tokens := Token.Twins align
  runs := List.Forall₂ (Token.Twins align)
  same h := h.same
  related h := h
  within _ _ _ hrelated := hrelated
  extents := extentOf_twins
  paths := by
    rintro first first' next next' a b h
    have hlast := rel_reverse h
    rw [← cons_append, ← cons_append, reverse_concat, reverse_concat] at hlast
    cases h with
    | cons hfirst _ =>
      cases hlast with
      | cons hnext _ => exact align.slices hfirst.start hnext.start

/-- Both stop before the same token, or both fail with the same fault. -/
inductive Collected (align : Alignment src src') :
    Except SyntaxError (List Token × List Lexeme) → Except SyntaxError (List Token × List Lexeme) →
    Prop
  | ok {tokens tokens' : List Token} {rest rest' : List Lexeme}
      (htokens : List.Forall₂ (Token.Twins align) tokens tokens')
      (hrest : List.Forall₂ (Lexeme.Twins align) rest rest') :
      Collected align (.ok (tokens, rest)) (.ok (tokens', rest'))
  | error {e e' : SyntaxError} (hfault : e.fault = e'.fault) :
      Collected align (.error e) (.error e')

theorem Collected.cons {token token' : Token}
    {found found' : Except SyntaxError (List Token × List Lexeme)}
    (htoken : token.Twins align token') (h : Collected align found found') :
    Collected align (found >>= fun pair => pure (token :: pair.1, pair.2))
      (found' >>= fun pair => pure (token' :: pair.1, pair.2)) := by
  cases h with
  | ok htokens hrest => exact .ok (.cons htoken htokens) hrest
  | error hfault => exact .error hfault

theorem collect_twins {stop : Text} {depth : Nat} {lexemes lexemes' : List Lexeme}
    (h : List.Forall₂ (Lexeme.Twins align) lexemes lexemes') :
    Collected align (collect src stop depth lexemes) (collect src' stop depth lexemes') := by
  induction h generalizing depth with
  | nil => exact .error rfl
  | cons hfirst hrest ih =>
    have hfault := congrArg SyntaxFault.unexpected hfirst.token.text
    unfold collect
    simp only [hfirst.token.is, hfirst.token.same.opens, hfirst.token.same.closes]
    split
    · exact .ok .nil (.cons hfirst hrest)
    split
    · exact ih.cons hfirst.token
    split
    · split
      · exact .error hfault
      · exact ih.cons hfirst.token
    split
    · exact .error hfault
    · exact ih.cons hfirst.token

theorem agree_readUntil (stop : Text) :
    Agree align Expr.Alike (readUntil src stop) (readUntil src' stop) := by
  intro c c' hc
  have hcollect : Collected align (collect src stop 0 c.rest) (collect src' stop 0 c'.rest) :=
    collect_twins hc.rest
  unfold readUntil
  generalize collect src stop 0 c.rest = found, collect src' stop 0 c'.rest = found' at hcollect
  cases hcollect with
  | error hfault => exact .error hfault hc.log
  | @ok tokens tokens' rest rest' htokens hrest =>
    have hvalue : (ofTokens src tokens.length tokens).Alike (ofTokens src' tokens.length tokens') :=
      (twinCompanions align).ofTokens htokens
    have hlast := rel_getLast? htokens
    dsimp only
    rw [← htokens.length_eq]
    generalize tokens.getLast? = last, tokens'.getLast? = last' at hlast
    cases hlast with
    | none => exact .error rfl hc.log
    | some hlast => exact .ok hvalue ⟨hrest, hlast.stop, hc.log⟩

end ExprReader

end Flowchart

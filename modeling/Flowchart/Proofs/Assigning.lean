import Flowchart.Proofs.Agreement
import Flowchart.Proofs.Completeness
import Flowchart.Proofs.Recovery

/-!
Where an assignment is split. Its target ends before the first equals sign outside all brackets, and
what follows the first equals sign of all is read as its value. These are the same sign unless the
target holds one in its brackets. Then the value is read from inside of them, the bracket that closes
them is not expected there, and the statement is kept as an invalid one.
-/
namespace Flowchart

open List hiding count

open Lexeme Token Reader Cursor

variable {src : Source} {c : Cursor} {before taken rest lexemes more : List Lexeme}
  {first : Token} {equals semicolon : Lexeme} {depth inner : Nat}

namespace ExprReader

/-- Reading that starts inside of brackets fails where they are closed. -/
theorem collect_of_open (h : passes "=" (depth + inner + 1) (texts lexemes)) :
    ∃ bracket ∈ lexemes, bracket.token.closes ∧ collect src ";" depth (lexemes ++ more) =
      .error ⟨.unexpected bracket.token.text, bracket.token.start.position⟩ := by
  induction lexemes generalizing depth with
  | nil => cases h
  | cons lexeme lexemes ih =>
    have hcases := (passes_texts h).2
    have hsemicolon : ¬ (depth = 0 ∧ lexeme.token.is ";") := by
      rintro ⟨-, his⟩
      simp only [Token.opens, Token.closes, Token.is, is_iff.mp his] at hcases
      rcases hcases with ⟨⟨⟩, -⟩ | ⟨-, ⟨⟩, -⟩ | ⟨-, -, hplain, -⟩
      exact hplain rfl
    rw [cons_append, collect.eq_def]
    dsimp only
    rw [if_neg hsemicolon]
    rcases hcases with ⟨hopens, hmore⟩ | ⟨hopens, hcloses, inside, heq, hmore⟩ |
      ⟨hopens, hcloses, hplain, hmore⟩
    · rw [Nat.add_right_comm depth inner] at hmore
      obtain ⟨bracket, hmem, hbracket, herror⟩ := ih hmore
      rw [if_pos hopens, herror]
      exact ⟨bracket, mem_cons_of_mem _ hmem, hbracket, rfl⟩
    · rw [if_neg hopens, if_pos hcloses]
      cases depth with
      | zero => exact ⟨lexeme, mem_cons_self, hcloses, rfl⟩
      | succ depth =>
        obtain rfl : inside = depth + inner + 1 := by omega
        obtain ⟨bracket, hmem, hbracket, herror⟩ := ih hmore
        dsimp only
        rw [herror]
        exact ⟨bracket, mem_cons_of_mem _ hmem, hbracket, rfl⟩
    · rw [if_neg hopens, if_neg hcloses, if_neg hplain]
      obtain ⟨bracket, hmem, hbracket, herror⟩ := ih hmore
      rw [herror]
      exact ⟨bracket, mem_cons_of_mem _ hmem, hbracket, rfl⟩

end ExprReader

namespace StatementReader

open ExprReader

theorem valueToSemicolon_of_error {error : SyntaxError} (h : collect src ";" 0 c.rest = .error error) :
    valueToSemicolon src c = .error error c := by
  refine bind_of_error ?_
  unfold readUntil
  rw [h]

/-- What follows the first equals sign of some lexemes that have none outside brackets starts inside
of brackets. -/
theorem afterEquals_inside (h : passes "=" depth (texts lexemes))
    (hmem : ∃ lexeme ∈ lexemes, lexeme.token.is "=") :
    ∃ front inside inner, lexemes = front ++ inside ∧
      afterEquals (lexemes ++ more) = inside ++ more ∧ passes "=" (inner + 1) (texts inside) := by
  induction lexemes generalizing depth with
  | nil => exact absurd hmem (by simp)
  | cons lexeme lexemes ih =>
    obtain ⟨hopen, hcases⟩ := passes_texts h
    rw [cons_append, afterEquals]
    by_cases hequals : lexeme.token.is "="
    · rw [if_pos hequals]
      obtain ⟨inner, rfl⟩ := Nat.exists_eq_succ_of_ne_zero fun hzero => hopen ⟨hzero, hequals⟩
      refine ⟨[lexeme], lexemes, inner, rfl, rfl, ?_⟩
      simp only [Token.opens, Token.closes, Token.is, is_iff.mp hequals] at hcases
      rcases hcases with ⟨⟨⟩, -⟩ | ⟨-, ⟨⟩, -⟩ | ⟨-, -, -, hmore⟩
      exact hmore
    · rw [if_neg hequals]
      obtain ⟨found, hfound, his⟩ := hmem
      have hmem : ∃ lexeme ∈ lexemes, lexeme.token.is "=" := by
        refine ⟨found, (mem_cons.mp hfound).resolve_left ?_, his⟩
        rintro rfl
        exact hequals his
      have hrest : ∃ depth, passes "=" depth (texts lexemes) := by
        rcases hcases with ⟨-, h⟩ | ⟨-, -, _, -, h⟩ | ⟨-, -, -, h⟩ <;> exact ⟨_, h⟩
      obtain ⟨_, hrest⟩ := hrest
      obtain ⟨front, inside, inner, rfl, hafter, hinside⟩ := ih hrest hmem
      exact ⟨lexeme :: front, inside, inner, rfl, hafter, hinside⟩

/-- A statement that assigns to a target without an equals sign in its brackets is read with the text
of the target and the expression up to its semicolon. With such an equals sign it is an invalid one,
reported for a bracket of the target. -/
theorem recovering_assignment {block : Reader Block}
    (hrest : c.rest = ⟨[], first⟩ :: before ++ equals :: (taken ++ semicolon :: rest))
    (hstarts : startsSimple first c.peekSecond?) (hfinal : first.is "final" = false)
    (hdeclares : declares c.rest = false)
    (htarget : passes "=" 0 (texts (⟨[], first⟩ :: before))) (hequals : equals.token.is "=")
    (hne : taken ≠ []) (hvalue : passes ";" 0 (texts taken)) (hsemicolon : semicolon.token.is ";") :
    ((∀ lexeme ∈ before, lexeme.token.is "=" = false) →
      recovering src (statement src block) first c =
        .ok (.assign (src.extent first.start semicolon.token.stop)
            (Text.trim (src.slice first.start (stopOf first.stop (flat before))))
            (ofTokens src taken.length (taken.map Lexeme.token)))
          { c with rest := rest, last := semicolon.token.stop }) ∧
      ((∃ lexeme ∈ before, lexeme.token.is "=") → ∃ bracket ∈ before, bracket.token.closes ∧
        ∃ extent after, recovering src (statement src block) first c = .ok (.invalid extent) after ∧
          after.log = c.log ++
            [broken ⟨.unexpected bracket.token.text, bracket.token.start.position⟩ extent.range]) := by
  have hpeek : c.peek? = some first := by
    rw [peek?, hrest]
    rfl
  have hat : c.at? "final" = false := by rwa [at?, hpeek]
  have hstop : targetStop? 0 none c.rest = some (stopOf first.stop (flat before)) := by
    rw [hrest, targetStop?_skips htarget, lastStop_cons, flat, nil_append, stopOf_cons,
      targetStop?_cons]
    simp only [Token.opens, Token.closes, Token.is, is_iff.mp hequals]
    rfl
  have hshape := (@shape_of_startsSimple c src first block hstarts).trans
    (simple_of_targetStop? hat hdeclares hpeek hstop)
  obtain ⟨hnot, hcases⟩ := passes_texts htarget
  have hfirst : first.is "=" = false := eq_false_of_ne_true fun his => hnot ⟨rfl, his⟩
  constructor
  · intro hbefore
    have hafter : afterEquals c.rest = taken ++ semicolon :: rest := by
      rw [hrest]
      exact afterEquals_append (forall_mem_cons.mpr ⟨hfirst, hbefore⟩) hequals
    rw [hafter] at hshape
    have htakes : ({ c with rest := taken ++ semicolon :: rest }).Takes
        (taken ++ [semicolon]) { c with rest := rest, last := semicolon.token.stop } := by
      refine ⟨by simp, ?_, rfl⟩
      rw [flat_append, flat, stopOf_append, stopOf_append]
      rfl
    exact recovering_of_ok (statement_of_shape (hshape.trans
      (bind_of_ok (valueToSemicolon_of_forms htakes ⟨hne, hvalue, rfl⟩ hsemicolon))))
  · intro hmem
    have hbefore : ∃ depth, passes "=" depth (texts before) := by
      rcases hcases with ⟨-, h⟩ | ⟨-, -, _, -, h⟩ | ⟨-, -, -, h⟩ <;> exact ⟨_, h⟩
    obtain ⟨_, hbefore⟩ := hbefore
    obtain ⟨front, inside, inner, rfl, hafter, hinside⟩ :=
      @afterEquals_inside before (equals :: (taken ++ semicolon :: rest)) _ hbefore hmem
    obtain ⟨bracket, hbracket, hcloses, herror⟩ :=
      @collect_of_open src inside (equals :: (taken ++ semicolon :: rest)) 0 inner
        (by rwa [Nat.zero_add])
    have hrest' : afterEquals c.rest = inside ++ equals :: (taken ++ semicolon :: rest) := by
      rw [hrest, cons_append, afterEquals, if_neg (ne_true_of_eq_false hfirst), hafter]
    have hread : statement src block first c =
        .error ⟨.unexpected bracket.token.text, bracket.token.start.position⟩
          { c with rest := afterEquals c.rest } :=
      bind_of_error (hshape.trans (bind_of_error (valueToSemicolon_of_error (hrest' ▸ herror))))
    refine ⟨bracket, mem_append_right _ hbracket, hcloses, ?_⟩
    unfold recovering
    rw [hread]
    exact ⟨_, _, rfl, rfl⟩

/-- The target may hold brackets, and the value an equals sign in brackets. -/
theorem recovering_assignment_indexed :
    ∃ (src : Source) (c after : Cursor) (first : Token) (extent : Extent) (target : Text)
      (value : Expr), src.text = ("m[k] = f(a = 1);" : Text) ∧
        (Token.scan src.text).toOption = some (flat c.rest) ∧
        recovering src (statement src (block src 0)) first c = .ok (.assign extent target value) after ∧
        target = ("m[k]" : Text) ∧ value.source = ("f(a = 1)" : Text) := by
  let src : Source := ⟨"m", "m[k] = f(a = 1);"⟩
  let lexemes := Lexeme.ofTokens [] ((Token.scan src.text).toOption.getD [])
  have hread := (@recovering_assignment src { rest := lexemes } ((lexemes.drop 1).take 3)
    ((lexemes.drop 5).take 6) [] (lexemes.headD default).token ((lexemes.drop 4).headD default)
    ((lexemes.drop 11).headD default) (block src 0) (by decide +kernel) (by decide +kernel)
    (by decide +kernel) (by decide +kernel) (by decide +kernel) (by decide +kernel)
    (by decide +kernel) (by decide +kernel) (by decide +kernel)).1 (by decide +kernel)
  exact ⟨src, _, _, _, _, _, _, rfl, by decide +kernel, hread, by decide +kernel, by decide +kernel⟩

/-- An equals sign in the brackets of a target leaves the statement unread. -/
theorem recovering_assignment_broken :
    (SourceFile.read ⟨"m", "function f() { m[a = b] = c; }"⟩).toOption.map (fun file =>
      (file.unread.map Extent.source, file.diagnostics.map Diagnostic.message)) =
        some (["m[a = b] = c;".toList], ["Unexpected ']'".toList]) := by
  decide +kernel

end StatementReader

end Flowchart

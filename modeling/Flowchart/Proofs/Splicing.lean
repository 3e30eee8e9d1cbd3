import Flowchart.Edit.Generate
import Flowchart.Proofs.Editing
import Flowchart.Proofs.Insertion
import Flowchart.Proofs.Recovery

/-!
Inserting a statement into the text of a block. The text of the statement goes on a line of its own
after the end of another one, whatever follows there on the same line, and the block is read again
with the statement in that place.
-/
namespace Flowchart

open Lexeme Token StatementReader List Text Block

variable {p : Position} {tokens : List Token} {block : Block} {text : Text} {c' : Cursor}
  {s : Statement}

namespace Text

end Text

namespace StatementReader

variable {src : Source} {c : Cursor}

theorem Simple.ends {lexemes rest : List Lexeme} {make : Shape} (h : Simple src rest lexemes make) :
    ∃ front last, lexemes = front ++ [last] ∧ last.token.is ";" := by
  cases h with
  | @declaration final typed tail _ name _ _ _ _ _ htail =>
    cases htail with
    | none hsemicolon => exact ⟨final ++ (typed ++ [name]), _, by simp, hsemicolon⟩
    | @some equals semicolon taken _ _ _ hsemicolon =>
      exact ⟨final ++ (typed ++ name :: equals :: taken), semicolon, by simp, hsemicolon⟩
  | @assignment before taken first equals semicolon _ _ _ _ _ _ _ hsemicolon =>
    exact ⟨first :: before ++ equals :: taken, semicolon, by simp, hsemicolon⟩
  | expression _ _ _ _ hsemicolon => exact ⟨_, _, rfl, hsemicolon⟩

theorem Plain.ends {lexemes rest : List Lexeme} {make : Shape} (h : Plain src rest lexemes make) :
    ∃ front last, lexemes = front ++ [last] ∧ last.token.is ";" := by
  cases h with
  | bare _ _ hsemicolon => exact ⟨[_], _, rfl, hsemicolon⟩
  | gives _ _ _ _ hsemicolon => exact ⟨_ :: _, _, rfl, hsemicolon⟩
  | simple _ hsimple => exact hsimple.ends

/-- What stands between the cursors ends in a semicolon or a closing brace. -/
def Closes (c c' : Cursor) : Prop :=
  ∃ tokens last, Steps c (tokens ++ [last]) c' ∧ (last.is ";" = true ∨ last.is "\x7d" = true)

theorem Closes.before {c₁ : Cursor} (h : Closes c₁ c') (hsteps : Steps c tokens c₁) :
    Closes c c' := by
  obtain ⟨more, last, hmore, hlast⟩ := h
  refine ⟨tokens ++ more, last, ?_, hlast⟩
  rw [append_assoc]
  exact hsteps.trans hmore

def Phrase.Closes (c c' : Cursor) : Phrase → Prop
  | .statements _ => True
  | .handler _ | .other _ => c' = c ∨ StatementReader.Closes c c'
  | _ => StatementReader.Closes c c'

theorem Reads.closes {phrase : Phrase} (h : Reads src phrase c c') : phrase.Closes c c' := by
  induction h with
  | plain htakes hplain =>
    obtain ⟨front, last, hlexemes, hsemicolon⟩ := hplain.ends
    refine ⟨flat front ++ last.comments, last.token, ?_, .inl hsemicolon⟩
    have hsteps := Steps.of_takes htakes
    rw [hlexemes, flat_append] at hsteps
    simpa [flat] using hsteps
  | cond _ _ ih => exact ih
  | guarded htakes _ hbody _ ihbody ihafter | conditional htakes _ _ hbody _ ihbody ihafter =>
    rcases ihafter with rfl | ihafter
    · exact StatementReader.Closes.before ihbody (.of_takes htakes)
    · obtain ⟨tokens, hsteps⟩ := hbody.steps
      exact (ihafter.before hsteps).before (.of_takes htakes)
  | alone | unhandled => exact .inl rfl
  | chained htakes _ _ _ ih | fallback htakes _ _ ih | handled htakes _ _ _ _ ih =>
    exact .inr (StatementReader.Closes.before ih (.of_takes htakes))
  | block hopens _ hbody hcloses hclosing =>
    obtain ⟨tokens, hsteps⟩ := hbody.steps
    have hlast : StatementReader.Closes _ _ := ⟨[], _, .of_takes hcloses, .inr hclosing⟩
    exact (hlast.before hsteps).before (.of_takes hopens)
  | done | comment | cons | broken => trivial

end StatementReader

/-- A block that was read stands in its text, with nothing after it. -/
theorem Block.reads_of_read {src : Source} (h : read src = .ok block) :
    ∃ tokens c', scan src.text = .ok tokens ∧
      Reads src (.block block) { rest := ofTokens [] tokens } c' ∧ c'.rest = [] := by
  obtain ⟨⟨found, cursor⟩, hrun, hdone⟩ := Except.bind_eq_ok h
  cases hdone
  obtain ⟨tokens, hscan, hread⟩ := FileReader.run_scans hrun
  unfold FileReader.wholeBlock at hread
  rw [Reader.get_bind] at hread
  obtain ⟨body, c₁, hbody, hend⟩ := Reader.bind_eq_ok hread
  rw [Reader.get_bind] at hend
  cases hpeek : c₁.peek? with
  | none =>
    rw [hpeek] at hend
    cases hend
    refine ⟨tokens, _, hscan, StatementReader.block_reads _ _ _ hbody, ?_⟩
    unfold Cursor.peek? at hpeek
    rwa [Option.map_eq_none_iff, head?_eq_none_iff] at hpeek
  | some token =>
    rw [hpeek] at hend
    cases hend

variable {src : Source}

theorem Reads.sole {c : Cursor} (h : Reads src (.block block) c c') (hs : block.statements = [s])
    (hapart : s.isApart) :
    ∃ opening closing c₁ c₂, c.Takes [opening] c₁ ∧ Reads src (.statement s) c₁ c₂ ∧
      c₂.Takes [⟨[], closing⟩] c' := by
  cases h with
  | block hopens _ hbody hcloses _ =>
    subst hs
    cases hbody with
    | comment hcomment _ =>
      obtain ⟨_, _, _, _, rfl⟩ := comment?_steps hcomment
      cases hapart
    | cons _ _ hstatement hmore =>
      cases hmore with
      | done => exact ⟨_, _, _, _, hopens, hstatement, hcloses⟩
    | broken => cases hapart

theorem StatementReader.Lines.sole {ks : List Spelling} (h : Lines .exact [s] ks) :
    ∃ ending, FindsStatement .exact ks ending s := by
  cases h with
  | omitted homits => cases homits
  | cons _ hfinds _ hnone =>
    cases hnone with
    | nil =>
      rw [append_nil]
      exact ⟨_, hfinds⟩

namespace Path

theorem compareTexts_self (text : Text) : compareTexts text text = .eq := by
  induction text with
  | nil => rfl
  | cons c text ih =>
    rw [compareTexts, ih, Nat.compare_eq_eq.mpr rfl]
    rfl

theorem compareParts_self (parts : List Part) : compareParts parts parts = .eq := by
  induction parts with
  | nil => rfl
  | cons part parts ih =>
    cases part with
    | named name =>
      unfold compareParts
      dsimp only
      rw [compareTexts_self, ih]
      rfl
    | root | here | up =>
      unfold compareParts
      rw [ih]
      rfl

end Path

theorem SourceEdits.forFile_self (path : Text) (edits : List TextEdit) (imports : List Text) :
    SourceEdits.forFile ⟨[(path, edits)], imports⟩ path = edits := by
  have hsame : (Path.order path path == .eq) := by
    unfold Path.order
    rw [Path.compareParts_self]
    rfl
  unfold forFile
  dsimp only [List.find?]
  rw [hsame]
  rfl

end Flowchart

import Flowchart.Proofs.CallSource
import Flowchart.Proofs.Enclosing
import Flowchart.Proofs.Splicing

/-!
What the expressions of a file are formed from. An expression that is read, at any depth of a block or
of another expression, is the one that some tokens form which stand next to each other in the file.
-/
namespace Flowchart

open List Lexeme Token ExprReader

variable {src : Source} {tokens : List Token}

/-- The text of tokens next to each other is cut into these tokens and the comments between them, and
has no blanks around it. -/
theorem Source.Runs.tokens? (h : src.Runs tokens) :
    ∃ found, Text.tokens? (extentOf src tokens).source = some found ∧
      Text.proper found = textsOf tokens ∧
      (∀ key ∈ found.head?, key.1 ≠ .comment) ∧ (∀ key ∈ found.getLast?, key.1 ≠ .comment) ∧
      Text.trim (extentOf src tokens).source = (extentOf src tokens).source := by
  obtain ⟨hne, c, before, lexemes, after, hsits, hrest, rfl⟩ := h
  cases lexemes with
  | nil => exact absurd rfl hne
  | cons first more =>
    have hproper : ∀ lexeme ∈ first :: more, lexeme.Proper := fun lexeme hmem =>
      hsits.proper lexeme (StatementReader.mem_of_between hrest hmem)
    have hslice := hsits.slice hrest
    rw [TypeText.slice_eq_extentOf] at hslice
    refine ⟨_, hslice.1, ?_, ?_, ?_, hslice.2⟩
    · rw [← append_nil (flat more), proper_keys hproper (forall_mem_nil _), textsOf, map_map]
      rfl
    · rintro _ ⟨⟩
      exact of_decide_eq_false (hproper first mem_cons_self).1
    · intro key hkey
      unfold Token.keys at hkey
      rw [getLast?_map] at hkey
      obtain ⟨last, hlast, rfl⟩ := Option.map_eq_some_iff.mp hkey
      have hcomment := StatementReader.last_flat hproper
      rw [hlast] at hcomment
      exact of_decide_eq_false hcomment

/-- The expression is one of those in a file or in a bare block, or a part of one. -/
inductive Expr.IsRead (src : Source) (e : Expr) : Prop
  | file {file : SourceFile} (hread : SourceFile.read src = .ok file) (hmem : e ∈ file.expressions)
  | block {block : Block} (hread : Block.read src = .ok block) (hmem : e ∈ Statement.inBlock block)

theorem Expr.IsRead.formed {e : Expr} (h : e.IsRead src) : e.Formed src := by
  cases h with
  | file hread hmem =>
    obtain ⟨_, _, harranged⟩ := SourceFile.read_arranged hread
    exact harranged.formed e hmem
  | block hread hmem =>
    obtain ⟨tokens, c', hscan, hreads, -⟩ := Block.reads_of_read hread
    exact (hreads.arranged (FileReader.sits_of_scan hscan)).formed e hmem

end Flowchart

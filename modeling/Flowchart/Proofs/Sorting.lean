import Flowchart.Diagnostic.Attach
import Mathlib.Data.List.Chain
import Mathlib.Data.List.Sort

/-!
Which diagnostics are accepted. Only neighbours are compared, and only if they are of one file. So
the diagnostics of a file are in order wherever they stand next to each other, but a diagnostic of
another file between two of them hides their order. Sorted diagnostics are never refused.
-/
namespace Flowchart

open List

namespace Position

theorem le_trans' {a b c : Position} (hab : a ≤ b) (hbc : b ≤ c) : a ≤ c := by
  change a.line < b.line ∨ (a.line = b.line ∧ a.column ≤ b.column) at hab
  change b.line < c.line ∨ (b.line = c.line ∧ b.column ≤ c.column) at hbc
  change a.line < c.line ∨ (a.line = c.line ∧ a.column ≤ c.column)
  omega

theorem le_total' (a b : Position) : a ≤ b ∨ b ≤ a := by
  change (a.line < b.line ∨ (a.line = b.line ∧ a.column ≤ b.column)) ∨
    (b.line < a.line ∨ (b.line = a.line ∧ b.column ≤ a.column))
  omega

theorem not_lt_iff_le {a b : Position} : ¬ b < a ↔ a ≤ b := by
  change ¬ (b.line < a.line ∨ (b.line = a.line ∧ b.column < a.column)) ↔
    (a.line < b.line ∨ (a.line = b.line ∧ a.column ≤ b.column))
  omega

end Position

namespace Report

variable {diagnostics run : List Diagnostic} {file : Text}

/-- The diagnostics that are handed out: the errors, and the warnings if asked for. -/
def kept (includeWarnings : Bool) (diagnostics : List Diagnostic) : List Diagnostic :=
  diagnostics.filter fun d => d.isError || (includeWarnings && d.severity = .warning)

def ofFile (file : Text) (diagnostics : List Diagnostic) : List Diagnostic :=
  diagnostics.filter fun d => d.range.file = file

/-- Each diagnostic starts at or after the ones before it. -/
def InOrder : List Diagnostic → Prop := Pairwise fun a b => a.range.start ≤ b.range.start

def Follows (a b : Diagnostic) : Prop := a.range.file = b.range.file → a.range.start ≤ b.range.start

theorem misplaced?_eq_none_iff : misplaced? diagnostics = none ↔ diagnostics.IsChain Follows := by
  induction diagnostics with
  | nil => exact ⟨fun _ => .nil, fun _ => rfl⟩
  | cons first rest ih =>
    cases rest with
    | nil => exact ⟨fun _ => .singleton _, fun _ => rfl⟩
    | cons second rest =>
      have hfollows : Follows first second ↔
          ¬ (first.range.file = second.range.file ∧ second.range.start < first.range.start) := by
        rw [not_and, Follows, Position.not_lt_iff_le]
      rw [isChain_cons_cons, ← ih, misplaced?, hfollows]
      split
      · next hboth => exact ⟨fun h => (nomatch h), fun h => absurd hboth h.1⟩
      · next hboth => exact ⟨fun h => ⟨hboth, h⟩, fun h => h.2⟩

theorem ofDiagnostics_eq_ok_iff (includeWarnings : Bool) (diagnostics : List Diagnostic) :
    (∃ report, ofDiagnostics includeWarnings diagnostics = .ok report) ↔
      misplaced? (kept includeWarnings diagnostics) = none := by
  unfold ofDiagnostics kept
  dsimp only
  split
  · next h => rw [h]; simp
  · next h => rw [h]; simp

/-- Diagnostics in the order of their starts are in order among neighbours of one file. -/
theorem misplaced?_eq_none (h : InOrder diagnostics) : misplaced? diagnostics = none := by
  have hfollows {a b : Diagnostic} (hle : a.range.start ≤ b.range.start) : Follows a b := fun _ => hle
  exact misplaced?_eq_none_iff.mpr (h.imp hfollows).isChain

/-- Neighbours of one file follow each other just if every stretch of one file is in order. -/
theorem isChain_follows_iff : diagnostics.IsChain Follows ↔
    ∀ file run, run <:+: diagnostics → (∀ d ∈ run, d.range.file = file) → InOrder run := by
  constructor
  · intro h file run hrun hfile
    have hstarts : run.IsChain fun a b => a.range.start ≤ b.range.start := by
      refine isChain_iff_forall_rel_of_append_cons_cons.mpr ?_
      rintro a b before after rfl
      obtain ⟨front, back, rfl⟩ := hrun
      have hfollows : Follows a b := isChain_iff_forall_rel_of_append_cons_cons.mp h
        (show _ = front ++ before ++ a :: b :: (after ++ back) by simp)
      exact hfollows ((hfile a (by simp)).trans (hfile b (by simp)).symm)
    have : IsTrans Diagnostic fun a b => a.range.start ≤ b.range.start :=
      ⟨fun _ _ _ => Position.le_trans'⟩
    exact hstarts.pairwise
  · intro h
    refine isChain_iff_forall_rel_of_append_cons_cons.mpr ?_
    rintro a b before after rfl hfile
    have hpair := h b.range.file [a, b] ⟨before, after, by simp⟩ (by simp [hfile])
    exact (pairwise_cons.mp hpair).1 b mem_cons_self

theorem inOrder_of_ofFile (h : InOrder (ofFile file diagnostics)) (hrun : run <:+: diagnostics)
    (hfile : ∀ d ∈ run, d.range.file = file) : InOrder run := by
  have hsub := hrun.sublist.filter fun d => decide (d.range.file = file)
  rw [filter_eq_self.mpr fun d hmem => decide_eq_true (hfile d hmem)] at hsub
  exact h.sublist hsub

/-- Sorted diagnostics are never refused, whichever of them are kept. -/
theorem ofDiagnostics_mergeSort (includeWarnings : Bool) (diagnostics : List Diagnostic) :
    ∃ report, ofDiagnostics includeWarnings
      (diagnostics.mergeSort fun a b => a.range.start ≤ b.range.start) = .ok report := by
  refine (ofDiagnostics_eq_ok_iff ..).mpr (misplaced?_eq_none ?_)
  refine ((pairwise_mergeSort ?_ ?_ diagnostics).filter _).imp of_decide_eq_true
  · intro a b c hab hbc
    exact decide_eq_true (Position.le_trans' (of_decide_eq_true hab) (of_decide_eq_true hbc))
  · intro a b
    rcases Position.le_total' a.range.start b.range.start with h | h <;> simp [h]

/-- Diagnostics are accepted just if the kept ones of each file are in order wherever they stand next
to each other. They are if those of each file are in order, and only then if those of each file stand
together. -/
theorem ofDiagnostics_accepts (includeWarnings : Bool) (diagnostics : List Diagnostic) :
    ((∃ report, ofDiagnostics includeWarnings diagnostics = .ok report) ↔ ∀ file run,
      run <:+: kept includeWarnings diagnostics → (∀ d ∈ run, d.range.file = file) → InOrder run) ∧
    ((∀ file, InOrder (ofFile file (kept includeWarnings diagnostics))) →
      ∃ report, ofDiagnostics includeWarnings diagnostics = .ok report) ∧
    ((∀ file, ofFile file (kept includeWarnings diagnostics) <:+: kept includeWarnings diagnostics) →
      ((∃ report, ofDiagnostics includeWarnings diagnostics = .ok report) ↔
        ∀ file, InOrder (ofFile file (kept includeWarnings diagnostics)))) := by
  have hruns := (ofDiagnostics_eq_ok_iff includeWarnings diagnostics).trans
    (misplaced?_eq_none_iff.trans isChain_follows_iff)
  have hordered (h : ∀ file, InOrder (ofFile file (kept includeWarnings diagnostics))) :=
    hruns.mpr fun file _ hrun hfile => inOrder_of_ofFile (h file) hrun hfile
  refine ⟨hruns, hordered, fun htogether => ⟨fun h file => ?_, hordered⟩⟩
  exact hruns.mp h file _ (htogether file) fun d hmem => of_decide_eq_true (mem_filter.mp hmem).2

/-- An error and a warning of one file, and between them an error and a hint of another. -/
def mixed : List Diagnostic :=
  [⟨.error, [], none, ⟨"a", ⟨5, 0⟩, ⟨5, 3⟩⟩⟩, ⟨.error, [], none, ⟨"b", ⟨7, 0⟩, ⟨7, 3⟩⟩⟩,
    ⟨.hint, [], none, ⟨"b", ⟨1, 0⟩, ⟨1, 3⟩⟩⟩, ⟨.warning, [], none, ⟨"a", ⟨2, 0⟩, ⟨2, 3⟩⟩⟩]

/-- Without warnings the diagnostics of each file stand together, and are in order. -/
theorem ofDiagnostics_accepts_errors :
    (∀ file, ofFile file (kept false mixed) <:+: kept false mixed) ∧
      ∀ file, InOrder (ofFile file (kept false mixed)) := by
  have htogether (file : Text) : ofFile file (kept false mixed) <:+: kept false mixed := by
    have hkept : kept false mixed = mixed.take 2 := rfl
    rw [hkept, mixed, take_succ_cons, take_succ_cons, take_zero, ofFile, filter_cons, filter_cons]
    split
    · split
      · exact infix_rfl
      · exact (prefix_append [_] [_]).isInfix
    · split
      · exact (suffix_cons _ _).isInfix
      · exact nil_infix
  exact ⟨htogether, ((ofDiagnostics_accepts false mixed).2.2 htogether).mp ⟨_, rfl⟩⟩

/-- The error of another file hides that the warning is out of order. -/
theorem ofDiagnostics_unordered : (∃ report, ofDiagnostics true mixed = .ok report) ∧
    ¬ ∀ file, InOrder (ofFile file (kept true mixed)) := by
  refine ⟨⟨_, rfl⟩, fun h => ?_⟩
  have hpair := (pairwise_cons.mp (h "a")).1 _ mem_cons_self
  exact absurd hpair (by decide)

end Report

end Flowchart

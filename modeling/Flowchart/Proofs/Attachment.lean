import Flowchart.Proofs.Coherence
import Mathlib.Data.List.Perm.Subperm
import Mathlib.Tactic.Order

/-!
Diagnostics reach the nodes. One pass over an arranged forest hands out diagnostics that are apart
from each other; each one that the pass leaves behind has been given to a node, because the pass
gives up a diagnostic only where it enters a node that starts after it. That happens to one kind of
diagnostics alone: those that start before a node and end inside of it, before a node further in.
Without them every diagnostic is attached. With them some are lost, and the condition of a loop
whose brace follows at once is of this kind.
-/
namespace Flowchart

open List Node Position SourceRange

variable {a b : Position} {range other : SourceRange} {node : Node} {progress done : Progress}
  {nodes : List Node} {diagnostics : List Diagnostic}

namespace Position

theorem le_iff : a ≤ b ↔ a.line < b.line ∨ (a.line = b.line ∧ a.column ≤ b.column) := Iff.rfl

theorem lt_iff : a < b ↔ a.line < b.line ∨ (a.line = b.line ∧ a.column < b.column) := Iff.rfl

theorem le_antisymm' (hab : a ≤ b) (hba : b ≤ a) : a = b := by
  rw [le_iff] at hab hba
  have hline : a.line = b.line := by omega
  have hcolumn : a.column = b.column := by omega
  cases a
  cases b
  exact congrArg₂ mk hline hcolumn

end Position

local instance (priority := low) Position.linearOrder : LinearOrder Position where
  le_refl a := by rw [le_iff]; omega
  le_trans _ _ _ := le_trans'
  le_antisymm _ _ := le_antisymm'
  le_total := le_total'
  lt_iff_le_not_ge a b := by simp only [le_iff, lt_iff]; omega
  toDecidableLE := inferInstance
  toDecidableEq := inferInstance
  compare a b := compareOfLessAndEq a b

namespace Progress

@[simp] theorem next_index (progress : Progress) : progress.next.index = progress.index + 1 := rfl

@[simp] theorem next_annotated (progress : Progress) :
    progress.next.annotated = progress.annotated := rfl

@[simp] theorem annotate_index (progress : Progress) (isLeaf : Bool) :
    (progress.annotate isLeaf).index = progress.index := rfl

@[simp] theorem annotate_true (progress : Progress) : progress.annotate true = progress := by
  simp [annotate]

end Progress

namespace SourceRange

theorem contains_iff :
    range.contains other ↔
      range.file = other.file ∧ range.start ≤ other.start ∧ other.stop ≤ range.stop := by
  simp [contains]

theorem sameSpan_iff :
    range.sameSpan other ↔ range.start = other.start ∧ range.stop = other.stop := by
  simp [sameSpan, span]

theorem contains_of_sameSpan (hfile : range.file = other.file) (h : other.sameSpan range) :
    range.contains other := by
  obtain ⟨hstart, hstop⟩ := sameSpan_iff.mp h
  exact contains_iff.mpr ⟨hfile, by order, by order⟩

/-- The range comes before the other one; they may touch if neither of them is empty. -/
def Apart (range other : SourceRange) : Prop :=
  range.stop < other.start ∨
    (range.stop = other.start ∧ range.start < range.stop ∧ other.start < other.stop)

instance (range other : SourceRange) : Decidable (range.Apart other) :=
  inferInstanceAs (Decidable (_ ∨ _))

theorem Apart.le (h : range.Apart other) : range.stop ≤ other.start := by
  rcases h with h | ⟨h, -, -⟩ <;> order

/-- Nothing that comes after a range which covers a third one lies in that one. -/
theorem Apart.not_contains {first second : SourceRange} (h : first.Apart second)
    (hcovers : range.stop ≤ first.stop) (hproper : second.start ≤ second.stop) :
    ¬ range.contains second := by
  intro hcontains
  obtain ⟨-, -, hstop⟩ := contains_iff.mp hcontains
  rcases h with h | ⟨heq, -, hlt⟩ <;> order

/-- The range starts before `outer` and ends in it, before `inner` starts. -/
def EndsInside (range outer inner : SourceRange) : Prop :=
  range.start < outer.start ∧ outer.start ≤ range.stop ∧ range.stop < inner.start

instance (range outer inner : SourceRange) : Decidable (range.EndsInside outer inner) :=
  inferInstanceAs (Decidable (_ ∧ _))

end SourceRange

namespace Node

/-- Nodes in the document, one after the other from `start` on and inside of `outer`, and the nodes
below each of them arranged in the same way inside of it. -/
inductive Arranged : (outer : SourceRange) → (start : Position) → List Node → Prop
  | nil {outer start} : Arranged outer start []
  | cons {outer start range node rest} (hrange : node.range = some range)
      (hfile : range.file = outer.file) (hstart : start ≤ range.start)
      (hproper : range.start ≤ range.stop) (hstop : range.stop ≤ outer.stop)
      (hchildren : Arranged range range.start node.children)
      (hbranches : Arranged range range.start node.branches)
      (hrest : Arranged outer range.stop rest) : Arranged outer start (node :: rest)

variable {outer : SourceRange} {start : Position}

theorem Arranged.start_le (h : Arranged outer start nodes) (hnode : node ∈ nodes)
    (hrange : range ∈ node.range) : start ≤ range.start := by
  induction h with
  | nil => simp at hnode
  | cons hfirst _ hstart hproper _ _ _ _ _ _ ih =>
    rcases mem_cons.mp hnode with rfl | hnode
    · obtain rfl := Option.some.inj (hfirst.symm.trans hrange)
      exact hstart
    · have hle := ih hnode
      order

theorem Arranged.file_eq (h : Arranged outer start nodes) (hnode : node ∈ nodes)
    (hrange : range ∈ node.range) : range.file = outer.file := by
  induction h with
  | nil => simp at hnode
  | cons hfirst hfile _ _ _ _ _ _ _ _ ih =>
    rcases mem_cons.mp hnode with rfl | hnode
    · obtain rfl := Option.some.inj (hfirst.symm.trans hrange)
      exact hfile
    · exact ih hnode

/-- All nodes below a node. -/
def inner (node : Node) : List Node := flatten node.children ++ flatten node.branches

/-- A diagnostic at `range` ends inside of none of the nodes before a node further in. -/
def Spared (range : SourceRange) (nodes : List Node) : Prop :=
  ∀ outer ∈ flatten nodes, ∀ inner ∈ outer.inner, ∀ r ∈ outer.range, ∀ s ∈ inner.range,
    ¬ range.EndsInside r s

instance (range : SourceRange) (nodes : List Node) : Decidable (Spared range nodes) :=
  inferInstanceAs (Decidable (∀ outer ∈ flatten nodes, ∀ inner ∈ outer.inner,
    ∀ r ∈ outer.range, ∀ s ∈ inner.range, ¬ range.EndsInside r s))

/-- All remarks that the nodes and those below them carry. -/
def carried (nodes : List Node) : List Remark := (flatten nodes).flatMap (·.remarks)

theorem subtree_eq (node : Node) : node.subtree = node :: node.inner := by
  cases node
  rfl

theorem flatten_cons (node : Node) (rest : List Node) :
    flatten (node :: rest) = node :: (node.inner ++ flatten rest) := by
  rw [flatten, subtree_eq, cons_append]

theorem mem_flatten_cons {below : Node} {rest : List Node} : below ∈ flatten (node :: rest) ↔
    below = node ∨ below ∈ flatten node.children ∨ below ∈ flatten node.branches ∨
      below ∈ flatten rest := by
  simp only [flatten_cons, Node.inner, mem_cons, mem_append, or_assoc]

theorem mem_flatten_of_rest {below : Node} {rest : List Node} (h : below ∈ flatten rest) :
    below ∈ flatten (node :: rest) :=
  mem_flatten_cons.mpr (Or.inr (Or.inr (Or.inr h)))

@[simp] theorem carried_nil : carried [] = [] := rfl

theorem carried_cons (node : Node) (rest : List Node) :
    carried (node :: rest) = node.remarks ++
      ((carried node.children ++ carried node.branches) ++ carried rest) := by
  simp [carried, flatten_cons, inner]

theorem flatten_append (nodes more : List Node) :
    flatten (nodes ++ more) = flatten nodes ++ flatten more := by
  induction nodes with
  | nil => rfl
  | cons node rest ih => simp [flatten_cons, ih]

theorem inner_eq (node : Node) : node.inner = flatten (node.children ++ node.branches) :=
  (flatten_append ..).symm

theorem Spared.children {rest : List Node} (h : Spared range (node :: rest)) :
    Spared range node.children := fun outer houter =>
  h outer (by simp [flatten_cons, inner, houter])

theorem Spared.branches {rest : List Node} (h : Spared range (node :: rest)) :
    Spared range node.branches := fun outer houter =>
  h outer (by simp [flatten_cons, inner, houter])

theorem Spared.rest {rest : List Node} (h : Spared range (node :: rest)) :
    Spared range rest := fun outer houter =>
  h outer (by simp [flatten_cons, houter])

end Node

namespace Report

/-- The diagnostics that are not done with. -/
def pending (report : Report) (progress : Progress) : List Diagnostic :=
  report.diagnostics.drop progress.index

variable {report : Report}

theorem pending_of_append {passed rest : List Diagnostic}
    (h : report.pending progress = passed ++ rest)
    (hindex : done.index = progress.index + passed.length) : report.pending done = rest := by
  rw [pending, hindex, ← drop_drop]
  rw [pending] at h
  simp [h]

theorem pending_congr (h : done.index = progress.index) :
    report.pending done = report.pending progress := by
  rw [pending, pending, h]

section Steps

variable {d : Diagnostic} {isLeaf : Bool}

/-- Entering a node skips none that reach the node in its file. -/
theorem not_skipped (h : d.range.file = range.file ∧ range.start ≤ d.range.stop) :
    ¬ (d.range.file ≠ range.file ∨ d.range.stop < range.start) := by
  rintro (hne | hlt)
  · exact hne h.1
  · exact absurd hlt (not_lt.mpr h.2)

/-- Entering a node moves past none if the first one neither ends before the node nor lies in
it. -/
theorem enterFrom_idle
    (h : ∀ d ∈ diagnostics.head?, d.range.file = range.file ∧ range.start ≤ d.range.stop ∧ ¬
      range.contains d.range) :
    (enterFrom range isLeaf progress diagnostics).1.index = progress.index := by
  cases diagnostics with
  | nil => rfl
  | cons d rest =>
    obtain ⟨hfile, hstop, hout⟩ := h d rfl
    have hspan : ¬ d.range.sameSpan range := fun hsame =>
      hout (contains_of_sameSpan hfile.symm hsame)
    rw [enterFrom, if_neg (not_skipped ⟨hfile, hstop⟩), if_neg hspan, if_neg hout]
    split <;> rfl

/-- Moves past the first diagnostics that pass a test. -/
def sweep (test : Diagnostic → Bool) (progress : Progress) (diagnostics : List Diagnostic) :
    Progress × List Remark :=
  ({ progress with index := progress.index + (diagnostics.takeWhile test).length },
    if progress.annotated then [] else (diagnostics.takeWhile test).map Diagnostic.toRemark)

theorem sweep_cons (test : Diagnostic → Bool) (progress : Progress) (d : Diagnostic)
    (rest : List Diagnostic) :
    sweep test progress (d :: rest) =
      if test d then
        ((sweep test progress.next rest).1,
          progress.unlessAnnotated d ++ (sweep test progress.next rest).2)
      else (progress, []) := by
  unfold sweep
  rw [takeWhile_cons]
  split
  · have hcount : progress.index + ((rest.takeWhile test).length + 1) =
        progress.index + 1 + (rest.takeWhile test).length := by omega
    cases h : progress.annotated <;> simp [h, hcount, Progress.unlessAnnotated]
  · simp

theorem sweep_idle {test : Diagnostic → Bool} (h : ∀ d ∈ diagnostics.head?, test d = false) :
    sweep test progress diagnostics = (progress, []) := by
  cases diagnostics with
  | nil => simp [sweep]
  | cons d rest => rw [sweep_cons, h d rfl, if_neg Bool.false_ne_true]

theorem sweep_takes (test : Diagnostic → Bool) (progress : Progress)
    (diagnostics : List Diagnostic) (hplain : progress.annotated = false) :
    ∃ passed rest, diagnostics = passed ++ rest ∧
      (sweep test progress diagnostics).1 = { progress with
        index := progress.index + passed.length } ∧
      (passed.map Diagnostic.toRemark).Subperm (sweep test progress diagnostics).2 ∧
      ∀ d ∈ rest.head?, test d = false := by
  refine ⟨_, _, takeWhile_append_dropWhile.symm, rfl, ?_, fun d hd => ?_⟩
  · rw [sweep, hplain]
    exact List.Subperm.refl _
  have hhead := head?_dropWhile_not test diagnostics
  rw [Option.mem_def.mp hd] at hhead
  exact hhead

theorem leaveFrom_eq (range : SourceRange) (progress : Progress) (diagnostics : List Diagnostic) :
    leaveFrom range progress diagnostics =
      sweep (fun d => range.contains d.range && !d.range.sameSpan range) progress diagnostics := by
  induction diagnostics generalizing progress with
  | nil => simp [leaveFrom, sweep]
  | cons d rest ih => rw [leaveFrom, sweep_cons, ih]

theorem leave_idle (h : ∀ d ∈ (report.pending progress).head?, ¬ range.contains d.range) :
    report.leave progress range = (progress, []) := by
  refine (leaveFrom_eq ..).trans (sweep_idle fun d hd => ?_)
  rw [eq_false_of_ne_true (h d hd), Bool.false_and]

theorem betweenFrom_eq (parent range : SourceRange) (progress : Progress)
    (diagnostics : List Diagnostic) :
    betweenFrom parent range progress diagnostics =
      sweep (fun d => d.range.endsBefore range && parent.contains d.range) progress
        diagnostics := by
  induction diagnostics generalizing progress with
  | nil => simp [betweenFrom, sweep]
  | cons d rest ih => rw [betweenFrom, sweep_cons, ih]

/-- A node without nodes below it takes all that lies in it, up to the first that does not. -/
theorem enterFrom_leaf (range : SourceRange) (progress : Progress) (diagnostics : List Diagnostic)
    (h : ∀ d ∈ diagnostics, d.range.file = range.file ∧ range.start ≤ d.range.stop)
    (hplain : progress.annotated = false) :
    ∃ passed rest, diagnostics = passed ++ rest ∧
      (enterFrom range true progress diagnostics).1.index = progress.index + passed.length ∧
      (passed.map Diagnostic.toRemark).Subperm (enterFrom range true progress diagnostics).2 ∧
      ∀ d ∈ rest.head?, ¬ range.contains d.range := by
  induction diagnostics generalizing progress with
  | nil => exact ⟨[], [], rfl, rfl, nil_subperm, by simp⟩
  | cons d rest ih =>
    obtain ⟨hfile, hstop⟩ := h d mem_cons_self
    rw [enterFrom, if_neg (not_skipped ⟨hfile, hstop⟩)]
    have hmore : ∀ d ∈ rest, d.range.file = range.file ∧ range.start ≤ d.range.stop :=
      fun d hd => h d (mem_cons_of_mem _ hd)
    by_cases hcontains : range.contains d.range
    · -- the diagnostic is taken, by its span or by where it lies
      have hnext : progress.next.annotated = false := hplain
      obtain ⟨passed, left, rfl, hindex, hremarks, hhead⟩ := ih progress.next hmore hnext
      refine ⟨d :: passed, left, rfl, ?_, ?_, hhead⟩
      · split
        · simp only [Progress.annotate_true, hindex, Progress.next_index, length_cons]
          omega
        · simp only [if_true, hindex, Progress.next_index, length_cons]
          omega
      · split
        · simpa [subperm_cons] using hremarks
        · simpa [Progress.unlessAnnotated, hplain, subperm_cons] using hremarks
    · have hspan : ¬ d.range.sameSpan range := fun hsame =>
        hcontains (contains_of_sameSpan hfile.symm hsame)
      refine ⟨[], d :: rest, rfl, ?_, nil_subperm, by simpa using hcontains⟩
      rw [if_neg hspan, if_neg hcontains]
      split <;> rfl

/-- A node with nodes below it takes what has its span. It then counts as annotated, as it does
when the next one covers it. -/
theorem enterFrom_inner (range : SourceRange) (progress : Progress) (diagnostics : List Diagnostic)
    (h : ∀ d ∈ diagnostics, d.range.file = range.file ∧ range.start ≤ d.range.stop) :
    ∃ passed rest, diagnostics = passed ++ rest ∧
      (enterFrom range false progress diagnostics).1.index = progress.index + passed.length ∧
      (passed.map Diagnostic.toRemark).Subperm (enterFrom range false progress diagnostics).2 ∧
      (∀ d ∈ passed, d.range.sameSpan range) ∧
      (∀ d ∈ rest.head?, ¬ d.range.sameSpan range) ∧
      (passed = [] → (∀ d ∈ rest.head?, ¬ d.range.contains range) →
        enterFrom range false progress diagnostics = (progress, [])) := by
  induction diagnostics generalizing progress with
  | nil => exact ⟨[], [], rfl, rfl, nil_subperm, by simp, by simp, fun _ _ => rfl⟩
  | cons d rest ih =>
    obtain ⟨hfile, hstop⟩ := h d mem_cons_self
    rw [enterFrom, if_neg (not_skipped ⟨hfile, hstop⟩)]
    by_cases hspan : d.range.sameSpan range
    · obtain ⟨passed, left, rfl, hindex, hremarks, hall, hhead, -⟩ :=
        ih (progress.next.annotate false)
          (fun d hd => h d (mem_cons_of_mem _ hd))
      refine ⟨d :: passed, left, rfl, ?_, ?_, ?_, hhead, by simp⟩
      · simp only [hspan, if_true, hindex, Progress.next_index, Progress.annotate_index,
          length_cons]
        omega
      · simpa [hspan, subperm_cons] using hremarks
      · simpa [hspan] using hall
    · refine ⟨[], d :: rest, rfl, ?_, nil_subperm, by simp, by simpa using hspan, ?_⟩
      · rw [if_neg hspan]
        split
        · rfl
        · split <;> rfl
      · intro _ hcovers
        rw [if_neg hspan, if_neg (hcovers d rfl)]
        split <;> rfl

end Steps

/-- The pass has gone from one state to another, and what it moved past is among the remarks `after`
next to those of `before`. -/
def Delivers (report : Report) (progress done : Progress) (before after : List Remark) : Prop :=
  ∃ passed, report.pending progress = passed ++ report.pending done ∧
    ∀ remark, before.count remark + (passed.map Diagnostic.toRemark).count remark ≤
      after.count remark

namespace Delivers

variable {report : Report} {middle : Progress} {before after more later : List Remark}

theorem still (hindex : done.index = progress.index)
    (h : ∀ remark, before.count remark ≤ after.count remark) :
    report.Delivers progress done before after :=
  ⟨[], by rw [pending_congr hindex]; rfl, by simpa using h⟩

theorem step {passed rest : List Diagnostic} (h : report.pending progress = passed ++ rest)
    (hindex : done.index = progress.index + passed.length)
    (hremarks : (passed.map Diagnostic.toRemark).Subperm after) :
    report.Delivers progress done [] after := by
  refine ⟨passed, by rw [pending_of_append h hindex]; exact h, fun remark => ?_⟩
  simpa using hremarks.count_le remark

theorem trans (h : report.Delivers progress middle before after)
    (hmore : report.Delivers middle done more later) :
    report.Delivers progress done (before ++ more) (after ++ later) := by
  obtain ⟨passed, hpassed, hcount⟩ := h
  obtain ⟨passed', hpassed', hcount'⟩ := hmore
  refine ⟨passed ++ passed', by rw [hpassed, hpassed', append_assoc], fun remark => ?_⟩
  have h₁ := hcount remark
  have h₂ := hcount' remark
  simp only [count_append, map_append] at h₁ h₂ ⊢
  omega

theorem weaken (h : report.Delivers progress done before after)
    (hcount : ∀ remark, more.count remark + after.count remark ≤
      before.count remark + later.count remark)
    (hindex : middle.index = done.index) :
    report.Delivers progress middle more later := by
  obtain ⟨passed, hpassed, hle⟩ := h
  refine ⟨passed, by rw [pending_congr hindex]; exact hpassed, fun remark => ?_⟩
  have h₁ := hle remark
  have h₂ := hcount remark
  omega

/-- What is pending later was pending before. -/
theorem mem_of_mem (h : report.Delivers progress done before after) {d : Diagnostic}
    (hd : d ∈ report.pending done) : d ∈ report.pending progress := by
  obtain ⟨passed, hpassed, -⟩ := h
  rw [hpassed]
  exact mem_append_right _ hd

end Delivers

theorem attachNode_eq (report : Report) (parent : Option SourceRange) (progress : Progress)
    (node : Node) (hrange : node.range = some range) :
    report.attachNode parent progress node =
      let entered := report.enter progress range node.isLeaf
      let below := report.attachNodes (some range) entered.1 node.children
      let beside := report.attachNodes (some range) below.1 node.branches
      let left := if node.isLeaf then (beside.1, []) else report.leave beside.1 range
      ({ left.1 with annotated := progress.annotated },
        { node with
          children := below.2.1
          branches := beside.2.1
          remarks := node.remarks ++ (entered.2 ++ (below.2.2 ++ (beside.2.2 ++ left.2))) }) := by
  cases node
  subst hrange
  rfl

theorem attachNodes_cons (report : Report) (parent : Option SourceRange) (progress : Progress)
    (node : Node) (rest : List Node) :
    report.attachNodes parent progress (node :: rest) =
      let before := report.between progress parent node.range
      let after := report.attachNode parent before.1 node
      let done := report.attachNodes parent after.1 rest
      (done.1, after.2 :: done.2.1, before.2 ++ done.2.2) := rfl

/-- Diagnostics of one file, each with its ends in order, one after the other. -/
structure Separate (report : Report) (file : Text) : Prop where
  file_eq : ∀ d ∈ report.diagnostics, d.range.file = file
  proper : ∀ d ∈ report.diagnostics, d.range.start ≤ d.range.stop
  apart : report.diagnostics.Pairwise fun a b => a.range.Apart b.range

namespace Separate

variable {report : Report} {file : Text}

theorem mem_of_pending {d : Diagnostic} (h : d ∈ report.pending progress) :
    d ∈ report.diagnostics := mem_of_mem_drop h

theorem pending_proper (h : report.Separate file) (progress : Progress) :
    ∀ d ∈ report.pending progress, d.range.start ≤ d.range.stop :=
  fun d hd => h.proper d (mem_of_pending hd)

theorem pending_apart (h : report.Separate file) (progress : Progress) :
    (report.pending progress).Pairwise fun a b => a.range.Apart b.range :=
  h.apart.sublist (drop_sublist ..)

/-- If the first pending one does not end before a position, none does. -/
theorem le_stop (h : report.Separate file) {p : Position}
    (hfirst : ∀ d ∈ (report.pending progress).head?, p ≤ d.range.stop) :
    ∀ d ∈ report.pending progress, p ≤ d.range.stop := by
  intro d hd
  have hproper := h.pending_proper _ d hd
  have hapart := h.pending_apart progress
  cases hpending : report.pending progress with
  | nil => simp [hpending] at hd
  | cons first rest =>
    rw [hpending] at hd hapart hfirst
    have hle : p ≤ first.range.stop := hfirst first rfl
    rcases mem_cons.mp hd with rfl | hrest
    · exact hle
    · have hbefore := ((pairwise_cons.mp hapart).1 d hrest).le
      order

end Separate

section Walk

variable {report : Report} {file : Text} {outer : SourceRange} {start : Position}

/-- Below a node, nothing is moved past while the next diagnostic covers the node or comes after
it. -/
theorem attachNodes_idle (hreport : report.Separate file) (hnodes : Arranged outer start nodes)
    (houter : outer.file = file) (hstart : outer.start ≤ start) (progress : Progress)
    (hout : ∀ d ∈ (report.pending progress).head?, outer.stop ≤ d.range.stop ∧
      ¬ outer.contains d.range) :
    (report.attachNodes (some outer) progress nodes).1 = progress ∧
      ∀ remark, (carried nodes).count remark ≤
        (carried (report.attachNodes (some outer) progress nodes).2.1).count remark := by
  induction hnodes generalizing progress with
  | nil => simp [attachNodes]
  | @cons outer start range node rest hrange hfile hfrom hproper hstop _ _ _ ihchildren ihbranches
      ihrest =>
    have hinside : ∀ d ∈ (report.pending progress).head?, range.stop ≤ d.range.stop ∧
        ¬ range.contains d.range := by
      intro d hd
      obtain ⟨hle, hnot⟩ := hout d hd
      refine ⟨by order, fun hcontains => hnot ?_⟩
      obtain ⟨heq, hlo, hhi⟩ := contains_iff.mp hcontains
      exact contains_iff.mpr ⟨hfile.symm.trans heq, by order, by order⟩
    have hentered : (report.enter progress range node.isLeaf).1.index = progress.index := by
      apply enterFrom_idle
      intro d hd
      have hmem : d ∈ report.diagnostics := Separate.mem_of_pending (mem_of_mem_head? hd)
      obtain ⟨hle, hnot⟩ := hinside d hd
      exact ⟨(hreport.file_eq d hmem).trans (hfile.trans houter).symm, by order, hnot⟩
    have hpending : report.pending (report.enter progress range node.isLeaf).1 =
        report.pending progress := pending_congr hentered
    have hbetween : report.between progress (some outer) node.range = (progress, []) := by
      rw [hrange]
      refine (betweenFrom_eq ..).trans (sweep_idle fun d hd => ?_)
      rw [eq_false_of_ne_true (hout d hd).2, Bool.and_false]
    obtain ⟨hbelow, hchildren⟩ := ihchildren (hfile.trans houter) (le_refl _) _
      (hpending ▸ hinside)
    obtain ⟨hbeside, hbranches⟩ := ihbranches (hfile.trans houter) (le_refl _) _
      (hpending ▸ hinside)
    have hleft : report.leave (report.enter progress range node.isLeaf).1 range =
        ((report.enter progress range node.isLeaf).1, []) :=
      leave_idle fun d hd => (hinside d (hpending ▸ hd)).2
    have hsame : ({ (report.enter progress range node.isLeaf).1 with
        annotated := progress.annotated }) = progress := by
      rw [Progress.mk.injEq]
      exact ⟨hentered, rfl⟩
    obtain ⟨hmore, hrest⟩ := ihrest houter (by order) progress hout
    have hnode := attachNode_eq report (some outer) progress node hrange
    simp only [hbelow, hbeside, hleft, ite_self, hsame] at hnode
    rw [attachNodes_cons, hbetween]
    dsimp only
    rw [hnode]
    refine ⟨hmore, fun remark => ?_⟩
    have h₁ := hchildren remark
    have h₂ := hbranches remark
    have h₃ := hrest remark
    simp only [carried_cons, count_append]
    omega

/-- Nothing is pending that ends before the node at `outer`, or ends in it before one of the nodes
further in. -/
def Ready (report : Report) (outer : SourceRange) (nodes : List Node) (progress : Progress) :
    Prop :=
  ∀ d ∈ report.pending progress, outer.start ≤ d.range.stop ∧
    ∀ node ∈ Node.flatten nodes, ∀ range ∈ node.range, ¬ d.range.EndsInside outer range

theorem Ready.of_delivers {before after : List Remark} (h : report.Ready outer nodes progress)
    (hstep : report.Delivers progress done before after) :
    report.Ready outer nodes done :=
  fun d hd => h d (hstep.mem_of_mem hd)

theorem Ready.mono {fewer : List Node} (h : report.Ready outer nodes progress)
    (hsub : ∀ node ∈ Node.flatten fewer, node ∈ Node.flatten nodes) :
    report.Ready outer fewer progress :=
  fun d hd => ⟨(h d hd).1, fun node hnode => (h d hd).2 node (hsub node hnode)⟩

/-- A list of nodes that hands out all it moves past, once it is ready. -/
def Hands (report : Report) (outer : SourceRange) (nodes : List Node) : Prop :=
  ∀ progress : Progress, progress.annotated = false → report.Ready outer nodes progress →
    (report.attachNodes (some outer) progress nodes).1.annotated = false ∧
      report.Delivers progress (report.attachNodes (some outer) progress nodes).1
        (carried nodes)
        ((report.attachNodes (some outer) progress nodes).2.2 ++
          carried (report.attachNodes (some outer) progress nodes).2.1)

/-- A node that hands out all it moves past. If nothing was pending that starts before the node,
then the next one that is pending lies outside of it. -/
def HandsNode (report : Report) (parent : Option SourceRange) (progress : Progress)
    (range : SourceRange) (node : Node) : Prop :=
  report.Delivers progress (report.attachNode parent progress node).1
      (carried [node]) (carried [(report.attachNode parent progress node).2]) ∧
    ((∀ d ∈ report.pending progress, range.start ≤ d.range.start) →
      ∀ d ∈ (report.pending (report.attachNode parent progress node).1).head?,
        ¬ range.contains d.range)

section Node

variable {parent : Option SourceRange}

theorem handsNode_leaf (hreport : report.Separate file) (hrange : node.range = some range)
    (hfile : range.file = file) (hleaf : node.isLeaf)
    (hplain : progress.annotated = false)
    (hpending : ∀ d ∈ report.pending progress, range.start ≤ d.range.stop) :
    report.HandsNode parent progress range node := by
  obtain ⟨hchildren, hbranches⟩ : node.children = [] ∧ node.branches = [] := by
    simpa [isLeaf] using hleaf
  obtain ⟨passed, rest, hsplit, hindex, hremarks, hhead⟩ :=
    enterFrom_leaf range progress (report.pending progress)
      (fun d hd => ⟨(hreport.file_eq d (Separate.mem_of_pending hd)).trans hfile.symm,
        hpending d hd⟩) hplain
  have hnode := attachNode_eq report parent progress node hrange
  simp only [hleaf, hchildren, hbranches, attachNodes] at hnode
  rw [HandsNode, hnode]
  constructor
  · refine (Delivers.step hsplit hindex hremarks).weaken (fun remark => ?_) rfl
    simp only [carried_cons, hchildren, hbranches, count_append, enter, pending]
    omega
  · intro _
    have hrest : report.pending (report.enter progress range true).1 = rest :=
      pending_of_append hsplit hindex
    exact hrest ▸ hhead

/-- A node that took a diagnostic for itself, or is covered by the next one. -/
theorem handsNode_annotated (hreport : report.Separate file) (hrange : node.range = some range)
    (hfile : range.file = file) (hleaf : node.isLeaf = false)
    (hchildren : Arranged range range.start node.children)
    (hbranches : Arranged range range.start node.branches)
    (hentered : report.Delivers progress (report.enter progress range false).1 []
      (report.enter progress range false).2)
    (hout : ∀ d ∈ (report.pending (report.enter progress range false).1).head?,
      range.stop ≤ d.range.stop ∧ ¬ range.contains d.range) :
    report.HandsNode parent progress range node := by
  obtain ⟨hbelow, hcarried⟩ :=
    attachNodes_idle hreport hchildren hfile (le_refl _) _ hout
  obtain ⟨hbeside, hcarried'⟩ :=
    attachNodes_idle hreport hbranches hfile (le_refl _) _ hout
  have hleft : report.leave (report.enter progress range false).1 range =
      ((report.enter progress range false).1, []) :=
    leave_idle fun d hd => (hout d hd).2
  have hnode := attachNode_eq report parent progress node hrange
  simp only [hleaf, hbelow, hbeside, hleft] at hnode
  rw [HandsNode, hnode]
  refine ⟨hentered.weaken (fun remark => ?_) rfl, fun _ d hd => ?_⟩
  · have h₁ := hcarried remark
    have h₂ := hcarried' remark
    simp only [carried_cons, count_append]
    omega
  · exact (hout d hd).2

/-- A node that leaves all diagnostics to the nodes below it, and takes the rest after them. -/
theorem handsNode_plain (hreport : report.Separate file) (hrange : node.range = some range)
    (hleaf : node.isLeaf = false)
    (hbelow : report.Hands range node.children) (hbeside : report.Hands range node.branches)
    (hplain : progress.annotated = false)
    (hready : report.Ready range (node.children ++ node.branches) progress)
    (hentered : report.enter progress range false = (progress, []))
    (hhead : ∀ d ∈ (report.pending progress).head?, ¬ d.range.sameSpan range) :
    report.HandsNode parent progress range node := by
  obtain ⟨hplain₁, hchildren⟩ := hbelow progress hplain
    (hready.mono fun _ h => Node.flatten_append .. ▸ mem_append_left _ h)
  set below := report.attachNodes (some range) progress node.children with hbelowdef
  obtain ⟨hplain₂, hbranches⟩ :=
    hbeside below.1 hplain₁
      ((hready.mono fun _ h => Node.flatten_append .. ▸ mem_append_right _ h).of_delivers
        hchildren)
  set beside := report.attachNodes (some range) below.1 node.branches with hbesidedef
  obtain ⟨passed, rest, hsplit, hindex, hremarks, hlast⟩ :=
    sweep_takes (fun d => range.contains d.range && !d.range.sameSpan range) beside.1
      (report.pending beside.1) hplain₂
  rw [← leaveFrom_eq] at hindex hremarks
  have hleave : report.Delivers beside.1 (report.leave beside.1 range).1 []
      (report.leave beside.1 range).2 :=
    Delivers.step hsplit (congrArg Progress.index hindex) hremarks
  have hnode := attachNode_eq report parent progress node hrange
  simp only [hleaf, hentered, ← hbelowdef, ← hbesidedef, Bool.false_eq_true, if_false] at hnode
  have hall := (hchildren.trans hbranches).trans hleave
  rw [HandsNode, hnode]
  refine ⟨hall.weaken (fun remark => ?_) rfl, fun hinside d hd hcontains => ?_⟩
  · simp only [carried_cons, count_append]
    omega
  · -- the next one has the span of the node; it was pending all along, but not as the first one
    have hmem := hall.mem_of_mem (mem_of_mem_head? hd)
    have hrest : report.pending (report.leave beside.1 range).1 = rest :=
      pending_of_append hsplit (congrArg Progress.index hindex)
    have hspan : d.range.sameSpan range := by
      simpa [hcontains] using hlast d (hrest ▸ hd)
    have hapart := hreport.pending_apart progress
    cases hfirst : report.pending progress with
    | nil => simp [hfirst] at hmem
    | cons first others =>
      rw [hfirst] at hmem hapart
      have hne : ¬ first.range.sameSpan range := hhead first (by simp [hfirst])
      rcases mem_cons.mp hmem with rfl | hlater
      · exact hne hspan
      · have hstart := hinside first (by simp [hfirst])
        obtain ⟨heq, -⟩ := sameSpan_iff.mp hspan
        have hproper := hreport.pending_proper progress first (by simp [hfirst])
        rcases (pairwise_cons.mp hapart).1 d hlater with hlt | ⟨hmeet, hlt, -⟩ <;> order

theorem attachNode_hands (hreport : report.Separate file) (hrange : node.range = some range)
    (hfile : range.file = file) (hchildren : Arranged range range.start node.children)
    (hbranches : Arranged range range.start node.branches)
    (hbelow : report.Hands range node.children) (hbeside : report.Hands range node.branches)
    (hplain : progress.annotated = false)
    (hready : report.Ready range (node.children ++ node.branches) progress) :
    report.HandsNode parent progress range node := by
  have hpending : ∀ d ∈ report.pending progress, range.start ≤ d.range.stop :=
    fun d hd => (hready d hd).1
  cases hleaf : node.isLeaf with
  | true => exact handsNode_leaf hreport hrange hfile hleaf hplain hpending
  | false =>
    obtain ⟨passed, rest, hsplit, hindex, hremarks, hspan, hhead, hstays⟩ :=
      enterFrom_inner range progress (report.pending progress)
        fun d hd => ⟨(hreport.file_eq d (Separate.mem_of_pending hd)).trans hfile.symm,
          hpending d hd⟩
    have hentered : report.Delivers progress (report.enter progress range false).1 []
        (report.enter progress range false).2 := Delivers.step hsplit hindex hremarks
    have hrest : report.pending (report.enter progress range false).1 = rest :=
      pending_of_append hsplit hindex
    have hapart := hreport.pending_apart progress
    rw [hsplit] at hapart
    cases passed with
    | cons first others =>
      -- the node has taken `first`, and what is pending comes after it
      apply handsNode_annotated hreport hrange hfile hleaf hchildren hbranches hentered
      rw [hrest]
      intro d hd
      have hmem : d ∈ rest := mem_of_mem_head? hd
      have hafter : first.range.Apart d.range :=
        (pairwise_append.mp hapart).2.2 first mem_cons_self d hmem
      obtain ⟨-, hstop⟩ := sameSpan_iff.mp (hspan first mem_cons_self)
      have hproper : d.range.start ≤ d.range.stop :=
        hreport.pending_proper progress d (hentered.mem_of_mem (hrest ▸ hmem))
      have hle := hafter.le
      exact ⟨by order, hafter.not_contains (by order) hproper⟩
    | nil =>
      by_cases hcovers : ∀ d ∈ rest.head?, ¬ d.range.contains range
      · have hsame : report.enter progress range false = (progress, []) := hstays rfl hcovers
        apply handsNode_plain hreport hrange hleaf hbelow hbeside hplain hready hsame
        rw [hsplit]
        exact hhead
      · -- the next one covers the node
        apply handsNode_annotated hreport hrange hfile hleaf hchildren hbranches hentered
        rw [hrest]
        intro d hd
        push Not at hcovers
        obtain ⟨e, he, hcontains⟩ := hcovers
        obtain rfl : e = d := Option.some.inj (he.symm.trans hd)
        obtain ⟨-, hstart, hstop⟩ := contains_iff.mp hcontains
        refine ⟨hstop, fun hinside => hhead e he ?_⟩
        obtain ⟨-, hstart', hstop'⟩ := contains_iff.mp hinside
        exact sameSpan_iff.mpr ⟨by order, by order⟩

end Node

/-- A list of nodes below another node: what is pending between them goes to that node, and each
of them hands out what it moves past. -/
theorem attachNodes_hands (hreport : report.Separate file)
    (hnodes : Arranged outer start nodes) (houter : outer.file = file)
    (hspared : ∀ d ∈ report.diagnostics, Spared d.range nodes) :
    report.Hands outer nodes := by
  induction hnodes with
  | nil =>
    intro progress hplain _
    exact ⟨hplain, Delivers.still rfl fun _ => le_refl _⟩
  | @cons outer start range node rest hrange hfile hfrom hproper hstop hchildren hbranches _
      ihchildren ihbranches ihrest =>
    intro progress hplain hready
    obtain ⟨passed, left, hsplit, hmoved, hremarks, hhead⟩ :=
      sweep_takes (fun d => d.range.endsBefore range && outer.contains d.range) progress
        (report.pending progress) hplain
    rw [← betweenFrom_eq] at hmoved hremarks
    have hbetween : report.Delivers progress (report.between progress (some outer) node.range).1 []
        (report.between progress (some outer) node.range).2 := by
      rw [hrange]
      exact Delivers.step hsplit (congrArg Progress.index hmoved) hremarks
    have hbefore : (report.between progress (some outer) node.range).1.annotated = false := by
      rw [hrange]
      exact (congrArg Progress.annotated hmoved).trans hplain
    have hleft : report.pending (report.between progress (some outer) node.range).1 = left := by
      rw [hrange]
      exact pending_of_append hsplit (congrArg Progress.index hmoved)
    set before := report.between progress (some outer) node.range with hbeforedef
    have hready₁ : report.Ready outer (node :: rest) before.1 := hready.of_delivers hbetween
    have hfirst : ∀ d ∈ report.pending before.1, range.start ≤ d.range.stop := by
      -- an earlier one would lie in the outer node and have gone to it
      apply hreport.le_stop
      intro d hd
      have hmem := mem_of_mem_head? hd
      obtain ⟨hstart, hclear⟩ := hready₁ d hmem
      by_contra hlt
      have htest := hhead d (hleft ▸ hd)
      rw [endsBefore, decide_eq_true (not_le.mp hlt)] at htest
      refine Bool.false_ne_true (htest.symm.trans ?_)
      have hnot := hclear node (by simp [Node.flatten_cons]) range hrange
      have hsame := hreport.file_eq d (Separate.mem_of_pending hmem)
      refine contains_iff.mpr ⟨houter.trans hsame.symm, ?_, by order⟩
      by_contra hbehind
      exact hnot ⟨by order, hstart, by order⟩
    have hnode : report.HandsNode (some outer) before.1 range node := by
      refine attachNode_hands hreport hrange (hfile.trans houter) hchildren hbranches
        (ihchildren (hfile.trans houter) fun d hd => (hspared d hd).children)
        (ihbranches (hfile.trans houter) fun d hd => (hspared d hd).branches) hbefore ?_
      intro d hd
      refine ⟨hfirst d hd, fun inner hinner s hs => ?_⟩
      exact hspared d (Separate.mem_of_pending hd) node (by simp [Node.flatten_cons]) inner
        (by rw [inner_eq]; exact hinner) range hrange s hs
    have hafter : (report.attachNode (some outer) before.1 node).1.annotated = false := by
      rw [attachNode_eq _ _ _ _ hrange]
      exact hbefore
    obtain ⟨hdone, hrest⟩ := ihrest houter (fun d hd => (hspared d hd).rest) _ hafter
      ((hready₁.mono fun _ h => by simp [Node.flatten_cons, h]).of_delivers hnode.1)
    rw [attachNodes_cons, ← hbeforedef]
    refine ⟨hdone, ((hbetween.trans hnode.1).trans hrest).weaken (fun remark => ?_) rfl⟩
    simp only [carried_cons, count_append]
    omega

/-- The nodes of a diagram: after each of them only what lies in the later ones is pending, so in
the end nothing is. -/
theorem attachNodes_all (hreport : report.Separate file) (hnodes : Arranged outer start nodes)
    (houter : outer.file = file) (hspared : ∀ d ∈ report.diagnostics, ∀ node ∈ nodes,
      Spared d.range node.children ∧ Spared d.range node.branches) (progress : Progress)
    (hplain : progress.annotated = false)
    (hinside : ∀ d ∈ report.pending progress, ∃ node ∈ nodes, ∃ range ∈ node.range,
      range.contains d.range) :
    report.pending (report.attachNodes none progress nodes).1 = [] ∧
      report.Delivers progress (report.attachNodes none progress nodes).1 (carried nodes)
        (carried (report.attachNodes none progress nodes).2.1) := by
  induction hnodes generalizing progress with
  | nil =>
    refine ⟨eq_nil_iff_forall_not_mem.mpr fun d hd => ?_, Delivers.still rfl fun _ => le_refl _⟩
    obtain ⟨node, hnode, -⟩ := hinside d hd
    simp at hnode
  | @cons outer start range node rest hrange hfile hfrom hproper hstop hchildren hbranches hrest _ _
      ihrest =>
    have hbehind : ∀ d ∈ report.pending progress, ¬ range.contains d.range →
        range.stop ≤ d.range.start ∧ ∃ node ∈ rest, ∃ range ∈ node.range, range.contains d.range := by
      intro d hd hnot
      obtain ⟨other, hother, r, hr, hcontains⟩ := hinside d hd
      rcases mem_cons.mp hother with rfl | hother
      · rw [Option.mem_def, hrange, Option.some.injEq] at hr
        exact absurd (hr ▸ hcontains) hnot
      · have hle := hrest.start_le hother hr
        have hin := (contains_iff.mp hcontains).2.1
        exact ⟨by order, other, hother, r, hr, hcontains⟩
    have hstarts : ∀ d ∈ report.pending progress, range.start ≤ d.range.start := by
      intro d hd
      by_cases hcontains : range.contains d.range
      · exact (contains_iff.mp hcontains).2.1
      · have hle := (hbehind d hd hcontains).1
        order
    have hready : report.Ready range (node.children ++ node.branches) progress := by
      intro d hd
      have hstart := hstarts d hd
      have hends := hreport.pending_proper progress d hd
      refine ⟨by order, fun _ _ _ _ hends => ?_⟩
      have hlt := hends.1
      order
    have hhands : report.HandsNode none progress range node := by
      have hsame := hfile.trans houter
      refine attachNode_hands hreport hrange hsame hchildren hbranches ?_ ?_ hplain hready
      · exact attachNodes_hands hreport hchildren hsame fun d hd =>
          (hspared d hd node mem_cons_self).1
      · exact attachNodes_hands hreport hbranches hsame fun d hd =>
          (hspared d hd node mem_cons_self).2
    obtain ⟨hdelivers, hnext⟩ := hhands
    set after := report.attachNode none progress node with hafterdef
    have hafter : after.1.annotated = false := by
      rw [hafterdef, attachNode_eq _ _ _ _ hrange]
      exact hplain
    have hlater : ∀ d ∈ report.pending after.1, ∃ node ∈ rest, ∃ range ∈ node.range,
        range.contains d.range := by
      intro d hd
      have hold := hdelivers.mem_of_mem hd
      refine (hbehind d hold ?_).2
      have hapart := hreport.pending_apart after.1
      cases hpending : report.pending after.1 with
      | nil => simp [hpending] at hd
      | cons first others =>
        have hfirst : ¬ range.contains first.range := hnext hstarts first (by simp [hpending])
        rw [hpending] at hd hapart
        rcases mem_cons.mp hd with rfl | hothers
        · exact hfirst
        · -- `first` lies behind the node, and so does what comes after it
          have hmem : first ∈ report.pending progress := hdelivers.mem_of_mem (by simp [hpending])
          have hle := (hbehind first hmem hfirst).1
          have hends := hreport.pending_proper progress first hmem
          exact ((pairwise_cons.mp hapart).1 d hothers).not_contains (by order)
            (hreport.pending_proper progress d hold)
    obtain ⟨hnone, hmore⟩ := ihrest houter
      (fun d hd node hnode => hspared d hd node (mem_cons_of_mem _ hnode)) after.1 hafter hlater
    rw [attachNodes_cons]
    refine ⟨hnone, (hdelivers.trans hmore).weaken (fun remark => ?_) rfl⟩
    simp only [between, ← hafterdef, carried_cons, count_append]
    omega

end Walk

/-- Every diagnostic reaches a node. The nodes are arranged in a file, and the errors lie one after
the other, each in one of the outermost nodes; none of them starts before a node below those and
ends in it before a node further in. Then the errors can be handed out, and the nodes carry a remark
for each of them besides the remarks that they had. -/
theorem attach_reaches_nodes {file : SourceRange} {nodes : List Node}
    {diagnostics : List Diagnostic} (includeWarnings : Bool)
    (hnodes : Arranged file file.start nodes)
    (herrors : ∀ d ∈ diagnostics, d.isError)
    (hproper : ∀ d ∈ diagnostics, d.range.start ≤ d.range.stop)
    (hapart : diagnostics.Pairwise fun a b => a.range.Apart b.range)
    (hinside : ∀ d ∈ diagnostics, ∃ node ∈ nodes, ∃ range ∈ node.range, range.contains d.range)
    (hspared : ∀ d ∈ diagnostics, ∀ node ∈ nodes,
      Spared d.range node.children ∧ Spared d.range node.branches) :
    ∃ report, Report.ofDiagnostics includeWarnings diagnostics = .ok report ∧
      (carried nodes ++ diagnostics.map Diagnostic.toRemark).Subperm
        (carried (report.attach nodes)) ∧
      ∀ d ∈ diagnostics, ∃ node ∈ Node.flatten (report.attach nodes),
        d.toRemark ∈ node.remarks := by
  have hreport : (⟨diagnostics⟩ : Report).Separate file.file := by
    refine ⟨fun d hd => ?_, hproper, hapart⟩
    obtain ⟨node, hnode, range, hrange, hcontains⟩ := hinside d hd
    exact (contains_iff.mp hcontains).1.symm.trans (hnodes.file_eq hnode hrange)
  have hsorted : diagnostics.Pairwise fun a b => a.range.start ≤ b.range.start := by
    refine hapart.imp_of_mem fun {a b} ha _ h => ?_
    have hends := hproper a ha
    have hle := h.le
    order
  have hkept : diagnostics.filter
      (fun d => d.isError || (includeWarnings && d.severity = .warning)) = diagnostics :=
    filter_eq_self.mpr fun d hd => by simp [herrors d hd]
  have hall := attachNodes_all hreport hnodes rfl hspared {} rfl hinside
  obtain ⟨hnone, passed, hpassed, hcount⟩ := hall
  rw [hnone, append_nil] at hpassed
  have hdiagnostics : diagnostics = passed := hpassed
  have hsubperm : (carried nodes ++ diagnostics.map Diagnostic.toRemark).Subperm
      (carried ((⟨diagnostics⟩ : Report).attach nodes)) := by
    refine subperm_iff_count.mpr fun remark => ?_
    rw [count_append]
    exact hdiagnostics ▸ hcount remark
  refine ⟨⟨diagnostics⟩, ?_, hsubperm, fun d hd => ?_⟩
  · simp only [Report.ofDiagnostics, hkept, misplaced?_eq_none hsorted]
  · have hmem : d.toRemark ∈ carried ((⟨diagnostics⟩ : Report).attach nodes) :=
      hsubperm.subset (mem_append_right _ (mem_map_of_mem hd))
    simpa [carried] using hmem

/-- The nodes of the line `while x{y();}`, where the brace follows the condition at once. -/
def tightLoop : List Node :=
  [{ id := "1", kind := .loop, label := "While", range := some ⟨"main.bal", ⟨1, 4⟩, ⟨1, 17⟩⟩
     branches :=
      [{ id := "2", kind := .block, label := "Body", range := some ⟨"main.bal", ⟨1, 11⟩, ⟨1, 17⟩⟩
         children :=
          [{ id := "3", kind := .expression, label := "Expression"
             range := some ⟨"main.bal", ⟨1, 12⟩, ⟨1, 16⟩⟩ }] }] }]

def errorAt (message : Text) (start stop : Position) : Diagnostic where
  severity := .error
  message := message
  range := ⟨"main.bal", start, stop⟩

theorem tightLoop_arranged :
    Arranged ⟨"main.bal", ⟨0, 0⟩, ⟨2, 0⟩⟩ ⟨0, 0⟩ tightLoop := by
  refine .cons rfl rfl (by decide) (by decide) (by decide) .nil ?_ .nil
  refine .cons rfl rfl (by decide) (by decide) (by decide) ?_ .nil .nil
  exact .cons rfl rfl (by decide) (by decide) (by decide) .nil .nil .nil

/-- Errors at the keyword, at the blank after it and at the called name all reach a node. -/
theorem attach_reaches_tightLoop :
    ∃ report, Report.ofDiagnostics false [errorAt "keyword" ⟨1, 4⟩ ⟨1, 9⟩,
        errorAt "blank" ⟨1, 9⟩ ⟨1, 10⟩, errorAt "name" ⟨1, 12⟩ ⟨1, 13⟩] = .ok report ∧
      (carried tightLoop ++ [errorAt "keyword" ⟨1, 4⟩ ⟨1, 9⟩,
        errorAt "blank" ⟨1, 9⟩ ⟨1, 10⟩, errorAt "name" ⟨1, 12⟩ ⟨1, 13⟩].map
          Diagnostic.toRemark).Subperm (carried (report.attach tightLoop)) ∧
      ∀ d ∈ [errorAt "keyword" ⟨1, 4⟩ ⟨1, 9⟩, errorAt "blank" ⟨1, 9⟩ ⟨1, 10⟩,
        errorAt "name" ⟨1, 12⟩ ⟨1, 13⟩],
        ∃ node ∈ Node.flatten (report.attach tightLoop), d.toRemark ∈ node.remarks :=
  attach_reaches_nodes false tightLoop_arranged (by decide) (by decide) (by decide) (by decide)
    (by decide)

/-- The error at the condition lies in the loop but reaches no node: it ends where the body
starts, and entering the statement in the body passes over it. -/
theorem tight_condition_unattached :
    ∃ error : Diagnostic, ∃ report,
      (error.isError ∧ error.range.start < error.range.stop ∧
        ∃ node ∈ tightLoop, ∃ range ∈ node.range, range.contains error.range) ∧
      Arranged ⟨"main.bal", ⟨0, 0⟩, ⟨2, 0⟩⟩ ⟨0, 0⟩ tightLoop ∧
      Report.ofDiagnostics false [error] = .ok report ∧
      ∀ node ∈ Node.flatten (report.attach tightLoop), node.remarks = [] :=
  ⟨errorAt "undefined symbol x" ⟨1, 10⟩ ⟨1, 11⟩, ⟨[errorAt "undefined symbol x" ⟨1, 10⟩ ⟨1, 11⟩]⟩,
    by decide, tightLoop_arranged, rfl, by decide⟩

end Report

end Flowchart

import Flowchart.Proofs.Sharing

/-!
Diagnostics at two levels. What a node takes when it is entered is either behind the pass from then
on, or it annotates the node, and then only nodes with the very span of the diagnostic would take it
again. What a node takes later, between the nodes below it or when it is left, is not behind the
pass yet; but it need not be unclaimed, since a node that is covered by a diagnostic takes it
without moving past it. So a diagnostic is shown at two levels only if it lies in the one node and
covers the other one below, and this does happen.
-/
namespace Flowchart

open List Node

variable {report : Report} {parent : Option SourceRange} {progress : Progress} {node : Node}
  {share : Share}

local instance (priority := low) Position.levelOrder : LinearOrder Position := Position.linearOrder

namespace Node

/-- The range of every node lies in the ranges of all nodes that it is below. -/
def Nested (nodes : List Node) : Prop :=
  ∀ outer ∈ flatten nodes, ∀ inner ∈ outer.inner, ∀ r ∈ outer.range, ∀ s ∈ inner.range,
    r.contains s = true

instance (nodes : List Node) : Decidable (Nested nodes) :=
  inferInstanceAs (Decidable (∀ outer ∈ flatten nodes, ∀ inner ∈ outer.inner,
    ∀ r ∈ outer.range, ∀ s ∈ inner.range, r.contains s = true))

theorem Nested.mono {nodes fewer : List Node} (h : Nested nodes)
    (hsub : ∀ node ∈ flatten fewer, node ∈ flatten nodes) : Nested fewer :=
  fun outer houter => h outer (hsub outer houter)

end Node

namespace Report

/-- The diagnostic covers the node of a share, and does not have its span. -/
def Covers (d : Diagnostic) (share : Share) : Prop :=
  ∃ own ∈ share.range, d.range.contains own = true ∧ d.range.sameSpan own = false

/-- A share that the pass hands out on its way from one state to another. Nothing in it was behind
the pass before. What is not behind the pass afterwards covers the node, and if a node further out
took a diagnostic for itself, then only exact matches are in the share. -/
structure Fits (report : Report) (progress done : Progress) (share : Share) : Prop where
  index_le : ∀ i ∈ share.taken, progress.index ≤ i
  covers : ∀ i ∈ share.taken, done.index ≤ i →
    ∃ d, report.diagnostics[i]? = some d ∧ Covers d share
  exact_of : progress.annotated = true → ∀ i ∈ share.taken,
    ∃ d, report.diagnostics[i]? = some d ∧ ∃ own ∈ share.range, d.range.sameSpan own = true

theorem Fits.mono {done first last : Progress} (h : report.Fits progress done share)
    (hfirst : first.index ≤ progress.index)
    (hannotated : first.annotated → progress.annotated)
    (hlast : done.index ≤ last.index) : report.Fits first last share where
  index_le i hi := hfirst.trans (h.index_le i hi)
  covers i hi hle := h.covers i hi (hlast.trans hle)
  exact_of hfirst := h.exact_of (hannotated hfirst)

section Fitting

theorem attachNode_index : (report.attachNode parent progress node).1.index =
      (report.leaveNode (report.behindBranches parent progress node) node).1.index := by
  rw [attachNode_fst]

theorem shareNode_fits : report.Fits progress (report.attachNode parent progress node).1
      (report.shareNode parent progress node) := by
  have hentered := enterNode_enters report progress node
  have hlater := laterNode_keeps report parent progress node
  have hle := hentered.index_le
  have hle' := hlater.index_le
  rw [shareNode_eq]
  constructor
  · intro i hi
    rcases mem_append.mp hi with hi | hi
    · exact (hentered.taken i hi).1
    · have hfrom := (hlater.kept i hi).2.1
      omega
  · intro i hi hdone
    rw [attachNode_index] at hdone
    rcases mem_append.mp hi with hi | hi
    · obtain ⟨-, d, hd, own, hown, ⟨hlt, -⟩ | ⟨-, hcovers, hspan, -⟩⟩ := hentered.taken i hi
      · omega
      · exact ⟨d, hd, own, hown, hcovers, hspan⟩
    · have hto := (hlater.kept i hi).2.2.1
      omega
  · intro hannotated i hi
    rcases mem_append.mp hi with hi | hi
    · obtain ⟨-, d, hd, own, hown, ⟨-, -, hspan⟩ | ⟨-, -, -, hplain, -⟩⟩ := hentered.taken i hi
      · exact ⟨d, hd, own, hown, hspan hannotated⟩
      · rw [hannotated] at hplain
        cases hplain
    · have hplain := (hlater.kept i hi).1
      rw [hentered.annotated hannotated] at hplain
      cases hplain

/-- All shares that a list of nodes gives from any state on. -/
def FitsAll (report : Report) (nodes : List Node) : Prop :=
  ∀ parent progress, ∀ share ∈ Share.flatten (report.shareNodes parent progress nodes).1,
    report.Fits progress (report.attachNodes parent progress nodes).1 share

/-- The shares below a node fit between the states in which it was entered and is left. -/
theorem parts_fit_of (hchildren : report.FitsAll node.children)
    (hbranches : report.FitsAll node.branches) (parent : Option SourceRange) (progress : Progress) :
    ∀ share ∈ Share.flatten (report.shareNode parent progress node).parts,
      report.Fits (report.enterNode progress node).1
        (report.behindBranches parent progress node) share := by
  have hbelow := attachNodes_keeps report node.children (node.range.or parent)
    (report.enterNode progress node).1
  have hbeside := attachNodes_keeps report node.branches (node.range.or parent)
    (report.behindChildren parent progress node)
  intro share hshare
  rw [shareNode_eq, Share.flatten_append] at hshare
  rcases mem_append.mp hshare with hshare | hshare
  · exact (hchildren _ _ share hshare).mono le_rfl id hbeside.index_le
  · exact (hbranches _ _ share hshare).mono hbelow.index_le (fun h => hbelow.annotated_eq.trans h)
      le_rfl

theorem subtree_fits_of (hchildren : report.FitsAll node.children)
    (hbranches : report.FitsAll node.branches) (parent : Option SourceRange) (progress : Progress) :
    ∀ share ∈ (report.shareNode parent progress node).subtree,
      report.Fits progress (report.attachNode parent progress node).1 share := by
  have hentered := enterNode_enters report progress node
  have hleft := leaveNode_moves report (report.behindBranches parent progress node) node
  intro share hshare
  rw [Share.subtree_eq] at hshare
  rcases mem_cons.mp hshare with rfl | hshare
  · exact shareNode_fits
  · refine (parts_fit_of hchildren hbranches parent progress share hshare).mono hentered.index_le
      hentered.annotated ?_
    rw [attachNode_index]
    exact hleft.index_le

theorem shareNodes_fit (report : Report) (nodes : List Node) : report.FitsAll nodes := by
  induction nodes using forest_induction with
  | nil => exact nofun
  | cons node rest ihchildren ihbranches ihrest =>
    intro parent progress share hshare
    have hbetween := between_moves report progress parent node.range
    rw [shareNodes_cons] at hshare
    rw [attachNodes_cons]
    dsimp only at hshare ⊢
    generalize (report.between progress parent node.range).1 = before at hbetween hshare ⊢
    have hnode := attachNode_keeps report parent before node
    have hrest := attachNodes_keeps report rest parent (report.attachNode parent before node).1
    rcases mem_append.mp hshare with hshare | hshare
    · exact (subtree_fits_of ihchildren ihbranches parent before share hshare).mono
        hbetween.index_le (fun h => hbetween.annotated_eq.trans h) hrest.index_le
    · exact (ihrest parent _ share hshare).mono (hbetween.index_le.trans hnode.index_le)
        (fun h => hnode.annotated_eq.trans (hbetween.annotated_eq.trans h)) le_rfl

variable (report parent progress node)

theorem parts_fit : ∀ share ∈ Share.flatten (report.shareNode parent progress node).parts,
      report.Fits (report.enterNode progress node).1
        (report.behindBranches parent progress node) share :=
  parts_fit_of (shareNodes_fit report _) (shareNodes_fit report _) parent progress

theorem subtree_fits : ∀ share ∈ (report.shareNode parent progress node).subtree,
      report.Fits progress (report.attachNode parent progress node).1 share :=
  subtree_fits_of (shareNodes_fit report _) (shareNodes_fit report _) parent progress

end Fitting

section Levels

/-- What a parent takes between its nodes may have been taken by one of them, but only by one that
is covered. -/
theorem between_covers (report : Report) (parent : Option SourceRange) (progress : Progress)
    (nodes : List Node) : ∀ i ∈ (report.shareNodes parent progress nodes).2,
      ∀ share ∈ Share.flatten (report.shareNodes parent progress nodes).1, i ∈ share.taken →
        ∃ d, report.diagnostics[i]? = some d ∧ Covers d share := by
  induction nodes generalizing progress with
  | nil => exact nofun
  | cons node rest ih =>
    intro i hi share hshare htaken
    rw [shareNodes_cons] at hi hshare
    generalize (report.between progress parent node.range).1 = before at hi hshare
    have hnode := attachNode_keeps report parent before node
    have hkept := attachNodes_keeps report rest parent (report.attachNode parent before node).1
    rcases mem_append.mp hshare with hshare | hshare
    · have hfits := subtree_fits report parent before node share hshare
      rcases mem_append.mp hi with hi | hi
      · have hto := (mem_upTo.mp hi).2.2
        have hfrom := hfits.index_le i htaken
        omega
      · exact hfits.covers i htaken (hkept.kept i hi).2.1
    · rcases mem_append.mp hi with hi | hi
      · have hto := (mem_upTo.mp hi).2.2
        have hfrom := (shareNodes_fit report rest parent _ share hshare).index_le i htaken
        have hle := hnode.index_le
        omega
      · exact ih _ i hi share hshare htaken

variable (report parent progress node) in
theorem laterNode_covers : ∀ i ∈ report.laterNode parent progress node,
      ∀ share ∈ Share.flatten (report.shareNode parent progress node).parts, i ∈ share.taken →
        ∃ d, report.diagnostics[i]? = some d ∧ Covers d share := by
  have hbelow := attachNodes_keeps report node.children (node.range.or parent)
    (report.enterNode progress node).1
  have hbeside := attachNodes_keeps report node.branches (node.range.or parent)
    (report.behindChildren parent progress node)
  intro i hi share hshare htaken
  have hfits := parts_fit report parent progress node share hshare
  rcases mem_append.mp hi with hi | hi
  · -- between the children: the branches come after that
    rw [shareNode_eq, Share.flatten_append] at hshare
    rcases mem_append.mp hshare with hshare | hshare
    · exact between_covers report _ _ _ i hi share hshare htaken
    · have hto : i < (report.behindChildren parent progress node).index := (hbelow.kept i hi).2.2.1
      have hfrom := (shareNodes_fit report _ _ _ share hshare).index_le i htaken
      omega
  rcases mem_append.mp hi with hi | hi
  · -- between the branches: the children came before that
    rw [shareNode_eq, Share.flatten_append] at hshare
    rcases mem_append.mp hshare with hshare | hshare
    · exact (shareNodes_fit report _ _ _ share hshare).covers i htaken (hbeside.kept i hi).2.1
    · exact between_covers report _ _ _ i hi share hshare htaken
  · exact hfits.covers i htaken (mem_upTo.mp hi).2.1

/-- What a node takes when it is entered is taken by no node below it. -/
theorem enteredNode_apart
    (hshare : share ∈ Share.flatten (report.shareNode parent progress node).parts)
    (hinside : ∀ r ∈ node.range, ∀ s ∈ share.range, r.contains s) {i : Nat}
    (hi : i ∈ report.enteredNode progress node) : i ∉ share.taken := by
  intro htaken
  have hfits := parts_fit report parent progress node share hshare
  obtain ⟨-, d, hd, own, hown, ⟨hlt, -⟩ | ⟨-, hcovers, hspan, -, hannotated⟩⟩ :=
    (enterNode_enters report progress node).taken i hi
  · have hfrom := hfits.index_le i htaken
    omega
  · -- the diagnostic covers the node, so below it only an exact match would take it
    have hinner : node.isLeaf = false := by
      apply Bool.eq_false_iff.mpr
      intro hleaf
      obtain ⟨hchildren, hbranches⟩ := isLeaf_iff.mp hleaf
      rw [shareNode_eq, hchildren, hbranches] at hshare
      cases hshare
    obtain ⟨e, he, below, hbelow, hexact⟩ := hfits.exact_of (hannotated hinner) i htaken
    obtain rfl : e = d := Option.some.inj (he.symm.trans hd)
    obtain ⟨-, hstart, hstop⟩ := SourceRange.contains_iff.mp hcovers
    obtain ⟨-, hstart', hstop'⟩ := SourceRange.contains_iff.mp (hinside own hown below hbelow)
    obtain ⟨hsame, hsame'⟩ := SourceRange.sameSpan_iff.mp hexact
    have hown' : e.range.sameSpan own :=
      SourceRange.sameSpan_iff.mpr ⟨by order, by order⟩
    rw [hspan] at hown'
    cases hown'

/-- The diagnostic at a place lies in the node of the upper share and covers that of the lower
one. -/
def Straddles (report : Report) (upper lower : Share) (i : Nat) : Prop :=
  ∃ d, report.diagnostics[i]? = some d ∧
    (∀ range ∈ upper.range, range.contains d.range = true) ∧ Covers d lower

theorem shareNode_straddles
    (hshare : share ∈ Share.flatten (report.shareNode parent progress node).parts)
    (hinside : ∀ r ∈ node.range, ∀ s ∈ share.range, r.contains s) {i : Nat}
    (hi : i ∈ (report.shareNode parent progress node).taken) (htaken : i ∈ share.taken) :
    report.Straddles (report.shareNode parent progress node) share i := by
  have hrange : (report.shareNode parent progress node).range = node.range := by rw [shareNode_eq]
  rw [shareNode_eq] at hi
  rcases mem_append.mp hi with hi | hi
  · exact absurd htaken (enteredNode_apart hshare hinside hi)
  · obtain ⟨d, hd, hcovers⟩ := laterNode_covers report parent progress node i hi share hshare htaken
    obtain ⟨-, -, -, e, he, outer, houter, hcontains⟩ :=
      (laterNode_keeps report parent progress node).kept i hi
    obtain rfl : e = d := Option.some.inj (he.symm.trans hd)
    refine ⟨e, hd, fun range hmem => ?_, hcovers⟩
    rw [hrange] at hmem
    obtain rfl : range = outer := Option.some.inj ((or_eq_of_mem hmem).symm.trans houter)
    exact hcontains

theorem Carries.node_of_mem {nodes shown : List Node} {shares : List Share}
    (h : report.Carries nodes shares shown) : ∀ share ∈ Share.flatten shares,
      ∃ node ∈ flatten nodes, node.range = share.range := by
  induction h with
  | nil => exact nofun
  | cons _ _ _ ihchildren ihbranches ihrest =>
    simp only [Share.flatten_cons, Share.flatten_append, forall_mem_cons,
      forall_mem_append, mem_flatten_cons]
    refine ⟨⟨_, Or.inl rfl, rfl⟩, ⟨fun share hshare => ?_, fun share hshare => ?_⟩,
      fun share hshare => ?_⟩
    · obtain ⟨node, hnode, hrange⟩ := ihchildren share hshare
      exact ⟨node, Or.inr (Or.inl hnode), hrange⟩
    · obtain ⟨node, hnode, hrange⟩ := ihbranches share hshare
      exact ⟨node, Or.inr (Or.inr (Or.inl hnode)), hrange⟩
    · obtain ⟨node, hnode, hrange⟩ := ihrest share hshare
      exact ⟨node, Or.inr (Or.inr (Or.inr hnode)), hrange⟩

theorem parts_inside {rest : List Node} (hnested : Nested (node :: rest)) :
    ∀ share ∈ Share.flatten (report.shareNode parent progress node).parts,
      ∀ r ∈ node.range, ∀ s ∈ share.range, r.contains s := by
  intro share hshare r hr s hs
  have hmem : ∃ inner ∈ node.inner, inner.range = share.range := by
    rw [shareNode_eq, Share.flatten_append] at hshare
    rcases mem_append.mp hshare with hshare | hshare
    · obtain ⟨inner, hinner, hrange⟩ :=
        (attachNodes_carries report node.children _ _).1.node_of_mem share hshare
      exact ⟨inner, mem_append_left _ hinner, hrange⟩
    · obtain ⟨inner, hinner, hrange⟩ :=
        (attachNodes_carries report node.branches _ _).1.node_of_mem share hshare
      exact ⟨inner, mem_append_right _ hinner, hrange⟩
  obtain ⟨inner, hinner, hrange⟩ := hmem
  exact hnested node (mem_flatten_cons.mpr (Or.inl rfl)) inner hinner r hr s (hrange ▸ hs)

theorem shareNodes_straddle (report : Report) (nodes : List Node) (hnested : Nested nodes) :
    ∀ parent progress, ∀ upper ∈ Share.flatten (report.shareNodes parent progress nodes).1,
      ∀ lower ∈ Share.flatten upper.parts, ∀ i ∈ upper.taken, i ∈ lower.taken →
        report.Straddles upper lower i := by
  induction nodes using forest_induction with
  | nil => exact nofun
  | cons node rest ihchildren ihbranches ihrest =>
    intro parent progress upper hupper lower hlower i hi htaken
    rw [shareNodes_cons, Share.flatten_cons] at hupper
    rcases mem_cons.mp hupper with rfl | hupper
    · exact shareNode_straddles hlower (parts_inside hnested lower hlower) hi htaken
    rcases mem_append.mp hupper with hparts | hrest
    · rw [shareNode_eq, Share.flatten_append] at hparts
      rcases mem_append.mp hparts with hbelow | hbeside
      · exact ihchildren (hnested.mono fun _ h => mem_flatten_cons.mpr (Or.inr (Or.inl h)))
          _ _ upper hbelow lower hlower i hi htaken
      · exact ihbranches
          (hnested.mono fun _ h => mem_flatten_cons.mpr (Or.inr (Or.inr (Or.inl h))))
          _ _ upper hbeside lower hlower i hi htaken
    · exact ihrest (hnested.mono fun _ => mem_flatten_of_rest) _ _ upper hrest lower hlower
        i hi htaken

/-- Where diagnostics are shown at two levels. The shares say which diagnostics the nodes get, so
that two diagnostics with the same remark are told apart. If the ranges of the nodes are nested,
then a diagnostic that a node and a node below it both get lies in the one and covers the other; any
other diagnostic is shown at one level only. -/
theorem attach_straddles (report : Report) (nodes : List Node) (hnested : Nested nodes) :
    report.Carries nodes (report.shares nodes) (report.attach nodes) ∧
      ∀ upper ∈ Share.flatten (report.shares nodes), ∀ lower ∈ Share.flatten upper.parts,
        ∀ i ∈ upper.taken, i ∈ lower.taken → report.Straddles upper lower i :=
  ⟨(attachNodes_carries report nodes none {}).1, shareNodes_straddle report nodes hnested none {}⟩

/-- A condition with one statement in its block. -/
def shortBlock : List Node :=
  [{ id := "1", kind := .cond, label := "If", range := some ⟨"main.bal", ⟨1, 4⟩, ⟨4, 5⟩⟩
     branches :=
      [{ id := "2", kind := .block, label := "Then", range := some ⟨"main.bal", ⟨1, 10⟩, ⟨4, 5⟩⟩
         children :=
          [{ id := "3", kind := .expression, label := "Expression"
             range := some ⟨"main.bal", ⟨2, 8⟩, ⟨2, 12⟩⟩ }] }] }]

/-- The error lies in the block and covers the statement in it. Both take it, at one place of the
report. -/
theorem attach_straddles_block :
    ∃ (report : Report) (upper lower : Share) (i : Nat), Nested shortBlock ∧
      upper ∈ Share.flatten (report.shares shortBlock) ∧ lower ∈ Share.flatten upper.parts ∧
      i ∈ upper.taken ∧ i ∈ lower.taken ∧ report.Straddles upper lower i := by
  let report : Report := ⟨[errorAt "unreachable code" ⟨2, 4⟩ ⟨2, 14⟩]⟩
  have hnested : Nested shortBlock := by decide
  have htwice : ∃ upper ∈ Share.flatten (report.shares shortBlock),
      ∃ lower ∈ Share.flatten upper.parts, ∃ i ∈ upper.taken, i ∈ lower.taken := by decide
  obtain ⟨upper, hupper, lower, hlower, i, hi, htaken⟩ := htwice
  exact ⟨report, upper, lower, i, hnested, hupper, hlower, hi, htaken,
    (attach_straddles report shortBlock hnested).2 upper hupper lower hlower i hi htaken⟩

/-- The nodes are arranged and carry no remarks, and there is one error. It is shown on the
statement and on the block around it. -/
theorem attach_repeats :
    ∃ error : Diagnostic, ∃ report, error.isError = true ∧
      Arranged ⟨"main.bal", ⟨0, 0⟩, ⟨5, 0⟩⟩ ⟨0, 0⟩ shortBlock ∧
      (∀ node ∈ flatten shortBlock, node.remarks = []) ∧
      Report.ofDiagnostics false [error] = .ok report ∧
      ¬ ∀ node ∈ flatten (report.attach shortBlock), ∀ below ∈ node.inner,
        error.toRemark ∈ node.remarks → error.toRemark ∉ below.remarks := by
  refine ⟨errorAt "unreachable code" ⟨2, 4⟩ ⟨2, 14⟩, ⟨[errorAt "unreachable code" ⟨2, 4⟩ ⟨2, 14⟩]⟩,
    rfl, ?_, by decide, rfl, by decide⟩
  refine .cons rfl rfl (by decide) (by decide) (by decide) .nil ?_ .nil
  refine .cons rfl rfl (by decide) (by decide) (by decide) ?_ .nil .nil
  exact .cons rfl rfl (by decide) (by decide) (by decide) .nil .nil .nil

end Levels

end Report

end Flowchart

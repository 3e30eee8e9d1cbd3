import Flowchart.Proofs.Reconciling

/-!
Nodes that are put between the old ones. The comparison keeps one place in the old list and moves
on at the first node that matches there, so a wrong match would shift all later ones. As long as no
node that was put in matches the old node which comes next, the place in the old list is always that
of the next old node in the new list. Then exactly the nodes that were put in are suggested.
-/
namespace Flowchart.Reconciler

open Node

/-- The nodes come from the old ones by putting in nodes at any places; the mark of a node tells
whether it was put in. An old node has some source, and its place is taken by a node whose source
has the same words. A node that was put in has not the words of the old node that comes next, and
the two are not both with branches. -/
inductive Inserts : (old : List Node) → (marked : List (Node × Bool)) → Prop
  | nil : Inserts [] []
  | keep {previous node : Node} {older : List Node} {rest : List (Node × Bool)}
      (hsource : previous.source ≠ [])
      (hwords : Text.words node.source = Text.words previous.source)
      (hrest : Inserts older rest) : Inserts (previous :: older) ((node, false) :: rest)
  | insert {old : List Node} {node : Node} {rest : List (Node × Bool)}
      (hnew : ∀ next ∈ old.head?, Text.words node.source ≠ Text.words next.source ∧
        (node.branches = [] ∨ next.branches = []))
      (hrest : Inserts old rest) : Inserts old ((node, true) :: rest)

/-- What is shown of a node: the node itself, with one mark on it and on all nodes below it. -/
def Shown (entry : Node × Bool) (shown : Node) : Prop :=
  shown.unmarked = entry.1.unmarked ∧ ∀ below ∈ shown.subtree, below.suggested = some entry.2

theorem shown_mark (node : Node) (suggested : Bool) :
    Shown (node, suggested) (node.mark suggested) :=
  ⟨unmarked_mark suggested node, fun _ hbelow => (of_mem_mark hbelow).1⟩

theorem sameSource_eq_true {a b : Node} :
    sameSource a b ↔ a.source ≠ [] ∧ Text.words b.source = Text.words a.source := by
  unfold sameSource
  rw [Bool.and_eq_true, decide_eq_true_iff]
  exact and_congr (by simp) eq_comm

theorem Inserts.shown {old : List Node} {marked : List (Node × Bool)} (h : Inserts old marked) :
    List.Forall₂ Shown marked (({} : Reconciler).reconcile old (marked.map Prod.fst)).2 := by
  induction h with
  | nil => exact .nil
  | @keep previous node older rest hsource hwords _ ih =>
    have hsame : sameSource previous node := sameSource_eq_true.mpr ⟨hsource, hwords⟩
    rw [List.map_cons, reconcile_same hsame]
    exact .cons (shown_mark node false) ih
  | @insert old node rest hnew _ ih =>
    have hnone : Unmatched old node := by
      intro next hnext
      obtain ⟨hwords, hbranches⟩ := hnew next hnext
      refine ⟨Bool.eq_false_iff.mpr fun hsame => ?_, hbranches.symm⟩
      exact hwords (sameSource_eq_true.mp hsame).2
    rw [List.map_cons, reconcile_insert hnone, insert_calm rfl rfl]
    exact .cons (shown_mark node true) ih

/-- Nodes with some source are their own old nodes, with nothing put in. -/
theorem inserts_self {nodes : List Node} (h : ∀ node ∈ nodes, node.source ≠ []) :
    Inserts nodes (nodes.map (·, false)) := by
  induction nodes with
  | nil => exact .nil
  | cons node rest ih =>
    obtain ⟨hnode, hrest⟩ := List.forall_mem_cons.mp h
    exact .keep hnode rfl (ih hrest)

theorem unsuggested_of_shown {nodes shown : List Node}
    (h : List.Forall₂ Shown (nodes.map (·, false)) shown) :
    ∀ node ∈ flatten shown, node.suggested = some false := by
  induction nodes generalizing shown with
  | nil =>
    cases h
    exact nofun
  | cons node rest ih =>
    cases h with
    | cons hfirst hrest =>
      intro below hbelow
      rcases List.mem_append.mp hbelow with hbelow | hbelow
      · exact hfirst.2 below hbelow
      · exact ih hrest below hbelow

/-- Exactly what was put in is suggested. If nodes are put between the old ones, and none of them
could be taken for the old node that comes next, then without errors all nodes are shown in their
order, the whole of each old one as not suggested and the whole of each other one as suggested. If
nothing is put in at all, nothing is suggested. -/
theorem reconcile_inserts :
    (∀ old marked, Inserts old marked →
      List.Forall₂ Shown marked (({} : Reconciler).reconcile old (marked.map Prod.fst)).2) ∧
    ∀ nodes : List Node, (∀ node ∈ nodes, node.source ≠ []) →
      List.Forall₂ Shown (nodes.map (·, false)) (({} : Reconciler).reconcile nodes nodes).2 ∧
      ∀ node ∈ flatten (({} : Reconciler).reconcile nodes nodes).2,
        node.suggested = some false := by
  refine ⟨fun old marked h => h.shown, fun nodes h => ?_⟩
  have hnodes : (nodes.map (·, false)).map Prod.fst = nodes := by simp [Function.comp_def]
  have hshown := (inserts_self h).shown
  rw [hnodes] at hshown
  exact ⟨hshown, unsuggested_of_shown hshown⟩

/-- A call and a condition with calls put before, between and behind them. The old call has a blank
more now, and one of the calls put in is the old one once more. -/
theorem reconcile_inserts_calls :
    ∃ old marked, Inserts old marked ∧ old.length = 2 ∧
      marked.map Prod.snd = [true, false, true, false, true] ∧
      List.Forall₂ Shown marked (({} : Reconciler).reconcile old (marked.map Prod.fst)).2 ∧
      ∀ node ∈ flatten (({} : Reconciler).reconcile old old).2, node.suggested = some false := by
  let old := [callAt "f(1, 2);" 0 8, conditionOver "if x { }" []]
  let marked := [(callAt "g();" 0 4, true), (callAt "f(1,  2);" 5 14, false),
    (callAt "f(1, 2);" 15 23, true), (conditionOver "if x { }" [], false),
    (conditionOver "if y { }" [], true)]
  have hinserts : Inserts old marked := by
    refine .insert (by decide) (.keep (by decide) (by decide) (.insert (by decide)
      (.keep (by decide) (by decide) (.insert (by decide) .nil))))
  exact ⟨old, marked, hinserts, rfl, rfl, reconcile_inserts.1 old marked hinserts,
    (reconcile_inserts.2 old (by decide)).2⟩

end Flowchart.Reconciler

import Flowchart.Proofs.Attachment

/-!
Reconciling only leaves out and marks. Nodes are compared one after the other with the old ones; a
node with the source of the old one it is compared with stays whole, any other may be left out with
all that is below it, at the top or in a branch. What stays keeps its order and everything but its
marks, every node that stays is marked, and without errors nothing is left out.
-/
namespace Flowchart

variable (suggested : Bool) {node : Node} (nodes : List Node)

namespace Node

/-- Induction over forests: a list of nodes with the lists below its first node. -/
@[elab_as_elim]
theorem forest_induction {motive : List Node → Prop} (nil : motive [])
    (cons : ∀ node rest, motive node.children → motive node.branches → motive rest →
      motive (node :: rest)) : ∀ nodes, motive nodes
  | [] => nil
  | ⟨_, _, _, _, _, _, children, branches, _, _, _, _⟩ :: rest =>
    cons _ rest (forest_induction nil cons children) (forest_induction nil cons branches)
      (forest_induction nil cons rest)

mutual

/-- The node without the marks on it and on the nodes below it. -/
def unmarked : Node → Node
  | ⟨id, kind, label, range, source, properties, children, branches, remarks, _, returning,
      flags⟩ =>
    { id, kind, label, range, source, properties
      children := unmarkedAll children
      branches := unmarkedAll branches
      remarks
      suggested := none
      returning, flags }

def unmarkedAll : List Node → List Node
  | [] => []
  | node :: rest => unmarked node :: unmarkedAll rest

end

/-- No node has both children and branches, and no branch has branches of its own. -/
def Shaped (nodes : List Node) : Prop :=
  ∀ node ∈ flatten nodes, (node.children = [] ∨ node.branches = []) ∧
    ∀ branch ∈ node.branches, branch.branches = []

instance (nodes : List Node) : Decidable (Shaped nodes) :=
  inferInstanceAs (Decidable (∀ node ∈ flatten nodes, (node.children = [] ∨ node.branches = []) ∧
    ∀ branch ∈ node.branches, branch.branches = []))

theorem unmarked_eq (node : Node) : node.unmarked = { node with
    children := unmarkedAll node.children, branches := unmarkedAll node.branches
    suggested := none } := by
  cases node
  rfl

theorem mark_eq (node : Node) (suggested : Bool) : node.mark suggested = { node with
    children := markAll suggested node.children, branches := markAll suggested node.branches
    suggested := some suggested } := by
  cases node
  rfl

/-- Marking changes nothing but marks. -/
theorem unmarkedAll_markAll : unmarkedAll (markAll suggested nodes) = unmarkedAll nodes := by
  induction nodes using forest_induction with
  | nil => rfl
  | cons node rest ihchildren ihbranches ihrest =>
    simp only [markAll, unmarkedAll, unmarked_eq, mark_eq, ihchildren, ihbranches, ihrest]

theorem unmarked_mark (node : Node) : (node.mark suggested).unmarked = node.unmarked :=
  (List.cons.inj (unmarkedAll_markAll suggested [node])).1

/-- Marking reaches every node and keeps its range. -/
theorem of_mem_markAll :
    ∀ node ∈ flatten (markAll suggested nodes), node.suggested = some suggested ∧
      ∃ plain ∈ flatten nodes, plain.range = node.range := by
  induction nodes using forest_induction with
  | nil => simp [markAll, flatten]
  | cons node rest ihchildren ihbranches ihrest =>
    intro below hbelow
    rw [markAll, mark_eq] at hbelow
    rcases mem_flatten_cons.mp hbelow with rfl | hchildren | hbranches | hrest
    · exact ⟨rfl, node, mem_flatten_cons.mpr (.inl rfl), rfl⟩
    · obtain ⟨hmark, plain, hplain, hrange⟩ := ihchildren below hchildren
      exact ⟨hmark, plain, mem_flatten_cons.mpr (.inr (.inl hplain)), hrange⟩
    · obtain ⟨hmark, plain, hplain, hrange⟩ := ihbranches below hbranches
      exact ⟨hmark, plain, mem_flatten_cons.mpr (.inr (.inr (.inl hplain))), hrange⟩
    · obtain ⟨hmark, plain, hplain, hrange⟩ := ihrest below hrest
      exact ⟨hmark, plain, mem_flatten_of_rest hplain, hrange⟩

theorem of_mem_mark {suggested : Bool} {below : Node} (h : below ∈ (node.mark suggested).subtree) :
    below.suggested = some suggested ∧ ∃ plain ∈ flatten [node], plain.range = below.range := by
  apply of_mem_markAll suggested [node]
  rw [markAll, markAll, flatten, flatten, List.append_nil]
  exact h

theorem Shaped.children {rest : List Node} (h : Shaped (node :: rest)) :
    Shaped node.children := fun below hbelow =>
  h below (by simp [mem_flatten_cons, hbelow])

theorem Shaped.branches {rest : List Node} (h : Shaped (node :: rest)) :
    Shaped node.branches := fun below hbelow =>
  h below (by simp [mem_flatten_cons, hbelow])

theorem Shaped.rest {rest : List Node} (h : Shaped (node :: rest)) : Shaped rest :=
  fun below hbelow => h below (mem_flatten_of_rest hbelow)

end Node

namespace Reconciler

open Node

/-- The node has no counterpart: it has not the source of the old node it is compared with, the first
one left, and the two are not both with branches. -/
def Unmatched (old : List Node) (node : Node) : Prop :=
  ∀ previous ∈ old.head?, sameSource previous node = false ∧
    (previous.branches = [] ∨ node.branches = [])

/-- The node is compared with an old one branch by branch. -/
structure Split (previous node : Node) : Prop where
  differs : sameSource previous node = false
  previous_branches : previous.branches ≠ []
  branches : node.branches ≠ []

/-- All of a node is shown, with one mark on it and on the nodes below it. -/
structure Whole (suggested : Bool) (node kept : Node) : Prop where
  unmarked_eq : kept.unmarked = node.unmarked
  marks : ∀ below ∈ kept.subtree, below.suggested = some suggested

mutual

/-- What is shown of some nodes, compared with the old ones. Only nodes without a counterpart are
left out or suggested, and those with the source of the old node stay as they are. -/
inductive Trims : (old nodes shown : List Node) → Prop
  | nil {old : List Node} : Trims old [] []
  | drop {old rest shown : List Node} {node : Node} (hnone : Unmatched old node)
      (hrest : Trims old rest shown) : Trims old (node :: rest) shown
  | suggest {old rest shown : List Node} {node kept : Node} (hnone : Unmatched old node)
      (hkept : Whole true node kept) (hrest : Trims old rest shown) :
      Trims old (node :: rest) (kept :: shown)
  | same {older rest shown : List Node} {previous node kept : Node}
      (hsame : sameSource previous node = true) (hkept : Whole false node kept)
      (hrest : Trims older rest shown) : Trims (previous :: older) (node :: rest) (kept :: shown)
  | split {older rest shown branches : List Node} {previous node : Node}
      (hsplit : Split previous node) (hbranches : TrimsBranches previous node.branches branches)
      (hrest : Trims older rest shown) : Trims (previous :: older) (node :: rest)
        ({ node with suggested := some false, branches := branches } :: shown)

/-- What is shown of the branches of a node that is compared with an old one: all of them. The
children of a branch are compared with those of the old branch of its label; a branch whose label is
new is suggested. -/
inductive TrimsBranches : (previous : Node) → (branches shown : List Node) → Prop
  | nil {previous : Node} : TrimsBranches previous [] []
  | new {previous branch kept : Node} {rest shown : List Node}
      (hnone : previous.branch? branch.label = none) (hkept : Whole true branch kept)
      (hrest : TrimsBranches previous rest shown) :
      TrimsBranches previous (branch :: rest) (kept :: shown)
  | found {previous branch found : Node} {rest children shown : List Node}
      (hfound : previous.branch? branch.label = some found)
      (hchildren : Trims found.children branch.children children)
      (hrest : TrimsBranches previous rest shown) :
      TrimsBranches previous (branch :: rest)
        ({ branch with suggested := some false, children := children } :: shown)

end

theorem whole_mark (node : Node) : Whole suggested node (node.mark suggested) where
  unmarked_eq := unmarked_mark suggested node
  marks _ hbelow := (of_mem_mark hbelow).1

section Steps

variable {state : Reconciler} {previous node : Node} {old older rest : List Node}

theorem reconcile_same (h : sameSource previous node) :
    reconcile state (previous :: older) (node :: rest) =
      ((reconcile { state with inStreak := false } older rest).1,
        node.mark false :: (reconcile { state with inStreak := false } older rest).2) := by
  cases node
  rw [reconcile, if_pos h]

theorem reconcile_split (h : Split previous node) :
    reconcile state (previous :: older) (node :: rest) =
      ((reconcile (reconcileBranches state previous node.branches).1 older rest).1,
        { node with
          suggested := some false
          branches := (reconcileBranches state previous node.branches).2 } ::
        (reconcile (reconcileBranches state previous node.branches).1 older rest).2) := by
  cases node
  rw [reconcile, if_neg (Bool.eq_false_iff.mp h.differs), if_pos]
  simpa using ⟨h.previous_branches, h.branches⟩

theorem reconcile_insert (h : Unmatched old node) :
    reconcile state old (node :: rest) =
      ((reconcile (state.insert node).1 old rest).1,
        (state.insert node).2.toList ++ (reconcile (state.insert node).1 old rest).2) := by
  cases old with
  | nil =>
    cases node
    rw [reconcile]
  | cons previous older =>
    obtain ⟨hsame, hbranches⟩ := h previous rfl
    cases node
    rw [reconcile, if_neg (Bool.eq_false_iff.mp hsame)]
    rcases hbranches with hnone | hnone
    · simp [hnone]
    · simp only at hnone
      simp [hnone]

/-- A node matches, or is compared branch by branch, or has no counterpart. -/
theorem compare_cases (old : List Node) (node : Node) :
    (∃ previous older, old = previous :: older ∧ sameSource previous node) ∨
    (∃ previous older, old = previous :: older ∧ Split previous node) ∨ Unmatched old node := by
  cases old with
  | nil => exact Or.inr (Or.inr fun previous h => by simp at h)
  | cons previous older =>
    by_cases hsame : sameSource previous node
    · exact Or.inl ⟨previous, older, rfl, hsame⟩
    have hdiffers : sameSource previous node = false := Bool.eq_false_iff.mpr hsame
    by_cases hprevious : previous.branches = []
    · refine Or.inr (Or.inr fun other hother => ?_)
      obtain rfl : previous = other := Option.some.inj hother
      exact ⟨hdiffers, Or.inl hprevious⟩
    by_cases hnode : node.branches = []
    · refine Or.inr (Or.inr fun other hother => ?_)
      obtain rfl : previous = other := Option.some.inj hother
      exact ⟨hdiffers, Or.inr hnode⟩
    · exact Or.inr (Or.inl ⟨previous, older, rfl, hdiffers, hprevious, hnode⟩)

theorem reconcileBranches_found {branch found : Node}
    (h : previous.branch? branch.label = some found) :
    reconcileBranches state previous (branch :: rest) =
      ((reconcileBranches (reconcile state found.children branch.children).1 previous rest).1,
        { branch with
          suggested := some false
          children := (reconcile state found.children branch.children).2 } ::
        (reconcileBranches (reconcile state found.children branch.children).1 previous rest).2) := by
  cases branch
  simp only [reconcileBranches, h]

theorem reconcileBranches_new {branch : Node} (h : previous.branch? branch.label = none) :
    reconcileBranches state previous (branch :: rest) =
      ((reconcileBranches state previous rest).1,
        branch.mark true :: (reconcileBranches state previous rest).2) := by
  cases branch
  simp only [reconcileBranches, h]

/-- A node without a counterpart stays whole and is suggested, or is left out. -/
theorem insert_kept (state : Reconciler) (node : Node) :
    (state.insert node).2 = some (node.mark true) ∨ (state.insert node).2 = none := by
  unfold insert
  split
  · exact Or.inr rfl
  split
  · exact Or.inl rfl
  split
  · exact Or.inl rfl
  split
  · exact Or.inr rfl
  · exact Or.inl rfl

/-- Without errors a node without a counterpart stays. -/
theorem insert_calm (herrors : state.errors = []) (hstreak : state.inStreak = false)
    (node : Node) : state.insert node = (state, some (node.mark true)) := by
  obtain ⟨errors, inStreak⟩ := state
  subst herrors hstreak
  unfold insert
  cases node.range <;> rfl

end Steps

/-- One induction over the nodes and the old ones at once, for the nodes of a list and for those of
branches. -/
theorem reconcile_trims :
    (∀ state old, Trims old nodes (reconcile state old nodes).2) ∧
    ∀ state previous, TrimsBranches previous nodes (reconcileBranches state previous nodes).2 := by
  induction nodes using forest_induction with
  | nil => exact ⟨fun _ _ => .nil, fun _ _ => .nil⟩
  | cons node rest ihchildren ihbranches ihrest =>
    constructor
    · intro state old
      rcases compare_cases old node with ⟨previous, older, rfl, hsame⟩ |
        ⟨previous, older, rfl, hsplit⟩ | hnone
      · rw [reconcile_same hsame]
        exact .same hsame (whole_mark false node) (ihrest.1 _ older)
      · rw [reconcile_split hsplit]
        exact .split hsplit (ihbranches.2 state previous) (ihrest.1 _ older)
      · rw [reconcile_insert hnone]
        rcases insert_kept state node with hkept | hleft
        · rw [hkept]
          exact .suggest hnone (whole_mark true node) (ihrest.1 _ old)
        · rw [hleft]
          exact .drop hnone (ihrest.1 _ old)
    · intro state previous
      cases hfound : previous.branch? node.label with
      | some found =>
        rw [reconcileBranches_found hfound]
        exact .found hfound (ihchildren.1 _ _) (ihrest.2 _ _)
      | none =>
        rw [reconcileBranches_new hfound]
        exact .new hfound (whole_mark true node) (ihrest.2 _ _)

/-- All nodes of a forest are marked. -/
def AllMarked (nodes : List Node) : Prop := ∀ node ∈ flatten nodes, node.suggested.isSome

theorem allMarked_cons {rest : List Node} : AllMarked (node :: rest) ↔
    node.suggested.isSome ∧ AllMarked node.children ∧ AllMarked node.branches ∧ AllMarked rest := by
  simp only [AllMarked, mem_flatten_cons, or_imp, forall_and, forall_eq]

theorem allMarked_mark {rest : List Node} (h : AllMarked rest) :
    AllMarked (node.mark suggested :: rest) := by
  intro below hbelow
  rcases List.mem_append.mp hbelow with hnode | hrest
  · rw [(of_mem_mark hnode).1]
    rfl
  · exact h below hrest

/-- Every node that stays is marked. A node that is compared branch by branch has no children that
could be passed over, and its branches have no branches. -/
theorem reconcile_marked (hshaped : Shaped nodes) :
    (∀ state old, AllMarked (reconcile state old nodes).2) ∧
    ((∀ branch ∈ nodes, branch.branches = []) →
      ∀ state previous, AllMarked (reconcileBranches state previous nodes).2) := by
  have hnil : AllMarked [] := fun node hnode => by simp [flatten] at hnode
  induction nodes using forest_induction with
  | nil => exact ⟨fun _ _ => hnil, fun _ _ _ => hnil⟩
  | cons node rest ihchildren ihbranches ihrest =>
    obtain ⟨hshape, hleaf⟩ := hshaped node (by simp [flatten_cons])
    obtain ⟨ihmore, ihothers⟩ := ihrest hshaped.rest
    constructor
    · intro state old
      rcases compare_cases old node with ⟨previous, older, rfl, hsame⟩ |
        ⟨previous, older, rfl, hsplit⟩ | hnone
      · rw [reconcile_same hsame]
        exact allMarked_mark false (ihmore _ older)
      · rw [reconcile_split hsplit]
        have hchildren : node.children = [] := hshape.resolve_right hsplit.branches
        refine allMarked_cons.mpr ⟨rfl, ?_, ?_, ihmore _ older⟩
        · rw [hchildren]
          exact hnil
        · exact (ihbranches hshaped.branches).2 hleaf state previous
      · rw [reconcile_insert hnone]
        rcases insert_kept state node with hkept | hleft
        · rw [hkept]
          exact allMarked_mark true (ihmore _ old)
        · rw [hleft]
          exact ihmore _ old
    · intro hplain state previous
      have hmore := ihothers fun branch hbranch => hplain branch (List.mem_cons_of_mem _ hbranch)
      cases hfound : previous.branch? node.label with
      | some found =>
        rw [reconcileBranches_found hfound]
        refine allMarked_cons.mpr ⟨rfl, ?_, ?_, hmore _ previous⟩
        · exact (ihchildren hshaped.children).1 state found.children
        · rw [hplain node (List.mem_cons_self ..)]
          exact hnil
      | none =>
        rw [reconcileBranches_new hfound]
        exact allMarked_mark true (hmore _ previous)

/-- Without errors the state stays as it is and nothing is left out. -/
theorem reconcile_calm {state : Reconciler} (herrors : state.errors = [])
    (hstreak : state.inStreak = false) (nodes : List Node) :
    (∀ old, (reconcile state old nodes).1 = state ∧
      unmarkedAll (reconcile state old nodes).2 = unmarkedAll nodes) ∧
    ∀ previous, (reconcileBranches state previous nodes).1 = state ∧
      unmarkedAll (reconcileBranches state previous nodes).2 = unmarkedAll nodes := by
  have hcalm : { state with inStreak := false } = state := by
    rw [← hstreak]
  induction nodes using forest_induction with
  | nil => exact ⟨fun _ => ⟨rfl, rfl⟩, fun _ => ⟨rfl, rfl⟩⟩
  | cons node rest ihchildren ihbranches ihrest =>
    constructor
    · intro old
      rcases compare_cases old node with ⟨previous, older, rfl, hsame⟩ |
        ⟨previous, older, rfl, hsplit⟩ | hnone
      · rw [reconcile_same hsame, hcalm]
        obtain ⟨hstate, hrest⟩ := ihrest.1 older
        exact ⟨hstate, by rw [unmarkedAll, unmarkedAll, unmarked_mark, hrest]⟩
      · obtain ⟨hinner, hbranches⟩ := ihbranches.2 previous
        obtain ⟨hstate, hrest⟩ := ihrest.1 older
        rw [reconcile_split hsplit, hinner]
        exact ⟨hstate, by simp only [unmarkedAll, unmarked_eq, hbranches, hrest]⟩
      · obtain ⟨hstate, hrest⟩ := ihrest.1 old
        rw [reconcile_insert hnone, insert_calm herrors hstreak]
        exact ⟨hstate, by
          simp only [Option.toList, List.cons_append, List.nil_append, unmarkedAll, unmarked_mark,
            hrest]⟩
    · intro previous
      obtain ⟨hstate, hrest⟩ := ihrest.2 previous
      cases hfound : previous.branch? node.label with
      | some found =>
        obtain ⟨hinner, hchildren⟩ := ihchildren.1 found.children
        rw [reconcileBranches_found hfound, hinner]
        exact ⟨hstate, by simp only [unmarkedAll, unmarked_eq, hchildren, hrest]⟩
      | none =>
        rw [reconcileBranches_new hfound]
        exact ⟨hstate, by rw [unmarkedAll, unmarkedAll, unmarked_mark, hrest]⟩

/-- Whatever the old nodes and the errors are, and whatever was reconciled before, the nodes that
are shown are the new ones with some of them left out, each of these without a counterpart, and with
the marks that their counterparts ask for; all of them are marked; and if there are no errors, none
is left out. -/
theorem reconcile_only_trims (state : Reconciler) (old nodes : List Node) (hshaped : Shaped nodes) :
    Trims old nodes (state.reconcile old nodes).2 ∧
    (∀ node ∈ flatten (state.reconcile old nodes).2, node.suggested.isSome) ∧
    (state.errors = [] → state.inStreak = false →
      unmarkedAll (state.reconcile old nodes).2 = unmarkedAll nodes) := by
  refine ⟨(reconcile_trims nodes).1 state old, (reconcile_marked nodes hshaped).1 state old, ?_⟩
  intro herrors hstreak
  exact ((reconcile_calm herrors hstreak nodes).1 old).2

/-- The condition `if x` in the first line with some nodes in its block. -/
def conditionOver (source : Text) (children : List Node) : Node :=
  { id := "1", kind := .cond, label := "If", source := source
    range := some ⟨"main.bal", ⟨1, 0⟩, ⟨1, 30⟩⟩
    branches := [{ id := "2", kind := .block, label := "then"
                   range := some ⟨"main.bal", ⟨1, 5⟩, ⟨1, 30⟩⟩, children := children }] }

def callAt (source : Text) (start stop : Nat) : Node :=
  { id := "3", kind := .expression, label := "Custom Expression", source := source
    range := some ⟨"main.bal", ⟨1, start⟩, ⟨1, stop⟩⟩ }

/-- A broken statement is put into a block before a call: it is left out, the call stays. -/
theorem reconcile_only_trims_condition :
    ∃ state old nodes, Shaped nodes ∧ (flatten nodes).length = 4 ∧
      (flatten (reconcile state old nodes).2).length = 3 ∧
      Trims old nodes (reconcile state old nodes).2 ∧
      ∀ node ∈ flatten (reconcile state old nodes).2, node.suggested.isSome := by
  let state : Reconciler := { errors := [⟨"main.bal", ⟨1, 7⟩, ⟨1, 12⟩⟩] }
  let old := [conditionOver "if x { f(1, 2); }" [callAt "f(1, 2);" 7 15]]
  let nodes := [conditionOver "if x { y = ; f(1,  2); }"
    [callAt "y = ;" 7 12, callAt "f(1,  2);" 13 22]]
  have hshaped : Shaped nodes := by decide
  obtain ⟨htrims, hmarked, -⟩ := reconcile_only_trims state old nodes hshaped
  exact ⟨state, old, nodes, hshaped, by decide, by decide, htrims, hmarked⟩

end Reconciler

end Flowchart

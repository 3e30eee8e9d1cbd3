import Flowchart.Proofs.Reconciling

/-!
Which diagnostics each node takes. Remarks do not tell from which diagnostic they come, so the pass
is followed by places: next to the remarks that a node takes stand the places of their diagnostics
in the report, at the very states that the pass goes through. A node takes diagnostics when it is
entered, between its children, between its branches and when it is left. The places only grow along
the way, since a node that takes the next diagnostic without moving past it is annotated from then
on. So what is added to a node is a part of the report in its order.
-/
namespace Flowchart

open List

variable {report : Report} {parent : Option SourceRange} {progress done : Progress} {node : Node}
  {d : Diagnostic} {rest : List Diagnostic} {kind : Diagnostic → Prop}

theorem Node.isLeaf_iff : node.isLeaf ↔ node.children = [] ∧ node.branches = [] := by
  simp [Node.isLeaf]

/-- The places of the diagnostics that a node takes, with the shares of the nodes below it. -/
structure Share where
  range : Option SourceRange
  taken : List Nat
  parts : List Share
deriving Repr, Inhabited

namespace Share

mutual

def subtree : Share → List Share
  | share@⟨_, _, parts⟩ => share :: flatten parts

def flatten : List Share → List Share
  | [] => []
  | share :: rest => subtree share ++ flatten rest

end

theorem subtree_eq (share : Share) : share.subtree = share :: flatten share.parts := by
  cases share
  rfl

theorem flatten_cons (share : Share) (rest : List Share) :
    flatten (share :: rest) = share :: (flatten share.parts ++ flatten rest) := by
  rw [flatten, subtree_eq, cons_append]

theorem flatten_append (shares more : List Share) :
    flatten (shares ++ more) = flatten shares ++ flatten more := by
  induction shares with
  | nil => rfl
  | cons share rest ih => simp [flatten_cons, ih]

end Share

namespace Progress

/-- The place of the next diagnostic, unless a node further out took one for itself. -/
def here (progress : Progress) : List Nat := if progress.annotated then [] else [progress.index]

/-- The places that the pass moves past from one state to another, unless a node further out took a
diagnostic for itself. -/
def upTo (progress done : Progress) : List Nat :=
  if progress.annotated then [] else List.range' progress.index (done.index - progress.index)

end Progress

namespace Report

/-- The diagnostics at some places. -/
def chosen (report : Report) (places : List Nat) : List Diagnostic :=
  places.filterMap (report.diagnostics[·]?)

def remarksAt (report : Report) (places : List Nat) : List Remark :=
  (report.chosen places).map Diagnostic.toRemark

/-- The places of what a node takes when it is entered. -/
def enteredFrom (range : SourceRange) (isLeaf : Bool) (progress : Progress) :
    List Diagnostic → List Nat
  | [] => []
  | d :: rest =>
    if d.range.file ≠ range.file ∨ d.range.stop < range.start then
      enteredFrom range isLeaf progress.next rest
    else if d.range.sameSpan range then
      progress.index :: enteredFrom range isLeaf (progress.next.annotate isLeaf) rest
    else if range.contains d.range then
      if isLeaf then progress.here ++ enteredFrom range isLeaf progress.next rest else []
    else if d.range.contains range then progress.here
    else []

/-- What a node takes when it is entered, if it is in the document. -/
def enterNode (report : Report) (progress : Progress) (node : Node) : Progress × List Remark :=
  match node.range with
  | some range => report.enter progress range node.isLeaf
  | none => (progress, [])

def enteredNode (report : Report) (progress : Progress) (node : Node) : List Nat :=
  match node.range with
  | some range => enteredFrom range node.isLeaf progress (report.pending progress)
  | none => []

/-- What a node takes after the nodes below it, if there are any and it is in the document. -/
def leaveNode (report : Report) (progress : Progress) (node : Node) : Progress × List Remark :=
  match node.range with
  | some range => if node.isLeaf then (progress, []) else report.leave progress range
  | none => (progress, [])

def behindChildren (report : Report) (parent : Option SourceRange) (progress : Progress)
    (node : Node) : Progress :=
  (report.attachNodes (node.range.or parent) (report.enterNode progress node).1 node.children).1

def behindBranches (report : Report) (parent : Option SourceRange) (progress : Progress)
    (node : Node) : Progress :=
  (report.attachNodes (node.range.or parent) (report.behindChildren parent progress node)
    node.branches).1

mutual

/-- The share of a node that the pass comes to in a given state. -/
def shareNode (report : Report) (parent : Option SourceRange) (progress : Progress) : Node → Share
  | node@⟨_, _, _, range, _, _, children, branches, _, _, _, _⟩ =>
    let last := report.behindBranches parent progress node
    let (below, fromChildren) :=
      shareNodes report (range.or parent) (report.enterNode progress node).1 children
    let (beside, fromBranches) :=
      shareNodes report (range.or parent) (report.behindChildren parent progress node) branches
    { range
      taken := report.enteredNode progress node ++ (fromChildren ++ (fromBranches ++
        last.upTo (report.leaveNode last node).1))
      parts := below ++ beside }

/-- The shares of siblings, and the places of what their parent takes between them. -/
def shareNodes (report : Report) (parent : Option SourceRange) (progress : Progress) :
    List Node → List Share × List Nat
  | [] => ([], [])
  | node :: rest =>
    let before := (report.between progress parent node.range).1
    let after := (report.attachNode parent before node).1
    let (shares, more) := shareNodes report parent after rest
    (shareNode report parent before node :: shares, progress.upTo before ++ more)

end

/-- The places of what a node takes after it was entered: between the nodes below it, and when it is
left. -/
def laterNode (report : Report) (parent : Option SourceRange) (progress : Progress) (node : Node) :
    List Nat :=
  (report.shareNodes (node.range.or parent) (report.enterNode progress node).1 node.children).2 ++
    ((report.shareNodes (node.range.or parent) (report.behindChildren parent progress node)
      node.branches).2 ++
    (report.behindBranches parent progress node).upTo
      (report.leaveNode (report.behindBranches parent progress node) node).1)

def shares (report : Report) (nodes : List Node) : List Share :=
  (report.shareNodes none {} nodes).1

/-- The nodes of `shown` are those of `nodes`, and each of them has the remarks of its share besides
those that it had. -/
inductive Carries (report : Report) : (nodes : List Node) → (shares : List Share) →
    (shown : List Node) → Prop
  | nil : Carries report [] [] []
  | cons {node : Node} {rest children branches shown : List Node}
      {below beside shares : List Share} {taken : List Nat}
      (hchildren : Carries report node.children below children)
      (hbranches : Carries report node.branches beside branches)
      (hrest : Carries report rest shares shown) :
      Carries report (node :: rest) (⟨node.range, taken, below ++ beside⟩ :: shares)
        ({ node with
            children := children
            branches := branches
            remarks := node.remarks ++ report.remarksAt taken } :: shown)

section Remarks

@[simp] theorem remarksAt_append (places more : List Nat) :
    report.remarksAt (places ++ more) = report.remarksAt places ++ report.remarksAt more := by
  simp [remarksAt, chosen]

theorem getElem?_of_pending (h : report.pending progress = d :: rest) :
    report.diagnostics[progress.index]? = some d := by
  have hhead : (report.pending progress)[0]? = some d := by rw [h]; rfl
  simpa [pending] using hhead

theorem pending_next (h : report.pending progress = d :: rest) :
    report.pending progress.next = rest := by
  have hsplit : report.pending progress = [d] ++ rest := h
  exact pending_of_append hsplit rfl

theorem remarksAt_here (h : report.pending progress = d :: rest) :
    report.remarksAt progress.here = progress.unlessAnnotated d := by
  unfold Progress.here Progress.unlessAnnotated
  split
  · rfl
  · simp [remarksAt, chosen, getElem?_of_pending h]

theorem remarksAt_cons (h : report.pending progress = d :: rest) (places : List Nat) :
    report.remarksAt (progress.index :: places) = d.toRemark :: report.remarksAt places := by
  simp [remarksAt, chosen, getElem?_of_pending h]

theorem chosen_range' (report : Report) (start count : Nat) :
    report.chosen (List.range' start count) = (report.diagnostics.drop start).take count := by
  induction count generalizing start with
  | zero => simp [chosen]
  | succ count ih =>
    have hrest := ih (start + 1)
    unfold chosen at hrest ⊢
    rw [List.range'_succ, filterMap_cons, hrest]
    cases hd : report.diagnostics[start]? with
    | none =>
      have hlength : report.diagnostics.length ≤ start := List.getElem?_eq_none_iff.mp hd
      simp [drop_eq_nil_of_le hlength, drop_eq_nil_of_le (Nat.le_succ_of_le hlength)]
    | some d =>
      obtain ⟨hlt, rfl⟩ := List.getElem?_eq_some_iff.mp hd
      rw [drop_eq_getElem_cons hlt, take_succ_cons]

theorem enterFrom_remarks (range : SourceRange) (isLeaf : Bool) (progress : Progress)
    (diagnostics : List Diagnostic) (h : report.pending progress = diagnostics) :
    (enterFrom range isLeaf progress diagnostics).2 =
      report.remarksAt (enteredFrom range isLeaf progress diagnostics) := by
  induction diagnostics generalizing progress with
  | nil => rfl
  | cons d rest ih =>
    have hnext := pending_next h
    unfold enterFrom enteredFrom
    split
    · exact ih _ hnext
    split
    · rw [remarksAt_cons h]
      exact congrArg (d.toRemark :: ·) (ih (progress.next.annotate isLeaf) hnext)
    split
    · split
      · rw [remarksAt_append, remarksAt_here h]
        exact congrArg (progress.unlessAnnotated d ++ ·) (ih progress.next hnext)
      · rfl
    split
    · exact (remarksAt_here h).symm
    · rfl

/-- To take nothing is to sweep with a test that nothing passes. -/
theorem idle_eq (diagnostics : List Diagnostic) :
    ∃ test, (∀ d, test d → kind d) ∧ (progress, []) = sweep test progress diagnostics :=
  ⟨fun _ => false, fun _ hd => absurd hd Bool.false_ne_true, (sweep_idle fun _ _ => rfl).symm⟩

/-- A parent sweeps up what lies in it before its next child is entered. -/
theorem between_eq (report : Report) (progress : Progress) (parent range : Option SourceRange) :
    ∃ test, (∀ d, test d → ∃ outer ∈ parent, outer.contains d.range) ∧
      report.between progress parent range = sweep test progress (report.pending progress) := by
  cases parent with
  | none => exact idle_eq _
  | some parent =>
    cases range with
    | none => exact idle_eq _
    | some range =>
      exact ⟨_, fun d hd => ⟨parent, rfl, (Bool.and_eq_true_iff.mp hd).2⟩, betweenFrom_eq ..⟩

theorem leaveNode_eq (report : Report) (progress : Progress) (node : Node) :
    ∃ test, (∀ d, test d → ∃ range ∈ node.range, range.contains d.range) ∧
      report.leaveNode progress node = sweep test progress (report.pending progress) := by
  unfold leaveNode
  cases node.range with
  | none => exact idle_eq _
  | some range =>
    cases node.isLeaf with
    | true => exact idle_eq _
    | false => exact ⟨_, fun d hd => ⟨range, rfl, (Bool.and_eq_true_iff.mp hd).1⟩, leaveFrom_eq ..⟩

/-- Sweeping hands out the remarks of the places that it moves past. -/
theorem sweep_remarks (report : Report) (test : Diagnostic → Bool) (progress : Progress) :
    (sweep test progress (report.pending progress)).2 =
      report.remarksAt (progress.upTo (sweep test progress (report.pending progress)).1) := by
  unfold sweep Progress.upTo
  split
  · rfl
  · rw [Nat.add_sub_cancel_left, remarksAt, chosen_range']
    exact congrArg _ (prefix_iff_eq_take.mp (List.takeWhile_prefix test))

theorem enterNode_remarks :
    (report.enterNode progress node).2 = report.remarksAt (report.enteredNode progress node) := by
  unfold enterNode enteredNode
  cases node.range with
  | none => rfl
  | some range => exact enterFrom_remarks range node.isLeaf progress _ rfl

end Remarks

section Nodes

/-- The state behind a node that is entered, and left after its children and branches. -/
theorem attachNode_fst :
    (report.attachNode parent progress node).1 =
      { index := (report.leaveNode (report.behindBranches parent progress node) node).1.index
        annotated := if node.range.isSome then progress.annotated else
          (report.leaveNode (report.behindBranches parent progress node) node).1.annotated } := by
  obtain ⟨id, kind, label, range, source, properties, children, branches⟩ := node
  cases range <;> rfl

theorem attachNode_snd :
    (report.attachNode parent progress node).2 =
      { node with
        children := (report.attachNodes (node.range.or parent) (report.enterNode progress node).1
          node.children).2.1
        branches := (report.attachNodes (node.range.or parent)
          (report.behindChildren parent progress node) node.branches).2.1
        remarks := node.remarks ++ ((report.enterNode progress node).2 ++
          ((report.attachNodes (node.range.or parent) (report.enterNode progress node).1
            node.children).2.2 ++
          ((report.attachNodes (node.range.or parent) (report.behindChildren parent progress node)
            node.branches).2.2 ++
          (report.leaveNode (report.behindBranches parent progress node) node).2))) } := by
  obtain ⟨id, kind, label, range, source, properties, children, branches⟩ := node
  cases range <;> rfl

theorem shareNode_eq :
    report.shareNode parent progress node =
      { range := node.range
        taken := report.enteredNode progress node ++ report.laterNode parent progress node
        parts := (report.shareNodes (node.range.or parent) (report.enterNode progress node).1
            node.children).1 ++
          (report.shareNodes (node.range.or parent) (report.behindChildren parent progress node)
            node.branches).1 } := by
  cases node
  rfl

theorem shareNodes_cons (rest : List Node) :
    report.shareNodes parent progress (node :: rest) =
      let before := (report.between progress parent node.range).1
      let after := (report.attachNode parent before node).1
      let done := report.shareNodes parent after rest
      (report.shareNode parent before node :: done.1, progress.upTo before ++ done.2) := rfl

/-- The pass gives every node the remarks of its share, and the parent those of the places between
its nodes. -/
theorem attachNodes_carries (report : Report) (nodes : List Node) :
    ∀ parent progress,
      report.Carries nodes (report.shareNodes parent progress nodes).1
        (report.attachNodes parent progress nodes).2.1 ∧
      (report.attachNodes parent progress nodes).2.2 =
        report.remarksAt (report.shareNodes parent progress nodes).2 := by
  induction nodes using Node.forest_induction with
  | nil => exact fun _ _ => ⟨.nil, rfl⟩
  | cons node rest ihchildren ihbranches ihrest =>
    intro parent progress
    obtain ⟨test, -, hbetween⟩ := between_eq report progress parent node.range
    have hswept := sweep_remarks report test progress
    rw [attachNodes_cons, shareNodes_cons]
    dsimp only
    rw [hbetween]
    generalize (sweep test progress (report.pending progress)).1 = before at hswept ⊢
    obtain ⟨hrest, hmore⟩ := ihrest parent (report.attachNode parent before node).1
    obtain ⟨hchildren, hbelow⟩ := ihchildren (node.range.or parent)
      (report.enterNode before node).1
    obtain ⟨hbranches, hbeside⟩ := ihbranches (node.range.or parent)
      (report.behindChildren parent before node)
    obtain ⟨last, -, hleave⟩ := leaveNode_eq report (report.behindBranches parent before node) node
    refine ⟨?_, by rw [remarksAt_append, hswept, hmore]⟩
    rw [attachNode_snd, shareNode_eq, enterNode_remarks, hbelow, hbeside, hleave, sweep_remarks,
      ← hleave]
    simp only [← remarksAt_append]
    exact .cons hchildren hbranches hrest

end Nodes

section Places

/-- The pass moves past diagnostics of one kind, and the annotation stays. -/
structure Moves (report : Report) (kind : Diagnostic → Prop) (progress done : Progress) : Prop where
  index_le : progress.index ≤ done.index
  annotated_eq : done.annotated = progress.annotated
  passed : ∀ i, progress.index ≤ i → i < done.index →
    ∃ d, report.diagnostics[i]? = some d ∧ kind d

theorem sweep_moves {test : Diagnostic → Bool} (h : ∀ d, test d → kind d) :
    report.Moves kind progress (sweep test progress (report.pending progress)).1 := by
  refine ⟨Nat.le_add_right .., rfl, fun i hle hlt => ?_⟩
  obtain ⟨j, rfl⟩ := Nat.exists_eq_add_of_le hle
  have hj : j < ((report.pending progress).takeWhile test).length := Nat.lt_of_add_lt_add_left hlt
  refine ⟨_, ?_, h _ (all_eq_true.mp all_takeWhile _ (getElem_mem hj))⟩
  rw [← getElem?_drop]
  exact prefix_iff_getElem?.mp (List.takeWhile_prefix test) j hj

theorem between_moves (report : Report) (progress : Progress) (parent range : Option SourceRange) :
    report.Moves (fun d => ∃ outer ∈ parent, outer.contains d.range) progress
      (report.between progress parent range).1 := by
  obtain ⟨test, htest, heq⟩ := between_eq report progress parent range
  rw [heq]
  exact sweep_moves htest

theorem leaveNode_moves (report : Report) (progress : Progress) (node : Node) :
    report.Moves (fun d => ∃ range ∈ node.range, range.contains d.range) progress
      (report.leaveNode progress node).1 := by
  obtain ⟨test, htest, heq⟩ := leaveNode_eq report progress node
  rw [heq]
  exact sweep_moves htest

theorem mem_here {i : Nat} :
    i ∈ progress.here ↔ progress.annotated = false ∧ i = progress.index := by
  unfold Progress.here
  cases progress.annotated <;> simp

theorem mem_upTo {i : Nat} : i ∈ progress.upTo done ↔
    progress.annotated = false ∧ progress.index ≤ i ∧ i < done.index := by
  unfold Progress.upTo
  cases progress.annotated
  · simp only [Bool.false_eq_true, if_false, mem_range'_1, true_and]
    omega
  · simp

theorem upTo_sorted (progress done : Progress) : (progress.upTo done).Pairwise (· < ·) := by
  unfold Progress.upTo
  split
  · exact .nil
  · exact pairwise_lt_range'

/-- What entering a node does. The places that it takes are moved past, and the diagnostics there
lie in the node; if the node counts as annotated before, they have its span. Only the last one may
still be the next one: it covers the node, which then counts as annotated if there are nodes below
it. -/
structure Enters (report : Report) (range : Option SourceRange) (isLeaf : Bool)
    (progress done : Progress) (places : List Nat) : Prop where
  index_le : progress.index ≤ done.index
  annotated : progress.annotated = true → done.annotated = true
  sorted : places.Pairwise (· < ·)
  taken : ∀ i ∈ places, progress.index ≤ i ∧ ∃ d, report.diagnostics[i]? = some d ∧
    ∃ own ∈ range, (i < done.index ∧ own.contains d.range = true ∧
        (progress.annotated = true → d.range.sameSpan own = true)) ∨
      (i = done.index ∧ d.range.contains own = true ∧ d.range.sameSpan own = false ∧
        progress.annotated = false ∧ (isLeaf = false → done.annotated = true))

namespace Enters

variable {range : Option SourceRange} {isLeaf : Bool} {places : List Nat}

theorem nil : report.Enters range isLeaf progress progress [] :=
  ⟨le_rfl, id, .nil, nofun⟩

/-- One diagnostic is moved past, with or without being taken, and the pass goes on in a state that
is no less annotated. -/
theorem next {first : List Nat} {middle : Progress}
    (h : report.Enters range isLeaf middle done places)
    (hindex : middle.index = progress.index + 1)
    (hannotated : progress.annotated → middle.annotated)
    (hfirst : first = [] ∨ first = [progress.index])
    (hd : report.diagnostics[progress.index]? = some d)
    (htaken : progress.index ∈ first → ∃ own ∈ range, own.contains d.range ∧
      (progress.annotated → d.range.sameSpan own)) :
    report.Enters range isLeaf progress done (first ++ places) := by
  have hle := h.index_le
  have hmem : ∀ i ∈ first, i = progress.index := by
    intro i hi
    rcases hfirst with rfl | rfl
    · cases hi
    · exact mem_singleton.mp hi
  refine ⟨by omega, fun hp => h.annotated (hannotated hp), ?_, ?_⟩
  · refine pairwise_append.mpr ⟨?_, h.sorted, fun i hi j hj => ?_⟩
    · rcases hfirst with rfl | rfl
      · exact .nil
      · exact pairwise_singleton ..
    · have hj := (h.taken j hj).1
      have hi := hmem i hi
      omega
  · intro i hi
    rcases mem_append.mp hi with hi | hi
    · obtain rfl := hmem i hi
      obtain ⟨own, hown, hplace⟩ := htaken hi
      exact ⟨le_rfl, d, hd, own, hown, Or.inl ⟨by omega, hplace⟩⟩
    · obtain ⟨hfrom, e, he, own, hown, hplace⟩ := h.taken i hi
      refine ⟨by omega, e, he, own, hown, ?_⟩
      rcases hplace with ⟨hlt, hcontains, hspan⟩ | ⟨heq, hcovers, hspan, hplain, hdone⟩
      · exact Or.inl ⟨hlt, hcontains, fun hp => hspan (hannotated hp)⟩
      · refine Or.inr ⟨heq, hcovers, hspan, ?_, hdone⟩
        exact Bool.eq_false_iff.mpr fun hp => Bool.eq_false_iff.mp hplain (hannotated hp)

end Enters

theorem enterFrom_enters (range : SourceRange) (isLeaf : Bool) (progress : Progress)
    (diagnostics : List Diagnostic) (h : report.pending progress = diagnostics) :
    report.Enters (some range) isLeaf progress (enterFrom range isLeaf progress diagnostics).1
      (enteredFrom range isLeaf progress diagnostics) := by
  induction diagnostics generalizing progress with
  | nil => exact .nil
  | cons d rest ih =>
    have hnext := pending_next h
    have hd := getElem?_of_pending h
    unfold enterFrom enteredFrom
    split
    · exact (ih progress.next hnext).next rfl id (Or.inl rfl) hd (absurd · not_mem_nil)
    rename_i hpass
    have hfile : range.file = d.range.file := by
      by_contra hne
      exact hpass (Or.inl (Ne.symm hne))
    split
    · rename_i hspan
      refine (ih (progress.next.annotate isLeaf) hnext).next rfl ?_ (Or.inr rfl) hd fun _ =>
        ⟨range, rfl, SourceRange.contains_of_sameSpan hfile hspan, fun _ => hspan⟩
      intro hp
      simp [Progress.annotate, hp]
    rename_i hspan
    split
    · rename_i hcontains
      split
      · refine (ih progress.next hnext).next rfl id ?_ hd fun hmem =>
          ⟨range, rfl, hcontains, fun hp => ?_⟩
        · unfold Progress.here
          split
          · exact Or.inl rfl
          · exact Or.inr rfl
        · rw [(mem_here.mp hmem).1] at hp
          cases hp
      · exact .nil
    split
    · rename_i hcovers
      refine ⟨le_rfl, fun hp => by simp [Progress.annotate, hp], ?_, fun i hi => ?_⟩
      · unfold Progress.here
        split
        · exact .nil
        · exact pairwise_singleton ..
      · obtain ⟨hplain, rfl⟩ := mem_here.mp hi
        refine ⟨le_rfl, d, hd, range, rfl,
          Or.inr ⟨rfl, hcovers, Bool.eq_false_iff.mpr hspan, hplain, ?_⟩⟩
        intro hleaf
        simp [Progress.annotate, hleaf]
    · exact .nil

theorem enterNode_enters (report : Report) (progress : Progress) (node : Node) :
    report.Enters node.range node.isLeaf progress (report.enterNode progress node).1
      (report.enteredNode progress node) := by
  unfold enterNode enteredNode
  cases node.range with
  | none => exact .nil
  | some range => exact enterFrom_enters range node.isLeaf progress _ rfl

end Places

/-- The pass moves on below a node at `parent`, and the node takes diagnostics at some places along
the way. They are moved past one after the other and lie in the node, which does not count as
annotated. -/
structure Keeps (report : Report) (parent : Option SourceRange) (progress done : Progress)
    (places : List Nat) : Prop where
  index_le : progress.index ≤ done.index
  annotated_eq : done.annotated = progress.annotated
  sorted : places.Pairwise (· < ·)
  kept : ∀ i ∈ places, progress.annotated = false ∧ progress.index ≤ i ∧ i < done.index ∧
    ∃ d, report.diagnostics[i]? = some d ∧ ∃ outer ∈ parent, outer.contains d.range = true

section Keeping

variable {middle : Progress} {places more : List Nat}

theorem Moves.keeps (h : report.Moves kind progress done)
    (hkind : ∀ d, kind d → ∃ outer ∈ parent, outer.contains d.range) :
    report.Keeps parent progress done (progress.upTo done) := by
  refine ⟨h.index_le, h.annotated_eq, upTo_sorted .., fun i hi => ?_⟩
  obtain ⟨hplain, hfrom, hto⟩ := mem_upTo.mp hi
  obtain ⟨d, hd, hd'⟩ := h.passed i hfrom hto
  exact ⟨hplain, hfrom, hto, d, hd, hkind d hd'⟩

theorem Keeps.trans (h : report.Keeps parent progress middle places)
    (hmore : report.Keeps parent middle done more) :
    report.Keeps parent progress done (places ++ more) := by
  have hle := h.index_le
  have hle' := hmore.index_le
  have heq := h.annotated_eq
  refine ⟨by omega, hmore.annotated_eq.trans heq, ?_, fun i hi => ?_⟩
  · refine pairwise_append.mpr ⟨h.sorted, hmore.sorted, fun i hi j hj => ?_⟩
    have hi := (h.kept i hi).2.2.1
    have hj := (hmore.kept j hj).2.1
    omega
  · rcases mem_append.mp hi with hi | hi
    · obtain ⟨hplain, hfrom, hto, hplace⟩ := h.kept i hi
      exact ⟨hplain, hfrom, by omega, hplace⟩
    · obtain ⟨hplain, hfrom, hto, hplace⟩ := hmore.kept i hi
      exact ⟨heq ▸ hplain, by omega, hto, hplace⟩

/-- The place that the nodes below a node in the document lie in is its own. -/
theorem or_eq_of_mem {own : Option SourceRange} {range : SourceRange} (h : range ∈ own) :
    own.or parent = some range := by
  rw [Option.mem_def.mp h]
  rfl

/-- What a list of nodes below a node at `parent` leaves to that node, from any state on. -/
def Leaves (report : Report) (nodes : List Node) : Prop :=
  ∀ parent progress, report.Keeps parent progress (report.attachNodes parent progress nodes).1
    (report.shareNodes parent progress nodes).2

theorem laterNode_keeps_of (hchildren : report.Leaves node.children)
    (hbranches : report.Leaves node.branches) (parent : Option SourceRange) (progress : Progress) :
    report.Keeps (node.range.or parent) (report.enterNode progress node).1
      (report.leaveNode (report.behindBranches parent progress node) node).1
      (report.laterNode parent progress node) := by
  refine (hchildren _ _).trans ((hbranches _ _).trans ((leaveNode_moves ..).keeps ?_))
  rintro d ⟨range, hrange, hcontains⟩
  exact ⟨range, or_eq_of_mem hrange, hcontains⟩

/-- Behind a node the annotation is what it was before it. -/
theorem attachNode_keeps_of (hchildren : report.Leaves node.children)
    (hbranches : report.Leaves node.branches) (parent : Option SourceRange) (progress : Progress) :
    report.Keeps parent progress (report.attachNode parent progress node).1 [] := by
  have hentered := enterNode_enters report progress node
  have hlater := laterNode_keeps_of hchildren hbranches parent progress
  rw [attachNode_fst]
  refine ⟨hentered.index_le.trans hlater.index_le, ?_, .nil, nofun⟩
  cases hrange : node.range with
  | some range => rfl
  | none =>
    refine hlater.annotated_eq.trans ?_
    rw [enterNode, hrange]

theorem attachNodes_keeps (report : Report) (nodes : List Node) : report.Leaves nodes := by
  induction nodes using Node.forest_induction with
  | nil =>
    intro parent progress
    exact ⟨le_rfl, rfl, .nil, nofun⟩
  | cons node rest ihchildren ihbranches ihrest =>
    intro parent progress
    have hbetween := (between_moves report progress parent node.range).keeps fun _ h => h
    exact hbetween.trans ((attachNode_keeps_of ihchildren ihbranches _ _).trans (ihrest _ _))

variable (report parent progress node)

theorem attachNode_keeps : report.Keeps parent progress (report.attachNode parent progress node).1 [] :=
  attachNode_keeps_of (attachNodes_keeps report _) (attachNodes_keeps report _) parent progress

theorem laterNode_keeps :
    report.Keeps (node.range.or parent) (report.enterNode progress node).1
      (report.leaveNode (report.behindBranches parent progress node) node).1
      (report.laterNode parent progress node) :=
  laterNode_keeps_of (attachNodes_keeps report _) (attachNodes_keeps report _) parent progress

theorem laterNode_leaf (h : node.isLeaf) : report.laterNode parent progress node = [] := by
  obtain ⟨hchildren, hbranches⟩ := Node.isLeaf_iff.mp h
  have hleft : ∀ last, (report.leaveNode last node).1 = last := by
    intro last
    unfold leaveNode
    cases node.range with
    | none => rfl
    | some range => rw [h]; rfl
  simp [laterNode, hchildren, hbranches, shareNodes, hleft, Progress.upTo]

end Keeping

/-- The places of a share go up, and the diagnostics at them are in the file of the node and lie in
it or cover it. -/
structure Placed (report : Report) (share : Share) : Prop where
  sorted : share.taken.Pairwise (· < ·)
  meets : ∀ i ∈ share.taken, ∃ d, report.diagnostics[i]? = some d ∧ ∀ range ∈ share.range,
    d.range.file = range.file ∧ (d.range.contains range = true ∨ range.contains d.range = true)

section Soundness

theorem shareNode_placed : report.Placed (report.shareNode parent progress node) := by
  have hentered := enterNode_enters report progress node
  have hlater := laterNode_keeps report parent progress node
  rw [shareNode_eq]
  constructor
  · refine pairwise_append.mpr ⟨hentered.sorted, hlater.sorted, fun i hi j hj => ?_⟩
    obtain ⟨hplain, hfrom, -, -⟩ := hlater.kept j hj
    obtain ⟨-, d, -, own, -, ⟨hlt, -⟩ | ⟨-, -, -, -, hannotated⟩⟩ := hentered.taken i hi
    · omega
    · -- the next one is taken as well; then nothing is taken later
      cases hleaf : node.isLeaf with
      | true =>
        rw [laterNode_leaf report parent progress node hleaf] at hj
        cases hj
      | false =>
        rw [hannotated hleaf] at hplain
        cases hplain
  · intro i hi
    rcases mem_append.mp hi with hi | hi
    · obtain ⟨-, d, hd, own, hown, hplace⟩ := hentered.taken i hi
      refine ⟨d, hd, fun range hrange => ?_⟩
      obtain rfl : own = range := Option.some.inj (hown.symm.trans hrange)
      rcases hplace with ⟨-, hcontains, -⟩ | ⟨-, hcovers, -⟩
      · exact ⟨(SourceRange.contains_iff.mp hcontains).1.symm, Or.inr hcontains⟩
      · exact ⟨(SourceRange.contains_iff.mp hcovers).1, Or.inl hcovers⟩
    · obtain ⟨-, -, -, d, hd, outer, houter, hcontains⟩ := hlater.kept i hi
      refine ⟨d, hd, fun range hrange => ?_⟩
      obtain rfl : range = outer := Option.some.inj ((or_eq_of_mem hrange).symm.trans houter)
      exact ⟨(SourceRange.contains_iff.mp hcontains).1.symm, Or.inr hcontains⟩

theorem shareNodes_placed (report : Report) (nodes : List Node) : ∀ parent progress,
    ∀ share ∈ Share.flatten (report.shareNodes parent progress nodes).1, report.Placed share := by
  induction nodes using Node.forest_induction with
  | nil => exact nofun
  | cons node rest ihchildren ihbranches ihrest =>
    intro parent progress share hshare
    rw [shareNodes_cons, Share.flatten_cons] at hshare
    rcases mem_cons.mp hshare with rfl | hshare
    · exact shareNode_placed
    rcases mem_append.mp hshare with hparts | hrest
    · rw [shareNode_eq, Share.flatten_append] at hparts
      rcases mem_append.mp hparts with hbelow | hbeside
      · exact ihchildren _ _ share hbelow
      · exact ihbranches _ _ share hbeside
    · exact ihrest _ _ share hrest

/-- The diagnostics at places that go up are a part of the report in its order. -/
theorem chosen_sublist {places : List Nat} (h : places.Pairwise (· < ·)) :
    (report.chosen places).Sublist report.diagnostics := by
  have hfrom : ∀ start, (∀ i ∈ places, start ≤ i) →
      (report.chosen places).Sublist (report.diagnostics.drop start) := by
    induction h with
    | nil => exact fun start _ => nil_sublist _
    | @cons i places hi _ ih =>
      intro start hstart
      have hrest := ih (i + 1) hi
      have hdrop : (report.diagnostics.drop i).Sublist (report.diagnostics.drop start) :=
        drop_sublist_drop_left _ (hstart i mem_cons_self)
      unfold chosen at hrest ⊢
      rw [filterMap_cons]
      cases hd : report.diagnostics[i]? with
      | none =>
        exact hrest.trans ((drop_sublist_drop_left _ (Nat.le_succ i)).trans hdrop)
      | some d =>
        obtain ⟨hlt, rfl⟩ := List.getElem?_eq_some_iff.mp hd
        rw [drop_eq_getElem_cons hlt] at hdrop
        exact (hrest.cons_cons _).trans hdrop
  exact hfrom 0 fun i _ => Nat.zero_le i

/-- The nodes of `shown` are those of `nodes`, with everything that they had, and each of them may
have more remarks at the end of its list: those of a part of the report, in its order. If the node
is in the document, the diagnostics of this part are in its file, and each of them covers the node
or lies in it. -/
inductive Extends (report : Report) : (nodes shown : List Node) → Prop
  | nil : Extends report [] []
  | cons {node : Node} {rest children branches shown : List Node} {taken : List Diagnostic}
      (htaken : taken.Sublist report.diagnostics)
      (hmeets : ∀ range ∈ node.range, ∀ d ∈ taken, d.range.file = range.file ∧
        (d.range.contains range = true ∨ range.contains d.range = true))
      (hchildren : Extends report node.children children)
      (hbranches : Extends report node.branches branches)
      (hrest : Extends report rest shown) :
      Extends report (node :: rest)
        ({ node with
            children := children
            branches := branches
            remarks := node.remarks ++ taken.map Diagnostic.toRemark } :: shown)

theorem Carries.extends {nodes shown : List Node} {shares : List Share}
    (h : report.Carries nodes shares shown)
    (hplaced : ∀ share ∈ Share.flatten shares, report.Placed share) :
    report.Extends nodes shown := by
  induction h with
  | nil => exact .nil
  | cons _ _ _ ihchildren ihbranches ihrest =>
    simp only [Share.flatten_cons, Share.flatten_append, forall_mem_cons,
      forall_mem_append] at hplaced
    obtain ⟨hown, ⟨hbelow, hbeside⟩, hothers⟩ := hplaced
    refine .cons (chosen_sublist hown.sorted) (fun range hrange d hd => ?_) (ihchildren hbelow)
      (ihbranches hbeside) (ihrest hothers)
    obtain ⟨i, hi, hat⟩ := mem_filterMap.mp hd
    obtain ⟨e, he, hmeets⟩ := hown.meets i hi
    obtain rfl : e = d := Option.some.inj (he.symm.trans hat)
    exact hmeets range hrange

/-- Handing out diagnostics only adds remarks. Whatever the nodes are, in the document or not, and
whatever the report is, the nodes stay as they are but for more remarks at the end of their lists. A
node gets the remarks of some diagnostics of the report, each of them once and in their order; they
are in the file of the node, and each of them covers the node or lies in it. -/
theorem attach_extends (report : Report) (nodes : List Node) :
    report.Extends nodes (report.attach nodes) :=
  (attachNodes_carries report nodes none {}).1.extends (shareNodes_placed report nodes none {})

end Soundness

end Report

end Flowchart

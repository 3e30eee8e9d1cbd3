import Flowchart.Proofs.Geometry
import Flowchart.Proofs.Reconciling

/-!
Which broken statements are suggested. A node without a counterpart that meets an error is left out.
The errors come in the order of the text and so do the nodes, so the error at the range of a node is
still to come when the node is reached, unless the node follows one that was left out and is left
out with it. A branch without a counterpart is suggested as it is, though: the errors in it are not
looked at, and its broken statements are shown. These are the only ones.
-/
namespace Flowchart

open List hiding flatten

variable {src : Source} {stop p : Position} {nodes rest : List Node} {node previous : Node}
  {range : SourceRange} {state : Reconciler}

local instance (priority := low) Position.errorOrder : LinearOrder Position := Position.linearOrder

namespace Node

/-- Every node at any depth covers a piece of the file between the two positions. -/
theorem Laid.deep {given : SourceRange → Prop} {rank : Rank} {start : Position}
    (h : Laid src given rank start stop nodes) :
    ∀ node ∈ flatten nodes, ∃ range, node.Covers src range ∧ start ≤ range.start ∧
      range.stop ≤ stop ∧ node.Regular := by
  induction h with
  | nil => exact nofun
  | statement hcovers hregular hstart hstop _ hchildren _ _ ihbranches ihrest =>
    have hproper := hcovers.proper
    intro node hmem
    rcases mem_flatten_cons.mp hmem with rfl | hinner | hinner | hrest
    · exact ⟨_, hcovers, hstart, hstop, hregular⟩
    · rw [hchildren] at hinner
      cases hinner
    · obtain ⟨range, hrange, hfrom, hto, hregular⟩ := ihbranches node hinner
      exact ⟨range, hrange, by order, by order, hregular⟩
    · obtain ⟨range, hrange, hfrom, hto⟩ := ihrest node hrest
      exact ⟨range, hrange, by order, hto⟩
  | branch hcovers hregular hstart hstop _ hbranches hencloses _ _ _ ihchildren ihrest =>
    obtain ⟨hlow, hhigh⟩ := hencloses.bounds
    intro node hmem
    rcases mem_flatten_cons.mp hmem with rfl | hinner | hinner | hrest
    · exact ⟨_, hcovers, hstart, hstop, hregular⟩
    · obtain ⟨range, hrange, hfrom, hto, hregular⟩ := ihchildren node hinner
      exact ⟨range, hrange, by order, by order, hregular⟩
    · rw [hbranches] at hinner
      cases hinner
    · obtain ⟨range, hrange, hfrom, hto⟩ := ihrest node hrest
      exact ⟨range, hrange, by order, hto⟩

end Node

namespace Reconciler

open Node

theorem mem_upcoming {error : SourceRange} {errors : List SourceRange} (h : error ∈ errors)
    (hstop : range.start ≤ error.stop) : error ∈ upcoming range errors := by
  induction errors with
  | nil => cases h
  | cons first rest ih =>
    unfold upcoming
    rcases mem_cons.mp h with rfl | hrest
    · rw [dropWhile_cons_of_neg]
      · exact mem_cons_self ..
      · simp only [SourceRange.endsBefore, Bool.and_eq_true, decide_eq_true_eq, not_and, not_lt]
        exact fun _ => hstop
    · rw [dropWhile_cons]
      split
      · exact ih hrest
      · exact mem_cons_of_mem _ hrest

/-- The first error to come does not end before the range, if it is one of the same file. -/
theorem upcoming_first {first : SourceRange} {errors rest : List SourceRange}
    (h : upcoming range errors = first :: rest) (hfile : first.file = range.file) :
    range.start ≤ first.stop := by
  have hhead := head?_dropWhile_not
    (fun other : SourceRange => other.file = range.file && other.endsBefore range) errors
  unfold upcoming at h
  rw [h] at hhead
  simpa [hfile, SourceRange.endsBefore] using hhead

/-- A node without a counterpart is left out after another one, or for the first error still to
come, or it is suggested. -/
theorem insert_cases (state : Reconciler) (hrange : node.range = some range) :
    (state.inStreak ∧ state.insert node = (state, none)) ∨
    (state.inStreak = false ∧ ∃ error rest, upcoming range state.errors = error :: rest ∧
      error.intersects range ∧ state.insert node = (⟨rest, true⟩, none)) ∨
    (state.inStreak = false ∧
      (∀ error ∈ (upcoming range state.errors).head?, error.intersects range = false) ∧
      state.insert node = (⟨upcoming range state.errors, false⟩, some (node.mark true))) := by
  obtain ⟨errors, inStreak⟩ := state
  cases inStreak with
  | true => exact Or.inl ⟨rfl, rfl⟩
  | false =>
    unfold insert
    rw [hrange]
    dsimp only
    cases hnext : upcoming range errors with
    | nil => exact Or.inr (Or.inr ⟨rfl, fun _ h => by simp at h, rfl⟩)
    | cons error rest =>
      by_cases hmeets : error.intersects range
      · refine Or.inr (Or.inl ⟨rfl, error, rest, rfl, hmeets, ?_⟩)
        simp [hmeets]
      · refine Or.inr (Or.inr ⟨rfl, fun other hother => ?_, ?_⟩)
        · obtain rfl : error = other := Option.some.inj hother
          exact Bool.eq_false_iff.mpr hmeets
        · simp [hmeets]

/-- What the state is like when the nodes from a position on are still to come: the errors left are
sorted, and among them is a given one that starts later, or right there unless the nodes there are
left out anyway. -/
structure Expects (src : Source) (error : SourceRange) (p : Position) (state : Reconciler) :
    Prop where
  sorted : state.errors.Pairwise fun a b => a.start ≤ b.start
  file : ∀ other ∈ state.errors, other.file = src.file
  later : error.start ≤ error.stop → p < error.start → error ∈ state.errors
  now : error.start ≤ error.stop → state.inStreak = false → p ≤ error.start → error ∈ state.errors

namespace Expects

variable {error : SourceRange} {q : Position}

theorem mono (h : Expects src error p state) (hle : p ≤ q) : Expects src error q state where
  sorted := h.sorted
  file := h.file
  later hproper hlt := h.later hproper (by order)
  now hproper hcalm hq := h.now hproper hcalm (by order)

/-- Behind a node that stays, a new row of nodes may be left out. -/
theorem calm (h : Expects src error p state) (hlt : p < q) :
    Expects src error q { state with inStreak := false } where
  sorted := h.sorted
  file := h.file
  later hproper hq := h.later hproper (by order)
  now hproper _ hq := h.later hproper (by order)

/-- Behind a node without a counterpart. An error that is done with starts before the end of the
node. -/
theorem insert (h : Expects src error p state) (hcovers : node.Covers src range)
    (hp : p ≤ range.start) : Expects src error range.stop (state.insert node).1 := by
  have hproper := hcovers.proper
  have hsuffix : upcoming range state.errors <:+ state.errors := dropWhile_suffix _
  rcases insert_cases state hcovers.range_eq with ⟨-, heq⟩ | ⟨-, first, rest, hnext, hmeets, heq⟩ |
    ⟨-, -, heq⟩
  · rw [heq]
    exact h.mono (by order)
  · rw [heq]
    rw [hnext] at hsuffix
    have hrest : rest.Sublist state.errors := (sublist_cons_self first rest).trans
      hsuffix.sublist
    refine ⟨h.sorted.sublist hrest, fun other hother => h.file other (hrest.subset hother), ?_, ?_⟩
    · intro hends hlt
      have hmem : error ∈ upcoming range state.errors :=
        mem_upcoming (h.later hends (by order)) (by order)
      rw [hnext] at hmem
      rcases mem_cons.mp hmem with rfl | hmem
      · simp only [SourceRange.intersects, decide_eq_true_eq] at hmeets
        order
      · exact hmem
    · intro _ hcalm
      cases hcalm
  · rw [heq]
    refine ⟨h.sorted.sublist hsuffix.sublist,
      fun other hother => h.file other (hsuffix.subset hother), ?_, ?_⟩
    · intro hends hlt
      exact mem_upcoming (h.later hends (by order)) (by order)
    · intro hends _ hle
      exact mem_upcoming (h.later hends (by order)) (by order)

theorem not_inside (h : Expects src error p state) (hcovers : node.Covers src range)
    (hp : p ≤ range.start) {kept : Node} (hkept : (state.insert node).2 = some kept)
    (hends : error.start ≤ error.stop) (hfrom : range.start ≤ error.start) :
    ¬ error.stop ≤ range.stop := by
  intro hto
  rcases insert_cases state hcovers.range_eq with ⟨-, heq⟩ | ⟨-, first, rest, -, -, heq⟩ |
    ⟨hcalm, hclear, heq⟩
  · rw [heq] at hkept
    cases hkept
  · rw [heq] at hkept
    cases hkept
  · have hmem : error ∈ upcoming range state.errors :=
      mem_upcoming (h.now hends hcalm (by order)) (by order)
    have hsuffix : upcoming range state.errors <:+ state.errors := dropWhile_suffix _
    have hsorted := h.sorted.sublist hsuffix.sublist
    have hfile := fun other hother => h.file other (hsuffix.subset hother)
    cases hnext : upcoming range state.errors with
    | nil =>
      rw [hnext] at hmem
      cases hmem
    | cons first rest =>
      -- the first error to come starts no later than the given one and does not end before the node
      rw [hnext] at hmem hsorted hfile hclear
      have hbefore : first.start ≤ error.start := by
        rcases mem_cons.mp hmem with rfl | hlater
        · exact le_refl _
        · exact (pairwise_cons.mp hsorted).1 error hlater
      have hsame : first.file = range.file :=
        (hfile first mem_cons_self).trans hcovers.file.symm
      have hafter := upcoming_first hnext hsame
      have hmeets : first.intersects range := by
        simp only [SourceRange.intersects, decide_eq_true_eq]
        exact ⟨hsame, by order, hafter⟩
      rw [hclear first rfl] at hmeets
      cases hmeets

end Expects

/-- A node that is shown lies in a branch that is new: some of the nodes, at any depth, is compared
branch by branch with an old one that has no branch of the label. -/
inductive InNewBranch : (old nodes : List Node) → (shown : Node) → Prop
  | same {older rest : List Node} {previous node shown : Node} (hsame : sameSource previous node = true)
      (hrest : InNewBranch older rest shown) : InNewBranch (previous :: older) (node :: rest) shown
  | unmatched {old rest : List Node} {node shown : Node} (hnone : Unmatched old node)
      (hrest : InNewBranch old rest shown) : InNewBranch old (node :: rest) shown
  | rest {older rest : List Node} {previous node shown : Node} (hsplit : Split previous node)
      (hrest : InNewBranch older rest shown) : InNewBranch (previous :: older) (node :: rest) shown
  | found {older rest : List Node} {previous node shown branch found : Node}
      (hsplit : Split previous node) (hbranch : branch ∈ node.branches)
      (hfound : previous.branch? branch.label = some found)
      (hchildren : InNewBranch found.children branch.children shown) :
      InNewBranch (previous :: older) (node :: rest) shown
  | new {older rest : List Node} {previous node shown branch : Node} (hsplit : Split previous node)
      (hbranch : branch ∈ node.branches) (hnone : previous.branch? branch.label = none)
      (hshown : shown ∈ (branch.mark true).subtree) :
      InNewBranch (previous :: older) (node :: rest) shown

/-- A node that is suggested at the range of a given error. -/
def Shows (error : SourceRange) (node : Node) : Prop :=
  node.suggested = some true ∧ node.range = some error

section Run

variable {given : SourceRange → Prop} {error : SourceRange}

/-- The error is still expected behind some nodes, and those that show it lie in a new branch. -/
def Spares (src : Source) (error : SourceRange) (stop : Position) (old nodes : List Node)
    (result : Reconciler × List Node) : Prop :=
  Expects src error stop result.1 ∧
    ∀ node ∈ flatten result.2, Shows error node → InNewBranch old nodes node

def SparesBranches (src : Source) (error : SourceRange) (stop : Position) (previous : Node)
    (branches : List Node) (result : Reconciler × List Node) : Prop :=
  Expects src error stop result.1 ∧
    ∀ node ∈ flatten result.2, Shows error node → ∃ branch ∈ branches,
      (∃ found, previous.branch? branch.label = some found ∧
        InNewBranch found.children branch.children node) ∨
      (previous.branch? branch.label = none ∧ node ∈ (branch.mark true).subtree)

/-- Reconciling nodes from one position to another, as statements or as branches, spares an error
that is expected before them. -/
def Passes (src : Source) (error : SourceRange) (start stop : Position) (nodes : List Node) :
    Rank → Prop
  | .statement => ∀ (state : Reconciler) (old : List Node), Expects src error start state →
    Spares src error stop old nodes (state.reconcile old nodes)
  | .branch => ∀ (state : Reconciler) (previous : Node), Expects src error start state →
    SparesBranches src error stop previous nodes (state.reconcileBranches previous nodes)

theorem passes_same {older : List Node} (h : Expects src error p state)
    (hcovers : node.Covers src range) (hp : p ≤ range.start)
    (hrest : Passes src error range.stop stop rest .statement)
    (hsame : sameSource previous node) :
    Spares src error stop (previous :: older) (node :: rest)
      (state.reconcile (previous :: older) (node :: rest)) := by
  have hproper := hcovers.proper
  obtain ⟨hstate, hmore⟩ := hrest _ older (h.calm (by order))
  rw [reconcile_same hsame]
  refine ⟨hstate, fun below hbelow hshows => ?_⟩
  rcases mem_append.mp hbelow with hnode | hbelow
  · have hmark := (of_mem_mark hnode).1
    rw [hshows.1] at hmark
    cases hmark
  · exact .same hsame (hmore below hbelow hshows)

theorem passes_split {older : List Node} (h : Expects src error p state) (hp : p ≤ range.start)
    (hchildren : node.children = [])
    (hbranches : Passes src error range.start range.stop node.branches .branch)
    (hrest : Passes src error range.stop stop rest .statement) (hsplit : Split previous node) :
    Spares src error stop (previous :: older) (node :: rest)
      (state.reconcile (previous :: older) (node :: rest)) := by
  obtain ⟨hinner, hshown⟩ := hbranches state previous (h.mono hp)
  obtain ⟨hstate, hmore⟩ := hrest _ older hinner
  rw [reconcile_split hsplit]
  refine ⟨hstate, fun below hbelow hshows => ?_⟩
  rcases mem_flatten_cons.mp hbelow with rfl | hbelow | hbelow | hbelow
  · cases hshows.1
  · rw [hchildren] at hbelow
    cases hbelow
  · obtain ⟨branch, hbranch, ⟨found, hfound, hnew⟩ | ⟨hnone, hinside⟩⟩ :=
      hshown below hbelow hshows
    · exact .found hsplit hbranch hfound hnew
    · exact .new hsplit hbranch hnone hinside
  · exact .rest hsplit (hmore below hbelow hshows)

/-- A node without a counterpart: if it is suggested, the error is not inside of it. -/
theorem passes_insert {old : List Node} (h : Expects src error p state)
    (hcovers : node.Covers src range) (hp : p ≤ range.start)
    (hlaid : Laid src given .statement range.start range.stop [node])
    (hrest : Passes src error range.stop stop rest .statement) (hnone : Unmatched old node) :
    Spares src error stop old (node :: rest) (state.reconcile old (node :: rest)) := by
  obtain ⟨hstate, hmore⟩ := hrest _ old (h.insert hcovers hp)
  rw [reconcile_insert hnone]
  refine ⟨hstate, fun below hbelow hshows => ?_⟩
  rcases insert_kept state node with hkept | hleft
  · rw [hkept] at hbelow
    change below ∈ flatten (node.mark true :: _) at hbelow
    rcases mem_append.mp hbelow with hnode | hbelow
    · -- the error is at the range of a node that is suggested with the whole of `node`
      obtain ⟨-, plain, hplain, hrange⟩ := of_mem_mark hnode
      obtain ⟨inner, hinner, hfrom, hto, -⟩ := hlaid.deep plain hplain
      obtain rfl : inner = error :=
        Option.some.inj (hinner.range_eq.symm.trans (hrange.trans hshows.2))
      exact absurd hto (h.not_inside hcovers hp hkept hinner.proper.le hfrom)
    · exact .unmatched hnone (hmore below hbelow hshows)
  · rw [hleft] at hbelow
    exact .unmatched hnone (hmore below hbelow hshows)

/-- The branch of a node that was compared: its nodes are compared, or it is new. -/
theorem passes_branch {first last : Position} (h : Expects src error p state)
    (hcovers : node.Covers src range) (hp : p ≤ range.start) (hbranches : node.branches = [])
    (hencloses : node.Encloses range first last)
    (hchildren : Passes src error first last node.children .statement)
    (hrest : Passes src error range.stop stop rest .branch) :
    SparesBranches src error stop previous (node :: rest)
      (state.reconcileBranches previous (node :: rest)) := by
  have hproper := hcovers.proper
  obtain ⟨hlow, hhigh⟩ := hencloses.bounds
  cases hfound : previous.branch? node.label with
  | some found =>
    obtain ⟨hinner, hshown⟩ := hchildren state found.children (h.mono (by order))
    obtain ⟨hstate, hmore⟩ := hrest _ previous (hinner.mono hhigh)
    rw [reconcileBranches_found hfound]
    refine ⟨hstate, fun below hbelow hshows => ?_⟩
    rcases mem_flatten_cons.mp hbelow with rfl | hbelow | hbelow | hbelow
    · cases hshows.1
    · exact ⟨node, mem_cons_self, Or.inl ⟨found, hfound, hshown below hbelow hshows⟩⟩
    · rw [hbranches] at hbelow
      cases hbelow
    · obtain ⟨branch, hbranch, hlies⟩ := hmore below hbelow hshows
      exact ⟨branch, mem_cons_of_mem _ hbranch, hlies⟩
  | none =>
    obtain ⟨hstate, hmore⟩ := hrest state previous (h.mono (by order))
    rw [reconcileBranches_new hfound]
    refine ⟨hstate, fun below hbelow hshows => ?_⟩
    rcases mem_append.mp hbelow with hnode | hbelow
    · exact ⟨node, mem_cons_self, Or.inr ⟨hfound, hnode⟩⟩
    · obtain ⟨branch, hbranch, hlies⟩ := hmore below hbelow hshows
      exact ⟨branch, mem_cons_of_mem _ hbranch, hlies⟩

/-- The run over nodes that are laid out, with the old nodes at hand. -/
theorem laid_passes {rank : Rank} {start : Position} (h : Laid src given rank start stop nodes)
    (hle : start ≤ stop) : Passes src error start stop nodes rank := by
  induction h with
  | @nil rank =>
    cases rank with
    | statement => exact fun state old h => ⟨h.mono hle, nofun⟩
    | branch =>
      exact fun state previous h => ⟨h.mono hle, nofun⟩
  | statement hcovers hregular hstart hstop hkind hchildren hbranches _ ihbranches ihrest =>
    intro state old h
    have hinside := ihbranches hcovers.proper.le
    have hrest := ihrest hstop
    rcases compare_cases old _ with ⟨previous, older, rfl, hsame⟩ |
      ⟨previous, older, rfl, hsplit⟩ | hnone
    · exact passes_same h hcovers hstart hrest hsame
    · exact passes_split h hstart hchildren hinside hrest hsplit
    · have hlaid :=
        Laid.statement hcovers hregular (le_refl _) (le_refl _) hkind hchildren hbranches .nil
      exact passes_insert h hcovers hstart hlaid hrest hnone
  | branch hcovers _ hstart hstop _ hbranches hencloses hfirst _ _ ihchildren ihrest =>
    intro state previous h
    exact passes_branch h hcovers hstart hbranches hencloses (ihchildren hfirst) (ihrest hstop)

end Run

end Reconciler

namespace FileReader

open Reader StatementReader

theorem declares_file {functions : List FunctionDef} {c c' : Cursor}
    (h : Declares src functions c c') (hlog : ∀ d ∈ c.log, d.range.file = src.file) :
    ∀ d ∈ c'.log, d.range.file = src.file := by
  induction h with
  | done => exact hlog
  | skip htakes _ ih =>
    apply ih
    rw [htakes.log]
    exact hlog
  | @function _ _ _ _ depth c c₁ c₂ c' htakes _ hbody _ ih =>
    apply ih
    have hblock : Adds (·.range.file = src.file) (block src depth) := adds_block depth
    obtain ⟨added, hadds, hadded⟩ := hblock c₁
    rw [hbody] at hadds
    change c₂.log = c₁.log ++ added at hadds
    rw [hadds, htakes.log]
    intro d hd
    rcases mem_append.mp hd with hd | hd
    · exact hlog d hd
    · exact hadded d hd

theorem read_file {file : SourceFile} (h : SourceFile.read src = .ok file) :
    ∀ d ∈ file.diagnostics, d.range.file = src.file := by
  obtain ⟨c, c', hsits, hnone, hdone, -, hdeclares⟩ := SourceFile.declares_of_read h
  rw [← hdone]
  apply declares_file hdeclares
  rw [hnone]
  exact nofun

end FileReader

namespace Reconciler

open Node

variable {diagnostics : List Diagnostic}

theorem mem_ofDiagnostics :
    range ∈ (ofDiagnostics diagnostics).errors ↔
      ∃ d ∈ diagnostics, d.isError ∧ d.range = range := by
  unfold ofDiagnostics
  rw [mem_mergeSort, mem_map]
  simp only [mem_filter, and_assoc]

/-- The reconciler for the problems of a file expects each of its errors at the start. -/
theorem ofDiagnostics_expects {d : Diagnostic} (hfile : ∀ d ∈ diagnostics, d.range.file = src.file)
    (hd : d ∈ diagnostics) (herror : d.isError) (p : Position) :
    Expects src d.range p (ofDiagnostics diagnostics) := by
  have hmem : d.range ∈ (ofDiagnostics diagnostics).errors :=
    mem_ofDiagnostics.mpr ⟨d, hd, herror, rfl⟩
  refine ⟨?_, fun other hother => ?_, fun _ _ => hmem, fun _ _ _ => hmem⟩
  · have hpairs : (ofDiagnostics diagnostics).errors.Pairwise
        fun a b => decide (a.start ≤ b.start) := by
      apply pairwise_mergeSort
      · intro a b c hab hbc
        exact decide_eq_true (le_trans (of_decide_eq_true hab) (of_decide_eq_true hbc))
      · intro a b
        rcases le_total a.start b.start with h | h <;> simp [h]
    exact hpairs.imp of_decide_eq_true
  · obtain ⟨source, hsource, -, rfl⟩ := mem_ofDiagnostics.mp hother
    exact hfile source hsource

/-- Where broken statements are suggested. After a file is read and a function of it is laid out as
a diagram, the nodes are reconciled with any old ones and the errors of the file. A node at the
range of an error is suggested only if it lies in a branch that is new in a node which is compared
branch by branch with an old one. -/
theorem reconcile_suggests_errors {src : Source} {file : SourceFile} {function : FunctionDef}
    {setting : Setting} {notices : Notices} {diagram : Diagram}
    (hread : SourceFile.read src = .ok file) (hfunction : function ∈ file.functions)
    (hdiagram : Diagram.ofFunction setting notices function = .ok diagram) (old : List Node)
    {d : Diagnostic} (hd : d ∈ file.diagnostics) (herror : d.isError = true) :
    ∀ node ∈ flatten ((ofDiagnostics file.diagnostics).reconcile old diagram.nodes).2,
      node.range = some d.range → node.suggested = some true →
        InNewBranch old diagram.nodes node := by
  intro node hnode hrange hsuggested
  obtain ⟨start, stop, hle, hlaid⟩ := Diagram.ofFunction_laid hread hfunction hdiagram
  have hexpects := ofDiagnostics_expects (FileReader.read_file hread) hd herror start
  exact (laid_passes hlaid hle _ old hexpects).2 node hnode ⟨hsuggested, hrange⟩

/-- The diagrams of a text and of one that adds an `else` with a broken statement to it. The broken
statement is suggested. -/
theorem brokenElse_suggested : ∃ oldFile oldFunction old file function new,
    Diagram.ofFirst (fun _ => {}) "function f() \x7b if x \x7b \x7d \x7d" =
      some (oldFile, oldFunction, old) ∧
    Diagram.ofFirst (fun _ => {}) "function f() \x7b if x \x7b \x7d else \x7b y = ; \x7d \x7d" =
      some (file, function, new) ∧
    oldFunction.name = function.name ∧
    ∃ d ∈ file.diagnostics, d.isError ∧
      ∃ node ∈ flatten ((ofDiagnostics file.diagnostics).reconcile old.nodes new.nodes).2,
        node.range = some d.range ∧ node.suggested = some true := by
  have hshape : ((Diagram.ofFirst (fun _ => {})
      "function f() \x7b if x \x7b \x7d \x7d").bind fun old =>
      (Diagram.ofFirst (fun _ => {})
        "function f() \x7b if x \x7b \x7d else \x7b y = ; \x7d \x7d").map fun new =>
        decide (old.2.1.name = new.2.1.name ∧ ∃ d ∈ new.1.diagnostics, d.isError ∧
          ∃ node ∈ flatten ((ofDiagnostics new.1.diagnostics).reconcile old.2.2.nodes
            new.2.2.nodes).2, node.range = some d.range ∧ node.suggested = some true)) =
      some true := by
    decide +kernel
  obtain ⟨⟨oldFile, oldFunction, old⟩, hold, hshape⟩ := Option.bind_eq_some_iff.mp hshape
  obtain ⟨⟨file, function, new⟩, hnew, hshows⟩ := Option.map_eq_some_iff.mp hshape
  obtain ⟨hname, hshows⟩ := of_decide_eq_true hshows
  exact ⟨oldFile, oldFunction, old, file, function, new, hold, hnew, hname, hshows⟩

/-- The broken statement of the added `else` lies in a branch that is new. -/
theorem reconcile_suggests_errors_else :
    ∃ src file function diagram old, SourceFile.read src = .ok file ∧
      function ∈ file.functions ∧ Diagram.ofFunction {} {} function = .ok diagram ∧
      ∃ d ∈ file.diagnostics, d.isError = true ∧
        ∃ node ∈ flatten ((ofDiagnostics file.diagnostics).reconcile old diagram.nodes).2,
          node.range = some d.range ∧ node.suggested = some true ∧
          InNewBranch old diagram.nodes node := by
  obtain ⟨-, -, old, file, function, new, -, hnew, -, d, hd, herror, node, hnode, hrange, hmark⟩ :=
    brokenElse_suggested
  obtain ⟨hread, hfunction, hdiagram⟩ := Diagram.ofFirst_eq_some hnew
  exact ⟨_, file, function, new, old.nodes, hread, hfunction, hdiagram, d, hd, herror, node, hnode,
    hrange, hmark,
    reconcile_suggests_errors hread hfunction hdiagram old.nodes hd herror node hnode hrange hmark⟩

/-- Two texts with a function of the same name, and a node at an error of the second one that is
suggested. -/
theorem reconcile_suggests_broken :
    ∃ oldSrc oldFile oldFunction old src file function new,
      SourceFile.read oldSrc = .ok oldFile ∧ oldFunction ∈ oldFile.functions ∧
      Diagram.ofFunction {} {} oldFunction = .ok old ∧
      SourceFile.read src = .ok file ∧ function ∈ file.functions ∧
      Diagram.ofFunction {} {} function = .ok new ∧ oldFunction.name = function.name ∧
      ¬ ∀ d ∈ file.diagnostics, d.isError = true →
        ∀ node ∈ flatten ((ofDiagnostics file.diagnostics).reconcile old.nodes new.nodes).2,
          node.range = some d.range → node.suggested ≠ some true := by
  obtain ⟨oldFile, oldFunction, old, file, function, new, hold, hnew, hname, d, hd, herror, node,
    hnode, hrange, hmark⟩ := brokenElse_suggested
  obtain ⟨holdRead, holdFunction, holdDiagram⟩ := Diagram.ofFirst_eq_some hold
  obtain ⟨hread, hfunction, hdiagram⟩ := Diagram.ofFirst_eq_some hnew
  refine ⟨_, oldFile, oldFunction, old, _, file, function, new, holdRead, holdFunction, holdDiagram,
    hread, hfunction, hdiagram, hname, ?_⟩
  intro hnever
  exact hnever d hd herror node hnode hrange hmark

end Reconciler

end Flowchart

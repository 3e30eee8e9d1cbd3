import Flowchart.Proofs.Reconciling

/-!
Errors of other files. Reconciling moves along the sorted errors and stops at one that is not over
yet; an error of another file is never over and never met, so the errors behind it are not looked at
any more. Two runs over the same nodes are compared, one of them without the errors from the first
one of another file on: they show the same. So errors of other files do no harm as long as they come
last, but one that comes before an error of the file hides that error.
-/
namespace Flowchart

open List

section Sorting

variable {α : Type} {le : α → α → Bool}

/-- Sorting puts an item right behind the later ones that are smaller. -/
theorem mergeSort_cons_eq (htrans : ∀ a b c, le a b → le b c → le a c)
    (htotal : ∀ a b, (le a b || le b a)) (item : α) (items : List α) :
    (item :: items).mergeSort le =
      (items.mergeSort le).filter (fun b => !le item b) ++
        item :: (items.mergeSort le).filter (le item) := by
  obtain ⟨low, high, hsorted, hrest, hlow⟩ := mergeSort_cons htrans htotal item items
  have hpairs := pairwise_mergeSort htrans htotal (item :: items)
  rw [hsorted] at hpairs
  have hhigh : ∀ b ∈ high, le item b :=
    (pairwise_cons.mp (pairwise_append.mp hpairs).2.1).1
  rw [hsorted, hrest, filter_append, filter_append, filter_eq_self.mpr hlow,
    filter_eq_self.mpr hhigh, filter_eq_nil_iff.mpr fun b hb => by simp [hhigh b hb],
    filter_eq_nil_iff.mpr fun b hb => by simpa using hlow b hb, append_nil,
    nil_append]

theorem filter_mergeSort (htrans : ∀ a b c, le a b → le b c → le a c)
    (htotal : ∀ a b, (le a b || le b a)) (keep : α → Bool) (items : List α) :
    (items.mergeSort le).filter keep = (items.filter keep).mergeSort le := by
  induction items with
  | nil => simp
  | cons item items ih =>
    by_cases hkeep : keep item
    · rw [filter_cons_of_pos hkeep, mergeSort_cons_eq htrans htotal,
        mergeSort_cons_eq htrans htotal, ← ih, filter_append, filter_cons_of_pos hkeep,
        filter_comm keep, filter_comm keep]
    · obtain ⟨low, high, hsorted, hrest, -⟩ := mergeSort_cons htrans htotal item items
      rw [filter_cons_of_neg hkeep, ← ih, hsorted, hrest, filter_append,
        filter_append, filter_cons_of_neg hkeep]

end Sorting

namespace Reconciler

open Node

/-- Two states that show the same of the nodes of a file: the errors of the first one are those of
the second one, and then others, of which the first one is in another file. -/
structure Alike (file : Text) (state other : Reconciler) : Prop where
  streak : state.inStreak = other.inStreak
  errors : ∃ hidden, state.errors = other.errors ++ hidden ∧
    ∀ error ∈ hidden.head?, error.file ≠ file

def InFile (file : Text) (nodes : List Node) : Prop :=
  ∀ node ∈ flatten nodes, ∀ range ∈ node.range, range.file = file

instance (file : Text) (nodes : List Node) : Decidable (InFile file nodes) :=
  inferInstanceAs (Decidable (∀ node ∈ flatten nodes, ∀ range ∈ node.range, range.file = file))

section Steps

variable {file : Text} {state other : Reconciler}

theorem inFile_cons {node : Node} {rest : List Node} : InFile file (node :: rest) ↔
    (∀ range ∈ node.range, range.file = file) ∧ InFile file node.children ∧
      InFile file node.branches ∧ InFile file rest := by
  simp only [InFile, mem_flatten_cons, or_imp, forall_and, forall_eq]

theorem Alike.calm (h : Alike file state other) :
    Alike file { state with inStreak := false } { other with inStreak := false } :=
  ⟨rfl, h.errors⟩

/-- An error of another file is not over before a range, so nothing is dropped from it on. -/
theorem upcoming_append {range : SourceRange} {errors hidden : List SourceRange}
    (hrange : range.file = file) (hhidden : ∀ error ∈ hidden.head?, error.file ≠ file) :
    upcoming range (errors ++ hidden) = upcoming range errors ++ hidden := by
  have hstop : upcoming range hidden = hidden := by
    cases hidden with
    | nil => rfl
    | cons error rest =>
      have hother : error.file ≠ range.file := hrange ▸ hhidden error rfl
      exact dropWhile_cons_of_neg (by simp [hother])
  unfold upcoming at hstop ⊢
  rw [dropWhile_append, hstop]
  split
  · next hnone => rw [List.isEmpty_iff.mp hnone, nil_append]
  · rfl

theorem Alike.insert (h : Alike file state other) {node : Node}
    (hnode : ∀ range ∈ node.range, range.file = file) :
    Alike file (state.insert node).1 (other.insert node).1 ∧
      (state.insert node).2 = (other.insert node).2 := by
  obtain ⟨errors, streak⟩ := state
  obtain ⟨mine, streak'⟩ := other
  obtain ⟨hstreak, hidden, herrors, hhidden⟩ := h
  simp only at hstreak herrors
  subst hstreak herrors
  unfold Reconciler.insert
  cases streak with
  | true => exact ⟨⟨rfl, hidden, rfl, hhidden⟩, rfl⟩
  | false =>
    cases hrange : node.range with
    | none => exact ⟨⟨rfl, hidden, rfl, hhidden⟩, rfl⟩
    | some range =>
      have hfile : range.file = file := hnode range hrange
      simp only [upcoming_append hfile hhidden]
      cases upcoming range mine with
      | cons error rest =>
        rw [cons_append]
        dsimp only
        cases error.intersects range with
        | true => exact ⟨⟨rfl, hidden, rfl, hhidden⟩, rfl⟩
        | false => exact ⟨⟨rfl, hidden, rfl, hhidden⟩, rfl⟩
      | nil =>
        cases hidden with
        | nil => exact ⟨⟨rfl, [], rfl, hhidden⟩, rfl⟩
        | cons error rest =>
          have hother : error.file ≠ range.file := hfile ▸ hhidden error rfl
          have hapart : error.intersects range = false := by simp [SourceRange.intersects, hother]
          rw [nil_append]
          dsimp only
          rw [hapart]
          exact ⟨⟨rfl, error :: rest, rfl, hhidden⟩, rfl⟩

end Steps

/-- The states behind some nodes are alike again, and the same nodes are shown. -/
def Agree (file : Text) (result other : Reconciler × List Node) : Prop :=
  Alike file result.1 other.1 ∧ result.2 = other.2

/-- Two runs side by side, over the nodes of a list and over branches. -/
theorem reconcile_agree {file : Text} (nodes : List Node) (hfile : InFile file nodes) :
    (∀ state other old, Alike file state other →
      Agree file (reconcile state old nodes) (reconcile other old nodes)) ∧
    ∀ state other previous, Alike file state other →
      Agree file (reconcileBranches state previous nodes)
        (reconcileBranches other previous nodes) := by
  induction nodes using forest_induction with
  | nil => exact ⟨fun _ _ _ h => ⟨h, rfl⟩, fun _ _ _ h => ⟨h, rfl⟩⟩
  | cons node rest ihchildren ihbranches ihrest =>
    obtain ⟨hnode, hchildren, hbranches, hrest⟩ := inFile_cons.mp hfile
    constructor
    · intro state other old h
      rcases compare_cases old node with ⟨previous, older, rfl, hsame⟩ |
        ⟨previous, older, rfl, hsplit⟩ | hnone
      · obtain ⟨hstate, hmore⟩ := (ihrest hrest).1 _ _ older h.calm
        rw [reconcile_same hsame, reconcile_same hsame]
        exact ⟨hstate, by rw [hmore]⟩
      · obtain ⟨hinside, hshown⟩ := (ihbranches hbranches).2 _ _ previous h
        obtain ⟨hstate, hmore⟩ := (ihrest hrest).1 _ _ older hinside
        rw [reconcile_split hsplit, reconcile_split hsplit]
        exact ⟨hstate, by rw [hshown, hmore]⟩
      · obtain ⟨hinside, hkept⟩ := h.insert hnode
        obtain ⟨hstate, hmore⟩ := (ihrest hrest).1 _ _ old hinside
        rw [reconcile_insert hnone, reconcile_insert hnone]
        exact ⟨hstate, by rw [hkept, hmore]⟩
    · intro state other previous h
      cases hfound : previous.branch? node.label with
      | some found =>
        obtain ⟨hinside, hshown⟩ := (ihchildren hchildren).1 _ _ found.children h
        obtain ⟨hstate, hmore⟩ := (ihrest hrest).2 _ _ previous hinside
        rw [reconcileBranches_found hfound, reconcileBranches_found hfound]
        exact ⟨hstate, by rw [hshown, hmore]⟩
      | none =>
        obtain ⟨hstate, hmore⟩ := (ihrest hrest).2 _ _ previous h
        rw [reconcileBranches_new hfound, reconcileBranches_new hfound]
        exact ⟨hstate, by rw [hmore]⟩

/-- The errors up to the first one of another file. -/
def leading (file : Text) (errors : List SourceRange) : List SourceRange :=
  errors.takeWhile fun error => error.file = file

theorem alike_leading (file : Text) (errors : List SourceRange) :
    Alike file ⟨errors, false⟩ ⟨leading file errors, false⟩ := by
  refine ⟨rfl, errors.dropWhile fun error => error.file = file,
    takeWhile_append_dropWhile.symm, fun error herror => ?_⟩
  have hhead := head?_dropWhile_not (fun error : SourceRange => decide (error.file = file))
    errors
  rw [Option.mem_def.mp herror] at hhead
  exact of_decide_eq_false hhead

/-- If the errors of other files come last, then the leading ones are all errors of the file. -/
theorem leading_eq_filter {file : Text} {errors : List SourceRange}
    (h : errors.Pairwise fun a b => b.file = file → a.file = file) :
    leading file errors = errors.filter fun error => error.file = file := by
  induction h with
  | nil => rfl
  | @cons error rest hlater _ ih =>
    unfold leading at ih ⊢
    by_cases hfile : error.file = file
    · rw [takeWhile_cons_of_pos (by simpa using hfile),
        filter_cons_of_pos (by simpa using hfile), ih]
    · rw [takeWhile_cons_of_neg (by simpa using hfile),
        filter_cons_of_neg (by simpa using hfile)]
      refine (filter_eq_nil_iff.mpr fun other hother => ?_).symm
      simpa using fun h => hfile (hlater other hother h)

/-- The errors of the diagnostics of a file are those of all diagnostics that are in the file, in
the same order. -/
theorem ofDiagnostics_filter (file : Text) (diagnostics : List Diagnostic) :
    ofDiagnostics (diagnostics.filter fun d => d.range.file = file) =
      ⟨(ofDiagnostics diagnostics).errors.filter fun error => error.file = file, false⟩ := by
  unfold ofDiagnostics
  rw [filter_mergeSort, filter_map, filter_filter, filter_filter]
  · simp only [Function.comp_def, Bool.and_comm]
  · intro a b c hab hbc
    exact decide_eq_true (Position.le_trans' (of_decide_eq_true hab) (of_decide_eq_true hbc))
  · intro a b
    rcases Position.le_total' a.start b.start with h | h <;> simp [h]

/-- What errors of other files do to the nodes of a file. Of the sorted errors only those before the
first one of another file count. So if no error of another file comes before one of the file, the
errors of other files may as well be left out. -/
theorem reconcile_leading {diagnostics : List Diagnostic} {file : Text} {nodes : List Node}
    (hfile : InFile file nodes) (old : List Node) :
    ((ofDiagnostics diagnostics).reconcile old nodes).2 =
      (({ errors := leading file (ofDiagnostics diagnostics).errors } : Reconciler).reconcile old
        nodes).2 ∧
    ((ofDiagnostics diagnostics).errors.Pairwise (fun a b => b.file = file → a.file = file) →
      ((ofDiagnostics diagnostics).reconcile old nodes).2 =
        ((ofDiagnostics (diagnostics.filter fun d => d.range.file = file)).reconcile old
          nodes).2) := by
  have hleading := ((reconcile_agree nodes hfile).1 (ofDiagnostics diagnostics) _ old
    (alike_leading file (ofDiagnostics diagnostics).errors)).2
  refine ⟨hleading, fun hlast => ?_⟩
  rw [hleading, leading_eq_filter hlast, ofDiagnostics_filter]

theorem ofDiagnostics_ordered {diagnostics : List Diagnostic}
    (h : ((diagnostics.filter Diagnostic.isError).map (·.range)).Pairwise
      fun a b => decide (a.start ≤ b.start)) :
    ofDiagnostics diagnostics = ⟨(diagnostics.filter Diagnostic.isError).map (·.range), false⟩ := by
  unfold ofDiagnostics
  dsimp only
  rw [mergeSort_of_pairwise h]

def errorElsewhere (line : Nat) : Diagnostic where
  severity := .error
  message := "elsewhere"
  range := ⟨"other.bal", ⟨line, 0⟩, ⟨line, 4⟩⟩

/-- A broken statement and an error of another file in a later line. The statement is left out on
account of its own error, with and without the other one. -/
theorem reconcile_leading_behind :
    ∃ diagnostics nodes, InFile "main.bal" nodes ∧
      (ofDiagnostics diagnostics).errors.Pairwise
        (fun a b => b.file = ("main.bal" : Text) → a.file = ("main.bal" : Text)) ∧
      ((ofDiagnostics diagnostics).reconcile [] nodes).2 =
        ((ofDiagnostics (diagnostics.filter fun d =>
          d.range.file = ("main.bal" : Text))).reconcile [] nodes).2 ∧
      ((ofDiagnostics diagnostics).reconcile [] nodes).2.length < nodes.length := by
  let diagnostics := [Report.errorAt "broken statement" ⟨1, 4⟩ ⟨1, 9⟩, errorElsewhere 2]
  let nodes := [callAt "y = ;" 4 9]
  have hfile : InFile "main.bal" nodes := by decide
  have hordered := @ofDiagnostics_ordered diagnostics (by decide)
  have hlast : (ofDiagnostics diagnostics).errors.Pairwise
      (fun a b => b.file = ("main.bal" : Text) → a.file = ("main.bal" : Text)) := by
    rw [hordered]
    decide
  exact ⟨diagnostics, nodes, hfile, hlast, (reconcile_leading hfile []).2 hlast, by
    rw [hordered]
    decide⟩

/-- The other file has its error in an earlier line. The statement is left out without that error,
but suggested with it. -/
theorem reconcile_hides_errors :
    ¬ ∀ (diagnostics : List Diagnostic) (file : Text) (old nodes : List Node), InFile file nodes →
      ((ofDiagnostics diagnostics).reconcile old nodes).2 =
        ((ofDiagnostics (diagnostics.filter fun d => d.range.file = file)).reconcile old
          nodes).2 := by
  intro hsame
  have hlength := congrArg List.length (hsame
    [errorElsewhere 0, Report.errorAt "broken statement" ⟨1, 4⟩ ⟨1, 9⟩] "main.bal" []
    [callAt "y = ;" 4 9] (by decide))
  rw [ofDiagnostics_ordered (by decide), ofDiagnostics_ordered (by decide)] at hlength
  revert hlength
  decide

end Reconciler

end Flowchart

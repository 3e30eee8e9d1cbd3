import Flowchart.Edit.Document
import Flowchart.Proofs.Placing
import Mathlib.Algebra.GroupWithZero.Nat

/-!
Making edits in a document. Edits are located by byte offsets, they can be made together when their
ends are found and in order and no two of them overlap, and then the new text is woven from what lies
between them and their new texts. Only neighbours in the order of the edits are compared, and the
edits are made in place from the last one to the first; both come to the same.
-/
namespace Flowchart

open List Text

namespace TextEdit

namespace Resolved

/-- One of the edits ends at or before the start of the other. -/
def Apart (a b : Resolved) : Prop := a.stop ≤ b.start ∨ b.stop ≤ a.start

/-- The order by start, then by end, then by place. -/
def Before (a b : Resolved) : Prop :=
  a.start < b.start ∨
    (a.start = b.start ∧ (a.stop < b.stop ∨ (a.stop = b.stop ∧ a.place < b.place)))

theorem Apart.symm {a b : Resolved} (h : a.Apart b) : b.Apart a := Or.symm h

theorem precedes_iff {a b : Resolved} : a.precedes b ↔
    a.start < b.start ∨
      (a.start = b.start ∧ (a.stop < b.stop ∨ (a.stop = b.stop ∧ a.place ≤ b.place))) := by
  simp [precedes]

theorem precedes_trans {a b c : Resolved} (hab : a.precedes b) (hbc : b.precedes c) :
    a.precedes c := by
  rw [precedes_iff] at hab hbc ⊢
  omega

theorem precedes_total (a b : Resolved) : (a.precedes b || b.precedes a) := by
  rw [Bool.or_eq_true, precedes_iff, precedes_iff]
  omega

/-- Edits in their order lie apart exactly if the first one ends before the other starts: one that
ends where both start is empty, and so is the one before it. -/
theorem apart_iff_of_precedes {a b : Resolved} (h : a.precedes b) (hb : b.start ≤ b.stop) :
    a.Apart b ↔ a.stop ≤ b.start := by
  have horder := precedes_iff.mp h
  unfold Apart
  omega

theorem before_of_precedes {a b : Resolved} (h : a.precedes b) (hplace : a.place ≠ b.place) :
    a.Before b := by
  have horder := precedes_iff.mp h
  unfold Before
  omega

end Resolved

/-- The edit at a place of a list, by where the ends of its span are found. -/
def placed (find? : Position → Option Nat) (given : TextEdit × Nat) : Resolved :=
  ⟨(find? given.1.span.start).getD 0, (find? given.1.span.stop).getD 0, given.2, given.1.newText⟩

/-- The edits of a list, each at its place. -/
def located (find? : Position → Option Nat) (edits : List TextEdit) : List Resolved :=
  edits.zipIdx.map (placed find?)

/-- The edits of a list in the order in which they are made. -/
def inOrder (text : Text) (edits : List TextEdit) : List Resolved :=
  (located text.offsetAt? edits).mergeSort Resolved.precedes

/-- All edits of a list can be made together: the ends of each are found and in order, and of any two
edits one ends at or before the start of the other. -/
structure Applicable (find? : Position → Option Nat) (edits : List TextEdit) : Prop where
  found : ∀ edit ∈ edits, (find? edit.span.start).isSome ∧ (find? edit.span.stop).isSome
  ordered : ∀ edit ∈ located find? edits, edit.start ≤ edit.stop
  apart : (located find? edits).Pairwise Resolved.Apart

/-- The edits by the byte offsets of their ends, in the order of start, end and place in the list. -/
structure Arranged (text : Text) (edits : List TextEdit) (order : List Resolved) : Prop where
  perm : order.Perm (located text.offsetAt? edits)
  sorted : order.Pairwise Resolved.Before

/-- What lies between the edits from the byte offset `here` on, and their new texts, one after the
other. -/
inductive Woven (text : Text) : (here : Nat) → List Resolved → Text → Prop
  | done {here : Nat} {gap : Text} (hgap : text.Between here text.byteLength gap) :
      Woven text here [] gap
  | edit {here : Nat} {gap rest : Text} {edit : Resolved} {more : List Resolved}
      (hgap : text.Between here edit.start gap) (hmore : Woven text edit.stop more rest) :
      Woven text here (edit :: more) (gap ++ (edit.newText ++ rest))

theorem mapM_eq_ok_iff {ε α β : Type} {f : α → Except ε β} {g : α → β} {as : List α} {bs : List β}
    (hg : ∀ a b, f a = .ok b → b = g a) :
    as.mapM f = .ok bs ↔ (∀ a ∈ as, f a = .ok (g a)) ∧ bs = as.map g := by
  induction as generalizing bs with
  | nil => simp [pure, Except.pure]
  | cons a as ih =>
    rw [mapM_cons, forall_mem_cons]
    constructor
    · intro h
      obtain ⟨b, hb, h⟩ := Except.bind_eq_ok h
      obtain ⟨more, hmore, h⟩ := Except.bind_eq_ok h
      cases h
      obtain ⟨hrest, rfl⟩ := ih.mp hmore
      obtain rfl := hg a b hb
      exact ⟨⟨hb, hrest⟩, rfl⟩
    · rintro ⟨⟨hfirst, hrest⟩, rfl⟩
      rw [hfirst, ih.mpr ⟨hrest, rfl⟩]
      rfl

theorem forall_mem_zipIdx {P : TextEdit → Prop} {edits : List TextEdit} :
    (∀ edit ∈ edits, P edit) ↔ ∀ given ∈ edits.zipIdx, P given.1 := by
  rw [← forall_mem_map (f := Prod.fst), zipIdx_map_fst]

variable {text : Text} {edits : List TextEdit} {order : List Resolved}

theorem resolve_eq_ok_iff {given : TextEdit × Nat} {edit : Resolved} :
    resolve (.ofText text) text given.1 given.2 = .ok edit ↔
      ((text.offsetAt? given.1.span.start).isSome ∧ (text.offsetAt? given.1.span.stop).isSome) ∧
        (placed text.offsetAt? given).start ≤ (placed text.offsetAt? given).stop ∧
        edit = placed text.offsetAt? given := by
  unfold resolve placed
  rw [← offsetAt?, ← offsetAt?]
  cases text.offsetAt? given.1.span.start with
  | none => simp
  | some start =>
    cases text.offsetAt? given.1.span.stop with
    | none => simp
    | some stop =>
      dsimp only [Option.getD_some]
      split
      · next hlt => simp [Nat.not_le.mpr hlt]
      · next hle => simp [Nat.not_lt.mp hle, eq_comm]

theorem resolveAll_eq_ok_iff {resolved : List Resolved} :
    resolveAll text edits = .ok resolved ↔
      (∀ edit ∈ edits, (text.offsetAt? edit.span.start).isSome ∧
        (text.offsetAt? edit.span.stop).isSome) ∧
      (∀ edit ∈ located text.offsetAt? edits, edit.start ≤ edit.stop) ∧
      resolved = located text.offsetAt? edits := by
  have heach (given : TextEdit × Nat) (edit : Resolved)
      (h : resolve (.ofText text) text given.1 given.2 = .ok edit) : edit = placed text.offsetAt? given :=
    (resolve_eq_ok_iff.mp h).2.2
  unfold resolveAll located
  rw [mapM_eq_ok_iff heach, ← and_assoc]
  refine and_congr_left fun _ => ?_
  simp only [resolve_eq_ok_iff, and_true, forall_mem_map]
  rw [forall_mem_zipIdx, ← forall₂_and]

/-- Where no two neighbours overlap, every edit ends before all that follow it start. -/
theorem overlap?_eq_none_iff (hordered : ∀ edit ∈ order, edit.start ≤ edit.stop) :
    overlap? order = none ↔ order.Pairwise fun a b => a.stop ≤ b.start := by
  induction order with
  | nil => simp [overlap?]
  | cons first order ih =>
    cases order with
    | nil => simp [overlap?]
    | cons second more =>
      have hmore := ih (forall_mem_cons.mp hordered).2
      have hsecond : second.start ≤ second.stop := hordered second (by simp)
      rw [overlap?, pairwise_cons]
      constructor
      · intro h
        split at h
        · cases h
        · next hnext =>
          have hpairs := hmore.mp h
          refine ⟨fun edit hmem => ?_, hpairs⟩
          rcases mem_cons.mp hmem with rfl | hlater
          · exact Nat.le_of_not_lt hnext
          · have hle := (pairwise_cons.mp hpairs).1 edit hlater
            omega
      · rintro ⟨hfirst, hpairs⟩
        rw [if_neg (Nat.not_lt.mpr (hfirst second (by simp)))]
        exact hmore.mpr hpairs

theorem inOrder_perm (text : Text) (edits : List TextEdit) :
    (inOrder text edits).Perm (located text.offsetAt? edits) :=
  mergeSort_perm _ _

theorem inOrder_sorted (text : Text) (edits : List TextEdit) :
    (inOrder text edits).Pairwise fun a b => a.precedes b := by
  apply pairwise_mergeSort
  · exact fun _ _ _ => Resolved.precedes_trans
  · exact Resolved.precedes_total

theorem inOrder_ordered (h : ∀ edit ∈ located text.offsetAt? edits, edit.start ≤ edit.stop) :
    ∀ edit ∈ inOrder text edits, edit.start ≤ edit.stop :=
  fun edit hmem => h edit ((inOrder_perm text edits).mem_iff.mp hmem)

theorem overlap?_inOrder (hordered : ∀ edit ∈ located text.offsetAt? edits, edit.start ≤ edit.stop) :
    overlap? (inOrder text edits) = none ↔
      (located text.offsetAt? edits).Pairwise Resolved.Apart := by
  rw [overlap?_eq_none_iff (inOrder_ordered hordered),
    ← (inOrder_perm text edits).pairwise_iff Resolved.Apart.symm]
  constructor
  · exact List.Pairwise.imp .inl
  · intro h
    refine ((inOrder_sorted text edits).and h).imp_of_mem ?_
    rintro a b - hb ⟨hprecedes, hapart⟩
    exact (Resolved.apart_iff_of_precedes hprecedes (inOrder_ordered hordered b hb)).mp hapart

/-- Edits are made, in their order, exactly if they can be made together. -/
theorem apply_eq_ok_iff {new : Text} :
    apply text edits = .ok new ↔
      Applicable text.offsetAt? edits ∧ new = replaceAll text (inOrder text edits) := by
  unfold apply
  constructor
  · intro h
    obtain ⟨resolved, hresolved, h⟩ := Except.bind_eq_ok h
    obtain ⟨hfound, hordered, rfl⟩ := resolveAll_eq_ok_iff.mp hresolved
    dsimp only at h
    split at h
    · cases h
    · next hnone =>
      cases h
      exact ⟨⟨hfound, hordered, (overlap?_inOrder hordered).mp hnone⟩, rfl⟩
  · rintro ⟨⟨hfound, hordered, hapart⟩, rfl⟩
    rw [resolveAll_eq_ok_iff.mpr ⟨hfound, hordered, rfl⟩]
    have hnone := (overlap?_inOrder hordered).mpr hapart
    unfold inOrder at hnone
    dsimp only [bind, Except.bind]
    rw [hnone]
    rfl

/-- Edits that are given in their order are made in it. -/
theorem apply_of_sorted {order : List Resolved} (hall : resolveAll text edits = .ok order)
    (hsorted : order.Pairwise fun a b => a.precedes b) (hnone : overlap? order = none) :
    apply text edits = .ok (replaceAll text order) := by
  unfold apply
  rw [hall]
  simp only [bind, Except.bind, mergeSort_of_pairwise hsorted, hnone]
  rfl

theorem located_places (find? : Position → Option Nat) (edits : List TextEdit) :
    (located find? edits).Pairwise fun a b => a.place < b.place := by
  refine pairwise_map.mpr ?_
  apply (pairwise_map (f := Prod.snd)).mp
  rw [zipIdx_map_snd]
  exact pairwise_lt_range'

theorem arranged_inOrder (text : Text) (edits : List TextEdit) :
    Arranged text edits (inOrder text edits) := by
  have hperm := inOrder_perm text edits
  refine ⟨hperm, ?_⟩
  -- No two edits have the same place, so of any two only one comes before the other.
  have hplaces : (inOrder text edits).Pairwise fun a b => a.place ≠ b.place :=
    (hperm.pairwise_iff fun h => Ne.symm h).mpr ((located_places _ edits).imp Nat.ne_of_lt)
  exact ((inOrder_sorted text edits).and hplaces).imp fun h => Resolved.before_of_precedes h.1 h.2

/-- A first part of the text ends at the offset. -/
def Ends (text : Text) (offset : Nat) : Prop :=
  ∃ before after, text = before ++ after ∧ byteLength before = offset

theorem located_ends (h : Applicable text.offsetAt? edits) :
    ∀ edit ∈ located text.offsetAt? edits, Ends text edit.start ∧ Ends text edit.stop := by
  have hends {p : Position} (hfound : (text.offsetAt? p).isSome) :
      Ends text ((text.offsetAt? p).getD 0) := by
    obtain ⟨offset, hoffset⟩ := Option.isSome_iff_exists.mp hfound
    obtain ⟨before, after, htext, -, hbefore⟩ := offsetAt?_eq_some_iff.mp hoffset
    rw [hoffset]
    exact ⟨before, after, htext, hbefore⟩
  refine forall_mem_map.mpr fun given hmem => ?_
  obtain ⟨hstart, hstop⟩ := forall_mem_zipIdx.mp h.found given hmem
  exact ⟨hends hstart, hends hstop⟩

theorem replaceAll_cons (text : Text) (edit : Resolved) (more : List Resolved) :
    replaceAll text (edit :: more) =
      (replaceAll text more).replaceBytes edit.start edit.stop edit.newText := by
  unfold replaceAll
  rw [reverse_cons, foldl_append]
  rfl

/-- Edits that are made from the last one to the first leave what lies before the first one, so each
of them is made where it was found. -/
theorem replaceAll_woven {before after : Text} (htext : text = before ++ after)
    (hfirst : ∀ edit ∈ order, byteLength before ≤ edit.start)
    (hordered : ∀ edit ∈ order, edit.start ≤ edit.stop)
    (hends : ∀ edit ∈ order, Ends text edit.start ∧ Ends text edit.stop)
    (hapart : order.Pairwise fun a b => a.stop ≤ b.start) :
    ∃ rest, replaceAll text order = before ++ rest ∧ Woven text (byteLength before) order rest := by
  induction order generalizing before after with
  | nil =>
    refine ⟨after, htext, .done ⟨before, [], ?_, rfl, ?_⟩⟩
    · rw [append_nil, htext]
    · rw [htext]
  | cons edit more ih =>
    obtain ⟨hnext, hapart⟩ := pairwise_cons.mp hapart
    obtain ⟨⟨first, tail, hfirstText, hstart⟩, last, behind, hlastText, hstop⟩ :=
      hends edit mem_cons_self
    obtain ⟨gap, rfl⟩ : before <+: first :=
      prefix_of_byteLength_le ⟨after, htext.symm⟩ ⟨tail, hfirstText.symm⟩
        (hstart ▸ hfirst edit mem_cons_self)
    obtain ⟨replaced, rfl⟩ : before ++ gap <+: last :=
      prefix_of_byteLength_le ⟨tail, hfirstText.symm⟩ ⟨behind, hlastText.symm⟩
        (hstart.trans_le ((hordered edit mem_cons_self).trans_eq hstop.symm))
    obtain ⟨rest, hrest, hwoven⟩ := ih hlastText (fun other hmem => hstop.trans_le (hnext other hmem))
      (forall_mem_cons.mp hordered).2 (forall_mem_cons.mp hends).2 hapart
    refine ⟨gap ++ (edit.newText ++ rest), ?_, .edit ⟨before, tail, ?_, rfl, hstart⟩ (hstop ▸ hwoven)⟩
    · rw [replaceAll_cons, hrest, append_assoc, ← hstart, ← hstop, replaceBytes_append, append_assoc]
    · rw [← append_assoc, hfirstText]

theorem woven_inOrder (h : Applicable text.offsetAt? edits) :
    Woven text 0 (inOrder text edits) (replaceAll text (inOrder text edits)) := by
  have hordered := inOrder_ordered h.ordered
  have hapart := (overlap?_eq_none_iff hordered).mp ((overlap?_inOrder h.ordered).mpr h.apart)
  obtain ⟨rest, hrest, hwoven⟩ := replaceAll_woven (show text = [] ++ text from rfl)
    (fun _ _ => Nat.zero_le _) hordered
    (fun edit hmem => located_ends h edit ((inOrder_perm text edits).mem_iff.mp hmem)) hapart
  rw [hrest]
  exact hwoven

end TextEdit

namespace Source

open TextEdit

theorem applyEdits_eq (source : Source) (edits : List TextEdit) :
    applyEdits edits source = match TextEdit.apply source.text edits with
      | .ok text => .ok () { source with text := text }
      | .error fault => .error fault source := by
  have hget (f : Source → EStateM EditFault Source Unit) : (get >>= f) source = f source source := rfl
  unfold applyEdits withEdits
  rw [hget]
  cases TextEdit.apply source.text edits with
  | ok text => rfl
  | error fault => rfl

/-- A document takes edits exactly if they can be made together. Then its text is what lies between
them and their new texts, in the order of start, end and place in the list; otherwise the document
stays as it was. -/
theorem applyEdits_exact (source : Source) (edits : List TextEdit) :
    ((∃ after, applyEdits edits source = .ok () after) ↔ Applicable source.text.offsetAt? edits) ∧
    (∀ after, applyEdits edits source = .ok () after → after.file = source.file ∧
      ∃ order, Arranged source.text edits order ∧ Woven source.text 0 order after.text) ∧
    ∀ fault after, applyEdits edits source = .error fault after → after = source := by
  rw [applyEdits_eq]
  cases h : TextEdit.apply source.text edits with
  | error fault =>
    refine ⟨⟨?_, fun happlicable => ?_⟩, ?_, ?_⟩
    · rintro ⟨after, hafter⟩
      cases hafter
    · rw [apply_eq_ok_iff.mpr ⟨happlicable, rfl⟩] at h
      cases h
    · intro after hafter
      cases hafter
    · intro fault after hafter
      cases hafter
      rfl
  | ok text =>
    obtain ⟨happlicable, rfl⟩ := apply_eq_ok_iff.mp h
    refine ⟨⟨fun _ => happlicable, fun _ => ⟨_, rfl⟩⟩, ?_, ?_⟩
    · intro after hafter
      cases hafter
      exact ⟨rfl, _, arranged_inOrder _ edits, woven_inOrder happlicable⟩
    · intro fault after hafter
      cases hafter

end Source

end Flowchart

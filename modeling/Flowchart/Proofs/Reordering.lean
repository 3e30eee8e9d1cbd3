import Flowchart.Proofs.Editing

/-!
Edits in another order. Edits can be made together if they can in any order of the list, and the
order in which they are made is settled by where they start and end, but for insertions at one
position. So a rearrangement of the list that keeps these in their order gives the same text.
-/
namespace Flowchart

open List

namespace TextEdit

namespace Resolved

/-- The edit without its place in a list. -/
def bare (edit : Resolved) : Resolved := { edit with place := 0 }

/-- The edit has the given ends. -/
def isAt (start stop : Nat) (edit : Resolved) : Bool := edit.start = start ∧ edit.stop = stop

/-- The order by start and then by end. -/
def UpTo (a b : Resolved) : Prop := a.start < b.start ∨ (a.start = b.start ∧ a.stop ≤ b.stop)

variable {a b : Resolved} {as bs : List Resolved} {start stop : Nat}

theorem isAt_iff : a.isAt start stop ↔ a.start = start ∧ a.stop = stop := by
  simp [isAt]

theorem upTo_of_precedes (h : a.precedes b) : a.UpTo b := by
  have horder := precedes_iff.mp h
  unfold UpTo
  omega

theorem upTo_of_mem (h : (a :: as).Pairwise UpTo) (hmem : b ∈ a :: as) : a.UpTo b := by
  rcases mem_cons.mp hmem with rfl | hmem
  · exact .inr ⟨rfl, le_rfl⟩
  · exact (pairwise_cons.mp h).1 b hmem

/-- Edits in order by start and end are settled by those of each start and end. -/
theorem eq_of_filter_isAt (hperm : as.Perm bs) (has : as.Pairwise UpTo) (hbs : bs.Pairwise UpTo)
    (h : ∀ start stop, as.filter (isAt start stop) = bs.filter (isAt start stop)) : as = bs := by
  induction as generalizing bs with
  | nil => exact hperm.nil_eq
  | cons a as ih =>
    cases bs with
    | nil => exact hperm.eq_nil
    | cons b bs =>
      have hsame : b.start = a.start ∧ b.stop = a.stop := by
        have hab := upTo_of_mem has (hperm.mem_iff.mpr mem_cons_self)
        have hba := upTo_of_mem hbs (hperm.mem_iff.mp mem_cons_self)
        unfold UpTo at hab hba
        omega
      have hfirst := h a.start a.stop
      rw [filter_cons_of_pos (isAt_iff.mpr ⟨rfl, rfl⟩),
        filter_cons_of_pos (isAt_iff.mpr hsame)] at hfirst
      obtain rfl := (List.cons.inj hfirst).1
      refine congrArg (a :: ·) (ih hperm.cons_inv has.of_cons hbs.of_cons fun start stop => ?_)
      have hrest := h start stop
      rw [filter_cons, filter_cons] at hrest
      split at hrest
      · exact (List.cons.inj hrest).2
      · exact hrest

end Resolved

open Resolved

/-- The edit by where its ends are found, without a place in a list. -/
def ends (find? : Position → Option Nat) (edit : TextEdit) : Resolved := placed find? (edit, 0)

variable {text new : Text} {edits edits' : List TextEdit} {find? : Position → Option Nat}

theorem replaceAll_bare (text : Text) (order : List Resolved) :
    replaceAll text (order.map bare) = replaceAll text order := by
  rw [replaceAll, ← map_reverse, foldl_map]
  rfl

theorem located_bare (find? : Position → Option Nat) (edits : List TextEdit) :
    (located find? edits).map bare = edits.map (ends find?) := by
  have hplaced : bare ∘ placed find? = ends find? ∘ Prod.fst := rfl
  unfold located
  rw [map_map, hplaced, ← map_map, zipIdx_map_fst]

/-- Whether edits can be made together does not depend on their places in the list. -/
theorem applicable_iff : Applicable find? edits ↔
    (∀ edit ∈ edits, (find? edit.span.start).isSome ∧ (find? edit.span.stop).isSome) ∧
      (∀ edit ∈ edits.map (ends find?), edit.start ≤ edit.stop) ∧
      (edits.map (ends find?)).Pairwise Apart := by
  rw [← located_bare, forall_mem_map, pairwise_map]
  exact ⟨fun ⟨h, h', h''⟩ => ⟨h, h', h''⟩, fun ⟨h, h', h''⟩ => ⟨h, h', h''⟩⟩

theorem Applicable.perm (h : Applicable find? edits) (hperm : edits.Perm edits') :
    Applicable find? edits' := by
  have hmap := hperm.map (ends find?)
  obtain ⟨hfound, hordered, hapart⟩ := applicable_iff.mp h
  exact applicable_iff.mpr ⟨fun edit hmem => hfound edit (hperm.mem_iff.mpr hmem),
    fun edit hmem => hordered edit (hmap.mem_iff.mpr hmem),
    (hmap.pairwise_iff Apart.symm).mp hapart⟩

/-- Of edits that replace something, at most one has the same ends. -/
theorem Applicable.single (h : Applicable find? edits) {start stop : Nat} (hne : start ≠ stop) :
    ((edits.map (ends find?)).filter (isAt start stop)).length ≤ 1 := by
  obtain ⟨-, hordered, hapart⟩ := applicable_iff.mp h
  have hpairs := hapart.filter (isAt start stop)
  cases hlist : (edits.map (ends find?)).filter (isAt start stop) with
  | nil => exact Nat.zero_le 1
  | cons a list =>
    cases list with
    | nil => exact le_rfl
    | cons b list =>
      rw [hlist] at hpairs
      have hmem {c : Resolved} (hc : c ∈ a :: b :: list) := mem_filter.mp (hlist ▸ hc)
      obtain ⟨ha, hends⟩ := hmem mem_cons_self
      obtain ⟨-, hends'⟩ := hmem (mem_cons_of_mem a mem_cons_self)
      rw [isAt_iff] at hends hends'
      have hforward := hordered a ha
      have hapart : a.Apart b := (pairwise_cons.mp hpairs).1 b mem_cons_self
      unfold Apart at hapart
      omega

/-- Sorting keeps edits with the same ends in the order in which they are given. -/
theorem inOrder_filter (text : Text) (edits : List TextEdit) (start stop : Nat) :
    (inOrder text edits).filter (isAt start stop) =
      (located text.offsetAt? edits).filter (isAt start stop) := by
  have hgiven : ((located text.offsetAt? edits).filter (isAt start stop)).Pairwise
      fun a b => a.precedes b := by
    refine ((located_places _ edits).filter _).imp_of_mem fun ha hb hplace => ?_
    obtain ⟨hstart, hstop⟩ := isAt_iff.mp (mem_filter.mp ha).2
    obtain ⟨hstart', hstop'⟩ := isAt_iff.mp (mem_filter.mp hb).2
    rw [precedes_iff]
    omega
  have hsublist : ((located text.offsetAt? edits).filter (isAt start stop)).Sublist
      (inOrder text edits) := by
    refine sublist_mergeSort ?_ precedes_total hgiven filter_sublist
    exact fun _ _ _ => precedes_trans
  replace hsublist := hsublist.filter (isAt start stop)
  rw [filter_filter] at hsublist
  simp only [Bool.and_self] at hsublist
  exact (hsublist.eq_of_length ((inOrder_perm text edits).filter _).length_eq.symm).symm

theorem inOrder_bare_filter (text : Text) (edits : List TextEdit) (start stop : Nat) :
    ((inOrder text edits).map bare).filter (isAt start stop) =
      (edits.filter (isAt start stop ∘ ends text.offsetAt?)).map (ends text.offsetAt?) := by
  rw [← filter_map, ← located_bare, filter_map, filter_map]
  exact congrArg _ (inOrder_filter text edits start stop)

theorem eq_positionAt_of_offsetAt? {p : Position} {offset : Nat} (hfound : (text.offsetAt? p).isSome)
    (h : (text.offsetAt? p).getD 0 = offset) : p = text.positionAt offset := by
  obtain ⟨found, hp⟩ := Option.isSome_iff_exists.mp hfound
  obtain ⟨before, after, rfl, rfl, rfl⟩ := Text.offsetAt?_eq_some_iff.mp hp
  rw [hp] at h
  rw [← h]
  exact (Text.positionAt_byteLength before after).symm

/-- The edits at one offset are the insertions at one position. -/
theorem Applicable.isAt_iff_point (h : Applicable text.offsetAt? edits) {edit : TextEdit}
    (hmem : edit ∈ edits) {p : Position} {offset : Nat}
    (hp : (text.offsetAt? p).isSome) (hoffset : (text.offsetAt? p).getD 0 = offset) :
    (ends text.offsetAt? edit).isAt offset offset ↔ edit.span = .point p := by
  obtain ⟨hstart, hstop⟩ := h.found edit hmem
  refine isAt_iff.trans ⟨?_, ?_⟩
  · rintro ⟨hstart', hstop'⟩
    have hfirst := eq_positionAt_of_offsetAt? hstart hstart'
    have hsecond := eq_positionAt_of_offsetAt? hstop hstop'
    rw [← eq_positionAt_of_offsetAt? hp hoffset] at hfirst hsecond
    exact congrArg₂ Span.mk hfirst hsecond
  · intro hspan
    unfold ends placed
    rw [hspan]
    exact ⟨hoffset, hoffset⟩

section Rearranged

variable (hperm : edits.Perm edits')
  (hinsertions : ∀ p, edits.filter (·.span = .point p) = edits'.filter (·.span = .point p))

include hperm hinsertions

theorem filter_isAt_eq (h : Applicable text.offsetAt? edits) (start stop : Nat) :
    edits.filter (isAt start stop ∘ ends text.offsetAt?) =
      edits'.filter (isAt start stop ∘ ends text.offsetAt?) := by
  have hfilter := hperm.filter (isAt start stop ∘ ends text.offsetAt?)
  cases hlist : edits.filter (isAt start stop ∘ ends text.offsetAt?) with
  | nil =>
    rw [hlist] at hfilter
    exact hfilter.nil_eq
  | cons other more =>
    by_cases heq : start = stop
    · subst heq
      have hother := mem_filter.mp (hlist ▸ mem_cons_self)
      have hp := (h.found other hother.1).1
      have hpoint {list : List TextEdit} (hlist : Applicable text.offsetAt? list) :
          list.filter (isAt start start ∘ ends text.offsetAt?) =
            list.filter (·.span = .point other.span.start) := by
        refine filter_congr fun edit hedit => Bool.eq_iff_iff.mpr ?_
        rw [Function.comp, hlist.isAt_iff_point hedit hp (isAt_iff.mp hother.2).1,
          decide_eq_true_iff]
      rw [← hlist, hpoint h, hpoint (h.perm hperm), hinsertions]
    · have hsingle := h.single heq
      rw [filter_map, length_map, hlist, length_cons] at hsingle
      obtain rfl : more = [] := eq_nil_of_length_eq_zero (by omega)
      rw [hlist] at hfilter
      exact singleton_perm.mp hfilter

theorem apply_rearranged (h : apply text edits = .ok new) : apply text edits' = .ok new := by
  obtain ⟨happlicable, rfl⟩ := apply_eq_ok_iff.mp h
  have hsorted (list : List TextEdit) : ((inOrder text list).map bare).Pairwise UpTo :=
    pairwise_map.mpr ((inOrder_sorted text list).imp upTo_of_precedes)
  have hbare (list : List TextEdit) :
      ((inOrder text list).map bare).Perm (list.map (ends text.offsetAt?)) := by
    rw [← located_bare]
    exact (inOrder_perm text list).map _
  have horder := eq_of_filter_isAt (((hbare edits).trans (hperm.map _)).trans (hbare edits').symm)
    (hsorted edits) (hsorted edits') fun start stop => by
      rw [inOrder_bare_filter, inOrder_bare_filter, filter_isAt_eq hperm hinsertions happlicable]
  refine apply_eq_ok_iff.mpr ⟨happlicable.perm hperm, ?_⟩
  rw [← replaceAll_bare, horder, replaceAll_bare]

end Rearranged

end TextEdit

namespace Source

/-- The order of edits does not matter, but for insertions at one position: a document takes both
lists or neither, and with the same outcome. -/
theorem applyEdits_rearranged {edits edits' : List TextEdit} (hperm : edits.Perm edits')
    (hinsertions : ∀ p, edits.filter (·.span = .point p) = edits'.filter (·.span = .point p))
    (source after : Source) :
    applyEdits edits source = .ok () after ↔ applyEdits edits' source = .ok () after := by
  have hinsertions' := fun p => (hinsertions p).symm
  rw [applyEdits_eq, applyEdits_eq]
  constructor
  · intro h
    split at h
    · next text htext => rwa [TextEdit.apply_rearranged hperm hinsertions htext]
    · cases h
  · intro h
    split at h
    · next text htext => rwa [TextEdit.apply_rearranged hperm.symm hinsertions' htext]
    · cases h

/-- A replacement stands between two insertions where it starts, or before them. -/
theorem applyEdits_rearranged_insertions :
    applyEdits [⟨⟨⟨0, 1⟩, ⟨0, 2⟩⟩, "X"⟩, .insertion ⟨0, 1⟩ "1", .insertion ⟨0, 1⟩ "2"]
      ⟨"main.bal", "abc"⟩ = .ok () ⟨"main.bal", "a12Xc"⟩ := by
  refine (applyEdits_rearranged (@perm_append_comm _
    [.insertion ⟨0, 1⟩ "1", .insertion ⟨0, 1⟩ "2"] [⟨⟨⟨0, 1⟩, ⟨0, 2⟩⟩, "X"⟩]) (fun p => ?_) _ _).mp ?_
  · have hspan : (⟨⟨0, 1⟩, ⟨0, 2⟩⟩ : Span) ≠ .point p := by
      rintro ⟨⟩
    simp [filter_cons, hspan]
  · rw [applyEdits_eq, TextEdit.apply_of_sorted rfl (by decide) rfl]
    rfl

end Source

end Flowchart

import Flowchart.Position.Locate
import Mathlib.Data.List.Induction
import Mathlib.Data.List.TakeWhile
import Mathlib.Order.Basic

/-!
The table of line starts against the text itself. A byte offset has the position that the text before
it ends at, and a position has an offset if some first part of the text ends there. The lines that
start at or before an offset are those of the text before it, and the last of them is followed by
characters that no line feed is among.
-/
namespace Flowchart

open List

variable {text before tail : Text} {c : Char} {offset line start : Nat}

theorem Text.units16_pos (c : Char) : 0 < units16 c := by
  unfold units16
  split <;> decide

namespace Position

variable (p : Position)

theorem lt_step (c : Char) : p < p.step c := by
  unfold step
  split
  · exact Or.inl (Nat.lt_succ_self _)
  · exact Or.inr ⟨rfl, Nat.lt_add_of_pos_right (Text.units16_pos c)⟩

/-- A piece of text that is not empty moves the position on. -/
theorem lt_after (c : Char) (text : Text) : p < p.after (c :: text) := by
  induction text generalizing p c with
  | nil => exact lt_step p c
  | cons d text ih =>
    have hstep := lt_step p c
    have hrest := ih (p.step c) d
    change p.line < (p.step c).line ∨ (p.line = (p.step c).line ∧ p.column < (p.step c).column)
      at hstep
    change (p.step c).line < (p.after (c :: d :: text)).line ∨
      ((p.step c).line = (p.after (c :: d :: text)).line ∧
        (p.step c).column < (p.after (c :: d :: text)).column) at hrest
    change p.line < (p.after (c :: d :: text)).line ∨
      (p.line = (p.after (c :: d :: text)).line ∧ p.column < (p.after (c :: d :: text)).column)
    omega

theorem le_after (text : Text) : p ≤ p.after text := by
  cases text with
  | nil => exact Or.inr ⟨rfl, Nat.le_refl _⟩
  | cons c text => exact (lt_after p c text).imp_right fun h => ⟨h.1, h.2.le⟩

theorem ne_after (c : Char) (text : Text) : p ≠ p.after (c :: text) := by
  intro heq
  have hlt := lt_after p c text
  rw [← heq] at hlt
  exact hlt.elim (Nat.lt_irrefl _) fun h => Nat.lt_irrefl _ h.2

theorem after_append (a b : Text) : p.after (a ++ b) = (p.after a).after b := foldl_append

theorem line_after (text : Text) : (p.after text).line = p.line + text.count '\n' := by
  induction text generalizing p with
  | nil => rfl
  | cons c text ih =>
    change ((p.step c).after text).line = _
    rw [ih, count_cons]
    by_cases hc : c = '\n'
    · simp only [step, hc, beq_self_eq_true, if_true]
      omega
    · simp only [step, if_neg hc, beq_iff_eq]
      omega

/-- Characters of one line only move the column on. -/
theorem after_of_not_mem (h : '\n' ∉ tail) :
    p.after tail = ⟨p.line, p.column + Text.length16 tail⟩ := by
  induction tail generalizing p with
  | nil => rfl
  | cons c tail ih =>
    obtain ⟨hc, htail⟩ := not_or.mp (mt mem_cons.mpr h)
    change (p.step c).after tail = _
    rw [ih _ htail, step, if_neg (Ne.symm hc), Text.length16, Nat.add_assoc]

end Position

namespace Text

theorem byteLength_append (a b : Text) : byteLength (a ++ b) = byteLength a + byteLength b := by
  induction a with
  | nil => rw [nil_append, byteLength, Nat.zero_add]
  | cons c a ih => rw [cons_append, byteLength, byteLength, ih, Nat.add_assoc]

theorem byteLength_pos (h : text ≠ []) : 0 < byteLength text := by
  cases text with
  | nil => exact absurd rfl h
  | cons c text =>
    have := c.utf8Size_pos
    rw [byteLength]
    omega

/-- Of two first parts of a text, the one with fewer bytes is a first part of the other. -/
theorem prefix_of_byteLength_le {a b : Text} (ha : a <+: text) (hb : b <+: text)
    (h : byteLength a ≤ byteLength b) : a <+: b := by
  rcases List.prefix_or_prefix_of_prefix ha hb with hab | hba
  · exact hab
  · obtain ⟨more, rfl⟩ := hba
    have hnil : more = [] := by
      by_contra hne
      have hpos := byteLength_pos hne
      rw [byteLength_append] at h
      omega
    exact ⟨[], by rw [append_nil, hnil, append_nil]⟩

theorem takeBytes_byteLength (before after : Text) :
    takeBytes (byteLength before) (before ++ after) = before := by
  induction before with
  | nil =>
    cases after with
    | nil => rfl
    | cons c after => exact if_pos c.utf8Size_pos
  | cons c before ih =>
    rw [cons_append, byteLength, takeBytes, if_neg (by omega), Nat.add_sub_cancel_left, ih]

theorem dropBytes_byteLength (before after : Text) :
    dropBytes (byteLength before) (before ++ after) = after := by
  induction before with
  | nil =>
    cases after with
    | nil => rfl
    | cons c after => exact if_pos c.utf8Size_pos
  | cons c before ih =>
    rw [cons_append, byteLength, dropBytes, if_neg (by omega), Nat.add_sub_cancel_left, ih]

theorem takeBytes_append_dropBytes (offset : Nat) (text : Text) :
    takeBytes offset text ++ dropBytes offset text = text := by
  induction text generalizing offset with
  | nil => rfl
  | cons c text ih =>
    rw [takeBytes, dropBytes]
    split
    · rfl
    · rw [cons_append, ih]

theorem isBoundary_byteLength (before after : Text) :
    isBoundary (before ++ after) (byteLength before) := by
  rw [isBoundary, takeBytes_byteLength, decide_eq_true_eq]

theorem slice?_append (before piece after : Text) :
    slice? (before ++ (piece ++ after)) (byteLength before) (byteLength (before ++ piece)) =
      some piece := by
  have hle : byteLength before ≤ byteLength (before ++ piece) := by
    rw [byteLength_append]
    exact Nat.le_add_right _ _
  have hstop : isBoundary (before ++ (piece ++ after)) (byteLength (before ++ piece)) := by
    rw [← append_assoc]
    exact isBoundary_byteLength ..
  rw [slice?, if_pos ⟨hle, isBoundary_byteLength .., hstop⟩, ← append_assoc, takeBytes_byteLength,
    dropBytes_byteLength]

theorem replaceBytes_append (before piece after newText : Text) :
    replaceBytes (before ++ (piece ++ after)) (byteLength before) (byteLength (before ++ piece))
      newText = before ++ (newText ++ after) := by
  have hafter := dropBytes_byteLength (before ++ piece) after
  rw [append_assoc] at hafter
  rw [replaceBytes, takeBytes_byteLength, hafter]

/-- What ends at or before an offset ends before it already, unless something ends there. -/
theorem takeBytes_succ (h : text.isBoundary (offset + 1) = false) :
    takeBytes (offset + 1) text = takeBytes offset text := by
  rw [isBoundary, decide_eq_false_iff_not] at h
  induction text generalizing offset with
  | nil => rfl
  | cons c text ih =>
    rw [takeBytes] at h ⊢
    split at h
    · next hlt => rw [takeBytes, if_pos hlt, if_pos (by omega)]
    · next hle =>
      rw [byteLength] at h
      by_cases hroom : offset < c.utf8Size
      · have hsize : offset + 1 - c.utf8Size = 0 := by omega
        have hnone : takeBytes 0 text = [] := takeBytes_byteLength [] text
        rw [hsize, hnone, byteLength] at h
        omega
      · have hsucc : offset + 1 - c.utf8Size = offset - c.utf8Size + 1 := by omega
        rw [hsucc] at h
        rw [if_neg hle, takeBytes, if_neg hroom, hsucc, ih (by omega)]

theorem boundaryBefore_eq (text : Text) (offset : Nat) :
    text.boundaryBefore offset = byteLength (takeBytes offset text) := by
  induction offset with
  | zero =>
    rw [show takeBytes 0 text = [] from takeBytes_byteLength [] text]
    rfl
  | succ offset ih =>
    rw [boundaryBefore]
    split
    · next hboundary => exact (of_decide_eq_true hboundary).symm
    · next hinside => rw [ih, takeBytes_succ (Bool.eq_false_iff.mpr hinside)]

theorem takeBytes_min (offset : Nat) (text : Text) :
    takeBytes (min offset (byteLength text)) text = takeBytes offset text := by
  induction text generalizing offset with
  | nil => rfl
  | cons c text ih =>
    rw [takeBytes, takeBytes, byteLength]
    by_cases hroom : offset < c.utf8Size
    · rw [if_pos (by omega), if_pos hroom]
    · rw [if_neg (by omega), if_neg hroom, ← ih (offset - c.utf8Size)]
      congr 2
      omega

/-- The lines of a text: what stands before the last line, and the last line. -/
theorem exists_lastLine (text : Text) : ∃ head tail, text = head ++ tail ∧ '\n' ∉ tail ∧
    ({} : Position).after head = ⟨text.count '\n', 0⟩ := by
  induction text using List.reverseRecOn with
  | nil => exact ⟨[], [], rfl, not_mem_nil, rfl⟩
  | append_singleton text c ih =>
    obtain ⟨head, tail, rfl, htail, hhead⟩ := ih
    have hcount : (head ++ tail ++ [c]).count '\n' = (head ++ tail).count '\n' + [c].count '\n' :=
      count_append
    by_cases hc : c = '\n'
    · refine ⟨head ++ tail ++ [c], [], (append_nil _).symm, not_mem_nil, ?_⟩
      rw [hcount, Position.after_append, Position.after_append, hhead,
        Position.after_of_not_mem _ htail, hc]
      rfl
    · refine ⟨head, tail ++ [c], append_assoc .., by simp [htail, Ne.symm hc], ?_⟩
      rw [hhead, hcount, count_singleton, if_neg (by simpa using hc)]
      rfl

/-- Each line of a text starts after some first part of it. -/
theorem exists_lineStart (h : line ≤ text.count '\n') :
    ∃ head rest, text = head ++ rest ∧ ({} : Position).after head = ⟨line, 0⟩ := by
  induction text using List.reverseRecOn with
  | nil =>
    obtain rfl : line = 0 := Nat.le_zero.mp h
    exact ⟨[], [], rfl, rfl⟩
  | append_singleton text c ih =>
    by_cases hline : line ≤ text.count '\n'
    · obtain ⟨head, rest, rfl, hhead⟩ := ih hline
      exact ⟨head, rest ++ [c], append_assoc .., hhead⟩
    · rw [count_append, count_singleton] at h
      have hc : c = '\n' := by
        by_contra hne
        rw [if_neg (by simpa using hne)] at h
        exact hline h
      refine ⟨text ++ [c], [], (append_nil _).symm, ?_⟩
      have hlines := Position.line_after {} text
      rw [if_pos (by simpa using hc)] at h
      rw [Position.after_append, hc]
      change (⟨(({} : Position).after text).line + 1, 0⟩ : Position) = _
      rw [hlines]
      congr 1
      dsimp only
      omega

end Text

namespace LineIndex

open Text

theorem startsAfter_append (here : Nat) (a b : Text) :
    startsAfter here (a ++ b) = startsAfter here a ++ startsAfter (here + byteLength a) b := by
  induction a generalizing here with
  | nil => rfl
  | cons c a ih =>
    rw [cons_append, startsAfter, startsAfter, byteLength, ih, Nat.add_assoc]
    split <;> rfl

theorem mem_startsAfter {here : Nat} (h : start ∈ startsAfter here text) :
    here < start ∧ start ≤ here + byteLength text := by
  induction text generalizing here with
  | nil => cases h
  | cons c text ih =>
    have hpos := c.utf8Size_pos
    have hlater (hmem : start ∈ startsAfter (here + c.utf8Size) text) :
        here < start ∧ start ≤ here + byteLength (c :: text) := by
      have hbounds := ih hmem
      rw [byteLength]
      omega
    rw [startsAfter] at h
    split at h
    · rcases mem_cons.mp h with rfl | hmem
      · rw [byteLength]
        omega
      · exact hlater hmem
    · exact hlater h

theorem length_startsAfter (here : Nat) (text : Text) :
    (startsAfter here text).length = text.count '\n' := by
  induction text generalizing here with
  | nil => rfl
  | cons c text ih =>
    rw [startsAfter, count_cons]
    split
    · next hc => rw [length_cons, ih, if_pos (by simpa using hc)]
    · next hc => rw [ih, if_neg (by simpa using hc)]; rfl

theorem starts_append (a b : Text) :
    (ofText (a ++ b)).starts = 0 :: startsAfter 0 a ++ startsAfter (byteLength a) b := by
  rw [ofText, startsAfter_append, Nat.zero_add, cons_append]

/-- Where a first part of the text ends at the start of a line, the line starts. -/
theorem starts_of_after {head : Text} (h : ({} : Position).after head = ⟨line, 0⟩) (rest : Text) :
    (ofText (head ++ rest)).starts[line]? = some (byteLength head) := by
  have hline : (startsAfter 0 head).length = line := by
    have hlines := Position.line_after {} head
    rw [h, Nat.zero_add] at hlines
    rw [length_startsAfter, ← hlines]
  rw [starts_append, getElem?_append_left (by rw [length_cons, hline]; exact Nat.lt_succ_self _)]
  rcases eq_nil_or_concat head with rfl | ⟨head, c, hlast⟩
  · obtain rfl : 0 = line := hline
    rfl
  · rw [concat_eq_append] at hlast
    subst hlast
    have hc : c = '\n' := by
      by_contra hc
      have hcolumn := congrArg Position.column h
      rw [Position.after_append, Position.after_of_not_mem _ (by simpa using Ne.symm hc)] at hcolumn
      have hpos := units16_pos c
      simp only [length16] at hcolumn
      omega
    have hlast : startsAfter 0 (head ++ [c]) = startsAfter 0 head ++ [byteLength (head ++ [c])] := by
      rw [startsAfter_append, byteLength_append, hc, Nat.zero_add]
      rfl
    rw [hlast, length_append, length_singleton] at hline
    rw [hlast, ← hline, getElem?_cons_succ, getElem?_concat_length]

/-- The table has the starts of lines, and each of them is the end of a first part of the text. -/
theorem starts_eq_some_iff : (ofText text).starts[line]? = some start ↔
    ∃ head rest, text = head ++ rest ∧ ({} : Position).after head = ⟨line, 0⟩ ∧
      byteLength head = start := by
  constructor
  · intro h
    obtain ⟨hlt, -⟩ := List.getElem?_eq_some_iff.mp h
    have hcount : line ≤ text.count '\n' := by
      rw [ofText, length_cons, length_startsAfter] at hlt
      exact Nat.le_of_lt_succ hlt
    obtain ⟨head, rest, rfl, hhead⟩ := exists_lineStart hcount
    exact ⟨head, rest, rfl, hhead, Option.some.inj ((starts_of_after hhead rest).symm.trans h)⟩
  · rintro ⟨head, rest, rfl, hhead, rfl⟩
    exact starts_of_after hhead rest

/-- The lines that start at or before an offset are those of the text before it. -/
theorem lineOf_byteLength (before after : Text) :
    (ofText (before ++ after)).lineOf (byteLength before) = before.count '\n' := by
  have hbefore : ∀ start ∈ 0 :: startsAfter 0 before, decide (start ≤ byteLength before) = true := by
    intro start hmem
    rcases mem_cons.mp hmem with rfl | hmem
    · exact decide_eq_true (Nat.zero_le _)
    · exact decide_eq_true (Nat.zero_add (byteLength before) ▸ (mem_startsAfter hmem).2)
  have hafter : (startsAfter (byteLength before) after).takeWhile (· ≤ byteLength before) = [] := by
    cases hstarts : startsAfter (byteLength before) after with
    | nil => rfl
    | cons start more =>
      have hlt := (mem_startsAfter (hstarts ▸ mem_cons_self)).1
      exact takeWhile_cons_of_neg (by simpa using hlt)
  rw [lineOf, starts_append, takeWhile_append_of_pos hbefore, hafter, append_nil, length_cons,
    length_startsAfter, Nat.add_sub_cancel]

/-- A line ends before its line feed or with the text. -/
theorem lineEnd_eq {head rest : Text} (h : ({} : Position).after head = ⟨line, 0⟩) :
    (ofText (head ++ rest)).lineEnd line =
      byteLength (head ++ rest.takeWhile (· ≠ '\n')) := by
  have hplain : '\n' ∉ rest.takeWhile (· ≠ '\n') := fun hmem => by
    simpa using mem_takeWhile_imp hmem
  have hend := Position.after_of_not_mem (({} : Position).after head) hplain
  have hrest := (takeWhile_append_dropWhile (p := (· ≠ '\n')) (l := rest)).symm
  cases hmore : rest.dropWhile (· ≠ '\n') with
  | nil =>
    rw [hmore, append_nil] at hrest
    have hnone : (ofText (head ++ rest)).starts[line + 1]? = none := by
      refine getElem?_eq_none ?_
      rw [starts_append, length_append, length_cons, length_startsAfter, length_startsAfter]
      have hline := Position.line_after {} head
      rw [h] at hline
      rw [hrest, count_eq_zero.mpr hplain]
      dsimp only at hline
      omega
    rw [lineEnd, hnone, ← hrest]
    rfl
  | cons c more =>
    have hc : c = '\n' := by
      have hhead := head?_dropWhile_not (fun c : Char => decide (c ≠ '\n')) rest
      rw [hmore] at hhead
      simpa using hhead
    rw [hmore, hc] at hrest
    have hnext : ({} : Position).after (head ++ (rest.takeWhile (· ≠ '\n') ++ ['\n'])) =
        ⟨line + 1, 0⟩ := by
      rw [Position.after_append, Position.after_append, hend, h]
      rfl
    have htext : head ++ rest = head ++ (rest.takeWhile (· ≠ '\n') ++ ['\n']) ++ more := by
      rw [append_assoc, append_assoc, singleton_append, ← hrest]
    rw [lineEnd, htext, starts_of_after hnext, ← append_assoc, byteLength_append]
    rfl

theorem columnOffset?_eq_some_iff {column stop units here : Nat} {rest : Text}
    (hstop : stop = here + byteLength rest) :
    columnOffset? column stop units here rest = some offset ↔
      ∃ before after, rest = before ++ after ∧ units + length16 before = column ∧
        here + byteLength before = offset := by
  induction rest generalizing units here with
  | nil =>
    rw [columnOffset?]
    constructor
    · intro h
      split at h
      · next hunits =>
        cases h
        exact ⟨[], [], rfl, hunits, hstop.symm⟩
      · cases h
    · rintro ⟨before, after, hnil, hunits, rfl⟩
      obtain ⟨rfl, rfl⟩ := append_eq_nil_iff.mp hnil.symm
      exact hstop ▸ if_pos hunits
  | cons c rest ih =>
    have hpos := units16_pos c
    have hmore := @ih (units + units16 c) (here + c.utf8Size)
      (by rw [hstop, byteLength, Nat.add_assoc])
    rw [columnOffset?]
    constructor
    · intro h
      split at h
      · next hunits =>
        cases h
        exact ⟨[], c :: rest, rfl, hunits, rfl⟩
      · dsimp only at h
        split at h
        · cases h
        · obtain ⟨before, after, rfl, rfl, rfl⟩ := hmore.mp h
          exact ⟨c :: before, after, rfl, (Nat.add_assoc ..).symm, (Nat.add_assoc ..).symm⟩
    · rintro ⟨before, after, hrest, rfl, rfl⟩
      cases before with
      | nil => exact if_pos rfl
      | cons d before =>
        obtain ⟨rfl, rfl⟩ := List.cons.inj hrest
        rw [length16, byteLength, if_neg (by omega)]
        dsimp only
        rw [if_neg (by omega)]
        exact hmore.mpr ⟨before, after, rfl, Nat.add_assoc .., Nat.add_assoc ..⟩

end LineIndex

namespace Text

open LineIndex

/-- The piece that a column is looked for in is the line. -/
theorem slice?_line {head : Text} (rest : Text) (h : ({} : Position).after head = ⟨line, 0⟩) :
    (head ++ rest).slice? (byteLength head) ((ofText (head ++ rest)).lineEnd line) =
      some (rest.takeWhile (· ≠ '\n')) := by
  have hslice := slice?_append head (rest.takeWhile (· ≠ '\n')) (rest.dropWhile (· ≠ '\n'))
  rw [takeWhile_append_dropWhile] at hslice
  rw [lineEnd_eq h, hslice]

theorem offset?_of_line {head rest : Text} {column : Nat}
    (h : ({} : Position).after head = ⟨line, 0⟩) :
    offsetAt? (head ++ rest) ⟨line, column⟩ =
      columnOffset? column (byteLength head + byteLength (rest.takeWhile (· ≠ '\n'))) 0
        (byteLength head) (rest.takeWhile (· ≠ '\n')) := by
  unfold offsetAt? offset?
  rw [starts_of_after h rest, Option.bind_eq_bind, Option.bind_some]
  dsimp only
  rw [slice?_line rest h, Option.bind_eq_bind, Option.bind_some, lineEnd_eq h, byteLength_append]

/-- A position is at an offset exactly if the text up to that offset ends there. -/
theorem offsetAt?_eq_some_iff {p : Position} :
    offsetAt? text p = some offset ↔
      ∃ before after, text = before ++ after ∧ ({} : Position).after before = p ∧
        byteLength before = offset := by
  constructor
  · intro h
    obtain ⟨start, hstart, -⟩ := Option.bind_eq_some_iff.mp h
    obtain ⟨head, rest, rfl, hhead, rfl⟩ := starts_eq_some_iff.mp hstart
    rw [show p = ⟨p.line, p.column⟩ from rfl, offset?_of_line hhead] at h
    obtain ⟨before, after, hbefore, hcolumn, rfl⟩ := (columnOffset?_eq_some_iff rfl).mp h
    have hplain : '\n' ∉ before := fun hmem => by
      have hmem' : '\n' ∈ rest.takeWhile (· ≠ '\n') := hbefore ▸ mem_append_left _ hmem
      simpa using mem_takeWhile_imp hmem'
    refine ⟨head ++ before, after ++ rest.dropWhile (· ≠ '\n'), ?_, ?_, byteLength_append ..⟩
    · rw [append_assoc, ← append_assoc before, ← hbefore, takeWhile_append_dropWhile]
    · rw [Position.after_append, hhead, Position.after_of_not_mem _ hplain, hcolumn]
  · rintro ⟨before, after, rfl, rfl, rfl⟩
    obtain ⟨head, tail, rfl, htail, hhead⟩ := exists_lastLine before
    have hline : (tail ++ after).takeWhile (· ≠ '\n') = tail ++ after.takeWhile (· ≠ '\n') := by
      refine takeWhile_append_of_pos fun c hc => ?_
      simpa using fun heq : c = '\n' => htail (heq ▸ hc)
    rw [Position.after_append, hhead, Position.after_of_not_mem _ htail, append_assoc,
      offset?_of_line hhead, byteLength_append]
    exact (columnOffset?_eq_some_iff rfl).mpr ⟨tail, after.takeWhile (· ≠ '\n'), hline, rfl, rfl⟩

theorem offsetAt?_after (before after : Text) :
    offsetAt? (before ++ after) (({} : Position).after before) = some (byteLength before) :=
  offsetAt?_eq_some_iff.mpr ⟨before, after, rfl, rfl, rfl⟩

/-- A byte offset has the position that the text up to it ends at. -/
theorem positionAt_eq (text : Text) (offset : Nat) :
    positionAt text offset = ({} : Position).after (takeBytes offset text) := by
  have hboundary : text.boundaryBefore (min offset (ofText text).length) =
      byteLength (takeBytes offset text) := by
    rw [boundaryBefore_eq]
    exact congrArg byteLength (takeBytes_min offset text)
  have htext := takeBytes_append_dropBytes offset text
  unfold positionAt position
  rw [hboundary]
  clear hboundary
  generalize takeBytes offset text = before, dropBytes offset text = after at htext ⊢
  subst htext
  obtain ⟨head, tail, hbefore, htail, hhead⟩ := exists_lastLine before
  have hstart := starts_of_after hhead (tail ++ after)
  rw [← append_assoc, ← hbefore] at hstart
  dsimp only
  rw [lineOf_byteLength, hstart, Option.getD_some, takeBytes_byteLength]
  rw [hbefore, dropBytes_byteLength, Position.after_append, ← hbefore, hhead,
    Position.after_of_not_mem _ htail, Nat.zero_add]

end Text

end Flowchart

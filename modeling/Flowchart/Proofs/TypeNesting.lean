import Flowchart.TypeDesc.Read
import Mathlib.Data.List.Basic

/-!
Nested texts: every bracket is closed by its partner, and some characters stand in brackets only.
The scans of the reader of types pass a nested text without finding a separator in it, so texts that
are joined by a separator are the parts that the scan finds, and a square bracket at the start is
closed by the last character only if it is the partner.
-/
namespace Flowchart.TypeDesc

open List

variable {c separator : Char} {depth : Int} {rest : Text}

/-- The brackets with their partners. -/
def brackets : List (Char × Char) := [('(', ')'), ('<', '>'), ('[', ']')]

def isBracket (c : Char) : Bool := ("()<>[]" : Text).contains c

theorem isBracket_eq_false {p : Char → Bool} (hc : p c) (h : ("()<>[]" : Text).any p = false) :
    isBracket c = false := by
  by_contra hbracket
  have hmem : c ∈ ("()<>[]" : Text) := contains_iff_mem.mp (Bool.of_not_eq_false hbracket)
  exact any_eq_false.mp h c hmem hc

/-- A text in which every bracket is closed by its partner, with none of the given characters outside
all brackets. -/
inductive Nested : (outside : List Char) → Text → Prop
  | nil {outside : List Char} : Nested outside []
  | char {outside : List Char} {c : Char} {rest : Text} (hbracket : isBracket c = false)
      (houtside : c ∉ outside) (hrest : Nested outside rest) : Nested outside (c :: rest)
  | group {outside : List Char} {first last : Char} {inner rest : Text}
      (hpair : (first, last) ∈ brackets) (hinner : Nested [] inner) (hrest : Nested outside rest) :
      Nested outside (first :: (inner ++ last :: rest))

namespace Nested

variable {outside : List Char} {text more : Text}

theorem append (h : Nested outside text) (hmore : Nested outside more) :
    Nested outside (text ++ more) := by
  induction h with
  | nil => exact hmore
  | char hbracket houtside _ ih => exact .char hbracket houtside (ih hmore)
  | group hpair hinner _ _ ih =>
    rw [cons_append, append_assoc]
    exact .group hpair hinner (ih hmore)

theorem mono {fewer : List Char} (h : Nested outside text) (hsub : fewer ⊆ outside) :
    Nested fewer text := by
  induction h with
  | nil => exact .nil
  | char hbracket houtside _ ih => exact .char hbracket (fun hmem => houtside (hsub hmem)) (ih hsub)
  | group hpair hinner _ _ ih => exact .group hpair hinner (ih hsub)

theorem of_chars (h : ∀ c ∈ text, isBracket c = false ∧ c ∉ outside) : Nested outside text := by
  induction text with
  | nil => exact .nil
  | cons c rest ih =>
    obtain ⟨hbracket, houtside⟩ := h c mem_cons_self
    exact .char hbracket houtside (ih fun d hd => h d (mem_cons_of_mem _ hd))

theorem enclosed {first last : Char} (hpair : (first, last) ∈ brackets) (h : Nested [] text) :
    Nested outside (first :: (text ++ [last])) := .group hpair h .nil

def glue (text : Text) : List Text → List Text
  | [] => [text]
  | part :: more => (text ++ part) :: more

theorem glue_append (a b : Text) (parts : List Text) : glue (a ++ b) parts = glue a (glue b parts) := by
  cases parts with
  | nil => rfl
  | cons part more => rw [glue, glue, glue, append_assoc]

/-- What a scan does with a character that is no separator. -/
theorem splitOutside_cons (h : ¬ (c = separator ∧ depth = 0)) :
    splitOutside separator depth (c :: rest) = glue [c] (splitOutside separator
      (if c = '(' ∨ c = '<' ∨ c = '[' then depth + 1
        else if c = ')' ∨ c = '>' ∨ c = ']' then depth - 1 else depth) rest) := by
  rw [splitOutside, if_neg h]
  dsimp only
  split
  · next hparts => rw [hparts]; rfl
  · next hparts => rw [hparts]; rfl

theorem glue_nil {parts : List Text} (h : parts ≠ []) : glue [] parts = parts := by
  cases parts with
  | nil => exact absurd rfl h
  | cons part more => rfl

theorem glue_ne_nil (text : Text) (parts : List Text) : glue text parts ≠ [] := by
  cases parts <;> exact cons_ne_nil _ _

theorem splitOutside_ne_nil (separator : Char) (depth : Int) (text : Text) :
    splitOutside separator depth text ≠ [] := by
  cases text with
  | nil => exact cons_ne_nil _ _
  | cons c rest =>
    by_cases h : c = separator ∧ depth = 0
    · rw [splitOutside, if_pos h]
      exact cons_ne_nil _ _
    · rw [splitOutside_cons h]
      exact glue_ne_nil _ _

theorem splitOutside_plain (hbracket : isBracket c = false) (h : ¬ (c = separator ∧ depth = 0)) :
    splitOutside separator depth (c :: rest) = glue [c] (splitOutside separator depth rest) := by
  have hopen : ¬ (c = '(' ∨ c = '<' ∨ c = '[') := by rintro (rfl | rfl | rfl) <;> cases hbracket
  have hclose : ¬ (c = ')' ∨ c = '>' ∨ c = ']') := by rintro (rfl | rfl | rfl) <;> cases hbracket
  rw [splitOutside_cons h, if_neg hopen, if_neg hclose]

/-- A bracket and its partner take a scan one deeper and back. -/
theorem splitOutside_group {first last : Char} (hpair : (first, last) ∈ brackets)
    (hseparator : isBracket separator = false) (depth : Int) (inner rest : Text) :
    splitOutside separator depth (first :: inner) =
        glue [first] (splitOutside separator (depth + 1) inner) ∧
      splitOutside separator (depth + 1) (last :: rest) =
        glue [last] (splitOutside separator depth rest) := by
  have hne {c : Char} (hc : isBracket c) {d : Int} : ¬ (c = separator ∧ d = 0) := by
    rintro ⟨rfl, -⟩
    rw [hc] at hseparator
    cases hseparator
  have hback : depth + 1 - 1 = depth := by omega
  simp only [brackets, mem_cons, not_mem_nil, or_false] at hpair
  rcases hpair with ⟨rfl, rfl⟩ | ⟨rfl, rfl⟩ | ⟨rfl, rfl⟩ <;>
    rw [splitOutside_cons (hne rfl), splitOutside_cons (hne rfl), if_pos (by decide),
      if_neg (by decide), hback] <;> exact ⟨rfl, rfl⟩

/-- A nested text has no separator of the scan in it, if the scan is in some brackets already or
separators stand in brackets only. -/
theorem splitOutside_append (h : Nested outside text) (hseparator : isBracket separator = false)
    (hdepth : 0 ≤ depth) (hzero : depth = 0 → separator ∈ outside) (rest : Text) :
    splitOutside separator depth (text ++ rest) =
      glue text (splitOutside separator depth rest) := by
  induction h generalizing depth rest with
  | nil => exact (glue_nil (splitOutside_ne_nil _ _ _)).symm
  | @char outside c tail hbracket houtside _ ih =>
    have hplain : ¬ (c = separator ∧ depth = 0) := by
      rintro ⟨rfl, hd⟩
      exact houtside (hzero hd)
    rw [cons_append, splitOutside_plain hbracket hplain, ih hdepth hzero, ← glue_append]
    rfl
  | @group outside first last inner tail hpair hinner _ ihinner ihrest =>
    obtain ⟨hopens, hcloses⟩ := splitOutside_group hpair hseparator depth
      (inner ++ (last :: (tail ++ rest))) (tail ++ rest)
    have hinside := ihinner (by omega : 0 ≤ depth + 1) (by omega) (last :: (tail ++ rest))
    rw [cons_append, append_assoc, cons_append, hopens, hinside, hcloses,
      ihrest hdepth hzero, ← glue_append, ← glue_append, ← glue_append]
    simp only [append_assoc, cons_append, nil_append]

theorem splitOutside_eq (h : Nested outside text) (hseparator : isBracket separator = false)
    (hmem : separator ∈ outside) : splitOutside separator 0 text = [text] := by
  have hsplit := h.splitOutside_append hseparator Int.le_rfl (fun _ => hmem) []
  rw [append_nil] at hsplit
  rw [hsplit, splitOutside, glue, append_nil]

/-- Texts with a separator after each of them but the last are the parts of a scan. -/
theorem splitOutside_intercalate (gap : Text) (hseparator : isBracket separator = false)
    (hgap : Nested [separator] gap) (first : Text) (more : List Text)
    (h : ∀ text ∈ first :: more, Nested [separator] text) :
    splitOutside separator 0 (List.intercalate (separator :: gap) (first :: more)) =
      first :: more.map (gap ++ ·) := by
  have hmem : separator ∈ [separator] := mem_singleton.mpr rfl
  induction more generalizing first with
  | nil =>
    rw [intercalate_singleton]
    exact (h first mem_cons_self).splitOutside_eq hseparator hmem
  | cons second more ih =>
    have hfirst := h first mem_cons_self
    have hrest := ih second fun text htext => h text (mem_cons_of_mem _ htext)
    rw [intercalate_cons_cons, append_assoc, cons_append,
      hfirst.splitOutside_append hseparator Int.le_rfl fun _ => hmem, splitOutside,
      if_pos ⟨rfl, rfl⟩, hgap.splitOutside_append hseparator Int.le_rfl fun _ => hmem, hrest]
    rw [glue, glue, append_nil, map_cons]

/-- The scan for the end of a square bracket passes a nested text. -/
theorem closesAtEnd_append {depth : Nat} (h : Nested outside text) (hdepth : 0 < depth)
    (rest : Text) : closesAtEnd depth (text ++ rest) = closesAtEnd depth rest := by
  induction h generalizing depth rest with
  | nil => rfl
  | char hbracket _ _ ih =>
    rw [cons_append, closesAtEnd, if_neg (by rintro rfl; cases hbracket),
      if_neg (by rintro rfl; cases hbracket)]
    exact ih hdepth rest
  | @group outside first last inner tail hpair hinner _ ihinner ihrest =>
    rw [cons_append, append_assoc, cons_append]
    simp only [brackets, mem_cons, not_mem_nil, or_false] at hpair
    rcases hpair with ⟨rfl, rfl⟩ | ⟨rfl, rfl⟩ | ⟨rfl, rfl⟩
    · rw [closesAtEnd, ihinner hdepth]
      exact ihrest hdepth rest
    · rw [closesAtEnd, ihinner hdepth]
      exact ihrest hdepth rest
    · rw [closesAtEnd, if_pos rfl, ihinner (Nat.succ_pos _), closesAtEnd, if_neg (by decide),
        if_pos rfl, if_neg (by omega)]
      exact ihrest hdepth rest

/-- A nested text that starts with a square bracket is not enclosed by it if something follows. -/
theorem closesAtEnd_eq_false (h : Nested outside text) (hfirst : text.head? = some '[')
    (hrest : rest ≠ []) : closesAtEnd 0 (text ++ rest) = false := by
  cases h with
  | nil => cases hfirst
  | char hbracket =>
    cases hfirst
    cases hbracket
  | @group _ first last inner tail hpair hinner _ =>
    cases hfirst
    obtain rfl : last = ']' := by
      simp only [brackets] at hpair
      simpa using hpair
    rw [cons_append, append_assoc, cons_append, closesAtEnd, if_pos rfl,
      hinner.closesAtEnd_append (Nat.succ_pos _), closesAtEnd, if_neg (by decide), if_pos rfl,
      if_pos rfl, isEmpty_eq_false_iff]
    exact append_ne_nil_of_right_ne_nil _ hrest

theorem closesAtEnd_enclosed (h : Nested outside text) :
    closesAtEnd 0 ('[' :: (text ++ [']'])) := by
  rw [closesAtEnd, h.closesAtEnd_append (Nat.succ_pos _)]
  rfl

end Nested

theorem Nested.intercalate {outside : List Char} {gap : Text} (hgap : Nested outside gap)
    {texts : List Text} (h : ∀ text ∈ texts, Nested outside text) :
    Nested outside (List.intercalate gap texts) := by
  induction texts with
  | nil => exact .nil
  | cons first more ih =>
    have hfirst := h first mem_cons_self
    have hmore := ih fun text htext => h text (mem_cons_of_mem _ htext)
    cases more with
    | nil =>
      rw [intercalate_singleton]
      exact hfirst
    | cons second more =>
      rw [intercalate_cons_cons]
      exact (hfirst.append hgap).append hmore

end Flowchart.TypeDesc

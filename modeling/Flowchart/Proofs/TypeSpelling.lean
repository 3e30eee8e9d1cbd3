import Flowchart.Proofs.Spelling
import Flowchart.Proofs.TypeNesting
import Flowchart.TypeDesc.Format

/-!
Reading a type back from its written form. What is written is nested, and the bars of a union that
is part of another type stand in brackets. So the scans of the reader find the bars of the outermost
union, the commas of a tuple and the bracket that the last one closes. The reader gives back the type
but for what cannot be seen in its text: unions directly in unions, and unions of one member.
-/
namespace Flowchart.TypeDesc

open List Text

variable {gap text : Text} {more : List Text} {mark : Char} {pieces : List (Text × TypeDesc)}
  {resolve : Text → Option ModuleName}

/-- The members of a union, and any other type alone. -/
def alternatives : TypeDesc → List TypeDesc
  | union members => members
  | type => [type]

/-- The union of some types, or the type itself if there is one only. -/
def collapse : List TypeDesc → TypeDesc
  | [type] => type
  | types => union types

mutual

/-- The type with the members of a union in place of a union in a union, and with its member in place
of a union of one member. -/
def normal : TypeDesc → TypeDesc
  | array element size => array (normal element) size
  | map value => map (normal value)
  | stream value => stream (normal value)
  | optional inner => optional (normal inner)
  | union members => collapse (normalAlternatives members)
  | tuple members => tuple (normalEach members)
  | type => type

def normalEach : List TypeDesc → List TypeDesc
  | [] => []
  | type :: rest => normal type :: normalEach rest

def normalAlternatives : List TypeDesc → List TypeDesc
  | [] => []
  | type :: rest => alternatives (normal type) ++ normalAlternatives rest

end

/-- The characters that have a meaning in the text of a type. -/
def signs : Text := "|?[]()<>,:"

/-- A name without blanks and signs. -/
def isPlainName (name : Text) : Bool :=
  !name.isEmpty && name.all fun c => !isBlank c && !signs.contains c

/-- A module that is found by its qualifier. -/
def isResolved (resolve : Text → Option ModuleName) (module : ModuleName) : Bool :=
  isPlainName module.qualifier && resolve module.qualifier = some module

mutual

/-- The text of the type tells what it is. There is no function in it and no union without members;
its names are plain; a name without a module is not that of a builtin type; a name with a module
ends in `Error` if the type is an error and only then, and the module is found by its qualifier. -/
def isWritable (resolve : Text → Option ModuleName) : TypeDesc → Bool
  | basic _ => true
  | error none none => true
  | error (some module) (some name) =>
    isResolved resolve module && isPlainName name && isSuffixOf "Error" name
  | error _ _ => false
  | named none name => isPlainName name && (builtin? name).isNone
  | named (some module) name =>
    isResolved resolve module && isPlainName name && !List.isSuffixOf "Error" name
  | array element size => isWritable resolve element && size.all (· ≤ maxNatural)
  | map value => isWritable resolve value
  | stream value => isWritable resolve value
  | optional inner => isWritable resolve inner
  | union members => !members.isEmpty && allWritable resolve members
  | tuple members => allWritable resolve members
  | function _ _ => false

def allWritable (resolve : Text → Option ModuleName) : List TypeDesc → Bool
  | [] => true
  | type :: rest => isWritable resolve type && allWritable resolve rest

end

theorem formatEach_eq (current : Option ModuleName) (place : Strength) (types : List TypeDesc) :
    formatEach current place types = types.map (formatAt current place) := by
  induction types with
  | nil => rfl
  | cons type rest ih => rw [formatEach, map_cons, ih]

theorem normalEach_eq (types : List TypeDesc) : normalEach types = types.map normal := by
  induction types with
  | nil => rfl
  | cons type rest ih => rw [normalEach, map_cons, ih]

theorem alternatives_collapse {types : List TypeDesc} (hne : types ≠ [])
    (h : ∀ type ∈ types, alternatives type = [type]) : alternatives (collapse types) = types := by
  unfold collapse
  split
  · exact h _ (mem_singleton.mpr rfl)
  · rfl

/-- A text that is not empty, with no blanks at its ends. -/
structure Solid (text : Text) : Prop where
  first : text.head?.any isBlank = false
  last : ∃ c, text.getLast? = some c ∧ isBlank c = false

namespace Solid

theorem ne_nil (h : Solid text) : text ≠ [] := by
  obtain ⟨c, hlast, -⟩ := h.last
  rintro rfl
  cases hlast

theorem head?_append (h : Solid text) (more : Text) : (text ++ more).head? = text.head? := by
  obtain ⟨c, rest, rfl⟩ := exists_cons_of_ne_nil h.ne_nil
  rfl

/-- Blanks before a solid text are what is trimmed. -/
theorem trim_append (h : Solid text) (hgap : gap.all isBlank) :
    trim (gap ++ text) = text := by
  obtain ⟨c, hlast, hblank⟩ := h.last
  have htrim := Text.trim_append hgap all_nil h.first hlast hblank
  rwa [append_nil] at htrim

theorem trim_eq (h : Solid text) : trim text = text := h.trim_append all_nil

theorem append {more : Text} (h : Solid text) (hmore : Solid more) : Solid (text ++ more) := by
  obtain ⟨c, hlast, hblank⟩ := hmore.last
  refine ⟨?_, c, ?_, hblank⟩
  · rw [h.head?_append]
    exact h.first
  · rw [getLast?_append, hlast]
    rfl

theorem char {c : Char} (h : isBlank c = false) : Solid [c] :=
  ⟨h, c, rfl, h⟩

/-- Two characters around a text make it solid. -/
theorem enclosed {first last : Char} (hfirst : isBlank first = false)
    (hlast : isBlank last = false) (text : Text) : Solid (first :: (text ++ [last])) := by
  refine ⟨hfirst, last, ?_, hlast⟩
  rw [← cons_append, getLast?_concat]

theorem of_chars (hne : text ≠ []) (h : ∀ c ∈ text, isBlank c = false) : Solid text := by
  refine ⟨?_, text.getLast hne, getLast?_eq_some_getLast hne, h _ (getLast_mem hne)⟩
  cases text with
  | nil => rfl
  | cons c rest => exact h c mem_cons_self

theorem intercalate {first : Text} (h : ∀ text ∈ first :: more, Solid text) :
    Solid (intercalate gap (first :: more)) := by
  induction more generalizing first with
  | nil =>
    rw [intercalate_singleton]
    exact h first mem_cons_self
  | cons second more ih =>
    have hfirst := h first mem_cons_self
    have hmore := ih fun text htext => h text (mem_cons_of_mem _ htext)
    obtain ⟨c, hlast, hblank⟩ := hmore.last
    rw [intercalate_cons_cons, append_assoc]
    refine ⟨?_, c, ?_, hblank⟩
    · rw [hfirst.head?_append]
      exact hfirst.first
    · rw [getLast?_append, getLast?_append, hlast]
      rfl

end Solid

/-- The text is that of a type: it is nested, and whatever bound is large enough for it, it is read
as the type. -/
structure Spells (resolve : Text → Option ModuleName) (outside : List Char) (text : Text)
    (type : TypeDesc) : Prop where
  nested : Nested outside text
  solid : Solid text
  reads : ∀ bound, text.length < bound → readWithin resolve bound text = type

theorem stripEnd?_concat (mark c : Char) (text : Text) :
    stripEnd? mark (text ++ [c]) = if c = mark then some text else none := by
  unfold stripEnd?
  rw [getLast?_concat, dropLast_concat]
  simp only [Option.some.injEq]

theorem cutLast_append {a b : Text} (h : mark ∉ b) :
    cutLast mark (a ++ mark :: b) = some (a, b) := by
  unfold cutLast
  rw [reverse_append, reverse_cons, append_assoc, singleton_append,
    cut_append (by rwa [mem_reverse]), Option.map_some]
  dsimp only
  rw [reverse_reverse, reverse_reverse]

/-- The text of the size of an array. -/
def sizeText (size : Option Nat) : Text := (size.map ofNat).getD []

theorem isDigit_of_mem_sizeText {size : Option Nat} {c : Char} (h : c ∈ sizeText size) :
    c.isDigit := by
  cases size with
  | none => cases h
  | some n => exact Nat.isDigit_of_mem_toDigits (by omega) (by omega) h

theorem natural?_sizeText {size : Option Nat} (h : size.all (· ≤ maxNatural)) :
    natural? (trim (sizeText size)) = size := by
  cases size with
  | none => rfl
  | some n =>
    have hne : ofNat n ≠ [] := Nat.toDigits_ne_nil
    have hdigit : ∀ c ∈ ofNat n, c.isDigit := fun c hc =>
      @isDigit_of_mem_sizeText (some n) c hc
    have hsolid : Solid (ofNat n) := .of_chars hne fun c hc =>
      isBlank_of_isWordPart (word_of_isDigit (hdigit c hc)).2
    have hplus : stripStart? "+" (ofNat n) = none := by
      obtain ⟨c, rest, hdigits⟩ := exists_cons_of_ne_nil hne
      rw [hdigits]
      refine if_neg ?_
      rintro rfl
      cases hdigit '+' (by rw [hdigits]; exact mem_cons_self ..)
    have hvalue : decimalValue (ofNat n) = n := Nat.ofDigitChars_ten_toDigits
    have hle : n ≤ maxNatural := of_decide_eq_true h
    change natural? (trim (ofNat n)) = some n
    rw [hsolid.trim_eq, natural?, hplus, Option.getD_none, hvalue]
    simp only [isEmpty_eq_false_iff.mpr hne, all_eq_true.mpr hdigit, hle, decide_true,
      Bool.not_false, Bool.and_self, if_true]

namespace Spells

variable {outside : List Char} {type : TypeDesc}

/-- Blanks before a text do not matter. -/
theorem reads_append (h : Spells resolve outside text type) {bound : Nat}
    (hgap : gap.all isBlank) (hbound : text.length < bound) :
    readWithin resolve bound (gap ++ text) = type := by
  obtain ⟨bound, rfl⟩ : ∃ less, bound = less + 1 := ⟨bound - 1, by omega⟩
  rw [← h.reads (bound + 1) hbound, readWithin, readWithin, h.solid.trim_append hgap,
    h.solid.trim_eq]

theorem weaken {fewer : List Char} (h : Spells resolve outside text type) (hsub : fewer ⊆ outside) :
    Spells resolve fewer text type := ⟨h.nested.mono hsub, h.solid, h.reads⟩

/-- To be read, a text without bars outside brackets takes one step of the reader. -/
theorem of_step (hnested : Nested ['|', ','] text) (hsolid : Solid text)
    (hreads : ∀ bound, text.length ≤ bound → splitOutside '|' 0 text = [text] →
      trim text = text → readWithin resolve (bound + 1) text = type) :
    Spells resolve ['|', ','] text type := by
  refine ⟨hnested, hsolid, fun bound hbound => ?_⟩
  obtain ⟨bound, rfl⟩ : ∃ less, bound = less + 1 := ⟨bound - 1, by omega⟩
  exact hreads bound (by omega) (hnested.splitOutside_eq rfl mem_cons_self)
    hsolid.trim_eq

theorem optional (h : Spells resolve ['|', ','] text type) :
    Spells resolve ['|', ','] (text ++ "?") (.optional type) := by
  refine of_step (h.nested.append (.char rfl (by decide) .nil))
    (h.solid.append (.char (by decide))) fun bound hbound hsplit htrim => ?_
  have hstrip : stripEnd? '?' (text ++ "?") = some text := stripEnd?_concat ..
  rw [length_append] at hbound
  simp only [readWithin, htrim, hsplit, hstrip]
  rw [h.reads bound (by change text.length + 1 ≤ bound at hbound; omega)]

theorem array {size : Option Nat} (h : Spells resolve ['|', ','] text type)
    (hsize : size.all (· ≤ maxNatural)) :
    Spells resolve ['|', ','] (text ++ "[" ++ (sizeText size ++ "]"))
      (.array type size) := by
  have hwhole : text ++ "[" ++ (sizeText size ++ "]") = text ++ '[' :: (sizeText size ++ [']']) :=
    append_assoc ..
  have hnested : Nested [] (sizeText size) := .of_chars fun c hc =>
    ⟨isBracket_eq_false (isDigit_of_mem_sizeText hc) (by decide), not_mem_nil⟩
  have hnot : '[' ∉ sizeText size := fun hmem => by cases isDigit_of_mem_sizeText hmem
  rw [hwhole]
  refine of_step (h.nested.append (.enclosed (by decide) hnested))
    (h.solid.append (.enclosed (by decide) (by decide) _)) fun bound hbound hsplit htrim => ?_
  have hlast (mark : Char) : stripEnd? mark
      (text ++ '[' :: (sizeText size ++ [']'])) =
      if ']' = mark then some (text ++ '[' :: sizeText size) else none := by
    rw [← cons_append, ← append_assoc, stripEnd?_concat]
  have hbracketed : bracketed? (text ++ '[' :: (sizeText size ++ [']'])) = none := by
    refine if_neg ?_
    rintro ⟨hfirst, -, hcloses⟩
    rw [h.solid.head?_append] at hfirst
    rw [h.nested.closesAtEnd_eq_false hfirst (cons_ne_nil _ _)] at hcloses
    cases hcloses
  have hparts : arrayParts? (text ++ '[' :: (sizeText size ++ [']'])) =
      some (text, sizeText size) := by
    unfold arrayParts?
    rw [hlast]
    exact cutLast_append hnot
  rw [length_append] at hbound
  simp only [readWithin, htrim, hsplit, (hlast '?').trans (if_neg (by decide)), hbracketed, hparts,
    natural?_sizeText hsize]
  rw [h.reads bound (by rw [length_cons] at hbound; omega)]

/-- A text that starts with one character and ends with another. -/
theorem stripEnd?_enclosed {first last : Char} (h : last ≠ mark) (text : Text) :
    stripEnd? mark (first :: (text ++ [last])) = none := by
  rw [← cons_append, stripEnd?_concat, if_neg h]

theorem parenthesized (h : Spells resolve outside text type) :
    Spells resolve ['|', ','] ("(" ++ text ++ ")") type := by
  change Spells resolve ['|', ','] ('(' :: (text ++ [')'])) type
  refine of_step (.enclosed (by decide) (h.nested.mono (nil_subset _)))
    (.enclosed (by decide) (by decide) _) fun bound hbound hsplit htrim => ?_
  have hbracketed : bracketed? ('(' :: (text ++ [')'])) = none :=
    if_neg fun ⟨hfirst, _⟩ => by cases hfirst
  have hparts : arrayParts? ('(' :: (text ++ [')'])) = none := by
    unfold arrayParts?
    rw [stripEnd?_enclosed (by decide)]
    rfl
  have hinner : parenthesized? ('(' :: (text ++ [')'])) = some text := by
    have hlength : 0 < text.length := length_pos_iff.mpr h.solid.ne_nil
    unfold parenthesized?
    rw [if_pos]
    · rw [tail_cons, dropLast_concat]
    · refine ⟨rfl, ?_, ?_⟩
      · rw [← cons_append, getLast?_concat]
      · rw [length_cons, length_append]
        change 2 < text.length + 1 + 1
        omega
  rw [length_cons, length_append] at hbound
  simp only [readWithin, htrim, hsplit, stripEnd?_enclosed (show ')' ≠ '?' by decide), hbracketed,
    hparts, hinner]
  exact h.reads bound (by omega)

/-- A text that starts with a letter and ends with an angle bracket has none of the forms that the
reader looks for before those of a map and a stream. -/
theorem generic_step (first : Char) (rest : Text) (hsquare : first ≠ '[') (hround : first ≠ '(') :
    stripEnd? '?' (first :: (rest ++ ['>'])) = none ∧
      bracketed? (first :: (rest ++ ['>'])) = none ∧
      arrayParts? (first :: (rest ++ ['>'])) = none ∧
      parenthesized? (first :: (rest ++ ['>'])) = none := by
  refine ⟨stripEnd?_enclosed (by decide) _, if_neg ?_, ?_, if_neg ?_⟩
  · rintro ⟨hhead, -⟩
    exact hsquare (Option.some.inj hhead)
  · unfold arrayParts?
    rw [stripEnd?_enclosed (by decide)]
    rfl
  · rintro ⟨hhead, -⟩
    exact hround (Option.some.inj hhead)

theorem argument?_append {keyword rest : Text} :
    argument? keyword (keyword ++ '<' :: (rest ++ ['>'])) = some rest := by
  have hstrip : stripStart? keyword (keyword ++ '<' :: (rest ++ ['>'])) =
      some ('<' :: (rest ++ ['>'])) := by
    induction keyword with
    | nil => rfl
    | cons c keyword ih =>
      rw [cons_append, stripStart?, if_pos rfl]
      exact ih
  unfold argument?
  rw [hstrip]
  change stripEnd? '>' (rest ++ ['>']) = some rest
  rw [stripEnd?_concat, if_pos rfl]

theorem map (h : Spells resolve outside text type) :
    Spells resolve ['|', ','] ("map<" ++ text ++ ">") (.map type) := by
  have hword : Nested ['|', ','] "map" :=
    .of_chars (forall_iff_forall_mem.mp (by decide))
  have hgroup : Nested ['|', ','] ('<' :: (text ++ ['>'])) :=
    .enclosed (by decide) (h.nested.mono (nil_subset _))
  change Spells resolve ['|', ','] ('m' :: ('a' :: 'p' :: '<' :: text ++ ['>'])) (.map type)
  refine of_step (hword.append hgroup) (.enclosed (by decide) (by decide) _)
    fun bound hbound hsplit htrim => ?_
  obtain ⟨hoptional, htuple, harray, hgrouped⟩ :=
    generic_step 'm' ('a' :: 'p' :: '<' :: text) (by decide) (by decide)
  have hargument : argument? "map" ('m' :: ('a' :: 'p' :: '<' :: text ++ ['>'])) = some text :=
    argument?_append
  simp only [length_cons, length_append] at hbound
  simp only [readWithin, htrim, hsplit, hoptional, htuple, harray, hgrouped, hargument]
  rw [h.reads bound (by omega)]

theorem stream (h : Spells resolve outside text type) :
    Spells resolve ['|', ','] ("stream<" ++ text ++ ">") (.stream type) := by
  have hword : Nested ['|', ','] "stream" :=
    .of_chars (forall_iff_forall_mem.mp (by decide))
  have hgroup : Nested ['|', ','] ('<' :: (text ++ ['>'])) :=
    .enclosed (by decide) (h.nested.mono (nil_subset _))
  let body : Text := 't' :: 'r' :: 'e' :: 'a' :: 'm' :: '<' :: text
  change Spells resolve ['|', ','] ('s' :: (body ++ ['>'])) (.stream type)
  refine of_step (hword.append hgroup) (.enclosed (by decide) (by decide) _)
    fun bound hbound hsplit htrim => ?_
  obtain ⟨hoptional, htuple, harray, hgrouped⟩ := generic_step 's' body (by decide) (by decide)
  have hmap : argument? "map" ('s' :: (body ++ ['>'])) = none := rfl
  have hargument : argument? "stream" ('s' :: (body ++ ['>'])) = some text := argument?_append
  simp only [body, length_cons, length_append] at hbound
  simp only [readWithin, htrim, hsplit, hoptional, htuple, harray, hgrouped, hmap, hargument]
  rw [h.reads bound (by omega)]

/-- The parts of a tuple that are not blank are read one by one. -/
theorem reads_parts {bound : Nat} {parts : List Text}
    (h : Forall₂ (fun part piece => Spells resolve outside piece.1 piece.2 ∧ piece.1.length <
      bound ∧ ∃ gap : Text, part = gap ++ piece.1 ∧ gap.all isBlank) parts pieces) :
    (parts.filter fun part => !(trim part).isEmpty).map (readWithin resolve bound) =
      pieces.map Prod.snd := by
  induction h with
  | nil => rfl
  | cons hpart _ ih =>
    obtain ⟨hspells, hbound, gap, rfl, hgap⟩ := hpart
    have hne := isEmpty_eq_false_iff.mpr hspells.solid.ne_nil
    rw [filter_cons_of_pos (by rw [hspells.solid.trim_append hgap, hne]; rfl), map_cons,
      map_cons, ih, hspells.reads_append hgap hbound]

theorem mem_le_intercalate (gap : Text) {texts : List Text} (h : text ∈ texts) :
    text.length ≤ (intercalate gap texts).length := by
  induction texts with
  | nil => cases h
  | cons first more ih =>
    cases more with
    | nil =>
      obtain rfl := mem_singleton.mp h
      rw [intercalate_singleton]
    | cons second more =>
      rw [intercalate_cons_cons, length_append, length_append]
      rcases mem_cons.mp h with rfl | hmore
      · omega
      · have hle := ih hmore
        omega

theorem mem_add_le_intercalate (gap : Text) {first second : Text}
    (h : text ∈ first :: second :: more) :
    text.length + gap.length ≤ (intercalate gap (first :: second :: more)).length := by
  rw [intercalate_cons_cons, length_append, length_append]
  rcases mem_cons.mp h with rfl | hmore
  · omega
  · have hle := mem_le_intercalate gap hmore
    omega

theorem tuple (h : ∀ piece ∈ pieces, Spells resolve [','] piece.1 piece.2) :
    Spells resolve ['|', ','] ("[" ++ intercalate ", " (pieces.map Prod.fst) ++ "]")
      (.tuple (pieces.map Prod.snd)) := by
  generalize hinner : intercalate ", " (pieces.map Prod.fst) = inner
  have hnested : Nested [] inner := by
    rw [← hinner]
    refine Nested.intercalate (.of_chars (forall_iff_forall_mem.mp (by decide)))
      fun text htext => ?_
    obtain ⟨piece, hpiece, rfl⟩ := mem_map.mp htext
    exact (h piece hpiece).nested.mono (nil_subset _)
  change Spells resolve ['|', ','] ('[' :: (inner ++ [']'])) _
  refine of_step (.enclosed (by decide) hnested) (.enclosed (by decide) (by decide) _)
    fun bound hbound hsplit htrim => ?_
  have hbracketed : bracketed? ('[' :: (inner ++ [']'])) = some inner := by
    unfold bracketed?
    rw [if_pos, tail_cons, dropLast_concat]
    refine ⟨rfl, ?_, hnested.closesAtEnd_enclosed⟩
    rw [← cons_append, getLast?_concat]
  simp only [readWithin, htrim, hsplit, stripEnd?_enclosed (show ']' ≠ '?' by decide), hbracketed]
  congr 1
  simp only [length_cons, length_append] at hbound
  have hlength : ∀ piece ∈ pieces, piece.1.length < bound := fun piece hpiece => by
    have hle := mem_le_intercalate ", " (mem_map_of_mem hpiece : piece.1 ∈ pieces.map Prod.fst)
    rw [hinner] at hle
    omega
  cases pieces with
  | nil =>
    rw [← hinner]
    rfl
  | cons first more =>
    have hparts : splitOutside ',' 0 inner =
        first.1 :: (more.map Prod.fst).map ([' '] ++ ·) := by
      rw [← hinner]
      refine Nested.splitOutside_intercalate [' '] rfl (.char rfl (by decide) .nil) _ _ ?_
      intro text (htext : text ∈ (first :: more).map Prod.fst)
      obtain ⟨piece, hpiece, rfl⟩ := mem_map.mp htext
      exact (h piece hpiece).nested
    rw [hparts, map_map]
    refine reads_parts (.cons ⟨h first mem_cons_self, hlength _ mem_cons_self, [],
      rfl, rfl⟩ (forall₂_map_left_iff.mpr (forall₂_same.mpr fun piece hpiece => ?_)))
    exact ⟨h piece (mem_cons_of_mem _ hpiece), hlength _ (mem_cons_of_mem _ hpiece), [' '],
      rfl, rfl⟩

/-- The members of a union are read one by one, if there are several. -/
theorem union (hne : pieces ≠ []) (h : ∀ piece ∈ pieces, Spells resolve ['|', ','] piece.1 piece.2) :
    Spells resolve [','] (intercalate "|" (pieces.map Prod.fst))
      (collapse (pieces.map Prod.snd)) := by
  have hnested : ∀ text ∈ pieces.map Prod.fst, Nested ['|', ','] text := fun text htext => by
    obtain ⟨piece, hpiece, rfl⟩ := mem_map.mp htext
    exact (h piece hpiece).nested
  have hsolid : ∀ text ∈ pieces.map Prod.fst, Solid text := fun text htext => by
    obtain ⟨piece, hpiece, rfl⟩ := mem_map.mp htext
    exact (h piece hpiece).solid
  match pieces with
  | [] => exact absurd rfl hne
  | [piece] =>
    rw [map_cons, map_nil, intercalate_singleton]
    exact (h piece mem_cons_self).weaken (by decide)
  | first :: second :: more =>
    have hsplit : splitOutside '|' 0
        (intercalate "|" ((first :: second :: more).map Prod.fst)) =
        (first :: second :: more).map Prod.fst := by
      have hparts : splitOutside '|' 0
          (intercalate ['|'] (first.1 :: (second :: more).map Prod.fst)) =
          first.1 :: ((second :: more).map Prod.fst).map ([] ++ ·) :=
        Nested.splitOutside_intercalate [] rfl .nil _ _ fun text htext =>
          (hnested text htext).mono (by decide)
      simp only [nil_append, map_id'] at hparts
      exact hparts
    have hwhole : Solid (intercalate "|" ((first :: second :: more).map Prod.fst)) :=
      .intercalate hsolid
    refine ⟨.intercalate (.char rfl (by decide) .nil) fun text htext =>
      (hnested text htext).mono (by decide), hwhole, fun bound hbound => ?_⟩
    obtain ⟨bound, rfl⟩ : ∃ less, bound = less + 1 := ⟨bound - 1, by omega⟩
    have hagain : ((first :: second :: more).map Prod.fst).map (readWithin resolve bound) =
        (first :: second :: more).map Prod.snd := by
      rw [map_map]
      refine map_congr_left fun piece hpiece => (h piece hpiece).reads bound ?_
      have hlength := mem_add_le_intercalate "|"
        (mem_map_of_mem hpiece : piece.1 ∈ (first :: second :: more).map Prod.fst)
      change piece.1.length + 1 ≤ _ at hlength
      simp only [map_cons] at hbound
      omega
    simp only [readWithin, hwhole.trim_eq, hsplit]
    exact congrArg TypeDesc.union hagain

theorem stripEnd?_eq_none (h : mark ∉ text) : stripEnd? mark text = none :=
  if_neg fun hlast => h (mem_of_getLast? hlast)

theorem stripStart?_eq_some {head rest : Text} (h : stripStart? head text = some rest) :
    text = head ++ rest := by
  induction head generalizing text with
  | nil =>
    cases h
    rfl
  | cons c head ih =>
    cases text with
    | nil => cases h
    | cons d text =>
      rw [stripStart?] at h
      split at h
      · next hsame => rw [cons_append, ← ih h, hsame]
      · cases h

theorem argument?_eq_none {keyword : Text} (h : '<' ∉ text) : argument? keyword text = none := by
  unfold argument?
  cases hkeyword : stripStart? keyword text with
  | none => rfl
  | some rest =>
    cases hangle : stripStart? "<" (trimStart rest) with
    | none =>
      change (stripStart? "<" (trimStart rest)).bind _ = none
      rw [hangle]
      rfl
    | some inner =>
      have hmem : '<' ∈ trimStart rest := by
        rw [stripStart?_eq_some hangle]
        exact mem_cons_self ..
      refine absurd ?_ h
      rw [stripStart?_eq_some hkeyword]
      exact mem_append_right _ (dropWhile_sublist _ |>.subset hmem)

/-- A text without signs but for colons is read as a name. -/
theorem name (hne : text ≠ []) (h : ∀ c ∈ text, isBlank c = false ∧
    c ∉ ("|?[]()<>," : Text)) : Spells resolve ['|', ','] text (ofName resolve text) := by
  have hnot {c : Char} (hc : c ∈ ("|?[]()<>," : Text)) : c ∉ text := fun hmem => (h c hmem).2 hc
  have hnested : Nested ['|', ','] text := by
    have hbrackets : ("()<>[]" : Text) ⊆ "|?[]()<>," := by decide
    have hbars : ['|', ','] ⊆ "|?[]()<>," := by decide
    refine .of_chars fun c hc => ⟨?_, fun hmem => (h c hc).2 (hbars hmem)⟩
    rw [isBracket, contains_eq_mem, decide_eq_false_iff_not]
    exact fun hmem => (h c hc).2 (hbrackets hmem)
  refine of_step hnested (.of_chars hne fun c hc => (h c hc).1) fun bound _ hsplit htrim => ?_
  have hbracketed : bracketed? text = none :=
    if_neg fun hboth => hnot (by decide) (mem_of_mem_head? hboth.1)
  have hparts : arrayParts? text = none := by
    unfold arrayParts?
    rw [stripEnd?_eq_none (hnot (by decide))]
    rfl
  have hgrouped : parenthesized? text = none :=
    if_neg fun hboth => hnot (by decide) (mem_of_mem_head? hboth.1)
  have hangle : '<' ∉ text := hnot (by decide)
  simp only [readWithin, htrim, hsplit, stripEnd?_eq_none (hnot (show '?' ∈ _ by decide)),
    hbracketed, hparts, hgrouped, argument?_eq_none hangle]

end Spells

/-- The text of a type is made of those of its alternatives, with bars between them. -/
def Writes (resolve : Text → Option ModuleName) (text : Text) (type : TypeDesc) : Prop :=
  ∃ pieces : List (Text × TypeDesc), pieces ≠ [] ∧
    text = intercalate "|" (pieces.map Prod.fst) ∧ type = collapse (pieces.map Prod.snd) ∧
    ∀ piece ∈ pieces, Spells resolve ['|', ','] piece.1 piece.2 ∧
      alternatives piece.2 = [piece.2]

namespace Writes

variable {type : TypeDesc}

theorem of_spells (h : Spells resolve ['|', ','] text type) (htype : alternatives type = [type]) :
    Writes resolve text type := by
  refine ⟨[(text, type)], cons_ne_nil _ _, ?_, rfl, fun piece hpiece => ?_⟩
  · exact (intercalate_singleton ..).symm
  · obtain rfl := mem_singleton.mp hpiece
    exact ⟨h, htype⟩

theorem spells (h : Writes resolve text type) : Spells resolve [','] text type := by
  obtain ⟨pieces, hne, rfl, rfl, hpieces⟩ := h
  exact .union hne fun piece hpiece => (hpieces piece hpiece).1

theorem alternatives_eq (hne : pieces ≠ []) (h : ∀ piece ∈ pieces, alternatives piece.2 = [piece.2]) :
    alternatives (collapse (pieces.map Prod.snd)) = pieces.map Prod.snd := by
  refine alternatives_collapse (map_eq_nil_iff.not.mpr hne) fun type htype => ?_
  obtain ⟨piece, hpiece, rfl⟩ := mem_map.mp htype
  exact h piece hpiece

/-- The text of a type that is no union has no bars outside brackets. -/
theorem spells_alone (h : Writes resolve text type) (htype : alternatives type = [type]) :
    Spells resolve ['|', ','] text type := by
  obtain ⟨pieces, hne, rfl, rfl, hpieces⟩ := h
  have hone := alternatives_eq hne fun piece hpiece => (hpieces piece hpiece).2
  rw [htype] at hone
  obtain ⟨piece, rfl, -⟩ := map_eq_singleton_iff.mp hone.symm
  rw [map_singleton, intercalate_singleton]
  exact (hpieces piece mem_cons_self).1

end Writes

theorem intercalate_append {texts : List Text} (htexts : texts ≠ []) (hmore : more ≠ []) :
    intercalate gap (texts ++ more) =
      intercalate gap texts ++ gap ++ intercalate gap more := by
  induction texts with
  | nil => exact absurd rfl htexts
  | cons first texts ih =>
    cases texts with
    | nil =>
      obtain ⟨second, more, rfl⟩ := exists_cons_of_ne_nil hmore
      rw [intercalate_singleton]
      exact intercalate_cons_cons
    | cons second texts =>
      have hrest := ih (cons_ne_nil _ _)
      rw [cons_append, cons_append, intercalate_cons_cons, ← cons_append, hrest,
        intercalate_cons_cons]
      simp only [append_assoc]

/-- The written form of a union is made of those of its members. -/
theorem writes_union {members : List TypeDesc} (hne : members ≠ [])
    (h : ∀ member ∈ members, Writes resolve (formatAt none .union member) (normal member)) :
    ∃ pieces : List (Text × TypeDesc), pieces ≠ [] ∧
      intercalate "|" (members.map (formatAt none .union)) =
        intercalate "|" (pieces.map Prod.fst) ∧
      normalAlternatives members = pieces.map Prod.snd ∧
      ∀ piece ∈ pieces, Spells resolve ['|', ','] piece.1 piece.2 ∧
        alternatives piece.2 = [piece.2] := by
  induction members with
  | nil => exact absurd rfl hne
  | cons member rest ih =>
    obtain ⟨pieces, hpiecesNe, htext, htype, hpieces⟩ := h member mem_cons_self
    have halternatives : alternatives (normal member) = pieces.map Prod.snd := by
      rw [htype]
      exact Writes.alternatives_eq hpiecesNe fun piece hpiece => (hpieces piece hpiece).2
    cases rest with
    | nil =>
      refine ⟨pieces, hpiecesNe, ?_, ?_, hpieces⟩
      · rw [map_singleton, intercalate_singleton, htext]
      · rw [normalAlternatives, normalAlternatives, append_nil, halternatives]
    | cons second rest =>
      obtain ⟨more, hmoreNe, hmoreText, hmoreType, hmore⟩ := ih (cons_ne_nil _ _)
        fun other hother => h other (mem_cons_of_mem _ hother)
      refine ⟨pieces ++ more, append_ne_nil_of_left_ne_nil hpiecesNe _, ?_, ?_, ?_⟩
      · rw [map_append, intercalate_append (map_eq_nil_iff.not.mpr hpiecesNe)
          (map_eq_nil_iff.not.mpr hmoreNe), ← hmoreText, ← htext, map_cons, map_cons,
          intercalate_cons_cons]
      · rw [normalAlternatives, halternatives, hmoreType, map_append]
      · intro piece hpiece
        rcases mem_append.mp hpiece with hfirst | hsecond
        · exact hpieces piece hfirst
        · exact hmore piece hsecond

/-- The place that a type is written in matters for unions only, if there are no functions. -/
theorem formatAt_union {type : TypeDesc} (h : isWritable resolve type) :
    formatAt none .union type = formatAt none .function type := by
  cases type with
  | function => cases h
  | error module name => cases name <;> rfl
  | _ => rfl

theorem spells_suffix {type : TypeDesc} (hwritable : isWritable resolve type)
    (h : Writes resolve (formatAt none .function type) (normal type)) :
    Spells resolve ['|', ','] (formatAt none .suffix type) (normal type) := by
  cases type with
  | function => cases hwritable
  | union members => exact h.spells.parenthesized
  | error module name => cases name <;> exact h.spells_alone rfl
  | _ => exact h.spells_alone rfl

theorem isPlainName_eq_true {name : Text} (h : isPlainName name) :
    name ≠ [] ∧ ∀ c ∈ name, isBlank c = false ∧ c ∉ signs := by
  simp only [isPlainName, Bool.and_eq_true, Bool.not_eq_true', isEmpty_eq_false_iff,
    all_eq_true, contains_eq_mem, decide_eq_false_iff_not] at h
  exact h

theorem cut_eq_none (h : mark ∉ text) : cut mark text = none := by
  induction text with
  | nil => rfl
  | cons c rest ih =>
    rw [mem_cons, not_or] at h
    rw [cut, if_neg (Ne.symm h.1), ih h.2]
    rfl

theorem builtin?_eq_none {name : Text} (h : ':' ∈ name) : builtin? name = none := by
  have hbasic : ∀ entry ∈ BasicType.names, ':' ∉ entry.1 := by decide
  unfold builtin?
  rw [if_neg (by rintro rfl; revert h; decide), if_neg (by rintro rfl; revert h; decide),
    Option.map_eq_none_iff, lookup_eq_none_iff]
  intro entry hentry
  rw [bne_iff_ne]
  rintro rfl
  exact hbasic entry hentry h

namespace Spells

variable {name : Text} {module : ModuleName}

theorem unqualified (h : isPlainName name) (hbuiltin : builtin? name = none) :
    Spells resolve ['|', ','] name (.named none name) := by
  obtain ⟨hne, hchars⟩ := isPlainName_eq_true h
  have hsub : ("|?[]()<>," : Text) ⊆ signs := by decide
  have hname : ofName resolve name = .named none name := by
    unfold ofName
    rw [hbuiltin, cut_eq_none fun hmem => (hchars _ hmem).2 (by decide)]
  rw [← hname]
  exact Spells.name hne fun c hc => ⟨(hchars c hc).1, fun hmem => (hchars c hc).2 (hsub hmem)⟩

theorem qualified (hmodule : isResolved resolve module) (h : isPlainName name) :
    Spells resolve ['|', ','] (module.qualifier ++ ":" ++ name)
      (if isSuffixOf "Error" name then .error (some module) (some name)
        else .named (some module) name) := by
  rw [isResolved, Bool.and_eq_true, decide_eq_true_eq] at hmodule
  obtain ⟨hqualifier, hresolve⟩ := hmodule
  obtain ⟨hne, hchars⟩ := isPlainName_eq_true h
  obtain ⟨-, hfirst⟩ := isPlainName_eq_true hqualifier
  have hsub : ("|?[]()<>," : Text) ⊆ signs := by decide
  have hcut : cut ':' (module.qualifier ++ ":" ++ name) = some (module.qualifier, name) := by
    rw [append_assoc]
    exact cut_append fun hmem => (hfirst _ hmem).2 (by decide)
  have hcolon : ':' ∈ module.qualifier ++ ":" ++ name :=
    mem_append_left _ (mem_append_right _ (by decide))
  have hname : ofName resolve (module.qualifier ++ ":" ++ name) =
      if isSuffixOf "Error" name then .error (some module) (some name)
        else .named (some module) name := by
    unfold ofName
    rw [builtin?_eq_none hcolon, hcut]
    dsimp only
    rw [hresolve]
  rw [← hname]
  refine Spells.name (append_ne_nil_of_right_ne_nil _ hne) fun c hc => ?_
  rcases mem_append.mp hc with hc | hc
  · rcases mem_append.mp hc with hc | hc
    · exact ⟨(hfirst c hc).1, fun hmem => (hfirst c hc).2 (hsub hmem)⟩
    · obtain rfl := mem_singleton.mp hc
      exact ⟨by decide, by decide⟩
  · exact ⟨(hchars c hc).1, fun hmem => (hchars c hc).2 (hsub hmem)⟩

theorem basic (type : BasicType) : Spells resolve ['|', ','] type.name (.basic type) := by
  cases type with
  | nil =>
    exact of_step (.enclosed (by decide) .nil) (.enclosed (by decide) (by decide) [])
      fun _ _ _ _ => rfl
  | _ => exact Spells.name (by decide) (forall_iff_forall_mem.mp (by decide))

theorem error : Spells resolve ['|', ','] "error" (.error none none) :=
  Spells.name (by decide) (forall_iff_forall_mem.mp (by decide))

end Spells

mutual

/-- The written form of a type that can be written is read as the normal form of the type. -/
theorem writes_format (resolve : Text → Option ModuleName) : ∀ type : TypeDesc,
    isWritable resolve type → Writes resolve (formatAt none .function type) (normal type)
  | basic type, _ => .of_spells (.basic type) rfl
  | error none none, _ => .of_spells .error rfl
  | error (some module) (some name), h => by
    simp only [isWritable, Bool.and_eq_true] at h
    have hspells := Spells.qualified h.1.1 h.1.2
    rw [if_pos h.2] at hspells
    exact .of_spells hspells rfl
  | named none name, h => by
    simp only [isWritable, Bool.and_eq_true, Option.isNone_iff_eq_none] at h
    exact .of_spells (.unqualified h.1 h.2) rfl
  | named (some module) name, h => by
    simp only [isWritable, Bool.and_eq_true, Bool.not_eq_true'] at h
    have hspells := Spells.qualified h.1.1 h.1.2
    rw [h.2] at hspells
    exact .of_spells hspells rfl
  | array element size, h => by
    rw [isWritable, Bool.and_eq_true] at h
    exact .of_spells ((spells_suffix h.1 (writes_format resolve element h.1)).array h.2) rfl
  | optional inner, h => by
    rw [isWritable] at h
    exact .of_spells (spells_suffix h (writes_format resolve inner h)).optional rfl
  | map value, h => by
    exact .of_spells (writes_format resolve value h).spells.map rfl
  | stream value, h => by
    exact .of_spells (writes_format resolve value h).spells.stream rfl
  | union members, h => by
    rw [isWritable, Bool.and_eq_true, Bool.not_eq_true', isEmpty_eq_false_iff] at h
    have heach := writes_each resolve members h.2
    obtain ⟨pieces, hne, htext, htype, hpieces⟩ := writes_union h.1 fun member hmember =>
      formatAt_union (heach member hmember).1 ▸ (heach member hmember).2
    rw [← formatEach_eq] at htext
    exact ⟨pieces, hne, htext, congrArg collapse htype, hpieces⟩
  | tuple members, h => by
    have heach := writes_each resolve members h
    let pieces := members.map fun member => (formatAt none .function member, normal member)
    have hspells : Spells resolve ['|', ',']
        ("[" ++ intercalate ", " (pieces.map Prod.fst) ++ "]")
        (.tuple (pieces.map Prod.snd)) := by
      refine .tuple fun piece hpiece => ?_
      obtain ⟨member, hmember, rfl⟩ := mem_map.mp hpiece
      exact (heach member hmember).2.spells
    have htexts : pieces.map Prod.fst = formatEach none .function members := by
      rw [formatEach_eq, map_map]
      rfl
    have htypes : pieces.map Prod.snd = normalEach members := by
      rw [normalEach_eq, map_map]
      rfl
    rw [htexts, htypes] at hspells
    exact .of_spells hspells rfl

theorem writes_each (resolve : Text → Option ModuleName) : ∀ types : List TypeDesc,
    allWritable resolve types → ∀ type ∈ types, isWritable resolve type ∧
      Writes resolve (formatAt none .function type) (normal type)
  | [], _ => nofun
  | first :: rest, h => by
    rw [allWritable, Bool.and_eq_true] at h
    have hfirst := writes_format resolve first h.1
    have hrest := writes_each resolve rest h.2
    intro type hmem
    rcases mem_cons.mp hmem with rfl | hmem
    · exact ⟨h.1, hfirst⟩
    · exact hrest type hmem

end

/-- Reading a type back. The written form of a type without functions, whose names and modules its
text shows, is read as the type again, with the members of a union in place of a union in a union
and its member in place of a union of one member. -/
theorem read_format (resolve : Text → Option ModuleName) (type : TypeDesc)
    (h : type.isWritable resolve = true) : read resolve (format none type) = type.normal :=
  (writes_format resolve type h).spells.reads _ (Nat.lt_succ_self _)

/-- A union in a union and a union of one member, in an optional type with an array of tuples. -/
theorem read_format_nested :
    let module : ModuleName := ⟨"o", "a.io"⟩
    let resolve : Text → Option ModuleName := fun qualifier =>
      if qualifier = "io" then some module else none
    let row := tuple [basic .int, union [basic .string, map (named (some module) "T")]]
    let failure := error (some module) (some "ReadError")
    let type := optional (union [array row (some 3), union [failure, union [basic .nil]]])
    type.isWritable resolve = true ∧
      format none type = "([int, string|map<io:T>][3]|io:ReadError|())?" ∧
      read resolve (format none type) =
        optional (union [array row (some 3), failure, basic .nil]) :=
  ⟨by decide, by decide, read_format _ _ (by decide)⟩

end Flowchart.TypeDesc

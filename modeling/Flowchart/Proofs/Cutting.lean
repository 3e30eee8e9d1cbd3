import Flowchart.Proofs.Binding
import Flowchart.Proofs.LineTable
import Mathlib.Data.List.Forall2

/-!
How a text is cut into tokens, as a relation. A cut text is a run of blanks and tokens, each token
is what the scanner takes at its first character, and the marks of the tokens are those of the text
they stand in. Cutting a text is the same as scanning it, and the text of the first few tokens of a
cut text is cut into these tokens.
-/
namespace Flowchart

open List

variable {text body rest after next : Text} {c : Char} {cls : TokenClass} {mark : Mark}
  {tokens : List Token} {bound : Nat}

namespace Mark

@[simp]
theorem after_nil (mark : Mark) : mark.after [] = mark := rfl

theorem after_append (mark : Mark) (a b : Text) : mark.after (a ++ b) = (mark.after a).after b := by
  simp only [after, Position.after_append, length_append, Nat.add_assoc]

@[simp]
theorem index_after (mark : Mark) (text : Text) :
    (mark.after text).index = mark.index + text.length := rfl

end Mark

namespace Text

theorem all_isBlank_append {a b : Text} :
    (a ++ b).all isBlank ↔ a.all isBlank ∧ b.all isBlank := by
  rw [all_append, Bool.and_eq_true]

end Text

namespace Token

def quoteOf (raw : Bool) : Char := if raw then '\x60' else '\"'

/-- The rest of a string after its quote, where `skip` says that a backslash stands before it. Only a
raw string has bare line feeds. -/
inductive Quoted : (raw skip : Bool) → Text → Prop
  | close {raw : Bool} : Quoted raw false [quoteOf raw]
  | escaped {c : Char} {body : Text} (hbody : Quoted false false body) : Quoted false true (c :: body)
  | plain {raw : Bool} {c : Char} {body : Text} (hquote : c ≠ quoteOf raw)
      (hfeed : raw = false → c ≠ '\n') (hbody : Quoted raw (!raw && c == '\\') body) :
      Quoted raw false (c :: body)

theorem Quoted.last {raw skip : Bool} (h : Quoted raw skip body) :
    body.getLast? = some (quoteOf raw) := by
  induction h with
  | close => rfl
  | escaped _ ih | plain _ _ _ ih =>
    rw [getLast?_cons, ih]
    rfl

theorem takeString?_eq_some_iff {skip : Bool} :
    takeString? skip text = some (body, rest) ↔ Quoted false skip body ∧ text = body ++ rest := by
  constructor
  · intro h
    induction text generalizing skip body rest with
    | nil => cases h
    | cons c text ih =>
      unfold takeString? at h
      split at h
      · next hskip =>
        obtain ⟨⟨inner, left⟩, hinner, hpair⟩ := Option.map_eq_some_iff.mp h
        cases hpair
        obtain ⟨hquoted, rfl⟩ := ih hinner
        exact ⟨hskip ▸ .escaped hquoted, rfl⟩
      · next hskip =>
        obtain rfl := eq_false_of_ne_true hskip
        split at h
        · next hquote =>
          cases h
          exact ⟨hquote ▸ .close, rfl⟩
        · next hquote =>
          split at h
          · cases h
          · next hfeed =>
            obtain ⟨⟨inner, left⟩, hinner, hpair⟩ := Option.map_eq_some_iff.mp h
            cases hpair
            obtain ⟨hquoted, rfl⟩ := ih hinner
            exact ⟨.plain hquote (fun _ => hfeed) hquoted, rfl⟩
  · rintro ⟨hquoted, rfl⟩
    generalize hraw : false = raw at hquoted
    induction hquoted with
    | close => subst hraw; rfl
    | escaped hbody ih => simp [takeString?, ih rfl]
    | plain hquote hfeed hbody ih =>
      subst hraw
      have hquote : _ ≠ '\"' := hquote
      simp only [Bool.not_false, Bool.true_and] at ih
      simp [takeString?, hquote, hfeed rfl, ih]

theorem takeRawString?_eq_some_iff :
    takeRawString? text = some (body, rest) ↔ Quoted true false body ∧ text = body ++ rest := by
  constructor
  · intro h
    induction text generalizing body rest with
    | nil => cases h
    | cons c text ih =>
      unfold takeRawString? at h
      split at h
      · next hquote =>
        cases h
        exact ⟨hquote ▸ .close, rfl⟩
      · next hquote =>
        obtain ⟨⟨inner, left⟩, hinner, hpair⟩ := Option.map_eq_some_iff.mp h
        cases hpair
        obtain ⟨hquoted, rfl⟩ := ih hinner
        exact ⟨.plain hquote (fun hraw => absurd hraw (by decide)) hquoted, rfl⟩
  · rintro ⟨hquoted, rfl⟩
    generalize hraw : true = raw, hskip : false = skip at hquoted
    induction hquoted with
    | close => subst hraw; rfl
    | escaped => cases hraw
    | plain hquote hfeed hbody ih =>
      subst hraw
      have hquote : _ ≠ '\x60' := hquote
      simp [takeRawString?, hquote, ih rfl rfl]

theorem takeNumber_append (text : Text) : text = (takeNumber text).1 ++ (takeNumber text).2 := by
  induction text with
  | nil => rfl
  | cons c text ih =>
    unfold takeNumber
    split
    · exact congrArg (c :: ·) ih
    · rfl

theorem takeSymbol_split (c : Char) (rest : Text) :
    ∃ body, (takeSymbol c rest).1 = c :: body ∧ rest = body ++ (takeSymbol c rest).2 := by
  unfold takeSymbol
  split
  · next s hfound =>
    have hne : ∀ s ∈ longSymbols, s ≠ [] := by decide
    have hstarts := find?_some hfound
    obtain ⟨after, hafter⟩ := List.isPrefixOf_iff_prefix.mp hstarts
    cases s with
    | nil => exact absurd rfl (hne [] (mem_of_find?_eq_some hfound))
    | cons first body =>
      obtain ⟨rfl, hrest⟩ := List.cons.inj hafter
      refine ⟨body, rfl, ?_⟩
      rw [length_cons, ← hrest]
      change body ++ after = body ++ (body ++ after).drop body.length
      rw [drop_left]
  · exact ⟨[], rfl, rfl⟩

/-- Every token starts with the character that decides its class, and nothing is lost. -/
theorem take?_split (h : take? c rest = some (cls, text, after)) :
    ∃ body, text = c :: body ∧ rest = body ++ after := by
  unfold take? at h
  split at h
  · next hslash =>
    cases h
    refine ⟨rest.takeWhile (· ≠ '\n'), ?_, ?_⟩ <;> simp [hslash.1]
  split at h
  · obtain ⟨⟨body, left⟩, hbody, hpair⟩ := Option.map_eq_some_iff.mp h
    cases hpair
    exact ⟨body, rfl, (takeString?_eq_some_iff.mp hbody).2⟩
  split at h
  · obtain ⟨⟨body, left⟩, hbody, hpair⟩ := Option.map_eq_some_iff.mp h
    cases hpair
    exact ⟨body, rfl, (takeRawString?_eq_some_iff.mp hbody).2⟩
  split at h
  · cases h
    exact ⟨_, rfl, takeNumber_append rest⟩
  split at h
  · cases h
    exact ⟨_, rfl, takeWhile_append_dropWhile.symm⟩
  · obtain ⟨body, hbody, hrest⟩ := takeSymbol_split c rest
    cases h
    exact ⟨body, hbody, hrest⟩

/-- A character that no token before it can go on with, comments apart. -/
def separates (c : Char) : Bool :=
  !(Text.isWordPart c || c.isAlphanum || c ∈ ['_', '.', '>', '=', '&', '|', '/'])

/-- Two texts that may follow a token: they agree up to a place where the second one has a separator
or ends. After a comment that place is not right at its end, or a line feed stands there. -/
def Keeps (cls : TokenClass) (after next : Text) : Prop :=
  ∃ common old new, after = common ++ old ∧ next = common ++ new ∧
    new.head?.all separates = true ∧ (cls = .comment → common = [] → new.head?.all (· = '\n') = true)

theorem takeNumber_of_part
    (h : (c.isAlphanum || c == '_' || (c == '.' && rest.head?.any Char.isDigit))) :
    takeNumber (c :: rest) = (c :: (takeNumber rest).1, (takeNumber rest).2) := by
  rw [takeNumber, if_pos h]

theorem takeNumber_of_not_part
    (h : (c.isAlphanum || c == '_' || (c == '.' && rest.head?.any Char.isDigit)) = false) :
    takeNumber (c :: rest) = ([], c :: rest) := by
  rw [takeNumber, if_neg (by simp only [h, Bool.false_eq_true, not_false_eq_true])]

/-- A number does not go on with a letter, a digit, an underscore or a point before a digit. -/
theorem not_part_of_takeNumber (h : takeNumber (c :: rest) = ([], c :: rest)) :
    (c.isAlphanum || c == '_' || (c == '.' && rest.head?.any Char.isDigit)) = false := by
  by_contra hpart
  rw [takeNumber_of_part (eq_true_of_ne_false hpart)] at h
  cases h

theorem takeNumber_keeps_nil (h : takeNumber after = ([], after)) (hnext : Keeps .number after next) :
    takeNumber next = ([], next) := by
  obtain ⟨common, old, new, rfl, rfl, hnew, -⟩ := hnext
  have hseparates : ∀ c ∈ new.head?, c.isAlphanum = false ∧ c ≠ '_' ∧ c ≠ '.' := by
    intro c hc
    rw [hc, Option.all_some, separates] at hnew
    simp only [Bool.not_eq_true', Bool.or_eq_false_iff, decide_eq_false_iff_not, mem_cons,
      not_or] at hnew
    exact ⟨hnew.1.2, hnew.2.1, hnew.2.2.1⟩
  cases common with
  | nil =>
    cases new with
    | nil => rfl
    | cons d new =>
      obtain ⟨halpha, hline, hpoint⟩ := hseparates d rfl
      apply takeNumber_of_not_part
      simp [halpha, hline, hpoint]
  | cons d common =>
    apply takeNumber_of_not_part
    have hpart := not_part_of_takeNumber h
    cases common with
    | cons e common => exact hpart
    | nil =>
      have hdigit : new.head?.any Char.isDigit = false := by
        cases new with
        | nil => rfl
        | cons e new =>
          have halpha := (hseparates e rfl).1
          rw [Char.isAlphanum, Bool.or_eq_false_iff] at halpha
          exact halpha.2
      simp only [Bool.or_eq_false_iff] at hpart ⊢
      refine ⟨hpart.1, ?_⟩
      change (d == '.' && new.head?.any Char.isDigit) = false
      rw [hdigit, Bool.and_false]

theorem takeNumber_keeps (h : takeNumber (body ++ after) = (body, after))
    (hnext : Keeps .number after next) : takeNumber (body ++ next) = (body, next) := by
  induction body with
  | nil => exact takeNumber_keeps_nil h hnext
  | cons c body ih =>
    rw [cons_append] at h ⊢
    by_cases hpart : (c.isAlphanum || c == '_' ||
        (c == '.' && (body ++ after).head?.any Char.isDigit))
    · rw [takeNumber_of_part hpart] at h
      have hbody : takeNumber (body ++ after) = (body, after) := by
        injection h with hfirst hsecond
        exact Prod.ext (List.cons.inj hfirst).2 hsecond
      rw [takeNumber_of_part, ih hbody]
      cases body with
      | cons d body => exact hpart
      | nil =>
        -- A digit right after the point would have been taken.
        cases after with
        | nil =>
          simp only [append_nil, head?_nil, Option.any_none, Bool.and_false,
            Bool.or_false] at hpart
          rw [hpart, Bool.true_or]
        | cons d after =>
          have hstop := not_part_of_takeNumber hbody
          simp only [Bool.or_eq_false_iff, Char.isAlphanum] at hstop
          have hdigit : d.isDigit = false := hstop.1.1.2
          simp only [nil_append, head?_cons, Option.any_some, hdigit, Bool.and_false,
            Bool.or_false] at hpart
          rw [hpart, Bool.true_or]
    · rw [takeNumber_of_not_part (eq_false_of_ne_true hpart)] at h
      cases h

theorem span_keeps {p : Char → Bool} {common old new : Text}
    (h : (body ++ (common ++ old)).takeWhile p = body)
    (hnew : common = [] → new.head?.any p = false) :
    (body ++ (common ++ new)).takeWhile p = body ∧
      (body ++ (common ++ new)).dropWhile p = common ++ new := by
  induction body with
  | nil =>
    have hstop : (common ++ new).head?.any p = false := by
      cases common with
      | nil => exact hnew rfl
      | cons d common =>
        by_contra hpart
        have hpart : p d := eq_true_of_ne_false hpart
        simp only [nil_append, cons_append, takeWhile_cons, hpart] at h
        cases h
    rw [nil_append]
    cases hnext : common ++ new with
    | nil => exact ⟨rfl, rfl⟩
    | cons d next =>
      rw [hnext] at hstop
      have hstop : p d = false := hstop
      simp only [takeWhile_cons, dropWhile_cons, hstop, Bool.false_eq_true, if_false,
        and_self]
  | cons c body ih =>
    by_cases hpart : p c
    · simp only [cons_append, takeWhile_cons, hpart, if_true, List.cons.injEq,
        true_and] at h
      simp only [cons_append, takeWhile_cons, dropWhile_cons, hpart, if_true,
        List.cons.injEq, true_and]
      exact ih h
    · simp only [cons_append, takeWhile_cons, hpart] at h
      cases h

theorem takeWord_keeps (h : takeWord (body ++ after) = (body, after))
    (hnext : Keeps .word after next) : takeWord (body ++ next) = (body, next) := by
  obtain ⟨common, old, new, rfl, rfl, hnew, -⟩ := hnext
  have hhead : new.head?.any Text.isWordPart = false := by
    cases new with
    | nil => rfl
    | cons c new =>
      simp only [head?_cons, Option.all_some, separates, Bool.not_eq_true',
        Bool.or_eq_false_iff] at hnew
      exact hnew.1.1
  obtain ⟨htake, hdrop⟩ := span_keeps (congrArg Prod.fst h) fun _ => hhead
  exact Prod.ext htake hdrop

/-- A comment has no line feed, and ends before one or with the text. -/
theorem takeComment_ends (h : takeComment text = (body, after)) :
    '\n' ∉ body ∧ after.head?.all (· = '\n') := by
  obtain ⟨rfl, rfl⟩ := Prod.mk.inj h
  refine ⟨fun hmem => ?_, ?_⟩
  · have hnot := mem_takeWhile_imp hmem
    simp at hnot
  · have hnot := head?_dropWhile_not (fun c => decide (c ≠ '\n')) text
    cases hhead : (text.dropWhile fun c => decide (c ≠ '\n')).head? with
    | none => rfl
    | some c =>
      rw [hhead] at hnot
      simpa using hnot

theorem takeComment_keeps (h : takeComment (body ++ after) = (body, after))
    (hnext : Keeps .comment after next) : takeComment (body ++ next) = (body, next) := by
  obtain ⟨common, old, new, rfl, rfl, -, hfeed⟩ := hnext
  have hhead (hcommon : common = []) : new.head?.any (fun c => decide (c ≠ '\n')) = false := by
    have hline := hfeed rfl hcommon
    cases new with
    | nil => rfl
    | cons c new =>
      rw [head?_cons, Option.all_some, decide_eq_true_iff] at hline
      simp only [head?_cons, Option.any_some, hline, ne_eq, not_true_eq_false, decide_false]
  obtain ⟨htake, hdrop⟩ := span_keeps (congrArg Prod.fst h) hhead
  exact Prod.ext htake hdrop

theorem take?_comment {body rest : Text} (h : '\n' ∉ body) (hrest : rest.head?.all (· = '\n')) :
    take? '/' ('/' :: (body ++ rest)) = some (.comment, '/' :: '/' :: body, rest) := by
  have hall : ∀ d ∈ '/' :: '/' :: body, decide (d ≠ '\n') := by
    intro d hd
    refine decide_eq_true ?_
    rintro rfl
    rcases hd with _ | ⟨_, _ | ⟨_, hd⟩⟩
    exact h hd
  have hstop : rest.takeWhile (· ≠ '\n') = [] ∧ rest.dropWhile (· ≠ '\n') = rest := by
    cases rest with
    | nil => exact ⟨rfl, rfl⟩
    | cons c rest =>
      obtain rfl : c = '\n' := of_decide_eq_true hrest
      exact ⟨rfl, rfl⟩
  unfold take?
  rw [if_pos ⟨rfl, rfl⟩]
  unfold takeComment
  rw [← cons_append, ← cons_append, takeWhile_append_of_pos hall, dropWhile_append_of_pos hall,
    hstop.1, hstop.2, append_nil]

theorem not_separates_of_mem_longSymbols :
    ∀ s ∈ longSymbols, ∀ c ∈ s.tail, separates c = false := by
  have hall : longSymbols.all (fun s => s.tail.all fun c => !separates c) := by decide
  intro s hs c hc
  exact Bool.not_eq_true' _ ▸ all_eq_true.mp (all_eq_true.mp hall s hs) c hc

/-- A long symbol that does not start a text starts no other text with the same symbol in front, if
what follows the symbol is kept. -/
theorem isPrefixOf_keeps {s : Text} (known : Text) (hs : s ∈ longSymbols) (hknown : known ≠ [])
    (hnext : Keeps cls after next) (h : s.isPrefixOf (known ++ after) = false) :
    s.isPrefixOf (known ++ next) = false := by
  obtain ⟨common, old, new, rfl, rfl, hnew, -⟩ := hnext
  by_contra hstarts
  have hprefix : s <+: known ++ common ++ new := by
    rw [append_assoc]
    exact List.isPrefixOf_iff_prefix.mp (eq_true_of_ne_false hstarts)
  apply Bool.false_ne_true
  rw [← h, ← append_assoc]
  apply List.isPrefixOf_iff_prefix.mpr
  rcases List.prefix_or_prefix_of_prefix hprefix (prefix_append (known ++ common) new) with
    hshort | ⟨more, rfl⟩
  · exact hshort.trans (prefix_append (known ++ common) old)
  · have hmore : more <+: new := (prefix_append_right_inj _).mp hprefix
    cases more with
    | nil =>
      rw [append_nil]
      exact prefix_append (known ++ common) old
    | cons d more =>
      -- The symbol goes on past the separator, which is no part of a symbol.
      obtain ⟨left, rfl⟩ := hmore
      have htail : d ∈ (known ++ common ++ d :: more).tail := by
        rw [append_assoc, tail_append_of_ne_nil hknown]
        exact mem_append_right _ (mem_append_right _ mem_cons_self)
      rw [cons_append, head?_cons, Option.all_some,
        not_separates_of_mem_longSymbols _ hs d htail] at hnew
      cases hnew

theorem takeSymbol_keeps (h : takeSymbol c (body ++ after) = (c :: body, after))
    (hnext : Keeps .symbol after next) : takeSymbol c (body ++ next) = (c :: body, next) := by
  unfold takeSymbol at h
  split at h
  · next s hfound =>
    injection h with hs hrest
    subst hs
    obtain ⟨-, earlier, later, hsymbols, hearlier⟩ := find?_eq_some_iff_append.mp hfound
    have hnow : longSymbols.find? (fun s => s.isPrefixOf (c :: (body ++ next))) =
        some (c :: body) := by
      apply find?_eq_some_iff_append.mpr
      refine ⟨List.isPrefixOf_iff_prefix.mpr (prefix_append (c :: body) next), earlier, later,
        hsymbols, ?_⟩
      intro s hs
      have hmem : s ∈ longSymbols := by
        rw [hsymbols]
        exact mem_append_left _ hs
      have hnot := isPrefixOf_keeps (c :: body) hmem (cons_ne_nil _ _) hnext
        ((Bool.not_eq_true' _).mp (hearlier s hs))
      exact (Bool.not_eq_true' _).mpr hnot
    unfold takeSymbol
    rw [hnow]
    simp
  · next hnone =>
    injection h with hbody hrest
    obtain rfl : body = [] := (List.cons.inj hbody).2.symm
    have hnow : longSymbols.find? (fun s => s.isPrefixOf (c :: ([] ++ next))) = none := by
      apply find?_eq_none.mpr
      intro s hs
      have hnot := isPrefixOf_keeps [c] hs (cons_ne_nil _ _) hnext
        (eq_false_of_ne_true (find?_eq_none.mp hnone s hs))
      exact fun hstarts => Bool.false_ne_true (hnot.symm.trans hstarts)
    unfold takeSymbol
    rw [hnow]
    rfl

/-- Where no comment starts, none starts when what follows the first token is replaced. -/
theorem not_comment_keeps (h : take? c (body ++ after) = some (cls, c :: body, after))
    (hnext : Keeps cls after next) (hcomment : ¬ (c = '/' ∧ (body ++ after).head? = some '/')) :
    ¬ (c = '/' ∧ (body ++ next).head? = some '/') := by
  rintro ⟨rfl, hslash⟩
  have hafter : (body ++ after).head? ≠ some '/' := fun hhead => hcomment ⟨rfl, hhead⟩
  cases body with
  | cons d body => exact hafter hslash
  | nil =>
    obtain ⟨common, old, new, rfl, rfl, hnew, -⟩ := hnext
    cases common with
    | cons d common => exact hafter hslash
    | nil =>
      rw [nil_append, nil_append] at hslash
      rw [hslash] at hnew
      cases hnew

/-- A token is taken the same way when the text after it is replaced by one that agrees with it up
to a separator or its end. -/
theorem take?_keeps (h : take? c (body ++ after) = some (cls, c :: body, after))
    (hnext : Keeps cls after next) : take? c (body ++ next) = some (cls, c :: body, next) := by
  by_cases hcomment : c = '/' ∧ (body ++ after).head? = some '/'
  · obtain ⟨rfl, hslash⟩ := hcomment
    rw [take?, if_pos ⟨rfl, hslash⟩] at h
    injection h with h
    injection h with hcls htake
    subst hcls
    have hkept : takeComment ('/' :: body ++ next) = ('/' :: body, next) :=
      takeComment_keeps htake hnext
    have hslash : (body ++ next).head? = some '/' := by
      cases body with
      | cons d body => exact hslash
      | nil =>
        -- The second slash is no line feed, so the comment has taken it.
        cases after with
        | nil => cases hslash
        | cons d after =>
          obtain rfl : d = '/' := Option.some.inj hslash
          cases htake
    rw [take?, if_pos ⟨rfl, hslash⟩]
    exact congrArg (fun taken => some (TokenClass.comment, taken)) hkept
  have hnow := not_comment_keeps h hnext hcomment
  rw [take?, if_neg hcomment] at h
  rw [take?, if_neg hnow]
  by_cases hquote : c = '\"'
  · rw [if_pos hquote] at h ⊢
    obtain ⟨⟨taken, left⟩, htaken, hpair⟩ := Option.map_eq_some_iff.mp h
    cases hpair
    rw [takeString?_eq_some_iff.mpr ⟨(takeString?_eq_some_iff.mp htaken).1, rfl⟩]
    rfl
  rw [if_neg hquote] at h ⊢
  by_cases hraw : c = '\x60'
  · rw [if_pos hraw] at h ⊢
    obtain ⟨⟨taken, left⟩, htaken, hpair⟩ := Option.map_eq_some_iff.mp h
    cases hpair
    rw [takeRawString?_eq_some_iff.mpr ⟨(takeRawString?_eq_some_iff.mp htaken).1, rfl⟩]
    rfl
  rw [if_neg hraw] at h ⊢
  by_cases hdigit : c.isDigit
  · rw [if_pos hdigit] at h ⊢
    injection h with h
    injection h with hcls htake
    subst hcls
    injection htake with hbody hrest
    have htake : takeNumber (body ++ after) = (body, after) :=
      Prod.ext (List.cons.inj hbody).2 hrest
    rw [takeNumber_keeps htake hnext]
  rw [if_neg hdigit] at h ⊢
  by_cases hword : Text.isWordStart c
  · rw [if_pos hword] at h ⊢
    injection h with h
    injection h with hcls htake
    subst hcls
    injection htake with hbody hrest
    have htake : takeWord (body ++ after) = (body, after) :=
      Prod.ext (List.cons.inj hbody).2 hrest
    rw [takeWord_keeps htake hnext]
  rw [if_neg hword] at h ⊢
  injection h with h
  injection h with hcls htake
  subst hcls
  rw [takeSymbol_keeps htake hnext]

/-- The tokens that a text starting at `mark` is cut into, with only blanks beside them. -/
inductive Cuts : Mark → Text → List Token → Prop
  | done {mark : Mark} {gap : Text} (hgap : gap.all Text.isBlank = true) : Cuts mark gap []
  | token {mark : Mark} {gap rest text after : Text} {c : Char} {cls : TokenClass}
      {tokens : List Token} (hgap : gap.all Text.isBlank = true) (hc : Text.isBlank c = false)
      (htake : take? c rest = some (cls, text, after))
      (hmore : Cuts ((mark.after gap).after text) after tokens) :
      Cuts mark (gap ++ c :: rest)
        (⟨cls, text, mark.after gap, (mark.after gap).after text⟩ :: tokens)

/-- The same token of a text that stands after one mark and after another. -/
structure Moved (mark mark' : Mark) (a b : Token) : Prop where
  cls : a.cls = b.cls
  text : a.text = b.text
  start : ∃ before, a.start = mark.after before ∧ b.start = mark'.after before
  stop : ∃ before, a.stop = mark.after before ∧ b.stop = mark'.after before

theorem Moved.behind {mark' : Mark} {a b : Token} (h : Moved (mark.after text) (mark'.after text) a b) :
    Moved mark mark' a b := by
  obtain ⟨before, hstart, hstart'⟩ := h.start
  obtain ⟨through, hstop, hstop'⟩ := h.stop
  rw [← Mark.after_append] at hstart hstart' hstop hstop'
  exact ⟨h.cls, h.text, ⟨_, hstart, hstart'⟩, _, hstop, hstop'⟩

theorem Moved.keys {mark' : Mark} {tokens' : List Token} (h : Forall₂ (Moved mark mark') tokens tokens') :
    tokens'.map (fun token => (token.cls, token.text)) =
      tokens.map fun token => (token.cls, token.text) := by
  induction h with
  | nil => rfl
  | cons hfirst _ ih => rw [map_cons, map_cons, ih, hfirst.cls, hfirst.text]

namespace Cuts

theorem blank {gap : Text} (hgap : gap.all Text.isBlank)
    (h : Cuts (mark.after gap) text tokens) : Cuts mark (gap ++ text) tokens := by
  cases h with
  | done hmore => exact .done (Text.all_isBlank_append.mpr ⟨hgap, hmore⟩)
  | @token _ inner rest _ _ c _ _ hinner hc htake hrest =>
    rw [← Mark.after_append mark gap inner] at hrest ⊢
    rw [← append_assoc]
    exact .token (Text.all_isBlank_append.mpr ⟨hgap, hinner⟩) hc htake hrest

/-- A text is cut into the same tokens wherever it stands. -/
theorem moved (h : Cuts mark text tokens) (mark' : Mark) :
    ∃ tokens', Cuts mark' text tokens' ∧ Forall₂ (Moved mark mark') tokens tokens' := by
  induction h generalizing mark' with
  | done hgap => exact ⟨[], .done hgap, .nil⟩
  | @token mark gap rest text after c cls tokens hgap hc htake _ ih =>
    obtain ⟨tokens', hcuts, htokens⟩ := ih ((mark'.after gap).after text)
    refine ⟨_, .token hgap hc htake hcuts, .cons ⟨rfl, rfl, ⟨gap, rfl, rfl⟩, gap ++ text,
      (mark.after_append gap text).symm, (mark'.after_append gap text).symm⟩
      (htokens.imp fun a b hmoved => hmoved.behind.behind)⟩

end Cuts

theorem cuts_of_scanFrom (hbound : text.length ≤ bound) (h : scanFrom bound mark text = .ok tokens) :
    Cuts mark text tokens := by
  induction bound generalizing mark text tokens with
  | zero =>
    obtain rfl := length_eq_zero_iff.mp (Nat.le_zero.mp hbound)
    cases h
    exact .done rfl
  | succ bound ih =>
    cases text with
    | nil =>
      cases h
      exact .done rfl
    | cons c rest =>
      have hrest : rest.length ≤ bound := Nat.le_of_succ_le_succ hbound
      unfold scanFrom at h
      split at h
      · next hblank =>
        have hgap : [c].all Text.isBlank := by
          rw [all_cons, hblank, all_nil, Bool.and_self]
        exact Cuts.blank hgap (ih hrest h)
      · next hblank =>
        split at h
        · cases h
        · next cls text after htake =>
          obtain ⟨body, rfl, rfl⟩ := take?_split htake
          have hafter : after.length ≤ bound := by
            rw [length_append] at hrest
            omega
          obtain ⟨more, hmore, h⟩ := Except.bind_eq_ok h
          cases h
          have hcut : Cuts mark ([] ++ c :: (body ++ after)) _ :=
            .token rfl (eq_false_of_ne_true hblank) htake (ih hafter hmore)
          exact hcut

theorem scanFrom_nil (bound : Nat) (mark : Mark) : scanFrom bound mark [] = .ok [] := by
  cases bound <;> rfl

theorem scanFrom_blank {gap : Text} (hgap : gap.all Text.isBlank) :
    scanFrom (gap.length + bound) mark (gap ++ rest) = scanFrom bound (mark.after gap) rest := by
  induction gap generalizing mark with
  | nil =>
    rw [length_nil, Nat.zero_add]
    rfl
  | cons c gap ih =>
    rw [all_cons, Bool.and_eq_true] at hgap
    rw [length_cons, Nat.succ_add, cons_append, scanFrom, if_pos hgap.1, ih hgap.2,
      ← Mark.after_append]
    rfl

theorem scanFrom_of_cuts (h : Cuts mark text tokens) (hbound : text.length ≤ bound) :
    scanFrom bound mark text = .ok tokens := by
  induction h generalizing bound with
  | @done mark gap hgap =>
    obtain ⟨more, rfl⟩ := Nat.exists_eq_add_of_le hbound
    have hscan : scanFrom (gap.length + more) mark (gap ++ []) = _ := scanFrom_blank hgap
    rwa [append_nil, scanFrom_nil] at hscan
  | @token mark gap rest text after c cls tokens hgap hc htake hmore ih =>
    obtain ⟨body, rfl, rfl⟩ := take?_split htake
    rw [length_append, length_cons, length_append] at hbound
    obtain ⟨more, rfl⟩ : ∃ more, bound = gap.length + (more + 1) :=
      ⟨bound - gap.length - 1, by omega⟩
    have hafter : after.length ≤ more := by omega
    rw [scanFrom_blank hgap, scanFrom, hc, htake]
    simp only [ih hafter]
    rfl

/-- A text is scanned into the tokens that it is cut into. -/
theorem scan_eq_ok_iff : scan text = .ok tokens ↔ Cuts {} text tokens :=
  ⟨cuts_of_scanFrom le_rfl, fun h => scanFrom_of_cuts h le_rfl⟩

/-- The mark that reading some tokens from `mark` on ends at. -/
def stopOf (mark : Mark) (tokens : List Token) : Mark :=
  (tokens.getLast?.map Token.stop).getD mark

@[simp]
theorem stopOf_nil (mark : Mark) : stopOf mark [] = mark := rfl

@[simp]
theorem stopOf_cons (mark : Mark) (token : Token) (tokens : List Token) :
    stopOf mark (token :: tokens) = stopOf token.stop tokens := by
  unfold stopOf
  rw [getLast?_cons]
  cases tokens.getLast? <;> rfl

theorem stopOf_append (mark : Mark) (a b : List Token) :
    stopOf mark (a ++ b) = stopOf (stopOf mark a) b := by
  induction a generalizing mark with
  | nil => rfl
  | cons token a ih => rw [cons_append, stopOf_cons, stopOf_cons, ih]

/-- The text of the first few tokens of a cut text is cut into these tokens, and what is left into
the others. -/
theorem Cuts.split {first second : List Token} (h : Cuts mark text (first ++ second)) :
    ∃ a b, text = a ++ b ∧ Cuts mark a first ∧ stopOf mark first = mark.after a ∧
      Cuts (stopOf mark first) b second := by
  induction first generalizing mark text with
  | nil => exact ⟨[], text, rfl, .done rfl, rfl, h⟩
  | cons token first ih =>
    cases h with
    | @token _ gap rest _ after c cls _ hgap hc htake hmore =>
      obtain ⟨body, rfl, rfl⟩ := take?_split htake
      obtain ⟨a, b, rfl, ha, hstop, hb⟩ := ih hmore
      have hshort : take? c (body ++ a) = some (cls, c :: body, a) :=
        take?_keeps htake ⟨a, b, [], rfl, (append_nil a).symm, rfl, fun _ _ => rfl⟩
      refine ⟨gap ++ c :: (body ++ a), b, by simp, .token hgap hc hshort ha, ?_, ?_⟩
      · rw [stopOf_cons, hstop, ← Mark.after_append, ← Mark.after_append]
        simp
      · rw [stopOf_cons]
        exact hb

end Token

end Flowchart

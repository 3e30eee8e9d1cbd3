import Flowchart.Proofs.Spelling

/-!
Shifting the lines of a text. Blanks go in after line feeds only, and a carriage return is dropped
only before one; a line feed is a blank to every token but a string, and a string over several lines
stays one. So a shifted text spells what the text spells.
-/
namespace Flowchart

open List

variable {c : Char} {text : Text}

namespace Text

/-- Puts a character in front of the first line. -/
def onFirst (c : Char) : List Text → List Text
  | [] => [[c]]
  | line :: rest => (c :: line) :: rest

theorem cutLines_feed (text : Text) :
    cutLines ('\n' :: text) = ([] :: (cutLines text).1, (cutLines text).2) := by
  rfl

theorem lines_feed (text : Text) : lines ('\n' :: text) = [] :: lines text := by
  unfold lines
  rfl

theorem lines_return (text : Text) : lines ('\r' :: '\n' :: text) = lines ('\n' :: text) := by
  have hcut : cutLines ('\r' :: '\n' :: text) = (['\r'] :: (cutLines text).1, (cutLines text).2) := by
    rfl
  unfold lines
  rfl

theorem dropReturn_cons {d : Char} (line : Text) :
    dropReturn (c :: d :: line) = c :: dropReturn (d :: line) := by
  unfold dropReturn stripEnd?
  rw [getLast?_cons_cons]
  split <;> rfl

theorem cutLines_cons (hc : c ≠ '\n') (text : Text) :
    cutLines (c :: text) = match cutLines text with
      | ([], last) => ([], c :: last)
      | (line :: more, last) => ((c :: line) :: more, last) := by
  rw [cutLines]
  rcases cutLines text with ⟨_ | ⟨line, more⟩, last⟩ <;> simp only [if_neg hc]

/-- The first line is empty only where the text starts with a line feed. -/
theorem head?_of_cutLines {last : Text} {more : List Text} (h : cutLines text = ([] :: more, last)) :
    text.head? = some '\n' := by
  cases text with
  | nil => cases h
  | cons c text =>
    by_contra hc
    rw [cutLines_cons (fun heq => hc (congrArg some heq))] at h
    split at h <;> cases h

theorem lines_cons (hc : c ≠ '\n') (hreturn : ¬ (c = '\r' ∧ text.head? = some '\n')) :
    lines (c :: text) = onFirst c (lines text) := by
  unfold lines
  rw [cutLines_cons hc]
  cases hcut : cutLines text with
  | mk finished last =>
    cases finished with
    | nil => cases last <;> rfl
    | cons line more =>
      have hline : dropReturn (c :: line) = c :: dropReturn line := by
        cases line with
        | cons d line => exact dropReturn_cons line
        | nil =>
          have hne : c ≠ '\r' := fun heq => hreturn ⟨heq, head?_of_cutLines hcut⟩
          unfold dropReturn stripEnd?
          simp [hne]
      simp only [map_cons, hline]
      rfl

end Text

namespace Layout

open Text Token

variable {column : Nat} {body : Text}

theorem reindent_nil (column : Nat) : reindent column [] = [] := rfl

theorem reindent_cons (hc : c ≠ '\n') (hreturn : ¬ (c = '\r' ∧ text.head? = some '\n')) :
    reindent column (c :: text) = c :: reindent column text := by
  unfold reindent
  rw [lines_cons hc hreturn]
  cases lines text <;> rfl

theorem reindent_return (column : Nat) (text : Text) :
    reindent column ('\r' :: '\n' :: text) = reindent column ('\n' :: text) := by
  unfold reindent
  rw [lines_return]

theorem lines_ne_nil : lines (c :: text) ≠ [] := by
  by_cases hc : c = '\n'
  · rw [hc]
    exact cons_ne_nil _ _
  by_cases hreturn : c = '\r' ∧ text.head? = some '\n'
  · obtain ⟨rfl, hhead⟩ := hreturn
    cases text with
    | nil => cases hhead
    | cons d text =>
      cases hhead
      exact cons_ne_nil _ _
  · rw [lines_cons hc hreturn]
    cases lines text <;> exact cons_ne_nil _ _

theorem all_isBlank_pad (column : Nat) : (pad column).all isBlank := by
  unfold pad
  rw [all_replicate]
  split <;> rfl

/-- Spaces go in after a line feed, unless it is the last character. -/
theorem reindent_feed (column : Nat) (text : Text) :
    (text = [] ∧ reindent column ('\n' :: text) = []) ∨
      ∃ n, reindent column ('\n' :: text) = '\n' :: (pad n ++ reindent column text) := by
  cases text with
  | nil => exact .inl ⟨rfl, rfl⟩
  | cons c text =>
    right
    unfold reindent
    rw [lines_feed]
    cases hlines : lines (c :: text) with
    | nil => exact absurd hlines lines_ne_nil
    | cons line more =>
      cases line with
      | nil => exact ⟨0, rfl⟩
      | cons d line =>
        refine ⟨column, ?_⟩
        simp [padded]

/-- A stretch without line feeds is kept, unless a carriage return of a line ending ends it. -/
theorem reindent_append {column : Nat} {body after : Text} (hbody : ∀ c ∈ body, c ≠ '\n')
    (hreturn : ¬ (body.getLast? = some '\r' ∧ after.head? = some '\n')) :
    reindent column (body ++ after) = body ++ reindent column after := by
  induction body with
  | nil => rfl
  | cons c body ih =>
    have hc : c ≠ '\n' := hbody c mem_cons_self
    have hrest : ∀ d ∈ body, d ≠ '\n' := fun d hd => hbody d (mem_cons_of_mem _ hd)
    have hnot : ¬ (c = '\r' ∧ (body ++ after).head? = some '\n') := by
      rintro ⟨rfl, hhead⟩
      cases body with
      | nil => exact hreturn ⟨rfl, hhead⟩
      | cons d body => exact hrest d mem_cons_self (Option.some.inj hhead)
    rw [cons_append, reindent_cons hc hnot, ih hrest, cons_append]
    rintro ⟨hlast, hhead⟩
    refine hreturn ⟨?_, hhead⟩
    rw [getLast?_cons, hlast]
    rfl

/-- What a line ending becomes: nothing, or a line feed with spaces after it. -/
theorem reindent_ending (column : Nat) (h : text.head? = some '\n') :
    (reindent column text).head?.all (· = '\n') := by
  cases text with
  | nil => cases h
  | cons c text =>
    cases h
    rcases reindent_feed column text with ⟨-, hfeed⟩ | ⟨n, hfeed⟩ <;> rw [hfeed] <;> rfl

theorem reindent_blank {column : Nat} {gap : Text} (hgap : gap.all isBlank) (rest : Text) :
    ∃ gap', gap'.all isBlank ∧
      reindent column (gap ++ rest) = gap' ++ reindent column rest := by
  induction gap with
  | nil => exact ⟨[], rfl, rfl⟩
  | cons c gap ih =>
    rw [all_cons, Bool.and_eq_true] at hgap
    obtain ⟨gap', hblank, hrest⟩ := ih hgap.2
    rw [cons_append]
    by_cases hc : c = '\n'
    · subst hc
      rcases reindent_feed column (gap ++ rest) with ⟨hnil, hfeed⟩ | ⟨n, hfeed⟩
      · obtain ⟨-, rfl⟩ := append_eq_nil_iff.mp hnil
        exact ⟨[], rfl, hfeed⟩
      · refine ⟨'\n' :: (pad n ++ gap'), ?_, ?_⟩
        · rw [all_cons, all_isBlank_append.mpr ⟨all_isBlank_pad n, hblank⟩]
          rfl
        · rw [hfeed, hrest, cons_append, append_assoc]
    by_cases hreturn : c = '\r' ∧ (gap ++ rest).head? = some '\n'
    · obtain ⟨rfl, hhead⟩ := hreturn
      cases htext : gap ++ rest with
      | nil =>
        rw [htext] at hhead
        cases hhead
      | cons d text =>
        rw [htext] at hhead hrest
        cases hhead
        exact ⟨gap', hblank, by rw [reindent_return, hrest]⟩
    · refine ⟨c :: gap', ?_, ?_⟩
      · rw [all_cons, hgap.1, hblank]
        rfl
      · rw [reindent_cons hc hreturn, hrest, cons_append]

/-- A shifted text agrees with the text up to its first line ending. -/
theorem keeps_reindent (cls : TokenClass) (column : Nat) (text : Text) :
    Keeps cls text (reindent column text) := by
  -- At a line ending the two texts part.
  have hending {text : Text} (h : (reindent column text).head?.all (· = '\n')) :
      Keeps cls text (reindent column text) := by
    refine ⟨[], text, reindent column text, rfl, rfl, ?_, fun _ _ => h⟩
    cases hhead : (reindent column text).head? with
    | none => rfl
    | some c =>
      rw [hhead, Option.all_some, decide_eq_true_iff] at h
      rw [h]
      decide
  induction text with
  | nil => exact ⟨[], [], [], rfl, rfl, rfl, fun _ _ => rfl⟩
  | cons c text ih =>
    by_cases hc : c = '\n'
    · exact hending (reindent_ending column (congrArg some hc))
    by_cases hreturn : c = '\r' ∧ text.head? = some '\n'
    · obtain ⟨rfl, hhead⟩ := hreturn
      apply hending
      cases text with
      | nil => cases hhead
      | cons d text =>
        cases hhead
        rw [reindent_return]
        exact reindent_ending column rfl
    · obtain ⟨common, old, new, htext, hnew, hseparates, -⟩ := ih
      rw [reindent_cons hc hreturn, hnew]
      exact ⟨c :: common, old, new, congrArg (c :: ·) htext, rfl, hseparates,
        fun _ hnil => absurd hnil (cons_ne_nil _ _)⟩

theorem take?_quoted {raw : Bool} {after : Text} (h : Quoted raw false body) :
    take? (quoteOf raw) (body ++ after) = some (.quoted, quoteOf raw :: body, after) := by
  cases raw with
  | false =>
    rw [take?, if_neg (fun hboth => absurd hboth.1 (by decide)),
      takeString?_eq_some_iff.mpr ⟨h, rfl⟩]
    rfl
  | true =>
    rw [take?, if_neg (fun hboth => absurd hboth.1 (by decide)), if_neg (by decide),
      takeRawString?_eq_some_iff.mpr ⟨h, rfl⟩]
    rfl

theorem quoted_pad {raw : Bool} (n : Nat) (h : Quoted raw false body) :
    Quoted raw false (pad n ++ body) := by
  induction n with
  | zero => exact h
  | succ n ih => cases raw <;> exact .plain (by decide) (fun _ => by decide) ih

/-- A bare line feed is left to the raw strings. -/
theorem quoted_not_feed (h : Quoted false false body) (rest : Text) :
    (body ++ rest).head? ≠ some '\n' := by
  cases h with
  | close => simp [quoteOf]
  | plain _ hbare _ => exact fun hfeed => hbare rfl (Option.some.inj hfeed)

/-- A string over several lines stays one. -/
theorem quoted_reindent {raw skip : Bool} (h : Quoted raw skip body) (column : Nat) (rest : Text) :
    ∃ body', Quoted raw skip body' ∧
      reindent column (body ++ rest) = body' ++ reindent column rest ∧
      ('\n' ∈ body' ↔ '\n' ∈ body) := by
  have hindent {raw : Bool} {body : Text} (hbody : Quoted raw false body) :
      ∃ n, reindent column ('\n' :: (body ++ rest)) =
        '\n' :: (pad n ++ reindent column (body ++ rest)) := by
    refine (reindent_feed column (body ++ rest)).resolve_left fun hnil => ?_
    obtain ⟨rfl, -⟩ := append_eq_nil_iff.mp hnil.1
    cases hbody
  induction h with
  | @close raw =>
    refine ⟨[quoteOf raw], .close, ?_, Iff.rfl⟩
    cases raw <;> exact reindent_cons (by decide) fun hboth => absurd hboth.1 (by decide)
  | @escaped c body hbody ih =>
    obtain ⟨body', hbody', hshift, hfeed⟩ := ih
    by_cases hc : c = '\n'
    · subst hc
      obtain ⟨n, hpad⟩ := hindent hbody
      exact ⟨'\n' :: (pad n ++ body'), .escaped (quoted_pad n hbody'), by simp [hpad, hshift], by simp⟩
    · refine ⟨c :: body', .escaped hbody', ?_, by simp [hfeed]⟩
      rw [cons_append, reindent_cons hc fun hboth => quoted_not_feed hbody rest hboth.2, hshift, cons_append]
  | @plain raw c body hquote hbare hbody ih =>
    obtain ⟨body', hbody', hshift, hfeed⟩ := ih
    by_cases hc : c = '\n'
    · subst hc
      obtain rfl : raw := eq_true_of_ne_false fun hraw => hbare hraw rfl
      obtain ⟨n, hpad⟩ := hindent hbody
      exact ⟨'\n' :: (pad n ++ body'), .plain hquote hbare (quoted_pad n hbody'),
        by simp [hpad, hshift], by simp⟩
    by_cases hreturn : c = '\r' ∧ (body ++ rest).head? = some '\n'
    · obtain ⟨rfl, hhead⟩ := hreturn
      cases raw with
      | false => exact absurd hhead (quoted_not_feed hbody rest)
      | true =>
        cases body with
        | nil => cases hbody
        | cons d body =>
          cases hhead
          refine ⟨body', hbody', ?_, by simp [hfeed]⟩
          rw [← hshift, cons_append, cons_append, reindent_return]
    · refine ⟨c :: body', .plain hquote hbare hbody', ?_, by simp [hfeed]⟩
      rw [cons_append, reindent_cons hc hreturn, hshift, cons_append]

/-- A comment loses the carriage return of its line ending. -/
theorem take?_comment_return {inner after : Text} (hinner : ∀ c ∈ inner, c ≠ '\n')
    (hslash : (inner ++ ['\r']).head? = some '/') (hafter : after.head? = some '\n') :
    take? '/' (reindent column (inner ++ ['\r'] ++ after)) =
      some (.comment, '/' :: inner, reindent column after) := by
  obtain ⟨after, rfl⟩ := head?_eq_some_iff.mp hafter
  rw [append_assoc, singleton_append,
    reindent_append hinner (fun hboth => absurd hboth.2 (by simp)), reindent_return]
  cases inner with
  | nil => cases hslash
  | cons d inner =>
    cases hslash
    exact take?_comment (fun hmem => hinner _ (mem_cons_of_mem _ hmem) rfl) (reindent_ending column rfl)

end Layout

namespace Text

theorem intercalate_feed (line : Text) (more : List Text) :
    List.intercalate "\n" (line :: more) = line ++ more.flatMap ('\n' :: ·) := by
  induction more generalizing line with
  | nil => simp [List.intercalate]
  | cons next more ih =>
    have hnext := ih next
    simp only [List.intercalate, intersperse_cons_cons, flatten_cons] at hnext ⊢
    rw [hnext]
    rfl

/-- Shifting all lines also puts blanks before the first one. -/
theorem indent_eq (column : Nat) (text : Text) : ∃ gap, gap.all isBlank ∧
    Layout.indent column text = gap ++ Layout.reindent column text := by
  unfold Layout.indent Layout.reindent
  cases lines text with
  | nil => exact ⟨[], rfl, rfl⟩
  | cons line more =>
    rw [map_cons, intercalate_feed, flatMap_map]
    cases line with
    | nil => exact ⟨[], rfl, rfl⟩
    | cons c line =>
      refine ⟨Layout.pad column, Layout.all_isBlank_pad column, ?_⟩
      simp [Layout.padded]

end Text

end Flowchart

import Flowchart.Proofs.Cutting
import Flowchart.Render.Layout

/-!
Texts by the tokens that they are cut into, wherever they stand. A text spells a list of tokens,
seen by their classes and texts alone; comments are all alike here, and so are strings that run over
several lines. Texts are put together where no token can reach over, blanks around a text are
dropped, and lines are shifted, without a change to what is spelled.
-/
namespace Flowchart

open List

variable {text : Text} {ss : List Spelling} {c : Char} {a b : Text} {token : Token}

/-- What the readers see of a token. -/
structure Spelling where
  cls : TokenClass
  text : Text
deriving DecidableEq

namespace Spelling

/-- The spelling of a token with a class and a text. A comment is spelled without its text, and a
string over several lines by its line feed. -/
def of : TokenClass → Text → Spelling
  | .comment, _ => ⟨.comment, []⟩
  | .quoted, text => ⟨.quoted, if '\n' ∈ text then "\n" else text⟩
  | cls, text => ⟨cls, text⟩

def isComment (s : Spelling) : Bool := s.cls = .comment

@[simp]
theorem cls_of (cls : TokenClass) (text : Text) : (of cls text).cls = cls := by
  cases cls <;> rfl

end Spelling

namespace Token

def spelling (token : Token) : Spelling := .of token.cls token.text

/-- The token is what the scanner takes somewhere. -/
def Taken (token : Token) : Prop :=
  ∃ c rest after, Text.isBlank c = false ∧ take? c rest = some (token.cls, token.text, after)

theorem isComment_of_isWord (h : token.isWord) : token.isComment = false :=
  decide_eq_false (by rw [of_decide_eq_true h]; decide)

theorem isComment_spelling (token : Token) : token.spelling.isComment = token.isComment := by
  unfold Spelling.isComment spelling
  rw [Spelling.cls_of]
  rfl

theorem last_spelling (tokens : List Token) :
    (tokens.map spelling).getLast?.any Spelling.isComment = tokens.getLast?.any isComment := by
  rw [getLast?_map]
  cases tokens.getLast? with
  | none => rfl
  | some token => exact isComment_spelling token

theorem last_of_plain {tokens : List Token} (h : ∀ token ∈ tokens, token.isComment = false) :
    tokens.getLast?.any isComment = false := by
  cases hlast : tokens.getLast? with
  | none => rfl
  | some last => exact h last (mem_of_getLast? hlast)

namespace Cuts

open Text

variable {mark : Mark} {tokens : List Token} {gap : Text}

theorem taken (h : Cuts mark text tokens) :
    ∀ token ∈ tokens, token.Taken := by
  induction h with
  | done => exact nofun
  | @token mark gap rest text after c cls tokens _ hc htake _ ih =>
    intro token hmem
    rcases mem_cons.mp hmem with rfl | hrest
    · exact ⟨c, rest, after, hc, htake⟩
    · exact ih token hrest

theorem eq_nil (hgap : text.all isBlank) (h : Cuts mark text tokens) : tokens = [] := by
  cases h with
  | done => rfl
  | token _ hc =>
    rw [all_isBlank_append, all_cons, hc] at hgap
    cases hgap.2

/-- Blanks at the start of a text stand before its first character that is no blank. -/
theorem split_blanks {gap' rest : Text} {c : Char} (hgap : gap.all isBlank)
    (hc : isBlank c = false) (h : gap ++ text = gap' ++ c :: rest) :
    ∃ inner, gap' = gap ++ inner ∧ text = inner ++ c :: rest := by
  rcases append_eq_append_iff.mp h with ⟨inner, hgap', htext⟩ | ⟨inner, rfl, hrest⟩
  · exact ⟨inner, hgap', htext⟩
  · cases inner with
    | nil => exact ⟨[], by rw [append_nil, append_nil], hrest.symm⟩
    | cons d inner =>
      obtain ⟨rfl, -⟩ := List.cons.inj hrest
      have hblank := all_eq_true.mp hgap c (by simp)
      rw [hc] at hblank
      cases hblank

theorem unblank (hgap : gap.all isBlank) (h : Cuts mark (gap ++ text) tokens) :
    Cuts (mark.after gap) text tokens := by
  generalize hwhole : gap ++ text = whole at h
  cases h with
  | done hblank =>
    rw [← hwhole, all_isBlank_append] at hblank
    exact .done hblank.2
  | token hinner hc htake hmore =>
    obtain ⟨inner, rfl, rfl⟩ := split_blanks hgap hc hwhole
    rw [Mark.after_append] at hmore ⊢
    exact .token (all_isBlank_append.mp hinner).2 hc htake hmore

/-- A text that starts with no blank starts with its first token. -/
theorem first {c : Char} {rest : Text} (hc : isBlank c = false)
    (h : Cuts mark (c :: rest) tokens) : ∃ cls text after more,
      take? c rest = some (cls, text, after) ∧ Cuts (mark.after text) after more ∧
      tokens = ⟨cls, text, mark, mark.after text⟩ :: more := by
  generalize hwhole : c :: rest = whole at h
  cases h with
  | done hblank =>
    rw [← hwhole, all_cons, hc] at hblank
    cases hblank
  | @token _ gap _ _ _ d _ _ hgap _ htake hmore =>
    cases gap with
    | nil =>
      obtain ⟨rfl, rfl⟩ := List.cons.inj hwhole
      exact ⟨_, _, _, _, htake, hmore, rfl⟩
    | cons d gap =>
      obtain ⟨rfl, -⟩ := List.cons.inj hwhole
      rw [all_cons, hc] at hgap
      cases hgap

/-- Texts are put together where a separator stands, after a comment a line feed. -/
theorem joined {first second : List Token} (ha : Cuts mark a first)
    (hb : Cuts (mark.after a) b second) (hseparates : b.head?.all separates)
    (hcomment : first.getLast?.any isComment → b.head?.all (· = '\n')) :
    Cuts mark (a ++ b) (first ++ second) := by
  induction ha with
  | done hgap => exact .blank hgap hb
  | @token mark gap rest text after c cls tokens hgap hc htake hmore ih =>
    obtain ⟨body, rfl, rfl⟩ := take?_split htake
    have hkeeps : Keeps cls after (after ++ b) := by
      refine ⟨after, [], b, (append_nil after).symm, rfl, hseparates, ?_⟩
      rintro rfl rfl
      obtain rfl := hmore.eq_nil rfl
      exact hcomment rfl
    rw [append_assoc, cons_append, append_assoc]
    refine .token hgap hc (take?_keeps htake hkeeps) (ih ?_ fun hlast => hcomment ?_)
    · rw [← Mark.after_append, ← Mark.after_append]
      exact hb
    · cases tokens with
      | nil => cases hlast
      | cons => rwa [getLast?_cons_cons]

end Cuts

end Token

namespace Text

open Token

variable {cls : TokenClass} {rest body after : Text}

/-- The text is cut into tokens with the given spellings. -/
inductive Spells : Text → List Spelling → Prop
  | done {gap : Text} (hgap : gap.all isBlank = true) : Spells gap []
  | token {gap rest text after : Text} {c : Char} {cls : TokenClass} {more : List Spelling}
      (hgap : gap.all isBlank = true) (hc : isBlank c = false)
      (htake : take? c rest = some (cls, text, after)) (hmore : Spells after more) :
      Spells (gap ++ c :: rest) (.of cls text :: more)

theorem Spells.of_cuts {mark : Mark} {tokens : List Token} (h : Cuts mark text tokens) :
    Spells text (tokens.map Token.spelling) := by
  induction h with
  | done hgap => exact .done hgap
  | token hgap hc htake _ ih => exact .token hgap hc htake ih

theorem Spells.cuts (h : Spells text ss) (mark : Mark) :
    ∃ tokens, Cuts mark text tokens ∧ tokens.map Token.spelling = ss := by
  induction h generalizing mark with
  | done hgap => exact ⟨[], .done hgap, rfl⟩
  | @token gap rest text after c cls more hgap hc htake _ ih =>
    obtain ⟨tokens, hcuts, rfl⟩ := ih ((mark.after gap).after text)
    exact ⟨_, .token hgap hc htake hcuts, rfl⟩

theorem Spells.blank {gap : Text} (hgap : gap.all isBlank) (h : Spells text ss) :
    Spells (gap ++ text) ss := by
  obtain ⟨tokens, hcuts, rfl⟩ := h.cuts (({} : Mark).after gap)
  exact .of_cuts (.blank hgap hcuts)

theorem all_isBlank_of_spells (h : Spells text []) : text.all isBlank := by
  cases h with
  | done hgap => exact hgap

theorem Spells.append {first second : List Spelling} (ha : Spells a first) (hb : Spells b second)
    (hseparates : b.head?.all separates)
    (hcomment : first.getLast?.any Spelling.isComment → b.head?.all (· = '\n')) :
    Spells (a ++ b) (first ++ second) := by
  obtain ⟨tokens, hcuts, rfl⟩ := ha.cuts {}
  obtain ⟨others, hothers, rfl⟩ := hb.cuts (({} : Mark).after a)
  rw [last_spelling] at hcomment
  rw [← map_append]
  exact .of_cuts (hcuts.joined hothers hseparates hcomment)

theorem Spells.single (hc : isBlank c = false) (h : take? c rest = some (cls, text, after)) :
    Spells text [.of cls text] := by
  obtain ⟨body, rfl, rfl⟩ := take?_split h
  have halone : take? c (body ++ []) = some (cls, c :: body, []) :=
    take?_keeps h ⟨[], after, [], rfl, rfl, rfl, fun _ _ => rfl⟩
  rw [append_nil] at halone
  have hspells : Spells ([] ++ c :: body) _ := .token rfl hc halone (.done rfl)
  exact hspells

/-- Characters that are tokens by themselves, whatever follows them. -/
def isLone (c : Char) : Bool := c ∈ ['(', ')', '\x7b', '\x7d', ';', ',']

theorem take?_lone (h : isLone c) (rest : Text) :
    isBlank c = false ∧ separates c ∧ take? c rest = some (.symbol, [c], rest) := by
  have hmem : c ∈ ['(', ')', '\x7b', '\x7d', ';', ','] := of_decide_eq_true h
  have hclass : ['(', ')', '\x7b', '\x7d', ';', ','].all (fun c => c ≠ '/' ∧ c ≠ '\"' ∧ c ≠ '\x60' ∧
      c.isDigit = false ∧ isWordStart c = false ∧ isBlank c = false ∧ separates c ∧
      ∀ s ∈ longSymbols, s.head? ≠ some c) := by
    decide
  obtain ⟨hslash, hquote, hraw, hdigit, hword, hblank, hseparates, hlong⟩ :=
    of_decide_eq_true (all_eq_true.mp hclass c hmem)
  have hnone : longSymbols.find? (fun s => s.isPrefixOf (c :: rest)) = none := by
    apply find?_eq_none.mpr
    intro s hs hstarts
    have hnonempty : ∀ s ∈ longSymbols, s ≠ [] := by decide
    cases s with
    | nil => exact hnonempty [] hs rfl
    | cons d s =>
      obtain ⟨after, hafter⟩ := List.isPrefixOf_iff_prefix.mp hstarts
      obtain ⟨rfl, -⟩ := List.cons.inj hafter
      exact hlong _ hs rfl
  refine ⟨hblank, hseparates, ?_⟩
  rw [take?, if_neg (fun hboth => hslash hboth.1), if_neg hquote, if_neg hraw, hdigit, hword]
  simp only [Bool.false_eq_true, if_false, takeSymbol, hnone]

theorem Spells.lone (hc : isLone c) (h : Spells text ss) :
    Spells (c :: text) (⟨.symbol, [c]⟩ :: ss) := by
  obtain ⟨hblank, -, htake⟩ := take?_lone hc text
  have hspells : Spells ([] ++ c :: text) _ := .token rfl hblank htake h
  exact hspells

/-- A digit goes on with a word but does not start one. -/
theorem word_of_isDigit (h : c.isDigit) : isWordStart c = false ∧ isWordPart c := by
  have hrange : 48 ≤ c.toNat ∧ c.toNat ≤ 57 := by
    simp only [Char.isDigit, Bool.and_eq_true, decide_eq_true_eq] at h
    exact h
  have hdigits : ∀ n ∈ List.range' 48 10, isWordStart (Char.ofNat n) = false ∧
      isWordPart (Char.ofNat n) := by decide
  have hc := hdigits c.toNat (mem_range'_1.mpr (by omega))
  rwa [Char.ofNat_toNat] at hc

/-- Blanks are no part of any token but comments and strings. -/
theorem separates_of_isBlank (h : isBlank c) : separates c := by
  have hblanks : ∀ n ∈ [9, 10, 11, 12, 13, 0x20, 0x85, 0xA0, 0x1680, 0x2000, 0x2001, 0x2002,
      0x2003, 0x2004, 0x2005, 0x2006, 0x2007, 0x2008, 0x2009, 0x200A, 0x2028, 0x2029, 0x202F,
      0x205F, 0x3000], separates (Char.ofNat n) := by
    decide +kernel
  have hc := hblanks c.toNat (by
    simp only [isBlank, Bool.or_eq_true, Bool.and_eq_true, decide_eq_true_eq, beq_iff_eq] at h
    simp only [mem_cons]
    omega)
  rwa [Char.ofNat_toNat] at hc

theorem isBlank_of_isWordPart (h : isWordPart c) : isBlank c = false := by
  by_contra hblank
  have hseparates := separates_of_isBlank (eq_true_of_ne_false hblank)
  simp only [separates, h] at hseparates
  cases hseparates

theorem isWordPart_of_isWord (h : isWord text) : ∀ c ∈ text, isWordPart c := by
  cases text with
  | nil => cases h
  | cons c rest =>
    rw [isWord, Bool.and_eq_true] at h
    have hpart : isWordPart c := by
      simp only [isWordStart, Bool.or_eq_true] at h
      simp only [isWordPart, Bool.or_eq_true]
      exact h.1.imp_left .inl
    intro d hd
    rcases mem_cons.mp hd with rfl | hd
    · exact hpart
    · exact all_eq_true.mp h.2 d hd

theorem take?_word {c : Char} {rest next : Text} (h : isWord (c :: rest))
    (hnext : next.head?.all (!isWordPart ·)) :
    isBlank c = false ∧ take? c (rest ++ next) = some (.word, c :: rest, next) := by
  have hpart := isWordPart_of_isWord h c mem_cons_self
  rw [isWord, Bool.and_eq_true] at h
  obtain ⟨hstart, hparts⟩ := h
  have hother : ∀ d, isWordStart d = false → c ≠ d := by
    rintro d hd rfl
    exact Bool.false_ne_true (hd.symm.trans hstart)
  have hdigit : c.isDigit = false := by
    by_contra hdigit
    exact Bool.false_ne_true
      ((word_of_isDigit (eq_true_of_ne_false hdigit)).1.symm.trans hstart)
  have hall : takeWord (rest ++ next) = (rest, next) := by
    have hmem : ∀ d ∈ rest, isWordPart d := all_eq_true.mp hparts
    rw [takeWord, takeWhile_append_of_pos hmem, dropWhile_append_of_pos hmem]
    cases next with
    | nil => rw [takeWhile_nil, append_nil, dropWhile_nil]
    | cons d next =>
      have hd : ¬isWordPart d := by simpa using hnext
      rw [takeWhile_cons_of_neg hd, append_nil, dropWhile_cons_of_neg hd]
  refine ⟨isBlank_of_isWordPart hpart, ?_⟩
  rw [take?, if_neg (fun hboth => hother '/' (by decide) hboth.1),
    if_neg (hother '\"' (by decide)), if_neg (hother '\x60' (by decide)), hdigit, hstart, hall]
  rfl

theorem Spells.word (h : isWord text) : Spells text [⟨.word, text⟩] := by
  cases text with
  | nil => cases h
  | cons c rest =>
    obtain ⟨hblank, htake⟩ := @take?_word c rest [] h rfl
    exact .single hblank htake

theorem isBlank_quoteOf (raw : Bool) : isBlank (quoteOf raw) = false := by cases raw <;> decide

theorem takeNumber_not_separates (h : c ∈ (takeNumber text).1) :
    separates c = false := by
  induction text with
  | nil => cases h
  | cons d text ih =>
    unfold takeNumber at h
    split at h
    · next hpart =>
      rcases mem_cons.mp h with rfl | hmem
      · simp only [Bool.or_eq_true, Bool.and_eq_true, beq_iff_eq] at hpart
        rcases hpart with (halpha | hline) | ⟨hpoint, -⟩
        · simp [separates, halpha]
        · simp [separates, hline]
        · simp [separates, hpoint]
      · exact ih hmem
    · cases h

theorem takeSymbol_not_separates {d : Char} (hbody : (takeSymbol c rest).1 = c :: body)
    (h : d ∈ body) : separates d = false := by
  unfold takeSymbol at hbody
  split at hbody
  · next s hfound =>
    refine not_separates_of_mem_longSymbols s (mem_of_find?_eq_some hfound) d ?_
    have hs : s = c :: body := hbody
    rw [hs]
    exact h
  · obtain rfl : body = [] := (List.cons.inj hbody).2.symm
    cases h

theorem isBlank_of_not_separates (h : separates c = false) : isBlank c = false := by
  by_contra hblank
  have hseparates := separates_of_isBlank (eq_true_of_ne_false hblank)
  exact Bool.false_ne_true (h.symm.trans hseparates)

/-- The ways in which a token is taken: a comment, a string, or characters that no separator is among
after the first. -/
theorem take?_cases (h : take? c rest = some (cls, c :: body, after)) :
    (cls = .comment ∧ c = '/' ∧ rest.head? = some '/' ∧
        takeComment (c :: rest) = (c :: body, after)) ∨
      (∃ raw, cls = .quoted ∧ c = quoteOf raw ∧ Quoted raw false body) ∨
      (cls ≠ .comment ∧ cls ≠ .quoted ∧ ∀ d ∈ body, separates d = false) := by
  unfold take? at h
  split at h
  · next hslash =>
    injection h with h
    injection h with hcls htake
    exact .inl ⟨hcls.symm, hslash.1, hslash.2, htake⟩
  split at h
  · next hquote =>
    obtain ⟨⟨inner, left⟩, hinner, hpair⟩ := Option.map_eq_some_iff.mp h
    cases hpair
    exact .inr (.inl ⟨false, rfl, hquote, (takeString?_eq_some_iff.mp hinner).1⟩)
  split at h
  · next hquote =>
    obtain ⟨⟨inner, left⟩, hinner, hpair⟩ := Option.map_eq_some_iff.mp h
    cases hpair
    exact .inr (.inl ⟨true, rfl, hquote, (takeRawString?_eq_some_iff.mp hinner).1⟩)
  refine .inr (.inr ?_)
  split at h
  · injection h with h
    injection h with hcls h
    injection h with htext _
    refine hcls ▸ ⟨by decide, by decide, fun d hd => ?_⟩
    rw [← (List.cons.inj htext).2] at hd
    exact takeNumber_not_separates hd
  split at h
  · injection h with h
    injection h with hcls h
    injection h with htext _
    refine hcls ▸ ⟨by decide, by decide, fun d hd => ?_⟩
    rw [← (List.cons.inj htext).2] at hd
    have hpart : isWordPart d := mem_takeWhile_imp hd
    simp [separates, hpart]
  · injection h with h
    injection h with hcls h
    injection h with htext _
    exact hcls ▸ ⟨by decide, by decide, fun d hd => takeSymbol_not_separates htext hd⟩

/-- The last character of a token is no blank, if the token is no comment. -/
theorem take?_last (hc : isBlank c = false) (h : take? c rest = some (cls, c :: body, after))
    (hcls : cls ≠ .comment) :
    ∃ last, (c :: body).getLast? = some last ∧ isBlank last = false := by
  rcases take?_cases h with ⟨hcomment, -⟩ | ⟨raw, -, -, hquoted⟩ | ⟨-, -, hplain⟩
  · exact absurd hcomment hcls
  · refine ⟨quoteOf raw, ?_, isBlank_quoteOf raw⟩
    rw [getLast?_cons, hquoted.last]
    rfl
  · refine ⟨_, getLast?_cons, ?_⟩
    cases hlast : body.getLast? with
    | none => exact hc
    | some d => exact isBlank_of_not_separates (hplain d (mem_of_getLast? hlast))

theorem cls_of_lone (h : token.Taken) (htext : token.text = [c]) (hc : isLone c) :
    token.cls = .symbol := by
  obtain ⟨d, rest, after, -, htake⟩ := h
  rw [htext] at htake
  obtain ⟨body, hbody, -⟩ := take?_split htake
  obtain ⟨rfl, -⟩ := List.cons.inj hbody
  rw [(take?_lone hc rest).2.2] at htake
  injection htake with htake
  injection htake with hcls _
  exact hcls.symm

end Text

theorem Token.isWord_text (h : token.Taken) (hword : token.isWord) :
    Text.isWord token.text := by
  obtain ⟨c, rest, after, -, htake⟩ := h
  have hcls : token.cls = .word := of_decide_eq_true hword
  rw [hcls] at htake
  unfold take? at htake
  split at htake
  · cases htake
  split at htake
  · obtain ⟨_, _, hpair⟩ := Option.map_eq_some_iff.mp htake
    cases hpair
  split at htake
  · obtain ⟨_, _, hpair⟩ := Option.map_eq_some_iff.mp htake
    cases hpair
  split at htake
  · cases htake
  split at htake
  · next hstart =>
    injection htake with htake
    injection htake with _ htake
    injection htake with htext _
    rw [← htext, Text.isWord, hstart]
    exact all_takeWhile
  · cases htake

namespace Token.Cuts

open Text

variable {mark : Mark} {tokens : List Token} {gap : Text}

/-- Blanks at the end of a text stand after its last character that is no blank. -/
theorem split_blanks_back {front after : Text} {last : Char} (hgap : gap.all isBlank)
    (hlast : front.getLast? = some last) (hsolid : isBlank last = false)
    (h : text ++ gap = front ++ after) :
    ∃ inner, text = front ++ inner ∧ after = inner ++ gap := by
  rcases append_eq_append_iff.mp h with ⟨inner, rfl, rfl⟩ | ⟨inner, htext, hafter⟩
  · rw [getLast?_append] at hlast
    cases hinner : inner.getLast? with
    | none =>
      obtain rfl := getLast?_eq_none_iff.mp hinner
      exact ⟨[], by rw [append_nil, append_nil], rfl⟩
    | some d =>
      rw [hinner] at hlast
      cases hlast
      have hblank := all_eq_true.mp hgap last
        (mem_append_left _ (mem_of_getLast? hinner))
      rw [hsolid] at hblank
      cases hblank
  · exact ⟨inner, htext, hafter⟩

/-- Only a comment can end in blanks, and it is a comment without them too. -/
theorem take?_unblank {c : Char} {cls : TokenClass} {body after : Text} (hc : isBlank c = false)
    (hgap : gap.all isBlank)
    (h : take? c (body ++ gap ++ after) = some (cls, c :: (body ++ gap), after)) :
    take? c (body ++ []) = some (cls, c :: body, []) ∧ (cls ≠ .comment → gap = []) := by
  have hnone (hcls : cls ≠ .comment) : gap = [] := by
    obtain ⟨last, hlast, hsolid⟩ := take?_last hc h hcls
    obtain ⟨inner, -, hinner⟩ := @split_blanks_back (c :: body) gap (c :: (body ++ gap)) [] last hgap
      hlast hsolid (append_nil _).symm
    exact (append_eq_nil_iff.mp hinner.symm).2
  refine ⟨?_, hnone⟩
  by_cases hcls : cls = .comment
  · subst hcls
    obtain ⟨-, rfl, hslash, hcomment⟩ := (take?_cases h).resolve_right (by simp)
    obtain ⟨line, hline⟩ := head?_eq_some_iff.mp hslash
    have hwhole := congrArg Prod.fst hcomment
    rw [hline] at hwhole
    cases body with
    | nil =>
      obtain rfl : gap = '/' :: line.takeWhile (· ≠ '\n') := (cons.inj hwhole).2.symm
      cases hgap
    | cons d body =>
      obtain rfl : '/' = d := (cons.inj (cons.inj hwhole).2).1
      exact take?_comment (fun hmem => (takeComment_ends hcomment).1 (by simp [hmem])) rfl
  · obtain rfl := hnone hcls
    rw [append_nil] at h
    exact take?_keeps h ⟨[], after, [], rfl, rfl, rfl, fun _ _ => rfl⟩

/-- Blanks after a text belong to no token, unless a comment takes them. -/
theorem unblank_back (hgap : gap.all isBlank) (h : Cuts mark (text ++ gap) tokens) :
    ∃ found, Cuts mark text found ∧
      (tokens.getLast?.any isComment = false → found = tokens) := by
  generalize hwhole : text ++ gap = whole at h
  induction h generalizing text with
  | done hblank =>
    rw [← hwhole, all_isBlank_append] at hblank
    exact ⟨[], .done hblank.1, fun _ => rfl⟩
  | @token mark front rest _ after c cls tokens hfront hc htake hmore ih =>
    obtain ⟨body, rfl, rfl⟩ := take?_split htake
    rw [← cons_append, ← append_assoc] at hwhole
    rcases append_eq_append_iff.mp hwhole with ⟨inner, htoken, rfl⟩ | ⟨inner, rfl, rfl⟩
    · -- The text ends in the token or right behind it.
      rw [all_isBlank_append] at hgap
      obtain ⟨body, rfl, rfl⟩ := @split_blanks_back text inner (front ++ [c]) _ c hgap.1
        (getLast?_concat ..) hc (by rw [← htoken, append_assoc, singleton_append])
      obtain ⟨hshort, hnone⟩ := take?_unblank hc hgap.1 htake
      refine ⟨_, by simpa using Cuts.token hfront hc hshort (.done rfl), fun hlast => ?_⟩
      obtain rfl := hmore.eq_nil hgap.2
      obtain rfl := hnone (of_decide_eq_false hlast)
      rw [append_nil]
    · have hshort : take? c (body ++ inner) = some (cls, c :: body, inner) :=
        take?_keeps htake ⟨inner, gap, [], rfl, (append_nil inner).symm, rfl, fun _ _ => rfl⟩
      obtain ⟨found, hcuts, hsame⟩ := ih rfl
      have hall := Cuts.token hfront hc hshort hcuts
      rw [← cons_append, ← append_assoc] at hall
      refine ⟨_, hall, fun hlast => congrArg _ (hsame ?_)⟩
      cases tokens with
      | nil => rfl
      | cons => rwa [getLast?_cons_cons] at hlast

/-- Trimming keeps the tokens of a text, but for blanks at the end of a comment. -/
theorem trimmed (h : Cuts mark text tokens) :
    ∃ found, Cuts (mark.after (text.takeWhile isBlank)) (trim text) found ∧
      (tokens.getLast?.any isComment = false → found = tokens) := by
  rw [← takeWhile_append_dropWhile (l := text)] at h
  have hstart := h.unblank all_takeWhile
  have hback : trimStart text = trim text ++
      ((trimStart text).reverse.takeWhile isBlank).reverse := by
    unfold trim trimEnd
    rw [← reverse_append, takeWhile_append_dropWhile, reverse_reverse]
  change Cuts _ (trimStart text) tokens at hstart
  rw [hback] at hstart
  exact hstart.unblank_back (by rw [all_reverse]; exact all_takeWhile)

end Token.Cuts

namespace Text

open Token

theorem trim_append {gap core tail : Text} {last : Char} (hgap : gap.all isBlank)
    (htail : tail.all isBlank) (hfirst : core.head?.any isBlank = false)
    (hlast : core.getLast? = some last) (hblank : isBlank last = false) :
    trim (gap ++ (core ++ tail)) = core := by
  obtain ⟨inner, rfl⟩ := getLast?_eq_some_iff.mp hlast
  have hstart : trimStart (gap ++ (inner ++ [last] ++ tail)) = inner ++ [last] ++ tail := by
    unfold trimStart
    rw [dropWhile_append_of_pos (all_eq_true.mp hgap)]
    cases inner with
    | nil => simp [hblank]
    | cons c inner =>
      have hc : isBlank c = false := hfirst
      simp [hc]
  rw [trim, hstart]
  unfold trimEnd
  rw [reverse_append, dropWhile_append_of_pos]
  · simp [hblank]
  · intro c hc
    exact all_eq_true.mp htail c (mem_reverse.mp hc)

theorem cut_append {mark : Char} (h : mark ∉ a) :
    cut mark (a ++ mark :: b) = some (a, b) := by
  induction a with
  | nil => exact if_pos rfl
  | cons c a ih =>
    rw [mem_cons, not_or] at h
    rw [cons_append, cut, if_neg (Ne.symm h.1), ih h.2]
    rfl

/-- The text spells some tokens, the last of which is no comment, and no blank follows them. -/
structure Writes (text : Text) (ss : List Spelling) : Prop where
  spells : Spells text ss
  last : text.getLast?.any (fun c => !isBlank c) = true
  closed : ss.getLast?.any Spelling.isComment = false

theorem getLast?_trim {text : Text} (h : trim text ≠ []) :
    ∃ c, (trim text).getLast? = some c ∧ isBlank c = false := by
  obtain ⟨front, c, hfront⟩ := (eq_nil_or_concat (trim text)).resolve_left h
  refine ⟨c, by rw [hfront]; simp, ?_⟩
  have hhead : (trim text).reverse.head? = some c := by rw [hfront]; simp
  unfold trim trimEnd at hhead
  rw [reverse_reverse] at hhead
  have hblank := head?_dropWhile_not isBlank (trimStart text).reverse
  rw [hhead] at hblank
  exact hblank

theorem Spells.writes_trim {s : Spelling} (h : Spells text (s :: ss))
    (hclosed : (s :: ss).getLast?.any Spelling.isComment = false) :
    Writes (trim text) (s :: ss) := by
  obtain ⟨tokens, hcuts, htokens⟩ := h.cuts {}
  obtain ⟨found, htrim, hsame⟩ := hcuts.trimmed
  rw [← htokens, last_spelling] at hclosed
  obtain rfl := hsame hclosed
  have hne : trim text ≠ [] := by
    intro hnil
    rw [hnil] at htrim
    rw [htrim.eq_nil rfl] at htokens
    cases htokens
  obtain ⟨c, hlast, hblank⟩ := getLast?_trim hne
  refine ⟨htokens ▸ .of_cuts htrim, ?_, by rwa [← htokens, last_spelling]⟩
  rw [hlast, Option.any_some, hblank]
  rfl

/-- A text that writes tokens is more than blanks. -/
theorem Writes.trim_ne_nil (h : Writes text ss) :
    trim text ≠ [] := by
  have hspells := h.spells
  cases ss with
  | nil =>
    have hblank := all_eq_true.mp (all_isBlank_of_spells hspells)
    obtain ⟨c, hc, hnot⟩ := (Option.any_eq_true _ _).mp h.last
    rw [hblank c (mem_of_getLast? hc)] at hnot
    cases hnot
  | cons s ss =>
    have hlast := (hspells.writes_trim h.closed).last
    intro hnil
    rw [hnil] at hlast
    cases hlast

theorem last_append {α : Type} {p : α → Bool} {ss tt : List α} (hss : ss.getLast?.any p = false)
    (htt : tt.getLast?.any p = false) : (ss ++ tt).getLast?.any p = false := by
  rw [getLast?_append]
  cases hlast : tt.getLast? with
  | none => exact hss
  | some s =>
    rw [hlast] at htt
    exact htt

theorem Writes.word {tt : List Spelling} (ha : Writes a ss) (hb : Writes b tt) :
    Writes (a ++ ' ' :: b) (ss ++ tt) where
  spells := by
    have hblank : Spells ([' '] ++ b) tt := .blank rfl hb.spells
    refine ha.spells.append hblank rfl fun hcomment => ?_
    rw [ha.closed] at hcomment
    cases hcomment
  last := by
    obtain ⟨c, hc, hblank⟩ := (Option.any_eq_true _ _).mp hb.last
    rw [getLast?_append, getLast?_cons, hc]
    exact hblank
  closed := last_append ha.closed hb.closed

theorem Writes.close (ha : Writes a ss) (hc : isLone c) :
    Writes (a ++ [c]) (ss ++ [⟨.symbol, [c]⟩]) where
  spells := by
    obtain ⟨-, hseparates, -⟩ := take?_lone hc []
    refine ha.spells.append (.lone hc (.done rfl)) hseparates fun hcomment => ?_
    rw [ha.closed] at hcomment
    cases hcomment
  last := by
    obtain ⟨hblank, -⟩ := take?_lone hc []
    rw [getLast?_concat, Option.any_some, hblank]
    rfl
  closed := last_append ha.closed rfl

theorem Writes.lone (hc : isLone c) (ha : Writes a ss) :
    Writes (c :: a) (⟨.symbol, [c]⟩ :: ss) where
  spells := .lone hc ha.spells
  last := by
    obtain ⟨d, hd, hblank⟩ := (Option.any_eq_true _ _).mp ha.last
    rw [getLast?_cons, hd]
    exact hblank
  closed := @last_append Spelling _ [⟨.symbol, [c]⟩] ss rfl ha.closed

theorem Writes.keyword (h : isWord text) : Writes text [⟨.word, text⟩] where
  spells := .word h
  last := by
    obtain ⟨last, hlast⟩ : ∃ last, text.getLast? = some last := by
      cases text with
      | nil => cases h
      | cons => exact ⟨_, getLast?_cons⟩
    rw [hlast, Option.any_some,
      isBlank_of_isWordPart (isWordPart_of_isWord h last (mem_of_getLast? hlast))]
    rfl
  closed := rfl

theorem Writes.equals : Writes "=" [⟨.symbol, "="⟩] where
  spells := by
    have htake : take? '=' [] = some (TokenClass.symbol, ("=" : Text), []) := by decide
    exact .single (by decide) htake
  last := by decide
  closed := rfl

end Text

namespace Script

open Text

theorem word_of_writes (h : Writes text ss) (word : Text) :
    (⟨text, false⟩ : Script).word word = ⟨text ++ ' ' :: word, false⟩ := by
  obtain ⟨c, hc, hblank⟩ := (Option.any_eq_true _ _).mp h.last
  have hgap : (⟨text, false⟩ : Script).atGap = false := by
    rw [atGap, hc, Option.all_some]
    by_contra hspace
    simp only [Bool.not_eq_false, Bool.or_eq_true, beq_iff_eq] at hspace
    rcases hspace with rfl | rfl <;> cases hblank
  rw [Script.word, hgap]
  rfl

end Script

end Flowchart

import Flowchart.Proofs.Indentation

/-!
The tokens of a text whose lines are shifted. Every token keeps its class and its place in the
sequence. Its text is kept too, with two exceptions: a string over several lines is shifted with
them, and a comment loses the carriage return of its line ending.
-/
namespace Flowchart

open List

variable {column : Nat} {text : Text}

namespace Text

/-- Puts a text in front of the first line. -/
def onFirstLine (text : Text) : List Text → List Text
  | [] => [text]
  | line :: rest => (text ++ line) :: rest

/-- A text that ends inside a line: the lines after it go on where it stops. -/
theorem lines_append {body : Text} {last : Char} (hlast : body.getLast? = some last)
    (hfeed : last ≠ '\n') (hreturn : last ≠ '\r') :
    ∃ front line, line ≠ [] ∧
      ∀ rest, lines (body ++ rest) = front ++ onFirstLine line (lines rest) := by
  induction body with
  | nil => cases hlast
  | cons c body ih =>
    cases body with
    | nil =>
      obtain rfl : c = last := Option.some.inj hlast
      refine ⟨[], [c], cons_ne_nil _ _, fun rest => ?_⟩
      rw [singleton_append, lines_cons hfeed fun hboth => hreturn hboth.1]
      cases lines rest <;> rfl
    | cons d body =>
      obtain ⟨front, line, hline, hrest⟩ := ih hlast
      by_cases hc : c = '\n'
      · subst hc
        refine ⟨[] :: front, line, hline, fun rest => ?_⟩
        rw [cons_append, lines_feed, hrest]
        rfl
      by_cases hending : c = '\r' ∧ d = '\n'
      · obtain ⟨rfl, rfl⟩ := hending
        exact ⟨front, line, hline, fun rest => (lines_return _).trans (hrest rest)⟩
      have hcons (rest : Text) : lines (c :: d :: body ++ rest) =
          onFirst c (front ++ onFirstLine line (lines rest)) := by
        have hnot : ¬ (c = '\r' ∧ (d :: body ++ rest).head? = some '\n') := fun hboth =>
          hending ⟨hboth.1, Option.some.inj hboth.2⟩
        rw [cons_append, lines_cons hc hnot, hrest]
      cases front with
      | nil =>
        refine ⟨[], c :: line, cons_ne_nil _ _, fun rest => ?_⟩
        rw [hcons]
        cases lines rest <;> rfl
      | cons first front => exact ⟨(c :: first) :: front, line, hline, hcons⟩

end Text

namespace Layout

open Text Token

/-- A text that ends inside a line can be shifted apart from what follows it. -/
theorem reindent_apart {body : Text} {last : Char} (hlast : body.getLast? = some last)
    (hfeed : last ≠ '\n') (hreturn : last ≠ '\r') (rest : Text) :
    reindent column (body ++ rest) = reindent column body ++ reindent column rest := by
  obtain ⟨front, line, hline, hlines⟩ := lines_append hlast hfeed hreturn
  have hbody : lines body = front ++ [line] := by
    have hnil := hlines []
    rwa [append_nil] at hnil
  have hpadded (more : Text) : padded column (line ++ more) = padded column line ++ more := by
    unfold padded
    cases line with
    | nil => exact absurd rfl hline
    | cons c line => simp
  unfold reindent
  rw [hlines, hbody]
  cases front with
  | nil => cases lines rest <;> simp [onFirstLine]
  | cons first front => cases lines rest <;> simp [onFirstLine, hpadded]

end Layout

namespace Token

open Text Layout

def piece (token : Token) : TokenClass × Text := (token.cls, token.text)

/-- The text of a token when the lines of a text with `length` characters are shifted: a string is
shifted with them, and a comment before a line feed loses the carriage return. -/
def relaid (column length : Nat) (token : Token) : Text :=
  match token.cls with
  | .quoted => reindent column token.text
  | .comment => if token.stop.index < length then dropReturn token.text else token.text
  | _ => token.text

/-- The token is neither a string over several lines nor a comment in front of a carriage return and a
line feed. -/
structure Steady (length : Nat) (token : Token) : Prop where
  quoted : token.cls = .quoted → '\n' ∉ token.text
  comment : token.cls = .comment → token.stop.index < length → token.text.getLast? ≠ some '\r'

instance (length : Nat) (token : Token) : Decidable (Steady length token) :=
  decidable_of_iff ((token.cls = .quoted → '\n' ∉ token.text) ∧
      (token.cls = .comment → token.stop.index < length → token.text.getLast? ≠ some '\r'))
    ⟨fun h => ⟨h.1, h.2⟩, fun h => ⟨h.quoted, h.comment⟩⟩

theorem dropReturn_concat (line : Text) : dropReturn (line ++ ['\r']) = line := by
  unfold dropReturn stripEnd?
  simp

theorem dropReturn_eq_self {line : Text} (h : line.getLast? ≠ some '\r') : dropReturn line = line := by
  unfold dropReturn stripEnd?
  rw [if_neg h]
  rfl

theorem reindent_eq_self (h : '\n' ∉ text) : reindent column text = text := by
  have happend := @reindent_append column text [] (fun c hc heq => h (heq ▸ hc))
    (fun hboth => absurd hboth.2 (by simp))
  rwa [append_nil, reindent_nil, append_nil] at happend

theorem Steady.relaid_eq {length : Nat} {token : Token} (h : token.Steady length) :
    token.relaid column length = token.text := by
  unfold relaid
  split
  · next hcls => exact reindent_eq_self (h.quoted hcls)
  · next hcls =>
    split
    · next hlt => exact dropReturn_eq_self (h.comment hcls hlt)
    · rfl
  · rfl

/-- The token that a shifted text begins with, and how it is spelled. -/
theorem take?_relaid {column length : Nat} {c : Char} {rest text after : Text} {cls : TokenClass}
    {start stop : Mark} (h : take? c rest = some (cls, text, after))
    (hstop : stop.index + after.length = length) :
    take? c (reindent column rest) =
        some (cls, relaid column length ⟨cls, text, start, stop⟩, reindent column after) ∧
      Spelling.of cls (relaid column length ⟨cls, text, start, stop⟩) = .of cls text := by
  obtain ⟨body, rfl, rfl⟩ := take?_split h
  have hkept (hbody : ∀ d ∈ body, d ≠ '\n')
      (hreturn : ¬ (body.getLast? = some '\r' ∧ after.head? = some '\n'))
      (hsame : relaid column length ⟨cls, c :: body, start, stop⟩ = c :: body) :
      take? c (reindent column (body ++ after)) =
          some (cls, relaid column length ⟨cls, c :: body, start, stop⟩, reindent column after) ∧
        Spelling.of cls (relaid column length ⟨cls, c :: body, start, stop⟩) = .of cls (c :: body) := by
    rw [hsame, reindent_append hbody hreturn]
    exact ⟨take?_keeps h (keeps_reindent cls column after), rfl⟩
  rcases take?_cases h with ⟨rfl, rfl, hslash, hcomment⟩ | ⟨raw, rfl, rfl, hquoted⟩ |
    ⟨hcomment, hquote, hplain⟩
  · obtain ⟨hfeed, hafter⟩ := takeComment_ends hcomment
    have hbody : ∀ d ∈ body, d ≠ '\n' := by
      rintro d hd rfl
      exact hfeed (mem_cons_of_mem _ hd)
    have hrelaid : relaid column length ⟨.comment, '/' :: body, start, stop⟩ =
        if after.head? = some '\n' then dropReturn ('/' :: body) else '/' :: body := by
      unfold relaid
      cases after with
      | nil =>
        rw [length_nil] at hstop
        exact if_neg (by simp only; omega)
      | cons d after =>
        obtain rfl : d = '\n' := of_decide_eq_true hafter
        rw [length_cons] at hstop
        rw [if_pos (by simp only; omega)]
        rfl
    by_cases hreturn : body.getLast? = some '\r' ∧ after.head? = some '\n'
    · obtain ⟨hlast, hhead⟩ := hreturn
      obtain ⟨inner, rfl⟩ := getLast?_eq_some_iff.mp hlast
      rw [hrelaid, if_pos hhead, ← cons_append, dropReturn_concat]
      refine ⟨take?_comment_return (fun d hd => hbody d (mem_append_left _ hd)) ?_ hhead, rfl⟩
      cases inner with
      | nil => cases hslash
      | cons d inner => exact hslash
    · refine hkept hbody hreturn ?_
      rw [hrelaid]
      split
      · next hhead =>
        apply dropReturn_eq_self
        rw [getLast?_cons]
        cases hlast : body.getLast? with
        | none => decide
        | some last => simpa [hlast, hhead] using hreturn
      · rfl
  · obtain ⟨body', hbody', hshift, hiff⟩ := quoted_reindent hquoted column after
    have hfeed : quoteOf raw ≠ '\n' := by cases raw <;> decide
    have hreturn : quoteOf raw ≠ '\r' := by cases raw <;> decide
    obtain rfl : body' = reindent column body :=
      append_cancel_right (hshift.symm.trans (reindent_apart hquoted.last hfeed hreturn after))
    have hrelaid : relaid column length ⟨.quoted, quoteOf raw :: body, start, stop⟩ =
        quoteOf raw :: reindent column body := reindent_cons hfeed fun hboth => hreturn hboth.1
    rw [hrelaid, hshift, take?_quoted hbody']
    refine ⟨rfl, ?_⟩
    by_cases hlines : '\n' ∈ body
    · simp [Spelling.of, hlines, hiff]
    · rw [reindent_eq_self hlines]
  · have hchar {d e : Char} (he : isBlank e) (hd : d ∈ body) : d ≠ e := by
      rintro rfl
      exact Bool.false_ne_true ((isBlank_of_not_separates (hplain d hd)).symm.trans he)
    refine hkept (fun d => hchar (by decide))
      (fun hboth => hchar (by decide) (mem_of_getLast? hboth.1) rfl) ?_
    cases cls <;> first | rfl | exact absurd rfl hcomment | exact absurd rfl hquote

theorem Cuts.reindent {mark : Mark} {tokens : List Token} (h : Cuts mark text tokens) (column : Nat)
    (mark' : Mark) :
    ∃ shifted, Cuts mark' (Layout.reindent column text) shifted ∧
      shifted.map piece =
        tokens.map (fun token => (token.cls, token.relaid column (mark.index + text.length))) ∧
      shifted.map spelling = tokens.map spelling := by
  induction h generalizing mark' with
  | @done mark gap hgap =>
    obtain ⟨gap', hblank, hgap'⟩ := @reindent_blank column gap hgap []
    rw [append_nil, reindent_nil, append_nil] at hgap'
    rw [hgap']
    exact ⟨[], .done hblank, rfl, rfl⟩
  | @token mark gap rest text after c cls tokens hgap hc htake hmore ih =>
    obtain ⟨gap', hblank, hgap'⟩ := @reindent_blank column gap hgap (c :: rest)
    have hfeed : c ≠ '\n' := by
      rintro rfl
      cases hc
    have hreturn : c ≠ '\r' := by
      rintro rfl
      cases hc
    have hlength : ((mark.after gap).after text).index + after.length =
        mark.index + (gap ++ c :: rest).length := by
      obtain ⟨body, rfl, rfl⟩ := take?_split htake
      simp only [Mark.index_after, length_append, length_cons]
      omega
    obtain ⟨hfirst, hspelled⟩ :=
      @take?_relaid column _ c rest text after cls (mark.after gap) _ htake hlength
    obtain ⟨shifted, hcuts, hpieces, hsame⟩ := ih ((mark'.after gap').after (relaid column _ _))
    rw [hgap', reindent_cons hfeed fun hboth => hreturn hboth.1]
    refine ⟨_, .token hblank hc hfirst hcuts, ?_, ?_⟩
    · rw [map_cons, hpieces, hlength]
      rfl
    · rw [map_cons, hsame, spelling, hspelled]
      rfl

/-- A text whose lines are shifted, with or without its first line, has the same tokens up to the lines
of a string and the line endings of comments, and exactly the same tokens where it has no string over
several lines and no comment in front of a carriage return and a line feed. -/
theorem scan_shifted {text : Text} {tokens : List Token} (column : Nat)
    (hscan : scan text = .ok tokens) :
    ∃ placed shifted, scan (Layout.reindent column text) = .ok placed ∧
      scan (Layout.indent column text) = .ok shifted ∧ shifted.map piece = placed.map piece ∧
      placed.map piece = tokens.map (fun token => (token.cls, token.relaid column text.length)) ∧
      ((∀ token ∈ tokens, token.Steady text.length) → placed.map piece = tokens.map piece) := by
  have hcuts := scan_eq_ok_iff.mp hscan
  have hindex : ({} : Mark).index + text.length = text.length := Nat.zero_add _
  obtain ⟨placed, hplaced, hpieces, -⟩ := hcuts.reindent column {}
  obtain ⟨gap, hblank, hgap⟩ := indent_eq column text
  obtain ⟨shifted, hshifted, hsame, -⟩ := hcuts.reindent column (({} : Mark).after gap)
  rw [hindex] at hpieces hsame
  refine ⟨placed, shifted, scan_eq_ok_iff.mpr hplaced, ?_, hsame.trans hpieces.symm, hpieces, ?_⟩
  · rw [hgap]
    exact scan_eq_ok_iff.mpr (.blank hblank hshifted)
  · intro hsteady
    rw [hpieces]
    refine map_congr_left fun token hmem => ?_
    rw [(hsteady token hmem).relaid_eq]
    rfl

/-- Blank lines, both kinds of line endings, a comment and a string. -/
theorem scan_shifted_lines : ∃ text tokens placed shifted,
    text = ("if a \x7b\r\n\n  // b\n  c(\"d\");\r\n\x7d" : Text) ∧ scan text = .ok tokens ∧
      tokens.length = 10 ∧ scan (Layout.reindent 4 text) = .ok placed ∧
      scan (Layout.indent 4 text) = .ok shifted ∧ placed.map piece = tokens.map piece ∧
      shifted.map piece = tokens.map piece := by
  let text : Text := "if a \x7b\r\n\n  // b\n  c(\"d\");\r\n\x7d"
  obtain ⟨tokens, hscan, hlength, hsteady⟩ := Except.exists_ok (scan text)
    (fun tokens => tokens.length = 10 ∧ ∀ token ∈ tokens, token.Steady text.length)
    (by decide +kernel)
  obtain ⟨placed, shifted, hplaced, hshifted, hsame, -, hkept⟩ := scan_shifted 4 hscan
  have hpieces := hkept hsteady
  exact ⟨text, tokens, placed, shifted, rfl, hscan, hlength, hplaced, hshifted, hpieces,
    hsame.trans hpieces⟩

/-- A string over two lines gets blanks into its second line, and a comment loses a carriage return. -/
theorem scan_shifted_changes :
    (scan "\x60a\nb\x60").toOption.map (·.map piece) = some [(.quoted, "\x60a\nb\x60".toList)] ∧
    (scan (Layout.reindent 4 "\x60a\nb\x60")).toOption.map (·.map piece) =
      some [(.quoted, "\x60a\n    b\x60".toList)] ∧
    (scan (Layout.indent 4 "\x60a\nb\x60")).toOption.map (·.map piece) =
      some [(.quoted, "\x60a\n    b\x60".toList)] ∧
    (scan "// a\r\nb").toOption.map (·.map piece) =
      some [(.comment, "// a\r".toList), (.word, "b".toList)] ∧
    (scan (Layout.reindent 4 "// a\r\nb")).toOption.map (·.map piece) =
      some [(.comment, "// a".toList), (.word, "b".toList)] := by
  decide +kernel

end Token

namespace Text

theorem Spells.reindent {ss : List Spelling} (h : Spells text ss) (column : Nat) :
    Spells (Layout.reindent column text) ss := by
  obtain ⟨tokens, hcuts, rfl⟩ := h.cuts {}
  obtain ⟨shifted, hshifted, -, hsame⟩ := hcuts.reindent column {}
  exact hsame ▸ .of_cuts hshifted

/-- Shifting all lines of a text does not change what it spells. -/
theorem Spells.indent {ss : List Spelling} (h : Spells text ss) (column : Nat) :
    Spells (Layout.indent column text) ss := by
  obtain ⟨gap, hblank, hgap⟩ := indent_eq column text
  rw [hgap]
  exact .blank hblank (h.reindent column)

end Text

end Flowchart

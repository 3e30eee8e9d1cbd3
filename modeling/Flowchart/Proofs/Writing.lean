import Flowchart.Proofs.Rebuilding
import Flowchart.Proofs.Shifting
import Flowchart.Render.Statement

/-!
What scripts write. A text puts down spellings when it is cut into tokens with these spellings, up to
comments between them; with a strict likeness there are no comments. The pieces of a file that a
statement is made of put down the spellings of their lexemes, and a script that writes them one after
the other puts down all of them.
-/
namespace Flowchart

open Lexeme Token List StatementReader

variable {like : Likeness} {ss : List Spelling}

namespace Text

theorem Spells.unique {text : Text} {tt : List Spelling} (h : Spells text ss) (h' : Spells text tt) :
    ss = tt := by
  obtain ⟨tokens, hcuts, rfl⟩ := h.cuts {}
  obtain ⟨tokens', hcuts', rfl⟩ := h'.cuts {}
  have hscan := (Token.scan_eq_ok_iff.mpr hcuts).symm.trans (Token.scan_eq_ok_iff.mpr hcuts')
  rw [Except.ok.inj hscan]

/-- A bracket, comma or semicolon at the end of a text is its last token, unless the text ends in a
comment. -/
theorem Spells.unclose {text : Text} {c : Char} (hc : isLone c) (h : Spells (text ++ [c]) ss)
    (hclosed : ss.getLast?.any Spelling.isComment = false) :
    ∃ inner, ss = inner ++ [⟨.symbol, [c]⟩] ∧ Spells text inner := by
  obtain ⟨hblank, hseparates, -⟩ := take?_lone hc []
  obtain ⟨tokens, hcuts, rfl⟩ := h.cuts {}
  rw [last_spelling] at hclosed
  rcases eq_nil_or_concat tokens with rfl | ⟨front, last, rfl⟩
  · have hgap := all_isBlank_of_spells h
    rw [all_isBlank_append, all_cons, hblank] at hgap
    cases hgap.2
  rw [concat_eq_append] at hcuts hclosed ⊢
  rw [getLast?_concat] at hclosed
  have htaken := hcuts.taken last (by simp)
  obtain ⟨before, htext, hfront, -⟩ := hcuts.last_eq (by
    rw [getLast?_concat, Option.all_some, hblank]
    rfl)
  obtain ⟨d, rest, after, -, htake⟩ := htaken
  obtain ⟨body, hbody, rfl⟩ := take?_split htake
  rw [hbody] at htext htake
  -- The last token ends in the character, so it is the character.
  rcases eq_nil_or_concat body with rfl | ⟨inner, e, rfl⟩
  · obtain ⟨rfl, hlast⟩ := append_inj' htext rfl
    obtain rfl := (List.cons.inj hlast).1
    refine ⟨front.map Token.spelling, ?_, .of_cuts hfront⟩
    rw [map_append, map_singleton, Token.spelling, cls_of_lone (hcuts.taken last (by simp)) hbody hc,
      hbody]
    rfl
  · exfalso
    rw [concat_eq_append, ← cons_append, ← append_assoc] at htext
    obtain ⟨-, hlast⟩ := append_inj' htext rfl
    obtain rfl := (List.cons.inj hlast).1
    rcases take?_cases htake with ⟨hcls, -⟩ | ⟨raw, -, -, hquoted⟩ | ⟨-, -, hplain⟩
    · exact of_decide_eq_false hclosed hcls
    · have hquote := hquoted.last
      rw [concat_eq_append, getLast?_concat] at hquote
      rw [Option.some.inj hquote] at hc
      cases raw <;> exact absurd hc (by decide)
    · exact Bool.false_ne_true ((hplain c (by simp)).symm.trans hseparates)

end Text

def Spelling.uncommented (ss : List Spelling) : List Spelling := ss.filter (!·.isComment)

theorem Spelling.uncommented_append (ss tt : List Spelling) :
    uncommented (ss ++ tt) = uncommented ss ++ uncommented tt :=
  filter_append ..

/-- The spellings of a text are the given ones, up to comments. -/
structure Spelling.Shows (like : Likeness) (ss ks : List Spelling) : Prop where
  uncommented : Spelling.uncommented ss = ks
  strict : like.strict = true → ss = ks

namespace Spelling.Shows

theorem append {tt ks ls : List Spelling} (h : Shows like ss ks) (h' : Shows like tt ls) :
    Shows like (ss ++ tt) (ks ++ ls) := by
  refine ⟨?_, fun hstrict => by rw [h.strict hstrict, h'.strict hstrict]⟩
  rw [uncommented_append, h.uncommented, h'.uncommented]

theorem plain {ss : List Spelling} (h : ∀ s ∈ ss, s.isComment = false) : Shows like ss ss := by
  refine ⟨filter_eq_self.mpr fun s hs => ?_, fun _ => rfl⟩
  rw [h s hs]
  rfl

theorem mark (text : Text) : Shows like [mark text] [mark text] :=
  .plain fun s hs => by rw [mem_singleton.mp hs]; rfl

end Spelling.Shows

open Spelling (Shows)

namespace Text

/-- The text puts down the spellings and does not end in a comment or a blank. -/
def Puts (like : Likeness) (text : Text) (ks : List Spelling) : Prop :=
  ∃ ss, Writes text ss ∧ Shows like ss ks

/-- The text puts down the spellings. -/
def Says (like : Likeness) (text : Text) (ks : List Spelling) : Prop :=
  ∃ ss, Spells text ss ∧ Shows like ss ks

variable {a b : Text} {ks ls : List Spelling}

theorem Puts.says (h : Puts like a ks) : Says like a ks := by
  obtain ⟨ss, hwrites, hshows⟩ := h
  exact ⟨ss, hwrites.spells, hshows⟩

theorem Puts.trim_ne_nil (h : Puts like a ks) : trim a ≠ [] := by
  obtain ⟨ss, hwrites, -⟩ := h
  exact hwrites.trim_ne_nil

theorem Puts.congr (h : Puts like a ks) (heq : ks = ls) : Puts like a ls := heq ▸ h

theorem Puts.ne_nil (h : Puts like a ks) : a ≠ [] := by
  rintro rfl
  exact h.trim_ne_nil rfl

theorem Puts.keyword (h : isWord a) : Puts like a [keyword a] :=
  ⟨_, .keyword h, .plain fun s hs => by rw [mem_singleton.mp hs]; rfl⟩

theorem Puts.equals : Puts like "=" [mark "="] := ⟨_, .equals, .mark "="⟩

theorem Puts.word (h : Puts like a ks) (h' : Puts like b ls) :
    Puts like (a ++ ' ' :: b) (ks ++ ls) := by
  obtain ⟨ss, hwrites, hshows⟩ := h
  obtain ⟨tt, hwrites', hshows'⟩ := h'
  exact ⟨ss ++ tt, hwrites.word hwrites', hshows.append hshows'⟩

theorem Puts.close {c : Char} (h : Puts like a ks) (hc : isLone c) :
    Puts like (a ++ [c]) (ks ++ [mark [c]]) := by
  obtain ⟨ss, hwrites, hshows⟩ := h
  exact ⟨_, hwrites.close hc, hshows.append (.mark [c])⟩

theorem Puts.lone {c : Char} (hc : isLone c) (h : Puts like a ks) :
    Puts like (c :: a) (mark [c] :: ks) := by
  obtain ⟨ss, hwrites, hshows⟩ := h
  have hshows' : Shows like ([mark [c]] ++ ss) ([mark [c]] ++ ks) :=
    (Shows.mark [c]).append hshows
  exact ⟨_, hwrites.lone hc, hshows'⟩

theorem Puts.trim (h : Puts like a ks) : Puts like (Text.trim a) ks := by
  obtain ⟨ss, hwrites, hshows⟩ := h
  cases ss with
  | nil =>
    have hblank := all_eq_true.mp (all_isBlank_of_spells hwrites.spells)
    obtain ⟨c, hc, hnot⟩ := (Option.any_eq_true _ _).mp hwrites.last
    rw [hblank c (mem_of_getLast? hc)] at hnot
    cases hnot
  | cons s ss => exact ⟨_, hwrites.spells.writes_trim hwrites.closed, hshows⟩

/-- Texts on lines of their own, up to a closing brace. -/
theorem spells_lines (width : Nat) {texts : List Text} {kss : List (List Spelling)}
    (h : List.Forall₂ (Says like) texts kss) :
    ∃ ss, Spells (texts.flatMap (fun text => '\n' :: Layout.indent width text) ++ "\n\x7d")
        (ss ++ [mark "\x7d"]) ∧ Shows like ss kss.flatten := by
  induction h with
  | nil =>
    have hbrace : Spells "\x7d" [mark "\x7d"] := .lone (by decide) (.done rfl)
    have hline : Spells (['\n'] ++ "\x7d") [mark "\x7d"] := .blank rfl hbrace
    exact ⟨[], hline, .plain nofun⟩
  | @cons text ks texts kss hfirst _ ih =>
    obtain ⟨ss, hspells, hshows⟩ := hfirst
    obtain ⟨tt, hspells', hshows'⟩ := ih
    have hline : Spells (['\n'] ++ Layout.indent width text) ss := .blank rfl (hspells.indent width)
    have hfeed : ∃ after, texts.flatMap (fun text => '\n' :: Layout.indent width text) ++
        "\n\x7d" = '\n' :: after := by
      cases texts with
      | nil => exact ⟨_, rfl⟩
      | cons next texts => exact ⟨_, by rw [flatMap_cons, cons_append, cons_append]⟩
    obtain ⟨after, hafter⟩ := hfeed
    rw [hafter] at hspells'
    have hall := hline.append hspells' rfl fun _ => rfl
    refine ⟨ss ++ tt, ?_, ?_⟩
    · rw [flatMap_cons, append_assoc, hafter, append_assoc]
      exact hall
    · exact hshows.append hshows'

end Text

namespace Script

/-- The script is not glued to the next word, and its text puts down the spellings. -/
structure Puts (like : Likeness) (script : Script) (ks : List Spelling) : Prop where
  apart : script.glued = false
  text : Text.Puts like script.text ks

variable {script : Script} {ks ls : List Spelling} {text : Text}

theorem Puts.congr (h : script.Puts like ks) (heq : ks = ls) : script.Puts like ls := heq ▸ h

theorem puts_first (h : Text.Puts like text ks) : Puts like (({} : Script).word text) ks := ⟨rfl, h⟩

theorem Puts.word (h : script.Puts like ks) (hword : Text.Puts like text ls) :
    (script.word text).Puts like (ks ++ ls) := by
  obtain ⟨held, glued⟩ := script
  obtain ⟨rfl, hheld⟩ := h
  have hputs := Text.Puts.word hheld hword
  obtain ⟨ss, hwrites, -⟩ := hheld
  rw [word_of_writes hwrites]
  exact ⟨rfl, hputs⟩

theorem Puts.close {c : Char} (h : script.Puts like ks) (hc : Text.isLone c) :
    (script.close [c]).Puts like (ks ++ [mark [c]]) :=
  ⟨rfl, h.text.close hc⟩

end Script

variable {src : Source} {c : Cursor}

/-- With a strict likeness, the lexemes have no comments before them and do not run over several
lines. -/
def Lexeme.Fit (like : Likeness) (lexemes : List Lexeme) : Prop :=
  like.strict = true → ∀ lexeme ∈ lexemes, lexeme.comments = [] ∧ lexeme.token.spelling.Clean

namespace Lexeme

theorem Fit.of_subset {lexemes part : List Lexeme} (h : Fit like lexemes) (hpart : part ⊆ lexemes) :
    Fit like part :=
  fun hstrict lexeme hmem => h hstrict lexeme (hpart hmem)

theorem flat_of_bare {lexemes : List Lexeme} (h : ∀ lexeme ∈ lexemes, lexeme.comments = []) :
    flat lexemes = lexemes.map Lexeme.token := by
  induction lexemes with
  | nil => rfl
  | cons lexeme lexemes ih =>
    rw [flat, h lexeme mem_cons_self,
      ih fun other hmem => h other (mem_cons_of_mem _ hmem)]
    rfl

theorem shows_flat {lexemes : List Lexeme} (hproper : ∀ lexeme ∈ lexemes, lexeme.Proper)
    (hfit : Fit like lexemes) : Shows like ((flat lexemes).map Token.spelling) (spellings lexemes) := by
  refine ⟨?_, fun hstrict => ?_⟩
  · unfold Spelling.uncommented
    induction lexemes with
    | nil => rfl
    | cons lexeme lexemes ih =>
      obtain ⟨htoken, hcomments⟩ := hproper lexeme mem_cons_self
      have hnone : (lexeme.comments.map Token.spelling).filter (!·.isComment) = [] := by
        apply filter_eq_nil_iff.mpr
        intro s hs
        obtain ⟨token, hmem, rfl⟩ := mem_map.mp hs
        rw [isComment_spelling, hcomments token hmem]
        decide
      rw [flat, map_append, filter_append, hnone, map_cons,
        filter_cons_of_pos (by rw [isComment_spelling, htoken]; rfl),
        ih (forall_mem_cons.mp hproper).2
          (hfit.of_subset (subset_cons_self ..))]
      rfl
  · rw [flat_of_bare fun lexeme hmem => (hfit hstrict lexeme hmem).1]
    exact map_map ..

end Lexeme

namespace ExprReader

theorem source_ofTokens (bound : Nat) (tokens : List Token) :
    (ofTokens src bound tokens).source = (extentOf src tokens).source := by
  rcases ofTokens_cases src bound tokens with h | ⟨_, _, _, -, -, -, -, h⟩ | ⟨_, _, _, _, -, -, -, -, h⟩ <;>
  · rw [h]
    rfl

end ExprReader

namespace StatementReader

variable {left : List Lexeme}

/-- The text from the first lexeme to the last one puts down their spellings. -/
theorem Sits.puts {first : Lexeme} {more : List Lexeme} (h : Sits src c)
    (hrest : c.rest = first :: more ++ left) (hfit : Fit like (first :: more)) :
    Text.Puts like (Text.trim (src.slice first.token.start (stopOf {} (flat (first :: more)))))
      (spellings (first :: more)) := by
  have hproper : ∀ lexeme ∈ first :: more, lexeme.Proper := by
    intro lexeme hmem
    refine h.proper lexeme ?_
    rw [hrest]
    exact mem_append_left _ hmem
  have hwrites := (h.spells hrest).writes_trim (closed_flat hproper)
  refine ⟨_, hwrites, ?_⟩
  have hproper' : ∀ lexeme ∈ ⟨[], first.token⟩ :: more, lexeme.Proper := by
    intro lexeme hmem
    rcases mem_cons.mp hmem with rfl | hmem
    · exact ⟨(hproper first mem_cons_self).1, nofun⟩
    · exact hproper lexeme (mem_cons_of_mem _ hmem)
  have hfit' : Fit like (⟨[], first.token⟩ :: more) := by
    intro hstrict lexeme hmem
    rcases mem_cons.mp hmem with rfl | hmem
    · exact ⟨rfl, (hfit hstrict first mem_cons_self).2⟩
    · exact hfit hstrict lexeme (mem_cons_of_mem _ hmem)
  exact shows_flat hproper' hfit'

/-- An expression puts down the spellings of its lexemes. -/
theorem Sits.puts_forms {stop : Text} {taken : List Lexeme} {value : Expr} (h : Sits src c)
    (hrest : c.rest = taken ++ left) (hfit : Fit like taken)
    (hvalue : ExprReader.Forms src stop taken value) :
    Text.Puts like (Text.trim value.source) (spellings taken) := by
  obtain ⟨first, more, rfl⟩ := exists_cons_of_ne_nil hvalue.nonempty
  have hputs := h.puts hrest hfit
  rw [TypeText.slice_eq_extentOf] at hputs
  rw [hvalue.value, ExprReader.source_ofTokens]
  exact hputs

theorem Sits.puts_names {typed : List Lexeme} {typeName : Text} (h : Sits src c)
    (hrest : c.rest = typed ++ left) (hfit : Fit like typed) {after : List Lexeme}
    (htyped : TypeText.Names src typed after typeName) :
    Text.Puts like (Text.trim typeName) (spellings typed) := by
  obtain ⟨first, more, rfl, rfl⟩ := htyped.text
  exact h.puts hrest hfit

theorem Sits.puts_word {word : Lexeme} (h : Sits src c) (hrest : c.rest = word :: left) :
    Text.Puts like (Text.trim word.token.text) [word.token.spelling] := by
  obtain ⟨d, rest, after, hd, htake⟩ := h.taken word (by rw [hrest]; simp)
  have hproper := (h.proper word (by rw [hrest]; simp)).1
  have hplain : word.token.spelling.isComment = false := (isComment_spelling _).trans hproper
  have hspells : Text.Spells word.token.text [word.token.spelling] := .single hd htake
  exact ⟨_, hspells.writes_trim hplain, .plain fun s hs => mem_singleton.mp hs ▸ hplain⟩

theorem Sits.spelling_eq {lexeme : Lexeme} {text : Text} {s : Spelling} (h : Sits src c)
    (hmem : lexeme ∈ c.rest) (his : lexeme.token.is text) (hs : Text.Spells text [s]) :
    lexeme.token.spelling = s := by
  obtain ⟨d, rest, after, hd, htake⟩ := h.taken lexeme hmem
  have hspells : Text.Spells lexeme.token.text [lexeme.token.spelling] := .single hd htake
  rw [of_decide_eq_true his] at hspells
  exact (List.cons.inj (hspells.unique hs)).1

end StatementReader

end Flowchart

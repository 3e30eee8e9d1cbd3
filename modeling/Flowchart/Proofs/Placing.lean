import Flowchart.Proofs.Grammar
import Flowchart.Proofs.LineTable

/-!
Where tokens stand in the text. A mark is the place after a first part of the text, tokens are laid
one after the other from a mark on with blanks between them, and a cursor sits in the text when what
is left to read is laid from the end of the last token on. Every step of reading keeps this, and
reading a text starts with a cursor at its start.
-/
namespace Flowchart

open List Text

variable {mark : Mark} {tokens : List Token} {taken : List Lexeme} {src : Source}

namespace Text

/-- The piece of a text between two byte offsets, each of which falls between two characters. -/
def Between (text : Text) (start stop : Nat) (piece : Text) : Prop :=
  ∃ before after, text = before ++ (piece ++ after) ∧ byteLength before = start ∧
    byteLength (before ++ piece) = stop

/-- Only blanks stand between two byte offsets. -/
def Gap (text : Text) (start stop : Nat) : Prop :=
  ∃ gap, Between text start stop gap ∧ gap.all isBlank = true

end Text

namespace Extent

/-- The extent is that of the piece between two byte offsets. -/
structure Covers (src : Source) (start stop : Nat) (extent : Extent) : Prop where
  nonempty : start < stop
  range : extent.range =
    ⟨src.file, positionAt src.text start, positionAt src.text stop⟩
  source : Between src.text start stop extent.source

end Extent

namespace Text

/-- The position of a byte offset is the one after the text before it. -/
theorem positionAt_byteLength (before after : Text) :
    positionAt (before ++ after) (byteLength before) = ({} : Position).after before := by
  rw [positionAt_eq, takeBytes_byteLength]

end Text

namespace Source

open Token

/-- The mark is the one of a place in the text. -/
def Marks (src : Source) (mark : Mark) : Prop :=
  ∃ before after, src.text = before ++ after ∧ mark = ({} : Mark).after before

/-- The bytes before a mark. -/
def offset (src : Source) (mark : Mark) : Nat := byteLength (src.text.take mark.index)

theorem offset_after {before after : Text} (h : src.text = before ++ after) :
    src.offset (({} : Mark).after before) = byteLength before := by
  have hindex : (({} : Mark).after before).index = before.length := Nat.zero_add _
  unfold offset
  rw [hindex, h, take_left]

theorem offset_le (src : Source) (mark : Mark) : src.offset mark ≤ byteLength src.text := by
  have hsplit := byteLength_append (src.text.take mark.index) (src.text.drop mark.index)
  rw [take_append_drop] at hsplit
  unfold offset
  omega

theorem slice_after {before piece after : Text} (h : src.text = before ++ (piece ++ after)) :
    src.slice (({} : Mark).after before) (({} : Mark).after (before ++ piece)) = piece := by
  simp only [slice, Text.slice, Mark.index_after, Nat.zero_add, length_append, h,
    drop_left, Nat.add_sub_cancel_left, take_left]

theorem offset_mono {a b : Mark} (h : a.index ≤ b.index) : src.offset a ≤ src.offset b := by
  obtain ⟨more, hmore⟩ := take_prefix_take_left h
  unfold offset
  rw [← hmore, byteLength_append]
  exact Nat.le_add_right _ _

/-- The extent between two marks covers the piece between their offsets. -/
theorem covers_extent {a b : Mark} (ha : src.Marks a) (hb : src.Marks b) (hlt : a.index < b.index) :
    (src.extent a b).Covers src (src.offset a) (src.offset b) := by
  obtain ⟨before, after, htext, rfl⟩ := ha
  obtain ⟨before', after', htext', rfl⟩ := hb
  have hlength : before.length < before'.length := by
    simpa only [Mark.index_after, Nat.add_lt_add_iff_left] using hlt
  have hstarts : before <+: src.text := ⟨after, htext.symm⟩
  have hstarts' : before' <+: src.text := ⟨after', htext'.symm⟩
  obtain ⟨piece, rfl⟩ := prefix_of_prefix_length_le hstarts hstarts' hlength.le
  have hne : piece ≠ [] := by
    rintro rfl
    simp at hlength
  rw [append_assoc] at htext'
  rw [offset_after htext', offset_after (htext'.trans (append_assoc ..).symm)]
  refine ⟨?_, ?_, before, after', ?_, rfl, ?_⟩
  · have := byteLength_pos hne
    rw [byteLength_append]
    omega
  · rw [htext', positionAt_byteLength, ← append_assoc, positionAt_byteLength]
    rfl
  · change src.text = before ++ (src.slice _ _ ++ after')
    rw [slice_after htext', htext']
  · change byteLength (before ++ src.slice _ _) = _
    rw [slice_after htext']

/-- Some tokens stand one after another in the text from a mark on, with blanks before each. -/
def Lays (src : Source) (mark : Mark) (tokens : List Token) : Prop :=
  ∃ before piece after, src.text = before ++ (piece ++ after) ∧ mark = ({} : Mark).after before ∧
    Cuts mark piece tokens ∧ stopOf mark tokens = mark.after piece

theorem Lays.append {a b : List Token} (h : src.Lays mark (a ++ b)) :
    src.Lays mark a ∧ src.Lays (stopOf mark a) b := by
  obtain ⟨before, piece, after, htext, hmark, hcuts, hstop⟩ := h
  obtain ⟨first, second, rfl, hfirst, hmiddle, hsecond⟩ := hcuts.split
  rw [append_assoc] at htext
  refine ⟨⟨before, first, second ++ after, htext, hmark, hfirst, hmiddle⟩,
    before ++ first, second, after, ?_, ?_, hsecond, ?_⟩
  · rw [htext, append_assoc]
  · rw [hmiddle, hmark, Mark.after_append]
  · rw [← stopOf_append, hstop, hmiddle, Mark.after_append]

theorem Lays.marks (h : src.Lays mark tokens) :
    src.Marks mark ∧ src.Marks (stopOf mark tokens) ∧
      mark.index ≤ (stopOf mark tokens).index := by
  obtain ⟨before, piece, after, htext, hmark, -, hstop⟩ := h
  refine ⟨⟨before, piece ++ after, htext, hmark⟩, ⟨before ++ piece, after, ?_, ?_⟩, ?_⟩
  · rw [htext, append_assoc]
  · rw [hstop, hmark, Mark.after_append]
  · rw [hstop]
    exact Nat.le_add_right _ _

/-- Blanks stand before the first of some tokens, and the token itself takes some text. -/
theorem Lays.first {token : Token} (h : src.Lays mark (token :: tokens)) :
    src.Marks token.start ∧ src.Marks token.stop ∧ token.start.index < token.stop.index ∧
      mark.index ≤ token.start.index ∧
      Gap src.text (src.offset mark) (src.offset token.start) ∧
      Between src.text (src.offset token.start) (src.offset token.stop) token.text := by
  obtain ⟨before, piece, after, htext, rfl, hcuts, -⟩ := h
  cases hcuts with
  | @token _ gap rest _ left c cls _ hgap hc htake _ =>
    obtain ⟨body, rfl, rfl⟩ := take?_split htake
    have hstart : src.text = (before ++ gap) ++ (c :: body ++ (left ++ after)) := by
      rw [htext]
      simp
    have hstop : src.text = (before ++ gap ++ c :: body) ++ (left ++ after) := by
      rw [htext]
      simp
    rw [← Mark.after_append, ← Mark.after_append]
    refine ⟨⟨before ++ gap, _, hstart, rfl⟩, ⟨before ++ gap ++ c :: body, _, hstop, rfl⟩, ?_, ?_,
      ⟨gap, ⟨before, c :: body ++ (left ++ after), ?_, ?_, ?_⟩, hgap⟩,
      before ++ gap, left ++ after, hstart, ?_, ?_⟩
    · simp only [Mark.index_after, length_append, length_cons]
      omega
    · simp only [Mark.index_after, length_append]
      omega
    · rw [hstart, append_assoc]
    · rw [offset_after htext]
    · rw [offset_after hstart]
    · rw [offset_after hstart]
    · rw [offset_after hstop]

/-- The extent from the first of some tokens to their end. -/
theorem Lays.covers {token : Token} (h : src.Lays mark (token :: tokens)) :
    (src.extent token.start (stopOf mark (token :: tokens))).Covers src (src.offset token.start)
      (src.offset (stopOf mark (token :: tokens))) := by
  obtain ⟨hstart, -, hlt, -⟩ := h.first
  have hsplit : src.Lays mark ([token] ++ tokens) := h
  have hle := hsplit.append.2.marks.2.2
  rw [stopOf_cons, stopOf_nil] at hle
  refine covers_extent hstart h.marks.2.1 ?_
  rw [stopOf_cons]
  omega

/-- Some tokens of the text, in their order. -/
structure Ordered (src : Source) (tokens : List Token) : Prop where
  placed : ∀ token ∈ tokens, src.Marks token.start ∧ src.Marks token.stop ∧
    token.start.index < token.stop.index
  sorted : tokens.Pairwise fun a b => a.stop.index ≤ b.start.index

theorem Lays.ordered (h : src.Lays mark tokens) :
    src.Ordered tokens ∧ ∀ token ∈ tokens, mark.index ≤ token.start.index ∧
      token.stop.index ≤ (stopOf mark tokens).index := by
  induction tokens generalizing mark with
  | nil =>
    exact ⟨⟨nofun, .nil⟩,
      nofun⟩
  | cons token tokens ih =>
    obtain ⟨hstart, hstop, hlt, hle, -⟩ := h.first
    have hsplit : src.Lays mark ([token] ++ tokens) := h
    have hrest : src.Lays token.stop tokens := hsplit.append.2
    obtain ⟨⟨hplaced, hsorted⟩, hwithin⟩ := ih hrest
    have hend := hrest.marks.2.2
    refine ⟨⟨?_, pairwise_cons.mpr ⟨fun other hother => (hwithin other hother).1, hsorted⟩⟩, ?_⟩
    · intro other hother
      rcases mem_cons.mp hother with rfl | hmem
      · exact ⟨hstart, hstop, hlt⟩
      · exact hplaced other hmem
    · intro other hother
      rw [stopOf_cons]
      rcases mem_cons.mp hother with rfl | hmem
      · exact ⟨hle, hend⟩
      · obtain ⟨hlow, hhigh⟩ := hwithin other hmem
        exact ⟨by omega, hhigh⟩

theorem Ordered.sublist {some : List Token} (h : src.Ordered tokens) (hsub : some.Sublist tokens) :
    src.Ordered some :=
  ⟨fun token hmem => h.placed token (hsub.subset hmem), h.sorted.sublist hsub⟩

/-- Ordered tokens stand between the start of the first and the stop of the last of them. -/
theorem Ordered.ends {first last : Token} (h : src.Ordered tokens)
    (hfirst : tokens.head? = some first) (hlast : tokens.getLast? = some last) :
    ∀ token ∈ tokens, first.start.index ≤ token.start.index ∧
      token.stop.index ≤ last.stop.index := by
  intro token hmem
  constructor
  · cases tokens with
    | nil => cases hfirst
    | cons head tokens =>
      obtain rfl : head = first := Option.some.inj hfirst
      rcases mem_cons.mp hmem with rfl | hrest
      · exact le_rfl
      · have hbefore := (pairwise_cons.mp h.sorted).1 token hrest
        have hplaced := (h.placed head mem_cons_self).2.2
        omega
  · obtain ⟨front, rfl⟩ := getLast?_eq_some_iff.mp hlast
    rcases mem_append.mp hmem with hfront | hend
    · have hbefore := (pairwise_append.mp h.sorted).2.2 token hfront last
        (mem_singleton_self last)
      have hplaced := (h.placed last (mem_append_right _ (mem_singleton_self last))).2.2
      omega
    · rw [mem_singleton.mp hend]

end Source

namespace Lexeme

/-- The token is no comment, and what stands before it are comments. -/
def Proper (lexeme : Lexeme) : Prop :=
  lexeme.token.isComment = false ∧ ∀ comment ∈ lexeme.comments, comment.isComment = true

theorem proper_ofTokens {pending : List Token}
    (hpending : ∀ comment ∈ pending, comment.isComment) :
    ∀ lexeme ∈ ofTokens pending tokens, lexeme.Proper := by
  induction tokens generalizing pending with
  | nil => exact nofun
  | cons token tokens ih =>
    unfold ofTokens
    split
    · next hcomment =>
      apply ih
      intro comment hmem
      rcases mem_append.mp hmem with hmem | hmem
      · exact hpending comment hmem
      · rw [mem_singleton.mp hmem]
        exact hcomment
    · next hcomment =>
      intro lexeme hmem
      rcases mem_cons.mp hmem with rfl | hmem
      · exact ⟨eq_false_of_ne_true hcomment, hpending⟩
      · exact ih (forall_mem_nil _) lexeme hmem

end Lexeme

namespace StatementReader

open Lexeme Token Source

variable {c c' : Cursor}

/-- What is left to read stands in the text right after the cursor. -/
structure Sits (src : Source) (c : Cursor) : Prop where
  laid : ∃ trailing, src.Lays c.last (flat c.rest ++ trailing)
  proper : ∀ lexeme ∈ c.rest, lexeme.Proper

theorem Sits.lays (h : Sits src c) (hsteps : Steps c tokens c') :
    src.Lays c.last tokens ∧ Sits src c' := by
  obtain ⟨⟨trailing, hlays⟩, hproper⟩ := h
  rw [hsteps.rest, append_assoc] at hlays
  obtain ⟨htokens, hrest⟩ := hlays.append
  rw [← hsteps.last] at hrest
  refine ⟨htokens, ⟨trailing, hrest⟩, fun lexeme hmem => ?_⟩
  obtain ⟨whole, hwhole, htoken, hcomments⟩ := hsteps.within lexeme hmem
  refine ⟨?_, fun comment hcomment => (hproper whole hwhole).2 comment (hcomments hcomment)⟩
  rw [htoken]
  exact (hproper whole hwhole).1

theorem Sits.marks (h : Sits src c) : src.Marks c.last := by
  obtain ⟨trailing, hlays⟩ := h.laid
  exact hlays.marks.1

theorem Sits.le (h : Sits src c) (hsteps : Steps c tokens c') : c.last.index ≤ c'.last.index := by
  rw [hsteps.last]
  exact (h.lays hsteps).1.marks.2.2

/-- The token of the next lexeme stands after the cursor. -/
theorem Sits.token {lexeme : Lexeme} {rest : List Lexeme} (h : Sits src c)
    (hrest : c.rest = lexeme :: rest) :
    src.Marks lexeme.token.start ∧ src.Marks lexeme.token.stop ∧
      lexeme.token.start.index < lexeme.token.stop.index ∧
      c.last.index ≤ lexeme.token.start.index ∧
      Between src.text (src.offset lexeme.token.start) (src.offset lexeme.token.stop)
        lexeme.token.text := by
  obtain ⟨trailing, hlays⟩ := h.laid
  rw [hrest, flat, append_assoc] at hlays
  obtain ⟨hcomments, htoken⟩ := hlays.append
  obtain ⟨hstart, hstop, hlt, hle, -, hbetween⟩ := Lays.first htoken
  exact ⟨hstart, hstop, hlt, hcomments.marks.2.2.trans hle, hbetween⟩

/-- Only blanks stand before a token without comments. -/
theorem Sits.gap {first : Token} {rest : List Lexeme} (h : Sits src c)
    (hrest : c.rest = ⟨[], first⟩ :: rest) :
    Gap src.text (src.offset c.last) (src.offset first.start) := by
  obtain ⟨trailing, hlays⟩ := h.laid
  rw [hrest] at hlays
  exact (Lays.first hlays).2.2.2.2.1

theorem Sits.takes (h : Sits src c) (htakes : c.Takes taken c') :
    Sits src c' ∧ c.last.index ≤ c'.last.index :=
  ⟨(h.lays (.of_takes htakes)).2, h.le (.of_takes htakes)⟩

theorem Sits.reads {phrase : Phrase} (h : Sits src c) (hreads : Reads src phrase c c') :
    Sits src c' ∧ c.last.index ≤ c'.last.index := by
  obtain ⟨tokens, hsteps⟩ := hreads.steps
  exact ⟨(h.lays hsteps).2, h.le hsteps⟩

theorem Sits.start_lt {lexeme : Lexeme} (h : Sits src c) (htakes : c.Takes (lexeme :: taken) c') :
    lexeme.token.start.index < c'.last.index := by
  obtain ⟨-, -, hlt, -⟩ := h.token htakes.rest
  obtain ⟨hlays, -⟩ := h.lays (.of_takes htakes)
  have hmem : lexeme.token ∈ flat (lexeme :: taken) :=
    mem_append_right _ mem_cons_self
  have hwithin := (hlays.ordered.2 lexeme.token hmem).2
  rw [← htakes.last] at hwithin
  omega

theorem Sits.covers {lexeme : Lexeme} {next : Cursor} (h : Sits src c)
    (htakes : c.Takes (lexeme :: taken) next) (hnext : next.last.index ≤ c'.last.index)
    (hmarks : src.Marks c'.last) :
    (src.extent lexeme.token.start c'.last).Covers src (src.offset lexeme.token.start)
      (src.offset c'.last) := by
  have hlt := h.start_lt htakes
  exact covers_extent (h.token htakes.rest).1 hmarks (by omega)

end StatementReader

namespace FileReader

open StatementReader

variable {c' : Cursor} {α : Type} {a : α} {read : Reader α}

/-- The tokens of a file sit in it. -/
theorem sits_of_scan (h : Token.scan src.text = .ok tokens) :
    Sits src { rest := Lexeme.ofTokens [] tokens } := by
  obtain ⟨trailing, htrailing⟩ := Lexeme.flat_ofTokens [] tokens
  have hcuts : Token.Cuts {} src.text (tokens ++ []) := by
    rw [append_nil]
    exact Token.scan_eq_ok_iff.mp h
  obtain ⟨piece, after, htext, hpiece, hstop, -⟩ := hcuts.split
  refine ⟨⟨trailing, [], piece, after, htext, rfl, ?_, ?_⟩,
    Lexeme.proper_ofTokens nofun⟩
  · rw [← htrailing]
    exact hpiece
  · rw [← htrailing]
    exact hstop

theorem run_scans (h : run src read = .ok (a, c')) :
    ∃ tokens, Token.scan src.text = .ok tokens ∧
      read { rest := Lexeme.ofTokens [] tokens } = .ok a c' := by
  obtain ⟨tokens, htokens, h⟩ := Except.bind_eq_ok h
  refine ⟨tokens, htokens, ?_⟩
  split at h
  · next value cursor hread =>
    cases h
    exact hread
  · cases h

/-- Reading a text starts at its start, with nothing in the log. -/
theorem run_starts (h : run src read = .ok (a, c')) :
    ∃ c, Sits src c ∧ c.log = [] ∧ read c = .ok a c' := by
  obtain ⟨tokens, htokens, hread⟩ := run_scans h
  exact ⟨_, sits_of_scan htokens, rfl, hread⟩

theorem run_eq_ok (h : run src read = .ok (a, c')) : ∃ c, Sits src c ∧ read c = .ok a c' := by
  obtain ⟨c, hsits, -, hread⟩ := run_starts h
  exact ⟨c, hsits, hread⟩

end FileReader

end Flowchart

import Flowchart.Proofs.Declaring

/-!
The problems in the log and the statements that could not be read. Reading adds one problem for
each such statement, in the order of the text, and before it the problems that were found inside of
the statement before it failed. The statement is given up then but these problems stay, so the log
can hold more problems than there are broken statements, and out of order. Only statements that
start with a word that a block comes after can leave such problems behind.
-/
namespace Flowchart

open List

variable {src : Source} {low high : Nat} {extents : List Extent} {more : List Extent}
  {c c' : Cursor}

namespace Extent

/-- The word that the piece starts with, if it starts with one. -/
def firstWord (extent : Extent) : Text := extent.source.takeWhile Text.isWordPart

end Extent

mutual

/-- The pieces of a statement that could not be read. -/
def Statement.unread : Statement → List Extent
  | .cond _ _ body otherwise => body.unread ++ otherwise.unread
  | .loop _ _ body handler => body.unread ++ handler.unread
  | .each _ _ _ _ body handler => body.unread ++ handler.unread
  | .attempt _ body handler => body.unread ++ handler.unread
  | .lock _ body handler => body.unread ++ handler.unread
  | .invalid extent => [extent]
  | .varDecl .. => []
  | .assign .. => []
  | .ret .. => []
  | .exitLoop _ => []
  | .nextRound _ => []
  | .panic .. => []
  | .fail .. => []
  | .expression .. => []
  | .comment .. => []

def Otherwise.unread : Otherwise → List Extent
  | .nothing => []
  | .cond _ _ body otherwise => body.unread ++ otherwise.unread
  | .block body => body.unread

def Handler.unread : Handler → List Extent
  | .nothing => []
  | .onFail _ body => body.unread

def Block.unread : Block → List Extent
  | .mk _ statements => Statement.allUnread statements

def Statement.allUnread : List Statement → List Extent
  | [] => []
  | statement :: rest => statement.unread ++ Statement.allUnread rest

end

/-- The pieces of a file that could not be read as statements, at any depth and in their order. -/
def SourceFile.unread (file : SourceFile) : List Extent :=
  file.functions.flatMap fun function => function.body.unread

namespace Source

/-- Of two marks of a text the earlier one has the smaller position. -/
theorem position_le {a b : Mark} (ha : src.Marks a) (hb : src.Marks b) (hle : a.index ≤ b.index) :
    a.position ≤ b.position := by
  obtain ⟨before, after, htext, rfl⟩ := ha
  obtain ⟨before', after', htext', rfl⟩ := hb
  have hlength : before.length ≤ before'.length := by
    simpa only [Mark.index_after, Nat.add_le_add_iff_left] using hle
  have hstarts : before <+: src.text := ⟨after, htext.symm⟩
  have hstarts' : before' <+: src.text := ⟨after', htext'.symm⟩
  obtain ⟨piece, rfl⟩ := prefix_of_prefix_length_le hstarts hstarts' hlength
  rw [Mark.after_append]
  exact Position.le_after _ _

/-- Pieces of a text, one after the other between two indices. -/
inductive Places (src : Source) : (low high : Nat) → List Extent → Prop
  | nil {low high : Nat} (hle : low ≤ high) : Places src low high []
  | cons {low high : Nat} {a b : Mark} {extents : List Extent} (hlow : low ≤ a.index)
      (ha : src.Marks a) (hb : src.Marks b) (hlt : a.index < b.index)
      (hrest : Places src b.index high extents) :
      Places src low high (src.extent a b :: extents)

theorem Places.append {middle : Nat} (h : src.Places low middle extents)
    (hmore : src.Places middle high more) : src.Places low high (extents ++ more) := by
  induction h with
  | nil hle =>
    cases hmore with
    | nil hle' => exact .nil (hle.trans hle')
    | cons hlow ha hb hlt hrest => exact .cons (hle.trans hlow) ha hb hlt hrest
  | cons hlow ha hb hlt _ ih => exact .cons hlow ha hb hlt (ih hmore)

/-- Each of some pieces ends before the next one starts. -/
theorem Places.sorted (h : src.Places low high extents) :
    extents.Pairwise (fun a b => a.range.stop ≤ b.range.start) ∧
      ∀ mark, src.Marks mark → mark.index ≤ low → ∀ extent ∈ extents,
        mark.position ≤ extent.range.start := by
  induction h with
  | nil _ => exact ⟨.nil, nofun⟩
  | @cons low high a b extents hlow ha hb hlt hrest ih =>
    obtain ⟨hsorted, hafter⟩ := ih
    refine ⟨pairwise_cons.mpr ⟨hafter b hb le_rfl, hsorted⟩, ?_⟩
    intro mark hmark hle extent hmem
    rcases mem_cons.mp hmem with rfl | hmem
    · exact position_le hmark ha (hle.trans hlow)
    · exact hafter mark hmark (by omega) extent hmem

end Source

namespace Token

theorem take?_letter {c : Char} {rest text left : Text} {cls : TokenClass}
    (h : take? c rest = some (cls, text, left)) (hslash : c ≠ '/') (hquote : c ≠ '\"')
    (hback : c ≠ '\x60') (hdigit : c.isDigit = false) (hstart : Text.isWordStart c) :
    text = c :: rest.takeWhile Text.isWordPart := by
  unfold take? at h
  rw [if_neg fun hboth => hslash hboth.1, if_neg hquote, if_neg hback,
    if_neg (Bool.eq_false_iff.mp hdigit), if_pos hstart] at h
  cases h
  rfl

end Token

namespace StatementReader

open Token Source

variable {notes : List Diagnostic}

/-- A piece that starts with a word that a block comes after has it as its first word. -/
theorem firstWord_of_lays {mark : Mark} {first : Token} {more : List Token}
    (h : src.Lays mark (first :: more)) (hword : first.text ∈ blockWords) :
    (src.extent first.start (stopOf mark (first :: more))).firstWord ∈ blockWords := by
  obtain ⟨before, piece, after, htext, rfl, hcuts, hstop⟩ := h
  cases hcuts with
  | @token _ gap rest _ left c cls _ hgap hc htake _ =>
    obtain ⟨body, rfl, hrest⟩ := take?_split htake
    have hsource : (src.extent ((({} : Mark).after before).after gap)
        ((({} : Mark).after before).after (gap ++ c :: rest))).source = c :: rest := by
      have hpiece : src.text = (before ++ gap) ++ ((c :: rest) ++ after) := by
        rw [htext]
        simp
      have hslice := slice_after hpiece
      rw [append_assoc, Mark.after_append, Mark.after_append] at hslice
      exact hslice
    rw [hstop]
    rw [Extent.firstWord, hsource]
    have hletter : c ≠ '/' ∧ c ≠ '\"' ∧ c ≠ '\x60' ∧ c.isDigit = false ∧
        Text.isWordStart c ∧ Text.isWordPart c := by
      have hfirst : c ∈ blockWords.filterMap List.head? :=
        mem_filterMap.mpr ⟨c :: body, hword, rfl⟩
      have hall : (blockWords.filterMap List.head?).all (fun c => c ≠ '/' ∧ c ≠ '\"' ∧ c ≠ '\x60' ∧
          c.isDigit = false ∧ Text.isWordStart c ∧ Text.isWordPart c) := by
        decide
      exact of_decide_eq_true (all_eq_true.mp hall c hfirst)
    obtain ⟨hslash, hquote, hback, hdigit, hstart, hpart⟩ := hletter
    rw [takeWhile_cons_of_pos hpart, ← take?_letter htake hslash hquote hback hdigit hstart]
    exact hword

/-- The problems that reading notes for some broken statements. Each has its own one, after those
that were found inside of it. -/
inductive Traces : List Extent → List Diagnostic → Prop
  | nil : Traces [] []
  | cons {extent : Extent} {extents : List Extent} {error : SyntaxError}
      {added notes : List Diagnostic} (hadded : added ≠ [] → extent.firstWord ∈ blockWords)
      (hrest : Traces extents notes) :
      Traces (extent :: extents) (added ++ broken error extent.range :: notes)

theorem Traces.append {others : List Diagnostic} (h : Traces extents notes)
    (hmore : Traces more others) :
    Traces (extents ++ more) (notes ++ others) := by
  induction h with
  | nil => exact hmore
  | cons hadded _ ih =>
    rw [append_assoc]
    exact .cons hadded ih

theorem Traces.sublist (h : Traces extents notes) :
    (extents.map Extent.range).Sublist (notes.map Diagnostic.range) := by
  induction h with
  | nil => exact List.Sublist.refl _
  | cons _ _ ih =>
    rw [map_append]
    exact (ih.cons_cons _).trans (sublist_append_right _ _)

theorem Traces.eq_nil_iff (h : Traces extents notes) : notes = [] ↔ extents = [] := by
  cases h with
  | nil => simp
  | cons _ _ => simp

theorem Traces.map_range (h : Traces extents notes)
    (hplain : ∀ extent ∈ extents, extent.firstWord ∉ blockWords) :
    notes.map Diagnostic.range = extents.map Extent.range := by
  induction h with
  | nil => rfl
  | @cons extent extents error added notes hadded _ ih =>
    have hnone : added = [] := by
      by_contra hne
      exact hplain extent mem_cons_self (hadded hne)
    rw [hnone, nil_append, map_cons,
      ih fun other hmem => hplain other (mem_cons_of_mem _ hmem)]
    rfl

/-- What reading between two cursors leaves: broken statements that stand between them, and the
problems noted for these. -/
structure Leaves (src : Source) (c : Cursor) (extents : List Extent) (c' : Cursor) : Prop where
  traces : ∃ notes, c'.log = c.log ++ notes ∧ Traces extents notes
  places : src.Places c.last.index c'.last.index extents

theorem Leaves.trans {c'' : Cursor} (h : Leaves src c extents c') (hmore : Leaves src c' more c'') :
    Leaves src c (extents ++ more) c'' := by
  obtain ⟨notes, hlog, htraces⟩ := h.traces
  obtain ⟨others, hlog', htraces'⟩ := hmore.traces
  refine ⟨⟨notes ++ others, ?_, htraces.append htraces'⟩, h.places.append hmore.places⟩
  rw [hlog', hlog, append_assoc]

theorem Leaves.of_takes {taken : List Lexeme} (hsits : Sits src c) (h : c.Takes taken c') :
    Leaves src c [] c' :=
  ⟨⟨[], by rw [h.log, append_nil], .nil⟩, .nil (hsits.takes h).2⟩

theorem Leaves.refl (c : Cursor) : Leaves src c [] c :=
  ⟨⟨[], by rw [append_nil], .nil⟩, .nil le_rfl⟩

theorem comment?_log {comment : Statement} (h : comment? src c = .ok (some comment) c') :
    c'.log = c.log ∧ comment.unread = [] := by
  unfold comment? at h
  split at h
  · cases h
    exact ⟨rfl, by rw [Statement.unread]⟩
  · cases h

/-- The pieces of a phrase that could not be read. -/
def Phrase.unread : Phrase → List Extent
  | .statement found => found.unread
  | .statements found => Statement.allUnread found
  | .block found => found.unread
  | .handler found => found.unread
  | .conditional _ body otherwise => body.unread ++ otherwise.unread
  | .other found => found.unread

theorem unread_of_isPlain {statement : Statement} (h : statement.isPlain) :
    statement.unread = [] := by
  cases statement <;> first | rfl | cases h

/-- Every phrase leaves its broken statements and their problems. -/
theorem Reads.leaves {phrase : Phrase} (h : Reads src phrase c c') (hsits : Sits src c) :
    Leaves src c phrase.unread c' := by
  induction h with
  | plain htakes hplain =>
    rw [Phrase.unread, unread_of_isPlain (hplain.isPlain _)]
    exact .of_takes hsits htakes
  | cond _ _ ih =>
    exact ih hsits
  | guarded htakes hhead hbody _ ihbody ihafter =>
    have hsits₁ := (hsits.takes htakes).1
    have hall := ((Leaves.of_takes hsits htakes).trans (ihbody hsits₁)).trans
      (ihafter (hsits₁.reads hbody).1)
    cases hhead <;> exact hall
  | conditional htakes _ _ hbody _ ihbody ihafter =>
    have hsits₁ := (hsits.takes htakes).1
    exact ((Leaves.of_takes hsits htakes).trans (ihbody hsits₁)).trans
      (ihafter (hsits₁.reads hbody).1)
  | alone _ | unhandled _ => exact .refl _
  | chained htakes _ _ _ ih | fallback htakes _ _ ih | handled htakes _ _ _ _ ih =>
    exact (Leaves.of_takes hsits htakes).trans (ih (hsits.takes htakes).1)
  | block hopens _ hbody hcloses _ ih =>
    have hsits₁ := (hsits.takes hopens).1
    have hall := ((Leaves.of_takes hsits hopens).trans (ih hsits₁)).trans
      (Leaves.of_takes (hsits₁.reads hbody).1 hcloses)
    rw [append_nil] at hall
    exact hall
  | done _ _ =>
    exact .refl _
  | comment hcomment _ ih =>
    obtain ⟨first, run, lines, hsteps, -⟩ := comment?_steps hcomment
    obtain ⟨hlog, hnone⟩ := comment?_log hcomment
    have hskip : Leaves src _ [] _ :=
      ⟨⟨[], by rw [hlog, append_nil], .nil⟩, .nil (hsits.le hsteps)⟩
    rw [Phrase.unread, Statement.allUnread, hnone]
    exact hskip.trans (ih (hsits.lays hsteps).2)
  | cons _ _ hstatement _ ihstatement ihmore =>
    exact (ihstatement hsits).trans (ihmore (hsits.reads hstatement).1)
  | @broken first rest left stop statements c c₁ c' hrest hfirst hskip hleft hlast hlog _ ih =>
    obtain ⟨more, hsteps⟩ := skipBroken_steps hrest hfirst hskip hleft hlast
    obtain ⟨hlays, hsits₁⟩ := hsits.lays hsteps
    obtain ⟨error, added, hadded, hwords⟩ := hlog
    have hstop : stopOf c.last (first :: more) = stop := hsteps.last.symm.trans hlast
    have hown : Leaves src c [src.extent first.start stop] c₁ := by
      refine ⟨⟨_, hadded, .cons (fun hne => ?_) .nil⟩, ?_⟩
      · rw [← hstop]
        exact firstWord_of_lays hlays (hwords hne)
      · obtain ⟨hstart, -, hlt, hle, -⟩ := hlays.first
        have hend := (hlays.ordered.2 first mem_cons_self).2
        have hmark := hsits₁.marks
        rw [hlast] at hmark
        rw [hstop] at hend
        rw [hlast]
        exact .cons hle hstart hmark (by omega) (.nil le_rfl)
    exact hown.trans (ih hsits₁)

end StatementReader

namespace FileReader

open StatementReader

theorem declares_leaves {functions : List FunctionDef} (hsits : Sits src c)
    (h : Declares src functions c c') :
    Leaves src c (functions.flatMap fun function => function.body.unread) c' := by
  induction h with
  | done => exact .refl _
  | skip htakes _ ih => exact (Leaves.of_takes hsits htakes).trans (ih (hsits.takes htakes).1)
  | function htakes _ hbody _ ih =>
    have hreads := block_reads _ _ _ hbody
    have hsits₁ := (hsits.takes htakes).1
    exact ((Leaves.of_takes hsits htakes).trans (hreads.leaves hsits₁)).trans
      (ih (hsits₁.reads hreads).1)

end FileReader

/-- The problems of a file that can be read. Each statement that could not be read has a problem at
its place, in the order of the text; there are problems only if there are such statements. If none
of them starts with a word that a block comes after, these are all problems, one for each, and
they are sorted. -/
theorem read_diagnostics_trace {src : Source} {file : SourceFile}
    (h : SourceFile.read src = .ok file) :
    (file.unread.map Extent.range).Sublist (file.diagnostics.map Diagnostic.range) ∧
    file.unread.Pairwise (fun a b => a.range.stop ≤ b.range.start) ∧
    (file.diagnostics = [] ↔ file.unread = []) ∧
    ((∀ extent ∈ file.unread, extent.firstWord ∉ StatementReader.blockWords) →
      file.diagnostics.map Diagnostic.range = file.unread.map Extent.range ∧
      file.diagnostics.Pairwise fun a b => a.range.stop ≤ b.range.start) := by
  obtain ⟨⟨⟨imports, functions⟩, cursor⟩, hrun, hdone⟩ := Except.bind_eq_ok h
  cases hdone
  obtain ⟨c, hsits, hnone, hread⟩ := FileReader.run_starts hrun
  have hleaves := FileReader.declares_leaves hsits (FileReader.declarations_reads hread).1
  obtain ⟨notes, hlog, htraces⟩ := hleaves.traces
  rw [hnone, nil_append] at hlog
  obtain ⟨hsorted, -⟩ := hleaves.places.sorted
  refine ⟨hlog ▸ htraces.sublist, hsorted, hlog ▸ htraces.eq_nil_iff, fun hplain => ?_⟩
  have hranges : cursor.log.map Diagnostic.range = _ := hlog ▸ htraces.map_range hplain
  refine ⟨hranges, ?_⟩
  have hpairs : (cursor.log.map Diagnostic.range).Pairwise fun a b => a.stop ≤ b.start := by
    rw [hranges]
    exact pairwise_map.mpr hsorted
  exact pairwise_map.mp hpairs

/-- Two statements that cannot be read, one of them inside of a condition. -/
theorem read_diagnostics_trace_nested :
    ∃ src file, src.text = ("function f() \x7b if x \x7b ) ; \x7d on ] ; \x7d" : Text) ∧
      SourceFile.read src = .ok file ∧ file.unread.length = 2 ∧
      (∀ extent ∈ file.unread, extent.firstWord ∉ StatementReader.blockWords) ∧
      file.diagnostics.map Diagnostic.range = file.unread.map Extent.range := by
  obtain ⟨file, hread, hlength, hwords⟩ := Except.exists_ok
    (SourceFile.read ⟨"m", "function f() \x7b if x \x7b ) ; \x7d on ] ; \x7d"⟩)
    (fun file => file.unread.length = 2 ∧
      ∀ extent ∈ file.unread, extent.firstWord ∉ StatementReader.blockWords) (by decide +kernel)
  exact ⟨_, file, rfl, hread, hlength, hwords, ((read_diagnostics_trace hread).2.2.2 hwords).1⟩

/-- A condition that fails at its `else`, after a statement inside of it could not be read. One
statement of the tree is broken, but there are two problems, and the first of them starts after the
second. -/
theorem read_diagnostics_left_over :
    ∃ src file, src.text = ("function f() \x7b if x \x7b ) ; \x7d else 5; \x7d" : Text) ∧
      SourceFile.read src = .ok file ∧ file.unread.length = 1 ∧ file.diagnostics.length = 2 ∧
      ¬ file.diagnostics.Pairwise fun a b => a.range.start ≤ b.range.start := by
  obtain ⟨file, hfile⟩ := Except.exists_ok
    (SourceFile.read ⟨"m", "function f() \x7b if x \x7b ) ; \x7d else 5; \x7d"⟩)
    (fun file => file.unread.length = 1 ∧ file.diagnostics.length = 2 ∧
      ¬ file.diagnostics.Pairwise fun a b => a.range.start ≤ b.range.start) (by decide +kernel)
  exact ⟨_, file, rfl, hfile⟩

end Flowchart

import Flowchart.Proofs.Nesting

/-!
Blocks and expressions of a file. A block, or a function, and an expression of the same file never
overlap in part: the expression lies in the block, ends before it, or starts after it. Readers leave
their cursor where the next part begins, so this holds of each part that is read and carries over to
parts that follow one another and to the block around them.
-/
namespace Flowchart

open List Reader Statement ExprReader

variable {start stop high : Nat} {e : Expr} {src : Source} {c c' : Cursor} {tokens : List Token}

local instance (priority := low) Position.frameOrder : LinearOrder Position := Position.linearOrder

namespace SourceRange

/-- The range is that of a stretch of the source between two byte offsets. -/
structure Within (src : Source) (low high : Nat) (range : SourceRange) : Prop where
  proper : range.start < range.stop
  placed : ∃ start stop, low ≤ start ∧ stop ≤ high ∧
    range = ⟨src.file, Text.positionAt src.text start, Text.positionAt src.text stop⟩

/-- The other range lies in this one, ends before it, or starts after it. -/
def ClearOf (range other : SourceRange) : Prop :=
  range.contains other = true ∨ other.stop ≤ range.start ∨ range.stop ≤ other.start

namespace Within

variable {low middle : Nat} {range other : SourceRange}

theorem mono {low' high' : Nat} (h : range.Within src low high) (hlow : low' ≤ low)
    (hhigh : high ≤ high') : range.Within src low' high' := by
  obtain ⟨start, stop, hstart, hstop, heq⟩ := h.placed
  exact ⟨h.proper, start, stop, hlow.trans hstart, hstop.trans hhigh, heq⟩

theorem of_covers {extent : Extent} (h : extent.Covers src start stop) (hlow : low ≤ start)
    (hhigh : stop ≤ high) : extent.range.Within src low high :=
  ⟨h.proper, start, stop, hlow, hhigh, h.range⟩

theorem stop_le (h : range.Within src low middle) (hother : other.Within src middle high) :
    range.stop ≤ other.start := by
  obtain ⟨start, stop, -, hstop, rfl⟩ := h.placed
  obtain ⟨start', stop', hstart', -, rfl⟩ := hother.placed
  exact Text.positionAt_mono src.text (hstop.trans hstart')

theorem contains (h : other.Within src start stop)
    (hrange : range = ⟨src.file, Text.positionAt src.text start, Text.positionAt src.text stop⟩) :
    range.contains other := by
  obtain ⟨start', stop', hstart, hstop, rfl⟩ := h.placed
  rw [hrange, SourceRange.contains_iff]
  exact ⟨rfl, Text.positionAt_mono src.text hstart, Text.positionAt_mono src.text hstop⟩

end Within

end SourceRange

namespace Statement

mutual

/-- The blocks in a statement, at any depth, in the order of the text. -/
def blocks : Statement → List Block
  | .cond _ _ body otherwise => blocksOfBlock body ++ blocksOfOtherwise otherwise
  | .loop _ _ body handler => blocksOfBlock body ++ blocksOfHandler handler
  | .each _ _ _ _ body handler => blocksOfBlock body ++ blocksOfHandler handler
  | .attempt _ body handler => blocksOfBlock body ++ blocksOfHandler handler
  | .lock _ body handler => blocksOfBlock body ++ blocksOfHandler handler
  | .varDecl .. | .assign .. | .ret .. | .exitLoop _ | .nextRound _ | .panic .. | .fail ..
  | .expression .. | .comment .. | .invalid _ => []

def blocksOfOtherwise : Otherwise → List Block
  | .nothing => []
  | .cond _ _ body otherwise => blocksOfBlock body ++ blocksOfOtherwise otherwise
  | .block body => blocksOfBlock body

def blocksOfHandler : Handler → List Block
  | .nothing => []
  | .onFail _ body => blocksOfBlock body

def blocksOfBlock : Block → List Block
  | block@(.mk _ statements) => block :: blocksOfAll statements

def blocksOfAll : List Statement → List Block
  | [] => []
  | statement :: rest => blocks statement ++ blocksOfAll rest

end

end Statement

/-- The tokens stand next to each other in the source, with comments at most between them. -/
def Source.Runs (src : Source) (tokens : List Token) : Prop :=
  tokens ≠ [] ∧ ∃ c before lexemes after, StatementReader.Sits src c ∧
    c.rest = before ++ (lexemes ++ after) ∧ tokens = lexemes.map Lexeme.token

theorem Source.Runs.of_infix {part : List Token} (h : src.Runs tokens) (hpart : part <:+: tokens)
    (hne : part ≠ []) : src.Runs part := by
  obtain ⟨-, c, before, lexemes, after, hsits, hrest, rfl⟩ := h
  obtain ⟨front, back, hsplit⟩ := hpart
  obtain ⟨_, backs, rfl, hfront, rfl⟩ := map_eq_append_iff.mp hsplit.symm
  obtain ⟨fronts, lexemes, rfl, rfl, rfl⟩ := map_eq_append_iff.mp hfront
  exact ⟨hne, c, before ++ fronts, lexemes, backs ++ after, hsits, by simp [hrest], rfl⟩

/-- The expression is one that tokens next to each other form. -/
def Expr.Formed (src : Source) (e : Expr) : Prop :=
  ∃ bound tokens, src.Runs tokens ∧ e = ofTokens src bound tokens

/-- The frames and the expressions lie between two byte offsets of the source, and each expression
is formed by tokens there and clear of each frame. -/
structure Arranged (src : Source) (low high : Nat) (frames : List SourceRange)
    (expressions : List Expr) : Prop where
  le : low ≤ high
  frame : ∀ range ∈ frames, range.Within src low high
  expression : ∀ e ∈ expressions, e.range.Within src low high
  formed : ∀ e ∈ expressions, e.Formed src
  clear : ∀ range ∈ frames, ∀ e ∈ expressions, range.ClearOf e.range

namespace Arranged

variable {low middle : Nat} {frames more : List SourceRange} {expressions others : List Expr}

theorem nil (h : low ≤ high) : Arranged src low high [] [] :=
  ⟨h, nofun, nofun, nofun, nofun⟩

theorem of_expressions (hle : low ≤ high)
    (h : ∀ e ∈ expressions, e.range.Within src low high ∧ e.Formed src) :
    Arranged src low high [] expressions :=
  ⟨hle, nofun, fun e he => (h e he).1, fun e he => (h e he).2, nofun⟩

theorem mono {low' high' : Nat} (h : Arranged src low high frames expressions)
    (hlow : low' ≤ low) (hhigh : high ≤ high') : Arranged src low' high' frames expressions :=
  ⟨hlow.trans (h.le.trans hhigh), fun range hmem => (h.frame range hmem).mono hlow hhigh,
    fun e hmem => (h.expression e hmem).mono hlow hhigh, h.formed, h.clear⟩

theorem append (h : Arranged src low middle frames expressions)
    (hmore : Arranged src middle high more others) :
    Arranged src low high (frames ++ more) (expressions ++ others) where
  le := h.le.trans hmore.le
  frame range hmem := by
    rcases mem_append.mp hmem with hleft | hright
    · exact (h.frame range hleft).mono le_rfl hmore.le
    · exact (hmore.frame range hright).mono h.le le_rfl
  expression e hmem := by
    rcases mem_append.mp hmem with hleft | hright
    · exact (h.expression e hleft).mono le_rfl hmore.le
    · exact (hmore.expression e hright).mono h.le le_rfl
  formed := forall_mem_append.mpr ⟨h.formed, hmore.formed⟩
  clear range hrange e he := by
    rcases mem_append.mp hrange with hrange | hrange <;>
      rcases mem_append.mp he with he | he
    · exact h.clear range hrange e he
    · exact Or.inr (Or.inr ((h.frame range hrange).stop_le (hmore.expression e he)))
    · exact Or.inr (Or.inl ((h.expression e he).stop_le (hmore.frame range hrange)))
    · exact hmore.clear range hrange e he

/-- A frame around something arranged contains its expressions. -/
theorem enclose {extent : Extent} (hcovers : extent.Covers src start stop)
    (h : Arranged src start stop frames expressions) :
    Arranged src start stop (extent.range :: frames) expressions where
  le := h.le
  frame range hmem := by
    rcases mem_cons.mp hmem with rfl | hmem
    · exact .of_covers hcovers le_rfl le_rfl
    · exact h.frame range hmem
  expression := h.expression
  formed := h.formed
  clear range hrange e he := by
    rcases mem_cons.mp hrange with rfl | hrange
    · exact Or.inl ((h.expression e he).contains hcovers.range)
    · exact h.clear range hrange e he

/-- An expression that starts inside a frame, and not at its end, lies in the frame. -/
theorem contains_of_start (h : Arranged src low high frames expressions) {range : SourceRange}
    (hrange : range ∈ frames) (he : e ∈ expressions) (hstart : range.start ≤ e.range.start)
    (hstop : e.range.start < range.stop) : range.contains e.range := by
  have hproper := (h.expression e he).proper
  rcases h.clear range hrange e he with hin | hbefore | hafter
  · exact hin
  · order
  · order

end Arranged

theorem Expr.Lossless.within {low : Nat} (h : e.Lossless src low high) :
    e.range.Within src low high := by
  cases e <;>
  · obtain ⟨start, stop, hlow, hhigh, hcovers, -⟩ := h
    exact .of_covers hcovers hlow hhigh

namespace StatementReader

def Phrase.blocks : Phrase → List Block
  | .statement found => found.blocks
  | .statements found => blocksOfAll found
  | .block found => blocksOfBlock found
  | .handler found => blocksOfHandler found
  | .conditional _ body otherwise =>
    blocksOfBlock body ++ blocksOfOtherwise otherwise
  | .other found => blocksOfOtherwise found

def Phrase.expressions : Phrase → List Expr
  | .statement found => found.expressions
  | .statements found => inStatements found
  | .block found => inBlock found
  | .handler found => inHandler found
  | .conditional condition body otherwise =>
    condition.withParts ++ (inBlock body ++ inOtherwise otherwise)
  | .other found => inOtherwise found

/-- The phrase lies between two cursors, each expression of it clear of each block. -/
abbrev Phrase.Arranged (src : Source) (c c' : Cursor) (phrase : Phrase) : Prop :=
  Flowchart.Arranged src (src.offset c.last) (src.offset c'.last)
    (phrase.blocks.map Block.range) phrase.expressions

/-- An expression among the lexemes between two cursors lies between them, with all its parts. -/
theorem Sits.arranged {lexeme : Lexeme} {taken part : List Lexeme} {stop : Text} (hsits : Sits src c)
    (htakes : c.Takes (lexeme :: taken) c') (hforms : Forms src stop part e)
    (hpart : part <:+: lexeme :: taken) :
    Flowchart.Arranged src (src.offset c.last) (src.offset c'.last) [] e.withParts := by
  have hstart := (hsits.token htakes.rest).2.2.2.1
  refine .of_expressions (Source.offset_mono (hsits.takes htakes).2) fun inner hmem => ⟨?_, ?_⟩
  · exact (parts_lossless hsits htakes hforms hpart le_rfl inner hmem).within.mono
      (Source.offset_mono hstart) le_rfl
  · have hne : part.map Lexeme.token ≠ [] := by simpa using hforms.nonempty
    rw [hforms.value] at hmem
    obtain ⟨bound, group, hgroup, hfull, rfl⟩ := parts_ofTokens hne inner hmem
    obtain ⟨before, after, hsplit⟩ := hpart
    have hruns : src.Runs (part.map Lexeme.token) :=
      ⟨hne, c, before, part, after ++ c'.rest, hsits, by simp [htakes.rest, ← hsplit], rfl⟩
    exact ⟨bound, group, hruns.of_infix hgroup hfull, rfl⟩

theorem blocks_of_isPlain {statement : Statement} (h : statement.isPlain) : statement.blocks = [] := by
  cases statement <;> first | rfl | cases h

/-- Lexemes without expressions or blocks only move the start. -/
theorem Sits.arranged_skip {taken : List Lexeme} {c₁ : Cursor} {frames : List SourceRange}
    {expressions : List Expr} (hsits : Sits src c) (htakes : c.Takes taken c₁)
    (h : Flowchart.Arranged src (src.offset c₁.last) high frames expressions) :
    Flowchart.Arranged src (src.offset c.last) high frames expressions :=
  h.mono (Source.offset_mono (hsits.takes htakes).2) le_rfl

theorem Reads.arranged {phrase : Phrase} (h : Reads src phrase c c') (hsits : Sits src c) :
    phrase.Arranged src c c' := by
  induction h with
  | plain htakes hplain =>
    rw [Phrase.Arranged, Phrase.blocks, blocks_of_isPlain (hplain.isPlain _)]
    refine .of_expressions (Source.offset_mono (hsits.takes htakes).2) fun e he => ?_
    obtain ⟨stop, part, value, hvalue, hpart, hmem⟩ := hplain.forms _ e he
    have harranged := hsits.arranged htakes hvalue hpart
    exact ⟨harranged.expression e hmem, harranged.formed e hmem⟩
  | cond _ _ ih =>
    exact ih hsits
  | @guarded first _ _ _ _ _ _ _ _ htakes hhead hbody _ ihbody ihhandler =>
    obtain ⟨hsits₁, -⟩ := hsits.takes htakes
    have hguarded := (ihbody hsits₁).append (ihhandler (hsits₁.reads hbody).1)
    rw [← map_append] at hguarded
    cases hhead with
    | loop _ hforms =>
      exact (hsits.arranged htakes hforms (suffix_cons _ _).isInfix).append hguarded
    | @each _ name word typed _ _ _ _ _ _ _ hforms =>
      exact (hsits.arranged htakes hforms ⟨⟨[], first⟩ :: (typed ++ [name, word]), [], by simp⟩).append
        hguarded
    | attempt | lock => exact hsits.arranged_skip htakes hguarded
  | conditional htakes _ hforms hbody _ ihbody ihother =>
    obtain ⟨hsits₁, -⟩ := hsits.takes htakes
    have hbranches := (ihbody hsits₁).append (ihother (hsits₁.reads hbody).1)
    rw [← map_append] at hbranches
    exact (hsits.arranged htakes hforms (suffix_cons _ _).isInfix).append hbranches
  | alone _ | unhandled _ => exact .nil le_rfl
  | chained htakes _ _ _ ih | fallback htakes _ _ ih | handled htakes _ _ _ _ ih =>
    exact hsits.arranged_skip htakes (ih (hsits.takes htakes).1)
  | block hopens _ hbody hcloses _ ih =>
    obtain ⟨hsits₁, -⟩ := hsits.takes hopens
    obtain ⟨hsits₂, hle₂⟩ := hsits₁.reads hbody
    obtain ⟨hsits₃, hle₃⟩ := hsits₂.takes hcloses
    have hcovers := hsits.covers hopens (hle₂.trans hle₃) hsits₃.marks
    have hinside := (ih hsits₁).mono (Source.offset_mono (hsits.start_lt hopens).le)
      (Source.offset_mono hle₃)
    have hstart := (hsits.token hopens.rest).2.2.2.1
    exact (hinside.enclose (hcloses.last ▸ hcovers)).mono (Source.offset_mono hstart) le_rfl
  | done _ _ => exact .nil le_rfl
  | comment hcomment _ ih =>
    obtain ⟨first, run, lines, hsteps, rfl⟩ := comment?_steps hcomment
    exact (ih (hsits.lays hsteps).2).mono (Source.offset_mono (hsits.le hsteps)) le_rfl
  | cons _ _ hstatement _ ihstatement ihmore =>
    rw [Phrase.Arranged, Phrase.blocks, blocksOfAll, map_append]
    exact (ihstatement hsits).append (ihmore (hsits.reads hstatement).1)
  | broken hrest hfirst hskip hleft hlast _ _ ih =>
    obtain ⟨more, hsteps⟩ := skipBroken_steps hrest hfirst hskip hleft hlast
    exact (ih (hsits.lays hsteps).2).mono (Source.offset_mono (hsits.le hsteps)) le_rfl

theorem Reads.block_stop {block : Block} (h : Reads src (.block block) c c') :
    block.range.stop = c'.last.position := by
  cases h with
  | block _ _ _ hcloses _ =>
    rw [hcloses.last]
    rfl

end StatementReader

namespace FunctionDef

def frames (function : FunctionDef) : List SourceRange :=
  function.range :: (blocksOfBlock function.body).map Block.range

end FunctionDef

namespace FileReader

open StatementReader Reader

/-- A function goes from the start of its signature to the end of its body. -/
theorem functionDef_range {function : FunctionDef} (h : functionDef src c = .ok function c') :
    function.range = ⟨src.file, function.signature.range.start, function.body.range.stop⟩ := by
  rw [functionDef_eq] at h
  obtain ⟨keyword, c₁, -, h⟩ := bind_eq_ok h
  obtain ⟨name, c₂, -, h⟩ := bind_eq_ok h
  obtain ⟨-, c₃, -, h⟩ := bind_eq_ok h
  obtain ⟨params, c₄, -, h⟩ := bind_eq_ok h
  obtain ⟨-, c₅, -, h⟩ := bind_eq_ok h
  obtain ⟨returnType, c₆, -, h⟩ := bind_eq_ok h
  rw [get_bind, get_bind] at h
  obtain ⟨body, c₇, hblock, h⟩ := bind_eq_ok h
  cases h
  rw [(block_reads _ _ _ hblock).block_stop]
  rfl

theorem declares_arranged {functions : List FunctionDef} (h : Declares src functions c c')
    (hsits : Sits src c)
    (hranges : ∀ function ∈ functions, function.range = ⟨src.file, function.signature.range.start,
      function.body.range.stop⟩) :
    Arranged src (src.offset c.last) (src.offset c'.last)
      (functions.flatMap FunctionDef.frames)
      (functions.flatMap fun function => inBlock function.body) := by
  induction h with
  | done => exact .nil le_rfl
  | skip htakes _ ih => exact hsits.arranged_skip htakes (ih (hsits.takes htakes).1 hranges)
  | @function function functions keyword taken depth c c₁ c₂ c' htakes hsignature hbody _ ih =>
    obtain ⟨hrange, hranges⟩ := forall_mem_cons.mp hranges
    have hreads := block_reads _ _ _ hbody
    obtain ⟨hsits₁, -⟩ := hsits.takes htakes
    obtain ⟨hsits₂, hle⟩ := hsits₁.reads hreads
    have hcovers := hsits.covers htakes hle hsits₂.marks
    have hspan : function.range = (src.extent keyword.token.start c₂.last).range := by
      rw [hrange, hsignature, hreads.block_stop]
      rfl
    have hinside := (hreads.arranged hsits₁).mono
      (Source.offset_mono (hsits.start_lt htakes).le) le_rfl
    have hstart := (hsits.token htakes.rest).2.2.2.1
    have hfunction := (hinside.enclose hcovers).mono (Source.offset_mono hstart) le_rfl
    rw [flatMap_cons, FunctionDef.frames, hspan]
    exact hfunction.append (ih hsits₂ hranges)

end FileReader

/-- Each expression of a file that can be read is clear of each function and each block of it. -/
theorem SourceFile.read_arranged {file : SourceFile} (h : SourceFile.read src = .ok file) :
    ∃ low high, Arranged src low high
      (file.functions.flatMap FunctionDef.frames) file.expressions := by
  obtain ⟨c, c', hsits, -, -, hread, hdeclares⟩ := SourceFile.declares_of_read h
  refine ⟨_, _, FileReader.declares_arranged hdeclares hsits fun function hmem => ?_⟩
  obtain ⟨_, _, -, hfunction⟩ := (FileReader.declarations_reads hread).2 hsits function hmem
  exact FileReader.functionDef_range hfunction

end Flowchart

import Flowchart.Proofs.Lossless
import Flowchart.Proofs.Recovery
import Flowchart.Proofs.Refinement

/-!
How nodes are laid out in the file. The blocks of a statement follow one another, so the nodes and
branches of a tree that was read come in the order of the text: each one starts where the one before
it has ended, lies in the node around it, and carries the text of its range. A branch runs from
brace to brace; only the branch of an else-if has the range of its one node instead.
-/
namespace Flowchart

open List Text Statement

variable {text : Text} {start stop : Nat} {draft : Draft} {src : Source} {statement : Statement}
  {p last : Position}

local instance (priority := low) Position.textOrder : LinearOrder Position := Position.linearOrder

namespace Text

theorem takeBytes_prefix {a b : Nat} (h : a ≤ b) (text : Text) :
    takeBytes a text <+: takeBytes b text := by
  induction text generalizing a b with
  | nil => exact prefix_refl _
  | cons c text ih =>
    rw [takeBytes, takeBytes]
    by_cases ha : a < c.utf8Size
    · rw [if_pos ha]
      exact nil_prefix
    · rw [if_neg ha, if_neg (by omega)]
      exact (prefix_cons_inj c).mpr (ih (by omega))

/-- The later of two byte offsets has the later position. -/
theorem positionAt_mono (text : Text) {a b : Nat} (h : a ≤ b) :
    positionAt text a ≤ positionAt text b := by
  obtain ⟨more, hmore⟩ := takeBytes_prefix h text
  rw [positionAt_eq, positionAt_eq, ← hmore, Position.after_append]
  exact Position.le_after _ _

theorem Between.position_eq {piece : Text} (h : Between text start stop piece) :
    positionAt text stop = (positionAt text start).after piece := by
  obtain ⟨before, after, htext, rfl, rfl⟩ := h
  have hstop : text = (before ++ piece) ++ after := by rw [htext, append_assoc]
  rw [htext, positionAt_byteLength, ← htext, hstop, positionAt_byteLength]
  exact foldl_append

/-- A piece that starts with one piece and ends with another one has both at its ends. -/
theorem Between.ends {piece first last : Text} {middle middle' : Nat}
    (h : Between text start stop piece) (hfirst : Between text start middle first)
    (hlast : Between text middle' stop last) (hle : middle ≤ middle') :
    ∃ inner, piece = first ++ (inner ++ last) := by
  obtain ⟨before, after, htext, hbefore, hstop⟩ := h
  obtain ⟨before₁, after₁, htext₁, hbefore₁, hmiddle⟩ := hfirst
  obtain ⟨before₂, after₂, htext₂, hbefore₂, hstop₂⟩ := hlast
  have hwhole : before ++ piece <+: text := ⟨after, by rw [htext, append_assoc]⟩
  have hopened : before₁ ++ first <+: text := ⟨after₁, by rw [htext₁, append_assoc]⟩
  have hclosed : before₂ ++ last <+: text := ⟨after₂, by rw [htext₂, append_assoc]⟩
  have hsame : before₁ = before := by
    apply List.IsPrefix.eq_of_length_le
    · exact prefix_of_byteLength_le ⟨_, htext₁.symm⟩ ⟨_, htext.symm⟩ (by omega)
    · exact (prefix_of_byteLength_le ⟨_, htext.symm⟩ ⟨_, htext₁.symm⟩ (by omega)).length_le
  have hend : before₂ ++ last = before ++ piece := by
    apply List.IsPrefix.eq_of_length_le
    · exact prefix_of_byteLength_le hclosed hwhole (by omega)
    · exact (prefix_of_byteLength_le hwhole hclosed (by omega)).length_le
  obtain ⟨inner, hinner⟩ : before₁ ++ first <+: before₂ :=
    prefix_of_byteLength_le hopened ⟨_, htext₂.symm⟩ (by omega)
  refine ⟨inner, ?_⟩
  rw [← hinner, hsame, append_assoc, append_assoc] at hend
  exact (append_cancel_left hend).symm

theorem Gap.le (h : Gap text start stop) : start ≤ stop := by
  obtain ⟨gap, ⟨before, after, -, rfl, rfl⟩, -⟩ := h
  rw [byteLength_append]
  exact Nat.le_add_right _ _

end Text

/-- The text at a range, if the range is one of this file and both of its ends stand in the text. -/
def Source.textAt? (src : Source) (range : SourceRange) : Option Text :=
  if range.file = src.file then
    match offsetAt? src.text range.start, offsetAt? src.text range.stop with
    | some start, some stop => src.text.slice? start stop
    | _, _ => none
  else none

/-- The node has a range of the file, one that is not empty, and its source is the text there. -/
structure Node.Covers (src : Source) (range : SourceRange) (node : Node) : Prop where
  range_eq : node.range = some range
  file : range.file = src.file
  proper : range.start < range.stop
  source : src.textAt? range = some node.source

namespace Extent.Covers

variable {extent : Extent}

theorem textAt? (h : extent.Covers src start stop) :
    src.textAt? extent.range = some extent.source := by
  obtain ⟨before, after, htext, hstart, hstop⟩ := h.source
  have htext' : src.text = (before ++ extent.source) ++ after := by
    rw [htext, append_assoc]
  have hfirst : offsetAt? src.text extent.range.start = some (byteLength before) := by
    rw [h.range, ← hstart, htext, positionAt_byteLength]
    exact offsetAt?_after ..
  have hlast : offsetAt? src.text extent.range.stop =
      some (byteLength (before ++ extent.source)) := by
    rw [h.range, ← hstop, htext', positionAt_byteLength]
    exact offsetAt?_after ..
  have hfile : extent.range.file = src.file := by rw [h.range]
  unfold Source.textAt?
  rw [if_pos hfile, hfirst, hlast]
  dsimp only
  rw [htext]
  exact slice?_append ..

theorem proper (h : extent.Covers src start stop) : extent.range.start < extent.range.stop := by
  have hposition := h.source.position_eq
  obtain ⟨before, after, -, hstart, hstop⟩ := h.source
  rw [h.range]
  rw [hposition]
  cases hsource : extent.source with
  | nil =>
    have hlt := h.nonempty
    rw [hsource, append_nil] at hstop
    omega
  | cons c rest => exact Position.lt_after _ c rest

/-- A node over a piece of the file covers it. -/
theorem node (h : extent.Covers src start stop) {node : Node}
    (hrange : node.range = some extent.range) (hsource : node.source = extent.source) :
    node.Covers src extent.range :=
  ⟨hrange, by rw [h.range], h.proper, by rw [hsource]; exact h.textAt?⟩

end Extent.Covers

mutual

/-- In the statement and in all statements of its blocks, the first block starts after the statement
does, and one block ends before the next starts. -/
def Statement.InTurn : Statement → Prop
  | .cond extent _ body otherwise =>
    extent.range.start < body.range.start ∧ body.InTurn ∧ otherwise.After body.range.stop
  | .loop extent _ body handler =>
    extent.range.start < body.range.start ∧ body.InTurn ∧ handler.After body.range.stop
  | .each extent _ _ _ body handler =>
    extent.range.start < body.range.start ∧ body.InTurn ∧ handler.After body.range.stop
  | .attempt extent body handler =>
    extent.range.start < body.range.start ∧ body.InTurn ∧ handler.After body.range.stop
  | .lock extent body handler =>
    extent.range.start < body.range.start ∧ body.InTurn ∧ handler.After body.range.stop
  | .varDecl .. | .assign .. | .ret .. | .exitLoop _ | .nextRound _ | .panic .. | .fail ..
  | .expression .. | .comment .. | .invalid _ => True

/-- What follows the block of a condition starts after a position, with its blocks in turn. -/
def Otherwise.After (p : Position) : Otherwise → Prop
  | .nothing => True
  | .cond extent _ body otherwise => p ≤ extent.range.start ∧
    extent.range.start < body.range.start ∧ body.InTurn ∧ otherwise.After body.range.stop
  | .block body => p ≤ body.range.start ∧ body.InTurn

def Handler.After (p : Position) : Handler → Prop
  | .nothing => True
  | .onFail _ body => p ≤ body.range.start ∧ body.InTurn

def Block.InTurn : Block → Prop
  | .mk _ statements => Statement.AllInTurn statements

def Statement.AllInTurn : List Statement → Prop
  | [] => True
  | statement :: rest => statement.InTurn ∧ Statement.AllInTurn rest

end

theorem Otherwise.After.mono {q : Position} {otherwise : Otherwise} (h : otherwise.After p)
    (hle : q ≤ p) : otherwise.After q := by
  cases otherwise with
  | nothing => trivial
  | cond | block => exact ⟨by have := h.1; order, h.2⟩

theorem Handler.After.mono {q : Position} {handler : Handler} (h : handler.After p) (hle : q ≤ p) :
    handler.After q := by
  cases handler with
  | nothing => trivial
  | onFail => exact ⟨by have := h.1; order, h.2⟩

theorem Statement.inTurn_of_isPlain (h : statement.isPlain) : statement.InTurn := by
  cases statement <;> trivial

namespace StatementReader

variable {c c' : Cursor}

/-- What it means for a phrase between two cursors to have its blocks in turn. A condition with its
branches has no extent of its own, and starts with the lexeme after the cursor. -/
def Phrase.InTurn (c c' : Cursor) : Phrase → Prop
  | .statement found => found.InTurn
  | .statements found => Statement.AllInTurn found
  | .block found => found.InTurn ∧ c.last.position ≤ found.range.start ∧
    found.range.stop ≤ c'.last.position
  | .handler found => found.After c.last.position
  | .conditional _ body otherwise =>
    (∀ first rest, c.rest = first :: rest → first.token.start.position < body.range.start) ∧
      body.InTurn ∧ otherwise.After body.range.stop
  | .other found => found.After c.last.position

/-- What is read after some lexemes starts after the first of them does. -/
theorem Sits.start_lt_last {lexeme : Lexeme} {taken : List Lexeme} (hsits : Sits src c)
    (htakes : c.Takes (lexeme :: taken) c') : lexeme.token.start.position < c'.last.position :=
  (hsits.covers htakes le_rfl (hsits.takes htakes).1.marks).proper

/-- The blocks of whatever is read are in turn. -/
theorem Reads.inTurn {phrase : Phrase} (h : Reads src phrase c c') (hsits : Sits src c) :
    phrase.InTurn c c' := by
  induction h with
  | plain _ hplain => exact Statement.inTurn_of_isPlain (hplain.isPlain _)
  | cond hfirst _ ih =>
    obtain ⟨hlt, hturn⟩ := ih hsits
    exact ⟨hlt _ _ hfirst, hturn⟩
  | guarded htakes hhead hbody _ ihbody ihhandler =>
    obtain ⟨hsits₁, -⟩ := hsits.takes htakes
    obtain ⟨hbodyTurn, hstart, hstop⟩ := ihbody hsits₁
    have hlt := lt_of_lt_of_le (hsits.start_lt_last htakes) hstart
    have hafter := (ihhandler (hsits₁.reads hbody).1).mono hstop
    cases hhead <;> exact ⟨hlt, hbodyTurn, hafter⟩
  | conditional htakes _ _ hbody _ ihbody ihother =>
    obtain ⟨hsits₁, -⟩ := hsits.takes htakes
    obtain ⟨hbodyTurn, hstart, hstop⟩ := ihbody hsits₁
    refine ⟨fun first rest hrest => ?_, hbodyTurn, (ihother (hsits₁.reads hbody).1).mono hstop⟩
    cases eq_head htakes.rest hrest
    exact lt_of_lt_of_le (hsits.start_lt_last htakes) hstart
  | alone _ | unhandled _ => trivial
  | chained htakes _ hnext _ ih =>
    obtain ⟨hsits₁, hle⟩ := hsits.takes htakes
    obtain ⟨hlt, hturn⟩ := ih hsits₁
    obtain ⟨hmarks, -, -, hnextLe, -⟩ := hsits₁.token hnext
    exact ⟨Source.position_le hsits.marks hmarks (hle.trans hnextLe), hlt _ _ hnext, hturn⟩
  | fallback htakes _ _ ih | handled htakes _ _ _ _ ih =>
    obtain ⟨hsits₁, hle⟩ := hsits.takes htakes
    obtain ⟨hturn, hstart, -⟩ := ih hsits₁
    have hposition := Source.position_le hsits.marks hsits₁.marks hle
    exact ⟨by order, hturn⟩
  | block hopens _ _ hcloses _ ih =>
    obtain ⟨hsits₁, -⟩ := hsits.takes hopens
    obtain ⟨hmarks, -, -, hle, -⟩ := hsits.token hopens.rest
    refine ⟨ih hsits₁, Source.position_le hsits.marks hmarks hle, ?_⟩
    rw [hcloses.last]
    exact le_refl _
  | done _ _ => trivial
  | comment hcomment _ ih =>
    obtain ⟨first, run, lines, hsteps, rfl⟩ := comment?_steps hcomment
    exact ⟨trivial, ih (hsits.lays hsteps).2⟩
  | cons _ _ hstatement _ ihstatement ihmore =>
    exact ⟨ihstatement hsits, ihmore (hsits.reads hstatement).1⟩
  | broken hrest hfirst hskip hleft hlast _ _ ih =>
    obtain ⟨more, hsteps⟩ := skipBroken_steps hrest hfirst hskip hleft hlast
    exact ⟨trivial, ih (hsits.lays hsteps).2⟩

end StatementReader

/-- The expression is a call of a remote method to which the connectors give a kind of node, under any
checks around it. -/
def Setting.Gives (setting : Setting) (kind : NodeKind) (value : Expr) : Prop :=
  ∃ extent target method args symbol module index,
    value.unchecked = .call extent (.remote target method) args ∧
    setting.symbols.resolve? value.unchecked = some symbol ∧ symbol.module = some module ∧
    setting.connectors = some index ∧ index.nodeKind? module method = some kind

/-- What a statement declares a variable with, assigns or evaluates. -/
def Statement.value? : Statement → Option Expr
  | .varDecl _ _ _ _ init => init
  | .assign _ _ value => some value
  | .expression _ value => some value
  | _ => none

/-- At the range stands one of the statements, and it is a call to which the connectors give the
kind. -/
def Setting.GivesAt (setting : Setting) (kind : NodeKind) (statements : List Statement)
    (range : SourceRange) : Prop :=
  ∃ statement ∈ statements, statement.extent.range = range ∧
    ∃ value ∈ statement.value?, setting.Gives kind value

namespace Call

/-- Only a call whose kind the connectors give is a block. -/
theorem recognize_block {setting : Setting} {e : Expr} {after : Draft}
    (h : recognize setting e draft = .recognized after) (hkind : after.kind = some .block) :
    setting.Gives .block e := by
  obtain ⟨extent, callee, args, symbol, hcall, hsymbol, rfl⟩ := recognize_eq h
  have hargs : (withArguments setting.current symbol args
      (withCallee setting.connectors symbol draft callee)).kind =
      (withCallee setting.connectors symbol draft callee).kind :=
    (congrArg Draft.kind (bare_withArguments setting.current symbol args _) :)
  have hcallee := hargs.symm.trans hkind
  cases callee with
  | function qualifier name => cases qualifier <;> cases hcallee
  | resource target path method => cases hcallee
  | remote target method =>
    unfold withCallee withRemote at hcallee
    dsimp only [Draft.withKind] at hcallee
    split at hcallee
    · next module index hmodule hindex =>
      refine ⟨extent, target, method, args, symbol, module, index, hcall, hcall ▸ hsymbol, hmodule,
        hindex, ?_⟩
      cases hgiven : index.nodeKind? module method with
      | none =>
        rw [hgiven] at hcallee
        cases hcallee
      | some kind =>
        rw [hgiven] at hcallee
        exact hcallee
    · cases hcallee

end Call

namespace Walker

variable {setting : Setting}

theorem declare_block {isFinal : Bool} {typeName name : Text} {init : Option Expr}
    (h : (declare setting isFinal typeName name init draft).kind = some .block) :
    ∃ value ∈ init, setting.Gives .block value := by
  unfold declare at h
  have hfinal (after : Draft) : (if isFinal then after.withFlag .final else after).kind =
      after.kind := by
    split <;> rfl
  rw [hfinal] at h
  split at h
  · cases h
  · split at h
    · next hcall => exact ⟨_, rfl, Call.recognize_block hcall h⟩
    · cases h

theorem assign_block {target : Text} {value : Expr}
    (h : (assign setting target value draft).kind = some .block) : setting.Gives .block value := by
  unfold assign at h
  dsimp only at h
  split at h
  · next hcall => exact Call.recognize_block hcall h
  · cases h

theorem express_block {value : Expr} {after : Draft}
    (hafter : express setting value draft = some after) (h : after.kind = some .block) :
    setting.Gives .block value := by
  unfold express at hafter
  split at hafter
  · next hcall =>
    cases hafter
    exact Call.recognize_block hcall h
  · cases hafter
    cases h
  · cases hafter

end Walker

namespace Statement

/-- The node of a statement is a block only if the statement is a call whose kind the connectors
give. -/
theorem node?_block {setting : Setting} {node : Node} (h : statement.node? setting = some node)
    (hkind : node.kind = .block) :
    (∃ value ∈ statement.value?, setting.Gives .block value) ∧
      statement.branchNodes setting = [] := by
  have hsome {draft : Draft} (hkind : draft.toNode.kind = .block) : draft.kind = some .block := by
    unfold Draft.toNode at hkind
    cases hdraft : draft.kind with
    | none =>
      rw [hdraft] at hkind
      cases hkind
    | some kind =>
      rw [hdraft] at hkind
      exact congrArg some hkind
  cases statement with
  | varDecl extent isFinal typeName name init =>
    cases h
    exact ⟨Walker.declare_block (hsome hkind), rfl⟩
  | assign extent target value =>
    cases h
    exact ⟨⟨value, rfl, Walker.assign_block (hsome hkind)⟩, rfl⟩
  | expression extent value =>
    obtain ⟨draft, hdraft, rfl⟩ := Option.map_eq_some_iff.mp h
    exact ⟨⟨value, rfl, Walker.express_block hdraft (hsome hkind)⟩, rfl⟩
  | ret extent value =>
    cases h
    cases value <;> cases hkind
  | cond | loop | each | attempt | lock | exitLoop | nextRound | panic | fail | comment | invalid =>
    cases h
    cases hkind

end Statement

namespace Node

/-- What a node is in the list where it stands. -/
inductive Rank where
  | statement
  | branch

/-- The place that a branch has for its nodes: what is between its braces, or its whole range if it
is the branch of an else-if. That has the range of its one node. -/
inductive Encloses (range : SourceRange) (node : Node) : (first last : Position) → Prop
  | braces {inner : Text} {last : Position} (hsource : node.source = "\x7b" ++ (inner ++ "\x7d"))
      (hlast : last.after "\x7d" = range.stop) :
      Encloses range node (range.start.after "\x7b") last
  | chained {child : Node} (hlabel : node.label = BranchLabel.whenFalse)
      (hchild : node.children = [child]) (hkind : child.kind = .cond)
      (hrange : child.range = some range) : Encloses range node range.start range.stop

theorem Encloses.bounds {range : SourceRange} {node : Node} {first : Position}
    (h : node.Encloses range first last) : range.start ≤ first ∧ last ≤ range.stop := by
  cases h with
  | braces _ hlast =>
    rw [← hlast]
    exact ⟨Position.le_after _ _, Position.le_after _ _⟩
  | chained => exact ⟨le_refl _, le_refl _⟩

/-- The node is identified by its parts, and the first of its branches starts after it does. -/
structure Regular (node : Node) : Prop where
  id_eq : node.id = identity node.kind node.label node.range node.properties
  inset : ∀ range ∈ node.range, ∀ branch ∈ node.branches.head?, ∀ inner ∈ branch.range,
    range.start < inner.start

/-- Nodes that are laid out one after the other from one position to another. Those for statements
have no children but branches, which are laid out in them, or are blocks at one of the given ranges;
those for branches have children, which are laid out in the place for them. -/
inductive Laid (src : Source) (given : SourceRange → Prop) :
    Rank → (start stop : Position) → List Node → Prop
  | nil {rank : Rank} {start stop : Position} : Laid src given rank start stop []
  | statement {start stop : Position} {range : SourceRange} {node : Node} {rest : List Node}
      (hcovers : node.Covers src range) (hregular : node.Regular) (hstart : start ≤ range.start)
      (hstop : range.stop ≤ stop)
      (hkind : node.kind = .block → given range ∧ node.branches = [])
      (hchildren : node.children = [])
      (hbranches : Laid src given .branch range.start range.stop node.branches)
      (hrest : Laid src given .statement range.stop stop rest) :
      Laid src given .statement start stop (node :: rest)
  | branch {start stop first last : Position} {range : SourceRange} {node : Node}
      {rest : List Node} (hcovers : node.Covers src range) (hregular : node.Regular)
      (hstart : start ≤ range.start) (hstop : range.stop ≤ stop) (hkind : node.kind = .block)
      (hbranches : node.branches = [])
      (hencloses : node.Encloses range first last) (hle : first ≤ last)
      (hchildren : Laid src given .statement first last node.children)
      (hrest : Laid src given .branch range.stop stop rest) :
      Laid src given .branch start stop (node :: rest)

namespace Laid

variable {given : SourceRange → Prop} {rank : Rank} {start stop : Position} {nodes : List Node}

theorem mono (h : Laid src given rank start stop nodes) (hle : p ≤ start) :
    Laid src given rank p stop nodes := by
  cases h with
  | nil => exact .nil
  | statement hcovers hregular hstart hstop hkind hchildren hbranches hrest =>
    exact .statement hcovers hregular (le_trans hle hstart) hstop hkind hchildren hbranches hrest
  | branch hcovers hregular hstart hstop hkind hbranches hencloses hfirst hchildren hrest =>
    exact .branch hcovers hregular (le_trans hle hstart) hstop hkind hbranches hencloses hfirst
      hchildren hrest

theorem append {more : List Node} (h : Laid src given rank start stop nodes)
    (hmore : Laid src given rank stop last more) (hle : start ≤ stop) (hlast : stop ≤ last) :
    Laid src given rank start last (nodes ++ more) := by
  induction h with
  | nil => exact hmore.mono hle
  | statement hcovers hregular hstart hstop hkind hchildren hbranches _ _ ih =>
    exact .statement hcovers hregular hstart (le_trans hstop hlast) hkind hchildren hbranches
      (ih hmore hstop hlast)
  | branch hcovers hregular hstart hstop hkind hbranches hencloses hfirst hchildren _ _ ih =>
    exact .branch hcovers hregular hstart (le_trans hstop hlast) hkind hbranches hencloses hfirst
      hchildren (ih hmore hstop hlast)

/-- Each of the nodes covers a piece of the file between the two positions. -/
theorem within (h : Laid src given rank start stop nodes) :
    ∀ node ∈ nodes, ∃ range, node.Covers src range ∧ start ≤ range.start ∧ range.stop ≤ stop := by
  induction h with
  | nil => exact nofun
  | statement hcovers _ hstart hstop _ _ _ _ _ ih
  | branch hcovers _ hstart hstop _ _ _ _ _ _ _ ih =>
    intro node hmem
    rcases mem_cons.mp hmem with rfl | hrest
    · exact ⟨_, hcovers, hstart, hstop⟩
    · obtain ⟨range, hrange, hfrom, hto⟩ := ih node hrest
      have hproper := hcovers.proper
      exact ⟨range, hrange, by order, hto⟩

end Laid

end Node

theorem Statement.Lossless.covers (h : statement.Lossless src start stop) :
    statement.extent.Covers src start stop := by
  cases statement with
  | exitLoop | nextRound | comment | invalid =>
    exact h
  | _ =>
    exact h.1

theorem Block.Lossless.start_le {block : Block} {low high : Nat} (h : block.Lossless src low high) :
    positionAt src.text low ≤ block.range.start := by
  obtain ⟨extent, statements⟩ := block
  obtain ⟨start, stop, hlow, -, hcovers, -⟩ := h
  have hle := positionAt_mono src.text hlow
  change _ ≤ extent.range.start
  rw [hcovers.range]
  exact hle

theorem Statement.Sequence.le {low high : Nat} {statements : List Statement}
    (h : Sequence src low high statements) : low ≤ high := by
  induction statements generalizing low with
  | nil =>
    rw [Sequence] at h
    exact h.le
  | cons statement rest ih =>
    obtain ⟨start, stop, hgap, hlossless, hrest⟩ := h
    have hfrom := hgap.le
    have hcovers := hlossless.covers.nonempty
    have hto := ih hrest
    omega

namespace Statement

open Node

variable {setting : Setting} {all : List Statement}

theorem node?_id_eq {statement : Statement} (h : statement.node? setting = some node) :
    node.id = identity node.kind node.label node.range node.properties := by
  cases statement with
  | expression extent value =>
    obtain ⟨draft, -, rfl⟩ := Option.map_eq_some_iff.mp h
    rfl
  | _ =>
    cases h
    rfl

/-- The node of a statement is laid out where the statement is, if its branches are and the first of
them starts after the statement. -/
theorem laid_of_branches (hcovers : statement.extent.Covers src start stop)
    (hall : statement ∈ all)
    (hfirst : ∀ branch ∈ (statement.branchNodes setting).head?, ∀ inner ∈ branch.range,
      statement.extent.range.start < inner.start)
    (hbranches : Laid src (setting.GivesAt .block all) .branch (positionAt src.text start)
      (positionAt src.text stop) (statement.branchNodes setting)) :
    Laid src (setting.GivesAt .block all) .statement (positionAt src.text start) (positionAt src.text stop)
      (statement.node? setting).toList := by
  cases h : statement.node? setting with
  | none => exact .nil
  | some node =>
    have hframes := node?_frames h
    have hregular : node.Regular := by
      refine ⟨node?_id_eq h, fun range hsame => ?_⟩
      obtain rfl := Option.some.inj (hframes.range.symm.trans hsame)
      rw [hframes.branches]
      exact hfirst
    have hnode := hcovers.node hframes.range hframes.source
    rw [hcovers.range] at hnode
    refine .statement hnode hregular (le_refl _) (le_refl _) ?_ hframes.children ?_ .nil
    · rw [hframes.branches]
      exact fun hkind => (node?_block h hkind).imp_left fun hgives =>
        ⟨statement, hall, hcovers.range, hgives⟩
    · rw [hframes.branches]
      exact hbranches

/-- The first branch is that of the body, at its range. -/
theorem branch_starts {label : Text} {properties : Properties}
    (h : p < body.range.start) :
    ∀ first ∈ (branch setting label properties body :: rest).head?, ∀ inner ∈ first.range,
      p < inner.start := by
  intro first hfirst inner hinner
  obtain rfl := Option.some.inj hfirst
  obtain ⟨extent, statements⟩ := body
  obtain rfl := Option.some.inj hinner
  exact h

/-- The branch of a block is laid out where the block is, if the nodes of its statements are. -/
theorem laid_branchOver {extent : Extent} {statements : List Statement} {label : Text}
    {properties : Properties} {rest : List Node} (hcovers : extent.Covers src start stop)
    (hopens : Text.Between src.text start (start + 1) "\x7b")
    (hcloses : Text.Between src.text (stop - 1) stop "\x7d")
    (hsequence : Sequence src (start + 1) (stop - 1) statements)
    (hnodes : Laid src (setting.GivesAt .block all) .statement (positionAt src.text (start + 1))
      (positionAt src.text (stop - 1)) (nodes setting statements)) (hp : p ≤ extent.range.start)
    (hlast : extent.range.stop ≤ last)
    (hrest : Laid src (setting.GivesAt .block all) .branch extent.range.stop last rest) :
    Laid src (setting.GivesAt .block all) .branch p last
      (branchOver label extent properties (nodes setting statements) :: rest) := by
  have hnode : (branchOver label extent properties (nodes setting statements)).Covers src
      extent.range := hcovers.node rfl rfl
  obtain ⟨inner, hsource⟩ := hcovers.source.ends hopens hcloses hsequence.le
  have hfirst := hopens.position_eq
  have hend := hcloses.position_eq
  have hencloses : (branchOver label extent properties (nodes setting statements)).Encloses
      extent.range (extent.range.start.after "\x7b") (positionAt src.text (stop - 1)) := by
    refine .braces hsource ?_
    rw [← hend, hcovers.range]
  have hplace : extent.range.start.after "\x7b" = positionAt src.text (start + 1) := by
    rw [hfirst, hcovers.range]
  refine .branch hnode ⟨rfl, nofun⟩ hp hlast rfl rfl hencloses ?_ ?_ hrest
  · rw [hplace]
    exact positionAt_mono _ hsequence.le
  · rw [hplace]
    exact hnodes

mutual

/-- The nodes that a part of a tree has are laid out in the place that the part was read from. -/
theorem laid_node? (src : Source) (setting : Setting) (all : List Statement) :
    ∀ (statement : Statement) {start stop : Nat}, statement.within ⊆ all →
    statement.Lossless src start stop → statement.InTurn →
    Laid src (setting.GivesAt .block all) .statement (positionAt src.text start)
      (positionAt src.text stop) (statement.node? setting).toList
  | .cond extent condition body otherwise, start, stop, hall, h, hturn => by
    have hself := hall (mem_within _)
    rw [within, cons_subset, append_subset] at hall
    refine laid_of_branches h.covers hself (branch_starts hturn.1) ?_
    exact laid_branch src setting all body hall.2.1 h.2.2.1 hturn.2.1 h.2.2.1.start_le
      (laid_otherwise src setting all otherwise hall.2.2 h.2.2.2 hturn.2.2)
  | .loop _ _ body handler, _, _, hall, h, hturn | .each _ _ _ _ body handler, _, _, hall, h, hturn => by
    have hself := hall (mem_within _)
    rw [within, cons_subset, append_subset] at hall
    refine laid_of_branches h.covers hself (branch_starts hturn.1) ?_
    exact laid_branch src setting all body hall.2.1 h.2.2.1 hturn.2.1 h.2.2.1.start_le
      (laid_handler src setting all handler hall.2.2 h.2.2.2 hturn.2.2)
  | .attempt _ body handler, _, _, hall, h, hturn | .lock _ body handler, _, _, hall, h, hturn => by
    have hself := hall (mem_within _)
    rw [within, cons_subset, append_subset] at hall
    refine laid_of_branches h.covers hself (branch_starts hturn.1) ?_
    exact laid_branch src setting all body hall.2.1 h.2.1 hturn.2.1 h.2.1.start_le
      (laid_handler src setting all handler hall.2.2 h.2.2 hturn.2.2)
  | .varDecl .., _, _, hall, h, _ | .assign .., _, _, hall, h, _ | .ret .., _, _, hall, h, _
  | .exitLoop _, _, _, hall, h, _ | .nextRound _, _, _, hall, h, _ | .panic .., _, _, hall, h, _
  | .fail .., _, _, hall, h, _ | .expression .., _, _, hall, h, _ | .comment .., _, _, hall, h, _
  | .invalid _, _, _, hall, h, _ => laid_of_branches h.covers (hall (mem_within _)) nofun .nil

theorem laid_otherwise (src : Source) (setting : Setting) (all : List Statement) :
    ∀ (otherwise : Otherwise) {low high : Nat} {p : Position}, otherwise.within ⊆ all →
    otherwise.Lossless src low high → otherwise.After p →
    Laid src (setting.GivesAt .block all) .branch p (positionAt src.text high)
      (otherwiseBranches setting otherwise)
  | .nothing, _, _, _, _, _, _ => by
    exact .nil
  | .block body, low, high, p, hall, h, hafter => by
    rw [Otherwise.within] at hall
    exact laid_branch src setting all body hall h hafter.2 hafter.1 .nil
  | .cond extent condition body otherwise, low, high, p, hall, h, hafter => by
    obtain ⟨start, stop, hlow, hhigh, hcovers, hcondition, hbody, hother⟩ := h
    rw [Otherwise.within, cons_subset, append_subset] at hall
    have hbranches : Laid src (setting.GivesAt .block all) .branch (positionAt src.text start)
        (positionAt src.text stop)
        (branch setting BranchLabel.whenTrue [] body :: otherwiseBranches setting otherwise) :=
      laid_branch src setting all body hall.2.1 hbody hafter.2.2.1 hbody.start_le
        (laid_otherwise src setting all otherwise hall.2.2 hother hafter.2.2.2)
    -- the one node of the branch is that of a condition over the same piece
    have hnode : Laid src (setting.GivesAt .block all) .statement (positionAt src.text start)
        (positionAt src.text stop)
        ((cond extent condition body otherwise).node? setting).toList :=
      laid_of_branches hcovers hall.1 (branch_starts hafter.2.1) hbranches
    have hstop := positionAt_mono src.text hhigh
    refine .branch (hcovers.node rfl rfl) ⟨rfl, nofun⟩ hafter.1 ?_ rfl rfl (.chained rfl rfl rfl rfl)
      hcovers.proper.le ?_ .nil
    · rw [hcovers.range]
      exact hstop
    · rw [hcovers.range]
      exact hnode

theorem laid_handler (src : Source) (setting : Setting) (all : List Statement) :
    ∀ (handler : Handler) {low high : Nat} {p : Position}, handler.within ⊆ all →
    handler.Lossless src low high → handler.After p →
    Laid src (setting.GivesAt .block all) .branch p (positionAt src.text high)
      (handlerBranches setting handler)
  | .nothing, _, _, _, _, _, _ => by
    exact .nil
  | .onFail binding body, low, high, p, hall, h, hafter => by
    rw [Handler.within] at hall
    exact laid_branch src setting all body hall h hafter.2 hafter.1 .nil

theorem laid_branch (src : Source) (setting : Setting) (all : List Statement) :
    ∀ (block : Block) {label : Text} {properties : Properties} {rest : List Node} {low high : Nat}
    {p : Position}, block.within ⊆ all →
    block.Lossless src low high → block.InTurn → p ≤ block.range.start →
    Laid src (setting.GivesAt .block all) .branch block.range.stop (positionAt src.text high) rest →
    Laid src (setting.GivesAt .block all) .branch p (positionAt src.text high)
      (branch setting label properties block :: rest)
  | .mk extent statements, label, properties, rest, low, high, p, hall, h, hturn, hp, hrest => by
    obtain ⟨start, stop, hlow, hhigh, hcovers, hopens, hcloses, hsequence⟩ := h
    rw [Block.within] at hall
    have hnodes := laid_nodes src setting all statements hall hsequence hturn
    have hstop := positionAt_mono src.text hhigh
    refine laid_branchOver hcovers hopens hcloses hsequence hnodes hp ?_ hrest
    rw [hcovers.range]
    exact hstop

theorem laid_nodes (src : Source) (setting : Setting) (all : List Statement) :
    ∀ (statements : List Statement) {low high : Nat}, allWithin statements ⊆ all →
    Sequence src low high statements → AllInTurn statements →
    Laid src (setting.GivesAt .block all) .statement (positionAt src.text low)
      (positionAt src.text high) (nodes setting statements)
  | [], _, _, _, _, _ => by
    exact .nil
  | statement :: rest, low, high, hall, h, hturn => by
    obtain ⟨start, stop, hgap, hlossless, hrest⟩ := h
    rw [allWithin, append_subset] at hall
    have hnode := laid_node? src setting all statement hall.1 hlossless hturn.1
    have hmore := laid_nodes src setting all rest hall.2 hrest hturn.2
    have hfrom := positionAt_mono src.text hgap.le
    have hmiddle := positionAt_mono src.text hlossless.covers.nonempty.le
    exact (hnode.append hmore hmiddle (positionAt_mono src.text hrest.le)).mono hfrom

end

end Statement

end Flowchart

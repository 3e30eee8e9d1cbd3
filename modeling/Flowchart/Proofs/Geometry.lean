import Flowchart.Proofs.Layout

/-!
The geometry of a diagram. Nodes that are laid out are in order, each lies in the node around it,
and what a node has below it goes with its kind. Handing diagnostics to nodes leaves them where they
are, and the start of a function comes before the nodes of its body, so all this holds of the
diagram of every function of a file that can be read. Only a call to which the connectors give the
kind of a block is a block without braces.
-/
namespace Flowchart

open List SourceFile

variable {node : Node} {range : SourceRange} {src : Source} {setting : Setting}
  {function : FunctionDef} {notices : Notices} {diagram : Diagram}

local instance (priority := low) Position.nodeOrder : LinearOrder Position := Position.linearOrder

namespace Node

theorem mem_flatten {nodes : List Node} (h : node ∈ nodes) : node ∈ flatten nodes := by
  induction nodes with
  | nil => cases h
  | cons first rest ih =>
    rcases mem_cons.mp h with rfl | hrest
    · exact mem_flatten_cons.mpr (Or.inl rfl)
    · exact mem_flatten_of_rest (ih hrest)

/-- Each of the nodes starts at or after the end of those before it. -/
def InOrder (nodes : List Node) : Prop :=
  nodes.Pairwise fun a b => ∀ r ∈ a.range, ∀ s ∈ b.range, r.stop ≤ s.start

/-- The children of a branch at some range lie in the place for them. -/
def Bounded (range : SourceRange) (node : Node) : Prop :=
  ∃ first last, node.Encloses range first last ∧
    ∀ child ∈ node.children, ∃ inner ∈ child.range, first ≤ inner.start ∧ inner.stop ≤ last

/-- What holds of every node of a diagram. Blocks without braces stand only at the given ranges. -/
structure Sound (src : Source) (given : SourceRange → Prop) (range : SourceRange) (node : Node) :
    Prop where
  covers : node.Covers src range
  children_inOrder : InOrder node.children
  branches_inOrder : InOrder node.branches
  contains : ∀ below ∈ node.children ++ node.branches, ∃ inner ∈ below.range, range.contains inner
  shape : node.children = [] ∨ node.branches = []
  of_children : node.children ≠ [] → node.kind = .block
  of_branches : node.branches ≠ [] → node.kind ≠ .block
  branch_bounded : ∀ branch ∈ node.branches,
    branch.kind = .block ∧ ∃ inner ∈ branch.range, branch.Bounded inner
  of_block : node.kind = .block → node.Bounded range ∨ (given range ∧ node.isLeaf)

namespace Laid

variable {given : SourceRange → Prop} {rank : Rank} {start stop : Position} {nodes : List Node}

theorem inOrder (h : Laid src given rank start stop nodes) : InOrder nodes := by
  induction h with
  | nil => exact .nil
  | statement hcovers _ _ _ _ _ _ hrest _ ih
  | branch hcovers _ _ _ _ _ _ _ _ hrest _ ih =>
    refine pairwise_cons.mpr ⟨fun other hother r hr s hs => ?_, ih⟩
    obtain ⟨range, hrange, hfrom, -⟩ := hrest.within other hother
    obtain rfl := Option.some.inj (hcovers.range_eq.symm.trans hr)
    obtain rfl := Option.some.inj (hrange.range_eq.symm.trans hs)
    exact hfrom

theorem contains (h : Laid src given rank start stop nodes) (hfile : range.file = src.file)
    (hstart : range.start ≤ start) (hstop : stop ≤ range.stop) :
    ∀ node ∈ nodes, ∃ inner ∈ node.range, range.contains inner := by
  intro node hmem
  obtain ⟨inner, hcovers, hfrom, hto⟩ := h.within node hmem
  refine ⟨inner, hcovers.range_eq, SourceRange.contains_iff.mpr ⟨?_, by order, by order⟩⟩
  rw [hfile, hcovers.file]

theorem bounded {first last : Position} (h : Laid src given rank first last node.children)
    (hencloses : node.Encloses range first last) : node.Bounded range := by
  refine ⟨first, last, hencloses, fun child hchild => ?_⟩
  obtain ⟨inner, hcovers, hfrom, hto⟩ := h.within child hchild
  exact ⟨inner, hcovers.range_eq, hfrom, hto⟩

theorem branch_bounded (h : Laid src given .branch start stop nodes) :
    ∀ branch ∈ nodes, branch.kind = .block ∧ ∃ inner ∈ branch.range, branch.Bounded inner := by
  generalize hrank : Rank.branch = rank at h
  induction h with
  | nil => exact nofun
  | statement => cases hrank
  | branch hcovers _ _ _ hkind _ hencloses _ hchildren _ _ ih =>
    intro branch hmem
    rcases mem_cons.mp hmem with rfl | hrest
    · exact ⟨hkind, _, hcovers.range_eq, hchildren.bounded hencloses⟩
    · exact ih hrank branch hrest

theorem sound (h : Laid src given rank start stop nodes) :
    ∀ node ∈ flatten nodes, ∃ range, node.Sound src given range := by
  induction h with
  | nil => exact forall_mem_nil _
  | @statement start stop range first rest hcovers _ hstart hstop hkind hchildren hbranches _
      ihbranches ihrest =>
    intro node hmem
    rcases mem_flatten_cons.mp hmem with rfl | hinner | hinner | hrest
    · refine ⟨range, hcovers, ?_, hbranches.inOrder, ?_, Or.inl hchildren, ?_, ?_,
        hbranches.branch_bounded, ?_⟩
      · rw [hchildren]
        exact .nil
      · rw [hchildren]
        exact hbranches.contains hcovers.file (le_refl _) (le_refl _)
      · exact fun hne => absurd hchildren hne
      · exact fun hne hblock => hne (hkind hblock).2
      · intro hblock
        obtain ⟨hgives, hnone⟩ := hkind hblock
        refine Or.inr ⟨hgives, ?_⟩
        rw [isLeaf, hchildren, hnone]
        rfl
    · rw [hchildren] at hinner
      cases hinner
    · exact ihbranches node hinner
    · exact ihrest node hrest
  | @branch start stop low high range first rest hcovers _ hstart hstop hkind hbranches hencloses hle
      hchildren _ ihchildren ihrest =>
    obtain ⟨hlow, hhigh⟩ := hencloses.bounds
    intro node hmem
    rcases mem_flatten_cons.mp hmem with rfl | hinner | hinner | hrest
    · refine ⟨range, hcovers, hchildren.inOrder, ?_, ?_, Or.inr hbranches, fun _ => hkind,
        ?_, ?_, ?_⟩
      · rw [hbranches]
        exact .nil
      · rw [hbranches, append_nil]
        exact hchildren.contains hcovers.file hlow hhigh
      · exact fun hne => absurd hbranches hne
      · rw [hbranches]
        exact forall_mem_nil _
      · exact fun _ => Or.inl (hchildren.bounded hencloses)
    · exact ihchildren node hinner
    · rw [hbranches] at hinner
      cases hinner
    · exact ihrest node hrest

end Laid

end Node

namespace Report

open Node

variable (report : Report) (parent : Option SourceRange) (progress : Progress)

theorem attachNode_kind (node : Node) :
    (report.attachNode parent progress node).2.kind = node.kind ∧
      (report.attachNode parent progress node).2.range = node.range := by
  cases node
  exact ⟨rfl, rfl⟩

theorem encloses_attach {after : Node} {first last : Position} (h : node.Encloses range first last)
    (hlabel : after.label = node.label) (hsource : after.source = node.source)
    (hchildren : after.children = (report.attachNodes parent progress node.children).2.1) :
    after.Encloses range first last := by
  cases h with
  | braces hbraces hlast => exact .braces (hsource.trans hbraces) hlast
  | chained helse hchild hkind hrange =>
    rw [hchild] at hchildren
    obtain ⟨hkind', hrange'⟩ := attachNode_kind report parent
      (report.between progress parent (Node.range _)).1 _
    exact .chained (hlabel.trans helse) hchildren (hkind'.trans hkind) (hrange'.trans hrange)

theorem attachNodes_head (nodes : List Node) :
    (report.attachNodes parent progress nodes).2.1.head?.map Node.range =
      nodes.head?.map Node.range := by
  cases nodes with
  | nil => rfl
  | cons node rest =>
    exact congrArg some (attachNode_kind report parent _ node).2

/-- Nodes that diagnostics are handed to stay where they are laid out. -/
theorem attachNodes_laid {given : SourceRange → Prop} {rank : Rank} {start stop : Position} {nodes : List Node}
    (h : Laid src given rank start stop nodes) (report : Report) (parent : Option SourceRange)
    (progress : Progress) :
    Laid src given rank start stop (report.attachNodes parent progress nodes).2.1 := by
  induction h generalizing parent progress with
  | nil => exact .nil
  | @statement start stop range node rest hcovers hregular hstart hstop hkind hchildren _ _ ihbranches
      ihrest =>
    rw [attachNodes_cons]
    dsimp only
    rw [attachNode_eq _ _ _ _ hcovers.range_eq, hchildren]
    refine .statement ⟨hcovers.range_eq, hcovers.file, hcovers.proper, hcovers.source⟩
      ⟨hregular.id_eq, fun outer houter branch hbranch inner hinner => ?_⟩ hstart hstop ?_ rfl
      (ihbranches _ _) (ihrest _ _)
    · have hhead := congrArg (Option.map Node.range) (Option.mem_def.mp hbranch)
      rw [attachNodes_head] at hhead
      obtain ⟨old, hold, hsame⟩ := Option.map_eq_some_iff.mp hhead
      exact hregular.inset outer houter old hold inner (hsame.trans hinner)
    · intro hblock
      obtain ⟨hgives, hnone⟩ := hkind hblock
      exact ⟨hgives, by rw [hnone]; rfl⟩
  | @branch start stop first last range node rest hcovers hregular hstart hstop hkind hbranches
      hencloses hle _ _ ihchildren ihrest =>
    rw [attachNodes_cons]
    dsimp only
    rw [attachNode_eq _ _ _ _ hcovers.range_eq, hbranches]
    exact .branch ⟨hcovers.range_eq, hcovers.file, hcovers.proper, hcovers.source⟩
      ⟨hregular.id_eq, nofun⟩ hstart hstop hkind rfl (encloses_attach report _ _ hencloses rfl rfl rfl)
      hle (ihchildren _ _) (ihrest _ _)

theorem ofDiagnostics_error {includeWarnings : Bool} {diagnostics : List Diagnostic}
    {error : FlowError} (h : ofDiagnostics includeWarnings diagnostics = .error error) :
    ∃ previous current, error = .unsortedDiagnostics previous current := by
  unfold ofDiagnostics at h
  dsimp only at h
  split at h
  · cases h
    exact ⟨_, _, rfl⟩
  · cases h

theorem attach_first (first : Node) (rest : List Node) :
    ∃ node nodes, report.attach (first :: rest) = node :: nodes ∧ node.kind = first.kind :=
  ⟨_, _, rfl, (attachNode_kind report none _ first).1⟩

end Report

namespace Diagram

open Node

theorem startNode_frames (h : startNode function = .ok node) :
    Statement.Frames function.signature [] false node ∧ node.kind = .start := by
  unfold startNode at h
  split at h
  · cases h
    exact ⟨⟨rfl, rfl, rfl, rfl, rfl⟩, rfl⟩
  · cases h
    exact ⟨⟨rfl, rfl, rfl, rfl, rfl⟩, rfl⟩

/-- The diagram of a function has its start and the nodes of its body, with diagnostics. -/
theorem ofFunction_eq_ok (h : ofFunction setting notices function = .ok diagram) :
    ∃ first report, startNode function = .ok first ∧
      diagram.nodes = Report.attach report
        (first :: Statement.nodes setting function.body.statements) := by
  obtain ⟨first, hfirst, h⟩ := Except.bind_eq_ok h
  obtain ⟨⟨nodes, hasReturn⟩, hwalk, h⟩ := Except.bind_eq_ok h
  obtain ⟨attached, hattach, h⟩ := Except.bind_eq_ok h
  obtain ⟨report, -, hreport⟩ := Except.bind_eq_ok hattach
  rw [Walker.walk_eq] at hwalk
  cases hwalk
  cases hreport
  cases h
  exact ⟨first, report, hfirst, rfl⟩

/-- Nothing but diagnostics out of order stands in the way of a diagram. -/
theorem ofFunction_error {error : FlowError}
    (h : ofFunction setting notices function = .error error) :
    ∃ previous current, error = .unsortedDiagnostics previous current := by
  obtain ⟨first, hfirst⟩ := startNode_eq_ok function
  rcases Except.bind_eq_error h with hstart | ⟨_, -, h⟩
  · rw [hfirst] at hstart
    cases hstart
  rcases Except.bind_eq_error h with hwalk | ⟨_, -, h⟩
  · rw [Walker.walk_eq] at hwalk
    cases hwalk
  rcases Except.bind_eq_error h with hattach | ⟨_, -, h⟩
  · rcases Except.bind_eq_error hattach with hreport | ⟨_, -, hdone⟩
    · exact Report.ofDiagnostics_error hreport
    · cases hdone
  · cases h

theorem ofFunction_laid {file : SourceFile} (hread : read src = .ok file)
    (hfunction : function ∈ file.functions) (h : ofFunction setting notices function = .ok diagram) :
    ∃ start stop, start ≤ stop ∧ Laid src (setting.GivesAt .block function.body.within) .statement
      start stop diagram.nodes := by
  obtain ⟨_, _, hsits, -, -, -, hdeclares⟩ := declares_of_read hread
  obtain ⟨_, _, _, c₁, _, hsits, htakes, hsits₁, hextent, hbody⟩ :=
    hdeclares.place hsits function hfunction
  have hsignature := hextent ▸ hsits.covers htakes le_rfl hsits₁.marks
  have hlossless : function.body.Lossless src _ _ := hbody.lossless hsits₁
  have hturn : function.body.InTurn := (hbody.inTurn hsits₁).1
  obtain ⟨first, report, hfirst, hnodes⟩ := ofFunction_eq_ok h
  obtain ⟨hframes, hkind⟩ := startNode_frames hfirst
  obtain ⟨name, params, returnType, ⟨extent, statements⟩, range, signature⟩ := function
  obtain ⟨start, stop, hmiddle, -, -, -, -, hsequence⟩ := hlossless
  have hbody := Statement.laid_nodes src setting _ statements (Subset.refl _) hsequence hturn
  have hbefore : Text.positionAt src.text (src.offset c₁.last) ≤ Text.positionAt src.text (start + 1) :=
    Text.positionAt_mono src.text (by omega)
  have hafter := Text.positionAt_mono src.text hsequence.le
  have hrange : signature.range = _ := hsignature.range
  have hproper := hsignature.proper
  have hstop : signature.range.stop ≤ Text.positionAt src.text (stop - 1) := by
    rw [hrange]
    exact le_trans hbefore hafter
  have hall : Laid src (setting.GivesAt .block (Statement.allWithin statements)) .statement
      signature.range.start (Text.positionAt src.text (stop - 1))
      (first :: Statement.nodes setting statements) := by
    refine .statement (hsignature.node hframes.range hframes.source) ⟨?_, ?_⟩ (le_refl _) hstop ?_
      hframes.children ?_ ?_
    · unfold startNode at hfirst
      split at hfirst <;> cases hfirst <;> rfl
    · rw [hframes.branches]
      exact nofun
    · intro hblock
      rw [hkind] at hblock
      cases hblock
    · rw [hframes.branches]
      exact .nil
    · rw [hrange]
      exact hbody.mono hbefore
  refine ⟨_, _, le_trans hproper.le hstop, ?_⟩
  rw [hnodes, Block.within_eq]
  exact Report.attachNodes_laid hall report none {}

/-- The geometry of a diagram. The diagram of a function that was read can only fail for
diagnostics out of order. Its nodes are its start and others after it, each of which starts at or
after the end of the one before; and at any depth, a node is sound: its source is the text at its
range, the nodes below it follow one another inside of it, it has children or branches but not
both, children only as a block and branches only as another kind, each branch is a block and runs
from brace to brace or is that of an else-if, and so does every other block, unless at its range
stands a call of the function to whose remote method the connectors give this kind. -/
theorem ofFunction_sound {src : Source} {file : SourceFile} {function : FunctionDef}
    (setting : Setting) (notices : Notices) (hread : read src = .ok file)
    (hfunction : function ∈ file.functions) :
    (∀ error, ofFunction setting notices function = .error error →
      ∃ previous current, error = .unsortedDiagnostics previous current) ∧
    ∀ diagram, ofFunction setting notices function = .ok diagram →
      (∃ first rest, diagram.nodes = first :: rest ∧ first.kind = .start) ∧
      InOrder diagram.nodes ∧
      ∀ node ∈ flatten diagram.nodes, ∃ range,
        node.Sound src (setting.GivesAt .block function.body.within) range := by
  refine ⟨fun error h => ofFunction_error h, fun diagram h => ?_⟩
  obtain ⟨start, stop, -, hlaid⟩ := ofFunction_laid hread hfunction h
  obtain ⟨first, report, hfirst, hnodes⟩ := ofFunction_eq_ok h
  obtain ⟨node, rest, hattach, hkind⟩ := report.attach_first first
    (Statement.nodes setting function.body.statements)
  refine ⟨⟨node, rest, hnodes.trans hattach, ?_⟩, hlaid.inOrder, hlaid.sound⟩
  rw [hkind]
  exact (startNode_frames hfirst).2

/-- The first function of a text and its diagram, with a setting for the file. -/
def ofFirst (setting : SourceFile → Setting) (text : Text) :
    Option (SourceFile × FunctionDef × Diagram) :=
  (read ⟨"m", text⟩).toOption.bind fun file => file.functions.head?.bind
    fun function => (ofFunction (setting file) {} function).toOption.map (file, function, ·)

theorem ofFirst_eq_some {setting : SourceFile → Setting} {text : Text} {file : SourceFile}
    (h : ofFirst setting text = some (file, function, diagram)) :
    read ⟨"m", text⟩ = .ok file ∧ function ∈ file.functions ∧
      ofFunction (setting file) {} function = .ok diagram := by
  obtain ⟨file, hfile, h⟩ := Option.bind_eq_some_iff.mp h
  obtain ⟨function, hfunction, h⟩ := Option.bind_eq_some_iff.mp h
  obtain ⟨diagram, hdiagram, h⟩ := Option.map_eq_some_iff.mp h
  cases h
  exact ⟨Except.eq_ok_of_toOption hfile, mem_of_mem_head? hfunction,
    Except.eq_ok_of_toOption hdiagram⟩

/-- A function with a condition, an else-if and a handler. -/
theorem ofFunction_sound_chained :
    ∃ src file function diagram, src.text =
        ("function f() \x7b if a \x7b b(); \x7d else if c \x7b \x7d do \x7b \x7d on fail \x7b \x7d \x7d" : Text) ∧
      read src = .ok file ∧ function ∈ file.functions ∧
      ofFunction {} {} function = .ok diagram ∧
      (flatten diagram.nodes).map (·.kind) = [.start, .cond, .block, .expression, .block, .cond,
        .block, .errorHandler, .block, .block] ∧
      ∀ node ∈ flatten diagram.nodes, ∃ range,
        node.Sound src (({} : Setting).GivesAt .block function.body.within) range := by
  have hshape : (ofFirst (fun _ => {})
      "function f() \x7b if a \x7b b(); \x7d else if c \x7b \x7d do \x7b \x7d on fail \x7b \x7d \x7d").map
      (fun found => (flatten found.2.2.nodes).map (·.kind)) =
      some [.start, .cond, .block, .expression, .block, .cond, .block, .errorHandler, .block,
        .block] := by
    decide +kernel
  obtain ⟨⟨file, function, diagram⟩, hfound, hkinds⟩ := Option.map_eq_some_iff.mp hshape
  obtain ⟨hread, hfunction, hdiagram⟩ := ofFirst_eq_some hfound
  exact ⟨_, file, function, diagram, rfl, hread, hfunction, hdiagram, hkinds,
    ((ofFunction_sound {} {} hread hfunction).2 diagram hdiagram).2.2⟩

/-- A client whose one method has the kind of a block. -/
def blockClient : ConnectorIndex where
  connectors := [{ module := ⟨"o", "m"⟩, name := "C", methods := [{
    name := "go", kind := .remoteMethod, nodeKind := some .block, params := [],
    returns := .basic .nil }] }]

/-- A call of the method is a block without braces. -/
theorem ofFunction_unbraced :
    ∃ src file function setting diagram node range,
      src.text = ("import o/m; function f(m:C c) \x7b c->go(); \x7d" : Text) ∧
      read src = .ok file ∧ function ∈ file.functions ∧
      ofFunction setting {} function = .ok diagram ∧ node ∈ flatten diagram.nodes ∧
      node.kind = .block ∧ node.range = some range ∧ node.source = ("c->go();" : Text) ∧
      ¬ node.Bounded range := by
  let setting (file : SourceFile) : Setting :=
    { symbols := .ofTable ((({} : SymbolTable).withConnectors blockClient).withFile file)
      connectors := some blockClient }
  have hshape : (ofFirst setting "import o/m; function f(m:C c) \x7b c->go(); \x7d").bind
      (fun found => found.2.2.nodes[1]?.map
        fun node => (node.kind, node.range.isSome, node.source, node.children.length)) =
      some (.block, true, ("c->go();" : Text), 0) := by
    decide +kernel
  obtain ⟨⟨file, function, diagram⟩, hfound, hshape⟩ := Option.bind_eq_some_iff.mp hshape
  obtain ⟨node, hnode, hshape⟩ := Option.map_eq_some_iff.mp hshape
  obtain ⟨hread, hfunction, hdiagram⟩ := ofFirst_eq_some hfound
  obtain ⟨hkind, hrange, hsource, hchildren⟩ : node.kind = .block ∧ node.range.isSome = true ∧
      node.source = "c->go();" ∧ node.children.length = 0 := by
    simpa only [Prod.mk.injEq] using hshape
  obtain ⟨range, hrange⟩ := Option.isSome_iff_exists.mp hrange
  have hmem : node ∈ flatten diagram.nodes := mem_flatten (mem_of_getElem? hnode)
  refine ⟨_, file, function, setting file, diagram, node, range, rfl, hread, hfunction, hdiagram,
    hmem, hkind, hrange, hsource, ?_⟩
  rintro ⟨first, last, hencloses, -⟩
  cases hencloses with
  | braces hbraces =>
    rw [hsource] at hbraces
    cases (List.cons.inj hbraces).1
  | chained _ hchild =>
    rw [hchild] at hchildren
    cases hchildren

end Diagram

end Flowchart

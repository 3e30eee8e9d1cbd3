import Flowchart.Proofs.Coherence
import Flowchart.Proofs.Editing
import Flowchart.Proofs.Splicing

/-!
What a node that is in the document changes when it is applied. The document keeps all that lies
before and behind the node; the lines for new imports come first, also before a node that starts the
document, since an insertion comes before a replacement that starts at its place.
-/
namespace Flowchart

open List

variable {text : Text} {place : Placement} {node : Node} {edits : SourceEdits}

def importLines (modules : List Text) : Text :=
  modules.flatMap fun module => "import " ++ module ++ ";\n"

namespace TextEdit

open Text

theorem Applicable.le {find? : Position → Option Nat} {given : List TextEdit}
    (h : Applicable find? given) :
    ∀ edit ∈ given, (find? edit.span.start).getD 0 ≤ (find? edit.span.stop).getD 0 :=
  forall_mem_zipIdx.mpr fun _ hmem => h.ordered _ (mem_map_of_mem hmem)

theorem inOrder_eq_located {given : List TextEdit}
    (h : (located text.offsetAt? given).Pairwise fun a b => a.precedes b) :
    inOrder text given = located text.offsetAt? given :=
  mergeSort_of_pairwise h

/-- An edit that can be made replaces the part of the text between its ends. -/
theorem Applicable.replaced {given : List TextEdit} {edit : TextEdit}
    (h : Applicable text.offsetAt? given) (hmem : edit ∈ given) :
    ∃ before replaced after, text = before ++ (replaced ++ after) ∧
      text.offsetAt? edit.span.start = some (byteLength before) ∧
      text.offsetAt? edit.span.stop = some (byteLength (before ++ replaced)) := by
  obtain ⟨hstart, hstop⟩ := h.found edit hmem
  obtain ⟨start, hstart⟩ := Option.isSome_iff_exists.mp hstart
  obtain ⟨stop, hstop⟩ := Option.isSome_iff_exists.mp hstop
  have hle := h.le edit hmem
  rw [hstart, hstop] at hle
  obtain ⟨before, tail, hbefore, -, rfl⟩ := offsetAt?_eq_some_iff.mp hstart
  obtain ⟨last, after, hlast, -, rfl⟩ := offsetAt?_eq_some_iff.mp hstop
  obtain ⟨replaced, rfl⟩ : before <+: last :=
    prefix_of_byteLength_le ⟨tail, hbefore.symm⟩ ⟨after, hlast.symm⟩ hle
  exact ⟨before, replaced, after, by rw [hlast, append_assoc], hstart, hstop⟩

/-- The new imports stand before the text in which the other edit is made. -/
theorem replaceAll_importEdit {before replaced after : Text} (modules : List Text) {edit : TextEdit}
    (htext : text = before ++ (replaced ++ after))
    (hstart : text.offsetAt? edit.span.start = some (byteLength before))
    (hstop : text.offsetAt? edit.span.stop = some (byteLength (before ++ replaced))) :
    replaceAll text (inOrder text (Placement.importEdit modules ++ [edit])) =
      importLines modules ++ (before ++ (edit.newText ++ after)) := by
  have hplaced (place : Nat) : placed text.offsetAt? (edit, place) =
      ⟨byteLength before, byteLength (before ++ replaced), place, edit.newText⟩ := by
    simp [placed, hstart, hstop]
  have hlast (place : Nat) : replaceAll text [placed text.offsetAt? (edit, place)] =
      before ++ (edit.newText ++ after) := by
    rw [replaceAll_cons, hplaced, htext]
    exact replaceBytes_append before replaced after edit.newText
  cases modules with
  | nil =>
    rw [inOrder_eq_located (pairwise_singleton _ _)]
    exact hlast 0
  | cons module modules =>
    have hlocated : located text.offsetAt? (Placement.importEdit (module :: modules) ++ [edit]) =
        [⟨0, 0, 0, importLines (module :: modules)⟩, placed text.offsetAt? (edit, 1)] := by
      have hfirst : text.offsetAt? {} = some 0 := offsetAt?_after [] text
      unfold located Placement.importEdit importLines
      simp [placed, insertion, Span.point, hfirst]
    rw [inOrder_eq_located (by
      rw [hlocated, pairwise_pair, Resolved.precedes_iff]
      dsimp only
      omega), hlocated, replaceAll_cons, hlast]
    exact replaceBytes_append [] [] (before ++ (edit.newText ++ after)) _

end TextEdit

/-- The edits for a node are one for its text, after the one for the imports that it needs. Made in a
text, they put the lines for the imports first. -/
theorem Placement.edits_text {width : Nat} {source : Text} (h : place.edits width node = .ok edits)
    (htext : TextEdit.apply source (edits.forFile place.path) = .ok text) :
    ∃ rendered edit before replaced after, Render.render width node = .ok rendered ∧
      place.editFor node rendered = .ok edit ∧ edits.imports = place.missingImports node ∧
      source = before ++ (replaced ++ after) ∧
      source.offsetAt? edit.span.start = some before.byteLength ∧
      source.offsetAt? edit.span.stop = some (before ++ replaced).byteLength ∧
      text = importLines edits.imports ++ (before ++ (edit.newText ++ after)) := by
  obtain ⟨rendered, hrender, h⟩ := Except.bind_eq_ok h
  obtain ⟨edit, hedit, h⟩ := Except.bind_eq_ok h
  cases h
  rw [SourceEdits.forFile_self] at htext
  obtain ⟨happlicable, rfl⟩ := TextEdit.apply_eq_ok_iff.mp htext
  obtain ⟨before, replaced, after, hsource, hstart, hstop⟩ :=
    happlicable.replaced (mem_append_right _ mem_cons_self)
  exact ⟨rendered, edit, before, replaced, after, hrender, hedit, rfl, hsource, hstart, hstop,
    TextEdit.replaceAll_importEdit _ hsource hstart hstop⟩

namespace Session

theorem placement_document (session : Session) (file : SourceFile) (old : Diagram)
    (insertAt : Option Position) :
    (session.placement file old insertAt).path = session.source.file ∧
      (session.placement file old insertAt).imported = file.importNames ∧
      (session.placement file old insertAt).current = session.current := by
  unfold placement
  split
  · exact ⟨rfl, rfl, rfl⟩
  · split <;> exact ⟨rfl, rfl, rfl⟩

/-- The document after a node was applied: the lines for the new imports, then the document before
with one edit made in it. -/
theorem apply_text {session next : Session} {function : Text} {insertAt : Option Position}
    {outcome : SyncOutcome} (h : session.apply function node insertAt = .ok outcome next) :
    ∃ file old edited rendered edit before replaced after,
      read session.source = .ok file ∧
      session.analyze file function session.diagnostics = .ok old ∧
      read next.source = .ok edited ∧
      Render.render Placement.defaultWidth node = .ok rendered ∧
      (session.placement file old insertAt).editFor node rendered = .ok edit ∧
      outcome.edits.imports = (session.placement file old insertAt).missingImports node ∧
      session.source.text = before ++ (replaced ++ after) ∧
      session.source.text.offsetAt? edit.span.start = some before.byteLength ∧
      session.source.text.offsetAt? edit.span.stop = some (before ++ replaced).byteLength ∧
      next.source = { session.source with
        text := importLines outcome.edits.imports ++ (before ++ (edit.newText ++ after)) } := by
  obtain ⟨file, old, text, edited, -, hfile, hold, hedits, htext, hedited, -, -, rfl⟩ :=
    apply_eq_ok_iff.mp h
  obtain ⟨rendered, edit, before, replaced, after, hrender, hedit, himports, hsource, hstart, hstop,
    rfl⟩ := Placement.edits_text hedits ((placement_document ..).1 ▸ htext)
  exact ⟨file, old, edited, rendered, edit, before, replaced, after, hfile, hold, hedited, hrender,
    hedit, himports, hsource, hstart, hstop, rfl⟩

/-- A node that is in the document replaces its own range and nothing else: behind the lines for the
new imports the document is what lay before the range, the text of the node, indented as its place
has it, and what lay behind the range. -/
theorem apply_replaces_range {session next : Session} {function : Text} {node : Node}
    {insertAt : Option Position} {outcome : SyncOutcome} {range : SourceRange}
    (h : session.apply function node insertAt = .ok outcome next)
    (hrange : node.range = some range) :
    ∃ file old rendered before replaced after,
      read session.source = .ok file ∧
      session.analyze file function session.diagnostics = .ok old ∧
      Render.render Placement.defaultWidth node = .ok rendered ∧
      session.source.text = before ++ (replaced ++ after) ∧
      session.source.text.offsetAt? range.start = some before.byteLength ∧
      session.source.text.offsetAt? range.stop = some (before ++ replaced).byteLength ∧
      next.source = { session.source with
        text := importLines outcome.edits.imports ++ (before ++
          (Layout.reindent ((session.placement file old insertAt).column.getD range.start.column)
            rendered ++ after)) } := by
  obtain ⟨file, old, -, rendered, edit, before, replaced, after, hfile, hold, -, hrender, hedit, -,
    hsource, hstart, hstop, hnext⟩ := apply_text h
  rw [Placement.editFor, hrange] at hedit
  cases hedit
  exact ⟨file, old, rendered, before, replaced, after, hfile, hold, hrender, hsource, hstart, hstop,
    hnext⟩

/-- A node is applied if it has edits, the edits can be made, and the document after them has a
diagram. -/
theorem apply_of_steps {session : Session} {function text : Text} {node : Node}
    {insertAt : Option Position} {edits : SourceEdits}
    (hedits : ((read session.source).toOption.bind fun file =>
      (session.analyze file function session.diagnostics).toOption.bind fun old =>
        ((session.placement file old insertAt).edits Placement.defaultWidth node).toOption) =
      some edits)
    (htext : TextEdit.apply session.source.text (edits.forFile session.source.file) = .ok text)
    (hnew : ((read { session.source with text := text }).toOption.bind fun edited =>
      (session.analyze edited (functionAfter function node) []).toOption).isSome) :
    ∃ outcome, outcome.edits = edits ∧ session.apply function node insertAt =
      .ok outcome { session with
        source := { session.source with text := text }, diagnostics := [] } := by
  obtain ⟨file, hfile, hedits⟩ := Option.bind_eq_some_iff.mp hedits
  obtain ⟨old, hold, hedits⟩ := Option.bind_eq_some_iff.mp hedits
  obtain ⟨new, hnew⟩ := Option.isSome_iff_exists.mp hnew
  obtain ⟨edited, hedited, hnew⟩ := Option.bind_eq_some_iff.mp hnew
  exact ⟨⟨edits, _⟩, rfl, apply_eq_ok_iff.mpr ⟨file, old, text, edited, new,
    Except.eq_ok_of_toOption hfile, Except.eq_ok_of_toOption hold, Except.eq_ok_of_toOption hedits,
    htext, Except.eq_ok_of_toOption hedited, Except.eq_ok_of_toOption hnew, rfl, rfl⟩⟩

/-- A function whose first line starts the document. -/
def blank : Session := { source := ⟨"main.bal", "function main() \x7b\n\x7d\n"⟩ }

/-- The start of that function under another name, which needs a module. -/
def renamed : Node :=
  { id := "1", kind := .start, label := "Start", range := some ⟨"main.bal", ⟨0, 0⟩, ⟨0, 15⟩⟩
    properties := [(Key.name, { Property.ofIdentifier "run" with imports := ["a/b"] })] }

theorem apply_renamed : ∃ outcome, outcome.edits = ⟨[("main.bal", [.insertion {} "import a/b;\n",
      ⟨⟨⟨0, 0⟩, ⟨0, 15⟩⟩, "function run()"⟩])], ["a/b"]⟩ ∧ blank.apply "main" renamed none =
    .ok outcome { blank with
      source := { blank.source with text := "import a/b;\nfunction run() \x7b\n\x7d\n" }
      diagnostics := [] } :=
  apply_of_steps (by decide +kernel) (by rw [TextEdit.apply_of_sorted rfl (by decide) rfl]; rfl)
    (by decide +kernel)

/-- The import stands before the node even where both start the document. -/
theorem apply_replaces_range_first :
    ∃ outcome next after, blank.apply "main" renamed none = .ok outcome next ∧
      next.source.text = ("import a/b;\nfunction run()" : Text) ++ after := by
  obtain ⟨outcome, houtcome, happly⟩ := apply_renamed
  obtain ⟨_, _, rendered, before, _, after, -, -, hrender, -, hstart, -, hsource⟩ :=
    apply_replaces_range happly rfl
  have hempty : before = [] := by
    by_contra hne
    have hpos := Text.byteLength_pos hne
    exact absurd (Option.some.inj hstart) (Nat.ne_of_lt hpos)
  have hrendered : rendered = "function run()" := by
    exact (Except.ok.inj hrender).symm
  refine ⟨outcome, _, after, happly, ?_⟩
  rw [hsource, houtcome, hempty, hrendered]
  rfl

end Session

end Flowchart

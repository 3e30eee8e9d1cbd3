import Flowchart.Proofs.Binding
import Flowchart.Proofs.Sorting
import Flowchart.Proofs.Translation
import Flowchart.Session

/-!
Sessions over any run of calls. Diagnostics from the file and from the host are sorted before they
are handed out, so their order is never refused. A call that fails leaves the session as it was; a
call that succeeds leaves the edited document, which can be read, and shows the diagram of that
document reconciled with the one before.
-/
namespace Flowchart

namespace Diagram

theorem startNode_eq_ok (function : FunctionDef) : ∃ node, startNode function = .ok node := by
  unfold startNode
  split <;> exact ⟨_, Draft.build_eq_toNode rfl (Or.inl rfl)⟩

end Diagram

namespace Session

variable {file : SourceFile} {session : Session}

/-- The only thing that a diagram of a document that was read can lack is its function. -/
theorem analyze_error {function : Text} {extra : List Diagnostic} {error : FlowError}
    (h : session.analyze file function extra = .error error) :
    error = .functionNotFound function := by
  unfold analyze at h
  split at h
  · cases h
    rfl
  · next definition _ =>
    exfalso
    obtain ⟨first, hfirst⟩ := Diagram.startNode_eq_ok definition
    obtain ⟨report, hreport⟩ := Report.ofDiagnostics_mergeSort false (file.diagnostics ++ extra)
    simp [Diagram.ofFunction, hfirst, Walker.walk_eq, Notices.attach, hreport, bind, Except.bind,
      pure, Except.pure] at h

theorem read_error {source : Source} {error : FlowError} (h : read source = .error error) :
    ∃ fault, error = .malformedSource fault := by
  unfold read at h
  split at h
  · cases h
  · next fault _ =>
    cases h
    exact ⟨fault, rfl⟩

theorem readFile_of_read {source : Source} (h : read source = .ok file) :
    SourceFile.read source = .ok file := by
  unfold read at h
  split at h
  · next found hfound =>
    cases h
    exact hfound
  · cases h

theorem diagram_ne_unsorted (session : Session) (function : Text) (previous current : Position) :
    session.diagram function ≠ .error (.unsortedDiagnostics previous current) := by
  intro h
  unfold diagram at h
  cases hread : read session.source with
  | error error =>
    obtain ⟨fault, rfl⟩ := read_error hread
    rw [hread] at h
    cases h
  | ok file =>
    rw [hread] at h
    cases analyze_error h

/-- A call to apply a node of a function, inserting it at the position if it is new. -/
structure Request where
  function : Text
  node : Node
  insertAt : Option Position

/-- What a session answers to a request, with the session that it goes on with. -/
def step (session : Session) (request : Request) : EStateM.Result FlowError Session SyncOutcome :=
  session.apply request.function request.node request.insertAt

/-- The session after a call, whatever was answered. -/
def next : EStateM.Result FlowError Session SyncOutcome → Session
  | .ok _ after => after
  | .error _ after => after

/-- A call with the session before it and what came of it. -/
structure Call where
  before : Session
  request : Request
  result : EStateM.Result FlowError Session SyncOutcome

def calls (session : Session) : List Request → List Call
  | [] => []
  | request :: rest =>
    ⟨session, request, session.step request⟩ :: (next (session.step request)).calls rest

def afterAll (session : Session) (requests : List Request) : Session :=
  requests.foldl (fun current request => next (current.step request)) session

namespace Call

/-- The session went on with the document after the edits and nothing else changed, but for the
diagnostics of the host, which are gone. -/
structure Moved (call : Call) (outcome : SyncOutcome) (after : Session) : Prop where
  edited : TextEdit.apply call.before.source.text
    (outcome.edits.forFile call.before.source.file) = .ok after.source.text
  kept : after = { call.before with
    source := { call.before.source with text := after.source.text }, diagnostics := [] }

/-- The diagram that was answered is the one of the document after the call, reconciled with the
one before the call. -/
def Shows (call : Call) (outcome : SyncOutcome) (after : Session) : Prop :=
  ∃ file old new, SourceFile.read after.source = .ok file ∧
    call.before.diagram call.request.function = .ok old ∧
    after.diagram (functionAfter call.request.function call.request.node) = .ok new ∧
    outcome.diagram = { new with
      nodes := ((Reconciler.ofDiagnostics file.diagnostics).reconcile old.nodes new.nodes).2 }

/-- The answer of a call and the session after it fit together. -/
def Coherent (call : Call) : Prop :=
  match call.result with
  | .ok outcome after => call.Moved outcome after ∧ call.Shows outcome after
  | .error error after => after = call.before ∧
    ∀ previous current, error ≠ .unsortedDiagnostics previous current

end Call

section Steps

variable {α β ε : Type} {x : Except FlowError α} {f : α → EStateM FlowError Session β}
  {after : Session}

theorem mapError_eq_ok {x : Except ε α} {wrap : ε → FlowError} {a : α} :
    x.mapError wrap = .ok a ↔ x = .ok a := by
  cases x <;> simp [Except.mapError]

theorem mapError_eq_error {x : Except ε α} {wrap : ε → FlowError} {error : FlowError}
    (h : x.mapError wrap = .error error) : ∃ fault, error = wrap fault := by
  cases x with
  | ok a => cases h
  | error fault => exact ⟨fault, (Except.error.inj h).symm⟩

/-- A step that only can fail leaves the session to the next one as it is. -/
theorem ofExcept_bind_ok {b : β} :
    ((MonadExcept.ofExcept x : EStateM FlowError Session α) >>= f) session = .ok b after ↔
      ∃ a, x = .ok a ∧ f a session = .ok b after := by
  cases x with
  | ok a => exact ⟨fun h => ⟨a, rfl, h⟩, fun ⟨_, ha, h⟩ => Except.ok.inj ha ▸ h⟩
  | error error => exact ⟨nofun, nofun⟩

theorem ofExcept_bind_error {error : FlowError}
    (h : ((MonadExcept.ofExcept x : EStateM FlowError Session α) >>= f) session =
      .error error after) :
    (x = .error error ∧ after = session) ∨ ∃ a, x = .ok a ∧ f a session = .error error after := by
  cases x with
  | ok a => exact .inr ⟨a, rfl, h⟩
  | error =>
    cases h
    exact .inl ⟨rfl, rfl⟩

end Steps

theorem withEdits_eq_ok {source after : Source} {edits : List TextEdit} :
    source.withEdits edits = .ok after ↔
      ∃ text, TextEdit.apply source.text edits = .ok text ∧ after = { source with text := text } := by
  constructor
  · intro h
    obtain ⟨text, htext, h⟩ := Except.bind_eq_ok h
    cases h
    exact ⟨text, htext, rfl⟩
  · rintro ⟨text, htext, rfl⟩
    unfold Source.withEdits
    rw [htext]
    rfl

variable {function : Text} {node : Node} {insertAt : Option Position}

/-- A node is applied through six results, each read off the ones before it. -/
theorem apply_eq_ok_iff {after : Session} {outcome : SyncOutcome} :
    session.apply function node insertAt = .ok outcome after ↔ ∃ file old text edited new,
      read session.source = .ok file ∧
      session.analyze file function session.diagnostics = .ok old ∧
      (session.placement file old insertAt).edits Placement.defaultWidth node = .ok outcome.edits ∧
      TextEdit.apply session.source.text (outcome.edits.forFile session.source.file) = .ok text ∧
      read { session.source with text := text } = .ok edited ∧
      session.analyze edited (functionAfter function node) [] = .ok new ∧
      outcome.diagram = { new with
        nodes := ((Reconciler.ofDiagnostics edited.diagnostics).reconcile old.nodes new.nodes).2 } ∧
      after = { session with source := { session.source with text := text }, diagnostics := [] } := by
  constructor
  · intro h
    obtain ⟨file, hfile, h⟩ := ofExcept_bind_ok.mp h
    obtain ⟨old, hold, h⟩ := ofExcept_bind_ok.mp h
    obtain ⟨edits, hedits, h⟩ := ofExcept_bind_ok.mp h
    obtain ⟨source, hsource, h⟩ := ofExcept_bind_ok.mp h
    obtain ⟨edited, hedited, h⟩ := ofExcept_bind_ok.mp h
    obtain ⟨new, hnew, h⟩ := ofExcept_bind_ok.mp h
    obtain ⟨text, htext, rfl⟩ := withEdits_eq_ok.mp (mapError_eq_ok.mp hsource)
    cases h
    exact ⟨file, old, text, edited, new, hfile, hold, mapError_eq_ok.mp hedits, htext, hedited, hnew,
      rfl, rfl⟩
  · obtain ⟨edits, diagram⟩ := outcome
    rintro ⟨file, old, text, edited, new, hfile, hold, hedits, htext, hedited, hnew, rfl, rfl⟩
    have hsource := withEdits_eq_ok.mpr ⟨text, htext, rfl⟩
    refine ofExcept_bind_ok.mpr ⟨file, hfile, ofExcept_bind_ok.mpr ⟨old, hold, ?_⟩⟩
    refine ofExcept_bind_ok.mpr ⟨edits, mapError_eq_ok.mpr hedits, ?_⟩
    refine ofExcept_bind_ok.mpr ⟨_, mapError_eq_ok.mpr hsource, ?_⟩
    exact ofExcept_bind_ok.mpr ⟨edited, hedited, ofExcept_bind_ok.mpr ⟨new, hnew, rfl⟩⟩

/-- Whatever a call stops at, it has not touched the session; and it never stops over the order of
diagnostics. -/
theorem apply_error {after : Session} {error : FlowError}
    (h : session.apply function node insertAt = .error error after) :
    after = session ∧ ∀ previous current, error ≠ .unsortedDiagnostics previous current := by
  rcases ofExcept_bind_error h with ⟨hfile, hafter⟩ | ⟨file, -, h⟩
  · obtain ⟨fault, rfl⟩ := read_error hfile
    exact ⟨hafter, nofun⟩
  rcases ofExcept_bind_error h with ⟨hold, hafter⟩ | ⟨old, -, h⟩
  · obtain rfl := analyze_error hold
    exact ⟨hafter, nofun⟩
  rcases ofExcept_bind_error h with ⟨hedits, hafter⟩ | ⟨edits, -, h⟩
  · obtain ⟨fault, rfl⟩ := mapError_eq_error hedits
    exact ⟨hafter, nofun⟩
  rcases ofExcept_bind_error h with ⟨hsource, hafter⟩ | ⟨source, -, h⟩
  · obtain ⟨fault, rfl⟩ := mapError_eq_error hsource
    exact ⟨hafter, nofun⟩
  rcases ofExcept_bind_error h with ⟨hedited, hafter⟩ | ⟨edited, -, h⟩
  · obtain ⟨fault, rfl⟩ := read_error hedited
    exact ⟨hafter, nofun⟩
  rcases ofExcept_bind_error h with ⟨hnew, hafter⟩ | ⟨new, -, h⟩
  · obtain rfl := analyze_error hnew
    exact ⟨hafter, nofun⟩
  cases h

theorem diagram_eq_of_read (h : read session.source = .ok file) (function : Text) :
    session.diagram function = session.analyze file function session.diagnostics := by
  unfold diagram
  rw [h]
  rfl

theorem step_coherent (session : Session) (request : Request) :
    Call.Coherent ⟨session, request, session.step request⟩ := by
  unfold Call.Coherent
  split
  · next outcome after happly =>
    obtain ⟨file, old, text, edited, new, hfile, hold, -, htext, hedited, hnew, hdiagram, rfl⟩ :=
      apply_eq_ok_iff.mp happly
    refine ⟨⟨htext, rfl⟩, edited, old, new, readFile_of_read hedited, ?_, ?_, hdiagram⟩
    · exact (diagram_eq_of_read hfile _).trans hold
    · exact (diagram_eq_of_read hedited _).trans hnew
  · next error after happly => exact apply_error happly

/-- Every call of a run is coherent, and the diagram of a function can fail after any run, but
never over the order of diagnostics. -/
theorem calls_coherent (session : Session) (requests : List Request) :
    (∀ call ∈ session.calls requests, call.Coherent) ∧
    ∀ function previous current,
      (session.afterAll requests).diagram function ≠
        .error (.unsortedDiagnostics previous current) := by
  refine ⟨?_, fun function => diagram_ne_unsorted _ function⟩
  induction requests generalizing session with
  | nil =>
    intro call hcall
    cases hcall
  | cons request rest ih =>
    intro call hcall
    rcases List.mem_cons.mp hcall with rfl | hrest
    · exact step_coherent session request
    · exact ih _ call hrest

end Session

end Flowchart

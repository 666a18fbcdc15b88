import Statechart.Checkpoint.Basic

/-!
Restoring a session from a checkpoint. The checkpoint is checked part by part, and the session
changes only when every part has passed: it must be idle, the version and the chart must be the
right ones, the active states must form a valid configuration that agrees with the status, every
record must belong to a history state and stay below its parent, and payloads must be JSON.
-/
namespace Statechart

namespace Engine

variable {σ : Type}

/-- A check that is passed says nothing. -/
def check (passed : Bool) (error : CheckpointError) : Except CheckpointError Unit :=
  if passed then .ok () else .error error

def stateNamed (e : Engine σ) (name : String) : Except CheckpointError Nat :=
  match e.chart.find? name with
  | some s => .ok s
  | none => .error (.unknownState name)

/-- A checkpoint taken between two calls is never about to stabilize. -/
def restoredStatus : Status → Status
  | .stabilizing => .awaitingExternal
  | status => status

def checkConfiguration (e : Engine σ) (x : Configuration) : Except CheckpointError Unit :=
  match x.violation? e.chart with
  | some v => .error (.invalidConfiguration v)
  | none => .ok ()

/-- A recorded state lies below the parent of the history state and can be active. -/
def checkRecorded (e : Engine σ) (name : String) (parent : Nat) (recorded : List Nat) :
    Except CheckpointError Unit :=
  match recorded.find? (fun s => !e.chart.isDescendant s parent || e.chart.isHistory s) with
  | some stray =>
    let outside := e.chart.nameOf parent
    let state := e.chart.nameOf stray
    .error (.validationFailed s!"history '{name}' records '{state}' outside '{outside}'")
  | none => .ok ()

def restoreRecord (e : Engine σ) (m : Memory) (r : String × List String) :
    Except CheckpointError Memory := do
  let (name, states) := r
  let history ← e.stateNamed name
  check (e.chart.isHistory history)
    (.validationFailed s!"'{name}' records history but is not a history state")
  let recorded ← states.mapM e.stateNamed
  check (!recorded.isEmpty) (.validationFailed s!"history '{name}' has an empty record")
  e.checkRecorded name ((e.chart.parent history).getD Chart.root) recorded
  pure (m.record history recorded)

def restoreEvent (e : SavedEvent) : Except CheckpointError Event :=
  match e.toEvent? with
  | some event => .ok event
  | none => .error .deserializationFailed

def statusMismatch (status : Status) (active : Nat) : CheckpointError :=
  .validationFailed s!"status {status.name} does not match {active} active state(s)"

/-- The session that a checkpoint describes, on the host and trace of the given one. -/
def restore (e : Engine σ) (s : Session σ) (c : Checkpoint) :
    Except CheckpointError (Session σ) := do
  check (s.status = .idle) .running
  discard c.checkVersion
  check (c.chart = e.chart.name) (.chartMismatch e.chart.name c.chart)
  let active ← c.active.mapM e.stateNamed
  let configuration := StateSet.ofList active
  e.checkConfiguration configuration
  let status := restoredStatus c.status
  check ((status == .idle) == configuration.isEmpty) (statusMismatch status configuration.size)
  let memory ← c.history.entries.foldlM e.restoreRecord Memory.empty
  let internal ← c.internal.mapM restoreEvent
  let external ← c.external.mapM restoreEvent
  pure { s with status, configuration, memory, queues := Queues.ofEvents internal external }

end Engine

end Statechart

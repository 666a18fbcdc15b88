import Statechart.Engine
import Statechart.Timestamp

/-!
Checkpoints: the state of a session as it is stored, with states by name and payloads as JSON text.
-/
namespace Statechart

inductive CheckpointError where
  | serializationFailed
  | deserializationFailed
  | unsupportedVersion (found : UInt32)
  | chartMismatch (expected found : String)
  | running
  | unknownState (name : String)
  | validationFailed (reason : String)
  | invalidConfiguration (violation : ConfigurationViolation)
  deriving DecidableEq, Repr

structure SavedEvent where
  name : String
  origin : Origin
  payload : Option String
  deriving DecidableEq, Repr

structure Checkpoint where
  version : UInt32
  id : Uuid
  timestamp : Timestamp
  chart : String
  session : Uuid
  status : Status
  active : List String
  /-- Recorded states by the name of their history state. -/
  history : OrderedMap String (List String)
  internal : List SavedEvent
  external : List SavedEvent
  deriving DecidableEq

/-- The only version that is written, and the only one that is read. -/
def checkpointVersion : UInt32 := 1

def CheckpointError.message : CheckpointError → String
  | serializationFailed => "Serialization failed"
  | deserializationFailed => "Deserialization failed"
  | unsupportedVersion found =>
    s!"Unsupported checkpoint version {found.toNat}, supported: {checkpointVersion.toNat}"
  | chartMismatch expected found =>
    s!"Checkpoint belongs to chart '{found}', expected '{expected}'"
  | running => "Cannot restore into a running state chart"
  | unknownState name => s!"Checkpoint refers to unknown state '{name}'"
  | validationFailed reason => s!"Checkpoint validation failed: {reason}"
  | invalidConfiguration violation =>
    s!"Checkpoint configuration is invalid: {violation.message}"

namespace SavedEvent

def capture (e : Event) : SavedEvent := ⟨e.name, e.origin, e.payload.map Json.Value.compact⟩

def toEvent? (e : SavedEvent) : Option Event :=
  match e.payload with
  | none => some ⟨e.name, none, e.origin⟩
  | some text => (Json.Value.parse? text).map (fun v => ⟨e.name, some v, e.origin⟩)

end SavedEvent

namespace Checkpoint

def checkVersion (c : Checkpoint) : Except CheckpointError Checkpoint :=
  if c.version = checkpointVersion then .ok c else .error (.unsupportedVersion c.version)

end Checkpoint

namespace Engine

variable {σ : Type}

def checkpoint (e : Engine σ) (s : Session σ) (id : Uuid) (timestamp : Timestamp) : Checkpoint where
  version := checkpointVersion
  id := id
  timestamp := timestamp
  chart := e.chart.name
  session := e.id
  status := s.status
  active := s.configuration.names e.chart
  history := OrderedMap.ofWrites
    (s.memory.records.entries.map (fun (h, ss) => (e.chart.nameOf h, e.chart.namesOf ss)))
  internal := s.queues.internal.map SavedEvent.capture
  external := s.queues.external.map SavedEvent.capture

end Engine

end Statechart

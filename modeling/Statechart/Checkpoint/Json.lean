import Statechart.Checkpoint.Basic

/-!
Checkpoints as JSON text. Reading takes the fields in any order, passes over unknown ones, and
checks the version last.
-/
namespace Statechart

open Json (Value Document)

namespace SavedEvent

def toJson (e : SavedEvent) : Value :=
  .object [("name", .text e.name), ("origin", .text e.origin.name),
    ("payload", match e.payload with
      | some text => .text text
      | none => .null)]

def ofDocument? (d : Document) : Option SavedEvent := do
  match ← d.record? ["name", "origin", "payload"] with
  | [some name, some origin, payload] =>
    some {
      name := ← name.string?
      origin := ← origin.oneOf? Origin.named
      payload := ← Document.optional? Document.string? payload }
  | _ => none

end SavedEvent

namespace Checkpoint

def toValue (c : Checkpoint) : Value :=
  .object [
    ("version", .natural c.version.toNat),
    ("id", .text c.id.toString),
    ("timestamp", .text c.timestamp.toString),
    ("chart", .text c.chart),
    ("session_id", .text c.session.toString),
    ("status", .text c.status.name),
    ("active", .texts c.active),
    ("history", .object (c.history.entries.map (fun (h, ss) => (h, .texts ss)))),
    ("internal", .array (c.internal.map SavedEvent.toJson)),
    ("external", .array (c.external.map SavedEvent.toJson))]

def toJson (c : Checkpoint) : String := c.toValue.spread

def fieldNames : List String :=
  ["version", "id", "timestamp", "chart", "session_id", "status", "active", "history", "internal",
    "external"]

def historyEntry? (field : List Char × Document) : Option (String × List String) := do
  let states ← field.2.list? Document.string?
  some (← Json.string? field.1, states)

def history? : Document → Option (OrderedMap String (List String))
  | .object fields => (fields.mapM historyEntry?).map OrderedMap.ofWrites
  | _ => none

def ofDocument? (d : Document) : Option Checkpoint := do
  match ← d.record? fieldNames with
  | [some version, some id, some timestamp, some chart, some session, some status, some active,
      some history, some internal, some external] =>
    some {
      version := UInt32.ofNat (← version.natural? (Nat.pow 2 32))
      id := ← id.string?.bind Uuid.ofString?
      timestamp := ← timestamp.string?.bind Timestamp.ofString?
      chart := ← chart.string?
      session := ← session.string?.bind Uuid.ofString?
      status := ← status.oneOf? Status.named
      active := ← active.list? Document.string?
      history := ← history? history
      internal := ← internal.list? SavedEvent.ofDocument?
      external := ← external.list? SavedEvent.ofDocument? }
  | _ => none

/-- Reads a checkpoint of any version. -/
def parse? (s : String) : Option Checkpoint := (Document.parse? s).bind ofDocument?

def fromJson (s : String) : Except CheckpointError Checkpoint :=
  match parse? s with
  | some c => c.checkVersion
  | none => .error .deserializationFailed

end Checkpoint

end Statechart

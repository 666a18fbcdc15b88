import Statechart.Json.Printer
import Statechart.Json.Reader

/-!
Settings of the interpreter: how many microsteps a macrostep may take, whether faults raise error
events, and whether dropped events are reported.
-/
namespace Statechart

structure Settings where
  microstepLimit : Option Nat := none
  raiseErrorEvents : Bool := true
  reportDroppedEvents : Bool := true
  deriving DecidableEq, Repr, Inhabited

namespace Settings

def withMicrostepLimit (s : Settings) (limit : Nat) : Settings :=
  { s with microstepLimit := some limit }

def withErrorEvents (s : Settings) (on : Bool) : Settings := { s with raiseErrorEvents := on }

def withDroppedEventReports (s : Settings) (on : Bool) : Settings :=
  { s with reportDroppedEvents := on }

/-- Whether so many microsteps are more than allowed, and if so what is allowed. -/
def exceeded? (s : Settings) (microsteps : Nat) : Option Nat :=
  match s.microstepLimit with
  | none => none
  | some limit => if microsteps ≤ limit then none else some limit

def toJson (s : Settings) : Json.Value :=
  .object [
    ("microstep_limit", match s.microstepLimit with
      | some n => .natural n
      | none => .null),
    ("raise_error_events", .bool s.raiseErrorEvents),
    ("report_dropped_events", .bool s.reportDroppedEvents)]

def flag? (byDefault : Bool) : Option Json.Document → Option Bool
  | none => some byDefault
  | some d => d.bool?

/-- Whatever is left out keeps its default. A limit is a number of 64 bits. -/
def ofDocument? (d : Json.Document) : Option Settings := do
  match ← d.openRecord? ["microstep_limit", "raise_error_events", "report_dropped_events"] with
  | [limit, errors, dropped] =>
    some {
      microstepLimit := ← Json.Document.optional? (Json.Document.natural? (Nat.pow 2 64)) limit
      raiseErrorEvents := ← flag? true errors
      reportDroppedEvents := ← flag? true dropped }
  | _ => none

def parse? (s : String) : Option Settings := (Json.Document.parse? s).bind ofDocument?

end Settings

end Statechart

import Statechart.Json.Printer
import Statechart.Json.Reader

/-!
Events. An event has a name, perhaps a payload that nothing in the interpreter looks into, and an
origin, which decides the queue it waits in.
-/
namespace Statechart

/-- Internal events come from the chart itself, external ones from its surroundings. -/
inductive Origin where
  | internal
  | external
  deriving DecidableEq, Repr, Inhabited

namespace Origin

def name : Origin → String
  | internal => "Internal"
  | external => "External"

def named : String → Option Origin
  | "Internal" => some internal
  | "External" => some external
  | _ => none

end Origin

structure Event where
  name : String
  payload : Option Json.Value := none
  origin : Origin
  deriving Repr, Inhabited

namespace Event

def external (name : String) : Event := { name, origin := .external }

def internal (name : String) : Event := { name, origin := .internal }

def withPayload (e : Event) (payload : Json.Value) : Event := { e with payload := some payload }

def withOrigin (e : Event) (origin : Origin) : Event := { e with origin }

def isInternal (e : Event) : Bool := e.origin == .internal

/-- Announces that a state has completed. -/
def done (state : String) : Event := internal ("done.state." ++ state)

/-- Tells the chart that a guard or an action has faulted. -/
def error (message : String) : Event :=
  (internal "error.execution").withPayload (.object [("message", .text message)])

def toJson (e : Event) : Json.Value :=
  .object [("name", .text e.name), ("payload", e.payload.getD .null),
    ("origin", .text e.origin.name)]

/-- An event is itself a level of nesting; a payload of `null` is read as no payload. -/
def ofDocument? (d : Json.Document) : Option Event := do
  match ← d.record? ["name", "payload", "origin"] with
  | [some name, payload, some origin] =>
    some {
      name := ← name.string?
      payload := ← Json.Document.optional? (Json.Document.value? (Json.depthLimit - 1)) payload
      origin := ← origin.oneOf? Origin.named }
  | _ => none

def parse? (s : String) : Option Event := (Json.Document.parse? s).bind ofDocument?

end Event

end Statechart

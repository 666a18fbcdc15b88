import Statechart.Configuration
import Statechart.Event
import Statechart.Fault
import Statechart.Uuid

/-!
Hosts give guards and actions their meaning. A host has a state of its own; a guard answers yes or
no or faults, an action may raise internal events, send external ones and fault. Neither sees more
of the interpreter than the chart, the active states, the current event and the session.
-/
namespace Statechart

structure EventContext where
  chart : Chart
  configuration : Configuration
  event : Option Event
  session : Uuid

namespace EventContext

def eventName (x : EventContext) : Option String := x.event.map (·.name)

def payload (x : EventContext) : Option Json.Value := x.event.bind (·.payload)

def isActive (x : EventContext) (name : String) : Bool := x.configuration.isActive x.chart name

def activeNames (x : EventContext) : List String := x.configuration.names x.chart

end EventContext

/-- What an action has done; what it raised and sent before a fault stays. -/
structure Reaction (σ : Type) where
  state : σ
  raised : List Event := []
  sent : List Event := []
  fault : Option ActionFault := none

structure Host (σ : Type) where
  guard : GuardId → EventContext → σ → Except GuardFault Bool × σ
  action : ActionId → EventContext → σ → Reaction σ

/-- Guards by name. -/
structure GuardTable (σ : Type) where
  entries : OrderedMap GuardId (EventContext → σ → Bool) := {}

namespace GuardTable

variable {σ : Type}

def insert (t : GuardTable σ) (id : GuardId) (holds : EventContext → σ → Bool) : GuardTable σ :=
  ⟨t.entries.put id holds⟩

def size (t : GuardTable σ) : Nat := t.entries.size

def isEmpty (t : GuardTable σ) : Bool := t.entries.isEmpty

def judge (t : GuardTable σ) (id : GuardId) (x : EventContext) (s : σ) : Except GuardFault Bool :=
  match t.entries.get? id with
  | some holds => .ok (holds x s)
  | none => .error (.unknown id)

end GuardTable

/-- Actions by name. -/
structure ActionTable (σ : Type) where
  entries : OrderedMap ActionId (EventContext → σ → Reaction σ) := {}

namespace ActionTable

variable {σ : Type}

def insert (t : ActionTable σ) (id : ActionId) (run : EventContext → σ → Reaction σ) :
    ActionTable σ :=
  ⟨t.entries.put id run⟩

def size (t : ActionTable σ) : Nat := t.entries.size

def isEmpty (t : ActionTable σ) : Bool := t.entries.isEmpty

def run (t : ActionTable σ) (id : ActionId) (x : EventContext) (s : σ) : Reaction σ :=
  match t.entries.get? id with
  | some act => act x s
  | none => { state := s, fault := some (.unknown id) }

end ActionTable

def Host.ofTables {σ : Type} (guards : GuardTable σ) (actions : ActionTable σ) : Host σ where
  guard id x s := (guards.judge id x s, s)
  action := actions.run

end Statechart

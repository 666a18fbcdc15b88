import Statechart.Host
import Statechart.Memory
import Statechart.Observer
import Statechart.Queues
import Statechart.Settings

/-!
Sessions. A session is what an interpreter keeps of one run of a chart: the active states, the
history memory, the waiting events, the state of the host, and a trace to which everything that
happens, guards judged and actions run included, is written in its order.
-/
namespace Statechart

inductive Status where
  | idle
  | stabilizing
  | awaitingExternal
  | final
  deriving DecidableEq, Repr, Inhabited

namespace Status

def name : Status → String
  | idle => "Idle"
  | stabilizing => "Stabilizing"
  | awaitingExternal => "AwaitingExternal"
  | final => "Final"

def named : String → Option Status
  | "Idle" => some idle
  | "Stabilizing" => some stabilizing
  | "AwaitingExternal" => some awaitingExternal
  | "Final" => some final
  | _ => none

def isRunning : Status → Bool
  | stabilizing | awaitingExternal => true
  | idle | final => false

end Status

/-- An action to run, on behalf of a state. -/
structure Call where
  action : ActionId
  phase : Phase
  state : Nat
  deriving DecidableEq, Repr

inductive Occurrence where
  | judged (guard : GuardId) (event : Option Event) (verdict : Except GuardFault Bool)
  | acted (call : Call) (event : Option Event) (configuration : Configuration)
      (fault : Option ActionFault)
  /-- The event has left its queue to be processed. -/
  | taken (event : Event)
  | noticed (notification : Notification)

structure Session (σ : Type) where
  status : Status := .idle
  configuration : Configuration := StateSet.empty
  memory : Memory := {}
  queues : Queues := {}
  host : σ
  trace : Array Occurrence := #[]

namespace Session

variable {σ : Type}

def isRunning (s : Session σ) : Bool := s.status.isRunning

def record (s : Session σ) (o : Occurrence) : Session σ := { s with trace := s.trace.push o }

def notice (s : Session σ) (n : Notification) : Session σ := s.record (.noticed n)

/-- The state stops being active. -/
def leave (s : Session σ) (state : Nat) : Session σ :=
  { s with configuration := s.configuration.erase state }

/-- The state becomes active. -/
def occupy (s : Session σ) (state : Nat) : Session σ :=
  { s with configuration := s.configuration.insert state }

/-- The session as it is when its chart is about to be entered. -/
def blank (s : Session σ) : Session σ :=
  { s with status := .stabilizing, configuration := StateSet.empty, memory := Memory.empty }

/-- Sends an event from outside. It is seen when the hand-off is drained. -/
def send (s : Session σ) (e : Event) : Session σ := { s with queues := s.queues.send e }

/-- Sends to a session that may be gone. -/
def sendTo (receiver : Option (Session σ)) (e : Event) : Except EngineError (Session σ) :=
  match receiver with
  | some s => .ok (s.send e)
  | none => .error .handOffClosed

/-- The trace so far, and the session with an empty one. -/
def takeTrace (s : Session σ) : List Occurrence × Session σ :=
  (s.trace.toList, { s with trace := #[] })

end Session

structure Engine (σ : Type) where
  chart : Chart
  host : Host σ
  settings : Settings := {}
  id : Uuid

def Engine.context {σ : Type} (e : Engine σ) (s : Session σ) (event : Option Event) :
    EventContext :=
  ⟨e.chart, s.configuration, event, e.id⟩

end Statechart

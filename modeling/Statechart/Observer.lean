import Statechart.Event
import Statechart.Fault

/-!
Observers. The interpreter notifies of what it does; an observer is what somebody makes of each
notification. Observers hear of a notification in the order in which they subscribed.
-/
namespace Statechart

/-- Names in the order in which states were exited and entered, and the event that was processed. -/
structure Change where
  exited : List String
  entered : List String
  event : Option String
  deriving DecidableEq, Repr

inductive Notification where
  | changed (change : Change)
  | faulted (fault : Fault)
  | dropped (event : Event)
  | stable
  | finished
  deriving Repr

/-- Reports of type `α` on a notification. -/
abbrev Observer (α : Type) := Notification → List α

namespace Observer

variable {α : Type}

def silent : Observer α := fun _ => []

def onChange (report : Change → α) : Observer α
  | .changed c => [report c]
  | _ => []

/-- Whether a state is active now, whenever a change exits or enters it. -/
def activity (state : String) (c : Change) : List Bool :=
  (if c.exited.contains state then [false] else []) ++
    (if c.entered.contains state then [true] else [])

def onStateActive (state : String) (report : Bool → α) : Observer α
  | .changed c => (activity state c).map report
  | _ => []

end Observer

/-- Subscriptions are numbered and never reuse a number. -/
structure Observers (α : Type) where
  next : Nat := 0
  entries : List (Nat × Observer α) := []

namespace Observers

variable {α : Type}

def subscribe (os : Observers α) (o : Observer α) : Nat × Observers α :=
  (os.next, ⟨os.next + 1, os.entries ++ [(os.next, o)]⟩)

/-- Also tells whether there was such a subscription. -/
def unsubscribe (os : Observers α) (id : Nat) : Bool × Observers α :=
  (os.entries.any (·.1 == id), { os with entries := os.entries.filter (·.1 != id) })

def size (os : Observers α) : Nat := os.entries.length

def deliver (os : Observers α) (n : Notification) : List α := os.entries.flatMap (·.2 n)

end Observers

end Statechart

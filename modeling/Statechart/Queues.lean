import Statechart.Event

/-!
Queues of waiting events. Internal events go before external ones. Events sent from outside wait in
the hand-off until it is drained into the external queue.
-/
namespace Statechart

structure Queues where
  internal : List Event := []
  external : List Event := []
  handOff : List Event := []
  deriving Repr, Inhabited

namespace Queues

/-- An event waits in the queue of its origin. -/
def push (q : Queues) (e : Event) : Queues :=
  match e.origin with
  | .internal => { q with internal := q.internal ++ [e] }
  | .external => { q with external := q.external ++ [e] }

/-- Whatever the chart raises is internal. -/
def raise (q : Queues) (e : Event) : Queues :=
  { q with internal := q.internal ++ [e.withOrigin .internal] }

/-- Whatever is sent is external. -/
def send (q : Queues) (e : Event) : Queues :=
  { q with handOff := q.handOff ++ [e.withOrigin .external] }

def popInternal? (q : Queues) : Option (Event × Queues) :=
  match q.internal with
  | [] => none
  | e :: es => some (e, { q with internal := es })

def popExternal? (q : Queues) : Option (Event × Queues) :=
  match q.external with
  | [] => none
  | e :: es => some (e, { q with external := es })

def drain (q : Queues) : Queues :=
  { q with external := q.external ++ q.handOff, handOff := [] }

def clearInternal (q : Queues) : Queues := { q with internal := [] }

/-- The events given are queued as they are, whatever their origin. -/
def ofEvents (internal external : List Event) : Queues := { internal, external }

end Queues

end Statechart

import Statechart.Configuration
import Statechart.Target

/-!
Choosing the transitions of a microstep among the enabled ones, of which each active state offers
one at most. Two candidates conflict when both exit some state, or when one only runs actions and
its source is exited by the other. Of conflicting candidates the one with the shallower source goes
first, and of two equally deep the one earlier in document order.
-/
namespace Statechart

structure Candidate where
  rank : Nat
  source : Nat
  depth : Nat
  targetless : Bool
  exits : StateSet
  deriving DecidableEq

namespace Candidate

def conflicts (a b : Candidate) : Bool :=
  !a.exits.disjoint b.exits || (a.targetless && b.exits.contains a.source) ||
    (b.targetless && a.exits.contains b.source)

def preempts (a b : Candidate) : Bool :=
  a.depth < b.depth || (a.depth == b.depth && a.source < b.source)

end Candidate

namespace Selection

/-- A candidate that is not preempted takes the place of those it conflicts with. -/
def consider (chosen : List Candidate) (new : Candidate) : List Candidate :=
  if chosen.any (fun rival => rival.conflicts new && rival.preempts new) then chosen
  else chosen.filter (fun rival => !rival.conflicts new) ++ [new]

def resolve (candidates : List Candidate) : List Candidate := candidates.foldl consider []

/-- The ranks of the chosen candidates, in order. -/
def ranks (chosen : List Candidate) : List Nat := Ordered.ofList (chosen.map (·.rank))

end Selection

namespace Chart

def candidate? (c : Chart) (x : Configuration) (m : Memory) (rank : Nat) : Option Candidate :=
  let t := c.transition rank
  (c.exitSet? x m t).map (fun exits => {
    rank, exits
    source := t.source
    depth := (c.node t.source).depth
    targetless := t.isTargetless })

/-- The transitions to take, given the enabled ones in the document order of their sources. -/
def choose? (c : Chart) (x : Configuration) (m : Memory) (enabled : List Nat) : Option (List Nat) :=
  (enabled.mapM (c.candidate? x m)).map (fun cs => Selection.ranks (Selection.resolve cs))

end Chart

end Statechart

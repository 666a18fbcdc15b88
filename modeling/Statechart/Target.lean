import Statechart.Chart
import Statechart.Memory
import Statechart.StateSet

/-!
Where a transition leads. A history state among its targets stands for the states it restores: those
recorded, or else its default, or else where its parent is entered. The domain of a transition is
the state inside which everything is exited and entered again; a transition whose targets come to
nothing has none. Resolving a target ends unless history defaults lead back to themselves.
-/
namespace Statechart

namespace Chart

/-- The states a target stands for, if found in so many steps. -/
def resolveTarget? (c : Chart) (m : Memory) : Nat → Nat → Option (List Nat)
  | 0, _ => none
  | n + 1, t =>
    match (c.node t).kind with
    | .history _ default =>
      match m.get? t, default with
      | some recorded, _ => some recorded
      | none, some ⟨d :: ds, _⟩ => ((d :: ds).mapM (resolveTarget? c m n)).map List.flatten
      | none, _ =>
        match c.parent t with
        | some p => some (c.defaultEntry p)
        | none => some []
    | _ => some [t]

/-- A default names states below the parent of its history state, so a chain of defaults never
climbs, and one that does not come back to itself passes each state once at most. -/
def resolveSteps (c : Chart) : Nat := c.size + 1

/-- The states a transition enters first, in document order. -/
def effectiveTargets? (c : Chart) (m : Memory) (t : Transition) : Option (List Nat) :=
  (t.targets.mapM (c.resolveTarget? m c.resolveSteps)).map
    (fun ts => (StateSet.ofList ts.flatten).toList)

/-- An internal transition of a compound state to states inside it stays inside its source. -/
def domainOf (c : Chart) (t : Transition) : List Nat → Option Nat
  | [] => none
  | targets =>
    if t.kind = .internal ∧ (c.node t.source).isCompound ∧
        targets.all (c.isDescendant · t.source) then
      some t.source
    else some (c.leastCompoundAncestor (t.source :: targets))

def domain? (c : Chart) (m : Memory) (t : Transition) : Option (Option Nat) :=
  (c.effectiveTargets? m t).map (c.domainOf t)

/-- The active states properly below a domain. -/
def exitsBelow (c : Chart) (x : StateSet) : Option Nat → StateSet
  | some d => x.filter (c.isDescendant · d)
  | none => StateSet.empty

def exitSet? (c : Chart) (x : StateSet) (m : Memory) (t : Transition) : Option StateSet :=
  (c.domain? m t).map (c.exitsBelow x)

end Chart

end Statechart

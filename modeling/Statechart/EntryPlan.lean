import Statechart.Memory
import Statechart.StateSet
import Statechart.Target

/-!
Plans of entry: which states a microstep is to make active, which of them are entered by default,
and which history defaults have actions to run. A plan grows downwards, from a state to everything
its entry brings along, and upwards, through the ancestors of a target, whose other regions are
entered by default unless the plan already reaches into them.
-/
namespace Statechart

structure EntryPlan where
  states : StateSet := StateSet.empty
  /-- Compound states to be entered through their initial transition. -/
  byDefault : StateSet := StateSet.empty
  /-- Actions of history defaults, under the parent of the history state. -/
  historyActions : OrderedMap Nat (List ActionId) := {}
  deriving DecidableEq

namespace EntryPlan

def covers (p : EntryPlan) (c : Chart) (region : Nat) : Bool :=
  p.states.toList.any (fun s => s == region || c.isDescendant s region)

def addState (p : EntryPlan) (s : Nat) : EntryPlan := { p with states := p.states.insert s }

def addCompound (p : EntryPlan) (s : Nat) : EntryPlan :=
  { p with states := p.states.insert s, byDefault := p.byDefault.insert s }

def addHistoryActions (p : EntryPlan) (parent : Nat) (actions : List ActionId) : EntryPlan :=
  { p with historyActions := p.historyActions.put parent actions }

/-- Adds the regions that the plan does not reach into, one after the other. -/
def openRegions (c : Chart) (down : Nat → EntryPlan → Option EntryPlan) :
    List Nat → EntryPlan → Option EntryPlan
  | [], p => some p
  | r :: rs, p =>
    if p.covers c r then openRegions c down rs p
    else (down r p).bind (openRegions c down rs)

/-- Adds ancestors, nearest first, the root excepted. -/
def addAncestors (c : Chart) (down : Nat → EntryPlan → Option EntryPlan) :
    List Nat → EntryPlan → Option EntryPlan
  | [], p => some p
  | a :: as, p =>
    if a = Chart.root then addAncestors c down as p
    else
      let p := p.addState a
      if (c.node a).isParallel then
        (openRegions c down (c.regions a) p).bind (addAncestors c down as)
      else addAncestors c down as p

/-- Adds each target with all that it brings along. -/
def addAll (down : Nat → EntryPlan → Option EntryPlan) : List Nat → EntryPlan → Option EntryPlan
  | [], p => some p
  | t :: ts, p => (down t p).bind (addAll down ts)

/-- Adds the ancestors of each target below a state. -/
def addAllAncestors (c : Chart) (down : Nat → EntryPlan → Option EntryPlan) (top : Nat) :
    List Nat → EntryPlan → Option EntryPlan
  | [], p => some p
  | t :: ts, p =>
    (addAncestors c down (c.ancestorsBelow t top) p).bind (addAllAncestors c down top ts)

def addTargets (c : Chart) (down : Nat → EntryPlan → Option EntryPlan) (top : Nat)
    (targets : List Nat) (p : EntryPlan) : Option EntryPlan :=
  (addAll down targets p).bind (addAllAncestors c down top targets)

/-- Adds a state and everything its entry brings along, if the recursion is no deeper than so many
levels. -/
def addWithin (c : Chart) (m : Memory) : Nat → Nat → EntryPlan → Option EntryPlan
  | 0, _, _ => none
  | n + 1, s, p =>
    match (c.node s).kind with
    | .history _ default =>
      match c.parent s with
      | none => some p
      | some parent =>
        match m.get? s, default with
        | some recorded, _ => addTargets c (addWithin c m n) parent recorded p
        | none, some ⟨d :: ds, actions⟩ =>
          addTargets c (addWithin c m n) parent (d :: ds) (p.addHistoryActions parent actions)
        | none, some ⟨[], actions⟩ =>
          addTargets c (addWithin c m n) parent (c.defaultEntry parent)
            (p.addHistoryActions parent actions)
        | none, none => addTargets c (addWithin c m n) parent (c.defaultEntry parent) p
    | .compound _ => addTargets c (addWithin c m n) s (c.defaultTargets s) (p.addCompound s)
    | .parallel => openRegions c (addWithin c m n) (c.regions s) (p.addState s)
    | .atomic | .final => some (p.addState s)

/-- From a history state the recursion goes on below the same parent, from any other state below that
state. So on each level of the tree it passes through the children of one parent at most, and a
level costs fewer steps than there are states. -/
def levels (c : Chart) : Nat := (c.size + 2) * (c.size + 2)

def add? (c : Chart) (m : Memory) (s : Nat) (p : EntryPlan) : Option EntryPlan :=
  addWithin c m (levels c) s p

/-- Regions of a parallel root are entered when neither planned nor active. -/
def completeRoot? (c : Chart) (x : StateSet) (m : Memory) (p : EntryPlan) : Option EntryPlan :=
  let rec go : List Nat → EntryPlan → Option EntryPlan
    | [], p => some p
    | r :: rs, p =>
      if p.covers c r || x.contains r then go rs p else (p.add? c m r).bind (go rs)
  if (c.node Chart.root).isParallel then go (c.regions Chart.root) p else some p

end EntryPlan

end Statechart

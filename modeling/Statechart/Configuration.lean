import Statechart.Chart
import Statechart.StateSet

/-!
Configurations: the sets of active states. The root is never a member. A configuration is valid when
it is empty, or when below the root every compound state reached has exactly one active region,
every parallel state reached has all of them, and nothing else is active.
-/
namespace Statechart

abbrev Configuration := StateSet

inductive ConfigurationViolation where
  | compoundChildren (state : String) (active : Nat)
  | missingRegion (state region : String)
  | detachedState (state parent : String)
  | pseudostateActive (state : String)
  | unknownState (id : Nat)
  deriving DecidableEq, Repr

def ConfigurationViolation.message : ConfigurationViolation → String
  | compoundChildren state active =>
    s!"Active compound state '{state}' has {active} active children, expected exactly one"
  | missingRegion state region =>
    s!"Region '{region}' of active parallel state '{state}' is not active"
  | detachedState state parent => s!"State '{state}' is active but its parent '{parent}' is not"
  | pseudostateActive state => s!"History pseudostate '{state}' can never be active"
  | unknownState id => s!"Configuration refers to state #{id} unknown to the chart"

namespace Configuration

def names (x : Configuration) (c : Chart) : List String := c.namesOf x.toList

/-- The active states without children. -/
def leaves (x : Configuration) (c : Chart) : List Nat := x.toList.filter (fun s => (c.node s).isAtomic)

def leafNames (x : Configuration) (c : Chart) : List String := c.namesOf (x.leaves c)

def isActive (x : Configuration) (c : Chart) (name : String) : Bool :=
  match c.find? name with
  | some s => x.contains s
  | none => false

/-- Final within so many levels. -/
def isFinalWithin (x : Configuration) (c : Chart) : Nat → Nat → Bool
  | 0, _ => false
  | n + 1, s =>
    match (c.node s).kind with
    | .parallel => (c.regions s).all (isFinalWithin x c n)
    | .compound _ => (c.node s).children.any (fun k => (c.node k).isFinal && x.contains k)
    | _ => false

/-- A compound state is in a final state when a final child is active, a parallel state when all of
its regions are in one. A chart has fewer levels than states. -/
def isFinal (x : Configuration) (c : Chart) (s : Nat) : Bool := x.isFinalWithin c c.size s

/-- What makes an active state's own place wrong. -/
def checkState (x : Configuration) (c : Chart) (s : Nat) : Except ConfigurationViolation Unit :=
  match c.get? s with
  | none => .error (.unknownState s)
  | some n =>
    if n.isHistory then .error (.pseudostateActive n.name)
    else match n.parent with
      | none => .ok ()
      | some p =>
        if p == Chart.root || x.contains p then .ok ()
        else .error (.detachedState n.name (c.nameOf p))

/-- What makes the children of an active state, or of the root, wrong. -/
def checkChildren (x : Configuration) (c : Chart) (s : Nat) : Except ConfigurationViolation Unit :=
  let n := c.node s
  if n.isCompound || (s == Chart.root && !n.isParallel) then
    let active := ((c.regions s).filter x.contains).length
    if active = 1 then .ok () else .error (.compoundChildren n.name active)
  else if n.isParallel then
    match (c.regions s).find? (fun r => !x.contains r) with
    | some r => .error (.missingRegion n.name (c.nameOf r))
    | none => .ok ()
  else .ok ()

def validate (x : Configuration) (c : Chart) : Except ConfigurationViolation Unit := do
  if x.isEmpty then return ()
  x.toList.forM (x.checkState c)
  x.checkChildren c Chart.root
  x.toList.forM (x.checkChildren c)

/-- The first violation, if there is one. -/
def violation? (x : Configuration) (c : Chart) : Option ConfigurationViolation :=
  match x.validate c with
  | .ok _ => none
  | .error v => some v

end Configuration

end Statechart

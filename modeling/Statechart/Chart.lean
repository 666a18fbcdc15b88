import Statechart.Ancestry
import Statechart.Declaration
import Statechart.Descriptor

/-!
Charts. The states of a chart stand in document order, so a state is named by its position and the
root is 0; the transitions stand in the order of their sources and, for one source, of their
declaration, so a transition is named by its rank. Nothing in a chart changes after it is built.
-/
namespace Statechart

structure DefaultEntry where
  targets : List Nat
  actions : List ActionId
  deriving DecidableEq, Repr, Inhabited

inductive Kind where
  | atomic
  | compound (initial : DefaultEntry)
  | parallel
  | final
  | history (depth : HistoryDepth) (default : Option DefaultEntry)
  deriving DecidableEq, Repr, Inhabited

structure Node where
  id : Nat
  name : String
  parent : Option Nat
  children : List Nat
  kind : Kind
  depth : Nat
  onEntry : List ActionId
  onExit : List ActionId
  transitions : List Nat
  deriving DecidableEq, Repr, Inhabited

namespace Node

def isAtomic (n : Node) : Bool :=
  match n.kind with
  | .atomic | .final => true
  | _ => false

def isCompound (n : Node) : Bool :=
  match n.kind with
  | .compound _ => true
  | _ => false

def isParallel (n : Node) : Bool :=
  match n.kind with
  | .parallel => true
  | _ => false

def isFinal (n : Node) : Bool :=
  match n.kind with
  | .final => true
  | _ => false

def isHistory (n : Node) : Bool :=
  match n.kind with
  | .history _ _ => true
  | _ => false

variable {n : Node}

theorem isCompound_iff : n.isCompound = true ↔ ∃ initial, n.kind = .compound initial := by
  unfold isCompound
  cases n.kind <;> simp

theorem isParallel_iff : n.isParallel = true ↔ n.kind = .parallel := by
  unfold isParallel
  cases n.kind <;> simp

theorem isFinal_iff : n.isFinal = true ↔ n.kind = .final := by
  unfold isFinal
  cases n.kind <;> simp

end Node

structure Trigger where
  event : Option Descriptor
  guard : Option GuardId
  deriving DecidableEq, Repr

/-- A trigger without a descriptor accepts no event. -/
def Trigger.accepts (t : Trigger) (event : String) : Bool :=
  match t.event with
  | some d => d.accepts event
  | none => false

structure Transition where
  rank : Nat
  source : Nat
  triggers : List Trigger
  targets : List Nat
  actions : List ActionId
  kind : TransitionKind
  deriving DecidableEq, Repr, Inhabited

namespace Transition

/-- An eventless transition is taken without consuming an event. -/
def isEventless (t : Transition) : Bool := t.triggers.all (·.event.isNone)

/-- A transition without targets only runs its actions. -/
def isTargetless (t : Transition) : Bool := t.targets.isEmpty

end Transition

structure Chart where
  states : Array Node
  transitions : Array Transition
  deriving DecidableEq, Repr, Inhabited

namespace Chart

def root : Nat := 0

def node (c : Chart) (s : Nat) : Node := c.states.getD s default

def transition (c : Chart) (rank : Nat) : Transition := c.transitions.getD rank default

def size (c : Chart) : Nat := c.states.size

def get? (c : Chart) (s : Nat) : Option Node := c.states[s]?

def nameOf (c : Chart) (s : Nat) : String := (c.node s).name

/-- A chart has the name of its root. -/
def name (c : Chart) : String := c.nameOf root

def namesOf (c : Chart) (ss : List Nat) : List String := ss.map c.nameOf

def find? (c : Chart) (name : String) : Option Nat := c.states.findIdx? (·.name == name)

def parent (c : Chart) (s : Nat) : Option Nat := (c.node s).parent

/-- Proper ancestors, nearest first. -/
def ancestors (c : Chart) (s : Nat) : List Nat := Ancestry.ancestors c.parent s

/-- Proper ancestors, nearest first, stopping before `top`. -/
def ancestorsBelow (c : Chart) (s top : Nat) : List Nat := (c.ancestors s).takeWhile (· != top)

/-- Whether `s` lies properly below `a`. -/
def isDescendant (c : Chart) (s a : Nat) : Bool := Ancestry.isDescendant c.parent s a

def isHistory (c : Chart) (s : Nat) : Bool := (c.node s).isHistory

/-- The children that can be active. -/
def regions (c : Chart) (s : Nat) : List Nat := (c.node s).children.filter (fun k => !c.isHistory k)

def historyChildren (c : Chart) (s : Nat) : List Nat := (c.node s).children.filter c.isHistory

/-- The nearest ancestor of the first state that is compound, or the root, and above all the
others. -/
def leastCompoundAncestor (c : Chart) : List Nat → Nat
  | [] => root
  | s :: ss =>
    ((c.ancestors s).find? (fun a =>
      (a == root || (c.node a).isCompound) && ss.all (c.isDescendant · a))).getD root

/-- Where a compound state is entered: its initial targets, or else its first region. -/
def defaultTargets (c : Chart) (s : Nat) : List Nat :=
  match (c.node s).kind with
  | .compound ⟨t :: ts, _⟩ => t :: ts
  | _ => (c.regions s).take 1

/-- A parallel state is entered in all of its regions. -/
def defaultEntry (c : Chart) (s : Nat) : List Nat :=
  if (c.node s).isParallel then c.regions s else c.defaultTargets s

end Chart

end Statechart

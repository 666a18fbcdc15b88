import Statechart.Ancestry
import Statechart.Declaration

/-!
The outline of a declaration: its states in document order, numbered from the root, and its
transitions, ranked state by state. Names are not yet resolved. States and transitions take their
numbers as they are added, and each state is told of its transitions and children.
-/
namespace Statechart

structure OutlineState where
  name : String
  kind : DeclaredKind
  parent : Option Nat
  depth : Nat
  children : List Nat
  initial : List String
  initialActions : List ActionId
  onEntry : List ActionId
  onExit : List ActionId
  transitions : List Nat
  deriving DecidableEq, Repr, Inhabited

structure OutlineTransition where
  source : Nat
  decl : TransitionDecl
  deriving DecidableEq, Repr

structure Outline where
  states : Array OutlineState := #[]
  transitions : List OutlineTransition := []
  deriving Repr

namespace Outline

/-- Adds a transition of a state, and records its rank there. -/
def pushTransition (source : Nat) (o : Outline) (t : TransitionDecl) : Outline where
  states := o.states.modify source fun s =>
    { s with transitions := s.transitions ++ [o.transitions.length] }
  transitions := o.transitions ++ [⟨source, t⟩]

/-- Records a child of a state. -/
def addChild (parent : Nat) (o : Outline) (child : Nat) : Outline :=
  { o with states := o.states.modify parent fun s => { s with children := s.children ++ [child] } }

mutual

/-- Adds a declared state, its transitions and then what is declared below it. The answer is the
number that the state has got. -/
def push (parent : Option Nat) (depth : Nat) (o : Outline) : StateDecl → Nat × Outline
  | ⟨name, kind, initial, initialActions, onEntry, onExit, transitions, children⟩ =>
    let id := o.states.size
    let s : OutlineState :=
      { name, kind, parent, depth, initial, initialActions, onEntry, onExit
        children := []
        transitions := [] }
    let o := { o with states := o.states.push s }
    (id, pushAll id (depth + 1) (transitions.foldl (pushTransition id) o) children)

def pushAll (parent depth : Nat) (o : Outline) : List StateDecl → Outline
  | [] => o
  | d :: ds =>
    let (child, o) := push (some parent) depth o d
    pushAll parent depth (o.addChild parent child) ds

end

/-- Lays out a declaration, the root first. -/
def flatten (root : StateDecl) : Outline := (push none 0 {} root).2

def state (o : Outline) (i : Nat) : OutlineState := o.states.getD i default

/-- The first state declared under a name. -/
def find? (o : Outline) (name : String) : Option Nat := o.states.findIdx? (·.name == name)

def parent (o : Outline) (i : Nat) : Option Nat := (o.state i).parent

def isDescendant (o : Outline) (s a : Nat) : Bool := Ancestry.isDescendant o.parent s a

def lowestCommonAncestor? (o : Outline) (a b : Nat) : Option Nat :=
  Ancestry.lowestCommonAncestor? o.parent a b

def isHistory (o : Outline) (i : Nat) : Bool :=
  match (o.state i).kind with
  | .history _ => true
  | _ => false

end Outline

namespace OutlineState

def isCompound (s : OutlineState) : Bool := s.kind == .plain && !s.children.isEmpty

/-- Final and history states are leaves of the tree. -/
def isLeafOnly (s : OutlineState) : Bool :=
  match s.kind with
  | .final | .history _ => true
  | .plain | .parallel => false

end OutlineState

end Statechart

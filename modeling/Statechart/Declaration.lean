/-!
Declarations of charts. A chart is declared as a tree of states that carry their transitions;
targets are named, and nothing is checked until the chart is built. A declaration starts as a bare
state or transition and grows by the functions below, each adding one thing at the end of its list.
-/
namespace Statechart

/-- A guard is named; its meaning is the host's. -/
abbrev GuardId := String

/-- An action is named; its meaning is the host's. -/
abbrev ActionId := String

/-- A history state remembers the active children of its parent, or its active leaves. -/
inductive HistoryDepth where
  | shallow
  | deep
  deriving DecidableEq, Repr, Inhabited

inductive TransitionKind where
  | external
  | internal
  deriving DecidableEq, Repr, Inhabited

inductive DeclaredKind where
  | plain
  | parallel
  | final
  | history (depth : HistoryDepth)
  deriving DecidableEq, Repr, Inhabited

structure TriggerDecl where
  event : Option String
  guard : Option GuardId
  deriving DecidableEq, Repr

structure TransitionDecl where
  triggers : List TriggerDecl := []
  targets : List String := []
  actions : List ActionId := []
  kind : TransitionKind := .external
  deriving DecidableEq, Repr, Inhabited

/-- For a history state, the initial transition is its default. -/
structure StateDecl where
  name : String
  kind : DeclaredKind
  initial : List String := []
  initialActions : List ActionId := []
  onEntry : List ActionId := []
  onExit : List ActionId := []
  transitions : List TransitionDecl := []
  children : List StateDecl := []
  deriving Repr, Inhabited

namespace TransitionDecl

def eventless : TransitionDecl := {}

def trigger (t : TransitionDecl) (event : Option String) (guard : Option GuardId) :
    TransitionDecl :=
  { t with triggers := t.triggers ++ [⟨event, guard⟩] }

def orOn (t : TransitionDecl) (event : String) : TransitionDecl := t.trigger (some event) none

def on (event : String) : TransitionDecl := eventless.orOn event

def guardLast (guard : GuardId) : List TriggerDecl → List TriggerDecl
  | [] => [⟨none, some guard⟩]
  | [t] => [{ t with guard := some guard }]
  | t :: ts => t :: guardLast guard ts

/-- Guards the trigger declared last; without any, the transition becomes eventless and guarded. -/
def when (t : TransitionDecl) (guard : GuardId) : TransitionDecl :=
  { t with triggers := guardLast guard t.triggers }

def «to» (t : TransitionDecl) (target : String) : TransitionDecl :=
  { t with targets := t.targets ++ [target] }

def action (t : TransitionDecl) (a : ActionId) : TransitionDecl :=
  { t with actions := t.actions ++ [a] }

def internal (t : TransitionDecl) : TransitionDecl := { t with kind := .internal }

def simple (event target : String) : TransitionDecl := (on event).to target

def guarded (event : String) (guard : GuardId) (target : String) : TransitionDecl :=
  ((on event).when guard).to target

end TransitionDecl

namespace StateDecl

def plain (name : String) : StateDecl := { name, kind := .plain }

def parallel (name : String) : StateDecl := { name, kind := .parallel }

def final (name : String) : StateDecl := { name, kind := .final }

def history (name : String) (depth : HistoryDepth) : StateDecl := { name, kind := .history depth }

def withInitial (s : StateDecl) (target : String) : StateDecl :=
  { s with initial := s.initial ++ [target] }

def withInitialAction (s : StateDecl) (a : ActionId) : StateDecl :=
  { s with initialActions := s.initialActions ++ [a] }

def withEntry (s : StateDecl) (a : ActionId) : StateDecl := { s with onEntry := s.onEntry ++ [a] }

def withExit (s : StateDecl) (a : ActionId) : StateDecl := { s with onExit := s.onExit ++ [a] }

def withChild (s child : StateDecl) : StateDecl := { s with children := s.children ++ [child] }

def withTransition (s : StateDecl) (t : TransitionDecl) : StateDecl :=
  { s with transitions := s.transitions ++ [t] }

end StateDecl

/-- A chart is declared by its root, which is plain or parallel and has neither transitions nor
entry or exit actions. -/
structure ChartDecl where
  name : String
  isParallel : Bool := false
  initial : List String := []
  initialActions : List ActionId := []
  states : List StateDecl := []
  deriving Repr, Inhabited

namespace ChartDecl

def plain (name : String) : ChartDecl := { name }

def parallel (name : String) : ChartDecl := { name, isParallel := true }

def withInitial (c : ChartDecl) (target : String) : ChartDecl :=
  { c with initial := c.initial ++ [target] }

def withInitialAction (c : ChartDecl) (a : ActionId) : ChartDecl :=
  { c with initialActions := c.initialActions ++ [a] }

def withState (c : ChartDecl) (s : StateDecl) : ChartDecl := { c with states := c.states ++ [s] }

def root (c : ChartDecl) : StateDecl where
  name := c.name
  kind := if c.isParallel then .parallel else .plain
  initial := c.initial
  initialActions := c.initialActions
  children := c.states

end ChartDecl

end Statechart

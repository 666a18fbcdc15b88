import Statechart.Chart
import Statechart.Validation

/-!
Building a chart from its declaration. The declaration is flattened, all rules are checked, and the
names of targets become positions. A chart is built exactly when no rule is violated.
-/
namespace Statechart

namespace Outline

/-- Positions of names, the latest first: a name that recurs counts where it was declared last. -/
def index (o : Outline) : List (String × Nat) :=
  o.states.toList.zipIdx.foldl (fun index (s, i) => (s.name, i) :: index) []

/-- The last state declared under a name. -/
def last? (o : Outline) (name : String) : Option Nat := o.index.lookup name

section Resolution

variable (find : String → Option Nat)

/-- The position of a named target. Checking the rules has found every target already. -/
def resolve (owner target : String) : Except BuildError Nat :=
  match find target with
  | some t => .ok t
  | none => .error (.invalid [.unknownTarget owner target])

def resolveInitial (s : OutlineState) : Except BuildError DefaultEntry := do
  let targets ← s.initial.mapM (resolve find s.name)
  pure ⟨targets, s.initialActions⟩

/-- A plain state is compound if it has children. A history state that declares nothing has no
default. -/
def resolveKind (s : OutlineState) : Except BuildError Kind :=
  match s.kind with
  | .plain =>
    if s.children.isEmpty then pure .atomic else return .compound (← resolveInitial find s)
  | .parallel => pure .parallel
  | .final => pure .final
  | .history depth => do
    let entry ← resolveInitial find s
    pure (.history depth
      (if entry.targets.isEmpty && entry.actions.isEmpty then none else some entry))

def resolveState (id : Nat) (s : OutlineState) : Except BuildError Node := do
  let kind ← resolveKind find s
  pure {
    id, kind
    name := s.name
    parent := s.parent
    children := s.children
    depth := s.depth
    onEntry := s.onEntry
    onExit := s.onExit
    transitions := s.transitions }

def resolveTransition (o : Outline) (rank : Nat) (t : OutlineTransition) :
    Except BuildError Transition := do
  let targets ← t.decl.targets.mapM (resolve find (o.state t.source).name)
  pure {
    rank, targets
    source := t.source
    triggers := t.decl.triggers.map (fun g => ⟨g.event.map Descriptor.ofPattern, g.guard⟩)
    actions := t.decl.actions
    kind := t.decl.kind }

/-- The chart of an outline, its names resolved. -/
def toChartBy (o : Outline) : Except BuildError Chart := do
  let states ← o.states.toList.zipIdx.mapM (fun (s, i) => resolveState find i s)
  let transitions ← o.transitions.zipIdx.mapM (fun (t, i) => resolveTransition find o i t)
  pure ⟨states.toArray, transitions.toArray⟩

end Resolution

def toChart (o : Outline) : Except BuildError Chart := toChartBy o.last? o

end Outline

def ChartDecl.build (c : ChartDecl) : Except BuildError Chart :=
  let o := Outline.flatten c.root
  match o.violations with
  | [] => o.toChart
  | vs => .error (.invalid vs)

end Statechart

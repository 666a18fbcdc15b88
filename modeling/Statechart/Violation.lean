import Statechart.Declaration

/-!
What can be wrong with a declared chart, and how it is reported. A chart that does not build is
refused with all of its violations at once.
-/
namespace Statechart

inductive Violation where
  | emptyChart (chart : String)
  | duplicateState (name : String)
  | unknownTarget (state target : String)
  | rootTarget (state : String)
  | unknownInitial (state target : String)
  | initialOutsideRegion (state target : String)
  | initialNotAllowed (state : String)
  | childrenNotAllowed (state : String) (kind : DeclaredKind)
  | transitionsNotAllowed (state : String) (kind : DeclaredKind)
  | emptyParallel (state : String)
  | noRegularChildren (state : String)
  | mixedTriggers (state : String)
  | emptyEventDescriptor (state : String)
  | conflictingTargets (state : String)
  deriving DecidableEq, Repr

def DeclaredKind.label : DeclaredKind → String
  | plain => "Atomic"
  | parallel => "Parallel"
  | final => "Final"
  | history _ => "History"

def Violation.message : Violation → String
  | emptyChart chart => s!"Chart '{chart}' declares no states"
  | duplicateState name => s!"State id '{name}' is declared more than once"
  | unknownTarget state target => s!"Transition from '{state}' targets unknown state '{target}'"
  | rootTarget state => s!"Transition from '{state}' targets the chart root"
  | unknownInitial state target => s!"Initial target '{target}' of '{state}' does not exist"
  | initialOutsideRegion state target =>
    s!"Initial target '{target}' of '{state}' is not inside its region"
  | initialNotAllowed state =>
    s!"State '{state}' declares an initial transition but is not compound"
  | childrenNotAllowed state kind => s!"{kind.label} state '{state}' cannot have children"
  | transitionsNotAllowed state kind =>
    s!"{kind.label} state '{state}' cannot have outgoing transitions"
  | emptyParallel state => s!"Parallel state '{state}' has no regions"
  | noRegularChildren state => s!"Compound state '{state}' has only history children"
  | mixedTriggers state => s!"Transition from '{state}' mixes eventless and event triggers"
  | emptyEventDescriptor state => s!"Transition from '{state}' has an empty event descriptor"
  | conflictingTargets state => s!"Targets of '{state}' are not in distinct parallel regions"

inductive BuildError where
  | invalid (violations : List Violation)
  deriving DecidableEq, Repr

def BuildError.violations : BuildError → List Violation
  | invalid vs => vs

def BuildError.message : BuildError → String
  | invalid vs =>
    s!"Chart model is invalid ({vs.length} violation(s)): " ++
      "; ".intercalate (vs.map Violation.message)

end Statechart

import Statechart.Outline
import Statechart.Text.Blank
import Statechart.Violation

/-!
The rules that a declared chart must keep. Every rule is checked for every state and transition, in
document order, and the violations found are the whole answer: a chart without any can be built.
-/
namespace Statechart

namespace Validation

/-- A rule that is kept reports nothing. -/
def require (ok : Bool) (v : Violation) : List Violation := if ok then [] else [v]

/-- Names that occur again after their first occurrence, each once, in the order in which they
recur. -/
def recurring : List String → List String → List String → List String
  | _, _, [] => []
  | seen, reported, name :: names =>
    if seen.contains name then
      if reported.contains name then recurring seen reported names
      else name :: recurring seen (name :: reported) names
    else recurring (name :: seen) reported names

def uniqueNames (o : Outline) : List Violation :=
  (recurring [] [] (o.states.toList.map (·.name))).map .duplicateState

/-- Which children, transitions and initial declarations a state of its kind may have. -/
def structureOf (o : Outline) (s : OutlineState) : List Violation :=
  let regular := s.children.any (fun c => !o.isHistory c)
  require (!s.isLeafOnly || s.children.isEmpty) (.childrenNotAllowed s.name s.kind) ++
  require (!s.isLeafOnly || s.transitions.isEmpty) (.transitionsNotAllowed s.name s.kind) ++
  require (s.kind != .parallel || regular) (.emptyParallel s.name) ++
  require (!s.isCompound || regular) (.noRegularChildren s.name) ++
  require ((s.initial.isEmpty && s.initialActions.isEmpty) || s.isCompound ||
    (match s.kind with | .history _ => true | _ => false)) (.initialNotAllowed s.name)

/-- Two states can be active together without one being below the other exactly when they meet in a
parallel state. -/
def compatible (o : Outline) (a b : Nat) : Bool :=
  a != b && !o.isDescendant a b && !o.isDescendant b a &&
    match o.lowestCommonAncestor? a b with
    | some c => (o.state c).kind == .parallel
    | none => false

def distinctRegions (o : Outline) : List Nat → Bool
  | [] => true
  | t :: ts => ts.all (compatible o t) && distinctRegions o ts

/-- The state inside which initial targets must lie: for a history state, its parent. -/
def regionOf (i : Nat) (s : OutlineState) : Option Nat :=
  match s.kind with
  | .history _ => s.parent
  | _ => some i

def initialTarget (o : Outline) (s : OutlineState) (region : Option Nat) (target : String) :
    List Violation :=
  match o.find? target with
  | none => [.unknownInitial s.name target]
  | some t =>
    let inside := match region with
      | some r => o.isDescendant t r
      | none => false
    require inside (.initialOutsideRegion s.name target)

def initialTargets (o : Outline) (i : Nat) (s : OutlineState) : List Violation :=
  s.initial.flatMap (initialTarget o s (regionOf i s)) ++
    require (distinctRegions o (s.initial.filterMap o.find?)) (.conflictingTargets s.name)

def transitionTarget (o : Outline) (source target : String) : List Violation :=
  match o.find? target with
  | none => [.unknownTarget source target]
  | some 0 => [.rootTarget source]
  | some _ => []

def transition (o : Outline) (t : OutlineTransition) : List Violation :=
  let source := (o.state t.source).name
  let triggers := t.decl.triggers
  require (triggers.all (·.event.isNone) || triggers.all (·.event.isSome))
    (.mixedTriggers source) ++
  require (triggers.all (fun g => match g.event with
    | some e => !Text.isBlankText e
    | none => true)) (.emptyEventDescriptor source) ++
  t.decl.targets.flatMap (transitionTarget o source) ++
  require (distinctRegions o ((t.decl.targets.filterMap o.find?).filter (· != 0)))
    (.conflictingTargets source)

end Validation

open Validation in
/-- All violations: an empty chart, repeated names, the structure of every state, the initial
targets of every state, and every transition. -/
def Outline.violations (o : Outline) : List Violation :=
  require (!(o.state 0).children.isEmpty) (.emptyChart (o.state 0).name) ++
  uniqueNames o ++
  o.states.toList.flatMap (structureOf o) ++
  o.states.toList.zipIdx.flatMap (fun (s, i) => initialTargets o i s) ++
  o.transitions.flatMap (Validation.transition o)

end Statechart

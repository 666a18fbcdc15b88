import Statechart.EntryPlan
import Statechart.Session

/-!
Microsteps. Exits come first, from the last state in document order to the first, then the actions
of the transitions, then the entries in document order. Actions run in between: those of a state run
while it still is active, or as soon as it has become active. What is entered, what is announced
complete and which history default actions run is looked up where the microstep comes to it, in the
configuration and memory of that moment. A fault of an action is kept for later, and nothing stops.
-/
namespace Statechart

namespace Chart

/-- The states that a history state would restore if its parent were exited now. -/
def toRecord (c : Chart) (x : Configuration) (parent : Nat) : HistoryDepth → List Nat
  | .deep => x.toList.filter (fun s => (c.node s).isAtomic && c.isDescendant s parent)
  | .shallow => x.toList.filter (fun s => c.parent s == some parent)

def recordChild (c : Chart) (x : Configuration) (parent : Nat) (m : Memory) (h : Nat) : Memory :=
  match (c.node h).kind with
  | .history depth _ => m.record h (c.toRecord x parent depth)
  | _ => m

/-- Records the history of every state about to be exited. -/
def recordHistory (c : Chart) (x : Configuration) (m : Memory) (exits : StateSet) : Memory :=
  exits.toList.foldl (fun m s => (c.historyChildren s).foldl (c.recordChild x s) m) m

/-- The active states that the transitions exit. -/
def exits? (c : Chart) (x : Configuration) (m : Memory) (ts : List Transition) : Option StateSet :=
  (ts.mapM (c.exitSet? x m)).map (fun es => es.foldl StateSet.union StateSet.empty)

end Chart

namespace EntryPlan

/-- Adds the targets of a transition, and their ancestors inside its domain. -/
def addTransition? (c : Chart) (x : Configuration) (m : Memory) (p : EntryPlan) (t : Transition) :
    Option EntryPlan := do
  let p ← addAll (fun s p => p.add? c m s) t.targets p
  let targets ← c.effectiveTargets? m t
  match c.domainOf t targets with
  | none => some p
  | some domain =>
    let p ← addAllAncestors c (fun s p => p.add? c m s) domain targets p
    if domain = Chart.root then p.completeRoot? c x m else some p

def ofTransitions? (c : Chart) (x : Configuration) (m : Memory) (ts : List Transition) :
    Option EntryPlan :=
  ts.foldlM (addTransition? c x m) {}

/-- The plan of the first entry: each target of the root with its ancestors, in turn. -/
def initial? (c : Chart) (m : Memory := Memory.empty) : Option EntryPlan :=
  (c.defaultEntry Chart.root).foldlM (fun p t => do
    let p ← p.add? c m t
    addAncestors c (fun s p => p.add? c m s) (c.ancestorsBelow t Chart.root) p) {}

end EntryPlan

/-- A microstep under way. -/
structure Microstep (σ : Type) where
  session : Session σ
  /-- Faults of the actions that have run. -/
  faults : List Fault := []
  exited : List Nat := []
  entered : List Nat := []
  /-- Whether the chart has come to its end. -/
  finished : Bool := false

/-- History default actions that have not run yet, under the parent of the history state. -/
abbrev Waiting := OrderedMap Nat (List ActionId)

namespace Engine

variable {σ : Type}

def act (e : Engine σ) (event : Option Event) (s : Session σ) (call : Call) :
    Session σ × Option Fault :=
  let r := e.host.action call.action (e.context s event) s.host
  let queues := r.sent.foldl Queues.send (r.raised.foldl Queues.raise s.queues)
  let s := { s with host := r.state, queues }.record (.acted call event s.configuration r.fault)
  (s, r.fault.map (.action call.action (e.chart.nameOf call.state) call.phase))

def runAction (e : Engine σ) (event : Option Event) (phase : Phase) (state : Nat)
    (w : Microstep σ) (action : ActionId) : Microstep σ :=
  let (s, fault) := e.act event w.session ⟨action, phase, state⟩
  { w with session := s, faults := w.faults ++ fault.toList }

def runActions (e : Engine σ) (event : Option Event) (phase : Phase) (state : Nat)
    (w : Microstep σ) (actions : List ActionId) : Microstep σ :=
  actions.foldl (e.runAction event phase state) w

/-! ### Exits -/

def exit (e : Engine σ) (event : Option Event) (w : Microstep σ) (s : Nat) : Microstep σ :=
  let w := e.runActions event .exit s w (e.chart.node s).onExit
  { w with session := w.session.leave s, exited := w.exited ++ [s] }

/-- Exits states, the last one first. -/
def exitStates (e : Engine σ) (event : Option Event) (w : Microstep σ) (states : StateSet) :
    Microstep σ :=
  states.toList.reverse.foldl (e.exit event) w

/-! ### Entries -/

/-- Runs the waiting history default actions of a state. -/
def release (e : Engine σ) (event : Option Event) (s : Nat) (w : Microstep σ) (waiting : Waiting) :
    Microstep σ × Waiting :=
  match waiting.get? s with
  | some actions => (e.runActions event .historyDefault s w actions, waiting.erase s)
  | none => (w, waiting)

/-- Runs the history default actions that wait for the parent of a state. -/
def releaseAbove (e : Engine σ) (event : Option Event) (s : Nat) (w : Microstep σ)
    (waiting : Waiting) : Microstep σ × Waiting :=
  match e.chart.parent s with
  | some p => e.release event p w waiting
  | none => (w, waiting)

/-- Runs the initial actions of a compound state that is entered by default. -/
def runInitial (e : Engine σ) (event : Option Event) (byDefault : StateSet) (s : Nat)
    (w : Microstep σ) : Microstep σ :=
  match (e.chart.node s).kind with
  | .compound initial =>
    if byDefault.contains s then e.runActions event .initial s w initial.actions else w
  | _ => w

/-- Raises the done event of a state. -/
def announce (e : Engine σ) (w : Microstep σ) (s : Nat) : Microstep σ :=
  { w with session := { w.session with
      queues := w.session.queues.push (Event.done (e.chart.nameOf s)) } }

/-- A final child of the root ends a chart whose root is not parallel. Any other final state
announces its parent, and its grandparent if that is parallel and all of its regions are in a final
state now. The root is never announced. -/
def complete (e : Engine σ) (w : Microstep σ) (s : Nat) : Microstep σ :=
  match e.chart.parent s with
  | none => w
  | some p =>
    if p = Chart.root then
      if (e.chart.node Chart.root).isParallel then w else { w with finished := true }
    else
      let w := e.announce w p
      match e.chart.parent p with
      | none => w
      | some g =>
        if g != Chart.root && (e.chart.node g).isParallel &&
          w.session.configuration.isFinal e.chart g then e.announce w g else w

/-- Enters a state, unless it is active already. History default actions of a parent that stayed
active run before its first child is entered. -/
def enter (e : Engine σ) (event : Option Event) (byDefault : StateSet) :
    Microstep σ × Waiting → Nat → Microstep σ × Waiting
  | (w, waiting), s =>
    if w.session.configuration.contains s then (w, waiting)
    else
      let w := { w with session := w.session.occupy s, entered := w.entered ++ [s] }
      let (w, waiting) := e.releaseAbove event s w waiting
      let w := e.runActions event .entry s w (e.chart.node s).onEntry
      let w := e.runInitial event byDefault s w
      let (w, waiting) := e.release event s w waiting
      (if (e.chart.node s).isFinal then e.complete w s else w, waiting)

/-- Enters the states of a plan. A chart with a parallel root ends when all of its regions are in a
final state. -/
def enterPlan (e : Engine σ) (event : Option Event) (w : Microstep σ) (p : EntryPlan) :
    Microstep σ :=
  let (w, _) := p.states.toList.foldl (e.enter event p.byDefault) (w, p.historyActions)
  if (e.chart.node Chart.root).isParallel &&
      w.session.configuration.isFinal e.chart Chart.root then { w with finished := true } else w

/-! ### Microsteps -/

/-- Takes transitions. Targets are entered by the memory as it is after the exits are recorded. -/
def take? (e : Engine σ) (event : Option Event) (ts : List Transition) (s : Session σ) :
    Option (Microstep σ) := do
  let exits ← e.chart.exits? s.configuration s.memory ts
  let memory := e.chart.recordHistory s.configuration s.memory exits
  let w := e.exitStates event { session := { s with memory } } exits
  let w := ts.foldl (fun w t => e.runActions event .transition t.source w t.actions) w
  let plan ← EntryPlan.ofTransitions? e.chart w.session.configuration w.session.memory ts
  some (e.enterPlan event w plan)

/-- Runs the initial actions of the root. -/
def runRootInitial (e : Engine σ) (event : Option Event) (w : Microstep σ) : Microstep σ :=
  match (e.chart.node Chart.root).kind with
  | .compound initial => e.runActions event .initial Chart.root w initial.actions
  | _ => w

/-- The first entry into a chart. -/
def enterInitial? (e : Engine σ) (event : Option Event) (s : Session σ) :
    Option (Microstep σ) := do
  let w := e.runRootInitial event { session := s }
  let plan ← EntryPlan.initial? e.chart w.session.memory
  some (e.enterPlan event w plan)

/-- Exits everything, and leaves the memory as it is. -/
def exitAll (e : Engine σ) (event : Option Event) (s : Session σ) : Microstep σ :=
  e.exitStates event { session := s } s.configuration

end Engine

end Statechart

import Statechart.Engine

/-!
Scripts of microsteps. What a microstep exits, runs and enters depends on the chart, the active
states, the history memory and the transitions taken, but on nothing that an action does. So the
whole microstep can be written down as a list of commands before any action runs, and performing the
commands is making the microstep.
-/
namespace Statechart

inductive Command where
  | call (call : Call)
  /-- The state stops being active. -/
  | leave (state : Nat)
  /-- The state becomes active. -/
  | occupy (state : Nat)
  /-- The state is announced complete. -/
  | announce (state : Nat)
  deriving DecidableEq, Repr

structure Script where
  commands : List Command := []
  exited : List Nat := []
  entered : List Nat := []
  /-- Whether the chart has come to its end. -/
  finished : Bool := false
  memory : Memory
  deriving DecidableEq

def calls (phase : Phase) (state : Nat) (actions : List ActionId) : List Command :=
  actions.map (fun a => .call ⟨a, phase, state⟩)

namespace Command

def apply (x : Configuration) : Command → Configuration
  | call _ => x
  | leave s => x.erase s
  | occupy s => x.insert s
  | announce _ => x

def applyAll (x : Configuration) (cs : List Command) : Configuration := cs.foldl apply x

end Command

namespace Chart

def exitCommands (c : Chart) (s : Nat) : List Command :=
  calls .exit s (c.node s).onExit ++ [.leave s]

def rootCommands (c : Chart) : List Command :=
  match (c.node root).kind with
  | .compound initial => calls .initial root initial.actions
  | _ => []

/-- Completion of a final state's parent, and of its grandparent if that is parallel and all of its
regions are in a final state now. The root is never announced. -/
def announcements (c : Chart) (x : Configuration) (parent : Nat) : List Command :=
  .announce parent ::
    match c.parent parent with
    | some g =>
      if g != root && (c.node g).isParallel && x.isFinal c g then [.announce g] else []
    | none => []

end Chart

/-- The entries made so far. -/
structure Arrival where
  configuration : Configuration
  /-- History default actions that have not run yet. -/
  waiting : OrderedMap Nat (List ActionId)
  commands : List Command := []
  entered : List Nat := []
  finished : Bool := false

namespace Arrival

/-- Runs the waiting history default actions of a state. -/
def release (a : Arrival) (s : Nat) : List Command :=
  calls .historyDefault s ((a.waiting.get? s).getD [])

def initialCommands (c : Chart) (byDefault : StateSet) (s : Nat) : List Command :=
  match (c.node s).kind with
  | .compound initial => if byDefault.contains s then calls .initial s initial.actions else []
  | _ => []

/-- A final child of the root ends a chart whose root is not parallel; any other final state
announces. -/
def completion (c : Chart) (x : Configuration) (s : Nat) : List Command × Bool :=
  if (c.node s).isFinal then
    match c.parent s with
    | none => ([], false)
    | some p =>
      if p = Chart.root then ([], !(c.node Chart.root).isParallel) else (c.announcements x p, false)
  else ([], false)

/-- Enters a state, unless it is active already. -/
def enter (c : Chart) (byDefault : StateSet) (a : Arrival) (s : Nat) : Arrival :=
  if a.configuration.contains s then a
  else
    let x := a.configuration.insert s
    let (above, waiting) := match c.parent s with
      | some p => (a.release p, a.waiting.erase p)
      | none => ([], a.waiting)
    let own := { a with waiting }.release s
    let (completed, finished) := completion c x s
    { configuration := x
      waiting := waiting.erase s
      commands := a.commands ++ (.occupy s :: (above ++ calls .entry s (c.node s).onEntry ++
        initialCommands c byDefault s ++ own ++ completed))
      entered := a.entered ++ [s]
      finished := a.finished || finished }

end Arrival

namespace EntryPlan

/-- Enters the states of a plan. A chart with a parallel root ends when all of its regions are in a
final state. -/
def arrive (p : EntryPlan) (c : Chart) (x : Configuration) : Arrival :=
  let a := p.states.toList.foldl (Arrival.enter c p.byDefault)
    { configuration := x, waiting := p.historyActions }
  { a with finished := a.finished ||
      ((c.node Chart.root).isParallel && a.configuration.isFinal c Chart.root) }

end EntryPlan

namespace Script

/-- The microstep that takes the given transitions. Targets are entered by the memory as it is
after the exits are recorded. -/
def take? (c : Chart) (x : Configuration) (m : Memory) (ts : List Transition) : Option Script := do
  let exits ← c.exits? x m ts
  let memory := c.recordHistory x m exits
  let exited := exits.toList.reverse
  let outside := exited.foldl StateSet.erase x
  let plan ← EntryPlan.ofTransitions? c outside memory ts
  let arrival := plan.arrive c outside
  some {
    memory, exited
    commands := exited.flatMap c.exitCommands ++
      ts.flatMap (fun t => calls .transition t.source t.actions) ++ arrival.commands
    entered := arrival.entered
    finished := arrival.finished }

/-- The first entry into a chart. -/
def start? (c : Chart) : Option Script := do
  let plan ← EntryPlan.initial? c
  let arrival := plan.arrive c StateSet.empty
  some {
    memory := Memory.empty
    commands := c.rootCommands ++ arrival.commands
    entered := arrival.entered
    finished := arrival.finished }

/-- Exits everything, and leaves the memory as it is. -/
def stop (c : Chart) (x : Configuration) (m : Memory) : Script where
  commands := x.toList.reverse.flatMap c.exitCommands
  exited := x.toList.reverse
  memory := m

end Script

namespace Engine

variable {σ : Type}

def perform (e : Engine σ) (event : Option Event) (w : Session σ × List Fault) :
    Command → Session σ × List Fault
  | .call call =>
    let (s, fault) := e.act event w.1 call
    (s, w.2 ++ fault.toList)
  | .announce state =>
    ({ w.1 with queues := w.1.queues.push (Event.done (e.chart.nameOf state)) }, w.2)
  | command => ({ w.1 with configuration := command.apply w.1.configuration }, w.2)

/-- The microstep that a script comes to. -/
def play (e : Engine σ) (event : Option Event) (s : Session σ) (script : Script) : Microstep σ :=
  let (session, faults) :=
    script.commands.foldl (e.perform event) ({ s with memory := script.memory }, [])
  { session, faults
    exited := script.exited
    entered := script.entered
    finished := script.finished }

/-- Performs a script and reports on it. -/
def follow (e : Engine σ) (s : Session σ) (script : Script) (event : Option Event) : Session σ :=
  let (s, faults) := script.commands.foldl (e.perform event) ({ s with memory := script.memory }, [])
  let s := e.noticeChange (e.reportAll true s faults) script.exited script.entered event
  if script.finished then finish s else s

end Engine

end Statechart

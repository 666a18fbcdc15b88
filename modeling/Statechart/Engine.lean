import Statechart.Microstep
import Statechart.Selection

/-!
The interpreter. A session is driven by calls; each runs to completion: microstep follows
microstep until no transition is enabled and no event waits. Eventless transitions go before
internal events, and these before external ones. Everything that happens, guards judged and actions
run included, is written to a trace in its order. A call whose macrosteps have no end has no
answer, so calls take a bound on the number of turns and answer `none` when it is used up.
-/
namespace Statechart

/-- The answer to a call, and the session after it. -/
structure Answer (σ : Type) where
  verdict : Except EngineError Unit
  session : Session σ

/-- A session on its way to a stable configuration. -/
structure Macrostep (σ : Type) where
  session : Session σ
  microsteps : Nat := 0
  /-- Whether anything has happened since the last stable configuration. -/
  progressed : Bool

inductive Turn (σ : Type) where
  | next (m : Macrostep σ)
  | done (a : Answer σ)

namespace Engine

variable {σ : Type}

def report (e : Engine σ) (raise : Bool) (s : Session σ) (f : Fault) : Session σ :=
  let s := if raise && e.settings.raiseErrorEvents then
      { s with queues := s.queues.push (Event.error f.message) }
    else s
  s.notice (.faulted f)

/-- Reports faults in order; each may raise an error event first. -/
def reportAll (e : Engine σ) (raise : Bool) (s : Session σ) (fs : List Fault) : Session σ :=
  fs.foldl (e.report raise) s

/-- A guard that is absent holds, one that faults does not. -/
def judge (e : Engine σ) (event : Option Event) (source : Nat) (w : Session σ × List Fault) :
    Option GuardId → Bool × Session σ × List Fault
  | none => (true, w)
  | some g =>
    let (s, faults) := w
    let (verdict, host) := e.host.guard g (e.context s event) s.host
    let s := { s with host }.record (.judged g event verdict)
    match verdict with
    | .ok holds => (holds, s, faults)
    | .error f => (false, s, faults ++ [.guard g (e.chart.nameOf source) f])

/-- The first trigger that accepts the event and whose guard holds enables; later guards are not
judged. -/
def judgeTriggers (e : Engine σ) (event : Option Event) (source : Nat) :
    List Trigger → Session σ × List Fault → Bool × Session σ × List Fault
  | [], w => (false, w)
  | t :: ts, w =>
    let accepted := match event with
      | none => true
      | some ev => t.accepts ev.name
    if accepted then
      match e.judge event source w t.guard with
      | (true, w) => (true, w)
      | (false, w) => judgeTriggers e event source ts w
    else judgeTriggers e event source ts w

/-- Without an event only eventless transitions are enabled. -/
def judgeTransition (e : Engine σ) (event : Option Event) (t : Transition)
    (w : Session σ × List Fault) : Bool × Session σ × List Fault :=
  if event.isNone && !t.isEventless then (false, w)
  else if event.isNone && t.triggers.isEmpty then (true, w)
  else e.judgeTriggers event t.source t.triggers w

def firstEnabled (e : Engine σ) (event : Option Event) :
    List Nat → Session σ × List Fault → Option Nat × Session σ × List Fault
  | [], w => (none, w)
  | r :: rs, w =>
    match e.judgeTransition event (e.chart.transition r) w with
    | (true, w) => (some r, w)
    | (false, w) => firstEnabled e event rs w

/-- The first enabled transition of each of the states given. -/
def enabled (e : Engine σ) (event : Option Event) :
    List Nat → Session σ × List Fault → List Nat × Session σ × List Fault
  | [], w => ([], w)
  | s :: ss, w =>
    let (first, w) := e.firstEnabled event (e.chart.node s).transitions w
    let (rest, w) := enabled e event ss w
    (first.toList ++ rest, w)

/-- The transitions to take on an event, or without one. Faults of guards raise error events only
when an event is processed. -/
def select? (e : Engine σ) (s : Session σ) (event : Option Event) :
    Option (List Nat × Session σ) :=
  let (ranks, s, faults) := e.enabled event s.configuration.toList (s, [])
  (e.chart.choose? s.configuration s.memory ranks).map
    (fun chosen => (chosen, e.reportAll event.isSome s faults))

def noticeChange (e : Engine σ) (s : Session σ) (exited entered : List Nat)
    (event : Option Event) : Session σ :=
  if exited.isEmpty && entered.isEmpty then s
  else s.notice (.changed
    ⟨e.chart.namesOf exited, e.chart.namesOf entered, event.map (·.name)⟩)

def finish (s : Session σ) : Session σ :=
  { s with status := .final, queues := {} }.notice .finished

/-- Reports on a microstep. -/
def settle (e : Engine σ) (event : Option Event) (w : Microstep σ) : Session σ :=
  let s := e.noticeChange (e.reportAll true w.session w.faults) w.exited w.entered event
  if w.finished then finish s else s

def microstep? (e : Engine σ) (s : Session σ) (ranks : List Nat) (event : Option Event) :
    Option (Session σ) :=
  (e.take? event (ranks.map e.chart.transition) s).map (e.settle event)

/-- A macrostep that exceeds the limit gives up its internal events. -/
def giveUp (s : Session σ) (limit : Nat) : Answer σ where
  verdict := .error (.nonTerminating limit)
  session :=
    let s := s.notice (.faulted (.nonTerminating limit))
    { s with status := .awaitingExternal, queues := s.queues.clearInternal }

def step? (e : Engine σ) (m : Macrostep σ) (ranks : List Nat) (event : Option Event) :
    Option (Turn σ) :=
  let microsteps := m.microsteps + 1
  match e.settings.exceeded? microsteps with
  | some limit => some (.done (giveUp m.session limit))
  | none =>
    (e.microstep? m.session ranks event).map (fun session => .next ⟨session, microsteps, true⟩)

def drop (e : Engine σ) (s : Session σ) (event : Event) : Session σ :=
  if e.settings.reportDroppedEvents then s.notice (.dropped event) else s

/-- An event that enables nothing is dropped. -/
def consume? (e : Engine σ) (m : Macrostep σ) (event : Event) : Option (Turn σ) :=
  let m := { m with session := m.session.record (.taken event), progressed := true }
  match e.select? m.session (some event) with
  | none => none
  | some ([], s) => some (.next { m with session := e.drop s event })
  | some (ranks, s) => e.step? { m with session := s } ranks (some event)

/-- With nothing enabled and no internal event the configuration is stable, and the next external
event begins a macrostep. -/
def stabilize? (e : Engine σ) (m : Macrostep σ) : Option (Turn σ) :=
  let s := { m.session with status := .awaitingExternal }
  let s := if m.progressed then s.notice .stable else s
  let queues := s.queues.drain
  match queues.popExternal? with
  | none => some (.done ⟨.ok (), { s with queues }⟩)
  | some (event, queues) =>
    e.consume? { session := { s with queues, status := .stabilizing }, progressed := true } event

def turn? (e : Engine σ) (m : Macrostep σ) : Option (Turn σ) :=
  if m.session.status = .final then some (.done ⟨.ok (), m.session⟩)
  else
    match e.select? m.session none with
    | none => none
    | some ([], s) =>
      match s.queues.popInternal? with
      | some (event, queues) => e.consume? { m with session := { s with queues } } event
      | none => e.stabilize? { m with session := s }
    | some (ranks, s) => e.step? { m with session := s } ranks none

def turns? (e : Engine σ) : Nat → Macrostep σ → Option (Answer σ)
  | 0, _ => none
  | n + 1, m =>
    match e.turn? m with
    | none => none
    | some (.done a) => some a
    | some (.next m) => turns? e n m

/-- Runs macrosteps until nothing is left to do. -/
def run? (e : Engine σ) (bound : Nat) (s : Session σ) (progressed : Bool) : Option (Answer σ) :=
  if s.isRunning then
    e.turns? bound
      { session := { s with status := .stabilizing, queues := s.queues.drain }, progressed }
  else some ⟨.ok (), s⟩

def start? (e : Engine σ) (bound : Nat) (s : Session σ) : Option (Answer σ) :=
  if s.status = .idle then
    match e.enterInitial? none s.blank with
    | none => none
    | some w => e.run? bound (e.settle none w) true
  else some ⟨.error .alreadyRunning, s⟩

/-- Exits everything and discards the waiting events. -/
def stop (e : Engine σ) (s : Session σ) : Answer σ :=
  if s.status = .idle then ⟨.error .notRunning, s⟩
  else
    let w := e.exitAll none s
    let s := e.noticeChange (e.reportAll false w.session w.faults) w.exited w.entered none
    ⟨.ok (), { s with status := .idle, queues := {} }⟩

/-- A finished chart takes no more events; an idle one keeps them for later. -/
def submit? (e : Engine σ) (bound : Nat) (s : Session σ) (event : Event) : Option (Answer σ) :=
  if s.status = .final then some ⟨.ok (), s⟩
  else e.run? bound { s with queues := s.queues.push event } false

def process? (e : Engine σ) (bound : Nat) (s : Session σ) : Option (Answer σ) :=
  e.run? bound s false

/-- Names of all states but the root, in document order. -/
def stateNames (e : Engine σ) : List String := (e.chart.states.toList.drop 1).map (·.name)

/-- Watching needs a state of the chart. -/
def watch {α : Type} (e : Engine σ) (os : Observers α) (state : String) (report : Bool → α) :
    Except EngineError (Nat × Observers α) :=
  match e.chart.find? state with
  | some _ => .ok (os.subscribe (Observer.onStateActive state report))
  | none => .error (.unknownState state)

end Engine

end Statechart

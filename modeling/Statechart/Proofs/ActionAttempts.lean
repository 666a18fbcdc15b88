import Statechart.Proofs.ActionOrder
import Statechart.Proofs.PlanTermination

/-!
What actions cannot influence. An action may change its host, queue events and fault, but nothing
that a microstep decides between two actions is decided on these. So two hosts that have nothing in
common, set to the same work, are asked for the same actions in the same configurations, and leave
the same states active; the faults of each are kept, one for each attempt that failed, and nothing
is cut short by them. Two microsteps that have come equally far stay abreast at each action, and so
through each part of the microstep.
-/
namespace Statechart

open Relation (TransGen)

/-- An action that a host has been asked for, and what has come of it. -/
structure Attempt where
  call : Call
  event : Option Event
  configuration : Configuration
  fault : Option ActionFault

namespace Attempt

/-- What the host has been asked, and where. -/
def deed (a : Attempt) : Call × Configuration := (a.call, a.configuration)

/-- The fault that is reported of an attempt that has failed. -/
def report? (c : Chart) (a : Attempt) : Option Fault :=
  a.fault.map (.action a.call.action (c.nameOf a.call.state) a.call.phase)

end Attempt

namespace Occurrence

def attempt? : Occurrence → Option Attempt
  | .acted call event x fault => some ⟨call, event, x, fault⟩
  | _ => none

end Occurrence

def Notification.fault? : Notification → Option Fault
  | .faulted f => some f
  | _ => none

variable {σ σ₁ σ₂ : Type}

namespace Session

def attempts (s : Session σ) : List Attempt := s.trace.toList.filterMap Occurrence.attempt?

/-- The faults that have been reported, in their order. -/
def reported (s : Session σ) : List Fault := s.notifications.filterMap Notification.fault?

theorem attempts_record (s : Session σ) (o : Occurrence) :
    (s.record o).attempts = s.attempts ++ o.attempt?.toList := by
  cases h : o.attempt? <;> simp [attempts, record, h]

theorem reported_record (s : Session σ) (o : Occurrence) : (s.record o).reported =
    s.reported ++ (o.notification?.bind Notification.fault?).toList := by
  cases h : o.notification? with
  | none => simp [reported, notifications, record, h]
  | some n => cases hn : n.fault? <;> simp [reported, notifications, record, h, hn]

end Session

namespace Engine

variable {e : Engine σ} {event : Option Event} {s : Session σ} {w w' : Microstep σ}
  {tries : List Attempt}

/-! ### Attempts of a host -/

/-- The event and the fault are those of the host, asked in some state of its own. -/
structure Answers (e : Engine σ) (event : Option Event) (a : Attempt) : Prop where
  asked : a.event = event
  answered : ∃ host, a.fault =
    (e.host.action a.call.action ⟨e.chart, a.configuration, event, e.id⟩ host).fault

def attempt (e : Engine σ) (event : Option Event) (s : Session σ) (call : Call) : Attempt :=
  ⟨call, event, s.configuration, (e.host.action call.action (e.context s event) s.host).fault⟩

/-- What has come of the actions of a microstep that began in the session `s`. Of the attempts that
have failed each has given one fault, in their order, and none is reported yet. -/
structure Tried (e : Engine σ) (event : Option Event) (s : Session σ) (w : Microstep σ)
    (tries : List Attempt) : Prop where
  attempts : w.session.attempts = s.attempts ++ tries
  answers : ∀ a ∈ tries, e.Answers event a
  faults : w.faults = tries.filterMap (·.report? e.chart)
  reported : w.session.reported = s.reported

theorem Tried.of_trace (h : e.Tried event s w tries) (htrace : w'.session.trace = w.session.trace)
    (hfaults : w'.faults = w.faults) : e.Tried event s w' tries where
  attempts := by rw [← h.attempts, Session.attempts, Session.attempts, htrace]
  answers := h.answers
  faults := hfaults.trans h.faults
  reported := by
    rw [← h.reported, Session.reported, Session.reported, Session.notifications,
      Session.notifications, htrace]

theorem Tried.runAction (h : e.Tried event s w tries) (phase : Phase) (state : Nat)
    (action : ActionId) : e.Tried event s (e.runAction event phase state w action)
      (tries ++ [e.attempt event w.session ⟨action, phase, state⟩]) where
  attempts := by
    rw [← List.append_assoc, ← h.attempts]
    exact Session.attempts_record _ _
  answers a ha := by
    rcases List.mem_append.mp ha with ha | ha
    · exact h.answers a ha
    · obtain rfl := List.mem_singleton.mp ha
      exact ⟨rfl, w.session.host, rfl⟩
  faults := by
    have hfaults : (e.runAction event phase state w action).faults = w.faults ++
        ((e.attempt event w.session ⟨action, phase, state⟩).report? e.chart).toList := rfl
    rw [List.filterMap_append, ← h.faults, hfaults]
    cases hreport : (e.attempt event w.session ⟨action, phase, state⟩).report? e.chart <;>
      simp [hreport]
  reported := by
    rw [← h.reported]
    exact (Session.reported_record _ _).trans (List.append_nil _)

theorem attempts_reportAll (e : Engine σ) (raise : Bool) (s : Session σ) (fs : List Fault) :
    (e.reportAll raise s fs).attempts = s.attempts ∧
      (e.reportAll raise s fs).reported = s.reported ++ fs := by
  induction fs generalizing s with
  | nil => exact ⟨rfl, (List.append_nil _).symm⟩
  | cons f fs ih =>
    have hone : (e.report raise s f).attempts = s.attempts ∧
        (e.report raise s f).reported = s.reported ++ [f] := by
      unfold report
      split
      all_goals exact ⟨(Session.attempts_record _ _).trans (List.append_nil _),
        Session.reported_record _ _⟩
    obtain ⟨hattempts, hreported⟩ := ih (e.report raise s f)
    refine ⟨hattempts.trans hone.1, hreported.trans ?_⟩
    rw [hone.2, List.append_assoc, List.singleton_append]

theorem attempts_noticeChange (e : Engine σ) (s : Session σ) (exited entered : List Nat)
    (event : Option Event) : (e.noticeChange s exited entered event).attempts = s.attempts ∧
      (e.noticeChange s exited entered event).reported = s.reported := by
  unfold noticeChange
  split
  · exact ⟨rfl, rfl⟩
  · exact ⟨(Session.attempts_record _ _).trans (List.append_nil _),
      (Session.reported_record _ _).trans (List.append_nil _)⟩

/-- When the microstep has been settled, each attempt that failed has been reported once. -/
theorem Tried.settle (h : e.Tried event s w tries) :
    (e.settle event w).attempts = s.attempts ++ tries ∧
      (e.settle event w).reported = s.reported ++ tries.filterMap (·.report? e.chart) := by
  obtain ⟨hreport, hreport'⟩ := e.attempts_reportAll true w.session w.faults
  obtain ⟨hnotice, hnotice'⟩ :=
    e.attempts_noticeChange (e.reportAll true w.session w.faults) w.exited w.entered event
  have hattempts := (hnotice.trans hreport).trans h.attempts
  have hreported := hnotice'.trans hreport'
  rw [h.reported] at hreported
  rw [← h.faults]
  unfold Engine.settle
  simp only
  split
  · exact ⟨((Session.attempts_record _ _).trans (List.append_nil _)).trans hattempts,
      ((Session.reported_record _ _).trans (List.append_nil _)).trans hreported⟩
  · exact ⟨hattempts, hreported⟩

end Engine

/-! ### Two hosts at the same work -/

/-- The microsteps have come to the same states, whatever their hosts are. -/
structure Microstep.Mirrors (w₁ : Microstep σ₁) (w₂ : Microstep σ₂) : Prop where
  exited : w₁.exited = w₂.exited
  entered : w₁.entered = w₂.entered
  finished : w₁.finished = w₂.finished
  configuration : w₁.session.configuration = w₂.session.configuration
  memory : w₁.session.memory = w₂.session.memory

namespace Engine

variable {e₁ : Engine σ₁} {e₂ : Engine σ₂} {event : Option Event} {s₁ s₁' : Session σ₁}
  {s₂ s₂' : Session σ₂} {w₁ w₁' : Microstep σ₁} {w₂ w₂' : Microstep σ₂}

/-- Two microsteps that began in the sessions given mirror each other, and have attempted the same
actions, on behalf of the same states and in the same configurations. -/
structure Abreast (e₁ : Engine σ₁) (e₂ : Engine σ₂) (event : Option Event) (s₁ : Session σ₁)
    (s₂ : Session σ₂) (w₁ : Microstep σ₁) (w₂ : Microstep σ₂) : Prop
    extends w₁.Mirrors w₂ where
  tried : ∃ tries₁ tries₂, e₁.Tried event s₁ w₁ tries₁ ∧ e₂.Tried event s₂ w₂ tries₂ ∧
    tries₁.map Attempt.deed = tries₂.map Attempt.deed

namespace Abreast

theorem begin (h₁ : s₁'.trace = s₁.trace) (h₂ : s₂'.trace = s₂.trace)
    (hconf : s₁'.configuration = s₂'.configuration) (hmemory : s₁'.memory = s₂'.memory) :
    Abreast e₁ e₂ event s₁ s₂ { session := s₁' } { session := s₂' } := by
  have htried {σ : Type} {e : Engine σ} {s s' : Session σ} (h : s'.trace = s.trace) :
      e.Tried event s { session := s' } [] :=
    Tried.of_trace (w := { session := s }) ⟨(List.append_nil _).symm, by simp, rfl, rfl⟩ h rfl
  exact ⟨⟨rfl, rfl, rfl, hconf, hmemory⟩, [], [], htried h₁, htried h₂, rfl⟩

variable (h : Abreast e₁ e₂ event s₁ s₂ w₁ w₂)
include h

/-- What moves both on and runs no action. -/
theorem moved (hmirrors : w₁'.Mirrors w₂') (ht₁ : w₁'.session.trace = w₁.session.trace)
    (hf₁ : w₁'.faults = w₁.faults) (ht₂ : w₂'.session.trace = w₂.session.trace)
    (hf₂ : w₂'.faults = w₂.faults) : Abreast e₁ e₂ event s₁ s₂ w₁' w₂' := by
  obtain ⟨tries₁, tries₂, htried₁, htried₂, hdeeds⟩ := h.tried
  exact ⟨hmirrors, tries₁, tries₂, htried₁.of_trace ht₁ hf₁, htried₂.of_trace ht₂ hf₂, hdeeds⟩

theorem runAction (phase : Phase) (state : Nat) (action : ActionId) :
    Abreast e₁ e₂ event s₁ s₂ (e₁.runAction event phase state w₁ action)
      (e₂.runAction event phase state w₂ action) := by
  obtain ⟨tries₁, tries₂, htried₁, htried₂, hdeeds⟩ := h.tried
  refine ⟨⟨h.exited, h.entered, h.finished, h.configuration, h.memory⟩, _, _,
    htried₁.runAction phase state action, htried₂.runAction phase state action, ?_⟩
  simp only [List.map_append, List.map_singleton, hdeeds, attempt, Attempt.deed, h.configuration]

theorem runActions (phase : Phase) (state : Nat) (actions : List ActionId) :
    Abreast e₁ e₂ event s₁ s₂ (e₁.runActions event phase state w₁ actions)
      (e₂.runActions event phase state w₂ actions) := by
  induction actions generalizing w₁ w₂ with
  | nil => exact h
  | cons action actions ih => exact ih (h.runAction phase state action)

theorem release (state : Nat) (waiting : Waiting) :
    Abreast e₁ e₂ event s₁ s₂ (e₁.release event state w₁ waiting).1
        (e₂.release event state w₂ waiting).1 ∧
      (e₁.release event state w₁ waiting).2 = (e₂.release event state w₂ waiting).2 := by
  unfold Engine.release
  cases waiting.get? state with
  | none => exact ⟨h, rfl⟩
  | some actions => exact ⟨h.runActions .historyDefault state actions, rfl⟩

theorem announce (state : Nat) :
    Abreast e₁ e₂ event s₁ s₂ (e₁.announce w₁ state) (e₂.announce w₂ state) :=
  h.moved ⟨h.exited, h.entered, h.finished, h.configuration, h.memory⟩ rfl rfl rfl rfl

theorem finish : Abreast e₁ e₂ event s₁ s₂ { w₁ with finished := true }
    { w₂ with finished := true } :=
  h.moved ⟨h.exited, h.entered, rfl, h.configuration, h.memory⟩ rfl rfl rfl rfl

section SameChart

variable (hchart : e₂.chart = e₁.chart)
include hchart

theorem exit (state : Nat) :
    Abreast e₁ e₂ event s₁ s₂ (e₁.exit event w₁ state) (e₂.exit event w₂ state) := by
  have hrun := h.runActions .exit state (e₁.chart.node state).onExit
  unfold Engine.exit
  rw [hchart]
  exact hrun.moved ⟨congrArg (· ++ [state]) hrun.exited, hrun.entered, hrun.finished,
    congrArg (·.erase state) hrun.configuration, hrun.memory⟩ rfl rfl rfl rfl

theorem exits (states : List Nat) : Abreast e₁ e₂ event s₁ s₂ (states.foldl (e₁.exit event) w₁)
    (states.foldl (e₂.exit event) w₂) := by
  induction states generalizing w₁ w₂ with
  | nil => exact h
  | cons state states ih => exact ih (h.exit hchart state)

omit hchart in
theorem transitions (ts : List Transition) : Abreast e₁ e₂ event s₁ s₂
    (ts.foldl (fun w t => e₁.runActions event .transition t.source w t.actions) w₁)
    (ts.foldl (fun w t => e₂.runActions event .transition t.source w t.actions) w₂) := by
  induction ts generalizing w₁ w₂ with
  | nil => exact h
  | cons t ts ih => exact ih (h.runActions .transition t.source t.actions)

theorem releaseAbove (state : Nat) (waiting : Waiting) :
    Abreast e₁ e₂ event s₁ s₂ (e₁.releaseAbove event state w₁ waiting).1
        (e₂.releaseAbove event state w₂ waiting).1 ∧
      (e₁.releaseAbove event state w₁ waiting).2 = (e₂.releaseAbove event state w₂ waiting).2 := by
  unfold Engine.releaseAbove
  rw [hchart]
  cases e₁.chart.parent state with
  | none => exact ⟨h, rfl⟩
  | some p => exact h.release p waiting

theorem runInitial (byDefault : StateSet) (state : Nat) : Abreast e₁ e₂ event s₁ s₂
    (e₁.runInitial event byDefault state w₁) (e₂.runInitial event byDefault state w₂) := by
  unfold Engine.runInitial
  rw [hchart]
  cases (e₁.chart.node state).kind with
  | compound initial =>
    simp only
    split
    · exact h.runActions .initial state initial.actions
    · exact h
  | atomic | parallel | final | history => exact h

/-- Which regions of a state are complete is seen in the configuration. -/
theorem complete (state : Nat) :
    Abreast e₁ e₂ event s₁ s₂ (e₁.complete w₁ state) (e₂.complete w₂ state) := by
  unfold Engine.complete
  rw [hchart]
  cases e₁.chart.parent state with
  | none => exact h
  | some p =>
    simp only
    split
    · split
      · exact h
      · exact h.finish
    · cases e₁.chart.parent p with
      | none => exact h.announce p
      | some g =>
        have hsame : (e₂.announce w₂ p).session.configuration =
            (e₁.announce w₁ p).session.configuration := h.configuration.symm
        simp only [hsame]
        split
        · exact (h.announce p).announce g
        · exact h.announce p

theorem enter (byDefault : StateSet) (waiting : Waiting) (state : Nat) :
    Abreast e₁ e₂ event s₁ s₂ (e₁.enter event byDefault (w₁, waiting) state).1
        (e₂.enter event byDefault (w₂, waiting) state).1 ∧
      (e₁.enter event byDefault (w₁, waiting) state).2 =
        (e₂.enter event byDefault (w₂, waiting) state).2 := by
  simp only [Engine.enter, h.configuration]
  split
  · exact ⟨h, rfl⟩
  · have hoccupied : Abreast e₁ e₂ event s₁ s₂
        { w₁ with session := w₁.session.occupy state, entered := w₁.entered ++ [state] }
        { w₂ with session := w₂.session.occupy state, entered := w₂.entered ++ [state] } :=
      h.moved ⟨h.exited, congrArg (· ++ [state]) h.entered, h.finished,
        congrArg (·.insert state) h.configuration, h.memory⟩ rfl rfl rfl rfl
    obtain ⟨habove, hwaiting⟩ := hoccupied.releaseAbove hchart state waiting
    have hinitial := (habove.runActions .entry state (e₁.chart.node state).onEntry).runInitial
      hchart byDefault state
    rw [hchart, ← hwaiting]
    obtain ⟨hown, hleft⟩ := hinitial.release state _
    refine ⟨?_, hleft⟩
    split
    · exact hown.complete hchart state
    · exact hown

theorem foldl_enter (byDefault : StateSet) (waiting : Waiting) (states : List Nat) :
    Abreast e₁ e₂ event s₁ s₂ (states.foldl (e₁.enter event byDefault) (w₁, waiting)).1
      (states.foldl (e₂.enter event byDefault) (w₂, waiting)).1 := by
  induction states generalizing w₁ w₂ waiting with
  | nil => exact h
  | cons state states ih =>
    obtain ⟨hone, hwaiting⟩ := h.enter hchart byDefault waiting state
    have hrest := ih hone (e₁.enter event byDefault (w₁, waiting) state).2
    rw [List.foldl_cons, List.foldl_cons]
    nth_rewrite 2 [hwaiting] at hrest
    exact hrest

theorem runRootInitial :
    Abreast e₁ e₂ event s₁ s₂ (e₁.runRootInitial event w₁) (e₂.runRootInitial event w₂) := by
  unfold Engine.runRootInitial
  rw [hchart]
  cases (e₁.chart.node Chart.root).kind with
  | compound initial => exact h.runActions .initial Chart.root initial.actions
  | atomic | parallel | final | history => exact h

theorem enterPlan (p : EntryPlan) :
    Abreast e₁ e₂ event s₁ s₂ (e₁.enterPlan event w₁ p) (e₂.enterPlan event w₂ p) := by
  have hentered := h.foldl_enter hchart p.byDefault p.historyActions p.states.toList
  unfold Engine.enterPlan
  simp only [hchart, ← hentered.configuration]
  split
  · exact hentered.finish
  · exact hentered

/-- What is to be entered is looked up in the states of the moment. -/
theorem enterPlan? (plan? : Chart → Configuration → Memory → Option EntryPlan) :
    Option.Rel (Abreast e₁ e₂ event s₁ s₂)
      ((plan? e₁.chart w₁.session.configuration w₁.session.memory).bind fun p =>
        some (e₁.enterPlan event w₁ p))
      ((plan? e₂.chart w₂.session.configuration w₂.session.memory).bind fun p =>
        some (e₂.enterPlan event w₂ p)) := by
  rw [hchart, ← h.configuration, ← h.memory]
  cases plan? e₁.chart w₁.session.configuration w₁.session.memory with
  | none => exact .none
  | some p => exact .some (h.enterPlan hchart p)

end SameChart

end Abreast

/-! ### Whole microsteps -/

/-- What is done to the active states in one piece: transitions are taken, the chart is entered for
the first time, or everything is exited. -/
inductive Task where
  | take (ranks : List Nat)
  | enter
  | exit

/-- The microstep that does a task, whatever is active and remembered before. -/
def carryOut? (e : Engine σ) (event : Option Event) (s : Session σ) : Task → Option (Microstep σ)
  | .take ranks => e.take? event (ranks.map e.chart.transition) s
  | .enter => e.enterInitial? event s
  | .exit => some (e.exitAll event s)

/-- The transitions to take are transitions of the chart. -/
def Task.Declared (c : Chart) : Task → Prop
  | .take ranks => ∀ r ∈ ranks, r < c.transitions.size
  | .enter | .exit => True

section SameStates

variable (hchart : e₂.chart = e₁.chart) (hconf : s₁.configuration = s₂.configuration)
  (hmemory : s₁.memory = s₂.memory)
include hchart hconf hmemory

theorem abreast_take? (ts : List Transition) : Option.Rel (Abreast e₁ e₂ event s₁ s₂)
    (e₁.take? event ts s₁) (e₂.take? event ts s₂) := by
  have hexits : e₂.chart.exits? s₂.configuration s₂.memory ts =
      e₁.chart.exits? s₁.configuration s₁.memory ts := by rw [hchart, hconf, hmemory]
  unfold take?
  rw [hexits]
  cases e₁.chart.exits? s₁.configuration s₁.memory ts with
  | none => exact .none
  | some exits =>
    have hrecorded : e₁.chart.recordHistory s₁.configuration s₁.memory exits =
        e₂.chart.recordHistory s₂.configuration s₂.memory exits := by rw [hchart, hconf, hmemory]
    have hbegin : Abreast e₁ e₂ event s₁ s₂
        { session := { s₁ with
          memory := e₁.chart.recordHistory s₁.configuration s₁.memory exits } }
        { session := { s₂ with
          memory := e₂.chart.recordHistory s₂.configuration s₂.memory exits } } :=
      .begin rfl rfl hconf hrecorded
    have hleft := (hbegin.exits hchart exits.toList.reverse).transitions ts
    exact hleft.enterPlan? hchart fun c x m => EntryPlan.ofTransitions? c x m ts

theorem abreast_enterInitial? : Option.Rel (Abreast e₁ e₂ event s₁ s₂)
    (e₁.enterInitial? event s₁) (e₂.enterInitial? event s₂) := by
  have hbegin : Abreast e₁ e₂ event s₁ s₂ { session := s₁ } { session := s₂ } :=
    .begin rfl rfl hconf hmemory
  exact (hbegin.runRootInitial hchart).enterPlan? hchart fun c _ m => EntryPlan.initial? c m

theorem abreast_exitAll : Abreast e₁ e₂ event s₁ s₂ (e₁.exitAll event s₁) (e₂.exitAll event s₂) := by
  have hbegin : Abreast e₁ e₂ event s₁ s₂ { session := s₁ } { session := s₂ } :=
    .begin rfl rfl hconf hmemory
  unfold exitAll
  rw [← hconf]
  exact hbegin.exits hchart s₁.configuration.toList.reverse

end SameStates

theorem exists_carryOut? {c : ChartDecl} (hb : c.build = .ok e₁.chart)
    (hno : ∀ h, ¬TransGen e₁.chart.PassesTo h h) (tidy : e₁.Tidy s₁) {task : Task}
    (declared : task.Declared e₁.chart) : ∃ w, e₁.carryOut? event s₁ task = some w := by
  have wf := ChartDecl.wellFormed_of_build hb
  have g := (Chart.grounded_iff_siblings wf).mpr hno
  cases task with
  | take ranks =>
    obtain ⟨script, hscript⟩ :=
      (Chart.plansEnd_of_grounded hb g tidy.2).step s₁.configuration tidy.1 ranks declared
    exact ⟨_, by rw [carryOut?, take?_eq, hscript, Option.map_some]⟩
  | enter =>
    obtain ⟨p, hp⟩ := EntryPlan.exists_entryOf? wf g tidy.2 (wf.defaultEntry_spec wf.root_inner).1
    have hmemory : (e₁.runRootInitial event { session := s₁ }).session.memory = s₁.memory := by
      rw [runRootInitial_eq, memory_performAll]
    rw [← EntryPlan.initial?_eq e₁.chart s₁.memory] at hp
    exact ⟨_, by rw [carryOut?, enterInitial?, hmemory, hp]; rfl⟩
  | exit => exact ⟨_, rfl⟩

/-- Actions have no influence on what is done. Take two hosts of any kind over one built chart, and
two sessions that agree in their configuration and memory, whatever these are. A microstep, the
first entry or the exit of everything is carried out in both or in neither, and in both unless
history states lead back to themselves. The same states have then been exited and entered, the chart
has ended in both or in neither, and the sessions agree again. The hosts have been asked for the same
actions, on behalf of the same states and in the same configurations, and the faults of each are
those of its own attempts that failed, in their order. -/
theorem actions_without_influence {d : ChartDecl} (hb : d.build = .ok e₁.chart)
    (hchart : e₂.chart = e₁.chart) (hconf : s₁.configuration = s₂.configuration)
    (hmemory : s₁.memory = s₂.memory) (event : Option Event) (task : Task) :
    ((∀ h, ¬TransGen e₁.chart.PassesTo h h) → e₁.Tidy s₁ → task.Declared e₁.chart →
      ∃ w, e₁.carryOut? event s₁ task = some w) ∧
    Option.Rel (Abreast e₁ e₂ event s₁ s₂) (e₁.carryOut? event s₁ task)
      (e₂.carryOut? event s₂ task) := by
  refine ⟨fun hno tidy declared => exists_carryOut? hb hno tidy declared, ?_⟩
  cases task with
  | take ranks =>
    have hts : ranks.map e₂.chart.transition = ranks.map e₁.chart.transition := by rw [hchart]
    rw [carryOut?, carryOut?, hts]
    exact abreast_take? hchart hconf hmemory _
  | enter => exact abreast_enterInitial? hchart hconf hmemory
  | exit => exact .some (abreast_exitAll hchart hconf hmemory)

/-- An interpreter whose host keeps a log of the actions, and hums at each. -/
def humming (c : Chart) : Engine (List ActionId) where
  chart := c
  host := {
    guard := fun _ _ log => (.ok true, log)
    action := fun a _ log => { state := log ++ [a], raised := [.internal "hum"] } }
  id := .nil

/-- A lift whose host knows no action arrives as any other does, and each of the six actions it has
been asked for is a fault. -/
theorem lift_arrives : ∃ (s₁ : Session Unit) (s₂ : Session (List ActionId)) (w₁ : Microstep Unit)
      (w₂ : Microstep (List ActionId)),
    s₁.configuration.toList = [1, 2] ∧ s₂.configuration.toList = [1, 2] ∧
    (bare lift.chart).carryOut? none s₁ (.take [0]) = some w₁ ∧
    (humming lift.chart).carryOut? none s₂ (.take [0]) = some w₂ ∧
    Abreast (bare lift.chart) (humming lift.chart) none s₁ s₂ w₁ w₂ ∧
    w₁.session.configuration.toList = [3, 4] ∧ w₁.faults.length = 6 ∧ w₂.faults = [] ∧
    w₂.session.host = ["stop", "brake", "ring", "unlock", "light", "sense"] := by
  let s₁ : Session Unit := { host := (), configuration := StateSet.ofList [1, 2] }
  let s₂ : Session (List ActionId) := { host := [], configuration := StateSet.ofList [1, 2] }
  have hb : lift.build = .ok (bare lift.chart).chart := ChartDecl.build_eq_chart (by decide +kernel)
  have hno : ∀ h, ¬TransGen (bare lift.chart).chart.PassesTo h h :=
    Chart.not_cycle_of_later (by decide +kernel)
  have tidy : (bare lift.chart).Tidy s₁ := ⟨by decide +kernel, (Memory.sound_empty _).proper⟩
  have declared : (Task.take [0]).Declared (bare lift.chart).chart := by
    simp only [Task.Declared]
    decide +kernel
  have hchart : (humming lift.chart).chart = (bare lift.chart).chart := rfl
  have hconf : s₁.configuration = s₂.configuration := rfl
  have hmemory : s₁.memory = s₂.memory := rfl
  obtain ⟨hexists, hrel⟩ := actions_without_influence hb hchart hconf hmemory none (.take [0])
  obtain ⟨w₁, h₁⟩ := hexists hno tidy declared
  rw [h₁] at hrel
  cases h₂ : (humming lift.chart).carryOut? none s₂ (.take [0]) with
  | none =>
    rw [h₂] at hrel
    cases hrel
  | some w₂ =>
    rw [h₂] at hrel
    cases hrel with
    | some habreast =>
      have hfacts₁ : ((bare lift.chart).carryOut? none s₁ (.take [0])).map
          (fun w => (w.session.configuration.toList, w.faults.length)) = some ([3, 4], 6) := by
        decide +kernel
      have hfacts₂ : ((humming lift.chart).carryOut? none s₂ (.take [0])).map
          (fun w => (w.faults, w.session.host)) =
            some ([], ["stop", "brake", "ring", "unlock", "light", "sense"]) := by
        decide +kernel
      rw [h₁, Option.map_some, Option.some.injEq, Prod.mk.injEq] at hfacts₁
      rw [h₂, Option.map_some, Option.some.injEq, Prod.mk.injEq] at hfacts₂
      exact ⟨s₁, s₂, w₁, w₂, rfl, rfl, h₁, h₂, habreast, hfacts₁.1, hfacts₁.2, hfacts₂.1,
        hfacts₂.2⟩

end Engine

end Statechart

import Statechart.Proofs.Chronicle
import Statechart.Proofs.RunToCompletion
import Statechart.Proofs.Safety

/-!
Courses of macrosteps. A macrostep is over when a stable configuration is reached, with no internal
event waiting; the next one begins with an external event. The turns of a request are told by the
numbers of microsteps made in its macrosteps, and each macrostep but the first takes one event out
of the external queue.
-/
namespace Statechart

variable {σ : Type}

namespace Queues

variable {q r : Queues} {ev : Event}

/-- The events from outside that have not been taken, in their order. -/
def outside (q : Queues) : List Event := q.external ++ q.handOff

@[simp] theorem outside_drain (q : Queues) : q.drain.outside = q.outside := by simp [drain, outside]

theorem outside_push (h : ev.origin = .internal) : (q.push ev).outside = q.outside := by
  simp [push, h, outside]

theorem outside_send (q : Queues) (ev : Event) :
    (q.send ev).outside = q.outside ++ [ev.withOrigin .external] := by simp [send, outside]

theorem outside_raiseAll (evs : List Event) (q : Queues) :
    (evs.foldl Queues.raise q).outside = q.outside := by
  induction evs generalizing q with
  | nil => rfl
  | cons ev evs ih => exact ih (q.raise ev)

theorem outside_popInternal? (h : q.popInternal? = some (ev, r)) : r.outside = q.outside := by
  obtain ⟨-, hexternal, hhandOff⟩ := popInternal?_eq_some h
  rw [outside, hexternal, hhandOff, outside]

theorem outside_popExternal? (h : q.popExternal? = some (ev, r)) :
    q.outside = ev :: r.outside := by
  obtain ⟨hexternal, -, hhandOff⟩ := popExternal?_eq_some h
  rw [outside, hexternal, List.cons_append, ← hhandOff, outside]

end Queues

namespace Engine

variable {e : Engine σ} {m m' m₀ m₁ : Macrostep σ} {s s' : Session σ} {t : Turn σ}
  {event : Option Event} {ranks : List Nat} {past past' : List Nat} {k k' : Nat}
  {new : List Passage}

/-! ### Waiting events -/

/-- The error events that faults raise. -/
def errors (e : Engine σ) (fs : List Fault) : List Event :=
  if e.settings.raiseErrorEvents then fs.map (fun f => .error f.message) else []

theorem queues_report (raise : Bool) (s : Session σ) (f : Fault) :
    (e.report raise s f).queues =
      { s.queues with
        internal := s.queues.internal ++ (if raise then e.errors [f] else []) } := by
  cases raise <;> cases herrors : e.settings.raiseErrorEvents <;>
    simp [report, errors, herrors, Session.notice, Session.record, Queues.push, Event.error,
      Event.withPayload, Event.internal]

theorem queues_reportAll (raise : Bool) (s : Session σ) (fs : List Fault) :
    (e.reportAll raise s fs).queues =
      { s.queues with internal := s.queues.internal ++ (if raise then e.errors fs else []) } := by
  induction fs generalizing s with
  | nil => cases raise <;> simp [reportAll, errors]
  | cons f fs ih =>
    have herrors : e.errors (f :: fs) = e.errors [f] ++ e.errors fs := by
      simp only [errors]
      split <;> rfl
    simp only [reportAll, List.foldl_cons] at ih ⊢
    rw [ih, queues_report, herrors]
    cases raise <;> simp

/-- What waits after a selection: what waited before, and the error events of the guards that
faulted on an event. -/
theorem queues_select? (h : e.select? s event = some (ranks, s')) :
    s'.queues = { s.queues with internal := s.queues.internal ++
      (if event.isSome then
        e.errors (e.enabled event s.configuration.toList (s, [])).2.2 else []) } := by
  have hjudged := (e.enabled_spec event s.configuration.toList (s, [])).1.queues
  simp only [select?] at h
  obtain ⟨chosen, -, h⟩ := Option.map_eq_some_iff.mp h
  obtain ⟨-, rfl⟩ := Prod.mk.inj h
  rw [queues_reportAll, hjudged]

theorem outside_select? (h : e.select? s event = some (ranks, s')) :
    s'.queues.outside = s.queues.outside := by
  rw [queues_select? h]
  rfl

theorem outside_perform (e : Engine σ) (event : Option Event) (w : Session σ × List Fault)
    (cmd : Command) :
    ∃ sent, (e.perform event w cmd).1.queues.outside = w.1.queues.outside ++ sent := by
  have sent (evs : List Event) (q : Queues) :
      ∃ sent, (evs.foldl Queues.send q).outside = q.outside ++ sent := by
    induction evs generalizing q with
    | nil => exact ⟨[], by simp⟩
    | cons ev evs ih =>
      obtain ⟨later, hlater⟩ := ih (q.send ev)
      exact ⟨ev.withOrigin .external :: later, by simp [hlater, Queues.outside_send]⟩
  cases cmd with
  | call call =>
    obtain ⟨new, hnew⟩ := sent (e.host.action call.action (e.context w.1 event) w.1.host).sent
      ((e.host.action call.action (e.context w.1 event) w.1.host).raised.foldl Queues.raise
        w.1.queues)
    rw [Queues.outside_raiseAll] at hnew
    exact ⟨new, hnew⟩
  | announce state =>
    have hinternal : (Event.done (e.chart.nameOf state)).origin = .internal := rfl
    exact ⟨[], by simp [perform, Queues.outside_push hinternal]⟩
  | leave state => exact ⟨[], by simp [perform]⟩
  | occupy state => exact ⟨[], by simp [perform]⟩

theorem outside_performAll (e : Engine σ) (event : Option Event) (cmds : List Command)
    (w : Session σ × List Fault) :
    ∃ sent, (cmds.foldl (e.perform event) w).1.queues.outside = w.1.queues.outside ++ sent := by
  induction cmds generalizing w with
  | nil => exact ⟨[], by simp⟩
  | cons cmd cmds ih =>
    obtain ⟨first, hfirst⟩ := e.outside_perform event w cmd
    obtain ⟨later, hlater⟩ := ih (e.perform event w cmd)
    exact ⟨first ++ later, by rw [List.foldl_cons, hlater, hfirst, List.append_assoc]⟩

/-- A microstep sends events after those that wait, unless it ends the chart. -/
theorem outside_follow (s : Session σ) (script : Script) :
    (e.follow s script event).status = .final ∨
      ∃ sent, (e.follow s script event).queues.outside = s.queues.outside ++ sent := by
  obtain ⟨sent, hsent⟩ := e.outside_performAll event script.commands
    ({ s with memory := script.memory }, [])
  simp only [follow]
  split
  · exact .inl rfl
  · refine .inr ⟨sent, ?_⟩
    rw [(e.undisturbed_noticeChange event _ script.exited script.entered).queues, queues_reportAll]
    exact hsent

/-! ### Macrosteps -/

/-- The macrostep is over: no transition is selected without an event, and no internal event
waits. -/
def Rests (e : Engine σ) (m : Macrostep σ) : Prop :=
  ∃ s, e.select? m.session none = some ([], s) ∧ s.queues.popInternal? = none

/-- The next turn belongs to a macrostep that has made `k'` microsteps, after the macrosteps
`past'`: the one going on, or, when that is over, a new one. -/
inductive Counts (e : Engine σ) (m : Macrostep σ) (past : List Nat) (k : Nat) :
    List Nat → Nat → Prop
  | same : ¬Rests e m → Counts e m past k past k
  | new : Rests e m → Counts e m past k (past ++ [k]) 0

/-- The turns from `m₀`, told by the numbers of microsteps in the macrosteps that are over, and in
the one going on. -/
inductive Course (e : Engine σ) (m₀ : Macrostep σ) : List Nat → Nat → Macrostep σ → Prop
  | opening : Course e m₀ [] 0 m₀
  | turn {past past' : List Nat} {k k' : Nat} {m m' : Macrostep σ} {new : List Passage} :
      Course e m₀ past k m → Counts e m past k past' k' → e.turn? m = some (.next m') →
      Makes e m (.next m') new → Course e m₀ past' (k' + new.length) m'

theorem Rests.pass (hrest : Rests e m) (hsel : e.select? m.session none = some (ranks, s)) :
    ranks = [] ∧ s.queues.popInternal? = none := by
  obtain ⟨s', hsel', hpop⟩ := hrest
  obtain ⟨rfl, rfl⟩ := Prod.mk.inj (Option.some.inj (hsel'.symm.trans hsel))
  exact ⟨rfl, hpop⟩

/-- What a turn asks about tells whether it begins a macrostep: only an external event does. -/
theorem Asks.counts (hasks : Asks e m m₁ event)
    (hsel : e.select? m₁.session event = some (ranks, s)) (hne : event = none → ranks ≠ []) :
    (¬Rests e m ∧ m₁.microsteps = m.microsteps ∧
        m₁.session.queues.outside = m.session.queues.outside) ∨
      (Rests e m ∧ m₁.microsteps = 0 ∧
        ∃ ev, m.session.queues.outside = ev :: m₁.session.queues.outside) := by
  cases hasks with
  | eventless => exact .inl ⟨fun hrest => hne rfl (hrest.pass hsel).1, rfl, rfl⟩
  | @internal s₁ ev queues hnone hpop =>
    refine .inl ⟨fun hrest => ?_, rfl, ?_⟩
    · simp [(hrest.pass hnone).2] at hpop
    · exact (Queues.outside_popInternal? hpop).trans (outside_select? hnone)
  | @external s₁ ev queues hnone hpop hext =>
    refine .inr ⟨⟨s₁, hnone, hpop⟩, rfl, ev, ?_⟩
    rw [← outside_select? hnone, ← Queues.outside_drain]
    exact Queues.outside_popExternal? hext

/-- The microsteps made in a turn are counted with those of its macrostep, and what waits outside is
what waited before and what is sent, less an event for each macrostep begun. -/
theorem Makes.counts (h : Makes e m (.next m') new) (past : List Nat) :
    ∃ past' k', Counts e m past m.microsteps past' k' ∧ m'.microsteps = k' + new.length ∧
      (m'.session.status = .final ∨ ∃ taken sent, past'.length = past.length + taken.length ∧
        m.session.queues.outside ++ sent = taken ++ m'.session.queues.outside) := by
  obtain ⟨m₁, event, ranks, s, hasks, hsel, hne, hcount, hout⟩ :
      ∃ m₁ event ranks s, Asks e m m₁ event ∧ e.select? m₁.session event = some (ranks, s) ∧
        (event = none → ranks ≠ []) ∧ m'.microsteps = m₁.microsteps + new.length ∧
        (m'.session.status = .final ∨
          ∃ sent, m'.session.queues.outside = s.queues.outside ++ sent) := by
    cases h with
    | @step m₁ event ranks s script _ hasks hsel hne _ _ =>
      exact ⟨m₁, event, ranks, s, hasks, hsel, fun _ => hne, rfl, outside_follow s script⟩
    | @drop m₁ ev s _ hasks hsel =>
      refine ⟨m₁, some ev, [], s, hasks, hsel, by simp, rfl, .inr ⟨[], ?_⟩⟩
      simp only [Engine.drop]
      split <;> simp [Session.notice, Session.record]
  rw [outside_select? hsel] at hout
  rcases hasks.counts hsel hne with ⟨hno, hm₁, hq⟩ | ⟨hrest, hm₁, ev, hq⟩
  · refine ⟨past, m.microsteps, .same hno, by rw [hcount, hm₁], hout.imp_right ?_⟩
    rintro ⟨sent, hsent⟩
    exact ⟨[], sent, by simp, by simp [hsent, hq]⟩
  · refine ⟨past ++ [m.microsteps], 0, .new hrest, by rw [hcount, hm₁], hout.imp_right ?_⟩
    rintro ⟨sent, hsent⟩
    exact ⟨[ev], sent, by simp, by simp [hsent, hq]⟩

theorem Counts.unique {past₁ past₂ : List Nat} {k₁ k₂ : Nat} (h₁ : Counts e m past k past₁ k₁)
    (h₂ : Counts e m past k past₂ k₂) : past₁ = past₂ ∧ k₁ = k₂ := by
  cases h₁ with
  | same hno =>
    cases h₂ with
    | same _ => exact ⟨rfl, rfl⟩
    | new hrest => exact absurd hrest hno
  | new hrest =>
    cases h₂ with
    | same hno => exact absurd hrest hno
    | new _ => exact ⟨rfl, rfl⟩

/-- The counter of the interpreter counts the microsteps of the macrostep going on, and every
macrostep but the first has taken the event it begins with from those waiting outside. -/
theorem Course.spec (hm₀ : m₀.microsteps = 0) (h : Course e m₀ past k m) :
    m.microsteps = k ∧ (m.session.status = .final ∨ ∃ taken sent, taken.length = past.length ∧
      m₀.session.queues.outside ++ sent = taken ++ m.session.queues.outside) := by
  induction h with
  | opening => exact ⟨hm₀, .inr ⟨[], [], rfl, by simp⟩⟩
  | @turn past past' k k' m m' new _ hcounts ht hmakes ih =>
    obtain ⟨hk, hwaiting⟩ := ih
    obtain ⟨past₁, k₁, hcounts₁, hcount, hnext⟩ := hmakes.counts past
    rw [hk] at hcounts₁
    obtain ⟨rfl, rfl⟩ := hcounts.unique hcounts₁
    refine ⟨hcount, hnext.imp_right ?_⟩
    rintro ⟨taken, sent, hlength, hq⟩
    rcases hwaiting with hfinal | ⟨earlier, before, hearlier, hq₀⟩
    · simp [Engine.turn?, hfinal] at ht
    · refine ⟨earlier ++ taken, before ++ sent, by simp [hlength, hearlier], ?_⟩
      rw [← List.append_assoc, hq₀, List.append_assoc, hq, List.append_assoc]

theorem Invariant.course {I : Configuration → Memory → Prop} (inv : Invariant e I)
    (h : Course e m₀ past k m) (hm₀ : I m₀.session.configuration m₀.session.memory) :
    I m.session.configuration m.session.memory := by
  induction h with
  | opening => exact hm₀
  | turn _ _ ht _ ih => exact inv.turn ht ih

/-! ### Outcomes -/

section Outcomes

variable (wf : e.chart.WellFormed) (g : e.chart.Grounded)
include wf g

/-- What is selected can be followed, as long as no history state is active and no record names
one. -/
theorem exists_microstep? (hreal : ∀ q ∈ s.configuration, e.chart.isHistory q = false)
    (proper : s.memory.Proper e.chart) (hsel : e.select? s event = some (ranks, s')) :
    ∃ s₁, e.microstep? s' ranks event = some s₁ := by
  obtain ⟨hsame, -, -⟩ := e.select?_spec hsel
  obtain ⟨script, hscript⟩ := Script.exists_take? (x := s'.configuration) (m := s'.memory) wf g
    (by rwa [hsame.configuration]) (by rwa [hsame.memory])
    (declared_of_offers wf (offers_of_select? hsel))
  exact ⟨_, by rw [microstep?_eq, hscript]; rfl⟩

theorem exists_turn?_of_proper (hreal : ∀ q ∈ m.session.configuration, e.chart.isHistory q = false)
    (proper : m.session.memory.Proper e.chart) : ∃ t, e.turn? m = some t := by
  refine exists_turn? (fun m₁ event _ => exists_select? wf g event)
    (fun m₁ event ranks s hasks hsel _ => ?_)
  rw [← hasks.same.1] at hreal
  rw [← hasks.same.2] at proper
  obtain ⟨s', hs'⟩ := exists_microstep? wf g hreal proper hsel
  unfold step?
  simp only
  split
  · exact ⟨_, rfl⟩
  · exact ⟨_, by rw [hs']; rfl⟩

end Outcomes

end Engine

end Statechart

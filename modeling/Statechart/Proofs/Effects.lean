import Statechart.Engine
import Statechart.Proofs.Arrival

/-!
What the parts of the interpreter change. Judging touches the host's state and the trace, reporting
the internal queue and the trace; only commands change the configuration, and only a microstep
changes the memory. Guards that keep the host's state give the same selection whenever they are
asked again in the same configuration.
-/
namespace Statechart

open Command (applyAll)

/-- The event that an occurrence takes out of its queue. -/
def Occurrence.event? : Occurrence → Option Event
  | .taken event => some event
  | _ => none

namespace Session

variable {σ : Type} {s s₁ s₂ : Session σ}

/-- The events processed so far. -/
def taken (s : Session σ) : List Event := s.trace.toList.filterMap Occurrence.event?

theorem taken_record (s : Session σ) (o : Occurrence) :
    (s.record o).taken = s.taken ++ o.event?.toList := by
  cases h : o.event? <;> simp [taken, record, h]

/-- The states of the two sessions are the same, active, remembered and the session's own, and
neither has processed more events. -/
structure SameStates (s s' : Session σ) : Prop where
  status : s'.status = s.status
  configuration : s'.configuration = s.configuration
  memory : s'.memory = s.memory
  taken : s'.taken = s.taken

theorem SameStates.refl (s : Session σ) : s.SameStates s := ⟨rfl, rfl, rfl, rfl⟩

theorem SameStates.trans (h₁ : s.SameStates s₁) (h₂ : s₁.SameStates s₂) : s.SameStates s₂ :=
  ⟨h₂.status.trans h₁.status, h₂.configuration.trans h₁.configuration, h₂.memory.trans h₁.memory,
    h₂.taken.trans h₁.taken⟩

/-- The waiting events are the same too. -/
structure Undisturbed (s s' : Session σ) : Prop extends s.SameStates s' where
  queues : s'.queues = s.queues

theorem Undisturbed.refl (s : Session σ) : s.Undisturbed s := ⟨.refl s, rfl⟩

theorem Undisturbed.trans (h₁ : s.Undisturbed s₁) (h₂ : s₁.Undisturbed s₂) : s.Undisturbed s₂ :=
  ⟨h₁.toSameStates.trans h₂.toSameStates, h₂.queues.trans h₁.queues⟩

theorem undisturbed_record (s : Session σ) {o : Occurrence} (h : o.event? = none) :
    s.Undisturbed (s.record o) :=
  ⟨⟨rfl, rfl, rfl, by simp [taken_record, h]⟩, rfl⟩

theorem undisturbed_notice (s : Session σ) (n : Notification) : s.Undisturbed (s.notice n) :=
  s.undisturbed_record rfl

end Session

open Session (SameStates Undisturbed)

namespace Engine

variable {σ : Type} (e : Engine σ) (event : Option Event) (source : Nat)

/-! ### Judging -/

theorem undisturbed_judge (w : Session σ × List Fault) (g : Option GuardId) :
    w.1.Undisturbed (e.judge event source w g).2.1 := by
  cases g with
  | none => exact .refl w.1
  | some g =>
    have hhost (host : σ) : w.1.Undisturbed { w.1 with host } := ⟨⟨rfl, rfl, rfl, rfl⟩, rfl⟩
    have hrec (host : σ) (v : Except GuardFault Bool) :=
      (hhost host).trans (Session.undisturbed_record { w.1 with host } (o := .judged g event v) rfl)
    simp only [judge]
    split <;> exact hrec _ _

/-- Whether a trigger is judged at all; without an event every one is. -/
def Hears (event : Option Event) (t : Trigger) : Prop :=
  ∀ ev, event = some ev → t.accepts ev.name = true

instance (event : Option Event) (t : Trigger) : Decidable (Hears event t) :=
  match event with
  | none => .isTrue (by simp [Hears])
  | some ev => decidable_of_iff (t.accepts ev.name = true) (by simp [Hears])

theorem judgeTriggers_cons (t : Trigger) (ts : List Trigger) (w : Session σ × List Fault) :
    e.judgeTriggers event source (t :: ts) w =
      if Hears event t then
        match e.judge event source w t.guard with
        | (true, w) => (true, w)
        | (false, w) => e.judgeTriggers event source ts w
      else e.judgeTriggers event source ts w := by
  cases event with
  | none =>
    have hears : Hears none t := by simp [Hears]
    exact (if_pos hears).symm
  | some ev =>
    have hears : t.accepts ev.name = true ↔ Hears (some ev) t := by simp [Hears]
    exact if_congr hears rfl rfl

theorem undisturbed_judgeTriggers (ts : List Trigger) (w : Session σ × List Fault) :
    w.1.Undisturbed (e.judgeTriggers event source ts w).2.1 := by
  induction ts generalizing w with
  | nil => exact .refl w.1
  | cons t ts ih =>
    have hone := e.undisturbed_judge event source w t.guard
    rcases hj : e.judge event source w t.guard with ⟨holds, w'⟩
    rw [hj] at hone
    rw [judgeTriggers_cons, hj]
    split
    · cases holds with
      | true => exact hone
      | false => exact hone.trans (ih w')
    · exact ih w

theorem undisturbed_judgeTransition (t : Transition) (w : Session σ × List Fault) :
    w.1.Undisturbed (e.judgeTransition event t w).2.1 := by
  unfold judgeTransition
  split
  · exact .refl w.1
  · split
    · exact .refl w.1
    · exact e.undisturbed_judgeTriggers event t.source t.triggers w

theorem firstEnabled_spec (rs : List Nat) (w : Session σ × List Fault) :
    w.1.Undisturbed (e.firstEnabled event rs w).2.1 ∧
      ∀ r, (e.firstEnabled event rs w).1 = some r → r ∈ rs := by
  induction rs generalizing w with
  | nil => exact ⟨.refl w.1, by simp [firstEnabled]⟩
  | cons r rs ih =>
    have hone := e.undisturbed_judgeTransition event (e.chart.transition r) w
    rcases hj : e.judgeTransition event (e.chart.transition r) w with ⟨holds, w'⟩
    rw [hj] at hone
    cases holds with
    | true =>
      simp only [firstEnabled, hj]
      exact ⟨hone, fun r' hr' => by simp [Option.some.inj hr']⟩
    | false =>
      simp only [firstEnabled, hj]
      obtain ⟨hrest, hmem⟩ := ih w'
      exact ⟨hone.trans hrest, fun r' hr' => List.mem_cons_of_mem r (hmem r' hr')⟩

/-- Enabled transitions are found in the states that were asked. -/
theorem enabled_spec (ss : List Nat) (w : Session σ × List Fault) :
    w.1.Undisturbed (e.enabled event ss w).2.1 ∧
      ∀ r ∈ (e.enabled event ss w).1, ∃ s ∈ ss, r ∈ (e.chart.node s).transitions := by
  induction ss generalizing w with
  | nil => exact ⟨.refl w.1, by simp [enabled]⟩
  | cons s ss ih =>
    obtain ⟨hone, hfirst⟩ := e.firstEnabled_spec event (e.chart.node s).transitions w
    rcases hf : e.firstEnabled event (e.chart.node s).transitions w with ⟨first, w'⟩
    rw [hf] at hone hfirst
    obtain ⟨hrest, hmem⟩ := ih w'
    simp only [enabled, hf]
    refine ⟨hone.trans hrest, fun r hr => ?_⟩
    rcases List.mem_append.mp hr with hr | hr
    · exact ⟨s, by simp, hfirst r (Option.mem_toList.mp hr)⟩
    · obtain ⟨s', hs', hr⟩ := hmem r hr
      exact ⟨s', by simp [hs'], hr⟩

/-! ### Reporting -/

theorem report_spec (raise : Bool) (s : Session σ) (f : Fault) :
    s.SameStates (e.report raise s f) ∧ (raise = false → s.Undisturbed (e.report raise s f)) := by
  have hnotice (s' : Session σ) := s'.undisturbed_notice (.faulted f)
  unfold report
  cases raise with
  | false => exact ⟨(hnotice s).toSameStates, fun _ => hnotice s⟩
  | true =>
    refine ⟨?_, by simp⟩
    have hqueues (queues : Queues) : s.SameStates { s with queues } := ⟨rfl, rfl, rfl, rfl⟩
    simp only [Bool.true_and]
    split
    · exact (hqueues _).trans (hnotice { s with queues := s.queues.push _ }).toSameStates
    · exact (hnotice s).toSameStates

theorem reportAll_spec (raise : Bool) (s : Session σ) (fs : List Fault) :
    s.SameStates (e.reportAll raise s fs) ∧
      (raise = false → s.Undisturbed (e.reportAll raise s fs)) := by
  unfold reportAll
  induction fs generalizing s with
  | nil => exact ⟨.refl s, fun _ => .refl s⟩
  | cons f fs ih =>
    obtain ⟨hone, hquiet⟩ := e.report_spec raise s f
    obtain ⟨hrest, hquiet'⟩ := ih (e.report raise s f)
    exact ⟨hone.trans hrest, fun h => (hquiet h).trans (hquiet' h)⟩

/-- What is selected was enabled in an active state; selection changes no states, and without an
event no queue. -/
theorem select?_spec {event : Option Event} {s s' : Session σ} {ranks : List Nat}
    (h : e.select? s event = some (ranks, s')) :
    s.SameStates s' ∧ (event = none → s.Undisturbed s') ∧
      ∃ rs, e.chart.choose? s.configuration s.memory rs = some ranks ∧
        ∀ r ∈ rs, ∃ q ∈ s.configuration, r ∈ (e.chart.node q).transitions := by
  obtain ⟨hjudged, hmem⟩ := e.enabled_spec event s.configuration.toList (s, [])
  rcases he : e.enabled event s.configuration.toList (s, []) with ⟨rs, s₁, faults⟩
  rw [he] at hjudged hmem
  simp only [select?, he, Option.map_eq_some_iff, Prod.mk.injEq] at h
  obtain ⟨chosen, hchosen, rfl, rfl⟩ := h
  obtain ⟨hsame, hquiet⟩ := e.reportAll_spec event.isSome s₁ faults
  rw [hjudged.configuration, hjudged.memory] at hchosen
  exact ⟨hjudged.toSameStates.trans hsame, fun hn => hjudged.trans (hquiet (by simp [hn])),
    rs, hchosen, hmem⟩

/-! ### Performing -/

/-- What performing commands does to a session, the host and the queues apart. -/
structure Performed (cmds : List Command) (s s' : Session σ) : Prop where
  status : s'.status = s.status
  memory : s'.memory = s.memory
  taken : s'.taken = s.taken
  configuration : s'.configuration = applyAll s.configuration cmds

theorem performed_perform (w : Session σ × List Fault) (cmd : Command) :
    Performed [cmd] w.1 (e.perform event w cmd).1 := by
  cases cmd with
  | call call =>
    refine ⟨rfl, rfl, ?_, rfl⟩
    simp only [perform, act, Session.taken_record, Occurrence.event?, Option.toList_none,
      List.append_nil]
    rfl
  | leave s => exact ⟨rfl, rfl, rfl, rfl⟩
  | occupy s => exact ⟨rfl, rfl, rfl, rfl⟩
  | announce s => exact ⟨rfl, rfl, rfl, rfl⟩

theorem performed_foldl (cmds : List Command) (w : Session σ × List Fault) :
    Performed cmds w.1 (cmds.foldl (e.perform event) w).1 := by
  induction cmds generalizing w with
  | nil => exact ⟨rfl, rfl, rfl, rfl⟩
  | cons cmd cmds ih =>
    have hone := e.performed_perform event w cmd
    have hrest := ih (e.perform event w cmd)
    refine ⟨hrest.status.trans hone.status, hrest.memory.trans hone.memory,
      hrest.taken.trans hone.taken, ?_⟩
    rw [List.foldl_cons, hrest.configuration, hone.configuration]
    rfl

theorem undisturbed_noticeChange (s : Session σ) (exited entered : List Nat) :
    s.Undisturbed (e.noticeChange s exited entered event) := by
  unfold noticeChange
  split
  · exact .refl s
  · exact s.undisturbed_notice _

/-- A microstep does to the configuration what its script says. -/
structure Followed (script : Script) (s s' : Session σ) : Prop where
  configuration : s'.configuration = applyAll s.configuration script.commands
  memory : s'.memory = script.memory
  taken : s'.taken = s.taken

theorem followed_follow (s : Session σ) (script : Script) :
    Followed script s (e.follow s script event) := by
  have hperf := e.performed_foldl event script.commands ({ s with memory := script.memory }, [])
  rcases hf : script.commands.foldl (e.perform event) ({ s with memory := script.memory }, []) with
    ⟨s₁, faults⟩
  rw [hf] at hperf
  have hrep := (e.reportAll_spec true s₁ faults).1.trans
    (e.undisturbed_noticeChange event (e.reportAll true s₁ faults) script.exited
      script.entered).toSameStates
  have hall : Followed script s
      (e.noticeChange (e.reportAll true s₁ faults) script.exited script.entered event) :=
    ⟨hrep.configuration.trans hperf.configuration, hrep.memory.trans hperf.memory,
      hrep.taken.trans hperf.taken⟩
  simp only [follow, hf]
  split
  · refine ⟨hall.configuration, hall.memory, ?_⟩
    rw [← hall.taken]
    exact (Session.undisturbed_notice _ _).taken
  · exact hall

end Engine

end Statechart

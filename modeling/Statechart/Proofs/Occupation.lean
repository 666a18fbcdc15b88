import Statechart.Proofs.Fidelity

/-!
What a running session occupies. A microstep that enters nothing can only have followed an empty
record, and nothing overwrites that as long as nothing is active. So a session whose records are not
empty is idle exactly when nothing is active.
-/
namespace Statechart

open Command (applyAll)

variable {σ : Type} {e : Engine σ} {s : Session σ} {m : Macrostep σ} {a : Answer σ}

/-- Something is active, or a record is empty. -/
def Occupied (x : Configuration) (m : Memory) : Prop :=
  (∃ i, i ∈ x) ∨ ∃ h, m.get? h = some []

theorem Memory.Proper.filled_of_no_empty_record {c : Chart} {m : Memory} (proper : m.Proper c)
    (h : ¬∃ h, m.get? h = some []) : m.Filled c :=
  ⟨proper, fun k _ _ _ _ hget hnil => h ⟨k, hnil ▸ hget⟩⟩

namespace Engine

/-- Whatever is taken, something is active in the end, or an empty record has been followed. -/
theorem keeps_occupied (wf : e.chart.WellFormed) :
    Keeps e fun x m =>
      ((∀ s ∈ x, e.chart.isHistory s = false) ∧ m.Proper e.chart) ∧ Occupied x m := by
  rintro x m ranks script ⟨hproper, -⟩ hoff hne htake
  have hproper' := (invariant_proper wf).step x m ranks script hproper hoff hne htake
  refine ⟨hproper', ?_⟩
  by_cases hempty : ∃ h, script.memory.get? h = some []
  · exact .inr hempty
  obtain ⟨exits, outside, plan, made⟩ := Script.made_of_take? htake
  have filled := hproper'.2.filled_of_no_empty_record hempty
  by_cases htargets : ∃ t ∈ ranks.map e.chart.transition, t.targets ≠ []
  · -- A transition with a target enters something.
    obtain ⟨t, ht, htargets⟩ := htargets
    obtain ⟨u, hu⟩ := List.exists_mem_of_ne_nil _ htargets
    have htakes :=
      (EntryPlan.extends_foldlM wf filled (declared_of_offers wf hoff) made.plan_eq).2 t ht
    obtain ⟨i, hi, -⟩ := (htakes.targets u hu).under
    exact .inl ⟨i, (made.mem_result i).mpr (.inr hi)⟩
  · -- Without targets nothing is exited.
    obtain ⟨q, hq⟩ := exists_active_of_offers hoff hne
    refine .inl ⟨q, (made.mem_result q).mpr (.inl ((made.mem_outside q).mpr ⟨hq, ?_⟩))⟩
    rw [made.mem_exits]
    rintro ⟨-, t, ht, d, hd, -⟩
    have hnil : t.targets = [] := by
      by_contra hne
      exact htargets ⟨t, ht, hne⟩
    have hnone : t.isTargetless = true := by simp [Transition.isTargetless, hnil]
    simp [Chart.domain?_of_targetless hnone] at hd

theorem status_follow (s : Session σ) (script : Script) (event : Option Event) :
    (e.follow s script event).status = if script.finished then .final else s.status := by
  have hperform := e.performed_foldl event script.commands ({ s with memory := script.memory }, [])
  simp only [follow]
  split
  · rfl
  · rw [(e.undisturbed_noticeChange event _ script.exited script.entered).status,
      (e.reportAll_spec true _ _).1.status]
    exact hperform.status

/-- Turns leave a session waiting or at its end. -/
theorem status_of_turns? {n : Nat} (h : e.turns? n m = some a) :
    a.session.status = .awaitingExternal ∨ a.session.status = .final := by
  obtain ⟨m', hlast⟩ := exists_turn_of_turns h
  cases comes_of_turn? hlast with
  | final hfinal => exact .inr hfinal
  | step _ _ _ _ hstep =>
    rcases step?_eq_some hstep with ⟨limit, -, hgive⟩ | ⟨script, -, -, hnext⟩
    · cases hgive
      exact .inl rfl
    · cases hnext
  | stable _ _ _ _ => exact .inl (awaiting_spec m' _).2.2.2.2.2

/-- Nothing is active in an idle session, and a session that is not idle occupies something. -/
structure Housed (s : Session σ) : Prop where
  empty : s.status = .idle → s.configuration = StateSet.empty
  occupied : s.status ≠ .idle → Occupied s.configuration s.memory

section Housed

variable (wf : e.chart.WellFormed)
include wf

theorem housed_run? {bound : Nat} {progressed : Bool}
    (hreal : (∀ i ∈ s.configuration, e.chart.isHistory i = false) ∧ s.memory.Proper e.chart)
    (hs : Housed s) (h : e.run? bound s progressed = some a) :
    a.session.status ≠ .stabilizing ∧ Housed a.session := by
  unfold run? at h
  split at h
  · rename_i hrun
    have hidle : s.status ≠ .idle := by
      intro hidle
      simp [Session.isRunning, hidle, Status.isRunning] at hrun
    have hturns := ((keeps_occupied wf).turns h ⟨hreal, hs.occupied hidle⟩).2
    rcases status_of_turns? h with hstatus | hstatus <;>
      exact ⟨by simp [hstatus], by simp [hstatus], fun _ => hturns⟩
  · rename_i hrun
    obtain rfl := Option.some.inj h
    refine ⟨fun hstatus => hrun ?_, hs⟩
    rw [Session.isRunning, show s.status = .stabilizing from hstatus]
    rfl

theorem housed_entered {script : Script} (h : Script.start? e.chart = some script) (s : Session σ) :
    Housed (e.entered s script) := by
  have hfollow := e.followed_follow none
    { s with status := .stabilizing, configuration := StateSet.empty } script
  constructor
  · intro hidle
    rw [entered, status_follow] at hidle
    split at hidle <;> simp at hidle
  · intro _
    rw [entered, hfollow.configuration]
    exact .inl (Script.exists_result_of_start? wf h)

theorem housed_serve? {bound : Nat} {r : Request}
    (hreal : (∀ i ∈ s.configuration, e.chart.isHistory i = false) ∧ s.memory.Proper e.chart)
    (hstatus : s.status ≠ .stabilizing) (hs : Housed s) (h : e.serve? bound s r = some a) :
    a.session.status ≠ .stabilizing ∧ Housed a.session := by
  cases r with
  | start =>
    simp only [serve?, start?_eq] at h
    split at h
    · cases hscript : Script.start? e.chart with
      | none => simp [hscript] at h
      | some script =>
        simp only [hscript] at h
        exact housed_run? wf ((invariant_proper wf).entered hscript s)
          (housed_entered wf hscript s) h
    · obtain rfl := Option.some.inj h
      exact ⟨hstatus, hs⟩
  | stop =>
    obtain rfl := Option.some.inj h
    by_cases hidle : s.status = .idle
    · simpa [stop, hidle] using And.intro hstatus hs
    · have hstop : (e.stop s).session.status = .idle := by simp [stop, hidle]
      refine ⟨by simp [hstop], fun _ => ?_, fun h => absurd hstop h⟩
      rw [(e.followed_stop s hidle).configuration, Script.stop_result]
  | submit event =>
    simp only [serve?, submit?] at h
    split at h
    · obtain rfl := Option.some.inj h
      exact ⟨hstatus, hs⟩
    · exact housed_run? wf (s := { s with queues := s.queues.push event }) hreal
        ⟨hs.empty, hs.occupied⟩ h
  | process => exact housed_run? wf hreal hs h
  | send event =>
    obtain rfl := Option.some.inj h
    exact ⟨hstatus, hs.empty, hs.occupied⟩

/-- Between two requests no macrostep is going on. -/
theorem Reachable.housed (h : Reachable e s) : s.status ≠ .stabilizing ∧ Housed s := by
  induction h with
  | fresh host => exact ⟨by simp, fun _ => rfl, fun h => absurd rfl h⟩
  | served bound r hs ha ih =>
    exact housed_serve? wf ((invariant_proper wf).reachable hs) ih.1 ih.2 ha

/-- With faithful records a session is idle exactly when nothing is active. -/
theorem Reachable.idle_iff (h : Reachable e s) (faithful : s.memory.Faithful e.chart) :
    s.status = .idle ↔ s.configuration.isEmpty = true := by
  obtain ⟨-, hempty, hoccupied⟩ := h.housed wf
  constructor
  · intro hidle
    rw [hempty hidle]
    rfl
  · intro hnone
    by_contra hidle
    rcases hoccupied hidle with ⟨i, hi⟩ | ⟨k, hk⟩
    · simp only [StateSet.isEmpty, List.isEmpty_iff] at hnone
      rw [← StateSet.mem_toList, hnone] at hi
      exact absurd hi (by simp)
    · obtain ⟨hh, x, p, -, -, hp, -⟩ := faithful k [] hk
      exact (faithful.sound wf k p [] hh hp hk).nonempty rfl

end Housed

end Engine

end Statechart

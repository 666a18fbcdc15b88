import Statechart.Proofs.Effects

/-!
Guards without side effects. When judging a guard leaves the host's state alone, whether a transition
is enabled is a function of the configuration, the host's state and the event, and asking twice gives
the same answer.
-/
namespace Statechart

/-- Judging a guard leaves the host's state as it is. -/
def Host.Pure {σ : Type} (h : Host σ) : Prop := ∀ g x s, (h.guard g x s).2 = s

theorem Host.pure_ofTables {σ : Type} (guards : GuardTable σ) (actions : ActionTable σ) :
    (Host.ofTables guards actions).Pure := fun _ _ _ => rfl

namespace Engine

variable {σ : Type} (e : Engine σ) (event : Option Event) (x : Configuration) (host : σ)

/-- What a guard says; a fault says no. -/
def holds : Option GuardId → Bool
  | none => true
  | some g =>
    match (e.host.guard g ⟨e.chart, x, event, e.id⟩ host).1 with
    | .ok verdict => verdict
    | .error _ => false

/-- Whether the transition can be taken. -/
def enables (t : Transition) : Bool :=
  if event.isNone && !t.isEventless then false
  else if event.isNone && t.triggers.isEmpty then true
  else t.triggers.any fun g => decide (Hears event g) && e.holds event x host g.guard

/-- The first transition of each state that can be taken. -/
def enabledIn (ss : List Nat) : List Nat :=
  ss.filterMap fun s =>
    (e.chart.node s).transitions.find? fun r => e.enables event x host (e.chart.transition r)

variable {e x host} (pure : e.host.Pure) {w : Session σ × List Fault}
include pure

theorem judge_pure (source : Nat) (g : Option GuardId) :
    (e.judge event source w g).1 = e.holds event w.1.configuration w.1.host g ∧
      (e.judge event source w g).2.1.host = w.1.host := by
  cases g with
  | none => exact ⟨rfl, rfl⟩
  | some g =>
    have hhost := pure g (e.context w.1 event) w.1.host
    simp only [judge, holds]
    simp only [context] at hhost ⊢
    cases (e.host.guard g ⟨e.chart, w.1.configuration, event, e.id⟩ w.1.host).1 <;>
      exact ⟨rfl, hhost⟩

theorem judgeTriggers_pure (source : Nat) (ts : List Trigger) :
    (e.judgeTriggers event source ts w).1 =
        (ts.any fun g => decide (Hears event g) &&
          e.holds event w.1.configuration w.1.host g.guard) ∧
      (e.judgeTriggers event source ts w).2.1.host = w.1.host := by
  induction ts generalizing w with
  | nil => exact ⟨rfl, rfl⟩
  | cons t ts ih =>
    obtain ⟨hverdict, hhost⟩ := judge_pure event pure source t.guard
    have hsame := e.undisturbed_judge event source w t.guard
    rcases hj : e.judge event source w t.guard with ⟨verdict, w'⟩
    rw [hj] at hverdict hhost hsame
    rw [judgeTriggers_cons, hj, List.any_cons]
    by_cases hears : Hears event t
    · cases verdict with
      | true =>
        simp only [hears, if_true, decide_true, Bool.true_and, ← hverdict, Bool.true_or]
        exact ⟨trivial, hhost⟩
      | false =>
        obtain ⟨hrest, hhost'⟩ := ih (w := w')
        simp only [hears, if_true, decide_true, Bool.true_and, ← hverdict, Bool.false_or]
        rw [hrest, hhost', hsame.configuration, hhost]
        exact ⟨rfl, rfl⟩
    · simpa [hears] using ih

theorem judgeTransition_pure (t : Transition) :
    (e.judgeTransition event t w).1 = e.enables event w.1.configuration w.1.host t ∧
      (e.judgeTransition event t w).2.1.host = w.1.host := by
  unfold judgeTransition enables
  split
  · exact ⟨rfl, rfl⟩
  · split
    · exact ⟨rfl, rfl⟩
    · exact judgeTriggers_pure event pure t.source t.triggers

theorem firstEnabled_pure (rs : List Nat) :
    (e.firstEnabled event rs w).1 =
        rs.find? (fun r => e.enables event w.1.configuration w.1.host (e.chart.transition r)) ∧
      (e.firstEnabled event rs w).2.1.host = w.1.host := by
  induction rs generalizing w with
  | nil => exact ⟨rfl, rfl⟩
  | cons r rs ih =>
    obtain ⟨hverdict, hhost⟩ := judgeTransition_pure event pure (e.chart.transition r)
    have hsame := e.undisturbed_judgeTransition event (e.chart.transition r) w
    rcases hj : e.judgeTransition event (e.chart.transition r) w with ⟨verdict, w'⟩
    rw [hj] at hverdict hhost hsame
    cases verdict with
    | true =>
      simp only [firstEnabled, hj, List.find?_cons, ← hverdict]
      exact ⟨trivial, hhost⟩
    | false =>
      obtain ⟨hrest, hhost'⟩ := ih (w := w')
      simp only [firstEnabled, hj, List.find?_cons, ← hverdict]
      rw [hrest, hhost', hsame.configuration, hhost]
      exact ⟨rfl, rfl⟩

theorem enabled_pure (ss : List Nat) :
    (e.enabled event ss w).1 = e.enabledIn event w.1.configuration w.1.host ss ∧
      (e.enabled event ss w).2.1.host = w.1.host := by
  induction ss generalizing w with
  | nil => exact ⟨rfl, rfl⟩
  | cons s ss ih =>
    obtain ⟨hfirst, hhost⟩ := firstEnabled_pure event pure (e.chart.node s).transitions
    obtain ⟨hsame, -⟩ := e.firstEnabled_spec event (e.chart.node s).transitions w
    rcases hf : e.firstEnabled event (e.chart.node s).transitions w with ⟨first, w'⟩
    rw [hf] at hfirst hhost hsame
    obtain ⟨hrest, hhost'⟩ := ih (w := w')
    simp only [enabled, hf]
    rw [hrest, hhost', hsame.configuration, hhost]
    refine ⟨?_, rfl⟩
    simp only [enabledIn, List.filterMap_cons, ← hfirst]
    cases first <;> rfl

omit pure in
theorem host_reportAll (raise : Bool) (s : Session σ) (fs : List Fault) :
    (e.reportAll raise s fs).host = s.host := by
  unfold reportAll
  induction fs generalizing s with
  | nil => rfl
  | cons f fs ih =>
    rw [List.foldl_cons, ih]
    unfold report
    simp only
    split <;> rfl

/-- What is selected depends on nothing but the configuration, the memory, the host's state and the
event. -/
theorem select?_pure (s : Session σ) :
    (e.select? s event).map (·.1) = e.chart.choose? s.configuration s.memory
        (e.enabledIn event s.configuration s.host s.configuration.toList) ∧
      ∀ ranks s', e.select? s event = some (ranks, s') → s'.host = s.host := by
  obtain ⟨hranks, hhost⟩ := enabled_pure event (w := (s, [])) pure s.configuration.toList
  obtain ⟨hsame, -⟩ := e.enabled_spec event s.configuration.toList (s, [])
  rcases he : e.enabled event s.configuration.toList (s, []) with ⟨rs, s₁, faults⟩
  rw [he] at hranks hhost hsame
  simp only [select?, he]
  constructor
  · simp only at hranks hsame
    rw [Option.map_map, hsame.configuration, hsame.memory, hranks]
    exact Option.map_id'
  · intro ranks s' h
    obtain ⟨chosen, -, hs⟩ := Option.map_eq_some_iff.mp h
    rw [← (Prod.mk.inj hs).2, host_reportAll]
    exact hhost

end Engine

end Statechart

import Statechart.Proofs.DocumentOrder
import Statechart.Proofs.PureGuards

/-!
What a selection starts from. Every active state offers the first of its transitions that is found
enabled. No transition is judged twice in one selection, so the answers given on the way amount to
one verdict on every transition, whatever the evaluator keeps in mind between two of them.
-/
namespace Statechart

open Session (Undisturbed)

namespace Chart

variable {c : Chart} {x : Configuration} {verdict : Nat → Bool} {r : Nat}

/-- The first transition of each active state that passes, in the document order of the states. -/
def offered (c : Chart) (x : Configuration) (verdict : Nat → Bool) : List Nat :=
  x.toList.filterMap fun q => (c.node q).transitions.find? verdict

theorem mem_offered : r ∈ c.offered x verdict ↔
    ∃ q ∈ x, (c.node q).transitions.find? verdict = some r := by
  simp [offered]

/-- Each state offers one transition at most, and offers it in its turn. -/
theorem offered_pairwise (wf : c.WellFormed) (x : Configuration) (verdict : Nat → Bool) :
    (c.offered x verdict).Pairwise
      (fun r u => (c.transition r).source < (c.transition u).source) := by
  have source (q r : Nat) (h : (c.node q).transitions.find? verdict = some r) :
      (c.transition r).source = q := (wf.source q r (List.mem_of_find?_eq_some h)).2
  refine List.Pairwise.filterMap _ (fun q q' hlt r hr u hu => ?_) x.ascending
  rwa [source q r hr, source q' u hu]

/-- An offer is declared in an active state. -/
theorem declared_of_offered (wf : c.WellFormed) (h : r ∈ c.offered x verdict) :
    c.Declared (c.transition r) ∧ (c.transition r).source ∈ x ∧ verdict r = true := by
  obtain ⟨q, hq, hr⟩ := mem_offered.mp h
  have hmem := List.mem_of_find?_eq_some hr
  exact ⟨wf.declared hmem, (wf.source q r hmem).2 ▸ hq, List.find?_some hr⟩

end Chart

namespace Engine

variable {σ : Type} {e : Engine σ} {event : Option Event} {s : Session σ}
  {w : Session σ × List Fault} {verdict : Nat → Bool} {ranks : List Nat} {s₁ : Session σ}

/-- How a selection stands between two transitions it judges. -/
inductive Judging (e : Engine σ) (event : Option Event) (s : Session σ) :
    Session σ × List Fault → Prop
  | start : Judging e event s (s, [])
  | next {w : Session σ × List Fault} (t : Transition) :
      Judging e event s w → Judging e event s (e.judgeTransition event t w).2

theorem Judging.undisturbed (h : Judging e event s w) : s.Undisturbed w.1 := by
  induction h with
  | start => exact .refl s
  | next t _ ih => exact ih.trans (e.undisturbed_judgeTransition event t _)

/-- The verdict on every transition is one that judging it gives. -/
def Verdicts (e : Engine σ) (event : Option Event) (s : Session σ) (verdict : Nat → Bool) : Prop :=
  ∀ r, ∃ w, Judging e event s w ∧
    (e.judgeTransition event (e.chart.transition r) w).1 = verdict r

/-- Guards without side effects leave one verdict only. -/
theorem Verdicts.eq_enables (pure : e.host.Pure) (h : Verdicts e event s verdict) (r : Nat) :
    verdict r = e.enables event s.configuration s.host (e.chart.transition r) := by
  have host {w : Session σ × List Fault} (hw : Judging e event s w) : w.1.host = s.host := by
    induction hw with
    | start => rfl
    | next t _ ih => exact (judgeTransition_pure event pure t).2.trans ih
  obtain ⟨w, hw, hverdict⟩ := h r
  rw [← hverdict, (judgeTransition_pure event pure _).1, hw.undisturbed.configuration, host hw]

theorem exists_verdicts_firstEnabled {rs : List Nat} (hw : Judging e event s w) (hnd : rs.Nodup) :
    Judging e event s (e.firstEnabled event rs w).2 ∧
      ∃ verdict, Verdicts e event s verdict ∧
        (e.firstEnabled event rs w).1 = rs.find? verdict := by
  induction rs generalizing w with
  | nil => exact ⟨hw, _, fun r => ⟨w, hw, rfl⟩, rfl⟩
  | cons r rs ih =>
    obtain ⟨hr, hnd⟩ := List.nodup_cons.mp hnd
    have hnext := hw.next (e.chart.transition r)
    rcases hj : e.judgeTransition event (e.chart.transition r) w with ⟨holds, w'⟩
    rw [hj] at hnext
    cases holds with
    | true =>
      simp only [firstEnabled, hj]
      exact ⟨hnext, fun r => (e.judgeTransition event (e.chart.transition r) w).1,
        fun r => ⟨w, hw, rfl⟩, by simp [hj]⟩
    | false =>
      simp only [firstEnabled, hj]
      obtain ⟨hlast, verdict, hverdict, hfind⟩ := ih hnext hnd
      -- This transition has been turned down, and none of the others is this one.
      refine ⟨hlast, fun u => if u = r then false else verdict u, fun u => ?_, ?_⟩
      · by_cases hu : u = r
        · exact ⟨w, hw, by simp [hu, hj]⟩
        · simpa [hu] using hverdict u
      · rw [hfind, List.find?_cons, if_pos rfl]
        refine List.find?_congr fun u hu => ?_
        have hne : u ≠ r := fun he => hr (he ▸ hu)
        rw [if_neg hne]

theorem exists_verdicts_enabled {ss : List Nat} (hw : Judging e event s w)
    (hnd : (ss.flatMap fun q => (e.chart.node q).transitions).Nodup) :
    ∃ verdict, Verdicts e event s verdict ∧ (e.enabled event ss w).1 =
      ss.filterMap fun q => (e.chart.node q).transitions.find? verdict := by
  induction ss generalizing w with
  | nil => exact ⟨_, fun r => ⟨w, hw, rfl⟩, rfl⟩
  | cons q ss ih =>
    obtain ⟨hq, hss, hdisj⟩ := List.nodup_append.mp (List.flatMap_cons ▸ hnd)
    obtain ⟨hnext, first, hfirst, hfind⟩ := exists_verdicts_firstEnabled hw hq
    rcases hf : e.firstEnabled event (e.chart.node q).transitions w with ⟨r, w'⟩
    rw [hf] at hnext hfind
    obtain ⟨rest, hrest, henabled⟩ := ih hnext hss
    refine ⟨fun u => if u ∈ (e.chart.node q).transitions then first u else rest u,
      fun u => ?_, ?_⟩
    · by_cases hu : u ∈ (e.chart.node q).transitions
      · simpa [hu] using hfirst u
      · simpa [hu] using hrest u
    · have hown : (e.chart.node q).transitions.find?
          (fun u => if u ∈ (e.chart.node q).transitions then first u else rest u) = r := by
        rw [show r = _ from hfind]
        exact List.find?_congr fun u hu => if_pos hu
      have hothers (q' : Nat) (hq' : q' ∈ ss) : (e.chart.node q').transitions.find?
          (fun u => if u ∈ (e.chart.node q).transitions then first u else rest u) =
          (e.chart.node q').transitions.find? rest :=
        List.find?_congr fun u hu =>
          if_neg fun hu' => hdisj u hu' u (List.mem_flatMap.mpr ⟨q', hq', hu⟩) rfl
      simp only [enabled, hf, List.filterMap_cons, hown]
      rw [henabled, List.filterMap_congr hothers]
      cases r <;> rfl

/-- States do not share transitions. -/
theorem transitions_nodup (wf : e.chart.WellFormed)
    (hasc : ∀ q, (e.chart.node q).transitions.Pairwise (· < ·)) (x : Configuration) :
    (x.toList.flatMap fun q => (e.chart.node q).transitions).Nodup := by
  refine List.nodup_flatMap.mpr ⟨fun q _ => (hasc q).imp Nat.ne_of_lt, ?_⟩
  refine x.ascending.imp fun {q q'} hlt r hr hr' => ?_
  have := (wf.source q r hr).2
  have := (wf.source q' r hr').2
  omega

/-- The transitions that a selection finds enabled. -/
def found (e : Engine σ) (event : Option Event) (s : Session σ) : List Nat :=
  (e.enabled event s.configuration.toList (s, [])).1

/-- What is selected is chosen among the offers, and these are what has been found enabled. -/
theorem exists_verdicts_of_select? {d : ChartDecl} (hb : d.build = .ok e.chart)
    (h : e.select? s event = some (ranks, s₁)) : ∃ verdict, Verdicts e event s verdict ∧
      e.chart.offered s.configuration verdict = e.found event s ∧
      e.chart.choose? s.configuration s.memory (e.chart.offered s.configuration verdict) =
        some ranks := by
  have wf := ChartDecl.wellFormed_of_build hb
  have hnodup := transitions_nodup wf (ChartDecl.transitions_ascending_of_build hb) s.configuration
  have hstart : Judging e event s (s, []) := .start
  obtain ⟨verdict, hverdict, henabled⟩ := exists_verdicts_enabled hstart hnodup
  refine ⟨verdict, hverdict, henabled.symm, ?_⟩
  obtain ⟨hsame, -⟩ := e.enabled_spec event s.configuration.toList (s, [])
  rcases he : e.enabled event s.configuration.toList (s, []) with ⟨rs, s₂, faults⟩
  rw [he] at henabled hsame
  simp only [select?, he, Option.map_eq_some_iff, Prod.mk.injEq] at h
  obtain ⟨chosen, hchosen, rfl, -⟩ := h
  rw [hsame.configuration, hsame.memory] at hchosen
  rw [Chart.offered, ← henabled]
  exact hchosen

end Engine

end Statechart

import Statechart.Proofs.InitialEntry
import Statechart.Proofs.Microstep
import Statechart.Proofs.Run

/-!
Safety of charts without history states. With at most one initial target on the root the first entry
is valid, and every microstep keeps a configuration valid, so validity holds at every point of every
run; and since nothing in the language can recur, every turn has an outcome.
-/
namespace Statechart

open Chart (root)
open Command (applyAll)

namespace Script

variable {c : Chart} {x : Configuration} {m : Memory} {i : Nat}

/-- Nothing stays active. -/
theorem stop_result (c : Chart) (x : Configuration) (m : Memory) :
    applyAll x (stop c x m).commands = StateSet.empty := by
  apply StateSet.ext
  intro i
  rw [stop, applyAll_exits, mem_foldl_erase]
  simp

/-- Three kinds of scripts, and one account of what they do. -/
theorem mem_stop_result : i ∈ applyAll x (stop c x m).commands ↔
    i ∈ x ∧ i ∉ (stop c x m).exited ∨ i ∈ (stop c x m).entered := by
  rw [stop_result]
  simp [stop]

theorem mem_start_result {script : Script} (h : start? c = some script) :
    i ∈ applyAll StateSet.empty script.commands ↔
      i ∈ StateSet.empty ∧ i ∉ script.exited ∨ i ∈ script.entered := by
  obtain ⟨p, -, hresult, hentered, -, -⟩ := start?_spec h
  rw [hresult, hentered]
  simp

end Script

namespace Engine

variable {σ : Type} {e : Engine σ} {c : Chart} {x : Configuration} {m : Memory} {ranks : List Nat}
  {script : Script} {event : Option Event} {s : Session σ}

theorem declared_of_offers (wf : c.WellFormed) (h : Offers c x m ranks) :
    ∀ t ∈ ranks.map c.transition, c.Declared t := by
  obtain ⟨rs, hchoose, hmem⟩ := h
  refine List.forall_mem_map.mpr fun r hr => ?_
  obtain ⟨q, -, hrq⟩ := hmem r ((Chart.choose?_spec hchoose).2.1 r hr)
  exact wf.declared hrq

/-- The transitions offered in a valid configuration can be taken together. -/
theorem ready_of_offers (wf : c.WellFormed) (hx : x.Valid c) (h : Offers c x m ranks) :
    c.Ready x m (ranks.map c.transition) := by
  obtain ⟨rs, hchoose, hmem⟩ := h
  refine Chart.ready_of_choose? wf hx (fun r hr => ?_) hchoose
  obtain ⟨q, hq, hrq⟩ := hmem r hr
  refine ⟨wf.declared hrq, ?_⟩
  rw [(wf.source q r hrq).2]
  exact hq

theorem lt_size_of_offers (wf : c.WellFormed) (h : Offers c x m ranks) :
    ∀ r ∈ ranks, r < c.transitions.size := by
  obtain ⟨rs, hchoose, hmem⟩ := h
  intro r hr
  obtain ⟨q, -, hrq⟩ := hmem r ((Chart.choose?_spec hchoose).2.1 r hr)
  exact (wf.source q r hrq).1

/-- Transitions are only offered where something is active. -/
theorem exists_active_of_offers (h : Offers c x m ranks) (hne : ranks ≠ []) : ∃ q, q ∈ x := by
  obtain ⟨rs, hchoose, hmem⟩ := h
  obtain ⟨r, ranks', rfl⟩ := List.exists_cons_of_ne_nil hne
  obtain ⟨q, hq, -⟩ := hmem r ((Chart.choose?_spec hchoose).2.1 r (by simp))
  exact ⟨q, hq⟩

theorem valid_of_offers (wf : c.WellFormed) (hx : x.validate c = .ok ())
    (h : Offers c x m ranks) (hne : ranks ≠ []) : x.Valid c := by
  obtain ⟨q, hq⟩ := exists_active_of_offers h hne
  exact (Configuration.validate_eq_ok_iff_of_mem wf hq).mp hx

theorem exists_select? (wf : e.chart.WellFormed) (g : e.chart.Grounded) (event : Option Event) :
    ∃ ranks s', e.select? s event = some (ranks, s') := by
  obtain ⟨hjudged, hmem⟩ := e.enabled_spec event s.configuration.toList (s, [])
  rcases he : e.enabled event s.configuration.toList (s, []) with ⟨rs, s₁, faults⟩
  rw [he] at hjudged hmem
  obtain ⟨ranks, hranks⟩ : ∃ ranks, e.chart.choose? s₁.configuration s₁.memory rs = some ranks := by
    apply Chart.exists_choose? wf g
    intro r hr
    obtain ⟨q, -, hrq⟩ := hmem r hr
    exact wf.declared hrq
  exact ⟨ranks, _, by simp [select?, he, hranks]; rfl⟩

section HistoryFree

variable (wf : c.WellFormed) (free : c.HistoryFree)
include wf free

/-- A microstep keeps a configuration valid, and makes all targets active. -/
theorem valid_of_take?_of_free (hx : x.validate c = .ok ()) (hoff : Offers c x m ranks)
    (hne : ranks ≠ [])
    (h : Script.take? c x m (ranks.map c.transition) = some script) :
    (applyAll x script.commands).validate c = .ok () ∧
      ∀ r ∈ ranks, ∀ t ∈ (c.transition r).targets, t ∈ applyAll x script.commands := by
  have hv := valid_of_offers wf hx hoff hne
  have sound := free.sound m
  have ready := ready_of_offers wf hv hoff
  obtain ⟨exits, outside, plan, made⟩ := Script.made_of_take? h
  constructor
  · refine (Configuration.validate_eq_ok_iff wf).mpr (.inr ?_)
    refine Script.Made.valid_of_entersFromOutside wf hv sound ready made free.separate
      (fun t _ => .inr fun u _ hu => absurd hu (by simp [free u]))
      (fun t _ u _ hu => absurd hu (by simp [free u]))
  · intro r hr t ht
    have htakes := (Script.Made.plan_spec wf hv sound made ready.declared).2 (c.transition r)
      (List.mem_map.mpr ⟨r, hr, rfl⟩)
    exact (made.mem_result t).mpr (.inr ((htakes.targets t ht).self (free t)))

theorem valid_of_start?_of_free (hroot : ∀ ts as, (c.node root).kind = .compound ⟨ts, as⟩ →
    ts.length ≤ 1) (h : Script.start? c = some script) :
    (applyAll StateSet.empty script.commands).validate c = .ok () := by
  refine (Configuration.validate_eq_ok_iff wf).mpr (.inr ?_)
  refine Script.valid_of_start? wf free.separate ?_ h
  by_cases hpar : (c.node root).isParallel = true
  · exact .inl hpar
  · refine .inr ?_
    rw [Chart.defaultEntry, if_neg hpar, Chart.defaultTargets]
    split
    · rename_i t ts as hk
      exact hroot (t :: ts) as hk
    · exact List.length_take_le 1 _

end HistoryFree

/-- Validity is an invariant of charts without history states. -/
theorem invariant_valid {d : ChartDecl} (hb : d.build = .ok e.chart) (free : e.chart.HistoryFree)
    (hone : d.initial.length ≤ 1) :
    Invariant e fun x _ => x.validate e.chart = .ok () where
  fresh := rfl
  start script h := valid_of_start?_of_free (ChartDecl.wellFormed_of_build hb) free
    (fun _ _ hk => (ChartDecl.initial_of_build hb hk).trans hone) h
  step _ _ _ _ hx hoff hne h :=
    (valid_of_take?_of_free (ChartDecl.wellFormed_of_build hb) free hx hoff hne h).1
  stop x m _ := by
    rw [Script.stop_result]
    rfl

theorem exists_turn?_of_free (wf : e.chart.WellFormed) (free : e.chart.HistoryFree)
    {m : Macrostep σ} (hm : m.session.configuration.validate e.chart = .ok ()) :
    ∃ t, e.turn? m = some t := by
  refine Engine.exists_turn? (fun m₀ event _ => ?_) (fun m₀ event ranks s hasks hsel hne => ?_)
  · exact exists_select? wf free.grounded event
  · have hoff := offers_of_select? hsel
    obtain ⟨hsame, -, -⟩ := e.select?_spec hsel
    rw [← hasks.same.1, ← hsame.configuration] at hm
    have hv := valid_of_offers wf hm hoff hne
    have ready := ready_of_offers wf hv hoff
    obtain ⟨script, hscript⟩ := Script.exists_take? wf free.grounded hv.real
      (free.sound s.memory).proper ready.declared
    unfold step?
    simp only
    split
    · exact ⟨_, rfl⟩
    · exact ⟨_, by simp [microstep?_eq, hscript]; rfl⟩

/-- Configuration safety of charts without history states whose root declares at most one initial
target: every session reached is in a valid configuration, every microstep leads from a valid
configuration to a valid one, takes away what it exits and brings what it enters, all targets among
it; and neither the first entry nor any turn is without an outcome. -/
theorem historyFree_safety {d : ChartDecl} (hb : d.build = .ok e.chart)
    (free : e.chart.HistoryFree) (hone : d.initial.length ≤ 1) :
    (∀ s, Reachable e s → s.configuration.validate e.chart = .ok ()) ∧
    (∀ s ranks w s', Performs e s ranks w s' →
      s.configuration.validate e.chart = .ok () ∧ s'.configuration.validate e.chart = .ok () ∧
      (∀ i, i ∈ s'.configuration ↔ i ∈ s.configuration ∧ i ∉ w.exited ∨ i ∈ w.entered) ∧
      ∀ r ∈ ranks, ∀ t ∈ (e.chart.transition r).targets, t ∈ s'.configuration) ∧
    (∀ s : Session σ, ∃ w, e.enterInitial? none s.blank = some w) ∧
    ∀ m, Visits e m → ∃ t, e.turn? m = some t ∧
      (t.session.configuration = m.session.configuration ∨
        ∃ s ranks w, Performs e s ranks w t.session) := by
  have wf := ChartDecl.wellFormed_of_build hb
  have inv := invariant_valid hb free hone
  refine ⟨fun s hs => inv.reachable hs, fun s ranks w s' h => ?_, fun s => ?_, fun m hm => ?_⟩
  · cases h with
    | @entry s _ hs hidle hw =>
      rw [enterInitial?_eq e none rfl rfl] at hw
      obtain ⟨script, hscript, rfl⟩ := Option.map_eq_some_iff.mp hw
      refine ⟨rfl, inv.entered hscript s, fun i => ?_, by simp⟩
      rw [settle_play, (e.followed_follow none _ script).configuration]
      exact Script.mem_start_result hscript
    | step hm hasks hsel hne hw _ =>
      rw [take?_eq] at hw
      obtain ⟨script, hscript, rfl⟩ := Option.map_eq_some_iff.mp hw
      have hx := inv.visits hm
      obtain ⟨hsame, -, -⟩ := e.select?_spec hsel
      rw [← hasks.same.1, ← hsame.configuration] at hx
      obtain ⟨hvalid, htargets⟩ :=
        valid_of_take?_of_free wf free hx (offers_of_select? hsel) hne hscript
      rw [settle_play, (e.followed_follow _ s script).configuration]
      exact ⟨hx, hvalid, fun i => Script.mem_result_iff hscript, htargets⟩
    | exit hs hidle =>
      have hx := inv.reachable hs
      rw [(e.followed_stop s hidle).configuration, exitAll_eq]
      refine ⟨hx, ?_, fun i => Script.mem_stop_result, by simp⟩
      rw [Script.stop_result]
      rfl
  · obtain ⟨script, hscript⟩ := Script.exists_start? wf free.grounded
    exact ⟨_, by rw [enterInitial?_eq e none rfl rfl, hscript, Option.map_some]⟩
  · obtain ⟨t, ht⟩ := exists_turn?_of_free wf free (inv.visits hm)
    exact ⟨t, ht, performs_or_unchanged hm ht⟩

/-- After the crossing is started its lights show a valid configuration. -/
theorem crossing_safety : crossing.chart.HistoryFree ∧ crossing.initial.length ≤ 1 ∧
    ∃ s, Reachable (bare crossing.chart) s ∧ s.configuration.toList = [1, 2, 3, 5, 6] ∧
      s.configuration.validate crossing.chart = .ok () := by
  have free : crossing.chart.HistoryFree := by decide +kernel
  have hone : crossing.initial.length ≤ 1 := by decide
  have hrun : ((bare crossing.chart).serve? 1 { host := () } .start).map
      (·.session.configuration.toList) = some [1, 2, 3, 5, 6] := by decide +kernel
  obtain ⟨a, ha, hlist⟩ := Option.map_eq_some_iff.mp hrun
  have hs : Reachable (bare crossing.chart) a.session := .served 1 .start (.fresh ()) ha
  exact ⟨free, hone, a.session, hs, hlist,
    (historyFree_safety (e := bare crossing.chart) crossing_builds free hone).1 a.session hs⟩

end Engine

end Statechart

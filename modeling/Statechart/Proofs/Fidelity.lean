import Statechart.Proofs.Chronicle
import Statechart.Proofs.Restoration
import Statechart.Proofs.Safety

/-!
Fidelity of histories. The memory tells how the parent of each history state was left the last time,
however long ago that was and whatever has become of the other records; and a transition back finds
it as it was left.
-/
namespace Statechart

open Chart (root)
open Command (applyAll)

namespace Chart

/-- The states below `q` that a history state of `q` remembers. -/
def Remembers (c : Chart) (q : Nat) : HistoryDepth → Nat → Prop
  | .shallow, i => c.parent i = some q
  | .deep, i => (c.node i).isAtomic = true ∧ c.Below i q

/-- The states below `q` that a history state of `q` brings back. -/
def Restores (c : Chart) (q : Nat) : HistoryDepth → Nat → Prop
  | .shallow, i => c.parent i = some q
  | .deep, i => c.Below i q

theorem mem_toRecord_iff (c : Chart) (x : Configuration) (q i : Nat) (depth : HistoryDepth) :
    i ∈ c.toRecord x q depth ↔ i ∈ x ∧ c.Remembers q depth i := by
  cases depth <;> exact c.mem_toRecord x q _

end Chart

namespace Engine

variable {σ : Type} {e : Engine σ} {s : Session σ} {moment : Moment σ} {past : List Passage}
  {p : Passage} {r : Request} {q : Nat}

/-- No history state is ever active, and no record names one. -/
theorem invariant_proper (wf : e.chart.WellFormed) :
    Invariant e fun x m => (∀ s ∈ x, e.chart.isHistory s = false) ∧ m.Proper e.chart where
  fresh := ⟨fun s hs => absurd hs (StateSet.not_mem_empty s), (Memory.sound_empty e.chart).proper⟩
  start script h := by
    obtain ⟨p, hp, hresult, -, -, hmem⟩ := Script.start?_spec h
    rw [EntryPlan.initial?_eq] at hp
    have hgrow := (EntryPlan.extends_entryOf? wf (wf.defaultEntry_spec wf.root_inner).1 hp).1
    rw [hresult, hmem]
    exact ⟨fun s hs => hgrow.real s hs (StateSet.not_mem_empty s),
      (Memory.sound_empty e.chart).proper⟩
  step x m ranks script hxm hoff _ h := by
    obtain ⟨exits, outside, plan, made⟩ := Script.made_of_take? h
    obtain ⟨hreal, proper⟩ := hxm
    have proper' : script.memory.Proper e.chart :=
      made.memory_eq ▸ proper.recordHistory wf hreal exits
    have hgrow := EntryPlan.grows_foldlM wf proper' (declared_of_offers wf hoff) made.plan_eq
    refine ⟨fun s hs => ?_, proper'⟩
    rcases (made.mem_result s).mp hs with hs | hs
    · exact hreal s ((made.mem_outside s).mp hs).1
    · exact hgrow.real s hs (StateSet.not_mem_empty s)
  stop x m hxm := by
    rw [Script.stop_result]
    exact ⟨fun s hs => absurd hs (StateSet.not_mem_empty s), hxm.2⟩

/-- What is told of the past are microsteps of the chart. -/
theorem Recounts.exists_take? (hm : Recounts e moment past) (hp : p ∈ past) :
    ∃ m ts, Script.take? e.chart p.before m ts = some p.script := by
  have since {s : Session σ} {r : Request} {past : List Passage} (hp : p ∈ r.since s past) :
      p ∈ past := by
    unfold Request.since at hp
    split at hp
    · split at hp
      · simp at hp
      · exact hp
    · exact hp
  induction hm with
  | fresh host => simp at hp
  | answered bound _ _ _ ih => exact ih (since hp)
  | begins _ _ ih => exact ih (since hp)
  | turn _ _ hmakes ih =>
    rcases List.mem_append.mp hp with hp | hp
    · exact ih hp
    · rcases hmakes.spec with ⟨rfl, -⟩ | ⟨ranks, script, rfl, hscript, -⟩
      · simp at hp
      · obtain rfl := List.mem_singleton.mp hp
        exact ⟨_, _, hscript⟩

/-- What a microstep exits was active before, and is not the root. -/
theorem Recounts.exited_spec (wf : e.chart.WellFormed) (hm : Recounts e moment past) (hp : p ∈ past)
    (hq : q ∈ p.script.exited) : q ∈ p.before ∧ q ≠ root := by
  obtain ⟨m, ts, htake⟩ := hm.exists_take? hp
  obtain ⟨exits, outside, plan, made⟩ := Script.made_of_take? htake
  have hqe := (made.mem_exited q).mp hq
  exact ⟨((made.mem_exits q).mp hqe).1, Script.Made.ne_root_of_exited wf made hqe⟩

/-- At every point of every run the memory holds a record under a history state exactly if a
microstep since the last start has exited its parent `q`, and the record lists what was active there
just before the last such microstep, in document order: the children of `q`, or the states without
children below it. If the configuration just before that microstep was valid, then a transition to
the history state alone, taken in a valid configuration without `q`, makes `q` active with exactly
the children, or the descendants, that were active then. -/
theorem history_fidelity {d : ChartDecl} (hb : d.build = .ok e.chart) :
    (∀ s, Reachable e s → ∃ past, Recounts e (.resting s) past) ∧
    (∀ m, Visits e m → ∃ past, Recounts e (.turning m) past) ∧
    ∀ moment past, Recounts e moment past → ∀ h q depth default,
      (e.chart.node h).kind = .history depth default → e.chart.parent h = some q →
      ((∀ p ∈ past, q ∉ p.script.exited) → moment.session.memory.get? h = none) ∧
      ∀ earlier p later, past = earlier ++ p :: later → q ∈ p.script.exited →
        (∀ p' ∈ later, q ∉ p'.script.exited) →
        (∃ record, moment.session.memory.get? h = some record ∧ record.Pairwise (· < ·) ∧
          ∀ i, i ∈ record ↔ i ∈ p.before ∧ e.chart.Remembers q depth i) ∧
        (p.before.validate e.chart = .ok () →
          moment.session.configuration.validate e.chart = .ok () →
          q ∉ moment.session.configuration →
          ∀ u ∈ moment.session.configuration, ∀ r ∈ (e.chart.node u).transitions,
          (e.chart.transition r).targets = [h] → ∀ event,
          (e.chart.Grounded → ∃ s', e.microstep? moment.session [r] event = some s') ∧
          ∀ s', e.microstep? moment.session [r] event = some s' →
            q ∈ s'.configuration ∧
              ∀ i, e.chart.Restores q depth i → (i ∈ s'.configuration ↔ i ∈ p.before)) := by
  have wf := ChartDecl.wellFormed_of_build hb
  refine ⟨fun s hs => exists_recounts hs, fun m hm => exists_recounts_of_visits hm,
    fun moment past hpast h q depth default hkind hq => ?_⟩
  have hh : e.chart.isHistory h = true := by simp [Chart.isHistory, Node.isHistory, hkind]
  have hmemory := hpast.get?_memory wf hh hq
  refine ⟨fun hnever => hmemory.trans (recollect_of_never hnever), ?_⟩
  rintro earlier p later rfl hexit hlater
  have hget := hmemory.trans (recollect_of_last hexit hlater)
  have hrecord : e.chart.recorded p.before h = e.chart.toRecord p.before q depth := by
    simp only [Chart.recorded, hkind, hq]
  obtain ⟨hqy, hroot⟩ := hpast.exited_spec wf (p := p) (by simp) hexit
  refine ⟨⟨_, hget, hrecord ▸ e.chart.toRecord_ascending p.before q depth, fun i => ?_⟩, ?_⟩
  · rw [hrecord]
    exact e.chart.mem_toRecord_iff p.before q i depth
  · intro hy hx hqx u hu r hr htargets event
    have hy := (Configuration.validate_eq_ok_iff_of_mem wf hqy).mp hy
    have hx := (Configuration.validate_eq_ok_iff_of_mem wf hu).mp hx
    obtain ⟨hreal, proper⟩ := (invariant_proper wf).recounts hpast
    have back : Returns e.chart moment.session.memory moment.session.configuration p.before h q
        (e.chart.transition r) :=
      ⟨proper, hx, hqx, hy, hqy, hroot, hh, hq, hget, wf.declared hr,
        (wf.source u r hr).2 ▸ hu, htargets⟩
    refine ⟨fun g => ?_, fun s' hs' => ?_⟩
    · have hdeclared : ∀ tr ∈ [e.chart.transition r], e.chart.Declared tr := by
        simpa using wf.declared hr
      obtain ⟨script, hscript⟩ := Script.exists_take? wf g hreal proper hdeclared
      exact ⟨_, by rw [microstep?_eq, List.map_singleton, hscript]; rfl⟩
    · rw [microstep?_eq] at hs'
      obtain ⟨script, hscript, rfl⟩ := Option.map_eq_some_iff.mp hs'
      rw [List.map_singleton] at hscript
      rw [(e.followed_follow event moment.session script).configuration]
      refine ⟨(back.result_spec wf hscript).1, ?_⟩
      cases depth with
      | deep => exact fun i hi => back.deep wf hscript hkind hi
      | shallow => exact fun i hi => back.shallow wf hscript hkind hi

/-- Work that can be left and taken up again where it was. -/
def resuming : ChartDecl where
  name := "Resuming"
  initial := ["a2"]
  states := [
    ((((StateDecl.plain "work").withChild
      (((StateDecl.plain "a").withChild (.plain "a1")).withChild (.plain "a2"))).withChild
      (.history "h" .deep)).withTransition (.simple "leave" "off")),
    (StateDecl.plain "off").withTransition (.simple "back" "h")]

theorem resuming_grounded : resuming.chart.Grounded :=
  Chart.grounded_of_leads (by decide +kernel)

/-- The work is left in its second step and taken up again there, though by default it would begin
with the first. -/
theorem resuming_restored : resuming.build = .ok resuming.chart ∧
    ∃ (moment : Moment Unit) (past : List Passage) (p : Passage) (record : List Nat)
      (s' : Session Unit), Recounts (bare resuming.chart) moment (past ++ [p]) ∧
      p.before.toList = [1, 2, 4] ∧ 1 ∈ p.script.exited ∧
      moment.session.configuration.toList = [6] ∧
      moment.session.memory.get? 5 = some record ∧ 4 ∈ record ∧
      (bare resuming.chart).microstep? moment.session [1] (some (.external "back")) = some s' ∧
      1 ∈ s'.configuration ∧ 4 ∈ s'.configuration ∧ 3 ∉ s'.configuration := by
  have hb : resuming.build = .ok (bare resuming.chart).chart :=
    ChartDecl.build_eq_chart (by decide +kernel)
  have hrun : (((bare resuming.chart).serve? 4 { host := () } .start).bind fun a =>
      ((bare resuming.chart).turn? (opening { a.session with
        queues := a.session.queues.push (.external "leave") } false)).map fun t =>
        (a.session.isRunning, a.session.configuration, t.moment.session.configuration)) =
      some (true, StateSet.ofList [1, 2, 4], StateSet.ofList [6]) := by decide +kernel
  obtain ⟨a, ha, hturn⟩ := Option.bind_eq_some_iff.mp hrun
  obtain ⟨t, ht, hfacts⟩ := Option.map_eq_some_iff.mp hturn
  simp only [Prod.mk.injEq] at hfacts
  obtain ⟨hrunning, hbefore, hafter⟩ := hfacts
  obtain ⟨hcover, -, hall⟩ := history_fidelity (e := bare resuming.chart) hb
  obtain ⟨past, hpast⟩ := hcover a.session (.served 4 .start (.fresh ()) ha)
  obtain ⟨new, hnew⟩ := exists_makes ht
  have hmoment := (hpast.begins (.submit (.external "leave") hrunning)).turn ht hnew
  -- The turn has left the work, so it has made a microstep.
  obtain ⟨script, rfl, hexit⟩ : ∃ script, new = [⟨a.session.configuration, script⟩] ∧
      1 ∈ script.exited := by
    rw [Turn.session_moment] at hafter
    rcases hnew.spec with ⟨-, hsame, -⟩ | ⟨ranks, script, rfl, htake, hresult, -⟩
    · have hstay : t.session.configuration = StateSet.ofList [1, 2, 4] := hsame.trans hbefore
      exact absurd (hafter.symm.trans hstay) (by decide)
    · refine ⟨script, rfl, by_contra fun hn => ?_⟩
      have hone := (Script.mem_result_iff (i := 1) htake).mpr (.inl ⟨?_, hn⟩)
      · rw [← hresult, hafter] at hone
        exact absurd hone (by decide)
      · change 1 ∈ a.session.configuration
        rw [hbefore]
        decide
  obtain ⟨-, hlast⟩ := hall _ _ hmoment 5 1 .deep none (by decide +kernel) (by decide +kernel)
  obtain ⟨⟨record, hget, -, hmem⟩, hback⟩ := hlast past _ [] rfl hexit (by simp)
  have hbelow (i : Nat) (hi : resuming.chart.isDescendant i 1 = true) :
      resuming.chart.Below i 1 := Ancestry.isDescendant_iff.mp hi
  simp only [hbefore, hafter] at hmem hback
  obtain ⟨hexists, hrestore⟩ := hback (by decide +kernel) (by decide +kernel) (by decide) 6
    (by decide) 1 (by decide +kernel) (by decide +kernel) (some (.external "back"))
  obtain ⟨s', hs'⟩ := hexists resuming_grounded
  obtain ⟨hone, hiff⟩ := hrestore s' hs'
  refine ⟨hb, t.moment, past, _, record, s', hmoment,
    (congrArg StateSet.toList hbefore).trans (by decide), hexit,
    (congrArg StateSet.toList hafter).trans (by decide), hget, ?_, hs', hone, ?_, ?_⟩
  · exact (hmem 4).mpr ⟨by decide, by decide +kernel, hbelow 4 (by decide +kernel)⟩
  · exact (hiff 4 (hbelow 4 (by decide +kernel))).mpr (by decide)
  · exact fun h => absurd ((hiff 3 (hbelow 3 (by decide +kernel))).mp h) (by decide)

end Engine

end Statechart

import Statechart.Proofs.Acceptance
import Statechart.Proofs.Restoration
import Statechart.Proofs.Safety

/-!
Resuming from a checkpoint. The records of an accepted checkpoint need not have been written on
leaving a valid configuration, so when the interpreter comes back through a history state it enters
what the record names, but what it enters may be more than can be active together.
-/
namespace Statechart

open Chart (root)
open Command (applyAll)

/-- A transition whose only target is a history state with a record, in a valid configuration without
the parent of the history state. -/
structure Resumes (c : Chart) (m : Memory) (x : Configuration) (h q : Nat) (ss : List Nat)
    (t : Transition) : Prop where
  filled : m.Filled c
  valid : x.Valid c
  inactive : q ∉ x
  history : c.isHistory h = true
  parent : c.parent h = some q
  recorded : m.get? h = some ss
  declared : c.Declared t
  source : t.source ∈ x
  targets : t.targets = [h]

namespace Resumes

variable {c : Chart} {m : Memory} {x outside : Configuration} {h q i : Nat} {ss : List Nat}
  {t : Transition} {script : Script} {exits : StateSet} {plan : EntryPlan}

section Back

variable (wf : c.WellFormed) (back : Resumes c m x h q ss t)
include wf back

theorem ready (g : c.Grounded) : c.Ready x m [t] := by
  refine ⟨by simpa using back.declared, by simpa using back.source, ?_, List.pairwise_singleton _ _⟩
  simpa using Chart.exists_effectiveTargets? wf g back.declared

/-- A parent that is not active does not contain the source. -/
theorem entersFromOutside (hroot : q ≠ root) : ∀ u ∈ [t], c.EntersFromOutside u := by
  simp only [List.mem_singleton, forall_eq]
  intro u hu _ p hp hbelow
  rw [back.targets, List.mem_singleton] at hu
  subst hu
  obtain rfl := Option.some.inj (back.parent.symm.trans hp)
  exact back.inactive
    (back.valid.attached.mem_of_within wf back.source hbelow.within hroot)

variable (g : c.Grounded) (made : Script.Made c x m [t] script exits outside plan)
include made

/-- The record is still there when the history state is entered. -/
theorem get?_script : script.memory.get? h = some ss := by
  have hkept : q ∉ exits := fun hexit => back.inactive ((made.mem_exits q).mp hexit).1
  rw [made.memory_eq, Chart.get?_recordHistory_of_kept wf back.parent hkept, back.recorded]

/-- Everything recorded becomes active. -/
theorem mem_result (hi : i ∈ ss) : i ∈ applyAll x script.commands := by
  have htakes := (Script.Made.plan_spec wf back.valid back.filled made
    (by simpa using back.declared)).2 t (by simp)
  obtain ⟨es, hes, hreach⟩ := htakes.resolved
  have hie := (EntryPlan.mem_effective_of_recorded back.history back.parent
    (back.get?_script wf made) back.targets hes).mpr hi
  have hreal := (back.filled.proper h q ss back.history back.parent back.recorded i hi).2
  exact (made.mem_result i).mpr (.inr ((hreach i hie).self hreal))

include g

/-- With its parent active again. -/
theorem parent_mem_result (hroot : q ≠ root) : q ∈ applyAll x script.commands := by
  have ready := back.ready wf g
  have steady : c.Steady m script.memory [t] := fun u hu =>
    Script.Made.steady_of_entersFromOutside wf back.valid back.filled ready made
      (back.entersFromOutside wf hroot) hu
  have rooted := Script.Made.rooted_of_steady wf back.valid back.filled ready made steady
  have hne := back.filled.nonempty h q ss back.history back.parent back.recorded
  obtain ⟨i, hi⟩ := List.exists_mem_of_ne_nil _ hne
  have hbelow := (back.filled.proper h q ss back.history back.parent back.recorded i hi).1
  exact rooted.attached.mem_of_within wf (back.mem_result wf made hi) hbelow.within hroot

end Back

end Resumes

namespace Engine

variable {σ : Type} {e : Engine σ}

/-- What an accepted checkpoint leads to. The configuration is valid. A transition of an active state
to a history state with a record, whose parent is not active, has an outcome unless the defaults of
history states lead back to themselves, and makes everything recorded active, with the parent. The
outcome is valid exactly when nothing is missing above what is active, nothing is entered outside
the domain, and no compound state is entered twice; only the last can fail, unless the history state
belongs to the root. So it is not valid when the record names states that cannot be active together,
which nothing has checked, and it is valid when initial targets are separate and every record could
have been written on leaving a valid configuration. -/
theorem restored_history_entry {d : ChartDecl} (hb : d.build = .ok e.chart) (g : e.chart.Grounded)
    {s₀ s : Session σ} {c : Checkpoint} (hrestored : e.restore s₀ c = .ok s) {h q u r : Nat}
    {ss : List Nat} (hh : e.chart.isHistory h = true) (hq : e.chart.parent h = some q)
    (hget : s.memory.get? h = some ss) (hinactive : q ∉ s.configuration)
    (hu : u ∈ s.configuration) (hr : r ∈ (e.chart.node u).transitions)
    (htargets : (e.chart.transition r).targets = [h]) (event : Option Event) :
    s.configuration.validate e.chart = .ok () ∧ ∃ script s',
      Script.take? e.chart s.configuration s.memory [e.chart.transition r] = some script ∧
      e.microstep? s [r] event = some s' ∧
      (∀ i ∈ ss, i ∈ s'.configuration) ∧ (q ≠ root → q ∈ s'.configuration) ∧
      (s'.configuration.validate e.chart = .ok () ↔
        s'.configuration.Rooted e.chart ∧
          script.Confined e.chart s.memory [e.chart.transition r] ∧
          e.chart.Exclusive (StateSet.ofList script.entered)) ∧
      (q ≠ root → (s'.configuration.validate e.chart = .ok () ↔
        e.chart.Exclusive (StateSet.ofList script.entered))) ∧
      (s'.configuration.validate e.chart = .ok () → ∀ i ∈ ss, ∀ j ∈ ss, e.chart.Agree i j) ∧
      (q ≠ root → e.chart.Separate → s.memory.Sound e.chart →
        s'.configuration.validate e.chart = .ok ()) := by
  have wf := ChartDecl.wellFormed_of_build hb
  obtain ⟨active, records, internal, external, acc, rfl⟩ := restore_eq_ok_iff.mp hrestored
  have hx := (Configuration.validate_eq_ok_iff_of_mem wf hu).mp acc.valid
  have hdeclared := wf.declared hr
  have hsource : (e.chart.transition r).source ∈ StateSet.ofList active :=
    (wf.source u r hr).2 ▸ hu
  have back : Resumes e.chart (Memory.ofRecords records) (StateSet.ofList active) h q ss
      (e.chart.transition r) :=
    ⟨acc.filled, hx, hinactive, hh, hq, hget, hdeclared, hsource, htargets⟩
  have ready := back.ready wf g
  obtain ⟨script, hscript⟩ := Script.exists_take? wf g hx.real acc.filled.proper ready.declared
  obtain ⟨exits, outside, plan, made⟩ := Script.made_of_take? hscript
  obtain ⟨i, hi⟩ := List.exists_mem_of_ne_nil _ (acc.filled.nonempty h q ss hh hq hget)
  have hmem := back.mem_result wf made hi
  have hvalid := Configuration.validate_eq_ok_iff_of_mem wf hmem
  refine ⟨acc.valid, script, _, hscript, by rw [microstep?_eq, List.map_singleton, hscript]; rfl, ?_⟩
  rw [(e.followed_follow event _ script).configuration, hvalid]
  refine ⟨fun i hi => back.mem_result wf made hi, fun hroot => back.parent_mem_result wf g made hroot,
    Script.Made.valid_iff_confined wf hx acc.filled ready made, fun hroot => ?_,
    fun hv i hi j hj => ?_, fun hroot sep sound => ?_⟩
  · exact Script.Made.valid_iff_of_entersFromOutside wf hx acc.filled ready made
      (back.entersFromOutside wf hroot)
  · exact hv.compatible wf i (back.mem_result wf made hi) j (back.mem_result wf made hj)
  · have hlone : ∀ t ∈ [e.chart.transition r], e.chart.Lone t.targets := by
      simpa using sep.targets r (wf.source u r hr).1
    exact Script.Made.valid_of_entersFromOutside wf hx sound ready made sep hlone
      (back.entersFromOutside wf hroot)

end Engine

/-- A player that takes up again where it was switched off. -/
def player : ChartDecl where
  name := "Player"
  states := [
    (((StateDecl.plain "on").withChild (.history "last" .deep)).withChild
      (.plain "stopped")).withChild (.plain "playing"),
    (StateDecl.plain "off").withTransition (.simple "power" "last")]

theorem player_grounded : player.chart.Grounded :=
  Chart.grounded_of_leads (by decide +kernel)

/-- Switched off, as a checkpoint says, while it was stopped and playing at once. -/
def switchedOff : Checkpoint where
  version := 1
  id := .nil
  timestamp := default
  chart := "Player"
  session := .nil
  status := .awaitingExternal
  active := ["off"]
  history := .ofWrites [("last", ["stopped", "playing"])]
  internal := []
  external := []

namespace Engine

/-- The checkpoint is accepted, and when it is switched on again the player is stopped and playing at
once. -/
theorem player_not_valid : player.build = .ok player.chart ∧ player.chart.Grounded ∧
    ∃ s s' : Session Unit, (bare player.chart).restore { host := () } switchedOff = .ok s ∧
      s.configuration.validate player.chart = .ok () ∧
      (bare player.chart).microstep? s [0] (some (.external "power")) = some s' ∧
      s'.configuration.validate player.chart ≠ .ok () := by
  have hb : player.build = .ok player.chart := ChartDecl.build_eq_chart (by decide +kernel)
  have hrestore : ((bare player.chart).restore { host := () } switchedOff).toOption.map
      (fun s => (s.configuration, s.memory.get? 2)) =
      some (StateSet.ofList [5], some [3, 4]) := by decide +kernel
  cases hs : (bare player.chart).restore { host := () } switchedOff with
  | error _ => simp [hs, Except.toOption] at hrestore
  | ok s =>
    simp only [hs, Except.toOption, Option.map_some, Option.some.injEq, Prod.mk.injEq] at hrestore
    obtain ⟨hconfiguration, hget⟩ := hrestore
    obtain ⟨hvalid, script, s', -, hstep, -, -, -, -, hagree, -⟩ :=
      restored_history_entry (e := bare player.chart) hb player_grounded hs (h := 2) (q := 1)
        (u := 5) (r := 0) (by decide +kernel) (by decide +kernel) hget
        (by rw [hconfiguration]; decide) (by rw [hconfiguration]; decide) (by decide +kernel)
        (by decide +kernel) (some (.external "power"))
    refine ⟨hb, player_grounded, s, s', rfl, hvalid, hstep, fun hvalid' => ?_⟩
    have hapart := hagree hvalid' 3 (by simp) 4 (by simp) 1 3 4 (by decide +kernel)
      (by decide +kernel) (.refl _ 3) (.refl _ 4)
    exact absurd hapart (by decide +kernel)

end Engine

end Statechart

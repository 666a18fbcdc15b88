import Statechart.Proofs.Announcement
import Statechart.Proofs.Courses

/-!
Done events. Every announcement in the script of a microstep appends the done event of a state to
the internal queue. A parallel state is complete when its done event is appended unless it has a
final child, for then it can never be. And a parallel state that becomes complete gets its done
event when the last final state that counts for it is a grandchild of it, so always when none of its
regions is parallel; when the last one lies deeper there is no done event.
-/
namespace Statechart

open Chart (root)
open Command (Along along_append along_iff along_of_still applyAll IsCall isCall_of_mem_calls
  still_of_mem_calls)

namespace Configuration

variable {c : Chart} {x : Configuration} {g : Nat}

/-- Some final state that counts for it is active when a state is complete. -/
theorem exists_concluding_of_isFinal (wf : c.WellFormed) (hx : x.isFinal c g = true) :
    ∃ f ∈ x, c.Concludes f g := by
  have within {n q : Nat} (h : x.isFinalWithin c n q = true) : ∃ f ∈ x, c.Concludes f q := by
    induction n generalizing q with
    | zero => simp [isFinalWithin] at h
    | succ n ih =>
      unfold isFinalWithin at h
      cases hk : (c.node q).kind with
      | parallel =>
        simp only [hk, List.all_eq_true] at h
        have hq := Node.isParallel_iff.mpr hk
        obtain ⟨r, hr⟩ := wf.exists_region q (.inr hq)
        obtain ⟨f, hf, hfr⟩ := ih (h r hr)
        exact ⟨f, hf, .region hq hr hfr⟩
      | compound i =>
        simp only [hk, List.any_eq_true, Bool.and_eq_true, StateSet.contains_iff] at h
        have hq := Node.isCompound_iff.mpr ⟨i, hk⟩
        obtain ⟨f, hf, hfinal, hfx⟩ := h
        exact ⟨f, hfx, .child hq hf hfinal⟩
      | atomic => simp [hk] at h
      | final => simp [hk] at h
      | history d i => simp [hk] at h
  exact within hx

/-- In a valid configuration a state that is not active is not complete. -/
theorem not_isFinal_of_inactive (wf : c.WellFormed) (hx : x.validate c = .ok ()) (hg : g ≠ root)
    (hgx : g ∉ x) : x.isFinal c g = false := by
  rw [← Bool.not_eq_true]
  intro hfinal
  obtain ⟨f, hf, hfg⟩ := exists_concluding_of_isFinal wf hfinal
  have hattached := ((validate_eq_ok_iff_of_mem wf hf).mp hx).attached
  exact hgx (hattached.mem_of_within wf hf (Chart.below_of_concludes wf hfg).within hg)

end Configuration

namespace Script

variable {c : Chart} {x outside : Configuration} {m : Memory} {ts : List Transition}
  {script : Script} {plan : EntryPlan} {g : Nat}

/-- The script is that of a microstep out of `x`, or that of the first entry. -/
inductive Composed (c : Chart) (x : Configuration) : Script → Prop
  | take {script : Script} (m : Memory) (ts : List Transition) : take? c x m ts = some script →
      Composed c x script
  | start {script : Script} : x = StateSet.empty → start? c = some script → Composed c x script

/-- The entries of a script come last, and nothing is announced before them. -/
structure Enters (c : Chart) (x : Configuration) (script : Script) (outside : Configuration)
    (plan : EntryPlan) : Prop where
  commands : ∃ before, (∀ g, .announce g ∉ before) ∧ applyAll x before = outside ∧
    script.commands = before ++ (plan.arrive c outside).commands
  entered : script.entered = (plan.arrive c outside).entered
  finished : script.finished = (plan.arrive c outside).finished
  outside_subset : ∀ i ∈ outside, i ∈ x

theorem not_announce_of_mem_exits {ss : List Nat} : .announce g ∉ ss.flatMap c.exitCommands := by
  intro h
  obtain ⟨s, -, h⟩ := List.mem_flatMap.mp h
  rcases List.mem_append.mp h with h | h
  · obtain ⟨call, hcall⟩ := isCall_of_mem_calls h
    cases hcall
  · simp at h

theorem enters_of_take? (h : take? c x m ts = some script) :
    ∃ outside plan, Enters c x script outside plan := by
  simp only [take?, Option.bind_eq_bind, Option.bind_eq_some_iff, Option.some.injEq] at h
  obtain ⟨exits, -, plan, -, rfl⟩ := h
  refine ⟨_, plan, ⟨_, fun g hg => ?_, ?_, rfl⟩, rfl, rfl,
    fun i hi => ((mem_foldl_erase _ x).mp hi).1⟩
  · rcases List.mem_append.mp hg with hg | hg
    · exact not_announce_of_mem_exits hg
    · obtain ⟨t, -, hg⟩ := List.mem_flatMap.mp hg
      obtain ⟨call, hcall⟩ := isCall_of_mem_calls hg
      cases hcall
  · have hcalls :
        ∀ cmd ∈ ts.flatMap (fun t => calls .transition t.source t.actions), cmd.Still := by
      intro cmd hcmd
      obtain ⟨t, -, hcmd⟩ := List.mem_flatMap.mp hcmd
      exact still_of_mem_calls hcmd
    rw [Command.applyAll_append, applyAll_exits, Command.applyAll_of_still hcalls]

/-- A script that runs actions and then enters. -/
theorem enters_of_calls {cs : List Command} (hcalls : ∀ cmd ∈ cs, cmd.IsCall)
    (hcommands : script.commands = cs ++ (plan.arrive c x).commands)
    (hentered : script.entered = (plan.arrive c x).entered)
    (hfinished : script.finished = (plan.arrive c x).finished) : Enters c x script x plan := by
  refine ⟨⟨cs, fun g hg => ?_, ?_, hcommands⟩, hentered, hfinished, fun i hi => hi⟩
  · obtain ⟨call, hcall⟩ := hcalls _ hg
    cases hcall
  · exact Command.applyAll_of_still (fun cmd hcmd => (hcalls cmd hcmd).still) x

theorem Composed.enters (h : Composed c x script) :
    ∃ outside plan, Enters c x script outside plan := by
  cases h with
  | take m ts h => exact enters_of_take? h
  | start hx h =>
    subst hx
    simp only [start?, Option.bind_eq_bind, Option.bind_eq_some_iff, Option.some.injEq] at h
    obtain ⟨plan, -, rfl⟩ := h
    refine ⟨StateSet.empty, plan, enters_of_calls (fun cmd hcmd => ?_) rfl rfl rfl⟩
    unfold Chart.rootCommands at hcmd
    split at hcmd
    · exact isCall_of_mem_calls hcmd
    · simp at hcmd

namespace Enters

variable (h : Enters c x script outside plan)
include h

theorem result :
    applyAll x script.commands = applyAll outside (plan.arrive c outside).commands := by
  obtain ⟨before, -, hout, hcmds⟩ := h.commands
  rw [hcmds, Command.applyAll_append, hout]

theorem count_announce (g : Nat) : script.commands.count (.announce g) =
    (plan.arrive c outside).commands.count (.announce g) := by
  obtain ⟨before, hnone, -, hcmds⟩ := h.commands
  rw [hcmds, List.count_append, List.count_eq_zero.mpr (hnone g), Nat.zero_add]

/-- Nothing is announced but by the entry of a final state. -/
theorem heralds : Along (Arrival.Heralds c) x script.commands := by
  obtain ⟨before, hnone, hout, hcmds⟩ := h.commands
  rw [hcmds, along_append, hout]
  refine ⟨along_iff.mpr ?_, plan.heralds_arrive c outside⟩
  rintro earlier _ later rfl g rfl
  exact absurd (by simp) (hnone g)

end Enters

end Script

namespace Engine

variable {σ : Type} {e : Engine σ} {s s₁ : Session σ} {event : Option Event} {script : Script}
  {ranks : List Nat} {g : Nat}

/-- The session, and the faults so far, when the given commands of a microstep have been
performed. -/
def during (e : Engine σ) (s : Session σ) (script : Script) (event : Option Event)
    (cmds : List Command) : Session σ × List Fault :=
  cmds.foldl (e.perform event) ({ s with memory := script.memory }, [])

/-- What a command appends to the internal queue: an announcement the done event of its state, an
action whatever it raises. -/
inductive Appends (c : Chart) : Command → List Event → Prop
  | announce (state : Nat) : Appends c (.announce state) [Event.done (c.nameOf state)]
  | call (call : Call) {raised : List Event} : (∀ ev ∈ raised, ev.origin = .internal) →
      Appends c (.call call) raised
  | leave (state : Nat) : Appends c (.leave state) []
  | occupy (state : Nat) : Appends c (.occupy state) []

theorem internal_perform (e : Engine σ) (event : Option Event) (w : Session σ × List Fault)
    (cmd : Command) : ∃ evs, Appends e.chart cmd evs ∧
      (e.perform event w cmd).1.queues.internal = w.1.queues.internal ++ evs := by
  have raised (evs : List Event) (q : Queues) : (evs.foldl Queues.raise q).internal =
      q.internal ++ evs.map (·.withOrigin .internal) := by
    induction evs generalizing q with
    | nil => simp
    | cons ev evs ih => simp [ih, Queues.raise]
  have sent (evs : List Event) (q : Queues) : (evs.foldl Queues.send q).internal = q.internal := by
    induction evs generalizing q with
    | nil => rfl
    | cons ev evs ih => exact ih (q.send ev)
  cases cmd with
  | call call =>
    refine ⟨_, .call call ?_, (sent _ _).trans (raised _ _)⟩
    intro ev hev
    obtain ⟨ev', -, rfl⟩ := List.mem_map.mp hev
    rfl
  | announce state => exact ⟨_, .announce state, rfl⟩
  | leave state => exact ⟨[], .leave state, (List.append_nil _).symm⟩
  | occupy state => exact ⟨[], .occupy state, (List.append_nil _).symm⟩

theorem internal_performAll (e : Engine σ) (event : Option Event) (cmds : List Command)
    (w : Session σ × List Fault) : ∃ evs, List.Forall₂ (Appends e.chart) cmds evs ∧
      (cmds.foldl (e.perform event) w).1.queues.internal =
        w.1.queues.internal ++ evs.flatten := by
  induction cmds generalizing w with
  | nil => exact ⟨[], .nil, by simp⟩
  | cons cmd cmds ih =>
    obtain ⟨first, hfirst, hq⟩ := e.internal_perform event w cmd
    obtain ⟨rest, hrest, hq'⟩ := ih (e.perform event w cmd)
    refine ⟨first :: rest, .cons hfirst hrest, ?_⟩
    rw [List.foldl_cons, hq', hq, List.flatten_cons, List.append_assoc]

/-- What a microstep appends to the internal queue: command by command what each appends, and then
the error events of its faults. If it ends the chart the queue is cleared. -/
theorem internal_follow (e : Engine σ) (s : Session σ) (script : Script) (event : Option Event) :
    ∃ evs, List.Forall₂ (Appends e.chart) script.commands evs ∧
      (e.during s script event script.commands).1.queues.internal =
        s.queues.internal ++ evs.flatten ∧
      ((e.follow s script event).status = .final ∨
        (e.follow s script event).queues.internal = s.queues.internal ++ evs.flatten ++
          e.errors (e.during s script event script.commands).2) := by
  obtain ⟨evs, hevs, hq⟩ :=
    e.internal_performAll event script.commands ({ s with memory := script.memory }, [])
  refine ⟨evs, hevs, hq, ?_⟩
  simp only [follow]
  split
  · exact .inl rfl
  · refine .inr ?_
    rw [(e.undisturbed_noticeChange event _ script.exited script.entered).queues, queues_reportAll]
    simp only [if_true]
    exact congrArg (· ++ _) hq

theorem configuration_during (cmds : List Command) :
    (e.during s script event cmds).1.configuration = applyAll s.configuration cmds :=
  (e.performed_foldl event cmds ({ s with memory := script.memory }, [])).configuration

/-- Whenever a microstep or the first entry announces a parallel state, its done event is appended
to the internal queue, and all of its regions are complete then exactly when no child of it is a
final state: the entry of such a child announces the parent, whatever its kind. -/
theorem announced_complete_iff {d : ChartDecl} (hb : d.build = .ok e.chart)
    (hscript : Script.Composed e.chart s.configuration script)
    (hpar : (e.chart.node g).isParallel = true) {before after : List Command}
    (hsplit : script.commands = before ++ .announce g :: after) (event : Option Event) :
    (e.during s script event (before ++ [.announce g])).1.queues.internal =
        (e.during s script event before).1.queues.internal ++
          [Event.done (e.chart.nameOf g)] ∧
      ((∀ r ∈ e.chart.regions g, (e.during s script event
          (before ++ [.announce g])).1.configuration.isFinal e.chart r = true) ↔
        ∀ f, e.chart.parent f = some g → (e.chart.node f).isFinal = false) := by
  have wf := ChartDecl.wellFormed_of_build hb
  obtain ⟨outside, plan, henters⟩ := hscript.enters
  have hherald := along_iff.mp henters.heralds before (.announce g) after hsplit
  obtain ⟨f, hannounces⟩ := hherald g rfl
  refine ⟨?_, ?_⟩
  · simp only [during, List.foldl_append, List.foldl_cons, List.foldl_nil]
    rfl
  · have hsame : applyAll s.configuration (before ++ [.announce g]) =
        applyAll s.configuration before := by
      rw [Command.applyAll_append]
      rfl
    rw [configuration_during, hsame, ← Configuration.isFinal_parallel wf hpar]
    exact hannounces.isFinal_iff wf hpar

/-- A parallel state with a final child beside a region that never completes. -/
def hasty : ChartDecl where
  name := "Hasty"
  states := [
    (((StateDecl.parallel "p").withTransition (.simple "done.state.p" "over")).withChild
      (.final "f")).withChild ((StateDecl.plain "r").withChild (.plain "a")),
    .plain "over"]

/-- The first entry announces the parallel state, and not all of its regions are complete. -/
theorem hasty_not_complete : hasty.build = .ok hasty.chart ∧ ∃ script,
    Script.start? hasty.chart = some script ∧ ∃ before after,
      script.commands = before ++ .announce 1 :: after ∧
      ((bare hasty.chart).during { host := () } script none
        (before ++ [.announce 1])).1.queues.internal = [.done "p"] ∧
      ¬∀ r ∈ hasty.chart.regions 1, ((bare hasty.chart).during { host := () } script none
        (before ++ [.announce 1])).1.configuration.isFinal hasty.chart r = true := by
  have hb : hasty.build = .ok hasty.chart := ChartDecl.build_eq_chart (by decide +kernel)
  have hcommands : (Script.start? hasty.chart).map (·.commands) =
      some ([.occupy 1, .occupy 2] ++ .announce 1 :: [.occupy 3, .occupy 4]) := by decide +kernel
  obtain ⟨script, hs, hcommands⟩ := Option.map_eq_some_iff.mp hcommands
  obtain ⟨hqueue, hiff⟩ := announced_complete_iff (e := bare hasty.chart) (s := { host := () })
    (g := 1) hb (.start rfl hs) (by decide +kernel) hcommands none
  have hname : (bare hasty.chart).chart.nameOf 1 = "p" := by decide +kernel
  refine ⟨hb, script, hs, _, _, hcommands, ?_, fun hall => ?_⟩
  · rw [hqueue, hname]
    rfl
  · exact absurd (hiff.mp hall 2 (by decide +kernel)) (by decide +kernel)

/-- A parallel state below the root that becomes complete in a microstep does so by the last of the
final states entered that count for it. If that is a grandchild of it, as it must be when no region
is parallel, then the done event of the parallel state is appended, and exactly once if no compound
state has got two active regions; if not, it is not appended. -/
theorem completed_announced_iff {d : ChartDecl} (hb : d.build = .ok e.chart)
    (hv : s.configuration.validate e.chart = .ok ())
    (hsel : e.select? s event = some (ranks, s₁))
    (htake : Script.take? e.chart s₁.configuration s₁.memory (ranks.map e.chart.transition) =
      some script)
    (hg : g ≠ root) (hpar : (e.chart.node g).isParallel = true)
    (hbefore : g ∉ s.configuration ∨ s.configuration.isFinal e.chart g = false)
    (hafter : g ∈ (e.follow s₁ script event).configuration ∧
      (e.follow s₁ script event).configuration.isFinal e.chart g = true) :
    ∃ last ∈ script.entered, e.chart.Concludes last g ∧
      (∀ f ∈ script.entered, e.chart.Concludes f g → f ≤ last) ∧
      ((∀ r ∈ e.chart.regions g, (e.chart.node r).isParallel = false) →
        e.chart.grandparent last = some g) ∧
      (e.chart.grandparent last = some g → .announce g ∈ script.commands) ∧
      ((e.follow s₁ script event).configuration.validate e.chart = .ok () →
        script.commands.count (.announce g) =
          if e.chart.grandparent last = some g then 1 else 0) ∧
      ∃ evs, List.Forall₂ (Appends e.chart) script.commands evs ∧
        (e.during s₁ script event script.commands).1.queues.internal =
          s₁.queues.internal ++ evs.flatten ∧
        ((e.follow s₁ script event).status = .final ∨
          (e.follow s₁ script event).queues.internal = s₁.queues.internal ++ evs.flatten ++
            e.errors (e.during s₁ script event script.commands).2) := by
  have wf := ChartDecl.wellFormed_of_build hb
  have hsame := (e.select?_spec hsel).1.configuration
  obtain ⟨outside, plan, henters⟩ := Script.enters_of_take? htake
  have hresult := (e.followed_follow event s₁ script).configuration.trans henters.result
  have hincomplete : s.configuration.isFinal e.chart g = false :=
    hbefore.elim (Configuration.not_isFinal_of_inactive wf hv hg) fun h => h
  have hout : Configuration.isFinal outside e.chart g = false := by
    rw [← Bool.not_eq_true]
    intro hfinal
    have hx := Configuration.isFinal_of_concluding (x := s.configuration)
      (fun f _ hf => hsame ▸ henters.outside_subset f hf) hfinal
    simp [hincomplete] at hx
  obtain ⟨last, hlast⟩ := plan.exists_completes wf (hresult ▸ hafter.2) hout
  obtain ⟨hsome, hcount⟩ := hlast.count_arrive wf hpar hg
  refine ⟨last, henters.entered ▸ hlast.entered, hlast.concludes,
    fun f hf => hlast.le_last f (henters.entered ▸ hf), hlast.concludes.grandparent_eq wf hpar,
    fun hgp => ?_, fun hvalid => ?_, e.internal_follow s₁ script event⟩
  · rw [← List.count_pos_iff, henters.count_announce]
    exact hsome hgp
  · rw [henters.count_announce]
    have hv' := (Configuration.validate_eq_ok_iff_of_mem wf hafter.1).mp hvalid
    exact hcount (hresult ▸ hv'.exclusive wf)

/-- A parallel state one region of which is parallel itself. -/
def nested : ChartDecl where
  name := "Nested"
  states := [
    (((StateDecl.parallel "g").withTransition (.simple "done.state.g" "after")).withChild
      (((StateDecl.plain "s").withChild
        ((StateDecl.plain "s1").withTransition (.simple "e" "s2"))).withChild
          (.final "s2"))).withChild
      ((StateDecl.parallel "q").withChild
        (((StateDecl.plain "r").withChild
          ((StateDecl.plain "r1").withTransition (.simple "e" "r2"))).withChild (.final "r2"))),
    .plain "after"]

/-- Both regions complete in one microstep, the inner one last, and the outer parallel state is not
announced. -/
theorem nested_not_announced : nested.build = .ok nested.chart ∧
    ∃ (s s₁ : Session Unit) (ranks : List Nat) (script : Script),
      s.configuration.validate nested.chart = .ok () ∧
      (bare nested.chart).select? s (some (.external "e")) = some (ranks, s₁) ∧
      Script.take? nested.chart s₁.configuration s₁.memory
        (ranks.map nested.chart.transition) = some script ∧
      1 ∈ s.configuration ∧ s.configuration.isFinal nested.chart 1 = false ∧
      ((bare nested.chart).follow s₁ script
        (some (.external "e"))).configuration.isFinal nested.chart 1 = true ∧
      script.commands.count (.announce 1) = 0 := by
  have hb : nested.build = .ok nested.chart := ChartDecl.build_eq_chart (by decide +kernel)
  let e := bare nested.chart
  let s : Session Unit := { host := (), status := .awaitingExternal,
                            configuration := StateSet.ofList [1, 2, 3, 5, 6, 7] }
  have hx : s.configuration.validate nested.chart = .ok () := by decide +kernel
  have hincomplete : s.configuration.isFinal nested.chart 1 = false := by decide +kernel
  have hranks : (e.select? s (some (.external "e"))).map (·.1) = some [1, 2] := by decide +kernel
  obtain ⟨⟨ranks, s₁⟩, hsel, rfl⟩ := Option.map_eq_some_iff.mp hranks
  obtain ⟨hsame, -, -⟩ := e.select?_spec hsel
  have htaken : (Script.take? nested.chart s.configuration s.memory
      ([1, 2].map nested.chart.transition)).map
        (fun script => (script.entered, applyAll s.configuration script.commands)) =
      some ([4, 8], StateSet.ofList [1, 2, 4, 5, 6, 8]) := by decide +kernel
  rw [← hsame.configuration, ← hsame.memory] at htaken
  obtain ⟨script, htake, hscript⟩ := Option.map_eq_some_iff.mp htaken
  obtain ⟨hentered, hresult⟩ := Prod.mk.inj hscript
  have hafter := (e.followed_follow (some (.external "e")) s₁ script).configuration.trans hresult
  have hcomplete : (e.follow s₁ script (some (.external "e"))).configuration.isFinal
      nested.chart 1 = true := by
    rw [hafter]
    decide +kernel
  obtain ⟨last, hlast, -, hmax, -, -, hcount, -⟩ :=
    completed_announced_iff (e := e) (g := 1) hb hx hsel htake (by decide) (by decide +kernel)
      (.inr hincomplete) ⟨by rw [hafter]; decide, hcomplete⟩
  have hinner : nested.chart.Concludes 8 1 := by
    refine .region (r := 5) (by decide +kernel) (by decide +kernel) ?_
    refine .region (r := 6) (by decide +kernel) (by decide +kernel) ?_
    exact .child (by decide +kernel) (by decide +kernel) (by decide +kernel)
  have hle := hmax 8 (by simp [hentered]) hinner
  obtain rfl : last = 8 := by
    rw [hentered] at hlast
    simp only [List.mem_cons, List.not_mem_nil, or_false] at hlast
    omega
  refine ⟨hb, s, s₁, [1, 2], script, hx, hsel, htake, by decide, hincomplete, hcomplete, ?_⟩
  have hdeeper : nested.chart.grandparent 8 ≠ some 1 := by decide +kernel
  exact (hcount (by rw [hafter]; decide +kernel)).trans (if_neg hdeeper)

end Engine

end Statechart

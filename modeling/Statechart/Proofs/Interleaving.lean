import Statechart.Proofs.Effects

/-!
Microsteps and their scripts. An action sees the active states and may change its host, queue events
and fault; it changes neither the active states nor the memory. So every decision of a microstep is
the one that its script makes beforehand, and the microstep is what comes of performing its script.
-/
namespace Statechart

open Command (applyAll applyAll_append applyAll_of_still still_of_mem_calls
  still_of_mem_rootCommands still_of_mem_transition_calls)

theorem OrderedMap.erase_of_get?_eq_none {κ α : Type} [LT κ] [DecidableEq κ] {m : OrderedMap κ α}
    {k : κ} (h : m.get? k = none) : m.erase k = m := by
  simp only [get?, Option.map_eq_none_iff, List.find?_eq_none, decide_eq_true_eq] at h
  have hall : m.entries.filter (·.1 ≠ k) = m.entries :=
    List.filter_eq_self.mpr fun entry hentry => decide_eq_true (h entry hentry)
  cases m
  exact (OrderedMap.mk.injEq ..).mpr hall

/-- What is written down for a state does not depend on what was written down before. -/
theorem Arrival.enter_after (c : Chart) (byDefault : StateSet) (a : Arrival) (s : Nat) :
    enter c byDefault a s =
      let a' := enter c byDefault { a with commands := [] } s
      { a' with commands := a.commands ++ a'.commands } := by
  unfold enter
  split
  · simp only [List.append_nil]
  · rfl

namespace Engine

variable {σ : Type} {e : Engine σ} {event : Option Event} {w : Microstep σ} {waiting : Waiting}
  {a : Arrival} {s : Nat}

/-- Performs commands in the course of a microstep. -/
def performAll (e : Engine σ) (event : Option Event) (w : Microstep σ) (cmds : List Command) :
    Microstep σ :=
  let (session, faults) := cmds.foldl (e.perform event) (w.session, w.faults)
  { w with session, faults }

theorem performAll_append (w : Microstep σ) (cs ds : List Command) :
    e.performAll event w (cs ++ ds) = e.performAll event (e.performAll event w cs) ds := by
  simp only [performAll, List.foldl_append]

theorem configuration_performAll (w : Microstep σ) (cmds : List Command) :
    (e.performAll event w cmds).session.configuration =
      applyAll w.session.configuration cmds :=
  (e.performed_foldl event cmds (w.session, w.faults)).configuration

theorem memory_performAll (w : Microstep σ) (cmds : List Command) :
    (e.performAll event w cmds).session.memory = w.session.memory :=
  (e.performed_foldl event cmds (w.session, w.faults)).memory

/-! ### The parts of a microstep -/

theorem runActions_eq (phase : Phase) (state : Nat) (w : Microstep σ) (actions : List ActionId) :
    e.runActions event phase state w actions =
      e.performAll event w (calls phase state actions) := by
  induction actions generalizing w with
  | nil => rfl
  | cons action actions ih => exact ih (e.runAction event phase state w action)

theorem exit_eq (w : Microstep σ) (state : Nat) : e.exit event w state =
    { e.performAll event w (e.chart.exitCommands state) with
      exited := w.exited ++ [state] } := by
  rw [exit, runActions_eq, Chart.exitCommands, performAll_append]
  rfl

theorem exits_eq (w : Microstep σ) (states : List Nat) : states.foldl (e.exit event) w =
    { e.performAll event w (states.flatMap e.chart.exitCommands) with
      exited := w.exited ++ states } := by
  induction states generalizing w with
  | nil => rw [List.append_nil]; rfl
  | cons state states ih =>
    rw [List.foldl_cons, ih, exit_eq, List.flatMap_cons, performAll_append]
    simp only [List.append_assoc, List.singleton_append]
    rfl

theorem transitions_eq (w : Microstep σ) (ts : List Transition) :
    ts.foldl (fun w t => e.runActions event .transition t.source w t.actions) w =
      e.performAll event w (ts.flatMap fun t => calls .transition t.source t.actions) := by
  induction ts generalizing w with
  | nil => rfl
  | cons t ts ih => rw [List.foldl_cons, ih, runActions_eq, List.flatMap_cons, performAll_append]

theorem release_eq (state : Nat) (w : Microstep σ) (waiting : Waiting) :
    e.release event state w waiting =
      (e.performAll event w (calls .historyDefault state ((waiting.get? state).getD [])),
        waiting.erase state) := by
  unfold release
  cases h : waiting.get? state with
  | none => simp [OrderedMap.erase_of_get?_eq_none h, calls, performAll]
  | some actions => simp [runActions_eq]

theorem releaseAbove_eq (state : Nat) (w : Microstep σ) (waiting : Waiting) :
    e.releaseAbove event state w waiting =
      match e.chart.parent state with
      | some p => (e.performAll event w (calls .historyDefault p ((waiting.get? p).getD [])),
          waiting.erase p)
      | none => (w, waiting) := by
  unfold releaseAbove
  cases e.chart.parent state with
  | none => rfl
  | some p => exact release_eq p w waiting

theorem runInitial_eq (byDefault : StateSet) (state : Nat) (w : Microstep σ) :
    e.runInitial event byDefault state w =
      e.performAll event w (Arrival.initialCommands e.chart byDefault state) := by
  unfold runInitial Arrival.initialCommands
  cases (e.chart.node state).kind with
  | compound initial =>
    simp only
    split
    · exact runActions_eq .initial state w initial.actions
    · rfl
  | atomic | parallel | final | history => rfl

theorem runRootInitial_eq (w : Microstep σ) :
    e.runRootInitial event w = e.performAll event w e.chart.rootCommands := by
  unfold runRootInitial Chart.rootCommands
  cases (e.chart.node Chart.root).kind with
  | compound initial => exact runActions_eq .initial Chart.root w initial.actions
  | atomic | parallel | final | history => rfl

theorem complete_eq (e : Engine σ) (event : Option Event) (w : Microstep σ) (s : Nat) :
    (if (e.chart.node s).isFinal then e.complete w s else w) =
      { e.performAll event w (Arrival.completion e.chart w.session.configuration s).1 with
        finished := w.finished || (Arrival.completion e.chart w.session.configuration s).2 } := by
  unfold Arrival.completion complete
  split
  · cases e.chart.parent s with
    | none => simp [performAll]
    | some p =>
      simp only
      split
      · cases (e.chart.node Chart.root).isParallel <;> simp [performAll]
      · simp only [Bool.or_false]
        unfold Chart.announcements
        cases e.chart.parent p with
        | none => rfl
        | some g =>
          have hsame : (e.announce w p).session.configuration = w.session.configuration := rfl
          simp only [hsame]
          split <;> rfl
  · simp [performAll]

/-- What the entry of a state does, in the commands of its script. -/
theorem enter_eq (hs : w.session.configuration.contains s = false) (byDefault : StateSet) :
    let a := Arrival.enter e.chart byDefault
      { configuration := w.session.configuration, waiting, entered := w.entered,
        finished := w.finished } s
    e.enter event byDefault (w, waiting) s =
      ({ e.performAll event w a.commands with entered := a.entered, finished := a.finished },
        a.waiting) := by
  have hstill (cmds : List Command) (h : ∀ cmd ∈ cmds, cmd.Still) (w : Microstep σ) :
      (e.performAll event w cmds).session.configuration = w.session.configuration :=
    (configuration_performAll w cmds).trans (applyAll_of_still h _)
  have hcalls (phase : Phase) (state : Nat) (actions : List ActionId) :=
    hstill (calls phase state actions) fun _ => still_of_mem_calls
  have hinitial := hstill (Arrival.initialCommands e.chart byDefault s)
    fun _ => Arrival.still_of_mem_initial
  simp only [enter, Arrival.enter, hs, Bool.false_eq_true, if_false, releaseAbove_eq, release_eq,
    runActions_eq, runInitial_eq, complete_eq e event, Arrival.release]
  cases e.chart.parent s
  all_goals
    simp only [hcalls, hinitial]
    simp only [← performAll_append, List.nil_append]
    rfl

/-- The microstep is where the entries written down so far lead. -/
structure Arrives (e : Engine σ) (event : Option Event) (w₀ : Microstep σ) (a : Arrival)
    (w : Microstep σ) (waiting : Waiting) : Prop where
  reached : w = { e.performAll event w₀ a.commands with
    entered := a.entered, finished := a.finished }
  configuration : w.session.configuration = a.configuration
  waiting : waiting = a.waiting

theorem Arrives.enter {w₀ : Microstep σ} (h : Arrives e event w₀ a w waiting)
    (byDefault : StateSet) (s : Nat) :
    Arrives e event w₀ (Arrival.enter e.chart byDefault a s)
      (e.enter event byDefault (w, waiting) s).1 (e.enter event byDefault (w, waiting) s).2 := by
  by_cases hs : s ∈ a.configuration
  · rw [Arrival.enter_of_mem hs]
    simpa [Engine.enter, h.configuration, hs] using h
  · obtain ⟨hreached, hconf, rfl⟩ := h
    have hout : w.session.configuration.contains s = false := by
      rw [hconf, ← Bool.not_eq_true, StateSet.contains_iff]
      exact hs
    have hentered : w.entered = a.entered := by rw [hreached]
    have hfinished : w.finished = a.finished := by rw [hreached]
    obtain ⟨hinsert, -, cmds, hcmds, hstill⟩ :=
      Arrival.enter_spec e.chart byDefault { a with commands := [] } s hs
    rw [enter_eq hout, Arrival.enter_after, hconf, hentered, hfinished]
    refine ⟨?_, ?_, rfl⟩
    · simp only [performAll_append]
      rw [hreached]
      rfl
    · simp only [configuration_performAll, hcmds, hinsert, hconf, applyAll_append]
      exact applyAll_of_still hstill _

theorem Arrives.foldl_enter {w₀ : Microstep σ} (h : Arrives e event w₀ a w waiting)
    (byDefault : StateSet) (ss : List Nat) :
    let reached := ss.foldl (e.enter event byDefault) (w, waiting)
    Arrives e event w₀ (ss.foldl (Arrival.enter e.chart byDefault) a) reached.1 reached.2 := by
  induction ss generalizing a w waiting with
  | nil => exact h
  | cons s ss ih => exact ih (h.enter byDefault s)

theorem enterPlan_eq (hentered : w.entered = []) (hfinished : w.finished = false)
    (p : EntryPlan) :
    let a := p.arrive e.chart w.session.configuration
    e.enterPlan event w p =
      { e.performAll event w a.commands with entered := a.entered, finished := a.finished } := by
  have hbegin : Arrives e event w
      { configuration := w.session.configuration, waiting := p.historyActions } w p.historyActions := by
    refine ⟨?_, rfl, rfl⟩
    cases w
    cases hentered
    cases hfinished
    rfl
  obtain ⟨hreached, hconf, -⟩ := hbegin.foldl_enter p.byDefault p.states.toList
  simp only [enterPlan, EntryPlan.arrive, hconf]
  rw [hreached]
  split
  next hends => simp only [hends, Bool.or_true]
  next hends => simp only [hends, Bool.or_false]

/-! ### Microsteps -/

theorem leave_eq (w : Microstep σ) (exits : StateSet) (ts : List Transition) :
    ts.foldl (fun w t => e.runActions event .transition t.source w t.actions)
        (e.exitStates event w exits) =
      { e.performAll event w (exits.toList.reverse.flatMap e.chart.exitCommands ++
          ts.flatMap fun t => calls .transition t.source t.actions) with
        exited := w.exited ++ exits.toList.reverse } := by
  rw [exitStates, exits_eq, transitions_eq, performAll_append]
  rfl

/-- To take transitions is to perform their script. -/
theorem take?_eq (e : Engine σ) (event : Option Event) (ts : List Transition) (s : Session σ) :
    e.take? event ts s =
      (Script.take? e.chart s.configuration s.memory ts).map (e.play event s) := by
  unfold take? Script.take?
  cases e.chart.exits? s.configuration s.memory ts with
  | none => rfl
  | some exits =>
    simp only [Option.bind_eq_bind, Option.bind_some, leave_eq, configuration_performAll,
      memory_performAll, applyAll_append, Script.applyAll_exits,
      applyAll_of_still fun _ h => still_of_mem_transition_calls h]
    cases EntryPlan.ofTransitions? e.chart (exits.toList.reverse.foldl StateSet.erase s.configuration)
      (e.chart.recordHistory s.configuration s.memory exits) ts with
    | none => rfl
    | some plan =>
      simp only [Option.bind_some, Option.map_some]
      rw [enterPlan_eq rfl rfl]
      simp only [configuration_performAll, applyAll_append, Script.applyAll_exits,
        applyAll_of_still fun _ h => still_of_mem_transition_calls h]
      simp only [play]
      rw [List.foldl_append]
      rfl

/-- The first entry performs its script, if nothing is active and nothing remembered. -/
theorem enterInitial?_eq (e : Engine σ) (event : Option Event) {s : Session σ}
    (hconf : s.configuration = StateSet.empty) (hmemory : s.memory = Memory.empty) :
    e.enterInitial? event s = (Script.start? e.chart).map (e.play event s) := by
  obtain ⟨status, x, m, queues, host, trace⟩ := s
  obtain rfl : x = StateSet.empty := hconf
  obtain rfl : m = Memory.empty := hmemory
  unfold enterInitial? Script.start?
  simp only [runRootInitial_eq, memory_performAll]
  cases EntryPlan.initial? e.chart with
  | none => rfl
  | some plan =>
    simp only [Option.bind_eq_bind, Option.bind_some, Option.map_some]
    rw [enterPlan_eq rfl rfl]
    simp only [configuration_performAll, applyAll_of_still fun _ => still_of_mem_rootCommands, play]
    rw [List.foldl_append]
    rfl

theorem exitAll_eq (e : Engine σ) (event : Option Event) (s : Session σ) :
    e.exitAll event s = e.play event s (Script.stop e.chart s.configuration s.memory) := by
  rw [exitAll, exitStates, exits_eq]
  rfl

theorem settle_play (e : Engine σ) (event : Option Event) (s : Session σ) (script : Script) :
    e.settle event (e.play event s script) = e.follow s script event := rfl

/-- A microstep follows the script of the transitions. -/
theorem microstep?_eq (e : Engine σ) (s : Session σ) (ranks : List Nat) (event : Option Event) :
    e.microstep? s ranks event =
      (Script.take? e.chart s.configuration s.memory (ranks.map e.chart.transition)).map
        (fun script => e.follow s script event) := by
  rw [microstep?, take?_eq, Option.map_map]
  rfl

theorem start?_eq (e : Engine σ) (bound : Nat) (s : Session σ) : e.start? bound s =
    if s.status = .idle then
      match Script.start? e.chart with
      | none => none
      | some script =>
        let s := { s with status := .stabilizing, configuration := StateSet.empty }
        e.run? bound (e.follow s script none) true
    else some ⟨.error .alreadyRunning, s⟩ := by
  unfold start?
  split
  · rw [enterInitial?_eq e none (s := s.blank) rfl rfl]
    cases Script.start? e.chart with
    | none => rfl
    | some script => rfl
  · rfl

theorem stop_eq (e : Engine σ) {s : Session σ} (hs : s.status ≠ .idle) : e.stop s =
    let script := Script.stop e.chart s.configuration s.memory
    let (s, faults) := script.commands.foldl (e.perform none) (s, [])
    let s := e.noticeChange (e.reportAll false s faults) script.exited script.entered none
    ⟨.ok (), { s with status := .idle, queues := {} }⟩ := by
  rw [stop, if_neg hs, exitAll_eq]
  rfl

theorem followed_stop (e : Engine σ) (s : Session σ) (hs : s.status ≠ .idle) :
    Followed (Script.stop e.chart s.configuration s.memory) s (e.stop s).session := by
  have hperf := e.performed_foldl none
    (Script.stop e.chart s.configuration s.memory).commands (s, [])
  rcases hf : (Script.stop e.chart s.configuration s.memory).commands.foldl (e.perform none)
    (s, []) with ⟨s₁, faults⟩
  rw [hf] at hperf
  have hrep := (e.reportAll_spec false s₁ faults).1.trans
    (e.undisturbed_noticeChange none (e.reportAll false s₁ faults)
      (Script.stop e.chart s.configuration s.memory).exited
      (Script.stop e.chart s.configuration s.memory).entered).toSameStates
  simp only [stop_eq e hs, hf]
  exact ⟨hrep.configuration.trans hperf.configuration, hrep.memory.trans hperf.memory,
    hrep.taken.trans hperf.taken⟩

end Engine

end Statechart

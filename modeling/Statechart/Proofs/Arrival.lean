import Statechart.Proofs.Selection
import Statechart.Proofs.Script

/-!
What a script does to a configuration. Calls and announcements leave it alone, so in the end exactly
the exited states are gone and exactly the planned states have come.
-/
namespace Statechart

namespace Command

variable {x : Configuration} {cs ds : List Command}

theorem applyAll_append (x : Configuration) (cs ds : List Command) :
    applyAll x (cs ++ ds) = applyAll (applyAll x cs) ds := List.foldl_append

/-- The command leaves every configuration as it is. -/
def Still (cmd : Command) : Prop := ∀ x, cmd.apply x = x

theorem applyAll_of_still (h : ∀ cmd ∈ cs, cmd.Still) (x : Configuration) : applyAll x cs = x := by
  induction cs with
  | nil => rfl
  | cons cmd cs ih =>
    rw [applyAll, List.foldl_cons, h cmd (by simp)]
    exact ih fun d hd => h d (by simp [hd])

theorem still_of_mem_calls {phase : Phase} {s : Nat} {as : List ActionId} {cmd : Command}
    (h : cmd ∈ calls phase s as) : cmd.Still := by
  obtain ⟨a, -, rfl⟩ := List.mem_map.mp h
  exact fun _ => rfl

theorem still_of_mem_transition_calls {ts : List Transition} {cmd : Command}
    (h : cmd ∈ ts.flatMap fun t => calls .transition t.source t.actions) : cmd.Still := by
  obtain ⟨t, -, h⟩ := List.mem_flatMap.mp h
  exact still_of_mem_calls h

theorem still_of_mem_rootCommands {c : Chart} {cmd : Command} (h : cmd ∈ c.rootCommands) :
    cmd.Still := by
  unfold Chart.rootCommands at h
  split at h
  · exact still_of_mem_calls h
  · simp at h

end Command

open Command (applyAll applyAll_append applyAll_of_still Still still_of_mem_calls
  still_of_mem_transition_calls)

namespace Arrival

variable {c : Chart} {x : Configuration} {byDefault : StateSet} {a : Arrival} {ss : List Nat}
  {cmd : Command} {i s : Nat}

theorem still_of_mem_release (h : cmd ∈ a.release s) : cmd.Still := still_of_mem_calls h

theorem still_of_mem_initial (h : cmd ∈ initialCommands c byDefault s) : cmd.Still := by
  unfold initialCommands at h
  split at h
  · split at h
    · exact still_of_mem_calls h
    · simp at h
  · simp at h

theorem still_of_mem_announcements (h : cmd ∈ c.announcements x s) : cmd.Still := by
  unfold Chart.announcements at h
  rcases List.mem_cons.mp h with rfl | h
  · exact fun _ => rfl
  · split at h
    · split at h
      · obtain rfl := List.mem_singleton.mp h
        exact fun _ => rfl
      · simp at h
    · simp at h

theorem still_of_mem_completion (h : cmd ∈ (completion c x s).1) : cmd.Still := by
  unfold completion at h
  split at h
  · split at h
    · simp at h
    · split at h
      · simp at h
      · exact still_of_mem_announcements h
  · simp at h

/-- Entering a state makes it active, by one command and no other. -/
theorem enter_spec (c : Chart) (byDefault : StateSet) (a : Arrival) (s : Nat)
    (hs : s ∉ a.configuration) :
    (enter c byDefault a s).configuration = a.configuration.insert s ∧
      (enter c byDefault a s).entered = a.entered ++ [s] ∧
      ∃ cmds, (enter c byDefault a s).commands = a.commands ++ .occupy s :: cmds ∧
        ∀ cmd ∈ cmds, cmd.Still := by
  have hcon : a.configuration.contains s = false := by
    rw [← Bool.not_eq_true, StateSet.contains_iff]
    exact hs
  simp only [enter, hcon, Bool.false_eq_true, if_false]
  refine ⟨trivial, trivial, _, rfl, fun cmd hcmd => ?_⟩
  simp only [List.mem_append] at hcmd
  rcases hcmd with (((h | h) | h) | h) | h
  · cases hp : c.parent s with
    | none => simp [hp] at h
    | some p =>
      simp only [hp] at h
      exact still_of_mem_release h
  · exact still_of_mem_calls h
  · exact still_of_mem_initial h
  · exact still_of_mem_release h
  · exact still_of_mem_completion h

theorem enter_of_mem (hs : s ∈ a.configuration) : enter c byDefault a s = a := by
  simp [enter, hs]

theorem foldl_enter_spec (c : Chart) (byDefault : StateSet) (ss : List Nat) (a : Arrival) :
    (∀ i, i ∈ (ss.foldl (enter c byDefault) a).configuration ↔ i ∈ a.configuration ∨ i ∈ ss) ∧
      (∀ i, i ∈ (ss.foldl (enter c byDefault) a).entered ↔
        i ∈ a.entered ∨ i ∈ ss ∧ i ∉ a.configuration) ∧
      ∃ cmds, (ss.foldl (enter c byDefault) a).commands = a.commands ++ cmds ∧
        applyAll a.configuration cmds = (ss.foldl (enter c byDefault) a).configuration := by
  induction ss generalizing a with
  | nil => exact ⟨by simp, by simp, [], by simp, rfl⟩
  | cons s ss ih =>
    rw [List.foldl_cons]
    obtain ⟨hconf, hent, cmds, hcmds, happ⟩ := ih (enter c byDefault a s)
    by_cases hs : s ∈ a.configuration
    · rw [enter_of_mem hs] at hconf hent hcmds happ ⊢
      refine ⟨fun i => ?_, fun i => ?_, cmds, hcmds, happ⟩
      · rw [hconf, List.mem_cons]
        by_cases hi : i = s
        · simp [hi, hs]
        · simp [hi]
      · rw [hent, List.mem_cons]
        by_cases hi : i = s
        · simp [hi, hs]
        · simp [hi]
    · obtain ⟨hc₁, he₁, cmds₁, hcmds₁, hstill⟩ := enter_spec c byDefault a s hs
      rw [hc₁] at hconf hent happ
      refine ⟨fun i => ?_, fun i => ?_, .occupy s :: cmds₁ ++ cmds, ?_, ?_⟩
      · rw [hconf, StateSet.mem_insert, List.mem_cons, or_assoc, or_left_comm]
      · rw [hent, he₁, List.mem_append, List.mem_singleton, StateSet.mem_insert, List.mem_cons]
        by_cases hi : i = s
        · simp [hi, hs]
        · simp [hi]
      · rw [hcmds, hcmds₁, List.append_assoc]
      · rw [applyAll_append, ← happ]
        congr 1
        exact applyAll_of_still hstill _

end Arrival

namespace EntryPlan

variable {c : Chart} {x : Configuration} {p : EntryPlan}

theorem arrive_spec (p : EntryPlan) (c : Chart) (x : Configuration) :
    (∀ i, i ∈ applyAll x (p.arrive c x).commands ↔ i ∈ x ∨ i ∈ p.states) ∧
      ∀ i, i ∈ (p.arrive c x).entered ↔ i ∈ p.states ∧ i ∉ x := by
  obtain ⟨hconf, hent, cmds, hcmds, happ⟩ := Arrival.foldl_enter_spec c p.byDefault p.states.toList
    { configuration := x, waiting := p.historyActions }
  have harr : (p.arrive c x).commands = cmds := by
    simpa [arrive] using hcmds
  constructor
  · intro i
    rw [harr]
    simp only at happ
    rw [happ, hconf i]
    rfl
  · intro i
    simpa [arrive] using hent i

end EntryPlan

namespace Script

variable {c : Chart} {x : Configuration} {m : Memory} {ts : List Transition} {script : Script}
  {exits : StateSet} {i : Nat}

theorem mem_foldl_erase (ss : List Nat) (x : Configuration) :
    i ∈ ss.foldl StateSet.erase x ↔ i ∈ x ∧ i ∉ ss := by
  induction ss generalizing x with
  | nil => simp
  | cons s ss ih => rw [List.foldl_cons, ih, StateSet.mem_erase, List.mem_cons, not_or, and_assoc]

theorem applyAll_exits (c : Chart) (ss : List Nat) (x : Configuration) :
    applyAll x (ss.flatMap c.exitCommands) = ss.foldl StateSet.erase x := by
  induction ss generalizing x with
  | nil => rfl
  | cons s ss ih =>
    rw [List.flatMap_cons, applyAll_append, ih, List.foldl_cons, Chart.exitCommands, applyAll_append,
      applyAll_of_still (fun _ h => still_of_mem_calls h)]
    rfl

theorem mem_exits (h : c.exits? x m ts = some exits) : i ∈ exits ↔
    i ∈ x ∧ ∃ t ∈ ts, ∃ d, c.domain? m t = some (some d) ∧ c.Below i d := by
  obtain ⟨es, hes, rfl⟩ := Option.map_eq_some_iff.mp h
  have hall := mapM_eq_some_iff.mp hes
  have hunion (es : List StateSet) (s : StateSet) :
      i ∈ es.foldl StateSet.union s ↔ i ∈ s ∨ ∃ e ∈ es, i ∈ e := by
    induction es generalizing s with
    | nil => simp
    | cons e es ih => rw [List.foldl_cons, ih, StateSet.mem_union]; simp [or_assoc]
  rw [hunion]
  constructor
  · rintro (h | ⟨e, he, hi⟩)
    · exact absurd h (StateSet.not_mem_empty i)
    · obtain ⟨t, ht, hte⟩ := exists_mem_of_forall₂ hall he
      obtain ⟨o, ho, rfl⟩ := Chart.exitSet?_eq_some_iff.mp hte
      obtain ⟨hix, d, rfl, hid⟩ := Chart.mem_exitsBelow.mp hi
      exact ⟨hix, t, ht, d, ho, hid⟩
  · rintro ⟨hix, t, ht, d, hd, hid⟩
    obtain ⟨e, he, hte⟩ := exists_result_of_forall₂ hall ht
    obtain ⟨o, ho, rfl⟩ := Chart.exitSet?_eq_some_iff.mp hte
    obtain rfl := Option.some.inj (hd.symm.trans ho)
    exact .inr ⟨_, he, Chart.mem_exitsBelow.mpr ⟨hix, d, rfl, hid⟩⟩

/-- How a microstep comes about: what it exits, what it remembers and what it plans to enter. -/
structure Made (c : Chart) (x : Configuration) (m : Memory) (ts : List Transition)
    (script : Script) (exits : StateSet) (outside : Configuration) (plan : EntryPlan) : Prop where
  mem_exits : ∀ i, i ∈ exits ↔
    i ∈ x ∧ ∃ t ∈ ts, ∃ d, c.domain? m t = some (some d) ∧ c.Below i d
  mem_outside : ∀ i, i ∈ outside ↔ i ∈ x ∧ i ∉ exits
  memory_eq : script.memory = c.recordHistory x m exits
  plan_eq : EntryPlan.ofTransitions? c outside script.memory ts = some plan
  mem_result : ∀ i, i ∈ applyAll x script.commands ↔ i ∈ outside ∨ i ∈ plan.states
  mem_exited : ∀ i, i ∈ script.exited ↔ i ∈ exits
  mem_entered : ∀ i, i ∈ script.entered ↔ i ∈ plan.states ∧ i ∉ outside

theorem made_of_take? (h : take? c x m ts = some script) :
    ∃ exits outside plan, Made c x m ts script exits outside plan := by
  simp only [take?, Option.bind_eq_bind, Option.bind_eq_some_iff, Option.some.injEq] at h
  obtain ⟨exits, hexits, plan, hplan, rfl⟩ := h
  obtain ⟨hresult, hentered⟩ := plan.arrive_spec c (exits.toList.reverse.foldl StateSet.erase x)
  refine ⟨exits, _, plan, fun i => mem_exits hexits, fun i => ?_, rfl, hplan, fun i => ?_,
    fun i => by simp, hentered⟩
  · rw [mem_foldl_erase, List.mem_reverse, StateSet.mem_toList]
  · rw [applyAll_append, applyAll_append, applyAll_exits,
      applyAll_of_still fun _ h => still_of_mem_transition_calls h]
    exact hresult i

/-- A script takes away what it exits and brings what it enters. -/
theorem mem_result_iff (h : take? c x m ts = some script) :
    i ∈ applyAll x script.commands ↔ i ∈ x ∧ i ∉ script.exited ∨ i ∈ script.entered := by
  obtain ⟨exits, outside, plan, made⟩ := made_of_take? h
  rw [made.mem_result, made.mem_exited, made.mem_entered, ← made.mem_outside]
  by_cases hi : i ∈ outside <;> simp [hi]

end Script

end Statechart

import Statechart.Proofs.Courses
import Statechart.Proofs.Replay

/-!
The order of the actions in a microstep. The states exited come from the last to the first, so each
is left after everything below it, and the states entered come from the first to the last, so each
is entered before everything below it. The transitions run their actions in between, and what a
state runs beside its entry actions it runs before any state below it is entered.
-/
namespace Statechart

open Command (applyAll applyAll_append applyAll_of_still deeds_append still_of_mem_calls)

/-- The part of a microstep that a phase belongs to: first the exits, then the transitions, then the
entries. -/
def Phase.part : Phase → Nat
  | .exit => 0
  | .transition => 1
  | .entry | .initial | .historyDefault => 2

namespace Call

variable {c : Chart} {a b : Call} {phase : Phase} {as : List ActionId} {s : Nat}

/-- The calls of some actions, in their order. -/
def all (phase : Phase) (s : Nat) (as : List ActionId) : List Call := as.map (⟨·, phase, s⟩)

theorem of_mem_all (h : a ∈ all phase s as) : a.phase = phase ∧ a.state = s := by
  obtain ⟨_, -, rfl⟩ := List.mem_map.mp h
  exact ⟨rfl, rfl⟩

theorem filter_phase {called : List Call} (h : ∀ a ∈ called, a.phase = phase) (other : Phase) :
    called.filter (·.phase = other) = if phase = other then called else [] := by
  split
  · rename_i heq
    exact List.filter_eq_self.mpr fun a ha => by simp [h a ha, heq]
  · rename_i hne
    exact List.filter_eq_nil_iff.mpr fun a ha => by simp [h a ha, hne]

/-- The first call may come before the second: exits before transitions before entries, the exit
actions of a state before those of the states above it, its entry actions after those, and its
initial actions after its own entry actions and before those of the states below it. -/
structure MayPrecede (c : Chart) (a b : Call) : Prop where
  part : a.phase.part ≤ b.phase.part
  exits : a.phase = .exit → b.phase = .exit → ¬c.Below b.state a.state
  entries : a.phase = .entry → b.phase = .entry → ¬c.Below a.state b.state
  own : a.phase = .initial → b.phase = .entry → a.state ≠ b.state
  inner : a.phase = .entry → b.phase = .initial → ¬c.Below a.state b.state

theorem mayPrecede_of_part_lt (h : a.phase.part < b.phase.part) : MayPrecede c a b := by
  constructor
  · exact h.le
  all_goals
    intro ha hb
    simp [ha, hb, Phase.part] at h

end Call

namespace Chart

variable {c : Chart} {s : Nat} {call : Call}

def exitCalls (c : Chart) (s : Nat) : List Call := Call.all .exit s (c.node s).onExit

def transitionCalls (t : Transition) : List Call := Call.all .transition t.source t.actions

def entryCalls (c : Chart) (s : Nat) : List Call := Call.all .entry s (c.node s).onEntry

/-- A state runs initial actions only where it has an initial transition. -/
def initialCalls (c : Chart) (s : Nat) : List Call :=
  match (c.node s).kind with
  | .compound initial => Call.all .initial s initial.actions
  | _ => []

theorem of_mem_initialCalls (h : call ∈ c.initialCalls s) :
    call.phase = .initial ∧ call.state = s := by
  unfold initialCalls at h
  split at h
  · exact Call.of_mem_all h
  · simp at h

end Chart

/-! ### What commands run -/

namespace Command

variable {cmds : List Command} {phase : Phase} {as : List ActionId} {s : Nat}

def call? : Command → Option Call
  | call c => some c
  | _ => none

/-- The calls that commands make. -/
def called (cmds : List Command) : List Call := cmds.filterMap call?

@[simp] theorem called_nil : called [] = [] := rfl

@[simp] theorem called_append (cs ds : List Command) : called (cs ++ ds) = called cs ++ called ds :=
  List.filterMap_append

@[simp] theorem called_calls (phase : Phase) (s : Nat) (as : List ActionId) :
    called (calls phase s as) = Call.all phase s as := by
  simp only [called, calls, Call.all, List.filterMap_map]
  exact congrFun List.filterMap_eq_map as

theorem map_fst_deeds (x : Configuration) (cmds : List Command) :
    (deeds x cmds).map (·.1) = called cmds := by
  induction cmds generalizing x with
  | nil => rfl
  | cons cmd cmds ih =>
    cases cmd with
    | call c => exact congrArg (c :: ·) (ih x)
    | leave s => exact ih _
    | occupy s => exact ih _
    | announce s => exact ih _

/-- While the configuration stays what it is, every action sees the same. -/
theorem deeds_of_still (h : ∀ cmd ∈ cmds, cmd.Still) (x : Configuration) :
    deeds x cmds = (called cmds).map (·, x) := by
  induction cmds with
  | nil => rfl
  | cons cmd cmds ih =>
    have ih := ih fun d hd => h d (by simp [hd])
    cases cmd with
    | call c => exact congrArg ((c, x) :: ·) ih
    | leave s => exact (congrArg (deeds · cmds) (h (.leave s) (by simp) x)).trans ih
    | occupy s => exact (congrArg (deeds · cmds) (h (.occupy s) (by simp) x)).trans ih
    | announce s => exact ih

end Command

open Command (called called_append called_calls map_fst_deeds)

/-- The state is seen to be active, with nothing below it. -/
def Call.SeesAlone (c : Chart) (deed : Call × Configuration) : Prop :=
  deed.1.state ∈ deed.2 ∧ ∀ i ∈ deed.2, ¬c.Below i deed.1.state

/-! ### Exits -/

namespace Chart

variable {c : Chart} {x : Configuration} {ts : List Transition} {ss : List Nat} {call : Call}

theorem phase_of_mem_exitCalls (h : call ∈ ss.flatMap c.exitCalls) : call.phase = .exit := by
  obtain ⟨s, -, h⟩ := List.mem_flatMap.mp h
  exact (Call.of_mem_all h).1

theorem called_exits (c : Chart) (ss : List Nat) :
    called (ss.flatMap c.exitCommands) = ss.flatMap c.exitCalls := by
  induction ss with
  | nil => rfl
  | cons s ss ih =>
    rw [List.flatMap_cons, called_append, ih, exitCommands, called_append, called_calls,
      List.flatMap_cons]
    exact congrArg (· ++ _) (List.append_nil _)

section Exits

variable (up : Ancestry.Upward c.parent) (hss : ss.Pairwise (· > ·))
include up hss

/-- From the last to the first, no state is exited after one above it. -/
theorem exitCalls_ordered : (ss.flatMap c.exitCalls).Pairwise (Call.MayPrecede c) := by
  have hmay {s s' : Nat} (h : ¬c.Below s' s) :
      ∀ a ∈ c.exitCalls s, ∀ b ∈ c.exitCalls s', a.MayPrecede c b := by
    intro a ha b hb
    obtain ⟨hpa, rfl⟩ := Call.of_mem_all ha
    obtain ⟨hpb, rfl⟩ := Call.of_mem_all hb
    exact ⟨by rw [hpa, hpb], fun _ _ => h, by simp [hpa], by simp [hpa], by simp [hpa]⟩
  rw [List.pairwise_flatMap]
  refine ⟨fun s _ => ?_, hss.imp fun hlt => hmay fun h => ?_⟩
  · exact List.pairwise_of_forall_mem_list (hmay (Ancestry.not_below_self up s))
  · have := h.lt up
    omega

/-- An exited state still is active when its actions run, and nothing below it is any more. -/
theorem seesAlone_of_exits (hmem : ∀ s ∈ ss, s ∈ x)
    (hclosed : ∀ s ∈ ss, ∀ i ∈ x, c.Below i s → i ∈ ss) :
    ∀ deed ∈ Command.deeds x (ss.flatMap c.exitCommands), Call.SeesAlone c deed := by
  induction ss generalizing x with
  | nil => simp [Command.deeds]
  | cons s ss ih =>
    obtain ⟨hlt, hss⟩ := List.pairwise_cons.mp hss
    intro deed hdeed
    rw [List.flatMap_cons, deeds_append, exitCommands, deeds_append, Command.deeds_calls,
      applyAll_append, applyAll_of_still (fun _ h => still_of_mem_calls h)] at hdeed
    have hrest : applyAll x [.leave s] = x.erase s := rfl
    simp only [Command.deeds, List.append_nil, List.mem_append, hrest] at hdeed
    rcases hdeed with hdeed | hdeed
    · obtain ⟨action, -, rfl⟩ := List.mem_map.mp hdeed
      refine ⟨hmem s (by simp), fun i hi his => ?_⟩
      have hgt : s < i := his.lt up
      rcases List.mem_cons.mp (hclosed s (by simp) i hi his) with rfl | hi
      · omega
      · have := hlt i hi
        omega
    · refine ih hss (fun s' hs' => ?_) (fun s' hs' i hi his => ?_) deed hdeed
      · have := hlt s' hs'
        exact StateSet.mem_erase.mpr ⟨hmem s' (by simp [hs']), by omega⟩
      · obtain ⟨hi, hne⟩ := StateSet.mem_erase.mp hi
        exact (List.mem_cons.mp (hclosed s' (by simp [hs']) i hi his)).resolve_left hne

end Exits

theorem called_transitions (ts : List Transition) :
    called (ts.flatMap fun t => calls .transition t.source t.actions) =
      ts.flatMap transitionCalls := by
  induction ts with
  | nil => rfl
  | cons t ts ih =>
    rw [List.flatMap_cons, called_append, ih, called_calls]
    rfl

theorem phase_of_mem_transitionCalls (h : call ∈ ts.flatMap transitionCalls) :
    call.phase = .transition := by
  obtain ⟨t, -, h⟩ := List.mem_flatMap.mp h
  exact (Call.of_mem_all h).1

/-- Nothing is asked of the order among the transitions. -/
theorem transitionCalls_ordered (c : Chart) (ts : List Transition) :
    (ts.flatMap transitionCalls).Pairwise (Call.MayPrecede c) := by
  refine List.pairwise_of_forall_mem_list fun a ha b hb => ?_
  have hpa := phase_of_mem_transitionCalls ha
  have hpb := phase_of_mem_transitionCalls hb
  exact ⟨by rw [hpa, hpb], by simp [hpa], by simp [hpa], by simp [hpa], by simp [hpa]⟩

end Chart

/-! ### Entries -/

theorem OrderedMap.get?_erase {κ α : Type} [LT κ] [DecidableEq κ] (m : OrderedMap κ α) (k k' : κ) :
    (m.erase k).get? k' = if k' = k then none else m.get? k' := by
  unfold get? erase
  rw [List.find?_filter]
  split
  · rename_i h
    subst h
    simp
  · rename_i h
    congr 2
    funext w
    by_cases hw : w.1 = k' <;> simp [hw, h]

namespace Arrival

variable {c : Chart} {byDefault : StateSet} {a : Arrival} {x : Configuration} {ss : List Nat}
  {deeds : List (Call × Configuration)} {called : List Call} {call : Call} {i s : Nat}

/-- The history default actions of a state that wait. -/
def waitingCalls (a : Arrival) (s : Nat) : List Call :=
  Call.all .historyDefault s ((a.waiting.get? s).getD [])

def aboveCalls (c : Chart) (a : Arrival) (s : Nat) : List Call :=
  ((c.parent s).map a.waitingCalls).getD []

/-- What the entry of a state runs: history default actions of its parent, its entry actions, its
initial actions if it is entered by default, and its own history default actions. -/
def entryOf (c : Chart) (byDefault : StateSet) (a : Arrival) (s : Nat) : List Call :=
  a.aboveCalls c s ++ c.entryCalls s ++ (if byDefault.contains s then c.initialCalls s else []) ++
    a.waitingCalls s

theorem called_completion (c : Chart) (x : Configuration) (s : Nat) :
    Command.called (completion c x s).1 = [] := by
  unfold completion
  split
  · split
    · rfl
    · split
      · rfl
      · unfold Chart.announcements
        split
        · split <;> rfl
        · rfl
  · rfl

theorem called_initial (c : Chart) (byDefault : StateSet) (s : Nat) :
    Command.called (initialCommands c byDefault s) =
      if byDefault.contains s then c.initialCalls s else [] := by
  unfold initialCommands Chart.initialCalls
  cases (c.node s).kind <;> cases byDefault.contains s <;> first | rfl | simp

/-- The entry of a state makes it active first, and then runs its actions; history default actions
that have been run do not wait any more. -/
theorem enter_called (up : Ancestry.Upward c.parent) (byDefault : StateSet) (a : Arrival)
    (hs : s ∉ a.configuration) :
    (∃ cmds, (enter c byDefault a s).commands = a.commands ++ .occupy s :: cmds ∧
        (∀ cmd ∈ cmds, cmd.Still) ∧ Command.called cmds = entryOf c byDefault a s) ∧
      ∀ q, (enter c byDefault a s).waiting.get? q =
        if s = q ∨ c.parent s = some q then none else a.waiting.get? q := by
  obtain ⟨-, -, cmds, hcmds, hstill⟩ := enter_spec c byDefault a s hs
  have hcon : a.configuration.contains s = false := by
    rw [← Bool.not_eq_true, StateSet.contains_iff]
    exact hs
  refine ⟨⟨cmds, hcmds, hstill, ?_⟩, fun q => ?_⟩
  · simp only [enter, hcon, Bool.false_eq_true, if_false, List.append_cancel_left_eq,
      List.cons.injEq, true_and] at hcmds
    subst hcmds
    cases hp : c.parent s with
    | none =>
      simp [entryOf, aboveCalls, hp, release, waitingCalls, called_completion, called_initial,
        Chart.entryCalls]
    | some p =>
      have hne : s ≠ p := (up s p hp).ne'
      simp [entryOf, aboveCalls, hp, release, waitingCalls, called_completion, called_initial,
        Chart.entryCalls, OrderedMap.get?_erase, hne]
  · simp only [enter, hcon, Bool.false_eq_true, if_false, OrderedMap.get?_erase]
    cases c.parent s with
    | none => simp [eq_comm]
    | some p =>
      simp only [OrderedMap.get?_erase, Option.some.injEq, ite_or]
      simp only [eq_comm]

/-- The states are entered one after the other, each when those before it are active, and this is
what they run. -/
inductive Entering (c : Chart) (byDefault : StateSet) :
    Configuration → List Nat → List (Call × Configuration) → Prop
  | nil (x : Configuration) : Entering c byDefault x [] []
  | cons {x : Configuration} {s : Nat} {ss : List Nat} {deeds : List (Call × Configuration)}
      (a : Arrival) : Entering c byDefault (x.insert s) ss deeds →
      Entering c byDefault x (s :: ss) ((entryOf c byDefault a s).map (·, x.insert s) ++ deeds)

theorem exists_entering (up : Ancestry.Upward c.parent) (byDefault : StateSet) (ss : List Nat)
    (a : Arrival) : ∃ new cmds, (ss.foldl (enter c byDefault) a).entered = a.entered ++ new ∧
      (ss.foldl (enter c byDefault) a).commands = a.commands ++ cmds ∧
      Entering c byDefault a.configuration new (Command.deeds a.configuration cmds) := by
  induction ss generalizing a with
  | nil => exact ⟨[], [], by simp, by simp, .nil _⟩
  | cons s ss ih =>
    rw [List.foldl_cons]
    by_cases hs : s ∈ a.configuration
    · rw [enter_of_mem hs]
      exact ih a
    · obtain ⟨hconf, hentered, -⟩ := enter_spec c byDefault a s hs
      obtain ⟨⟨cmds, hcmds, hstill, hcalled⟩, -⟩ := enter_called up byDefault a hs
      obtain ⟨new, rest, hnew, hrest, hentering⟩ := ih (enter c byDefault a s)
      refine ⟨s :: new, (.occupy s :: cmds) ++ rest, by simp [hnew, hentered], by simp [hrest, hcmds],
        ?_⟩
      rw [hconf] at hentering
      have hinsert : applyAll a.configuration (.occupy s :: cmds) = a.configuration.insert s :=
        applyAll_of_still hstill _
      rw [deeds_append, hinsert]
      have hdeeds : Command.deeds a.configuration (.occupy s :: cmds) =
          (entryOf c byDefault a s).map (·, a.configuration.insert s) :=
        (Command.deeds_of_still hstill _).trans (by rw [hcalled]; rfl)
      rw [hdeeds]
      exact .cons a hentering

theorem phase_of_mem_above (h : call ∈ a.aboveCalls c s) : call.phase = .historyDefault := by
  unfold aboveCalls at h
  cases hp : c.parent s with
  | none => simp [hp] at h
  | some p =>
    rw [hp] at h
    exact (Call.of_mem_all h).1

theorem phase_of_mem_initial (h : call ∈ if byDefault.contains s then c.initialCalls s else []) :
    call.phase = .initial ∧ call.state = s := by
  split at h
  · exact Chart.of_mem_initialCalls h
  · simp at h

/-- Entry and initial actions run for the state that is entered. -/
theorem of_mem_entryOf (h : call ∈ entryOf c byDefault a s) : call.phase.part = 2 ∧
    (call.phase = .entry ∨ call.phase = .initial → call.state = s) := by
  simp only [entryOf, List.mem_append] at h
  rcases h with ((h | h) | h) | h
  · simp [phase_of_mem_above h, Phase.part]
  · obtain ⟨hphase, hstate⟩ := Call.of_mem_all h
    simp [hphase, hstate, Phase.part]
  · obtain ⟨hphase, hstate⟩ := phase_of_mem_initial h
    simp [hphase, hstate, Phase.part]
  · simp [(Call.of_mem_all h).1, Phase.part]

theorem filter_entryOf (c : Chart) (byDefault : StateSet) (a : Arrival) (s : Nat) :
    (entryOf c byDefault a s).filter (·.phase = .entry) = c.entryCalls s ∧
      (entryOf c byDefault a s).filter (·.phase = .initial) =
        if byDefault.contains s then c.initialCalls s else [] := by
  have hown : ∀ b ∈ a.waitingCalls s, b.phase = .historyDefault := fun b hb => (Call.of_mem_all hb).1
  have hentry : ∀ b ∈ c.entryCalls s, b.phase = .entry := fun b hb => (Call.of_mem_all hb).1
  simp only [entryOf, List.filter_append, Call.filter_phase (fun b hb => phase_of_mem_above hb),
    Call.filter_phase hentry, Call.filter_phase hown,
    Call.filter_phase fun b hb => (phase_of_mem_initial hb).1]
  simp

/-- The initial actions of a state come after its entry actions. -/
theorem entryOf_ordered (up : Ancestry.Upward c.parent) (byDefault : StateSet) (a : Arrival)
    (s : Nat) : (entryOf c byDefault a s).Pairwise (Call.MayPrecede c) := by
  -- Cut behind the entry actions: no initial action stands before the cut, no entry action behind it.
  have hfirst : ∀ b ∈ a.aboveCalls c s ++ c.entryCalls s, b.phase ≠ .initial := by
    intro b hb
    rcases List.mem_append.mp hb with hb | hb
    · simp [phase_of_mem_above hb]
    · simp [(Call.of_mem_all hb).1]
  have hlast : ∀ b ∈ (if byDefault.contains s then c.initialCalls s else []) ++ a.waitingCalls s,
      b.phase ≠ .entry := by
    intro b hb
    rcases List.mem_append.mp hb with hb | hb
    · simp [(phase_of_mem_initial hb).1]
    · simp [(Call.of_mem_all hb).1]
  have hafter : (entryOf c byDefault a s).Pairwise fun b b' =>
      ¬(b.phase = .initial ∧ b'.phase = .entry) := by
    rw [entryOf, List.append_assoc, List.pairwise_append]
    exact ⟨List.pairwise_of_forall_mem_list fun b hb _ _ h => hfirst b hb h.1,
      List.pairwise_of_forall_mem_list fun _ _ b hb h => hlast b hb h.2,
      fun b hb _ _ h => hfirst b hb h.1⟩
  refine hafter.imp_of_mem fun {b b'} hb hb' hnot => ?_
  obtain ⟨hpart, hstate⟩ := of_mem_entryOf hb
  obtain ⟨hpart', hstate'⟩ := of_mem_entryOf hb'
  have hself := Ancestry.not_below_self up s
  refine ⟨by omega, fun hp => by simp [hp, Phase.part] at hpart, fun hp hp' => ?_, fun hp hp' => ?_,
    fun hp hp' => ?_⟩
  · rw [hstate (.inl hp), hstate' (.inl hp')]
    exact hself
  · exact absurd ⟨hp, hp'⟩ hnot
  · rw [hstate (.inl hp), hstate' (.inr hp')]
    exact hself

/-- What an earlier state runs may precede what a later one runs. -/
theorem mayPrecede_of_lt (up : Ancestry.Upward c.parent) {a' : Arrival} {s' : Nat} (hlt : s < s')
    {b b' : Call} (hb : b ∈ entryOf c byDefault a s) (hb' : b' ∈ entryOf c byDefault a' s') :
    b.MayPrecede c b' := by
  obtain ⟨hpart, hstate⟩ := of_mem_entryOf hb
  obtain ⟨hpart', hstate'⟩ := of_mem_entryOf hb'
  have hnot : ¬c.Below s s' := fun h => by
    have := h.lt up
    omega
  refine ⟨by omega, fun hp => by simp [hp, Phase.part] at hpart, fun hp hp' => ?_, fun hp hp' => ?_,
    fun hp hp' => ?_⟩
  · rw [hstate (.inl hp), hstate' (.inl hp')]
    exact hnot
  · rw [hstate (.inr hp), hstate' (.inl hp')]
    omega
  · rw [hstate (.inl hp), hstate' (.inr hp')]
    exact hnot

namespace Entering

variable (h : Entering c byDefault x ss deeds)
include h

theorem exists_of_mem {deed : Call × Configuration} (hdeed : deed ∈ deeds) :
    ∃ s ∈ ss, ∃ a, deed.1 ∈ entryOf c byDefault a s := by
  induction h with
  | nil => simp at hdeed
  | @cons x s ss deeds a _ ih =>
    rcases List.mem_append.mp hdeed with hdeed | hdeed
    · obtain ⟨call, hcall, rfl⟩ := List.mem_map.mp hdeed
      exact ⟨s, by simp, a, hcall⟩
    · obtain ⟨s', hs', hrest⟩ := ih hdeed
      exact ⟨s', by simp [hs'], hrest⟩

theorem part_of_mem {b : Call} (hb : b ∈ deeds.map (·.1)) : b.phase.part = 2 := by
  obtain ⟨deed, hdeed, rfl⟩ := List.mem_map.mp hb
  obtain ⟨s, -, a, hmem⟩ := h.exists_of_mem hdeed
  exact (of_mem_entryOf hmem).1

theorem filter_other (phase : Phase) (hphase : phase.part ≠ 2) :
    (deeds.map (·.1)).filter (·.phase = phase) = [] := by
  refine List.filter_eq_nil_iff.mpr fun b hb => ?_
  simp only [decide_eq_true_eq]
  rintro rfl
  exact hphase (h.part_of_mem hb)

/-- The entry actions of each state are run once. -/
theorem filter_entry :
    (deeds.map (·.1)).filter (·.phase = .entry) = ss.flatMap c.entryCalls := by
  induction h with
  | nil => rfl
  | @cons x s ss deeds a _ ih =>
    rw [List.map_append, List.filter_append, ih, List.map_map, List.flatMap_cons]
    simp only [Function.comp_def, List.map_id', (filter_entryOf c byDefault a s).1]

/-- The initial actions of each state entered by default are run once. -/
theorem filter_initial : (deeds.map (·.1)).filter (·.phase = .initial) =
    (ss.filter byDefault.contains).flatMap c.initialCalls := by
  induction h with
  | nil => rfl
  | @cons x s ss deeds a _ ih =>
    rw [List.map_append, List.filter_append, ih, List.map_map]
    simp only [Function.comp_def, List.map_id', (filter_entryOf c byDefault a s).2]
    cases hs : byDefault.contains s with
    | true => simp [hs]
    | false => simp [hs]

variable (up : Ancestry.Upward c.parent) (hss : ss.Pairwise (· < ·))
include up hss

theorem ordered : (deeds.map (·.1)).Pairwise (Call.MayPrecede c) := by
  induction h with
  | nil => exact .nil
  | @cons x s ss deeds a hrest ih =>
    obtain ⟨hlt, hss⟩ := List.pairwise_cons.mp hss
    rw [List.map_append, List.map_map, List.pairwise_append]
    simp only [Function.comp_def, List.map_id']
    refine ⟨entryOf_ordered up byDefault a s, ih hss, fun b hb b' hb' => ?_⟩
    obtain ⟨deed, hdeed, rfl⟩ := List.mem_map.mp hb'
    obtain ⟨s', hs', a', hmem⟩ := hrest.exists_of_mem hdeed
    exact mayPrecede_of_lt up (hlt s' hs') hb hmem

/-- Entry actions are run when the state has become active, before anything below it has. -/
theorem seesAlone (hclear : ∀ s ∈ ss, ∀ i ∈ x, ¬c.Below i s) :
    ∀ deed ∈ deeds, deed.1.phase = .entry → Call.SeesAlone c deed := by
  induction h with
  | nil => simp
  | @cons x s ss deeds a _ ih =>
    obtain ⟨hlt, hss⟩ := List.pairwise_cons.mp hss
    intro deed hdeed hphase
    rcases List.mem_append.mp hdeed with hdeed | hdeed
    · obtain ⟨call, hcall, rfl⟩ := List.mem_map.mp hdeed
      obtain rfl : call.state = s := (of_mem_entryOf hcall).2 (.inl hphase)
      refine ⟨StateSet.mem_insert.mpr (.inl rfl), fun i hi => ?_⟩
      rcases StateSet.mem_insert.mp hi with rfl | hi
      · exact Ancestry.not_below_self up _
      · exact hclear _ (by simp) i hi
    · refine ih hss (fun s' hs' i hi his => ?_) deed hdeed hphase
      rcases StateSet.mem_insert.mp hi with rfl | hi
      · have := hlt s' hs'
        have := his.lt up
        omega
      · exact hclear s' (by simp [hs']) i hi his

end Entering

end Arrival

/-! ### Microsteps -/

/-- The actions of a microstep that takes the transitions, each with the configuration in which it is
run: what comes before what, what each state and each transition runs, and what is seen. -/
structure Script.Orderly (c : Chart) (ts : List Transition) (script : Script)
    (deeds : List (Call × Configuration)) : Prop where
  ordered : (deeds.map (·.1)).Pairwise (Call.MayPrecede c)
  exits : (deeds.map (·.1)).filter (·.phase = .exit) = script.exited.flatMap c.exitCalls
  transitions :
    (deeds.map (·.1)).filter (·.phase = .transition) = ts.flatMap Chart.transitionCalls
  entries : (deeds.map (·.1)).filter (·.phase = .entry) = script.entered.flatMap c.entryCalls
  initials : ∃ defaults : List Nat, defaults.Sublist script.entered ∧
    (deeds.map (·.1)).filter (·.phase = .initial) = defaults.flatMap c.initialCalls
  seen : ∀ deed ∈ deeds, deed.1.phase = .exit ∨ deed.1.phase = .entry → Call.SeesAlone c deed

namespace Script

variable {c : Chart} {x outside : Configuration} {m : Memory} {ts : List Transition}
  {script : Script} {exits : StateSet} {plan : EntryPlan}

theorem Made.commands_eq (made : Made c x m ts script exits outside plan)
    (h : take? c x m ts = some script) :
    script.commands = script.exited.flatMap c.exitCommands ++
        ts.flatMap (fun t => calls .transition t.source t.actions) ++
        (plan.arrive c outside).commands ∧
      script.entered = (plan.arrive c outside).entered ∧
      script.exited.foldl StateSet.erase x = outside := by
  have houtside : script.exited.foldl StateSet.erase x = outside := by
    apply StateSet.ext
    intro i
    rw [mem_foldl_erase, made.mem_outside, made.mem_exited]
  have hplan := made.plan_eq
  refine ⟨?_, ?_, houtside⟩
  all_goals
    simp only [take?, Option.bind_eq_bind, Option.bind_eq_some_iff, Option.some.injEq] at h
    obtain ⟨exits', -, plan', hplan', rfl⟩ := h
    simp only at houtside hplan
    rw [houtside] at hplan' ⊢
    obtain rfl := Option.some.inj (hplan.symm.trans hplan')
    rfl

/-- The exits run their actions first, then the transitions, then the entries. -/
theorem Made.exists_deeds (up : Ancestry.Upward c.parent)
    (made : Made c x m ts script exits outside plan) (h : take? c x m ts = some script) :
    ∃ entering, Command.deeds x script.commands =
        Command.deeds x (script.exited.flatMap c.exitCommands) ++
          Command.deeds outside (ts.flatMap fun t => calls .transition t.source t.actions) ++
          entering ∧
      Arrival.Entering c plan.byDefault outside script.entered entering := by
  obtain ⟨hcommands, hentered, houtside⟩ := made.commands_eq h
  obtain ⟨new, cmds, hnew, hcmds, hentering⟩ := Arrival.exists_entering up plan.byDefault
    plan.states.toList { configuration := outside, waiting := plan.historyActions }
  have hnew : script.entered = new := by simpa [hentered, EntryPlan.arrive] using hnew
  have hcmds : (plan.arrive c outside).commands = cmds := by simpa [EntryPlan.arrive] using hcmds
  have hstill : ∀ cmd ∈ ts.flatMap fun t => calls .transition t.source t.actions, cmd.Still := by
    intro cmd hcmd
    obtain ⟨t, -, hcmd⟩ := List.mem_flatMap.mp hcmd
    exact still_of_mem_calls hcmd
  refine ⟨_, ?_, hnew ▸ hentering⟩
  rw [hcommands, hcmds, deeds_append, deeds_append, applyAll_append, applyAll_exits, houtside,
    applyAll_of_still hstill]

/-- Nothing that stays active lies below a state that is entered: whatever was active below it has
been exited with it. -/
theorem Made.not_below_of_entered (wf : c.WellFormed) (hx : x.validate c = .ok ())
    (proper : m.Proper c) (hts : ∀ t ∈ ts, c.Declared t)
    (made : Made c x m ts script exits outside plan) {s i : Nat} (hs : s ∈ script.entered)
    (hi : i ∈ outside) : ¬c.Below i s := by
  intro his
  obtain ⟨hplanned, hout⟩ := (made.mem_entered s).mp hs
  obtain ⟨hix, hkept⟩ := (made.mem_outside i).mp hi
  have hvalid := (Configuration.validate_eq_ok_iff_of_mem wf hix).mp hx
  have hproper : script.memory.Proper c := made.memory_eq ▸ proper.recordHistory wf hvalid.real exits
  have hgrow := EntryPlan.grows_foldlM wf hproper hts made.plan_eq
  have hroot := hgrow.scope s hplanned (StateSet.not_mem_empty s)
  have hsx := hvalid.attached.mem_of_within wf hix his.within (wf.ne_root_of_below hroot)
  have hexit : s ∈ exits := by
    by_contra hne
    exact hout ((made.mem_outside s).mpr ⟨hsx, hne⟩)
  exact hkept (made.exited_of_below wf hexit hix his)

/-- Whatever valid configuration a microstep is made in, its actions run in order. -/
theorem orderly_of_take? (wf : c.WellFormed) (hx : x.validate c = .ok ()) (proper : m.Proper c)
    (hts : ∀ t ∈ ts, c.Declared t) (h : take? c x m ts = some script) :
    Orderly c ts script (Command.deeds x script.commands) := by
  obtain ⟨exits, outside, plan, made⟩ := made_of_take? h
  obtain ⟨entering, hdeeds, hentering⟩ := made.exists_deeds wf.upward h
  have moves := moves_of_take? h
  have hleaving := (map_fst_deeds x _).trans (c.called_exits script.exited)
  have htaking := (map_fst_deeds outside _).trans (Chart.called_transitions ts)
  have hcalls : (Command.deeds x script.commands).map (·.1) = script.exited.flatMap c.exitCalls ++
      ts.flatMap Chart.transitionCalls ++ entering.map (·.1) := by
    rw [hdeeds, List.map_append, List.map_append, hleaving, htaking]
  have hfilter (phase : Phase) :
      ((Command.deeds x script.commands).map (·.1)).filter (·.phase = phase) =
        (if .exit = phase then script.exited.flatMap c.exitCalls else []) ++
        (if .transition = phase then ts.flatMap Chart.transitionCalls else []) ++
        (entering.map (·.1)).filter (·.phase = phase) := by
    rw [hcalls, List.filter_append, List.filter_append,
      Call.filter_phase fun b hb => Chart.phase_of_mem_exitCalls hb,
      Call.filter_phase fun b hb => Chart.phase_of_mem_transitionCalls hb]
  refine ⟨?_, ?_, ?_, ?_, ⟨script.entered.filter plan.byDefault.contains, List.filter_sublist, ?_⟩,
    fun deed hdeed hphase => ?_⟩
  · rw [hcalls, List.pairwise_append, List.pairwise_append]
    refine ⟨⟨Chart.exitCalls_ordered wf.upward moves.exited_order, Chart.transitionCalls_ordered c ts,
      fun a ha b hb => ?_⟩, hentering.ordered wf.upward moves.entered_order, fun a ha b hb => ?_⟩
    · refine Call.mayPrecede_of_part_lt ?_
      simp [Chart.phase_of_mem_exitCalls ha, Chart.phase_of_mem_transitionCalls hb, Phase.part]
    · refine Call.mayPrecede_of_part_lt ?_
      rw [hentering.part_of_mem hb]
      rcases List.mem_append.mp ha with ha | ha
      · simp [Chart.phase_of_mem_exitCalls ha, Phase.part]
      · simp [Chart.phase_of_mem_transitionCalls ha, Phase.part]
  · simp [hfilter, hentering.filter_other .exit (by decide)]
  · simp [hfilter, hentering.filter_other .transition (by decide)]
  · simp [hfilter, hentering.filter_entry]
  · simp [hfilter, hentering.filter_initial]
  · rw [hdeeds] at hdeed
    rcases List.mem_append.mp hdeed with hdeed | hdeed
    · rcases List.mem_append.mp hdeed with hdeed | hdeed
      · refine Chart.seesAlone_of_exits wf.upward moves.exited_order moves.exited_active
          (fun s hs i hi his => ?_) deed hdeed
        rw [made.mem_exited] at hs ⊢
        exact made.exited_of_below wf hs hi his
      · have hmem := Chart.phase_of_mem_transitionCalls (htaking ▸ List.mem_map_of_mem hdeed)
        simp [hmem] at hphase
    · refine hentering.seesAlone wf.upward moves.entered_order
        (fun s hs i hi => made.not_below_of_entered wf hx proper hts hs hi) deed hdeed ?_
      refine hphase.resolve_left fun hp => ?_
      have := hentering.part_of_mem (List.mem_map_of_mem hdeed)
      simp [hp, Phase.part] at this

end Script

namespace Engine

variable {σ : Type} {e : Engine σ} {s s₁ : Session σ} {event : Option Event} {ranks : List Nat}

theorem deeds_follow (s : Session σ) (script : Script) (event : Option Event) :
    (e.follow s script event).deeds =
      s.deeds ++ Command.deeds s.configuration script.commands := by
  have hperform :=
    e.deeds_performAll event script.commands ({ s with memory := script.memory }, [])
  rcases hf : script.commands.foldl (e.perform event) ({ s with memory := script.memory }, []) with
    ⟨s₁, faults⟩
  rw [hf] at hperform
  have hnotice := (e.deeds_noticeChange (e.reportAll true s₁ faults) script.exited script.entered
    event).trans ((e.deeds_reportAll true s₁ faults).trans hperform)
  simp only [follow, hf]
  split
  · exact (Session.deeds_record _ _).trans ((List.append_nil _).trans hnotice)
  · exact hnotice

/-- The transitions selected in a valid configuration are taken in a microstep, unless the defaults of
history states lead back to themselves, and its actions run in order: exits, then transitions in the
order of their ranks, then entries. Every state that is exited runs its exit actions, and every state
that is entered its entry actions, once, and it sees itself active then and nothing below itself; of
two states one above the other the lower one is exited first and entered last; and initial actions
run after the entry actions of their state and before those of the states below it. -/
theorem microstep_orderly {d : ChartDecl} (hb : d.build = .ok e.chart)
    (hx : s.configuration.validate e.chart = .ok ()) (proper : s.memory.Proper e.chart)
    (hsel : e.select? s event = some (ranks, s₁)) :
    (e.chart.Grounded → ∃ s', e.microstep? s₁ ranks event = some s') ∧
    ranks.Pairwise (· < ·) ∧
    ∀ s', e.microstep? s₁ ranks event = some s' → ∃ script deeds,
      Script.take? e.chart s.configuration s.memory (ranks.map e.chart.transition) = some script ∧
      s'.configuration = applyAll s.configuration script.commands ∧
      script.Moves s.configuration ∧
      s'.deeds = s₁.deeds ++ deeds ∧
      script.Orderly e.chart (ranks.map e.chart.transition) deeds := by
  have wf := ChartDecl.wellFormed_of_build hb
  obtain ⟨hsame, -, rs, hchoose, -⟩ := e.select?_spec hsel
  refine ⟨fun g => ?_, (Chart.choose?_spec hchoose).1, fun s' hs' => ?_⟩
  · refine exists_microstep? wf g (fun q hq => ?_) proper hsel
    exact ((Configuration.validate_eq_ok_iff_of_mem wf hq).mp hx).real q hq
  · rw [microstep?_eq] at hs'
    obtain ⟨script, htake, rfl⟩ := Option.map_eq_some_iff.mp hs'
    rw [hsame.configuration, hsame.memory] at htake
    have hts := declared_of_offers wf (offers_of_select? hsel)
    refine ⟨script, _, htake, ?_, Script.moves_of_take? htake, e.deeds_follow s₁ script event, ?_⟩
    · rw [(e.followed_follow _ s₁ script).configuration, hsame.configuration]
    · rw [hsame.configuration]
      exact Script.orderly_of_take? wf hx proper hts htake

end Engine

/-- A lift arrives: it stops and brakes, the bell rings, and the door is unlocked. -/
def lift : ChartDecl where
  name := "Lift"
  states := [
    ((StateDecl.plain "moving").withExit "brake").withChild
      (((StateDecl.plain "up").withExit "stop").withTransition
        ((TransitionDecl.simple "arrive" "waiting").action "ring")),
    (((StateDecl.plain "waiting").withEntry "unlock").withInitialAction "light").withChild
      ((StateDecl.plain "shut").withEntry "sense")]

namespace Engine

/-- From top to bottom: the lift leaves `up` and then `moving`, takes its transition, and enters
`waiting`, whose light goes on before `shut` is entered. -/
theorem lift_orderly : lift.build = .ok lift.chart ∧ lift.chart.Grounded ∧
    ∃ (s s₁ s' : Session Unit) (script : Script) (deeds : List (Call × Configuration)),
      s.configuration.validate lift.chart = .ok () ∧ s.memory.Proper lift.chart ∧
      (bare lift.chart).select? s (some (.external "arrive")) = some ([0], s₁) ∧
      (bare lift.chart).microstep? s₁ [0] (some (.external "arrive")) = some s' ∧
      s'.deeds = s₁.deeds ++ deeds ∧
      deeds.map (·.1) = [⟨"stop", .exit, 2⟩, ⟨"brake", .exit, 1⟩, ⟨"ring", .transition, 2⟩,
        ⟨"unlock", .entry, 3⟩, ⟨"light", .initial, 3⟩, ⟨"sense", .entry, 4⟩] ∧
      script.Orderly lift.chart [lift.chart.transition 0] deeds := by
  let e := bare lift.chart
  have hb : lift.build = .ok e.chart := ChartDecl.build_eq_chart (by decide +kernel)
  have g : e.chart.Grounded := Chart.grounded_of_leads (by decide +kernel)
  let s : Session Unit :=
    { host := (), status := .awaitingExternal, configuration := StateSet.ofList [1, 2] }
  have hx : s.configuration.validate e.chart = .ok () := by decide +kernel
  have proper : s.memory.Proper e.chart := (Memory.sound_empty _).proper
  have hranks : (e.select? s (some (.external "arrive"))).map (·.1) = some [0] := by decide +kernel
  obtain ⟨⟨ranks, s₁⟩, hsel, rfl⟩ := Option.map_eq_some_iff.mp hranks
  obtain ⟨htaken, -, hall⟩ := microstep_orderly hb hx proper hsel
  obtain ⟨s', hs'⟩ := htaken g
  obtain ⟨script, deeds, -, -, -, hdeeds, horderly⟩ := hall s' hs'
  have hrun : ((e.select? s (some (.external "arrive"))).bind fun r =>
      (e.microstep? r.2 [0] (some (.external "arrive"))).map fun s' =>
        (s'.deeds.drop r.2.deeds.length).map (·.1)) =
      some [⟨"stop", .exit, 2⟩, ⟨"brake", .exit, 1⟩, ⟨"ring", .transition, 2⟩,
        ⟨"unlock", .entry, 3⟩, ⟨"light", .initial, 3⟩, ⟨"sense", .entry, 4⟩] := by decide +kernel
  rw [hsel, Option.bind_some, hs', Option.map_some, hdeeds, List.drop_left] at hrun
  exact ⟨hb, g, s, s₁, s', script, deeds, hx, proper, hsel, hs', hdeeds, Option.some.inj hrun,
    horderly⟩

end Engine

end Statechart

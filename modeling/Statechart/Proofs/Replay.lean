import Mathlib.Data.Finset.Basic
import Mathlib.Data.Finset.Union
import Statechart.Proofs.Naming
import Statechart.Proofs.Notices
import Statechart.Proofs.Occupation
import Statechart.Proofs.SessionInvariant

/-!
Replaying changes. Whoever hears of every change knows what is active: taking away what was exited
and adding what was entered, from nothing on, gives the names of the active states, and nothing is
exited that was not active or entered that was. So who watches one state hears of it by turns.
-/
namespace Statechart

open Chart (root)
open Command (applyAll)

/-- What is active after a change: without what was exited, and with what was entered. -/
def Change.apply (active : Finset String) (change : Change) : Finset String :=
  (active \ change.exited.toFinset) ∪ change.entered.toFinset

/-- What is active after some changes, when nothing was before. -/
def replay (changes : List Change) : Finset String := changes.foldl Change.apply ∅

namespace Chart

/-- The first state stands before the second in document order. -/
def Precedes (c : Chart) (a b : String) : Prop :=
  ∃ i j, c.find? a = some i ∧ c.find? b = some j ∧ i < j

/-- The change is one that can be made where the given states are active. -/
structure Fits (c : Chart) (active : Finset String) (change : Change) : Prop where
  exited_active : ∀ n ∈ change.exited, n ∈ active
  exited_nodup : change.exited.Nodup
  exited_order : change.exited.Pairwise fun a b => c.Precedes b a
  entered_inactive : ∀ n ∈ change.entered, n ∉ active \ change.exited.toFinset
  entered_nodup : change.entered.Nodup
  entered_order : change.entered.Pairwise c.Precedes

end Chart

/-! ### What scripts change -/

namespace Arrival

variable {c : Chart} {byDefault : StateSet}

/-- States are entered in the order in which they are taken up. -/
theorem entered_foldl (c : Chart) (byDefault : StateSet) (ss : List Nat) (a : Arrival) :
    ∃ new, (ss.foldl (enter c byDefault) a).entered = a.entered ++ new ∧ new.Sublist ss := by
  induction ss generalizing a with
  | nil => exact ⟨[], by simp⟩
  | cons s ss ih =>
    obtain ⟨new, hnew, hsub⟩ := ih (enter c byDefault a s)
    rw [List.foldl_cons, hnew]
    by_cases hs : s ∈ a.configuration
    · rw [enter_of_mem hs]
      exact ⟨new, rfl, hsub.cons s⟩
    · rw [(enter_spec c byDefault a s hs).2.1, List.append_assoc]
      exact ⟨s :: new, rfl, hsub.cons_cons s⟩

end Arrival

theorem EntryPlan.entered_ascending (p : EntryPlan) (c : Chart) (x : Configuration) :
    (p.arrive c x).entered.Pairwise (· < ·) := by
  obtain ⟨new, hnew, hsub⟩ := Arrival.entered_foldl c p.byDefault p.states.toList
    { configuration := x, waiting := p.historyActions }
  have hentered : (p.arrive c x).entered = new := by simpa [arrive] using hnew
  rw [hentered]
  exact p.states.ascending.sublist hsub

namespace Script

variable {c : Chart} {x : Configuration} {m : Memory} {ts : List Transition} {script : Script}
  {i : Nat}

/-- The script takes the exited states away, from the last to the first, and then brings the entered
ones, from the first to the last. -/
structure Moves (x : Configuration) (script : Script) : Prop where
  exited_active : ∀ i ∈ script.exited, i ∈ x
  exited_order : script.exited.Pairwise (· > ·)
  entered_inactive : ∀ i ∈ script.entered, i ∈ x → i ∈ script.exited
  entered_order : script.entered.Pairwise (· < ·)
  result : ∀ i, i ∈ applyAll x script.commands ↔ i ∈ x ∧ i ∉ script.exited ∨ i ∈ script.entered

theorem moves_of_take? (h : take? c x m ts = some script) : script.Moves x := by
  obtain ⟨exits, outside, plan, made⟩ := made_of_take? h
  simp only [take?, Option.bind_eq_bind, Option.bind_eq_some_iff, Option.some.injEq] at h
  obtain ⟨exits', -, plan', -, rfl⟩ := h
  refine ⟨fun i hi => ((made.mem_exits i).mp ((made.mem_exited i).mp hi)).1, ?_, ?_,
    plan'.entered_ascending c _, fun i => ?_⟩
  · exact List.pairwise_reverse.mpr exits'.ascending
  · intro i hi hx
    by_contra hne
    exact ((made.mem_entered i).mp hi).2
      ((made.mem_outside i).mpr ⟨hx, mt (made.mem_exited i).mpr hne⟩)
  · rw [made.mem_result, made.mem_exited, made.mem_entered, ← made.mem_outside]
    by_cases hi : i ∈ outside <;> simp [hi]

theorem moves_of_start? (h : start? c = some script) : script.Moves StateSet.empty := by
  obtain ⟨-, -, -, -, hexited, -⟩ := start?_spec h
  refine ⟨by simp [hexited], by simp [hexited], fun i _ hi => absurd hi (StateSet.not_mem_empty i),
    ?_, fun i => mem_start_result h⟩
  simp only [start?, Option.bind_eq_bind, Option.bind_eq_some_iff, Option.some.injEq] at h
  obtain ⟨plan, -, rfl⟩ := h
  exact plan.entered_ascending c StateSet.empty

theorem moves_stop (c : Chart) (x : Configuration) (m : Memory) : (stop c x m).Moves x where
  exited_active i hi := List.mem_reverse.mp hi
  exited_order := List.pairwise_reverse.mpr x.ascending
  entered_inactive i hi := absurd hi (by simp [stop])
  entered_order := .nil
  result _ := mem_stop_result

end Script

/-! ### What is told of them -/

namespace Chart

variable {c : Chart} {x : Configuration} {script : Script} {ss : List Nat} {i : Nat}
  {name : String}

theorem mem_names : name ∈ (x.names c).toFinset ↔ ∃ i ∈ x, c.nameOf i = name := by
  simp [Configuration.names, namesOf]

section Named

variable (named : c.Named)
include named

theorem Named.nameOf_mem_namesOf (hss : ∀ j ∈ ss, j < c.size) (hi : i < c.size) :
    c.nameOf i ∈ c.namesOf ss ↔ i ∈ ss := by
  rw [namesOf, List.mem_map]
  constructor
  · rintro ⟨j, hj, hname⟩
    exact named j i (hss j hj) hi hname ▸ hj
  · exact fun h => ⟨i, h, rfl⟩

theorem Named.nodup_namesOf (hss : ∀ j ∈ ss, j < c.size) (hnodup : ss.Nodup) :
    (c.namesOf ss).Nodup :=
  hnodup.map_on fun i hi j hj heq => named i j (hss i hi) (hss j hj) heq

theorem Named.precedes (hi : i < c.size) {j : Nat} (hj : j < c.size) (hlt : i < j) :
    c.Precedes (c.nameOf i) (c.nameOf j) :=
  ⟨i, j, named.find?_nameOf hi, named.find?_nameOf hj, hlt⟩

theorem Named.isActive_iff (hx : ∀ i ∈ x, i < c.size) :
    x.isActive c name = true ↔ name ∈ (x.names c).toFinset := by
  rw [mem_names, Configuration.isActive]
  cases hf : c.find? name with
  | none =>
    simp only [Bool.false_eq_true, false_iff, not_exists, not_and]
    rintro i hi rfl
    rw [named.find?_nameOf (hx i hi)] at hf
    cases hf
  | some s =>
    obtain ⟨hs, rfl⟩ := find?_eq_some hf
    simp only [StateSet.contains_iff]
    constructor
    · exact fun h => ⟨s, h, rfl⟩
    · rintro ⟨i, hi, hname⟩
      exact named i s (hx i hi) hs hname ▸ hi

variable (moves : script.Moves x) (hx : ∀ i ∈ x, i < c.size)
  (hentered : ∀ i ∈ script.entered, i < c.size)
include moves hx hentered

/-- What is told of a script fits what is active. -/
theorem Named.fits (event : Option String) : c.Fits (x.names c).toFinset
    ⟨c.namesOf script.exited, c.namesOf script.entered, event⟩ := by
  have hexited : ∀ i ∈ script.exited, i < c.size := fun i hi => hx i (moves.exited_active i hi)
  constructor
  · intro n hn
    obtain ⟨i, hi, rfl⟩ := List.mem_map.mp hn
    exact mem_names.mpr ⟨i, moves.exited_active i hi, rfl⟩
  · exact named.nodup_namesOf hexited (moves.exited_order.imp fun h => (Nat.ne_of_lt h).symm)
  · refine List.pairwise_map.mpr (moves.exited_order.imp_of_mem fun hi hj hlt => ?_)
    exact named.precedes (hexited _ hj) (hexited _ hi) hlt
  · intro n hn
    obtain ⟨i, hi, rfl⟩ := List.mem_map.mp hn
    rw [Finset.mem_sdiff, mem_names, List.mem_toFinset,
      named.nameOf_mem_namesOf hexited (hentered i hi)]
    rintro ⟨⟨j, hj, hname⟩, hne⟩
    obtain rfl := named j i (hx j hj) (hentered i hi) hname
    exact hne (moves.entered_inactive j hi hj)
  · exact named.nodup_namesOf hentered (moves.entered_order.imp fun h => Nat.ne_of_lt h)
  · refine List.pairwise_map.mpr (moves.entered_order.imp_of_mem fun hi hj hlt => ?_)
    exact named.precedes (hentered _ hi) (hentered _ hj) hlt

omit hentered in
/-- What is told of a script makes the names of what is active afterwards. -/
theorem Named.apply_names (event : Option String) : Change.apply (x.names c).toFinset
      ⟨c.namesOf script.exited, c.namesOf script.entered, event⟩ =
    ((applyAll x script.commands).names c).toFinset := by
  have hexited : ∀ i ∈ script.exited, i < c.size := fun i hi => hx i (moves.exited_active i hi)
  ext n
  rw [mem_names, Change.apply, Finset.mem_union, Finset.mem_sdiff, mem_names, List.mem_toFinset,
    List.mem_toFinset]
  simp only [moves.result]
  constructor
  · rintro (⟨⟨i, hi, rfl⟩, hne⟩ | hn)
    · rw [named.nameOf_mem_namesOf hexited (hx i hi)] at hne
      exact ⟨i, .inl ⟨hi, hne⟩, rfl⟩
    · obtain ⟨i, hi, rfl⟩ := List.mem_map.mp hn
      exact ⟨i, .inr hi, rfl⟩
  · rintro ⟨i, ⟨hi, hne⟩ | hi, rfl⟩
    · refine .inl ⟨⟨i, hi, rfl⟩, ?_⟩
      rwa [named.nameOf_mem_namesOf hexited (hx i hi)]
    · exact .inr (List.mem_map_of_mem hi)

end Named

end Chart

/-! ### Sessions -/

namespace Engine

variable {σ : Type} {e : Engine σ} {s s' : Session σ} {m : Macrostep σ} {t : Turn σ}
  {script : Script} {event : Option Event} {change : Change}

/-- Whatever is active lies below the root. -/
theorem invariant_below_root (wf : e.chart.WellFormed) :
    Invariant e fun x m => (∀ i ∈ x, e.chart.Below i root) ∧
      (∀ i ∈ x, e.chart.isHistory i = false) ∧ m.Proper e.chart where
  fresh := ⟨fun i hi => absurd hi (StateSet.not_mem_empty i), (invariant_proper wf).fresh⟩
  start script h := by
    refine ⟨fun i hi => ?_, (invariant_proper wf).start script h⟩
    obtain ⟨p, hp, hresult, -⟩ := Script.start?_spec h
    rw [EntryPlan.initial?_eq] at hp
    rw [hresult] at hi
    have hgrow := (EntryPlan.extends_entryOf? wf (wf.defaultEntry_spec wf.root_inner).1 hp).1
    exact hgrow.scope i hi (StateSet.not_mem_empty i)
  step x m ranks script hxm hoff hne h := by
    have hproper := (invariant_proper wf).step x m ranks script hxm.2 hoff hne h
    refine ⟨fun i hi => ?_, hproper⟩
    obtain ⟨exits, outside, plan, made⟩ := Script.made_of_take? h
    have hgrow := EntryPlan.grows_foldlM wf hproper.2 (declared_of_offers wf hoff) made.plan_eq
    rcases (made.mem_result i).mp hi with hi | hi
    · exact hxm.1 i ((made.mem_outside i).mp hi).1
    · exact hgrow.scope i hi (StateSet.not_mem_empty i)
  stop x m hxm := by
    refine ⟨fun i hi => ?_, (invariant_proper wf).stop x m hxm.2⟩
    rw [Script.stop_result] at hi
    exact absurd hi (StateSet.not_mem_empty i)

/-- The changes told so far make the names of what is active, and each of them fits. -/
structure Accounted (c : Chart) (s : Session σ) : Prop where
  replay : replay s.changes = (s.configuration.names c).toFinset
  fits : ∀ earlier change later, s.changes = earlier ++ change :: later →
    c.Fits (Statechart.replay earlier) change

namespace Accounted

variable {c : Chart}

theorem congr (h : Accounted c s) (hchanges : s'.changes = s.changes)
    (hconf : s'.configuration = s.configuration) : Accounted c s' := by
  constructor
  · rw [hchanges, hconf, h.replay]
  · rw [hchanges]
    exact h.fits

theorem extend (h : Accounted c s)
    (hfits : c.Fits (s.configuration.names c).toFinset change)
    (hchanges : s'.changes = s.changes ++ [change])
    (hnames : change.apply (s.configuration.names c).toFinset =
      (s'.configuration.names c).toFinset) : Accounted c s' := by
  constructor
  · rw [hchanges, Statechart.replay, List.foldl_append]
    exact (congrArg change.apply h.replay).trans hnames
  · intro earlier change' later heq
    rw [hchanges] at heq
    rcases List.eq_nil_or_concat later with rfl | ⟨later', last, rfl⟩
    · obtain ⟨rfl, hlast⟩ := List.append_inj' heq rfl
      obtain rfl := List.singleton_inj.mp hlast
      exact h.replay ▸ hfits
    · rw [List.concat_eq_append, ← List.cons_append, ← List.append_assoc] at heq
      exact h.fits earlier change' later' (List.append_inj' heq rfl).1

/-- One script, and what is told of it. -/
theorem moves (h : Accounted e.chart s) (named : e.chart.Named)
    (hs : ∀ i ∈ s.configuration, i < e.chart.size)
    (hs' : ∀ i ∈ s'.configuration, i < e.chart.size) (moves : script.Moves s.configuration)
    (hconf : s'.configuration = applyAll s.configuration script.commands)
    (hchanges : s'.changes = s.changes ++ (e.change? script event).toList) :
    Accounted e.chart s' := by
  unfold change? at hchanges
  split at hchanges
  · rename_i hnone
    simp only [Bool.and_eq_true, List.isEmpty_iff] at hnone
    refine h.congr (hchanges.trans (List.append_nil _)) (StateSet.ext fun i => ?_)
    rw [hconf, moves.result, hnone.1, hnone.2]
    simp
  · have hentered : ∀ i ∈ script.entered, i < e.chart.size := fun i hi =>
      hs' i (hconf ▸ (moves.result i).mpr (.inr hi))
    refine h.extend (named.fits moves hs hentered _) hchanges ?_
    rw [hconf]
    exact named.apply_names moves hs _

end Accounted

theorem upholds_accounted (wf : e.chart.WellFormed) (named : e.chart.Named) :
    Upholds e fun s => Accounted e.chart s := by
  have inv := invariant_below_root (e := e) wf
  have known {x : Configuration} (hx : ∀ i ∈ x, e.chart.Below i root) :
      ∀ i ∈ x, i < e.chart.size := fun i hi => wf.lt_size_of_below (hx i hi)
  constructor
  · exact fun host => ⟨rfl, by simp [Session.changes, Session.notifications]⟩
  · intro s script hreach hidle hscript hs
    -- Nothing was active, so a start takes nothing away that is not told of.
    have hempty := (hreach.housed wf).2.empty hidle
    have hcleared : Accounted e.chart
        { s with status := .stabilizing, configuration := StateSet.empty } :=
      hs.congr rfl hempty.symm
    refine hcleared.moves named (fun i hi => absurd hi (StateSet.not_mem_empty i))
      (known (inv.entered hscript s).1) (Script.moves_of_start? hscript)
      (e.followed_follow none _ script).configuration (e.changes_follow _ script none)
  · exact fun s progressed _ hs => hs.congr rfl rfl
  · exact fun s ev _ hs => hs.congr rfl rfl
  · exact fun s ev hs => hs.congr rfl rfl
  · intro m t hm ht hs
    obtain ⟨new, hnew⟩ := exists_makes ht
    obtain ⟨event, hchanges⟩ := hnew.changes
    rcases hnew.spec with ⟨rfl, hconf, -⟩ | ⟨ranks, script, rfl, hscript, hconf, -⟩
    · exact hs.congr (hchanges.trans (List.append_nil _)) hconf
    · exact hs.moves named (known (inv.visits hm).1) (known (inv.turn ht (inv.visits hm)).1)
        (Script.moves_of_take? hscript) hconf (by simpa using hchanges)
  · intro s hreach hidle hs
    have hstop := (e.followed_stop s hidle).configuration
    refine hs.moves named (known (inv.reachable hreach).1) ?_
      (Script.moves_stop e.chart s.configuration s.memory) hstop (told_stop hidle).1
    rw [hstop, Script.stop_result]
    exact fun i hi => absurd hi (StateSet.not_mem_empty i)

end Engine

end Statechart

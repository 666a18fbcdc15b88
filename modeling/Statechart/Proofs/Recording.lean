import Statechart.Proofs.Resolution
import Statechart.Proofs.ValidConfiguration
import Statechart.Microstep

/-!
Recording history. Leaving the parent of a history state writes one record, under that history state
and no other, and a record written on leaving a valid configuration can be restored: it names active
states below the parent, at least one, that can be active together.
-/
namespace Statechart

open Ancestry (below_of_parent child_unique)

theorem OrderedMap.get?_put {κ α : Type} [LT κ] [DecidableLT κ] [KeyOrder κ] [DecidableEq κ]
    (m : OrderedMap κ α) (k k' : κ) (v : α) :
    (m.put k v).get? k' = if k' = k then some v else m.get? k' := by
  obtain ⟨es, hes⟩ := m
  simp only [get?, put]
  clear hes
  induction es with
  | nil =>
    by_cases h : k = k'
    · simp [Ordered.put, h]
    · simp [Ordered.put, h, show ¬k' = k from fun he => h he.symm]
  | cons e es ih =>
    obtain ⟨x, w⟩ := e
    simp only [Ordered.put]
    by_cases hkx : k < x
    · rw [if_pos hkx]
      by_cases h : k = k'
      · simp [h]
      · simp [h, show ¬k' = k from fun he => h he.symm]
    · rw [if_neg hkx]
      by_cases hxk : x < k
      · rw [if_pos hxk]
        by_cases hx : x = k'
        · have hne : ¬k' = k := by
            rintro rfl
            exact KeyOrder.lt_irrefl k' (hx ▸ hxk)
          simp [hx, hne]
        · simp [hx, ih]
      · rw [if_neg hxk]
        obtain rfl := KeyOrder.eq_of_not_lt hkx hxk
        by_cases h : k = k'
        · simp [h]
        · simp [h, show ¬k' = k from fun he => h he.symm]

theorem Memory.get?_record (m : Memory) (h k : Nat) (ss : List Nat) :
    (m.record h ss).get? k = if k = h then some (StateSet.ofList ss).toList else m.get? k :=
  OrderedMap.get?_put m.records h k _

/-- A list in order is the list of its set. -/
theorem StateSet.toList_ofList {ss : List Nat} (h : ss.Pairwise (· < ·)) :
    (StateSet.ofList ss).toList = ss :=
  eq_of_pairwise_of_mem_iff (ofList ss).ascending h (fun _ => mem_ofList)

namespace Chart

variable {c : Chart} {x : Configuration} {m : Memory} {exits : StateSet} {h k p q s : Nat}
  {depth : HistoryDepth}

theorem toRecord_ascending (c : Chart) (x : Configuration) (p : Nat) (depth : HistoryDepth) :
    (c.toRecord x p depth).Pairwise (· < ·) := by
  cases depth <;> exact x.ascending.filter _

theorem mem_toRecord (c : Chart) (x : Configuration) (p : Nat) (depth : HistoryDepth) :
    s ∈ c.toRecord x p depth ↔ s ∈ x ∧ match depth with
      | .deep => (c.node s).isAtomic = true ∧ c.Below s p
      | .shallow => c.parent s = some p := by
  cases depth <;> simp [toRecord, isDescendant, Ancestry.isDescendant_iff]

/-- What leaving a configuration writes under a history state. -/
def recorded (c : Chart) (x : Configuration) (h : Nat) : List Nat :=
  match (c.node h).kind, c.parent h with
  | .history depth _, some p => c.toRecord x p depth
  | _, _ => []

theorem get?_foldl_recordChild {hs : List Nat} (hhs : ∀ h ∈ hs, c.isHistory h = true ∧
    c.parent h = some p) (m : Memory) (k : Nat) :
    (hs.foldl (c.recordChild x p) m).get? k =
      if k ∈ hs then some (c.recorded x k) else m.get? k := by
  induction hs generalizing m with
  | nil => simp
  | cons h hs ih =>
    obtain ⟨hh, hp⟩ := hhs h (by simp)
    obtain ⟨depth, default, hkind⟩ := exists_kind_of_history hh
    have hstep : c.recordChild x p m h = m.record h (c.recorded x h) := by
      simp [recordChild, recorded, hkind, hp]
    have hsorted : (StateSet.ofList (c.recorded x h)).toList = c.recorded x h := by
      apply StateSet.toList_ofList
      simp only [recorded, hkind, hp]
      exact c.toRecord_ascending x p depth
    rw [List.foldl_cons, ih (fun k hk => hhs k (by simp [hk])), hstep, Memory.get?_record, hsorted]
    by_cases hk : k = h
    · simp [hk]
    · simp [hk]

theorem get?_foldl_recordHistory (wf : c.WellFormed) (ss : List Nat) (m : Memory) (h : Nat) :
    (ss.foldl (fun m s => (c.historyChildren s).foldl (c.recordChild x s) m) m).get? h =
      if c.isHistory h = true ∧ ∃ p ∈ ss, c.parent h = some p then some (c.recorded x h)
      else m.get? h := by
  induction ss generalizing m with
  | nil => simp
  | cons s ss ih =>
    have hmem (k : Nat) :
        k ∈ c.historyChildren s ↔ c.isHistory k = true ∧ c.parent k = some s := by
      simp [historyChildren, wf.mem_children, and_comm]
    rw [List.foldl_cons, ih, get?_foldl_recordChild (fun k hk => (hmem k).mp hk)]
    simp only [hmem]
    by_cases hs : c.isHistory h = true ∧ c.parent h = some s
    · simp [hs.1, hs.2]
    · by_cases hss : c.isHistory h = true ∧ ∃ p ∈ ss, c.parent h = some p
      · obtain ⟨hh, p, hp, hpar⟩ := hss
        simp [hh, hpar, hp]
      · rw [if_neg hss, if_neg hs, if_neg]
        rintro ⟨hh, p, hp, hpar⟩
        rcases List.mem_cons.mp hp with rfl | hp
        · exact hs ⟨hh, hpar⟩
        · exact hss ⟨hh, p, hp, hpar⟩

/-- A microstep writes the records of the history states whose parents it exits. -/
theorem get?_recordHistory (wf : c.WellFormed) (x : Configuration) (m : Memory) (exits : StateSet)
    (h : Nat) : (c.recordHistory x m exits).get? h =
      if c.isHistory h = true ∧ ∃ p ∈ exits, c.parent h = some p then some (c.recorded x h)
      else m.get? h :=
  get?_foldl_recordHistory wf exits.toList m h

section Parent

variable {exits : StateSet} (wf : c.WellFormed) (hq : c.parent h = some q)
include wf hq

theorem get?_recordHistory_of_exited (hh : c.isHistory h = true) (hexit : q ∈ exits) :
    (c.recordHistory x m exits).get? h = some (c.recorded x h) := by
  rw [get?_recordHistory wf, if_pos ⟨hh, q, hexit, hq⟩]

/-- Where the parent is not exited, what was recorded before remains. -/
theorem get?_recordHistory_of_kept (hkept : q ∉ exits) :
    (c.recordHistory x m exits).get? h = m.get? h := by
  rw [get?_recordHistory wf, if_neg]
  rintro ⟨-, p, hp, hpar⟩
  exact hkept (Option.some.inj (hq.symm.trans hpar) ▸ hp)

end Parent

end Chart

/-- Every record was written on leaving a valid configuration in which the parent was active. -/
def Memory.Faithful (c : Chart) (m : Memory) : Prop :=
  ∀ h ss, m.get? h = some ss → c.isHistory h = true ∧
    ∃ x p, Configuration.Valid c x ∧ p ∈ x ∧ c.parent h = some p ∧ ss = c.recorded x h

theorem Memory.faithful_empty (c : Chart) : Memory.empty.Faithful c := by
  intro h ss hm
  simp at hm

namespace Chart

variable {c : Chart} {x : Configuration} {m : Memory} {exits : StateSet} {h k l p q s : Nat}
  {depth : HistoryDepth}

theorem inner_of_not_atomic (hh : c.isHistory q = false) (h : ¬(c.node q).isAtomic = true) :
    (c.node q).isCompound = true ∨ (c.node q).isParallel = true := by
  unfold isHistory Node.isHistory at hh
  unfold Node.isAtomic at h
  unfold Node.isCompound Node.isParallel
  cases hkind : (c.node q).kind <;> simp_all

/-- Below every active state with children some state without children is active. -/
theorem exists_active_leaf (wf : c.WellFormed) (hx : x.Valid c) (hq : x.Active q)
    (hin : (c.node q).isCompound = true ∨ (c.node q).isParallel = true) :
    ∃ s ∈ x, (c.node s).isAtomic = true ∧ c.Below s q := by
  induction hn : c.size - q using Nat.strongRecOn generalizing q with
  | ind n ih =>
    obtain ⟨k, hk, hkx⟩ : ∃ k ∈ c.regions q, k ∈ x := by
      rcases hin with hc | hp
      · obtain ⟨k, hk, hkx, -⟩ := hx.single q hq hc
        exact ⟨k, hk, hkx⟩
      · obtain ⟨k, hk⟩ := wf.exists_region q (.inr hp)
        exact ⟨k, hk, hx.every q hq hp k hk⟩
    obtain ⟨hpar, hh⟩ := wf.mem_regions.mp hk
    have hkq := below_of_parent wf.upward hpar
    have hlt := hkq.lt wf.upward
    have hsize := hx.known k hkx
    by_cases hleaf : (c.node k).isAtomic = true
    · exact ⟨k, hkx, hleaf, hkq⟩
    · have hkin := inner_of_not_atomic hh hleaf
      obtain ⟨s, hs, hatom, hsk⟩ := ih (c.size - k) (by omega) (.inr hkx) hkin rfl
      exact ⟨s, hs, hatom, hsk.trans wf.upward hkq⟩

/-- Within every active state some state without children is active. -/
theorem exists_active_leaf_within (wf : c.WellFormed) (hx : x.Valid c) (hk : k ∈ x) :
    ∃ s ∈ x, (c.node s).isAtomic = true ∧ c.Within s k := by
  by_cases hleaf : (c.node k).isAtomic = true
  · exact ⟨k, hk, hleaf, .refl c.parent k⟩
  · obtain ⟨s, hs, hatom, hsk⟩ :=
      exists_active_leaf wf hx (.inr hk) (inner_of_not_atomic (hx.real k hk) hleaf)
    exact ⟨s, hs, hatom, hsk.within⟩

theorem not_below_of_atomic (wf : c.WellFormed) (ha : (c.node q).isAtomic = true) :
    ¬c.Below s q := by
  intro hsq
  obtain ⟨k, hk, -⟩ := hsq.exists_child wf.upward
  have hin := wf.inner_of_parent hk
  unfold Node.isAtomic at ha
  unfold Node.isCompound Node.isParallel at hin
  cases hkind : (c.node q).kind <;> simp_all

/-- A record names active states below the parent. -/
theorem proper_recorded (wf : c.WellFormed) (hreal : ∀ s ∈ x, c.isHistory s = false)
    (hh : c.isHistory h = true) (hp : c.parent h = some p) :
    ∀ s ∈ c.recorded x h, c.Below s p ∧ c.isHistory s = false := by
  obtain ⟨depth, default, hkind⟩ := exists_kind_of_history hh
  intro s hs
  simp only [recorded, hkind, hp] at hs
  have hmem := (c.mem_toRecord x p depth).mp hs
  cases depth with
  | deep => exact ⟨hmem.2.2, hreal s hmem.1⟩
  | shallow => exact ⟨below_of_parent wf.upward hmem.2, hreal s hmem.1⟩

/-- A record can be restored. -/
theorem restorable_recorded (wf : c.WellFormed) (hx : x.Valid c) (hh : c.isHistory h = true)
    (hp : c.parent h = some p) (hpx : p ∈ x) : c.Restorable p (c.recorded x h) := by
  obtain ⟨depth, default, hkind⟩ := exists_kind_of_history hh
  have hin := wf.inner_of_parent hp
  have hasc := c.toRecord_ascending x p depth
  simp only [recorded, hkind, hp]
  cases depth with
  | deep =>
    have hmem (s : Nat) : s ∈ c.toRecord x p .deep ↔ _ := c.mem_toRecord x p .deep
    refine ⟨fun s hs => ((hmem s).mp hs).2.2, fun s hs => hx.real s ((hmem s).mp hs).1, ?_, ?_⟩
    · apply hasc.imp_of_mem
      intro k l hk hl hlt
      obtain ⟨hkx, hka, -⟩ := (hmem k).mp hk
      obtain ⟨hlx, hla, -⟩ := (hmem l).mp hl
      refine ⟨?_, ?_, hx.compatible wf k hkx l hlx⟩
      · exact fun hw => hw.elim (Nat.ne_of_lt hlt) (not_below_of_atomic wf hla)
      · exact fun hw => hw.elim (Nat.ne_of_gt hlt) (not_below_of_atomic wf hka)
    · obtain ⟨s, hs, hatom, hsp⟩ := exists_active_leaf wf hx (.inr hpx) hin
      exact List.ne_nil_of_mem ((hmem s).mpr ⟨hs, hatom, hsp⟩)
  | shallow =>
    have hmem (s : Nat) : s ∈ c.toRecord x p .shallow ↔ _ := c.mem_toRecord x p .shallow
    refine ⟨fun s hs => below_of_parent wf.upward ((hmem s).mp hs).2,
      fun s hs => hx.real s ((hmem s).mp hs).1, ?_, ?_⟩
    · apply hasc.imp_of_mem
      intro k l hk hl hlt
      obtain ⟨hkx, hkp⟩ := (hmem k).mp hk
      obtain ⟨hlx, hlp⟩ := (hmem l).mp hl
      have hno {i j : Nat} (hi : c.parent i = some p) (hj : c.parent j = some p) (hij : i ≠ j) :
          ¬c.Within i j := fun hw => hij (child_unique wf.upward hi hj (.refl c.parent i) hw)
      exact ⟨hno hkp hlp (Nat.ne_of_lt hlt), hno hlp hkp (Nat.ne_of_gt hlt),
        hx.compatible wf k hkx l hlx⟩
    · obtain ⟨s, hs, -, hsp⟩ := exists_active_leaf wf hx (.inr hpx) hin
      obtain ⟨k, hk, hsk⟩ := hsp.exists_child wf.upward
      have hkx := (hx.active_of_within wf (.inr hs) hsk).mem
        (wf.ne_root_of_below (below_of_parent wf.upward hk))
      exact List.ne_nil_of_mem ((hmem k).mpr ⟨hkx, hk⟩)

end Chart

section Memory

variable {c : Chart} {x : Configuration} {m : Memory} {exits : StateSet} (wf : c.WellFormed)
include wf

theorem Memory.Faithful.sound (hm : m.Faithful c) : m.Sound c := by
  intro h q ss hh hq hss
  obtain ⟨-, x, p, hx, hpx, hp, rfl⟩ := hm h ss hss
  obtain rfl := Option.some.inj (hq.symm.trans hp)
  exact Chart.restorable_recorded wf hx hh hq hpx

theorem Memory.Proper.recordHistory (hm : m.Proper c) (hreal : ∀ s ∈ x, c.isHistory s = false)
    (exits : StateSet) : (c.recordHistory x m exits).Proper c := by
  intro h q ss hh hq hss
  rw [Chart.get?_recordHistory wf] at hss
  split at hss
  · obtain rfl := Option.some.inj hss
    exact Chart.proper_recorded wf hreal hh hq
  · exact hm h q ss hh hq hss

/-- A microstep out of a valid configuration leaves no record without states. -/
theorem Memory.Filled.recordHistory (hm : m.Filled c) (hx : x.Valid c)
    (hexits : ∀ s ∈ exits, s ∈ x) : (c.recordHistory x m exits).Filled c := by
  refine ⟨hm.proper.recordHistory wf hx.real exits, fun h q ss hh hq hss => ?_⟩
  rw [Chart.get?_recordHistory wf] at hss
  split at hss
  · rename_i hsaved
    obtain ⟨-, p, hpe, hp⟩ := hsaved
    obtain rfl := Option.some.inj (hq.symm.trans hp)
    exact Option.some.inj hss ▸
      (Chart.restorable_recorded wf hx hh hq (hexits q hpe)).nonempty
  · exact hm.nonempty h q ss hh hq hss

/-- A microstep out of a valid configuration keeps the memory sound. -/
theorem Memory.Sound.recordHistory (hm : m.Sound c) (hx : x.Valid c)
    (hexits : ∀ s ∈ exits, s ∈ x) : (c.recordHistory x m exits).Sound c := by
  intro h q ss hh hq hss
  rw [Chart.get?_recordHistory wf] at hss
  split at hss
  · rename_i hsaved
    obtain ⟨-, p, hpe, hp⟩ := hsaved
    obtain rfl := Option.some.inj (hq.symm.trans hp)
    exact Option.some.inj hss ▸ Chart.restorable_recorded wf hx hh hq (hexits q hpe)
  · exact hm h q ss hh hq hss

/-- A microstep out of a valid configuration keeps the memory faithful. -/
theorem Memory.Faithful.recordHistory (hm : m.Faithful c) (hx : x.Valid c)
    (hexits : ∀ s ∈ exits, s ∈ x) : (c.recordHistory x m exits).Faithful c := by
  intro h ss hss
  rw [Chart.get?_recordHistory wf] at hss
  split at hss
  · rename_i hsaved
    obtain ⟨hh, p, hp, hpar⟩ := hsaved
    exact ⟨hh, x, p, hx, hexits p hp, hpar, (Option.some.inj hss).symm⟩
  · exact hm h ss hss

end Memory

end Statechart

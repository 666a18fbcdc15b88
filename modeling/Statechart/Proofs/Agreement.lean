import Statechart.Proofs.BuiltChart

/-!
States that can be active together. Two states agree when they part, if at all, in a parallel
state; a set of states that agree in pairs never asks for two regions of one compound state. A
target brings with it what lies under it: for a history state that is everything below the parent,
to which the history state is anchored.
-/
namespace Statechart

theorem Node.not_parallel_of_compound {n : Node} (h : n.isCompound = true) :
    n.isParallel = false := by
  obtain ⟨initial, hk⟩ := isCompound_iff.mp h
  simp [isParallel, hk]

namespace Chart

open Ancestry (below_of_parent child_unique)

variable {c : Chart} {a b s t u v q k l : Nat}

theorem Agree.symm (h : c.Agree a b) : c.Agree b a := by
  intro q k l hk hl hbk hal
  rcases h q l k hl hk hal hbk with he | hp
  · exact .inl he.symm
  · exact .inr hp

/-- Whatever agrees with a state agrees with everything above it. -/
theorem Agree.above (up : Ancestry.Upward c.parent) (h : c.Agree a b) (ha : c.Within a t) :
    c.Agree t b :=
  fun q k l hk hl htk hbl => h q k l hk hl (ha.trans up htk) hbl

theorem agree_of_within (up : Ancestry.Upward c.parent) (h : c.Within b a) : c.Agree a b :=
  fun _ _ _ hk hl hak hbl => .inl (child_unique up hk hl (h.trans up hak) hbl)

theorem agree_self (up : Ancestry.Upward c.parent) (a : Nat) : c.Agree a a :=
  agree_of_within up (.refl c.parent a)

/-- Outside a state, whatever agrees with it agrees with everything inside. -/
theorem Agree.inside (up : Ancestry.Upward c.parent) (h : c.Agree t b) (ha : c.Within a t)
    (hb : ¬c.Within b t) : c.Agree a b := by
  intro q k l hk hl hak hbl
  rcases ha.total up hak with htk | hkt
  · exact h q k l hk hl htk hbl
  · rcases hkt with rfl | hkt
    · exact h q k l hk hl (.refl c.parent k) hbl
    · -- The states part inside `t`, so `b` is inside as well.
      have hqt := Ancestry.within_parent_of_below up hk hkt
      exact absurd (hbl.trans up ((below_of_parent up hl).trans_within up hqt).within) hb

/-- Regions of a parallel state agree with whatever the parallel state agrees with. -/
theorem Agree.region (up : Ancestry.Upward c.parent) (h : c.Agree q b) (hr : c.parent k = some q)
    (hq : (c.node q).isParallel) : c.Agree k b := by
  intro q' k' l' hk' hl' hkk' hbl'
  rcases hkk' with rfl | hkk'
  · exact .inr (Option.some.inj (hr.symm.trans hk') ▸ hq)
  · exact h q' k' l' hk' hl' (Ancestry.within_parent_of_below up hr hkk') hbl'

theorem Apart.symm (h : c.Apart a b) : c.Apart b a := ⟨h.not_within', h.not_within, h.agree.symm⟩

/-- What is inside states that are apart is apart. -/
theorem Apart.inside (up : Ancestry.Upward c.parent) (h : c.Apart u v) (ha : c.Within a u)
    (hb : c.Within b v) : c.Apart a b := by
  have hau : ¬c.Within a v := fun hav => (ha.total up hav).elim h.not_within h.not_within'
  have hbv : ¬c.Within b u := fun hbu => (hb.total up hbu).elim h.not_within' h.not_within
  refine ⟨fun hab => hau (hab.trans up hb), fun hba => hbv (hba.trans up ha), ?_⟩
  exact (h.agree.symm.inside up hb h.not_within).symm.inside up ha hbv

theorem apart_of_regions (up : Ancestry.Upward c.parent) (hk : c.parent k = some q)
    (hl : c.parent l = some q) (hq : (c.node q).isParallel) (hne : k ≠ l) : c.Apart k l := by
  have hno {i j : Nat} (hi : c.parent i = some q) (hj : c.parent j = some q) (hij : i ≠ j) :
      ¬c.Within i j := fun h => hij (child_unique up hi hj (.refl c.parent i) h)
  refine ⟨hno hk hl hne, hno hl hk hne.symm, ?_⟩
  exact (agree_of_within up (below_of_parent up hl).within).region up hk hq

/-! ### What a target brings with it -/

/-- The state inside which a target is entered: itself, or the parent of a history state. -/
def anchor (c : Chart) (t : Nat) : Nat := if c.isHistory t then (c.parent t).getD root else t

/-- What the entry of a target may bring along. -/
def Under (c : Chart) (t s : Nat) : Prop :=
  if c.isHistory t then c.Below s (c.anchor t) else c.Within s t

theorem anchor_of_not_history (h : c.isHistory t = false) : c.anchor t = t := by simp [anchor, h]

theorem anchor_of_history (h : c.isHistory t = true) (hp : c.parent t = some q) :
    c.anchor t = q := by simp [anchor, h, hp]

theorem under_of_not_history (h : c.isHistory t = false) : c.Under t s ↔ c.Within s t := by
  simp [Under, h]

theorem under_of_history (h : c.isHistory t = true) (hp : c.parent t = some q) :
    c.Under t s ↔ c.Below s q := by
  simp [Under, anchor, h, hp]

theorem Under.within_anchor (h : c.Under t s) : c.Within s (c.anchor t) := by
  cases ht : c.isHistory t with
  | true =>
    simp only [Under, ht, if_true] at h
    exact h.within
  | false => simpa [Under, anchor, ht] using h

theorem lt_size_of_parent (h : c.parent s = some q) : s < c.size := by
  by_contra hlt
  rw [parent, node_of_not_lt hlt] at h
  exact absurd (show (none : Option Nat) = some q from h) (by simp)

section WellFormed

variable (wf : c.WellFormed)
include wf

theorem WellFormed.lt_size_of_below (h : c.Below s a) : s < c.size := by
  obtain ⟨p, hp, -⟩ := (Ancestry.below_iff wf.upward).mp h
  exact lt_size_of_parent hp

theorem WellFormed.ne_root_of_below (h : c.Below s a) : s ≠ root := by
  have := h.lt wf.upward
  unfold root
  omega

theorem WellFormed.below_root_of_below (h : c.Below s a) : c.Below s root :=
  wf.below_root s (wf.lt_size_of_below h) (wf.ne_root_of_below h)

theorem WellFormed.exists_parent (h : c.Below s root) : ∃ p, c.parent s = some p :=
  ((Ancestry.below_iff wf.upward).mp h).imp fun _ hp => hp.1

theorem WellFormed.inner_of_parent (h : c.parent k = some q) :
    (c.node q).isCompound ∨ (c.node q).isParallel := by
  have hk := (wf.mem_children q k).mpr h
  have hno (hnil : (c.node q).children = []) : False := by simp [hnil] at hk
  cases hkind : (c.node q).kind with
  | atomic => exact (hno (wf.atomic q hkind)).elim
  | compound i => exact .inl (by simp [Node.isCompound, hkind])
  | parallel => exact .inr (by simp [Node.isParallel, hkind])
  | final => exact (hno (wf.leaf q (.inl (by simp [Node.isFinal, hkind]))).1).elim
  | history d e => exact (hno (wf.leaf q (.inr (by simp [Node.isHistory, hkind]))).1).elim

theorem WellFormed.not_history_of_parent (h : c.parent k = some q) : c.isHistory q = false := by
  have hin := wf.inner_of_parent h
  unfold Node.isCompound Node.isParallel at hin
  unfold isHistory Node.isHistory
  cases hkind : (c.node q).kind <;> simp_all

theorem WellFormed.not_history_of_below (h : c.Below s q) : c.isHistory q = false := by
  obtain ⟨k, hk, -⟩ := h.exists_child wf.upward
  exact wf.not_history_of_parent hk

theorem WellFormed.mem_regions : k ∈ c.regions q ↔ c.parent k = some q ∧ c.isHistory k = false := by
  simp [regions, wf.mem_children]

theorem WellFormed.exists_region_above (h : c.Below s q) (hs : c.isHistory s = false) :
    ∃ k ∈ c.regions q, c.Within s k := by
  obtain ⟨k, hk, hsk⟩ := h.exists_child wf.upward
  refine ⟨k, wf.mem_regions.mpr ⟨hk, ?_⟩, hsk⟩
  rcases hsk with rfl | hsk
  · exact hs
  · exact wf.not_history_of_below hsk

theorem WellFormed.anchor_within (h : c.Below t q) : c.Within (c.anchor t) q := by
  cases ht : c.isHistory t with
  | false =>
    rw [anchor_of_not_history ht]
    exact h.within
  | true =>
    obtain ⟨p, hp, hw⟩ := (Ancestry.below_iff wf.upward).mp h
    rw [anchor_of_history ht hp]
    exact hw

theorem WellFormed.below_of_under (h : c.Below t q) (hs : c.Under t s) : c.Below s q := by
  cases ht : c.isHistory t with
  | false => exact ((under_of_not_history ht).mp hs).trans_below wf.upward h
  | true =>
    obtain ⟨p, hp, hw⟩ := (Ancestry.below_iff wf.upward).mp h
    exact ((under_of_history ht hp).mp hs).trans_within wf.upward hw

/-- Where a state is entered by default: inside it, somewhere, and in states that agree. -/
theorem WellFormed.defaultTargets_spec (hq : (c.node q).isCompound) :
    (∀ t ∈ c.defaultTargets q, c.Below t q) ∧ (c.defaultTargets q).Pairwise c.Apart ∧
      c.defaultTargets q ≠ [] := by
  unfold defaultTargets
  split
  · rename_i t ts as hk
    exact ⟨(wf.initial q _ _ hk).1, (wf.initial q _ _ hk).2, by simp⟩
  · obtain ⟨k, hk⟩ := wf.exists_region q (.inl hq)
    cases hr : c.regions q with
    | nil => simp [hr] at hk
    | cons r rs =>
      have hmem := (wf.mem_regions (k := r) (q := q)).mp (by simp [hr])
      simpa using below_of_parent wf.upward hmem.1

theorem WellFormed.regions_pairwise_ne (q : Nat) : (c.regions q).Pairwise (· ≠ ·) :=
  ((wf.children_ascending q).filter _).imp (fun h => Nat.ne_of_lt h)

theorem WellFormed.defaultEntry_spec (hq : (c.node q).isCompound ∨ (c.node q).isParallel) :
    (∀ t ∈ c.defaultEntry q, c.Below t q) ∧ (c.defaultEntry q).Pairwise c.Apart ∧
      c.defaultEntry q ≠ [] := by
  unfold defaultEntry
  split
  · rename_i hp
    refine ⟨fun t ht => below_of_parent wf.upward (wf.mem_regions.mp ht).1, ?_, ?_⟩
    · refine (wf.regions_pairwise_ne q).imp_of_mem (fun hk hl hne => ?_)
      exact apart_of_regions wf.upward (wf.mem_regions.mp hk).1 (wf.mem_regions.mp hl).1 hp hne
    · obtain ⟨k, hk⟩ := wf.exists_region q hq
      exact List.ne_nil_of_mem hk
  · rename_i hp
    exact wf.defaultTargets_spec (hq.resolve_right hp)

end WellFormed

/-! ### Lists of targets with history states among them -/

/-- A history state of a parallel state is the only member of the list. -/
def Lone (c : Chart) (ts : List Nat) : Prop :=
  ts.length ≤ 1 ∨ ∀ t ∈ ts, c.isHistory t = true → ∀ q, c.parent t = some q →
    (c.node q).isParallel = false

/-- Wherever several targets are entered together, they are entered in states that are apart. -/
structure Separate (c : Chart) : Prop where
  initial : ∀ s ts as, (c.node s).kind = .compound ⟨ts, as⟩ → c.Lone ts
  default : ∀ h d ts as, (c.node h).kind = .history d (some ⟨ts, as⟩) → c.Lone ts
  targets : ∀ r < c.transitions.size, c.Lone (c.transition r).targets

/-- What is apart from a child of a state that is not parallel is apart from that state. -/
theorem Apart.of_child (up : Ancestry.Upward c.parent) (h : c.Apart a b) (ha : c.parent a = some q)
    (hq : (c.node q).isParallel = false) : c.Apart q b := by
  have haq := below_of_parent up ha
  refine ⟨fun hqb => h.not_within (haq.within.trans up hqb), ?_, h.agree.above up haq.within⟩
  rintro (rfl | hbq)
  · exact h.not_within haq.within
  · obtain ⟨l, hl, hbl⟩ := hbq.exists_child up
    rcases h.agree q a l ha hl (.refl c.parent a) hbl with rfl | hp
    · exact h.not_within' hbl
    · simp [hq] at hp

theorem WellFormed.apart_anchor_left (wf : c.WellFormed) (h : c.Apart a b) (hr : c.Below a root)
    (ha : c.isHistory a = true → ∀ q, c.parent a = some q → (c.node q).isParallel = false) :
    c.Apart (c.anchor a) b := by
  cases hh : c.isHistory a with
  | false =>
    rw [anchor_of_not_history hh]
    exact h
  | true =>
    obtain ⟨q, hq⟩ := wf.exists_parent hr
    rw [anchor_of_history hh hq]
    exact h.of_child wf.upward hq (ha hh q hq)

/-- Targets of a lone list are anchored apart. -/
theorem WellFormed.pairwise_apart_anchors (wf : c.WellFormed) {ts : List Nat}
    (hts : ts.Pairwise c.Apart) (hr : ∀ t ∈ ts, c.Below t root) (hl : c.Lone ts) :
    ts.Pairwise (fun a b => c.Apart (c.anchor a) (c.anchor b)) := by
  rcases hl with hl | hl
  · match ts, hl with
    | [], _ => exact .nil
    | [t], _ => simp
  · refine hts.imp_of_mem (fun ha hb h => ?_)
    have hab := wf.apart_anchor_left h (hr _ ha) (hl _ ha)
    exact (wf.apart_anchor_left hab.symm (hr _ hb) (hl _ hb)).symm

end Chart

end Statechart

import Statechart.Proofs.EntryGrowth

/-!
The entry of a state ends. From a history state the recursion goes on at a history state of the same
parent that comes later in its chain, or further down the tree, so every call is lighter than the
one before it, and the number of levels allowed is more than any state weighs.
-/
namespace Statechart.EntryPlan

open Ancestry (below_of_parent)
open Chart (root)

variable {c : Chart} {m : Memory} {p : EntryPlan} {h n q s t u top : Nat} {as rs ts : List Nat}
  {down : Nat → EntryPlan → Option EntryPlan} {rank : Nat → Nat}

/-- How many levels the entry of a target may take. -/
def weight (c : Chart) (rank : Nat → Nat) (t : Nat) : Nat :=
  (c.size - c.anchor t) * (c.size + 2) + if c.isHistory t then rank t else c.size + 1

/-- The target can be added to every plan. -/
def Enterable (down : Nat → EntryPlan → Option EntryPlan) (t : Nat) : Prop :=
  ∀ p, ∃ p', down t p = some p'

theorem exists_openRegions (hrs : ∀ r ∈ rs, Enterable down r) (p : EntryPlan) :
    ∃ p', openRegions c down rs p = some p' := by
  induction rs generalizing p with
  | nil => exact ⟨p, rfl⟩
  | cons r rs ih =>
    have ih := ih (fun r' hr' => hrs r' (by simp [hr']))
    rw [openRegions]
    split
    · exact ih p
    · obtain ⟨p₁, hp₁⟩ := hrs r (by simp) p
      obtain ⟨p₂, hp₂⟩ := ih p₁
      exact ⟨p₂, by simp [hp₁, hp₂]⟩

theorem exists_addAncestors (has : ∀ a ∈ as, ∀ r ∈ c.regions a, Enterable down r) (p : EntryPlan) :
    ∃ p', addAncestors c down as p = some p' := by
  induction as generalizing p with
  | nil => exact ⟨p, rfl⟩
  | cons a as ih =>
    have ih := ih (fun b hb => has b (by simp [hb]))
    simp only [addAncestors]
    split
    · exact ih p
    · split
      · obtain ⟨p₁, hp₁⟩ := exists_openRegions (c := c) (has a (by simp)) (p.addState a)
        obtain ⟨p₂, hp₂⟩ := ih p₁
        exact ⟨p₂, by simp [hp₁, hp₂]⟩
      · exact ih (p.addState a)

theorem exists_addAll (hts : ∀ t ∈ ts, Enterable down t) (p : EntryPlan) :
    ∃ p', addAll down ts p = some p' := by
  induction ts generalizing p with
  | nil => exact ⟨p, rfl⟩
  | cons t ts ih =>
    obtain ⟨p₁, hp₁⟩ := hts t (by simp) p
    obtain ⟨p₂, hp₂⟩ := ih (fun u hu => hts u (by simp [hu])) p₁
    exact ⟨p₂, by simp [addAll, hp₁, hp₂]⟩

section WellFormed

variable (wf : c.WellFormed)
include wf

/-- The ancestors of targets can be added if every region below `top` can be entered. -/
theorem exists_addAllAncestors (hts : ∀ t ∈ ts, c.Below t top)
    (hreg : ∀ r, c.isHistory r = false → c.Below r top → Enterable down r) (p : EntryPlan) :
    ∃ p', addAllAncestors c down top ts p = some p' := by
  induction ts generalizing p with
  | nil => exact ⟨p, rfl⟩
  | cons t ts ih =>
    have hregs : ∀ a ∈ c.ancestorsBelow t top, ∀ r ∈ c.regions a, Enterable down r := by
      intro a ha r hr
      obtain ⟨hpar, hreal⟩ := wf.mem_regions.mp hr
      have hat := ((Chart.mem_ancestorsBelow wf (hts t (by simp))).mp ha).2
      exact hreg r hreal ((below_of_parent wf.upward hpar).trans wf.upward hat)
    obtain ⟨p₁, hp₁⟩ := exists_addAncestors hregs p
    obtain ⟨p₂, hp₂⟩ := ih (fun u hu => hts u (by simp [hu])) p₁
    exact ⟨p₂, by simp [addAllAncestors, hp₁, hp₂]⟩

theorem exists_addTargets (hts : ∀ t ∈ ts, c.Below t top ∧ Enterable down t)
    (hreg : ∀ r, c.isHistory r = false → c.Below r top → Enterable down r) (p : EntryPlan) :
    ∃ p', addTargets c down top ts p = some p' := by
  obtain ⟨p₁, hp₁⟩ := exists_addAll (fun t ht => (hts t ht).2) p
  obtain ⟨p₂, hp₂⟩ := exists_addAllAncestors wf (fun t ht => (hts t ht).1) hreg p₁
  exact ⟨p₂, by simp [addTargets, hp₁, hp₂]⟩

/-! ### Weights -/

theorem anchor_lt_size (ht : c.Below t root) : c.anchor t < c.size := by
  have hlt := wf.lt_size_of_below ht
  have := (Chart.WellFormed.anchor_within wf ht)
  cases hh : c.isHistory t with
  | false => rwa [Chart.anchor_of_not_history hh]
  | true =>
    obtain ⟨q, hq⟩ := wf.exists_parent ht
    rw [Chart.anchor_of_history hh hq]
    exact Nat.lt_trans (wf.upward t q hq) hlt

omit wf in
theorem weight_lt_levels (ranked : c.Ranked rank) (ht : t < c.size) :
    weight c rank t < levels c := by
  have hrank := ranked.lt_size t ht
  have hmul : (c.size - c.anchor t) * (c.size + 2) ≤ c.size * (c.size + 2) :=
    Nat.mul_le_mul_right _ (Nat.sub_le _ _)
  have hlevels : levels c = c.size * (c.size + 2) + 2 * (c.size + 2) := by
    rw [levels, Nat.add_mul]
  rw [weight, hlevels]
  split <;> omega

/-- A target anchored further down is lighter. -/
theorem weight_lt_of_anchor_lt (ranked : c.Ranked rank) (hu : c.Below u root)
    (h : c.anchor t < c.anchor u) : weight c rank u < weight c rank t := by
  have hrank := ranked.lt_size u (wf.lt_size_of_below hu)
  have hlt := anchor_lt_size wf hu
  have hmul : (c.size - c.anchor u + 1) * (c.size + 2) ≤ (c.size - c.anchor t) * (c.size + 2) :=
    Nat.mul_le_mul_right _ (by omega)
  rw [Nat.add_mul, Nat.one_mul] at hmul
  unfold weight
  split <;> split <;> omega

/-- Below a state that is not a history state every target is lighter. -/
theorem weight_lt_of_below (ranked : c.Ranked rank) (ht : c.isHistory t = false)
    (hu : c.Below u t) : weight c rank u < weight c rank t := by
  have hroot := wf.below_root_of_below hu
  have hanchor := Chart.anchor_of_not_history ht
  rcases wf.anchor_within hu with he | hlt
  · have hrank := ranked.lt_size u (wf.lt_size_of_below hu)
    have hhist : c.isHistory u = true := by
      by_contra hh
      rw [Chart.anchor_of_not_history (by simpa using hh)] at he
      exact Ancestry.not_below_self wf.upward t (he ▸ hu)
    simp only [weight, hanchor, he, hhist, ht, if_true, Bool.false_eq_true, if_false]
    omega
  · apply weight_lt_of_anchor_lt wf ranked hroot
    rw [hanchor]
    exact hlt.lt wf.upward

/-- Where a history state leads is lighter than it. -/
theorem weight_lt_of_lead (proper : m.Proper c) (ranked : c.Ranked rank)
    (hh : c.isHistory h = true) (hq : c.parent h = some q) (hu : u ∈ c.leads m h q) :
    weight c rank u < weight c rank h := by
  have hbelow := wf.leads_below proper hh hq u hu
  have hanchor := Chart.anchor_of_history hh hq
  rcases wf.anchor_within hbelow with he | hlt
  · have hhist : c.isHistory u = true := by
      by_contra hf
      rw [Chart.anchor_of_not_history (by simpa using hf)] at he
      exact Ancestry.not_below_self wf.upward q (he ▸ hbelow)
    have := ranked.falls h u (Chart.refers_of_mem_leads proper hh hq hu hhist)
    simp only [weight, hanchor, he, hhist, hh, if_true]
    omega
  · apply weight_lt_of_anchor_lt wf ranked (wf.below_root_of_below hbelow)
    rw [hanchor]
    exact hlt.lt wf.upward

/-- Every region below the parent of a history state is lighter than it. -/
theorem weight_lt_of_below_parent (ranked : c.Ranked rank) (hh : c.isHistory h = true)
    (hq : c.parent h = some q) (hu : c.isHistory u = false) (hbelow : c.Below u q) :
    weight c rank u < weight c rank h := by
  apply weight_lt_of_anchor_lt wf ranked (wf.below_root_of_below hbelow)
  rw [Chart.anchor_of_history hh hq, Chart.anchor_of_not_history hu]
  exact hbelow.lt wf.upward

theorem enterable_addWithin (proper : m.Proper c) (ranked : c.Ranked rank)
    (ht : c.isHistory t = true → c.Below t root) (hn : weight c rank t < n) :
    Enterable (addWithin c m n) t := by
  induction n generalizing t with
  | zero => omega
  | succ n ih =>
    intro p
    have lighter (u : Nat) (hu : c.Below u root) (hlt : weight c rank u < weight c rank t) :
        Enterable (addWithin c m n) u := ih (fun _ => hu) (by omega)
    cases hh : c.isHistory t with
    | true =>
      obtain ⟨q, hq⟩ := wf.exists_parent (ht hh)
      obtain ⟨p', -, he⟩ := addWithin_of_history (m := m) hh hq n p
      rw [he]
      have hbelow := wf.leads_below proper hh hq
      refine exists_addTargets wf (fun u hu => ⟨hbelow u hu, ?_⟩) (fun r hr hrq => ?_) p'
      · exact lighter u (wf.below_root_of_below (hbelow u hu))
          (weight_lt_of_lead wf proper ranked hh hq hu)
      · exact lighter r (wf.below_root_of_below hrq)
          (weight_lt_of_below_parent wf ranked hh hq hr hrq)
    | false =>
      have inside (u : Nat) (hu : c.Below u t) : Enterable (addWithin c m n) u :=
        lighter u (wf.below_root_of_below hu) (weight_lt_of_below wf ranked hh hu)
      unfold addWithin
      cases hk : (c.node t).kind with
      | history d e => simp [Chart.isHistory, Node.isHistory, hk] at hh
      | atomic => exact ⟨_, rfl⟩
      | final => exact ⟨_, rfl⟩
      | compound i =>
        have hbelow := (wf.defaultTargets_spec (q := t) (by simp [Node.isCompound, hk])).1
        exact exists_addTargets wf (fun u hu => ⟨hbelow u hu, inside u (hbelow u hu)⟩)
          (fun r _ hr => inside r hr) _
      | parallel =>
        refine exists_openRegions (fun r hr => inside r ?_) _
        exact below_of_parent wf.upward (wf.mem_regions.mp hr).1

/-- Every target can be added when no chain of history defaults leads back to itself. -/
theorem enterable_add? (proper : m.Proper c) (g : c.Grounded) (ht : c.Below t root) :
    Enterable (fun s p => p.add? c m s) t := by
  obtain ⟨rank, ranked⟩ := g.exists_ranked wf
  exact enterable_addWithin wf proper ranked (fun _ => ht)
    (weight_lt_levels ranked (wf.lt_size_of_below ht))

end WellFormed

end Statechart.EntryPlan

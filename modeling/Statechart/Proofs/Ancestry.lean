import Statechart.Ancestry

/-!
The order of the tree. The ancestors of a state form a chain, so of two states above a third one
lies within the other, and whatever lies below a state lies within exactly one of its children.
-/
namespace Statechart.Ancestry

variable {parent : Nat → Option Nat} {s t a b k l q : Nat}

/-- `s` lies properly below `a`. -/
def Below (parent : Nat → Option Nat) (s a : Nat) : Prop := a ∈ ancestors parent s

/-- `s` is `a` or lies below it. -/
def Within (parent : Nat → Option Nat) (s a : Nat) : Prop := s = a ∨ Below parent s a

theorem isDescendant_iff : isDescendant parent s a = true ↔ Below parent s a := by
  simp [isDescendant, Below]

theorem Within.refl (parent : Nat → Option Nat) (s : Nat) : Within parent s s := .inl rfl

theorem Below.within (h : Below parent s a) : Within parent s a := .inr h

theorem below_iff (up : Upward parent) :
    Below parent s a ↔ ∃ p, parent s = some p ∧ Within parent p a := by
  cases hp : parent s with
  | none => simp [Below, ancestors_of_root hp]
  | some p => simp [Below, Within, ancestors_of_parent up hp, eq_comm]

theorem below_of_parent (up : Upward parent) (h : parent s = some a) : Below parent s a :=
  (below_iff up).mpr ⟨a, h, .refl parent a⟩

theorem Below.lt (up : Upward parent) (h : Below parent s a) : a < s := lt_of_mem_ancestors up h

theorem not_below_self (up : Upward parent) (s : Nat) : ¬Below parent s s :=
  fun h => Nat.lt_irrefl s (h.lt up)

theorem Below.trans (up : Upward parent) (h : Below parent s t) (h' : Below parent t a) :
    Below parent s a := by
  induction s using Nat.strongRecOn with
  | ind s ih =>
    obtain ⟨p, hp, hw⟩ := (below_iff up).mp h
    refine (below_iff up).mpr ⟨p, hp, .inr ?_⟩
    cases hw with
    | inl he => exact he ▸ h'
    | inr hb => exact ih p (up s p hp) hb

theorem Within.trans_below (up : Upward parent) (h : Within parent s t) (h' : Below parent t a) :
    Below parent s a := by
  cases h with
  | inl he => exact he ▸ h'
  | inr hb => exact hb.trans up h'

theorem Below.trans_within (up : Upward parent) (h : Below parent s t) (h' : Within parent t a) :
    Below parent s a := by
  cases h' with
  | inl he => exact he ▸ h
  | inr hb => exact h.trans up hb

theorem Within.trans (up : Upward parent) (h : Within parent s t) (h' : Within parent t a) :
    Within parent s a := by
  cases h with
  | inl he => exact he ▸ h'
  | inr hb => exact .inr (hb.trans_within up h')

theorem Within.le (up : Upward parent) (h : Within parent s a) : a ≤ s := by
  cases h with
  | inl he => omega
  | inr hb => have := hb.lt up; omega

/-- Two states above a third one are related. -/
theorem Within.total (up : Upward parent) (ha : Within parent s a) (hb : Within parent s b) :
    Within parent a b ∨ Within parent b a := by
  induction s using Nat.strongRecOn with
  | ind s ih =>
    cases ha with
    | inl he => exact .inl (he ▸ hb)
    | inr ha =>
      cases hb with
      | inl he => exact .inr (he ▸ .inr ha)
      | inr hb =>
        obtain ⟨p, hp, hpa⟩ := (below_iff up).mp ha
        obtain ⟨p', hp', hpb⟩ := (below_iff up).mp hb
        have he : p = p' := Option.some.inj (hp.symm.trans hp')
        exact ih p (up s p hp) hpa (he ▸ hpb)

/-- What lies below a state lies within one of its children. -/
theorem Below.exists_child (up : Upward parent) (h : Below parent s a) :
    ∃ k, parent k = some a ∧ Within parent s k := by
  induction s using Nat.strongRecOn with
  | ind s ih =>
    obtain ⟨p, hp, hw⟩ := (below_iff up).mp h
    cases hw with
    | inl he => exact ⟨s, he ▸ hp, .refl parent s⟩
    | inr hb =>
      obtain ⟨k, hk, hkw⟩ := ih p (up s p hp) hb
      exact ⟨k, hk, .trans up (below_of_parent up hp).within hkw⟩

/-- Nothing stands between a child and its parent. -/
theorem within_parent_of_below (up : Upward parent) (hk : parent k = some q)
    (h : Below parent k a) : Within parent q a := by
  obtain ⟨p, hp, hw⟩ := (below_iff up).mp h
  exact Option.some.inj (hk.symm.trans hp) ▸ hw

theorem child_unique (up : Upward parent) (hk : parent k = some q) (hl : parent l = some q)
    (hsk : Within parent s k) (hsl : Within parent s l) : k = l := by
  have hab (a b : Nat) (ha : parent a = some q) (hb : parent b = some q)
      (h : Within parent a b) : a = b := by
    cases h with
    | inl he => exact he
    | inr h =>
      have hq := (within_parent_of_below up ha h).le up
      have := up b q hb
      omega
  cases hsk.total up hsl with
  | inl h => exact hab k l hk hl h
  | inr h => exact (hab l k hl hk h).symm

/-- Going up, numbers fall. -/
theorem ancestors_pairwise (up : Upward parent) (s : Nat) :
    (ancestors parent s).Pairwise (· > ·) := by
  induction s using Nat.strongRecOn with
  | ind s ih =>
    cases hp : parent s with
    | none => simp [ancestors_of_root hp]
    | some p =>
      rw [ancestors_of_parent up hp]
      exact List.pairwise_cons.mpr ⟨fun a ha => lt_of_mem_ancestors up ha, ih p (up s p hp)⟩

/-- The first ancestor in a chain that passes a test is within every other one that does. -/
theorem within_of_find?_ancestors (up : Upward parent) {f : Nat → Bool}
    (h : (ancestors parent s).find? f = some q) :
    Below parent s q ∧ f q = true ∧ ∀ p, Below parent s p → f p = true → Within parent q p := by
  obtain ⟨hq, l₁, l₂, he, hl⟩ := List.find?_eq_some_iff_append.mp h
  have hsq : Below parent s q := by simp [Below, he]
  refine ⟨hsq, hq, fun p hp hfp => ?_⟩
  have hsort := ancestors_pairwise up s
  have hmem : p ∈ l₁ ++ q :: l₂ := he ▸ hp
  rw [he] at hsort
  have hge : p ≤ q := by
    rcases List.mem_append.mp hmem with h₁ | h₂
    · exact absurd hfp (by simpa using hl p h₁)
    · rcases List.mem_cons.mp h₂ with rfl | h₂
      · exact Nat.le_refl p
      · have := (List.pairwise_cons.mp (List.pairwise_append.mp hsort).2.1).1 p h₂
        omega
  cases hsq.within.total up hp.within with
  | inl hw => exact hw
  | inr hw => exact .inl (Nat.le_antisymm (hw.le up) hge)

end Statechart.Ancestry

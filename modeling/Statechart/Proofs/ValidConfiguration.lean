import Statechart.Configuration
import Statechart.Proofs.Agreement

/-!
Valid configurations. What the check of a configuration looks for is that the active states hang
together, that an active compound state has one active region and a parallel one all of them. Any
two active states of such a configuration agree, and no active state could be left out of it.
-/
namespace Statechart

namespace Configuration

/-- Exactly one region is active. -/
def Single (c : Chart) (x : Configuration) (q : Nat) : Prop :=
  ∃ k ∈ c.regions q, k ∈ x ∧ ∀ l ∈ c.regions q, l ∈ x → l = k

def Every (c : Chart) (x : Configuration) (q : Nat) : Prop := ∀ k ∈ c.regions q, k ∈ x

/-- The root counts as active. -/
def Active (x : Configuration) (s : Nat) : Prop := s = Chart.root ∨ s ∈ x

/-- The parent of every active state is active. -/
def Attached (c : Chart) (x : Configuration) : Prop :=
  ∀ s ∈ x, ∀ p, c.parent s = some p → x.Active p

/-- Nothing is missing above the active states, nor at a parallel root. -/
structure Rooted (c : Chart) (x : Configuration) : Prop where
  attached : x.Attached c
  every : (c.node Chart.root).isParallel = true → x.Every c Chart.root

structure Valid (c : Chart) (x : Configuration) : Prop where
  known : ∀ s ∈ x, s < c.size
  real : ∀ s ∈ x, c.isHistory s = false
  attached : x.Attached c
  single : ∀ q, x.Active q → (c.node q).isCompound → x.Single c q
  every : ∀ q, x.Active q → (c.node q).isParallel → x.Every c q

theorem active_root (x : Configuration) : x.Active Chart.root := .inl rfl

variable {c : Chart} {x y : Configuration} {s q : Nat}

theorem Active.mem (h : x.Active s) (hs : s ≠ Chart.root) : s ∈ x := h.resolve_left hs

theorem checkState_eq_ok_iff : x.checkState c s = .ok () ↔
    s < c.size ∧ c.isHistory s = false ∧ ∀ p, c.parent s = some p → x.Active p := by
  unfold checkState Active
  by_cases hs : s < c.size
  · have hg : c.get? s = some (c.node s) := by
      have : s < c.states.size := hs
      simp [Chart.get?, Chart.node, Array.getD, this]
    simp only [hg, hs, Chart.isHistory, Chart.parent]
    cases hh : (c.node s).isHistory with
    | true => simp
    | false =>
      cases hp : (c.node s).parent with
      | none => simp
      | some p => simp [Classical.or_iff_not_imp_left]
  · have hg : c.get? s = none := by
      have : ¬s < c.states.size := hs
      simp [Chart.get?, this]
    simp [hg, hs]

theorem single_iff (wf : c.WellFormed) :
    x.Single c q ↔ ((c.regions q).filter x.contains).length = 1 := by
  rw [List.length_eq_one_iff]
  constructor
  · rintro ⟨k, hk, hkx, huniq⟩
    refine ⟨k, ?_⟩
    have hnd : ((c.regions q).filter x.contains).Pairwise (· ≠ ·) :=
      (wf.regions_pairwise_ne q).filter _
    have hall : ∀ l ∈ (c.regions q).filter x.contains, l = k := by
      intro l hl
      simp only [List.mem_filter, StateSet.contains_iff] at hl
      exact huniq l hl.1 hl.2
    have hmem : k ∈ (c.regions q).filter x.contains := by simp [hk, hkx]
    rcases hf : (c.regions q).filter x.contains with _ | ⟨l, _ | ⟨l', ls⟩⟩
    · simp [hf] at hmem
    · rw [hall l (by simp [hf])]
    · rw [hf] at hnd hall
      exact absurd ((hall l (by simp)).trans (hall l' (by simp)).symm)
        ((List.pairwise_cons.mp hnd).1 l' (by simp))
  · rintro ⟨k, hk⟩
    have hmem : ∀ l, l ∈ c.regions q ∧ l ∈ x ↔ l = k := by
      intro l
      have : l ∈ (c.regions q).filter x.contains ↔ l ∈ [k] := by rw [hk]
      simpa using this
    exact ⟨k, ((hmem k).mpr rfl).1, ((hmem k).mpr rfl).2, fun l hl hlx => (hmem l).mp ⟨hl, hlx⟩⟩

theorem checkChildren_eq_ok_iff (wf : c.WellFormed) : x.checkChildren c q = .ok () ↔
    ((c.node q).isCompound → x.Single c q) ∧ ((c.node q).isParallel → x.Every c q) := by
  have hroot : (c.node q).isCompound = false → (c.node q).isParallel = false → q ≠ Chart.root := by
    rintro hc hp rfl
    rcases wf.root_inner with h | h <;> simp_all
  have hboth : (c.node q).isCompound = true → (c.node q).isParallel = false := by
    unfold Node.isCompound Node.isParallel
    cases (c.node q).kind <;> simp
  simp only [checkChildren]
  cases hc : (c.node q).isCompound with
  | true =>
    simp only [hboth hc, Bool.true_or, if_true, single_iff wf]
    split <;> simp_all
  | false =>
    cases hp : (c.node q).isParallel with
    | false => simp [hroot hc hp]
    | true =>
      simp only [Bool.false_or, Bool.not_true, Bool.and_false, Bool.false_eq_true, if_false, if_true,
        Every, false_implies, true_and, forall_const]
      split
      · rename_i r hr
        have hmem := List.mem_of_find?_eq_some hr
        have hout := List.find?_some hr
        simp only [Bool.not_eq_true', ← Bool.not_eq_true, StateSet.contains_iff] at hout
        simp only [reduceCtorEq, false_iff]
        exact fun h => hout (h r hmem)
      · rename_i hr
        simpa using hr

/-- The check of a configuration says what it means. -/
theorem validate_eq_ok_iff (wf : c.WellFormed) :
    x.validate c = .ok () ↔ x.isEmpty = true ∨ x.Valid c := by
  unfold validate
  cases x.isEmpty with
  | true => simp [pure, Except.pure]
  | false =>
    simp only [Bool.false_eq_true, if_false, false_or, seq_eq_ok_iff, forM_eq_ok_iff,
      checkState_eq_ok_iff, checkChildren_eq_ok_iff wf, StateSet.mem_toList]
    constructor
    · rintro ⟨hs, hr, hc⟩
      refine ⟨fun s h => (hs s h).1, fun s h => (hs s h).2.1, fun s h => (hs s h).2.2, ?_, ?_⟩
      · rintro q (rfl | hq) hk
        · exact hr.1 hk
        · exact (hc q hq).1 hk
      · rintro q (rfl | hq) hk
        · exact hr.2 hk
        · exact (hc q hq).2 hk
    · intro h
      exact ⟨fun s hs => ⟨h.known s hs, h.real s hs, h.attached s hs⟩,
        ⟨h.single _ x.active_root, h.every _ x.active_root⟩,
        fun q hq => ⟨h.single q (.inr hq), h.every q (.inr hq)⟩⟩

theorem validate_eq_ok_iff_of_mem (wf : c.WellFormed) (hs : s ∈ x) :
    x.validate c = .ok () ↔ x.Valid c := by
  rw [validate_eq_ok_iff wf, or_iff_right]
  intro hempty
  have hnil : x.toList = [] := List.isEmpty_iff.mp hempty
  rw [← StateSet.mem_toList, hnil] at hs
  simp at hs

/-- Something is active unless the configuration is empty. -/
theorem exists_mem (h : x.isEmpty = false) : ∃ s, s ∈ x := by
  have hne : x.toList ≠ [] := fun hnil => by simp [StateSet.isEmpty, hnil] at h
  obtain ⟨s, hs⟩ := List.exists_mem_of_ne_nil x.toList hne
  exact ⟨s, StateSet.mem_toList.mp hs⟩

theorem Valid.rooted (h : x.Valid c) : x.Rooted c :=
  ⟨h.attached, h.every Chart.root x.active_root⟩

/-- Everything above an active state is active. -/
theorem Attached.active_of_within (wf : c.WellFormed) (h : x.Attached c) (hs : x.Active s)
    (hq : c.Within s q) : x.Active q := by
  induction s using Nat.strongRecOn with
  | ind s ih =>
    rcases hq with rfl | hq
    · exact hs
    · obtain ⟨p, hp, hw⟩ := (Ancestry.below_iff wf.upward).mp hq
      have hsx := hs.mem (wf.ne_root_of_below hq)
      exact ih p (wf.upward s p hp) (h s hsx p hp) hw

theorem Attached.mem_of_within (wf : c.WellFormed) (h : x.Attached c) (hs : s ∈ x)
    (hq : c.Within s q) (hne : q ≠ Chart.root) : q ∈ x :=
  (h.active_of_within wf (.inr hs) hq).mem hne

theorem Valid.active_of_within (wf : c.WellFormed) (h : x.Valid c) (hs : x.Active s)
    (hq : c.Within s q) : x.Active q := h.attached.active_of_within wf hs hq

end Configuration

/-- No two states of the set ask for different regions of one compound state. -/
def Chart.Compatible (c : Chart) (x : StateSet) : Prop := ∀ a ∈ x, ∀ b ∈ x, c.Agree a b

/-- No compound state has two regions in the set. -/
def Chart.Exclusive (c : Chart) (x : StateSet) : Prop :=
  ∀ q, (c.node q).isParallel = false → ∀ k ∈ c.regions q, ∀ l ∈ c.regions q, k ∈ x → l ∈ x → k = l

namespace Configuration

variable {c : Chart} {x y : Configuration} {s q : Nat}

theorem Valid.exclusive (wf : c.WellFormed) (h : x.Valid c) : c.Exclusive x := by
  intro q hq k hk l hl hkx hlx
  have hp := (wf.mem_regions.mp hk).1
  have hin := (wf.inner_of_parent hp).resolve_right (by simp [hq])
  obtain ⟨j, -, -, huniq⟩ := h.single q (h.attached k hkx q hp) hin
  exact (huniq k hk hkx).trans (huniq l hl hlx).symm

theorem exclusive_of_compatible (wf : c.WellFormed) (h : c.Compatible x) : c.Exclusive x := by
  intro q hq k hk l hl hkx hlx
  have := h k hkx l hlx q k l (wf.mem_regions.mp hk).1 (wf.mem_regions.mp hl).1
    (.refl c.parent k) (.refl c.parent l)
  exact this.resolve_right (by simp [hq])

theorem Valid.compatible (wf : c.WellFormed) (h : x.Valid c) : c.Compatible x := by
  intro a ha b hb q k l hk hl hak hbl
  by_cases hq : (c.node q).isParallel = true
  · exact .inr hq
  · have hne {j p : Nat} (hj : c.parent j = some p) : j ≠ Chart.root :=
      wf.ne_root_of_below (Ancestry.below_of_parent wf.upward hj)
    have hkx := (h.active_of_within wf (.inr ha) hak).mem (hne hk)
    have hlx := (h.active_of_within wf (.inr hb) hbl).mem (hne hl)
    exact .inl (h.exclusive wf q (by simpa using hq) k (wf.mem_regions.mpr ⟨hk, h.real k hkx⟩) l
      (wf.mem_regions.mpr ⟨hl, h.real l hlx⟩) hkx hlx)

/-- Of two valid configurations neither is a part of the other. -/
theorem Valid.eq_of_subset (wf : c.WellFormed) (hx : x.Valid c) (hy : y.Valid c)
    (h : ∀ s ∈ x, s ∈ y) (hroot : Chart.root ∈ y → Chart.root ∈ x) : x = y := by
  refine StateSet.ext fun s => ⟨h s, ?_⟩
  induction s using Nat.strongRecOn with
  | ind s ih =>
    intro hs
    by_cases hr : s = Chart.root
    · exact hr ▸ hroot (hr ▸ hs)
    · obtain ⟨p, hp⟩ := wf.exists_parent (wf.below_root s (hy.known s hs) hr)
      have hpy := hy.attached s hs p hp
      have hpx : x.Active p := hpy.imp_right (ih p (wf.upward s p hp))
      have hsr := wf.mem_regions.mpr ⟨hp, hy.real s hs⟩
      rcases wf.inner_of_parent hp with hin | hin
      · obtain ⟨k, hk, hkx, -⟩ := hx.single p hpx hin
        obtain ⟨j, -, -, huniq⟩ := hy.single p hpy hin
        rw [huniq s hsr hs, ← huniq k hk (h k hkx)]
        exact hkx
      · exact hx.every p hpx hin s hsr

end Configuration

end Statechart

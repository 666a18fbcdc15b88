import Statechart.Proofs.ValidConfiguration

/-!
Completion. A compound state is complete when a final child of it is active, a parallel state when
all of its regions are. Whether a state is complete is decided by the active final states that
count for it: its own final children, or those that count for a region of it.
-/
namespace Statechart

namespace Chart

/-- The final state `f` counts for the completion of a state. -/
inductive Concludes (c : Chart) (f : Nat) : Nat → Prop
  | child {q : Nat} : (c.node q).isCompound = true → f ∈ (c.node q).children →
      (c.node f).isFinal = true → Concludes c f q
  | region {q r : Nat} : (c.node q).isParallel = true → r ∈ c.regions q → Concludes c f r →
      Concludes c f q

def grandparent (c : Chart) (s : Nat) : Option Nat := (c.parent s).bind c.parent

variable {c : Chart} {f q r s : Nat}

theorem Concludes.isFinal (h : c.Concludes f q) : (c.node f).isFinal = true := by
  induction h with
  | child _ _ hf => exact hf
  | region _ _ _ ih => exact ih

theorem below_of_concludes (wf : c.WellFormed) (h : c.Concludes f q) : c.Below f q := by
  induction h with
  | child _ hf _ => exact Ancestry.below_of_parent wf.upward ((wf.mem_children _ _).mp hf)
  | region _ hr _ ih =>
    exact ih.trans wf.upward (Ancestry.below_of_parent wf.upward (wf.mem_regions.mp hr).1)

theorem not_history_of_final (h : (c.node f).isFinal = true) : c.isHistory f = false := by
  simp [isHistory, Node.isHistory, Node.isFinal_iff.mp h]

/-- What counts for a parallel state whose regions are not parallel is a grandchild of it. -/
theorem Concludes.grandparent_eq (wf : c.WellFormed) (hq : (c.node q).isParallel = true)
    (hregions : ∀ r ∈ c.regions q, (c.node r).isParallel = false) (h : c.Concludes f q) :
    c.grandparent f = some q := by
  cases h with
  | child hc _ _ => simp [Node.not_parallel_of_compound hc] at hq
  | region _ hr h =>
    cases h with
    | child _ hf _ =>
      rw [grandparent, (wf.mem_children _ _).mp hf, Option.bind_some, (wf.mem_regions.mp hr).1]
    | region hp _ _ => simp [hregions _ hr] at hp

end Chart

namespace Configuration

variable {c : Chart} {x y : Configuration} {f g q r s : Nat} {n m : Nat}

/-! ### What decides whether a state is complete -/

theorem isFinalWithin_of_concluding (h : ∀ f, c.Concludes f q → f ∈ y → f ∈ x)
    (hy : y.isFinalWithin c n q = true) : x.isFinalWithin c n q = true := by
  induction n generalizing q with
  | zero => simp [isFinalWithin] at hy
  | succ n ih =>
    unfold isFinalWithin at hy ⊢
    cases hk : (c.node q).kind with
    | parallel =>
      simp only [hk, List.all_eq_true] at hy ⊢
      have hq := Node.isParallel_iff.mpr hk
      exact fun r hr => ih (fun f hf => h f (.region hq hr hf)) (hy r hr)
    | compound i =>
      simp only [hk, List.any_eq_true, Bool.and_eq_true, StateSet.contains_iff] at hy ⊢
      have hq := Node.isCompound_iff.mpr ⟨i, hk⟩
      obtain ⟨f, hf, hfinal, hfy⟩ := hy
      exact ⟨f, hf, hfinal, h f (.child hq hf hfinal) hfy⟩
    | atomic => simp [hk] at hy
    | final => simp [hk] at hy
    | history d e => simp [hk] at hy

/-- A state stays complete as long as the final states that count for it stay active. -/
theorem isFinal_of_concluding (h : ∀ f, c.Concludes f q → f ∈ y → f ∈ x)
    (hy : y.isFinal c q = true) : x.isFinal c q = true :=
  isFinalWithin_of_concluding h hy

/-- A state that has become complete did so by a final state that has become active. -/
theorem exists_concluding (hy : y.isFinal c q = true) (hx : x.isFinal c q = false) :
    ∃ f, c.Concludes f q ∧ f ∈ y ∧ f ∉ x := by
  by_contra hno
  push Not at hno
  simp [isFinal_of_concluding hno hy] at hx

/-! ### Levels -/

theorem isFinalWithin_of_not_lt (hq : ¬q < c.size) : x.isFinalWithin c n q = false := by
  cases n with
  | zero => rfl
  | succ n =>
    simp only [isFinalWithin, Chart.node_of_not_lt hq]
    rfl

/-- Levels enough for all that lies below a state are enough for the state. -/
theorem isFinalWithin_eq (wf : c.WellFormed) (hn : c.size ≤ n + q) (hm : c.size ≤ m + q) :
    x.isFinalWithin c n q = x.isFinalWithin c m q := by
  by_cases hq : q < c.size
  · induction n generalizing q m with
    | zero => omega
    | succ n ih =>
      cases m with
      | zero => omega
      | succ m =>
        unfold isFinalWithin
        cases hk : (c.node q).kind with
        | parallel =>
          simp only
          rw [Bool.eq_iff_iff, List.all_eq_true, List.all_eq_true]
          refine forall₂_congr fun r hr => ?_
          have hpar := (wf.mem_regions.mp hr).1
          have hlt := wf.upward r q hpar
          rw [ih (m := m) (by omega) (by omega) (Chart.lt_size_of_parent hpar)]
        | _ => rfl
  · rw [isFinalWithin_of_not_lt hq, isFinalWithin_of_not_lt hq]

/-- A parallel state is complete when all of its regions are. -/
theorem isFinal_parallel (wf : c.WellFormed) (hq : (c.node q).isParallel = true) :
    x.isFinal c q = true ↔ ∀ r ∈ c.regions q, x.isFinal c r = true := by
  have hk := Node.isParallel_iff.mp hq
  obtain ⟨n, hn⟩ : ∃ n, c.size = n + 1 := by
    obtain ⟨r, hr⟩ := wf.exists_region q (.inr hq)
    have := Chart.lt_size_of_parent (wf.mem_regions.mp hr).1
    exact ⟨c.size - 1, by omega⟩
  unfold isFinal
  rw [hn]
  conv_lhs => unfold isFinalWithin
  simp only [hk, List.all_eq_true]
  refine forall₂_congr fun r hr => ?_
  have hlt := wf.upward r q (wf.mem_regions.mp hr).1
  rw [isFinalWithin_eq wf (m := n + 1) (by omega) (by omega)]

theorem isFinal_compound (hq : (c.node q).isCompound = true) :
    x.isFinal c q = true ↔ ∃ f ∈ (c.node q).children, (c.node f).isFinal = true ∧ f ∈ x := by
  obtain ⟨i, hk⟩ := Node.isCompound_iff.mp hq
  have hlt : q < c.size := by
    by_contra hlt
    simp [Chart.node_of_not_lt hlt, Node.isCompound, show (default : Node).kind = .atomic from rfl]
      at hq
  obtain ⟨n, hn⟩ : ∃ n, c.size = n + 1 := ⟨c.size - 1, by omega⟩
  unfold isFinal
  rw [hn]
  simp [isFinalWithin, hk]

/-- A final state is not itself said to be complete. -/
theorem isFinal_of_final (hq : (c.node q).isFinal = true) : x.isFinal c q = false := by
  have hk := Node.isFinal_iff.mp hq
  unfold isFinal
  cases c.size <;> simp [isFinalWithin, hk]

/-- A parallel state with a final child is never complete. -/
theorem isFinal_of_final_child (wf : c.WellFormed) (hq : (c.node q).isParallel = true)
    (hf : c.parent f = some q) (hfinal : (c.node f).isFinal = true) : x.isFinal c q = false := by
  rw [← Bool.not_eq_true, isFinal_parallel wf hq]
  intro hall
  have hr := wf.mem_regions.mpr ⟨hf, Chart.not_history_of_final hfinal⟩
  exact absurd (hall f hr) (by simp [isFinal_of_final hfinal])

/-- Where no compound state has two active regions, every final state that counts is needed. -/
theorem not_isFinal_of_missing (wf : c.WellFormed) (hy : c.Exclusive y) (hsub : ∀ s ∈ x, s ∈ y)
    (h : c.Concludes f q) (hfy : f ∈ y) (hfx : f ∉ x) : x.isFinal c q = false := by
  rw [← Bool.not_eq_true]
  intro hx
  induction h with
  | @child q hq hf hfinal =>
    obtain ⟨k, hk, hkfinal, hkx⟩ := (isFinal_compound hq).mp hx
    have hregion {k : Nat} (hk : k ∈ (c.node q).children) (hkfinal : (c.node k).isFinal = true) :
        k ∈ c.regions q :=
      wf.mem_regions.mpr ⟨(wf.mem_children q k).mp hk, Chart.not_history_of_final hkfinal⟩
    have heq := hy q (Node.not_parallel_of_compound hq) k (hregion hk hkfinal) f
      (hregion hf hfinal) (hsub k hkx) hfy
    exact hfx (heq ▸ hkx)
  | region hq hr _ ih => exact ih ((isFinal_parallel wf hq).mp hx _ hr)

end Configuration

end Statechart

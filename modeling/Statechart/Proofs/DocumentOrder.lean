import Statechart.Proofs.BuiltChart

/-!
Document order and the tree. Every state stands right after something within its own parent, so
what stands between a state and something within it lies within it too. The transitions of a state
are listed by increasing rank.
-/
namespace Statechart

namespace Ancestry

variable {parent : Nat → Option Nat} {d s t u : Nat}

/-- Subtrees are not interrupted. -/
def Contiguous (parent : Nat → Option Nat) : Prop :=
  ∀ k q, parent k = some q → Within parent (k - 1) q

/-- What stands between a state and something within it lies within it. -/
theorem Contiguous.within_of_between (h : Contiguous parent) (up : Upward parent)
    (hu : Within parent u d) (hdt : d ≤ t) (htu : t ≤ u) : Within parent t d := by
  induction hn : u - t generalizing u with
  | zero =>
    obtain rfl : t = u := by omega
    exact hu
  | succ n ih =>
    obtain ⟨q, hq, hqd⟩ := (below_iff up).mp (hu.resolve_left (by omega))
    exact ih ((h u q hq).trans up hqd) (by omega) (by omega)

/-- What stands between two states within a third one lies below that one. -/
theorem Contiguous.below_of_between (h : Contiguous parent) (up : Upward parent)
    (hs : Within parent s d) (hu : Within parent u d) (hst : s < t) (htu : t ≤ u) :
    Below parent t d := by
  have hds := hs.le up
  exact (h.within_of_between up hu (by omega) htu).resolve_left (by omega)

end Ancestry

open Ancestry (Contiguous Upward Within below_of_parent)

namespace StateDecl

variable {parent : Nat → Option Nat}

/-- A stretch of an outline lies within its first state. -/
theorem within_of_outline (up : Upward parent) (par : Option Nat) (depth first rank : Nat)
    (hpar : ∀ q, par = some q → q < first) (d : StateDecl)
    (hread : ∀ s i, (s, i) ∈ (d.outline par depth first rank).zipIdx first → parent i = s.parent)
    {i : Nat} (hle : first ≤ i) (hlt : i < first + d.size) : Within parent i first := by
  induction i using Nat.strongRecOn with
  | ind i ih =>
    obtain ⟨s, hs⟩ : ∃ s, (s, i) ∈ (d.outline par depth first rank).zipIdx first := by
      have hlen := d.length_outline par depth first rank
      have hi : i - first < (d.outline par depth first rank).length := by omega
      exact ⟨_, List.mem_zipIdx_iff_le_and_getElem?_sub.mpr ⟨hle, List.getElem?_eq_getElem hi⟩⟩
    rcases (d.numbered_outline par depth first rank hpar).parent s i hs with
      ⟨-, hi⟩ | ⟨q, hq, hle', hlt'⟩
    · exact .inl (by simpa using hi)
    · have hqi : parent i = some q := (hread s i hs).trans hq
      exact (below_of_parent up hqi).within.trans up (ih q hlt' hle' (by omega))

mutual

theorem contiguous_outline (up : Upward parent) (par : Option Nat) (depth first rank : Nat) :
    (d : StateDecl) →
      (∀ s i, (s, i) ∈ (d.outline par depth first rank).zipIdx first → parent i = s.parent) →
      ∀ k q, first < k → k < first + d.size → parent k = some q → Within parent (k - 1) q
  | ⟨name, kind, initial, initialActions, onEntry, onExit, transitions, children⟩ => by
    intro hread k q hlt hk hq
    refine contiguous_outlineAll up first (depth + 1) (first + 1) (rank + transitions.length)
      (by omega) (.refl parent _) children (fun s i h => hread s i ?_) k q (by omega) ?_ hq
    · simpa only [outline, List.zipIdx_cons] using List.mem_cons_of_mem _ h
    · simp only [size] at hk
      omega

theorem contiguous_outlineAll (up : Upward parent) (top depth first rank : Nat)
    (htop : top < first) (hbefore : Within parent (first - 1) top) :
    (ds : List StateDecl) →
      (∀ s i, (s, i) ∈ (outlineAll (some top) depth first rank ds).zipIdx first →
        parent i = s.parent) →
      ∀ k q, first ≤ k → k < first + sizeAll ds → parent k = some q → Within parent (k - 1) q
  | [] => by
    intro _ k q hle hlt
    simp only [sizeAll] at hlt
    omega
  | d :: ds => by
    intro hread k q hle hk hq
    have hlen := d.length_outline (some top) depth first rank
    have hsize := d.size_pos
    simp only [outlineAll, List.zipIdx_append, hlen, List.mem_append] at hread
    have hpar : ∀ q, some top = some q → q < first := fun q hq => Option.some.inj hq ▸ htop
    have hfirst : parent first = some top := by
      have hnumbered := d.numbered_outline (some top) depth first rank hpar
      obtain ⟨s, hs, hp⟩ := hnumbered.top first (by simp)
      exact (hread s first (.inl hs)).trans hp
    by_cases hlast : first + d.size ≤ k
    · -- The sibling before ends within itself, and so within the common parent.
      have hwithin := within_of_outline up (some top) depth first rank hpar d
        (fun s i h => hread s i (.inl h)) (i := first + d.size - 1) (by omega) (by omega)
      refine contiguous_outlineAll up top depth (first + d.size) (rank + d.transitionCount)
        (by omega) (hwithin.trans up (below_of_parent up hfirst).within) ds
        (fun s i h => hread s i (.inr h)) k q hlast ?_ hq
      simp only [sizeAll] at hk
      omega
    · by_cases heq : k = first
      · subst heq
        exact Option.some.inj (hfirst.symm.trans hq) ▸ hbefore
      · exact contiguous_outline up (some top) depth first rank d
          (fun s i h => hread s i (.inl h)) k q (by omega) (by omega) hq

end

mutual

theorem transitions_ascending_outline (par : Option Nat) (depth first rank : Nat) :
    (d : StateDecl) → ∀ s ∈ d.outline par depth first rank, s.transitions.Pairwise (· < ·)
  | ⟨name, kind, initial, initialActions, onEntry, onExit, transitions, children⟩ => by
    rw [outline]
    exact List.forall_mem_cons.mpr ⟨List.pairwise_lt_range', transitions_ascending_outlineAll
      (some first) (depth + 1) (first + 1) (rank + transitions.length) children⟩

theorem transitions_ascending_outlineAll (par : Option Nat) (depth first rank : Nat) :
    (ds : List StateDecl) →
      ∀ s ∈ outlineAll par depth first rank ds, s.transitions.Pairwise (· < ·)
  | [] => by simp [outlineAll]
  | d :: ds => by
    rw [outlineAll]
    exact List.forall_mem_append.mpr ⟨transitions_ascending_outline par depth first rank d,
      transitions_ascending_outlineAll par depth (first + d.size) (rank + d.transitionCount) ds⟩

end

end StateDecl

open Outline

/-- The subtrees of a chart that builds are stretches of document order. -/
theorem ChartDecl.contiguous_of_build {d : ChartDecl} {c : Chart} (h : d.build = .ok c) :
    Contiguous c.parent := by
  obtain ⟨-, res, -⟩ := d.resolves_of_build h
  have up := (wellFormed_of_build h).upward
  intro k q hk
  have hparent : (ofDecl d.root).parent k = some q := res.parent_eq ▸ hk
  have hlt := lt_of_parent hparent
  have hne : k ≠ 0 := by
    rintro rfl
    exact absurd (up 0 q hk) (by omega)
  refine StateDecl.contiguous_outline up none 0 0 0 d.root (fun s i hs => ?_) k q (by omega) ?_ hk
  · rw [res.parent_eq, Outline.parent, (mem_zipIdx_ofDecl.mp hs).2]
  · have hlen := d.root.length_outline none 0 0 0
    simpa [ofDecl, hlen] using hlt

/-- The transitions of a state are listed by rank. -/
theorem ChartDecl.transitions_ascending_of_build {d : ChartDecl} {c : Chart}
    (h : d.build = .ok c) (s : Nat) : (c.node s).transitions.Pairwise (· < ·) := by
  obtain ⟨-, res, -⟩ := d.resolves_of_build h
  rw [(res.node_fields s).2.2]
  by_cases hs : s < (ofDecl d.root).states.size
  · have hmem := mem_zipIdx_ofDecl.mpr ⟨hs, rfl⟩
    exact d.root.transitions_ascending_outline none 0 0 0 _ (List.fst_mem_of_mem_zipIdx hmem)
  · rw [state_of_not_lt hs]
    exact .nil

end Statechart

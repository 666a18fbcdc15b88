import Statechart.Ordered

/-!
Finite sets of states. A state is named by its position in document order, the root being 0, and a
set lists its members in that order: walking it forwards meets every state before its descendants,
walking it backwards after them. Two sets with the same members are equal.
-/
namespace Statechart

structure StateSet where
  toList : List Nat
  ascending : toList.Pairwise (· < ·)
  deriving DecidableEq

namespace StateSet

instance : Membership Nat StateSet where
  mem s i := i ∈ s.toList

instance (i : Nat) (s : StateSet) : Decidable (i ∈ s) :=
  inferInstanceAs (Decidable (i ∈ s.toList))

@[simp] theorem mem_toList {s : StateSet} {i : Nat} : i ∈ s.toList ↔ i ∈ s := Iff.rfl

theorem mem_insertList {k i : Nat} {xs : List Nat} :
    i ∈ Ordered.insert k xs ↔ i = k ∨ i ∈ xs := by
  induction xs with
  | nil => simp [Ordered.insert]
  | cons x xs ih =>
    simp only [Ordered.insert]
    split
    · simp
    · split
      · simp only [List.mem_cons, ih]
        exact ⟨fun h => by rcases h with h | h | h <;> simp [h],
          fun h => by rcases h with h | h | h <;> simp [h]⟩
      · have : k = x := by omega
        subst this
        simp

theorem pairwise_insertList (k : Nat) {xs : List Nat} (h : xs.Pairwise (· < ·)) :
    (Ordered.insert k xs).Pairwise (· < ·) := by
  induction xs with
  | nil => simp [Ordered.insert]
  | cons x xs ih =>
    have hx := (List.pairwise_cons.1 h).1
    simp only [Ordered.insert]
    split
    · rename_i hk
      exact List.pairwise_cons.2 ⟨fun y hy => by
        rcases List.mem_cons.1 hy with rfl | hy
        · exact hk
        · exact Nat.lt_trans hk (hx y hy), h⟩
    · split
      · rename_i hxk
        refine List.pairwise_cons.2 ⟨fun y hy => ?_, ih (List.Pairwise.of_cons h)⟩
        rcases mem_insertList.1 hy with rfl | hy
        · exact hxk
        · exact hx y hy
      · exact h

def empty : StateSet := ⟨[], List.Pairwise.nil⟩

instance : EmptyCollection StateSet := ⟨empty⟩
instance : Inhabited StateSet := ⟨empty⟩

def insert (s : StateSet) (i : Nat) : StateSet :=
  ⟨Ordered.insert i s.toList, pairwise_insertList i s.ascending⟩

def ofList (is : List Nat) : StateSet :=
  is.foldl insert empty

def filter (s : StateSet) (p : Nat → Bool) : StateSet :=
  ⟨s.toList.filter p, List.Pairwise.filter p s.ascending⟩

def erase (s : StateSet) (i : Nat) : StateSet :=
  s.filter (· ≠ i)

def union (s t : StateSet) : StateSet :=
  t.toList.foldl insert s

def size (s : StateSet) : Nat := s.toList.length

def isEmpty (s : StateSet) : Bool := s.toList.isEmpty

def contains (s : StateSet) (i : Nat) : Bool := s.toList.contains i

def disjoint (s t : StateSet) : Bool := s.toList.all (fun i => !t.contains i)

@[simp] theorem contains_iff {s : StateSet} {i : Nat} : s.contains i = true ↔ i ∈ s := by
  simp [contains]

@[simp] theorem not_mem_empty (i : Nat) : i ∉ empty := by
  simp [← mem_toList, empty]

@[simp] theorem mem_insert {s : StateSet} {k i : Nat} : i ∈ s.insert k ↔ i = k ∨ i ∈ s :=
  mem_insertList

@[simp] theorem mem_filter {s : StateSet} {p : Nat → Bool} {i : Nat} :
    i ∈ s.filter p ↔ i ∈ s ∧ p i = true := by
  simp [← mem_toList, filter]

@[simp] theorem mem_erase {s : StateSet} {k i : Nat} : i ∈ s.erase k ↔ i ∈ s ∧ i ≠ k := by
  simp [erase]

theorem mem_foldl_insert {is : List Nat} {s : StateSet} {i : Nat} :
    i ∈ is.foldl insert s ↔ i ∈ is ∨ i ∈ s := by
  induction is generalizing s with
  | nil => simp
  | cons k is ih =>
    simp only [List.foldl_cons, ih, mem_insert, List.mem_cons]
    exact ⟨fun h => by rcases h with h | h | h <;> simp [h],
      fun h => by rcases h with (h | h) | h <;> simp [h]⟩

@[simp] theorem mem_ofList {is : List Nat} {i : Nat} : i ∈ ofList is ↔ i ∈ is := by
  simp [ofList, mem_foldl_insert]

@[simp] theorem mem_union {s t : StateSet} {i : Nat} : i ∈ s.union t ↔ i ∈ s ∨ i ∈ t := by
  simp [union, mem_foldl_insert, or_comm]

theorem disjoint_iff {s t : StateSet} : s.disjoint t = true ↔ ∀ i, i ∈ s → i ∉ t := by
  simp [disjoint, ← contains_iff]

/-- Increasing lists with the same members are the same list. -/
theorem eq_of_pairwise_of_mem_iff {xs ys : List Nat} (hx : xs.Pairwise (· < ·))
    (hy : ys.Pairwise (· < ·)) (h : ∀ i, i ∈ xs ↔ i ∈ ys) : xs = ys := by
  induction xs generalizing ys with
  | nil =>
    cases ys with
    | nil => rfl
    | cons y ys => simpa using h y
  | cons x xs ih =>
    cases ys with
    | nil => simpa using h x
    | cons y ys =>
      have hxs := List.pairwise_cons.1 hx
      have hys := List.pairwise_cons.1 hy
      have hxy : x = y := by
        have h1 := (h x).1 (by simp)
        have h2 := (h y).2 (by simp)
        rcases List.mem_cons.1 h1 with h1 | h1
        · exact h1
        · rcases List.mem_cons.1 h2 with h2 | h2
          · exact h2.symm
          · have := hys.1 x h1
            have := hxs.1 y h2
            omega
      subst hxy
      congr 1
      refine ih hxs.2 hys.2 (fun i => ⟨fun hi => ?_, fun hi => ?_⟩)
      · rcases List.mem_cons.1 ((h i).1 (by simp [hi])) with rfl | hi'
        · exact absurd (hxs.1 i hi) (Nat.lt_irrefl i)
        · exact hi'
      · rcases List.mem_cons.1 ((h i).2 (by simp [hi])) with rfl | hi'
        · exact absurd (hys.1 i hi) (Nat.lt_irrefl i)
        · exact hi'

theorem ext {s t : StateSet} (h : ∀ i, i ∈ s ↔ i ∈ t) : s = t := by
  have := eq_of_pairwise_of_mem_iff s.ascending t.ascending h
  cases s; cases t; simp_all

end StateSet

end Statechart

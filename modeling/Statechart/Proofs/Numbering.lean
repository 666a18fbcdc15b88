import Statechart.Outline

/-!
The numbers of an outline. A declaration is laid out in document order, so a state takes the number
of what stands before it, its children take numbers after its own, and parents and lists of children
tell the same. Ranks of transitions are laid out alike.
-/
namespace Statechart

mutual

/-- States of a declaration, itself included. -/
def StateDecl.size : StateDecl → Nat
  | ⟨_, _, _, _, _, _, _, children⟩ => StateDecl.sizeAll children + 1

def StateDecl.sizeAll : List StateDecl → Nat
  | [] => 0
  | d :: ds => d.size + StateDecl.sizeAll ds

end

mutual

/-- Transitions declared in a state and below it. -/
def StateDecl.transitionCount : StateDecl → Nat
  | ⟨_, _, _, _, _, _, transitions, children⟩ =>
    transitions.length + StateDecl.transitionCountAll children

def StateDecl.transitionCountAll : List StateDecl → Nat
  | [] => 0
  | d :: ds => d.transitionCount + StateDecl.transitionCountAll ds

end

/-- The numbers of sibling states, the first of which is given. -/
def StateDecl.siblings (first : Nat) : List StateDecl → List Nat
  | [] => []
  | d :: ds => first :: siblings (first + d.size) ds

mutual

/-- The states of a declaration whose root has the number `id` and whose first transition has the
rank `rank`. -/
def StateDecl.outline (parent : Option Nat) (depth id rank : Nat) : StateDecl → List OutlineState
  | ⟨name, kind, initial, initialActions, onEntry, onExit, transitions, children⟩ =>
    { name, kind, parent, depth, initial, initialActions, onEntry, onExit
      children := StateDecl.siblings (id + 1) children
      transitions := List.range' rank transitions.length } ::
      StateDecl.outlineAll (some id) (depth + 1) (id + 1) (rank + transitions.length) children

def StateDecl.outlineAll (parent : Option Nat) (depth id rank : Nat) :
    List StateDecl → List OutlineState
  | [] => []
  | d :: ds =>
    d.outline parent depth id rank ++
      StateDecl.outlineAll parent depth (id + d.size) (rank + d.transitionCount) ds

end

mutual

/-- The transitions of a declaration in the order of their ranks. -/
def StateDecl.outlineTransitions (id : Nat) : StateDecl → List OutlineTransition
  | ⟨_, _, _, _, _, _, transitions, children⟩ =>
    transitions.map (⟨id, ·⟩) ++ StateDecl.outlineTransitionsAll (id + 1) children

def StateDecl.outlineTransitionsAll (id : Nat) : List StateDecl → List OutlineTransition
  | [] => []
  | d :: ds => d.outlineTransitions id ++ StateDecl.outlineTransitionsAll (id + d.size) ds

end

namespace Outline

def ofDecl (root : StateDecl) : Outline where
  states := (root.outline none 0 0 0).toArray
  transitions := root.outlineTransitions 0

end Outline

open StateDecl

mutual

theorem StateDecl.length_outline (par : Option Nat) (depth first rank : Nat) :
    (d : StateDecl) → (d.outline par depth first rank).length = d.size
  | ⟨_, _, _, _, _, _, transitions, children⟩ => by
    simp [outline, size, StateDecl.length_outlineAll (some first) (depth + 1) (first + 1)
      (rank + transitions.length) children]

theorem StateDecl.length_outlineAll (par : Option Nat) (depth first rank : Nat) :
    (ds : List StateDecl) → (outlineAll par depth first rank ds).length = sizeAll ds
  | [] => by simp [outlineAll, sizeAll]
  | d :: ds => by
    simp [outlineAll, sizeAll, StateDecl.length_outline par depth first rank d,
      StateDecl.length_outlineAll par depth (first + d.size) (rank + d.transitionCount) ds]

end

mutual

theorem StateDecl.length_outlineTransitions (first : Nat) :
    (d : StateDecl) → (d.outlineTransitions first).length = d.transitionCount
  | ⟨_, _, _, _, _, _, transitions, children⟩ => by
    simp [outlineTransitions, transitionCount,
      StateDecl.length_outlineTransitionsAll (first + 1) children]

theorem StateDecl.length_outlineTransitionsAll (first : Nat) :
    (ds : List StateDecl) → (outlineTransitionsAll first ds).length = transitionCountAll ds
  | [] => by simp [outlineTransitionsAll, transitionCountAll]
  | d :: ds => by
    simp [outlineTransitionsAll, transitionCountAll, StateDecl.length_outlineTransitions first d,
      StateDecl.length_outlineTransitionsAll (first + d.size) ds]

end

/-- In a stretch of an outline that begins with the number `first`, the states `tops` hang on `par`
and every other state hangs on an earlier one of the stretch, which lists it as a child. -/
structure Numbered (par : Option Nat) (first : Nat) (tops : List Nat) (states : List OutlineState) :
    Prop where
  parent : ∀ s i, (s, i) ∈ states.zipIdx first →
    s.parent = par ∧ i ∈ tops ∨ ∃ p, s.parent = some p ∧ first ≤ p ∧ p < i
  top : ∀ i ∈ tops, ∃ s, (s, i) ∈ states.zipIdx first ∧ s.parent = par
  child : ∀ s i, (s, i) ∈ states.zipIdx first → ∀ k ∈ s.children,
    i < k ∧ ∃ t, (t, k) ∈ states.zipIdx first ∧ t.parent = some i
  listed : ∀ t k p, (t, k) ∈ states.zipIdx first → t.parent = some p → first ≤ p →
    ∃ s, (s, p) ∈ states.zipIdx first ∧ k ∈ s.children
  ascending : ∀ s i, (s, i) ∈ states.zipIdx first → s.children.Pairwise (· < ·)

theorem le_of_mem_zipIdx {α : Type} {xs : List α} {x : α} {first i : Nat}
    (h : (x, i) ∈ xs.zipIdx first) : first ≤ i ∧ i < first + xs.length := by
  have := List.mem_zipIdx h
  omega

theorem StateDecl.lt_of_mem_siblings {first k : Nat} {ds : List StateDecl}
    (h : k ∈ siblings first ds) : first ≤ k := by
  induction ds generalizing first with
  | nil => simp [siblings] at h
  | cons d ds ih =>
    rcases List.mem_cons.mp h with rfl | h
    · exact Nat.le_refl k
    · have := ih h
      omega

theorem StateDecl.size_pos (d : StateDecl) : 0 < d.size := by
  cases d
  simp [size]

theorem StateDecl.siblings_pairwise (first : Nat) (ds : List StateDecl) :
    (siblings first ds).Pairwise (· < ·) := by
  induction ds generalizing first with
  | nil => simp [siblings]
  | cons d ds ih =>
    refine List.pairwise_cons.mpr ⟨fun k hk => ?_, ih (first + d.size)⟩
    have := lt_of_mem_siblings hk
    have := d.size_pos
    omega

mutual

theorem StateDecl.numbered_outline (par : Option Nat) (depth first rank : Nat)
    (hpar : ∀ p, par = some p → p < first) :
    (d : StateDecl) → Numbered par first [first] (d.outline par depth first rank)
  | ⟨name, kind, initial, initialActions, onEntry, onExit, transitions, children⟩ => by
    have ih := StateDecl.numbered_outlineAll (some first) (depth + 1) (first + 1)
      (rank + transitions.length) (by simp) children
    simp only [outline]
    refine ⟨?_, ?_, ?_, ?_, ?_⟩ <;> simp only [List.zipIdx_cons, List.mem_cons, Prod.mk.injEq]
    · rintro s i (⟨rfl, rfl⟩ | h)
      · simp
      · have := le_of_mem_zipIdx h
        rcases ih.parent s i h with ⟨hp, hi⟩ | ⟨p, hp, hle, hlt⟩
        · exact .inr ⟨first, hp, by omega, by omega⟩
        · exact .inr ⟨p, hp, by omega, hlt⟩
    · rintro i (rfl | h)
      · exact ⟨_, .inl ⟨rfl, rfl⟩, rfl⟩
      · simp at h
    · rintro s i (⟨rfl, rfl⟩ | h) k hk
      · obtain ⟨t, ht, hp⟩ := ih.top k hk
        have := le_of_mem_zipIdx ht
        exact ⟨by omega, t, .inr ht, hp⟩
      · obtain ⟨hlt, t, ht, hp⟩ := ih.child s i h k hk
        exact ⟨hlt, t, .inr ht, hp⟩
    · rintro t k p (⟨rfl, rfl⟩ | h) hp hle
      · have := hpar p hp
        omega
      · rcases ih.parent t k h with ⟨hp', hk⟩ | ⟨p', hp', hle', hlt'⟩
        · have he : first = p := Option.some.inj (hp'.symm.trans hp)
          exact ⟨_, .inl ⟨rfl, he.symm⟩, hk⟩
        · have he : p' = p := Option.some.inj (hp'.symm.trans hp)
          obtain ⟨s, hs, hk⟩ := ih.listed t k p h hp (by omega)
          exact ⟨s, .inr hs, hk⟩
    · rintro s i (⟨rfl, rfl⟩ | h)
      · exact siblings_pairwise _ children
      · exact ih.ascending s i h

theorem StateDecl.numbered_outlineAll (par : Option Nat) (depth first rank : Nat)
    (hpar : ∀ p, par = some p → p < first) :
    (ds : List StateDecl) →
      Numbered par first (siblings first ds) (outlineAll par depth first rank ds)
  | [] => by constructor <;> simp [outlineAll, siblings]
  | d :: ds => by
    have hd := StateDecl.numbered_outline par depth first rank hpar d
    have hds := StateDecl.numbered_outlineAll par depth (first + d.size) (rank + d.transitionCount)
      (fun p hp => Nat.lt_of_lt_of_le (hpar p hp) (Nat.le_add_right first d.size)) ds
    have hlen := StateDecl.length_outline par depth first rank d
    simp only [outlineAll, siblings]
    refine ⟨?_, ?_, ?_, ?_, ?_⟩ <;>
      simp only [List.zipIdx_append, hlen, List.mem_append, List.mem_cons]
    · rintro s i (h | h)
      · rcases hd.parent s i h with ⟨hp, hi⟩ | h
        · exact .inl ⟨hp, .inl (by simpa using hi)⟩
        · exact .inr h
      · rcases hds.parent s i h with ⟨hp, hi⟩ | ⟨p, hp, hle, hlt⟩
        · exact .inl ⟨hp, .inr hi⟩
        · exact .inr ⟨p, hp, by omega, hlt⟩
    · rintro i (rfl | h)
      · obtain ⟨s, hs, hp⟩ := hd.top i (by simp)
        exact ⟨s, .inl hs, hp⟩
      · obtain ⟨s, hs, hp⟩ := hds.top i h
        exact ⟨s, .inr hs, hp⟩
    · rintro s i (h | h) k hk
      · obtain ⟨hlt, t, ht, hp⟩ := hd.child s i h k hk
        exact ⟨hlt, t, .inl ht, hp⟩
      · obtain ⟨hlt, t, ht, hp⟩ := hds.child s i h k hk
        exact ⟨hlt, t, .inr ht, hp⟩
    · rintro t k p (h | h) hp hle
      · obtain ⟨s, hs, hk⟩ := hd.listed t k p h hp hle
        exact ⟨s, .inl hs, hk⟩
      · -- A later sibling's states hang on `par`, which is too small, or on each other.
        rcases hds.parent t k h with ⟨hp', -⟩ | ⟨p', hp', hle', -⟩
        · have := hpar p (hp' ▸ hp)
          omega
        · have he : p' = p := Option.some.inj (hp'.symm.trans hp)
          obtain ⟨s, hs, hk⟩ := hds.listed t k p h hp (by omega)
          exact ⟨s, .inr hs, hk⟩
    · rintro s i (h | h)
      · exact hd.ascending s i h
      · exact hds.ascending s i h

end

mutual

theorem StateDecl.source_of_mem_outline (par : Option Nat) (depth first rank : Nat) :
    (d : StateDecl) → ∀ s i, (s, i) ∈ (d.outline par depth first rank).zipIdx first →
      ∀ r ∈ s.transitions, ∃ t, (t, r) ∈ (d.outlineTransitions first).zipIdx rank ∧ t.source = i
  | ⟨name, kind, initial, initialActions, onEntry, onExit, transitions, children⟩ => by
    have ih := StateDecl.source_of_mem_outlineAll (some first) (depth + 1) (first + 1)
      (rank + transitions.length) children
    simp only [outline, outlineTransitions, List.zipIdx_cons, List.zipIdx_append, List.length_map,
      List.mem_cons, List.mem_append, Prod.mk.injEq]
    rintro s i (⟨rfl, rfl⟩ | h) r hr
    · obtain ⟨hle, hlt⟩ : rank ≤ r ∧ r < rank + transitions.length := by simpa using hr
      refine ⟨⟨i, transitions[r - rank]⟩, .inl ?_, rfl⟩
      have hlt : r - rank < transitions.length := by omega
      exact List.mem_zipIdx_iff_le_and_getElem?_sub.mpr ⟨hle, by simp [hlt]⟩
    · obtain ⟨t, ht, hs⟩ := ih s i h r hr
      exact ⟨t, .inr ht, hs⟩

theorem StateDecl.source_of_mem_outlineAll (par : Option Nat) (depth first rank : Nat) :
    (ds : List StateDecl) → ∀ s i, (s, i) ∈ (outlineAll par depth first rank ds).zipIdx first →
      ∀ r ∈ s.transitions,
        ∃ t, (t, r) ∈ (outlineTransitionsAll first ds).zipIdx rank ∧ t.source = i
  | [] => by simp [outlineAll]
  | d :: ds => by
    have hd := StateDecl.source_of_mem_outline par depth first rank d
    have hds := StateDecl.source_of_mem_outlineAll par depth (first + d.size)
      (rank + d.transitionCount) ds
    simp only [outlineAll, outlineTransitionsAll, List.zipIdx_append, List.mem_append,
      StateDecl.length_outline, StateDecl.length_outlineTransitions]
    rintro s i (h | h) r hr
    · obtain ⟨t, ht, hs⟩ := hd s i h r hr
      exact ⟨t, .inl ht, hs⟩
    · obtain ⟨t, ht, hs⟩ := hds s i h r hr
      exact ⟨t, .inr ht, hs⟩

end

end Statechart

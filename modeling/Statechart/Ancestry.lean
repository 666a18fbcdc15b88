/-!
Ancestry in a tree whose states are numbered in document order and known by their parents. A parent
stands before its children, so the walk upwards takes fewer steps than the number of the state it
starts from.
-/
namespace Statechart.Ancestry

variable (parent : Nat → Option Nat)

/-- Parents of parents, for at most so many steps. -/
def climb : Nat → Nat → List Nat
  | 0, _ => []
  | n + 1, s =>
    match parent s with
    | none => []
    | some p => p :: climb n p

/-- Proper ancestors, nearest first. -/
def ancestors (s : Nat) : List Nat := climb parent s s

/-- Whether `s` lies properly below `a`. -/
def isDescendant (s a : Nat) : Bool := (ancestors parent s).contains a

/-- The nearest proper ancestor of `a` that `b` lies properly below. -/
def lowestCommonAncestor? (a b : Nat) : Option Nat :=
  (ancestors parent a).find? (isDescendant parent b)

/-- Every parent has a smaller number than its child. -/
def Upward : Prop := ∀ s p, parent s = some p → p < s

variable {parent}

theorem climb_eq_of_le (h : Upward parent) {n m s : Nat} (hn : s ≤ n) (hm : s ≤ m) :
    climb parent n s = climb parent m s := by
  induction n generalizing m s with
  | zero =>
    have hs : s = 0 := by omega
    subst hs
    cases m with
    | zero => rfl
    | succ m =>
      cases hp : parent 0 with
      | none => simp [climb, hp]
      | some p => exact absurd (h 0 p hp) (by omega)
  | succ n ih =>
    cases hp : parent s with
    | none => cases m <;> simp [climb, hp]
    | some p =>
      have := h s p hp
      cases m with
      | zero => omega
      | succ m =>
        simp only [climb, hp]
        rw [ih (m := m) (by omega) (by omega)]

theorem ancestors_of_parent (h : Upward parent) {s p : Nat} (hp : parent s = some p) :
    ancestors parent s = p :: ancestors parent p := by
  have := h s p hp
  cases s with
  | zero => omega
  | succ n =>
    simp only [ancestors, climb, hp]
    rw [climb_eq_of_le h (n := n) (m := p) (by omega) (by omega)]

theorem ancestors_of_root {s : Nat} (hp : parent s = none) : ancestors parent s = [] := by
  cases s <;> simp [ancestors, climb, hp]

theorem lt_of_mem_ancestors (h : Upward parent) {s a : Nat} (ha : a ∈ ancestors parent s) :
    a < s := by
  induction s using Nat.strongRecOn with
  | ind s ih =>
    cases hp : parent s with
    | none => simp [ancestors_of_root hp] at ha
    | some p =>
      have hlt := h s p hp
      rw [ancestors_of_parent h hp] at ha
      rcases List.mem_cons.1 ha with rfl | ha
      · exact hlt
      · exact Nat.lt_trans (ih p hlt ha) hlt

end Statechart.Ancestry

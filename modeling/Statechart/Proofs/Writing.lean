import Statechart.Ordered

/-!
Maps written entry by entry. When no key is written twice the map holds what was written, whatever
the order of the writes, and when they come in order the writes are the entries.
-/
namespace Statechart

variable {κ α : Type} {k : κ} {v : α} {m m' ws : List (κ × α)}

namespace Ordered

/-- No key is written twice. -/
def Distinct (ws : List (κ × α)) : Prop := ws.Pairwise fun a b => a.1 ≠ b.1

theorem Distinct.perm (h : Distinct ws) (hp : m.Perm ws) : Distinct m :=
  (hp.pairwise_iff fun hne => hne.symm).mpr h

variable [LT κ]

theorem Ascending.of_keys {β : Type} {m' : List (κ × β)} (h : Ascending m)
    (hkeys : m'.map (·.1) = m.map (·.1)) : Ascending m' := by
  have hsorted : (m'.map (·.1)).Pairwise (· < ·) := hkeys ▸ List.pairwise_map.mpr h
  exact List.pairwise_map.mp hsorted

variable [KeyOrder κ]

theorem Ascending.distinct (h : Ascending ws) : Distinct ws := by
  refine List.Pairwise.imp ?_ h
  intro a b hlt heq
  exact KeyOrder.lt_irrefl b.1 (heq ▸ hlt)

/-- The order of the entries is the order of their keys. -/
theorem Ascending.eq_of_perm (h : Ascending m) (h' : Ascending m') (hp : m.Perm m') : m = m' :=
  List.Perm.eq_of_pairwise
    (fun _ _ _ _ hlt hgt => absurd (KeyOrder.lt_trans hlt hgt) (KeyOrder.lt_irrefl _)) h h' hp

variable [DecidableLT κ]

theorem perm_put (h : ∀ e ∈ m, e.1 ≠ k) : (put k v m).Perm ((k, v) :: m) := by
  induction m with
  | nil => exact .refl _
  | cons e m ih =>
    rw [put]
    split
    · exact .refl _
    · rename_i hlt
      split
      · exact ((ih fun f hf => h f (List.mem_cons_of_mem _ hf)).cons e).trans (.swap _ _ _)
      · rename_i hgt
        exact absurd (KeyOrder.eq_of_not_lt hgt hlt) (h e (by simp))

end Ordered

namespace OrderedMap

open Ordered

variable [LT κ]

theorem ext {m m' : OrderedMap κ α} (h : m.entries = m'.entries) : m = m' := by
  cases m
  cases m'
  simpa using h

variable [KeyOrder κ]

/-- An entry is what its key is mapped to. -/
theorem get?_of_mem [DecidableEq κ] {m : OrderedMap κ α} (h : (k, v) ∈ m.entries) :
    m.get? k = some v := by
  have found (es : List (κ × α)) (hes : Ascending es) (h : (k, v) ∈ es) :
      es.find? (·.1 = k) = some (k, v) := by
    induction es with
    | nil => simp at h
    | cons e es ih =>
      obtain ⟨he, hes⟩ := List.pairwise_cons.mp hes
      rcases List.mem_cons.mp h with rfl | h
      · simp
      · have hne : e.1 ≠ k := fun heq => KeyOrder.lt_irrefl k (heq ▸ he (k, v) h)
        rw [List.find?_cons_of_neg (by simpa using hne), ih hes h]
  rw [get?, found m.entries m.ascending h, Option.map_some]

variable [DecidableLT κ]

/-- The map holds what was written. -/
theorem perm_ofWrites (h : Distinct ws) : (ofWrites ws).entries.Perm ws := by
  have fold (ws : List (κ × α)) (m : OrderedMap κ α) (h : Distinct (m.entries ++ ws)) :
      (ws.foldl (fun m w => m.put w.1 w.2) m).entries.Perm (m.entries ++ ws) := by
    induction ws generalizing m with
    | nil => simp
    | cons w ws ih =>
      have hput : (m.put w.1 w.2).entries.Perm (w :: m.entries) :=
        perm_put fun e he => (List.pairwise_append.mp h).2.2 e he w (by simp)
      have hperm : ((m.put w.1 w.2).entries ++ ws).Perm (m.entries ++ w :: ws) :=
        (hput.append_right ws).trans List.perm_middle.symm
      exact (ih _ (h.perm hperm)).trans hperm
  exact fold ws empty h

/-- Writes that come in order are the entries. -/
theorem entries_ofWrites (h : Ascending ws) : (ofWrites ws).entries = ws :=
  (ofWrites ws).ascending.eq_of_perm h (perm_ofWrites h.distinct)

end OrderedMap

end Statechart

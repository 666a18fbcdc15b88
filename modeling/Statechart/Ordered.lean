/-!
Lists kept in strictly increasing order, as sets of keys and as finite maps from keys. Both are
built by one-pass insertion, so a list that starts in order stays in order, and its order is the
order in which answers show it. Two maps with the same entries are equal.
-/
namespace Statechart

/-- Of two different keys one is the smaller. -/
class KeyOrder (κ : Type) [LT κ] : Prop where
  lt_irrefl : ∀ a : κ, ¬a < a
  lt_trans : ∀ {a b c : κ}, a < b → b < c → a < c
  eq_of_not_lt : ∀ {a b : κ}, ¬a < b → ¬b < a → a = b

instance : KeyOrder Nat where
  lt_irrefl := Nat.lt_irrefl
  lt_trans := Nat.lt_trans
  eq_of_not_lt h h' := Nat.le_antisymm (Nat.not_lt.1 h') (Nat.not_lt.1 h)

instance : KeyOrder String where
  lt_irrefl := String.lt_irrefl
  lt_trans := String.lt_trans
  eq_of_not_lt h h' := String.le_antisymm (String.not_lt.1 h') (String.not_lt.1 h)

namespace Ordered

variable {κ α : Type} [LT κ] [DecidableLT κ]

/-- A key is added once; a key already present leaves the list as it is. -/
def insert (k : κ) : List κ → List κ
  | [] => [k]
  | x :: xs => if k < x then k :: x :: xs else if x < k then x :: insert k xs else x :: xs

/-- Sorts and removes repetitions. -/
def ofList (ks : List κ) : List κ :=
  ks.foldl (fun s k => insert k s) []

/-- The last value written under a key is the one kept. -/
def put (k : κ) (v : α) : List (κ × α) → List (κ × α)
  | [] => [(k, v)]
  | (x, w) :: xs =>
    if k < x then (k, v) :: (x, w) :: xs else if x < k then (x, w) :: put k v xs else (k, v) :: xs

/-- The keys are in increasing order. -/
def Ascending (m : List (κ × α)) : Prop := m.Pairwise (fun a b => a.1 < b.1)

theorem mem_put {k : κ} {v : α} {e : κ × α} {m : List (κ × α)} (h : e ∈ put k v m) :
    e = (k, v) ∨ e ∈ m := by
  induction m with
  | nil => simpa [put] using h
  | cons f m ih =>
    simp only [put] at h
    split at h
    · rcases List.mem_cons.1 h with h | h <;> simp [h]
    · split at h
      · rcases List.mem_cons.1 h with h | h
        · simp [h]
        · rcases ih h with h | h <;> simp [h]
      · rcases List.mem_cons.1 h with h | h <;> simp [h]

theorem ascending_put [KeyOrder κ] (k : κ) (v : α) {m : List (κ × α)} (h : Ascending m) :
    Ascending (put k v m) := by
  induction m with
  | nil => simp [put, Ascending]
  | cons f m ih =>
    obtain ⟨hf, hm⟩ := List.pairwise_cons.1 h
    simp only [put]
    split
    · rename_i hk
      refine List.pairwise_cons.2 ⟨fun e he => ?_, h⟩
      rcases List.mem_cons.1 he with rfl | he
      · exact hk
      · exact KeyOrder.lt_trans hk (hf e he)
    · split
      · rename_i hk
        refine List.pairwise_cons.2 ⟨fun e he => ?_, ih hm⟩
        rcases mem_put he with rfl | he
        · exact hk
        · exact hf e he
      · rename_i h1 h2
        have := KeyOrder.eq_of_not_lt h1 h2
        subst this
        exact List.pairwise_cons.2 ⟨hf, hm⟩

end Ordered

/-- A finite map that lists its entries by increasing key. -/
structure OrderedMap (κ α : Type) [LT κ] where
  entries : List (κ × α)
  ascending : Ordered.Ascending entries
  deriving DecidableEq

namespace OrderedMap

variable {κ α : Type} [LT κ]

def empty : OrderedMap κ α := ⟨[], List.Pairwise.nil⟩

instance : EmptyCollection (OrderedMap κ α) := ⟨empty⟩
instance : Inhabited (OrderedMap κ α) := ⟨empty⟩

def size (m : OrderedMap κ α) : Nat := m.entries.length

def isEmpty (m : OrderedMap κ α) : Bool := m.entries.isEmpty

def get? [DecidableEq κ] (m : OrderedMap κ α) (k : κ) : Option α :=
  (m.entries.find? (·.1 = k)).map (·.2)

def erase [DecidableEq κ] (m : OrderedMap κ α) (k : κ) : OrderedMap κ α :=
  ⟨m.entries.filter (·.1 ≠ k), List.Pairwise.filter _ m.ascending⟩

variable [DecidableLT κ] [KeyOrder κ]

def put (m : OrderedMap κ α) (k : κ) (v : α) : OrderedMap κ α :=
  ⟨Ordered.put k v m.entries, Ordered.ascending_put k v m.ascending⟩

/-- The map left by a list of writes, in the order in which they were made. -/
def ofWrites (writes : List (κ × α)) : OrderedMap κ α :=
  writes.foldl (fun m w => m.put w.1 w.2) empty

end OrderedMap

end Statechart

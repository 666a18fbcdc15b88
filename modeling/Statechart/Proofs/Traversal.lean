import Mathlib.Data.List.Forall2

/-!
Lists walked through with a function that may fail. A walk succeeds exactly when every call does,
and a fold that may fail keeps what each of its steps keeps.
-/
namespace Statechart

variable {α β ε : Type}

/-- Two steps succeed together when each does. -/
theorem bind_eq_ok_iff {x : Except ε α} {f : α → Except ε β} {b : β} :
    (x >>= f) = .ok b ↔ ∃ a, x = .ok a ∧ f a = .ok b := by
  cases x <;> simp [bind, Except.bind]

theorem seq_eq_ok_iff {x y : Except ε Unit} :
    (x >>= fun _ => y) = .ok () ↔ x = .ok () ∧ y = .ok () := by
  rw [bind_eq_ok_iff]
  exact ⟨fun ⟨(), h⟩ => h, fun h => ⟨(), h⟩⟩

/-- A step that is known to give something hands it on. -/
theorem bind_of_eq_some {o : Option α} {a : α} {f : α → Option β} (h : o = some a) :
    (o >>= f) = f a := by
  rw [h]
  rfl

theorem mapM_eq_some_iff {f : α → Option β} {xs : List α} {ys : List β} :
    xs.mapM f = some ys ↔ List.Forall₂ (fun x y => f x = some y) xs ys := by
  induction xs generalizing ys with
  | nil => simp [eq_comm]
  | cons x xs ih =>
    simp only [List.mapM_cons, Option.bind_eq_bind, Option.bind_eq_some_iff, Option.pure_def,
      Option.some.injEq, List.forall₂_cons_left_iff]
    constructor
    · rintro ⟨y, hy, zs, hzs, rfl⟩
      exact ⟨y, zs, hy, ih.mp hzs, rfl⟩
    · rintro ⟨y, zs, hy, hzs, rfl⟩
      exact ⟨y, hy, zs, ih.mpr hzs, rfl⟩

theorem mapM_eq_ok_iff {f : α → Except ε β} {xs : List α} {ys : List β} :
    xs.mapM f = .ok ys ↔ List.Forall₂ (fun x y => f x = .ok y) xs ys := by
  induction xs generalizing ys with
  | nil => cases ys <;> simp [pure, Except.pure]
  | cons x xs ih =>
    rw [List.mapM_cons]
    cases hx : f x with
    | error err => cases ys <;> simp [bind, Except.bind, hx]
    | ok y =>
      cases hxs : xs.mapM f <;> cases ys <;>
        simp [bind, Except.bind, pure, Except.pure, ← ih, hxs, hx]

theorem forM_eq_ok_iff {f : α → Except ε Unit} {xs : List α} :
    xs.forM f = .ok () ↔ ∀ x ∈ xs, f x = .ok () := by
  induction xs with
  | nil => simp [List.forM, pure, Except.pure]
  | cons x xs ih =>
    rw [List.forM, List.forall_mem_cons, ← ih, seq_eq_ok_iff]

theorem exists_mapM_eq_some {f : α → Option β} {xs : List α} (h : ∀ x ∈ xs, ∃ y, f x = some y) :
    ∃ ys, xs.mapM f = some ys := by
  induction xs with
  | nil => exact ⟨[], rfl⟩
  | cons x xs ih =>
    obtain ⟨y, hy⟩ := h x (by simp)
    obtain ⟨ys, hys⟩ := ih (fun z hz => h z (by simp [hz]))
    exact ⟨y :: ys, by simp [hy, hys]⟩

theorem exists_mapM_eq_ok {f : α → Except ε β} {xs : List α} (h : ∀ x ∈ xs, ∃ y, f x = .ok y) :
    ∃ ys, xs.mapM f = .ok ys := by
  induction xs with
  | nil => exact ⟨[], rfl⟩
  | cons x xs ih =>
    obtain ⟨y, hy⟩ := h x (by simp)
    obtain ⟨ys, hys⟩ := ih (fun z hz => h z (by simp [hz]))
    exact ⟨y :: ys, mapM_eq_ok_iff.mpr (.cons hy (mapM_eq_ok_iff.mp hys))⟩

/-- What each member stands for makes up a list that the walk reads the members off. -/
theorem exists_forall₂_of_mapM {γ : Type} {R : β → γ → Prop} {f : γ → Option α} {item : α → β}
    {xs : List α} (h : ∀ x ∈ xs, ∃ z, R (item x) z ∧ f z = some x) :
    ∃ zs, List.Forall₂ R (xs.map item) zs ∧ zs.mapM f = some xs := by
  induction xs with
  | nil => exact ⟨[], .nil, rfl⟩
  | cons x xs ih =>
    obtain ⟨z, hz, hf⟩ := h x List.mem_cons_self
    obtain ⟨zs, hall, hmap⟩ := ih fun y hy => h y (List.mem_cons_of_mem x hy)
    exact ⟨z :: zs, .cons hz hall, mapM_eq_some_iff.mpr (.cons hf (mapM_eq_some_iff.mp hmap))⟩

/-- Every result comes from a member. -/
theorem exists_mem_of_forall₂ {R : α → β → Prop} {xs : List α} {ys : List β} {y : β}
    (h : List.Forall₂ R xs ys) (hy : y ∈ ys) : ∃ x ∈ xs, R x y := by
  induction h with
  | nil => simp at hy
  | cons hr _ ih =>
    rcases List.mem_cons.mp hy with rfl | hy
    · exact ⟨_, by simp, hr⟩
    · obtain ⟨x, hx, hr⟩ := ih hy
      exact ⟨x, by simp [hx], hr⟩

/-- Every member has a result. -/
theorem exists_result_of_forall₂ {R : α → β → Prop} {xs : List α} {ys : List β} {x : α}
    (h : List.Forall₂ R xs ys) (hx : x ∈ xs) : ∃ y ∈ ys, R x y := by
  induction h with
  | nil => simp at hx
  | cons hr _ ih =>
    rcases List.mem_cons.mp hx with rfl | hx
    · exact ⟨_, by simp, hr⟩
    · obtain ⟨y, hy, hr⟩ := ih hx
      exact ⟨y, by simp [hy], hr⟩

section Collecting

variable {f : α → Option (List β)} {xs : List α} {ys : List β} {x : α} {y : β}

/-- What a walk collects is what some member gives. -/
theorem mem_collected (h : (xs.mapM f).map List.flatten = some ys) :
    y ∈ ys ↔ ∃ x ∈ xs, ∃ zs, f x = some zs ∧ y ∈ zs := by
  obtain ⟨zss, hzss, rfl⟩ := Option.map_eq_some_iff.mp h
  have hall := mapM_eq_some_iff.mp hzss
  rw [List.mem_flatten]
  constructor
  · rintro ⟨zs, hzs, hy⟩
    obtain ⟨x, hx, hxzs⟩ := exists_mem_of_forall₂ hall hzs
    exact ⟨x, hx, zs, hxzs, hy⟩
  · rintro ⟨x, hx, zs, hzs, hy⟩
    obtain ⟨zs', hmem, hxzs⟩ := exists_result_of_forall₂ hall hx
    exact ⟨zs', hmem, Option.some.inj (hzs.symm.trans hxzs) ▸ hy⟩

/-- Every member gives something, and that is collected. -/
theorem exists_collected (h : (xs.mapM f).map List.flatten = some ys) (hx : x ∈ xs) :
    ∃ zs, f x = some zs ∧ ∀ z ∈ zs, z ∈ ys := by
  obtain ⟨zss, hzss, -⟩ := Option.map_eq_some_iff.mp h
  obtain ⟨zs, -, hzs⟩ := exists_result_of_forall₂ (mapM_eq_some_iff.mp hzss) hx
  exact ⟨zs, hzs, fun z hz => (mem_collected h).mpr ⟨x, hx, zs, hzs, hz⟩⟩

end Collecting

end Statechart

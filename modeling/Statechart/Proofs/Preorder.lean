import Statechart.Proofs.DocumentOrder

/-!
Declarations in document order. The outline of a declaration has one state for every declaration in
it, in document order, and what belongs to one of them is a stretch that begins with it. So the
declarations below one are those of the numbers up to the end of its stretch.
-/
namespace Statechart

mutual

/-- The declaration and all that it contains, in document order. -/
def StateDecl.preorder : StateDecl → List StateDecl
  | ⟨name, kind, initial, initialActions, onEntry, onExit, transitions, children⟩ =>
    ⟨name, kind, initial, initialActions, onEntry, onExit, transitions, children⟩ ::
      StateDecl.preorderAll children

def StateDecl.preorderAll : List StateDecl → List StateDecl
  | [] => []
  | d :: ds => d.preorder ++ StateDecl.preorderAll ds

end

namespace StateDecl

variable {d u v : StateDecl} {i j : Nat}

theorem preorder_eq (d : StateDecl) : d.preorder = d :: preorderAll d.children := by
  cases d
  rw [preorder]

mutual

theorem length_preorder : (d : StateDecl) → d.preorder.length = d.size
  | ⟨_, _, _, _, _, _, _, children⟩ => by simp [preorder, size, length_preorderAll children]

theorem length_preorderAll : (ds : List StateDecl) → (preorderAll ds).length = sizeAll ds
  | [] => by simp [preorderAll, sizeAll]
  | d :: ds => by simp [preorderAll, sizeAll, length_preorder d, length_preorderAll ds]

end

theorem size_eq (d : StateDecl) : d.size = sizeAll d.children + 1 := by
  cases d
  rw [size]

/-! ### Stretches -/

/-- The declaration at a place of the document order is followed by all that it contains, both there
and in the outline. -/
structure Stretch (states : List OutlineState) (preorder : List StateDecl) (first j : Nat)
    (u : StateDecl) : Prop where
  preorder : u.preorder <+: preorder.drop j
  outline : ∃ par depth rank, (∀ q, par = some q → q < first + j) ∧
    u.outline par depth (first + j) rank <+: states.drop j

theorem Stretch.append {states states' : List OutlineState} {preorder preorder' : List StateDecl}
    {first : Nat} (h : Stretch states preorder first j u) (hs : j ≤ states.length)
    (hp : j ≤ preorder.length) : Stretch (states ++ states') (preorder ++ preorder') first j u := by
  obtain ⟨par, depth, rank, hpar, hout⟩ := h.outline
  refine ⟨?_, par, depth, rank, hpar, ?_⟩
  · rw [List.drop_append_of_le_length hp]
    exact h.preorder.trans (List.prefix_append _ _)
  · rw [List.drop_append_of_le_length hs]
    exact hout.trans (List.prefix_append _ _)

/-- A stretch is one behind something else as well. -/
theorem Stretch.behind (states : List OutlineState) (preorder : List StateDecl)
    {states' : List OutlineState} {preorder' : List StateDecl} {first n : Nat}
    (hs : states.length = n) (hp : preorder.length = n)
    (h : Stretch states' preorder' (first + n) j u) :
    Stretch (states ++ states') (preorder ++ preorder') first (n + j) u := by
  obtain ⟨par, depth, rank, hpar, hout⟩ := h.outline
  rw [Nat.add_assoc] at hpar hout
  refine ⟨?_, par, depth, rank, hpar, ?_⟩
  · rw [← hp, List.drop_length_add_append]
    exact h.preorder
  · rw [← hs, List.drop_length_add_append, hs]
    exact hout

mutual

theorem stretch_outline (par : Option Nat) (depth first rank : Nat)
    (hpar : ∀ q, par = some q → q < first) : (d : StateDecl) → ∀ j u, d.preorder[j]? = some u →
      Stretch (d.outline par depth first rank) d.preorder first j u
  | ⟨name, kind, initial, initialActions, onEntry, onExit, transitions, children⟩ => by
    intro j u hu
    cases j with
    | zero =>
      rw [preorder, List.getElem?_cons_zero] at hu
      obtain rfl := Option.some.inj hu
      exact ⟨List.prefix_rfl, par, depth, rank, hpar, List.prefix_rfl⟩
    | succ j =>
      rw [preorder, List.getElem?_cons_succ] at hu
      have ih := stretch_outlineAll (some first) (depth + 1) (first + 1)
        (rank + transitions.length) (by simp) children j u hu
      rw [outline, preorder, Nat.add_comm j 1]
      exact ih.behind [_] [_] rfl rfl

theorem stretch_outlineAll (par : Option Nat) (depth first rank : Nat)
    (hpar : ∀ q, par = some q → q < first) : (ds : List StateDecl) →
      ∀ j u, (preorderAll ds)[j]? = some u →
      Stretch (outlineAll par depth first rank ds) (preorderAll ds) first j u
  | [] => by simp [preorderAll]
  | d :: ds => by
    intro j u hu
    have hlen := d.length_outline par depth first rank
    rw [preorderAll, outlineAll]
    rw [preorderAll] at hu
    by_cases hj : j < d.preorder.length
    · rw [List.getElem?_append_left hj] at hu
      have hlt := hj
      rw [length_preorder] at hlt
      exact (stretch_outline par depth first rank hpar d j u hu).append (by omega) (by omega)
    · rw [List.getElem?_append_right (by omega)] at hu
      have ih := stretch_outlineAll par depth (first + d.size) (rank + d.transitionCount)
        (fun q hq => Nat.lt_of_lt_of_le (hpar q hq) (Nat.le_add_right first d.size)) ds _ u hu
      have hbehind := ih.behind (d.outline par depth first rank) d.preorder hlen (length_preorder d)
      rw [length_preorder] at hbehind hj
      rwa [Nat.add_sub_cancel' (by omega)] at hbehind

end

/-- What a declaration contains lies where the declaration does. -/
theorem prefix_of_preorder (h : d.preorder[j]? = some u) : u.preorder <+: d.preorder.drop j :=
  (stretch_outline none 0 0 0 (by simp) d j u h).preorder

theorem getElem?_of_preorder (h : d.preorder[i]? = some u) (hj : j < u.size) :
    d.preorder[i + j]? = u.preorder[j]? := by
  have hlt : j < u.preorder.length := u.length_preorder ▸ hj
  rw [← List.getElem?_drop, List.prefix_iff_getElem?.mp (prefix_of_preorder h) j hlt,
    List.getElem?_eq_getElem hlt]

/-- A stretch that begins inside another one ends inside it. -/
theorem nested (h : d.preorder[i]? = some u) (h' : d.preorder[j]? = some v) (hle : i ≤ j)
    (hlt : j < i + u.size) : j + v.size ≤ i + u.size := by
  have hv : u.preorder[j - i]? = some v := by
    rw [← getElem?_of_preorder h (by omega), Nat.add_sub_cancel' hle, h']
  have hlen := (prefix_of_preorder hv).length_le
  rw [List.length_drop, length_preorder, length_preorder] at hlen
  have hpos := v.size_pos
  omega

/-! ### Siblings -/

theorem forall₂_siblings (first : Nat) (ds : List StateDecl) :
    List.Forall₂ (fun k child => first ≤ k ∧ (preorderAll ds)[k - first]? = some child)
      (siblings first ds) ds := by
  induction ds generalizing first with
  | nil => exact .nil
  | cons d ds ih =>
    refine .cons ⟨Nat.le_refl first, ?_⟩ ((ih (first + d.size)).imp fun k child hk => ?_)
    · simp [preorderAll, preorder_eq d]
    · obtain ⟨hle, hk⟩ := hk
      have hlen := d.length_preorder
      refine ⟨by omega, ?_⟩
      rw [preorderAll, List.getElem?_append_right (by omega), hlen, ← hk]
      congr 1
      omega

theorem lt_of_mem_siblings_size {first k : Nat} {ds : List StateDecl} (h : k ∈ siblings first ds) :
    k < first + sizeAll ds := by
  obtain ⟨child, -, hle, hk⟩ := exists_result_of_forall₂ (forall₂_siblings first ds) h
  have hlt := (List.getElem?_eq_some_iff.mp hk).1
  rw [length_preorderAll] at hlt
  omega

/-! ### Transitions -/

/-- The transitions declared in numbered declarations, each with its source. -/
def declared (ds : List (StateDecl × Nat)) : List OutlineTransition :=
  ds.flatMap fun p => p.1.transitions.map (⟨p.2, ·⟩)

mutual

/-- Transitions stand in the document order of their sources, and those of one source as they were
declared. -/
theorem outlineTransitions_eq (first : Nat) : (d : StateDecl) →
    d.outlineTransitions first = declared (d.preorder.zipIdx first)
  | ⟨name, kind, initial, initialActions, onEntry, onExit, transitions, children⟩ => by
    rw [outlineTransitions, preorder, List.zipIdx_cons, declared, List.flatMap_cons,
      outlineTransitionsAll_eq (first + 1) children, declared]

theorem outlineTransitionsAll_eq (first : Nat) : (ds : List StateDecl) →
    outlineTransitionsAll first ds = declared ((preorderAll ds).zipIdx first)
  | [] => rfl
  | d :: ds => by
    rw [outlineTransitionsAll, preorderAll, List.zipIdx_append, declared, List.flatMap_append,
      outlineTransitions_eq first d, outlineTransitionsAll_eq (first + d.size) ds, length_preorder,
      declared, declared]

end

end StateDecl

/-! ### The outline of a whole declaration -/

namespace Outline

open StateDecl

variable {root u : StateDecl} {i k x : Nat}

theorem name_of_find? {o : Outline} {name : String} (h : o.find? name = some i) : (o.state i).name = name := by
  obtain ⟨hi, hname, -⟩ := Array.findIdx?_eq_some_iff_getElem.mp h
  simpa [state, Array.getD, hi] using hname

theorem size_ofDecl (root : StateDecl) : (ofDecl root).states.size = root.preorder.length := by
  simp [ofDecl, length_outline, length_preorder]

/-- A state of the outline tells what was declared. -/
theorem state_ofDecl (h : root.preorder[i]? = some u) : ∃ parent depth rank,
    (ofDecl root).state i = ⟨u.name, u.kind, parent, depth, siblings (i + 1) u.children, u.initial,
      u.initialActions, u.onEntry, u.onExit, List.range' rank u.transitions.length⟩ := by
  obtain ⟨parent, depth, rank, -, hprefix⟩ :=
    (stretch_outline none 0 0 0 (by simp) root i u h).outline
  refine ⟨parent, depth, rank, ?_⟩
  obtain ⟨rest, hrest⟩ := hprefix
  have hhead := congrArg (·[0]?) hrest
  cases u
  rw [outline, Nat.zero_add] at hhead
  simp only [List.cons_append, List.getElem?_cons_zero, List.getElem?_drop, Nat.add_zero] at hhead
  simp [state, ofDecl, Array.getD_eq_getD_getElem?, ← hhead]

theorem forall₂_children_ofDecl (h : root.preorder[i]? = some u) :
    List.Forall₂ (fun k child => root.preorder[k]? = some child) ((ofDecl root).state i).children
      u.children := by
  obtain ⟨_, _, _, hstate⟩ := state_ofDecl h
  rw [hstate]
  refine (forall₂_siblings (i + 1) u.children).imp fun k child ⟨hle, hk⟩ => ?_
  have hlt := (List.getElem?_eq_some_iff.mp hk).1
  have hsize := u.size_eq
  rw [length_preorderAll] at hlt
  have hsame : u.preorder[k - i]? = some child := by
    rw [preorder_eq, show k - i = k - (i + 1) + 1 by omega, List.getElem?_cons_succ, hk]
  rw [← hsame, ← getElem?_of_preorder h (by omega), Nat.add_sub_cancel' (by omega)]

theorem children_eq_nil_ofDecl (h : root.preorder[i]? = some u) :
    ((ofDecl root).state i).children = [] ↔ u.children = [] := by
  rw [← List.length_eq_zero_iff, (forall₂_children_ofDecl h).length_eq, List.length_eq_zero_iff]

/-- The states below one are those of its stretch behind it. -/
theorem below_iff_ofDecl (h : root.preorder[i]? = some u) :
    Ancestry.Below (ofDecl root).parent x i ↔ i < x ∧ x < i + u.size := by
  have up := upward_ofDecl root
  constructor
  · intro hx
    refine ⟨hx.lt up, ?_⟩
    induction x using Nat.strongRecOn with
    | ind x ih =>
      obtain ⟨p, hp, hwithin⟩ := (Ancestry.below_iff up).mp hx
      have hpx := up x p hp
      have hsize := lt_of_parent hp
      rw [size_ofDecl] at hsize
      have hbound := Nat.lt_trans hpx hsize
      have hv := List.getElem?_eq_getElem hbound
      have hpi : p < i + u.size := by
        rcases hwithin with rfl | hbelow
        · have := u.size_pos
          omega
        · exact ih p hpx hbelow
      have hchild := (mem_children_ofDecl root p x).mpr hp
      obtain ⟨_, _, _, hstate⟩ := state_ofDecl hv
      rw [hstate] at hchild
      have hlt := lt_of_mem_siblings_size hchild
      have hnested := nested h hv (hwithin.le up) hpi
      have := root.preorder[p].size_eq
      omega
  · rintro ⟨hlt, hend⟩
    obtain ⟨par, depth, rank, hpar, hprefix⟩ :=
      (stretch_outline none 0 0 0 (by simp) root i u h).outline
    rw [Nat.zero_add] at hpar hprefix
    refine (within_of_outline up par depth i rank hpar u (fun s j hs => ?_) (by omega)
      hend).resolve_left (by omega)
    have hle := le_of_mem_zipIdx hs
    obtain ⟨-, hj⟩ := List.mem_zipIdx_iff_le_and_getElem?_sub.mp hs
    obtain ⟨hbound, hj⟩ := List.getElem?_eq_some_iff.mp hj
    have hread := List.prefix_iff_getElem?.mp hprefix (j - i) hbound
    rw [List.getElem?_drop, Nat.add_sub_cancel' hle.1, hj] at hread
    have hmem : (s, j) ∈ (root.outline none 0 0 0).zipIdx :=
      List.mem_zipIdx_iff_getElem?.mpr hread
    rw [parent, (mem_zipIdx_ofDecl.mp hmem).2]

end Outline

end Statechart

import Statechart.Proofs.Naming
import Statechart.Proofs.Preorder

/-!
Declarations that build. The rules are checked on the outline, where a name is found at the first
state that has it and states are related by walks along their parents. What they come to is a
property of the declaration alone, of what contains what; and whatever keeps them is built, as every
name has been found before it is looked up again.
-/
namespace Statechart

open Validation (compatible distinctRegions structureOf uniqueNames)

/-! ### What may be declared -/

namespace StateDecl

/-- The declaration contains a state of this name, itself apart. -/
def Declares (d : StateDecl) (name : String) : Prop := ∃ u ∈ preorderAll d.children, u.name = name

def IsHistory (d : StateDecl) : Prop := ∃ depth, d.kind = .history depth

/-- A plain state with children. -/
def IsCompound (d : StateDecl) : Prop := d.kind = .plain ∧ d.children ≠ []

/-- Neither of two states contains the other, and the lowest state that contains both is
parallel. -/
structure Apart (root : StateDecl) (a b : String) : Prop where
  distinct : a ≠ b
  unrelated : ∀ u ∈ root.preorder, (u.name = a → ¬u.Declares b) ∧ (u.name = b → ¬u.Declares a)
  meet : ∃ q ∈ root.preorder, q.kind = .parallel ∧ q.Declares a ∧ q.Declares b ∧
    ∀ k ∈ q.children, ¬(k.Declares a ∧ k.Declares b)

/-- What a state has suits its kind. -/
structure Shaped (s : StateDecl) : Prop where
  leaf : s.kind = .final ∨ s.IsHistory → s.children = [] ∧ s.transitions = []
  regular : s.kind = .parallel ∨ s.IsCompound → ∃ k ∈ s.children, ¬k.IsHistory
  initial : s.initial ≠ [] ∨ s.initialActions ≠ [] → s.IsCompound ∨ s.IsHistory

end StateDecl

/-- A transition leads to states that can be active together, and says when it is taken. -/
structure TransitionDecl.Sound (root : StateDecl) (t : TransitionDecl) : Prop where
  targets : ∀ name ∈ t.targets, root.Declares name
  apart : t.targets.Pairwise root.Apart
  triggers : (∀ g ∈ t.triggers, g.event = none) ∨ ∀ g ∈ t.triggers, g.event ≠ none
  descriptors : ∀ g ∈ t.triggers, ∀ event, g.event = some event → Text.isBlankText event = false

/-- What a declaration must be for a chart to be built. -/
structure StateDecl.WellDeclared (root : StateDecl) : Prop where
  inhabited : root.children ≠ []
  named : (root.preorder.map (·.name)).Nodup
  shaped : ∀ s ∈ root.preorder, s.Shaped
  initial : ∀ s ∈ root.preorder, ¬s.IsHistory → ∀ name ∈ s.initial, s.Declares name
  default : ∀ p ∈ root.preorder, ∀ s ∈ p.children, s.IsHistory →
    ∀ name ∈ s.initial, p.Declares name
  apart : ∀ s ∈ root.preorder, s.initial.Pairwise root.Apart
  transitions : ∀ s ∈ root.preorder, ∀ t ∈ s.transitions, t.Sound root

/-- The lowest common ancestor is the one none of whose children is above both. -/
theorem Ancestry.lowestCommonAncestor?_eq_some_iff {parent : Nat → Option Nat}
    (up : Upward parent) {a b q : Nat} : lowestCommonAncestor? parent a b = some q ↔
      Below parent a q ∧ Below parent b q ∧
        ∀ k, parent k = some q → ¬(Below parent a k ∧ Below parent b k) := by
  constructor
  · intro h
    obtain ⟨ha, hb, hleast⟩ := within_of_find?_ancestors up h
    refine ⟨ha, isDescendant_iff.mp hb, fun k hk hboth => ?_⟩
    have hle := (hleast k hboth.1 (isDescendant_iff.mpr hboth.2)).le up
    have hlt := up k q hk
    omega
  · rintro ⟨ha, hb, hnone⟩
    cases hf : lowestCommonAncestor? parent a b with
    | none => exact absurd (isDescendant_iff.mpr hb) (List.find?_eq_none.mp hf q ha)
    | some p =>
      obtain ⟨hap, hbp, hleast⟩ := within_of_find?_ancestors up hf
      rcases hleast q ha (isDescendant_iff.mpr hb) with rfl | hpq
      · rfl
      · obtain ⟨k, hk, hpk⟩ := hpq.exists_child up
        exact absurd ⟨hap.trans_within up hpk, (isDescendant_iff.mp hbp).trans_within up hpk⟩
          (hnone k hk)

/-! ### What the rules come to -/

namespace Outline

open StateDecl

variable {root u v : StateDecl} {i x y : Nat} {name : String} {names : List String}

theorem contained_iff (h : root.preorder[i]? = some u) : v ∈ preorderAll u.children ↔
    ∃ x, root.preorder[x]? = some v ∧ (ofDecl root).isDescendant x i = true := by
  have hsize := u.size_eq
  simp only [isDescendant, Ancestry.isDescendant_iff, below_iff_ofDecl h]
  constructor
  · intro hv
    obtain ⟨k, hk⟩ := List.mem_iff_getElem?.mp hv
    have hlt := (List.getElem?_eq_some_iff.mp hk).1
    rw [length_preorderAll] at hlt
    refine ⟨i + (k + 1), ?_, by omega, by omega⟩
    rw [getElem?_of_preorder h (by omega), preorder_eq, List.getElem?_cons_succ, hk]
  · rintro ⟨x, hv, hlt, hend⟩
    obtain ⟨k, rfl⟩ : ∃ k, x = i + (k + 1) := ⟨x - i - 1, by omega⟩
    rw [getElem?_of_preorder h (by omega), preorder_eq, List.getElem?_cons_succ] at hv
    exact List.mem_of_getElem? hv

/-- The children of a declaration are those whose parent it is in the outline. -/
theorem child_iff (h : root.preorder[i]? = some u) :
    v ∈ u.children ↔ ∃ k, root.preorder[k]? = some v ∧ (ofDecl root).parent k = some i := by
  have hall := forall₂_children_ofDecl h
  constructor
  · intro hv
    obtain ⟨k, hk, hread⟩ := exists_mem_of_forall₂ hall hv
    exact ⟨k, hread, (mem_children_ofDecl root i k).mp hk⟩
  · rintro ⟨k, hread, hparent⟩
    obtain ⟨w, hw, hread'⟩ :=
      exists_result_of_forall₂ hall ((mem_children_ofDecl root i k).mpr hparent)
    exact Option.some.inj (hread'.symm.trans hread) ▸ hw

theorem names_ofDecl (root : StateDecl) :
    (ofDecl root).states.toList.map (·.name) = root.preorder.map (·.name) := by
  have hsize := size_ofDecl root
  refine List.ext_getElem (by simpa using hsize) fun i hi hi' => ?_
  have hlt : i < root.preorder.length := by simpa using hi'
  have hlt' : i < (ofDecl root).states.size := by simpa using hi
  obtain ⟨_, _, _, hstate⟩ := state_ofDecl (List.getElem?_eq_getElem hlt)
  have hname := congrArg OutlineState.name hstate
  simpa [state, Array.getD, hlt'] using hname

theorem uniqueNames_eq_nil_iff {o : Outline} :
    uniqueNames o = [] ↔ (o.states.toList.map (·.name)).Nodup := by
  rw [uniqueNames, List.map_eq_nil_iff, Validation.recurring_eq_nil_iff (by simp)]
  simp

section Named

variable (named : (root.preorder.map (·.name)).Nodup)
include named

theorem find?_ofDecl : (ofDecl root).find? name = some i ↔
    ∃ u, root.preorder[i]? = some u ∧ u.name = name := by
  have read {i : Nat} (h : (ofDecl root).find? name = some i) :
      ∃ u, root.preorder[i]? = some u ∧ u.name = name := by
    have hlt := find?_lt h
    rw [size_ofDecl] at hlt
    obtain ⟨_, _, _, hstate⟩ := state_ofDecl (List.getElem?_eq_getElem hlt)
    have hname := name_of_find? h
    rw [hstate] at hname
    exact ⟨_, List.getElem?_eq_getElem hlt, hname⟩
  refine ⟨read, ?_⟩
  rintro ⟨u, hu, rfl⟩
  cases hf : (ofDecl root).find? u.name with
  | none =>
    have hmem : u.name ∈ (ofDecl root).states.toList.map (·.name) := by
      rw [names_ofDecl]
      exact List.mem_map_of_mem (List.mem_of_getElem? hu)
    obtain ⟨s, hs, hname⟩ := List.mem_map.mp hmem
    have hnone := Array.findIdx?_eq_none_iff.mp hf s (Array.mem_toList_iff.mp hs)
    simp [hname] at hnone
  | some j =>
    obtain ⟨v, hv, hname⟩ := read hf
    have hi : (root.preorder.map (·.name))[i]? = some u.name := by simp [hu]
    have hj : (root.preorder.map (·.name))[j]? = some u.name := by simp [hv, hname]
    have hlt := (List.getElem?_eq_some_iff.mp hj).1
    exact congrArg some ((List.getElem?_inj hlt named).mp (hj.trans hi.symm))

theorem declares_iff (h : root.preorder[i]? = some u) : u.Declares name ↔
    ∃ x, (ofDecl root).find? name = some x ∧ (ofDecl root).isDescendant x i = true := by
  simp only [Declares, contained_iff h, find?_ofDecl named]
  constructor
  · rintro ⟨v, ⟨x, hv, hx⟩, hname⟩
    exact ⟨x, ⟨v, hv, hname⟩, hx⟩
  · rintro ⟨x, ⟨v, hv, hname⟩, hx⟩
    exact ⟨v, ⟨x, hv, hx⟩, hname⟩

theorem declares_name_iff (hx : root.preorder[x]? = some u) (hy : root.preorder[y]? = some v) :
    u.Declares v.name ↔ (ofDecl root).isDescendant y x = true := by
  have hfind : (ofDecl root).find? v.name = some y := (find?_ofDecl named).mpr ⟨v, hy, rfl⟩
  rw [declares_iff named hx, hfind]
  simp

/-- A declaration is known by its name. -/
theorem eq_of_name (hx : root.preorder[x]? = some u) (hy : root.preorder[y]? = some v)
    (hname : u.name = v.name) : x = y := by
  have hu := (find?_ofDecl named).mpr ⟨u, hx, rfl⟩
  have hv := (find?_ofDecl named).mpr ⟨v, hy, rfl⟩
  rw [hname] at hu
  exact Option.some.inj (hu.symm.trans hv)

theorem meet_iff (hx : root.preorder[x]? = some u) (hy : root.preorder[y]? = some v) :
    (∃ q ∈ root.preorder, q.kind = .parallel ∧ q.Declares u.name ∧ q.Declares v.name ∧
      ∀ k ∈ q.children, ¬(k.Declares u.name ∧ k.Declares v.name)) ↔
    ∃ p, (ofDecl root).lowestCommonAncestor? x y = some p ∧
      ((ofDecl root).state p).kind = .parallel := by
  have lowest {p : Nat} {q : StateDecl} (hq : root.preorder[p]? = some q) :
      (ofDecl root).lowestCommonAncestor? x y = some p ↔
        q.Declares u.name ∧ q.Declares v.name ∧
          ∀ k ∈ q.children, ¬(k.Declares u.name ∧ k.Declares v.name) := by
    rw [lowestCommonAncestor?, Ancestry.lowestCommonAncestor?_eq_some_iff (upward_ofDecl root),
      declares_name_iff named hq hx, declares_name_iff named hq hy]
    simp only [isDescendant, Ancestry.isDescendant_iff]
    refine and_congr_right fun _ => and_congr_right fun _ => ?_
    constructor
    · rintro hnone w hw ⟨hwx, hwy⟩
      obtain ⟨k, hk, hparent⟩ := (child_iff hq).mp hw
      rw [declares_name_iff named hk hx, isDescendant, Ancestry.isDescendant_iff] at hwx
      rw [declares_name_iff named hk hy, isDescendant, Ancestry.isDescendant_iff] at hwy
      exact hnone k hparent ⟨hwx, hwy⟩
    · rintro hnone k hparent ⟨hkx, hky⟩
      have hlt := lt_of_parent hparent
      rw [size_ofDecl] at hlt
      have hk := List.getElem?_eq_getElem hlt
      refine hnone _ ((child_iff hq).mpr ⟨k, hk, hparent⟩) ⟨?_, ?_⟩
      · rwa [declares_name_iff named hk hx, isDescendant, Ancestry.isDescendant_iff]
      · rwa [declares_name_iff named hk hy, isDescendant, Ancestry.isDescendant_iff]
  constructor
  · rintro ⟨q, hq, hparallel, hrest⟩
    obtain ⟨p, hp⟩ := List.mem_iff_getElem?.mp hq
    obtain ⟨_, _, _, hstate⟩ := state_ofDecl hp
    exact ⟨p, (lowest hp).mpr hrest, by rw [hstate, hparallel]⟩
  · rintro ⟨p, hp, hparallel⟩
    have hlt : p < root.preorder.length := by
      by_contra hlt
      rw [← size_ofDecl] at hlt
      rw [state_of_not_lt hlt] at hparallel
      exact absurd hparallel (by decide)
    have hq := List.getElem?_eq_getElem hlt
    obtain ⟨_, _, _, hstate⟩ := state_ofDecl hq
    rw [hstate] at hparallel
    exact ⟨_, List.getElem_mem hlt, hparallel, (lowest hq).mp hp⟩

/-- The check of a pair of targets is about what contains them. -/
theorem compatible_iff (hx : root.preorder[x]? = some u) (hy : root.preorder[y]? = some v) :
    compatible (ofDecl root) x y = true ↔ root.Apart u.name v.name := by
  rw [compatible_iff_meet, ← meet_iff named hx hy, ← declares_name_iff named hx hy,
    ← declares_name_iff named hy hx]
  constructor
  · rintro ⟨⟨⟨hne, hvu⟩, huv⟩, hmeets⟩
    refine ⟨fun hname => hne (eq_of_name named hx hy hname), fun w hw => ?_, hmeets⟩
    obtain ⟨z, hz⟩ := List.mem_iff_getElem?.mp hw
    constructor
    · intro hname
      obtain rfl := eq_of_name named hz hx hname
      exact Option.some.inj (hz.symm.trans hx) ▸ huv
    · intro hname
      obtain rfl := eq_of_name named hz hy hname
      exact Option.some.inj (hz.symm.trans hy) ▸ hvu
  · rintro ⟨hdistinct, hunrelated, hmeets⟩
    refine ⟨⟨⟨?_, ?_⟩, ?_⟩, hmeets⟩
    · rintro rfl
      exact hdistinct (congrArg (·.name) (Option.some.inj (hx.symm.trans hy)))
    · exact (hunrelated v (List.mem_of_getElem? hy)).2 rfl
    · exact (hunrelated u (List.mem_of_getElem? hx)).1 rfl

theorem distinctRegions_names_iff (hfound : ∀ n ∈ names, ∃ x, (ofDecl root).find? n = some x) :
    distinctRegions (ofDecl root) (names.filterMap (ofDecl root).find?) = true ↔
      names.Pairwise root.Apart := by
  rw [distinctRegions_iff, List.pairwise_filterMap]
  refine List.Pairwise.iff_of_mem fun {a b} ha hb => ?_
  obtain ⟨x, hx⟩ := hfound a ha
  obtain ⟨y, hy⟩ := hfound b hb
  obtain ⟨u, hu, rfl⟩ := (find?_ofDecl named).mp hx
  obtain ⟨v, hv, rfl⟩ := (find?_ofDecl named).mp hy
  simp [hx, hy, compatible_iff named hu hv]

/-- Every initial target is found inside its region, and together they can be active. -/
theorem initialTargets_eq_nil_iff {o : Outline} (ho : ofDecl root = o) {s : OutlineState}
    (hs : s.initial = u.initial) : Validation.initialTargets o i s = [] ↔
      (∀ name ∈ u.initial, ∃ region, Validation.regionOf i s = some region ∧
        ∃ x, o.find? name = some x ∧ o.isDescendant x region = true) ∧
      u.initial.Pairwise root.Apart := by
  subst ho
  have hinside (name : String) :
      Validation.initialTarget (ofDecl root) s (Validation.regionOf i s) name = [] ↔
      ∃ region, Validation.regionOf i s = some region ∧
        ∃ x, (ofDecl root).find? name = some x ∧
          (ofDecl root).isDescendant x region = true := by
    unfold Validation.initialTarget
    cases (ofDecl root).find? name <;> cases Validation.regionOf i s <;> simp [require_eq_nil]
  simp only [Validation.initialTargets, List.append_eq_nil_iff, List.flatMap_eq_nil_iff,
    require_eq_nil, hs, hinside]
  refine and_congr_right fun hall => distinctRegions_names_iff named fun name hname => ?_
  obtain ⟨-, -, x, hx, -⟩ := hall name hname
  exact ⟨x, hx⟩

theorem declares_root_iff : root.Declares name ↔
    ∃ x, (ofDecl root).find? name = some x ∧ x ≠ 0 := by
  have hroot : root.preorder[0]? = some root := by rw [preorder_eq, List.getElem?_cons_zero]
  rw [declares_iff named hroot]
  refine exists_congr fun x => and_congr_right fun hx => ?_
  have hlt := find?_lt hx
  rw [size_ofDecl, length_preorder] at hlt
  rw [isDescendant, Ancestry.isDescendant_iff, below_iff_ofDecl hroot]
  omega

theorem transition_eq_nil_iff (t : OutlineTransition) :
    Validation.transition (ofDecl root) t = [] ↔ t.decl.Sound root := by
  have htarget (name source : String) :
      Validation.transitionTarget (ofDecl root) source name = [] ↔ root.Declares name := by
    rw [declares_root_iff named]
    unfold Validation.transitionTarget
    split <;> simp_all
  have hregions (hall : ∀ name ∈ t.decl.targets, root.Declares name) :
      distinctRegions (ofDecl root)
          ((t.decl.targets.filterMap (ofDecl root).find?).filter (· != 0)) = true ↔
        t.decl.targets.Pairwise root.Apart := by
    have hfound (name : String) (hname : name ∈ t.decl.targets) :=
      (declares_root_iff named).mp (hall name hname)
    rw [List.filter_eq_self.mpr fun x hx => ?_]
    · exact distinctRegions_names_iff named fun name hname => (hfound name hname).imp fun _ h => h.1
    · obtain ⟨name, hname, hx⟩ := List.mem_filterMap.mp hx
      obtain ⟨y, hy, hne⟩ := hfound name hname
      obtain rfl := Option.some.inj (hx.symm.trans hy)
      simpa using hne
  simp only [Validation.transition, List.append_eq_nil_iff, List.flatMap_eq_nil_iff,
    require_eq_nil, Bool.or_eq_true, List.all_eq_true, htarget, Option.isNone_iff_eq_none,
    Option.isSome_iff_ne_none]
  constructor
  · rintro ⟨⟨⟨htriggers, hdescriptors⟩, htargets⟩, hdistinct⟩
    refine ⟨htargets, (hregions htargets).mp hdistinct, htriggers, fun g hg event hevent => ?_⟩
    have hblank := hdescriptors g hg
    rw [hevent] at hblank
    simpa using hblank
  · rintro ⟨htargets, hapart, htriggers, hdescriptors⟩
    refine ⟨⟨⟨htriggers, fun g hg => ?_⟩, htargets⟩, (hregions htargets).mpr hapart⟩
    cases hevent : g.event with
    | none => rfl
    | some event => simpa using hdescriptors g hg event hevent

end Named

theorem isHistory_iff (h : root.preorder[i]? = some u) :
    (ofDecl root).isHistory i = true ↔ u.IsHistory := by
  obtain ⟨_, _, _, hstate⟩ := state_ofDecl h
  rw [isHistory, hstate, IsHistory]
  cases u.kind <;> simp

/-- What a state has is checked against its kind. -/
theorem structureOf_eq_nil_iff (h : root.preorder[i]? = some u) :
    structureOf (ofDecl root) ((ofDecl root).state i) = [] ↔ u.Shaped := by
  have hchildren := children_eq_nil_ofDecl h
  have hregular : (((ofDecl root).state i).children.any fun k => !(ofDecl root).isHistory k) =
      true ↔ ∃ k ∈ u.children, ¬k.IsHistory := by
    simp only [List.any_eq_true, Bool.not_eq_true', ← Bool.not_eq_true]
    constructor
    · rintro ⟨k, hk, hregular⟩
      obtain ⟨v, hv, hread⟩ := exists_result_of_forall₂ (forall₂_children_ofDecl h) hk
      exact ⟨v, hv, mt (isHistory_iff hread).mpr hregular⟩
    · rintro ⟨v, hv, hregular⟩
      obtain ⟨k, hk, hread⟩ := exists_mem_of_forall₂ (forall₂_children_ofDecl h) hv
      exact ⟨k, hk, mt (isHistory_iff hread).mp hregular⟩
  obtain ⟨parent, depth, rank, hstate⟩ := state_ofDecl h
  have hleaf : ((ofDecl root).state i).isLeafOnly = true ↔ u.kind = .final ∨ u.IsHistory := by
    rw [hstate, OutlineState.isLeafOnly, IsHistory]
    cases u.kind <;> simp
  have hcompound : ((ofDecl root).state i).isCompound = true ↔ u.IsCompound := by
    rw [OutlineState.isCompound, Bool.and_eq_true, Bool.not_eq_true', ← Bool.not_eq_true,
      List.isEmpty_iff, hchildren, hstate, IsCompound, beq_iff_eq]
  have htransitions : ((ofDecl root).state i).transitions = [] ↔ u.transitions = [] := by
    simp [hstate]
  have hkind : ((ofDecl root).state i).kind = u.kind := by rw [hstate]
  have hinitial : ((ofDecl root).state i).initial = u.initial := by rw [hstate]
  have hactions : ((ofDecl root).state i).initialActions = u.initialActions := by rw [hstate]
  simp only [structureOf, List.append_eq_nil_iff, require_eq_nil, Bool.or_eq_true,
    Bool.and_eq_true, Bool.not_eq_true', ← Bool.not_eq_true, List.isEmpty_iff, bne_iff_ne]
  rw [hleaf, hchildren, htransitions, hregular, hcompound, hkind, hinitial, hactions]
  constructor
  · rintro ⟨⟨⟨⟨hchild, htrans⟩, hparallel⟩, hcomp⟩, hdeclares⟩
    refine ⟨fun hl => ⟨hchild.resolve_left (not_not.mpr hl), htrans.resolve_left (not_not.mpr hl)⟩,
      ?_, fun hdecl => ?_⟩
    · rintro (hp | hc)
      · exact hparallel.resolve_left (not_not.mpr hp)
      · exact hcomp.resolve_left (not_not.mpr hc)
    · rcases hdeclares with (⟨hi, ha⟩ | hc) | hh
      · exact absurd hdecl (by simp [hi, ha])
      · exact .inl hc
      · rw [← hkind] at hh
        exact .inr ((isHistory_iff h).mp hh)
  · rintro ⟨hl, hr, hi⟩
    refine ⟨⟨⟨⟨?_, ?_⟩, ?_⟩, ?_⟩, ?_⟩
    · exact or_iff_not_imp_left.mpr fun hleaf => (hl (not_not.mp hleaf)).1
    · exact or_iff_not_imp_left.mpr fun hleaf => (hl (not_not.mp hleaf)).2
    · exact or_iff_not_imp_left.mpr fun hp => hr (.inl (not_not.mp hp))
    · exact or_iff_not_imp_left.mpr fun hc => hr (.inr (not_not.mp hc))
    · by_cases hdecl : u.initial = [] ∧ u.initialActions = []
      · exact .inl (.inl hdecl)
      · rcases hi (not_and_or.mp hdecl) with hc | hh
        · exact .inl (.inr hc)
        · rw [← hkind]
          exact .inr ((isHistory_iff h).mpr hh)

theorem forall_zipIdx_iff {P : OutlineState → Nat → Prop} :
    (∀ p ∈ (ofDecl root).states.toList.zipIdx, P p.1 p.2) ↔
      ∀ i u, root.preorder[i]? = some u → P ((ofDecl root).state i) i := by
  have hlist : (ofDecl root).states.toList = root.outline none 0 0 0 := rfl
  have hsize := size_ofDecl root
  constructor
  · intro hall i u h
    have hlt := (List.getElem?_eq_some_iff.mp h).1
    exact hall (_, i) (hlist ▸ mem_zipIdx_ofDecl.mpr ⟨by omega, rfl⟩)
  · rintro hall ⟨s, i⟩ hp
    obtain ⟨hlt, rfl⟩ := mem_zipIdx_ofDecl.mp (hlist ▸ hp)
    exact hall i _ (List.getElem?_eq_getElem (by omega))

theorem forall_states_iff {P : OutlineState → Prop} : (∀ s ∈ (ofDecl root).states.toList, P s) ↔
    ∀ i u, root.preorder[i]? = some u → P ((ofDecl root).state i) := by
  rw [← forall_zipIdx_iff (P := fun s _ => P s)]
  constructor
  · exact fun hall p hp => hall p.1 (List.fst_mem_of_mem_zipIdx hp)
  · intro hall s hs
    obtain ⟨i, hi⟩ := List.mem_iff_getElem?.mp hs
    exact hall (s, i) (List.mem_zipIdx_iff_getElem?.mpr hi)

theorem forall_transitions_iff {P : TransitionDecl → Prop} :
    (∀ t ∈ (ofDecl root).transitions, P t.decl) ↔ ∀ s ∈ root.preorder, ∀ t ∈ s.transitions, P t := by
  rw [ofDecl, outlineTransitions_eq]
  simp only [declared, List.mem_flatMap, List.mem_map]
  constructor
  · intro hall s hs t ht
    obtain ⟨i, hi⟩ := List.mem_iff_getElem?.mp hs
    exact hall ⟨i, t⟩ ⟨(s, i), List.mem_zipIdx_iff_getElem?.mpr hi, t, ht, rfl⟩
  · rintro hall - ⟨p, hp, t, ht, rfl⟩
    exact hall p.1 (List.fst_mem_of_mem_zipIdx hp) t ht

/-- A history state has a parent, where the root has children and suits its kind. -/
theorem exists_parent_of_history (hinhabited : root.children ≠ []) (hshaped : root.Shaped)
    (h : root.preorder[i]? = some u) (hhistory : u.IsHistory) : ∃ q p,
      (ofDecl root).parent i = some q ∧ root.preorder[q]? = some p ∧ u ∈ p.children := by
  have hlt := (List.getElem?_eq_some_iff.mp h).1
  have hne : i ≠ 0 := by
    rintro rfl
    rw [preorder_eq, List.getElem?_cons_zero] at h
    obtain rfl := Option.some.inj h
    exact hinhabited (hshaped.leaf (.inr hhistory)).1
  rw [← size_ofDecl] at hlt
  obtain ⟨q, hq, -⟩ :=
    (Ancestry.below_iff (upward_ofDecl root)).mp (below_root_ofDecl root hlt hne)
  have hqi := upward_ofDecl root i q hq
  rw [size_ofDecl] at hlt
  have hp := List.getElem?_eq_getElem (Nat.lt_trans hqi hlt)
  exact ⟨q, _, hq, hp, (child_iff hp).mpr ⟨i, h, hq⟩⟩

theorem regionOf_history (h : root.preorder[i]? = some u) (hhistory : u.IsHistory) :
    Validation.regionOf i ((ofDecl root).state i) = (ofDecl root).parent i := by
  obtain ⟨depth, hdepth⟩ := hhistory
  obtain ⟨_, _, _, hstate⟩ := state_ofDecl h
  simp [Validation.regionOf, parent, hstate, hdepth]

theorem regionOf_other (h : root.preorder[i]? = some u) (hhistory : ¬u.IsHistory) :
    Validation.regionOf i ((ofDecl root).state i) = some i := by
  obtain ⟨_, _, _, hstate⟩ := state_ofDecl h
  rw [Validation.regionOf, hstate]
  cases hk : u.kind with
  | history depth => exact absurd ⟨depth, hk⟩ hhistory
  | _ => rfl

/-- Initial targets are inside their region: below the state itself, or below the parent of a history
state. -/
theorem forall_initialTargets_iff (named : (root.preorder.map (·.name)).Nodup)
    (hinhabited : root.children ≠ []) (hshaped : root.Shaped) :
    (∀ i u, root.preorder[i]? = some u →
      Validation.initialTargets (ofDecl root) i ((ofDecl root).state i) = []) ↔
    (∀ s ∈ root.preorder, ¬s.IsHistory → ∀ name ∈ s.initial, s.Declares name) ∧
      (∀ p ∈ root.preorder, ∀ s ∈ p.children, s.IsHistory →
        ∀ name ∈ s.initial, p.Declares name) ∧
      ∀ s ∈ root.preorder, s.initial.Pairwise root.Apart := by
  have hrule {i : Nat} {u : StateDecl} (h : root.preorder[i]? = some u) :=
    initialTargets_eq_nil_iff (i := i) named rfl (s := (ofDecl root).state i) (u := u)
      (by obtain ⟨_, _, _, hstate⟩ := state_ofDecl h; rw [hstate])
  constructor
  · intro hall
    refine ⟨fun s hs hother name hname => ?_, fun p hp s hs hhistory name hname => ?_,
      fun s hs => ?_⟩
    · obtain ⟨i, hi⟩ := List.mem_iff_getElem?.mp hs
      obtain ⟨region, hregion, hinside⟩ := ((hrule hi).mp (hall i s hi)).1 name hname
      rw [regionOf_other hi hother] at hregion
      obtain rfl := Option.some.inj hregion
      exact (declares_iff named hi).mpr hinside
    · obtain ⟨q, hq⟩ := List.mem_iff_getElem?.mp hp
      obtain ⟨k, hk, hparent⟩ := (child_iff hq).mp hs
      obtain ⟨region, hregion, hinside⟩ := ((hrule hk).mp (hall k s hk)).1 name hname
      rw [regionOf_history hk hhistory, hparent] at hregion
      obtain rfl := Option.some.inj hregion
      exact (declares_iff named hq).mpr hinside
    · obtain ⟨i, hi⟩ := List.mem_iff_getElem?.mp hs
      exact ((hrule hi).mp (hall i s hi)).2
  · rintro ⟨hinitial, hdefault, hapart⟩ i u h
    have hu := List.mem_of_getElem? h
    refine (hrule h).mpr ⟨fun name hname => ?_, hapart u hu⟩
    by_cases hhistory : u.IsHistory
    · obtain ⟨q, p, hparent, hp, hchild⟩ :=
        exists_parent_of_history hinhabited hshaped h hhistory
      rw [regionOf_history h hhistory]
      exact ⟨q, hparent, (declares_iff named hp).mp
        (hdefault p (List.mem_of_getElem? hp) u hchild hhistory name hname)⟩
    · rw [regionOf_other h hhistory]
      exact ⟨i, rfl, (declares_iff named h).mp (hinitial u hu hhistory name hname)⟩

/-- No rule is violated exactly where the declaration is what it must be. -/
theorem violations_eq_nil_iff (root : StateDecl) :
    (ofDecl root).violations = [] ↔ root.WellDeclared := by
  have hroot : root.preorder[0]? = some root := by rw [preorder_eq, List.getElem?_cons_zero]
  have hstates : (∀ s ∈ (ofDecl root).states.toList, structureOf (ofDecl root) s = []) ↔
      ∀ s ∈ root.preorder, s.Shaped := by
    rw [forall_states_iff]
    constructor
    · intro hall s hs
      obtain ⟨i, hi⟩ := List.mem_iff_getElem?.mp hs
      exact (structureOf_eq_nil_iff hi).mp (hall i s hi)
    · exact fun hall i u h =>
        (structureOf_eq_nil_iff h).mpr (hall u (List.mem_of_getElem? h))
  simp only [violations, List.append_eq_nil_iff, List.flatMap_eq_nil_iff, require_eq_nil,
    Bool.not_eq_true', ← Bool.not_eq_true, List.isEmpty_iff, children_eq_nil_ofDecl hroot,
    uniqueNames_eq_nil_iff, names_ofDecl, hstates,
    forall_zipIdx_iff (P := fun s i => Validation.initialTargets (ofDecl root) i s = [])]
  constructor
  · rintro ⟨⟨⟨⟨hinhabited, named⟩, hshaped⟩, hinitial⟩, htransitions⟩
    obtain ⟨hinside, hdefault, hapart⟩ := (forall_initialTargets_iff named hinhabited
      (hshaped root (List.mem_of_getElem? hroot))).mp hinitial
    refine ⟨hinhabited, named, hshaped, hinside, hdefault, hapart, ?_⟩
    exact forall_transitions_iff.mp fun t ht =>
      (transition_eq_nil_iff named t).mp (htransitions t ht)
  · rintro ⟨hinhabited, named, hshaped, hinside, hdefault, hapart, htransitions⟩
    refine ⟨⟨⟨⟨hinhabited, named⟩, hshaped⟩, ?_⟩, fun t ht => ?_⟩
    · exact (forall_initialTargets_iff named hinhabited
        (hshaped root (List.mem_of_getElem? hroot))).mpr ⟨hinside, hdefault, hapart⟩
    · exact (transition_eq_nil_iff named t).mpr (forall_transitions_iff.mpr htransitions t ht)

/-! ### What is built -/

namespace Accepted

variable {o : Outline} (acc : o.Accepted)
include acc

theorem found_initial {i : Nat} (hi : i < o.states.size) :
    ∀ name ∈ (o.state i).initial, ∃ x, o.find? name = some x := by
  have hrule := acc.initial i hi
  simp only [Validation.initialTargets, List.append_eq_nil_iff, List.flatMap_eq_nil_iff] at hrule
  intro name hname
  have hfound := hrule.1 name hname
  unfold Validation.initialTarget at hfound
  cases hf : o.find? name with
  | none => simp [hf] at hfound
  | some x => exact ⟨x, rfl⟩

theorem found_targets {t : OutlineTransition} (ht : t ∈ o.transitions) :
    ∀ name ∈ t.decl.targets, ∃ x, o.find? name = some x := by
  have hrule := acc.transition t ht
  simp only [Validation.transition, List.append_eq_nil_iff, List.flatMap_eq_nil_iff] at hrule
  intro name hname
  have hfound := hrule.1.2 name hname
  unfold Validation.transitionTarget at hfound
  cases hf : o.find? name with
  | none => simp [hf] at hfound
  | some x => exact ⟨x, rfl⟩

omit acc in
theorem exists_resolved (owner : String) (h : ∀ name ∈ names, ∃ x, o.find? name = some x) :
    ∃ ts, names.mapM (resolve o.find? owner) = .ok ts :=
  exists_mapM_eq_ok fun name hname => (h name hname).imp fun _ hx => resolve_eq_ok_iff.mpr hx

theorem exists_node {i : Nat} (hi : i < o.states.size) :
    ∃ n, resolveState o.find? i (o.state i) = .ok n := by
  obtain ⟨ts, hts⟩ := exists_resolved (o.state i).name (acc.found_initial hi)
  have hinitial : resolveInitial o.find? (o.state i) = .ok ⟨ts, (o.state i).initialActions⟩ :=
    bind_eq_ok_iff.mpr ⟨ts, hts, rfl⟩
  obtain ⟨kind, hkind⟩ : ∃ kind, resolveKind o.find? (o.state i) = .ok kind := by
    unfold resolveKind
    rw [hinitial]
    split
    · split
      · exact ⟨_, rfl⟩
      · exact ⟨_, rfl⟩
    · exact ⟨_, rfl⟩
    · exact ⟨_, rfl⟩
    · exact ⟨_, rfl⟩
  exact ⟨_, bind_eq_ok_iff.mpr ⟨kind, hkind, rfl⟩⟩

/-- Names are resolved once the rules are kept. -/
theorem exists_toChartBy : ∃ c, toChartBy o.find? o = .ok c := by
  obtain ⟨nodes, hnodes⟩ : ∃ nodes,
      o.states.toList.zipIdx.mapM (fun p => resolveState o.find? p.2 p.1) = .ok nodes := by
    refine exists_mapM_eq_ok ?_
    rintro ⟨s, i⟩ hs
    obtain ⟨hi, hs⟩ := List.getElem?_eq_some_iff.mp (List.mem_zipIdx_iff_getElem?.mp hs)
    have hi' : i < o.states.size := by simpa using hi
    obtain rfl : o.state i = s := by simpa [state, Array.getD, hi'] using hs
    exact acc.exists_node hi'
  obtain ⟨ts, hts⟩ : ∃ ts,
      o.transitions.zipIdx.mapM (fun p => resolveTransition o.find? o p.2 p.1) = .ok ts := by
    refine exists_mapM_eq_ok ?_
    rintro ⟨t, i⟩ ht
    obtain ⟨ids, hids⟩ := exists_resolved (o.state t.source).name
      (acc.found_targets (List.fst_mem_of_mem_zipIdx ht))
    exact ⟨_, bind_eq_ok_iff.mpr ⟨ids, hids, rfl⟩⟩
  exact ⟨_, bind_eq_ok_iff.mpr ⟨nodes, hnodes, bind_eq_ok_iff.mpr ⟨ts, hts, rfl⟩⟩⟩

end Accepted

end Outline

theorem ChartDecl.wellDeclared_of_build {d : ChartDecl} {c : Chart} (h : d.build = .ok c) :
    d.root.WellDeclared :=
  (Outline.violations_eq_nil_iff d.root).mp (d.toChart_of_build h).1

/-- A chart is built exactly from what is declared as it must be. Otherwise it is refused with the
violations of the rules, of which there are some, and names are resolved whenever there are none. -/
theorem ChartDecl.build_iff_wellDeclared (d : ChartDecl) :
    ((∃ c, d.build = .ok c) ↔ d.root.WellDeclared) ∧
    (¬d.root.WellDeclared ↔ ∃ vs, vs ≠ [] ∧ vs = (Outline.flatten d.root).violations ∧
      d.build = .error (.invalid vs)) ∧
    ((Outline.flatten d.root).violations = [] ↔
      ∃ c, (Outline.flatten d.root).toChart = .ok c ∧ d.build = .ok c) := by
  rw [← Outline.violations_eq_nil_iff, ← Outline.flatten_eq_ofDecl]
  cases hv : (Outline.flatten d.root).violations with
  | nil =>
    obtain ⟨c, hc⟩ := (Outline.accepted_of_violations hv).exists_toChartBy
    rw [← Outline.toChart_eq hv] at hc
    have hb : d.build = .ok c := by
      simp only [build, hv]
      exact hc
    simp [hb, hc]
  | cons v vs =>
    have hb : d.build = .error (.invalid (v :: vs)) := by simp only [build, hv]
    simp [hb]

end Statechart

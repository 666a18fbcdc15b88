import Mathlib.Data.List.Find
import Statechart.Proofs.Resolution

/-!
Domains. The domain of a transition encloses its source and everything its targets come to, and it
depends on the memory only as far as the memory decides whether a target comes to lie inside the
source or one of the states above it.
-/
namespace Statechart.Chart

variable {c : Chart} {m m' : Memory} {a d e q s u : Nat} {es es' : List Nat} {t : Transition}

/-- A transition as it is found in a built chart. -/
structure Declared (c : Chart) (t : Transition) : Prop where
  source : c.Below t.source root
  targets : ∀ u ∈ t.targets, c.Below u root
  apart : t.targets.Pairwise c.Apart

theorem WellFormed.declared (wf : c.WellFormed) {r : Nat} (hr : r ∈ (c.node s).transitions) :
    c.Declared (c.transition r) := by
  obtain ⟨hlt, hsrc⟩ := wf.source s r hr
  have hs : s < c.size := by
    by_contra hlt'
    have hnil : (c.node s).transitions = [] := by
      rw [node_of_not_lt hlt']
      rfl
    simp [hnil] at hr
  have hne : s ≠ root := by
    rintro rfl
    rw [wf.root_transitions] at hr
    simp at hr
  refine ⟨?_, (wf.targets r hlt).1, (wf.targets r hlt).2⟩
  rw [hsrc]
  exact wf.below_root s hs hne

/-! ### What the targets of a transition come to -/

theorem effectiveTargets?_eq_some_iff : c.effectiveTargets? m t = some es ↔
    ∃ rss, t.targets.mapM (c.resolveTarget? m c.resolveSteps) = some rss ∧
      (StateSet.ofList rss.flatten).toList = es := by
  simp [effectiveTargets?]

theorem mem_effectiveTargets (h : c.effectiveTargets? m t = some es) : e ∈ es ↔
    ∃ u ∈ t.targets, ∃ rs, c.resolveTarget? m c.resolveSteps u = some rs ∧ e ∈ rs := by
  obtain ⟨rss, hrss, rfl⟩ := effectiveTargets?_eq_some_iff.mp h
  rw [StateSet.mem_toList, StateSet.mem_ofList]
  exact mem_collected (congrArg (Option.map List.flatten) hrss)

theorem exists_resolved (h : c.effectiveTargets? m t = some es) (hu : u ∈ t.targets) :
    ∃ rs, c.resolveTarget? m c.resolveSteps u = some rs ∧ ∀ r ∈ rs, r ∈ es := by
  obtain ⟨rss, hrss, -⟩ := effectiveTargets?_eq_some_iff.mp h
  obtain ⟨rs, -, hrs⟩ := exists_result_of_forall₂ (mapM_eq_some_iff.mp hrss) hu
  exact ⟨rs, hrs, fun r hr => (mem_effectiveTargets h).mpr ⟨u, hu, rs, hrs, hr⟩⟩

theorem mem_effective_of_not_history (h : c.effectiveTargets? m t = some es)
    (hu : u ∈ t.targets) (hh : c.isHistory u = false) : u ∈ es := by
  obtain ⟨rs, hrs, hmem⟩ := exists_resolved h hu
  rw [resolveSteps, resolveTarget?_of_not_history hh] at hrs
  exact hmem u (by simp [← Option.some.inj hrs])

theorem exists_effectiveTargets_of_below (wf : c.WellFormed) (g : c.Grounded)
    (hts : ∀ u ∈ t.targets, c.Below u root) : ∃ es, c.effectiveTargets? m t = some es := by
  obtain ⟨rank, ranked⟩ := g.exists_ranked wf
  obtain ⟨rss, hrss⟩ : ∃ rss, t.targets.mapM (c.resolveTarget? m c.resolveSteps) = some rss := by
    apply exists_mapM_eq_some
    intro u hu
    have hur := hts u hu
    have := ranked.lt_size u (wf.lt_size_of_below hur)
    exact exists_resolveTarget? wf ranked hur (by simp [resolveSteps])
      (fun _ => by simp only [resolveSteps]; omega)
  exact ⟨_, effectiveTargets?_eq_some_iff.mpr ⟨rss, hrss, rfl⟩⟩

theorem exists_effectiveTargets? (wf : c.WellFormed) (g : c.Grounded) (ht : c.Declared t) :
    ∃ es, c.effectiveTargets? m t = some es :=
  exists_effectiveTargets_of_below wf g ht.targets

section Resolved

variable (wf : c.WellFormed) (ht : c.Declared t) (h : c.effectiveTargets? m t = some es)
include wf ht h

/-- Every target comes to something that lies under it. -/
theorem exists_under_of_target (filled : m.Filled c) (hu : u ∈ t.targets) :
    ∃ e ∈ es, c.Under u e := by
  obtain ⟨rs, hrs, hmem⟩ := exists_resolved h hu
  obtain ⟨r, hr⟩ := List.exists_mem_of_ne_nil _ (wf.resolved_ne_nil filled (ht.targets u hu) hrs)
  exact ⟨r, hmem r hr, wf.under_of_resolved filled.proper (ht.targets u hu) hrs r hr⟩

theorem exists_target_of_effective (proper : m.Proper c) (he : e ∈ es) :
    ∃ u ∈ t.targets, c.Under u e := by
  obtain ⟨u, hu, rs, hrs, her⟩ := (mem_effectiveTargets h).mp he
  exact ⟨u, hu, wf.under_of_resolved proper (ht.targets u hu) hrs e her⟩

theorem below_root_of_effective (proper : m.Proper c) (he : e ∈ es) : c.Below e root := by
  obtain ⟨u, hu, hue⟩ := exists_target_of_effective wf ht h proper he
  exact wf.below_of_under (ht.targets u hu) hue

theorem effectiveTargets_eq_nil_iff (filled : m.Filled c) : es = [] ↔ t.targets = [] := by
  constructor
  · rintro rfl
    apply List.eq_nil_iff_forall_not_mem.mpr
    intro u hu
    obtain ⟨e, he, -⟩ := exists_under_of_target wf ht h filled hu
    simp at he
  · intro hnil
    apply List.eq_nil_iff_forall_not_mem.mpr
    intro e he
    obtain ⟨u, hu, -⟩ := exists_target_of_effective wf ht h filled.proper he
    simp [hnil] at hu

end Resolved

/-! ### The domain -/

/-- The state is one that a transition can be taken inside of. -/
structure Encloses (c : Chart) (t : Transition) (es : List Nat) (d : Nat) : Prop where
  inner : d = root ∨ (c.node d).isCompound = true
  source : c.Within t.source d
  targets : ∀ e ∈ es, c.Below e d

/-- The walk upwards ends at the root, or at a compound state above all of the states. -/
theorem leastCompoundAncestor_found (c : Chart) (s : Nat) (es : List Nat) :
    c.leastCompoundAncestor (s :: es) = root ∨
      (c.leastCompoundAncestor (s :: es) = root ∨
        (c.node (c.leastCompoundAncestor (s :: es))).isCompound = true) ∧
      c.Below s (c.leastCompoundAncestor (s :: es)) ∧
      ∀ e ∈ es, c.Below e (c.leastCompoundAncestor (s :: es)) := by
  simp only [leastCompoundAncestor]
  cases hf : (c.ancestors s).find? (fun a =>
      (a == root || (c.node a).isCompound) && es.all (c.isDescendant · a)) with
  | none => exact .inl rfl
  | some a =>
    have htest := List.find?_some hf
    simp only [Bool.and_eq_true, Bool.or_eq_true, beq_iff_eq, List.all_eq_true, isDescendant,
      Ancestry.isDescendant_iff] at htest
    exact .inr ⟨htest.1, List.mem_of_find?_eq_some hf, htest.2⟩

theorem leastCompoundAncestor_inner (hs : c.Below s root) (es : List Nat) :
    (c.leastCompoundAncestor (s :: es) = root ∨
        (c.node (c.leastCompoundAncestor (s :: es))).isCompound = true) ∧
      c.Below s (c.leastCompoundAncestor (s :: es)) := by
  rcases leastCompoundAncestor_found c s es with hroot | ⟨hinner, hsource, -⟩
  · exact ⟨.inl hroot, hroot ▸ hs⟩
  · exact ⟨hinner, hsource⟩

theorem leastCompoundAncestor_spec (hs : c.Below s root)
    (hes : ∀ e ∈ es, c.Below e root) :
    (c.leastCompoundAncestor (s :: es) = root ∨
        (c.node (c.leastCompoundAncestor (s :: es))).isCompound = true) ∧
      c.Below s (c.leastCompoundAncestor (s :: es)) ∧
      ∀ e ∈ es, c.Below e (c.leastCompoundAncestor (s :: es)) := by
  rcases leastCompoundAncestor_found c s es with hroot | hfound
  · exact ⟨.inl hroot, hroot ▸ hs, hroot ▸ hes⟩
  · exact hfound

theorem domainOf_of_ne_nil (hne : es ≠ []) : c.domainOf t es =
    if t.kind = .internal ∧ (c.node t.source).isCompound ∧ es.all (c.isDescendant · t.source) then
      some t.source
    else some (c.leastCompoundAncestor (t.source :: es)) := by
  cases es with
  | nil => exact absurd rfl hne
  | cons e es => rfl

theorem exists_domainOf (hs : c.Below t.source root)
    (hes : ∀ e ∈ es, c.Below e root) (hne : es ≠ []) :
    ∃ d, c.domainOf t es = some d ∧ c.Encloses t es d := by
  rw [domainOf_of_ne_nil hne]
  split
  · rename_i hin
    refine ⟨t.source, rfl, .inr hin.2.1, .refl c.parent t.source, ?_⟩
    simpa [isDescendant, Ancestry.isDescendant_iff] using hin.2.2
  · obtain ⟨hinner, hsource, htargets⟩ := leastCompoundAncestor_spec hs hes
    exact ⟨_, rfl, hinner, hsource.within, htargets⟩

/-- The domain depends on the targets only through the states above the source that enclose them. -/
theorem domainOf_congr (hne : es ≠ []) (hne' : es' ≠ [])
    (h : ∀ a, c.Within t.source a → ((∀ e ∈ es, c.Below e a) ↔ ∀ e ∈ es', c.Below e a)) :
    c.domainOf t es = c.domainOf t es' := by
  have hall : ∀ a, c.Within t.source a →
      es.all (c.isDescendant · a) = es'.all (c.isDescendant · a) := by
    intro a ha
    rw [Bool.eq_iff_iff]
    simpa [isDescendant, Ancestry.isDescendant_iff] using h a ha
  have hlca : c.leastCompoundAncestor (t.source :: es) =
      c.leastCompoundAncestor (t.source :: es') := by
    simp only [leastCompoundAncestor]
    congr 1
    refine List.find?_congr fun a ha => ?_
    rw [hall a (.inr ha)]
  rw [domainOf_of_ne_nil hne, domainOf_of_ne_nil hne', hlca, hall t.source (.refl c.parent _)]

theorem domain?_eq_some_iff {o : Option Nat} : c.domain? m t = some o ↔
    ∃ es, c.effectiveTargets? m t = some es ∧ c.domainOf t es = o := by
  simp [domain?]

/-- A transition without targets has no domain. -/
theorem domain?_of_targetless (h : t.isTargetless = true) : c.domain? m t = some none := by
  have hnil : t.targets = [] := by simpa [Transition.isTargetless] using h
  refine domain?_eq_some_iff.mpr ⟨[], effectiveTargets?_eq_some_iff.mpr ⟨[], ?_, rfl⟩, rfl⟩
  simp [hnil]

/-- Whatever the memory says, a domain lies above the source and has one region active at a time. -/
theorem inner_of_domain (hs : c.Below t.source root) (h : c.domain? m t = some (some d)) :
    (d = root ∨ (c.node d).isCompound = true) ∧ c.Within t.source d := by
  obtain ⟨es, -, hd⟩ := domain?_eq_some_iff.mp h
  have hne : es ≠ [] := by
    rintro rfl
    simp [domainOf] at hd
  rw [domainOf_of_ne_nil hne] at hd
  split at hd
  · rename_i hin
    obtain rfl := Option.some.inj hd
    exact ⟨.inr hin.2.1, .refl c.parent t.source⟩
  · obtain rfl := Option.some.inj hd
    obtain ⟨hinner, hsource⟩ := leastCompoundAncestor_inner hs es
    exact ⟨hinner, hsource.within⟩

theorem exists_encloses (wf : c.WellFormed) (proper : m.Proper c) (ht : c.Declared t)
    (h : c.domain? m t = some (some d)) :
    ∃ es, c.effectiveTargets? m t = some es ∧ es ≠ [] ∧ c.Encloses t es d := by
  obtain ⟨es, hes, hd⟩ := domain?_eq_some_iff.mp h
  have hne : es ≠ [] := by
    rintro rfl
    simp [domainOf] at hd
  obtain ⟨d', hd', henc⟩ := exists_domainOf ht.source
    (fun e he => below_root_of_effective wf ht hes proper he) hne
  obtain rfl := Option.some.inj (hd.symm.trans hd')
  exact ⟨es, hes, hne, henc⟩

/-- Only a transition without targets has no domain. -/
theorem targets_eq_nil_of_domain (wf : c.WellFormed) (filled : m.Filled c) (ht : c.Declared t)
    (h : c.domain? m t = some none) : t.targets = [] := by
  obtain ⟨es, hes, hnone⟩ := domain?_eq_some_iff.mp h
  apply (effectiveTargets_eq_nil_iff wf ht hes filled).mp
  by_contra hne
  obtain ⟨d, hd, -⟩ := exists_domainOf ht.source
    (fun e he => below_root_of_effective wf ht hes filled.proper he) hne
  simp [hnone] at hd

/-- A transition with a target has a domain. -/
theorem exists_domain_of_target (wf : c.WellFormed) (filled : m.Filled c) (ht : c.Declared t)
    (h : c.effectiveTargets? m t = some es) (hu : u ∈ t.targets) :
    ∃ d, c.domain? m t = some (some d) := by
  cases hd : c.domainOf t es with
  | some d => exact ⟨d, domain?_eq_some_iff.mpr ⟨es, h, hd⟩⟩
  | none =>
    have hnil := targets_eq_nil_of_domain wf filled ht (domain?_eq_some_iff.mpr ⟨es, h, hd⟩)
    simp [hnil] at hu

/-! ### Domains under two memories -/

/-- The parents of the history states among the targets do not properly contain the source. -/
def EntersFromOutside (c : Chart) (t : Transition) : Prop :=
  ∀ u ∈ t.targets, c.isHistory u = true → ∀ q, c.parent u = some q → ¬c.Below t.source q

section Memories

variable (wf : c.WellFormed) (ht : c.Declared t)
include wf ht

/-- Which states above the source enclose the targets is the same for every memory. -/
theorem EntersFromOutside.enclosed_iff (out : c.EntersFromOutside t) (filled : m.Filled c)
    (h : c.effectiveTargets? m t = some es) (ha : c.Within t.source a) :
    (∀ e ∈ es, c.Below e a) ↔ ∀ u ∈ t.targets, c.Below u a := by
  have hone : ∀ u ∈ t.targets, ∀ rs, c.resolveTarget? m c.resolveSteps u = some rs →
      ((∀ r ∈ rs, c.Below r a) ↔ c.Below u a) := by
    intro u hu rs hrs
    apply wf.resolved_below_iff filled (ht.targets u hu) hrs
    intro hh q hq haq
    exact out u hu hh q hq (ha.trans_below wf.upward haq)
  constructor
  · intro hall u hu
    obtain ⟨rs, hrs, hmem⟩ := exists_resolved h hu
    exact (hone u hu rs hrs).mp fun r hr => hall r (hmem r hr)
  · intro hall e he
    obtain ⟨u, hu, rs, hrs, her⟩ := (mem_effectiveTargets h).mp he
    exact (hone u hu rs hrs).mpr (hall u hu) e her

theorem EntersFromOutside.domainOf_eq (out : c.EntersFromOutside t) (filled : m.Filled c)
    (filled' : m'.Filled c) (h : c.effectiveTargets? m t = some es)
    (h' : c.effectiveTargets? m' t = some es') : c.domainOf t es = c.domainOf t es' := by
  by_cases hnil : t.targets = []
  · rw [(effectiveTargets_eq_nil_iff wf ht h filled).mpr hnil,
      (effectiveTargets_eq_nil_iff wf ht h' filled').mpr hnil]
  · have hne : es ≠ [] := mt (effectiveTargets_eq_nil_iff wf ht h filled).mp hnil
    have hne' : es' ≠ [] := mt (effectiveTargets_eq_nil_iff wf ht h' filled').mp hnil
    apply domainOf_congr hne hne'
    intro a ha
    rw [out.enclosed_iff wf ht filled h ha, out.enclosed_iff wf ht filled' h' ha]

/-- Targets lie inside the domain if they are entered from outside. -/
theorem EntersFromOutside.below (out : c.EntersFromOutside t) (filled : m.Filled c)
    (h : c.effectiveTargets? m t = some es) (hd : c.Encloses t es d) (hu : u ∈ t.targets) :
    c.Below u d :=
  (out.enclosed_iff wf ht filled h hd.source).mp hd.targets u hu

/-- What the targets come to stays below a state while the memory of all that lies above that state
stays the same. -/
theorem effective_below_of_memory (filled : m.Filled c) (filled' : m'.Filled c)
    (hm : ∀ h q, c.isHistory h = true → c.parent h = some q → c.Below d q → m.get? h = m'.get? h)
    (h : c.effectiveTargets? m t = some es) (hd : ∀ e ∈ es, c.Below e d)
    (h' : c.effectiveTargets? m' t = some es') : ∀ e ∈ es', c.Below e d := by
  intro e he
  obtain ⟨u, hu, rs', hrs', her⟩ := (mem_effectiveTargets h').mp he
  obtain ⟨rs, hrs, hmem⟩ := exists_resolved h hu
  exact wf.resolved_below_of_memory filled filled' hm (ht.targets u hu) hrs
    (fun r hr => hd r (hmem r hr)) hrs' e her

end Memories

end Statechart.Chart

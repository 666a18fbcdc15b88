import Statechart.Proofs.Arrival
import Statechart.Proofs.EntryAgreement
import Statechart.Proofs.EntryTermination

/-!
The first entry. The initial targets of the root are entered one after the other, each with its
ancestors, before the next is looked at. A target after the first may find its region already
entered by default, so the first entry of a compound root succeeds exactly when the first target
alone brings all the others along; that of a parallel root always does.
-/
namespace Statechart

open Ancestry (below_of_parent)
open Chart (root)
open Command (applyAll applyAll_append applyAll_of_still still_of_mem_rootCommands)

namespace EntryPlan

variable {c : Chart} {p p₁ p₂ : EntryPlan} {s t : Nat} {ts : List Nat}

/-- The plan of entering the given targets of the root, each with its ancestors, in turn. -/
def entryOf? (c : Chart) (ts : List Nat) (m : Memory := Memory.empty) : Option EntryPlan :=
  ts.foldlM (fun p t => addTargets c (addWithin c m (levels c)) root [t] p) {}

theorem initial?_eq (c : Chart) (m : Memory := Memory.empty) :
    initial? c m = entryOf? c (c.defaultEntry root) m := by
  unfold initial? entryOf?
  congr 1
  funext p t
  cases h : p.add? c m t with
  | none =>
    have h' : addWithin c m (levels c) t p = none := h
    simp [addTargets, addAll, h']
  | some p₁ =>
    have h' : addWithin c m (levels c) t p = some p₁ := h
    have hanc : addAllAncestors c (addWithin c m (levels c)) root [t] p₁ =
        addAncestors c (addWithin c m (levels c)) (c.ancestorsBelow t root) p₁ := by
      simp [addAllAncestors]
    simp only [addTargets, addAll, h', Option.bind_eq_bind, Option.bind_some, hanc]
    rfl

section WellFormed

variable (wf : c.WellFormed)
include wf

theorem enters_initial : Enters c (addWithin c Memory.empty (levels c)) :=
  enters_addWithin wf (Memory.sound_empty c) (levels c)

theorem extends_foldlM_targets (hts : ∀ t ∈ ts, c.Below t root)
    (h : ts.foldlM (fun p t => addTargets c (addWithin c Memory.empty (levels c)) root [t] p) p =
      some p₂) :
    Extends c (c.Below · root) (c.Within root) p p₂ ∧ ∀ t ∈ ts, p₂.Reached c t := by
  induction ts generalizing p with
  | nil =>
    obtain rfl := Option.some.inj h
    exact ⟨.refl c _ _ p, by simp⟩
  | cons t ts ih =>
    obtain ⟨p₁, hp₁, hrest⟩ := Option.bind_eq_some_iff.mp h
    obtain ⟨hadd, hreach⟩ := extends_addTargets wf (enters_initial wf)
      (fun u hu => List.mem_singleton.mp hu ▸ hts t (by simp)) hp₁
    obtain ⟨hext, hall⟩ := ih (fun u hu => hts u (by simp [hu])) hrest
    exact ⟨hadd.trans hext, List.forall_mem_cons.mpr
      ⟨(hreach t (by simp)).mono hext.mono, hall⟩⟩

theorem extends_entryOf? (hts : ∀ t ∈ ts, c.Below t root) (h : entryOf? c ts = some p) :
    Extends c (c.Below · root) (c.Within root) {} p ∧ ∀ t ∈ ts, p.Reached c t :=
  extends_foldlM_targets wf hts h

theorem exists_entryOf? {m : Memory} (g : c.Grounded) (proper : m.Proper c)
    (hts : ∀ t ∈ ts, c.Below t root) : ∃ p, entryOf? c ts m = some p := by
  have hall (ts : List Nat) (hts : ∀ t ∈ ts, c.Below t root) (p : EntryPlan) : ∃ p',
      ts.foldlM (fun p t => addTargets c (addWithin c m (levels c)) root [t] p) p = some p' := by
    induction ts generalizing p with
    | nil => exact ⟨p, rfl⟩
    | cons t ts ih =>
      have henter (u : Nat) (hu : c.Below u root) : Enterable (addWithin c m (levels c)) u :=
        enterable_add? wf proper g hu
      obtain ⟨p₁, hp₁⟩ : ∃ p₁, addTargets c (addWithin c m (levels c)) root [t] p = some p₁ := by
        refine exists_addTargets wf (fun u hu => ?_) (fun r _ hr => henter r hr) p
        obtain rfl := List.mem_singleton.mp hu
        exact ⟨hts u (by simp), henter u (hts u (by simp))⟩
      obtain ⟨p₂, hp₂⟩ := ih (fun u hu => hts u (by simp [hu])) p₁
      exact ⟨p₂, by simp [hp₁, hp₂]⟩
  exact hall ts hts {}

/-- The first target of a list is entered alone, before the others. -/
theorem exists_first (hts : ∀ u ∈ t :: ts, c.Below u root) (h : entryOf? c (t :: ts) = some p) :
    ∃ p₁, entryOf? c [t] = some p₁ ∧ ∀ s ∈ p₁.states, s ∈ p.states := by
  obtain ⟨p₁, hp₁, hrest⟩ := Option.bind_eq_some_iff.mp h
  refine ⟨p₁, by simpa [entryOf?] using hp₁, ?_⟩
  exact (extends_foldlM_targets wf (fun u hu => hts u (by simp [hu])) hrest).1.mono

/-- The plan of one target has no conflict. -/
theorem compatible_entryOf?_singleton (sep : c.Separate) (ht : c.Below t root)
    (h : entryOf? c [t] = some p) : c.Compatible p.states := by
  have h' : addTargets c (addWithin c Memory.empty (levels c)) root [t] {} = some p := by
    simpa [entryOf?] using h
  exact compatible_addTargets wf (enters_initial wf)
    (harmonizes_addWithin wf sep (Memory.sound_empty c) (levels c))
    (fun u hu => List.mem_singleton.mp hu ▸ ht) (List.pairwise_singleton _ _) (.inl (by simp))
    (fun a ha => absurd ha (StateSet.not_mem_empty a))
    (fun b hb => absurd hb (StateSet.not_mem_empty b)) h'

theorem ancestorsBelow_of_region (ht : t ∈ c.regions root) : c.ancestorsBelow t root = [] := by
  have hpar := (wf.mem_regions.mp ht).1
  apply List.eq_nil_iff_forall_not_mem.mpr
  intro a ha
  obtain ⟨hta, har⟩ :=
    (Chart.mem_ancestorsBelow wf (below_of_parent wf.upward hpar)).mp ha
  have hw := Ancestry.within_parent_of_below wf.upward hpar hta
  exact Ancestry.not_below_self wf.upward root (hw.trans_below wf.upward har)

/-- Regions of the root have no ancestors to add. -/
theorem entryOf?_regions (hts : ∀ t ∈ ts, t ∈ c.regions root) (p : EntryPlan) :
    ts.foldlM (fun p t => addTargets c (addWithin c Memory.empty (levels c)) root [t] p) p =
      addAll (addWithin c Memory.empty (levels c)) ts p := by
  induction ts generalizing p with
  | nil => rfl
  | cons t ts ih =>
    have hone : addTargets c (addWithin c Memory.empty (levels c)) root [t] p =
        addWithin c Memory.empty (levels c) t p := by
      cases h : addWithin c Memory.empty (levels c) t p <;>
        simp [addTargets, addAll, addAllAncestors, h, ancestorsBelow_of_region wf (hts t (by simp)),
          addAncestors]
    rw [List.foldlM_cons, hone, addAll]
    exact Option.bind_congr fun p₁ _ => ih (fun u hu => hts u (by simp [hu])) p₁

theorem compatible_entryOf?_regions (sep : c.Separate) (hpar : (c.node root).isParallel = true)
    (h : entryOf? c (c.regions root) = some p) : c.Compatible p.states := by
  rw [entryOf?, entryOf?_regions wf (fun _ ht => ht)] at h
  have hreal : ∀ t ∈ c.regions root, c.isHistory t = false := fun t ht => (wf.mem_regions.mp ht).2
  refine compatible_addAll wf (enters_initial wf)
    (harmonizes_addWithin wf sep (Memory.sound_empty c) (levels c))
    (fun t ht => below_of_parent wf.upward (wf.mem_regions.mp ht).1) ?_
    (fun a ha => absurd ha (StateSet.not_mem_empty a))
    (fun _ _ b hb => absurd hb (StateSet.not_mem_empty b)) h
  apply (wf.regions_pairwise_ne root).imp_of_mem
  intro k l hk hl hne
  rw [Chart.anchor_of_not_history (hreal k hk), Chart.anchor_of_not_history (hreal l hl)]
  exact Chart.apart_of_regions wf.upward (wf.mem_regions.mp hk).1 (wf.mem_regions.mp hl).1 hpar hne

/-! ### The configuration entered -/

/-- Everything is as it must be except, perhaps, that a compound state has two active regions. -/
theorem valid_iff_exclusive (hts : ∀ t ∈ ts, c.Below t root) (hne : ts ≠ [])
    (hall : (c.node root).isParallel = true → ∀ r ∈ c.regions root, r ∈ ts)
    (h : entryOf? c ts = some p) :
    Configuration.Valid c p.states ↔ c.Exclusive p.states := by
  obtain ⟨hgrow, hreach⟩ := extends_entryOf? wf hts h
  have hnew (s : Nat) : s ∉ ({} : EntryPlan).states := StateSet.not_mem_empty s
  have hatt : Configuration.Attached c p.states := by
    intro s hs q hq
    rcases hgrow.linked s hs (hnew s) q hq with hqp | hroot
    · exact .inr hqp
    · refine .inl (hroot.resolve_right fun hb => ?_).symm
      have := hb.lt wf.upward
      simp [root] at this
  have hregion {s q : Nat} (hs : s ∈ p.states) (hsq : c.Below s q) :
      ∃ k ∈ c.regions q, k ∈ p.states := by
    obtain ⟨k, hk, hsk⟩ := wf.exists_region_above hsq (hgrow.real s hs (hnew s))
    have hkq := below_of_parent wf.upward (wf.mem_regions.mp hk).1
    exact ⟨k, hk, hatt.mem_of_within wf hs hsk (wf.ne_root_of_below hkq)⟩
  refine ⟨fun hv => hv.exclusive wf, fun hexcl => ⟨?_, ?_, hatt, ?_, ?_⟩⟩
  · exact fun s hs => wf.lt_size_of_below (hgrow.scope s hs (hnew s))
  · exact fun s hs => hgrow.real s hs (hnew s)
  · intro q hq hc
    obtain ⟨k, hk, hkp⟩ : ∃ k ∈ c.regions q, k ∈ p.states := by
      rcases hq with rfl | hq
      · obtain ⟨t, ts', rfl⟩ := List.exists_cons_of_ne_nil hne
        obtain ⟨u, hu, hut⟩ := (hreach t (by simp)).under
        exact hregion hu (wf.below_of_under (hts t (by simp)) hut)
      · obtain ⟨u, hu, huq⟩ := (hgrow.fills q hq (hnew q)).compound hc
        exact hregion hu huq
    have hpar := Node.not_parallel_of_compound hc
    exact ⟨k, hk, hkp, fun l hl hlp => hexcl q hpar l hl k hk hlp hkp⟩
  · intro q hq hp r hr
    obtain ⟨hpar, hreal⟩ := wf.mem_regions.mp hr
    rcases hq with rfl | hq
    · exact (hreach r (hall hp r hr)).self hreal
    · obtain ⟨u, hu, hur⟩ := (hgrow.fills q hq (hnew q)).parallel hp r hr
      exact hatt.mem_of_within wf hu hur (wf.ne_root_of_below (below_of_parent wf.upward hpar))

end WellFormed

end EntryPlan

/-! ### The script -/

namespace Script

variable {c : Chart} {script : Script} {t : Nat} {ts : List Nat}

theorem start?_spec (h : start? c = some script) : ∃ p, EntryPlan.initial? c = some p ∧
    applyAll StateSet.empty script.commands = p.states ∧
      (∀ i, i ∈ script.entered ↔ i ∈ p.states) ∧ script.exited = [] ∧ script.memory = {} := by
  simp only [start?, Option.bind_eq_bind, Option.bind_eq_some_iff, Option.some.injEq] at h
  obtain ⟨p, hp, rfl⟩ := h
  obtain ⟨hresult, hentered⟩ := p.arrive_spec c StateSet.empty
  refine ⟨p, hp, StateSet.ext fun i => ?_, fun i => by simp [hentered i], rfl, rfl⟩
  rw [applyAll_append, applyAll_of_still (fun _ => still_of_mem_rootCommands), hresult i]
  simp

theorem exists_start? (wf : c.WellFormed) (g : c.Grounded) : ∃ script, start? c = some script := by
  obtain ⟨p, hp⟩ := EntryPlan.exists_entryOf? wf g (Memory.sound_empty c).proper
    (wf.defaultEntry_spec wf.root_inner).1
  rw [← EntryPlan.initial?_eq] at hp
  exact ⟨_, by simp [start?, hp]; rfl⟩

section WellFormed

variable (wf : c.WellFormed)
include wf

/-- Only exclusion can fail in the first entry. -/
theorem start?_valid_iff (h : start? c = some script) :
    Configuration.Valid c (applyAll StateSet.empty script.commands) ↔
      c.Exclusive (applyAll StateSet.empty script.commands) := by
  obtain ⟨p, hp, hresult, -⟩ := start?_spec h
  obtain ⟨hbelow, -, hne⟩ := wf.defaultEntry_spec wf.root_inner
  rw [EntryPlan.initial?_eq] at hp
  rw [hresult]
  refine EntryPlan.valid_iff_exclusive wf hbelow hne (fun hpar r hr => ?_) hp
  rwa [Chart.defaultEntry, if_pos hpar]

/-- The initial targets of the root are active, history states apart. -/
theorem mem_of_start? (h : start? c = some script) (ht : t ∈ c.defaultEntry root)
    (hh : c.isHistory t = false) : t ∈ applyAll StateSet.empty script.commands := by
  obtain ⟨p, hp, hresult, -⟩ := start?_spec h
  rw [EntryPlan.initial?_eq] at hp
  rw [hresult]
  exact ((EntryPlan.extends_entryOf? wf (wf.defaultEntry_spec wf.root_inner).1 hp).2 t ht).self hh

/-- Something is active in the end. -/
theorem exists_result_of_start? (h : start? c = some script) :
    ∃ i, i ∈ applyAll StateSet.empty script.commands := by
  obtain ⟨p, hp, hresult, -⟩ := start?_spec h
  obtain ⟨hbelow, -, hne⟩ := wf.defaultEntry_spec wf.root_inner
  obtain ⟨t, ht⟩ := List.exists_mem_of_ne_nil _ hne
  rw [EntryPlan.initial?_eq] at hp
  obtain ⟨i, hi, -⟩ := ((EntryPlan.extends_entryOf? wf hbelow hp).2 t ht).under
  exact ⟨i, hresult ▸ hi⟩

/-- With several initial targets the first entry is valid exactly when the first of them brings all
the others along. -/
theorem start?_valid_iff_first (sep : c.Separate) (ht : c.defaultEntry root = t :: ts)
    (h : start? c = some script) : ∃ p, EntryPlan.entryOf? c [t] = some p ∧
      ((c.node root).isParallel = false →
        (Configuration.Valid c (applyAll StateSet.empty script.commands) ↔
          applyAll StateSet.empty script.commands = p.states)) := by
  obtain ⟨p, hp, hresult, -⟩ := start?_spec h
  obtain ⟨hbelow, -, -⟩ := wf.defaultEntry_spec wf.root_inner
  rw [EntryPlan.initial?_eq, ht] at hp
  rw [ht] at hbelow
  rw [hresult]
  have htroot : ∀ u ∈ [t], c.Below u root := fun u hu => hbelow u (by simp_all)
  obtain ⟨p₁, hp₁, hsub⟩ := EntryPlan.exists_first wf hbelow hp
  refine ⟨p₁, hp₁, fun hpar => ?_⟩
  have hv : Configuration.Valid c p₁.states :=
    (EntryPlan.valid_iff_exclusive wf htroot (by simp) (by simp [hpar]) hp₁).mpr
      (Configuration.exclusive_of_compatible wf
        (EntryPlan.compatible_entryOf?_singleton wf sep (hbelow t (by simp)) hp₁))
  have hroot : root ∉ p.states := fun hr => wf.ne_root_of_below
    ((EntryPlan.extends_entryOf? wf hbelow hp).1.scope root hr (StateSet.not_mem_empty root)) rfl
  exact ⟨fun hy => (hv.eq_of_subset wf hy hsub fun hr => absurd hr hroot).symm, fun he => he ▸ hv⟩

theorem valid_of_start? (sep : c.Separate) (hone : (c.node root).isParallel = true ∨
    (c.defaultEntry root).length ≤ 1) (h : start? c = some script) :
    Configuration.Valid c (applyAll StateSet.empty script.commands) := by
  refine (start?_valid_iff wf h).mpr ?_
  obtain ⟨p, hp, hresult, -⟩ := start?_spec h
  obtain ⟨hbelow, -, hne⟩ := wf.defaultEntry_spec wf.root_inner
  rw [EntryPlan.initial?_eq] at hp
  rw [hresult]
  apply Configuration.exclusive_of_compatible wf
  by_cases hpar : (c.node root).isParallel = true
  · rw [Chart.defaultEntry, if_pos hpar] at hp
    exact EntryPlan.compatible_entryOf?_regions wf sep hpar hp
  · obtain ⟨t, ht⟩ := List.length_eq_one_iff.mp
      (Nat.le_antisymm (hone.resolve_left hpar) (List.length_pos_of_ne_nil hne))
    rw [ht] at hp
    exact EntryPlan.compatible_entryOf?_singleton wf sep (hbelow t (by simp [ht])) hp

end WellFormed

end Script

end Statechart

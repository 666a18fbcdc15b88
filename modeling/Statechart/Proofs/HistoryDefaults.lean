import Statechart.Proofs.ActionOrder
import Statechart.Proofs.Restoration

/-!
When the actions of a history default run. A plan keeps them under the parent of the history state,
and they are run when the parent is entered or the first of its children is. So they are run once
wherever the microstep goes through the parent; but where everything that is entered lies inside a
child of the parent that stays active, nothing ever runs them.
-/
namespace Statechart

open Ancestry (below_of_parent child_unique)
open Chart (root)
open Command (map_fst_deeds)

namespace EntryPlan

variable {c : Chart} {m : Memory} {x : Configuration} {p p₁ p₂ : EntryPlan} {n q s t top : Nat}
  {as rs ts : List Nat} {down : Nat → EntryPlan → Option EntryPlan}

/-! ### Plans that keep the actions of one parent -/

/-- The plan has grown, and what it keeps under `q` is the same. -/
structure Spares (q : Nat) (p p₁ : EntryPlan) : Prop where
  mono : ∀ s ∈ p.states, s ∈ p₁.states
  actions : p₁.historyActions.get? q = p.historyActions.get? q

theorem Spares.refl (q : Nat) (p : EntryPlan) : Spares q p p := ⟨fun _ hs => hs, rfl⟩

theorem Spares.trans (h₁ : Spares q p p₁) (h₂ : Spares q p₁ p₂) : Spares q p p₂ :=
  ⟨fun s hs => h₂.mono s (h₁.mono s hs), h₂.actions.trans h₁.actions⟩

theorem spares_addState (q : Nat) (p : EntryPlan) (a : Nat) : Spares q p (p.addState a) :=
  ⟨fun _ hs => mem_addState.mpr (.inr hs), rfl⟩

theorem spares_addCompound (q : Nat) (p : EntryPlan) (a : Nat) : Spares q p (p.addCompound a) :=
  ⟨fun _ hs => mem_addCompound.mpr (.inr hs), rfl⟩

/-- Targets that are not anchored at or above `q` are added without a change under `q`. -/
def SparesAway (c : Chart) (q : Nat) (down : Nat → EntryPlan → Option EntryPlan) : Prop :=
  ∀ t p p₁, ¬c.Within q (c.anchor t) → down t p = some p₁ → Spares q p p₁

section Spares

variable (hdown : SparesAway c q down)
include hdown

/-- A region around `q` is not opened if the plan reaches into it. -/
theorem spares_openRegions (hrs : ∀ r ∈ rs, c.isHistory r = false ∧
    (c.Within q r → p.covers c r = true)) (h : openRegions c down rs p = some p₁) :
    Spares q p p₁ := by
  induction rs generalizing p with
  | nil => exact Option.some.inj h ▸ .refl q p
  | cons r rs ih =>
    have hrest : ∀ r' ∈ rs, c.isHistory r' = false ∧ (c.Within q r' → p.covers c r' = true) :=
      fun r' hr' => hrs r' (by simp [hr'])
    rw [openRegions] at h
    split at h
    · exact ih hrest h
    · rename_i hcov
      obtain ⟨p₂, hp₂, h⟩ := Option.bind_eq_some_iff.mp h
      obtain ⟨hreal, haround⟩ := hrs r (by simp)
      have hone := hdown r p p₂ (by rw [Chart.anchor_of_not_history hreal]; exact mt haround hcov) hp₂
      exact hone.trans (ih (fun r' hr' => ⟨(hrest r' hr').1, fun hq =>
        covers_mono hone.mono ((hrest r' hr').2 hq)⟩) h)

variable (wf : c.WellFormed)
include wf

theorem spares_addAncestors (has : ∀ a ∈ as, ∀ r ∈ c.regions a, c.Within q r → p.covers c r = true)
    (h : addAncestors c down as p = some p₁) : Spares q p p₁ := by
  induction as generalizing p with
  | nil => exact Option.some.inj h ▸ .refl q p
  | cons a as ih =>
    have hrest {p₂ : EntryPlan} (hone : Spares q p p₂) (h : addAncestors c down as p₂ = some p₁) :
        Spares q p p₁ :=
      hone.trans (ih (fun b hb r hr hq => covers_mono hone.mono (has b (by simp [hb]) r hr hq)) h)
    have hself := spares_addState q p a
    rw [addAncestors] at h
    split at h
    · exact hrest (.refl q p) h
    · dsimp only at h
      split at h
      · obtain ⟨p₂, hp₂, h⟩ := Option.bind_eq_some_iff.mp h
        refine hrest (hself.trans (spares_openRegions hdown (fun r hr => ?_) hp₂)) h
        exact ⟨(wf.mem_regions.mp hr).2, fun hq => covers_mono hself.mono (has a (by simp) r hr hq)⟩
      · exact hrest hself h

omit wf in
theorem spares_addAll (hts : ∀ t ∈ ts, ¬c.Within q (c.anchor t)) (h : addAll down ts p = some p₁) :
    Spares q p p₁ := by
  induction ts generalizing p with
  | nil => exact Option.some.inj h ▸ .refl q p
  | cons t ts ih =>
    obtain ⟨p₂, hp₂, h⟩ := Option.bind_eq_some_iff.mp h
    exact (hdown t p p₂ (hts t (by simp)) hp₂).trans (ih (fun u hu => hts u (by simp [hu])) h)

theorem spares_addAllAncestors (hts : ∀ t ∈ ts, c.Below t top)
    (hcov : ∀ r, c.Below r top → c.Within q r → p.covers c r = true)
    (h : addAllAncestors c down top ts p = some p₁) : Spares q p p₁ := by
  induction ts generalizing p with
  | nil => exact Option.some.inj h ▸ .refl q p
  | cons t ts ih =>
    obtain ⟨p₂, hp₂, h⟩ := Option.bind_eq_some_iff.mp h
    have hone := spares_addAncestors hdown wf (fun a ha r hr hq => ?_) hp₂
    · exact hone.trans (ih (fun u hu => hts u (by simp [hu]))
        (fun r hr hq => covers_mono hone.mono (hcov r hr hq)) h)
    · have hat := ((Chart.mem_ancestorsBelow wf (hts t (by simp))).mp ha).2
      exact hcov r ((below_of_parent wf.upward (wf.mem_regions.mp hr).1).trans wf.upward hat) hq

theorem spares_addTargets (hts : ∀ t ∈ ts, c.Below t top ∧ ¬c.Within q (c.anchor t))
    (htop : ∀ r, c.Below r top → ¬c.Within q r) (h : addTargets c down top ts p = some p₁) :
    Spares q p p₁ := by
  obtain ⟨p₂, hp₂, h⟩ := Option.bind_eq_some_iff.mp h
  exact (spares_addAll hdown (fun t ht => (hts t ht).2) hp₂).trans
    (spares_addAllAncestors hdown wf (fun t ht => (hts t ht).1)
      (fun r hr hq => absurd hq (htop r hr)) h)

end Spares

theorem spares_fallBack {h a : Nat} (hne : q ≠ a) (p : EntryPlan) :
    Spares q p (p.fallBack c m h a) := by
  unfold fallBack
  split
  · exact ⟨fun _ hs => hs, by simp [addHistoryActions, OrderedMap.get?_put, hne]⟩
  · exact .refl q p

/-- What lies inside a state that is not at or above `q` is added without a change under `q`. -/
theorem sparesAway_addWithin (wf : c.WellFormed) (proper : m.Proper c) (n : Nat) :
    SparesAway c q (addWithin c m n) := by
  induction n with
  | zero => exact fun t p p₁ _ h => absurd h (by simp [addWithin])
  | succ n ih =>
    intro t p p₁ haway h
    have hin {top : Nat} (htop : ¬c.Within q top) (r : Nat) (hr : c.Within r top) : ¬c.Within q r :=
      fun hqr => htop (hqr.trans wf.upward hr)
    have htargets {top : Nat} {ts : List Nat} {p : EntryPlan} (htop : ¬c.Within q top)
        (hts : ∀ t ∈ ts, c.Below t top) (h : addTargets c (addWithin c m n) top ts p = some p₁) :
        Spares q p p₁ :=
      spares_addTargets ih wf
        (fun t ht => ⟨hts t ht, hin htop _ (wf.anchor_within (hts t ht))⟩)
        (fun r hr => hin htop r hr.within) h
    cases hh : c.isHistory t with
    | true =>
      cases hq : c.parent t with
      | none =>
        obtain ⟨d, e, hk⟩ := Chart.exists_kind_of_history hh
        obtain rfl : p = p₁ := by simpa [addWithin, hk, hq] using h
        exact .refl q p
      | some a =>
        rw [Chart.anchor_of_history hh hq] at haway
        rw [addWithin_fallBack hh hq] at h
        exact (spares_fallBack (fun he => haway (.inl he)) p).trans
          (htargets haway (wf.leads_below proper hh hq) h)
    | false =>
      rw [Chart.anchor_of_not_history hh] at haway
      have hself := spares_addState q p t
      unfold addWithin at h
      cases hk : (c.node t).kind with
      | history d e => simp [Chart.isHistory, Node.isHistory, hk] at hh
      | atomic => exact (by simpa [hk] using h : p.addState t = p₁) ▸ hself
      | final => exact (by simpa [hk] using h : p.addState t = p₁) ▸ hself
      | compound i =>
        simp only [hk] at h
        have hbelow := (wf.defaultTargets_spec (q := t) (by simp [Node.isCompound, hk])).1
        exact (spares_addCompound q p t).trans (htargets haway hbelow h)
      | parallel =>
        simp only [hk] at h
        refine hself.trans (spares_openRegions ih (fun r hr => ?_) h)
        obtain ⟨hpar, hreal⟩ := wf.mem_regions.mp hr
        exact ⟨hreal, fun hqr => absurd hqr (hin haway r (below_of_parent wf.upward hpar).within)⟩

theorem spares_completeRoot (wf : c.WellFormed) (proper : m.Proper c)
    (hcov : ∀ r ∈ c.regions root, c.Within q r → p.covers c r = true)
    (h : completeRoot? c x m p = some p₁) : Spares q p p₁ := by
  have hgo (rs : List Nat) (hrs : ∀ r ∈ rs, r ∈ c.regions root) (p : EntryPlan)
      (hcov : ∀ r ∈ rs, c.Within q r → p.covers c r = true)
      (h : completeRoot?.go c x m rs p = some p₁) : Spares q p p₁ := by
    induction rs generalizing p with
    | nil => exact Option.some.inj h ▸ .refl q p
    | cons r rs ih =>
      have ih := ih fun r' hr' => hrs r' (by simp [hr'])
      have hrest : ∀ r' ∈ rs, c.Within q r' → p.covers c r' = true :=
        fun r' hr' => hcov r' (by simp [hr'])
      rw [completeRoot?.go] at h
      split at h
      · exact ih p hrest h
      · rename_i hclear
        obtain ⟨p₂, hp₂, h⟩ := Option.bind_eq_some_iff.mp h
        have hreal := (wf.mem_regions.mp (hrs r (by simp))).2
        have hone := sparesAway_addWithin wf proper (levels c) (q := q) r p p₂ (by
          rw [Chart.anchor_of_not_history hreal]
          exact fun hq => hclear (by simp [hcov r (by simp) hq])) hp₂
        exact hone.trans (ih p₂ (fun r' hr' hq => covers_mono hone.mono (hrest r' hr' hq)) h)
  unfold completeRoot? at h
  split at h
  · exact hgo _ (fun r hr => hr) p hcov h
  · exact Option.some.inj h ▸ .refl q p

/-! ### Ancestors are planned -/

section Ancestors

variable (wf : c.WellFormed) (proper : m.Proper c)
include wf proper

theorem mem_of_addAncestors (has : ∀ a ∈ as, a ≠ root ∧ c.isHistory a = false)
    (h : addAncestors c (addWithin c m n) as p = some p₁) :
    (∀ s ∈ p.states, s ∈ p₁.states) ∧ ∀ a ∈ as, a ∈ p₁.states := by
  have hall : Closed c fun _ => True := fun _ _ _ _ => trivial
  have hdown (t : Nat) (ht : ∀ s, c.Under t s → True) :
      Inside c (fun _ => True) (addWithin c m n t) := inside_addWithin wf proper hall n ht
  induction as generalizing p with
  | nil => exact Option.some.inj h ▸ ⟨fun _ hs => hs, by simp⟩
  | cons a as ih =>
    have hrest {p₂ : EntryPlan} (hone : ∀ s, s = a ∨ s ∈ p.states → s ∈ p₂.states)
        (h : addAncestors c (addWithin c m n) as p₂ = some p₁) :
        (∀ s ∈ p.states, s ∈ p₁.states) ∧ ∀ b ∈ a :: as, b ∈ p₁.states := by
      obtain ⟨hmono, hmem⟩ := ih (fun b hb => has b (by simp [hb])) h
      refine ⟨fun s hs => hmono s (hone s (.inr hs)), fun b hb => ?_⟩
      rcases List.mem_cons.mp hb with rfl | hb
      · exact hmono b (hone b (.inl rfl))
      · exact hmem b hb
    simp only [addAncestors, (has a (by simp)).1, if_false] at h
    split at h
    · obtain ⟨p₂, hp₂, h⟩ := Option.bind_eq_some_iff.mp h
      have hgrow := (inside_regions wf hall hdown trivial).grows hp₂
      exact hrest (fun s hs => hgrow.mono s (mem_addState.mpr hs)) h
    · exact hrest (fun s hs => mem_addState.mpr hs) h

theorem mem_of_addAllAncestors (hts : ∀ t ∈ ts, c.Below t top)
    (h : addAllAncestors c (addWithin c m n) top ts p = some p₁) :
    (∀ s ∈ p.states, s ∈ p₁.states) ∧
      ∀ t ∈ ts, ∀ a, c.Below t a → c.Below a top → a ∈ p₁.states := by
  induction ts generalizing p with
  | nil => exact Option.some.inj h ▸ ⟨fun _ hs => hs, by simp⟩
  | cons t ts ih =>
    obtain ⟨p₂, hp₂, h⟩ := Option.bind_eq_some_iff.mp h
    have hmem (a : Nat) := Chart.mem_ancestorsBelow (a := a) wf (hts t (by simp))
    obtain ⟨hmono, hone⟩ := mem_of_addAncestors wf proper (fun a ha =>
      ⟨wf.ne_root_of_below ((hmem a).mp ha).2, wf.not_history_of_below ((hmem a).mp ha).1⟩) hp₂
    obtain ⟨hmono', hrest⟩ := ih (fun u hu => hts u (by simp [hu])) h
    refine ⟨fun s hs => hmono' s (hmono s hs), fun u hu a hua hat => ?_⟩
    rcases List.mem_cons.mp hu with rfl | hu
    · exact hmono' a (hone a ((hmem a).mpr ⟨hua, hat⟩))
    · exact hrest u hu a hua hat

end Ancestors

end EntryPlan

/-! ### Transitions that fall back on a default -/

/-- The transition leads to a history state of `q` alone, for which nothing is recorded, and whose
default names states to be entered. -/
structure FallsBack (c : Chart) (m : Memory) (t : Transition) (h q : Nat) (ts : List Nat)
    (actions : List ActionId) : Prop where
  declared : c.Declared t
  targets : t.targets = [h]
  parent : c.parent h = some q
  kind : ∃ depth, (c.node h).kind = .history depth (some ⟨ts, actions⟩)
  nonempty : ts ≠ []
  real : ∀ t ∈ ts, c.isHistory t = false
  unrecorded : m.get? h = none

namespace FallsBack

variable {c : Chart} {m : Memory} {x : Configuration} {t : Transition} {d e h k q s : Nat}
  {ts : List Nat} {actions : List ActionId} {plan p₁ : EntryPlan} {n : Nat}

section Default

variable (back : FallsBack c m t h q ts actions)
include back

theorem history : c.isHistory h = true := by
  obtain ⟨depth, hkind⟩ := back.kind
  simp [Chart.isHistory, Node.isHistory, hkind]

theorem leads_eq : c.leads m h q = ts := by
  obtain ⟨depth, hkind⟩ := back.kind
  obtain ⟨u, us, rfl⟩ := List.exists_cons_of_ne_nil back.nonempty
  simp [Chart.leads, back.unrecorded, hkind]

theorem below (wf : c.WellFormed) (he : e ∈ ts) : c.Below e q := by
  have hempty : c.leads m h q = c.leads Memory.empty h q :=
    Chart.leads_eq_of_get?_eq (by simp [back.unrecorded])
  refine (wf.leads_spec (Memory.sound_empty c) back.history back.parent).1 e ?_
  rwa [← hempty, back.leads_eq]

/-- The transition comes to the states that the default names. -/
theorem effectiveTargets_eq :
    c.effectiveTargets? m t = some (StateSet.ofList ts).toList := by
  have hsize : c.resolveSteps = c.size - 1 + 1 + 1 := by
    have := Chart.lt_size_of_parent back.parent
    unfold Chart.resolveSteps
    omega
  have hstops : c.stops m h = false := by
    obtain ⟨depth, hkind⟩ := back.kind
    obtain ⟨u, us, rfl⟩ := List.exists_cons_of_ne_nil back.nonempty
    simp [Chart.stops, back.unrecorded, hkind]
  have hself : ts.mapM (c.resolveTarget? m (c.size - 1 + 1)) = some (ts.map ([·])) := by
    rw [mapM_eq_some_iff, List.forall₂_map_right_iff]
    exact List.forall₂_same.mpr fun e he => Chart.resolveTarget?_of_not_history (back.real e he) _
  rw [Chart.effectiveTargets?, back.targets, hsize]
  simp [Chart.resolveTarget?_of_history back.history back.parent, hstops, back.leads_eq, hself,
    ← List.flatMap_def]

theorem exists_domain (wf : c.WellFormed) :
    ∃ d, c.domain? m t = some (some d) ∧ c.Encloses t (StateSet.ofList ts).toList d := by
  have hmem (e : Nat) (he : e ∈ (StateSet.ofList ts).toList) : e ∈ ts :=
    StateSet.mem_ofList.mp (StateSet.mem_toList.mp he)
  obtain ⟨u, us, hus⟩ := List.exists_cons_of_ne_nil back.nonempty
  have hne : (StateSet.ofList ts).toList ≠ [] := by
    have hu : u ∈ StateSet.ofList ts := StateSet.mem_ofList.mpr (by simp [hus])
    exact List.ne_nil_of_mem hu
  obtain ⟨d, hd, henc⟩ := Chart.exists_domainOf (t := t) back.declared.source
    (fun e he => wf.below_root_of_below (back.below wf (hmem e he))) hne
  exact ⟨d, Chart.domain?_eq_some_iff.mpr ⟨_, back.effectiveTargets_eq, hd⟩, henc⟩

end Default

section Plan

variable (wf : c.WellFormed) (proper : m.Proper c) (back : FallsBack c m t h q ts actions)
include wf proper back

/-- With the history state the states of its default are planned, and its actions are kept. -/
theorem addWithin_spec (hadd : EntryPlan.addWithin c m n h {} = some p₁) :
    (∀ e ∈ ts, e ∈ p₁.states) ∧ p₁.historyActions.get? q = some actions := by
  cases n with
  | zero => simp [EntryPlan.addWithin] at hadd
  | succ n =>
    rw [EntryPlan.addWithin_fallBack back.history back.parent, back.leads_eq] at hadd
    have hself (r : Nat) (hr : c.Below r q) : ¬c.Within q r := fun hqr =>
      Ancestry.not_below_self wf.upward q (hqr.trans_below wf.upward hr)
    have hspare := EntryPlan.spares_addTargets (q := q)
      (EntryPlan.sparesAway_addWithin wf proper n) wf (fun e he => ⟨back.below wf he, by
        rw [Chart.anchor_of_not_history (back.real e he)]
        exact hself e (back.below wf he)⟩) hself hadd
    constructor
    · obtain ⟨p₂, hp₂, hadd⟩ := Option.bind_eq_some_iff.mp hadd
      have hmem := (EntryPlan.addAll_of_real wf proper (fun e he =>
        ⟨wf.below_root_of_below (back.below wf he), back.real e he⟩) hp₂).2
      have hmono := (EntryPlan.mem_of_addAllAncestors wf proper (fun e he => back.below wf he) hadd).1
      exact fun e he => hmono e (hmem e he)
    · obtain ⟨depth, hkind⟩ := back.kind
      rw [hspare.actions, EntryPlan.fallBack, back.unrecorded, hkind]
      simp [EntryPlan.addHistoryActions, OrderedMap.get?_put]

/-- If all states of the default lie inside one child of the parent, so does all that is planned with
the history state. -/
theorem addWithin_inside_child (hk : c.parent k = some q) (hts : ∀ e ∈ ts, c.Within e k)
    (hadd : EntryPlan.addWithin c m n h {} = some p₁) : ∀ s ∈ p₁.states, c.Within s k := by
  cases n with
  | zero => simp [EntryPlan.addWithin] at hadd
  | succ n =>
    have closed : EntryPlan.Closed c (c.Within · k) :=
      fun _ _ hsa ha => (hsa.trans_within wf.upward ha).within
    have hdown (t : Nat) (ht : ∀ s, c.Under t s → c.Within s k) :
        EntryPlan.Inside c (c.Within · k) (EntryPlan.addWithin c m n t) :=
      EntryPlan.inside_addWithin wf proper closed n ht
    have hinside : EntryPlan.Inside c (c.Within · k)
        (EntryPlan.addTargets c (EntryPlan.addWithin c m n) q ts) := by
      refine (EntryPlan.inside_addAll hdown fun e he s hs => ?_).bind
        (EntryPlan.inside_addAllAncestors wf closed hdown (fun e he => back.below wf he)
          fun e he a hea haq => ?_)
      · exact ((Chart.under_of_not_history (back.real e he)).mp hs).trans wf.upward (hts e he)
      · -- Between a state of the default and the parent there are only states inside the child.
        rcases (hts e he).total wf.upward hea.within with hka | hak
        · rcases hka with rfl | hka
          · exact .refl c.parent k
          · have hqa := Ancestry.within_parent_of_below wf.upward hk hka
            exact absurd (haq.trans_within wf.upward hqa) (Ancestry.not_below_self wf.upward a)
        · exact hak
    rw [EntryPlan.addWithin_fallBack back.history back.parent, back.leads_eq] at hadd
    exact fun s hs => (hinside.grows hadd).scope s hs (by
      rw [EntryPlan.states_fallBack]
      exact StateSet.not_mem_empty s)

variable (hadd : EntryPlan.addTransition? c x m {} t = some plan)
  (hdomain : c.domain? m t = some (some d))
include hadd hdomain

omit proper in
/-- The way the plan is made: first the history state, then the ancestors of the states its default
names, and last the regions of a parallel root. -/
theorem exists_steps : ∃ p₁ p₂ : EntryPlan,
    EntryPlan.addWithin c m (EntryPlan.levels c) h {} = some p₁ ∧
    EntryPlan.addAllAncestors c (EntryPlan.addWithin c m (EntryPlan.levels c)) d
      (StateSet.ofList ts).toList p₁ = some p₂ ∧
    (if d = root then EntryPlan.completeRoot? c x m p₂ else some p₂) = some plan ∧
    c.Encloses t (StateSet.ofList ts).toList d := by
  obtain ⟨d', hd', henc⟩ := back.exists_domain wf
  obtain rfl : d = d' := Option.some.inj (Option.some.inj (hdomain.symm.trans hd'))
  obtain ⟨p₁, es, hp₁, hes, hrest⟩ := EntryPlan.addTransition?_eq_some_iff.mp hadd
  obtain rfl := Option.some.inj (back.effectiveTargets_eq.symm.trans hes)
  obtain ⟨es, hes', hdom⟩ := Chart.domain?_eq_some_iff.mp hdomain
  obtain rfl := Option.some.inj (hes.symm.trans hes')
  rw [back.targets] at hp₁
  obtain ⟨p₀, hp₀, hp₁⟩ := Option.bind_eq_some_iff.mp hp₁
  obtain rfl := Option.some.inj hp₁
  rcases hrest with ⟨hnone, -⟩ | ⟨d', p₂, hd', hp₂, hlast⟩
  · simp [hnone] at hdom
  · obtain rfl := Option.some.inj (hdom.symm.trans hd')
    exact ⟨p₀, p₂, hp₀, hp₂, hlast, henc⟩

/-- The rest of the plan leaves the actions as they are: it opens no region around the parent, as
the states of the default are planned already. -/
theorem historyActions_eq : plan.historyActions.get? q = some actions := by
  obtain ⟨p₁, p₂, hp₁, hp₂, hlast, henc⟩ := back.exists_steps wf hadd hdomain
  obtain ⟨hplanned, hactions⟩ := back.addWithin_spec wf proper hp₁
  obtain ⟨e, es, hes⟩ := List.exists_cons_of_ne_nil back.nonempty
  have he : e ∈ ts := by simp [hes]
  have hcov (r : Nat) (hr : c.Within q r) : p₁.covers c r = true :=
    EntryPlan.covers_iff.mpr ⟨e, hplanned e he,
      ((back.below wf he).trans_within wf.upward hr).within⟩
  have hspare := EntryPlan.spares_addAllAncestors (q := q)
    (EntryPlan.sparesAway_addWithin wf proper (EntryPlan.levels c)) wf henc.targets
    (fun r _ hr => hcov r hr) hp₂
  rw [← hactions, ← hspare.actions]
  split at hlast
  · exact (EntryPlan.spares_completeRoot wf proper
      (fun r _ hr => EntryPlan.covers_mono hspare.mono (hcov r hr)) hlast).actions
  · rw [Option.some.inj hlast]

/-- Inside a domain at or above the parent, the parent or a child of it is planned. -/
theorem exists_planned_of_within (hqd : c.Within q d) :
    ∃ s ∈ plan.states, (s = q ∨ c.parent s = some q) ∧ c.Below s d := by
  obtain ⟨p₁, p₂, hp₁, hp₂, hlast, henc⟩ := back.exists_steps wf hadd hdomain
  obtain ⟨hplanned, -⟩ := back.addWithin_spec wf proper hp₁
  obtain ⟨hmono, hmem⟩ := EntryPlan.mem_of_addAllAncestors wf proper henc.targets hp₂
  have hfinal (s : Nat) (hs : s ∈ p₂.states) : s ∈ plan.states := by
    split at hlast
    · have hall : EntryPlan.Closed c fun _ => True := fun _ _ _ _ => trivial
      exact ((EntryPlan.inside_completeRoot wf proper hall (fun _ _ => trivial) x).grows
        hlast).mono s hs
    · exact Option.some.inj hlast ▸ hs
  obtain ⟨e, es, hes⟩ := List.exists_cons_of_ne_nil back.nonempty
  have he : e ∈ ts := by simp [hes]
  have hset : e ∈ (StateSet.ofList ts).toList :=
    StateSet.mem_toList.mpr (StateSet.mem_ofList.mpr he)
  have heq := back.below wf he
  rcases hqd with rfl | hqd
  · obtain ⟨k, hk, hek⟩ := heq.exists_child wf.upward
    have hkq := below_of_parent wf.upward hk
    refine ⟨k, hfinal k ?_, .inr hk, hkq⟩
    rcases hek with rfl | hek
    · exact hmono e (hplanned e he)
    · exact hmem e hset k hek hkq
  · exact ⟨q, hfinal q (hmem e hset q heq hqd), .inl rfl, hqd⟩

/-- With a domain inside a child of the parent all that is planned lies inside that child. -/
theorem planned_within_child (hk : c.parent k = some q) (hdk : c.Within d k)
    (hs : s ∈ plan.states) : c.Within s k := by
  obtain ⟨p₁, p₂, hp₁, hp₂, hlast, henc⟩ := back.exists_steps wf hadd hdomain
  have hkq := below_of_parent wf.upward hk
  have hroot : d ≠ root := fun hd => by
    have hkd := (hdk.trans_below wf.upward hkq).lt wf.upward
    rw [hd] at hkd
    exact Nat.not_lt_zero q hkd
  rw [if_neg hroot] at hlast
  obtain rfl := Option.some.inj hlast
  have hts (e : Nat) (he : e ∈ ts) : c.Within e k :=
    ((henc.targets e (StateSet.mem_toList.mpr (StateSet.mem_ofList.mpr he))).trans_within
      wf.upward hdk).within
  have hfirst := back.addWithin_inside_child wf proper hk hts hp₁
  have hgrow := (EntryPlan.inside_addAllAncestors wf (EntryPlan.closed_below wf d)
    (fun t ht => EntryPlan.inside_addWithin wf proper (EntryPlan.closed_below wf d)
      (EntryPlan.levels c) ht) henc.targets fun _ _ a _ ha => ha).grows hp₂
  by_cases hs₁ : s ∈ p₁.states
  · exact hfirst s hs₁
  · exact ((hgrow.scope s hs hs₁).trans_within wf.upward hdk).within

end Plan

theorem of_memory {m' : Memory} (back : FallsBack c m t h q ts actions)
    (hm : m'.get? h = none) : FallsBack c m' t h q ts actions :=
  { back with unrecorded := hm }

/-- The domain is the same for every memory without a record. -/
theorem domain_eq {m' : Memory} (back : FallsBack c m t h q ts actions)
    (hm : m'.get? h = none) : c.domain? m' t = c.domain? m t := by
  simp only [Chart.domain?, back.effectiveTargets_eq, (back.of_memory hm).effectiveTargets_eq]

section Microstep

variable {m₀ : Memory} {script : Script} {exits : StateSet} {outside : Configuration}
  (wf : c.WellFormed) (hv : x.Valid c) (proper : m₀.Proper c) (hsource : t.source ∈ x)
  (made : Script.Made c x m₀ [t] script exits outside plan)
  (back : FallsBack c script.memory t h q ts actions)
include wf made back

/-- A record that is missing after the exits was missing before. -/
theorem get?_before : m₀.get? h = none := by
  have hnone := back.unrecorded
  rw [made.memory_eq, Chart.get?_recordHistory wf] at hnone
  split at hnone
  · simp at hnone
  · exact hnone

omit wf back in
theorem addTransition_eq : EntryPlan.addTransition? c outside script.memory {} t = some plan := by
  simpa [EntryPlan.ofTransitions?] using made.plan_eq

theorem domain_after (hd : c.domain? m₀ t = some (some d)) :
    c.domain? script.memory t = some (some d) :=
  (back.domain_eq (back.get?_before wf made)).symm.trans hd

include hv proper

omit back in
theorem proper_after : script.memory.Proper c :=
  made.memory_eq ▸ proper.recordHistory wf hv.real exits

include hsource

/-- The parent or a child of it is entered exactly if the domain does not lie inside the parent. -/
theorem exists_entered_iff (hd : c.domain? m₀ t = some (some d)) :
    (∃ s ∈ script.entered, s = q ∨ c.parent s = some q) ↔ ¬c.Below d q := by
  have hproper := proper_after wf hv proper made
  have hadd := addTransition_eq made
  have hdomain := back.domain_after wf made hd
  have hexits (i : Nat) : i ∈ exits ↔ i ∈ x ∧ c.Below i d := by
    rw [made.mem_exits]
    simp [hd]
  constructor
  · rintro ⟨s, hs, hsq⟩ hdq
    obtain ⟨hplanned, hout⟩ := (made.mem_entered s).mp hs
    obtain ⟨k, hk, hdk⟩ := hdq.exists_child wf.upward
    have hkq := below_of_parent wf.upward hk
    have hsk := back.planned_within_child wf hproper hadd hdomain hk hdk hplanned
    obtain rfl : s = k := by
      rcases hsq with rfl | hsq
      · exact absurd (hsk.trans_below wf.upward hkq) (Ancestry.not_below_self wf.upward s)
      · exact child_unique wf.upward hsq hk (.refl c.parent s) hsk
    -- The child encloses the domain, so it is active and is not exited.
    have hinner := (Chart.inner_of_domain back.declared.source hd).2
    have hactive := hv.attached.mem_of_within wf hsource (hinner.trans wf.upward hdk)
      (wf.ne_root_of_below hkq)
    refine hout ((made.mem_outside s).mpr ⟨hactive, fun hexit => ?_⟩)
    exact Ancestry.not_below_self wf.upward s
      (((hexits s).mp hexit).2.trans_within wf.upward hdk)
  · intro hdq
    obtain ⟨-, -, -, -, -, henc⟩ := back.exists_steps wf hadd hdomain
    obtain ⟨e, es, hes⟩ := List.exists_cons_of_ne_nil back.nonempty
    have he : e ∈ ts := by simp [hes]
    have hed := henc.targets e (StateSet.mem_toList.mpr (StateSet.mem_ofList.mpr he))
    have hqd : c.Within q d := by
      rcases (back.below wf he).within.total wf.upward hed.within with hqd | hdq'
      · exact hqd
      · rcases hdq' with rfl | hdq'
        · exact .refl c.parent d
        · exact absurd hdq' hdq
    obtain ⟨s, hplanned, hsq, hsd⟩ :=
      back.exists_planned_of_within wf hproper hadd hdomain hqd
    refine ⟨s, (made.mem_entered s).mpr ⟨hplanned, fun hout => ?_⟩, hsq⟩
    obtain ⟨hsx, hkept⟩ := (made.mem_outside s).mp hout
    exact hkept ((hexits s).mpr ⟨hsx, hsd⟩)

end Microstep

end FallsBack

/-! ### Running the actions -/

namespace Call

variable {called : List Call} {q : Nat}

/-- The action is run for a history default of the parent `q`. -/
def IsDefaultOf (q : Nat) (b : Call) : Prop := b.phase = .historyDefault ∧ b.state = q

instance (q : Nat) : DecidablePred (IsDefaultOf q) :=
  fun _ => inferInstanceAs (Decidable (_ ∧ _))

theorem filter_default_of_other (h : ∀ b ∈ called, b.phase ≠ .historyDefault) :
    called.filter (IsDefaultOf q) = [] :=
  List.filter_eq_nil_iff.mpr fun b hb => by simpa using fun hd => h b hb hd.1

end Call

namespace Arrival

variable {c : Chart} {byDefault : StateSet} {a : Arrival} {q s : Nat}

theorem filter_waitingCalls (a : Arrival) (q s : Nat) :
    (a.waitingCalls s).filter (Call.IsDefaultOf q) = if s = q then a.waitingCalls q else [] := by
  split
  · rename_i hs
    subst hs
    exact List.filter_eq_self.mpr fun b hb => decide_eq_true (Call.of_mem_all hb)
  · rename_i hs
    refine List.filter_eq_nil_iff.mpr fun b hb => ?_
    simpa using fun hd : Call.IsDefaultOf q b => hs ((Call.of_mem_all hb).2 ▸ hd.2)

/-- Of the history default actions of `q` those that wait are run on the entry of `q` itself or of a
child. -/
theorem filter_entryOf_default (up : Ancestry.Upward c.parent) (byDefault : StateSet) (a : Arrival)
    (q s : Nat) : (entryOf c byDefault a s).filter (Call.IsDefaultOf q) =
      if s = q ∨ c.parent s = some q then a.waitingCalls q else [] := by
  have hentry : (c.entryCalls s).filter (Call.IsDefaultOf q) = [] :=
    Call.filter_default_of_other fun b hb => by simp [(Call.of_mem_all hb).1]
  have hinitial : (if byDefault.contains s then c.initialCalls s else []).filter
      (Call.IsDefaultOf q) = [] :=
    Call.filter_default_of_other fun b hb => by simp [(phase_of_mem_initial hb).1]
  rw [entryOf, List.filter_append, List.filter_append, List.filter_append, hentry, hinitial,
    filter_waitingCalls, List.append_nil, List.append_nil, aboveCalls]
  cases hp : c.parent s with
  | none => simp
  | some p =>
    have hne : p ≠ s := (up s p hp).ne
    rw [Option.map_some, Option.getD_some, filter_waitingCalls]
    by_cases hs : s = q
    · have hpq : p ≠ q := fun he => hne (he.trans hs.symm)
      simp [hs, hpq]
    · simp [hs]

/-- Entering states runs the history default actions that wait under `q` once, if `q` or a child of it
is among the states that are not active yet. -/
theorem filter_foldl_enter (up : Ancestry.Upward c.parent) (byDefault : StateSet) (q : Nat)
    (ss : List Nat) (a : Arrival) :
    ∃ cmds, (ss.foldl (enter c byDefault) a).commands = a.commands ++ cmds ∧
      (Command.called cmds).filter (Call.IsDefaultOf q) =
        if ∃ s ∈ ss, s ∉ a.configuration ∧ (s = q ∨ c.parent s = some q) then a.waitingCalls q
        else [] := by
  induction ss generalizing a with
  | nil => exact ⟨[], by simp, by simp⟩
  | cons s ss ih =>
    rw [List.foldl_cons]
    by_cases hs : s ∈ a.configuration
    · rw [enter_of_mem hs]
      simpa [hs] using ih a
    · obtain ⟨hconf, -, -⟩ := enter_spec c byDefault a s hs
      obtain ⟨⟨cmds, hcmds, -, hcalled⟩, hwaiting⟩ := enter_called up byDefault a hs
      obtain ⟨rest, hrest, hfilter⟩ := ih (enter c byDefault a s)
      have hcall : Command.called (.occupy s :: cmds) = entryOf c byDefault a s := hcalled
      refine ⟨.occupy s :: cmds ++ rest, by simp [hrest, hcmds], ?_⟩
      rw [Command.called_append, List.filter_append, hcall, filter_entryOf_default up, hfilter, hconf]
      by_cases hsq : s = q ∨ c.parent s = some q
      · have hnone : (enter c byDefault a s).waitingCalls q = [] := by
          rw [waitingCalls, hwaiting, if_pos hsq]
          rfl
        simp [hs, hsq, hnone]
      · have hsame : (enter c byDefault a s).waitingCalls q = a.waitingCalls q := by
          rw [waitingCalls, hwaiting, if_neg hsq]
          rfl
        have hlater : (∃ s' ∈ ss, s' ∉ a.configuration.insert s ∧
            (s' = q ∨ c.parent s' = some q)) ↔
            ∃ s' ∈ s :: ss, s' ∉ a.configuration ∧ (s' = q ∨ c.parent s' = some q) := by
          constructor
          · rintro ⟨s', hs', hnew, hq⟩
            exact ⟨s', by simp [hs'], fun h => hnew (StateSet.mem_insert.mpr (.inr h)), hq⟩
          · rintro ⟨s', hs', hnew, hq⟩
            have hne : s' ≠ s := fun he => hsq (he ▸ hq)
            refine ⟨s', (List.mem_cons.mp hs').resolve_left hne, fun h => ?_, hq⟩
            exact (StateSet.mem_insert.mp h).elim hne hnew
        simp only [hsame, hlater, if_neg hsq, List.nil_append]

end Arrival

/-- Beside the entries nothing in a microstep runs history default actions. -/
theorem Script.Made.filter_called {c : Chart} {x outside : Configuration} {m : Memory}
    {ts : List Transition} {script : Script} {exits : StateSet} {plan : EntryPlan} {q : Nat}
    (up : Ancestry.Upward c.parent) (made : Made c x m ts script exits outside plan)
    (h : take? c x m ts = some script) :
    (Command.called script.commands).filter (Call.IsDefaultOf q) =
      if ∃ s ∈ script.entered, s = q ∨ c.parent s = some q then
        Call.all .historyDefault q ((plan.historyActions.get? q).getD [])
      else [] := by
  obtain ⟨hcommands, -, -⟩ := made.commands_eq h
  obtain ⟨cmds, hcmds, hfilter⟩ := Arrival.filter_foldl_enter up plan.byDefault q
    plan.states.toList { configuration := outside, waiting := plan.historyActions }
  have hcmds : (plan.arrive c outside).commands = cmds := by simpa [EntryPlan.arrive] using hcmds
  have hexits : (script.exited.flatMap c.exitCalls).filter (Call.IsDefaultOf q) = [] :=
    Call.filter_default_of_other fun b hb => by simp [Chart.phase_of_mem_exitCalls hb]
  have htransitions : (ts.flatMap Chart.transitionCalls).filter (Call.IsDefaultOf q) = [] :=
    Call.filter_default_of_other fun b hb => by simp [Chart.phase_of_mem_transitionCalls hb]
  have hentered : (∃ s ∈ plan.states.toList, s ∉ outside ∧ (s = q ∨ c.parent s = some q)) ↔
      ∃ s ∈ script.entered, s = q ∨ c.parent s = some q := by
    simp only [made.mem_entered, StateSet.mem_toList, and_assoc]
  rw [hcommands, hcmds, Command.called_append, Command.called_append, Chart.called_exits,
    Chart.called_transitions, List.filter_append, List.filter_append, hexits, htransitions,
    List.append_nil, List.nil_append, hfilter]
  simp only [hentered]
  rfl

namespace Engine

variable {σ : Type} {e : Engine σ} {s : Session σ}

/-- What becomes of the actions of a history default. When a transition of an active state leads to a
history state of `q` alone, for which nothing is recorded when it is entered, and its default names
states to be entered, then the microstep runs the actions of the default, in order and once, unless
the domain of the transition lies inside `q`. There they are not run at all: they wait until `q` or a
child of it is entered, and neither is. -/
theorem historyDefault_run_iff {d : ChartDecl} (hb : d.build = .ok e.chart)
    (hx : s.configuration.validate e.chart = .ok ()) (proper : s.memory.Proper e.chart)
    {u r h q : Nat} {ts : List Nat} {actions : List ActionId} {depth : HistoryDepth}
    (hu : u ∈ s.configuration) (hr : r ∈ (e.chart.node u).transitions)
    (htargets : (e.chart.transition r).targets = [h]) (hq : e.chart.parent h = some q)
    (hkind : (e.chart.node h).kind = .history depth (some ⟨ts, actions⟩)) (hne : ts ≠ [])
    (hreal : ∀ t ∈ ts, e.chart.isHistory t = false) (event : Option Event) :
    (e.chart.Grounded → ∃ s', e.microstep? s [r] event = some s') ∧
    ∀ script s', Script.take? e.chart s.configuration s.memory [e.chart.transition r] =
        some script → script.memory.get? h = none → e.microstep? s [r] event = some s' →
      ∃ a deeds, e.chart.domain? s.memory (e.chart.transition r) = some (some a) ∧
        s'.deeds = s.deeds ++ deeds ∧
        ((∃ i ∈ script.entered, i = q ∨ e.chart.parent i = some q) ↔ ¬e.chart.Below a q) ∧
        (¬e.chart.Below a q → (deeds.map (·.1)).filter (Call.IsDefaultOf q) =
          Call.all .historyDefault q actions) ∧
        (e.chart.Below a q → (deeds.map (·.1)).filter (Call.IsDefaultOf q) = []) := by
  have wf := ChartDecl.wellFormed_of_build hb
  have hv := (Configuration.validate_eq_ok_iff_of_mem wf hu).mp hx
  have declared := wf.declared hr
  refine ⟨fun g => ?_, fun script s' htake hnone hs' => ?_⟩
  · obtain ⟨script, hscript⟩ : ∃ script, Script.take? e.chart s.configuration s.memory
        [e.chart.transition r] = some script :=
      Script.exists_take? wf g hv.real proper (by simpa using declared)
    exact ⟨_, (microstep?_eq ..).trans (Option.map_eq_some_iff.mpr ⟨script, hscript, rfl⟩)⟩
  · obtain ⟨exits, outside, plan, made⟩ := Script.made_of_take? htake
    have back : FallsBack e.chart script.memory (e.chart.transition r) h q ts actions :=
      ⟨declared, htargets, hq, ⟨depth, hkind⟩, hne, hreal, hnone⟩
    have hsource : (e.chart.transition r).source ∈ s.configuration := (wf.source u r hr).2 ▸ hu
    obtain ⟨a, hd, -⟩ := (back.of_memory (back.get?_before wf made)).exists_domain wf
    have hentered := back.exists_entered_iff wf hv proper hsource made hd
    have hactions := back.historyActions_eq wf (FallsBack.proper_after wf hv proper made)
      (FallsBack.addTransition_eq made) (back.domain_after wf made hd)
    have hcalled := made.filter_called (q := q) wf.upward htake
    rw [hactions, Option.getD_some, ← map_fst_deeds s.configuration] at hcalled
    have hs' : s' = e.follow s script event := by
      rw [microstep?_eq] at hs'
      obtain ⟨script', htake', rfl⟩ := Option.map_eq_some_iff.mp hs'
      obtain rfl := Option.some.inj (htake.symm.trans htake')
      rfl
    refine ⟨a, _, hd, hs' ▸ e.deeds_follow s script event, hentered, fun ha => ?_, fun ha => ?_⟩
    · exact hcalled.trans (if_pos (hentered.mpr ha))
    · exact hcalled.trans (if_neg fun hin => hentered.mp hin ha)

end Engine

/-- A telephone that is to chime when it goes back to the line for the first time. -/
def telephone : ChartDecl where
  name := "Telephone"
  states := [((StateDecl.plain "on").withChild
    (((StateDecl.plain "line").withChild
      ((StateDecl.plain "silent").withTransition (.simple "call" "last"))).withChild
        (.plain "ringing"))).withChild
    (((StateDecl.history "last" .shallow).withInitial "ringing").withInitialAction "chime")]

namespace Engine

/-- It rings without a chime: the line stays active, and nothing is entered but the state inside. -/
theorem telephone_not_run : telephone.build = .ok telephone.chart ∧ telephone.chart.Grounded ∧
    ∃ (s s' : Session Unit) (script : Script) (deeds : List (Call × Configuration)),
      s.configuration.validate telephone.chart = .ok () ∧ s.memory.Proper telephone.chart ∧
      3 ∈ s.configuration ∧ 0 ∈ (telephone.chart.node 3).transitions ∧
      (telephone.chart.transition 0).targets = [5] ∧ telephone.chart.parent 5 = some 1 ∧
      (telephone.chart.node 5).kind = .history .shallow (some ⟨[4], ["chime"]⟩) ∧
      telephone.chart.isHistory 4 = false ∧
      Script.take? telephone.chart s.configuration s.memory [telephone.chart.transition 0] =
        some script ∧
      script.memory.get? 5 = none ∧
      (bare telephone.chart).microstep? s [0] (some (.external "call")) = some s' ∧
      s'.configuration.toList = [1, 2, 4] ∧ s'.deeds = s.deeds ++ deeds ∧
      (deeds.map (·.1)).filter (Call.IsDefaultOf 1) = [] := by
  let e := bare telephone.chart
  have hb : telephone.build = .ok e.chart := ChartDecl.build_eq_chart (by decide +kernel)
  have g : e.chart.Grounded := Chart.grounded_of_leads (by decide +kernel)
  let s : Session Unit :=
    { host := (), status := .awaitingExternal, configuration := StateSet.ofList [1, 2, 3] }
  have hx : s.configuration.validate e.chart = .ok () := by decide +kernel
  have proper : s.memory.Proper e.chart := (Memory.sound_empty _).proper
  have hu : 3 ∈ s.configuration := by decide
  have hr : 0 ∈ (e.chart.node 3).transitions := by decide +kernel
  have htargets : (e.chart.transition 0).targets = [5] := by decide +kernel
  have hq : e.chart.parent 5 = some 1 := by decide +kernel
  have hkind : (e.chart.node 5).kind = .history .shallow (some ⟨[4], ["chime"]⟩) := by decide +kernel
  have hreal : e.chart.isHistory 4 = false := by decide +kernel
  obtain ⟨htaken, hall⟩ := historyDefault_run_iff hb hx proper hu hr htargets hq hkind (by simp)
    (by simpa using hreal) (some (.external "call"))
  obtain ⟨s', hs'⟩ := htaken g
  obtain ⟨script, htake, hfollow⟩ := Option.map_eq_some_iff.mp ((microstep?_eq ..).symm.trans hs')
  have hmemory : (Script.take? e.chart s.configuration s.memory [e.chart.transition 0]).map
      (fun script => (script.memory.get? 5, (Command.applyAll s.configuration
        script.commands).toList)) = some (none, [1, 2, 4]) := by decide +kernel
  have htake : Script.take? e.chart s.configuration s.memory [e.chart.transition 0] =
      some script := htake
  rw [htake, Option.map_some, Option.some.injEq, Prod.mk.injEq] at hmemory
  obtain ⟨a, deeds, hdomain, hdeeds, -, -, hinside⟩ := hall script s' htake hmemory.1 hs'
  have hline : e.chart.domain? s.memory (e.chart.transition 0) = some (some 2) := by decide +kernel
  obtain rfl : 2 = a := Option.some.inj (Option.some.inj (hline.symm.trans hdomain))
  refine ⟨hb, g, s, s', script, deeds, hx, proper, hu, hr, htargets, hq, hkind, hreal, htake,
    hmemory.1, hs', ?_, hdeeds, hinside (Ancestry.isDescendant_iff.mp (by decide +kernel))⟩
  rw [← hfollow, (e.followed_follow _ s script).configuration]
  exact hmemory.2

end Engine

end Statechart

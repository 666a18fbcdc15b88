import Statechart.Proofs.Domain
import Statechart.Proofs.EntryAgreement
import Statechart.Proofs.EntryTermination
import Statechart.Microstep

/-!
The plan of a microstep. Every target of a transition is reached, and the gap between what the
targets come to and the domain is closed, so a planned state without a planned parent has a domain
or something above one for its parent. Inside unrelated domains the plans do not conflict.
-/
namespace Statechart.EntryPlan

open Ancestry (below_of_parent)
open Chart (root)

variable {c : Chart} {m : Memory} {x : Configuration} {p p₁ p₂ : EntryPlan} {d e k n q r s t u : Nat}
  {rs ts : List Nat} {tr : Transition} {trs : List Transition}
  {down : Nat → EntryPlan → Option EntryPlan}

theorem exists_step_of_addAll (hdown : Enters c down) (hts : ∀ t ∈ ts, c.Below t root)
    (h : addAll down ts p = some p₂) (hu : u ∈ ts) :
    ∃ p₀ p₁, down u p₀ = some p₁ ∧ ∀ s ∈ p₁.states, s ∈ p₂.states := by
  induction ts generalizing p with
  | nil => simp at hu
  | cons t ts ih =>
    obtain ⟨p₁, hp₁, hrest⟩ := Option.bind_eq_some_iff.mp h
    have hts' : ∀ t ∈ ts, c.Below t root := fun u hu => hts u (by simp [hu])
    rcases List.mem_cons.mp hu with rfl | hu
    · exact ⟨p, p₁, hp₁, (extends_addAll hdown hts' hrest).1.mono⟩
    · exact ih hts' hrest hu

/-- Whatever a target resolves to is reached with the target. -/
theorem reached_of_resolved (wf : c.WellFormed) (filled : m.Filled c) (hroot : c.Below t root)
    (hres : c.resolveTarget? m k t = some rs) (h : addWithin c m n t p = some p₂) :
    ∀ r ∈ rs, p₂.Reached c r := by
  induction k generalizing t n p p₂ rs with
  | zero => simp [Chart.resolveTarget?] at hres
  | succ k ih =>
    cases hh : c.isHistory t with
    | false =>
      rw [Chart.resolveTarget?_of_not_history hh] at hres
      obtain rfl := Option.some.inj hres
      simpa using (enters_addWithin wf filled n t p p₂ hroot h).2
    | true =>
      obtain ⟨q, hq⟩ := wf.exists_parent hroot
      cases n with
      | zero => simp [addWithin] at h
      | succ n =>
        obtain ⟨p', -, he⟩ := addWithin_of_history (m := m) hh hq n p
        rw [he] at h
        have hbelow := wf.leads_below filled.proper hh hq
        have hdown := enters_addWithin wf filled n
        have hreach := (extends_addTargets wf hdown hbelow h).2
        rw [Chart.resolveTarget?_of_history hh hq] at hres
        split at hres
        · obtain rfl := Option.some.inj hres
          exact hreach
        · intro r hr
          obtain ⟨u, hu, rs, hus, hr⟩ := (mem_collected hres).mp hr
          obtain ⟨p₁, hp₁, hrest⟩ := Option.bind_eq_some_iff.mp h
          have hroots : ∀ u ∈ c.leads m t q, c.Below u root :=
            fun u hu => wf.below_root_of_below (hbelow u hu)
          obtain ⟨p₃, p₄, hp₄, hmono⟩ := exists_step_of_addAll hdown hroots hp₁ hu
          have hall := (extends_addAll hdown hroots hp₁).2
          have hext := (extends_addAllAncestors wf hdown
            (fun u hu => ⟨hbelow u hu, hall u hu⟩) hrest).1
          exact (ih (hroots u hu) hus hp₄ r hr).mono fun s hs => hext.mono s (hmono s hs)

/-! ### A parallel root -/

section Root

variable (wf : c.WellFormed)
include wf

theorem extends_completeRoot (filled : m.Filled c) (h : completeRoot? c x m p = some p₂) :
    Extends c (c.Below · root) (· = root) p p₂ ∧
      ((c.node root).isParallel = true → ∀ r ∈ c.regions root,
        r ∈ x ∨ ∃ u ∈ p₂.states, c.Within u r) := by
  have hgo (rs : List Nat) (hrs : ∀ r ∈ rs, r ∈ c.regions root) (p : EntryPlan)
      (h : completeRoot?.go c x m rs p = some p₂) :
      Extends c (c.Below · root) (· = root) p p₂ ∧
        ∀ r ∈ rs, r ∈ x ∨ ∃ u ∈ p₂.states, c.Within u r := by
    induction rs generalizing p with
    | nil =>
      obtain rfl := Option.some.inj h
      exact ⟨.refl c _ _ p, by simp⟩
    | cons r rs ih =>
      have ih := ih (fun r' hr' => hrs r' (by simp [hr']))
      rw [completeRoot?.go] at h
      split at h
      · rename_i hcov
        obtain ⟨hext, hall⟩ := ih p h
        refine ⟨hext, List.forall_mem_cons.mpr ⟨?_, hall⟩⟩
        rcases Bool.or_eq_true_iff.mp hcov with hcov | hx
        · obtain ⟨u, hu, hur⟩ := covers_iff.mp hcov
          exact .inr ⟨u, hext.mono u hu, hur⟩
        · exact .inl (StateSet.contains_iff.mp hx)
      · obtain ⟨p₁, hp₁, h⟩ := Option.bind_eq_some_iff.mp h
        obtain ⟨hadd, hmem⟩ :=
          extends_region wf (enters_addWithin wf filled (levels c)) (hrs r (by simp)) hp₁
        have hr := below_of_parent wf.upward (wf.mem_regions.mp (hrs r (by simp))).1
        obtain ⟨hext, hall⟩ := ih p₁ h
        refine ⟨(hadd.imp (fun s hs => hs.trans_below wf.upward hr)
          (fun _ _ _ _ hq => .inr hq)).trans hext, List.forall_mem_cons.mpr ⟨?_, hall⟩⟩
        exact .inr ⟨r, hext.mono r hmem, .refl c.parent r⟩
  unfold completeRoot? at h
  split at h
  · obtain ⟨hext, hall⟩ := hgo _ (fun _ hr => hr) p h
    exact ⟨hext, fun _ => hall⟩
  · rename_i hpar
    obtain rfl := Option.some.inj h
    exact ⟨.refl c _ _ p, fun hp => absurd hp hpar⟩

theorem compatible_completeRoot (sep : c.Separate) (sound : m.Sound c)
    (hroot : ∀ b ∈ p.states, c.Below b root) (hp : c.Compatible p.states)
    (h : completeRoot? c x m p = some p₂) : c.Compatible p₂.states := by
  have hgo (hpar : (c.node root).isParallel = true) (rs : List Nat)
      (hrs : ∀ r ∈ rs, r ∈ c.regions root) (p : EntryPlan) (hp : c.Compatible p.states)
      (hagree : ∀ b ∈ p.states, c.Agree root b) (h : completeRoot?.go c x m rs p = some p₂) :
      c.Compatible p₂.states := by
    induction rs generalizing p with
    | nil =>
      obtain rfl := Option.some.inj h
      exact hp
    | cons r rs ih =>
      have ih := ih (fun r' hr' => hrs r' (by simp [hr']))
      rw [completeRoot?.go] at h
      split at h
      · exact ih p hp hagree h
      · rename_i hcov
        obtain ⟨p₁, hp₁, h⟩ := Option.bind_eq_some_iff.mp h
        obtain ⟨hcomp, hall⟩ := compatible_region wf (enters_addWithin wf sound.filled (levels c))
          (harmonizes_addWithin wf sep sound (levels c)) (hrs r (by simp)) hpar hp hagree
          (fun hc => hcov (by simp [hc])) hp₁
        exact ih p₁ hcomp hall h
  unfold completeRoot? at h
  split at h
  · rename_i hpar
    exact hgo hpar _ (fun _ hr => hr) p hp
      (fun b hb => Chart.agree_of_within wf.upward (hroot b hb).within) h
  · obtain rfl := Option.some.inj h
    exact hp

theorem exists_completeRoot (proper : m.Proper c) (g : c.Grounded) (x : Configuration)
    (p : EntryPlan) : ∃ p', completeRoot? c x m p = some p' := by
  have hgo (rs : List Nat) (hrs : ∀ r ∈ rs, r ∈ c.regions root) (p : EntryPlan) :
      ∃ p', completeRoot?.go c x m rs p = some p' := by
    induction rs generalizing p with
    | nil => exact ⟨p, rfl⟩
    | cons r rs ih =>
      have ih := ih (fun r' hr' => hrs r' (by simp [hr']))
      rw [completeRoot?.go]
      split
      · exact ih p
      · have hr := below_of_parent wf.upward (wf.mem_regions.mp (hrs r (by simp))).1
        obtain ⟨p₁, hp₁⟩ := enterable_add? wf proper g hr p
        obtain ⟨p₂, hp₂⟩ := ih p₁
        exact ⟨p₂, by simp only at hp₁; simp [hp₁, hp₂]⟩
  unfold completeRoot?
  split
  · exact hgo _ (fun _ hr => hr) p
  · exact ⟨p, rfl⟩

end Root

/-! ### One transition -/

theorem addTransition?_eq_some_iff : addTransition? c x m p tr = some p₂ ↔
    ∃ p₁ es, addAll (addWithin c m (levels c)) tr.targets p = some p₁ ∧
      c.effectiveTargets? m tr = some es ∧
      (c.domainOf tr es = none ∧ p₁ = p₂ ∨
        ∃ d p₃, c.domainOf tr es = some d ∧
          addAllAncestors c (addWithin c m (levels c)) d es p₁ = some p₃ ∧
          (if d = root then completeRoot? c x m p₃ else some p₃) = some p₂) := by
  unfold addTransition?
  simp only [Option.bind_eq_bind, Option.bind_eq_some_iff]
  constructor
  · rintro ⟨p₁, hp₁, es, hes, h⟩
    refine ⟨p₁, es, hp₁, hes, ?_⟩
    cases hd : c.domainOf tr es with
    | none =>
      simp only [hd, Option.some.injEq] at h
      exact .inl ⟨rfl, h⟩
    | some d =>
      simp only [hd, Option.bind_eq_some_iff] at h
      obtain ⟨p₃, hp₃, h⟩ := h
      exact .inr ⟨d, p₃, rfl, hp₃, h⟩
  · rintro ⟨p₁, es, hp₁, hes, h⟩
    refine ⟨p₁, hp₁, es, hes, ?_⟩
    rcases h with ⟨hd, rfl⟩ | ⟨d, p₃, hd, hp₃, h⟩
    · simp [hd]
    · simp only [hd, Option.bind_eq_some_iff]
      exact ⟨p₃, hp₃, h⟩

/-- What the entry of a transition may make active. -/
def Opens (c : Chart) (m : Memory) (t : Transition) (s : Nat) : Prop :=
  (∃ u ∈ t.targets, c.Under u s) ∨ ∃ d, c.domain? m t = some (some d) ∧ c.Below s d

/-- Where the entry of a transition may stop. -/
def Bounds (c : Chart) (m : Memory) (t : Transition) (q : Nat) : Prop :=
  ∃ d, c.domain? m t = some (some d) ∧ c.Within d q

/-- What a transition asks for is planned. -/
structure Takes (c : Chart) (x : Configuration) (m : Memory) (t : Transition) (p : EntryPlan) :
    Prop where
  targets : ∀ u ∈ t.targets, p.Reached c u
  resolved : ∃ es, c.effectiveTargets? m t = some es ∧ ∀ e ∈ es, p.Reached c e
  regions : c.domain? m t = some (some root) → (c.node root).isParallel = true →
    ∀ r ∈ c.regions root, r ∈ x ∨ ∃ u ∈ p.states, c.Within u r

theorem Takes.mono (h : Takes c x m tr p) (hp : ∀ s ∈ p.states, s ∈ p₁.states) :
    Takes c x m tr p₁ where
  targets u hu := (h.targets u hu).mono hp
  resolved := h.resolved.imp fun _ hes => ⟨hes.1, fun e he => (hes.2 e he).mono hp⟩
  regions hd hpar r hr := (h.regions hd hpar r hr).imp_right fun ⟨u, hu, hur⟩ => ⟨u, hp u hu, hur⟩

section Transition

variable (wf : c.WellFormed) (filled : m.Filled c) (ht : c.Declared tr)
include wf filled ht

theorem exists_domain_of_target (h : addTransition? c x m p tr = some p₂) (hu : u ∈ tr.targets) :
    ∃ d, c.domain? m tr = some (some d) := by
  obtain ⟨-, es, -, hes, -⟩ := addTransition?_eq_some_iff.mp h
  exact Chart.exists_domain_of_target wf filled ht hes hu

omit filled in
theorem below_root_of_opens (h : Opens c m tr s) : c.Below s root := by
  rcases h with ⟨u, hu, hus⟩ | ⟨d, -, hsd⟩
  · exact wf.below_of_under (ht.targets u hu) hus
  · exact wf.below_root_of_below hsd

/-- Whatever the targets come to is reached with them. -/
theorem reached_of_effective {es : List Nat} (h : addAll (addWithin c m (levels c)) tr.targets p =
    some p₂) (hes : c.effectiveTargets? m tr = some es) : ∀ e ∈ es, p₂.Reached c e := by
  intro e he
  obtain ⟨u, hu, rs, hrs, her⟩ := (Chart.mem_effectiveTargets hes).mp he
  obtain ⟨p₃, p₄, hp₄, hmono⟩ :=
    exists_step_of_addAll (enters_addWithin wf filled (levels c)) ht.targets h hu
  exact (reached_of_resolved wf filled (ht.targets u hu) hrs hp₄ e her).mono hmono

omit ht in
/-- A domain that is a parallel root is completed by the regions not planned yet. -/
theorem extends_domain (h : (if d = root then completeRoot? c x m p else some p) = some p₂) :
    Extends c (c.Below · d) (c.Within d) p p₂ ∧ (d = root → (c.node root).isParallel = true →
      ∀ r ∈ c.regions root, r ∈ x ∨ ∃ u ∈ p₂.states, c.Within u r) := by
  split at h
  · rename_i hroot
    subst hroot
    obtain ⟨hcomp, hregs⟩ := extends_completeRoot wf filled h
    refine ⟨hcomp.imp (fun _ hs => hs) (fun _ q _ _ hq => .inr ?_), fun _ => hregs⟩
    exact hq ▸ .refl c.parent root
  · rename_i hne
    obtain rfl := Option.some.inj h
    exact ⟨.refl c _ _ _, fun hroot => absurd hroot hne⟩

/-- Between a target's anchor and the domain everything is planned. -/
theorem planned_or_within_domain {es : List Nat} (hes : c.effectiveTargets? m tr = some es)
    (henc : ∀ e ∈ es, c.Below e d)
    (hanc : ∀ e ∈ es, ∀ a, c.Below e a → c.Below a d → a ∈ p.states)
    (hu : u ∈ tr.targets) (hreach : p.Reached c u) (hq : c.Within (c.anchor u) q) :
    q ∈ p.states ∨ c.Within d q := by
  have close (e : Nat) (he : e ∈ es) (heq : c.Below e q) : q ∈ p.states ∨ c.Within d q :=
    planned_or_within wf (henc e he) (hanc e he) heq
  cases hh : c.isHistory u with
  | false =>
    rw [Chart.anchor_of_not_history hh] at hq
    rcases hq with rfl | hq
    · exact .inl (hreach.self hh)
    · exact close u (Chart.mem_effective_of_not_history hes hu hh) hq
  | true =>
    obtain ⟨o, ho⟩ := wf.exists_parent (ht.targets u hu)
    obtain ⟨e, he, hue⟩ := Chart.exists_under_of_target wf ht hes filled hu
    rw [Chart.anchor_of_history hh ho] at hq
    exact close e he (((Chart.under_of_history hh ho).mp hue).trans_within wf.upward hq)

theorem extends_addTransition (h : addTransition? c x m p tr = some p₂) :
    Extends c (Opens c m tr) (Bounds c m tr) p p₂ ∧ Takes c x m tr p₂ := by
  obtain ⟨p₁, es, hp₁, hes, hcase⟩ := addTransition?_eq_some_iff.mp h
  have hdown := enters_addWithin wf filled (levels c)
  obtain ⟨hadd, hreach⟩ := extends_addAll hdown ht.targets hp₁
  have hres := reached_of_effective wf filled ht hp₁ hes
  have hdom (o : Option Nat) (ho : c.domainOf tr es = o) : c.domain? m tr = some o :=
    Chart.domain?_eq_some_iff.mpr ⟨es, hes, ho⟩
  rcases hcase with ⟨hnone, rfl⟩ | ⟨d, p₃, hd, hp₃, h⟩
  · -- Without a domain there are no targets.
    have hnil := Chart.targets_eq_nil_of_domain wf filled ht (hdom none hnone)
    rw [hnil] at hadd
    refine ⟨hadd.imp (by simp) (by simp), hreach, ⟨es, hes, hres⟩, ?_⟩
    intro hroot
    simp [hdom none hnone] at hroot
  · obtain ⟨es', hes', -, henc⟩ := Chart.exists_encloses wf filled.proper ht (hdom _ hd)
    obtain rfl := Option.some.inj (hes'.symm.trans hes)
    obtain ⟨hext, hall⟩ := extends_addAllAncestors wf hdown
      (fun e he => ⟨henc.targets e he, hres e he⟩) hp₃
    obtain ⟨hlast, hregs⟩ := extends_domain wf filled h
    have hrest := hext.trans hlast
    have hclosed (u : Nat) (hu : u ∈ tr.targets) (q : Nat) (hq : c.Within (c.anchor u) q) :
        q ∈ p₂.states ∨ c.Within d q :=
      planned_or_within_domain wf filled ht hes henc.targets
        (fun e he a hea had => hlast.mono a (hall e he a hea had)) hu
        ((hreach u hu).mono hrest.mono) hq
    constructor
    · refine (hadd.imp (fun s hs => .inl hs) (fun s q _ _ hq => ?_)).through
        (hrest.imp (fun s hs => .inr ⟨d, hdom _ hd, hs⟩)
          fun _ q _ _ hq => .inr ⟨d, hdom _ hd, hq⟩)
      obtain ⟨u, hu, huq⟩ := hq
      exact .inr ((hclosed u hu q huq).imp_right fun hdq => ⟨d, hdom _ hd, hdq⟩)
    · refine ⟨fun u hu => (hreach u hu).mono hrest.mono, ?_, ?_⟩
      · exact ⟨es', hes, fun e he => (hres e he).mono hrest.mono⟩
      · intro hroot
        have := Option.some.inj ((hdom _ hd).symm.trans hroot)
        exact hregs (Option.some.inj this)

omit filled in
/-- A transition can be entered when no chain of history defaults leads back to itself. -/
theorem exists_addTransition (proper : m.Proper c) (g : c.Grounded) (x : Configuration)
    (p : EntryPlan) : ∃ p', addTransition? c x m p tr = some p' := by
  have henter (u : Nat) (hu : c.Below u root) : Enterable (addWithin c m (levels c)) u :=
    enterable_add? wf proper g hu
  obtain ⟨p₁, hp₁⟩ := exists_addAll (fun u hu => henter u (ht.targets u hu)) p
  obtain ⟨es, hes⟩ := Chart.exists_effectiveTargets? wf g ht
  cases hd : c.domainOf tr es with
  | none => exact ⟨p₁, addTransition?_eq_some_iff.mpr ⟨p₁, es, hp₁, hes, .inl ⟨hd, rfl⟩⟩⟩
  | some d =>
    obtain ⟨es', hes', -, henc⟩ := Chart.exists_encloses wf proper ht
      (Chart.domain?_eq_some_iff.mpr ⟨es, hes, hd⟩)
    obtain rfl := Option.some.inj (hes'.symm.trans hes)
    obtain ⟨p₃, hp₃⟩ := exists_addAllAncestors wf henc.targets
      (fun r _ hr => henter r (wf.below_root_of_below hr)) p₁
    obtain ⟨p₄, hp₄⟩ : ∃ p₄, (if d = root then completeRoot? c x m p₃ else some p₃) = some p₄ := by
      split
      · exact exists_completeRoot wf proper g x p₃
      · exact ⟨p₃, rfl⟩
    exact ⟨p₄, addTransition?_eq_some_iff.mpr
      ⟨p₁, es', hp₁, hes, .inr ⟨d, p₃, hd, hp₃, hp₄⟩⟩⟩

end Transition

/-- Targets that fit into the plan cause no conflict. -/
theorem compatible_addTransition (wf : c.WellFormed) (sound : m.Sound c) (ht : c.Declared tr)
    (sep : c.Separate) (hlone : c.Lone tr.targets) (hfits : ∀ u ∈ tr.targets, p.Fits c u)
    (hroot : ∀ b ∈ p.states, c.Below b root) (hp : c.Compatible p.states)
    (h : addTransition? c x m p tr = some p₂) : c.Compatible p₂.states := by
  have hgrow := (extends_addTransition wf sound.filled ht h).1
  obtain ⟨p₁, es, hp₁, hes, hcase⟩ := addTransition?_eq_some_iff.mp h
  have hdown := enters_addWithin wf sound.filled (levels c)
  have harm := harmonizes_addWithin wf sep sound (levels c)
  rcases hcase with ⟨hnone, rfl⟩ | ⟨d, p₃, hd, hp₃, h⟩
  · have hnil := Chart.targets_eq_nil_of_domain wf sound.filled ht
      (Chart.domain?_eq_some_iff.mpr ⟨es, hes, hnone⟩)
    rw [hnil] at hp₁
    exact Option.some.inj hp₁ ▸ hp
  · have hdom := Chart.domain?_eq_some_iff.mpr ⟨es, hes, hd⟩
    obtain ⟨es', hes', -, henc⟩ := Chart.exists_encloses wf sound.proper ht hdom
    obtain rfl := Option.some.inj (hes'.symm.trans hes)
    have hres := reached_of_effective wf sound.filled ht hp₁ hes
    have hall := compatible_addAll wf hdown harm ht.targets
      (wf.pairwise_apart_anchors ht.apart ht.targets hlone) hp hfits hp₁
    have hanc := compatible_addAllAncestors wf hdown harm
      (fun e he => ⟨henc.targets e he, hres e he⟩) hall hp₃
    split at h
    · refine compatible_completeRoot wf sep sound (fun b hb => ?_) hanc h
      by_cases hbp : b ∈ p.states
      · exact hroot b hbp
      · have hb₂ := (extends_completeRoot wf sound.filled h).1.mono b hb
        exact below_root_of_opens wf ht (hgrow.scope b hb₂ hbp)
    · exact Option.some.inj h ▸ hanc

/-! ### All transitions of a microstep -/

section Transitions

variable (wf : c.WellFormed) (filled : m.Filled c)
include wf filled

theorem extends_foldlM (hts : ∀ t ∈ trs, c.Declared t)
    (h : trs.foldlM (addTransition? c x m) p = some p₂) :
    Extends c (fun s => ∃ t ∈ trs, Opens c m t s) (fun q => ∃ t ∈ trs, Bounds c m t q) p p₂ ∧
      ∀ t ∈ trs, Takes c x m t p₂ := by
  induction trs generalizing p with
  | nil =>
    obtain rfl := Option.some.inj h
    exact ⟨.refl c _ _ p, by simp⟩
  | cons t trs ih =>
    obtain ⟨p₁, hp₁, hrest⟩ := Option.bind_eq_some_iff.mp h
    obtain ⟨hadd, htakes⟩ := extends_addTransition wf filled (hts t (by simp)) hp₁
    obtain ⟨hext, hall⟩ := ih (fun u hu => hts u (by simp [hu])) hrest
    have hone : Extends c (fun s => ∃ u ∈ t :: trs, Opens c m u s)
        (fun q => ∃ u ∈ t :: trs, Bounds c m u q) p p₁ :=
      hadd.imp (fun s hs => ⟨t, by simp, hs⟩) (fun _ q _ _ hq => .inr ⟨t, by simp, hq⟩)
    refine ⟨hone.trans (hext.imp (fun s hs => ?_) fun _ q _ _ hq => .inr ?_),
      List.forall_mem_cons.mpr ⟨htakes.mono hext.mono, hall⟩⟩
    · obtain ⟨u, hu, hus⟩ := hs
      exact ⟨u, by simp [hu], hus⟩
    · obtain ⟨u, hu, huq⟩ := hq
      exact ⟨u, by simp [hu], huq⟩

omit filled in
theorem exists_foldlM (proper : m.Proper c) (g : c.Grounded) (hts : ∀ t ∈ trs, c.Declared t)
    (x : Configuration) (p : EntryPlan) : ∃ p', trs.foldlM (addTransition? c x m) p = some p' := by
  induction trs generalizing p with
  | nil => exact ⟨p, rfl⟩
  | cons t trs ih =>
    obtain ⟨p₁, hp₁⟩ := exists_addTransition wf (hts t (by simp)) proper g x p
    obtain ⟨p₂, hp₂⟩ := ih (fun u hu => hts u (by simp [hu])) p₁
    exact ⟨p₂, by simp [hp₁, hp₂]⟩

end Transitions

/-- Transitions with targets apart, inside domains apart, cause no conflict together. -/
theorem compatible_foldlM (wf : c.WellFormed) (sound : m.Sound c) (sep : c.Separate)
    (hts : ∀ t ∈ trs, c.Declared t ∧ c.Lone t.targets ∧
      ∀ d, c.domain? m t = some (some d) → ∀ u ∈ t.targets, c.Below u d)
    (hapart : trs.Pairwise fun t u => ∀ d e, c.domain? m t = some (some d) →
      c.domain? m u = some (some e) → c.Apart d e)
    (hroot : ∀ b ∈ p.states, c.Below b root) (hp : c.Compatible p.states)
    (hclear : ∀ t ∈ trs, ∀ d, c.domain? m t = some (some d) → p.Clear c d)
    (h : trs.foldlM (addTransition? c x m) p = some p₂) : c.Compatible p₂.states := by
  induction trs generalizing p with
  | nil =>
    obtain rfl := Option.some.inj h
    exact hp
  | cons t trs ih =>
    obtain ⟨p₁, hp₁, hrest⟩ := Option.bind_eq_some_iff.mp h
    obtain ⟨hdecl, hlone, hbelow⟩ := hts t (by simp)
    obtain ⟨hfirst, hpair⟩ := List.pairwise_cons.mp hapart
    have hgrow := (extends_addTransition wf sound.filled hdecl hp₁).1
    have hfits : ∀ u ∈ t.targets, p.Fits c u := by
      intro u hu
      obtain ⟨d, hd⟩ := exists_domain_of_target wf sound.filled hdecl hp₁ hu
      exact (hclear t (by simp) d hd).fits wf (hbelow d hd u hu)
    have hcomp := compatible_addTransition wf sound hdecl sep hlone hfits hroot hp hp₁
    have hroot₁ : ∀ b ∈ p₁.states, c.Below b root := by
      intro b hb
      by_cases hbp : b ∈ p.states
      · exact hroot b hbp
      · exact below_root_of_opens wf hdecl (hgrow.scope b hb hbp)
    refine ih (fun u hu => hts u (by simp [hu])) hpair hroot₁ hcomp (fun u hu e he b hb => ?_) hrest
    by_cases hbp : b ∈ p.states
    · exact hclear u (by simp [hu]) e he b hbp
    · -- What the first transition adds lies inside its own domain.
      obtain ⟨d, hd, hbd⟩ : ∃ d, c.domain? m t = some (some d) ∧ c.Below b d := by
        rcases hgrow.scope b hb hbp with ⟨v, hv, hvb⟩ | hopen
        · obtain ⟨d, hd⟩ := exists_domain_of_target wf sound.filled hdecl hp₁ hv
          exact ⟨d, hd, wf.below_of_under (hbelow d hd v hv) hvb⟩
        · exact hopen
      have hde := hfirst u hu d e hd he
      refine ⟨fun hbe => ?_, (hde.agree.inside wf.upward hbd.within hde.not_within').symm⟩
      exact (hbd.within.total wf.upward hbe.within).elim hde.not_within hde.not_within'

end Statechart.EntryPlan

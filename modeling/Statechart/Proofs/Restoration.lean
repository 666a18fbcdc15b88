import Statechart.Proofs.Locality
import Statechart.Proofs.Microstep

/-!
Restoring a configuration. What was recorded on leaving a valid configuration reaches into every
region that was active, so when it is entered again no region is entered by default: below the
parent of the history state exactly what was active comes back, or, where only children were
recorded, as far as they tell.
-/
namespace Statechart

open Ancestry (below_of_parent child_unique)
open Chart (root)
open Command (applyAll)

namespace Chart

variable {c : Chart} {x : Configuration} {a e h q r s : Nat} {ss : List Nat}

/-- Active states below `q` that, wherever they lie below a parallel state, reach into every
region. -/
structure Represents (c : Chart) (x : Configuration) (q : Nat) (ss : List Nat) : Prop where
  active : ∀ s ∈ ss, s ∈ x
  below : ∀ s ∈ ss, c.Below s q
  nonempty : ss ≠ []
  regions : ∀ e ∈ ss, ∀ a, c.Below e a → c.Within a q → (c.node a).isParallel = true →
    ∀ r ∈ c.regions a, ∃ s ∈ ss, c.Within s r

section Recorded

variable (wf : c.WellFormed) (hx : x.Valid c) (hq : q ∈ x) (hh : c.isHistory h = true)
  (hp : c.parent h = some q)
include wf hx hq hh hp

theorem represents_recorded : c.Represents x q (c.recorded x h) := by
  obtain ⟨hbelow, -, -, hne⟩ := restorable_recorded wf hx hh hp hq
  obtain ⟨depth, default, hkind⟩ := exists_kind_of_history hh
  have hmem : ∀ s, s ∈ c.recorded x h ↔ s ∈ c.toRecord x q depth := by
    intro s
    simp only [recorded, hkind, hp]
  refine ⟨fun s hs => ?_, hbelow, hne, fun e he a hea haq hpar r hr => ?_⟩
  · exact ((c.mem_toRecord x q depth).mp ((hmem s).mp hs)).1
  · have hax : x.Active a := hx.active_of_within wf
      (.inr ((c.mem_toRecord x q depth).mp ((hmem e).mp he)).1) hea.within
    have hrx := hx.every a hax hpar r hr
    have hra := below_of_parent wf.upward (wf.mem_regions.mp hr).1
    cases depth with
    | deep =>
      obtain ⟨s, hs, hatom, hsr⟩ := exists_active_leaf_within wf hx hrx
      have hsq := hsr.trans_below wf.upward (hra.trans_within wf.upward haq)
      exact ⟨s, (hmem s).mpr ((c.mem_toRecord x q .deep).mpr ⟨hs, hatom, hsq⟩), hsr⟩
    | shallow =>
      -- The states recorded are children, so only the parent lies between.
      have heq := ((c.mem_toRecord x q .shallow).mp ((hmem e).mp he)).2
      obtain rfl : a = q := by
        refine haq.resolve_right fun hb => ?_
        have hqa := Ancestry.within_parent_of_below wf.upward heq hea
        exact Ancestry.not_below_self wf.upward q (hqa.trans_below wf.upward hb)
      exact ⟨r, (hmem r).mpr ((c.mem_toRecord x a .shallow).mpr
        ⟨hrx, (wf.mem_regions.mp hr).1⟩), .refl c.parent r⟩

omit hq hh in
/-- The states without children tell everything. -/
theorem mem_iff_of_deep {default : Option DefaultEntry}
    (hkind : (c.node h).kind = .history .deep default) (hsq : c.Below s q) :
    s ∈ x ↔ ∃ e ∈ c.recorded x h, c.Within e s := by
  simp only [recorded, hkind, hp]
  constructor
  · intro hs
    obtain ⟨e, he, hatom, hes⟩ := exists_active_leaf_within wf hx hs
    exact ⟨e, (c.mem_toRecord x q .deep).mpr ⟨he, hatom, hes.trans_below wf.upward hsq⟩, hes⟩
  · rintro ⟨e, he, hes⟩
    have hex := ((c.mem_toRecord x q .deep).mp he).1
    exact (hx.active_of_within wf (.inr hex) hes).mem (wf.ne_root_of_below hsq)

end Recorded

end Chart

namespace EntryPlan

variable {c : Chart} {m : Memory} {x y : Configuration} {p p₁ p₂ : EntryPlan}
  {a d e h n q r s t top : Nat} {as es rs ss ts : List Nat} {tr : Transition}
  {down : Nat → EntryPlan → Option EntryPlan}

/-! ### Nothing is entered by default where the plan reaches into every region -/

theorem covers_mono (hp : ∀ s ∈ p.states, s ∈ p₁.states) (h : p.covers c r = true) :
    p₁.covers c r = true := by
  obtain ⟨s, hs, hsr⟩ := covers_iff.mp h
  exact covers_iff.mpr ⟨s, hp s hs, hsr⟩

theorem openRegions_of_covered (hrs : ∀ r ∈ rs, p.covers c r = true) :
    openRegions c down rs p = some p := by
  induction rs with
  | nil => rfl
  | cons r rs ih =>
    rw [openRegions, if_pos (hrs r (by simp))]
    exact ih fun r' hr' => hrs r' (by simp [hr'])

/-- The regions of the state are planned already, if it is parallel. -/
def Settled (c : Chart) (p : EntryPlan) (a : Nat) : Prop :=
  (c.node a).isParallel = true → ∀ r ∈ c.regions a, p.covers c r = true

theorem Settled.mono (h : p.Settled c a) (hp : ∀ s ∈ p.states, s ∈ p₁.states) : p₁.Settled c a :=
  fun hpar r hr => covers_mono hp (h hpar r hr)

theorem addAncestors_cons (ha : a ≠ root) (h : (p.addState a).Settled c a) :
    addAncestors c down (a :: as) p = addAncestors c down as (p.addState a) := by
  simp only [addAncestors, ha, if_false]
  split
  · rename_i hpar
    rw [openRegions_of_covered (h hpar), Option.bind_some]
  · rfl

variable (down) in
theorem addAncestors_of_settled (hroot : ∀ a ∈ as, a ≠ root) (has : ∀ a ∈ as, p.Settled c a) :
    ∃ p₁, addAncestors c down as p = some p₁ ∧ ∀ s, s ∈ p₁.states ↔ s ∈ p.states ∨ s ∈ as := by
  induction as generalizing p with
  | nil => exact ⟨p, rfl, by simp⟩
  | cons a as ih =>
    have hmono : ∀ s ∈ p.states, s ∈ (p.addState a).states := fun s hs => by simp [hs]
    rw [addAncestors_cons (hroot a (by simp)) ((has a (by simp)).mono hmono)]
    obtain ⟨p₁, hp₁, hmem⟩ := ih (p := p.addState a) (fun b hb => hroot b (by simp [hb]))
      fun b hb => (has b (by simp [hb])).mono hmono
    refine ⟨p₁, hp₁, fun s => ?_⟩
    rw [hmem, mem_addState, List.mem_cons]
    tauto

variable (down) in
theorem addAllAncestors_of_settled (wf : c.WellFormed) (hts : ∀ t ∈ ts, c.Below t top)
    (hset : ∀ t ∈ ts, ∀ a, c.Below t a → c.Below a top → p.Settled c a) :
    ∃ p₁, addAllAncestors c down top ts p = some p₁ ∧ ∀ s, s ∈ p₁.states ↔
      s ∈ p.states ∨ ∃ t ∈ ts, c.Below t s ∧ c.Below s top := by
  induction ts generalizing p with
  | nil => exact ⟨p, rfl, by simp⟩
  | cons t ts ih =>
    have hmem (a : Nat) := Chart.mem_ancestorsBelow (a := a) wf (hts t (by simp))
    obtain ⟨p₁, hp₁, hfirst⟩ := addAncestors_of_settled down
      (fun a ha => wf.ne_root_of_below ((hmem a).mp ha).2)
      fun a ha => hset t (by simp) a ((hmem a).mp ha).1 ((hmem a).mp ha).2
    obtain ⟨p₂, hp₂, hrest⟩ := ih (p := p₁) (fun u hu => hts u (by simp [hu]))
      fun u hu a hua hat => (hset u (by simp [hu]) a hua hat).mono
        fun s hs => (hfirst s).mpr (.inl hs)
    refine ⟨p₂, by simp [addAllAncestors, hp₁, hp₂], fun s => ?_⟩
    rw [hrest, hfirst, hmem, or_assoc]
    simp

/-! ### Above the state restored -/

/-- How targets are added whatever has been recorded. -/
def GrowsUnder (c : Chart) (down : Nat → EntryPlan → Option EntryPlan) : Prop :=
  ∀ t p p₁, c.Below t root → down t p = some p₁ → Grows c (c.Under t) p p₁

section Keeps

variable (wf : c.WellFormed) (hdown : GrowsUnder c down) (heq : c.Below e q)
include wf hdown heq

/-- A region entered by default beside a planned state below `q` adds nothing below `q`. -/
theorem keeps_region (hqa : c.Below q a) (hr : r ∈ c.regions a) (he : e ∈ p.states)
    (hcov : ¬p.covers c r = true) (h : down r p = some p₁) :
    Grows c (fun s => ¬c.Below s q) p p₁ := by
  obtain ⟨hpar, hreal⟩ := wf.mem_regions.mp hr
  have hra := below_of_parent wf.upward hpar
  obtain ⟨hmono, hscope, hreal'⟩ := hdown r p p₁ (wf.below_root_of_below hra) h
  refine ⟨hmono, fun s hs hn hsq => ?_, hreal'⟩
  have hsr := (Chart.under_of_not_history hreal).mp (hscope s hs hn)
  rcases hsr.total wf.upward hsq.within with hrq | hqr
  · have haq := Ancestry.within_parent_of_below wf.upward hpar
      (hrq.resolve_left fun h => hcov (covers_iff.mpr ⟨e, he, h ▸ heq.within⟩))
    exact Ancestry.not_below_self wf.upward q (hqa.trans_within wf.upward haq)
  · exact hcov (covers_iff.mpr ⟨e, he, heq.within.trans wf.upward hqr⟩)

theorem keeps_openRegions (hqa : c.Below q a) (hrs : ∀ r ∈ rs, r ∈ c.regions a)
    (he : e ∈ p.states) (h : openRegions c down rs p = some p₁) :
    Grows c (fun s => ¬c.Below s q) p p₁ := by
  induction rs generalizing p with
  | nil => exact Option.some.inj h ▸ .refl c _ p
  | cons r rs ih =>
    have ih (p : EntryPlan) := ih (p := p) fun r' hr' => hrs r' (by simp [hr'])
    rw [openRegions] at h
    split at h
    · exact ih p he h
    · rename_i hcov
      obtain ⟨p₂, hp₂, h⟩ := Option.bind_eq_some_iff.mp h
      have hone := keeps_region wf hdown heq hqa (hrs r (by simp)) he hcov hp₂
      exact hone.trans (ih p₂ (hone.mono e he) h)

/-- The ancestors of a planned state below `q` add nothing below `q` that was not planned, if those
up to `q` are settled. -/
theorem keeps_addAncestors (hroot : ∀ a ∈ as, a ≠ root) (has : ∀ a ∈ as, c.Below e a)
    (hplanned : ∀ a ∈ as, c.Below a q → a ∈ p.states)
    (hset : ∀ a ∈ as, c.Within a q → p.Settled c a) (he : e ∈ p.states)
    (h : addAncestors c down as p = some p₁) :
    Grows c (fun s => ¬c.Below s q) p p₁ ∧ ∀ a ∈ as, a ∈ p₁.states := by
  induction as generalizing p with
  | nil => exact ⟨Option.some.inj h ▸ .refl c _ p, by simp⟩
  | cons a as ih =>
    have hadd : Grows c (fun s => ¬c.Below s q) p (p.addState a) := by
      refine ⟨fun s hs => by simp [hs], fun s hs hn hsq => ?_, fun s hs hn => ?_⟩
      · obtain rfl := (mem_addState.mp hs).resolve_right hn
        exact hn (hplanned s (by simp) hsq)
      · obtain rfl := (mem_addState.mp hs).resolve_right hn
        exact wf.not_history_of_below (has s (by simp))
    have hstep {p₂ : EntryPlan} (hp₂ : Grows c (fun s => ¬c.Below s q) p p₂) (ha : a ∈ p₂.states)
        (h : addAncestors c down as p₂ = some p₁) :
        Grows c (fun s => ¬c.Below s q) p p₁ ∧ ∀ b ∈ a :: as, b ∈ p₁.states := by
      obtain ⟨hrest, hall⟩ := ih (fun b hb => hroot b (by simp [hb]))
        (fun b hb => has b (by simp [hb]))
        (fun b hb hbq => hp₂.mono b (hplanned b (by simp [hb]) hbq))
        (fun b hb hbq => (hset b (by simp [hb]) hbq).mono hp₂.mono) (hp₂.mono e he) h
      exact ⟨hp₂.trans hrest, List.forall_mem_cons.mpr ⟨hrest.mono a ha, hall⟩⟩
    by_cases haq : c.Within a q
    · rw [addAncestors_cons (hroot a (by simp)) ((hset a (by simp) haq).mono hadd.mono)] at h
      exact hstep hadd (by simp) h
    · have hqa : c.Below q a :=
        ((heq.within.total wf.upward (has a (by simp)).within).resolve_right haq).resolve_left
          fun h => haq (.inl h.symm)
      simp only [addAncestors, hroot a (by simp), if_false] at h
      split at h
      · obtain ⟨p₂, hp₂, h⟩ := Option.bind_eq_some_iff.mp h
        have hopen := keeps_openRegions wf hdown heq hqa (fun r hr => hr)
          (by simp [he] : e ∈ (p.addState a).states) hp₂
        exact hstep (hadd.trans hopen) (hopen.mono a (by simp)) h
      · exact hstep hadd (by simp) h

omit heq in
theorem keeps_addAllAncestors (hqd : c.Below q d)
    (hts : ∀ t ∈ ts, c.Below t q ∧ t ∈ p.states)
    (hplanned : ∀ t ∈ ts, ∀ a, c.Below t a → c.Below a q → a ∈ p.states)
    (hset : ∀ t ∈ ts, ∀ a, c.Below t a → c.Within a q → p.Settled c a)
    (h : addAllAncestors c down d ts p = some p₁) :
    Grows c (fun s => ¬c.Below s q) p p₁ ∧ ∀ t ∈ ts, q ∈ p₁.states := by
  induction ts generalizing p with
  | nil => exact ⟨Option.some.inj h ▸ .refl c _ p, by simp⟩
  | cons t ts ih =>
    obtain ⟨p₂, hp₂, h⟩ := Option.bind_eq_some_iff.mp h
    obtain ⟨htq, ht⟩ := hts t (by simp)
    have hmem (a : Nat) := Chart.mem_ancestorsBelow (a := a) wf (htq.trans wf.upward hqd)
    obtain ⟨hone, hall⟩ := keeps_addAncestors wf hdown htq
      (fun a ha => wf.ne_root_of_below ((hmem a).mp ha).2) (fun a ha => ((hmem a).mp ha).1)
      (fun a ha => hplanned t (by simp) a ((hmem a).mp ha).1)
      (fun a ha => hset t (by simp) a ((hmem a).mp ha).1) ht hp₂
    obtain ⟨hrest, -⟩ := ih
      (fun u hu => (hts u (by simp [hu])).imp_right (hone.mono u))
      (fun u hu a hua haq => hone.mono a (hplanned u (by simp [hu]) a hua haq))
      (fun u hu a hua haq => (hset u (by simp [hu]) a hua haq).mono hone.mono) h
    exact ⟨hone.trans hrest, fun _ _ => hrest.mono q (hall q ((hmem q).mpr ⟨htq, hqd⟩))⟩

omit hdown in
theorem keeps_completeRoot (hdown : GrowsUnder c (addWithin c m (levels c)))
    (hq : c.Below q root) (he : e ∈ p.states) (h : completeRoot? c x m p = some p₁) :
    Grows c (fun s => ¬c.Below s q) p p₁ := by
  have hgo (rs : List Nat) (hrs : ∀ r ∈ rs, r ∈ c.regions root) (p : EntryPlan)
      (he : e ∈ p.states) (h : completeRoot?.go c x m rs p = some p₁) :
      Grows c (fun s => ¬c.Below s q) p p₁ := by
    induction rs generalizing p with
    | nil => exact Option.some.inj h ▸ .refl c _ p
    | cons r rs ih =>
      have ih := ih fun r' hr' => hrs r' (by simp [hr'])
      rw [completeRoot?.go] at h
      split at h
      · exact ih p he h
      · rename_i hcov
        obtain ⟨p₂, hp₂, h⟩ := Option.bind_eq_some_iff.mp h
        have hone := keeps_region wf hdown heq hq (hrs r (by simp)) he
          (fun hc => hcov (by simp [hc])) hp₂
        exact hone.trans (ih p₂ (hone.mono e he) h)
  unfold completeRoot? at h
  split at h
  · exact hgo _ (fun r hr => hr) p he h
  · exact Option.some.inj h ▸ .refl c _ p

end Keeps

/-! ### What a history state brings back -/

section History

variable (wf : c.WellFormed) (proper : m.Proper c)
include wf proper

theorem growsUnder_addWithin (n : Nat) : GrowsUnder c (addWithin c m n) :=
  fun _ _ _ ht h => grows_addWithin wf proper ht h

theorem addAll_of_real (hts : ∀ t ∈ ts, c.Below t root ∧ c.isHistory t = false)
    (h : addAll (addWithin c m n) ts p = some p₁) :
    Grows c (fun s => ∃ t ∈ ts, c.Within s t) p p₁ ∧ ∀ t ∈ ts, t ∈ p₁.states := by
  induction ts generalizing p with
  | nil => exact ⟨Option.some.inj h ▸ .refl c _ p, by simp⟩
  | cons t ts ih =>
    obtain ⟨p₂, hp₂, h⟩ := Option.bind_eq_some_iff.mp h
    obtain ⟨hroot, hreal⟩ := hts t (by simp)
    have hone := grows_addWithin wf proper hroot hp₂
    obtain ⟨hrest, hall⟩ := ih (fun u hu => hts u (by simp [hu])) h
    refine ⟨(hone.imp fun s hs => ?_).trans (hrest.imp fun s hs => ?_), fun u hu => ?_⟩
    · exact ⟨t, by simp, (Chart.under_of_not_history hreal).mp hs⟩
    · obtain ⟨u, hu, hsu⟩ := hs
      exact ⟨u, by simp [hu], hsu⟩
    · rcases List.mem_cons.mp hu with rfl | hu
      · exact hrest.mono u (mem_of_addWithin wf proper hreal hp₂)
      · exact hall u hu

variable (hh : c.isHistory h = true) (hq : c.parent h = some q) (hget : m.get? h = some ss)
  (rep : c.Represents x q ss)
include hh hq hget rep

/-- Entering a history state plans the states recorded, what these bring along and what lies between
them and the parent, and opens no other region. -/
theorem restored_addWithin (hadd : addWithin c m n h p = some p₁) :
    ∃ p₂ : EntryPlan, Grows c (fun s => ∃ t ∈ ss, c.Within s t) p p₂ ∧
      (∀ t ∈ ss, t ∈ p₂.states) ∧
      ∀ s, s ∈ p₁.states ↔ s ∈ p₂.states ∨ ∃ t ∈ ss, c.Below t s ∧ c.Below s q := by
  cases n with
  | zero => simp [addWithin] at hadd
  | succ n =>
    obtain ⟨p', hp', he⟩ := addWithin_of_history (m := m) hh hq n p
    rw [he, Chart.leads_of_record hget] at hadd
    obtain ⟨p₂, hp₂, hadd⟩ := Option.bind_eq_some_iff.mp hadd
    obtain ⟨⟨hmono, hscope, hreal⟩, hall⟩ := addAll_of_real wf proper (fun t ht =>
      ⟨wf.below_root_of_below (rep.below t ht), (proper h q ss hh hq hget t ht).2⟩) hp₂
    rw [hp'] at hmono hscope hreal
    obtain ⟨p₃, hp₃, hmem⟩ := addAllAncestors_of_settled (addWithin c m n) wf rep.below
      fun t ht a hta haq hpar r hr => by
        obtain ⟨s, hs, hsr⟩ := rep.regions t ht a hta haq.within hpar r hr
        exact covers_iff.mpr ⟨s, hall s hs, hsr⟩
    obtain rfl := Option.some.inj (hadd.symm.trans hp₃)
    exact ⟨p₂, ⟨hmono, hscope, hreal⟩, hall, hmem⟩

omit wf proper rep in
/-- The only target comes to what is recorded. -/
theorem mem_effective_of_recorded (htr : tr.targets = [h])
    (hes : c.effectiveTargets? m tr = some es) : e ∈ es ↔ e ∈ ss := by
  have hstops : c.stops m h = true := by simp [Chart.stops, hget]
  rw [Chart.mem_effectiveTargets hes, htr]
  simp only [List.mem_singleton, exists_eq_left, Chart.resolveSteps,
    Chart.resolveTarget?_of_history hh hq, hstops, if_true, Chart.leads_of_record hget]
  simp

/-- With the domain above the parent of the history state the rest of the entry adds nothing below
the parent. -/
theorem restored_addTransition (htr : tr.targets = [h])
    (hd : c.domain? m tr = some (some d)) (hqd : c.Below q d)
    (hadd : addTransition? c y m p tr = some p₁) :
    ∃ p₂, addWithin c m (levels c) h p = some p₂ ∧ Grows c (fun s => ¬c.Below s q) p₂ p₁ ∧
      q ∈ p₁.states := by
  obtain ⟨p₂, es, hp₂, hes, hcase⟩ := addTransition?_eq_some_iff.mp hadd
  obtain ⟨es', hes', hdom⟩ := Chart.domain?_eq_some_iff.mp hd
  obtain rfl := Option.some.inj (hes.symm.trans hes')
  have hmem (e : Nat) : e ∈ es ↔ e ∈ ss := mem_effective_of_recorded hh hq hget htr hes
  rw [htr] at hp₂
  replace hp₂ : addWithin c m (levels c) h p = some p₂ := by
    simpa only [addAll, Option.bind_fun_some] using hp₂
  obtain ⟨p₄, -, hall, hstates⟩ := restored_addWithin wf proper hh hq hget rep hp₂
  have hss : ∀ e ∈ ss, e ∈ p₂.states := fun e he => (hstates e).mpr (.inl (hall e he))
  have hdown := growsUnder_addWithin wf proper (levels c)
  rcases hcase with ⟨hnone, -⟩ | ⟨d', p₃, hd', hp₃, hlast⟩
  · simp [hdom] at hnone
  obtain rfl := Option.some.inj (hdom.symm.trans hd')
  obtain ⟨hkeeps, hself⟩ := keeps_addAllAncestors wf hdown hqd
    (fun e he => ⟨rep.below e ((hmem e).mp he), hss e ((hmem e).mp he)⟩)
    (fun e he a hea haq => (hstates a).mpr (.inr ⟨e, (hmem e).mp he, hea, haq⟩))
    (fun e he a hea haq hpar r hr => by
      obtain ⟨s, hs, hsr⟩ := rep.regions e ((hmem e).mp he) a hea haq hpar r hr
      exact covers_iff.mpr ⟨s, hss s hs, hsr⟩) hp₃
  obtain ⟨e, he⟩ := List.exists_mem_of_ne_nil _ rep.nonempty
  have hq₃ := hself e ((hmem e).mpr he)
  refine ⟨p₂, hp₂, ?_⟩
  split at hlast
  · have hcomplete := keeps_completeRoot wf (rep.below e he) hdown
      (wf.below_root_of_below hqd) (hkeeps.mono e (hss e he)) hlast
    exact ⟨hkeeps.trans hcomplete, hcomplete.mono q hq₃⟩
  · obtain rfl := Option.some.inj hlast
    exact ⟨hkeeps, hq₃⟩

end History

end EntryPlan

/-- A transition back: its only target is a history state of a state that is not active, and the
memory holds what leaving the configuration `y` has left there. -/
structure Returns (c : Chart) (m : Memory) (x y : Configuration) (h q : Nat) (t : Transition) :
    Prop where
  proper : m.Proper c
  valid : x.Valid c
  inactive : q ∉ x
  left : y.Valid c
  active : q ∈ y
  ne_root : q ≠ root
  history : c.isHistory h = true
  parent : c.parent h = some q
  recorded : m.get? h = some (c.recorded y h)
  declared : c.Declared t
  source : t.source ∈ x
  targets : t.targets = [h]

namespace Returns

variable {c : Chart} {m : Memory} {x y : Configuration} {h q s : Nat} {t : Transition}
  {script : Script} {default : Option DefaultEntry}

section Back

variable (wf : c.WellFormed) (back : Returns c m x y h q t)
  (htake : Script.take? c x m [t] = some script)
include wf back

theorem represents : c.Represents y q (c.recorded y h) :=
  Chart.represents_recorded wf back.left back.active back.history back.parent

theorem not_active (hsq : c.Within s q) : ¬x.Active s := fun hs =>
  back.inactive ((back.valid.active_of_within wf hs hsq).mem back.ne_root)

/-- The source is active and the parent of the history state is not, so a domain that encloses both
lies above the parent. -/
theorem below_domain {es : List Nat} {d e : Nat} (henc : c.Encloses t es d) (he : e ∈ es)
    (heq : c.Below e q) : c.Below q d := by
  have hnot : ¬c.Within d q := fun hdq => back.not_active wf hdq
    (back.valid.active_of_within wf (.inr back.source) henc.source)
  exact (((henc.targets e he).within.total wf.upward heq.within).resolve_left hnot).resolve_left
    fun h => hnot (.inl h.symm)

include htake

/-- The parent is active again with what the record brings along, and nothing else below it. -/
theorem result_spec : q ∈ applyAll x script.commands ∧ ∃ plan : EntryPlan,
    EntryPlan.Grows c (fun s => ∃ e ∈ c.recorded y h, c.Within s e) {} plan ∧
    (∀ e ∈ c.recorded y h, e ∈ plan.states) ∧
    ∀ s, c.Below s q → (s ∈ applyAll x script.commands ↔
      s ∈ plan.states ∨ ∃ e ∈ c.recorded y h, c.Below e s) := by
  obtain ⟨exits, outside, plan, made⟩ := Script.made_of_take? htake
  have hh := back.history
  have hq := back.parent
  have htr := back.targets
  have rep := back.represents wf
  have hget : script.memory.get? h = some (c.recorded y h) := by
    have hkept : q ∉ exits := fun hexit => back.inactive ((made.mem_exits q).mp hexit).1
    rw [made.memory_eq, Chart.get?_recordHistory_of_kept wf hq hkept, back.recorded]
  have proper : script.memory.Proper c :=
    made.memory_eq ▸ back.proper.recordHistory wf back.valid.real exits
  have hadd : EntryPlan.addTransition? c outside script.memory {} t = some plan := by
    have heq := made.plan_eq
    simpa only [EntryPlan.ofTransitions?, List.foldlM_cons, List.foldlM_nil, bind_pure] using heq
  obtain ⟨-, es, -, hes, -⟩ := EntryPlan.addTransition?_eq_some_iff.mp hadd
  obtain ⟨e, he⟩ := List.exists_mem_of_ne_nil _ rep.nonempty
  have hmem : e ∈ es := (EntryPlan.mem_effective_of_recorded hh hq hget htr hes).mpr he
  obtain ⟨d, hd, henc⟩ := Chart.exists_domainOf back.declared.source
    (fun e he => Chart.below_root_of_effective wf back.declared hes proper he)
    (List.ne_nil_of_mem hmem)
  obtain ⟨p₂, hp₂, hgrow, hqp⟩ := EntryPlan.restored_addTransition wf proper hh hq hget rep htr
    (Chart.domain?_eq_some_iff.mpr ⟨es, hes, hd⟩)
    (back.below_domain wf henc hmem (rep.below e he)) hadd
  obtain ⟨p₃, hgrow₃, hall, hstates⟩ :=
    EntryPlan.restored_addWithin wf proper hh hq hget rep hp₂
  refine ⟨(made.mem_result q).mpr (.inr hqp), p₃, hgrow₃, hall, fun s hsq => ?_⟩
  have hout : s ∉ outside := fun hs =>
    back.not_active wf hsq.within (.inr ((made.mem_outside s).mp hs).1)
  rw [made.mem_result, or_iff_right hout, hgrow.mem_iff (not_not.mpr hsq), hstates]
  simp [hsq]

/-- Entered through a deep history state, the parent has the active descendants that it had. -/
theorem deep (hkind : (c.node h).kind = .history .deep default) (hsq : c.Below s q) :
    s ∈ applyAll x script.commands ↔ s ∈ y := by
  obtain ⟨-, plan, hgrow, hall, hresult⟩ := back.result_spec wf htake
  rw [hresult s hsq, Chart.mem_iff_of_deep wf back.left back.parent hkind hsq]
  constructor
  · rintro (hs | ⟨e, he, hes⟩)
    · obtain ⟨e, he, hse⟩ := hgrow.scope s hs (StateSet.not_mem_empty s)
      have hatom : (c.node e).isAtomic = true := by
        simp only [Chart.recorded, hkind, back.parent] at he
        exact ((c.mem_toRecord y q .deep).mp he).2.1
      exact ⟨e, he, .inl (hse.resolve_right (Chart.not_below_of_atomic wf hatom)).symm⟩
    · exact ⟨e, he, hes.within⟩
  · rintro ⟨e, he, rfl | hes⟩
    · exact .inl (hall e he)
    · exact .inr ⟨e, he, hes⟩

/-- Entered through a shallow history state, the parent has the active children that it had. -/
theorem shallow (hkind : (c.node h).kind = .history .shallow default)
    (hsq : c.parent s = some q) : s ∈ applyAll x script.commands ↔ s ∈ y := by
  obtain ⟨-, plan, hgrow, hall, hresult⟩ := back.result_spec wf htake
  have hrec (e : Nat) : e ∈ c.recorded y h ↔ e ∈ y ∧ c.parent e = some q := by
    simp only [Chart.recorded, hkind, back.parent]
    exact c.mem_toRecord y q .shallow
  rw [hresult s (below_of_parent wf.upward hsq)]
  constructor
  · rintro (hs | ⟨e, he, hes⟩)
    · obtain ⟨e, he, hse⟩ := hgrow.scope s hs (StateSet.not_mem_empty s)
      obtain ⟨hey, heq⟩ := (hrec e).mp he
      exact child_unique wf.upward hsq heq (.refl c.parent s) hse ▸ hey
    · have hqs := Ancestry.within_parent_of_below wf.upward ((hrec e).mp he).2 hes
      exact absurd (hqs.trans_below wf.upward (below_of_parent wf.upward hsq))
        (Ancestry.not_below_self wf.upward q)
  · exact fun hs => .inl (hall s ((hrec s).mpr ⟨hs, hsq⟩))

end Back

end Returns

end Statechart

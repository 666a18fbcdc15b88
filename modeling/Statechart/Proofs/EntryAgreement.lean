import Statechart.Proofs.EntryGrowth
import Statechart.Proofs.ValidConfiguration

/-!
Plans without conflict. If a plan never asks for two regions of one compound state, and nothing under
a target is planned yet, then the plan still does not after the target is added, as long as targets
entered together are anchored apart.
-/
namespace Statechart

open Ancestry (below_of_parent)

namespace Chart

variable {c : Chart} {m : Memory} {h q : Nat} {ts : List Nat}

theorem lone_of_real (hts : ∀ t ∈ ts, c.isHistory t = false) : c.Lone ts :=
  .inr fun t ht hh => absurd hh (by simp [hts t ht])

theorem Separate.lone_defaultTargets (sep : c.Separate) (q : Nat) : c.Lone (c.defaultTargets q) := by
  unfold defaultTargets
  split
  · rename_i hk
    exact sep.initial q _ _ hk
  · exact .inl (List.length_take_le 1 _)

theorem Separate.lone_defaultEntry (wf : c.WellFormed) (sep : c.Separate) (q : Nat) :
    c.Lone (c.defaultEntry q) := by
  unfold defaultEntry
  split
  · exact lone_of_real fun r hr => (wf.mem_regions.mp hr).2
  · exact sep.lone_defaultTargets q

theorem Separate.lone_leads (wf : c.WellFormed) (sep : c.Separate) (sound : m.Sound c)
    (hh : c.isHistory h = true) (hq : c.parent h = some q) : c.Lone (c.leads m h q) := by
  unfold leads
  split
  · rename_i hm
    exact lone_of_real (sound h q _ hh hq hm).real
  · rename_i hk
    exact sep.default h _ _ _ hk
  · exact sep.lone_defaultEntry wf q

end Chart

namespace EntryPlan

open Chart (root)

variable {c : Chart} {m : Memory} {p p₁ p₂ : EntryPlan} {a n q t top : Nat} {as rs ts : List Nat}
  {down : Nat → EntryPlan → Option EntryPlan}

/-- Nothing under the target is planned, and nothing planned keeps it from being entered. -/
def Fits (c : Chart) (p : EntryPlan) (t : Nat) : Prop :=
  ∀ b ∈ p.states, ¬c.Under t b ∧ c.Agree (c.anchor t) b

/-- Nothing below the state is planned, and nothing planned keeps it from being active. -/
def Clear (c : Chart) (p : EntryPlan) (top : Nat) : Prop :=
  ∀ b ∈ p.states, ¬c.Below b top ∧ c.Agree top b

theorem Clear.fits (wf : c.WellFormed) (h : p.Clear c top) (ht : c.Below t top) : p.Fits c t := by
  intro b hb
  obtain ⟨hout, hagree⟩ := h b hb
  refine ⟨fun hu => hout (wf.below_of_under ht hu), ?_⟩
  have hanchor := wf.anchor_within ht
  by_cases hbt : c.Within b top
  · -- Not below `top`, so it is `top`, and the target is anchored inside it.
    rw [hbt.resolve_right hout]
    exact (Chart.agree_of_within wf.upward hanchor).symm
  · exact hagree.inside wf.upward hanchor hbt

theorem compatible_insert (up : Ancestry.Upward c.parent) (hp : c.Compatible p.states)
    (ha : ∀ b ∈ p.states, c.Agree a b) (h : ∀ s, s ∈ p₁.states ↔ s = a ∨ s ∈ p.states) :
    c.Compatible p₁.states := by
  intro x hx y hy
  rcases (h x).mp hx with rfl | hx <;> rcases (h y).mp hy with rfl | hy
  · exact Chart.agree_self up _
  · exact ha y hy
  · exact (ha x hx).symm
  · exact hp x hx y hy

/-- A way to add targets that keeps plans without conflict. -/
def Harmonizes (c : Chart) (down : Nat → EntryPlan → Option EntryPlan) : Prop :=
  ∀ t p p₁, c.Below t root → c.Compatible p.states → p.Fits c t → down t p = some p₁ →
    c.Compatible p₁.states

section Harmonizes

variable (wf : c.WellFormed) (hdown : Enters c down) (harm : Harmonizes c down)
include wf hdown harm

/-- One region of a parallel state that the plan does not reach into. -/
theorem compatible_region (hr : q ∈ c.regions a) (ha : (c.node a).isParallel = true)
    (hp : c.Compatible p.states) (hagree : ∀ b ∈ p.states, c.Agree a b)
    (hcov : ¬p.covers c q = true) (h : down q p = some p₁) :
    c.Compatible p₁.states ∧ ∀ b ∈ p₁.states, c.Agree a b := by
  obtain ⟨hpar, hreal⟩ := wf.mem_regions.mp hr
  have hqa := below_of_parent wf.upward hpar
  have hroot := wf.below_root_of_below hqa
  have hfits : p.Fits c q := by
    intro b hb
    rw [Chart.under_of_not_history hreal, Chart.anchor_of_not_history hreal]
    exact ⟨fun hw => hcov (covers_iff.mpr ⟨b, hb, hw⟩), (hagree b hb).region wf.upward hpar ha⟩
  refine ⟨harm q p p₁ hroot hp hfits h, fun b hb => ?_⟩
  by_cases hbp : b ∈ p.states
  · exact hagree b hbp
  · have hbq := (Chart.under_of_not_history hreal).mp ((hdown q p p₁ hroot h).1.scope b hb hbp)
    exact Chart.agree_of_within wf.upward (hbq.trans wf.upward hqa.within)

theorem compatible_openRegions (hrs : ∀ r ∈ rs, r ∈ c.regions a)
    (ha : (c.node a).isParallel = true) (hp : c.Compatible p.states)
    (hagree : ∀ b ∈ p.states, c.Agree a b) (h : openRegions c down rs p = some p₂) :
    c.Compatible p₂.states := by
  induction rs generalizing p with
  | nil =>
    obtain rfl := Option.some.inj h
    exact hp
  | cons r rs ih =>
    have hrs' : ∀ r ∈ rs, r ∈ c.regions a := fun r hr => hrs r (by simp [hr])
    rw [openRegions] at h
    split at h
    · exact ih hrs' hp hagree h
    · rename_i hcov
      obtain ⟨p₁, hp₁, h⟩ := Option.bind_eq_some_iff.mp h
      obtain ⟨hcomp, hall⟩ :=
        compatible_region wf hdown harm (hrs r (by simp)) ha hp hagree hcov hp₁
      exact ih hrs' hcomp hall h

/-- Ancestors of planned states agree with whatever these agree with. -/
theorem compatible_addAncestors (hroot : ∀ a ∈ as, a ≠ root)
    (hbelow : ∀ a ∈ as, ∃ u ∈ p.states, c.Below u a) (hp : c.Compatible p.states)
    (h : addAncestors c down as p = some p₂) : c.Compatible p₂.states := by
  induction as generalizing p with
  | nil =>
    obtain rfl := Option.some.inj h
    exact hp
  | cons a as ih =>
    obtain ⟨u, hu, hua⟩ := hbelow a (by simp)
    have hagree : ∀ b ∈ p.states, c.Agree a b :=
      fun b hb => (hp u hu b hb).above wf.upward hua.within
    have hadd : c.Compatible (p.addState a).states :=
      compatible_insert wf.upward hp hagree (fun _ => mem_addState)
    have hmore : ∀ b ∈ (p.addState a).states, c.Agree a b := by
      intro b hb
      rcases mem_addState.mp hb with rfl | hb
      · exact Chart.agree_self wf.upward b
      · exact hagree b hb
    have hroot' : ∀ b ∈ as, b ≠ root := fun b hb => hroot b (by simp [hb])
    have rest (p₁ : EntryPlan) (hmono : ∀ s ∈ (p.addState a).states, s ∈ p₁.states) :
        ∀ b ∈ as, ∃ u ∈ p₁.states, c.Below u b := by
      intro b hb
      obtain ⟨v, hv, hvb⟩ := hbelow b (by simp [hb])
      exact ⟨v, hmono v (by simp [hv]), hvb⟩
    simp only [addAncestors, hroot a (by simp), if_false] at h
    split at h
    · rename_i hpar
      obtain ⟨p₁, hp₁, h⟩ := Option.bind_eq_some_iff.mp h
      have hmono := (extends_openRegions wf hdown (fun _ hr => hr) hp₁).1.mono
      exact ih hroot' (rest p₁ hmono)
        (compatible_openRegions wf hdown harm (fun _ hr => hr) hpar hadd hmore hp₁) h
    · exact ih hroot' (rest _ fun _ hs => hs) hadd h

theorem compatible_addAllAncestors (hts : ∀ t ∈ ts, c.Below t top ∧ p.Reached c t)
    (hp : c.Compatible p.states) (h : addAllAncestors c down top ts p = some p₂) :
    c.Compatible p₂.states := by
  induction ts generalizing p with
  | nil =>
    obtain rfl := Option.some.inj h
    exact hp
  | cons t ts ih =>
    obtain ⟨p₁, hp₁, h⟩ := Option.bind_eq_some_iff.mp h
    obtain ⟨htop, hreach⟩ := hts t (by simp)
    have hmem (a : Nat) := Chart.mem_ancestorsBelow (a := a) wf htop
    have hroot (a : Nat) (ha : a ∈ c.ancestorsBelow t top) : a ≠ root :=
      wf.ne_root_of_below ((hmem a).mp ha).2
    have hbelow (a : Nat) (ha : a ∈ c.ancestorsBelow t top) : ∃ u ∈ p.states, c.Below u a :=
      hreach.exists_below wf ((hmem a).mp ha).1
    have hmono := (extends_addAncestors wf hdown hroot hbelow hp₁).1.mono
    exact ih (fun u hu => ⟨(hts u (by simp [hu])).1, (hts u (by simp [hu])).2.mono hmono⟩)
      (compatible_addAncestors wf hdown harm hroot hbelow hp hp₁) h

theorem compatible_addAll (hts : ∀ t ∈ ts, c.Below t root)
    (hapart : ts.Pairwise (fun t u => c.Apart (c.anchor t) (c.anchor u)))
    (hp : c.Compatible p.states) (hfits : ∀ t ∈ ts, p.Fits c t) (h : addAll down ts p = some p₂) :
    c.Compatible p₂.states := by
  induction ts generalizing p with
  | nil =>
    obtain rfl := Option.some.inj h
    exact hp
  | cons t ts ih =>
    obtain ⟨p₁, hp₁, h⟩ := Option.bind_eq_some_iff.mp h
    obtain ⟨hfirst, hrest⟩ := List.pairwise_cons.mp hapart
    have hgrow := (hdown t p p₁ (hts t (by simp)) hp₁).1
    refine ih (fun u hu => hts u (by simp [hu])) hrest
      (harm t p p₁ (hts t (by simp)) hp (hfits t (by simp)) hp₁) (fun u hu b hb => ?_) h
    by_cases hbp : b ∈ p.states
    · exact hfits u (by simp [hu]) b hbp
    · -- What the first target brings along lies inside its own anchor.
      have hb := (hgrow.scope b hb hbp).within_anchor
      have hout : ¬c.Within b (c.anchor u) := fun hbu =>
        (hb.total wf.upward hbu).elim (hfirst u hu).not_within (hfirst u hu).not_within'
      refine ⟨fun hub => hout hub.within_anchor, ?_⟩
      exact ((hfirst u hu).agree.inside wf.upward hb (hfirst u hu).not_within').symm

theorem compatible_addTargets (hts : ∀ t ∈ ts, c.Below t top) (hapart : ts.Pairwise c.Apart)
    (hlone : c.Lone ts) (hp : c.Compatible p.states) (hclear : p.Clear c top)
    (h : addTargets c down top ts p = some p₂) : c.Compatible p₂.states := by
  have hroot : ∀ t ∈ ts, c.Below t root := fun t ht => wf.below_root_of_below (hts t ht)
  obtain ⟨p₁, hp₁, h⟩ := Option.bind_eq_some_iff.mp h
  have hcomp := compatible_addAll wf hdown harm hroot
    (wf.pairwise_apart_anchors hapart hroot hlone) hp (fun t ht => hclear.fits wf (hts t ht)) hp₁
  have hreach := (extends_addAll hdown hroot hp₁).2
  exact compatible_addAllAncestors wf hdown harm (fun t ht => ⟨hts t ht, hreach t ht⟩) hcomp h

end Harmonizes

theorem harmonizes_addWithin (wf : c.WellFormed) (sep : c.Separate) (sound : m.Sound c) (n : Nat) :
    Harmonizes c (addWithin c m n) := by
  induction n with
  | zero => exact fun t p p₁ _ _ _ h => absurd h (by simp [addWithin])
  | succ n ih =>
    intro t p p₂ hroot hp hfits h
    have hdown := enters_addWithin wf sound.filled n
    cases hh : c.isHistory t with
    | true =>
      obtain ⟨q, hq⟩ := wf.exists_parent hroot
      obtain ⟨p', hp', he⟩ := addWithin_of_history (m := m) hh hq n p
      rw [he] at h
      obtain ⟨hbelow, hapart, -⟩ := wf.leads_spec sound hh hq
      have hclear : p'.Clear c q := by
        intro b hb
        have hfit := hfits b (hp' ▸ hb)
        rwa [Chart.under_of_history hh hq, Chart.anchor_of_history hh hq] at hfit
      exact compatible_addTargets wf hdown ih hbelow hapart (sep.lone_leads wf sound hh hq)
        (hp' ▸ hp) hclear h
    | false =>
      have hagree : ∀ b ∈ p.states, ¬c.Within b t ∧ c.Agree t b := by
        intro b hb
        have hfit := hfits b hb
        rwa [Chart.under_of_not_history hh, Chart.anchor_of_not_history hh] at hfit
      have hadd : c.Compatible (p.addState t).states :=
        compatible_insert wf.upward hp (fun b hb => (hagree b hb).2) (fun _ => mem_addState)
      unfold addWithin at h
      cases hk : (c.node t).kind with
      | history d e => simp [Chart.isHistory, Node.isHistory, hk] at hh
      | atomic =>
        simp only [hk, Option.some.injEq] at h
        exact h ▸ hadd
      | final =>
        simp only [hk, Option.some.injEq] at h
        exact h ▸ hadd
      | compound i =>
        simp only [hk] at h
        obtain ⟨hbelow, hapart, -⟩ :=
          wf.defaultTargets_spec (q := t) (by simp [Node.isCompound, hk])
        refine compatible_addTargets (p := p.addCompound t) wf hdown ih hbelow hapart
          (sep.lone_defaultTargets t) hadd (fun b hb => ?_) h
        rcases mem_addCompound.mp hb with rfl | hb
        · exact ⟨Ancestry.not_below_self wf.upward b, Chart.agree_self wf.upward b⟩
        · exact ⟨fun hbt => (hagree b hb).1 hbt.within, (hagree b hb).2⟩
      | parallel =>
        simp only [hk] at h
        refine compatible_openRegions wf hdown ih (fun _ hr => hr) (by simp [Node.isParallel, hk])
          hadd (fun b hb => ?_) h
        rcases mem_addState.mp hb with rfl | hb
        · exact Chart.agree_self wf.upward b
        · exact (hagree b hb).2

end EntryPlan

end Statechart

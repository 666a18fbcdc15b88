import Statechart.Proofs.FullConfiguration
import Statechart.Proofs.TargetCompatibility

/-!
States that are active at once. The targets of a transition are checked two by two, yet what is
meant is that all of them can be active together. Nothing is lost by that: states of which any two
meet in a parallel state never ask one compound state for two of its regions, so the demands that
they make on the way down from the root are one choice of regions, and what this choice leads to is
active.
-/
namespace Statechart

open Ancestry (below_of_parent)
open Chart (root)

namespace Chart

variable {c : Chart} {k q s : Nat} {ts : List Nat}

/-- Whether one of the targets is the state or lies below it. -/
def sought (c : Chart) (ts : List Nat) (k : Nat) : Bool :=
  ts.any fun t => t == k || c.isDescendant t k

/-- The region in which some of the targets lie, or else the first. -/
def towards (c : Chart) (ts : List Nat) (q : Nat) : Nat :=
  ((c.regions q).find? (c.sought ts)).getD ((c.regions q).headD root)

theorem sought_iff : c.sought ts k = true ↔ ∃ t ∈ ts, c.Within t k := by
  simp [sought, isDescendant, Ancestry.isDescendant_iff, Within, Ancestry.Within]

section WellFormed

variable (wf : c.WellFormed)
include wf

theorem towards_mem_regions (hq : (c.node q).isCompound = true) : c.towards ts q ∈ c.regions q := by
  unfold towards
  cases hf : (c.regions q).find? (c.sought ts) with
  | some k => exact List.mem_of_find?_eq_some hf
  | none =>
    obtain ⟨k, hk⟩ := wf.exists_region q (.inl hq)
    cases hr : c.regions q with
    | nil => simp [hr] at hk
    | cons r rs => simp

/-- A compound state has no choice where a target lies below it. -/
theorem towards_eq (hagree : ∀ t ∈ ts, ∀ u ∈ ts, c.Agree t u) (hq : (c.node q).isCompound = true)
    (hk : k ∈ c.regions q) (hsought : c.sought ts k = true) : c.towards ts q = k := by
  obtain ⟨l, hl⟩ : ∃ l, (c.regions q).find? (c.sought ts) = some l := by
    apply Option.isSome_iff_exists.mp
    rw [List.find?_isSome]
    exact ⟨k, hk, hsought⟩
  obtain ⟨t, ht, htk⟩ := sought_iff.mp hsought
  obtain ⟨u, hu, hul⟩ := sought_iff.mp (List.find?_some hl)
  have hkq := (wf.mem_regions.mp hk).1
  have hlq := (wf.mem_regions.mp (List.mem_of_find?_eq_some hl)).1
  rw [towards, hl, Option.getD_some]
  refine ((hagree t ht u hu q k l hkq hlq htk hul).resolve_right ?_).symm
  simp [Node.not_parallel_of_compound hq]

/-- The choice leads to every target and to all that lies above one. -/
theorem generated_of_sought (hagree : ∀ t ∈ ts, ∀ u ∈ ts, c.Agree t u)
    (hts : ∀ t ∈ ts, t < c.size ∧ c.isHistory t = false) (hs : c.sought ts s = true) :
    c.Generated (c.towards ts) s := by
  induction s using Nat.strongRecOn with
  | ind s ih =>
    by_cases hroot : s = root
    · exact hroot ▸ .root
    obtain ⟨t, ht, hwithin⟩ := sought_iff.mp hs
    obtain ⟨hlt, hreal⟩ := hts t ht
    obtain ⟨p, hp⟩ :=
      wf.exists_parent (wf.below_root s (Nat.lt_of_le_of_lt (hwithin.le wf.upward) hlt) hroot)
    have hregion : s ∈ c.regions p := by
      refine wf.mem_regions.mpr ⟨hp, ?_⟩
      rcases hwithin with rfl | hbelow
      · exact hreal
      · exact wf.not_history_of_below hbelow
    have hparent : c.Generated (c.towards ts) p := by
      refine ih p (wf.upward s p hp) (sought_iff.mpr ⟨t, ht, ?_⟩)
      exact (hwithin.trans_below wf.upward (below_of_parent wf.upward hp)).within
    rcases wf.inner_of_parent hp with hc | hpar
    · rw [← towards_eq wf hagree hc hregion hs]
      exact .chosen hparent hc
    · exact .every hparent hpar hregion

end WellFormed

end Chart

/-! ### The check of a list -/

namespace Outline.Resolves

variable {o : Outline} {c : Chart} (h : o.Resolves c)
include h

theorem parallel_iff {q : Nat} : (o.state q).kind = .parallel ↔ (c.node q).isParallel = true := by
  refine ⟨h.isParallel, fun hq => ?_⟩
  by_cases hlt : q < o.states.size
  · have hkind := h.kindOf hlt
    rw [Node.isParallel_iff.mp hq] at hkind
    cases hkind with
    | parallel hk => exact hk
  · rw [h.node_of_not_lt hlt] at hq
    exact absurd hq (by decide)

/-- The check of a pair finds out whether the states are apart. -/
theorem compatible_iff_apart (up : Ancestry.Upward c.parent) {a b : Nat} (ha : c.Below a root)
    (hb : c.Below b root) : Validation.compatible o a b = true ↔ c.Apart a b := by
  refine ⟨h.apart_of_compatible up, fun hab => ?_⟩
  have hd (s t : Nat) : o.isDescendant s t = true ↔ c.Below s t := by
    rw [Outline.isDescendant, ← h.parent_eq, Ancestry.isDescendant_iff]
  have hne : a ≠ b := fun he => hab.not_within (.inl he)
  obtain ⟨hnot, hnot', q, hq, hparallel⟩ := (Chart.apart_iff_meetsInParallel up ha hb hne).mp hab
  rw [compatible_iff_meet, hd, hd, Outline.lowestCommonAncestor?, ← h.parent_eq]
  exact ⟨⟨⟨hne, hnot⟩, hnot'⟩, q, hq, h.parallel_iff.mpr hparallel⟩

end Outline.Resolves

namespace Configuration

variable {c : Chart} {choice : Nat → Nat} {ts : List Nat}

open Classical in
/-- Whatever region is chosen in each compound state, some configuration follows the choice. -/
theorem exists_follows (wf : c.WellFormed)
    (hchoice : ∀ q, (c.node q).isCompound = true → choice q ∈ c.regions q) :
    ∃ x : Configuration, x.Follows c choice := by
  have hlt {s : Nat} (hs : c.Generated choice s) (hne : s ≠ root) : s < c.size := by
    cases hs with
    | root => exact absurd rfl hne
    | @chosen q _ hc => exact Chart.lt_size_of_parent (wf.mem_regions.mp (hchoice q hc)).1
    | every _ _ hk => exact Chart.lt_size_of_parent (wf.mem_regions.mp hk).1
  refine ⟨(StateSet.ofList (List.range c.size)).filter
    fun s => s ≠ root ∧ c.Generated choice s, fun q _ hc => hchoice q hc, fun s => ?_⟩
  simp only [StateSet.mem_filter, StateSet.mem_ofList, List.mem_range, decide_eq_true_eq,
    and_iff_right_iff_imp]
  exact fun h => hlt h.2 h.1

/-- States of which any two are apart are active together in some full configuration. -/
theorem exists_full_of_apart (wf : c.WellFormed) (hapart : ts.Pairwise c.Apart)
    (hts : ∀ t ∈ ts, t < c.size ∧ t ≠ root ∧ c.isHistory t = false) :
    ∃ x : Configuration, x.Full c ∧ ∀ t ∈ ts, t ∈ x := by
  have hagree : ∀ t ∈ ts, ∀ u ∈ ts, c.Agree t u := by
    intro t ht u hu
    by_cases htu : t = u
    · exact htu ▸ Chart.agree_self wf.upward t
    · exact (hapart.forall ht hu htu).agree
  obtain ⟨x, hx⟩ : ∃ x : Configuration, x.Follows c (c.towards ts) :=
    exists_follows wf fun q hq => Chart.towards_mem_regions wf hq
  refine ⟨x, ⟨_, hx⟩, fun t ht => (hx.mem_iff t).mpr ⟨(hts t ht).2.1, ?_⟩⟩
  exact Chart.generated_of_sought wf hagree (fun u hu => ⟨(hts u hu).1, (hts u hu).2.2⟩)
    (Chart.sought_iff.mpr ⟨t, ht, .refl c.parent t⟩)

/-- A list of states passes the check of targets exactly when any two of them are different and
neither is below the other, and all of them are active at once in some valid configuration; and then
there is one that follows a choice of regions from the root on. -/
theorem distinctRegions_iff_exists_full {d : ChartDecl} (hb : d.build = .ok c)
    (hts : ∀ t ∈ ts, t < c.size ∧ t ≠ root ∧ c.isHistory t = false) :
    (Validation.distinctRegions (Outline.ofDecl d.root) ts = true ↔
      ts.Pairwise (fun a b => a ≠ b ∧ ¬c.Below a b ∧ ¬c.Below b a) ∧
        ∃ x : Configuration, x.validate c = .ok () ∧ ∀ t ∈ ts, t ∈ x) ∧
    (Validation.distinctRegions (Outline.ofDecl d.root) ts = true →
      ∃ x : Configuration, x.Full c ∧ x.validate c = .ok () ∧ ∀ t ∈ ts, t ∈ x) := by
  have wf := ChartDecl.wellFormed_of_build hb
  obtain ⟨-, res, -⟩ := d.resolves_of_build hb
  have hroot : ∀ t ∈ ts, c.Below t root := fun t ht => wf.below_root t (hts t ht).1 (hts t ht).2.1
  have hcheck : Validation.distinctRegions (Outline.ofDecl d.root) ts = true ↔
      ts.Pairwise c.Apart := by
    rw [Outline.distinctRegions_iff]
    exact List.Pairwise.iff_of_mem fun ha hb =>
      res.compatible_iff_apart wf.upward (hroot _ ha) (hroot _ hb)
  have hfull (hapart : ts.Pairwise c.Apart) :
      ∃ x : Configuration, x.Full c ∧ x.validate c = .ok () ∧ ∀ t ∈ ts, t ∈ x := by
    obtain ⟨x, ⟨choice, hx⟩, hmem⟩ := exists_full_of_apart wf hapart hts
    exact ⟨x, ⟨choice, hx⟩, (validate_eq_ok_iff wf).mpr (.inr (hx.valid wf)), hmem⟩
  rw [hcheck]
  refine ⟨⟨fun hapart => ?_, ?_⟩, hfull⟩
  · obtain ⟨x, -, hx, hmem⟩ := hfull hapart
    refine ⟨hapart.imp fun hab => ⟨fun he => hab.not_within (.inl he), ?_, ?_⟩, x, hx, hmem⟩
    · exact fun h => hab.not_within h.within
    · exact fun h => hab.not_within' h.within
  · rintro ⟨hpair, x, hx, hmem⟩
    refine hpair.imp_of_mem fun ha hb ⟨hne, hnot, hnot'⟩ => ?_
    refine ⟨fun h => h.elim hne hnot, fun h => h.elim (fun he => hne he.symm) hnot', ?_⟩
    have hvalid := (validate_eq_ok_iff_of_mem wf (hmem _ ha)).mp hx
    exact hvalid.compatible wf _ (hmem _ ha) _ (hmem _ hb)

/-- Slow flashing on the road and a clear light on the rail go together; two ways of flashing on the
road do not, although neither is below the other. -/
theorem signals_together : signals.build = .ok signals.chart ∧
    (∀ t ∈ [5, 9], t < signals.chart.size ∧ t ≠ root ∧ signals.chart.isHistory t = false) ∧
    (∃ x : Configuration, x.Full signals.chart ∧ 5 ∈ x ∧ 9 ∈ x) ∧
    ¬∃ x : Configuration, x.validate signals.chart = .ok () ∧ ∀ t ∈ [5, 6], t ∈ x := by
  have hb : signals.build = .ok signals.chart := ChartDecl.build_eq_chart (by decide +kernel)
  have hts : ∀ t ∈ [5, 9], t < signals.chart.size ∧ t ≠ root ∧
      signals.chart.isHistory t = false := by decide +kernel
  have hts' : ∀ t ∈ [5, 6], t < signals.chart.size ∧ t ≠ root ∧
      signals.chart.isHistory t = false := by decide +kernel
  obtain ⟨x, hx, -, hmem⟩ := (distinctRegions_iff_exists_full hb hts).2 (by decide +kernel)
  refine ⟨hb, hts, ⟨x, hx, hmem 5 (by simp), hmem 9 (by simp)⟩, fun hall => ?_⟩
  have hpair : [5, 6].Pairwise fun a b =>
      a ≠ b ∧ ¬signals.chart.Below a b ∧ ¬signals.chart.Below b a := by
    simp only [Chart.Below, ← Ancestry.isDescendant_iff]
    decide +kernel
  have haccepted := (distinctRegions_iff_exists_full hb hts').1.mpr ⟨hpair, hall⟩
  exact absurd haccepted (by decide +kernel)

end Configuration

end Statechart

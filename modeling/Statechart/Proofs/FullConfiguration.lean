import Statechart.Proofs.ValidConfiguration

/-!
Full configurations. A chart that runs is in one region of every compound state it is in, and in all
regions of every parallel one. The check of a configuration compares each active state with its
parent and its children only; yet what it accepts, but for the empty configuration, are exactly the
sets that come of choosing a region in every compound state that is reached from the root.
-/
namespace Statechart

namespace Chart

/-- The states that a choice of regions leads to: the root, with a compound state the region chosen
there, and with a parallel state all of its regions. -/
inductive Generated (c : Chart) (choice : Nat → Nat) : Nat → Prop
  | root : Generated c choice Chart.root
  | chosen {q : Nat} : Generated c choice q → (c.node q).isCompound = true →
      Generated c choice (choice q)
  | every {q k : Nat} : Generated c choice q → (c.node q).isParallel = true → k ∈ c.regions q →
      Generated c choice k

end Chart

namespace Configuration

/-- The choice names a region of every compound state that it leads to, and the active states are
those that it leads to below the root. -/
structure Follows (c : Chart) (choice : Nat → Nat) (x : Configuration) : Prop where
  region : ∀ q, c.Generated choice q → (c.node q).isCompound = true → choice q ∈ c.regions q
  mem_iff : ∀ s, s ∈ x ↔ s ≠ Chart.root ∧ c.Generated choice s

def Full (c : Chart) (x : Configuration) : Prop := ∃ choice, x.Follows c choice

variable {c : Chart} {choice : Nat → Nat} {x : Configuration} {k q s : Nat}

/-! ### From choices to configurations -/

namespace Follows

variable (wf : c.WellFormed) (h : x.Follows c choice)
include h

theorem active_iff : x.Active s ↔ c.Generated choice s := by
  unfold Active
  rw [h.mem_iff]
  by_cases hs : s = Chart.root
  · simp [hs, Chart.Generated.root]
  · simp [hs]

/-- Every state but the root has come with its parent, as the region chosen there or as one of
all. -/
theorem exists_parent (hs : c.Generated choice s) (hne : s ≠ Chart.root) :
    ∃ q, s ∈ c.regions q ∧ c.Generated choice q ∧
      ((c.node q).isCompound = true → s = choice q) := by
  cases hs with
  | root => exact absurd rfl hne
  | @chosen q hq hc => exact ⟨q, h.region q hq hc, hq, fun _ => rfl⟩
  | @every q _ hq hp hk =>
    refine ⟨q, hk, hq, fun hc => ?_⟩
    rw [Node.not_parallel_of_compound hc] at hp
    cases hp

include wf

/-- The same for a given parent. -/
theorem of_region (hk : k ∈ c.regions q) (hkg : c.Generated choice k) :
    c.Generated choice q ∧ ((c.node q).isCompound = true → k = choice q) := by
  have hparent := (wf.mem_regions.mp hk).1
  have hne := wf.ne_root_of_below (Ancestry.below_of_parent wf.upward hparent)
  obtain ⟨q', hk', hq', hchoice⟩ := h.exists_parent hkg hne
  obtain rfl : q = q' := Option.some.inj (hparent.symm.trans (wf.mem_regions.mp hk').1)
  exact ⟨hq', hchoice⟩

theorem valid : x.Valid c := by
  have hregion : ∀ s ∈ x, ∃ q, s ∈ c.regions q ∧ c.Generated choice q := by
    intro s hs
    obtain ⟨hne, hg⟩ := (h.mem_iff s).mp hs
    obtain ⟨q, hsq, hq, -⟩ := h.exists_parent hg hne
    exact ⟨q, hsq, hq⟩
  have hmem : ∀ q, ∀ k ∈ c.regions q, c.Generated choice k → k ∈ x := by
    intro q k hk hkg
    have hbelow := Ancestry.below_of_parent wf.upward (wf.mem_regions.mp hk).1
    exact (h.mem_iff k).mpr ⟨wf.ne_root_of_below hbelow, hkg⟩
  refine ⟨fun s hs => ?_, fun s hs => ?_, fun s hs p hp => ?_, fun q hq hc => ?_,
    fun q hq hp k hk => ?_⟩
  · obtain ⟨q, hsq, -⟩ := hregion s hs
    exact Chart.lt_size_of_parent (wf.mem_regions.mp hsq).1
  · obtain ⟨q, hsq, -⟩ := hregion s hs
    exact (wf.mem_regions.mp hsq).2
  · obtain ⟨q, hsq, hq⟩ := hregion s hs
    obtain rfl : p = q := Option.some.inj (hp.symm.trans (wf.mem_regions.mp hsq).1)
    exact h.active_iff.mpr hq
  · have hqg := h.active_iff.mp hq
    refine ⟨choice q, h.region q hqg hc, hmem q _ (h.region q hqg hc) (.chosen hqg hc), ?_⟩
    exact fun l hl hlx => (h.of_region wf hl ((h.mem_iff l).mp hlx).2).2 hc
  · exact hmem q k hk (.every (h.active_iff.mp hq) hp hk)

end Follows

/-! ### From configurations to choices -/

/-- The first active region. -/
def chosenIn (c : Chart) (x : Configuration) (q : Nat) : Nat :=
  ((c.regions q).find? x.contains).getD Chart.root

/-- An active compound state has chosen its only active region. -/
theorem chosenIn_spec (hq : x.Single c q) :
    x.chosenIn c q ∈ c.regions q ∧ x.chosenIn c q ∈ x ∧
      ∀ k ∈ c.regions q, k ∈ x → k = x.chosenIn c q := by
  obtain ⟨k, hk, hkx, huniq⟩ := hq
  obtain ⟨l, hl⟩ : ∃ l, (c.regions q).find? x.contains = some l := by
    apply Option.isSome_iff_exists.mp
    rw [List.find?_isSome]
    exact ⟨k, hk, StateSet.contains_iff.mpr hkx⟩
  have hlq := List.mem_of_find?_eq_some hl
  have hlx := StateSet.contains_iff.mp (List.find?_some hl)
  have hchosen : x.chosenIn c q = l := by simp [chosenIn, hl]
  rw [hchosen]
  exact ⟨hlq, hlx, fun i hi hix => (huniq i hi hix).trans (huniq l hlq hlx).symm⟩

namespace Valid

variable (wf : c.WellFormed) (h : x.Valid c)
include h

theorem active_of_generated (hs : c.Generated (x.chosenIn c) s) : x.Active s := by
  induction hs with
  | root => exact x.active_root
  | chosen _ hc ih => exact .inr (chosenIn_spec (h.single _ ih hc)).2.1
  | every _ hp hk ih => exact .inr (h.every _ ih hp _ hk)

include wf

/-- Going down from the root, everything active is met. -/
theorem generated_of_mem (hs : s ∈ x) (hne : s ≠ Chart.root) :
    c.Generated (x.chosenIn c) s := by
  induction s using Nat.strongRecOn with
  | ind s ih =>
    obtain ⟨p, hp⟩ := wf.exists_parent (wf.below_root s (h.known s hs) hne)
    have hregion := wf.mem_regions.mpr ⟨hp, h.real s hs⟩
    have hactive := h.attached s hs p hp
    have hparent : c.Generated (x.chosenIn c) p := by
      by_cases hroot : p = Chart.root
      · exact hroot ▸ .root
      · exact ih p (wf.upward s p hp) (hactive.mem hroot) hroot
    rcases wf.inner_of_parent hp with hc | hpar
    · rw [(chosenIn_spec (h.single p hactive hc)).2.2 s hregion hs]
      exact .chosen hparent hc
    · exact .every hparent hpar hregion

theorem follows (hroot : Chart.root ∉ x) : x.Follows c (x.chosenIn c) where
  region q hq hc := (chosenIn_spec (h.single q (h.active_of_generated hq) hc)).1
  mem_iff s := by
    constructor
    · intro hs
      have hne : s ≠ Chart.root := fun he => hroot (he ▸ hs)
      exact ⟨hne, h.generated_of_mem wf hs hne⟩
    · rintro ⟨hne, hg⟩
      exact (h.active_of_generated hg).mem hne

end Valid

/-- Of the sets of states without the root the check accepts the empty one and the full
configurations, and no other; a set with a number that is no state is refused. -/
theorem validate_iff_full {d : ChartDecl} (hb : d.build = .ok c) :
    (∀ x : Configuration, Chart.root ∉ x →
      (x.validate c = .ok () ↔ x.isEmpty = true ∨ x.Full c)) ∧
    ∀ x : Configuration, (∃ s ∈ x, ¬s < c.size) → ∃ v, x.validate c = .error v := by
  have wf := ChartDecl.wellFormed_of_build hb
  refine ⟨fun x hroot => ?_, ?_⟩
  · rw [validate_eq_ok_iff wf]
    refine or_congr_right ⟨fun hv => ⟨_, hv.follows wf hroot⟩, ?_⟩
    rintro ⟨choice, hfollows⟩
    exact hfollows.valid wf
  · rintro x ⟨s, hs, hout⟩
    cases hval : x.validate c with
    | error v => exact ⟨v, rfl⟩
    | ok _ => exact absurd (((validate_eq_ok_iff_of_mem wf hs).mp hval).known s hs) hout

end Configuration

/-- Two lights at a level crossing, one of which can flash in two ways. -/
def signals : ChartDecl where
  name := "Signals"
  states := [((StateDecl.parallel "lights").withChild
    ((((StateDecl.plain "road").withChild (.history "last" .shallow)).withChild
      (((StateDecl.plain "flashing").withChild (.plain "slow")).withChild (.plain "fast"))).withChild
        (.plain "dark"))).withChild ((StateDecl.plain "rail").withChild (.plain "clear"))]

namespace Configuration

/-- With both ways of flashing at once, or with a light that does not flash in any, a set is no full
configuration. -/
theorem signals_full : signals.build = .ok signals.chart ∧
    (∃ x : Configuration, Chart.root ∉ x ∧ x.toList = [1, 2, 4, 6, 8, 9] ∧ x.Full signals.chart) ∧
    (∃ x : Configuration, x.toList = [1, 2, 4, 5, 6, 8, 9] ∧ ¬x.Full signals.chart) ∧
    (∃ x : Configuration, x.toList = [1, 2, 4, 8, 9] ∧ ¬x.Full signals.chart) ∧
    ∃ (x : Configuration) (v : ConfigurationViolation), 10 ∈ x ∧ signals.chart.size = 10 ∧
      x.validate signals.chart = .error v := by
  have hb : signals.build = .ok signals.chart := ChartDecl.build_eq_chart (by decide +kernel)
  obtain ⟨hfull, hout⟩ := validate_iff_full hb
  have hnot (x : Configuration) (hroot : Chart.root ∉ x)
      (h : (x.validate signals.chart).toOption = none) : ¬x.Full signals.chart := by
    intro hf
    rw [(hfull x hroot).mpr (.inr hf)] at h
    cases h
  obtain ⟨v, hv⟩ := hout (StateSet.ofList [1, 10]) ⟨10, by decide, by decide +kernel⟩
  refine ⟨hb, ⟨StateSet.ofList [1, 2, 4, 6, 8, 9], by decide, by decide, ?_⟩,
    ⟨StateSet.ofList [1, 2, 4, 5, 6, 8, 9], by decide, ?_⟩,
    ⟨StateSet.ofList [1, 2, 4, 8, 9], by decide, ?_⟩, _, v, by decide, by decide +kernel, hv⟩
  · exact ((hfull _ (by decide)).mp (by decide +kernel)).resolve_left (by decide)
  · exact hnot _ (by decide) (by decide +kernel)
  · exact hnot _ (by decide) (by decide +kernel)

end Configuration

end Statechart

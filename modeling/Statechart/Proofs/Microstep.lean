import Statechart.Proofs.Arrival
import Statechart.Proofs.Recording
import Statechart.Proofs.TransitionEntry

/-!
Microsteps out of valid configurations. The domains of transitions taken together are active and
stay so, and what a domain loses is entered again. So a microstep can go wrong in three ways only:
it may leave a state without its parent, a parallel root without a region, or a compound state with
two. While the domains are what they were on selection the first two are excluded; the third comes
of entering something that lies outside the domains, or something twice. When history states are
entered from outside and stand apart from other targets nothing goes wrong at all.
-/
namespace Statechart

open Ancestry (below_of_parent within_parent_of_below)
open Chart (root)
open Command (applyAll)

namespace Chart

variable {c : Chart} {x : Configuration} {m : Memory} {ts : List Transition} {t u : Transition}
  {d e q : Nat}

/-- Domains of transitions taken together are the same or unrelated. -/
theorem Ready.eq_or_unrelated (ready : c.Ready x m ts) (ht : t ∈ ts) (hu : u ∈ ts)
    (hd : c.domain? m t = some (some d)) (he : c.domain? m u = some (some e)) :
    d = e ∨ ¬c.Within d e ∧ ¬c.Within e d := by
  have : Std.Symm fun t u : Transition => ∀ d e, c.domain? m t = some (some d) →
      c.domain? m u = some (some e) → ¬c.Within d e ∧ ¬c.Within e d :=
    ⟨fun t u h d e hd he => (h e d he hd).symm⟩
  by_cases htu : t = u
  · subst htu
    exact .inl (Option.some.inj (Option.some.inj (hd.symm.trans he)))
  · exact .inr (ready.unrelated.forall ht hu htu d e hd he)

/-- The domains are the same under both memories. -/
def Steady (c : Chart) (m m' : Memory) (ts : List Transition) : Prop :=
  ∀ t ∈ ts, c.domain? m' t = c.domain? m t

end Chart

/-- Everything entered lies below the domain of a transition taken. -/
def Script.Confined (c : Chart) (m : Memory) (ts : List Transition) (script : Script) : Prop :=
  ∀ s ∈ script.entered, ∃ t ∈ ts, ∃ d, c.domain? m t = some (some d) ∧ c.Below s d

namespace Script.Made

variable {c : Chart} {x : Configuration} {m : Memory} {ts : List Transition} {script : Script}
  {exits : StateSet} {outside : Configuration} {plan : EntryPlan} {t : Transition} {d i k q s : Nat}

section Exits

variable (wf : c.WellFormed) (ready : c.Ready x m ts) (made : Made c x m ts script exits outside plan)
include wf made

theorem ne_root_of_exited (h : i ∈ exits) : i ≠ root := by
  obtain ⟨-, t, -, d, -, hid⟩ := (made.mem_exits i).mp h
  exact wf.ne_root_of_below hid

/-- Below an exited state everything is exited. -/
theorem exited_of_below (h : q ∈ exits) (hs : s ∈ x) (hsq : c.Below s q) : s ∈ exits := by
  obtain ⟨-, t, ht, d, hd, hqd⟩ := (made.mem_exits q).mp h
  exact (made.mem_exits s).mpr ⟨hs, t, ht, d, hd, hsq.trans wf.upward hqd⟩

/-- The parent of an exited state is exited, unless it is the domain. -/
theorem parent_exited_or_domain (hx : x.Valid c) (h : i ∈ exits) (hp : c.parent i = some q) :
    q ∈ exits ∨ ∃ t ∈ ts, c.domain? m t = some (some q) := by
  obtain ⟨hix, t, ht, d, hd, hid⟩ := (made.mem_exits i).mp h
  rcases within_parent_of_below wf.upward hp hid with rfl | hqd
  · exact .inr ⟨t, ht, hd⟩
  · refine .inl ((made.mem_exits q).mpr ⟨?_, t, ht, d, hd, hqd⟩)
    exact (hx.attached i hix q hp).mem (wf.ne_root_of_below hqd)

include ready in
/-- Nothing at or above a domain is exited. -/
theorem not_exited_of_domain (ht : t ∈ ts) (hd : c.domain? m t = some (some d))
    (hq : c.Within d q) : q ∉ exits := by
  intro h
  obtain ⟨-, u, hu, e, he, hqe⟩ := (made.mem_exits q).mp h
  have hde := hq.trans_below wf.upward hqe
  rcases ready.eq_or_unrelated ht hu hd he with rfl | hun
  · exact Ancestry.not_below_self wf.upward d hde
  · exact hun.1 hde.within

include ready in
/-- The memory of everything above a domain stays as it was. -/
theorem memory_above_domain (ht : t ∈ ts) (hd : c.domain? m t = some (some d)) {h : Nat}
    (hp : c.parent h = some q) (hdq : c.Below d q) : m.get? h = script.memory.get? h := by
  have hkept := not_exited_of_domain wf ready made ht hd hdq.within
  rw [made.memory_eq, Chart.get?_recordHistory_of_kept wf hp hkept]

end Exits

section Valid

variable (wf : c.WellFormed) (hx : x.Valid c) (filled : m.Filled c) (ready : c.Ready x m ts)
  (made : Made c x m ts script exits outside plan)
include wf hx made

theorem memory_sound (sound : m.Sound c) : script.memory.Sound c := by
  rw [made.memory_eq]
  exact sound.recordHistory wf hx fun s hs => ((made.mem_exits s).mp hs).1

theorem memory_filled (filled : m.Filled c) : script.memory.Filled c := by
  rw [made.memory_eq]
  exact filled.recordHistory wf hx fun s hs => ((made.mem_exits s).mp hs).1

theorem memory_faithful (faithful : m.Faithful c) : script.memory.Faithful c := by
  rw [made.memory_eq]
  exact faithful.recordHistory wf hx fun s hs => ((made.mem_exits s).mp hs).1

/-- A state that stays active keeps its active children, unless it is the domain. -/
theorem children_stay_or_domain (hq : q ∉ exits) (hk : k ∈ x) (hp : c.parent k = some q) :
    k ∈ outside ∨ ∃ t ∈ ts, c.domain? m t = some (some q) := by
  by_cases hke : k ∈ exits
  · exact .inr ((parent_exited_or_domain wf made hx hke hp).resolve_left hq)
  · exact .inl ((made.mem_outside k).mpr ⟨hk, hke⟩)

include filled

theorem plan_spec (hts : ∀ t ∈ ts, c.Declared t) :
    EntryPlan.Extends c (fun s => ∃ t ∈ ts, EntryPlan.Opens c script.memory t s)
        (fun q => ∃ t ∈ ts, EntryPlan.Bounds c script.memory t q) {} plan ∧
      ∀ t ∈ ts, EntryPlan.Takes c outside script.memory t plan :=
  EntryPlan.extends_foldlM wf (memory_filled wf hx made filled) hts made.plan_eq

include ready

/-- Every domain, as it was on selection, is entered again. -/
theorem exists_planned_below_domain (ht : t ∈ ts) (hd : c.domain? m t = some (some d)) :
    ∃ u ∈ plan.states, c.Below u d := by
  have hdecl := ready.declared t ht
  have filled' := memory_filled wf hx made filled
  obtain ⟨es, hes, hne, henc⟩ := Chart.exists_encloses wf filled.proper hdecl hd
  have htakes := (plan_spec wf hx filled made ready.declared).2 t ht
  have hpos : t.targets ≠ [] := mt (Chart.effectiveTargets_eq_nil_iff wf hdecl hes filled).mpr hne
  obtain ⟨es', hes', hreach⟩ := htakes.resolved
  have hbelow := Chart.effective_below_of_memory wf hdecl filled filled'
    (fun h q _ hp hdq => memory_above_domain wf ready made ht hd hp hdq) hes henc.targets hes'
  have hne' : es' ≠ [] := mt (Chart.effectiveTargets_eq_nil_iff wf hdecl hes' filled').mp hpos
  obtain ⟨e, es'', rfl⟩ := List.exists_cons_of_ne_nil hne'
  exact (hreach e (by simp)).exists_below wf (hbelow e (by simp))

end Valid

/-! ### What can go wrong -/

section Result

variable (wf : c.WellFormed) (hx : x.Valid c) (filled : m.Filled c) (ready : c.Ready x m ts)
  (made : Made c x m ts script exits outside plan)
include wf hx filled ready made

theorem below_root_of_planned (hs : s ∈ plan.states) : c.Below s root := by
  have hgrow := (plan_spec wf hx filled made ready.declared).1
  obtain ⟨t, ht, hopen⟩ := hgrow.scope s hs (StateSet.not_mem_empty s)
  exact EntryPlan.below_root_of_opens wf (ready.declared t ht) hopen

theorem known_result (hs : s ∈ applyAll x script.commands) :
    s < c.size ∧ c.isHistory s = false := by
  rcases (made.mem_result s).mp hs with hs | hs
  · have hsx := ((made.mem_outside s).mp hs).1
    exact ⟨hx.known s hsx, hx.real s hsx⟩
  · have hgrow := (plan_spec wf hx filled made ready.declared).1
    exact ⟨wf.lt_size_of_below (below_root_of_planned wf hx filled ready made hs),
      hgrow.real s hs (StateSet.not_mem_empty s)⟩

omit hx filled ready in
theorem active_result_iff : (applyAll x script.commands).Active q ↔
    x.Active q ∧ q ∉ exits ∨ q ∈ plan.states := by
  unfold Configuration.Active
  rw [made.mem_result, made.mem_outside]
  by_cases hq : q = root
  · have hne : q ∉ exits := fun h => ne_root_of_exited wf made h hq
    simp [hq, hq ▸ hne]
  · simp [hq]

/-- In an attached configuration some region of a state is active if something below it is. -/
theorem exists_region_of_below (hatt : (applyAll x script.commands).Attached c)
    (hs : s ∈ plan.states) (hsq : c.Below s q) :
    ∃ k ∈ c.regions q, k ∈ applyAll x script.commands := by
  have hmem := (made.mem_result s).mpr (.inr hs)
  obtain ⟨k, hk, hsk⟩ :=
    wf.exists_region_above hsq (known_result wf hx filled ready made hmem).2
  have hne := wf.ne_root_of_below (below_of_parent wf.upward (wf.mem_regions.mp hk).1)
  exact ⟨k, hk, hatt.mem_of_within wf hmem hsk hne⟩

/-- A compound state that is active has an active region. -/
theorem exists_active_region (hatt : (applyAll x script.commands).Attached c)
    (hq : (applyAll x script.commands).Active q) (hc : (c.node q).isCompound = true) :
    ∃ k ∈ c.regions q, k ∈ applyAll x script.commands := by
  rcases (active_result_iff wf made).mp hq with ⟨hqx, hqe⟩ | hqp
  · obtain ⟨k, hk, hkx, -⟩ := hx.single q hqx hc
    rcases children_stay_or_domain wf hx made hqe hkx (wf.mem_regions.mp hk).1 with hko | hdom
    · exact ⟨k, hk, (made.mem_result k).mpr (.inl hko)⟩
    · obtain ⟨t, ht, hd⟩ := hdom
      obtain ⟨u, hu, huq⟩ := exists_planned_below_domain wf hx filled ready made ht hd
      exact exists_region_of_below wf hx filled ready made hatt hu huq
  · have hgrow := (plan_spec wf hx filled made ready.declared).1
    obtain ⟨u, hu, huq⟩ := (hgrow.fills q hqp (StateSet.not_mem_empty q)).compound hc
    exact exists_region_of_below wf hx filled ready made hatt hu huq

/-- A parallel state that is active, other than the root, has all of its regions active. -/
theorem every_of_ne_root (hatt : (applyAll x script.commands).Attached c)
    (hq : (applyAll x script.commands).Active q) (hp : (c.node q).isParallel = true)
    (hne : q ≠ root) : (applyAll x script.commands).Every c q := by
  intro r hr
  obtain ⟨hpar, -⟩ := wf.mem_regions.mp hr
  rcases (active_result_iff wf made).mp hq with ⟨hqx, hqe⟩ | hqp
  · rcases children_stay_or_domain wf hx made hqe (hx.every q hqx hp r hr) hpar with hro | hdom
    · exact (made.mem_result r).mpr (.inl hro)
    · obtain ⟨t, ht, hd⟩ := hdom
      obtain ⟨es, -, -, henc⟩ := Chart.exists_encloses wf filled.proper (ready.declared t ht) hd
      simp [Node.not_parallel_of_compound (henc.inner.resolve_left hne)] at hp
  · have hgrow := (plan_spec wf hx filled made ready.declared).1
    obtain ⟨u, hu, hur⟩ := (hgrow.fills q hqp (StateSet.not_mem_empty q)).parallel hp r hr
    exact hatt.mem_of_within wf ((made.mem_result u).mpr (.inr hu)) hur
      (wf.ne_root_of_below (below_of_parent wf.upward hpar))

/-- A microstep out of a valid configuration ends in a valid one unless a state has lost its parent,
a parallel root one of its regions, or a compound state has got two. -/
theorem valid_iff : (applyAll x script.commands).Valid c ↔
    (applyAll x script.commands).Rooted c ∧ c.Exclusive (applyAll x script.commands) := by
  constructor
  · exact fun h => ⟨h.rooted, h.exclusive wf⟩
  · rintro ⟨⟨hatt, hroot⟩, hexcl⟩
    refine ⟨fun s hs => (known_result wf hx filled ready made hs).1,
      fun s hs => (known_result wf hx filled ready made hs).2, hatt, fun q hq hc => ?_,
      fun q hq hp => ?_⟩
    · obtain ⟨k, hk, hky⟩ := exists_active_region wf hx filled ready made hatt hq hc
      have hpar := Node.not_parallel_of_compound hc
      exact ⟨k, hk, hky, fun l hl hly => hexcl q hpar l hl k hk hly hky⟩
    · by_cases hne : q = root
      · exact hne ▸ hroot (hne ▸ hp)
      · exact every_of_ne_root wf hx filled ready made hatt hq hp hne

/-! ### What is entered -/

omit filled made in
/-- A domain agrees with every active state. -/
theorem agree_domain (ht : t ∈ ts) (hd : c.domain? m t = some (some d)) {b : Nat}
    (hb : x.Active b) : c.Agree d b := by
  have hact := (Chart.exists_active_below_domain wf hx (ready.declared t ht)
    (ready.source t ht) hd).1
  have hroot (s : Nat) (hs : x.Active s) : c.Within s root := by
    by_cases hne : s = root
    · exact .inl hne
    · exact .inr (wf.below_root s (hx.known s (hs.mem hne)) hne)
  rcases hact with rfl | hdx
  · exact Chart.agree_of_within wf.upward (hroot b hb)
  · rcases hb with rfl | hb
    · exact (Chart.agree_of_within wf.upward (hroot d (.inr hdx))).symm
    · exact hx.compatible wf d hdx b hb

omit filled in
/-- What lies below a domain agrees with everything that stays. -/
theorem agree_outside (ht : t ∈ ts) (hd : c.domain? m t = some (some d)) {a b : Nat}
    (ha : c.Below a d) (hb : b ∈ outside) : c.Agree a b := by
  obtain ⟨hbx, hbe⟩ := (made.mem_outside b).mp hb
  have hout : ¬c.Below b d := fun h => hbe ((made.mem_exits b).mpr ⟨hbx, t, ht, d, hd, h⟩)
  by_cases hbd : b = d
  · exact (Chart.agree_of_within wf.upward (hbd ▸ ha.within)).symm
  · exact (agree_domain wf hx ready ht hd (.inr hbx)).inside wf.upward ha.within
      fun h => h.elim hbd hout

/-- Whatever is new in a valid result lies below a domain: elsewhere its place is taken. -/
theorem below_domain_of_valid (hv : (applyAll x script.commands).Valid c)
    (hs : s ∈ applyAll x script.commands) (hso : s ∉ outside) :
    ∃ t ∈ ts, ∃ d, c.domain? m t = some (some d) ∧ c.Below s d := by
  induction s using Nat.strongRecOn with
  | ind s ih =>
    have hsr := below_root_of_planned wf hx filled ready made
      (((made.mem_result s).mp hs).resolve_left hso)
    obtain ⟨p, hp⟩ := wf.exists_parent hsr
    have hsp := below_of_parent wf.upward hp
    have hreg := wf.mem_regions.mpr ⟨hp, hv.real s hs⟩
    by_cases hpx : x.Active p ∧ p ∉ exits
    · -- The parent stays, so a child that is not below the domain stays as well.
      obtain ⟨hpx, hpe⟩ := hpx
      rcases wf.inner_of_parent hp with hc | hpar
      · obtain ⟨k, hk, hkx, -⟩ := hx.single p hpx hc
        rcases children_stay_or_domain wf hx made hpe hkx (wf.mem_regions.mp hk).1 with
          hko | ⟨t, ht, hd⟩
        · have hsk := hv.exclusive wf p (Node.not_parallel_of_compound hc) s hreg k hk hs
            ((made.mem_result k).mpr (.inl hko))
          exact absurd (hsk ▸ hko) hso
        · exact ⟨t, ht, p, hd, hsp⟩
      · rcases children_stay_or_domain wf hx made hpe (hx.every p hpx hpar s hreg) hp with
          hsout | ⟨t, ht, hd⟩
        · exact absurd hsout hso
        · exact ⟨t, ht, p, hd, hsp⟩
    · have hproot : p ≠ root := fun h => hpx ⟨.inl h, fun hpe => ne_root_of_exited wf made hpe h⟩
      have hpo : p ∉ outside := fun h =>
        hpx ⟨.inr ((made.mem_outside p).mp h).1, ((made.mem_outside p).mp h).2⟩
      obtain ⟨t, ht, d, hd, hpd⟩ :=
        ih p (wf.upward s p hp) ((hv.attached s hs p hp).mem hproot) hpo
      exact ⟨t, ht, d, hd, hsp.trans wf.upward hpd⟩

theorem confined_of_valid (hv : (applyAll x script.commands).Valid c) :
    script.Confined c m ts := by
  intro s hs
  obtain ⟨hsp, hso⟩ := (made.mem_entered s).mp hs
  exact below_domain_of_valid wf hx filled ready made hv ((made.mem_result s).mpr (.inr hsp)) hso

omit filled in
/-- Below the domains only what is entered can break an exclusion. -/
theorem exclusive_of_confined (hconf : script.Confined c m ts)
    (hexcl : c.Exclusive (StateSet.ofList script.entered)) :
    c.Exclusive (applyAll x script.commands) := by
  intro q hq k hk l hl hky hly
  have hmixed (k l : Nat) (hk : k ∈ c.regions q) (hl : l ∈ c.regions q) (hke : k ∈ script.entered)
      (hlo : l ∈ outside) : k = l := by
    obtain ⟨t, ht, d, hd, hkd⟩ := hconf k hke
    have hagree := agree_outside wf hx ready made ht hd hkd hlo
    exact (hagree q k l (wf.mem_regions.mp hk).1 (wf.mem_regions.mp hl).1 (.refl c.parent k)
      (.refl c.parent l)).resolve_right (by simp [hq])
  have hcases (s : Nat) (hs : s ∈ applyAll x script.commands) :
      s ∈ outside ∨ s ∈ script.entered := by
    by_cases hso : s ∈ outside
    · exact .inl hso
    · exact .inr ((made.mem_entered s).mpr ⟨((made.mem_result s).mp hs).resolve_left hso, hso⟩)
  rcases hcases k hky with hko | hke <;> rcases hcases l hly with hlo | hle
  · exact hx.exclusive wf q hq k hk l hl ((made.mem_outside k).mp hko).1
      ((made.mem_outside l).mp hlo).1
  · exact (hmixed l k hl hk hle hko).symm
  · exact hmixed k l hk hl hke hlo
  · exact hexcl q hq k hk l hl (StateSet.mem_ofList.mpr hke) (StateSet.mem_ofList.mpr hle)

/-- A microstep out of a valid configuration ends in a valid one exactly when nothing is missing above
what is active, nothing is entered outside the domains, and no compound state is entered twice. -/
theorem valid_iff_confined : (applyAll x script.commands).Valid c ↔
    (applyAll x script.commands).Rooted c ∧ script.Confined c m ts ∧
      c.Exclusive (StateSet.ofList script.entered) := by
  constructor
  · intro h
    obtain ⟨hrooted, hexcl⟩ := (valid_iff wf hx filled ready made).mp h
    refine ⟨hrooted, confined_of_valid wf hx filled ready made h, ?_⟩
    have hmem (s : Nat) (hs : s ∈ StateSet.ofList script.entered) :
        s ∈ applyAll x script.commands :=
      (made.mem_result s).mpr (.inr ((made.mem_entered s).mp (StateSet.mem_ofList.mp hs)).1)
    exact fun q hq k hk l hl hke hle => hexcl q hq k hk l hl (hmem k hke) (hmem l hle)
  · rintro ⟨hrooted, hconf, hexcl⟩
    exact (valid_iff wf hx filled ready made).mpr
      ⟨hrooted, exclusive_of_confined wf hx ready made hconf hexcl⟩

omit hx filled ready in
theorem exclusive_entered_of_compatible (h : c.Compatible plan.states) :
    c.Exclusive (StateSet.ofList script.entered) := by
  have hmem (s : Nat) (hs : s ∈ StateSet.ofList script.entered) : s ∈ plan.states :=
    ((made.mem_entered s).mp (StateSet.mem_ofList.mp hs)).1
  exact Configuration.exclusive_of_compatible wf fun a ha b hb => h a (hmem a ha) b (hmem b hb)

/-! ### Domains that stay what they were -/

section Steady

variable (steady : c.Steady m script.memory ts)
include steady

theorem attached_of_steady : (applyAll x script.commands).Attached c := by
  intro s hs p hp
  rw [active_result_iff wf made]
  rcases (made.mem_result s).mp hs with hs | hs
  · obtain ⟨hsx, hse⟩ := (made.mem_outside s).mp hs
    refine .inl ⟨hx.attached s hsx p hp, fun hpe => hse ?_⟩
    exact exited_of_below wf made hpe hsx (below_of_parent wf.upward hp)
  · have hgrow := (plan_spec wf hx filled made ready.declared).1
    rcases hgrow.linked s hs (StateSet.not_mem_empty s) p hp with hpp | ⟨t, ht, d, hd, hdp⟩
    · exact .inr hpp
    · rw [steady t ht] at hd
      have hact := (Chart.exists_active_below_domain wf hx (ready.declared t ht)
        (ready.source t ht) hd).1
      exact .inl ⟨hx.active_of_within wf hact hdp, not_exited_of_domain wf ready made ht hd hdp⟩

theorem every_root_of_steady (hp : (c.node root).isParallel = true) :
    (applyAll x script.commands).Every c root := by
  intro r hr
  obtain ⟨hpar, -⟩ := wf.mem_regions.mp hr
  have hrx := hx.every root (Configuration.active_root x) hp r hr
  have hroot : root ∉ exits := fun h => ne_root_of_exited wf made h rfl
  rw [made.mem_result]
  rcases children_stay_or_domain wf hx made hroot hrx hpar with hro | ⟨t, ht, hd⟩
  · exact .inl hro
  · have htakes := (plan_spec wf hx filled made ready.declared).2 t ht
    rcases htakes.regions ((steady t ht).trans hd) hp r hr with hro | ⟨u, hu, hur⟩
    · exact .inl hro
    · have hatt := attached_of_steady wf hx filled ready made steady
      rw [← made.mem_result]
      exact hatt.mem_of_within wf ((made.mem_result u).mpr (.inr hu)) hur
        (wf.ne_root_of_below (below_of_parent wf.upward hpar))

theorem rooted_of_steady : (applyAll x script.commands).Rooted c :=
  ⟨attached_of_steady wf hx filled ready made steady,
    every_root_of_steady wf hx filled ready made steady⟩

end Steady

/-! ### History states entered from outside -/

section Outside

variable (out : ∀ t ∈ ts, c.EntersFromOutside t)
include out

theorem steady_of_entersFromOutside (ht : t ∈ ts) :
    c.domain? script.memory t = c.domain? m t := by
  obtain ⟨es, hes⟩ := ready.resolved t ht
  obtain ⟨es', hes', -⟩ := ((plan_spec wf hx filled made ready.declared).2 t ht).resolved
  rw [Chart.domain?, Chart.domain?, hes, hes', Option.map_some, Option.map_some]
  exact congrArg some ((out t ht).domainOf_eq wf (ready.declared t ht)
    (memory_filled wf hx made filled) filled hes' hes)

omit hx made in
/-- Targets lie inside the domain. -/
theorem target_below_domain (ht : t ∈ ts) (hd : c.domain? m t = some (some d)) {u : Nat}
    (hu : u ∈ t.targets) : c.Below u d := by
  obtain ⟨es, hes, -, henc⟩ := Chart.exists_encloses wf filled.proper (ready.declared t ht) hd
  exact (out t ht).below wf (ready.declared t ht) filled hes henc hu

/-- What is planned lies inside a domain. -/
theorem exists_domain_of_planned (hs : s ∈ plan.states) :
    ∃ t ∈ ts, ∃ d, c.domain? m t = some (some d) ∧ c.Below s d := by
  have hgrow := (plan_spec wf hx filled made ready.declared).1
  obtain ⟨t, ht, hopen⟩ := hgrow.scope s hs (StateSet.not_mem_empty s)
  refine ⟨t, ht, ?_⟩
  rcases hopen with ⟨u, hu, hus⟩ | hopen
  · obtain ⟨es, hes⟩ := ready.resolved t ht
    obtain ⟨d, hd⟩ := Chart.exists_domain_of_target wf filled (ready.declared t ht) hes hu
    exact ⟨d, hd, wf.below_of_under (target_below_domain wf filled ready out ht hd hu) hus⟩
  · obtain ⟨d, hd, hsd⟩ := hopen
    exact ⟨d, (steady_of_entersFromOutside wf hx filled ready made out ht).symm.trans hd, hsd⟩

/-- When history states are entered only from outside, nothing can go wrong but that a compound state
is entered twice. -/
theorem valid_iff_of_entersFromOutside : (applyAll x script.commands).Valid c ↔
    c.Exclusive (StateSet.ofList script.entered) := by
  have steady : c.Steady m script.memory ts :=
    fun t ht => steady_of_entersFromOutside wf hx filled ready made out ht
  rw [valid_iff_confined wf hx filled ready made]
  refine ⟨fun h => h.2.2, fun hexcl =>
    ⟨rooted_of_steady wf hx filled ready made steady, fun s hs => ?_, hexcl⟩⟩
  exact exists_domain_of_planned wf hx filled ready made out ((made.mem_entered s).mp hs).1

end Outside

end Result

/-! ### Records that can be active together -/

section Sound

variable (wf : c.WellFormed) (hx : x.Valid c) (sound : m.Sound c) (ready : c.Ready x m ts)
  (made : Made c x m ts script exits outside plan)
include wf hx sound ready made

/-- Something is active in the end. -/
theorem exists_result (hs : s ∈ x) : ∃ i, i ∈ applyAll x script.commands := by
  by_cases hse : s ∈ exits
  · obtain ⟨-, t, ht, d, hd, -⟩ := (made.mem_exits s).mp hse
    obtain ⟨u, hu, -⟩ := exists_planned_below_domain wf hx sound.filled ready made ht hd
    exact ⟨u, (made.mem_result u).mpr (.inr hu)⟩
  · exact ⟨s, (made.mem_result s).mpr (.inl ((made.mem_outside s).mpr ⟨hs, hse⟩))⟩

section Separate

variable (sep : c.Separate) (hlone : ∀ t ∈ ts, c.Lone t.targets)
include sep hlone

/-- What a single transition enters does not break an exclusion by itself. -/
theorem exclusive_entered (hone : ts.length ≤ 1) : c.Exclusive (StateSet.ofList script.entered) := by
  have hplan : c.Compatible plan.states := by
    have heq := made.plan_eq
    have hempty : c.Compatible ({} : EntryPlan).states :=
      fun a ha => absurd ha (StateSet.not_mem_empty a)
    match ts, hone with
    | [], _ =>
      obtain rfl := Option.some.inj heq
      exact hempty
    | [t], _ =>
      simp only [EntryPlan.ofTransitions?, List.foldlM_cons, List.foldlM_nil, bind_pure] at heq
      exact EntryPlan.compatible_addTransition wf (memory_sound wf hx made sound)
        (ready.declared t (by simp)) sep (hlone t (by simp))
        (fun u _ b hb => absurd hb (StateSet.not_mem_empty b))
        (fun b hb => absurd hb (StateSet.not_mem_empty b)) hempty heq
  exact exclusive_entered_of_compatible wf made hplan

variable (out : ∀ t ∈ ts, c.EntersFromOutside t)
include out

theorem compatible_plan : c.Compatible plan.states := by
  have steady := fun t ht => steady_of_entersFromOutside wf hx sound.filled ready made out (t := t) ht
  refine EntryPlan.compatible_foldlM wf (memory_sound wf hx made sound) sep
    (fun t ht => ⟨ready.declared t ht, hlone t ht, fun d hd u hu => ?_⟩) ?_
    (fun b hb => absurd hb (StateSet.not_mem_empty b))
    (fun a ha => absurd ha (StateSet.not_mem_empty a))
    (fun t ht d hd b hb => absurd hb (StateSet.not_mem_empty b)) made.plan_eq
  · rw [steady t ht] at hd
    exact target_below_domain wf sound.filled ready out ht hd hu
  · apply ready.unrelated.imp_of_mem
    intro t u ht hu h d e hd he
    rw [steady t ht] at hd
    rw [steady u hu] at he
    have hact := (Chart.exists_active_below_domain wf hx (ready.declared u hu)
      (ready.source u hu) he).1
    exact ⟨(h d e hd he).1, (h d e hd he).2, agree_domain wf hx ready ht hd hact⟩

/-- A microstep that enters history states only from outside, each alone where its parent is
parallel, ends in a valid configuration. -/
theorem valid_of_entersFromOutside : (applyAll x script.commands).Valid c := by
  have hplan := compatible_plan wf hx sound ready made sep hlone out
  exact (valid_iff_of_entersFromOutside wf hx sound ready made out).mpr
    (exclusive_entered_of_compatible wf made hplan)

end Separate

end Sound

end Script.Made

/-- A microstep can be scripted when no chain of history defaults leads back to itself. -/
theorem Script.exists_take? {c : Chart} {x : Configuration} {m : Memory} {ts : List Transition}
    (wf : c.WellFormed) (g : c.Grounded) (hreal : ∀ s ∈ x, c.isHistory s = false)
    (proper : m.Proper c) (hts : ∀ t ∈ ts, c.Declared t) :
    ∃ script, take? c x m ts = some script := by
  obtain ⟨es, hes⟩ : ∃ es, ts.mapM (c.exitSet? x m) = some es := by
    apply exists_mapM_eq_some
    intro t ht
    obtain ⟨es, hes⟩ := Chart.exists_effectiveTargets? wf g (hts t ht)
    exact ⟨_, Chart.exitSet?_eq_some_iff.mpr
      ⟨_, Chart.domain?_eq_some_iff.mpr ⟨es, hes, rfl⟩, rfl⟩⟩
  have hexits : c.exits? x m ts = some (es.foldl StateSet.union StateSet.empty) := by
    simp [Chart.exits?, hes]
  obtain ⟨plan, hplan⟩ := EntryPlan.exists_foldlM wf
    (proper.recordHistory wf hreal (es.foldl StateSet.union StateSet.empty)) g hts
    ((es.foldl StateSet.union StateSet.empty).toList.reverse.foldl StateSet.erase x) {}
  simp only [take?, hexits, Option.bind_eq_bind, Option.bind_some]
  rw [show EntryPlan.ofTransitions? c _ _ ts = some plan from hplan]
  exact ⟨_, rfl⟩

end Statechart

import Statechart.Proofs.Domain
import Statechart.Proofs.Recording
import Statechart.Proofs.Selection

/-!
The domain of a transition before and after its microstep records history. What is recorded lies
below the domain, so the domain that is computed afterwards lies within it. It is another one only
if the targets come to lie deeper than before, and then the record of a deep history state has led
them back into the only region of a parallel state that is left.
-/
namespace Statechart.Chart

open Ancestry (below_of_parent child_unique)

variable {c : Chart} {m : Memory} {x : Configuration} {exits : StateSet} {t : Transition}
  {a b d e h k n q r s u : Nat} {es es' rs rs' : List Nat}

/-! ### What the record changes -/

/-- A history state that is written anew and stands for its record from then on. -/
structure Rewritten (c : Chart) (x : Configuration) (exits : StateSet) (es' : List Nat)
    (h q : Nat) : Prop where
  history : c.isHistory h = true
  parent : c.parent h = some q
  exited : q ∈ exits
  recorded : ∀ i ∈ c.recorded x h, i ∈ es'

section Resolving

variable (wf : c.WellFormed)
include wf

/-- A target that no longer stands for a state has led to a history state that is written anew. -/
theorem exists_rewritten_of_resolved (proper : m.Proper c) (ht : c.Below u root)
    (hrs : c.resolveTarget? m n u = some rs)
    (hrs' : c.resolveTarget? (c.recordHistory x m exits) n u = some rs')
    (hr : r ∈ rs) (hr' : r ∉ rs') : ∃ h q, c.Rewritten x exits rs' h q ∧ c.Below r q := by
  induction n generalizing u rs rs' with
  | zero => simp [resolveTarget?] at hrs
  | succ n ih =>
    cases hh : c.isHistory u with
    | false =>
      rw [resolveTarget?_of_not_history hh] at hrs hrs'
      obtain rfl := Option.some.inj (hrs.symm.trans hrs')
      exact absurd hr hr'
    | true =>
      obtain ⟨q, hq⟩ := wf.exists_parent ht
      have hunder := wf.under_of_resolved proper ht hrs r hr
      rw [resolveTarget?_of_history hh hq] at hrs hrs'
      by_cases hexit : q ∈ exits
      · -- The record takes the place of whatever the state stood for.
        have hget := get?_recordHistory_of_exited (x := x) (m := m) wf hq hh hexit
        have hstops : c.stops (c.recordHistory x m exits) u = true := by simp [stops, hget]
        rw [if_pos hstops, leads_of_record hget] at hrs'
        obtain rfl := Option.some.inj hrs'
        exact ⟨u, q, ⟨hh, hq, hexit, fun i hi => hi⟩, (under_of_history hh hq).mp hunder⟩
      · have hget := get?_recordHistory_of_kept (x := x) (m := m) wf hq hexit
        rw [stops_eq_of_get?_eq hget, leads_eq_of_get?_eq hget] at hrs'
        split at hrs
        · rename_i hstops
          rw [if_pos hstops] at hrs'
          obtain rfl := Option.some.inj (hrs.symm.trans hrs')
          exact absurd hr hr'
        · rename_i hstops
          rw [if_neg hstops] at hrs'
          obtain ⟨v, hv, ls, hvls, hrls⟩ := (mem_collected hrs).mp hr
          obtain ⟨ls', hvls', hsub⟩ := exists_collected hrs' hv
          have hvroot := wf.below_root_of_below (wf.leads_below proper hh hq v hv)
          obtain ⟨h, p, hrewritten, hrp⟩ := ih hvroot hvls hvls' hrls fun hmem => hr' (hsub r hmem)
          exact ⟨h, p, ⟨hrewritten.history, hrewritten.parent, hrewritten.exited,
            fun i hi => hsub i (hrewritten.recorded i hi)⟩, hrp⟩

theorem exists_rewritten (proper : m.Proper c) (ht : c.Declared t)
    (hes : c.effectiveTargets? m t = some es)
    (hes' : c.effectiveTargets? (c.recordHistory x m exits) t = some es')
    (he : e ∈ es) (he' : e ∉ es') : ∃ h q, c.Rewritten x exits es' h q ∧ c.Below e q := by
  obtain ⟨u, hu, rs, hrs, her⟩ := (mem_effectiveTargets hes).mp he
  obtain ⟨rs', hrs', hsub⟩ := exists_resolved hes' hu
  obtain ⟨h, q, hrewritten, heq⟩ := exists_rewritten_of_resolved wf proper (ht.targets u hu)
    hrs hrs' her fun hmem => he' (hsub e hmem)
  exact ⟨h, q, ⟨hrewritten.history, hrewritten.parent, hrewritten.exited,
    fun i hi => hsub i (hrewritten.recorded i hi)⟩, heq⟩

end Resolving

/-! ### Where the record leads -/

section Leading

variable (wf : c.WellFormed) (hx : x.Valid c) (hexits : ∀ i ∈ exits, i ∈ x)
include wf hx hexits

/-- A record below a state, while the parent of its history state has something below it that this
state has not, is that of a history state whose parent is further up. -/
theorem Rewritten.above (hrw : c.Rewritten x exits es' h q) (hes' : ∀ i ∈ es', c.Below i a)
    (heq : c.Below e q) (hea : ¬c.Below e a) : c.Below a q := by
  have hrestorable := restorable_recorded wf hx hrw.history hrw.parent (hexits q hrw.exited)
  obtain ⟨i, hi⟩ := List.exists_mem_of_ne_nil _ hrestorable.nonempty
  have hia := hes' i (hrw.recorded i hi)
  rcases (hrestorable.below i hi).within.total wf.upward hia.within with hqa | haq
  · exact absurd (heq.trans_within wf.upward hqa) hea
  · exact haq.resolve_left fun hsame => hea (hsame ▸ heq)

/-- Where some target was not below a state that all targets are below now, a history state of an
ancestor that has all of them below it is written anew. -/
theorem exists_rewritten_above (proper : m.Proper c) (ht : c.Declared t)
    (hes : c.effectiveTargets? m t = some es)
    (hes' : c.effectiveTargets? (c.recordHistory x m exits) t = some es')
    (hbelow : ∀ i ∈ es', c.Below i a) (he : e ∈ es) (hea : ¬c.Below e a) :
    ∃ h q, c.Rewritten x exits es' h q ∧ c.Below a q ∧ ∀ i ∈ es, c.Below i q := by
  induction a using Nat.strongRecOn generalizing e with
  | ind a ih =>
    obtain ⟨h, q, hrw, heq⟩ := exists_rewritten wf proper ht hes hes' he
      fun hmem => hea (hbelow e hmem)
    have haq := hrw.above wf hx hexits hbelow heq hea
    by_cases hall : ∀ i ∈ es, c.Below i q
    · exact ⟨h, q, hrw, haq, hall⟩
    · -- The same holds of the parent, which is further up.
      obtain ⟨i, hi, hiq⟩ : ∃ i ∈ es, ¬c.Below i q := by simpa using hall
      obtain ⟨h', q', hrw', hqq', hall'⟩ := ih q (haq.lt wf.upward)
        (fun j hj => (hbelow j hj).trans wf.upward haq) hi hiq
      exact ⟨h', q', hrw', haq.trans wf.upward hqq', hall'⟩

omit hexits in
/-- A record that stays below a state with an active state within is that of a deep history
state. -/
theorem Rewritten.deep (hrw : c.Rewritten x exits es' h q) (hes' : ∀ i ∈ es', c.Below i a)
    (hs : s ∈ x) (hsa : c.Within s a) (haq : c.Below a q) :
    ∃ default, (c.node h).kind = .history .deep default := by
  obtain ⟨depth, default, hkind⟩ := exists_kind_of_history hrw.history
  cases depth with
  | deep => exact ⟨default, hkind⟩
  | shallow =>
    exfalso
    obtain ⟨k, hk, hak⟩ := haq.exists_child wf.upward
    have hkx : k ∈ x := (hx.active_of_within wf (.inr hs) (hsa.trans wf.upward hak)).mem
      (wf.ne_root_of_below (below_of_parent wf.upward hk))
    have hrec : k ∈ c.recorded x h := by
      simp only [Chart.recorded, hkind, hrw.parent]
      exact (c.mem_toRecord x q .shallow).mpr ⟨hkx, hk⟩
    have hka := hes' k (hrw.recorded k hrec)
    exact Ancestry.not_below_self wf.upward k (hka.trans_within wf.upward hak)

/-- A parallel state whose active leaves all lie below a state further down has no other region. -/
theorem Rewritten.single_region (hrw : c.Rewritten x exits es' h q) (hes' : ∀ i ∈ es', c.Below i a)
    (hs : s ∈ x) (hsa : c.Within s a) (haq : c.Below a q) (hq : (c.node q).isParallel = true) :
    ∃ k, c.regions q = [k] := by
  obtain ⟨default, hkind⟩ := hrw.deep wf hx hes' hs hsa haq
  obtain ⟨k, hk, hak⟩ := haq.exists_child wf.upward
  have honly (l : Nat) (hl : l ∈ c.regions q) : l = k := by
    have hlq := (wf.mem_regions.mp hl).1
    have hlx := hx.every q (.inr (hexits q hrw.exited)) hq l hl
    obtain ⟨i, hi, hleaf, hil⟩ := exists_active_leaf_within wf hx hlx
    have hiq := hil.trans_below wf.upward (below_of_parent wf.upward hlq)
    have hrec : i ∈ c.recorded x h := by
      simp only [Chart.recorded, hkind, hrw.parent]
      exact (c.mem_toRecord x q .deep).mpr ⟨hi, hleaf, hiq⟩
    have hik := (hes' i (hrw.recorded i hrec)).within.trans wf.upward hak
    exact child_unique wf.upward hlq hk hil hik
  obtain ⟨l, hl⟩ := wf.exists_region q (.inr hq)
  have hdistinct := wf.regions_pairwise_ne q
  rcases hregions : c.regions q with _ | ⟨i, _ | ⟨j, ls⟩⟩
  · simp [hregions] at hl
  · exact ⟨i, rfl⟩
  · rw [hregions] at honly hdistinct
    exact absurd ((honly i (by simp)).trans (honly j (by simp)).symm)
      ((List.pairwise_cons.mp hdistinct).1 j (by simp))

end Leading

/-! ### Two domains -/

theorem ne_nil_of_domainOf (h : c.domainOf t es = some d) : es ≠ [] := by
  rintro rfl
  simp [domainOf] at h

/-- A domain lies within every state above its source that a transition can be taken inside of and
that has the targets below it. -/
theorem within_of_domainOf (up : Ancestry.Upward c.parent) (h : c.domainOf t es = some d)
    (hinner : a = root ∨ (c.node a).isCompound = true) (hsource : c.Below t.source a)
    (htargets : ∀ e ∈ es, c.Below e a) : c.Within d a := by
  rw [domainOf_of_ne_nil (ne_nil_of_domainOf h)] at h
  split at h
  · exact Option.some.inj h ▸ hsource.within
  · have htest : ((a == root || (c.node a).isCompound) && es.all (c.isDescendant · a)) = true := by
      simpa [isDescendant, Ancestry.isDescendant_iff] using And.intro hinner htargets
    obtain rfl := Option.some.inj h
    simp only [leastCompoundAncestor]
    cases hf : (c.ancestors t.source).find? (fun a =>
        (a == root || (c.node a).isCompound) && es.all (c.isDescendant · a)) with
    | none => exact absurd htest (List.find?_eq_none.mp hf a hsource)
    | some b => exact (Ancestry.within_of_find?_ancestors up hf).2.2 a hsource htest

/-- The domain of targets that lie below another domain of the same transition lies within that. -/
theorem domainOf_within (up : Ancestry.Upward c.parent) (hs : c.Below t.source root)
    (hd : c.domainOf t es = some d) (henc : c.Encloses t es d)
    (hd' : c.domainOf t es' = some a) (hes' : ∀ e ∈ es', c.Below e d) : c.Within a d := by
  rcases henc.source with hsource | hsource
  · -- Only an internal transition has its source for its domain.
    subst hsource
    rw [domainOf_of_ne_nil (ne_nil_of_domainOf hd)] at hd
    rw [domainOf_of_ne_nil (ne_nil_of_domainOf hd')] at hd'
    split at hd
    · rename_i hin
      have hall : es'.all (c.isDescendant · t.source) = true := by
        simpa [isDescendant, Ancestry.isDescendant_iff] using hes'
      rw [if_pos ⟨hin.1, hin.2.1, hall⟩] at hd'
      exact .inl (Option.some.inj hd').symm
    · have habove := (leastCompoundAncestor_inner hs es).2
      rw [Option.some.inj hd] at habove
      exact absurd habove (Ancestry.not_below_self up t.source)
  · exact within_of_domainOf up hd' henc.inner hsource hes'

/-- Where two domains of a transition differ: the second lies inside the only region of a parallel
state that was left with the first, and whose deep history has led back there. -/
structure Narrows (c : Chart) (exits : StateSet) (d a h q k : Nat) : Prop where
  inside : c.Below a q
  exited : q ∈ exits
  outside : c.Below q d
  parallel : (c.node q).isParallel = true
  single : c.regions q = [k]
  parent : c.parent h = some q
  deep : ∃ default, (c.node h).kind = .history .deep default

/-- A parallel state with a deep history has two regions at least. -/
def Branching (c : Chart) : Prop := ∀ h q, c.parent h = some q → (c.node q).isParallel = true →
  (∃ default, (c.node h).kind = .history .deep default) → 2 ≤ (c.regions q).length

theorem Branching.not_narrows (branching : c.Branching) : ¬c.Narrows exits d a h q k := by
  intro hnarrows
  have htwo := branching h q hnarrows.parent hnarrows.parallel hnarrows.deep
  simp [hnarrows.single] at htwo

section Recording

variable (wf : c.WellFormed) (hx : x.Valid c) (sound : m.Sound c) (ht : c.Declared t)
  (hes : c.effectiveTargets? m t = some es) (hd : c.domainOf t es = some d)
  (hexits : ∀ i, i ∈ exits ↔ i ∈ x ∧ c.Below i d)
  (hes' : c.effectiveTargets? (c.recordHistory x m exits) t = some es')
include wf hx sound ht hes hd hexits hes'

/-- What the targets come to after the record lies below the domain that was left. -/
theorem effective_below_domain : ∀ e ∈ es', c.Below e d := by
  have filled' := sound.filled.recordHistory wf hx fun i hi => ((hexits i).mp hi).1
  obtain ⟨d', hd', henc⟩ := exists_domainOf ht.source
    (fun e he => below_root_of_effective wf ht hes sound.proper he) (ne_nil_of_domainOf hd)
  obtain rfl := Option.some.inj (hd.symm.trans hd')
  refine effective_below_of_memory wf ht sound.filled filled' ?_ hes henc.targets hes'
  rintro h q - hq hdq
  have hkept : q ∉ exits := fun hexit =>
    Ancestry.not_below_self wf.upward d (hdq.trans wf.upward ((hexits q).mp hexit).2)
  exact (get?_recordHistory_of_kept wf hq hkept).symm

/-- The domain after the record lies within the one before, and is the same exactly when it has
below it what the targets came to before. -/
theorem domain_recorded (hd' : c.domainOf t es' = some a) :
    c.Within a d ∧ c.Within t.source a ∧ (∀ e ∈ es', c.Below e a) ∧
      (d = a ↔ ∀ e ∈ es, c.Below e a) := by
  have proper' := sound.proper.recordHistory wf hx.real exits
  obtain ⟨_, hd₁, henc⟩ := exists_domainOf ht.source
    (fun e he => below_root_of_effective wf ht hes sound.proper he) (ne_nil_of_domainOf hd)
  obtain rfl := Option.some.inj (hd.symm.trans hd₁)
  obtain ⟨_, hd₂, henc'⟩ := exists_domainOf ht.source
    (fun e he => below_root_of_effective wf ht hes' proper' he) (ne_nil_of_domainOf hd')
  obtain rfl := Option.some.inj (hd'.symm.trans hd₂)
  have hbelow := effective_below_domain wf hx sound ht hes hd hexits hes'
  have hwithin := domainOf_within wf.upward ht.source hd henc hd' hbelow
  refine ⟨hwithin, henc'.source, henc'.targets, fun hsame => hsame ▸ henc.targets, fun hall => ?_⟩
  have hwithin' := domainOf_within wf.upward ht.source hd' henc' hd hall
  exact Nat.le_antisymm (hwithin.le wf.upward) (hwithin'.le wf.upward)

theorem narrows_of_ne (hsource : t.source ∈ x) (hd' : c.domainOf t es' = some a) (hne : d ≠ a) :
    ∃ h q k, c.Narrows exits d a h q k := by
  have hactive (i : Nat) (hi : i ∈ exits) : i ∈ x := ((hexits i).mp hi).1
  obtain ⟨-, hsa, hbelow, hsame⟩ := domain_recorded wf hx sound ht hes hd hexits hes' hd'
  obtain ⟨e, he, hea⟩ : ∃ e ∈ es, ¬c.Below e a := by simpa using mt hsame.mpr hne
  obtain ⟨h, q, hrw, haq, hall⟩ :=
    exists_rewritten_above wf hx hactive sound.proper ht hes hes' hbelow he hea
  have hqd := ((hexits q).mp hrw.exited).2
  -- A compound state with all targets below it would have been the domain.
  have hparallel : (c.node q).isParallel = true := by
    refine (wf.inner_of_parent hrw.parent).resolve_left fun hcompound => ?_
    have hdq := within_of_domainOf wf.upward hd (.inr hcompound)
      (hsa.trans_below wf.upward haq) hall
    exact Ancestry.not_below_self wf.upward q (hqd.trans_within wf.upward hdq)
  obtain ⟨k, hk⟩ := hrw.single_region wf hx hactive hbelow hsource hsa haq hparallel
  exact ⟨h, q, k, haq, hrw.exited, hqd, hparallel, hk, hrw.parent,
    hrw.deep wf hx hbelow hsource hsa haq⟩

end Recording

/-- A transition from an active state leaves a domain, or none, and the microstep that takes it
enters the one that it has when history is recorded. The two are the same exactly when the second
has below it all that the targets came to before. Where they differ, a parallel state with a deep
history and a single region has been left, so they are the same in every chart where such a state
has two regions at least. -/
theorem domain_after_recording {decl : ChartDecl} (hb : decl.build = .ok c) (g : c.Grounded)
    (hx : x.validate c = .ok ()) (hm : m.Faithful c) (hs : s ∈ x)
    (hr : r ∈ (c.node s).transitions) : ∃ es exits o o',
      c.effectiveTargets? m (c.transition r) = some es ∧
      c.exitSet? x m (c.transition r) = some exits ∧
      c.domain? m (c.transition r) = some o ∧
      c.domain? (c.recordHistory x m exits) (c.transition r) = some o' ∧
      (o = o' ↔ ∀ a ∈ o', ∀ e ∈ es, c.Below e a) ∧
      (o ≠ o' → ∃ d a h q k, o = some d ∧ o' = some a ∧ c.Narrows exits d a h q k) ∧
      (c.Branching → o = o') := by
  have wf := ChartDecl.wellFormed_of_build hb
  have hvalid := (Configuration.validate_eq_ok_iff_of_mem wf hs).mp hx
  have ht := wf.declared hr
  have hsource : (c.transition r).source ∈ x := (wf.source s r hr).2 ▸ hs
  obtain ⟨es, hes⟩ := exists_effectiveTargets? (m := m) wf g ht
  cases hd : c.domainOf (c.transition r) es with
  | none =>
    have hdomain := domain?_eq_some_iff.mpr ⟨es, hes, hd⟩
    have hnil := targets_eq_nil_of_domain wf (hm.sound wf).filled ht hdomain
    have hafter (m' : Memory) : c.domain? m' (c.transition r) = some none :=
      domain?_of_targetless (by simp [Transition.isTargetless, hnil])
    exact ⟨es, _, none, none, hes, exitSet?_eq_some_iff.mpr ⟨none, hdomain, rfl⟩, hdomain,
      hafter _, by simp, fun hne => absurd rfl hne, fun _ => rfl⟩
  | some d =>
    have hdomain := domain?_eq_some_iff.mpr ⟨es, hes, hd⟩
    let exits := c.exitsBelow x (some d)
    have hexits (i : Nat) : i ∈ exits ↔ i ∈ x ∧ c.Below i d := by
      simp [exits, exitsBelow, isDescendant, Ancestry.isDescendant_iff]
    have filled' := (hm.sound wf).filled.recordHistory wf hvalid fun i hi => ((hexits i).mp hi).1
    obtain ⟨es', hes'⟩ := exists_effectiveTargets? (m := c.recordHistory x m exits) wf g ht
    have hne : es' ≠ [] := fun hnil => by
      have htargets := (effectiveTargets_eq_nil_iff wf ht hes' filled').mp hnil
      exact ne_nil_of_domainOf hd
        ((effectiveTargets_eq_nil_iff wf ht hes (hm.sound wf).filled).mpr htargets)
    obtain ⟨a, hd', -⟩ := exists_domainOf ht.source
      (fun e he => below_root_of_effective wf ht hes' filled'.proper he) hne
    obtain ⟨-, -, -, hsame⟩ := domain_recorded wf hvalid (hm.sound wf) ht hes hd hexits hes' hd'
    have hnarrows (hne : some d ≠ some a) : ∃ h q k, c.Narrows exits d a h q k :=
      narrows_of_ne wf hvalid (hm.sound wf) ht hes hd hexits hes' hsource hd'
        fun heq => hne (congrArg some heq)
    refine ⟨es, exits, some d, some a, hes, exitSet?_eq_some_iff.mpr ⟨_, hdomain, rfl⟩, hdomain,
      domain?_eq_some_iff.mpr ⟨es', hes', hd'⟩, by simpa using hsame, fun hne => ?_,
      fun branching => ?_⟩
    · obtain ⟨h, q, k, hnarrows⟩ := hnarrows hne
      exact ⟨d, a, h, q, k, rfl, rfl, hnarrows⟩
    · by_contra hne
      obtain ⟨h, q, k, hnarrows⟩ := hnarrows hne
      exact branching.not_narrows hnarrows

end Statechart.Chart

namespace Statechart

/-- A parallel state whose only region leads to its own deep history. -/
def lane : ChartDecl where
  name := "Lane"
  states := [((StateDecl.parallel "lane").withChild
    (((StateDecl.plain "cars").withChild
      ((StateDecl.plain "stopped").withTransition (.simple "go" "last"))).withChild
        (.plain "moving"))).withChild (.history "last" .deep)]

/-- With nothing recorded yet the chart is left from its root on down, but entered again only inside
the region, whose parallel parent is exited for good. -/
theorem lane_narrowed : lane.build = .ok lane.chart ∧ lane.chart.Grounded ∧
    ∃ (x : Configuration) (exits : StateSet) (h q k : Nat), x.validate lane.chart = .ok () ∧
      Memory.empty.Faithful lane.chart ∧ 3 ∈ x ∧ 0 ∈ (lane.chart.node 3).transitions ∧
      lane.chart.exitSet? x .empty (lane.chart.transition 0) = some exits ∧
      lane.chart.domain? .empty (lane.chart.transition 0) = some (some 0) ∧
      lane.chart.domain? (lane.chart.recordHistory x .empty exits) (lane.chart.transition 0) =
        some (some 2) ∧
      lane.chart.Narrows exits 0 2 h q k := by
  have hb : lane.build = .ok lane.chart := ChartDecl.build_eq_chart (by decide +kernel)
  have g : lane.chart.Grounded := Chart.grounded_of_leads (by decide +kernel)
  let x : Configuration := StateSet.ofList [1, 2, 3]
  have hx : x.validate lane.chart = .ok () := by decide +kernel
  have hm : Memory.empty.Faithful lane.chart := Memory.faithful_empty _
  have hs : 3 ∈ x := by decide
  have hr : 0 ∈ (lane.chart.node 3).transitions := by decide +kernel
  obtain ⟨-, exits, o, o', -, hexits, ho, ho', -, hnarrows, -⟩ :=
    Chart.domain_after_recording hb g hx hm hs hr
  have hleft : lane.chart.exitSet? x .empty (lane.chart.transition 0) = some x := by decide +kernel
  have hbefore : lane.chart.domain? .empty (lane.chart.transition 0) = some (some 0) := by
    decide +kernel
  have hafter : lane.chart.domain? (lane.chart.recordHistory x .empty x)
      (lane.chart.transition 0) = some (some 2) := by decide +kernel
  obtain rfl := Option.some.inj (hleft.symm.trans hexits)
  obtain rfl := Option.some.inj (hbefore.symm.trans ho)
  obtain rfl := Option.some.inj (hafter.symm.trans ho')
  obtain ⟨d, a, h, q, k, hd, ha, hshape⟩ := hnarrows (by simp)
  obtain rfl := Option.some.inj hd
  obtain rfl := Option.some.inj ha
  exact ⟨hb, g, x, x, h, q, k, hx, hm, hs, hr, hexits, hbefore, hafter, hshape⟩

end Statechart

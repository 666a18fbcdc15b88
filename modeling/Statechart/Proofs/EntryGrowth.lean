import Statechart.EntryPlan
import Statechart.Proofs.Resolution

/-!
How a plan of entry grows. Entering a target adds states under it that bring along all they need,
and leaves no gap: the parent of an added state is planned as well, unless it is where the target is
anchored or above. The recursion goes down the tree or along a chain of history defaults, so it ends
whenever no chain leads back to itself.
-/
namespace Statechart

open Ancestry (below_of_parent within_parent_of_below)

namespace Chart

variable {c : Chart} {a e q s top : Nat}

theorem mem_ancestorsBelow (wf : c.WellFormed) (h : c.Below e top) :
    a ∈ c.ancestorsBelow e top ↔ c.Below e a ∧ c.Below a top := by
  have hsort := Ancestry.ancestors_pairwise wf.upward e
  obtain ⟨l₁, l₂, hl⟩ := List.append_of_mem h
  have hfirst : ∀ b ∈ l₁, b > top := by
    rw [hl] at hsort
    exact fun b hb => (List.pairwise_append.mp hsort).2.2 b hb top (by simp)
  have hlast : ∀ b ∈ l₂, top > b := by
    rw [hl] at hsort
    exact (List.pairwise_cons.mp (List.pairwise_append.mp hsort).2.1).1
  have htake : c.ancestorsBelow e top = l₁ := by
    have hl' : c.ancestors e = l₁ ++ top :: l₂ := hl
    rw [ancestorsBelow, hl', List.takeWhile_append_of_pos]
    · simp
    · intro b hb
      have := hfirst b hb
      simp only [bne_iff_ne]
      omega
  rw [htake]
  constructor
  · intro ha
    have hea : c.Below e a := by
      unfold Below Ancestry.Below
      rw [hl]
      exact List.mem_append_left _ ha
    refine ⟨hea, ?_⟩
    have hgt := hfirst a ha
    rcases hea.within.total wf.upward h.within with hw | hw
    · exact hw.resolve_left (by omega)
    · have := hw.le wf.upward
      omega
  · rintro ⟨hea, hat⟩
    have hgt := hat.lt wf.upward
    have hmem : a ∈ l₁ ++ top :: l₂ := hl ▸ hea
    rcases List.mem_append.mp hmem with ha | ha
    · exact ha
    · rcases List.mem_cons.mp ha with rfl | ha
      · omega
      · have := hlast a ha
        omega

end Chart

namespace EntryPlan

open Chart (root)

variable {c : Chart} {m : Memory} {p p₁ p₂ : EntryPlan} {a e h n q r s t top : Nat}
  {scope stop : Nat → Prop} {as rs ts : List Nat} {down : Nat → EntryPlan → Option EntryPlan}

theorem covers_iff : p.covers c r = true ↔ ∃ s ∈ p.states, c.Within s r := by
  simp [covers, Chart.isDescendant, Ancestry.isDescendant_iff, Chart.Within, Ancestry.Within]

@[simp] theorem mem_addState : s ∈ (p.addState a).states ↔ s = a ∨ s ∈ p.states := by
  simp [addState]

@[simp] theorem mem_addCompound : s ∈ (p.addCompound a).states ↔ s = a ∨ s ∈ p.states := by
  simp [addCompound]

/-- What the entry of a state needs is planned. -/
structure Fills (c : Chart) (p : EntryPlan) (s : Nat) : Prop where
  compound : (c.node s).isCompound = true → ∃ u ∈ p.states, c.Below u s
  parallel : (c.node s).isParallel = true → ∀ r ∈ c.regions s, ∃ u ∈ p.states, c.Within u r

theorem Fills.mono (h : p.Fills c s) (hp : ∀ u ∈ p.states, u ∈ p₁.states) : p₁.Fills c s := by
  refine ⟨fun hc => ?_, fun hpar r hr => ?_⟩
  · obtain ⟨u, hu, hus⟩ := h.compound hc
    exact ⟨u, hp u hu, hus⟩
  · obtain ⟨u, hu, hur⟩ := h.parallel hpar r hr
    exact ⟨u, hp u hu, hur⟩

theorem fills_of_atomic (hs : (c.node s).isAtomic = true) : p.Fills c s := by
  unfold Node.isAtomic at hs
  refine ⟨fun hc => ?_, fun hp => ?_⟩
  · obtain ⟨initial, hk⟩ := Node.isCompound_iff.mp hc
    simp [hk] at hs
  · simp [Node.isParallel_iff.mp hp] at hs

/-- The second plan adds to the first only states in a scope, each with what its entry needs, and
with its parent unless the plan may stop there. -/
structure Extends (c : Chart) (scope stop : Nat → Prop) (p₁ p₂ : EntryPlan) : Prop where
  mono : ∀ s ∈ p₁.states, s ∈ p₂.states
  scope : ∀ s ∈ p₂.states, s ∉ p₁.states → scope s
  real : ∀ s ∈ p₂.states, s ∉ p₁.states → c.isHistory s = false
  fills : ∀ s ∈ p₂.states, s ∉ p₁.states → p₂.Fills c s
  linked : ∀ s ∈ p₂.states, s ∉ p₁.states → ∀ q, c.parent s = some q → q ∈ p₂.states ∨ stop q

theorem Extends.refl (c : Chart) (scope stop : Nat → Prop) (p : EntryPlan) :
    Extends c scope stop p p :=
  ⟨fun _ hs => hs, fun _ hs hn => absurd hs hn, fun _ hs hn => absurd hs hn,
    fun _ hs hn => absurd hs hn, fun _ hs hn => absurd hs hn⟩

theorem Extends.trans (h₁ : Extends c scope stop p p₁) (h₂ : Extends c scope stop p₁ p₂) :
    Extends c scope stop p p₂ where
  mono s hs := h₂.mono s (h₁.mono s hs)
  scope s hs hn := by
    by_cases hs₁ : s ∈ p₁.states
    · exact h₁.scope s hs₁ hn
    · exact h₂.scope s hs hs₁
  real s hs hn := by
    by_cases hs₁ : s ∈ p₁.states
    · exact h₁.real s hs₁ hn
    · exact h₂.real s hs hs₁
  fills s hs hn := by
    by_cases hs₁ : s ∈ p₁.states
    · exact (h₁.fills s hs₁ hn).mono h₂.mono
    · exact h₂.fills s hs hs₁
  linked s hs hn q hq := by
    by_cases hs₁ : s ∈ p₁.states
    · exact (h₁.linked s hs₁ hn q hq).imp_left (h₂.mono q)
    · exact h₂.linked s hs hs₁ q hq

/-- What the first step leaves open the second may plan. -/
theorem Extends.through (h₁ : Extends c scope (fun q => q ∈ p₂.states ∨ stop q) p p₁)
    (h₂ : Extends c scope stop p₁ p₂) : Extends c scope stop p p₂ := by
  have h := h₁.trans ⟨h₂.mono, h₂.scope, h₂.real, h₂.fills,
    fun s hs hn q hq => (h₂.linked s hs hn q hq).imp_right .inr⟩
  exact ⟨h.mono, h.scope, h.real, h.fills,
    fun s hs hn q hq => (h.linked s hs hn q hq).elim .inl id⟩

/-- Scopes may be widened, and stops exchanged for others or for planned states. -/
theorem Extends.imp {scope' stop' : Nat → Prop} (h : Extends c scope stop p₁ p₂)
    (hscope : ∀ s, scope s → scope' s)
    (hstop : ∀ s q, scope s → c.parent s = some q → stop q → q ∈ p₂.states ∨ stop' q) :
    Extends c scope' stop' p₁ p₂ where
  mono := h.mono
  scope s hs hn := hscope s (h.scope s hs hn)
  real := h.real
  fills := h.fills
  linked s hs hn q hq :=
    (h.linked s hs hn q hq).elim .inl (hstop s q (h.scope s hs hn) hq)

/-- A plan may be thought to start one state earlier, if that state is filled and linked in the end. -/
theorem Extends.insert (h : Extends c scope stop p₁ p₂)
    (hp : ∀ s, s ∈ p₁.states ↔ s = a ∨ s ∈ p.states) (hscope : scope a)
    (hreal : c.isHistory a = false) (hfills : p₂.Fills c a)
    (hlinked : ∀ q, c.parent a = some q → q ∈ p₂.states ∨ stop q) : Extends c scope stop p p₂ := by
  have hnew (s : Nat) (hn : s ∉ p.states) : s = a ∨ s ∉ p₁.states := by
    by_cases hs : s = a
    · exact .inl hs
    · exact .inr fun hs₁ => ((hp s).mp hs₁).elim hs hn
  refine ⟨fun s hs => h.mono s ((hp s).mpr (.inr hs)), ?_, ?_, ?_, ?_⟩
  · intro s hs hn
    rcases hnew s hn with rfl | hn₁
    · exact hscope
    · exact h.scope s hs hn₁
  · intro s hs hn
    rcases hnew s hn with rfl | hn₁
    · exact hreal
    · exact h.real s hs hn₁
  · intro s hs hn
    rcases hnew s hn with rfl | hn₁
    · exact hfills
    · exact h.fills s hs hn₁
  · intro s hs hn
    rcases hnew s hn with rfl | hn₁
    · exact hlinked
    · exact h.linked s hs hn₁

/-- The target, or something under it, is planned. -/
structure Reached (c : Chart) (p : EntryPlan) (t : Nat) : Prop where
  self : c.isHistory t = false → t ∈ p.states
  under : ∃ u ∈ p.states, c.Under t u

theorem Reached.mono (h : p.Reached c t) (hp : ∀ u ∈ p.states, u ∈ p₁.states) : p₁.Reached c t := by
  refine ⟨fun ht => hp t (h.self ht), ?_⟩
  obtain ⟨u, hu, hut⟩ := h.under
  exact ⟨u, hp u hu, hut⟩

/-- Something is planned below every state above a target reached. -/
theorem Reached.exists_below (wf : c.WellFormed) (h : p.Reached c t) (ha : c.Below t a) :
    ∃ u ∈ p.states, c.Below u a := by
  obtain ⟨u, hu, hut⟩ := h.under
  exact ⟨u, hu, wf.below_of_under ha hut⟩

/-- When the ancestors below `top` of some state are planned, every state above that state is, or is
`top` or above it. -/
theorem planned_or_within (wf : c.WellFormed) (he : c.Below e top)
    (hall : ∀ a, c.Below e a → c.Below a top → a ∈ p.states) (hq : c.Below e q) :
    q ∈ p.states ∨ c.Within top q := by
  rcases hq.within.total wf.upward he.within with hw | hw
  · rcases hw with rfl | hw
    · exact .inr (.refl c.parent q)
    · exact .inl (hall q hq hw)
  · exact .inr hw

/-- A way to add targets that leaves them reached. -/
def Enters (c : Chart) (down : Nat → EntryPlan → Option EntryPlan) : Prop :=
  ∀ t p p₁, c.Below t root → down t p = some p₁ →
    Extends c (c.Under t) (c.Within (c.anchor t)) p p₁ ∧ p₁.Reached c t

/-! ### What one target brings along -/

section Enters

variable (wf : c.WellFormed) (hdown : Enters c down)
include wf hdown

/-- One region of a state that is planned. -/
theorem extends_region (hr : r ∈ c.regions q) (h : down r p = some p₁) :
    Extends c (c.Within · r) (· = q) p p₁ ∧ r ∈ p₁.states := by
  obtain ⟨hpar, hreal⟩ := wf.mem_regions.mp hr
  obtain ⟨hadd, hreach⟩ := hdown r p p₁
    (wf.below_root_of_below (below_of_parent wf.upward hpar)) h
  refine ⟨hadd.imp (fun s hs => (Chart.under_of_not_history hreal).mp hs) ?_, hreach.self hreal⟩
  intro s q' hs hq' hstop
  rw [Chart.under_of_not_history hreal] at hs
  rw [Chart.anchor_of_not_history hreal] at hstop
  rcases hstop with rfl | hrq
  · exact .inl (hreach.self hreal)
  · rcases hs with rfl | hsr
    · exact .inr (Option.some.inj (hq'.symm.trans hpar))
    · exact absurd (hrq.trans_within wf.upward (within_parent_of_below wf.upward hq' hsr))
        (Ancestry.not_below_self wf.upward r)

theorem extends_openRegions (hrs : ∀ r ∈ rs, r ∈ c.regions q)
    (h : openRegions c down rs p = some p₂) :
    Extends c (fun s => ∃ r ∈ rs, c.Within s r) (· = q) p p₂ ∧
      ∀ r ∈ rs, ∃ u ∈ p₂.states, c.Within u r := by
  induction rs generalizing p with
  | nil =>
    obtain rfl := Option.some.inj h
    exact ⟨.refl c _ _ p, by simp⟩
  | cons r rs ih =>
    have hrs' : ∀ r ∈ rs, r ∈ c.regions q := fun r hr => hrs r (by simp [hr])
    have widen (s : Nat) (hs : ∃ r ∈ rs, c.Within s r) : ∃ r' ∈ r :: rs, c.Within s r' := by
      obtain ⟨r', hr', hsr'⟩ := hs
      exact ⟨r', by simp [hr'], hsr'⟩
    rw [openRegions] at h
    split at h
    · rename_i hcov
      obtain ⟨hext, hall⟩ := ih hrs' h
      refine ⟨hext.imp widen (fun _ _ _ _ hq => .inr hq), fun r' hr' => ?_⟩
      rcases List.mem_cons.mp hr' with rfl | hr'
      · obtain ⟨u, hu, hur⟩ := covers_iff.mp hcov
        exact ⟨u, hext.mono u hu, hur⟩
      · exact hall r' hr'
    · obtain ⟨p₁, hp₁, h⟩ := Option.bind_eq_some_iff.mp h
      obtain ⟨hadd, hreach⟩ := extends_region wf hdown (hrs r (by simp)) hp₁
      obtain ⟨hext, hall⟩ := ih hrs' h
      have hone : Extends c (fun s => ∃ r' ∈ r :: rs, c.Within s r') (· = q) p p₁ :=
        hadd.imp (fun s hs => ⟨r, by simp, hs⟩) (fun _ _ _ _ hq => .inr hq)
      refine ⟨hone.trans (hext.imp widen (fun _ _ _ _ hq => .inr hq)), fun r' hr' => ?_⟩
      rcases List.mem_cons.mp hr' with rfl | hr'
      · exact ⟨r', hext.mono r' hreach, .refl c.parent r'⟩
      · exact hall r' hr'

theorem extends_addAncestors (hroot : ∀ a ∈ as, a ≠ root)
    (hbelow : ∀ a ∈ as, ∃ u ∈ p.states, c.Below u a) (h : addAncestors c down as p = some p₂) :
    Extends c (fun s => ∃ a ∈ as, c.Within s a) (fun q => ∃ a ∈ as, c.parent a = some q) p p₂ ∧
      ∀ a ∈ as, a ∈ p₂.states := by
  induction as generalizing p with
  | nil =>
    obtain rfl := Option.some.inj h
    exact ⟨.refl c _ _ p, by simp⟩
  | cons a as ih =>
    obtain ⟨u, hu, hua⟩ := hbelow a (by simp)
    have hinner := wf.not_history_of_below hua
    simp only [addAncestors, hroot a (by simp), if_false] at h
    obtain ⟨p₁, hp₁, h⟩ : ∃ p₁, (p₁ = p.addState a ∧ (c.node a).isParallel = false ∨
        openRegions c down (c.regions a) (p.addState a) = some p₁ ∧
          (c.node a).isParallel = true) ∧ addAncestors c down as p₁ = some p₂ := by
      split at h
      · rename_i hpar
        obtain ⟨p₁, hp₁, h⟩ := Option.bind_eq_some_iff.mp h
        exact ⟨p₁, .inr ⟨hp₁, hpar⟩, h⟩
      · rename_i hpar
        exact ⟨_, .inl ⟨rfl, by simpa using hpar⟩, h⟩
    -- Both ways lead to a plan that has grown from the ancestor alone and fills a parallel one.
    have hopen : Extends c (fun s => ∃ r ∈ c.regions a, c.Within s r) (· = a) (p.addState a) p₁ ∧
        ((c.node a).isParallel = true → ∀ r ∈ c.regions a, ∃ u ∈ p₁.states, c.Within u r) := by
      rcases hp₁ with ⟨rfl, hpar⟩ | ⟨hp₁, -⟩
      · exact ⟨.refl c _ _ _, by simp [hpar]⟩
      · have hboth := extends_openRegions wf hdown (fun _ hr => hr) hp₁
        exact ⟨hboth.1, fun _ => hboth.2⟩
    obtain ⟨hgrow, hall⟩ := hopen
    have hmono : ∀ s ∈ p.states, s ∈ p₁.states := fun s hs => hgrow.mono s (by simp [hs])
    have hap₁ : a ∈ p₁.states := hgrow.mono a (by simp)
    have hstep : Extends c (fun s => ∃ a' ∈ a :: as, c.Within s a')
        (fun q => ∃ a' ∈ a :: as, c.parent a' = some q) p p₁ := by
      refine Extends.insert (a := a) (hgrow.imp (fun s hs => ?_) fun s q _ _ hq => ?_)
        (fun s => mem_addState) ⟨a, by simp, .refl c.parent a⟩ hinner
        ⟨fun _ => ⟨u, hmono u hu, hua⟩, hall⟩ (fun q hq => .inr ⟨a, by simp, hq⟩)
      · obtain ⟨r, hr, hsr⟩ := hs
        have hra := below_of_parent wf.upward (wf.mem_regions.mp hr).1
        exact ⟨a, by simp, hsr.trans wf.upward hra.within⟩
      · exact .inl (hq ▸ hap₁)
    obtain ⟨hext, hmem⟩ := ih (fun b hb => hroot b (by simp [hb]))
      (fun b hb => by
        obtain ⟨u, hu, hub⟩ := hbelow b (by simp [hb])
        exact ⟨u, hmono u hu, hub⟩) h
    refine ⟨hstep.trans (hext.imp (fun s hs => ?_) fun s q _ _ hq => ?_), fun b hb => ?_⟩
    · obtain ⟨b, hb, hsb⟩ := hs
      exact ⟨b, by simp [hb], hsb⟩
    · obtain ⟨b, hb, hbq⟩ := hq
      exact .inr ⟨b, by simp [hb], hbq⟩
    · rcases List.mem_cons.mp hb with rfl | hb
      · exact hext.mono b hap₁
      · exact hmem b hb

omit wf in
theorem extends_addAll (hts : ∀ t ∈ ts, c.Below t root) (h : addAll down ts p = some p₂) :
    Extends c (fun s => ∃ t ∈ ts, c.Under t s) (fun q => ∃ t ∈ ts, c.Within (c.anchor t) q) p p₂ ∧
      ∀ t ∈ ts, p₂.Reached c t := by
  induction ts generalizing p with
  | nil =>
    obtain rfl := Option.some.inj h
    exact ⟨.refl c _ _ p, by simp⟩
  | cons t ts ih =>
    obtain ⟨p₁, hp₁, h⟩ := Option.bind_eq_some_iff.mp h
    obtain ⟨hadd, hreach⟩ := hdown t p p₁ (hts t (by simp)) hp₁
    obtain ⟨hext, hall⟩ := ih (fun u hu => hts u (by simp [hu])) h
    have hone : Extends c (fun s => ∃ u ∈ t :: ts, c.Under u s)
        (fun q => ∃ u ∈ t :: ts, c.Within (c.anchor u) q) p p₁ :=
      hadd.imp (fun s hs => ⟨t, by simp, hs⟩) (fun _ q _ _ hq => .inr ⟨t, by simp, hq⟩)
    refine ⟨hone.trans (hext.imp (fun s hs => ?_) fun s q _ _ hq => .inr ?_), fun u hu => ?_⟩
    · obtain ⟨u, hu, hus⟩ := hs
      exact ⟨u, by simp [hu], hus⟩
    · obtain ⟨u, hu, huq⟩ := hq
      exact ⟨u, by simp [hu], huq⟩
    · rcases List.mem_cons.mp hu with rfl | hu
      · exact hreach.mono hext.mono
      · exact hall u hu

theorem extends_addAllAncestors (hts : ∀ t ∈ ts, c.Below t top ∧ p.Reached c t)
    (h : addAllAncestors c down top ts p = some p₂) :
    Extends c (c.Below · top) (c.Within top) p p₂ ∧
      ∀ t ∈ ts, ∀ a, c.Below t a → c.Below a top → a ∈ p₂.states := by
  induction ts generalizing p with
  | nil =>
    obtain rfl := Option.some.inj h
    exact ⟨.refl c _ _ p, by simp⟩
  | cons t ts ih =>
    obtain ⟨p₁, hp₁, h⟩ := Option.bind_eq_some_iff.mp h
    obtain ⟨htop, hreach⟩ := hts t (by simp)
    have hmem (a : Nat) := Chart.mem_ancestorsBelow (a := a) wf htop
    obtain ⟨hadd, hall⟩ := extends_addAncestors wf hdown
      (fun a ha => wf.ne_root_of_below ((hmem a).mp ha).2)
      (fun a ha => hreach.exists_below wf ((hmem a).mp ha).1) hp₁
    obtain ⟨hext, hmore⟩ := ih (fun u hu =>
      ⟨(hts u (by simp [hu])).1, (hts u (by simp [hu])).2.mono hadd.mono⟩) h
    have hone : Extends c (c.Below · top) (c.Within top) p p₁ := by
      refine hadd.imp (fun s hs => ?_) fun s q _ _ hq => ?_
      · obtain ⟨a, ha, hsa⟩ := hs
        exact hsa.trans_below wf.upward ((hmem a).mp ha).2
      · obtain ⟨a, ha, haq⟩ := hq
        obtain ⟨hta, hat⟩ := (hmem a).mp ha
        rcases within_parent_of_below wf.upward haq hat with rfl | hqt
        · exact .inr (.refl c.parent q)
        · have htq := hta.trans wf.upward (below_of_parent wf.upward haq)
          exact .inl (hall q ((hmem q).mpr ⟨htq, hqt⟩))
    refine ⟨hone.trans hext, fun u hu a hua hat => ?_⟩
    rcases List.mem_cons.mp hu with rfl | hu
    · exact hext.mono a (hall a ((hmem a).mpr ⟨hua, hat⟩))
    · exact hmore u hu a hua hat

theorem extends_addTargets (hts : ∀ t ∈ ts, c.Below t top)
    (h : addTargets c down top ts p = some p₂) :
    Extends c (c.Below · top) (c.Within top) p p₂ ∧ ∀ t ∈ ts, p₂.Reached c t := by
  obtain ⟨p₁, hp₁, h⟩ := Option.bind_eq_some_iff.mp h
  obtain ⟨hadd, hreach⟩ := extends_addAll hdown
    (fun t ht => wf.below_root_of_below (hts t ht)) hp₁
  obtain ⟨hext, hall⟩ := extends_addAllAncestors wf hdown
    (fun t ht => ⟨hts t ht, hreach t ht⟩) h
  have hclosed : ∀ t ∈ ts, ∀ q, c.Within (c.anchor t) q → q ∈ p₂.states ∨ c.Within top q := by
    intro t ht q hq
    have hrest := planned_or_within wf (hts t ht) (hall t ht) (q := q)
    cases hh : c.isHistory t with
    | false =>
      rw [Chart.anchor_of_not_history hh] at hq
      rcases hq with rfl | hq
      · exact .inl (hext.mono t ((hreach t ht).self hh))
      · exact hrest hq
    | true =>
      obtain ⟨o, ho⟩ := wf.exists_parent (wf.below_root_of_below (hts t ht))
      rw [Chart.anchor_of_history hh ho] at hq
      exact hrest ((below_of_parent wf.upward ho).trans_within wf.upward hq)
  have hone : Extends c (c.Below · top) (c.Within top) p p₂ := by
    refine (hadd.imp (fun s hs => ?_) (fun s q _ _ hq => ?_)).through hext
    · obtain ⟨t, ht, hts'⟩ := hs
      exact wf.below_of_under (hts t ht) hts'
    · obtain ⟨t, ht, htq⟩ := hq
      exact .inr (hclosed t ht q htq)
  exact ⟨hone, fun t ht => (hreach t ht).mono hext.mono⟩

end Enters

/-! ### Any target -/

/-- The plan in which a history state of `q` is about to be entered: without a record it keeps the
actions of the default. -/
def fallBack (c : Chart) (m : Memory) (h q : Nat) (p : EntryPlan) : EntryPlan :=
  match m.get? h, (c.node h).kind with
  | none, .history _ (some default) => p.addHistoryActions q default.actions
  | _, _ => p

theorem addWithin_fallBack (hh : c.isHistory h = true) (hq : c.parent h = some q) (n : Nat)
    (p : EntryPlan) : addWithin c m (n + 1) h p =
      addTargets c (addWithin c m n) q (c.leads m h q) (p.fallBack c m h q) := by
  obtain ⟨d, e, hk⟩ := Chart.exists_kind_of_history hh
  unfold Chart.leads fallBack
  cases hm : m.get? h with
  | some ss => simp [addWithin, hk, hq, hm]
  | none =>
    obtain _ | ⟨_ | ⟨t, ts⟩, as⟩ := e
    · simp [addWithin, hk, hq, hm]
    · simp [addWithin, hk, hq, hm]
    · simp [addWithin, hk, hq, hm]

@[simp] theorem states_fallBack (c : Chart) (m : Memory) (h q : Nat) (p : EntryPlan) :
    (p.fallBack c m h q).states = p.states := by
  unfold fallBack
  split <;> rfl

/-- A history state adds the states it leads to, below its parent. -/
theorem addWithin_of_history (hh : c.isHistory h = true) (hq : c.parent h = some q) (n : Nat)
    (p : EntryPlan) : ∃ p', p'.states = p.states ∧
      addWithin c m (n + 1) h p = addTargets c (addWithin c m n) q (c.leads m h q) p' :=
  ⟨_, states_fallBack c m h q p, addWithin_fallBack hh hq n p⟩

theorem Extends.congr_left (h : Extends c scope stop p₁ p₂) (hp : p₁.states = p.states) :
    Extends c scope stop p p₂ := by
  obtain ⟨h₁, h₂, h₃, h₄, h₅⟩ := h
  rw [hp] at h₁ h₂ h₃ h₄ h₅
  exact ⟨h₁, h₂, h₃, h₄, h₅⟩

/-- A state is entered once the plan has grown below it and fills it. -/
theorem enters_of_grown (wf : c.WellFormed) (hh : c.isHistory t = false)
    (hp : ∀ s, s ∈ p₁.states ↔ s = t ∨ s ∈ p.states)
    (hgrow : Extends c (c.Below · t) (c.Within t) p₁ p₂) (hfills : p₂.Fills c t) :
    Extends c (c.Under t) (c.Within (c.anchor t)) p p₂ ∧ p₂.Reached c t := by
  have hunder (s : Nat) (hs : c.Within s t) : c.Under t s := (Chart.under_of_not_history hh).mpr hs
  have hself := hunder t (.refl c.parent t)
  have ht : t ∈ p₂.states := hgrow.mono t ((hp t).mpr (.inl rfl))
  rw [Chart.anchor_of_not_history hh]
  constructor
  · refine (hgrow.imp (fun s hs => hunder s hs.within) (fun _ _ _ _ hq => .inr hq)).insert hp hself hh
      hfills fun q hq => ?_
    exact .inr (below_of_parent wf.upward hq).within
  · exact ⟨fun _ => ht, t, ht, hself⟩

/-- Adding a target adds states under it and all that these need. -/
theorem enters_addWithin (wf : c.WellFormed) (filled : m.Filled c) (n : Nat) :
    Enters c (addWithin c m n) := by
  induction n with
  | zero => exact fun t p p₁ _ h => absurd h (by simp [addWithin])
  | succ n ih =>
    intro t p p₂ hroot h
    cases hh : c.isHistory t with
    | true =>
      obtain ⟨q, hq⟩ := wf.exists_parent hroot
      obtain ⟨p', hp', he⟩ := addWithin_of_history (m := m) hh hq n p
      rw [he] at h
      have hbelow := wf.leads_below filled.proper hh hq
      have hne := wf.leads_ne_nil filled hh hq
      obtain ⟨hext, hreach⟩ := extends_addTargets wf ih hbelow h
      have hunder (s : Nat) (hs : c.Below s q) : c.Under t s := (Chart.under_of_history hh hq).mpr hs
      constructor
      · rw [Chart.anchor_of_history hh hq]
        exact (hext.imp hunder (fun _ _ _ _ hq => .inr hq)).congr_left hp'
      · obtain ⟨u, us, hus⟩ := List.exists_cons_of_ne_nil hne
        obtain ⟨v, hv, hvq⟩ := (hreach u (by simp [hus])).exists_below wf (hbelow u (by simp [hus]))
        exact ⟨fun hf => by simp [hh] at hf, v, hv, hunder v hvq⟩
    | false =>
      unfold addWithin at h
      cases hk : (c.node t).kind with
      | history d e => simp [Chart.isHistory, Node.isHistory, hk] at hh
      | atomic =>
        obtain rfl : p.addState t = p₂ := by simpa [hk] using h
        exact enters_of_grown wf hh (fun _ => mem_addState) (.refl c _ _ _)
          (fills_of_atomic (by simp [Node.isAtomic, hk]))
      | final =>
        obtain rfl : p.addState t = p₂ := by simpa [hk] using h
        exact enters_of_grown wf hh (fun _ => mem_addState) (.refl c _ _ _)
          (fills_of_atomic (by simp [Node.isAtomic, hk]))
      | compound i =>
        simp only [hk] at h
        have hc : (c.node t).isCompound = true := by simp [Node.isCompound, hk]
        have hp : (c.node t).isParallel = false := by simp [Node.isParallel, hk]
        obtain ⟨hbelow, -, hne⟩ := wf.defaultTargets_spec hc
        obtain ⟨hext, hreach⟩ := extends_addTargets wf ih hbelow h
        obtain ⟨u, us, hus⟩ := List.exists_cons_of_ne_nil hne
        have hin := (hreach u (by simp [hus])).exists_below wf (hbelow u (by simp [hus]))
        exact enters_of_grown wf hh (fun _ => mem_addCompound) hext ⟨fun _ => hin, by simp [hp]⟩
      | parallel =>
        simp only [hk] at h
        have hc : (c.node t).isCompound = false := by simp [Node.isCompound, hk]
        obtain ⟨hext, hall⟩ := extends_openRegions wf ih (fun _ hr => hr) h
        refine enters_of_grown wf hh (fun _ => mem_addState)
          (hext.imp (fun s hs => ?_) (fun _ q _ _ hq => .inr ?_)) ⟨by simp [hc], fun _ => hall⟩
        · obtain ⟨r, hr, hsr⟩ := hs
          exact hsr.trans_below wf.upward (below_of_parent wf.upward (wf.mem_regions.mp hr).1)
        · exact hq ▸ .refl c.parent t

end EntryPlan

end Statechart

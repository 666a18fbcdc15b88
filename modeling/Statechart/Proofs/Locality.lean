import Statechart.Proofs.TransitionEntry

/-!
Where a plan grows. Entering a target adds states under it only, and which ones depends on nothing
that is planned elsewhere. So transitions with unrelated domains, entered one after the other, bring
along what each of them brings along alone.
-/
namespace Statechart.EntryPlan

open Ancestry (below_of_parent)
open Chart (root)

variable {c : Chart} {m : Memory} {x : Configuration} {p q p₁ p₂ : EntryPlan}
  {a d h n r s t top : Nat} {as rs ts : List Nat} {scope : Nat → Prop} {tr : Transition}
  {trs : List Transition} {f g : EntryPlan → Option EntryPlan}
  {down : Nat → EntryPlan → Option EntryPlan}

/-- With a state everything below it is in scope. -/
def Closed (c : Chart) (scope : Nat → Prop) : Prop := ∀ s a, c.Below s a → scope a → scope s

theorem closed_below (wf : c.WellFormed) (d : Nat) : Closed c (c.Below · d) :=
  fun _ _ hsa had => hsa.trans wf.upward had

theorem closed_under (wf : c.WellFormed) (ht : c.Below t root) : Closed c (c.Under t) := by
  intro s a hsa ha
  cases hh : c.isHistory t with
  | false =>
    rw [Chart.under_of_not_history hh] at ha ⊢
    exact (hsa.trans_within wf.upward ha).within
  | true =>
    obtain ⟨q, hq⟩ := wf.exists_parent ht
    rw [Chart.under_of_history hh hq] at ha ⊢
    exact hsa.trans wf.upward ha

/-- The second plan adds to the first only states in scope, none of them a history state. -/
structure Grows (c : Chart) (scope : Nat → Prop) (p₁ p₂ : EntryPlan) : Prop where
  mono : ∀ s ∈ p₁.states, s ∈ p₂.states
  scope : ∀ s ∈ p₂.states, s ∉ p₁.states → scope s
  real : ∀ s ∈ p₂.states, s ∉ p₁.states → c.isHistory s = false

theorem Grows.refl (c : Chart) (scope : Nat → Prop) (p : EntryPlan) : Grows c scope p p :=
  ⟨fun _ hs => hs, fun _ hs hn => absurd hs hn, fun _ hs hn => absurd hs hn⟩

theorem Grows.trans (h₁ : Grows c scope p p₁) (h₂ : Grows c scope p₁ p₂) : Grows c scope p p₂ where
  mono s hs := h₂.mono s (h₁.mono s hs)
  scope s hs hn := by
    by_cases hs₁ : s ∈ p₁.states
    · exact h₁.scope s hs₁ hn
    · exact h₂.scope s hs hs₁
  real s hs hn := by
    by_cases hs₁ : s ∈ p₁.states
    · exact h₁.real s hs₁ hn
    · exact h₂.real s hs hs₁

theorem Grows.imp {scope' : Nat → Prop} (h : Grows c scope p₁ p₂) (hs : ∀ s, scope s → scope' s) :
    Grows c scope' p₁ p₂ :=
  ⟨h.mono, fun s hs₂ hn => hs s (h.scope s hs₂ hn), h.real⟩

/-- Out of scope nothing changes. -/
theorem Grows.mem_iff (h : Grows c scope p₁ p₂) (hs : ¬scope s) : s ∈ p₂.states ↔ s ∈ p₁.states :=
  ⟨fun hs₂ => by_contra fun hn => hs (h.scope s hs₂ hn), h.mono s⟩

theorem grows_of_insert (hp : ∀ s, s ∈ p₁.states ↔ s = a ∨ s ∈ p.states) (ha : scope a)
    (hreal : c.isHistory a = false) : Grows c scope p p₁ := by
  have hnew (s : Nat) (hs : s ∈ p₁.states) (hn : s ∉ p.states) : s = a :=
    ((hp s).mp hs).resolve_right hn
  refine ⟨fun s hs => (hp s).mpr (.inr hs), fun s hs hn => ?_, fun s hs hn => ?_⟩
  · exact hnew s hs hn ▸ ha
  · exact hnew s hs hn ▸ hreal

/-- In scope the plans are the same. -/
def Alike (scope : Nat → Prop) (p q : EntryPlan) : Prop :=
  ∀ s, scope s → (s ∈ p.states ↔ s ∈ q.states)

/-- The step adds states in scope only, and goes by what is planned there. -/
def Inside (c : Chart) (scope : Nat → Prop) (f : EntryPlan → Option EntryPlan) : Prop :=
  ∀ p q p₁, Alike scope p q → f p = some p₁ →
    Grows c scope p p₁ ∧ ∃ q₁, f q = some q₁ ∧ Alike scope p₁ q₁

theorem Inside.grows (hf : Inside c scope f) (h : f p = some p₁) : Grows c scope p p₁ :=
  (hf p p p₁ (fun _ _ => Iff.rfl) h).1

theorem inside_some (c : Chart) (scope : Nat → Prop) : Inside c scope some := by
  rintro p q p₁ hpq hp₁
  obtain rfl := Option.some.inj hp₁
  exact ⟨.refl c scope p, q, rfl, hpq⟩

theorem Inside.bind (hf : Inside c scope f) (hg : Inside c scope g) :
    Inside c scope fun p => (f p).bind g := by
  rintro p q p₂ hpq h
  obtain ⟨p₁, hp₁, hp₂⟩ := Option.bind_eq_some_iff.mp h
  obtain ⟨hgrow, q₁, hq₁, halike⟩ := hf p q p₁ hpq hp₁
  obtain ⟨hgrow', q₂, hq₂, halike'⟩ := hg p₁ q₁ p₂ halike hp₂
  exact ⟨hgrow.trans hgrow', q₂, by simp [hq₁, hq₂], halike'⟩

/-- What is done first may be to add one state. -/
theorem Inside.after {e : EntryPlan → EntryPlan} (hf : Inside c scope f) (ha : scope a)
    (hreal : c.isHistory a = false) (he : ∀ p s, s ∈ (e p).states ↔ s = a ∨ s ∈ p.states) :
    Inside c scope fun p => f (e p) := by
  rintro p q p₁ hpq h
  have halike : Alike scope (e p) (e q) := fun s hs => by rw [he, he, hpq s hs]
  obtain ⟨hgrow, hrest⟩ := hf (e p) (e q) p₁ halike h
  exact ⟨(grows_of_insert (he p) ha hreal).trans hgrow, hrest⟩

/-- What is done first may be to change nothing but the actions. -/
theorem Inside.congr (hf : Inside c scope f)
    (hg : ∀ p, ∃ p₁, p₁.states = p.states ∧ g p = f p₁) : Inside c scope g := by
  rintro p q p₂ hpq h
  obtain ⟨p₁, hp₁, hgp⟩ := hg p
  obtain ⟨q₁, hq₁, hgq⟩ := hg q
  have halike : Alike scope p₁ q₁ := fun s hs => by rw [hp₁, hq₁, hpq s hs]
  obtain ⟨⟨hmono, hscope, hreal⟩, q₂, hq₂, hend⟩ := hf p₁ q₁ p₂ halike (hgp ▸ h)
  rw [hp₁] at hmono hscope hreal
  exact ⟨⟨hmono, hscope, hreal⟩, q₂, hgq ▸ hq₂, hend⟩

section Steps

variable (wf : c.WellFormed) (closed : Closed c scope)
include wf closed

omit wf in
theorem covers_eq_of_alike (hpq : Alike scope p q) (hr : scope r) :
    p.covers c r = q.covers c r := by
  have hin (s : Nat) (hs : c.Within s r) : scope s := hs.elim (· ▸ hr) (closed s r · hr)
  rw [Bool.eq_iff_iff, covers_iff, covers_iff]
  constructor
  · rintro ⟨s, hs, hsr⟩
    exact ⟨s, (hpq s (hin s hsr)).mp hs, hsr⟩
  · rintro ⟨s, hs, hsr⟩
    exact ⟨s, (hpq s (hin s hsr)).mpr hs, hsr⟩

omit wf in
theorem inside_openRegions (hrs : ∀ r ∈ rs, scope r ∧ Inside c scope (down r)) :
    Inside c scope (openRegions c down rs) := by
  induction rs with
  | nil => exact inside_some c scope
  | cons r rs ih =>
    have ih := ih fun r' hr' => hrs r' (by simp [hr'])
    obtain ⟨hr, hdown⟩ := hrs r (by simp)
    rintro p q p₁ hpq h
    rw [openRegions] at h ⊢
    rw [← covers_eq_of_alike closed hpq hr]
    split at h
    · rename_i hcov
      rw [if_pos hcov]
      exact ih p q p₁ hpq h
    · rename_i hcov
      rw [if_neg hcov]
      exact hdown.bind ih p q p₁ hpq h

variable (hdown : ∀ t, (∀ s, c.Under t s → scope s) → Inside c scope (down t))
include hdown

theorem inside_regions (ha : scope a) : Inside c scope (openRegions c down (c.regions a)) := by
  refine inside_openRegions closed fun r hr => ?_
  obtain ⟨hpar, hreal⟩ := wf.mem_regions.mp hr
  have hr := closed r a (below_of_parent wf.upward hpar) ha
  refine ⟨hr, hdown r fun s hs => ?_⟩
  exact ((Chart.under_of_not_history hreal).mp hs).elim (· ▸ hr) (closed s r · hr)

theorem inside_addAncestors (has : ∀ a ∈ as, scope a ∧ c.isHistory a = false) :
    Inside c scope (addAncestors c down as) := by
  induction as with
  | nil => exact inside_some c scope
  | cons a as ih =>
    have ih := ih fun b hb => has b (by simp [hb])
    obtain ⟨ha, hreal⟩ := has a (by simp)
    have hadd {f : EntryPlan → Option EntryPlan} (hf : Inside c scope f) :
        Inside c scope fun p => f (p.addState a) :=
      hf.after ha hreal fun p s => mem_addState
    by_cases hroot : a = root
    · exact ih.congr fun p => ⟨p, rfl, by simp [addAncestors, hroot]⟩
    · cases hp : (c.node a).isParallel with
      | true =>
        exact (hadd ((inside_regions wf closed hdown ha).bind ih)).congr fun p =>
          ⟨p, rfl, by simp [addAncestors, hroot, hp]⟩
      | false => exact (hadd ih).congr fun p => ⟨p, rfl, by simp [addAncestors, hroot, hp]⟩

omit wf closed in
theorem inside_addAll (hts : ∀ t ∈ ts, ∀ s, c.Under t s → scope s) :
    Inside c scope (addAll down ts) := by
  induction ts with
  | nil => exact inside_some c scope
  | cons t ts ih => exact (hdown t (hts t (by simp))).bind (ih fun u hu => hts u (by simp [hu]))

theorem inside_addAllAncestors (hts : ∀ t ∈ ts, c.Below t top)
    (hanc : ∀ t ∈ ts, ∀ a, c.Below t a → c.Below a top → scope a) :
    Inside c scope (addAllAncestors c down top ts) := by
  induction ts with
  | nil => exact inside_some c scope
  | cons t ts ih =>
    refine (inside_addAncestors wf closed hdown fun a ha => ?_).bind
      (ih (fun u hu => hts u (by simp [hu])) fun u hu => hanc u (by simp [hu]))
    obtain ⟨hta, hat⟩ := (Chart.mem_ancestorsBelow wf (hts t (by simp))).mp ha
    exact ⟨hanc t (by simp) a hta hat, wf.not_history_of_below hta⟩

theorem inside_addTargets (htop : ∀ s, c.Below s top → scope s) (hts : ∀ t ∈ ts, c.Below t top) :
    Inside c scope (addTargets c down top ts) :=
  (inside_addAll hdown fun t ht s hs => htop s (wf.below_of_under (hts t ht) hs)).bind
    (inside_addAllAncestors wf closed hdown hts fun _ _ a _ ha => htop a ha)

end Steps

section Targets

variable (wf : c.WellFormed) (proper : m.Proper c) (closed : Closed c scope)
include wf proper closed

/-- Adding a target adds states under it, whatever has been recorded. -/
theorem inside_addWithin (n : Nat) (ht : ∀ s, c.Under t s → scope s) :
    Inside c scope (addWithin c m n t) := by
  induction n generalizing t with
  | zero => exact fun p q p₁ _ h => absurd h (by simp [addWithin])
  | succ n ih =>
    have hdown (t : Nat) (ht : ∀ s, c.Under t s → scope s) : Inside c scope (addWithin c m n t) :=
      ih ht
    cases hh : c.isHistory t with
    | true =>
      cases hq : c.parent t with
      | none =>
        obtain ⟨d, e, hk⟩ := Chart.exists_kind_of_history hh
        exact (inside_some c scope).congr fun p => ⟨p, rfl, by simp [addWithin, hk, hq]⟩
      | some q =>
        refine (inside_addTargets wf closed hdown (fun s hs => ?_)
          (wf.leads_below proper hh hq)).congr (addWithin_of_history hh hq n)
        exact ht s ((Chart.under_of_history hh hq).mpr hs)
    | false =>
      have hwithin (s : Nat) (hs : c.Within s t) : scope s :=
        ht s ((Chart.under_of_not_history hh).mpr hs)
      have hself := hwithin t (.refl c.parent t)
      have hadd {f : EntryPlan → Option EntryPlan} (hf : Inside c scope f) :
          Inside c scope fun p => f (p.addState t) :=
        hf.after hself hh fun p s => mem_addState
      have halone := hadd (inside_some c scope)
      cases hk : (c.node t).kind with
      | history d e => simp [Chart.isHistory, Node.isHistory, hk] at hh
      | atomic => exact halone.congr fun p => ⟨p, rfl, by simp [addWithin, hk]⟩
      | final => exact halone.congr fun p => ⟨p, rfl, by simp [addWithin, hk]⟩
      | compound i =>
        have hbelow := (wf.defaultTargets_spec (q := t) (by simp [Node.isCompound, hk])).1
        have hall := inside_addTargets wf closed hdown (fun s hs => hwithin s hs.within) hbelow
        exact (hall.after hself hh (e := (addCompound · t)) fun p s => mem_addCompound).congr
          fun p => ⟨p, rfl, by simp [addWithin, hk]⟩
      | parallel =>
        exact (hadd (inside_regions wf closed hdown hself)).congr
          fun p => ⟨p, rfl, by simp [addWithin, hk]⟩

omit closed in
theorem grows_addWithin (ht : c.Below t root) (h : addWithin c m n t p = some p₁) :
    Grows c (c.Under t) p p₁ :=
  (inside_addWithin wf proper (closed_under wf ht) n fun _ hs => hs).grows h

omit closed in
/-- Any target but a history state is planned itself. -/
theorem mem_of_addWithin (hh : c.isHistory t = false) (h : addWithin c m n t p = some p₁) :
    t ∈ p₁.states := by
  cases n with
  | zero => simp [addWithin] at h
  | succ n =>
    have hall : Closed c fun _ => True := fun _ _ _ _ => trivial
    have hdown (t : Nat) (ht : ∀ s, c.Under t s → True) :
        Inside c (fun _ => True) (addWithin c m n t) := inside_addWithin wf proper hall n ht
    unfold addWithin at h
    cases hk : (c.node t).kind with
    | history d e => simp [Chart.isHistory, Node.isHistory, hk] at hh
    | atomic => simp [← show p.addState t = p₁ by simpa [hk] using h]
    | final => simp [← show p.addState t = p₁ by simpa [hk] using h]
    | compound i =>
      simp only [hk] at h
      have hbelow := (wf.defaultTargets_spec (q := t) (by simp [Node.isCompound, hk])).1
      have hgrow := (inside_addTargets wf hall hdown (fun _ _ => trivial) hbelow).grows h
      exact hgrow.mono t (by simp)
    | parallel =>
      simp only [hk] at h
      exact ((inside_regions wf hall hdown trivial).grows h).mono t (by simp)

theorem inside_completeRoot (hroot : ∀ s, c.Below s root → scope s) (x : Configuration) :
    Inside c scope (completeRoot? c x m) := by
  have hgo (rs : List Nat) (hrs : ∀ r ∈ rs, r ∈ c.regions root) :
      Inside c scope (completeRoot?.go c x m rs) := by
    induction rs with
    | nil => exact inside_some c scope
    | cons r rs ih =>
      have ih := ih fun r' hr' => hrs r' (by simp [hr'])
      have hr := below_of_parent wf.upward (wf.mem_regions.mp (hrs r (by simp))).1
      have hdown : Inside c scope (addWithin c m (levels c) r) :=
        inside_addWithin wf proper closed (levels c) fun s hs =>
          hroot s (wf.below_of_under hr hs)
      rintro p q p₁ hpq h
      rw [completeRoot?.go] at h ⊢
      rw [← covers_eq_of_alike closed hpq (hroot r hr)]
      split at h
      · rename_i hcov
        rw [if_pos hcov]
        exact ih p q p₁ hpq h
      · rename_i hcov
        rw [if_neg hcov]
        exact hdown.bind ih p q p₁ hpq h
  unfold completeRoot?
  split
  · exact hgo _ fun r hr => hr
  · exact inside_some c scope

/-- A transition is entered where its targets and its domain are. -/
theorem inside_addTransition (ht : c.Declared tr)
    (hts : ∀ u ∈ tr.targets, ∀ s, c.Under u s → scope s)
    (hdom : ∀ d, c.domain? m tr = some (some d) → ∀ s, c.Below s d → scope s)
    (x : Configuration) : Inside c scope (addTransition? c x m · tr) := by
  have hdown (t : Nat) (ht : ∀ s, c.Under t s → scope s) :
      Inside c scope (addWithin c m (levels c) t) :=
    inside_addWithin wf proper closed (levels c) ht
  have hall := inside_addAll hdown hts
  cases hes : c.effectiveTargets? m tr with
  | none =>
    intro p q p₁ _ h
    obtain ⟨-, es, -, hes', -⟩ := addTransition?_eq_some_iff.mp h
    simp [hes] at hes'
  | some es =>
    cases hd : c.domainOf tr es with
    | none =>
      refine hall.congr fun p => ⟨p, rfl, ?_⟩
      simp only [addTransition?, Option.bind_eq_bind, hes, Option.bind_some, hd]
      exact Option.bind_fun_some _
    | some d =>
      have hin := Chart.domain?_eq_some_iff.mpr ⟨es, hes, hd⟩
      obtain ⟨es', hes', -, henc⟩ := Chart.exists_encloses wf proper ht hin
      obtain rfl := Option.some.inj (hes.symm.trans hes')
      have hlast : Inside c scope fun p => if d = root then completeRoot? c x m p else some p := by
        split
        · rename_i hroot
          exact inside_completeRoot wf proper closed (hroot ▸ hdom d hin) x
        · exact inside_some c scope
      refine (hall.bind ((inside_addAllAncestors wf closed hdown henc.targets
        fun _ _ a _ ha => hdom d hin a ha).bind hlast)).congr fun p => ⟨p, rfl, ?_⟩
      simp only [addTransition?, Option.bind_eq_bind, hes, Option.bind_some, hd]
      rfl

omit closed in
/-- Transitions make no history state active. -/
theorem grows_foldlM (hts : ∀ t ∈ trs, c.Declared t)
    (h : trs.foldlM (addTransition? c x m) p = some p₂) : Grows c (c.Below · root) p p₂ := by
  induction trs generalizing p with
  | nil => exact Option.some.inj h ▸ .refl c _ p
  | cons t trs ih =>
    obtain ⟨p₁, hp₁, hrest⟩ := Option.bind_eq_some_iff.mp h
    have hdecl := hts t (by simp)
    have hone := (inside_addTransition wf proper (closed_below wf root) hdecl
      (fun u hu s hs => wf.below_of_under (hdecl.targets u hu) hs)
      (fun d _ s hs => wf.below_root_of_below hs) x).grows hp₁
    exact hone.trans (ih (fun u hu => hts u (by simp [hu])) hrest)

end Targets

/-! ### Transitions one after the other -/

/-- What the transition makes active, entered alone where nothing is active. -/
def Brings (c : Chart) (m : Memory) (t : Transition) (s : Nat) : Prop :=
  ∃ p, addTransition? c StateSet.empty m {} t = some p ∧ s ∈ p.states

theorem completeRoot?_of_vacant (wf : c.WellFormed) (hx : ∀ i ∈ x, ¬c.Below i root)
    (p : EntryPlan) : completeRoot? c x m p = completeRoot? c StateSet.empty m p := by
  have hgo (rs : List Nat) (hrs : ∀ r ∈ rs, c.Below r root) :
      completeRoot?.go c x m rs = completeRoot?.go c StateSet.empty m rs := by
    induction rs with
    | nil => rfl
    | cons r rs ih =>
      have hr : x.contains r = false := by
        rw [← Bool.not_eq_true, StateSet.contains_iff]
        exact fun hrx => hx r hrx (hrs r (by simp))
      have hempty : StateSet.empty.contains r = false := rfl
      funext p
      simp only [completeRoot?.go, hr, hempty, ih fun r' hr' => hrs r' (by simp [hr'])]
  unfold completeRoot?
  split
  · exact congrFun (hgo _ fun r hr => below_of_parent wf.upward (wf.mem_regions.mp hr).1) p
  · rfl

/-- Which other states are active does not matter to a transition. -/
theorem addTransition?_of_vacant (wf : c.WellFormed)
    (hx : ∀ d, c.domain? m tr = some (some d) → ∀ i ∈ x, ¬c.Below i d) (p : EntryPlan) :
    addTransition? c x m p tr = addTransition? c StateSet.empty m p tr := by
  have hlast (es : List Nat) (hes : c.effectiveTargets? m tr = some es) (d : Nat)
      (hd : c.domainOf tr es = some d) (p : EntryPlan) :
      (if d = root then completeRoot? c x m p else some p) =
        if d = root then completeRoot? c StateSet.empty m p else some p := by
    split
    · rename_i hroot
      exact completeRoot?_of_vacant wf
        (hx root (Chart.domain?_eq_some_iff.mpr ⟨es, hes, hroot ▸ hd⟩)) p
    · rfl
  unfold addTransition?
  cases hes : c.effectiveTargets? m tr with
  | none => rfl
  | some es =>
    cases hd : c.domainOf tr es with
    | none => simp only [Option.bind_eq_bind, Option.bind_some, hd]
    | some d => simp only [Option.bind_eq_bind, Option.bind_some, hd, hlast es hes d hd]

/-- The domains leave room for one another, and every target lies inside its domain. -/
structure Independent (c : Chart) (m : Memory) (ts : List Transition) : Prop where
  declared : ∀ t ∈ ts, c.Declared t
  targets : ∀ t ∈ ts, ∀ d, c.domain? m t = some (some d) → ∀ u ∈ t.targets, c.Below u d
  unrelated : ts.Pairwise fun t u => ∀ a b, c.domain? m t = some (some a) →
    c.domain? m u = some (some b) → ¬c.Within a b ∧ ¬c.Within b a

theorem Independent.perm {us : List Transition} (ind : Independent c m trs) (h : us.Perm trs) :
    Independent c m us where
  declared t ht := ind.declared t (h.mem_iff.mp ht)
  targets t ht := ind.targets t (h.mem_iff.mp ht)
  unrelated := (h.pairwise_iff fun hab a b ha hb => (hab b a hb ha).symm).mpr ind.unrelated

theorem Independent.head (ind : Independent c m (tr :: trs)) : Independent c m [tr] :=
  ⟨fun u hu => ind.declared u (by simp_all), fun u hu => ind.targets u (by simp_all),
    List.pairwise_singleton _ tr⟩

theorem Independent.tail (ind : Independent c m (tr :: trs)) : Independent c m trs :=
  ⟨fun u hu => ind.declared u (by simp [hu]), fun u hu => ind.targets u (by simp [hu]),
    (List.pairwise_cons.mp ind.unrelated).2⟩

section Transitions

variable (wf : c.WellFormed) (sound : m.Sound c)
include wf sound

theorem addTransition?_of_no_domain (ht : c.Declared tr) (hno : c.domain? m tr = some none)
    (h : addTransition? c x m p tr = some p₂) : p₂ = p := by
  obtain ⟨p₁, es, hp₁, hes, hcase⟩ := addTransition?_eq_some_iff.mp h
  obtain ⟨es', hes', hd⟩ := Chart.domain?_eq_some_iff.mp hno
  obtain rfl := Option.some.inj (hes.symm.trans hes')
  rw [Chart.targets_eq_nil_of_domain wf sound ht hno] at hp₁
  obtain rfl := Option.some.inj hp₁
  rcases hcase with ⟨-, rfl⟩ | ⟨d, -, hd', -⟩
  · rfl
  · simp [hd] at hd'

/-- A transition is entered inside its domain. -/
theorem inside_domain (ht : c.Declared tr) (hdom : c.domain? m tr = some (some d))
    (hts : ∀ u ∈ tr.targets, c.Below u d) (x : Configuration) :
    Inside c (c.Below · d) (addTransition? c x m · tr) := by
  refine inside_addTransition wf sound.proper (closed_below wf d) ht
    (fun u hu s hs => wf.below_of_under (hts u hu) hs) (fun d' hd' s hs => ?_) x
  exact Option.some.inj (Option.some.inj (hd'.symm.trans hdom)) ▸ hs

theorem below_of_brings (ht : c.Declared tr)
    (hts : ∀ d, c.domain? m tr = some (some d) → ∀ u ∈ tr.targets, c.Below u d)
    (h : Brings c m tr s) : ∃ d, c.domain? m tr = some (some d) ∧ c.Below s d := by
  obtain ⟨p, hp, hs⟩ := h
  obtain ⟨-, es, -, hes, -⟩ := addTransition?_eq_some_iff.mp hp
  cases hd : c.domainOf tr es with
  | none =>
    have hno := Chart.domain?_eq_some_iff.mpr ⟨es, hes, hd⟩
    rw [addTransition?_of_no_domain wf sound ht hno hp] at hs
    exact absurd hs (StateSet.not_mem_empty s)
  | some d =>
    have hdom := Chart.domain?_eq_some_iff.mpr ⟨es, hes, hd⟩
    have hgrow := (inside_domain wf sound ht hdom (hts d hdom) StateSet.empty).grows hp
    exact ⟨d, hdom, hgrow.scope s hs (StateSet.not_mem_empty s)⟩

/-- A transition adds what it brings along alone, if nothing is planned or active in its domain. -/
theorem mem_addTransition (ht : c.Declared tr)
    (hts : ∀ d, c.domain? m tr = some (some d) → ∀ u ∈ tr.targets, c.Below u d)
    (hx : ∀ d, c.domain? m tr = some (some d) → ∀ i ∈ x, ¬c.Below i d)
    (hp : ∀ d, c.domain? m tr = some (some d) → ∀ i ∈ p.states, ¬c.Below i d)
    (h : addTransition? c x m p tr = some p₁) (s : Nat) :
    s ∈ p₁.states ↔ s ∈ p.states ∨ Brings c m tr s := by
  obtain ⟨-, es, -, hes, -⟩ := addTransition?_eq_some_iff.mp h
  cases hd : c.domainOf tr es with
  | none =>
    have hno := Chart.domain?_eq_some_iff.mpr ⟨es, hes, hd⟩
    rw [addTransition?_of_no_domain wf sound ht hno h, iff_self_or]
    rintro ⟨q, hq, hsq⟩
    rw [addTransition?_of_no_domain wf sound ht hno hq] at hsq
    exact absurd hsq (StateSet.not_mem_empty s)
  | some d =>
    have hdom := Chart.domain?_eq_some_iff.mpr ⟨es, hes, hd⟩
    rw [addTransition?_of_vacant wf hx] at h
    have hclear : Alike (c.Below · d) p {} := fun i hi =>
      ⟨fun hip => absurd hi (hp d hdom i hip), fun hi' => absurd hi' (StateSet.not_mem_empty i)⟩
    obtain ⟨hgrow, q, hq, halike⟩ :=
      inside_domain wf sound ht hdom (hts d hdom) StateSet.empty p {} p₁ hclear h
    have hbrings : Brings c m tr s ↔ s ∈ q.states :=
      ⟨fun ⟨q', hq', hs⟩ => Option.some.inj (hq'.symm.trans hq) ▸ hs, fun hs => ⟨q, hq, hs⟩⟩
    by_cases hsd : c.Below s d
    · rw [halike s hsd, hbrings, or_iff_right fun hsp => hp d hdom s hsp hsd]
    · rw [hgrow.mem_iff hsd, or_iff_left]
      intro hs
      obtain ⟨d', hd', hsd'⟩ := below_of_brings wf sound ht hts hs
      exact hsd (Option.some.inj (Option.some.inj (hdom.symm.trans hd')) ▸ hsd')

theorem mem_foldlM (ind : Independent c m trs)
    (hx : ∀ t ∈ trs, ∀ d, c.domain? m t = some (some d) → ∀ i ∈ x, ¬c.Below i d)
    (hp : ∀ t ∈ trs, ∀ d, c.domain? m t = some (some d) → ∀ i ∈ p.states, ¬c.Below i d)
    (h : trs.foldlM (addTransition? c x m) p = some p₂) (s : Nat) :
    s ∈ p₂.states ↔ s ∈ p.states ∨ ∃ t ∈ trs, Brings c m t s := by
  induction trs generalizing p with
  | nil =>
    obtain rfl := Option.some.inj h
    simp
  | cons t trs ih =>
    have hdecl := ind.declared t (by simp)
    have htargets := ind.targets t (by simp)
    obtain ⟨p₁, hp₁, h⟩ := Option.bind_eq_some_iff.mp h
    have hone := mem_addTransition wf sound hdecl htargets (hx t (by simp)) (hp t (by simp)) hp₁
    -- What the first transition has brought lies in its own domain, clear of the others.
    have hp₂ : ∀ u ∈ trs, ∀ b, c.domain? m u = some (some b) → ∀ i ∈ p₁.states, ¬c.Below i b := by
      intro u hu b hb i hi hib
      rcases (hone i).mp hi with hip | hbrings
      · exact hp u (by simp [hu]) b hb i hip hib
      · obtain ⟨a, ha, hia⟩ := below_of_brings wf sound hdecl htargets hbrings
        obtain ⟨hab, hba⟩ := (List.pairwise_cons.mp ind.unrelated).1 u hu a b ha hb
        exact (hia.within.total wf.upward hib.within).elim hab hba
    rw [ih ind.tail (fun u hu => hx u (by simp [hu])) hp₂ h, hone s, or_assoc]
    simp

end Transitions

end Statechart.EntryPlan

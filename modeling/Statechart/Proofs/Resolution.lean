import Mathlib.Data.Finset.Card
import Mathlib.Data.Finset.Filter
import Mathlib.Data.Finset.Range
import Mathlib.Logic.Relation
import Statechart.Proofs.Agreement
import Statechart.Target

/-!
What a target comes to. A history state leads to states below its parent: those recorded, or else
its default, or else where the parent is entered. Following these leads ends unless they come back
to a history state already passed, and what it ends in lies under the target it started from.
-/
namespace Statechart

open Ancestry (below_of_parent below_iff)

namespace Chart

/-- What can be recorded for a history state of `q`. -/
structure Restorable (c : Chart) (q : Nat) (ss : List Nat) : Prop where
  below : ∀ s ∈ ss, c.Below s q
  real : ∀ s ∈ ss, c.isHistory s = false
  apart : ss.Pairwise c.Apart
  nonempty : ss ≠ []

end Chart

/-- Every record can be restored. -/
def Memory.Sound (c : Chart) (m : Memory) : Prop :=
  ∀ h q ss, c.isHistory h = true → c.parent h = some q → m.get? h = some ss → c.Restorable q ss

/-- Every record names states that can be active, inside the parent of its history state. -/
def Memory.Proper (c : Chart) (m : Memory) : Prop :=
  ∀ h q ss, c.isHistory h = true → c.parent h = some q → m.get? h = some ss →
    ∀ s ∈ ss, c.Below s q ∧ c.isHistory s = false

theorem Memory.Sound.proper {c : Chart} {m : Memory} (sound : m.Sound c) : m.Proper c :=
  fun h q ss hh hq hm s hs =>
    ⟨(sound h q ss hh hq hm).below s hs, (sound h q ss hh hq hm).real s hs⟩

/-- Every record is proper and names something. What it names need not be active together, so a sound
memory is filled, and also serves wherever a filled one does. -/
structure Memory.Filled (c : Chart) (m : Memory) : Prop where
  proper : m.Proper c
  nonempty : ∀ h q ss, c.isHistory h = true → c.parent h = some q → m.get? h = some ss → ss ≠ []

theorem Memory.Sound.filled {c : Chart} {m : Memory} (sound : m.Sound c) : m.Filled c :=
  ⟨sound.proper, fun h q ss hh hq hm => (sound h q ss hh hq hm).nonempty⟩

instance {c : Chart} {m : Memory} : Coe (m.Sound c) (m.Filled c) := ⟨Memory.Sound.filled⟩

@[simp] theorem Memory.get?_empty (h : Nat) : Memory.empty.get? h = none := rfl

theorem Memory.sound_empty (c : Chart) : Memory.empty.Sound c := by
  intro h q ss _ _ hm
  simp at hm

namespace Chart

variable {c : Chart} {m m' : Memory} {a d h n q s t u : Nat} {rs rs' ss : List Nat}

/-- Where the entry of a history state of `q` goes on. -/
def leads (c : Chart) (m : Memory) (h q : Nat) : List Nat :=
  match m.get? h, (c.node h).kind with
  | some ss, _ => ss
  | none, .history _ (some ⟨t :: ts, _⟩) => t :: ts
  | none, _ => c.defaultEntry q

theorem leads_eq_of_get?_eq (hm : m.get? h = m'.get? h) : c.leads m h q = c.leads m' h q := by
  unfold leads
  rw [hm]

theorem leads_of_record (hm : m.get? h = some ss) : c.leads m h q = ss := by
  simp [leads, hm]

theorem exists_kind_of_history (hh : c.isHistory h = true) :
    ∃ d e, (c.node h).kind = .history d e := by
  unfold isHistory Node.isHistory at hh
  cases hk : (c.node h).kind <;> simp_all

theorem WellFormed.leads_spec (wf : c.WellFormed) (sound : m.Sound c) (hh : c.isHistory h = true)
    (hq : c.parent h = some q) :
    (∀ t ∈ c.leads m h q, c.Below t q) ∧ (c.leads m h q).Pairwise c.Apart ∧ c.leads m h q ≠ [] := by
  unfold leads
  split
  · rename_i hm
    have hr := sound h q _ hh hq hm
    exact ⟨hr.below, hr.apart, hr.nonempty⟩
  · rename_i d t ts as hm hk
    exact ⟨(wf.default h q d _ as hk hq).1, (wf.default h q d _ as hk hq).2, by simp⟩
  · exact wf.defaultEntry_spec (wf.inner_of_parent hq)

theorem WellFormed.leads_below (wf : c.WellFormed) (proper : m.Proper c)
    (hh : c.isHistory h = true) (hq : c.parent h = some q) : ∀ t ∈ c.leads m h q, c.Below t q := by
  cases hm : m.get? h with
  | some ss =>
    rw [leads_of_record hm]
    exact fun t ht => (proper h q ss hh hq hm t ht).1
  | none =>
    have hempty : Memory.empty.get? h = m.get? h := by simp [hm]
    rw [← leads_eq_of_get?_eq hempty]
    exact (wf.leads_spec (Memory.sound_empty c) hh hq).1

theorem WellFormed.leads_ne_nil (wf : c.WellFormed) (filled : m.Filled c)
    (hh : c.isHistory h = true) (hq : c.parent h = some q) : c.leads m h q ≠ [] := by
  cases hm : m.get? h with
  | some ss =>
    rw [leads_of_record hm]
    exact filled.nonempty h q ss hh hq hm
  | none =>
    have hempty : Memory.empty.get? h = m.get? h := by simp [hm]
    rw [← leads_eq_of_get?_eq hempty]
    exact (wf.leads_spec (Memory.sound_empty c) hh hq).2.2

/-! ### Chains of history states -/

/-- The default of a history state, or the way its parent is entered, names another. -/
def Refers (c : Chart) (h t : Nat) : Prop :=
  c.isHistory h = true ∧ c.isHistory t = true ∧
    ∃ q, c.parent h = some q ∧ t ∈ c.leads Memory.empty h q

/-- No chain of defaults leads back to the history state it started from. -/
def Grounded (c : Chart) : Prop := ∀ h, ¬Relation.TransGen c.Refers h h

/-- Chains end at once if no history state leads to another. -/
theorem grounded_of_leads (h : ∀ s < c.size, c.isHistory s = true → ∀ q ∈ c.parent s,
    ∀ t ∈ c.leads Memory.empty s q, c.isHistory t = false) : c.Grounded := by
  intro s hs
  obtain ⟨t, ⟨hh, hth, q, hq, ht⟩, -⟩ := Relation.TransGen.head'_iff.mp hs
  exact absurd hth (by simp [h s (lt_size_of_parent hq) hh q hq t ht])

/-- A chart without history states. -/
def HistoryFree (c : Chart) : Prop := ∀ s, c.isHistory s = false

instance (c : Chart) : Decidable c.HistoryFree :=
  decidable_of_iff (∀ s < c.size, c.isHistory s = false) <| by
    refine ⟨fun h s => ?_, fun free s _ => free s⟩
    by_cases hs : s < c.size
    · exact h s hs
    · rw [isHistory, node_of_not_lt hs]
      rfl

theorem HistoryFree.grounded (free : c.HistoryFree) : c.Grounded := by
  intro h hh
  obtain ⟨t, ht, -⟩ := (Relation.TransGen.head'_iff).mp hh
  exact absurd ht.1 (by simp [free h])

theorem HistoryFree.separate (free : c.HistoryFree) : c.Separate := by
  have lone (ts : List Nat) : c.Lone ts := .inr fun t _ ht => absurd ht (by simp [free t])
  exact ⟨fun _ ts _ _ => lone ts, fun _ _ ts _ _ => lone ts, fun _ _ => lone _⟩

theorem HistoryFree.sound (free : c.HistoryFree) (m : Memory) : m.Sound c :=
  fun h _ _ hh => absurd hh (by simp [free h])

/-- Numbers that fall along every chain. -/
structure Ranked (c : Chart) (rank : Nat → Nat) : Prop where
  lt_size : ∀ t < c.size, rank t < c.size
  falls : ∀ h t, c.Refers h t → rank t < rank h

theorem Refers.lt_size (wf : c.WellFormed) (h : c.Refers s t) : t < c.size := by
  obtain ⟨hh, -, q, hq, ht⟩ := h
  exact wf.lt_size_of_below ((wf.leads_spec (Memory.sound_empty c) hh hq).1 t ht)

open Classical in
/-- The number of history states still to come. -/
theorem Grounded.exists_ranked (wf : c.WellFormed) (g : c.Grounded) : ∃ rank, c.Ranked rank := by
  refine ⟨fun t => ((Finset.range c.size).filter (Relation.TransGen c.Refers t)).card, ?_, ?_⟩
  · intro t ht
    have hlt : ((Finset.range c.size).filter (Relation.TransGen c.Refers t)).card <
        (Finset.range c.size).card :=
      Finset.card_lt_card (Finset.filter_ssubset.mpr ⟨t, Finset.mem_range.mpr ht, g t⟩)
    rwa [Finset.card_range] at hlt
  · intro h t ht
    refine Finset.card_lt_card ((Finset.ssubset_iff_of_subset ?_).mpr ⟨t, ?_, ?_⟩)
    · intro u hu
      simp only [Finset.mem_filter] at hu ⊢
      exact ⟨hu.1, .head ht hu.2⟩
    · simpa using ⟨ht.lt_size wf, .single ht⟩
    · simp only [Finset.mem_filter, not_and]
      exact fun _ => g t

/-- A lead that is a history state is not a record. -/
theorem refers_of_mem_leads (proper : m.Proper c) (hh : c.isHistory h = true)
    (hq : c.parent h = some q) (ht : t ∈ c.leads m h q) (hth : c.isHistory t = true) :
    c.Refers h t := by
  refine ⟨hh, hth, q, hq, ?_⟩
  cases hm : m.get? h with
  | none =>
    have hempty : Memory.empty.get? h = m.get? h := by simp [hm]
    rwa [leads_eq_of_get?_eq hempty]
  | some ss =>
    rw [leads_of_record hm] at ht
    exact absurd hth (by simp [(proper h q ss hh hq hm t ht).2])

/-! ### Resolving a target -/

theorem resolveTarget?_of_not_history (ht : c.isHistory t = false) (n : Nat) :
    c.resolveTarget? m (n + 1) t = some [t] := by
  unfold isHistory Node.isHistory at ht
  unfold resolveTarget?
  cases hk : (c.node t).kind <;> simp_all

/-- Whether a history state stands for the states it leads to, and not for what these stand for. -/
def stops (c : Chart) (m : Memory) (h : Nat) : Bool :=
  match m.get? h, (c.node h).kind with
  | none, .history _ (some ⟨_ :: _, _⟩) => false
  | _, _ => true

theorem stops_eq_of_get?_eq (hm : m.get? h = m'.get? h) : c.stops m h = c.stops m' h := by
  unfold stops
  rw [hm]

theorem resolveTarget?_of_history (hh : c.isHistory h = true) (hq : c.parent h = some q) (n : Nat) :
    c.resolveTarget? m (n + 1) h =
      if c.stops m h then some (c.leads m h q)
      else ((c.leads m h q).mapM (c.resolveTarget? m n)).map List.flatten := by
  obtain ⟨d, e, hk⟩ := exists_kind_of_history hh
  unfold leads stops
  cases hm : m.get? h with
  | some ss => simp [resolveTarget?, hk, hm]
  | none =>
    match e with
    | some ⟨t :: ts, _⟩ => simp [resolveTarget?, hk, hm]
    | some ⟨[], _⟩ => simp [resolveTarget?, hk, hm, hq]
    | none => simp [resolveTarget?, hk, hm, hq]

/-- A history state stands for what its leads stand for only while nothing is recorded for it. -/
theorem get?_of_not_stops (h : ¬c.stops m s = true) : m.get? s = none := by
  unfold stops at h
  cases hm : m.get? s with
  | none => rfl
  | some ss => simp [hm] at h

theorem exists_resolveTarget? (wf : c.WellFormed) {rank : Nat → Nat} (ranked : c.Ranked rank)
    (hr : c.Below t root) (hpos : 0 < n) (hn : c.isHistory t = true → rank t + 1 < n) :
    ∃ rs, c.resolveTarget? m n t = some rs := by
  induction n generalizing t with
  | zero => omega
  | succ n ih =>
    cases hh : c.isHistory t with
    | false => exact ⟨_, resolveTarget?_of_not_history hh n⟩
    | true =>
      obtain ⟨q, hq⟩ := wf.exists_parent hr
      rw [resolveTarget?_of_history hh hq]
      split
      · exact ⟨_, rfl⟩
      · rename_i hstops
        have hempty : c.leads m t q = c.leads Memory.empty t q :=
          leads_eq_of_get?_eq (by simp [get?_of_not_stops hstops])
        obtain ⟨rss, hrss⟩ : ∃ rss, (c.leads m t q).mapM (c.resolveTarget? m n) = some rss := by
          apply exists_mapM_eq_some
          intro u hu
          rw [hempty] at hu
          have hub := (wf.leads_spec (Memory.sound_empty c) hh hq).1 u hu
          have := hn hh
          apply ih (wf.below_root_of_below hub) (by omega)
          intro huh
          have := ranked.falls t u ⟨hh, huh, q, hq, hu⟩
          omega
        exact ⟨rss.flatten, by simp [hrss]⟩

/-- Whatever a target resolves to lies under it. -/
theorem WellFormed.under_of_resolved (wf : c.WellFormed) (proper : m.Proper c)
    (hr : c.Below t root) (h : c.resolveTarget? m n t = some rs) : ∀ r ∈ rs, c.Under t r := by
  induction n generalizing t rs with
  | zero => simp [resolveTarget?] at h
  | succ n ih =>
    cases hh : c.isHistory t with
    | false =>
      rw [resolveTarget?_of_not_history hh] at h
      obtain rfl := Option.some.inj h
      simpa [under_of_not_history hh] using Ancestry.Within.refl c.parent t
    | true =>
      obtain ⟨q, hq⟩ := wf.exists_parent hr
      have hbelow := wf.leads_below proper hh hq
      rw [resolveTarget?_of_history hh hq] at h
      split at h
      · obtain rfl := Option.some.inj h
        exact fun r hr => (under_of_history hh hq).mpr (hbelow r hr)
      · intro r hr
        obtain ⟨u, hu, rs, hrs, hrmem⟩ := (mem_collected h).mp hr
        exact (under_of_history hh hq).mpr (wf.below_of_under (hbelow u hu)
          (ih (wf.below_root_of_below (hbelow u hu)) hrs r hrmem))

/-- A target resolves to something. -/
theorem WellFormed.resolved_ne_nil (wf : c.WellFormed) (filled : m.Filled c)
    (hr : c.Below t root) (h : c.resolveTarget? m n t = some rs) : rs ≠ [] := by
  induction n generalizing t rs with
  | zero => simp [resolveTarget?] at h
  | succ n ih =>
    cases hh : c.isHistory t with
    | false =>
      rw [resolveTarget?_of_not_history hh] at h
      simp [← Option.some.inj h]
    | true =>
      obtain ⟨q, hq⟩ := wf.exists_parent hr
      have hbelow := wf.leads_below filled.proper hh hq
      have hne := wf.leads_ne_nil filled hh hq
      rw [resolveTarget?_of_history hh hq] at h
      split at h
      · exact Option.some.inj h ▸ hne
      · obtain ⟨u, hu⟩ := List.exists_mem_of_ne_nil _ hne
        obtain ⟨rs, hrs, hsub⟩ := exists_collected h hu
        obtain ⟨r, hr⟩ :=
          List.exists_mem_of_ne_nil _ (ih (wf.below_root_of_below (hbelow u hu)) hrs)
        exact List.ne_nil_of_mem (hsub r hr)

/-- What a target resolved to lies inside a state exactly when the target's anchor does, unless the
state lies properly below the anchor. -/
theorem WellFormed.resolved_below_iff (wf : c.WellFormed) (filled : m.Filled c)
    (hr : c.Below t root) (h : c.resolveTarget? m n t = some rs)
    (hq : c.isHistory t = true → ∀ q, c.parent t = some q → ¬c.Below d q) :
    (∀ r ∈ rs, c.Below r d) ↔ c.Below t d := by
  have hne := wf.resolved_ne_nil filled hr h
  have hunder := wf.under_of_resolved filled.proper hr h
  constructor
  · intro hbelow
    obtain ⟨r, rs', rfl⟩ := List.exists_cons_of_ne_nil hne
    have hrd := hbelow r (by simp)
    have hrt := hunder r (by simp)
    cases hh : c.isHistory t with
    | false =>
      cases n with
      | zero => simp [resolveTarget?] at h
      | succ n =>
        rw [resolveTarget?_of_not_history hh] at h
        obtain ⟨rfl, -⟩ := List.cons.inj (Option.some.inj h)
        exact hrd
    | true =>
      obtain ⟨q, hp⟩ := wf.exists_parent hr
      have hrq := (under_of_history hh hp).mp hrt
      refine (below_iff wf.upward).mpr ⟨q, hp, ?_⟩
      rcases hrq.within.total wf.upward hrd.within with hw | hw
      · exact hw
      · exact .inl (hw.resolve_right (hq hh q hp)).symm
  · exact fun htd r hr => wf.below_of_under htd (hunder r hr)

/-- What a target resolved to below a state it still resolves to below that state, if the memory of
all that lies above the state is the same. -/
theorem WellFormed.resolved_below_of_memory (wf : c.WellFormed) (filled : m.Filled c)
    (filled' : m'.Filled c)
    (hm : ∀ h q, c.isHistory h = true → c.parent h = some q → c.Below d q → m.get? h = m'.get? h)
    (hr : c.Below t root) (h : c.resolveTarget? m n t = some rs) (hd : ∀ r ∈ rs, c.Below r d)
    (h' : c.resolveTarget? m' n t = some rs') : ∀ r ∈ rs', c.Below r d := by
  induction n generalizing t rs rs' with
  | zero => simp [resolveTarget?] at h
  | succ n ih =>
    cases hh : c.isHistory t with
    | false =>
      rw [resolveTarget?_of_not_history hh] at h h'
      obtain rfl := Option.some.inj (h.symm.trans h')
      exact hd
    | true =>
      obtain ⟨q, hp⟩ := wf.exists_parent hr
      by_cases hdq : c.Below d q
      · -- The state lies below the parent of `t`, so both memories lead from `t` to the same states.
        have hget := hm t q hh hp hdq
        rw [resolveTarget?_of_history hh hp] at h h'
        rw [← stops_eq_of_get?_eq hget, ← leads_eq_of_get?_eq hget] at h'
        split at h
        · rename_i hs
          rw [if_pos hs] at h'
          obtain rfl := Option.some.inj (h.symm.trans h')
          exact hd
        · rename_i hs
          rw [if_neg hs] at h'
          intro r hr'
          obtain ⟨u, hu, rs', hus', hrmem⟩ := (mem_collected h').mp hr'
          obtain ⟨rs, hus, hsub⟩ := exists_collected h hu
          have hub := wf.below_root_of_below (wf.leads_below filled.proper hh hp u hu)
          exact ih hub hus (fun s hs => hd s (hsub s hs)) hus' r hrmem
      · have htd := (wf.resolved_below_iff filled hr h (fun _ q' hp' => by
          rwa [← Option.some.inj (hp.symm.trans hp')])).mp hd
        exact fun r hr' => wf.below_of_under htd (wf.under_of_resolved filled'.proper hr h' r hr')

end Chart

end Statechart

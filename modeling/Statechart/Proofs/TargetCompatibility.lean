import Statechart.Proofs.Domain
import Statechart.Proofs.Restoration

/-!
Targets that can be entered together. The targets of a transition are declared apart, but a history
state among them stands for states elsewhere below its parent. That keeps the list apart unless the
parent is parallel and another target lies below it as well: such a target is in a region that the
history state leads into, too.
-/
namespace Statechart

open Ancestry (below_of_parent child_unique within_parent_of_below)

namespace Chart

variable {c : Chart} {m : Memory} {x : Configuration} {a b h k l n q r s t u v : Nat}
  {rs ts us : List Nat}

/-! ### Where two states meet -/

/-- Neither state lies below the other, and the lowest state above both is parallel. -/
structure MeetsInParallel (c : Chart) (a b : Nat) : Prop where
  not_below : ¬c.Below a b
  not_below' : ¬c.Below b a
  lowest : ∃ q, Ancestry.lowestCommonAncestor? c.parent a b = some q ∧
    (c.node q).isParallel = true

theorem exists_lowestCommonAncestor (ha : c.Below a root) (hb : c.Below b root) :
    ∃ q, Ancestry.lowestCommonAncestor? c.parent a b = some q := by
  apply Option.isSome_iff_exists.mp
  rw [Ancestry.lowestCommonAncestor?, List.find?_isSome]
  exact ⟨root, ha, Ancestry.isDescendant_iff.mpr hb⟩

/-- Different states are apart exactly when they meet in a parallel state. -/
theorem apart_iff_meetsInParallel (up : Ancestry.Upward c.parent) (ha : c.Below a root)
    (hb : c.Below b root) (hne : a ≠ b) : c.Apart a b ↔ c.MeetsInParallel a b := by
  obtain ⟨q, hq⟩ := exists_lowestCommonAncestor ha hb
  obtain ⟨haq, hbq, hleast⟩ := Ancestry.within_of_find?_ancestors up hq
  have hbq := Ancestry.isDescendant_iff.mp hbq
  constructor
  · intro hab
    refine ⟨fun h => hab.not_within h.within, fun h => hab.not_within' h.within, q, hq, ?_⟩
    obtain ⟨k, hk, hak⟩ := haq.exists_child up
    obtain ⟨l, hl, hbl⟩ := hbq.exists_child up
    refine (hab.agree q k l hk hl hak hbl).resolve_left ?_
    -- A child above both would be a lower state above both, unless it is one of them.
    rintro rfl
    rcases hak with rfl | hak
    · exact hab.not_within' hbl
    · rcases hbl with rfl | hbl
      · exact hab.not_within hak.within
      · have hqk := (hleast k hak (Ancestry.isDescendant_iff.mpr hbl)).le up
        have := up k q hk
        omega
  · rintro ⟨hab, hba, p, hp, hparallel⟩
    obtain rfl : q = p := Option.some.inj (hq.symm.trans hp)
    refine ⟨fun h => h.elim hne hab, fun h => h.elim (fun he => hne he.symm) hba, ?_⟩
    intro q' k l hk hl hak hbl
    have haq' := hak.trans_below up (below_of_parent up hk)
    have hbq' := hbl.trans_below up (below_of_parent up hl)
    rcases hleast q' haq' (Ancestry.isDescendant_iff.mpr hbq') with rfl | hqq'
    · exact .inr hparallel
    · obtain ⟨j, hj, hqj⟩ := hqq'.exists_child up
      have hjk := child_unique up hj hk (haq.trans_within up hqj).within hak
      have hjl := child_unique up hj hl (hbq.trans_within up hqj).within hbl
      exact .inl (hjk.symm.trans hjl)

theorem meetsInParallel_of_ne_iff (up : Ancestry.Upward c.parent) (ha : c.Below a root)
    (hb : c.Below b root) : (a ≠ b → c.MeetsInParallel a b) ↔ a = b ∨ c.Apart a b := by
  by_cases hne : a = b
  · simp [hne]
  · simp [hne, apart_iff_meetsInParallel up ha hb hne]

instance : Std.Symm c.Apart := ⟨fun _ _ => Apart.symm⟩

/-! ### What a target comes to -/

/-- The states that a target stands for: itself, or what a history state leads to, or what this
stands for in turn. -/
inductive ComesTo (c : Chart) (m : Memory) : Nat → Nat → Prop
  | self {t : Nat} : c.isHistory t = false → ComesTo c m t t
  | lead {h q a : Nat} : c.isHistory h = true → c.parent h = some q → c.stops m h = true →
      a ∈ c.leads m h q → ComesTo c m h a
  | through {h q t a : Nat} : c.isHistory h = true → c.parent h = some q → c.stops m h = false →
      t ∈ c.leads m h q → ComesTo c m t a → ComesTo c m h a

theorem comesTo_self_iff (hh : c.isHistory t = false) : c.ComesTo m t a ↔ a = t := by
  constructor
  · intro h
    cases h with
    | self => rfl
    | lead hh' => simp [hh] at hh'
    | through hh' => simp [hh] at hh'
  · rintro rfl
    exact .self hh

section History

variable (hh : c.isHistory h = true) (hq : c.parent h = some q)
include hh hq

theorem comesTo_lead_iff (hstop : c.stops m h = true) : c.ComesTo m h a ↔ a ∈ c.leads m h q := by
  constructor
  · intro h
    cases h with
    | self hh' => simp [hh] at hh'
    | lead _ hq' _ ha => exact Option.some.inj (hq'.symm.trans hq) ▸ ha
    | through _ _ hstop' => simp [hstop] at hstop'
  · exact .lead hh hq hstop

theorem comesTo_through_iff (hstop : c.stops m h = false) :
    c.ComesTo m h a ↔ ∃ t ∈ c.leads m h q, c.ComesTo m t a := by
  constructor
  · intro h
    cases h with
    | self hh' => simp [hh] at hh'
    | lead _ _ hstop' => simp [hstop] at hstop'
    | through _ hq' _ ht ha => exact ⟨_, Option.some.inj (hq'.symm.trans hq) ▸ ht, ha⟩
  · rintro ⟨t, ht, ha⟩
    exact .through hh hq hstop ht ha

end History

section WellFormed

variable (wf : c.WellFormed)
include wf

/-- Resolving a target lists what it comes to. -/
theorem mem_resolved_iff (proper : m.Proper c) (ht : c.Below t root)
    (h : c.resolveTarget? m n t = some rs) : a ∈ rs ↔ c.ComesTo m t a := by
  induction n generalizing t rs with
  | zero => simp [resolveTarget?] at h
  | succ n ih =>
    cases hh : c.isHistory t with
    | false =>
      rw [resolveTarget?_of_not_history hh] at h
      rw [comesTo_self_iff hh, ← Option.some.inj h, List.mem_singleton]
    | true =>
      obtain ⟨q, hq⟩ := wf.exists_parent ht
      have hbelow := wf.leads_below proper hh hq
      rw [resolveTarget?_of_history hh hq] at h
      cases hstop : c.stops m t with
      | true =>
        rw [hstop, if_pos rfl] at h
        rw [comesTo_lead_iff hh hq hstop, ← Option.some.inj h]
      | false =>
        rw [hstop, if_neg (by simp)] at h
        rw [comesTo_through_iff hh hq hstop, mem_collected h]
        constructor
        · rintro ⟨u, hu, zs, hzs, ha⟩
          exact ⟨u, hu, (ih (wf.below_root_of_below (hbelow u hu)) hzs).mp ha⟩
        · rintro ⟨u, hu, ha⟩
          obtain ⟨zs, hzs, -⟩ := exists_collected h hu
          exact ⟨u, hu, zs, hzs, (ih (wf.below_root_of_below (hbelow u hu)) hzs).mpr ha⟩

theorem under_of_comesTo (proper : m.Proper c) (h : c.ComesTo m t a) : c.Under t a := by
  induction h with
  | self hh => exact (under_of_not_history hh).mpr (.refl c.parent _)
  | lead hh hq _ ha => exact (under_of_history hh hq).mpr (wf.leads_below proper hh hq _ ha)
  | through hh hq _ ht _ ih =>
    exact (under_of_history hh hq).mpr (wf.below_of_under (wf.leads_below proper hh hq _ ht) ih)

end WellFormed

/-! ### Lists with a history state of a parallel state -/

/-- The history state belongs to a parallel state, below which the other state lies as well. -/
structure Crowds (c : Chart) (h v q : Nat) : Prop where
  history : c.isHistory h = true
  parent : c.parent h = some q
  parallel : (c.node q).isParallel = true
  below : c.Below v q
  ne : v ≠ h

/-- The list of targets itself, and with a list the defaults of the history states in it that stand
for what their defaults come to. -/
inductive Unfolds (c : Chart) (m : Memory) (ts : List Nat) : List Nat → Prop
  | self : Unfolds c m ts ts
  | default {us : List Nat} {h q : Nat} : Unfolds c m ts us → h ∈ us → c.isHistory h = true →
      c.parent h = some q → c.stops m h = false → Unfolds c m ts (c.leads m h q)

/-- What is listed deeper is part of what the targets come to. -/
theorem Unfolds.exists_comesTo (h : c.Unfolds m ts us) (hu : u ∈ us) (ha : c.ComesTo m u a) :
    ∃ t ∈ ts, c.ComesTo m t a := by
  induction h generalizing u with
  | self => exact ⟨u, hu, ha⟩
  | default _ hmem hh hq hstop ih => exact ih hmem (.through hh hq hstop hu ha)

section WellFormed

variable (wf : c.WellFormed)
include wf

theorem Unfolds.spec (sound : m.Sound c) (hts : ∀ t ∈ ts, c.Below t root)
    (hapart : ts.Pairwise c.Apart) (h : c.Unfolds m ts us) :
    (∀ u ∈ us, c.Below u root) ∧ us.Pairwise c.Apart := by
  cases h with
  | self => exact ⟨hts, hapart⟩
  | default _ _ hh hq _ =>
    obtain ⟨hbelow, hleads, -⟩ := wf.leads_spec sound hh hq
    exact ⟨fun u hu => wf.below_root_of_below (hbelow u hu), hleads⟩

theorem within_anchor (hu : c.Below u root) : c.Within u (c.anchor u) := by
  cases hh : c.isHistory u with
  | false => exact .inl (anchor_of_not_history hh).symm
  | true =>
    obtain ⟨q, hq⟩ := wf.exists_parent hu
    rw [anchor_of_history hh hq]
    exact (below_of_parent wf.upward hq).within

/-- A state apart from a target is apart from the target's anchor, unless it lies below a parallel
state whose history state the target is. -/
theorem apart_anchor_of_clear (h : c.Apart u b) (hu : c.Below u root)
    (hclear : ∀ q, c.isHistory u = true → c.parent u = some q →
      (c.node q).isParallel = true → ¬c.Below b q) : c.Apart (c.anchor u) b := by
  by_cases hpar : c.isHistory u = true ∧ ∃ q, c.parent u = some q ∧ (c.node q).isParallel = true
  · obtain ⟨hh, q, hq, hqp⟩ := hpar
    have huq := below_of_parent wf.upward hq
    rw [anchor_of_history hh hq]
    refine ⟨fun hqb => h.not_within (huq.within.trans wf.upward hqb), ?_,
      h.agree.above wf.upward huq.within⟩
    rintro (rfl | hbq)
    · exact h.not_within huq.within
    · exact hclear q hh hq hqp hbq
  · refine wf.apart_anchor_left h hu fun hh q hq => ?_
    by_contra hqp
    exact hpar ⟨hh, q, hq, by simpa using hqp⟩

/-- What two targets come to is apart if neither is a history state of a parallel state with the
other one below it. -/
theorem apart_of_comesTo (proper : m.Proper c) (h : c.Apart u v) (hu : c.Below u root)
    (hv : c.Below v root) (huv : ∀ q, ¬c.Crowds u v q) (hvu : ∀ q, ¬c.Crowds v u q)
    (ha : c.ComesTo m u a) (hb : c.ComesTo m v b) : c.Apart a b := by
  have hne : u ≠ v := fun he => h.not_within (.inl he)
  have hleft : c.Apart (c.anchor u) v :=
    apart_anchor_of_clear wf h hu fun q hh hq hqp hvq => huv q ⟨hh, hq, hqp, hvq, hne.symm⟩
  have hboth : c.Apart (c.anchor v) (c.anchor u) := by
    refine apart_anchor_of_clear wf hleft.symm hv fun q hh hq hqp huq => hvu q ⟨hh, hq, hqp, ?_, hne⟩
    exact (within_anchor wf hu).trans_below wf.upward huq
  exact hboth.symm.inside wf.upward (under_of_comesTo wf proper ha).within_anchor
    (under_of_comesTo wf proper hb).within_anchor

end WellFormed

section Unfolded

variable (wf : c.WellFormed) (sound : m.Sound c) (hts : ∀ t ∈ ts, c.Below t root)
  (hapart : ts.Pairwise c.Apart)
  (hcrowds : ∀ us, c.Unfolds m ts us → ∀ h ∈ us, ∀ v ∈ us, ∀ q, c.Crowds h v q →
    ∀ a b, c.ComesTo m h a → c.ComesTo m v b → a = b ∨ c.Apart a b)
include wf sound hts hapart hcrowds

/-- What two targets of one list come to. -/
theorem Unfolds.eq_or_apart (hus : c.Unfolds m ts us) (hu : u ∈ us) (hv : v ∈ us) (hne : u ≠ v)
    (ha : c.ComesTo m u a) (hb : c.ComesTo m v b) : a = b ∨ c.Apart a b := by
  obtain ⟨hroot, hpair⟩ := hus.spec wf sound hts hapart
  by_cases huv : ∃ q, c.Crowds u v q
  · obtain ⟨q, hq⟩ := huv
    exact hcrowds us hus u hu v hv q hq a b ha hb
  by_cases hvu : ∃ q, c.Crowds v u q
  · obtain ⟨q, hq⟩ := hvu
    exact (hcrowds us hus v hv u hu q hq b a hb ha).imp Eq.symm Apart.symm
  have h : c.Apart u v := hpair.forall hu hv hne
  exact .inr (apart_of_comesTo wf sound.proper h (hroot u hu) (hroot v hv)
    (fun q hq => huv ⟨q, hq⟩) (fun q hq => hvu ⟨q, hq⟩) ha hb)

/-- What one target comes to. The induction goes along the chain of defaults to the first state. -/
theorem Unfolds.eq_or_apart_self (hus : c.Unfolds m ts us) (hu : u ∈ us) (ha : c.ComesTo m u a)
    (hb : c.ComesTo m u b) : a = b ∨ c.Apart a b := by
  induction ha generalizing us with
  | self hh => exact .inl ((comesTo_self_iff hh).mp hb).symm
  | @lead h q a hh hq hstop ha =>
    have hb := (comesTo_lead_iff hh hq hstop).mp hb
    by_cases hab : a = b
    · exact .inl hab
    · exact .inr ((wf.leads_spec sound hh hq).2.1.forall ha hb hab)
  | @through h q t a hh hq hstop ht ha ih =>
    obtain ⟨t', ht', hb⟩ := (comesTo_through_iff hh hq hstop).mp hb
    have hdefault := hus.default hu hh hq hstop
    by_cases htt : t = t'
    · exact ih hdefault ht (htt ▸ hb)
    · exact hdefault.eq_or_apart wf sound hts hapart hcrowds ht ht' htt ha hb

end Unfolded

/-! ### What a history state of a parallel state leaves no room for -/

theorem leads_of_stops (hstop : c.stops m h = true) (hnone : m.get? h = none) :
    c.leads m h q = c.defaultEntry q := by
  unfold stops at hstop
  unfold leads
  rw [hnone] at hstop ⊢
  split <;> simp_all

section Stops

variable (wf : c.WellFormed)
include wf

/-- Going up from a state that is not active the first active one is reached from a child that is
not. -/
theorem exists_inactive_child (hq : x.Active q) (hb : c.Below b q) (hbx : ¬x.Active b) :
    ∃ w k, c.parent k = some w ∧ c.Within b k ∧ c.Within w q ∧ x.Active w ∧ ¬x.Active k := by
  induction b using Nat.strongRecOn with
  | ind b ih =>
    obtain ⟨p, hp, hpq⟩ := (Ancestry.below_iff wf.upward).mp hb
    by_cases hpx : x.Active p
    · exact ⟨p, b, hp, .refl c.parent b, hpq, hpx, hbx⟩
    · have hpq : c.Below p q := hpq.resolve_left fun he => hpx (he ▸ hq)
      obtain ⟨w, k, hk, hpk, hrest⟩ := ih p (wf.upward b p hp) hpq hpx
      exact ⟨w, k, hk, (below_of_parent wf.upward hp).within.trans wf.upward hpk, hrest⟩

/-- What lies in the active region of a compound state is not apart from what lies in another. -/
theorem not_apart_of_single (hk : k ∈ c.regions q) (hl : l ∈ c.regions q) (hne : k ≠ l)
    (hqc : (c.node q).isCompound = true) (hak : c.Within a k) (hbl : c.Within b l) :
    a ≠ b ∧ ¬c.Apart a b := by
  have hk := (wf.mem_regions.mp hk).1
  have hl := (wf.mem_regions.mp hl).1
  constructor
  · rintro rfl
    exact hne (child_unique wf.upward hk hl hak hbl)
  · intro hab
    rcases hab.agree q k l hk hl hak hbl with he | hp
    · exact hne he
    · simp [Node.not_parallel_of_compound hqc] at hp

/-- What is recorded on leaving a parallel state reaches into every region of it, so it keeps every
state below that is not recorded from being entered as well. -/
theorem exists_recorded_not_apart (hx : x.Valid c) (hq : q ∈ x)
    (hqp : (c.node q).isParallel = true) (hh : c.isHistory h = true) (hp : c.parent h = some q)
    (hb : c.Below b q) (hreal : c.isHistory b = false) (hnot : b ∉ c.recorded x h) :
    ∃ a ∈ c.recorded x h, a ≠ b ∧ ¬c.Apart a b := by
  obtain ⟨depth, default, hkind⟩ := exists_kind_of_history hh
  cases depth with
  | shallow =>
    have hmem (a : Nat) : a ∈ c.recorded x h ↔ a ∈ x ∧ c.parent a = some q := by
      simp only [recorded, hkind, hp]
      exact c.mem_toRecord x q .shallow
    obtain ⟨r, hr, hbr⟩ := wf.exists_region_above hb hreal
    have hrec := (hmem r).mpr ⟨hx.every q (.inr hq) hqp r hr, (wf.mem_regions.mp hr).1⟩
    have hne : r ≠ b := fun he => hnot (he ▸ hrec)
    exact ⟨r, hrec, hne, fun hab => hab.not_within' hbr⟩
  | deep =>
    have hmem (s : Nat) (hs : c.Below s q) := mem_iff_of_deep wf hx hp hkind hs
    by_cases hbx : b ∈ x
    · obtain ⟨e, he, heb⟩ := (hmem b hb).mp hbx
      exact ⟨e, he, fun h => hnot (h ▸ he), fun hab => hab.not_within heb⟩
    · have hinactive : ¬x.Active b := fun h => hbx (h.mem (wf.ne_root_of_below hb))
      obtain ⟨w, k, hk, hbk, hwq, hw, hkx⟩ := exists_inactive_child wf (.inr hq) hb hinactive
      have hkr : k ∈ c.regions w := by
        refine wf.mem_regions.mpr ⟨hk, ?_⟩
        rcases hbk with rfl | hbk
        · exact hreal
        · exact wf.not_history_of_below hbk
      have hwc : (c.node w).isCompound = true := by
        refine (wf.inner_of_parent hk).resolve_right fun hwp => hkx ?_
        exact .inr (hx.every w hw hwp k hkr)
      obtain ⟨l, hl, hlx, -⟩ := hx.single w hw hwc
      have hlq := (below_of_parent wf.upward (wf.mem_regions.mp hl).1).trans_within wf.upward hwq
      obtain ⟨e, he, hel⟩ := (hmem l hlq).mp hlx
      exact ⟨e, he, not_apart_of_single wf hl hkr (fun h => hkx (h ▸ .inr hlx)) hwc hel hbk⟩

/-- A state beside a history state that crowds it, and that stands for its record or for all regions,
is apart from what that stands for only if it is among it. -/
theorem Crowds.mem_leads_iff (faithful : m.Faithful c) (hcrowd : c.Crowds h v q)
    (hv : c.isHistory v = false) (hstop : c.stops m h = true) :
    (∀ a ∈ c.leads m h q, a = v ∨ c.Apart a v) ↔ v ∈ c.leads m h q := by
  obtain ⟨hh, hq, hqp, hvq, -⟩ := hcrowd
  constructor
  · intro hall
    by_contra hnot
    obtain ⟨a, ha, hne, hapart⟩ : ∃ a ∈ c.leads m h q, a ≠ v ∧ ¬c.Apart a v := by
      cases hget : m.get? h with
      | some ss =>
        rw [leads_of_record hget] at hnot ⊢
        obtain ⟨-, x, p, hx, hpx, hp, rfl⟩ := faithful h ss hget
        obtain rfl : q = p := Option.some.inj (hq.symm.trans hp)
        exact exists_recorded_not_apart wf hx hpx hqp hh hq hvq hv hnot
      | none =>
        have hleads : c.leads m h q = c.regions q := by
          rw [leads_of_stops hstop hget, defaultEntry, if_pos hqp]
        rw [hleads] at hnot ⊢
        obtain ⟨r, hr, hvr⟩ := wf.exists_region_above hvq hv
        exact ⟨r, hr, fun he => hnot (he ▸ hr), fun hab => hab.not_within' hvr⟩
    exact (hall a ha).elim hne hapart
  · intro hmem a ha
    by_cases hav : a = v
    · exact .inl hav
    · exact .inr ((wf.leads_spec (faithful.sound wf) hh hq).2.1.forall ha hmem hav)

end Stops

/-! ### Transitions -/

section Targets

variable (wf : c.WellFormed) (sound : m.Sound c) (hts : ∀ t ∈ ts, c.Below t root)
include wf sound hts

theorem below_root_of_comesTo (ht : t ∈ ts) (ha : c.ComesTo m t a) : c.Below a root :=
  wf.below_of_under (hts t ht) (under_of_comesTo wf sound.proper ha)

/-- What the targets come to is compatible if that holds wherever a history state is crowded. -/
theorem comesTo_compatible_iff (hapart : ts.Pairwise c.Apart) :
    (∀ t ∈ ts, ∀ u ∈ ts, ∀ a b, c.ComesTo m t a → c.ComesTo m u b → a = b ∨ c.Apart a b) ↔
      ∀ us, c.Unfolds m ts us → ∀ h ∈ us, ∀ v ∈ us, ∀ q, c.Crowds h v q →
        ∀ a b, c.ComesTo m h a → c.ComesTo m v b → a = b ∨ c.Apart a b := by
  constructor
  · intro hall us hus h hh v hv q _ a b ha hb
    obtain ⟨t, ht, ha⟩ := hus.exists_comesTo hh ha
    obtain ⟨u, hu, hb⟩ := hus.exists_comesTo hv hb
    exact hall t ht u hu a b ha hb
  · intro hcrowds t ht u hu a b ha hb
    by_cases htu : t = u
    · exact Unfolds.self.eq_or_apart_self wf sound hts hapart hcrowds ht ha (htu ▸ hb)
    · exact Unfolds.self.eq_or_apart wf sound hts hapart hcrowds ht hu htu ha hb

end Targets

/-- The states that the targets of a transition come to are unrelated and meet in parallel states,
two by two, unless a history state of a parallel state is listed beside another state below that
one, among the targets or in the default of a history state that they lead to. Exactly then it may
fail: a state so listed that is no history state must be among those that the history state stands
for, be it by a record or because all regions are entered. -/
theorem effectiveTargets_compatible_iff {d : ChartDecl} (hb : d.build = .ok c) (g : c.Grounded)
    (faithful : m.Faithful c) (hr : r < c.transitions.size) :
    ∃ es, c.effectiveTargets? m (c.transition r) = some es ∧
      (∀ a, a ∈ es ↔ ∃ t ∈ (c.transition r).targets, c.ComesTo m t a) ∧
      ((∀ a ∈ es, ∀ b ∈ es, a ≠ b → c.MeetsInParallel a b) ↔
        ∀ us, c.Unfolds m (c.transition r).targets us → ∀ h ∈ us, ∀ v ∈ us, ∀ q, c.Crowds h v q →
          ∀ a b, c.ComesTo m h a → c.ComesTo m v b → a ≠ b → c.MeetsInParallel a b) ∧
      ∀ us, c.Unfolds m (c.transition r).targets us → ∀ h ∈ us, ∀ v ∈ us, ∀ q, c.Crowds h v q →
        c.isHistory v = false → c.stops m h = true →
        ((∀ a, c.ComesTo m h a → a ≠ v → c.MeetsInParallel a v) ↔ c.ComesTo m h v) := by
  have wf := ChartDecl.wellFormed_of_build hb
  have sound := faithful.sound wf
  obtain ⟨hts, hapart⟩ := wf.targets r hr
  obtain ⟨es, hes⟩ := exists_effectiveTargets_of_below (m := m) wf g hts
  have hmem (a : Nat) : a ∈ es ↔ ∃ t ∈ (c.transition r).targets, c.ComesTo m t a := by
    rw [mem_effectiveTargets hes]
    refine exists_congr fun t => and_congr_right fun ht => ?_
    constructor
    · rintro ⟨rs, hrs, ha⟩
      exact (mem_resolved_iff wf sound.proper (hts t ht) hrs).mp ha
    · intro ha
      obtain ⟨rs, hrs, -⟩ := exists_resolved hes ht
      exact ⟨rs, hrs, (mem_resolved_iff wf sound.proper (hts t ht) hrs).mpr ha⟩
  have hroot {us : List Nat} {u a : Nat} (hus : c.Unfolds m (c.transition r).targets us)
      (hu : u ∈ us) (ha : c.ComesTo m u a) : c.Below a root := by
    obtain ⟨t, ht, ha⟩ := hus.exists_comesTo hu ha
    exact below_root_of_comesTo wf sound hts ht ha
  refine ⟨es, hes, hmem, ?_, fun us hus h hh v hv q hcrowd hreal hstop => ?_⟩
  · have hcompatible := comesTo_compatible_iff wf sound hts hapart
    constructor
    · intro hall us hus h hh v hv q hcrowd a b ha hb
      rw [meetsInParallel_of_ne_iff wf.upward (hroot hus hh ha) (hroot hus hv hb)]
      refine hcompatible.mp (fun t ht u hu a b ha hb => ?_) us hus h hh v hv q hcrowd a b ha hb
      rw [← meetsInParallel_of_ne_iff wf.upward (hroot .self ht ha) (hroot .self hu hb)]
      exact hall a ((hmem a).mpr ⟨t, ht, ha⟩) b ((hmem b).mpr ⟨u, hu, hb⟩)
    · intro hcrowds a ha b hb
      obtain ⟨t, ht, ha⟩ := (hmem a).mp ha
      obtain ⟨u, hu, hb⟩ := (hmem b).mp hb
      rw [meetsInParallel_of_ne_iff wf.upward (hroot .self ht ha) (hroot .self hu hb)]
      refine hcompatible.mpr (fun us hus h hh v hv q hcrowd a b ha hb => ?_) t ht u hu a b ha hb
      rw [← meetsInParallel_of_ne_iff wf.upward (hroot hus hh ha) (hroot hus hv hb)]
      exact hcrowds us hus h hh v hv q hcrowd a b ha hb
  · have hlead (a : Nat) := comesTo_lead_iff (a := a) hcrowd.history hcrowd.parent hstop
    rw [hlead v, ← hcrowd.mem_leads_iff wf faithful hreal hstop]
    refine forall_congr' fun a => ?_
    rw [hlead a]
    refine imp_congr_right fun ha => ?_
    exact meetsInParallel_of_ne_iff wf.upward (hroot hus hh ((hlead a).mpr ha))
      (hroot hus hv (.self hreal))

end Chart

/-- Two belts that run side by side, with a way back to where they were stopped that names one of
them as well. -/
def belts : ChartDecl where
  name := "Belts"
  states := [
    (StateDecl.plain "stopped").withTransition (((TransitionDecl.on "go").to "last").to "fast"),
    (((StateDecl.parallel "running").withChild (.history "last" .shallow)).withChild
      (((StateDecl.plain "left").withChild (.plain "slow")).withChild (.plain "fast"))).withChild
        ((StateDecl.plain "right").withChild (.plain "steady"))]

/-- The belt that is named lies in a region that the way back leads into, so the targets come to a
region and a state below it. -/
theorem belts_not_compatible : belts.build = .ok belts.chart ∧ belts.chart.Grounded ∧
    Memory.empty.Faithful belts.chart ∧ 0 < belts.chart.transitions.size ∧
    (belts.chart.transition 0).targets = [3, 6] ∧ belts.chart.Crowds 3 6 2 ∧
    belts.chart.effectiveTargets? .empty (belts.chart.transition 0) = some [4, 6, 7] ∧
    belts.chart.Below 6 4 ∧
    ¬∀ a ∈ [4, 6, 7], ∀ b ∈ [4, 6, 7], a ≠ b → belts.chart.MeetsInParallel a b := by
  have hb : belts.build = .ok belts.chart := ChartDecl.build_eq_chart (by decide +kernel)
  have g : belts.chart.Grounded := Chart.grounded_of_leads (by decide +kernel)
  have faithful : Memory.empty.Faithful belts.chart := Memory.faithful_empty _
  have hr : 0 < belts.chart.transitions.size := by decide +kernel
  have htargets : (belts.chart.transition 0).targets = [3, 6] := by decide +kernel
  have hcrowd : belts.chart.Crowds 3 6 2 :=
    ⟨by decide +kernel, by decide +kernel, by decide +kernel,
      Ancestry.isDescendant_iff.mp (by decide +kernel), by decide⟩
  have hes : belts.chart.effectiveTargets? .empty (belts.chart.transition 0) = some [4, 6, 7] := by
    decide +kernel
  have hbelow : belts.chart.Below 6 4 := Ancestry.isDescendant_iff.mp (by decide +kernel)
  obtain ⟨es, hes', -, hcompatible, hcrowded⟩ :=
    Chart.effectiveTargets_compatible_iff hb g faithful hr
  obtain rfl := Option.some.inj (hes.symm.trans hes')
  refine ⟨hb, g, faithful, hr, htargets, hcrowd, hes, hbelow, fun hall => ?_⟩
  have hstop : belts.chart.stops .empty 3 = true := by decide +kernel
  have hhere := hcrowded [3, 6] (htargets ▸ .self) 3 (by simp) 6 (by simp) 2 hcrowd
    (by decide +kernel) hstop
  have hcomes := hhere.mp fun a ha => hcompatible.mp hall [3, 6] (htargets ▸ .self) 3 (by simp) 6
    (by simp) 2 hcrowd a 6 ha (.self (by decide +kernel))
  have hmem := (Chart.comesTo_lead_iff hcrowd.history hcrowd.parent hstop).mp hcomes
  revert hmem
  decide +kernel

end Statechart

import Mathlib.Data.List.Pairwise
import Statechart.Proofs.Domain
import Statechart.Proofs.ValidConfiguration
import Statechart.Selection

/-!
Conflict-free selection. Candidates that are chosen never conflict, whatever comes and goes while
the choice is made. In a valid configuration some active state lies below every domain, so the
domains of transitions chosen together are unrelated.
-/
namespace Statechart

theorem StateSet.toList_foldl_insert (is : List Nat) (s : StateSet) :
    (is.foldl StateSet.insert s).toList = is.foldl (fun s k => Ordered.insert k s) s.toList := by
  induction is generalizing s with
  | nil => rfl
  | cons i is ih => exact ih (s.insert i)

theorem StateSet.toList_ofList_eq (is : List Nat) : (ofList is).toList = Ordered.ofList is :=
  toList_foldl_insert is empty

namespace Candidate

variable {a b : Candidate}

theorem conflicts_comm (a b : Candidate) : a.conflicts b = b.conflicts a := by
  have hdisj : a.exits.disjoint b.exits = b.exits.disjoint a.exits := by
    rw [Bool.eq_iff_iff, StateSet.disjoint_iff, StateSet.disjoint_iff]
    exact ⟨fun h i hb ha => h i ha hb, fun h i ha hb => h i hb ha⟩
  rw [conflicts, conflicts, hdisj, Bool.or_assoc, Bool.or_assoc]
  congr 1
  exact Bool.or_comm _ _

theorem exits_disjoint (h : a.conflicts b = false) : ∀ i, i ∈ a.exits → i ∉ b.exits := by
  simp only [conflicts, Bool.or_eq_false_iff, Bool.not_eq_false'] at h
  exact StateSet.disjoint_iff.mp h.1.1

end Candidate

namespace Selection

variable {chosen cs : List Candidate} {new a : Candidate}

theorem consider_subset (h : a ∈ consider chosen new) : a ∈ chosen ∨ a = new := by
  unfold consider at h
  split at h
  · exact .inl h
  · rcases List.mem_append.mp h with h | h
    · exact .inl (List.mem_filter.mp h).1
    · exact .inr (List.mem_singleton.mp h)

theorem consider_pairwise (h : chosen.Pairwise (fun a b => a.conflicts b = false))
    (new : Candidate) : (consider chosen new).Pairwise (fun a b => a.conflicts b = false) := by
  unfold consider
  split
  · exact h
  · refine List.pairwise_append.mpr ⟨h.filter _, List.pairwise_singleton _ _, fun a ha b hb => ?_⟩
    obtain rfl := List.mem_singleton.mp hb
    simpa using (List.mem_filter.mp ha).2

theorem foldl_consider (h : chosen.Pairwise (fun a b => a.conflicts b = false)) :
    (∀ a ∈ cs.foldl consider chosen, a ∈ chosen ∨ a ∈ cs) ∧
      (cs.foldl consider chosen).Pairwise (fun a b => a.conflicts b = false) := by
  induction cs generalizing chosen with
  | nil => exact ⟨fun a ha => .inl ha, h⟩
  | cons new cs ih =>
    obtain ⟨hsub, hpair⟩ := ih (consider_pairwise h new)
    refine ⟨fun a ha => ?_, hpair⟩
    rcases hsub a ha with ha | ha
    · exact (consider_subset ha).imp_right fun he => by simp [he]
    · exact .inr (by simp [ha])

/-- Only candidates are chosen. -/
theorem resolve_subset (h : a ∈ resolve cs) : a ∈ cs :=
  ((foldl_consider .nil).1 a h).resolve_left (by simp)

/-- No two chosen candidates conflict. -/
theorem resolve_pairwise (cs : List Candidate) :
    (resolve cs).Pairwise (fun a b => a.conflicts b = false) :=
  (foldl_consider .nil).2

theorem mem_ranks {r : Nat} : r ∈ ranks chosen ↔ ∃ a ∈ chosen, a.rank = r := by
  rw [ranks, ← StateSet.toList_ofList_eq, StateSet.mem_toList, StateSet.mem_ofList]
  simp

theorem ranks_ascending (chosen : List Candidate) : (ranks chosen).Pairwise (· < ·) := by
  rw [ranks, ← StateSet.toList_ofList_eq]
  exact StateSet.ascending _

end Selection

namespace Chart

variable {c : Chart} {m : Memory} {x : Configuration} {d e i r : Nat} {enabled ranks : List Nat}
  {t : Transition} {exits : StateSet}

theorem exitSet?_eq_some_iff : c.exitSet? x m t = some exits ↔
    ∃ o, c.domain? m t = some o ∧ c.exitsBelow x o = exits := by
  simp [exitSet?]

theorem mem_exitsBelow {o : Option Nat} :
    i ∈ c.exitsBelow x o ↔ i ∈ x ∧ ∃ d, o = some d ∧ c.Below i d := by
  cases o with
  | none => simp [exitsBelow]
  | some d => simp [exitsBelow, isDescendant, Ancestry.isDescendant_iff]

theorem candidate?_eq_some_iff {a : Candidate} : c.candidate? x m r = some a ↔
    ∃ exits, c.exitSet? x m (c.transition r) = some exits ∧
      a = ⟨r, (c.transition r).source, (c.node (c.transition r).source).depth,
        (c.transition r).isTargetless, exits⟩ := by
  simp [candidate?, eq_comm]

theorem choose?_eq_some_iff : c.choose? x m enabled = some ranks ↔
    ∃ cs, List.Forall₂ (fun r a => c.candidate? x m r = some a) enabled cs ∧
      Selection.ranks (Selection.resolve cs) = ranks := by
  simp [choose?, mapM_eq_some_iff]

/-- What is chosen is enabled, and exits no state that another transition chosen exits. -/
theorem choose?_spec (h : c.choose? x m enabled = some ranks) :
    ranks.Pairwise (· < ·) ∧ (∀ r ∈ ranks, r ∈ enabled) ∧
      ∀ r ∈ ranks, ∃ es, c.exitSet? x m (c.transition r) = some es ∧
        ∀ s ∈ ranks, r ≠ s → ∀ fs, c.exitSet? x m (c.transition s) = some fs →
          ∀ i ∈ es, i ∉ fs := by
  obtain ⟨cs, hcs, rfl⟩ := choose?_eq_some_iff.mp h
  have hread : ∀ a ∈ Selection.resolve cs, a.rank ∈ enabled ∧
      c.exitSet? x m (c.transition a.rank) = some a.exits := by
    intro a ha
    obtain ⟨r, hr, hra⟩ := exists_mem_of_forall₂ hcs (Selection.resolve_subset ha)
    obtain ⟨exits, hexits, rfl⟩ := candidate?_eq_some_iff.mp hra
    exact ⟨hr, hexits⟩
  refine ⟨Selection.ranks_ascending _, fun r hr => ?_, fun r hr => ?_⟩
  · obtain ⟨a, ha, rfl⟩ := Selection.mem_ranks.mp hr
    exact (hread a ha).1
  · obtain ⟨a, ha, rfl⟩ := Selection.mem_ranks.mp hr
    refine ⟨a.exits, (hread a ha).2, fun s hs hne fs hfs => ?_⟩
    obtain ⟨b, hb, rfl⟩ := Selection.mem_ranks.mp hs
    obtain rfl := Option.some.inj ((hread b hb).2.symm.trans hfs)
    have : Std.Symm (fun a b : Candidate => a.conflicts b = false) :=
      ⟨fun a b h => (Candidate.conflicts_comm b a).trans h⟩
    have hall := (Selection.resolve_pairwise cs).forall
    exact Candidate.exits_disjoint (hall ha hb fun he => hne (congrArg Candidate.rank he))

theorem exists_choose? (wf : c.WellFormed) (g : c.Grounded)
    (h : ∀ r ∈ enabled, c.Declared (c.transition r)) :
    ∃ ranks, c.choose? x m enabled = some ranks := by
  obtain ⟨cs, hcs⟩ : ∃ cs, enabled.mapM (c.candidate? x m) = some cs := by
    apply exists_mapM_eq_some
    intro r hr
    obtain ⟨es, hes⟩ := exists_effectiveTargets? wf g (h r hr)
    exact ⟨_, candidate?_eq_some_iff.mpr ⟨_, exitSet?_eq_some_iff.mpr
      ⟨_, domain?_eq_some_iff.mpr ⟨es, hes, rfl⟩, rfl⟩, rfl⟩⟩
  exact ⟨_, choose?_eq_some_iff.mpr ⟨cs, mapM_eq_some_iff.mp hcs, rfl⟩⟩

/-- Transitions found in active states, no two of which are taken inside related domains. -/
structure Ready (c : Chart) (x : Configuration) (m : Memory) (ts : List Transition) : Prop where
  declared : ∀ t ∈ ts, c.Declared t
  source : ∀ t ∈ ts, t.source ∈ x
  resolved : ∀ t ∈ ts, ∃ es, c.effectiveTargets? m t = some es
  unrelated : ts.Pairwise fun t u => ∀ d e, c.domain? m t = some (some d) →
    c.domain? m u = some (some e) → ¬c.Within d e ∧ ¬c.Within e d

/-- In a state that has one region active at a time, or in the root, some region is active. -/
theorem exists_active_below (wf : c.WellFormed) (hx : x.Valid c) (hact : x.Active d)
    (hin : d = root ∨ (c.node d).isCompound = true) : ∃ k ∈ x, c.Below k d := by
  have below (k : Nat) (hk : k ∈ c.regions d) : c.Below k d :=
    Ancestry.below_of_parent wf.upward (wf.mem_regions.mp hk).1
  rcases hin with rfl | hc
  · rcases wf.root_inner with hc | hp
    · obtain ⟨k, hk, hkx, -⟩ := hx.single root hact hc
      exact ⟨k, hkx, below k hk⟩
    · obtain ⟨k, hk⟩ := wf.exists_region root (.inr hp)
      exact ⟨k, hx.every root hact hp k hk, below k hk⟩
  · obtain ⟨k, hk, hkx, -⟩ := hx.single d hact hc
    exact ⟨k, hkx, below k hk⟩

/-- A domain is active, and some region of it is. -/
theorem exists_active_below_domain (wf : c.WellFormed) (hx : x.Valid c) (ht : c.Declared t)
    (hsrc : t.source ∈ x) (h : c.domain? m t = some (some d)) :
    x.Active d ∧ ∃ k ∈ x, c.Below k d := by
  obtain ⟨hinner, hsource⟩ := inner_of_domain ht.source h
  have hact := hx.active_of_within wf (.inr hsrc) hsource
  exact ⟨hact, exists_active_below wf hx hact hinner⟩

/-- Transitions chosen together are taken inside unrelated domains. -/
theorem ready_of_choose? (wf : c.WellFormed) (hx : x.Valid c)
    (henabled : ∀ r ∈ enabled, c.Declared (c.transition r) ∧ (c.transition r).source ∈ x)
    (h : c.choose? x m enabled = some ranks) : c.Ready x m (ranks.map c.transition) := by
  obtain ⟨hasc, hsub, hdisj⟩ := choose?_spec h
  refine ⟨?_, ?_, ?_, ?_⟩
  · exact List.forall_mem_map.mpr fun r hr => (henabled r (hsub r hr)).1
  · exact List.forall_mem_map.mpr fun r hr => (henabled r (hsub r hr)).2
  · refine List.forall_mem_map.mpr fun r hr => ?_
    obtain ⟨exits, hexits, -⟩ := hdisj r hr
    obtain ⟨o, ho, -⟩ := exitSet?_eq_some_iff.mp hexits
    obtain ⟨es, hes, -⟩ := domain?_eq_some_iff.mp ho
    exact ⟨es, hes⟩
  · rw [List.pairwise_map]
    apply hasc.imp_of_mem
    intro r s hr hs hlt d e hd he
    have exits (r d : Nat) (hd : c.domain? m (c.transition r) = some (some d)) :
        c.exitSet? x m (c.transition r) = some (c.exitsBelow x (some d)) :=
      exitSet?_eq_some_iff.mpr ⟨_, hd, rfl⟩
    have inside (r d : Nat) (hr : r ∈ ranks) (hd : c.domain? m (c.transition r) = some (some d)) :
        ∃ k ∈ x, c.Below k d :=
      (exists_active_below_domain wf hx (henabled r (hsub r hr)).1
        (henabled r (hsub r hr)).2 hd).2
    -- Of two related domains the lower one has active states below it that both transitions exit.
    have apart (r s d e : Nat) (hr : r ∈ ranks) (hs : s ∈ ranks) (hne : r ≠ s)
        (hd : c.domain? m (c.transition r) = some (some d))
        (he : c.domain? m (c.transition s) = some (some e)) : ¬c.Within d e := by
      intro hw
      obtain ⟨k, hk, hkd⟩ := inside r d hr hd
      obtain ⟨es, hes, hall⟩ := hdisj r hr
      obtain rfl := Option.some.inj ((exits r d hd).symm.trans hes)
      exact hall s hs hne _ (exits s e he) k (mem_exitsBelow.mpr ⟨hk, d, rfl, hkd⟩)
        (mem_exitsBelow.mpr ⟨hk, e, rfl, hkd.trans_within wf.upward hw⟩)
    exact ⟨apart r s d e hr hs (Nat.ne_of_lt hlt) hd he,
      apart s r e d hs hr (Nat.ne_of_gt hlt) he hd⟩

end Chart

end Statechart

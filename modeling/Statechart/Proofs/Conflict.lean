import Statechart.Proofs.Judging
import Statechart.Proofs.Priority
import Statechart.Proofs.Safety

/-!
Conflict-free selection. Transitions conflict when they exit a state both, or when one only runs
actions in a state that the other exits. In a valid configuration this is a matter of domains, and
those of the transitions selected are unrelated; a transition that is left out yields to another.
-/
namespace Statechart

namespace Chart

variable {c : Chart} {x : Configuration} {m : Memory} {enabled ranks : List Nat} {q r s : Nat}
  {t u v : Transition}

/-- The state is active and lies inside the domain of the transition, which exits it. -/
def Exits (c : Chart) (x : Configuration) (m : Memory) (t : Transition) (s : Nat) : Prop :=
  s ∈ x ∧ ∃ d, c.domain? m t = some (some d) ∧ c.Below s d

def Conflict (c : Chart) (x : Configuration) (m : Memory) (t u : Transition) : Prop :=
  (∃ s, c.Exits x m t s ∧ c.Exits x m u s) ∨
    t.isTargetless = true ∧ c.Exits x m u t.source ∨
    u.isTargetless = true ∧ c.Exits x m t u.source

/-- The shallower source goes first, and of two equally deep the earlier one. -/
def Preempts (c : Chart) (t u : Transition) : Prop :=
  (c.node t.source).depth < (c.node u.source).depth ∨
    (c.node t.source).depth = (c.node u.source).depth ∧ t.source < u.source

theorem Conflict.symm (h : c.Conflict x m t u) : c.Conflict x m u t := by
  rcases h with ⟨s, ht, hu⟩ | h | h
  · exact .inl ⟨s, hu, ht⟩
  · exact .inr (.inr h)
  · exact .inr (.inl h)

/-! ### Candidates -/

section Candidates

variable {a b : Candidate} (ha : c.candidate? x m q = some a) (hb : c.candidate? x m r = some b)
include ha

theorem rank_of_candidate : a.rank = q := by
  obtain ⟨exits, -, rfl⟩ := candidate?_eq_some_iff.mp ha
  rfl

theorem source_of_candidate : a.source = (c.transition q).source := by
  obtain ⟨exits, -, rfl⟩ := candidate?_eq_some_iff.mp ha
  rfl

theorem mem_exits_of_candidate : s ∈ a.exits ↔ c.Exits x m (c.transition q) s := by
  obtain ⟨exits, hexits, rfl⟩ := candidate?_eq_some_iff.mp ha
  obtain ⟨o, ho, rfl⟩ := exitSet?_eq_some_iff.mp hexits
  rw [mem_exitsBelow, Exits, ho]
  exact and_congr_right fun _ => exists_congr fun d => and_congr_left fun _ =>
    (Option.some_inj (b := some d)).symm

include hb

theorem preempts_of_candidates :
    a.preempts b = true ↔ c.Preempts (c.transition q) (c.transition r) := by
  obtain ⟨exits, -, rfl⟩ := candidate?_eq_some_iff.mp ha
  obtain ⟨exits', -, rfl⟩ := candidate?_eq_some_iff.mp hb
  exact Candidate.preempts_iff

theorem conflicts_of_candidates :
    a.conflicts b = true ↔ c.Conflict x m (c.transition q) (c.transition r) := by
  have hexits (s : Nat) : s ∈ a.exits ↔ c.Exits x m (c.transition q) s := mem_exits_of_candidate ha
  have hexits' (s : Nat) : s ∈ b.exits ↔ c.Exits x m (c.transition r) s := mem_exits_of_candidate hb
  have htargetless : a.targetless = (c.transition q).isTargetless := by
    obtain ⟨exits, -, rfl⟩ := candidate?_eq_some_iff.mp ha
    rfl
  have htargetless' : b.targetless = (c.transition r).isTargetless := by
    obtain ⟨exits, -, rfl⟩ := candidate?_eq_some_iff.mp hb
    rfl
  simp only [Candidate.conflicts, Bool.or_eq_true, Bool.and_eq_true, Bool.not_eq_true',
    ← Bool.not_eq_true, StateSet.disjoint_iff, StateSet.contains_iff, hexits, hexits', htargetless,
    htargetless', source_of_candidate ha, source_of_candidate hb, or_assoc, Conflict]
  exact or_congr_left (by simp)

end Candidates

/-- The candidates of the transitions offered, each found again under its rank. -/
structure Lists (c : Chart) (x : Configuration) (m : Memory) (enabled : List Nat)
    (cs : List Candidate) : Prop where
  inOrder : Selection.InOrder cs
  candidate : ∀ a ∈ cs, a.rank ∈ enabled ∧ c.candidate? x m a.rank = some a
  exists_candidate : ∀ r ∈ enabled, ∃ a ∈ cs, c.candidate? x m r = some a

theorem lists_of_mapM {cs : List Candidate}
    (h : List.Forall₂ (fun r a => c.candidate? x m r = some a) enabled cs)
    (hord : enabled.Pairwise
      (fun r u => (c.transition r).source < (c.transition u).source)) : c.Lists x m enabled cs := by
  refine ⟨?_, fun a ha => ?_, fun r hr => exists_result_of_forall₂ h hr⟩
  · induction h with
    | nil => exact .nil
    | @cons r a rs cs hra hrest ih =>
      obtain ⟨hfirst, hpair⟩ := List.pairwise_cons.mp hord
      refine List.pairwise_cons.mpr ⟨fun b hb => ?_, ih hpair⟩
      obtain ⟨u, hu, hub⟩ := exists_mem_of_forall₂ hrest hb
      rw [source_of_candidate hra, source_of_candidate hub]
      exact hfirst u hu
  · obtain ⟨r, hr, hra⟩ := exists_mem_of_forall₂ h ha
    obtain rfl := rank_of_candidate hra
    exact ⟨hr, hra⟩

namespace Lists

variable {cs chosen : List Candidate} {a b : Candidate} (h : c.Lists x m enabled cs)
include h

/-- The rank tells the candidate. -/
theorem mem_ranks_iff (hsub : ∀ a ∈ chosen, a ∈ cs) (ha : a ∈ cs) :
    a.rank ∈ Selection.ranks chosen ↔ a ∈ chosen := by
  rw [Selection.mem_ranks]
  refine ⟨fun ⟨b, hb, he⟩ => ?_, fun hmem => ⟨a, hmem, rfl⟩⟩
  have hcb := (h.candidate b (hsub b hb)).2
  rw [he, (h.candidate a ha).2] at hcb
  exact Option.some.inj hcb ▸ hb

theorem conflicts_iff (ha : a ∈ cs) (hb : b ∈ cs) : a.conflicts b = true ↔
    c.Conflict x m (c.transition a.rank) (c.transition b.rank) :=
  conflicts_of_candidates (h.candidate a ha).2 (h.candidate b hb).2

theorem preempts_iff (ha : a ∈ cs) (hb : b ∈ cs) : a.preempts b = true ↔
    c.Preempts (c.transition a.rank) (c.transition b.rank) :=
  preempts_of_candidates (h.candidate a ha).2 (h.candidate b hb).2

end Lists

/-- What is chosen does not conflict, and what is not chosen yields to something enabled. -/
theorem conflictFree_of_choose? (hord : enabled.Pairwise
      (fun r u => (c.transition r).source < (c.transition u).source))
    (h : c.choose? x m enabled = some ranks) :
    ranks.Pairwise (fun r u => ¬c.Conflict x m (c.transition r) (c.transition u)) ∧
      ∀ r ∈ enabled, r ∉ ranks → ∃ u ∈ enabled,
        c.Conflict x m (c.transition u) (c.transition r) ∧
        c.Preempts (c.transition u) (c.transition r) := by
  obtain ⟨cs, hcs, rfl⟩ := choose?_eq_some_iff.mp h
  have hlists := lists_of_mapM hcs hord
  have hsub : ∀ a ∈ Selection.resolve cs, a ∈ cs := fun a ha => Selection.resolve_subset ha
  constructor
  · apply (Selection.ranks_ascending _).imp_of_mem
    intro r u hr hu hlt hconf
    obtain ⟨a, ha, rfl⟩ := Selection.mem_ranks.mp hr
    obtain ⟨b, hb, rfl⟩ := Selection.mem_ranks.mp hu
    rw [← hlists.conflicts_iff (hsub a ha) (hsub b hb),
      Selection.no_conflict_of_resolve ha hb] at hconf
    · simp at hconf
    · rintro rfl
      exact Nat.lt_irrefl _ hlt
  · intro r hr hn
    obtain ⟨a, ha, hra⟩ := hlists.exists_candidate r hr
    obtain rfl := rank_of_candidate hra
    rw [hlists.mem_ranks_iff hsub ha] at hn
    obtain ⟨b, hb, hconf, hfirst⟩ := Selection.exists_preempting hlists.inOrder ha hn
    exact ⟨b.rank, (hlists.candidate b hb).1, (hlists.conflicts_iff hb ha).mp hconf,
      (hlists.preempts_iff hb ha).mp hfirst⟩

end Chart

namespace Engine

variable {σ : Type} {d : ChartDecl} {e : Engine σ} {s : Session σ}

/-- The transitions selected in a valid configuration come in the order of their ranks. Each is the
first of an active state that is found enabled, whatever the guards judged on the way keep in mind.
No two of them conflict, and the domains of two that have targets are unrelated. Whatever else is
found enabled conflicts with an enabled transition that goes first. -/
theorem select_conflict_free (hb : d.build = .ok e.chart)
    (hx : s.configuration.validate e.chart = .ok ()) (faithful : s.memory.Faithful e.chart)
    (event : Option Event) :
    (e.chart.Grounded → ∃ ranks s₁, e.select? s event = some (ranks, s₁)) ∧
    ∀ ranks s₁, e.select? s event = some (ranks, s₁) →
      ∃ verdict, Verdicts e event s verdict ∧
        e.chart.offered s.configuration verdict = e.found event s ∧ ranks.Pairwise (· < ·) ∧
        (∀ r ∈ ranks, (e.chart.transition r).source ∈ s.configuration ∧
          (e.chart.node (e.chart.transition r).source).transitions.find? verdict = some r) ∧
        ranks.Pairwise (fun r u =>
          (e.chart.transition r).source ≠ (e.chart.transition u).source ∧
          ¬e.chart.Conflict s.configuration s.memory (e.chart.transition r)
            (e.chart.transition u) ∧
          ∀ a b, e.chart.domain? s.memory (e.chart.transition r) = some (some a) →
            e.chart.domain? s.memory (e.chart.transition u) = some (some b) →
            a ≠ b ∧ ¬e.chart.Below a b ∧ ¬e.chart.Below b a) ∧
        (∀ r ∈ ranks, (e.chart.transition r).targets ≠ [] →
          ∃ a, e.chart.domain? s.memory (e.chart.transition r) = some (some a)) ∧
        ∀ r ∈ e.chart.offered s.configuration verdict, r ∉ ranks →
          ∃ u ∈ e.chart.offered s.configuration verdict,
            e.chart.Conflict s.configuration s.memory (e.chart.transition u)
              (e.chart.transition r) ∧
            e.chart.Preempts (e.chart.transition u) (e.chart.transition r) := by
  have wf := ChartDecl.wellFormed_of_build hb
  refine ⟨fun g => exists_select? wf g event, fun ranks s₁ hsel => ?_⟩
  obtain ⟨verdict, hverdict, hfound, hchoose⟩ := exists_verdicts_of_select? hb hsel
  obtain ⟨hasc, hsub, hexits⟩ := Chart.choose?_spec hchoose
  obtain ⟨hfree, hyield⟩ :=
    Chart.conflictFree_of_choose? (Chart.offered_pairwise wf s.configuration verdict) hchoose
  have hdecl (r : Nat) (hr : r ∈ ranks) := Chart.declared_of_offered wf (hsub r hr)
  have hfirst : ∀ r ∈ ranks, (e.chart.transition r).source ∈ s.configuration ∧
      (e.chart.node (e.chart.transition r).source).transitions.find? verdict = some r := by
    intro r hr
    obtain ⟨q, hq, hfind⟩ := Chart.mem_offered.mp (hsub r hr)
    rw [(wf.source q r (List.mem_of_find?_eq_some hfind)).2]
    exact ⟨hq, hfind⟩
  have hunrelated : ranks.Pairwise fun r u => ∀ a b,
      e.chart.domain? s.memory (e.chart.transition r) = some (some a) →
      e.chart.domain? s.memory (e.chart.transition u) = some (some b) →
      ¬e.chart.Within a b ∧ ¬e.chart.Within b a := by
    have hoffers := offers_of_select? hsel
    obtain ⟨hsame, -⟩ := e.select?_spec hsel
    rw [hsame.configuration, hsame.memory] at hoffers
    by_cases hne : ranks = []
    · exact hne ▸ .nil
    · have ready := ready_of_offers wf (valid_of_offers wf hx hoffers hne) hoffers
      exact List.pairwise_map.mp ready.unrelated
  refine ⟨verdict, hverdict, hfound, hasc, hfirst, ?_, fun r hr hne => ?_, hyield⟩
  · refine ((hasc.and hfree).and hunrelated).imp_of_mem
      fun {r u} hr hu ⟨⟨hlt, hno⟩, hdom⟩ => ⟨fun he => ?_, hno, fun a b ha hb => ?_⟩
    · -- One state has one first enabled transition.
      have hr' := (hfirst r hr).2
      rw [he, (hfirst u hu).2] at hr'
      exact Nat.ne_of_lt hlt (Option.some.inj hr').symm
    · obtain ⟨hab, hba⟩ := hdom a b ha hb
      exact ⟨fun he => hab (.inl he), fun h => hab (.inr h), fun h => hba (.inr h)⟩
  · obtain ⟨u, hu⟩ := List.exists_mem_of_ne_nil _ hne
    obtain ⟨es, hes, -⟩ := hexits r hr
    obtain ⟨o, ho, -⟩ := Chart.exitSet?_eq_some_iff.mp hes
    obtain ⟨ts, hts, -⟩ := Chart.domain?_eq_some_iff.mp ho
    exact Chart.exists_domain_of_target wf (faithful.sound wf) (hdecl r hr).1 hts hu

/-- A way out of all regions, and steps inside two of them. -/
def overtaken : ChartDecl :=
  let step (name first last : String) : StateDecl :=
    ((StateDecl.plain name).withChild
      ((StateDecl.plain first).withTransition (.simple "go" last))).withChild (.plain last)
  { name := "Overtaken"
    states := [
      (((StateDecl.parallel "p").withChild
        ((StateDecl.plain "r1").withChild ((StateDecl.plain "x").withChild
          ((StateDecl.plain "x1").withTransition (.simple "go" "out"))))).withChild
        ((StateDecl.plain "r2").withChild (step "y" "y1" "y2"))).withChild (step "r3" "z1" "z2"),
      .plain "out"] }

theorem overtaken_builds : overtaken.build = .ok overtaken.chart :=
  ChartDecl.build_eq_chart (by decide +kernel)

/-- Of the three transitions enabled only the last one is selected, and the first one yields. -/
theorem overtaken_conflict_free : overtaken.build = .ok overtaken.chart ∧
    ∃ (s s₁ : Session Unit) (ranks : List Nat),
      s.configuration.validate overtaken.chart = .ok () ∧ s.memory.Faithful overtaken.chart ∧
      (bare overtaken.chart).select? s (some (.external "go")) = some (ranks, s₁) ∧ ranks = [2] ∧
      ∃ u, overtaken.chart.Conflict s.configuration s.memory (overtaken.chart.transition u)
        (overtaken.chart.transition 0) ∧
      overtaken.chart.Preempts (overtaken.chart.transition u) (overtaken.chart.transition 0) := by
  let s : Session Unit := { host := (), status := .awaitingExternal,
                            configuration := StateSet.ofList [1, 2, 3, 4, 5, 6, 7, 9, 10] }
  have hx : s.configuration.validate (bare overtaken.chart).chart = .ok () := by decide +kernel
  have hfaithful : s.memory.Faithful (bare overtaken.chart).chart := Memory.faithful_empty _
  have hresult : ((bare overtaken.chart).select? s (some (.external "go"))).map (·.1) =
      some [2] := by decide +kernel
  obtain ⟨⟨ranks, s₁⟩, hsel, rfl⟩ := Option.map_eq_some_iff.mp hresult
  obtain ⟨-, hall⟩ := select_conflict_free (e := bare overtaken.chart) overtaken_builds hx hfaithful
    (some (.external "go"))
  obtain ⟨verdict, hverdict, -, -, -, -, -, hyield⟩ := hall _ _ hsel
  obtain rfl : verdict = fun r => (bare overtaken.chart).enables (some (.external "go"))
      s.configuration s.host (overtaken.chart.transition r) :=
    funext (hverdict.eq_enables (Host.pure_ofTables {} {}))
  obtain ⟨u, -, hconf, hfirst⟩ := hyield 0 (by decide +kernel) (by decide)
  exact ⟨overtaken_builds, s, s₁, _, hx, hfaithful, hsel, rfl, u, hconf, hfirst⟩

end Engine

end Statechart

import Statechart.Proofs.Conflict

/-!
How far a selection is maximal. A transition can be left out for a rival that is left out in turn,
and then nothing selected stands in its way. This takes three transitions, of which the second one
exits the sources of the other two; without it the selection is the greedy one, and it is always a
part of that.
-/
namespace Statechart

namespace Chart

variable {c : Chart} {x : Configuration} {m : Memory} {enabled ranks : List Nat} {d r : Nat}
  {t u v w : Transition}

/-- The enabled transitions chosen greedily, in the order in which they go first. -/
def greedy? (c : Chart) (x : Configuration) (m : Memory) (enabled : List Nat) :
    Option (List Nat) :=
  (enabled.mapM (c.candidate? x m)).map fun cs => Selection.ranks (Selection.greedy cs)

/-- Where the second transition takes place lies within the domain of the first one. -/
def Covers (c : Chart) (m : Memory) (t u : Transition) : Prop :=
  ∃ d, c.domain? m t = some (some d) ∧
    ((∃ e, c.domain? m u = some (some e) ∧ c.Within e d) ∨
      u.isTargetless = true ∧ c.Below u.source d)

theorem Covers.domain_eq (h : c.Covers m t u) (hu : c.domain? m u = some (some d)) :
    ∃ a, c.domain? m t = some (some a) ∧ c.Within d a := by
  obtain ⟨a, ha, ⟨e, he, hea⟩ | ⟨hno, -⟩⟩ := h
  · exact ⟨a, ha, Option.some.inj (Option.some.inj (he.symm.trans hu)) ▸ hea⟩
  · simp [domain?_of_targetless hno] at hu

section Tree

variable (up : Ancestry.Upward c.parent)
include up

theorem Covers.trans (h : c.Covers m t u) (h' : c.Covers m u v) : c.Covers m t v := by
  obtain ⟨b, hb, hv⟩ := h'
  obtain ⟨a, ha, hba⟩ := h.domain_eq hb
  refine ⟨a, ha, hv.imp (fun ⟨e, he, heb⟩ => ⟨e, he, heb.trans up hba⟩) fun ⟨hno, hvb⟩ => ?_⟩
  exact ⟨hno, hvb.trans_within up hba⟩

theorem covers_of_within {a b : Nat} (ha : c.domain? m t = some (some a))
    (hb : c.domain? m u = some (some b)) (h : c.Within d a) (h' : c.Within d b) :
    c.Covers m t u ∨ c.Covers m u t :=
  (h.total up h').elim (fun hab => .inr ⟨b, hb, .inl ⟨a, ha, hab⟩⟩)
    fun hba => .inl ⟨a, ha, .inl ⟨b, hb, hba⟩⟩

/-- Of two transitions that cover a third one, one covers the other. -/
theorem Covers.total (h : c.Covers m t v) (h' : c.Covers m u v) :
    c.Covers m t u ∨ c.Covers m u t := by
  obtain ⟨a, ha, ⟨e, he, hea⟩ | ⟨hno, hva⟩⟩ := h <;>
    obtain ⟨b, hb, ⟨f, hf, hfb⟩ | ⟨hno', hvb⟩⟩ := h'
  · obtain rfl := Option.some.inj (Option.some.inj (he.symm.trans hf))
    exact covers_of_within up ha hb hea hfb
  · simp [domain?_of_targetless hno'] at he
  · simp [domain?_of_targetless hno] at hf
  · exact covers_of_within up ha hb hva.within hvb.within

end Tree

/-- A transition that can be taken in the configuration. -/
structure Placed (c : Chart) (x : Configuration) (t : Transition) : Prop where
  declared : c.Declared t
  source : t.source ∈ x

theorem Placed.within_domain (ht : c.Placed x t) (h : c.domain? m t = some (some d)) :
    c.Within t.source d := (inner_of_domain ht.declared.source h).2

section Placed

variable (wf : c.WellFormed)
include wf

theorem Covers.source_within (h : c.Covers m t u) (hu : c.Placed x u) :
    ∃ d, c.domain? m t = some (some d) ∧ c.Within u.source d := by
  obtain ⟨d, hd, ⟨e, he, hed⟩ | ⟨-, hud⟩⟩ := h
  · exact ⟨d, hd, (hu.within_domain he).trans wf.upward hed⟩
  · exact ⟨d, hd, hud.within⟩

variable (hx : x.Valid c) (ht : c.Placed x t) (hu : c.Placed x u) (hv : c.Placed x v)
include hx ht hu

/-- Conflicts are a matter of domains. -/
theorem conflict_iff_covers : c.Conflict x m t u ↔ c.Covers m t u ∨ c.Covers m u t := by
  have overlap (t u : Transition) (hu : c.Placed x u) (h : c.Covers m t u) :
      c.Conflict x m t u := by
    obtain ⟨d, hd, ⟨e, he, hed⟩ | ⟨hno, hud⟩⟩ := h
    · obtain ⟨-, k, hk, hke⟩ := exists_active_below_domain wf hx hu.declared hu.source he
      exact .inl ⟨k, ⟨hk, d, hd, hke.trans_within wf.upward hed⟩, hk, e, he, hke⟩
    · exact .inr (.inr ⟨hno, hu.source, d, hd, hud⟩)
  constructor
  · rintro (⟨s, ⟨-, a, ha, hsa⟩, -, b, hb, hsb⟩ | ⟨hno, -, b, hb, htb⟩ | ⟨hno, -, a, ha, hua⟩)
    · exact covers_of_within wf.upward ha hb hsa.within hsb.within
    · exact .inr ⟨b, hb, .inr ⟨hno, htb⟩⟩
    · exact .inl ⟨a, ha, .inr ⟨hno, hua⟩⟩
  · rintro (h | h)
    · exact overlap t u hu h
    · exact (overlap u t ht h).symm

include hv

/-- A transition that conflicts with two others that do not conflict covers them both. -/
theorem covers_of_conflicts (htu : c.Conflict x m t u) (htv : c.Conflict x m t v)
    (huv : ¬c.Conflict x m u v) : c.Covers m t u ∧ ¬c.Covers m u t := by
  rw [conflict_iff_covers wf hx ht hu] at htu
  rw [conflict_iff_covers wf hx ht hv] at htv
  rw [conflict_iff_covers wf hx hu hv] at huv
  have hnot : ¬c.Covers m u t := fun hut =>
    htv.elim (fun h => huv (.inl (hut.trans wf.upward h))) fun h => huv (hut.total wf.upward h)
  exact ⟨htu.resolve_right hnot, hnot⟩

/-- It exits their sources. -/
theorem exits_of_conflicts (htu : c.Conflict x m t u) (htv : c.Conflict x m t v)
    (huv : ¬c.Conflict x m u v) : c.Exits x m t u.source := by
  obtain ⟨⟨d, hd, hin⟩, hnot⟩ := covers_of_conflicts wf hx ht hu hv htu htv huv
  refine ⟨hu.source, d, hd, ?_⟩
  rcases hin with ⟨e, he, rfl | hed⟩ | ⟨-, hud⟩
  · exact absurd ⟨e, he, .inl ⟨e, hd, .refl c.parent e⟩⟩ hnot
  · exact (hu.within_domain he).trans_below wf.upward hed
  · exact hud

/-- It conflicts with all that they conflict with. -/
theorem conflict_absorbs (htu : c.Conflict x m t u) (htv : c.Conflict x m t v)
    (huv : ¬c.Conflict x m u v) (hw : c.Placed x w) (hwv : c.Conflict x m w v) :
    c.Conflict x m w t := by
  obtain ⟨htv, -⟩ := covers_of_conflicts wf hx ht hv hu htv htu fun h => huv h.symm
  rw [conflict_iff_covers wf hx hw hv] at hwv
  rw [conflict_iff_covers wf hx hw ht]
  exact hwv.elim (fun h => h.total wf.upward htv) fun h => .inr (htv.trans wf.upward h)

/-- What stands between two transitions that conflict takes part, if it conflicts at all. -/
theorem conflict_between (contiguous : Ancestry.Contiguous c.parent)
    (htu : t.source < u.source) (huv : u.source < v.source) (h : c.Conflict x m t v)
    (hseat : (∃ e, c.domain? m u = some (some e)) ∨ u.isTargetless = true) :
    c.Conflict x m u t ∨ c.Conflict x m u v := by
  rw [conflict_iff_covers wf hx hu ht, conflict_iff_covers wf hx hu hv]
  have below {d : Nat} (htd : c.Within t.source d) (hvd : c.Within v.source d) :
      c.Below u.source d :=
    contiguous.below_of_between wf.upward htd hvd htu (Nat.le_of_lt huv)
  have inside {w : Transition} {d : Nat} (hd : c.domain? m w = some (some d))
      (hud : c.Below u.source d) : c.Covers m u w ∨ c.Covers m w u := by
    rcases hseat with ⟨e, he⟩ | hno
    · exact covers_of_within wf.upward he hd (hu.within_domain he) hud.within
    · exact .inr ⟨d, hd, .inr ⟨hno, hud⟩⟩
  rcases (conflict_iff_covers wf hx ht hv).mp h with htv | hvt
  · obtain ⟨d, hd, hvd⟩ := htv.source_within wf hv
    exact .inl (inside hd (below (ht.within_domain hd) hvd))
  · obtain ⟨d, hd, htd⟩ := hvt.source_within wf ht
    exact .inr (inside hd (below htd (hv.within_domain hd)))

end Placed

theorem Conflict.seated (h : c.Conflict x m t u) :
    (∃ d, c.domain? m t = some (some d)) ∨ t.isTargetless = true := by
  rcases h with ⟨s, ⟨-, d, hd, -⟩, -⟩ | ⟨hno, -⟩ | ⟨-, -, d, hd, -⟩
  · exact .inl ⟨d, hd⟩
  · exact .inr hno
  · exact .inl ⟨d, hd⟩

/-- The second transition makes the first one yield and is exited with it, but yields to the third
one, which leaves the first one alone. -/
structure Bypass (c : Chart) (x : Configuration) (m : Memory) (t u v : Transition) : Prop where
  conflict : c.Conflict x m u t
  preempts : c.Preempts u t
  conflict' : c.Conflict x m v u
  preempts' : c.Preempts v u
  spared : ¬c.Conflict x m v t
  later : t.source < v.source
  later' : u.source < v.source
  exits : c.Exits x m u t.source
  exits' : c.Exits x m u v.source

namespace Lists

variable {cs : List Candidate} {a b : Candidate} (h : c.Lists x m enabled cs) (wf : c.WellFormed)
  (hx : x.Valid c) (hplaced : ∀ r ∈ enabled, c.Placed x (c.transition r))
include h

theorem not_conflicts_iff (ha : a ∈ cs) (hb : b ∈ cs) : a.conflicts b = false ↔
    ¬c.Conflict x m (c.transition a.rank) (c.transition b.rank) := by
  rw [← h.conflicts_iff ha hb, Bool.not_eq_true]

theorem exists_rank (hr : r ∈ enabled) : ∃ a ∈ cs, a.rank = r := by
  obtain ⟨a, ha, hra⟩ := h.exists_candidate r hr
  exact ⟨a, ha, rank_of_candidate hra⟩

/-- What a candidate yields to, told by candidates and by ranks. -/
theorem yields_iff {chosen : List Candidate} (hsub : ∀ b ∈ chosen, b ∈ cs) (ha : a ∈ cs) :
    (∃ b ∈ chosen, b.conflicts a = true ∧ b.preempts a = true) ↔
      ∃ u ∈ Selection.ranks chosen,
        c.Conflict x m (c.transition u) (c.transition a.rank) ∧
        c.Preempts (c.transition u) (c.transition a.rank) := by
  constructor
  · rintro ⟨b, hb, hconf, hfirst⟩
    exact ⟨b.rank, Selection.mem_ranks.mpr ⟨b, hb, rfl⟩,
      (h.conflicts_iff (hsub b hb) ha).mp hconf, (h.preempts_iff (hsub b hb) ha).mp hfirst⟩
  · rintro ⟨u, hu, hconf, hfirst⟩
    obtain ⟨b, hb, rfl⟩ := Selection.mem_ranks.mp hu
    exact ⟨b, hb, (h.conflicts_iff (hsub b hb) ha).mpr hconf,
      (h.preempts_iff (hsub b hb) ha).mpr hfirst⟩

/-- Everything else yields to something chosen exactly when the choice is the greedy one. -/
theorem maximal_iff : (∀ r ∈ enabled, r ∉ Selection.ranks (Selection.resolve cs) →
      ∃ u ∈ Selection.ranks (Selection.resolve cs),
        c.Conflict x m (c.transition u) (c.transition r) ∧
        c.Preempts (c.transition u) (c.transition r)) ↔
    Selection.ranks (Selection.resolve cs) = Selection.ranks (Selection.greedy cs) := by
  have hsub : ∀ a ∈ Selection.resolve cs, a ∈ cs := fun a ha => Selection.resolve_subset ha
  have hkernel := Selection.kernel_greedy h.inOrder
  have hgsub : ∀ a ∈ Selection.greedy cs, a ∈ cs := fun a ha => ((hkernel a).mp ha).1
  constructor
  · intro hmax
    have hsame := (Selection.maximal_resolve_iff h.inOrder).mp fun a ha hn =>
      (h.yields_iff hsub ha).mpr (hmax a.rank (h.candidate a ha).1
        (mt (h.mem_ranks_iff hsub ha).mp hn))
    refine StateSet.eq_of_pairwise_of_mem_iff (Selection.ranks_ascending _)
      (Selection.ranks_ascending _) fun r => ?_
    simp only [Selection.mem_ranks, hsame]
  · intro heq r hr hn
    obtain ⟨a, ha, rfl⟩ := h.exists_rank hr
    have hng : a ∉ Selection.greedy cs := fun hg =>
      hn (heq ▸ (h.mem_ranks_iff hgsub ha).mpr hg)
    obtain ⟨b, hb, hyield⟩ := hkernel.maximal a ha hng
    refine (h.yields_iff hsub ha).mp ⟨b, ?_, hyield⟩
    rw [← h.mem_ranks_iff hsub (hgsub b hb), heq]
    exact (h.mem_ranks_iff hgsub (hgsub b hb)).mpr hb

include wf hx hplaced

theorem laminar (contiguous : Ancestry.Contiguous c.parent) : Selection.Laminar cs := by
  have placed (a : Candidate) (ha : a ∈ cs) := hplaced a.rank (h.candidate a ha).1
  have source (a : Candidate) (ha : a ∈ cs) : a.source = (c.transition a.rank).source :=
    source_of_candidate (h.candidate a ha).2
  constructor
  · intro t ht u hu v hv htu huv htv w hw huw
    rw [source t ht, source u hu] at htu
    rw [source u hu, source v hv] at huv
    rw [h.conflicts_iff ht hv] at htv
    rw [h.conflicts_iff hu hw] at huw
    rw [h.conflicts_iff hu ht, h.conflicts_iff hu hv]
    exact conflict_between wf hx (placed t ht) (placed u hu) (placed v hv) contiguous htu huv htv
      huw.seated
  · intro u hu t ht v hv htu htv huv w hw hwv
    rw [h.conflicts_iff ht hu] at htu
    rw [h.conflicts_iff ht hv] at htv
    rw [h.not_conflicts_iff hu hv] at huv
    rw [h.conflicts_iff hw hv] at hwv
    rw [h.conflicts_iff hw ht]
    exact conflict_absorbs wf hx (placed t ht) (placed u hu) (placed v hv) htu htv huv
      (placed w hw) hwv

theorem bypass {a b b' : Candidate} (ha : a ∈ cs) (hb : b ∈ cs) (hb' : b' ∈ cs)
    (hchain : Selection.Chain a b b') :
    c.Bypass x m (c.transition a.rank) (c.transition b.rank) (c.transition b'.rank) := by
  have placed (a : Candidate) (ha : a ∈ cs) := hplaced a.rank (h.candidate a ha).1
  have source (a : Candidate) (ha : a ∈ cs) : a.source = (c.transition a.rank).source :=
    source_of_candidate (h.candidate a ha).2
  have hba := (h.conflicts_iff hb ha).mp hchain.conflict
  have hb'b := (h.conflicts_iff hb' hb).mp hchain.conflict'
  have hspared := (h.not_conflicts_iff hb' ha).mp hchain.spared
  have hlater := hchain.later
  have hlater' := hchain.later'
  rw [source a ha, source b' hb'] at hlater
  rw [source b hb, source b' hb'] at hlater'
  exact ⟨hba, (h.preempts_iff hb ha).mp hchain.preempts, hb'b,
    (h.preempts_iff hb' hb).mp hchain.preempts', hspared, hlater, hlater',
    exits_of_conflicts wf hx (placed b hb) (placed a ha) (placed b' hb') hba hb'b.symm
      fun hab => hspared hab.symm,
    exits_of_conflicts wf hx (placed b hb) (placed b' hb') (placed a ha) hb'b.symm hba hspared⟩

end Lists

/-- What is chosen is chosen greedily too, and everything that is if nothing is bypassed. -/
theorem maximal_of_choose? (wf : c.WellFormed) (contiguous : Ancestry.Contiguous c.parent)
    (hx : x.Valid c) (hplaced : ∀ r ∈ enabled, c.Placed x (c.transition r))
    (hord : enabled.Pairwise (fun r u => (c.transition r).source < (c.transition u).source))
    (h : c.choose? x m enabled = some ranks) :
    ∃ greed, c.greedy? x m enabled = some greed ∧ (∀ r ∈ ranks, r ∈ greed) ∧
      ((∀ r ∈ enabled, r ∉ ranks → ∃ u ∈ ranks,
          c.Conflict x m (c.transition u) (c.transition r) ∧
          c.Preempts (c.transition u) (c.transition r)) ↔ ranks = greed) ∧
      ∀ r ∈ enabled, r ∉ ranks →
        (∃ u ∈ ranks, c.Conflict x m (c.transition u) (c.transition r) ∧
          c.Preempts (c.transition u) (c.transition r)) ∨
        ∃ u ∈ enabled, ∃ v ∈ enabled, u ∉ ranks ∧
          c.Bypass x m (c.transition r) (c.transition u) (c.transition v) := by
  obtain ⟨cs, hcs, rfl⟩ := choose?_eq_some_iff.mp h
  have hlists := lists_of_mapM hcs hord
  have hsub : ∀ a ∈ Selection.resolve cs, a ∈ cs := fun a ha => Selection.resolve_subset ha
  refine ⟨Selection.ranks (Selection.greedy cs), ?_, fun r hr => ?_, hlists.maximal_iff,
    fun r hr hn => ?_⟩
  · rw [greedy?, mapM_eq_some_iff.mpr hcs, Option.map_some]
  · obtain ⟨a, ha, rfl⟩ := Selection.mem_ranks.mp hr
    refine Selection.mem_ranks.mpr ⟨a, ?_, rfl⟩
    exact Selection.resolve_subset_greedy hlists.inOrder
      (hlists.laminar wf hx hplaced contiguous) ha
  · obtain ⟨a, ha, rfl⟩ := hlists.exists_rank hr
    rw [← hlists.yields_iff hsub ha]
    rw [hlists.mem_ranks_iff hsub ha] at hn
    rcases Selection.exists_preempting_or_chain hlists.inOrder ha hn with hfirst | hchain
    · exact .inl hfirst
    · obtain ⟨b, hb, b', hb', hchain⟩ := hchain
      by_cases hin : b ∈ Selection.resolve cs
      · exact .inl ⟨b, hin, hchain.conflict, hchain.preempts⟩
      · exact .inr ⟨b.rank, (hlists.candidate b hb).1, b'.rank, (hlists.candidate b' hb').1,
          mt (hlists.mem_ranks_iff hsub hb).mp hin, hlists.bypass wf hx hplaced ha hb hb' hchain⟩

end Chart

namespace Engine

variable {σ : Type} {d : ChartDecl} {e : Engine σ} {s : Session σ}

/-- The transitions selected in a valid configuration belong to the greedy selection, and they are
all of it exactly when everything else that is found enabled yields to something selected. A
transition that does not has been bypassed: it has yielded to one that has itself been left out. -/
theorem select_maximal_iff (hb : d.build = .ok e.chart)
    (hx : s.configuration.validate e.chart = .ok ()) (event : Option Event) :
    (e.chart.Grounded → ∃ ranks s₁, e.select? s event = some (ranks, s₁)) ∧
    ∀ ranks s₁, e.select? s event = some (ranks, s₁) →
      ∃ verdict greed, Verdicts e event s verdict ∧
        e.chart.offered s.configuration verdict = e.found event s ∧
        e.chart.greedy? s.configuration s.memory (e.chart.offered s.configuration verdict) =
          some greed ∧
        (∀ r ∈ ranks, r ∈ greed) ∧
        ((∀ r ∈ e.chart.offered s.configuration verdict, r ∉ ranks → ∃ u ∈ ranks,
            e.chart.Conflict s.configuration s.memory (e.chart.transition u)
              (e.chart.transition r) ∧
            e.chart.Preempts (e.chart.transition u) (e.chart.transition r)) ↔ ranks = greed) ∧
        ∀ r ∈ e.chart.offered s.configuration verdict, r ∉ ranks →
          (∃ u ∈ ranks, e.chart.Conflict s.configuration s.memory (e.chart.transition u)
              (e.chart.transition r) ∧
            e.chart.Preempts (e.chart.transition u) (e.chart.transition r)) ∨
          ∃ u ∈ e.chart.offered s.configuration verdict,
            ∃ v ∈ e.chart.offered s.configuration verdict, u ∉ ranks ∧
              e.chart.Bypass s.configuration s.memory (e.chart.transition r)
                (e.chart.transition u) (e.chart.transition v) := by
  have wf := ChartDecl.wellFormed_of_build hb
  refine ⟨fun g => exists_select? wf g event, fun ranks s₁ hsel => ?_⟩
  obtain ⟨verdict, hverdict, hfound, hchoose⟩ := exists_verdicts_of_select? hb hsel
  have hplaced (r : Nat) (hr : r ∈ e.chart.offered s.configuration verdict) :
      e.chart.Placed s.configuration (e.chart.transition r) := by
    obtain ⟨hdecl, hsource, -⟩ := Chart.declared_of_offered wf hr
    exact ⟨hdecl, hsource⟩
  rcases (Configuration.validate_eq_ok_iff wf).mp hx with hempty | hv
  · -- Nothing is active, so nothing is offered.
    have hnil : e.chart.offered s.configuration verdict = [] := by
      rw [Chart.offered, List.isEmpty_iff.mp hempty]
      rfl
    rw [hnil] at hchoose
    obtain rfl : [] = ranks := by
      simpa [Chart.choose?, Selection.ranks, Selection.resolve, Ordered.ofList] using hchoose
    refine ⟨verdict, [], hverdict, hfound, ?_, by simp [hnil]⟩
    simp [hnil, Chart.greedy?, Selection.greedy, Selection.ranks, Ordered.ofList]
  · obtain ⟨greed, hgreed, hrest⟩ := Chart.maximal_of_choose? wf
      (ChartDecl.contiguous_of_build hb) hv hplaced
      (Chart.offered_pairwise wf s.configuration verdict) hchoose
    exact ⟨verdict, greed, hverdict, hfound, hgreed, hrest⟩

/-- The step of the second region yields to the way out, which yields to the step of the third one.
Nothing selected makes the first of them yield, and the greedy selection takes it. -/
theorem overtaken_not_maximal : overtaken.build = .ok overtaken.chart ∧
    ∃ (s s₁ : Session Unit) (ranks greed : List Nat) (verdict : Nat → Bool),
      s.configuration.validate overtaken.chart = .ok () ∧
      (bare overtaken.chart).select? s (some (.external "go")) = some (ranks, s₁) ∧
      Verdicts (bare overtaken.chart) (some (.external "go")) s verdict ∧
      overtaken.chart.offered s.configuration verdict = [0, 1, 2] ∧
      overtaken.chart.greedy? s.configuration s.memory [0, 1, 2] = some greed ∧
      ranks = [2] ∧ greed = [1, 2] ∧
      ¬∀ r ∈ overtaken.chart.offered s.configuration verdict, r ∉ ranks → ∃ u ∈ ranks,
        overtaken.chart.Conflict s.configuration s.memory (overtaken.chart.transition u)
          (overtaken.chart.transition r) ∧
        overtaken.chart.Preempts (overtaken.chart.transition u) (overtaken.chart.transition r) := by
  let s : Session Unit := { host := (), status := .awaitingExternal,
                            configuration := StateSet.ofList [1, 2, 3, 4, 5, 6, 7, 9, 10] }
  have hx : s.configuration.validate (bare overtaken.chart).chart = .ok () := by decide +kernel
  have hresult : ((bare overtaken.chart).select? s (some (.external "go"))).map (·.1) =
      some [2] := by decide +kernel
  obtain ⟨⟨ranks, s₁⟩, hsel, hranks⟩ := Option.map_eq_some_iff.mp hresult
  obtain ⟨-, hall⟩ := select_maximal_iff (e := bare overtaken.chart) overtaken_builds hx
    (some (.external "go"))
  obtain ⟨verdict, greed, hverdict, -, hgreed, -, hiff, -⟩ := hall _ _ hsel
  have hoffered : overtaken.chart.offered s.configuration verdict = [0, 1, 2] := by
    rw [funext (hverdict.eq_enables (Host.pure_ofTables {} {}))]
    decide +kernel
  have hgreedy : overtaken.chart.greedy? s.configuration s.memory [0, 1, 2] = some [1, 2] := by
    decide +kernel
  have hsame : greed = [1, 2] := by
    rw [show (bare overtaken.chart).chart.offered s.configuration verdict = [0, 1, 2] from hoffered]
      at hgreed
    exact Option.some.inj (hgreed.symm.trans hgreedy)
  refine ⟨overtaken_builds, s, s₁, ranks, greed, verdict, hx, hsel, hverdict, hoffered,
    hsame ▸ hgreedy, hranks, hsame, fun hmax => ?_⟩
  have heq := hiff.mp hmax
  simp only [hsame, show ranks = [2] from hranks] at heq
  exact absurd heq (by decide)

end Engine

end Statechart

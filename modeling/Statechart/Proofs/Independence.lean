import Statechart.Proofs.Locality
import Statechart.Proofs.Safety

/-!
Independent transitions. Without history states the transitions selected together have all their
targets inside unrelated domains. Each leaves and enters states of its own then, so they may as well
be taken one after the other, in any order.
-/
namespace Statechart

open EntryPlan (Brings Independent)

namespace Chart

variable {c : Chart} {x : Configuration} {m : Memory} {exits : StateSet} {i : Nat}
  {t u : Transition} {ts us : List Transition}

/-- Without history states nothing is recorded. -/
theorem HistoryFree.recordHistory_eq (free : c.HistoryFree) (x : Configuration) (m : Memory)
    (exits : StateSet) : c.recordHistory x m exits = m := by
  have hnone (s : Nat) : c.historyChildren s = [] :=
    List.filter_eq_nil_iff.mpr fun k _ => by simp [free k]
  unfold recordHistory
  induction exits.toList generalizing m with
  | nil => rfl
  | cons s ss ih =>
    rw [List.foldl_cons, hnone s, List.foldl_nil]
    exact ih m

/-- The state lies inside the domain of the transition. -/
def Spans (c : Chart) (m : Memory) (t : Transition) (i : Nat) : Prop :=
  ∃ d, c.domain? m t = some (some d) ∧ c.Below i d

theorem Spans.unrelated (wf : c.WellFormed) (ht : c.Spans m t i)
    (h : ∀ a b, c.domain? m t = some (some a) → c.domain? m u = some (some b) →
      ¬c.Within a b ∧ ¬c.Within b a) : ¬c.Spans m u i := by
  rintro ⟨b, hb, hib⟩
  obtain ⟨a, ha, hia⟩ := ht
  obtain ⟨hab, hba⟩ := h a b ha hb
  exact (hia.within.total wf.upward hib.within).elim hab hba

/-- Where no target is a history state every target lies inside the domain. -/
theorem Ready.independent (wf : c.WellFormed) (free : c.HistoryFree) (ready : c.Ready x m ts) :
    Independent c m ts where
  declared := ready.declared
  targets t ht d hd u hu := by
    obtain ⟨es, hes, -, henc⟩ :=
      exists_encloses wf (free.sound m).proper (ready.declared t ht) hd
    exact henc.targets u (mem_effective_of_not_history hes hu (free u))
  unrelated := ready.unrelated

end Chart

namespace Script

variable {c : Chart} {x : Configuration} {m : Memory} {ts : List Transition} {script : Script}

/-- Independent transitions exit what each of them exits and enter what each brings along. -/
theorem spec_of_independent (wf : c.WellFormed) (free : c.HistoryFree)
    (ind : Independent c m ts) (h : take? c x m ts = some script) :
    script.memory = m ∧ (∀ i, i ∈ script.exited ↔ i ∈ x ∧ ∃ t ∈ ts, c.Spans m t i) ∧
      ∀ i, i ∈ script.entered ↔ ∃ t ∈ ts, Brings c m t i := by
  obtain ⟨exits, outside, plan, made⟩ := made_of_take? h
  have hmem : script.memory = m := made.memory_eq.trans (free.recordHistory_eq x m exits)
  -- What is left of the configuration keeps clear of every domain.
  have hvacant : ∀ t ∈ ts, ∀ d, c.domain? m t = some (some d) → ∀ i ∈ outside, ¬c.Below i d := by
    intro t ht d hd i hi hid
    obtain ⟨hix, hie⟩ := (made.mem_outside i).mp hi
    exact hie ((made.mem_exits i).mpr ⟨hix, t, ht, d, hd, hid⟩)
  have hplan := made.plan_eq
  rw [hmem] at hplan
  have hstates (i : Nat) : i ∈ plan.states ↔ ∃ t ∈ ts, Brings c m t i := by
    rw [EntryPlan.mem_foldlM wf (free.sound m) ind hvacant
      (fun t _ d _ i hi => absurd hi (StateSet.not_mem_empty i)) hplan,
      or_iff_right (StateSet.not_mem_empty i)]
  refine ⟨hmem, fun i => (made.mem_exited i).trans (made.mem_exits i), fun i => ?_⟩
  rw [made.mem_entered, hstates, and_iff_left_iff_imp]
  rintro ⟨t, ht, hbrings⟩ hi
  obtain ⟨d, hd, hid⟩ := EntryPlan.below_of_brings wf (free.sound m) (ind.declared t ht)
    (ind.targets t ht) hbrings
  exact hvacant t ht d hd i hi hid

end Script

namespace Engine

variable {σ : Type} {e : Engine σ} {s : Session σ} {event : Option Event}

/-- Takes the transitions one after the other, each in a microstep of its own, and answers with the
scripts followed and the session in the end. -/
def takeEach? (e : Engine σ) (event : Option Event) :
    Session σ → List Nat → Option (List Script × Session σ)
  | s, [] => some ([], s)
  | s, r :: rs =>
    (Script.take? e.chart s.configuration s.memory [e.chart.transition r]).bind fun script =>
      (takeEach? e event (e.follow s script event) rs).map fun w => (script :: w.1, w.2)

variable (event) in
/-- Each transition finds the states it exits as they were, and the states it enters stay. -/
theorem takeEach?_spec (wf : e.chart.WellFormed) (free : e.chart.HistoryFree) {ranks : List Nat}
    (ind : Independent e.chart s.memory (ranks.map e.chart.transition)) :
    ∃ scripts s', e.takeEach? event s ranks = some (scripts, s') ∧
      (∀ i, (∃ one ∈ scripts, i ∈ one.exited) ↔ i ∈ s.configuration ∧
        ∃ r ∈ ranks, e.chart.Spans s.memory (e.chart.transition r) i) ∧
      (∀ i, (∃ one ∈ scripts, i ∈ one.entered) ↔
        ∃ r ∈ ranks, Brings e.chart s.memory (e.chart.transition r) i) ∧
      ∀ i, i ∈ s'.configuration ↔ i ∈ s.configuration ∧
          (¬∃ r ∈ ranks, e.chart.Spans s.memory (e.chart.transition r) i) ∨
        ∃ r ∈ ranks, Brings e.chart s.memory (e.chart.transition r) i := by
  induction ranks generalizing s with
  | nil => exact ⟨[], s, rfl, by simp, by simp, by simp⟩
  | cons r rs ih =>
    rw [List.map_cons] at ind
    obtain ⟨script, hscript⟩ := Script.exists_take? wf free.grounded
      (fun i (_ : i ∈ s.configuration) => free i) (free.sound s.memory).proper ind.head.declared
    obtain ⟨hmem, hexited, hentered⟩ := Script.spec_of_independent wf free ind.head hscript
    simp only [List.mem_singleton, exists_eq_left] at hexited hentered
    have hfollow := e.followed_follow event s script
    have hmemory : (e.follow s script event).memory = s.memory := hfollow.memory.trans hmem
    have hnext (i : Nat) : i ∈ (e.follow s script event).configuration ↔
        i ∈ s.configuration ∧ ¬e.chart.Spans s.memory (e.chart.transition r) i ∨
          Brings e.chart s.memory (e.chart.transition r) i := by
      rw [hfollow.configuration, Script.mem_result_iff hscript, hexited, hentered]
      exact or_congr_left (and_congr_right fun hi => not_congr (and_iff_right hi))
    have hbrings (i : Nat) (hi : Brings e.chart s.memory (e.chart.transition r) i) :
        e.chart.Spans s.memory (e.chart.transition r) i :=
      EntryPlan.below_of_brings wf (free.sound s.memory) (ind.head.declared _ (by simp))
        (ind.head.targets _ (by simp)) hi
    have hapart (i : Nat) (hi : e.chart.Spans s.memory (e.chart.transition r) i) :
        ¬∃ u ∈ rs, e.chart.Spans s.memory (e.chart.transition u) i := by
      rintro ⟨u, hu, hui⟩
      exact hi.unrelated wf ((List.pairwise_cons.mp ind.unrelated).1 _
        (List.mem_map.mpr ⟨u, hu, rfl⟩)) hui
    obtain ⟨scripts, s', hrun, hexits, henters, hresult⟩ :=
      ih (s := e.follow s script event) (by rw [hmemory]; exact ind.tail)
    rw [hmemory] at hexits henters hresult
    refine ⟨script :: scripts, s', by simp [takeEach?, hscript, hrun], fun i => ?_, fun i => ?_,
      fun i => ?_⟩
    · have hspans := hbrings i
      have hnone := hapart i
      rw [List.exists_mem_cons_iff, hexited, hexits, hnext, List.exists_mem_cons_iff]
      grind
    · rw [List.exists_mem_cons_iff, hentered, henters, List.exists_mem_cons_iff]
    · have hspans := hbrings i
      have hnone := hapart i
      rw [hresult, hnext, List.exists_mem_cons_iff, List.exists_mem_cons_iff]
      grind

/-- What is selected in a valid configuration is independent. -/
theorem independent_of_offers {c : Chart} {x : Configuration} {m : Memory} {ranks : List Nat}
    (wf : c.WellFormed) (free : c.HistoryFree) (hx : x.validate c = .ok ())
    (h : Offers c x m ranks) : Independent c m (ranks.map c.transition) := by
  by_cases hne : ranks = []
  · subst hne
    exact ⟨by simp, by simp, .nil⟩
  · exact (ready_of_offers wf (valid_of_offers wf hx h hne) h).independent wf free

/-- Without history states, whatever is selected in a valid configuration may be taken in one
microstep or one transition at a time, in any order: the configuration in the end is the same, and
the microstep exits and enters what the single ones exit and enter together. -/
theorem select_independent {d : ChartDecl} (hb : d.build = .ok e.chart)
    (free : e.chart.HistoryFree) (hx : s.configuration.validate e.chart = .ok ())
    (event : Option Event) :
    ∃ ranks s₁ script, e.select? s event = some (ranks, s₁) ∧
      s₁.configuration = s.configuration ∧
      Script.take? e.chart s₁.configuration s₁.memory (ranks.map e.chart.transition) =
        some script ∧
      ∀ order : List Nat, order.Perm ranks → ∃ scripts s₂,
        e.takeEach? event s₁ order = some (scripts, s₂) ∧
        s₂.configuration = (e.follow s₁ script event).configuration ∧
        (∀ i, i ∈ script.exited ↔ ∃ one ∈ scripts, i ∈ one.exited) ∧
        ∀ i, i ∈ script.entered ↔ ∃ one ∈ scripts, i ∈ one.entered := by
  have wf := ChartDecl.wellFormed_of_build hb
  obtain ⟨ranks, s₁, hsel⟩ := exists_select? (s := s) wf free.grounded event
  obtain ⟨hsame, -, -⟩ := e.select?_spec hsel
  have ind := independent_of_offers wf free (hsame.configuration ▸ hx) (offers_of_select? hsel)
  obtain ⟨script, hscript⟩ := Script.exists_take? wf free.grounded
    (fun i (_ : i ∈ s₁.configuration) => free i) (free.sound s₁.memory).proper ind.declared
  obtain ⟨-, hexited, hentered⟩ := Script.spec_of_independent wf free ind hscript
  simp only [List.mem_map, exists_exists_and_eq_and] at hexited hentered
  refine ⟨ranks, s₁, script, hsel, hsame.configuration, hscript, fun order hperm => ?_⟩
  obtain ⟨scripts, s₂, hrun, hexits, henters, hresult⟩ :=
    takeEach?_spec event wf free (ind.perm (hperm.map e.chart.transition))
  simp only [hperm.mem_iff] at hexits henters hresult
  refine ⟨scripts, s₂, hrun, StateSet.ext fun i => ?_, fun i => ?_, fun i => ?_⟩
  · rw [hresult, (e.followed_follow event s₁ script).configuration,
      Script.mem_result_iff hscript, hexited, hentered]
    exact or_congr_left (and_congr_right fun hi => not_congr (and_iff_right hi).symm)
  · rw [hexited, hexits]
  · rw [hentered, henters]

/-- The lights of the crossing change one after the other just as they do together. -/
theorem crossing_independent : crossing.chart.HistoryFree ∧
    ∃ (s s₁ s₂ : Session Unit) (ranks : List Nat) (scripts : List Script),
      s.configuration.validate crossing.chart = .ok () ∧
      (bare crossing.chart).select? s (some (.external "change")) = some (ranks, s₁) ∧
      ranks = [0, 2] ∧
      (bare crossing.chart).takeEach? (some (.external "change")) s₁ [2, 0] =
        some (scripts, s₂) ∧
      s₂.configuration.toList = [1, 2, 4, 5, 7] := by
  let s : Session Unit := { host := (), status := .awaitingExternal,
                            configuration := StateSet.ofList [1, 2, 3, 5, 6] }
  have free : (bare crossing.chart).chart.HistoryFree := by decide +kernel
  have hx : s.configuration.validate (bare crossing.chart).chart = .ok () := by decide +kernel
  obtain ⟨ranks, s₁, script, hsel, hsame, htake, hall⟩ :=
    select_independent (e := bare crossing.chart) crossing_builds free hx
      (some (.external "change"))
  have hranks : ((bare crossing.chart).select? s (some (.external "change"))).map (·.1) =
      some [0, 2] := by decide +kernel
  rw [hsel, Option.map_some, Option.some.injEq] at hranks
  simp only at hranks
  subst hranks
  obtain ⟨scripts, s₂, hrun, hconf, -, -⟩ := hall [2, 0] (.swap 0 2 [])
  have hresult : (Script.take? (bare crossing.chart).chart s.configuration s.memory
      ([0, 2].map (bare crossing.chart).chart.transition)).map
      (fun script => (Command.applyAll s.configuration script.commands).toList) =
      some [1, 2, 4, 5, 7] := by decide +kernel
  refine ⟨free, s, s₁, s₂, _, scripts, hx, hsel, rfl, hrun, ?_⟩
  obtain ⟨hunchanged, -, -⟩ := (bare crossing.chart).select?_spec hsel
  rw [hsame, hunchanged.memory] at htake
  rw [htake, Option.map_some, Option.some.injEq] at hresult
  rw [hconf, ((bare crossing.chart).followed_follow _ s₁ script).configuration, hsame]
  exact hresult

end Engine

end Statechart

import Statechart.Proofs.Acceptance
import Statechart.Proofs.Arena
import Statechart.Proofs.Fidelity

/-!
Plans that come to an end. What is entered is found by walking down through initial targets and
regions, aside through the defaults of history states and up through ancestors that open regions of
their own. The first and the last of these walks have only the tree to use up, so what decides is
whether a history state passes the walk on to a sibling that leads back to it: unless that happens
every walk ends, whatever has been recorded, and a history state for which it happens is never
entered while nothing is recorded.
-/
namespace Statechart

open Ancestry (below_of_parent)
open Chart (root)
open Relation (TransGen)

/-! ### Chains among siblings -/

namespace Chart

variable {c : Chart} {h q t : Nat}

/-- Without a record the history state leads to the other one, which belongs to the same parent. -/
def PassesTo (c : Chart) (h t : Nat) : Prop :=
  c.isHistory h = true ∧ c.isHistory t = true ∧
    ∃ q, c.parent h = some q ∧ c.parent t = some q ∧ t ∈ c.leads .empty h q

theorem PassesTo.refers (h : c.PassesTo q t) : c.Refers q t := by
  obtain ⟨hh, hth, p, hp, -, hmem⟩ := h
  exact ⟨hh, hth, p, hp, hmem⟩

section WellFormed

variable (wf : c.WellFormed)
include wf

/-- A chain goes on below the parent it has started from. -/
theorem exists_parents_of_chain (h : TransGen c.Refers q t) :
    ∃ p r, c.parent q = some p ∧ c.parent t = some r ∧ c.Within r p := by
  have hstep {q t : Nat} (h : c.Refers q t) :
      ∃ p r, c.parent q = some p ∧ c.parent t = some r ∧ c.Within r p := by
    obtain ⟨hh, -, p, hp, hmem⟩ := h
    have hbelow := (wf.leads_spec (Memory.sound_empty c) hh hp).1 t hmem
    obtain ⟨r, hr, hrp⟩ := (Ancestry.below_iff wf.upward).mp hbelow
    exact ⟨p, r, hp, hr, hrp⟩
  induction h with
  | single h => exact hstep h
  | tail _ h ih =>
    obtain ⟨p, r, hp, hr, hrp⟩ := ih
    obtain ⟨r', s, hr', hs, hsr⟩ := hstep h
    obtain rfl := Option.some.inj (hr.symm.trans hr')
    exact ⟨p, s, hp, hs, hsr.trans wf.upward hrp⟩

/-- A chain that has come to a sibling has passed through siblings only. -/
theorem siblings_of_chain (h : TransGen c.Refers q t) (hqt : c.parent q = c.parent t) :
    TransGen c.PassesTo q t := by
  induction h with
  | @single t h =>
    obtain ⟨hh, hth, p, hp, hmem⟩ := h
    exact .single ⟨hh, hth, p, hp, hqt ▸ hp, hmem⟩
  | @tail s t hqs h ih =>
    -- A chain never climbs, so with both ends below one parent the state before the last is too.
    obtain ⟨p, r, hp, hr, hrp⟩ := exists_parents_of_chain wf hqs
    obtain ⟨r', p', hr', hp', hpr⟩ := exists_parents_of_chain wf (.single h)
    obtain rfl := Option.some.inj (hr.symm.trans hr')
    obtain rfl := Option.some.inj (hp.symm.trans (hqt.trans hp'))
    obtain rfl := Nat.le_antisymm (hpr.le wf.upward) (hrp.le wf.upward)
    obtain ⟨hh, hth, r', hr'', hmem⟩ := h
    obtain rfl := Option.some.inj (hr.symm.trans hr'')
    exact (ih (hp.trans hr.symm)).tail ⟨hh, hth, _, hr, hp', hmem⟩

/-- Only among siblings can a chain lead back to where it started. -/
theorem grounded_iff_siblings : c.Grounded ↔ ∀ h, ¬TransGen c.PassesTo h h := by
  constructor
  · exact fun g h hcycle => g h (TransGen.mono (fun _ _ => PassesTo.refers) h h hcycle)
  · exact fun hno h hcycle => hno h (siblings_of_chain wf hcycle rfl)

theorem not_history_root : c.isHistory root = false := by
  obtain ⟨k, hk⟩ := wf.exists_region root wf.root_inner
  exact wf.not_history_of_parent (wf.mem_regions.mp hk).1

theorem below_root_of_history (ht : t < c.size) (hh : c.isHistory t = true) : c.Below t root :=
  wf.below_root t ht fun he => by simp [he, not_history_root wf] at hh

end WellFormed

/-! ### Answers do not depend on the steps allowed -/

variable {m : Memory} {k n : Nat} {rs : List Nat}

/-- More steps do not change what a target stands for. -/
theorem resolveTarget?_mono (hnk : n ≤ k) (h : c.resolveTarget? m n t = some rs) :
    c.resolveTarget? m k t = some rs := by
  induction n generalizing k t rs with
  | zero => simp [resolveTarget?] at h
  | succ n ih =>
    obtain ⟨k, rfl⟩ : ∃ l, k = l + 1 := ⟨k - 1, by omega⟩
    have hle : n ≤ k := Nat.le_of_succ_le_succ hnk
    unfold resolveTarget? at h ⊢
    split at h
    · split at h
      · exact h
      · obtain ⟨rss, hrss, rfl⟩ := Option.map_eq_some_iff.mp h
        have hrss' := (mapM_eq_some_iff.mp hrss).imp fun _ _ hu => ih hle hu
        exact Option.map_eq_some_iff.mpr ⟨rss, mapM_eq_some_iff.mpr hrss', rfl⟩
      · exact h
    · exact h

end Chart

namespace EntryPlan

variable {c : Chart} {m : Memory} {p p' : EntryPlan} {h k n t top : Nat} {as rs ts : List Nat}
  {down down' : Nat → EntryPlan → Option EntryPlan}

/-- Whatever the one answers the other answers as well. -/
def Refines (down down' : Nat → EntryPlan → Option EntryPlan) : Prop :=
  ∀ s p p', down s p = some p' → down' s p = some p'

section Refines

variable (hdown : Refines down down')
include hdown

theorem Refines.openRegions (h : openRegions c down rs p = some p') :
    EntryPlan.openRegions c down' rs p = some p' := by
  induction rs generalizing p with
  | nil => exact h
  | cons r rs ih =>
    rw [EntryPlan.openRegions] at h ⊢
    split at h
    · rw [if_pos ‹_›]
      exact ih h
    · obtain ⟨p₁, hp₁, hrest⟩ := Option.bind_eq_some_iff.mp h
      rw [if_neg ‹_›]
      exact Option.bind_eq_some_iff.mpr ⟨p₁, hdown r p p₁ hp₁, ih hrest⟩

theorem Refines.addAncestors (h : addAncestors c down as p = some p') :
    EntryPlan.addAncestors c down' as p = some p' := by
  induction as generalizing p with
  | nil => exact h
  | cons a as ih =>
    simp only [EntryPlan.addAncestors] at h ⊢
    split at h
    · rw [if_pos ‹_›]
      exact ih h
    · rw [if_neg ‹_›]
      split at h
      · obtain ⟨p₁, hp₁, hrest⟩ := Option.bind_eq_some_iff.mp h
        rw [if_pos ‹_›]
        exact Option.bind_eq_some_iff.mpr ⟨p₁, hdown.openRegions hp₁, ih hrest⟩
      · rw [if_neg ‹_›]
        exact ih h

theorem Refines.addAll (h : addAll down ts p = some p') :
    EntryPlan.addAll down' ts p = some p' := by
  induction ts generalizing p with
  | nil => exact h
  | cons t ts ih =>
    obtain ⟨p₁, hp₁, hrest⟩ := Option.bind_eq_some_iff.mp h
    exact Option.bind_eq_some_iff.mpr ⟨p₁, hdown t p p₁ hp₁, ih hrest⟩

theorem Refines.addAllAncestors (h : addAllAncestors c down top ts p = some p') :
    EntryPlan.addAllAncestors c down' top ts p = some p' := by
  induction ts generalizing p with
  | nil => exact h
  | cons t ts ih =>
    obtain ⟨p₁, hp₁, hrest⟩ := Option.bind_eq_some_iff.mp h
    exact Option.bind_eq_some_iff.mpr ⟨p₁, hdown.addAncestors hp₁, ih hrest⟩

theorem Refines.addTargets (h : addTargets c down top ts p = some p') :
    EntryPlan.addTargets c down' top ts p = some p' := by
  obtain ⟨p₁, hp₁, hrest⟩ := Option.bind_eq_some_iff.mp h
  exact Option.bind_eq_some_iff.mpr ⟨p₁, hdown.addAll hp₁, hdown.addAllAncestors hrest⟩

end Refines

/-- More levels do not change what is added. -/
theorem refines_addWithin (hnk : n ≤ k) : Refines (addWithin c m n) (addWithin c m k) := by
  induction n generalizing k with
  | zero => exact fun s p p' h => absurd h (by simp [addWithin])
  | succ n ih =>
    obtain ⟨k, rfl⟩ : ∃ l, k = l + 1 := ⟨k - 1, by omega⟩
    have ih : Refines (addWithin c m n) (addWithin c m k) := ih (by omega)
    intro s p p' h
    cases hh : c.isHistory s with
    | true =>
      cases hq : c.parent s with
      | none =>
        obtain ⟨d, e, hk⟩ := Chart.exists_kind_of_history hh
        simpa [addWithin, hk, hq] using h
      | some q =>
        rw [addWithin_fallBack hh hq] at h ⊢
        exact ih.addTargets h
    | false =>
      unfold addWithin at h ⊢
      cases hk : (c.node s).kind with
      | history d e => simp [Chart.isHistory, Node.isHistory, hk] at hh
      | atomic => simpa [hk] using h
      | final => simpa [hk] using h
      | compound i =>
        simp only [hk] at h ⊢
        exact ih.addTargets h
      | parallel =>
        simp only [hk] at h ⊢
        exact ih.openRegions h

/-! ### Chains that come back -/

/-- All targets have been added in their turn. -/
theorem exists_of_addAll (h : addAll down ts p = some p') (ht : t ∈ ts) :
    ∃ p₁ p₂, down t p₁ = some p₂ := by
  induction ts generalizing p with
  | nil => simp at ht
  | cons u ts ih =>
    obtain ⟨p₁, hp₁, hrest⟩ := Option.bind_eq_some_iff.mp h
    rcases List.mem_cons.mp ht with rfl | ht
    · exact ⟨p, p₁, hp₁⟩
    · exact ih hrest ht

/-- A history state is added after those that its default names, and these have a level less. -/
theorem exists_of_refers (hht : c.Refers h t) (hadd : addWithin c .empty (n + 1) h p = some p') :
    ∃ p₁ p₂, addWithin c .empty n t p₁ = some p₂ := by
  obtain ⟨hh, -, q, hq, hmem⟩ := hht
  rw [addWithin_fallBack hh hq] at hadd
  obtain ⟨p₁, hp₁, -⟩ := Option.bind_eq_some_iff.mp hadd
  exact exists_of_addAll hp₁ hmem

theorem exists_of_chain (hchain : TransGen c.Refers h t)
    (hadd : addWithin c .empty n h p = some p') :
    ∃ k < n, ∃ p₁ p₂, addWithin c .empty k t p₁ = some p₂ := by
  induction hchain with
  | single hht =>
    obtain _ | n := n
    · simp [addWithin] at hadd
    · exact ⟨n, Nat.lt_succ_self n, exists_of_refers hht hadd⟩
  | tail _ hst ih =>
    obtain ⟨k, hk, p₁, p₂, hs⟩ := ih
    obtain _ | k := k
    · simp [addWithin] at hs
    · exact ⟨k, by omega, exists_of_refers hst hs⟩

/-- While nothing is recorded, a history state whose chain comes back to it is not entered, however
many levels are allowed. -/
theorem addWithin_eq_none_of_cycle (hcycle : TransGen c.Refers h h) (n : Nat) (p : EntryPlan) :
    addWithin c .empty n h p = none := by
  induction n using Nat.strong_induction_on generalizing p with
  | h n ih =>
    cases hadd : addWithin c .empty n h p with
    | none => rfl
    | some p' =>
      obtain ⟨k, hk, p₁, p₂, hk'⟩ := exists_of_chain hcycle hadd
      simp [ih k hk p₁] at hk'

end EntryPlan

/-! ### Plans that end -/

namespace Chart

open EntryPlan (addAncestors addWithin levels)

variable {c : Chart} {m : Memory} {t : Nat}

/-- With the given memory everything that is planned comes to an end: what a target stands for, the
descendants and the ancestors of a state, and so the microstep and the first entry. Beyond a number
of steps that the size of the chart decides, the answer is always the same. -/
structure PlansEnd (c : Chart) (m : Memory) : Prop where
  resolve : ∀ t < c.size, ∃ rs, ∀ n ≥ c.resolveSteps, c.resolveTarget? m n t = some rs
  descend : ∀ s < c.size, ∀ p, ∃ p', ∀ n ≥ levels c, addWithin c m n s p = some p'
  ascend : ∀ s < c.size, ∀ top p, ∃ p', ∀ n ≥ levels c,
    addAncestors c (addWithin c m n) (c.ancestorsBelow s top) p = some p'
  step : ∀ x : Configuration, (∀ s ∈ x, c.isHistory s = false) → ∀ ranks : List Nat,
    (∀ r ∈ ranks, r < c.transitions.size) →
      ∃ script, Script.take? c x m (ranks.map c.transition) = some script
  start : ∃ script, Script.start? c = some script

section WellFormed

variable (wf : c.WellFormed) {rank : Nat → Nat}
include wf

theorem exists_resolved_of_ranked (ranked : c.Ranked rank) (ht : t < c.size) :
    ∃ rs, ∀ n ≥ c.resolveSteps, c.resolveTarget? m n t = some rs := by
  obtain ⟨rs, hrs⟩ : ∃ rs, c.resolveTarget? m c.resolveSteps t = some rs := by
    cases hh : c.isHistory t with
    | false => exact ⟨_, resolveTarget?_of_not_history hh _⟩
    | true =>
      have hlt := ranked.lt_size t ht
      refine exists_resolveTarget? wf ranked (below_root_of_history wf ht hh) ?_ fun _ => ?_
      · exact Nat.succ_pos c.size
      · rw [resolveSteps]
        omega
  exact ⟨rs, fun n hn => resolveTarget?_mono hn hrs⟩

theorem enterable_of_ranked (proper : m.Proper c) (ranked : c.Ranked rank) (ht : t < c.size) :
    EntryPlan.Enterable (addWithin c m (levels c)) t :=
  EntryPlan.enterable_addWithin wf proper ranked (below_root_of_history wf ht)
    (EntryPlan.weight_lt_levels ranked ht)

theorem exists_ancestors_of_ranked (proper : m.Proper c) (ranked : c.Ranked rank) (s top : Nat)
    (p : EntryPlan) : ∃ p', ∀ n ≥ levels c,
      addAncestors c (addWithin c m n) (c.ancestorsBelow s top) p = some p' := by
  have hregions : ∀ a ∈ c.ancestorsBelow s top, ∀ r ∈ c.regions a,
      EntryPlan.Enterable (addWithin c m (levels c)) r := fun a _ r hr =>
    enterable_of_ranked wf proper ranked (lt_size_of_parent (wf.mem_regions.mp hr).1)
  obtain ⟨p', hp'⟩ := EntryPlan.exists_addAncestors hregions p
  exact ⟨p', fun n hn => (EntryPlan.refines_addWithin hn).addAncestors hp'⟩

end WellFormed

theorem plansEnd_of_grounded {d : ChartDecl} (hb : d.build = .ok c) (g : c.Grounded)
    (proper : m.Proper c) : c.PlansEnd m := by
  have wf := ChartDecl.wellFormed_of_build hb
  obtain ⟨rank, ranked⟩ := g.exists_ranked wf
  refine ⟨fun t ht => exists_resolved_of_ranked wf ranked ht, fun s hs p => ?_,
    fun s _ top p => exists_ancestors_of_ranked wf proper ranked s top p,
    fun x hreal ranks hranks => ?_, Script.exists_start? wf g⟩
  · obtain ⟨p', hp'⟩ := enterable_of_ranked wf proper ranked hs p
    exact ⟨p', fun n hn => EntryPlan.refines_addWithin hn s p p' hp'⟩
  · refine Script.exists_take? wf g hreal proper fun t ht => ?_
    obtain ⟨r, hr, rfl⟩ := List.mem_map.mp ht
    exact wf.declared ((ChartDecl.mem_transitions_of_build hb).mpr ⟨hranks r hr, rfl⟩)

/-- Where a chain comes back, what is left open is the entry of its history states. -/
theorem grounded_of_plansEnd (h : c.PlansEnd .empty) : c.Grounded := by
  intro t hcycle
  obtain ⟨u, ⟨-, -, q, hq, -⟩, -⟩ := Relation.TransGen.head'_iff.mp hcycle
  obtain ⟨p', hp'⟩ := h.descend t (lt_size_of_parent hq) {}
  simpa [EntryPlan.addWithin_eq_none_of_cycle hcycle] using hp' _ (Nat.le_refl _)

/-- No chain comes back if history states pass entry on to later siblings only. -/
theorem not_cycle_of_later (h : ∀ s < c.size, c.isHistory s = true → ∀ q ∈ c.parent s,
    ∀ t ∈ c.leads .empty s q, c.isHistory t = true → s < t) : ∀ s, ¬TransGen c.PassesTo s s := by
  have later {s t : Nat} (hst : c.PassesTo s t) : s < t := by
    obtain ⟨hh, hth, q, hq, -, hmem⟩ := hst
    exact h s (lt_size_of_parent hq) hh q hq t hmem hth
  have hchain {s t : Nat} (hst : TransGen c.PassesTo s t) : s < t := by
    induction hst with
    | single hst => exact later hst
    | tail _ hst ih => exact Nat.lt_trans ih (later hst)
  exact fun s hs => Nat.lt_irrefl s (hchain hs)

end Chart

namespace Engine

variable {σ : Type} {e : Engine σ} {s s₀ : Session σ} {saved : Checkpoint}

/-- No history state is active, and the records are proper. -/
def Tidy (e : Engine σ) (s : Session σ) : Prop :=
  (∀ i ∈ s.configuration, e.chart.isHistory i = false) ∧ s.memory.Proper e.chart

/-- The sessions of an interpreter, also amid a request, that have been created or restored and then
used in any way. -/
inductive Arises (e : Engine σ) : Session σ → Prop
  | fresh (host : σ) : Arises e { host }
  | restored {s₀ s : Session σ} {saved : Checkpoint} : e.restore s₀ saved = .ok s → Arises e s
  | begins {s : Session σ} {r : Request} {m : Macrostep σ} :
      Arises e s → Begins e s r m → Arises e m.session
  | turn {m : Macrostep σ} {t : Turn σ} :
      Arises e m.session → e.turn? m = some t → Arises e t.session
  | served {s : Session σ} {r : Request} {a : Answer σ} (bound : Nat) :
      Arises e s → e.serve? bound s r = some a → Arises e a.session

theorem tidy_of_restore (wf : e.chart.WellFormed) (h : e.restore s₀ saved = .ok s) : e.Tidy s := by
  obtain ⟨active, records, internal, external, acc, rfl⟩ := restore_eq_ok_iff.mp h
  exact ⟨fun i hi => ((Configuration.validate_eq_ok_iff_of_mem wf hi).mp acc.valid).real i hi,
    acc.filled.proper⟩

/-- What is restored is checked, and what is done to a session keeps it tidy. -/
theorem Arises.tidy (wf : e.chart.WellFormed) (h : Arises e s) : e.Tidy s := by
  have inv := invariant_proper wf
  induction h with
  | fresh host => exact inv.fresh
  | restored h => exact tidy_of_restore wf h
  | begins _ hm ih => exact inv.begins hm ih
  | turn _ ht ih => exact inv.turn ht ih
  | served bound _ ha ih => exact inv.serve ha ih

/-- Entry planning in a built chart comes to an end with every memory whose records are proper,
exactly if there is no cycle among history states of one parent, each of which leads to the next
while nothing is recorded for it. No other memory ever comes up in a session, whether it has been
created or restored, and so no microstep of a session and no first entry is left unfinished. -/
theorem plansEnd_iff_no_cycle {d : ChartDecl} (hb : d.build = .ok e.chart) :
    ((∀ h, ¬TransGen e.chart.PassesTo h h) ↔ ∀ m, m.Proper e.chart → e.chart.PlansEnd m) ∧
    (∀ s, Arises e s → e.Tidy s) ∧
    ((∀ h, ¬TransGen e.chart.PassesTo h h) →
      (∃ script, Script.start? e.chart = some script) ∧
      ∀ s, Arises e s → ∀ ranks : List Nat, (∀ r ∈ ranks, r < e.chart.transitions.size) →
        ∀ event, ∃ s', e.microstep? s ranks event = some s') := by
  have wf := ChartDecl.wellFormed_of_build hb
  have hends (hno : ∀ h, ¬TransGen e.chart.PassesTo h h) (m : Memory) (proper : m.Proper e.chart) :
      e.chart.PlansEnd m :=
    Chart.plansEnd_of_grounded hb ((Chart.grounded_iff_siblings wf).mpr hno) proper
  have hempty := (Memory.sound_empty e.chart).proper
  refine ⟨⟨hends, fun hall => ?_⟩, fun s hs => hs.tidy wf, fun hno => ⟨?_, ?_⟩⟩
  · exact (Chart.grounded_iff_siblings wf).mp (Chart.grounded_of_plansEnd (hall _ hempty))
  · exact (hends hno _ hempty).start
  · intro s hs ranks hranks event
    obtain ⟨hreal, proper⟩ := hs.tidy wf
    obtain ⟨script, hscript⟩ := (hends hno _ proper).step _ hreal ranks hranks
    exact ⟨e.follow s script event, by rw [microstep?_eq, hscript]; rfl⟩

/-- A book that opens at the page last read, and by default at a place in the chapter. -/
def reader (place : String) : ChartDecl where
  name := "Reader"
  states := [
    ((((StateDecl.plain "book").withInitial "page").withChild
      ((StateDecl.history "page" .shallow).withInitial "chapter")).withChild
      ((StateDecl.history "chapter" .deep).withInitial place)).withChild
      (((StateDecl.parallel "spread").withChild (.plain "text")).withChild
        ((StateDecl.plain "margin").withChild (.plain "notes"))),
    (StateDecl.plain "closed").withTransition (.simple "open" "page")]

/-- The chapter may open at the notes in the margin of a spread, and every plan ends; but not at
the page, which opens at the chapter. -/
theorem reader_plansEnd : (reader "notes").build = .ok (reader "notes").chart ∧
    (reader "notes").chart.PassesTo 2 3 ∧
    (∀ m, m.Proper (reader "notes").chart → (reader "notes").chart.PlansEnd m) ∧
    (reader "page").build = .ok (reader "page").chart ∧
    ¬∀ m, m.Proper (reader "page").chart → (reader "page").chart.PlansEnd m := by
  have hb : (reader "notes").build = .ok (bare (reader "notes").chart).chart :=
    ChartDecl.build_eq_chart (by decide +kernel)
  have hb' : (reader "page").build = .ok (bare (reader "page").chart).chart :=
    ChartDecl.build_eq_chart (by decide +kernel)
  refine ⟨hb, ?_, ?_, hb', ?_⟩
  · exact ⟨by decide +kernel, by decide +kernel, 1, by decide +kernel⟩
  · exact (plansEnd_iff_no_cycle hb).1.mp (Chart.not_cycle_of_later (by decide +kernel))
  · intro hends
    have hto : (reader "page").chart.PassesTo 2 3 :=
      ⟨by decide +kernel, by decide +kernel, 1, by decide +kernel⟩
    have hback : (reader "page").chart.PassesTo 3 2 :=
      ⟨by decide +kernel, by decide +kernel, 1, by decide +kernel⟩
    exact (plansEnd_iff_no_cycle hb').1.mpr hends 2 (.tail (.single hto) hback)

end Engine

end Statechart

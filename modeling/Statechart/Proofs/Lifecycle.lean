import Statechart.Proofs.DoneEvents
import Statechart.Proofs.Notices
import Statechart.Proofs.Occupation
import Statechart.Proofs.SessionInvariant

/-!
The life of a session. A script says that the chart has come to its end exactly when it makes the
root complete: by the entry of a final child where the root is compound, by the last of the final
states that count for a region where it is parallel. So between two requests a session is idle,
waiting or at its end, as what is active says; and it is started when it is idle, stopped when it is
not, and left alone at its end.
-/
namespace Statechart

open Chart (root)
open Command (applyAll)

/-! ### How scripts end -/

/-- The entry of the state ends the chart. -/
def Chart.Ends (c : Chart) (s : Nat) : Prop :=
  (c.node s).isFinal = true ∧ c.parent s = some root ∧ (c.node root).isParallel = false

namespace Arrival

variable {c : Chart} {byDefault : StateSet}

theorem completion_finished_iff (c : Chart) (x : Configuration) (s : Nat) :
    (completion c x s).2 = true ↔ c.Ends s := by
  unfold completion Chart.Ends
  cases hf : (c.node s).isFinal
  · simp
  · cases hp : c.parent s with
    | none => simp
    | some p => by_cases hroot : p = root <;> simp [hroot]

theorem finished_foldl (c : Chart) (byDefault : StateSet) (ss : List Nat) (a : Arrival) :
    (ss.foldl (enter c byDefault) a).finished = true ↔
      a.finished = true ∨ ∃ s ∈ ss, s ∉ a.configuration ∧ c.Ends s := by
  induction ss generalizing a with
  | nil => simp
  | cons s ss ih =>
    rw [List.foldl_cons, ih]
    by_cases hs : s ∈ a.configuration
    · simp [enter_of_mem hs, hs]
    · have hfinished : (enter c byDefault a s).finished = true ↔ a.finished = true ∨ c.Ends s := by
        rw [← completion_finished_iff c (a.configuration.insert s) s]
        simp [enter, hs]
      rw [hfinished, (enter_spec c byDefault a s hs).1, or_assoc]
      refine or_congr_right ⟨?_, ?_⟩
      · rintro (hends | ⟨t, ht, hout, hends⟩)
        · exact ⟨s, List.mem_cons_self, hs, hends⟩
        · exact ⟨t, List.mem_cons_of_mem s ht, fun hin => hout (by simp [hin]), hends⟩
      · rintro ⟨t, ht, hout, hends⟩
        by_cases hts : t = s
        · exact .inl (hts ▸ hends)
        · exact .inr ⟨t, (List.mem_cons.mp ht).resolve_left hts, by simp [hts, hout], hends⟩

end Arrival

/-- An arrival finishes exactly when it makes the root complete. -/
theorem EntryPlan.finished_arrive_iff {c : Chart} (wf : c.WellFormed) (p : EntryPlan)
    {x : Configuration} (hx : x.isFinal c root = false) :
    (p.arrive c x).finished = true ↔
      (applyAll x (p.arrive c x).commands).isFinal c root = true := by
  obtain ⟨-, -, cmds, hcmds, happly⟩ := Arrival.foldl_enter_spec c p.byDefault p.states.toList
    { configuration := x, waiting := p.historyActions }
  have hresult : applyAll x (p.arrive c x).commands = (p.arrive c x).configuration := by
    have hcommands : (p.arrive c x).commands = cmds := by simpa [arrive] using hcmds
    rw [hcommands]
    exact happly
  have hends := Arrival.finished_foldl c p.byDefault p.states.toList
    { configuration := x, waiting := p.historyActions }
  rw [hresult]
  rcases wf.root_inner with hroot | hroot
  · have hparallel := Node.not_parallel_of_compound hroot
    have hfinished : (p.arrive c x).finished = true ↔ ∃ s ∈ p.states, s ∉ x ∧ c.Ends s := by
      simpa [arrive, hparallel] using hends
    rw [hfinished, ← hresult, Configuration.isFinal_compound hroot]
    simp only [(p.arrive_spec c x).1]
    constructor
    · rintro ⟨s, hs, -, hfinal, hparent, -⟩
      exact ⟨s, (wf.mem_children root s).mpr hparent, hfinal, .inr hs⟩
    · rintro ⟨s, hchild, hfinal, hs⟩
      have hout : s ∉ x := by
        intro hin
        have hcomplete := (Configuration.isFinal_compound hroot).mpr ⟨s, hchild, hfinal, hin⟩
        simp [hx] at hcomplete
      exact ⟨s, hs.resolve_left hout, hout, hfinal, (wf.mem_children root s).mp hchild, hparallel⟩
  · have hnone : ¬∃ s ∈ p.states.toList, s ∉ x ∧ c.Ends s := by
      rintro ⟨s, -, -, -, -, hparallel⟩
      simp [hroot] at hparallel
    have hfinished := hends.trans (or_iff_left hnone)
    simp only [Bool.false_eq_true, iff_false, Bool.not_eq_true] at hfinished
    simp [arrive, hroot, hfinished]

theorem Script.Enters.finished_iff {c : Chart} (wf : c.WellFormed) {x outside : Configuration}
    {script : Script} {plan : EntryPlan} (h : Enters c x script outside plan)
    (hx : x.isFinal c root = false) :
    script.finished = true ↔ (applyAll x script.commands).isFinal c root = true := by
  have hout : outside.isFinal c root = false := by
    rw [← Bool.not_eq_true]
    intro hfinal
    have hcomplete := Configuration.isFinal_of_concluding (x := x)
      (fun f _ hf => h.outside_subset f hf) hfinal
    simp [hx] at hcomplete
  rw [h.finished, h.result]
  exact plan.finished_arrive_iff wf hout

theorem Configuration.not_isFinal_empty {c : Chart} (wf : c.WellFormed) (q : Nat) :
    isFinal StateSet.empty c q = false := by
  rw [← Bool.not_eq_true]
  intro hfinal
  obtain ⟨f, hf, -⟩ := exists_concluding_of_isFinal wf hfinal
  exact absurd hf (StateSet.not_mem_empty f)

/-! ### Stopping -/

namespace StateSet

variable {x : StateSet} {init : List Nat} {q : Nat} (hx : x.toList = init ++ [q])
include hx

theorem lt_last : ∀ i ∈ init, i < q := by
  have hascending := x.ascending
  rw [hx] at hascending
  exact fun i hi => (List.pairwise_append.mp hascending).2.2 i hi q List.mem_cons_self

theorem toList_erase_last : (x.erase q).toList = init := by
  have hne : ∀ i ∈ init, i ≠ q := fun i hi => Nat.ne_of_lt (lt_last hx i hi)
  change x.toList.filter (· ≠ q) = init
  rw [hx, List.filter_append, List.filter_eq_self.mpr (by simpa using hne)]
  simp

theorem filter_le_last : x.filter (· ≤ q) = x := by
  refine ext fun i => ?_
  rw [mem_filter, decide_eq_true_iff, and_iff_left_iff_imp, ← mem_toList, hx, List.mem_append,
    List.mem_singleton]
  rintro (hi | rfl)
  · exact Nat.le_of_lt (lt_last hx i hi)
  · exact Nat.le_refl i

theorem filter_le_erase_last : ∀ i ∈ init, (x.erase q).filter (· ≤ i) = x.filter (· ≤ i) := by
  intro i hi
  have hlt := lt_last hx i hi
  refine ext fun j => ?_
  rw [mem_filter, mem_filter, mem_erase, decide_eq_true_iff]
  constructor
  · rintro ⟨⟨hj, -⟩, hle⟩
    exact ⟨hj, hle⟩
  · rintro ⟨hj, hle⟩
    exact ⟨⟨hj, by omega⟩, hle⟩

end StateSet

/-- Each active state runs its exit actions while it is active and no later one is. -/
theorem Command.deeds_exits (c : Chart) {x : Configuration} {ss : List Nat}
    (hx : x.toList = ss.reverse) : deeds x (ss.flatMap c.exitCommands) =
      ss.flatMap fun q => (c.node q).onExit.map fun a => (⟨a, .exit, q⟩, x.filter (· ≤ q)) := by
  induction ss generalizing x with
  | nil => rfl
  | cons q ss ih =>
    rw [List.reverse_cons] at hx
    have hcalls : applyAll x (calls .exit q (c.node q).onExit) = x :=
      applyAll_of_still (fun _ h => still_of_mem_calls h) x
    have hexit : deeds x (c.exitCommands q) =
        (c.node q).onExit.map fun a => (⟨a, .exit, q⟩, x) := by
      rw [Chart.exitCommands, deeds_append, deeds_calls]
      exact List.append_nil _
    have hleft : applyAll x (c.exitCommands q) = x.erase q := by
      rw [Chart.exitCommands, applyAll_append, hcalls]
      rfl
    rw [List.flatMap_cons, List.flatMap_cons, deeds_append, hexit, hleft,
      ih (StateSet.toList_erase_last hx), StateSet.filter_le_last hx]
    congr 1
    refine List.flatMap_congr fun i hi => ?_
    rw [StateSet.filter_le_erase_last hx i (List.mem_reverse.mpr hi)]

namespace Engine

variable {σ : Type} {e : Engine σ} {d : ChartDecl} {s : Session σ} {m m₀ : Macrostep σ}
  {a : Answer σ} {event : Option Event} {script : Script}

/-- What stopping a session comes to: every active state is exited once, the last first, and told of;
no event waits any more, and the history is as it was. -/
structure Stops (e : Engine σ) (s : Session σ) (a : Answer σ) : Prop where
  verdict : a.verdict = .ok ()
  status : a.session.status = .idle
  configuration : a.session.configuration = StateSet.empty
  queues : a.session.queues = {}
  memory : a.session.memory = s.memory
  deeds : a.session.deeds = s.deeds ++ s.configuration.toList.reverse.flatMap fun q =>
    (e.chart.node q).onExit.map fun a => (⟨a, .exit, q⟩, s.configuration.filter (· ≤ q))
  changes : a.session.changes = s.changes ++ if s.configuration.isEmpty then [] else
    [⟨e.chart.namesOf s.configuration.toList.reverse, [], none⟩]

theorem stops_stop (hs : s.status ≠ .idle) : Stops e s (e.stop s) := by
  have hfollowed := e.followed_stop s hs
  obtain ⟨hchanges, hdeeds⟩ := told_stop (e := e) hs
  refine ⟨by simp [stop, hs], by simp [stop, hs], ?_, by simp [stop, hs], hfollowed.memory, ?_, ?_⟩
  · rw [hfollowed.configuration, Script.stop_result]
  · rw [hdeeds]
    exact congrArg _ (Command.deeds_exits e.chart (by simp))
  · rw [hchanges, change?]
    by_cases hempty : s.configuration.toList = [] <;>
      simp [Script.stop, StateSet.isEmpty, hempty, Chart.namesOf]

/-! ### The end -/

/-- A session is at its end when the root is complete, and no event waits at the end. -/
structure Lawful (c : Chart) (s : Session σ) : Prop where
  unfinished : s.status ≠ .final → s.configuration.isFinal c root = false
  finished : s.status = .final → s.configuration.isFinal c root = true ∧
    s.queues.internal = [] ∧ s.queues.external = []

theorem Lawful.of_unfinished {c : Chart} (h : s.configuration.isFinal c root = false)
    (hs : s.status ≠ .final) : Lawful c s := ⟨fun _ => h, fun hfinal => absurd hfinal hs⟩

theorem queues_follow (e : Engine σ) (s : Session σ) (event : Option Event)
    (h : script.finished = true) : (e.follow s script event).queues = {} := by
  simp [follow, finish, Session.notice, Session.record, h]

/-- A microstep leads a session that is not at its end to a lawful one. -/
theorem lawful_follow (wf : e.chart.WellFormed) (hs : s.status ≠ .final)
    (hx : s.configuration.isFinal e.chart root = false)
    (h : Script.Composed e.chart s.configuration script) :
    Lawful e.chart (e.follow s script event) := by
  obtain ⟨outside, plan, henters⟩ := h.enters
  have hfinished := henters.finished_iff wf hx
  rw [← (e.followed_follow event s script).configuration] at hfinished
  have hstatus := status_follow (e := e) s script event
  cases hf : script.finished with
  | true =>
    have hqueues := e.queues_follow s event hf
    rw [hf, if_pos rfl] at hstatus
    exact ⟨fun h => absurd hstatus h, fun _ => ⟨hfinished.mp hf, by simp [hqueues]⟩⟩
  | false =>
    simp only [hf, Bool.false_eq_true, if_false] at hstatus
    refine .of_unfinished ?_ (hstatus ▸ hs)
    rwa [hf, Bool.false_eq_true, false_iff, Bool.not_eq_true] at hfinished

/-- A session is not at its end when transitions are asked. -/
theorem Asks.status (h : Asks e m m₀ event) (hm : m.session.status ≠ .final) :
    m₀.session.status ≠ .final := by
  cases h with
  | eventless => exact hm
  | @internal s ev queues hsel _ =>
    have hs : s.status = m.session.status := (e.select?_spec hsel).1.status
    simpa [Session.record, hs] using hm
  | external => simp [Session.record]

theorem undisturbed_drop (e : Engine σ) (s : Session σ) (ev : Event) :
    s.Undisturbed (e.drop s ev) := by
  unfold drop
  split
  · exact Session.undisturbed_notice _ _
  · exact .refl s

theorem upholds_lawful (wf : e.chart.WellFormed) : Upholds e fun s => Lawful e.chart s := by
  have hempty := Configuration.not_isFinal_empty wf root
  constructor
  · exact fun host => .of_unfinished hempty (by simp)
  · exact fun s script _ _ hscript _ => lawful_follow wf (by simp) hempty (.start rfl hscript)
  · intro s progressed hrun hs
    exact .of_unfinished (hs.unfinished (Session.not_final_of_isRunning hrun)) (by simp [opening])
  · exact fun s ev hlive hs => .of_unfinished (hs.unfinished hlive) hlive
  · exact fun s ev hs => ⟨hs.unfinished, hs.finished⟩
  · intro m t _ ht hs
    cases comes_of_turn? ht with
    | final => exact hs
    | @step m₀ event ranks s t hlive hasks hsel _ hstep =>
      have hsame := (e.select?_spec hsel).1
      have hlive' : s.status ≠ .final := hsame.status ▸ hasks.status hlive
      have hx : s.configuration.isFinal e.chart root = false := by
        rw [hsame.configuration, hasks.same.1]
        exact hs.unfinished hlive
      rcases step?_eq_some hstep with ⟨limit, -, rfl⟩ | ⟨script, -, hscript, rfl⟩
      · exact .of_unfinished hx (by simp [giveUp, Turn.session])
      · exact lawful_follow wf hlive' hx (.take _ _ hscript)
    | @drop m₀ ev s hlive hasks hsel =>
      have hdrop := e.undisturbed_drop s ev
      have hsame := (e.select?_spec hsel).1.trans hdrop.toSameStates
      refine .of_unfinished ?_ (hsame.status ▸ hasks.status hlive)
      refine (congrArg (·.isFinal e.chart root) (hsame.configuration.trans hasks.same.1)).trans ?_
      exact hs.unfinished hlive
    | @stable s hlive hsel _ _ =>
      obtain ⟨hconf, -, -, -, -, hstatus⟩ := awaiting_spec m s
      refine .of_unfinished ?_ (by simp [Turn.session, hstatus])
      have hsame := hconf.trans (e.select?_spec hsel).1.configuration
      exact (congrArg (·.isFinal e.chart root) hsame).trans (hs.unfinished hlive)
  · intro s _ hidle hs
    have hstops := stops_stop (e := e) hidle
    refine .of_unfinished ?_ (by simp [hstops.status])
    rw [hstops.configuration]
    exact hempty

/-! ### The contract -/

/-- What the status of a session says of it between two requests. -/
structure Poised (c : Chart) (s : Session σ) : Prop where
  status : s.status = .idle ∨ s.status = .awaitingExternal ∨ s.status = .final
  idle : s.status = .idle → s.configuration = StateSet.empty
  awaiting : s.status = .awaitingExternal → s.configuration.isFinal c root = false
  final : s.status = .final → s.configuration.isFinal c root = true ∧
    s.queues.internal = [] ∧ s.queues.external = []

theorem Reachable.poised (wf : e.chart.WellFormed) (h : Reachable e s) : Poised e.chart s := by
  have hlawful := (upholds_lawful wf).reachable h
  obtain ⟨hstatus, hempty, -⟩ := h.housed wf
  refine ⟨?_, hempty, fun hw => hlawful.unfinished (by simp [hw]), hlawful.finished⟩
  cases hs : s.status <;> simp_all

/-- Turns end well, or give up for want of an end. -/
theorem verdict_of_turns? {n : Nat} (h : e.turns? n m = some a) :
    a.verdict = .ok () ∨ ∃ limit, a.verdict = .error (.nonTerminating limit) := by
  obtain ⟨m', hlast⟩ := exists_turn_of_turns h
  cases comes_of_turn? hlast with
  | final => exact .inl rfl
  | step _ _ _ _ hstep =>
    rcases step?_eq_some hstep with ⟨limit, -, hgive⟩ | ⟨script, -, -, hnext⟩
    · cases hgive
      exact .inr ⟨limit, rfl⟩
    · cases hnext
  | stable => exact .inl rfl

/-- An idle session is started by the first entry and the turns after it. -/
theorem start?_of_idle {bound : Nat} (hs : s.status = .idle) (h : e.start? bound s = some a) :
    (∃ script, Script.start? e.chart = some script ∧
      e.run? bound (e.entered s script) true = some a) ∧
    (a.verdict = .ok () ∨ ∃ limit, a.verdict = .error (.nonTerminating limit)) := by
  simp only [start?_eq, if_pos hs] at h
  cases hscript : Script.start? e.chart with
  | none => simp [hscript] at h
  | some script =>
    simp only [hscript] at h
    refine ⟨⟨script, rfl, h⟩, ?_⟩
    unfold run? at h
    split at h
    · exact verdict_of_turns? h
    · obtain rfl := Option.some.inj h
      exact .inl rfl

/-- Between two requests a session is idle with nothing active, waits with a root that is not
complete, or is at its end with a complete root and no events waiting. It is started when it is idle
and stopped when it is not, and otherwise the request is refused and changes nothing; stopping exits
what is active, the last first, and forgets the events but not the history; and at its end a session
takes no notice of events. -/
theorem lifecycle (hb : d.build = .ok e.chart) :
    (∀ s, Reachable e s → Poised e.chart s) ∧
    ∀ s : Session σ,
      (s.status = .idle → e.stop s = ⟨.error .notRunning, s⟩ ∧
        ∀ bound a, e.start? bound s = some a →
          (∃ script, Script.start? e.chart = some script ∧
            e.run? bound (e.entered s script) true = some a) ∧
          (a.verdict = .ok () ∨ ∃ limit, a.verdict = .error (.nonTerminating limit))) ∧
      (s.status ≠ .idle → Stops e s (e.stop s) ∧
        ∀ bound, e.start? bound s = some ⟨.error .alreadyRunning, s⟩) ∧
      (s.status = .final → ∀ bound, e.process? bound s = some ⟨.ok (), s⟩ ∧
        ∀ ev, e.submit? bound s ev = some ⟨.ok (), s⟩) := by
  have wf := ChartDecl.wellFormed_of_build hb
  refine ⟨fun s hs => hs.poised wf, fun s => ⟨fun hidle => ?_, fun hidle => ?_, fun hfinal => ?_⟩⟩
  · exact ⟨by simp [stop, hidle], fun bound a h => start?_of_idle hidle h⟩
  · exact ⟨stops_stop hidle, fun bound => by simp [start?, hidle]⟩
  · have hrun : s.isRunning = false := by simp [Session.isRunning, hfinal, Status.isRunning]
    exact fun bound => ⟨by simp [process?, run?, hrun], fun ev => by simp [submit?, hfinal]⟩

end Engine

/-- A walk that ends at home. -/
def errand : ChartDecl where
  name := "Errand"
  states := [((StateDecl.plain "walk").withExit "rest").withTransition (.simple "arrive" "home"),
    .final "home"]

namespace Engine

/-- On the way the errand can be stopped, and at home it is over. -/
theorem errand_lived : errand.build = .ok errand.chart ∧ ∃ s s' : Session Unit,
    Reachable (bare errand.chart) s ∧ s.status = .awaitingExternal ∧
      s.configuration.isFinal errand.chart root = false ∧
      (bare errand.chart).start? 1 s = some ⟨.error .alreadyRunning, s⟩ ∧
      ((bare errand.chart).stop s).session.changes = s.changes ++ [⟨["walk"], [], none⟩] ∧
    Reachable (bare errand.chart) s' ∧ s'.status = .final ∧
      s'.configuration.isFinal errand.chart root = true ∧ s'.queues.internal = [] ∧
      (bare errand.chart).submit? 1 s' (.external "arrive") = some ⟨.ok (), s'⟩ := by
  let e := bare errand.chart
  have hb : errand.build = .ok errand.chart := ChartDecl.build_eq_chart (by decide +kernel)
  have lived (rs : List Request) (status : Status) (x : List Nat)
      (h : (rs.foldlM (fun s r => (e.serve? 9 s r).map (·.session)) { host := () }).map
        (fun s => (s.status, s.configuration.toList)) = some (status, x)) :
      ∃ s, Reachable e s ∧ s.status = status ∧ s.configuration.toList = x := by
    obtain ⟨s, hs, hresult⟩ := Option.map_eq_some_iff.mp h
    obtain ⟨hstatus, hx⟩ := Prod.mk.inj hresult
    exact ⟨s, (Reachable.fresh ()).served_all hs, hstatus, hx⟩
  obtain ⟨hpoised, hrequests⟩ := lifecycle (e := e) hb
  obtain ⟨s, hs, hwalks, hx⟩ := lived [.start] .awaitingExternal [1] (by decide +kernel)
  obtain ⟨s', hs', hover, -⟩ :=
    lived [.start, .submit (.external "arrive")] .final [2] (by decide +kernel)
  obtain ⟨hstops, hrefused⟩ := (hrequests s).2.1 (by simp [hwalks])
  have htold := hstops.changes
  have hname : e.chart.namesOf [1].reverse = ["walk"] := by decide +kernel
  rw [StateSet.isEmpty, hx, hname] at htold
  obtain ⟨hdone, hnone, -⟩ := (hpoised s' hs').final hover
  exact ⟨hb, s, s', hs, hwalks, (hpoised s hs).awaiting hwalks, hrefused 1, htold, hs', hover, hdone,
    hnone, ((hrequests s').2.2 hover 1).2 _⟩

end Engine

end Statechart

import Mathlib.Logic.Relation
import Statechart.Proofs.PureGuards
import Statechart.Proofs.Run

/-!
Run to completion. An event leaves its queue only when no transition is enabled without one, and an
external event only when no internal one waits. So a request that ends well, with the session
waiting for more, has left nothing to do.
-/
namespace Statechart

namespace Queues

variable {q r : Queues} {ev : Event}

theorem popInternal?_eq_some (h : q.popInternal? = some (ev, r)) :
    q.internal = ev :: r.internal ∧ r.external = q.external ∧ r.handOff = q.handOff := by
  unfold popInternal? at h
  split at h
  · simp at h
  · rename_i hq
    simp only [Option.some.injEq, Prod.mk.injEq] at h
    obtain ⟨rfl, rfl⟩ := h
    exact ⟨hq, rfl, rfl⟩

theorem popInternal?_eq_none (h : q.popInternal? = none) : q.internal = [] := by
  unfold popInternal? at h
  split at h
  · assumption
  · simp at h

theorem popExternal?_eq_some (h : q.popExternal? = some (ev, r)) :
    q.external = ev :: r.external ∧ r.internal = q.internal ∧ r.handOff = q.handOff := by
  unfold popExternal? at h
  split at h
  · simp at h
  · rename_i hq
    simp only [Option.some.injEq, Prod.mk.injEq] at h
    obtain ⟨rfl, rfl⟩ := h
    exact ⟨hq, rfl, rfl⟩

theorem popExternal?_eq_none (h : q.popExternal? = none) : q.external = [] := by
  unfold popExternal? at h
  split at h
  · assumption
  · simp at h

end Queues

namespace Engine

variable {σ : Type} {e : Engine σ} {m m₀ : Macrostep σ} {s s' : Session σ} {t : Turn σ} {a : Answer σ}
  {ev : Event}

/-- Asked without an event, no transition is selected. -/
def Settled (e : Engine σ) (s : Session σ) : Prop := ∃ s', e.select? s none = some ([], s')

theorem Settled.congr (pure : e.host.Pure) (h : Settled e s)
    (hc : s'.configuration = s.configuration) (hm : s'.memory = s.memory)
    (hh : s'.host = s.host) : Settled e s' := by
  obtain ⟨s₁, hs₁⟩ := h
  have heq := (select?_pure none pure s).1
  have heq' := (select?_pure none pure s').1
  rw [hc, hm, hh, ← heq, hs₁] at heq'
  obtain ⟨⟨ranks, s₂⟩, hs₂, hranks⟩ := Option.map_eq_some_iff.mp heq'
  exact ⟨s₂, by rw [hs₂, show ranks = [] from hranks]⟩

/-- The event is taken, and the other events are left waiting, when nothing goes before it: no
transition without an event, and no internal event before an external one. -/
structure Due (e : Engine σ) (s : Session σ) (ev : Event) (left : Queues) : Prop where
  settled : Settled e s
  first :
    s.queues.internal = ev :: left.internal ∧ left.external = s.queues.external ∧
        left.handOff = s.queues.handOff ∨
      s.queues.internal = [] ∧ left.internal = [] ∧
        s.queues.external ++ s.queues.handOff = ev :: left.external ∧ left.handOff = []

theorem Asks.due (h : Asks e m m₀ (some ev)) : Due e m.session ev m₀.session.queues ∧
    m₀.session.taken = m.session.taken ++ [ev] := by
  cases h with
  | @internal s _ queues hsel hpop =>
    obtain ⟨-, hquiet, -⟩ := e.select?_spec hsel
    have hu := hquiet rfl
    refine ⟨⟨⟨s, hsel⟩, .inl ?_⟩, ?_⟩
    · rw [← hu.queues]
      exact Queues.popInternal?_eq_some hpop
    · rw [Session.taken_record, show ({ s with queues } : Session σ).taken = s.taken from rfl,
        hu.taken]
      rfl
  | @external s _ queues hsel hpop hext =>
    obtain ⟨-, hquiet, -⟩ := e.select?_spec hsel
    have hu := hquiet rfl
    have hnone := Queues.popInternal?_eq_none hpop
    obtain ⟨hfirst, hinternal, hhandOff⟩ := Queues.popExternal?_eq_some hext
    obtain ⟨-, -, -, -, htaken, -⟩ := awaiting_spec m s
    refine ⟨⟨⟨s, hsel⟩, .inr ?_⟩, ?_⟩
    · rw [← hu.queues]
      exact ⟨hnone, hinternal.trans hnone, hfirst, hhandOff⟩
    · rw [Session.taken_record, ← hu.taken, ← htaken]
      rfl

theorem taken_step? {ranks : List Nat} {event : Option Event}
    (h : e.step? m ranks event = some t) : t.session.taken = m.session.taken := by
  rcases step?_eq_some h with ⟨limit, -, rfl⟩ | ⟨script, -, -, rfl⟩
  · exact (Session.undisturbed_notice _ _).taken
  · exact (e.followed_follow event m.session script).taken

/-- A turn takes no event, or one that is due. -/
theorem taken_turn? (h : e.turn? m = some t) : t.session.taken = m.session.taken ∨
    ∃ ev m₀, Asks e m m₀ (some ev) ∧ t.session.taken = m.session.taken ++ [ev] := by
  cases comes_of_turn? h with
  | final _ => exact .inl rfl
  | @step m₀ event _ _ _ _ hasks hsel _ hstep =>
    obtain ⟨hsame, -, -⟩ := e.select?_spec hsel
    have htaken := (taken_step? hstep).trans hsame.taken
    cases event with
    | none =>
      cases hasks with
      | eventless => exact .inl htaken
    | some ev =>
      exact .inr ⟨ev, m₀, hasks, htaken.trans hasks.due.2⟩
  | drop _ hasks hsel =>
    obtain ⟨hsame, -, -⟩ := e.select?_spec hsel
    refine .inr ⟨_, _, hasks, Eq.trans ?_ (hsame.taken.trans hasks.due.2)⟩
    simp only [Turn.session, Engine.drop]
    split
    · exact (Session.undisturbed_notice _ _).taken
    · rfl
  | stable _ hsel _ _ =>
    obtain ⟨hsame, -, -⟩ := e.select?_spec hsel
    obtain ⟨-, -, -, -, htaken, -⟩ := awaiting_spec m _
    exact .inl (htaken.trans hsame.taken)

theorem taken_turns? {n : Nat} (h : e.turns? n m = some a) :
    m.session.taken <+: a.session.taken := by
  have hone {m' : Macrostep σ} {t : Turn σ} (hm' : m.session.taken <+: m'.session.taken)
      (ht : e.turn? m' = some t) : m.session.taken <+: t.session.taken := by
    rcases taken_turn? ht with hsame | ⟨ev, -, -, htaken⟩
    · exact hsame ▸ hm'
    · exact htaken ▸ hm'.trans (List.prefix_append _ _)
  obtain ⟨m', hm', hlast⟩ := exists_last_turn
    (P := fun m' => m.session.taken <+: m'.session.taken) List.prefix_rfl
    (fun _ _ hm' ht => hone hm' ht) h
  exact hone hm' hlast

/-- The turns of a request lead from one macrostep to another. -/
def Passes (e : Engine σ) : Macrostep σ → Macrostep σ → Prop :=
  Relation.ReflTransGen fun m m' => e.turn? m = some (.next m')

/-- Every event taken in a run of turns was taken in one of them. -/
theorem exists_turn_of_taken {n : Nat} (h : e.turns? n m = some a) {i : Nat}
    (hi : a.session.taken[i]? = some ev) (hle : m.session.taken.length ≤ i) :
    ∃ m' m₀ t, Passes e m m' ∧ e.turn? m' = some t ∧ m'.session.taken.length = i ∧
      t.session.taken = m'.session.taken ++ [ev] ∧ Asks e m' m₀ (some ev) := by
  induction n generalizing m with
  | zero => simp [turns?] at h
  | succ n ih =>
    unfold turns? at h
    cases ht : e.turn? m with
    | none => simp [ht] at h
    | some t =>
      have hlast : t.session.taken <+: a.session.taken ∧
          ∀ m₁, t = .next m₁ → e.turns? n m₁ = some a := by
        cases t with
        | done a' =>
          simp only [ht, Option.some.injEq] at h
          exact ⟨h ▸ List.prefix_rfl, by simp⟩
        | next m₁ =>
          simp only [ht] at h
          exact ⟨taken_turns? h, fun m₂ hm₂ => Turn.next.inj hm₂ ▸ h⟩
      obtain ⟨hinit, hnext⟩ := hlast
      by_cases hlen : t.session.taken.length ≤ i
      · -- Later than this turn, so there is another one.
        cases t with
        | done a' =>
          simp only [ht, Option.some.injEq] at h
          have hlt := (List.getElem?_eq_some_iff.mp hi).1
          rw [← h] at hlt
          simp only [Turn.session] at hlen
          omega
        | next m₁ =>
          obtain ⟨m', m₀, t', hpass, hrest⟩ := ih (hnext m₁ rfl) hlen
          exact ⟨m', m₀, t', .head ht hpass, hrest⟩
      · rcases taken_turn? ht with hsame | ⟨ev', m₀, hasks, htaken⟩
        · rw [hsame] at hlen
          omega
        · have heq : i = m.session.taken.length := by
            rw [htaken, List.length_append, List.length_singleton] at hlen
            omega
          have hev : ev' = ev := by
            obtain ⟨rest, hrest⟩ := hinit
            rw [← hrest, htaken, heq] at hi
            simpa using hi
          exact ⟨m, m₀, t, .refl, ht, heq.symm, hev ▸ htaken, hev ▸ hasks⟩

/-- Nothing waits and nothing is enabled. -/
structure Done (e : Engine σ) (s : Session σ) : Prop where
  internal : s.queues.internal = []
  external : s.queues.external = []
  handOff : s.queues.handOff = []
  settled : Settled e s

/-- A turn that ends a request well, with the session waiting for more, leaves nothing to do. -/
theorem done_of_turn? (pure : e.host.Pure) (h : e.turn? m = some (.done a))
    (hok : a.verdict = .ok ()) (hstatus : a.session.status = .awaitingExternal) :
    Done e a.session := by
  cases comes_of_turn? h with
  | final hfinal => simp [hfinal] at hstatus
  | step _ _ _ _ hstep =>
    rcases step?_eq_some hstep with ⟨limit, -, hdone⟩ | ⟨script, -, -, hnext⟩
    · obtain rfl := Turn.done.inj hdone
      simp [giveUp] at hok
    · simp at hnext
  | @stable s hfinal hsel hpop hext =>
    obtain ⟨hsame, hquiet, -⟩ := e.select?_spec hsel
    obtain ⟨hc, hm, -, hh, -, -⟩ := awaiting_spec m s
    have hinternal : s.queues.internal = [] := Queues.popInternal?_eq_none hpop
    refine ⟨hinternal, Queues.popExternal?_eq_none hext, rfl, ?_⟩
    refine Settled.congr pure ⟨s, hsel⟩ (hc.trans hsame.configuration) (hm.trans hsame.memory) ?_
    exact hh.trans ((select?_pure none pure m.session).2 [] s hsel)

theorem done_of_turns? (pure : e.host.Pure) {n : Nat} (h : e.turns? n m = some a)
    (hok : a.verdict = .ok ()) (hstatus : a.session.status = .awaitingExternal) :
    Done e a.session := by
  obtain ⟨m', hlast⟩ := exists_turn_of_turns h
  exact done_of_turn? pure hlast hok hstatus

/-- Whether a request runs the session until nothing is left to do. -/
def Request.runs : Request → Bool
  | .start | .submit _ | .process => true
  | .stop | .send _ => false

/-- A running session is run in turns, another is left as it is. -/
theorem run?_cases {bound : Nat} {progressed : Bool} (h : e.run? bound s progressed = some a) :
    s.isRunning = true ∧ e.turns? bound (opening s progressed) = some a ∨
      a.session = s ∧ s.status ≠ .awaitingExternal := by
  unfold run? at h
  split at h
  · rename_i hrun
    exact .inl ⟨hrun, h⟩
  · rename_i hrun
    obtain rfl := Option.some.inj h
    refine .inr ⟨rfl, fun hw => hrun ?_⟩
    simp [Session.isRunning, Status.isRunning, hw]

/-- Before the first turn of a request no event is taken. -/
theorem Begins.taken {r : Request} (h : Begins e s r m) : m.session.taken = s.taken := by
  cases h with
  | @start script _ _ _ =>
    exact (e.followed_follow none
      { s with status := .stabilizing, configuration := StateSet.empty } script).taken
  | submit event _ => rfl
  | process _ => rfl

/-- A request is served by turns, or takes no event and leaves a session that is not waiting. -/
theorem serve?_cases {bound : Nat} {r : Request} (h : e.serve? bound s r = some a) :
    (∃ m, Begins e s r m ∧ e.turns? bound m = some a) ∨
      a.session.taken = s.taken ∧
        (Request.runs r = true → a.verdict = .ok () → a.session.status ≠ .awaitingExternal) := by
  cases r with
  | start =>
    simp only [serve?, start?_eq] at h
    split at h
    · rename_i hidle
      cases hscript : Script.start? e.chart with
      | none => simp [hscript] at h
      | some script =>
        simp only [hscript] at h
        have htaken : (e.entered s script).taken = s.taken :=
          (e.followed_follow none
            { s with status := .stabilizing, configuration := StateSet.empty } script).taken
        rcases run?_cases h with ⟨hrun, hturns⟩ | ⟨hsame, hstatus⟩
        · exact .inl ⟨_, .start hidle hscript hrun, hturns⟩
        · exact .inr ⟨hsame ▸ htaken, fun _ _ => hsame ▸ hstatus⟩
    · obtain rfl := Option.some.inj h
      exact .inr ⟨rfl, by simp⟩
  | stop =>
    obtain rfl := Option.some.inj h
    refine .inr ⟨?_, by simp [Request.runs]⟩
    by_cases hidle : s.status = .idle
    · simp [stop, hidle]
    · exact (e.followed_stop s hidle).taken
  | submit ev =>
    simp only [serve?, submit?] at h
    split at h
    · rename_i hfinal
      obtain rfl := Option.some.inj h
      exact .inr ⟨rfl, by simp [hfinal]⟩
    · rcases run?_cases h with ⟨hrun, hturns⟩ | ⟨hsame, hstatus⟩
      · exact .inl ⟨_, .submit ev hrun, hturns⟩
      · exact .inr ⟨hsame ▸ rfl, fun _ _ => hsame ▸ hstatus⟩
  | process =>
    simp only [serve?, process?] at h
    rcases run?_cases h with ⟨hrun, hturns⟩ | ⟨hsame, hstatus⟩
    · exact .inl ⟨_, .process hrun, hturns⟩
    · exact .inr ⟨hsame ▸ rfl, fun _ _ => hsame ▸ hstatus⟩
  | send ev =>
    obtain rfl := Option.some.inj h
    exact .inr ⟨rfl, by simp [Request.runs]⟩

/-- A turn takes no event, or one that is due, whether its request comes to an end or not. -/
theorem due_of_turn? (h : e.turn? m = some t) : t.session.taken = m.session.taken ∨
    ∃ ev m₀, Asks e m m₀ (some ev) ∧ Due e m.session ev m₀.session.queues ∧
      t.session.taken = m.session.taken ++ [ev] :=
  (taken_turn? h).imp_right fun ⟨ev, m₀, hasks, htaken⟩ => ⟨ev, m₀, hasks, hasks.due.1, htaken⟩

/-- Run to completion: whenever the transitions are asked about an event it is due, in a turn that
has an outcome as in one that has none; no other event is taken, in a turn or by what comes before
the first one; and so each event taken while a request is served was due in its turn. A request that
ends well, with the session waiting for more, leaves nothing to do. -/
theorem run_to_completion (e : Engine σ) (pure : e.host.Pure) :
    (∀ m m₀ ev, Asks e m m₀ (some ev) → Due e m.session ev m₀.session.queues ∧
      m₀.session.taken = m.session.taken ++ [ev]) ∧
    (∀ m t, e.turn? m = some t → t.session.taken = m.session.taken ∨
      ∃ ev m₀, Asks e m m₀ (some ev) ∧ Due e m.session ev m₀.session.queues ∧
        t.session.taken = m.session.taken ++ [ev]) ∧
    (∀ s r m, Begins e s r m → m.session.taken = s.taken) ∧
    ∀ (s : Session σ) (r : Request) (bound : Nat) (a : Answer σ), e.serve? bound s r = some a →
      (∀ i ev, a.session.taken[i]? = some ev → s.taken.length ≤ i →
        ∃ m m' m₀ t, Begins e s r m ∧ Passes e m m' ∧ e.turn? m' = some t ∧
          m'.session.taken.length = i ∧ t.session.taken = m'.session.taken ++ [ev] ∧
          Asks e m' m₀ (some ev) ∧ Due e m'.session ev m₀.session.queues) ∧
      (Request.runs r = true → a.verdict = .ok () → a.session.status = .awaitingExternal →
        Done e a.session) := by
  refine ⟨fun m m₀ ev hasks => hasks.due, fun m t ht => due_of_turn? ht,
    fun s r m hbegins => hbegins.taken, fun s r bound a h => ?_⟩
  rcases serve?_cases h with ⟨m, hbegins, hturns⟩ | ⟨htaken, hnot⟩
  · refine ⟨fun i ev hi hle => ?_, fun _ => done_of_turns? pure hturns⟩
    obtain ⟨m', m₀, t, hpass, hturn, hlen, hev, hasks⟩ :=
      exists_turn_of_taken hturns hi (hbegins.taken ▸ hle)
    exact ⟨m, m', m₀, t, hbegins, hpass, hturn, hlen, hev, hasks, hasks.due.1⟩
  · refine ⟨fun i ev hi hle => ?_, fun hruns hok hstatus => absurd hstatus (hnot hruns hok)⟩
    have hlt := (List.getElem?_eq_some_iff.mp hi).1
    rw [htaken] at hlt
    omega

/-- A change of the lights is taken when it is due, and leaves nothing to do. -/
theorem crossing_completes : (bare crossing.chart).host.Pure ∧
    ∃ s a, (bare crossing.chart).serve? 3 s (.submit (.external "change")) = some a ∧
      a.session.configuration.toList = [1, 2, 4, 5, 7] ∧ Done (bare crossing.chart) a.session ∧
      ∃ ev m m₀, ev.name = "change" ∧ Asks (bare crossing.chart) m m₀ (some ev) ∧
        Due (bare crossing.chart) m.session ev m₀.session.queues := by
  have pure : (bare crossing.chart).host.Pure := Host.pure_ofTables {} {}
  let s : Session Unit := { host := (), status := .awaitingExternal,
                            configuration := StateSet.ofList [1, 2, 3, 5, 6] }
  have hrun : ((bare crossing.chart).serve? 3 s (.submit (.external "change"))).map (fun a =>
      (a.session.configuration.toList, a.session.status, a.session.taken.map (·.name),
        a.verdict.isOk)) = some ([1, 2, 4, 5, 7], .awaitingExternal, ["change"], true) := by
    decide +kernel
  obtain ⟨a, ha, hresult⟩ := Option.map_eq_some_iff.mp hrun
  simp only [Prod.mk.injEq] at hresult
  obtain ⟨hconf, hstatus, htaken, hok⟩ := hresult
  obtain ⟨ev, hev, hname⟩ : ∃ ev, a.session.taken[0]? = some ev ∧ ev.name = "change" := by
    obtain ⟨ev, evs, hevs, hname, -⟩ := List.map_eq_cons_iff.mp htaken
    exact ⟨ev, by simp [hevs], hname⟩
  have hverdict : a.verdict = .ok () := by
    cases hv : a.verdict with
    | ok u => rfl
    | error err => simp [hv, Except.isOk, Except.toBool] at hok
  obtain ⟨-, -, -, hserved⟩ := run_to_completion (bare crossing.chart) pure
  obtain ⟨hdue, hdone⟩ := hserved s _ 3 a ha
  obtain ⟨m, m', m₀, t, -, -, -, -, -, hasks, hfirst⟩ := hdue 0 ev hev (Nat.zero_le _)
  exact ⟨pure, s, a, ha, hconf, hdone rfl hverdict hstatus, ev, m', m₀, hname, hasks, hfirst⟩

end Engine

end Statechart

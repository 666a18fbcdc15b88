import Statechart.Proofs.Accounts

/-!
The moves of a session. Whoever drives a session submits events to it and sends it others; its
actions send events, and so does anybody else who holds a sender, a guard or an observer among them,
whenever they like. So a run is made of small moves, and between any two of them somebody may send.
Whatever is asked of a session is such a run.
-/
namespace Statechart

open Relation (ReflTransGen)

/-- A microstep that is being made, and the number of microsteps of its macrostep; the first entry
has none. -/
structure Job where
  script : Script
  event : Option Event
  microsteps : Option Nat

/-- What a session is in the middle of. -/
inductive Place where
  | resting
  /-- The hand-off is yet to be drained before the first turn. -/
  | opening (progressed : Bool)
  /-- Between two turns. -/
  | turning (microsteps : Nat) (progressed : Bool)
  /-- No transition is enabled without an event. -/
  | calm (microsteps : Nat) (progressed : Bool)
  /-- The configuration is stable, and the hand-off is yet to be drained. -/
  | stable
  /-- The event has been taken. -/
  | asking (microsteps : Nat) (event : Event)
  /-- The transitions have been selected. -/
  | chosen (microsteps : Nat) (event : Option Event) (ranks : List Nat)
  /-- Between two commands, or amid an action that has the pending events yet to send. -/
  | acting (job : Job) (faults : List Fault) (pending : List Event) (left : List Command)
  /-- Between two reports of faults. -/
  | reporting (job : Job) (left : List Fault)

/-- Between two turns or two requests, where a chart may have come to its end. -/
def Place.isBetween : Place → Bool
  | resting | turning _ _ => true
  | _ => false

variable {σ : Type}

def Turn.place : Turn σ → Place
  | .next m => .turning m.microsteps m.progressed
  | .done _ => .resting

namespace Engine

variable {e : Engine σ} {s₀ s s' : Session σ} {m m₀ : Macrostep σ} {t : Turn σ} {a : Answer σ}
  {r : Request} {event : Option Event} {ev : Event} {ranks : List Nat} {job : Job}
  {k new : Routes} {p : Place}

/-- The events that an action sends. -/
def sends (e : Engine σ) (event : Option Event) (s : Session σ) (call : Call) : List Event :=
  (e.host.action call.action (e.context s event) s.host).sent

/-- The session when an action has run, but for the events that it sends. -/
def called (e : Engine σ) (event : Option Event) (s : Session σ) (call : Call) : Session σ :=
  let r := e.host.action call.action (e.context s event) s.host
  { s with host := r.state, queues := r.raised.foldl Queues.raise s.queues }.record
    (.acted call event s.configuration r.fault)

/-- The session when the faults of a microstep have been reported and the microstep is over. -/
def conclude (e : Engine σ) (job : Job) (s : Session σ) : Session σ :=
  let s := e.noticeChange s job.script.exited job.script.entered job.event
  if job.script.finished then finish s else s

/-- One move of a session that is not stopped, and what comes in with it. -/
inductive Moves (e : Engine σ) : Place → Session σ → Routes → Place → Session σ → Prop
  /-- Somebody sends. -/
  | overtaken {p : Place} {s : Session σ} (event : Event) :
      Moves e p s { sent := [event.withOrigin .external] } p (s.send event)
  | enter {s : Session σ} {script : Script} : s.status = .idle →
      Script.start? e.chart = some script →
      Moves e .resting s {} (.acting ⟨script, none, none⟩ [] [] script.commands)
        { s with
          status := .stabilizing, configuration := StateSet.empty, memory := script.memory }
  /-- An idle session keeps the event for later. -/
  | keep {s : Session σ} (event : Event) : s.status = .idle →
      Moves e .resting s { direct := (Request.submit event).direct } .resting
        { s with queues := s.queues.push event }
  /-- A chart that has come to its end takes no more events. -/
  | refuse {s : Session σ} (event : Event) : s.status = .final →
      Moves e .resting s { direct := (Request.submit event).direct } .resting s
  | submit {s : Session σ} (event : Event) : s.isRunning = true →
      Moves e .resting s { direct := (Request.submit event).direct } (.opening false)
        { s with queues := s.queues.push event }
  | process {s : Session σ} : s.isRunning = true → Moves e .resting s {} (.opening false) s
  | drain {s : Session σ} {progressed : Bool} :
      Moves e (.opening progressed) s {} (.turning 0 progressed) (opening s progressed).session
  | finish {s : Session σ} {n : Nat} {progressed : Bool} : s.status = .final →
      Moves e (.turning n progressed) s {} .resting s
  | choose {s s' : Session σ} {n : Nat} {progressed : Bool} {ranks : List Nat} :
      s.status ≠ .final → e.select? s none = some (ranks, s') → ranks ≠ [] →
      Moves e (.turning n progressed) s {} (.chosen n none ranks) s'
  | settle {s s' : Session σ} {n : Nat} {progressed : Bool} :
      s.status ≠ .final → e.select? s none = some ([], s') →
      Moves e (.turning n progressed) s {} (.calm n progressed) s'
  | takeInternal {s : Session σ} {n : Nat} {progressed : Bool} {ev : Event} {queues : Queues} :
      s.queues.popInternal? = some (ev, queues) →
      Moves e (.calm n progressed) s {} (.asking n ev) ({ s with queues }.record (.taken ev))
  | stabilize {s : Session σ} {n : Nat} {progressed : Bool} : s.queues.popInternal? = none →
      Moves e (.calm n progressed) s {} .stable (awaiting ⟨s, n, progressed⟩ s)
  | takeExternal {s : Session σ} {ev : Event} {queues : Queues} :
      s.queues.drain.popExternal? = some (ev, queues) →
      Moves e .stable s {} (.asking 0 ev)
        ({ s with queues, status := .stabilizing }.record (.taken ev))
  | rest {s : Session σ} : s.queues.drain.popExternal? = none →
      Moves e .stable s {} .resting { s with queues := s.queues.drain }
  | drop {s s' : Session σ} {n : Nat} {ev : Event} : e.select? s (some ev) = some ([], s') →
      Moves e (.asking n ev) s {} (.turning n true) (e.drop s' ev)
  | answer {s s' : Session σ} {n : Nat} {ev : Event} {ranks : List Nat} :
      e.select? s (some ev) = some (ranks, s') → ranks ≠ [] →
      Moves e (.asking n ev) s {} (.chosen n (some ev) ranks) s'
  | exceed {s : Session σ} {n limit : Nat} {event : Option Event} {ranks : List Nat} :
      e.settings.exceeded? (n + 1) = some limit →
      Moves e (.chosen n event ranks) s {} .resting (giveUp s limit).session
  | take {s : Session σ} {n : Nat} {event : Option Event} {ranks : List Nat} {script : Script} :
      e.settings.exceeded? (n + 1) = none →
      Script.take? e.chart s.configuration s.memory (ranks.map e.chart.transition) = some script →
      Moves e (.chosen n event ranks) s {}
        (.acting ⟨script, event, some (n + 1)⟩ [] [] script.commands)
        { s with memory := script.memory }
  /-- An action runs, and has its events to send. -/
  | call {s : Session σ} {job : Job} {faults : List Fault} {call : Call} {left : List Command} :
      Moves e (.acting job faults [] (.call call :: left)) s {}
        (.acting job (e.perform job.event (s, faults) (.call call)).2
          (e.sends job.event s call) left)
        (e.called job.event s call)
  | send {s : Session σ} {job : Job} {faults : List Fault} {ev : Event} {pending : List Event}
      {left : List Command} :
      Moves e (.acting job faults (ev :: pending) left) s { sent := [ev.withOrigin .external] }
        (.acting job faults pending left) (s.send ev)
  | command {s : Session σ} {job : Job} {faults : List Fault} {cmd : Command}
      {left : List Command} : (∀ call, cmd ≠ .call call) →
      Moves e (.acting job faults [] (cmd :: left)) s {} (.acting job faults [] left)
        (e.perform job.event (s, faults) cmd).1
  | acted {s : Session σ} {job : Job} {faults : List Fault} :
      Moves e (.acting job faults [] []) s {} (.reporting job faults) s
  | report {s : Session σ} {job : Job} {f : Fault} {left : List Fault} :
      Moves e (.reporting job (f :: left)) s {} (.reporting job left) (e.report true s f)
  | conclude {s : Session σ} {job : Job} {n : Nat} : job.microsteps = some n →
      Moves e (.reporting job []) s {} (.turning n true) (e.conclude job s)
  | entered {s : Session σ} {job : Job} : job.microsteps = none →
      (e.conclude job s).isRunning = true →
      Moves e (.reporting job []) s {} (.opening true) (e.conclude job s)
  | ended {s : Session σ} {job : Job} : job.microsteps = none →
      ¬(e.conclude job s).isRunning = true →
      Moves e (.reporting job []) s {} .resting (e.conclude job s)

/-- The run from `s₀`, and what has come in. -/
inductive Runs (e : Engine σ) (s₀ : Session σ) : Place → Session σ → Routes → Prop
  | beginning : Runs e s₀ .resting s₀ {}
  | move {p p' : Place} {s s' : Session σ} {k new : Routes} :
      Runs e s₀ p s k → Moves e p s new p' s' → Runs e s₀ p' s' (k ++ new)

/-- Amid a selection guards are judged, faults are reported, and anybody may send. -/
inductive Amid (e : Engine σ) (event : Option Event) (s : Session σ) : Session σ → Routes → Prop
  | start : Amid e event s s {}
  | judged {s' : Session σ} {new : Routes} (source : Nat) (g : Option GuardId)
      (faults : List Fault) : Amid e event s s' new →
      Amid e event s (e.judge event source (s', faults) g).2.1 new
  | reported {s' : Session σ} {new : Routes} (raise : Bool) (f : Fault) :
      Amid e event s s' new → Amid e event s (e.report raise s' f) new
  | sent {s' : Session σ} {new : Routes} (ev : Event) : Amid e event s s' new →
      Amid e event s (s'.send ev) (new ++ { sent := [ev.withOrigin .external] })

/-- The points of the run from `s₀`: between two moves, and amid its selections. -/
inductive Point (e : Engine σ) (s₀ : Session σ) : Session σ → Routes → Prop
  | between {p : Place} {s : Session σ} {k : Routes} : Runs e s₀ p s k → Point e s₀ s k
  | amid {p : Place} {s s' : Session σ} {k new : Routes} (event : Option Event) :
      Runs e s₀ p s k → Amid e event s s' new → Point e s₀ s' (k ++ new)

/-! ### Microsteps -/

/-- One move, with which nothing is submitted. -/
def Advances (e : Engine σ) (x y : Place × Session σ) : Prop :=
  ∃ sent, Moves e x.1 x.2 { sent } y.1 y.2

theorem Moves.advances {p p' : Place} {s s' : Session σ} {sent : List Event}
    (h : Moves e p s { sent } p' s') : ReflTransGen (Advances e) (p, s) (p', s') :=
  .single ⟨sent, h⟩

theorem advances_sends (job : Job) (faults : List Fault) (left : List Command)
    (pending : List Event) (s : Session σ) :
    ReflTransGen (Advances e) (.acting job faults pending left, s)
      (.acting job faults [] left, pending.foldl Session.send s) := by
  induction pending generalizing s with
  | nil => exact .refl
  | cons ev pending ih =>
    have hsend : Moves e (.acting job faults (ev :: pending) left) s _ _ (s.send ev) := .send
    exact hsend.advances.trans (ih (s.send ev))

/-- An action that has run and sent its events has been performed. -/
theorem foldl_send_called (e : Engine σ) (event : Option Event) (w : Session σ × List Fault)
    (call : Call) : (e.sends event w.1 call).foldl Session.send (e.called event w.1 call) =
      (e.perform event w (.call call)).1 := by
  have hsend (evs : List Event) (s : Session σ) :
      evs.foldl Session.send s = { s with queues := evs.foldl Queues.send s.queues } := by
    induction evs generalizing s with
    | nil => rfl
    | cons ev evs ih => exact ih (s.send ev)
  exact hsend _ _

theorem advances_perform (job : Job) (w : Session σ × List Fault) (cmd : Command)
    (left : List Command) :
    ReflTransGen (Advances e) (.acting job w.2 [] (cmd :: left), w.1)
      (.acting job (e.perform job.event w cmd).2 [] left, (e.perform job.event w cmd).1) := by
  cases cmd with
  | call call =>
    rw [← foldl_send_called]
    exact Moves.call.advances.trans (advances_sends job _ left _ _)
  | leave state => exact (Moves.command (by simp)).advances
  | occupy state => exact (Moves.command (by simp)).advances
  | announce state => exact (Moves.command (by simp)).advances

theorem advances_performAll (job : Job) (cmds : List Command) (w : Session σ × List Fault) :
    ReflTransGen (Advances e) (.acting job w.2 [] cmds, w.1)
      (.acting job (cmds.foldl (e.perform job.event) w).2 [] [],
        (cmds.foldl (e.perform job.event) w).1) := by
  induction cmds generalizing w with
  | nil => exact .refl
  | cons cmd cmds ih =>
    exact (advances_perform job w cmd cmds).trans (ih (e.perform job.event w cmd))

theorem advances_reportAll (job : Job) (fs : List Fault) (s : Session σ) :
    ReflTransGen (Advances e) (.reporting job fs, s)
      (.reporting job [], e.reportAll true s fs) := by
  induction fs generalizing s with
  | nil => exact .refl
  | cons f fs ih => exact Moves.report.advances.trans (ih (e.report true s f))

/-- The moves of a microstep come to the session that follows. -/
theorem exists_concluded (e : Engine σ) (job : Job) (s : Session σ) :
    ∃ s', e.follow s job.script job.event = e.conclude job s' ∧
      ReflTransGen (Advances e)
        (.acting job [] [] job.script.commands, { s with memory := job.script.memory })
        (.reporting job [], s') := by
  have hacting := advances_performAll (e := e) job job.script.commands
    ({ s with memory := job.script.memory }, [])
  exact ⟨_, rfl, (hacting.trans Moves.acted.advances).trans (advances_reportAll job _ _)⟩

/-! ### Turns -/

theorem Asks.progressed (h : Asks e m m₀ (some ev)) : m₀.progressed = true := by
  cases h <;> rfl

theorem Asks.advances (hrun : m.session.status ≠ .final) (h : Asks e m m₀ (some ev)) :
    ReflTransGen (Advances e) (.turning m.microsteps m.progressed, m.session)
      (.asking m₀.microsteps ev, m₀.session) := by
  cases h with
  | internal hsel hpop =>
    exact (Moves.settle hrun hsel).advances.trans (Moves.takeInternal hpop).advances
  | @external s _ queues hsel hpop hext =>
    have hcalm : Moves e (.turning m.microsteps m.progressed) m.session {} _ s :=
      .settle hrun hsel
    have hext' : (awaiting m s).queues.drain.popExternal? = some (ev, queues) := by
      rw [(awaiting_spec m s).2.2.1, hext]
    exact (hcalm.advances.trans (Moves.stabilize hpop).advances).trans
      (Moves.takeExternal hext').advances

/-- A selection that is not empty is the beginning of a microstep. -/
theorem Asks.advances_chosen (hrun : m.session.status ≠ .final) (hasks : Asks e m m₀ event)
    (hsel : e.select? m₀.session event = some (ranks, s)) (hne : ranks ≠ []) :
    ReflTransGen (Advances e) (.turning m.microsteps m.progressed, m.session)
      (.chosen m₀.microsteps event ranks, s) := by
  cases event with
  | some ev => exact (hasks.advances hrun).trans (Moves.answer hsel hne).advances
  | none =>
    cases hasks
    exact (Moves.choose hrun hsel hne).advances

theorem advances_turn (h : e.turn? m = some t) :
    ReflTransGen (Advances e) (.turning m.microsteps m.progressed, m.session)
      (t.place, t.session) := by
  cases comes_of_turn? h with
  | final hfinal => exact (Moves.finish hfinal).advances
  | @step m₀ event ranks s _ hrun hasks hsel hne hstep =>
    have hchosen := hasks.advances_chosen hrun hsel hne
    rcases step?_eq_some hstep with ⟨limit, hlimit, rfl⟩ | ⟨script, hlimit, hscript, rfl⟩
    · exact hchosen.trans (Moves.exceed hlimit).advances
    · obtain ⟨s', hs', hmade⟩ := exists_concluded e ⟨script, event, some (m₀.microsteps + 1)⟩ s
      refine ((hchosen.trans (Moves.take hlimit hscript).advances).trans hmade).trans ?_
      rw [Turn.session, hs']
      exact (Moves.conclude rfl).advances
  | @drop m₀ ev s hrun hasks hsel =>
    have hdrop := (hasks.advances hrun).trans (Moves.drop hsel).advances
    rwa [← hasks.progressed] at hdrop
  | @stable s hrun hsel hpop hext =>
    have hcalm : Moves e (.turning m.microsteps m.progressed) m.session {} _ s :=
      .settle hrun hsel
    have hqueues := (awaiting_spec m s).2.2.1
    have hrest : Moves e .stable (awaiting m s) {} .resting _ := .rest (by rw [hqueues, hext])
    rw [hqueues] at hrest
    exact (hcalm.advances.trans (Moves.stabilize hpop).advances).trans hrest.advances

theorem advances_turns {n : Nat} (h : e.turns? n m = some a) :
    ReflTransGen (Advances e) (.turning m.microsteps m.progressed, m.session)
      (.resting, a.session) := by
  obtain ⟨m', hm', hlast⟩ := exists_last_turn
    (P := fun m' => ReflTransGen (Advances e) (.turning m.microsteps m.progressed, m.session)
      (.turning m'.microsteps m'.progressed, m'.session))
    .refl (fun _ _ hm' hturn => hm'.trans (advances_turn hturn)) h
  exact hm'.trans (advances_turn hlast)

/-! ### Requests -/

theorem advances_run {bound : Nat} {progressed : Bool} (hrun : s.isRunning = true)
    (h : e.run? bound s progressed = some a) :
    ReflTransGen (Advances e) (.opening progressed, s) (.resting, a.session) := by
  rw [run?, if_pos hrun] at h
  exact Moves.drain.advances.trans (advances_turns h)

theorem advances_start {bound : Nat} (h : e.start? bound s = some a) :
    ReflTransGen (Advances e) (.resting, s) (.resting, a.session) := by
  rw [start?_eq] at h
  split at h
  · rename_i hidle
    split at h
    · simp at h
    · rename_i script hscript
      obtain ⟨s', hs', hmade⟩ := exists_concluded e ⟨script, none, none⟩
        { s with status := .stabilizing, configuration := StateSet.empty }
      have hentered := (Moves.enter hidle hscript).advances.trans hmade
      simp only [hs'] at h
      by_cases hrun : (e.conclude ⟨script, none, none⟩ s').isRunning = true
      · exact (hentered.trans (Moves.entered rfl hrun).advances).trans (advances_run hrun h)
      · obtain rfl := Option.some.inj ((run?_of_not_running hrun).symm.trans h)
        exact hentered.trans (Moves.ended rfl hrun).advances
  · obtain rfl := Option.some.inj h
    exact .refl

/-- The run goes on. -/
theorem Runs.advance {x y : Place × Session σ} (h : Runs e s₀ x.1 x.2 k)
    (hxy : ReflTransGen (Advances e) x y) : ∃ sent, Runs e s₀ y.1 y.2 (k ++ { sent }) := by
  induction hxy with
  | refl => exact ⟨[], k.append_empty.symm ▸ h⟩
  | tail _ hmove ih =>
    obtain ⟨first, hfirst⟩ := ih
    obtain ⟨later, hlater⟩ := hmove
    exact ⟨first ++ later, k.append_sent_append first later ▸ hfirst.move hlater⟩

/-- A submitted event is kept, refused, or taken into a run. -/
theorem Runs.exists_submitted (h : Runs e s₀ .resting s k) {bound : Nat}
    (ha : e.submit? bound s ev = some a) :
    ∃ sent, Runs e s₀ .resting a.session
      (k ++ { direct := (Request.submit ev).direct, sent }) := by
  unfold submit? at ha
  split at ha
  · rename_i hfinal
    obtain rfl := Option.some.inj ha
    exact ⟨[], h.move (.refuse ev hfinal)⟩
  · rename_i hlive
    by_cases hrun : ({ s with queues := s.queues.push ev } : Session σ).isRunning = true
    · have hopening := h.move (.submit ev hrun)
      obtain ⟨sent, hrest⟩ := hopening.advance (advances_run hrun ha)
      rw [Routes.append_assoc, Routes.direct_append_sent] at hrest
      exact ⟨sent, hrest⟩
    · have hidle : s.status = .idle := by
        cases hs : s.status <;> simp_all [Session.isRunning, Status.isRunning]
      obtain rfl := Option.some.inj ((run?_of_not_running hrun).symm.trans ha)
      exact ⟨[], h.move (.keep ev hidle)⟩

/-- Whatever is asked of the session, other than to stop, goes on with the run, and brings in what
is submitted with it and what is sent on the way. -/
theorem Runs.exists_served (h : Runs e s₀ .resting s k) (hr : r ≠ .stop) {bound : Nat}
    (ha : e.serve? bound s r = some a) :
    ∃ sent, Runs e s₀ .resting a.session (k ++ { direct := r.direct, sent }) := by
  cases r with
  | start => exact h.advance (x := (.resting, s)) (advances_start ha)
  | stop => exact absurd rfl hr
  | submit event => exact h.exists_submitted ha
  | process =>
    by_cases hrun : s.isRunning = true
    · exact h.advance (x := (.resting, s))
        ((Moves.process hrun).advances.trans (advances_run hrun ha))
    · obtain rfl := Option.some.inj ((run?_of_not_running hrun).symm.trans ha)
      exact ⟨[], k.append_empty.symm ▸ h⟩
  | send event =>
    obtain rfl := Option.some.inj ha
    exact ⟨_, h.move (.overtaken event)⟩

theorem Runs.exists_served_all (h : Runs e s₀ .resting s k) {bound : Nat} {rs : List Request}
    (hstop : .stop ∉ rs)
    (hserved : rs.foldlM (fun s r => (e.serve? bound s r).map (·.session)) s = some s') :
    ∃ sent, Runs e s₀ .resting s' (k ++ { direct := rs.flatMap Request.direct, sent }) := by
  induction rs generalizing s k with
  | nil =>
    obtain rfl := Option.some.inj hserved
    exact ⟨[], k.append_empty.symm ▸ h⟩
  | cons r rs ih =>
    rw [List.mem_cons, not_or] at hstop
    obtain ⟨s₁, hs₁, hrest⟩ := Option.bind_eq_some_iff.mp hserved
    obtain ⟨a, ha, rfl⟩ := Option.map_eq_some_iff.mp hs₁
    obtain ⟨first, hfirst⟩ := h.exists_served (Ne.symm hstop.1) ha
    obtain ⟨later, hlast⟩ := ih hfirst hstop.2 hrest
    rw [Routes.append_assoc] at hlast
    exact ⟨first ++ later, hlast⟩

end Engine

end Statechart

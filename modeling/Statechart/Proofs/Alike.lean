import Statechart.Proofs.Run

/-!
Interpreters that run alike. Two interpreters of one chart, with the same switches and with hosts
that answer alike, do the same in every selection and in every microstep. What stands in the trace
already makes no difference to either, nor do the external events that wait.
-/
namespace Statechart

variable {σ : Type}

namespace Session

/-- The session with an older trace before its own. -/
def after (s : Session σ) (past : Array Occurrence) : Session σ :=
  { s with trace := past ++ s.trace }

/-- The session with an older trace before its own, and with more external events behind those that
wait. -/
def amid (s : Session σ) (past : Array Occurrence) (rest : List Event) : Session σ :=
  { s with trace := past ++ s.trace
           queues := { s.queues with external := s.queues.external ++ rest } }

variable (s : Session σ) (past : Array Occurrence) (rest : List Event)

@[simp] theorem status_after : (s.after past).status = s.status := rfl
@[simp] theorem configuration_after : (s.after past).configuration = s.configuration := rfl
@[simp] theorem memory_after : (s.after past).memory = s.memory := rfl
@[simp] theorem queues_after : (s.after past).queues = s.queues := rfl
@[simp] theorem host_after : (s.after past).host = s.host := rfl

@[simp] theorem isRunning_after : (s.after past).isRunning = s.isRunning := rfl

@[simp] theorem after_empty : s.after #[] = s := by simp [after]

@[simp] theorem status_amid : (s.amid past rest).status = s.status := rfl
@[simp] theorem configuration_amid : (s.amid past rest).configuration = s.configuration := rfl
@[simp] theorem memory_amid : (s.amid past rest).memory = s.memory := rfl
@[simp] theorem host_amid : (s.amid past rest).host = s.host := rfl

@[simp] theorem amid_nil : s.amid past [] = s.after past := by simp [amid, after]

theorem record_amid (o : Occurrence) :
    (s.amid past rest).record o = (s.record o).amid past rest := by
  simp [record, amid, Array.push_append]

theorem notice_amid (n : Notification) :
    (s.amid past rest).notice n = (s.notice n).amid past rest :=
  record_amid s past rest _

theorem record_after (o : Occurrence) : (s.after past).record o = (s.record o).after past := by
  simp [record, after, Array.push_append]

theorem notice_after (n : Notification) : (s.after past).notice n = (s.notice n).after past :=
  record_after s past _

/-- What is put around a session makes no difference to the guards, and what the chart raises and
records goes on in its place. -/
structure Surrounds (f : Session σ → Session σ) : Prop where
  configuration : ∀ s, (f s).configuration = s.configuration
  memory : ∀ s, (f s).memory = s.memory
  host : ∀ s, (f s).host = s.host
  record : ∀ s o, (f s).record o = f (s.record o)
  withHost : ∀ s host, ({ f s with host } : Session σ) = f { s with host }
  push : ∀ s ev, ev.origin = .internal →
    ({ f s with queues := (f s).queues.push ev } : Session σ) =
      f { s with queues := s.queues.push ev }

theorem surrounds_amid : Surrounds fun s : Session σ => s.amid past rest where
  configuration _ := rfl
  memory _ := rfl
  host _ := rfl
  record s := s.record_amid past rest
  withHost _ _ := rfl
  push s ev hev := by simp [amid, Queues.push, hev]

theorem surrounds_send (ev : Event) : Surrounds fun s : Session σ => s.send ev where
  configuration _ := rfl
  memory _ := rfl
  host _ := rfl
  record _ _ := rfl
  withHost _ _ := rfl
  push s ev' hev' := by simp [send, Queues.send, Queues.push, hev']

end Session

/-- What was found on the way, with more around the session. -/
def foundAmid {α β : Type} (f : Session σ → Session σ) (r : α × Session σ × β) :
    α × Session σ × β :=
  (r.1, f r.2.1, r.2.2)

def Macrostep.after (m : Macrostep σ) (past : Array Occurrence) : Macrostep σ :=
  { m with session := m.session.after past }

def Answer.after (a : Answer σ) (past : Array Occurrence) : Answer σ :=
  { a with session := a.session.after past }

def Turn.after (past : Array Occurrence) : Turn σ → Turn σ
  | .next m => .next (m.after past)
  | .done a => .done (a.after past)

namespace Engine

/-- The interpreters have one chart and the same switches, the limit of microsteps apart, and their
hosts, each told the session of its own interpreter, answer alike. -/
structure Alike (e e' : Engine σ) : Prop where
  chart : e'.chart = e.chart
  raiseErrorEvents : e'.settings.raiseErrorEvents = e.settings.raiseErrorEvents
  reportDroppedEvents : e'.settings.reportDroppedEvents = e.settings.reportDroppedEvents
  guard : ∀ g x event host, e'.host.guard g ⟨e.chart, x, event, e'.id⟩ host =
    e.host.guard g ⟨e.chart, x, event, e.id⟩ host
  action : ∀ a x event host, e'.host.action a ⟨e.chart, x, event, e'.id⟩ host =
    e.host.action a ⟨e.chart, x, event, e.id⟩ host

namespace Alike

variable {e e' : Engine σ} (alike : e.Alike e') (past : Array Occurrence) (rest : List Event)
  (event : Option Event) (s : Session σ) (fs : List Fault)

theorem refl (e : Engine σ) : e.Alike e :=
  ⟨rfl, rfl, rfl, fun _ _ _ _ => rfl, fun _ _ _ _ => rfl⟩

include alike

/-! ### Selections -/

section Selections

variable {f : Session σ → Session σ} (around : Session.Surrounds f)
include around

theorem report (raise : Bool) (fault : Fault) :
    e'.report raise (f s) fault = f (e.report raise s fault) := by
  have hnotice (s : Session σ) : (f s).notice (.faulted fault) = f (s.notice (.faulted fault)) :=
    around.record s _
  simp only [Engine.report, alike.raiseErrorEvents, ← hnotice]
  split
  · rw [around.push s _ rfl]
  · rfl

theorem reportAll (raise : Bool) : e'.reportAll raise (f s) fs = f (e.reportAll raise s fs) := by
  induction fs generalizing s with
  | nil => rfl
  | cons fault fs ih =>
    simp only [Engine.reportAll, List.foldl_cons, alike.report _ around] at ih ⊢
    exact ih _

theorem judge (source : Nat) (g : Option GuardId) :
    e'.judge event source (f s, fs) g = foundAmid f (e.judge event source (s, fs) g) := by
  cases g with
  | none => rfl
  | some g =>
    have hrecord (host : σ) (v : Except GuardFault Bool) :
        ({ f s with host } : Session σ).record (.judged g event v) =
          f (({ s with host } : Session σ).record (.judged g event v)) := by
      rw [around.withHost, around.record]
    have hanswer : e'.host.guard g (e'.context (f s) event) (f s).host =
        e.host.guard g (e.context s event) s.host := by
      rw [context, alike.chart, around.configuration, around.host, alike.guard]
      rfl
    simp only [Engine.judge, hanswer, alike.chart]
    cases (e.host.guard g (e.context s event) s.host).1 <;>
      exact Prod.ext rfl (Prod.ext (hrecord _ _) rfl)

theorem judgeTriggers (source : Nat) (ts : List Trigger) :
    e'.judgeTriggers event source ts (f s, fs) =
      foundAmid f (e.judgeTriggers event source ts (s, fs)) := by
  induction ts generalizing s fs with
  | nil => rfl
  | cons t ts ih =>
    rw [judgeTriggers_cons, judgeTriggers_cons, alike.judge _ _ _ around]
    rcases e.judge event source (s, fs) t.guard with ⟨holds, s', fs'⟩
    split
    · cases holds
      · exact ih s' fs'
      · rfl
    · exact ih s fs

theorem judgeTransition (t : Transition) : e'.judgeTransition event t (f s, fs) =
    foundAmid f (e.judgeTransition event t (s, fs)) := by
  unfold Engine.judgeTransition
  split
  · rfl
  · split
    · rfl
    · exact alike.judgeTriggers event s fs around t.source t.triggers

theorem firstEnabled (rs : List Nat) : e'.firstEnabled event rs (f s, fs) =
    foundAmid f (e.firstEnabled event rs (s, fs)) := by
  induction rs generalizing s fs with
  | nil => rfl
  | cons r rs ih =>
    simp only [Engine.firstEnabled, alike.chart, alike.judgeTransition _ _ _ around]
    rcases e.judgeTransition event (e.chart.transition r) (s, fs) with ⟨holds, s', fs'⟩
    cases holds
    · exact ih s' fs'
    · rfl

theorem enabled (ss : List Nat) : e'.enabled event ss (f s, fs) =
    foundAmid f (e.enabled event ss (s, fs)) := by
  induction ss generalizing s fs with
  | nil => rfl
  | cons q ss ih =>
    simp only [Engine.enabled, alike.chart, alike.firstEnabled _ _ _ around]
    rcases e.firstEnabled event (e.chart.node q).transitions (s, fs) with ⟨first, s', fs'⟩
    simp only [foundAmid, ih]

theorem select? :
    e'.select? (f s) event = (e.select? s event).map fun r => (r.1, f r.2) := by
  simp only [Engine.select?, around.configuration, alike.enabled _ _ _ around]
  rcases e.enabled event s.configuration.toList (s, []) with ⟨ranks, s', fs⟩
  simp only [foundAmid, alike.chart, around.configuration, around.memory,
    alike.reportAll _ _ around, Option.map_map]
  rfl

end Selections

theorem select?_after : e'.select? (s.after past) event =
    (e.select? s event).map fun r => (r.1, r.2.after past) := by
  simpa using alike.select? event s (Session.surrounds_amid past [])

/-! ### Microsteps -/

theorem act (call : Call) : e'.act event (s.amid past rest) call =
    ((e.act event s call).1.amid past rest, (e.act event s call).2) := by
  have raised (evs : List Event) (q : Queues) :
      evs.foldl Queues.raise { q with external := q.external ++ rest } =
        { evs.foldl Queues.raise q with
          external := (evs.foldl Queues.raise q).external ++ rest } := by
    induction evs generalizing q with
    | nil => rfl
    | cons ev evs ih => exact ih (q.raise ev)
  have sent (evs : List Event) (q : Queues) :
      evs.foldl Queues.send { q with external := q.external ++ rest } =
        { evs.foldl Queues.send q with
          external := (evs.foldl Queues.send q).external ++ rest } := by
    induction evs generalizing q with
    | nil => rfl
    | cons ev evs ih => exact ih (q.send ev)
  simp only [Engine.act, context, alike.chart, Session.configuration_amid, Session.host_amid,
    alike.action]
  rw [← Session.record_amid]
  simp only [Session.amid, raised, sent]

theorem perform (cmd : Command) : e'.perform event (s.amid past rest, fs) cmd =
    ((e.perform event (s, fs) cmd).1.amid past rest, (e.perform event (s, fs) cmd).2) := by
  cases cmd with
  | call call => simp only [Engine.perform, alike.act]
  | announce state =>
    simp only [Engine.perform, alike.chart]
    rfl
  | leave state => rfl
  | occupy state => rfl

theorem performAll (cmds : List Command) : cmds.foldl (e'.perform event) (s.amid past rest, fs) =
    ((cmds.foldl (e.perform event) (s, fs)).1.amid past rest,
      (cmds.foldl (e.perform event) (s, fs)).2) := by
  induction cmds generalizing s fs with
  | nil => rfl
  | cons cmd cmds ih => rw [List.foldl_cons, List.foldl_cons, alike.perform, ih]

theorem noticeChange (exited entered : List Nat) :
    e'.noticeChange (s.amid past rest) exited entered event =
      (e.noticeChange s exited entered event).amid past rest := by
  unfold Engine.noticeChange
  split
  · rfl
  · rw [Session.notice_amid, alike.chart]

omit alike in
theorem finish_amid : finish (s.amid past rest) = (finish s).after past :=
  Session.notice_after { s with status := .final, queues := {} } past .finished

/-- The events that wait are given up when the chart comes to its end. -/
theorem follow (script : Script) : e'.follow (s.amid past rest) script event =
    (e.follow s script event).amid past (if script.finished then [] else rest) := by
  have hperform :=
    alike.performAll past rest event { s with memory := script.memory } [] script.commands
  have hstart : ({ s.amid past rest with memory := script.memory } : Session σ) =
      ({ s with memory := script.memory } : Session σ).amid past rest := rfl
  simp only [Engine.follow, hstart, hperform, alike.noticeChange,
    alike.reportAll _ _ (Session.surrounds_amid past rest)]
  split
  · rw [Session.amid_nil]
    exact finish_amid past rest _
  · rfl

theorem follow_after (script : Script) :
    e'.follow (s.after past) script event = (e.follow s script event).after past := by
  simpa using alike.follow past [] event s script

theorem microstep? (ranks : List Nat) : e'.microstep? (s.after past) ranks event =
    (e.microstep? s ranks event).map (·.after past) := by
  simp only [Engine.microstep?_eq, alike.chart, Session.configuration_after, Session.memory_after,
    alike.follow_after, Option.map_map]
  rfl

theorem drop (ev : Event) : e'.drop (s.amid past rest) ev = (e.drop s ev).amid past rest := by
  simp only [Engine.drop, alike.reportDroppedEvents]
  split
  · exact Session.notice_amid _ past rest _
  · rfl

theorem drop_after (ev : Event) : e'.drop (s.after past) ev = (e.drop s ev).after past := by
  simpa using alike.drop past [] s ev

/-! ### The same session -/

theorem select?_eq : e'.select? s event = e.select? s event := by
  simpa using alike.select?_after #[] event s

theorem follow_eq (script : Script) : e'.follow s script event = e.follow s script event := by
  simpa using alike.follow_after #[] event s script

theorem drop_eq (ev : Event) : e'.drop s ev = e.drop s ev := by
  simpa using alike.drop_after #[] s ev

/-! ### Requests, under the same limit of microsteps -/

omit alike in
theorem giveUp_after (limit : Nat) : giveUp (s.after past) limit = (giveUp s limit).after past := by
  simp only [giveUp, Session.notice_after]
  rfl

omit alike in
theorem awaiting_after (m : Macrostep σ) :
    awaiting (m.after past) (s.after past) = (awaiting m s).after past := by
  simp only [awaiting]
  split
  · rename_i hprogressed
    have hprogressed' : m.progressed = true := hprogressed
    rw [if_pos hprogressed']
    exact Session.notice_after { s with status := .awaitingExternal } past _
  · rename_i hprogressed
    have hprogressed' : ¬m.progressed = true := hprogressed
    rw [if_neg hprogressed']
    rfl

section SameLimit

variable (hlimit : e'.settings.microstepLimit = e.settings.microstepLimit) (m : Macrostep σ)
  (bound : Nat) (progressed : Bool)
include hlimit

theorem step? (ranks : List Nat) : e'.step? (m.after past) ranks event =
    (e.step? m ranks event).map (·.after past) := by
  have hexceeded : e'.settings.exceeded? = e.settings.exceeded? := by
    funext k
    simp only [Settings.exceeded?, hlimit]
  simp only [Engine.step?, Macrostep.after, hexceeded]
  split
  · rw [giveUp_after]
    rfl
  · simp only [alike.microstep?, Option.map_map]
    rfl

theorem consume? (ev : Event) : e'.consume? (m.after past) ev =
    (e.consume? m ev).map (·.after past) := by
  rw [consume?_eq, consume?_eq, Macrostep.after, Session.record_after, alike.select?_after]
  cases e.select? (m.session.record (.taken ev)) (some ev) with
  | none => rfl
  | some r =>
    simp only [Option.map_some, Option.bind_some]
    split
    · rw [alike.drop_after]
      rfl
    · exact alike.step? past (some ev) hlimit { m with session := r.2, progressed := true } r.1

theorem stabilize? : e'.stabilize? { m.after past with session := s.after past } =
    (e.stabilize? { m with session := s }).map (·.after past) := by
  rw [stabilize?_eq, stabilize?_eq, awaiting_after, Session.queues_after]
  cases s.queues.drain.popExternal? with
  | none => rfl
  | some r =>
    have hconsume := alike.consume? past hlimit
      { session := { awaiting m s with queues := r.2, status := .stabilizing },
        progressed := true } r.1
    exact hconsume

theorem turn? : e'.turn? (m.after past) = (e.turn? m).map (·.after past) := by
  simp only [Engine.turn?, Macrostep.after, Session.status_after, alike.select?_after]
  split
  · rfl
  · cases e.select? m.session none with
    | none => rfl
    | some r =>
      obtain ⟨ranks, s⟩ := r
      cases ranks with
      | cons r rs => exact alike.step? past none hlimit { m with session := s } (r :: rs)
      | nil =>
        simp only [Option.map_some, Session.queues_after]
        cases s.queues.popInternal? with
        | none => exact alike.stabilize? past s hlimit m
        | some q =>
          exact alike.consume? past hlimit { m with session := { s with queues := q.2 } } q.1

theorem turns? : e'.turns? bound (m.after past) = (e.turns? bound m).map (·.after past) := by
  induction bound generalizing m with
  | zero => rfl
  | succ bound ih =>
    simp only [Engine.turns?, alike.turn? past hlimit]
    cases e.turn? m with
    | none => rfl
    | some t =>
      cases t with
      | done a => rfl
      | next m' => exact ih m'

theorem run? : e'.run? bound (s.after past) progressed =
    (e.run? bound s progressed).map (·.after past) := by
  unfold Engine.run?
  rw [Session.isRunning_after]
  split
  · exact alike.turns? past hlimit (opening s progressed) bound
  · rfl

/-- Requests get the same answers. -/
theorem serve? (r : Request) : e'.serve? bound (s.after past) r =
    (e.serve? bound s r).map (·.after past) := by
  cases r with
  | start =>
    simp only [Engine.serve?, start?_eq, Session.status_after, alike.chart]
    split
    · cases Script.start? e.chart with
      | none => rfl
      | some script =>
        have hfollow := alike.follow_after past none
          { s with status := .stabilizing, configuration := StateSet.empty } script
        exact (congrArg (e'.run? bound · true) hfollow).trans
          (alike.run? past _ hlimit bound true)
    · rfl
  | stop =>
    by_cases hidle : s.status = .idle
    · simp only [Engine.serve?, stop, Session.status_after, hidle, if_true]
      rfl
    · have hperform := alike.performAll past [] none s []
        (Script.stop e.chart s.configuration s.memory).commands
      rw [Session.amid_nil] at hperform
      simp only [Engine.serve?, stop_eq e hidle, stop_eq e' (s := s.after past) hidle, alike.chart,
        Session.configuration_after, Session.memory_after, hperform, alike.noticeChange,
        alike.reportAll _ _ (Session.surrounds_amid past [])]
      rfl
  | submit event =>
    simp only [Engine.serve?, submit?]
    by_cases hfinal : s.status = .final
    · rw [if_pos hfinal, if_pos (show (s.after past).status = .final from hfinal)]
      rfl
    · rw [if_neg hfinal, if_neg (show ¬(s.after past).status = .final from hfinal)]
      exact alike.run? past { s with queues := s.queues.push event } hlimit bound false
  | process => exact alike.run? past s hlimit bound false
  | send event => rfl

end SameLimit

end Alike

end Engine

end Statechart

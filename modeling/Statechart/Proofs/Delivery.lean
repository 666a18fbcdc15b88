import Statechart.Proofs.Digestion

/-!
Delivery. External events may be submitted one by one, or be sent and then processed all together;
and a chart may be started before they are submitted or after. When judging a guard changes nothing
and actions send nothing, it makes no difference to what becomes of the session, nor to what is told
of it on the way, faults apart.
-/
namespace Statechart

/-- The notification, if it tells what becomes of the chart and its events. -/
def Occurrence.news? : Occurrence → Option Notification
  | .noticed (.faulted _) => none
  | .noticed n => some n
  | _ => none

variable {σ : Type}

namespace Session

variable {s s' s₁ s₂ : Session σ}

/-- What has been told of changes, dropped events, stable configurations and the chart's end. -/
def news (s : Session σ) : List Notification := s.trace.toList.filterMap Occurrence.news?

theorem news_record (s : Session σ) (o : Occurrence) :
    (s.record o).news = s.news ++ o.news?.toList := by
  cases h : o.news? <;> simp [news, record, h]

theorem news_after (s : Session σ) (past : Array Occurrence) :
    (s.after past).news = past.toList.filterMap Occurrence.news? ++ s.news := by
  simp [news, after]

/-- The sessions agree in everything but what has been judged, done and reported on the way. -/
structure Like (s s' : Session σ) : Prop where
  status : s'.status = s.status
  configuration : s'.configuration = s.configuration
  memory : s'.memory = s.memory
  queues : s'.queues = s.queues
  host : s'.host = s.host
  news : s'.news = s.news

theorem Like.refl (s : Session σ) : s.Like s := ⟨rfl, rfl, rfl, rfl, rfl, rfl⟩

theorem Like.symm (h : s.Like s') : s'.Like s :=
  ⟨h.status.symm, h.configuration.symm, h.memory.symm, h.queues.symm, h.host.symm, h.news.symm⟩

theorem Like.trans (h : s.Like s₁) (h₁ : s₁.Like s₂) : s.Like s₂ :=
  ⟨h₁.status.trans h.status, h₁.configuration.trans h.configuration, h₁.memory.trans h.memory,
    h₁.queues.trans h.queues, h₁.host.trans h.host, h₁.news.trans h.news⟩

/-- They are one session, after two traces that tell the same. -/
theorem Like.exists_after (h : s.Like s') : ∃ (core : Session σ) (past past' : Array Occurrence),
    s = core.after past ∧ s' = core.after past' ∧
      ∀ next : Session σ, (next.after past).Like (next.after past') := by
  refine ⟨{ s with trace := #[] }, s.trace, s'.trace, by simp [after], ?_, fun next => ?_⟩
  · obtain ⟨status, configuration, memory, queues, host, trace⟩ := s'
    obtain ⟨rfl, rfl, rfl, rfl, rfl, -⟩ := h
    simp [after]
  · refine ⟨rfl, rfl, rfl, rfl, rfl, ?_⟩
    rw [news_after, news_after]
    exact congrArg (· ++ next.news) h.news

end Session

open Session (Like)

/-- Every session of the one kind is like one of the other, and the other way round. -/
def Concur (P Q : Session σ → Prop) : Prop :=
  (∀ s₁, P s₁ → ∃ s₂, Q s₂ ∧ s₁.Like s₂) ∧ ∀ s₂, Q s₂ → ∃ s₁, P s₁ ∧ s₁.Like s₂

namespace Concur

variable {P Q R : Session σ → Prop}

theorem of_iff (h : ∀ s, P s ↔ Q s) : Concur P Q :=
  ⟨fun s hs => ⟨s, (h s).mp hs, .refl s⟩, fun s hs => ⟨s, (h s).mpr hs, .refl s⟩⟩

theorem symm (h : Concur P Q) : Concur Q P := by
  refine ⟨fun s hs => ?_, fun s hs => ?_⟩
  · obtain ⟨s', hs', hlike⟩ := h.2 s hs
    exact ⟨s', hs', hlike.symm⟩
  · obtain ⟨s', hs', hlike⟩ := h.1 s hs
    exact ⟨s', hs', hlike.symm⟩

theorem trans (h : Concur P Q) (h' : Concur Q R) : Concur P R := by
  refine ⟨fun s hs => ?_, fun s hs => ?_⟩
  · obtain ⟨s₁, hs₁, hlike₁⟩ := h.1 s hs
    obtain ⟨s₂, hs₂, hlike₂⟩ := h'.1 s₁ hs₁
    exact ⟨s₂, hs₂, hlike₁.trans hlike₂⟩
  · obtain ⟨s₁, hs₁, hlike₁⟩ := h'.2 s hs
    obtain ⟨s₂, hs₂, hlike₂⟩ := h.2 s₁ hs₁
    exact ⟨s₂, hs₂, hlike₂.trans hlike₁⟩

end Concur

namespace Engine

variable {e : Engine σ} {m : Macrostep σ} {s s' s₀ s₁ s₂ : Session σ} {a : Answer σ} {ev : Event}
  {evs : List Event} {event : Option Event} {ranks : List Nat} {r : Request}
  {rs rs' : List Request}

/-- The requests are served one after the other, and each of them ends well. -/
inductive Serves (e : Engine σ) : Session σ → List Request → Session σ → Prop
  | nil (s : Session σ) : Serves e s [] s
  | cons {s s₁ s₂ : Session σ} {r : Request} {rs : List Request} (bound : Nat) :
      e.serve? bound s r = some ⟨.ok (), s₁⟩ → Serves e s₁ rs s₂ → Serves e s (r :: rs) s₂

theorem serves_nil_iff : Serves e s [] s' ↔ s = s' := by
  constructor
  · intro h
    cases h
    rfl
  · rintro rfl
    exact .nil s

theorem serves_cons_iff : Serves e s (r :: rs) s' ↔
    ∃ s₁, (∃ bound, e.serve? bound s r = some ⟨.ok (), s₁⟩) ∧ Serves e s₁ rs s' := by
  constructor
  · intro h
    cases h with
    | cons bound hserve hrest => exact ⟨_, ⟨bound, hserve⟩, hrest⟩
  · rintro ⟨s₁, ⟨bound, hserve⟩, hrest⟩
    exact .cons bound hserve hrest

theorem serves_append_iff :
    Serves e s (rs ++ rs') s' ↔ ∃ s₁, Serves e s rs s₁ ∧ Serves e s₁ rs' s' := by
  induction rs generalizing s with
  | nil => simp [serves_nil_iff]
  | cons r rs ih =>
    simp only [List.cons_append, serves_cons_iff, ih]
    constructor
    · rintro ⟨s₁, hone, s₂, hrest, hlast⟩
      exact ⟨s₂, ⟨s₁, hone, hrest⟩, hlast⟩
    · rintro ⟨s₂, ⟨s₁, hone, hrest⟩, hlast⟩
      exact ⟨s₁, hone, s₂, hrest, hlast⟩

/-! ### Selections tell no news -/

section Judged

variable {P : Session σ → Prop}
  (hjudge : ∀ w source g, P w.1 → P (e.judge event source w g).2.1)
include hjudge

theorem judgeTriggers_keeps (source : Nat) (ts : List Trigger) (w : Session σ × List Fault)
    (h : P w.1) : P (e.judgeTriggers event source ts w).2.1 := by
  induction ts generalizing w with
  | nil => exact h
  | cons t ts ih =>
    have hone := hjudge w source t.guard h
    rcases hj : e.judge event source w t.guard with ⟨holds, w'⟩
    rw [hj] at hone
    rw [judgeTriggers_cons, hj]
    split
    · cases holds
      · exact ih w' hone
      · exact hone
    · exact ih w h

theorem firstEnabled_keeps (rs : List Nat) (w : Session σ × List Fault) (h : P w.1) :
    P (e.firstEnabled event rs w).2.1 := by
  induction rs generalizing w with
  | nil => exact h
  | cons r rs ih =>
    have hone : P (e.judgeTransition event (e.chart.transition r) w).2.1 := by
      unfold judgeTransition
      split
      · exact h
      · split
        · exact h
        · exact judgeTriggers_keeps hjudge _ _ w h
    rcases hj : e.judgeTransition event (e.chart.transition r) w with ⟨holds, w'⟩
    rw [hj] at hone
    cases holds <;> simp only [firstEnabled, hj]
    · exact ih w' hone
    · exact hone

theorem enabled_keeps (ss : List Nat) (w : Session σ × List Fault) (h : P w.1) :
    P (e.enabled event ss w).2.1 := by
  induction ss generalizing w with
  | nil => exact h
  | cons q ss ih => exact ih _ (firstEnabled_keeps hjudge _ w h)

end Judged

theorem news_select? (h : e.select? s event = some (ranks, s')) : s'.news = s.news := by
  have hjudge (w : Session σ × List Fault) (source : Nat) (g : Option GuardId)
      (hw : w.1.news = s.news) : (e.judge event source w g).2.1.news = s.news := by
    cases g with
    | none => exact hw
    | some g =>
      simp only [judge]
      split <;> exact (Session.news_record _ _).trans ((List.append_nil _).trans hw)
  have hreport (fs : List Fault) (s₁ : Session σ) (raise : Bool) :
      (e.reportAll raise s₁ fs).news = s₁.news := by
    induction fs generalizing s₁ with
    | nil => rfl
    | cons f fs ih =>
      refine (ih _).trans ?_
      simp only [report]
      split <;> exact (Session.news_record _ _).trans (List.append_nil _)
  obtain ⟨chosen, -, hs'⟩ := Option.map_eq_some_iff.mp h
  obtain ⟨-, rfl⟩ := Prod.mk.inj hs'
  rw [hreport]
  exact enabled_keeps (P := fun s₁ => s₁.news = s.news) hjudge _ (s, []) rfl

/-! ### Sessions alike digest alike -/

theorem Takes.of_like (h : Takes e s ev s₁) (hlike : s.Like s') :
    ∃ s₂, Takes e s' ev s₂ ∧ s₁.Like s₂ := by
  obtain ⟨core, past, past', rfl, rfl, hafter⟩ := hlike.exists_after
  obtain ⟨next, hnext, rfl⟩ := takes_after_iff.mp h
  exact ⟨_, takes_after_iff.mpr ⟨next, hnext, rfl⟩, hafter next⟩

theorem Digests.of_like (h : Digests e s evs s₁) (hlike : s.Like s') :
    ∃ s₂, Digests e s' evs s₂ ∧ s₁.Like s₂ := by
  obtain ⟨core, past, past', rfl, rfl, hafter⟩ := hlike.exists_after
  obtain ⟨next, hnext, rfl⟩ := digests_after_iff.mp h
  exact ⟨_, digests_after_iff.mpr ⟨next, hnext, rfl⟩, hafter next⟩

/-! ### One by one -/

/-- The session waits for external events, and nothing is left to do. -/
def Stable (e : Engine σ) (s : Session σ) : Prop := s.status = .awaitingExternal ∧ Done e s

theorem Stable.queues (h : Stable e s) : s.queues = {} := by
  obtain ⟨-, hinternal, hexternal, hhandOff, -⟩ := h
  cases hq : s.queues
  simp_all

theorem stable_or_final_of_leads (pure : e.host.Pure) (h : Leads e (.next m) ⟨.ok (), s⟩) :
    Stable e s ∨ s.status = .final := by
  obtain ⟨n, hn⟩ := leads_iff.mp h
  exact (status_of_turns? hn).imp_left fun hstatus => ⟨hstatus, done_of_turns? pure hn rfl hstatus⟩

theorem stable_or_final_of_takes (pure : e.host.Pure) (h : Takes e s ev s₁) :
    Stable e s₁ ∨ s₁.status = .final := by
  obtain ⟨t, hconsume, hleads⟩ := h
  cases t with
  | next m => exact stable_or_final_of_leads pure hleads
  | done a =>
    obtain ⟨verdict, s₂⟩ := a
    cases hleads
    exact absurd rfl (error_of_consume? hconsume)

/-- Asked once more without an event, a stable session selects nothing. -/
theorem exists_asked (pure : e.host.Pure) (hs : Stable e s) (queues : Queues) :
    ∃ s', s.Like s' ∧ s'.queues = {} ∧
      e.select? { s with status := .stabilizing, queues } none =
        some ([], { s' with status := .stabilizing, queues }) := by
  let s₀ : Session σ := { s with status := .stabilizing, queues }
  have hsettled : Settled e s₀ := hs.2.settled.congr pure rfl rfl rfl
  obtain ⟨s₁, hsel⟩ := hsettled
  obtain ⟨hsame, hquiet, -⟩ := e.select?_spec hsel
  have hstatus : s₁.status = .stabilizing := hsame.status
  have hqueues : s₁.queues = queues := (hquiet rfl).queues
  have hhost : s₁.host = s.host := (select?_pure none pure s₀).2 [] s₁ hsel
  have hnews : s₁.news = s₀.news := news_select? hsel
  refine ⟨{ s₁ with status := s.status, queues := s.queues },
    ⟨rfl, hsame.configuration, hsame.memory, rfl, hhost, hnews⟩, hs.queues, hsel.trans ?_⟩
  rw [← hstatus, ← hqueues]

/-- A submitted event is taken in the first turn, by a session that is like the one it was submitted
to. -/
theorem exists_turn?_of_submit (pure : e.host.Pure) (hs : Stable e s)
    (hev : ev.origin = .external) : ∃ s', s.Like s' ∧
      e.turn? (opening { s with queues := s.queues.push ev } false) =
        e.consume? (facing s') ev := by
  obtain ⟨s', hlike, hnone, hasked⟩ := exists_asked pure hs { external := [ev] }
  refine ⟨s', hlike, ?_⟩
  have hdrained : (s.queues.push ev).drain = { external := [ev] } := by
    simp [hs.queues, Queues.push, hev, Queues.drain]
  have hfacing : facing s' = { session := { s' with status := .stabilizing, queues := {} },
                               progressed := true } := by rw [← hnone]; rfl
  simp only [turn?, opening, hdrained, reduceCtorEq, if_false, hasked, hfacing]
  rfl

theorem serve?_submit_iff (pure : e.host.Pure) (hs : Stable e s) (hev : ev.origin = .external) :
    ∃ s', s.Like s' ∧
      ∀ s₁, (∃ bound, e.serve? bound s (.submit ev) = some ⟨.ok (), s₁⟩) ↔ Takes e s' ev s₁ := by
  obtain ⟨s', hlike, hturn⟩ := exists_turn?_of_submit pure hs hev
  have hrun : s.isRunning = true := by simp [Session.isRunning, hs.1, Status.isRunning]
  refine ⟨s', hlike, fun s₁ => ?_⟩
  have hbegins := Begins.submit (e := e) ev hrun
  simp only [serve?_of_begins hbegins, ← leads_iff]
  constructor
  · intro h
    cases h with
    | next ht hleads => exact ⟨_, hturn.symm.trans ht, hleads⟩
  · rintro ⟨t, ht, hleads⟩
    exact .next (hturn.trans ht) hleads

theorem digests_of_final (hs : s.status = .final) : Digests e s evs s' ↔ s = s' := by
  constructor
  · intro h
    cases h with
    | nil => rfl
    | ended => rfl
    | cons hlive => exact absurd hs hlive
  · rintro rfl
    exact .ended evs hs

theorem serves_submits_of_final (hs : s.status = .final) :
    Serves e s (evs.map .submit) s' ↔ s = s' := by
  induction evs with
  | nil => exact serves_nil_iff
  | cons ev evs ih =>
    have hserve (bound : Nat) : e.serve? bound s (.submit ev) = some ⟨.ok (), s⟩ := if_pos hs
    rw [List.map_cons, serves_cons_iff]
    simp [hserve, ih]

/-- Submitting events one by one is digesting them. -/
theorem concur_submits (pure : e.host.Pure) (hevs : ∀ ev ∈ evs, ev.origin = .external)
    (hs : Stable e s ∨ s.status = .final) :
    Concur (Serves e s (evs.map .submit)) (Digests e s evs) := by
  induction evs generalizing s with
  | nil =>
    refine .of_iff fun s' => serves_nil_iff.trans ⟨?_, ?_⟩
    · rintro rfl
      exact .nil s
    · rintro (_ | _) <;> rfl
  | cons ev evs ih =>
    rcases hs with hs | hfinal
    · have hlive : s.status ≠ .final := by simp [hs.1]
      obtain ⟨s', hlike, hserve⟩ := serve?_submit_iff pure hs (hevs ev (by simp))
      have ih {s₁ : Session σ} := ih (s := s₁) fun ev' hev' => hevs ev' (by simp [hev'])
      constructor
      · intro s₂ h
        rw [List.map_cons, serves_cons_iff] at h
        obtain ⟨s₁, hone, hrest⟩ := h
        have htakes := (hserve s₁).mp hone
        obtain ⟨s₃, hdigests, hlike₃⟩ := (ih (stable_or_final_of_takes pure htakes)).1 s₂ hrest
        obtain ⟨s₁', htakes', hlike₁⟩ := htakes.of_like hlike.symm
        obtain ⟨s₄, hdigests', hlike₄⟩ := hdigests.of_like hlike₁
        exact ⟨s₄, .cons hlive htakes' hdigests', hlike₃.trans hlike₄⟩
      · intro s₂ h
        cases h with
        | ended _ hfinal => exact absurd hfinal hlive
        | cons _ htakes hdigests =>
          obtain ⟨s₁, htakes', hlike₁⟩ := htakes.of_like hlike
          obtain ⟨s₃, hdigests', hlike₃⟩ := hdigests.of_like hlike₁
          obtain ⟨s₄, hrest, hlike₄⟩ :=
            (ih (stable_or_final_of_takes pure htakes')).2 s₃ hdigests'
          refine ⟨s₄, ?_, hlike₄.trans hlike₃.symm⟩
          rw [List.map_cons, serves_cons_iff]
          exact ⟨s₁, (hserve s₁).mpr htakes', hrest⟩
    · exact .of_iff fun s' => (serves_submits_of_final hfinal).trans (digests_of_final hfinal).symm

/-! ### All together -/

theorem withOrigin_external (hev : ev.origin = .external) : ev.withOrigin .external = ev := by
  obtain ⟨name, payload, origin⟩ := ev
  cases hev
  rfl

theorem serves_sends_iff (hevs : ∀ ev ∈ evs, ev.origin = .external) :
    Serves e s (evs.map .send) s' ↔
      { s with queues := { s.queues with handOff := s.queues.handOff ++ evs } } = s' := by
  induction evs generalizing s with
  | nil => simp [serves_nil_iff]
  | cons ev evs ih =>
    have hsend (bound : Nat) : e.serve? bound s (.send ev) = some ⟨.ok (), s.send ev⟩ := rfl
    have hev := withOrigin_external (hevs ev (by simp))
    rw [List.map_cons, serves_cons_iff]
    simp [hsend, ih fun ev' hev' => hevs ev' (by simp [hev']), Session.send, Queues.send, hev]

/-- Processing a stable session changes nothing. -/
theorem exists_turn?_of_stable (pure : e.host.Pure) (hs : Stable e s) :
    ∃ s', s.Like s' ∧ e.turn? (opening s false) = some (.done ⟨.ok (), s'⟩) := by
  obtain ⟨s', hlike, hnone, hasked⟩ := exists_asked pure hs {}
  refine ⟨s', hlike, ?_⟩
  have hdrained : s.queues.drain = {} := by simp [hs.queues, Queues.drain]
  have hleft : s' = { s' with status := .awaitingExternal, queues := {} } := by
    rw [← hnone, ← hs.1, ← hlike.status]
  rw [hleft]
  simp only [turn?, opening, hdrained, reduceCtorEq, if_false, hasked]
  rfl

/-- Sending events and processing them together is digesting them. -/
theorem concur_batch (pure : e.host.Pure) (mute : e.host.Mute)
    (hevs : ∀ ev ∈ evs, ev.origin = .external) (hs : Stable e s) :
    Concur (Serves e s (evs.map .send ++ [.process])) (Digests e s evs) := by
  obtain ⟨s₀, hlike, hturn⟩ := exists_turn?_of_stable pure hs
  have hserves (s₂ : Session σ) :
      Serves e s (evs.map .send ++ [.process]) s₂ ↔ Digests e s₀ evs s₂ := by
    have hrun : s.isRunning = true := by simp [Session.isRunning, hs.1, Status.isRunning]
    let s₁ : Session σ := { s with queues := { handOff := evs } }
    have hbegins : Begins e s₁ .process (opening s₁ false) := .process hrun
    have hamid : opening s₁ false = (opening s false).amid #[] evs := by
      simp [s₁, opening, Macrostep.amid, Session.amid, Queues.drain, hs.queues]
    have hnone : (opening s false).session.queues.outside = [] := by
      simp [opening, hs.queues, Queues.outside, Queues.drain]
    have hfirst (s₂ : Session σ) : Leads e (.next (opening s false)) ⟨.ok (), s₂⟩ ↔ s₀ = s₂ := by
      constructor
      · intro h
        have heq := h.unique (.next hturn (.done _))
        exact (Answer.mk.inj heq).2.symm
      · rintro rfl
        exact .next hturn (.done _)
    have hsent : ({ s with queues := { s.queues with handOff := s.queues.handOff ++ evs } } :
        Session σ) = s₁ := by simp [s₁, hs.queues]
    simp only [serves_append_iff, serves_sends_iff hevs, hsent, exists_eq_left', serves_cons_iff,
      serve?_of_begins hbegins, ← leads_iff, hamid, leads_amid_iff mute hnone, hfirst,
      serves_nil_iff, exists_eq_right, Session.after_empty]
  constructor
  · intro s₁ h
    exact ((hserves s₁).mp h).of_like hlike.symm
  · intro s₂ h
    obtain ⟨s₁, hdigests, hlike₁⟩ := h.of_like hlike
    exact ⟨s₁, (hserves s₁).mpr hdigests, hlike₁.symm⟩

/-! ### Before and after the start -/

theorem serves_submits_of_idle (hs : s.status = .idle) (hevs : ∀ ev ∈ evs, ev.origin = .external) :
    Serves e s (evs.map .submit) s' ↔ s.amid #[] evs = s' := by
  induction evs generalizing s with
  | nil => simp [serves_nil_iff]
  | cons ev evs ih =>
    have hlive : s.status ≠ .final := by simp [hs]
    have hrun : ¬({ s with queues := s.queues.push ev } : Session σ).isRunning = true := by
      simp [Session.isRunning, hs, Status.isRunning]
    have hserve (bound : Nat) : e.serve? bound s (.submit ev) =
        some ⟨.ok (), { s with queues := s.queues.push ev }⟩ := by
      rw [serve?, submit?, if_neg hlive]
      exact run?_of_not_running hrun
    have hpush : ({ s with queues := s.queues.push ev } : Session σ).amid #[] evs =
        s.amid #[] (ev :: evs) := by
      simp [Session.amid, Queues.push, hevs ev (by simp)]
    rw [List.map_cons, serves_cons_iff]
    have ih := ih (s := { s with queues := s.queues.push ev }) hs
      fun ev' hev' => hevs ev' (by simp [hev'])
    simp [hserve, ih, hpush]

/-- The chart starts, and becomes stable or comes to its end. -/
def Starts (e : Engine σ) (s s' : Session σ) : Prop :=
  ∃ bound, e.serve? bound s .start = some ⟨.ok (), s'⟩

theorem entered_amid (s : Session σ) (script : Script) : e.entered (s.amid #[] evs) script =
    (e.entered s script).amid #[] (if script.finished then [] else evs) :=
  (Alike.refl e).follow #[] evs none
    { s with status := .stabilizing, configuration := StateSet.empty } script

theorem status_entered (s : Session σ) (script : Script) :
    (e.entered s script).status = if script.finished then .final else .stabilizing :=
  status_follow _ script none

/-- The first entry ends the chart, or begins a macrostep. -/
theorem starts_iff (hs : s.status = .idle) : Starts e s s' ↔
    ∃ script, Script.start? e.chart = some script ∧
      if script.finished then e.entered s script = s'
      else Leads e (.next (opening (e.entered s script) true)) ⟨.ok (), s'⟩ := by
  cases hscript : Script.start? e.chart with
  | none => simp [Starts, serve?, start?_eq, hs, hscript]
  | some script =>
    have hstatus := status_entered (e := e) s script
    simp only [Option.some.injEq, exists_eq_left']
    split
    · rename_i hfinished
      have hrun : ¬(e.entered s script).isRunning = true := by
        simp [Session.isRunning, hstatus, hfinished, Status.isRunning]
      have hserve (bound : Nat) : e.serve? bound s .start = some ⟨.ok (), e.entered s script⟩ := by
        simp only [serve?, start?_eq, if_pos hs, hscript]
        exact run?_of_not_running hrun
      simp [Starts, hserve]
    · rename_i hgoing
      have hrun : (e.entered s script).isRunning = true := by
        simp [Session.isRunning, hstatus, hgoing, Status.isRunning]
      rw [leads_iff]
      simp only [Starts, serve?_of_begins (.start hs hscript hrun)]

theorem stable_or_final_of_starts (pure : e.host.Pure) (hs : s.status = .idle)
    (h : Starts e s s') : Stable e s' ∨ s'.status = .final := by
  obtain ⟨script, -, h⟩ := (starts_iff hs).mp h
  split at h
  · rename_i hfinished
    subst h
    exact .inr (by rw [status_entered, if_pos hfinished])
  · exact stable_or_final_of_leads pure h

/-- Events that wait for the start are digested after it. -/
theorem starts_amid_iff (mute : e.host.Mute) (hs : s.status = .idle)
    (hnone : s.queues.outside = []) :
    Starts e (s.amid #[] evs) s' ↔ ∃ s₀, Starts e s s₀ ∧ Digests e s₀ evs s' := by
  rw [starts_iff (s := s.amid #[] evs) hs]
  simp only [starts_iff hs]
  cases hscript : Script.start? e.chart with
  | none => simp
  | some script =>
    have hstatus := status_entered (e := e) s script
    simp only [Option.some.injEq, exists_eq_left', entered_amid]
    by_cases hfinished : script.finished = true
    · rw [if_pos hfinished] at hstatus
      simp [hfinished, digests_of_final hstatus]
    · rw [if_neg hfinished] at hstatus
      let s₁ : Session σ := { s with status := .stabilizing, configuration := StateSet.empty }
      have hout : (e.entered s script).queues.outside = [] :=
        outside_follow_of_mute mute (s := s₁) hnone script none
      have hhandOff := (List.append_eq_nil_iff.mp hout).2
      have hopening : opening ((e.entered s script).amid #[] evs) true =
          (opening (e.entered s script) true).amid #[] evs := by
        simp [opening, Macrostep.amid, Session.amid, Queues.drain, hhandOff]
      have hquiet : (opening (e.entered s script) true).session.queues.outside = [] :=
        (Queues.outside_drain _).trans hout
      simp only [if_neg hfinished, hopening, leads_amid_iff mute hquiet, Session.after_empty]

/-- However external events are delivered, one by one or all together, after the start or before it,
the same becomes of the session and the same is told of it: from a stable session, and from an idle
one without waiting events. -/
theorem deliveries_agree (e : Engine σ) (pure : e.host.Pure) (mute : e.host.Mute)
    (evs : List Event) (hevs : ∀ ev ∈ evs, ev.origin = .external) (s : Session σ) :
    (Stable e s →
      Concur (Serves e s (evs.map .submit)) (Serves e s (evs.map .send ++ [.process]))) ∧
    (s.status = .idle → s.queues = {} →
      Concur (Serves e s (.start :: evs.map .submit))
        (Serves e s (evs.map .submit ++ [.start]))) := by
  constructor
  · intro hs
    exact (concur_submits pure hevs (.inl hs)).trans (concur_batch pure mute hevs hs).symm
  · intro hs hqueues
    have hnone : s.queues.outside = [] := by rw [hqueues]; rfl
    have hafter (s' : Session σ) : Serves e s (.start :: evs.map .submit) s' ↔
        ∃ s₀, Starts e s s₀ ∧ Serves e s₀ (evs.map .submit) s' := serves_cons_iff
    have hbefore (s' : Session σ) : Serves e s (evs.map .submit ++ [.start]) s' ↔
        ∃ s₀, Starts e s s₀ ∧ Digests e s₀ evs s' := by
      rw [← starts_amid_iff mute hs hnone]
      simp only [serves_append_iff, serves_submits_of_idle hs hevs, exists_eq_left',
        serves_cons_iff, serves_nil_iff, exists_eq_right]
      rfl
    constructor
    · intro s₁ h
      obtain ⟨s₀, hstarts, hserves⟩ := (hafter s₁).mp h
      have hagree := concur_submits pure hevs (stable_or_final_of_starts pure hs hstarts)
      obtain ⟨s₂, hdigests, hlike⟩ := hagree.1 s₁ hserves
      exact ⟨s₂, (hbefore s₂).mpr ⟨s₀, hstarts, hdigests⟩, hlike⟩
    · intro s₂ h
      obtain ⟨s₀, hstarts, hdigests⟩ := (hbefore s₂).mp h
      have hagree := concur_submits pure hevs (stable_or_final_of_starts pure hs hstarts)
      obtain ⟨s₁, hserves, hlike⟩ := hagree.2 s₂ hdigests
      exact ⟨s₁, (hafter s₁).mpr ⟨s₀, hstarts, hserves⟩, hlike⟩

/-- The lights change before or after they are switched on, and when they are asked to change and to
stop, one by one or together. -/
theorem crossing_deliveries :
    (bare crossing.chart).host.Pure ∧ (bare crossing.chart).host.Mute ∧
    (∃ s s₁ s₂ : Session Unit, Stable (bare crossing.chart) s ∧
      Serves (bare crossing.chart) s
        [.submit (.external "change"), .submit (.external "stop")] s₁ ∧
      Serves (bare crossing.chart) s
        [.send (.external "change"), .send (.external "stop"), .process] s₂ ∧
      s₁.configuration.toList = [1, 2, 4, 5, 7] ∧ s₁.Like s₂) ∧
    ∃ s s₁ s₂ : Session Unit, s.status = .idle ∧ s.queues = {} ∧
      Serves (bare crossing.chart) s [.start, .submit (.external "change")] s₁ ∧
      Serves (bare crossing.chart) s [.submit (.external "change"), .start] s₂ ∧
      s₁.configuration.toList = [1, 2, 4, 5, 7] ∧ s₁.Like s₂ := by
  let e := bare crossing.chart
  have pure : e.host.Pure := Host.pure_ofTables {} {}
  have mute : e.host.Mute := fun _ _ _ => rfl
  have serves (s : Session Unit) (r r' : Request) (x : List Nat)
      (h : ((e.serve? 9 s r).bind fun a => (e.serve? 9 a.session r').map fun b =>
        (a.verdict.isOk, b.verdict.isOk, b.session.configuration.toList)) = some (true, true, x)) :
      ∃ s₁, Serves e s [r, r'] s₁ ∧ s₁.configuration.toList = x := by
    obtain ⟨⟨⟨_⟩ | ⟨_⟩, s₁⟩, ha, h⟩ := Option.bind_eq_some_iff.mp h
    · simp [Except.isOk, Except.toBool] at h
    · obtain ⟨⟨⟨_⟩ | ⟨_⟩, s₂⟩, hb, h⟩ := Option.map_eq_some_iff.mp h
      · simp [Except.isOk, Except.toBool] at h
      · exact ⟨s₂, .cons 9 ha (.cons 9 hb (.nil s₂)), (Prod.mk.inj (Prod.mk.inj h).2).2⟩
  refine ⟨pure, mute, ?_, ?_⟩
  · let s : Session Unit := { host := (), status := .awaitingExternal,
                              configuration := StateSet.ofList [1, 2, 3, 5, 6] }
    have hselected : (e.select? s none).map (·.1) = some [] := by decide +kernel
    obtain ⟨⟨ranks, s'⟩, hsel, rfl⟩ := Option.map_eq_some_iff.mp hselected
    have hs : Stable e s := ⟨rfl, rfl, rfl, rfl, s', hsel⟩
    obtain ⟨s₁, hserves, hresult⟩ := serves s (.submit (.external "change"))
      (.submit (.external "stop")) [1, 2, 4, 5, 7] (by decide +kernel)
    obtain ⟨hagree, -⟩ := deliveries_agree e pure mute [.external "change", .external "stop"]
      (by simp [Event.external]) s
    obtain ⟨s₂, hserves', hlike⟩ := (hagree hs).1 s₁ hserves
    exact ⟨s, s₁, s₂, hs, hserves, hserves', hresult, hlike⟩
  · let s : Session Unit := { host := () }
    obtain ⟨s₁, hserves, hresult⟩ := serves s .start
      (.submit (.external "change")) [1, 2, 4, 5, 7] (by decide +kernel)
    obtain ⟨-, hagree⟩ := deliveries_agree e pure mute [.external "change"]
      (by simp [Event.external]) s
    obtain ⟨s₂, hserves', hlike⟩ := (hagree rfl rfl).1 s₁ hserves
    exact ⟨s, s₁, s₂, rfl, rfl, hserves, hserves', hresult, hlike⟩

end Engine

end Statechart

import Statechart.Proofs.Alike
import Statechart.Proofs.Moves

/-!
Routes of external events. They come in two ways, submitted to the session itself or sent through
the hand-off, by whoever drives the session, by its own actions, or by somebody else while it runs.
Every move keeps the accounts, so as long as the queues are not cleared, no external event is lost,
doubled or overtaken on its way.
-/
namespace Statechart

variable {σ : Type}

namespace Engine

variable {e : Engine σ} {s₀ s s' : Session σ} {event : Option Event} {ranks : List Nat} {job : Job}
  {k new : Routes} {p p' : Place}

/-! ### What a move does to the accounts -/

theorem Tallies.errors (h : Tallies s₀ s k) (fs : List Fault) : Tallies s₀
    { s with queues := { s.queues with internal := s.queues.internal ++ e.errors fs } } k := by
  refine h.requeue fun dequeued hacc => hacc.enqueue _ fun ev hev => ?_
  unfold Engine.errors at hev
  split at hev
  · obtain ⟨f, -, rfl⟩ := List.mem_map.mp hev
    rfl
  · simp at hev

theorem Tallies.select? (h : Tallies s₀ s k) (hsel : e.select? s event = some (ranks, s')) :
    Tallies s₀ s' k := by
  have htaken := (e.select?_spec hsel).1.taken
  cases event with
  | none => exact h.congr htaken ((e.select?_spec hsel).2.1 rfl).queues
  | some ev => exact (h.errors _).congr htaken (queues_select? hsel)

theorem Tallies.report (h : Tallies s₀ s k) (raise : Bool) (f : Fault) :
    Tallies s₀ (e.report raise s f) k := by
  have htaken := (e.report_spec raise s f).1.taken
  cases raise with
  | false => exact h.congr htaken ((e.report_spec false s f).2 rfl).queues
  | true => exact (h.errors [f]).congr htaken (queues_report true s f)

theorem Tallies.send (h : Tallies s₀ s k) (ev : Event) :
    Tallies s₀ (s.send ev) (k ++ { sent := [ev.withOrigin .external] }) :=
  h.requeue fun _ hacc => hacc.send ev

/-- The event that is taken leaves its queue. -/
theorem Tallies.take (h : Tallies s₀ s k) {ev : Event} {queues : Queues} {status : Status}
    (hacc : ∀ dequeued, Accounts dequeued s.queues k → Accounts (dequeued ++ [ev]) queues k) :
    Tallies s₀ (({ s with queues, status } : Session σ).record (.taken ev)) k := by
  obtain ⟨dequeued, htaken, h⟩ := h
  refine ⟨dequeued ++ [ev], ?_, hacc dequeued h⟩
  rw [Session.taken_record, ← List.append_assoc, ← htaken]
  rfl

theorem Tallies.called (h : Tallies s₀ s k) (event : Option Event) (call : Call) :
    Tallies s₀ (e.called event s call) k := by
  refine (h.requeue fun _ hacc => hacc.raiseAll _).congr ?_ rfl
  exact (Session.undisturbed_record _ rfl).taken

/-- A command that is no action announces at most. -/
theorem Tallies.command (h : Tallies s₀ s k) {cmd : Command} (hcmd : ∀ call, cmd ≠ .call call)
    (faults : List Fault) : Tallies s₀ (e.perform event (s, faults) cmd).1 k := by
  cases cmd with
  | call call => exact absurd rfl (hcmd call)
  | leave state => exact h.congr rfl rfl
  | occupy state => exact h.congr rfl rfl
  | announce state =>
    exact h.requeue fun _ hacc =>
      hacc.enqueue [.done (e.chart.nameOf state)] (by simp [Event.done, Event.internal])

/-- A microstep that ends the chart clears the queues, any other leaves them alone in the end. -/
theorem Tallies.conclude (h : Tallies s₀ s k) (hlive : (e.conclude job s).status ≠ .final) :
    Tallies s₀ (e.conclude job s) k := by
  unfold Engine.conclude at hlive ⊢
  have hchange := e.undisturbed_noticeChange job.event s job.script.exited job.script.entered
  split at hlive
  · exact absurd rfl hlive
  · rename_i hunfinished
    rw [if_neg hunfinished]
    exact h.congr hchange.taken hchange.queues

/-- Unless the chart has come to its end, every move keeps the accounts. -/
theorem Moves.tallies (hmove : Moves e p s new p' s')
    (h : (p.isBetween = true → s.status ≠ .final) → Tallies s₀ s k)
    (hlive : p'.isBetween = true → s'.status ≠ .final) : Tallies s₀ s' (k ++ new) := by
  cases hmove with try rw [Routes.append_empty]
  | overtaken event => exact (h hlive).send event
  | enter hidle hscript => exact (h fun _ => by simp [hidle]).congr rfl rfl
  | keep event hidle => exact (h fun _ => by simp [hidle]).requeue fun _ hacc => hacc.push event
  | refuse event hfinal => exact absurd hfinal (hlive rfl)
  | submit event hrun =>
    have hlive : s.status ≠ .final := Session.not_final_of_isRunning hrun
    exact (h fun _ => hlive).requeue fun _ hacc => hacc.push event
  | process hrun => exact h fun _ => Session.not_final_of_isRunning hrun
  | drain => exact (h nofun).requeue fun _ hacc => hacc.drain
  | finish hfinal => exact absurd hfinal (hlive rfl)
  | choose hrun hsel _ => exact (h fun _ => hrun).select? hsel
  | settle hrun hsel => exact (h fun _ => hrun).select? hsel
  | takeInternal hpop => exact (h nofun).take fun _ hacc => hacc.popInternal hpop
  | @stabilize _ n progressed _ =>
    obtain ⟨-, -, hqueues, -, htaken, -⟩ := awaiting_spec ⟨s, n, progressed⟩ s
    exact (h nofun).congr htaken hqueues
  | takeExternal hpop => exact (h nofun).take fun _ hacc => hacc.drain.popExternal hpop
  | rest _ => exact (h nofun).requeue fun _ hacc => hacc.drain
  | drop hsel =>
    have hselected := (h nofun).select? hsel
    unfold Engine.drop
    split
    · exact hselected.congr (Session.undisturbed_notice _ _).taken rfl
    · exact hselected
  | answer hsel _ => exact (h nofun).select? hsel
  | exceed _ =>
    exact ((h nofun).requeue fun _ hacc => hacc.clearInternal).congr
      (Session.undisturbed_notice _ _).taken rfl
  | take _ _ => exact (h nofun).congr rfl rfl
  | call => exact (h nofun).called _ _
  | send => exact (h nofun).send _
  | command hcmd => exact (h nofun).command hcmd _
  | acted => exact h nofun
  | report => exact (h nofun).report true _
  | conclude _ => exact (h nofun).conclude (hlive rfl)
  | entered _ hrun => exact (h nofun).conclude (Session.not_final_of_isRunning hrun)
  | ended _ _ => exact (h nofun).conclude (hlive rfl)

/-! ### The accounts at every point of a run -/

theorem Runs.tallies (hempty : s₀.queues = {}) (h : Runs e s₀ p s k)
    (hlive : p.isBetween = true → s.status ≠ .final) : Tallies s₀ s k := by
  induction h with
  | beginning =>
    refine ⟨[], (List.append_nil _).symm, ?_⟩
    rw [hempty]
    exact ⟨by simp, by simp [Queues.outside], [], rfl, .nil⟩
  | move _ hmove ih => exact hmove.tallies ih hlive

theorem Amid.status (h : Amid e event s s' new) : s'.status = s.status := by
  induction h with
  | start => rfl
  | judged source g faults _ ih => exact (e.undisturbed_judge event source _ g).status.trans ih
  | reported raise f _ ih => exact (e.report_spec raise _ f).1.status.trans ih
  | sent ev _ ih => exact ih

/-- Amid a selection the accounts are kept as between two moves. -/
theorem Amid.tallies (h : Amid e event s s' new) (hs : Tallies s₀ s k) :
    Tallies s₀ s' (k ++ new) := by
  induction h with
  | start => exact k.append_empty.symm ▸ hs
  | @judged s₁ _ source g faults _ ih =>
    have hjudge := e.undisturbed_judge event source (s₁, faults) g
    exact ih.congr hjudge.taken hjudge.queues
  | reported raise f _ ih => exact ih.report raise f
  | sent ev _ ih => exact Routes.append_assoc k _ _ ▸ ih.send ev

theorem Point.tallies (hempty : s₀.queues = {}) (h : Point e s₀ s k) (hlive : s.status ≠ .final) :
    Tallies s₀ s k := by
  cases h with
  | between hrun => exact hrun.tallies hempty fun _ => hlive
  | amid event hrun hamid =>
    exact hamid.tallies (hrun.tallies hempty fun _ => hamid.status ▸ hlive)

/-- From a session without waiting events on, and as long as the chart has not come to its end, the
external events that have been taken, those in the external queue and those in the hand-off are an
interleaving of the events submitted and the events sent, at every point. Whatever is asked of the
session one after the other, stops apart, leads to such a point, and whether something is sent
before a selection or after it makes no difference. -/
theorem external_events_interleaved (hempty : s₀.queues = {}) :
    (∀ s k, Point e s₀ s k → s.status ≠ .final → ∃ dequeued, s.taken = s₀.taken ++ dequeued ∧
      Interleaving
        (dequeued.filter (·.origin = .external) ++ s.queues.external ++ s.queues.handOff)
        k.direct k.sent) ∧
    (∀ (bound : Nat) (rs : List Request) (s : Session σ), .stop ∉ rs →
      rs.foldlM (fun s r => (e.serve? bound s r).map (·.session)) s₀ = some s →
      ∃ sent, Point e s₀ s { direct := rs.flatMap Request.direct, sent }) ∧
    ∀ (s : Session σ) (event : Option Event) (ev : Event),
      e.select? (s.send ev) event = (e.select? s event).map fun r => (r.1, r.2.send ev) := by
  refine ⟨?_, ?_, ?_⟩
  · intro s k h hlive
    obtain ⟨dequeued, htaken, hacc⟩ := h.tallies hempty hlive
    exact ⟨dequeued, htaken, hacc.interleaving⟩
  · intro bound rs s hstop hserved
    obtain ⟨sent, hrun⟩ := Runs.beginning.exists_served_all hstop hserved
    exact ⟨[] ++ sent, .between hrun⟩
  · intro s event ev
    have hselect := (Alike.refl e).select? event s (Session.surrounds_send ev)
    exact hselect

end Engine

/-- A bell that is rung on entry. -/
def doorbell : ChartDecl :=
  (ChartDecl.plain "Doorbell").withState ((StateDecl.plain "hall").withEntry "press")

namespace Engine

/-- Its action sends an event. -/
def ringing : Engine Unit where
  chart := doorbell.chart
  host := { guard := fun _ _ s => (.ok true, s)
            action := fun _ _ s => { state := s, sent := [.external "ring"] } }
  id := .nil

/-- Somebody has knocked before the bell is rung in the middle of the first entry. -/
theorem ringing_interleaved : ∃ s k, Point ringing { host := () } s k ∧ s.status ≠ .final ∧
    k.direct = [.external "knock"] ∧ k.sent = [.external "ring"] ∧
    s.queues.external = [.external "knock"] ∧ s.queues.handOff = [.external "ring"] ∧
    ∃ dequeued, s.taken = [] ++ dequeued ∧ Interleaving
      (dequeued.filter (·.origin = .external) ++ s.queues.external ++ s.queues.handOff)
      k.direct k.sent := by
  let s₀ : Session Unit := { host := () }
  have hcommands : (Script.start? ringing.chart).map (·.commands) =
      some [.occupy 1, .call ⟨"press", .entry, 1⟩] := by decide +kernel
  obtain ⟨script, hscript, hcommands⟩ := Option.map_eq_some_iff.mp hcommands
  have hknock : Runs ringing s₀ .resting _ _ := Runs.beginning.move (.keep (.external "knock") rfl)
  have henter := hknock.move (.enter rfl hscript)
  rw [hcommands] at henter
  have hring := ((henter.move (.command nofun)).move .call).move .send
  have hpoint := Point.between hring
  have hempty : s₀.queues = {} := rfl
  exact ⟨_, _, hpoint, nofun, rfl, rfl, rfl, rfl,
    (external_events_interleaved hempty).1 _ _ hpoint nofun⟩

end Engine

end Statechart

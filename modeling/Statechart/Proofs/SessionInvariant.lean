import Statechart.Proofs.RunToCompletion

/-!
Invariants of sessions. A request is little more than its turns: a first entry or an event queued
before them, or, in place of turns, an event sent or everything exited. What all of these keep holds
of every session that requests lead to.
-/
namespace Statechart.Engine

variable {σ : Type} {e : Engine σ} {P : Session σ → Prop} {s : Session σ} {m : Macrostep σ}
  {a : Answer σ}

/-- What holds of a fresh session and is kept by all that is done to a session. -/
structure Upholds (e : Engine σ) (P : Session σ → Prop) : Prop where
  fresh : ∀ host, P { host }
  entered : ∀ s script, Reachable e s → s.status = .idle →
    Script.start? e.chart = some script → P s → P (e.entered s script)
  opened : ∀ s progressed, s.isRunning = true → P s → P (opening s progressed).session
  queued : ∀ s ev, s.status ≠ .final → P s → P { s with queues := s.queues.push ev }
  sent : ∀ s ev, P s → P (s.send ev)
  turn : ∀ m t, Visits e m → e.turn? m = some t → P m.session → P t.session
  stopped : ∀ s, Reachable e s → s.status ≠ .idle → P s → P (e.stop s).session

namespace Upholds

variable (up : Upholds e P)
include up

theorem turns (hm : Visits e m) {n : Nat} (h : e.turns? n m = some a) (hp : P m.session) :
    P a.session := by
  obtain ⟨m', ⟨hm', hp'⟩, hlast⟩ := exists_last_turn
    (P := fun m => Visits e m ∧ P m.session) ⟨hm, hp⟩
    (fun _ _ hm ht => ⟨hm.1.turn ht, up.turn _ _ hm.1 ht hm.2⟩) h
  exact up.turn m' _ hm' hlast hp'

theorem run {bound : Nat} {progressed : Bool} (hp : P s)
    (hvisits : s.isRunning = true → Visits e (opening s progressed))
    (h : e.run? bound s progressed = some a) : P a.session := by
  rcases run?_cases h with ⟨hrun, hturns⟩ | ⟨hsame, -⟩
  · exact up.turns (hvisits hrun) hturns (up.opened s progressed hrun hp)
  · rw [hsame]
    exact hp

theorem serve {bound : Nat} {r : Request} (hs : Reachable e s) (hp : P s)
    (h : e.serve? bound s r = some a) : P a.session := by
  cases r with
  | start =>
    simp only [serve?, start?_eq] at h
    split at h
    · rename_i hidle
      cases hscript : Script.start? e.chart with
      | none => simp [hscript] at h
      | some script =>
        simp only [hscript] at h
        exact up.run (up.entered s script hs hidle hscript hp)
          (fun hrun => .begins hs (.start hidle hscript hrun)) h
    · obtain rfl := Option.some.inj h
      exact hp
  | stop =>
    obtain rfl := Option.some.inj h
    by_cases hidle : s.status = .idle
    · simpa [stop, hidle] using hp
    · exact up.stopped s hs hidle hp
  | submit ev =>
    simp only [serve?, submit?] at h
    split at h
    · obtain rfl := Option.some.inj h
      exact hp
    · rename_i hfinal
      exact up.run (up.queued s ev hfinal hp) (fun hrun => .begins hs (.submit ev hrun)) h
  | process => exact up.run hp (fun hrun => .begins hs (.process hrun)) h
  | send ev =>
    obtain rfl := Option.some.inj h
    exact up.sent s ev hp

/-- It holds whenever a request has been served. -/
theorem reachable (h : Reachable e s) : P s := by
  induction h with
  | fresh host => exact up.fresh host
  | served bound r hs ha ih => exact up.serve hs ih ha

end Upholds

end Statechart.Engine

import Statechart.Checkpoint.Restore
import Statechart.Proofs.Alike

/-!
Going on with a session. Whatever is done with a session, one step after the other, interpreters that
run alike give the same replies and pass through the same sessions; only the checkpoints that they
write name the interpreter's own session.
-/
namespace Statechart

variable {σ : Type}

/-- What can be done with a session: serve a request within so many turns, save it, restore it. -/
inductive Use where
  | serve (bound : Nat) (r : Request)
  | save (id : Uuid) (timestamp : Timestamp)
  | restore (c : Checkpoint)

inductive Reply where
  | served (verdict : Except EngineError Unit)
  | saved (c : Checkpoint)
  | restored (verdict : Except CheckpointError Unit)

/-- The reply as the interpreter of another session would give it. -/
def Reply.inSession (id : Uuid) : Reply → Reply
  | .saved c => .saved { c with session := id }
  | reply => reply

namespace Engine

variable {e e' : Engine σ} {s : Session σ}

def use? (e : Engine σ) (s : Session σ) : Use → Option (Reply × Session σ)
  | .serve bound r => (e.serve? bound s r).map fun a => (.served a.verdict, a.session)
  | .save id timestamp => some (.saved (e.checkpoint s id timestamp), s)
  | .restore c =>
    match e.restore s c with
    | .ok s' => some (.restored (.ok ()), s')
    | .error error => some (.restored (.error error), s)

/-- One use after the other, as long as each comes to an end. -/
def uses? (e : Engine σ) (s : Session σ) : List Use → Option (List (Reply × Session σ))
  | [] => some []
  | u :: us => (e.use? s u).bind fun r => (e.uses? r.2 us).map (r :: ·)

/-- The same, told in another session and after an older trace. -/
def retold (id : Uuid) (past : Array Occurrence) (r : Reply × Session σ) : Reply × Session σ :=
  (r.1.inSession id, r.2.after past)

namespace Alike

variable (alike : e.Alike e') (past : Array Occurrence)
include alike

theorem stateNamed : e'.stateNamed = e.stateNamed := by
  funext name
  simp only [Engine.stateNamed, alike.chart]

theorem restoreRecord : e'.restoreRecord = e.restoreRecord := by
  funext m r
  simp only [Engine.restoreRecord, Engine.checkRecorded, alike.stateNamed, alike.chart]

/-- What is restored does not depend on the trace. -/
theorem restore (s : Session σ) (c : Checkpoint) :
    e'.restore (s.after past) c = (e.restore s c).map (·.after past) := by
  change _ = (·.after past) <$> e.restore s c
  simp only [Engine.restore, Engine.checkConfiguration, alike.chart, alike.stateNamed,
    alike.restoreRecord, map_bind, map_pure]
  rfl

variable (hlimit : e'.settings.microstepLimit = e.settings.microstepLimit)
include hlimit

theorem use? (s : Session σ) (u : Use) :
    e'.use? (s.after past) u = (e.use? s u).map (retold e'.id past) := by
  cases u with
  | serve bound r =>
    simp only [Engine.use?, alike.serve? past s hlimit, Option.map_map]
    rfl
  | save id timestamp =>
    simp only [Engine.use?, checkpoint, alike.chart]
    rfl
  | restore c =>
    simp only [Engine.use?, alike.restore]
    cases e.restore s c <;> rfl

/-- Alike interpreters go on alike. -/
theorem uses? (s : Session σ) (us : List Use) :
    e'.uses? (s.after past) us = (e.uses? s us).map (List.map (retold e'.id past)) := by
  induction us generalizing s with
  | nil => rfl
  | cons u us ih =>
    simp only [Engine.uses?, alike.use? past hlimit]
    cases e.use? s u with
    | none => rfl
    | some r =>
      simp only [Option.map_some, Option.bind_some, retold, ih, Option.map_map]
      rfl

end Alike

end Engine

end Statechart

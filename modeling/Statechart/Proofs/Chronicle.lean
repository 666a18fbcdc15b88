import Statechart.Proofs.InitialEntry
import Statechart.Proofs.Recording
import Statechart.Proofs.Run

/-!
Chronicles. Every point of a run has behind it the microsteps made since the last start, and what
the memory holds there can be read off them: under a history state, what was active when its parent
was exited the last time.
-/
namespace Statechart

open Command (applyAll)

/-- A microstep of a run: the configuration just before it, and the script followed. -/
structure Passage where
  before : Configuration
  script : Script

/-- A point of a run, between two requests or between two turns. -/
inductive Moment (σ : Type) where
  | resting (s : Session σ)
  | turning (m : Macrostep σ)

variable {σ : Type}

def Moment.session : Moment σ → Session σ
  | .resting s => s
  | .turning m => m.session

def Turn.moment : Turn σ → Moment σ
  | .next m => .turning m
  | .done a => .resting a.session

theorem Turn.session_moment (t : Turn σ) : t.moment.session = t.session := by
  cases t <;> rfl

/-- What is told of the past once a request is accepted: a start begins anew. -/
def Request.since (r : Request) (s : Session σ) (past : List Passage) : List Passage :=
  match r with
  | .start => if s.status = .idle then [] else past
  | _ => past

namespace Engine

variable {e : Engine σ} {m m' : Macrostep σ} {s : Session σ} {t : Turn σ} {a : Answer σ}
  {r : Request} {moment : Moment σ} {past new : List Passage} {h q : Nat}
  {I : Configuration → Memory → Prop}

/-- The microstep made in a turn, if one is made. Leaving everything on a stop is not one. -/
inductive Makes (e : Engine σ) (m : Macrostep σ) : Turn σ → List Passage → Prop
  | step {m₀ : Macrostep σ} {event : Option Event} {ranks : List Nat} {s : Session σ}
      {script : Script} : m.session.status ≠ .final → Asks e m m₀ event →
      e.select? m₀.session event = some (ranks, s) → ranks ≠ [] →
      e.settings.exceeded? (m₀.microsteps + 1) = none →
      Script.take? e.chart s.configuration s.memory (ranks.map e.chart.transition) = some script →
      Makes e m (.next ⟨e.follow s script event, m₀.microsteps + 1, true⟩)
        [⟨s.configuration, script⟩]
  | exceeded {m₀ : Macrostep σ} {event : Option Event} {ranks : List Nat} {s : Session σ}
      {limit : Nat} : m.session.status ≠ .final → Asks e m m₀ event →
      e.select? m₀.session event = some (ranks, s) → ranks ≠ [] →
      e.settings.exceeded? (m₀.microsteps + 1) = some limit →
      Makes e m (.done (giveUp s limit)) []
  | final : m.session.status = .final → Makes e m (.done ⟨.ok (), m.session⟩) []
  | drop {m₀ : Macrostep σ} {ev : Event} {s : Session σ} : m.session.status ≠ .final →
      Asks e m m₀ (some ev) → e.select? m₀.session (some ev) = some ([], s) →
      Makes e m (.next { m₀ with session := e.drop s ev }) []
  | stable {s : Session σ} : m.session.status ≠ .final →
      e.select? m.session none = some ([], s) → s.queues.popInternal? = none →
      s.queues.drain.popExternal? = none →
      Makes e m (.done ⟨.ok (), { awaiting m s with queues := s.queues.drain }⟩) []

theorem exists_makes (ht : e.turn? m = some t) : ∃ new, Makes e m t new := by
  cases comes_of_turn? ht with
  | final hfinal => exact ⟨[], .final hfinal⟩
  | step hrun hasks hsel hne hstep =>
    rcases step?_eq_some hstep with ⟨limit, hlimit, rfl⟩ | ⟨script, hlimit, hscript, rfl⟩
    · have hmakes := Makes.exceeded hrun hasks hsel hne hlimit
      exact ⟨[], hmakes⟩
    · have hmakes := Makes.step hrun hasks hsel hne hlimit hscript
      exact ⟨_, hmakes⟩
  | drop hrun hasks hsel => exact ⟨[], .drop hrun hasks hsel⟩
  | stable hrun hsel hpop hext => exact ⟨[], .stable hrun hsel hpop hext⟩

/-- A turn does what the script of its microstep says, and nothing without one. -/
theorem Makes.spec (hm : Makes e m t new) :
    new = [] ∧ t.session.configuration = m.session.configuration ∧
        t.session.memory = m.session.memory ∨
      ∃ (ranks : List Nat) (script : Script), new = [⟨m.session.configuration, script⟩] ∧
        Script.take? e.chart m.session.configuration m.session.memory
          (ranks.map e.chart.transition) = some script ∧
        t.session.configuration = applyAll m.session.configuration script.commands ∧
        t.session.memory = script.memory := by
  cases hm with
  | @step m₀ event ranks s script _ hasks hsel _ _ hscript =>
    obtain ⟨hc, hmem⟩ := hasks.same
    obtain ⟨hsame, -, -⟩ := e.select?_spec hsel
    have hfollow := e.followed_follow event s script
    rw [← hc, ← hmem, ← hsame.configuration, ← hsame.memory]
    exact .inr ⟨ranks, script, rfl, hscript, hfollow.configuration, hfollow.memory⟩
  | exceeded _ hasks hsel _ _ =>
    obtain ⟨hc, hmem⟩ := hasks.same
    obtain ⟨hsame, -, -⟩ := e.select?_spec hsel
    exact .inl ⟨rfl, hsame.configuration.trans hc, hsame.memory.trans hmem⟩
  | final _ => exact .inl ⟨rfl, rfl, rfl⟩
  | drop _ hasks hsel =>
    obtain ⟨hc, hmem⟩ := hasks.same
    obtain ⟨hsame, -, -⟩ := e.select?_spec hsel
    refine .inl ⟨rfl, ?_, ?_⟩
    · simp only [Turn.session, Engine.drop]
      split <;> exact hsame.configuration.trans hc
    · simp only [Turn.session, Engine.drop]
      split <;> exact hsame.memory.trans hmem
  | @stable s _ hsel _ _ =>
    obtain ⟨hsame, -, -⟩ := e.select?_spec hsel
    obtain ⟨hc, hmem, -⟩ := awaiting_spec m s
    exact .inl ⟨rfl, hc.trans hsame.configuration, hmem.trans hsame.memory⟩

/-- The points of all runs, with the microsteps made since the last start. -/
inductive Recounts (e : Engine σ) : Moment σ → List Passage → Prop
  | fresh (host : σ) : Recounts e (.resting { host }) []
  | answered {s : Session σ} {past : List Passage} {r : Request} {a : Answer σ} (bound : Nat) :
      Recounts e (.resting s) past → (∀ m, ¬Begins e s r m) → e.serve? bound s r = some a →
      Recounts e (.resting a.session) (r.since s past)
  | begins {s : Session σ} {past : List Passage} {r : Request} {m : Macrostep σ} :
      Recounts e (.resting s) past → Begins e s r m → Recounts e (.turning m) (r.since s past)
  | turn {m : Macrostep σ} {past new : List Passage} {t : Turn σ} :
      Recounts e (.turning m) past → e.turn? m = some t → Makes e m t new →
      Recounts e t.moment (past ++ new)

/-! ### Every point of a run has a past -/

theorem Recounts.exists_of_turns (hm : Recounts e (.turning m) past) {n : Nat}
    (ht : e.turns? n m = some a) : ∃ past', Recounts e (.resting a.session) past' := by
  have hone {m' : Macrostep σ} {t : Turn σ} (hm' : ∃ past, Recounts e (.turning m') past)
      (hturn : e.turn? m' = some t) : ∃ past, Recounts e t.moment past := by
    obtain ⟨past, hpast⟩ := hm'
    obtain ⟨new, hnew⟩ := exists_makes hturn
    exact ⟨_, hpast.turn hturn hnew⟩
  obtain ⟨m', hm', hlast⟩ := exists_last_turn
    (P := fun m => ∃ past, Recounts e (.turning m) past) ⟨past, hm⟩
    (fun _ _ hm' hturn => hone hm' hturn) ht
  exact hone hm' hlast

theorem exists_recounts (hs : Reachable e s) : ∃ past, Recounts e (.resting s) past := by
  induction hs with
  | fresh host => exact ⟨[], .fresh host⟩
  | @served s a bound r _ ha ih =>
    obtain ⟨past, hpast⟩ := ih
    by_cases hb : ∃ m, Begins e s r m
    · obtain ⟨m, hb⟩ := hb
      rw [serve?_of_begins hb] at ha
      exact (hpast.begins hb).exists_of_turns ha
    · exact ⟨_, hpast.answered bound (fun m hm => hb ⟨m, hm⟩) ha⟩

theorem exists_recounts_of_visits (hm : Visits e m) : ∃ past, Recounts e (.turning m) past := by
  induction hm with
  | begins hs hb =>
    obtain ⟨past, hpast⟩ := exists_recounts hs
    exact ⟨_, hpast.begins hb⟩
  | turn _ ht ih =>
    obtain ⟨past, hpast⟩ := ih
    obtain ⟨new, hnew⟩ := exists_makes ht
    exact ⟨_, hpast.turn ht hnew⟩

theorem Invariant.recounts (inv : Invariant e I) (hm : Recounts e moment past) :
    I moment.session.configuration moment.session.memory := by
  induction hm with
  | fresh host => exact inv.fresh
  | answered bound _ _ ha ih => exact inv.serve ha ih
  | begins _ hb ih => exact inv.begins hb ih
  | turn _ ht _ ih =>
    rw [Turn.session_moment]
    exact inv.turn ht ih

/-! ### What the memory holds -/

/-- What the past has left under a history state `h` of `q`: each exit of `q` replaces the
record. -/
def recollect (c : Chart) (h q : Nat) (past : List Passage) : Option (List Nat) :=
  past.foldl (fun old p => if q ∈ p.script.exited then some (c.recorded p.before h) else old) none

theorem recollect_append (c : Chart) (h q : Nat) (past new : List Passage) :
    recollect c h q (past ++ new) = new.foldl
      (fun old p => if q ∈ p.script.exited then some (c.recorded p.before h) else old)
      (recollect c h q past) :=
  List.foldl_append

theorem foldl_of_not_exited {c : Chart} (hnew : ∀ p ∈ new, q ∉ p.script.exited)
    (old : Option (List Nat)) :
    new.foldl (fun old p => if q ∈ p.script.exited then some (c.recorded p.before h) else old)
      old = old := by
  induction new with
  | nil => rfl
  | cons p ps ih =>
    rw [List.foldl_cons, if_neg (hnew p (by simp))]
    exact ih fun p' hp' => hnew p' (by simp [hp'])

theorem recollect_of_never {c : Chart} (hpast : ∀ p ∈ past, q ∉ p.script.exited) :
    recollect c h q past = none := foldl_of_not_exited hpast none

theorem recollect_of_last {c : Chart} {earlier later : List Passage} {p : Passage}
    (hp : q ∈ p.script.exited) (hlater : ∀ p' ∈ later, q ∉ p'.script.exited) :
    recollect c h q (earlier ++ p :: later) = some (c.recorded p.before h) := by
  rw [recollect_append, List.foldl_cons, if_pos hp, foldl_of_not_exited hlater]

/-- Starting forgets everything. -/
theorem memory_entered {script : Script} (hs : Script.start? e.chart = some script)
    (s : Session σ) : (e.entered s script).memory = {} := by
  obtain ⟨-, -, -, -, -, hempty⟩ := Script.start?_spec hs
  exact (e.followed_follow none _ script).memory.trans hempty

theorem memory_of_begins (hb : Begins e s r m) (hs : s.memory.get? h = recollect e.chart h q past) :
    m.session.memory.get? h = recollect e.chart h q (r.since s past) := by
  cases hb with
  | @start script hidle hscript _ =>
    simp only [opening, memory_entered hscript, Request.since, hidle, if_true]
    rfl
  | submit event _ => exact hs
  | process _ => exact hs

theorem run?_of_not_running {bound : Nat} {progressed : Bool} (hrun : ¬s.isRunning = true) :
    e.run? bound s progressed = some ⟨.ok (), s⟩ := by rw [run?, if_neg hrun]

theorem memory_of_answered {bound : Nat} (hno : ∀ m, ¬Begins e s r m)
    (ha : e.serve? bound s r = some a) (hs : s.memory.get? h = recollect e.chart h q past) :
    a.session.memory.get? h = recollect e.chart h q (r.since s past) := by
  cases r with
  | start =>
    simp only [serve?, start?_eq] at ha
    simp only [Request.since]
    split at ha
    · rename_i hidle
      rw [if_pos hidle]
      cases hscript : Script.start? e.chart with
      | none => simp [hscript] at ha
      | some script =>
        have hrun : ¬(e.entered s script).isRunning = true :=
          fun hrun => hno _ (.start hidle hscript hrun)
        simp only [hscript] at ha
        obtain rfl := Option.some.inj ((run?_of_not_running hrun).symm.trans ha)
        exact congrArg (Memory.get? · h) (memory_entered hscript s)
    · rename_i hidle
      rw [if_neg hidle]
      exact Option.some.inj ha ▸ hs
  | stop =>
    obtain rfl := Option.some.inj ha
    by_cases hidle : s.status = .idle
    · simp only [Engine.stop, hidle, if_true]
      exact hs
    · rw [(e.followed_stop s hidle).memory]
      exact hs
  | submit event =>
    simp only [serve?, submit?] at ha
    split at ha
    · exact Option.some.inj ha ▸ hs
    · have hrun : ¬({ s with queues := s.queues.push event } : Session σ).isRunning = true :=
        fun hrun => hno _ (.submit event hrun)
      obtain rfl := Option.some.inj ((run?_of_not_running hrun).symm.trans ha)
      exact hs
  | process =>
    have hrun : ¬s.isRunning = true := fun hrun => hno _ (.process hrun)
    obtain rfl := Option.some.inj ((run?_of_not_running hrun).symm.trans ha)
    exact hs
  | send event => exact Option.some.inj ha ▸ hs

/-- The memory holds what the past has left. -/
theorem Recounts.get?_memory (wf : e.chart.WellFormed) (hm : Recounts e moment past)
    (hh : e.chart.isHistory h = true) (hq : e.chart.parent h = some q) :
    moment.session.memory.get? h = recollect e.chart h q past := by
  induction hm with
  | fresh host => rfl
  | answered bound _ hno ha ih => exact memory_of_answered hno ha ih
  | begins _ hb ih => exact memory_of_begins hb ih
  | @turn m past new t _ _ hmakes ih =>
    rw [Turn.session_moment, recollect_append, ← ih]
    rcases hmakes.spec with ⟨rfl, -, hmem⟩ | ⟨ranks, script, rfl, hscript, -, hmem⟩
    · rw [hmem]
      rfl
    · obtain ⟨exits, outside, plan, made⟩ := Script.made_of_take? hscript
      rw [hmem, made.memory_eq, Chart.get?_recordHistory wf]
      refine if_congr ?_ rfl rfl
      rw [made.mem_exited]
      simp [hh, hq]

end Engine

end Statechart

import Statechart.Proofs.Turn

/-!
Runs. A session is driven by requests, each of which is served in turns. What holds of the active
states and the memory at first, and is kept by every microstep, holds whenever a request has been
served and at every turn on the way.
-/
namespace Statechart

open Command (applyAll)

/-- What can be asked of a session. -/
inductive Request where
  | start
  | stop
  | submit (event : Event)
  | process
  | send (event : Event)

def Turn.session {σ : Type} : Turn σ → Session σ
  | .next m => m.session
  | .done a => a.session

theorem Session.not_final_of_isRunning {σ : Type} {s : Session σ} (h : s.isRunning = true) :
    s.status ≠ .final := by
  intro hfinal
  simp [isRunning, hfinal, Status.isRunning] at h

namespace Engine

variable {σ : Type} {e : Engine σ} {m m' : Macrostep σ} {s : Session σ} {t : Turn σ}
  {a : Answer σ} {I : Configuration → Memory → Prop}

def serve? (e : Engine σ) (bound : Nat) (s : Session σ) : Request → Option (Answer σ)
  | .start => e.start? bound s
  | .stop => some (e.stop s)
  | .submit event => e.submit? bound s event
  | .process => e.process? bound s
  | .send event => some ⟨.ok (), s.send event⟩

/-- The sessions that requests lead to. -/
inductive Reachable (e : Engine σ) : Session σ → Prop
  | fresh (host : σ) : Reachable e { host }
  | served {s : Session σ} {a : Answer σ} (bound : Nat) (r : Request) :
      Reachable e s → e.serve? bound s r = some a → Reachable e a.session

/-- Requests that are all served lead on. -/
theorem Reachable.served_all {s' : Session σ} {bound : Nat} {rs : List Request} (hs : Reachable e s)
    (h : rs.foldlM (fun s r => (e.serve? bound s r).map (·.session)) s = some s') :
    Reachable e s' := by
  induction rs generalizing s with
  | nil => exact Option.some.inj h ▸ hs
  | cons r rs ih =>
    obtain ⟨s₁, hs₁, hrest⟩ := Option.bind_eq_some_iff.mp h
    obtain ⟨a, ha, rfl⟩ := Option.map_eq_some_iff.mp hs₁
    exact ih (hs.served bound r ha) hrest

/-- The session after the first entry. -/
def entered (e : Engine σ) (s : Session σ) (script : Script) : Session σ :=
  e.follow { s with status := .stabilizing, configuration := StateSet.empty } script none

/-- The first macrostep of a request. -/
def opening (s : Session σ) (progressed : Bool) : Macrostep σ :=
  { session := { s with status := .stabilizing, queues := s.queues.drain }, progressed }

inductive Begins (e : Engine σ) (s : Session σ) : Request → Macrostep σ → Prop
  | start {script : Script} : s.status = .idle → Script.start? e.chart = some script →
      (e.entered s script).isRunning = true →
      Begins e s .start (opening (e.entered s script) true)
  | submit (event : Event) : s.isRunning = true →
      Begins e s (.submit event) (opening { s with queues := s.queues.push event } false)
  | process : s.isRunning = true → Begins e s .process (opening s false)

/-- The macrosteps that the requests of a run pass through. -/
inductive Visits (e : Engine σ) : Macrostep σ → Prop
  | begins {s : Session σ} {r : Request} {m : Macrostep σ} :
      Reachable e s → Begins e s r m → Visits e m
  | turn {m m' : Macrostep σ} : Visits e m → e.turn? m = some (.next m') → Visits e m'

/-- The microsteps of all runs: the session before, the transitions taken, the microstep as it has
been made and the session after. Each is the first entry of a start, the one that a turn makes, or
the exits of a stop. -/
inductive Performs (e : Engine σ) : Session σ → List Nat → Microstep σ → Session σ → Prop
  | entry {s : Session σ} {w : Microstep σ} : Reachable e s → s.status = .idle →
      e.enterInitial? none s.blank = some w → Performs e s.blank [] w (e.settle none w)
  | step {m m₀ : Macrostep σ} {event : Option Event} {ranks : List Nat} {s : Session σ}
      {w : Microstep σ} : Visits e m → Asks e m m₀ event →
      e.select? m₀.session event = some (ranks, s) → ranks ≠ [] →
      e.take? event (ranks.map e.chart.transition) s = some w →
      e.turn? m = some (.next ⟨e.settle event w, m₀.microsteps + 1, true⟩) →
      Performs e s ranks w (e.settle event w)
  | exit {s : Session σ} : Reachable e s → s.status ≠ .idle →
      Performs e s [] (e.exitAll none s) (e.stop s).session

/-- The transitions may be selected in this configuration: they are chosen among some that active
states offer. -/
def Offers (c : Chart) (x : Configuration) (m : Memory) (ranks : List Nat) : Prop :=
  ∃ rs, c.choose? x m rs = some ranks ∧ ∀ r ∈ rs, ∃ q ∈ x, r ∈ (c.node q).transitions

/-- What holds at first and is kept by every script. -/
structure Invariant (e : Engine σ) (I : Configuration → Memory → Prop) : Prop where
  fresh : I StateSet.empty {}
  start : ∀ script, Script.start? e.chart = some script →
    I (applyAll StateSet.empty script.commands) script.memory
  step : ∀ x m ranks script, I x m → Offers e.chart x m ranks → ranks ≠ [] →
    Script.take? e.chart x m (ranks.map e.chart.transition) = some script →
    I (applyAll x script.commands) script.memory
  stop : ∀ x m, I x m → I (applyAll x (Script.stop e.chart x m).commands) m

theorem offers_of_select? {s' : Session σ} {event : Option Event} {ranks : List Nat}
    (h : e.select? s event = some (ranks, s')) :
    Offers e.chart s'.configuration s'.memory ranks := by
  obtain ⟨hsame, -, rs, hchoose, hmem⟩ := e.select?_spec h
  rw [hsame.configuration, hsame.memory]
  exact ⟨rs, hchoose, hmem⟩

/-- A request that begins a macrostep is served by its turns. -/
theorem serve?_of_begins {r : Request} (h : Begins e s r m) (bound : Nat) :
    e.serve? bound s r = e.turns? bound m := by
  cases h with
  | start hidle hscript hrun =>
    simp only [entered] at hrun
    simp only [serve?, start?_eq, hidle, if_true, hscript, run?, hrun]
    rfl
  | submit event hrun =>
    have hlive : s.status ≠ .final := Session.not_final_of_isRunning hrun
    have hrun' : ({ s with queues := s.queues.push event } : Session σ).isRunning = true := hrun
    simp only [serve?, submit?, hlive, if_false, run?, hrun', if_true]
    rfl
  | process hrun =>
    simp only [serve?, process?, run?, hrun, if_true]
    rfl

/-- Only microsteps change which states are active. -/
theorem performs_or_unchanged (hm : Visits e m) (h : e.turn? m = some t) :
    t.session.configuration = m.session.configuration ∨
      ∃ s ranks w, Performs e s ranks w t.session := by
  cases comes_of_turn? h with
  | final _ => exact .inl rfl
  | step _ hasks hsel hne hstep =>
    obtain ⟨hc, -⟩ := hasks.same
    obtain ⟨hsame, -, -⟩ := e.select?_spec hsel
    rcases step?_eq_some hstep with ⟨limit, -, rfl⟩ | ⟨script, -, hscript, rfl⟩
    · exact .inl (hsame.configuration.trans hc)
    · refine .inr ⟨_, _, e.play _ _ script, .step hm hasks hsel hne ?_ h⟩
      rw [take?_eq, hscript, Option.map_some]
  | drop _ hasks hsel =>
    obtain ⟨hc, -⟩ := hasks.same
    obtain ⟨hsame, -, -⟩ := e.select?_spec hsel
    refine .inl ?_
    simp only [Turn.session, Engine.drop]
    split <;> exact hsame.configuration.trans hc
  | stable _ hsel _ _ =>
    obtain ⟨hsame, -, -⟩ := e.select?_spec hsel
    exact .inl ((awaiting_spec m _).1.trans hsame.configuration)

/-- What every microstep taken in a run keeps. -/
def Keeps (e : Engine σ) (I : Configuration → Memory → Prop) : Prop :=
  ∀ x m ranks script, I x m → Offers e.chart x m ranks → ranks ≠ [] →
    Script.take? e.chart x m (ranks.map e.chart.transition) = some script →
    I (applyAll x script.commands) script.memory

namespace Keeps

variable (keeps : Keeps e I)
include keeps

/-- One turn. -/
theorem turn (h : e.turn? m = some t) (hm : I m.session.configuration m.session.memory) :
    I t.session.configuration t.session.memory := by
  cases comes_of_turn? h with
  | final _ => exact hm
  | step _ hasks hsel hne hstep =>
    obtain ⟨hc, hmem⟩ := hasks.same
    obtain ⟨hsame, -, -⟩ := e.select?_spec hsel
    have hoff := offers_of_select? hsel
    rw [← hc, ← hmem, ← hsame.configuration, ← hsame.memory] at hm
    rcases step?_eq_some hstep with ⟨limit, -, rfl⟩ | ⟨script, -, hscript, rfl⟩
    · exact hm
    · simp only [Turn.session]
      rw [(e.followed_follow _ _ script).configuration, (e.followed_follow _ _ script).memory]
      exact keeps _ _ _ script hm hoff hne hscript
  | drop _ hasks hsel =>
    obtain ⟨hc, hmem⟩ := hasks.same
    obtain ⟨hsame, -, -⟩ := e.select?_spec hsel
    rw [← hc, ← hmem, ← hsame.configuration, ← hsame.memory] at hm
    simp only [Turn.session, Engine.drop]
    split <;> exact hm
  | stable _ hsel _ _ =>
    obtain ⟨hsame, -, -⟩ := e.select?_spec hsel
    rw [← hsame.configuration, ← hsame.memory] at hm
    obtain ⟨hc, hmem, -⟩ := awaiting_spec m _
    simp only [Turn.session]
    rw [hc, hmem]
    exact hm

theorem turns {n : Nat} (h : e.turns? n m = some a)
    (hm : I m.session.configuration m.session.memory) :
    I a.session.configuration a.session.memory := by
  obtain ⟨m', hm', hlast⟩ := exists_last_turn
    (P := fun m => I m.session.configuration m.session.memory) hm
    (fun _ _ hm ht => keeps.turn ht hm) h
  exact keeps.turn hlast hm'

theorem run {bound : Nat} {progressed : Bool} (h : e.run? bound s progressed = some a)
    (hs : I s.configuration s.memory) : I a.session.configuration a.session.memory := by
  unfold run? at h
  split at h
  · exact keeps.turns h hs
  · exact Option.some.inj h ▸ hs

end Keeps

namespace Invariant

variable (inv : Invariant e I)
include inv

theorem keeps : Keeps e I := inv.step

/-- One turn. -/
theorem turn (h : e.turn? m = some t) (hm : I m.session.configuration m.session.memory) :
    I t.session.configuration t.session.memory :=
  inv.keeps.turn h hm

theorem run {bound : Nat} {progressed : Bool} (h : e.run? bound s progressed = some a)
    (hs : I s.configuration s.memory) : I a.session.configuration a.session.memory :=
  inv.keeps.run h hs

theorem entered {script : Script} (h : Script.start? e.chart = some script) (s : Session σ) :
    I (e.entered s script).configuration (e.entered s script).memory := by
  have hfollow := e.followed_follow none
    { s with status := .stabilizing, configuration := StateSet.empty } script
  rw [Engine.entered, hfollow.configuration, hfollow.memory]
  exact inv.start script h

theorem serve {bound : Nat} {r : Request} (h : e.serve? bound s r = some a)
    (hs : I s.configuration s.memory) : I a.session.configuration a.session.memory := by
  cases r with
  | start =>
    simp only [serve?, start?_eq] at h
    split at h
    · cases hscript : Script.start? e.chart with
      | none => simp [hscript] at h
      | some script =>
        simp only [hscript] at h
        exact inv.run h (inv.entered hscript s)
    · exact Option.some.inj h ▸ hs
  | stop =>
    obtain rfl := Option.some.inj h
    by_cases hidle : s.status = .idle
    · simpa [Engine.stop, hidle] using hs
    · have hstop := e.followed_stop s hidle
      rw [hstop.configuration, hstop.memory]
      exact inv.stop _ _ hs
  | submit event =>
    simp only [serve?, submit?] at h
    split at h
    · exact Option.some.inj h ▸ hs
    · apply inv.run h
      exact hs
  | process => exact inv.run h hs
  | send event =>
    obtain rfl := Option.some.inj h
    exact hs

/-- The invariant holds whenever a request has been served. -/
theorem reachable (h : Reachable e s) : I s.configuration s.memory := by
  induction h with
  | fresh host => exact inv.fresh
  | served bound r _ ha ih => exact inv.serve ha ih

theorem begins {r : Request} (h : Begins e s r m) (hs : I s.configuration s.memory) :
    I m.session.configuration m.session.memory := by
  cases h with
  | start _ hscript _ => exact inv.entered hscript s
  | submit event _ => exact hs
  | process _ => exact hs

/-- The invariant holds at every turn. -/
theorem visits (h : Visits e m) : I m.session.configuration m.session.memory := by
  induction h with
  | begins hs hbegins => exact inv.begins hbegins (inv.reachable hs)
  | turn _ ht ih => exact inv.turn ht ih

end Invariant

/-- An interpreter without guards and actions. -/
def bare (c : Chart) : Engine Unit := ⟨c, .ofTables {} {}, {}, .nil⟩

end Engine

/-- Lights for cars and for people, changing together. -/
def crossing : ChartDecl :=
  let side (name stop go : String) : StateDecl :=
    ((StateDecl.plain name).withChild
      ((StateDecl.plain stop).withTransition (.simple "change" go))).withChild
      ((StateDecl.plain go).withTransition (.simple "change" stop))
  (ChartDecl.plain "Crossing").withState
    (((StateDecl.parallel "Lights").withChild (side "Cars" "Red" "Green")).withChild
      (side "People" "Walk" "Wait"))

theorem crossing_builds : crossing.build = .ok crossing.chart :=
  ChartDecl.build_eq_chart (by decide +kernel)

end Statechart

import Statechart.Proofs.MicrostepLimit

/-!
Whether a macrostep comes to an end. The limit bounds the microsteps of a macrostep, but not the
internal events that it drops. Each dropped event is one event less, unless guards fault while it is
matched: then it leaves error events behind. A macrostep under a limit fails to end only when these
error events, matched in their turn, make guards fault again and again.
-/
namespace Statechart

open Relation (ReflTransGen)

namespace Engine

variable {σ : Type} {e : Engine σ} {m m' m₁ m₂ : Macrostep σ} {s : Session σ} {ev : Event}
  {fs : List Fault} {n : Nat} {f : Nat → Macrostep σ}

/-- The macrostep goes on with one turn. -/
def Iterates (e : Engine σ) (m m' : Macrostep σ) : Prop :=
  e.turn? m = some (.next m') ∧ ¬Rests e m

/-- The macrostep is left. -/
inductive Leaves (e : Engine σ) (m : Macrostep σ) : Prop
  | final : m.session.status = .final → Leaves e m
  | stable : m.session.status ≠ .final → Rests e m → Leaves e m
  | exceeded {a : Answer σ} {limit : Nat} : e.turn? m = some (.done a) →
      e.settings.microstepLimit = some limit → a.verdict = .error (.nonTerminating limit) →
      Leaves e m

/-- The event is dropped in the turn from `m`, and the faults are those of the guards judged to
match it. -/
inductive Drops (e : Engine σ) (m : Macrostep σ) (ev : Event) : List Fault → Macrostep σ → Prop
  | intro {m₀ : Macrostep σ} {s : Session σ} : Asks e m m₀ (some ev) →
      e.select? m₀.session (some ev) = some ([], s) →
      Drops e m ev
        (e.enabled (some ev) m₀.session.configuration.toList (m₀.session, [])).2.2
        { m₀ with session := e.drop s ev }

/-- No microstep is made between the two turns. -/
structure Still (m m' : Macrostep σ) : Prop where
  microsteps : m'.microsteps = m.microsteps
  status : m'.session.status = m.session.status
  configuration : m'.session.configuration = m.session.configuration
  memory : m'.session.memory = m.session.memory

theorem Still.refl (m : Macrostep σ) : Still m m := ⟨rfl, rfl, rfl, rfl⟩

theorem Still.trans (h₁ : Still m m₁) (h₂ : Still m₁ m₂) : Still m m₂ :=
  ⟨h₂.microsteps.trans h₁.microsteps, h₂.status.trans h₁.status,
    h₂.configuration.trans h₁.configuration, h₂.memory.trans h₁.memory⟩

/-- The macrosteps are turns of one macrostep without end, in which nothing but dropping events
happens, and again and again a guard faults while an error event is matched. -/
structure Churns (e : Engine σ) (f : Nat → Macrostep σ) : Prop where
  iterates : ∀ i, Iterates e (f i) (f (i + 1))
  drops : ∀ i, ∃ ev fs, Drops e (f i) ev fs (f (i + 1))
  still : ∀ i, Still (f 0) (f i)
  faults : ∀ i, ∃ j ≥ i, ∃ message fs, Drops e (f j) (.error message) fs (f (j + 1)) ∧ fs ≠ []
  raising : e.settings.raiseErrorEvents = true

/-! ### One turn -/

theorem Leaves.not_iterates (h : Leaves e m) : ¬Iterates e m m' := by
  rintro ⟨hturn, hno⟩
  cases h with
  | final hfinal => simp [(Comes.final hfinal).turn?] at hturn
  | stable _ hrest => exact hno hrest
  | exceeded hdone _ _ => simp [hdone] at hturn

theorem Iterates.unique (h₁ : Iterates e m m₁) (h₂ : Iterates e m m₂) : m₁ = m₂ :=
  Turn.next.inj (Option.some.inj (h₁.1.symm.trans h₂.1))

/-- A turn within a macrostep makes a microstep that the limit allows, or drops an event. -/
theorem Iterates.cases (hlimit : e.settings.microstepLimit = some n) (h : Iterates e m m') :
    m'.microsteps = m.microsteps + 1 ∧ m'.microsteps ≤ n ∨ ∃ ev fs, Drops e m ev fs m' := by
  obtain ⟨hturn, hno⟩ := h
  obtain ⟨new, hmakes⟩ := exists_makes hturn
  cases hmakes with
  | @step m₀ event ranks s script _ hasks hsel hne hmore _ =>
    refine .inl ⟨?_, by simpa [Settings.exceeded?, hlimit] using hmore⟩
    rcases hasks.counts hsel (fun _ => hne) with ⟨-, hm₀, -⟩ | ⟨hrest, -⟩
    · exact congrArg (· + 1) hm₀
    · exact absurd hrest hno
  | @drop m₀ ev s _ hasks hsel => exact .inr ⟨ev, _, .intro hasks hsel⟩

/-- Dropping an internal event leaves everything as it is, but for the error events that take its
place. -/
theorem Drops.spec (h : Drops e m ev fs m') (hno : ¬Rests e m) : Still m m' ∧
    ∃ queue, m.session.queues.internal = ev :: queue ∧
      m'.session.queues.internal = queue ++ e.errors fs := by
  cases h with
  | @intro m₀ s hasks hsel =>
    have hdrop : (e.drop s ev).queues = s.queues ∧ (e.drop s ev).status = s.status ∧
        (e.drop s ev).configuration = s.configuration ∧ (e.drop s ev).memory = s.memory := by
      simp only [drop]
      split <;> exact ⟨rfl, rfl, rfl, rfl⟩
    obtain ⟨hqueues, hstatus, hconfiguration, hmemory⟩ := hdrop
    obtain ⟨hsame, -, -⟩ := e.select?_spec hsel
    cases hasks with
    | @internal s₀ _ queues hnone hpop =>
      obtain ⟨hsame₀, -, -⟩ := e.select?_spec hnone
      obtain ⟨hq, -, -⟩ := Queues.popInternal?_eq_some hpop
      refine ⟨⟨rfl, hstatus.trans (hsame.status.trans hsame₀.status),
        hconfiguration.trans (hsame.configuration.trans hsame₀.configuration),
        hmemory.trans (hsame.memory.trans hsame₀.memory)⟩, queues.internal, ?_, ?_⟩
      · rw [← hq, queues_select? hnone]
        simp
      · simp only [hqueues]
        rw [queues_select? hsel]
        rfl
    | @external s₀ _ queues hnone hpop _ => exact absurd ⟨s₀, hnone, hpop⟩ hno

theorem Drops.faults (h : Drops e m ev fs m') : ∃ s : Session σ,
    fs = (e.enabled (some ev) s.configuration.toList (s, [])).2.2 := by
  cases h with
  | intro _ _ => exact ⟨_, rfl⟩

/-- Where the macrostep is not left it goes on. -/
theorem exists_iterates (wf : e.chart.WellFormed) (g : e.chart.Grounded)
    (hreal : ∀ q ∈ m.session.configuration, e.chart.isHistory q = false)
    (proper : m.session.memory.Proper e.chart) (h : ¬Leaves e m) : ∃ m', Iterates e m m' := by
  obtain ⟨t, ht⟩ := exists_turn?_of_proper wf g hreal proper
  obtain ⟨new, hmakes⟩ := exists_makes ht
  have hstable (hrun : m.session.status ≠ .final) : ¬Rests e m :=
    fun hrest => h (.stable hrun hrest)
  cases hmakes with
  | step hrun _ _ _ _ _ => exact ⟨_, ht, hstable hrun⟩
  | drop hrun _ _ => exact ⟨_, ht, hstable hrun⟩
  | final hfinal => exact absurd (.final hfinal) h
  | stable hrun hsel hpop _ => exact absurd ⟨_, hsel, hpop⟩ (hstable hrun)
  | @exceeded _ _ _ _ limit _ _ _ _ hmore =>
    have hlimit : e.settings.microstepLimit = some limit := by
      unfold Settings.exceeded? at hmore
      split at hmore
      · cases hmore
      · rename_i l hl
        split at hmore
        · cases hmore
        · exact hl.trans hmore
    exact absurd (.exceeded ht hlimit rfl) h

/-! ### Turns without end -/

/-- A macrostep that is never left goes on without end. -/
theorem exists_endless (wf : e.chart.WellFormed) (g : e.chart.Grounded)
    (hreal : ∀ q ∈ m.session.configuration, e.chart.isHistory q = false)
    (proper : m.session.memory.Proper e.chart)
    (h : ¬∃ m', ReflTransGen (Iterates e) m m' ∧ Leaves e m') :
    ∃ f : Nat → Macrostep σ, f 0 = m ∧ ∀ i, Iterates e (f i) (f (i + 1)) := by
  have fit (m' : Macrostep σ) (hm' : ReflTransGen (Iterates e) m m') :
      (∀ q ∈ m'.session.configuration, e.chart.isHistory q = false) ∧
        m'.session.memory.Proper e.chart := by
    induction hm' with
    | refl => exact ⟨hreal, proper⟩
    | tail _ hstep ih => exact (invariant_proper wf).turn hstep.1 ih
  have next (x : { m' // ReflTransGen (Iterates e) m m' }) : ∃ m', Iterates e x.1 m' :=
    exists_iterates wf g (fit x.1 x.2).1 (fit x.1 x.2).2 fun hleaves => h ⟨x.1, x.2, hleaves⟩
  choose succ hsucc using next
  let step (x : { m' // ReflTransGen (Iterates e) m m' }) :
      { m' // ReflTransGen (Iterates e) m m' } := ⟨succ x, x.2.tail (hsucc x)⟩
  refine ⟨fun i => (step^[i] ⟨m, .refl⟩).1, rfl, fun i => ?_⟩
  simp only [Function.iterate_succ_apply']
  exact hsucc _

section Endless

variable (hlimit : e.settings.microstepLimit = some n) (hf : ∀ i, Iterates e (f i) (f (i + 1)))
include hlimit hf

theorem microsteps_mono {i j : Nat} (hij : i ≤ j) : (f i).microsteps ≤ (f j).microsteps := by
  induction hij with
  | refl => exact le_rfl
  | @step j _ ih =>
    refine ih.trans ?_
    rcases (hf j).cases hlimit with ⟨hcount, -⟩ | ⟨ev, fs, hdrop⟩
    · exact (Nat.le_succ _).trans hcount.ge
    · exact (hdrop.spec (hf j).2).1.microsteps.ge

/-- Sooner or later no more microsteps are made. -/
theorem eventually_drops : ∃ N, ∀ i, N ≤ i → ∃ ev fs, Drops e (f i) ev fs (f (i + 1)) := by
  -- the limit less the microsteps already made, from a turn on which another one is made
  have bounded (d N : Nat) (hd : n ≤ (f N).microsteps + d) :
      ∃ N, ∀ i, N ≤ i → ∃ ev fs, Drops e (f i) ev fs (f (i + 1)) := by
    induction d generalizing N with
    | zero =>
      refine ⟨N, fun i hi => ((hf i).cases hlimit).resolve_left ?_⟩
      have := microsteps_mono hlimit hf hi
      omega
    | succ d ih =>
      by_cases hall : ∀ i, N ≤ i → ∃ ev fs, Drops e (f i) ev fs (f (i + 1))
      · exact ⟨N, hall⟩
      · push Not at hall
        obtain ⟨i, hi, hno⟩ := hall
        obtain ⟨hcount, -⟩ := ((hf i).cases hlimit).resolve_right
          fun ⟨ev, fs, hdrop⟩ => hno ev fs hdrop
        have := microsteps_mono hlimit hf hi
        exact ih (i + 1) (by omega)
  exact bounded n 0 (Nat.le_add_left n _)

end Endless

section Dropping

variable (hf : ∀ i, Iterates e (f i) (f (i + 1)))
  (hdrops : ∀ i, ∃ ev fs, Drops e (f i) ev fs (f (i + 1)))
include hf hdrops

/-- Of the events that waited at first each turn takes one, and those behind them are error
events. -/
theorem exists_errors (i : Nat) : ∃ errors : List Event,
    (f i).session.queues.internal = (f 0).session.queues.internal.drop i ++ errors ∧
      ∀ ev ∈ errors, ∃ message, ev = .error message := by
  have raised (fs : List Fault) : ∀ ev ∈ e.errors fs, ∃ message, ev = .error message := by
    intro ev hev
    unfold errors at hev
    split at hev
    · obtain ⟨fault, -, rfl⟩ := List.mem_map.mp hev
      exact ⟨fault.message, rfl⟩
    · cases hev
  induction i with
  | zero => exact ⟨[], by simp, by simp⟩
  | succ i ih =>
    obtain ⟨errors, hqueue, herrors⟩ := ih
    obtain ⟨ev, fs, hdrop⟩ := hdrops i
    obtain ⟨-, queue, hbefore, hafter⟩ := hdrop.spec (hf i).2
    rw [hbefore] at hqueue
    cases hrest : (f 0).session.queues.internal.drop i with
    | cons first rest =>
      rw [hrest, List.cons_append, List.cons.injEq] at hqueue
      have hdrop : (f 0).session.queues.internal.drop (i + 1) = rest := by
        rw [← List.drop_drop, hrest, List.drop_one, List.tail_cons]
      refine ⟨errors ++ e.errors fs, by rw [hafter, hqueue.2, hdrop, List.append_assoc], ?_⟩
      simp only [List.mem_append]
      rintro ev (hev | hev)
      · exact herrors ev hev
      · exact raised fs ev hev
    | nil =>
      rw [hrest, List.nil_append] at hqueue
      have hdrop : (f 0).session.queues.internal.drop (i + 1) = [] := by
        rw [← List.drop_drop, hrest, List.drop_nil]
      refine ⟨queue ++ e.errors fs, by rw [hafter, hdrop, List.nil_append], ?_⟩
      simp only [List.mem_append]
      rintro ev (hev | hev)
      · exact herrors ev (hqueue ▸ List.mem_cons_of_mem _ hev)
      · exact raised fs ev hev

/-- Each turn takes an event, so again and again error events must be raised. -/
theorem exists_raised (i : Nat) :
    ∃ j ≥ i, ∃ ev fs, Drops e (f j) ev fs (f (j + 1)) ∧ e.errors fs ≠ [] := by
  by_contra hnone
  push Not at hnone
  have shrinks (k : Nat) : (f (i + k)).session.queues.internal.length + k =
      (f i).session.queues.internal.length := by
    induction k with
    | zero => rfl
    | succ k ih =>
      show (f (i + k + 1)).session.queues.internal.length + (k + 1) = _
      obtain ⟨ev, fs, hdrop⟩ := hdrops (i + k)
      obtain ⟨-, queue, hbefore, hafter⟩ := hdrop.spec (hf (i + k)).2
      rw [hnone (i + k) (Nat.le_add_right i k) ev fs hdrop, List.append_nil] at hafter
      rw [hbefore, List.length_cons] at ih
      rw [hafter]
      omega
  have := shrinks ((f i).session.queues.internal.length + 1)
  omega

theorem churns : Churns e f := by
  refine ⟨hf, hdrops, fun i => ?_, fun i => ?_, ?_⟩
  · induction i with
    | zero => exact .refl _
    | succ i ih =>
      obtain ⟨ev, fs, hdrop⟩ := hdrops i
      exact ih.trans (hdrop.spec (hf i).2).1
  · -- by then all the events that waited at first are taken
    obtain ⟨j, hj, ev, fs, hdrop, hraised⟩ :=
      exists_raised hf hdrops (max i (f 0).session.queues.internal.length)
    obtain ⟨errors, hqueue, herrors⟩ := exists_errors hf hdrops j
    obtain ⟨-, queue, hbefore, -⟩ := hdrop.spec (hf j).2
    rw [List.drop_eq_nil_of_le (le_trans (le_max_right _ _) hj), List.nil_append, hbefore] at hqueue
    obtain ⟨message, rfl⟩ := herrors ev (hqueue ▸ List.mem_cons_self)
    refine ⟨j, le_trans (le_max_left _ _) hj, message, fs, hdrop, ?_⟩
    rintro rfl
    exact hraised (by simp [Engine.errors])
  · obtain ⟨j, -, ev, fs, -, hraised⟩ := exists_raised hf hdrops 0
    by_contra hoff
    exact hraised (by simp [Engine.errors, hoff])

end Dropping

theorem Churns.not_leaves (hf : Churns e f) (hreach : ReflTransGen (Iterates e) m (f 0))
    (hm' : ReflTransGen (Iterates e) m m') : ¬Leaves e m' := by
  have along (x : Macrostep σ) (hx : ReflTransGen (Iterates e) (f 0) x) : ∃ i, x = f i := by
    induction hx with
    | refl => exact ⟨0, rfl⟩
    | tail _ hstep ih =>
      obtain ⟨i, rfl⟩ := ih
      exact ⟨i + 1, hstep.unique (hf.iterates i)⟩
  intro hleaves
  rcases ReflTransGen.total_of_right_unique (fun _ _ _ h₁ h₂ => h₁.unique h₂) hm' hreach with
    hlater | hearlier
  · rcases ReflTransGen.cases_head hlater with rfl | ⟨m₁, hstep, -⟩
    · exact hleaves.not_iterates (hf.iterates 0)
    · exact hleaves.not_iterates hstep
  · obtain ⟨i, rfl⟩ := along m' hearlier
    exact hleaves.not_iterates (hf.iterates i)

/-- Whether a macrostep under a limit of microsteps ends. With a chart whose entries come to an end
it is left after finitely many turns, with the chart at its end, in a stable configuration or with
the limit exceeded, unless from some turn on nothing happens any more but that error events are
dropped whose own matching makes guards fault, each fault raising the next error event. That cannot
be when faults raise no error events, or when no guard faults while an error event is matched. -/
theorem limited_macrostep_ends_iff {d : ChartDecl} (hb : d.build = .ok e.chart)
    (g : e.chart.Grounded) (hlimit : e.settings.microstepLimit = some n) (m : Macrostep σ)
    (hreal : ∀ q ∈ m.session.configuration, e.chart.isHistory q = false)
    (proper : m.session.memory.Proper e.chart) :
    ((∃ m', ReflTransGen (Iterates e) m m' ∧ Leaves e m') ↔
      ¬∃ f, ReflTransGen (Iterates e) m (f 0) ∧ Churns e f) ∧
    ((e.settings.raiseErrorEvents = false ∨ ∀ (s : Session σ) message,
        (e.enabled (some (.error message)) s.configuration.toList (s, [])).2.2 = []) →
      ∃ m', ReflTransGen (Iterates e) m m' ∧ Leaves e m') := by
  have wf := ChartDecl.wellFormed_of_build hb
  have hiff : (∃ m', ReflTransGen (Iterates e) m m' ∧ Leaves e m') ↔
      ¬∃ f, ReflTransGen (Iterates e) m (f 0) ∧ Churns e f := by
    constructor
    · rintro ⟨m', hm', hleaves⟩ ⟨f, hreach, hf⟩
      exact hf.not_leaves hreach hm' hleaves
    · intro hno
      by_contra hnever
      obtain ⟨f, rfl, hf⟩ := exists_endless wf g hreal proper hnever
      obtain ⟨N, hdrops⟩ := eventually_drops hlimit hf
      have hreach (i : Nat) : ReflTransGen (Iterates e) (f 0) (f i) := by
        induction i with
        | zero => exact .refl
        | succ i ih => exact ih.tail (hf i)
      exact hno ⟨fun i => f (N + i), hreach N,
        churns (fun i => hf (N + i)) (fun i => hdrops (N + i) (Nat.le_add_right N i))⟩
  refine ⟨hiff, fun hquiet => hiff.mpr ?_⟩
  rintro ⟨f, -, hf⟩
  rcases hquiet with hoff | hsteady
  · simp [hf.raising] at hoff
  · obtain ⟨j, -, message, fs, hdrop, hne⟩ := hf.faults 0
    obtain ⟨s, rfl⟩ := hdrop.faults
    exact hne (hsteady s message)

end Engine

/-- A transition listens to every event, and nobody knows its guard. -/
def storm : ChartDecl where
  name := "Storm"
  states := [(StateDecl.plain "calm").withTransition (.guarded "*" "holds" "gale"),
    StateDecl.plain "gale"]

namespace Engine

def stormy : Engine Unit := (bare storm.chart).limited (some 5)

/-- The guard faults on every event, error events included. -/
theorem stormy_enabled {s : Session Unit} (hs : s.configuration = StateSet.ofList [1])
    (event : Option Event) : (stormy.enabled event s.configuration.toList (s, [])).1 = [] ∧
      (stormy.enabled event s.configuration.toList (s, [])).2.2 =
        if event.isSome then [.guard "holds" "calm" (.unknown "holds")] else [] := by
  have hrank : (stormy.chart.node 1).transitions = [0] := by decide +kernel
  have htransition : stormy.chart.transition 0 =
      ⟨0, 1, [⟨some ⟨['*']⟩, some "holds"⟩], [2], [], .external⟩ := by decide +kernel
  have hname : stormy.chart.nameOf 1 = "calm" := by decide +kernel
  rw [hs, show (StateSet.ofList [1]).toList = [1] from rfl]
  cases event with
  | none => simp [enabled, firstEnabled, judgeTransition, hrank, htransition, Transition.isEventless]
  | some ev =>
    have hjudge (w : Session Unit × List Fault) : stormy.judge (some ev) 1 w (some "holds") =
        (false, w.1.record (.judged "holds" (some ev) (.error (.unknown "holds"))),
          w.2 ++ [.guard "holds" (stormy.chart.nameOf 1) (.unknown "holds")]) := rfl
    simp [enabled, firstEnabled, judgeTransition, hrank, htransition, judgeTriggers, hjudge, hname,
      Trigger.accepts, Descriptor.accepts, Descriptor.isWildcard]

theorem stormy_select {s s' : Session Unit} (hs : s.configuration = StateSet.ofList [1])
    {event : Option Event} {ranks : List Nat}
    (h : stormy.select? s event = some (ranks, s')) : ranks = [] := by
  simp only [select?, (stormy_enabled hs event).1] at h
  obtain ⟨chosen, hchosen, h⟩ := Option.map_eq_some_iff.mp h
  obtain rfl := Option.some.inj hchosen
  exact (Prod.mk.inj h).1.symm

/-- One event waits where the storm blows. -/
structure Blows (m : Macrostep Unit) : Prop where
  status : m.session.status ≠ .final
  configuration : m.session.configuration = StateSet.ofList [1]
  waiting : ∃ ev, m.session.queues.internal = [ev]

namespace Blows

variable {m m' : Macrostep Unit} (h : Blows m)
include h

theorem not_selects {m₀ : Macrostep Unit} {event : Option Event} {ranks : List Nat}
    {s : Session Unit} (hasks : Asks stormy m m₀ event)
    (hsel : stormy.select? m₀.session event = some (ranks, s)) : ranks = [] :=
  stormy_select (hasks.same.1.trans h.configuration) hsel

theorem not_leaves : ¬Leaves stormy m := by
  intro hleaves
  cases hleaves with
  | final hfinal => exact h.status hfinal
  | stable _ hrest =>
    obtain ⟨s, hsel, hpop⟩ := hrest
    obtain ⟨ev, hev⟩ := h.waiting
    have hempty := Queues.popInternal?_eq_none hpop
    simp [queues_select? hsel, hev] at hempty
  | exceeded hturn _ hverdict =>
    obtain ⟨new, hmakes⟩ := exists_makes hturn
    cases hmakes with
    | exceeded _ hasks hsel hne _ => exact hne (h.not_selects hasks hsel)
    | final _ => cases hverdict
    | stable _ _ _ _ => cases hverdict

/-- The event is dropped, and the fault leaves another one. -/
theorem next (hstep : Iterates stormy m m') : Blows m' := by
  obtain ⟨new, hmakes⟩ := exists_makes hstep.1
  cases hmakes with
  | step _ hasks hsel hne _ _ => exact absurd (h.not_selects hasks hsel) hne
  | @drop m₀ ev s _ hasks hsel =>
    have hconfiguration := hasks.same.1.trans h.configuration
    have hdrops := Drops.intro hasks hsel
    obtain ⟨still, queue, hbefore, hafter⟩ := hdrops.spec hstep.2
    obtain ⟨ev', hev'⟩ := h.waiting
    rw [hev'] at hbefore
    obtain ⟨rfl, rfl⟩ := List.cons.inj hbefore
    rw [(stormy_enabled hconfiguration (some ev')).2] at hafter
    exact ⟨still.status ▸ h.status, still.configuration.trans h.configuration, _, hafter⟩

end Blows

/-- An event sets off a storm: its macrostep is never left, though the limit of microsteps is
five. -/
theorem storm_churns : storm.build = .ok storm.chart ∧ storm.chart.Grounded ∧
    ∃ m f, Visits stormy m ∧ ReflTransGen (Iterates stormy) m (f 0) ∧ Churns stormy f := by
  have hb : storm.build = .ok storm.chart := ChartDecl.build_eq_chart (by decide +kernel)
  have free : storm.chart.HistoryFree := by decide +kernel
  have hrun : ((stormy.serve? 1 { host := () } .start).bind fun a =>
      (stormy.turn? (opening { a.session with queues := a.session.queues.push (.external "go") }
        false)).map fun t => (a.session.isRunning, match t with
          | .next m => (m.session.status, m.session.configuration, m.session.queues.internal.length)
          | .done _ => (.final, StateSet.empty, 0))) =
      some (true, .stabilizing, StateSet.ofList [1], 1) := by decide +kernel
  obtain ⟨a, ha, hturn⟩ := Option.bind_eq_some_iff.mp hrun
  obtain ⟨t, ht, hread⟩ := Option.map_eq_some_iff.mp hturn
  cases t with
  | done _ => simp at hread
  | next m =>
    simp only [Prod.mk.injEq] at hread
    obtain ⟨hrunning, hstatus, hconfiguration, hlength⟩ := hread
    have hs : Reachable stormy a.session := .served 1 .start (.fresh ()) ha
    have hvisits : Visits stormy m := (Visits.begins hs (.submit (.external "go") hrunning)).turn ht
    have hblows : Blows m :=
      ⟨by simp [hstatus], hconfiguration, List.length_eq_one_iff.mp hlength⟩
    obtain ⟨hends, -⟩ := limited_macrostep_ends_iff (e := stormy) hb free.grounded (n := 5) rfl m
      (by rw [hconfiguration]; decide +kernel) (free.sound _).proper
    have along (m' : Macrostep Unit) (hm' : ReflTransGen (Iterates stormy) m m') : Blows m' := by
      induction hm' with
      | refl => exact hblows
      | tail _ hstep ih => exact ih.next hstep
    have hnever : ¬∃ m', ReflTransGen (Iterates stormy) m m' ∧ Leaves stormy m' :=
      fun ⟨m', hm', hleaves⟩ => (along m' hm').not_leaves hleaves
    obtain ⟨f, hreach, hf⟩ := not_not.mp (mt hends.mpr hnever)
    exact ⟨hb, free.grounded, m, f, hvisits, hreach, hf⟩

end Engine

end Statechart

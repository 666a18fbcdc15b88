import Statechart.Proofs.Alike
import Statechart.Proofs.Courses
import Statechart.Proofs.Fidelity

/-!
The limit of microsteps. It makes no difference to a request until a macrostep needs more
microsteps than it allows, and then the request stops just before the first microstep too many.
-/
namespace Statechart

namespace Engine

variable {σ : Type} {e e' : Engine σ} {m m₀ m' : Macrostep σ} {s : Session σ} {t : Turn σ}
  {a : Answer σ} {event : Option Event} {new : List Passage} {n bound : Nat} {past : List Nat}

/-- The interpreter with another limit of microsteps. -/
def limited (e : Engine σ) (limit : Option Nat) : Engine σ :=
  { e with settings := { e.settings with microstepLimit := limit } }

theorem alike_limited (e : Engine σ) (limit limit' : Option Nat) :
    (e.limited limit).Alike (e.limited limit') :=
  ⟨rfl, rfl, rfl, fun _ _ _ _ => rfl, fun _ _ _ _ => rfl⟩

/-! ### Turns that stay within the limit -/

theorem Asks.of_alike (alike : e.Alike e') (h : Asks e m m₀ event) : Asks e' m m₀ event := by
  cases h with
  | eventless => exact .eventless
  | internal hsel hpop => exact .internal (by rwa [alike.select?_eq]) hpop
  | external hsel hpop hext => exact .external (by rwa [alike.select?_eq]) hpop hext

/-- A turn within the limit is the same turn under every limit that allows as much. -/
theorem Makes.of_alike (alike : e.Alike e')
    (hlimit : ∀ k, e.settings.exceeded? k = none → e'.settings.exceeded? k = none)
    (hwithin : ∀ a, t = .done a → a.verdict = .ok ()) (h : Makes e m t new) : Makes e' m t new := by
  cases h with
  | step hrun hasks hsel hne hmore hscript =>
    rw [← alike.follow_eq]
    rw [← alike.chart] at hscript
    exact .step hrun (hasks.of_alike alike) (by rwa [alike.select?_eq]) hne (hlimit _ hmore) hscript
  | exceeded => simp [giveUp] at hwithin
  | final hfinal => exact .final hfinal
  | drop hrun hasks hsel =>
    rw [← alike.drop_eq]
    exact .drop hrun (hasks.of_alike alike) (by rwa [alike.select?_eq])
  | stable hrun hsel hpop hext => exact .stable hrun (by rwa [alike.select?_eq]) hpop hext

theorem Makes.turn? (h : Makes e m t new) : e.turn? m = some t := by
  cases h with
  | step hrun hasks hsel hne hmore hscript =>
    exact (Comes.step hrun hasks hsel hne (by simp [step?, hmore, microstep?_eq, hscript])).turn?
  | exceeded hrun hasks hsel hne hmore =>
    exact (Comes.step hrun hasks hsel hne (by simp [step?, hmore])).turn?
  | final hfinal => exact (Comes.final hfinal).turn?
  | drop hrun hasks hsel => exact (Comes.drop hrun hasks hsel).turn?
  | stable hrun hsel hpop hext => exact (Comes.stable hrun hsel hpop hext).turn?

theorem turns?_of_alike (alike : e.Alike e')
    (hlimit : ∀ k, e.settings.exceeded? k = none → e'.settings.exceeded? k = none)
    (hok : a.verdict = .ok ()) (h : e.turns? bound m = some a) : e'.turns? bound m = some a := by
  induction bound generalizing m with
  | zero => simp [turns?] at h
  | succ bound ih =>
    unfold turns? at h ⊢
    cases ht : e.turn? m with
    | none => simp [ht] at h
    | some t =>
      obtain ⟨new, hnew⟩ := exists_makes ht
      have hwithin : ∀ a', t = .done a' → a'.verdict = .ok () := by
        rintro a' rfl
        simp only [ht, Option.some.injEq] at h
        exact h ▸ hok
      rw [(hnew.of_alike alike hlimit hwithin).turn?]
      cases t with
      | done a' => simpa [ht] using h
      | next m' =>
        simp only [ht] at h
        exact ih h

theorem exceeded?_limited (e : Engine σ) {limit : Option Nat} (hlimit : ∀ k, limit = some k → n ≤ k)
    (k : Nat) (h : (e.limited (some n)).settings.exceeded? k = none) :
    (e.limited limit).settings.exceeded? k = none := by
  cases limit with
  | none => rfl
  | some l =>
    have hn := hlimit l rfl
    simp only [limited, Settings.exceeded?, ite_eq_left_iff, reduceCtorEq, imp_false, not_not] at h ⊢
    omega

/-! ### The turn that exceeds the limit -/

/-- On the way from `m₀` the macrosteps `before` make `n` microsteps at most; the turn from `m`
belongs to the next macrostep, which has made `n`, and is the microstep that takes the transitions
`ranks` in the session `s`. -/
structure Exceeds (e : Engine σ) (m₀ : Macrostep σ) (n : Nat) (before : List Nat)
    (m : Macrostep σ) (event : Option Event) (ranks : List Nat) (s : Session σ) : Prop where
  course : ∃ past k, Course e m₀ past k m ∧ Counts e m past k before n
  within : ∀ k ∈ before, k ≤ n
  selects : ∃ m₁, Asks e m m₁ event ∧ e.select? m₁.session event = some (ranks, s) ∧ ranks ≠ []
  turn : e.turn? m = (e.microstep? s ranks event).map fun s' => .next ⟨s', n + 1, true⟩

namespace Exceeds

variable {before ranks : List Nat}

/-- The microstep too many is the next of its macrostep. -/
theorem course_next (hm₀ : m₀.microsteps = 0) (h : Exceeds e m₀ n before m event ranks s)
    {s' : Session σ} (hs' : e.microstep? s ranks event = some s') :
    Course e m₀ before (n + 1) ⟨s', n + 1, true⟩ := by
  obtain ⟨past, k, hcourse, hcounts⟩ := h.course
  have hturn : e.turn? m = some (.next ⟨s', n + 1, true⟩) := by rw [h.turn, hs', Option.map_some]
  obtain ⟨new, hnew⟩ := exists_makes hturn
  obtain ⟨past', k', hcounts', hcount, -⟩ := hnew.counts past
  rw [(hcourse.spec hm₀).1] at hcounts'
  obtain ⟨rfl, rfl⟩ := hcounts.unique hcounts'
  have hnext := hcourse.turn hcounts hturn hnew
  rwa [← hcount] at hnext

/-- Each macrostep before has taken an event, and the others wait in their order. -/
theorem outside (hm₀ : m₀.microsteps = 0) (h : Exceeds e m₀ n before m event ranks s) :
    ∃ taken sent, taken.length = before.length ∧
      m₀.session.queues.outside ++ sent = taken ++ s.queues.outside := by
  obtain ⟨past, k, hcourse, hcounts⟩ := h.course
  obtain ⟨m₁, hasks, hsel, hne⟩ := h.selects
  have hrun : m.session.status ≠ .final := by
    intro hfinal
    have hturn := h.turn
    rw [(Comes.final hfinal).turn?] at hturn
    cases hs' : e.microstep? s ranks event <;> simp [hs'] at hturn
  obtain ⟨taken, sent, hlength, hq⟩ := ((hcourse.spec hm₀).2).resolve_left hrun
  rw [outside_select? hsel]
  rcases hasks.counts hsel (fun _ => hne) with ⟨hno, -, hm₁⟩ | ⟨hrest, -, ev, hm₁⟩
  · cases hcounts with
    | same _ => exact ⟨taken, sent, hlength, by rw [hq, hm₁]⟩
    | new hrest => exact absurd hrest hno
  · cases hcounts with
    | same hno => exact absurd hrest hno
    | new _ => exact ⟨taken ++ [ev], sent, by simp [hlength], by rw [hq, hm₁]; simp⟩

end Exceeds

theorem exceeded?_eq_none {k : Nat} :
    (e.limited (some n)).settings.exceeded? k = none ↔ k ≤ n := by
  simp [limited, Settings.exceeded?]

theorem exceeded?_eq_some {k l : Nat} :
    (e.limited (some n)).settings.exceeded? k = some l ↔ n < k ∧ l = n := by
  simp [limited, Settings.exceeded?, eq_comm]

/-- Within the limit no macrostep grows beyond it. -/
theorem Makes.microsteps_le (hm : m.microsteps ≤ n)
    (h : Makes (e.limited (some n)) m (.next m') new) : m'.microsteps ≤ n := by
  obtain ⟨past', k', hcounts, hcount, -⟩ := h.counts []
  cases h with
  | step _ _ _ _ hmore _ => exact exceeded?_eq_none.mp hmore
  | drop _ _ _ =>
    rw [hcount]
    cases hcounts with
    | same _ => exact hm
    | new _ => exact Nat.zero_le n

/-- The turn that exceeds the limit, found on the way of the unlimited interpreter. -/
theorem exists_exceeds {k : Nat} (hm₀ : m₀.microsteps = 0)
    (hcourse : Course (e.limited none) m₀ past k m) (hk : k ≤ n) (hpast : ∀ j ∈ past, j ≤ n)
    (h : (e.limited (some n)).turns? bound m = some a) (hno : a.verdict ≠ .ok ()) :
    ∃ before m₁ event ranks s, Exceeds (e.limited none) m₀ n before m₁ event ranks s ∧
      a = giveUp s n := by
  have alike := e.alike_limited (some n) none
  induction bound generalizing m past k with
  | zero => simp [turns?] at h
  | succ bound ih =>
    obtain ⟨rfl, -⟩ := hcourse.spec hm₀
    unfold turns? at h
    cases ht : (e.limited (some n)).turn? m with
    | none => simp [ht] at h
    | some t =>
      obtain ⟨new, hnew⟩ := exists_makes ht
      cases t with
      | next m' =>
        simp only [ht] at h
        have hmakes := hnew.of_alike alike (exceeded?_limited e (by simp)) (by simp)
        obtain ⟨past', k', hcounts, hcount, -⟩ := hmakes.counts past
        have hle := hnew.microsteps_le hk
        refine ih (hcourse.turn hcounts hmakes.turn? hmakes) (hcount ▸ hle) ?_ h
        cases hcounts with
        | same _ => exact hpast
        | new _ => simpa [or_imp, forall_and, hk] using hpast
      | done a' =>
        simp only [ht, Option.some.injEq] at h
        subst h
        cases hnew with
        | final _ => exact absurd rfl hno
        | stable _ _ _ _ => exact absurd rfl hno
        | @exceeded m₁ event ranks s limit hrun hasks hsel hne hmore =>
          obtain ⟨hlt, rfl⟩ := exceeded?_eq_some.mp hmore
          have hasks' := hasks.of_alike alike
          rw [← alike.select?_eq] at hsel
          obtain ⟨before, hcounts, hn, hbefore⟩ : ∃ before,
              Counts (e.limited none) m past m.microsteps before limit ∧
                m₁.microsteps = limit ∧ ∀ j ∈ before, j ≤ limit := by
            rcases hasks'.counts hsel (fun _ => hne) with ⟨hsame, hm₁, -⟩ | ⟨hrest, hm₁, -⟩
            · obtain rfl : m.microsteps = limit := by omega
              exact ⟨past, .same hsame, hm₁, hpast⟩
            · obtain rfl : limit = 0 := by omega
              refine ⟨past ++ [m.microsteps], .new hrest, hm₁, fun j hj => ?_⟩
              rcases List.mem_append.mp hj with hj | hj
              · exact hpast j hj
              · exact List.mem_singleton.mp hj ▸ hk
          refine ⟨before, m, event, ranks, s, ⟨⟨past, _, hcourse, hcounts⟩, hbefore,
            ⟨m₁, hasks', hsel, hne⟩, ?_⟩, rfl⟩
          rw [turn?_of_select hrun hasks' hsel hne]
          simp [step?, limited, Settings.exceeded?, hn]

/-- A limit of microsteps is transparent until it is hit. A call that ends well under a limit ends
in the same way without one and under every larger one. A call that does not has come to a macrostep
that makes more microsteps than allowed also without a limit, the first that does; it stops where
the unlimited call makes the first microstep too many (which has an outcome unless the defaults of
history states lead back to themselves), and gives up the internal events only: each macrostep but
the first has taken one event from outside, and the others are left in their order. -/
theorem microstep_limit_transparent {d : ChartDecl} (hb : d.build = .ok e.chart) (n bound : Nat)
    (s : Session σ) (progressed : Bool) (a : Answer σ)
    (h : (e.limited (some n)).run? bound s progressed = some a) :
    (a.verdict = .ok () → ∀ limit, (∀ k, limit = some k → n ≤ k) →
      (e.limited limit).run? bound s progressed = some a) ∧
    (a.verdict ≠ .ok () → a.verdict = .error (.nonTerminating n) ∧ s.isRunning = true ∧
      ∃ before m event ranks s₁,
        Exceeds (e.limited none) (opening s progressed) n before m event ranks s₁ ∧
        (e.chart.Grounded → (∀ q ∈ s.configuration, e.chart.isHistory q = false) →
          s.memory.Proper e.chart → ∃ s', (e.limited none).microstep? s₁ ranks event = some s' ∧
            Course (e.limited none) (opening s progressed) before (n + 1) ⟨s', n + 1, true⟩) ∧
        s₁.configuration = m.session.configuration ∧ s₁.memory = m.session.memory ∧
        a.session =
          { s₁ with
            status := .awaitingExternal
            queues := { s₁.queues with internal := [] }
            trace := s₁.trace.push (.noticed (.faulted (.nonTerminating n))) } ∧
        ∃ taken sent, taken.length = before.length ∧
          s.queues.outside ++ sent = taken ++ a.session.queues.outside) := by
  have wf := ChartDecl.wellFormed_of_build hb
  unfold run? at h ⊢
  by_cases hrun : s.isRunning = true
  · rw [if_pos hrun] at h
    refine ⟨fun hok limit hlimit => ?_, fun hno => ?_⟩
    · rw [if_pos hrun]
      exact turns?_of_alike (e.alike_limited (some n) limit) (exceeded?_limited e hlimit) hok h
    · have hopening : (opening s progressed).microsteps = 0 := rfl
      obtain ⟨before, m, event, ranks, s₁, hexceeds, rfl⟩ :=
        exists_exceeds hopening .opening (Nat.zero_le n) (by simp) h hno
      obtain ⟨past, k, hcourse, -⟩ := hexceeds.course
      obtain ⟨m₁, hasks, hsel, -⟩ := hexceeds.selects
      obtain ⟨hsame, -, -⟩ := (e.limited none).select?_spec hsel
      have hconfiguration := hsame.configuration.trans hasks.same.1
      have hmemory := hsame.memory.trans hasks.same.2
      refine ⟨rfl, hrun, before, m, event, ranks, s₁, hexceeds, fun g hreal proper => ?_,
        hconfiguration, hmemory, rfl, ?_⟩
      · have hfit := (invariant_proper (e := e.limited none) wf).course hcourse ⟨hreal, proper⟩
        rw [← hasks.same.1, ← hasks.same.2] at hfit
        obtain ⟨s', hs'⟩ := exists_microstep? (e := e.limited none) wf g hfit.1 hfit.2 hsel
        exact ⟨s', hs', hexceeds.course_next rfl hs'⟩
      · obtain ⟨taken, sent, hlength, hq⟩ := hexceeds.outside rfl
        rw [← Queues.outside_drain s.queues]
        exact ⟨taken, sent, hlength, hq⟩
  · rw [if_neg hrun] at h
    obtain rfl := Option.some.inj h
    exact ⟨fun _ _ _ => by rw [if_neg hrun], fun hno => absurd rfl hno⟩

end Engine

/-- Once it is going, the wheel turns without end. -/
def wheel : ChartDecl where
  name := "Wheel"
  states := [(StateDecl.plain "still").withTransition (.simple "go" "up"),
    (StateDecl.plain "up").withTransition (TransitionDecl.eventless.to "down"),
    (StateDecl.plain "down").withTransition (TransitionDecl.eventless.to "up")]

namespace Engine

/-- Three half turns are allowed, so the fourth, upwards from down, is not made; the event that
waits behind the first one is kept. -/
theorem wheel_stopped : wheel.build = .ok wheel.chart ∧ ∃ (s : Session Unit) (a : Answer Unit),
    ((bare wheel.chart).limited (some 3)).run? 10 s false = some a ∧
      a.verdict = .error (.nonTerminating 3) ∧ a.session.configuration.toList = [2] ∧
      a.session.queues.outside.map (·.name) = ["later"] ∧
      ∃ before m event ranks s₁ s', Exceeds ((bare wheel.chart).limited none) (opening s false) 3
        before m event ranks s₁ ∧
        Course ((bare wheel.chart).limited none) (opening s false) before 4 ⟨s', 4, true⟩ := by
  have hb : wheel.build = .ok wheel.chart := ChartDecl.build_eq_chart (by decide +kernel)
  have free : wheel.chart.HistoryFree := by decide +kernel
  let s : Session Unit :=
    { status := .awaitingExternal, configuration := StateSet.ofList [1], host := ()
      queues := { external := [.external "go", .external "later"] } }
  have hrun : (((bare wheel.chart).limited (some 3)).run? 10 s false).map (fun a =>
      (a.verdict.toOption, a.session.configuration.toList,
        a.session.queues.outside.map (·.name))) = some (none, [2], ["later"]) := by
    decide +kernel
  obtain ⟨a, ha, hread⟩ := Option.map_eq_some_iff.mp hrun
  simp only [Prod.mk.injEq] at hread
  obtain ⟨hno, hconfiguration, hqueue⟩ := hread
  obtain ⟨-, hexceeds⟩ := microstep_limit_transparent (e := bare wheel.chart) hb 3 10 s false a ha
  obtain ⟨hverdict, -, before, m, event, ranks, s₁, hexceeds, hnext, -⟩ :=
    hexceeds (by intro hok; simp [hok, Except.toOption] at hno)
  obtain ⟨s', -, hcourse⟩ := hnext free.grounded (by decide +kernel) (free.sound _).proper
  exact ⟨hb, s, a, ha, hverdict, hconfiguration, hqueue, before, m, event, ranks, s₁, s', hexceeds,
    hcourse⟩

end Engine

end Statechart

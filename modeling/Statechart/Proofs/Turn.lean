import Statechart.Proofs.Interleaving

/-!
One turn of the interpreter. A turn asks the transitions once or twice: first without an event, and
when none is enabled then on the event that is next. Then it takes the transitions selected, drops
the event, or finds that nothing is left to do.
-/
namespace Statechart.Engine

open Session (SameStates Undisturbed)

variable {σ : Type} {e : Engine σ} {m m₀ : Macrostep σ} {event : Option Event} {ev : Event}
  {ranks : List Nat} {s : Session σ} {turn : Turn σ}

/-- The session that has become stable. -/
def awaiting (m : Macrostep σ) (s : Session σ) : Session σ :=
  let s := { s with status := .awaitingExternal }
  if m.progressed then s.notice .stable else s

/-- The transitions are asked about the event, or without one, in the turn from `m`. -/
inductive Asks (e : Engine σ) (m : Macrostep σ) : Macrostep σ → Option Event → Prop
  | eventless : Asks e m m none
  | internal {s : Session σ} {ev : Event} {queues : Queues} :
      e.select? m.session none = some ([], s) → s.queues.popInternal? = some (ev, queues) →
      Asks e m { m with session := { s with queues }.record (.taken ev), progressed := true }
        (some ev)
  | external {s : Session σ} {ev : Event} {queues : Queues} :
      e.select? m.session none = some ([], s) → s.queues.popInternal? = none →
      s.queues.drain.popExternal? = some (ev, queues) →
      Asks e m { session := { awaiting m s with queues, status := .stabilizing }.record (.taken ev),
                 progressed := true } (some ev)

/-- What comes of a turn. -/
inductive Comes (e : Engine σ) (m : Macrostep σ) : Turn σ → Prop
  | final : m.session.status = .final → Comes e m (.done ⟨.ok (), m.session⟩)
  | step {m₀ : Macrostep σ} {event : Option Event} {ranks : List Nat} {s : Session σ}
      {turn : Turn σ} : m.session.status ≠ .final → Asks e m m₀ event →
      e.select? m₀.session event = some (ranks, s) → ranks ≠ [] →
      e.step? { m₀ with session := s } ranks event = some turn → Comes e m turn
  | drop {m₀ : Macrostep σ} {ev : Event} {s : Session σ} : m.session.status ≠ .final →
      Asks e m m₀ (some ev) → e.select? m₀.session (some ev) = some ([], s) →
      Comes e m (.next { m₀ with session := e.drop s ev })
  | stable {s : Session σ} : m.session.status ≠ .final →
      e.select? m.session none = some ([], s) → s.queues.popInternal? = none →
      s.queues.drain.popExternal? = none →
      Comes e m (.done ⟨.ok (), { awaiting m s with queues := s.queues.drain }⟩)

theorem consume?_eq (m : Macrostep σ) (ev : Event) : e.consume? m ev =
    (e.select? (m.session.record (.taken ev)) (some ev)).bind fun r =>
      if r.1 = [] then
        some (.next { m with session := e.drop r.2 ev, progressed := true })
      else e.step? { m with session := r.2, progressed := true } r.1 (some ev) := by
  unfold consume?
  cases hs : e.select? (m.session.record (.taken ev)) (some ev) with
  | none => simp [hs]
  | some r =>
    obtain ⟨ranks, s⟩ := r
    cases ranks <;> simp [hs]

theorem stabilize?_eq (m : Macrostep σ) (s : Session σ) : e.stabilize? { m with session := s } =
    match s.queues.drain.popExternal? with
    | none => some (.done ⟨.ok (), { awaiting m s with queues := s.queues.drain }⟩)
    | some (ev, queues) => e.consume?
        { session := { awaiting m s with queues, status := .stabilizing }, progressed := true } ev := by
  obtain ⟨s₀, n, progressed⟩ := m
  cases progressed <;> rfl

/-- Every turn is one of these. -/
theorem comes_of_turn? (h : e.turn? m = some turn) : Comes e m turn := by
  unfold turn? at h
  split at h
  · rename_i hfinal
    obtain rfl := Option.some.inj h
    exact .final hfinal
  · rename_i hfinal
    have consumed (m₁ : Macrostep σ) (ev : Event)
        (hasks : Asks e m { m₁ with session := m₁.session.record (.taken ev), progressed := true }
          (some ev)) (h : e.consume? m₁ ev = some turn) : Comes e m turn := by
      rw [consume?_eq] at h
      obtain ⟨⟨ranks, s⟩, hsel, h⟩ := Option.bind_eq_some_iff.mp h
      split at h
      · rename_i hnil
        obtain rfl := Option.some.inj h
        exact .drop hfinal hasks (by simpa [← hnil] using hsel)
      · rename_i hne
        exact .step hfinal hasks hsel hne h
    cases hsel : e.select? m.session none with
    | none => simp [hsel] at h
    | some r =>
      obtain ⟨ranks, s⟩ := r
      cases ranks with
      | cons r rs =>
        simp only [hsel] at h
        exact .step hfinal .eventless hsel (by simp) h
      | nil =>
        simp only [hsel] at h
        cases hpop : s.queues.popInternal? with
        | some r =>
          obtain ⟨ev, queues⟩ := r
          simp only [hpop] at h
          exact consumed { m with session := { s with queues } } ev (.internal hsel hpop) h
        | none =>
          simp only [hpop, stabilize?_eq] at h
          cases hext : s.queues.drain.popExternal? with
          | none =>
            simp only [hext, Option.some.injEq] at h
            exact h ▸ .stable hfinal hsel hpop hext
          | some r =>
            obtain ⟨ev, queues⟩ := r
            simp only [hext] at h
            exact consumed { session := { awaiting m s with queues, status := .stabilizing },
                             progressed := true } ev (.external hsel hpop hext) h

/-- Once the event is asked about, the turn is what comes of it. -/
theorem turn?_of_asks (hrun : m.session.status ≠ .final) (hasks : Asks e m m₀ (some ev)) :
    e.turn? m = (e.select? m₀.session (some ev)).bind fun r =>
      if r.1 = [] then some (.next { m₀ with session := e.drop r.2 ev })
      else e.step? { m₀ with session := r.2 } r.1 (some ev) := by
  cases hasks with
  | @internal s _ queues hsel hpop =>
    simp only [turn?, if_neg hrun, hsel, hpop, consume?_eq]
  | @external s _ queues hsel hpop hext =>
    simp only [turn?, if_neg hrun, hsel, hpop, stabilize?_eq, hext, consume?_eq]

/-- A turn that selects transitions is a microstep. -/
theorem turn?_of_select (hrun : m.session.status ≠ .final) (hasks : Asks e m m₀ event)
    (hsel : e.select? m₀.session event = some (ranks, s)) (hne : ranks ≠ []) :
    e.turn? m = e.step? { m₀ with session := s } ranks event := by
  cases event with
  | some ev => rw [turn?_of_asks hrun hasks, hsel, Option.bind_some, if_neg hne]
  | none =>
    cases hasks
    obtain ⟨r, rs, rfl⟩ := List.exists_cons_of_ne_nil hne
    simp only [turn?, if_neg hrun, hsel]

/-- Each of these is the turn. -/
theorem Comes.turn? (h : Comes e m turn) : e.turn? m = some turn := by
  cases h with
  | final hfinal => simp only [Engine.turn?, if_pos hfinal]
  | step hrun hasks hsel hne hstep => rw [turn?_of_select hrun hasks hsel hne, hstep]
  | drop hrun hasks hsel => rw [turn?_of_asks hrun hasks, hsel, Option.bind_some, if_pos rfl]
  | stable hrun hsel hpop hext =>
    simp only [Engine.turn?, if_neg hrun, hsel, hpop, stabilize?_eq, hext]

/-- Turns that come to an end have a last one, and what each keeps for the next it finds. -/
theorem exists_last_turn {P : Macrostep σ → Prop} (hp : P m)
    (hnext : ∀ m m', P m → e.turn? m = some (.next m') → P m') {n : Nat} {a : Answer σ}
    (h : e.turns? n m = some a) : ∃ m', P m' ∧ e.turn? m' = some (.done a) := by
  induction n generalizing m with
  | zero => simp [turns?] at h
  | succ n ih =>
    unfold turns? at h
    split at h
    · simp at h
    · rename_i hturn
      obtain rfl := Option.some.inj h
      exact ⟨m, hp, hturn⟩
    · rename_i hturn
      exact ih (hnext _ _ hp hturn) h

theorem exists_turn_of_turns {n : Nat} {a : Answer σ} (h : e.turns? n m = some a) :
    ∃ m', e.turn? m' = some (.done a) :=
  (exists_last_turn (P := fun _ => True) trivial (fun _ _ _ _ => trivial) h).imp fun _ => And.right

/-- A turn has an outcome if every selection in it has one and every microstep can be made. -/
theorem exists_turn? (hsel : ∀ m₀ event, Asks e m m₀ event →
      ∃ ranks s, e.select? m₀.session event = some (ranks, s))
    (hstep : ∀ m₀ event ranks s, Asks e m m₀ event →
      e.select? m₀.session event = some (ranks, s) → ranks ≠ [] →
      ∃ turn, e.step? { m₀ with session := s } ranks event = some turn) :
    ∃ turn, e.turn? m = some turn := by
  have consumed (m₁ : Macrostep σ) (ev : Event)
      (hasks : Asks e m { m₁ with session := m₁.session.record (.taken ev), progressed := true }
        (some ev)) : ∃ turn, e.consume? m₁ ev = some turn := by
    obtain ⟨ranks, s, hs⟩ := hsel _ _ hasks
    have hturn := hstep _ _ ranks s hasks hs
    rw [consume?_eq]
    simp only at hs
    rw [hs, Option.bind_some]
    split
    · exact ⟨_, rfl⟩
    · rename_i hne
      exact hturn hne
  unfold turn?
  split
  · exact ⟨_, rfl⟩
  · obtain ⟨ranks, s, hs⟩ := hsel m none .eventless
    cases ranks with
    | cons r rs =>
      simp only [hs]
      exact hstep m none _ s .eventless hs (by simp)
    | nil =>
      simp only [hs]
      cases hpop : s.queues.popInternal? with
      | some r =>
        obtain ⟨ev, queues⟩ := r
        exact consumed { m with session := { s with queues } } ev (.internal hs hpop)
      | none =>
        simp only [stabilize?_eq]
        cases hext : s.queues.drain.popExternal? with
        | none => exact ⟨_, rfl⟩
        | some r =>
          obtain ⟨ev, queues⟩ := r
          exact consumed { session := { awaiting m s with queues, status := .stabilizing },
                           progressed := true } ev (.external hs hpop hext)

theorem awaiting_spec (m : Macrostep σ) (s : Session σ) :
    (awaiting m s).configuration = s.configuration ∧ (awaiting m s).memory = s.memory ∧
      (awaiting m s).queues = s.queues ∧ (awaiting m s).host = s.host ∧
      (awaiting m s).taken = s.taken ∧ (awaiting m s).status = .awaitingExternal := by
  unfold awaiting
  simp only
  split
  · exact ⟨rfl, rfl, rfl, rfl, (Session.undisturbed_notice _ _).taken, rfl⟩
  · exact ⟨rfl, rfl, rfl, rfl, rfl, rfl⟩

/-- Nothing is entered or left before the transitions are asked. -/
theorem Asks.same (h : Asks e m m₀ event) : m₀.session.configuration = m.session.configuration ∧
    m₀.session.memory = m.session.memory := by
  cases h with
  | eventless => exact ⟨rfl, rfl⟩
  | internal hsel _ =>
    obtain ⟨hsame, -, -⟩ := e.select?_spec hsel
    exact ⟨hsame.configuration, hsame.memory⟩
  | @external s _ _ hsel _ _ =>
    obtain ⟨hsame, -, -⟩ := e.select?_spec hsel
    obtain ⟨hc, hm, -⟩ := awaiting_spec m s
    exact ⟨hc.trans hsame.configuration, hm.trans hsame.memory⟩

theorem step?_eq_some (h : e.step? m ranks event = some turn) :
    (∃ limit, e.settings.exceeded? (m.microsteps + 1) = some limit ∧
      turn = .done (giveUp m.session limit)) ∨
    ∃ script, e.settings.exceeded? (m.microsteps + 1) = none ∧
      Script.take? e.chart m.session.configuration m.session.memory
        (ranks.map e.chart.transition) = some script ∧
      turn = .next ⟨e.follow m.session script event, m.microsteps + 1, true⟩ := by
  unfold step? at h
  simp only at h
  split at h
  · rename_i limit hlimit
    exact .inl ⟨limit, hlimit, (Option.some.inj h).symm⟩
  · rename_i hlimit
    obtain ⟨s', hs', rfl⟩ := Option.map_eq_some_iff.mp h
    rw [microstep?_eq] at hs'
    obtain ⟨script, hscript, rfl⟩ := Option.map_eq_some_iff.mp hs'
    exact .inr ⟨script, hlimit, hscript, rfl⟩

end Statechart.Engine

import Statechart.Proofs.Alike
import Statechart.Proofs.Courses
import Statechart.Proofs.Occupation

/-!
Digestion. A stable session digests external events one after the other, each in a macrostep that
begins with it. As long as actions send nothing, a macrostep goes its way whatever external events
wait behind, and where it comes to its end the first of them begins the next one. So a session that
runs with events waiting does what it does without them, and then digests them.
-/
namespace Statechart

variable {σ : Type}

/-- Actions send nothing. -/
def Host.Mute (h : Host σ) : Prop := ∀ a x s, (h.action a x s).sent = []

/-- More around the session. At the end of the chart nothing waits any more. -/
def Macrostep.amid (m : Macrostep σ) (past : Array Occurrence) (rest : List Event) : Macrostep σ :=
  { m with session := m.session.amid past (if m.session.status = .final then [] else rest) }

def Turn.amid (past : Array Occurrence) (rest : List Event) : Turn σ → Turn σ
  | .next m => .next (m.amid past rest)
  | .done a => .done { a with session := a.session.amid past rest }

namespace Engine

variable {e : Engine σ} {m m' : Macrostep σ} {s s' s₁ s₂ : Session σ} {t t' : Turn σ}
  {a : Answer σ} {event : Option Event} {ev : Event} {ranks : List Nat} {evs rest : List Event}
  {past : Array Occurrence}

/-- The turns come to this answer in the end. -/
inductive Leads (e : Engine σ) : Turn σ → Answer σ → Prop
  | done (a : Answer σ) : Leads e (.done a) a
  | next {m : Macrostep σ} {t : Turn σ} {a : Answer σ} : e.turn? m = some t → Leads e t a →
      Leads e (.next m) a

/-- The session is about to begin a macrostep on an event. -/
def facing (s : Session σ) : Macrostep σ :=
  { session := { s with status := .stabilizing }, progressed := true }

/-- The macrostep on an external event, from one stable session to the next. -/
def Takes (e : Engine σ) (s : Session σ) (ev : Event) (s' : Session σ) : Prop :=
  ∃ t, e.consume? (facing s) ev = some t ∧ Leads e t ⟨.ok (), s'⟩

/-- Each of the events is taken in a macrostep of its own, until the chart comes to its end. -/
inductive Digests (e : Engine σ) : Session σ → List Event → Session σ → Prop
  | nil (s : Session σ) : Digests e s [] s
  | ended {s : Session σ} (evs : List Event) : s.status = .final → Digests e s evs s
  | cons {s s₁ s₂ : Session σ} {ev : Event} {evs : List Event} : s.status ≠ .final →
      Takes e s ev s₁ → Digests e s₁ evs s₂ → Digests e s (ev :: evs) s₂

theorem leads_iff : Leads e (.next m) a ↔ ∃ n, e.turns? n m = some a := by
  constructor
  · intro h
    generalize hm : Turn.next m = t at h
    induction h generalizing m with
    | done a => cases hm
    | @next m₁ t a ht h ih =>
      cases hm
      cases h with
      | done a => exact ⟨1, by simp [turns?, ht]⟩
      | next ht' h =>
        obtain ⟨n, hn⟩ := ih rfl
        exact ⟨n + 1, by simp [turns?, ht, hn]⟩
  · rintro ⟨n, h⟩
    induction n generalizing m with
    | zero => simp [turns?] at h
    | succ n ih =>
      unfold turns? at h
      cases ht : e.turn? m with
      | none => simp [ht] at h
      | some t =>
        simp only [ht] at h
        cases t with
        | done a' => exact .next ht (Option.some.inj h ▸ .done a')
        | next m' => exact .next ht (ih h)

theorem Leads.unique {b : Answer σ} (h : Leads e t a) (h' : Leads e t b) : a = b := by
  induction h with
  | done a =>
    cases h' with
    | done => rfl
  | next ht _ ih =>
    cases h' with
    | next ht' h' => exact ih (Option.some.inj (ht'.symm.trans ht) ▸ h')

/-! ### What stands before in the trace -/

theorem leads_after_iff : Leads e (t.after past) a ↔ ∃ b, Leads e t b ∧ b.after past = a := by
  have hturn (m : Macrostep σ) := (Alike.refl e).turn? past rfl m
  constructor
  · intro h
    generalize ht : t.after past = u at h
    induction h generalizing t with
    | done a =>
      cases t with
      | next m => cases ht
      | done b => exact ⟨b, .done b, Turn.done.inj ht⟩
    | @next m u a hu h ih =>
      cases t with
      | done b => cases ht
      | next m₁ =>
        obtain rfl : m₁.after past = m := Turn.next.inj ht
        rw [hturn] at hu
        obtain ⟨t₁, ht₁, rfl⟩ := Option.map_eq_some_iff.mp hu
        obtain ⟨b, hb, hab⟩ := ih rfl
        exact ⟨b, .next ht₁ hb, hab⟩
  · rintro ⟨b, h, rfl⟩
    induction h with
    | done b => exact .done _
    | @next m t b ht _ ih => exact .next (by rw [hturn, ht]; rfl) ih

theorem takes_after_iff :
    Takes e (s.after past) ev s' ↔ ∃ s₁, Takes e s ev s₁ ∧ s₁.after past = s' := by
  have hconsume := (Alike.refl e).consume? past rfl (facing s) ev
  have hfacing : facing (s.after past) = (facing s).after past := rfl
  rw [Takes, hfacing, hconsume]
  constructor
  · rintro ⟨u, hu, hleads⟩
    obtain ⟨t, ht, rfl⟩ := Option.map_eq_some_iff.mp hu
    obtain ⟨⟨verdict, s₁⟩, hb, heq⟩ := leads_after_iff.mp hleads
    obtain ⟨rfl, rfl⟩ := Answer.mk.inj heq
    exact ⟨s₁, ⟨t, ht, hb⟩, rfl⟩
  · rintro ⟨s₁, ⟨t, ht, hleads⟩, rfl⟩
    exact ⟨t.after past, by rw [ht]; rfl, leads_after_iff.mpr ⟨_, hleads, rfl⟩⟩

theorem digests_after_iff :
    Digests e (s.after past) evs s' ↔ ∃ s₁, Digests e s evs s₁ ∧ s₁.after past = s' := by
  constructor
  · intro h
    generalize hs : s.after past = u at h
    induction h generalizing s with
    | nil u => exact ⟨s, .nil s, hs⟩
    | ended evs hfinal =>
      subst hs
      exact ⟨s, .ended evs hfinal, rfl⟩
    | cons hlive htakes _ ih =>
      subst hs
      obtain ⟨s₁, hone, hs₁⟩ := takes_after_iff.mp htakes
      obtain ⟨s₂, hrest, hs₂⟩ := ih hs₁
      exact ⟨s₂, .cons hlive hone hrest, hs₂⟩
  · rintro ⟨s₁, h, rfl⟩
    induction h with
    | nil s => exact .nil _
    | ended evs hfinal => exact .ended evs hfinal
    | cons hlive htakes _ ih => exact .cons hlive (takes_after_iff.mpr ⟨_, htakes, rfl⟩) ih

/-! ### What waits behind -/

theorem macrostep_amid (hlive : m.session.status ≠ .final) :
    m.amid past rest = { m with session := m.session.amid past rest } := by
  rw [Macrostep.amid, if_neg hlive]

theorem facing_amid (s : Session σ) (past : Array Occurrence) (rest : List Event) :
    facing (s.amid past rest) = (facing s).amid past rest := by
  rw [macrostep_amid (by simp [facing])]
  rfl

theorem giveUp_amid (s : Session σ) (limit : Nat) :
    giveUp (s.amid past rest) limit =
      { giveUp s limit with session := (giveUp s limit).session.amid past rest } := by
  simp only [giveUp, Session.notice_amid]
  rfl

theorem step?_amid (past : Array Occurrence) (rest : List Event) (ranks : List Nat)
    (event : Option Event) (hlive : m.session.status ≠ .final) :
    e.step? (m.amid past rest) ranks event = (e.step? m ranks event).map (Turn.amid past rest) := by
  rw [macrostep_amid hlive]
  simp only [Engine.step?]
  split
  · rw [giveUp_amid]
    rfl
  · simp only [Engine.microstep?_eq, Session.configuration_amid, Session.memory_amid,
      (Alike.refl e).follow, Option.map_map]
    congr 1
    funext script
    simp only [Function.comp_apply, Turn.amid, Macrostep.amid, status_follow]
    cases script.finished <;> simp [hlive]

theorem consume?_amid (past : Array Occurrence) (rest : List Event) (ev : Event)
    (hlive : m.session.status ≠ .final) :
    e.consume? (m.amid past rest) ev = (e.consume? m ev).map (Turn.amid past rest) := by
  rw [consume?_eq, consume?_eq, macrostep_amid hlive, Session.record_amid,
    (Alike.refl e).select? _ _ (Session.surrounds_amid past rest)]
  cases hsel : e.select? (m.session.record (.taken ev)) (some ev) with
  | none => rfl
  | some r =>
    have hstatus : r.2.status ≠ .final := by
      rw [(e.select?_spec hsel).1.status]
      exact hlive
    simp only [Option.map_some, Option.bind_some]
    split
    · have hdrop : (e.drop r.2 ev).status ≠ .final := by
        unfold Engine.drop
        split <;> exact hstatus
      rw [(Alike.refl e).drop, Option.map_some, Turn.amid, macrostep_amid hdrop]
    · have hstep := step?_amid (e := e) (m := { m with session := r.2, progressed := true })
        past rest r.1 (some ev) hstatus
      rwa [macrostep_amid hstatus] at hstep

/-- The session goes on with the first event that waits, unless there is none or the chart has come
to its end. -/
def goOn? (e : Engine σ) (s : Session σ) : List Event → Option (Turn σ)
  | [] => some (.done ⟨.ok (), s⟩)
  | ev :: rest =>
    if s.status = .final then some (.done ⟨.ok (), s⟩)
    else e.consume? (facing (s.amid #[] rest)) ev

/-- What the waiting events make of a turn: a session that would have been left stable goes on. -/
def meet (e : Engine σ) (past : Array Occurrence) (rest : List Event) : Turn σ → Option (Turn σ)
  | .done ⟨.ok (), s⟩ => e.goOn? (s.after past) rest
  | t => some (t.amid past rest)

theorem meet_of_step? (h : e.step? m ranks event = some t) :
    e.meet past rest t = some (t.amid past rest) := by
  rcases step?_eq_some h with ⟨limit, -, rfl⟩ | ⟨script, -, -, rfl⟩ <;> rfl

theorem meet_of_consume? (h : e.consume? m ev = some t) :
    e.meet past rest t = some (t.amid past rest) := by
  rw [consume?_eq] at h
  obtain ⟨⟨ranks, s⟩, -, h⟩ := Option.bind_eq_some_iff.mp h
  split at h
  · obtain rfl := Option.some.inj h
    rfl
  · exact meet_of_step? h

/-- Where every turn that comes about takes the waiting events along, they make no other
difference. -/
theorem bind_meet {o : Option (Turn σ)} (h : ∀ t, o = some t → e.meet past rest t =
    some (t.amid past rest)) : o.bind (e.meet past rest) = o.map (Turn.amid past rest) := by
  cases o with
  | none => rfl
  | some t => exact h t rfl

theorem awaiting_amid (m : Macrostep σ) (s : Session σ) (past : Array Occurrence)
    (rest : List Event) : awaiting m (s.amid past rest) = (awaiting m s).amid past rest := by
  simp only [awaiting]
  split
  · exact Session.notice_amid { s with status := .awaitingExternal } past rest _
  · rfl

theorem stabilize?_amid (hnone : s.queues.outside = []) :
    e.stabilize? { m with session := s.amid past rest } =
      (e.stabilize? { m with session := s }).bind (e.meet past rest) := by
  obtain ⟨hexternal, hhandOff⟩ := List.append_eq_nil_iff.mp hnone
  have hempty : s.queues.drain.popExternal? = none := by
    simp [Queues.drain, Queues.popExternal?, hexternal, hhandOff]
  have hwaiting : (s.amid past rest).queues.drain =
      { s.queues.drain with external := rest } := by
    simp [Session.amid, Queues.drain, hexternal, hhandOff]
  rw [stabilize?_eq, stabilize?_eq, hempty, hwaiting, awaiting_amid]
  cases rest with
  | nil =>
    simp only [Queues.popExternal?, Option.bind_some, meet, goOn?, Queues.drain, hexternal,
      hhandOff]
    rfl
  | cons ev rest =>
    have hawaiting : (awaiting m s).status = .awaitingExternal := (awaiting_spec m s).2.2.2.2.2
    simp only [Queues.popExternal?, Option.bind_some, meet, goOn?, Session.status_after, hawaiting,
      reduceCtorEq, if_false]
    simp [facing, Session.amid, Session.after, Queues.drain, hexternal, hhandOff]

/-- Without other events waiting than these, a turn is what they make of the turn without them. -/
theorem turn?_amid (hnone : m.session.queues.outside = []) :
    e.turn? (m.amid past rest) = (e.turn? m).bind (e.meet past rest) := by
  by_cases hfinal : m.session.status = .final
  · have hamid : m.amid past rest = m.after past := by
      rw [Macrostep.amid, if_pos hfinal, Session.amid_nil]
      rfl
    have hfinal' : (m.after past).session.status = .final := hfinal
    simp only [Engine.turn?, hamid, if_pos hfinal, if_pos hfinal', Option.bind_some, meet]
    cases rest with
    | nil => rfl
    | cons ev rest => exact (if_pos hfinal).symm
  · rw [macrostep_amid hfinal]
    simp only [Engine.turn?, Session.status_amid, if_neg hfinal,
      (Alike.refl e).select? _ _ (Session.surrounds_amid past _)]
    cases hsel : e.select? m.session none with
    | none => rfl
    | some r =>
      obtain ⟨ranks, s⟩ := r
      have hlive : s.status ≠ .final := by
        rw [(e.select?_spec hsel).1.status]
        exact hfinal
      cases ranks with
      | cons r rs =>
        have hstep := step?_amid (e := e) (m := { m with session := s }) past rest (r :: rs) none
          hlive
        rw [macrostep_amid hlive, ← bind_meet fun t ht => meet_of_step? ht] at hstep
        exact hstep
      | nil =>
        have hpopped : (s.amid past rest).queues.popInternal? = s.queues.popInternal?.map
            fun q => (q.1, { q.2 with external := q.2.external ++ rest }) := by
          simp only [Queues.popInternal?, Session.amid]
          cases s.queues.internal <;> rfl
        simp only [Option.map_some, hpopped]
        cases hpop : s.queues.popInternal? with
        | none => exact stabilize?_amid (by rw [outside_select? hsel, hnone])
        | some q =>
          have hconsume := consume?_amid (e := e)
            (m := { m with session := { s with queues := q.2 } }) past rest q.1 hlive
          rw [macrostep_amid hlive, ← bind_meet fun t ht => meet_of_consume? ht] at hconsume
          exact hconsume

/-! ### Nothing comes from outside -/

section Mute

variable (mute : e.host.Mute)
include mute

theorem outside_performAll_of_mute (event : Option Event) (cmds : List Command)
    (w : Session σ × List Fault) :
    (cmds.foldl (e.perform event) w).1.queues.outside = w.1.queues.outside := by
  have hone (w : Session σ × List Fault) (cmd : Command) :
      (e.perform event w cmd).1.queues.outside = w.1.queues.outside := by
    cases cmd with
    | call call =>
      have hsent := mute call.action (e.context w.1 event) w.1.host
      simp only [perform, act, hsent]
      exact Queues.outside_raiseAll _ _
    | announce state => exact Queues.outside_push rfl
    | leave state => rfl
    | occupy state => rfl
  induction cmds generalizing w with
  | nil => rfl
  | cons cmd cmds ih => exact (ih _).trans (hone w cmd)

theorem outside_follow_of_mute (hnone : s.queues.outside = []) (script : Script)
    (event : Option Event) : (e.follow s script event).queues.outside = [] := by
  have hperform := outside_performAll_of_mute mute event script.commands
    ({ s with memory := script.memory }, [])
  simp only [follow]
  split
  · rfl
  · rw [(e.undisturbed_noticeChange event _ script.exited script.entered).queues, queues_reportAll]
    exact hperform.trans hnone

theorem outside_step? (hnone : m.session.queues.outside = [])
    (h : e.step? m ranks event = some t) : t.session.queues.outside = [] := by
  rcases step?_eq_some h with ⟨limit, -, rfl⟩ | ⟨script, -, -, rfl⟩
  · exact hnone
  · exact outside_follow_of_mute mute hnone script event

theorem outside_consume? (hnone : m.session.queues.outside = [])
    (h : e.consume? m ev = some t) : t.session.queues.outside = [] := by
  rw [consume?_eq] at h
  obtain ⟨⟨ranks, s⟩, hsel, h⟩ := Option.bind_eq_some_iff.mp h
  have hselected : s.queues.outside = [] := (outside_select? hsel).trans hnone
  split at h
  · obtain rfl := Option.some.inj h
    simp only [Turn.session, Engine.drop]
    split <;> exact hselected
  · exact outside_step? mute hselected h

theorem outside_turn? (hnone : m.session.queues.outside = []) (h : e.turn? m = some t) :
    t.session.queues.outside = [] := by
  have hasked {m₀ : Macrostep σ} {event : Option Event} (hasks : Asks e m m₀ event) :
      m₀.session.queues.outside = [] := by
    cases hasks with
    | eventless => exact hnone
    | internal hsel hpop =>
      exact (Queues.outside_popInternal? hpop).trans ((outside_select? hsel).trans hnone)
    | external hsel _ hext =>
      have hout := Queues.outside_popExternal? hext
      rw [Queues.outside_drain, outside_select? hsel, hnone] at hout
      cases hout
  cases comes_of_turn? h with
  | final _ => exact hnone
  | step _ hasks hsel _ hstep =>
    exact outside_step? mute ((outside_select? hsel).trans (hasked hasks)) hstep
  | drop _ hasks hsel =>
    simp only [Turn.session, Engine.drop]
    split <;> exact (outside_select? hsel).trans (hasked hasks)
  | stable _ hsel _ _ => exact (Queues.outside_drain _).trans ((outside_select? hsel).trans hnone)

theorem outside_of_leads (hnone : t.session.queues.outside = []) (h : Leads e t a) :
    a.session.queues.outside = [] := by
  induction h with
  | done a => exact hnone
  | next ht _ ih => exact ih (outside_turn? mute hnone ht)

/-! ### Events that wait are digested -/

omit mute in
/-- A turn on an event answers only when it gives up. -/
theorem error_of_consume? (h : e.consume? m ev = some (.done a)) : a.verdict ≠ .ok () := by
  rw [consume?_eq] at h
  obtain ⟨⟨ranks, s⟩, -, h⟩ := Option.bind_eq_some_iff.mp h
  split at h
  · cases h
  · rcases step?_eq_some h with ⟨limit, -, heq⟩ | ⟨script, -, -, heq⟩
    · cases heq
      simp [giveUp]
    · cases heq

/-- What a session with waiting events comes to, it comes to without them and by digesting them. -/
theorem digests_of_leads (hnone : m.session.queues.outside = [])
    (h : Leads e (.next (m.amid past rest)) ⟨.ok (), s₂⟩) :
    ∃ s₁, Leads e (.next m) ⟨.ok (), s₁⟩ ∧ Digests e (s₁.after past) rest s₂ := by
  generalize ht : Turn.next (m.amid past rest) = t at h
  generalize ha : (⟨.ok (), s₂⟩ : Answer σ) = a at h
  induction h generalizing m past rest with
  | done a => cases ht
  | @next m' t a hturn hleads ih =>
    subst ha
    obtain rfl : m.amid past rest = m' := Turn.next.inj ht
    rw [turn?_amid hnone] at hturn
    obtain ⟨t₁, ht₁, hmeet⟩ := Option.bind_eq_some_iff.mp hturn
    have hnone₁ := outside_turn? mute hnone ht₁
    match t₁, hmeet with
    | .next m₁, hmeet =>
      obtain ⟨s₁, hs₁, hdigests⟩ := ih hnone₁ (Option.some.inj hmeet) rfl
      exact ⟨s₁, .next ht₁ hs₁, hdigests⟩
    | .done ⟨.error err, s₁⟩, hmeet =>
      obtain rfl := Option.some.inj hmeet
      cases hleads
    | .done ⟨.ok (), s₁⟩, hmeet =>
      refine ⟨s₁, .next ht₁ (.done _), ?_⟩
      cases rest with
      | nil =>
        obtain rfl := Option.some.inj hmeet
        cases hleads
        exact .nil _
      | cons ev rest =>
        simp only [meet, goOn?] at hmeet
        split at hmeet
        · rename_i hfinal
          obtain rfl := Option.some.inj hmeet
          cases hleads
          exact .ended _ hfinal
        · rename_i hlive
          -- The macrostep on the first event is followed with the others behind it.
          rw [facing_amid, consume?_amid #[] rest ev (by simp [facing])] at hmeet
          obtain ⟨t₂, hconsume, rfl⟩ := Option.map_eq_some_iff.mp hmeet
          cases t₂ with
          | done b =>
            obtain ⟨verdict, s₃⟩ := b
            cases hleads
            exact absurd rfl (error_of_consume? hconsume)
          | next m₂ =>
            have hnone₂ : m₂.session.queues.outside = [] :=
              outside_consume? mute hnone₁ hconsume
            obtain ⟨s₃, hs₃, hdigests⟩ := ih hnone₂ rfl rfl
            exact .cons hlive ⟨_, hconsume, hs₃⟩ (s₃.after_empty ▸ hdigests)

/-- A session that is left stable without the waiting events goes on with them. -/
theorem leads_amid (hnone : m.session.queues.outside = []) (h : Leads e (.next m) ⟨.ok (), s₁⟩)
    (hgo : e.goOn? (s₁.after past) rest = some t) (hleads : Leads e t a) :
    Leads e (.next (m.amid past rest)) a := by
  generalize hu : Turn.next m = u at h
  generalize hb : (⟨.ok (), s₁⟩ : Answer σ) = b at h
  induction h generalizing m with
  | done b => cases hu
  | @next m' u b hturn hlast ih =>
    subst hb
    obtain rfl := Turn.next.inj hu
    cases hlast with
    | done b =>
      refine .next ?_ hleads
      rw [turn?_amid hnone, hturn]
      exact hgo
    | @next m₁ t₁ b hturn₁ hlast =>
      have hmeet : e.turn? (m.amid past rest) = some (.next (m₁.amid past rest)) := by
        rw [turn?_amid hnone, hturn]
        rfl
      exact .next hmeet (ih (outside_turn? mute hnone hturn) rfl rfl)

theorem exists_goOn?_of_digests (hnone : s.queues.outside = []) (h : Digests e s rest s₂) :
    ∃ t, e.goOn? s rest = some t ∧ Leads e t ⟨.ok (), s₂⟩ := by
  induction h with
  | nil s => exact ⟨_, rfl, .done _⟩
  | @ended s evs hfinal =>
    refine ⟨_, ?_, .done _⟩
    cases evs with
    | nil => rfl
    | cons ev evs => exact if_pos hfinal
  | @cons s s₁ s₂ ev evs hlive htakes _ ih =>
    obtain ⟨t, hconsume, hleads⟩ := htakes
    have hnone₁ : t.session.queues.outside = [] := outside_consume? mute hnone hconsume
    have hgo : e.goOn? s (ev :: evs) = some (t.amid #[] evs) := by
      rw [goOn?, if_neg hlive, facing_amid, consume?_amid #[] evs ev (by simp [facing]), hconsume]
      rfl
    cases t with
    | done b =>
      obtain ⟨verdict, s₃⟩ := b
      cases hleads
      exact absurd rfl (error_of_consume? hconsume)
    | next m =>
      obtain ⟨t', hgo', hleads'⟩ := ih (outside_of_leads mute hnone₁ hleads)
      rw [← s₁.after_empty] at hgo'
      exact ⟨_, hgo, leads_amid mute hnone₁ hleads hgo' hleads'⟩

/-- With waiting events a session comes to what it comes to without them and by digesting them. -/
theorem leads_amid_iff (hnone : m.session.queues.outside = []) :
    Leads e (.next (m.amid past rest)) ⟨.ok (), s₂⟩ ↔
      ∃ s₁, Leads e (.next m) ⟨.ok (), s₁⟩ ∧ Digests e (s₁.after past) rest s₂ := by
  constructor
  · exact digests_of_leads mute hnone
  · rintro ⟨s₁, h, hdigests⟩
    have hnone₁ : (s₁.after past).queues.outside = [] :=
      outside_of_leads mute (t := .next m) hnone h
    obtain ⟨t, hgo, hleads⟩ := exists_goOn?_of_digests mute hnone₁ hdigests
    exact leads_amid mute hnone h hgo hleads

end Mute

end Engine

end Statechart

import Statechart.Proofs.Courses

/-!
Accounts of external events. They come in two ways, submitted to the session itself or sent through
the hand-off. As long as the queues are not cleared, the external events that have been taken, those
in the external queue and those in the hand-off are an interleaving of the two ways, each in its own
order: whatever is done to the queues one thing at a time keeps the accounts.
-/
namespace Statechart

/-- The first list consists of the other two, each in its order. -/
inductive Interleaving {α : Type} : List α → List α → List α → Prop
  | nil : Interleaving [] [] []
  | left (a : α) {l xs ys : List α} : Interleaving l xs ys → Interleaving (a :: l) (a :: xs) ys
  | right (a : α) {l xs ys : List α} : Interleaving l xs ys → Interleaving (a :: l) xs (a :: ys)

namespace Interleaving

variable {α : Type} {l xs ys : List α}

theorem append_left (h : Interleaving l xs ys) (zs : List α) :
    Interleaving (l ++ zs) (xs ++ zs) ys := by
  induction h with
  | nil =>
    induction zs with
    | nil => exact .nil
    | cons z zs ih => exact .left z ih
  | left a _ ih => exact .left a ih
  | right a _ ih => exact .right a ih

theorem append_right (h : Interleaving l xs ys) (zs : List α) :
    Interleaving (l ++ zs) xs (ys ++ zs) := by
  induction h with
  | nil =>
    induction zs with
    | nil => exact .nil
    | cons z zs ih => exact .right z ih
  | left a _ ih => exact .left a ih
  | right a _ ih => exact .right a ih

end Interleaving

/-- The external events that have come in on either way, in their order. -/
structure Routes where
  direct : List Event := []
  sent : List Event := []

namespace Routes

instance : Append Routes := ⟨fun k l => ⟨k.direct ++ l.direct, k.sent ++ l.sent⟩⟩

@[simp] theorem direct_append (k l : Routes) : (k ++ l).direct = k.direct ++ l.direct := rfl

@[simp] theorem sent_append (k l : Routes) : (k ++ l).sent = k.sent ++ l.sent := rfl

theorem append_assoc (k l n : Routes) : k ++ l ++ n = k ++ (l ++ n) := by
  change Routes.mk (k.direct ++ l.direct ++ n.direct) (k.sent ++ l.sent ++ n.sent) =
    Routes.mk (k.direct ++ (l.direct ++ n.direct)) (k.sent ++ (l.sent ++ n.sent))
  rw [List.append_assoc, List.append_assoc]

/-- Sending one after the other is sending both. -/
theorem append_sent_append (k : Routes) (xs ys : List Event) :
    k ++ ({ sent := xs } : Routes) ++ { sent := ys } = k ++ { sent := xs ++ ys } :=
  append_assoc k _ _

theorem direct_append_sent (xs ys : List Event) :
    ({ direct := xs } : Routes) ++ { sent := ys } = { direct := xs, sent := ys } := by
  change Routes.mk (xs ++ []) ([] ++ ys) = _
  rw [List.append_nil, List.nil_append]

@[simp] theorem append_empty (k : Routes) : k ++ ({} : Routes) = k := by
  change Routes.mk (k.direct ++ []) (k.sent ++ []) = k
  simp

end Routes

/-- The external events among those submitted by a request. -/
def Request.direct : Request → List Event
  | .submit event => if event.origin = .external then [event] else []
  | _ => []

variable {σ : Type}

namespace Engine

variable {s₀ s s' : Session σ} {k : Routes}

/-- What waits and what has been taken, against what has come in: all that has been sent is drained
or waits in the hand-off, and the external events taken or in the external queue are an interleaving
of those submitted and those drained. -/
structure Accounts (dequeued : List Event) (q : Queues) (k : Routes) : Prop where
  internal : ∀ ev ∈ q.internal, ev.origin = .internal
  external : ∀ ev ∈ q.outside, ev.origin = .external
  merged : ∃ drained, k.sent = drained ++ q.handOff ∧
    Interleaving (dequeued.filter (·.origin = .external) ++ q.external) k.direct drained

namespace Accounts

variable {dequeued evs : List Event} {q q' : Queues} {ev : Event}

theorem interleaving (h : Accounts dequeued q k) : Interleaving
    (dequeued.filter (·.origin = .external) ++ q.external ++ q.handOff) k.direct k.sent := by
  obtain ⟨drained, hsent, hmerged⟩ := h.merged
  rw [hsent]
  exact hmerged.append_right q.handOff

theorem enqueue (h : Accounts dequeued q k) (evs : List Event)
    (hevs : ∀ ev ∈ evs, ev.origin = .internal) :
    Accounts dequeued { q with internal := q.internal ++ evs } k := by
  refine ⟨fun ev hev => ?_, h.external, h.merged⟩
  exact (List.mem_append.mp hev).elim (h.internal ev) (hevs ev)

theorem push (h : Accounts dequeued q k) (ev : Event) :
    Accounts dequeued (q.push ev) (k ++ { direct := (Request.submit ev).direct }) := by
  cases horigin : ev.origin with
  | internal =>
    have hnone : (Request.submit ev).direct = [] := by simp [Request.direct, horigin]
    rw [hnone, Routes.append_empty]
    simpa [Queues.push, horigin] using h.enqueue [ev] (by simpa using horigin)
  | external =>
    obtain ⟨drained, hsent, hmerged⟩ := h.merged
    have hone : (Request.submit ev).direct = [ev] := by simp [Request.direct, horigin]
    simp only [Queues.push, horigin, hone]
    refine ⟨h.internal, fun ev' hev' => ?_, drained, by simpa using hsent, ?_⟩
    · simp only [Queues.outside, List.mem_append, List.mem_singleton] at hev'
      rcases hev' with (hev' | rfl) | hev'
      · exact h.external ev' (List.mem_append_left _ hev')
      · exact horigin
      · exact h.external ev' (List.mem_append_right _ hev')
    · rw [← List.append_assoc]
      exact hmerged.append_left [ev]

theorem send (h : Accounts dequeued q k) (ev : Event) :
    Accounts dequeued (q.send ev) (k ++ { sent := [ev.withOrigin .external] }) := by
  obtain ⟨drained, hsent, hmerged⟩ := h.merged
  refine ⟨h.internal, fun ev' hev' => ?_, drained, ?_, ?_⟩
  · rw [Queues.outside_send, List.mem_append, List.mem_singleton] at hev'
    rcases hev' with hev' | rfl
    · exact h.external ev' hev'
    · rfl
  · rw [Routes.sent_append, hsent, List.append_assoc]
    rfl
  · simpa [Queues.send] using hmerged

theorem drain (h : Accounts dequeued q k) : Accounts dequeued q.drain k := by
  obtain ⟨drained, hsent, hmerged⟩ := h.merged
  refine ⟨h.internal, fun ev hev => h.external ev (Queues.outside_drain q ▸ hev), k.sent, ?_, ?_⟩
  · exact (List.append_nil k.sent).symm
  · rw [hsent, Queues.drain, ← List.append_assoc]
    exact hmerged.append_right q.handOff

theorem clearInternal (h : Accounts dequeued q k) : Accounts dequeued q.clearInternal k :=
  ⟨fun _ hev => absurd hev List.not_mem_nil, h.external, h.merged⟩

theorem popInternal (h : Accounts dequeued q k) (hpop : q.popInternal? = some (ev, q')) :
    Accounts (dequeued ++ [ev]) q' k := by
  obtain ⟨hfirst, hexternal, hhandOff⟩ := Queues.popInternal?_eq_some hpop
  obtain ⟨drained, hsent, hmerged⟩ := h.merged
  have horigin := h.internal ev (by simp [hfirst])
  refine ⟨fun ev' hev' => h.internal ev' (by simp [hfirst, hev']), fun ev' hev' => ?_, drained,
    by rw [hhandOff, hsent], ?_⟩
  · exact h.external ev' (Queues.outside_popInternal? hpop ▸ hev')
  · simpa [List.filter_append, horigin, hexternal] using hmerged

theorem popExternal (h : Accounts dequeued q k) (hpop : q.popExternal? = some (ev, q')) :
    Accounts (dequeued ++ [ev]) q' k := by
  obtain ⟨hfirst, hinternal, hhandOff⟩ := Queues.popExternal?_eq_some hpop
  obtain ⟨drained, hsent, hmerged⟩ := h.merged
  have hout := Queues.outside_popExternal? hpop
  have horigin := h.external ev (by simp [hout])
  refine ⟨hinternal ▸ h.internal, fun ev' hev' => h.external ev' (by simp [hout, hev']), drained,
    by rw [hhandOff, hsent], ?_⟩
  simpa [List.filter_append, horigin, hfirst] using hmerged

theorem raiseAll (h : Accounts dequeued q k) (evs : List Event) :
    Accounts dequeued (evs.foldl Queues.raise q) k := by
  induction evs generalizing q with
  | nil => exact h
  | cons ev evs ih =>
    have hone : ∀ ev' ∈ [ev.withOrigin .internal], ev'.origin = .internal := by
      intro ev' hev'
      rw [List.mem_singleton.mp hev']
      rfl
    exact ih (h.enqueue _ hone)

end Accounts

/-- The accounts hold of the events taken since `s₀`. -/
def Tallies (s₀ s : Session σ) (k : Routes) : Prop :=
  ∃ dequeued, s.taken = s₀.taken ++ dequeued ∧ Accounts dequeued s.queues k

theorem Tallies.congr (h : Tallies s₀ s k) (htaken : s'.taken = s.taken)
    (hqueues : s'.queues = s.queues) : Tallies s₀ s' k := by
  obtain ⟨dequeued, hdequeued, hacc⟩ := h
  exact ⟨dequeued, htaken.trans hdequeued, hqueues ▸ hacc⟩

theorem Tallies.requeue (h : Tallies s₀ s k) {queues : Queues} {new : Routes}
    (hacc : ∀ dequeued, Accounts dequeued s.queues k → Accounts dequeued queues new) :
    Tallies s₀ { s with queues } new := by
  obtain ⟨dequeued, hdequeued, h⟩ := h
  exact ⟨dequeued, hdequeued, hacc dequeued h⟩

end Engine

end Statechart

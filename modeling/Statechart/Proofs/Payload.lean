import Statechart.Proofs.Checkpointing

/-!
Payloads in checkpoints. The payload of a pending event is saved as text, inside whatever the
checkpoint itself is written in. Different payloads have different texts, however deep they nest,
and no payload at all differs from `null`; but a reader follows a text only to a certain depth, so
an event comes back as it was if its payload does not nest deeper, and else not at all.
-/
namespace Statechart

namespace OrderedMap

variable {κ α : Type} [LT κ] [DecidableLT κ] [KeyOrder κ] {w : κ × α} {ws : List (κ × α)}

/-- Only what has been written is in the map. -/
theorem mem_of_mem_ofWrites (h : w ∈ (ofWrites ws).entries) : w ∈ ws := by
  have fold (ws : List (κ × α)) (m : OrderedMap κ α)
      (h : w ∈ (ws.foldl (fun m w => m.put w.1 w.2) m).entries) : w ∈ m.entries ∨ w ∈ ws := by
    induction ws generalizing m with
    | nil => exact .inl h
    | cons v ws ih =>
      rcases ih (m.put v.1 v.2) h with hput | hws
      · rcases Ordered.mem_put hput with rfl | hm
        · exact .inr List.mem_cons_self
        · exact .inl hm
      · exact .inr (List.mem_cons_of_mem v hws)
  exact (fold ws empty h).resolve_left List.not_mem_nil

end OrderedMap

namespace Json

/-! ### Depths -/

theorem Value.depthOfItems_le {n : Nat} {vs : List Value} (h : ∀ v ∈ vs, v.depth ≤ n) :
    Value.depthOfItems vs ≤ n := by
  induction vs with
  | nil => exact Nat.zero_le n
  | cons v vs ih =>
    rw [Value.depthOfItems]
    exact Nat.max_le.mpr ⟨h v (by simp), ih fun w hw => h w (by simp [hw])⟩

theorem Value.depthOfFields_le {n : Nat} {fs : List (String × Value)}
    (h : ∀ f ∈ fs, f.2.depth ≤ n) : Value.depthOfFields fs ≤ n := by
  induction fs with
  | nil => exact Nat.zero_le n
  | cons f fs ih =>
    obtain ⟨k, v⟩ := f
    rw [Value.depthOfFields]
    exact Nat.max_le.mpr ⟨h (k, v) (by simp), ih fun g hg => h g (by simp [hg])⟩

namespace Document

mutual

/-- What is read within a depth nests no deeper, and is read within any greater depth too. -/
theorem value?_spec {k k' : Nat} (hk : k ≤ k') : (d : Document) → ∀ v, d.value? k = some v →
    v.depth ≤ k ∧ d.value? k' = some v
  | null => by
    intro v h
    obtain rfl := Option.some.inj h
    exact ⟨Nat.zero_le k, rfl⟩
  | bool b => by
    intro v h
    obtain rfl := Option.some.inj h
    exact ⟨Nat.zero_le k, rfl⟩
  | number n => by
    intro v h
    obtain ⟨i, hi, rfl⟩ := Option.map_eq_some_iff.mp h
    exact ⟨Nat.zero_le k, h⟩
  | text body => by
    intro v h
    obtain ⟨s, hs, rfl⟩ := Option.map_eq_some_iff.mp h
    exact ⟨Nat.zero_le k, h⟩
  | array items => by
    intro v h
    cases k with
    | zero => simp [value?] at h
    | succ k =>
      obtain ⟨k', rfl⟩ : ∃ l, k' = l + 1 := ⟨k' - 1, by omega⟩
      obtain ⟨vs, hvs, rfl⟩ := Option.map_eq_some_iff.mp h
      obtain ⟨hdepth, hvs'⟩ := values?_spec (Nat.le_of_succ_le_succ hk) items vs hvs
      refine ⟨?_, Option.map_eq_some_iff.mpr ⟨vs, hvs', rfl⟩⟩
      rw [Value.depth]
      exact Nat.succ_le_succ (Value.depthOfItems_le hdepth)
  | object fields => by
    intro v h
    cases k with
    | zero => simp [value?] at h
    | succ k =>
      obtain ⟨k', rfl⟩ : ∃ l, k' = l + 1 := ⟨k' - 1, by omega⟩
      obtain ⟨ws, hws, rfl⟩ := Option.map_eq_some_iff.mp h
      obtain ⟨hdepth, hws'⟩ := entries?_spec (Nat.le_of_succ_le_succ hk) fields ws hws
      refine ⟨?_, Option.map_eq_some_iff.mpr ⟨ws, hws', rfl⟩⟩
      rw [Value.depth]
      exact Nat.succ_le_succ (Value.depthOfFields_le fun f hf =>
        hdepth f (OrderedMap.mem_of_mem_ofWrites hf))

theorem values?_spec {k k' : Nat} (hk : k ≤ k') : (ds : List Document) → ∀ vs,
    values? k ds = some vs → (∀ v ∈ vs, v.depth ≤ k) ∧ values? k' ds = some vs
  | [] => by
    intro vs h
    obtain rfl := Option.some.inj h
    exact ⟨by simp, rfl⟩
  | d :: ds => by
    intro vs h
    rw [values?] at h
    split at h
    · rename_i v vs hv hvs
      obtain rfl := Option.some.inj h
      obtain ⟨hdepth, hv'⟩ := value?_spec hk d v hv
      obtain ⟨hdepths, hvs'⟩ := values?_spec hk ds vs hvs
      exact ⟨List.forall_mem_cons.mpr ⟨hdepth, hdepths⟩, by rw [values?, hv', hvs']⟩
    · simp at h

theorem entries?_spec {k k' : Nat} (hk : k ≤ k') : (fs : List (List Char × Document)) → ∀ ws,
    entries? k fs = some ws → (∀ w ∈ ws, w.2.depth ≤ k) ∧ entries? k' fs = some ws
  | [] => by
    intro ws h
    obtain rfl := Option.some.inj h
    exact ⟨by simp, rfl⟩
  | (key, d) :: fs => by
    intro ws h
    rw [entries?] at h
    split at h
    · rename_i name v ws hname hv hws
      obtain rfl := Option.some.inj h
      obtain ⟨hdepth, hv'⟩ := value?_spec hk d v hv
      obtain ⟨hdepths, hws'⟩ := entries?_spec hk fs ws hws
      exact ⟨List.forall_mem_cons.mpr ⟨hdepth, hdepths⟩, by rw [entries?, hname, hv', hws']⟩
    · simp at h

end

end Document

/-! ### Texts of values -/

namespace Value.Whole

variable {v w : Value}

/-- No two values have the same text. -/
theorem eq_of_compact (hv : v.Whole) (hw : w.Whole) (h : v.compact = w.compact) : v = w := by
  obtain ⟨d, hd, hread⟩ := hv.exists_document (Nat.le_max_left v.depth w.depth)
  obtain ⟨d', hd', hread'⟩ := hw.exists_document (Nat.le_max_right v.depth w.depth)
  rw [h, hd', Option.some.injEq] at hd
  rw [hd, hread] at hread'
  exact Option.some.inj hread'

/-- A text that nests too deep is refused. -/
theorem parse?_compact_eq_none (hv : v.Whole) (h : depthLimit < v.depth) :
    Value.parse? v.compact = none := by
  obtain ⟨d, hd, hread⟩ := hv.exists_document (Nat.le_refl v.depth)
  rw [Value.parse?, hd, Option.bind_some]
  cases hlimit : d.value? depthLimit with
  | none => rfl
  | some w =>
    obtain ⟨hdepth, hread'⟩ := Document.value?_spec (Nat.le_of_lt h) d w hlimit
    obtain rfl := Option.some.inj (hread.symm.trans hread')
    omega

end Value.Whole

/-- So many arrays, each but the innermost around the next. -/
def nested : Nat → Value
  | 0 => .null
  | n + 1 => .array [nested n]

theorem whole_nested (n : Nat) : (nested n).Whole := by
  induction n with
  | zero => exact .null
  | succ n ih => exact .array (by simpa using ih)

theorem depth_nested (n : Nat) : (nested n).depth = n := by
  induction n with
  | zero => rfl
  | succ n ih => rw [nested, Value.depth, Value.depthOfItems, Value.depthOfItems, ih, Nat.max_zero]

end Json

namespace SavedEvent

variable {ev : Event}

/-- An event is saved whatever its payload is, if that has no numbers but whole ones of 64 bits. It
is restored as it was, in its name, origin and payload, exactly if the payload nests no deeper than
a reader follows, and else not at all; no payload and `null` are different things throughout, and
two events are never saved alike. -/
theorem payload_survives_iff (hwhole : ∀ p ∈ ev.payload, p.Whole) :
    ((capture ev).toEvent? = some ev ↔ ∀ p ∈ ev.payload, p.depth ≤ Json.depthLimit) ∧
    ((capture ev).toEvent? = none ↔ ∃ p ∈ ev.payload, Json.depthLimit < p.depth) ∧
    ((capture ev).payload = none ↔ ev.payload = none) ∧
    ((capture ev).payload = some Json.Value.null.compact ↔ ev.payload = some .null) ∧
    ∀ ev' : Event, (∀ p ∈ ev'.payload, p.Whole) → capture ev' = capture ev → ev' = ev := by
  obtain ⟨name, payload, origin⟩ := ev
  have hsame (ev' : Event) (hwhole' : ∀ p ∈ ev'.payload, p.Whole)
      (h : capture ev' = capture ⟨name, payload, origin⟩) : ev' = ⟨name, payload, origin⟩ := by
    obtain ⟨name', payload', origin'⟩ := ev'
    obtain ⟨rfl, rfl, htext⟩ := SavedEvent.mk.inj h
    congr 1
    cases payload with
    | none => exact Option.map_eq_none_iff.mp htext
    | some p =>
      obtain ⟨p', rfl, hcompact⟩ := Option.map_eq_some_iff.mp htext
      exact congrArg some ((hwhole' p' rfl).eq_of_compact (hwhole p rfl) hcompact)
  cases payload with
  | none => exact ⟨by simp [capture, toEvent?], by simp [capture, toEvent?], by simp [capture],
      by simp [capture], hsame⟩
  | some p =>
    have hp : p.Whole := hwhole p rfl
    have hback (hdepth : p.depth ≤ Json.depthLimit) :
        (capture ⟨name, some p, origin⟩).toEvent? = some ⟨name, some p, origin⟩ := by
      simp [capture, toEvent?, hp.parse?_compact hdepth]
    have hrefused (hdepth : Json.depthLimit < p.depth) :
        (capture ⟨name, some p, origin⟩).toEvent? = none := by
      simp [capture, toEvent?, hp.parse?_compact_eq_none hdepth]
    refine ⟨?_, ?_, by simp [capture], ?_, hsame⟩
    · constructor
      · intro h q hq
        obtain rfl := Option.some.inj hq
        by_contra hdeep
        simp [hrefused (by omega)] at h
      · exact fun h => hback (h p rfl)
    · constructor
      · intro h
        refine ⟨p, rfl, ?_⟩
        by_contra hshallow
        simp [hback (by omega)] at h
      · rintro ⟨q, hq, hdeep⟩
        obtain rfl := Option.some.inj hq
        exact hrefused hdeep
    · simp only [capture, Option.map_some, Option.some.injEq]
      exact ⟨fun h => hp.eq_of_compact .null h, fun h => h ▸ rfl⟩

/-- An order with odd keys, characters that are escaped, the least and the greatest number, and
containers without contents. -/
def order : Json.Value := .object [
  ("", .text "\"\\ \n\t é"),
  ("empty", .array [.array [], .object []]),
  ("limits", .array [.number (.integer (-Int.pow 2 63)), .number (.integer (Int.pow 2 64 - 1))])]

theorem whole_order : order.Whole := by
  have hlow : Json.Fits (-Int.pow 2 63) := ⟨by decide, by decide⟩
  have hhigh : Json.Fits (Int.pow 2 64 - 1) := ⟨by decide, by decide⟩
  refine .object (by unfold Ordered.Ascending; decide) fun f hf => ?_
  simp only [List.mem_cons, List.not_mem_nil, or_false] at hf
  rcases hf with rfl | rfl | rfl
  · exact .text _
  · exact .array (by simpa using ⟨.array (by simp), .object .nil (by simp)⟩)
  · exact .array (by simpa using ⟨.integer hlow, .integer hhigh⟩)

/-- The order comes back, and so do an event without a payload, one with `null`, and one that nests
as deep as is allowed; with one level more it is lost. -/
theorem order_restored :
    (capture ⟨"placed", some order, .internal⟩).toEvent? = some ⟨"placed", some order, .internal⟩ ∧
    (capture ⟨"placed", none, .external⟩).toEvent? = some ⟨"placed", none, .external⟩ ∧
    (capture ⟨"placed", some .null, .external⟩).toEvent? =
      some ⟨"placed", some .null, .external⟩ ∧
    (capture ⟨"placed", some (Json.nested 127), .external⟩).toEvent? =
      some ⟨"placed", some (Json.nested 127), .external⟩ ∧
    (capture ⟨"placed", some (Json.nested 128), .external⟩).toEvent? = none := by
  have hpayload {p : Json.Value} (hp : p.Whole) : ∀ q ∈ some p, q.Whole := by
    rintro _ ⟨⟩
    exact hp
  refine ⟨(payload_survives_iff (hpayload whole_order)).1.mpr ?_,
    (payload_survives_iff (by simp)).1.mpr (by simp),
    (payload_survives_iff (hpayload .null)).1.mpr ?_,
    (payload_survives_iff (hpayload (Json.whole_nested 127))).1.mpr ?_,
    (payload_survives_iff (hpayload (Json.whole_nested 128))).2.1.mpr ?_⟩
  · simp [order, Json.Value.depth, Json.Value.depthOfItems, Json.Value.depthOfFields,
      Json.depthLimit]
  · simp [Json.Value.depth]
  · simp [Json.depth_nested, Json.depthLimit]
  · simp [Json.depth_nested, Json.depthLimit]

end SavedEvent

end Statechart

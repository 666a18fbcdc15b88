import Statechart.Checkpoint.Restore
import Statechart.Proofs.Naming
import Statechart.Proofs.Recording

/-!
Accepted checkpoints. A checkpoint is accepted exactly when it passes every check, and then the
session is the one that it describes, name by name. Its records need not come from any run: they name
something, and only states below the parents of their history states.
-/
namespace Statechart

variable {σ : Type} {e : Engine σ} {s s' : Session σ} {c : Checkpoint}

/-- The memory after so many records. -/
def Memory.ofRecords (records : List (Nat × List Nat)) : Memory :=
  records.foldl (fun m r => m.record r.1 r.2) Memory.empty

namespace Engine

/-- What a record in a checkpoint says: the history state and the states it names. -/
structure Recalls (e : Engine σ) (saved : String × List String) (record : Nat × List Nat) :
    Prop where
  name : e.chart.find? saved.1 = some record.1
  history : e.chart.isHistory record.1 = true
  states : List.Forall₂ (fun n i => e.chart.find? n = some i) saved.2 record.2
  nonempty : record.2 ≠ []
  below : ∀ i ∈ record.2,
    e.chart.isDescendant i ((e.chart.parent record.1).getD Chart.root) = true ∧
      e.chart.isHistory i = false

/-- The checkpoint passes every check, and this is what it says. -/
structure Accepts (e : Engine σ) (s : Session σ) (c : Checkpoint) (active : List Nat)
    (records : List (Nat × List Nat)) (internal external : List Event) : Prop where
  idle : s.status = .idle
  version : c.version = checkpointVersion
  chart : c.chart = e.chart.name
  valid : Configuration.validate (StateSet.ofList active) e.chart = .ok ()
  status : (restoredStatus c.status = .idle ↔ (StateSet.ofList active).isEmpty = true)
  found : List.Forall₂ (fun n i => e.chart.find? n = some i) c.active active
  recalled : List.Forall₂ e.Recalls c.history.entries records
  parsed : List.Forall₂ (fun saved ev => saved.toEvent? = some ev) c.internal internal
  parsed' : List.Forall₂ (fun saved ev => saved.toEvent? = some ev) c.external external

theorem check_eq_ok_iff {passed : Bool} {error : CheckpointError} {u : Unit} :
    check passed error = .ok u ↔ passed = true := by
  cases passed <;> simp [check]

theorem stateNamed_eq_ok_iff {name : String} {i : Nat} :
    e.stateNamed name = .ok i ↔ e.chart.find? name = some i := by
  unfold stateNamed
  cases e.chart.find? name <;> simp

theorem restoreEvent_eq_ok_iff {saved : SavedEvent} {ev : Event} :
    restoreEvent saved = .ok ev ↔ saved.toEvent? = some ev := by
  unfold restoreEvent
  cases saved.toEvent? <;> simp

theorem checkConfiguration_eq_ok_iff {x : Configuration} {u : Unit} :
    e.checkConfiguration x = .ok u ↔ x.validate e.chart = .ok () := by
  unfold checkConfiguration Configuration.violation?
  cases x.validate e.chart <;> simp

theorem checkRecorded_eq_ok_iff {name : String} {parent : Nat} {recorded : List Nat} {u : Unit} :
    e.checkRecorded name parent recorded = .ok u ↔ ∀ i ∈ recorded,
      e.chart.isDescendant i parent = true ∧ e.chart.isHistory i = false := by
  unfold checkRecorded
  cases h : recorded.find? (fun s => !e.chart.isDescendant s parent || e.chart.isHistory s) with
  | none => simpa using h
  | some stray =>
    simp only [reduceCtorEq, false_iff]
    intro hall
    have hstray := hall stray (List.mem_of_find?_eq_some h)
    have := List.find?_some h
    simp [hstray] at this

theorem checkVersion_eq_ok_iff {u : Unit} :
    discard c.checkVersion = .ok u ↔ c.version = checkpointVersion := by
  unfold Checkpoint.checkVersion
  split
  · rename_i hversion
    exact ⟨fun _ => hversion, fun _ => rfl⟩
  · rename_i hversion
    exact ⟨fun h => (by cases h), fun h => absurd h hversion⟩

theorem idle_beq_iff {status : Status} {empty : Bool} :
    ((status == .idle) == empty) = true ↔ (status = .idle ↔ empty = true) := by
  cases status <;> cases empty <;> decide

/-- A record is restored exactly when it can be recalled. -/
theorem restoreRecord_eq_ok_iff {m m' : Memory} {saved : String × List String} :
    e.restoreRecord m saved = .ok m' ↔
      ∃ record, e.Recalls saved record ∧ m' = m.record record.1 record.2 := by
  simp only [restoreRecord, bind_eq_ok_iff, check_eq_ok_iff, checkRecorded_eq_ok_iff,
    mapM_eq_ok_iff, stateNamed_eq_ok_iff]
  constructor
  · rintro ⟨h, hname, -, hhistory, ss, hstates, -, hne, -, hbelow, hm'⟩
    exact ⟨(h, ss), ⟨hname, hhistory, hstates, by simpa using hne, hbelow⟩,
      (Except.ok.inj hm').symm⟩
  · rintro ⟨⟨h, ss⟩, recalls, rfl⟩
    exact ⟨h, recalls.name, (), recalls.history, ss, recalls.states, (),
      by simpa using recalls.nonempty, (), recalls.below, rfl⟩

theorem foldlM_restoreRecord_eq_ok_iff {m m' : Memory} {saved : List (String × List String)} :
    saved.foldlM e.restoreRecord m = .ok m' ↔ ∃ records, List.Forall₂ e.Recalls saved records ∧
      m' = records.foldl (fun m r => m.record r.1 r.2) m := by
  induction saved generalizing m with
  | nil =>
    simp only [List.foldlM_nil, List.forall₂_nil_left_iff, exists_eq_left, List.foldl_nil]
    exact ⟨fun h => (Except.ok.inj h).symm, fun h => congrArg Except.ok h.symm⟩
  | cons r saved ih =>
    simp only [List.foldlM_cons, bind_eq_ok_iff, restoreRecord_eq_ok_iff, ih]
    constructor
    · rintro ⟨_, ⟨record, recalls, rfl⟩, records, hrecords, rfl⟩
      exact ⟨record :: records, .cons recalls hrecords, rfl⟩
    · rintro ⟨records, hrecords, rfl⟩
      cases hrecords with
      | cons recalls hrecords => exact ⟨_, ⟨_, recalls, rfl⟩, _, hrecords, rfl⟩

/-- A checkpoint is restored exactly when it is accepted. -/
theorem restore_eq_ok_iff : e.restore s c = .ok s' ↔ ∃ active records internal external,
    e.Accepts s c active records internal external ∧
      s' = { s with
        status := restoredStatus c.status
        configuration := StateSet.ofList active
        memory := Memory.ofRecords records
        queues := Queues.ofEvents internal external } := by
  simp only [restore, bind_eq_ok_iff, check_eq_ok_iff, mapM_eq_ok_iff, checkVersion_eq_ok_iff,
    checkConfiguration_eq_ok_iff, foldlM_restoreRecord_eq_ok_iff, stateNamed_eq_ok_iff,
    restoreEvent_eq_ok_iff, decide_eq_true_eq, idle_beq_iff]
  constructor
  · rintro ⟨-, hidle, -, hversion, -, hchart, active, hactive, -, hvalid, -, hstatus, _,
      ⟨records, hrecords, rfl⟩, internal, hinternal, external, hexternal, hs'⟩
    exact ⟨active, records, internal, external, ⟨hidle, hversion, hchart, hvalid, hstatus, hactive,
      hrecords, hinternal, hexternal⟩, (Except.ok.inj hs').symm⟩
  · rintro ⟨active, records, internal, external, acc, rfl⟩
    exact ⟨(), acc.idle, (), acc.version, (), acc.chart, active, acc.found, (), acc.valid, (),
      acc.status, _, ⟨records, acc.recalled, rfl⟩, internal, acc.parsed, external, acc.parsed', rfl⟩

/-- What is recorded under a history state is what the last record for it names. -/
theorem mem_of_get?_foldl {m : Memory} {records : List (Nat × List Nat)} {h : Nat} {ss : List Nat}
    (hget : (records.foldl (fun m r => m.record r.1 r.2) m).get? h = some ss) :
    (∃ named, (h, named) ∈ records ∧ ss = (StateSet.ofList named).toList) ∨ m.get? h = some ss := by
  induction records generalizing m with
  | nil => exact .inr hget
  | cons r records ih =>
    rcases ih hget with ⟨named, hmem, hss⟩ | hm
    · exact .inl ⟨named, List.mem_cons_of_mem _ hmem, hss⟩
    · rw [Memory.get?_record] at hm
      split at hm
      · rename_i hr
        exact .inl ⟨r.2, by simp [hr], (Option.some.inj hm).symm⟩
      · exact .inr hm

/-- The records of an accepted checkpoint are filled, though what one of them names need never be
active together. -/
theorem Accepts.filled {active : List Nat} {records : List (Nat × List Nat)}
    {internal external : List Event}
    (acc : e.Accepts s c active records internal external) :
    (Memory.ofRecords records).Filled e.chart := by
  have recalled (h : Nat) (ss : List Nat) (hget : (Memory.ofRecords records).get? h = some ss) :
      ∃ saved named, e.Recalls saved (h, named) ∧ ss = (StateSet.ofList named).toList := by
    rcases mem_of_get?_foldl hget with ⟨named, hmem, hss⟩ | hnone
    · obtain ⟨saved, -, recalls⟩ := exists_mem_of_forall₂ acc.recalled hmem
      exact ⟨saved, named, recalls, hss⟩
    · simp at hnone
  constructor
  · rintro h q ss - hq hget i hi
    obtain ⟨saved, named, recalls, rfl⟩ := recalled h ss hget
    obtain ⟨hbelow, hreal⟩ := recalls.below i (by simpa using hi)
    rw [hq, Option.getD_some] at hbelow
    exact ⟨Ancestry.isDescendant_iff.mp hbelow, hreal⟩
  · rintro h q ss - - hget rfl
    obtain ⟨saved, named, recalls, hnamed⟩ := recalled h [] hget
    obtain ⟨i, hi⟩ := List.exists_mem_of_ne_nil _ recalls.nonempty
    have hmem : i ∈ (StateSet.ofList named).toList := by simpa using hi
    simp [← hnamed] at hmem

end Engine

end Statechart

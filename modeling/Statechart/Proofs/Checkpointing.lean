import Statechart.Proofs.Acceptance
import Statechart.Proofs.Continuation
import Statechart.Proofs.JsonText
import Statechart.Proofs.Occupation

/-!
Checkpoints of runs. What a checkpoint says of a session is what restoring it brings back: states
travel by their names, which are found again, records in the order of the names of their history
states, which is put right, and payloads as text, which is read back. The other way round, saving a
restored session puts in order what the checkpoint has named.
-/
namespace Statechart

open Ordered (Ascending Distinct)

variable {σ : Type}

namespace Chart

variable {c : Chart} {names : List String} {ss : List Nat}

/-- A record by the name of its history state. -/
def nameRecord (c : Chart) (r : Nat × List Nat) : String × List String :=
  (c.nameOf r.1, c.namesOf r.2)

/-- The same names in document order, each once. -/
structure InOrder (c : Chart) (names sorted : List String) : Prop where
  ordered : ∃ ss : List Nat, ss.Pairwise (· < ·) ∧ (∀ i ∈ ss, i < c.size) ∧ sorted = c.namesOf ss
  nodup : sorted.Nodup
  mem_iff : ∀ name, name ∈ sorted ↔ name ∈ names

theorem recorded_ascending {x : Configuration} {h : Nat} : (c.recorded x h).Pairwise (· < ·) := by
  unfold recorded
  split
  · exact c.toRecord_ascending x _ _
  · exact .nil

theorem Named.found_namesOf (named : c.Named) (h : ∀ i ∈ ss, i < c.size) :
    List.Forall₂ (fun n i => c.find? n = some i) (c.namesOf ss) ss := by
  rw [namesOf, List.forall₂_map_left_iff, List.forall₂_same]
  exact fun i hi => named.find?_nameOf (h i hi)

theorem Named.inOrder_namesOf (named : c.Named)
    (h : List.Forall₂ (fun n i => c.find? n = some i) names ss) :
    c.InOrder names (c.namesOf (StateSet.ofList ss).toList) := by
  have hlt (i : Nat) (hi : i ∈ (StateSet.ofList ss).toList) : i < c.size := by
    obtain ⟨name, -, hname⟩ := exists_mem_of_forall₂ h (StateSet.mem_ofList.mp hi)
    exact (find?_eq_some hname).1
  refine ⟨⟨_, (StateSet.ofList ss).ascending, hlt, rfl⟩, ?_, fun name => ?_⟩
  · refine List.pairwise_map.mpr ((StateSet.ofList ss).ascending.imp_of_mem ?_)
    intro i j hi hj hij heq
    exact Nat.ne_of_lt hij (named i j (hlt i hi) (hlt j hj) heq)
  · simp only [namesOf, List.mem_map, StateSet.mem_toList, StateSet.mem_ofList]
    constructor
    · rintro ⟨i, hi, rfl⟩
      obtain ⟨name, hname, hfind⟩ := exists_mem_of_forall₂ h hi
      exact (find?_eq_some hfind).2 ▸ hname
    · intro hname
      obtain ⟨i, hi, hfind⟩ := exists_result_of_forall₂ h hname
      exact ⟨i, hi, (find?_eq_some hfind).2⟩

theorem Named.distinct_nameRecord (named : c.Named) {rs : List (Nat × List Nat)}
    (hlt : ∀ r ∈ rs, r.1 < c.size) (h : Distinct rs) : Distinct (rs.map c.nameRecord) := by
  refine List.pairwise_map.mpr (List.Pairwise.imp_of_mem ?_ h)
  intro r r' hr hr' hne heq
  exact hne (named r.1 r'.1 (hlt r hr) (hlt r' hr') heq)

end Chart

theorem StateSet.ofList_toList (x : StateSet) : StateSet.ofList x.toList = x :=
  ext fun _ => mem_ofList

/-- A record with its states in order. -/
def Memory.tidy (r : Nat × List Nat) : Nat × List Nat := (r.1, (StateSet.ofList r.2).toList)

theorem Memory.records_ofRecords (rs : List (Nat × List Nat)) :
    (Memory.ofRecords rs).records = OrderedMap.ofWrites (rs.map tidy) := by
  have fold (m : Memory) : (rs.foldl (fun m r => m.record r.1 r.2) m).records =
      (rs.map tidy).foldl (fun m w => m.put w.1 w.2) m.records := by
    induction rs generalizing m with
    | nil => rfl
    | cons r rs ih => exact ih (m.record r.1 r.2)
  exact fold Memory.empty

/-- The payload survives being written as text: it is of whole numbers and nests no deeper than a
reader allows. -/
def Event.Portable (ev : Event) : Prop :=
  ∀ p, ev.payload = some p → p.Whole ∧ p.depth ≤ Json.depthLimit

theorem Event.Portable.toEvent?_capture {ev : Event} (h : ev.Portable) :
    (SavedEvent.capture ev).toEvent? = some ev := by
  obtain ⟨name, payload, origin⟩ := ev
  cases payload with
  | none => rfl
  | some p =>
    obtain ⟨hwhole, hdepth⟩ := h p rfl
    simp only [SavedEvent.capture, SavedEvent.toEvent?, Option.map_some,
      hwhole.parse?_compact hdepth]

theorem parsed_capture {evs : List Event} (h : ∀ ev ∈ evs, ev.Portable) :
    List.Forall₂ (fun saved ev => saved.toEvent? = some ev) (evs.map SavedEvent.capture) evs := by
  rw [List.forall₂_map_left_iff, List.forall₂_same]
  exact fun ev hev => (h ev hev).toEvent?_capture

namespace Engine

variable {e e' : Engine σ} {s fresh : Session σ} {c : Checkpoint} {id : Uuid}
  {timestamp : Timestamp} {records : List (Nat × List Nat)}

/-! ### Records -/

section Forward

variable (wf : e.chart.WellFormed) (named : e.chart.Named) (faithful : s.memory.Faithful e.chart)
include wf named faithful

theorem recalls_nameRecord {r : Nat × List Nat} (hr : r ∈ s.memory.records.entries) :
    e.Recalls (e.chart.nameRecord r) r ∧ Memory.tidy r = r := by
  have hget : s.memory.get? r.1 = some r.2 := OrderedMap.get?_of_mem hr
  obtain ⟨hh, x, p, hx, hpx, hp, hss⟩ := faithful r.1 r.2 hget
  have restorable := Chart.restorable_recorded wf hx hh hp hpx
  rw [← hss] at restorable
  have hasc : r.2.Pairwise (· < ·) := hss ▸ Chart.recorded_ascending
  refine ⟨⟨named.find?_nameOf (Chart.lt_size_of_parent hp), hh,
    named.found_namesOf fun i hi => wf.lt_size_of_below (restorable.below i hi),
    restorable.nonempty, fun i hi => ?_⟩, ?_⟩
  · rw [hp, Option.getD_some]
    exact ⟨Ancestry.isDescendant_iff.mpr (restorable.below i hi), restorable.real i hi⟩
  · rw [Memory.tidy, StateSet.toList_ofList hasc]

/-- The records of a checkpoint are recalled, and make up the memory again. -/
theorem exists_records_checkpoint (id : Uuid) (timestamp : Timestamp) : ∃ records,
    List.Forall₂ e.Recalls (e.checkpoint s id timestamp).history.entries records ∧
      Memory.ofRecords records = s.memory := by
  have hlt : ∀ r ∈ s.memory.records.entries, r.1 < e.chart.size := fun r hr =>
    (Chart.find?_eq_some (recalls_nameRecord wf named faithful hr).1.name).1
  have hperm : (e.checkpoint s id timestamp).history.entries.Perm
      (s.memory.records.entries.map e.chart.nameRecord) :=
    OrderedMap.perm_ofWrites (named.distinct_nameRecord hlt s.memory.records.ascending.distinct)
  have hrecalls : List.Forall₂ e.Recalls (s.memory.records.entries.map e.chart.nameRecord)
      s.memory.records.entries := by
    rw [List.forall₂_map_left_iff, List.forall₂_same]
    exact fun r hr => (recalls_nameRecord wf named faithful hr).1
  obtain ⟨records, hrecords, hperm'⟩ := List.perm_comp_forall₂ hperm hrecalls
  refine ⟨records, hrecords, ?_⟩
  have htidy : records.map Memory.tidy = records := by
    conv_rhs => rw [← List.map_id records]
    exact List.map_congr_left fun r hr =>
      (recalls_nameRecord wf named faithful (hperm'.mem_iff.mp hr)).2
  have hentries : (Memory.ofRecords records).records = s.memory.records := by
    rw [Memory.records_ofRecords, htidy]
    have hkept : (OrderedMap.ofWrites records).entries.Perm s.memory.records.entries :=
      (OrderedMap.perm_ofWrites (s.memory.records.ascending.distinct.perm hperm')).trans hperm'
    exact OrderedMap.ext ((OrderedMap.ascending _).eq_of_perm s.memory.records.ascending hkept)
  exact congrArg Memory.mk hentries

end Forward

/-- Saving what was recalled gives the records that were saved, each in order. -/
theorem forall₂_history_checkpoint (named : e.chart.Named)
    (hrecalled : List.Forall₂ e.Recalls c.history.entries records)
    (hmemory : s.memory = Memory.ofRecords records) :
    List.Forall₂ (fun r r' => r'.1 = r.1 ∧ e.chart.InOrder r.2 r'.2) c.history.entries
      (e.checkpoint s id timestamp).history.entries := by
  -- Saved again, the records have the names that they had, so they are in the same order.
  have hsaved : List.Forall₂ (fun r r' => r'.1 = r.1 ∧ e.chart.InOrder r.2 r'.2) c.history.entries
      ((records.map Memory.tidy).map e.chart.nameRecord) := by
    rw [List.map_map, List.forall₂_map_right_iff]
    exact hrecalled.imp fun saved r recalls =>
      ⟨(Chart.find?_eq_some recalls.name).2, named.inOrder_namesOf recalls.states⟩
  have hkeys : ((records.map Memory.tidy).map e.chart.nameRecord).map (·.1) =
      c.history.entries.map (·.1) := by
    rw [← List.forall₂_eq_eq_eq, List.forall₂_map_left_iff, List.forall₂_map_right_iff]
    exact hsaved.flip.imp fun _ _ h => h.1
  have hasc : Ascending ((records.map Memory.tidy).map e.chart.nameRecord) :=
    c.history.ascending.of_keys hkeys
  have hdistinct : Distinct (records.map Memory.tidy) :=
    (List.pairwise_map.mp hasc.distinct).imp fun hne heq => hne (congrArg e.chart.nameOf heq)
  have hmemory' : (s.memory.records.entries.map e.chart.nameRecord).Perm
      ((records.map Memory.tidy).map e.chart.nameRecord) := by
    rw [hmemory, Memory.records_ofRecords]
    exact (OrderedMap.perm_ofWrites hdistinct).map _
  have hperm : (e.checkpoint s id timestamp).history.entries.Perm
      ((records.map Memory.tidy).map e.chart.nameRecord) :=
    (OrderedMap.perm_ofWrites (hasc.distinct.perm hmemory')).trans hmemory'
  rw [(OrderedMap.ascending _).eq_of_perm hasc hperm]
  exact hsaved

/-! ### Sessions -/

theorem restoredStatus_eq {status : Status} (h : status ≠ .stabilizing) :
    restoredStatus status = status := by
  cases status <;> first | rfl | exact absurd rfl h

section Saved

variable (wf : e.chart.WellFormed) (named : e.chart.Named) (hs : Reachable e s)
  (hvalid : s.configuration.validate e.chart = .ok ()) (faithful : s.memory.Faithful e.chart)
  (hportable : ∀ ev ∈ s.queues.internal ++ s.queues.external, ev.Portable)
  (hfresh : fresh.status = .idle)
include wf named hs hvalid faithful hportable hfresh

/-- What a checkpoint of a run says is accepted. -/
theorem accepts_checkpoint (id : Uuid) (timestamp : Timestamp) :
    ∃ records, e.Accepts fresh (e.checkpoint s id timestamp) s.configuration.toList records
        s.queues.internal s.queues.external ∧ Memory.ofRecords records = s.memory := by
  obtain ⟨records, hrecalled, hmemory⟩ := exists_records_checkpoint wf named faithful id timestamp
  have hstatus : restoredStatus s.status = s.status := restoredStatus_eq (hs.housed wf).1
  have hlt (i : Nat) (hi : i ∈ s.configuration.toList) : i < e.chart.size :=
    ((Configuration.validate_eq_ok_iff_of_mem wf hi).mp hvalid).known i hi
  refine ⟨records, ⟨hfresh, rfl, rfl, by rw [StateSet.ofList_toList]; exact hvalid, ?_,
    named.found_namesOf hlt, hrecalled, ?_, ?_⟩, hmemory⟩
  · rw [StateSet.ofList_toList]
    exact hstatus ▸ hs.idle_iff wf faithful
  · exact parsed_capture fun ev hev => hportable ev (List.mem_append_left _ hev)
  · exact parsed_capture fun ev hev => hportable ev (List.mem_append_right _ hev)

/-- What it says is the session that was saved, on the host and the trace of the other one. -/
theorem restore_checkpoint (hhandOff : s.queues.handOff = []) (id : Uuid) (timestamp : Timestamp) :
    e.restore fresh (e.checkpoint s id timestamp) =
      .ok { s with host := fresh.host, trace := fresh.trace } := by
  obtain ⟨records, accepts, hmemory⟩ :=
    accepts_checkpoint wf named hs hvalid faithful hportable hfresh id timestamp
  have hstatus : restoredStatus s.status = s.status := restoredStatus_eq (hs.housed wf).1
  have hqueues : Queues.ofEvents s.queues.internal s.queues.external = s.queues := by
    rw [Queues.ofEvents, ← hhandOff]
  rw [restore_eq_ok_iff.mpr ⟨_, _, _, _, accepts, rfl⟩, hmemory, hqueues, StateSet.ofList_toList]
  exact congrArg
    (fun status => Except.ok { s with status, host := fresh.host, trace := fresh.trace }) hstatus

end Saved

/-- Checkpoint and restore undo each other. A session reached by requests is never in the middle of a
macrostep. If its configuration is valid, its records were written on leaving valid configurations,
its hand-off is empty and the payloads of its events are of whole numbers and not nested too deep,
then its checkpoint is accepted by every idle session of an interpreter that runs alike, which takes
over status, configuration, memory and queues. If the host is in the same state too, then whatever is
done later is answered alike, through the same sessions, whichever trace stands before them. Saving
what any accepted checkpoint has led to gives its chart and its status, the same active and recorded
names in document order and once each, and the events that were parsed, in their order. -/
theorem checkpoint_restore_inverse {d : ChartDecl} (hb : d.build = .ok e.chart)
    (alike : e.Alike e') (hlimit : e'.settings.microstepLimit = e.settings.microstepLimit) :
    (∀ s, Reachable e s → s.configuration.validate e.chart = .ok () →
      s.memory.Faithful e.chart → s.queues.handOff = [] →
      (∀ ev ∈ s.queues.internal ++ s.queues.external, ev.Portable) →
      s.status ≠ .stabilizing ∧ ∀ (fresh : Session σ) id timestamp, fresh.status = .idle →
        ∃ s', e'.restore fresh (e.checkpoint s id timestamp) = .ok s' ∧
          s'.status = s.status ∧ s'.configuration = s.configuration ∧ s'.memory = s.memory ∧
          s'.queues = s.queues ∧
          (fresh.host = s.host → ∀ us,
            e.uses? s us = (e.uses? { s with trace := #[] } us).map
              (List.map (retold e.id s.trace)) ∧
            e'.uses? s' us = (e.uses? { s with trace := #[] } us).map
              (List.map (retold e'.id fresh.trace)))) ∧
    ∀ (fresh s' : Session σ) (c : Checkpoint) id timestamp, e.restore fresh c = .ok s' →
      (e.checkpoint s' id timestamp).chart = c.chart ∧
      (e.checkpoint s' id timestamp).status = restoredStatus c.status ∧
      e.chart.InOrder c.active (e.checkpoint s' id timestamp).active ∧
      List.Forall₂ (fun r r' => r'.1 = r.1 ∧ e.chart.InOrder r.2 r'.2) c.history.entries
        (e.checkpoint s' id timestamp).history.entries ∧
      ∃ internal external : List Event,
        List.Forall₂ (fun saved ev => saved.toEvent? = some ev) c.internal internal ∧
        List.Forall₂ (fun saved ev => saved.toEvent? = some ev) c.external external ∧
        (e.checkpoint s' id timestamp).internal = internal.map SavedEvent.capture ∧
        (e.checkpoint s' id timestamp).external = external.map SavedEvent.capture := by
  have wf := ChartDecl.wellFormed_of_build hb
  have named := ChartDecl.named_of_build hb
  constructor
  · intro s hs hvalid faithful hhandOff hportable
    refine ⟨(hs.housed wf).1, fun fresh id timestamp hfresh => ?_⟩
    have hrestore := alike.restore #[] fresh (e.checkpoint s id timestamp)
    rw [Session.after_empty,
      restore_checkpoint wf named hs hvalid faithful hportable hfresh hhandOff] at hrestore
    refine ⟨_, hrestore, rfl, rfl, rfl, rfl, fun hhost us => ?_⟩
    have halone := (Alike.refl e).uses? s.trace rfl { s with trace := #[] } us
    have hrestored := alike.uses? fresh.trace hlimit { s with trace := #[] } us
    simp only [Session.after, Array.append_empty, Array.empty_append] at halone hrestored ⊢
    rw [hhost]
    exact ⟨halone, hrestored⟩
  · intro fresh s' c id timestamp hrestore
    obtain ⟨active, records, internal, external, accepts, rfl⟩ := restore_eq_ok_iff.mp hrestore
    exact ⟨accepts.chart.symm, rfl, named.inOrder_namesOf accepts.found,
      forall₂_history_checkpoint named accepts.recalled rfl, internal, external, accepts.parsed,
      accepts.parsed', rfl, rfl⟩

end Engine

/-- A lamp that comes back in the colour it had, and flickers once it is shaken. -/
def lamp : ChartDecl where
  name := "Lamp"
  states := [
    ((((StateDecl.plain "lit").withChild
      ((StateDecl.plain "red").withTransition (.simple "switch" "green"))).withChild
      (.plain "green")).withChild (.history "last" .shallow)).withTransition
        (.simple "press" "dark"),
    (((StateDecl.plain "dark").withTransition (.simple "press" "last")).withTransition
      (.simple "shake" "bright")),
    (StateDecl.plain "bright").withTransition (TransitionDecl.eventless.to "dim"),
    (StateDecl.plain "dim").withTransition (TransitionDecl.eventless.to "bright")]

namespace Engine

/-- An interpreter for the lamp, which may change three times before it waits again. -/
def flickering (id : Uuid) : Engine Unit :=
  { bare lamp.chart with settings := { microstepLimit := some 3 }, id }

/-- The lamp goes out while it is green, and is shaken when one more press waits. -/
def shaken : List Request :=
  [.start, .submit (.external "switch"), .submit (.external "press"),
    .send ((Event.external "press").withPayload (.number (.integer 2))),
    .submit (.external "shake")]

/-- The lamp that flickers is saved and taken up by another interpreter, with its colour and with the
press that waits; saved again, it is what it was. -/
theorem lamp_taken_up : lamp.build = .ok lamp.chart ∧
    ∃ (id id' : Uuid) (s s' : Session Unit), id ≠ id' ∧ Reachable (flickering id) s ∧
      s.configuration.toList = [6] ∧ s.memory.get? 4 = some [3] ∧ s.queues.external.length = 1 ∧
      (flickering id').restore { host := () } ((flickering id).checkpoint s .nil default) = .ok s' ∧
      s'.configuration = s.configuration ∧ s'.memory = s.memory ∧ s'.queues = s.queues ∧
      (∀ us, (flickering id').uses? s' us = ((flickering id).uses? { s with trace := #[] } us).map
        (List.map (retold id' #[]))) ∧
      lamp.chart.InOrder ((flickering id).checkpoint s .nil default).active
        ((flickering id').checkpoint s' .nil default).active := by
  have hb : lamp.build = .ok lamp.chart := ChartDecl.build_eq_chart (by decide +kernel)
  have wf := ChartDecl.wellFormed_of_build hb
  let id' : Uuid := ⟨List.replicate 16 1, rfl⟩
  have hrun : (shaken.foldlM (fun s r => ((flickering .nil).serve? 9 s r).map (·.session))
      { host := () }).map (fun s => (s.configuration, s.memory.records.entries,
        (s.queues.internal ++ s.queues.external).all (fun ev =>
          match ev.payload with
          | some (.number i) => decide (i = .integer 2)
          | none => true
          | _ => false),
        s.queues.external.length, s.queues.handOff.isEmpty)) =
      some (StateSet.ofList [6], [(4, [3])], true, 1, true) := by decide +kernel
  obtain ⟨s, hs, hread⟩ := Option.map_eq_some_iff.mp hrun
  simp only [Prod.mk.injEq] at hread
  obtain ⟨hconfiguration, hentries, hpayloads, hlength, hhandOff⟩ := hread
  have hreachable : Reachable (flickering .nil) s := (Reachable.fresh ()).served_all hs
  have hget (k : Nat) : s.memory.get? k = if k = 4 then some [3] else none := by
    by_cases hk : k = 4
    · simp [Memory.get?, OrderedMap.get?, hentries, hk]
    · simp [Memory.get?, OrderedMap.get?, hentries, hk, Ne.symm hk]
  have faithful : s.memory.Faithful lamp.chart := by
    intro k ss hss
    rw [hget] at hss
    split at hss
    · rename_i hk
      obtain rfl := hk
      have green : Configuration.Valid lamp.chart (StateSet.ofList [1, 3]) :=
        (Configuration.validate_eq_ok_iff_of_mem wf (s := 1) (by decide)).mp (by decide +kernel)
      exact ⟨by decide +kernel, _, 1, green, by decide, by decide +kernel,
        (Option.some.inj hss).symm.trans (by decide +kernel)⟩
    · simp at hss
  have hportable : ∀ ev ∈ s.queues.internal ++ s.queues.external, ev.Portable := by
    intro ev hev p hp
    have hread := List.all_eq_true.mp hpayloads ev hev
    rw [hp] at hread
    split at hread
    · rename_i hnumber
      obtain rfl := Option.some.inj hnumber
      obtain rfl := of_decide_eq_true hread
      exact ⟨.integer ⟨by decide, by decide⟩, by decide⟩
    · rename_i hnone
      simp at hnone
    · simp at hread
  have halike : (flickering .nil).Alike (flickering id') :=
    ⟨rfl, rfl, rfl, fun _ _ _ _ => rfl, fun _ _ _ _ => rfl⟩
  obtain ⟨hsaved, -⟩ := checkpoint_restore_inverse (e := flickering .nil) hb halike rfl
  obtain ⟨-, hrestored⟩ := hsaved s hreachable (hconfiguration ▸ by decide +kernel) faithful
    (List.isEmpty_iff.mp hhandOff) hportable
  obtain ⟨s', hrestore, -, hconfiguration', hmemory', hqueues', hlater⟩ :=
    hrestored { host := () } .nil default rfl
  obtain ⟨-, hback⟩ := checkpoint_restore_inverse (e := flickering id') hb (.refl _) rfl
  obtain ⟨-, -, hactive, -⟩ := hback _ s' _ .nil default hrestore
  refine ⟨hb, .nil, id', s, s', by decide, hreachable, by rw [hconfiguration]; decide, ?_, hlength,
    hrestore, hconfiguration', hmemory', hqueues', fun us => (hlater rfl us).2, hactive⟩
  rw [hget, if_pos rfl]

end Engine

end Statechart

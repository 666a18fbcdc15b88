import Statechart.Proofs.Checkpointing
import Statechart.Proofs.Lifecycle
import Statechart.Proofs.Replay

/-!
The states that a checkpoint may restore. Whoever writes one is free to list the root among the
active states, and to say of a session that it waits or that it is at its end: neither is looked at,
while what is active below the root is. The interpreter itself never comes to a state that lists the
root, nor to one that waits with a complete root or is at its end with one that is not.
-/
namespace Statechart

open Chart (root)

variable {c : Chart} {x : Configuration} {status : Status}

/-! ### The root among the active states -/

namespace Configuration

theorem active_erase_root {s : Nat} : Active (x.erase root) s ↔ x.Active s := by
  simp only [Active, StateSet.mem_erase]
  by_cases hs : s = root <;> simp [hs]

/-- Where the root is listed, it is one more state that a chart has. -/
theorem root_listed (wf : c.WellFormed) : root < c.size ∧ c.isHistory root = false := by
  rcases wf.root_inner with hroot | hroot
  all_goals
    constructor
    · refine Nat.lt_of_not_le fun hle => ?_
      rw [Chart.node_of_not_lt (Nat.not_lt.mpr hle)] at hroot
      cases hroot
    · simp only [Chart.isHistory, Node.isHistory, Node.isCompound, Node.isParallel] at hroot ⊢
      split <;> simp_all

/-- Children are never the root, so it does not matter whether it is listed. -/
theorem valid_erase_root_iff (wf : c.WellFormed) :
    Configuration.Valid c (x.erase root) ↔ Configuration.Valid c x := by
  have hmem {s : Nat} (hs : s ≠ root) : s ∈ x.erase root ↔ s ∈ x := by simp [hs]
  have hregion {q k : Nat} (hk : k ∈ c.regions q) : k ∈ x.erase root ↔ k ∈ x :=
    hmem (wf.ne_root_of_below (Ancestry.below_of_parent wf.upward (wf.mem_regions.mp hk).1))
  have hsingle (q : Nat) : Single c (x.erase root) q ↔ Single c x q := by
    refine exists_congr fun k => and_congr_right fun hk => and_congr (hregion hk) ?_
    exact forall_congr' fun l => forall_congr' fun hl => by rw [hregion hl]
  have hevery (q : Nat) : Every c (x.erase root) q ↔ Every c x q :=
    forall_congr' fun k => forall_congr' fun hk => hregion hk
  obtain ⟨hsize, hreal⟩ := root_listed wf
  constructor
  · intro h
    have hbut {P : Nat → Prop} (hroot : P root) (hother : ∀ s ∈ x.erase root, P s) :
        ∀ s ∈ x, P s := fun s hs =>
      if heq : s = root then heq ▸ hroot else hother s ((hmem heq).mpr hs)
    refine ⟨hbut hsize h.known, hbut hreal h.real, hbut ?_ ?_, fun q hq hkind => ?_,
      fun q hq hkind => ?_⟩
    · exact fun p hp => absurd rfl (wf.ne_root_of_below (Ancestry.below_of_parent wf.upward hp))
    · exact fun s hs p hp => active_erase_root.mp (h.attached s hs p hp)
    · exact (hsingle q).mp (h.single q (active_erase_root.mpr hq) hkind)
    · exact (hevery q).mp (h.every q (active_erase_root.mpr hq) hkind)
  · intro h
    have hsub {s : Nat} (hs : s ∈ x.erase root) : s ∈ x := (StateSet.mem_erase.mp hs).1
    refine ⟨fun s hs => h.known s (hsub hs), fun s hs => h.real s (hsub hs),
      fun s hs p hp => active_erase_root.mpr (h.attached s (hsub hs) p hp), fun q hq hkind => ?_,
      fun q hq hkind => ?_⟩
    · exact (hsingle q).mpr (h.single q (active_erase_root.mp hq) hkind)
    · exact (hevery q).mpr (h.every q (active_erase_root.mp hq) hkind)

theorem Valid.exists_mem_erase_root (wf : c.WellFormed) (h : x.Valid c) :
    ∃ s, s ∈ x.erase root := by
  have hregion {k : Nat} (hk : k ∈ c.regions root) : k ≠ root :=
    wf.ne_root_of_below (Ancestry.below_of_parent wf.upward (wf.mem_regions.mp hk).1)
  rcases wf.root_inner with hroot | hroot
  · obtain ⟨k, hk, hkx, -⟩ := h.single root x.active_root hroot
    exact ⟨k, StateSet.mem_erase.mpr ⟨hkx, hregion hk⟩⟩
  · obtain ⟨k, hk⟩ := wf.exists_region root (.inr hroot)
    exact ⟨k, StateSet.mem_erase.mpr ⟨h.every root x.active_root hroot k hk, hregion hk⟩⟩

end Configuration

namespace Engine

variable {σ : Type} {e : Engine σ} {d : ChartDecl} {s s' : Session σ} {saved : Checkpoint}

/-- A session is idle when nothing is active. Otherwise it waits or is at its end, and what is
active below the root, which may be listed or not, is a valid configuration. -/
inductive Admissible (c : Chart) : Status → Configuration → Prop where
  | idle : Admissible c .idle StateSet.empty
  | active {status : Status} {x : Configuration}
      (hstatus : status = .awaitingExternal ∨ status = .final) (hsome : ∃ s, s ∈ x.erase root)
      (hvalid : Configuration.Valid c (x.erase root)) : Admissible c status x

/-- What holds of a session between two requests, besides what is admissible. -/
structure Regular (c : Chart) (status : Status) (x : Configuration) : Prop where
  rootless : root ∉ x
  final : status = .final → x.isFinal c root = true
  awaiting : status = .awaitingExternal → x.isFinal c root = false

/-- The sessions that requests lead to are regular. -/
theorem Reachable.regular (wf : e.chart.WellFormed) (h : Reachable e s) :
    Regular e.chart s.status s.configuration where
  rootless hroot := wf.ne_root_of_below (((invariant_below_root wf).reachable h).1 root hroot) rfl
  final hfinal := ((h.poised wf).final hfinal).1
  awaiting := (h.poised wf).awaiting

theorem Admissible.regular_iff (wf : c.WellFormed) (h : Admissible c status x) :
    Regular c status x ↔ root ∉ x ∧ (status = .final ↔ x.isFinal c root = true) := by
  have hempty := Configuration.not_isFinal_empty wf root
  constructor
  · intro hregular
    refine ⟨hregular.rootless, hregular.final, fun hfinal => ?_⟩
    cases h with
    | idle => simp [hempty] at hfinal
    | active hstatus _ _ =>
      refine hstatus.resolve_left fun hawaiting => ?_
      simp [hregular.awaiting hawaiting] at hfinal
  · rintro ⟨hroot, hfinal⟩
    refine ⟨hroot, hfinal.mp, fun hawaiting => ?_⟩
    rw [← Bool.not_eq_true, ← hfinal, hawaiting]
    simp

theorem admissible_of_restore (wf : e.chart.WellFormed) (h : e.restore s saved = .ok s') :
    Admissible e.chart s'.status s'.configuration := by
  obtain ⟨active, records, internal, external, accepts, rfl⟩ := restore_eq_ok_iff.mp h
  have hrestored : restoredStatus saved.status = .idle ∨
      restoredStatus saved.status = .awaitingExternal ∨ restoredStatus saved.status = .final := by
    cases saved.status <;> simp [restoredStatus]
  cases hempty : (StateSet.ofList active).isEmpty with
  | true =>
    have hidle := accepts.status.mpr hempty
    have hnone : StateSet.ofList active = StateSet.empty :=
      StateSet.ext fun i => by
        rw [← StateSet.mem_toList, List.isEmpty_iff.mp hempty]
        simp
    simp only [hidle, hnone]
    exact .idle
  | false =>
    have hidle : restoredStatus saved.status ≠ .idle := fun hidle => by
      simp [accepts.status.mp hidle] at hempty
    have hvalid := ((Configuration.validate_eq_ok_iff wf).mp accepts.valid).resolve_left
      (by simp [hempty])
    exact .active (hrestored.resolve_left hidle) (hvalid.exists_mem_erase_root wf)
      ((Configuration.valid_erase_root_iff wf).mpr hvalid)

/-- The checkpoint that says no more than what is active and what the status is. -/
def bareCheckpoint (e : Engine σ) (status : Status) (x : Configuration) : Checkpoint where
  version := checkpointVersion
  id := Uuid.nil
  timestamp := Timestamp.epoch
  chart := e.chart.name
  session := e.id
  status := status
  active := x.names e.chart
  history := OrderedMap.empty
  internal := []
  external := []

theorem restore_of_admissible (wf : e.chart.WellFormed) (named : e.chart.Named)
    (hs : s.status = .idle) (h : Admissible e.chart status x) :
    ∃ saved s', e.restore s saved = .ok s' ∧ s'.status = status ∧ s'.configuration = x := by
  have hstatus : restoredStatus status = status := by
    refine restoredStatus_eq ?_
    cases h with
    | idle => simp
    | active hstatus _ _ => rcases hstatus with rfl | rfl <;> simp
  have hvalid : x.isEmpty = true ∨ Configuration.Valid e.chart x := by
    cases h with
    | idle => exact .inl rfl
    | active _ _ hvalid => exact .inr ((Configuration.valid_erase_root_iff wf).mp hvalid)
  have hidle : status = .idle ↔ x.isEmpty = true := by
    cases h with
    | idle => simp [StateSet.isEmpty, StateSet.empty]
    | active hstatus hsome _ =>
      obtain ⟨i, hi⟩ := hsome
      have hne : x.isEmpty ≠ true := fun hempty => by
        have hi := StateSet.mem_toList.mpr (StateSet.mem_erase.mp hi).1
        simp [List.isEmpty_iff.mp hempty] at hi
      rcases hstatus with rfl | rfl <;> simp [hne]
  have hlt (i : Nat) (hi : i ∈ x.toList) : i < e.chart.size := by
    rcases hvalid with hempty | hvalid
    · simp [List.isEmpty_iff.mp hempty] at hi
    · exact hvalid.known i (StateSet.mem_toList.mp hi)
  have haccepts : e.Accepts s (e.bareCheckpoint status x) x.toList [] [] [] := by
    refine ⟨hs, rfl, rfl, ?_, ?_, named.found_namesOf hlt, .nil, .nil, .nil⟩
    · rw [StateSet.ofList_toList]
      exact (Configuration.validate_eq_ok_iff wf).mpr hvalid
    · change restoredStatus status = .idle ↔ _
      rwa [StateSet.ofList_toList, hstatus]
  exact ⟨_, _, restore_eq_ok_iff.mpr ⟨_, _, _, _, haccepts, rfl⟩, hstatus, StateSet.ofList_toList x⟩

/-- The chart bears the name of its root, and no other state does. -/
theorem mem_root_of_restore (wf : e.chart.WellFormed) (named : e.chart.Named)
    (h : e.restore s saved = .ok s') : root ∈ s'.configuration ↔ e.chart.name ∈ saved.active := by
  obtain ⟨active, records, internal, external, accepts, rfl⟩ := restore_eq_ok_iff.mp h
  have hfind : e.chart.find? e.chart.name = some root :=
    named.find?_nameOf (Configuration.root_listed wf).1
  rw [StateSet.mem_ofList]
  constructor
  · intro hroot
    obtain ⟨name, hname, hfound⟩ := exists_mem_of_forall₂ accepts.found hroot
    rwa [Chart.name, (Chart.find?_eq_some hfound).2]
  · intro hname
    obtain ⟨i, hi, hfound⟩ := exists_result_of_forall₂ accepts.found hname
    exact Option.some.inj (hfound.symm.trans hfind) ▸ hi

/-- Every session that requests lead to is regular. An idle session takes over exactly the
admissible states from a checkpoint, and what it takes over is regular exactly when the checkpoint
does not name the root and says that the session is at its end if and only if the root is
complete. -/
theorem restored_iff (hb : d.build = .ok e.chart) :
    (∀ s, Reachable e s → Regular e.chart s.status s.configuration) ∧
    ∀ s : Session σ, s.status = .idle →
      (∀ status x, (∃ saved s', e.restore s saved = .ok s' ∧ s'.status = status ∧
        s'.configuration = x) ↔ Admissible e.chart status x) ∧
      ∀ saved s', e.restore s saved = .ok s' →
        (root ∈ s'.configuration ↔ e.chart.name ∈ saved.active) ∧
        (Regular e.chart s'.status s'.configuration ↔ e.chart.name ∉ saved.active ∧
          (s'.status = .final ↔ s'.configuration.isFinal e.chart root = true)) := by
  have wf := ChartDecl.wellFormed_of_build hb
  have named := ChartDecl.named_of_build hb
  refine ⟨fun s hs => hs.regular wf, fun s hs =>
    ⟨fun status x => ⟨?_, restore_of_admissible wf named hs⟩, fun saved s' h => ?_⟩⟩
  · rintro ⟨saved, s', h, rfl, rfl⟩
    exact admissible_of_restore wf h
  · have hroot := mem_root_of_restore wf named h
    rw [(admissible_of_restore wf h).regular_iff wf, hroot]
    exact ⟨Iff.rfl, Iff.rfl⟩

end Engine

/-- A gate that shuts for good. -/
def gate : ChartDecl where
  name := "Gate"
  states := [(StateDecl.plain "open").withTransition (.simple "shut" "shut"), .final "shut"]

namespace Engine

/-- A checkpoint of the gate may list the root, end a gate that is open, and keep waiting for one
that is shut. -/
theorem gate_restored : gate.build = .ok gate.chart ∧
    ∃ s : Session Unit, s.status = .idle ∧
      (∃ saved s', (bare gate.chart).restore s saved = .ok s' ∧ gate.chart.name ∈ saved.active ∧
        root ∈ s'.configuration ∧ ¬Regular gate.chart s'.status s'.configuration) ∧
      (∃ saved s', (bare gate.chart).restore s saved = .ok s' ∧ s'.status = .final ∧
        s'.configuration.isFinal gate.chart root = false ∧
        ¬Regular gate.chart s'.status s'.configuration) ∧
      ∃ saved s', (bare gate.chart).restore s saved = .ok s' ∧ s'.status = .awaitingExternal ∧
        s'.configuration.isFinal gate.chart root = true ∧
        ¬Regular gate.chart s'.status s'.configuration := by
  let e := bare gate.chart
  have hb : gate.build = .ok gate.chart := ChartDecl.build_eq_chart (by decide +kernel)
  have hs : ({ host := () } : Session Unit).status = .idle := rfl
  have restored (status : Status) (x : List Nat)
      (h : (e.restore { host := () } (e.bareCheckpoint status (StateSet.ofList x))).toOption.map
        (fun s' => (s'.status, s'.configuration.toList)) = some (status, x)) :
      ∃ s', e.restore { host := () } (e.bareCheckpoint status (StateSet.ofList x)) = .ok s' ∧
        s'.status = status ∧ s'.configuration = StateSet.ofList x := by
    obtain ⟨s', hs', hresult⟩ := Option.map_eq_some_iff.mp h
    obtain ⟨hstatus, hx⟩ := Prod.mk.inj hresult
    have hok : e.restore { host := () } (e.bareCheckpoint status (StateSet.ofList x)) = .ok s' := by
      cases hrestore : e.restore { host := () } (e.bareCheckpoint status (StateSet.ofList x)) with
      | error _ => simp [hrestore, Except.toOption] at hs'
      | ok s'' => simpa [hrestore, Except.toOption] using hs'
    exact ⟨s', hok, hstatus, by rw [← StateSet.ofList_toList s'.configuration, hx]⟩
  obtain ⟨-, htold⟩ := (restored_iff (e := e) hb).2 _ hs
  obtain ⟨s₁, h₁, -, hx₁⟩ := restored .awaitingExternal [0, 1] (by decide +kernel)
  obtain ⟨s₂, h₂, hstatus₂, hx₂⟩ := restored .final [1] (by decide +kernel)
  obtain ⟨s₃, h₃, hstatus₃, hx₃⟩ := restored .awaitingExternal [2] (by decide +kernel)
  have hroot : root ∈ s₁.configuration := by simp [hx₁, root]
  have hopen : s₂.configuration.isFinal gate.chart root = false := by
    rw [hx₂]
    decide +kernel
  have hshut : s₃.configuration.isFinal gate.chart root = true := by
    rw [hx₃]
    decide +kernel
  obtain ⟨hnamed, hregular₁⟩ := htold _ s₁ h₁
  refine ⟨hb, _, hs, ⟨_, s₁, h₁, hnamed.mp hroot, hroot, fun h => ?_⟩,
    ⟨_, s₂, h₂, hstatus₂, hopen, fun h => ?_⟩, _, s₃, h₃, hstatus₃, hshut, fun h => ?_⟩
  · exact (hregular₁.mp h).1 (hnamed.mp hroot)
  · have hfinal := ((htold _ s₂ h₂).2.mp h).2.mp hstatus₂
    exact Bool.false_ne_true (hopen.symm.trans hfinal)
  · have hfinal := ((htold _ s₃ h₃).2.mp h).2.mpr hshut
    rw [hstatus₃] at hfinal
    cases hfinal

end Engine

end Statechart

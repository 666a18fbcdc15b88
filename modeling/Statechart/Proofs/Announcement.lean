import Mathlib.Order.Lattice.Nat
import Statechart.Proofs.Completion
import Statechart.Proofs.Run

/-!
Announcements of completion. A final state announces its parent as soon as it is entered, and its
grandparent when that is parallel and complete by then. So a parallel state is announced too early
exactly when it has a final child, and a parallel state that completes is announced unless the last
final state that counts for it is no grandchild of it.
-/
namespace Statechart

open Chart (root)
open Command (applyAll applyAll_append applyAll_of_still still_of_mem_calls)

namespace Command

variable {P : Configuration → Command → Prop} {x : Configuration} {cs ds : List Command}

/-- Each command is performed where the property holds of what is active and of the command. -/
def Along (P : Configuration → Command → Prop) : Configuration → List Command → Prop
  | _, [] => True
  | x, cmd :: cs => P x cmd ∧ Along P (cmd.apply x) cs

theorem along_append : Along P x (cs ++ ds) ↔ Along P x cs ∧ Along P (applyAll x cs) ds := by
  induction cs generalizing x with
  | nil => simp [Along, applyAll]
  | cons cmd cs ih => simp [Along, ih, and_assoc, applyAll]

theorem along_iff : Along P x cs ↔
    ∀ before cmd after, cs = before ++ cmd :: after → P (applyAll x before) cmd := by
  constructor
  · rintro h before cmd after rfl
    exact (along_append.mp h).2.1
  · intro h
    induction cs generalizing x with
    | nil => trivial
    | cons cmd cs ih =>
      refine ⟨h [] cmd cs rfl, ih fun before cmd' after he => ?_⟩
      exact h (cmd :: before) cmd' after (by rw [he, List.cons_append])

theorem along_of_still (hstill : ∀ cmd ∈ cs, cmd.Still) (h : ∀ cmd ∈ cs, P x cmd) :
    Along P x cs := by
  induction cs with
  | nil => trivial
  | cons cmd cs ih =>
    refine ⟨h cmd (by simp), ?_⟩
    rw [hstill cmd (by simp)]
    exact ih (fun d hd => hstill d (by simp [hd])) (fun d hd => h d (by simp [hd]))

/-- The command runs an action. -/
def IsCall (cmd : Command) : Prop := ∃ call, cmd = .call call

theorem isCall_of_mem_calls {phase : Phase} {s : Nat} {as : List ActionId} {cmd : Command}
    (h : cmd ∈ calls phase s as) : cmd.IsCall := by
  obtain ⟨a, -, rfl⟩ := List.mem_map.mp h
  exact ⟨_, rfl⟩

theorem IsCall.still {cmd : Command} (h : cmd.IsCall) : cmd.Still := by
  obtain ⟨call, rfl⟩ := h
  exact fun _ => rfl

theorem count_announce_of_isCall (h : ∀ cmd ∈ cs, cmd.IsCall) (g : Nat) :
    cs.count (.announce g) = 0 := by
  rw [List.count_eq_zero]
  intro hg
  obtain ⟨call, hcall⟩ := h _ hg
  cases hcall

end Command

open Command (Along along_append along_iff along_of_still IsCall
  isCall_of_mem_calls count_announce_of_isCall)

namespace Chart

/-- Entering the state `s` announces `g`, when afterwards `x` is active. -/
def Announces (c : Chart) (x : Configuration) (s g : Nat) : Prop :=
  (c.node s).isFinal = true ∧ ∃ p, c.parent s = some p ∧ p ≠ root ∧
    (g = p ∨ c.parent p = some g ∧ g ≠ root ∧ (c.node g).isParallel = true ∧
      x.isFinal c g = true)

variable {c : Chart} {x y : Configuration} {f g p s : Nat}

theorem announces_of_mem_completion (h : .announce g ∈ (Arrival.completion c x s).1) :
    c.Announces x s g := by
  unfold Arrival.completion at h
  split at h
  · rename_i hfinal
    split at h
    · simp at h
    · rename_i p hp
      split at h
      · simp at h
      · rename_i hroot
        refine ⟨hfinal, p, hp, hroot, ?_⟩
        unfold announcements at h
        rcases List.mem_cons.mp h with h | h
        · exact .inl (Command.announce.inj h)
        · split at h
          · rename_i q hq
            split at h
            · rename_i hcond
              obtain rfl := Command.announce.inj (List.mem_singleton.mp h)
              simp only [Bool.and_eq_true, bne_iff_ne] at hcond
              exact .inr ⟨hq, hcond.1.1, hcond.1.2, hcond.2⟩
            · simp at h
          · simp at h
  · simp at h

/-- A state below the root that is complete once its grandchild is entered is announced once. -/
theorem count_completion (hg : g ≠ root) (hpar : (c.node g).isParallel = true)
    (hx : x.isFinal c g = true) (hs : (c.node s).isFinal = true) (hp : c.parent s = some p)
    (hgp : c.parent p = some g) (hne : p ≠ g) (hroot : p ≠ root) :
    (Arrival.completion c x s).1.count (.announce g) = 1 := by
  simp [Arrival.completion, announcements, hs, hp, hgp, hg, hpar, hx, hne, hroot]

end Chart

namespace Arrival

variable {c : Chart} {byDefault : StateSet} {a : Arrival} {ss : List Nat} {g s : Nat}

/-- The commands of an entry: the state becomes active, actions run, and completion is announced. -/
theorem commands_enter (c : Chart) (byDefault : StateSet) (a : Arrival) (s : Nat)
    (hs : s ∉ a.configuration) :
    ∃ between, (∀ cmd ∈ between, cmd.IsCall) ∧ (enter c byDefault a s).commands =
      a.commands ++ .occupy s :: (between ++ (completion c (a.configuration.insert s) s).1) := by
  have hcon : a.configuration.contains s = false := by
    rw [← Bool.not_eq_true, StateSet.contains_iff]
    exact hs
  have hinitial : ∀ cmd ∈ initialCommands c byDefault s, cmd.IsCall := by
    intro cmd h
    unfold initialCommands at h
    split at h
    · split at h
      · exact isCall_of_mem_calls h
      · simp at h
    · simp at h
  simp only [enter, hcon, Bool.false_eq_true, if_false]
  refine ⟨_, fun cmd hcmd => ?_, rfl⟩
  simp only [List.mem_append] at hcmd
  rcases hcmd with ((h | h) | h) | h
  · cases hp : c.parent s with
    | none => simp [hp] at h
    | some p =>
      simp only [hp] at h
      exact isCall_of_mem_calls h
  · exact isCall_of_mem_calls h
  · exact hinitial cmd h
  · exact isCall_of_mem_calls h

/-- If the command is an announcement it is made on the entry of a state that announces it. -/
def Heralds (c : Chart) (x : Configuration) (cmd : Command) : Prop :=
  ∀ g, cmd = .announce g → ∃ s, c.Announces x s g

theorem heralds_of_isCall {x : Configuration} {cmd : Command} (h : cmd.IsCall) :
    Heralds c x cmd := by
  obtain ⟨call, rfl⟩ := h
  intro g hg
  cases hg

/-- The commands so far lead to the configuration so far, and announce nothing but what the states
entered announce. -/
structure Heralded (c : Chart) (x : Configuration) (a : Arrival) : Prop where
  result : applyAll x a.commands = a.configuration
  along : Along (Heralds c) x a.commands

theorem Heralded.enter {x : Configuration} (h : a.Heralded c x) (byDefault : StateSet) (s : Nat) :
    (enter c byDefault a s).Heralded c x := by
  by_cases hs : s ∈ a.configuration
  · rw [enter_of_mem hs]
    exact h
  · obtain ⟨between, hcalls, hcmds⟩ := commands_enter c byDefault a s hs
    have hstill : ∀ cmd ∈ between ++ (completion c (a.configuration.insert s) s).1, cmd.Still := by
      intro cmd hcmd
      rcases List.mem_append.mp hcmd with hcmd | hcmd
      · exact (hcalls cmd hcmd).still
      · exact still_of_mem_completion hcmd
    have happly : (Command.occupy s).apply a.configuration = a.configuration.insert s := rfl
    constructor
    · rw [hcmds, (enter_spec c byDefault a s hs).1, applyAll_append, h.result, applyAll,
        List.foldl_cons, happly]
      exact applyAll_of_still hstill _
    · have hoccupy : Heralds c a.configuration (.occupy s) := fun g hg => by cases hg
      rw [hcmds, along_append, h.result, Along, happly]
      refine ⟨h.along, hoccupy, along_of_still hstill fun cmd hcmd => ?_⟩
      rcases List.mem_append.mp hcmd with hcmd | hcmd
      · exact heralds_of_isCall (hcalls cmd hcmd)
      · rintro g rfl
        exact ⟨s, c.announces_of_mem_completion hcmd⟩

theorem Heralded.foldl {x : Configuration} (h : a.Heralded c x) (byDefault : StateSet)
    (ss : List Nat) : (ss.foldl (Arrival.enter c byDefault) a).Heralded c x := by
  induction ss generalizing a with
  | nil => exact h
  | cons s ss ih => exact ih (h.enter byDefault s)

/-! ### How often a state is announced -/

theorem count_enter (c : Chart) (byDefault : StateSet) (a : Arrival) (g : Nat)
    (hs : s ∉ a.configuration) : (enter c byDefault a s).commands.count (.announce g) =
      a.commands.count (.announce g) +
        (completion c (a.configuration.insert s) s).1.count (.announce g) := by
  obtain ⟨between, hcalls, hcmds⟩ := commands_enter c byDefault a s hs
  simp [hcmds, count_announce_of_isCall hcalls]

/-- Entries that announce nothing of the state do not add to the count. -/
theorem count_foldl_enter (h : ∀ s ∈ ss, s ∉ a.configuration →
      ∀ x : Configuration, (∀ i ∈ x, i ∈ a.configuration ∨ i ∈ ss) → ¬c.Announces x s g) :
    (ss.foldl (enter c byDefault) a).commands.count (.announce g) =
      a.commands.count (.announce g) := by
  induction ss generalizing a with
  | nil => rfl
  | cons s ss ih =>
    rw [List.foldl_cons]
    by_cases hs : s ∈ a.configuration
    · rw [enter_of_mem hs]
      refine ih fun t ht hta x hx => h t (by simp [ht]) hta x fun i hi => ?_
      exact (hx i hi).imp_right fun hi => by simp [hi]
    · have hconf := (enter_spec c byDefault a s hs).1
      have hnone : (completion c (a.configuration.insert s) s).1.count (.announce g) = 0 := by
        rw [List.count_eq_zero]
        intro hmem
        refine h s (by simp) hs _ (fun i hi => ?_) (c.announces_of_mem_completion hmem)
        rcases StateSet.mem_insert.mp hi with rfl | hi
        · exact .inr (by simp)
        · exact .inl hi
      rw [ih, count_enter c byDefault a g hs, hnone, Nat.add_zero]
      intro t ht hta x hx
      rw [hconf, StateSet.mem_insert, not_or] at hta
      refine h t (by simp [ht]) hta.2 x fun i hi => ?_
      rcases hx i hi with hi | hi
      · rw [hconf, StateSet.mem_insert] at hi
        rcases hi with rfl | hi
        · exact .inr (by simp)
        · exact .inl hi
      · exact .inr (by simp [hi])

end Arrival

namespace Chart

variable {c : Chart} {x : Configuration} {f g s : Nat}

theorem Announces.grandparent_eq (h : c.Announces x s g) (hno : c.parent s ≠ some g) :
    c.grandparent s = some g ∧ x.isFinal c g = true := by
  obtain ⟨-, p, hp, -, rfl | ⟨hgp, -, -, hx⟩⟩ := h
  · exact absurd hp hno
  · exact ⟨by rw [grandparent, hp, Option.bind_some, hgp], hx⟩

/-- What announces a parallel state, and is no child of it, counts for it. -/
theorem Announces.concludes (wf : c.WellFormed) (hpar : (c.node g).isParallel = true)
    (h : c.Announces x s g) (hno : c.parent s ≠ some g) : c.Concludes s g := by
  obtain ⟨hfinal, p, hp, -, rfl | ⟨hgp, -, -, hx⟩⟩ := h
  · exact absurd hp hno
  · have hregion := wf.mem_regions.mpr ⟨hgp, wf.not_history_of_parent hp⟩
    refine .region hpar hregion ?_
    rcases wf.inner_of_parent hp with hc | hq
    · exact .child hc ((wf.mem_children p s).mpr hp) hfinal
    · have hnever := Configuration.isFinal_of_final_child (x := x) wf hq hp hfinal
      simp [(Configuration.isFinal_parallel wf hpar).mp hx p hregion] at hnever

/-- Where a parallel state is announced it is complete, unless it has a final child. -/
theorem Announces.isFinal_iff (wf : c.WellFormed) (hpar : (c.node g).isParallel = true)
    (h : c.Announces x s g) :
    x.isFinal c g = true ↔ ∀ f, c.parent f = some g → (c.node f).isFinal = false := by
  have hfinal := h.1
  constructor
  · intro hx f hf
    by_contra hf'
    simp [Configuration.isFinal_of_final_child wf hpar hf (by simpa using hf')] at hx
  · intro hno
    exact (h.grandparent_eq fun hs => by simp [hno s hs] at hfinal).2

end Chart

namespace EntryPlan

variable {c : Chart} {p : EntryPlan} {x : Configuration} {g : Nat}

theorem commands_arrive (p : EntryPlan) (c : Chart) (x : Configuration) :
    (p.arrive c x).commands = (p.states.toList.foldl (Arrival.enter c p.byDefault)
      { configuration := x, waiting := p.historyActions }).commands := rfl

theorem heralds_arrive (p : EntryPlan) (c : Chart) (x : Configuration) :
    Along (Arrival.Heralds c) x (p.arrive c x).commands := by
  have hstart : Arrival.Heralded c x { configuration := x, waiting := p.historyActions } :=
    ⟨rfl, trivial⟩
  rw [commands_arrive]
  exact (hstart.foldl p.byDefault p.states.toList).along

/-- The state `last` is the last entered of the final states that count for `g`, and `g` is complete
in the end. -/
structure Completes (p : EntryPlan) (c : Chart) (x : Configuration) (g last : Nat) : Prop where
  complete : (applyAll x (p.arrive c x).commands).isFinal c g = true
  entered : last ∈ (p.arrive c x).entered
  concludes : c.Concludes last g
  le_last : ∀ f ∈ (p.arrive c x).entered, c.Concludes f g → f ≤ last

theorem exists_completes (p : EntryPlan) (wf : c.WellFormed)
    (hafter : (applyAll x (p.arrive c x).commands).isFinal c g = true)
    (hbefore : x.isFinal c g = false) : ∃ last, p.Completes c x g last := by
  obtain ⟨hresult, hentered⟩ := p.arrive_spec c x
  obtain ⟨f, hf, hfy, hfx⟩ := Configuration.exists_concluding hafter hbefore
  have hfe := (hentered f).mpr ⟨((hresult f).mp hfy).resolve_left hfx, hfx⟩
  let new : Set Nat := {f | f ∈ (p.arrive c x).entered ∧ c.Concludes f g}
  have hbound : BddAbove new :=
    ⟨c.size, fun f hf => (wf.lt_size_of_below (Chart.below_of_concludes wf hf.2)).le⟩
  obtain ⟨hlast, hconcludes⟩ := Nat.sSup_mem (s := new) ⟨f, hfe, hf⟩ hbound
  exact ⟨sSup new, hafter, hlast, hconcludes, fun f hf hc => le_csSup hbound ⟨hf, hc⟩⟩

/-- The arrival when the given states of the plan have been entered. -/
def partway (p : EntryPlan) (c : Chart) (x : Configuration) (ss : List Nat) : Arrival :=
  ss.foldl (Arrival.enter c p.byDefault) { configuration := x, waiting := p.historyActions }

theorem mem_partway {i : Nat} {ss : List Nat} :
    i ∈ (p.partway c x ss).configuration ↔ i ∈ x ∨ i ∈ ss :=
  (Arrival.foldl_enter_spec c p.byDefault ss
    { configuration := x, waiting := p.historyActions }).1 i

namespace Completes

variable {last : Nat} {earlier later : List Nat} (h : p.Completes c x g last)
include h

/-- The entries before the last one and those after it. -/
theorem exists_split : ∃ earlier later, p.states.toList = earlier ++ last :: later ∧
    (∀ s ∈ earlier, s < last) ∧ ∀ s ∈ later, last < s := by
  have hplanned := ((p.arrive_spec c x).2 last).mp h.entered
  obtain ⟨earlier, later, hsplit⟩ := List.append_of_mem (StateSet.mem_toList.mpr hplanned.1)
  have horder := p.states.ascending
  rw [hsplit, List.pairwise_append, List.pairwise_cons] at horder
  exact ⟨earlier, later, hsplit, fun s hs => horder.2.2 s hs last (by simp), horder.2.1.1⟩

variable (wf : c.WellFormed) (hpar : (c.node g).isParallel = true)
  (hsplit : p.states.toList = earlier ++ last :: later)
include wf hpar

theorem not_child {s : Nat} (hs : (c.node s).isFinal = true) : c.parent s ≠ some g := fun hp => by
  have hnever := Configuration.isFinal_of_final_child
    (x := applyAll x (p.arrive c x).commands) wf hpar hp hs
  simp [h.complete] at hnever

include hsplit

omit wf hpar in
/-- With the last of the final states that count for it the state is complete. -/
theorem isFinal_insert (hlater : ∀ s ∈ later, last < s) :
    Configuration.isFinal ((p.partway c x earlier).configuration.insert last) c g = true := by
  obtain ⟨hresult, hentered⟩ := p.arrive_spec c x
  refine Configuration.isFinal_of_concluding (fun f hf hfy => ?_) h.complete
  rw [StateSet.mem_insert, mem_partway]
  by_cases hfx : f ∈ x
  · exact .inr (.inl hfx)
  · have hfp := ((hresult f).mp hfy).resolve_left hfx
    have hle := h.le_last f ((hentered f).mpr ⟨hfp, hfx⟩) hf
    rw [← StateSet.mem_toList, hsplit, List.mem_append, List.mem_cons] at hfp
    rcases hfp with hfp | rfl | hfp
    · exact .inr (.inr hfp)
    · exact .inl rfl
    · exact absurd (hlater f hfp) (Nat.not_lt.mpr hle)

/-- The entry of the last one announces its grandparent. -/
theorem count_last (hg : g ≠ root) (hlater : ∀ s ∈ later, last < s) :
    (Arrival.completion c ((p.partway c x earlier).configuration.insert last) last).1.count
      (.announce g) = if c.grandparent last = some g then 1 else 0 := by
  have hfinal := h.concludes.isFinal
  split
  · rename_i hgp
    obtain ⟨q, hq, hqg⟩ := Option.bind_eq_some_iff.mp hgp
    have hne : q ≠ g := fun heq => h.not_child wf hpar hfinal (heq ▸ hq)
    exact Chart.count_completion hg hpar (h.isFinal_insert hsplit hlater) hfinal hq hqg hne
      (wf.ne_root_of_below (Ancestry.below_of_parent wf.upward hqg))
  · rename_i hgp
    rw [List.count_eq_zero]
    intro hmem
    have hannounces := c.announces_of_mem_completion hmem
    exact hgp (hannounces.grandparent_eq (h.not_child wf hpar hfinal)).1

/-- Nothing entered later announces the state once more. -/
theorem count_later (hearlier : ∀ s ∈ earlier, s < last) (hlater : ∀ s ∈ later, last < s) :
    (p.arrive c x).commands.count (.announce g) =
      (Arrival.enter c p.byDefault (p.partway c x earlier) last).commands.count
        (.announce g) := by
  have hnew := (((p.arrive_spec c x).2 last).mp h.entered).2
  have hfresh : last ∉ (p.partway c x earlier).configuration := by
    rw [mem_partway, not_or]
    exact ⟨hnew, fun hmem => Nat.lt_irrefl last (hearlier last hmem)⟩
  have hend : (p.arrive c x).commands = (later.foldl (Arrival.enter c p.byDefault)
      (Arrival.enter c p.byDefault (p.partway c x earlier) last)).commands := by
    rw [commands_arrive, hsplit, List.foldl_append, List.foldl_cons]
    rfl
  rw [hend]
  refine Arrival.count_foldl_enter fun s hs hout y _ hannounces => ?_
  have hsx : s ∉ x := by
    intro hsx
    apply hout
    rw [(Arrival.enter_spec c p.byDefault _ last hfresh).1, StateSet.mem_insert]
    exact .inr (mem_partway.mpr (.inl hsx))
  have hsp : s ∈ p.states := by
    rw [← StateSet.mem_toList, hsplit]
    simp [hs]
  have hle := h.le_last s (((p.arrive_spec c x).2 s).mpr ⟨hsp, hsx⟩)
    (hannounces.concludes wf hpar (h.not_child wf hpar hannounces.1))
  exact absurd (hlater s hs) (Nat.not_lt.mpr hle)

/-- Nothing entered earlier announces the state, since each compound state has one active region. -/
theorem count_earlier (hearlier : ∀ s ∈ earlier, s < last)
    (hexcl : c.Exclusive (applyAll x (p.arrive c x).commands)) :
    (p.partway c x earlier).commands.count (.announce g) = 0 := by
  obtain ⟨hresult, hentered⟩ := p.arrive_spec c x
  obtain ⟨hplanned, hnew⟩ := (hentered last).mp h.entered
  refine Arrival.count_foldl_enter fun s _ _ y hy hannounces => ?_
  have hsub (i : Nat) (hi : i ∈ y) : i ∈ applyAll x (p.arrive c x).commands := by
    refine (hresult i).mpr ((hy i hi).imp_right fun hi => ?_)
    rw [← StateSet.mem_toList, hsplit]
    simp [hi]
  have hmissing : last ∉ y := fun hl =>
    (hy last hl).elim hnew fun hmem => Nat.lt_irrefl last (hearlier last hmem)
  have hincomplete := Configuration.not_isFinal_of_missing wf hexcl hsub h.concludes
    ((hresult last).mpr (.inr hplanned)) hmissing
  simp [(hannounces.grandparent_eq (h.not_child wf hpar hannounces.1)).2] at hincomplete

omit hsplit in
/-- A parallel state that completes in an entry is announced once if the last final state that
counts for it is a grandchild of it, and else not at all. Only where a compound state gets two
active regions it may be announced earlier as well. -/
theorem count_arrive (hg : g ≠ root) :
    (c.grandparent last = some g → 0 < (p.arrive c x).commands.count (.announce g)) ∧
      (c.Exclusive (applyAll x (p.arrive c x).commands) →
        (p.arrive c x).commands.count (.announce g) =
          if c.grandparent last = some g then 1 else 0) := by
  obtain ⟨earlier, later, hsplit, hearlier, hlater⟩ := h.exists_split
  have hnew := (((p.arrive_spec c x).2 last).mp h.entered).2
  have hfresh : last ∉ (p.partway c x earlier).configuration := by
    rw [mem_partway, not_or]
    exact ⟨hnew, fun hmem => Nat.lt_irrefl last (hearlier last hmem)⟩
  have htotal := (h.count_later wf hpar hsplit hearlier hlater).trans
    (Arrival.count_enter c p.byDefault _ g hfresh)
  rw [h.count_last wf hpar hsplit hg hlater] at htotal
  refine ⟨fun hgp => ?_, fun hexcl => ?_⟩
  · rw [htotal, if_pos hgp]
    exact Nat.succ_pos _
  · rw [htotal, h.count_earlier wf hpar hsplit hearlier hexcl, Nat.zero_add]

end Completes

end EntryPlan

end Statechart

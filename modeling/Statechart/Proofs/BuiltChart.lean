import Statechart.Proofs.Ancestry
import Statechart.Proofs.Flattening
import Statechart.Proofs.NameIndex
import Statechart.Proofs.Traversal

/-!
What every built chart is: a tree whose states tell parents and children alike, with a region in
every state that needs one, and with lists of targets that can be active together. The interpreter's
theorems rest on these promises and on nothing else about the builder.
-/
namespace Statechart

namespace Chart

abbrev Below (c : Chart) (s a : Nat) : Prop := Ancestry.Below c.parent s a

abbrev Within (c : Chart) (s a : Nat) : Prop := Ancestry.Within c.parent s a

/-- Wherever the two states part, they part in a parallel state: nothing keeps them from being
active together. -/
def Agree (c : Chart) (a b : Nat) : Prop :=
  ∀ q k l, c.parent k = some q → c.parent l = some q → c.Within a k → c.Within b l →
    k = l ∨ (c.node q).isParallel = true

/-- Unrelated states that can be active together. -/
structure Apart (c : Chart) (a b : Nat) : Prop where
  not_within : ¬c.Within a b
  not_within' : ¬c.Within b a
  agree : c.Agree a b

structure WellFormed (c : Chart) : Prop where
  upward : Ancestry.Upward c.parent
  below_root : ∀ s, s < c.size → s ≠ root → c.Below s root
  mem_children : ∀ q k, k ∈ (c.node q).children ↔ c.parent k = some q
  children_ascending : ∀ q, (c.node q).children.Pairwise (· < ·)
  root_inner : (c.node root).isCompound ∨ (c.node root).isParallel
  exists_region : ∀ q, (c.node q).isCompound ∨ (c.node q).isParallel → ∃ k, k ∈ c.regions q
  leaf : ∀ s, (c.node s).isFinal ∨ (c.node s).isHistory →
    (c.node s).children = [] ∧ (c.node s).transitions = []
  atomic : ∀ s, (c.node s).kind = .atomic → (c.node s).children = []
  initial : ∀ s ts as, (c.node s).kind = .compound ⟨ts, as⟩ →
    (∀ t ∈ ts, c.Below t s) ∧ ts.Pairwise c.Apart
  default : ∀ h p d ts as, (c.node h).kind = .history d (some ⟨ts, as⟩) → c.parent h = some p →
    (∀ t ∈ ts, c.Below t p) ∧ ts.Pairwise c.Apart
  targets : ∀ r < c.transitions.size,
    (∀ t ∈ (c.transition r).targets, c.Below t root) ∧ (c.transition r).targets.Pairwise c.Apart
  source : ∀ s, ∀ r ∈ (c.node s).transitions, r < c.transitions.size ∧ (c.transition r).source = s
  root_transitions : (c.node root).transitions = []

theorem node_of_not_lt {c : Chart} {s : Nat} (h : ¬s < c.size) : c.node s = default := by
  have : ¬s < c.states.size := h
  simp [node, Array.getD, this]

end Chart

/-! ### Reading a successful build -/

namespace Outline

variable {o : Outline} {c : Chart}

theorem find?_lt {name : String} {t : Nat} (h : o.find? name = some t) : t < o.states.size := by
  obtain ⟨ht, -⟩ := Array.findIdx?_eq_some_iff_getElem.mp h
  exact ht

theorem resolve_eq_ok_iff {owner name : String} {t : Nat} :
    resolve o.find? owner name = .ok t ↔ o.find? name = some t := by
  unfold resolve
  cases o.find? name <;> simp

/-- Resolved lists of names are what was found. -/
theorem filterMap_of_mapM_resolve {owner : String} {names : List String} {ts : List Nat}
    (h : names.mapM (resolve o.find? owner) = .ok ts) : names.filterMap o.find? = ts := by
  have hf := mapM_eq_ok_iff.mp h
  induction hf with
  | nil => rfl
  | cons hr _ ih => simp [resolve_eq_ok_iff.mp hr, ih (mapM_eq_ok_iff.mpr ‹_›)]

theorem resolveState_spec {i : Nat} {s : OutlineState} {n : Node}
    (h : resolveState o.find? i s = .ok n) :
    resolveKind o.find? s = .ok n.kind ∧ n.parent = s.parent ∧ n.children = s.children ∧
      n.transitions = s.transitions := by
  obtain ⟨kind, hk, h⟩ := bind_eq_ok_iff.mp h
  obtain rfl := Except.ok.inj h
  exact ⟨hk, rfl, rfl, rfl⟩

theorem resolveTransition_spec {r : Nat} {t : OutlineTransition} {u : Transition}
    (h : resolveTransition o.find? o r t = .ok u) :
    u.source = t.source ∧ t.decl.targets.filterMap o.find? = u.targets := by
  obtain ⟨ts, hts, h⟩ := bind_eq_ok_iff.mp h
  obtain rfl := Except.ok.inj h
  exact ⟨rfl, filterMap_of_mapM_resolve hts⟩

/-- The chart is the outline with its names resolved. -/
structure Resolves (o : Outline) (c : Chart) : Prop where
  size : c.size = o.states.size
  node : ∀ i < o.states.size, resolveState o.find? i (o.state i) = .ok (c.node i)
  ranks : c.transitions.size = o.transitions.length
  transition : ∀ r (hr : r < o.transitions.length),
    resolveTransition o.find? o r o.transitions[r] = .ok (c.transition r)

theorem resolves_of_toChartBy (h : toChartBy o.find? o = .ok c) : o.Resolves c := by
  obtain ⟨nodes, hs, h⟩ := bind_eq_ok_iff.mp h
  obtain ⟨ts, ht, h⟩ := bind_eq_ok_iff.mp h
  obtain rfl := Except.ok.inj h
  have hns := List.forall₂_iff_get.mp (mapM_eq_ok_iff.mp hs)
  have hts := List.forall₂_iff_get.mp (mapM_eq_ok_iff.mp ht)
  simp only [List.length_zipIdx, Array.length_toList, List.get_eq_getElem, List.getElem_zipIdx,
    Array.getElem_toList, Nat.zero_add] at hns hts
  refine ⟨by simp [Chart.size, hns.1], fun i hi => ?_, by simp [hts.1], fun r hr => ?_⟩
  · have hn : i < nodes.length := hns.1 ▸ hi
    simpa [Outline.state, Chart.node, Array.getD, hi, hn] using hns.2 i hi hn
  · have hn : r < ts.length := hts.1 ▸ hr
    simpa [Chart.transition, Array.getD, hn] using hts.2 r hr hn

namespace Resolves

variable (h : o.Resolves c)
include h

theorem node_of_not_lt {i : Nat} (hi : ¬i < o.states.size) : c.node i = default :=
  Chart.node_of_not_lt (h.size ▸ hi)

theorem node_fields (i : Nat) :
    c.parent i = o.parent i ∧ (c.node i).children = (o.state i).children ∧
      (c.node i).transitions = (o.state i).transitions := by
  by_cases hi : i < o.states.size
  · obtain ⟨-, hp, hc, ht⟩ := resolveState_spec (h.node i hi)
    exact ⟨hp, hc, ht⟩
  · have hs : o.state i = default := by simp [Outline.state, Array.getD, hi]
    simp only [Chart.parent, Outline.parent, hs, h.node_of_not_lt hi]
    exact ⟨rfl, rfl, rfl⟩

theorem parent_eq : c.parent = o.parent := funext fun i => (h.node_fields i).1

theorem kind {i : Nat} (hi : i < o.states.size) :
    resolveKind o.find? (o.state i) = .ok (c.node i).kind := (resolveState_spec (h.node i hi)).1

end Resolves

/-- How the kind of a state comes from its declaration. -/
inductive KindOf (o : Outline) (s : OutlineState) : Kind → Prop
  | atomic : s.kind = .plain → s.children = [] → KindOf o s .atomic
  | compound (ts : List Nat) : s.kind = .plain → s.children ≠ [] →
      s.initial.filterMap o.find? = ts → KindOf o s (.compound ⟨ts, s.initialActions⟩)
  | parallel : s.kind = .parallel → KindOf o s .parallel
  | final : s.kind = .final → KindOf o s .final
  | bare (d : HistoryDepth) : s.kind = .history d → KindOf o s (.history d none)
  | history (d : HistoryDepth) (ts : List Nat) : s.kind = .history d →
      s.initial.filterMap o.find? = ts → KindOf o s (.history d (some ⟨ts, s.initialActions⟩))

theorem resolveInitial_spec {s : OutlineState} {e : DefaultEntry}
    (h : resolveInitial o.find? s = .ok e) :
    e = ⟨s.initial.filterMap o.find?, s.initialActions⟩ := by
  obtain ⟨ts, hts, h⟩ := bind_eq_ok_iff.mp h
  obtain rfl := Except.ok.inj h
  rw [filterMap_of_mapM_resolve hts]

theorem kindOf_of_resolveKind {s : OutlineState} {k : Kind} (h : resolveKind o.find? s = .ok k) :
    KindOf o s k := by
  unfold resolveKind at h
  split at h
  · rename_i hk
    split at h
    · rename_i hc
      obtain rfl := Except.ok.inj h
      exact .atomic hk (by simpa using hc)
    · rename_i hc
      obtain ⟨e, he, h⟩ := bind_eq_ok_iff.mp h
      obtain rfl := Except.ok.inj h
      rw [resolveInitial_spec he]
      exact .compound _ hk (by simpa using hc) rfl
  · obtain rfl := Except.ok.inj h
    exact .parallel ‹_›
  · obtain rfl := Except.ok.inj h
    exact .final ‹_›
  · rename_i d hk
    obtain ⟨e, he, h⟩ := bind_eq_ok_iff.mp h
    obtain rfl := Except.ok.inj h
    rw [resolveInitial_spec he]
    split
    · exact .bare d hk
    · exact .history d _ hk rfl

/-- No rule is violated. -/
structure Accepted (o : Outline) : Prop where
  inhabited : (o.state 0).children ≠ []
  shape : ∀ i < o.states.size, Validation.structureOf o (o.state i) = []
  initial : ∀ i < o.states.size, Validation.initialTargets o i (o.state i) = []
  transition : ∀ t ∈ o.transitions, Validation.transition o t = []

theorem require_eq_nil {ok : Bool} {v : Violation} : Validation.require ok v = [] ↔ ok = true := by
  cases ok <;> simp [Validation.require]

theorem accepted_of_violations (h : o.violations = []) : o.Accepted := by
  simp only [violations, List.append_eq_nil_iff, List.flatMap_eq_nil_iff, require_eq_nil] at h
  obtain ⟨⟨⟨⟨h₁, -⟩, h₂⟩, h₃⟩, h₄⟩ := h
  have hmem (i : Nat) (hi : i < o.states.size) : (o.state i, i) ∈ o.states.toList.zipIdx := by
    rw [List.mem_zipIdx_iff_getElem?]
    simp [state, Array.getD, hi]
  refine ⟨by simpa using h₁, fun i hi => h₂ _ ?_, fun i hi => h₃ _ (hmem i hi), h₄⟩
  exact List.fst_mem_of_mem_zipIdx (hmem i hi)

theorem distinctRegions_iff {ts : List Nat} :
    Validation.distinctRegions o ts = true ↔
      ts.Pairwise (fun a b => Validation.compatible o a b = true) := by
  induction ts with
  | nil => simp [Validation.distinctRegions]
  | cons t ts ih => simp [Validation.distinctRegions, ih]

theorem compatible_iff_meet {a b : Nat} : Validation.compatible o a b = true ↔
    ((a ≠ b ∧ ¬o.isDescendant a b = true) ∧ ¬o.isDescendant b a = true) ∧
      ∃ p, o.lowestCommonAncestor? a b = some p ∧ (o.state p).kind = .parallel := by
  unfold Validation.compatible
  cases o.lowestCommonAncestor? a b <;> simp

namespace Resolves

variable (h : o.Resolves c)
include h

theorem isParallel {q : Nat} (hk : (o.state q).kind = .parallel) :
    (c.node q).isParallel = true := by
  by_cases hq : q < o.states.size
  · have hkind := kindOf_of_resolveKind (h.kind hq)
    unfold Node.isParallel
    generalize (c.node q).kind = kind at hkind
    cases hkind <;> simp_all
  · have hs : o.state q = default := by simp [Outline.state, Array.getD, hq]
    rw [hs] at hk
    exact absurd hk (by decide)

theorem isHistory {q : Nat} (hq : q < o.states.size) : o.isHistory q = c.isHistory q := by
  have hkind := kindOf_of_resolveKind (h.kind hq)
  unfold Outline.isHistory Chart.isHistory Node.isHistory
  generalize (c.node q).kind = kind at hkind
  cases hkind <;> simp_all

/-- The check of a pair of targets says what it means. -/
theorem apart_of_compatible (up : Ancestry.Upward c.parent) {a b : Nat}
    (hc : Validation.compatible o a b = true) : c.Apart a b := by
  have hd (s t : Nat) : o.isDescendant s t = true ↔ c.Below s t := by
    rw [Outline.isDescendant, ← h.parent_eq, Ancestry.isDescendant_iff]
  rw [compatible_iff_meet, hd, hd] at hc
  obtain ⟨⟨⟨hne, hab⟩, hba⟩, p, hp, hparallel⟩ := hc
  refine ⟨fun hw => hw.elim hne hab, fun hw => hw.elim (fun he => hne he.symm) hba, ?_⟩
  intro q k l hk hl hak hbl
  rw [Outline.lowestCommonAncestor?, ← h.parent_eq] at hp
  obtain ⟨hap, hbp, hle⟩ := Ancestry.within_of_find?_ancestors up hp
  have haq : c.Below a q := hak.trans_below up (Ancestry.below_of_parent up hk)
  have hbq : c.Below b q := hbl.trans_below up (Ancestry.below_of_parent up hl)
  cases hle q haq (Ancestry.isDescendant_iff.mpr hbq) with
  | inl he => exact .inr (he ▸ h.isParallel hparallel)
  | inr hpq =>
    -- The lowest common ancestor lies within one child of `q`, and so do both states.
    obtain ⟨j, hj, hpj⟩ := hpq.exists_child up
    have hak' := Ancestry.child_unique up hj hk ((hap.trans_within up hpj).within) hak
    have hbl' := Ancestry.child_unique up hj hl
      (((Ancestry.isDescendant_iff.mp hbp).trans_within up hpj).within) hbl
    exact .inl (hak'.symm.trans hbl')

theorem pairwise_apart (up : Ancestry.Upward c.parent) {ts : List Nat}
    (hd : Validation.distinctRegions o ts = true) : ts.Pairwise c.Apart :=
  (distinctRegions_iff.mp hd).imp (h.apart_of_compatible up)

end Resolves

theorem mem_zipIdx_ofDecl {root : StateDecl} {s : OutlineState} {i : Nat} :
    (s, i) ∈ (root.outline none 0 0 0).zipIdx ↔
      i < (ofDecl root).states.size ∧ (ofDecl root).state i = s := by
  rw [List.mem_zipIdx_iff_getElem?, List.getElem?_eq_some_iff]
  constructor
  · rintro ⟨hi, he⟩
    exact ⟨by simpa [ofDecl] using hi, by simpa [ofDecl, state, Array.getD, hi] using he⟩
  · rintro ⟨hi, he⟩
    have hi' : i < (root.outline none 0 0 0).length := by simpa [ofDecl] using hi
    exact ⟨hi', by simpa [ofDecl, state, Array.getD, hi'] using he⟩

theorem state_of_not_lt {i : Nat} (hi : ¬i < o.states.size) : o.state i = default := by
  simp [state, Array.getD, hi]

theorem lt_of_parent {k q : Nat} (hk : o.parent k = some q) : k < o.states.size := by
  by_cases hlt : k < o.states.size
  · exact hlt
  · rw [parent, state_of_not_lt hlt] at hk
    exact absurd hk (by simp [show (default : OutlineState).parent = none from rfl])

section ofDecl

variable (root : StateDecl)

theorem numbered_ofDecl : Numbered none 0 [0] (root.outline none 0 0 0) :=
  root.numbered_outline none 0 0 0 (by simp)

theorem upward_ofDecl : Ancestry.Upward (ofDecl root).parent := by
  intro i p hp
  by_cases hi : i < (ofDecl root).states.size
  · rcases (numbered_ofDecl root).parent _ i (mem_zipIdx_ofDecl.mpr ⟨hi, rfl⟩) with
      ⟨hn, -⟩ | ⟨p', hp', -, hlt⟩
    · exact absurd (hn.symm.trans hp) (by simp)
    · exact Option.some.inj (hp'.symm.trans hp) ▸ hlt
  · exact absurd (lt_of_parent hp) hi

theorem mem_children_ofDecl (q k : Nat) :
    k ∈ ((ofDecl root).state q).children ↔ (ofDecl root).parent k = some q := by
  constructor
  · intro hk
    by_cases hq : q < (ofDecl root).states.size
    · obtain ⟨-, t, ht, hp⟩ :=
        (numbered_ofDecl root).child _ q (mem_zipIdx_ofDecl.mpr ⟨hq, rfl⟩) k hk
      rw [parent, (mem_zipIdx_ofDecl.mp ht).2, hp]
    · rw [state_of_not_lt hq] at hk
      exact absurd hk (by simp [show (default : OutlineState).children = [] from rfl])
  · intro hp
    by_cases hk : k < (ofDecl root).states.size
    · obtain ⟨s, hs, hks⟩ := (numbered_ofDecl root).listed _ k q
        (mem_zipIdx_ofDecl.mpr ⟨hk, rfl⟩) hp (Nat.zero_le q)
      rw [(mem_zipIdx_ofDecl.mp hs).2]
      exact hks
    · exact absurd (lt_of_parent hp) hk

theorem children_ascending_ofDecl (q : Nat) :
    ((ofDecl root).state q).children.Pairwise (· < ·) := by
  by_cases hq : q < (ofDecl root).states.size
  · exact (numbered_ofDecl root).ascending _ q (mem_zipIdx_ofDecl.mpr ⟨hq, rfl⟩)
  · rw [state_of_not_lt hq]
    exact List.Pairwise.nil

theorem below_root_ofDecl {i : Nat} (hi : i < (ofDecl root).states.size) (hne : i ≠ 0) :
    Ancestry.Below (ofDecl root).parent i 0 := by
  induction i using Nat.strongRecOn with
  | ind i ih =>
    rcases (numbered_ofDecl root).parent _ i (mem_zipIdx_ofDecl.mpr ⟨hi, rfl⟩) with
      ⟨-, ht⟩ | ⟨p, hp, -, hlt⟩
    · exact absurd (by simpa using ht) hne
    · refine (Ancestry.below_iff (upward_ofDecl root)).mpr ⟨p, hp, ?_⟩
      by_cases hp0 : p = 0
      · exact .inl hp0
      · exact .inr (ih p hlt (by omega) hp0)

theorem source_ofDecl {i r : Nat} (hi : i < (ofDecl root).states.size)
    (hr : r ∈ ((ofDecl root).state i).transitions) :
    ∃ hr : r < (ofDecl root).transitions.length, (ofDecl root).transitions[r].source = i := by
  obtain ⟨t, ht, hs⟩ := root.source_of_mem_outline none 0 0 0 _ i
    (mem_zipIdx_ofDecl.mpr ⟨hi, rfl⟩) r hr
  obtain ⟨hlt, he⟩ := List.getElem?_eq_some_iff.mp (List.mem_zipIdx_iff_getElem?.mp ht)
  exact ⟨hlt, (congrArg OutlineTransition.source he).trans hs⟩

end ofDecl

/-! ### What the rules say about the chart -/

namespace Resolves

variable (h : o.Resolves c) (acc : o.Accepted)

include h in
theorem kindOf {s : Nat} (hs : s < o.states.size) : KindOf o (o.state s) (c.node s).kind :=
  kindOf_of_resolveKind (h.kind hs)

include h acc in
theorem shape {q : Nat} (hq : q < o.states.size) :
    ((o.state q).isLeafOnly = true → (c.node q).children = [] ∧ (c.node q).transitions = []) ∧
      ((o.state q).kind = .parallel ∨ (o.state q).isCompound = true →
        ∃ k ∈ (c.node q).children, o.isHistory k = false) := by
  have hs := acc.shape q hq
  simp only [Validation.structureOf, List.append_eq_nil_iff, require_eq_nil, Bool.or_eq_true,
    Bool.not_eq_true', List.isEmpty_iff, bne_iff_ne, List.any_eq_true] at hs
  obtain ⟨⟨⟨⟨hc, ht⟩, hp⟩, hr⟩, -⟩ := hs
  obtain ⟨-, hch, htr⟩ := h.node_fields q
  rw [hch, htr]
  refine ⟨fun hl => ⟨?_, ?_⟩, ?_⟩
  · exact hc.resolve_left (by simp [hl])
  · exact ht.resolve_left (by simp [hl])
  · rintro (hk | hk)
    · exact hp.resolve_left (fun hne => hne hk)
    · exact hr.resolve_left (by simp [hk])

include h acc in
theorem exists_region (children_lt : ∀ q, ∀ k ∈ (c.node q).children, k < o.states.size) {q : Nat}
    (hq : (c.node q).isCompound ∨ (c.node q).isParallel) : ∃ k, k ∈ c.regions q := by
  by_cases hlt : q < o.states.size
  · have hinner : (o.state q).kind = .parallel ∨ (o.state q).isCompound = true := by
      have hkind := h.kindOf hlt
      unfold Node.isCompound Node.isParallel at hq
      generalize (c.node q).kind = kind at hkind hq
      cases hkind <;> simp_all [OutlineState.isCompound]
    obtain ⟨k, hk, hh⟩ := (h.shape acc hlt).2 hinner
    exact ⟨k, by simp [Chart.regions, hk, ← h.isHistory (children_lt q k hk), hh]⟩
  · rw [h.node_of_not_lt hlt] at hq
    exact absurd hq (by decide)

include h acc in
theorem leaf {s : Nat} (hs : (c.node s).isFinal ∨ (c.node s).isHistory) :
    (c.node s).children = [] ∧ (c.node s).transitions = [] := by
  by_cases hlt : s < o.states.size
  · have hleaf : (o.state s).isLeafOnly = true := by
      have hkind := h.kindOf hlt
      unfold Node.isFinal Node.isHistory at hs
      generalize (c.node s).kind = kind at hkind hs
      cases hkind <;> simp_all [OutlineState.isLeafOnly]
    exact (h.shape acc hlt).1 hleaf
  · rw [h.node_of_not_lt hlt]
    exact ⟨rfl, rfl⟩

include h in
theorem atomic {s : Nat} (hs : (c.node s).kind = .atomic) : (c.node s).children = [] := by
  by_cases hlt : s < o.states.size
  · have hkind := h.kindOf hlt
    rw [hs] at hkind
    cases hkind with
    | atomic _ hc => rw [(h.node_fields s).2.1, hc]
  · rw [h.node_of_not_lt hlt]
    rfl

include h acc in
/-- Initial targets lie inside their region and can be active together. -/
theorem initialTargets (up : Ancestry.Upward c.parent) {s region : Nat} {ts : List Nat}
    (hs : s < o.states.size) (hr : Validation.regionOf s (o.state s) = some region)
    (hts : (o.state s).initial.filterMap o.find? = ts) :
    (∀ t ∈ ts, c.Below t region) ∧ ts.Pairwise c.Apart := by
  have hv := acc.initial s hs
  simp only [Validation.initialTargets, List.append_eq_nil_iff, List.flatMap_eq_nil_iff,
    require_eq_nil, hr] at hv
  refine ⟨fun t ht => ?_, hts ▸ h.pairwise_apart up hv.2⟩
  obtain ⟨name, hname, hfind⟩ := List.mem_filterMap.mp (hts ▸ ht)
  have hin := hv.1 name hname
  simp only [Validation.initialTarget, hfind, require_eq_nil] at hin
  rwa [Outline.isDescendant, ← h.parent_eq, Ancestry.isDescendant_iff] at hin

include h acc in
theorem transitionTargets (up : Ancestry.Upward c.parent) {r : Nat}
    (hr : r < o.transitions.length) :
    (∀ t ∈ (c.transition r).targets, t < o.states.size ∧ t ≠ 0) ∧
      (c.transition r).targets.Pairwise c.Apart := by
  have hv := acc.transition _ (List.getElem_mem hr)
  simp only [Validation.transition, List.append_eq_nil_iff, List.flatMap_eq_nil_iff,
    require_eq_nil] at hv
  obtain ⟨⟨-, hts⟩, hd⟩ := hv
  obtain ⟨-, he⟩ := resolveTransition_spec (h.transition r hr)
  rw [he] at hd
  have hne : ∀ t ∈ (c.transition r).targets, t < o.states.size ∧ t ≠ 0 := by
    intro t ht
    obtain ⟨name, hname, hfind⟩ := List.mem_filterMap.mp (he ▸ ht)
    refine ⟨find?_lt hfind, fun h0 => ?_⟩
    have := hts name hname
    simp [Validation.transitionTarget, hfind, h0] at this
  refine ⟨hne, ?_⟩
  rw [List.filter_eq_self.mpr (fun t ht => by simpa using (hne t ht).2)] at hd
  exact h.pairwise_apart up hd

end Resolves

end Outline

open Outline

/-- Building resolves the outline, and only if no rule is violated. -/
theorem ChartDecl.toChart_of_build {d : ChartDecl} {c : Chart} (h : d.build = .ok c) :
    (ofDecl d.root).violations = [] ∧ (ofDecl d.root).toChart = .ok c := by
  unfold ChartDecl.build at h
  simp only [flatten_eq_ofDecl] at h
  split at h
  · exact ⟨‹_›, h⟩
  · cases h

/-- A chart that builds is the outline of its declaration, and no rule is violated. -/
theorem ChartDecl.resolves_of_build {d : ChartDecl} {c : Chart} (h : d.build = .ok c) :
    (ofDecl d.root).Accepted ∧ (ofDecl d.root).Resolves c ∧ 0 < (ofDecl d.root).states.size := by
  obtain ⟨hv, hc⟩ := d.toChart_of_build h
  refine ⟨accepted_of_violations hv, resolves_of_toChartBy (toChart_eq hv ▸ hc), ?_⟩
  simp [ofDecl, StateDecl.outline, ChartDecl.root]

/-- The root is compound or parallel: it has children and is declared as one or the other. -/
theorem ChartDecl.root_inner_of_build {d : ChartDecl} {c : Chart} (h : d.build = .ok c) :
    (c.node Chart.root).isCompound ∨ (c.node Chart.root).isParallel := by
  obtain ⟨acc, res, hroot⟩ := d.resolves_of_build h
  have hplain : ((ofDecl d.root).state 0).kind = .plain ∨
      ((ofDecl d.root).state 0).kind = .parallel := by
    cases hp : d.isParallel <;> simp [ofDecl, state, StateDecl.outline, ChartDecl.root, hp]
  have hkind := res.kindOf hroot
  have hch := acc.inhabited
  unfold Chart.root Node.isCompound Node.isParallel
  generalize (c.node 0).kind = kind at hkind
  cases hkind <;> simp_all

/-- A chart that builds keeps every promise. -/
theorem ChartDecl.wellFormed_of_build {d : ChartDecl} {c : Chart} (h : d.build = .ok c) :
    c.WellFormed := by
  obtain ⟨acc, res, -⟩ := d.resolves_of_build h
  have up : Ancestry.Upward c.parent := res.parent_eq ▸ upward_ofDecl d.root
  have below_root : ∀ s, s < (ofDecl d.root).states.size → s ≠ 0 → c.Below s Chart.root := by
    intro s hs hne
    unfold Chart.Below
    rw [res.parent_eq]
    exact below_root_ofDecl d.root hs hne
  have mem_children : ∀ q k, k ∈ (c.node q).children ↔ c.parent k = some q := by
    intro q k
    rw [(res.node_fields q).2.1, res.parent_eq]
    exact mem_children_ofDecl d.root q k
  refine {
    upward := up
    below_root := fun s hs hne => below_root s (res.size ▸ hs) hne
    mem_children
    children_ascending := fun q => ?_
    root_inner := d.root_inner_of_build h
    exists_region := fun q hq => res.exists_region acc (fun q k hk => ?_) hq
    leaf := fun s hs => res.leaf acc hs
    atomic := fun s hs => res.atomic hs
    initial := fun s ts as hk => ?_
    default := fun h p d ts as hk hp => ?_
    targets := fun r hr => ?_
    source := fun s r hr => ?_
    root_transitions := ?_ }
  · rw [(res.node_fields q).2.1]
    exact children_ascending_ofDecl d.root q
  · exact lt_of_parent (res.parent_eq ▸ (mem_children q k).mp hk)
  · have hs : s < (ofDecl d.root).states.size := by
      by_contra hlt
      rw [res.node_of_not_lt hlt] at hk
      exact absurd hk (by simp [show (default : Node).kind = .atomic from rfl])
    have hkind := res.kindOf hs
    rw [hk] at hkind
    cases hkind with
    | compound _ hplain _ hts =>
      exact res.initialTargets acc up hs (by simp [Validation.regionOf, hplain]) hts
  · have hs := lt_of_parent (res.parent_eq ▸ hp)
    have hkind := res.kindOf hs
    rw [hk] at hkind
    cases hkind with
    | history _ _ hdecl hts =>
      refine res.initialTargets acc up hs ?_ hts
      rw [Validation.regionOf, hdecl, ← hp, res.parent_eq]
      rfl
  · obtain ⟨hts, hapart⟩ := res.transitionTargets acc up (res.ranks ▸ hr)
    exact ⟨fun t ht => below_root t (hts t ht).1 (hts t ht).2, hapart⟩
  · have hs : s < (ofDecl d.root).states.size := by
      by_contra hlt
      rw [res.node_of_not_lt hlt] at hr
      exact absurd hr (by simp [show (default : Node).transitions = [] from rfl])
    rw [(res.node_fields s).2.2] at hr
    obtain ⟨hlt, hsrc⟩ := source_ofDecl d.root hs hr
    exact ⟨res.ranks ▸ hlt, (resolveTransition_spec (res.transition r hlt)).1.trans hsrc⟩
  · rw [Chart.root, (res.node_fields 0).2.2]
    simp [ofDecl, state, StateDecl.outline, ChartDecl.root]

/-- The root has the initial targets that were declared. -/
theorem ChartDecl.initial_of_build {d : ChartDecl} {c : Chart} (h : d.build = .ok c)
    {ts : List Nat} {as : List ActionId} (hk : (c.node Chart.root).kind = .compound ⟨ts, as⟩) :
    ts.length ≤ d.initial.length := by
  obtain ⟨-, res, hroot⟩ := d.resolves_of_build h
  have hkind := res.kindOf hroot
  rw [show c.node 0 = c.node Chart.root from rfl, hk] at hkind
  have hinitial : ((ofDecl d.root).state 0).initial = d.initial := by
    simp [ofDecl, state, StateDecl.outline, ChartDecl.root]
  cases hkind with
  | compound _ _ _ hts =>
    rw [← hts, hinitial]
    exact List.length_filterMap_le _ _

/-- The chart of a declaration that builds. -/
def ChartDecl.chart (d : ChartDecl) : Chart := d.build.toOption.getD default

theorem ChartDecl.build_eq_chart {d : ChartDecl} (h : d.build.isOk = true) :
    d.build = .ok d.chart := by
  unfold chart
  cases hb : d.build with
  | ok c => rfl
  | error err => simp [hb, Except.isOk, Except.toBool] at h

end Statechart

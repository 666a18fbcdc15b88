import Statechart.Proofs.Agreement
import Statechart.Proofs.Naming
import Statechart.Proofs.Preorder
import Statechart.StateSet

/-!
What building makes of a declaration. States and transitions are kept by number, and whatever refers
to one of them is a number: parents and children, sources and targets. The numbers follow document
order, so a state is followed by all that is below it, and a transition by those that are declared
after it; and the chart tells all that was declared, in its order and once.
-/
namespace Statechart

open Chart (root)

/-! ### Depths and ranks in outlines -/

namespace StateDecl

mutual

/-- A state is one level below its parent, if that is in the outline. -/
theorem depth_outline (par : Option Nat) (depth first rank : Nat) : (d : StateDecl) → ∀ s i,
    (s, i) ∈ (d.outline par depth first rank).zipIdx first → s.parent = par ∧ s.depth = depth ∨
      ∃ t p, (t, p) ∈ (d.outline par depth first rank).zipIdx first ∧ s.parent = some p ∧
        s.depth = t.depth + 1
  | ⟨name, kind, initial, initialActions, onEntry, onExit, transitions, children⟩ => by
    have ih := depth_outlineAll (some first) (depth + 1) (first + 1) (rank + transitions.length)
      children
    simp only [outline, List.zipIdx_cons, List.mem_cons, Prod.mk.injEq]
    rintro s i (⟨rfl, rfl⟩ | h)
    · exact .inl ⟨rfl, rfl⟩
    · rcases ih s i h with ⟨hp, hdepth⟩ | ⟨t, p, ht, hp, hdepth⟩
      · exact .inr ⟨_, first, .inl ⟨rfl, rfl⟩, hp, hdepth⟩
      · exact .inr ⟨t, p, .inr ht, hp, hdepth⟩

theorem depth_outlineAll (par : Option Nat) (depth first rank : Nat) : (ds : List StateDecl) →
    ∀ s i, (s, i) ∈ (outlineAll par depth first rank ds).zipIdx first →
      s.parent = par ∧ s.depth = depth ∨
      ∃ t p, (t, p) ∈ (outlineAll par depth first rank ds).zipIdx first ∧ s.parent = some p ∧
        s.depth = t.depth + 1
  | [] => by simp [outlineAll]
  | d :: ds => by
    have hd := depth_outline par depth first rank d
    have hds := depth_outlineAll par depth (first + d.size) (rank + d.transitionCount) ds
    simp only [outlineAll, List.zipIdx_append, List.mem_append, length_outline]
    rintro s i (h | h)
    · exact (hd s i h).imp_right fun ⟨t, p, ht, hp⟩ => ⟨t, p, .inl ht, hp⟩
    · exact (hds s i h).imp_right fun ⟨t, p, ht, hp⟩ => ⟨t, p, .inr ht, hp⟩

end

mutual

/-- Every transition is listed by its source. -/
theorem listed_outline (par : Option Nat) (depth first rank : Nat) : (d : StateDecl) → ∀ t r,
    (t, r) ∈ (d.outlineTransitions first).zipIdx rank →
      ∃ s, (s, t.source) ∈ (d.outline par depth first rank).zipIdx first ∧ r ∈ s.transitions
  | ⟨name, kind, initial, initialActions, onEntry, onExit, transitions, children⟩ => by
    have ih := listed_outlineAll (some first) (depth + 1) (first + 1) (rank + transitions.length)
      children
    simp only [outline, outlineTransitions, List.zipIdx_cons, List.zipIdx_append, List.length_map,
      List.mem_cons, List.mem_append, Prod.mk.injEq]
    rintro t r (h | h)
    · have hle := le_of_mem_zipIdx h
      obtain ⟨own, -, rfl⟩ := List.mem_map.mp (List.fst_mem_of_mem_zipIdx h)
      rw [List.length_map] at hle
      exact ⟨_, .inl ⟨rfl, rfl⟩, List.mem_range'_1.mpr hle⟩
    · obtain ⟨s, hs, hr⟩ := ih t r h
      exact ⟨s, .inr hs, hr⟩

theorem listed_outlineAll (par : Option Nat) (depth first rank : Nat) : (ds : List StateDecl) →
    ∀ t r, (t, r) ∈ (outlineTransitionsAll first ds).zipIdx rank →
      ∃ s, (s, t.source) ∈ (outlineAll par depth first rank ds).zipIdx first ∧ r ∈ s.transitions
  | [] => by simp [outlineTransitionsAll]
  | d :: ds => by
    have hd := listed_outline par depth first rank d
    have hds := listed_outlineAll par depth (first + d.size) (rank + d.transitionCount) ds
    simp only [outlineAll, outlineTransitionsAll, List.zipIdx_append, List.mem_append,
      length_outline, length_outlineTransitions]
    rintro t r (h | h)
    · obtain ⟨s, hs, hr⟩ := hd t r h
      exact ⟨s, .inl hs, hr⟩
    · obtain ⟨s, hs, hr⟩ := hds t r h
      exact ⟨s, .inr hs, hr⟩

end

theorem declared_ascending (ds : List StateDecl) (first : Nat) :
    (declared (ds.zipIdx first)).Pairwise fun t t' => t.source ≤ t'.source := by
  have hnumbers : (ds.zipIdx first).Pairwise fun p q => p.2 < q.2 := by
    have hrange : ((ds.zipIdx first).map Prod.snd).Pairwise (· < ·) := by
      rw [List.zipIdx_map_snd]
      exact List.pairwise_lt_range'
    exact List.pairwise_map.mp hrange
  rw [declared, List.pairwise_flatMap]
  constructor
  · exact fun p _ => List.pairwise_map.mpr
      (List.pairwise_of_forall_mem_list fun _ _ _ _ => Nat.le_refl p.2)
  · refine hnumbers.imp fun {p q} hlt t ht t' ht' => ?_
    obtain ⟨-, -, rfl⟩ := List.mem_map.mp ht
    obtain ⟨-, -, rfl⟩ := List.mem_map.mp ht'
    exact Nat.le_of_lt hlt

end StateDecl

/-! ### What a chart keeps of a declaration -/

namespace Chart

/-- The kind of a state, as it was declared. Only compound and history states keep initial targets
and actions, so nobody else declares any. -/
inductive DrawsKind (c : Chart) (u : StateDecl) : Kind → Prop
  | atomic : u.kind = .plain → u.children = [] → u.initial = [] → u.initialActions = [] →
      DrawsKind c u .atomic
  | compound (ts : List Nat) : u.kind = .plain → u.children ≠ [] → c.namesOf ts = u.initial →
      DrawsKind c u (.compound ⟨ts, u.initialActions⟩)
  | parallel : u.kind = .parallel → u.initial = [] → u.initialActions = [] →
      DrawsKind c u .parallel
  | final : u.kind = .final → u.initial = [] → u.initialActions = [] → DrawsKind c u .final
  | bare (depth : HistoryDepth) : u.kind = .history depth → u.initial = [] →
      u.initialActions = [] → DrawsKind c u (.history depth none)
  | history (depth : HistoryDepth) (ts : List Nat) : u.kind = .history depth →
      c.namesOf ts = u.initial → (u.initial ≠ [] ∨ u.initialActions ≠ []) →
      DrawsKind c u (.history depth (some ⟨ts, u.initialActions⟩))

/-- The state is what was declared, and its children are the numbers of the declared ones. -/
structure DrawsState (c : Chart) (preorder : List StateDecl) (u : StateDecl) (n : Node) : Prop where
  name : n.name = u.name
  onEntry : n.onEntry = u.onEntry
  onExit : n.onExit = u.onExit
  kind : c.DrawsKind u n.kind
  children : List.Forall₂ (fun k child => preorder[k]? = some child) n.children u.children

/-- The transition is what was declared, its patterns read as descriptors. -/
structure DrawsTransition (c : Chart) (t : OutlineTransition) (u : Transition) : Prop where
  source : u.source = t.source
  triggers : u.triggers =
    t.decl.triggers.map fun g => ⟨g.event.map Descriptor.ofPattern, g.guard⟩
  targets : c.namesOf u.targets = t.decl.targets
  actions : u.actions = t.decl.actions
  kind : u.kind = t.decl.kind

/-- State by state and transition by transition the chart tells what was declared. -/
structure Draws (c : Chart) (d : StateDecl) : Prop where
  states : List.Forall₂ (c.DrawsState d.preorder) d.preorder c.states.toList
  transitions : List.Forall₂ c.DrawsTransition (StateDecl.declared d.preorder.zipIdx)
    c.transitions.toList

/-- States are numbered in document order, and transitions in that of their sources. -/
structure Arena (c : Chart) : Prop where
  id : ∀ i < c.size, (c.node i).id = i
  find? : ∀ name i, c.find? name = some i ↔ i < c.size ∧ c.nameOf i = name
  root_depth : (c.node root).depth = 0
  root_parent : ∀ i < c.size, c.parent i = none ↔ i = root
  parent : ∀ i p, c.parent i = some p → i < c.size ∧ p < i ∧
    (c.node i).depth = (c.node p).depth + 1
  children : ∀ s < c.size,
    (c.node s).children = (List.range c.size).filter fun i => c.parent i = some s
  subtree : ∀ s < c.size, ∃ e, s < e ∧ e ≤ c.size ∧
    ∀ x, c.isDescendant x s = true ↔ s < x ∧ x < e
  rank : ∀ r < c.transitions.size, (c.transition r).rank = r
  transitions : ∀ s < c.size, (c.node s).transitions =
    (List.range c.transitions.size).filter fun r => (c.transition r).source = s
  source : ∀ r < c.transitions.size, (c.transition r).source < c.size
  sources_ascending : ∀ r r', r ≤ r' → r' < c.transitions.size →
    (c.transition r).source ≤ (c.transition r').source
  targets : ∀ r < c.transitions.size, ∀ t ∈ (c.transition r).targets, t < c.size
  initial : ∀ s ts as, (c.node s).kind = .compound ⟨ts, as⟩ → ∀ t ∈ ts, t < c.size
  default : ∀ h depth ts as, (c.node h).kind = .history depth (some ⟨ts, as⟩) →
    ∀ t ∈ ts, t < c.size

end Chart

namespace Outline

variable {o : Outline} {c : Chart} {i : Nat}

namespace Resolves

variable (h : o.Resolves c)
include h

theorem exists_node (hi : i < o.states.size) : ∃ kind, resolveKind o.find? (o.state i) = .ok kind ∧
    c.node i = ⟨i, (o.state i).name, (o.state i).parent, (o.state i).children, kind,
      (o.state i).depth, (o.state i).onEntry, (o.state i).onExit, (o.state i).transitions⟩ := by
  obtain ⟨kind, hkind, hnode⟩ := bind_eq_ok_iff.mp (h.node i hi)
  exact ⟨kind, hkind, (Except.ok.inj hnode).symm⟩

theorem nameOf (hi : i < o.states.size) : c.nameOf i = (o.state i).name := by
  obtain ⟨kind, -, hnode⟩ := h.exists_node hi
  rw [Chart.nameOf, hnode]

/-- Resolved targets have the names that were declared. -/
theorem namesOf_targets {owner : String} {names : List String} {ts : List Nat}
    (hts : names.mapM (resolve o.find? owner) = .ok ts) : c.namesOf ts = names := by
  have hall := mapM_eq_ok_iff.mp hts
  clear hts
  induction hall with
  | nil => rfl
  | @cons name t names ts hfirst _ ih =>
    have hfind := resolve_eq_ok_iff.mp hfirst
    rw [Chart.namesOf, List.map_cons, h.nameOf (find?_lt hfind), name_of_find? hfind]
    exact congrArg (name :: ·) ih

theorem exists_transition {r : Nat} (hr : r < o.transitions.length) : ∃ ts,
    c.namesOf ts = o.transitions[r].decl.targets ∧ c.transition r =
      ⟨r, o.transitions[r].source, o.transitions[r].decl.triggers.map
        (fun g => ⟨g.event.map Descriptor.ofPattern, g.guard⟩), ts, o.transitions[r].decl.actions,
        o.transitions[r].decl.kind⟩ := by
  obtain ⟨ts, hts, htransition⟩ := bind_eq_ok_iff.mp (h.transition r hr)
  exact ⟨ts, h.namesOf_targets hts, (Except.ok.inj htransition).symm⟩

/-- A state that may declare no initial targets or actions declares none. -/
theorem drawsKind {s : OutlineState} {u : StateDecl} {kind : Kind}
    (hrule : Validation.structureOf o s = []) (hkind : resolveKind o.find? s = .ok kind)
    (hk : s.kind = u.kind) (hchildren : s.children = [] ↔ u.children = [])
    (hinitial : s.initial = u.initial) (hactions : s.initialActions = u.initialActions) :
    c.DrawsKind u kind := by
  have hnone (hplain : s.isCompound = false) (hhistory : ∀ depth, u.kind ≠ .history depth) :
      u.initial = [] ∧ u.initialActions = [] := by
    simp only [Validation.structureOf, List.append_eq_nil_iff, require_eq_nil, hplain, hk,
      hinitial, hactions, Bool.or_eq_true, Bool.and_eq_true, List.isEmpty_iff] at hrule
    obtain ⟨-, (hnone | hcompound) | hdefault⟩ := hrule
    · exact hnone
    · cases hcompound
    · cases hdefault
  have hentry {e : DefaultEntry} (he : resolveInitial o.find? s = .ok e) :
      c.namesOf e.targets = u.initial ∧ e.actions = u.initialActions := by
    obtain ⟨ts, hts, he⟩ := bind_eq_ok_iff.mp he
    obtain rfl := Except.ok.inj he
    exact ⟨hinitial ▸ h.namesOf_targets hts, hactions⟩
  unfold resolveKind at hkind
  split at hkind
  · rename_i hplain
    split at hkind
    · rename_i hempty
      obtain rfl := Except.ok.inj hkind
      obtain ⟨hi, ha⟩ := hnone (by simp [OutlineState.isCompound, hempty]) (by simp [← hk, hplain])
      exact .atomic (hk ▸ hplain) (hchildren.mp (by simpa using hempty)) hi ha
    · rename_i hempty
      obtain ⟨e, he, hkind⟩ := bind_eq_ok_iff.mp hkind
      obtain rfl := Except.ok.inj hkind
      obtain ⟨hnames, hacts⟩ := hentry he
      obtain ⟨ts, as⟩ := e
      subst hacts
      exact .compound ts (hk ▸ hplain) (mt hchildren.mpr (by simpa using hempty)) hnames
  · rename_i hparallel
    obtain rfl := Except.ok.inj hkind
    obtain ⟨hi, ha⟩ := hnone (by simp [OutlineState.isCompound, hparallel])
      (by simp [← hk, hparallel])
    exact .parallel (hk ▸ hparallel) hi ha
  · rename_i hfinal
    obtain rfl := Except.ok.inj hkind
    obtain ⟨hi, ha⟩ := hnone (by simp [OutlineState.isCompound, hfinal]) (by simp [← hk, hfinal])
    exact .final (hk ▸ hfinal) hi ha
  · rename_i depth hhistory
    obtain ⟨e, he, hkind⟩ := bind_eq_ok_iff.mp hkind
    obtain rfl := Except.ok.inj hkind
    obtain ⟨hnames, hacts⟩ := hentry he
    obtain ⟨ts, as⟩ := e
    subst hacts
    have htargets : ts = [] ↔ u.initial = [] := by
      rw [← hnames, Chart.namesOf, List.map_eq_nil_iff]
    split
    · rename_i hempty
      simp only [Bool.and_eq_true, List.isEmpty_iff] at hempty
      exact .bare depth (hk ▸ hhistory) (htargets.mp hempty.1) hempty.2
    · rename_i hempty
      simp only [Bool.and_eq_true, List.isEmpty_iff, not_and_or] at hempty
      exact .history depth ts (hk ▸ hhistory) hnames (hempty.imp_left (mt htargets.mpr))

end Resolves

end Outline

/-! ### Charts that build -/

namespace ChartDecl

variable {d : ChartDecl} {c : Chart}

section Built

variable (h : d.build = .ok c)
include h

theorem size_of_build : c.size = d.root.preorder.length := by
  obtain ⟨-, res, -⟩ := d.resolves_of_build h
  rw [res.size, Outline.size_ofDecl]

/-- In a chart that builds the states below one are those of its stretch behind it. -/
theorem isDescendant_of_build {i x : Nat} {u : StateDecl} (hu : d.root.preorder[i]? = some u) :
    c.isDescendant x i = true ↔ i < x ∧ x < i + u.size := by
  obtain ⟨-, res, -⟩ := d.resolves_of_build h
  rw [Chart.isDescendant, Ancestry.isDescendant_iff, res.parent_eq]
  exact Outline.below_iff_ofDecl hu

theorem depth_of_build {i p : Nat} (hp : c.parent i = some p) :
    (c.node i).depth = (c.node p).depth + 1 := by
  obtain ⟨-, res, -⟩ := d.resolves_of_build h
  rw [res.parent_eq] at hp
  have hi := Outline.lt_of_parent hp
  rcases d.root.depth_outline none 0 0 0 _ i (Outline.mem_zipIdx_ofDecl.mpr ⟨hi, rfl⟩) with
    ⟨hnone, -⟩ | ⟨t, q, ht, hq, hdepth⟩
  · exact absurd (hnone.symm.trans hp) (by simp)
  · obtain rfl : q = p := Option.some.inj (hq.symm.trans hp)
    obtain ⟨hq', rfl⟩ := Outline.mem_zipIdx_ofDecl.mp ht
    obtain ⟨_, -, hnode⟩ := res.exists_node hi
    obtain ⟨_, -, hnode'⟩ := res.exists_node hq'
    rw [hnode, hnode']
    exact hdepth

theorem mem_transitions_of_build {s r : Nat} : r ∈ (c.node s).transitions ↔
    r < c.transitions.size ∧ (c.transition r).source = s := by
  obtain ⟨-, res, -⟩ := d.resolves_of_build h
  constructor
  · exact fun hr => (wellFormed_of_build h).source s r hr
  · rintro ⟨hr, rfl⟩
    rw [res.ranks] at hr
    obtain ⟨ts, -, htransition⟩ := res.exists_transition hr
    obtain ⟨q, hq, hmem⟩ := d.root.listed_outline none 0 0 0 _ r
      (List.mem_zipIdx_iff_getElem?.mpr (List.getElem?_eq_getElem hr))
    obtain ⟨-, rfl⟩ := Outline.mem_zipIdx_ofDecl.mp hq
    rw [htransition, (res.node_fields _).2.2]
    exact hmem

theorem sources_ascending_of_build {r r' : Nat} (hle : r ≤ r') (hr : r' < c.transitions.size) :
    (c.transition r).source ≤ (c.transition r').source := by
  obtain ⟨-, res, -⟩ := d.resolves_of_build h
  have hasc : (Outline.ofDecl d.root).transitions.Pairwise fun t t' => t.source ≤ t'.source := by
    rw [Outline.ofDecl, StateDecl.outlineTransitions_eq]
    exact StateDecl.declared_ascending _ 0
  rw [res.ranks] at hr
  obtain ⟨_, -, ht⟩ := res.exists_transition (Nat.lt_of_le_of_lt hle hr)
  obtain ⟨_, -, ht'⟩ := res.exists_transition hr
  rw [ht, ht']
  rcases Nat.lt_or_eq_of_le hle with hlt | rfl
  · exact List.pairwise_iff_getElem.mp hasc r r' _ hr hlt
  · exact Nat.le_refl _

theorem default_lt_of_build {s : Nat} {depth : HistoryDepth} {ts : List Nat} {as : List ActionId}
    (hk : (c.node s).kind = .history depth (some ⟨ts, as⟩)) : ∀ t ∈ ts, t < c.size := by
  obtain ⟨-, res, -⟩ := d.resolves_of_build h
  have hs : s < (Outline.ofDecl d.root).states.size := by
    by_contra hlt
    rw [res.node_of_not_lt hlt] at hk
    exact absurd hk (by simp [show (default : Node).kind = .atomic from rfl])
  have hkind := res.kindOf hs
  rw [hk] at hkind
  cases hkind with
  | history _ _ _ hts =>
    intro t ht
    obtain ⟨name, -, hfind⟩ := List.mem_filterMap.mp (hts ▸ ht)
    exact res.size ▸ Outline.find?_lt hfind

theorem numbered_of_build : c.Arena := by
  obtain ⟨-, res, hpos⟩ := d.resolves_of_build h
  have wf := wellFormed_of_build h
  have named := named_of_build h
  have below_lt {t a : Nat} (ht : c.Below t a) : t < c.size := wf.lt_size_of_below ht
  have node {i : Nat} (hi : i < c.size) := res.exists_node (res.size ▸ hi)
  refine {
    id := fun i hi => ?_
    find? := fun name i => ⟨Chart.find?_eq_some, fun ⟨hi, hname⟩ => hname ▸ named.find?_nameOf hi⟩
    root_depth := ?_
    root_parent := fun i hi => ?_
    parent := fun i p hp => ⟨Chart.lt_size_of_parent hp, wf.upward i p hp, depth_of_build h hp⟩
    children := fun s hs => ?_
    subtree := fun s hs => ?_
    rank := fun r hr => ?_
    transitions := fun s hs => ?_
    source := fun r hr => ?_
    sources_ascending := fun r r' => sources_ascending_of_build h
    targets := fun r hr t ht => below_lt ((wf.targets r hr).1 t ht)
    initial := fun s ts as hk t ht => below_lt ((wf.initial s ts as hk).1 t ht)
    default := fun s depth ts as hk => default_lt_of_build h hk }
  · obtain ⟨kind, -, hnode⟩ := node hi
    rw [hnode]
  · obtain ⟨kind, -, hnode⟩ := res.exists_node hpos
    rw [Chart.root, hnode]
    simp [Outline.ofDecl, Outline.state, StateDecl.outline, ChartDecl.root]
  · constructor
    · intro hnone
      by_contra hne
      obtain ⟨p, hp, -⟩ := (Ancestry.below_iff wf.upward).mp (wf.below_root i hi hne)
      exact absurd (hnone.symm.trans hp) (by simp)
    · rintro rfl
      cases hp : c.parent Chart.root with
      | none => rfl
      | some p => exact absurd (wf.upward Chart.root p hp) (Nat.not_lt_zero p)
  · refine StateSet.eq_of_pairwise_of_mem_iff (wf.children_ascending s)
      (List.pairwise_lt_range.filter _) fun i => ?_
    rw [wf.mem_children, List.mem_filter, List.mem_range, decide_eq_true_iff]
    exact ⟨fun hp => ⟨Chart.lt_size_of_parent hp, hp⟩, fun hp => hp.2⟩
  · have hs' : s < d.root.preorder.length := size_of_build h ▸ hs
    have hu := List.getElem?_eq_getElem hs'
    have hlen := (StateDecl.prefix_of_preorder hu).length_le
    rw [List.length_drop, StateDecl.length_preorder, ← size_of_build h] at hlen
    have hsize := (d.root.preorder[s]).size_pos
    exact ⟨s + (d.root.preorder[s]).size, by omega, by omega, fun x => isDescendant_of_build h hu⟩
  · obtain ⟨ts, -, htransition⟩ := res.exists_transition (res.ranks ▸ hr)
    rw [htransition]
  · refine StateSet.eq_of_pairwise_of_mem_iff (transitions_ascending_of_build h s)
      (List.pairwise_lt_range.filter _) fun r => ?_
    rw [mem_transitions_of_build h, List.mem_filter, List.mem_range, decide_eq_true_iff]
  · by_contra hlt
    have hr' := (mem_transitions_of_build h).mpr ⟨hr, rfl⟩
    rw [Chart.node_of_not_lt hlt] at hr'
    exact absurd hr' (List.not_mem_nil)

theorem draws_of_build : c.Draws d.root := by
  obtain ⟨acc, res, -⟩ := d.resolves_of_build h
  constructor
  · refine List.forall₂_iff_get.mpr ⟨(size_of_build h).symm, fun i hi hi' => ?_⟩
    have hlt : i < (Outline.ofDecl d.root).states.size := res.size ▸ hi'
    obtain ⟨parent, depth, rank, hstate⟩ :=
      Outline.state_ofDecl (List.getElem?_eq_getElem hi)
    obtain ⟨kind, hkind, hnode⟩ := res.exists_node hlt
    have hchildren := Outline.forall₂_children_ofDecl (List.getElem?_eq_getElem hi)
    have hempty := Outline.children_eq_nil_ofDecl (List.getElem?_eq_getElem hi)
    have hget : c.states.toList.get ⟨i, hi'⟩ = c.node i := by
      simp [Chart.node, Array.getD, show i < c.states.size from hi']
    rw [hget, List.get_eq_getElem, hnode]
    refine ⟨?_, ?_, ?_, ?_, hchildren⟩
    · rw [hstate]
    · rw [hstate]
    · rw [hstate]
    · exact res.drawsKind (acc.shape i hlt) hkind (by rw [hstate]) hempty (by rw [hstate])
        (by rw [hstate])
  · rw [← StateDecl.outlineTransitions_eq]
    refine List.forall₂_iff_get.mpr ⟨res.ranks.symm, fun r hr hr' => ?_⟩
    obtain ⟨ts, hts, htransition⟩ := res.exists_transition hr
    have hget : c.transitions.toList.get ⟨r, hr'⟩ = c.transition r := by
      simp [Chart.transition, Array.getD, show r < c.transitions.size from hr']
    rw [hget, htransition]
    exact ⟨rfl, rfl, hts, rfl, rfl⟩

/-- Building numbers the states in document order and the transitions in that of their sources, and
loses, doubles or moves nothing of what was declared. -/
theorem arena_of_build : c.Arena ∧ c.Draws d.root := ⟨numbered_of_build h, draws_of_build h⟩

end Built

end ChartDecl

/-- A book with a page to come back to. -/
def book : ChartDecl where
  name := "Book"
  initial := ["one"]
  states := [
    ((((StateDecl.plain "open").withTransition (.simple "close" "shut")).withChild
      ((StateDecl.plain "one").withTransition (.simple "turn" "two"))).withChild
      (.plain "two")).withChild (.history "mark" .shallow),
    (StateDecl.plain "shut").withTransition (.simple "open" "mark")]

/-- Its pages stand between the states it is open and shut in. -/
theorem book_arena : book.build = .ok book.chart ∧ book.chart.Arena ∧ book.chart.Draws book.root ∧
    (book.chart.node 1).children = [2, 3, 4] ∧ (book.chart.node 2).transitions = [1] ∧
    (book.chart.transition 2).source = 5 ∧ (book.chart.transition 2).targets = [4] := by
  have hb : book.build = .ok book.chart := ChartDecl.build_eq_chart (by decide +kernel)
  obtain ⟨harena, hdraws⟩ := ChartDecl.arena_of_build hb
  exact ⟨hb, harena, hdraws, by decide +kernel⟩

end Statechart

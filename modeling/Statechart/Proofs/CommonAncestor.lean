import Statechart.Proofs.BuiltChart

/-!
The state that several states have in common. A walk upwards from the first of them stops at the
first compound state that is above all the others, or at the root. What is above one state is a
chain, so the walk finds the least of all such states, from whichever of them it starts; and what
is above a state is above all that lies below it, so more states from there change nothing.
-/
namespace Statechart

open Chart (root)

namespace Chart

variable {c : Chart} {a b s t : Nat} {ss ts : List Nat}

/-- Compound, or the root, and above all of the states. -/
structure Embraces (c : Chart) (ss : List Nat) (a : Nat) : Prop where
  inner : a = root ∨ (c.node a).isCompound = true
  above : ∀ s ∈ ss, c.Below s a

/-- Nothing lower embraces the states: what else embraces them has the state within it. -/
structure Least (c : Chart) (ss : List Nat) (a : Nat) : Prop where
  embraces : c.Embraces ss a
  least : ∀ b, c.Embraces ss b → c.Within a b

theorem Least.unique (up : Ancestry.Upward c.parent) (ha : c.Least ss a) (hb : c.Least ss b) :
    a = b :=
  Nat.le_antisymm ((hb.least a ha.embraces).le up) ((ha.least b hb.embraces).le up)

/-- Only what embraces the states matters. -/
theorem Least.congr (h : ∀ b, c.Embraces ss b ↔ c.Embraces ts b) (ha : c.Least ss a) :
    c.Least ts a :=
  ⟨(h a).mp ha.embraces, fun b hb => ha.least b ((h b).mpr hb)⟩

theorem least_leastCompoundAncestor (up : Ancestry.Upward c.parent) (hne : ss ≠ [])
    (hss : ∀ s ∈ ss, c.Below s root) : c.Least ss (c.leastCompoundAncestor ss) := by
  cases ss with
  | nil => exact absurd rfl hne
  | cons s ss =>
    obtain ⟨hs, hss⟩ := List.forall_mem_cons.mp hss
    have htest (b : Nat) : ((b == root || (c.node b).isCompound) &&
        ss.all (c.isDescendant · b)) = true ↔
        (b = root ∨ (c.node b).isCompound = true) ∧ ∀ t ∈ ss, c.Below t b := by
      simp [isDescendant, Ancestry.isDescendant_iff]
    cases hf : (c.ancestors s).find? (fun b =>
        (b == root || (c.node b).isCompound) && ss.all (c.isDescendant · b)) with
    | none =>
      -- The root passes every test, so the walk does not end without a state.
      exact absurd ((htest root).mpr ⟨.inl rfl, hss⟩) (List.find?_eq_none.mp hf root hs)
    | some q =>
      have hq : c.leastCompoundAncestor (s :: ss) = q := by
        rw [leastCompoundAncestor, hf, Option.getD_some]
      obtain ⟨hsq, hpasses, hfirst⟩ := Ancestry.within_of_find?_ancestors up hf
      obtain ⟨hinner, habove⟩ := (htest q).mp hpasses
      rw [hq]
      refine ⟨⟨hinner, List.forall_mem_cons.mpr ⟨hsq, habove⟩⟩, fun b hb => ?_⟩
      obtain ⟨hsb, hssb⟩ := List.forall_mem_cons.mp hb.above
      exact hfirst b hsb ((htest b).mpr ⟨hb.inner, hssb⟩)

/-- Where each list lies within the other, the same states embrace both. -/
theorem embraces_congr (up : Ancestry.Upward c.parent)
    (hst : ∀ s ∈ ss, ∃ t ∈ ts, c.Within s t) (hts : ∀ t ∈ ts, ∃ s ∈ ss, c.Within t s) (b : Nat) :
    c.Embraces ss b ↔ c.Embraces ts b := by
  refine ⟨fun h => ⟨h.inner, fun t ht => ?_⟩, fun h => ⟨h.inner, fun s hs => ?_⟩⟩
  · obtain ⟨s, hs, hwithin⟩ := hts t ht
    exact hwithin.trans_below up (h.above s hs)
  · obtain ⟨t, ht, hwithin⟩ := hst s hs
    exact hwithin.trans_below up (h.above t ht)

theorem leastCompoundAncestor_congr (up : Ancestry.Upward c.parent) (hne : ss ≠ [])
    (hss : ∀ s ∈ ss, c.Below s root) (hst : ∀ s ∈ ss, ∃ t ∈ ts, c.Within s t)
    (hts : ∀ t ∈ ts, ∃ s ∈ ss, c.Within t s) :
    c.leastCompoundAncestor ts = c.leastCompoundAncestor ss := by
  have hleast := (least_leastCompoundAncestor up hne hss).congr (embraces_congr up hst hts)
  obtain ⟨s, hs⟩ := List.exists_mem_of_ne_nil ss hne
  obtain ⟨t, ht, -⟩ := hst s hs
  refine (least_leastCompoundAncestor up (List.ne_nil_of_mem ht) fun t ht => ?_).unique up hleast
  obtain ⟨s, hs, hwithin⟩ := hts t ht
  exact hwithin.trans_below up (hss s hs)

/-- The least compound ancestor of states below the root embraces them, and lies within every other
state that does. It is the same for all lists of the same states, in whatever order and however
often they stand there, and it stays the same when states below one of them are added. -/
theorem leastCompoundAncestor_of_build {d : ChartDecl} (hb : d.build = .ok c) (hne : ss ≠ [])
    (hss : ∀ s ∈ ss, s < c.size ∧ s ≠ root) :
    c.Least ss (c.leastCompoundAncestor ss) ∧
    (∀ ts, (∀ t, t ∈ ts ↔ t ∈ ss) →
      c.leastCompoundAncestor ts = c.leastCompoundAncestor ss) ∧
    ∀ ts, (∀ s ∈ ss, s ∈ ts) → (∀ t ∈ ts, t ∈ ss ∨ ∃ s ∈ ss, c.Below t s) →
      c.leastCompoundAncestor ts = c.leastCompoundAncestor ss := by
  have wf := ChartDecl.wellFormed_of_build hb
  have hroot (s : Nat) (hs : s ∈ ss) : c.Below s root := wf.below_root s (hss s hs).1 (hss s hs).2
  have hself {ts : List Nat} {s : Nat} (hs : s ∈ ts) : ∃ t ∈ ts, c.Within s t :=
    ⟨s, hs, .refl c.parent s⟩
  refine ⟨least_leastCompoundAncestor wf.upward hne hroot, fun ts hsame => ?_,
    fun ts hadded hbelow => ?_⟩
  · exact leastCompoundAncestor_congr wf.upward hne hroot (fun s hs => hself ((hsame s).mpr hs))
      fun t ht => hself ((hsame t).mp ht)
  · refine leastCompoundAncestor_congr wf.upward hne hroot (fun s hs => hself (hadded s hs))
      fun t ht => ?_
    rcases hbelow t ht with hmem | ⟨s, hs, htb⟩
    · exact hself hmem
    · exact ⟨s, hs, htb.within⟩

end Chart

/-- An oven that heats and lights its inside while it is on. -/
def oven : ChartDecl where
  name := "Oven"
  states := [
    (StateDecl.plain "on").withChild
      (((StateDecl.parallel "running").withChild
        (((StateDecl.plain "heat").withChild (.plain "low")).withChild (.plain "high"))).withChild
        (((StateDecl.plain "lamp").withChild (.plain "lit")).withChild (.plain "unlit"))),
    .plain "off"]

/-- Heat and lamp meet in a parallel state, but what they have in common is that the oven is on. -/
theorem oven_common : oven.build = .ok oven.chart ∧ (oven.chart.node 2).isParallel = true ∧
    oven.chart.Least [3, 6] 1 ∧ oven.chart.leastCompoundAncestor [6, 3, 6] = 1 ∧
    oven.chart.Below 5 3 ∧ oven.chart.leastCompoundAncestor [5, 6, 3] = 1 := by
  have hb : oven.build = .ok oven.chart := ChartDecl.build_eq_chart (by decide +kernel)
  have hss : ∀ s ∈ [3, 6], s < oven.chart.size ∧ s ≠ root := by decide +kernel
  have hon : oven.chart.leastCompoundAncestor [3, 6] = 1 := by decide +kernel
  have hbelow : oven.chart.Below 5 3 := Ancestry.isDescendant_iff.mp (by decide +kernel)
  obtain ⟨hleast, hsame, hadded⟩ := Chart.leastCompoundAncestor_of_build hb (by simp) hss
  rw [hon] at hleast hsame hadded
  refine ⟨hb, by decide +kernel, hleast, hsame [6, 3, 6] (by grind), hbelow,
    hadded [5, 6, 3] (by simp) fun t ht => ?_⟩
  simp only [List.mem_cons, List.not_mem_nil, or_false] at ht
  rcases ht with rfl | rfl | rfl
  · exact .inr ⟨3, by simp, hbelow⟩
  · exact .inl (by simp)
  · exact .inl (by simp)

end Statechart

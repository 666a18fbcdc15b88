import Statechart.Proofs.BuiltChart

/-!
Names. In a chart that builds no name occurs twice, so a state is found under its own name and under
no other.
-/
namespace Statechart

namespace Chart

variable {c : Chart} {i j : Nat} {name : String}

/-- No two states have the same name. -/
def Named (c : Chart) : Prop := ∀ i j, i < c.size → j < c.size → c.nameOf i = c.nameOf j → i = j

theorem nameOf_eq_getElem (hi : i < c.states.size) : c.nameOf i = c.states[i].name := by
  simp [nameOf, node, Array.getD, hi]

/-- A state is found under its own name only. -/
theorem find?_eq_some (h : c.find? name = some i) : i < c.size ∧ c.nameOf i = name := by
  obtain ⟨hi, hname, -⟩ := Array.findIdx?_eq_some_iff_getElem.mp h
  exact ⟨hi, (nameOf_eq_getElem hi).trans (by simpa using hname)⟩

theorem Named.find?_nameOf (named : c.Named) (hi : i < c.size) :
    c.find? (c.nameOf i) = some i := by
  refine Array.findIdx?_eq_some_iff_getElem.mpr ⟨hi, ?_, fun j hj => ?_⟩
  · simp [nameOf_eq_getElem hi]
  · have hj' : j < c.states.size := Nat.lt_trans hj hi
    intro heq
    have hname : c.nameOf j = c.nameOf i := (nameOf_eq_getElem hj').trans (by simpa using heq)
    exact absurd (named j i hj' hi hname) (Nat.ne_of_lt hj)

end Chart

/-- A chart that builds gives every state a name of its own. -/
theorem ChartDecl.named_of_build {d : ChartDecl} {c : Chart} (h : d.build = .ok c) : c.Named := by
  obtain ⟨-, hres, -⟩ := ChartDecl.resolves_of_build h
  have hnodup := Outline.nodup_of_violations (d.toChart_of_build h).1
  have hname (i : Nat) (hi : i < ((Outline.ofDecl d.root).states.toList.map (·.name)).length) :
      c.nameOf i = ((Outline.ofDecl d.root).states.toList.map (·.name))[i] := by
    have hlt : i < (Outline.ofDecl d.root).states.size := by simpa using hi
    obtain ⟨kind, -, hnode⟩ := bind_eq_ok_iff.mp (hres.node i hlt)
    simp only [pure, Except.pure, Except.ok.injEq] at hnode
    simp [Chart.nameOf, ← hnode, Outline.state, Array.getD, hlt]
  intro i j hi hj heq
  rw [hres.size] at hi hj
  rw [hname i (by simpa using hi), hname j (by simpa using hj)] at heq
  exact (List.getElem_inj hnodup).mp heq

end Statechart

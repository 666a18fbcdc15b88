import Statechart.Build

/-!
Two ways to look up a name. The rules are checked with the first state declared under a name, and
names are resolved to the last one. An outline that violates no rule declares no name twice, and so
both find the same.
-/
namespace Statechart

namespace Validation

/-- Nothing recurs in a list without repetitions, and only there. -/
theorem recurring_eq_nil_iff {seen reported names : List String}
    (hreported : ∀ name ∈ reported, name ∉ names) :
    recurring seen reported names = [] ↔ names.Nodup ∧ ∀ name ∈ names, name ∉ seen := by
  induction names generalizing seen with
  | nil => simp [recurring]
  | cons name names ih =>
    have hname : name ∉ reported := fun h => hreported name h (by simp)
    have ih : recurring (name :: seen) reported names = [] ↔
        names.Nodup ∧ ∀ n ∈ names, n ∉ name :: seen :=
      ih fun n hn hm => hreported n hn (by simp [hm])
    by_cases hseen : name ∈ seen
    · simp [recurring, hseen, hname]
    · simp only [recurring, List.contains_iff_mem, hseen, if_false, ih, List.nodup_cons,
        List.mem_cons, not_or, forall_eq_or_imp, not_false_eq_true, true_and]
      constructor
      · rintro ⟨hnodup, hfresh⟩
        exact ⟨⟨fun hmem => (hfresh name hmem).1 rfl, hnodup⟩, fun n hn => (hfresh n hn).2⟩
      · rintro ⟨⟨hno, hnodup⟩, hfresh⟩
        exact ⟨hnodup, fun n hn => ⟨fun heq => hno (heq ▸ hn), hfresh n hn⟩⟩

theorem nodup_of_uniqueNames {o : Outline} (h : uniqueNames o = []) :
    (o.states.toList.map (·.name)).Nodup :=
  ((recurring_eq_nil_iff (by simp)).mp (List.map_eq_nil_iff.mp h)).1

end Validation

namespace Outline

variable {o : Outline}

theorem nodup_of_violations (h : o.violations = []) : (o.states.toList.map (·.name)).Nodup := by
  simp only [violations, List.append_eq_nil_iff] at h
  exact Validation.nodup_of_uniqueNames h.1.1.1.2

theorem index_eq (o : Outline) :
    o.index = (o.states.toList.zipIdx.map fun p => (p.1.name, p.2)).reverse := by
  rw [index, ← List.append_nil (List.reverse _)]
  exact List.foldl_flip_cons_eq_append

theorem mem_index {name : String} {i : Nat} :
    (name, i) ∈ o.index ↔ (o.states.toList.map (·.name))[i]? = some name := by
  simp only [index_eq, List.mem_reverse, List.mem_map, Prod.mk.injEq, Prod.exists,
    List.mem_zipIdx_iff_getElem?, List.getElem?_map, Option.map_eq_some_iff]
  constructor
  · rintro ⟨s, i, hs, rfl, rfl⟩
    exact ⟨s, hs, rfl⟩
  · rintro ⟨s, hs, rfl⟩
    exact ⟨s, i, hs, rfl, rfl⟩

section Nodup

variable (hnodup : (o.states.toList.map (·.name)).Nodup) {name : String} {i : Nat}
include hnodup

theorem eq_of_named {j : Nat} (hi : (o.states.toList.map (·.name))[i]? = some name)
    (hj : (o.states.toList.map (·.name))[j]? = some name) : i = j := by
  obtain ⟨hi', hi⟩ := List.getElem?_eq_some_iff.mp hi
  obtain ⟨hj', hj⟩ := List.getElem?_eq_some_iff.mp hj
  exact (List.getElem_inj hnodup).mp (hi.trans hj.symm)

theorem last?_eq_some_iff :
    o.last? name = some i ↔ (o.states.toList.map (·.name))[i]? = some name := by
  have hread {j : Nat} (h : o.last? name = some j) :
      (o.states.toList.map (·.name))[j]? = some name := by
    obtain ⟨before, after, hindex, -⟩ := List.lookup_eq_some_iff.mp h
    exact mem_index.mp (by simp [hindex])
  refine ⟨hread, fun hi => ?_⟩
  cases hlast : o.last? name with
  | none =>
    have hno := List.lookup_eq_none_iff.mp hlast _ (mem_index.mpr hi)
    simp at hno
  | some j => rw [eq_of_named hnodup hi (hread hlast)]

theorem find?_eq_some_iff :
    o.find? name = some i ↔ (o.states.toList.map (·.name))[i]? = some name := by
  have hread {j : Nat} (h : o.find? name = some j) :
      (o.states.toList.map (·.name))[j]? = some name := by
    obtain ⟨hj, hname, -⟩ := Array.findIdx?_eq_some_iff_getElem.mp h
    simpa [hj] using hname
  refine ⟨hread, fun hi => ?_⟩
  cases hfind : o.find? name with
  | none =>
    obtain ⟨hlt, hname⟩ := List.getElem?_eq_some_iff.mp hi
    have hlt' : i < o.states.size := by simpa using hlt
    have hsame : o.states[i].name = name := by simpa using hname
    have hno := Array.findIdx?_eq_none_iff.mp hfind _ (Array.getElem_mem hlt')
    simp [hsame] at hno
  | some j => rw [eq_of_named hnodup hi (hread hfind)]

/-- If no name recurs, its first and its last declaration are the same. -/
theorem last?_eq_find? : o.last? = o.find? :=
  funext fun _ => Option.ext fun _ =>
    (last?_eq_some_iff hnodup).trans (find?_eq_some_iff hnodup).symm

end Nodup

/-- If no rule is violated, it does not matter which of two declarations a name stands for. -/
theorem toChart_eq (h : o.violations = []) : o.toChart = toChartBy o.find? o := by
  rw [toChart, last?_eq_find? (nodup_of_violations h)]

end Outline

end Statechart

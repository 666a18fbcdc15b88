import Statechart.Proofs.Numbering

/-!
Flattening. What is added for a declaration stands at the end of the outline, where its number is
the count of what was there before, and nothing that stood there changes but the lists of the state
it hangs on. So the outline of a declaration has the closed form of its numbers.
-/
namespace Statechart.Outline

variable {o : Outline} {before after : List OutlineState} {s : OutlineState}

theorem modify_append (before : List OutlineState) (f : OutlineState → OutlineState)
    (s : OutlineState) (after : List OutlineState) :
    (before ++ s :: after).modify before.length f = before ++ f s :: after := by
  induction before with
  | nil => rfl
  | cons b before ih => exact congrArg (b :: ·) ih

theorem foldl_pushTransition (ts : List TransitionDecl)
    (h : o.states.toList = before ++ [s]) :
    (ts.foldl (pushTransition before.length) o).states.toList =
        before ++ [{ s with
          transitions := s.transitions ++ List.range' o.transitions.length ts.length }] ∧
      (ts.foldl (pushTransition before.length) o).transitions =
        o.transitions ++ ts.map (⟨before.length, ·⟩) := by
  induction ts generalizing o s with
  | nil => simp [h]
  | cons t ts ih =>
    have hone : (pushTransition before.length o t).states.toList =
        before ++ [{ s with transitions := s.transitions ++ [o.transitions.length] }] := by
      rw [pushTransition, Array.toList_modify, h, modify_append]
    obtain ⟨hstates, htransitions⟩ := ih hone
    rw [List.foldl_cons, hstates, htransitions]
    simp [pushTransition, List.range'_succ]

mutual

theorem push_spec (parent : Option Nat) (depth : Nat) (o : Outline) : (d : StateDecl) →
    (push parent depth o d).1 = o.states.size ∧
      (push parent depth o d).2.states.toList =
        o.states.toList ++ d.outline parent depth o.states.size o.transitions.length ∧
      (push parent depth o d).2.transitions =
        o.transitions ++ d.outlineTransitions o.states.size
  | ⟨name, kind, initial, initialActions, onEntry, onExit, transitions, children⟩ => by
    let s : OutlineState :=
      { name, kind, parent, depth, initial, initialActions, onEntry, onExit
        children := []
        transitions := [] }
    have hpushed : ({ o with states := o.states.push s } : Outline).states.toList =
        o.states.toList ++ [s] := Array.toList_push
    obtain ⟨hstates, htransitions⟩ := foldl_pushTransition transitions hpushed
    obtain ⟨hall, hall'⟩ := pushAll_spec (depth + 1) hstates children
    have hsize : (transitions.foldl (pushTransition o.states.toList.length)
        { o with states := o.states.push s }).states.size = o.states.size + 1 := by
      rw [← Array.length_toList, hstates, List.length_append, Array.length_toList]
      rfl
    rw [htransitions, hsize] at hall hall'
    refine ⟨rfl, ?_, ?_⟩
    · refine hall.trans ?_
      simp [s, StateDecl.outline]
    · refine hall'.trans ?_
      simp [StateDecl.outlineTransitions]

theorem pushAll_spec (depth : Nat) {o : Outline} {before after : List OutlineState}
    {s : OutlineState} (h : o.states.toList = before ++ s :: after) : (ds : List StateDecl) →
    (pushAll before.length depth o ds).states.toList =
        before ++ { s with children := s.children ++ StateDecl.siblings o.states.size ds } ::
          (after ++ StateDecl.outlineAll (some before.length) depth o.states.size
            o.transitions.length ds) ∧
      (pushAll before.length depth o ds).transitions =
        o.transitions ++ StateDecl.outlineTransitionsAll o.states.size ds
  | [] => by simp [pushAll, StateDecl.siblings, StateDecl.outlineAll,
      StateDecl.outlineTransitionsAll, h]
  | d :: ds => by
    obtain ⟨hchild, hstates, htransitions⟩ := push_spec (some before.length) depth o d
    rcases hp : push (some before.length) depth o d with ⟨child, o'⟩
    rw [hp] at hchild hstates htransitions
    simp only at hchild hstates htransitions
    have hadded : (o'.addChild before.length child).states.toList =
        before ++ { s with children := s.children ++ [o.states.size] } ::
          (after ++ d.outline (some before.length) depth o.states.size o.transitions.length) := by
      rw [addChild, Array.toList_modify, hstates, h, List.append_assoc, List.cons_append,
        modify_append, hchild]
    obtain ⟨hall, hall'⟩ := pushAll_spec depth hadded ds
    have hsize : (o'.addChild before.length child).states.size = o.states.size + d.size := by
      rw [addChild, Array.size_modify, ← Array.length_toList, hstates, List.length_append,
        Array.length_toList, StateDecl.length_outline]
    have hlength : (o'.addChild before.length child).transitions.length =
        o.transitions.length + d.transitionCount := by
      rw [addChild, htransitions, List.length_append, StateDecl.length_outlineTransitions]
    rw [hsize, hlength] at hall
    rw [hsize] at hall'
    simp only [pushAll, hp, hall, hall', StateDecl.siblings, StateDecl.outlineAll,
      StateDecl.outlineTransitionsAll, List.append_assoc, List.singleton_append]
    exact ⟨trivial, by rw [addChild, htransitions, List.append_assoc]⟩

end

theorem flatten_eq_ofDecl (root : StateDecl) : flatten root = ofDecl root := by
  obtain ⟨-, hstates, htransitions⟩ := push_spec none 0 {} root
  have hmk : flatten root = ⟨(flatten root).states, (flatten root).transitions⟩ := rfl
  rw [hmk, ofDecl, Outline.mk.injEq]
  exact ⟨Array.toList_inj.mp hstates, htransitions⟩

end Statechart.Outline

import Statechart.Declaration

/-!
Faults of guards and actions, and refusals of the interpreter. A fault is reported and the run goes
on; a refusal is the answer to a call.
-/
namespace Statechart

inductive GuardFault where
  | unknown (guard : GuardId)
  | failed (message : String)
  deriving DecidableEq, Repr

def GuardFault.message : GuardFault → String
  | unknown guard => s!"Unknown guard '{guard}'"
  | failed message => s!"Guard evaluation failed: {message}"

inductive ActionFault where
  | unknown (action : ActionId)
  | failed (message : String)
  deriving DecidableEq, Repr

def ActionFault.message : ActionFault → String
  | unknown action => s!"Unknown action '{action}'"
  | failed message => s!"Action execution failed: {message}"

/-- The part of a microstep in which an action runs. -/
inductive Phase where
  | exit
  | transition
  | entry
  | initial
  | historyDefault
  deriving DecidableEq, Repr

def Phase.label : Phase → String
  | exit => "exit"
  | transition => "transition"
  | entry => "entry"
  | initial => "initial transition"
  | historyDefault => "history default"

def unstableMessage (limit : Nat) : String :=
  s!"Macrostep did not stabilize within {limit} microsteps"

inductive Fault where
  | guard (guard : GuardId) (state : String) (fault : GuardFault)
  | action (action : ActionId) (state : String) (phase : Phase) (fault : ActionFault)
  | nonTerminating (limit : Nat)
  deriving DecidableEq, Repr

def Fault.message : Fault → String
  | guard id state fault =>
    s!"Guard '{id}' on a transition from '{state}' faulted: {fault.message}"
  | action id state phase fault =>
    s!"Action '{id}' during {phase.label} of '{state}' faulted: {fault.message}"
  | nonTerminating limit => unstableMessage limit

inductive EngineError where
  | alreadyRunning
  | notRunning
  | nonTerminating (limit : Nat)
  | unknownState (name : String)
  | handOffClosed
  deriving DecidableEq, Repr

def EngineError.message : EngineError → String
  | alreadyRunning => "State chart is already running"
  | notRunning => "State chart is not running"
  | nonTerminating limit => unstableMessage limit
  | unknownState name => s!"Unknown state '{name}'"
  | handOffClosed => "State chart instance is gone; event hand-off closed"

end Statechart

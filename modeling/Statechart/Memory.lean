import Statechart.Json.Printer
import Statechart.Json.Reader
import Statechart.StateSet

/-!
History memory. When the parent of a history state is exited, the states to restore are recorded
under the history state, in document order and each once; a later exit replaces the record.
-/
namespace Statechart

structure Memory where
  records : OrderedMap Nat (List Nat) := {}
  deriving DecidableEq, Inhabited

namespace Memory

def empty : Memory := {}

def record (m : Memory) (history : Nat) (states : List Nat) : Memory :=
  ⟨m.records.put history (StateSet.ofList states).toList⟩

def get? (m : Memory) (history : Nat) : Option (List Nat) := m.records.get? history

def size (m : Memory) : Nat := m.records.size

def isEmpty (m : Memory) : Bool := m.records.isEmpty

def toJson (m : Memory) : Json.Value :=
  .object [("records", .object (m.records.entries.map (fun (h, ss) =>
    (String.ofList (Nat.toDigits 10 h), .array (ss.map .natural)))))]

/-- States are numbered with 32 bits. -/
def stateLimit : Nat := Nat.pow 2 32

/-- A key is a state's number, spelled as a number is. -/
def key? (body : List Char) : Option Nat :=
  match Json.Numeral.read? body with
  | some (n, []) => (Json.Document.number n).natural? stateLimit
  | _ => none

def record? (field : List Char × Json.Document) : Option (Nat × List Nat) := do
  let states ← field.2.list? (Json.Document.natural? stateLimit)
  some (← key? field.1, states)

/-- Reads the records as they are written; of repeated keys the last counts. -/
def ofDocument? (d : Json.Document) : Option Memory := do
  match ← d.record? ["records"] with
  | [some (.object fields)] => (fields.mapM record?).map (fun ws => ⟨OrderedMap.ofWrites ws⟩)
  | _ => none

def parse? (s : String) : Option Memory := (Json.Document.parse? s).bind ofDocument?

end Memory

end Statechart

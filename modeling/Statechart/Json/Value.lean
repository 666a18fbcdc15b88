import Statechart.Json.Binary64
import Statechart.Ordered

/-!
JSON values. Whole numbers that fit 64 bits, signed or unsigned, stay whole; every other number is
a binary floating-point number. An object is a list of fields; the objects that reading produces
have their keys in increasing order, each once.
-/
namespace Statechart.Json

inductive Number where
  | integer (n : Int)
  | real (x : Binary64)
  deriving DecidableEq, Repr, Inhabited

inductive Value where
  | null
  | bool (b : Bool)
  | number (n : Number)
  | text (s : String)
  | array (items : List Value)
  | object (fields : List (String × Value))
  deriving Repr, Inhabited

namespace Value

def natural (n : Nat) : Value := .number (.integer n)

def texts (ss : List String) : Value := .array (ss.map .text)

/-- The value of a field; of repeated keys the first counts. -/
def field? (key : String) : Value → Option Value
  | object fields => (fields.find? (·.1 == key)).map (·.2)
  | _ => none

mutual

/-- Levels of arrays and objects, the value itself included. -/
def depth : Value → Nat
  | array items => depthOfItems items + 1
  | object fields => depthOfFields fields + 1
  | _ => 0

def depthOfItems : List Value → Nat
  | [] => 0
  | v :: vs => max (depth v) (depthOfItems vs)

def depthOfFields : List (String × Value) → Nat
  | [] => 0
  | (_, v) :: fs => max (depth v) (depthOfFields fs)

end

end Value

end Statechart.Json

import Statechart.Json.Shortest
import Statechart.Json.Value

/-!
JSON text of a value. The compact form has no blanks. The spread form puts every item and field on
a line of its own, indented by two blanks a level, and keeps empty arrays and objects on one line.
In both a string is written character by character: quotes, backslashes and control characters are
escaped, everything else stands for itself.
-/
namespace Statechart.Json

def hexDigit (n : Nat) : Char := if n < 10 then Char.ofNat (48 + n) else Char.ofNat (87 + n)

/-- Control characters without a short escape are written as four hexadecimal digits. -/
def escape (c : Char) : List Char :=
  if c = '"' then ['\\', '"']
  else if c = '\\' then ['\\', '\\']
  else if c = '\x08' then ['\\', 'b']
  else if c = '\x0c' then ['\\', 'f']
  else if c = '\n' then ['\\', 'n']
  else if c = '\r' then ['\\', 'r']
  else if c = '\t' then ['\\', 't']
  else if c.toNat < 32 then ['\\', 'u', '0', '0', hexDigit (c.toNat / 16), hexDigit (c.toNat % 16)]
  else [c]

def quote (s : String) : List Char := '"' :: (s.toList.flatMap escape ++ ['"'])

def Number.print : Number → List Char
  | .integer n => (if n < 0 then ['-'] else []) ++ Nat.toDigits 10 n.natAbs
  | .real x => x.text

namespace Value

mutual

def print : Value → List Char
  | null => ['n', 'u', 'l', 'l']
  | bool true => ['t', 'r', 'u', 'e']
  | bool false => ['f', 'a', 'l', 's', 'e']
  | number n => n.print
  | text s => quote s
  | array [] => ['[', ']']
  | array (v :: vs) => '[' :: (print v ++ printItems vs)
  | object [] => ['\x7b', '\x7d']
  | object ((k, v) :: fs) => '\x7b' :: (quote k ++ ':' :: (print v ++ printFields fs))

/-- The items after the first, and the closing bracket. -/
def printItems : List Value → List Char
  | [] => [']']
  | v :: vs => ',' :: (print v ++ printItems vs)

/-- The fields after the first, and the closing brace. -/
def printFields : List (String × Value) → List Char
  | [] => ['\x7d']
  | (k, v) :: fs => ',' :: (quote k ++ ':' :: (print v ++ printFields fs))

end

def newline (level : Nat) : List Char := '\n' :: List.replicate (2 * level) ' '

mutual

def printSpread (level : Nat) : Value → List Char
  | null => ['n', 'u', 'l', 'l']
  | bool true => ['t', 'r', 'u', 'e']
  | bool false => ['f', 'a', 'l', 's', 'e']
  | number n => n.print
  | text s => quote s
  | array [] => ['[', ']']
  | array (v :: vs) =>
    '[' :: (newline (level + 1) ++ printSpread (level + 1) v ++ printSpreadItems level vs)
  | object [] => ['\x7b', '\x7d']
  | object ((k, v) :: fs) =>
    '\x7b' :: (newline (level + 1) ++ quote k ++ ':' :: ' ' ::
      (printSpread (level + 1) v ++ printSpreadFields level fs))

def printSpreadItems (level : Nat) : List Value → List Char
  | [] => newline level ++ [']']
  | v :: vs =>
    ',' :: (newline (level + 1) ++ printSpread (level + 1) v ++ printSpreadItems level vs)

def printSpreadFields (level : Nat) : List (String × Value) → List Char
  | [] => newline level ++ ['\x7d']
  | (k, v) :: fs =>
    ',' :: (newline (level + 1) ++ quote k ++ ':' :: ' ' ::
      (printSpread (level + 1) v ++ printSpreadFields level fs))

end

def compact (v : Value) : String := String.ofList v.print

def spread (v : Value) : String := String.ofList (v.printSpread 0)

end Value

end Statechart.Json

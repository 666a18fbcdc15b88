/-!
JSON text read as it is written. A document keeps the spelling of its numbers and strings, the
order of its fields and repeated keys, so that each reader decides what they mean: a field that
nobody asks for is never interpreted. `Document.parse?` accepts the grammar and nothing else.
-/
namespace Statechart.Json

/-- A number by its spelling: a minus sign, the digits before and after the point, and the sign and
digits of the exponent. -/
structure Numeral where
  negative : Bool
  whole : List Nat
  fraction : Option (List Nat)
  exponent : Option (Bool × List Nat)
  deriving DecidableEq, Repr

/-- Strings and keys are kept as the characters between the quotes, escapes included. -/
inductive Document where
  | null
  | bool (b : Bool)
  | number (n : Numeral)
  | text (body : List Char)
  | array (items : List Document)
  | object (fields : List (List Char × Document))
  deriving Repr, Inhabited

def isBlank (c : Char) : Bool := c == ' ' || c == '\n' || c == '\t' || c == '\r'

def skipBlanks (cs : List Char) : List Char := cs.dropWhile isBlank

def digitValue (c : Char) : Nat := c.toNat - 48

def takeDigits (cs : List Char) : List Nat × List Char :=
  ((cs.takeWhile Char.isDigit).map digitValue, cs.dropWhile Char.isDigit)

def takeSign : List Char → Bool × List Char
  | '-' :: cs => (true, cs)
  | cs => (false, cs)

namespace Numeral

/-- A whole part has no needless leading zero. -/
def whole? (cs : List Char) : Option (List Nat × List Char) :=
  match takeDigits cs with
  | ([], _) => none
  | (0 :: _ :: _, _) => none
  | (ds, rest) => some (ds, rest)

def fraction? : List Char → Option (Option (List Nat) × List Char)
  | '.' :: cs =>
    match takeDigits cs with
    | ([], _) => none
    | (ds, rest) => some (some ds, rest)
  | cs => some (none, cs)

def exponentSign : List Char → Bool × List Char
  | '+' :: cs => (false, cs)
  | cs => takeSign cs

def exponent? : List Char → Option (Option (Bool × List Nat) × List Char)
  | c :: cs =>
    if c = 'e' ∨ c = 'E' then
      let (negative, cs) := exponentSign cs
      match takeDigits cs with
      | ([], _) => none
      | (ds, rest) => some (some (negative, ds), rest)
    else some (none, c :: cs)
  | [] => some (none, [])

/-- Reads the longest numeral at the head of the text. -/
def read? (cs : List Char) : Option (Numeral × List Char) := do
  let (negative, cs) := takeSign cs
  let (whole, cs) ← whole? cs
  let (fraction, cs) ← fraction? cs
  let (exponent, cs) ← exponent? cs
  some (⟨negative, whole, fraction, exponent⟩, cs)

end Numeral

def hexValue? (c : Char) : Option Nat :=
  if '0' ≤ c ∧ c ≤ '9' then some (c.toNat - 48)
  else if 'a' ≤ c ∧ c ≤ 'f' then some (c.toNat - 87)
  else if 'A' ≤ c ∧ c ≤ 'F' then some (c.toNat - 55)
  else none

def isHex (c : Char) : Bool := (hexValue? c).isSome

def isShortEscape (c : Char) : Bool :=
  c == '"' || c == '\\' || c == '/' || c == 'b' || c == 'f' || c == 'n' || c == 'r' || c == 't'

/-- The characters up to the closing quote, and what follows it. -/
def body? : List Char → Option (List Char × List Char)
  | [] => none
  | '"' :: rest => some ([], rest)
  | '\\' :: 'u' :: a :: b :: c :: d :: rest =>
    if isHex a && isHex b && isHex c && isHex d then
      (body? rest).map (fun r => ('\\' :: 'u' :: a :: b :: c :: d :: r.1, r.2))
    else none
  | '\\' :: e :: rest =>
    if isShortEscape e then (body? rest).map (fun r => ('\\' :: e :: r.1, r.2)) else none
  | c :: rest =>
    if c = '\\' ∨ c.toNat < 32 then none else (body? rest).map (fun r => (c :: r.1, r.2))

namespace Document

/-- A literal name at the head of the text. -/
def word? (name : List Char) (d : Document) (cs : List Char) : Option (Document × List Char) :=
  if name.isPrefixOf cs then some (d, cs.drop name.length) else none

mutual

/-- Reads one document. The first argument bounds the depth of the recursion. -/
def read? : Nat → List Char → Option (Document × List Char)
  | 0, _ => none
  | n + 1, cs =>
    match skipBlanks cs with
    | '"' :: rest => (body? rest).map (fun r => (text r.1, r.2))
    | '[' :: rest =>
      match skipBlanks rest with
      | ']' :: rest => some (array [], rest)
      | rest => (readItems? n rest).map (fun r => (array r.1, r.2))
    | '\x7b' :: rest =>
      match skipBlanks rest with
      | '\x7d' :: rest => some (object [], rest)
      | rest => (readFields? n rest).map (fun r => (object r.1, r.2))
    | 'n' :: rest => word? ['u', 'l', 'l'] null rest
    | 't' :: rest => word? ['r', 'u', 'e'] (bool true) rest
    | 'f' :: rest => word? ['a', 'l', 's', 'e'] (bool false) rest
    | rest => (Numeral.read? rest).map (fun r => (number r.1, r.2))

/-- One item at least, then the closing bracket. -/
def readItems? : Nat → List Char → Option (List Document × List Char)
  | 0, _ => none
  | n + 1, cs =>
    match read? n cs with
    | none => none
    | some (d, rest) =>
      match skipBlanks rest with
      | ']' :: rest => some ([d], rest)
      | ',' :: rest => (readItems? n rest).map (fun r => (d :: r.1, r.2))
      | _ => none

/-- One field at least, then the closing brace. -/
def readFields? : Nat → List Char → Option (List (List Char × Document) × List Char)
  | 0, _ => none
  | n + 1, cs =>
    match skipBlanks cs with
    | '"' :: rest =>
      match body? rest with
      | none => none
      | some (key, rest) =>
        match skipBlanks rest with
        | ':' :: rest =>
          match read? n rest with
          | none => none
          | some (d, rest) =>
            match skipBlanks rest with
            | '\x7d' :: rest => some ([(key, d)], rest)
            | ',' :: rest => (readFields? n rest).map (fun r => ((key, d) :: r.1, r.2))
            | _ => none
        | _ => none
    | _ => none

end

/-- Reads a whole text. Two steps of recursion consume a character at least, so the bound is never
what stops the reading. -/
def parse? (s : String) : Option Document :=
  let cs := s.toList
  match read? (2 * cs.length + 2) cs with
  | some (d, rest) => if (skipBlanks rest).isEmpty then some d else none
  | none => none

end Document

end Statechart.Json

import Statechart.Json.Document
import Statechart.Json.Value

/-!
The meaning of a document. A reader takes a document to a value of its own type or refuses it:
strings have their escapes resolved and no lone surrogate, numbers must be finite, arrays and
objects nest at most 127 deep, and of repeated keys the last counts. A record is read from an
object, whose unknown fields are passed over, or from the array of its fields in their order.
-/
namespace Statechart.Json

/-- Levels of arrays and objects that a text may have. -/
def depthLimit : Nat := 127

def hexNumber (ds : List Char) : Nat :=
  ds.foldl (fun n c => 16 * n + (hexValue? c).getD 0) 0

def shortEscape (e : Char) : Char :=
  if e = 'b' then '\x08' else if e = 'f' then '\x0c' else if e = 'n' then '\n'
  else if e = 'r' then '\r' else if e = 't' then '\t' else e

/-- Resolves the escapes of a string. Escaped code units above U+FFFF come as a surrogate pair. -/
def unescape? : List Char → Option (List Char)
  | [] => some []
  | '\\' :: 'u' :: a :: b :: c :: d :: rest =>
    let n := hexNumber [a, b, c, d]
    if 0xDC00 ≤ n ∧ n ≤ 0xDFFF then none
    else if 0xD800 ≤ n ∧ n ≤ 0xDBFF then
      match rest with
      | '\\' :: 'u' :: e :: f :: g :: h :: rest =>
        let m := hexNumber [e, f, g, h]
        if 0xDC00 ≤ m ∧ m ≤ 0xDFFF then
          (unescape? rest).map (Char.ofNat ((n - 0xD800) * 1024 + (m - 0xDC00) + 0x10000) :: ·)
        else none
      | _ => none
    else (unescape? rest).map (Char.ofNat n :: ·)
  | '\\' :: e :: rest => (unescape? rest).map (shortEscape e :: ·)
  | c :: rest => (unescape? rest).map (c :: ·)

def string? (body : List Char) : Option String := (unescape? body).map String.ofList

def greatestUnsigned : Nat := Nat.pow 2 64 - 1

/-- The number that the leading digits denote while it fits 64 bits, and the digits left over. -/
def significand (start : Nat) : List Nat → Nat × List Nat
  | [] => (start, [])
  | d :: ds =>
    if start * 10 + d ≤ greatestUnsigned then significand (start * 10 + d) ds else (start, d :: ds)

def natOfDigits (ds : List Nat) : Nat := ds.foldl (fun n d => 10 * n + d) 0

/-- Exponents are counted in 32 bits and stay at the greatest or least of them. -/
def clampExponent (e : Int) : Int := max (-Int.pow 2 31) (min (Int.pow 2 31 - 1) e)

namespace Numeral

/-- The number with a point or an exponent, or one too long for 64 bits: its significand rounded to
binary, then scaled by its power of ten. -/
def real? (n : Numeral) (start : Nat) (exponent : Int) : Option Number :=
  let sign (x : Binary64) : Number := .real { x with negative := n.negative }
  match n.exponent with
  | none => ((Binary64.ofQuotient? start 1).bind (·.scale? exponent)).map sign
  | some (negative, ds) =>
    let e := natOfDigits ds
    if Nat.pow 2 31 ≤ e then
      if start ≠ 0 ∧ negative = false then none else some (sign Binary64.zero)
    else
      let total := clampExponent (if negative then exponent - e else exponent + e)
      ((Binary64.ofQuotient? start 1).bind (·.scale? total)).map sign

/-- A numeral without point and exponent is whole if it fits 64 bits, with a sign or without. -/
def number? (n : Numeral) : Option Number :=
  let (start, dropped) := significand 0 n.whole
  match n.fraction with
  | some ds =>
    let (start, rest) := significand start ds
    n.real? start (dropped.length - (ds.length - rest.length))
  | none =>
    if n.exponent.isSome ∨ dropped ≠ [] then n.real? start dropped.length
    else if n.negative = false then some (.integer start)
    else if 0 < start ∧ start ≤ Nat.pow 2 63 then some (.integer (-start))
    else n.real? start 0

end Numeral

namespace Document

mutual

/-- The value of a document whose arrays and objects nest at most so many levels. -/
def value? : Nat → Document → Option Value
  | _, null => some .null
  | _, bool b => some (.bool b)
  | _, number n => n.number?.map .number
  | _, text body => (string? body).map .text
  | 0, array _ => none
  | 0, object _ => none
  | depth + 1, array items => (values? depth items).map .array
  | depth + 1, object fields => (entries? depth fields).map (fun ws => .object (OrderedMap.ofWrites ws).entries)

def values? : Nat → List Document → Option (List Value)
  | _, [] => some []
  | depth, d :: ds =>
    match value? depth d, values? depth ds with
    | some v, some vs => some (v :: vs)
    | _, _ => none

def entries? : Nat → List (List Char × Document) → Option (List (String × Value))
  | _, [] => some []
  | depth, (k, d) :: ds =>
    match string? k, value? depth d, entries? depth ds with
    | some k, some v, some vs => some ((k, v) :: vs)
    | _, _, _ => none

end

def string? : Document → Option String
  | text body => Json.string? body
  | _ => none

def bool? : Document → Option Bool
  | bool b => some b
  | _ => none

/-- A whole number below the limit. -/
def natural? (limit : Nat) : Document → Option Nat
  | number n =>
    match n.number? with
    | some (.integer i) => if 0 ≤ i ∧ i < limit then some i.toNat else none
    | _ => none
  | _ => none

def list? {α : Type} (item? : Document → Option α) : Document → Option (List α)
  | array items => items.mapM item?
  | _ => none

/-- An absent part and `null` are the same. -/
def optional? {α : Type} (part? : Document → Option α) : Option Document → Option (Option α)
  | none => some none
  | some null => some none
  | some d => (part? d).map some

/-- One of the names, written as a string or as an object that gives the name `null`. -/
def oneOf? {α : Type} (named : String → Option α) : Document → Option α
  | text body => (Json.string? body).bind named
  | object [(key, null)] => (Json.string? key).bind named
  | _ => none

/-- The fields of an object under the given names, each of which may occur once at most. -/
def pick? (names : List String) (fields : List (List Char × Document)) :
    Option (List (Option Document)) := do
  let fields ← fields.mapM (fun f => (Json.string? f.1).map (·, f.2))
  names.mapM fun name =>
    match fields.filter (·.1 == name) with
    | [] => some none
    | [f] => some (some f.2)
    | _ => none

/-- The fields of a record in the order of their names. -/
def record? (names : List String) : Document → Option (List (Option Document))
  | object fields => pick? names fields
  | array items => if items.length = names.length then some (items.map some) else none
  | _ => none

/-- A record whose last fields may be left out of the array form too. -/
def openRecord? (names : List String) : Document → Option (List (Option Document))
  | object fields => pick? names fields
  | array items =>
    if items.length ≤ names.length then
      some (items.map some ++ List.replicate (names.length - items.length) none)
    else none
  | _ => none

end Document

/-- Reads a text that holds one value. -/
def Value.parse? (s : String) : Option Value :=
  (Document.parse? s).bind (Document.value? depthLimit)

end Statechart.Json

import Statechart.Json.Document
import Statechart.Json.Printer

/-!
Universally unique identifiers: sixteen bytes, written as 32 lower-case hexadecimal digits in
groups of 8, 4, 4, 4 and 12. They are also read without the hyphens, in braces, or after
"urn:uuid:", with letters of either case.
-/
namespace Statechart

structure Uuid where
  bytes : List UInt8
  length_eq : bytes.length = 16
  deriving DecidableEq

namespace Uuid

instance : Repr Uuid := ⟨fun u p => reprPrec u.bytes p⟩

def nil : Uuid := ⟨List.replicate 16 0, rfl⟩

instance : Inhabited Uuid := ⟨nil⟩

def ofBytes? (bs : List UInt8) : Option Uuid :=
  if h : bs.length = 16 then some ⟨bs, h⟩ else none

def hexOfByte (b : UInt8) : List Char :=
  [Json.hexDigit (b.toNat / 16), Json.hexDigit (b.toNat % 16)]

def hexOfBytes (bs : List UInt8) : List Char := bs.flatMap hexOfByte

def toChars (u : Uuid) : List Char :=
  hexOfBytes (u.bytes.take 4) ++ '-' :: hexOfBytes ((u.bytes.drop 4).take 2) ++
    '-' :: hexOfBytes ((u.bytes.drop 6).take 2) ++ '-' :: hexOfBytes ((u.bytes.drop 8).take 2) ++
    '-' :: hexOfBytes (u.bytes.drop 10)

def toString (u : Uuid) : String := String.ofList u.toChars

/-- Pairs of hexadecimal digits. -/
def bytesOfHex? : List Char → Option (List UInt8)
  | [] => some []
  | a :: b :: cs => do
    let x ← Json.hexValue? a
    let y ← Json.hexValue? b
    let bs ← bytesOfHex? cs
    some (UInt8.ofNat (16 * x + y) :: bs)
  | [_] => none

def ofHex? (cs : List Char) : Option Uuid := (bytesOfHex? cs).bind ofBytes?

/-- The digits of five groups that a hyphen separates. -/
def ungroup? (cs : List Char) : Option (List Char) :=
  match cs.splitAt 8 with
  | (a, '-' :: cs) =>
    match cs.splitAt 4 with
    | (b, '-' :: cs) =>
      match cs.splitAt 4 with
      | (c, '-' :: cs) =>
        match cs.splitAt 4 with
        | (d, '-' :: e) => if e.length = 12 then some (a ++ b ++ c ++ d ++ e) else none
        | _ => none
      | _ => none
    | _ => none
  | _ => none

def ofGrouped? (cs : List Char) : Option Uuid := (ungroup? cs).bind ofHex?

/-- What a name in the urn scheme begins with, in letters of either case. -/
def urnLabel : List Char := ['u', 'r', 'n', ':', 'u', 'u', 'i', 'd', ':']

def ofChars? (cs : List Char) : Option Uuid :=
  match cs with
  | '\x7b' :: rest =>
    match rest.reverse with
    | '\x7d' :: inner => ofGrouped? inner.reverse
    | _ => none
  | _ =>
    if (cs.take urnLabel.length).map Char.toLower = urnLabel then
      ofGrouped? (cs.drop urnLabel.length)
    else if cs.length = 32 then ofHex? cs
    else ofGrouped? cs

def ofString? (s : String) : Option Uuid := ofChars? s.toList

end Uuid

end Statechart

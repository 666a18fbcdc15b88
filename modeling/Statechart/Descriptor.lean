/-!
Event descriptors. Event names are hierarchical, their tokens separated by dots, and a descriptor
matches the names that begin with its tokens; the wildcard matches every name. A trailing ".*" and
trailing dots do not count.
-/
namespace Statechart

structure Descriptor where
  text : List Char
  deriving DecidableEq, Repr

namespace Descriptor

/-- A pattern without its trailing ".*". -/
def dropStar (cs : List Char) : List Char :=
  match cs.reverse with
  | '*' :: '.' :: rest => rest.reverse
  | _ => cs

def dropTrailingDots (cs : List Char) : List Char :=
  (cs.reverse.dropWhile (· == '.')).reverse

def ofPattern (pattern : String) : Descriptor :=
  ⟨dropTrailingDots (dropStar pattern.toList)⟩

def toString (d : Descriptor) : String := String.ofList d.text

def isWildcard (d : Descriptor) : Bool := d.text == ['*']

/-- What follows a text at the head of a name. -/
def after? : List Char → List Char → Option (List Char)
  | [], name => some name
  | _ :: _, [] => none
  | c :: cs, n :: name => if c = n then after? cs name else none

def accepts (d : Descriptor) (event : String) : Bool :=
  d.isWildcard ||
    match after? d.text event.toList with
    | none => false
    | some [] => true
    | some (c :: _) => c == '.'

theorem after?_eq_some_iff {cs name rest : List Char} :
    after? cs name = some rest ↔ name = cs ++ rest := by
  induction cs generalizing name with
  | nil => simp [after?]
  | cons c cs ih =>
    cases name with
    | nil => simp [after?]
    | cons n name =>
      by_cases h : c = n
      · simp [after?, h, ih]
      · simp [after?, h, Ne.symm h]

end Descriptor

end Statechart

import Statechart.Text.Blank

/-!
Instants of universal time in the Gregorian calendar, to the nanosecond. A text gives date, time of
day and offset from universal time, with blanks allowed between the parts; it is converted on
reading. An instant is written with a Z and with no digits of a second, or three, six or nine of
them, whichever is the fewest that is exact.
-/
namespace Statechart

def isLeapYear (year : Int) : Bool := year % 4 = 0 && (year % 100 ≠ 0 || year % 400 = 0)

def daysInMonth (year : Int) (month : Nat) : Nat :=
  if month = 2 then (if isLeapYear year then 29 else 28)
  else if month = 4 ∨ month = 6 ∨ month = 9 ∨ month = 11 then 30
  else 31

def leastYear : Int := -262143

def greatestYear : Int := 262142

structure Date where
  year : Int
  month : Nat
  day : Nat
  valid : leastYear ≤ year ∧ year ≤ greatestYear ∧ 1 ≤ month ∧ month ≤ 12 ∧
    1 ≤ day ∧ day ≤ daysInMonth year month
  deriving DecidableEq

namespace Date

def of? (year : Int) (month day : Nat) : Option Date :=
  if h : leastYear ≤ year ∧ year ≤ greatestYear ∧ 1 ≤ month ∧ month ≤ 12 ∧
      1 ≤ day ∧ day ≤ daysInMonth year month then
    some ⟨year, month, day, h⟩
  else none

def next? (d : Date) : Option Date :=
  if d.day < daysInMonth d.year d.month then of? d.year d.month (d.day + 1)
  else if d.month < 12 then of? d.year (d.month + 1) 1
  else of? (d.year + 1) 1 1

def previous? (d : Date) : Option Date :=
  if 1 < d.day then of? d.year d.month (d.day - 1)
  else if 1 < d.month then of? d.year (d.month - 1) (daysInMonth d.year (d.month - 1))
  else of? (d.year - 1) 12 31

end Date

/-- A day has 86400 seconds. In a leap second, which repeats the last second of a minute, the
nanoseconds go on counting beyond a thousand million. -/
structure Timestamp where
  date : Date
  second : Nat
  nanos : Nat
  valid : second < 86400 ∧ nanos < 2000000000 ∧ (1000000000 ≤ nanos → second % 60 = 59)
  deriving DecidableEq

namespace Timestamp

def of? (date : Date) (second nanos : Nat) : Option Timestamp :=
  if h : second < 86400 ∧ nanos < 2000000000 ∧ (1000000000 ≤ nanos → second % 60 = 59) then
    some ⟨date, second, nanos, h⟩
  else none

def epoch : Timestamp := ⟨⟨1970, 1, 1, by decide⟩, 0, 0, by decide⟩

instance : Inhabited Timestamp := ⟨epoch⟩

/-- Universal time from local time, which is so many seconds ahead; less than a day. -/
def ofLocal? (date : Date) (second nanos : Nat) (ahead : Int) : Option Timestamp :=
  let t := (second : Int) - ahead
  if t < 0 then date.previous?.bind (of? · (t + 86400).toNat nanos)
  else if t < 86400 then of? date t.toNat nanos
  else date.next?.bind (of? · (t - 86400).toNat nanos)

/-! ### Writing -/

/-- Decimal digits, with zeros before them up to a width. -/
def padded (width n : Nat) : List Char :=
  let ds := Nat.toDigits 10 n
  List.replicate (width - ds.length) '0' ++ ds

/-- Years of other than four digits carry a sign. -/
def yearText (y : Int) : List Char :=
  if 0 ≤ y ∧ y ≤ 9999 then padded 4 y.toNat
  else (if y < 0 then '-' else '+') :: padded 4 y.natAbs

def fractionText (nanos : Nat) : List Char :=
  if nanos = 0 then []
  else if nanos % 1000000 = 0 then '.' :: padded 3 (nanos / 1000000)
  else if nanos % 1000 = 0 then '.' :: padded 6 (nanos / 1000)
  else '.' :: padded 9 nanos

def toChars (t : Timestamp) : List Char :=
  yearText t.date.year ++ '-' :: padded 2 t.date.month ++ '-' :: padded 2 t.date.day ++
    'T' :: padded 2 (t.second / 3600) ++ ':' :: padded 2 (t.second / 60 % 60) ++
    ':' :: padded 2 (t.second % 60 + t.nanos / 1000000000) ++
    fractionText (t.nanos % 1000000000) ++ ['Z']

def toString (t : Timestamp) : String := String.ofList t.toChars

/-! ### Reading -/

def natOfDigits (ds : List Char) : Nat := ds.foldl (fun n c => 10 * n + (c.toNat - 48)) 0

/-- One digit at least, and at most so many. -/
def digits? (most : Nat) (cs : List Char) : Option (List Char × List Char) :=
  let ds := (cs.take most).takeWhile Char.isDigit
  if ds.isEmpty then none else some (ds, cs.drop ds.length)

def number? (most : Nat) (cs : List Char) : Option (Nat × List Char) :=
  (digits? most (Text.skipBlanks cs)).map (fun (ds, rest) => (natOfDigits ds, rest))

/-- With a sign a year may have any number of digits, without one it has four at most. -/
def year? (cs : List Char) : Option (Int × List Char) :=
  match Text.skipBlanks cs with
  | '-' :: cs => (digits? cs.length cs).map (fun (ds, rest) => (-(natOfDigits ds : Int), rest))
  | '+' :: cs => (digits? cs.length cs).map (fun (ds, rest) => ((natOfDigits ds : Int), rest))
  | cs => (digits? 4 cs).map (fun (ds, rest) => ((natOfDigits ds : Int), rest))

def literal? (c : Char) (cs : List Char) : Option (List Char) :=
  match Text.skipBlanks cs with
  | x :: rest => if x = c then some rest else none
  | [] => none

def dateTimeMark? : List Char → Option (List Char)
  | c :: cs => if c = 'T' ∨ c = 't' ∨ c = ' ' then some cs else none
  | [] => none

/-- Nanoseconds; digits beyond the ninth do not count. -/
def fraction? : List Char → Option (Nat × List Char)
  | '.' :: cs =>
    (digits? 9 cs).map (fun (ds, rest) =>
      (natOfDigits ds * Nat.pow 10 (9 - ds.length), rest.dropWhile Char.isDigit))
  | cs => some (0, cs)

def twoDigits? : List Char → Option (Nat × List Char)
  | a :: b :: cs => if a.isDigit && b.isDigit then some (natOfDigits [a, b], cs) else none
  | _ => none

/-- Seconds ahead of universal time. The sign may be a hyphen or a minus sign, and hours and
minutes may stand apart. -/
def offset? (cs : List Char) : Option (Int × List Char) :=
  match cs with
  | [] => none
  | 'Z' :: cs => some (0, cs)
  | 'z' :: cs => some (0, cs)
  | sign :: cs =>
    if sign = '+' ∨ sign = '-' ∨ sign = '−' then do
      let (hours, cs) ← twoDigits? cs
      let (minutes, cs) ← twoDigits? (cs.dropWhile (fun c => c == ':' || Text.isBlank c))
      if 60 ≤ minutes then none else
      let seconds : Int := hours * 3600 + minutes * 60
      if 86400 ≤ seconds then none else
      some (if sign = '+' then seconds else -seconds, cs)
    else none

/-- The offset, or the letters UTC in either case. -/
def zone? (cs : List Char) : Option (Int × List Char) :=
  match Text.skipBlanks cs with
  | u :: t :: c :: rest =>
    if u.toUpper = 'U' ∧ t.toUpper = 'T' ∧ c.toUpper = 'C' then some (0, rest)
    else offset? (u :: t :: c :: rest)
  | cs => offset? cs

/-- A second of 60 is a leap second. -/
def ofClock? (date : Date) (hour minute second nanos : Nat) (ahead : Int) : Option Timestamp :=
  if hour < 24 ∧ minute < 60 ∧ second ≤ 60 then
    if second = 60 then ofLocal? date (hour * 3600 + minute * 60 + 59) (nanos + 1000000000) ahead
    else ofLocal? date (hour * 3600 + minute * 60 + second) nanos ahead
  else none

def ofChars? (cs : List Char) : Option Timestamp := do
  let (year, cs) ← year? cs
  let cs ← literal? '-' cs
  let (month, cs) ← number? 2 cs
  let cs ← literal? '-' cs
  let (day, cs) ← number? 2 cs
  let cs ← dateTimeMark? cs
  let (hour, cs) ← number? 2 cs
  let cs ← literal? ':' cs
  let (minute, cs) ← number? 2 cs
  let cs ← literal? ':' cs
  let (second, cs) ← number? 2 cs
  let (nanos, cs) ← fraction? cs
  let (ahead, cs) ← zone? cs
  if (Text.skipBlanks cs).isEmpty then
    (Date.of? year month day).bind (ofClock? · hour minute second nanos ahead)
  else none

def ofString? (s : String) : Option Timestamp := ofChars? s.toList

end Timestamp

end Statechart

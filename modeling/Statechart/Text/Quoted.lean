import Statechart.Text.Unprinted

/-!
Names as they stand in a summary: between quotes, with quotes, backslashes and the common controls
escaped by a letter or a digit and unprinted characters by their number.
-/
namespace Statechart.Text

/-- The braces of an escape by number, and of a summary. -/
def braced (cs : List Char) : List Char := '\x7b' :: (cs ++ ['\x7d'])

def quoteChar (c : Char) : List Char :=
  if c = '\x00' then ['\\', '0']
  else if c = '\t' then ['\\', 't']
  else if c = '\r' then ['\\', 'r']
  else if c = '\n' then ['\\', 'n']
  else if c = '"' then ['\\', '"']
  else if c = '\\' then ['\\', '\\']
  else if isUnprinted c then '\\' :: 'u' :: braced (Nat.toDigits 16 c.toNat)
  else [c]

def quoted (s : String) : String :=
  String.ofList ('"' :: (s.toList.flatMap quoteChar ++ ['"']))

def quotedList (ss : List String) : String :=
  "[" ++ ", ".intercalate (ss.map quoted) ++ "]"

end Statechart.Text

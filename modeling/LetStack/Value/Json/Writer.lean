/-
Writing a value as JSON text: one member or item on a line, indented by two spaces a level, members in the order of
their keys.

Numbers have the shortest digits that read back, without an exponent from 10^-6 up to below 10^21. In strings the
quote, the backslash and the control characters are escaped, and nothing else.
-/
import LetStack.Number.Decimal
import LetStack.Text.Quoted
import LetStack.Value.Basic

namespace LetStack.Json

/-- one character inside quotes -/
def escapeChar (c : Char) : List Char :=
  if c = '"' then ['\\', '"']
  else if c = '\\' then ['\\', '\\']
  else if c = '\x08' then ['\\', 'b']
  else if c = '\x0c' then ['\\', 'f']
  else if c = '\n' then ['\\', 'n']
  else if c = '\r' then ['\\', 'r']
  else if c = '\t' then ['\\', 't']
  else if c.toNat < 0x20 then '\\' :: 'u' :: Text.hex c.toNat 4
  else [c]

def quote (s : String) : String := "\"" ++ String.ofList (s.toList.flatMap escapeChar) ++ "\""

def decimalText (d : Decimal) : String :=
  let power := d.scientificParts.2
  String.ofList (if power < -6 ∨ 20 < power then d.scientific 1 else d.positional)

/-- what is no finite number has a name between quotes -/
def numberText (x : Binary64) : String :=
  if x.isNaN then quote "NaN"
  else if x.isInfinite then quote (if x.negative then "-Infinity" else "Infinity")
  else decimalText x.shortest

def indent (depth : Nat) : String := String.join (List.replicate depth "  ")

mutual

/-- the text of a value whose first line is indented already -/
def write (depth : Nat) : Value → String
  | .unset => "null"
  | .null => "null"
  | .number x => numberText x
  | .string s => quote s
  | .bool b => if b then "true" else "false"
  | .object [] => "\x7b\x7d"
  | .object (m :: ms) => "\x7b\n" ++ writeMembers (depth + 1) (m :: ms) ++ indent depth ++ "\x7d"
  | .list [] => "[]"
  | .list (v :: vs) => "[\n" ++ writeItems (depth + 1) (v :: vs) ++ indent depth ++ "]"

/-- the lines of members -/
def writeMembers (depth : Nat) : List (String × Value) → String
  | [] => ""
  | (key, v) :: rest =>
    indent depth ++ quote key ++ ": " ++ write depth v ++ (if rest.isEmpty then "\n" else ",\n")
      ++ writeMembers depth rest

/-- the lines of items -/
def writeItems (depth : Nat) : List Value → String
  | [] => ""
  | v :: rest => indent depth ++ write depth v ++ (if rest.isEmpty then "\n" else ",\n") ++ writeItems depth rest

end

end LetStack.Json

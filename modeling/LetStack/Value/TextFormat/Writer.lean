/-
Writing a value in the text format: one field on a line, indented by two spaces a level, the entries of a struct in
the order of their keys.

Numbers have the common form. In strings the quote, the backslash and the control characters are escaped, and nothing
else.
-/
import LetStack.Number.Decimal
import LetStack.Text.Quoted
import LetStack.Value.Basic

namespace LetStack.TextFormat

/-- one character inside quotes -/
def escapeChar (c : Char) : List Char :=
  if c = '"' then ['\\', '"']
  else if c = '\\' then ['\\', '\\']
  else if c = '\n' then ['\\', 'n']
  else if c = '\r' then ['\\', 'r']
  else if c = '\t' then ['\\', 't']
  else if c.toNat < 0x20 then '\\' :: 'x' :: Text.hex c.toNat 2
  else [c]

def quote (s : String) : String := "\"" ++ String.ofList (s.toList.flatMap escapeChar) ++ "\""

def numberText (x : Binary64) : String :=
  if x.isNaN then "nan"
  else if x.isInfinite then (if x.negative then "-inf" else "inf")
  else String.ofList x.shortest.general

def indent (depth : Nat) : String := String.join (List.replicate depth "  ")

/-- a line with a scalar field -/
def scalarLine (depth : Nat) (name text : String) : String := indent depth ++ name ++ ": " ++ text ++ "\n"

/-- a field with a message, given the lines of its fields -/
def messageLines (depth : Nat) (name lines : String) : String :=
  if lines.isEmpty then indent depth ++ name ++ ": \x7b\x7d\n"
  else indent depth ++ name ++ ": \x7b\n" ++ lines ++ indent depth ++ "\x7d\n"

mutual

/-- the lines of a value's field -/
def write (depth : Nat) : Value → String
  | .unset => ""
  | .null => scalarLine depth "null_value" "NULL_VALUE"
  | .number x => scalarLine depth "number_value" (numberText x)
  | .string s => scalarLine depth "string_value" (quote s)
  | .bool b => scalarLine depth "bool_value" (if b then "true" else "false")
  | .object ms => messageLines depth "struct_value" (writeEntries (depth + 1) ms)
  | .list vs => messageLines depth "list_value" (writeItems (depth + 1) vs)

def writeEntries (depth : Nat) : List (String × Value) → String
  | [] => ""
  | (key, v) :: rest =>
    messageLines depth "fields"
        (scalarLine (depth + 1) "key" (quote key) ++ messageLines (depth + 1) "value" (write (depth + 2) v))
      ++ writeEntries depth rest

def writeItems (depth : Nat) : List Value → String
  | [] => ""
  | v :: rest => messageLines depth "values" (write (depth + 1) v) ++ writeItems depth rest

end

end LetStack.TextFormat

/-
Quoting for messages: a text between double quotes, with every character visible.
-/
import LetStack.Text.Printable

namespace LetStack.Text

/-- a digit in base 16, lower case -/
def hexDigit (n : Nat) : Char := if n < 10 then Char.ofNat (48 + n) else Char.ofNat (87 + n)

/-- the last `width` digits of `n` in base 16 -/
def hex (n : Nat) : Nat → List Char
  | 0 => []
  | width + 1 => hex (n / 16) width ++ [hexDigit (n % 16)]

/-- the escapes that have a letter of their own -/
def letterEscape? : Char → Option Char
  | '\x07' => some 'a'
  | '\x08' => some 'b'
  | '\x0c' => some 'f'
  | '\n' => some 'n'
  | '\r' => some 'r'
  | '\t' => some 't'
  | '\x0b' => some 'v'
  | '\\' => some '\\'
  | '"' => some '"'
  | _ => none

/-- one character inside quotes: as it is if visible, else as a letter escape or by number, in two, four or eight
digits of base 16 -/
def quoteChar (c : Char) : List Char :=
  match letterEscape? c with
  | some e => ['\\', e]
  | none =>
    if isPrintable c then [c]
    else if c.toNat < 0x80 then '\\' :: 'x' :: hex c.toNat 2
    else if c.toNat < 0x10000 then '\\' :: 'u' :: hex c.toNat 4
    else '\\' :: 'U' :: hex c.toNat 8

/-- a text between double quotes -/
def quote (s : String) : String := "\"" ++ String.ofList (s.toList.flatMap quoteChar) ++ "\""

end LetStack.Text

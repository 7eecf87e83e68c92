/-
Writing a value in the wire format: minimal lengths, entries in the order of their keys, each with its key and then its
value.
-/
import LetStack.Text.Utf8
import LetStack.Value.Basic
import LetStack.Value.Wire.Field

namespace LetStack.Wire

/-- a field with a number -/
def varintField (number n : Nat) : List UInt8 := Tag.octets ⟨number, 0⟩ ++ varint n

/-- a field with octets -/
def octetsField (number : Nat) (bs : List UInt8) : List UInt8 := Tag.octets ⟨number, 2⟩ ++ delimited bs

mutual

def write : Value → List UInt8
  | .unset => []
  | .null => varintField 1 0
  | .number x => Tag.octets ⟨2, 1⟩ ++ littleEndian x.toBits 8
  | .string s => octetsField 3 (Utf8.encode s)
  | .bool b => varintField 4 (if b then 1 else 0)
  | .object ms => octetsField 5 (writeEntries ms)
  | .list vs => octetsField 6 (writeItems vs)

def writeEntries : List (String × Value) → List UInt8
  | [] => []
  | (key, v) :: rest =>
    octetsField 1 (octetsField 1 (Utf8.encode key) ++ octetsField 2 (write v)) ++ writeEntries rest

def writeItems : List Value → List UInt8
  | [] => []
  | v :: rest => octetsField 1 (write v) ++ writeItems rest

end

end LetStack.Wire

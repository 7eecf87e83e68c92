/-
Reading a value from the wire format.

Four messages nest. A value has fields 1 null, 2 number, 3 string, 4 bool, 5 struct and 6 list; a struct has entries in
field 1; an entry has a key in field 1 and a value in field 2; a list has values in field 1. Other fields, and these
with content of another type, are skipped.

The last field of a value counts, but a struct that follows a struct adds its entries to it, and a list that follows a
list its items. An entry replaces one with its key. Two values of one entry count as one message, one after the other.
-/
import LetStack.Text.Utf8
import LetStack.Value.Basic
import LetStack.Value.Wire.Field

namespace LetStack.Wire

/-- the members that a further struct adds to -/
def members : Value → Members
  | .object ms => ms
  | _ => []

/-- the items that a further list adds to -/
def items : Value → List Value
  | .list vs => vs
  | _ => []

mutual

/-- reads the fields of a value into `v` -/
def readValue (v : Value) (bs : List UInt8) : Option Value :=
  if bs.isEmpty then some v
  else
    match _h : field? bs with
    | none => none
    | some (1, .varint _, rest) => readValue .null rest
    | some (2, .fixed64 bits, rest) => readValue (.number (Binary64.ofBits bits)) rest
    | some (3, .octets s, rest) => (Utf8.decode? s).bind fun s => readValue (.string s) rest
    | some (4, .varint n, rest) => readValue (.bool (n != 0)) rest
    | some (5, .octets inner, rest) => (readStruct (members v) inner).bind fun ms => readValue (.object ms) rest
    | some (6, .octets inner, rest) => (readList (items v).reverse inner).bind fun vs => readValue (.list vs) rest
    | some (_, _, rest) => readValue v rest
termination_by bs.length
decreasing_by
  all_goals
    have := field?_length _h
    simp only [Content.length] at this
    omega

/-- reads the entries of a struct into `ms` -/
def readStruct (ms : Members) (bs : List UInt8) : Option Members :=
  if bs.isEmpty then some ms
  else
    match _h : field? bs with
    | none => none
    | some (1, .octets inner, rest) =>
      (readEntry "" .unset inner).bind fun (key, v) => readStruct (Members.insert key v ms) rest
    | some (_, _, rest) => readStruct ms rest
termination_by bs.length
decreasing_by
  all_goals
    have := field?_length _h
    simp only [Content.length] at this
    omega

/-- reads the key and the value of an entry -/
def readEntry (key : String) (v : Value) (bs : List UInt8) : Option (String × Value) :=
  if bs.isEmpty then some (key, v)
  else
    match _h : field? bs with
    | none => none
    | some (1, .octets s, rest) => (Utf8.decode? s).bind fun key => readEntry key v rest
    | some (2, .octets inner, rest) => (readValue v inner).bind fun v => readEntry key v rest
    | some (_, _, rest) => readEntry key v rest
termination_by bs.length
decreasing_by
  all_goals
    have := field?_length _h
    simp only [Content.length] at this
    omega

/-- reads the items of a list after those read already (last first) -/
def readList (vs : List Value) (bs : List UInt8) : Option (List Value) :=
  if bs.isEmpty then some vs.reverse
  else
    match _h : field? bs with
    | none => none
    | some (1, .octets inner, rest) => (readValue .unset inner).bind fun v => readList (v :: vs) rest
    | some (_, _, rest) => readList vs rest
termination_by bs.length
decreasing_by
  all_goals
    have := field?_length _h
    simp only [Content.length] at this
    omega

end

/-- the value that a message spells -/
def read? (message : List UInt8) : Option Value := readValue .unset message

end LetStack.Wire

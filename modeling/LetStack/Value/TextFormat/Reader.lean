/-
Reading a value from the text format.

The text is a message: fields, each a name, a colon that only a scalar needs, and a scalar, a message in brackets or,
for the two repeated fields, a list of messages. Four messages nest:

- a value has one of the fields null_value, number_value, string_value, bool_value, struct_value and list_value;
- a struct has any number of fields, each an entry;
- an entry has a key and a value, each at most once;
- a list has any number of values.

After a field there may be one comma or semicolon. Of two entries with one key the last counts.

The reader is a machine that takes one token at a time. Its state is the message that is being read, the messages
around it, and what may come next.
-/
import LetStack.Number.Decimal
import LetStack.Value.Basic
import LetStack.Value.TextFormat.Token

namespace LetStack.TextFormat

open Octet (decimalValue)

-- powers are those of the core library, whatever else is imported; so exponents have their type below
attribute [local instance (2000)] instPowNat

/-! ## Scalars -/

/-- a number: a decimal, where one out of range is infinite and octal digits count as decimal ones, or a word -/
def Token.number? : Token → Option Binary64
  | .number negative (.octal ds) => some (Decimal.mk negative (decimalValue ds) 0).toBinary64
  | .number negative (.decimal digits exponent _ _) => some (Decimal.mk negative digits exponent).toBinary64
  | .word negative name =>
    let lower := String.ofList (name.toList.map Char.toLower)
    if lower = "inf" ∨ lower = "infinity" then some (Binary64.infinity negative)
    else if lower = "nan" ∧ negative = false then some Binary64.nan
    else none
  | _ => none

/-- the value of an integral number, by its base -/
def Numeral.toNat? : Numeral → Option Nat
  | .hex n => some n
  | .octal ds => some (octalValue ds)
  | .decimal digits _ true _ => some digits
  | .decimal _ _ false _ => none

def Numeral.isSuffixed : Numeral → Bool
  | .decimal _ _ _ suffixed => suffixed
  | _ => false

/-- a boolean: a word, or the integer 0 or 1 without a sign -/
def Token.bool? : Token → Option Bool
  | .word false name =>
    if name = "true" ∨ name = "True" ∨ name = "t" then some true
    else if name = "false" ∨ name = "False" ∨ name = "f" then some false
    else none
  | .number false n =>
    match n.toNat? with
    | some 0 => some false
    | some 1 => some true
    | _ => none
  | _ => none

/-- does the token spell a null? It is a word, or any integer of 32 bits. -/
def Token.isNull : Token → Bool
  | .word false name => name = "NULL_VALUE"
  | .number negative n =>
    match n.toNat? with
    | some k => !n.isSuffixed && k < (if negative then 2 ^ (31 : Nat) + 1 else 2 ^ (31 : Nat))
    | none => false
  | _ => false

def Token.string? : Token → Option String
  | .string octets => Utf8.decode? octets
  | _ => none

/-! ## Messages -/

/-- a message with what has been read of it -/
inductive Message where
  | value (set : Option Value)
  | struct (members : Members)
  | entry (key : Option String) (value : Option Value)
  /-- the last item first -/
  | list (items : List Value)

inductive Field where
  | nullValue
  | numberValue
  | stringValue
  | boolValue
  | structValue
  | listValue
  | fields
  | key
  | value
  | values
deriving DecidableEq, Repr

/-- may the field be repeated, and so take a list? -/
def Field.isRepeated : Field → Bool
  | .fields | .values => true
  | _ => false

/-- the empty message that a field takes -/
def Field.message? : Field → Option Message
  | .structValue => some (.struct [])
  | .listValue => some (.list [])
  | .fields => some (.entry none none)
  | .value => some (.value none)
  | .values => some (.value none)
  | _ => none

namespace Message

/-- the field of this name, if the message has it and it is not set yet -/
def field? : Message → String → Option Field
  | .value none, name =>
    [("null_value", Field.nullValue), ("number_value", .numberValue), ("string_value", .stringValue),
      ("bool_value", .boolValue), ("struct_value", .structValue), ("list_value", .listValue)].lookup name
  | .value (some _), _ => none
  | .struct _, name => if name = "fields" then some .fields else none
  | .entry key v, name =>
    if name = "key" ∧ key.isNone then some .key
    else if name = "value" ∧ v.isNone then some .value
    else none
  | .list _, name => if name = "values" then some .values else none

/-- sets a field to a scalar -/
def setScalar? (m : Message) (f : Field) (t : Token) : Option Message :=
  match m, f with
  | .value _, .nullValue => if t.isNull then some (.value (some .null)) else none
  | .value _, .numberValue => t.number?.map fun x => .value (some (.number x))
  | .value _, .stringValue => t.string?.map fun s => .value (some (.string s))
  | .value _, .boolValue => t.bool?.map fun b => .value (some (.bool b))
  | .entry _ v, .key => t.string?.map fun s => .entry (some s) v
  | _, _ => none

/-- adds a complete message to the one around it -/
def attach? : Message → Message → Option Message
  | .value _, .struct ms => some (.value (some (.object ms)))
  | .value _, .list items => some (.value (some (.list items.reverse)))
  | .struct ms, .entry key v => some (.struct (Members.insert (key.getD "") (v.getD .unset) ms))
  | .entry key _, .value v => some (.entry key (some (v.getD .unset)))
  | .list items, .value v => some (.list (v.getD .unset :: items))
  | _, _ => none

end Message

/-! ## The machine -/

/-- what may come next -/
inductive Expects where
  /-- a field or the end of the message; a separator too if there may be one -/
  | field (separator : Bool)
  /-- the content of a field; `colon` if its colon has been read -/
  | content (f : Field) (colon : Bool)
  /-- the first message of a list, or its end -/
  | itemOrClose (f : Field)
  /-- another message of a list -/
  | item (f : Field)
  /-- a comma in a list, or its end -/
  | commaOrClose (f : Field)

/-- a message around the one that is being read -/
structure Enclosing where
  message : Message
  /-- how the inner message ends -/
  bracket : Bracket
  /-- what comes after it -/
  resume : Expects

structure State where
  expects : Expects
  message : Message
  around : List Enclosing

namespace State

def start : State := ⟨.field false, .value none, []⟩

/-- a message begins as content of field `f` -/
def enter (s : State) (f : Field) (b : Bracket) (resume : Expects) : Option State :=
  f.message?.map fun m => ⟨.field false, m, ⟨s.message, b, resume⟩ :: s.around⟩

/-- a message ends -/
def leave (s : State) (b : Bracket) : Option State :=
  match s.around with
  | [] => none
  | e :: around => if e.bracket = b then (e.message.attach? s.message).map fun m => ⟨e.resume, m, around⟩ else none

/-- a token where a field may stand -/
def fieldStep (s : State) (separator : Bool) : Token → Option State
  | .word false name => (s.message.field? name).map fun f => { s with expects := .content f false }
  | .comma | .semicolon => if separator then some { s with expects := .field false } else none
  | .closeMessage b => s.leave b
  | _ => none

/-- a token in the content of field `f` -/
def contentStep (s : State) (f : Field) (colon : Bool) : Token → Option State
  | .colon => if colon then none else some { s with expects := .content f true }
  | .openMessage b => s.enter f b (.field true)
  | .openList => if f.isRepeated then some { s with expects := .itemOrClose f } else none
  | t => if colon then (s.message.setScalar? f t).map fun m => { s with expects := .field true, message := m } else none

/-- one token; `none` if it may not come here -/
def step (s : State) (t : Token) : Option State :=
  match s.expects, t with
  | .field separator, t => s.fieldStep separator t
  | .content f colon, t => s.contentStep f colon t
  | .itemOrClose _, .closeList => some { s with expects := .field true }
  | .itemOrClose f, .openMessage b => s.enter f b (.commaOrClose f)
  | .item f, .openMessage b => s.enter f b (.commaOrClose f)
  | .commaOrClose f, .comma => some { s with expects := .item f }
  | .commaOrClose _, .closeList => some { s with expects := .field true }
  | _, _ => none

/-- the value, if the text may end here -/
def finish? (s : State) : Option Value :=
  match s.expects, s.message, s.around with
  | .field _, .value v, [] => some (v.getD .unset)
  | _, _, _ => none

end State

/-- the value that a text spells -/
def read? (text : List UInt8) : Option Value := do
  let tokens ← Token.scan? text
  let s ← (Token.joinStrings tokens).foldlM State.step State.start
  s.finish?

end LetStack.TextFormat

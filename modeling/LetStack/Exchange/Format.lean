/-
The three exchange formats: trees as octets.

`decode` reads a tree and `encode` writes one. What can go wrong: a format that is not known by its name or by its
code, octets that the format does not allow, a value that is no tree, a tree with an unresolved reference. A fault of
the tree itself stops `encode` altogether.
-/
import LetStack.Exchange.Read
import LetStack.Exchange.Write
import LetStack.Text.Phrase
import LetStack.Value.Json.Reader
import LetStack.Value.Json.Writer
import LetStack.Value.TextFormat.Reader
import LetStack.Value.TextFormat.Writer
import LetStack.Value.Wire.Reader
import LetStack.Value.Wire.Writer

namespace LetStack

inductive Format where
  | json
  | text
  | wire
  /-- a code that stands for no format -/
  | other (code : Int64)
deriving DecidableEq, Repr

namespace Format

def ofCode (code : Int64) : Format :=
  if code = 0 then .json else if code = 1 then .text else if code = 2 then .wire else .other code

def code : Format → Int64
  | .json => 0
  | .text => 1
  | .wire => 2
  | .other c => c

def name : Format → String
  | .json => "json"
  | .text => "text"
  | .wire => "wire"
  | .other c => "Format(" ++ toString c.toInt ++ ")"

/-- the formats that have a name of their own -/
def all : List Format := [.json, .text, .wire]

end Format

/-! ## Failures -/

/-- why reading or writing failed -/
inductive Failure where
  /-- no format has this name -/
  | unknownName (name : String)
  /-- the value of an option names no format -/
  | unknownOption (option name : String)
  /-- no format has this code -/
  | unknownFormat (f : Format)
  /-- the octets are no value in format `f`; `incomplete` if they look cut off -/
  | unreadable (f : Format) (incomplete : Bool)
  | tree (c : Complaint)

namespace Failure

/-- the complaint about a name -/
def nameMessage (name : String) : String :=
  "unknown format " ++ Text.quote name ++ " (want " ++ ", ".intercalate (Format.all.map Format.name) ++ ")"

def message : Failure → String
  | .unknownName name => nameMessage name
  | .unknownOption option name => option ++ ": " ++ nameMessage name
  | .unknownFormat f => "unknown format " ++ f.name
  | .unreadable f _ => "decoding " ++ f.name ++ ": <syntax>"
  | .tree c => c.text

/-- does the failure look as if the input were cut off? A complaint about a tree does if its text says so. -/
def isIncomplete : Failure → Bool
  | .unreadable _ incomplete => incomplete
  | .tree c => Text.soundsCutOff (Utf8.encode c.text)
  | _ => false

end Failure

/-- why an operation ended without a result -/
inductive Stop where
  /-- the input is refused -/
  | failure (f : Failure)
  /-- the tree is one that no resolver yields -/
  | fault (f : Fault)

/-- the format of this name -/
def Format.parse? (name : String) : Option Format := Format.all.find? fun f => f.name = name

def Format.parse (name : String) : Except Failure Format :=
  match Format.parse? name with
  | some f => .ok f
  | none => .error (.unknownName name)

/-- the format that the value of an option names -/
def Format.parseOption (option name : String) : Except Failure Format :=
  match Format.parse? name with
  | some f => .ok f
  | none => .error (.unknownOption option name)

/-! ## Values -/

/-- the value that octets spell -/
def Value.decode (f : Format) (data : List UInt8) : Except Failure Value :=
  match f with
  | .json =>
    match Json.read data with
    | .ok v => .ok v
    | .error fault => .error (.unreadable .json fault.isIncomplete)
  | .text =>
    match TextFormat.read? data with
    | some v => .ok v
    | none => .error (.unreadable .text false)
  | .wire =>
    match Wire.read? data with
    | some v => .ok v
    | none => .error (.unreadable .wire false)
  | .other c => .error (.unknownFormat (.other c))

/-- the octets of a value -/
def Value.encode (f : Format) (v : Value) : Except Failure (List UInt8) :=
  match f with
  | .json => .ok (Utf8.encode (Json.write 0 v))
  | .text => .ok (Utf8.encode (TextFormat.write 0 v))
  | .wire => .ok (Wire.write v)
  | .other c => .error (.unknownFormat (.other c))

/-! ## Trees -/

/-- the tree that octets spell -/
def Root.decode (f : Format) (data : List UInt8) : Except Failure Root := do
  let v ← Value.decode f data
  match Root.ofValue v with
  | .ok r => .ok r
  | .error c => .error (.tree c)

/-- the octets of a tree. Unresolved references are refused first, then the tree is turned into a value, and only then
the format is looked at. -/
def Root.encode (f : Format) (r : Root) : Except Stop (List UInt8) :=
  match r.unresolved? with
  | .error fault => .error (.fault fault)
  | .ok (some cause) => .error (.failure (.tree ⟨[], cause⟩))
  | .ok none =>
    match r.toValue with
    | .error fault => .error (.fault fault)
    | .ok v =>
      match v.encode f with
      | .error failure => .error (.failure failure)
      | .ok data => .ok data

end LetStack

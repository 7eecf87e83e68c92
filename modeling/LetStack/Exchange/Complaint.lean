/-
What can be wrong with a value that should be a tree, and where.

A place is a path from the root of the value: names of members and indices of items. A complaint is a place and a
cause; its text is the place, a colon and the cause, or the cause alone at the root.
-/
import LetStack.Number.Decimal
import LetStack.Text.Quoted
import LetStack.Tree.Basic
import LetStack.Value.Basic

namespace LetStack

/-! ## Places -/

inductive PathStep where
  | member (name : String)
  | item (index : Nat)
deriving DecidableEq, Repr

/-- steps from the root down -/
abbrev Path := List PathStep

/-- one more step after the text of a path -/
def PathStep.after (text : String) : PathStep → String
  | .member name => if text.isEmpty then name else text ++ "." ++ name
  | .item index => text ++ "[" ++ toString index ++ "]"

def Path.text (p : Path) : String := p.foldl PathStep.after ""

/-! ## Causes -/

/-- what kinds of node may stand in a place -/
inductive Wanted where
  | program
  | declaration
  | expression
deriving DecidableEq, Repr

def Wanted.text : Wanted → String
  | .program => "program (letin or prog)"
  | .declaration => "declaration (fun or var)"
  | .expression => "expression"

/-- what type of value may stand in a place -/
inductive WantedType where
  | object
  | string
  | integer
  | bool
  | list
deriving DecidableEq, Repr

def WantedType.text : WantedType → String
  | .object => "object"
  | .string => "string"
  | .integer => "integer"
  | .bool => "bool"
  | .list => "list"

inductive Cause where
  /-- a value of the wrong type; `got` describes it -/
  | wrongType (got : String) (want : WantedType)
  /-- an object without a kind -/
  | noKind
  /-- a node of this kind without a member that it needs -/
  | missing (kind member : String)
  /-- a kind that may not stand here -/
  | wrongKind (kind : String) (want : Wanted)
  | notIntegral (x : Binary64)
  /-- an integer so large that its neighbours read as the same number -/
  | inexact (x : Binary64)
  | outOfRange (n least greatest : Int)
  /-- a name that no declaration is known for -/
  | unresolvedReference (pos : Position) (name : String)
  /-- a call of a name that no declaration is known for -/
  | unresolvedCall (pos : Position) (name : String)
deriving DecidableEq

def Cause.text : Cause → String
  | .wrongType got want => "got " ++ got ++ ", want " ++ want.text
  | .noKind => "missing \"kind\""
  | .missing kind member => kind ++ ": missing " ++ Text.quote member
  | .wrongKind kind want => "got " ++ Text.quote kind ++ ", want " ++ want.text
  | .notIntegral x => x.text ++ " is not an integer"
  | .inexact x => x.text ++ " is out of exact integer range"
  | .outOfRange n least greatest =>
    toString n ++ " is out of range [" ++ toString least ++ ", " ++ toString greatest ++ "]"
  | .unresolvedReference pos name => pos.text ++ ": unresolved reference to " ++ name
  | .unresolvedCall pos name => pos.text ++ ": unresolved call to " ++ name

/-! ## Complaints -/

structure Complaint where
  path : Path
  cause : Cause

/-- a message with the place that it is about -/
def located (place message : String) : String :=
  if place.isEmpty then message else place ++ ": " ++ message

def Complaint.text (c : Complaint) : String := located c.path.text c.cause.text

end LetStack

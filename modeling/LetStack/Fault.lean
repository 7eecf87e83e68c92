/-
Faults: a tree that no resolver yields stops the operation that meets it. Each cause carries what its message needs.
-/
import LetStack.Tree.Basic

namespace LetStack

inductive Fault where
  /-- the position or the name of an absent node, or a missing entry, was asked for -/
  | dereference
  /-- a traversal reached an absent node -/
  | visitAbsent
  /-- code was asked of an absent root -/
  | codeOfAbsentRoot
  /-- code was asked of an absent expression -/
  | codeOfAbsentExpr
  /-- code was asked of a reference without an entry -/
  | unresolved (pos : Position) (name : String)
  /-- code was asked of a reference from `level` to a declaration that is nested deeper -/
  | deeper (pos : Position) (name : String) (level declared : Int64)
  /-- code was asked of an operator that is none -/
  | codeOfOperator (pos : Position) (op : Operator)
  /-- code was asked of a literal that is neither an integer nor a boolean -/
  | codeOfLiteral (pos : Position) (value : Literal)
  /-- a value was asked of an absent root -/
  | valueOfAbsentRoot
  /-- a value was asked of an absent declaration -/
  | valueOfAbsentDecl
  /-- a value was asked of an absent expression -/
  | valueOfAbsentExpr
  /-- a value was asked of an operator that is none -/
  | valueOfOperator (op : Operator)
  /-- a value was asked of a literal that is neither an integer nor a boolean -/
  | valueOfLiteral (value : Literal)
deriving DecidableEq, Repr

namespace Fault

def message : Fault → String
  | .dereference => "runtime error: invalid memory address or nil pointer dereference"
  | .visitAbsent => "nil"
  | .codeOfAbsentRoot => "internal error: unexpected root <nil>"
  | .codeOfAbsentExpr => "internal error: unexpected expression <nil>"
  | .unresolved pos name => pos.text ++ ": internal error: unresolved reference to " ++ name
  | .deeper pos name level declared =>
    pos.text ++ ": internal error: reference to " ++ name ++ " at level " ++ toString level.toInt
      ++ ", declared at deeper level " ++ toString declared.toInt
  | .codeOfOperator pos op => pos.text ++ ": internal error: unexpected binary op " ++ op.symbol
  | .codeOfLiteral pos value => pos.text ++ ": internal error: unexpected literal " ++ value.typeName
  | .valueOfAbsentRoot => "unexpected root <nil>"
  | .valueOfAbsentDecl => "unexpected declaration <nil>"
  | .valueOfAbsentExpr => "unexpected expression <nil>"
  | .valueOfOperator op => "unexpected binary op " ++ op.symbol
  | .valueOfLiteral value => "unexpected literal " ++ value.typeName

/-- does the code generator write the message to its log before it stops? All but a dereference. -/
def isLogged : Fault → Bool
  | .codeOfAbsentRoot | .codeOfAbsentExpr | .unresolved .. | .deeper .. | .codeOfOperator .. | .codeOfLiteral .. =>
    true
  | _ => false

end Fault

end LetStack

/-
The names of the kinds of nodes in a value.
-/
import LetStack.Tree.Basic

namespace LetStack

/-- the kinds of roots -/
inductive RootKind where
  | letIn
  | bare
deriving DecidableEq, Repr

def RootKind.name : RootKind → String
  | .letIn => "letin"
  | .bare => "prog"

def RootKind.ofName? (name : String) : Option RootKind :=
  [RootKind.letIn, .bare].find? fun k => k.name = name

/-- the kinds of declarations -/
inductive DeclKind where
  | var
  | func
deriving DecidableEq, Repr

def DeclKind.name : DeclKind → String
  | .var => "var"
  | .func => "fun"

def DeclKind.ofName? (name : String) : Option DeclKind :=
  [DeclKind.var, .func].find? fun k => k.name = name

/-- the kinds of expressions; each operator has one -/
inductive ExprKind where
  | int
  | bool
  | ident
  | call
  | cond
  | equal
  | plus
  | times
  | print
deriving DecidableEq, Repr

def ExprKind.name : ExprKind → String
  | .int => "int"
  | .bool => "bool"
  | .ident => "id"
  | .call => "call"
  | .cond => "if"
  | .equal => "eq"
  | .plus => "plus"
  | .times => "times"
  | .print => "print"

def ExprKind.ofName? (name : String) : Option ExprKind :=
  [ExprKind.int, .bool, .ident, .call, .cond, .equal, .plus, .times, .print].find? fun k => k.name = name

end LetStack

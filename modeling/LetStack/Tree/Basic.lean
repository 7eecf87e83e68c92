/-
Resolved syntax trees of a small lexically scoped language.

A program is an expression, or declarations and an expression that may use them. A declaration binds a variable or a
function; functions nest. Names are already resolved: each reference carries the nesting level of the place where it
is used and an entry, the level and the frame offset of what it denotes.

Trees come from outside, so any node may be absent, an entry may be missing, an operator or a literal may be one that
has no meaning. Such trees are values of these types too; the operations say what becomes of them.
-/
import LetStack.Tree.Position

namespace LetStack

/-! ## References -/

/-- where a name is declared: the nesting level of the scope and the slot in its frame -/
structure Entry where
  level : Int64
  offset : Int64
deriving DecidableEq, Repr

namespace Entry

def text (e : Entry) : String :=
  "level " ++ toString e.level.toInt ++ ", offset " ++ toString e.offset.toInt

/-- the frame offset of parameter `i`, counted from 0 -/
def paramOffset (i : Int64) : Int64 := i + 1

/-- the frame offset of declaration `i`, counted from 0: below the access link and the return address -/
def declOffset (i : Int64) : Int64 := -2 - i

end Entry

/-- a use of a name at nesting level `level` -/
structure Reference where
  name : String
  level : Int64
  entry : Option Entry
deriving DecidableEq, Repr

/-! ## Operators, literals, parameters -/

inductive Operator where
  | equal
  | plus
  | times
  /-- a code that stands for no operator -/
  | illegal (code : Int8)
deriving DecidableEq, Repr

namespace Operator

def ofCode (code : Int8) : Operator :=
  if code = 1 then .equal else if code = 2 then .plus else if code = 3 then .times else .illegal code

def code : Operator → Int8
  | .equal => 1
  | .plus => 2
  | .times => 3
  | .illegal c => c

def symbol : Operator → String
  | .equal => "=="
  | .plus => "+"
  | .times => "*"
  | .illegal _ => "illegal token"

end Operator

/-- the value of a literal; the language has integers and booleans only -/
inductive Literal where
  | int (n : Int64)
  | bool (b : Bool)
  | string (s : String)
  | absent
deriving DecidableEq, Repr

/-- how messages name what is no value of the language -/
def Literal.typeName : Literal → String
  | .int _ => "int64"
  | .bool _ => "bool"
  | .string _ => "string"
  | .absent => "<nil>"

def Literal.text : Literal → String
  | .int n => toString n.toInt
  | .bool b => if b then "true" else "false"
  | .string s => s
  | .absent => "<nil>"

structure Param where
  name : String
  pos : Position := Position.unknown
deriving DecidableEq, Repr

/-! ## Trees -/

inductive Expr where
  | absent
  | literal (pos : Position) (value : Literal)
  | ident (pos : Position) (ref : Reference)
  | call (pos : Position) (ref : Reference) (args : List Expr)
  | cond (pos : Position) (test yes no : Expr)
  /-- `pos` is the position of the operator -/
  | binary (pos : Position) (op : Operator) (left right : Expr)
  | print (pos : Position) (arg : Expr)

inductive Decl where
  | absent
  | var (pos : Position) (name : String) (value : Expr)
  | func (pos : Position) (name : String) (params : List Param) (decls : List Decl) (body : Expr)

inductive Root where
  | absent
  /-- declarations and a body -/
  | letIn (pos : Position) (decls : List Decl) (body : Expr)
  /-- a bare expression -/
  | bare (body : Expr)

instance : Inhabited Expr := ⟨.absent⟩

instance : Inhabited Decl := ⟨.absent⟩

instance : Inhabited Root := ⟨.absent⟩

/-- any node of a tree -/
inductive Node where
  | root (r : Root)
  | decl (d : Decl)
  | expr (e : Expr)

/-! ## Kinds and positions -/

/-- what a node is, without its parts -/
inductive NodeKind where
  | absent
  | letIn
  | bare
  | func
  | var
  | ident
  | call
  | cond
  | binary
  | literal
  | print
deriving DecidableEq, Repr

/-- the name of a kind in logs -/
def NodeKind.name : NodeKind → String
  | .absent => "<nil>"
  | .letIn => "Program"
  | .bare => "ExprProgram"
  | .func => "FunDecl"
  | .var => "VarDecl"
  | .ident => "Ident"
  | .call => "CallExpr"
  | .cond => "IfExpr"
  | .binary => "BinaryExpr"
  | .literal => "Literal"
  | .print => "PrintExpr"

def Expr.kind : Expr → NodeKind
  | .absent => .absent
  | .literal .. => .literal
  | .ident .. => .ident
  | .call .. => .call
  | .cond .. => .cond
  | .binary .. => .binary
  | .print .. => .print

def Decl.kind : Decl → NodeKind
  | .absent => .absent
  | .var .. => .var
  | .func .. => .func

def Root.kind : Root → NodeKind
  | .absent => .absent
  | .letIn .. => .letIn
  | .bare .. => .bare

def Node.kind : Node → NodeKind
  | .root r => r.kind
  | .decl d => d.kind
  | .expr e => e.kind

/-- where an expression starts; a binary expression starts with its left operand. An absent node has no position. -/
def Expr.start? : Expr → Option Position
  | .absent => none
  | .literal p _ => some p
  | .ident p _ => some p
  | .call p _ _ => some p
  | .cond p _ _ _ => some p
  | .binary _ _ left _ => left.start?
  | .print p _ => some p

def Decl.start? : Decl → Option Position
  | .absent => none
  | .var p _ _ => some p
  | .func p _ _ _ _ => some p

def Root.start? : Root → Option Position
  | .absent => none
  | .letIn p _ _ => some p
  | .bare body => body.start?

def Node.start? : Node → Option Position
  | .root r => r.start?
  | .decl d => d.start?
  | .expr e => e.start?

end LetStack

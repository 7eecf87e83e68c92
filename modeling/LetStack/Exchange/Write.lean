/-
Writing a tree as a value.

Every node becomes an object with its kind, its members and, if its position is known, line and col. Integers become the
nearest numbers. A node that has no such form is a fault: an absent one, an operator or a literal without a kind, a
reference without an entry. The parts of a node are written in order, and the first fault ends the writing; an operator
is looked at before its operands, and the entry of a call after its arguments.

`Root.unresolved?` is the gentle check that comes first where a tree is written to a file: it names the first
reference or call without an entry.
-/
import LetStack.Exchange.Complaint
import LetStack.Exchange.Kinds
import LetStack.Tree.Walk

namespace LetStack

/-! ## Nodes -/

def Value.ofInt64 (n : Int64) : Value := .number (Binary64.ofInt n.toInt)

/-- an object of a kind; an unknown position is left out -/
def Value.ofNode (kind : String) (pos : Position) (members : List (String × Value)) : Value :=
  .ofMembers <|
    [("kind", .string kind)]
      ++ (if pos.isKnown then
        [("line", .number (Binary64.ofInt pos.line.toInt)), ("col", .number (Binary64.ofInt pos.col.toInt))]
      else [])
      ++ members

def Entry.toValue (e : Entry) : Value :=
  .ofMembers [("level", .ofInt64 e.level), ("offset", .ofInt64 e.offset)]

/-- the members of a reference -/
def Reference.toMembers (r : Reference) : Except Fault (List (String × Value)) :=
  match r.entry with
  | none => .error .dereference
  | some e => .ok [("name", .string r.name), ("level", .ofInt64 r.level), ("entry", e.toValue)]

def Operator.exprKind? : Operator → Option ExprKind
  | .equal => some .equal
  | .plus => some .plus
  | .times => some .times
  | .illegal _ => none

def Literal.toValue (pos : Position) : Literal → Except Fault Value
  | .int n => .ok (.ofNode ExprKind.int.name pos [("value", .ofInt64 n)])
  | .bool b => .ok (.ofNode ExprKind.bool.name pos [("value", .bool b)])
  | .string s => .error (.valueOfLiteral (.string s))
  | .absent => .error (.valueOfLiteral .absent)

/-! ## Trees -/

mutual

def Expr.toValue : Expr → Except Fault Value
  | .absent => .error .valueOfAbsentExpr
  | .literal pos value => value.toValue pos
  | .ident pos r => do
    let members ← r.toMembers
    .ok (.ofNode ExprKind.ident.name pos members)
  | .call pos r args => do
    let args ← Expr.toValues args
    let members ← r.toMembers
    .ok (.ofNode ExprKind.call.name pos (members ++ [("args", .list args)]))
  | .cond pos test yes no => do
    let test ← test.toValue
    let yes ← yes.toValue
    let no ← no.toValue
    .ok (.ofNode ExprKind.cond.name pos [("cond", test), ("then", yes), ("else", no)])
  | .binary pos op left right =>
    match op.exprKind? with
    | none => .error (.valueOfOperator op)
    | some kind => do
      let left ← left.toValue
      let right ← right.toValue
      .ok (.ofNode kind.name pos [("left", left), ("right", right)])
  | .print pos arg => do
    let arg ← arg.toValue
    .ok (.ofNode ExprKind.print.name pos [("exp", arg)])

def Expr.toValues : List Expr → Except Fault (List Value)
  | [] => .ok []
  | e :: es => do
    let v ← e.toValue
    let vs ← Expr.toValues es
    .ok (v :: vs)

end

mutual

def Decl.toValue : Decl → Except Fault Value
  | .absent => .error .valueOfAbsentDecl
  | .var pos name value => do
    let value ← value.toValue
    .ok (.ofNode DeclKind.var.name pos [("name", .string name), ("value", value)])
  | .func pos name params decls body => do
    let decls ← Decl.toValues decls
    let body ← body.toValue
    .ok (.ofNode DeclKind.func.name pos
      [("name", .string name), ("params", .list (params.map fun p => .string p.name)), ("decls", .list decls),
        ("body", body)])

def Decl.toValues : List Decl → Except Fault (List Value)
  | [] => .ok []
  | d :: ds => do
    let v ← d.toValue
    let vs ← Decl.toValues ds
    .ok (v :: vs)

end

/-- the value of a tree. A bare expression has no position of its own. -/
def Root.toValue : Root → Except Fault Value
  | .absent => .error .valueOfAbsentRoot
  | .letIn pos decls body => do
    let decls ← Decl.toValues decls
    let body ← body.toValue
    .ok (.ofNode RootKind.letIn.name pos [("decls", .list decls), ("body", body)])
  | .bare body => do
    let body ← body.toValue
    .ok (.ofNode RootKind.bare.name .unknown [("body", body)])

/-! ## References without an entry -/

/-- the complaint about a node of its own -/
def Node.unresolved? : Node → Option Cause
  | .expr (.ident pos ⟨name, _, none⟩) => some (.unresolvedReference pos name)
  | .expr (.call pos ⟨name, _, none⟩ _) => some (.unresolvedCall pos name)
  | _ => none

/-- keeps the first complaint and goes no deeper from there on -/
def Visitor.unresolved : Visitor (Option Cause)
  | none => pure true
  | some n => do
    match ← get with
    | some _ => pure false
    | none =>
      match n.unresolved? with
      | some cause =>
        set (some cause)
        pure false
      | none => pure true

/-- the first reference or call without an entry, if there is one -/
def Root.unresolved? (r : Root) : Except Fault (Option Cause) := do
  let ((), cause) ← (r.walk Visitor.unresolved).run none
  pure cause

end LetStack

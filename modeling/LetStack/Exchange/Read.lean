/-
Reading a tree from a value.

A node is an object with a string `kind`; it may have `line` and `col`. The kinds and their members:

  letin  decls, body       fun  name, params, decls, body      int, bool         value
  prog   body              var  name, value                    id                name, level, entry
                                                               call              name, level, entry, args
                                                               if                cond, then, else
                                                               eq, plus, times   left, right
                                                               print             exp

Lists may be left out, and then are empty; all else must be there. Members that no kind has are not looked at. An entry
is an object with a level and an offset. Members are read in the order of the table, and the first complaint ends the
reading.
-/
import LetStack.Exchange.Complaint
import LetStack.Exchange.Kinds

namespace LetStack

-- powers are those of the core library, whatever else is imported; so exponents have their type below
attribute [local instance (2000)] instPowNat

/-! ## Integers -/

/-- the greatest magnitude that a number holds exactly together with its neighbours -/
def maxExact : Int := 2 ^ (53 : Nat) - 1

/-- an integer from `least` to `greatest` -/
def Value.integer (path : Path) (least greatest : Int) : Value → Except Complaint Int
  | .number x =>
    if x.isInfinite then .error ⟨path, .inexact x⟩
    else
      match x.toInt? with
      | none => .error ⟨path, .notIntegral x⟩
      | some n =>
        if maxExact < n.natAbs then .error ⟨path, .inexact x⟩
        else if n < least ∨ greatest < n then .error ⟨path, .outOfRange n least greatest⟩
        else .ok n
  | v => .error ⟨path, .wrongType v.description .integer⟩

/-- the greatest line, column and level -/
def maxIndex : Int := 2 ^ (31 : Nat) - 1

/-! ## Objects -/

/-- an object inside the value `v`, with its place and what complaints call it -/
structure Object (v : Value) where
  path : Path
  kind : String
  members : Members
  /-- its members are smaller than the value, so reading them ends -/
  smaller : sizeOf members < sizeOf v

namespace Object

variable {v : Value}

def place (o : Object v) (name : String) : Path := o.path ++ [.member name]

/-- a member that must be there -/
def get (o : Object v) (name : String) : Except Complaint { w : Value // sizeOf w < sizeOf v } :=
  match h : o.members.get? name with
  | none => .error ⟨o.path, .missing o.kind name⟩
  | some w => .ok ⟨w, Nat.lt_trans (Members.sizeOf_get? h) o.smaller⟩

def string (o : Object v) (name : String) : Except Complaint String := do
  match ← o.get name with
  | ⟨.string s, _⟩ => .ok s
  | ⟨w, _⟩ => .error ⟨o.place name, .wrongType w.description .string⟩

def bool (o : Object v) (name : String) : Except Complaint Bool := do
  match ← o.get name with
  | ⟨.bool b, _⟩ => .ok b
  | ⟨w, _⟩ => .error ⟨o.place name, .wrongType w.description .bool⟩

def integer (o : Object v) (name : String) (least greatest : Int) : Except Complaint Int := do
  let w ← o.get name
  w.val.integer (o.place name) least greatest

/-- an integer that is 0 if it is left out -/
def integerOrZero (o : Object v) (name : String) (least greatest : Int) : Except Complaint Int :=
  if o.members.contains name then o.integer name least greatest else .ok 0

/-- a list that is empty if it is left out -/
def list (o : Object v) (name : String) : Except Complaint { ws : List Value // sizeOf ws < sizeOf v } :=
  match h : o.members.get? name with
  | none =>
    .ok ⟨[], by
      have h1 := o.smaller
      have h2 : 0 < sizeOf o.members := by
        cases o.members with
        | nil => exact Nat.zero_lt_one
        | cons m ms =>
          rw [List.cons.sizeOf_spec]
          omega
      simp only [List.nil.sizeOf_spec]
      omega⟩
  | some (.list ws) =>
    .ok ⟨ws, by
      have h1 := Members.sizeOf_get? h
      have h2 := o.smaller
      simp only [Value.list.sizeOf_spec] at h1
      omega⟩
  | some w => .error ⟨o.place name, .wrongType w.description .list⟩

end Object

/-! ## Nodes -/

/-- the members of an object -/
def Value.object? (path : Path) (kind : String) (v : Value) : Except Complaint (Object v) :=
  match v with
  | .object ms => .ok ⟨path, kind, ms, by simp⟩
  | w => .error ⟨path, .wrongType w.description .object⟩

/-- a node: an object with a kind and a position -/
def Value.node (path : Path) (v : Value) : Except Complaint (Object v × Position) := do
  let o ← v.object? path ""
  match o.members.get? "kind" with
  | none => .error ⟨path, .noKind⟩
  | some (.string kind) =>
    let o := { o with kind }
    let line ← o.integerOrZero "line" 0 maxIndex
    let col ← o.integerOrZero "col" 0 maxIndex
    .ok (o, ⟨Int32.ofInt line, Int32.ofInt col⟩)
  | some w => .error ⟨o.place "kind", .wrongType w.description .string⟩

/-- the reference of an identifier or a call -/
def Object.reference {v : Value} (o : Object v) : Except Complaint Reference := do
  let name ← o.string "name"
  let level ← o.integer "level" 0 maxIndex
  let entry ← o.get "entry"
  let e ← entry.val.object? (o.place "entry") "entry"
  let declared ← e.integer "level" 0 maxIndex
  let offset ← e.integer "offset" (-2 ^ (31 : Nat)) maxIndex
  .ok ⟨name, Int64.ofInt level, some ⟨Int64.ofInt declared, Int64.ofInt offset⟩⟩

/-- the parameters of a function, from the one with number `i` on -/
def paramsOfValues (path : Path) : Nat → List Value → Except Complaint (List Param)
  | _, [] => .ok []
  | i, .string name :: rest => do
    let params ← paramsOfValues path (i + 1) rest
    .ok ({ name } :: params)
  | i, w :: _ => .error ⟨path ++ [.item i], .wrongType w.description .string⟩

/-! ## Trees -/

mutual

def Expr.ofValue (path : Path) (v : Value) : Except Complaint Expr := do
  let (o, pos) ← v.node path
  match ExprKind.ofName? o.kind with
  | none => .error ⟨path, .wrongKind o.kind .expression⟩
  | some .int => do
    let n ← o.integer "value" (-maxExact) maxExact
    .ok (.literal pos (.int (Int64.ofInt n)))
  | some .bool => do
    let b ← o.bool "value"
    .ok (.literal pos (.bool b))
  | some .ident => do
    let r ← o.reference
    .ok (.ident pos r)
  | some .call => do
    let r ← o.reference
    let ⟨ws, _⟩ ← o.list "args"
    let args ← Expr.ofValues (o.place "args") 0 ws
    .ok (.call pos r args)
  | some .cond => do
    let ⟨test, _⟩ ← o.get "cond"
    let test ← Expr.ofValue (o.place "cond") test
    let ⟨yes, _⟩ ← o.get "then"
    let yes ← Expr.ofValue (o.place "then") yes
    let ⟨no, _⟩ ← o.get "else"
    let no ← Expr.ofValue (o.place "else") no
    .ok (.cond pos test yes no)
  | some .equal => do
    let (left, right) ← Expr.operandsOfObject o
    .ok (.binary pos .equal left right)
  | some .plus => do
    let (left, right) ← Expr.operandsOfObject o
    .ok (.binary pos .plus left right)
  | some .times => do
    let (left, right) ← Expr.operandsOfObject o
    .ok (.binary pos .times left right)
  | some .print => do
    let ⟨arg, _⟩ ← o.get "exp"
    let arg ← Expr.ofValue (o.place "exp") arg
    .ok (.print pos arg)
termination_by (sizeOf v, 1)

/-- the two operands of a binary expression -/
def Expr.operandsOfObject {v : Value} (o : Object v) : Except Complaint (Expr × Expr) := do
  let ⟨left, _⟩ ← o.get "left"
  let left ← Expr.ofValue (o.place "left") left
  let ⟨right, _⟩ ← o.get "right"
  let right ← Expr.ofValue (o.place "right") right
  .ok (left, right)
termination_by (sizeOf v, 0)

/-- the expressions of a list, from the one with number `i` on -/
def Expr.ofValues (path : Path) (i : Nat) (ws : List Value) : Except Complaint (List Expr) :=
  match ws with
  | [] => .ok []
  | w :: rest => do
    let e ← Expr.ofValue (path ++ [.item i]) w
    let es ← Expr.ofValues path (i + 1) rest
    .ok (e :: es)
termination_by (sizeOf ws, 1)

end

/-- the expression in a member -/
def Object.expr {v : Value} (o : Object v) (name : String) : Except Complaint Expr := do
  let w ← o.get name
  Expr.ofValue (o.place name) w.val

mutual

def Decl.ofValue (path : Path) (v : Value) : Except Complaint Decl := do
  let (o, pos) ← v.node path
  match DeclKind.ofName? o.kind with
  | none => .error ⟨path, .wrongKind o.kind .declaration⟩
  | some .var => do
    let name ← o.string "name"
    let value ← o.expr "value"
    .ok (.var pos name value)
  | some .func => do
    let name ← o.string "name"
    let params ← o.list "params"
    let params ← paramsOfValues (o.place "params") 0 params.val
    let ⟨decls, _⟩ ← o.list "decls"
    let decls ← Decl.ofValues (o.place "decls") 0 decls
    let body ← o.expr "body"
    .ok (.func pos name params decls body)
termination_by sizeOf v

/-- the declarations of a list, from the one with number `i` on -/
def Decl.ofValues (path : Path) (i : Nat) (ws : List Value) : Except Complaint (List Decl) :=
  match ws with
  | [] => .ok []
  | w :: rest => do
    let d ← Decl.ofValue (path ++ [.item i]) w
    let ds ← Decl.ofValues path (i + 1) rest
    .ok (d :: ds)
termination_by sizeOf ws

end

/-- the tree that a value spells, or the first complaint. The position of a bare expression is not kept. -/
def Root.ofValue (v : Value) : Except Complaint Root := do
  let (o, pos) ← v.node []
  match RootKind.ofName? o.kind with
  | none => .error ⟨[], .wrongKind o.kind .program⟩
  | some .letIn => do
    let decls ← o.list "decls"
    let decls ← Decl.ofValues (o.place "decls") 0 decls.val
    let body ← o.expr "body"
    .ok (.letIn pos decls body)
  | some .bare => do
    let body ← o.expr "body"
    .ok (.bare body)

end LetStack

/-
How many labels a tree takes.

A conditional and a comparison take two control labels each, a function declaration takes one function label. The
generator numbers labels in the order of its visit, so these counts say where the numbers of the next part begin.
-/
import LetStack.Tree.Basic

namespace LetStack

mutual

/-- control labels of an expression -/
def Expr.labelCount : Expr → Nat
  | .absent => 0
  | .literal _ _ => 0
  | .ident _ _ => 0
  | .call _ _ args => Expr.labelCountAll args
  | .cond _ test yes no => 2 + test.labelCount + no.labelCount + yes.labelCount
  | .binary _ op left right => (if op = .equal then 2 else 0) + left.labelCount + right.labelCount
  | .print _ arg => arg.labelCount

def Expr.labelCountAll : List Expr → Nat
  | [] => 0
  | e :: es => e.labelCount + Expr.labelCountAll es

end

mutual

/-- control labels of a declaration, those inside nested functions included -/
def Decl.labelCount : Decl → Nat
  | .absent => 0
  | .var _ _ value => value.labelCount
  | .func _ _ _ decls body => Decl.labelCountAll decls + body.labelCount

def Decl.labelCountAll : List Decl → Nat
  | [] => 0
  | d :: ds => d.labelCount + Decl.labelCountAll ds

end

mutual

/-- function labels of a declaration: its own and those of nested functions -/
def Decl.functionCount : Decl → Nat
  | .absent => 0
  | .var _ _ _ => 0
  | .func _ _ _ decls _ => 1 + Decl.functionCountAll decls

def Decl.functionCountAll : List Decl → Nat
  | [] => 0
  | d :: ds => d.functionCount + Decl.functionCountAll ds

end

/-- how many labels of each family are taken already -/
structure Counters where
  labels : Nat
  functions : Nat
deriving DecidableEq, Repr

namespace Counters

def start : Counters := ⟨0, 0⟩

/-- after the code of `d` -/
def after (c : Counters) (d : Decl) : Counters := ⟨c.labels + d.labelCount, c.functions + d.functionCount⟩

/-- inside a function that has just taken its label -/
def inside (c : Counters) : Counters := ⟨c.labels, c.functions + 1⟩

end Counters

end LetStack

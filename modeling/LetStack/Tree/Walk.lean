/-
Depth-first traversal with a visitor.

The visitor is shown each node before its children and answers whether to go on below it. If it does, it is told after
the last child that the node is left. Children come in source order: declarations before the body, arguments, test
and branches, operands from left to right. Reaching an absent node is a fault, also where nothing is to be done any
more.
-/
import LetStack.Fault

namespace LetStack

/-- shown a node, or `none` when the node last entered and not yet left is left. The answer counts for a node only. -/
abbrev Visitor (σ : Type) := Option Node → StateT σ (Except Fault) Bool

namespace Visitor

variable {σ : Type}

/-- enters `n`, then the children if the visitor wants them, and leaves it again -/
def around (f : Visitor σ) (n : Node) (children : StateT σ (Except Fault) Unit) : StateT σ (Except Fault) Unit := do
  if ← f (some n) then
    children
    discard (f none)

end Visitor

mutual

def Expr.walk {σ : Type} (f : Visitor σ) : Expr → StateT σ (Except Fault) Unit
  | .absent => throw .visitAbsent
  | .literal p v => f.around (.expr (.literal p v)) (pure ())
  | .ident p r => f.around (.expr (.ident p r)) (pure ())
  | .call p r args => f.around (.expr (.call p r args)) (Expr.walkAll f args)
  | .cond p test yes no => f.around (.expr (.cond p test yes no)) do
    test.walk f
    yes.walk f
    no.walk f
  | .binary p op left right => f.around (.expr (.binary p op left right)) do
    left.walk f
    right.walk f
  | .print p arg => f.around (.expr (.print p arg)) (arg.walk f)

def Expr.walkAll {σ : Type} (f : Visitor σ) : List Expr → StateT σ (Except Fault) Unit
  | [] => pure ()
  | e :: es => do
    e.walk f
    Expr.walkAll f es

end

mutual

def Decl.walk {σ : Type} (f : Visitor σ) : Decl → StateT σ (Except Fault) Unit
  | .absent => throw .visitAbsent
  | .var p name value => f.around (.decl (.var p name value)) (value.walk f)
  | .func p name params decls body => f.around (.decl (.func p name params decls body)) do
    Decl.walkAll f decls
    body.walk f

def Decl.walkAll {σ : Type} (f : Visitor σ) : List Decl → StateT σ (Except Fault) Unit
  | [] => pure ()
  | d :: ds => do
    d.walk f
    Decl.walkAll f ds

end

def Root.walk {σ : Type} (f : Visitor σ) : Root → StateT σ (Except Fault) Unit
  | .absent => throw .visitAbsent
  | .letIn p decls body => f.around (.root (.letIn p decls body)) do
    Decl.walkAll f decls
    body.walk f
  | .bare body => f.around (.root (.bare body)) (body.walk f)

/-- the visitor that writes one line for each call, `kind position` or `end`, and goes below the kinds that `prune`
does not name -/
def Visitor.lines (prune : List String) : Visitor (List String)
  | none => do
    modify (· ++ ["end"])
    pure true
  | some n => do
    match n.start? with
    | none => throw .dereference
    | some p =>
      modify (· ++ [n.kind.name ++ " " ++ p.text])
      pure (!prune.contains n.kind.name)

/-- the lines of a traversal of the whole tree -/
def Root.visitLines (prune : List String) (r : Root) : Except Fault (List String) := do
  let ((), lines) ← (r.walk (Visitor.lines prune)).run []
  pure lines

end LetStack

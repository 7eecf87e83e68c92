/-
Programs: the code that runs first, and one routine for each function declaration.
-/
import LetStack.Code.Instr
import LetStack.Tree.Basic

namespace LetStack

/-- the block of a function, with the declaration that it was made from -/
structure Routine where
  pos : Position
  name : String
  params : List Param
  decls : List Decl
  body : Expr
  /-- where the block starts -/
  label : Label
  code : Code

namespace Routine

def decl (r : Routine) : Decl := .func r.pos r.name r.params r.decls r.body

def numParams (r : Routine) : Nat := r.params.length

def numLocals (r : Routine) : Nat := r.decls.length

end Routine

structure Program where
  toplevel : Code
  routines : List Routine

namespace Program

/-- all instructions: the top level, then the routines in order -/
def code (p : Program) : Code := p.toplevel ++ p.routines.flatMap Routine.code

def listing (p : Program) : String := p.code.listing

end Program

end LetStack

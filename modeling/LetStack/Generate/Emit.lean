/-
The code of a tree.

A frame holds, from fp upwards, the access link at fp (the frame of the scope that declares the running function),
parameter i at fp + i, and above the last parameter the caller's fp; downwards, the return address at fp - 1 and the
declarations from fp - 2 on. A reference from level C to a declaration at level D starts at fp and follows C - D
access links to the frame that holds it.

An expression leaves one word on the stack. A declaration leaves one word too, which is its slot in the frame: the
value of a variable, or the start of a function's block. The block itself becomes a routine.

The functions here give code for every tree. For a tree with a bad node it is not meant to run: which trees are bad,
and how that is reported, is said in the report of a compilation.
-/
import LetStack.Code.Program
import LetStack.Generate.Count

namespace LetStack

namespace Reference

/-- how many access links to follow -/
def hops (r : Reference) : Int64 := r.level - (r.entry.elim r.level Entry.level)

/-- the frame offset of what is denoted -/
def offset (r : Reference) : Int64 := r.entry.elim 0 Entry.offset

/-- pushes the base of the frame that holds what is denoted -/
def frame (r : Reference) : Code := .lfp :: copies r.hops .lw

end Reference

/-! ## Expressions -/

def pushInt (n : Int64) : Instr := .push (.int n)

mutual

/-- the code of an expression whose first control label has number `next` -/
def Expr.code (next : Nat) : Expr → Code
  | .absent => []
  | .literal _ (.int n) => [pushInt n]
  | .literal _ (.bool b) => [pushInt (if b then 1 else 0)]
  | .literal _ (.string _) => []
  | .literal _ .absent => []
  | .ident _ r => r.frame ++ [pushInt r.offset, .add, .lw]
  -- the frame of the callee is built from the top: the caller's fp, the arguments, the access link
  | .call _ r args =>
    [.lfp] ++ Expr.argsCode next args ++ r.frame ++ [.stm, .ltm, .ltm, pushInt r.offset, .add, .lw, .js]
  -- the branch taken for false stands first and falls through
  | .cond _ test yes no =>
    let afterTest := next + 2 + test.labelCount
    let afterNo := afterTest + no.labelCount
    test.code (next + 2) ++ [pushInt 1, .beq (.control next)]
      ++ no.code afterTest ++ [.b (.control (next + 1)), .label (.control next)]
      ++ yes.code afterNo ++ [.label (.control (next + 1))]
  | .binary _ .equal left right =>
    left.code (next + 2) ++ right.code (next + 2 + left.labelCount)
      ++ [.beq (.control next), pushInt 0, .b (.control (next + 1)), .label (.control next), pushInt 1,
        .label (.control (next + 1))]
  | .binary _ .plus left right => left.code next ++ right.code (next + left.labelCount) ++ [.add]
  | .binary _ .times left right => left.code next ++ right.code (next + left.labelCount) ++ [.mult]
  | .binary _ (.illegal _) _ _ => []
  | .print _ arg => arg.code next ++ [.print]

/-- the code of arguments, which are visited last to first, so that parameter i is found at fp + i -/
def Expr.argsCode (next : Nat) : List Expr → Code
  | [] => []
  | e :: es => Expr.argsCode next es ++ e.code (next + Expr.labelCountAll es)

end

/-! ## Declarations -/

/-- what stands at the place of a declaration -/
def Decl.code (c : Counters) : Decl → Code
  | .absent => []
  | .var _ _ value => value.code c.labels
  | .func _ _ _ _ _ => [.push (.address (.function c.functions))]

def Decl.codeAll (c : Counters) : List Decl → Code
  | [] => []
  | d :: ds => d.code c ++ Decl.codeAll (c.after d) ds

/-- the block of a function: it sets up its frame, runs declarations and body, keeps the result in tm while the frame
is removed, and returns -/
def functionCode (c : Counters) (params : List Param) (decls : List Decl) (body : Expr) : Code :=
  [.label (.function c.functions), .cfp, .lra]
    ++ Decl.codeAll c.inside decls ++ body.code (c.labels + Decl.labelCountAll decls)
    ++ [.stm] ++ List.replicate decls.length .pop ++ [.sra, .pop] ++ List.replicate params.length .pop
    ++ [.sfp, .ltm, .lra, .js]

/-- the routine of a function declaration -/
def Routine.make (c : Counters) (pos : Position) (name : String) (params : List Param) (decls : List Decl)
    (body : Expr) : Routine :=
  ⟨pos, name, params, decls, body, .function c.functions, functionCode c params decls body⟩

mutual

/-- the routines of a declaration, an enclosing function before those nested in it -/
def Decl.routines (c : Counters) : Decl → List Routine
  | .absent => []
  | .var _ _ _ => []
  | .func pos name params decls body =>
    Routine.make c pos name params decls body :: Decl.routinesAll c.inside decls

def Decl.routinesAll (c : Counters) : List Decl → List Routine
  | [] => []
  | d :: ds => d.routines c ++ Decl.routinesAll (c.after d) ds

end

/-! ## Programs -/

/-- the program of a tree. The outermost frame has no caller: one word stands for its access link. -/
def Root.program : Root → Program
  | .absent => ⟨[], []⟩
  | .letIn _ decls body =>
    ⟨[pushInt 0] ++ Decl.codeAll .start decls ++ body.code (Decl.labelCountAll decls) ++ [.halt],
      Decl.routinesAll .start decls⟩
  | .bare body => ⟨body.code 0 ++ [.halt], []⟩

end LetStack

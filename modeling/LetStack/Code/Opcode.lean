/-
The operations of the stack machine.

The machine has a stack, a frame pointer (fp), a return address register (ra) and a temporary register (tm). The stack
before and after each operation, top to the right:

  push v    -  →  v            beq l   x y  →  -    (jumps to l if x = y)     lfp  -  →  fp       lra  -  →  ra
  pop       x  →  -            b l     -  →  -      (jumps to l)              sfp  x  →  -        sra  x  →  -
  add     x y  →  x+y          js      a  →  -      (ra := next; jumps to a)  cfp  -  →  -        ltm  -  →  tm
  mult    x y  →  x*y          halt    -  →  -                                (fp := stack pointer)
  lw        a  →  word at a    print   x  →  x      (shows x)                                     stm  x  →  -

A label is not executed: it names the place where it stands.
-/

namespace LetStack

inductive Opcode where
  | push
  | pop
  | add
  | mult
  | beq
  | b
  | js
  | halt
  | print
  | lw
  | lfp
  | sfp
  | cfp
  | lra
  | sra
  | ltm
  | stm
  | label
  /-- a code that stands for no operation -/
  | illegal (code : UInt8)
deriving DecidableEq, Repr

namespace Opcode

/-- the operations in the order of their codes -/
def all : List Opcode :=
  [push, pop, add, mult, beq, b, js, halt, print, lw, lfp, sfp, cfp, lra, sra, ltm, stm, label]

def ofCode (code : UInt8) : Opcode := all.getD code.toNat (illegal code)

def name : Opcode → String
  | push => "push"
  | pop => "pop"
  | add => "add"
  | mult => "mult"
  | beq => "beq"
  | b => "b"
  | js => "js"
  | halt => "halt"
  | print => "print"
  | lw => "lw"
  | lfp => "lfp"
  | sfp => "sfp"
  | cfp => "cfp"
  | lra => "lra"
  | sra => "sra"
  | ltm => "ltm"
  | stm => "stm"
  | label => "label"
  | illegal code => "illegal op (" ++ toString code.toNat ++ ")"

def hasOperand : Opcode → Bool
  | push | beq | b | label => true
  | _ => false

end Opcode

end LetStack

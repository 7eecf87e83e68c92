/-
Instructions and their listing.

An instruction pairs an operation with the operand that it takes: an integer or an address for `push`, a label for the
branches and for a label's own definition. Its line in a listing is the operation and the text of the operand; a
label's line is its name and a colon.
-/
import LetStack.Code.Opcode

namespace LetStack

/-- a place in the code; the two families are numbered apart -/
inductive Label where
  /-- a place inside a block -/
  | control (n : Nat)
  /-- the start of a function's block -/
  | function (n : Nat)
deriving DecidableEq, Repr

def Label.name : Label → String
  | .control n => "label" ++ toString n
  | .function n => "function" ++ toString n

/-- what `push` pushes -/
inductive Operand where
  | int (n : Int64)
  | address (l : Label)
deriving DecidableEq, Repr

def Operand.text : Operand → String
  | .int n => toString n.toInt
  | .address l => l.name

inductive Instr where
  | push (v : Operand)
  | pop
  | add
  | mult
  | beq (target : Label)
  | b (target : Label)
  | js
  | halt
  | print
  | lw
  | lfp
  | sfp
  | cfp
  | lra
  | sra
  | ltm
  | stm
  | label (l : Label)
deriving DecidableEq, Repr

namespace Instr

def opcode : Instr → Opcode
  | push _ => .push
  | pop => .pop
  | add => .add
  | mult => .mult
  | beq _ => .beq
  | b _ => .b
  | js => .js
  | halt => .halt
  | print => .print
  | lw => .lw
  | lfp => .lfp
  | sfp => .sfp
  | cfp => .cfp
  | lra => .lra
  | sra => .sra
  | ltm => .ltm
  | stm => .stm
  | label _ => .label

/-- the text of the operand, empty if there is none -/
def operand : Instr → String
  | push v => v.text
  | beq l | b l | label l => l.name
  | _ => ""

end Instr

/-! ## Listings -/

/-- a line of a listing: an operation and the text of its operand -/
structure Line where
  op : Opcode
  operand : String
deriving DecidableEq, Repr

def Line.text (l : Line) : String :=
  match l.op with
  | .label => l.operand ++ ":"
  | op => if op.hasOperand then op.name ++ " " ++ l.operand else op.name

/-- the lines one below the other, without a newline at the end -/
def Line.listing (ls : List Line) : String := "\n".intercalate (ls.map Line.text)

def Instr.line (i : Instr) : Line := ⟨i.opcode, i.operand⟩

def Instr.text (i : Instr) : String := i.line.text

/-- a straight sequence of instructions -/
abbrev Code := List Instr

/-- `n` copies of an item, none if `n` is negative -/
def copies {α : Type} (n : Int64) (a : α) : List α := List.replicate n.toInt.toNat a

def Code.listing (c : Code) : String := Line.listing (c.map Instr.line)

/-- the lines of a listing, each ended by a newline; if `bold`, labels are between the sequences for bold and plain -/
def Code.display (bold : Bool) (c : Code) : String :=
  String.join (c.map fun i =>
    (if bold && i.opcode = .label then "\x1b[1m" ++ i.text ++ "\x1b[0m" else i.text) ++ "\n")

end LetStack

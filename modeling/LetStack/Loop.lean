/-
The interactive loop: read lines until they make up a tree in JSON, compile it, print its code.

The loop keeps the lines of an unfinished tree. With each further line it tries again; if the text may still be
completed it waits for more, otherwise it prints the code or a complaint and starts afresh. A blank line ends the
waiting, so a malformed tree is reported; at the start it is skipped. An interrupt drops what is pending. At the end
of the input what is pending is reported.
-/
import LetStack.Exchange.Format
import LetStack.Generate.Report
import LetStack.Text.Blank

namespace LetStack

/-- how the log of a compilation is written -/
structure Logging where
  /-- what stands before each entry -/
  head : String
  verbosity : Verbosity

namespace Loop

/-- what is written to standard output and to standard error -/
structure Output where
  out : String
  err : String
deriving DecidableEq, Repr

def Output.none : Output := ⟨"", ""⟩

instance : Append Output := ⟨fun a b => ⟨a.out ++ b.out, a.err ++ b.err⟩⟩

/-- what becomes of a text -/
structure Reply where
  /-- is the text done with? -/
  consumed : Bool
  output : Output
  fault : Option Fault

/-- compiles the tree that `text` spells and prints its code. A text that is only incomplete is left alone unless it is
`final`. -/
def respond (log : Logging) (text : String) (final : Bool) : Reply :=
  match Root.decode .json (Utf8.encode text) with
  | .error failure =>
    if !final && failure.isIncomplete then ⟨false, .none, none⟩
    else ⟨true, ⟨"", failure.message ++ "\n"⟩, none⟩
  | .ok root =>
    let err := root.log log.head log.verbosity
    match root.compile with
    | .ok p => ⟨true, ⟨p.listing ++ "\n", err⟩, none⟩
    | .error f => ⟨true, ⟨"", err⟩, some f⟩

/-- what the user does -/
inductive Input where
  | line (text : String)
  | interrupt
deriving DecidableEq, Repr

/-- the lines of the unfinished tree, what is written, and the fault that ends the loop, if one does -/
structure Step where
  pending : String
  output : Output
  fault : Option Fault

/-- one input -/
def step (log : Logging) (pending : String) : Input → Step
  | .interrupt => ⟨"", ⟨"Interrupt\n", ""⟩, none⟩
  | .line text =>
    let blank := Text.isBlankText text
    if blank && pending.isEmpty then ⟨"", .none, none⟩
    else
      let whole := pending ++ text ++ "\n"
      let reply := respond log whole blank
      ⟨if reply.consumed then "" else whole, reply.output, reply.fault⟩

/-- the end of the input: what is pending is reported, then the line is ended -/
def finish (log : Logging) (pending : String) : Output × Option Fault :=
  if Text.isBlankText pending then (⟨"\n", ""⟩, none)
  else
    let reply := respond log pending true
    match reply.fault with
    | some f => (reply.output, some f)
    | none => (reply.output ++ ⟨"\n", ""⟩, none)

/-- the end of the input after a last line without its end, which counts as a line unless it is empty -/
def finishAfter (log : Logging) (pending last : String) : Output × Option Fault :=
  if last.isEmpty then finish log pending
  else
    let s := step log pending (.line last)
    match s.fault with
    | some f => (s.output, some f)
    | none =>
      let (output, fault) := finish log s.pending
      (s.output ++ output, fault)

/-- what is written after each input and at the end. A fault ends the loop at once. -/
def run (log : Logging) (pending : String) (last : String) : List Input → List Output × Option Fault
  | [] =>
    let (output, fault) := finishAfter log pending last
    ([output], fault)
  | input :: inputs =>
    let s := step log pending input
    match s.fault with
    | some f => ([s.output], some f)
    | none =>
      let (outputs, fault) := run log s.pending last inputs
      (s.output :: outputs, fault)

end Loop

end LetStack

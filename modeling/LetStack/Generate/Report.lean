/-
Compilation: the visit of a tree, its report, and the program or the first fault.

The generator visits the nodes in a fixed order: declarations in order, an operator before its operands, operands left
to right, the test of a conditional, then its branch for false, then its branch for true, the arguments of a call last
to first and then the call's own reference. `events` lists what happens on the way: a node is entered, a routine is
finished, a node turns out to be bad. The first fault ends the visit; what would come after it never happens.

What is shown of the events is the choice of the caller. The program does not depend on it.
-/
import LetStack.Fault
import LetStack.Generate.Emit

namespace LetStack

inductive Event where
  /-- a node is entered; `detail` is its name, operator or value -/
  | enter (depth : Nat) (kind : NodeKind) (detail : String)
  /-- the code of a function is complete -/
  | finish (r : Routine)
  /-- a bad node is met -/
  | fault (f : Fault)

/-! ## The visit -/

/-- the fault of a reference: no entry, or a declaration that is nested deeper than the use -/
def Reference.faults (pos : Position) (r : Reference) : List Event :=
  match r.entry with
  | none => [.fault (.unresolved pos r.name)]
  | some e => if r.hops < 0 then [.fault (.deeper pos r.name r.level e.level)] else []

def Literal.faults (pos : Position) : Literal → List Event
  | .int _ => []
  | .bool _ => []
  | .string s => [.fault (.codeOfLiteral pos (.string s))]
  | .absent => [.fault (.codeOfLiteral pos .absent)]

def Operator.faults (pos : Position) : Operator → List Event
  | .illegal c => [.fault (.codeOfOperator pos (.illegal c))]
  | _ => []

mutual

def Expr.events (depth : Nat) : Expr → List Event
  | .absent => [.fault .codeOfAbsentExpr]
  | .literal pos value => [.enter depth .literal value.text] ++ value.faults pos
  | .ident pos r => [.enter depth .ident r.name] ++ r.faults pos
  | .call pos r args => [.enter depth .call r.name] ++ Expr.argsEvents (depth + 1) args ++ r.faults pos
  | .cond _ test yes no =>
    [.enter depth .cond ""] ++ test.events (depth + 1) ++ no.events (depth + 1) ++ yes.events (depth + 1)
  | .binary pos op left right =>
    [.enter depth .binary op.symbol] ++ op.faults pos ++ left.events (depth + 1) ++ right.events (depth + 1)
  | .print _ arg => [.enter depth .print ""] ++ arg.events (depth + 1)

/-- arguments are visited last to first -/
def Expr.argsEvents (depth : Nat) : List Expr → List Event
  | [] => []
  | e :: es => Expr.argsEvents depth es ++ e.events depth

end

mutual

/-- an absent declaration has no name to enter it by -/
def Decl.events (c : Counters) (depth : Nat) : Decl → List Event
  | .absent => [.fault .dereference]
  | .var _ name value => [.enter depth .var name] ++ value.events (depth + 1)
  | .func pos name params decls body =>
    [.enter depth .func name] ++ Decl.eventsAll c.inside (depth + 1) decls ++ body.events (depth + 1)
      ++ [.finish (Routine.make c pos name params decls body)]

def Decl.eventsAll (c : Counters) (depth : Nat) : List Decl → List Event
  | [] => []
  | d :: ds => d.events c depth ++ Decl.eventsAll (c.after d) depth ds

end

def Root.events : Root → List Event
  | .absent => [.fault .codeOfAbsentRoot]
  | .letIn _ decls body => [.enter 0 .letIn ""] ++ Decl.eventsAll .start 1 decls ++ body.events 1
  | .bare body => [.enter 0 .bare ""] ++ body.events 1

/-! ## The result -/

def Event.fault? : Event → Option Fault
  | .fault f => some f
  | _ => none

/-- the program of a tree, or the first fault of the visit -/
def Root.compile (r : Root) : Except Fault Program :=
  match r.events.findSome? Event.fault? with
  | some f => .error f
  | none => .ok r.program

/-! ## The log -/

/-- which events are shown -/
structure Verbosity where
  /-- each node as it is entered -/
  trace : Bool
  /-- each routine as it is finished -/
  disassemble : Bool
deriving DecidableEq, Repr

def Verbosity.quiet : Verbosity := ⟨false, false⟩

/-- the events up to the first fault, which is the last to happen -/
def Event.untilFault : List Event → List Event
  | [] => []
  | .fault f :: _ => [.fault f]
  | e :: es => e :: Event.untilFault es

/-- the log entry of an event, if it has one -/
def Event.entry? (v : Verbosity) : Event → Option String
  | .enter depth kind detail =>
    if v.trace then
      some (String.join (List.replicate depth "  ") ++ kind.name ++ (if detail.isEmpty then "" else ": " ++ detail))
    else none
  | .finish r =>
    if v.disassemble then
      some ("function " ++ r.label.name ++ " (" ++ r.name ++ "/" ++ toString r.numParams ++ "):\n" ++ r.code.listing)
    else none
  | .fault f => if f.isLogged then some f.message else none

/-- the log entries of a compilation -/
def Root.logEntries (v : Verbosity) (r : Root) : List String :=
  (Event.untilFault r.events).filterMap (Event.entry? v)

/-- an entry as it is written: after `head`, and ended by a newline if it does not end in one -/
def logLine (head entry : String) : String := head ++ entry ++ (if entry.endsWith "\n" then "" else "\n")

/-- the log of a compilation -/
def Root.log (head : String) (v : Verbosity) (r : Root) : String :=
  String.join ((r.logEntries v).map (logLine head))

end LetStack

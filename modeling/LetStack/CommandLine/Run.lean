/-
The command: a tree from an argument or a file, its code or the tree in another format to a file or to standard output;
without either, the interactive loop.

`Job.of` says what the arguments ask for and `convert` does the work on the text of a tree. `run` is the whole
command as a function of its arguments, the files, the failures of the system and what is typed. Failures are written
to standard error and end with status 1, bad flags and faults with status 2. The loop does not look whether standard
output takes what it prints.

Standard output that nobody reads any more ends the command from outside and is no failure here.
-/
import LetStack.CommandLine.Files
import LetStack.CommandLine.Flags
import LetStack.Loop
import LetStack.Render

namespace LetStack.CommandLine

/-- the name of the command, before each entry of its log -/
def logHead : String := "foolc: "

/-! ## What to do -/

inductive Job where
  /-- work on a tree that is given as an argument -/
  | text (source : String)
  /-- work on a tree in a file -/
  | file (name : String)
  | interact
  /-- too many arguments -/
  | refuse (message : String)
deriving DecidableEq, Repr

/-- the job, given the options and the arguments after them -/
def Job.of (o : Options) (rest : List String) : Job :=
  if !o.source.isEmpty then .text o.source
  else
    match rest with
    | [] => .interact
    | [name] => .file name
    | _ => .refuse "want at most one file name"

/-! ## One tree -/

/-- why there is no output -/
inductive Ending where
  | failed (message : String)
  | fault (f : Fault)

/-- what is logged on the way, and the output -/
structure Conversion where
  log : String
  result : Except Ending (List UInt8)

/-- compiles or converts a tree; `name` is what complaints call it -/
def convert (o : Options) (name : String) (data : List UInt8) : Conversion :=
  match Format.parseOption "-input" o.input with
  | .error failure => ⟨"", .error (.failed failure.message)⟩
  | .ok format =>
    match Root.decode format data with
    | .error failure => ⟨"", .error (.failed (name ++ ": " ++ failure.message))⟩
    | .ok root =>
      ⟨root.renderLog logHead o.verbosity o.output,
        match root.render o.output false with
        | .ok output => .ok output
        | .error (.fault f) => .error (.fault f)
        | .error (.failure failure) => .error (.failed failure.message)⟩

/-! ## The whole command -/

structure Outcome where
  exitStatus : Nat
  out : List UInt8
  err : String
  files : Files
  /-- the fault that ended the command, if one did -/
  fault : Option Fault

/-- a failure: one more log entry after `log` -/
def failed (files : Files) (log message : String) : Outcome := ⟨1, [], log ++ logLine logHead message, files, none⟩

/-- what standard output is called when it fails -/
def standardName : String := "/dev/stdout"

/-- writes the output where it is asked for -/
def deliver (system : System) (o : Options) (files : Files) (output : List UInt8) : Files.Written :=
  if o.outfile.isEmpty then
    ⟨files, Limit.taken system.standardLimit output,
      (Limit.failure? system.standardLimit output).map fun cause => ⟨"write", standardName, cause⟩⟩
  else files.write system o.outfile output

/-- converts a tree and delivers the output -/
def process (system : System) (o : Options) (files : Files) (name : String) (data : List UInt8) : Outcome :=
  let c := convert o name data
  match c.result with
  | .error (.fault f) => ⟨2, [], c.log, files, some f⟩
  | .error (.failed message) => failed files c.log message
  | .ok output =>
    let written := deliver system o files output
    match written.error with
    | none => ⟨0, written.out, c.log, written.files, none⟩
    | some e => { failed written.files c.log e.message with out := written.out }

def greeting : String := "Welcome to foolc. Enter a syntax tree in JSON form.\n"

/-- the interactive loop, with what is typed and a last line without its end -/
def interact (system : System) (o : Options) (files : Files) (inputs : List Loop.Input) (last : String) : Outcome :=
  let (outputs, fault) := Loop.run ⟨logHead, o.verbosity⟩ "" last inputs
  let output := outputs.foldl (· ++ ·) ⟨greeting, ""⟩
  ⟨if fault.isSome then 2 else 0, Limit.taken system.standardLimit (Utf8.encode output.out), output.err, files, fault⟩

def run (system : System) (args : List String) (files : Files) (inputs : List Loop.Input) (last : String) : Outcome :=
  match parse {} args with
  | .error e => ⟨e.exitStatus, [], e.message, files, none⟩
  | .ok (o, rest) =>
    match Job.of o rest with
    | .text source => process system o files "cmdline" (Utf8.encode source)
    | .file name =>
      match files.read system name with
      | .ok data => process system o files name data
      | .error e => failed files "" e.message
    | .interact => interact system o files inputs last
    | .refuse message => failed files "" message

end LetStack.CommandLine

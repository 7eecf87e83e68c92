/-
The command line: real files, standard input and standard output around the pure command.
-/
import LetStack.CommandLine.Run

namespace LetStack.CommandLine

/-- the cause of a failure of the system -/
def FileCause.ofSystem : IO.Error → FileCause
  | .noFileOrDirectory .. => .notFound
  | .noSuchThing .. => .notFound
  | .inappropriateType .. => .isDirectory
  | .permissionDenied _ _ details => .system details.decapitalize
  | .resourceExhausted _ _ details => .system details.decapitalize
  | .hardwareFault _ details => .system details.decapitalize
  | e => .system (toString e)

/-- does something with a file; a failure is told by its action and the name -/
def attempt {α : Type} (action name : String) (x : IO α) : IO (Except FileError α) := do
  try
    return .ok (← x)
  catch e => return .error ⟨action, name, FileCause.ofSystem e⟩

/-- the content of a file. A directory can be opened for reading. -/
def readFile (name : String) : IO (Except FileError (List UInt8)) := do
  match ← attempt "open" name (IO.FS.Handle.mk name .read) with
  | .error e => return .error e
  | .ok file =>
    let data ← attempt "read" name file.readBinToEnd
    return data.map ByteArray.toList

/-- opens a file, which makes or empties it, and hands over the octets -/
def writeFile (name : String) (octets : ByteArray) : IO (Except FileError Unit) := do
  match ← attempt "open" name (IO.FS.Handle.mk name .write) with
  | .error e => return .error e
  | .ok file => attempt "write" name (do file.write octets; file.flush)

/-- writes to standard output -/
def writeStandard (octets : ByteArray) : IO (Except FileError Unit) := do
  let out ← IO.getStdout
  attempt "write" standardName (do out.write octets; out.flush)

/-- one entry of the log -/
def logError (message : String) : IO Unit := IO.eprint (logLine logHead message)

/-- reports a fault; the status says that there was one -/
def reportFault (f : Fault) : IO UInt32 := do
  IO.eprintln ("panic: " ++ f.message)
  return 2

/-- converts a tree and delivers the output -/
def convertAndDeliver (o : Options) (name : String) (data : List UInt8) : IO UInt32 := do
  let c := convert o name data
  IO.eprint c.log
  match c.result with
  | .error (.fault f) => reportFault f
  | .error (.failed message) =>
    logError message
    return 1
  | .ok output =>
    let octets := ByteArray.mk output.toArray
    match ← if o.outfile.isEmpty then writeStandard octets else writeFile o.outfile octets with
    | .ok _ => return 0
    | .error e =>
      logError e.message
      return 1

/-- writes to both outputs; the loop goes on even if standard output does not take it all -/
def emit (output : Loop.Output) : IO Unit := do
  IO.eprint output.err
  discard (writeStandard output.out.toUTF8)

/-- the interactive loop on standard input -/
partial def loop (log : Logging) (pending : String) : IO UInt32 := do
  let line ← (← IO.getStdin).getLine
  if line.endsWith "\n" then
    let s := Loop.step log pending (.line (line.dropEnd 1).toString)
    emit s.output
    match s.fault with
    | some f => reportFault f
    | none => loop log s.pending
  else
    let (output, fault) := Loop.finishAfter log pending line
    emit output
    match fault with
    | some f => reportFault f
    | none => return 0

end LetStack.CommandLine

open LetStack LetStack.CommandLine in
def main (args : List String) : IO UInt32 := do
  match parse {} args with
  | .error e =>
    IO.eprint e.message
    return e.exitStatus.toUInt32
  | .ok (o, rest) =>
    match Job.of o rest with
    | .text source => convertAndDeliver o "cmdline" (Utf8.encode source)
    | .file name =>
      match ← readFile name with
      | .ok data => convertAndDeliver o name data
      | .error e =>
        logError e.message
        return 1
    | .interact =>
      emit ⟨greeting, ""⟩
      loop ⟨logHead, o.verbosity⟩ ""
    | .refuse message =>
      logError message
      return 1

/-
Files, as far as the command needs them: a tree of files and directories, reading a whole file and writing one.

A place is given by its way from the current directory: first two dots for each directory to leave, then names. A place
given from the outermost directory starts with a slash instead. A name is followed part by part; every part but the last
must lead to a directory. A single dot stays where it is, and two dots lead to the directory around, which the outermost
directory has not. Of what is not below the current directory nothing is known but what is given, and that the
directories around it are there.

A name may also stand for standard output itself.

To write a file is to open it, which makes or empties it, to hand over the octets, and to close it. `System` says where
this fails although the name is good: a file that is not opened stays as it was, but one that was opened keeps what was
taken before the failure.
-/

namespace LetStack.CommandLine

/-- what a name can stand for -/
inductive FileNode where
  | file (data : List UInt8)
  | directory
  /-- standard output, under a name -/
  | standardOutput
deriving DecidableEq

/-- the files and directories, each by its place -/
abbrev Files := List (List String × FileNode)

/-- why a file cannot be used -/
inductive FileCause where
  | notFound
  | isDirectory
  | notDirectory
  | nameTooLong
  | invalidName
  /-- any other cause, in the words of the system -/
  | system (text : String)
deriving DecidableEq, Repr

def FileCause.text : FileCause → String
  | .notFound => "no such file or directory"
  | .isDirectory => "is a directory"
  | .notDirectory => "not a directory"
  | .nameTooLong => "file name too long"
  | .invalidName => "invalid argument"
  | .system text => text

/-- what failed, with which file, and why -/
structure FileError where
  action : String
  name : String
  cause : FileCause
deriving DecidableEq, Repr

def FileError.message (e : FileError) : String := e.action ++ " " ++ e.name ++ ": " ++ e.cause.text

/-! ## What the system does -/

/-- the most octets that are taken, and what is said when there are more -/
structure Limit where
  room : Nat
  cause : FileCause
deriving DecidableEq, Repr

/-- what is taken of the octets -/
def Limit.taken : Option Limit → List UInt8 → List UInt8
  | none, data => data
  | some limit, data => data.take limit.room

/-- what is said if not all are taken -/
def Limit.failure? : Option Limit → List UInt8 → Option FileCause
  | none, _ => none
  | some limit, data => if limit.room < data.length then some limit.cause else none

/-- where the system fails, for the one file that is read and the one that is written -/
structure System where
  /-- the file to read is not opened -/
  openInput : Option FileCause := none
  /-- it is opened and not read to its end -/
  readInput : Option FileCause := none
  /-- the file to write is not opened -/
  openOutput : Option FileCause := none
  /-- it does not take all octets -/
  outputLimit : Option Limit := none
  /-- it is not closed -/
  closeOutput : Option FileCause := none
  /-- standard output does not take all octets -/
  standardLimit : Option Limit := none
deriving DecidableEq, Repr

/-! ## Names -/

/-- the characters between slashes -/
def betweenSlashes : List Char → List (List Char)
  | [] => [[]]
  | c :: cs =>
    if c = '/' then [] :: betweenSlashes cs
    else
      match betweenSlashes cs with
      | [] => [[c]]
      | part :: rest => (c :: part) :: rest

/-- the parts of a path that say something -/
def parts (name : String) : List String := ((betweenSlashes name.toList).filter (· != [])).map String.ofList

/-- the most octets in a part of a path -/
def maxPart : Nat := 255

/-- the most octets in a whole name -/
def maxName : Nat := 4095

/-- the outermost directory -/
def outermost : List String := ["/"]

/-- the directory around a place -/
def around (place : List String) : List String :=
  match place.getLast? with
  | none => [".."]
  | some last => if last = ".." then place ++ [".."] else if place = outermost then outermost else place.dropLast

/-- where one more part leads -/
def advance (place : List String) (part : String) : Except FileCause (List String) :=
  if part = "." then .ok place
  else if part = ".." then .ok (around place)
  else if maxPart < part.utf8ByteSize then .error .nameTooLong
  else .ok (place ++ [part])

namespace Files

/-- what stands at a place. Whatever holds something is a directory. -/
def node? (fs : Files) (place : List String) : Option FileNode :=
  if place = outermost || place.all (· == "..") then some .directory
  else
    match fs.lookup place with
    | some n => some n
    | none => if fs.any (fun f => place.isPrefixOf f.1) then some .directory else none

/-- follows parts that must all lead to directories -/
def follow (fs : Files) (place : List String) : List String → Except FileCause (List String)
  | [] => .ok place
  | part :: rest => do
    let next ← advance place part
    match fs.node? next with
    | none => .error .notFound
    | some .directory => fs.follow next rest
    | some _ => .error .notDirectory

/-- the directory that the last part of a name is looked for in -/
def directory (fs : Files) (name : String) : Except FileCause (List String) :=
  if '\x00' ∈ name.toList then .error .invalidName
  else if name.isEmpty then .error .notFound
  else if maxName < name.utf8ByteSize then .error .nameTooLong
  else fs.follow (if name.startsWith "/" then outermost else []) (parts name).dropLast

/-- the place that a name leads to -/
def locate (fs : Files) (name : String) : Except FileCause (List String) := do
  let place ← fs.directory name
  match (parts name).getLast? with
  | none => .ok place
  | some part => advance place part

/-- what is opened to be read. A name that ends in a slash must be that of a directory. -/
def opened (fs : Files) (name : String) : Except FileCause FileNode := do
  let place ← fs.locate name
  match fs.node? place with
  | none => .error .notFound
  | some .directory => .ok .directory
  | some n => if name.endsWith "/" then .error .notDirectory else .ok n

/-- the content of a file. A directory has none, and in standard output there is nothing yet. -/
def read (fs : Files) (system : System) (name : String) : Except FileError (List UInt8) :=
  match fs.opened name, system.openInput with
  | .error cause, _ => .error ⟨"open", name, cause⟩
  | .ok _, some cause => .error ⟨"open", name, cause⟩
  | .ok n, none =>
    match n, system.readInput with
    | .directory, _ => .error ⟨"read", name, .isDirectory⟩
    | _, some cause => .error ⟨"read", name, cause⟩
    | .file data, none => .ok data
    | .standardOutput, none => .ok []

/-- where a file of this name is written. A name that ends in a slash can only be that of a directory, and its last part
is not looked at. -/
def target (fs : Files) (name : String) : Except FileCause (List String) :=
  if name.endsWith "/" then do
    let _ ← fs.directory name
    .error .isDirectory
  else do
    let place ← fs.locate name
    match fs.node? place with
    | some .directory => .error .isDirectory
    | _ => .ok place

/-- makes a file, or replaces its content -/
def put (fs : Files) (place : List String) (data : List UInt8) : Files :=
  if (fs.lookup place).isSome then fs.map fun f => if f.1 = place then (place, .file data) else f
  else fs ++ [(place, .file data)]

/-- what an attempt to write leaves behind -/
structure Written where
  files : Files
  /-- what has gone to standard output -/
  out : List UInt8
  error : Option FileError

/-- what goes wrong with a file that was opened to be written -/
def writeError? (system : System) (name : String) (data : List UInt8) : Option FileError :=
  match Limit.failure? system.outputLimit data, system.closeOutput with
  | some cause, _ => some ⟨"write", name, cause⟩
  | none, some cause => some ⟨"close", name, cause⟩
  | none, none => none

/-- creates a file or replaces its content -/
def write (fs : Files) (system : System) (name : String) (data : List UInt8) : Written :=
  match fs.target name, system.openOutput with
  | .error cause, _ => ⟨fs, [], some ⟨"open", name, cause⟩⟩
  | .ok _, some cause => ⟨fs, [], some ⟨"open", name, cause⟩⟩
  | .ok place, none =>
    let taken := Limit.taken system.outputLimit data
    match fs.node? place with
    | some .standardOutput => ⟨fs, taken, writeError? system name data⟩
    | _ => ⟨(fs.put place []).put place taken, [], writeError? system name data⟩

/-- is the place below the current directory? -/
def isBelow (place : List String) : Bool := place.head? != some ".." && place.head? != some "/"

/-- the files below the current directory whose content is not the same in `old` -/
def changedSince (fs old : Files) : List (String × List UInt8) :=
  fs.filterMap fun (place, n) =>
    match n with
    | .file data =>
      if !isBelow place || old.lookup place = some n then none else some ("/".intercalate place, data)
    | _ => none

end Files

end LetStack.CommandLine

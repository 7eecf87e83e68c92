/-
The flags of the command line.

A flag is written with one or two dashes. A flag with a value takes it after an equals sign or from the next argument;
a switch takes one only after an equals sign. The last setting of a flag counts. Flags end at the first other argument,
which a single dash is too, or after a double dash.
-/
import LetStack.Generate.Report
import LetStack.Text.Quoted

namespace LetStack.CommandLine

/-- the settings of the flags -/
structure Options where
  /-- the tree itself, if it is given as an argument -/
  source : String := ""
  /-- the name of the input format -/
  input : String := "json"
  /-- the name of the output format -/
  output : String := "asm"
  /-- the file to write to; standard output if empty -/
  outfile : String := ""
  /-- accepted, without effect here -/
  profile : String := ""
  verbosity : Verbosity := .quiet

/-- why the arguments cannot be used -/
inductive FlagError where
  /-- help was asked for -/
  | help
  | badForm (arg : String)
  | undefined (name : String)
  | noValue (name : String)
  | notBoolean (value name : String)
deriving DecidableEq, Repr

def usage : String :=
  "Usage of foolc:\n"
    ++ "  -c src\n    \tcompile the tree src\n"
    ++ "  -cpuprofile string\n    \tgather Go CPU profile in this file\n"
    ++ "  -disassemble\n    \tshow disassembly of each function as it is compiled\n"
    ++ "  -input string\n    \tinput format (json, text, wire) (default \"json\")\n"
    ++ "  -o file\n    \twrite output to file instead of standard output\n"
    ++ "  -output string\n    \toutput format (asm, json, text, wire) (default \"asm\")\n"
    ++ "  -trace\n    \tshow each syntax node as it is compiled\n"

/-- what is written about the error: its own line, unless help was asked for, and the usage -/
def FlagError.message : FlagError → String
  | .help => usage
  | .badForm arg => "bad flag syntax: " ++ arg ++ "\n" ++ usage
  | .undefined name => "flag provided but not defined: -" ++ name ++ "\n" ++ usage
  | .noValue name => "flag needs an argument: -" ++ name ++ "\n" ++ usage
  | .notBoolean value name =>
    "invalid boolean value " ++ Text.quote value ++ " for -" ++ name ++ ": parse error\n" ++ usage

/-- asking for help is no failure -/
def FlagError.exitStatus : FlagError → Nat
  | .help => 0
  | _ => 2

/-! ## Single flags -/

inductive Flag where
  | source
  | input
  | output
  | outfile
  | profile
  | trace
  | disassemble
deriving DecidableEq, Repr

def Flag.name : Flag → String
  | .source => "c"
  | .input => "input"
  | .output => "output"
  | .outfile => "o"
  | .profile => "cpuprofile"
  | .trace => "trace"
  | .disassemble => "disassemble"

def Flag.ofName? (name : String) : Option Flag :=
  [Flag.source, .input, .output, .outfile, .profile, .trace, .disassemble].find? fun f => f.name = name

def Flag.isSwitch : Flag → Bool
  | .trace | .disassemble => true
  | _ => false

def boolean? (value : String) : Option Bool :=
  if value ∈ ["1", "t", "T", "TRUE", "true", "True"] then some true
  else if value ∈ ["0", "f", "F", "FALSE", "false", "False"] then some false
  else none

/-- sets a flag that has a value -/
def Options.setText (o : Options) (value : String) : Flag → Options
  | .source => { o with source := value }
  | .input => { o with input := value }
  | .output => { o with output := value }
  | .outfile => { o with outfile := value }
  | .profile => { o with profile := value }
  | .trace | .disassemble => o

/-- sets a switch -/
def Options.setSwitch (o : Options) (b : Bool) : Flag → Options
  | .trace => { o with verbosity := { o.verbosity with trace := b } }
  | .disassemble => { o with verbosity := { o.verbosity with disassemble := b } }
  | _ => o

/-- an argument, by its form -/
inductive Form where
  /-- no flag: flags end before it -/
  | plain
  /-- a double dash: flags end after it -/
  | stop
  /-- a flag: the text after its dashes -/
  | flag (text : List Char)

def Form.of (arg : String) : Form :=
  match arg.toList with
  | ['-', '-'] => .stop
  | '-' :: '-' :: text => .flag text
  | '-' :: c :: text => .flag (c :: text)
  | _ => .plain

/-- the name of a flag and the value after an equals sign, if there is one -/
def splitValue (text : List Char) : String × Option String :=
  match text.dropWhile (· != '=') with
  | [] => (String.ofList text, none)
  | _ :: value => (String.ofList (text.takeWhile (· != '=')), some (String.ofList value))

/-! ## All flags -/

/-- reads the flags at the front of the arguments; what follows them is given back -/
def parse (o : Options) : List String → Except FlagError (Options × List String)
  | [] => .ok (o, [])
  | arg :: args =>
    match Form.of arg with
    | .plain => .ok (o, arg :: args)
    | .stop => .ok (o, args)
    | .flag text =>
      if text.head? = some '-' ∨ text.head? = some '=' then .error (.badForm arg)
      else
        let (name, value) := splitValue text
        match Flag.ofName? name, value, args with
        | none, _, _ => .error (if name = "help" ∨ name = "h" then .help else .undefined name)
        | some flag, some value, args =>
          if flag.isSwitch then
            match boolean? value with
            | some b => parse (o.setSwitch b flag) args
            | none => .error (.notBoolean value name)
          else parse (o.setText value flag) args
        | some flag, none, args =>
          if flag.isSwitch then parse (o.setSwitch true flag) args
          else
            match args with
            | [] => .error (.noValue name)
            | value :: args => parse (o.setText value flag) args

end LetStack.CommandLine

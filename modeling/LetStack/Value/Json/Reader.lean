/-
Reading a value from JSON text.

The reader is a machine that takes one token at a time. Its state says what may come next and which objects and lists
are open, each with what has been read of it. A token that may not come next stops it, and so does the colon after a
key that its object has already; `refusal` says what the complaint is. `finish` says what the end of the text means: it
is too early while anything is open.
-/
import LetStack.Value.Basic
import LetStack.Value.Json.Token

namespace LetStack.Json

/-- an open list or object -/
inductive Open where
  /-- a list, the last item first -/
  | list (items : List Value)
  | object (members : Members)
  /-- an object whose member `key` has no value yet -/
  | member (members : Members) (key : String)

/-- what may come next -/
inductive Expects where
  | value
  | valueOrClose
  | key
  | keyOrClose
  /-- the colon after a key that is written so -/
  | colon (spelling : List UInt8)
  | commaOrClose
  /-- the text is complete -/
  | nothing (v : Value)

structure State where
  expects : Expects
  stack : List Open

namespace State

def start : State := ⟨.value, []⟩

/-- a value is complete -/
def place (v : Value) : List Open → Option State
  | [] => some ⟨.nothing v, []⟩
  | .list items :: stack => some ⟨.commaOrClose, .list (v :: items) :: stack⟩
  | .member ms key :: stack => some ⟨.commaOrClose, .object (Members.insert key v ms) :: stack⟩
  | .object _ :: _ => none

/-- a token where a value may start -/
def begin (stack : List Open) : Token → Option State
  | .null => place .null stack
  | .bool b => place (.bool b) stack
  | .number x => place (.number x) stack
  | .string _ s => place (.string s) stack
  | .openObject => some ⟨.keyOrClose, .object [] :: stack⟩
  | .openList => some ⟨.valueOrClose, .list [] :: stack⟩
  | _ => none

/-- a token where a key may stand -/
def beginKey : List Open → Token → Option State
  | .object ms :: stack, .string spelling key => some ⟨.colon spelling, .member ms key :: stack⟩
  | _, _ => none

/-- a token that ends a list or an object -/
def close : List Open → Token → Option State
  | .list items :: stack, .closeList => place (.list items.reverse) stack
  | .object ms :: stack, .closeObject => place (.object ms) stack
  | _, _ => none

/-- a token after a complete member or item -/
def proceed : List Open → Token → Option State
  | .list items :: stack, .comma => some ⟨.value, .list items :: stack⟩
  | .object ms :: stack, .comma => some ⟨.key, .object ms :: stack⟩
  | stack, t => close stack t

/-- the state after one token, if the token may come here -/
def next? (s : State) (t : Token) : Option State :=
  match s.expects with
  | .value => begin s.stack t
  | .valueOrClose => close s.stack t <|> begin s.stack t
  | .key => beginKey s.stack t
  | .keyOrClose => close s.stack t <|> beginKey s.stack t
  | .colon _ =>
    match s.stack, t with
    | .member ms key :: stack, .colon => if ms.contains key then none else some ⟨.value, .member ms key :: stack⟩
    | _, _ => none
  | .commaOrClose => proceed s.stack t
  | .nothing _ => none

/-- the complaint about a token that may not come here: a string is quoted, and after the colon of a repeated key the
key. Where a colon is missing, what stands there instead is not looked at. -/
def refusal (s : State) (t : Token) : Fault :=
  match s.expects, t with
  | .colon spelling, .colon => .unwanted spelling
  | .colon _, _ => .malformed
  | _, .string spelling _ => .unwanted spelling
  | _, _ => .malformed

/-- one token -/
def step (s : State) (t : Token) : Except Fault State :=
  match s.next? t with
  | some s' => .ok s'
  | none => .error (s.refusal t)

/-- what is left of the text is `fault`, or nothing. After a key only a colon is looked for, so there a fault in what
stands instead does not count. -/
def finish (s : State) (fault : Option Fault) : Except Fault Value :=
  match s.expects, fault with
  | .nothing v, none => .ok v
  | .colon _, some _ => .error .malformed
  | _, some f => .error f
  | _, none => if s.stack.isEmpty then .error .malformed else .error .truncated

end State

/-- the value that a JSON text spells, or the first fault -/
def read (text : List UInt8) : Except Fault Value :=
  let (tokens, fault) := Token.scan text
  match tokens.foldlM State.step State.start with
  | .error f => .error f
  | .ok s => s.finish fault

end LetStack.Json

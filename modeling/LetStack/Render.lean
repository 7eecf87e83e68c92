/-
What is shown of a tree: its code, or the tree itself in one of the exchange formats.
-/
import LetStack.Exchange.Format
import LetStack.Generate.Report

namespace LetStack

/-- the output of this name for a tree: `asm` is the listing, any other name an exchange format. With `bold` the labels
of a listing stand out. -/
def Root.render (output : String) (bold : Bool) (r : Root) : Except Stop (List UInt8) :=
  if output = "asm" then
    match r.compile with
    | .ok p => .ok (Utf8.encode (p.code.display bold))
    | .error f => .error (.fault f)
  else
    match Format.parseOption "-output" output with
    | .ok f => r.encode f
    | .error failure => .error (.failure failure)

/-- what is logged on the way: only a compilation logs -/
def Root.renderLog (head : String) (v : Verbosity) (output : String) (r : Root) : String :=
  if output = "asm" then r.log head v else ""

end LetStack

/-
Phrases in messages.

Whether a complaint is about input that was cut off is read off its text: it holds one of two phrases. A complaint that
quotes a piece of the input holds what that piece holds, so there the input itself can make it sound that way.
-/
import LetStack.Text.Utf8

namespace LetStack.Text

/-- does `pattern` occur in the octets? -/
def occursIn (pattern : List UInt8) : List UInt8 → Bool
  | [] => pattern.isEmpty
  | b :: bs => pattern.isPrefixOf (b :: bs) || occursIn pattern bs

/-- what is said of text that ends too early, and of a string that a line ends in -/
def cutOffPhrases : List String := ["unexpected EOF", "invalid character '\\n' in string"]

/-- does the message hold one of the phrases? -/
def soundsCutOff (message : List UInt8) : Bool :=
  cutOffPhrases.any fun phrase => occursIn (Utf8.encode phrase) message

end LetStack.Text

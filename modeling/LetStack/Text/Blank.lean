/-
White space, and texts that hold nothing else.
-/

namespace LetStack.Text

/-- the 25 characters with the White_Space property -/
def isBlank (c : Char) : Bool :=
  let n := c.toNat
  (9 ≤ n && n ≤ 13) || n == 0x20 || n == 0x85 || n == 0xA0 || n == 0x1680 || (0x2000 ≤ n && n ≤ 0x200A)
    || n == 0x2028 || n == 0x2029 || n == 0x202F || n == 0x205F || n == 0x3000

/-- is there nothing but white space? -/
def isBlankText (s : String) : Bool := s.toList.all isBlank

end LetStack.Text

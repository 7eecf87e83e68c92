/-
Octets of ASCII text: character classes, digits, and the parts of numbers and escapes that the text formats share.

A reader takes an octet sequence and gives what it read together with the rest. The lemmas say that the rest is no
longer than the whole, which is what ends the loops built from these readers.
-/

namespace LetStack.Octet

/-! ## Octet classes -/

/-- the octet of an ASCII character -/
def octet (c : Char) : UInt8 := c.toNat.toUInt8

def isSpace (b : UInt8) : Bool := b == octet ' ' || b == octet '\n' || b == octet '\r' || b == octet '\t'

def isDigit (b : UInt8) : Bool := 48 ≤ b.toNat && b.toNat ≤ 57

def isLetter (b : UInt8) : Bool := (65 ≤ b.toNat && b.toNat ≤ 90) || (97 ≤ b.toNat && b.toNat ≤ 122)

/-- octets that may not follow a word or a number directly -/
def joins (b : UInt8) : Bool :=
  isDigit b || isLetter b || b == octet '-' || b == octet '+' || b == octet '.' || b == octet '_'

/-- does the text go on with an octet that ends a word or a number? -/
def ends : List UInt8 → Bool
  | [] => true
  | b :: _ => !joins b

def hexValue? (b : UInt8) : Option Nat :=
  let x := b.toNat
  if 48 ≤ x ∧ x ≤ 57 then some (x - 48)
  else if 65 ≤ x ∧ x ≤ 70 then some (x - 55)
  else if 97 ≤ x ∧ x ≤ 102 then some (x - 87)
  else none

/-- the number that digits of base 16 spell, if all are digits of it -/
def hexNumber? (bs : List UInt8) : Option Nat :=
  bs.foldlM (fun acc b => (hexValue? b).map (acc * 16 + ·)) 0

/-! ## Surrogate pairs -/

/-- the character of a pair of UTF-16 units -/
def surrogatePair? (high low : Nat) : Option Char :=
  if 0xD800 ≤ high ∧ high < 0xDC00 ∧ 0xDC00 ≤ low ∧ low < 0xE000 then
    some (Char.ofNat (0x10000 + (high - 0xD800) * 0x400 + (low - 0xDC00)))
  else none

/-! ## Decimal numbers -/

/-- the number that decimal digits spell -/
def decimalValue (ds : List UInt8) : Nat := ds.foldl (fun acc b => acc * 10 + (b.toNat - 48)) 0

/-- the size of an exponent. It counts up to its fifth significant digit: far fewer take a number of ordinary length out
of range. -/
def exponentSize (ds : List UInt8) : Nat :=
  ds.foldl (fun acc b => if acc < 10000 then acc * 10 + (b.toNat - 48) else acc) 0

/-- an optional minus sign -/
def minus : List UInt8 → Bool × List UInt8
  | [] => (false, [])
  | b :: rest => if b == octet '-' then (true, rest) else (false, b :: rest)

/-- the exponent of a number, after the letter e: an optional sign and at least one digit -/
def exponent? (bs : List UInt8) : Option (Int × List UInt8) :=
  let (negative, unsigned) :=
    match bs with
    | [] => (false, [])
    | b :: rest =>
      if b == octet '-' then (true, rest) else if b == octet '+' then (false, rest) else (false, b :: rest)
  let ds := unsigned.takeWhile isDigit
  if ds.isEmpty then none
  else some (if negative then -(exponentSize ds : Int) else exponentSize ds, unsigned.dropWhile isDigit)

/-! ## Lengths -/

theorem length_dropWhile_le (p : UInt8 → Bool) (bs : List UInt8) : (bs.dropWhile p).length ≤ bs.length :=
  (List.dropWhile_sublist p).length_le

theorem minus_length (bs : List UInt8) : (minus bs).2.length ≤ bs.length := by
  unfold minus
  split
  · simp
  · split <;> simp

theorem exponent?_length {bs rest : List UInt8} {n : Int} (h : exponent? bs = some (n, rest)) :
    rest.length ≤ bs.length := by
  unfold exponent? at h
  split at h
  next negative unsigned hu =>
  have hle : unsigned.length ≤ bs.length := by
    split at hu
    · simp_all
    · split at hu
      · simp_all
      · split at hu <;> simp_all
  dsimp only at h
  split at h
  · cases h
  · simp only [Option.some.injEq, Prod.mk.injEq] at h
    rw [← h.2]
    exact Nat.le_trans (length_dropWhile_le _ _) hle

theorem length_dropWhile_lt {p : UInt8 → Bool} {bs : List UInt8} (h : (bs.takeWhile p).isEmpty = false) :
    (bs.dropWhile p).length < bs.length := by
  have hsum := congrArg List.length (List.takeWhile_append_dropWhile (p := p) (l := bs))
  simp only [List.length_append] at hsum
  have hpos : 0 < (bs.takeWhile p).length := by
    cases hw : bs.takeWhile p with
    | nil => simp [hw] at h
    | cons b rest => simp
  omega

end LetStack.Octet

/-
Binary floating-point numbers of 64 bits, in exact integer arithmetic.

A number is a sign and a magnitude below 2^63: the exponent field times 2^52 plus the fraction field. Magnitudes are
ordered as the values are, and the step from the largest fraction to the next exponent is the step to the next
magnitude, so rounding needs no case for a carry. The value of a finite number is `significand` times 2 to the power
`exponent`.

`nearest` rounds a quotient of natural numbers to the nearest number, a tie to the even one; values beyond the largest
number become infinite. It serves both the conversion of integers and the reading of decimals.
-/

namespace LetStack

-- powers are those of the core library, whatever else is imported; so exponents have their type below
attribute [local instance (2000)] instPowNat

structure Binary64 where
  negative : Bool
  magnitude : Nat
  magnitude_lt : magnitude < 2 ^ (63 : Nat)
deriving DecidableEq

namespace Binary64

/-- the magnitude of the two infinities; larger ones are no numbers -/
def infinite : Nat := 2047 * 2 ^ (52 : Nat)

def isNaN (x : Binary64) : Bool := infinite < x.magnitude

def isInfinite (x : Binary64) : Bool := x.magnitude == infinite

def isFinite (x : Binary64) : Bool := x.magnitude < infinite

def nan : Binary64 := ⟨false, infinite + 2 ^ (51 : Nat), by decide⟩

def infinity (negative : Bool) : Binary64 := ⟨negative, infinite, by decide⟩

def zero (negative : Bool) : Binary64 := ⟨negative, 0, by decide⟩

/-! ## Value -/

/-- the integer part of the value's scale: below 2^53, and at least 2^52 unless the exponent is the least -/
def significand (x : Binary64) : Nat :=
  if x.magnitude < 2 ^ (52 : Nat) then x.magnitude else x.magnitude % 2 ^ (52 : Nat) + 2 ^ (52 : Nat)

/-- the power of two that scales the significand, at least -1074 -/
def exponent (x : Binary64) : Int := max (x.magnitude / 2 ^ (52 : Nat) : Nat) 1 - 1075

/-- the absolute value of a finite number as a quotient: numerator and denominator -/
def ratio (x : Binary64) : Nat × Nat :=
  (x.significand * 2 ^ x.exponent.toNat, 2 ^ (-x.exponent).toNat)

/-- the value, if the number is finite and integral -/
def toInt? (x : Binary64) : Option Int :=
  let (num, den) := x.ratio
  if x.isFinite && num % den == 0 then
    some (if x.negative then -((num / den : Nat) : Int) else (num / den : Nat))
  else none

/-! ## Rounding -/

/-- the quotient rounded to the nearest integer, a tie to the even one -/
def roundedQuotient (num den : Nat) : Nat :=
  let q := num / den
  let r := num % den
  if 2 * r < den then q
  else if den < 2 * r then q + 1
  else if q % 2 = 0 then q
  else q + 1

/-- the integer `k` with 2^k ≤ num/den < 2^(k+1), for positive arguments -/
def floorLog2 (num den : Nat) : Int :=
  let k : Int := (Nat.log2 num : Int) - Nat.log2 den
  if num * 2 ^ (-k).toNat < den * 2 ^ k.toNat then k - 1 else k

/-- the number nearest to num/den, a tie to the even one -/
def nearest (negative : Bool) (num den : Nat) : Binary64 :=
  if num = 0 then zero negative
  else
    let scale := max (floorLog2 num den - 52) (-1074)
    let steps := roundedQuotient (num * 2 ^ (-scale).toNat) (den * 2 ^ scale.toNat)
    let magnitude := (scale + 1074).toNat * 2 ^ (52 : Nat) + steps
    ⟨negative, min magnitude infinite, by unfold infinite; omega⟩

/-- the number nearest to an integer -/
def ofInt (n : Int) : Binary64 := nearest (n < 0) n.natAbs 1

/-! ## Bits -/

/-- the number whose 64 bits spell `n` -/
def ofBits (n : Nat) : Binary64 :=
  ⟨2 ^ (63 : Nat) ≤ n % 2 ^ (64 : Nat), n % 2 ^ (63 : Nat), Nat.mod_lt _ (by decide)⟩

/-- the 64 bits, as a natural number below 2^64 -/
def toBits (x : Binary64) : Nat := (if x.negative then 2 ^ (63 : Nat) else 0) + x.magnitude

end Binary64

end LetStack

/-
Decimals: reading them as binary64 numbers, and the shortest one that reads back.

A decimal is a sign, a natural number and a power of ten. `Decimal.toBinary64` rounds it to the nearest binary64
number. `Binary64.shortest` goes the other way: of the decimals that read back as the given number it takes one with
the fewest digits, and of those the nearest, a tie to the even digit. It looks at the two neighbours of the value on the
grid of one digit, of two digits, and so on; 17 digits always suffice.

The text of a decimal is positional (`0.0001`) or scientific (`1e-05`); which one is the choice of each format.
-/
import LetStack.Number.Binary64

namespace LetStack

-- powers are those of the core library, whatever else is imported; so exponents have their type below
attribute [local instance (2000)] instPowNat

structure Decimal where
  negative : Bool
  digits : Nat
  exponent : Int
deriving DecidableEq

namespace Decimal

/-- the nearest binary64 number. Exponents far out of range are decided without computing the power. -/
def toBinary64 (d : Decimal) : Binary64 :=
  if d.digits = 0 then Binary64.zero d.negative
  else if 400 < d.exponent then Binary64.infinity d.negative
  else if d.exponent < -(400 + Nat.log2 d.digits : Int) then Binary64.zero d.negative
  else Binary64.nearest d.negative (d.digits * 10 ^ d.exponent.toNat) (10 ^ (-d.exponent).toNat)

/-- the significant digits, first to last, and the power of ten of the first one -/
def scientificParts (d : Decimal) : List Char × Int :=
  if d.digits = 0 then (['0'], 0)
  else
    let all := Nat.toDigits 10 d.digits
    ((all.reverse.dropWhile (· == '0')).reverse, d.exponent + all.length - 1)

end Decimal

namespace Binary64

/-- the number of digits of `n` in base ten -/
def digitCount (n : Nat) : Nat := (Nat.toDigits 10 n).length

/-- the power of ten of the first significant digit of num/den, which is at least 10^-340 -/
def leadingPower (num den : Nat) : Int := (digitCount (num * 10 ^ (340 : Nat) / den) : Int) - 341

/-- the two neighbours of num/den on the grid of multiples of 10^e, the nearer one first, a tie to the even one -/
def neighbours (negative : Bool) (num den : Nat) (e : Int) : List Decimal :=
  let scaled := num * 10 ^ (-e).toNat
  let unit := den * 10 ^ e.toNat
  let below := scaled / unit
  let near := roundedQuotient scaled unit
  let far := if near = below then below + 1 else below
  [⟨negative, near, e⟩, ⟨negative, far, e⟩]

/-- the exact decimal value of a finite number -/
def exactDecimal (x : Binary64) : Decimal :=
  ⟨x.negative, x.significand * 2 ^ x.exponent.toNat * 5 ^ (-x.exponent).toNat, min x.exponent 0⟩

/-- the shortest decimal that reads back as the finite number `x` -/
def shortest (x : Binary64) : Decimal :=
  if x.magnitude = 0 then ⟨x.negative, 0, 0⟩
  else
    let (num, den) := x.ratio
    let top := leadingPower num den
    let candidates := (List.range 17).flatMap fun (n : Nat) => neighbours x.negative num den (top - n)
    (candidates.find? fun d => d.toBinary64 = x).getD (exactDecimal x)

end Binary64

namespace Decimal

def sign (d : Decimal) : List Char := if d.negative then ['-'] else []

/-- written without an exponent -/
def positional (d : Decimal) : List Char :=
  let (ds, power) := d.scientificParts
  let body :=
    if power < 0 then '0' :: '.' :: (List.replicate (-power - 1).toNat '0' ++ ds)
    else
      let whole := ds.take (power + 1).toNat
      let fraction := ds.drop (power + 1).toNat
      let padded := whole ++ List.replicate ((power + 1).toNat - whole.length) '0'
      if fraction.isEmpty then padded else padded ++ '.' :: fraction
  d.sign ++ body

/-- the exponent of the scientific form: its sign and at least `width` digits -/
def exponentPart (width : Nat) (power : Int) : List Char :=
  let ds := Nat.toDigits 10 power.natAbs
  (if power < 0 then '-' else '+') :: (List.replicate (width - ds.length) '0' ++ ds)

/-- written as d.ddd, the letter e and an exponent of at least `width` digits -/
def scientific (width : Nat) (d : Decimal) : List Char :=
  let (ds, power) := d.scientificParts
  let body :=
    match ds with
    | [] => []
    | [first] => [first]
    | first :: more => first :: '.' :: more
  d.sign ++ body ++ 'e' :: exponentPart width power

/-- the common form: scientific, with at least two digits of exponent, if the first digit stands for less than 10^-4 or
for more than 10^5 -/
def general (d : Decimal) : List Char :=
  let power := d.scientificParts.2
  if power < -4 ∨ 5 < power then d.scientific 2 else d.positional

end Decimal

/-- the common text of a number in messages -/
def Binary64.text (x : Binary64) : String :=
  if x.isNaN then "NaN"
  else if x.isInfinite then (if x.negative then "-Inf" else "+Inf")
  else String.ofList x.shortest.general

end LetStack

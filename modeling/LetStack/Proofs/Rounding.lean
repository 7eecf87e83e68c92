/-
Integers as binary floating-point numbers.

An integer below 2^53 in magnitude is a number exactly. A larger one is rounded to 53 binary digits, and so is not
always what it was; but rounding does not lead below 2^53, so a bound of 2^53 - 1 on what is read back keeps apart the
integers that were written exactly from those that were not.

Results:
- `toInt?_ofInt`: an integer below 2^53 in magnitude comes back;
- `le_toInt?_ofInt`: one that is not below 2^53 comes back as an integer that is not below 2^53.
-/
import LetStack.Number.Binary64
import Mathlib.Tactic

namespace LetStack.Binary64

/-! ## Rounded quotients -/

theorem le_roundedQuotient (num den : Nat) : num / den ≤ roundedQuotient num den := by
  unfold roundedQuotient
  dsimp only
  split_ifs <;> omega

theorem roundedQuotient_le (num den : Nat) : roundedQuotient num den ≤ num / den + 1 := by
  unfold roundedQuotient
  dsimp only
  split_ifs <;> omega

theorem roundedQuotient_one (num : Nat) : roundedQuotient num 1 = num := by
  unfold roundedQuotient
  rw [Nat.mod_one, if_pos (by omega), Nat.div_one]

/-! ## The number nearest to a natural number -/

theorem floorLog2_one {n : Nat} (hn : n ≠ 0) : floorLog2 n 1 = n.log2 := by
  have hle := Nat.log2_self_le hn
  have hone : Nat.log2 1 = 0 := by decide
  unfold floorLog2
  rw [if_neg]
  · simp [hone]
  · simpa [hone] using hle

/-- a positive natural number in units of its last binary digit, rounded to 53 digits -/
def steps (n : Nat) : Nat := roundedQuotient (n * 2 ^ (52 - n.log2)) (2 ^ (n.log2 - 52))

theorem steps_bounds {n : Nat} (hn : n ≠ 0) : 2 ^ 52 ≤ steps n ∧ steps n ≤ 2 ^ 53 := by
  have hpos : 0 < 2 ^ (n.log2 - 52) := Nat.two_pow_pos _
  -- the exact quotient has 53 digits, whichever of the two powers is 1
  have hlower : 2 ^ 52 ≤ n * 2 ^ (52 - n.log2) / 2 ^ (n.log2 - 52) := by
    rw [Nat.le_div_iff_mul_le hpos, ← Nat.pow_add]
    calc 2 ^ (52 + (n.log2 - 52)) = 2 ^ n.log2 * 2 ^ (52 - n.log2) := by rw [← Nat.pow_add]; congr 1; omega
      _ ≤ n * 2 ^ (52 - n.log2) := Nat.mul_le_mul_right _ (Nat.log2_self_le hn)
  have hupper : n * 2 ^ (52 - n.log2) / 2 ^ (n.log2 - 52) < 2 ^ 53 := by
    rw [Nat.div_lt_iff_lt_mul hpos, ← Nat.pow_add]
    calc n * 2 ^ (52 - n.log2) < 2 ^ (n.log2 + 1) * 2 ^ (52 - n.log2) :=
          Nat.mul_lt_mul_of_pos_right Nat.lt_log2_self (Nat.two_pow_pos _)
      _ = 2 ^ (53 + (n.log2 - 52)) := by rw [← Nat.pow_add]; congr 1; omega
  have h1 := le_roundedQuotient (n * 2 ^ (52 - n.log2)) (2 ^ (n.log2 - 52))
  have h2 := roundedQuotient_le (n * 2 ^ (52 - n.log2)) (2 ^ (n.log2 - 52))
  unfold steps
  omega

theorem magnitude_nearest (negative : Bool) {n : Nat} (hn : n ≠ 0) (hlog : n.log2 < 64) :
    (nearest negative n 1).magnitude = (n.log2 + 1022) * 2 ^ 52 + steps n := by
  have hscale : max (floorLog2 n 1 - 52) (-1074) = (n.log2 : Int) - 52 := by
    rw [floorLog2_one hn]
    omega
  have hdown : (-((n.log2 : Int) - 52)).toNat = 52 - n.log2 := by omega
  have hup : ((n.log2 : Int) - 52).toNat = n.log2 - 52 := by omega
  have hbase : ((n.log2 : Int) - 52 + 1074).toNat = n.log2 + 1022 := by omega
  have hsteps := (steps_bounds hn).2
  rw [nearest, if_neg hn]
  dsimp only
  rw [hscale, hdown, hup, hbase, Nat.one_mul, ← steps]
  exact Nat.min_eq_left (by unfold infinite; omega)

theorem isFinite_nearest (negative : Bool) {n : Nat} (hn : n ≠ 0) (hlog : n.log2 < 64) :
    (nearest negative n 1).isFinite = true := by
  have hsteps := (steps_bounds hn).2
  rw [isFinite, magnitude_nearest negative hn hlog, infinite]
  exact decide_eq_true (by omega)

/-- the value is as many units as `steps` says; if that carries into a 54th digit, the unit doubles -/
theorem significand_nearest (negative : Bool) {n : Nat} (hn : n ≠ 0) (hlog : n.log2 < 64) :
    (steps n < 2 ^ 53 ∧ (nearest negative n 1).significand = steps n ∧
      (nearest negative n 1).exponent = (n.log2 : Int) - 52) ∨
    (steps n = 2 ^ 53 ∧ (nearest negative n 1).significand = 2 ^ 52 ∧
      (nearest negative n 1).exponent = (n.log2 : Int) - 51) := by
  obtain ⟨hlower, hupper⟩ := steps_bounds hn
  unfold significand exponent
  rw [magnitude_nearest negative hn hlog]
  rcases Nat.lt_or_eq_of_le hupper with hlt | heq
  · refine .inl ⟨hlt, ?_, ?_⟩
    · rw [if_neg (by omega)]
      omega
    · have hfield : ((n.log2 + 1022) * 2 ^ 52 + steps n) / 2 ^ 52 = n.log2 + 1023 := by omega
      rw [hfield]
      omega
  · refine .inr ⟨heq, ?_, ?_⟩
    · rw [if_neg (by omega)]
      omega
    · have hfield : ((n.log2 + 1022) * 2 ^ 52 + steps n) / 2 ^ 52 = n.log2 + 1024 := by omega
      rw [hfield]
      omega

/-! ## Integers there and back -/

/-- the value of a finite number whose quotient comes out even -/
theorem toInt?_eq {x : Binary64} {k : Nat} (hx : x.isFinite = true) (hk : x.ratio.1 = k * x.ratio.2) :
    x.toInt? = some (if x.negative then -(k : Int) else k) := by
  have hpos : 0 < x.ratio.2 := Nat.two_pow_pos _
  unfold toInt?
  rcases hratio : x.ratio with ⟨num, den⟩
  rw [hratio] at hk hpos
  dsimp only at hk hpos ⊢
  rw [hx, hk, Nat.mul_mod_left, Nat.mul_div_cancel k hpos]
  rfl

/-- only a finite number has a value -/
theorem isInfinite_of_toInt? {x : Binary64} {n : Int} (h : x.toInt? = some n) : x.isInfinite = false := by
  have hfinite : x.isFinite = true := by
    by_contra hx
    simp [toInt?, hx] at h
  exact beq_false_of_ne (Nat.ne_of_lt (of_decide_eq_true hfinite))

theorem steps_of_lt {n : Nat} (hn : n < 2 ^ 53) : steps n = n * 2 ^ (52 - n.log2) := by
  have hlog : n.log2 ≤ 52 := by
    by_cases h0 : n = 0
    · rw [h0]
      decide
    · have := (Nat.log2_lt h0).2 hn
      omega
  rw [steps, Nat.sub_eq_zero_of_le hlog, Nat.pow_zero, roundedQuotient_one]

theorem ratio_nearest_of_lt (negative : Bool) {n : Nat} (hn : n ≠ 0) (hlt : n < 2 ^ 53) :
    (nearest negative n 1).ratio.1 = n * (nearest negative n 1).ratio.2 := by
  have hlog : n.log2 < 53 := (Nat.log2_lt hn).2 hlt
  have hsteps : steps n < 2 ^ 53 := by
    rw [steps_of_lt hlt]
    calc n * 2 ^ (52 - n.log2) < 2 ^ (n.log2 + 1) * 2 ^ (52 - n.log2) :=
          Nat.mul_lt_mul_of_pos_right Nat.lt_log2_self (Nat.two_pow_pos _)
      _ = 2 ^ 53 := by rw [← Nat.pow_add]; congr 1; omega
  rcases significand_nearest negative hn (by omega) with ⟨-, hsig, hexp⟩ | ⟨heq, -, -⟩
  · have hup : ((n.log2 : Int) - 52).toNat = 0 := by omega
    have hdown : (-((n.log2 : Int) - 52)).toNat = 52 - n.log2 := by omega
    rw [ratio, hsig, hexp, hup, hdown, Nat.pow_zero, Nat.mul_one, steps_of_lt hlt]
  · omega

/-- a rounded number that needs more than 53 digits is a multiple of its unit, and not below 2^53 -/
theorem ratio_nearest_of_le (negative : Bool) {n : Nat} (hle : 2 ^ 53 ≤ n) (hlog : n.log2 < 64) :
    ∃ k, 2 ^ 53 ≤ k ∧ (nearest negative n 1).ratio.1 = k * (nearest negative n 1).ratio.2 := by
  have hn : n ≠ 0 := by omega
  have h53 : 53 ≤ n.log2 := (Nat.le_log2 hn).2 hle
  obtain ⟨hsig, hexp⟩ : 2 ^ 52 ≤ (nearest negative n 1).significand ∧ 1 ≤ (nearest negative n 1).exponent := by
    have hsteps := (steps_bounds hn).1
    rcases significand_nearest negative hn hlog with ⟨-, hsig, hexp⟩ | ⟨-, hsig, hexp⟩ <;> omega
  refine ⟨(nearest negative n 1).ratio.1, ?_, ?_⟩
  · calc 2 ^ 53 = 2 ^ 52 * 2 ^ 1 := by norm_num
      _ ≤ (nearest negative n 1).significand * 2 ^ (nearest negative n 1).exponent.toNat :=
        Nat.mul_le_mul hsig (Nat.pow_le_pow_right (by decide) (by omega))
  · have hden : (-(nearest negative n 1).exponent).toNat = 0 := by omega
    rw [ratio, hden, Nat.pow_zero, Nat.mul_one]

variable {n : Int}

theorem isFinite_ofInt (h : n.natAbs < 2 ^ 64) : (ofInt n).isFinite = true := by
  by_cases h0 : n = 0
  · rw [h0]
    decide
  · have hn : n.natAbs ≠ 0 := Int.natAbs_ne_zero.2 h0
    exact isFinite_nearest _ hn ((Nat.log2_lt hn).2 h)

/-- **Exact.** An integer below 2^53 in magnitude comes back from the number it becomes. -/
theorem toInt?_ofInt (h : n.natAbs < 2 ^ 53) : (ofInt n).toInt? = some n := by
  have hfinite := isFinite_ofInt (n := n) (by omega)
  by_cases h0 : n = 0
  · subst h0
    have hratio : (ofInt 0).ratio.1 = 0 * (ofInt 0).ratio.2 := by
      rw [Nat.zero_mul]
      exact Nat.zero_mul _
    rw [toInt?_eq hfinite hratio]
    rfl
  · have hn : n.natAbs ≠ 0 := Int.natAbs_ne_zero.2 h0
    rw [toInt?_eq hfinite (ratio_nearest_of_lt _ hn h)]
    simp only [ofInt, nearest, if_neg hn, decide_eq_true_eq, Option.some.injEq]
    split_ifs <;> omega

/-- **Inexact.** A larger integer comes back, if at all as it was, as one that is not below 2^53. -/
theorem le_toInt?_ofInt (hle : 2 ^ 53 ≤ n.natAbs) (h : n.natAbs < 2 ^ 64) :
    ∃ k : Int, (ofInt n).toInt? = some k ∧ 2 ^ 53 ≤ k.natAbs := by
  have hn : n.natAbs ≠ 0 := by omega
  obtain ⟨k, hk, hratio⟩ := ratio_nearest_of_le (n < 0) hle ((Nat.log2_lt hn).2 h)
  refine ⟨_, toInt?_eq (isFinite_ofInt h) hratio, ?_⟩
  split_ifs <;> omega

end LetStack.Binary64

/-
Rounding as a function of the exact value.

A finite number has a rational value, and a decimal has one too. Rounding is defined on quotients of natural numbers,
but two ways to write one quotient round alike, so what a decimal is read as depends on its value only, however many
zeros it is written with. A number is the nearest to its own value; so the shortest decimal of a finite number, whether
it was found by trying or is the exact value written out, is read as that number.

Results:
- `toInt?_eq_some_iff`: the integer of a number is its value;
- `Decimal.toBinary64_congr`: decimals of one value are read alike;
- `toBinary64_shortest`: the shortest decimal of a finite number is read as the number.
-/
import LetStack.Number.Decimal
import LetStack.Proofs.Rounding
import Mathlib.Data.Int.Log

namespace LetStack

namespace Binary64

/-! ## The exact value -/

/-- the absolute value of a finite number -/
def absolute (x : Binary64) : ℚ := x.significand * 2 ^ x.exponent

/-- the value of a finite number -/
def value (x : Binary64) : ℚ := if x.negative then -x.absolute else x.absolute

/-- a power with an exponent of either sign as a quotient of powers -/
theorem zpow_eq_div (b : ℕ) (hb : b ≠ 0) (e : ℤ) : (b : ℚ) ^ e = (b ^ e.toNat : ℕ) / (b ^ (-e).toNat : ℕ) := by
  have hb' : (b : ℚ) ≠ 0 := Nat.cast_ne_zero.2 hb
  rw [Nat.cast_pow, Nat.cast_pow, ← zpow_natCast, ← zpow_natCast, ← zpow_sub₀ hb']
  congr 1
  omega

theorem absolute_eq_ratio (x : Binary64) : x.absolute = (x.ratio.1 : ℚ) / x.ratio.2 := by
  have h := zpow_eq_div 2 (by decide) x.exponent
  rw [Nat.cast_ofNat] at h
  rw [absolute, h, ratio, Nat.cast_mul, mul_div_assoc]

theorem ratio_pos (x : Binary64) : 0 < x.ratio.2 := Nat.two_pow_pos _

/-- the absolute value is a natural number if the quotient comes out even -/
theorem absolute_eq_natCast_iff (x : Binary64) (k : ℕ) : x.absolute = k ↔ x.ratio.1 = k * x.ratio.2 := by
  have hpos : (x.ratio.2 : ℚ) ≠ 0 := Nat.cast_ne_zero.2 x.ratio_pos.ne'
  rw [absolute_eq_ratio, div_eq_iff hpos]
  exact_mod_cast Iff.rfl

theorem absolute_nonneg (x : Binary64) : 0 ≤ x.absolute := by
  unfold absolute
  positivity

theorem value_eq_intCast_iff (x : Binary64) (n : ℤ) :
    x.value = n ↔ ∃ k : ℕ, x.absolute = k ∧ n = if x.negative then -(k : ℤ) else k := by
  have hnonneg := x.absolute_nonneg
  unfold value
  constructor
  · intro h
    split_ifs at h with hs
    · have hn : n ≤ 0 := by
        have : (n : ℚ) ≤ 0 := by linarith
        exact_mod_cast this
      obtain ⟨k, hk⟩ := Int.eq_ofNat_of_zero_le (Int.neg_nonneg.2 hn)
      refine ⟨k, ?_, by rw [if_pos hs]; omega⟩
      have : (k : ℚ) = -n := by exact_mod_cast hk.symm
      linarith
    · have hn : 0 ≤ n := by
        have : (0 : ℚ) ≤ n := by linarith
        exact_mod_cast this
      obtain ⟨k, rfl⟩ := Int.eq_ofNat_of_zero_le hn
      exact ⟨k, by exact_mod_cast h, by rw [if_neg hs]⟩
  · rintro ⟨k, hk, rfl⟩
    rw [hk]
    split_ifs <;> push_cast <;> rfl

/-- **Integers.** A number reads as an integer exactly if it is finite and that is its value. -/
theorem toInt?_eq_some_iff (x : Binary64) (n : ℤ) : x.toInt? = some n ↔ x.isFinite = true ∧ x.value = n := by
  rw [value_eq_intCast_iff]
  constructor
  · intro h
    unfold toInt? at h
    rcases hratio : x.ratio with ⟨num, den⟩
    rw [hratio] at h
    dsimp only at h
    rw [Option.ite_none_right_eq_some, Bool.and_eq_true, beq_iff_eq] at h
    obtain ⟨⟨hfinite, hmod⟩, h⟩ := h
    refine ⟨hfinite, num / den, ?_, (Option.some.inj h).symm⟩
    rw [absolute_eq_natCast_iff, hratio]
    exact (Nat.div_mul_cancel (Nat.dvd_of_mod_eq_zero hmod)).symm
  · rintro ⟨hfinite, k, hk, rfl⟩
    exact toInt?_eq hfinite ((x.absolute_eq_natCast_iff k).1 hk)

/-! ## Rounding a quotient -/

/-- the power of two below a quotient -/
theorem floorLog2_eq_log {num den : ℕ} (hnum : num ≠ 0) (hden : den ≠ 0) :
    floorLog2 num den = Int.log 2 ((num : ℚ) / den) := by
  have hden' : (0 : ℚ) < den := by exact_mod_cast Nat.pos_of_ne_zero hden
  have hpos : (0 : ℚ) < num / den := by positivity
  have hnum1 : (2 : ℚ) ^ num.log2 ≤ num := by exact_mod_cast Nat.log2_self_le hnum
  have hnum2 : (num : ℚ) < 2 ^ (num.log2 + 1) := by exact_mod_cast Nat.lt_log2_self (n := num)
  have hden1 : (2 : ℚ) ^ den.log2 ≤ den := by exact_mod_cast Nat.log2_self_le hden
  have hden2 : (den : ℚ) < 2 ^ (den.log2 + 1) := by exact_mod_cast Nat.lt_log2_self (n := den)
  have hlower : (2 : ℚ) ^ ((num.log2 : ℤ) - den.log2 - 1) ≤ num / den := by
    rw [le_div_iff₀ hden']
    calc (2 : ℚ) ^ ((num.log2 : ℤ) - den.log2 - 1) * den
        ≤ 2 ^ ((num.log2 : ℤ) - den.log2 - 1) * 2 ^ (den.log2 + 1) := by gcongr
      _ = 2 ^ num.log2 := by
        rw [← zpow_natCast, ← zpow_natCast, ← zpow_add₀ (by norm_num)]
        congr 1
        push_cast
        ring
      _ ≤ num := hnum1
  have hupper : (num : ℚ) / den < 2 ^ ((num.log2 : ℤ) - den.log2 + 1) := by
    rw [div_lt_iff₀ hden']
    calc (num : ℚ) < 2 ^ (num.log2 + 1) := hnum2
      _ = 2 ^ ((num.log2 : ℤ) - den.log2 + 1) * 2 ^ den.log2 := by
        rw [← zpow_natCast, ← zpow_natCast, ← zpow_add₀ (by norm_num)]
        congr 1
        push_cast
        ring
      _ ≤ 2 ^ ((num.log2 : ℤ) - den.log2 + 1) * den := by gcongr
  -- the comparison of the two products compares the quotient with the power between
  have hcompare : ∀ k : ℤ, num * 2 ^ (-k).toNat < den * 2 ^ k.toNat ↔ (num : ℚ) / den < 2 ^ k := by
    intro k
    have hk := zpow_eq_div 2 (by decide) k
    rw [Nat.cast_ofNat] at hk
    rw [hk, div_lt_div_iff₀ hden' (by positivity), mul_comm ((2 ^ k.toNat : ℕ) : ℚ)]
    exact_mod_cast Iff.rfl
  have hlog : ∀ k : ℤ, (2 : ℚ) ^ k ≤ num / den →
      (num : ℚ) / den < 2 ^ (k + 1) → k = Int.log 2 ((num : ℚ) / den) := by
    intro k h1 h2
    have hle : k ≤ Int.log 2 ((num : ℚ) / den) :=
      (Int.zpow_le_iff_le_log (by decide) hpos).1 (by exact_mod_cast h1)
    have hlt : Int.log 2 ((num : ℚ) / den) < k + 1 :=
      (Int.lt_zpow_iff_log_lt (by decide) hpos).1 (by exact_mod_cast h2)
    omega
  unfold floorLog2
  dsimp only
  split_ifs with h
  · apply hlog _ hlower
    rw [sub_add_cancel]
    exact (hcompare _).1 h
  · apply hlog _ _ hupper
    exact not_lt.1 fun hlt => h ((hcompare _).2 hlt)

theorem roundedQuotient_mul_right (num den : ℕ) {c : ℕ} (hc : 0 < c) :
    roundedQuotient (num * c) (den * c) = roundedQuotient num den := by
  unfold roundedQuotient
  simp only [Nat.mul_div_mul_right _ _ hc, Nat.mul_mod_mul_right, ← mul_assoc, Nat.mul_lt_mul_right hc]

/-- equal quotients round alike -/
theorem roundedQuotient_congr {num den num' den' : ℕ} (hden : 0 < den) (hden' : 0 < den')
    (h : num * den' = num' * den) : roundedQuotient num den = roundedQuotient num' den' := by
  calc roundedQuotient num den = roundedQuotient (num * den') (den * den') :=
        (roundedQuotient_mul_right num den hden').symm
    _ = roundedQuotient (num' * den) (den' * den) := by rw [h, mul_comm den]
    _ = roundedQuotient num' den' := roundedQuotient_mul_right num' den' hden

theorem nearest_congr (negative : Bool) {num den num' den' : ℕ} (hden : 0 < den) (hden' : 0 < den')
    (h : num * den' = num' * den) : nearest negative num den = nearest negative num' den' := by
  by_cases hnum : num = 0
  · have hnum' : num' = 0 := by
      rw [hnum, Nat.zero_mul] at h
      exact (Nat.mul_eq_zero.1 h.symm).resolve_right hden.ne'
    rw [nearest, nearest, if_pos hnum, if_pos hnum']
  · have hnum' : num' ≠ 0 := by
      rintro rfl
      rw [Nat.zero_mul] at h
      exact (Nat.mul_ne_zero hnum hden'.ne') h
    have hquotient : (num : ℚ) / den = num' / den' := by
      rw [div_eq_div_iff (by positivity) (by positivity)]
      exact_mod_cast h
    have hlog : floorLog2 num den = floorLog2 num' den' := by
      rw [floorLog2_eq_log hnum hden.ne', floorLog2_eq_log hnum' hden'.ne', hquotient]
    have hsteps (scale : ℤ) : roundedQuotient (num * 2 ^ (-scale).toNat) (den * 2 ^ scale.toNat) =
        roundedQuotient (num' * 2 ^ (-scale).toNat) (den' * 2 ^ scale.toNat) := by
      apply roundedQuotient_congr (by positivity) (by positivity)
      calc num * 2 ^ (-scale).toNat * (den' * 2 ^ scale.toNat)
          = num * den' * (2 ^ (-scale).toNat * 2 ^ scale.toNat) := by ring
        _ = num' * den * (2 ^ (-scale).toNat * 2 ^ scale.toNat) := by rw [h]
        _ = num' * 2 ^ (-scale).toNat * (den * 2 ^ scale.toNat) := by ring
    rw [nearest, nearest, if_neg hnum, if_neg hnum']
    simp only [hlog, hsteps]

/-! ## Numbers round to themselves -/

theorem magnitude_eq (x : Binary64) : x.magnitude = (x.exponent + 1074).toNat * 2 ^ 52 + x.significand := by
  unfold exponent significand
  split_ifs <;> omega

/-- the digits of a number fill 53 places, unless its exponent is the least -/
theorem significand_bounds (x : Binary64) :
    x.significand < 2 ^ 53 ∧ -1074 ≤ x.exponent ∧ (-1074 < x.exponent → 2 ^ 52 ≤ x.significand) := by
  unfold exponent significand
  split_ifs <;> omega

theorem scale_ratio (x : Binary64) (hx : x.significand ≠ 0) :
    max (floorLog2 x.ratio.1 x.ratio.2 - 52) (-1074) = x.exponent := by
  obtain ⟨hlt, hleast, hdigits⟩ := x.significand_bounds
  have hnum : x.ratio.1 ≠ 0 := Nat.mul_ne_zero hx (Nat.two_pow_pos _).ne'
  have hlog : floorLog2 x.ratio.1 x.ratio.2 = x.significand.log2 + x.exponent := by
    rw [floorLog2_eq_log hnum x.ratio_pos.ne', ← absolute_eq_ratio, absolute]
    have h1 : (2 : ℚ) ^ x.significand.log2 ≤ x.significand := by exact_mod_cast Nat.log2_self_le hx
    have h2 : (x.significand : ℚ) < 2 ^ (x.significand.log2 + 1) := by
      exact_mod_cast Nat.lt_log2_self (n := x.significand)
    have hpos : (0 : ℚ) < x.significand * 2 ^ x.exponent := by
      have : (0 : ℚ) < x.significand := by exact_mod_cast Nat.pos_of_ne_zero hx
      positivity
    apply le_antisymm
    · apply Int.lt_add_one_iff.1
      refine (Int.lt_zpow_iff_log_lt (by decide) hpos).1 ?_
      calc (x.significand : ℚ) * 2 ^ x.exponent < 2 ^ (x.significand.log2 + 1) * 2 ^ x.exponent := by gcongr
        _ = ((2 : ℕ) : ℚ) ^ ((x.significand.log2 : ℤ) + x.exponent + 1) := by
          rw [Nat.cast_ofNat, ← zpow_natCast, ← zpow_add₀ (by norm_num)]
          congr 1
          push_cast
          ring
    · refine (Int.zpow_le_iff_le_log (by decide) hpos).1 ?_
      calc ((2 : ℕ) : ℚ) ^ ((x.significand.log2 : ℤ) + x.exponent) = 2 ^ x.significand.log2 * 2 ^ x.exponent := by
            rw [Nat.cast_ofNat, zpow_add₀ (by norm_num), zpow_natCast]
        _ ≤ x.significand * 2 ^ x.exponent := by gcongr
  have h53 : x.significand.log2 < 53 := (Nat.log2_lt hx).2 hlt
  rw [hlog]
  rcases eq_or_lt_of_le hleast with heq | hgt
  · omega
  · have h52 : 52 ≤ x.significand.log2 := (Nat.le_log2 hx).2 (hdigits hgt)
    omega

/-- **Exact.** A finite number is the nearest to its own value. -/
theorem nearest_ratio {x : Binary64} (hx : x.isFinite = true) : nearest x.negative x.ratio.1 x.ratio.2 = x := by
  have hfinite : x.magnitude < infinite := of_decide_eq_true hx
  by_cases h0 : x.significand = 0
  · have hexp : x.exponent = -1074 := by
      obtain ⟨-, hleast, hdigits⟩ := x.significand_bounds
      by_contra hne
      have := hdigits (lt_of_le_of_ne hleast (Ne.symm hne))
      omega
    have hmagnitude : x.magnitude = 0 := by
      rw [magnitude_eq, hexp, h0]
      rfl
    have hnum : x.ratio.1 = 0 := by rw [ratio, h0, Nat.zero_mul]
    obtain ⟨negative, magnitude, hlt⟩ := x
    obtain rfl : magnitude = 0 := hmagnitude
    rw [nearest, if_pos hnum]
    rfl
  · have hnum : x.ratio.1 ≠ 0 := Nat.mul_ne_zero h0 (Nat.two_pow_pos _).ne'
    have hsteps : roundedQuotient (x.ratio.1 * 2 ^ (-x.exponent).toNat) (x.ratio.2 * 2 ^ x.exponent.toNat) =
        x.significand := by
      have hscaled : x.ratio.1 * 2 ^ (-x.exponent).toNat =
          x.significand * (x.ratio.2 * 2 ^ x.exponent.toNat) := by
        rw [ratio]
        ring
      rw [hscaled]
      nth_rewrite 2 [← Nat.one_mul (x.ratio.2 * 2 ^ x.exponent.toNat)]
      rw [roundedQuotient_mul_right _ _ (Nat.mul_pos x.ratio_pos (Nat.two_pow_pos _)), roundedQuotient_one]
    have hmagnitude := x.magnitude_eq
    rw [nearest, if_neg hnum]
    dsimp only
    obtain ⟨negative, magnitude, hlt⟩ := x
    simp only [scale_ratio _ h0, hsteps, ← hmagnitude, Nat.min_eq_left hfinite.le]

/-- a number is the nearest to any quotient of its value -/
theorem nearest_eq {x : Binary64} (hx : x.isFinite = true) {num den : ℕ} (hden : 0 < den)
    (h : (num : ℚ) / den = x.absolute) : nearest x.negative num den = x := by
  rw [absolute_eq_ratio, div_eq_div_iff (by positivity) (by have := x.ratio_pos; positivity)] at h
  have hcross : num * x.ratio.2 = x.ratio.1 * den := by exact_mod_cast h
  rw [nearest_congr x.negative hden x.ratio_pos hcross, nearest_ratio hx]

theorem nearest_eq_infinity (negative : Bool) {num den : ℕ} (hden : 0 < den) (h : (2 : ℚ) ^ (1024 : ℤ) ≤ num / den) :
    nearest negative num den = infinity negative := by
  have hden' : (0 : ℚ) < den := by exact_mod_cast hden
  have hpos : (0 : ℚ) < num / den := lt_of_lt_of_le (by positivity) h
  have hnum : num ≠ 0 := by
    rintro rfl
    simp at hpos
  have hlog : 1024 ≤ floorLog2 num den := by
    rw [floorLog2_eq_log hnum hden.ne']
    exact (Int.zpow_le_iff_le_log (by decide) hpos).1 (by exact_mod_cast h)
  have hbelow : (2 : ℚ) ^ floorLog2 num den ≤ num / den := by
    rw [floorLog2_eq_log hnum hden.ne']
    exact_mod_cast Int.zpow_log_le_self (by decide) hpos
  generalize hk : floorLog2 num den = k at hlog hbelow
  have hscale : max (k - 52) (-1074) = k - 52 := by omega
  -- the digits fill 53 places, so the magnitude reaches that of the infinities
  have hsteps : 2 ^ 52 ≤ roundedQuotient (num * 2 ^ (-(k - 52)).toNat) (den * 2 ^ (k - 52).toNat) := by
    have hdiv : 2 ^ 52 ≤ num * 2 ^ (-(k - 52)).toNat / (den * 2 ^ (k - 52).toNat) := by
      rw [Nat.le_div_iff_mul_le (by positivity), Int.toNat_of_nonpos (by omega : -(k - 52) ≤ 0), pow_zero, mul_one]
      rw [le_div_iff₀ hden'] at hbelow
      have hpow : (2 : ℚ) ^ k = ((2 ^ 52 * 2 ^ (k - 52).toNat : ℕ) : ℚ) := by
        rw [← pow_add, Nat.cast_pow, Nat.cast_ofNat, ← zpow_natCast]
        congr 1
        omega
      rw [hpow] at hbelow
      calc 2 ^ 52 * (den * 2 ^ (k - 52).toNat) = 2 ^ 52 * 2 ^ (k - 52).toNat * den := by ring
        _ ≤ num := by exact_mod_cast hbelow
    unfold roundedQuotient
    dsimp only
    split_ifs <;> omega
  unfold nearest infinity infinite
  rw [if_neg hnum]
  simp only [hk, hscale]
  congr 1
  omega

theorem nearest_eq_zero (negative : Bool) {num den : ℕ} (hden : 0 < den) (h : (num : ℚ) / den < 2 ^ (-1075 : ℤ)) :
    nearest negative num den = zero negative := by
  by_cases hnum : num = 0
  · rw [nearest, if_pos hnum]
  have hden' : (0 : ℚ) < den := by exact_mod_cast hden
  have hpos : (0 : ℚ) < num / den := by positivity
  have hlog : floorLog2 num den < -1075 := by
    rw [floorLog2_eq_log hnum hden.ne']
    exact (Int.lt_zpow_iff_log_lt (by decide) hpos).1 (by exact_mod_cast h)
  have hscale : max (floorLog2 num den - 52) (-1074) = -1074 := by omega
  have hsteps : roundedQuotient (num * 2 ^ 1074) den = 0 := by
    have hlt : 2 * (num * 2 ^ 1074) < den := by
      rw [div_lt_iff₀ hden', zpow_neg, inv_mul_eq_div, lt_div_iff₀ (by positivity), zpow_ofNat] at h
      calc 2 * (num * 2 ^ 1074) = num * 2 ^ (1074 + 1) := by rw [Nat.mul_left_comm, ← pow_succ']
        _ < den := by
          rw [← Nat.cast_lt (α := ℚ), Nat.cast_mul, Nat.cast_pow, Nat.cast_ofNat]
          exact h
    have hlt' : num * 2 ^ 1074 < den := by omega
    rw [roundedQuotient, Nat.mod_eq_of_lt hlt', if_pos hlt, Nat.div_eq_of_lt hlt']
  unfold nearest zero
  rw [if_neg hnum]
  simp only [hscale, mk.injEq, true_and]
  have hsteps' : roundedQuotient (num * 2 ^ (-(-1074 : ℤ)).toNat) (den * 2 ^ (-1074 : ℤ).toNat) = 0 := by
    rw [show (-(-1074 : ℤ)).toNat = 1074 from rfl, show (-1074 : ℤ).toNat = 0 from rfl, pow_zero, mul_one, hsteps]
  rw [hsteps']
  rfl

end Binary64

/-! ## Decimals -/

namespace Decimal

/-- the absolute value of a decimal -/
def absolute (d : Decimal) : ℚ := d.digits * 10 ^ d.exponent

theorem absolute_eq_div (d : Decimal) :
    d.absolute = ((d.digits * 10 ^ d.exponent.toNat : ℕ) : ℚ) / (10 ^ (-d.exponent).toNat : ℕ) := by
  have h := Binary64.zpow_eq_div 10 (by decide) d.exponent
  rw [Nat.cast_ofNat] at h
  rw [absolute, h, Nat.cast_mul, mul_div_assoc]

theorem two_pow_le_ten_pow : (2 : ℚ) ^ 1200 ≤ 10 ^ 400 := by
  calc (2 : ℚ) ^ 1200 = (2 ^ 3) ^ 400 := by rw [← pow_mul]
    _ ≤ 10 ^ 400 := by
      gcongr
      norm_num

/-- the exponents that are decided without computing the power are out of range -/
theorem toBinary64_eq_nearest (d : Decimal) :
    d.toBinary64 = Binary64.nearest d.negative (d.digits * 10 ^ d.exponent.toNat) (10 ^ (-d.exponent).toNat) := by
  have hden : 0 < 10 ^ (-d.exponent).toNat := by positivity
  have habsolute := d.absolute_eq_div
  unfold toBinary64
  split_ifs with hzero hlarge hsmall
  · rw [hzero, Nat.zero_mul, Binary64.nearest, if_pos rfl]
  · rw [Binary64.nearest_eq_infinity _ hden]
    rw [← habsolute, absolute]
    have hdigits : (1 : ℚ) ≤ d.digits := by exact_mod_cast Nat.one_le_iff_ne_zero.2 hzero
    calc (2 : ℚ) ^ (1024 : ℤ) ≤ 2 ^ (1200 : ℤ) := by
          gcongr <;> norm_num
      _ ≤ 1 * 10 ^ (400 : ℤ) := by
          rw [one_mul]
          exact_mod_cast two_pow_le_ten_pow
      _ ≤ d.digits * 10 ^ d.exponent := by
          gcongr
          norm_num
  · rw [Binary64.nearest_eq_zero _ hden]
    rw [← habsolute, absolute]
    have hdigits : (d.digits : ℚ) < 2 ^ (d.digits.log2 + 1) := by exact_mod_cast Nat.lt_log2_self
    calc (d.digits : ℚ) * 10 ^ d.exponent
        ≤ 2 ^ (d.digits.log2 + 1) * 10 ^ (-((d.digits.log2 + 1 : ℕ) : ℤ) + -400) := by
          gcongr
          · norm_num
          · omega
      _ = (2 / 10) ^ (d.digits.log2 + 1) * 10 ^ (-400 : ℤ) := by
          rw [zpow_add₀ (by norm_num), zpow_neg, zpow_natCast, div_pow]
          ring
      _ ≤ 1 * 10 ^ (-400 : ℤ) := by
          gcongr
          exact pow_le_one₀ (by norm_num) (by norm_num)
      _ ≤ 2 ^ (-1200 : ℤ) := by
          rw [one_mul, zpow_neg, zpow_neg]
          exact inv_anti₀ (by positivity) (by exact_mod_cast two_pow_le_ten_pow)
      _ < 2 ^ (-1075 : ℤ) := by
          gcongr <;> norm_num
  · rfl

/-- **Decimals of one value.** What a decimal is read as depends on its sign and value only. -/
theorem toBinary64_congr {d d' : Decimal} (hnegative : d.negative = d'.negative)
    (habsolute : d.absolute = d'.absolute) :
    d.toBinary64 = d'.toBinary64 := by
  rw [toBinary64_eq_nearest, toBinary64_eq_nearest, hnegative]
  rw [absolute_eq_div, absolute_eq_div, div_eq_div_iff (by positivity) (by positivity)] at habsolute
  apply Binary64.nearest_congr _ (by positivity) (by positivity)
  exact_mod_cast habsolute

end Decimal

namespace Binary64

theorem absolute_exactDecimal (x : Binary64) : x.exactDecimal.absolute = x.absolute := by
  rw [exactDecimal, Decimal.absolute, absolute]
  rcases le_total 0 x.exponent with h | h
  · rw [min_eq_right h, Int.toNat_of_nonpos (by omega : -x.exponent ≤ 0)]
    have hpow : (2 : ℚ) ^ x.exponent = 2 ^ x.exponent.toNat := by
      rw [← zpow_natCast, Int.toNat_of_nonneg h]
    rw [hpow]
    push_cast
    ring
  · rw [min_eq_left h, Int.toNat_of_nonpos h]
    have hpow (b : ℚ) : b ^ x.exponent = (b ^ (-x.exponent).toNat)⁻¹ := by
      rw [← zpow_natCast, ← zpow_neg]
      congr 1
      omega
    rw [hpow, hpow, show (10 : ℚ) = 5 * 2 by norm_num, mul_pow]
    push_cast
    field_simp

/-- **Shortest.** The shortest decimal of a finite number is read as the number. -/
theorem toBinary64_shortest {x : Binary64} (hx : x.isFinite = true) : x.shortest.toBinary64 = x := by
  unfold shortest
  split_ifs with h0
  · obtain ⟨negative, magnitude, hlt⟩ := x
    obtain rfl : magnitude = 0 := h0
    rfl
  · dsimp only
    generalize hfound : List.find? _ _ = found
    cases found with
    | none =>
      rw [Option.getD_none, Decimal.toBinary64_eq_nearest]
      apply nearest_eq hx (by positivity)
      rw [← Decimal.absolute_eq_div, absolute_exactDecimal]
    | some d =>
      have h := List.find?_some hfound
      exact of_decide_eq_true h

end Binary64

end LetStack

/-
Numerals: what the text of a decimal is read as.

A decimal is written as a whole part, a fraction and an exponent, of which the last two may be missing. `Spelling` is
such a text in its parts. The two text formats read it with readers of their own, which differ in what they would accept
beyond it; both take the parts for what they are and nothing of what follows. The digits that are left out or added in
writing, zeros all of them, change the digits and the exponent of the decimal but not its value, and so not the number
it is read as.

Results:
- `Decimal.exists_positional`, `Decimal.exists_scientific`: how a decimal is spelled, and that its value is kept;
- `Json.decimal?_text`, `TextFormat.numeral?_text`: what the readers make of a spelling;
- `Binary64.exists_spelling`: a finite number is written with a spelling that means it.
-/
import LetStack.Proofs.Characters
import LetStack.Proofs.Nearest
import LetStack.Value.Json.Token
import LetStack.Value.TextFormat.Token

namespace LetStack

/-! ## Runs -/

/-- the run of what a predicate holds of ends where it fails -/
theorem takeWhile_append_of_stop {α : Type} {p : α → Bool} {as bs : List α} (has : ∀ a ∈ as, p a = true)
    (hbs : ∀ b ∈ bs.head?, p b = false) : (as ++ bs).takeWhile p = as ∧ (as ++ bs).dropWhile p = bs := by
  have hstop : bs.takeWhile p = [] ∧ bs.dropWhile p = bs := by
    cases bs with
    | nil => exact ⟨rfl, rfl⟩
    | cons b bs =>
      have hb : p b = false := hbs b rfl
      simp [hb]
  rw [List.takeWhile_append_of_pos has, List.dropWhile_append_of_pos has, hstop.1, hstop.2, List.append_nil]
  exact ⟨rfl, rfl⟩

/-! ## Spellings -/

/-- a number without its sign, in the parts that it is written in -/
structure Spelling where
  whole : List Char
  fraction : List Char
  /-- the exponent, and the least number of its digits -/
  exponent : Option (ℕ × ℤ)

namespace Spelling

def fractionText (s : Spelling) : List Char := if s.fraction.isEmpty then [] else '.' :: s.fraction

def exponentText (s : Spelling) : List Char :=
  match s.exponent with
  | none => []
  | some (width, power) => 'e' :: Decimal.exponentPart width power

def text (s : Spelling) : List Char := s.whole ++ (s.fractionText ++ s.exponentText)

/-- the power of ten that the exponent names -/
def power (s : Spelling) : ℤ := s.exponent.elim 0 Prod.snd

/-- the decimal that is meant -/
def decimal (s : Spelling) (negative : Bool) : Decimal :=
  ⟨negative, Nat.ofDigitChars 10 (s.whole ++ s.fraction) 0, s.power - s.fraction.length⟩

/-- digits only, at least one before the point, no leading zero but a single one, and an exponent of ordinary size -/
structure IsProper (s : Spelling) : Prop where
  whole_ne_nil : s.whole ≠ []
  whole : ∀ c ∈ s.whole, c.isDigit = true
  fraction : ∀ c ∈ s.fraction, c.isDigit = true
  leading : s.whole.head? = some '0' → s.whole.length = 1
  power : s.power.natAbs < 100000

end Spelling

/-! ## Exponents -/

namespace Octet

theorem isDigit_map_octet {cs : List Char} (h : ∀ c ∈ cs, c.isDigit = true) : ∀ b ∈ cs.map octet, isDigit b = true := by
  intro b hb
  obtain ⟨c, hc, rfl⟩ := List.mem_map.1 hb
  exact isDigit_octet (h c hc)

/-- an exponent of ordinary size is not cut -/
theorem exponentSize_map_octet {cs : List Char} (h : ∀ c ∈ cs, c.isDigit = true)
    (hlt : Nat.ofDigitChars 10 cs 0 < 100000) : exponentSize (cs.map octet) = Nat.ofDigitChars 10 cs 0 := by
  induction cs using List.reverseRecOn with
  | nil => rfl
  | append_singleton cs c ih =>
    obtain ⟨hcs, hc⟩ := List.forall_mem_append.1 h
    have hdigit := toNat_lt_of_isDigit (hc c (List.mem_singleton_self c))
    rw [Nat.ofDigitChars_append, Nat.ofDigitChars_cons, Nat.ofDigitChars_nil] at hlt ⊢
    have hzero : '0'.toNat = 48 := rfl
    have ih := ih hcs (by omega)
    rw [exponentSize] at ih ⊢
    rw [List.map_append, List.map_singleton, List.foldl_append, ih, List.foldl_cons, List.foldl_nil,
      toNat_octet (by omega), if_pos (by omega), Nat.mul_comm, hzero]

theorem exponent?_sign (negative : Bool) {cs : List Char} (hcs : ∀ c ∈ cs, c.isDigit = true) (hne : cs ≠ [])
    (hlt : Nat.ofDigitChars 10 cs 0 < 100000) {rest : List UInt8} (hrest : ∀ b ∈ rest.head?, isDigit b = false) :
    exponent? (octet (if negative then '-' else '+') :: (cs.map octet ++ rest)) =
      some (if negative then -(Nat.ofDigitChars 10 cs 0 : ℤ) else Nat.ofDigitChars 10 cs 0, rest) := by
  obtain ⟨htake, hdrop⟩ := takeWhile_append_of_stop (isDigit_map_octet hcs) hrest
  have hnonempty : (cs.map octet).isEmpty = false := by simpa using hne
  have hsize := exponentSize_map_octet hcs hlt
  cases negative with
  | false =>
    have hminus : (octet '+' == octet '-') = false := rfl
    simp [exponent?, hminus, htake, hdrop, hnonempty, hsize]
  | true => simp [exponent?, htake, hdrop, hnonempty, hsize]

/-- an exponent as it is written -/
theorem exponent?_exponentPart (width : ℕ) {power : ℤ} (hpower : power.natAbs < 100000) {rest : List UInt8}
    (hrest : ∀ b ∈ rest.head?, isDigit b = false) :
    exponent? ((Decimal.exponentPart width power).map octet ++ rest) = some (power, rest) := by
  unfold Decimal.exponentPart
  dsimp only
  generalize width - (Nat.toDigits 10 power.natAbs).length = n
  have hvalue : Nat.ofDigitChars 10 (List.replicate n '0' ++ Nat.toDigits 10 power.natAbs) 0 = power.natAbs := by
    rw [Nat.ofDigitChars_append, Nat.ofDigitChars_replicate_zero, Nat.mul_zero, Nat.ofDigitChars_ten_toDigits]
  have hdigits : ∀ c ∈ List.replicate n '0' ++ Nat.toDigits 10 power.natAbs, c.isDigit = true := by
    refine List.forall_mem_append.2 ⟨fun c hc => ?_, fun c hc => ?_⟩
    · rw [List.eq_of_mem_replicate hc]
      rfl
    · exact Nat.isDigit_of_mem_toDigits (by decide) (by decide) hc
  have hne : List.replicate n '0' ++ Nat.toDigits 10 power.natAbs ≠ [] := by simp [Nat.toDigits_ne_nil]
  have hread := exponent?_sign (decide (power < 0)) hdigits hne (by rwa [hvalue]) hrest
  simp only [decide_eq_true_eq, hvalue] at hread
  rw [List.map_cons, List.cons_append, hread]
  congr 2
  split_ifs <;> omega

/-! ## What may follow -/

/-- an octet that may not go on a number -/
theorem joins_of_ends {rest : List UInt8} (h : ends rest = true) : ∀ b ∈ rest.head?, joins b = false := by
  cases rest with
  | nil => exact fun _ hb => nomatch hb
  | cons b rest =>
    intro b' hb'
    obtain rfl := Option.some.inj hb'
    simpa [ends] using h

theorem isDigit_of_joins {b : UInt8} (h : joins b = false) : isDigit b = false := by
  simp only [joins, Bool.or_eq_false_iff] at h
  exact h.1.1.1.1.1

/-- the octet of a letter or of a sign may not follow -/
theorem ne_of_joins {b c : UInt8} (h : joins b = false) (hc : joins c = true) : (b == c) = false := by
  rw [beq_eq_false_iff_ne]
  rintro rfl
  rw [h] at hc
  cases hc

end Octet

namespace Spelling

open Octet

variable {s : Spelling} {rest : List UInt8}

theorem ascii_exponentPart (width : ℕ) (power : ℤ) : ∀ c ∈ Decimal.exponentPart width power, c.toNat < 128 := by
  intro c hc
  unfold Decimal.exponentPart at hc
  rcases List.mem_cons.1 hc with rfl | hc
  · split <;> decide
  · rcases List.mem_append.1 hc with hc | hc
    · rw [List.eq_of_mem_replicate hc]
      decide
    · have := toNat_lt_of_isDigit (Nat.isDigit_of_mem_toDigits (by decide) (by decide) hc)
      omega

/-- a spelling is ASCII text -/
theorem octets_text (hs : s.IsProper) : s.text.flatMap String.utf8EncodeChar = s.text.map octet := by
  apply flatMap_encodeChar_ascii
  have hdigits : ∀ cs : List Char, (∀ c ∈ cs, c.isDigit = true) → ∀ c ∈ cs, c.toNat < 128 := by
    intro cs hcs c hc
    have := toNat_lt_of_isDigit (hcs c hc)
    omega
  refine List.forall_mem_append.2 ⟨hdigits _ hs.whole, List.forall_mem_append.2 ⟨?_, ?_⟩⟩
  · unfold fractionText
    split
    · exact fun _ hc => nomatch hc
    · exact List.forall_mem_cons.2 ⟨by decide, hdigits _ hs.fraction⟩
  · unfold exponentText
    split
    · exact fun _ hc => nomatch hc
    · exact List.forall_mem_cons.2 ⟨by decide, ascii_exponentPart _ _⟩

/-- what the text goes on with after the fraction -/
theorem head_exponentText (hrest : ends rest = true) :
    ∀ b ∈ (s.exponentText.map octet ++ rest).head?, b = octet 'e' ∨ joins b = false := by
  intro b hb
  unfold exponentText at hb
  split at hb
  · exact .inr (joins_of_ends hrest b hb)
  · exact .inl (Option.some.inj hb).symm

/-- what the text goes on with after the whole part -/
theorem head_fractionText (hrest : ends rest = true) :
    ∀ b ∈ (s.fractionText.map octet ++ (s.exponentText.map octet ++ rest)).head?,
      b = octet '.' ∨ b = octet 'e' ∨ joins b = false := by
  intro b hb
  unfold fractionText at hb
  split at hb
  · exact .inr (head_exponentText hrest b hb)
  · exact .inl (Option.some.inj hb).symm

theorem isDigit_of_head {b : UInt8} (h : b = octet '.' ∨ b = octet 'e' ∨ joins b = false) : isDigit b = false := by
  rcases h with rfl | rfl | h
  · rfl
  · rfl
  · exact isDigit_of_joins h

/-- a spelling starts with a digit -/
theorem exists_head (hs : s.IsProper) : ∃ c cs, s.whole = c :: cs ∧ isDigit (octet c) = true := by
  cases hwhole : s.whole with
  | nil => exact (hs.whole_ne_nil hwhole).elim
  | cons c cs => exact ⟨c, cs, rfl, isDigit_octet (hs.whole c (by rw [hwhole]; exact List.mem_cons_self))⟩

/-- the digits before the point, and after it -/
theorem takeWhile_whole (hs : s.IsProper) (hrest : ends rest = true) :
    (s.text.map octet ++ rest).takeWhile isDigit = s.whole.map octet ∧
      (s.text.map octet ++ rest).dropWhile isDigit =
        s.fractionText.map octet ++ (s.exponentText.map octet ++ rest) := by
  have htext : s.text.map octet ++ rest =
      s.whole.map octet ++ (s.fractionText.map octet ++ (s.exponentText.map octet ++ rest)) := by
    simp [text]
  rw [htext]
  exact takeWhile_append_of_stop (isDigit_map_octet hs.whole) fun b hb => isDigit_of_head (head_fractionText hrest b hb)

/-- a leading zero is the whole part -/
theorem tail_of_zero (hs : s.IsProper) {c : Char} {cs : List Char} (hwhole : s.whole = c :: cs)
    (hc : octet c = octet '0') : cs = [] := by
  have hleading := hs.leading
  have hdigit := toNat_lt_of_isDigit (hs.whole c (by rw [hwhole]; exact List.mem_cons_self))
  have hnat := congrArg UInt8.toNat hc
  rw [toNat_octet (by omega), toNat_octet (by decide)] at hnat
  rw [hwhole, Char.toNat_inj.1 hnat] at hleading
  simpa using hleading rfl

/-- the check for leading zeros passes -/
theorem leading_whole (hs : s.IsProper) :
    ((s.whole.map octet).head? == some (octet '0') && s.whole.length != 1) = false := by
  obtain ⟨c, cs, hwhole, -⟩ := exists_head hs
  by_cases hc : octet c = octet '0'
  · rw [hwhole, tail_of_zero hs hwhole hc]
    simp
  · simp [hwhole, hc]

/-- with its sign it starts with the sign or a digit -/
theorem exists_signed_head (negative : Bool) (hs : s.IsProper) (rest : List UInt8) :
    ∃ b bs, (if negative then ['-'] else []).map octet ++ (s.text.map octet ++ rest) = b :: bs ∧
      b ∈ "-0123456789".toList.map octet := by
  obtain ⟨c, cs, hwhole, hdigit⟩ := exists_head hs
  cases negative with
  | false => exact ⟨octet c, _, by rw [text, hwhole]; rfl, mem_of_isDigit hdigit⟩
  | true => exact ⟨octet '-', _, rfl, by decide⟩

theorem minus_text (negative : Bool) (hs : s.IsProper) :
    minus ((if negative then ['-'] else []).map octet ++ (s.text.map octet ++ rest)) =
      (negative, s.text.map octet ++ rest) := by
  obtain ⟨c, cs, hwhole, hdigit⟩ := exists_head hs
  cases negative with
  | false =>
    have hminus : (octet c == octet '-') = false := by
      rw [beq_eq_false_iff_ne]
      intro h
      rw [h] at hdigit
      cases hdigit
    simp [text, hwhole, minus, hminus]
  | true => simp [minus]

end Spelling

/-! ## The reader of JSON -/

namespace Json

open Octet

variable {s : Spelling} {rest : List UInt8}

theorem fraction?_text (hs : s.IsProper) (hrest : ends rest = true) :
    fraction? (s.fractionText.map octet ++ (s.exponentText.map octet ++ rest)) =
      some (s.fraction.map octet, s.exponentText.map octet ++ rest) := by
  have hhead := Spelling.head_exponentText (s := s) hrest
  unfold Spelling.fractionText
  split
  case isTrue hempty =>
    rw [List.isEmpty_iff.1 hempty, List.map_nil, List.nil_append]
    cases htail : s.exponentText.map octet ++ rest with
    | nil => rfl
    | cons b bs =>
      rw [htail] at hhead
      have hpoint : (b == octet '.') = false := by
        rcases hhead b rfl with rfl | hjoins
        · rfl
        · exact ne_of_joins hjoins rfl
      rw [fraction?, hpoint]
      rfl
  case isFalse hempty =>
    obtain ⟨htake, hdrop⟩ := takeWhile_append_of_stop (isDigit_map_octet hs.fraction)
      fun b hb => Spelling.isDigit_of_head (.inr (hhead b hb))
    have hnonempty : (s.fraction.map octet).isEmpty = false := by simpa using hempty
    simp [fraction?, htake, hdrop, hnonempty]

theorem exponentPart?_text (hs : s.IsProper) (hrest : ends rest = true) :
    exponentPart? (s.exponentText.map octet ++ rest) = some (s.power, rest) := by
  have hpower := hs.power
  unfold Spelling.exponentText Spelling.power at *
  cases hexponent : s.exponent with
  | none =>
    cases rest with
    | nil => rfl
    | cons b bs =>
      have hjoins := joins_of_ends hrest b rfl
      simp [exponentPart?, ne_of_joins hjoins (c := octet 'e') rfl, ne_of_joins hjoins (c := octet 'E') rfl]
  | some e =>
    obtain ⟨width, power⟩ := e
    have hpower : power.natAbs < 100000 := by rwa [hexponent] at hpower
    have hdigit : ∀ b ∈ rest.head?, isDigit b = false := fun b hb => isDigit_of_joins (joins_of_ends hrest b hb)
    simp [exponentPart?, exponent?_exponentPart width hpower hdigit]

/-- **Numbers in JSON.** A spelling with its sign is read as the decimal that is meant. -/
theorem decimal?_text (negative : Bool) (hs : s.IsProper) (hrest : ends rest = true) :
    decimal? ((if negative then ['-'] else []).map octet ++ (s.text.map octet ++ rest)) =
      some (s.decimal negative, rest) := by
  obtain ⟨htake, hdrop⟩ := Spelling.takeWhile_whole hs hrest
  have hminus : minus ((if negative then ['-'] else []).map octet ++ (s.text.map octet ++ rest)) =
      (negative, s.text.map octet ++ rest) := Spelling.minus_text negative hs
  have hwhole : (s.whole.map octet).isEmpty = false := by simpa using hs.whole_ne_nil
  have hvalue : decimalValue (s.whole.map octet ++ s.fraction.map octet) =
      Nat.ofDigitChars 10 (s.whole ++ s.fraction) 0 := by
    rw [← List.map_append, decimalValue_map_octet (List.forall_mem_append.2 ⟨hs.whole, hs.fraction⟩)]
  simp only [decimal?, hminus, htake, hdrop, hwhole, Spelling.leading_whole hs, fraction?_text hs hrest,
    exponentPart?_text hs hrest, hrest, hvalue, Bool.or_self, Bool.false_eq_true, if_false, if_true,
    Option.bind_eq_bind,
    Option.bind_some, List.length_map, Spelling.decimal]

end Json

/-! ## The reader of the text format -/

namespace TextFormat

open Octet

variable {s : Spelling} {rest : List UInt8}

theorem fraction_text (hs : s.IsProper) (hrest : ends rest = true) :
    ∃ places, places.getD [] = s.fraction.map octet ∧
      fraction (s.fractionText.map octet ++ (s.exponentText.map octet ++ rest)) =
        (places, s.exponentText.map octet ++ rest) := by
  have hhead := Spelling.head_exponentText (s := s) hrest
  unfold Spelling.fractionText
  split
  case isTrue hempty =>
    refine ⟨none, by rw [List.isEmpty_iff.1 hempty]; rfl, ?_⟩
    rw [List.map_nil, List.nil_append]
    cases htail : s.exponentText.map octet ++ rest with
    | nil => rfl
    | cons b bs =>
      rw [htail] at hhead
      have hpoint : (b == octet '.') = false := by
        rcases hhead b rfl with rfl | hjoins
        · rfl
        · exact ne_of_joins hjoins rfl
      rw [fraction, hpoint]
      rfl
  case isFalse hempty =>
    obtain ⟨htake, hdrop⟩ := takeWhile_append_of_stop (isDigit_map_octet hs.fraction)
      fun b hb => Spelling.isDigit_of_head (.inr (hhead b hb))
    refine ⟨some (s.fraction.map octet), rfl, ?_⟩
    simp [fraction, htake, hdrop]

theorem exponentPart?_text (hs : s.IsProper) (hrest : ends rest = true) :
    ∃ power, power.getD 0 = s.power ∧ exponentPart? (s.exponentText.map octet ++ rest) = some (power, rest) := by
  have hpower := hs.power
  unfold Spelling.exponentText Spelling.power at *
  cases hexponent : s.exponent with
  | none =>
    refine ⟨none, rfl, ?_⟩
    cases rest with
    | nil => rfl
    | cons b bs =>
      have hjoins := joins_of_ends hrest b rfl
      simp [exponentPart?, ne_of_joins hjoins (c := octet 'e') rfl, ne_of_joins hjoins (c := octet 'E') rfl]
  | some e =>
    obtain ⟨width, power⟩ := e
    have hpower : power.natAbs < 100000 := by rwa [hexponent] at hpower
    have hdigit : ∀ b ∈ rest.head?, isDigit b = false := fun b hb => isDigit_of_joins (joins_of_ends hrest b hb)
    refine ⟨some power, rfl, ?_⟩
    simp [exponentPart?, exponent?_exponentPart width hpower hdigit]

theorem suffix_of_ends (hrest : ends rest = true) : suffix rest = (false, rest) := by
  cases rest with
  | nil => rfl
  | cons b bs =>
    have hjoins := joins_of_ends hrest b rfl
    simp [suffix, ne_of_joins hjoins (c := octet 'f') rfl, ne_of_joins hjoins (c := octet 'F') rfl]

theorem decimal?_text (hs : s.IsProper) (hrest : ends rest = true) :
    ∃ integral, decimal? (s.text.map octet ++ rest) =
      some (.decimal (Nat.ofDigitChars 10 (s.whole ++ s.fraction) 0) (s.power - s.fraction.length) integral false,
        rest) := by
  obtain ⟨htake, hdrop⟩ := Spelling.takeWhile_whole hs hrest
  obtain ⟨places, hplaces, hfraction⟩ := fraction_text hs hrest
  obtain ⟨power, hpower, hexponent⟩ := exponentPart?_text hs hrest
  have hwhole : (s.whole.map octet).isEmpty = false := by simpa using hs.whole_ne_nil
  have hvalue : decimalValue (s.whole.map octet ++ s.fraction.map octet) =
      Nat.ofDigitChars 10 (s.whole ++ s.fraction) 0 := by
    rw [← List.map_append, decimalValue_map_octet (List.forall_mem_append.2 ⟨hs.whole, hs.fraction⟩)]
  refine ⟨places.isNone && power.isNone, ?_⟩
  simp only [decimal?, htake, hdrop, hfraction, hexponent, suffix_of_ends hrest, hplaces, hpower, hwhole, hvalue,
    Spelling.leading_whole hs, Bool.false_and, Bool.false_eq_true, if_false, Option.bind_eq_bind, Option.bind_some,
    List.length_map]

/-- **Numbers in the text format.** A spelling is read as what is meant; it is neither of base 16 nor of base 8. -/
theorem numeral?_text (hs : s.IsProper) (hrest : ends rest = true) :
    ∃ integral, numeral? (s.text.map octet ++ rest) =
      some (.decimal (Nat.ofDigitChars 10 (s.whole ++ s.fraction) 0) (s.power - s.fraction.length) integral false,
        rest) := by
  obtain ⟨integral, hdecimal⟩ := decimal?_text hs hrest
  refine ⟨integral, ?_⟩
  rw [← hdecimal]
  unfold numeral?
  split
  case h_1 a b more hbs =>
    -- after a leading zero there is a point, an exponent or the end
    have hzero : (a == octet '0') = true → (b == octet 'x') = false ∧ (b == octet 'X') = false ∧ isOctal b = false := by
      intro ha
      obtain ⟨c, cs, hwhole, -⟩ := Spelling.exists_head hs
      have hhead := Spelling.head_fractionText (s := s) hrest
      rw [Spelling.text, hwhole, List.map_append, List.map_cons, List.cons_append, List.cons_append] at hbs
      obtain ⟨hc, htail⟩ := List.cons.inj hbs
      rw [Spelling.tail_of_zero hs hwhole (hc.trans (beq_iff_eq.1 ha)), List.map_nil, List.nil_append, List.map_append,
        List.append_assoc] at htail
      rw [htail] at hhead
      rcases hhead b rfl with rfl | rfl | hjoins
      · decide
      · decide
      · refine ⟨ne_of_joins hjoins rfl, ne_of_joins hjoins rfl, ?_⟩
        have hdigit := isDigit_of_joins hjoins
        simp only [isDigit, isOctal, Bool.and_eq_false_iff, decide_eq_false_iff_not] at hdigit ⊢
        omega
    cases ha : (a == octet '0') with
    | false => simp
    | true => simp [hzero ha]
  case h_2 => rfl

end TextFormat

/-! ## The digits of a decimal -/

/-- the first digit of a number is no zero -/
theorem head_toDigits_ne_zero {n : ℕ} (h : n ≠ 0) : (Nat.toDigits 10 n).head? ≠ some '0' := by
  induction n using Nat.strongRecOn with
  | _ n ih =>
    rw [Nat.toDigits_eq_if (by decide)]
    split_ifs with hlt
    · interval_cases n
      · exact (h rfl).elim
      all_goals decide
    · rw [List.head?_append_of_ne_nil _ Nat.toDigits_ne_nil]
      exact ih (n / 10) (by omega) (by omega)

/-- digits and the zeros after them -/
theorem exists_trailing_zeros (cs : List Char) :
    ∃ k, cs = (cs.reverse.dropWhile (· == '0')).reverse ++ List.replicate k '0' := by
  refine ⟨(cs.reverse.takeWhile (· == '0')).length, ?_⟩
  have hzeros : (cs.reverse.takeWhile (· == '0')).reverse =
      List.replicate (cs.reverse.takeWhile (· == '0')).length '0' := by
    rw [List.eq_replicate_iff]
    refine ⟨List.length_reverse, fun c hc => ?_⟩
    exact beq_iff_eq.1 (List.all_eq_true.1 List.all_takeWhile c (List.mem_reverse.1 hc))
  rw [← hzeros, ← List.reverse_append, List.takeWhile_append_dropWhile, List.reverse_reverse]

namespace Decimal

/-- the power of ten of the first significant digit -/
def power (d : Decimal) : ℤ := d.scientificParts.2

/-- the significant digits with their power: their value, scaled, is that of the decimal -/
theorem exists_parts (d : Decimal) : ∃ first more, d.scientificParts.1 = first :: more ∧
    (∀ c ∈ first :: more, c.isDigit = true) ∧ (first = '0' → more = [] ∧ d.power = 0) ∧
    (Nat.ofDigitChars 10 (first :: more) 0 : ℚ) * 10 ^ (d.power - more.length) = d.absolute := by
  unfold power scientificParts
  split_ifs with h0
  · refine ⟨'0', [], rfl, List.forall_mem_singleton.2 rfl, fun _ => ⟨rfl, rfl⟩, ?_⟩
    rw [absolute, h0]
    simp [Nat.ofDigitChars_cons, Nat.ofDigitChars_nil]
  · dsimp only
    obtain ⟨k, hk⟩ := exists_trailing_zeros (Nat.toDigits 10 d.digits)
    have hhead := head_toDigits_ne_zero h0
    have hvalue : Nat.ofDigitChars 10 (Nat.toDigits 10 d.digits) 0 = d.digits := Nat.ofDigitChars_ten_toDigits
    have hdigits : ∀ c ∈ Nat.toDigits 10 d.digits, c.isDigit = true := fun c hc =>
      Nat.isDigit_of_mem_toDigits (by decide) (by decide) hc
    generalize (Nat.toDigits 10 d.digits).reverse.dropWhile (· == '0') = ds at hk
    cases hds : ds.reverse with
    | nil =>
      -- all digits would be zeros
      exfalso
      rw [hds, List.nil_append] at hk
      rw [hk, Nat.ofDigitChars_replicate_zero, Nat.mul_zero] at hvalue
      exact h0 hvalue.symm
    | cons first more =>
      rw [hds] at hk
      rw [hk] at hhead hvalue hdigits ⊢
      rw [Nat.ofDigitChars_append, Nat.ofDigitChars_replicate_zero] at hvalue
      refine ⟨first, more, rfl, fun c hc => hdigits c (List.mem_append_left _ hc), ?_, ?_⟩
      · rintro rfl
        exact (hhead rfl).elim
      · have hpower :
            d.exponent + ((first :: more) ++ List.replicate k '0').length - 1 - more.length = k + d.exponent := by
          simp only [List.length_append, List.length_cons, List.length_replicate]
          push_cast
          ring
        rw [hpower, absolute, zpow_add₀ (by norm_num), zpow_natCast, ← mul_assoc]
        congr 1
        rw [mul_comm]
        exact_mod_cast hvalue

/-- the value lies between the power of its first digit and the next -/
theorem power_bounds {d : Decimal} (h : d.digits ≠ 0) :
    (10 : ℚ) ^ d.power ≤ d.absolute ∧ d.absolute < 10 ^ (d.power + 1) := by
  have hpower : d.power = d.exponent + (Nat.toDigits 10 d.digits).length - 1 := by
    rw [power, scientificParts, if_neg h]
  have hlength : 0 < (Nat.toDigits 10 d.digits).length := Nat.length_toDigits_pos
  generalize hk : (Nat.toDigits 10 d.digits).length = k at hpower hlength
  have hlt : d.digits < 10 ^ k := (Nat.length_toDigits_le_iff (by decide) hlength).1 hk.le
  have hle : 10 ^ (k - 1) ≤ d.digits := by
    by_contra hcon
    rcases Nat.eq_zero_or_pos (k - 1) with hzero | hpos
    · rw [hzero, pow_zero] at hcon
      omega
    · have := (Nat.length_toDigits_le_iff (b := 10) (by decide) hpos).2 (not_le.1 hcon)
      omega
  rw [absolute]
  constructor
  · calc (10 : ℚ) ^ d.power = 10 ^ (k - 1) * 10 ^ d.exponent := by
          rw [← zpow_natCast, ← zpow_add₀ (by norm_num)]
          congr 1
          omega
      _ ≤ d.digits * 10 ^ d.exponent := by
          gcongr
          exact_mod_cast hle
  · calc (d.digits : ℚ) * 10 ^ d.exponent < 10 ^ k * 10 ^ d.exponent := by
          gcongr
          exact_mod_cast hlt
      _ = 10 ^ (d.power + 1) := by
          rw [← zpow_natCast, ← zpow_add₀ (by norm_num)]
          congr 1
          omega

/-! ## The text of a decimal -/

theorem exists_scientific (width : ℕ) {d : Decimal} (h : d.power.natAbs < 100000) :
    ∃ s : Spelling, s.IsProper ∧ d.scientific width = d.sign ++ s.text ∧
      (s.decimal d.negative).absolute = d.absolute := by
  obtain ⟨first, more, hparts, hdigits, -, hvalue⟩ := d.exists_parts
  refine ⟨⟨[first], more, some (width, d.power)⟩, ⟨List.cons_ne_nil _ _, ?_, ?_, fun _ => rfl, h⟩, ?_, hvalue⟩
  · exact fun c hc => hdigits c (List.mem_cons.2 (.inl (List.mem_singleton.1 hc)))
  · exact fun c hc => hdigits c (List.mem_cons_of_mem _ hc)
  · unfold scientific
    rw [show d.scientificParts = (first :: more, d.power) from Prod.ext hparts rfl]
    cases more with
    | nil => simp [Spelling.text, Spelling.fractionText, Spelling.exponentText]
    | cons second more => simp [Spelling.text, Spelling.fractionText, Spelling.exponentText]

theorem isDigit_of_mem_zeros {n : ℕ} {c : Char} (h : c ∈ List.replicate n '0') : c.isDigit = true := by
  rw [List.eq_of_mem_replicate h]
  rfl

theorem exists_positional (d : Decimal) :
    ∃ s : Spelling, s.IsProper ∧ d.positional = d.sign ++ s.text ∧ (s.decimal d.negative).absolute = d.absolute := by
  obtain ⟨first, more, hparts, hdigits, hzero, hvalue⟩ := d.exists_parts
  have hds : d.scientificParts = (first :: more, d.power) := Prod.ext hparts rfl
  rw [← hvalue]
  unfold positional
  rw [hds]
  generalize d.power = power at *
  by_cases hneg : power < 0
  · -- all significant digits stand after the point
    refine ⟨⟨['0'], List.replicate (-power - 1).toNat '0' ++ first :: more, none⟩,
      ⟨List.cons_ne_nil _ _, ?_, ?_, fun _ => rfl, by simp [Spelling.power]⟩, ?_, ?_⟩
    · exact fun c hc => isDigit_of_mem_zeros (n := 1) hc
    · exact List.forall_mem_append.2 ⟨fun c hc => isDigit_of_mem_zeros hc, hdigits⟩
    · simp [Spelling.text, Spelling.fractionText, Spelling.exponentText, hneg]
    · have hexponent :
          (0 : ℤ) - (List.replicate (-power - 1).toNat '0' ++ first :: more).length = power - more.length := by
        simp only [List.length_append, List.length_replicate, List.length_cons]
        omega
      rw [absolute, Spelling.decimal, Spelling.power]
      simp only [Option.elim_none]
      rw [hexponent, List.singleton_append, Nat.ofDigitChars_cons, Nat.ofDigitChars_append,
        Nat.ofDigitChars_replicate_zero]
      rfl
  · obtain ⟨n, hn⟩ := Int.eq_ofNat_of_zero_le (not_lt.1 hneg)
    subst hn
    have hcount : ((n : ℤ) + 1).toNat = n + 1 := by omega
    refine ⟨⟨(first :: more).take (n + 1) ++ List.replicate (n + 1 - ((first :: more).take (n + 1)).length) '0',
      (first :: more).drop (n + 1), none⟩, ⟨?_, ?_, ?_, ?_, by simp [Spelling.power]⟩, ?_, ?_⟩
    · simp
    · exact List.forall_mem_append.2
        ⟨fun c hc => hdigits c (List.mem_of_mem_take hc), fun c hc => isDigit_of_mem_zeros hc⟩
    · exact fun c hc => hdigits c (List.mem_of_mem_drop hc)
    · intro hhead
      obtain ⟨rfl, hpower⟩ := hzero (by simpa using hhead)
      obtain rfl : n = 0 := by omega
      rfl
    · simp only [hneg, if_false, hcount, Spelling.text, Spelling.fractionText, Spelling.exponentText]
      split <;> simp
    · rw [absolute, Spelling.decimal, Spelling.power]
      simp only [Option.elim_none]
      rcases Nat.lt_or_ge n more.length with hlt | hge
      · -- some digits stand after the point, and no zeros are added
        have hlength : ((first :: more).take (n + 1)).length = n + 1 := by
          simp
          omega
        rw [hlength, Nat.sub_self, List.replicate_zero, List.append_nil, List.take_append_drop]
        congr 2
        simp
        omega
      · -- no digit stands after the point
        have hlength : (first :: more).length ≤ n + 1 := by
          simp
          omega
        rw [List.take_of_length_le hlength, List.drop_of_length_le hlength, List.append_nil, Nat.ofDigitChars_append,
          Nat.ofDigitChars_replicate_zero]
        have hexponent : (n : ℤ) - more.length = ((n + 1 - (first :: more).length : ℕ) : ℤ) := by
          simp
          omega
        rw [hexponent, zpow_natCast]
        push_cast
        simp
        ring

end Decimal

/-! ## The exponents of finite numbers -/

theorem Binary64.not_special_of_isFinite {x : Binary64} (hx : x.isFinite = true) :
    x.isNaN = false ∧ x.isInfinite = false := by
  simp only [isFinite, decide_eq_true_eq] at hx
  simp only [isNaN, isInfinite, decide_eq_false_iff_not, beq_eq_false_iff_ne]
  omega

/-- **Exponents.** The shortest decimal of a finite number has an exponent of three digits at most. -/
theorem Binary64.abs_power_shortest {x : Binary64} (hx : x.isFinite = true) : x.shortest.power.natAbs ≤ 400 := by
  have hread := toBinary64_shortest hx
  by_cases h0 : x.shortest.digits = 0
  · rw [Decimal.power, Decimal.scientificParts, if_pos h0]
    decide
  · have hnonzero : x.magnitude ≠ 0 := by
      intro hzero
      apply h0
      rw [shortest, if_pos hzero]
    rw [Decimal.toBinary64_eq_nearest] at hread
    obtain ⟨hlower, hupper⟩ := Decimal.power_bounds h0
    -- a value out of this range would be read as infinite or as zero
    have hlarge : x.shortest.absolute < 2 ^ (1024 : ℤ) := by
      by_contra hcon
      rw [Decimal.absolute_eq_div, not_lt] at hcon
      rw [nearest_eq_infinity _ (by positivity) hcon] at hread
      rw [← hread] at hx
      cases hx
    have hsmall : 2 ^ (-1075 : ℤ) ≤ x.shortest.absolute := by
      by_contra hcon
      rw [Decimal.absolute_eq_div, not_le] at hcon
      rw [nearest_eq_zero _ (by positivity) hcon] at hread
      rw [← hread] at hnonzero
      exact hnonzero rfl
    have hle : x.shortest.power < 400 := by
      rw [← zpow_lt_zpow_iff_right₀ (show (1 : ℚ) < 10 by norm_num)]
      calc (10 : ℚ) ^ x.shortest.power ≤ x.shortest.absolute := hlower
        _ < 2 ^ (1024 : ℤ) := hlarge
        _ ≤ 2 ^ (1200 : ℤ) := by gcongr <;> norm_num
        _ ≤ 10 ^ (400 : ℤ) := by exact_mod_cast Decimal.two_pow_le_ten_pow
    have hge : -400 < x.shortest.power + 1 := by
      rw [← zpow_lt_zpow_iff_right₀ (show (1 : ℚ) < 10 by norm_num)]
      calc (10 : ℚ) ^ (-400 : ℤ) ≤ 2 ^ (-1200 : ℤ) := by
            rw [zpow_neg, zpow_neg]
            exact inv_anti₀ (by positivity) (by exact_mod_cast Decimal.two_pow_le_ten_pow)
        _ ≤ 2 ^ (-1075 : ℤ) := by gcongr <;> norm_num
        _ ≤ x.shortest.absolute := hsmall
        _ < 10 ^ (x.shortest.power + 1) := hupper
    omega

/-- a finite number as it is written, with its sign, and what is meant by it -/
theorem Binary64.exists_spelling {x : Binary64} (hx : x.isFinite = true) {cs : List Char}
    (hcs : cs = x.shortest.positional ∨ ∃ width, cs = x.shortest.scientific width) :
    ∃ (negative : Bool) (s : Spelling), s.IsProper ∧ (s.decimal negative).toBinary64 = x ∧
      cs.flatMap String.utf8EncodeChar =
        (if negative then ['-'] else []).map Octet.octet ++ s.text.map Octet.octet := by
  have hspelling : ∃ s : Spelling, s.IsProper ∧ cs = x.shortest.sign ++ s.text ∧
      (s.decimal x.shortest.negative).absolute = x.shortest.absolute := by
    rcases hcs with rfl | ⟨width, rfl⟩
    · exact x.shortest.exists_positional
    · exact Decimal.exists_scientific width (by have := abs_power_shortest hx; omega)
  obtain ⟨s, hs, rfl, habsolute⟩ := hspelling
  refine ⟨x.shortest.negative, s, hs, ?_, ?_⟩
  · have hnegative : (s.decimal x.shortest.negative).negative = x.shortest.negative := rfl
    rw [Decimal.toBinary64_congr hnegative habsolute, toBinary64_shortest hx]
  · rw [List.flatMap_append, Spelling.octets_text hs, Decimal.sign]
    cases x.shortest.negative <;> rfl

end LetStack

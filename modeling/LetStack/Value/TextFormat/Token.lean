/-
Tokens of the text format.

White space and comments, from a number sign to the end of the line, separate tokens and are skipped. A word may have a
minus sign in front of it. Strings are octets, because escapes can name any octet; strings that follow each other are
joined into one.
-/
import LetStack.Text.Octet
import LetStack.Text.Utf8

namespace LetStack.TextFormat

open Octet

/-- messages stand between braces or between angle brackets -/
inductive Bracket where
  | brace
  | angle
deriving DecidableEq, Repr

/-- a number without its sign, as it is spelled -/
inductive Numeral where
  /-- in base 16 -/
  | hex (n : Nat)
  /-- a zero and digits below 8 -/
  | octal (digits : List UInt8)
  /-- digits × 10^exponent; `integral` if written without point and exponent, `suffixed` if ended by the letter f -/
  | decimal (digits : Nat) (exponent : Int) (integral suffixed : Bool)

inductive Token where
  | word (negative : Bool) (name : String)
  | number (negative : Bool) (n : Numeral)
  | string (octets : List UInt8)
  | openMessage (b : Bracket)
  | closeMessage (b : Bracket)
  | openList
  | closeList
  | colon
  | comma
  | semicolon

/-! ## White space -/

/-- drops white space and comments; `inComment` if the text starts inside a comment -/
def skipBlank : Bool → List UInt8 → List UInt8
  | _, [] => []
  | true, b :: bs => skipBlank (b != octet '\n') bs
  | false, b :: bs =>
    if isSpace b then skipBlank false bs else if b == octet '#' then skipBlank true bs else b :: bs

/-! ## Strings -/

def isOctal (b : UInt8) : Bool := 48 ≤ b.toNat && b.toNat ≤ 55

def octalValue (ds : List UInt8) : Nat := ds.foldl (fun acc b => acc * 8 + (b.toNat - 48)) 0

/-- the octets of the character with number `n`, which may need the second half of a surrogate pair -/
def numbered? (n : Nat) (bs : List UInt8) : Option (List UInt8 × List UInt8) :=
  if 0xD800 ≤ n ∧ n < 0xE000 then
    match bs with
    | a :: b :: h1 :: h2 :: h3 :: h4 :: rest =>
      if a == octet '\\' && b == octet 'u' then
        ((hexNumber? [h1, h2, h3, h4]).bind (surrogatePair? n)).map fun c => (String.utf8EncodeChar c, rest)
      else none
    | _ => none
  else if n.isValidChar then some (String.utf8EncodeChar (Char.ofNat n), bs)
  else none

/-- the character that a letter escapes -/
def letterEscape? (b : UInt8) : Option UInt8 :=
  if b == octet '"' || b == octet '\x27' || b == octet '\\' || b == octet '?' then some b
  else if b == octet 'a' then some 7
  else if b == octet 'b' then some 8
  else if b == octet 't' then some 9
  else if b == octet 'n' then some 10
  else if b == octet 'v' then some 11
  else if b == octet 'f' then some 12
  else if b == octet 'r' then some 13
  else none

/-- an escape by one to three octal digits; it names an octet -/
def octalEscape? (bs : List UInt8) : Option (List UInt8 × List UInt8) :=
  let ds := (bs.takeWhile isOctal).take 3
  if octalValue ds < 256 then some ([(octalValue ds).toUInt8], bs.drop ds.length) else none

/-- an escape by one or two digits of base 16, after the letter x; it names an octet -/
def hexEscape? (bs : List UInt8) : Option (List UInt8 × List UInt8) := do
  let ds := (bs.takeWhile fun b => (hexValue? b).isSome).take 2
  if ds.isEmpty then none
  else
    let n ← hexNumber? ds
    some ([n.toUInt8], bs.drop ds.length)

/-- an escape by exactly `width` digits of base 16, after the letter u or U; it names a character -/
def unicodeEscape? (width : Nat) (bs : List UInt8) : Option (List UInt8 × List UInt8) := do
  let ds := bs.take width
  if ds.length < width then none
  else
    let n ← hexNumber? ds
    numbered? n (bs.drop width)

/-- the octets of an escape, after the backslash -/
def escape? (bs : List UInt8) : Option (List UInt8 × List UInt8) :=
  match bs with
  | [] => none
  | b :: rest =>
    if isOctal b then octalEscape? bs
    else if b == octet 'x' then hexEscape? rest
    else if b == octet 'u' then unicodeEscape? 4 rest
    else if b == octet 'U' then unicodeEscape? 8 rest
    else (letterEscape? b).map fun c => ([c], rest)

/-- one character of a string: its octets -/
def stringPart? (bs : List UInt8) : Option (List UInt8 × List UInt8) :=
  match bs with
  | [] => none
  | b :: rest =>
    if b == octet '\\' then escape? rest
    else if b == 0 || b == octet '\n' then none
    else (Utf8.next? bs).map fun (c, rest) => (String.utf8EncodeChar c, rest)

theorem numbered?_length {n : Nat} {bs out rest : List UInt8} (h : numbered? n bs = some (out, rest)) :
    rest.length ≤ bs.length := by
  unfold numbered? at h
  split at h
  · split at h
    · split at h
      · simp only [Option.map_eq_some_iff, Prod.mk.injEq] at h
        obtain ⟨c, -, -, h⟩ := h
        rw [← h]
        simp only [List.length_cons]
        omega
      · cases h
    · cases h
  · split at h
    · simp only [Option.some.injEq, Prod.mk.injEq] at h
      simp [h.2]
    · cases h

theorem octalEscape?_length {b : UInt8} {bs out rest : List UInt8} (hb : isOctal b = true)
    (h : octalEscape? (b :: bs) = some (out, rest)) : rest.length < (b :: bs).length := by
  unfold octalEscape? at h
  dsimp only at h
  split at h
  · simp only [Option.some.injEq, Prod.mk.injEq] at h
    rw [← h.2, List.length_drop]
    simp only [List.takeWhile_cons, hb, if_true, List.length_cons, List.take_succ_cons]
    omega
  · cases h

theorem hexEscape?_length {bs out rest : List UInt8} (h : hexEscape? bs = some (out, rest)) :
    rest.length ≤ bs.length := by
  unfold hexEscape? at h
  dsimp only at h
  split at h
  · cases h
  · simp only [Option.bind_eq_bind, Option.bind_eq_some_iff, Option.some.injEq, Prod.mk.injEq] at h
    obtain ⟨n, -, -, h⟩ := h
    rw [← h, List.length_drop]
    omega

theorem unicodeEscape?_length {width : Nat} {bs out rest : List UInt8}
    (h : unicodeEscape? width bs = some (out, rest)) : rest.length ≤ bs.length := by
  unfold unicodeEscape? at h
  dsimp only at h
  split at h
  · cases h
  · simp only [Option.bind_eq_bind, Option.bind_eq_some_iff] at h
    obtain ⟨n, -, h⟩ := h
    have := numbered?_length h
    rw [List.length_drop] at this
    omega

theorem escape?_length {bs out rest : List UInt8} (h : escape? bs = some (out, rest)) : rest.length < bs.length := by
  unfold escape? at h
  split at h
  · cases h
  · split at h
    next hb => exact octalEscape?_length hb h
    · simp only [List.length_cons]
      split at h
      · have := hexEscape?_length h
        omega
      · split at h
        · have := unicodeEscape?_length h
          omega
        · split at h
          · have := unicodeEscape?_length h
            omega
          · simp only [Option.map_eq_some_iff, Prod.mk.injEq] at h
            obtain ⟨c, -, -, h⟩ := h
            rw [← h]
            omega

/-- a character of a string takes at least one octet -/
theorem stringPart?_length {bs out rest : List UInt8} (h : stringPart? bs = some (out, rest)) :
    rest.length < bs.length := by
  unfold stringPart? at h
  split at h
  · cases h
  · split at h
    · have := escape?_length h
      simp only [List.length_cons]
      omega
    · split at h
      · cases h
      · simp only [Option.map_eq_some_iff, Prod.mk.injEq] at h
        obtain ⟨⟨c, r⟩, hr, -, h⟩ := h
        rw [← h]
        exact Utf8.next?_length hr

/-- the octets up to the closing quote, after those read already (last first), and what follows the quote -/
def stringBody (quote : UInt8) (read : List UInt8) (bs : List UInt8) : Option (List UInt8 × List UInt8) :=
  if bs.head? = some quote then some (read.reverse, bs.tail)
  else
    match h : stringPart? bs with
    | none => none
    | some (octets, rest) =>
      have := stringPart?_length h
      stringBody quote (octets.reverse ++ read) rest
termination_by bs.length

theorem stringBody_length {quote : UInt8} {read bs out rest : List UInt8}
    (h : stringBody quote read bs = some (out, rest)) : rest.length ≤ bs.length := by
  fun_induction stringBody quote read bs with
  | case1 read bs hq =>
    simp only [Option.some.injEq, Prod.mk.injEq] at h
    rw [← h.2]
    simp
  | case2 => cases h
  | case3 read bs hq octets next hn hlt ih =>
    have := ih h
    omega

/-! ## Numbers -/

/-- a letter f after a number is dropped -/
def suffix (bs : List UInt8) : Bool × List UInt8 :=
  match bs with
  | [] => (false, [])
  | b :: rest => if b == octet 'f' || b == octet 'F' then (true, rest) else (false, b :: rest)

/-- the digits after a point, if there is one -/
def fraction (bs : List UInt8) : Option (List UInt8) × List UInt8 :=
  match bs with
  | [] => (none, [])
  | b :: rest =>
    if b == octet '.' then (some (rest.takeWhile isDigit), rest.dropWhile isDigit) else (none, b :: rest)

/-- the exponent, if there is one; after the letter e there must be one -/
def exponentPart? (bs : List UInt8) : Option (Option Int × List UInt8) :=
  match bs with
  | [] => some (none, [])
  | b :: rest =>
    if b == octet 'e' || b == octet 'E' then (exponent? rest).map fun (e, rest) => (some e, rest)
    else some (none, b :: rest)

/-- a decimal number: digits on at least one side of the point, and no zero before other digits of the whole part -/
def decimal? (bs : List UInt8) : Option (Numeral × List UInt8) := do
  let whole := bs.takeWhile isDigit
  if whole.head? == some (octet '0') && whole.length != 1 then none
  else
    let (frac, afterFraction) := fraction (bs.dropWhile isDigit)
    let (exponent, afterExponent) ← exponentPart? afterFraction
    let (suffixed, rest) := suffix afterExponent
    let places := frac.getD []
    if whole.isEmpty && places.isEmpty then none
    else
      some (.decimal (decimalValue (whole ++ places)) (exponent.getD 0 - places.length)
        (frac.isNone && exponent.isNone) suffixed, rest)

/-- a number without its sign: `0x` and digits of base 16, a zero and octal digits, or a decimal number -/
def numeral? (bs : List UInt8) : Option (Numeral × List UInt8) :=
  match bs with
  | a :: b :: rest =>
    if a == octet '0' && (b == octet 'x' || b == octet 'X') then
      let ds := rest.takeWhile fun c => (hexValue? c).isSome
      if ds.isEmpty then none else (hexNumber? ds).map fun n => (.hex n, rest.drop ds.length)
    else if a == octet '0' && isOctal b then
      let ds := bs.takeWhile isOctal
      some (.octal ds, bs.drop ds.length)
    else decimal? bs
  | _ => decimal? bs

/-! ## Tokens -/

def isWordStart (b : UInt8) : Bool := isLetter b || b == octet '_'

def isWordPart (b : UInt8) : Bool := isWordStart b || isDigit b

def punctuation? (b : UInt8) : Option Token :=
  if b == octet '\x7b' then some (.openMessage .brace)
  else if b == octet '\x7d' then some (.closeMessage .brace)
  else if b == octet '<' then some (.openMessage .angle)
  else if b == octet '>' then some (.closeMessage .angle)
  else if b == octet '[' then some .openList
  else if b == octet ']' then some .closeList
  else if b == octet ':' then some .colon
  else if b == octet ',' then some .comma
  else if b == octet ';' then some .semicolon
  else none

/-- a word or a number, after its sign -/
def unsigned? (negative : Bool) (bs : List UInt8) : Option (Token × List UInt8) :=
  if (bs.head?.map isWordStart).getD false then
    let word := bs.takeWhile isWordPart
    (Utf8.decode? word).map fun name => (.word negative name, bs.drop word.length)
  else (numeral? bs).map fun (n, rest) => (.number negative n, rest)

/-- a word or a number with its sign; nothing that joins it may follow -/
def plain? (bs : List UInt8) : Option (Token × List UInt8) :=
  (unsigned? (minus bs).1 (minus bs).2).filter fun r => ends r.2

/-- the first token of a text that does not start with white space -/
def Token.next? : List UInt8 → Option (Token × List UInt8)
  | [] => none
  | b :: rest =>
    if b == octet '"' || b == octet '\x27' then (stringBody b [] rest).map fun (s, rest) => (.string s, rest)
    else
      match punctuation? b with
      | some t => some (t, rest)
      | none => plain? (b :: rest)

/-! ## Lengths -/

theorem suffix_length (bs : List UInt8) : (suffix bs).2.length ≤ bs.length := by
  unfold suffix
  split
  · simp
  · split <;> simp

theorem fraction_length (bs : List UInt8) : (fraction bs).2.length ≤ bs.length := by
  unfold fraction
  split
  · simp
  · split
    · exact Nat.le_trans (length_dropWhile_le _ _) (by simp)
    · simp

/-- a fraction with digits takes at least the point -/
theorem fraction_length_lt {bs : List UInt8} (h : ((fraction bs).1.getD []).isEmpty = false) :
    (fraction bs).2.length < bs.length := by
  unfold fraction at h ⊢
  split at h
  · simp at h
  · split at h
    next hb =>
      simp only [hb, if_true, List.length_cons]
      have := length_dropWhile_le isDigit
      exact Nat.lt_succ_of_le (this _)
    · simp at h

theorem exponentPart?_length {bs rest : List UInt8} {e : Option Int} (h : exponentPart? bs = some (e, rest)) :
    rest.length ≤ bs.length := by
  unfold exponentPart? at h
  split at h
  · simp_all
  · split at h
    · simp only [Option.map_eq_some_iff, Prod.mk.injEq] at h
      obtain ⟨⟨n, r⟩, hr, -, h⟩ := h
      rw [← h]
      exact Nat.le_trans (exponent?_length hr) (by simp)
    · simp_all

theorem decimal?_length {bs rest : List UInt8} {n : Numeral} (h : decimal? bs = some (n, rest)) :
    rest.length < bs.length := by
  simp only [decimal?, Option.bind_eq_bind] at h
  split at h
  · cases h
  simp only [Option.bind_eq_some_iff] at h
  obtain ⟨⟨e, afterExponent⟩, he, h⟩ := h
  dsimp only at h
  split at h
  · cases h
  next hd =>
  simp only [Option.some.injEq, Prod.mk.injEq] at h
  have h1 := exponentPart?_length he
  have h2 := suffix_length afterExponent
  have h3 := fraction_length (bs.dropWhile isDigit)
  have h4 := length_dropWhile_le isDigit bs
  rw [← h.2]
  simp only [Bool.and_eq_true, not_and, Bool.not_eq_true] at hd
  cases hw : (bs.takeWhile isDigit).isEmpty with
  | false =>
    have := length_dropWhile_lt hw
    omega
  | true =>
    have := fraction_length_lt (hd hw)
    omega

theorem numeral?_length {bs rest : List UInt8} {n : Numeral} (h : numeral? bs = some (n, rest)) :
    rest.length < bs.length := by
  unfold numeral? at h
  split at h
  next a b more =>
    split at h
    · dsimp only at h
      split at h
      · cases h
      · simp only [Option.map_eq_some_iff, Prod.mk.injEq] at h
        obtain ⟨m, -, -, h⟩ := h
        rw [← h, List.length_drop]
        simp only [List.length_cons]
        omega
    · split at h
      next ho =>
        simp only [Option.some.injEq, Prod.mk.injEq] at h
        have hz : isOctal a = true := by
          simp only [Bool.and_eq_true, beq_iff_eq] at ho
          rw [ho.1]
          decide
        rw [← h.2, List.length_drop]
        simp only [List.takeWhile_cons, hz, if_true, List.length_cons]
        omega
      · exact decimal?_length h
  · exact decimal?_length h

theorem unsigned?_length {negative : Bool} {bs rest : List UInt8} {t : Token}
    (h : unsigned? negative bs = some (t, rest)) : rest.length < bs.length := by
  unfold unsigned? at h
  split at h
  next hs =>
    simp only [Option.map_eq_some_iff, Prod.mk.injEq] at h
    obtain ⟨name, -, -, h⟩ := h
    rw [← h, List.length_drop]
    cases bs with
    | nil => simp at hs
    | cons b more =>
      simp only [List.head?_cons, Option.map_some, Option.getD_some] at hs
      simp only [List.takeWhile_cons, isWordPart, hs, Bool.true_or, if_true, List.length_cons]
      omega
  · simp only [Option.map_eq_some_iff, Prod.mk.injEq] at h
    obtain ⟨⟨n, r⟩, hr, -, h⟩ := h
    have := numeral?_length hr
    dsimp only at h
    rw [← h]
    exact this

theorem plain?_length {bs rest : List UInt8} {t : Token} (h : plain? bs = some (t, rest)) :
    rest.length < bs.length := by
  rw [plain?, Option.filter_eq_some_iff] at h
  exact Nat.lt_of_lt_of_le (unsigned?_length h.1) (minus_length bs)

/-- a token takes at least one octet -/
theorem Token.next?_length {bs rest : List UInt8} {t : Token} (h : Token.next? bs = some (t, rest)) :
    rest.length < bs.length := by
  unfold Token.next? at h
  split at h
  · cases h
  · split at h
    · simp only [Option.map_eq_some_iff, Prod.mk.injEq] at h
      obtain ⟨⟨s, r⟩, hr, -, h⟩ := h
      have := stringBody_length hr
      dsimp only at h
      rw [← h, List.length_cons]
      omega
    · split at h
      · cases h
        simp
      · exact plain?_length h

theorem skipBlank_length (c : Bool) (bs : List UInt8) : (skipBlank c bs).length ≤ bs.length := by
  induction bs generalizing c with
  | nil => cases c <;> simp [skipBlank]
  | cons b bs ih =>
    cases c with
    | true => exact Nat.le_succ_of_le (ih _)
    | false =>
      simp only [skipBlank]
      split
      · exact Nat.le_succ_of_le (ih _)
      · split
        · exact Nat.le_succ_of_le (ih _)
        · exact Nat.le_refl _

/-! ## Texts -/

/-- the tokens of a text, if all of it can be read -/
def Token.scan? (bs : List UInt8) : Option (List Token) :=
  let text := skipBlank false bs
  if text.isEmpty then some []
  else
    match h : Token.next? text with
    | none => none
    | some (t, rest) =>
      have : rest.length < bs.length := Nat.lt_of_lt_of_le (Token.next?_length h) (skipBlank_length _ _)
      (Token.scan? rest).map (t :: ·)
termination_by bs.length

/-- joins strings that follow each other -/
def Token.joinStrings : List Token → List Token
  | [] => []
  | .string s :: rest =>
    match Token.joinStrings rest with
    | .string s' :: rest' => .string (s ++ s') :: rest'
    | rest' => .string s :: rest'
  | t :: rest => t :: Token.joinStrings rest

end LetStack.TextFormat

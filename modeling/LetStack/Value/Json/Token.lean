/-
Tokens of JSON text.

`Token.next` takes the first token off an octet sequence and `Token.scan` all of them, up to the end of the text or to
the first place where no token can be read. A string keeps its spelling, because complaints quote it.

A fault looks incomplete if its complaint says that the text ends too early or that a line ends inside a string. A
complaint that quotes a string looks so too if the string says it.
-/
import LetStack.Number.Decimal
import LetStack.Text.Octet
import LetStack.Text.Phrase

namespace LetStack.Json

open Octet

/-- why a text is no JSON value -/
inductive Fault where
  /-- the text ends too early -/
  | truncated
  /-- a line ends inside a string -/
  | brokenLine
  /-- a string stands where none may, or a key is there already; the complaint quotes it as it is written -/
  | unwanted (spelling : List UInt8)
  | malformed
deriving DecidableEq, Repr

/-- does it look as if the text were cut off? -/
def Fault.isIncomplete : Fault → Bool
  | .truncated | .brokenLine => true
  | .unwanted spelling => Text.soundsCutOff spelling
  | .malformed => false

inductive Token where
  | null
  | bool (b : Bool)
  | number (x : Binary64)
  /-- the text of a string, and how it is written between the quotes -/
  | string (spelling : List UInt8) (s : String)
  | openObject
  | closeObject
  | openList
  | closeList
  | colon
  | comma

/-! ## Strings -/

/-- the second half of a surrogate pair: six octets are needed before any is looked at -/
def lowSurrogate (high : Nat) : List UInt8 → Except Fault (Char × List UInt8)
  | a :: b :: h1 :: h2 :: h3 :: h4 :: rest =>
    if a == octet '\\' && b == octet 'u' then
      match (hexNumber? [h1, h2, h3, h4]).bind (surrogatePair? high) with
      | some c => .ok (c, rest)
      | none => .error .malformed
    else .error .malformed
  | _ => .error .truncated

/-- the character of an escape by number, after the letter u -/
def unicodeEscape : List UInt8 → Except Fault (Char × List UInt8)
  | h1 :: h2 :: h3 :: h4 :: rest =>
    match hexNumber? [h1, h2, h3, h4] with
    | none => .error .malformed
    | some n => if 0xD800 ≤ n ∧ n < 0xE000 then lowSurrogate n rest else .ok (Char.ofNat n, rest)
  | _ => .error .truncated

/-- the characters that are escaped by a letter or as themselves -/
def letterEscape? (b : UInt8) : Option Char :=
  if b == octet '"' then some '"'
  else if b == octet '\\' then some '\\'
  else if b == octet '/' then some '/'
  else if b == octet 'b' then some '\x08'
  else if b == octet 'f' then some '\x0c'
  else if b == octet 'n' then some '\n'
  else if b == octet 'r' then some '\r'
  else if b == octet 't' then some '\t'
  else none

/-- the character of an escape, after the backslash -/
def escape : List UInt8 → Except Fault (Char × List UInt8)
  | [] => .error .truncated
  | b :: rest =>
    if b == octet 'u' then unicodeEscape rest
    else
      match letterEscape? b with
      | some c => .ok (c, rest)
      | none => .error .malformed

/-- one character of a string -/
def stringChar (bs : List UInt8) : Except Fault (Char × List UInt8) :=
  match bs with
  | [] => .error .truncated
  | b :: rest =>
    if b == octet '\\' then escape rest
    else if b == octet '\n' then .error .brokenLine
    else if b.toNat < 0x20 then .error .malformed
    else
      match Utf8.next? bs with
      | some r => .ok r
      | none => .error .malformed

theorem lowSurrogate_length {n : Nat} {bs rest : List UInt8} {c : Char} (h : lowSurrogate n bs = .ok (c, rest)) :
    rest.length < bs.length := by
  unfold lowSurrogate at h
  split at h
  · split at h
    · split at h
      · cases h
        simp only [List.length_cons]
        omega
      · cases h
    · cases h
  · cases h

theorem unicodeEscape_length {bs rest : List UInt8} {c : Char} (h : unicodeEscape bs = .ok (c, rest)) :
    rest.length < bs.length := by
  unfold unicodeEscape at h
  split at h
  · split at h
    · cases h
    · split at h
      · have := lowSurrogate_length h
        simp only [List.length_cons]
        omega
      · cases h
        simp only [List.length_cons]
        omega
  · cases h

theorem escape_length {bs rest : List UInt8} {c : Char} (h : escape bs = .ok (c, rest)) :
    rest.length < bs.length := by
  unfold escape at h
  split at h
  · cases h
  · split at h
    · have := unicodeEscape_length h
      simp only [List.length_cons]
      omega
    · split at h
      · cases h
        simp
      · cases h

/-- a character of a string takes at least one octet -/
theorem stringChar_length {bs rest : List UInt8} {c : Char} (h : stringChar bs = .ok (c, rest)) :
    rest.length < bs.length := by
  unfold stringChar at h
  split at h
  · cases h
  · split at h
    · have := escape_length h
      simp only [List.length_cons]
      omega
    · split at h
      · cases h
      · split at h
        · cases h
        · split at h
          · next hr =>
            cases h
            exact Utf8.next?_length hr
          · cases h

/-- the characters up to the closing quote, after those read already (last first), and what follows the quote -/
def stringBody (read : List Char) (bs : List UInt8) : Except Fault (List Char × List UInt8) :=
  if bs.head? = some (octet '"') then .ok (read.reverse, bs.tail)
  else
    match h : stringChar bs with
    | .error f => .error f
    | .ok (c, rest) =>
      have := stringChar_length h
      stringBody (c :: read) rest
termination_by bs.length

/-- how a string is written, up to the closing quote -/
def spelling : List UInt8 → List UInt8
  | [] => []
  | [b] => if b == octet '"' then [] else [b]
  | b :: c :: rest =>
    if b == octet '"' then []
    else if b == octet '\\' then b :: c :: spelling rest
    else b :: spelling (c :: rest)

theorem stringBody_length {read cs : List Char} {bs rest : List UInt8} (h : stringBody read bs = .ok (cs, rest)) :
    rest.length ≤ bs.length := by
  fun_induction stringBody read bs with
  | case1 read bs hq =>
    simp only [Except.ok.injEq, Prod.mk.injEq] at h
    rw [← h.2]
    simp
  | case2 => cases h
  | case3 read bs hq c next hc hlt ih =>
    have := ih h
    omega

/-! ## Numbers -/

/-- the fraction of a number: none, or a point and at least one digit -/
def fraction? (bs : List UInt8) : Option (List UInt8 × List UInt8) :=
  match bs with
  | [] => some ([], [])
  | b :: rest =>
    if b == octet '.' then
      let ds := rest.takeWhile isDigit
      if ds.isEmpty then none else some (ds, rest.dropWhile isDigit)
    else some ([], b :: rest)

/-- the exponent part of a number: none, or the letter e and an exponent -/
def exponentPart? (bs : List UInt8) : Option (Int × List UInt8) :=
  match bs with
  | [] => some (0, [])
  | b :: rest => if b == octet 'e' || b == octet 'E' then exponent? rest else some (0, b :: rest)

/-- a number: no leading zero but a single one, and nothing that joins it after it -/
def decimal? (bs : List UInt8) : Option (Decimal × List UInt8) := do
  let (negative, unsigned) := minus bs
  let whole := unsigned.takeWhile isDigit
  if whole.isEmpty || (whole.head? == some (octet '0') && whole.length != 1) then none
  else
    let (fraction, afterFraction) ← fraction? (unsigned.dropWhile isDigit)
    let (exponent, rest) ← exponentPart? afterFraction
    if ends rest then
      some (⟨negative, decimalValue (whole ++ fraction), exponent - fraction.length⟩, rest)
    else none

theorem fraction?_length {bs ds rest : List UInt8} (h : fraction? bs = some (ds, rest)) :
    rest.length ≤ bs.length := by
  unfold fraction? at h
  split at h
  · simp_all
  · split at h
    · dsimp only at h
      split at h
      · cases h
      · simp only [Option.some.injEq, Prod.mk.injEq] at h
        rw [← h.2]
        exact Nat.le_trans (length_dropWhile_le _ _) (by simp)
    · simp_all

theorem exponentPart?_length {bs rest : List UInt8} {n : Int} (h : exponentPart? bs = some (n, rest)) :
    rest.length ≤ bs.length := by
  unfold exponentPart? at h
  split at h
  · simp_all
  · split at h
    · exact Nat.le_trans (exponent?_length h) (by simp)
    · simp_all

/-- a number takes at least one octet -/
theorem decimal?_length {bs rest : List UInt8} {d : Decimal} (h : decimal? bs = some (d, rest)) :
    rest.length < bs.length := by
  simp only [decimal?, Option.bind_eq_bind] at h
  split at h
  · cases h
  next hw =>
  simp only [Option.bind_eq_some_iff] at h
  obtain ⟨⟨fraction, afterFraction⟩, hf, ⟨e, r⟩, he, h⟩ := h
  dsimp only at he h
  split at h
  · simp only [Option.some.injEq, Prod.mk.injEq] at h
    have h1 := fraction?_length hf
    have h2 := exponentPart?_length he
    have h3 := minus_length bs
    have h4 : ((minus bs).2.dropWhile isDigit).length < (minus bs).2.length := by
      apply length_dropWhile_lt
      simp only [Bool.or_eq_true, not_or, Bool.not_eq_true] at hw
      exact hw.1
    rw [← h.2]
    omega
  · cases h

/-! ## Tokens -/

/-- what follows a word, if the text starts with the word and the word ends there -/
def word? (spelling : List UInt8) (bs : List UInt8) : Option (List UInt8) :=
  let rest := bs.drop spelling.length
  if spelling.isPrefixOf bs && ends rest then some rest else none

def punctuation? (b : UInt8) : Option Token :=
  if b == octet '\x7b' then some .openObject
  else if b == octet '\x7d' then some .closeObject
  else if b == octet '[' then some .openList
  else if b == octet ']' then some .closeList
  else if b == octet ':' then some .colon
  else if b == octet ',' then some .comma
  else none

/-- one of the three words, or a number that is finite in 64 bits -/
def plain? (bs : List UInt8) : Option (Token × List UInt8) :=
  ((word? (Utf8.encode "null") bs).map fun rest => (.null, rest))
    <|> ((word? (Utf8.encode "true") bs).map fun rest => (.bool true, rest))
    <|> ((word? (Utf8.encode "false") bs).map fun rest => (.bool false, rest))
    <|> (decimal? bs).bind fun (d, rest) =>
      if d.toBinary64.isFinite then some (.number d.toBinary64, rest) else none

/-- the first token of a text that does not start with a space -/
def Token.next : List UInt8 → Except Fault (Token × List UInt8)
  | [] => .error .truncated
  | b :: rest =>
    if b == octet '"' then
      match stringBody [] rest with
      | .ok (cs, after) => .ok (.string (spelling rest) (String.ofList cs), after)
      | .error f => .error f
    else
      match punctuation? b with
      | some t => .ok (t, rest)
      | none =>
        match plain? (b :: rest) with
        | some r => .ok r
        | none => .error .malformed

theorem word?_length {w bs rest : List UInt8} (hw : w ≠ []) (h : word? w bs = some rest) :
    rest.length < bs.length := by
  unfold word? at h
  dsimp only at h
  split at h
  next hp =>
    simp only [Bool.and_eq_true, List.isPrefixOf_iff_prefix] at hp
    have h1 := hp.1.length_le
    have h2 := List.length_pos_iff.mpr hw
    simp only [Option.some.injEq] at h
    rw [← h, List.length_drop]
    omega
  · cases h

theorem plain?_length {bs rest : List UInt8} {t : Token} (h : plain? bs = some (t, rest)) :
    rest.length < bs.length := by
  simp only [plain?, Option.orElse_eq_orElse, Option.orElse_eq_or, Option.or_eq_some_iff, Option.map_eq_some_iff,
    Option.bind_eq_some_iff, Prod.mk.injEq, Option.map_eq_none_iff] at h
  rcases h with ⟨r, hr, -, rfl⟩ | ⟨-, ⟨r, hr, -, rfl⟩ | ⟨-, ⟨r, hr, -, rfl⟩ | ⟨-, ⟨d, r⟩, hr, h⟩⟩⟩
  · exact word?_length (by decide) hr
  · exact word?_length (by decide) hr
  · exact word?_length (by decide) hr
  · split at h
    · simp only [Option.some.injEq, Prod.mk.injEq] at h
      rw [← h.2]
      exact decimal?_length hr
    · cases h

/-- a token takes at least one octet -/
theorem Token.next_length {bs rest : List UInt8} {t : Token} (h : Token.next bs = .ok (t, rest)) :
    rest.length < bs.length := by
  unfold Token.next at h
  split at h
  · cases h
  · split at h
    · split at h
      next hs =>
        cases h
        have := stringBody_length hs
        simp only [List.length_cons]
        omega
      · cases h
    · split at h
      · cases h
        simp
      · split at h
        next hp =>
          cases h
          exact plain?_length hp
        · cases h

/-- the tokens of a text, and the fault after them if they are not all of it -/
def Token.scan (bs : List UInt8) : List Token × Option Fault :=
  let text := bs.dropWhile isSpace
  if text.isEmpty then ([], none)
  else
    match h : Token.next text with
    | .error f => ([], some f)
    | .ok (t, rest) =>
      have : rest.length < bs.length := Nat.lt_of_lt_of_le (Token.next_length h) (length_dropWhile_le _ _)
      let (ts, fault) := Token.scan rest
      (t :: ts, fault)
termination_by bs.length

end LetStack.Json

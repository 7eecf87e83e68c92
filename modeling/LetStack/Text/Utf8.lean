/-
UTF-8: the octets of a text, and reading characters back from octets.

`encode` writes a text. `next?` splits the first character off an octet sequence and refuses what is no well-formed
character: a stray or missing continuation octet, an overlong form, a surrogate, a number above 0x10FFFF. `decode?`
reads a whole sequence. Every reader of this library takes octets, so the formats can tell a bad octet from a bad
character.
-/

namespace LetStack.Utf8

/-- the octets of a text -/
def encode (s : String) : List UInt8 := s.toList.flatMap String.utf8EncodeChar

/-- what a lead octet announces -/
structure Lead where
  /-- how many continuation octets follow -/
  more : Nat
  /-- the bits of the character that the lead octet carries -/
  bits : Nat
  /-- the least character that may be written with so many octets -/
  least : Nat

def Lead.ofOctet? (b : UInt8) : Option Lead :=
  let x := b.toNat
  if x < 0x80 then some ⟨0, x, 0⟩
  else if x < 0xC0 then none
  else if x < 0xE0 then some ⟨1, x % 32, 0x80⟩
  else if x < 0xF0 then some ⟨2, x % 16, 0x800⟩
  else if x < 0xF8 then some ⟨3, x % 8, 0x10000⟩
  else none

/-- appends the six bits of each of `n` continuation octets to `acc` -/
def continuations? : Nat → Nat → List UInt8 → Option (Nat × List UInt8)
  | 0, acc, bs => some (acc, bs)
  | _ + 1, _, [] => none
  | n + 1, acc, b :: bs =>
    if 0x80 ≤ b.toNat && b.toNat < 0xC0 then continuations? n (acc * 64 + b.toNat % 64) bs else none

/-- splits off the first character; `none` if there is none or it is malformed -/
def next? : List UInt8 → Option (Char × List UInt8)
  | [] => none
  | b :: bs => do
    let lead ← Lead.ofOctet? b
    let (n, rest) ← continuations? lead.more lead.bits bs
    if lead.least ≤ n ∧ n.isValidChar then some (Char.ofNat n, rest) else none

theorem continuations?_length {n acc m : Nat} {bs rest : List UInt8}
    (h : continuations? n acc bs = some (m, rest)) : rest.length ≤ bs.length := by
  induction n generalizing acc bs with
  | zero =>
    simp only [continuations?, Option.some.injEq, Prod.mk.injEq] at h
    simp [h.2]
  | succ n ih =>
    cases bs with
    | nil => simp [continuations?] at h
    | cons b bs =>
      simp only [continuations?] at h
      split at h
      · have := ih h
        simp only [List.length_cons]
        omega
      · cases h

/-- a character takes at least one octet -/
theorem next?_length {bs rest : List UInt8} {c : Char} (h : next? bs = some (c, rest)) :
    rest.length < bs.length := by
  cases bs with
  | nil => simp [next?] at h
  | cons b bs =>
    simp only [next?, Option.bind_eq_bind, Option.bind_eq_some_iff] at h
    obtain ⟨lead, -, ⟨n, r⟩, hr, h⟩ := h
    split at h
    · simp only [Option.some.injEq, Prod.mk.injEq] at h
      have := continuations?_length hr
      simp only [← h.2, List.length_cons]
      omega
    · cases h

/-- the characters of an octet sequence, if all of it is well formed -/
def characters? (bs : List UInt8) : Option (List Char) :=
  if bs.isEmpty then some []
  else
    match h : next? bs with
    | none => none
    | some (c, rest) =>
      have := next?_length h
      (characters? rest).map (c :: ·)
termination_by bs.length

/-- the text with these octets, if they are well formed -/
def decode? (bs : List UInt8) : Option String := (characters? bs).map String.ofList

end LetStack.Utf8

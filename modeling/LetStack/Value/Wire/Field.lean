/-
Fields of the wire format.

A field is a tag, which holds the field's number and the type of what follows, and its content. Numbers are written
seven bits an octet, the lowest first; the top bit of an octet says that more follow. `field?` takes the first field
off a message; content of a type that no message here uses is skipped.
-/
import LetStack.Text.Octet

namespace LetStack.Wire

-- powers are those of the core library, whatever else is imported; so exponents have their type below
attribute [local instance (2000)] instPowNat

/-! ## Numbers -/

/-- the octets of a number -/
def varint (n : Nat) : List UInt8 :=
  if n < 128 then [n.toUInt8] else (n % 128 + 128).toUInt8 :: varint (n / 128)
termination_by n

/-- a number of which `before` octets were read: there are at most ten, and the tenth is at most 1, so that the number
has 64 bits -/
def varintFrom? : (before : Nat) → List UInt8 → Option (Nat × List UInt8)
  | _, [] => none
  | before, b :: bs =>
    if before = 9 then (if b.toNat ≤ 1 then some (b.toNat, bs) else none)
    else if b.toNat < 128 then some (b.toNat, bs)
    else (varintFrom? (before + 1) bs).map fun (high, rest) => (b.toNat - 128 + 128 * high, rest)

def varint? (bs : List UInt8) : Option (Nat × List UInt8) := varintFrom? 0 bs

/-- `count` octets of a number, the lowest first -/
def littleEndian (n : Nat) : (count : Nat) → List UInt8
  | 0 => []
  | count + 1 => (n % 256).toUInt8 :: littleEndian (n / 256) count

def ofLittleEndian (bs : List UInt8) : Nat := bs.foldr (fun b high => b.toNat + 256 * high) 0

/-- the first `count` octets and the rest -/
def split? (count : Nat) (bs : List UInt8) : Option (List UInt8 × List UInt8) :=
  if count ≤ bs.length then some (bs.take count, bs.drop count) else none

/-- a length and so many octets -/
def delimited? (bs : List UInt8) : Option (List UInt8 × List UInt8) :=
  (varint? bs).bind fun (count, rest) => split? count rest

/-- a length and the octets -/
def delimited (bs : List UInt8) : List UInt8 := varint bs.length ++ bs

theorem varintFrom?_length {before n : Nat} {bs rest : List UInt8} (h : varintFrom? before bs = some (n, rest)) :
    rest.length < bs.length := by
  induction bs generalizing before n rest with
  | nil => simp [varintFrom?] at h
  | cons b bs ih =>
    simp only [varintFrom?] at h
    split at h
    · split at h
      · simp only [Option.some.injEq, Prod.mk.injEq] at h
        simp [h.2]
      · cases h
    · split at h
      · simp only [Option.some.injEq, Prod.mk.injEq] at h
        simp [h.2]
      · simp only [Option.map_eq_some_iff, Prod.mk.injEq] at h
        obtain ⟨⟨high, r⟩, hr, -, h⟩ := h
        dsimp only at h
        have := ih hr
        rw [← h, List.length_cons]
        omega

theorem varint?_length {n : Nat} {bs rest : List UInt8} (h : varint? bs = some (n, rest)) :
    rest.length < bs.length := varintFrom?_length h

theorem split?_length {count : Nat} {bs out rest : List UInt8} (h : split? count bs = some (out, rest)) :
    out.length + rest.length = bs.length := by
  unfold split? at h
  split at h
  · simp only [Option.some.injEq, Prod.mk.injEq] at h
    rw [← h.1, ← h.2, List.length_take, List.length_drop]
    omega
  · cases h

theorem delimited?_length {bs out rest : List UInt8} (h : delimited? bs = some (out, rest)) :
    out.length + rest.length < bs.length := by
  simp only [delimited?, Option.bind_eq_some_iff] at h
  obtain ⟨⟨count, r⟩, hr, h⟩ := h
  have h1 := varint?_length hr
  have h2 := split?_length h
  dsimp only at h2
  omega

/-! ## Tags -/

/-- a tag: the number of a field and the type of its content -/
structure Tag where
  number : Nat
  type : Nat
deriving DecidableEq, Repr

def Tag.octets (t : Tag) : List UInt8 := varint (t.number * 8 + t.type)

/-- a tag whose number is from 1 to `greatest` -/
def tag? (greatest : Nat) (bs : List UInt8) : Option (Tag × List UInt8) :=
  (varint? bs).bind fun (n, rest) =>
    if 1 ≤ n / 8 ∧ n / 8 ≤ greatest then some (⟨n / 8, n % 8⟩, rest) else none

/-- the greatest number of a field of a message -/
def greatestNumber : Nat := 2 ^ (29 : Nat) - 1

/-- the greatest number of a field inside a group that is skipped -/
def greatestSkippedNumber : Nat := 2 ^ (31 : Nat) - 1

theorem tag?_length {greatest : Nat} {bs rest : List UInt8} {t : Tag} (h : tag? greatest bs = some (t, rest)) :
    rest.length < bs.length := by
  simp only [tag?, Option.bind_eq_some_iff] at h
  obtain ⟨⟨n, r⟩, hr, h⟩ := h
  dsimp only at h
  split at h
  · simp only [Option.some.injEq, Prod.mk.injEq] at h
    rw [← h.2]
    exact varint?_length hr
  · cases h

/-! ## Contents -/

inductive Content where
  | varint (n : Nat)
  | fixed64 (bits : Nat)
  | octets (bs : List UInt8)
  /-- of a type that no message here uses -/
  | skipped

/-- the content of a field that is no group -/
def content? (type : Nat) (bs : List UInt8) : Option (Content × List UInt8) :=
  if type = 0 then (varint? bs).map fun (n, rest) => (.varint n, rest)
  else if type = 1 then (split? 8 bs).map fun (octets, rest) => (.fixed64 (ofLittleEndian octets), rest)
  else if type = 2 then (delimited? bs).map fun (octets, rest) => (.octets octets, rest)
  else if type = 5 then (split? 4 bs).map fun (_, rest) => (.skipped, rest)
  else none

/-- how many octets of content a message may still be read from -/
def Content.length : Content → Nat
  | .octets bs => bs.length
  | _ => 0

theorem content?_length {type : Nat} {bs rest : List UInt8} {c : Content} (h : content? type bs = some (c, rest)) :
    c.length + rest.length ≤ bs.length := by
  unfold content? at h
  split at h
  · simp only [Option.map_eq_some_iff, Prod.mk.injEq] at h
    obtain ⟨⟨n, r⟩, hr, rfl, rfl⟩ := h
    have := varint?_length hr
    simp only [Content.length]
    omega
  · split at h
    · simp only [Option.map_eq_some_iff, Prod.mk.injEq] at h
      obtain ⟨⟨o, r⟩, hr, rfl, rfl⟩ := h
      have := split?_length hr
      simp only [Content.length]
      omega
    · split at h
      · simp only [Option.map_eq_some_iff, Prod.mk.injEq] at h
        obtain ⟨⟨o, r⟩, hr, rfl, rfl⟩ := h
        have := delimited?_length hr
        simp only [Content.length]
        omega
      · split at h
        · simp only [Option.map_eq_some_iff, Prod.mk.injEq] at h
          obtain ⟨⟨o, r⟩, hr, rfl, rfl⟩ := h
          have := split?_length hr
          simp only [Content.length]
          omega
        · cases h

/-- what follows the open groups with these numbers, the innermost first. Each ends with a tag of type 4 and its own
number. -/
def skipGroups? (groups : List Nat) (bs : List UInt8) : Option (List UInt8) :=
  match groups with
  | [] => some bs
  | group :: outer =>
    match h : tag? greatestSkippedNumber bs with
    | none => none
    | some (tag, rest) =>
      have := tag?_length h
      if tag.type = 3 then skipGroups? (tag.number :: group :: outer) rest
      else if tag.type = 4 then (if tag.number = group then skipGroups? outer rest else none)
      else
        match hc : content? tag.type rest with
        | none => none
        | some (_, after) =>
          have := content?_length hc
          skipGroups? (group :: outer) after
termination_by bs.length

theorem skipGroups?_length {groups : List Nat} {bs rest : List UInt8} (h : skipGroups? groups bs = some rest) :
    rest.length ≤ bs.length := by
  fun_induction skipGroups? groups bs with
  | case1 => simp_all
  | case2 => cases h
  | case3 bs group outer tag r hr hlt ht ih =>
    have := ih h
    omega
  | case4 bs outer tag r hr hlt h3 h4 ih =>
    have := ih h
    omega
  | case5 => cases h
  | case6 => cases h
  | case7 bs group outer tag r hr hlt h3 h4 c after hc hle ih =>
    have := ih h
    omega

/-- the first field of a message: its number, its content, and the rest -/
def field? (bs : List UInt8) : Option (Nat × Content × List UInt8) :=
  (tag? greatestNumber bs).bind fun (tag, rest) =>
    if tag.type = 3 then (skipGroups? [tag.number] rest).map fun after => (tag.number, .skipped, after)
    else (content? tag.type rest).map fun (c, after) => (tag.number, c, after)

/-- a field is longer than its content -/
theorem field?_length {n : Nat} {bs rest : List UInt8} {c : Content} (h : field? bs = some (n, c, rest)) :
    c.length + rest.length < bs.length := by
  simp only [field?, Option.bind_eq_some_iff] at h
  obtain ⟨⟨tag, r⟩, hr, h⟩ := h
  have h1 := tag?_length hr
  dsimp only at h
  split at h
  · simp only [Option.map_eq_some_iff, Prod.mk.injEq] at h
    obtain ⟨after, ha, -, rfl, rfl⟩ := h
    have := skipGroups?_length ha
    simp only [Content.length]
    omega
  · simp only [Option.map_eq_some_iff, Prod.mk.injEq] at h
    obtain ⟨⟨c', after⟩, ha, -, rfl, rfl⟩ := h
    have := content?_length ha
    dsimp only
    omega

end LetStack.Wire

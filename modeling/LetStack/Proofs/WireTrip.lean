/-
The wire format: what is written is read back.

A number that fits 64 bits is read back with nothing of what follows it, and so is a field. A plain value is written as
one field, an object as one field for each entry, in the order of the keys, and reading puts them together again. The
only limit is that lengths are numbers of 64 bits: every length in the octets of a value is less than their number.

Results:
- `Wire.varint?_varint`, `Wire.field?_octetsField` and its like: numbers and fields;
- `Wire.read?_write`: a plain value whose octets are fewer than 2^64 is read back.
-/
import LetStack.Proofs.Characters
import LetStack.Proofs.Plain
import LetStack.Value.Wire.Reader
import LetStack.Value.Wire.Writer

namespace LetStack

/-! ## Numbers -/

/-- the bits of a number spell it -/
theorem Binary64.ofBits_toBits (x : Binary64) : ofBits x.toBits = x := by
  obtain ⟨negative, magnitude, hlt⟩ := x
  cases negative with
  | false =>
    simp only [ofBits, toBits, Bool.false_eq_true, if_false, mk.injEq, decide_eq_false_iff_not]
    omega
  | true =>
    simp only [ofBits, toBits, if_true, mk.injEq, decide_eq_true_eq]
    omega

theorem Binary64.toBits_lt (x : Binary64) : x.toBits < 2 ^ 64 := by
  have hlt := x.magnitude_lt
  unfold toBits
  split <;> omega

namespace Wire

/-- the number of bits that are left after `before` octets bounds the number that is read -/
theorem varintFrom?_varint {before n : ℕ} (hbefore : before ≤ 9) (hn : n < 2 ^ (64 - 7 * before)) (rest : List UInt8) :
    varintFrom? before (varint n ++ rest) = some (n, rest) := by
  induction n using varint.induct generalizing before with
  | case1 n hsmall =>
    have hnat : n.toUInt8.toNat = n := Utf8.toNat_ofNat (by omega)
    rw [varint, if_pos hsmall, List.singleton_append, varintFrom?, hnat]
    by_cases hlast : before = 9
    · rw [if_pos hlast, if_pos]
      rw [hlast] at hn
      omega
    · rw [if_neg hlast, if_pos hsmall]
  | case2 n hlarge ih =>
    have hnat : (n % 128 + 128).toUInt8.toNat = n % 128 + 128 := Utf8.toNat_ofNat (by omega)
    have hlast : before ≠ 9 := by
      rintro rfl
      omega
    have hhigh : n / 128 < 2 ^ (64 - 7 * (before + 1)) := by
      have hpow : 2 ^ (64 - 7 * before) = 2 ^ (64 - 7 * (before + 1)) * 128 := by
        rw [show 64 - 7 * before = 64 - 7 * (before + 1) + 7 by omega, pow_add]
        rfl
      rw [Nat.div_lt_iff_lt_mul (by decide)]
      omega
    rw [varint, if_neg hlarge, List.cons_append, varintFrom?, if_neg hlast, hnat, if_neg (by omega),
      ih (by omega) hhigh, Option.map_some]
    have hsum : n % 128 + 128 - 128 + 128 * (n / 128) = n := by omega
    simp only [hsum]

theorem varint?_varint {n : ℕ} (hn : n < 2 ^ 64) (rest : List UInt8) : varint? (varint n ++ rest) = some (n, rest) :=
  varintFrom?_varint (by decide) hn rest

theorem length_littleEndian (n count : ℕ) : (littleEndian n count).length = count := by
  induction count generalizing n with
  | zero => rfl
  | succ count ih => rw [littleEndian, List.length_cons, ih]

theorem ofLittleEndian_littleEndian {n count : ℕ} (hn : n < 256 ^ count) :
    ofLittleEndian (littleEndian n count) = n := by
  induction count generalizing n with
  | zero =>
    obtain rfl : n = 0 := by omega
    rfl
  | succ count ih =>
    have hhigh : n / 256 < 256 ^ count := by
      rw [Nat.div_lt_iff_lt_mul (by decide), ← pow_succ]
      exact hn
    have hnat : (n % 256).toUInt8.toNat = n % 256 := Utf8.toNat_ofNat (by omega)
    have hcons : ofLittleEndian (littleEndian n (count + 1)) =
        (n % 256).toUInt8.toNat + 256 * ofLittleEndian (littleEndian (n / 256) count) := rfl
    rw [hcons, ih hhigh, hnat]
    omega

/-! ## Fields -/

theorem split?_append {bs : List UInt8} {count : ℕ} (h : bs.length = count) (rest : List UInt8) :
    split? count (bs ++ rest) = some (bs, rest) := by
  subst h
  rw [split?, if_pos (by simp), List.take_left, List.drop_left]

theorem delimited?_delimited {bs : List UInt8} (h : bs.length < 2 ^ 64) (rest : List UInt8) :
    delimited? (delimited bs ++ rest) = some (bs, rest) := by
  rw [delimited?, delimited, List.append_assoc, varint?_varint h, Option.bind_some]
  exact split?_append rfl rest

/-- a tag is read back if its number is one of a field -/
theorem tag?_octets {number type : ℕ} (hnumber : 1 ≤ number ∧ number ≤ greatestNumber) (htype : type < 8)
    (rest : List UInt8) : tag? greatestNumber (Tag.octets ⟨number, type⟩ ++ rest) = some (⟨number, type⟩, rest) := by
  have hmax : greatestNumber = 2 ^ 29 - 1 := rfl
  have hdiv : (number * 8 + type) / 8 = number := by omega
  have hmod : (number * 8 + type) % 8 = type := by omega
  rw [tag?, Tag.octets, varint?_varint (by simp only; omega), Option.bind_some]
  simp only [hdiv, hmod]
  rw [if_pos hnumber]

/-- the first field of a message, from its tag and its content -/
theorem field?_tag {number type : ℕ} (hnumber : 1 ≤ number ∧ number ≤ greatestNumber) (htype : type < 8)
    (hgroup : type ≠ 3)
    {bs after : List UInt8} {c : Content} (hcontent : content? type bs = some (c, after)) :
    field? (Tag.octets ⟨number, type⟩ ++ bs) = some (number, c, after) := by
  rw [field?, tag?_octets hnumber htype, Option.bind_some]
  simp only
  rw [if_neg hgroup, hcontent, Option.map_some]

theorem field?_varintField {number n : ℕ} (hnumber : 1 ≤ number ∧ number ≤ greatestNumber) (hn : n < 2 ^ 64)
    (rest : List UInt8) : field? (varintField number n ++ rest) = some (number, .varint n, rest) := by
  rw [varintField, List.append_assoc]
  refine field?_tag hnumber (by decide) (by decide) ?_
  rw [content?, if_pos rfl, varint?_varint hn, Option.map_some]

theorem field?_fixed64 {number n : ℕ} (hnumber : 1 ≤ number ∧ number ≤ greatestNumber) (hn : n < 2 ^ 64)
    (rest : List UInt8) :
    field? (Tag.octets ⟨number, 1⟩ ++ (littleEndian n 8 ++ rest)) = some (number, .fixed64 n, rest) := by
  refine field?_tag hnumber (by decide) (by decide) ?_
  have hvalue : ofLittleEndian (littleEndian n 8) = n := ofLittleEndian_littleEndian (by omega)
  rw [content?, if_neg (by decide), if_pos rfl, split?_append (length_littleEndian n 8), Option.map_some]
  simp only [hvalue]

theorem field?_octetsField {number : ℕ} (hnumber : 1 ≤ number ∧ number ≤ greatestNumber) (bs : List UInt8)
    (hbs : bs.length < 2 ^ 64) (rest : List UInt8) :
    field? (octetsField number bs ++ rest) = some (number, .octets bs, rest) := by
  rw [octetsField, List.append_assoc]
  refine field?_tag hnumber (by decide) (by decide) ?_
  rw [content?, if_neg (by decide), if_neg (by decide), if_pos rfl, delimited?_delimited hbs, Option.map_some]

theorem length_octetsField (number : ℕ) (bs : List UInt8) : bs.length ≤ (octetsField number bs).length := by
  simp only [octetsField, delimited, List.length_append]
  omega

/-! ## Messages, one field at a time -/

section

variable {bs inner rest : List UInt8}

theorem isEmpty_of_field? {r : ℕ × Content × List UInt8} (h : field? bs = some r) : bs.isEmpty = false := by
  cases bs with
  | nil => cases h
  | cons b bs => rfl

theorem readValue_nil (v : Value) : readValue v [] = some v := by
  rw [readValue]
  rfl

theorem readValue_null {n : ℕ} (v : Value) (h : field? bs = some (1, .varint n, rest)) :
    readValue v bs = readValue .null rest := by
  rw [readValue, isEmpty_of_field? h]
  simp only [Bool.false_eq_true, if_false]
  split <;> simp_all

theorem readValue_number {n : ℕ} (v : Value) (h : field? bs = some (2, .fixed64 n, rest)) :
    readValue v bs = readValue (.number (Binary64.ofBits n)) rest := by
  rw [readValue, isEmpty_of_field? h]
  simp only [Bool.false_eq_true, if_false]
  split <;> simp_all

theorem readValue_string (v : Value) {s : String} (h : field? bs = some (3, .octets (Utf8.encode s), rest)) :
    readValue v bs = readValue (.string s) rest := by
  rw [readValue, isEmpty_of_field? h]
  simp only [Bool.false_eq_true, if_false]
  split <;> simp_all [Utf8.decode?_encode]

theorem readValue_bool {n : ℕ} (v : Value) (h : field? bs = some (4, .varint n, rest)) :
    readValue v bs = readValue (.bool (n != 0)) rest := by
  rw [readValue, isEmpty_of_field? h]
  simp only [Bool.false_eq_true, if_false]
  split <;> simp_all

theorem readValue_object {ms : Members} (h : field? bs = some (5, .octets inner, rest))
    (hinner : readStruct [] inner = some ms) : readValue .unset bs = readValue (.object ms) rest := by
  rw [readValue, isEmpty_of_field? h]
  simp only [Bool.false_eq_true, if_false]
  split <;> simp_all [members]

theorem readValue_list {vs : List Value} (h : field? bs = some (6, .octets inner, rest))
    (hinner : readList [] inner = some vs) : readValue .unset bs = readValue (.list vs) rest := by
  rw [readValue, isEmpty_of_field? h]
  simp only [Bool.false_eq_true, if_false]
  split <;> simp_all [items]

theorem readStruct_nil (ms : Members) : readStruct ms [] = some ms := by
  rw [readStruct]
  rfl

theorem readStruct_entry (ms : Members) {key : String} {v : Value} (h : field? bs = some (1, .octets inner, rest))
    (hinner : readEntry "" .unset inner = some (key, v)) :
    readStruct ms bs = readStruct (Members.insert key v ms) rest := by
  rw [readStruct, isEmpty_of_field? h]
  simp only [Bool.false_eq_true, if_false]
  split <;> simp_all

theorem readEntry_nil (key : String) (v : Value) : readEntry key v [] = some (key, v) := by
  rw [readEntry]
  rfl

theorem readEntry_key (key : String) (v : Value) {s : String}
    (h : field? bs = some (1, .octets (Utf8.encode s), rest)) :
    readEntry key v bs = readEntry s v rest := by
  rw [readEntry, isEmpty_of_field? h]
  simp only [Bool.false_eq_true, if_false]
  split <;> simp_all [Utf8.decode?_encode]

theorem readEntry_value (key : String) {u v : Value} (h : field? bs = some (2, .octets inner, rest))
    (hinner : readValue u inner = some v) : readEntry key u bs = readEntry key v rest := by
  rw [readEntry, isEmpty_of_field? h]
  simp only [Bool.false_eq_true, if_false]
  split <;> simp_all

theorem readList_nil (vs : List Value) : readList vs [] = some vs.reverse := by
  rw [readList]
  rfl

theorem readList_item (vs : List Value) {v : Value} (h : field? bs = some (1, .octets inner, rest))
    (hinner : readValue .unset inner = some v) : readList vs bs = readList (v :: vs) rest := by
  rw [readList, isEmpty_of_field? h]
  simp only [Bool.false_eq_true, if_false]
  split <;> simp_all

end

/-! ## Values -/

/-- the numbers of the fields in use are numbers of fields -/
theorem number_of_le {n : ℕ} (h : 1 ≤ n ∧ n ≤ 6) : 1 ≤ n ∧ n ≤ greatestNumber := by
  have hmax : greatestNumber = 2 ^ 29 - 1 := rfl
  omega

theorem readEntry_write (key : String) {v : Value} (hv : readValue .unset (write v) = some v)
    (hlength : (octetsField 1 (Utf8.encode key) ++ octetsField 2 (write v)).length < 2 ^ 64) :
    readEntry "" .unset (octetsField 1 (Utf8.encode key) ++ octetsField 2 (write v)) = some (key, v) := by
  have h1 := length_octetsField 1 (Utf8.encode key)
  have h2 := length_octetsField 2 (write v)
  rw [List.length_append] at hlength
  have hvalue := field?_octetsField (number_of_le (n := 2) (by decide)) (write v) (by omega) []
  rw [List.append_nil] at hvalue
  rw [readEntry_key _ _ (field?_octetsField (number_of_le (by decide)) _ (by omega) _), readEntry_value _ hvalue hv,
    readEntry_nil]

/-- entries in order are added at the end -/
theorem readStruct_writeEntries (acc : Members) {ms : Members} (hsorted : Members.Sorted (acc ++ ms))
    (hms : ∀ m ∈ ms, (write m.2).length < 2 ^ 64 → readValue .unset (write m.2) = some m.2)
    (hlength : (writeEntries ms).length < 2 ^ 64) : readStruct acc (writeEntries ms) = some (acc ++ ms) := by
  induction ms generalizing acc with
  | nil => rw [writeEntries, readStruct_nil, List.append_nil]
  | cons m ms ih =>
    obtain ⟨key, v⟩ := m
    rw [writeEntries, List.length_append] at hlength
    have h1 := length_octetsField 1 (octetsField 1 (Utf8.encode key) ++ octetsField 2 (write v))
    have h2 := length_octetsField 2 (write v)
    have hentry : (octetsField 1 (Utf8.encode key) ++ octetsField 2 (write v)).length < 2 ^ 64 := by omega
    have hvalue : (write v).length < 2 ^ 64 := by
      rw [List.length_append] at hentry
      omega
    obtain ⟨hv, hms⟩ := List.forall_mem_cons.1 hms
    have hless : ∀ m ∈ acc, m.1 < key := fun m hm =>
      (List.pairwise_append.1 hsorted).2.2 m hm (key, v) List.mem_cons_self
    rw [writeEntries, readStruct_entry acc (field?_octetsField (number_of_le (by decide)) _ hentry _)
      (readEntry_write key (hv hvalue) hentry), Members.insert_of_forall_lt hless,
      ih _ (by simpa using hsorted) hms (by omega)]
    simp

theorem readList_writeItems (acc : List Value) {vs : List Value}
    (hvs : ∀ v ∈ vs, (write v).length < 2 ^ 64 → readValue .unset (write v) = some v)
    (hlength : (writeItems vs).length < 2 ^ 64) : readList acc (writeItems vs) = some (acc.reverse ++ vs) := by
  induction vs generalizing acc with
  | nil => rw [writeItems, readList_nil, List.append_nil]
  | cons v vs ih =>
    rw [writeItems, List.length_append] at hlength
    have h1 := length_octetsField 1 (write v)
    obtain ⟨hv, hvs⟩ := List.forall_mem_cons.1 hvs
    rw [writeItems, readList_item acc (field?_octetsField (number_of_le (by decide)) _ (by omega) _) (hv (by omega)),
      ih _ hvs (by omega)]
    simp

theorem readValue_write {v : Value} (hv : v.IsPlain) (hlength : (write v).length < 2 ^ 64) :
    readValue .unset (write v) = some v := by
  induction hv with
  | null =>
    have hfield := field?_varintField (number_of_le (n := 1) (by decide)) (n := 0) (by decide) []
    rw [List.append_nil] at hfield
    rw [write, readValue_null _ hfield, readValue_nil]
  | @number x finite =>
    have hfield := field?_fixed64 (number_of_le (n := 2) (by decide)) x.toBits_lt []
    rw [List.append_nil] at hfield
    rw [write, readValue_number _ hfield, readValue_nil, Binary64.ofBits_toBits]
  | @string s =>
    rw [write] at hlength ⊢
    have h1 := length_octetsField 3 (Utf8.encode s)
    have hfield := field?_octetsField (number_of_le (n := 3) (by decide)) (Utf8.encode s) (by omega) []
    rw [List.append_nil] at hfield
    rw [readValue_string _ hfield, readValue_nil]
  | @bool b =>
    have hfield :=
      field?_varintField (number_of_le (n := 4) (by decide)) (n := if b then 1 else 0) (by split <;> decide) []
    rw [List.append_nil] at hfield
    rw [write, readValue_bool _ hfield, readValue_nil]
    cases b <;> rfl
  | @object ms sorted plain ih =>
    rw [write] at hlength ⊢
    have h1 := length_octetsField 5 (writeEntries ms)
    have hfield := field?_octetsField (number_of_le (n := 5) (by decide)) (writeEntries ms) (by omega) []
    rw [List.append_nil] at hfield
    rw [readValue_object hfield (readStruct_writeEntries [] sorted ih (by omega)), readValue_nil]
    rfl
  | @list vs plain ih =>
    rw [write] at hlength ⊢
    have h1 := length_octetsField 6 (writeItems vs)
    have hfield := field?_octetsField (number_of_le (n := 6) (by decide)) (writeItems vs) (by omega) []
    rw [List.append_nil] at hfield
    rw [readValue_list hfield (readList_writeItems [] ih (by omega)), readValue_nil]
    rfl

/-- **The wire format.** A plain value is read back if its octets are fewer than 2^64. -/
theorem read?_write {v : Value} (hv : v.IsPlain) (hlength : (write v).length < 2 ^ 64) : read? (write v) = some v :=
  readValue_write hv hlength

end Wire

end LetStack

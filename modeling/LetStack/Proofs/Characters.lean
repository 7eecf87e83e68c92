/-
Characters as octets.

A text is written character by character, and each character can be split off again (`Utf8.next?_encodeChar`), so
reading the octets of a text gives the text. ASCII characters are one octet each; in particular the digits of a number
keep their value.

Results:
- `Utf8.next?_encodeChar`, `Utf8.decode?_encode`: characters and texts are read back;
- `Utf8.eq_of_next?`: what is read as a character is how it is written;
- `Octet.decimalValue_map_octet`, `Octet.hexNumber?_hex`: digits keep their value.
-/
import LetStack.Text.Octet
import LetStack.Text.Quoted
import LetStack.Text.Utf8
import Mathlib.Tactic

namespace LetStack

namespace Utf8

/-! ## One character -/

theorem toNat_ofNat {n : ℕ} (h : n < 256) : (UInt8.ofNat n).toNat = n := UInt8.toNat_ofNat_of_lt' h

namespace Lead

theorem ofOctet?_one {x : ℕ} (hx : x < 128) : ofOctet? (UInt8.ofNat x) = some ⟨0, x, 0⟩ := by
  rw [ofOctet?, toNat_ofNat (by omega)]
  simp [hx]

theorem ofOctet?_two {x : ℕ} (hx : x < 32) : ofOctet? (UInt8.ofNat (x + 192)) = some ⟨1, x, 0x80⟩ := by
  have hbits : (x + 192) % 32 = x := by omega
  rw [ofOctet?, toNat_ofNat (by omega)]
  rw [if_neg (by omega), if_neg (by omega), if_pos (by omega), hbits]

theorem ofOctet?_three {x : ℕ} (hx : x < 16) : ofOctet? (UInt8.ofNat (x + 224)) = some ⟨2, x, 0x800⟩ := by
  have hbits : (x + 224) % 16 = x := by omega
  rw [ofOctet?, toNat_ofNat (by omega)]
  rw [if_neg (by omega), if_neg (by omega), if_neg (by omega), if_pos (by omega), hbits]

theorem ofOctet?_four {x : ℕ} (hx : x < 8) : ofOctet? (UInt8.ofNat (x + 240)) = some ⟨3, x, 0x10000⟩ := by
  have hbits : (x + 240) % 8 = x := by omega
  rw [ofOctet?, toNat_ofNat (by omega)]
  rw [if_neg (by omega), if_neg (by omega), if_neg (by omega), if_neg (by omega), if_pos (by omega), hbits]

/-- the octets that announce a character -/
theorem ofOctet?_cases {b : UInt8} {lead : Lead} (h : ofOctet? b = some lead) :
    (∃ x < 128, b = UInt8.ofNat x ∧ lead = ⟨0, x, 0⟩) ∨
    (∃ x < 32, b = UInt8.ofNat (x + 192) ∧ lead = ⟨1, x, 0x80⟩) ∨
    (∃ x < 16, b = UInt8.ofNat (x + 224) ∧ lead = ⟨2, x, 0x800⟩) ∨
    (∃ x < 8, b = UInt8.ofNat (x + 240) ∧ lead = ⟨3, x, 0x10000⟩) := by
  have hoctet : ∀ n, n = b.toNat → b = UInt8.ofNat n := by
    rintro n rfl
    exact (UInt8.ofNat_toNat).symm
  unfold ofOctet? at h
  dsimp only at h
  split_ifs at h with h1 h2 h3 h4 h5 <;> cases h
  · exact .inl ⟨_, h1, hoctet _ rfl, rfl⟩
  · exact .inr (.inl ⟨_, Nat.mod_lt _ (by decide), hoctet _ (by omega), rfl⟩)
  · exact .inr (.inr (.inl ⟨_, Nat.mod_lt _ (by decide), hoctet _ (by omega), rfl⟩))
  · exact .inr (.inr (.inr ⟨_, Nat.mod_lt _ (by decide), hoctet _ (by omega), rfl⟩))

end Lead

theorem continuations?_zero (acc : ℕ) (bs : List UInt8) : continuations? 0 acc bs = some (acc, bs) := rfl

/-- a continuation octet adds its six bits -/
theorem continuations?_succ {n acc x : ℕ} (hx : x < 64) (bs : List UInt8) :
    continuations? (n + 1) acc (UInt8.ofNat (x + 128) :: bs) = continuations? n (acc * 64 + x) bs := by
  have hrange : (0x80 ≤ x + 128 && x + 128 < 0xC0) = true := by
    simp
    omega
  have hbits : (x + 128) % 64 = x := by omega
  rw [continuations?, toNat_ofNat (by omega), if_pos hrange, hbits]

theorem next?_eq {b : UInt8} {bs rest : List UInt8} {lead : Lead} {n : ℕ} (hlead : Lead.ofOctet? b = some lead)
    (hmore : continuations? lead.more lead.bits bs = some (n, rest)) (hleast : lead.least ≤ n)
    (hvalid : n.isValidChar) :
    next? (b :: bs) = some (Char.ofNat n, rest) := by
  simp only [next?, hlead, hmore, Option.bind_eq_bind, Option.bind_some]
  rw [if_pos ⟨hleast, hvalid⟩]

/-- a character that is written is read back, whatever follows -/
theorem next?_encodeChar (c : Char) (rest : List UInt8) : next? (String.utf8EncodeChar c ++ rest) = some (c, rest) := by
  have hvalid : c.val.toNat.isValidChar := c.valid
  have hback : Char.ofNat c.val.toNat = c := Char.ofNat_toNat c
  have hmax : c.val.toNat < 0x110000 := by
    rcases hvalid with h | h <;> omega
  have hresult : some (c, rest) = some (Char.ofNat c.val.toNat, rest) := by rw [hback]
  rw [hresult, String.utf8EncodeChar]
  generalize c.val.toNat = v at hvalid hmax
  -- the number is put together again from six bits an octet, the lead octet's first
  split_ifs with h1 h2 h3 <;> simp only [List.cons_append, List.nil_append]
  · exact next?_eq (Lead.ofOctet?_one (x := v) (by omega)) (continuations?_zero _ _) (by simp) hvalid
  · have hn : v / 64 % 32 * 64 + v % 64 = v := by omega
    refine next?_eq (Lead.ofOctet?_two (x := v / 64 % 32) (by omega)) ?_ (by simp only; omega) hvalid
    rw [continuations?_succ (by omega), continuations?_zero, hn]
  · have hn : (v / 4096 % 16 * 64 + v / 64 % 64) * 64 + v % 64 = v := by omega
    refine next?_eq (Lead.ofOctet?_three (x := v / 4096 % 16) (by omega)) ?_ (by simp only; omega) hvalid
    rw [continuations?_succ (by omega), continuations?_succ (by omega), continuations?_zero, hn]
  · have hn : ((v / 262144 % 8 * 64 + v / 4096 % 64) * 64 + v / 64 % 64) * 64 + v % 64 = v := by omega
    refine next?_eq (Lead.ofOctet?_four (x := v / 262144 % 8) (by omega)) ?_ (by simp only; omega) hvalid
    rw [continuations?_succ (by omega), continuations?_succ (by omega), continuations?_succ (by omega),
      continuations?_zero, hn]

/-- a continuation octet is one, and gives its six bits -/
theorem exists_of_continuations?_succ {n acc m : ℕ} {bs rest : List UInt8}
    (h : continuations? (n + 1) acc bs = some (m, rest)) :
    ∃ x < 64, ∃ bs', bs = UInt8.ofNat (x + 128) :: bs' ∧ continuations? n (acc * 64 + x) bs' = some (m, rest) := by
  cases bs with
  | nil => cases h
  | cons b bs' =>
    rw [continuations?] at h
    split at h
    · next hrange =>
      simp only [Bool.and_eq_true, decide_eq_true_eq] at hrange
      have hback : b.toNat % 64 + 128 = b.toNat := by omega
      refine ⟨b.toNat % 64, Nat.mod_lt _ (by decide), bs', ?_, h⟩
      rw [hback, UInt8.ofNat_toNat]
    · cases h

/-- what is read as a character is written so -/
theorem eq_of_next? {bs rest : List UInt8} {c : Char} (h : next? bs = some (c, rest)) :
    bs = String.utf8EncodeChar c ++ rest := by
  cases bs with
  | nil => cases h
  | cons b bs =>
    simp only [next?, Option.bind_eq_bind, Option.bind_eq_some_iff] at h
    obtain ⟨lead, hlead, ⟨n, rest'⟩, hmore, h⟩ := h
    dsimp only at h
    split at h
    case isFalse => cases h
    case isTrue hn =>
    obtain ⟨hleast, hvalid⟩ := hn
    cases h
    have hnat : (Char.ofNat n).val.toNat = n := by
      rw [Char.ofNat, dif_pos hvalid]
      rfl
    rw [String.utf8EncodeChar, hnat]
    -- each continuation octet gives six bits, and the octets of the number are made of the same bits
    rcases Lead.ofOctet?_cases hlead with ⟨x, hx, rfl, rfl⟩ | ⟨x, hx, rfl, rfl⟩ | ⟨x, hx, rfl, rfl⟩ | ⟨x, hx, rfl, rfl⟩
      <;> clear hlead <;> dsimp only at hleast hmore
    · cases hmore
      rw [if_pos (by omega)]
      rfl
    · obtain ⟨y, hy, bs, rfl, hmore1⟩ := exists_of_continuations?_succ hmore
      cases hmore1
      have hx' : (x * 64 + y) / 64 % 32 = x := by omega
      have hy' : (x * 64 + y) % 64 = y := by omega
      rw [if_neg (by omega), if_pos (by omega), hx', hy']
      rfl
    · obtain ⟨y, hy, bs, rfl, hmore1⟩ := exists_of_continuations?_succ hmore
      obtain ⟨z, hz, bs, rfl, hmore2⟩ := exists_of_continuations?_succ hmore1
      cases hmore2
      have hx' : ((x * 64 + y) * 64 + z) / 4096 % 16 = x := by omega
      have hy' : ((x * 64 + y) * 64 + z) / 64 % 64 = y := by omega
      have hz' : ((x * 64 + y) * 64 + z) % 64 = z := by omega
      rw [if_neg (by omega), if_neg (by omega), if_pos (by omega), hx', hy', hz']
      rfl
    · obtain ⟨y, hy, bs, rfl, hmore1⟩ := exists_of_continuations?_succ hmore
      obtain ⟨z, hz, bs, rfl, hmore2⟩ := exists_of_continuations?_succ hmore1
      obtain ⟨w, hw, bs, rfl, hmore3⟩ := exists_of_continuations?_succ hmore2
      cases hmore3
      have hx' : (((x * 64 + y) * 64 + z) * 64 + w) / 262144 % 8 = x := by omega
      have hy' : (((x * 64 + y) * 64 + z) * 64 + w) / 4096 % 64 = y := by omega
      have hz' : (((x * 64 + y) * 64 + z) * 64 + w) / 64 % 64 = z := by omega
      have hw' : (((x * 64 + y) * 64 + z) * 64 + w) % 64 = w := by omega
      rw [if_neg (by omega), if_neg (by omega), if_neg (by omega), hx', hy', hz', hw']
      rfl

/-- each octet of a character is the character itself, or no ASCII character -/
theorem toNat_of_mem_encodeChar {c : Char} {b : UInt8} (hb : b ∈ String.utf8EncodeChar c) :
    c.toNat < 128 ∧ b.toNat = c.toNat ∨ 128 ≤ c.toNat ∧ 128 ≤ b.toNat := by
  have hval : c.val.toNat = c.toNat := rfl
  have hmax : c.val.toNat < 0x110000 := by
    rcases c.valid with h | h <;> omega
  unfold String.utf8EncodeChar at hb
  rw [hval] at hb hmax
  dsimp only at hb
  split_ifs at hb with h1 h2 h3 <;> simp only [List.mem_cons, List.not_mem_nil, or_false] at hb
  · rw [hb, toNat_ofNat (by omega)]
    exact .inl ⟨by omega, rfl⟩
  · rcases hb with rfl | rfl <;> rw [toNat_ofNat (by omega)] <;> omega
  · rcases hb with rfl | rfl | rfl <;> rw [toNat_ofNat (by omega)] <;> omega
  · rcases hb with rfl | rfl | rfl | rfl <;> rw [toNat_ofNat (by omega)] <;> omega

/-- the first octet of a character is the character itself, or no ASCII character -/
theorem exists_encodeChar (c : Char) : ∃ b bs, String.utf8EncodeChar c = b :: bs ∧
    (c.toNat < 128 ∧ b.toNat = c.toNat ∨ 128 ≤ c.toNat ∧ 128 ≤ b.toNat) := by
  obtain ⟨b, bs, h⟩ : ∃ b bs, String.utf8EncodeChar c = b :: bs := by
    unfold String.utf8EncodeChar
    dsimp only
    split_ifs <;> exact ⟨_, _, rfl⟩
  exact ⟨b, bs, h, toNat_of_mem_encodeChar (h ▸ List.mem_cons_self)⟩

theorem encodeChar_ne_nil (c : Char) : String.utf8EncodeChar c ≠ [] := by
  obtain ⟨b, bs, h, -⟩ := exists_encodeChar c
  rw [h]
  exact List.cons_ne_nil _ _

/-! ## Texts -/

theorem encode_append (s t : String) : encode (s ++ t) = encode s ++ encode t := by
  rw [encode, String.toList_append, List.flatMap_append]
  rfl

theorem encode_ofList (cs : List Char) : encode (String.ofList cs) = cs.flatMap String.utf8EncodeChar := by
  rw [encode, String.toList_ofList]

theorem encode_join (ss : List String) : encode (String.join ss) = ss.flatMap encode := by
  have hfold : ∀ s, encode (ss.foldl (· ++ ·) s) = encode s ++ ss.flatMap encode := by
    induction ss with
    | nil => exact fun s => (List.append_nil _).symm
    | cons t ss ih =>
      intro s
      rw [List.foldl_cons, ih, encode_append, List.flatMap_cons, List.append_assoc]
  exact hfold ""

theorem characters?_flatMap (cs : List Char) : characters? (cs.flatMap String.utf8EncodeChar) = some cs := by
  induction cs with
  | nil =>
    rw [characters?]
    rfl
  | cons c cs ih =>
    have hnonempty : (String.utf8EncodeChar c ++ cs.flatMap String.utf8EncodeChar).isEmpty = false := by
      rw [List.isEmpty_eq_false_iff]
      exact fun h => encodeChar_ne_nil c (List.append_eq_nil_iff.1 h).1
    rw [List.flatMap_cons, characters?, hnonempty]
    simp only [Bool.false_eq_true, if_false]
    split
    case h_1 hnone =>
      rw [next?_encodeChar] at hnone
      cases hnone
    case h_2 c' rest hsome =>
      rw [next?_encodeChar, Option.some.injEq, Prod.mk.injEq] at hsome
      obtain ⟨rfl, rfl⟩ := hsome
      rw [ih]
      rfl

/-- **Texts.** The octets of a text are read as the text. -/
theorem decode?_encode (s : String) : decode? (encode s) = some s := by
  rw [decode?, encode, characters?_flatMap, Option.map_some, String.ofList_toList]

end Utf8

namespace Octet

/-! ## ASCII -/

theorem encodeChar_ascii {c : Char} (h : c.toNat < 128) : String.utf8EncodeChar c = [octet c] := by
  have hle : c.val.toNat ≤ 127 := Nat.le_of_lt_succ h
  rw [String.utf8EncodeChar]
  simp only [hle, if_true]
  rfl

theorem toNat_octet {c : Char} (h : c.toNat < 128) : (octet c).toNat = c.toNat :=
  Utf8.toNat_ofNat (by omega)

theorem flatMap_encodeChar_ascii {cs : List Char} (h : ∀ c ∈ cs, c.toNat < 128) :
    cs.flatMap String.utf8EncodeChar = cs.map octet := by
  induction cs with
  | nil => rfl
  | cons c cs ih =>
    obtain ⟨hc, hcs⟩ := List.forall_mem_cons.1 h
    rw [List.flatMap_cons, List.map_cons, encodeChar_ascii hc, ih hcs]
    rfl

/-! ## Digits -/

theorem toNat_lt_of_isDigit {c : Char} (h : c.isDigit = true) : 48 ≤ c.toNat ∧ c.toNat ≤ 57 := by
  simp only [Char.isDigit, Bool.and_eq_true, decide_eq_true_eq, UInt32.le_iff_toNat_le] at h
  exact h

theorem isDigit_octet {c : Char} (h : c.isDigit = true) : isDigit (octet c) = true := by
  obtain ⟨h1, h2⟩ := toNat_lt_of_isDigit h
  rw [isDigit, toNat_octet (by omega)]
  simp [h1, h2]

/-- **Digits.** Decimal digits keep their value. -/
theorem decimalValue_map_octet {cs : List Char} (h : ∀ c ∈ cs, c.isDigit = true) :
    decimalValue (cs.map octet) = Nat.ofDigitChars 10 cs 0 := by
  have hfold : ∀ init,
      (cs.map octet).foldl (fun acc b => acc * 10 + (b.toNat - 48)) init = Nat.ofDigitChars 10 cs init := by
    induction cs with
    | nil => exact fun _ => rfl
    | cons c cs ih =>
      intro init
      obtain ⟨hc, hcs⟩ := List.forall_mem_cons.1 h
      have hnat := toNat_octet (c := c) (by have := toNat_lt_of_isDigit hc; omega)
      rw [List.map_cons, List.foldl_cons, ih hcs, Nat.ofDigitChars_cons, hnat, Nat.mul_comm init 10]
      rfl
  exact hfold 0

theorem mem_of_isDigit {b : UInt8} (h : isDigit b = true) : b ∈ "-0123456789".toList.map octet := by
  simp only [isDigit, Bool.and_eq_true, decide_eq_true_eq] at h
  obtain ⟨h1, h2⟩ := h
  rw [← UInt8.ofNat_toNat (x := b)]
  interval_cases b.toNat <;> decide

/-- only an ASCII character has its octet -/
theorem eq_of_octet_mem {c d : Char} (hd : d.toNat < 128) (h : octet d ∈ String.utf8EncodeChar c) : c = d := by
  rcases Utf8.toNat_of_mem_encodeChar h with ⟨-, hb⟩ | ⟨-, hb⟩
  · rw [toNat_octet hd] at hb
    exact Char.toNat_inj.1 hb.symm
  · rw [toNat_octet hd] at hb
    omega

theorem ne_octet_of_encodeChar {c d : Char} {b : UInt8} {bs : List UInt8} (hc : String.utf8EncodeChar c = b :: bs)
    (hd : d.toNat < 128) (hne : c ≠ d) : b ≠ octet d := by
  rintro rfl
  exact hne (eq_of_octet_mem hd (hc ▸ List.mem_cons_self))

theorem head?_encodeChar_ne {c d : Char} (hd : d.toNat < 128) (hne : c ≠ d) (rest : List UInt8) :
    (String.utf8EncodeChar c ++ rest).head? ≠ some (octet d) := by
  obtain ⟨b, bs, hc, -⟩ := Utf8.exists_encodeChar c
  rw [hc]
  intro h
  exact ne_octet_of_encodeChar hc hd hne (Option.some.inj h)

/-! ## Lines -/

/-- the octets of a text between quotes -/
theorem encode_quoted (cs : List Char) (rest : List UInt8) :
    Utf8.encode ("\"" ++ String.ofList cs ++ "\"") ++ rest =
      octet '"' :: (cs.flatMap String.utf8EncodeChar ++ octet '"' :: rest) := by
  have hquote : Utf8.encode "\"" = [octet '"'] := rfl
  rw [Utf8.encode_append, Utf8.encode_append, Utf8.encode_ofList cs, hquote, List.append_assoc, List.append_assoc]
  rfl

theorem isSpace_indent (depth : ℕ) :
    ∀ b ∈ Utf8.encode (String.join (List.replicate depth "  ")), isSpace b = true := by
  intro b hb
  rw [Utf8.encode_join, List.mem_flatMap] at hb
  obtain ⟨line, hline, hb⟩ := hb
  rw [List.eq_of_mem_replicate hline] at hb
  have hspaces : (Utf8.encode "  ").all isSpace = true := rfl
  exact List.all_eq_true.1 hspaces b hb

/-! ## Digits of base 16 -/

theorem hexValue?_hexDigit {n : ℕ} (h : n < 16) : hexValue? (octet (Text.hexDigit n)) = some n := by
  interval_cases n <;> rfl

theorem ascii_hex (n width : ℕ) : ∀ c ∈ Text.hex n width, c.toNat < 128 := by
  induction width generalizing n with
  | zero => exact fun _ hc => nomatch hc
  | succ width ih =>
    refine List.forall_mem_append.2 ⟨ih (n / 16), List.forall_mem_singleton.2 ?_⟩
    have hlt : n % 16 < 16 := Nat.mod_lt _ (by decide)
    interval_cases n % 16 <;> decide

/-- digits of base 16 are read as the number that they were written for, as far as they go -/
theorem hexNumber?_hex (n width : ℕ) : hexNumber? ((Text.hex n width).map octet) = some (n % 16 ^ width) := by
  induction width generalizing n with
  | zero =>
    rw [pow_zero, Nat.mod_one]
    rfl
  | succ width ih =>
    have ih := ih (n / 16)
    rw [hexNumber?] at ih ⊢
    rw [Text.hex, List.map_append, List.foldlM_append, ih, List.map_singleton]
    have hsum : n / 16 % 16 ^ width * 16 + n % 16 = n % 16 ^ (width + 1) := by
      rw [pow_succ', Nat.mod_mul]
      ring
    simp [hexValue?_hexDigit (Nat.mod_lt n (by decide : 0 < 16)), hsum]

end Octet

/-! ## Numbers -/

theorem isDigit_of_mem_toString (n : Nat) (x : Char) (h : x ∈ (toString n).toList) : x.isDigit = true := by
  rw [Nat.toString_eq_ofList_toDigits, String.toList_ofList] at h
  exact Nat.isDigit_of_mem_toDigits (by decide) (by decide) h

end LetStack

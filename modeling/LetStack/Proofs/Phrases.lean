/-
Where a phrase occurs.

Messages are searched for phrases as octets, and a message may quote a piece of the input. Both the octets of a text and
its quoted form are put together character by character. If no occurrence can begin inside the form of a character, the
phrase occurs in the whole exactly if it is the form of something that occurs in the text (`isInfix_flatMap_iff`). That
is so for ASCII phrases in octets, and for the two phrases that tell of input that was cut off, in quoted text. A line
end is quoted as two characters, so there the second phrase comes from a text with a line end in it.

Results:
- `Text.eq_of_quoteChar_append`: quoted characters are told apart where they begin;
- `Text.soundsCutOff_iff`: the phrases in a message, as characters;
- `Text.soundsCutOff_quote_iff`: a message that quotes a text sounds cut off exactly if the text does;
- `Text.not_soundsCutOff`: a message without certain characters does not.
-/
import LetStack.Proofs.Characters
import LetStack.Text.Phrase

namespace LetStack

open Octet

/-! ## Occurrences in what is put together -/

section Pieces

variable {α β : Type}

/-- an occurrence in two parts is in the second one or begins in the first -/
theorem isInfix_append_cases {p xs ys : List β} (h : p <:+: xs ++ ys) :
    p <:+: ys ∨ ∃ us vs, xs = us ++ vs ∧ vs ≠ [] ∧ p <+: vs ++ ys := by
  induction xs with
  | nil => exact .inl h
  | cons x xs ih =>
    rcases List.infix_cons_iff.1 h with hbegins | hoccurs
    · exact .inr ⟨[], x :: xs, rfl, List.cons_ne_nil _ _, hbegins⟩
    · rcases ih hoccurs with hys | ⟨us, vs, rfl, hne, hbegins⟩
      · exact .inl hys
      · exact .inr ⟨x :: us, vs, rfl, hne, hbegins⟩

/-- what does not hold `x` occurs before or after it -/
theorem isInfix_append_cons_iff {p as bs : List β} {x : β} (hx : x ∉ p) :
    p <:+: as ++ x :: bs ↔ p <:+: as ∨ p <:+: bs := by
  -- no occurrence begins at `x` or goes over it
  have hstart : ∀ q : List β, q <+: x :: bs → x ∉ q → q = [] := by
    intro q hq hxq
    rcases List.prefix_cons_iff.1 hq with rfl | ⟨t, rfl, -⟩
    · rfl
    · exact absurd List.mem_cons_self hxq
  constructor
  · intro h
    rcases List.infix_append_iff.1 h with h | h | ⟨us, vs, rfl, hus, hvs⟩
    · exact .inl h
    · rcases List.infix_cons_iff.1 h with hbegins | hbs
      · rw [hstart p hbegins hx]
        exact .inl List.nil_infix
      · exact .inr hbs
    · rw [hstart vs hvs fun hmem => hx (List.mem_append_right us hmem), List.append_nil]
      exact .inl hus.isInfix
  · intro h
    rw [List.infix_append_iff, List.infix_cons_iff]
    rcases h with h | h
    · exact .inl h
    · exact .inr (.inl (.inr h))

variable {f : α → List β} {p cs : List α}

/-- forms that are told apart where they begin: then what begins with them begins with what they are the forms of -/
theorem isPrefix_of_flatMap (hf : ∀ d ∈ p, f d ≠ [] ∧ ∀ c us vs, f d ++ us = f c ++ vs → d = c)
    (h : p.flatMap f <+: cs.flatMap f) : p <+: cs := by
  induction p generalizing cs with
  | nil => exact List.nil_prefix
  | cons d p ih =>
    obtain ⟨⟨hne, happart⟩, hrest⟩ := List.forall_mem_cons.1 hf
    rw [List.flatMap_cons] at h
    cases cs with
    | nil =>
      have hnil := List.prefix_nil.1 h
      exact absurd (List.append_eq_nil_iff.1 hnil).1 hne
    | cons c cs =>
      rw [List.flatMap_cons] at h
      obtain ⟨us, hus⟩ := h
      rw [List.append_assoc] at hus
      obtain rfl := happart c _ _ hus
      rw [List.cons_prefix_cons]
      refine ⟨rfl, ih hrest ⟨us, ?_⟩⟩
      exact List.append_cancel_left hus

/-- if moreover no occurrence begins inside the form of a character, what occurs are forms -/
theorem isInfix_flatMap_iff (hf : ∀ d ∈ p, f d ≠ [] ∧ ∀ c us vs, f d ++ us = f c ++ vs → d = c) (hp : p ≠ [])
    (hstart : ∀ c us vs rest, f c = us ++ vs → us ≠ [] → vs ≠ [] → ¬ p.flatMap f <+: vs ++ rest) :
    p.flatMap f <:+: cs.flatMap f ↔ p <:+: cs := by
  constructor
  · intro h
    induction cs with
    | nil =>
      obtain ⟨d, p, rfl⟩ := List.exists_cons_of_ne_nil hp
      have hnil := List.infix_nil.1 h
      rw [List.flatMap_cons, List.append_eq_nil_iff] at hnil
      exact absurd hnil.1 (hf d List.mem_cons_self).1
    | cons c cs ih =>
      rw [List.flatMap_cons] at h
      rcases isInfix_append_cases h with h | ⟨us, vs, hc, hvs, hbegins⟩
      · exact List.infix_cons_iff.2 (.inr (ih h))
      · by_cases hus : us = []
        · rw [hus, List.nil_append] at hc
          rw [← hc, ← List.flatMap_cons] at hbegins
          exact (isPrefix_of_flatMap hf hbegins).isInfix
        · exact absurd hbegins (hstart c us vs _ hc hus hvs)
  · rintro ⟨as, bs, rfl⟩
    rw [List.flatMap_append, List.flatMap_append]
    exact List.infix_append _ _ _

end Pieces

/-! ## Octets -/

theorem Text.occursIn_iff (p bs : List UInt8) : Text.occursIn p bs = true ↔ p <:+: bs := by
  induction bs with
  | nil => simp [Text.occursIn]
  | cons b bs ih =>
    rw [Text.occursIn, Bool.or_eq_true, ih, List.isPrefixOf_iff_prefix, List.infix_cons_iff]

/-- an ASCII text occurs in the octets of a text exactly if it occurs in the text -/
theorem Utf8.isInfix_encode_iff {p s : String} (hp : ∀ c ∈ p.toList, c.toNat < 128) (hne : p.toList ≠ []) :
    Utf8.encode p <:+: Utf8.encode s ↔ p.toList <:+: s.toList := by
  apply isInfix_flatMap_iff
  · intro d hd
    refine ⟨Utf8.encodeChar_ne_nil d, ?_⟩
    intro c us vs h
    rw [encodeChar_ascii (hp d hd)] at h
    have hmem : octet d ∈ String.utf8EncodeChar c := by
      obtain ⟨b, bs, hc, -⟩ := Utf8.exists_encodeChar c
      rw [hc] at h ⊢
      rw [(List.cons.inj h).1]
      exact List.mem_cons_self
    exact (eq_of_octet_mem (hp d hd) hmem).symm
  · exact hne
  · intro c us vs rest hc hus hvs hbegins
    obtain ⟨d, ds, hds⟩ := List.exists_cons_of_ne_nil hne
    obtain ⟨b, bs, rfl⟩ := List.exists_cons_of_ne_nil hvs
    have hd : d.toNat < 128 := hp d (hds ▸ List.mem_cons_self)
    rw [hds, List.flatMap_cons, encodeChar_ascii hd, List.singleton_append, List.cons_append,
      List.cons_prefix_cons] at hbegins
    -- an ASCII octet is all of its character
    have hmem : octet d ∈ String.utf8EncodeChar c := by
      rw [hc, hbegins.1]
      exact List.mem_append_right us List.mem_cons_self
    rw [eq_of_octet_mem hd hmem, encodeChar_ascii hd] at hc
    have hlength := congrArg List.length hc
    rw [List.length_append, List.length_singleton, List.length_cons] at hlength
    have hpos := List.length_pos_iff.2 hus
    omega

namespace Text

/-! ## Quoted text -/

/-- what stands after the backslash of a character that is not quoted as itself -/
inductive IsEscape : Char → List Char → Prop
  | letter {c e : Char} (h : letterEscape? c = some e) : IsEscape c [e]
  | number (c mark : Char) (width : ℕ) (h : (mark, width) ∈ [('x', 1), ('u', 3), ('U', 7)])
      (hlt : c.toNat < 16 ^ (width + 1)) : IsEscape c (mark :: hex c.toNat (width + 1))

/-- a character is quoted as itself or by an escape -/
theorem quoteChar_cases (c : Char) :
    (quoteChar c = [c] ∧ c ≠ '\\') ∨ ∃ es, quoteChar c = '\\' :: es ∧ IsEscape c es := by
  unfold quoteChar
  cases h : letterEscape? c with
  | some e => exact .inr ⟨[e], rfl, .letter h⟩
  | none =>
    dsimp only
    split_ifs with hprintable hsmall hmiddle
    · refine .inl ⟨rfl, ?_⟩
      rintro rfl
      cases h
    · exact .inr ⟨_, rfl, .number c 'x' 1 (by decide) (by omega)⟩
    · exact .inr ⟨_, rfl, .number c 'u' 3 (by decide) (by omega)⟩
    · have hvalid : c.toNat < 2 ^ 32 := c.val.toNat_lt
      exact .inr ⟨_, rfl, .number c 'U' 7 (by decide) (by omega)⟩

theorem quoteChar_ne_nil (c : Char) : quoteChar c ≠ [] := by
  rcases quoteChar_cases c with ⟨h, -⟩ | ⟨es, h, -⟩
  · exact h ▸ List.cons_ne_nil _ _
  · exact h ▸ List.cons_ne_nil _ _

theorem mem_of_letterEscape? {c e : Char} (h : letterEscape? c = some e) : e ∈ "abfnrtv\\\"".toList := by
  unfold letterEscape? at h
  split at h <;> cases h <;> decide

theorem letterEscape?_inj {c d e : Char} (hc : letterEscape? c = some e) (hd : letterEscape? d = some e) : c = d := by
  unfold letterEscape? at hc
  split at hc <;> cases hc <;> (unfold letterEscape? at hd; split at hd <;> first | rfl | cases hd)

theorem mem_of_mem_hex {n width : ℕ} {c : Char} (h : c ∈ hex n width) : c ∈ "0123456789abcdef".toList := by
  have hdigit : ∀ k < 16, hexDigit k ∈ "0123456789abcdef".toList := by decide
  induction width generalizing n with
  | zero => cases h
  | succ width ih =>
    rw [hex, List.mem_append, List.mem_singleton] at h
    rcases h with h | rfl
    · exact ih h
    · exact hdigit _ (Nat.mod_lt n (by decide))

/-- an escape has neither letter that the phrases begin with, but for the mark u, and after that comes a digit -/
theorem not_isPrefix_of_isEscape {c d : Char} {es us vs rest ps : List Char} (he : IsEscape c es) (hes : es = us ++ vs)
    (hvs : vs ≠ []) (hd : d ∈ ['u', 'i']) : ¬ d :: 'n' :: ps <+: vs ++ rest := by
  intro hbegins
  obtain ⟨v, vs, rfl⟩ := List.exists_cons_of_ne_nil hvs
  rw [List.cons_append, List.cons_prefix_cons] at hbegins
  obtain ⟨rfl, hbegins⟩ := hbegins
  have hmem : d ∈ us ++ d :: vs := List.mem_append_right us List.mem_cons_self
  cases he with
  | letter h =>
    have hletter : ∀ d ∈ ['u', 'i'], d ∉ "abfnrtv\\\"".toList := List.forall_iff_forall_mem.1 (by decide)
    rw [← hes, List.mem_singleton] at hmem
    exact hletter d hd (hmem ▸ mem_of_letterEscape? h)
  | number mark width _ _ =>
    have hdigits : ∀ d ∈ ['u', 'i', 'n'], d ∉ "0123456789abcdef".toList := List.forall_iff_forall_mem.1 (by decide)
    cases us with
    | cons u us =>
      have hhex : d ∈ hex c.toNat (width + 1) := by
        rw [(List.cons.inj hes).2]
        exact List.mem_append_right us List.mem_cons_self
      exact hdigits d (List.mem_append_left ['n'] hd) (mem_of_mem_hex hhex)
    | nil =>
      have hhex : hex c.toNat (width + 1) = vs := (List.cons.inj hes).2
      have hn : 'n' ∈ hex c.toNat (width + 1) := by
        rw [hhex]
        cases vs with
        | nil =>
          rw [hex] at hhex
          exact absurd (List.append_eq_nil_iff.1 hhex).2 (List.cons_ne_nil _ _)
        | cons v vs =>
          rw [List.cons_append, List.cons_prefix_cons] at hbegins
          exact hbegins.1 ▸ List.mem_cons_self
      exact hdigits 'n' (by decide) (mem_of_mem_hex hn)

/-! ### What is quoted is given back -/

theorem hex_inj {width m n : ℕ} (hm : m < 16 ^ width) (hn : n < 16 ^ width) (h : hex m width = hex n width) :
    m = n := by
  have hvalue := hexNumber?_hex m width
  rw [h, hexNumber?_hex n width, Nat.mod_eq_of_lt hm, Nat.mod_eq_of_lt hn] at hvalue
  exact (Option.some.inj hvalue).symm

theorem length_hex (n width : ℕ) : (hex n width).length = width := by
  induction width generalizing n with
  | zero => rfl
  | succ width ih => rw [hex, List.length_append, ih, List.length_singleton]

/-- the letter of an escape is not the mark of a number -/
theorem ne_of_letterEscape? {c e mark : Char} {width : ℕ} (he : letterEscape? c = some e)
    (hmark : (mark, width) ∈ [('x', 1), ('u', 3), ('U', 7)]) : e ≠ mark := by
  have hmarks : ∀ m ∈ [('x', 1), ('u', 3), ('U', 7)], m.1 ∉ "abfnrtv\\\"".toList := by decide
  rintro rfl
  exact hmarks _ hmark (mem_of_letterEscape? he)

theorem width_eq_of_mark {mark : Char} {m n : ℕ} (hm : (mark, m) ∈ [('x', 1), ('u', 3), ('U', 7)])
    (hn : (mark, n) ∈ [('x', 1), ('u', 3), ('U', 7)]) : m = n := by
  simp only [List.mem_cons, Prod.mk.injEq, List.not_mem_nil, or_false] at hm hn
  rcases hm with ⟨rfl, rfl⟩ | ⟨rfl, rfl⟩ | ⟨rfl, rfl⟩
  · simpa [eq_comm] using hn
  · simpa [eq_comm] using hn
  · simpa [eq_comm] using hn

theorem IsEscape.eq_of_append {c d : Char} {es fs us vs : List Char} (hc : IsEscape c es) (hd : IsEscape d fs)
    (h : es ++ us = fs ++ vs) : c = d := by
  cases hc with
  | letter he =>
    cases hd with
    | letter hf =>
      obtain ⟨rfl, -⟩ := List.cons.inj h
      exact letterEscape?_inj he hf
    | number mark width hmark hlt => exact absurd (List.cons.inj h).1 (ne_of_letterEscape? he hmark)
  | number mark width hmark hlt =>
    cases hd with
    | letter hf => exact absurd (List.cons.inj h).1.symm (ne_of_letterEscape? hf hmark)
    | number mark' width' hmark' hlt' =>
      obtain ⟨rfl, hdigits⟩ := List.cons.inj h
      obtain rfl := width_eq_of_mark hmark hmark'
      have hlength : (hex c.toNat (width + 1)).length = (hex d.toNat (width + 1)).length := by
        rw [length_hex, length_hex]
      exact Char.toNat_inj.1 (hex_inj hlt hlt' (List.append_inj hdigits hlength).1)

/-- quoted characters are told apart where they begin -/
theorem eq_of_quoteChar_append {c d : Char} {us vs : List Char} (h : quoteChar c ++ us = quoteChar d ++ vs) :
    c = d := by
  rcases quoteChar_cases c with ⟨hc, hcne⟩ | ⟨es, hc, he⟩ <;>
    rcases quoteChar_cases d with ⟨hd, hdne⟩ | ⟨fs, hd, hf⟩ <;>
    rw [hc, hd] at h
  · exact (List.cons.inj h).1
  · exact absurd (List.cons.inj h).1 hcne
  · exact absurd (List.cons.inj h).1.symm hdne
  · exact he.eq_of_append hf (List.cons.inj h).2

/-! ## Messages that tell of input that was cut off -/

/-- the texts whose quoted forms are the phrases -/
def cutOffTexts : List String :=
  ["unexpected EOF", "invalid character '\n' in string"]

/-- one of the texts occurs -/
def MentionsCutOff (s : String) : Prop :=
  ∃ t ∈ cutOffTexts, t.toList <:+: s.toList

instance (s : String) : Decidable (MentionsCutOff s) :=
  inferInstanceAs (Decidable (∃ t ∈ cutOffTexts, t.toList <:+: s.toList))

theorem quote_cutOffTexts : cutOffPhrases.map String.toList = cutOffTexts.map fun t => t.toList.flatMap quoteChar := by
  decide

/-- a message sounds cut off if one of the phrases is among its characters -/
theorem soundsCutOff_iff (message : String) :
    soundsCutOff (Utf8.encode message) = true ↔ ∃ p ∈ cutOffPhrases.map String.toList, p <:+: message.toList := by
  have hascii : ∀ p ∈ cutOffPhrases, p.toList.Forall (fun c => c.toNat < 128) ∧ p.toList ≠ [] := by decide
  unfold soundsCutOff
  rw [List.any_eq_true]
  simp only [List.mem_map, exists_exists_and_eq_and]
  refine exists_congr fun p => and_congr_right fun hp => ?_
  obtain ⟨hchars, hne⟩ := hascii p hp
  rw [occursIn_iff, Utf8.isInfix_encode_iff (List.forall_iff_forall_mem.1 hchars) hne]

theorem isInfix_flatMap_quoteChar_iff {t : String} (ht : t ∈ cutOffTexts) (cs : List Char) :
    t.toList.flatMap quoteChar <:+: cs.flatMap quoteChar ↔ t.toList <:+: cs := by
  have hbegin : ∀ t ∈ cutOffTexts, ['u', 'n'] <+: t.toList.flatMap quoteChar ∨
      ['i', 'n'] <+: t.toList.flatMap quoteChar := by decide
  obtain ⟨d, hd, ps, hform⟩ : ∃ d ∈ ['u', 'i'], ∃ ps, t.toList.flatMap quoteChar = d :: 'n' :: ps := by
    rcases hbegin t ht with ⟨ps, hps⟩ | ⟨ps, hps⟩
    · exact ⟨'u', List.mem_cons_self, ps, hps.symm⟩
    · exact ⟨'i', List.mem_cons_of_mem _ List.mem_cons_self, ps, hps.symm⟩
  apply isInfix_flatMap_iff
  · exact fun d _ => ⟨quoteChar_ne_nil d, fun c us vs => eq_of_quoteChar_append⟩
  · intro hnil
    rw [hnil] at hform
    cases hform
  · intro c us vs rest hc hus hvs
    rw [hform]
    rcases quoteChar_cases c with ⟨h, -⟩ | ⟨es, h, he⟩
    · have hlength := congrArg List.length (h.symm.trans hc)
      rw [List.length_singleton, List.length_append] at hlength
      have hus := List.length_pos_iff.2 hus
      have hvs := List.length_pos_iff.2 hvs
      omega
    · obtain ⟨u, us, rfl⟩ := List.exists_cons_of_ne_nil hus
      have hes : es = us ++ vs := (List.cons.inj (h.symm.trans hc)).2
      exact not_isPrefix_of_isEscape he hes hvs hd

/-- a message that quotes a text and else has none of the phrases sounds cut off exactly if the text mentions it -/
theorem soundsCutOff_quote_iff {before after : String} (hbefore : soundsCutOff (Utf8.encode before) = false)
    (hafter : soundsCutOff (Utf8.encode after) = false) (s : String) :
    soundsCutOff (Utf8.encode (before ++ quote s ++ after)) = true ↔ MentionsCutOff s := by
  have hmessage : (before ++ quote s ++ after).toList
      = before.toList ++ '"' :: (s.toList.flatMap quoteChar ++ '"' :: after.toList) := by
    simp [quote]
  have hquote : ∀ p ∈ cutOffPhrases.map String.toList, '"' ∉ p := by decide
  rw [← Bool.not_eq_true, soundsCutOff_iff] at hbefore hafter
  rw [soundsCutOff_iff, hmessage]
  calc (∃ p ∈ cutOffPhrases.map String.toList,
          p <:+: before.toList ++ '"' :: (s.toList.flatMap quoteChar ++ '"' :: after.toList))
      ↔ ∃ p ∈ cutOffPhrases.map String.toList, p <:+: s.toList.flatMap quoteChar := by
        refine exists_congr fun p => and_congr_right fun hp => ?_
        have hb : ¬ p <:+: before.toList := fun h => hbefore ⟨p, hp, h⟩
        have ha : ¬ p <:+: after.toList := fun h => hafter ⟨p, hp, h⟩
        rw [isInfix_append_cons_iff (hquote p hp), isInfix_append_cons_iff (hquote p hp)]
        simp only [hb, ha, false_or, or_false]
    _ ↔ MentionsCutOff s := by
        rw [quote_cutOffTexts]
        simp only [List.mem_map, exists_exists_and_eq_and]
        exact exists_congr fun t => and_congr_right fun ht => isInfix_flatMap_quoteChar_iff ht s.toList

/-- both phrases have a capital E or an apostrophe -/
theorem not_soundsCutOff {message : String} (he : 'E' ∉ message.toList) (hquote : '\x27' ∉ message.toList) :
    soundsCutOff (Utf8.encode message) = false := by
  have hphrase : ∀ p ∈ cutOffPhrases.map String.toList, 'E' ∈ p ∨ '\x27' ∈ p := by decide
  rw [← Bool.not_eq_true, soundsCutOff_iff]
  rintro ⟨p, hp, hoccurs⟩
  rcases hphrase p hp with h | h
  · exact he (hoccurs.subset h)
  · exact hquote (hoccurs.subset h)

end Text

end LetStack

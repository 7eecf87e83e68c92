/-
Where a token of JSON stands.

No token goes on after the end of its line. To see where a token ends, its reader looks at no more than the octet that
follows, and the end of the text looks to it like the end of a line (`following`). `IsLocal` says this of a reader. It holds
of readers that are put together from such readers, and so of the readers of numbers and words. Of the octets of a
string more is needed: the token keeps its spelling, which is found by reading the octets once more.

Results:
- `isLocal_decimal?`, `isLocal_plain?`, `isLocal_stringBody`: numbers, words, strings;
- `isLocal_next`: a token stands in one line and is found by looking one octet ahead.
-/
import LetStack.Proofs.JsonTrip

namespace LetStack.Json

open Octet

/-! ## Octets of a line -/

/-- octets of characters none of which ends the line -/
def IsLinePart (used : List UInt8) : Prop :=
  ∃ cs : List Char, '\n' ∉ cs ∧ used = cs.flatMap String.utf8EncodeChar

/-- the octet of an ASCII character that does not end the line -/
def inLine (b : UInt8) : Bool := b.toNat < 128 && b != octet '\n'

namespace IsLinePart

theorem nil : IsLinePart [] := ⟨[], List.not_mem_nil, rfl⟩

theorem append {us vs : List UInt8} (hu : IsLinePart us) (hv : IsLinePart vs) : IsLinePart (us ++ vs) := by
  obtain ⟨as, has, rfl⟩ := hu
  obtain ⟨bs, hbs, rfl⟩ := hv
  refine ⟨as ++ bs, ?_, List.flatMap_append.symm⟩
  intro h
  rcases List.mem_append.1 h with h | h
  · exact has h
  · exact hbs h

theorem cons {b : UInt8} {used : List UInt8} (hb : inLine b = true) (h : IsLinePart used) : IsLinePart (b :: used) := by
  simp only [inLine, Bool.and_eq_true, decide_eq_true_eq, bne_iff_ne] at hb
  obtain ⟨hascii, hline⟩ := hb
  obtain ⟨cs, hcs, rfl⟩ := h
  have hnat : (Char.ofNat b.toNat).toNat = b.toNat := by
    have hvalid : b.toNat.isValidChar := .inl (by omega)
    rw [Char.ofNat, dif_pos hvalid]
    rfl
  have hoctet : octet (Char.ofNat b.toNat) = b := by
    rw [octet, hnat]
    exact UInt8.ofNat_toNat
  refine ⟨Char.ofNat b.toNat :: cs, ?_, ?_⟩
  · intro hmem
    rcases List.mem_cons.1 hmem with heq | hmem
    · rw [← heq] at hoctet
      exact hline hoctet.symm
    · exact hcs hmem
  · rw [List.flatMap_cons, encodeChar_ascii (by omega), hoctet]
    rfl

theorem of_forall {used : List UInt8} (h : ∀ b ∈ used, inLine b = true) : IsLinePart used := by
  induction used with
  | nil => exact nil
  | cons b used ih =>
    obtain ⟨hb, hused⟩ := List.forall_mem_cons.1 h
    exact cons hb (ih hused)

theorem newline_not_mem {used : List UInt8} (h : IsLinePart used) : octet '\n' ∉ used := by
  obtain ⟨cs, hcs, rfl⟩ := h
  intro hmem
  obtain ⟨c, hc, hoctet⟩ := List.mem_flatMap.1 hmem
  rw [eq_of_octet_mem (by decide) hoctet] at hc
  exact hcs hc

end IsLinePart

theorem inLine_of_isDigit {b : UInt8} (h : isDigit b = true) : inLine b = true := by
  have hall : ∀ b ∈ "-0123456789".toList.map octet, inLine b = true := List.forall_iff_forall_mem.1 (by decide)
  exact hall b (mem_of_isDigit h)

theorem inLine_of_beq {b c : UInt8} (hc : inLine c = true) (h : (b == c) = true) : inLine b = true := by
  rwa [beq_iff_eq.1 h]

/-- an octet that has no place in a line is none of the octets that do -/
theorem not_beq_of_not_inLine {b : UInt8} (h : ¬ inLine b = true) (c : UInt8) (hc : inLine c = true) :
    ¬ (b == c) = true :=
  fun hb => h (inLine_of_beq hc hb)

theorem inLine_of_letterEscape? {b : UInt8} {c : Char} (h : letterEscape? b = some c) : inLine b = true := by
  by_contra hline
  have hne := not_beq_of_not_inLine hline
  rw [letterEscape?, if_neg (hne _ rfl), if_neg (hne _ rfl), if_neg (hne _ rfl), if_neg (hne _ rfl),
    if_neg (hne _ rfl), if_neg (hne _ rfl), if_neg (hne _ rfl), if_neg (hne _ rfl)] at h
  cases h

theorem inLine_of_punctuation? {b : UInt8} {t : Token} (h : punctuation? b = some t) : inLine b = true := by
  by_contra hline
  have hne := not_beq_of_not_inLine hline
  rw [punctuation?, if_neg (hne _ rfl), if_neg (hne _ rfl), if_neg (hne _ rfl), if_neg (hne _ rfl),
    if_neg (hne _ rfl), if_neg (hne _ rfl)] at h
  cases h

/-! ## Looking one octet ahead -/

/-- the octet that follows; the end of the text counts as the end of a line -/
def following (rest : List UInt8) : UInt8 := rest.headD (octet '\n')

theorem following_append {rest rest' : List UInt8} (h : following rest' = following rest) (used : List UInt8) :
    following (used ++ rest') = following (used ++ rest) := by
  cases used with
  | nil => exact h
  | cons b used => rfl

theorem ends_eq (rest : List UInt8) : ends rest = !joins (following rest) := by
  cases rest with
  | nil => rfl
  | cons b rest => rfl

/-- a reader that looks at what it takes and at the octet that follows, and at no more; what it takes has `P` -/
def IsLocal {α : Type} (P : List UInt8 → Prop) (reads : List UInt8 → α × List UInt8 → Prop) : Prop :=
  ∀ bs x rest, reads bs (x, rest) → ∃ used, bs = used ++ rest ∧ P used ∧
    ∀ rest', following rest' = following rest → reads (used ++ rest') (x, rest')

/-- nothing is taken, and the octet that follows has to be right -/
theorem isLocal_pure {α : Type} (right : UInt8 → Prop) (x : α) :
    IsLocal IsLinePart (fun bs r => right (following bs) ∧ r = (x, bs)) := by
  rintro bs y rest ⟨hright, h⟩
  cases h
  refine ⟨[], rfl, IsLinePart.nil, ?_⟩
  intro rest' hrest
  exact ⟨hrest.symm ▸ hright, rfl⟩

/-- one reader after another -/
theorem IsLocal.bind {α β : Type} {f : List UInt8 → α × List UInt8 → Prop}
    {g : α → List UInt8 → β × List UInt8 → Prop} (hf : IsLocal IsLinePart f) (hg : ∀ a, IsLocal IsLinePart (g a)) :
    IsLocal IsLinePart (fun bs r => ∃ a mid, f bs (a, mid) ∧ g a mid r) := by
  rintro bs x rest ⟨a, mid, hfirst, hsecond⟩
  obtain ⟨us, rfl, hus, hus'⟩ := hf bs a mid hfirst
  obtain ⟨vs, rfl, hvs, hvs'⟩ := hg a mid x rest hsecond
  refine ⟨us ++ vs, (List.append_assoc us vs rest).symm, hus.append hvs, ?_⟩
  intro rest' hrest
  rw [List.append_assoc]
  exact ⟨a, vs ++ rest', hus' _ (following_append hrest vs), hvs' rest' hrest⟩

theorem IsLocal.congr {α : Type} {P : List UInt8 → Prop} {f g : List UInt8 → α × List UInt8 → Prop} (hf : IsLocal P f)
    (h : ∀ bs r, g bs r ↔ f bs r) : IsLocal P g := by
  have heq : g = f := funext fun bs => funext fun r => propext (h bs r)
  rwa [heq]

/-- one reader or another, depending on the first octet -/
theorem IsLocal.choice {α : Type} {P : List UInt8 → Prop} {f g : List UInt8 → α × List UInt8 → Prop} (q : UInt8 → Bool)
    (hf : IsLocal P f) (hg : IsLocal P g) : IsLocal P (fun bs r => if q (following bs) then f bs r else g bs r) := by
  intro bs x rest h
  split at h
  · next hfirst =>
    obtain ⟨used, rfl, hused, hused'⟩ := hf bs x rest h
    refine ⟨used, rfl, hused, ?_⟩
    intro rest' hrest
    rw [following_append hrest, if_pos hfirst]
    exact hused' rest' hrest
  · next hfirst =>
    obtain ⟨used, rfl, hused, hused'⟩ := hg bs x rest h
    refine ⟨used, rfl, hused, ?_⟩
    intro rest' hrest
    rw [following_append hrest, if_neg hfirst]
    exact hused' rest' hrest

/-- one octet of a certain kind, and a reader for the rest -/
theorem IsLocal.tail {α : Type} {f : List UInt8 → α × List UInt8 → Prop} {q : UInt8 → Bool}
    (hq : ∀ b, q b = true → inLine b = true) (hf : IsLocal IsLinePart f) :
    IsLocal IsLinePart (fun bs r => q (following bs) = true ∧ f bs.tail r) := by
  rintro bs x rest ⟨hfirst, h⟩
  cases bs with
  | nil => exact absurd (hq _ hfirst) (by decide)
  | cons b bs =>
    obtain ⟨used, hbs, hused, hused'⟩ := hf bs x rest h
    refine ⟨b :: used, congrArg (b :: ·) hbs, IsLinePart.cons (hq b hfirst) hused, ?_⟩
    intro rest' hrest
    exact ⟨hfirst, hused' rest' hrest⟩

/-- an octet of a certain kind and what comes with it, or else another reader -/
theorem isLocal_ite {α : Type} {f g : List UInt8 → α × List UInt8 → Prop} {q : UInt8 → Bool}
    (hq : ∀ b, q b = true → inLine b = true) (hf : IsLocal IsLinePart f) (hg : IsLocal IsLinePart g) :
    IsLocal IsLinePart (fun bs r => if q (following bs) then f bs.tail r else g bs r) := by
  refine IsLocal.congr ((hf.tail hq).choice q hg) ?_
  intro bs r
  split_ifs with hfirst
  · exact (and_iff_right hfirst).symm
  · rfl

/-! ## Numbers -/

/-- what a reader that cannot fail has read -/
theorem exists_eq_mk {α β : Type} {p : α × β} {Q : α → β → Prop} : (∃ a b, p = (a, b) ∧ Q a b) ↔ Q p.1 p.2 := by
  constructor
  · rintro ⟨a, b, rfl, h⟩
    exact h
  · intro h
    exact ⟨p.1, p.2, rfl, h⟩

/-- digits, as many as there are -/
theorem isLocal_digits :
    IsLocal IsLinePart (fun bs r => (bs.takeWhile isDigit, bs.dropWhile isDigit) = r) := by
  intro bs ds rest h
  cases h
  have hdigits : ∀ b ∈ bs.takeWhile isDigit, isDigit b = true := List.all_eq_true.1 List.all_takeWhile
  have hstop : isDigit (following (bs.dropWhile isDigit)) = false := by
    have hhead := List.head?_dropWhile_not isDigit bs
    cases hrest : bs.dropWhile isDigit with
    | nil => rfl
    | cons b rest =>
      rw [hrest] at hhead
      exact hhead
  refine ⟨bs.takeWhile isDigit, List.takeWhile_append_dropWhile.symm, IsLinePart.of_forall ?_, ?_⟩
  · intro b hb
    exact inLine_of_isDigit (hdigits b hb)
  · intro rest' hrest
    have hhead : ∀ b ∈ rest'.head?, isDigit b = false := by
      intro b hb
      have hfollowing : following rest' = b := by
        rw [following, List.headD_eq_head?_getD, hb]
        rfl
      rw [← hfollowing, hrest, hstop]
    obtain ⟨htake, hdrop⟩ := takeWhile_append_of_stop hdigits hhead
    change (_, _) = (_, _)
    rw [htake, hdrop]

theorem isLocal_minus : IsLocal IsLinePart (fun bs r => minus bs = r) := by
  refine IsLocal.congr (isLocal_ite (q := (· == octet '-')) (fun b => inLine_of_beq rfl) (isLocal_pure (fun _ => True) true)
    (isLocal_pure (fun _ => True) false)) ?_
  intro bs r
  cases bs with
  | nil => simp [minus, following, octet, eq_comm]
  | cons b bs =>
    simp only [minus, following, List.headD_cons, List.tail_cons, true_and]
    split_ifs <;> exact eq_comm

theorem isLocal_fraction? : IsLocal IsLinePart (fun bs r => fraction? bs = some r) := by
  refine IsLocal.congr (isLocal_ite (q := (· == octet '.')) (fun b => inLine_of_beq rfl)
    (isLocal_digits.bind (g := fun ds bs r => ds.isEmpty = false ∧ r = (ds, bs)) fun ds =>
      isLocal_pure (fun _ => ds.isEmpty = false) ds)
    (isLocal_pure (fun _ => True) [])) ?_
  intro bs r
  cases bs with
  | nil => simp [fraction?, following, octet, eq_comm]
  | cons b bs =>
    simp only [fraction?, following, List.headD_cons, List.tail_cons, true_and, exists_eq_mk]
    split_ifs with hb hds
    · simp [hds]
    · simp [hds, eq_comm]
    · simp [eq_comm]

/-- the sign of an exponent -/
def exponentSign (bs : List UInt8) : Bool × List UInt8 :=
  match bs with
  | [] => (false, [])
  | b :: rest =>
    if b == octet '-' then (true, rest) else if b == octet '+' then (false, rest) else (false, b :: rest)

theorem isLocal_exponentSign : IsLocal IsLinePart (fun bs r => exponentSign bs = r) := by
  refine IsLocal.congr (isLocal_ite (q := (· == octet '-')) (fun b => inLine_of_beq rfl)
    (isLocal_pure (fun _ => True) true)
    (isLocal_ite (q := (· == octet '+')) (fun b => inLine_of_beq rfl) (isLocal_pure (fun _ => True) false)
      (isLocal_pure (fun _ => True) false))) ?_
  intro bs r
  cases bs with
  | nil => simp [exponentSign, following, octet, eq_comm]
  | cons b bs =>
    simp only [exponentSign, following, List.headD_cons, List.tail_cons, true_and]
    split_ifs <;> exact eq_comm

theorem exponent?_eq (bs : List UInt8) : exponent? bs =
    if ((exponentSign bs).2.takeWhile isDigit).isEmpty then none
    else some
      (if (exponentSign bs).1 then -(exponentSize ((exponentSign bs).2.takeWhile isDigit) : Int)
        else exponentSize ((exponentSign bs).2.takeWhile isDigit), (exponentSign bs).2.dropWhile isDigit) := rfl

theorem isLocal_exponent? : IsLocal IsLinePart (fun bs r => exponent? bs = some r) := by
  refine IsLocal.congr (isLocal_exponentSign.bind fun negative => isLocal_digits.bind fun ds =>
    isLocal_pure (fun _ => ds.isEmpty = false)
      (if negative then -(exponentSize ds : Int) else exponentSize ds)) ?_
  intro bs r
  rw [exponent?_eq, exists_eq_mk, exists_eq_mk]
  by_cases hds : ((exponentSign bs).2.takeWhile isDigit).isEmpty = true
  · simp [hds]
  · rw [if_neg hds, Option.some.injEq]
    constructor
    · intro h
      exact ⟨Bool.eq_false_iff.2 hds, h.symm⟩
    · intro h
      exact h.2.symm

theorem isLocal_exponentPart? : IsLocal IsLinePart (fun bs r => exponentPart? bs = some r) := by
  refine IsLocal.congr (isLocal_ite (q := fun b => b == octet 'e' || b == octet 'E') ?_ isLocal_exponent?
    (isLocal_pure (fun _ => True) 0)) ?_
  · intro b hb
    rcases Bool.or_eq_true_iff.1 hb with hb | hb
    · exact inLine_of_beq rfl hb
    · exact inLine_of_beq rfl hb
  · intro bs r
    cases bs with
    | nil => simp [exponentPart?, following, octet, eq_comm]
    | cons b bs =>
      simp only [exponentPart?, following, List.headD_cons, List.tail_cons, true_and]
      split_ifs
      · rfl
      · simp [eq_comm]

theorem isLocal_decimal? : IsLocal IsLinePart (fun bs r => decimal? bs = some r) := by
  refine IsLocal.congr (isLocal_minus.bind fun negative => isLocal_digits.bind fun whole =>
    isLocal_fraction?.bind fun fraction => isLocal_exponentPart?.bind fun exponent =>
    isLocal_pure (fun b => (whole.isEmpty || (whole.head? == some (octet '0') && whole.length != 1)) = false ∧
      joins b = false)
      (⟨negative, decimalValue (whole ++ fraction), exponent - fraction.length⟩ : Decimal)) ?_
  intro bs r
  rw [exists_eq_mk, exists_eq_mk]
  simp only [decimal?, Option.bind_eq_bind]
  split_ifs with hwhole
  · simp [hwhole]
  · simp only [Option.bind_eq_some_iff, Prod.exists]
    refine exists₂_congr fun fraction _ => and_congr_right fun _ => ?_
    refine exists₂_congr fun exponent rest => and_congr_right fun _ => ?_
    rw [ends_eq]
    cases joins (following rest) with
    | true => simp
    | false => simp [hwhole, eq_comm]

/-! ## Words -/

theorem eq_of_word? {w bs rest : List UInt8} (h : word? w bs = some rest) : bs = w ++ rest ∧ ends rest = true := by
  rw [word?] at h
  split at h
  · next hw =>
    cases h
    obtain ⟨hle, hends⟩ := Bool.and_eq_true_iff.1 hw
    obtain ⟨rest, rfl⟩ := List.isPrefixOf_iff_prefix.1 hle
    rw [List.drop_left] at hends ⊢
    exact ⟨rfl, hends⟩
  · cases h

theorem isLocal_word {w : List UInt8} (hw : ∀ b ∈ w, inLine b = true) (t : Token) :
    IsLocal IsLinePart (fun bs r => (word? w bs).map (fun rest => (t, rest)) = some r) := by
  intro bs t' rest h
  obtain ⟨rest, hword, heq⟩ := Option.map_eq_some_iff.1 h
  cases heq
  obtain ⟨rfl, hends⟩ := eq_of_word? hword
  refine ⟨w, rfl, IsLinePart.of_forall hw, ?_⟩
  intro rest' hrest
  rw [ends_eq, ← hrest, ← ends_eq] at hends
  rw [word?_append hends]
  rfl

/-- the number that a text starts with, if it is finite -/
def number? (bs : List UInt8) : Option (Token × List UInt8) :=
  (decimal? bs).bind fun (d, rest) => if d.toBinary64.isFinite then some (.number d.toBinary64, rest) else none

theorem isLocal_number? : IsLocal IsLinePart (fun bs r => number? bs = some r) := by
  refine IsLocal.congr (isLocal_decimal?.bind fun d =>
    isLocal_pure (fun _ => d.toBinary64.isFinite = true) (Token.number d.toBinary64)) ?_
  intro bs r
  simp only [number?, Option.bind_eq_some_iff, Prod.exists]
  refine exists₂_congr fun d rest => and_congr_right fun _ => ?_
  cases d.toBinary64.isFinite with
  | true => simp [eq_comm]
  | false => simp

theorem number?_of_not_numeral {b : UInt8} (hdigit : isDigit b = false) (hminus : (b == octet '-') = false)
    (bs : List UInt8) : number? (b :: bs) = none := by
  simp [number?, decimal?, minus, hdigit, hminus]

/-- the first octet tells the words and the numbers apart -/
theorem plain?_eq (bs : List UInt8) : plain? bs =
    if following bs == octet 'n' then (word? (Utf8.encode "null") bs).map fun rest => (.null, rest)
    else if following bs == octet 't' then (word? (Utf8.encode "true") bs).map fun rest => (.bool true, rest)
    else if following bs == octet 'f' then (word? (Utf8.encode "false") bs).map fun rest => (.bool false, rest)
    else number? bs := by
  have horelse : plain? bs = (((word? (Utf8.encode "null") bs).map fun rest => (.null, rest)).or
      (((word? (Utf8.encode "true") bs).map fun rest => (.bool true, rest)).or
        (((word? (Utf8.encode "false") bs).map fun rest => (.bool false, rest)).or (number? bs)))) := by
    simp only [plain?, number?, Option.orElse_eq_orElse, Option.orElse_eq_or]
  rw [horelse]
  cases bs with
  | nil => rfl
  | cons b bs =>
    have hnull : octet 'n' ≠ b → word? (Utf8.encode "null") (b :: bs) = none := fun h => word?_cons_of_ne h _ _
    have htrue : octet 't' ≠ b → word? (Utf8.encode "true") (b :: bs) = none := fun h => word?_cons_of_ne h _ _
    have hfalse : octet 'f' ≠ b → word? (Utf8.encode "false") (b :: bs) = none := fun h => word?_cons_of_ne h _ _
    change _ = if b == octet 'n' then _ else if b == octet 't' then _ else if b == octet 'f' then _ else _
    by_cases hn : b = octet 'n'
    · subst hn
      rw [htrue (by decide), hfalse (by decide), number?_of_not_numeral rfl rfl]
      simp
    by_cases ht : b = octet 't'
    · subst ht
      rw [hnull (by decide), hfalse (by decide), number?_of_not_numeral rfl rfl]
      simp [octet]
    by_cases hf : b = octet 'f'
    · subst hf
      rw [hnull (by decide), htrue (by decide), number?_of_not_numeral rfl rfl]
      simp [octet]
    · rw [hnull (Ne.symm hn), htrue (Ne.symm ht), hfalse (Ne.symm hf)]
      simp [hn, ht, hf]

theorem isLocal_plain? : IsLocal IsLinePart (fun bs r => plain? bs = some r) := by
  have hnull : ∀ b ∈ Utf8.encode "null", inLine b = true := List.all_eq_true.1 rfl
  have htrue : ∀ b ∈ Utf8.encode "true", inLine b = true := List.all_eq_true.1 rfl
  have hfalse : ∀ b ∈ Utf8.encode "false", inLine b = true := List.all_eq_true.1 rfl
  refine IsLocal.congr (.choice (· == octet 'n') (isLocal_word hnull .null) <|
    .choice (· == octet 't') (isLocal_word htrue (.bool true)) <|
    .choice (· == octet 'f') (isLocal_word hfalse (.bool false)) isLocal_number?) ?_
  intro bs r
  rw [plain?_eq]
  split_ifs <;> rfl

/-! ## Strings -/

/-- octets within a line that belong to the spelling of the string in which they stand -/
structure IsQuoted (used : List UInt8) : Prop where
  line : IsLinePart used
  spelling : ∀ rest, rest ≠ [] → spelling (used ++ rest) = used ++ spelling rest

namespace IsQuoted

theorem nil : IsQuoted [] := ⟨IsLinePart.nil, fun _ _ => rfl⟩

theorem append {us vs : List UInt8} (hu : IsQuoted us) (hv : IsQuoted vs) : IsQuoted (us ++ vs) := by
  refine ⟨hu.line.append hv.line, ?_⟩
  intro rest hrest
  rw [List.append_assoc, hu.spelling _ (by simp [hrest]), hv.spelling _ hrest, List.append_assoc]

/-- a backslash and the octet after it -/
theorem escaped {b : UInt8} (hb : inLine b = true) : IsQuoted [octet '\\', b] := by
  refine ⟨IsLinePart.cons rfl (IsLinePart.cons hb IsLinePart.nil), ?_⟩
  intro rest _
  rw [List.cons_append, List.cons_append, Json.spelling, if_neg (by decide), if_pos (by decide)]
  rfl

/-- octets none of which is a quote or a backslash -/
theorem of_forall {used : List UInt8} (hline : IsLinePart used)
    (h : ∀ b ∈ used, b ≠ octet '"' ∧ b ≠ octet '\\') : IsQuoted used := by
  refine ⟨hline, ?_⟩
  clear hline
  intro rest hrest
  induction used with
  | nil => rfl
  | cons b used ih =>
    obtain ⟨⟨hquote, hslash⟩, hused⟩ := List.forall_mem_cons.1 h
    obtain ⟨c, cs, hc⟩ := List.exists_cons_of_ne_nil (l := used ++ rest) (by simp [hrest])
    rw [List.cons_append, hc, Json.spelling, if_neg (by rwa [beq_iff_eq]), if_neg (by rwa [beq_iff_eq]), ← hc, ih hused]
    rfl

theorem character {c : Char} (hquote : c ≠ '"') (hslash : c ≠ '\\') (hline : c ≠ '\n') :
    IsQuoted (String.utf8EncodeChar c) := by
  refine of_forall ⟨[c], by simpa using hline.symm, by simp⟩ ?_
  intro b hb
  constructor
  · rintro rfl
    exact hquote (eq_of_octet_mem (by decide) hb)
  · rintro rfl
    exact hslash (eq_of_octet_mem (by decide) hb)

end IsQuoted

theorem isQuoted_hex {ds : List UInt8} {n : Nat} (h : hexNumber? ds = some n) : IsQuoted ds := by
  have hdigits : ∀ b ∈ ds, 48 ≤ b.toNat ∧ b.toNat ≤ 102 ∧ b.toNat ≠ 92 := by
    rw [hexNumber?] at h
    generalize 0 = acc at h
    induction ds generalizing acc with
    | nil => exact List.forall_mem_nil _
    | cons d ds ih =>
      rw [List.foldlM_cons] at h
      obtain ⟨acc', hacc, hds⟩ := Option.bind_eq_some_iff.1 h
      obtain ⟨x, hx, -⟩ := Option.map_eq_some_iff.1 hacc
      refine List.forall_mem_cons.2 ⟨?_, ih acc' hds⟩
      unfold hexValue? at hx
      dsimp only at hx
      split_ifs at hx <;> omega
  refine IsQuoted.of_forall (IsLinePart.of_forall ?_) ?_
  · intro b hb
    have hb := hdigits b hb
    have hline : b ≠ octet '\n' := by
      rintro rfl
      exact absurd hb.1 (by decide)
    simp only [inLine, Bool.and_eq_true, decide_eq_true_eq, bne_iff_ne]
    exact ⟨by omega, hline⟩
  · intro b hb
    have hb := hdigits b hb
    constructor
    · rintro rfl
      exact absurd hb.1 (by decide)
    · rintro rfl
      exact absurd rfl hb.2.2

theorem isLocal_lowSurrogate (high : Nat) : IsLocal IsQuoted (fun bs r => lowSurrogate high bs = .ok r) := by
  intro bs c rest h
  change lowSurrogate high bs = _ at h
  unfold lowSurrogate at h
  split at h
  · next a b h1 h2 h3 h4 rest =>
    split at h
    · next hab =>
      split at h
      · next c hc =>
        cases h
        refine ⟨[a, b] ++ [h1, h2, h3, h4], rfl, ?_, ?_⟩
        · obtain ⟨ha, hb⟩ := Bool.and_eq_true_iff.1 hab
          obtain ⟨n, hn, -⟩ := Option.bind_eq_some_iff.1 hc
          rw [beq_iff_eq.1 ha, beq_iff_eq.1 hb]
          exact (IsQuoted.escaped rfl).append (isQuoted_hex hn)
        · intro rest' _
          change lowSurrogate high (a :: b :: h1 :: h2 :: h3 :: h4 :: rest') = _
          rw [lowSurrogate, if_pos hab, hc]
      · cases h
    · cases h
  · cases h

theorem isLocal_unicodeEscape : IsLocal IsQuoted (fun bs r => unicodeEscape bs = .ok r) := by
  intro bs c rest h
  change unicodeEscape bs = _ at h
  unfold unicodeEscape at h
  split at h
  · next h1 h2 h3 h4 mid =>
    split at h
    · cases h
    · next n hn =>
      have heq : ∀ rest', unicodeEscape ([h1, h2, h3, h4] ++ rest') =
          if 0xD800 ≤ n ∧ n < 0xE000 then lowSurrogate n rest' else .ok (Char.ofNat n, rest') := by
        intro rest'
        change unicodeEscape (h1 :: h2 :: h3 :: h4 :: rest') = _
        rw [unicodeEscape, hn]
      split at h
      · next hhigh =>
        obtain ⟨used, rfl, hused, hused'⟩ := isLocal_lowSurrogate n mid c rest h
        refine ⟨[h1, h2, h3, h4] ++ used, rfl, (isQuoted_hex hn).append hused, ?_⟩
        intro rest' hrest
        rw [List.append_assoc, heq, if_pos hhigh]
        exact hused' rest' hrest
      · next hhigh =>
        cases h
        refine ⟨[h1, h2, h3, h4], rfl, isQuoted_hex hn, ?_⟩
        intro rest' _
        rw [heq, if_neg hhigh]
  · cases h

theorem isLocal_escape : IsLocal (fun used => IsQuoted (octet '\\' :: used)) (fun bs r => escape bs = .ok r) := by
  intro bs c rest h
  change escape bs = _ at h
  cases bs with
  | nil => cases h
  | cons b bs =>
    rw [escape] at h
    split at h
    · next hu =>
      obtain ⟨used, rfl, hused, hused'⟩ := isLocal_unicodeEscape bs c rest h
      refine ⟨b :: used, rfl, ?_, ?_⟩
      · rw [beq_iff_eq.1 hu]
        exact (IsQuoted.escaped rfl).append hused
      · intro rest' hrest
        rw [List.cons_append, escape, if_pos hu]
        exact hused' rest' hrest
    · next hu =>
      split at h
      · next c hc =>
        cases h
        refine ⟨[b], rfl, IsQuoted.escaped (inLine_of_letterEscape? hc), ?_⟩
        intro rest' _
        rw [List.singleton_append, escape, if_neg hu, hc]
      · cases h

theorem isLocal_stringChar : IsLocal IsQuoted
    (fun bs r => bs.head? ≠ some (octet '"') ∧ stringChar bs = .ok r) := by
  rintro bs c rest ⟨hquote, h⟩
  cases bs with
  | nil => cases h
  | cons b bs =>
    rw [stringChar] at h
    split at h
    · next hslash =>
      obtain ⟨used, rfl, hused, hused'⟩ := isLocal_escape bs c rest h
      refine ⟨b :: used, rfl, ?_, ?_⟩
      · rwa [beq_iff_eq.1 hslash]
      · intro rest' hrest
        refine ⟨hquote, ?_⟩
        rw [List.cons_append, stringChar, if_pos hslash]
        exact hused' rest' hrest
    · next hslash =>
      split at h
      · cases h
      · next hline =>
        split at h
        · cases h
        · next hlow =>
          split at h
          · next r hnext =>
            cases h
            have heq := Utf8.eq_of_next? hnext
            have hascii : ∀ d : Char, d.toNat < 128 → b ≠ octet d → c ≠ d := by
              rintro d hd hne rfl
              rw [encodeChar_ascii hd] at heq
              exact hne (List.head_eq_of_cons_eq heq)
            have hquote := hascii '"' (by decide) fun h => hquote (congrArg some h)
            have hslash := hascii '\\' (by decide) fun h => hslash (beq_iff_eq.2 h)
            have hline := hascii '\n' (by decide) fun h => hline (beq_iff_eq.2 h)
            have hlow : 0x20 ≤ c.toNat := by
              obtain ⟨b', bs', hc, hb⟩ := Utf8.exists_encodeChar c
              rw [hc] at heq
              cases heq
              omega
            refine ⟨String.utf8EncodeChar c, heq, IsQuoted.character hquote hslash hline, ?_⟩
            intro rest' _
            exact ⟨head?_encodeChar_ne (by decide) hquote rest', stringChar_encodeChar hslash hlow rest'⟩
          · cases h

/-- the octets of a string up to its closing quote: they are its spelling and the quote -/
structure IsClosed (used : List UInt8) : Prop where
  line : IsLinePart used
  ne_nil : used ≠ []
  spelling : ∀ rest, spelling (used ++ rest) = used.dropLast

theorem IsQuoted.append_isClosed {us vs : List UInt8} (hu : IsQuoted us) (hv : IsClosed vs) : IsClosed (us ++ vs) := by
  refine ⟨hu.line.append hv.line, by simp [hv.ne_nil], ?_⟩
  intro rest
  rw [List.append_assoc, hu.spelling _ (by simp [hv.ne_nil]), hv.spelling, List.dropLast_append_of_ne_nil hv.ne_nil]

theorem isClosed_quote : IsClosed [octet '"'] := by
  refine ⟨IsLinePart.cons rfl IsLinePart.nil, by simp, ?_⟩
  intro rest
  cases rest with
  | nil => rfl
  | cons b rest =>
    rw [List.singleton_append, Json.spelling, if_pos (by decide)]
    rfl

theorem stringBody_of_quote {read : List Char} {bs : List UInt8} (h : bs.head? = some (octet '"')) :
    stringBody read bs = .ok (read.reverse, bs.tail) := by
  rw [stringBody, if_pos h]

theorem isLocal_stringBody (read : List Char) : IsLocal IsClosed (fun bs r => stringBody read bs = .ok r) := by
  intro bs cs rest h
  change stringBody read bs = _ at h
  fun_induction stringBody read bs with
  | case1 read bs hquote =>
    cases h
    refine ⟨[octet '"'], ?_, isClosed_quote, ?_⟩
    · cases bs with
      | nil => cases hquote
      | cons b bs => rw [Option.some.inj hquote]; rfl
    · intro rest' _
      exact stringBody_of_quote rfl
  | case2 => cases h
  | case3 read bs hquote c mid hchar hlt ih =>
    obtain ⟨us, rfl, hus, hus'⟩ := isLocal_stringChar bs c mid ⟨hquote, hchar⟩
    obtain ⟨vs, rfl, hvs, hvs'⟩ := ih h
    refine ⟨us ++ vs, (List.append_assoc us vs rest).symm, hus.append_isClosed hvs, ?_⟩
    intro rest' hrest
    obtain ⟨hquote', hchar'⟩ := hus' (vs ++ rest') (following_append hrest vs)
    rw [List.append_assoc, stringBody_of_char hquote' hchar']
    exact hvs' rest' hrest

/-! ## Tokens -/

/-- a token stands in one line, and its reader looks one octet ahead -/
theorem isLocal_next : IsLocal IsLinePart (fun bs r => Token.next bs = .ok r) := by
  intro bs t rest h
  cases bs with
  | nil => cases h
  | cons b bs =>
    change Token.next (b :: bs) = _ at h
    rw [Token.next] at h
    split at h
    · next hquote =>
      split at h
      · next cs after hbody =>
        cases h
        obtain ⟨used, rfl, hused, hused'⟩ := isLocal_stringBody [] bs cs rest hbody
        refine ⟨b :: used, rfl, IsLinePart.cons (inLine_of_beq rfl hquote) hused.line, ?_⟩
        intro rest' hrest
        rw [List.cons_append, Token.next, if_pos hquote, hused' rest' hrest, hused.spelling, hused.spelling]
      · cases h
    · next hquote =>
      split at h
      · next t hb =>
        cases h
        refine ⟨[b], rfl, IsLinePart.cons (inLine_of_punctuation? hb) IsLinePart.nil, ?_⟩
        intro rest' _
        rw [List.singleton_append, Token.next, if_neg hquote, hb]
      · next hb =>
        split at h
        · next r hplain =>
          cases h
          obtain ⟨used, heq, hused, hused'⟩ := isLocal_plain? (b :: bs) t rest hplain
          cases used with
          | nil =>
            have hlt := plain?_length hplain
            rw [heq, List.nil_append] at hlt
            exact absurd hlt (Nat.lt_irrefl _)
          | cons b' used =>
            cases heq
            refine ⟨b :: used, rfl, hused, ?_⟩
            intro rest' hrest
            exact next_of_plain (Bool.eq_false_iff.2 hquote) hb (hused' rest' hrest)
        · cases h

end LetStack.Json

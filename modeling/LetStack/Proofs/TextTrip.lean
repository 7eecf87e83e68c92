/-
The text format: what is written is read back.

`run?` is the reader from any state on. It skips blanks and takes one token at a time, except that strings which follow
each other are one token; so a string is read as it is written only if no string follows (`NoString`), which holds of
every text that goes on with a line. A line with a scalar sets its field (`run?_scalarLine`), and the lines of a message
set theirs if the inner lines make the message (`run?_messageLines`). Both keep what follows.

Results:
- `stringBody_flatMap_escapeChar`: the octets of a string are read back;
- `reads_of_isPlain`: the lines of a plain value set the value of a message that has none;
- `read?_write`: the text of a plain value is read as the value.
-/
import LetStack.Proofs.Numerals
import LetStack.Proofs.Plain
import LetStack.Value.TextFormat.Reader
import LetStack.Value.TextFormat.Writer

namespace LetStack.TextFormat

open Octet

/-! ## Strings -/

/-- a character is written after a backslash by a letter, after it by number, or as it is -/
theorem escapeChar_cases (c : Char) :
    (∃ x, escapeChar c = ['\\', x] ∧ x.toNat < 128 ∧
        ∀ rest, escape? (octet x :: rest) = some (String.utf8EncodeChar c, rest)) ∨
      (escapeChar c = '\\' :: 'x' :: Text.hex c.toNat 2 ∧ c.toNat < 0x20) ∨
      (escapeChar c = [c] ∧ c ≠ '"' ∧ c ≠ '\\' ∧ 0x20 ≤ c.toNat) := by
  fun_cases escapeChar c with
  | case1 hc => exact .inl ⟨'"', rfl, by decide, fun _ => by rw [hc]; rfl⟩
  | case2 _ hc => exact .inl ⟨'\\', rfl, by decide, fun _ => by rw [hc]; rfl⟩
  | case3 _ _ hc => exact .inl ⟨'n', rfl, by decide, fun _ => by rw [hc]; rfl⟩
  | case4 _ _ _ hc => exact .inl ⟨'r', rfl, by decide, fun _ => by rw [hc]; rfl⟩
  | case5 _ _ _ _ hc => exact .inl ⟨'t', rfl, by decide, fun _ => by rw [hc]; rfl⟩
  | case6 _ _ _ _ _ hlow => exact .inr (.inl ⟨rfl, hlow⟩)
  | case7 hquote hslash _ _ _ hlow => exact .inr (.inr ⟨rfl, hquote, hslash, Nat.le_of_not_lt hlow⟩)

/-- an escape by number is read as the octet of the character -/
theorem hexEscape?_hex {c : Char} (hc : c.toNat < 0x20) (rest : List UInt8) :
    hexEscape? ((Text.hex c.toNat 2).map octet ++ rest) = some (String.utf8EncodeChar c, rest) := by
  have hnumber := hexNumber?_hex c.toNat 2
  rw [Nat.mod_eq_of_lt (by omega)] at hnumber
  have hdigit : ∀ n, (hexValue? (octet (Text.hexDigit (n % 16)))).isSome = true := by
    intro n
    rw [hexValue?_hexDigit (Nat.mod_lt n (by decide))]
    rfl
  obtain ⟨h1, h2, hdigits, hh1, hh2⟩ : ∃ h1 h2, (Text.hex c.toNat 2).map octet = [h1, h2] ∧
      (hexValue? h1).isSome = true ∧ (hexValue? h2).isSome = true := ⟨_, _, rfl, hdigit _, hdigit _⟩
  rw [hdigits] at hnumber ⊢
  rw [encodeChar_ascii (by omega)]
  simp [hexEscape?, hh1, hh2, hnumber, octet]

/-- one character is read back, and it does not look like the closing quote -/
theorem stringPart?_escapeChar (c : Char) (rest : List UInt8) :
    stringPart? ((escapeChar c).flatMap String.utf8EncodeChar ++ rest) = some (String.utf8EncodeChar c, rest) ∧
      ((escapeChar c).flatMap String.utf8EncodeChar ++ rest).head? ≠ some (octet '"') := by
  rcases escapeChar_cases c with ⟨x, hwritten, hascii, hescape⟩ | ⟨hwritten, hlow⟩ | ⟨hwritten, hquote, hslash, hlow⟩
  · rw [hwritten, List.flatMap_cons, List.flatMap_singleton, encodeChar_ascii (by decide), encodeChar_ascii hascii]
    exact ⟨hescape rest, fun h => absurd (Option.some.inj h) (by decide)⟩
  · have hoctets : ∀ x ∈ '\\' :: 'x' :: Text.hex c.toNat 2, x.toNat < 128 :=
      List.forall_mem_cons.2 ⟨by decide, List.forall_mem_cons.2 ⟨by decide, ascii_hex _ _⟩⟩
    rw [hwritten, flatMap_encodeChar_ascii hoctets]
    exact ⟨hexEscape?_hex hlow rest, by simp [octet]⟩
  · rw [hwritten, List.flatMap_singleton]
    have hnext := Utf8.next?_encodeChar c rest
    obtain ⟨b, bs, hoctets, hb⟩ := Utf8.exists_encodeChar c
    have hquote := ne_octet_of_encodeChar hoctets (by decide) hquote
    have hslash := ne_octet_of_encodeChar hoctets (by decide) hslash
    have hcontrol : (b == 0 || b == octet '\n') = false := by
      have hnat : 0x20 ≤ b.toNat := by omega
      simp only [Bool.or_eq_false_iff, beq_eq_false_iff_ne]
      constructor <;> rintro rfl <;> exact absurd hnat (by decide)
    rw [hoctets, List.cons_append] at hnext ⊢
    refine ⟨?_, fun h => hquote (Option.some.inj h)⟩
    rw [stringPart?, if_neg (by rwa [beq_iff_eq]), hcontrol, if_neg Bool.false_ne_true, hnext, ← hoctets]
    rfl

theorem stringBody_flatMap_escapeChar (cs : List Char) (read rest : List UInt8) :
    stringBody (octet '"') read ((cs.flatMap escapeChar).flatMap String.utf8EncodeChar ++ octet '"' :: rest) =
      some (read.reverse ++ cs.flatMap String.utf8EncodeChar, rest) := by
  induction cs generalizing read with
  | nil =>
    rw [stringBody]
    simp
  | cons c cs ih =>
    rw [List.flatMap_cons, List.flatMap_append, List.append_assoc]
    obtain ⟨hpart, hquote⟩ := stringPart?_escapeChar c
      ((cs.flatMap escapeChar).flatMap String.utf8EncodeChar ++ octet '"' :: rest)
    rw [stringBody, if_neg hquote]
    split
    · next hfault => cases hpart.symm.trans hfault
    · next octets rest' hread =>
      cases hpart.symm.trans hread
      rw [ih, List.reverse_append, List.reverse_reverse, List.append_assoc, List.flatMap_cons]

theorem next?_quote (s : String) (rest : List UInt8) :
    Token.next? (Utf8.encode (quote s) ++ rest) = some (.string (Utf8.encode s), rest) := by
  rw [quote, encode_quoted, Token.next?, if_pos (by decide), stringBody_flatMap_escapeChar]
  rfl

/-! ## Words -/

/-- is the text a letter or a low line, and letters, low lines and digits after it? -/
def isName (name : String) : Bool :=
  match Utf8.encode name with
  | [] => false
  | b :: bs => isWordStart b && bs.all isWordPart

theorem exists_of_isName {name : String} (h : isName name = true) :
    ∃ b bs, Utf8.encode name = b :: bs ∧ isWordStart b = true ∧ ∀ c ∈ bs, isWordPart c = true := by
  unfold isName at h
  split at h
  · cases h
  · next b bs hoctets =>
    rw [Bool.and_eq_true, List.all_eq_true] at h
    exact ⟨b, bs, hoctets, h⟩

/-- what starts a word starts nothing else -/
theorem punctuation?_of_isWordStart {b : UInt8} (hb : isWordStart b = true) :
    punctuation? b = none ∧ b ∉ [octet '"', octet '\x27', octet '-', octet '#'] ∧ isSpace b = false := by
  have hne : ∀ c, isWordStart c = false → b ≠ c := by
    rintro c hc rfl
    exact nomatch hc.symm.trans hb
  refine ⟨?_, ?_, ?_⟩
  · simp only [punctuation?, beq_iff_eq]
    rw [if_neg (hne _ rfl), if_neg (hne _ rfl), if_neg (hne _ rfl), if_neg (hne _ rfl), if_neg (hne _ rfl),
      if_neg (hne _ rfl), if_neg (hne _ rfl), if_neg (hne _ rfl), if_neg (hne _ rfl)]
  · simp only [List.mem_cons, List.not_mem_nil, or_false, not_or]
    exact ⟨hne _ rfl, hne _ rfl, hne _ rfl, hne _ rfl⟩
  · simp only [isSpace, Bool.or_eq_false_iff, beq_eq_false_iff_ne]
    exact ⟨⟨⟨hne _ rfl, hne _ rfl⟩, hne _ rfl⟩, hne _ rfl⟩

/-- what ends a word is no part of it -/
theorem isWordPart_of_ends {rest : List UInt8} (hrest : ends rest = true) : ∀ b ∈ rest.head?, isWordPart b = false := by
  cases rest with
  | nil => exact fun _ hb => nomatch hb
  | cons b rest =>
    intro c hc
    cases hc
    simp only [ends, joins, Bool.not_eq_true', Bool.or_eq_false_iff] at hrest
    simp only [isWordPart, isWordStart, hrest, Bool.or_self]

theorem next?_name {name : String} (hname : isName name = true) {rest : List UInt8} (hrest : ends rest = true) :
    Token.next? (Utf8.encode name ++ rest) = some (.word false name, rest) := by
  have hdecode := Utf8.decode?_encode name
  obtain ⟨b, bs, hoctets, hb, hbs⟩ := exists_of_isName hname
  obtain ⟨hpunctuation, hother, -⟩ := punctuation?_of_isWordStart hb
  have hparts : ∀ c ∈ b :: bs, isWordPart c = true :=
    List.forall_mem_cons.2 ⟨by rw [isWordPart, hb, Bool.true_or], hbs⟩
  have hword := (takeWhile_append_of_stop hparts (isWordPart_of_ends hrest)).1
  have hminus : minus (b :: (bs ++ rest)) = (false, b :: (bs ++ rest)) := by
    rw [minus, if_neg (by rw [beq_iff_eq]; rintro rfl; exact hother (by decide))]
  have hunsigned : unsigned? false (b :: (bs ++ rest)) = some (.word false name, rest) := by
    rw [← List.cons_append, unsigned?]
    simp only [List.cons_append, List.head?_cons, Option.map_some, hb, Option.getD_some, if_true]
    rw [← List.cons_append, hword, ← hoctets, hdecode, Option.map_some, List.drop_left]
  rw [hoctets, List.cons_append, Token.next?, if_neg, hpunctuation]
  · simp only [plain?, hminus, hunsigned]
    rw [Option.filter_some, if_pos hrest]
  · rw [Bool.or_eq_true, beq_iff_eq, beq_iff_eq]
    rintro (rfl | rfl) <;> exact hother (by decide)

/-! ## The reader from a state on -/

theorem scan?_eq (bs : List UInt8) : Token.scan? bs =
    if (skipBlank false bs).isEmpty then some []
    else (Token.next? (skipBlank false bs)).bind fun r => (Token.scan? r.2).map (r.1 :: ·) := by
  rw [Token.scan?]
  split
  · rfl
  · split <;> simp_all

/-- the reader, from a state on -/
def run? (s : State) (text : List UInt8) : Option Value := do
  let tokens ← Token.scan? text
  let s ← (Token.joinStrings tokens).foldlM State.step s
  s.finish?

theorem skipBlank_spaces {spaces : List UInt8} (h : ∀ b ∈ spaces, isSpace b = true) (rest : List UInt8) :
    skipBlank false (spaces ++ rest) = skipBlank false rest := by
  induction spaces with
  | nil => rfl
  | cons b spaces ih =>
    obtain ⟨hb, hspaces⟩ := List.forall_mem_cons.1 h
    rw [List.cons_append, skipBlank, if_pos hb, ih hspaces]

theorem skipBlank_of_head {b : UInt8} (hspace : isSpace b = false) (hcomment : b ≠ octet '#') (bs : List UInt8) :
    skipBlank false (b :: bs) = b :: bs := by
  rw [skipBlank, hspace, if_neg Bool.false_ne_true, if_neg (by rwa [beq_iff_eq])]

theorem run?_spaces {spaces : List UInt8} (h : ∀ b ∈ spaces, isSpace b = true) (s : State) (rest : List UInt8) :
    run? s (spaces ++ rest) = run? s rest := by
  have hscan : Token.scan? (spaces ++ rest) = Token.scan? rest := by
    rw [scan?_eq, skipBlank_spaces h, ← scan?_eq]
  rw [run?, hscan]
  rfl

theorem run?_indent (depth : ℕ) (s : State) (rest : List UInt8) :
    run? s (Utf8.encode (indent depth) ++ rest) = run? s rest :=
  run?_spaces (isSpace_indent depth) s rest

theorem run?_space (s : State) (rest : List UInt8) : run? s (Utf8.encode " " ++ rest) = run? s rest :=
  run?_spaces (List.all_eq_true.1 rfl) s rest

theorem run?_line (s : State) (rest : List UInt8) : run? s (Utf8.encode "\n" ++ rest) = run? s rest :=
  run?_spaces (List.all_eq_true.1 rfl) s rest

/-! ## Strings that follow each other -/

/-- the text does not go on with a string -/
def NoString (text : List UInt8) : Prop :=
  ∀ b ∈ (skipBlank false text).head?, b ≠ octet '"' ∧ b ≠ octet '\x27'

theorem noString_spaces {spaces : List UInt8} (h : ∀ b ∈ spaces, isSpace b = true) {rest : List UInt8}
    (hrest : NoString rest) : NoString (spaces ++ rest) := by
  rwa [NoString, skipBlank_spaces h]

theorem noString_name {name : String} (hname : isName name = true) (depth : ℕ) (rest : List UInt8) :
    NoString (Utf8.encode (indent depth) ++ (Utf8.encode name ++ rest)) := by
  obtain ⟨b, bs, hoctets, hb, -⟩ := exists_of_isName hname
  obtain ⟨-, hother, hspace⟩ := punctuation?_of_isWordStart hb
  have hne : ∀ c ∈ [octet '"', octet '\x27', octet '-', octet '#'], b ≠ c := by
    rintro c hc rfl
    exact hother hc
  apply noString_spaces (isSpace_indent depth)
  rw [NoString, hoctets, List.cons_append, skipBlank_of_head hspace (hne _ (by decide))]
  intro c hc
  cases hc
  exact ⟨hne _ (by decide), hne _ (by decide)⟩

theorem punctuation?_ne_string (b : UInt8) (octets : List UInt8) : punctuation? b ≠ some (.string octets) := by
  fun_cases punctuation? b <;> (intro h; cases h)

/-- a token that does not start with a quote is no string -/
theorem next?_ne_string {b : UInt8} {bs rest : List UInt8} {t : Token} (hb : b ≠ octet '"' ∧ b ≠ octet '\x27')
    (h : Token.next? (b :: bs) = some (t, rest)) (octets : List UInt8) : t ≠ .string octets := by
  rintro rfl
  have hquote : ¬ (b == octet '"' || b == octet '\x27') = true := by
    rw [Bool.or_eq_true, beq_iff_eq, beq_iff_eq]
    exact not_or.2 hb
  rw [Token.next?, if_neg hquote] at h
  split at h
  · next hpunctuation =>
    cases h
    exact punctuation?_ne_string b octets hpunctuation
  · rw [plain?, Option.filter_eq_some_iff, unsigned?] at h
    split at h
    · obtain ⟨_, _, h⟩ := Option.map_eq_some_iff.1 h.1
      cases congrArg Prod.fst h
    · obtain ⟨_, _, h⟩ := Option.map_eq_some_iff.1 h.1
      cases congrArg Prod.fst h

theorem joinStrings_cons {t : Token} {ts : List Token}
    (h : ∀ octets, t = .string octets → ∀ t' ∈ ts.head?, ∀ octets, t' ≠ .string octets) :
    Token.joinStrings (t :: ts) = t :: Token.joinStrings ts := by
  cases t with
  | string octets =>
    have hts := h octets rfl
    cases ts with
    | nil => rfl
    | cons t' ts =>
      cases t' with
      | string octets' => exact absurd rfl (hts _ rfl octets')
      | _ => rfl
  | _ => rfl

/-- the first token of a text that does not go on with a string is none -/
theorem head_scan? {rest : List UInt8} {ts : List Token} (hrest : NoString rest) (hts : Token.scan? rest = some ts) :
    ∀ t ∈ ts.head?, ∀ octets, t ≠ .string octets := by
  rw [scan?_eq] at hts
  rw [NoString] at hrest
  cases htext : skipBlank false rest with
  | nil =>
    rw [htext] at hts
    cases hts
    exact fun _ ht => nomatch ht
  | cons b bs =>
    rw [htext] at hts hrest
    obtain ⟨⟨t, more⟩, hnext, hmap⟩ := Option.bind_eq_some_iff.1 hts
    obtain ⟨ts', -, rfl⟩ := Option.map_eq_some_iff.1 hmap
    intro t' ht' octets
    cases ht'
    exact next?_ne_string (hrest b rfl) hnext octets

/-- a token that may come next takes the reader on; if it is a string, no string may follow -/
theorem run?_token {s s' : State} {b : UInt8} {bs rest : List UInt8} {t : Token}
    (hnext : Token.next? (b :: bs) = some (t, rest)) (hspace : isSpace b = false) (hcomment : b ≠ octet '#')
    (hs : s.step t = some s') (hstring : ∀ octets, t = .string octets → NoString rest) :
    run? s (b :: bs) = run? s' rest := by
  have hscan : Token.scan? (b :: bs) = (Token.scan? rest).map (t :: ·) := by
    rw [scan?_eq, skipBlank_of_head hspace hcomment, hnext]
    rfl
  rw [run?, run?, hscan]
  cases hts : Token.scan? rest with
  | none => rfl
  | some ts =>
    have hjoin : Token.joinStrings (t :: ts) = t :: Token.joinStrings ts :=
      joinStrings_cons fun octets ht => head_scan? (hstring octets ht) hts
    simp only [Option.map_some, Option.bind_eq_bind, Option.bind_some, hjoin, List.foldlM_cons, hs]

theorem run?_punctuation {s s' : State} {b : UInt8} {t : Token} (hb : punctuation? b = some t)
    (hs : s.step t = some s') (rest : List UInt8) : run? s (b :: rest) = run? s' rest := by
  have hne : ∀ c, punctuation? c = none → b ≠ c := by
    rintro c hc rfl
    exact nomatch hc.symm.trans hb
  have hspace : isSpace b = false := by
    simp only [isSpace, Bool.or_eq_false_iff, beq_eq_false_iff_ne]
    exact ⟨⟨⟨hne _ rfl, hne _ rfl⟩, hne _ rfl⟩, hne _ rfl⟩
  have hquote : b ≠ octet '"' ∧ b ≠ octet '\x27' := ⟨hne _ rfl, hne _ rfl⟩
  have hnext : Token.next? (b :: rest) = some (t, rest) := by
    rw [Token.next?, if_neg (by simp [hquote]), hb]
  exact run?_token hnext hspace (hne _ rfl) hs fun octets ht => absurd ht (next?_ne_string hquote hnext octets)

/-! ## Lines -/

/-- the name of a field and its colon -/
theorem run?_name {name : String} (hname : isName name = true) {m : Message} {f : Field} (hf : m.field? name = some f)
    (separator : Bool) (around : List Enclosing) (depth : ℕ) (rest : List UInt8) :
    run? ⟨.field separator, m, around⟩ (Utf8.encode (indent depth) ++ (Utf8.encode name ++ (octet ':' :: rest))) =
      run? ⟨.content f true, m, around⟩ rest := by
  have hnext := next?_name hname (show ends (octet ':' :: rest) = true from rfl)
  obtain ⟨b, bs, hoctets, hb, -⟩ := exists_of_isName hname
  obtain ⟨-, hother, hspace⟩ := punctuation?_of_isWordStart hb
  have hcomment : b ≠ octet '#' := by
    rintro rfl
    exact hother (by decide)
  have hword : State.step ⟨.field separator, m, around⟩ (.word false name) = some ⟨.content f false, m, around⟩ := by
    simp only [State.step, State.fieldStep, hf, Option.map_some]
  rw [hoctets, List.cons_append] at hnext
  rw [run?_indent, hoctets, List.cons_append, run?_token hnext hspace hcomment hword fun _ h => nomatch h]
  exact run?_punctuation (t := .colon) rfl rfl rest

/-- a scalar is content of a field that it sets -/
theorem contentStep_of_setScalar? {m m' : Message} {f : Field} {t : Token} (h : m.setScalar? f t = some m')
    (around : List Enclosing) :
    State.step ⟨.content f true, m, around⟩ t = some ⟨.field true, m', around⟩ := by
  have hnone : t ≠ .colon ∧ (∀ b, t ≠ .openMessage b) ∧ t ≠ .openList := by
    refine ⟨?_, ?_, ?_⟩
    · rintro rfl
      cases m <;> cases f <;> exact nomatch h
    · rintro b rfl
      cases m <;> cases f <;> exact nomatch h
    · rintro rfl
      cases m <;> cases f <;> exact nomatch h
  cases t <;> simp_all [State.step, State.contentStep]

/-- a line with a scalar sets its field -/
theorem run?_scalarLine {name text : String} (hname : isName name = true) {m m' : Message} {f : Field}
    (hf : m.field? name = some f) {rest : List UInt8} {b : UInt8} {bs : List UInt8} {t : Token}
    (htext : Utf8.encode text ++ (Utf8.encode "\n" ++ rest) = b :: bs) (hspace : isSpace b = false)
    (hcomment : b ≠ octet '#') (hnext : Token.next? (b :: bs) = some (t, Utf8.encode "\n" ++ rest))
    (hset : m.setScalar? f t = some m') (hstring : ∀ octets, t = .string octets → NoString rest)
    (separator : Bool) (around : List Enclosing) (depth : ℕ) :
    run? ⟨.field separator, m, around⟩ (Utf8.encode (scalarLine depth name text) ++ rest) =
      run? ⟨.field true, m', around⟩ rest := by
  rw [scalarLine, Utf8.encode_append, Utf8.encode_append, Utf8.encode_append, Utf8.encode_append]
  simp only [List.append_assoc]
  refine (run?_name hname hf separator around depth (Utf8.encode " " ++ _)).trans ?_
  rw [run?_space, htext]
  rw [run?_token hnext hspace hcomment (contentStep_of_setScalar? hset around)]
  · exact run?_line _ rest
  · intro octets ht
    exact noString_spaces (List.all_eq_true.1 rfl) (hstring octets ht)

/-- so does a line with a string, if no string follows -/
theorem run?_stringLine {name : String} (hname : isName name = true) {m m' : Message} {f : Field}
    (hf : m.field? name = some f) {s : String} (hset : m.setScalar? f (.string (Utf8.encode s)) = some m')
    {rest : List UInt8} (hrest : NoString rest) (separator : Bool) (around : List Enclosing) (depth : ℕ) :
    run? ⟨.field separator, m, around⟩ (Utf8.encode (scalarLine depth name (quote s)) ++ rest) =
      run? ⟨.field true, m', around⟩ rest := by
  have hnext := next?_quote s (Utf8.encode "\n" ++ rest)
  have htext := encode_quoted (s.toList.flatMap escapeChar) (Utf8.encode "\n" ++ rest)
  rw [quote, htext] at hnext
  exact run?_scalarLine hname hf htext rfl (by decide) hnext hset (fun _ _ => hrest) separator around depth

/-- the lines of a message set its field, if the inner lines make the message -/
theorem run?_messageLines {name lines : String} (hname : isName name = true) {m inner inner' m' : Message} {f : Field}
    (hf : m.field? name = some f) (hinner : f.message? = some inner) (hattach : m.attach? inner' = some m')
    (separator separator' : Bool) (around : List Enclosing) (depth : ℕ) (rest : List UInt8)
    (hlines : ∀ rest, NoString rest →
      run? ⟨.field false, inner, ⟨m, .brace, .field true⟩ :: around⟩ (Utf8.encode lines ++ rest) =
        run? ⟨.field separator', inner', ⟨m, .brace, .field true⟩ :: around⟩ rest) :
    run? ⟨.field separator, m, around⟩ (Utf8.encode (messageLines depth name lines) ++ rest) =
      run? ⟨.field true, m', around⟩ rest := by
  have hopen : State.step ⟨.content f true, m, around⟩ (.openMessage .brace) =
      some ⟨.field false, inner, ⟨m, .brace, .field true⟩ :: around⟩ := by
    simp only [State.step, State.contentStep, State.enter, hinner, Option.map_some]
  have hclose : State.step ⟨.field separator', inner', ⟨m, .brace, .field true⟩ :: around⟩ (.closeMessage .brace) =
      some ⟨.field true, m', around⟩ := by
    simp only [State.step, State.fieldStep, State.leave, if_true, hattach, Option.map_some]
  have hend : run? ⟨.field separator', inner', ⟨m, .brace, .field true⟩ :: around⟩ (Utf8.encode "\x7d\n" ++ rest) =
      run? ⟨.field true, m', around⟩ rest :=
    (run?_punctuation rfl hclose (Utf8.encode "\n" ++ rest)).trans (run?_line _ rest)
  have hquiet : NoString (Utf8.encode "\x7d\n" ++ rest) := by
    intro b hb
    cases hb
    decide
  rw [messageLines]
  split_ifs with hempty
  · have hlines := hlines _ hquiet
    rw [String.isEmpty_iff.1 hempty] at hlines
    rw [Utf8.encode_append, Utf8.encode_append]
    simp only [List.append_assoc]
    refine (run?_name hname hf separator around depth (Utf8.encode " \x7b" ++ (Utf8.encode "\x7d\n" ++ rest))).trans ?_
    refine (run?_space _ _).trans ?_
    exact (run?_punctuation rfl hopen _).trans (hlines.trans hend)
  · rw [Utf8.encode_append, Utf8.encode_append, Utf8.encode_append, Utf8.encode_append, Utf8.encode_append]
    simp only [List.append_assoc]
    refine (run?_name hname hf separator around depth (Utf8.encode " \x7b\n" ++ _)).trans ?_
    refine (run?_space _ _).trans ?_
    refine (run?_punctuation rfl hopen (Utf8.encode "\n" ++ _)).trans ?_
    rw [run?_line]
    refine (hlines _ (noString_spaces (isSpace_indent depth) hquiet)).trans ?_
    exact (run?_indent depth _ _).trans hend

theorem noString_messageLines {name : String} (hname : isName name = true) (depth : ℕ) (lines : String)
    (rest : List UInt8) :
    NoString (Utf8.encode (messageLines depth name lines) ++ rest) := by
  rw [messageLines]
  split_ifs with hempty
  · rw [Utf8.encode_append, Utf8.encode_append]
    simp only [List.append_assoc]
    exact noString_name hname depth _
  · rw [Utf8.encode_append, Utf8.encode_append, Utf8.encode_append, Utf8.encode_append, Utf8.encode_append]
    simp only [List.append_assoc]
    exact noString_name hname depth _

/-! ## Scalars -/

/-- the lines of the value set the value of a message that has none -/
def Reads (v : Value) : Prop :=
  ∀ (depth : ℕ) (separator : Bool) (around : List Enclosing) (rest : List UInt8), NoString rest →
    run? ⟨.field separator, .value none, around⟩ (Utf8.encode (write depth v) ++ rest) =
      run? ⟨.field true, .value (some v), around⟩ rest

theorem reads_null : Reads .null := by
  intro depth separator around rest hrest
  rw [write]
  have hword : isName "NULL_VALUE" = true := by decide
  exact run?_scalarLine (by decide) rfl rfl rfl (by decide) (next?_name hword rfl) rfl (fun _ _ => hrest) separator
    around depth

theorem reads_bool (b : Bool) : Reads (.bool b) := by
  intro depth separator around rest hrest
  rw [write]
  cases b with
  | false =>
    have hword : isName "false" = true := by decide
    exact run?_scalarLine (by decide) rfl rfl rfl (by decide) (next?_name hword rfl) rfl (fun _ _ => hrest) separator
      around depth
  | true =>
    have hword : isName "true" = true := by decide
    exact run?_scalarLine (by decide) rfl rfl rfl (by decide) (next?_name hword rfl) rfl (fun _ _ => hrest) separator
      around depth

theorem reads_string (s : String) : Reads (.string s) := by
  intro depth separator around rest hrest
  rw [write]
  apply run?_stringLine (by decide) rfl _ hrest
  rw [Message.setScalar?, Token.string?, Utf8.decode?_encode]
  rfl

/-- what starts a number starts nothing else -/
theorem not_other_of_mem : ∀ b ∈ "-0123456789".toList.map octet, isSpace b = false ∧ b ≠ octet '#' ∧
    (b == octet '"' || b == octet '\x27') = false ∧ punctuation? b = none ∧ isWordStart b = false :=
  List.forall_iff_forall_mem.1 (by decide)

theorem reads_number {x : Binary64} (hx : x.isFinite = true) : Reads (.number x) := by
  intro depth separator around rest hrest
  obtain ⟨hnan, hinfinite⟩ := Binary64.not_special_of_isFinite hx
  obtain ⟨cs, hcs, hwrite⟩ : ∃ cs, (cs = x.shortest.positional ∨ ∃ width, cs = x.shortest.scientific width) ∧
      numberText x = String.ofList cs := by
    rw [numberText, hnan, if_neg Bool.false_ne_true, hinfinite, if_neg Bool.false_ne_true, Decimal.general]
    split
    · exact ⟨_, .inr ⟨2, rfl⟩, rfl⟩
    · exact ⟨_, .inl rfl, rfl⟩
  obtain ⟨negative, spelling, hs, hvalue, hoctets⟩ := Binary64.exists_spelling hx hcs
  obtain ⟨b, bs, hhead, hb⟩ := Spelling.exists_signed_head negative hs (Utf8.encode "\n" ++ rest)
  have htext : Utf8.encode (numberText x) ++ (Utf8.encode "\n" ++ rest) = b :: bs := by
    rw [hwrite, Utf8.encode_ofList, hoctets, List.append_assoc, hhead]
  obtain ⟨hspace, hcomment, hquote, hpunctuation, -⟩ := not_other_of_mem b hb
  have hminus : minus (b :: bs) = (negative, spelling.text.map octet ++ (Utf8.encode "\n" ++ rest)) := by
    rw [← hhead, Spelling.minus_text negative hs]
  obtain ⟨integral, hnumeral⟩ := numeral?_text hs (show ends (Utf8.encode "\n" ++ rest) = true from rfl)
  have hunsigned : unsigned? negative (spelling.text.map octet ++ (Utf8.encode "\n" ++ rest)) =
      some (.number negative (.decimal (Nat.ofDigitChars 10 (spelling.whole ++ spelling.fraction) 0)
        (spelling.power - spelling.fraction.length) integral false), Utf8.encode "\n" ++ rest) := by
    obtain ⟨c, cs, hdigits, hc⟩ := Spelling.exists_signed_head false hs (Utf8.encode "\n" ++ rest)
    have hdigits : spelling.text.map octet ++ (Utf8.encode "\n" ++ rest) = c :: cs := hdigits
    have hword : isWordStart c = false := (not_other_of_mem c hc).2.2.2.2
    rw [hdigits] at hnumeral ⊢
    rw [unsigned?, hnumeral]
    simp [hword]
  have hnext : Token.next? (b :: bs) =
      some (.number negative (.decimal (Nat.ofDigitChars 10 (spelling.whole ++ spelling.fraction) 0)
        (spelling.power - spelling.fraction.length) integral false), Utf8.encode "\n" ++ rest) := by
    rw [Token.next?, hquote, if_neg Bool.false_ne_true, hpunctuation]
    simp only [plain?, hminus, hunsigned]
    rfl
  rw [write]
  refine run?_scalarLine (by decide) rfl htext hspace hcomment hnext ?_ ?_ separator around depth
  · exact congrArg (fun y => some (Message.value (some (Value.number y)))) hvalue
  · exact fun _ _ => hrest

/-! ## Structs and lists -/

/-- the lines of an entry set its key and its value -/
theorem run?_entry {v : Value} (hv : Reads v) (key : String) (around : List Enclosing) (depth : ℕ) (rest : List UInt8) :
    run? ⟨.field false, .entry none none, around⟩
        (Utf8.encode (scalarLine depth "key" (quote key) ++ messageLines depth "value" (write (depth + 1) v)) ++ rest) =
      run? ⟨.field true, .entry (some key) (some v), around⟩ rest := by
  have hvalue : isName "value" = true := by decide
  have hset :
      Message.setScalar? (.entry none none) .key (.string (Utf8.encode key)) = some (.entry (some key) none) := by
    rw [Message.setScalar?, Token.string?, Utf8.decode?_encode]
    rfl
  rw [Utf8.encode_append, List.append_assoc]
  rw [run?_stringLine (by decide) rfl hset (noString_messageLines hvalue _ _ _)]
  have hattach : Message.attach? (.entry (some key) none) (.value (some v)) = some (.entry (some key) (some v)) := rfl
  apply run?_messageLines hvalue rfl rfl hattach true true
  intro rest hrest
  exact hv (depth + 1) false _ rest hrest

/-- the members of an object become entries of a struct, each at its end -/
theorem run?_entries {ms : Members} (hms : ∀ m ∈ ms, Reads m.2) (before : Members) (hsorted : (before ++ ms).Sorted)
    (separator : Bool) (around : List Enclosing) (depth : ℕ) (rest : List UInt8) :
    run? ⟨.field separator, .struct before, around⟩ (Utf8.encode (writeEntries depth ms) ++ rest) =
      run? ⟨.field (separator || !ms.isEmpty), .struct (before ++ ms), around⟩ rest := by
  induction ms generalizing before separator with
  | nil =>
    rw [writeEntries, List.append_nil, List.isEmpty_nil, Bool.not_true, Bool.or_false]
    rfl
  | cons m ms ih =>
    obtain ⟨key, v⟩ := m
    obtain ⟨hv, hms⟩ := List.forall_mem_cons.1 hms
    have hlt : ∀ m ∈ before, m.1 < key := by
      intro m hm
      exact (List.pairwise_append.1 hsorted).2.2 m hm _ List.mem_cons_self
    have hattach : Message.attach? (.struct before) (.entry (some key) (some v)) =
        some (.struct (before ++ [(key, v)])) := by
      rw [Message.attach?, Option.getD_some, Option.getD_some, Members.insert_of_forall_lt hlt]
    have hname : isName "fields" = true := by decide
    have hlines := run?_messageLines hname rfl rfl hattach separator true around depth
      (Utf8.encode (writeEntries depth ms) ++ rest) fun rest _ => run?_entry hv key _ (depth + 1) rest
    rw [writeEntries, Utf8.encode_append, List.append_assoc]
    refine hlines.trans ?_
    rw [ih hms _ (by rwa [List.append_assoc]), List.append_assoc]
    simp

/-- the items of a list are collected, last first -/
theorem run?_items {vs : List Value} (hvs : ∀ v ∈ vs, Reads v) (items : List Value) (separator : Bool)
    (around : List Enclosing) (depth : ℕ) (rest : List UInt8) :
    run? ⟨.field separator, .list items, around⟩ (Utf8.encode (writeItems depth vs) ++ rest) =
      run? ⟨.field (separator || !vs.isEmpty), .list (vs.reverse ++ items), around⟩ rest := by
  induction vs generalizing items separator with
  | nil =>
    rw [writeItems, List.isEmpty_nil, Bool.not_true, Bool.or_false]
    rfl
  | cons v vs ih =>
    obtain ⟨hv, hvs⟩ := List.forall_mem_cons.1 hvs
    have hname : isName "values" = true := by decide
    have hattach : Message.attach? (.list items) (.value (some v)) = some (.list (v :: items)) := rfl
    have hlines := run?_messageLines hname rfl rfl hattach separator true around depth
      (Utf8.encode (writeItems depth vs) ++ rest) fun rest hrest => hv (depth + 1) false _ rest hrest
    rw [writeItems, Utf8.encode_append, List.append_assoc]
    refine hlines.trans ?_
    rw [ih hvs]
    simp

theorem reads_object {ms : Members} (hsorted : ms.Sorted) (hms : ∀ m ∈ ms, Reads m.2) : Reads (.object ms) := by
  intro depth separator around rest hrest
  have hattach : Message.attach? (.value none) (.struct ms) = some (.value (some (.object ms))) := rfl
  rw [write]
  apply run?_messageLines (by decide) rfl rfl hattach separator
  intro rest _
  exact run?_entries hms [] hsorted false _ (depth + 1) rest

theorem reads_list {vs : List Value} (hvs : ∀ v ∈ vs, Reads v) : Reads (.list vs) := by
  intro depth separator around rest hrest
  have hattach : Message.attach? (.value none) (.list (vs.reverse ++ [])) = some (.value (some (.list vs))) := by
    rw [Message.attach?, List.append_nil, List.reverse_reverse]
  rw [write]
  apply run?_messageLines (by decide) rfl rfl hattach separator
  intro rest _
  exact run?_items hvs [] false _ (depth + 1) rest

/-! ## Values -/

theorem reads_of_isPlain {v : Value} (hv : v.IsPlain) : Reads v := by
  induction hv with
  | null => exact reads_null
  | number hx => exact reads_number hx
  | string => exact reads_string _
  | bool => exact reads_bool _
  | object hsorted _ ih => exact reads_object hsorted ih
  | list _ ih => exact reads_list ih

/-- **The text format.** The text of a plain value is read as the value. -/
theorem read?_write {v : Value} (hv : v.IsPlain) (depth : ℕ) : read? (Utf8.encode (write depth v)) = some v := by
  have hrun := reads_of_isPlain hv depth false [] [] fun _ hb => nomatch hb
  rw [List.append_nil] at hrun
  have hend : run? ⟨.field true, .value (some v), []⟩ [] = some v := by
    rw [run?, scan?_eq]
    rfl
  exact hrun.trans hend

end LetStack.TextFormat

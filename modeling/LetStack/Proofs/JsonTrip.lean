/-
JSON: what is written is read back.

`run` is the reader from any state on. It skips spaces (`run_spaces`) and takes one token at a time (`run_token`). A
written value takes the reader from a state that waits for a value to the state in which the value has been placed, and
leaves what follows (`Reads`); what follows must not join a word or a number. That is shown for a value from the same
of its parts, and so for every plain value by induction. Items are collected last first, and the members of an object
come in order, so that each of them goes to the end.

Results:
- `stringBody_flatMap_escapeChar`: the characters of a string are read back;
- `reads_of_isPlain`: a plain value is read wherever a value may stand;
- `read_write`: the text of a plain value is read as the value.
-/
import LetStack.Proofs.Numerals
import LetStack.Proofs.Plain
import LetStack.Value.Json.Reader
import LetStack.Value.Json.Writer

namespace LetStack.Json

open Octet

/-! ## Strings -/

/-- a character is written after a backslash by a letter, after it by number, or as it is -/
theorem escapeChar_cases (c : Char) :
    (∃ x, escapeChar c = ['\\', x] ∧ x.toNat < 128 ∧ ∀ rest, escape (octet x :: rest) = .ok (c, rest)) ∨
      (escapeChar c = '\\' :: 'u' :: Text.hex c.toNat 4 ∧ c.toNat < 0x20) ∨
      (escapeChar c = [c] ∧ c ≠ '"' ∧ c ≠ '\\' ∧ 0x20 ≤ c.toNat) := by
  fun_cases escapeChar c with
  | case1 hc => exact .inl ⟨'"', rfl, by decide, fun _ => by rw [hc]; rfl⟩
  | case2 _ hc => exact .inl ⟨'\\', rfl, by decide, fun _ => by rw [hc]; rfl⟩
  | case3 _ _ hc => exact .inl ⟨'b', rfl, by decide, fun _ => by rw [hc]; rfl⟩
  | case4 _ _ _ hc => exact .inl ⟨'f', rfl, by decide, fun _ => by rw [hc]; rfl⟩
  | case5 _ _ _ _ hc => exact .inl ⟨'n', rfl, by decide, fun _ => by rw [hc]; rfl⟩
  | case6 _ _ _ _ _ hc => exact .inl ⟨'r', rfl, by decide, fun _ => by rw [hc]; rfl⟩
  | case7 _ _ _ _ _ _ hc => exact .inl ⟨'t', rfl, by decide, fun _ => by rw [hc]; rfl⟩
  | case8 _ _ _ _ _ _ _ hlow => exact .inr (.inl ⟨rfl, hlow⟩)
  | case9 hquote hslash _ _ _ _ _ hlow => exact .inr (.inr ⟨rfl, hquote, hslash, Nat.le_of_not_lt hlow⟩)

/-- an escape by number is read as the character -/
theorem unicodeEscape_hex {c : Char} (hc : c.toNat < 0x20) (rest : List UInt8) :
    unicodeEscape ((Text.hex c.toNat 4).map octet ++ rest) = .ok (c, rest) := by
  have hnumber := hexNumber?_hex c.toNat 4
  rw [Nat.mod_eq_of_lt (by omega)] at hnumber
  obtain ⟨h1, h2, h3, h4, hdigits⟩ : ∃ h1 h2 h3 h4, (Text.hex c.toNat 4).map octet = [h1, h2, h3, h4] :=
    ⟨_, _, _, _, rfl⟩
  rw [hdigits] at hnumber ⊢
  simp only [List.cons_append, List.nil_append, unicodeEscape, hnumber]
  rw [if_neg (by omega), Char.ofNat_toNat]

/-- a character that is not escaped is read as itself -/
theorem stringChar_encodeChar {c : Char} (hslash : c ≠ '\\') (hlow : 0x20 ≤ c.toNat) (rest : List UInt8) :
    stringChar (String.utf8EncodeChar c ++ rest) = .ok (c, rest) := by
  have hnext := Utf8.next?_encodeChar c rest
  obtain ⟨b, bs, hoctets, hb⟩ := Utf8.exists_encodeChar c
  have hslash := ne_octet_of_encodeChar hoctets (by decide) hslash
  have hline : b ≠ octet '\n' :=
    ne_octet_of_encodeChar hoctets (by decide) (by rintro rfl; exact absurd hlow (by decide))
  rw [hoctets, List.cons_append] at hnext ⊢
  rw [stringChar, if_neg (by rwa [beq_iff_eq]), if_neg (by rwa [beq_iff_eq]), if_neg (by omega), hnext]

/-- one character is read back, and it does not look like the closing quote -/
theorem stringChar_escapeChar (c : Char) (rest : List UInt8) :
    stringChar ((escapeChar c).flatMap String.utf8EncodeChar ++ rest) = .ok (c, rest) ∧
      ((escapeChar c).flatMap String.utf8EncodeChar ++ rest).head? ≠ some (octet '"') := by
  rcases escapeChar_cases c with ⟨x, hwritten, hascii, hescape⟩ | ⟨hwritten, hlow⟩ | ⟨hwritten, hquote, hslash, hlow⟩
  · rw [hwritten, List.flatMap_cons, List.flatMap_singleton, encodeChar_ascii (by decide), encodeChar_ascii hascii]
    exact ⟨hescape rest, fun h => absurd (Option.some.inj h) (by decide)⟩
  · have hoctets : ∀ x ∈ '\\' :: 'u' :: Text.hex c.toNat 4, x.toNat < 128 :=
      List.forall_mem_cons.2 ⟨by decide, List.forall_mem_cons.2 ⟨by decide, ascii_hex _ _⟩⟩
    rw [hwritten, flatMap_encodeChar_ascii hoctets]
    exact ⟨unicodeEscape_hex hlow rest, by simp [octet]⟩
  · rw [hwritten, List.flatMap_singleton]
    exact ⟨stringChar_encodeChar hslash hlow rest, head?_encodeChar_ne (by decide) hquote rest⟩

theorem stringBody_of_char {read : List Char} {bs rest : List UInt8} {c : Char} (hquote : bs.head? ≠ some (octet '"'))
    (hchar : stringChar bs = .ok (c, rest)) : stringBody read bs = stringBody (c :: read) rest := by
  rw [stringBody, if_neg hquote]
  split
  · next hfault => cases hchar.symm.trans hfault
  · next c' rest' hread =>
    cases hchar.symm.trans hread
    rfl

theorem stringBody_flatMap_escapeChar (cs : List Char) (read : List Char) (rest : List UInt8) :
    stringBody read ((cs.flatMap escapeChar).flatMap String.utf8EncodeChar ++ octet '"' :: rest) =
      .ok (read.reverse ++ cs, rest) := by
  induction cs generalizing read with
  | nil =>
    rw [stringBody, List.append_nil]
    rfl
  | cons c cs ih =>
    rw [List.flatMap_cons, List.flatMap_append, List.append_assoc]
    obtain ⟨hchar, hquote⟩ := stringChar_escapeChar c
      ((cs.flatMap escapeChar).flatMap String.utf8EncodeChar ++ octet '"' :: rest)
    rw [stringBody_of_char hquote hchar, ih, List.reverse_cons, List.append_assoc]
    rfl

/-- the token of a text between quotes -/
theorem exists_next_quote (s : String) (rest : List UInt8) :
    ∃ spelling, Token.next (Utf8.encode (quote s) ++ rest) = .ok (.string spelling s, rest) := by
  rw [quote, encode_quoted, Token.next, if_pos (beq_self_eq_true _), stringBody_flatMap_escapeChar]
  simp only [List.reverse_nil, List.nil_append, String.ofList_toList]
  exact ⟨_, rfl⟩

/-! ## The reader from a state on -/

theorem scan_eq (bs : List UInt8) : Token.scan bs =
    if (bs.dropWhile isSpace).isEmpty then ([], none)
    else
      match Token.next (bs.dropWhile isSpace) with
      | .error f => ([], some f)
      | .ok (t, rest) => (t :: (Token.scan rest).1, (Token.scan rest).2) := by
  rw [Token.scan]
  split
  · rfl
  · split <;> simp_all

theorem scan_spaces {spaces : List UInt8} (h : ∀ b ∈ spaces, isSpace b = true) (rest : List UInt8) :
    Token.scan (spaces ++ rest) = Token.scan rest := by
  rw [scan_eq, List.dropWhile_append_of_pos h, ← scan_eq]

theorem scan_token {text rest : List UInt8} {t : Token} (hnext : Token.next text = .ok (t, rest))
    (hspace : ∀ b ∈ text.head?, isSpace b = false) :
    Token.scan text = (t :: (Token.scan rest).1, (Token.scan rest).2) := by
  have htext : text.isEmpty = false ∧ text.dropWhile isSpace = text := by
    cases text with
    | nil => exact nomatch hnext
    | cons b bs => exact ⟨rfl, List.dropWhile_cons_of_neg (by rw [hspace b rfl]; exact Bool.false_ne_true)⟩
  rw [scan_eq, htext.2, htext.1, hnext]
  rfl

/-- the reader, from a state on -/
def run (s : State) (text : List UInt8) : Except Fault Value :=
  let (tokens, fault) := Token.scan text
  match tokens.foldlM State.step s with
  | .error f => .error f
  | .ok s => s.finish fault

theorem run_spaces {spaces : List UInt8} (h : ∀ b ∈ spaces, isSpace b = true) (s : State) (rest : List UInt8) :
    run s (spaces ++ rest) = run s rest := by
  rw [run, scan_spaces h]
  rfl

theorem run_indent (depth : ℕ) (s : State) (rest : List UInt8) :
    run s (Utf8.encode (indent depth) ++ rest) = run s rest :=
  run_spaces (isSpace_indent depth) s rest

theorem run_line (s : State) (rest : List UInt8) : run s (Utf8.encode "\n" ++ rest) = run s rest :=
  run_spaces (List.all_eq_true.1 rfl) s rest

/-- a token that may come next takes the reader on -/
theorem run_token {s s' : State} {text rest : List UInt8} {t : Token} (hnext : Token.next text = .ok (t, rest))
    (hspace : ∀ b ∈ text.head?, isSpace b = false) (hs : s.next? t = some s') : run s text = run s' rest := by
  have hstep : s.step t = .ok s' := by rw [State.step, hs]
  have hfold : (t :: (Token.scan rest).1).foldlM State.step s = (Token.scan rest).1.foldlM State.step s' := by
    rw [List.foldlM_cons, hstep]
    rfl
  rw [run, scan_token hnext hspace]
  simp only [hfold]
  rfl

theorem run_punctuation {s s' : State} {b : UInt8} {t : Token} (hb : punctuation? b = some t)
    (hs : s.next? t = some s') (rest : List UInt8) : run s (b :: rest) = run s' rest := by
  have hquote : b ≠ octet '"' := by
    rintro rfl
    exact nomatch hb
  have hspace : isSpace b = false := by
    by_contra h
    simp only [isSpace, Bool.not_eq_false, Bool.or_eq_true, beq_iff_eq] at h
    rcases h with ((rfl | rfl) | rfl) | rfl <;> exact nomatch hb
  refine run_token (t := t) ?_ (fun c hc => Option.some.inj hc ▸ hspace) hs
  rw [Token.next, if_neg (by rwa [beq_iff_eq]), hb]

/-! ## Places for a value -/

/-- a token that may start a value does, wherever a value may stand -/
theorem next?_of_begin {e : Expects} {stack : List Open} {t : Token} {s : State}
    (he : e = .value ∨ e = .valueOrClose) (ht : State.begin stack t = some s) : State.next? ⟨e, stack⟩ t = some s := by
  rcases he with rfl | rfl
  · exact ht
  · have hclose : State.close stack t = none := by
      unfold State.close
      split
      · exact nomatch ht
      · exact nomatch ht
      · rfl
    change (State.close stack t <|> State.begin stack t) = some s
    rw [hclose, ht]
    rfl

/-- the text of the value is read as the value wherever a value may stand -/
def Reads (v : Value) : Prop :=
  ∀ (depth : ℕ) (e : Expects) (stack : List Open) (s : State) (rest : List UInt8), e = .value ∨ e = .valueOrClose →
    State.place v stack = some s → ends rest = true → run ⟨e, stack⟩ (Utf8.encode (write depth v) ++ rest) = run s rest

/-! ## Scalars -/

/-- a value that is one token is read where its token starts a value -/
theorem reads_of_token {v : Value} (h : ∀ (depth : ℕ) (rest : List UInt8), ends rest = true →
    ∃ b bs t, Utf8.encode (write depth v) ++ rest = b :: bs ∧ isSpace b = false ∧ Token.next (b :: bs) = .ok (t, rest) ∧
      ∀ stack, State.begin stack t = State.place v stack) : Reads v := by
  intro depth e stack s rest he hplace hrest
  obtain ⟨b, bs, t, htext, hspace, hnext, hbegin⟩ := h depth rest hrest
  rw [htext]
  apply run_token hnext
  · intro c hc
    rwa [← Option.some.inj hc]
  · exact next?_of_begin he ((hbegin stack).trans hplace)

theorem next_of_plain {b : UInt8} {bs rest : List UInt8} {t : Token} (hquote : (b == octet '"') = false)
    (hb : punctuation? b = none) (h : plain? (b :: bs) = some (t, rest)) : Token.next (b :: bs) = .ok (t, rest) := by
  rw [Token.next, hquote, if_neg Bool.false_ne_true, hb, h]

theorem word?_append {word : List UInt8} {rest : List UInt8} (hrest : ends rest = true) :
    word? word (word ++ rest) = some rest := by
  simp [word?, hrest]

theorem word?_cons_of_ne {a b : UInt8} (h : a ≠ b) (word rest : List UInt8) : word? (a :: word) (b :: rest) = none := by
  simp [word?, h]

theorem plain?_number {b : UInt8} {bs rest : List UInt8} {d : Decimal} (hn : octet 'n' ≠ b) (ht : octet 't' ≠ b)
    (hf : octet 'f' ≠ b) (hd : decimal? (b :: bs) = some (d, rest)) (hfinite : d.toBinary64.isFinite = true) :
    plain? (b :: bs) = some (.number d.toBinary64, rest) := by
  have hnull : word? (Utf8.encode "null") (b :: bs) = none := word?_cons_of_ne hn _ _
  have htrue : word? (Utf8.encode "true") (b :: bs) = none := word?_cons_of_ne ht _ _
  have hfalse : word? (Utf8.encode "false") (b :: bs) = none := word?_cons_of_ne hf _ _
  rw [plain?, hnull, htrue, hfalse, hd]
  simp [hfinite]

theorem reads_null : Reads .null := by
  apply reads_of_token
  intro depth rest hrest
  rw [write]
  have hword : word? (Utf8.encode "null") (Utf8.encode "null" ++ rest) = some rest := word?_append hrest
  have hplain : plain? (Utf8.encode "null" ++ rest) = some (.null, rest) := by
    rw [plain?, hword]
    rfl
  exact ⟨octet 'n', _, .null, rfl, rfl, next_of_plain rfl rfl hplain, fun _ => rfl⟩

theorem reads_bool (b : Bool) : Reads (.bool b) := by
  apply reads_of_token
  intro depth rest hrest
  rw [write]
  cases b with
  | false =>
    have hnull : word? (Utf8.encode "null") (Utf8.encode "false" ++ rest) = none := word?_cons_of_ne (by decide) _ _
    have htrue : word? (Utf8.encode "true") (Utf8.encode "false" ++ rest) = none := word?_cons_of_ne (by decide) _ _
    have hword : word? (Utf8.encode "false") (Utf8.encode "false" ++ rest) = some rest := word?_append hrest
    have hplain : plain? (Utf8.encode "false" ++ rest) = some (.bool false, rest) := by
      rw [plain?, hnull, htrue, hword]
      rfl
    exact ⟨octet 'f', _, .bool false, rfl, rfl, next_of_plain rfl rfl hplain, fun _ => rfl⟩
  | true =>
    have hnull : word? (Utf8.encode "null") (Utf8.encode "true" ++ rest) = none := word?_cons_of_ne (by decide) _ _
    have hword : word? (Utf8.encode "true") (Utf8.encode "true" ++ rest) = some rest := word?_append hrest
    have hplain : plain? (Utf8.encode "true" ++ rest) = some (.bool true, rest) := by
      rw [plain?, hnull, hword]
      rfl
    exact ⟨octet 't', _, .bool true, rfl, rfl, next_of_plain rfl rfl hplain, fun _ => rfl⟩

theorem reads_string (s : String) : Reads (.string s) := by
  apply reads_of_token
  intro depth rest hrest
  obtain ⟨spelling, hnext⟩ := exists_next_quote s rest
  rw [quote, encode_quoted] at hnext
  refine ⟨octet '"', _, .string spelling s, ?_, rfl, hnext, fun _ => rfl⟩
  rw [write, quote, encode_quoted]

/-- what starts a number starts nothing else -/
theorem not_other_of_mem : ∀ b ∈ "-0123456789".toList.map octet, isSpace b = false ∧ (b == octet '"') = false ∧
    punctuation? b = none ∧ octet 'n' ≠ b ∧ octet 't' ≠ b ∧ octet 'f' ≠ b :=
  List.forall_iff_forall_mem.1 (by decide)

theorem reads_number {x : Binary64} (hx : x.isFinite = true) : Reads (.number x) := by
  apply reads_of_token
  intro depth rest hrest
  obtain ⟨hnan, hinfinite⟩ := Binary64.not_special_of_isFinite hx
  obtain ⟨cs, hcs, htext⟩ : ∃ cs, (cs = x.shortest.positional ∨ ∃ width, cs = x.shortest.scientific width) ∧
      write depth (.number x) = String.ofList cs := by
    rw [write, numberText, hnan, if_neg Bool.false_ne_true, hinfinite, if_neg Bool.false_ne_true, decimalText]
    split
    · exact ⟨_, .inr ⟨1, rfl⟩, rfl⟩
    · exact ⟨_, .inl rfl, rfl⟩
  obtain ⟨negative, spelling, hs, hvalue, hoctets⟩ := Binary64.exists_spelling hx hcs
  obtain ⟨b, bs, hhead, hb⟩ := Spelling.exists_signed_head negative hs rest
  have hdecimal := decimal?_text negative hs hrest
  rw [hhead] at hdecimal
  obtain ⟨hspace, hquote, hpunctuation, hn, ht, hf⟩ := not_other_of_mem b hb
  have hplain := plain?_number hn ht hf hdecimal (by rwa [hvalue])
  rw [hvalue] at hplain
  refine ⟨b, bs, .number x, ?_, hspace, next_of_plain hquote hpunctuation hplain, fun _ => rfl⟩
  rw [htext, Utf8.encode_ofList, hoctets, List.append_assoc, hhead]

/-! ## Lists and objects -/

/-- a comma and the end of the line -/
theorem run_comma {s s' : State} (hs : s.next? .comma = some s') (rest : List UInt8) :
    run s (Utf8.encode ",\n" ++ rest) = run s' rest :=
  (run_punctuation rfl hs (Utf8.encode "\n" ++ rest)).trans (run_line s' rest)

/-- the items of a list are collected, last first -/
theorem run_items {vs : List Value} (hvs : ∀ v ∈ vs, Reads v) (hne : vs ≠ []) {e : Expects}
    (he : e = .value ∨ e = .valueOrClose) (depth : ℕ) (items : List Value) (stack : List Open) (rest : List UInt8) :
    run ⟨e, .list items :: stack⟩ (Utf8.encode (writeItems depth vs) ++ rest) =
      run ⟨.commaOrClose, .list (vs.reverse ++ items) :: stack⟩ rest := by
  induction vs generalizing e items with
  | nil => exact absurd rfl hne
  | cons v vs ih =>
    obtain ⟨hv, hvs⟩ := List.forall_mem_cons.1 hvs
    rw [writeItems, Utf8.encode_append, Utf8.encode_append, Utf8.encode_append]
    simp only [List.append_assoc]
    rw [run_indent]
    cases vs with
    | nil =>
      rw [hv depth e (.list items :: stack) _ _ he rfl rfl]
      exact run_line _ rest
    | cons v' vs =>
      rw [List.isEmpty_cons, if_neg Bool.false_ne_true]
      rw [hv depth e (.list items :: stack) _ _ he rfl rfl]
      refine (run_comma rfl _).trans ?_
      rw [ih hvs (List.cons_ne_nil _ _) (.inl rfl), List.reverse_cons (a := v), List.append_assoc]
      rfl

/-- a key and its colon -/
theorem run_key {e : Expects} (he : e = .key ∨ e = .keyOrClose) {ms : Members} {key : String}
    (hkey : ms.contains key = false) (stack : List Open) (rest : List UInt8) :
    run ⟨e, .object ms :: stack⟩ (Utf8.encode (quote key) ++ (Utf8.encode ": " ++ rest)) =
      run ⟨.value, .member ms key :: stack⟩ rest := by
  obtain ⟨spelling, hnext⟩ := exists_next_quote key (Utf8.encode ": " ++ rest)
  have hkeyed : State.next? ⟨e, .object ms :: stack⟩ (.string spelling key) =
      some ⟨.colon spelling, .member ms key :: stack⟩ := by
    rcases he with rfl | rfl <;> rfl
  have hcolon : State.next? ⟨.colon spelling, .member ms key :: stack⟩ .colon =
      some ⟨.value, .member ms key :: stack⟩ := by
    simp only [State.next?, hkey, Bool.false_eq_true, if_false]
  have hspace : ∀ b ∈ (Utf8.encode (quote key) ++ (Utf8.encode ": " ++ rest)).head?, isSpace b = false := by
    rw [quote, encode_quoted]
    intro b hb
    rw [← Option.some.inj hb]
    rfl
  rw [run_token hnext hspace hkeyed]
  refine (run_punctuation rfl hcolon (Utf8.encode " " ++ rest)).trans ?_
  exact run_spaces (List.all_eq_true.1 rfl) _ rest

/-- the members of an object go to its end one by one -/
theorem run_members {ms : Members} (hms : ∀ m ∈ ms, Reads m.2) (hne : ms ≠ []) {e : Expects}
    (he : e = .key ∨ e = .keyOrClose) (depth : ℕ) (before : Members) (hsorted : (before ++ ms).Sorted)
    (stack : List Open) (rest : List UInt8) :
    run ⟨e, .object before :: stack⟩ (Utf8.encode (writeMembers depth ms) ++ rest) =
      run ⟨.commaOrClose, .object (before ++ ms) :: stack⟩ rest := by
  induction ms generalizing e before with
  | nil => exact absurd rfl hne
  | cons m ms ih =>
    obtain ⟨key, v⟩ := m
    obtain ⟨hv, hms⟩ := List.forall_mem_cons.1 hms
    have hlt : ∀ m ∈ before, m.1 < key := by
      intro m hm
      exact (List.pairwise_append.1 hsorted).2.2 m hm _ List.mem_cons_self
    have hplace : State.place v (.member before key :: stack) =
        some ⟨.commaOrClose, .object (before ++ [(key, v)]) :: stack⟩ := by
      rw [State.place, Members.insert_of_forall_lt hlt]
    rw [writeMembers, Utf8.encode_append, Utf8.encode_append, Utf8.encode_append, Utf8.encode_append,
      Utf8.encode_append]
    simp only [List.append_assoc]
    rw [run_indent, run_key he (Members.contains_of_forall_lt hlt)]
    cases ms with
    | nil =>
      rw [hv depth .value _ _ _ (.inl rfl) hplace rfl]
      exact run_line _ rest
    | cons m ms =>
      rw [List.isEmpty_cons, if_neg Bool.false_ne_true]
      rw [hv depth .value _ _ _ (.inl rfl) hplace rfl]
      refine (run_comma rfl _).trans ?_
      rw [ih hms (List.cons_ne_nil _ _) (.inl rfl) (before ++ [(key, v)]) (by rwa [List.append_assoc]),
        List.append_assoc]
      rfl

theorem reads_list {vs : List Value} (hvs : ∀ v ∈ vs, Reads v) : Reads (.list vs) := by
  intro depth e stack s rest he hplace hrest
  have hopen : State.next? ⟨e, stack⟩ .openList = some ⟨.valueOrClose, .list [] :: stack⟩ := next?_of_begin he rfl
  cases vs with
  | nil =>
    rw [write]
    refine (run_punctuation rfl hopen (Utf8.encode "]" ++ rest)).trans ?_
    apply run_punctuation (t := .closeList) rfl
    change (State.place (.list []) stack <|> _) = some s
    rw [hplace]
    rfl
  | cons v vs =>
    rw [write, Utf8.encode_append, Utf8.encode_append, Utf8.encode_append]
    simp only [List.append_assoc]
    refine (run_punctuation rfl hopen (Utf8.encode "\n" ++ _)).trans ?_
    rw [run_line, run_items hvs (List.cons_ne_nil _ _) (.inr rfl), run_indent, List.append_nil]
    apply run_punctuation (t := .closeList) rfl
    change State.place (.list (v :: vs).reverse.reverse) stack = some s
    rw [List.reverse_reverse, hplace]

theorem reads_object {ms : Members} (hsorted : ms.Sorted) (hms : ∀ m ∈ ms, Reads m.2) : Reads (.object ms) := by
  intro depth e stack s rest he hplace hrest
  have hopen : State.next? ⟨e, stack⟩ .openObject = some ⟨.keyOrClose, .object [] :: stack⟩ := next?_of_begin he rfl
  cases ms with
  | nil =>
    rw [write]
    refine (run_punctuation rfl hopen (Utf8.encode "\x7d" ++ rest)).trans ?_
    apply run_punctuation (t := .closeObject) rfl
    change (State.place (.object []) stack <|> _) = some s
    rw [hplace]
    rfl
  | cons m ms =>
    rw [write, Utf8.encode_append, Utf8.encode_append, Utf8.encode_append]
    simp only [List.append_assoc]
    refine (run_punctuation rfl hopen (Utf8.encode "\n" ++ _)).trans ?_
    rw [run_line, run_members hms (List.cons_ne_nil _ _) (.inr rfl) (depth + 1) [] hsorted, run_indent]
    apply run_punctuation (t := .closeObject) rfl
    exact hplace

/-! ## Values -/

theorem reads_of_isPlain {v : Value} (hv : v.IsPlain) : Reads v := by
  induction hv with
  | null => exact reads_null
  | number hx => exact reads_number hx
  | string => exact reads_string _
  | bool => exact reads_bool _
  | object hsorted _ ih => exact reads_object hsorted ih
  | list _ ih => exact reads_list ih

/-- **JSON.** The text of a plain value is read as the value. -/
theorem read_write {v : Value} (hv : v.IsPlain) (depth : ℕ) : read (Utf8.encode (write depth v)) = .ok v := by
  have hrun := reads_of_isPlain hv depth .value [] ⟨.nothing v, []⟩ [] (.inl rfl) rfl rfl
  rw [List.append_nil] at hrun
  have hend : run ⟨.nothing v, []⟩ [] = .ok v := by
    rw [run, scan_eq]
    rfl
  exact hrun.trans hend

end LetStack.Json

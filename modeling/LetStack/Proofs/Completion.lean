/-
Which texts that the loop waits for can still be completed.

The state of the JSON reader after some tokens says what is open, and so how the text may be completed:
`State.completion` gives a text for each state, which writes a null where a value is due, a new key where a key is, and
closes what is open. It fails in one state only. A repeated key is refused together with its colon, so after such a key
the reader goes on though no text can follow. No token goes on after the end of its line; so some lines can be completed
exactly if they consist of tokens, the reader takes them all, and the last one is no repeated key.

The loop waits for more than that: it also waits if a complaint quotes a string that has one of the telling phrases in
it, if the end of the text cuts a string off in an escape by number, after a repeated key, and, on purpose, if a line
ends inside a string.

Results:
- `Scans.scan_append`, `State.Fits.foldlM`, `State.run_completion`: the tokens of the first lines, the states that they
  lead to, and the completion of such a state;
- `exists_read_append_iff`: which texts can be completed;
- `loop_waits_for_what_can_be_completed_but_for_four_cases`, and `loop_may_wait_in_vain`, an example for each case.
-/
import LetStack.Proofs.SplitTree

namespace LetStack.Json

open Octet

/-! ## The tokens of the first lines -/

/-- the tokens of some lines are the first ones, whatever follows -/
theorem Scans.scan_append {a : List UInt8} {ts : List Token} (h : Scans (a ++ [octet '\n']) ts) (b : List UInt8) :
    Token.scan (a ++ octet '\n' :: b) = (ts ++ (Token.scan b).1, (Token.scan b).2) := by
  generalize hbs : a ++ [octet '\n'] = bs at h
  induction h generalizing a with
  | spaces h =>
    rw [← hbs] at h
    rw [← List.singleton_append, ← List.append_assoc, scan_spaces h]
    rfl
  | @token spaces rest after x t ts hspaces hx hnext hafter ih =>
    rcases List.append_eq_append_iff.1 hbs with ⟨m, hm, hline⟩ | ⟨m, ham, hm⟩
    · -- the end of the line would be the token
      exfalso
      cases m with
      | nil =>
        obtain rfl := (List.cons.inj hline).1
        cases hx
      | cons y m =>
        have hlength := congrArg List.length hline
        simp at hlength
    · cases m with
      | nil =>
        obtain rfl := (List.cons.inj hm).1
        cases hx
      | cons y m =>
        obtain ⟨rfl, rfl⟩ := List.cons.inj hm
        obtain ⟨used, heq, hused, hused'⟩ := isLocal_next _ t after hnext
        obtain ⟨mid, hmid, rfl⟩ := exists_append_of_line (a := x :: m) (c := [octet '\n']) hused.newline_not_mem rfl
          heq.symm
        have hfollowing : following (octet '\n' :: b) = following [octet '\n'] := rfl
        have hnext' : Token.next (x :: m ++ octet '\n' :: b) = .ok (t, mid ++ octet '\n' :: b) := by
          rw [hmid, List.append_assoc]
          exact hused' _ (following_append hfollowing mid)
        rw [ham, List.append_assoc, scan_spaces hspaces, scan_token hnext', ih rfl]
        · rfl
        · intro y hy
          rwa [← Option.some.inj hy]

/-- the reader after the first lines -/
theorem Scans.run_append {a : List UInt8} {ts : List Token} (h : Scans (a ++ [octet '\n']) ts) {s m : State}
    (hm : ts.foldlM State.step s = .ok m) (b : List UInt8) : run s (a ++ octet '\n' :: b) = run m b := by
  have hfold : (ts ++ (Token.scan b).1).foldlM State.step s = (Token.scan b).1.foldlM State.step m := by
    rw [List.foldlM_append, hm]
    rfl
  rw [run, h.scan_append]
  simp only [hfold]
  rfl

/-! ## What is expected and what is open -/

/-- does a value have to come here before it can be closed? -/
def Open.Waits : Open → Prop
  | .object _ => False
  | _ => True

namespace State

/-- what is expected fits what is open, and all that is open around it waits for a value -/
inductive Fits : State → Prop
  | value {stack : List Open} (h : ∀ o ∈ stack, o.Waits) : Fits ⟨.value, stack⟩
  | valueOrClose {items : List Value} {stack : List Open} (h : ∀ o ∈ stack, o.Waits) :
      Fits ⟨.valueOrClose, .list items :: stack⟩
  | key {ms : Members} {stack : List Open} (h : ∀ o ∈ stack, o.Waits) : Fits ⟨.key, .object ms :: stack⟩
  | keyOrClose {ms : Members} {stack : List Open} (h : ∀ o ∈ stack, o.Waits) : Fits ⟨.keyOrClose, .object ms :: stack⟩
  | colon {spelling : List UInt8} {ms : Members} {key : String} {stack : List Open} (h : ∀ o ∈ stack, o.Waits) :
      Fits ⟨.colon spelling, .member ms key :: stack⟩
  | item {items : List Value} {stack : List Open} (h : ∀ o ∈ stack, o.Waits) :
      Fits ⟨.commaOrClose, .list items :: stack⟩
  | member {ms : Members} {stack : List Open} (h : ∀ o ∈ stack, o.Waits) : Fits ⟨.commaOrClose, .object ms :: stack⟩
  | nothing (v : Value) : Fits ⟨.nothing v, []⟩

variable {stack : List Open} {s s' : State} {t : Token}

/-- a value may be placed where one is waited for -/
theorem exists_place (h : ∀ o ∈ stack, o.Waits) (v : Value) : ∃ s, place v stack = some s ∧ s.Fits := by
  cases stack with
  | nil => exact ⟨_, rfl, .nothing v⟩
  | cons o stack =>
    obtain ⟨ho, hstack⟩ := List.forall_mem_cons.1 h
    cases o with
    | list items => exact ⟨_, rfl, .item hstack⟩
    | object ms => cases ho
    | member ms key => exact ⟨_, rfl, .member hstack⟩

theorem fits_of_place (h : ∀ o ∈ stack, o.Waits) {v : Value} (hs : place v stack = some s) : s.Fits := by
  obtain ⟨s', hplace, hfits⟩ := exists_place h v
  rw [hplace] at hs
  exact Option.some.inj hs ▸ hfits

theorem fits_of_begin (h : ∀ o ∈ stack, o.Waits) (hs : begin stack t = some s) : s.Fits := by
  cases t with
  | null | bool | number | string => exact fits_of_place h hs
  | openObject =>
    cases hs
    exact .keyOrClose h
  | openList =>
    cases hs
    exact .valueOrClose h
  | closeObject | closeList | colon | comma => cases hs

theorem fits_of_close {o : Open} (h : ∀ o ∈ stack, o.Waits) (hs : close (o :: stack) t = some s) : s.Fits := by
  unfold close at hs
  split at hs
  · next heq =>
    obtain ⟨rfl, rfl⟩ := List.cons.inj heq
    exact fits_of_place h hs
  · next heq =>
    obtain ⟨rfl, rfl⟩ := List.cons.inj heq
    exact fits_of_place h hs
  · cases hs

theorem fits_of_beginKey {ms : Members} (h : ∀ o ∈ stack, o.Waits) (hs : beginKey (.object ms :: stack) t = some s) :
    s.Fits := by
  cases t with
  | string spelling key =>
    cases hs
    exact .colon h
  | _ => cases hs

theorem fits_of_proceed {o : Open} (h : ∀ o ∈ stack, o.Waits)
    (hs : proceed (o :: stack) t = some s) : s.Fits := by
  unfold proceed at hs
  split at hs
  · next items rest heq =>
    obtain ⟨rfl, rfl⟩ := List.cons.inj heq
    cases hs
    exact .value (List.forall_mem_cons.2 ⟨trivial, h⟩)
  · next ms rest heq =>
    obtain ⟨rfl, rfl⟩ := List.cons.inj heq
    cases hs
    exact .key h
  · exact fits_of_close h hs

/-- one token keeps what fits -/
theorem Fits.next? (h : s.Fits) (hs : s.next? t = some s') : s'.Fits := by
  unfold State.next? at hs
  cases h with
  | value h => exact fits_of_begin h hs
  | @valueOrClose items stack h =>
    have hwaits : ∀ o ∈ Open.list items :: stack, o.Waits := List.forall_mem_cons.2 ⟨trivial, h⟩
    dsimp only at hs
    rw [Option.orElse_eq_orElse, Option.orElse_eq_or] at hs
    rcases Option.or_eq_some_iff.1 hs with hs | ⟨-, hs⟩
    · exact fits_of_close h hs
    · exact fits_of_begin hwaits hs
  | key h => exact fits_of_beginKey h hs
  | keyOrClose h =>
    dsimp only at hs
    rw [Option.orElse_eq_orElse, Option.orElse_eq_or] at hs
    rcases Option.or_eq_some_iff.1 hs with hs | ⟨-, hs⟩
    · exact fits_of_close h hs
    · exact fits_of_beginKey h hs
  | @colon spelling ms key stack h =>
    have hwaits : ∀ o ∈ Open.member ms key :: stack, o.Waits := List.forall_mem_cons.2 ⟨trivial, h⟩
    cases t with
    | colon =>
      dsimp only at hs
      split_ifs at hs
      cases hs
      exact .value hwaits
    | _ => cases hs
  | item h => exact fits_of_proceed h hs
  | member h => exact fits_of_proceed h hs
  | nothing v => cases hs

/-- so it does in every state that tokens lead to -/
theorem Fits.foldlM {ts : List Token} (h : s.Fits) (hs : ts.foldlM step s = .ok s') : s'.Fits := by
  induction ts generalizing s with
  | nil =>
    cases hs
    exact h
  | cons t ts ih =>
    rw [List.foldlM_cons] at hs
    obtain ⟨m, hstep, hrest⟩ := bind_eq_ok.1 hs
    exact ih (h.next? (step_eq_ok.1 hstep)) hrest

/-! ## Completions -/

/-- the token that closes a list or an object, and how it is written -/
def closer : Open → Token × Char
  | .list _ => (.closeList, ']')
  | .object _ => (.closeObject, '\x7d')
  | .member _ _ => (.closeObject, '\x7d')

/-- closes all that is open, from the inside out -/
def closing (stack : List Open) : String := String.ofList (stack.map fun o => (closer o).2)

/-- a key that is longer than all the others -/
def freshKey (ms : Members) : String := String.ofList (List.replicate ((ms.map fun m => m.1.length).sum + 1) 'a')

/-- does the colon come next, after a key that its object has already? -/
def awaitsRepeatedKey (s : State) : Bool :=
  match s.expects, s.stack with
  | .colon _, .member ms key :: _ => ms.contains key
  | _, _ => false

/-- what completes a text after which the reader is in this state -/
def completion (s : State) : String :=
  match s.expects, s.stack with
  | .value, stack | .valueOrClose, stack => "null" ++ closing stack
  | .key, .object ms :: stack => quote (freshKey ms) ++ (": " ++ ("null" ++ closing (.object ms :: stack)))
  | .colon _, stack => ":" ++ ("null" ++ closing stack)
  | .keyOrClose, stack | .commaOrClose, stack => closing stack
  | _, _ => ""

theorem contains_freshKey (ms : Members) : ms.contains (freshKey ms) = false := by
  rw [Members.contains, List.any_eq_false]
  intro m hm heq
  have hlength : m.1.length ≤ (ms.map fun m => m.1.length).sum := List.le_sum_of_mem (List.mem_map_of_mem hm)
  rw [beq_iff_eq.1 heq, freshKey, String.length_ofList, List.length_replicate] at hlength
  omega

theorem encode_closing_cons (o : Open) (stack : List Open) :
    Utf8.encode (closing (o :: stack)) = octet (closer o).2 :: Utf8.encode (closing stack) := by
  rw [closing, closing, Utf8.encode_ofList, Utf8.encode_ofList, List.map_cons, List.flatMap_cons]
  cases o <;> rfl

theorem ends_closing (stack : List Open) : ends (Utf8.encode (closing stack)) = true := by
  cases stack with
  | nil => rfl
  | cons o stack =>
    rw [encode_closing_cons]
    cases o <;> rfl

theorem run_closer {e : Expects} {o : Open} (hnext : State.next? ⟨e, o :: stack⟩ (closer o).1 = some s) :
    run ⟨e, o :: stack⟩ (Utf8.encode (closing (o :: stack))) = run s (Utf8.encode (closing stack)) := by
  have hcloser : punctuation? (octet (closer o).2) = some (closer o).1 := by cases o <;> rfl
  rw [encode_closing_cons]
  exact run_punctuation hcloser hnext _

theorem run_nothing (v : Value) : run ⟨.nothing v, []⟩ [] = .ok v := by
  rw [run, scan_eq]
  rfl

/-- after a value all that is open is closed -/
theorem run_closing (h : ∀ o ∈ stack, o.Waits) {v : Value} (hs : place v stack = some s) :
    ∃ w, run s (Utf8.encode (closing stack)) = .ok w := by
  induction stack generalizing v s with
  | nil =>
    cases hs
    exact ⟨v, run_nothing v⟩
  | cons o stack ih =>
    obtain ⟨ho, hstack⟩ := List.forall_mem_cons.1 h
    cases o with
    | object ms => cases ho
    | list items =>
      cases hs
      obtain ⟨s', hplace, -⟩ := exists_place hstack (.list (v :: items).reverse)
      obtain ⟨w, hw⟩ := ih hstack hplace
      exact ⟨w, (run_closer (e := .commaOrClose) (o := .list (v :: items)) hplace).trans hw⟩
    | member ms key =>
      cases hs
      obtain ⟨s', hplace, -⟩ := exists_place hstack (.object (Members.insert key v ms))
      obtain ⟨w, hw⟩ := ih hstack hplace
      exact ⟨w, (run_closer (e := .commaOrClose) (o := .object (Members.insert key v ms)) hplace).trans hw⟩

/-- what may be closed is closed, with all that is open around it -/
theorem exists_run_closer {e : Expects} {o : Open} {v : Value} (h : ∀ o ∈ stack, o.Waits)
    (hnext : ∀ s, place v stack = some s → State.next? ⟨e, o :: stack⟩ (closer o).1 = some s) :
    ∃ w, run ⟨e, o :: stack⟩ (Utf8.encode (closing (o :: stack))) = .ok w := by
  obtain ⟨s, hplace, -⟩ := exists_place h v
  obtain ⟨w, hw⟩ := run_closing h hplace
  exact ⟨w, (run_closer (hnext s hplace)).trans hw⟩

/-- a null where a value is due -/
theorem exists_run_null {e : Expects} (he : e = .value ∨ e = .valueOrClose) (h : ∀ o ∈ stack, o.Waits) :
    ∃ w, run ⟨e, stack⟩ (Utf8.encode ("null" ++ closing stack)) = .ok w := by
  obtain ⟨s, hplace, -⟩ := exists_place h .null
  obtain ⟨w, hw⟩ := run_closing h hplace
  have hnull := reads_null 0 e stack s _ he hplace (ends_closing stack)
  rw [write] at hnull
  rw [Utf8.encode_append]
  exact ⟨w, hnull.trans hw⟩

/-- **Completions.** A text after which the reader is in such a state can be completed, but not after a repeated key. -/
theorem run_completion (h : s.Fits) (hkey : s.awaitsRepeatedKey = false) :
    ∃ v, run s (Utf8.encode s.completion) = .ok v := by
  cases h with
  | value h => exact exists_run_null (.inl rfl) h
  | valueOrClose h => exact exists_run_null (.inr rfl) (List.forall_mem_cons.2 ⟨trivial, h⟩)
  | @key ms stack h =>
    have hwaits : ∀ o ∈ Open.member ms (freshKey ms) :: stack, o.Waits := List.forall_mem_cons.2 ⟨trivial, h⟩
    obtain ⟨w, hw⟩ := exists_run_null (.inl rfl) hwaits
    rw [completion, Utf8.encode_append, Utf8.encode_append]
    exact ⟨w, (run_key (.inl rfl) (contains_freshKey ms) stack _).trans hw⟩
  | @keyOrClose ms stack h =>
    refine exists_run_closer (v := .object ms) h fun s hplace => ?_
    change (place (.object ms) stack <|> none) = some s
    rw [hplace]
    rfl
  | @colon spelling ms key stack h =>
    have hwaits : ∀ o ∈ Open.member ms key :: stack, o.Waits := List.forall_mem_cons.2 ⟨trivial, h⟩
    obtain ⟨w, hw⟩ := exists_run_null (.inl rfl) hwaits
    have hnext : State.next? ⟨.colon spelling, .member ms key :: stack⟩ .colon =
        some ⟨.value, .member ms key :: stack⟩ := by
      have hcontains : ms.contains key = false := hkey
      simp only [State.next?, hcontains, Bool.false_eq_true, if_false]
    rw [completion, Utf8.encode_append]
    exact ⟨w, (run_punctuation rfl hnext _).trans hw⟩
  | @item items stack h => exact exists_run_closer (v := .list items.reverse) h fun s hplace => hplace
  | @member ms stack h => exact exists_run_closer (v := .object ms) h fun s hplace => hplace
  | nothing v => exact ⟨v, run_nothing v⟩

/-- after a repeated key nothing is taken -/
theorem next?_of_awaitsRepeatedKey (h : s.awaitsRepeatedKey = true) (t : Token) : s.next? t = none := by
  unfold awaitsRepeatedKey at h
  split at h
  · next hexpects hstack =>
    unfold State.next?
    rw [hexpects, hstack]
    cases t with
    | colon => exact if_pos h
    | _ => rfl
  · cases h

/-- so no value is complete then, whatever follows -/
theorem awaitsRepeatedKey_eq_false {ts : List Token} {v : Value} (hs : ts.foldlM step s = .ok s')
    (hv : s'.expects = .nothing v) : s.awaitsRepeatedKey = false := by
  rw [← Bool.not_eq_true]
  intro hrepeated
  cases ts with
  | nil =>
    cases hs
    unfold awaitsRepeatedKey at hrepeated
    rw [hv] at hrepeated
    cases hrepeated
  | cons t ts =>
    rw [List.foldlM_cons] at hs
    obtain ⟨m, hstep, -⟩ := bind_eq_ok.1 hs
    have hnext := step_eq_ok.1 hstep
    rw [next?_of_awaitsRepeatedKey hrepeated t] at hnext
    cases hnext

end State

/-! ## Texts that can be completed -/

/-- the state of the reader after a text, if the text consists of tokens and the reader takes them all -/
def stateAfter? (text : List UInt8) : Option State :=
  match Token.scan text with
  | (tokens, none) => (tokens.foldlM State.step .start).toOption
  | (_, some _) => none

theorem mem_stateAfter?_iff {text : List UInt8} {m : State} :
    m ∈ stateAfter? text ↔ ∃ ts, Scans text ts ∧ ts.foldlM State.step .start = .ok m := by
  constructor
  · intro h
    unfold stateAfter? at h
    split at h
    · next ts hscan =>
      refine ⟨ts, scans_of_scan hscan, ?_⟩
      cases hfold : ts.foldlM State.step .start with
      | error f =>
        rw [hfold] at h
        cases h
      | ok s =>
        rw [hfold] at h
        cases h
        rfl
    · cases h
  · rintro ⟨ts, hscans, hfold⟩
    unfold stateAfter?
    rw [hscans.scan_eq]
    simp only [hfold]
    rfl

/-- where the text ends after whole tokens, the state decides -/
theorem read_of_mem_stateAfter? {text : List UInt8} {m : State} (h : m ∈ stateAfter? text) :
    read text = m.finish none := by
  obtain ⟨ts, hscans, hfold⟩ := mem_stateAfter?_iff.1 h
  rw [read_eq, hscans.scan_eq]
  simp only [hfold]

/-- a text of whole tokens has nothing wrong with it but its end -/
theorem State.eq_of_finish_none {s : State} {f : Fault} (h : s.finish none = .error f) :
    f = .truncated ∨ f = .malformed := by
  have hend : ∀ b : Bool, (if b then Except.error Fault.malformed else .error .truncated : Except Fault Value) =
      .error f → f = .truncated ∨ f = .malformed := by
    rintro (_ | _) ⟨⟩
    · exact .inl rfl
    · exact .inr rfl
  obtain ⟨expects, stack⟩ := s
  cases expects with
  | nothing v => cases h
  | _ => exact hend stack.isEmpty h

theorem start_mem_stateAfter? : State.start ∈ stateAfter? [] :=
  mem_stateAfter?_iff.2 ⟨[], .spaces (List.forall_mem_nil _), rfl⟩

/-- **Completable texts.** Some lines can be completed exactly if they consist of tokens, and the reader takes them all
and does not await the colon of a repeated key then. -/
theorem exists_read_append_iff {a : List UInt8} :
    (∃ text v, read (a ++ octet '\n' :: Utf8.encode text) = .ok v) ↔
      ∃ m ∈ stateAfter? (a ++ [octet '\n']), m.awaitsRepeatedKey = false := by
  constructor
  · rintro ⟨text, v, hread⟩
    obtain ⟨ts, s, hscans, hfold, hexpects⟩ := read_eq_ok.1 hread
    obtain ⟨first, others, rfl, hfirst, -⟩ := hscans.append rfl
    obtain ⟨m, hm, hs⟩ := State.exists_between hfold
    exact ⟨m, mem_stateAfter?_iff.2 ⟨first, hfirst, hm⟩, State.awaitsRepeatedKey_eq_false hs hexpects⟩
  · rintro ⟨m, hm, hkey⟩
    obtain ⟨ts, hscans, hfold⟩ := mem_stateAfter?_iff.1 hm
    have hstart : State.start.Fits := .value (List.forall_mem_nil _)
    obtain ⟨v, hv⟩ := State.run_completion (hstart.foldlM hfold) hkey
    exact ⟨m.completion, v, (hscans.run_append hfold _).trans hv⟩

/-! ## Tokens that are cut off -/

/-- the text ends before an escape by number has all its digits: nine octets or fewer after the mark of the escape -/
def CutsEscape (text : List UInt8) : Prop :=
  ∃ before tail, text = before ++ octet '\\' :: octet 'u' :: tail ∧ unicodeEscape tail = .error .truncated ∧
    tail.length < 10

theorem CutsEscape.append {text : List UInt8} (h : CutsEscape text) (used : List UInt8) :
    CutsEscape (used ++ text) := by
  obtain ⟨before, tail, rfl, hcut⟩ := h
  exact ⟨used ++ before, tail, (List.append_assoc ..).symm, hcut⟩

theorem length_lt_of_lowSurrogate {high : ℕ} {bs : List UInt8} (h : lowSurrogate high bs = .error .truncated) :
    bs.length < 6 := by
  unfold lowSurrogate at h
  split at h
  · split at h
    · split at h <;> cases h
    · cases h
  · next hshort =>
    by_contra hlength
    match bs with
    | [] | [_] | [_, _] | [_, _, _] | [_, _, _, _] | [_, _, _, _, _] => simp at hlength
    | b1 :: b2 :: b3 :: b4 :: b5 :: b6 :: rest => exact hshort b1 b2 b3 b4 b5 b6 rest rfl

theorem length_lt_of_unicodeEscape {bs : List UInt8} (h : unicodeEscape bs = .error .truncated) : bs.length < 10 := by
  unfold unicodeEscape at h
  split at h
  · split at h
    · cases h
    · split_ifs at h
      have hlength := length_lt_of_lowSurrogate h
      simp only [List.length_cons]
      omega
  · next hshort =>
    by_contra hlength
    match bs with
    | [] | [_] | [_, _] | [_, _, _] => simp at hlength
    | b1 :: b2 :: b3 :: b4 :: rest => exact hshort b1 b2 b3 b4 rest rfl

variable {bs : List UInt8}

/-- what is taken within a line leaves the end of the line -/
theorem getLast?_of_append {used rest : List UInt8} (hused : octet '\n' ∉ used)
    (h : (used ++ rest).getLast? = some (octet '\n')) : rest.getLast? = some (octet '\n') := by
  rw [List.getLast?_append] at h
  rcases Option.or_eq_some_iff.1 h with hrest | ⟨-, hlast⟩
  · exact hrest
  · exact absurd (List.mem_of_getLast? hlast) hused

/-- a line that is ended cuts no character off but one that is escaped by number -/
theorem cutsEscape_of_stringChar (hline : bs.getLast? = some (octet '\n'))
    (h : stringChar bs = .error .truncated) : CutsEscape bs := by
  cases bs with
  | nil => cases hline
  | cons b bs =>
    rw [stringChar] at h
    split_ifs at h with hslash hnewline hlow
    · cases bs with
      | nil =>
        obtain rfl := Option.some.inj hline
        cases hslash
      | cons x bs =>
        rw [escape] at h
        split_ifs at h with hu
        · refine ⟨[], bs, ?_, h, length_lt_of_unicodeEscape h⟩
          rw [beq_iff_eq.1 hslash, beq_iff_eq.1 hu]
          rfl
        · split at h <;> cases h
    · cases h
    · cases h
    · split at h <;> cases h

theorem cutsEscape_of_stringBody {read : List Char} (hline : bs.getLast? = some (octet '\n'))
    (h : stringBody read bs = .error .truncated) : CutsEscape bs := by
  fun_induction stringBody read bs with
  | case1 => cases h
  | case2 read bs hquote f hchar =>
    obtain rfl := Except.error.inj h
    exact cutsEscape_of_stringChar hline hchar
  | case3 read bs hquote c rest hchar hlt ih =>
    obtain ⟨used, rfl, hused, -⟩ := isLocal_stringChar bs c rest ⟨hquote, hchar⟩
    exact (ih (getLast?_of_append hused.line.newline_not_mem hline) h).append used

/-- the scan stops inside a string, which the end of the text cuts off in an escape by number -/
structure EndsInEscape (text : List UInt8) : Prop where
  fault : (Token.scan text).2 = some .truncated
  string : ∃ before body, text = before ++ octet '"' :: body ∧ stringBody [] body = .error .truncated ∧ CutsEscape body

/-- only a string is cut off -/
theorem exists_body_of_next {b : UInt8} (h : Token.next (b :: bs) = .error .truncated) :
    b = octet '"' ∧ stringBody [] bs = .error .truncated := by
  rw [Token.next] at h
  split_ifs at h with hquote
  · split at h
    · cases h
    · next f hbody =>
      obtain rfl := Except.error.inj h
      exact ⟨beq_iff_eq.1 hquote, hbody⟩
  · split at h
    · cases h
    · split at h <;> cases h

/-- a scan that is cut off stops at a token that is -/
theorem exists_next_of_scan (h : (Token.scan bs).2 = some .truncated) :
    ∃ before b rest, bs = before ++ b :: rest ∧ Token.next (b :: rest) = .error .truncated := by
  induction hlength : bs.length using Nat.strongRecOn generalizing bs with
  | ind n ih =>
    have hsplit := List.takeWhile_append_dropWhile (p := isSpace) (l := bs)
    rw [scan_eq] at h
    cases hdrop : bs.dropWhile isSpace with
    | nil =>
      rw [hdrop] at h
      cases h
    | cons b rest =>
      rw [hdrop] at h hsplit
      cases hnext : Token.next (b :: rest) with
      | error f =>
        rw [hnext] at h
        obtain rfl := Option.some.inj h
        exact ⟨_, b, rest, hsplit.symm, hnext⟩
      | ok r =>
        obtain ⟨t, after⟩ := r
        rw [hnext] at h
        obtain ⟨used, heq, -, -⟩ := isLocal_next _ t after hnext
        have hlt : after.length < n := by
          have hshorter := Token.next_length hnext
          have hle := length_dropWhile_le isSpace bs
          rw [hdrop] at hle
          omega
        obtain ⟨before, b', rest', rfl, hcut⟩ := ih after.length hlt h rfl
        rw [heq] at hsplit
        refine ⟨bs.takeWhile isSpace ++ (used ++ before), b', rest', ?_, hcut⟩
        rw [List.append_assoc, List.append_assoc, hsplit]

/-- lines cut no token off but a string with an escape by number at the end -/
theorem endsInEscape_of_scan (hline : bs.getLast? = some (octet '\n'))
    (h : (Token.scan bs).2 = some .truncated) : EndsInEscape bs := by
  refine ⟨h, ?_⟩
  obtain ⟨before, b, body, rfl, hnext⟩ := exists_next_of_scan h
  obtain ⟨rfl, hbody⟩ := exists_body_of_next hnext
  have hlast : body.getLast? = some (octet '\n') := by
    rw [List.append_cons, List.getLast?_append] at hline
    rcases Option.or_eq_some_iff.1 hline with hlast | ⟨-, hquote⟩
    · exact hlast
    · rw [List.getLast?_concat] at hquote
      exact absurd (Option.some.inj hquote) (by decide)
  exact ⟨before, body, rfl, hbody, cutsEscape_of_stringBody hlast hbody⟩

/-! ## Texts that end too early -/

theorem ne_truncated_of_foldlM {ts : List Token} {s : State} {f : Fault} (h : ts.foldlM State.step s = .error f) :
    f ≠ .truncated := by
  induction ts generalizing s with
  | nil => cases h
  | cons t ts ih =>
    rw [List.foldlM_cons] at h
    cases hnext : s.next? t with
    | some s' =>
      rw [State.step_eq_ok.2 hnext] at h
      exact ih h
    | none =>
      have hstep : s.step t = .error (s.refusal t) := by rw [State.step, hnext]
      rw [hstep] at h
      obtain rfl := Except.error.inj h
      unfold State.refusal
      split <;> exact Fault.noConfusion

/-- lines end too early after whole tokens, or inside an escape by number -/
theorem stateAfter?_of_truncated (hline : bs.getLast? = some (octet '\n')) (h : read bs = .error .truncated) :
    (∃ m, m ∈ stateAfter? bs) ∨ EndsInEscape bs := by
  rw [read_eq] at h
  split at h
  · next f hfold =>
    obtain rfl := Except.error.inj h
    exact absurd rfl (ne_truncated_of_foldlM hfold)
  · next s hfold =>
    cases hfault : (Token.scan bs).2 with
    | none => exact .inl ⟨s, mem_stateAfter?_iff.2 ⟨_, scans_of_scan (Prod.ext rfl hfault), hfold⟩⟩
    | some f =>
      have hfinish : s.finish (some f) = .error f ∨ s.finish (some f) = .error .malformed := by
        unfold State.finish
        cases s.expects <;> simp
      rw [hfault] at h
      rcases hfinish with hf | hf
      · rw [hf] at h
        obtain rfl := Except.error.inj h
        exact .inr (endsInEscape_of_scan hline hfault)
      · rw [hf] at h
        cases h

end LetStack.Json

namespace LetStack.Loop

open Octet

/-! ## Waiting -/

/-- the loop waits after a text that is no JSON only if its fault looks as if the text were cut off -/
theorem isIncomplete_of_waits {text : String} {fault : Json.Fault}
    (hread : Json.read (Utf8.encode text) = .error fault) (h : IsIncomplete text) : fault.isIncomplete = true := by
  obtain ⟨failure, hdecode, hincomplete⟩ := h
  have hvalue : Value.decode .json (Utf8.encode text) = .error (.unreadable .json fault.isIncomplete) := by
    rw [Value.decode, hread]
  rw [Root.decode, hvalue] at hdecode
  obtain rfl := Except.error.inj hdecode
  exact hincomplete

/-- the octets of lines that are ended, alone and with what follows -/
theorem exists_encode_entered {lines : List String} (hne : lines ≠ []) :
    ∃ a, Utf8.encode (entered lines) = a ++ [octet '\n'] ∧
      ∀ s, Utf8.encode (entered lines ++ s) = a ++ octet '\n' :: Utf8.encode s := by
  obtain ⟨ls, l, rfl⟩ := (List.eq_nil_or_concat' lines).resolve_left hne
  have hnewline : Utf8.encode "\n" = [octet '\n'] := rfl
  refine ⟨Utf8.encode (entered ls ++ l), ?_, fun s => ?_⟩
  · rw [entered_append_singleton, Utf8.encode_append, hnewline]
  · rw [entered_append_singleton, String.append_assoc, Utf8.encode_append, Utf8.encode_append "\n", hnewline]
    rfl

/-- the same of lines as they are entered; no lines at all may become any text -/
theorem exists_read_append_entered_iff (lines : List String) :
    (∃ s v, Json.read (Utf8.encode (entered lines ++ s)) = .ok v) ↔
      ∃ m ∈ Json.stateAfter? (Utf8.encode (entered lines)), m.awaitsRepeatedKey = false := by
  by_cases hne : lines = []
  · have hstart : Json.State.start.Fits := .value (List.forall_mem_nil _)
    obtain ⟨v, hv⟩ := Json.State.run_completion hstart rfl
    subst hne
    apply iff_of_true
    · refine ⟨Json.State.start.completion, v, ?_⟩
      rw [entered_nil, String.empty_append]
      exact hv
    · exact ⟨.start, Json.start_mem_stateAfter?, rfl⟩
  · obtain ⟨a, htext, ha⟩ := exists_encode_entered hne
    rw [htext]
    simp only [ha]
    exact Json.exists_read_append_iff

/-- in each of the four cases the text does not end after whole tokens that the reader takes, or it ends after a repeated
key -/
theorem not_completable_of_cases {text : List UInt8} {fault : Json.Fault} (hread : Json.read text = .error fault)
    (h : fault = .brokenLine ∨ (∃ spelling, fault = .unwanted spelling) ∨ Json.EndsInEscape text ∨
      ∃ m ∈ Json.stateAfter? text, m.awaitsRepeatedKey = true) :
    ¬ ∃ m ∈ Json.stateAfter? text, m.awaitsRepeatedKey = false := by
  rintro ⟨m, hm, hkey⟩
  have hfault := Json.State.eq_of_finish_none ((Json.read_of_mem_stateAfter? hm).symm.trans hread)
  rcases h with rfl | ⟨spelling, rfl⟩ | hescape | ⟨m', hm', hrepeated⟩
  · rcases hfault with hfault | hfault <;> cases hfault
  · rcases hfault with hfault | hfault <;> cases hfault
  · obtain ⟨ts, hscans, -⟩ := Json.mem_stateAfter?_iff.1 hm
    have hscan := hescape.fault
    rw [hscans.scan_eq] at hscan
    cases hscan
  · obtain rfl := Option.mem_unique hm hm'
    rw [hkey] at hrepeated
    cases hrepeated

/-- **Waiting.** Some lines are no JSON, and the loop waits for more. They can be completed exactly if they consist of
tokens that the reader takes and of which the last is no repeated key; and they cannot exactly if a line ends inside a
string, a complaint quotes a telling phrase, the end of the text cuts a string off in an escape by number, or the text
ends after a repeated key. -/
theorem loop_waits_for_what_can_be_completed_but_for_four_cases {lines : List String} {fault : Json.Fault}
    (hread : Json.read (Utf8.encode (entered lines)) = .error fault) (log : Logging)
    (hwaits : (respond log (entered lines) false).consumed = false) :
    ((∃ s v, Json.read (Utf8.encode (entered lines ++ s)) = .ok v) ↔
      ∃ m ∈ Json.stateAfter? (Utf8.encode (entered lines)), m.awaitsRepeatedKey = false) ∧
    ((¬ ∃ s v, Json.read (Utf8.encode (entered lines ++ s)) = .ok v) ↔
      fault = .brokenLine ∨ (∃ spelling, fault = .unwanted spelling ∧ Text.soundsCutOff spelling = true) ∨
        Json.EndsInEscape (Utf8.encode (entered lines)) ∨
        ∃ m ∈ Json.stateAfter? (Utf8.encode (entered lines)), m.awaitsRepeatedKey = true) := by
  have hincomplete := isIncomplete_of_waits hread (consumed_eq_false_iff.1 hwaits).2
  refine ⟨exists_read_append_entered_iff lines, ?_⟩
  rw [exists_read_append_entered_iff]
  refine ⟨fun hvain => ?_, fun hcases => not_completable_of_cases hread
    (hcases.imp_right (Or.imp_left fun ⟨spelling, hfault, _⟩ => ⟨spelling, hfault⟩))⟩
  cases fault with
  | brokenLine => exact .inl rfl
  | unwanted spelling => exact .inr (.inl ⟨spelling, rfl, hincomplete⟩)
  | malformed => cases hincomplete
  | truncated =>
    by_cases hne : lines = []
    · subst hne
      exact absurd ⟨.start, Json.start_mem_stateAfter?, rfl⟩ hvain
    · obtain ⟨a, htext, -⟩ := exists_encode_entered hne
      have hline : (Utf8.encode (entered lines)).getLast? = some (octet '\n') := by
        rw [htext]
        exact List.getLast?_concat
      rcases Json.stateAfter?_of_truncated hline hread with ⟨m, hm⟩ | hescape
      · refine .inr (.inr (.inr ⟨m, hm, ?_⟩))
        by_contra hkey
        exact hvain ⟨m, hm, Bool.eq_false_of_not_eq_true hkey⟩
      · exact .inr (.inr (.inl hescape))

/-- two lines of a tree, the second of which ends after a key -/
def halfTree : List String := ["\x7b\"kind\": \"prog\",", "\"body\": \x7b\"kind\""]

/-- the loop waits after these lines, and they can be completed -/
theorem halfTree_can_be_completed :
    (∃ fault, Json.read (Utf8.encode (entered halfTree)) = .error fault) ∧
    (respond ⟨"", .quiet⟩ (entered halfTree) false).consumed = false ∧
    ∃ s v, Json.read (Utf8.encode (entered halfTree ++ s)) = .ok v := by
  have hrefused : (Json.read (Utf8.encode (entered halfTree))).isOk = false := by decide +kernel
  have hwaits : (respond ⟨"", .quiet⟩ (entered halfTree) false).consumed = false := by decide +kernel
  cases hread : Json.read (Utf8.encode (entered halfTree)) with
  | ok v =>
    rw [hread] at hrefused
    cases hrefused
  | error fault =>
    refine ⟨⟨fault, rfl⟩, hwaits, ?_⟩
    apply (loop_waits_for_what_can_be_completed_but_for_four_cases hread _ hwaits).1.2
    decide +kernel

/-- the loop waits after these lines, but nothing that follows makes them JSON -/
def WaitsInVain (lines : List String) : Prop :=
  (respond ⟨"", .quiet⟩ (entered lines) false).consumed = false ∧
    ¬ ∃ s v, Json.read (Utf8.encode (entered lines ++ s)) = .ok v

theorem waitsInVain_iff {lines : List String} : WaitsInVain lines ↔
    (respond ⟨"", .quiet⟩ (entered lines) false).consumed = false ∧
      ¬ ∃ m ∈ Json.stateAfter? (Utf8.encode (entered lines)), m.awaitsRepeatedKey = false := by
  rw [WaitsInVain, exists_read_append_entered_iff]

instance (lines : List String) : Decidable (WaitsInVain lines) :=
  decidable_of_iff _ waitsInVain_iff.symm

/-- the four cases: a string that should not be there and has a telling phrase in it, an escape without its digits, a
repeated key, and a string that its line ends in, for which the loop waits on purpose -/
theorem loop_may_wait_in_vain :
    WaitsInVain ["[1 \"unexpected EOF\""] ∧ WaitsInVain ["\x7b\"\\u1\""] ∧ WaitsInVain ["\x7b\"a\": 1, \"a\""] ∧
      WaitsInVain ["\x7b\"kind\": \"pr"] := by
  decide +kernel

end LetStack.Loop

/-
JSON, line by line.

A text has the tokens of its first lines and then those of its other lines, because no token goes on after the end of its
line. If the whole is read as a value and there are tokens in both parts, something is still open after the first lines:
read alone, they end too early.

Results:
- `Scans.append`: the tokens of the first lines come first;
- `exists_encode_of_read`: what is read as a value is text;
- `read_append_newline`, `read_first_lines`: a value whose last line is ended, and a value that is cut after a line.
-/
import LetStack.Proofs.JsonTokens

namespace LetStack.Json

open Octet

/-! ## The tokens of the lines -/

/-- what is taken before the end of a line is there without what follows it -/
theorem exists_append_of_line {used rest a c : List UInt8} (hused : octet '\n' ∉ used) (hc : following c = octet '\n')
    (h : used ++ rest = a ++ c) : ∃ mid, a = used ++ mid ∧ rest = mid ++ c := by
  rcases List.append_eq_append_iff.1 h with ⟨mid, ha, hrest⟩ | ⟨us, husedeq, hceq⟩
  · exact ⟨mid, ha, hrest⟩
  · cases us with
    | nil => exact ⟨[], by simpa using husedeq.symm, by simpa using hceq.symm⟩
    | cons b us =>
      rw [hceq] at hc
      obtain rfl : b = octet '\n' := hc
      rw [husedeq] at hused
      exact absurd (List.mem_append_right a List.mem_cons_self) hused

/-- the tokens of a text that holds nothing else but spaces -/
inductive Scans : List UInt8 → List Token → Prop
  | spaces {bs : List UInt8} (h : ∀ b ∈ bs, isSpace b = true) : Scans bs []
  | token {spaces rest after : List UInt8} {b : UInt8} {t : Token} {ts : List Token}
      (hspaces : ∀ x ∈ spaces, isSpace x = true) (hb : isSpace b = false)
      (hnext : Token.next (b :: rest) = .ok (t, after)) (hafter : Scans after ts) :
      Scans (spaces ++ b :: rest) (t :: ts)

theorem Scans.scan_eq {bs : List UInt8} {ts : List Token} (h : Scans bs ts) : Token.scan bs = (ts, none) := by
  induction h with
  | @spaces bs h =>
    have hscan := scan_spaces h []
    rw [List.append_nil] at hscan
    rw [hscan, Json.scan_eq]
    rfl
  | token hspaces hb hnext hafter ih =>
    rw [scan_spaces hspaces, scan_token hnext, ih]
    intro x hx
    rwa [← Option.some.inj hx]

theorem scans_of_scan {bs : List UInt8} {ts : List Token} (h : Token.scan bs = (ts, none)) : Scans bs ts := by
  induction hlength : bs.length using Nat.strongRecOn generalizing bs ts with
  | ind n ih =>
    have hspaces : ∀ b ∈ bs.takeWhile isSpace, isSpace b = true := List.all_eq_true.1 List.all_takeWhile
    have hsplit := List.takeWhile_append_dropWhile (p := isSpace) (l := bs)
    have hhead := List.head?_dropWhile_not isSpace bs
    rw [Json.scan_eq] at h
    cases hdrop : bs.dropWhile isSpace with
    | nil =>
      rw [hdrop] at h hsplit
      cases h
      rw [← hsplit, List.append_nil]
      exact .spaces hspaces
    | cons b rest =>
      rw [hdrop] at h hsplit hhead
      cases hnext : Token.next (b :: rest) with
      | error f =>
        rw [hnext] at h
        cases h
      | ok r =>
        obtain ⟨t, after⟩ := r
        rw [hnext] at h
        obtain ⟨rfl, hfault⟩ := Prod.mk.inj h
        have hlt : after.length < n := by
          have hshorter := Token.next_length hnext
          have hle := length_dropWhile_le isSpace bs
          rw [hdrop] at hle
          omega
        rw [← hsplit]
        exact .token hspaces hhead hnext (ih after.length hlt (Prod.ext rfl hfault) rfl)

/-- the tokens of a text up to the end of a line come first, and the others are those of what follows -/
theorem Scans.append {a c : List UInt8} {ts : List Token} (hc : following c = octet '\n') (h : Scans (a ++ c) ts) :
    ∃ first others, ts = first ++ others ∧ Scans (a ++ [octet '\n']) first ∧ Scans c others := by
  have hnewline : ∀ b ∈ [octet '\n'], isSpace b = true := List.forall_mem_singleton.2 rfl
  generalize hbs : a ++ c = bs at h
  induction h generalizing a with
  | spaces h =>
    rw [← hbs, List.forall_mem_append] at h
    exact ⟨[], [], rfl, .spaces (List.forall_mem_append.2 ⟨h.1, hnewline⟩), .spaces h.2⟩
  | @token spaces rest after b t ts hspaces hb hnext hafter ih =>
    rcases List.append_eq_append_iff.1 hbs with ⟨m, hm, hcm⟩ | ⟨m, ham, hm⟩
    · -- the token stands in what follows
      rw [hm, List.forall_mem_append] at hspaces
      refine ⟨[], t :: ts, rfl, .spaces (List.forall_mem_append.2 ⟨hspaces.1, hnewline⟩), ?_⟩
      rw [hcm]
      exact .token hspaces.2 hb hnext hafter
    · cases m with
      | nil =>
        -- spaces, then the end of a line: no token stands there
        rw [List.nil_append] at hm
        rw [← hm] at hc
        obtain rfl : b = octet '\n' := hc
        cases hb
      | cons b' m =>
        cases hm
        obtain ⟨used, heq, hused, hused'⟩ := isLocal_next _ t after hnext
        obtain ⟨mid, hmid, rfl⟩ := exists_append_of_line (a := b :: m) hused.newline_not_mem hc heq.symm
        obtain ⟨first, others, rfl, hfirst, hothers⟩ := ih rfl
        refine ⟨t :: first, others, rfl, ?_, hothers⟩
        have hnext' := hused' (mid ++ [octet '\n']) (following_append (hc ▸ rfl) mid)
        rw [← List.append_assoc, ← hmid] at hnext'
        rw [ham, List.append_assoc]
        exact .token hspaces hb hnext' hfirst

theorem Scans.isSpace_of_nil {bs : List UInt8} (h : Scans bs []) : ∀ b ∈ bs, isSpace b = true := by
  cases h with
  | spaces h => exact h

/-- the octets of a text, whatever the text -/
theorem Scans.exists_encode {bs : List UInt8} {ts : List Token} (h : Scans bs ts) : ∃ text, Utf8.encode text = bs := by
  have hspaces : ∀ bs : List UInt8, (∀ b ∈ bs, isSpace b = true) → ∃ text, Utf8.encode text = bs := by
    intro bs
    induction bs with
    | nil => exact fun _ => ⟨"", rfl⟩
    | cons b bs ih =>
      intro hbs
      obtain ⟨hb, hbs⟩ := List.forall_mem_cons.1 hbs
      obtain ⟨text, rfl⟩ := ih hbs
      simp only [isSpace, Bool.or_eq_true, beq_iff_eq] at hb
      rcases hb with ((rfl | rfl) | rfl) | rfl
      · exact ⟨" " ++ text, Utf8.encode_append _ _⟩
      · exact ⟨"\n" ++ text, Utf8.encode_append _ _⟩
      · exact ⟨"\r" ++ text, Utf8.encode_append _ _⟩
      · exact ⟨"\t" ++ text, Utf8.encode_append _ _⟩
  induction h with
  | spaces h => exact hspaces _ h
  | token hblank hb hnext hafter ih =>
    obtain ⟨used, heq, ⟨cs, -, rfl⟩, -⟩ := isLocal_next _ _ _ hnext
    obtain ⟨before, hbefore⟩ := hspaces _ hblank
    obtain ⟨text, rfl⟩ := ih
    refine ⟨before ++ (String.ofList cs ++ text), ?_⟩
    rw [heq, Utf8.encode_append, Utf8.encode_append, Utf8.encode_ofList, hbefore]

/-! ## The reader -/

namespace State

/-- only a complete value leaves nothing open -/
theorem exists_nothing_of_place {v : Value} {stack : List Open} {s : State} (h : place v stack = some s)
    (hstack : s.stack = []) : ∃ w, s.expects = .nothing w := by
  unfold place at h
  split at h <;> cases h
  · exact ⟨v, rfl⟩
  · cases hstack
  · cases hstack

theorem exists_nothing_of_begin {stack : List Open} {t : Token} {s : State} (h : begin stack t = some s)
    (hstack : s.stack = []) : ∃ w, s.expects = .nothing w := by
  cases t with
  | null | bool | number | string => exact exists_nothing_of_place h hstack
  | openObject | openList =>
    cases h
    cases hstack
  | closeObject | closeList | colon | comma => cases h

theorem exists_nothing_of_close {stack : List Open} {t : Token} {s : State} (h : close stack t = some s)
    (hstack : s.stack = []) : ∃ w, s.expects = .nothing w := by
  unfold close at h
  split at h
  · exact exists_nothing_of_place h hstack
  · exact exists_nothing_of_place h hstack
  · cases h

theorem stack_ne_nil_of_beginKey {stack : List Open} {t : Token} {s : State} (h : beginKey stack t = some s) :
    s.stack ≠ [] := by
  unfold beginKey at h
  split at h <;> cases h
  exact List.cons_ne_nil _ _

theorem exists_nothing_of_proceed {stack : List Open} {t : Token} {s : State} (h : proceed stack t = some s)
    (hstack : s.stack = []) : ∃ w, s.expects = .nothing w := by
  unfold proceed at h
  split at h
  · cases h
    cases hstack
  · cases h
    cases hstack
  · exact exists_nothing_of_close h hstack

theorem exists_nothing_of_next? {s s' : State} {t : Token} (h : s.next? t = some s') (hstack : s'.stack = []) :
    ∃ w, s'.expects = .nothing w := by
  unfold next? at h
  split at h
  · exact exists_nothing_of_begin h hstack
  · rw [Option.orElse_eq_orElse, Option.orElse_eq_or] at h
    rcases Option.or_eq_some_iff.1 h with h | ⟨-, h⟩
    · exact exists_nothing_of_close h hstack
    · exact exists_nothing_of_begin h hstack
  · exact absurd hstack (stack_ne_nil_of_beginKey h)
  · rw [Option.orElse_eq_orElse, Option.orElse_eq_or] at h
    rcases Option.or_eq_some_iff.1 h with h | ⟨-, h⟩
    · exact exists_nothing_of_close h hstack
    · exact absurd hstack (stack_ne_nil_of_beginKey h)
  · split at h
    · split at h
      · cases h
      · cases h
        cases hstack
    · cases h
  · exact exists_nothing_of_proceed h hstack
  · cases h

theorem step_eq_ok {s s' : State} {t : Token} : s.step t = .ok s' ↔ s.next? t = some s' := by
  rw [step]
  cases s.next? t with
  | none => simp
  | some s'' => simp

/-- a value is read when it is complete and nothing is left of the text -/
theorem finish_eq_ok {s : State} {fault : Option Fault} {v : Value} :
    s.finish fault = .ok v ↔ s.expects = .nothing v ∧ fault = none := by
  obtain ⟨expects, stack⟩ := s
  cases expects with
  | nothing w => cases fault <;> simp [finish]
  | value | valueOrClose | key | keyOrClose | colon | commaOrClose =>
    cases fault with
    | none => cases stack <;> simp [finish]
    | some f => simp [finish]

/-- tokens that take the reader from one state to another go through a state between any two of them -/
theorem exists_between {s s' : State} {first others : List Token}
    (h : (first ++ others).foldlM step s = .ok s') :
    ∃ m, first.foldlM step s = .ok m ∧ others.foldlM step m = .ok s' := by
  rw [List.foldlM_append] at h
  exact bind_eq_ok.1 h

theorem finish_of_open {s : State} (hexpects : ∀ v, s.expects ≠ .nothing v) (hstack : s.stack ≠ []) :
    s.finish none = .error .truncated := by
  obtain ⟨expects, stack⟩ := s
  have hopen : stack.isEmpty = false := by simpa using hstack
  cases expects with
  | nothing w => exact absurd rfl (hexpects w)
  | value | valueOrClose | key | keyOrClose | colon | commaOrClose => simp [finish, hopen]

/-- between two tokens something is open -/
theorem finish_between {s m s' : State} {first others : List Token} (hfirst : first.foldlM step s = .ok m)
    (hothers : others.foldlM step m = .ok s') (hne : first ≠ []) (hne' : others ≠ []) :
    m.finish none = .error .truncated := by
  have hexpects : ∀ v, m.expects ≠ .nothing v := by
    intro v hv
    obtain ⟨t, ts, rfl⟩ := List.exists_cons_of_ne_nil hne'
    rw [List.foldlM_cons] at hothers
    obtain ⟨m', hstep, -⟩ := bind_eq_ok.1 hothers
    have hnext := step_eq_ok.1 hstep
    unfold next? at hnext
    rw [hv] at hnext
    cases hnext
  have hstack : m.stack ≠ [] := by
    intro hnil
    obtain ⟨ts, t, rfl⟩ := (List.eq_nil_or_concat' first).resolve_left hne
    obtain ⟨m', -, hlast⟩ := exists_between hfirst
    rw [List.foldlM_cons] at hlast
    obtain ⟨m'', hstep, hnone⟩ := bind_eq_ok.1 hlast
    cases hnone
    obtain ⟨v, hv⟩ := exists_nothing_of_next? (step_eq_ok.1 hstep) hnil
    exact hexpects v hv
  exact finish_of_open hexpects hstack

end State

theorem read_eq (text : List UInt8) : read text =
    match (Token.scan text).1.foldlM State.step State.start with
    | .error f => .error f
    | .ok s => s.finish (Token.scan text).2 := rfl

theorem read_eq_ok {text : List UInt8} {v : Value} : read text = .ok v ↔
    ∃ ts s, Scans text ts ∧ ts.foldlM State.step State.start = .ok s ∧ s.expects = .nothing v := by
  rw [read_eq]
  constructor
  · intro h
    split at h
    · cases h
    · next s hfold =>
      obtain ⟨hexpects, hfault⟩ := State.finish_eq_ok.1 h
      exact ⟨_, s, scans_of_scan (Prod.ext rfl hfault), hfold, hexpects⟩
  · rintro ⟨ts, s, hscans, hfold, hexpects⟩
    rw [hscans.scan_eq]
    simp only [hfold]
    exact State.finish_eq_ok.2 ⟨hexpects, rfl⟩

/-- what is read as a value is text -/
theorem exists_encode_of_read {data : List UInt8} {v : Value} (h : read data = .ok v) :
    ∃ text, Utf8.encode text = data := by
  obtain ⟨ts, s, hscans, -, -⟩ := read_eq_ok.1 h
  exact hscans.exists_encode

/-- the last line of a value may be ended -/
theorem read_append_newline {data : List UInt8} {v : Value} (h : read data = .ok v) :
    read (data ++ [octet '\n']) = .ok v := by
  obtain ⟨ts, s, hscans, hfold, hexpects⟩ := read_eq_ok.1 h
  rw [← List.append_nil data] at hscans
  obtain ⟨first, others, rfl, hfirst, hothers⟩ := hscans.append rfl
  have hnil : others = [] := by
    have hscan := hothers.scan_eq
    rw [scan_eq] at hscan
    exact (Prod.mk.inj hscan).1.symm
  rw [hnil, List.append_nil] at hfold
  exact read_eq_ok.2 ⟨first, s, hfirst, hfold, hexpects⟩

/-- the first lines of a value end too early, if there is more than spaces in them and after them -/
theorem read_first_lines {a b : List UInt8} {v : Value} (h : read (a ++ octet '\n' :: b) = .ok v)
    (ha : ∃ x ∈ a, isSpace x = false) (hb : ∃ x ∈ b, isSpace x = false) :
    read (a ++ [octet '\n']) = .error .truncated := by
  obtain ⟨ts, s, hscans, hfold, -⟩ := read_eq_ok.1 h
  obtain ⟨first, others, rfl, hfirst, hothers⟩ := hscans.append rfl
  have hne : first ≠ [] := by
    rintro rfl
    obtain ⟨x, hx, hspace⟩ := ha
    rw [hfirst.isSpace_of_nil x (List.mem_append_left _ hx)] at hspace
    cases hspace
  have hne' : others ≠ [] := by
    rintro rfl
    obtain ⟨x, hx, hspace⟩ := hb
    rw [hothers.isSpace_of_nil x (List.mem_cons_of_mem _ hx)] at hspace
    cases hspace
  obtain ⟨m, hbefore, hafter⟩ := State.exists_between hfold
  rw [read_eq, hfirst.scan_eq]
  simp only [hbefore]
  exact State.finish_between hbefore hafter hne hne'

end LetStack.Json

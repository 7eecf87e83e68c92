/-
A tree that is entered over several lines.

The loop tries to read a tree after each line. As long as lines are missing, the text ends too early, whichever the lines
are, and the loop waits in silence. So a tree may be entered in one line or in many: its code is printed after the last
line, and then the loop is where it started.

Results:
- `waits_of_read`: lines with which a value begins wait;
- `respond_of_decode`: the answer to a tree that compiles;
- `tree_may_be_entered_over_lines`.
-/
import LetStack.Proofs.Episodes
import LetStack.Proofs.JsonLines
import LetStack.Proofs.Nodes
import Mathlib

namespace LetStack

open Octet

/-! ## Blank lines -/

/-- a line that is not blank has an octet that no reader skips -/
theorem exists_not_isSpace {l : String} (h : Text.isBlankText l = false) :
    ∃ b ∈ Utf8.encode l, isSpace b = false := by
  obtain ⟨c, hc, hblank⟩ := List.all_eq_false.1 h
  obtain ⟨b, bs, hoctets, -⟩ := Utf8.exists_encodeChar c
  have hb : b ∈ String.utf8EncodeChar c := hoctets ▸ List.mem_cons_self
  refine ⟨b, List.mem_flatMap.2 ⟨c, hc, hb⟩, ?_⟩
  by_contra hspace
  simp only [isSpace, Bool.not_eq_false, Bool.or_eq_true, beq_iff_eq] at hspace
  rcases hspace with ((rfl | rfl) | rfl) | rfl
  all_goals
    rw [eq_of_octet_mem (by decide) hb] at hblank
    exact absurd rfl hblank

/-! ## The log -/

/-- a tree that compiles leaves nothing in a quiet log -/
theorem Root.log_quiet {r : Root} {p : Program} (h : r.compile = .ok p) (head : String) : r.log head .quiet = "" := by
  have hfaultless : Faultless r.events := r.faultless_events.2 ((r.compile_eq_ok_iff p).1 h).1
  have hquiet : ∀ e ∈ r.events, e.entry? .quiet = none := by
    intro e he
    cases e with
    | enter depth kind detail => rfl
    | finish q => rfl
    | fault f => cases hfaultless _ he
  rw [Root.log, Root.logEntries, hfaultless.untilFault_eq_self, List.filterMap_eq_nil_iff.2 hquiet]
  rfl

namespace Loop

/-! ## Lines -/

theorem entered_eq_intercalate (lines : List String) (last : String) :
    entered (lines ++ [last]) = "\n".intercalate (lines ++ [last]) ++ "\n" := by
  induction lines with
  | nil => simp [entered]
  | cons l lines ih =>
    rw [List.cons_append, entered_cons, ih, String.intercalate_cons_of_ne_nil (by simp)]
    simp only [String.append_assoc]

/-- lines with which a value begins and that are not the last may still be completed -/
theorem isIncomplete_of_read {first others : List String} {v : Value}
    (h : Json.read (Utf8.encode (entered (first ++ others))) = .ok v) (hne : first ≠ []) (hne' : others ≠ [])
    (hblank : ∀ l ∈ first ++ others, Text.isBlankText l = false) : IsIncomplete (entered first) := by
  obtain ⟨ls, l, rfl⟩ := (List.eq_nil_or_concat' first).resolve_left hne
  obtain ⟨m, ms, rfl⟩ := List.exists_cons_of_ne_nil hne'
  have hnewline : Utf8.encode "\n" = [octet '\n'] := rfl
  have hfirst : ∃ x ∈ Utf8.encode (entered ls ++ l), isSpace x = false := by
    obtain ⟨x, hx, hspace⟩ := exists_not_isSpace (hblank l (by simp))
    rw [Utf8.encode_append]
    exact ⟨x, List.mem_append_right _ hx, hspace⟩
  have hothers : ∃ x ∈ Utf8.encode (entered (m :: ms)), isSpace x = false := by
    obtain ⟨x, hx, hspace⟩ := exists_not_isSpace (hblank m (by simp))
    rw [entered_cons, Utf8.encode_append, Utf8.encode_append]
    exact ⟨x, List.mem_append_left _ (List.mem_append_left _ hx), hspace⟩
  rw [entered_append, entered_append_singleton, Utf8.encode_append, Utf8.encode_append, hnewline, List.append_assoc,
    List.singleton_append] at h
  have hread := Json.read_first_lines h hfirst hothers
  rw [← hnewline, ← Utf8.encode_append, ← entered_append_singleton] at hread
  refine ⟨.unreadable .json true, ?_, rfl⟩
  rw [Root.decode, Value.decode, hread]
  rfl

theorem waits_of_read {lines : List String} {last : String} {v : Value}
    (h : Json.read (Utf8.encode (entered (lines ++ [last]))) = .ok v)
    (hblank : ∀ l ∈ lines ++ [last], Text.isBlankText l = false) : Waits lines := by
  refine ⟨fun l hl => hblank l (List.mem_append_left _ hl), ?_⟩
  rintro first ⟨others, rfl⟩ hne
  rw [List.append_assoc] at h hblank
  exact isIncomplete_of_read h hne (by simp) hblank

/-! ## The tree -/

theorem decode_json_eq_ok {data : List UInt8} {r : Root} :
    Root.decode .json data = .ok r ↔ ∃ v, Json.read data = .ok v ∧ Root.ofValue v = .ok r := by
  rw [Root.decode_eq_ok]
  refine exists_congr fun v => and_congr_left fun _ => ?_
  rw [Value.decode]
  cases Json.read data <;> simp

/-- the answer to a tree that compiles, whether more might come or not -/
theorem respond_of_decode {text : String} {r : Root} {p : Program}
    (hdecode : Root.decode .json (Utf8.encode text) = .ok r) (hcompile : r.compile = .ok p) (log : Logging)
    (final : Bool) :
    respond log text final = ⟨true, ⟨p.listing ++ "\n", r.log log.head log.verbosity⟩, none⟩ := by
  simp only [respond, hdecode, hcompile]

/-- Let a tree be read from JSON and compile. What it is read from is a text. Cut at ends of lines in any way that leaves
no part blank, it is entered part by part as one line after another: the loop writes nothing until the last one, and
then the code of the tree, which ends the line; nothing is pending then, and all that follows is answered as if the loop
had just started. Without tracing there is no log. -/
theorem tree_may_be_entered_over_lines (log : Logging) {data : List UInt8} {r : Root} {p : Program}
    (hdecode : Root.decode .json data = .ok r) (hcompile : r.compile = .ok p) :
    (∃ text, Utf8.encode text = data) ∧
    (log.verbosity = .quiet → r.log log.head log.verbosity = "") ∧
    ∀ (lines : List String) (last : String), Utf8.encode ("\n".intercalate (lines ++ [last])) = data →
      (∀ l ∈ lines ++ [last], Text.isBlankText l = false) →
      pendingAfter log "" ((lines ++ [last]).map .line) = "" ∧
      ∀ rest, run log "" "" ((lines ++ [last]).map .line ++ rest) =
        (List.replicate lines.length .none ++
          ⟨p.listing ++ "\n", r.log log.head log.verbosity⟩ :: (run log "" "" rest).1, (run log "" "" rest).2) := by
  obtain ⟨v, hread, hofValue⟩ := decode_json_eq_ok.1 hdecode
  refine ⟨Json.exists_encode_of_read hread, ?_, ?_⟩
  · intro hquiet
    rw [hquiet]
    exact Root.log_quiet hcompile log.head
  rintro lines last rfl hblank
  have hended : Json.read (Utf8.encode (entered (lines ++ [last]))) = .ok v := by
    rw [entered_eq_intercalate, Utf8.encode_append]
    exact Json.read_append_newline hread
  have hanswer : Episode.answer log lines last = ⟨true, ⟨p.listing ++ "\n", r.log log.head log.verbosity⟩, none⟩ :=
    respond_of_decode (decode_json_eq_ok.2 ⟨v, hended, hofValue⟩) hcompile log _
  have hlast : Text.isBlankText last = false := hblank last (by simp)
  have hvalid : (Episode.answered lines last).IsValid log :=
    ⟨waits_of_read hended hblank, fun _ => hlast, by rw [hanswer]⟩
  have hinputs : (Episode.answered lines last).inputs = (lines ++ [last]).map .line := by
    simp [Episode.inputs, Episode.lines, Episode.last]
  refine ⟨?_, ?_⟩
  · rw [← hinputs]
    exact hvalid.pendingAfter_eq
  · intro rest
    have hfault : (Episode.answered lines last).fault log = none := by rw [Episode.fault, hanswer]
    have hrun := hvalid.run_eq hfault rest
    rwa [hinputs, Episode.lines, Episode.output, hanswer] at hrun

/-- a program that is a number -/
def fiveTree : Root := .bare (.literal ⟨0, 0⟩ (.int 5))

def fiveValue : Value :=
  .ofMembers [("kind", .string "prog"), ("body", .ofMembers [("kind", .string "int"), ("value", .ofInt64 5)])]

/-- all lines but the last of the text that is written for `fiveTree` -/
def fiveLines : List String :=
  ["\x7b", "  \"body\": \x7b", "    \"kind\": \"int\",", "    \"value\": 5", "  \x7d,", "  \"kind\": \"prog\""]

theorem fiveLines_are_answered_at_the_end :
    Root.decode .json (Utf8.encode ("\n".intercalate (fiveLines ++ ["\x7d"]))) = .ok fiveTree ∧
    run ⟨"", .quiet⟩ "" "" ((fiveLines ++ ["\x7d"]).map .line) =
      (List.replicate 6 .none ++ [⟨"push 5\nhalt\n", ""⟩, ⟨"\n", ""⟩], none) := by
  have hplain : fiveValue.IsPlain := by
    refine Value.isPlain_ofMembers (List.forall_mem_cons.2 ⟨.string, List.forall_mem_singleton.2 ?_⟩)
    refine Value.isPlain_ofMembers (List.forall_mem_cons.2 ⟨.string, List.forall_mem_singleton.2 ?_⟩)
    exact Value.isPlain_ofInt64 5
  have hread : Root.ofValue fiveValue = .ok fiveTree := by cbv
  have hwritten : "\n".intercalate (fiveLines ++ ["\x7d"]) = Json.write 0 fiveValue := by decide +kernel
  have hdecode : Root.decode .json (Utf8.encode ("\n".intercalate (fiveLines ++ ["\x7d"]))) = .ok fiveTree := by
    rw [hwritten]
    exact decode_json_eq_ok.2 ⟨fiveValue, Json.read_write hplain 0, hread⟩
  obtain ⟨p, hcompile, hlisting⟩ : ∃ p, fiveTree.compile = .ok p ∧ p.listing = "push 5\nhalt" :=
    ⟨_, rfl, by decide +kernel⟩
  obtain ⟨-, hquiet, hlines⟩ := tree_may_be_entered_over_lines ⟨"", .quiet⟩ hdecode hcompile
  obtain ⟨-, hrun⟩ := hlines fiveLines "\x7d" rfl (by decide +kernel)
  refine ⟨hdecode, ?_⟩
  have hall := hrun []
  rw [List.append_nil, hquiet rfl, hlisting] at hall
  exact hall

end Loop

end LetStack

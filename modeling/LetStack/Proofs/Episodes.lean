/-
The inputs of the loop fall into episodes.

An episode starts and ends with nothing pending, and something is pending all the time between. It is a blank line that
is skipped, lines that are answered together, or lines that an interrupt drops. Lines that are pending at the end of the
input are answered then, whatever they are. So no line is lost, none is answered twice, and what the loop writes for an
episode does not depend on what came before it.

Results:
- `Waits.step_line_cases`: what one line does to the lines that wait;
- `exists_waits_pendingAfter`: what is pending are the last lines entered, none blank, and they may still be completed;
- `IsSplit.unique`: an episode ends where nothing is pending for the first time, so there is one way to split the inputs;
- `run_episodes`: what the loop writes is what it writes for each episode;
- `every_input_belongs_to_one_episode`.
-/
import LetStack.Loop
import Mathlib.Data.List.Induction
import Mathlib.Logic.ExistsUnique
import Mathlib.Tactic.Common

namespace LetStack.Loop

/-! ## Outputs -/

namespace Output

@[simp]
theorem none_append (o : Output) : Output.none ++ o = o := by
  change Output.mk ("" ++ o.out) ("" ++ o.err) = o
  simp

@[simp]
theorem append_none (o : Output) : o ++ Output.none = o := by
  change Output.mk (o.out ++ "") (o.err ++ "") = o
  simp

theorem append_assoc (a b c : Output) : a ++ b ++ c = a ++ (b ++ c) := by
  change Output.mk (a.out ++ b.out ++ c.out) (a.err ++ b.err ++ c.err)
    = Output.mk (a.out ++ (b.out ++ c.out)) (a.err ++ (b.err ++ c.err))
  simp only [String.append_assoc]

/-- all that is written, in order -/
def concat (outputs : List Output) : Output := outputs.foldr (· ++ ·) .none

@[simp]
theorem concat_nil : concat [] = .none := rfl

@[simp]
theorem concat_cons (o : Output) (os : List Output) : concat (o :: os) = o ++ concat os := rfl

@[simp]
theorem concat_append (as bs : List Output) : concat (as ++ bs) = concat as ++ concat bs := by
  induction as with
  | nil => simp
  | cons a as ih => rw [List.cons_append, concat_cons, ih, concat_cons, append_assoc]

@[simp]
theorem concat_replicate_none (n : Nat) : concat (List.replicate n .none) = .none := by
  induction n with
  | zero => rfl
  | succ n ih => rw [List.replicate_succ, concat_cons, ih, append_none]

end Output

/-! ## Texts that wait -/

/-- lines, each with its end -/
def entered (lines : List String) : String := String.join (lines.map (· ++ "\n"))

@[simp]
theorem entered_nil : entered [] = "" := rfl

theorem entered_cons (l : String) (lines : List String) : entered (l :: lines) = l ++ "\n" ++ entered lines := by
  simp [entered]

theorem entered_append (as bs : List String) : entered (as ++ bs) = entered as ++ entered bs := by
  simp [entered]

theorem entered_append_singleton (lines : List String) (l : String) :
    entered (lines ++ [l]) = entered lines ++ l ++ "\n" := by
  rw [entered_append, entered_cons, entered_nil, String.append_empty, String.append_assoc]

theorem entered_eq_empty_iff {lines : List String} : entered lines = "" ↔ lines = [] := by
  constructor
  · intro h
    cases lines with
    | nil => rfl
    | cons l ls =>
      have hlist := congrArg String.toList h
      simp [entered_cons] at hlist
  · rintro rfl
    rfl

theorem isBlankText_entered (lines : List String) :
    Text.isBlankText (entered lines) = lines.all Text.isBlankText := by
  have hnewline : Text.isBlank '\n' = true := by decide
  induction lines with
  | nil => rfl
  | cons l ls ih =>
    simp only [Text.isBlankText, entered_cons, String.toList_append, List.all_append, List.all_cons] at ih ⊢
    rw [ih]
    simp [hnewline]

/-- is the text refused as one that may still be completed? -/
def IsIncomplete (text : String) : Prop :=
  ∃ failure, Root.decode .json (Utf8.encode text) = .error failure ∧ failure.isIncomplete = true

theorem respond_of_isIncomplete {text : String} (h : IsIncomplete text) (log : Logging) :
    respond log text false = ⟨false, .none, none⟩ := by
  obtain ⟨failure, hdecode, hincomplete⟩ := h
  simp [respond, hdecode, hincomplete]

theorem consumed_eq_false_iff {log : Logging} {text : String} {final : Bool} :
    (respond log text final).consumed = false ↔ final = false ∧ IsIncomplete text := by
  constructor
  · intro h
    rw [respond] at h
    split at h
    · next failure hdecode =>
      split at h
      · next hwait =>
        simp only [Bool.and_eq_true, Bool.not_eq_true'] at hwait
        exact ⟨hwait.1, failure, hdecode, hwait.2⟩
      · cases h
    · split at h <;> cases h
  · rintro ⟨rfl, h⟩
    rw [respond_of_isIncomplete h]

/-- lines that the loop keeps: none is blank, and after each of them the text may still be completed -/
structure Waits (lines : List String) : Prop where
  nonblank : ∀ l ∈ lines, Text.isBlankText l = false
  incomplete : ∀ first, first <+: lines → first ≠ [] → IsIncomplete (entered first)

namespace Waits

theorem nil : Waits [] := by
  refine ⟨by simp, ?_⟩
  intro first hfirst hne
  exact absurd (List.prefix_nil.1 hfirst) hne

theorem of_le {first lines : List String} (h : Waits lines) (hfirst : first <+: lines) : Waits first := by
  refine ⟨?_, ?_⟩
  · intro l hl
    exact h.nonblank l (hfirst.subset hl)
  · intro before hbefore hne
    exact h.incomplete before (hbefore.trans hfirst) hne

theorem append_singleton {lines : List String} {l : String} (h : Waits lines) (hl : Text.isBlankText l = false)
    (hincomplete : IsIncomplete (entered (lines ++ [l]))) : Waits (lines ++ [l]) := by
  refine ⟨?_, ?_⟩
  · intro m hm
    rcases List.mem_append.1 hm with hm | hm
    · exact h.nonblank m hm
    · rw [List.mem_singleton.1 hm]
      exact hl
  · intro first hfirst hne
    rcases List.prefix_concat_iff.1 hfirst with rfl | hfirst
    · exact hincomplete
    · exact h.incomplete first hfirst hne

end Waits

theorem map_line_inj {as bs : List String} (h : as.map Input.line = bs.map Input.line) : as = bs :=
  (List.map_inj_right fun _ _ hxy => Input.line.inj hxy).1 h

/-! ## Episodes -/

/-- inputs between two moments at which nothing is pending -/
inductive Episode where
  /-- a blank line when nothing is pending -/
  | skipped (line : String)
  /-- lines that wait, and the line with which they are answered -/
  | answered (lines : List String) (line : String)
  /-- lines that wait until an interrupt drops them -/
  | dropped (lines : List String)
deriving DecidableEq

namespace Episode

/-- the lines that wait -/
def lines : Episode → List String
  | .skipped _ => []
  | .answered lines _ => lines
  | .dropped lines => lines

/-- the input after which nothing is pending -/
def last : Episode → Input
  | .skipped line => .line line
  | .answered _ line => .line line
  | .dropped _ => .interrupt

def inputs (e : Episode) : List Input := e.lines.map .line ++ [e.last]

/-- the one answer to the text of all lines. It is the final one if the last line is blank. -/
def answer (log : Logging) (lines : List String) (line : String) : Reply :=
  respond log (entered (lines ++ [line])) (Text.isBlankText line)

def output (log : Logging) : Episode → Output
  | .skipped _ => .none
  | .answered lines line => (answer log lines line).output
  | .dropped _ => ⟨"Interrupt\n", ""⟩

/-- the fault that the episode ends in, if it does -/
def fault (log : Logging) : Episode → Option Fault
  | .answered lines line => (answer log lines line).fault
  | .skipped _ | .dropped _ => none

/-- is this what the loop does with these inputs? -/
def IsValid (log : Logging) : Episode → Prop
  | .skipped line => Text.isBlankText line = true
  | .answered lines line =>
    Waits lines ∧ (lines = [] → Text.isBlankText line = false) ∧ (answer log lines line).consumed = true
  | .dropped lines => Waits lines

variable {log : Logging} {e e' : Episode}

theorem IsValid.waits (h : e.IsValid log) : Waits e.lines := by
  cases e with
  | skipped line => exact Waits.nil
  | answered lines line => exact h.1
  | dropped lines => exact h

/-- an episode is known by its inputs: only the blank line tells the first two kinds apart -/
theorem IsValid.eq_of_inputs_eq (h : e.IsValid log) (h' : e'.IsValid log) (heq : e.inputs = e'.inputs) : e = e' := by
  obtain ⟨hmap, hlast⟩ := List.append_inj' heq rfl
  have hlines : e.lines = e'.lines := map_line_inj hmap
  cases e <;> cases e' <;> simp only [lines, last, List.cons.injEq, Input.line.injEq, reduceCtorEq, and_true] at hlines hlast
  case skipped.skipped => rw [hlast]
  case skipped.answered line ls m =>
    have hblank := h'.2.1 hlines.symm
    rw [← hlast] at hblank
    exact absurd h (by rw [IsValid, hblank]; exact Bool.false_ne_true)
  case answered.skipped ls m line =>
    have hblank := h.2.1 hlines
    rw [hlast] at hblank
    exact absurd h' (by rw [IsValid, hblank]; exact Bool.false_ne_true)
  case answered.answered => rw [hlines, hlast]
  case dropped.dropped => rw [hlines]

end Episode

/-! ## One line -/

/-- with lines that wait, a line is skipped, or they are answered with it, or it waits with them -/
theorem Waits.step_line_cases {lines : List String} (h : Waits lines) (log : Logging) (l : String) :
    (lines = [] ∧ Text.isBlankText l = true) ∨
    (Episode.answered lines l).IsValid log ∨
    Waits (lines ++ [l]) := by
  by_cases hskip : lines = [] ∧ Text.isBlankText l = true
  · exact .inl hskip
  refine .inr ?_
  by_cases hconsumed : (Episode.answer log lines l).consumed = true
  · left
    refine ⟨h, ?_, hconsumed⟩
    intro hnil
    exact Bool.eq_false_iff.2 fun hblank => hskip ⟨hnil, hblank⟩
  · right
    obtain ⟨hl, hincomplete⟩ := consumed_eq_false_iff.1 (Bool.eq_false_iff.2 hconsumed)
    exact h.append_singleton hl hincomplete

theorem step_line_of_not_skipped {lines : List String} {l : String}
    (h : lines = [] → Text.isBlankText l = false) (log : Logging) :
    step log (entered lines) (.line l) =
      ⟨if (Episode.answer log lines l).consumed then "" else entered (lines ++ [l]),
        (Episode.answer log lines l).output, (Episode.answer log lines l).fault⟩ := by
  have hskip : (Text.isBlankText l && (entered lines).isEmpty) = false := by
    by_cases hnil : lines = []
    · rw [h hnil, Bool.false_and]
    · rw [String.isEmpty_eq_false_iff.2 (mt entered_eq_empty_iff.1 hnil), Bool.and_false]
  rw [step, hskip, Episode.answer, entered_append_singleton]
  rfl

/-- a line that waits -/
theorem Waits.step_line {lines : List String} {l : String} (h : Waits (lines ++ [l])) (log : Logging) :
    step log (entered lines) (.line l) = ⟨entered (lines ++ [l]), .none, none⟩ := by
  have hl : Text.isBlankText l = false := h.nonblank l (by simp)
  have hanswer : Episode.answer log lines l = ⟨false, .none, none⟩ := by
    rw [Episode.answer, hl]
    exact respond_of_isIncomplete (h.incomplete _ (List.prefix_refl _) (by simp)) log
  rw [step_line_of_not_skipped (fun _ => hl), hanswer]
  rfl

/-- the input that ends an episode -/
theorem Episode.IsValid.step_last {log : Logging} {e : Episode} (h : e.IsValid log) :
    step log (entered e.lines) e.last = ⟨"", e.output log, e.fault log⟩ := by
  cases e with
  | skipped line =>
    have hblank : Text.isBlankText line = true := h
    simp [Episode.lines, Episode.last, Episode.output, Episode.fault, step, hblank]
  | answered lines line =>
    rw [Episode.lines, Episode.last, step_line_of_not_skipped h.2.1, if_pos h.2.2]
    rfl
  | dropped lines => rfl

/-- a blank line and an interrupt leave nothing pending, whatever was -/
theorem step_pending_of_blank (log : Logging) (pending l : String) (h : Text.isBlankText l = true) :
    (step log pending (.line l)).pending = "" := by
  rw [step]
  by_cases hempty : pending.isEmpty = true
  · simp [h, hempty]
  · have hconsumed : (respond log (pending ++ l ++ "\n") true).consumed = true := by
      by_contra hc
      exact Bool.noConfusion (consumed_eq_false_iff.1 (Bool.eq_false_iff.2 hc)).1
    simp [h, hempty, hconsumed]

/-! ## What is pending -/

/-- what is pending after these inputs -/
def pendingAfter (log : Logging) (pending : String) (inputs : List Input) : String :=
  inputs.foldl (fun pending input => (step log pending input).pending) pending

theorem pendingAfter_append (log : Logging) (pending : String) (xs ys : List Input) :
    pendingAfter log pending (xs ++ ys) = pendingAfter log (pendingAfter log pending xs) ys :=
  List.foldl_append

theorem pendingAfter_append_singleton (log : Logging) (pending : String) (xs : List Input) (x : Input) :
    pendingAfter log pending (xs ++ [x]) = (step log (pendingAfter log pending xs) x).pending := by
  rw [pendingAfter_append]
  rfl

theorem Waits.pendingAfter_eq {lines : List String} (h : Waits lines) (log : Logging) :
    pendingAfter log "" (lines.map .line) = entered lines := by
  induction lines using List.reverseRecOn with
  | nil => rfl
  | append_singleton lines l ih =>
    rw [List.map_append, List.map_singleton, pendingAfter_append_singleton, ih (h.of_le (List.prefix_append _ _)),
      h.step_line log]

theorem Episode.IsValid.pendingAfter_eq {log : Logging} {e : Episode} (h : e.IsValid log) :
    pendingAfter log "" e.inputs = "" := by
  rw [Episode.inputs, pendingAfter_append_singleton, h.waits.pendingAfter_eq, h.step_last]

/-- what is pending are the last lines entered -/
theorem exists_waits_pendingAfter (log : Logging) (inputs : List Input) :
    ∃ earlier lines, inputs = earlier ++ lines.map .line ∧ Waits lines ∧ pendingAfter log "" inputs = entered lines := by
  induction inputs using List.reverseRecOn with
  | nil => exact ⟨[], [], rfl, Waits.nil, rfl⟩
  | append_singleton inputs x ih =>
    obtain ⟨earlier, lines, rfl, hwaits, hpending⟩ := ih
    have hstep := pendingAfter_append_singleton log "" (earlier ++ lines.map .line) x
    rw [hpending] at hstep
    cases x with
    | interrupt => exact ⟨_, [], (List.append_nil _).symm, Waits.nil, hstep⟩
    | line l =>
      rcases hwaits.step_line_cases log l with ⟨rfl, hblank⟩ | hvalid | hlonger
      · rw [step_pending_of_blank log _ l hblank] at hstep
        exact ⟨_, [], (List.append_nil _).symm, Waits.nil, hstep⟩
      · have hlast := hvalid.step_last
        rw [Episode.lines, Episode.last] at hlast
        rw [hlast] at hstep
        exact ⟨_, [], (List.append_nil _).symm, Waits.nil, hstep⟩
      · rw [hlonger.step_line log] at hstep
        exact ⟨earlier, lines ++ [l], by simp, hlonger, hstep⟩

/-! ## The split -/

/-- the inputs as episodes, and lines that are pending at the end -/
structure IsSplit (log : Logging) (inputs : List Input) (split : List Episode × List String) : Prop where
  inputs_eq : split.1.flatMap Episode.inputs ++ split.2.map .line = inputs
  valid : ∀ e ∈ split.1, e.IsValid log
  waits : Waits split.2

/-- one more episode in front -/
theorem IsSplit.cons {log : Logging} {inputs : List Input} {split : List Episode × List String} {e : Episode}
    (h : IsSplit log inputs split) (he : e.IsValid log) : IsSplit log (e.inputs ++ inputs) (e :: split.1, split.2) := by
  refine ⟨?_, ?_, h.waits⟩
  · rw [List.flatMap_cons, List.append_assoc, h.inputs_eq]
  · intro x hx
    rcases List.mem_cons.1 hx with rfl | hx
    · exact he
    · exact h.valid x hx

/-- splits the inputs after lines that wait already -/
theorem exists_isSplit (log : Logging) (lines : List String) (h : Waits lines) (inputs : List Input) :
    ∃ split, IsSplit log (lines.map .line ++ inputs) split := by
  induction inputs generalizing lines with
  | nil => exact ⟨([], lines), by simp, by simp, h⟩
  | cons x inputs ih =>
    -- the episode that `x` ends, and a split of what follows it
    have hends : ∀ e : Episode, e.IsValid log → e.lines = lines → e.last = x →
        ∃ split, IsSplit log (lines.map .line ++ x :: inputs) split := by
      rintro e he rfl rfl
      obtain ⟨split, hsplit⟩ := ih [] Waits.nil
      have hcons := hsplit.cons he
      rw [Episode.inputs, List.append_assoc] at hcons
      exact ⟨_, hcons⟩
    cases x with
    | interrupt => exact hends (.dropped lines) h rfl rfl
    | line l =>
      rcases h.step_line_cases log l with ⟨rfl, hblank⟩ | hvalid | hlonger
      · exact hends (.skipped l) hblank rfl rfl
      · exact hends (.answered lines l) hvalid rfl rfl
      · obtain ⟨split, hsplit⟩ := ih (lines ++ [l]) hlonger
        rw [List.map_append, List.append_assoc] at hsplit
        exact ⟨split, hsplit⟩

/-- as long as lines wait, no episode has ended -/
theorem Waits.not_ended {log : Logging} {lines : List String} {e : Episode} (h : Waits lines)
    (he : e.IsValid log) : ¬ e.inputs <+: lines.map .line := by
  intro hle
  obtain ⟨first, hfirst, heq⟩ := List.prefix_map_iff.1 hle
  have hpending := he.pendingAfter_eq
  rw [heq, (h.of_le hfirst).pendingAfter_eq] at hpending
  rw [entered_eq_empty_iff.1 hpending, Episode.inputs] at heq
  simp at heq

/-- an episode ends where nothing is pending for the first time, so none is the beginning of another -/
theorem Episode.IsValid.inputs_eq_of_le {log : Logging} {e e' : Episode} (h : e.IsValid log) (h' : e'.IsValid log)
    (hle : e.inputs <+: e'.inputs) : e.inputs = e'.inputs := by
  rw [Episode.inputs.eq_def e'] at hle ⊢
  rcases List.prefix_concat_iff.1 hle with heq | hshorter
  · exact heq
  · exact absurd hshorter (h'.waits.not_ended h)

theorem Episode.IsValid.eq_of_append_eq {log : Logging} {e e' : Episode} {xs ys : List Input} (h : e.IsValid log)
    (h' : e'.IsValid log) (heq : e.inputs ++ xs = e'.inputs ++ ys) : e = e' ∧ xs = ys := by
  have hinputs : e.inputs = e'.inputs := by
    rcases List.prefix_or_prefix_of_prefix (List.prefix_append e.inputs xs) ⟨ys, heq.symm⟩ with hle | hle
    · exact h.inputs_eq_of_le h' hle
    · exact (h'.inputs_eq_of_le h hle).symm
  refine ⟨h.eq_of_inputs_eq h' hinputs, ?_⟩
  rw [hinputs] at heq
  exact List.append_cancel_left heq

theorem IsSplit.unique {log : Logging} {inputs : List Input} {a b : List Episode × List String}
    (ha : IsSplit log inputs a) (hb : IsSplit log inputs b) : a = b := by
  obtain ⟨as, ls⟩ := a
  obtain ⟨bs, ms⟩ := b
  have heq := ha.inputs_eq.trans hb.inputs_eq.symm
  have hvalid := ha.valid
  have hvalid' := hb.valid
  have hls := ha.waits
  have hms := hb.waits
  clear ha hb
  dsimp only at heq hvalid hvalid' hls hms
  induction as generalizing bs with
  | nil =>
    cases bs with
    | nil =>
      rw [map_line_inj heq]
    | cons b bs =>
      have hb := hvalid' b List.mem_cons_self
      refine absurd ?_ (hls.not_ended hb)
      exact ⟨bs.flatMap Episode.inputs ++ ms.map .line, by simpa using heq.symm⟩
  | cons a as ih =>
    have ha := hvalid a List.mem_cons_self
    cases bs with
    | nil =>
      refine absurd ?_ (hms.not_ended ha)
      exact ⟨as.flatMap Episode.inputs ++ ls.map .line, by simpa using heq⟩
    | cons b bs =>
      have hb := hvalid' b List.mem_cons_self
      simp only [List.flatMap_cons, List.append_assoc] at heq
      obtain ⟨rfl, hrest⟩ := ha.eq_of_append_eq hb heq
      have htail := ih bs hrest (fun e he => hvalid e (List.mem_cons_of_mem _ he))
        (fun e he => hvalid' e (List.mem_cons_of_mem _ he))
      rw [Prod.mk.injEq] at htail ⊢
      exact ⟨congrArg (a :: ·) htail.1, htail.2⟩

/-! ## What is written -/

/-- the inputs, with a last line that has no end -/
def withLast (inputs : List Input) (last : String) : List Input :=
  inputs ++ if last.isEmpty then [] else [.line last]

theorem run_nil (log : Logging) (pending last : String) :
    run log pending last [] = ([(finishAfter log pending last).1], (finishAfter log pending last).2) := rfl

theorem run_cons (log : Logging) (pending last : String) (x : Input) (inputs : List Input) :
    run log pending last (x :: inputs) =
      match (step log pending x).fault with
      | some f => ([(step log pending x).output], some f)
      | none => ((step log pending x).output :: (run log (step log pending x).pending last inputs).1,
          (run log (step log pending x).pending last inputs).2) := rfl

/-- a last line without its end is answered as if it had one -/
theorem run_withLast (log : Logging) (pending last : String) (inputs : List Input) :
    Output.concat (run log pending "" (withLast inputs last)).1 = Output.concat (run log pending last inputs).1 ∧
    (run log pending "" (withLast inputs last)).2 = (run log pending last inputs).2 := by
  induction inputs generalizing pending with
  | nil =>
    by_cases hlast : last.isEmpty = true
    · rw [String.isEmpty_iff.1 hlast]
      exact ⟨rfl, rfl⟩
    · have hwith : withLast [] last = [.line last] := by simp [withLast, hlast]
      rw [hwith, run_cons, run_nil, run_nil]
      cases hfault : (step log pending (.line last)).fault with
      | none => simp [finishAfter, hlast, hfault]
      | some f => simp [finishAfter, hlast, hfault]
  | cons x inputs ih =>
    have hcons : withLast (x :: inputs) last = x :: withLast inputs last := rfl
    rw [hcons, run_cons, run_cons]
    rcases (step log pending x).fault with _ | f
    · obtain ⟨hconcat, hfault⟩ := ih (step log pending x).pending
      exact ⟨by simp only [Output.concat_cons, hconcat], hfault⟩
    · exact ⟨rfl, rfl⟩

/-- for lines that wait nothing is written -/
theorem Waits.run_eq {lines : List String} (h : Waits lines) (log : Logging) (rest : List Input) :
    run log "" "" (lines.map .line ++ rest) =
      (List.replicate lines.length .none ++ (run log (entered lines) "" rest).1, (run log (entered lines) "" rest).2) := by
  induction lines using List.reverseRecOn generalizing rest with
  | nil => rfl
  | append_singleton lines l ih =>
    rw [List.map_append, List.append_assoc, ih (h.of_le (List.prefix_append _ _)), List.map_singleton,
      List.singleton_append, run_cons, h.step_line log, List.length_append, List.length_singleton, List.replicate_succ',
      List.append_assoc]
    rfl

theorem Episode.IsValid.run_eq {log : Logging} {e : Episode} (h : e.IsValid log) (hfault : e.fault log = none)
    (rest : List Input) :
    run log "" "" (e.inputs ++ rest) =
      (List.replicate e.lines.length .none ++ e.output log :: (run log "" "" rest).1, (run log "" "" rest).2) := by
  rw [Episode.inputs, List.append_assoc, h.waits.run_eq, List.singleton_append, run_cons, h.step_last, hfault]

/-- a fault ends the loop -/
theorem Episode.IsValid.fault_eq_none {log : Logging} {e : Episode} (h : e.IsValid log) {rest : List Input}
    (hrun : (run log "" "" (e.inputs ++ rest)).2 = none) : e.fault log = none := by
  rw [Episode.inputs, List.append_assoc, h.waits.run_eq, List.singleton_append, run_cons, h.step_last] at hrun
  cases hfault : e.fault log with
  | none => rfl
  | some f =>
    rw [hfault] at hrun
    cases hrun

/-- without a fault, each episode adds its output -/
theorem run_episodes {log : Logging} {episodes : List Episode} {rest : List Input}
    (hvalid : ∀ e ∈ episodes, e.IsValid log)
    (hrun : (run log "" "" (episodes.flatMap Episode.inputs ++ rest)).2 = none) :
    (∀ e ∈ episodes, e.fault log = none) ∧
    (run log "" "" rest).2 = none ∧
    Output.concat (run log "" "" (episodes.flatMap Episode.inputs ++ rest)).1 =
      Output.concat (episodes.map (Episode.output log)) ++ Output.concat (run log "" "" rest).1 := by
  induction episodes with
  | nil => exact ⟨by simp, hrun, by simp⟩
  | cons e es ih =>
    rw [List.flatMap_cons, List.append_assoc] at hrun ⊢
    have he := hvalid e List.mem_cons_self
    have hfault := he.fault_eq_none hrun
    rw [he.run_eq hfault] at hrun ⊢
    obtain ⟨hfaults, hrest, hconcat⟩ := ih (fun x hx => hvalid x (List.mem_cons_of_mem _ hx)) hrun
    refine ⟨?_, hrest, ?_⟩
    · intro x hx
      rcases List.mem_cons.1 hx with rfl | hx
      · exact hfault
      · exact hfaults x hx
    · simp [hconcat, Output.append_assoc]

/-- what is written at the end: the answer to the lines that still wait, final now, then the end of the line -/
def closing (log : Logging) (lines : List String) : Output :=
  (if lines = [] then .none else (respond log (entered lines) true).output) ++ ⟨"\n", ""⟩

theorem Waits.finish_eq {lines : List String} (h : Waits lines) {log : Logging}
    (hfault : (finish log (entered lines)).2 = none) : finish log (entered lines) = (closing log lines, none) := by
  cases lines with
  | nil => rfl
  | cons l ls =>
    have hblank : Text.isBlankText (entered (l :: ls)) = false := by
      rw [isBlankText_entered, List.all_cons, h.nonblank l List.mem_cons_self, Bool.false_and]
    rw [finish, hblank] at hfault ⊢
    cases hreply : (respond log (entered (l :: ls)) true).fault with
    | none => simp [closing, hreply]
    | some f => simp [hreply] at hfault

/-- Let the loop take lines and interrupts until the input ends, with no fault on the way. At each moment the lines that
were entered last are pending, none of them blank, and their text is refused as one that may still be completed; a blank
line and an interrupt leave nothing pending. The inputs are in one way only a sequence of episodes followed by lines
that wait. All that is written is what the episodes write and then the one final answer to these lines, and the loop
writes the same for each of them when it has just started. -/
theorem every_input_belongs_to_one_episode (log : Logging) (inputs : List Input) (last : String)
    (h : (run log "" last inputs).2 = none) :
    (∀ before, before <+: withLast inputs last →
      ∃ earlier lines, before = earlier ++ lines.map .line ∧
        pendingAfter log "" before = entered lines ∧
        (∀ l ∈ lines, Text.isBlankText l = false) ∧
        (lines ≠ [] → IsIncomplete (entered lines))) ∧
    (∀ pending, (step log pending .interrupt).pending = "" ∧
      ∀ l, Text.isBlankText l = true → (step log pending (.line l)).pending = "") ∧
    (∃! split, IsSplit log (withLast inputs last) split) ∧
    ∀ episodes lines, IsSplit log (withLast inputs last) (episodes, lines) →
      Output.concat (run log "" last inputs).1 =
        Output.concat (episodes.map (Episode.output log)) ++ closing log lines ∧
      (∀ e ∈ episodes, run log "" "" e.inputs =
        (List.replicate e.lines.length .none ++ [e.output log, closing log []], none)) ∧
      run log "" "" (lines.map .line) = (List.replicate lines.length .none ++ [closing log lines], none) := by
  refine ⟨?_, ?_, ?_, ?_⟩
  · intro before _
    obtain ⟨earlier, lines, heq, hwaits, hpending⟩ := exists_waits_pendingAfter log before
    exact ⟨earlier, lines, heq, hpending, hwaits.nonblank, hwaits.incomplete lines (List.prefix_refl lines)⟩
  · intro pending
    exact ⟨rfl, step_pending_of_blank log pending⟩
  · obtain ⟨split, hsplit⟩ := exists_isSplit log [] Waits.nil (withLast inputs last)
    exact ⟨split, hsplit, fun other hother => IsSplit.unique hother hsplit⟩
  · intro episodes lines hsplit
    obtain ⟨hconcat, hfault⟩ := run_withLast log "" last inputs
    rw [h, ← hsplit.inputs_eq] at hfault
    rw [← hconcat, ← hsplit.inputs_eq]
    obtain ⟨hfaults, hrest, houtput⟩ := run_episodes hsplit.valid hfault
    have hlines := hsplit.waits.run_eq log []
    rw [List.append_nil] at hlines
    rw [hlines] at hrest
    have hfinish : run log (entered lines) "" [] = ([closing log lines], none) := by
      have heq : finish log (entered lines) = (closing log lines, none) := hsplit.waits.finish_eq hrest
      rw [run_nil, finishAfter, if_pos (by simp), heq]
    rw [hfinish] at hlines
    refine ⟨?_, ?_, hlines⟩
    · rw [houtput, hlines]
      simp
    · intro e he
      have hrun := (hsplit.valid e he).run_eq (hfaults e he) []
      rw [List.append_nil] at hrun
      exact hrun

/-- a blank line, an object that is left open before a blank line, a list that is dropped -/
def session : List Input := [.line " ", .line "\x7b", .line "", .line "[", .interrupt]

/-- the episodes of `session` when its input ends within another object -/
theorem session_episodes :
    (run ⟨"", .quiet⟩ "" "\x7b" session).2 = none ∧
    IsSplit ⟨"", .quiet⟩ (withLast session "\x7b")
      ([.skipped " ", .answered ["\x7b"] "", .dropped ["["]], ["\x7b"]) ∧
    (∃! split, IsSplit ⟨"", .quiet⟩ (withLast session "\x7b") split) ∧
    Output.concat (run ⟨"", .quiet⟩ "" "\x7b" session).1 =
      ⟨"Interrupt\n\n", "decoding json: <syntax>\ndecoding json: <syntax>\n"⟩ := by
  have hfault : (run ⟨"", .quiet⟩ "" "\x7b" session).2 = none := by decide +kernel
  have hwaits : ∀ l, Text.isBlankText l = false → (respond ⟨"", .quiet⟩ (entered [l]) false).consumed = false →
      Waits [l] := fun l hl h => Waits.nil.append_singleton hl (consumed_eq_false_iff.1 h).2
  have hobject : Waits ["\x7b"] := hwaits _ (by decide) (by decide +kernel)
  have hlist : Waits ["["] := hwaits _ (by decide) (by decide +kernel)
  have hsplit : IsSplit ⟨"", .quiet⟩ (withLast session "\x7b")
      ([.skipped " ", .answered ["\x7b"] "", .dropped ["["]], ["\x7b"]) := by
    refine ⟨by decide, ?_, hobject⟩
    simp only [List.forall_mem_cons, Episode.IsValid]
    exact ⟨by decide, ⟨hobject, by decide, by decide +kernel⟩, hlist, by simp⟩
  have hsession := every_input_belongs_to_one_episode ⟨"", .quiet⟩ session "\x7b" hfault
  refine ⟨hfault, hsplit, hsession.2.2.1, ?_⟩
  rw [(hsession.2.2.2 _ _ hsplit).1]
  decide +kernel

end LetStack.Loop

/-
Expressions without calls, in any state and any program.

Nothing is assumed here of frames or scopes: a reference is a number of access links and an offset, whatever they lead
to. Then the value of an expression without calls is a function of the state in which its code starts (`Expr.result?`).
It reads the frame pointer and some words of the memory, and it is there whenever the generator has code for the
expression.

The code stands anywhere in a program in which no label is defined twice. It may jump, but only within itself, and it
comes out at its end: one word has been pushed, and apart from what it printed nothing else can be seen of it. The
argument needs the words that are read to be on the stack, for below it the code itself writes.

Results:
- `Machine.Arrives` and one rule for each operation: the machine gets to an instruction with its registers as they were;
- `Expr.computes`: the code of an expression pushes its value;
- `call_free_expression_computes_its_value`.
-/
import LetStack.Proofs.Machine
import LetStack.Proofs.Semantics

namespace LetStack

/-! ## Values -/

namespace Reference

/-- how many access links lead from the use to the declaration; levels are subtracted in 64 bits -/
def links (r : Reference) (e : Entry) : Nat := (r.level - e.level).toInt.toNat

/-- the address of what is denoted, in the state `m` -/
def slot (m : Machine) (r : Reference) (e : Entry) : Int := m.mem^[r.links e] m.fp + e.offset.toInt

/-- the addresses that are read on the way: that of each access link, and that of what is denoted -/
def reads (m : Machine) (r : Reference) : List Int :=
  match r.entry with
  | none => []
  | some e => (List.range (r.links e)).map (fun j => m.mem^[j] m.fp) ++ [r.slot m e]

end Reference

/-- the value of a binary expression with operands of these values -/
def Operator.apply? (v w : Int) : Operator → Option Int
  | .equal => some (boolValue (v = w))
  | .plus => some (v + w)
  | .times => some (v * w)
  | .illegal _ => none

/-- the value of an expression in the state `m`, and what it prints. Calls have none here. -/
def Expr.result? (m : Machine) : Expr → Option (Int × List Int)
  | .absent => none
  | .literal _ (.int n) => some (n.toInt, [])
  | .literal _ (.bool b) => some (boolValue b, [])
  | .literal _ (.string _) => none
  | .literal _ .absent => none
  | .ident _ r => r.entry.map fun e => (m.mem (r.slot m e), [])
  | .call _ _ _ => none
  | .cond _ test yes no => do
    let (c, out₁) ← test.result? m
    let (v, out₂) ← if c = 1 then yes.result? m else no.result? m
    some (v, out₁ ++ out₂)
  | .binary _ op left right => do
    let (v, out₁) ← left.result? m
    let (w, out₂) ← right.result? m
    let x ← op.apply? v w
    some (x, out₁ ++ out₂)
  | .print _ arg => do
    let (v, out) ← arg.result? m
    some (v, out ++ [v])

/-! ## Getting to an instruction -/

namespace Machine

/-- from `m` the machine gets to `m'`, where the instruction `a` is next and `rest` stands there; it has pushed `ws` and
printed `out`, and its registers are as in `m` -/
structure Steady (code : Code) (m : Machine) (ws out : List Int) (a : Nat) (rest : Code) (m' : Machine) : Prop
    extends Pushes code m ws out rest m' where
  ip : m'.ip = a
  fp : m'.fp = m.fp
  ra : m'.ra = m.ra
  tm : m'.tm = m.tm

/-- the machine gets from `m` to the instruction `a` in this way -/
def Arrives (code : Code) (m : Machine) (ws out : List Int) (a : Nat) (rest : Code) : Prop :=
  ∃ m', Steady code m ws out a rest m'

namespace Arrives

variable {code rest rest' : Code} {m : Machine} {ws out : List Int} {v w : Int} {a b : Nat} {l : Label}

theorem refl (h : code.Holds m.ip rest) : Arrives code m [] [] m.ip rest := ⟨m, .refl h, rfl, rfl, rfl, rfl⟩

theorem holds (h : Arrives code m ws out a rest) : code.Holds a rest := by
  obtain ⟨m', h⟩ := h
  rw [← h.ip]
  exact h.remaining

theorem pushInt {n : Int64} (h : Arrives code m ws out a (pushInt n :: rest)) :
    Arrives code m (ws ++ [n.toInt]) out (a + 1) rest := by
  obtain ⟨m', h⟩ := h
  exact ⟨_, h.push rfl, congrArg (· + 1) h.ip, h.fp, h.ra, h.tm⟩

theorem lfp (h : Arrives code m ws out a (.lfp :: rest)) : Arrives code m (ws ++ [m.fp]) out (a + 1) rest := by
  obtain ⟨m', h⟩ := h
  have hpush := h.push rfl
  rw [h.fp] at hpush
  exact ⟨_, hpush, congrArg (· + 1) h.ip, h.fp, h.ra, h.tm⟩

theorem add (h : Arrives code m (ws ++ [v] ++ [w]) out a (.add :: rest)) :
    Arrives code m (ws ++ [v + w]) out (a + 1) rest := by
  obtain ⟨m', h⟩ := h
  exact ⟨_, h.toPushes.add, congrArg (· + 1) h.ip, h.fp, h.ra, h.tm⟩

theorem mult (h : Arrives code m (ws ++ [v] ++ [w]) out a (.mult :: rest)) :
    Arrives code m (ws ++ [v * w]) out (a + 1) rest := by
  obtain ⟨m', h⟩ := h
  exact ⟨_, h.toPushes.mult, congrArg (· + 1) h.ip, h.fp, h.ra, h.tm⟩

theorem print (h : Arrives code m (ws ++ [w]) out a (.print :: rest)) :
    Arrives code m (ws ++ [w]) (out ++ [w]) (a + 1) rest := by
  obtain ⟨m', h⟩ := h
  exact ⟨_, h.toPushes.print, congrArg (· + 1) h.ip, h.fp, h.ra, h.tm⟩

theorem label (h : Arrives code m ws out a (.label l :: rest)) : Arrives code m ws out (a + 1) rest := by
  obtain ⟨m', h⟩ := h
  exact ⟨_, h.toPushes.label, congrArg (· + 1) h.ip, h.fp, h.ra, h.tm⟩

/-- a word that was on the stack in `m` is still there -/
theorem load (h : Arrives code m (ws ++ [w]) out a (.lw :: rest)) (hw : m.sp ≤ w) :
    Arrives code m (ws ++ [m.mem w]) out (a + 1) rest := by
  obtain ⟨m', h⟩ := h
  have hload := h.toPushes.load
  rw [h.kept w hw] at hload
  exact ⟨_, hload, congrArg (· + 1) h.ip, h.fp, h.ra, h.tm⟩

theorem goto (h : Arrives code m ws out a (.b l :: rest)) (hcode : code.LabelsDistinct)
    (hl : code.Holds b (.label l :: rest')) : Arrives code m ws out (b + 1) rest' := by
  obtain ⟨m', h⟩ := h
  exact label ⟨_, h.toPushes.goto (hl.target hcode) hl, rfl, h.fp, h.ra, h.tm⟩

theorem branch (h : Arrives code m (ws ++ [w] ++ [w]) out a (.beq l :: rest)) (hcode : code.LabelsDistinct)
    (hl : code.Holds b (.label l :: rest')) : Arrives code m ws out (b + 1) rest' := by
  obtain ⟨m', h⟩ := h
  exact label ⟨_, h.toPushes.branch (hl.target hcode) hl, rfl, h.fp, h.ra, h.tm⟩

theorem fallThrough (h : Arrives code m (ws ++ [v] ++ [w]) out a (.beq l :: rest)) (hne : v ≠ w) :
    Arrives code m ws out (a + 1) rest := by
  obtain ⟨m', h⟩ := h
  exact ⟨_, h.toPushes.fallThrough hne, congrArg (· + 1) h.ip, h.fp, h.ra, h.tm⟩

/-- following links that are all on the stack -/
theorem loads {k : Nat} (h : Arrives code m (ws ++ [w]) out a (List.replicate k Instr.lw ++ rest))
    (hlinks : ∀ j < k, m.sp ≤ m.mem^[j] w) : Arrives code m (ws ++ [m.mem^[k] w]) out (a + k) rest := by
  induction k generalizing w a with
  | zero => exact h
  | succ k ih =>
    have hfirst : m.sp ≤ w := hlinks 0 (Nat.succ_pos k)
    have hothers : ∀ j < k, m.sp ≤ m.mem^[j] (m.mem w) := fun j hj => hlinks (j + 1) (Nat.succ_lt_succ hj)
    have hend := ih (h.load hfirst) hothers
    rw [Nat.add_right_comm] at hend
    exact hend

/-- what a reference denotes, by its links and its offset -/
theorem reference {r : Reference} {e : Entry} (he : r.entry = some e)
    (h : Arrives code m ws out a (r.frame ++ [LetStack.pushInt r.offset, .add, .lw] ++ rest))
    (hreads : ∀ x ∈ r.reads m, m.sp ≤ x) :
    Arrives code m (ws ++ [m.mem (r.slot m e)]) out
      (a + (r.frame ++ [LetStack.pushInt r.offset, .add, .lw]).length) rest := by
  have hhops : r.hops.toInt.toNat = r.links e := by rw [Reference.hops, he, Option.elim_some, Reference.links]
  have hoffset : r.offset = e.offset := by rw [Reference.offset, he, Option.elim_some]
  rw [Reference.reads, he, List.forall_mem_append, List.forall_mem_map, List.forall_mem_singleton] at hreads
  obtain ⟨hlinks, hslot⟩ := hreads
  rw [Reference.frame, copies, hhops, hoffset] at h ⊢
  rw [List.append_assoc, List.cons_append] at h
  have hframe := h.lfp.loads fun j hj => hlinks j (List.mem_range.2 hj)
  have hword := hframe.pushInt.add.load hslot
  have hlength : a + 1 + r.links e + 1 + 1 + 1
      = a + (Instr.lfp :: List.replicate (r.links e) Instr.lw ++ [LetStack.pushInt e.offset, .add, .lw]).length := by
    simp only [List.length_append, List.length_cons, List.length_replicate, List.length_nil]
    omega
  rw [hlength] at hword
  exact hword

end Arrives

end Machine

/-! ## The code of an expression -/

/-- wherever the code of the expression stands, it pushes the value in the state `m` and is left at its end -/
def Expr.Computes (code : Code) (m : Machine) (next : Nat) (e : Expr) : Prop :=
  ∀ (ws out : List Int) (a : Nat) (rest : Code), Machine.Arrives code m ws out a (e.code next ++ rest) →
    ∃ v out', e.result? m = some (v, out') ∧
      Machine.Arrives code m (ws ++ [v]) (out ++ out') (a + (e.code next).length) rest

namespace Expr.Computes

variable {code : Code} {m : Machine} {next next' : Nat} {pos : Position}

theorem int (n : Int64) : Computes code m next (.literal pos (.int n)) := by
  intro ws out a rest h
  refine ⟨n.toInt, [], rfl, ?_⟩
  rw [List.append_nil]
  exact h.pushInt

theorem bool (b : Bool) : Computes code m next (.literal pos (.bool b)) := by
  intro ws out a rest h
  refine ⟨boolValue b, [], rfl, ?_⟩
  rw [List.append_nil]
  have hpush := h.pushInt
  cases b
  · exact hpush
  · exact hpush

theorem ident {r : Reference} {e : Entry} (he : r.entry = some e) (hreads : ∀ x ∈ r.reads m, m.sp ≤ x) :
    Computes code m next (.ident pos r) := by
  intro ws out a rest h
  refine ⟨m.mem (r.slot m e), [], ?_, ?_⟩
  · rw [Expr.result?, he]
    rfl
  · rw [List.append_nil]
    exact h.reference he hreads

/-- both operands, one after the other -/
theorem operands {left right : Expr} (hleft : Computes code m next left) (hright : Computes code m next' right)
    {ws out : List Int} {a : Nat} {rest : Code}
    (h : Machine.Arrives code m ws out a (left.code next ++ (right.code next' ++ rest))) :
    ∃ v w out₁ out₂, left.result? m = some (v, out₁) ∧ right.result? m = some (w, out₂) ∧
      Machine.Arrives code m (ws ++ [v] ++ [w]) (out ++ (out₁ ++ out₂))
        (a + (left.code next).length + (right.code next').length) rest := by
  obtain ⟨v, out₁, hv, h1⟩ := hleft ws out a _ h
  obtain ⟨w, out₂, hw, h2⟩ := hright _ _ _ rest h1
  rw [List.append_assoc out] at h2
  exact ⟨v, w, out₁, out₂, hv, hw, h2⟩

/-- an operator that has one instruction, after its operands -/
theorem joined {op : Operator} {i : Instr} {f : Int → Int → Int} {left right : Expr}
    (happly : ∀ v w, op.apply? v w = some (f v w))
    (hop : Expr.code next (.binary pos op left right) =
      left.code next ++ right.code (next + left.labelCount) ++ [i])
    (hrun : ∀ {ws out : List Int} {v w : Int} {a : Nat} {rest : Code},
      Machine.Arrives code m (ws ++ [v] ++ [w]) out a (i :: rest) →
        Machine.Arrives code m (ws ++ [f v w]) out (a + 1) rest)
    (hleft : Computes code m next left) (hright : Computes code m (next + left.labelCount) right) :
    Computes code m next (.binary pos op left right) := by
  intro ws out a rest h
  rw [hop, List.append_assoc, List.append_assoc] at h
  obtain ⟨v, w, out₁, out₂, hv, hw, h1⟩ := hleft.operands hright h
  refine ⟨f v w, out₁ ++ out₂, ?_, ?_⟩
  · simp [Expr.result?, hv, hw, happly]
  · rw [hop, List.length_append, List.length_append, ← Nat.add_assoc, ← Nat.add_assoc]
    exact hrun h1

theorem equal (hcode : code.LabelsDistinct) {left right : Expr} (hleft : Computes code m (next + 2) left)
    (hright : Computes code m (next + 2 + left.labelCount) right) :
    Computes code m next (.binary pos .equal left right) := by
  intro ws out a rest h
  rw [Expr.code, List.append_assoc, List.append_assoc] at h
  obtain ⟨v, w, out₁, out₂, hv, hw, h1⟩ := hleft.operands hright h
  refine ⟨boolValue (v = w), out₁ ++ out₂, ?_, ?_⟩
  · simp [Expr.result?, hv, hw, Operator.apply?]
  -- the six instructions after the operands end where both ways meet
  have hlength : a + (left.code (next + 2)).length + (right.code (next + 2 + left.labelCount)).length + 6
      = a + (Expr.code next (.binary pos .equal left right)).length := by
    simp only [Expr.code, List.length_append, List.length_cons, List.length_nil]
    omega
  rw [← hlength]
  have hequal := h1.holds.tail.tail.tail
  have hend := hequal.tail.tail
  by_cases hvw : v = w
  · subst hvw
    rw [boolValue, decide_eq_true rfl]
    exact (h1.branch hcode hequal).pushInt.label
  · rw [boolValue, decide_eq_false hvw]
    exact (h1.fallThrough hvw).pushInt.goto hcode hend

theorem print {arg : Expr} (harg : Computes code m next arg) : Computes code m next (.print pos arg) := by
  intro ws out a rest h
  rw [Expr.code, List.append_assoc] at h
  obtain ⟨v, out', hv, h1⟩ := harg ws out a _ h
  refine ⟨v, out' ++ [v], ?_, ?_⟩
  · simp [Expr.result?, hv]
  · rw [← List.append_assoc, Expr.code, List.length_append, ← Nat.add_assoc]
    exact h1.print

/-- the test, then one of the branches; the code of the other is jumped over -/
theorem cond (hcode : code.LabelsDistinct) {test yes no : Expr} (htest : Computes code m (next + 2) test)
    (hno : Computes code m (next + 2 + test.labelCount) no)
    (hyes : Computes code m (next + 2 + test.labelCount + no.labelCount) yes) :
    Computes code m next (.cond pos test yes no) := by
  intro ws out a rest h
  have hlength : a + (test.code (next + 2)).length + 1 + 1 + (no.code (next + 2 + test.labelCount)).length + 1 + 1
        + (yes.code (next + 2 + test.labelCount + no.labelCount)).length + 1
      = a + (Expr.code next (.cond pos test yes no)).length := by
    simp only [Expr.code, List.length_append, List.length_cons, List.length_nil]
    omega
  rw [← hlength]
  simp only [Expr.code, List.append_assoc, List.cons_append, List.nil_append] at h
  obtain ⟨c, out₁, hc, h1⟩ := htest ws out a _ h
  have hone := h1.pushInt
  have hlabel := hone.holds.tail.right.tail
  have hend := hlabel.tail.right
  by_cases hc1 : c = 1
  · subst hc1
    obtain ⟨v, out₂, hv, h2⟩ := hyes _ _ _ _ (hone.branch hcode hlabel)
    refine ⟨v, out₁ ++ out₂, ?_, ?_⟩
    · simp [Expr.result?, hc, hv]
    · rw [← List.append_assoc]
      exact h2.label
  · obtain ⟨v, out₂, hv, h2⟩ := hno _ _ _ _ (hone.fallThrough hc1)
    refine ⟨v, out₁ ++ out₂, ?_, ?_⟩
    · simp [Expr.result?, hc, hc1, hv]
    · rw [← List.append_assoc]
      exact h2.goto hcode hend

end Expr.Computes

/-- a node that is no call, that the generator has code for, and that reads only what is on the stack -/
structure Node.IsCallFree (m : Machine) (n : Node) : Prop where
  kind : n.kind ≠ .call
  isSound : n.IsSound
  reads : ∀ r, n.reference? = some r → ∀ a ∈ r.reads m, m.sp ≤ a

theorem Expr.computes {code : Code} {m : Machine} (hcode : code.LabelsDistinct) (e : Expr) (next : Nat)
    (he : ∀ n ∈ e.nodes, n.IsCallFree m) : e.Computes code m next := by
  cases e with
  | absent => exact absurd (he _ List.mem_cons_self).isSound Node.not_isSound_absent_expr
  | literal p value =>
    cases value with
    | int n => exact .int n
    | bool b => exact .bool b
    | string s => exact absurd (he _ List.mem_cons_self).isSound.1 id
    | absent => exact absurd (he _ List.mem_cons_self).isSound.1 id
  | ident p r =>
    have hnode := he _ List.mem_cons_self
    obtain ⟨entry, hentry⟩ := Option.isSome_iff_exists.1 (hnode.isSound.2 r rfl).1
    exact .ident hentry (hnode.reads r rfl)
  | call p r args => exact absurd rfl (he _ List.mem_cons_self).kind
  | cond p test yes no =>
    simp only [Expr.nodes, List.forall_mem_cons, List.forall_mem_append] at he
    obtain ⟨-, ⟨htest, hyes⟩, hno⟩ := he
    exact .cond hcode (test.computes hcode _ htest) (no.computes hcode _ hno) (yes.computes hcode _ hyes)
  | binary p op left right =>
    simp only [Expr.nodes, List.forall_mem_cons, List.forall_mem_append] at he
    obtain ⟨hnode, hleft, hright⟩ := he
    cases op with
    | equal => exact .equal hcode (left.computes hcode _ hleft) (right.computes hcode _ hright)
    | plus => exact .joined (fun _ _ => rfl) rfl .add (left.computes hcode _ hleft) (right.computes hcode _ hright)
    | times => exact .joined (fun _ _ => rfl) rfl .mult (left.computes hcode _ hleft) (right.computes hcode _ hright)
    | illegal c => exact absurd hnode.isSound.1 id
  | print p arg =>
    simp only [Expr.nodes, List.forall_mem_cons] at he
    exact .print (arg.computes hcode _ he.2)

/-- **An expression without calls computes its value and touches nothing else.** Let the generator have code for it,
from any number of labels on, and let that code stand in a program that defines no label twice. From any state at its
first instruction in which all addresses that the references read are on the stack, the machine gets behind its last
instruction. It has pushed one word, which is the value of the expression in the state at the start, and printed what
the expression prints; the registers and what was on the stack before are unchanged. -/
theorem call_free_expression_computes_its_value (e : Expr) (depth next : Nat) (before after : Code) (m : Machine)
    (hcalls : ∀ n ∈ e.nodes, n.kind ≠ .call) (hgenerated : Faultless (e.events depth))
    (hlabels : (before ++ e.code next ++ after).LabelsDistinct) (hip : m.ip = before.length)
    (hreads : ∀ n ∈ e.nodes, ∀ r, n.reference? = some r → ∀ a ∈ r.reads m, m.sp ≤ a) :
    ∃ v out m', e.result? m = some (v, out) ∧ Machine.Reaches (before ++ e.code next ++ after) m m' ∧
      m'.ip = before.length + (e.code next).length ∧ m'.sp = m.sp - 1 ∧ m'.top = v ∧ m'.printed = m.printed ++ out ∧
      m'.fp = m.fp ∧ m'.ra = m.ra ∧ m'.tm = m.tm ∧ ∀ a, m.sp ≤ a → m'.mem a = m.mem a := by
  have hsound := (e.faultless_events depth).1 hgenerated
  have hnodes : ∀ n ∈ e.nodes, n.IsCallFree m := fun n hn => ⟨hcalls n hn, hsound n hn, hreads n hn⟩
  have hstart : (before ++ e.code next ++ after).Holds m.ip (e.code next ++ after) := by
    have hall := Code.Holds.self (before ++ e.code next ++ after)
    rw [List.append_assoc] at hall ⊢
    rw [hip, ← Nat.zero_add before.length]
    exact hall.right
  obtain ⟨v, out, hv, m', h⟩ := e.computes hlabels next hnodes [] [] m.ip after (.refl hstart)
  refine ⟨v, out, m', hv, h.reaches, ?_, h.sp, h.top, h.printed, h.fp, h.ra, h.tm, h.kept⟩
  rw [← hip]
  exact h.ip

namespace Halfway

/-- a comparison that is declared before `choice` is reached -/
def declared : Expr := .binary ⟨1, 11⟩ .equal (.literal ⟨1, 9⟩ (.int 1)) (.literal ⟨1, 14⟩ (.int 1))

/-- `if x == 3 then print (x * 2) else false`, where x is one access link away -/
def choice : Expr :=
  .cond ⟨2, 4⟩
    (.binary ⟨2, 9⟩ .equal (.ident ⟨2, 7⟩ ⟨"x", 1, some ⟨0, -2⟩⟩) (.literal ⟨2, 12⟩ (.int 3)))
    (.print ⟨2, 19⟩ (.binary ⟨2, 28⟩ .times (.ident ⟨2, 26⟩ ⟨"x", 1, some ⟨0, -2⟩⟩) (.literal ⟨2, 30⟩ (.int 2))))
    (.literal ⟨2, 38⟩ (.bool false))

def tree : Root := .letIn ⟨1, 1⟩ [.var ⟨1, 5⟩ "d" declared] choice

/-- the code of `tree` before that of `choice` -/
def before : Code := [pushInt 0] ++ declared.code 0

/-- at the first instruction of `choice`; the word at fp leads to a frame at 10, which holds 3 at offset -2 -/
def machine : Machine where
  ip := before.length
  sp := -5
  fp := 0
  ra := 40
  tm := 50
  mem := fun a => if a = 0 then 10 else if a = 8 then 3 else 0
  printed := [1]

end Halfway

open Halfway in
theorem choice_computes_six :
    (before ++ choice.code 2 ++ [Instr.halt]).LabelsDistinct ∧
      ∃ m', Machine.Reaches (before ++ choice.code 2 ++ [Instr.halt]) machine m' ∧ m'.ip = 35 ∧ m'.sp = -6 ∧
        m'.top = 6 ∧ m'.printed = [1, 6] ∧ m'.fp = 0 ∧ m'.ra = 40 ∧ m'.tm = 50 ∧ m'.mem 8 = 3 := by
  have hcompile : tree.compile = .ok tree.program := rfl
  have hprogram : tree.program.code = before ++ choice.code 2 ++ [Instr.halt] := by decide
  have hlabels : (before ++ choice.code 2 ++ [Instr.halt]).LabelsDistinct := by
    rw [← hprogram]
    exact labelsDistinct_of_compile hcompile
  have hgenerated : ∀ e ∈ choice.events 1, e.fault? = none := by decide
  have hreads : ∀ n ∈ choice.nodes, ∀ r ∈ n.reference?, ∀ a ∈ r.reads machine, machine.sp ≤ a := by decide
  obtain ⟨v, out, m', hv, hreaches, hip, hsp, htop, hprinted, hfp, hra, htm, hmem⟩ :=
    call_free_expression_computes_its_value choice 1 2 before [.halt] machine (by decide) hgenerated hlabels rfl hreads
  have hvalue : choice.result? machine = some (6, [6]) := by decide
  obtain ⟨rfl, rfl⟩ := Prod.mk.inj (Option.some.inj (hv.symm.trans hvalue))
  exact ⟨hlabels, m', hreaches, hip, hsp, htop, hprinted, hfp, hra, htm, hmem 8 (by decide)⟩

end LetStack

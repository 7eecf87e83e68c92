/-
The stack machine: what the generated code does when it runs.

A state has the index of the next instruction, the stack pointer, the three registers, the memory, and what has been
printed. Memory has a word at every address; the stack grows downwards from where it starts, and integers are exact.
An address of code is the index of an instruction, so it can be pushed, stored and jumped to like any word. A step
follows the stack pictures of the operations; it is undefined at `halt`, past the end of the code, and where a label or
a jump leads nowhere.

Code is generated to push: what a piece of it does is, most often, that from the state where it starts it pushes some
words, prints some, and leaves all that was on the stack before. `Machine.Pushes` says that, and one lemma for each kind
of operation says how a step changes the pushed words (`Pushes.push`, `Pushes.pop`, `Pushes.add`, `Pushes.load`, ...).
-/
import LetStack.Proofs.Labels

namespace LetStack

/-! ## States and steps -/

structure Machine where
  /-- the index of the next instruction -/
  ip : Nat
  /-- the address of the top of the stack -/
  sp : Int
  fp : Int
  ra : Int
  tm : Int
  mem : Int → Int
  printed : List Int

namespace Machine

/-- the word on top of the stack -/
def top (m : Machine) : Int := m.mem m.sp

/-- the word below the top -/
def second (m : Machine) : Int := m.mem (m.sp + 1)

/-- on to the next instruction -/
@[simps]
def next (m : Machine) : Machine := { m with ip := m.ip + 1 }

/-- takes `n` words off the stack -/
@[simps]
def drop (n : Nat) (m : Machine) : Machine := { m with sp := m.sp + n }

theorem drop_zero (m : Machine) : m.drop 0 = m := by simp [drop]

@[simps]
def push (w : Int) (m : Machine) : Machine :=
  { m with sp := m.sp - 1, mem := Function.update m.mem (m.sp - 1) w }

end Machine

/-- the word that an operand stands for -/
def Operand.word? (code : Code) : Operand → Option Int
  | .int n => some n.toInt
  | .address l => (code.target? l).map Int.ofNat

/-- what an instruction of `code` does -/
def Instr.run (code : Code) (m : Machine) : Instr → Option Machine
  | .push v => (v.word? code).map fun w => m.next.push w
  | .pop => some (m.next.drop 1)
  | .add => some ((m.next.drop 2).push (m.second + m.top))
  | .mult => some ((m.next.drop 2).push (m.second * m.top))
  | .beq l =>
    if m.second = m.top then (code.target? l).map fun a => { m.drop 2 with ip := a } else some (m.next.drop 2)
  | .b l => (code.target? l).map fun a => { m with ip := a }
  | .js => if 0 ≤ m.top then some { m.drop 1 with ip := m.top.toNat, ra := (m.ip + 1 : Nat) } else none
  | .halt => none
  | .print => some { m.next with printed := m.printed ++ [m.top] }
  | .lw => some ((m.next.drop 1).push (m.mem m.top))
  | .lfp => some (m.next.push m.fp)
  | .sfp => some { m.next.drop 1 with fp := m.top }
  | .cfp => some { m.next with fp := m.sp }
  | .lra => some (m.next.push m.ra)
  | .sra => some { m.next.drop 1 with ra := m.top }
  | .ltm => some (m.next.push m.tm)
  | .stm => some { m.next.drop 1 with tm := m.top }
  | .label _ => some m.next

namespace Machine

def step (code : Code) (m : Machine) : Option Machine := code[m.ip]?.bind fun i => i.run code m

theorem step_eq {code : Code} {m : Machine} {i : Instr} (h : code[m.ip]? = some i) : step code m = i.run code m := by
  simp [step, h]

/-- the machine gets from one state to another in some number of steps -/
def Reaches (code : Code) : Machine → Machine → Prop := Relation.ReflTransGen fun m m' => step code m = some m'

theorem Reaches.step {code : Code} {m m' : Machine} (h : Machine.step code m = some m') : Reaches code m m' :=
  Relation.ReflTransGen.single h

theorem Reaches.trans {code : Code} {m m' m'' : Machine} (h1 : Reaches code m m') (h2 : Reaches code m' m'') :
    Reaches code m m'' := Relation.ReflTransGen.trans h1 h2

/-- at the first instruction, with nothing printed and the frame pointer at the base of an empty stack; memory and the
other registers may hold anything -/
structure IsInitial (m : Machine) : Prop where
  ip : m.ip = 0
  fp : m.fp = m.sp
  printed : m.printed = []

end Machine

/-! ## Code in place -/

/-- the instructions of `frag` stand in `code` from index `n` on -/
def Code.Holds (code : Code) : Nat → Code → Prop
  | _, [] => True
  | n, i :: frag => code[n]? = some i ∧ Code.Holds code (n + 1) frag

namespace Code.Holds

variable {code frag : Code} {n : Nat}

theorem head {i : Instr} (h : code.Holds n (i :: frag)) : code[n]? = some i := h.1

theorem tail {i : Instr} (h : code.Holds n (i :: frag)) : code.Holds (n + 1) frag := h.2

theorem right {pre : Code} : ∀ {n : Nat}, code.Holds n (pre ++ frag) → code.Holds (n + pre.length) frag := by
  induction pre with
  | nil => intro n h; exact h
  | cons i pre ih =>
    intro n h
    rw [List.length_cons, Nat.add_comm pre.length, ← Nat.add_assoc]
    exact ih h.tail

theorem left {post : Code} : ∀ {n : Nat}, code.Holds n (frag ++ post) → code.Holds n frag := by
  induction frag with
  | nil => intro n _; trivial
  | cons i frag ih => intro n h; exact ⟨h.head, ih h.tail⟩

theorem self (code : Code) : code.Holds 0 code := by
  suffices h : ∀ (pre frag : Code), (pre ++ frag).Holds pre.length frag from h [] code
  intro pre frag
  induction frag generalizing pre with
  | nil => trivial
  | cons i frag ih =>
    refine ⟨by simp, ?_⟩
    have h := ih (pre ++ [i])
    rwa [List.append_assoc, List.singleton_append, List.length_append, List.length_singleton] at h

/-- a label leads to the place where it is defined -/
theorem target {l : Label} (h : code.Holds n (.label l :: frag)) (hcode : code.LabelsDistinct) :
    code.target? l = some n := Code.target?_eq hcode h.head

end Code.Holds

namespace Machine

/-! ## Pushed words -/

/-- from `m` the machine gets to `m'`, where `rest` is next, and has then pushed the words `ws`, first to last, and
printed `out`; what was on the stack in `m` is unchanged -/
structure Pushes (code : Code) (m : Machine) (ws out : List Int) (rest : Code) (m' : Machine) : Prop where
  reaches : Reaches code m m'
  sp : m'.sp = m.sp - ws.length
  word : ∀ (i : Nat) (w : Int), ws[i]? = some w → m'.mem (m.sp - 1 - i) = w
  kept : ∀ a, m.sp ≤ a → m'.mem a = m.mem a
  printed : m'.printed = m.printed ++ out
  remaining : code.Holds m'.ip rest

namespace Pushes

variable {code rest rest' : Code} {i : Instr} {m m' m'' : Machine} {ws ws' old out out' : List Int} {v w f r t : Int}
  {a : Nat}

theorem refl (h : code.Holds m.ip rest) : Pushes code m [] [] rest m where
  reaches := Relation.ReflTransGen.refl
  sp := by simp
  word := by simp
  kept := fun _ _ => rfl
  printed := by simp
  remaining := h

theorem trans (h1 : Pushes code m ws out rest m') (h2 : Pushes code m' ws' out' rest' m'') :
    Pushes code m (ws ++ ws') (out ++ out') rest' m'' where
  reaches := h1.reaches.trans h2.reaches
  sp := by
    rw [h2.sp, h1.sp, List.length_append]
    omega
  word := by
    intro i w hi
    by_cases hlt : i < ws.length
    · rw [List.getElem?_append_left hlt] at hi
      rw [h2.kept _ (by rw [h1.sp]; omega)]
      exact h1.word i w hi
    · rw [List.getElem?_append_right (by omega)] at hi
      have hw := h2.word _ w hi
      rw [h1.sp] at hw
      rw [← hw]
      congr 1
      omega
  kept := by
    intro a ha
    rw [h2.kept a (by rw [h1.sp]; omega)]
    exact h1.kept a ha
  printed := by rw [h2.printed, h1.printed, List.append_assoc]
  remaining := h2.remaining

/-- the last word pushed is the top of the stack -/
theorem top (h : Pushes code m (ws ++ [w]) out rest m') : m'.top = w := by
  have hw := h.word ws.length w (by simp)
  have hsp := h.sp
  rw [List.length_append, List.length_singleton] at hsp
  rw [Machine.top, ← hw]
  congr 1
  omega

theorem second (h : Pushes code m (ws ++ [v] ++ [w]) out rest m') : m'.second = v := by
  have hv := h.word ws.length v (by simp)
  have hsp := h.sp
  simp only [List.length_append, List.length_singleton] at hsp
  rw [Machine.second, ← hv]
  congr 1
  omega

/-- the words on top of the stack, counted from the last one pushed -/
theorem word_reverse (h : Pushes code m ws.reverse out rest m') {i : Nat} (hi : ws[i]? = some w) :
    m'.mem (m'.sp + i) = w := by
  have hlt : i < ws.length := (List.getElem?_eq_some_iff.1 hi).1
  have hsp := h.sp
  rw [List.length_reverse] at hsp
  have hw := h.word (ws.length - 1 - i) w (by
    rw [List.getElem?_reverse (by omega), ← hi]
    congr 1
    omega)
  rw [← hw]
  congr 1
  omega

/-- **Stack picture.** An instruction that takes the words `old` off, pushes the words `new` and prints `shown`. -/
theorem picture (new shown : List Int) (h : Pushes code m (ws ++ old) out (i :: rest) m')
    (hrun : i.run code m' = some m'')
    (hsp : m''.sp = m'.sp + old.length - new.length)
    (hword : ∀ (i : Nat) (w : Int), new[i]? = some w → m''.mem (m'.sp + old.length - 1 - i) = w)
    (hkept : ∀ a, m'.sp + old.length ≤ a → m''.mem a = m'.mem a) (hprinted : m''.printed = m'.printed ++ shown)
    (hat : code.Holds m''.ip rest') : Pushes code m (ws ++ new) (out ++ shown) rest' m'' := by
  have hbase : m'.sp + old.length = m.sp - ws.length := by
    rw [h.sp, List.length_append]
    omega
  have hstep : Machine.step code m' = some m'' := by rw [step_eq h.remaining.head, hrun]
  refine ⟨h.reaches.trans (.step hstep), ?_, fun i w hi => ?_, fun a ha => ?_, ?_, hat⟩
  · rw [hsp, hbase, List.length_append]
    omega
  · by_cases hlt : i < ws.length
    · rw [List.getElem?_append_left hlt] at hi
      rw [hkept _ (by omega)]
      exact h.word i w (by rw [List.getElem?_append_left hlt]; exact hi)
    · rw [List.getElem?_append_right (by omega)] at hi
      rw [← hword _ w hi]
      congr 1
      omega
  · rw [hkept a (by omega)]
    exact h.kept a ha
  · rw [hprinted, h.printed, List.append_assoc]

/-- an instruction that takes words off, replaces them by one, and goes on -/
theorem replace (h : Pushes code m (ws ++ old) out (i :: rest) m')
    (hrun : i.run code m' = some ((m'.next.drop old.length).push w)) :
    Pushes code m (ws ++ [w]) out rest ((m'.next.drop old.length).push w) := by
  have h' := h.picture [w] [] hrun (by simp) (fun i x hi => ?_) (fun a ha => ?_) (by simp) h.remaining.tail
  · simpa only [List.append_nil] using h'
  · obtain ⟨rfl, rfl⟩ : i = 0 ∧ w = x := by
      cases i <;> simp_all
    simp
  · have hne : a ≠ m'.sp + old.length - 1 := by omega
    simp [hne]

theorem push (h : Pushes code m ws out (i :: rest) m') (hrun : i.run code m' = some (m'.next.push w)) :
    Pushes code m (ws ++ [w]) out rest (m'.next.push w) := by
  rw [← List.append_nil ws] at h
  rw [← drop_zero m'.next] at hrun ⊢
  exact h.replace hrun

/-- an instruction that takes words off, fills registers and goes anywhere -/
theorem popTo (h : Pushes code m (ws ++ old) out (i :: rest) m')
    (hrun : i.run code m' = some { m'.drop old.length with ip := a, fp := f, ra := r, tm := t })
    (ha : code.Holds a rest') :
    Pushes code m ws out rest' { m'.drop old.length with ip := a, fp := f, ra := r, tm := t } := by
  have h' := h.picture [] [] hrun (by simp) (by simp) (fun _ _ => rfl) (by simp) ha
  simpa only [List.append_nil] using h'

/-- an instruction that takes a word off, fills registers and goes on -/
theorem pop (h : Pushes code m (ws ++ [w]) out (i :: rest) m')
    (hrun : i.run code m' = some { m'.next.drop 1 with fp := f, ra := r, tm := t }) :
    Pushes code m ws out rest { m'.next.drop 1 with fp := f, ra := r, tm := t } :=
  h.popTo hrun h.remaining.tail

/-- an instruction that leaves the stack, sets the frame pointer and goes anywhere -/
theorem jump (h : Pushes code m ws out (i :: rest) m') (hrun : i.run code m' = some { m' with ip := a, fp := f })
    (ha : code.Holds a rest') : Pushes code m ws out rest' { m' with ip := a, fp := f } := by
  rw [← List.append_nil ws] at h
  have h' := h.picture [] [] hrun (by simp) (by simp) (fun _ _ => rfl) (by simp) ha
  simpa only [List.append_nil] using h'

theorem label {l : Label} (h : Pushes code m ws out (.label l :: rest) m') : Pushes code m ws out rest m'.next :=
  h.jump rfl h.remaining.tail

theorem cfp (h : Pushes code m ws out (.cfp :: rest) m') : Pushes code m ws out rest { m'.next with fp := m'.sp } :=
  h.jump rfl h.remaining.tail

/-- on to the label -/
theorem goto {l : Label} (h : Pushes code m ws out (.b l :: rest) m') (hl : code.target? l = some a)
    (ha : code.Holds a rest') : Pushes code m ws out rest' { m' with ip := a } := by
  have hrun : (Instr.b l).run code m' = some { m' with ip := a } := by rw [Instr.run, hl, Option.map_some]
  exact h.jump hrun ha

theorem stm (h : Pushes code m (ws ++ [w]) out (.stm :: rest) m') :
    Pushes code m ws out rest { m'.next.drop 1 with tm := w } := by
  have hrun : Instr.stm.run code m' = some { m'.next.drop 1 with tm := w } := by rw [Instr.run, h.top]
  exact h.pop hrun

theorem sra (h : Pushes code m (ws ++ [w]) out (.sra :: rest) m') :
    Pushes code m ws out rest { m'.next.drop 1 with ra := w } := by
  have hrun : Instr.sra.run code m' = some { m'.next.drop 1 with ra := w } := by rw [Instr.run, h.top]
  exact h.pop hrun

theorem sfp (h : Pushes code m (ws ++ [w]) out (.sfp :: rest) m') :
    Pushes code m ws out rest { m'.next.drop 1 with fp := w } := by
  have hrun : Instr.sfp.run code m' = some { m'.next.drop 1 with fp := w } := by rw [Instr.run, h.top]
  exact h.pop hrun

/-- jumping to an address on the stack; the return address is the instruction after this one -/
theorem js (h : Pushes code m (ws ++ [(a : Int)]) out (.js :: rest) m') (ha : code.Holds a rest') :
    Pushes code m ws out rest' { m'.drop 1 with ip := a, ra := (m'.ip + 1 : Nat) } := by
  have hrun : Instr.js.run code m' = some { m'.drop 1 with ip := a, ra := (m'.ip + 1 : Nat) } := by
    rw [Instr.run, h.top, if_pos (Int.natCast_nonneg a), Int.toNat_natCast]
  exact h.popTo hrun ha

theorem print (h : Pushes code m (ws ++ [w]) out (.print :: rest) m') :
    Pushes code m (ws ++ [w]) (out ++ [w]) rest { m'.next with printed := m'.printed ++ [w] } := by
  have hrun : Instr.print.run code m' = some { m'.next with printed := m'.printed ++ [w] } := by rw [Instr.run, h.top]
  rw [← List.append_nil (ws ++ [w])] at h
  have h' := h.picture [] [w] hrun (by simp) (by simp) (fun _ _ => rfl) rfl h.remaining.tail
  simpa only [List.append_nil] using h'

theorem add (h : Pushes code m (ws ++ [v] ++ [w]) out (.add :: rest) m') :
    Pushes code m (ws ++ [v + w]) out rest ((m'.next.drop 2).push (v + w)) := by
  have hrun : Instr.add.run code m' = some ((m'.next.drop 2).push (v + w)) := by rw [Instr.run, h.top, h.second]
  rw [List.append_assoc] at h
  exact h.replace hrun

theorem mult (h : Pushes code m (ws ++ [v] ++ [w]) out (.mult :: rest) m') :
    Pushes code m (ws ++ [v * w]) out rest ((m'.next.drop 2).push (v * w)) := by
  have hrun : Instr.mult.run code m' = some ((m'.next.drop 2).push (v * w)) := by rw [Instr.run, h.top, h.second]
  rw [List.append_assoc] at h
  exact h.replace hrun

/-- the word at an address replaces the address -/
theorem load (h : Pushes code m (ws ++ [w]) out (.lw :: rest) m') :
    Pushes code m (ws ++ [m'.mem w]) out rest ((m'.next.drop 1).push (m'.mem w)) := by
  have hrun : Instr.lw.run code m' = some ((m'.next.drop 1).push (m'.mem w)) := by rw [Instr.run, h.top]
  exact h.replace hrun

/-- equal words: on to the label -/
theorem branch {l : Label} (h : Pushes code m (ws ++ [w] ++ [w]) out (.beq l :: rest) m')
    (hl : code.target? l = some a) (ha : code.Holds a rest') :
    Pushes code m ws out rest' { m'.drop 2 with ip := a } := by
  have hrun : (Instr.beq l).run code m' = some { m'.drop 2 with ip := a } := by
    rw [Instr.run, h.top, h.second, if_pos rfl, hl, Option.map_some]
  rw [List.append_assoc] at h
  exact h.popTo hrun ha

theorem fallThrough {l : Label} (h : Pushes code m (ws ++ [v] ++ [w]) out (.beq l :: rest) m') (hne : v ≠ w) :
    Pushes code m ws out rest (m'.next.drop 2) := by
  have hrun : (Instr.beq l).run code m' = some (m'.next.drop 2) := by
    rw [Instr.run, h.top, h.second, if_neg hne]
  have hnext := h.remaining.tail
  rw [List.append_assoc] at h
  exact h.popTo hrun hnext

end Pushes

end Machine

end LetStack

/-
Code that starts from other numbers.

The generator numbers labels in the order of its visit, so the same subtree gets other labels in another tree. Nothing
else about its code depends on what was generated before: to start from counters `d` is to start from zero and then to
move every label by `d`, each family by its own number (`Instr.shift`). It is said here of the work itself, which finds
numbers taken, routines in the pool and entries in the log, whatever they are, and of the text of the operands
(`Line.renumber`), where a label can be told from all else.

Results:
- `Expr.code_add`, `Decl.codeAll_add`, `Decl.routinesAll_add`: code and routines from counters that are a sum;
- `Part.emits`: the work on an expression or on the declarations of a scope, from any state;
- `generation_is_compositional_up_to_numbers`.
-/
import LetStack.Proofs.FirstFault
import LetStack.Proofs.Generator
import LetStack.Proofs.Listing

namespace LetStack

/-! ## Moving labels -/

namespace Counters

instance : Add Counters := ⟨fun c d => ⟨c.labels + d.labels, c.functions + d.functions⟩⟩

@[simp] theorem labels_add (c d : Counters) : (c + d).labels = c.labels + d.labels := rfl

@[simp] theorem functions_add (c d : Counters) : (c + d).functions = c.functions + d.functions := rfl

theorem start_add (d : Counters) : start + d = d := by
  change Counters.mk (0 + d.labels) (0 + d.functions) = d
  rw [Nat.zero_add, Nat.zero_add]

theorem inside_add (c d : Counters) : (c + d).inside = c.inside + d :=
  congrArg (Counters.mk (c.labels + d.labels)) (Nat.add_right_comm c.functions d.functions 1)

theorem after_add (c d : Counters) (x : Decl) : (c + d).after x = c.after x + d :=
  congrArg₂ Counters.mk (Nat.add_right_comm c.labels d.labels x.labelCount)
    (Nat.add_right_comm c.functions d.functions x.functionCount)

end Counters

/-- the label that stands `d` further on in its family -/
def Label.shift (d : Counters) : Label → Label
  | .control n => .control (n + d.labels)
  | .function n => .function (n + d.functions)

/-- the instruction with its label moved, if it mentions one -/
def Instr.shift (d : Counters) : Instr → Instr
  | .push (.address l) => .push (.address (l.shift d))
  | .beq l => .beq (l.shift d)
  | .b l => .b (l.shift d)
  | .label l => .label (l.shift d)
  | i => i

theorem Instr.shift_of_not_mentionsLabel (d : Counters) {i : Instr} (h : i.mentionsLabel = false) : i.shift d = i := by
  rcases i with (_ | _) | _ <;> first | rfl | cases h

namespace Code

def shift (d : Counters) (c : Code) : Code := c.map (Instr.shift d)

@[simp] theorem shift_nil (d : Counters) : shift d [] = [] := rfl

@[simp] theorem shift_cons (d : Counters) (i : Instr) (c : Code) : shift d (i :: c) = i.shift d :: shift d c := rfl

@[simp] theorem shift_append (d : Counters) (a b : Code) : shift d (a ++ b) = shift d a ++ shift d b := List.map_append

/-- code without labels stays -/
theorem shift_eq_self (d : Counters) {c : Code} (h : ∀ i ∈ c, i.mentionsLabel = false) : shift d c = c :=
  (List.map_congr_left fun i hi => Instr.shift_of_not_mentionsLabel d (h i hi)).trans (List.map_id c)

@[simp] theorem shift_replicate_pop (d : Counters) (n : Nat) :
    shift d (List.replicate n .pop) = List.replicate n .pop := List.map_replicate

end Code

/-- the routine with its label and the labels of its code moved; it belongs to the same declaration -/
def Routine.shift (d : Counters) (q : Routine) : Routine :=
  { q with label := q.label.shift d, code := Code.shift d q.code }

/-! ## The generator -/

@[simp] theorem Reference.shift_frame (d : Counters) (r : Reference) : Code.shift d r.frame = r.frame := by
  refine Code.shift_eq_self d fun i hi => ?_
  rcases List.mem_cons.1 hi with rfl | hi
  · rfl
  · rw [List.eq_of_mem_replicate hi]
    rfl

mutual

theorem Expr.code_add (d : Counters) (next : Nat) (e : Expr) :
    e.code (next + d.labels) = Code.shift d (e.code next) := by
  cases e with
  | absent => rfl
  | literal p v => cases v <;> rfl
  | ident p r => simp [Expr.code, pushInt, Instr.shift]
  | call p r args =>
    have hargs := Expr.argsCode_add d next args
    simp [Expr.code, pushInt, Instr.shift, hargs]
  | cond p test yes no =>
    have htest := Expr.code_add d (next + 2) test
    have hno := Expr.code_add d (next + 2 + test.labelCount) no
    have hyes := Expr.code_add d (next + 2 + test.labelCount + no.labelCount) yes
    -- what is added to the first number is added to each of the following
    simp only [Expr.code, Nat.add_right_comm _ d.labels, htest, hno, hyes, Code.shift_append, Code.shift_cons,
      Code.shift_nil, pushInt, Instr.shift, Label.shift]
  | binary p op left right =>
    have hleft := fun n => Expr.code_add d n left
    have hright := fun n => Expr.code_add d n right
    cases op <;>
      simp only [Expr.code, Nat.add_right_comm _ d.labels, hleft, hright, Code.shift_append, Code.shift_cons,
        Code.shift_nil, pushInt, Instr.shift, Label.shift]
  | print p arg =>
    have harg := Expr.code_add d next arg
    simp [Expr.code, Instr.shift, harg]

theorem Expr.argsCode_add (d : Counters) (next : Nat) (es : List Expr) :
    Expr.argsCode (next + d.labels) es = Code.shift d (Expr.argsCode next es) := by
  cases es with
  | nil => rfl
  | cons e es =>
    have hlater := Expr.argsCode_add d next es
    have hfirst := Expr.code_add d (next + Expr.labelCountAll es) e
    rw [Expr.argsCode, Expr.argsCode, Code.shift_append, hlater, Nat.add_right_comm, hfirst]

end

theorem Decl.code_add (c d : Counters) (x : Decl) : x.code (c + d) = Code.shift d (x.code c) := by
  cases x with
  | absent => rfl
  | var p name value => exact value.code_add d c.labels
  | func p name params decls body => rfl

theorem Decl.codeAll_add (c d : Counters) (ds : List Decl) :
    Decl.codeAll (c + d) ds = Code.shift d (Decl.codeAll c ds) := by
  induction ds generalizing c with
  | nil => rfl
  | cons x ds ih => rw [Decl.codeAll, Decl.codeAll, Code.shift_append, x.code_add, Counters.after_add, ih]

theorem Routine.make_add (c d : Counters) (pos : Position) (name : String) (params : List Param) (decls : List Decl)
    (body : Expr) :
    Routine.make (c + d) pos name params decls body = (Routine.make c pos name params decls body).shift d := by
  have hdecls := Decl.codeAll_add c.inside d decls
  have hbody := body.code_add d (c.labels + Decl.labelCountAll decls)
  simp only [Routine.make, Routine.shift, functionCode, Counters.inside_add, Counters.labels_add,
    Counters.functions_add, Nat.add_right_comm _ d.labels, hdecls, hbody, Code.shift_append, Code.shift_cons,
    Code.shift_nil, Code.shift_replicate_pop, Instr.shift, Label.shift]

mutual

theorem Decl.routines_add (c d : Counters) (x : Decl) : x.routines (c + d) = (x.routines c).map (Routine.shift d) := by
  cases x with
  | absent => rfl
  | var p name value => rfl
  | func p name params decls body =>
    rw [Decl.routines, Decl.routines, List.map_cons, Routine.make_add, Counters.inside_add,
      Decl.routinesAll_add c.inside d decls]

theorem Decl.routinesAll_add (c d : Counters) (ds : List Decl) :
    Decl.routinesAll (c + d) ds = (Decl.routinesAll c ds).map (Routine.shift d) := by
  cases ds with
  | nil => rfl
  | cons x ds =>
    rw [Decl.routinesAll, Decl.routinesAll, List.map_append, Decl.routines_add c d x, Counters.after_add,
      Decl.routinesAll_add (c.after x) d ds]

end

/-! ## Operands as text -/

/-- the line with the number of its label moved, if its operand is the name of one -/
def Line.renumber (d : Counters) (l : Line) : Line :=
  { l with operand := (Label.ofName? l.operand).elim l.operand fun label => (label.shift d).name }

/-- an integer is no label, and what has no operand has no label either -/
theorem Instr.line_shift (d : Counters) (i : Instr) : (i.shift d).line = i.line.renumber d := by
  have hname : ∀ (op : Opcode) (l : Label), Line.renumber d ⟨op, l.name⟩ = ⟨op, (l.shift d).name⟩ := by
    intro op l
    rw [Line.renumber, (Label.ofName?_eq_some l.name l).2 rfl]
    rfl
  have hother : ∀ (op : Opcode) (s : String), (∀ l : Label, l.name ≠ s) → Line.renumber d ⟨op, s⟩ = ⟨op, s⟩ := by
    intro op s hs
    have hnone : Label.ofName? s = none :=
      Option.eq_none_iff_forall_ne_some.2 fun l hl => hs l ((Label.ofName?_eq_some s l).1 hl)
    rw [Line.renumber, hnone]
    rfl
  cases i with
  | push v =>
    cases v with
    | int z => exact (hother .push _ fun l => l.name_ne_toString z.toInt).symm
    | address l => exact (hname .push l).symm
  | beq l => exact (hname .beq l).symm
  | b l => exact (hname .b l).symm
  | label l => exact (hname .label l).symm
  | _ => exact (hother _ "" fun l => l.isWord_name.ne_empty).symm

theorem Code.lines_shift (d : Counters) (c : Code) :
    (Code.shift d c).map Instr.line = (c.map Instr.line).map (Line.renumber d) := by
  rw [Code.shift, List.map_map, List.map_map]
  exact List.map_congr_left fun i _ => i.line_shift d

/-! ## Parts of a tree -/

/-- what is generated on its own: an expression, or the declarations of a scope -/
inductive Part where
  | expr (e : Expr)
  | decls (ds : List Decl)

namespace Part

def nodes : Part → List Node
  | .expr e => e.nodes
  | .decls ds => Decl.nodesAll ds

/-- the nodes in the order in which they are checked -/
def checked : Part → List Node
  | .expr e => e.checked
  | .decls ds => Decl.checkedAll ds

def generate (v : Verbosity) : Part → Generator Code
  | .expr e => e.generate v
  | .decls ds => Decl.generateAll v ds

def code (c : Counters) : Part → Code
  | .expr e => e.code c.labels
  | .decls ds => Decl.codeAll c ds

def routines (c : Counters) : Part → List Routine
  | .expr _ => []
  | .decls ds => Decl.routinesAll c ds

def events (c : Counters) (depth : Nat) : Part → List Event
  | .expr e => e.events depth
  | .decls ds => Decl.eventsAll c depth ds

/-- the counters after a part -/
def after (c : Counters) (p : Part) : Counters :=
  ⟨c.labels + 2 * p.nodes.countP Node.isBranching, c.functions + p.nodes.countP Node.isFunction⟩

/-- the state after a part whose work was not stopped -/
def leave (w : Work) (p : Part) : Work := ⟨p.after w.counters, w.depth, w.pool ++ p.routines w.counters⟩

theorem code_add (c d : Counters) (p : Part) : p.code (c + d) = Code.shift d (p.code c) := by
  cases p with
  | expr e => exact e.code_add d c.labels
  | decls ds => exact Decl.codeAll_add c d ds

theorem routines_add (c d : Counters) (p : Part) : p.routines (c + d) = (p.routines c).map (Routine.shift d) := by
  cases p with
  | expr e => rfl
  | decls ds => exact Decl.routinesAll_add c d ds

/-- the work on a part from any state, with the numbers and the pool that it leaves -/
theorem emits (v : Verbosity) (w : Work) (p : Part) :
    Generator.Emits v (p.generate v) w (p.events w.counters w.depth) (p.code w.counters) (p.leave w) := by
  have hat : w.IsAt v w.depth := fun _ => rfl
  cases p with
  | expr e =>
    refine Generator.Emits.congr (e.emits hat) rfl rfl ?_
    rw [Work.extend, e.labelCount_eq, ← e.countP_isFunction]
    rfl
  | decls ds =>
    refine Generator.Emits.congr (Decl.emitsAll ds hat) rfl rfl ?_
    rw [Work.extend, Decl.labelCountAll_eq, Decl.functionCountAll_eq]
    rfl

/-- the fault that stops the work, if one does, is that of a node, wherever the numbers start -/
theorem findSome?_fault?_events (c : Counters) (depth : Nat) (p : Part) :
    (p.events c depth).findSome? Event.fault? = p.checked.findSome? Node.fault? := by
  rw [← List.head?_filterMap, ← List.head?_filterMap]
  cases p with
  | expr e => exact congrArg List.head? (e.faults_events depth)
  | decls ds => exact congrArg List.head? (Decl.faults_eventsAll c depth ds)

variable {p : Part} (v : Verbosity) (w : Work) (log : List String)

theorem generate_eq_ok (h : p.checked.findSome? Node.fault? = none) :
    ∃ entries, p.generate v ⟨w, log⟩ = .ok (p.code w.counters) ⟨p.leave w, log ++ entries⟩ := by
  rw [← p.findSome?_fault?_events w.counters w.depth] at h
  exact ⟨_, (p.emits v w).gives (List.findSome?_eq_none_iff.1 h) log⟩

theorem generate_eq_error {f : Fault} (h : p.checked.findSome? Node.fault? = some f) :
    ∃ left, p.generate v ⟨w, log⟩ = .error f left := by
  rw [← p.findSome?_fault?_events w.counters w.depth] at h
  obtain ⟨left, hstops⟩ := (p.emits v w).stops f h log
  exact ⟨_, hstops⟩

theorem exists_generate_eq_ok_iff :
    (∃ code done, p.generate v ⟨w, log⟩ = .ok code done) ↔ p.checked.findSome? Node.fault? = none := by
  refine ⟨fun ⟨code, done, hok⟩ => ?_, fun h => ?_⟩
  · cases hfault : p.checked.findSome? Node.fault? with
    | none => rfl
    | some f =>
      obtain ⟨left, herror⟩ := generate_eq_error v w log hfault
      rw [hok] at herror
      cases herror
  · obtain ⟨entries, hok⟩ := generate_eq_ok v w log h
    exact ⟨_, _, hok⟩

theorem exists_generate_eq_error_iff (f : Fault) :
    (∃ left, p.generate v ⟨w, log⟩ = .error f left) ↔ p.checked.findSome? Node.fault? = some f := by
  refine ⟨fun ⟨left, herror⟩ => ?_, generate_eq_error v w log⟩
  cases hfault : p.checked.findSome? Node.fault? with
  | none =>
    obtain ⟨entries, hok⟩ := generate_eq_ok v w log hfault
    rw [hok] at herror
    cases herror
  | some g =>
    obtain ⟨left', herror'⟩ := generate_eq_error v w log hfault
    rw [herror'] at herror
    cases herror
    rfl

end Part

/-- **Generation is compositional up to the numbers of labels.** Take an expression or the declarations of a scope, and
any state to start from: numbers taken, nodes entered, routines in the pool, entries in the log. The work is stopped
there exactly if it is stopped from the start, and by the same fault. Otherwise its code is the code from the start with
every label moved by the numbers taken, two further control labels are taken for each conditional and each comparison
and one function label for each function, the routines in the pool stay as they are, and after them come those from the
start with every label moved. It is the code, and they are the routines, that programs are made of. In the text of the
operands exactly the names of labels are replaced. -/
theorem generation_is_compositional_up_to_numbers (p : Part) (v : Verbosity) (c : Counters) (depth : Nat)
    (pool : List Routine) (log : List String) :
    ((∃ code done, p.generate v ⟨⟨c, depth, pool⟩, log⟩ = .ok code done) ↔
      ∃ code done, p.generate v ⟨.start, []⟩ = .ok code done) ∧
    (∀ f, (∃ left, p.generate v ⟨⟨c, depth, pool⟩, log⟩ = .error f left) ↔
      ∃ left, p.generate v ⟨.start, []⟩ = .error f left) ∧
    ∀ code done, p.generate v ⟨.start, []⟩ = .ok code done →
      (code = p.code .start ∧ done.work.pool = p.routines .start) ∧
      (Code.shift c code = p.code c ∧ done.work.pool.map (Routine.shift c) = p.routines c) ∧
      (∃ entries, p.generate v ⟨⟨c, depth, pool⟩, log⟩ = .ok (Code.shift c code)
        ⟨⟨⟨c.labels + 2 * p.nodes.countP Node.isBranching, c.functions + p.nodes.countP Node.isFunction⟩, depth,
          pool ++ done.work.pool.map (Routine.shift c)⟩, log ++ entries⟩) ∧
      ∀ block ∈ code :: done.work.pool.map Routine.code,
        (Code.shift c block).map Instr.line = (block.map Instr.line).map (Line.renumber c) := by
  refine ⟨?_, fun f => ?_, fun code done hstart => ?_⟩
  · rw [Part.exists_generate_eq_ok_iff, Part.exists_generate_eq_ok_iff]
  · rw [Part.exists_generate_eq_error_iff, Part.exists_generate_eq_error_iff]
  · have hnone := (Part.exists_generate_eq_ok_iff v .start []).1 ⟨code, done, hstart⟩
    obtain ⟨entries, hok⟩ := Part.generate_eq_ok v ⟨c, depth, pool⟩ log hnone
    obtain ⟨_, hfresh⟩ := Part.generate_eq_ok v .start [] hnone
    rw [hfresh] at hstart
    cases hstart
    -- any counters are zero and themselves added up
    have hcode := p.code_add .start c
    have hroutines := p.routines_add .start c
    rw [Counters.start_add] at hcode hroutines
    refine ⟨⟨rfl, rfl⟩, ⟨hcode.symm, hroutines.symm⟩, ⟨entries, ?_⟩, fun block _ => Code.lines_shift c block⟩
    rw [hok, Part.leave, hcode, hroutines]
    rfl

/-- The declarations of a tree, generated once more after themselves: the function that was pushed as `function0` is
pushed as `function2`, the labels of its block are 4 to 7 in place of 0 to 3, and the pool holds both generations. -/
theorem sumTree_twice :
    let again : Part := .decls [.func ⟨1, 5⟩ "sum" [{ name := "n" }] [SumTree.add] SumTree.body]
    let pool := sumTree.program.routines
    (∃ done, again.generate .quiet ⟨.start, []⟩ = .ok [.push (.address (.function 0))] done ∧
      done.work = ⟨⟨4, 2⟩, 0, pool⟩) ∧
    (∃ entries, again.generate .quiet ⟨⟨⟨4, 2⟩, 0, pool⟩, []⟩ = .ok [.push (.address (.function 2))]
      ⟨⟨⟨8, 4⟩, 0, pool ++ pool.map (Routine.shift ⟨4, 2⟩)⟩, entries⟩) ∧
    ((pool.map (Routine.shift ⟨4, 2⟩)).flatMap fun q => q.code.operands .label) =
      ["function2", "label6", "label7", "label4", "label5", "function3"] := by
  intro again pool
  obtain ⟨entries, hstart⟩ := Part.generate_eq_ok (p := again) .quiet .start [] rfl
  obtain ⟨-, -, hagain⟩ := generation_is_compositional_up_to_numbers again .quiet ⟨4, 2⟩ 0 pool []
  obtain ⟨-, -, hok, -⟩ := hagain _ _ hstart
  exact ⟨⟨_, hstart, rfl⟩, hok, by decide⟩

end LetStack

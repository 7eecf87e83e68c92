/-
Label discipline: which labels a program defines, and who mentions them.

Labels are numbered in the order of the visit, across blocks and with gaps that only nested functions fill. So the
statement that can be carried through the generator is about the labels of a subtree as a whole: from a counter on,
the instructions that mention a label are, up to order, one group of four for each conditional or comparison and one
group of two for each function (`labelled_code`, `labelled_all`, `Root.labelled_program`).

Results:
- `labels_defined_once_and_used_once`: the labels that a program defines are pairwise distinct and are exactly the first
  2k control labels and the first n function labels, for k conditionals and comparisons and n functions; an even control
  label is the target of one `beq`, an odd one of one `b`, and no other branch occurs; a function label is pushed once;
  what is pushed besides is no label. All of it is said of the texts of the operands.
- `Code.target?_eq`: so a label leads to the one place where it is defined.
-/
import LetStack.Proofs.Characters
import LetStack.Proofs.Nodes
import Mathlib

namespace LetStack

/-! ## The instructions that mention a label -/

/-- does the operand name a place? -/
def Instr.mentionsLabel : Instr → Bool
  | .push (.address _) | .beq _ | .b _ | .label _ => true
  | _ => false

/-- the instructions of a conditional or a comparison that took the labels `i` and `i + 1` -/
def branchingGroup (i : Nat) : Code :=
  [.label (.control i), .label (.control (i + 1)), .beq (.control i), .b (.control (i + 1))]

/-- the instructions of a function that took the label `i` -/
def functionGroup (i : Nat) : Code := [.label (.function i), .push (.address (.function i))]

/-- the groups of `n` conditionals and comparisons, numbered from `start` on -/
def branchingGroups (start n : Nat) : Code := (List.range n).flatMap fun j => branchingGroup (start + 2 * j)

/-- the groups of `n` functions, numbered from `start` on -/
def functionGroups (start n : Nat) : Code := (List.range n).flatMap fun j => functionGroup (start + j)

theorem branchingGroups_add (start m n : Nat) :
    branchingGroups start (m + n) = branchingGroups start m ++ branchingGroups (start + 2 * m) n := by
  simp [branchingGroups, List.range_add, List.flatMap_map, Nat.mul_add, Nat.add_assoc]

theorem branchingGroups_one (start : Nat) : branchingGroups start 1 = branchingGroup start := by
  simp [branchingGroups]

theorem functionGroups_add (start m n : Nat) :
    functionGroups start (m + n) = functionGroups start m ++ functionGroups (start + m) n := by
  simp [functionGroups, List.range_add, List.flatMap_map, Nat.add_assoc]

theorem functionGroups_one (start : Nat) : functionGroups start 1 = functionGroup start := by
  simp [functionGroups]

namespace Code

/-- the instructions that mention a label -/
def labelled (c : Code) : Code := c.filter Instr.mentionsLabel

@[simp] theorem labelled_nil : labelled [] = [] := rfl

@[simp] theorem labelled_cons (i : Instr) (c : Code) :
    labelled (i :: c) = if i.mentionsLabel then i :: labelled c else labelled c := List.filter_cons

@[simp] theorem labelled_append (a b : Code) : labelled (a ++ b) = labelled a ++ labelled b := List.filter_append ..

@[simp] theorem labelled_replicate_pop (n : Nat) : labelled (List.replicate n .pop) = [] := by
  simp [labelled, Instr.mentionsLabel]

end Code

@[simp] theorem Reference.labelled_frame (r : Reference) : Code.labelled r.frame = [] := by
  simp [Reference.frame, copies, Code.labelled, Instr.mentionsLabel]

/-! ## The generator -/

mutual

theorem Expr.labelled_code (next : Nat) (e : Expr) (h : ∀ n ∈ e.nodes, n.IsSound) :
    (Code.labelled (e.code next)).Perm (branchingGroups next (e.nodes.countP Node.isBranching)) := by
  cases e with
  | absent => simp [Expr.nodes] at h
  | literal p v =>
    cases v <;> simp [Expr.code, Expr.nodes, Node.isBranching, branchingGroups, pushInt, Instr.mentionsLabel]
  | ident p r => simp [Expr.code, Expr.nodes, Node.isBranching, branchingGroups, pushInt, Instr.mentionsLabel]
  | call p r args =>
    simp only [Expr.nodes, List.forall_mem_cons] at h
    have h1 := Expr.labelled_argsCode next args h.2
    simpa [Expr.code, Expr.nodes, Node.isBranching, pushInt, Instr.mentionsLabel] using h1
  | cond p test yes no =>
    simp only [Expr.nodes, List.forall_mem_cons, List.forall_mem_append] at h
    obtain ⟨-, ⟨htest, hyes⟩, hno⟩ := h
    have h1 := Expr.labelled_code (next + 2) test htest
    have h2 := Expr.labelled_code (next + 2 + test.labelCount) no hno
    have h3 := Expr.labelled_code (next + 2 + test.labelCount + no.labelCount) yes hyes
    have hcount : (Expr.cond p test yes no).nodes.countP Node.isBranching
        = 1 + test.nodes.countP Node.isBranching + no.nodes.countP Node.isBranching
          + yes.nodes.countP Node.isBranching := by
      simp only [Expr.nodes, List.countP_cons, List.countP_append, Node.isBranching, ite_true]
      omega
    rw [hcount, branchingGroups_add, branchingGroups_add, branchingGroups_add, branchingGroups_one]
    rw [List.perm_iff_count] at h1 h2 h3 ⊢
    intro i
    have e1 := h1 i
    have e2 := h2 i
    have e3 := h3 i
    simp only [Expr.labelCount_eq, Expr.code, Code.labelled_append, Code.labelled_cons, Code.labelled_nil, pushInt,
      Instr.mentionsLabel, ite_true, ite_false, Bool.false_eq_true, List.count_append, List.count_cons, List.count_nil,
      branchingGroup, Nat.mul_add, Nat.mul_one, ← Nat.add_assoc] at e1 e2 e3 ⊢
    omega
  | binary p op left right =>
    simp only [Expr.nodes, List.forall_mem_cons, List.forall_mem_append] at h
    obtain ⟨hsound, hleft, hright⟩ := h
    cases op with
    | equal =>
      have h1 := Expr.labelled_code (next + 2) left hleft
      have h2 := Expr.labelled_code (next + 2 + left.labelCount) right hright
      have hcount : (Expr.binary p .equal left right).nodes.countP Node.isBranching
          = 1 + left.nodes.countP Node.isBranching + right.nodes.countP Node.isBranching := by
        simp only [Expr.nodes, List.countP_cons, List.countP_append, Node.isBranching, ite_true]
        omega
      rw [hcount, branchingGroups_add, branchingGroups_add, branchingGroups_one]
      rw [List.perm_iff_count] at h1 h2 ⊢
      intro i
      have e1 := h1 i
      have e2 := h2 i
      simp only [Expr.labelCount_eq, Expr.code, Code.labelled_append, Code.labelled_cons, Code.labelled_nil, pushInt,
        Instr.mentionsLabel, ite_true, ite_false, Bool.false_eq_true, List.count_append, List.count_cons,
        List.count_nil, branchingGroup, Nat.mul_add, Nat.mul_one, ← Nat.add_assoc] at e1 e2 ⊢
      omega
    | plus | times =>
      have h1 := Expr.labelled_code next left hleft
      have h2 := Expr.labelled_code (next + left.labelCount) right hright
      rw [Expr.labelCount_eq] at h2
      simpa [Expr.code, Expr.nodes, Node.isBranching, Instr.mentionsLabel, Expr.labelCount_eq, branchingGroups_add]
        using h1.append h2
    | illegal c => exact absurd hsound.1 id
  | print p arg =>
    simp only [Expr.nodes, List.forall_mem_cons] at h
    have h1 := Expr.labelled_code next arg h.2
    simpa [Expr.code, Expr.nodes, Node.isBranching, Instr.mentionsLabel] using h1

theorem Expr.labelled_argsCode (next : Nat) (es : List Expr) (h : ∀ n ∈ Expr.nodesAll es, n.IsSound) :
    (Code.labelled (Expr.argsCode next es)).Perm
      (branchingGroups next ((Expr.nodesAll es).countP Node.isBranching)) := by
  cases es with
  | nil => simp [Expr.argsCode, Expr.nodesAll, branchingGroups]
  | cons e es =>
    simp only [Expr.nodesAll, List.forall_mem_append] at h
    have h1 := Expr.labelled_argsCode next es h.2
    have h2 := Expr.labelled_code (next + Expr.labelCountAll es) e h.1
    rw [Expr.labelCountAll_eq] at h2
    -- arguments are visited last to first
    rw [Expr.nodesAll, List.countP_append, Nat.add_comm, branchingGroups_add, Expr.argsCode, Code.labelled_append,
      Expr.labelCountAll_eq]
    exact h1.append h2

end

mutual

/-- what a declaration leaves in its place and in the pool, taken together -/
theorem Decl.labelled_code (c : Counters) (d : Decl) (h : ∀ n ∈ d.nodes, n.IsSound) :
    (Code.labelled (d.code c) ++ Code.labelled ((d.routines c).flatMap Routine.code)).Perm
      (branchingGroups c.labels (d.nodes.countP Node.isBranching)
        ++ functionGroups c.functions (d.nodes.countP Node.isFunction)) := by
  cases d with
  | absent => simp [Decl.nodes] at h
  | var p name value =>
    simp only [Decl.nodes, List.forall_mem_cons] at h
    have h1 := Expr.labelled_code c.labels value h.2
    simpa [Decl.code, Decl.routines, Decl.nodes, Node.isBranching, Node.isFunction, value.countP_isFunction,
      functionGroups] using h1
  | func p name params decls body =>
    simp only [Decl.nodes, List.forall_mem_cons, List.forall_mem_append] at h
    obtain ⟨-, hdecls, hbody⟩ := h
    have h1 := Decl.labelled_codeAll c.inside decls hdecls
    have h2 := Expr.labelled_code (c.labels + Decl.labelCountAll decls) body hbody
    have hbranchings : (Decl.func p name params decls body).nodes.countP Node.isBranching
        = (Decl.nodesAll decls).countP Node.isBranching + body.nodes.countP Node.isBranching := by
      simp [Decl.nodes, Node.isBranching]
    have hfunctions : (Decl.func p name params decls body).nodes.countP Node.isFunction
        = 1 + (Decl.nodesAll decls).countP Node.isFunction := by
      simp only [Decl.nodes, List.countP_cons, List.countP_append, Node.isFunction, body.countP_isFunction, ite_true]
      omega
    rw [hbranchings, hfunctions, branchingGroups_add, functionGroups_add, functionGroups_one]
    rw [List.perm_iff_count] at h1 h2 ⊢
    intro i
    have e1 := h1 i
    have e2 := h2 i
    simp only [Decl.code, Decl.routines, Routine.make, functionCode, List.flatMap_cons, Counters.inside,
      Decl.labelCountAll_eq, Code.labelled_append, Code.labelled_cons, Code.labelled_nil, Code.labelled_replicate_pop,
      Instr.mentionsLabel, ite_true, ite_false, Bool.false_eq_true, List.count_append, List.count_cons, List.count_nil,
      functionGroup] at e1 e2 ⊢
    omega

theorem Decl.labelled_codeAll (c : Counters) (ds : List Decl) (h : ∀ n ∈ Decl.nodesAll ds, n.IsSound) :
    (Code.labelled (Decl.codeAll c ds) ++ Code.labelled ((Decl.routinesAll c ds).flatMap Routine.code)).Perm
      (branchingGroups c.labels ((Decl.nodesAll ds).countP Node.isBranching)
        ++ functionGroups c.functions ((Decl.nodesAll ds).countP Node.isFunction)) := by
  cases ds with
  | nil => simp [Decl.codeAll, Decl.routinesAll, Decl.nodesAll, branchingGroups, functionGroups]
  | cons d ds =>
    simp only [Decl.nodesAll, List.forall_mem_append] at h
    have h1 := Decl.labelled_code c d h.1
    have h2 := Decl.labelled_codeAll (c.after d) ds h.2
    simp only [Decl.nodesAll, List.countP_append]
    rw [branchingGroups_add, functionGroups_add]
    rw [List.perm_iff_count] at h1 h2 ⊢
    intro i
    have e1 := h1 i
    have e2 := h2 i
    simp only [Decl.codeAll, Decl.routinesAll, List.flatMap_append, Counters.after, Decl.labelCount_eq,
      Decl.functionCount_eq, Code.labelled_append, List.count_append] at e1 e2 ⊢
    omega

end

/-- **The instructions that mention a label**, up to order: a group of four for each conditional or comparison and a
group of two for each function. -/
theorem Root.labelled_program (r : Root) (h : ∀ n ∈ r.nodes, n.IsSound) :
    (Code.labelled r.program.code).Perm
      (branchingGroups 0 (r.nodes.countP Node.isBranching) ++ functionGroups 0 (r.nodes.countP Node.isFunction)) := by
  cases r with
  | absent => simp [Root.nodes] at h
  | letIn p decls body =>
    simp only [Root.nodes, List.forall_mem_cons, List.forall_mem_append] at h
    obtain ⟨-, hdecls, hbody⟩ := h
    have h1 := Decl.labelled_codeAll .start decls hdecls
    have h2 := Expr.labelled_code (Decl.labelCountAll decls) body hbody
    have hbranchings : (Root.letIn p decls body).nodes.countP Node.isBranching
        = (Decl.nodesAll decls).countP Node.isBranching + body.nodes.countP Node.isBranching := by
      simp [Root.nodes, Node.isBranching]
    have hfunctions : (Root.letIn p decls body).nodes.countP Node.isFunction
        = (Decl.nodesAll decls).countP Node.isFunction := by
      simp [Root.nodes, Node.isFunction, body.countP_isFunction]
    rw [hbranchings, hfunctions, branchingGroups_add]
    rw [List.perm_iff_count] at h1 h2 ⊢
    intro i
    have e1 := h1 i
    have e2 := h2 i
    simp only [Root.program, Program.code, Counters.start, Decl.labelCountAll_eq, Code.labelled_append,
      Code.labelled_cons, Code.labelled_nil, pushInt, Instr.mentionsLabel, ite_false, Bool.false_eq_true,
      List.count_append, List.count_nil, Nat.zero_add] at e1 e2 ⊢
    omega
  | bare body =>
    simp only [Root.nodes, List.forall_mem_cons] at h
    have h1 := Expr.labelled_code 0 body h.2
    simpa [Root.program, Program.code, Root.nodes, Node.isBranching, Node.isFunction, body.countP_isFunction,
      functionGroups, Instr.mentionsLabel] using h1

/-! ## Names -/

theorem Label.name_injective : Function.Injective Label.name := by
  intro l l' h
  cases l with
  | control m =>
    cases l' with
    | control n =>
      have hmn : m = n := Nat.repr_injective ((String.append_right_inj "label").1 h)
      rw [hmn]
    | function n => simpa [Label.name] using congrArg String.toList h
  | function m =>
    cases l' with
    | control n => simpa [Label.name] using congrArg String.toList h
    | function n =>
      have hmn : m = n := Nat.repr_injective ((String.append_right_inj "function").1 h)
      rw [hmn]

/-- the first letter of a name is no digit and no sign -/
theorem Label.name_ne_toString (l : Label) (z : Int) : l.name ≠ toString z := by
  intro h
  have hletter : ∃ x ∈ (toString z).toList, x.isDigit = false ∧ x ≠ '-' := by
    rw [← h]
    cases l with
    | control n => exact ⟨'l', by simp [Label.name], by decide, by decide⟩
    | function n => exact ⟨'f', by simp [Label.name], by decide, by decide⟩
  obtain ⟨x, hx, hdigit, hsign⟩ := hletter
  cases z with
  | ofNat n =>
    have hd := isDigit_of_mem_toString n x hx
    rw [hdigit] at hd
    cases hd
  | negSucc n =>
    have hx' : x ∈ ("-" ++ toString (n + 1)).toList := hx
    rw [String.toList_append, List.mem_append] at hx'
    rcases hx' with hx' | hx'
    · exact hsign (by simpa using hx')
    · have hd := isDigit_of_mem_toString (n + 1) x hx'
      rw [hdigit] at hd
      cases hd

/-! ## Operands -/

/-- the operands, as text, of the instructions with one operation -/
def Code.operands (op : Opcode) (c : Code) : List String := (c.filter (·.opcode = op)).map Instr.operand

/-- an operation that has no operand but a label -/
def Opcode.takesLabel : Opcode → Bool
  | .beq | .b | .label => true
  | _ => false

theorem Code.filter_opcode_labelled (op : Opcode) (c : Code) (h : op.takesLabel = true) :
    (Code.labelled c).filter (·.opcode = op) = c.filter (·.opcode = op) := by
  unfold Code.labelled
  rw [List.filter_filter]
  refine List.filter_congr fun i _ => ?_
  by_cases hi : i.opcode = op
  · subst hi
    cases i <;> first | rfl | cases h
  · simp [hi]

variable {r : Root} {p : Program}

/-- the operands of an operation that takes labels, read off the groups -/
theorem operands_perm (h : r.compile = .ok p) (op : Opcode) (hop : op.takesLabel = true) :
    (p.code.operands op).Perm
      ((List.range (r.nodes.countP Node.isBranching)).flatMap (fun i => Code.operands op (branchingGroup (2 * i)))
        ++ (List.range (r.nodes.countP Node.isFunction)).flatMap (fun i => Code.operands op (functionGroup i))) := by
  obtain ⟨hsound, rfl⟩ := (r.compile_eq_ok_iff p).1 h
  have hperm := ((r.labelled_program hsound).filter (·.opcode = op)).map Instr.operand
  rw [Code.filter_opcode_labelled op _ hop] at hperm
  simpa only [branchingGroups, functionGroups, Code.operands, List.filter_append, List.filter_flatMap, List.map_append,
    List.map_flatMap, Nat.zero_add] using hperm

/-- pairs of neighbours, one after the other -/
theorem flatMap_range_pairs {α : Type} (f : Nat → α) (k : Nat) :
    (List.range k).flatMap (fun i => [f (2 * i), f (2 * i + 1)]) = (List.range (2 * k)).map f := by
  induction k with
  | zero => rfl
  | succ k ih => simp [List.range_succ, Nat.mul_succ, ih]

theorem operands_label_perm (h : r.compile = .ok p) :
    (p.code.operands .label).Perm
      (((List.range (2 * r.nodes.countP Node.isBranching)).map Label.control
        ++ (List.range (r.nodes.countP Node.isFunction)).map Label.function).map Label.name) := by
  have hperm := operands_perm h .label rfl
  have hgroup : ∀ i, Code.operands .label (branchingGroup (2 * i))
      = [(Label.control (2 * i)).name, (Label.control (2 * i + 1)).name] := fun i => rfl
  have hfunction : ∀ i, Code.operands .label (functionGroup i) = [(Label.function i).name] := fun i => rfl
  simp only [hgroup, hfunction, flatMap_range_pairs fun i => (Label.control i).name, ← List.map_eq_flatMap] at hperm
  simpa [Function.comp_def] using hperm

theorem nodup_labels (k n : Nat) : ((List.range k).map Label.control ++ (List.range n).map Label.function).Nodup := by
  have hcontrols : ((List.range k).map Label.control).Nodup := List.nodup_range.map fun i j => Label.control.inj
  have hfunctions : ((List.range n).map Label.function).Nodup := List.nodup_range.map fun i j => Label.function.inj
  exact hcontrols.append hfunctions (by simp [List.disjoint_left])

theorem operands_label_nodup (h : r.compile = .ok p) : (p.code.operands .label).Nodup :=
  (operands_label_perm h).nodup_iff.2 ((nodup_labels _ _).map Label.name_injective)

/-- the operands of a branch, one for each conditional or comparison -/
theorem operands_branch_perm (h : r.compile = .ok p) (op : Opcode) (hop : op.takesLabel = true) (f : Nat → Label)
    (hgroup : ∀ i, Code.operands op (branchingGroup (2 * i)) = [(f i).name])
    (hfunction : ∀ i, Code.operands op (functionGroup i) = []) :
    (p.code.operands op).Perm ((List.range (r.nodes.countP Node.isBranching)).map fun i => (f i).name) := by
  have hperm := operands_perm h op hop
  have hnil : (List.range (r.nodes.countP Node.isFunction)).flatMap
      (fun i => Code.operands op (functionGroup i)) = [] := List.flatMap_eq_nil_iff.2 fun i _ => hfunction i
  rw [hnil, List.append_nil] at hperm
  simpa only [hgroup, ← List.map_eq_flatMap] using hperm

/-- the labels that are pushed -/
theorem count_push_address (h : r.compile = .ok p) (l : Label) :
    p.code.count (.push (.address l))
      = ((List.range (r.nodes.countP Node.isFunction)).map Label.function).count l := by
  obtain ⟨hsound, rfl⟩ := (r.compile_eq_ok_iff p).1 h
  have hcount := (r.labelled_program hsound).count_eq (.push (.address l))
  rw [Code.labelled, List.count_filter rfl, List.count_append] at hcount
  rw [hcount]
  have hb : (branchingGroups 0 (r.nodes.countP Node.isBranching)).count (.push (.address l)) = 0 := by
    refine List.count_eq_zero.2 fun hmem => ?_
    obtain ⟨i, -, hi⟩ := List.mem_flatMap.1 hmem
    simp [branchingGroup] at hi
  have hf : (functionGroups 0 (r.nodes.countP Node.isFunction)).count (.push (.address l))
      = ((List.range (r.nodes.countP Node.isFunction)).map Label.function).count l := by
    generalize r.nodes.countP Node.isFunction = n
    induction n with
    | zero => rfl
    | succ n ih =>
      rw [functionGroups_add, functionGroups_one, List.count_append, ih, List.range_succ, List.map_append,
        List.count_append]
      simp [functionGroup, List.count_cons]
  rw [hb, hf, Nat.zero_add]

theorem Code.count_operands (op : Opcode) (c : Code) (s : String) :
    (c.operands op).count s = c.countP fun i => i.opcode = op ∧ i.operand = s := by
  unfold Code.operands List.count
  rw [List.countP_map, List.countP_filter]
  refine List.countP_congr fun i _ => ?_
  simp [and_comm]

/-- the name of a label stands for no other label -/
theorem Instr.eq_label_iff (i : Instr) (l : Label) : i.opcode = .label ∧ i.operand = l.name ↔ i = .label l := by
  cases i <;> simp [Instr.opcode, Instr.operand, Label.name_injective.eq_iff]

/-- the name of a label is pushed by pushing the label only -/
theorem Instr.eq_push_address_iff (i : Instr) (l : Label) :
    i.opcode = .push ∧ i.operand = l.name ↔ i = .push (.address l) := by
  cases i with
  | push v =>
    cases v with
    | int z => exact ⟨fun h => absurd h.2.symm (l.name_ne_toString z.toInt), fun h => by cases h⟩
    | address l' => simp [Instr.opcode, Instr.operand, Operand.text, Label.name_injective.eq_iff]
  | _ => simp [Instr.opcode]

theorem Code.count_label_name (c : Code) (l : Label) : (c.operands .label).count l.name = c.count (.label l) := by
  rw [Code.count_operands]
  exact List.countP_congr fun i _ => by simp [Instr.eq_label_iff]

theorem Code.count_push_name (c : Code) (l : Label) :
    (c.operands .push).count l.name = c.count (.push (.address l)) := by
  rw [Code.count_operands]
  exact List.countP_congr fun i _ => by simp [Instr.eq_push_address_iff]

theorem mem_range_names {names : List String} {f : Nat → Label} {k : Nat}
    (h : names.Perm ((List.range k).map fun i => (f i).name)) (s : String) :
    s ∈ names ↔ ∃ i < k, s = (f i).name := by
  rw [h.mem_iff, List.mem_map]
  simp only [List.mem_range, eq_comm]

theorem not_mem_range_names {names : List String} {f : Nat → Label} {k : Nat}
    (h : names.Perm ((List.range k).map fun i => (f i).name)) {l : Label} (hl : ∀ i, l ≠ f i) : l.name ∉ names := by
  rw [mem_range_names h]
  rintro ⟨i, -, hi⟩
  exact hl i (Label.name_injective hi)

theorem count_range_names {names : List String} {f : Nat → Label} {k : Nat}
    (h : names.Perm ((List.range k).map fun i => (f i).name)) (hf : Function.Injective f) {i : Nat} (hi : i < k) :
    names.count (f i).name = 1 := by
  rw [h.count_eq]
  refine List.count_eq_one_of_mem (List.nodup_range.map (Label.name_injective.comp hf)) ?_
  exact List.mem_map.2 ⟨i, List.mem_range.2 hi, rfl⟩

/-- **Label discipline.** Of a program made from a tree with `k` conditionals and comparisons and `n` functions: the
labels defined are pairwise distinct, and are the first `2k` control labels and the first `n` function labels; each even
control label is the target of one `beq` and of no `b`, each odd one of one `b` and of no `beq`, and there are no other
branches; each function label is pushed once and branched to by none; any other push is of an integer whose text is the
name of no label. -/
theorem labels_defined_once_and_used_once (h : r.compile = .ok p) :
    let k := r.nodes.countP Node.isBranching
    let n := r.nodes.countP Node.isFunction
    let control := fun (i : Nat) => "label" ++ toString i
    let function := fun (i : Nat) => "function" ++ toString i
    (p.code.operands .label).Nodup ∧
    (∀ s, s ∈ p.code.operands .label ↔ (∃ i < 2 * k, s = control i) ∨ ∃ i < n, s = function i) ∧
    (∀ i < k, (p.code.operands .beq).count (control (2 * i)) = 1 ∧ control (2 * i) ∉ p.code.operands .b) ∧
    (∀ i < k, (p.code.operands .b).count (control (2 * i + 1)) = 1 ∧ control (2 * i + 1) ∉ p.code.operands .beq) ∧
    (∀ s ∈ p.code.operands .beq, ∃ i < k, s = control (2 * i)) ∧
    (∀ s ∈ p.code.operands .b, ∃ i < k, s = control (2 * i + 1)) ∧
    (∀ i < n, (p.code.operands .push).count (function i) = 1 ∧ function i ∉ p.code.operands .beq ∧
      function i ∉ p.code.operands .b) ∧
    (∀ v, Instr.push v ∈ p.code → (∃ i < n, v = .address (.function i)) ∨
      ∃ z : Int64, v = .int z ∧ ∀ l : Label, v.text ≠ l.name) := by
  intro k n control function
  have hlabel := operands_label_perm h
  have hbeq := operands_branch_perm h .beq rfl (fun i => .control (2 * i)) (fun _ => rfl) fun _ => rfl
  have hb := operands_branch_perm h .b rfl (fun i => .control (2 * i + 1)) (fun _ => rfl) fun _ => rfl
  have hpush := count_push_address h
  have hpushed : ∀ l, l ∈ (List.range n).map Label.function ↔ ∃ i < n, l = .function i := fun l => by
    simp only [List.mem_map, List.mem_range, eq_comm]
  refine ⟨operands_label_nodup h, fun s => ?_, fun i hi => ⟨?_, ?_⟩, fun i hi => ⟨?_, ?_⟩, fun s => ?_, fun s => ?_,
    fun i hi => ⟨?_, ?_, ?_⟩, fun v hv => ?_⟩
  · rw [hlabel.mem_iff]
    simp only [List.map_append, List.map_map, List.mem_append, List.mem_map, List.mem_range, Function.comp_apply]
    simp only [eq_comm (a := s)]
    exact Iff.rfl
  · exact count_range_names hbeq (fun i j hij => by simpa using hij) hi
  · exact not_mem_range_names (l := .control (2 * i)) hb fun j hj => by
      have := Label.control.inj hj
      omega
  · exact count_range_names hb (fun i j hij => by simpa using hij) hi
  · exact not_mem_range_names (l := .control (2 * i + 1)) hbeq fun j hj => by
      have := Label.control.inj hj
      omega
  · exact (mem_range_names hbeq s).1
  · exact (mem_range_names hb s).1
  · have hfunctions : ((List.range n).map Label.function).Nodup := List.nodup_range.map fun i j => Label.function.inj
    have hcount := Code.count_push_name p.code (.function i)
    rw [hpush, List.count_eq_one_of_mem hfunctions ((hpushed _).2 ⟨i, hi, rfl⟩)] at hcount
    exact hcount
  · exact not_mem_range_names (l := .function i) hbeq fun j => Label.noConfusion
  · exact not_mem_range_names (l := .function i) hb fun j => Label.noConfusion
  · cases v with
    | int z => exact Or.inr ⟨z, rfl, fun l => (l.name_ne_toString z.toInt).symm⟩
    | address l =>
      left
      have hpos : 0 < p.code.count (.push (.address l)) := List.count_pos_iff.2 hv
      rw [hpush] at hpos
      obtain ⟨i, hi, rfl⟩ := (hpushed l).1 (List.count_pos_iff.1 hpos)
      exact ⟨i, hi, rfl⟩

/-- The sum tree has one conditional, one comparison and two functions; `label0` to `label3`, `function0` and
`function1` are its labels. -/
theorem sumTree_labels :
    sumTree.compile = .ok sumTree.program ∧
    (sumTree.program.code.operands .label).Nodup ∧
    (sumTree.program.code.operands .beq).count "label2" = 1 ∧ "label2" ∉ sumTree.program.code.operands .b ∧
    (sumTree.program.code.operands .push).count "function1" = 1 := by
  have hok : sumTree.compile = .ok sumTree.program := rfl
  obtain ⟨h1, -, h2, -, -, -, h3, -⟩ := labels_defined_once_and_used_once hok
  exact ⟨hok, h1, (h2 1 (by decide)).1, (h2 1 (by decide)).2, (h3 1 (by decide)).1⟩

/-! ## Where a label leads -/

/-- the place where a label is defined -/
def Code.target? (c : Code) (l : Label) : Option Nat := c.findIdx? (· = .label l)

/-- no label is defined twice -/
def Code.LabelsDistinct (c : Code) : Prop := ∀ l, c.count (.label l) ≤ 1

theorem labelsDistinct_of_compile (h : r.compile = .ok p) : p.code.LabelsDistinct := by
  intro l
  rw [← Code.count_label_name]
  exact List.nodup_iff_count_le_one.1 (operands_label_nodup h) _

/-- so a label leads to the one place where it is defined -/
theorem Code.target?_eq {code : Code} (hcode : code.LabelsDistinct) {i : Nat} {l : Label}
    (h : code[i]? = some (.label l)) : code.target? l = some i := by
  obtain ⟨hi, hil⟩ := List.getElem?_eq_some_iff.1 h
  have hsplit : code = code.take i ++ .label l :: code.drop (i + 1) := by
    rw [← hil, ← List.drop_eq_getElem_cons hi, List.take_append_drop]
  have hpre : Instr.label l ∉ code.take i := by
    have hcount := hcode l
    rw [hsplit, List.count_append, List.count_cons_self] at hcount
    exact List.count_eq_zero.1 (by omega)
  have hnone : (code.take i).findIdx? (· = .label l) = none := by
    refine List.findIdx?_eq_none_iff.2 fun x hx => ?_
    exact decide_eq_false fun hxl => hpre (hxl ▸ hx)
  unfold Code.target?
  rw [hsplit, List.findIdx?_append, hnone, List.findIdx?_cons]
  simp [Nat.min_eq_left (Nat.le_of_lt hi)]

end LetStack

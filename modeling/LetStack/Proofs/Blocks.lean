/-
Blocks: the top level and the routines, one after the other.

A branch is generated together with its label: first the branch, then the code between, which may hold further
branches of its own, then the label. Function bodies never stand in between, they go to the pool. So within a block
every branch leads forward and none leads out, and since a block ends with an instruction that does not fall through,
control leaves a block only by `js`.

Results:
- `blocks_closed_and_forward`: in every block, the label of a branch is defined at a later index of the same block; the
  top level ends with the program's only `halt`; a routine starts with its own label, defined nowhere else, and ends
  with `js`; a path by sequential flow and branches stays in the block where it starts and is no longer than it.
-/
import LetStack.Proofs.Labels

namespace LetStack

/-! ## Branches -/

namespace Instr

/-- the label that an instruction may branch to -/
def branch? : Instr → Option Label
  | .beq l | .b l => some l
  | _ => none

/-- may control pass to the instruction that follows? -/
def fallsThrough : Instr → Bool
  | .b _ | .js | .halt => false
  | _ => true

end Instr

namespace Code

/-- every branch finds its label further on, in the code itself or in the code `rest` that follows it -/
def ForwardInto (rest : Code) : Code → Prop
  | [] => True
  | i :: code => (∀ l, i.branch? = some l → .label l ∈ code ++ rest) ∧ ForwardInto rest code

theorem forwardInto_append (rest a b : Code) :
    ForwardInto rest (a ++ b) ↔ ForwardInto (b ++ rest) a ∧ ForwardInto rest b := by
  induction a with
  | nil => simp [ForwardInto]
  | cons i a ih => simp only [List.cons_append, ForwardInto, ih, List.append_assoc, and_assoc]

theorem ForwardInto.mono {rest rest' code : Code} (hsub : rest ⊆ rest') (h : ForwardInto rest code) :
    ForwardInto rest' code := by
  induction code with
  | nil => trivial
  | cons i code ih =>
    refine ⟨fun l hl => ?_, ih h.2⟩
    rcases List.mem_append.1 (h.1 l hl) with hmem | hmem
    · exact List.mem_append_left _ hmem
    · exact List.mem_append_right _ (hsub hmem)

/-- every branch finds its label further on in the code -/
abbrev Forward (code : Code) : Prop := ForwardInto [] code

theorem Forward.into {code : Code} (h : Forward code) (rest : Code) : ForwardInto rest code :=
  ForwardInto.mono (List.nil_subset rest) h

/-- code without branches -/
theorem forwardInto_of_branchless {code : Code} (rest : Code) (h : ∀ i ∈ code, i.branch? = none) :
    ForwardInto rest code := by
  induction code with
  | nil => trivial
  | cons i code ih =>
    refine ⟨fun l hl => ?_, ih fun j hj => h j (List.mem_cons_of_mem _ hj)⟩
    rw [h i List.mem_cons_self] at hl
    cases hl

/-- the label of a branch stands at a later index -/
theorem Forward.exists_later {code : Code} (h : Forward code) {i : Nat} {x : Instr} {l : Label}
    (hi : code[i]? = some x) (hx : x.branch? = some l) : ∃ j, i < j ∧ code[j]? = some (.label l) := by
  induction code generalizing i with
  | nil => simp at hi
  | cons y code ih =>
    cases i with
    | zero =>
      simp only [List.getElem?_cons_zero, Option.some.injEq] at hi
      have hmem := h.1 l (hi ▸ hx)
      rw [List.append_nil] at hmem
      obtain ⟨j, hj⟩ := List.mem_iff_getElem?.1 hmem
      exact ⟨j + 1, Nat.succ_pos j, by simpa using hj⟩
    | succ i =>
      rw [List.getElem?_cons_succ] at hi
      obtain ⟨j, hij, hj⟩ := ih h.2 hi
      exact ⟨j + 1, Nat.succ_lt_succ hij, by simpa using hj⟩

end Code

/-! ## The generator -/

theorem Reference.frame_branchless (r : Reference) : ∀ i ∈ r.frame, i.branch? = none ∧ i ≠ .halt := by
  intro i hi
  rcases List.mem_cons.1 hi with rfl | hi
  · exact ⟨rfl, by simp⟩
  · rw [List.eq_of_mem_replicate hi]
    exact ⟨rfl, by simp⟩

mutual

theorem Expr.forward_code (next : Nat) (e : Expr) : Code.Forward (e.code next) := by
  cases e with
  | absent => trivial
  | literal p v => cases v <;> simp [Expr.code, Code.ForwardInto, pushInt, Instr.branch?]
  | ident p r =>
    have hframe := Code.forwardInto_of_branchless [pushInt r.offset, .add, .lw] fun i hi => (r.frame_branchless i hi).1
    simp only [Expr.code, Code.forwardInto_append, List.append_nil]
    exact ⟨hframe, by simp [Code.ForwardInto, pushInt, Instr.branch?]⟩
  | call p r args =>
    have hframe := fun rest => Code.forwardInto_of_branchless rest fun i hi => (r.frame_branchless i hi).1
    have hargs := Expr.forward_argsCode next args
    simp only [Expr.code, Code.forwardInto_append]
    exact ⟨⟨⟨by simp [Code.ForwardInto, Instr.branch?], hargs.into _⟩, hframe _⟩,
      by simp [Code.ForwardInto, pushInt, Instr.branch?]⟩
  | cond p test yes no =>
    have h1 := Expr.forward_code (next + 2) test
    have h2 := Expr.forward_code (next + 2 + test.labelCount) no
    have h3 := Expr.forward_code (next + 2 + test.labelCount + no.labelCount) yes
    simp only [Expr.code, Code.forwardInto_append]
    exact ⟨⟨⟨⟨⟨h1.into _, by simp [Code.ForwardInto, pushInt, Instr.branch?]⟩, h2.into _⟩,
      by simp [Code.ForwardInto, Instr.branch?]⟩, h3.into _⟩, by simp [Code.ForwardInto, Instr.branch?]⟩
  | binary p op left right =>
    have h1 := fun n => Expr.forward_code n left
    have h2 := fun n => Expr.forward_code n right
    cases op with
    | illegal c => trivial
    | _ =>
      simp only [Expr.code, Code.forwardInto_append]
      exact ⟨⟨(h1 _).into _, (h2 _).into _⟩, by simp [Code.ForwardInto, pushInt, Instr.branch?]⟩
  | print p arg =>
    have h := Expr.forward_code next arg
    simp only [Expr.code, Code.forwardInto_append]
    exact ⟨h.into _, by simp [Code.ForwardInto, Instr.branch?]⟩

theorem Expr.forward_argsCode (next : Nat) (es : List Expr) : Code.Forward (Expr.argsCode next es) := by
  cases es with
  | nil => trivial
  | cons e es =>
    have h1 := Expr.forward_argsCode next es
    have h2 := Expr.forward_code (next + Expr.labelCountAll es) e
    simp only [Expr.argsCode, Code.Forward, Code.forwardInto_append]
    exact ⟨h1.into _, h2⟩

end

theorem Decl.forward_codeAll (c : Counters) (ds : List Decl) : Code.Forward (Decl.codeAll c ds) := by
  induction ds generalizing c with
  | nil => trivial
  | cons d ds ih =>
    have hd : Code.Forward (d.code c) := by
      cases d with
      | absent => trivial
      | var p name value => exact value.forward_code c.labels
      | func p name params decls body => simp [Decl.code, Code.ForwardInto, Instr.branch?]
    simp only [Decl.codeAll, Code.Forward, Code.forwardInto_append]
    exact ⟨hd.into _, ih (c.after d)⟩

theorem forward_functionCode (c : Counters) (params : List Param) (decls : List Decl) (body : Expr) :
    Code.Forward (functionCode c params decls body) := by
  have h1 := Decl.forward_codeAll c.inside decls
  have h2 := body.forward_code (c.labels + Decl.labelCountAll decls)
  have hpops : ∀ (n : Nat) (rest : Code), Code.ForwardInto rest (List.replicate n .pop) := fun n rest =>
    Code.forwardInto_of_branchless rest fun i hi => by rw [List.eq_of_mem_replicate hi]; rfl
  simp only [functionCode, Code.Forward, Code.forwardInto_append]
  exact ⟨⟨⟨⟨⟨⟨⟨by simp [Code.ForwardInto, Instr.branch?], h1.into _⟩, h2.into _⟩,
    by simp [Code.ForwardInto, Instr.branch?]⟩, hpops _ _⟩, by simp [Code.ForwardInto, Instr.branch?]⟩, hpops _ _⟩,
    by simp [Code.ForwardInto, Instr.branch?]⟩

/-! ### No halt inside -/

mutual

theorem Expr.halt_not_mem_code (next : Nat) (e : Expr) : Instr.halt ∉ e.code next := by
  cases e with
  | absent => simp [Expr.code]
  | literal p v => cases v <;> simp [Expr.code, pushInt]
  | ident p r =>
    have hframe : Instr.halt ∉ r.frame := fun h => (r.frame_branchless _ h).2 rfl
    simp [Expr.code, hframe, pushInt]
  | call p r args =>
    have hframe : Instr.halt ∉ r.frame := fun h => (r.frame_branchless _ h).2 rfl
    have hargs := Expr.halt_not_mem_argsCode next args
    simp [Expr.code, hframe, hargs, pushInt]
  | cond p test yes no =>
    have h1 := fun n => Expr.halt_not_mem_code n test
    have h2 := fun n => Expr.halt_not_mem_code n no
    have h3 := fun n => Expr.halt_not_mem_code n yes
    simp [Expr.code, h1, h2, h3, pushInt]
  | binary p op left right =>
    have h1 := fun n => Expr.halt_not_mem_code n left
    have h2 := fun n => Expr.halt_not_mem_code n right
    cases op <;> simp [Expr.code, h1, h2, pushInt]
  | print p arg => simp [Expr.code, Expr.halt_not_mem_code next arg]

theorem Expr.halt_not_mem_argsCode (next : Nat) (es : List Expr) : Instr.halt ∉ Expr.argsCode next es := by
  cases es with
  | nil => simp [Expr.argsCode]
  | cons e es =>
    simp [Expr.argsCode, Expr.halt_not_mem_argsCode next es, Expr.halt_not_mem_code (next + Expr.labelCountAll es) e]

end

theorem Decl.halt_not_mem_codeAll (c : Counters) (ds : List Decl) : Instr.halt ∉ Decl.codeAll c ds := by
  induction ds generalizing c with
  | nil => simp [Decl.codeAll]
  | cons d ds ih => cases d <;> simp [Decl.codeAll, Decl.code, ih, Expr.halt_not_mem_code]

theorem halt_not_mem_functionCode (c : Counters) (params : List Param) (decls : List Decl) (body : Expr) :
    Instr.halt ∉ functionCode c params decls body := by
  simp [functionCode, Decl.halt_not_mem_codeAll, Expr.halt_not_mem_code]

/-! ### Routines -/

/-- a routine as the generator makes it: started by its own label, closed, and ended by a return -/
structure Routine.IsClosed (q : Routine) : Prop where
  head : q.code.head? = some (.label q.label)
  last : q.code.getLast? = some .js
  forward : Code.Forward q.code
  haltless : Instr.halt ∉ q.code

theorem Routine.isClosed_make (c : Counters) (pos : Position) (name : String) (params : List Param)
    (decls : List Decl) (body : Expr) : (Routine.make c pos name params decls body).IsClosed where
  head := by simp [Routine.make, functionCode]
  last := by
    simp only [Routine.make, functionCode]
    rw [List.getLast?_append]
    rfl
  forward := forward_functionCode c params decls body
  haltless := halt_not_mem_functionCode c params decls body

mutual

theorem Decl.isClosed_routines (c : Counters) (d : Decl) : ∀ q ∈ d.routines c, q.IsClosed := by
  cases d with
  | absent => simp [Decl.routines]
  | var p name value => simp [Decl.routines]
  | func p name params decls body =>
    intro q hq
    rcases List.mem_cons.1 hq with rfl | hq
    · exact Routine.isClosed_make c p name params decls body
    · exact Decl.isClosed_routinesAll c.inside decls q hq

theorem Decl.isClosed_routinesAll (c : Counters) (ds : List Decl) : ∀ q ∈ Decl.routinesAll c ds, q.IsClosed := by
  cases ds with
  | nil => simp [Decl.routinesAll]
  | cons d ds =>
    intro q hq
    rcases List.mem_append.1 hq with hq | hq
    · exact Decl.isClosed_routines c d q hq
    · exact Decl.isClosed_routinesAll (c.after d) ds q hq

end

/-! ## Programs -/

/-- the blocks of a program in the order of its code -/
def Program.blocks (p : Program) : List Code := p.toplevel :: p.routines.map Routine.code

theorem Program.code_eq_flatten (p : Program) : p.code = p.blocks.flatten := by
  simp [Program.code, Program.blocks, List.flatMap_def]

/-- a program whose blocks are closed -/
structure Program.IsClosed (p : Program) : Prop where
  toplevel : ∃ main, p.toplevel = main ++ [.halt] ∧ Code.Forward main ∧ Instr.halt ∉ main
  routines : ∀ q ∈ p.routines, q.IsClosed

theorem Root.isClosed_program (r : Root) (hr : r ≠ .absent) : r.program.IsClosed := by
  cases r with
  | absent => exact absurd rfl hr
  | letIn p decls body =>
    refine ⟨⟨_, rfl, ?_, ?_⟩, Decl.isClosed_routinesAll .start decls⟩
    · have h1 := Decl.forward_codeAll .start decls
      have h2 := body.forward_code (Decl.labelCountAll decls)
      simp only [Code.Forward, Code.forwardInto_append]
      exact ⟨⟨by simp [Code.ForwardInto, pushInt, Instr.branch?], h1.into _⟩, h2⟩
    · simp [pushInt, Decl.halt_not_mem_codeAll, Expr.halt_not_mem_code]
  | bare body =>
    exact ⟨⟨_, rfl, body.forward_code 0, body.halt_not_mem_code 0⟩, by simp [Root.program]⟩

theorem isClosed_of_compile {r : Root} {p : Program} (h : r.compile = .ok p) : p.IsClosed := by
  obtain ⟨hsound, rfl⟩ := (r.compile_eq_ok_iff p).1 h
  refine r.isClosed_program ?_
  rintro rfl
  simp [Root.nodes] at hsound

namespace Program.IsClosed

variable {p : Program}

theorem forward (h : p.IsClosed) : ∀ block ∈ p.blocks, Code.Forward block := by
  intro block hblock
  rcases List.mem_cons.1 hblock with rfl | hblock
  · obtain ⟨main, hmain, hforward, -⟩ := h.toplevel
    rw [hmain, Code.Forward, Code.forwardInto_append]
    exact ⟨hforward.into _, by simp [Code.ForwardInto, Instr.branch?]⟩
  · obtain ⟨q, hq, rfl⟩ := List.mem_map.1 hblock
    exact (h.routines q hq).forward

/-- no block runs over its end -/
theorem last_stops (h : p.IsClosed) : ∀ block ∈ p.blocks, ∃ x, block.getLast? = some x ∧ x.fallsThrough = false := by
  intro block hblock
  rcases List.mem_cons.1 hblock with rfl | hblock
  · obtain ⟨main, hmain, -, -⟩ := h.toplevel
    exact ⟨.halt, by rw [hmain, List.getLast?_concat], rfl⟩
  · obtain ⟨q, hq, rfl⟩ := List.mem_map.1 hblock
    exact ⟨.js, (h.routines q hq).last, rfl⟩

theorem count_halt (h : p.IsClosed) : p.code.count .halt = 1 := by
  obtain ⟨main, hmain, -, hhalt⟩ := h.toplevel
  have hroutines : Instr.halt ∉ p.routines.flatMap Routine.code := by
    intro hmem
    obtain ⟨q, hq, hqhalt⟩ := List.mem_flatMap.1 hmem
    exact (h.routines q hq).haltless hqhalt
  rw [Program.code, hmain, List.count_append, List.count_append, List.count_eq_zero.2 hhalt,
    List.count_eq_zero.2 hroutines]
  rfl

end Program.IsClosed

/-! ## Paths -/

/-- control may pass from an index to another without a jump through a register: to the next instruction, or along a
branch -/
inductive Code.Flows (code : Code) : Nat → Nat → Prop
  | next {i : Nat} {x : Instr} : code[i]? = some x → x.fallsThrough = true → Flows code i (i + 1)
  | branch {i j : Nat} {x : Instr} {l : Label} :
    code[i]? = some x → x.branch? = some l → code.target? l = some j → Flows code i j

/-- one step of the flow goes forward and stays in its block -/
theorem Code.Flows.stays {pre block post : Code} (hlabels : Code.LabelsDistinct (pre ++ block ++ post))
    (hforward : block.Forward) (hlast : ∃ x, block.getLast? = some x ∧ x.fallsThrough = false) {i j : Nat}
    (hflow : Code.Flows (pre ++ block ++ post) i j) (hlow : pre.length ≤ i) (hhigh : i < pre.length + block.length) :
    i < j ∧ j < pre.length + block.length := by
  have hat : ∀ n < block.length, (pre ++ block ++ post)[pre.length + n]? = block[n]? := by
    intro n hn
    rw [List.append_assoc, List.getElem?_append_right (Nat.le_add_right _ _), Nat.add_sub_cancel_left,
      List.getElem?_append_left hn]
  obtain ⟨n, rfl⟩ := Nat.exists_eq_add_of_le hlow
  have hn : n < block.length := by omega
  cases hflow with
  | next hx hfalls =>
    rw [hat n hn] at hx
    refine ⟨Nat.lt_succ_self _, ?_⟩
    -- the last instruction of the block does not fall through, so this is not the last
    by_contra hend
    obtain ⟨y, hy, hstop⟩ := hlast
    rw [List.getLast?_eq_getElem?, show block.length - 1 = n by omega, hx] at hy
    cases hy
    rw [hstop] at hfalls
    cases hfalls
  | branch hx hbranch htarget =>
    rw [hat n hn] at hx
    obtain ⟨m, hnm, hm⟩ := hforward.exists_later hx hbranch
    have hmlt : m < block.length := (List.getElem?_eq_some_iff.1 hm).1
    have hplace := Code.target?_eq hlabels (i := pre.length + m) ((hat m hmlt).trans hm)
    rw [htarget] at hplace
    cases hplace
    omega

/-- a path that starts in a block -/
theorem path_stays {pre block post : Code} (hlabels : Code.LabelsDistinct (pre ++ block ++ post))
    (hforward : block.Forward) (hlast : ∃ x, block.getLast? = some x ∧ x.fallsThrough = false) {i : Nat}
    {path : List Nat} (hpath : List.IsChain (Code.Flows (pre ++ block ++ post)) (i :: path)) (hlow : pre.length ≤ i)
    (hhigh : i < pre.length + block.length) :
    (∀ j ∈ i :: path, pre.length ≤ j ∧ j < pre.length + block.length) ∧
      i + (i :: path).length ≤ pre.length + block.length := by
  induction path generalizing i with
  | nil => simp; omega
  | cons j path ih =>
    rw [List.isChain_cons_cons] at hpath
    obtain ⟨hij, hj⟩ := Code.Flows.stays hlabels hforward hlast hpath.1 hlow hhigh
    obtain ⟨hrest, hlength⟩ := ih hpath.2 (by omega) hj
    refine ⟨fun k hk => ?_, by simp only [List.length_cons] at hlength ⊢; omega⟩
    rcases List.mem_cons.1 hk with rfl | hk
    · exact ⟨hlow, hhigh⟩
    · exact hrest k hk

/-- **Blocks are closed and branch only forward.** In every block, the label of a branch is defined in the same block at
a later index. The top level ends with `halt`, the only one of the program; a routine starts with its own label, which
is defined nowhere else, and ends with `js`. A path by sequential flow and branches never leaves the block in which it
starts, and visits no more instructions than the block has. -/
theorem blocks_closed_and_forward {r : Root} {p : Program} (h : r.compile = .ok p) :
    (∀ block ∈ p.blocks, ∀ (i : Nat) (l : Label),
      block[i]? = some (Instr.beq l) ∨ block[i]? = some (Instr.b l) →
      ∃ j, i < j ∧ block[j]? = some (Instr.label l)) ∧
    p.toplevel.getLast? = some .halt ∧ p.code.count .halt = 1 ∧
    (∀ q ∈ p.routines, q.code.head? = some (.label q.label) ∧ p.code.count (.label q.label) = 1 ∧
      q.code.getLast? = some .js) ∧
    (∀ before block after, p.blocks = before ++ block :: after → ∀ i path,
      List.IsChain p.code.Flows (i :: path) →
      before.flatten.length ≤ i → i < before.flatten.length + block.length →
      (∀ j ∈ i :: path, before.flatten.length ≤ j ∧ j < before.flatten.length + block.length) ∧
        (i :: path).length ≤ block.length) := by
  have hlabels := labelsDistinct_of_compile h
  obtain ⟨hsound, rfl⟩ := (r.compile_eq_ok_iff p).1 h
  have hclosed : r.program.IsClosed := r.isClosed_program fun hr => by
    subst hr
    simp [Root.nodes] at hsound
  refine ⟨?_, ?_, hclosed.count_halt, ?_, ?_⟩
  · rintro block hblock i l (hi | hi)
    · exact (hclosed.forward block hblock).exists_later hi rfl
    · exact (hclosed.forward block hblock).exists_later hi rfl
  · obtain ⟨main, hmain, -, -⟩ := hclosed.toplevel
    rw [hmain, List.getLast?_concat]
  · intro q hq
    have hq' := hclosed.routines q hq
    refine ⟨hq'.head, le_antisymm (hlabels q.label) (List.count_pos_iff.2 ?_), hq'.last⟩
    exact List.mem_append_right _ (List.mem_flatMap.2 ⟨q, hq, List.mem_of_mem_head? hq'.head⟩)
  · intro before block after hblocks i path hpath hlow hhigh
    have hcode : r.program.code = before.flatten ++ block ++ after.flatten := by
      rw [Program.code_eq_flatten, hblocks]
      simp
    have hmem : block ∈ r.program.blocks := by simp [hblocks]
    rw [hcode] at hlabels hpath
    obtain ⟨hstay, hlength⟩ :=
      path_stays hlabels (hclosed.forward block hmem) (hclosed.last_stops block hmem) hpath hlow hhigh
    exact ⟨hstay, by omega⟩

/-- The sum tree: the block of `sum` starts with `function0`, and its branches stay inside. -/
theorem sumTree_blocks :
    sumTree.compile = .ok sumTree.program ∧ sumTree.program.code.count .halt = 1 ∧
    (∀ q ∈ sumTree.program.routines, q.code.head? = some (.label q.label) ∧ q.code.getLast? = some .js) ∧
    ∀ block ∈ sumTree.program.blocks, ∀ (i : Nat) (l : Label),
      block[i]? = some (Instr.beq l) ∨ block[i]? = some (Instr.b l) →
      ∃ j, i < j ∧ block[j]? = some (Instr.label l) := by
  have hok : sumTree.compile = .ok sumTree.program := rfl
  obtain ⟨h1, -, h2, h3, -⟩ := blocks_closed_and_forward hok
  exact ⟨hok, h2, fun q hq => ⟨(h3 q hq).1, (h3 q hq).2.2⟩, h1⟩

end LetStack

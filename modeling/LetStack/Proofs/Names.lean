/-
Names and positions do not reach the code.

A resolved tree says where each reference leads by levels and offsets. Names and positions are there for people: they
are shown in logs and messages, and nothing else may depend on them. `stripped` is a tree without them, so two trees
that are equal except for names and positions are two trees with the same stripped tree.

`Interchangeable` holds of two expressions, or of two lists of declarations, that take the same labels and have the same
code wherever the numbers start, and whose bad nodes are bad for the same causes in the same order. A tree is
interchangeable with its stripped tree, whatever its names are: a label is made of a number only, so no name, though it
be `function0` or `label1`, is mistaken for one or takes a number away.

Results:
- `Expr.interchangeable_stripped`, `Decl.interchangeable_stripped`: one induction for labels, code, routines and causes;
- `names_and_positions_do_not_reach_the_code`.
-/
import LetStack.Proofs.FirstFault

namespace LetStack

/-! ## Trees without names and positions -/

def Reference.stripped (r : Reference) : Reference := { r with name := "" }

mutual

def Expr.stripped : Expr → Expr
  | .absent => .absent
  | .literal _ value => .literal .unknown value
  | .ident _ r => .ident .unknown r.stripped
  | .call _ r args => .call .unknown r.stripped (Expr.strippedAll args)
  | .cond _ test yes no => .cond .unknown test.stripped yes.stripped no.stripped
  | .binary _ op left right => .binary .unknown op left.stripped right.stripped
  | .print _ arg => .print .unknown arg.stripped

def Expr.strippedAll : List Expr → List Expr
  | [] => []
  | e :: es => e.stripped :: Expr.strippedAll es

end

/-- of a parameter nothing stays but that it is there -/
def Param.stripped (_ : Param) : Param := ⟨"", .unknown⟩

mutual

def Decl.stripped : Decl → Decl
  | .absent => .absent
  | .var _ _ value => .var .unknown "" value.stripped
  | .func _ _ params decls body =>
    .func .unknown "" (params.map Param.stripped) (Decl.strippedAll decls) body.stripped

def Decl.strippedAll : List Decl → List Decl
  | [] => []
  | d :: ds => d.stripped :: Decl.strippedAll ds

end

def Root.stripped : Root → Root
  | .absent => .absent
  | .letIn _ decls body => .letIn .unknown (Decl.strippedAll decls) body.stripped
  | .bare body => .bare body.stripped

/-- why a compilation was stopped, without saying where and at which name -/
def Fault.stripped : Fault → Fault
  | .unresolved _ _ => .unresolved .unknown ""
  | .deeper _ _ level declared => .deeper .unknown "" level declared
  | .codeOfOperator _ op => .codeOfOperator .unknown op
  | .codeOfLiteral _ value => .codeOfLiteral .unknown value
  | f => f

namespace Node

/-- why some nodes are bad, in their order -/
def causes (ns : List Node) : List Fault := (Node.faults ns).map Fault.stripped

@[simp] theorem causes_append (as bs : List Node) : causes (as ++ bs) = causes as ++ causes bs := by
  rw [causes, Node.faults_append, List.map_append]
  rfl

theorem causes_cons (n : Node) (ns : List Node) :
    causes (n :: ns) = (n.fault?.map Fault.stripped).toList ++ causes ns := by
  rw [causes, Node.faults_cons, List.map_append, Option.toList_map]
  rfl

end Node

theorem Reference.fault?_stripped (pos : Position) (r : Reference) :
    (r.stripped.fault? .unknown).map Fault.stripped = (r.fault? pos).map Fault.stripped := by
  have hhops : r.stripped.hops = r.hops := rfl
  have hentry : r.stripped.entry = r.entry := rfl
  unfold Reference.fault?
  rw [hhops, hentry]
  cases r.entry with
  | none => rfl
  | some e => by_cases h : r.hops < 0 <;> simp [h, Fault.stripped, Reference.stripped]

/-! ## Expressions -/

/-- the same labels and code from every number on, and the same causes to be stopped -/
structure Expr.Interchangeable (e e' : Expr) : Prop where
  labelCount : e.labelCount = e'.labelCount
  code : ∀ next, e.code next = e'.code next
  causes : Node.causes e.checked = Node.causes e'.checked

/-- the same of arguments -/
structure Expr.InterchangeableAll (es es' : List Expr) : Prop where
  labelCount : Expr.labelCountAll es = Expr.labelCountAll es'
  code : ∀ next, Expr.argsCode next es = Expr.argsCode next es'
  causes : Node.causes (Expr.checkedArgs es) = Node.causes (Expr.checkedArgs es')

mutual

theorem Expr.interchangeable_stripped (e : Expr) : Expr.Interchangeable e.stripped e := by
  cases e with
  | absent => exact ⟨rfl, fun _ => rfl, rfl⟩
  | literal p value => cases value <;> exact ⟨rfl, fun _ => rfl, rfl⟩
  | ident p r =>
    refine ⟨rfl, fun _ => rfl, ?_⟩
    have hfault := r.fault?_stripped p
    simp only [Expr.stripped, Expr.checked, Node.causes_cons, Node.fault?, hfault]
  | call p r args =>
    have hargs := Expr.interchangeableAll_strippedAll args
    have hfault := r.fault?_stripped p
    refine ⟨hargs.labelCount, fun next => ?_, ?_⟩
    · rw [Expr.stripped, Expr.code, Expr.code, hargs.code]
      rfl
    · simp only [Expr.stripped, Expr.checked, Node.causes_append, hargs.causes, Node.causes_cons, Node.fault?, hfault]
  | cond p test yes no =>
    have htest := test.interchangeable_stripped
    have hyes := yes.interchangeable_stripped
    have hno := no.interchangeable_stripped
    refine ⟨?_, fun next => ?_, ?_⟩
    · simp only [Expr.stripped, Expr.labelCount, htest.labelCount, hyes.labelCount, hno.labelCount]
    · simp only [Expr.stripped, Expr.code, htest.labelCount, hno.labelCount, htest.code, hyes.code, hno.code]
    · simp only [Expr.stripped, Expr.checked, Node.causes_cons, Node.causes_append, htest.causes, hyes.causes,
        hno.causes, Node.fault?]
  | binary p op left right =>
    have hleft := left.interchangeable_stripped
    have hright := right.interchangeable_stripped
    refine ⟨?_, fun next => ?_, ?_⟩
    · simp only [Expr.stripped, Expr.labelCount, hleft.labelCount, hright.labelCount]
    · cases op <;> simp only [Expr.stripped, Expr.code, hleft.labelCount, hleft.code, hright.code]
    · simp only [Expr.stripped, Expr.checked, Node.causes_cons, Node.causes_append, hleft.causes, hright.causes]
      cases op <;> rfl
  | print p arg =>
    have harg := arg.interchangeable_stripped
    refine ⟨harg.labelCount, fun next => ?_, ?_⟩
    · rw [Expr.stripped, Expr.code, Expr.code, harg.code]
    · rw [Expr.stripped, Expr.checked, Expr.checked, Node.causes_cons, Node.causes_cons, harg.causes]
      rfl

theorem Expr.interchangeableAll_strippedAll (es : List Expr) : Expr.InterchangeableAll (Expr.strippedAll es) es := by
  cases es with
  | nil => exact ⟨rfl, fun _ => rfl, rfl⟩
  | cons e es =>
    have hfirst := e.interchangeable_stripped
    have hlater := Expr.interchangeableAll_strippedAll es
    refine ⟨?_, fun next => ?_, ?_⟩
    · simp only [Expr.strippedAll, Expr.labelCountAll, hfirst.labelCount, hlater.labelCount]
    · simp only [Expr.strippedAll, Expr.argsCode, hlater.labelCount, hlater.code, hfirst.code]
    · simp only [Expr.strippedAll, Expr.checkedArgs, Node.causes_append, hlater.causes, hfirst.causes]

end

/-! ## Declarations -/

/-- what of a routine is code -/
def Routine.block (q : Routine) : Label × Code := (q.label, q.code)

/-- the same labels, code and blocks from every number on, and the same causes to be stopped -/
structure Decl.Interchangeable (d d' : Decl) : Prop where
  labelCount : d.labelCount = d'.labelCount
  functionCount : d.functionCount = d'.functionCount
  code : ∀ c, d.code c = d'.code c
  blocks : ∀ c, (d.routines c).map Routine.block = (d'.routines c).map Routine.block
  causes : Node.causes d.checked = Node.causes d'.checked

/-- the same of the declarations of a scope, which are as many -/
structure Decl.InterchangeableAll (ds ds' : List Decl) : Prop where
  length : ds.length = ds'.length
  labelCount : Decl.labelCountAll ds = Decl.labelCountAll ds'
  functionCount : Decl.functionCountAll ds = Decl.functionCountAll ds'
  code : ∀ c, Decl.codeAll c ds = Decl.codeAll c ds'
  blocks : ∀ c, (Decl.routinesAll c ds).map Routine.block = (Decl.routinesAll c ds').map Routine.block
  causes : Node.causes (Decl.checkedAll ds) = Node.causes (Decl.checkedAll ds')

theorem Decl.Interchangeable.after {d d' : Decl} (h : Decl.Interchangeable d d') (c : Counters) :
    c.after d = c.after d' := by
  rw [Counters.after, Counters.after, h.labelCount, h.functionCount]

/-- besides the code of its parts, the block of a function only shows how many parameters and declarations it pops -/
theorem functionCode_congr {params params' : List Param} {decls decls' : List Decl} {body body' : Expr}
    (hparams : params.length = params'.length) (hdecls : Decl.InterchangeableAll decls decls')
    (hbody : Expr.Interchangeable body body') (c : Counters) :
    functionCode c params decls body = functionCode c params' decls' body' := by
  simp only [functionCode, hdecls.code, hdecls.labelCount, hbody.code, hdecls.length, hparams]

mutual

theorem Decl.interchangeable_stripped (d : Decl) : Decl.Interchangeable d.stripped d := by
  cases d with
  | absent => exact ⟨rfl, rfl, fun _ => rfl, fun _ => rfl, rfl⟩
  | var p name value =>
    have hvalue := value.interchangeable_stripped
    refine ⟨hvalue.labelCount, rfl, fun c => hvalue.code c.labels, fun _ => rfl, ?_⟩
    rw [Decl.stripped, Decl.checked, Decl.checked, Node.causes_cons, Node.causes_cons, hvalue.causes]
    rfl
  | func p name params decls body =>
    have hdecls := Decl.interchangeableAll_strippedAll decls
    have hbody := body.interchangeable_stripped
    refine ⟨?_, ?_, fun _ => rfl, fun c => ?_, ?_⟩
    · rw [Decl.stripped, Decl.labelCount, Decl.labelCount, hdecls.labelCount, hbody.labelCount]
    · rw [Decl.stripped, Decl.functionCount, Decl.functionCount, hdecls.functionCount]
    · have hparams : (params.map Param.stripped).length = params.length := List.length_map _
      have hcode := functionCode_congr hparams hdecls hbody c
      simp only [Decl.stripped, Decl.routines, Routine.make, List.map_cons, Routine.block, hcode]
      exact congrArg _ (hdecls.blocks c.inside)
    · simp only [Decl.stripped, Decl.checked, Node.causes_cons, Node.causes_append, hdecls.causes, hbody.causes,
        Node.fault?]

theorem Decl.interchangeableAll_strippedAll (ds : List Decl) : Decl.InterchangeableAll (Decl.strippedAll ds) ds := by
  cases ds with
  | nil => exact ⟨rfl, rfl, rfl, fun _ => rfl, fun _ => rfl, rfl⟩
  | cons d ds =>
    have hfirst := d.interchangeable_stripped
    have hlater := Decl.interchangeableAll_strippedAll ds
    refine ⟨?_, ?_, ?_, fun c => ?_, fun c => ?_, ?_⟩
    · rw [Decl.strippedAll, List.length_cons, List.length_cons, hlater.length]
    · rw [Decl.strippedAll, Decl.labelCountAll, Decl.labelCountAll, hfirst.labelCount, hlater.labelCount]
    · rw [Decl.strippedAll, Decl.functionCountAll, Decl.functionCountAll, hfirst.functionCount, hlater.functionCount]
    · rw [Decl.strippedAll, Decl.codeAll, Decl.codeAll, hfirst.code, hfirst.after, hlater.code]
    · rw [Decl.strippedAll, Decl.routinesAll, Decl.routinesAll, List.map_append, List.map_append, hfirst.blocks,
        hfirst.after, hlater.blocks]
    · rw [Decl.strippedAll, Decl.checkedAll, Decl.checkedAll, Node.causes_append, Node.causes_append, hfirst.causes,
        hlater.causes]

end

/-! ## Trees -/

/-- the same code at the top level, the same blocks, and the same causes to be stopped -/
structure Root.Interchangeable (r r' : Root) : Prop where
  toplevel : r.program.toplevel = r'.program.toplevel
  blocks : r.program.routines.map Routine.block = r'.program.routines.map Routine.block
  causes : Node.causes r.checked = Node.causes r'.checked

theorem Root.interchangeable_stripped (r : Root) : Root.Interchangeable r.stripped r := by
  cases r with
  | absent => exact ⟨rfl, rfl, rfl⟩
  | letIn p decls body =>
    have hdecls := Decl.interchangeableAll_strippedAll decls
    have hbody := body.interchangeable_stripped
    refine ⟨?_, hdecls.blocks .start, ?_⟩
    · simp only [Root.stripped, Root.program, hdecls.code, hdecls.labelCount, hbody.code]
    · simp only [Root.stripped, Root.checked, Node.causes_cons, Node.causes_append, hdecls.causes, hbody.causes,
        Node.fault?]
  | bare body =>
    have hbody := body.interchangeable_stripped
    refine ⟨congrArg (fun c : Code => c ++ [Instr.halt]) (hbody.code 0), rfl, ?_⟩
    rw [Root.stripped, Root.checked, Root.checked, Node.causes_cons, Node.causes_cons, hbody.causes]
    rfl

namespace Root.Interchangeable

variable {r r' r'' : Root}

theorem symm (h : Root.Interchangeable r r') : Root.Interchangeable r' r :=
  ⟨h.toplevel.symm, h.blocks.symm, h.causes.symm⟩

theorem trans (h : Root.Interchangeable r r') (h' : Root.Interchangeable r' r'') : Root.Interchangeable r r'' :=
  ⟨h.toplevel.trans h'.toplevel, h.blocks.trans h'.blocks, h.causes.trans h'.causes⟩

/-- the first bad nodes are bad for the same cause -/
theorem first_cause (h : Root.Interchangeable r r') :
    (r.checked.findSome? Node.fault?).map Fault.stripped = (r'.checked.findSome? Node.fault?).map Fault.stripped := by
  have hhead : ∀ ns : List Node, (ns.findSome? Node.fault?).map Fault.stripped = (Node.causes ns).head? := by
    intro ns
    rw [Node.causes, List.head?_map, Node.faults, List.head?_filterMap]
  rw [hhead, hhead, h.causes]

theorem forall₂_routines (h : Root.Interchangeable r r') :
    List.Forall₂ (fun q q' => q.label = q'.label ∧ q.code = q'.code) r.program.routines r'.program.routines := by
  have hblocks := List.forall₂_eq_eq_eq ▸ h.blocks
  rw [List.forall₂_map_left_iff, List.forall₂_map_right_iff] at hblocks
  exact hblocks.imp fun q q' hq => Prod.mk.inj hq

end Root.Interchangeable

/-- **Names and positions do not reach the code.** Two trees that are equal except for names and positions are either
both stopped, and for the same cause, or both have a program, with the same code at the top level and, routine by
routine, the same label and the same code. -/
theorem names_and_positions_do_not_reach_the_code {r r' : Root} (h : r.stripped = r'.stripped) :
    (∃ f f', r.compile = .error f ∧ r'.compile = .error f' ∧ f.stripped = f'.stripped) ∨
    ∃ p p', r.compile = .ok p ∧ r'.compile = .ok p' ∧ p.toplevel = p'.toplevel ∧
      List.Forall₂ (fun q q' => q.label = q'.label ∧ q.code = q'.code) p.routines p'.routines := by
  have hinterchangeable : Root.Interchangeable r r' :=
    r.interchangeable_stripped.symm.trans (h ▸ r'.interchangeable_stripped)
  -- so the first bad node of one has its like in the other, or neither has one
  have hcause := hinterchangeable.first_cause
  rw [r.compile_eq, r'.compile_eq]
  cases hr : r.checked.findSome? Node.fault? with
  | none =>
    cases hr' : r'.checked.findSome? Node.fault? with
    | none =>
      exact Or.inr ⟨_, _, rfl, rfl, hinterchangeable.toplevel, hinterchangeable.forall₂_routines⟩
    | some f' =>
      rw [hr, hr'] at hcause
      cases hcause
  | some f =>
    cases hr' : r'.checked.findSome? Node.fault? with
    | none =>
      rw [hr, hr'] at hcause
      cases hcause
    | some f' =>
      rw [hr, hr'] at hcause
      exact Or.inl ⟨f, f', rfl, rfl, Option.some.inj hcause⟩

namespace DisguisedTree

def label0 (level : Int64) : Expr := .ident .unknown ⟨"label0", level, some ⟨1, 1⟩⟩

def int (z : Int64) : Expr := .literal .unknown (.int z)

def function1 (level : Int64) (arg : Expr) : Expr := .call .unknown ⟨"function1", level, some ⟨0, -2⟩⟩ [arg]

def function0 : Decl :=
  .func ⟨7, 7⟩ "function0" [⟨"label1:", ⟨7, 8⟩⟩] []
    (.binary .unknown .plus (label0 2) (.ident ⟨7, 9⟩ ⟨"label1:", 2, some ⟨2, 1⟩⟩))

def body : Expr :=
  .cond ⟨8, 1⟩ (.binary .unknown .equal (label0 1) (int 0)) (int 0)
    (.call .unknown ⟨"function0", 1, some ⟨1, -2⟩⟩ [function1 1 (.binary .unknown .plus (label0 1) (int (-1)))])

end DisguisedTree

/-- the tree of

    let fun function1(label0) =
          let fun function0(label1:) = label0 + label1: in if label0 == 0 then 0 else function0(function1(label0 + -1))
    in print function1(2)

where the functions have each other's labels for names -/
def disguisedTree : Root :=
  .letIn .unknown [.func .unknown "function1" [⟨"label0", .unknown⟩] [DisguisedTree.function0] DisguisedTree.body]
    (.print .unknown (DisguisedTree.function1 0 (DisguisedTree.int 2)))

/-- It has the code of the tree that it disguises. A use of an undeclared name stops the work whatever the name is. -/
theorem disguisedTree_has_the_code_of_sumTree :
    disguisedTree.stripped = sumTree.stripped ∧
    (∃ p p', disguisedTree.compile = .ok p ∧ sumTree.compile = .ok p' ∧ p.toplevel = p'.toplevel ∧
      List.Forall₂ (fun q q' => q.label = q'.label ∧ q.code = q'.code) p.routines p'.routines) ∧
    ∃ f f', (Root.bare (.ident ⟨1, 1⟩ ⟨"x", 0, none⟩)).compile = .error f ∧
      (Root.bare (.ident ⟨2, 5⟩ ⟨"function0", 0, none⟩)).compile = .error f' ∧ f.stripped = f'.stripped := by
  have hstripped : disguisedTree.stripped = sumTree.stripped := rfl
  refine ⟨hstripped, ?_, ?_⟩
  · rcases names_and_positions_do_not_reach_the_code hstripped with ⟨f, -, hf, -⟩ | hcode
    · cases hf
    · exact hcode
  · have hundeclared : (Root.bare (.ident ⟨1, 1⟩ ⟨"x", 0, none⟩)).stripped =
        (Root.bare (.ident ⟨2, 5⟩ ⟨"function0", 0, none⟩)).stripped := rfl
    rcases names_and_positions_do_not_reach_the_code hundeclared with hcause | ⟨p, -, hp, -⟩
    · exact hcause
    · cases hp

end LetStack

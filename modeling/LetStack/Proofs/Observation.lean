/-
What is seen of a tree.

Writing a tree and reading it back resets the positions that are not known (`Root.normal`). No operation shows the
difference: a position that is not known is shown as a question mark whatever its column, the code and the log never
show the position of a parameter, and a written node has no position if it is not known. So a tree and what is read back
of it have the same code, the same log, the same traversal and the same value, and compilation fails with the same
message. That the code is the same follows from what is known of names and positions: a reset tree has the same stripped
tree.

Results:
- `Root.program_normal`, `Root.events_normal`: the program and the visit of a reset tree are those of the tree, reset;
- `Root.outcome_normal`, `Root.log_normal`, `Root.visitLines_normal`, `Root.toValue_normal`: what is seen is the same.
-/
import LetStack.Proofs.Names

namespace LetStack

/-! ## Positions -/

namespace Position

@[simp] theorem isKnown_normal (p : Position) : p.normal.isKnown = p.isKnown := by
  rw [normal]
  split_ifs with h
  · rfl
  · simp only [Bool.not_eq_true] at h
    rw [h]
    rfl

@[simp] theorem normal_normal (p : Position) : p.normal.normal = p.normal := by
  rw [normal, isKnown_normal]
  split_ifs with h
  · rfl
  · rw [normal, if_neg h]

@[simp] theorem text_normal (p : Position) : p.normal.text = p.text := by
  rw [text, text, isKnown_normal]
  split_ifs with h
  · rw [normal, if_pos h]
  · rfl

end Position

theorem Value.ofNode_normal (kind : String) (p : Position) (members : List (String × Value)) :
    Value.ofNode kind p.normal members = Value.ofNode kind p members := by
  rw [Value.ofNode, Value.ofNode, Position.isKnown_normal]
  split_ifs with h
  · rw [Position.normal, if_pos h]
  · rfl

/-! ## Reset twice -/

mutual

@[simp] theorem Expr.normal_normal (e : Expr) : e.normal.normal = e.normal := by
  cases e with
  | absent => rfl
  | literal p v => simp only [Expr.normal, Position.normal_normal]
  | ident p r => simp only [Expr.normal, Position.normal_normal]
  | call p r args => simp only [Expr.normal, Position.normal_normal, Expr.normalAll_normalAll args]
  | cond p test yes no =>
    simp only [Expr.normal, Position.normal_normal, Expr.normal_normal test, Expr.normal_normal yes,
      Expr.normal_normal no]
  | binary p op left right =>
    simp only [Expr.normal, Position.normal_normal, Expr.normal_normal left, Expr.normal_normal right]
  | print p arg => simp only [Expr.normal, Position.normal_normal, Expr.normal_normal arg]

theorem Expr.normalAll_normalAll (es : List Expr) : Expr.normalAll (Expr.normalAll es) = Expr.normalAll es := by
  cases es with
  | nil => rfl
  | cons e es => simp only [Expr.normalAll, Expr.normal_normal e, Expr.normalAll_normalAll es]

end

mutual

theorem Decl.normal_normal (d : Decl) : d.normal.normal = d.normal := by
  cases d with
  | absent => rfl
  | var p name value => simp only [Decl.normal, Position.normal_normal, Expr.normal_normal]
  | func p name params decls body =>
    simp only [Decl.normal, Position.normal_normal, Expr.normal_normal, Decl.normalAll_normalAll decls, List.map_map]
    rfl

theorem Decl.normalAll_normalAll (ds : List Decl) : Decl.normalAll (Decl.normalAll ds) = Decl.normalAll ds := by
  cases ds with
  | nil => rfl
  | cons d ds => simp only [Decl.normalAll, Decl.normal_normal d, Decl.normalAll_normalAll ds]

end

theorem Root.normal_normal (r : Root) : r.normal.normal = r.normal := by
  cases r with
  | absent => rfl
  | letIn p decls body =>
    simp only [Root.normal, Position.normal_normal, Decl.normalAll_normalAll, Expr.normal_normal]
  | bare body => simp only [Root.normal, Expr.normal_normal]

/-! ## Code -/

mutual

/-- what is reset goes when names and positions are taken away -/
theorem Expr.stripped_normal (e : Expr) : e.normal.stripped = e.stripped := by
  cases e with
  | absent => rfl
  | literal p v => rfl
  | ident p r => rfl
  | call p r args => simp only [Expr.normal, Expr.stripped, Expr.strippedAll_normalAll args]
  | cond p test yes no =>
    simp only [Expr.normal, Expr.stripped, test.stripped_normal, yes.stripped_normal, no.stripped_normal]
  | binary p op left right => simp only [Expr.normal, Expr.stripped, left.stripped_normal, right.stripped_normal]
  | print p arg => simp only [Expr.normal, Expr.stripped, arg.stripped_normal]

theorem Expr.strippedAll_normalAll (es : List Expr) : Expr.strippedAll (Expr.normalAll es) = Expr.strippedAll es := by
  cases es with
  | nil => rfl
  | cons e es => simp only [Expr.normalAll, Expr.strippedAll, e.stripped_normal, Expr.strippedAll_normalAll es]

end

mutual

theorem Decl.stripped_normal (d : Decl) : d.normal.stripped = d.stripped := by
  cases d with
  | absent => rfl
  | var p name value => simp only [Decl.normal, Decl.stripped, value.stripped_normal]
  | func p name params decls body =>
    simp only [Decl.normal, Decl.stripped, Decl.strippedAll_normalAll decls, body.stripped_normal, List.map_map]
    rfl

theorem Decl.strippedAll_normalAll (ds : List Decl) : Decl.strippedAll (Decl.normalAll ds) = Decl.strippedAll ds := by
  cases ds with
  | nil => rfl
  | cons d ds => simp only [Decl.normalAll, Decl.strippedAll, d.stripped_normal, Decl.strippedAll_normalAll ds]

end

@[simp] theorem Expr.code_normal (next : ℕ) (e : Expr) : e.normal.code next = e.code next := by
  rw [← e.normal.interchangeable_stripped.code, e.stripped_normal, e.interchangeable_stripped.code]

@[simp] theorem Counters.after_normal (c : Counters) (d : Decl) : c.after d.normal = c.after d := by
  rw [← d.normal.interchangeable_stripped.after, d.stripped_normal, d.interchangeable_stripped.after]

section

variable (ds : List Decl)

@[simp] theorem Decl.labelCountAll_normalAll : Decl.labelCountAll (Decl.normalAll ds) = Decl.labelCountAll ds := by
  rw [← (Decl.interchangeableAll_strippedAll _).labelCount, Decl.strippedAll_normalAll,
    (Decl.interchangeableAll_strippedAll ds).labelCount]

@[simp] theorem Decl.codeAll_normalAll (c : Counters) : Decl.codeAll c (Decl.normalAll ds) = Decl.codeAll c ds := by
  rw [← (Decl.interchangeableAll_strippedAll _).code, Decl.strippedAll_normalAll,
    (Decl.interchangeableAll_strippedAll ds).code]

theorem Decl.length_normalAll : (Decl.normalAll ds).length = ds.length := by
  rw [← (Decl.interchangeableAll_strippedAll _).length, Decl.strippedAll_normalAll,
    (Decl.interchangeableAll_strippedAll ds).length]

end

/-- the routine of a declaration that has been reset -/
def Routine.normal (r : Routine) : Routine :=
  ⟨r.pos.normal, r.name, r.params.map Param.normal, Decl.normalAll r.decls, r.body.normal, r.label, r.code⟩

theorem Routine.make_normal (c : Counters) (p : Position) (name : String) (params : List Param) (decls : List Decl)
    (body : Expr) : Routine.make c p.normal name (params.map Param.normal) (Decl.normalAll decls) body.normal =
      (Routine.make c p name params decls body).normal := by
  simp only [Routine.make, Routine.normal, functionCode, Decl.codeAll_normalAll, Decl.labelCountAll_normalAll,
    Expr.code_normal, Decl.length_normalAll, List.length_map]

mutual

theorem Decl.routines_normal (c : Counters) (d : Decl) : d.normal.routines c = (d.routines c).map Routine.normal := by
  cases d with
  | absent => rfl
  | var p name value => rfl
  | func p name params decls body =>
    simp only [Decl.normal, Decl.routines, Routine.make_normal, Decl.routinesAll_normalAll _ decls, List.map_cons]

theorem Decl.routinesAll_normalAll (c : Counters) (ds : List Decl) :
    Decl.routinesAll c (Decl.normalAll ds) = (Decl.routinesAll c ds).map Routine.normal := by
  cases ds with
  | nil => rfl
  | cons d ds =>
    simp only [Decl.normalAll, Decl.routinesAll, Decl.routines_normal c d, Counters.after_normal,
      Decl.routinesAll_normalAll _ ds, List.map_append]

end

theorem Root.program_normal (r : Root) :
    r.normal.program = ⟨r.program.toplevel, r.program.routines.map Routine.normal⟩ := by
  cases r with
  | absent => rfl
  | letIn p decls body =>
    simp only [Root.normal, Root.program, Decl.codeAll_normalAll, Decl.labelCountAll_normalAll, Expr.code_normal,
      Decl.routinesAll_normalAll]
  | bare body => simp only [Root.normal, Root.program, Expr.code_normal, List.map_nil]

/-! ## The visit -/

/-- the fault of a node that has been reset -/
def Fault.normal : Fault → Fault
  | .unresolved p name => .unresolved p.normal name
  | .deeper p name level declared => .deeper p.normal name level declared
  | .codeOfOperator p op => .codeOfOperator p.normal op
  | .codeOfLiteral p value => .codeOfLiteral p.normal value
  | f => f

@[simp] theorem Fault.message_normal (f : Fault) : f.normal.message = f.message := by
  cases f with
  | unresolved p name =>
    exact congrArg (fun t => t ++ ": internal error: unresolved reference to " ++ name) p.text_normal
  | deeper p name level declared =>
    exact congrArg (fun t => t ++ ": internal error: reference to " ++ name ++ " at level " ++ toString level.toInt
      ++ ", declared at deeper level " ++ toString declared.toInt) p.text_normal
  | codeOfOperator p op =>
    exact congrArg (fun t => t ++ ": internal error: unexpected binary op " ++ op.symbol) p.text_normal
  | codeOfLiteral p value =>
    exact congrArg (fun t => t ++ ": internal error: unexpected literal " ++ value.typeName) p.text_normal
  | _ => rfl

@[simp] theorem Fault.isLogged_normal (f : Fault) : f.normal.isLogged = f.isLogged := by
  cases f <;> rfl

def Event.normal : Event → Event
  | .enter depth kind detail => .enter depth kind detail
  | .finish r => .finish r.normal
  | .fault f => .fault f.normal

theorem Reference.faults_normal (p : Position) (r : Reference) :
    r.faults p.normal = (r.faults p).map Event.normal := by
  unfold Reference.faults
  split
  · rfl
  · split_ifs <;> rfl

theorem Literal.faults_normal (p : Position) (v : Literal) : v.faults p.normal = (v.faults p).map Event.normal := by
  cases v <;> rfl

theorem Operator.faults_normal (p : Position) (op : Operator) :
    op.faults p.normal = (op.faults p).map Event.normal := by
  cases op <;> rfl

mutual

theorem Expr.events_normal (depth : ℕ) (e : Expr) : e.normal.events depth = (e.events depth).map Event.normal := by
  cases e with
  | absent => rfl
  | literal p v =>
    simp only [Expr.normal, Expr.events, Literal.faults_normal, List.map_append, List.map_singleton, Event.normal]
  | ident p r =>
    simp only [Expr.normal, Expr.events, Reference.faults_normal, List.map_append, List.map_singleton, Event.normal]
  | call p r args =>
    simp only [Expr.normal, Expr.events, Reference.faults_normal, Expr.argsEvents_normalAll _ args, List.map_append,
      List.map_singleton, Event.normal]
  | cond p test yes no =>
    simp only [Expr.normal, Expr.events, Expr.events_normal _ test, Expr.events_normal _ yes, Expr.events_normal _ no,
      List.map_append, List.map_singleton, Event.normal]
  | binary p op left right =>
    simp only [Expr.normal, Expr.events, Operator.faults_normal, Expr.events_normal _ left, Expr.events_normal _ right,
      List.map_append, List.map_singleton, Event.normal]
  | print p arg =>
    simp only [Expr.normal, Expr.events, Expr.events_normal _ arg, List.map_append, List.map_singleton, Event.normal]

theorem Expr.argsEvents_normalAll (depth : ℕ) (es : List Expr) :
    Expr.argsEvents depth (Expr.normalAll es) = (Expr.argsEvents depth es).map Event.normal := by
  cases es with
  | nil => rfl
  | cons e es =>
    simp only [Expr.normalAll, Expr.argsEvents, Expr.argsEvents_normalAll depth es, Expr.events_normal depth e,
      List.map_append]

end

mutual

theorem Decl.events_normal (c : Counters) (depth : ℕ) (d : Decl) :
    d.normal.events c depth = (d.events c depth).map Event.normal := by
  cases d with
  | absent => rfl
  | var p name value =>
    simp only [Decl.normal, Decl.events, Expr.events_normal, List.map_append, List.map_singleton, Event.normal]
  | func p name params decls body =>
    simp only [Decl.normal, Decl.events, Decl.eventsAll_normalAll _ _ decls, Expr.events_normal, Routine.make_normal,
      List.map_append, List.map_singleton, Event.normal]

theorem Decl.eventsAll_normalAll (c : Counters) (depth : ℕ) (ds : List Decl) :
    Decl.eventsAll c depth (Decl.normalAll ds) = (Decl.eventsAll c depth ds).map Event.normal := by
  cases ds with
  | nil => rfl
  | cons d ds =>
    simp only [Decl.normalAll, Decl.eventsAll, Decl.events_normal c depth d, Counters.after_normal,
      Decl.eventsAll_normalAll _ depth ds, List.map_append]

end

theorem Root.events_normal (r : Root) : r.normal.events = r.events.map Event.normal := by
  cases r with
  | absent => rfl
  | letIn p decls body =>
    simp only [Root.normal, Root.events, Decl.eventsAll_normalAll, Expr.events_normal, List.map_append,
      List.map_singleton, Event.normal]
  | bare body =>
    simp only [Root.normal, Root.events, Expr.events_normal, List.map_append, List.map_singleton, Event.normal]

/-! ## What is seen of a compilation -/

/-- what is seen of a routine -/
structure Routine.Summary where
  label : Label
  name : String
  pos : String
  numParams : ℕ
  numLocals : ℕ
  code : Code

def Routine.summary (r : Routine) : Routine.Summary :=
  ⟨r.label, r.name, r.pos.text, r.numParams, r.numLocals, r.code⟩

/-- what is seen of a program -/
structure Program.Summary where
  listing : String
  toplevel : Code
  routines : List Routine.Summary

def Program.summary (p : Program) : Program.Summary := ⟨p.listing, p.toplevel, p.routines.map Routine.summary⟩

/-- what is seen of a compilation: the program, or the message of the fault -/
def Root.outcome (r : Root) : Except String Program.Summary :=
  match r.compile with
  | .ok p => .ok p.summary
  | .error f => .error f.message

theorem Routine.summary_normal (r : Routine) : r.normal.summary = r.summary := by
  simp only [Routine.summary, Routine.normal, Routine.numParams, Routine.numLocals, Position.text_normal,
    List.length_map, Decl.length_normalAll]

theorem Root.summary_normal (r : Root) : r.normal.program.summary = r.program.summary := by
  have hcode :
      (r.program.routines.map Routine.normal).flatMap Routine.code = r.program.routines.flatMap Routine.code := by
    rw [List.flatMap_map]
    rfl
  have hroutines : (r.program.routines.map Routine.normal).map Routine.summary =
      r.program.routines.map Routine.summary := by
    rw [List.map_map]
    exact List.map_congr_left fun q _ => q.summary_normal
  rw [Root.program_normal]
  simp only [Program.summary, Program.listing, Program.code, hcode, hroutines]

theorem Event.fault?_normal (e : Event) : e.normal.fault? = e.fault?.map Fault.normal := by
  cases e <;> rfl

theorem Event.findSome?_fault?_normal (es : List Event) :
    (es.map Event.normal).findSome? Event.fault? = (es.findSome? Event.fault?).map Fault.normal := by
  induction es with
  | nil => rfl
  | cons e es ih =>
    rw [List.map_cons, List.findSome?_cons, List.findSome?_cons, Event.fault?_normal]
    cases e.fault? with
    | none => exact ih
    | some f => rfl

/-- **Compilation.** What is seen of the compilation of a tree is seen of the reset tree. -/
theorem Root.outcome_normal (r : Root) : r.normal.outcome = r.outcome := by
  simp only [Root.outcome, Root.compile, Root.events_normal, Event.findSome?_fault?_normal]
  cases r.events.findSome? Event.fault? with
  | none => exact congrArg Except.ok r.summary_normal
  | some f => exact congrArg Except.error f.message_normal

theorem Event.untilFault_normal (es : List Event) :
    Event.untilFault (es.map Event.normal) = (Event.untilFault es).map Event.normal := by
  induction es with
  | nil => rfl
  | cons e es ih =>
    cases e with
    | enter depth kind detail => exact congrArg (List.cons _) ih
    | finish r => exact congrArg (List.cons _) ih
    | fault f => rfl

theorem Event.entry?_normal (v : Verbosity) (e : Event) : e.normal.entry? v = e.entry? v := by
  cases e with
  | enter depth kind detail => rfl
  | finish r =>
    have hparams : r.normal.numParams = r.numParams := List.length_map _
    exact congrArg (fun n => if v.disassemble then
      some ("function " ++ r.label.name ++ " (" ++ r.name ++ "/" ++ toString n ++ "):\n" ++ r.code.listing)
      else none) hparams
  | fault f =>
    change (if f.normal.isLogged then some f.normal.message else none) = if f.isLogged then some f.message else none
    rw [Fault.isLogged_normal, Fault.message_normal]

/-- **Log.** So is the log, however much of it is asked for. -/
theorem Root.log_normal (head : String) (v : Verbosity) (r : Root) : r.normal.log head v = r.log head v := by
  have hentries : r.normal.logEntries v = r.logEntries v := by
    rw [Root.logEntries, Root.events_normal, Event.untilFault_normal, List.filterMap_map]
    exact congrArg (fun f => List.filterMap f _) (funext fun e => e.entry?_normal v)
  rw [Root.log, hentries]
  rfl

/-! ## Traversal -/

def Node.normal : Node → Node
  | .root r => .root r.normal
  | .decl d => .decl d.normal
  | .expr e => .expr e.normal

section

variable {σ : Type} {f : Visitor σ}

/-- the visitor does not tell a node from the reset one -/
def Visitor.Blind (f : Visitor σ) : Prop := ∀ n : Node, f (some n.normal) = f (some n)

theorem Visitor.Blind.around (hf : f.Blind) (n : Node) {x y : StateT σ (Except Fault) Unit} (h : x = y) :
    f.around n.normal x = f.around n y := by
  rw [Visitor.around, Visitor.around, hf n, h]

mutual

theorem Expr.walk_normal (hf : f.Blind) (e : Expr) : e.normal.walk f = e.walk f := by
  cases e with
  | absent => rfl
  | literal p v => exact hf.around (.expr (.literal p v)) rfl
  | ident p r => exact hf.around (.expr (.ident p r)) rfl
  | call p r args => exact hf.around (.expr (.call p r args)) (Expr.walkAll_normalAll hf args)
  | cond p test yes no =>
    refine hf.around (.expr (.cond p test yes no)) ?_
    rw [Expr.walk_normal hf test, Expr.walk_normal hf yes, Expr.walk_normal hf no]
  | binary p op left right =>
    refine hf.around (.expr (.binary p op left right)) ?_
    rw [Expr.walk_normal hf left, Expr.walk_normal hf right]
  | print p arg => exact hf.around (.expr (.print p arg)) (Expr.walk_normal hf arg)

theorem Expr.walkAll_normalAll (hf : f.Blind) (es : List Expr) :
    Expr.walkAll f (Expr.normalAll es) = Expr.walkAll f es := by
  cases es with
  | nil => rfl
  | cons e es => rw [Expr.normalAll, Expr.walkAll, Expr.walk_normal hf e, Expr.walkAll_normalAll hf es, Expr.walkAll]

end

mutual

theorem Decl.walk_normal (hf : f.Blind) (d : Decl) : d.normal.walk f = d.walk f := by
  cases d with
  | absent => rfl
  | var p name value => exact hf.around (.decl (.var p name value)) (value.walk_normal hf)
  | func p name params decls body =>
    refine hf.around (.decl (.func p name params decls body)) ?_
    rw [Decl.walkAll_normalAll hf decls, body.walk_normal hf]

theorem Decl.walkAll_normalAll (hf : f.Blind) (ds : List Decl) :
    Decl.walkAll f (Decl.normalAll ds) = Decl.walkAll f ds := by
  cases ds with
  | nil => rfl
  | cons d ds => rw [Decl.normalAll, Decl.walkAll, Decl.walk_normal hf d, Decl.walkAll_normalAll hf ds, Decl.walkAll]

end

/-- **Traversal.** A visitor that does not tell nodes from reset ones does the same on the reset tree. -/
theorem Root.walk_normal (hf : f.Blind) (r : Root) : r.normal.walk f = r.walk f := by
  cases r with
  | absent => rfl
  | letIn p decls body =>
    refine hf.around (.root (.letIn p decls body)) ?_
    rw [Decl.walkAll_normalAll hf decls, body.walk_normal hf]
  | bare body => exact hf.around (.root (.bare body)) (body.walk_normal hf)

end

theorem Node.kind_normal (n : Node) : n.normal.kind = n.kind := by
  cases n with
  | root r => cases r <;> rfl
  | decl d => cases d <;> rfl
  | expr e => cases e <;> rfl

theorem Expr.start?_normal (e : Expr) : e.normal.start? = e.start?.map Position.normal := by
  cases e with
  | binary p op left right => exact left.start?_normal
  | _ => rfl

theorem Node.start?_normal (n : Node) : n.normal.start? = n.start?.map Position.normal := by
  cases n with
  | root r =>
    cases r with
    | bare body => exact body.start?_normal
    | _ => rfl
  | decl d => cases d <;> rfl
  | expr e => exact e.start?_normal

theorem Visitor.blind_lines (prune : List String) : (Visitor.lines prune).Blind := by
  intro n
  simp only [Visitor.lines, Node.kind_normal, Node.start?_normal]
  cases n.start? with
  | none => rfl
  | some p => simp only [Option.map_some, Position.text_normal]

theorem Root.visitLines_normal (prune : List String) (r : Root) : r.normal.visitLines prune = r.visitLines prune := by
  rw [Root.visitLines, Root.walk_normal (Visitor.blind_lines prune)]
  rfl

/-! ## Values -/

theorem Literal.toValue_normal (p : Position) (v : Literal) : v.toValue p.normal = v.toValue p := by
  cases v with
  | int z => exact congrArg Except.ok (Value.ofNode_normal _ p _)
  | bool b => exact congrArg Except.ok (Value.ofNode_normal _ p _)
  | string s => rfl
  | absent => rfl

mutual

theorem Expr.toValue_normal (e : Expr) : e.normal.toValue = e.toValue := by
  cases e with
  | absent => rfl
  | literal p v => exact v.toValue_normal p
  | ident p r => simp only [Expr.normal, Expr.toValue, Value.ofNode_normal]
  | call p r args => simp only [Expr.normal, Expr.toValue, Value.ofNode_normal, Expr.toValues_normalAll args]
  | cond p test yes no =>
    simp only [Expr.normal, Expr.toValue, Value.ofNode_normal, Expr.toValue_normal test, Expr.toValue_normal yes,
      Expr.toValue_normal no]
  | binary p op left right =>
    simp only [Expr.normal, Expr.toValue, Value.ofNode_normal, Expr.toValue_normal left, Expr.toValue_normal right]
  | print p arg => simp only [Expr.normal, Expr.toValue, Value.ofNode_normal, Expr.toValue_normal arg]

theorem Expr.toValues_normalAll (es : List Expr) : Expr.toValues (Expr.normalAll es) = Expr.toValues es := by
  cases es with
  | nil => rfl
  | cons e es => simp only [Expr.normalAll, Expr.toValues, Expr.toValue_normal e, Expr.toValues_normalAll es]

end

mutual

theorem Decl.toValue_normal (d : Decl) : d.normal.toValue = d.toValue := by
  cases d with
  | absent => rfl
  | var p name value => simp only [Decl.normal, Decl.toValue, Value.ofNode_normal, Expr.toValue_normal]
  | func p name params decls body =>
    simp only [Decl.normal, Decl.toValue, Value.ofNode_normal, Decl.toValues_normalAll decls, Expr.toValue_normal,
      List.map_map]
    rfl

theorem Decl.toValues_normalAll (ds : List Decl) : Decl.toValues (Decl.normalAll ds) = Decl.toValues ds := by
  cases ds with
  | nil => rfl
  | cons d ds => simp only [Decl.normalAll, Decl.toValues, Decl.toValue_normal d, Decl.toValues_normalAll ds]

end

/-- **Value.** A reset tree is written as the tree. -/
theorem Root.toValue_normal (r : Root) : r.normal.toValue = r.toValue := by
  cases r with
  | absent => rfl
  | letIn p decls body =>
    simp only [Root.normal, Root.toValue, Value.ofNode_normal, Decl.toValues_normalAll, Expr.toValue_normal]
  | bare body => simp only [Root.normal, Root.toValue, Expr.toValue_normal]

end LetStack

/-
The nodes of a tree, and what they decide about a compilation.

`nodes` lists the nodes of a tree in source order, each before its parts. A property of "every literal", "every
reference" or "every position" of a tree is a property of the members of this list, and "how many conditionals" is a
count in it.

Results:
- `labelCount_eq` and `functionCount_eq`: the generator's own counts are counts of nodes; a conditional or a comparison
  takes two control labels, a function declaration one function label;
- `compile_eq_ok_iff`: a tree compiles exactly if each node is of the language and each reference leads to an
  enclosing frame, and then its program is `Root.program`.
-/
import LetStack.Generate.Report
import Mathlib.Tactic

namespace LetStack

/-! ## The list of nodes -/

mutual

def Expr.nodes : Expr → List Node
  | .absent => [.expr .absent]
  | .literal p v => [.expr (.literal p v)]
  | .ident p r => [.expr (.ident p r)]
  | .call p r args => .expr (.call p r args) :: Expr.nodesAll args
  | .cond p test yes no => .expr (.cond p test yes no) :: (test.nodes ++ yes.nodes ++ no.nodes)
  | .binary p op left right => .expr (.binary p op left right) :: (left.nodes ++ right.nodes)
  | .print p arg => .expr (.print p arg) :: arg.nodes

def Expr.nodesAll : List Expr → List Node
  | [] => []
  | e :: es => e.nodes ++ Expr.nodesAll es

end

mutual

def Decl.nodes : Decl → List Node
  | .absent => [.decl .absent]
  | .var p name value => .decl (.var p name value) :: value.nodes
  | .func p name params decls body => .decl (.func p name params decls body) :: (Decl.nodesAll decls ++ body.nodes)

def Decl.nodesAll : List Decl → List Node
  | [] => []
  | d :: ds => d.nodes ++ Decl.nodesAll ds

end

def Root.nodes : Root → List Node
  | .absent => [.root .absent]
  | .letIn p decls body => .root (.letIn p decls body) :: (Decl.nodesAll decls ++ body.nodes)
  | .bare body => .root (.bare body) :: body.nodes

/-! ## Counts -/

namespace Node

/-- a node that the generator turns into two branches: a conditional or a comparison -/
def isBranching : Node → Bool
  | .expr (.cond ..) => true
  | .expr (.binary _ .equal _ _) => true
  | _ => false

/-- a function declaration -/
def isFunction : Node → Bool
  | .decl (.func ..) => true
  | _ => false

end Node

mutual

theorem Expr.labelCount_eq (e : Expr) : e.labelCount = 2 * e.nodes.countP Node.isBranching := by
  cases e with
  | absent => rfl
  | literal p v => rfl
  | ident p r => rfl
  | call p r args =>
    have h := Expr.labelCountAll_eq args
    simpa [Expr.labelCount, Expr.nodes, Node.isBranching] using h
  | cond p test yes no =>
    have h1 := Expr.labelCount_eq test
    have h2 := Expr.labelCount_eq yes
    have h3 := Expr.labelCount_eq no
    simp only [Expr.labelCount, Expr.nodes, List.countP_cons, List.countP_append, Node.isBranching, ite_true]
    omega
  | binary p op left right =>
    have h1 := Expr.labelCount_eq left
    have h2 := Expr.labelCount_eq right
    cases op <;>
      simp only [Expr.labelCount, Expr.nodes, List.countP_cons, List.countP_append, Node.isBranching, reduceCtorEq,
        ite_true, ite_false, Bool.false_eq_true] <;>
      omega
  | print p arg =>
    have h := Expr.labelCount_eq arg
    simpa [Expr.labelCount, Expr.nodes, Node.isBranching] using h

theorem Expr.labelCountAll_eq (es : List Expr) :
    Expr.labelCountAll es = 2 * (Expr.nodesAll es).countP Node.isBranching := by
  cases es with
  | nil => rfl
  | cons e es =>
    have h1 := Expr.labelCount_eq e
    have h2 := Expr.labelCountAll_eq es
    simp only [Expr.labelCountAll, Expr.nodesAll, List.countP_append]
    omega

end

mutual

theorem Decl.labelCount_eq (d : Decl) : d.labelCount = 2 * d.nodes.countP Node.isBranching := by
  cases d with
  | absent => rfl
  | var p name value =>
    have h := value.labelCount_eq
    simpa [Decl.labelCount, Decl.nodes, Node.isBranching] using h
  | func p name params decls body =>
    have h1 := Decl.labelCountAll_eq decls
    have h2 := body.labelCount_eq
    simp only [Decl.labelCount, Decl.nodes, List.countP_cons, List.countP_append, Node.isBranching, Bool.false_eq_true,
      ite_false]
    omega

theorem Decl.labelCountAll_eq (ds : List Decl) :
    Decl.labelCountAll ds = 2 * (Decl.nodesAll ds).countP Node.isBranching := by
  cases ds with
  | nil => rfl
  | cons d ds =>
    have h1 := Decl.labelCount_eq d
    have h2 := Decl.labelCountAll_eq ds
    simp only [Decl.labelCountAll, Decl.nodesAll, List.countP_append]
    omega

end

mutual

/-- an expression declares nothing -/
theorem Expr.countP_isFunction (e : Expr) : e.nodes.countP Node.isFunction = 0 := by
  cases e with
  | absent => rfl
  | literal p v => rfl
  | ident p r => rfl
  | call p r args => simpa [Expr.nodes, Node.isFunction] using Expr.countP_isFunction_all args
  | cond p test yes no =>
    simp [Expr.nodes, Node.isFunction, Expr.countP_isFunction test, Expr.countP_isFunction yes,
      Expr.countP_isFunction no]
  | binary p op left right =>
    simp [Expr.nodes, Node.isFunction, Expr.countP_isFunction left, Expr.countP_isFunction right]
  | print p arg => simpa [Expr.nodes, Node.isFunction] using Expr.countP_isFunction arg

theorem Expr.countP_isFunction_all (es : List Expr) : (Expr.nodesAll es).countP Node.isFunction = 0 := by
  cases es with
  | nil => rfl
  | cons e es => simp [Expr.nodesAll, Expr.countP_isFunction e, Expr.countP_isFunction_all es]

end

mutual

theorem Decl.functionCount_eq (d : Decl) : d.functionCount = d.nodes.countP Node.isFunction := by
  cases d with
  | absent => rfl
  | var p name value => simp [Decl.functionCount, Decl.nodes, Node.isFunction, value.countP_isFunction]
  | func p name params decls body =>
    have h := Decl.functionCountAll_eq decls
    simp only [Decl.functionCount, Decl.nodes, List.countP_cons, List.countP_append, Node.isFunction, ite_true,
      body.countP_isFunction]
    omega

theorem Decl.functionCountAll_eq (ds : List Decl) :
    Decl.functionCountAll ds = (Decl.nodesAll ds).countP Node.isFunction := by
  cases ds with
  | nil => rfl
  | cons d ds =>
    simp [Decl.functionCountAll, Decl.nodesAll, Decl.functionCount_eq d, Decl.functionCountAll_eq ds]

end

/-! ## Trees that compile -/

namespace Node

/-- a node that the language has: it is there, its operator is one, its literal is an integer or a boolean -/
@[simp]
def IsLegal : Node → Prop
  | .root .absent | .decl .absent | .expr .absent => False
  | .expr (.literal _ (.string _)) | .expr (.literal _ .absent) => False
  | .expr (.binary _ (.illegal _) _ _) => False
  | _ => True

theorem IsLegal.kind_ne_absent {n : Node} (h : n.IsLegal) : n.kind ≠ .absent := by
  intro hkind
  rcases n with (_ | _ | _) | (_ | _ | _) | (_ | _ | _ | _ | _ | _ | _) <;>
    first | exact h | exact NodeKind.noConfusion hkind

/-- the reference of a node, if it is a use of a name -/
@[simp]
def reference? : Node → Option Reference
  | .expr (.ident _ r) | .expr (.call _ r _) => some r
  | _ => none

end Node

/-- a reference that has an entry, and no fewer than zero access links to follow to it -/
def Reference.IsBound (r : Reference) : Prop := r.entry.isSome ∧ 0 ≤ r.hops

/-- a node that the generator has code for -/
def Node.IsSound (n : Node) : Prop := n.IsLegal ∧ ∀ r, n.reference? = some r → r.IsBound

namespace Node

@[simp] theorem not_isSound_absent_root : ¬ IsSound (.root .absent) := fun h => h.1

@[simp] theorem not_isSound_absent_decl : ¬ IsSound (.decl .absent) := fun h => h.1

@[simp] theorem not_isSound_absent_expr : ¬ IsSound (.expr .absent) := fun h => h.1

@[simp] theorem isSound_letIn (p : Position) (ds : List Decl) (e : Expr) : IsSound (.root (.letIn p ds e)) :=
  ⟨trivial, by simp⟩

@[simp] theorem isSound_bare (e : Expr) : IsSound (.root (.bare e)) := ⟨trivial, by simp⟩

@[simp] theorem isSound_var (p : Position) (name : String) (e : Expr) : IsSound (.decl (.var p name e)) :=
  ⟨trivial, by simp⟩

@[simp] theorem isSound_func (p : Position) (name : String) (ps : List Param) (ds : List Decl) (e : Expr) :
    IsSound (.decl (.func p name ps ds e)) := ⟨trivial, by simp⟩

@[simp] theorem isSound_ident (p : Position) (r : Reference) : IsSound (.expr (.ident p r)) ↔ r.IsBound := by
  simp [IsSound]

@[simp] theorem isSound_call (p : Position) (r : Reference) (es : List Expr) :
    IsSound (.expr (.call p r es)) ↔ r.IsBound := by
  simp [IsSound]

@[simp] theorem isSound_cond (p : Position) (e e1 e2 : Expr) : IsSound (.expr (.cond p e e1 e2)) :=
  ⟨trivial, by simp⟩

@[simp] theorem isSound_print (p : Position) (e : Expr) : IsSound (.expr (.print p e)) :=
  ⟨trivial, by simp⟩

end Node

/-- a visit that meets no bad node -/
def Faultless (es : List Event) : Prop := ∀ e ∈ es, e.fault? = none

@[simp] theorem faultless_nil : Faultless [] := by simp [Faultless]

@[simp] theorem faultless_cons (e : Event) (es : List Event) :
    Faultless (e :: es) ↔ e.fault? = none ∧ Faultless es := List.forall_mem_cons

@[simp] theorem faultless_append (as bs : List Event) : Faultless (as ++ bs) ↔ Faultless as ∧ Faultless bs :=
  List.forall_mem_append

theorem not_faultless_fault (f : Fault) (es : List Event) : ¬ Faultless (.fault f :: es) := by
  rw [faultless_cons]
  rintro ⟨⟨⟩, -⟩

theorem Faultless.untilFault_append {es : List Event} (h : Faultless es) (fs : List Event) :
    Event.untilFault (es ++ fs) = es ++ Event.untilFault fs := by
  induction es with
  | nil => rfl
  | cons e es ih =>
    have htail := ((faultless_cons e es).1 h).2
    cases e with
    | fault f => exact absurd h (not_faultless_fault f es)
    | enter _ _ _ | finish _ => exact congrArg (List.cons _) (ih htail)

theorem Faultless.untilFault_eq_self {es : List Event} (h : Faultless es) : Event.untilFault es = es := by
  simpa [Event.untilFault] using h.untilFault_append []

theorem Literal.faultless_faults (p : Position) (v : Literal) :
    Faultless (v.faults p) ↔ Node.IsSound (.expr (.literal p v)) := by
  cases v <;> simp [Literal.faults, Node.IsSound, Event.fault?]

theorem Operator.faultless_faults (p : Position) (op : Operator) (e e1 : Expr) :
    Faultless (op.faults p) ↔ Node.IsSound (.expr (.binary p op e e1)) := by
  cases op <;> simp [Operator.faults, Node.IsSound, Event.fault?]

theorem Reference.faultless_faults (pos : Position) (r : Reference) : Faultless (r.faults pos) ↔ r.IsBound := by
  unfold Reference.faults Reference.IsBound
  cases r.entry with
  | none => simp [Event.fault?]
  | some e =>
    by_cases h : r.hops < 0
    · simp [h, Event.fault?]
    · simp [h, Int64.not_lt.1 h]

mutual

theorem Expr.faultless_events (depth : Nat) (e : Expr) :
    Faultless (e.events depth) ↔ ∀ n ∈ e.nodes, n.IsSound := by
  cases e with
  | absent => simp [Expr.events, Expr.nodes, Event.fault?]
  | literal p v => simp [Expr.events, Expr.nodes, v.faultless_faults p, Event.fault?]
  | ident p r => simp [Expr.events, Expr.nodes, r.faultless_faults p, Event.fault?]
  | call p r args =>
    have h := Expr.faultless_argsEvents (depth + 1) args
    simp [Expr.events, Expr.nodes, h, r.faultless_faults p, Event.fault?, and_comm]
  | cond p test yes no =>
    have h1 := Expr.faultless_events (depth + 1) test
    have h2 := Expr.faultless_events (depth + 1) yes
    have h3 := Expr.faultless_events (depth + 1) no
    -- the branch for false is visited first
    simp only [Expr.events, Expr.nodes, List.cons_append, List.nil_append, faultless_cons, faultless_append, h1, h2, h3,
      List.forall_mem_cons, List.forall_mem_append, Node.isSound_cond, Event.fault?, true_and]
    tauto
  | binary p op left right =>
    have h1 := Expr.faultless_events (depth + 1) left
    have h2 := Expr.faultless_events (depth + 1) right
    simp [Expr.events, Expr.nodes, h1, h2, op.faultless_faults p left right, Event.fault?, or_imp, forall_and]
  | print p arg =>
    have h := Expr.faultless_events (depth + 1) arg
    simp [Expr.events, Expr.nodes, h, Event.fault?]

theorem Expr.faultless_argsEvents (depth : Nat) (es : List Expr) :
    Faultless (Expr.argsEvents depth es) ↔ ∀ n ∈ Expr.nodesAll es, n.IsSound := by
  cases es with
  | nil => simp [Expr.argsEvents, Expr.nodesAll]
  | cons e es =>
    have h1 := Expr.faultless_events depth e
    have h2 := Expr.faultless_argsEvents depth es
    simp only [Expr.argsEvents, Expr.nodesAll, faultless_append, h1, h2, List.forall_mem_append]
    exact and_comm

end

mutual

theorem Decl.faultless_events (c : Counters) (depth : Nat) (d : Decl) :
    Faultless (d.events c depth) ↔ ∀ n ∈ d.nodes, n.IsSound := by
  cases d with
  | absent => simp [Decl.events, Decl.nodes, Event.fault?]
  | var p name value =>
    have h := value.faultless_events (depth + 1)
    simp [Decl.events, Decl.nodes, h, Event.fault?]
  | func p name params decls body =>
    have h1 := Decl.faultless_eventsAll c.inside (depth + 1) decls
    have h2 := body.faultless_events (depth + 1)
    simp [Decl.events, Decl.nodes, h1, h2, Event.fault?, or_imp, forall_and]

theorem Decl.faultless_eventsAll (c : Counters) (depth : Nat) (ds : List Decl) :
    Faultless (Decl.eventsAll c depth ds) ↔ ∀ n ∈ Decl.nodesAll ds, n.IsSound := by
  cases ds with
  | nil => simp [Decl.eventsAll, Decl.nodesAll]
  | cons d ds =>
    have h1 := Decl.faultless_events c depth d
    have h2 := Decl.faultless_eventsAll (c.after d) depth ds
    simp only [Decl.eventsAll, Decl.nodesAll, faultless_append, h1, h2, List.forall_mem_append]

end

theorem Root.faultless_events (r : Root) : Faultless r.events ↔ ∀ n ∈ r.nodes, n.IsSound := by
  cases r with
  | absent => simp [Root.events, Root.nodes, Event.fault?]
  | letIn p decls body =>
    simp [Root.events, Root.nodes, Decl.faultless_eventsAll, body.faultless_events, Event.fault?, or_imp, forall_and]
  | bare body => simp [Root.events, Root.nodes, body.faultless_events, Event.fault?]

/-- **A tree compiles exactly if every node is sound**, and then to its program. -/
theorem Root.compile_eq_ok_iff (r : Root) (p : Program) :
    r.compile = .ok p ↔ (∀ n ∈ r.nodes, n.IsSound) ∧ r.program = p := by
  rw [← r.faultless_events]
  unfold Root.compile
  cases h : r.events.findSome? Event.fault? with
  | none =>
    have hf : Faultless r.events := List.findSome?_eq_none_iff.1 h
    simp [hf]
  | some f =>
    have hf : ¬ Faultless r.events := fun hf => by
      rw [List.findSome?_eq_none_iff.2 hf] at h
      cases h
    simp [hf]

/-! ## A tree -/

namespace SumTree

/-- the parameter of the outer function, read at nesting level `level` -/
def n (level : Int64) : Expr := .ident ⟨1, 40⟩ ⟨"n", level, some ⟨1, 1⟩⟩

def int (z : Int64) : Expr := .literal ⟨1, 60⟩ (.int z)

def sum (level : Int64) (arg : Expr) : Expr := .call ⟨1, 70⟩ ⟨"sum", level, some ⟨0, -2⟩⟩ [arg]

def addBody : Expr := .binary ⟨1, 37⟩ .plus (n 2) (.ident ⟨1, 41⟩ ⟨"m", 2, some ⟨2, 1⟩⟩)

def add : Decl := .func ⟨1, 22⟩ "add" [{ name := "m" }] [] addBody

def body : Expr :=
  .cond ⟨1, 45⟩ (.binary ⟨1, 50⟩ .equal (n 1) (int 0)) (int 0)
    (.call ⟨1, 66⟩ ⟨"add", 1, some ⟨1, -2⟩⟩ [sum 1 (.binary ⟨1, 76⟩ .plus (n 1) (int (-1)))])

end SumTree

/-- the tree of

    let fun sum(n) = let fun add(m) = n + m in if n == 0 then 0 else add(sum(n + -1))
    in print sum(2)

which recurs, nests functions, and reads a parameter of an enclosing function -/
def sumTree : Root :=
  .letIn ⟨1, 1⟩ [.func ⟨1, 5⟩ "sum" [{ name := "n" }] [SumTree.add] SumTree.body]
    (.print ⟨2, 4⟩ (SumTree.sum 0 (SumTree.int 2)))

end LetStack

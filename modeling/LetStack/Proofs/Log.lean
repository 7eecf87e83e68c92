/-
The log of a compilation that comes to its end.

What is shown on the way has two orders. A node is traced when it is entered, before its parts, and the parts are taken
in the order of the visit, which is not that of the source: arguments last to first, the branch for false before the
branch for true. A function is disassembled when its block is complete, and so after the functions that are nested in
it, though its place in the pool is before theirs. `Stage` has both, and which of them are shown is the only thing that
the caller decides.

Result:
- `log_follows_the_tree`: the program or the fault, and the log, of the work on a tree, whatever is shown; if there is a
  program, the trace has the nodes of a traversal at their depths, in the order of the visit, and the disassembly has
  the functions, each after those nested in it, with the code that they have in the program.
-/
import LetStack.Proofs.Generator
import LetStack.Proofs.Outline

namespace LetStack

/-! ## Stages -/

namespace Node

/-- what the trace says of a node beside its kind: a name, an operator or a value -/
def detail : Node → String
  | .decl (.var _ name _) => name
  | .decl (.func _ name _ _ _) => name
  | .expr (.literal _ value) => value.text
  | .expr (.ident _ r) => r.name
  | .expr (.call _ r _) => r.name
  | .expr (.binary _ op _ _) => op.symbol
  | _ => ""

/-- the parts of a node in the order of the visit -/
def visitOrder {β : Type} : Node → List β → List β
  | .expr (.call ..), parts => parts.reverse
  | .expr (.cond ..), [test, yes, no] => [test, no, yes]
  | _, parts => parts

theorem perm_visitOrder {β : Type} (n : Node) (parts : List β) : (n.visitOrder parts).Perm parts := by
  unfold visitOrder
  split
  · exact parts.reverse_perm
  · exact (List.Perm.swap _ _ _).cons _
  · exact .refl _

end Node

/-- the outline with the parts of each node in the order of the visit -/
def Outline.visited (t : Outline Node) : Outline Node := t.arrange Node.visitOrder

/-- what may be shown: a node is entered at its depth, or a function is finished -/
inductive Stage where
  | enter (depth : Nat) (n : Node)
  | finish (q : Routine)

namespace Stage

def entered? : Stage → Option (Nat × Node)
  | .enter depth n => some (depth, n)
  | .finish _ => none

def finished? : Stage → Option Routine
  | .enter _ _ => none
  | .finish q => some q

/-- what is shown of a stage -/
def line? (v : Verbosity) : Stage → Option String
  | .enter depth n =>
    if v.trace then
      some (String.ofList (List.replicate (2 * depth) ' ') ++ n.kind.name
        ++ (if n.detail = "" then "" else ": " ++ n.detail))
    else none
  | .finish q =>
    if v.disassemble then
      some ("function " ++ q.label.name ++ " (" ++ q.name ++ "/" ++ toString q.params.length ++ "):\n"
        ++ q.code.listing)
    else none

def event : Stage → Event
  | .enter depth n => .enter depth n.kind n.detail
  | .finish q => .finish q

theorem indent_eq (depth : Nat) :
    String.join (List.replicate depth "  ") = String.ofList (List.replicate (2 * depth) ' ') := by
  apply String.toList_inj.1
  rw [String.toList_join, String.toList_ofList]
  induction depth with
  | zero => rfl
  | succ depth ih =>
    rw [List.replicate_succ, List.flatMap_cons, ih, Nat.mul_succ, Nat.add_comm, List.replicate_add]
    rfl

theorem line?_eq (v : Verbosity) (s : Stage) : Event.entry? v s.event = s.line? v := by
  cases s with
  | enter depth n => simp only [event, Event.entry?, line?, indent_eq, String.isEmpty_iff]
  | finish q => rfl

end Stage

/-- events without a fault, as stages: the nodes `visited` are entered and the functions `finished` are finished -/
def Passes (es : List Event) (visited : List (Nat × Node)) (finished : List Routine) : Prop :=
  ∃ stages : List Stage, stages.map Stage.event = es ∧ stages.filterMap Stage.entered? = visited ∧
    stages.filterMap Stage.finished? = finished

namespace Passes

variable {es es' : List Event} {visited visited' : List (Nat × Node)} {finished finished' : List Routine}

theorem nil : Passes [] [] [] := ⟨[], rfl, rfl, rfl⟩

theorem append (h : Passes es visited finished) (h' : Passes es' visited' finished') :
    Passes (es ++ es') (visited ++ visited') (finished ++ finished') := by
  obtain ⟨stages, rfl, rfl, rfl⟩ := h
  obtain ⟨stages', rfl, rfl, rfl⟩ := h'
  exact ⟨stages ++ stages', List.map_append, List.filterMap_append, List.filterMap_append⟩

theorem enter (depth : Nat) (n : Node) (h : Passes es visited finished) :
    Passes (.enter depth n.kind n.detail :: es) ((depth, n) :: visited) finished := by
  obtain ⟨stages, rfl, rfl, rfl⟩ := h
  exact ⟨.enter depth n :: stages, rfl, rfl, rfl⟩

theorem last {t : Outline Node} {depth : Nat} (h : Passes es (t.preorder depth) finished) :
    Passes es (Outline.preorderAll depth [t]) finished := by
  rw [Outline.preorderAll, Outline.preorderAll, List.append_nil]
  exact h

/-- declarations and then a body -/
theorem scope {ts : List (Outline Node)} {t : Outline Node} {depth : Nat}
    (h : Passes es (Outline.preorderAll depth (Outline.arrangeAll Node.visitOrder ts)) finished)
    (h' : Passes es' (t.visited.preorder depth) []) :
    Passes (es ++ es') (Outline.preorderAll depth (Outline.arrangeAll Node.visitOrder (ts ++ [t]))) finished := by
  rw [Outline.arrangeAll_append, Outline.preorderAll_append, ← List.append_nil finished]
  exact h.append h'.last

theorem finish (q : Routine) : Passes [.finish q] [] [q] := ⟨[.finish q], rfl, rfl, rfl⟩

end Passes

/-! ## The stages of a visit -/

theorem Reference.faults_eq_nil {pos : Position} {r : Reference} (h : Faultless (r.faults pos)) :
    r.faults pos = [] := by
  unfold Reference.faults at h ⊢
  split
  · rename_i hnone
    rw [hnone] at h
    exact absurd h (not_faultless_fault _ _)
  · rename_i e hsome
    simp only [hsome] at h
    split
    · rename_i hneg
      rw [if_pos hneg] at h
      exact absurd h (not_faultless_fault _ _)
    · rfl

theorem Literal.faults_eq_nil {pos : Position} {value : Literal} (h : Faultless (value.faults pos)) :
    value.faults pos = [] := by
  cases value with
  | int n | bool b => rfl
  | string s => exact absurd h (not_faultless_fault _ _)
  | absent => exact absurd h (not_faultless_fault _ _)

theorem Operator.faults_eq_nil {pos : Position} {op : Operator} (h : Faultless (op.faults pos)) :
    op.faults pos = [] := by
  cases op with
  | equal | plus | times => rfl
  | illegal c => exact absurd h (not_faultless_fault _ _)

mutual

theorem Expr.passes {depth : Nat} (e : Expr) (h : Faultless (e.events depth)) :
    Passes (e.events depth) (e.outline.visited.preorder depth) [] := by
  cases e with
  | absent => exact absurd h (not_faultless_fault _ _)
  | literal p value =>
    rw [Expr.events, faultless_append] at h
    rw [Expr.events, Literal.faults_eq_nil h.2]
    exact Passes.nil.enter depth (.expr (.literal p value))
  | ident p r =>
    rw [Expr.events, faultless_append] at h
    rw [Expr.events, Reference.faults_eq_nil h.2]
    exact Passes.nil.enter depth (.expr (.ident p r))
  | call p r args =>
    simp only [Expr.events, faultless_append] at h
    obtain ⟨⟨-, hargs⟩, hfaults⟩ := h
    rw [Expr.events, Reference.faults_eq_nil hfaults, List.append_nil]
    exact (Expr.passesArgs args hargs).enter depth (.expr (.call p r args))
  | cond p test yes no =>
    simp only [Expr.events, faultless_append] at h
    obtain ⟨⟨⟨-, htest⟩, hno⟩, hyes⟩ := h
    rw [Expr.events, List.append_assoc, List.append_assoc]
    exact ((test.passes htest).append ((no.passes hno).append (yes.passes hyes).last)).enter depth
      (.expr (.cond p test yes no))
  | binary p op left right =>
    simp only [Expr.events, faultless_append] at h
    obtain ⟨⟨⟨-, hfaults⟩, hleft⟩, hright⟩ := h
    rw [Expr.events, Operator.faults_eq_nil hfaults, List.append_nil, List.append_assoc]
    exact ((left.passes hleft).append (right.passes hright).last).enter depth (.expr (.binary p op left right))
  | print p arg =>
    rw [Expr.events, faultless_append] at h
    exact (arg.passes h.2).last.enter depth (.expr (.print p arg))

theorem Expr.passesArgs {depth : Nat} (es : List Expr) (h : Faultless (Expr.argsEvents depth es)) :
    Passes (Expr.argsEvents depth es)
      (Outline.preorderAll depth (Outline.arrangeAll Node.visitOrder (Expr.outlines es)).reverse) [] := by
  cases es with
  | nil => exact Passes.nil
  | cons e es =>
    rw [Expr.argsEvents, faultless_append] at h
    rw [Expr.argsEvents, Expr.outlines, Outline.arrangeAll, List.reverse_cons, Outline.preorderAll_append]
    exact (Expr.passesArgs es h.1).append (e.passes h.2).last

end

/-! ## Functions -/

mutual

theorem Expr.select_isFunction (e : Expr) : e.outline.select Node.isFunction = [] := by
  cases e with
  | absent => rfl
  | literal p value => rfl
  | ident p r => rfl
  | call p r args => exact Expr.selectAll_isFunction args
  | cond p test yes no =>
    simp [Expr.outline, Outline.select, Outline.selectAll, Node.isFunction, Expr.select_isFunction test,
      Expr.select_isFunction yes, Expr.select_isFunction no]
  | binary p op left right =>
    simp [Expr.outline, Outline.select, Outline.selectAll, Node.isFunction, Expr.select_isFunction left,
      Expr.select_isFunction right]
  | print p arg =>
    simp [Expr.outline, Outline.select, Outline.selectAll, Node.isFunction, Expr.select_isFunction arg]

theorem Expr.selectAll_isFunction (es : List Expr) : Outline.selectAll Node.isFunction (Expr.outlines es) = [] := by
  cases es with
  | nil => rfl
  | cons e es => rw [Expr.outlines, Outline.selectAll, Expr.select_isFunction e, Expr.selectAll_isFunction es]; rfl

end

/-- the function declaration of a routine, as a node -/
def Routine.node (q : Routine) : Node := .decl q.decl

/-- routines, nested as the functions of an outline are, with the enclosing one first -/
structure Nests (functions : List (Outline Routine)) (ts : List (Outline Node)) (routines : List Routine) : Prop where
  nodes : Outline.mapAll Routine.node functions = Outline.selectAll Node.isFunction ts
  routines : ∀ depth, (Outline.preorderAll depth functions).map Prod.snd = routines

namespace Nests

variable {functions functions' : List (Outline Routine)} {ts ts' : List (Outline Node)} {qs qs' : List Routine}

theorem append (h : Nests functions ts qs) (h' : Nests functions' ts' qs') :
    Nests (functions ++ functions') (ts ++ ts') (qs ++ qs') where
  nodes := by rw [Outline.mapAll_append, h.nodes, h'.nodes, Outline.selectAll_append]
  routines := fun depth => by
    rw [Outline.preorderAll_append, List.map_append, h.routines, h'.routines]

/-- an expression has no functions -/
theorem expr (e : Expr) : Nests [] [e.outline] [] where
  nodes := by
    rw [Outline.selectAll, Outline.selectAll, e.select_isFunction]
    rfl
  routines := fun _ => rfl

/-- declarations and then a body -/
theorem scope (h : Nests functions ts qs) (body : Expr) : Nests functions (ts ++ [body.outline]) qs := by
  have happend := h.append (Nests.expr body)
  rwa [List.append_nil, List.append_nil] at happend

theorem function (q : Routine) (h : Nests functions ts qs) :
    Nests [.node q functions] [.node q.node ts] (q :: qs) where
  nodes := by
    simp only [Outline.mapAll, Outline.map, Outline.selectAll, Outline.select, List.append_nil, h.nodes]
    rfl
  routines := fun depth => by
    simp only [Outline.preorderAll, Outline.preorder, List.append_nil, List.map_cons, h.routines]

/-- what is no function only holds those of its parts -/
theorem node {n : Node} (hn : n.isFunction = false) (h : Nests functions ts qs) :
    Nests functions [.node n ts] qs where
  nodes := by simp [h.nodes, Outline.selectAll, Outline.select, hn]
  routines := h.routines

end Nests

mutual

theorem Decl.passes {depth : Nat} {c : Counters} (d : Decl) (h : Faultless (d.events c depth)) :
    ∃ functions, Nests functions [d.outline] (d.routines c) ∧
      Passes (d.events c depth) (d.outline.visited.preorder depth) (Outline.postorderAll functions) := by
  cases d with
  | absent => exact absurd h (not_faultless_fault _ _)
  | var p name value =>
    rw [Decl.events, faultless_append] at h
    exact ⟨[], (Nests.expr value).node rfl, (value.passes h.2).last.enter depth (.decl (.var p name value))⟩
  | func p name params decls body =>
    simp only [Decl.events, faultless_append] at h
    obtain ⟨⟨⟨-, hdecls⟩, hbody⟩, -⟩ := h
    obtain ⟨inner, hnests, hpasses⟩ := Decl.passesAll decls hdecls
    let q := Routine.make c p name params decls body
    have hparts := ((hpasses.scope (body.passes hbody)).append (Passes.finish q)).enter depth
      (.decl (.func p name params decls body))
    refine ⟨[.node q inner], (hnests.scope body).function q, ?_⟩
    rw [List.append_nil] at hparts
    rw [show Outline.postorderAll [.node q inner] = Outline.postorderAll inner ++ [q] from List.append_nil _]
    exact hparts

theorem Decl.passesAll {depth : Nat} {c : Counters} (ds : List Decl) (h : Faultless (Decl.eventsAll c depth ds)) :
    ∃ functions, Nests functions (Decl.outlines ds) (Decl.routinesAll c ds) ∧
      Passes (Decl.eventsAll c depth ds)
        (Outline.preorderAll depth (Outline.arrangeAll Node.visitOrder (Decl.outlines ds)))
        (Outline.postorderAll functions) := by
  cases ds with
  | nil => exact ⟨[], ⟨rfl, fun _ => rfl⟩, Passes.nil⟩
  | cons d ds =>
    rw [Decl.eventsAll, faultless_append] at h
    obtain ⟨first, hfirst, hd⟩ := d.passes h.1
    obtain ⟨later, hlater, hds⟩ := Decl.passesAll ds h.2
    refine ⟨first ++ later, hfirst.append hlater, ?_⟩
    rw [Outline.postorderAll_append]
    exact hd.append hds

end

theorem Root.passes (r : Root) (h : Faultless r.events) :
    ∃ functions, Nests functions [r.outline] r.program.routines ∧
      Passes r.events (r.outline.visited.preorder 0) (Outline.postorderAll functions) := by
  cases r with
  | absent => exact absurd h (not_faultless_fault _ _)
  | letIn p decls body =>
    simp only [Root.events, faultless_append] at h
    obtain ⟨⟨-, hdecls⟩, hbody⟩ := h
    obtain ⟨functions, hnests, hpasses⟩ := Decl.passesAll decls hdecls
    exact ⟨functions, (hnests.scope body).node rfl,
      (hpasses.scope (body.passes hbody)).enter 0 (.root (.letIn p decls body))⟩
  | bare body =>
    rw [Root.events, faultless_append] at h
    exact ⟨[], (Nests.expr body).node rfl, (body.passes h.2).last.enter 0 (.root (.bare body))⟩

/-! ## The log -/

/-- **The log follows the tree.** Whatever is shown, the work on a tree gives its program or its fault. If there is a
program, what is shown is taken from stages that do not depend on it. The nodes entered are those of a traversal, at the
same depths, but with the parts of each node in the order of the visit. The functions finished are those of the tree,
each after the ones nested in it, as the routines of the program, which are nested in the same way and have the
enclosing one first in the pool. -/
theorem log_follows_the_tree (r : Root) :
    (∀ v, r.build v = (r.compile, r.logEntries v)) ∧
    ∀ p, r.compile = .ok p →
      (r.walk Visitor.depths).run ⟨[], 0⟩ = .ok ((), ⟨r.outline.preorder 0, 0⟩) ∧
      (r.outline.visited.preorder 0).Perm (r.outline.preorder 0) ∧
      ∃ stages : List Stage,
        (∀ v, r.logEntries v = stages.filterMap (Stage.line? v)) ∧
        stages.filterMap Stage.entered? = r.outline.visited.preorder 0 ∧
        (stages.filterMap Stage.finished?).map Routine.node = r.outline.postorder.filter Node.isFunction ∧
        ∃ functions : List (Outline Routine),
          Outline.mapAll Routine.node functions = r.outline.select Node.isFunction ∧
          (Outline.preorderAll 0 functions).map Prod.snd = p.routines ∧
          stages.filterMap Stage.finished? = Outline.postorderAll functions := by
  refine ⟨fun v => r.build_eq v, fun p hp => ?_⟩
  obtain ⟨hsound, rfl⟩ := (r.compile_eq_ok_iff p).1 hp
  have hfaultless := r.faultless_events.2 hsound
  obtain ⟨functions, hnests, stages, hevents, hentered, hfinished⟩ := r.passes hfaultless
  have hnodes : Outline.mapAll Routine.node functions = r.outline.select Node.isFunction := by
    rw [hnests.nodes, Outline.selectAll, Outline.selectAll, List.append_nil]
  refine ⟨r.walk_depths fun n hn => (hsound n hn).1.kind_ne_absent,
    Outline.perm_preorder_arrange Node.perm_visitOrder r.outline 0, stages, fun v => ?_, hentered, ?_, functions,
    hnodes, hnests.routines 0, hfinished⟩
  · rw [Root.logEntries, hfaultless.untilFault_eq_self, ← hevents, List.filterMap_map]
    exact List.filterMap_congr fun s _ => s.line?_eq v
  · rw [hfinished, ← Outline.postorderAll_mapAll, hnodes, Outline.postorderAll_select]

namespace ForkTree

def g : Decl := .func .unknown "g" [] [] (.literal .unknown (.int 1))

def f : Decl :=
  .func .unknown "f" [⟨"a", .unknown⟩] [g]
    (.cond .unknown (.ident .unknown ⟨"a", 1, some ⟨1, 1⟩⟩) (.call .unknown ⟨"g", 1, some ⟨1, -2⟩⟩ [])
      (.literal .unknown (.int 2)))

def h : Decl :=
  .func .unknown "h" [⟨"b", .unknown⟩, ⟨"c", .unknown⟩] [] (.ident .unknown ⟨"b", 1, some ⟨1, 1⟩⟩)

end ForkTree

/-- the tree of

    let fun f(a) = let fun g() = 1 in if a then g() else 2
        fun h(b, c) = b
    in h(3, f(true))

where a function is nested, a branch is chosen and a call has two arguments -/
def forkTree : Root :=
  .letIn .unknown [ForkTree.f, ForkTree.h]
    (.call .unknown ⟨"h", 0, some ⟨0, -3⟩⟩
      [.literal .unknown (.int 3),
        .call .unknown ⟨"f", 0, some ⟨0, -2⟩⟩ [.literal .unknown (.bool true)]])

/-- With all shown, `2` is traced before the call of `g` in the other branch, the call of `f` before `3`, which stands
first in the source; `g` is disassembled before `f`, which has its place in the pool before it. -/
theorem forkTree_log :
    forkTree.compile = .ok forkTree.program ∧
    (forkTree.build ⟨true, true⟩).1 = .ok forkTree.program ∧
    forkTree.program.routines.map Routine.name = ["f", "g", "h"] ∧
    ∃ stages : List Stage,
      forkTree.logEntries ⟨true, true⟩ = stages.filterMap (Stage.line? ⟨true, true⟩) ∧
      (stages.filterMap Stage.entered?).map (fun x => (x.1, x.2.kind, x.2.detail)) =
        [(0, .letIn, ""), (1, .func, "f"), (2, .func, "g"), (3, .literal, "1"), (2, .cond, ""), (3, .ident, "a"),
          (3, .literal, "2"), (3, .call, "g"), (1, .func, "h"), (2, .ident, "b"), (1, .call, "h"), (2, .call, "f"),
          (3, .literal, "true"), (2, .literal, "3")] ∧
      (stages.filterMap Stage.finished?).map Routine.node = [ForkTree.g, ForkTree.f, ForkTree.h].map Node.decl := by
  have hok : forkTree.compile = .ok forkTree.program := rfl
  obtain ⟨hbuild, hlog⟩ := log_follows_the_tree forkTree
  obtain ⟨-, -, stages, hentries, hentered, hfinished, -⟩ := hlog _ hok
  refine ⟨hok, ?_, rfl, stages, hentries _, ?_, ?_⟩
  · rw [hbuild, hok]
  · rw [hentered]
    decide
  · rw [hfinished]
    rfl

end LetStack

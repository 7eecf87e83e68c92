/-
Trees as nodes and their parts.

The nodes of a tree are of three types, and the parts of a node are found under names and in lists. `Root.outline`
forgets all but the nodes and which is a part of which, with the parts as they stand in the source. Orders in which
nodes are visited are then orders of outlines: a node before its parts, or after them, the parts as they stand or
arranged in another way.

A tree without absent nodes is traversed as its outline is, by every visitor, so what a traversal does is a matter of
outlines. A visitor that never stops and decides by the node alone is given by a step and a predicate. Its traversal is
a fold of the step over the calls of the outline.

Results:
- `Root.walk_eq`: the traversal of a tree is that of its outline;
- `Root.items_outline`: the nodes of the outline are those of the tree, in source order;
- `Root.walk_stepping`: the traversal by a step and a predicate;
- `Root.walk_depths`: a traversal that passes over nothing shows the nodes before their parts, each at its depth;
- `Outline.perm_preorder_arrange`: to arrange the parts of nodes changes the order of a visit, but neither what is
  visited nor at which depth.
-/
import LetStack.Proofs.Nodes
import LetStack.Tree.Walk

namespace LetStack

/-! ## Outlines -/

/-- an item and the outlines of its parts -/
inductive Outline (α : Type) where
  | node (item : α) (parts : List (Outline α))

namespace Outline

variable {α β : Type}

mutual

/-- an item before its parts, with its depth -/
def preorder (depth : Nat) : Outline α → List (Nat × α)
  | .node a ts => (depth, a) :: preorderAll (depth + 1) ts

def preorderAll (depth : Nat) : List (Outline α) → List (Nat × α)
  | [] => []
  | t :: ts => t.preorder depth ++ preorderAll depth ts

end

mutual

/-- an item before its parts -/
def items : Outline α → List α
  | .node a ts => a :: itemsAll ts

def itemsAll : List (Outline α) → List α
  | [] => []
  | t :: ts => t.items ++ itemsAll ts

end

mutual

/-- an item after its parts -/
def postorder : Outline α → List α
  | .node a ts => postorderAll ts ++ [a]

def postorderAll : List (Outline α) → List α
  | [] => []
  | t :: ts => t.postorder ++ postorderAll ts

end

mutual

def map (f : α → β) : Outline α → Outline β
  | .node a ts => .node (f a) (mapAll f ts)

def mapAll (f : α → β) : List (Outline α) → List (Outline β)
  | [] => []
  | t :: ts => t.map f :: mapAll f ts

end

mutual

/-- the items that `keep` chooses, each below the nearest one that it is part of -/
def select (keep : α → Bool) : Outline α → List (Outline α)
  | .node a ts => if keep a then [.node a (selectAll keep ts)] else selectAll keep ts

def selectAll (keep : α → Bool) : List (Outline α) → List (Outline α)
  | [] => []
  | t :: ts => t.select keep ++ selectAll keep ts

end

mutual

/-- with the parts of each item in the order that `f` gives them -/
def arrange (f : α → List (Outline α) → List (Outline α)) : Outline α → Outline α
  | .node a ts => .node a (f a (arrangeAll f ts))

def arrangeAll (f : α → List (Outline α) → List (Outline α)) : List (Outline α) → List (Outline α)
  | [] => []
  | t :: ts => t.arrange f :: arrangeAll f ts

end

theorem preorderAll_append (depth : Nat) (ts us : List (Outline α)) :
    preorderAll depth (ts ++ us) = preorderAll depth ts ++ preorderAll depth us := by
  induction ts with
  | nil => rfl
  | cons t ts ih => rw [List.cons_append, preorderAll, preorderAll, ih, List.append_assoc]

theorem itemsAll_append (ts us : List (Outline α)) : itemsAll (ts ++ us) = itemsAll ts ++ itemsAll us := by
  induction ts with
  | nil => rfl
  | cons t ts ih => rw [List.cons_append, itemsAll, itemsAll, ih, List.append_assoc]

theorem postorderAll_append (ts us : List (Outline α)) :
    postorderAll (ts ++ us) = postorderAll ts ++ postorderAll us := by
  induction ts with
  | nil => rfl
  | cons t ts ih => rw [List.cons_append, postorderAll, postorderAll, ih, List.append_assoc]

theorem mapAll_append (f : α → β) (ts us : List (Outline α)) : mapAll f (ts ++ us) = mapAll f ts ++ mapAll f us := by
  induction ts with
  | nil => rfl
  | cons t ts ih => rw [List.cons_append, mapAll, mapAll, ih, List.cons_append]

theorem selectAll_append (keep : α → Bool) (ts us : List (Outline α)) :
    selectAll keep (ts ++ us) = selectAll keep ts ++ selectAll keep us := by
  induction ts with
  | nil => rfl
  | cons t ts ih => rw [List.cons_append, selectAll, selectAll, ih, List.append_assoc]

theorem arrangeAll_append (f : α → List (Outline α) → List (Outline α)) (ts us : List (Outline α)) :
    arrangeAll f (ts ++ us) = arrangeAll f ts ++ arrangeAll f us := by
  induction ts with
  | nil => rfl
  | cons t ts ih => rw [List.cons_append, arrangeAll, arrangeAll, ih, List.cons_append]

section Postorder

variable (f : α → β) (keep : α → Bool)

mutual

theorem postorder_map (t : Outline α) : (t.map f).postorder = t.postorder.map f := by
  cases t with
  | node a ts => rw [map, postorder, postorder, postorderAll_mapAll ts, List.map_append]; rfl

theorem postorderAll_mapAll (ts : List (Outline α)) : postorderAll (mapAll f ts) = (postorderAll ts).map f := by
  cases ts with
  | nil => rfl
  | cons t ts => rw [mapAll, postorderAll, postorderAll, postorder_map t, postorderAll_mapAll ts, List.map_append]

end

mutual

theorem postorderAll_select (t : Outline α) : postorderAll (t.select keep) = t.postorder.filter keep := by
  cases t with
  | node a ts =>
    rw [select, postorder, List.filter_append, ← postorderAll_selectAll ts]
    cases h : keep a <;> simp [h, postorder, postorderAll]

theorem postorderAll_selectAll (ts : List (Outline α)) :
    postorderAll (selectAll keep ts) = (postorderAll ts).filter keep := by
  cases ts with
  | nil => rfl
  | cons t ts =>
    rw [selectAll, postorderAll, postorderAll_append, postorderAll_select t, postorderAll_selectAll ts,
      List.filter_append]

end

end Postorder

theorem perm_preorderAll {ts us : List (Outline α)} (h : ts.Perm us) (depth : Nat) :
    (preorderAll depth ts).Perm (preorderAll depth us) := by
  induction h with
  | nil => exact .refl _
  | cons t _ ih => exact ih.append_left _
  | swap t u ts =>
    rw [preorderAll, preorderAll, preorderAll, preorderAll, ← List.append_assoc, ← List.append_assoc]
    exact List.perm_append_comm.append_right _
  | trans _ _ ih ih' => exact ih.trans ih'

section Arrange

variable {f : α → List (Outline α) → List (Outline α)}

mutual

theorem perm_preorder_arrange (hf : ∀ a ts, (f a ts).Perm ts) (t : Outline α) (depth : Nat) :
    ((t.arrange f).preorder depth).Perm (t.preorder depth) := by
  cases t with
  | node a ts =>
    have hparts := perm_preorderAll (hf a (arrangeAll f ts)) (depth + 1)
    exact (hparts.trans (perm_preorderAll_arrangeAll hf ts (depth + 1))).cons _

theorem perm_preorderAll_arrangeAll (hf : ∀ a ts, (f a ts).Perm ts) (ts : List (Outline α)) (depth : Nat) :
    (preorderAll depth (arrangeAll f ts)).Perm (preorderAll depth ts) := by
  cases ts with
  | nil => exact .refl _
  | cons t ts => exact (perm_preorder_arrange hf t depth).append (perm_preorderAll_arrangeAll hf ts depth)

end

end Arrange

mutual

/-- the calls of a traversal that goes below the items that are accepted: each item before its parts, and an accepted
one left after them -/
def calls (accepts : α → Bool) : Outline α → List (Option α)
  | .node a ts => some a :: if accepts a then callsAll accepts ts ++ [none] else []

def callsAll (accepts : α → Bool) : List (Outline α) → List (Option α)
  | [] => []
  | t :: ts => t.calls accepts ++ callsAll accepts ts

end

theorem callsAll_append (accepts : α → Bool) (ts us : List (Outline α)) :
    callsAll accepts (ts ++ us) = callsAll accepts ts ++ callsAll accepts us := by
  induction ts with
  | nil => rfl
  | cons t ts ih => rw [List.cons_append, callsAll, callsAll, ih, List.append_assoc]

end Outline

/-! ## The outline of a tree -/

mutual

def Expr.outline : Expr → Outline Node
  | .absent => .node (.expr .absent) []
  | .literal p v => .node (.expr (.literal p v)) []
  | .ident p r => .node (.expr (.ident p r)) []
  | .call p r args => .node (.expr (.call p r args)) (Expr.outlines args)
  | .cond p test yes no => .node (.expr (.cond p test yes no)) [test.outline, yes.outline, no.outline]
  | .binary p op left right => .node (.expr (.binary p op left right)) [left.outline, right.outline]
  | .print p arg => .node (.expr (.print p arg)) [arg.outline]

def Expr.outlines : List Expr → List (Outline Node)
  | [] => []
  | e :: es => e.outline :: Expr.outlines es

end

mutual

def Decl.outline : Decl → Outline Node
  | .absent => .node (.decl .absent) []
  | .var p name value => .node (.decl (.var p name value)) [value.outline]
  | .func p name params decls body =>
    .node (.decl (.func p name params decls body)) (Decl.outlines decls ++ [body.outline])

def Decl.outlines : List Decl → List (Outline Node)
  | [] => []
  | d :: ds => d.outline :: Decl.outlines ds

end

def Root.outline : Root → Outline Node
  | .absent => .node (.root .absent) []
  | .letIn p decls body => .node (.root (.letIn p decls body)) (Decl.outlines decls ++ [body.outline])
  | .bare body => .node (.root (.bare body)) [body.outline]

mutual

theorem Expr.items_outline (e : Expr) : e.outline.items = e.nodes := by
  cases e with
  | absent => rfl
  | literal p v => rfl
  | ident p r => rfl
  | call p r args => exact congrArg (List.cons _) (Expr.itemsAll_outlines args)
  | cond p test yes no =>
    simp only [Expr.outline, Outline.items, Outline.itemsAll, Expr.nodes, test.items_outline, yes.items_outline,
      no.items_outline, List.append_nil, List.append_assoc]
  | binary p op left right =>
    simp only [Expr.outline, Outline.items, Outline.itemsAll, Expr.nodes, left.items_outline, right.items_outline,
      List.append_nil]
  | print p arg =>
    simp only [Expr.outline, Outline.items, Outline.itemsAll, Expr.nodes, arg.items_outline, List.append_nil]

theorem Expr.itemsAll_outlines (es : List Expr) : Outline.itemsAll (Expr.outlines es) = Expr.nodesAll es := by
  cases es with
  | nil => rfl
  | cons e es => simp only [Expr.outlines, Outline.itemsAll, Expr.nodesAll, e.items_outline, Expr.itemsAll_outlines es]

end

mutual

theorem Decl.items_outline (d : Decl) : d.outline.items = d.nodes := by
  cases d with
  | absent => rfl
  | var p name value =>
    simp only [Decl.outline, Outline.items, Outline.itemsAll, Decl.nodes, value.items_outline, List.append_nil]
  | func p name params decls body =>
    simp only [Decl.outline, Outline.items, Outline.itemsAll_append, Outline.itemsAll, Decl.nodes,
      Decl.itemsAll_outlines decls, body.items_outline, List.append_nil]

theorem Decl.itemsAll_outlines (ds : List Decl) : Outline.itemsAll (Decl.outlines ds) = Decl.nodesAll ds := by
  cases ds with
  | nil => rfl
  | cons d ds => simp only [Decl.outlines, Outline.itemsAll, Decl.nodesAll, d.items_outline, Decl.itemsAll_outlines ds]

end

theorem Root.items_outline (r : Root) : r.outline.items = r.nodes := by
  cases r with
  | absent => rfl
  | letIn p decls body =>
    simp only [Root.outline, Outline.items, Outline.itemsAll_append, Outline.itemsAll, Root.nodes,
      Decl.itemsAll_outlines, body.items_outline, List.append_nil]
  | bare body =>
    simp only [Root.outline, Outline.items, Outline.itemsAll, Root.nodes, body.items_outline, List.append_nil]

/-! ## Traversals of outlines -/

section Around

variable {σ : Type} {f : Visitor σ} {n : Node} {x : StateT σ (Except Fault) Unit} {s s1 s2 s3 : σ}

/-- a node that the visitor does not go below -/
theorem Visitor.around_of_false (henter : (f (some n)).run s = .ok (false, s1)) :
    (f.around n x).run s = .ok ((), s1) := by
  rw [Visitor.around, StateT.run_bind, henter]
  rfl

/-- a node that is entered and left -/
theorem Visitor.around_of_true (henter : (f (some n)).run s = .ok (true, s1)) (hx : x.run s1 = .ok ((), s2))
    {b : Bool} (hleave : (f none).run s2 = .ok (b, s3)) : (f.around n x).run s = .ok ((), s3) := by
  rw [Visitor.around, StateT.run_bind, henter]
  change (x.run s1 >>= fun p => (discard (f none)).run p.2) = _
  rw [hx]
  change ((f none).run s2 >>= fun p => pure ((), p.2)) = _
  rw [hleave]
  rfl

end Around

section Walk

variable {σ : Type} (f : Visitor σ)

mutual

/-- a node is entered, its parts are traversed if the visitor wants them, and it is left -/
def Outline.walk : Outline Node → StateT σ (Except Fault) Unit
  | .node n ts => f.around n (Outline.walkAll ts)

def Outline.walkAll : List (Outline Node) → StateT σ (Except Fault) Unit
  | [] => pure ()
  | t :: ts => do
    t.walk
    Outline.walkAll ts

end

theorem Outline.walkAll_singleton (t : Outline Node) : Outline.walkAll f [t] = t.walk f := bind_pure_unit

theorem Outline.walkAll_append (ts us : List (Outline Node)) :
    Outline.walkAll f (ts ++ us) = (do Outline.walkAll f ts; Outline.walkAll f us) := by
  induction ts with
  | nil => exact (pure_bind _ _).symm
  | cons t ts ih => rw [List.cons_append, Outline.walkAll, Outline.walkAll, ih, bind_assoc]

mutual

theorem Expr.walk_eq (e : Expr) (h : ∀ n ∈ e.nodes, n.kind ≠ .absent) : e.walk f = e.outline.walk f := by
  cases e with
  | absent => exact absurd rfl (h (.expr .absent) (List.mem_singleton_self _))
  | literal p v => rfl
  | ident p r => rfl
  | call p r args =>
    obtain ⟨-, hargs⟩ := List.forall_mem_cons.1 h
    rw [Expr.walk, Expr.outline, Outline.walk, Expr.walkAll_eq args hargs]
  | cond p test yes no =>
    simp only [Expr.nodes, List.forall_mem_cons, List.forall_mem_append] at h
    obtain ⟨-, ⟨htest, hyes⟩, hno⟩ := h
    rw [Expr.walk, Expr.outline, Outline.walk, Outline.walkAll, Outline.walkAll, Outline.walkAll_singleton,
      test.walk_eq htest, yes.walk_eq hyes, no.walk_eq hno]
  | binary p op left right =>
    simp only [Expr.nodes, List.forall_mem_cons, List.forall_mem_append] at h
    obtain ⟨-, hleft, hright⟩ := h
    rw [Expr.walk, Expr.outline, Outline.walk, Outline.walkAll, Outline.walkAll_singleton, left.walk_eq hleft,
      right.walk_eq hright]
  | print p arg =>
    obtain ⟨-, harg⟩ := List.forall_mem_cons.1 h
    rw [Expr.walk, Expr.outline, Outline.walk, Outline.walkAll_singleton, arg.walk_eq harg]

theorem Expr.walkAll_eq (es : List Expr) (h : ∀ n ∈ Expr.nodesAll es, n.kind ≠ .absent) :
    Expr.walkAll f es = Outline.walkAll f (Expr.outlines es) := by
  cases es with
  | nil => rfl
  | cons e es =>
    obtain ⟨he, hes⟩ := List.forall_mem_append.1 h
    rw [Expr.walkAll, Expr.outlines, Outline.walkAll, e.walk_eq he, Expr.walkAll_eq es hes]

end

mutual

theorem Decl.walk_eq (d : Decl) (h : ∀ n ∈ d.nodes, n.kind ≠ .absent) : d.walk f = d.outline.walk f := by
  cases d with
  | absent => exact absurd rfl (h (.decl .absent) (List.mem_singleton_self _))
  | var p name value =>
    obtain ⟨-, hvalue⟩ := List.forall_mem_cons.1 h
    rw [Decl.walk, Decl.outline, Outline.walk, Outline.walkAll_singleton, value.walk_eq f hvalue]
  | func p name params decls body =>
    simp only [Decl.nodes, List.forall_mem_cons, List.forall_mem_append] at h
    obtain ⟨-, hdecls, hbody⟩ := h
    rw [Decl.walk, Decl.outline, Outline.walk, Outline.walkAll_append, Outline.walkAll_singleton,
      Decl.walkAll_eq decls hdecls, body.walk_eq f hbody]

theorem Decl.walkAll_eq (ds : List Decl) (h : ∀ n ∈ Decl.nodesAll ds, n.kind ≠ .absent) :
    Decl.walkAll f ds = Outline.walkAll f (Decl.outlines ds) := by
  cases ds with
  | nil => rfl
  | cons d ds =>
    obtain ⟨hd, hds⟩ := List.forall_mem_append.1 h
    rw [Decl.walkAll, Decl.outlines, Outline.walkAll, d.walk_eq hd, Decl.walkAll_eq ds hds]

end

/-- **A tree is traversed as its outline is.** -/
theorem Root.walk_eq (r : Root) (h : ∀ n ∈ r.nodes, n.kind ≠ .absent) : r.walk f = r.outline.walk f := by
  cases r with
  | absent => exact absurd rfl (h (.root .absent) (List.mem_singleton_self _))
  | letIn p decls body =>
    simp only [Root.nodes, List.forall_mem_cons, List.forall_mem_append] at h
    obtain ⟨-, hdecls, hbody⟩ := h
    rw [Root.walk, Root.outline, Outline.walk, Outline.walkAll_append, Outline.walkAll_singleton,
      Decl.walkAll_eq f decls hdecls, body.walk_eq f hbody]
  | bare body =>
    obtain ⟨-, hbody⟩ := List.forall_mem_cons.1 h
    rw [Root.walk, Root.outline, Outline.walk, Outline.walkAll_singleton, body.walk_eq f hbody]

end Walk

/-! ## Traversals by steps -/

section Stepping

variable {σ : Type} {accepts : Node → Bool} {step : σ → Option Node → σ}

/-- the visitor that makes a step at each call, and goes below the nodes that are accepted -/
def Visitor.stepping (accepts : Node → Bool) (step : σ → Option Node → σ) : Visitor σ := fun call => do
  modify fun s => step s call
  pure (call.elim true accepts)

/-- a part of a traversal that makes the steps of `calls` -/
def Makes (step : σ → Option Node → σ) (x : StateT σ (Except Fault) Unit) (calls : List (Option Node)) : Prop :=
  ∀ s, x.run s = .ok ((), calls.foldl step s)

theorem Makes.pure : Makes step (pure ()) [] := fun _ => rfl

theorem Makes.bind {x y : StateT σ (Except Fault) Unit} {xs ys : List (Option Node)} (hx : Makes step x xs)
    (hy : Makes step y ys) : Makes step (do x; y) (xs ++ ys) := by
  intro s
  rw [StateT.run_bind, hx s, List.foldl_append]
  exact hy _

theorem Makes.around {n : Node} {children : StateT σ (Except Fault) Unit} {calls : List (Option Node)}
    (h : Makes step children calls) :
    Makes step ((Visitor.stepping accepts step).around n children)
      (some n :: if accepts n then calls ++ [none] else []) := by
  intro s
  have henter : (Visitor.stepping accepts step (some n)).run s = .ok (accepts n, step s (some n)) := rfl
  rw [List.foldl_cons]
  cases ha : accepts n with
  | false =>
    rw [ha] at henter
    exact Visitor.around_of_false henter
  | true =>
    rw [ha] at henter
    rw [if_pos rfl, List.foldl_append]
    exact Visitor.around_of_true henter (h _) rfl

mutual

theorem Outline.walk_stepping (t : Outline Node) :
    Makes step (t.walk (Visitor.stepping accepts step)) (t.calls accepts) := by
  cases t with
  | node n ts => exact Makes.around (Outline.walkAll_stepping ts)

theorem Outline.walkAll_stepping (ts : List (Outline Node)) :
    Makes step (Outline.walkAll (Visitor.stepping accepts step) ts) (Outline.callsAll accepts ts) := by
  cases ts with
  | nil => exact Makes.pure
  | cons t ts => exact (Outline.walk_stepping t).bind (Outline.walkAll_stepping ts)

end

theorem Root.walk_stepping (r : Root) (h : ∀ n ∈ r.nodes, n.kind ≠ .absent) :
    Makes step (r.walk (Visitor.stepping accepts step)) (r.outline.calls accepts) := by
  rw [r.walk_eq _ h]
  exact r.outline.walk_stepping

end Stepping

/-! ## Depths -/

/-- what a visitor has noted of the depth of nodes -/
structure Depths where
  noted : List (Nat × Node)
  /-- how many nodes are entered and not left -/
  depth : Nat

def Depths.step (s : Depths) : Option Node → Depths
  | some n => ⟨s.noted ++ [(s.depth, n)], s.depth + 1⟩
  | none => { s with depth := s.depth - 1 }

/-- the visitor that notes each node with its depth, and passes over nothing -/
def Visitor.depths : Visitor Depths := Visitor.stepping (fun _ => true) Depths.step

mutual

theorem Outline.foldl_calls_depths (t : Outline Node) (s : Depths) :
    (t.calls fun _ => true).foldl Depths.step s = ⟨s.noted ++ t.preorder s.depth, s.depth⟩ := by
  cases t with
  | node n ts =>
    rw [Outline.calls, if_pos rfl, List.foldl_cons, List.foldl_append, Outline.foldl_callsAll_depths]
    simp [Depths.step, Outline.preorder]

theorem Outline.foldl_callsAll_depths (ts : List (Outline Node)) (s : Depths) :
    (Outline.callsAll (fun _ => true) ts).foldl Depths.step s =
      ⟨s.noted ++ Outline.preorderAll s.depth ts, s.depth⟩ := by
  cases ts with
  | nil => simp [Outline.callsAll, Outline.preorderAll]
  | cons t ts =>
    rw [Outline.callsAll, List.foldl_append, Outline.foldl_calls_depths, Outline.foldl_callsAll_depths,
      Outline.preorderAll, List.append_assoc]

end

theorem Root.walk_depths (r : Root) (h : ∀ n ∈ r.nodes, n.kind ≠ .absent) :
    (r.walk Visitor.depths).run ⟨[], 0⟩ = .ok ((), ⟨r.outline.preorder 0, 0⟩) := by
  rw [Visitor.depths, r.walk_stepping h, Outline.foldl_calls_depths]
  rfl

end LetStack

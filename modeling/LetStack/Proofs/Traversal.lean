/-
Traversals that come to their end.

A traversal stops early only where it reaches an absent node or where the visitor itself stops. `Keeps I x` says that a
step `x` comes to its end from every state with the property `I`, and in such a state. A visitor that keeps `I` at each
node of a tree, none of them absent, keeps it over the whole traversal, whatever it decides to pass over.

Results:
- `Root.keeps_walk`: what the visitor keeps at each node is kept by the traversal of the tree;
- `Root.exists_start?`: the nodes of a tree without absent ones have a position.
-/
import LetStack.Proofs.Outline

namespace LetStack

section

variable {σ α β : Type} {I : σ → Prop}

/-- from each state with the property, a step ends in one -/
def Keeps (I : σ → Prop) (x : StateT σ (Except Fault) α) : Prop := ∀ s, I s → ∃ a s', x.run s = .ok (a, s') ∧ I s'

namespace Keeps

theorem pure (a : α) : Keeps I (pure a) := fun s hs => ⟨a, s, rfl, hs⟩

theorem bind {x : StateT σ (Except Fault) α} {f : α → StateT σ (Except Fault) β} (hx : Keeps I x)
    (hf : ∀ a, Keeps I (f a)) : Keeps I (x >>= f) := by
  intro s hs
  obtain ⟨a, s1, hrun, hs1⟩ := hx s hs
  obtain ⟨b, s2, hrun', hs2⟩ := hf a s1 hs1
  refine ⟨b, s2, ?_, hs2⟩
  rw [StateT.run_bind, hrun]
  exact hrun'

end Keeps

variable {f : Visitor σ}

theorem Visitor.keeps_around {n : Node} {children : StateT σ (Except Fault) Unit} (hleave : Keeps I (f none))
    (hn : Keeps I (f (some n))) (hchildren : Keeps I children) : Keeps I (f.around n children) := by
  refine hn.bind fun b => ?_
  cases b with
  | false => exact Keeps.pure ()
  | true => exact hchildren.bind fun _ => hleave.bind fun _ => Keeps.pure ()

/-- the visitor keeps the property at each node of the list, and none is absent -/
def Visitor.KeepsAt (f : Visitor σ) (I : σ → Prop) (ns : List Node) : Prop :=
  ∀ n ∈ ns, n.kind ≠ .absent ∧ Keeps I (f (some n))

mutual

theorem Outline.keeps_walk (hleave : Keeps I (f none)) (t : Outline Node) (h : ∀ n ∈ t.items, Keeps I (f (some n))) :
    Keeps I (t.walk f) := by
  cases t with
  | node n ts =>
    obtain ⟨hn, hts⟩ := List.forall_mem_cons.1 h
    exact Visitor.keeps_around hleave hn (Outline.keeps_walkAll hleave ts hts)

theorem Outline.keeps_walkAll (hleave : Keeps I (f none)) (ts : List (Outline Node))
    (h : ∀ n ∈ Outline.itemsAll ts, Keeps I (f (some n))) : Keeps I (Outline.walkAll f ts) := by
  cases ts with
  | nil => exact Keeps.pure ()
  | cons t ts =>
    obtain ⟨ht, hts⟩ := List.forall_mem_append.1 h
    exact (Outline.keeps_walk hleave t ht).bind fun _ => Outline.keeps_walkAll hleave ts hts

end

/-- **Traversal.** What the visitor keeps at each node is kept by the traversal of the tree. -/
theorem Root.keeps_walk (hleave : Keeps I (f none)) (r : Root) (h : f.KeepsAt I r.nodes) : Keeps I (r.walk f) := by
  rw [r.walk_eq f fun n hn => (h n hn).1]
  refine Outline.keeps_walk hleave r.outline fun n hn => (h n ?_).2
  rwa [← r.items_outline]

end

/-! ## Positions -/

theorem Expr.mem_nodes_self (e : Expr) : Node.expr e ∈ e.nodes := by
  cases e <;> simp [Expr.nodes]

mutual

theorem Expr.exists_start? (e : Expr) (h : ∀ n ∈ e.nodes, n.kind ≠ .absent) :
    ∀ n ∈ e.nodes, ∃ p, n.start? = some p := by
  cases e with
  | absent => exact absurd rfl (h (.expr .absent) (List.mem_singleton_self _))
  | literal p v => exact List.forall_mem_singleton.2 ⟨p, rfl⟩
  | ident p r => exact List.forall_mem_singleton.2 ⟨p, rfl⟩
  | call p r args =>
    exact List.forall_mem_cons.2 ⟨⟨p, rfl⟩, Expr.exists_startAll? args (List.forall_mem_cons.1 h).2⟩
  | cond p test yes no =>
    simp only [Expr.nodes, List.forall_mem_cons, List.forall_mem_append] at h ⊢
    obtain ⟨-, ⟨htest, hyes⟩, hno⟩ := h
    exact ⟨⟨p, rfl⟩, ⟨Expr.exists_start? test htest, Expr.exists_start? yes hyes⟩, Expr.exists_start? no hno⟩
  | binary p op left right =>
    simp only [Expr.nodes, List.forall_mem_cons, List.forall_mem_append] at h ⊢
    obtain ⟨-, hleft, hright⟩ := h
    have hstart := Expr.exists_start? left hleft
    exact ⟨hstart (.expr left) left.mem_nodes_self, hstart, Expr.exists_start? right hright⟩
  | print p arg => exact List.forall_mem_cons.2 ⟨⟨p, rfl⟩, Expr.exists_start? arg (List.forall_mem_cons.1 h).2⟩

theorem Expr.exists_startAll? (es : List Expr) (h : ∀ n ∈ Expr.nodesAll es, n.kind ≠ .absent) :
    ∀ n ∈ Expr.nodesAll es, ∃ p, n.start? = some p := by
  cases es with
  | nil => exact fun _ hn => nomatch hn
  | cons e es =>
    obtain ⟨he, hes⟩ := List.forall_mem_append.1 h
    exact List.forall_mem_append.2 ⟨Expr.exists_start? e he, Expr.exists_startAll? es hes⟩

end

mutual

theorem Decl.exists_start? (d : Decl) (h : ∀ n ∈ d.nodes, n.kind ≠ .absent) :
    ∀ n ∈ d.nodes, ∃ p, n.start? = some p := by
  cases d with
  | absent => exact absurd rfl (h (.decl .absent) (List.mem_singleton_self _))
  | var p name value => exact List.forall_mem_cons.2 ⟨⟨p, rfl⟩, value.exists_start? (List.forall_mem_cons.1 h).2⟩
  | func p name params decls body =>
    simp only [Decl.nodes, List.forall_mem_cons, List.forall_mem_append] at h ⊢
    obtain ⟨-, hdecls, hbody⟩ := h
    exact ⟨⟨p, rfl⟩, Decl.exists_startAll? decls hdecls, body.exists_start? hbody⟩

theorem Decl.exists_startAll? (ds : List Decl) (h : ∀ n ∈ Decl.nodesAll ds, n.kind ≠ .absent) :
    ∀ n ∈ Decl.nodesAll ds, ∃ p, n.start? = some p := by
  cases ds with
  | nil => exact fun _ hn => nomatch hn
  | cons d ds =>
    obtain ⟨hd, hds⟩ := List.forall_mem_append.1 h
    exact List.forall_mem_append.2 ⟨Decl.exists_start? d hd, Decl.exists_startAll? ds hds⟩

end

theorem Root.exists_start? (r : Root) (h : ∀ n ∈ r.nodes, n.kind ≠ .absent) :
    ∀ n ∈ r.nodes, ∃ p, n.start? = some p := by
  cases r with
  | absent => exact absurd rfl (h (.root .absent) (List.mem_singleton_self _))
  | letIn p decls body =>
    simp only [Root.nodes, List.forall_mem_cons, List.forall_mem_append] at h ⊢
    obtain ⟨-, hdecls, hbody⟩ := h
    exact ⟨⟨p, rfl⟩, Decl.exists_startAll? decls hdecls, body.exists_start? hbody⟩
  | bare body =>
    have hstart := body.exists_start? (List.forall_mem_cons.1 h).2
    exact List.forall_mem_cons.2 ⟨hstart (.expr body) body.mem_nodes_self, hstart⟩

end LetStack

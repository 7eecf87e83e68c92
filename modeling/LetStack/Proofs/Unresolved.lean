/-
Which trees can be written.

Writing a tree to octets begins with a check for uses of names that lack an entry. The check is a visitor that keeps
the first complaint and goes no deeper from there on, though the traversal goes on beside and above that place. What it
finds is the first complaint in the list of nodes. The check is made because the writer of values cannot do without
entries: it takes every node of the language whose uses of names have them.

Results:
- `Root.unresolved?_eq`: the check finds the first use of a name without an entry;
- `Root.exists_toValue_of_isWritable`: a tree of the language whose uses of names have entries becomes a value;
- `encoding_refuses_exactly_unresolved_trees`: the two together, for the three formats.
-/
import LetStack.Exchange.Format
import LetStack.Proofs.Outline
import LetStack.Proofs.Reading

namespace LetStack

/-! ## Nodes -/

namespace Node

/-- a node that, if it is a use of a name, has the entry of the name -/
def IsResolved (n : Node) : Prop := ∀ r, n.reference? = some r → r.entry.isSome

/-- a node that can be written -/
structure IsWritable (n : Node) : Prop where
  legal : n.IsLegal
  resolved : n.IsResolved

/-- what is said of a use of a name without an entry: where it is, which use it is, and of which name -/
inductive Lacks : Node → String → Prop
  | reference (pos : Position) (name : String) (level : Int64) :
      Lacks (.expr (.ident pos ⟨name, level, none⟩)) (pos.text ++ ": unresolved reference to " ++ name)
  | call (pos : Position) (name : String) (level : Int64) (args : List Expr) :
      Lacks (.expr (.call pos ⟨name, level, none⟩ args)) (pos.text ++ ": unresolved call to " ++ name)

theorem reference?_eq_some {n : Node} {r : Reference} (h : n.reference? = some r) :
    (∃ pos, n = .expr (.ident pos r)) ∨ ∃ pos args, n = .expr (.call pos r args) := by
  unfold reference? at h
  split at h
  · obtain rfl := Option.some.inj h
    exact .inl ⟨_, rfl⟩
  · obtain rfl := Option.some.inj h
    exact .inr ⟨_, _, rfl⟩
  · cases h

/-- the check of a node of its own -/
theorem unresolved?_cases (n : Node) : (n.unresolved? = none ∧ n.IsResolved) ∨
    ∃ cause, n.unresolved? = some cause ∧ n.Lacks cause.text ∧ ¬ n.IsResolved := by
  unfold unresolved?
  split
  case h_1 pos name level => exact .inr ⟨_, rfl, .reference pos name level, fun h => absurd (h _ rfl) (by simp)⟩
  case h_2 pos name level args => exact .inr ⟨_, rfl, .call pos name level args, fun h => absurd (h _ rfl) (by simp)⟩
  case h_3 hident hcall =>
    refine .inl ⟨rfl, fun r hr => ?_⟩
    obtain ⟨name, level, entry⟩ := r
    cases entry with
    | some e => rfl
    | none =>
      rcases reference?_eq_some hr with ⟨pos, rfl⟩ | ⟨pos, args, rfl⟩
      · exact (hident pos name level rfl).elim
      · exact (hcall pos name level args rfl).elim

theorem unresolved?_eq_none {n : Node} : n.unresolved? = none ↔ n.IsResolved := by
  rcases n.unresolved?_cases with ⟨hnone, hresolved⟩ | ⟨cause, hsome, -, hnot⟩
  · exact iff_of_true hnone hresolved
  · refine iff_of_false ?_ hnot
    rw [hsome]
    exact Option.some_ne_none cause

end Node

/-! ## The check -/

section Check

variable {n : Node} {c : Cause}

theorem Visitor.unresolved_of_found : (Visitor.unresolved (some n)).run (some c) = .ok (false, some c) := rfl

theorem Visitor.unresolved_of_some (h : n.unresolved? = some c) :
    (Visitor.unresolved (some n)).run none = .ok (false, some c) := by
  simp only [Visitor.unresolved, h]
  rfl

theorem Visitor.unresolved_of_none (h : n.unresolved? = none) :
    (Visitor.unresolved (some n)).run none = .ok (true, none) := by
  simp only [Visitor.unresolved, h]
  rfl

end Check

mutual

/-- from the first complaint on nothing is entered, and the complaint stays -/
theorem Outline.walk_unresolved (t : Outline Node) (found : Option Cause) :
    (t.walk Visitor.unresolved).run found = .ok ((), found.or (t.items.findSome? Node.unresolved?)) := by
  cases t with
  | node n ts =>
    rw [Outline.walk, Outline.items, List.findSome?_cons]
    cases found with
    | some c => exact Visitor.around_of_false Visitor.unresolved_of_found
    | none =>
      cases h : n.unresolved? with
      | some c => exact Visitor.around_of_false (Visitor.unresolved_of_some h)
      | none =>
        exact Visitor.around_of_true (Visitor.unresolved_of_none h) (Outline.walkAll_unresolved ts none) rfl

theorem Outline.walkAll_unresolved (ts : List (Outline Node)) (found : Option Cause) :
    (Outline.walkAll Visitor.unresolved ts).run found =
      .ok ((), found.or ((Outline.itemsAll ts).findSome? Node.unresolved?)) := by
  cases ts with
  | nil => cases found <;> rfl
  | cons t ts =>
    rw [Outline.walkAll, StateT.run_bind, Outline.walk_unresolved t found, Outline.itemsAll, List.findSome?_append,
      ← Option.or_assoc]
    exact Outline.walkAll_unresolved ts _

end

/-- **First complaint.** The check for names without an entry finds the first complaint about a node in source order. -/
theorem Root.unresolved?_eq {r : Root} (h : ∀ n ∈ r.nodes, n.kind ≠ .absent) :
    r.unresolved? = .ok (r.nodes.findSome? Node.unresolved?) := by
  rw [Root.unresolved?, Root.walk_eq _ r h, Outline.walk_unresolved, Root.items_outline]
  rfl

/-! ## Writing -/

theorem Node.IsLegal.exists_exprKind? {p : Position} {op : Operator} {left right : Expr}
    (h : Node.IsLegal (.expr (.binary p op left right))) : ∃ k, op.exprKind? = some k := by
  cases op with
  | equal => exact ⟨_, rfl⟩
  | plus => exact ⟨_, rfl⟩
  | times => exact ⟨_, rfl⟩
  | illegal c => exact h.elim

theorem Reference.exists_toMembers {r : Reference} (h : r.entry.isSome) : ∃ members, r.toMembers = .ok members := by
  obtain ⟨e, he⟩ := Option.isSome_iff_exists.1 h
  rw [Reference.toMembers, he]
  exact ⟨_, rfl⟩

mutual

theorem Expr.exists_toValue (e : Expr) (h : ∀ n ∈ e.nodes, n.IsWritable) : ∃ v, e.toValue = .ok v := by
  cases e with
  | absent => exact (h _ (List.mem_singleton_self _)).legal.elim
  | literal p value =>
    have hlegal := (h _ (List.mem_singleton_self _)).legal
    cases value with
    | int z => exact ⟨_, rfl⟩
    | bool b => exact ⟨_, rfl⟩
    | string s => exact hlegal.elim
    | absent => exact hlegal.elim
  | ident p r =>
    have hn := h _ (List.mem_singleton_self _)
    obtain ⟨members, hmembers⟩ := Reference.exists_toMembers (hn.resolved r rfl)
    exact ⟨_, bind_eq_ok.2 ⟨members, hmembers, rfl⟩⟩
  | call p r args =>
    obtain ⟨hn, hargs⟩ := List.forall_mem_cons.1 h
    obtain ⟨members, hmembers⟩ := Reference.exists_toMembers (hn.resolved r rfl)
    obtain ⟨ws, hws⟩ := Expr.exists_toValues args hargs
    exact ⟨_, bind_eq_ok.2 ⟨ws, hws, bind_eq_ok.2 ⟨members, hmembers, rfl⟩⟩⟩
  | cond p test yes no =>
    simp only [Expr.nodes, List.forall_mem_cons, List.forall_mem_append] at h
    obtain ⟨-, ⟨htest, hyes⟩, hno⟩ := h
    obtain ⟨w1, hw1⟩ := Expr.exists_toValue test htest
    obtain ⟨w2, hw2⟩ := Expr.exists_toValue yes hyes
    obtain ⟨w3, hw3⟩ := Expr.exists_toValue no hno
    exact ⟨_, bind_eq_ok.2 ⟨w1, hw1, bind_eq_ok.2 ⟨w2, hw2, bind_eq_ok.2 ⟨w3, hw3, rfl⟩⟩⟩⟩
  | binary p op left right =>
    simp only [Expr.nodes, List.forall_mem_cons, List.forall_mem_append] at h
    obtain ⟨hn, hleft, hright⟩ := h
    obtain ⟨k, hk⟩ := Node.IsLegal.exists_exprKind? hn.legal
    obtain ⟨w1, hw1⟩ := Expr.exists_toValue left hleft
    obtain ⟨w2, hw2⟩ := Expr.exists_toValue right hright
    rw [Expr.toValue, hk]
    exact ⟨_, bind_eq_ok.2 ⟨w1, hw1, bind_eq_ok.2 ⟨w2, hw2, rfl⟩⟩⟩
  | print p arg =>
    obtain ⟨w, hw⟩ := Expr.exists_toValue arg (List.forall_mem_cons.1 h).2
    exact ⟨_, bind_eq_ok.2 ⟨w, hw, rfl⟩⟩

theorem Expr.exists_toValues (es : List Expr) (h : ∀ n ∈ Expr.nodesAll es, n.IsWritable) :
    ∃ vs, Expr.toValues es = .ok vs := by
  cases es with
  | nil => exact ⟨[], rfl⟩
  | cons e es =>
    obtain ⟨he, hes⟩ := List.forall_mem_append.1 h
    obtain ⟨w, hw⟩ := Expr.exists_toValue e he
    obtain ⟨ws, hws⟩ := Expr.exists_toValues es hes
    exact ⟨_, bind_eq_ok.2 ⟨w, hw, bind_eq_ok.2 ⟨ws, hws, rfl⟩⟩⟩

end

mutual

theorem Decl.exists_toValue (d : Decl) (h : ∀ n ∈ d.nodes, n.IsWritable) : ∃ v, d.toValue = .ok v := by
  cases d with
  | absent => exact (h _ (List.mem_singleton_self _)).legal.elim
  | var p name value =>
    obtain ⟨w, hw⟩ := value.exists_toValue (List.forall_mem_cons.1 h).2
    exact ⟨_, bind_eq_ok.2 ⟨w, hw, rfl⟩⟩
  | func p name params decls body =>
    obtain ⟨hdecls, hbody⟩ := List.forall_mem_append.1 (List.forall_mem_cons.1 h).2
    obtain ⟨ws, hws⟩ := Decl.exists_toValues decls hdecls
    obtain ⟨w, hw⟩ := body.exists_toValue hbody
    exact ⟨_, bind_eq_ok.2 ⟨ws, hws, bind_eq_ok.2 ⟨w, hw, rfl⟩⟩⟩

theorem Decl.exists_toValues (ds : List Decl) (h : ∀ n ∈ Decl.nodesAll ds, n.IsWritable) :
    ∃ vs, Decl.toValues ds = .ok vs := by
  cases ds with
  | nil => exact ⟨[], rfl⟩
  | cons d ds =>
    obtain ⟨hd, hds⟩ := List.forall_mem_append.1 h
    obtain ⟨w, hw⟩ := Decl.exists_toValue d hd
    obtain ⟨ws, hws⟩ := Decl.exists_toValues ds hds
    exact ⟨_, bind_eq_ok.2 ⟨w, hw, bind_eq_ok.2 ⟨ws, hws, rfl⟩⟩⟩

end

theorem Root.exists_toValue_of_isWritable (r : Root) (h : ∀ n ∈ r.nodes, n.IsWritable) : ∃ v, r.toValue = .ok v := by
  cases r with
  | absent => exact (h _ (List.mem_singleton_self _)).legal.elim
  | letIn p decls body =>
    obtain ⟨hdecls, hbody⟩ := List.forall_mem_append.1 (List.forall_mem_cons.1 h).2
    obtain ⟨ws, hws⟩ := Decl.exists_toValues decls hdecls
    obtain ⟨w, hw⟩ := body.exists_toValue hbody
    exact ⟨_, bind_eq_ok.2 ⟨ws, hws, bind_eq_ok.2 ⟨w, hw, rfl⟩⟩⟩
  | bare body =>
    obtain ⟨w, hw⟩ := body.exists_toValue (List.forall_mem_cons.1 h).2
    exact ⟨_, bind_eq_ok.2 ⟨w, hw, rfl⟩⟩

/-! ## Formats -/

theorem Value.exists_encode (v : Value) {f : Format} (hf : f ∈ Format.all) : ∃ data, v.encode f = .ok data := by
  simp only [Format.all, List.mem_cons, List.not_mem_nil, or_false] at hf
  rcases hf with rfl | rfl | rfl
  · exact ⟨_, rfl⟩
  · exact ⟨_, rfl⟩
  · exact ⟨_, rfl⟩

namespace Root

variable {r : Root} {f : Format}

theorem unresolved?_of_isResolved (h : ∀ n ∈ r.nodes, n.kind ≠ .absent) (hresolved : ∀ n ∈ r.nodes, n.IsResolved) :
    r.unresolved? = .ok none := by
  rw [unresolved?_eq h, List.findSome?_eq_none_iff.2 fun n hn => Node.unresolved?_eq_none.2 (hresolved n hn)]

/-- the check passes, the tree becomes a value, and the format takes every value -/
theorem encode_of_isWritable (h : ∀ n ∈ r.nodes, n.IsWritable) (hf : f ∈ Format.all) :
    ∃ v data, r.unresolved? = .ok none ∧ r.toValue = .ok v ∧ v.encode f = .ok data ∧ r.encode f = .ok data := by
  have hnone := unresolved?_of_isResolved (fun n hn => (h n hn).legal.kind_ne_absent) fun n hn => (h n hn).resolved
  obtain ⟨v, hv⟩ := r.exists_toValue_of_isWritable h
  obtain ⟨data, hdata⟩ := v.exists_encode hf
  refine ⟨v, data, hnone, hv, hdata, ?_⟩
  rw [encode, hnone, hv]
  simp only [hdata]

theorem encode_of_unresolved (h : ∀ n ∈ r.nodes, n.kind ≠ .absent) {cause : Cause}
    (hcause : r.nodes.findSome? Node.unresolved? = some cause) (f : Format) :
    r.encode f = .error (.failure (.tree ⟨[], cause⟩)) := by
  rw [encode, unresolved?_eq h, hcause]

end Root

/-- **Unresolved trees are refused.** Let a tree have no absent node, no operator without a symbol and only integers and
truth values for literals. Whatever the format, writing it ends with a complaint about the tree exactly if a reference
or a call is without an entry. The complaint is about the first of them in source order, and gives its position, which
of the two it is and its name. Any other such tree becomes a value, and the octets of the value are the result. -/
theorem encoding_refuses_exactly_unresolved_trees (r : Root) (h : ∀ n ∈ r.nodes, n.IsLegal) (f : Format)
    (hf : f ∈ Format.all) :
    ((∃ c, r.encode f = .error (.failure (.tree c))) ↔ ∃ n ∈ r.nodes, ¬ n.IsResolved) ∧
      (∀ before n after, r.nodes = before ++ n :: after → (∀ m ∈ before, m.IsResolved) → ¬ n.IsResolved →
        ∃ c, r.encode f = .error (.failure (.tree c)) ∧ n.Lacks c.text) ∧
      ((∀ n ∈ r.nodes, n.IsResolved) →
        ∃ v data, r.unresolved? = .ok none ∧ r.toValue = .ok v ∧ v.encode f = .ok data ∧ r.encode f = .ok data) := by
  have hpresent : ∀ n ∈ r.nodes, n.kind ≠ .absent := fun n hn => (h n hn).kind_ne_absent
  have hwrite : (∀ n ∈ r.nodes, n.IsResolved) → _ := fun hresolved =>
    Root.encode_of_isWritable (fun n hn => ⟨h n hn, hresolved n hn⟩) hf
  refine ⟨⟨?_, fun hn => ?_⟩, fun before n after hnodes hbefore hn => ?_, hwrite⟩
  · rintro ⟨c, hc⟩
    by_contra hall
    obtain ⟨v, data, -, -, -, hencode⟩ := hwrite fun n hn => not_not.1 fun hnot => hall ⟨n, hn, hnot⟩
    cases hencode.symm.trans hc
  · have hsome : (r.nodes.findSome? Node.unresolved?).isSome := by
      obtain ⟨n, hn, hnot⟩ := hn
      exact List.findSome?_isSome_iff.2 ⟨n, hn, Option.isSome_iff_ne_none.2 (mt Node.unresolved?_eq_none.1 hnot)⟩
    obtain ⟨cause, hcause⟩ := Option.isSome_iff_exists.1 hsome
    exact ⟨_, Root.encode_of_unresolved hpresent hcause f⟩
  · rcases n.unresolved?_cases with ⟨-, hresolved⟩ | ⟨cause, hcause, hlacks, -⟩
    · exact absurd hresolved hn
    · have hfirst := List.findSome?_eq_some_iff.2
        ⟨before, n, after, hnodes, hcause, fun m hm => Node.unresolved?_eq_none.2 (hbefore m hm)⟩
      exact ⟨_, Root.encode_of_unresolved hpresent hfirst f, hlacks⟩

/-- a test of a variable that has an entry, with a call and two references that have none in its branches -/
def undeclaredTree : Root :=
  .bare (.cond ⟨1, 1⟩ (.ident ⟨1, 4⟩ ⟨"a", 0, some ⟨0, 0⟩⟩)
    (.call ⟨1, 11⟩ ⟨"f", 0, none⟩ [.ident ⟨1, 13⟩ ⟨"x", 0, none⟩]) (.ident ⟨1, 21⟩ ⟨"y", 0, none⟩))

/-- the call is complained about: it comes before its argument and before the other branch -/
theorem undeclaredTree_is_refused :
    (∀ n ∈ undeclaredTree.nodes, n.IsLegal) ∧ ∀ f ∈ Format.all, ∃ c,
      undeclaredTree.encode f = .error (.failure (.tree c)) ∧ c.text = "1:11: unresolved call to f" := by
  have hlegal : ∀ n ∈ undeclaredTree.nodes, n.IsLegal := by
    simp [undeclaredTree, Root.nodes, Expr.nodes, Expr.nodesAll, Node.IsLegal]
  refine ⟨hlegal, fun f hf => ?_⟩
  obtain ⟨-, hfirst, -⟩ := encoding_refuses_exactly_unresolved_trees undeclaredTree hlegal f hf
  obtain ⟨c, hc, hlacks⟩ := hfirst (undeclaredTree.nodes.take 3) _ (undeclaredTree.nodes.drop 4) rfl
    (by simp [undeclaredTree, Root.nodes, Expr.nodes, Expr.nodesAll, Node.IsResolved])
    fun h => absurd (h _ rfl) (by simp)
  refine ⟨c, hc, ?_⟩
  generalize htext : c.text = text at hlacks
  cases hlacks
  rfl

end LetStack

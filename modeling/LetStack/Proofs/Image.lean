/-
The trees that reading gives.

Every check of the reader leaves a trace in the tree: no node is absent, every use of a name has an entry, every number
is in the range it was read in, and a parameter has no position. These are all the traces there are (`Node.IsReadable`):
a tree whose nodes have them is spelled by some value, also where writing the tree gives another one, as for a position
with a column but no line.

Results:
- `Root.isReadable_iff`: which trees reading can give;
- `Root.exists_toValue`, `Root.unresolved?_of_isReadable`, `Root.exists_encode`: such a tree can be written;
- `read_trees_are_the_readable_ones`: the two together, with traversals.
-/
import LetStack.Proofs.Spelling
import LetStack.Proofs.Traversal
import LetStack.Proofs.Unresolved

namespace LetStack

/-! ## Readable nodes -/

/-- a line and a column from 0 to 2^31 - 1 -/
def Position.InRange (p : Position) : Prop :=
  (0 ≤ p.line.toInt ∧ p.line.toInt ≤ maxIndex) ∧ (0 ≤ p.col.toInt ∧ p.col.toInt ≤ maxIndex)

instance (p : Position) : Decidable p.InRange := inferInstanceAs (Decidable (_ ∧ _))

namespace Node

/-- the parameters of a function declaration -/
@[simp]
def params : Node → List Param
  | .decl (.func _ _ ps _ _) => ps
  | _ => []

/-- a node as reading makes it -/
structure IsReadable (n : Node) : Prop where
  legal : n.IsLegal
  position : ∀ p, n.position? = some p → p.InRange
  reference : ∀ r, n.reference? = some r → r.entry.isSome ∧ r.Fits
  integer : ∀ z, n.integer? = some z → -maxExact ≤ z.toInt ∧ z.toInt ≤ maxExact
  params : ∀ p ∈ n.params, p.pos = .unknown

theorem isReadable_iff (n : Node) : n.IsReadable ↔ n.IsLegal ∧ (∀ p, n.position? = some p → p.InRange) ∧
    (∀ r, n.reference? = some r → r.entry.isSome ∧ r.Fits) ∧
    (∀ z, n.integer? = some z → -maxExact ≤ z.toInt ∧ z.toInt ≤ maxExact) ∧ ∀ p ∈ n.params, p.pos = .unknown :=
  ⟨fun h => ⟨h.legal, h.position, h.reference, h.integer, h.params⟩,
    fun h => ⟨h.1, h.2.1, h.2.2.1, h.2.2.2.1, h.2.2.2.2⟩⟩

section

variable (p : Position)

@[simp] theorem not_isReadable_absent_root : ¬ IsReadable (.root .absent) := fun h => h.legal

@[simp] theorem not_isReadable_absent_decl : ¬ IsReadable (.decl .absent) := fun h => h.legal

@[simp] theorem not_isReadable_absent_expr : ¬ IsReadable (.expr .absent) := fun h => h.legal

@[simp] theorem isReadable_int (z : Int64) : IsReadable (.expr (.literal p (.int z))) ↔
    p.InRange ∧ -maxExact ≤ z.toInt ∧ z.toInt ≤ maxExact := by
  simp [isReadable_iff]

@[simp] theorem isReadable_bool (b : Bool) : IsReadable (.expr (.literal p (.bool b))) ↔ p.InRange := by
  simp [isReadable_iff]

@[simp] theorem isReadable_ident (r : Reference) :
    IsReadable (.expr (.ident p r)) ↔ p.InRange ∧ r.entry.isSome ∧ r.Fits := by
  simp [isReadable_iff]

@[simp] theorem isReadable_call (r : Reference) (es : List Expr) :
    IsReadable (.expr (.call p r es)) ↔ p.InRange ∧ r.entry.isSome ∧ r.Fits := by
  simp [isReadable_iff]

@[simp] theorem isReadable_cond (e e1 e2 : Expr) : IsReadable (.expr (.cond p e e1 e2)) ↔ p.InRange := by
  simp [isReadable_iff]

@[simp] theorem isReadable_binary (op : Operator) (e e1 : Expr) :
    IsReadable (.expr (.binary p op e e1)) ↔ op.exprKind?.isSome ∧ p.InRange := by
  cases op <;> simp [isReadable_iff, Operator.exprKind?]

@[simp] theorem isReadable_print (e : Expr) : IsReadable (.expr (.print p e)) ↔ p.InRange := by
  simp [isReadable_iff]

@[simp] theorem isReadable_var (name : String) (e : Expr) : IsReadable (.decl (.var p name e)) ↔ p.InRange := by
  simp [isReadable_iff]

@[simp] theorem isReadable_func (name : String) (ps : List Param) (ds : List Decl) (e : Expr) :
    IsReadable (.decl (.func p name ps ds e)) ↔ p.InRange ∧ ∀ q ∈ ps, q.pos = .unknown := by
  simp [isReadable_iff]

@[simp] theorem isReadable_letIn (ds : List Decl) (e : Expr) : IsReadable (.root (.letIn p ds e)) ↔ p.InRange := by
  simp [isReadable_iff]

@[simp] theorem isReadable_bare (e : Expr) : IsReadable (.root (.bare e)) := by
  simp [isReadable_iff]

end

theorem IsReadable.kind_ne_absent {n : Node} (h : n.IsReadable) : n.kind ≠ .absent := h.legal.kind_ne_absent

end Node

/-! ## What is spelled is readable -/

theorem Members.Heads.inRange {ms : Members} {kind : String} {pos : Position} (h : ms.Heads kind pos) : pos.InRange :=
  ⟨h.line.bounds, h.col.bounds⟩

theorem Members.HasInteger.bounds {ms : Members} {name : String} {least greatest n : ℤ}
    (h : ms.HasInteger name least greatest n) : least ≤ n ∧ n ≤ greatest := by
  obtain ⟨w, -, -, hrange⟩ := h
  exact hrange

theorem Reference.SpelledBy.fits {ms : Members} {r : Reference} (h : r.SpelledBy ms) : r.entry.isSome ∧ r.Fits := by
  obtain ⟨-, hlevel, e, es, hentry, -, hdeclared, hoffset⟩ := h
  have he : e.Fits := ⟨hdeclared.bounds, hoffset.bounds⟩
  simp [Reference.Fits, hentry, he, hlevel.bounds]

mutual

theorem Expr.SpelledBy.isReadable {e : Expr} {v : Value} (h : e.SpelledBy v) : ∀ n ∈ e.nodes, n.IsReadable := by
  cases h with
  | int head value => simp [Expr.nodes, head.inRange, value.bounds]
  | bool head value => simp [Expr.nodes, head.inRange]
  | ident head reference => simp [Expr.nodes, head.inRange, reference.fits]
  | call head reference items hargs =>
    simpa [Expr.nodes, head.inRange, reference.fits] using hargs.isReadable
  | cond head get1 htest get2 hyes get3 hno =>
    simp only [Expr.nodes, List.forall_mem_cons, List.forall_mem_append, Node.isReadable_cond]
    exact ⟨head.inRange, ⟨htest.isReadable, hyes.isReadable⟩, hno.isReadable⟩
  | binary kind head get1 hleft get2 hright =>
    simp only [Expr.nodes, List.forall_mem_cons, List.forall_mem_append, Node.isReadable_binary, kind]
    exact ⟨⟨rfl, head.inRange⟩, hleft.isReadable, hright.isReadable⟩
  | print head get harg => simpa [Expr.nodes, head.inRange] using harg.isReadable
termination_by sizeOf e

theorem Expr.AllSpelledBy.isReadable {es : List Expr} {ws : List Value} (h : Expr.AllSpelledBy es ws) :
    ∀ n ∈ Expr.nodesAll es, n.IsReadable := by
  cases h with
  | nil => exact fun _ hn => nomatch hn
  | cons head tail => exact List.forall_mem_append.2 ⟨head.isReadable, tail.isReadable⟩
termination_by sizeOf es

end

mutual

theorem Decl.SpelledBy.isReadable {d : Decl} {v : Value} (h : d.SpelledBy v) : ∀ n ∈ d.nodes, n.IsReadable := by
  cases h with
  | var head hname get hvalue => simpa [Decl.nodes, head.inRange] using hvalue.isReadable
  | func head hname hparams unplaced items hdecls get hbody =>
    simp only [Decl.nodes, List.forall_mem_cons, List.forall_mem_append, Node.isReadable_func]
    exact ⟨⟨head.inRange, unplaced⟩, hdecls.isReadable, hbody.isReadable⟩
termination_by sizeOf d

theorem Decl.AllSpelledBy.isReadable {ds : List Decl} {ws : List Value} (h : Decl.AllSpelledBy ds ws) :
    ∀ n ∈ Decl.nodesAll ds, n.IsReadable := by
  cases h with
  | nil => exact fun _ hn => nomatch hn
  | cons head tail => exact List.forall_mem_append.2 ⟨head.isReadable, tail.isReadable⟩
termination_by sizeOf ds

end

theorem Root.SpelledBy.isReadable {r : Root} {v : Value} (h : r.SpelledBy v) : ∀ n ∈ r.nodes, n.IsReadable := by
  cases h with
  | letIn head items hdecls get hbody =>
    simp only [Root.nodes, List.forall_mem_cons, List.forall_mem_append, Node.isReadable_letIn]
    exact ⟨head.inRange, hdecls.isReadable, hbody.isReadable⟩
  | bare head get hbody => simpa [Root.nodes] using hbody.isReadable

/-! ## What is readable is spelled -/

theorem Value.denotes_ofInt {n : ℤ} (h : -maxExact ≤ n ∧ n ≤ maxExact) :
    (Value.number (Binary64.ofInt n)).Denotes n := by
  have hmax : maxExact = 2 ^ 53 - 1 := rfl
  have hn : n.natAbs < 2 ^ 53 := by omega
  exact ⟨_, rfl, (Binary64.toInt?_eq_some_iff _ n).1 (Binary64.toInt?_ofInt hn)⟩

namespace Members

theorem hasInteger_of_get? {ms : Members} {name : String} {least greatest n : ℤ}
    (hget : ms.get? name = some (.number (Binary64.ofInt n))) (hleast : -maxExact ≤ least)
    (hgreatest : greatest ≤ maxExact)
    (h : least ≤ n ∧ n ≤ greatest) : ms.HasInteger name least greatest n :=
  ⟨_, hget, Value.denotes_ofInt ⟨hleast.trans h.1, h.2.trans hgreatest⟩, h⟩

theorem items?_of_get? {ms : Members} {name : String} {ws : List Value} (hget : ms.get? name = some (.list ws)) :
    ms.items? name = some ws := by
  rw [items?, hget]

/-- a node of this kind at any position in range, with these members -/
theorem exists_heads (kind : String) {pos : Position} (hpos : pos.InRange) (members : List (String × Value)) :
    ∃ ms : Members, ms.Heads kind pos ∧
      ∀ name, name ∉ ["kind", "line", "col"] → ms.get? name = get? members name := by
  have hexact : -maxExact ≤ 0 ∧ maxIndex ≤ maxExact := by decide
  refine ⟨ofList ([("kind", .string kind), ("line", .number (Binary64.ofInt pos.line.toInt)),
    ("col", .number (Binary64.ofInt pos.col.toInt))] ++ members), ⟨?_, .inr ?_, .inr ?_⟩, fun name hname => ?_⟩
  · rw [get?_ofList]
    rfl
  · refine hasInteger_of_get? ?_ hexact.1 hexact.2 hpos.1
    rw [get?_ofList]
    rfl
  · refine hasInteger_of_get? ?_ hexact.1 hexact.2 hpos.2
    rw [get?_ofList]
    rfl
  · simp only [List.mem_cons, List.not_mem_nil, or_false, not_or] at hname
    simp [get?_ofList, get?_cons, hname]

end Members

/-- the members of a reference that fits spell it, whatever else there is -/
theorem Reference.Fits.spelledBy {r : Reference} {e : Entry} (h : r.Fits) (he : r.entry = some e) {ms : Members}
    (hms : ∀ name ∈ ["name", "level", "entry"], ms.get? name = Members.get? (r.members e) name) : r.SpelledBy ms := by
  have hexact : -maxExact ≤ 0 ∧ -maxExact ≤ -2 ^ 31 ∧ maxIndex ≤ maxExact := by decide
  obtain ⟨hlevel, hentry⟩ := h
  obtain ⟨hdeclared, hoffset⟩ := hentry e he
  refine ⟨hms "name" (by decide), ?_, e, _, he, hms "entry" (by decide), ?_, ?_⟩
  · exact Members.hasInteger_of_get? (hms "level" (by decide)) hexact.1 hexact.2.2 hlevel
  · refine Members.hasInteger_of_get? ?_ hexact.1 hexact.2.2 hdeclared
    rw [Members.get?_ofList]
    rfl
  · refine Members.hasInteger_of_get? ?_ hexact.2.1 hexact.2.2 hoffset
    rw [Members.get?_ofList]
    rfl

theorem Literal.exists_spelledBy (p : Position) (value : Literal) (h : Node.IsReadable (.expr (.literal p value))) :
    ∃ v, (Expr.literal p value).SpelledBy v := by
  cases value with
  | int z =>
    obtain ⟨hpos, hz⟩ := (Node.isReadable_int p z).1 h
    obtain ⟨ms, head, hms⟩ := Members.exists_heads ExprKind.int.name hpos [("value", .ofInt64 z)]
    exact ⟨_, .int head (Members.hasInteger_of_get? (hms "value" (by decide)) (Int.le_refl _) (Int.le_refl _) hz)⟩
  | bool b =>
    obtain ⟨ms, head, hms⟩ :=
      Members.exists_heads ExprKind.bool.name ((Node.isReadable_bool p b).1 h) [("value", .bool b)]
    exact ⟨_, .bool head (hms "value" (by decide))⟩
  | string s => exact h.legal.elim
  | absent => exact h.legal.elim

mutual

theorem Expr.exists_spelledBy (e : Expr) (h : ∀ n ∈ e.nodes, n.IsReadable) : ∃ v, e.SpelledBy v := by
  cases e with
  | absent => exact absurd (h _ (List.mem_singleton_self _)) Node.not_isReadable_absent_expr
  | literal p value => exact value.exists_spelledBy p (h _ (List.mem_singleton_self _))
  | ident p r =>
    obtain ⟨hpos, hsome, hfits⟩ := (Node.isReadable_ident p r).1 (h _ (List.mem_singleton_self _))
    obtain ⟨entry, hentry⟩ := Option.isSome_iff_exists.1 hsome
    obtain ⟨ms, head, hms⟩ := Members.exists_heads ExprKind.ident.name hpos (r.members entry)
    refine ⟨_, .ident head (hfits.spelledBy hentry fun name hname => hms name ?_)⟩
    revert name
    decide
  | call p r args =>
    obtain ⟨hn, hargs⟩ := List.forall_mem_cons.1 h
    obtain ⟨hpos, hsome, hfits⟩ := (Node.isReadable_call p r args).1 hn
    obtain ⟨entry, hentry⟩ := Option.isSome_iff_exists.1 hsome
    obtain ⟨ws, hws⟩ := Expr.exists_spelledAllBy args hargs
    obtain ⟨ms, head, hms⟩ :=
      Members.exists_heads ExprKind.call.name hpos (r.members entry ++ [("args", .list ws)])
    refine ⟨_, .call head (hfits.spelledBy hentry fun name hname => ?_)
      (Members.items?_of_get? (hms "args" (by decide))) hws⟩
    simp only [List.mem_cons, List.not_mem_nil, or_false] at hname
    rcases hname with rfl | rfl | rfl
    · exact hms "name" (by decide)
    · exact hms "level" (by decide)
    · exact hms "entry" (by decide)
  | cond p test yes no =>
    simp only [Expr.nodes, List.forall_mem_cons, List.forall_mem_append, Node.isReadable_cond] at h
    obtain ⟨hpos, ⟨htest, hyes⟩, hno⟩ := h
    obtain ⟨w1, hw1⟩ := Expr.exists_spelledBy test htest
    obtain ⟨w2, hw2⟩ := Expr.exists_spelledBy yes hyes
    obtain ⟨w3, hw3⟩ := Expr.exists_spelledBy no hno
    obtain ⟨ms, head, hms⟩ :=
      Members.exists_heads ExprKind.cond.name hpos [("cond", w1), ("then", w2), ("else", w3)]
    exact ⟨_, .cond head (hms "cond" (by decide)) hw1 (hms "then" (by decide)) hw2 (hms "else" (by decide)) hw3⟩
  | binary p op left right =>
    simp only [Expr.nodes, List.forall_mem_cons, List.forall_mem_append, Node.isReadable_binary] at h
    obtain ⟨⟨hop, hpos⟩, hleft, hright⟩ := h
    obtain ⟨k, hk⟩ := Option.isSome_iff_exists.1 hop
    obtain ⟨w1, hw1⟩ := Expr.exists_spelledBy left hleft
    obtain ⟨w2, hw2⟩ := Expr.exists_spelledBy right hright
    obtain ⟨ms, head, hms⟩ := Members.exists_heads k.name hpos [("left", w1), ("right", w2)]
    exact ⟨_, .binary hk head (hms "left" (by decide)) hw1 (hms "right" (by decide)) hw2⟩
  | print p arg =>
    obtain ⟨hn, harg⟩ := List.forall_mem_cons.1 h
    obtain ⟨w, hw⟩ := Expr.exists_spelledBy arg harg
    obtain ⟨ms, head, hms⟩ :=
      Members.exists_heads ExprKind.print.name ((Node.isReadable_print p arg).1 hn) [("exp", w)]
    exact ⟨_, .print head (hms "exp" (by decide)) hw⟩

theorem Expr.exists_spelledAllBy (es : List Expr) (h : ∀ n ∈ Expr.nodesAll es, n.IsReadable) :
    ∃ ws, Expr.AllSpelledBy es ws := by
  cases es with
  | nil => exact ⟨[], .nil⟩
  | cons e es =>
    obtain ⟨he, hes⟩ := List.forall_mem_append.1 h
    obtain ⟨w, hw⟩ := Expr.exists_spelledBy e he
    obtain ⟨ws, hws⟩ := Expr.exists_spelledAllBy es hes
    exact ⟨w :: ws, .cons hw hws⟩

end

mutual

theorem Decl.exists_spelledBy (d : Decl) (h : ∀ n ∈ d.nodes, n.IsReadable) : ∃ v, d.SpelledBy v := by
  cases d with
  | absent => exact absurd (h _ (List.mem_singleton_self _)) Node.not_isReadable_absent_decl
  | var p name value =>
    obtain ⟨hn, hvalue⟩ := List.forall_mem_cons.1 h
    obtain ⟨w, hw⟩ := value.exists_spelledBy hvalue
    obtain ⟨ms, head, hms⟩ := Members.exists_heads DeclKind.var.name ((Node.isReadable_var p name value).1 hn)
      [("name", .string name), ("value", w)]
    exact ⟨_, .var head (hms "name" (by decide)) (hms "value" (by decide)) hw⟩
  | func p name params decls body =>
    simp only [Decl.nodes, List.forall_mem_cons, List.forall_mem_append, Node.isReadable_func] at h
    obtain ⟨⟨hpos, hparams⟩, hdecls, hbody⟩ := h
    obtain ⟨ws, hws⟩ := Decl.exists_spelledAllBy decls hdecls
    obtain ⟨w, hw⟩ := body.exists_spelledBy hbody
    obtain ⟨ms, head, hms⟩ := Members.exists_heads DeclKind.func.name hpos
      [("name", .string name), ("params", .list (params.map fun p => .string p.name)), ("decls", .list ws), ("body", w)]
    exact ⟨_, .func head (hms "name" (by decide)) (Members.items?_of_get? (hms "params" (by decide))) hparams
      (Members.items?_of_get? (hms "decls" (by decide))) hws (hms "body" (by decide)) hw⟩

theorem Decl.exists_spelledAllBy (ds : List Decl) (h : ∀ n ∈ Decl.nodesAll ds, n.IsReadable) :
    ∃ ws, Decl.AllSpelledBy ds ws := by
  cases ds with
  | nil => exact ⟨[], .nil⟩
  | cons d ds =>
    obtain ⟨hd, hds⟩ := List.forall_mem_append.1 h
    obtain ⟨w, hw⟩ := Decl.exists_spelledBy d hd
    obtain ⟨ws, hws⟩ := Decl.exists_spelledAllBy ds hds
    exact ⟨w :: ws, .cons hw hws⟩

end

theorem Root.exists_spelledBy (r : Root) (h : ∀ n ∈ r.nodes, n.IsReadable) : ∃ v, r.SpelledBy v := by
  cases r with
  | absent => exact absurd (h _ (List.mem_singleton_self _)) Node.not_isReadable_absent_root
  | letIn p decls body =>
    simp only [Root.nodes, List.forall_mem_cons, List.forall_mem_append, Node.isReadable_letIn] at h
    obtain ⟨hpos, hdecls, hbody⟩ := h
    obtain ⟨ws, hws⟩ := Decl.exists_spelledAllBy decls hdecls
    obtain ⟨w, hw⟩ := body.exists_spelledBy hbody
    obtain ⟨ms, head, hms⟩ := Members.exists_heads RootKind.letIn.name hpos [("decls", .list ws), ("body", w)]
    exact ⟨_, .letIn head (Members.items?_of_get? (hms "decls" (by decide))) hws (hms "body" (by decide)) hw⟩
  | bare body =>
    obtain ⟨-, hbody⟩ := List.forall_mem_cons.1 h
    obtain ⟨w, hw⟩ := body.exists_spelledBy hbody
    have hunknown : Position.unknown.InRange := by decide
    obtain ⟨ms, head, hms⟩ := Members.exists_heads RootKind.bare.name hunknown [("body", w)]
    exact ⟨_, .bare head (hms "body" (by decide)) hw⟩

/-- **Image.** Reading gives a tree for some value exactly if all its nodes are readable. -/
theorem Root.isReadable_iff (r : Root) : (∃ v, Root.ofValue v = .ok r) ↔ ∀ n ∈ r.nodes, n.IsReadable := by
  simp only [Root.ofValue_eq_ok]
  constructor
  · rintro ⟨v, hv⟩
    exact hv.isReadable
  · exact r.exists_spelledBy

/-! ## Readable trees can be written -/

theorem Node.IsReadable.isWritable {n : Node} (h : n.IsReadable) : n.IsWritable :=
  ⟨h.legal, fun r hr => (h.reference r hr).1⟩

namespace Root

variable {r : Root}

theorem exists_toValue (h : ∀ n ∈ r.nodes, n.IsReadable) : ∃ v, r.toValue = .ok v :=
  r.exists_toValue_of_isWritable fun n hn => (h n hn).isWritable

/-- no reference is without an entry, so the check for one finds nothing -/
theorem unresolved?_of_isReadable (h : ∀ n ∈ r.nodes, n.IsReadable) : r.unresolved? = .ok none :=
  unresolved?_of_isResolved (fun n hn => (h n hn).kind_ne_absent) fun n hn => (h n hn).isWritable.resolved

theorem exists_encode (h : ∀ n ∈ r.nodes, n.IsReadable) {f : Format} (hf : f ∈ Format.all) :
    ∃ data, r.encode f = .ok data := by
  obtain ⟨-, data, -, -, -, hdata⟩ := encode_of_isWritable (fun n hn => (h n hn).isWritable) hf
  exact ⟨data, hdata⟩

/-- a visitor that never stops comes to the end of the tree -/
theorem exists_walk (h : ∀ n ∈ r.nodes, n.IsReadable) {σ : Type} {f : Visitor σ}
    (hf : ∀ n s, ∃ a, (f n).run s = .ok a) (s : σ) : ∃ s', (r.walk f).run s = .ok ((), s') := by
  have hkeeps : ∀ n, Keeps (fun _ => True) (f n) := by
    intro n s _
    obtain ⟨⟨a, s'⟩, hrun⟩ := hf n s
    exact ⟨a, s', hrun, trivial⟩
  obtain ⟨⟨⟩, s', hrun, -⟩ :=
    r.keeps_walk (hkeeps none) (fun n hn => ⟨(h n hn).kind_ne_absent, hkeeps (some n)⟩) s trivial
  exact ⟨s', hrun⟩

theorem exists_visitLines (h : ∀ n ∈ r.nodes, n.IsReadable) (prune : List String) :
    ∃ lines, r.visitLines prune = .ok lines := by
  have hstart := r.exists_start? fun n hn => (h n hn).kind_ne_absent
  have hwalk : Keeps (fun _ => True) (r.walk (Visitor.lines prune)) := by
    refine r.keeps_walk (fun s _ => ⟨_, _, rfl, trivial⟩) fun n hn => ⟨(h n hn).kind_ne_absent, fun s _ => ?_⟩
    obtain ⟨p, hp⟩ := hstart n hn
    simp only [Visitor.lines, hp]
    exact ⟨_, _, rfl, trivial⟩
  obtain ⟨⟨⟩, lines, hrun, -⟩ := hwalk [] trivial
  rw [visitLines, hrun]
  exact ⟨lines, rfl⟩

end Root

/-- **What reading gives.** A tree is read from some value exactly if its nodes are readable; and each tree that is read
can be written as a value and in every format, has no unresolved reference, and can be traversed to its end by every
visitor that does not stop by itself. -/
theorem read_trees_are_the_readable_ones (r : Root) :
    ((∃ v, Root.ofValue v = .ok r) ↔ ∀ n ∈ r.nodes, n.IsReadable) ∧
      ∀ v, Root.ofValue v = .ok r →
        (∃ w, r.toValue = .ok w) ∧ r.unresolved? = .ok none ∧ (∀ f ∈ Format.all, ∃ data, r.encode f = .ok data) ∧
          (∀ prune, ∃ lines, r.visitLines prune = .ok lines) ∧
          ∀ (σ : Type) (f : Visitor σ), (∀ n s, ∃ a, (f n).run s = .ok a) →
            ∀ s, ∃ s', (r.walk f).run s = .ok ((), s') := by
  refine ⟨r.isReadable_iff, fun v hv => ?_⟩
  have h := r.isReadable_iff.1 ⟨v, hv⟩
  exact ⟨Root.exists_toValue h, Root.unresolved?_of_isReadable h, fun f hf => Root.exists_encode h hf,
    Root.exists_visitLines h, fun σ f hf => Root.exists_walk h hf⟩

/-- a literal with a column but no line; writing the tree leaves both out -/
def columnTree : Root := .bare (.literal ⟨0, 7⟩ (.int (-9007199254740991)))

theorem columnTree_is_read :
    (∀ n ∈ columnTree.nodes, n.IsReadable) ∧ (∃ v, Root.ofValue v = .ok columnTree) ∧ columnTree.normal ≠ columnTree ∧
      ∃ w, columnTree.toValue = .ok w := by
  have hreadable : ∀ n ∈ columnTree.nodes, n.IsReadable := by
    have hpos : Position.InRange ⟨0, 7⟩ := by decide
    simp [columnTree, Root.nodes, Expr.nodes, hpos, maxExact]
  obtain ⟨v, hv⟩ := (read_trees_are_the_readable_ones columnTree).1.2 hreadable
  obtain ⟨hwritten, -⟩ := (read_trees_are_the_readable_ones columnTree).2 v hv
  refine ⟨hreadable, ⟨v, hv⟩, ?_, hwritten⟩
  simp [columnTree, Root.normal, Expr.normal, Position.normal, Position.isKnown, Position.unknown]

end LetStack

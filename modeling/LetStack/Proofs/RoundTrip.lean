/-
A written tree is read back as it was, or not at all.

Integers become floating-point numbers when a tree is written, and large ones are rounded; positions may be half known.
The reader's ranges are narrow enough that nothing of this goes unnoticed: if all levels, offsets, literals and columns
of a tree are in range (`Node.Fits`), reading gives the tree with its unknown positions, and the positions of
parameters, reset (`Root.normal`); if one is out of range, reading gives a complaint.

Result:
- `written_tree_reads_back_or_is_refused`.
-/
import LetStack.Proofs.Nodes
import LetStack.Proofs.Reading

namespace LetStack

/-! ## Trees that can be read back -/

instance (p : Position) : Decidable p.Fits := inferInstanceAs (Decidable (_ → _))

/-- levels from 0 to 2^31 - 1, an offset from -2^31 to 2^31 - 1 -/
def Entry.Fits (e : Entry) : Prop :=
  (0 ≤ e.level.toInt ∧ e.level.toInt ≤ maxIndex) ∧ (-2 ^ 31 ≤ e.offset.toInt ∧ e.offset.toInt ≤ maxIndex)

instance (e : Entry) : Decidable e.Fits := inferInstanceAs (Decidable (_ ∧ _))

def Reference.Fits (r : Reference) : Prop :=
  (0 ≤ r.level.toInt ∧ r.level.toInt ≤ maxIndex) ∧ ∀ e, r.entry = some e → e.Fits

instance (r : Reference) : Decidable r.Fits :=
  inferInstanceAs (Decidable (_ ∧ ∀ e ∈ r.entry, e.Fits))

namespace Node

/-- the position of a node itself; an expression that is a program has no other -/
@[simp]
def position? : Node → Option Position
  | .root (.letIn p _ _) => some p
  | .decl (.var p _ _) | .decl (.func p _ _ _ _) => some p
  | .expr (.literal p _) | .expr (.ident p _) | .expr (.call p _ _) | .expr (.cond p _ _ _) | .expr (.binary p _ _ _)
  | .expr (.print p _) => some p
  | _ => none

/-- the value of an integer literal -/
@[simp]
def integer? : Node → Option Int64
  | .expr (.literal _ (.int z)) => some z
  | _ => none

/-- a node whose numbers can be read back; an integer literal has at most 53 binary digits -/
structure Fits (n : Node) : Prop where
  position : ∀ p, n.position? = some p → p.Fits
  reference : ∀ r, n.reference? = some r → r.Fits
  integer : ∀ z, n.integer? = some z → -maxExact ≤ z.toInt ∧ z.toInt ≤ maxExact

theorem fits_iff (n : Node) : n.Fits ↔ (∀ p, n.position? = some p → p.Fits) ∧ (∀ r, n.reference? = some r → r.Fits) ∧
    ∀ z, n.integer? = some z → -maxExact ≤ z.toInt ∧ z.toInt ≤ maxExact :=
  ⟨fun h => ⟨h.position, h.reference, h.integer⟩, fun h => ⟨h.1, h.2.1, h.2.2⟩⟩

instance (n : Node) : Decidable n.Fits :=
  -- the one literal is looked at: the integers of 64 bits are too many to go through
  haveI : Decidable (∀ z ∈ n.integer?, -maxExact ≤ z.toInt ∧ z.toInt ≤ maxExact) :=
    Option.decidableForallMem n.integer?
  decidable_of_iff ((∀ p ∈ n.position?, p.Fits) ∧ (∀ r ∈ n.reference?, r.Fits) ∧
    ∀ z ∈ n.integer?, -maxExact ≤ z.toInt ∧ z.toInt ≤ maxExact) n.fits_iff.symm

section

variable (p : Position)

@[simp] theorem fits_int (z : Int64) : Fits (.expr (.literal p (.int z))) ↔
    p.Fits ∧ -maxExact ≤ z.toInt ∧ z.toInt ≤ maxExact := by
  simp [fits_iff]

@[simp] theorem fits_bool (b : Bool) : Fits (.expr (.literal p (.bool b))) ↔ p.Fits := by
  simp [fits_iff]

@[simp] theorem fits_ident (r : Reference) : Fits (.expr (.ident p r)) ↔ p.Fits ∧ r.Fits := by
  simp [fits_iff]

@[simp] theorem fits_call (r : Reference) (es : List Expr) : Fits (.expr (.call p r es)) ↔ p.Fits ∧ r.Fits := by
  simp [fits_iff]

@[simp] theorem fits_cond (e e1 e2 : Expr) : Fits (.expr (.cond p e e1 e2)) ↔ p.Fits := by
  simp [fits_iff]

@[simp] theorem fits_binary (op : Operator) (e e1 : Expr) : Fits (.expr (.binary p op e e1)) ↔ p.Fits := by
  simp [fits_iff]

@[simp] theorem fits_print (e : Expr) : Fits (.expr (.print p e)) ↔ p.Fits := by
  simp [fits_iff]

@[simp] theorem fits_var (name : String) (e : Expr) : Fits (.decl (.var p name e)) ↔ p.Fits := by
  simp [fits_iff]

@[simp] theorem fits_func (name : String) (ps : List Param) (ds : List Decl) (e : Expr) :
    Fits (.decl (.func p name ps ds e)) ↔ p.Fits := by
  simp [fits_iff]

@[simp] theorem fits_letIn (ds : List Decl) (e : Expr) : Fits (.root (.letIn p ds e)) ↔ p.Fits := by
  simp [fits_iff]

@[simp] theorem fits_bare (e : Expr) : Fits (.root (.bare e)) := by
  simp [fits_iff]

end

end Node

/-! ## What is read back -/

mutual

def Expr.normal : Expr → Expr
  | .absent => .absent
  | .literal p v => .literal p.normal v
  | .ident p r => .ident p.normal r
  | .call p r args => .call p.normal r (Expr.normalAll args)
  | .cond p test yes no => .cond p.normal test.normal yes.normal no.normal
  | .binary p op left right => .binary p.normal op left.normal right.normal
  | .print p arg => .print p.normal arg.normal

def Expr.normalAll : List Expr → List Expr
  | [] => []
  | e :: es => e.normal :: Expr.normalAll es

end

/-- the position of a parameter is not written -/
def Param.normal (p : Param) : Param := { name := p.name }

mutual

def Decl.normal : Decl → Decl
  | .absent => .absent
  | .var p name value => .var p.normal name value.normal
  | .func p name params decls body => .func p.normal name (params.map Param.normal) (Decl.normalAll decls) body.normal

def Decl.normalAll : List Decl → List Decl
  | [] => []
  | d :: ds => d.normal :: Decl.normalAll ds

end

/-- the tree with the positions of parameters, and all that are not known, reset -/
def Root.normal : Root → Root
  | .absent => .absent
  | .letIn p decls body => .letIn p.normal (Decl.normalAll decls) body.normal
  | .bare body => .bare body.normal

/-! ## References -/

theorem Entry.object?_toValue (path : Path) (e : Entry) : ∃ o : Object e.toValue,
    e.toValue.object? path "entry" = .ok o ∧ o.members.get? "level" = some (.ofInt64 e.level) ∧
      o.members.get? "offset" = some (.ofInt64 e.offset) := by
  refine ⟨_, rfl, ?_, ?_⟩
  · rw [Members.get?_ofList]
    rfl
  · rw [Members.get?_ofList]
    rfl

/-- the members of a reference with an entry -/
def Reference.members (r : Reference) (e : Entry) : List (String × Value) :=
  [("name", .string r.name), ("level", .ofInt64 r.level), ("entry", e.toValue)]

theorem Reference.toMembers_eq_ok (r : Reference) {members : List (String × Value)} (h : r.toMembers = .ok members) :
    ∃ e, r.entry = some e ∧ members = r.members e := by
  unfold Reference.toMembers at h
  split at h
  case h_1 => cases h
  case h_2 e he => exact ⟨e, he, (Except.ok.inj h).symm⟩

/-- the members of a reference are read as the reference, if it fits -/
theorem Object.gives_reference {v : Value} {o : Object v} {r : Reference} {e : Entry}
    (hname : o.members.get? "name" = some (.string r.name)) (hlevel : o.members.get? "level" = some (.ofInt64 r.level))
    (hentry : o.members.get? "entry" = some e.toValue) (he : r.entry = some e) : Gives o.reference r.Fits r := by
  obtain ⟨oe, hobject, hdeclared, hoffset⟩ := e.object?_toValue (o.place "entry")
  have hexact : -maxExact ≤ 0 ∧ -maxExact ≤ -2 ^ 31 ∧ maxIndex ≤ maxExact := by decide
  have hlevel' := Object.gives_integer hlevel hexact.1 hexact.2.2
  have hdeclared' := Object.gives_integer hdeclared hexact.1 hexact.2.2
  have hoffset' := Object.gives_integer hoffset hexact.2.1 hexact.2.2
  unfold Object.reference
  refine Object.gives_string hname ((hlevel'.bind (Object.gives_get hentry fun _ => (Gives.of_eq hobject).bind
    (hdeclared'.bind (hoffset'.bind (Q := True) ?_)))).congr ?_)
  · rw [Int64.ofInt_toInt, Int64.ofInt_toInt, Int64.ofInt_toInt, ← he]
    exact .ok _
  · simp [Reference.Fits, Entry.Fits, he]

/-! ## Expressions -/

theorem Literal.gives_ofValue (path : Path) (p : Position) (value : Literal) {v : Value} (hv : value.toValue p = .ok v) :
    Gives (Expr.ofValue path v) (Node.Fits (.expr (.literal p value))) (.literal p.normal value) := by
  cases value with
  | int n =>
    obtain rfl := Except.ok.inj hv
    have hget : (Object.ofNode path ExprKind.int.name p [("value", .ofInt64 n)]).members.get? "value" =
      some (.ofInt64 n) := Object.get?_ofNode rfl (by decide)
    have hn := Object.gives_integer hget (Int.le_refl (-maxExact)) (Int.le_refl maxExact)
    rw [Expr.ofValue, Node.fits_int]
    refine (Value.gives_node_ofNode path _ p rfl rfl).bind ?_
    simp only [Object.kind_ofNode, ExprKind.ofName?_eq_some.2 rfl]
    have hliteral := hn.map (g := fun n => Expr.literal p.normal (.int (Int64.ofInt n)))
    rwa [Int64.ofInt_toInt] at hliteral
  | bool b =>
    obtain rfl := Except.ok.inj hv
    rw [Expr.ofValue]
    refine ((Value.gives_node_ofNode path _ p rfl rfl).bind (Q := True) ?_).congr (by simp)
    simp only [Object.kind_ofNode, ExprKind.ofName?_eq_some.2 rfl]
    exact Object.gives_bool (Object.get?_ofNode rfl (by decide)) (.ok _)
  | string s => cases hv
  | absent => cases hv

/-- the operands of a binary expression, from what reading each of them gives -/
theorem Object.gives_operands {v : Value} {o : Object v} {left right : Value} {P Q : Prop} {l r : Expr}
    (hleft : o.members.get? "left" = some left) (hright : o.members.get? "right" = some right)
    (hl : Gives (Expr.ofValue (o.place "left") left) P l) (hr : Gives (Expr.ofValue (o.place "right") right) Q r) :
    Gives (Expr.operandsOfObject o) (P ∧ Q) (l, r) := by
  rw [Expr.operandsOfObject]
  exact Object.gives_get hleft fun _ => hl.bind (Object.gives_get hright fun _ => hr.map)

mutual

/-- a written expression is read as it was, if its nodes fit -/
theorem Expr.gives_ofValue (path : Path) (e : Expr) {v : Value} (hv : e.toValue = .ok v) :
    Gives (Expr.ofValue path v) (∀ n ∈ e.nodes, n.Fits) e.normal := by
  cases e with
  | absent => cases hv
  | literal p value => exact (value.gives_ofValue path p hv).congr (by simp [Expr.nodes])
  | ident p r =>
    -- in each case, first what writing needs of the parts, then the members that reading finds
    obtain ⟨members, hmembers, h⟩ := bind_eq_ok.1 hv
    obtain ⟨e, he, rfl⟩ := r.toMembers_eq_ok hmembers
    obtain rfl := Except.ok.inj h
    have hr := Object.gives_reference (o := Object.ofNode path ExprKind.ident.name p (r.members e))
      (Object.get?_ofNode rfl (by decide)) (Object.get?_ofNode rfl (by decide)) (Object.get?_ofNode rfl (by decide)) he
    rw [Expr.ofValue]
    refine ((Value.gives_node_ofNode path _ p rfl rfl).bind (Q := r.Fits) ?_).congr ?_
    · simp only [Object.kind_ofNode, ExprKind.ofName?_eq_some.2 rfl]
      exact hr.map
    · simp [Expr.nodes]
  | call p r args =>
    obtain ⟨ws, hws, h⟩ := bind_eq_ok.1 hv
    obtain ⟨members, hmembers, h⟩ := bind_eq_ok.1 h
    obtain ⟨e, he, rfl⟩ := r.toMembers_eq_ok hmembers
    obtain rfl := Except.ok.inj h
    have hr := Object.gives_reference
      (o := Object.ofNode path ExprKind.call.name p (r.members e ++ [("args", .list ws)]))
      (Object.get?_ofNode rfl (by decide)) (Object.get?_ofNode rfl (by decide)) (Object.get?_ofNode rfl (by decide)) he
    rw [Expr.ofValue]
    refine ((Value.gives_node_ofNode path _ p rfl rfl).bind (Q := r.Fits ∧
      ∀ n ∈ Expr.nodesAll args, n.Fits) ?_).congr ?_
    · simp only [Object.kind_ofNode, ExprKind.ofName?_eq_some.2 rfl]
      exact hr.bind (Object.gives_list (Object.get?_ofNode rfl (by decide)) fun _ =>
        (Expr.gives_ofValues _ 0 args hws).map)
    · simp [Expr.nodes, and_assoc]
  | cond p test yes no =>
    obtain ⟨w1, hw1, h⟩ := bind_eq_ok.1 hv
    obtain ⟨w2, hw2, h⟩ := bind_eq_ok.1 h
    obtain ⟨w3, hw3, h⟩ := bind_eq_ok.1 h
    obtain rfl := Except.ok.inj h
    rw [Expr.ofValue]
    refine ((Value.gives_node_ofNode path _ p rfl rfl).bind (Q := (∀ n ∈ test.nodes, n.Fits) ∧
      (∀ n ∈ yes.nodes, n.Fits) ∧ ∀ n ∈ no.nodes, n.Fits) ?_).congr ?_
    · simp only [Object.kind_ofNode, ExprKind.ofName?_eq_some.2 rfl]
      refine Object.gives_get (Object.get?_ofNode rfl (by decide)) fun _ => (Expr.gives_ofValue _ test hw1).bind ?_
      refine Object.gives_get (Object.get?_ofNode rfl (by decide)) fun _ => (Expr.gives_ofValue _ yes hw2).bind ?_
      exact Object.gives_get (Object.get?_ofNode rfl (by decide)) fun _ => (Expr.gives_ofValue _ no hw3).map
    · simp [Expr.nodes, or_imp, forall_and]
  | binary p op left right =>
    rw [Expr.toValue] at hv
    split at hv
    case h_1 => cases hv
    case h_2 kind hkind =>
      obtain ⟨w1, hw1, h⟩ := bind_eq_ok.1 hv
      obtain ⟨w2, hw2, h⟩ := bind_eq_ok.1 h
      obtain rfl := Except.ok.inj h
      have hoperands := Object.gives_operands (o := Object.ofNode path kind.name p [("left", w1), ("right", w2)])
        (Object.get?_ofNode rfl (by decide)) (Object.get?_ofNode rfl (by decide)) (Expr.gives_ofValue _ left hw1)
        (Expr.gives_ofValue _ right hw2)
      rw [Expr.ofValue]
      refine ((Value.gives_node_ofNode path _ p rfl rfl).bind (Q := (∀ n ∈ left.nodes, n.Fits) ∧
        ∀ n ∈ right.nodes, n.Fits) ?_).congr ?_
      · simp only [Object.kind_ofNode, ExprKind.ofName?_eq_some.2 rfl]
        -- the kind that is written determines the operator
        cases op with
        | illegal code => cases hkind
        | _ =>
          obtain rfl := Option.some.inj hkind
          exact hoperands.map
      · simp [Expr.nodes, or_imp, forall_and]
  | print p arg =>
    obtain ⟨w, hw, h⟩ := bind_eq_ok.1 hv
    obtain rfl := Except.ok.inj h
    rw [Expr.ofValue]
    refine ((Value.gives_node_ofNode path _ p rfl rfl).bind (Q := ∀ n ∈ arg.nodes, n.Fits) ?_).congr ?_
    · simp only [Object.kind_ofNode, ExprKind.ofName?_eq_some.2 rfl]
      exact Object.gives_get (Object.get?_ofNode rfl (by decide)) fun _ => (Expr.gives_ofValue _ arg hw).map
    · simp [Expr.nodes]

theorem Expr.gives_ofValues (path : Path) (i : Nat) (es : List Expr) {vs : List Value}
    (hvs : Expr.toValues es = .ok vs) :
    Gives (Expr.ofValues path i vs) (∀ n ∈ Expr.nodesAll es, n.Fits) (Expr.normalAll es) := by
  cases es with
  | nil =>
    obtain rfl := Except.ok.inj hvs
    rw [Expr.ofValues]
    exact (Gives.ok []).congr (by simp [Expr.nodesAll])
  | cons e es =>
    obtain ⟨w, hw, h⟩ := bind_eq_ok.1 hvs
    obtain ⟨ws, hws, h⟩ := bind_eq_ok.1 h
    obtain rfl := Except.ok.inj h
    rw [Expr.ofValues]
    refine ((Expr.gives_ofValue _ e hw).bind (Expr.gives_ofValues path (i + 1) es hws).map).congr ?_
    simp [Expr.nodesAll, or_imp, forall_and]

end

/-! ## Declarations -/

theorem paramsOfValues_names (path : Path) (i : Nat) (params : List Param) :
    paramsOfValues path i (params.map fun p => .string p.name) = .ok (params.map Param.normal) := by
  induction params generalizing i with
  | nil => rfl
  | cons p params ih =>
    rw [List.map_cons, paramsOfValues, ih (i + 1)]
    rfl

mutual

theorem Decl.gives_ofValue (path : Path) (d : Decl) {v : Value} (hv : d.toValue = .ok v) :
    Gives (Decl.ofValue path v) (∀ n ∈ d.nodes, n.Fits) d.normal := by
  cases d with
  | absent => cases hv
  | var p name value =>
    obtain ⟨w, hw, h⟩ := bind_eq_ok.1 hv
    obtain rfl := Except.ok.inj h
    rw [Decl.ofValue]
    refine ((Value.gives_node_ofNode path _ p rfl rfl).bind (Q := ∀ n ∈ value.nodes, n.Fits) ?_).congr ?_
    · simp only [Object.kind_ofNode, DeclKind.ofName?_eq_some.2 rfl]
      refine Object.gives_string (Object.get?_ofNode rfl (by decide)) ?_
      exact (Object.gives_expr (Object.get?_ofNode rfl (by decide)) (Expr.gives_ofValue _ value hw)).map
    · simp [Decl.nodes]
  | func p name params decls body =>
    obtain ⟨ws, hws, h⟩ := bind_eq_ok.1 hv
    obtain ⟨w, hw, h⟩ := bind_eq_ok.1 h
    obtain rfl := Except.ok.inj h
    rw [Decl.ofValue]
    refine ((Value.gives_node_ofNode path _ p rfl rfl).bind (Q := (∀ n ∈ Decl.nodesAll decls, n.Fits) ∧
      ∀ n ∈ body.nodes, n.Fits) ?_).congr ?_
    · simp only [Object.kind_ofNode, DeclKind.ofName?_eq_some.2 rfl]
      refine Object.gives_string (Object.get?_ofNode rfl (by decide)) ?_
      refine Object.gives_list (Object.get?_ofNode rfl (by decide)) fun _ => ?_
      rw [paramsOfValues_names]
      refine Object.gives_list (Object.get?_ofNode rfl (by decide)) fun _ => (Decl.gives_ofValues _ 0 decls hws).bind ?_
      exact (Object.gives_expr (Object.get?_ofNode rfl (by decide)) (Expr.gives_ofValue _ body hw)).map
    · simp [Decl.nodes, or_imp, forall_and]

theorem Decl.gives_ofValues (path : Path) (i : Nat) (ds : List Decl) {vs : List Value}
    (hvs : Decl.toValues ds = .ok vs) :
    Gives (Decl.ofValues path i vs) (∀ n ∈ Decl.nodesAll ds, n.Fits) (Decl.normalAll ds) := by
  cases ds with
  | nil =>
    obtain rfl := Except.ok.inj hvs
    rw [Decl.ofValues]
    exact (Gives.ok []).congr (by simp [Decl.nodesAll])
  | cons d ds =>
    obtain ⟨w, hw, h⟩ := bind_eq_ok.1 hvs
    obtain ⟨ws, hws, h⟩ := bind_eq_ok.1 h
    obtain rfl := Except.ok.inj h
    rw [Decl.ofValues]
    refine ((Decl.gives_ofValue _ d hw).bind (Decl.gives_ofValues path (i + 1) ds hws).map).congr ?_
    simp [Decl.nodesAll, or_imp, forall_and]

end

/-! ## Trees -/

theorem Root.gives_ofValue (r : Root) {v : Value} (hv : r.toValue = .ok v) :
    Gives (Root.ofValue v) (∀ n ∈ r.nodes, n.Fits) r.normal := by
  cases r with
  | absent => cases hv
  | letIn p decls body =>
    obtain ⟨ws, hws, h⟩ := bind_eq_ok.1 hv
    obtain ⟨w, hw, h⟩ := bind_eq_ok.1 h
    obtain rfl := Except.ok.inj h
    rw [Root.ofValue]
    refine ((Value.gives_node_ofNode [] _ p rfl rfl).bind (Q := (∀ n ∈ Decl.nodesAll decls, n.Fits) ∧
      ∀ n ∈ body.nodes, n.Fits) ?_).congr ?_
    · simp only [Object.kind_ofNode, RootKind.ofName?_eq_some.2 rfl]
      refine Object.gives_list (Object.get?_ofNode rfl (by decide)) fun _ => (Decl.gives_ofValues _ 0 decls hws).bind ?_
      exact (Object.gives_expr (Object.get?_ofNode rfl (by decide)) (Expr.gives_ofValue _ body hw)).map
    · simp [Root.nodes, or_imp, forall_and]
  | bare body =>
    obtain ⟨w, hw, h⟩ := bind_eq_ok.1 hv
    obtain rfl := Except.ok.inj h
    rw [Root.ofValue]
    refine ((Value.gives_node_ofNode [] _ .unknown rfl rfl).bind (Q := ∀ n ∈ body.nodes, n.Fits) ?_).congr ?_
    · simp only [Object.kind_ofNode, RootKind.ofName?_eq_some.2 rfl]
      exact (Object.gives_expr (Object.get?_ofNode rfl (by decide)) (Expr.gives_ofValue _ body hw)).map
    · -- a bare expression is written without a position
      have hunknown : Position.unknown.Fits := fun h => by cases h
      simp [Root.nodes, hunknown]

/-- **A written tree reads back, or is refused.** If every level, offset, literal and column of the tree is in range,
reading gives the tree itself up to positions that are not written; if one is not, reading gives a complaint. -/
theorem written_tree_reads_back_or_is_refused {r : Root} {v : Value} (hv : r.toValue = .ok v) :
    ((∀ n ∈ r.nodes, n.Fits) → Root.ofValue v = .ok r.normal) ∧
      (¬ (∀ n ∈ r.nodes, n.Fits) → ∃ c, Root.ofValue v = .error c) :=
  ⟨(r.gives_ofValue hv).eq_ok, (r.gives_ofValue hv).eq_error⟩

/-- a literal that is written as its even neighbour -/
def oddTree : Root := .bare (.literal ⟨1, 1⟩ (.int 9007199254740993))

theorem sumTree_reads_back_and_oddTree_is_refused :
    (∃ v, sumTree.toValue = .ok v ∧ Root.ofValue v = .ok sumTree.normal) ∧
      ∃ v c, oddTree.toValue = .ok v ∧ Root.ofValue v = .error c := by
  have hsum : ∃ v, sumTree.toValue = .ok v := ⟨_, rfl⟩
  have hodd : ∃ v, oddTree.toValue = .ok v := ⟨_, rfl⟩
  obtain ⟨v, hv⟩ := hsum
  obtain ⟨w, hw⟩ := hodd
  obtain ⟨c, hc⟩ := (written_tree_reads_back_or_is_refused hw).2 (by decide +kernel)
  exact ⟨⟨v, hv, (written_tree_reads_back_or_is_refused hv).1 (by decide +kernel)⟩, w, c, hw, hc⟩

end LetStack

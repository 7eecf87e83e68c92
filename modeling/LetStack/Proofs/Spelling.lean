/-
Which value spells which tree.

The reader takes an object apart member by member, and complains at the first member that is not as it should be. Here
the same is said without an order and without complaints: `Expr.SpelledBy`, `Decl.SpelledBy` and `Root.SpelledBy` have
one rule for each kind of node, with one premise for each member. Numbers are compared by their exact value, so a
negative zero spells 0, and neither a fraction nor an infinity spells anything.

Result:
- `Root.ofValue_eq_ok`: reading a value gives a tree exactly if the value spells it. So a value spells one tree at most.
-/
import LetStack.Proofs.Nearest
import LetStack.Proofs.RoundTrip

namespace LetStack

/-! ## Members -/

/-- a finite number of this value -/
def Value.Denotes (v : Value) (n : ℤ) : Prop := ∃ x : Binary64, v = .number x ∧ x.isFinite = true ∧ x.value = n

namespace Members

/-- a member that is an integer from `least` to `greatest` -/
def HasInteger (ms : Members) (name : String) (least greatest n : ℤ) : Prop :=
  ∃ w, ms.get? name = some w ∧ w.Denotes n ∧ least ≤ n ∧ n ≤ greatest

/-- a line or a column; 0 if it is left out -/
def HasIndex (ms : Members) (name : String) (n : ℤ) : Prop :=
  (ms.get? name = none ∧ n = 0) ∨ ms.HasInteger name 0 maxIndex n

/-- the items of a list; none if it is left out -/
def items? (ms : Members) (name : String) : Option (List Value) :=
  match ms.get? name with
  | none => some []
  | some (.list ws) => some ws
  | some _ => none

/-- the kind and the position that every node has -/
structure Heads (ms : Members) (kind : String) (pos : Position) : Prop where
  kind : ms.get? "kind" = some (.string kind)
  line : ms.HasIndex "line" pos.line.toInt
  col : ms.HasIndex "col" pos.col.toInt

end Members

/-! ## Trees -/

/-- the members of an entry -/
structure Entry.SpelledBy (e : Entry) (ms : Members) : Prop where
  level : ms.HasInteger "level" 0 maxIndex e.level.toInt
  offset : ms.HasInteger "offset" (-2 ^ 31) maxIndex e.offset.toInt

/-- the members of a reference -/
structure Reference.SpelledBy (r : Reference) (ms : Members) : Prop where
  name : ms.get? "name" = some (.string r.name)
  level : ms.HasInteger "level" 0 maxIndex r.level.toInt
  entry : ∃ e es, r.entry = some e ∧ ms.get? "entry" = some (.object es) ∧ e.SpelledBy es

mutual

inductive Expr.SpelledBy : Expr → Value → Prop
  | int {ms : Members} {pos : Position} {n : Int64} (head : ms.Heads ExprKind.int.name pos)
      (value : ms.HasInteger "value" (-maxExact) maxExact n.toInt) :
      Expr.SpelledBy (.literal pos (.int n)) (.object ms)
  | bool {ms : Members} {pos : Position} {b : Bool} (head : ms.Heads ExprKind.bool.name pos)
      (value : ms.get? "value" = some (.bool b)) :
      Expr.SpelledBy (.literal pos (.bool b)) (.object ms)
  | ident {ms : Members} {pos : Position} {r : Reference} (head : ms.Heads ExprKind.ident.name pos)
      (reference : r.SpelledBy ms) :
      Expr.SpelledBy (.ident pos r) (.object ms)
  | call {ms : Members} {pos : Position} {r : Reference} {ws : List Value} {args : List Expr}
      (head : ms.Heads ExprKind.call.name pos) (reference : r.SpelledBy ms)
      (items : ms.items? "args" = some ws) (hargs : Expr.AllSpelledBy args ws) :
      Expr.SpelledBy (.call pos r args) (.object ms)
  | cond {ms : Members} {pos : Position} {w1 w2 w3 : Value} {test yes no : Expr}
      (head : ms.Heads ExprKind.cond.name pos)
      (get1 : ms.get? "cond" = some w1) (htest : Expr.SpelledBy test w1)
      (get2 : ms.get? "then" = some w2) (hyes : Expr.SpelledBy yes w2)
      (get3 : ms.get? "else" = some w3) (hno : Expr.SpelledBy no w3) :
      Expr.SpelledBy (.cond pos test yes no) (.object ms)
  | binary {ms : Members} {pos : Position} {op : Operator} {k : ExprKind} {w1 w2 : Value} {left right : Expr}
      (kind : op.exprKind? = some k) (head : ms.Heads k.name pos)
      (get1 : ms.get? "left" = some w1) (hleft : Expr.SpelledBy left w1)
      (get2 : ms.get? "right" = some w2) (hright : Expr.SpelledBy right w2) :
      Expr.SpelledBy (.binary pos op left right) (.object ms)
  | print {ms : Members} {pos : Position} {w : Value} {arg : Expr} (head : ms.Heads ExprKind.print.name pos)
      (get : ms.get? "exp" = some w) (harg : Expr.SpelledBy arg w) :
      Expr.SpelledBy (.print pos arg) (.object ms)

inductive Expr.AllSpelledBy : List Expr → List Value → Prop
  | nil : Expr.AllSpelledBy [] []
  | cons {e : Expr} {es : List Expr} {w : Value} {ws : List Value} (head : Expr.SpelledBy e w)
      (tail : Expr.AllSpelledBy es ws) :
      Expr.AllSpelledBy (e :: es) (w :: ws)

end

mutual

inductive Decl.SpelledBy : Decl → Value → Prop
  | var {ms : Members} {pos : Position} {name : String} {w : Value} {value : Expr}
      (head : ms.Heads DeclKind.var.name pos) (hname : ms.get? "name" = some (.string name))
      (get : ms.get? "value" = some w) (hvalue : value.SpelledBy w) :
      Decl.SpelledBy (.var pos name value) (.object ms)
  | func {ms : Members} {pos : Position} {name : String} {params : List Param} {ws : List Value} {w : Value}
      {decls : List Decl} {body : Expr} (head : ms.Heads DeclKind.func.name pos)
      (hname : ms.get? "name" = some (.string name))
      (hparams : ms.items? "params" = some (params.map fun p => .string p.name))
      (unplaced : ∀ p ∈ params, p.pos = .unknown)
      (items : ms.items? "decls" = some ws) (hdecls : Decl.AllSpelledBy decls ws)
      (get : ms.get? "body" = some w) (hbody : body.SpelledBy w) :
      Decl.SpelledBy (.func pos name params decls body) (.object ms)

inductive Decl.AllSpelledBy : List Decl → List Value → Prop
  | nil : Decl.AllSpelledBy [] []
  | cons {d : Decl} {ds : List Decl} {w : Value} {ws : List Value} (head : Decl.SpelledBy d w)
      (tail : Decl.AllSpelledBy ds ws) :
      Decl.AllSpelledBy (d :: ds) (w :: ws)

end

inductive Root.SpelledBy : Root → Value → Prop
  | letIn {ms : Members} {pos : Position} {ws : List Value} {w : Value} {decls : List Decl} {body : Expr}
      (head : ms.Heads RootKind.letIn.name pos)
      (items : ms.items? "decls" = some ws) (hdecls : Decl.AllSpelledBy decls ws)
      (get : ms.get? "body" = some w) (hbody : body.SpelledBy w) :
      Root.SpelledBy (.letIn pos decls body) (.object ms)
  | bare {ms : Members} {pos : Position} {w : Value} {body : Expr} (head : ms.Heads RootKind.bare.name pos)
      (get : ms.get? "body" = some w) (hbody : body.SpelledBy w) :
      Root.SpelledBy (.bare body) (.object ms)

/-! ## The readers of members -/

/-- within the exact integers, the reader of integers looks at the range only -/
theorem Value.integer_eq_ok_iff (path : Path) {least greatest : ℤ} (hleast : -maxExact ≤ least)
    (hgreatest : greatest ≤ maxExact) (v : Value) (n : ℤ) :
    v.integer path least greatest = .ok n ↔ v.Denotes n ∧ least ≤ n ∧ n ≤ greatest := by
  rw [Value.integer_eq_ok]
  constructor
  · rintro ⟨x, rfl, hn, -, hrange⟩
    exact ⟨⟨x, rfl, (x.toInt?_eq_some_iff n).1 hn⟩, hrange⟩
  · rintro ⟨⟨x, rfl, hn⟩, hrange⟩
    exact ⟨x, rfl, (x.toInt?_eq_some_iff n).2 hn, by omega, hrange⟩

namespace Object

variable {v : Value} {o : Object v} {name : String}

theorem get_eq_ok {w : { w : Value // sizeOf w < sizeOf v }} :
    o.get name = .ok w ↔ o.members.get? name = some w.val := by
  constructor
  · intro h
    unfold get at h
    split at h
    · cases h
    · obtain rfl := Except.ok.inj h
      assumption
  · intro h
    obtain ⟨hlt, hget⟩ := get_of_some h
    exact hget

theorem string_eq_ok {s : String} : o.string name = .ok s ↔ o.members.get? name = some (.string s) := by
  constructor
  · intro h
    obtain ⟨⟨w, hw⟩, hget, h⟩ := bind_eq_ok.1 h
    rw [get_eq_ok] at hget
    cases w with
    | string s' =>
      obtain rfl := Except.ok.inj h
      exact hget
    | _ => cases h
  · intro h
    obtain ⟨hlt, hget⟩ := get_of_some h
    rw [string, hget]
    rfl

theorem bool_eq_ok {b : Bool} : o.bool name = .ok b ↔ o.members.get? name = some (.bool b) := by
  constructor
  · intro h
    obtain ⟨⟨w, hw⟩, hget, h⟩ := bind_eq_ok.1 h
    rw [get_eq_ok] at hget
    cases w with
    | bool b' =>
      obtain rfl := Except.ok.inj h
      exact hget
    | _ => cases h
  · intro h
    obtain ⟨hlt, hget⟩ := get_of_some h
    rw [bool, hget]
    rfl

theorem integer_eq_ok {least greatest n : ℤ} (hleast : -maxExact ≤ least) (hgreatest : greatest ≤ maxExact) :
    o.integer name least greatest = .ok n ↔ o.members.HasInteger name least greatest n := by
  rw [integer, bind_eq_ok, Members.HasInteger]
  constructor
  · rintro ⟨⟨w, hw⟩, hget, h⟩
    exact ⟨w, get_eq_ok.1 hget, (Value.integer_eq_ok_iff _ hleast hgreatest w n).1 h⟩
  · rintro ⟨w, hget, h⟩
    obtain ⟨hlt, hget⟩ := get_of_some hget
    exact ⟨⟨w, hlt⟩, hget, (Value.integer_eq_ok_iff _ hleast hgreatest w n).2 h⟩

theorem index_eq_ok {n : ℤ} : o.integerOrZero name 0 maxIndex = .ok n ↔ o.members.HasIndex name n := by
  have hexact : -maxExact ≤ 0 ∧ maxIndex ≤ maxExact := by decide
  rw [integerOrZero, Members.contains_eq, Members.HasIndex, ← integer_eq_ok hexact.1 hexact.2]
  cases hget : o.members.get? name with
  | none =>
    have hnone : o.integer name 0 maxIndex ≠ .ok n := by
      intro h
      obtain ⟨w, hw, -⟩ := (integer_eq_ok hexact.1 hexact.2).1 h
      rw [hget] at hw
      cases hw
    simp [hnone, eq_comm]
  | some w => simp

theorem list_eq_ok {ws : { ws : List Value // sizeOf ws < sizeOf v }} :
    o.list name = .ok ws ↔ o.members.items? name = some ws.val := by
  obtain ⟨ws, hws⟩ := ws
  unfold list Members.items?
  split
  · rename_i h
    simp [h]
  · rename_i h
    simp [h]
  · rename_i w hw h
    simp [h]

theorem expr_eq_ok {e : Expr} :
    o.expr name = .ok e ↔ ∃ w, o.members.get? name = some w ∧ Expr.ofValue (o.place name) w = .ok e := by
  rw [expr, bind_eq_ok]
  constructor
  · rintro ⟨⟨w, hw⟩, hget, h⟩
    exact ⟨w, get_eq_ok.1 hget, h⟩
  · rintro ⟨w, hget, h⟩
    obtain ⟨hlt, hget⟩ := get_of_some hget
    exact ⟨⟨w, hlt⟩, hget, h⟩

end Object

/-! ## Nodes -/

namespace Members

variable {ms : Members} {name : String} {n : ℤ}

theorem HasIndex.bounds (h : ms.HasIndex name n) : 0 ≤ n ∧ n ≤ maxIndex := by
  rcases h with ⟨-, rfl⟩ | ⟨w, -, -, hrange⟩
  · decide
  · exact hrange

/-- an index is itself after it has become a machine integer -/
theorem HasIndex.toInt_ofInt (h : ms.HasIndex name n) : (Int32.ofInt n).toInt = n := by
  have hbounds := h.bounds
  have hmax : maxIndex = 2 ^ 31 - 1 := rfl
  exact Int32.toInt_ofInt_of_le (by omega) (by omega)

theorem HasInteger.toInt_ofInt {least greatest : ℤ} (h : ms.HasInteger name least greatest n)
    (hleast : -maxExact ≤ least) (hgreatest : greatest ≤ maxExact) : (Int64.ofInt n).toInt = n := by
  obtain ⟨w, -, -, hrange⟩ := h
  have hmax : maxExact = 2 ^ 53 - 1 := rfl
  exact Int64.toInt_ofInt_of_le (by omega) (by omega)

end Members

namespace Value

theorem object?_eq_ok {path : Path} {kind : String} {v : Value} {o : Object v} :
    v.object? path kind = .ok o ↔ v = .object o.members ∧ o.path = path ∧ o.kind = kind := by
  cases v with
  | object ms =>
    obtain ⟨path', kind', ms', hlt⟩ := o
    simp only [object?, Except.ok.injEq, Object.mk.injEq, object.injEq]
    tauto
  | _ => simp [object?]

theorem node_eq_ok {path : Path} {v : Value} {o : Object v} {pos : Position} :
    v.node path = .ok (o, pos) ↔ v = .object o.members ∧ o.path = path ∧ o.members.Heads o.kind pos := by
  rw [node, bind_eq_ok]
  constructor
  · rintro ⟨o', ho', h⟩
    obtain ⟨hv, hpath, -⟩ := object?_eq_ok.1 ho'
    split at h
    case h_1 => cases h
    case h_2 kind hkind =>
      obtain ⟨line, hline, h⟩ := bind_eq_ok.1 h
      obtain ⟨col, hcol, h⟩ := bind_eq_ok.1 h
      obtain ⟨rfl, rfl⟩ := Prod.mk.inj (Except.ok.inj h)
      rw [Object.index_eq_ok] at hline hcol
      refine ⟨hv, hpath, hkind, ?_, ?_⟩
      · rwa [hline.toInt_ofInt]
      · rwa [hcol.toInt_ofInt]
    case h_3 => cases h
  · rintro ⟨hv, hpath, hhead⟩
    refine ⟨{ o with kind := "" }, object?_eq_ok.2 ⟨hv, hpath, rfl⟩, ?_⟩
    simp only [hhead.kind]
    rw [Object.index_eq_ok.2 hhead.line, Object.index_eq_ok.2 hhead.col]
    simp only [bind, Except.bind, Int32.ofInt_toInt]

end Value

theorem Object.reference_eq_ok {v : Value} {o : Object v} {r : Reference} :
    o.reference = .ok r ↔ r.SpelledBy o.members := by
  have hexact : -maxExact ≤ 0 ∧ -maxExact ≤ -2 ^ 31 ∧ maxIndex ≤ maxExact := by decide
  constructor
  · intro h
    obtain ⟨name, hname, h⟩ := bind_eq_ok.1 h
    obtain ⟨level, hlevel, h⟩ := bind_eq_ok.1 h
    obtain ⟨⟨entry, hlt⟩, hget, h⟩ := bind_eq_ok.1 h
    obtain ⟨eo, heo, h⟩ := bind_eq_ok.1 h
    obtain ⟨declared, hdeclared, h⟩ := bind_eq_ok.1 h
    obtain ⟨offset, hoffset, h⟩ := bind_eq_ok.1 h
    obtain rfl := Except.ok.inj h
    rw [Object.integer_eq_ok hexact.1 hexact.2.2] at hlevel hdeclared
    rw [Object.integer_eq_ok hexact.2.1 hexact.2.2] at hoffset
    obtain ⟨hentry, -, -⟩ := Value.object?_eq_ok.1 heo
    refine ⟨Object.string_eq_ok.1 hname, ?_, ⟨_, _⟩, eo.members, rfl, ?_, ?_, ?_⟩
    · rwa [hlevel.toInt_ofInt hexact.1 hexact.2.2]
    · rw [Object.get_eq_ok.1 hget, ← hentry]
    · rwa [hdeclared.toInt_ofInt hexact.1 hexact.2.2]
    · rwa [hoffset.toInt_ofInt hexact.2.1 hexact.2.2]
  · rintro ⟨hname, hlevel, e, es, hentry, hget, hdeclared, hoffset⟩
    obtain ⟨hlt, hget⟩ := Object.get_of_some hget
    have heo : (Value.object es).object? (o.place "entry") "entry" = .ok ⟨o.place "entry", "entry", es, by simp⟩ := rfl
    rw [Object.reference, Object.string_eq_ok.2 hname, Object.integer_eq_ok hexact.1 hexact.2.2 |>.2 hlevel, hget]
    simp only [bind, Except.bind, heo]
    rw [(Object.integer_eq_ok hexact.1 hexact.2.2).2 hdeclared, (Object.integer_eq_ok hexact.2.1 hexact.2.2).2 hoffset]
    simp only [Int64.ofInt_toInt, ← hentry]

/-! ## What has been read is spelled so -/

theorem Object.operands_eq_ok {v : Value} {o : Object v} {left right : Expr}
    (h : Expr.operandsOfObject o = .ok (left, right)) :
    ∃ w1 w2, o.members.get? "left" = some w1 ∧ sizeOf w1 < sizeOf v ∧ Expr.ofValue (o.place "left") w1 = .ok left ∧
      o.members.get? "right" = some w2 ∧ sizeOf w2 < sizeOf v ∧ Expr.ofValue (o.place "right") w2 = .ok right := by
  rw [Expr.operandsOfObject] at h
  obtain ⟨⟨w1, hlt1⟩, hget1, h⟩ := bind_eq_ok.1 h
  obtain ⟨l, hl, h⟩ := bind_eq_ok.1 h
  obtain ⟨⟨w2, hlt2⟩, hget2, h⟩ := bind_eq_ok.1 h
  obtain ⟨r, hr, h⟩ := bind_eq_ok.1 h
  obtain ⟨rfl, rfl⟩ := Prod.mk.inj (Except.ok.inj h)
  exact ⟨w1, w2, Object.get_eq_ok.1 hget1, hlt1, hl, Object.get_eq_ok.1 hget2, hlt2, hr⟩

mutual

theorem Expr.spelledBy_of_ofValue {path : Path} {v : Value} {e : Expr} (h : Expr.ofValue path v = .ok e) :
    e.SpelledBy v := by
  rw [Expr.ofValue] at h
  obtain ⟨⟨o, pos⟩, ho, h⟩ := bind_eq_ok.1 h
  obtain ⟨hv, hpath, hhead⟩ := Value.node_eq_ok.1 ho
  cases hkind : ExprKind.ofName? o.kind with
  | none =>
    simp only [hkind] at h
    cases h
  | some k =>
    simp only [hkind] at h
    rw [← ExprKind.ofName?_eq_some.1 hkind] at hhead
    rw [hv]
    cases k with
    | int =>
      obtain ⟨n, hn, h⟩ := bind_eq_ok.1 h
      obtain rfl := Except.ok.inj h
      have hn := (Object.integer_eq_ok (Int.le_refl (-maxExact)) (Int.le_refl maxExact)).1 hn
      refine .int hhead ?_
      rwa [hn.toInt_ofInt (Int.le_refl (-maxExact)) (Int.le_refl maxExact)]
    | bool =>
      obtain ⟨b, hb, h⟩ := bind_eq_ok.1 h
      obtain rfl := Except.ok.inj h
      exact .bool hhead (Object.bool_eq_ok.1 hb)
    | ident =>
      obtain ⟨r, hr, h⟩ := bind_eq_ok.1 h
      obtain rfl := Except.ok.inj h
      exact .ident hhead (Object.reference_eq_ok.1 hr)
    | call =>
      obtain ⟨r, hr, h⟩ := bind_eq_ok.1 h
      obtain ⟨⟨ws, hlt⟩, hlist, h⟩ := bind_eq_ok.1 h
      obtain ⟨args, hargs, h⟩ := bind_eq_ok.1 h
      obtain rfl := Except.ok.inj h
      exact .call hhead (Object.reference_eq_ok.1 hr) (Object.list_eq_ok.1 hlist) (Expr.allSpelledBy_of_ofValues hargs)
    | cond =>
      obtain ⟨⟨w1, hlt1⟩, hget1, h⟩ := bind_eq_ok.1 h
      obtain ⟨test, htest, h⟩ := bind_eq_ok.1 h
      obtain ⟨⟨w2, hlt2⟩, hget2, h⟩ := bind_eq_ok.1 h
      obtain ⟨yes, hyes, h⟩ := bind_eq_ok.1 h
      obtain ⟨⟨w3, hlt3⟩, hget3, h⟩ := bind_eq_ok.1 h
      obtain ⟨no, hno, h⟩ := bind_eq_ok.1 h
      obtain rfl := Except.ok.inj h
      exact .cond hhead (Object.get_eq_ok.1 hget1) (Expr.spelledBy_of_ofValue htest) (Object.get_eq_ok.1 hget2)
        (Expr.spelledBy_of_ofValue hyes) (Object.get_eq_ok.1 hget3) (Expr.spelledBy_of_ofValue hno)
    | print =>
      obtain ⟨⟨w, hlt⟩, hget, h⟩ := bind_eq_ok.1 h
      obtain ⟨arg, harg, h⟩ := bind_eq_ok.1 h
      obtain rfl := Except.ok.inj h
      exact .print hhead (Object.get_eq_ok.1 hget) (Expr.spelledBy_of_ofValue harg)
    | _ =>
      -- the three operators
      obtain ⟨⟨left, right⟩, hoperands, h⟩ := bind_eq_ok.1 h
      obtain ⟨w1, w2, hget1, hlt1, hl, hget2, hlt2, hr⟩ := Object.operands_eq_ok hoperands
      obtain rfl := Except.ok.inj h
      exact .binary rfl hhead hget1 (Expr.spelledBy_of_ofValue hl) hget2 (Expr.spelledBy_of_ofValue hr)
termination_by (sizeOf v, 1)

theorem Expr.allSpelledBy_of_ofValues {path : Path} {i : ℕ} {ws : List Value} {es : List Expr}
    (h : Expr.ofValues path i ws = .ok es) : Expr.AllSpelledBy es ws := by
  cases ws with
  | nil =>
    rw [Expr.ofValues] at h
    obtain rfl := Except.ok.inj h
    exact .nil
  | cons w ws =>
    rw [Expr.ofValues] at h
    obtain ⟨e, he, h⟩ := bind_eq_ok.1 h
    obtain ⟨es, hes, h⟩ := bind_eq_ok.1 h
    obtain rfl := Except.ok.inj h
    exact .cons (Expr.spelledBy_of_ofValue he) (Expr.allSpelledBy_of_ofValues hes)
termination_by (sizeOf ws, 1)

end

theorem paramsOfValues_eq_ok {path : Path} {i : ℕ} {ws : List Value} {params : List Param} :
    paramsOfValues path i ws = .ok params ↔
      ws = (params.map fun p => .string p.name) ∧ ∀ p ∈ params, p.pos = .unknown := by
  induction ws generalizing i params with
  | nil => cases params <;> simp [paramsOfValues]
  | cons w ws ih =>
    cases w with
    | string name =>
      rw [paramsOfValues, bind_eq_ok]
      simp only [ih, Except.ok.injEq]
      constructor
      · rintro ⟨ps, ⟨rfl, hps⟩, rfl⟩
        exact ⟨rfl, List.forall_mem_cons.2 ⟨rfl, hps⟩⟩
      · rintro ⟨hws, hpos⟩
        cases params with
        | nil => cases hws
        | cons p ps =>
          obtain ⟨hw, hrest⟩ := List.cons.inj hws
          obtain ⟨hp, hps⟩ := List.forall_mem_cons.1 hpos
          obtain ⟨pname, ppos⟩ := p
          obtain rfl : ppos = .unknown := hp
          obtain rfl := Value.string.inj hw
          exact ⟨ps, ⟨hrest, hps⟩, rfl⟩
    | _ =>
      cases params <;> simp [paramsOfValues]

mutual

theorem Decl.spelledBy_of_ofValue {path : Path} {v : Value} {d : Decl} (h : Decl.ofValue path v = .ok d) :
    d.SpelledBy v := by
  rw [Decl.ofValue] at h
  obtain ⟨⟨o, pos⟩, ho, h⟩ := bind_eq_ok.1 h
  obtain ⟨hv, hpath, hhead⟩ := Value.node_eq_ok.1 ho
  cases hkind : DeclKind.ofName? o.kind with
  | none =>
    simp only [hkind] at h
    cases h
  | some k =>
    simp only [hkind] at h
    rw [← DeclKind.ofName?_eq_some.1 hkind] at hhead
    rw [hv]
    cases k with
    | var =>
      obtain ⟨name, hname, h⟩ := bind_eq_ok.1 h
      obtain ⟨value, hvalue, h⟩ := bind_eq_ok.1 h
      obtain ⟨w, hget, hvalue⟩ := Object.expr_eq_ok.1 hvalue
      obtain rfl := Except.ok.inj h
      exact .var hhead (Object.string_eq_ok.1 hname) hget (Expr.spelledBy_of_ofValue hvalue)
    | func =>
      obtain ⟨name, hname, h⟩ := bind_eq_ok.1 h
      obtain ⟨⟨ps, hlt⟩, hlist, h⟩ := bind_eq_ok.1 h
      obtain ⟨params, hparams, h⟩ := bind_eq_ok.1 h
      obtain ⟨⟨ws, hlt'⟩, hlist', h⟩ := bind_eq_ok.1 h
      obtain ⟨decls, hdecls, h⟩ := bind_eq_ok.1 h
      obtain ⟨body, hbody, h⟩ := bind_eq_ok.1 h
      obtain ⟨w, hget, hbody⟩ := Object.expr_eq_ok.1 hbody
      obtain rfl := Except.ok.inj h
      obtain ⟨hps, hunknown⟩ := paramsOfValues_eq_ok.1 hparams
      have hlist := Object.list_eq_ok.1 hlist
      rw [hps] at hlist
      exact .func hhead (Object.string_eq_ok.1 hname) hlist hunknown (Object.list_eq_ok.1 hlist')
        (Decl.allSpelledBy_of_ofValues hdecls) hget (Expr.spelledBy_of_ofValue hbody)
termination_by sizeOf v

theorem Decl.allSpelledBy_of_ofValues {path : Path} {i : ℕ} {ws : List Value} {ds : List Decl}
    (h : Decl.ofValues path i ws = .ok ds) : Decl.AllSpelledBy ds ws := by
  cases ws with
  | nil =>
    rw [Decl.ofValues] at h
    obtain rfl := Except.ok.inj h
    exact .nil
  | cons w ws =>
    rw [Decl.ofValues] at h
    obtain ⟨d, hd, h⟩ := bind_eq_ok.1 h
    obtain ⟨ds, hds, h⟩ := bind_eq_ok.1 h
    obtain rfl := Except.ok.inj h
    exact .cons (Decl.spelledBy_of_ofValue hd) (Decl.allSpelledBy_of_ofValues hds)
termination_by sizeOf ws

end

theorem Root.spelledBy_of_ofValue {v : Value} {r : Root} (h : Root.ofValue v = .ok r) : r.SpelledBy v := by
  obtain ⟨⟨o, pos⟩, ho, h⟩ := bind_eq_ok.1 h
  obtain ⟨hv, hpath, hhead⟩ := Value.node_eq_ok.1 ho
  cases hkind : RootKind.ofName? o.kind with
  | none =>
    simp only [hkind] at h
    cases h
  | some k =>
    simp only [hkind] at h
    rw [← RootKind.ofName?_eq_some.1 hkind] at hhead
    rw [hv]
    cases k with
    | letIn =>
      obtain ⟨⟨ws, hlt⟩, hlist, h⟩ := bind_eq_ok.1 h
      obtain ⟨decls, hdecls, h⟩ := bind_eq_ok.1 h
      obtain ⟨body, hbody, h⟩ := bind_eq_ok.1 h
      obtain ⟨w, hget, hbody⟩ := Object.expr_eq_ok.1 hbody
      obtain rfl := Except.ok.inj h
      exact .letIn hhead (Object.list_eq_ok.1 hlist) (Decl.allSpelledBy_of_ofValues hdecls) hget
        (Expr.spelledBy_of_ofValue hbody)
    | bare =>
      obtain ⟨body, hbody, h⟩ := bind_eq_ok.1 h
      obtain ⟨w, hget, hbody⟩ := Object.expr_eq_ok.1 hbody
      obtain rfl := Except.ok.inj h
      exact .bare hhead hget (Expr.spelledBy_of_ofValue hbody)

/-! ## What spells a tree is read so -/

/-- the object that a node is -/
def Object.ofMembers (path : Path) (kind : String) (ms : Members) : Object (.object ms) where
  path := path
  kind := kind
  members := ms
  smaller := by simp

@[simp] theorem Object.kind_ofMembers (path : Path) (kind : String) (ms : Members) :
    (Object.ofMembers path kind ms).kind = kind := rfl

theorem Value.node_of_heads {path : Path} {ms : Members} {kind : String} {pos : Position} (h : ms.Heads kind pos) :
    (Value.object ms).node path = .ok (Object.ofMembers path kind ms, pos) :=
  Value.node_eq_ok.2 ⟨rfl, rfl, h⟩

namespace Object

variable {v : Value} {o : Object v} {name : String} {α : Type} {a : α}

theorem get_bind {w : Value} {f : { w : Value // sizeOf w < sizeOf v } → Except Complaint α}
    (h : o.members.get? name = some w) (hf : ∀ hlt, f ⟨w, hlt⟩ = .ok a) : (o.get name >>= f) = .ok a := by
  obtain ⟨hlt, hget⟩ := get_of_some h
  exact bind_eq_ok.2 ⟨_, hget, hf hlt⟩

theorem list_bind {ws : List Value} {f : { ws : List Value // sizeOf ws < sizeOf v } → Except Complaint α}
    (h : o.members.items? name = some ws) (hf : ∀ hlt, f ⟨ws, hlt⟩ = .ok a) : (o.list name >>= f) = .ok a := by
  cases hlist : o.list name with
  | ok ws' =>
    obtain ⟨ws', hlt⟩ := ws'
    have hws := list_eq_ok.1 hlist
    rw [h, Option.some.injEq] at hws
    subst hws
    exact hf hlt
  | error c =>
    unfold list at hlist
    split at hlist
    case h_1 => cases hlist
    case h_2 => cases hlist
    case h_3 w hnot hsome =>
      rw [Members.items?, hsome] at h
      cases w with
      | list ws' => exact (hnot ws' rfl).elim
      | _ => cases h

end Object

mutual

theorem Expr.ofValue_of_spelledBy (path : Path) {v : Value} {e : Expr} (h : e.SpelledBy v) :
    Expr.ofValue path v = .ok e := by
  rw [Expr.ofValue]
  cases h with
  | int head value =>
    refine bind_eq_ok.2 ⟨_, Value.node_of_heads head, ?_⟩
    simp only [Object.kind_ofMembers, ExprKind.ofName?_eq_some.2 rfl]
    refine bind_eq_ok.2 ⟨_, (Object.integer_eq_ok (Int.le_refl (-maxExact)) (Int.le_refl maxExact)).2 value, ?_⟩
    rw [Int64.ofInt_toInt]
  | bool head value =>
    refine bind_eq_ok.2 ⟨_, Value.node_of_heads head, ?_⟩
    simp only [Object.kind_ofMembers, ExprKind.ofName?_eq_some.2 rfl]
    exact bind_eq_ok.2 ⟨_, Object.bool_eq_ok.2 value, rfl⟩
  | ident head reference =>
    refine bind_eq_ok.2 ⟨_, Value.node_of_heads head, ?_⟩
    simp only [Object.kind_ofMembers, ExprKind.ofName?_eq_some.2 rfl]
    exact bind_eq_ok.2 ⟨_, Object.reference_eq_ok.2 reference, rfl⟩
  | call head reference items hargs =>
    refine bind_eq_ok.2 ⟨_, Value.node_of_heads head, ?_⟩
    simp only [Object.kind_ofMembers, ExprKind.ofName?_eq_some.2 rfl]
    refine bind_eq_ok.2 ⟨_, Object.reference_eq_ok.2 reference, Object.list_bind items fun _ => ?_⟩
    exact bind_eq_ok.2 ⟨_, Expr.ofValues_of_allSpelledBy _ 0 hargs, rfl⟩
  | cond head get1 htest get2 hyes get3 hno =>
    refine bind_eq_ok.2 ⟨_, Value.node_of_heads head, ?_⟩
    simp only [Object.kind_ofMembers, ExprKind.ofName?_eq_some.2 rfl]
    refine Object.get_bind get1 fun _ => bind_eq_ok.2 ⟨_, Expr.ofValue_of_spelledBy _ htest, ?_⟩
    refine Object.get_bind get2 fun _ => bind_eq_ok.2 ⟨_, Expr.ofValue_of_spelledBy _ hyes, ?_⟩
    exact Object.get_bind get3 fun _ => bind_eq_ok.2 ⟨_, Expr.ofValue_of_spelledBy _ hno, rfl⟩
  | @binary ms pos op k w1 w2 left right kind head get1 hleft get2 hright =>
    have hoperands : Expr.operandsOfObject (Object.ofMembers path k.name ms) = .ok (left, right) := by
      rw [Expr.operandsOfObject]
      refine Object.get_bind get1 fun _ => bind_eq_ok.2 ⟨_, Expr.ofValue_of_spelledBy _ hleft, ?_⟩
      exact Object.get_bind get2 fun _ => bind_eq_ok.2 ⟨_, Expr.ofValue_of_spelledBy _ hright, rfl⟩
    refine bind_eq_ok.2 ⟨_, Value.node_of_heads head, ?_⟩
    simp only [Object.kind_ofMembers, ExprKind.ofName?_eq_some.2 rfl]
    cases op with
    | illegal code => cases kind
    | _ =>
      obtain rfl := Option.some.inj kind
      exact bind_eq_ok.2 ⟨_, hoperands, rfl⟩
  | print head get harg =>
    refine bind_eq_ok.2 ⟨_, Value.node_of_heads head, ?_⟩
    simp only [Object.kind_ofMembers, ExprKind.ofName?_eq_some.2 rfl]
    exact Object.get_bind get fun _ => bind_eq_ok.2 ⟨_, Expr.ofValue_of_spelledBy _ harg, rfl⟩
termination_by sizeOf e

theorem Expr.ofValues_of_allSpelledBy (path : Path) (i : ℕ) {ws : List Value} {es : List Expr}
    (h : Expr.AllSpelledBy es ws) : Expr.ofValues path i ws = .ok es := by
  cases h with
  | nil => rw [Expr.ofValues]
  | cons head tail =>
    rw [Expr.ofValues]
    refine bind_eq_ok.2 ⟨_, Expr.ofValue_of_spelledBy _ head, ?_⟩
    exact bind_eq_ok.2 ⟨_, Expr.ofValues_of_allSpelledBy path (i + 1) tail, rfl⟩
termination_by sizeOf es

end

theorem Object.expr_of_spelledBy {v : Value} {o : Object v} {name : String} {w : Value} {e : Expr}
    (hget : o.members.get? name = some w) (h : e.SpelledBy w) : o.expr name = .ok e :=
  Object.expr_eq_ok.2 ⟨w, hget, Expr.ofValue_of_spelledBy _ h⟩

mutual

theorem Decl.ofValue_of_spelledBy (path : Path) {v : Value} {d : Decl} (h : d.SpelledBy v) :
    Decl.ofValue path v = .ok d := by
  rw [Decl.ofValue]
  cases h with
  | var head hname get hvalue =>
    refine bind_eq_ok.2 ⟨_, Value.node_of_heads head, ?_⟩
    simp only [Object.kind_ofMembers, DeclKind.ofName?_eq_some.2 rfl]
    refine bind_eq_ok.2 ⟨_, Object.string_eq_ok.2 hname, ?_⟩
    exact bind_eq_ok.2 ⟨_, Object.expr_of_spelledBy get hvalue, rfl⟩
  | func head hname hparams unplaced items hdecls get hbody =>
    refine bind_eq_ok.2 ⟨_, Value.node_of_heads head, ?_⟩
    simp only [Object.kind_ofMembers, DeclKind.ofName?_eq_some.2 rfl]
    refine bind_eq_ok.2 ⟨_, Object.string_eq_ok.2 hname, Object.list_bind hparams fun _ => ?_⟩
    refine bind_eq_ok.2 ⟨_, paramsOfValues_eq_ok.2 ⟨rfl, unplaced⟩, Object.list_bind items fun _ => ?_⟩
    refine bind_eq_ok.2 ⟨_, Decl.ofValues_of_allSpelledBy _ 0 hdecls, ?_⟩
    exact bind_eq_ok.2 ⟨_, Object.expr_of_spelledBy get hbody, rfl⟩
termination_by sizeOf d

theorem Decl.ofValues_of_allSpelledBy (path : Path) (i : ℕ) {ws : List Value} {ds : List Decl}
    (h : Decl.AllSpelledBy ds ws) : Decl.ofValues path i ws = .ok ds := by
  cases h with
  | nil => rw [Decl.ofValues]
  | cons head tail =>
    rw [Decl.ofValues]
    refine bind_eq_ok.2 ⟨_, Decl.ofValue_of_spelledBy _ head, ?_⟩
    exact bind_eq_ok.2 ⟨_, Decl.ofValues_of_allSpelledBy path (i + 1) tail, rfl⟩
termination_by sizeOf ds

end

/-- **Spelling.** Reading a value gives a tree exactly if the value spells it. -/
theorem Root.ofValue_eq_ok {v : Value} {r : Root} : Root.ofValue v = .ok r ↔ r.SpelledBy v := by
  refine ⟨Root.spelledBy_of_ofValue, fun h => ?_⟩
  rw [Root.ofValue]
  cases h with
  | letIn head items hdecls get hbody =>
    refine bind_eq_ok.2 ⟨_, Value.node_of_heads head, ?_⟩
    simp only [Object.kind_ofMembers, RootKind.ofName?_eq_some.2 rfl]
    refine Object.list_bind items fun _ => bind_eq_ok.2 ⟨_, Decl.ofValues_of_allSpelledBy _ 0 hdecls, ?_⟩
    exact bind_eq_ok.2 ⟨_, Object.expr_of_spelledBy get hbody, rfl⟩
  | bare head get hbody =>
    refine bind_eq_ok.2 ⟨_, Value.node_of_heads head, ?_⟩
    simp only [Object.kind_ofMembers, RootKind.ofName?_eq_some.2 rfl]
    exact bind_eq_ok.2 ⟨_, Object.expr_of_spelledBy get hbody, rfl⟩

end LetStack

/-
The canonical form of a value.

Many values spell one tree: members that no kind has are not looked at, lists may be left out, a column may stand without
a line, a zero may have a sign. Writing the tree gives one of these values. `Value.canonical` says which one, without any
tree: a table of the members of each kind tells what of an object is kept, and what is filled in.

Results:
- `Value.canonicalAs_canonicalAs`: the canonical form of a canonical form is itself, for all values;
- `Root.SpelledBy.toValue`: a tree is written as the canonical form of each value that spells it;
- `written_form_of_a_read_value_is_canonical`.
-/
import LetStack.Proofs.Conversion

namespace LetStack

/-! ## The table -/

/-- what a member holds -/
inductive Content where
  /-- a name, a number or a flag -/
  | plain
  /-- names, none if the member is left out -/
  | names
  | entry
  | node
  /-- nodes, none if the member is left out -/
  | nodes
deriving DecidableEq

/-- what stands for a member that is left out -/
def Content.default? : Content → Option Value
  | .names | .nodes => some (.list [])
  | .plain | .entry | .node => none

/-- the members of an object that are kept, and what they hold -/
abbrev Fields := List (String × Content)

/-- the members of a node of each kind, besides kind, line and col -/
def fieldsOfKind : List (String × Fields) :=
  [("letin", [("decls", .nodes), ("body", .node)]),
    ("prog", [("body", .node)]),
    ("fun", [("name", .plain), ("params", .names), ("decls", .nodes), ("body", .node)]),
    ("var", [("name", .plain), ("value", .node)]),
    ("int", [("value", .plain)]),
    ("bool", [("value", .plain)]),
    ("id", [("name", .plain), ("level", .plain), ("entry", .entry)]),
    ("call", [("name", .plain), ("level", .plain), ("entry", .entry), ("args", .nodes)]),
    ("if", [("cond", .node), ("then", .node), ("else", .node)]),
    ("eq", [("left", .node), ("right", .node)]),
    ("plus", [("left", .node), ("right", .node)]),
    ("times", [("left", .node), ("right", .node)]),
    ("print", [("exp", .node)])]

def fieldsOfEntry : Fields := [("level", .plain), ("offset", .plain)]

/-! ## The form -/

namespace Value

/-- a zero loses its sign -/
def unsignedZero : Value → Value
  | .number x => if x.magnitude = 0 then .number (.zero false) else .number x
  | v => v

/-- a number above zero -/
def isPositive : Value → Bool
  | .number x => !x.negative && x.magnitude != 0 && !x.isNaN
  | _ => false

end Value

namespace Members

/-- the kind of a node, and the members that it keeps -/
def kind? (ms : Members) : Option (String × Fields) :=
  match ms.get? "kind" with
  | some (.string kind) => (fieldsOfKind.lookup kind).map fun fields => (kind, fields)
  | _ => none

/-- line and col, kept together if there is a positive line; a program that is an expression has none -/
def position (kind : String) (ms : Members) : List (String × Value) :=
  match ms.get? "line" with
  | some line =>
    if kind ≠ "prog" ∧ line.isPositive then
      [("line", line.unsignedZero), ("col", ((ms.get? "col").getD (.number (.zero false))).unsignedZero)]
    else []
  | none => []

/-- the members with these names, in this order, or what stands for them -/
def pick (fields : Fields) (ms : Members) : List (String × Value) :=
  fields.filterMap fun f => ((ms.get? f.1).or f.2.default?).map fun w => (f.1, w)

end Members

mutual

/-- the canonical form of a value that holds `c` -/
def Value.canonicalAs (c : Content) : Value → Value
  | .object ms =>
    match c with
    | .node =>
      match Members.kind? ms with
      | some (kind, fields) =>
        .ofMembers ([("kind", .string kind)] ++ Members.position kind ms
          ++ Members.pick fields (Members.canonical fields ms))
      | none => .object ms
    | .entry => .ofMembers (Members.pick fieldsOfEntry (Members.canonical fieldsOfEntry ms))
    | _ => .object ms
  | .list ws =>
    match c with
    | .nodes => .list (Value.canonicalItems ws)
    | _ => .list ws
  | v =>
    match c with
    | .plain => v.unsignedZero
    | _ => v

/-- each member in its canonical form; one that is not kept is as it was -/
def Members.canonical (fields : Fields) : Members → Members
  | [] => []
  | (name, w) :: rest =>
    (name, match fields.lookup name with | some c => w.canonicalAs c | none => w) :: Members.canonical fields rest

def Value.canonicalItems : List Value → List Value
  | [] => []
  | w :: ws => w.canonicalAs .node :: Value.canonicalItems ws

end

/-- the canonical form of a value that may be a tree -/
def Value.canonical (v : Value) : Value := v.canonicalAs .node

/-! ## Members of canonical forms -/

namespace Members

/-- the canonical form of a member -/
def canonicalMember (fields : Fields) (name : String) (w : Value) : Value :=
  match fields.lookup name with
  | some c => w.canonicalAs c
  | none => w

theorem get?_canonical (fields : Fields) (ms : Members) (name : String) :
    (canonical fields ms).get? name = (ms.get? name).map (canonicalMember fields name) := by
  induction ms with
  | nil => rfl
  | cons m ms ih =>
    obtain ⟨k, w⟩ := m
    rw [canonical, get?_cons, get?_cons, ih]
    split_ifs with h
    · rw [h]
      rfl
    · rfl

end Members

/-! ## Numbers -/

namespace Binary64

theorem absolute_eq_zero_iff (x : Binary64) : x.absolute = 0 ↔ x.magnitude = 0 := by
  have hpower : (2 : ℚ) ^ x.exponent ≠ 0 := zpow_ne_zero _ two_ne_zero
  obtain ⟨-, hleast, hdigits⟩ := x.significand_bounds
  rw [absolute, mul_eq_zero, or_iff_left hpower, Nat.cast_eq_zero, magnitude_eq]
  constructor
  · intro h
    have hexponent : x.exponent = -1074 := by
      by_contra hne
      have := hdigits (lt_of_le_of_ne hleast (Ne.symm hne))
      omega
    rw [h, hexponent]
    rfl
  · exact Nat.eq_zero_of_add_eq_zero_left

/-- an integer is written as it was read, but for the sign of a zero -/
theorem ofInt_eq {x : Binary64} (hx : x.isFinite = true) {n : ℤ} (hn : x.value = n) :
    ofInt n = if x.magnitude = 0 then zero false else x := by
  obtain ⟨k, hk, rfl⟩ := (x.value_eq_intCast_iff n).1 hn
  have hzero : x.magnitude = 0 ↔ k = 0 := by rw [← x.absolute_eq_zero_iff, hk, Nat.cast_eq_zero]
  by_cases h : k = 0
  · rw [if_pos (hzero.2 h), h, Nat.cast_zero, neg_zero, ite_self]
    rfl
  · rw [if_neg (fun h' => h (hzero.1 h')), ofInt]
    have hsign : decide ((if x.negative = true then -(k : ℤ) else k) < 0) = x.negative := by
      cases x.negative with
      | false => exact decide_eq_false (by simp)
      | true => exact decide_eq_true (by rw [if_pos rfl]; omega)
    have habs : (if x.negative = true then -(k : ℤ) else k).natAbs = k := by
      cases x.negative with
      | false => rfl
      | true => exact Int.natAbs_neg k
    rw [hsign, habs]
    exact nearest_eq hx Nat.one_pos (by rw [hk, Nat.cast_one, div_one])

theorem isPositive_iff {x : Binary64} (hx : x.isFinite = true) {n : ℤ} (hn : x.value = n) :
    (Value.number x).isPositive = true ↔ 0 < n := by
  obtain ⟨k, hk, rfl⟩ := (x.value_eq_intCast_iff n).1 hn
  have hzero : x.magnitude = 0 ↔ k = 0 := by rw [← x.absolute_eq_zero_iff, hk, Nat.cast_eq_zero]
  have hnumber : x.isNaN = false := decide_eq_false (Nat.not_lt.2 (Nat.le_of_lt (of_decide_eq_true hx)))
  rw [Value.isPositive, hnumber, Bool.not_false, Bool.and_true, Bool.and_eq_true, bne_iff_ne, Ne, hzero]
  cases x.negative with
  | false =>
    rw [if_neg Bool.false_ne_true, Int.natCast_pos, Nat.pos_iff_ne_zero]
    exact and_iff_right rfl
  | true =>
    rw [if_pos rfl]
    exact iff_of_false (fun h => nomatch h.1) (by omega)

end Binary64

/-! ## Written members -/

theorem Value.Denotes.unsignedZero {v : Value} {n : ℤ} (h : v.Denotes n) : v.unsignedZero = .number (.ofInt n) := by
  obtain ⟨x, rfl, hfinite, hn⟩ := h
  rw [Binary64.ofInt_eq hfinite hn, Value.unsignedZero]
  split_ifs <;> rfl

theorem Value.Denotes.canonicalAs {v : Value} {n : ℤ} (h : v.Denotes n) :
    v.canonicalAs .plain = .number (.ofInt n) := by
  rw [← h.unsignedZero]
  obtain ⟨x, rfl, -, -⟩ := h
  rfl

namespace Members

variable {ms : Members} {fields : Fields} {name : String} {c : Content} {w : Value}

@[simp] theorem pick_nil (ms : Members) : pick [] ms = [] := rfl

theorem pick_cons (h : (ms.get? name).or c.default? = some w) :
    pick ((name, c) :: fields) ms = (name, w) :: pick fields ms := by
  rw [pick, List.filterMap_cons, h]
  rfl

/-- a member that is there -/
theorem canonical_get (hname : fields.lookup name = some c) (h : ms.get? name = some w) :
    ((canonical fields ms).get? name).or c.default? = some (w.canonicalAs c) := by
  rw [get?_canonical, h, Option.map_some, canonicalMember, hname]
  rfl

/-- a list, which may have been left out -/
theorem canonical_items {ws : List Value} (hname : fields.lookup name = some c) (hlist : c = .names ∨ c = .nodes)
    (h : ms.items? name = some ws) :
    ((canonical fields ms).get? name).or c.default? = some ((Value.list ws).canonicalAs c) := by
  rw [items?] at h
  split at h
  · next hget =>
    rw [get?_canonical, hget, ← Option.some.inj h]
    rcases hlist with rfl | rfl <;> rfl
  · next hget =>
    rw [canonical_get hname hget, Option.some.inj h]
  · cases h

/-- line and col of a node are kept as they are written -/
theorem Heads.position {kind : String} {pos : Position} (h : ms.Heads kind pos) (hkind : kind ≠ "prog") :
    ms.position kind =
      if pos.isKnown then
        [("line", .number (Binary64.ofInt pos.line.toInt)), ("col", .number (Binary64.ofInt pos.col.toInt))]
      else [] := by
  have hknown : pos.isKnown = true ↔ 0 < pos.line.toInt := by
    rw [Position.isKnown, decide_eq_true_eq, Int32.lt_iff_toInt_lt]
    rfl
  rw [Members.position]
  rcases h.line with ⟨hnone, hzero⟩ | ⟨line, hline, hdenotes, -⟩
  · rw [hnone, if_neg (by rw [hknown, hzero]; decide)]
  · have hpositive : line.isPositive = pos.isKnown := by
      rw [Bool.eq_iff_iff, hknown]
      obtain ⟨x, rfl, hfinite, hvalue⟩ := hdenotes
      exact Binary64.isPositive_iff hfinite hvalue
    have hcol : ((ms.get? "col").getD (.number (.zero false))).unsignedZero =
        .number (Binary64.ofInt pos.col.toInt) := by
      rcases h.col with ⟨hnone, hzero⟩ | ⟨col, hcol, hdenotes', -⟩
      · rw [hnone, hzero]
        rfl
      · rw [hcol]
        exact hdenotes'.unsignedZero
    simp only [hline, hpositive, hcol, hdenotes.unsignedZero, hkind, ne_eq, not_false_eq_true, true_and]

end Members

/-- the canonical form of a node is written from its kind, its position and the members that its kind keeps -/
theorem Members.Heads.canonicalAs {ms : Members} {kind : String} {pos : Position} (h : ms.Heads kind pos)
    {fields : Fields} (hfields : fieldsOfKind.lookup kind = some fields) (hkind : kind ≠ "prog") :
    (Value.object ms).canonicalAs .node =
      .ofNode kind pos (Members.pick fields (Members.canonical fields ms)) := by
  rw [Value.canonicalAs]
  simp only [Members.kind?, h.kind, hfields, Option.map_some, h.position hkind]
  rfl

/-- the canonical form of an entry -/
theorem Entry.SpelledBy.canonicalAs {e : Entry} {es : Members} (h : e.SpelledBy es) :
    (Value.object es).canonicalAs .entry = e.toValue := by
  obtain ⟨w1, hget1, hlevel, -⟩ := h.level
  obtain ⟨w2, hget2, hoffset, -⟩ := h.offset
  rw [Value.canonicalAs, fieldsOfEntry, Members.pick_cons (Members.canonical_get rfl hget1),
    Members.pick_cons (Members.canonical_get rfl hget2), hlevel.canonicalAs, hoffset.canonicalAs]
  rfl

/-! ## Written trees -/

mutual

/-- an expression is written as the canonical form of what spells it -/
theorem Expr.SpelledBy.toValue {e : Expr} {v : Value} (h : e.SpelledBy v) : e.toValue = .ok (v.canonicalAs .node) := by
  cases h with
  | int head value =>
    obtain ⟨w, hget, hdenotes, -⟩ := value
    rw [head.canonicalAs rfl (by decide), Members.pick_cons (Members.canonical_get rfl hget), hdenotes.canonicalAs]
    rfl
  | bool head value =>
    rw [head.canonicalAs rfl (by decide), Members.pick_cons (Members.canonical_get rfl value)]
    rfl
  | ident head reference =>
    obtain ⟨hname, ⟨w, hget, hdenotes, -⟩, e, es, hentry, hget', he⟩ := reference
    rw [head.canonicalAs rfl (by decide), Members.pick_cons (Members.canonical_get rfl hname),
      Members.pick_cons (Members.canonical_get rfl hget), Members.pick_cons (Members.canonical_get rfl hget'),
      hdenotes.canonicalAs, he.canonicalAs]
    simp only [Expr.toValue, Reference.toMembers, hentry]
    rfl
  | call head reference items hargs =>
    obtain ⟨hname, ⟨w, hget, hdenotes, -⟩, e, es, hentry, hget', he⟩ := reference
    rw [head.canonicalAs rfl (by decide), Members.pick_cons (Members.canonical_get rfl hname),
      Members.pick_cons (Members.canonical_get rfl hget), Members.pick_cons (Members.canonical_get rfl hget'),
      Members.pick_cons (Members.canonical_items rfl (Or.inr rfl) items), hdenotes.canonicalAs, he.canonicalAs,
      Expr.toValue, Expr.AllSpelledBy.toValues hargs]
    simp only [Reference.toMembers, hentry]
    rfl
  | cond head get1 htest get2 hyes get3 hno =>
    rw [head.canonicalAs rfl (by decide), Members.pick_cons (Members.canonical_get rfl get1),
      Members.pick_cons (Members.canonical_get rfl get2), Members.pick_cons (Members.canonical_get rfl get3),
      Expr.toValue, Expr.SpelledBy.toValue htest, Expr.SpelledBy.toValue hyes, Expr.SpelledBy.toValue hno]
    rfl
  | @binary ms pos op k w1 w2 left right kind head get1 hleft get2 hright =>
    have hfields : fieldsOfKind.lookup k.name = some [("left", .node), ("right", .node)] ∧ k.name ≠ "prog" := by
      cases op with
      | illegal code => cases kind
      | _ =>
        obtain rfl := Option.some.inj kind
        exact ⟨rfl, by decide⟩
    rw [head.canonicalAs hfields.1 hfields.2, Members.pick_cons (Members.canonical_get rfl get1),
      Members.pick_cons (Members.canonical_get rfl get2), Expr.toValue, Expr.SpelledBy.toValue hleft,
      Expr.SpelledBy.toValue hright, kind]
    rfl
  | print head get harg =>
    rw [head.canonicalAs rfl (by decide), Members.pick_cons (Members.canonical_get rfl get), Expr.toValue,
      Expr.SpelledBy.toValue harg]
    rfl
termination_by sizeOf e

theorem Expr.AllSpelledBy.toValues {es : List Expr} {ws : List Value} (h : Expr.AllSpelledBy es ws) :
    Expr.toValues es = .ok (Value.canonicalItems ws) := by
  cases h with
  | nil => rfl
  | cons head tail =>
    rw [Expr.toValues, Expr.SpelledBy.toValue head, Expr.AllSpelledBy.toValues tail]
    rfl
termination_by sizeOf es

end

mutual

theorem Decl.SpelledBy.toValue {d : Decl} {v : Value} (h : d.SpelledBy v) : d.toValue = .ok (v.canonicalAs .node) := by
  cases h with
  | var head hname get hvalue =>
    rw [head.canonicalAs rfl (by decide), Members.pick_cons (Members.canonical_get rfl hname),
      Members.pick_cons (Members.canonical_get rfl get), Decl.toValue, hvalue.toValue]
    rfl
  | func head hname hparams unplaced items hdecls get hbody =>
    rw [head.canonicalAs rfl (by decide), Members.pick_cons (Members.canonical_get rfl hname),
      Members.pick_cons (Members.canonical_items rfl (Or.inl rfl) hparams),
      Members.pick_cons (Members.canonical_items rfl (Or.inr rfl) items),
      Members.pick_cons (Members.canonical_get rfl get), Decl.toValue, Decl.AllSpelledBy.toValues hdecls, hbody.toValue]
    rfl
termination_by sizeOf d

theorem Decl.AllSpelledBy.toValues {ds : List Decl} {ws : List Value} (h : Decl.AllSpelledBy ds ws) :
    Decl.toValues ds = .ok (Value.canonicalItems ws) := by
  cases h with
  | nil => rfl
  | cons head tail =>
    rw [Decl.toValues, Decl.SpelledBy.toValue head, Decl.AllSpelledBy.toValues tail]
    rfl
termination_by sizeOf ds

end

/-- **Writing.** A tree is written as the canonical form of each value that spells it. -/
theorem Root.SpelledBy.toValue {r : Root} {v : Value} (h : r.SpelledBy v) : r.toValue = .ok v.canonical := by
  cases h with
  | letIn head items hdecls get hbody =>
    rw [Value.canonical, head.canonicalAs rfl (by decide), Members.pick_cons (Members.canonical_items rfl (Or.inr rfl) items),
      Members.pick_cons (Members.canonical_get rfl get), Root.toValue, hdecls.toValues, hbody.toValue]
    rfl
  | @bare ms pos w body head get hbody =>
    -- the position, if there is one, is neither read nor kept
    have hposition : ms.position "prog" = [] := by
      rw [Members.position]
      split <;> simp
    have hkind : ms.kind? = some ("prog", [("body", .node)]) := by
      rw [Members.kind?, head.kind]
      rfl
    rw [Value.canonical, Value.canonicalAs]
    simp only [hkind, hposition]
    rw [Members.pick_cons (Members.canonical_get rfl get), Root.toValue, hbody.toValue]
    rfl

/-! ## Once is enough -/

theorem Value.unsignedZero_unsignedZero (v : Value) : v.unsignedZero.unsignedZero = v.unsignedZero := by
  cases v with
  | number x =>
    rw [Value.unsignedZero]
    split_ifs with h
    · rfl
    · rw [Value.unsignedZero, if_neg h]
  | _ => rfl

theorem Value.unsignedZero_of_isPositive {v : Value} (h : v.isPositive = true) : v.unsignedZero = v := by
  cases v with
  | number x =>
    have hmagnitude : x.magnitude ≠ 0 := by
      rintro h0
      simp [Value.isPositive, h0] at h
    rw [Value.unsignedZero, if_neg hmagnitude]
  | _ => rfl

/-- members that are told apart by their names, and from kind, line and col -/
structure Fields.IsProper (fields : Fields) : Prop where
  nodup : (fields.map Prod.fst).Nodup
  lookup : ∀ f ∈ fields, fields.lookup f.1 = some f.2
  own : ∀ f ∈ fields, f.1 ≠ "kind" ∧ f.1 ≠ "line" ∧ f.1 ≠ "col"

theorem isProper_fieldsOfEntry : Fields.IsProper fieldsOfEntry := ⟨by decide, by decide, by decide⟩

theorem isProper_fieldsOfKind {kind : String} {fields : Fields} (h : fieldsOfKind.lookup kind = some fields) :
    fields.IsProper := by
  obtain ⟨before, after, hsplit, -⟩ := List.lookup_eq_some_iff.1 h
  have hmem : (kind, fields) ∈ fieldsOfKind := by simp [hsplit]
  have hnodup : ∀ k ∈ fieldsOfKind, (k.2.map Prod.fst).Nodup := by decide
  have hlookup : ∀ k ∈ fieldsOfKind, ∀ f ∈ k.2, k.2.lookup f.1 = some f.2 := by decide
  have hown : ∀ k ∈ fieldsOfKind, ∀ f ∈ k.2, f.1 ≠ "kind" ∧ f.1 ≠ "line" ∧ f.1 ≠ "col" := by decide
  exact ⟨hnodup _ hmem, hlookup _ hmem, hown _ hmem⟩

namespace Members

theorem get?_pick_of_not_mem {fields : Fields} {name : String} (h : ∀ f ∈ fields, f.1 ≠ name) (ms : Members) :
    get? (pick fields ms) name = none := by
  induction fields with
  | nil => rfl
  | cons f fields ih =>
    obtain ⟨hf, hfields⟩ := List.forall_mem_cons.1 h
    rw [pick, List.filterMap_cons]
    cases (ms.get? f.1).or f.2.default? with
    | none => exact ih hfields
    | some w =>
      rw [Option.map_some, get?_cons, if_neg (Ne.symm hf)]
      exact ih hfields

theorem get?_pick {fields : Fields} (hnodup : (fields.map Prod.fst).Nodup) {f : String × Content} (hf : f ∈ fields)
    (ms : Members) : get? (pick fields ms) f.1 = (ms.get? f.1).or f.2.default? := by
  induction fields with
  | nil => cases hf
  | cons g fields ih =>
    rw [List.map_cons, List.nodup_cons] at hnodup
    have hother : ∀ f ∈ fields, f.1 ≠ g.1 := fun f hf heq => hnodup.1 (heq ▸ List.mem_map_of_mem hf)
    rw [pick, List.filterMap_cons]
    rcases List.mem_cons.1 hf with rfl | hf
    · cases (ms.get? f.1).or f.2.default? with
      | none => exact get?_pick_of_not_mem hother ms
      | some w => rw [Option.map_some, get?_cons, if_pos rfl]
    · cases (ms.get? g.1).or g.2.default? with
      | none => exact ih hnodup.2 hf
      | some w =>
        rw [Option.map_some, get?_cons, if_neg (hother f hf)]
        exact ih hnodup.2 hf

/-- picking from what was picked gives the same, if the members are canonical already -/
theorem pick_canonical_of_picked {fields : Fields} (hfields : fields.IsProper) {ms ms' : Members}
    (honce : ∀ name w, ms.get? name = some w → ∀ c, (w.canonicalAs c).canonicalAs c = w.canonicalAs c)
    (hpicked : ∀ f ∈ fields, ms'.get? f.1 = get? (pick fields (canonical fields ms)) f.1) :
    pick fields (canonical fields ms') = pick fields (canonical fields ms) := by
  refine List.filterMap_congr fun f hf => ?_
  have hmember : canonicalMember fields f.1 = Value.canonicalAs f.2 := by
    funext w
    rw [canonicalMember, hfields.lookup f hf]
  rw [get?_canonical, hpicked f hf, get?_pick hfields.nodup hf, get?_canonical, hmember]
  cases hget : ms.get? f.1 with
  | some w => simp only [Option.map_some, Option.some_or, honce f.1 w hget]
  | none =>
    rw [Option.map_none, Option.none_or]
    cases f.2 <;> rfl

theorem get?_append (as bs : Members) (name : String) : get? (as ++ bs) name = (get? as name).or (get? bs name) :=
  List.lookup_append

theorem get?_position_of_ne (kind : String) (ms : Members) {name : String} (hline : name ≠ "line")
    (hcol : name ≠ "col") : get? (ms.position kind) name = none := by
  rw [position]
  split
  · split_ifs
    · simp [get?, hline, hcol]
    · rfl
  · rfl

/-- line and col are kept as they were kept -/
theorem position_of_kept {kind : String} {ms ms' : Members}
    (hline : ms'.get? "line" = get? (ms.position kind) "line")
    (hcol : ms'.get? "col" = get? (ms.position kind) "col") : ms'.position kind = ms.position kind := by
  rw [position, hline]
  cases hline' : ms.get? "line" with
  | none =>
    have hnone : ms.position kind = [] := by rw [position, hline']
    rw [hnone]
    rfl
  | some line =>
    by_cases hkept : kind ≠ "prog" ∧ line.isPositive
    · have hsome : ms.position kind = [("line", line.unsignedZero),
          ("col", ((ms.get? "col").getD (.number (.zero false))).unsignedZero)] := by
        simp only [position, hline', if_pos hkept]
      rw [hsome] at hcol ⊢
      have hcol' : ms'.get? "col" = some ((ms.get? "col").getD (.number (.zero false))).unsignedZero := hcol
      have hget : get? [("line", line.unsignedZero),
          ("col", ((ms.get? "col").getD (.number (.zero false))).unsignedZero)] "line" = some line := by
        rw [Value.unsignedZero_of_isPositive hkept.2]
        rfl
      rw [hget, hcol']
      simp only [if_pos hkept, Option.getD_some, Value.unsignedZero_unsignedZero]
    · have hnone : ms.position kind = [] := by simp only [position, hline', if_neg hkept]
      rw [hnone]
      rfl

end Members

theorem Members.kind?_eq_some {ms : Members} {kind : String} {fields : Fields} :
    ms.kind? = some (kind, fields) ↔
      ms.get? "kind" = some (.string kind) ∧ fieldsOfKind.lookup kind = some fields := by
  rw [Members.kind?]
  constructor
  · intro h
    split at h
    · next kind' hkind =>
      obtain ⟨fields', hlookup, heq⟩ := Option.map_eq_some_iff.1 h
      obtain ⟨rfl, rfl⟩ := Prod.mk.inj heq
      exact ⟨hkind, hlookup⟩
    · cases h
  · rintro ⟨hkind, hlookup⟩
    simp only [hkind, hlookup, Option.map_some]

/-- a node whose members are canonical already once they have been picked -/
theorem Value.canonicalAs_of_kind? {ms : Members} {kind : String} {fields : Fields}
    (hkind : ms.kind? = some (kind, fields))
    (honce : ∀ name w, ms.get? name = some w → ∀ c, (w.canonicalAs c).canonicalAs c = w.canonicalAs c) :
    ((Value.object ms).canonicalAs .node).canonicalAs .node = (Value.object ms).canonicalAs .node := by
  obtain ⟨-, hlookup⟩ := Members.kind?_eq_some.1 hkind
  have hproper := isProper_fieldsOfKind hlookup
  have hform : ∀ ms' : Members, ms'.kind? = some (kind, fields) → (Value.object ms').canonicalAs .node =
      .ofMembers ([("kind", .string kind)] ++ ms'.position kind ++ Members.pick fields (Members.canonical fields ms')) := by
    intro ms' h
    simp only [Value.canonicalAs, h]
  rw [hform ms hkind, Value.ofMembers]
  set kept := Members.ofList ([("kind", .string kind)] ++ ms.position kind
    ++ Members.pick fields (Members.canonical fields ms)) with hkept
  have hget : ∀ name, name ≠ "kind" → kept.get? name =
      (Members.get? (ms.position kind) name).or (Members.get? (Members.pick fields (Members.canonical fields ms)) name) := by
    intro name hname
    rw [hkept, Members.get?_ofList, List.append_assoc, List.singleton_append, Members.get?_cons, if_neg hname,
      Members.get?_append]
  have hposition : ∀ name, name ≠ "kind" → (∀ f ∈ fields, f.1 ≠ name) →
      kept.get? name = Members.get? (ms.position kind) name := by
    intro name hname hother
    rw [hget name hname, Members.get?_pick_of_not_mem hother, Option.or_none]
  have hkind' : kept.kind? = some (kind, fields) := by
    refine Members.kind?_eq_some.2 ⟨?_, hlookup⟩
    rw [hkept, Members.get?_ofList]
    rfl
  rw [hform kept hkind', Members.pick_canonical_of_picked hproper honce, Members.position_of_kept]
  · rfl
  · exact hposition "line" (by decide) fun f hf => (hproper.own f hf).2.1
  · exact hposition "col" (by decide) fun f hf => (hproper.own f hf).2.2
  · intro f hf
    obtain ⟨hk, hl, hc⟩ := hproper.own f hf
    rw [hget f.1 hk, Members.get?_position_of_ne kind ms hl hc, Option.none_or]

mutual

/-- **The canonical form of a canonical form is itself.** -/
theorem Value.canonicalAs_canonicalAs (c : Content) (v : Value) :
    (v.canonicalAs c).canonicalAs c = v.canonicalAs c := by
  cases v with
  | object ms =>
    have honce := fun name w h => Members.canonicalAs_of_get? ms name w h
    cases c with
    | node =>
      cases hkind : Members.kind? ms with
      | none => simp only [Value.canonicalAs, hkind]
      | some k => exact Value.canonicalAs_of_kind? hkind honce
    | entry =>
      rw [Value.canonicalAs, Value.ofMembers, Value.canonicalAs]
      rw [Members.pick_canonical_of_picked isProper_fieldsOfEntry honce fun f _ => Members.get?_ofList _ _]
      rfl
    | _ => rfl
  | list ws =>
    cases c with
    | nodes => exact congrArg Value.list (Value.canonicalItems_canonicalItems ws)
    | _ => rfl
  | number x =>
    cases c with
    | plain =>
      have hplain : ∀ x : Binary64, (Value.number x).canonicalAs .plain = (Value.number x).unsignedZero := fun _ => rfl
      rw [hplain, Value.unsignedZero]
      split_ifs with h
      · rfl
      · rw [hplain, Value.unsignedZero, if_neg h]
    | _ => rfl
  | _ => cases c <;> rfl

theorem Members.canonicalAs_of_get? (ms : Members) (name : String) (w : Value) (h : ms.get? name = some w)
    (c : Content) : (w.canonicalAs c).canonicalAs c = w.canonicalAs c := by
  cases ms with
  | nil => cases h
  | cons m ms =>
    obtain ⟨k, w'⟩ := m
    rw [Members.get?_cons] at h
    split_ifs at h
    · obtain rfl := Option.some.inj h
      exact Value.canonicalAs_canonicalAs c w'
    · exact Members.canonicalAs_of_get? ms name w h c

theorem Value.canonicalItems_canonicalItems (ws : List Value) :
    Value.canonicalItems (Value.canonicalItems ws) = Value.canonicalItems ws := by
  cases ws with
  | nil => rfl
  | cons w ws =>
    simp only [Value.canonicalItems, Value.canonicalAs_canonicalAs .node w, Value.canonicalItems_canonicalItems ws]

end

/-- **Reading and writing again gives the canonical form.** Of every value that is read, the tree is written as the
canonical form of the value. Canonical forms are their own canonical forms, and that of a value that is read is read
too, and then written unchanged. -/
theorem written_form_of_a_read_value_is_canonical {v : Value} {r : Root} (h : Root.ofValue v = .ok r) :
    r.toValue = .ok v.canonical ∧ (∀ w : Value, w.canonical.canonical = w.canonical) ∧
      ∃ r', Root.ofValue v.canonical = .ok r' ∧ r'.toValue = .ok v.canonical := by
  have hwritten : r.toValue = .ok v.canonical := (Root.ofValue_eq_ok.1 h).toValue
  have hreadable := r.isReadable_iff.1 ⟨v, h⟩
  refine ⟨hwritten, Value.canonicalAs_canonicalAs .node, r.normal, ?_, ?_⟩
  · exact (r.gives_ofValue hwritten).eq_ok fun n hn => (hreadable n hn).fits
  · rw [r.toValue_normal, hwritten]

/-- a call as others may write it: a column without a line, a line without a column, signed zeros, no lists, and members
that mean nothing -/
def untidyValue : Value :=
  .ofMembers [("kind", .string "letin"), ("col", .ofInt64 7), ("note", .null),
    ("body", .ofMembers [("kind", .string "call"), ("line", .ofInt64 3), ("name", .string "f"), ("left", .bool true),
      ("level", .number (.zero true)),
      ("entry", .ofMembers [("kind", .bool true), ("level", .number (.zero true)), ("offset", .ofInt64 (-2))])])]

def tidyValue : Value :=
  .ofMembers [("kind", .string "letin"), ("decls", .list []),
    ("body", .ofMembers [("kind", .string "call"), ("line", .ofInt64 3), ("col", .ofInt64 0), ("name", .string "f"),
      ("level", .ofInt64 0), ("entry", .ofMembers [("level", .ofInt64 0), ("offset", .ofInt64 (-2))]),
      ("args", .list [])])]

theorem untidyValue_becomes_tidy : ∃ r, Root.ofValue untidyValue = .ok r ∧ r.toValue = .ok tidyValue ∧
    ∃ r', Root.ofValue tidyValue = .ok r' ∧ r'.toValue = .ok tidyValue := by
  have hnumber : ∀ (x : Binary64) (n : ℤ), x.toInt? = some n → (Value.number x).Denotes n := fun x n h =>
    ⟨x, rfl, (x.toInt?_eq_some_iff n).1 h⟩
  have hread : Root.ofValue untidyValue =
      .ok (.letIn ⟨0, 7⟩ [] (.call ⟨3, 0⟩ ⟨"f", 0, some ⟨0, -2⟩⟩ [])) := by
    refine Root.ofValue_eq_ok.2 (.letIn ⟨rfl, .inl ⟨rfl, rfl⟩, .inr ⟨_, rfl, hnumber _ _ ?_, ?_⟩⟩ rfl .nil rfl
      (.call ⟨rfl, .inr ⟨_, rfl, hnumber _ _ ?_, ?_⟩, .inl ⟨rfl, rfl⟩⟩
        ⟨rfl, ⟨_, rfl, hnumber _ _ ?_, ?_⟩, _, _, rfl, rfl, ⟨_, rfl, hnumber _ _ ?_, ?_⟩, ⟨_, rfl, hnumber _ _ ?_, ?_⟩⟩
        rfl .nil))
    all_goals decide +kernel
  have htidy : untidyValue.canonical = tidyValue := by cbv
  obtain ⟨hwritten, -, hagain⟩ := written_form_of_a_read_value_is_canonical hread
  rw [htidy] at hwritten hagain
  exact ⟨_, hread, hwritten, hagain⟩

end LetStack

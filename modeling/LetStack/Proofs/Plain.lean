/-
Plain values: those that every format can spell.

A plain value has finite numbers, no part that is not set, and objects whose keys rise. A reader that puts members in
order as it meets them finds the members of such an object in order already, and leaves them as they are
(`Members.insert_of_forall_lt`). The value of a tree is plain.

Results:
- `Members.insert_of_forall_lt`: a member with a greater key than all others goes to the end;
- `Root.isPlain_toValue`: a written tree is a plain value.
-/
import LetStack.Proofs.RoundTrip

namespace LetStack

namespace Members

/-! ## Order -/

/-- the keys rise -/
def Sorted (ms : Members) : Prop := ms.Pairwise fun m m' => m.1 < m'.1

theorem insert_of_forall_lt {ms : Members} {key : String} (h : ∀ m ∈ ms, m.1 < key) (v : Value) :
    insert key v ms = ms ++ [(key, v)] := by
  induction ms with
  | nil => rfl
  | cons m ms ih =>
    obtain ⟨k, w⟩ := m
    obtain ⟨hk, hms⟩ := List.forall_mem_cons.1 h
    rw [insert, if_neg (String.lt_asymm hk), if_neg (String.ne_of_lt hk).symm, ih hms]
    rfl

theorem contains_of_forall_lt {ms : Members} {key : String} (h : ∀ m ∈ ms, m.1 < key) : ms.contains key = false := by
  rw [contains, List.any_eq_false]
  intro m hm
  rw [beq_iff_eq]
  exact String.ne_of_lt (h m hm)

theorem eq_or_mem_of_mem_insert {ms : Members} {key : String} {v : Value} {m : String × Value}
    (h : m ∈ insert key v ms) : m = (key, v) ∨ m ∈ ms := by
  induction ms with
  | nil => exact .inl (List.mem_singleton.1 h)
  | cons n ms ih =>
    rw [insert] at h
    split_ifs at h with hlt heq
    · exact List.mem_cons.1 h
    · exact (List.mem_cons.1 h).imp_right (List.mem_cons_of_mem _)
    · rcases List.mem_cons.1 h with rfl | h
      · exact .inr List.mem_cons_self
      · exact (ih h).imp_right (List.mem_cons_of_mem _)

theorem sorted_insert {ms : Members} (h : ms.Sorted) (key : String) (v : Value) : (insert key v ms).Sorted := by
  induction ms with
  | nil => exact List.pairwise_singleton _ _
  | cons m ms ih =>
    obtain ⟨k, w⟩ := m
    obtain ⟨hk, hms⟩ := List.pairwise_cons.1 h
    rw [insert]
    split_ifs with hlt heq
    · exact List.pairwise_cons.2 ⟨List.forall_mem_cons.2 ⟨hlt, fun m hm => String.lt_trans hlt (hk m hm)⟩, h⟩
    · subst heq
      exact List.pairwise_cons.2 ⟨hk, hms⟩
    · have hgt : k < key := by
        by_contra hcon
        exact heq (String.le_antisymm (String.not_lt.1 hcon) (String.not_lt.1 hlt))
      refine List.pairwise_cons.2 ⟨fun m hm => ?_, ih hms⟩
      rcases eq_or_mem_of_mem_insert hm with rfl | hm
      · exact hgt
      · exact hk m hm

theorem sorted_ofList (ms : List (String × Value)) : (ofList ms).Sorted := by
  induction ms with
  | nil => exact List.Pairwise.nil
  | cons m ms ih => exact sorted_insert ih m.1 m.2

theorem mem_of_mem_ofList {ms : List (String × Value)} {m : String × Value} (h : m ∈ ofList ms) : m ∈ ms := by
  induction ms with
  | nil => exact h
  | cons n ms ih =>
    rcases eq_or_mem_of_mem_insert h with rfl | h
    · exact List.mem_cons_self
    · exact List.mem_cons_of_mem _ (ih h)

end Members

/-! ## Plain values -/

inductive Value.IsPlain : Value → Prop
  | null : Value.IsPlain .null
  | number {x : Binary64} (finite : x.isFinite = true) : Value.IsPlain (.number x)
  | string {s : String} : Value.IsPlain (.string s)
  | bool {b : Bool} : Value.IsPlain (.bool b)
  | object {ms : Members} (sorted : ms.Sorted) (plain : ∀ m ∈ ms, Value.IsPlain m.2) : Value.IsPlain (.object ms)
  | list {vs : List Value} (plain : ∀ v ∈ vs, Value.IsPlain v) : Value.IsPlain (.list vs)

namespace Value

theorem isPlain_ofMembers {ms : List (String × Value)} (h : ∀ m ∈ ms, m.2.IsPlain) : (ofMembers ms).IsPlain :=
  .object (Members.sorted_ofList ms) fun m hm => h m (Members.mem_of_mem_ofList hm)

theorem isPlain_ofInt64 (n : Int64) : (ofInt64 n).IsPlain := by
  have hbounds := And.intro n.le_toInt n.toInt_lt
  exact .number (Binary64.isFinite_ofInt (by omega))

theorem isPlain_ofNode (kind : String) (pos : Position) {members : List (String × Value)}
    (h : ∀ m ∈ members, m.2.IsPlain) : (ofNode kind pos members).IsPlain := by
  have hline := And.intro pos.line.le_toInt pos.line.toInt_lt
  have hcol := And.intro pos.col.le_toInt pos.col.toInt_lt
  apply isPlain_ofMembers
  refine List.forall_mem_append.2 ⟨List.forall_mem_append.2 ⟨List.forall_mem_singleton.2 .string, ?_⟩, h⟩
  split
  · refine List.forall_mem_cons.2 ⟨.number (Binary64.isFinite_ofInt (by omega)), ?_⟩
    exact List.forall_mem_singleton.2 (.number (Binary64.isFinite_ofInt (by omega)))
  · exact fun _ hm => nomatch hm

end Value

/-! ## The value of a tree -/

theorem Reference.isPlain_toMembers {r : Reference} {members : List (String × Value)} (h : r.toMembers = .ok members) :
    ∀ m ∈ members, m.2.IsPlain := by
  obtain ⟨e, -, rfl⟩ := r.toMembers_eq_ok h
  have hentry : e.toValue.IsPlain := Value.isPlain_ofMembers (List.forall_mem_cons.2
    ⟨Value.isPlain_ofInt64 _, List.forall_mem_singleton.2 (Value.isPlain_ofInt64 _)⟩)
  exact List.forall_mem_cons.2 ⟨.string, List.forall_mem_cons.2
    ⟨Value.isPlain_ofInt64 _, List.forall_mem_singleton.2 hentry⟩⟩

mutual

theorem Expr.isPlain_toValue {e : Expr} {v : Value} (h : e.toValue = .ok v) : v.IsPlain := by
  cases e with
  | absent => cases h
  | literal p value =>
    cases value with
    | int n =>
      obtain rfl := Except.ok.inj h
      exact Value.isPlain_ofNode _ _ (List.forall_mem_singleton.2 (Value.isPlain_ofInt64 n))
    | bool b =>
      obtain rfl := Except.ok.inj h
      exact Value.isPlain_ofNode _ _ (List.forall_mem_singleton.2 .bool)
    | string s => cases h
    | absent => cases h
  | ident p r =>
    obtain ⟨members, hmembers, h⟩ := bind_eq_ok.1 h
    obtain rfl := Except.ok.inj h
    exact Value.isPlain_ofNode _ _ (Reference.isPlain_toMembers hmembers)
  | call p r args =>
    obtain ⟨ws, hws, h⟩ := bind_eq_ok.1 h
    obtain ⟨members, hmembers, h⟩ := bind_eq_ok.1 h
    obtain rfl := Except.ok.inj h
    exact Value.isPlain_ofNode _ _ (List.forall_mem_append.2
      ⟨Reference.isPlain_toMembers hmembers, List.forall_mem_singleton.2 (.list (Expr.isPlain_toValues hws))⟩)
  | cond p test yes no =>
    obtain ⟨w1, hw1, h⟩ := bind_eq_ok.1 h
    obtain ⟨w2, hw2, h⟩ := bind_eq_ok.1 h
    obtain ⟨w3, hw3, h⟩ := bind_eq_ok.1 h
    obtain rfl := Except.ok.inj h
    exact Value.isPlain_ofNode _ _ (List.forall_mem_cons.2 ⟨Expr.isPlain_toValue hw1, List.forall_mem_cons.2
      ⟨Expr.isPlain_toValue hw2, List.forall_mem_singleton.2 (Expr.isPlain_toValue hw3)⟩⟩)
  | binary p op left right =>
    rw [Expr.toValue] at h
    split at h
    case h_1 => cases h
    case h_2 kind hkind =>
      obtain ⟨w1, hw1, h⟩ := bind_eq_ok.1 h
      obtain ⟨w2, hw2, h⟩ := bind_eq_ok.1 h
      obtain rfl := Except.ok.inj h
      exact Value.isPlain_ofNode _ _ (List.forall_mem_cons.2
        ⟨Expr.isPlain_toValue hw1, List.forall_mem_singleton.2 (Expr.isPlain_toValue hw2)⟩)
  | print p arg =>
    obtain ⟨w, hw, h⟩ := bind_eq_ok.1 h
    obtain rfl := Except.ok.inj h
    exact Value.isPlain_ofNode _ _ (List.forall_mem_singleton.2 (Expr.isPlain_toValue hw))

theorem Expr.isPlain_toValues {es : List Expr} {vs : List Value} (h : Expr.toValues es = .ok vs) :
    ∀ v ∈ vs, v.IsPlain := by
  cases es with
  | nil =>
    obtain rfl := Except.ok.inj h
    exact fun _ hv => nomatch hv
  | cons e es =>
    obtain ⟨w, hw, h⟩ := bind_eq_ok.1 h
    obtain ⟨ws, hws, h⟩ := bind_eq_ok.1 h
    obtain rfl := Except.ok.inj h
    exact List.forall_mem_cons.2 ⟨Expr.isPlain_toValue hw, Expr.isPlain_toValues hws⟩

end

mutual

theorem Decl.isPlain_toValue {d : Decl} {v : Value} (h : d.toValue = .ok v) : v.IsPlain := by
  cases d with
  | absent => cases h
  | var p name value =>
    obtain ⟨w, hw, h⟩ := bind_eq_ok.1 h
    obtain rfl := Except.ok.inj h
    exact Value.isPlain_ofNode _ _ (List.forall_mem_cons.2
      ⟨.string, List.forall_mem_singleton.2 (Expr.isPlain_toValue hw)⟩)
  | func p name params decls body =>
    obtain ⟨ws, hws, h⟩ := bind_eq_ok.1 h
    obtain ⟨w, hw, h⟩ := bind_eq_ok.1 h
    obtain rfl := Except.ok.inj h
    have hparams : ∀ v ∈ params.map fun p => Value.string p.name, v.IsPlain := by
      intro v hv
      obtain ⟨p, -, rfl⟩ := List.mem_map.1 hv
      exact .string
    exact Value.isPlain_ofNode _ _ (List.forall_mem_cons.2 ⟨.string, List.forall_mem_cons.2 ⟨.list hparams,
      List.forall_mem_cons.2 ⟨.list (Decl.isPlain_toValues hws),
        List.forall_mem_singleton.2 (Expr.isPlain_toValue hw)⟩⟩⟩)

theorem Decl.isPlain_toValues {ds : List Decl} {vs : List Value} (h : Decl.toValues ds = .ok vs) :
    ∀ v ∈ vs, v.IsPlain := by
  cases ds with
  | nil =>
    obtain rfl := Except.ok.inj h
    exact fun _ hv => nomatch hv
  | cons d ds =>
    obtain ⟨w, hw, h⟩ := bind_eq_ok.1 h
    obtain ⟨ws, hws, h⟩ := bind_eq_ok.1 h
    obtain rfl := Except.ok.inj h
    exact List.forall_mem_cons.2 ⟨Decl.isPlain_toValue hw, Decl.isPlain_toValues hws⟩

end

/-- **Written trees are plain.** -/
theorem Root.isPlain_toValue {r : Root} {v : Value} (h : r.toValue = .ok v) : v.IsPlain := by
  cases r with
  | absent => cases h
  | letIn p decls body =>
    obtain ⟨ws, hws, h⟩ := bind_eq_ok.1 h
    obtain ⟨w, hw, h⟩ := bind_eq_ok.1 h
    obtain rfl := Except.ok.inj h
    exact Value.isPlain_ofNode _ _ (List.forall_mem_cons.2
      ⟨.list (Decl.isPlain_toValues hws), List.forall_mem_singleton.2 (Expr.isPlain_toValue hw)⟩)
  | bare body =>
    obtain ⟨w, hw, h⟩ := bind_eq_ok.1 h
    obtain rfl := Except.ok.inj h
    exact Value.isPlain_ofNode _ _ (List.forall_mem_singleton.2 (Expr.isPlain_toValue hw))

end LetStack

/-
What the readers of values accept, one statement for each.

A reader gives a result or a complaint. `Gives x P c` says when `x` gives a result, and which: `c`, if `P` holds. It is
kept by one reader after another (`Gives.bind`), so that each construct needs its own members only: those that are there
(`Object.gives_get` and its like), the integers that writing makes (`Value.gives_integer_ofInt`), and the kind and
position that every written node has (`Value.gives_node_ofNode`).

A kind is found by its name and by no other text (`find?_name_eq_some`). Members of an object made from a list are found
as in the list (`Members.get?_ofList`), whatever their order becomes.
-/
import LetStack.Exchange.Format
import LetStack.Proofs.Rounding

namespace LetStack

theorem bind_eq_ok {ε α β : Type} {x : Except ε α} {f : α → Except ε β} {b : β} :
    (x >>= f) = .ok b ↔ ∃ a, x = .ok a ∧ f a = .ok b := by
  cases x with
  | error e => simp [bind, Except.bind]
  | ok a => simp [bind, Except.bind]

/-- a tree is read from the value that is read -/
theorem Root.decode_eq_ok {f : Format} {data : List UInt8} {r : Root} :
    Root.decode f data = .ok r ↔ ∃ v, Value.decode f data = .ok v ∧ Root.ofValue v = .ok r := by
  rw [Root.decode, bind_eq_ok]
  refine exists_congr fun v => and_congr_right fun _ => ?_
  cases Root.ofValue v <;> simp

/-! ## Names -/

/-- where every kind is in a list, each under a name of its own, a name finds the kind that has it -/
theorem find?_name_eq_some {α : Type} {name : α → String} {all : List α} (hall : ∀ a, a ∈ all)
    (hname : (all.map name).Nodup) {s : String} {a : α} : (all.find? fun b => name b = s) = some a ↔ name a = s := by
  constructor
  · intro h
    simpa using List.find?_some h
  · rintro rfl
    cases hfound : all.find? fun b => name b = name a with
    | none => exact absurd (decide_eq_true rfl) (List.find?_eq_none.1 hfound a (hall a))
    | some b =>
      have hb : name b = name a := by simpa using List.find?_some hfound
      rw [List.inj_on_of_nodup_map hname (hall b) (hall a) hb]

theorem ExprKind.ofName?_eq_some {s : String} {k : ExprKind} : ExprKind.ofName? s = some k ↔ k.name = s :=
  find?_name_eq_some (fun k => by cases k <;> decide) (by decide)

theorem DeclKind.ofName?_eq_some {s : String} {k : DeclKind} : DeclKind.ofName? s = some k ↔ k.name = s :=
  find?_name_eq_some (fun k => by cases k <;> decide) (by decide)

theorem RootKind.ofName?_eq_some {s : String} {k : RootKind} : RootKind.ofName? s = some k ↔ k.name = s :=
  find?_name_eq_some (fun k => by cases k <;> decide) (by decide)

/-! ## Conditional results -/

/-- the result is `c` if `P` holds, and a complaint otherwise -/
def Gives {ε α : Type} (x : Except ε α) (P : Prop) (c : α) : Prop := ∀ a, x = .ok a ↔ P ∧ a = c

namespace Gives

variable {ε α β : Type} {x : Except ε α} {f : α → Except ε β} {P Q : Prop} {c : α} {d : β}

theorem ok (c : α) : Gives (.ok c : Except ε α) True c := by
  intro a
  rw [Except.ok.injEq, true_and]
  exact eq_comm

theorem of_eq (h : x = .ok c) : Gives x True c := by
  rw [h]
  exact ok c

/-- one reader after another: both conditions are needed -/
theorem bind (hx : Gives x P c) (hf : Gives (f c) Q d) : Gives (x >>= f) (P ∧ Q) d := by
  intro b
  cases x with
  | error e =>
    have hP : ¬ P := fun h => nomatch (hx c).2 ⟨h, rfl⟩
    exact ⟨nofun, fun h => (hP h.1.1).elim⟩
  | ok a =>
    obtain ⟨hP, rfl⟩ := (hx a).1 rfl
    exact ⟨fun h => ⟨⟨hP, ((hf b).1 h).1⟩, ((hf b).1 h).2⟩, fun h => (hf b).2 ⟨h.1.2, h.2⟩⟩

theorem map {g : α → β} (hx : Gives x P c) : Gives (x >>= fun a => .ok (g a)) P (g c) := by
  intro b
  rw [hx.bind (ok (g c)) b, and_true]

theorem congr (h : Gives x P c) (hPQ : P ↔ Q) : Gives x Q c := by
  intro a
  rw [h a, hPQ]

theorem eq_ok (h : Gives x P c) (hP : P) : x = .ok c := (h c).2 ⟨hP, rfl⟩

theorem eq_error (h : Gives x P c) (hP : ¬ P) : ∃ e, x = .error e := by
  cases x with
  | error e => exact ⟨e, rfl⟩
  | ok a => exact (hP ((h a).1 rfl).1).elim

end Gives

/-! ## Members -/

namespace Members

theorem get?_cons (k key : String) (v : Value) (ms : Members) :
    get? ((k, v) :: ms) key = if key = k then some v else get? ms key := by
  rw [get?, List.lookup_cons]
  by_cases h : key = k
  · rw [if_pos h, beq_iff_eq.2 h]
  · rw [if_neg h, beq_false_of_ne h]
    rfl

theorem get?_insert (key k : String) (v : Value) (ms : Members) :
    (insert k v ms).get? key = if key = k then some v else ms.get? key := by
  induction ms with
  | nil => rw [insert, get?_cons]
  | cons m ms ih =>
    obtain ⟨k', w⟩ := m
    rw [insert]
    by_cases hlt : k < k'
    · rw [if_pos hlt, get?_cons]
    · rw [if_neg hlt]
      by_cases heq : k = k'
      · subst heq
        rw [if_pos rfl, get?_cons, get?_cons]
        split_ifs <;> rfl
      · rw [if_neg heq, get?_cons, get?_cons, ih]
        by_cases hkey : key = k'
        · rw [if_pos hkey, if_neg (fun h => heq (h.symm.trans hkey)), if_pos hkey]
        · rw [if_neg hkey, if_neg hkey]

theorem get?_ofList (ms : List (String × Value)) (key : String) : (ofList ms).get? key = get? ms key := by
  induction ms with
  | nil => rfl
  | cons m ms ih =>
    have hcons : ofList (m :: ms) = insert m.1 m.2 (ofList ms) := rfl
    rw [hcons, get?_insert, ih, get?_cons]

theorem contains_eq (ms : Members) (key : String) : ms.contains key = (ms.get? key).isSome := by
  induction ms with
  | nil => rfl
  | cons m ms ih =>
    obtain ⟨k, w⟩ := m
    have hcons : contains ((k, w) :: ms) key = (k == key || contains ms key) := rfl
    rw [hcons, get?_cons, ih]
    by_cases h : key = k
    · rw [if_pos h, h, beq_self_eq_true]
      rfl
    · rw [if_neg h, beq_false_of_ne (fun h' => h h'.symm), Bool.false_or]

end Members

/-! ## Integers -/

theorem Value.integer_eq_ok {path : Path} {least greatest n : Int} {v : Value} :
    v.integer path least greatest = .ok n ↔
      ∃ x, v = .number x ∧ x.toInt? = some n ∧ n.natAbs ≤ maxExact ∧ least ≤ n ∧ n ≤ greatest := by
  cases v with
  | number x =>
    simp only [Value.integer, Value.number.injEq, exists_eq_left']
    constructor
    · intro h
      split at h
      · cases h
      · split at h
        · cases h
        case h_2 k hk =>
          split_ifs at h with hexact hrange
          obtain rfl := Except.ok.inj h
          exact ⟨hk, by omega, by omega, by omega⟩
    · rintro ⟨hn, hexact, hleast, hgreatest⟩
      rw [Binary64.isInfinite_of_toInt? hn, hn]
      simp only [Bool.false_eq_true, if_false]
      rw [if_neg (by omega), if_neg (by omega)]
  | _ => simp [Value.integer]

/-- an integer that has been written is read back if it is in range, and never as another one -/
theorem Value.gives_integer_ofInt (path : Path) {least greatest n : Int} (hn : n.natAbs < 2 ^ 64)
    (hleast : -maxExact ≤ least) (hgreatest : greatest ≤ maxExact) :
    Gives ((Value.number (Binary64.ofInt n)).integer path least greatest) (least ≤ n ∧ n ≤ greatest) n := by
  intro k
  rw [Value.integer_eq_ok]
  unfold maxExact at *
  constructor
  · rintro ⟨x, hx, hk, hexact, hrange⟩
    obtain rfl := Value.number.inj hx
    rcases Nat.lt_or_ge n.natAbs (2 ^ 53) with hlt | hge
    · rw [Binary64.toInt?_ofInt hlt, Option.some.injEq] at hk
      subst hk
      exact ⟨hrange, rfl⟩
    · obtain ⟨k', hk', hge'⟩ := Binary64.le_toInt?_ofInt hge hn
      rw [hk', Option.some.injEq] at hk
      omega
  · rintro ⟨hrange, rfl⟩
    exact ⟨_, rfl, Binary64.toInt?_ofInt (by omega), by omega, hrange⟩

/-! ## Members that are there -/

namespace Object

variable {v : Value} {o : Object v} {name : String} {α : Type} {P : Prop} {a : α}

theorem get_of_some {w : Value} (h : o.members.get? name = some w) : ∃ hlt, o.get name = .ok ⟨w, hlt⟩ := by
  unfold get
  split
  case h_1 hnone =>
    rw [h] at hnone
    cases hnone
  case h_2 w' hsome =>
    obtain rfl := Option.some.inj (h.symm.trans hsome)
    exact ⟨Nat.lt_trans (Members.sizeOf_get? h) o.smaller, rfl⟩

theorem gives_get {w : Value} {f : { w : Value // sizeOf w < sizeOf v } → Except Complaint α}
    (h : o.members.get? name = some w) (hf : ∀ hlt, Gives (f ⟨w, hlt⟩) P a) : Gives (o.get name >>= f) P a := by
  obtain ⟨hlt, hget⟩ := get_of_some h
  rw [hget]
  exact hf hlt

theorem gives_string {s : String} {f : String → Except Complaint α}
    (h : o.members.get? name = some (.string s)) (hf : Gives (f s) P a) : Gives (o.string name >>= f) P a := by
  obtain ⟨hlt, hget⟩ := get_of_some h
  rw [string, hget]
  exact hf

theorem gives_bool {b : Bool} {f : Bool → Except Complaint α}
    (h : o.members.get? name = some (.bool b)) (hf : Gives (f b) P a) : Gives (o.bool name >>= f) P a := by
  obtain ⟨hlt, hget⟩ := get_of_some h
  rw [bool, hget]
  exact hf

theorem integer_of_some {w : Value} (h : o.members.get? name = some w) (least greatest : Int) :
    o.integer name least greatest = w.integer (o.place name) least greatest := by
  obtain ⟨hlt, hget⟩ := get_of_some h
  rw [integer, hget]
  rfl

theorem gives_integer {n : Int64} (h : o.members.get? name = some (.ofInt64 n)) {least greatest : Int}
    (hleast : -maxExact ≤ least) (hgreatest : greatest ≤ maxExact) :
    Gives (o.integer name least greatest) (least ≤ n.toInt ∧ n.toInt ≤ greatest) n.toInt := by
  have hbounds := And.intro n.le_toInt n.toInt_lt
  rw [integer_of_some h]
  exact Value.gives_integer_ofInt _ (by omega) hleast hgreatest

theorem integerOrZero_of_some {w : Value} (h : o.members.get? name = some w) (least greatest : Int) :
    o.integerOrZero name least greatest = w.integer (o.place name) least greatest := by
  rw [integerOrZero, Members.contains_eq, h, ← integer_of_some h]
  rfl

theorem integerOrZero_of_none (h : o.members.get? name = none) (least greatest : Int) :
    o.integerOrZero name least greatest = .ok 0 := by
  rw [integerOrZero, Members.contains_eq, h]
  rfl

theorem gives_expr {w : Value} {e : Expr} (h : o.members.get? name = some w)
    (hw : Gives (Expr.ofValue (o.place name) w) P e) : Gives (o.expr name) P e :=
  gives_get h fun _ => hw

theorem gives_list {ws : List Value} {f : { ws : List Value // sizeOf ws < sizeOf v } → Except Complaint α}
    (h : o.members.get? name = some (.list ws)) (hf : ∀ hlt, Gives (f ⟨ws, hlt⟩) P a) :
    Gives (o.list name >>= f) P a := by
  unfold list
  split
  case h_1 hnone =>
    rw [h] at hnone
    cases hnone
  case h_2 ws' hsome =>
    obtain rfl := Value.list.inj (Option.some.inj (h.symm.trans hsome))
    exact hf _
  case h_3 w hnot hsome => exact (hnot ws (Option.some.inj (hsome.symm.trans h))).elim

end Object

/-! ## Nodes that have been written -/

namespace Position

/-- a position that can be read back: if it is known, its column is not negative -/
def Fits (p : Position) : Prop := p.isKnown = true → 0 ≤ p.col.toInt

/-- what is read back for a position -/
def normal (p : Position) : Position := if p.isKnown then p else unknown

end Position

/-- the members of a node: its kind, its position if it is known, and its own -/
def nodeMembers (kind : String) (pos : Position) (members : List (String × Value)) : List (String × Value) :=
  [("kind", .string kind)]
    ++ (if pos.isKnown then
      [("line", .number (Binary64.ofInt pos.line.toInt)), ("col", .number (Binary64.ofInt pos.col.toInt))]
    else [])
    ++ members

/-- the object that a written node is -/
def Object.ofNode (path : Path) (kind : String) (pos : Position) (members : List (String × Value)) :
    Object (Value.ofNode kind pos members) where
  path := path
  kind := kind
  members := Members.ofList (nodeMembers kind pos members)
  smaller := by simp [Value.ofNode, Value.ofMembers, nodeMembers]

section

variable {path : Path} {kind : String} {pos : Position} {members : List (String × Value)}

@[simp] theorem Object.kind_ofNode : (Object.ofNode path kind pos members).kind = kind := rfl

theorem Object.get?_ofNode {name : String} {w : Value} (hw : Members.get? members name = some w)
    (hname : name ≠ "kind" ∧ name ≠ "line" ∧ name ≠ "col") :
    (Object.ofNode path kind pos members).members.get? name = some w := by
  rw [Object.ofNode, Members.get?_ofList, nodeMembers]
  split
  · simp [Members.get?_cons, hname, hw]
  · simp [Members.get?_cons, hname, hw]

theorem Value.node_ofNode (path : Path) (kind : String) (pos : Position) (members : List (String × Value)) :
    (Value.ofNode kind pos members).node path =
      ((Object.ofNode path kind pos members).integerOrZero "line" 0 maxIndex >>= fun line =>
        (Object.ofNode path kind pos members).integerOrZero "col" 0 maxIndex >>= fun col =>
          .ok (Object.ofNode path kind pos members, ⟨Int32.ofInt line, Int32.ofInt col⟩)) := by
  have hkind : (Members.ofList (nodeMembers kind pos members)).get? "kind" = some (.string kind) := by
    rw [Members.get?_ofList, nodeMembers, List.append_assoc, List.singleton_append, Members.get?_cons, if_pos rfl]
  have hobject : (Value.ofNode kind pos members).object? path "" =
      .ok { Object.ofNode path kind pos members with kind := "" } := rfl
  simp only [Value.node, hobject, bind, Except.bind, Object.ofNode, hkind]

/-- a written node is read with its kind and members, if its position can be read -/
theorem Value.gives_node_ofNode (path : Path) (kind : String) (pos : Position)
    (hline : Members.get? members "line" = none) (hcol : Members.get? members "col" = none) :
    Gives ((Value.ofNode kind pos members).node path) pos.Fits
      (Object.ofNode path kind pos members, pos.normal) := by
  have hline' : (Object.ofNode path kind pos members).members.get? "line" =
      if pos.isKnown then some (.number (Binary64.ofInt pos.line.toInt)) else none := by
    rw [Object.ofNode, Members.get?_ofList, nodeMembers]
    split <;> simp [Members.get?_cons, hline]
  have hcol' : (Object.ofNode path kind pos members).members.get? "col" =
      if pos.isKnown then some (.number (Binary64.ofInt pos.col.toInt)) else none := by
    rw [Object.ofNode, Members.get?_ofList, nodeMembers]
    split <;> simp [Members.get?_cons, hcol]
  rw [Value.node_ofNode, Position.Fits, Position.normal]
  cases hknown : pos.isKnown with
  | false =>
    rw [hknown, if_neg Bool.false_ne_true] at hline' hcol'
    have hline0 := Gives.of_eq (Object.integerOrZero_of_none hline' 0 maxIndex)
    have hcol0 := Gives.of_eq (Object.integerOrZero_of_none hcol' 0 maxIndex)
    exact (hline0.bind hcol0.map).congr (by simp)
  | true =>
    rw [hknown, if_pos rfl] at hline' hcol'
    have hpositive : 0 < pos.line.toInt := Int32.lt_iff_toInt_lt.1 (of_decide_eq_true hknown)
    have hline := pos.line.toInt_lt
    have hcol := And.intro pos.col.le_toInt pos.col.toInt_lt
    have hmax : maxIndex = 2 ^ 31 - 1 := rfl
    have hexact : -maxExact ≤ 0 ∧ maxIndex ≤ maxExact := by decide
    have hpos : (⟨Int32.ofInt pos.line.toInt, Int32.ofInt pos.col.toInt⟩ : Position) = pos := by
      rw [Int32.ofInt_toInt, Int32.ofInt_toInt]
    rw [Object.integerOrZero_of_some hline', Object.integerOrZero_of_some hcol', if_pos rfl]
    refine ((Value.gives_integer_ofInt _ (by omega) hexact.1 hexact.2).bind
      ((Value.gives_integer_ofInt _ (by omega) hexact.1 hexact.2).bind (Q := True) ?_)).congr ?_
    · rw [hpos]
      exact .ok _
    · simp only [true_implies, and_true]
      omega

end

end LetStack

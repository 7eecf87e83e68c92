/-
Where complaints point.

A complaint has a path, and the path leads from the value that was read to some part of it. What the complaint says is
true of that part: it has the type that was found, it is an object without the member that is missing, or an object with
the kind that may not stand there, or a number that is no integer, too large or out of range. A complaint is made of
words of the reader's own: names of members, kinds and types, and numbers. Only a kind that may not stand where it does
is quoted from the input.

A reader is told the path of what it reads, so the statement that goes through all readers is about the value there: a
complaint has its path with steps into the value after it (`PointsInto`).

Results:
- `Root.ofValue_pointsInto`: every complaint points into the value that was read;
- `Root.ofValue_ownWords`: but for a kind, it holds nothing of the input.
-/
import LetStack.Proofs.Spelling

namespace LetStack

/-! ## The words of the reader -/

/-- the members that the reader looks for -/
def memberNames : List String :=
  ["kind", "line", "col", "value", "name", "level", "entry", "offset", "args", "cond", "then", "else", "left", "right",
    "exp", "params", "decls", "body"]

/-- what complaints call a node, or the entry of a reference -/
def nodeNames : List String :=
  ["entry", "letin", "prog", "var", "fun", "int", "bool", "id", "call", "if", "eq", "plus", "times", "print"]

theorem RootKind.name_mem (k : RootKind) : k.name ∈ nodeNames := by
  cases k <;> decide

theorem DeclKind.name_mem (k : DeclKind) : k.name ∈ nodeNames := by
  cases k <;> decide

theorem ExprKind.name_mem (k : ExprKind) : k.name ∈ nodeNames := by
  cases k <;> decide

def Path.IsKnown (p : Path) : Prop := ∀ name, PathStep.member name ∈ p → name ∈ memberNames

namespace Path.IsKnown

variable {p : Path}

theorem nil : Path.IsKnown [] := fun _ h => absurd h List.not_mem_nil

theorem member (hp : p.IsKnown) {name : String} (hname : name ∈ memberNames) : Path.IsKnown (p ++ [.member name]) := by
  intro n hn
  rcases List.mem_append.1 hn with hn | hn
  · exact hp n hn
  · obtain rfl := PathStep.member.inj (List.mem_singleton.1 hn)
    exact hname

theorem item (hp : p.IsKnown) (i : ℕ) : Path.IsKnown (p ++ [.item i]) := by
  intro n hn
  rcases List.mem_append.1 hn with hn | hn
  · exact hp n hn
  · cases List.mem_singleton.1 hn

end Path.IsKnown

/-- nothing of the input is in the cause, but for a kind that may not stand where it does, and numbers -/
def Cause.IsKnown : Cause → Prop
  | .wrongType got _ => ∃ v : Value, got = v.description
  | .missing kind member => kind ∈ nodeNames ∧ member ∈ memberNames
  | .unresolvedReference _ _ => False
  | .unresolvedCall _ _ => False
  | _ => True

structure Complaint.IsKnown (c : Complaint) : Prop where
  path : c.path.IsKnown
  cause : c.cause.IsKnown

structure Object.IsKnown {v : Value} (o : Object v) : Prop where
  path : o.path.IsKnown
  kind : o.kind ∈ nodeNames

/-- if this ends with a complaint, the complaint is a known one -/
def OwnWords {α : Type} (x : Except Complaint α) : Prop := ∀ c, x = .error c → c.IsKnown

/-! ## Following a path -/

namespace Value

/-- the part of a value one step down, if it is there -/
def child? (v : Value) : PathStep → Option Value
  | .member name =>
    match v with
    | .object ms => Members.get? ms name
    | _ => none
  | .item i =>
    match v with
    | .list ws => ws[i]?
    | _ => none

/-- the part of a value at the end of a path, if it is there -/
def at? (v : Value) : Path → Option Value
  | [] => some v
  | s :: p => (v.child? s).bind fun w => w.at? p

end Value

/-! ## True causes -/

/-- infinite, or finite and greater than 2^53 - 1 in magnitude -/
def Binary64.IsBeyondExact (x : Binary64) : Prop :=
  x.isInfinite = true ∨ x.isFinite = true ∧ (2 ^ 53 - 1 : ℚ) < |x.value|

/-- what is said is true of the value `w`; numbers are known by their text -/
def Cause.IsTrueOf (w : Value) : Cause → Prop
  | .wrongType got _ => w.description = got
  | .noKind => ∃ ms : Members, w = .object ms ∧ ms.get? "kind" = none
  | .missing _ member => ∃ ms : Members, w = .object ms ∧ ms.get? member = none
  | .wrongKind kind _ => ∃ ms : Members, w = .object ms ∧ ms.get? "kind" = some (.string kind)
  | .notIntegral x => ∃ y : Binary64, w = .number y ∧ y.text = x.text ∧ ∀ n : ℤ, ¬ w.Denotes n
  | .inexact x => ∃ y : Binary64, w = .number y ∧ y.text = x.text ∧ y.IsBeyondExact
  | .outOfRange n least greatest => w.Denotes n ∧ (n < least ∨ greatest < n)
  | .unresolvedReference _ _ => False
  | .unresolvedCall _ _ => False

/-- if this ends with a complaint, the complaint is a known one, and true of a part of the value `v` at `path` -/
def PointsInto {α : Type} (path : Path) (v : Value) (x : Except Complaint α) : Prop :=
  ∀ c, x = .error c → c.IsKnown ∧ ∃ rest w, c.path = path ++ rest ∧ v.at? rest = some w ∧ c.cause.IsTrueOf w

namespace PointsInto

variable {α β : Type} {path : Path} {v w : Value}

theorem ok (a : α) : PointsInto path v (.ok a) := by
  intro c h
  cases h

theorem here {cause : Cause} (hpath : path.IsKnown) (hknown : cause.IsKnown) (htrue : cause.IsTrueOf v) :
    PointsInto path v (.error ⟨path, cause⟩ : Except Complaint α) := by
  intro c hc
  obtain rfl := Except.error.inj hc
  exact ⟨⟨hpath, hknown⟩, [], v, (List.append_nil path).symm, rfl, htrue⟩

theorem wrongType (hpath : path.IsKnown) {want : WantedType} :
    PointsInto path v (.error ⟨path, .wrongType v.description want⟩ : Except Complaint α) :=
  here hpath ⟨v, rfl⟩ rfl

theorem bind {x : Except Complaint α} {f : α → Except Complaint β} (hx : PointsInto path v x)
    (hf : ∀ a, x = .ok a → PointsInto path v (f a)) : PointsInto path v (x >>= f) := by
  cases h : x with
  | error c =>
    intro c' hc'
    obtain rfl := Except.error.inj hc'
    exact hx c h
  | ok a => exact hf a h

/-- what points into a part of a value points into the value -/
theorem below {s : PathStep} {x : Except Complaint α} (hw : v.child? s = some w) (h : PointsInto (path ++ [s]) w x) :
    PointsInto path v x := by
  intro c hc
  obtain ⟨hknown, rest, u, hpath, hu, htrue⟩ := h c hc
  refine ⟨hknown, s :: rest, u, ?_, ?_, htrue⟩
  · rw [hpath, List.append_assoc, List.singleton_append]
  · rw [Value.at?, hw]
    exact hu

end PointsInto

/-! ## The readers of members -/

theorem Value.denotes_number {x : Binary64} {n : ℤ} : (number x).Denotes n ↔ x.isFinite = true ∧ x.value = n := by
  constructor
  · rintro ⟨y, hy, h⟩
    obtain rfl := Value.number.inj hy
    exact h
  · exact fun h => ⟨x, rfl, h⟩

theorem Value.integer_pointsInto {path : Path} (hpath : path.IsKnown) (least greatest : ℤ) (v : Value) :
    PointsInto path v (v.integer path least greatest) := by
  cases v with
  | number x =>
    rw [Value.integer]
    split_ifs with hinfinite
    · exact .here hpath trivial ⟨x, rfl, rfl, .inl hinfinite⟩
    · cases hn : x.toInt? with
      | none =>
        refine .here hpath trivial ⟨x, rfl, rfl, fun n hdenotes => ?_⟩
        rw [Value.denotes_number, ← Binary64.toInt?_eq_some_iff, hn] at hdenotes
        cases hdenotes
      | some n =>
        obtain ⟨hfinite, hvalue⟩ := (x.toInt?_eq_some_iff n).1 hn
        dsimp only
        split_ifs with hlarge hrange
        · refine .here hpath trivial ⟨x, rfl, rfl, .inr ⟨hfinite, ?_⟩⟩
          have hmax : maxExact = 2 ^ 53 - 1 := rfl
          have habs : (2 ^ 53 - 1 : ℤ) < |n| := by
            rw [Int.abs_eq_natAbs]
            omega
          rw [hvalue]
          exact_mod_cast habs
        · exact .here hpath trivial ⟨Value.denotes_number.2 ⟨hfinite, hvalue⟩, hrange⟩
        · exact .ok n
  | _ => exact .wrongType hpath

/-- an object as it was found in the value `v` -/
structure Object.IsFound {v : Value} (o : Object v) : Prop extends o.IsKnown where
  value : v = .object o.members

namespace Object

variable {v : Value} {o : Object v} {name : String}

/-- a member of the object is a part of the value -/
theorem child?_eq (hv : v = .object o.members) (name : String) : v.child? (.member name) = o.members.get? name :=
  congrArg (fun w => Value.child? w (.member name)) hv

theorem get_pointsInto (ho : o.IsFound) (hname : name ∈ memberNames) : PointsInto o.path v (o.get name) := by
  unfold get
  split
  · next h => exact .here ho.path ⟨ho.kind, hname⟩ ⟨o.members, ho.value, h⟩
  · exact .ok _

/-- what points into a member points into the value -/
theorem member_pointsInto {α : Type} (ho : o.IsFound) {w : { w : Value // sizeOf w < sizeOf v }}
    (hw : o.get name = .ok w) {x : Except Complaint α} (hx : PointsInto (o.place name) w.val x) :
    PointsInto o.path v x :=
  .below ((child?_eq ho.value name).trans (get_eq_ok.1 hw)) hx

theorem string_pointsInto (ho : o.IsFound) (hname : name ∈ memberNames) : PointsInto o.path v (o.string name) := by
  apply (get_pointsInto ho hname).bind
  rintro ⟨w, hlt⟩ hw
  apply member_pointsInto ho hw
  cases w with
  | string s => exact .ok s
  | _ => exact .wrongType (ho.path.member hname)

theorem bool_pointsInto (ho : o.IsFound) (hname : name ∈ memberNames) : PointsInto o.path v (o.bool name) := by
  apply (get_pointsInto ho hname).bind
  rintro ⟨w, hlt⟩ hw
  apply member_pointsInto ho hw
  cases w with
  | bool b => exact .ok b
  | _ => exact .wrongType (ho.path.member hname)

theorem integer_pointsInto (ho : o.IsFound) (hname : name ∈ memberNames) (least greatest : ℤ) :
    PointsInto o.path v (o.integer name least greatest) := by
  apply (get_pointsInto ho hname).bind
  intro w hw
  exact member_pointsInto ho hw (w.val.integer_pointsInto (ho.path.member hname) least greatest)

/-- the kind is not known here, but a member that is there is not missed -/
theorem integerOrZero_pointsInto (hpath : o.path.IsKnown) (hv : v = .object o.members) (hname : name ∈ memberNames)
    (least greatest : ℤ) : PointsInto o.path v (o.integerOrZero name least greatest) := by
  rw [integerOrZero, Members.contains_eq]
  cases h : o.members.get? name with
  | none => exact .ok 0
  | some w =>
    obtain ⟨hlt, hget⟩ := get_of_some h
    simp only [Option.isSome_some, if_true]
    rw [integer, hget]
    exact .below ((child?_eq hv name).trans h) (w.integer_pointsInto (hpath.member hname) least greatest)

theorem list_pointsInto (ho : o.IsFound) (hname : name ∈ memberNames) : PointsInto o.path v (o.list name) := by
  unfold list
  split
  · exact .ok _
  · exact .ok _
  · next w _ h => exact .below ((child?_eq ho.value name).trans h) (.wrongType (ho.path.member hname))

end Object

/-! ## Nodes -/

namespace Value

variable {path : Path}

theorem object?_pointsInto (hpath : path.IsKnown) (kind : String) (v : Value) :
    PointsInto path v (v.object? path kind) := by
  cases v with
  | object ms => exact .ok _
  | _ => exact .wrongType hpath

theorem node_pointsInto (hpath : path.IsKnown) (v : Value) : PointsInto path v (v.node path) := by
  apply (v.object?_pointsInto hpath "").bind
  intro o ho
  obtain ⟨hv, rfl, -⟩ := object?_eq_ok.1 ho
  split
  · next h => exact .here hpath trivial ⟨o.members, hv, h⟩
  · next kind _ =>
    have hindex : ∀ name ∈ memberNames, PointsInto o.path v ({ o with kind }.integerOrZero name 0 maxIndex) :=
      fun name hname => Object.integerOrZero_pointsInto (o := { o with kind }) hpath hv hname 0 maxIndex
    apply (hindex "line" (by decide)).bind
    intro line _
    exact (hindex "col" (by decide)).bind fun col _ => .ok _
  · next w _ h => exact .below ((Object.child?_eq hv "kind").trans h) (.wrongType (hpath.member (by decide)))

end Value

theorem Object.reference_pointsInto {v : Value} {o : Object v} (ho : o.IsFound) : PointsInto o.path v o.reference := by
  apply (Object.string_pointsInto ho (by decide)).bind
  intro name _
  apply (Object.integer_pointsInto ho (by decide) 0 maxIndex).bind
  intro level _
  apply (Object.get_pointsInto ho (by decide)).bind
  intro entry hget
  have hplace : (o.place "entry").IsKnown := ho.path.member (by decide)
  apply Object.member_pointsInto ho hget
  apply (entry.val.object?_pointsInto hplace "entry").bind
  intro e he
  obtain ⟨hentry, hpath, hkind⟩ := Value.object?_eq_ok.1 he
  have hfound : e.IsFound := by
    refine ⟨⟨hpath ▸ hplace, ?_⟩, hentry⟩
    rw [hkind]
    decide
  rw [← hpath]
  apply (Object.integer_pointsInto hfound (by decide) 0 maxIndex).bind
  intro declared _
  apply (Object.integer_pointsInto hfound (by decide) _ maxIndex).bind
  intro offset _
  exact .ok _

/-! ## Lists -/

theorem child?_append_cons (before : List Value) (w : Value) (ws : List Value) :
    (Value.list (before ++ w :: ws)).child? (.item before.length) = some w := by
  simp [Value.child?]

/-- the rest of a list is read with one more item before it -/
theorem PointsInto.of_concat {α : Type} {path : Path} {read : ℕ → List Value → Except Complaint α}
    {before ws : List Value} {w : Value}
    (h : PointsInto path (.list ((before ++ [w]) ++ ws)) (read (before ++ [w]).length ws)) :
    PointsInto path (.list (before ++ w :: ws)) (read (before.length + 1) ws) := by
  rwa [List.append_assoc, List.singleton_append, List.length_append, List.length_singleton] at h

theorem paramsOfValues_pointsInto {path : Path} (hpath : path.IsKnown) (before ws : List Value) :
    PointsInto path (.list (before ++ ws)) (paramsOfValues path before.length ws) := by
  induction ws generalizing before with
  | nil => exact .ok []
  | cons w ws ih =>
    cases w with
    | string name =>
      apply (ih (before ++ [.string name])).of_concat.bind
      intro params _
      exact .ok _
    | _ => exact .below (child?_append_cons before _ ws) (.wrongType (hpath.item _))

/-- the items of a member are read in their place; of a list that is left out there is nothing to read -/
theorem Object.items_pointsInto {α : Type} {v : Value} {o : Object v} (ho : o.IsFound) {name : String}
    {ws : { ws : List Value // sizeOf ws < sizeOf v }} (hlist : o.list name = .ok ws)
    {read : List Value → Except Complaint (List α)} (hnil : read [] = .ok [])
    (hread : PointsInto (o.place name) (.list ws.val) (read ws.val)) : PointsInto o.path v (read ws.val) := by
  rw [Object.list_eq_ok, Members.items?] at hlist
  cases hget : o.members.get? name with
  | none =>
    rw [hget] at hlist
    rw [← Option.some.inj hlist, hnil]
    exact .ok []
  | some w =>
    rw [hget] at hlist
    cases w with
    | list ws' =>
      obtain rfl : ws' = ws.val := Option.some.inj hlist
      exact .below ((Object.child?_eq ho.value name).trans hget) hread
    | _ => cases hlist

/-! ## Trees -/

mutual

theorem Expr.ofValue_pointsInto {path : Path} (hpath : path.IsKnown) (v : Value) :
    PointsInto path v (Expr.ofValue path v) := by
  rw [Expr.ofValue]
  apply (v.node_pointsInto hpath).bind
  rintro ⟨o, pos⟩ hnode
  obtain ⟨hv, rfl, hhead⟩ := Value.node_eq_ok.1 hnode
  cases hkind : ExprKind.ofName? o.kind with
  | none =>
    simp only [hkind]
    exact .here hpath trivial ⟨o.members, hv, hhead.kind⟩
  | some k =>
    have ho : o.IsFound := ⟨⟨hpath, ExprKind.ofName?_eq_some.1 hkind ▸ k.name_mem⟩, hv⟩
    simp only [hkind]
    cases k with
    | int => exact (Object.integer_pointsInto ho (by decide) _ _).bind fun n _ => .ok _
    | bool => exact (Object.bool_pointsInto ho (by decide)).bind fun b _ => .ok _
    | ident => exact (Object.reference_pointsInto ho).bind fun r _ => .ok _
    | call =>
      apply (Object.reference_pointsInto ho).bind
      intro r _
      apply (Object.list_pointsInto ho (by decide)).bind
      rintro ⟨ws, hlt⟩ hlist
      have hargs : PointsInto o.path v (Expr.ofValues (o.place "args") 0 ws) :=
        Object.items_pointsInto ho hlist (by rw [Expr.ofValues])
          (Expr.ofValues_pointsInto (ho.path.member (by decide)) [] ws)
      exact hargs.bind fun args _ => .ok _
    | cond =>
      apply (Object.get_pointsInto ho (by decide)).bind
      rintro ⟨test, hlt1⟩ htest
      apply (Object.member_pointsInto ho htest (Expr.ofValue_pointsInto (ho.path.member (by decide)) test)).bind
      intro _ _
      apply (Object.get_pointsInto ho (by decide)).bind
      rintro ⟨yes, hlt2⟩ hyes
      apply (Object.member_pointsInto ho hyes (Expr.ofValue_pointsInto (ho.path.member (by decide)) yes)).bind
      intro _ _
      apply (Object.get_pointsInto ho (by decide)).bind
      rintro ⟨no, hlt3⟩ hno
      apply (Object.member_pointsInto ho hno (Expr.ofValue_pointsInto (ho.path.member (by decide)) no)).bind
      intro _ _
      exact .ok _
    | print =>
      apply (Object.get_pointsInto ho (by decide)).bind
      rintro ⟨arg, hlt⟩ harg
      apply (Object.member_pointsInto ho harg (Expr.ofValue_pointsInto (ho.path.member (by decide)) arg)).bind
      intro _ _
      exact .ok _
    | _ =>
      -- the three operators
      exact (Expr.operandsOfObject_pointsInto ho).bind fun operands _ => .ok _
termination_by (sizeOf v, 1)

theorem Expr.operandsOfObject_pointsInto {v : Value} {o : Object v} (ho : o.IsFound) :
    PointsInto o.path v (Expr.operandsOfObject o) := by
  rw [Expr.operandsOfObject]
  apply (Object.get_pointsInto ho (by decide)).bind
  rintro ⟨left, hlt1⟩ hleft
  apply (Object.member_pointsInto ho hleft (Expr.ofValue_pointsInto (ho.path.member (by decide)) left)).bind
  intro _ _
  apply (Object.get_pointsInto ho (by decide)).bind
  rintro ⟨right, hlt2⟩ hright
  apply (Object.member_pointsInto ho hright (Expr.ofValue_pointsInto (ho.path.member (by decide)) right)).bind
  intro _ _
  exact .ok _
termination_by (sizeOf v, 0)

theorem Expr.ofValues_pointsInto {path : Path} (hpath : path.IsKnown) (before ws : List Value) :
    PointsInto path (.list (before ++ ws)) (Expr.ofValues path before.length ws) := by
  cases ws with
  | nil =>
    rw [Expr.ofValues]
    exact .ok []
  | cons w ws =>
    rw [Expr.ofValues]
    apply (PointsInto.below (child?_append_cons before w ws) (Expr.ofValue_pointsInto (hpath.item _) w)).bind
    intro e _
    exact (Expr.ofValues_pointsInto hpath (before ++ [w]) ws).of_concat.bind fun es _ => .ok _
termination_by (sizeOf ws, 1)

end

theorem Object.expr_pointsInto {v : Value} {o : Object v} (ho : o.IsFound) {name : String}
    (hname : name ∈ memberNames) : PointsInto o.path v (o.expr name) := by
  apply (Object.get_pointsInto ho hname).bind
  intro w hw
  exact Object.member_pointsInto ho hw (Expr.ofValue_pointsInto (ho.path.member hname) w.val)

mutual

theorem Decl.ofValue_pointsInto {path : Path} (hpath : path.IsKnown) (v : Value) :
    PointsInto path v (Decl.ofValue path v) := by
  rw [Decl.ofValue]
  apply (v.node_pointsInto hpath).bind
  rintro ⟨o, pos⟩ hnode
  obtain ⟨hv, rfl, hhead⟩ := Value.node_eq_ok.1 hnode
  cases hkind : DeclKind.ofName? o.kind with
  | none =>
    simp only [hkind]
    exact .here hpath trivial ⟨o.members, hv, hhead.kind⟩
  | some k =>
    have ho : o.IsFound := ⟨⟨hpath, DeclKind.ofName?_eq_some.1 hkind ▸ k.name_mem⟩, hv⟩
    simp only [hkind]
    cases k with
    | var =>
      apply (Object.string_pointsInto ho (by decide)).bind
      intro name _
      exact (Object.expr_pointsInto ho (by decide)).bind fun value _ => .ok _
    | func =>
      apply (Object.string_pointsInto ho (by decide)).bind
      intro name _
      apply (Object.list_pointsInto ho (by decide)).bind
      intro params hlist
      have hparams : PointsInto o.path v (paramsOfValues (o.place "params") 0 params.val) :=
        Object.items_pointsInto ho hlist rfl (paramsOfValues_pointsInto (ho.path.member (by decide)) [] params.val)
      apply hparams.bind
      intro params _
      apply (Object.list_pointsInto ho (by decide)).bind
      rintro ⟨decls, hlt⟩ hlist
      have hdecls : PointsInto o.path v (Decl.ofValues (o.place "decls") 0 decls) :=
        Object.items_pointsInto ho hlist (by rw [Decl.ofValues])
          (Decl.ofValues_pointsInto (ho.path.member (by decide)) [] decls)
      apply hdecls.bind
      intro decls _
      exact (Object.expr_pointsInto ho (by decide)).bind fun body _ => .ok _
termination_by sizeOf v

theorem Decl.ofValues_pointsInto {path : Path} (hpath : path.IsKnown) (before ws : List Value) :
    PointsInto path (.list (before ++ ws)) (Decl.ofValues path before.length ws) := by
  cases ws with
  | nil =>
    rw [Decl.ofValues]
    exact .ok []
  | cons w ws =>
    rw [Decl.ofValues]
    apply (PointsInto.below (child?_append_cons before w ws) (Decl.ofValue_pointsInto (hpath.item _) w)).bind
    intro d _
    exact (Decl.ofValues_pointsInto hpath (before ++ [w]) ws).of_concat.bind fun ds _ => .ok _
termination_by sizeOf ws

end

theorem Root.ofValue_pointsInto (v : Value) : PointsInto [] v (Root.ofValue v) := by
  apply (v.node_pointsInto .nil).bind
  rintro ⟨o, pos⟩ hnode
  obtain ⟨hv, hpath, hhead⟩ := Value.node_eq_ok.1 hnode
  cases hkind : RootKind.ofName? o.kind with
  | none =>
    simp only [hkind]
    exact .here .nil trivial ⟨o.members, hv, hhead.kind⟩
  | some k =>
    have ho : o.IsFound := ⟨⟨hpath ▸ .nil, RootKind.ofName?_eq_some.1 hkind ▸ k.name_mem⟩, hv⟩
    simp only [hkind]
    rw [← hpath]
    cases k with
    | letIn =>
      apply (Object.list_pointsInto ho (by decide)).bind
      intro decls hlist
      have hdecls : PointsInto o.path v (Decl.ofValues (o.place "decls") 0 decls.val) :=
        Object.items_pointsInto ho hlist (by rw [Decl.ofValues])
          (Decl.ofValues_pointsInto (ho.path.member (by decide)) [] decls.val)
      apply hdecls.bind
      intro decls _
      exact (Object.expr_pointsInto ho (by decide)).bind fun body _ => .ok _
    | bare => exact (Object.expr_pointsInto ho (by decide)).bind fun body _ => .ok _

theorem Root.ofValue_ownWords (v : Value) : OwnWords (Root.ofValue v) := fun c hc => (Root.ofValue_pointsInto v c hc).1

end LetStack

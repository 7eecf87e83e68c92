/-
What is not read does not matter.

The reader looks for the members of a node's kind and passes over all others. `Value.prune` takes the others away: from
a node what neither its kind nor every node has, from an entry all but level and offset, and so on through the parts. A
kind counts only where it may stand, so a node of a kind that may not keeps no members of its own. Reading the value
without them is the same as reading the value, for trees and for complaints alike.

The argument goes through two objects side by side, one with members taken away from the other: they agree on what is
read (`Object.AgreesOn`), and each reader gives the same on both.

Results:
- `Members.get?_prune`: what is left of a member that is read;
- `Expr.ofValue_prune`, `Decl.ofValue_prune`: the parts of a tree;
- `unread_members_do_not_matter`.
-/
import LetStack.Proofs.Canonical

namespace LetStack

/-! ## Pruning -/

namespace Wanted

/-- may a node of this kind stand here? -/
def admits : Wanted → String → Bool
  | .program, kind => (RootKind.ofName? kind).isSome
  | .declaration, kind => (DeclKind.ofName? kind).isSome
  | .expression, kind => (ExprKind.ofName? kind).isSome

/-- what the nodes in this member are: declarations have a member of their own -/
def below (name : String) : Wanted := if name = "decls" then .declaration else .expression

/-- the members of a node of this kind that are read here; none if the kind may not stand here -/
def fields (want : Wanted) (kind : String) : Fields :=
  if want.admits kind then (fieldsOfKind.lookup kind).getD [] else []

end Wanted

/-- what every node may have -/
def fieldsOfNode : Fields := [("kind", .plain), ("line", .plain), ("col", .plain)]

/-- the members of an object that are read if it stands where a node is wanted -/
def Members.fieldsAs (want : Wanted) (ms : Members) : Fields :=
  match ms.get? "kind" with
  | some (.string kind) => fieldsOfNode ++ want.fields kind
  | _ => fieldsOfNode

mutual

/-- a value that holds `c` without the members that are not read; nodes in it are of the kinds that are wanted -/
def Value.pruneAs (want : Wanted) (c : Content) : Value → Value
  | .object ms =>
    match c with
    | .node => .object (Members.prune (Members.fieldsAs want ms) ms)
    | .entry => .object (Members.prune fieldsOfEntry ms)
    | _ => .object ms
  | .list ws =>
    match c with
    | .nodes => .list (Value.pruneItems want ws)
    | _ => .list ws
  | v => v

/-- the members of these names, pruned for what they hold -/
def Members.prune (fields : Fields) : Members → Members
  | [] => []
  | (name, w) :: rest =>
    match fields.lookup name with
    | some c => (name, w.pruneAs (Wanted.below name) c) :: Members.prune fields rest
    | none => Members.prune fields rest

def Value.pruneItems (want : Wanted) : List Value → List Value
  | [] => []
  | w :: ws => w.pruneAs want .node :: Value.pruneItems want ws

end

/-- a value that may be a tree, without the members that are not read -/
def Value.prune (v : Value) : Value := v.pruneAs .program .node

theorem Members.get?_prune {fields : Fields} {name : String} {c : Content} (h : fields.lookup name = some c)
    (ms : Members) : (prune fields ms).get? name = (ms.get? name).map (Value.pruneAs (.below name) c) := by
  induction ms with
  | nil => rfl
  | cons m ms ih =>
    obtain ⟨k, w⟩ := m
    rw [prune, get?_cons]
    by_cases hk : name = k
    · subst hk
      rw [h, if_pos rfl]
      simp only [get?_cons, if_true]
      rfl
    · rw [if_neg hk, ← ih]
      cases hlookup : fields.lookup k with
      | none => rfl
      | some c' =>
        simp only [get?_cons]
        rw [if_neg hk]

theorem Value.pruneAs_plain (want : Wanted) (v : Value) : v.pruneAs want .plain = v := by
  cases v <;> rfl

/-! ## Objects side by side -/

theorem Members.items?_of_none {ms : Members} {name : String} (h : ms.get? name = none) : ms.items? name = some [] := by
  rw [items?, h]

namespace Object

variable {v v' : Value} {o : Object v} {o' : Object v'} {name : String}

/-- the same object but for members that are not read, and for what is not read in the others -/
structure AgreesOn (fields : Fields) (o' : Object v') (o : Object v) : Prop where
  path : o'.path = o.path
  kind : o'.kind = o.kind
  get? : ∀ name c, fields.lookup name = some c →
    o'.members.get? name = (o.members.get? name).map (Value.pruneAs (.below name) c)

theorem get_of_none (h : o.members.get? name = none) : o.get name = .error ⟨o.path, .missing o.kind name⟩ := by
  unfold get
  split
  · rfl
  · next hsome =>
    rw [h] at hsome
    cases hsome

theorem list_of_items? {ws : List Value} (h : o.members.items? name = some ws) :
    ∃ ws', o.list name = .ok ws' ∧ ws'.val = ws := by
  unfold list
  unfold Members.items? at h
  split
  · next hget =>
    rw [hget] at h
    exact ⟨_, rfl, Option.some.inj h⟩
  · next hget =>
    rw [hget] at h
    exact ⟨_, rfl, Option.some.inj h⟩
  · next w hw hget =>
    rw [hget] at h
    cases w with
    | list ws' => exact absurd rfl (hw ws')
    | _ => cases h

theorem list_of_ne {w : Value} (h : o.members.get? name = some w) (hw : ∀ ws, w ≠ .list ws) :
    o.list name = .error ⟨o.place name, .wrongType w.description .list⟩ := by
  unfold list
  split
  · next hnone =>
    rw [h] at hnone
    cases hnone
  · next ws hsome =>
    exact absurd (Option.some.inj (h.symm.trans hsome)) (hw ws)
  · next w' _ hsome =>
    rw [Option.some.inj (h.symm.trans hsome)]

namespace AgreesOn

variable {fields : Fields} {α : Type}

theorem place (h : o'.AgreesOn fields o) (name : String) : o'.place name = o.place name := by
  rw [Object.place, Object.place, h.path]

/-- a member is missing in both, or it is read in both -/
theorem bind_get {c : Content} (h : o'.AgreesOn fields o) (hname : fields.lookup name = some c)
    {f' : { w : Value // sizeOf w < sizeOf v' } → Except Complaint α}
    {f : { w : Value // sizeOf w < sizeOf v } → Except Complaint α}
    (hf : ∀ w' w, w'.val = w.val.pruneAs (.below name) c → f' w' = f w) :
    (o'.get name >>= f') = (o.get name >>= f) := by
  have hget := h.get? name c hname
  cases hw : o.members.get? name with
  | none =>
    rw [hw] at hget
    rw [get_of_none hget, get_of_none hw, h.path, h.kind]
    rfl
  | some w =>
    rw [hw] at hget
    obtain ⟨hlt', hget'⟩ := get_of_some hget
    obtain ⟨hlt, hget⟩ := get_of_some hw
    rw [hget', hget]
    exact hf _ _ rfl

/-- a member without parts is the same in both -/
theorem bind_get_plain (h : o'.AgreesOn fields o) (hname : fields.lookup name = some .plain)
    {f' : { w : Value // sizeOf w < sizeOf v' } → Except Complaint α}
    {f : { w : Value // sizeOf w < sizeOf v } → Except Complaint α}
    (hf : ∀ w hlt' hlt, f' ⟨w, hlt'⟩ = f ⟨w, hlt⟩) : (o'.get name >>= f') = (o.get name >>= f) := by
  apply h.bind_get hname
  rintro ⟨w', hlt'⟩ ⟨w, hlt⟩ hw
  obtain rfl : w' = w := hw.trans (Value.pruneAs_plain _ w)
  exact hf w' hlt' hlt

theorem string (h : o'.AgreesOn fields o) (hname : fields.lookup name = some .plain) :
    o'.string name = o.string name := by
  apply h.bind_get_plain hname
  intro w hlt' hlt
  rw [h.place]
  cases w <;> rfl

theorem bool (h : o'.AgreesOn fields o) (hname : fields.lookup name = some .plain) : o'.bool name = o.bool name := by
  apply h.bind_get_plain hname
  intro w hlt' hlt
  rw [h.place]
  cases w <;> rfl

theorem integer (h : o'.AgreesOn fields o) (hname : fields.lookup name = some .plain) (least greatest : ℤ) :
    o'.integer name least greatest = o.integer name least greatest := by
  apply h.bind_get_plain hname
  intro w hlt' hlt
  rw [h.place]

theorem integerOrZero (h : o'.AgreesOn fields o) (hname : fields.lookup name = some .plain) (least greatest : ℤ) :
    o'.integerOrZero name least greatest = o.integerOrZero name least greatest := by
  rw [Object.integerOrZero, Object.integerOrZero, Members.contains_eq, Members.contains_eq, h.get? name .plain hname,
    Option.isSome_map, h.integer hname]

/-- a list is left out in both, or it is a list in both, or it is another value in both -/
theorem bind_list {c : Content} (h : o'.AgreesOn fields o) (hname : fields.lookup name = some c)
    {g : List Value → List Value} (hnil : g [] = [])
    (hlist : ∀ ws, (Value.list ws).pruneAs (.below name) c = .list (g ws))
    (hother : ∀ w : Value, (∀ ws, w ≠ .list ws) → w.pruneAs (.below name) c = w)
    {f' : { ws : List Value // sizeOf ws < sizeOf v' } → Except Complaint α}
    {f : { ws : List Value // sizeOf ws < sizeOf v } → Except Complaint α}
    (hf : ∀ ws' ws, ws'.val = g ws.val → f' ws' = f ws) : (o'.list name >>= f') = (o.list name >>= f) := by
  have hget := h.get? name c hname
  cases hw : o.members.get? name with
  | none =>
    rw [hw] at hget
    obtain ⟨ws', hws', hval'⟩ := list_of_items? (Members.items?_of_none hget)
    obtain ⟨ws, hws, hval⟩ := list_of_items? (Members.items?_of_none hw)
    rw [hws', hws]
    exact hf _ _ (by rw [hval', hval, hnil])
  | some w =>
    rw [hw, Option.map_some] at hget
    by_cases hws : ∃ ws, w = .list ws
    · obtain ⟨ws, rfl⟩ := hws
      rw [hlist] at hget
      obtain ⟨ws', hws', hval'⟩ := list_of_items? (Members.items?_of_get? hget)
      obtain ⟨ws'', hws, hval⟩ := list_of_items? (Members.items?_of_get? hw)
      rw [hws', hws]
      exact hf _ _ (by rw [hval', hval])
    · have hne : ∀ ws, w ≠ .list ws := fun ws hw => hws ⟨ws, hw⟩
      rw [hother w hne] at hget
      rw [list_of_ne hget hne, list_of_ne hw hne, h.place]
      rfl

theorem bind_names (h : o'.AgreesOn fields o) (hname : fields.lookup name = some .names)
    {f' : { ws : List Value // sizeOf ws < sizeOf v' } → Except Complaint α}
    {f : { ws : List Value // sizeOf ws < sizeOf v } → Except Complaint α}
    (hf : ∀ ws' ws, ws'.val = ws.val → f' ws' = f ws) : (o'.list name >>= f') = (o.list name >>= f) := by
  refine h.bind_list hname (g := id) rfl (fun ws => rfl) (fun w _ => ?_) hf
  cases w <;> rfl

theorem bind_nodes (h : o'.AgreesOn fields o) (hname : fields.lookup name = some .nodes)
    {f' : { ws : List Value // sizeOf ws < sizeOf v' } → Except Complaint α}
    {f : { ws : List Value // sizeOf ws < sizeOf v } → Except Complaint α}
    (hf : ∀ ws' ws, ws'.val = Value.pruneItems (.below name) ws.val → f' ws' = f ws) :
    (o'.list name >>= f') = (o.list name >>= f) := by
  refine h.bind_list hname rfl (fun ws => rfl) (fun w hw => ?_) hf
  cases w with
  | list ws => exact absurd rfl (hw ws)
  | _ => rfl

end AgreesOn

end Object

/-! ## Nodes -/

theorem Value.bind_entry {α : Type} {want : Wanted} {path : Path} {kind : String} {w w' : Value}
    (hw : w' = w.pruneAs want .entry) {f' : Object w' → Except Complaint α} {f : Object w → Except Complaint α}
    (hf : ∀ e' e, Object.AgreesOn fieldsOfEntry e' e → f' e' = f e) :
    (w'.object? path kind >>= f') = (w.object? path kind >>= f) := by
  subst hw
  cases w with
  | object ms => exact hf _ _ ⟨rfl, rfl, fun name c hname => Members.get?_prune hname ms⟩
  | _ => rfl

theorem Object.AgreesOn.reference {v v' : Value} {o : Object v} {o' : Object v'} {fields : Fields}
    (h : o'.AgreesOn fields o) (hname : fields.lookup "name" = some .plain)
    (hlevel : fields.lookup "level" = some .plain) (hentry : fields.lookup "entry" = some .entry) :
    o'.reference = o.reference := by
  rw [Object.reference, Object.reference, h.string hname, h.integer hlevel]
  refine bind_congr fun name => bind_congr fun level => h.bind_get hentry fun w' w hw => ?_
  rw [h.place]
  refine Value.bind_entry hw fun e' e he => ?_
  rw [he.integer rfl, he.integer rfl]

/-- a node with a kind: what is left to read is its position -/
theorem Value.node_of_kind {ms : Members} {kind : String} (h : ms.get? "kind" = some (.string kind)) (path : Path) :
    ∃ o : Object (.object ms), o.path = path ∧ o.kind = kind ∧ o.members = ms ∧
      (Value.object ms).node path = (do
        let line ← o.integerOrZero "line" 0 maxIndex
        let col ← o.integerOrZero "col" 0 maxIndex
        .ok (o, ⟨Int32.ofInt line, Int32.ofInt col⟩)) := by
  refine ⟨⟨path, kind, ms, by simp⟩, rfl, rfl, rfl, ?_⟩
  simp only [Value.node, Value.object?, bind, Except.bind, h]

/-- an object without a kind is no node, and neither is one with a kind that is no string -/
theorem Value.node_of_ne {ms : Members} (h : ∀ kind, ms.get? "kind" ≠ some (.string kind)) (path : Path) :
    (Value.object ms).node path = .error (((ms.get? "kind").map fun w =>
      (⟨path ++ [.member "kind"], .wrongType w.description .string⟩ : Complaint)).getD ⟨path, .noKind⟩) := by
  cases hkind : ms.get? "kind" with
  | none => simp only [Value.node, Value.object?, bind, Except.bind, hkind, Option.map_none, Option.getD_none]
  | some w =>
    cases w with
    | string kind => exact absurd hkind (h kind)
    | _ => simp only [Value.node, Value.object?, bind, Except.bind, hkind, Option.map_some, Option.getD_some]; rfl

theorem Members.get?_kind_prune (want : Wanted) (ms : Members) :
    (prune (fieldsAs want ms) ms).get? "kind" = ms.get? "kind" := by
  have hlookup : (fieldsAs want ms).lookup "kind" = some .plain := by
    unfold fieldsAs
    split
    · rfl
    · rfl
  have hplain : Value.pruneAs (.below "kind") .plain = id := funext (Value.pruneAs_plain _)
  rw [get?_prune hlookup, hplain, Option.map_id, id]

/-- nodes are read side by side up to their positions -/
theorem Value.bind_node {α : Type} {want : Wanted} {path : Path} {v v' : Value} (hv : v' = v.pruneAs want .node)
    {f' : Object v' × Position → Except Complaint α} {f : Object v × Position → Except Complaint α}
    (hf : ∀ o' o pos, Object.AgreesOn (fieldsOfNode ++ want.fields o.kind) o' o → f' (o', pos) = f (o, pos)) :
    (v'.node path >>= f') = (v.node path >>= f) := by
  cases v with
  | object ms =>
    obtain rfl : v' = .object (Members.prune (Members.fieldsAs want ms) ms) := hv
    have hkind := Members.get?_kind_prune want ms
    by_cases h : ∃ kind, Members.get? ms "kind" = some (.string kind)
    · obtain ⟨kind, h⟩ := h
      obtain ⟨o', hpath', hkind', hmembers', hnode'⟩ := Value.node_of_kind (hkind.trans h) path
      obtain ⟨o, hpath, rfl, hmembers, hnode⟩ := Value.node_of_kind h path
      have hfields : Members.fieldsAs want ms = fieldsOfNode ++ want.fields o.kind := by rw [Members.fieldsAs, h]
      have hagrees : o'.AgreesOn (fieldsOfNode ++ want.fields o.kind) o := by
        refine ⟨hpath'.trans hpath.symm, hkind', fun name c hname => ?_⟩
        rw [hmembers', hmembers, hfields, Members.get?_prune hname]
      rw [hnode', hnode, hagrees.integerOrZero rfl, hagrees.integerOrZero rfl]
      simp only [bind_assoc]
      exact bind_congr fun line => bind_congr fun col => hf o' o _ hagrees
    · have h : ∀ kind, Members.get? ms "kind" ≠ some (.string kind) := fun kind hk => h ⟨kind, hk⟩
      rw [Value.node_of_ne h, Value.node_of_ne (hkind ▸ h), hkind]
      rfl
  | _ =>
    subst hv
    rfl

/-! ## Trees -/

/-- an expression in a member, if smaller ones are read alike -/
theorem Object.AgreesOn.bind_expr {α : Type} {v v' : Value} {o : Object v} {o' : Object v'} {fields : Fields}
    {name : String} (h : o'.AgreesOn fields o) (hname : fields.lookup name = some .node)
    (hbelow : Wanted.below name = .expression)
    (hread : ∀ path (w : Value), sizeOf w < sizeOf v →
      Expr.ofValue path (w.pruneAs .expression .node) = Expr.ofValue path w)
    {f' f : Expr → Except Complaint α} (hf : ∀ e, f' e = f e) :
    (o'.get name >>= fun w => Expr.ofValue (o'.place name) w.val >>= f') =
      (o.get name >>= fun w => Expr.ofValue (o.place name) w.val >>= f) := by
  refine h.bind_get hname fun w' w hw => ?_
  rw [hw, hbelow, h.place, hread _ w.val w.property]
  exact bind_congr hf

theorem Object.AgreesOn.operands {v v' : Value} {o : Object v} {o' : Object v'} {fields : Fields}
    (h : o'.AgreesOn fields o) (hleft : fields.lookup "left" = some .node) (hright : fields.lookup "right" = some .node)
    (hread : ∀ path (w : Value), sizeOf w < sizeOf v →
      Expr.ofValue path (w.pruneAs .expression .node) = Expr.ofValue path w) :
    Expr.operandsOfObject o' = Expr.operandsOfObject o := by
  rw [Expr.operandsOfObject, Expr.operandsOfObject]
  refine h.bind_expr hleft rfl hread fun left => ?_
  exact h.bind_expr hright rfl hread fun right => rfl

mutual

theorem Expr.ofValue_prune (path : Path) (v : Value) :
    Expr.ofValue path (v.pruneAs .expression .node) = Expr.ofValue path v := by
  rw [Expr.ofValue, Expr.ofValue]
  refine Value.bind_node rfl fun o' o pos hagrees => ?_
  have hread : ∀ path (w : Value), sizeOf w < sizeOf v →
      Expr.ofValue path (w.pruneAs .expression .node) = Expr.ofValue path w := fun path w _ => Expr.ofValue_prune path w
  simp only [hagrees.kind]
  cases hkind : ExprKind.ofName? o.kind with
  | none => rfl
  | some k =>
    rw [← ExprKind.ofName?_eq_some.1 hkind] at hagrees
    cases k with
    | int =>
      dsimp only
      rw [hagrees.integer rfl]
    | bool =>
      dsimp only
      rw [hagrees.bool rfl]
    | ident =>
      dsimp only
      rw [hagrees.reference rfl rfl rfl]
    | call =>
      dsimp only
      rw [hagrees.reference rfl rfl rfl]
      refine bind_congr fun r => hagrees.bind_nodes rfl ?_
      rintro ⟨ws', hlt'⟩ ⟨ws, hlt⟩ hws
      obtain rfl : ws' = Value.pruneItems .expression ws := hws
      dsimp only
      rw [hagrees.place, Expr.ofValues_prune (o.place "args") 0 ws]
    | cond =>
      refine hagrees.bind_expr rfl rfl hread fun test => ?_
      refine hagrees.bind_expr rfl rfl hread fun yes => ?_
      exact hagrees.bind_expr rfl rfl hread fun no => rfl
    | print => exact hagrees.bind_expr rfl rfl hread fun arg => rfl
    | _ =>
      -- the three operators
      dsimp only
      rw [hagrees.operands rfl rfl hread]
termination_by (sizeOf v, 1)

theorem Expr.ofValues_prune (path : Path) (i : ℕ) (ws : List Value) :
    Expr.ofValues path i (Value.pruneItems .expression ws) = Expr.ofValues path i ws := by
  cases ws with
  | nil => rfl
  | cons w ws =>
    rw [Value.pruneItems, Expr.ofValues, Expr.ofValues, Expr.ofValue_prune _ w, Expr.ofValues_prune path (i + 1) ws]
termination_by (sizeOf ws, 1)

end

theorem Object.AgreesOn.expr {v v' : Value} {o : Object v} {o' : Object v'} {fields : Fields} {name : String}
    (h : o'.AgreesOn fields o) (hname : fields.lookup name = some .node) (hbelow : Wanted.below name = .expression) :
    o'.expr name = o.expr name := by
  refine h.bind_get hname fun w' w hw => ?_
  rw [hw, hbelow, h.place, Expr.ofValue_prune]

mutual

theorem Decl.ofValue_prune (path : Path) (v : Value) :
    Decl.ofValue path (v.pruneAs .declaration .node) = Decl.ofValue path v := by
  rw [Decl.ofValue, Decl.ofValue]
  refine Value.bind_node rfl fun o' o pos hagrees => ?_
  simp only [hagrees.kind]
  cases hkind : DeclKind.ofName? o.kind with
  | none => rfl
  | some k =>
    rw [← DeclKind.ofName?_eq_some.1 hkind] at hagrees
    cases k with
    | var =>
      dsimp only
      rw [hagrees.string rfl, hagrees.expr rfl rfl]
    | func =>
      dsimp only
      rw [hagrees.string rfl, hagrees.expr rfl rfl]
      refine bind_congr fun name => hagrees.bind_names rfl fun ps' ps hps => ?_
      rw [hps, hagrees.place]
      refine bind_congr fun params => hagrees.bind_nodes rfl ?_
      rintro ⟨ds', hlt'⟩ ⟨ds, hlt⟩ hds
      obtain rfl : ds' = Value.pruneItems .declaration ds := hds
      dsimp only
      rw [hagrees.place, Decl.ofValues_prune (o.place "decls") 0 ds]
termination_by sizeOf v

theorem Decl.ofValues_prune (path : Path) (i : ℕ) (ws : List Value) :
    Decl.ofValues path i (Value.pruneItems .declaration ws) = Decl.ofValues path i ws := by
  cases ws with
  | nil => rfl
  | cons w ws =>
    rw [Value.pruneItems, Decl.ofValues, Decl.ofValues, Decl.ofValue_prune _ w, Decl.ofValues_prune path (i + 1) ws]
termination_by sizeOf ws

end

/-- **Unread members do not matter.** A value is read as the same tree, or refused with the same complaint, without the
members that are not read. -/
theorem unread_members_do_not_matter (v : Value) : Root.ofValue v.prune = Root.ofValue v := by
  rw [Value.prune, Root.ofValue, Root.ofValue]
  refine Value.bind_node rfl fun o' o pos hagrees => ?_
  simp only [hagrees.kind]
  cases hkind : RootKind.ofName? o.kind with
  | none => rfl
  | some k =>
    rw [← RootKind.ofName?_eq_some.1 hkind] at hagrees
    cases k with
    | letIn =>
      dsimp only
      rw [hagrees.expr rfl rfl]
      refine hagrees.bind_nodes rfl fun ds' ds hds => ?_
      rw [hds, hagrees.place]
      exact congrArg (· >>= _) (Decl.ofValues_prune (o.place "decls") 0 ds.val)
    | bare =>
      dsimp only
      rw [hagrees.expr rfl rfl]

-- a declaration may not stand for an expression, so all but its kind is taken away
example : Value.prune (.object [("author", .null), ("body", .object [("kind", .string "var"), ("name", .string "x")]),
      ("kind", .string "prog")]) =
    .object [("body", .object [("kind", .string "var")]), ("kind", .string "prog")] := rfl

end LetStack

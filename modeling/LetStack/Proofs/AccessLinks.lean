/-
Access links hold where calls name functions.

A call is direct if the name it calls denotes a function, declared with as many parameters as the call has arguments,
and if the declarations of the scope have been executed far enough: the whole group of functions that the callee belongs
to. Functions may still be read as values; they are not called through the places where they are put.

The pieces of an expression need what lies on the stack: the activations of the scopes around, each linked to the next,
with the addresses of their functions in place (`Linked`). They push one word and leave that as it is. A function is
entered with its link on top of the stack, and is safe if its caller is after the return (`CallSafe`); that is an
induction on the number of steps, since the callee has one step less to go.

Results:
- `Root.CallsDirectly.wellResolved`: a tree whose calls are direct is well-resolved;
- `access_links_hold_for_direct_calls`: its access links hold, however it runs.
-/
import LetStack.Proofs.Continuation

namespace LetStack

/-! ## Direct calls -/

/-- a function with `arity` parameters, and its group has been executed -/
def Outlook.CanCall (arity : Nat) (o : Outlook) : Place → Prop
  | .param _ => False
  | .decl i => o.scope.HasFunction arity (.decl i) ∧ o.scope.readyAt i ≤ o.ready

/-- what is read is a parameter or a declaration, what is called is a function that can be -/
def direct : Use → Outlook → Place → Prop
  | .value, o, p => o.scope.Has p
  | .call arity, o, p => o.CanCall arity p

def Root.CallsDirectly (r : Root) : Prop := r.Obeys direct

section Rules

variable {rule rule' : Use → Outlook → Place → Prop}

theorem Reference.Obeys.mono (hrule : ∀ use o p, rule use o p → rule' use o p) {outlooks : List Outlook} {use : Use}
    {r : Reference} (h : r.Obeys rule outlooks use) : r.Obeys rule' outlooks use := by
  obtain ⟨hlevel, e, p, o, outer, he, hp, ho, hgood⟩ := h
  exact ⟨hlevel, e, p, o, outer, he, hp, ho, hrule use o p hgood⟩

mutual

theorem Expr.Obeys.mono (hrule : ∀ use o p, rule use o p → rule' use o p) {outlooks : List Outlook} (e : Expr)
    (h : e.Obeys rule outlooks) : e.Obeys rule' outlooks := by
  cases e with
  | absent => exact h.elim
  | literal p v => exact h
  | ident p r => exact Reference.Obeys.mono hrule h
  | call p r args => exact ⟨h.1.mono hrule, Expr.ObeysAll.mono hrule args h.2⟩
  | cond p test yes no =>
    exact ⟨Expr.Obeys.mono hrule test h.1, Expr.Obeys.mono hrule yes h.2.1, Expr.Obeys.mono hrule no h.2.2⟩
  | binary p op left right => exact ⟨h.1, Expr.Obeys.mono hrule left h.2.1, Expr.Obeys.mono hrule right h.2.2⟩
  | print p arg => exact Expr.Obeys.mono hrule arg h

theorem Expr.ObeysAll.mono (hrule : ∀ use o p, rule use o p → rule' use o p) {outlooks : List Outlook} (es : List Expr)
    (h : Expr.ObeysAll rule outlooks es) : Expr.ObeysAll rule' outlooks es := by
  cases es with
  | nil => trivial
  | cons e es => exact ⟨Expr.Obeys.mono hrule e h.1, Expr.ObeysAll.mono hrule es h.2⟩

end

mutual

theorem Decl.Obeys.mono (hrule : ∀ use o p, rule use o p → rule' use o p) {outlooks : List Outlook} (d : Decl)
    (h : d.Obeys rule outlooks) : d.Obeys rule' outlooks := by
  cases d with
  | absent => exact h.elim
  | var p name value => exact Expr.Obeys.mono hrule value h
  | func p name params decls body => exact ⟨Decl.ObeysAll.mono hrule decls h.1, Expr.Obeys.mono hrule body h.2⟩

theorem Decl.ObeysAll.mono (hrule : ∀ use o p, rule use o p → rule' use o p) {s : Scope} {outer : List Outlook}
    {i : Nat} (ds : List Decl) (h : Decl.ObeysAll rule s outer i ds) : Decl.ObeysAll rule' s outer i ds := by
  cases ds with
  | nil => trivial
  | cons d ds => exact ⟨Decl.Obeys.mono hrule d h.1, Decl.ObeysAll.mono hrule ds h.2⟩

end

theorem Root.Obeys.mono (hrule : ∀ use o p, rule use o p → rule' use o p) {r : Root} (h : r.Obeys rule) :
    r.Obeys rule' := by
  cases r with
  | absent => exact h.elim
  | letIn p decls body => exact ⟨Decl.ObeysAll.mono hrule decls h.1, Expr.Obeys.mono hrule body h.2⟩
  | bare body => exact Expr.Obeys.mono hrule body h

/-- what each declaration of a scope obeys -/
theorem Decl.ObeysAll.get {s : Scope} {outer : List Outlook} {ds : List Decl} {i j : Nat} {d : Decl}
    (h : Decl.ObeysAll rule s outer i ds) (hd : ds[j]? = some d) : d.Obeys rule (⟨s, s.readyAt (i + j)⟩ :: outer) := by
  induction ds generalizing i j with
  | nil => simp at hd
  | cons d' ds ih =>
    cases j with
    | zero =>
      obtain rfl := Option.some.inj hd
      exact h.1
    | succ j =>
      rw [← Nat.succ_add_eq_add_succ]
      exact ih h.2 hd

end Rules

theorem Root.CallsDirectly.wellResolved {r : Root} (h : r.CallsDirectly) : r.WellResolved := by
  refine h.mono fun use o p hgood => ?_
  cases use with
  | value => exact hgood
  | call arity =>
    cases p with
    | param i => exact hgood.elim
    | decl i =>
      obtain ⟨⟨pos, name, params, decls, body, hd, -⟩, -⟩ := hgood
      exact (List.getElem?_eq_some_iff.1 hd).1

/-- the value of a variable may rely on the declarations before it -/
theorem Scope.readyAt_var {s : Scope} {i : Nat} {pos : Position} {name : String} {value : Expr}
    (h : s.decls[i]? = some (.var pos name value)) : s.readyAt i = i := by
  obtain ⟨hi, hd⟩ := List.getElem?_eq_some_iff.1 h
  have hstop : ¬ (s.decls[i]).isFunction = true := by rw [hd]; exact Bool.false_ne_true
  rw [Scope.readyAt, List.drop_eq_getElem_cons hi, List.dropWhile_cons_of_neg hstop, ← List.drop_eq_getElem_cons hi,
    List.length_drop]
  omega

/-- a function belongs to its group -/
theorem Scope.lt_readyAt {s : Scope} {i : Nat} {pos : Position} {name : String} {params : List Param}
    {decls : List Decl} {body : Expr} (h : s.decls[i]? = some (.func pos name params decls body)) :
    i < s.readyAt i := by
  obtain ⟨hi, hd⟩ := List.getElem?_eq_some_iff.1 h
  have hgo : (s.decls[i]).isFunction = true := by rw [hd]; rfl
  have hle := ((s.decls.drop (i + 1)).dropWhile_suffix Decl.isFunction).length_le
  rw [Scope.readyAt, List.drop_eq_getElem_cons hi, List.dropWhile_cons_of_pos hgo]
  rw [List.length_drop] at hle
  omega

/-! ## Frames and their links -/

section Frames

variable (code : Code) (sites : Sites) (active : List Activation) (mem : Int → Int) (low : Int)

/-- the block of a function, which is declared in `scope`, stands at `a`, and those of the functions inside stand where
their labels lead -/
structure Stands (scope : Option Label) (c : Counters) (params : List Param) (decls : List Decl) (body : Expr)
    (a : Nat) : Prop where
  block : code.Holds a (functionCode c params decls body)
  hosts : code.Hosts (Decl.routinesAll c.inside decls)
  site : (scope, .function c.functions) ∈ sites
  inner : Decl.sitesAll (some (.function c.functions)) c.inside decls ⊆ sites

/-- the word `w` may be in the slot of the declaration: for a function it is where the block stands -/
def Decl.StoredAs (scope : Option Label) (w : Int) : Decl → Prop
  | .func _ _ params decls body => ∃ (c : Counters) (a : Nat), w = a ∧ Stands code sites scope c params decls body a
  | _ => True

/-- an activation at `base` with the functions of which the outlook knows, on a stack whose top is at `low` -/
structure Outlook.LiesAt (scope : Option Label) (outer : List Outlook) (o : Outlook) (base : Int) : Prop where
  low_le : low ≤ base
  active : ⟨scope, base⟩ ∈ active
  slot : ∀ i d, i < o.ready → o.scope.decls[i]? = some d →
    low ≤ base + (Place.decl i).offset ∧ d.StoredAs code sites scope (mem (base + (Place.decl i).offset))
  obeys : Decl.ObeysAll direct o.scope outer 0 o.scope.decls

/-- **Linked frames.** The activations of the scopes around lie on the stack, the innermost at `base`, each linked to
the next. -/
inductive Linked : List Outlook → Int → Prop where
  | nil {base} : Linked [] base
  | cons {scope o outer base} : o.LiesAt code sites active mem low scope outer base → Linked outer (mem base) →
      Linked (o :: outer) base

/-- a function that can be entered at `a` with the link `link`: it is declared in the activation there -/
structure Callee (scope : Option Label) (outlooks : List Outlook) (c : Counters) (params : List Param)
    (decls : List Decl) (body : Expr) (a : Nat) (link : Int) : Prop
    extends Stands code sites scope c params decls body a where
  declared : ⟨scope, link⟩ ∈ active
  linked : Linked code sites active mem low outlooks link
  obeys : Decl.ObeysAll direct ⟨params, decls⟩ outlooks 0 decls
  obeys_body : body.Obeys direct (⟨⟨params, decls⟩, decls.length⟩ :: outlooks)

end Frames

/-- the innermost frame of a tracked state stands for the first outlook, and the frames linked from it for the others -/
abbrev Tracked.Linked (code : Code) (sites : Sites) (outlooks : List Outlook) (t : Tracked) : Prop :=
  LetStack.Linked code sites t.active t.machine.mem t.machine.sp outlooks t.machine.fp

section Frames

variable {code rest : Code} {sites : Sites} {active active' : List Activation} {mem mem' : Int → Int}
  {low low' base : Int} {outlooks outer : List Outlook} {t₀ t : Tracked} {n k : Nat}

theorem Outlook.LiesAt.mono {scope : Option Label} {o : Outlook}
    (h : o.LiesAt code sites active mem low scope outer base) (hlow : low' ≤ low)
    (hmem : ∀ a, low ≤ a → mem' a = mem a) (hactive : active ⊆ active') :
    o.LiesAt code sites active' mem' low' scope outer base where
  low_le := hlow.trans h.low_le
  active := hactive h.active
  slot := by
    intro i d hi hd
    obtain ⟨hle, hstored⟩ := h.slot i d hi hd
    rw [hmem _ hle]
    exact ⟨hlow.trans hle, hstored⟩
  obeys := h.obeys

namespace Linked

/-- frames stay where they are while the stack above them changes and activations begin -/
theorem mono (h : Linked code sites active mem low outlooks base) (hlow : low' ≤ low)
    (hmem : ∀ a, low ≤ a → mem' a = mem a) (hactive : active ⊆ active') :
    Linked code sites active' mem' low' outlooks base := by
  induction h with
  | nil => exact .nil
  | cons hlies _ ih =>
    refine .cons (hlies.mono hlow hmem hactive) ?_
    rw [hmem _ hlies.low_le]
    exact ih

theorem above (h : t₀.Linked code sites outlooks) (ht : t₀.Above k t) : t.Linked code sites outlooks := by
  have hlinked := h.mono ht.sp_le ht.kept ht.active_subset
  rwa [← ht.fp] at hlinked

/-- following `k` access links -/
theorem drop (h : Linked code sites active mem low outlooks base) (k : Nat) :
    Linked code sites active mem low (outlooks.drop k) (mem^[k] base) := by
  induction k generalizing outlooks base with
  | zero => exact h
  | succ k ih =>
    cases h with
    | nil => exact .nil
    | cons _ hrest => exact ih hrest

theorem links (h : Linked code sites active mem low outlooks base) : ∀ i < outlooks.length, low ≤ mem^[i] base := by
  intro i hi
  have hdrop := h.drop i
  rw [List.drop_eq_getElem_cons hi] at hdrop
  cases hdrop with
  | cons hlies _ => exact hlies.low_le

end Linked

theorem Callee.mono {scope : Option Label} {c : Counters} {params : List Param} {decls : List Decl} {body : Expr}
    {a : Nat} {link : Int} (h : Callee code sites active mem low scope outlooks c params decls body a link)
    (hlow : low' ≤ low) (hmem : ∀ a, low ≤ a → mem' a = mem a) (hactive : active ⊆ active') :
    Callee code sites active' mem' low' scope outlooks c params decls body a link :=
  { h with
    declared := hactive h.declared
    linked := h.linked.mono hlow hmem hactive }

/-- the code that pushes the base of the frame a reference denotes -/
theorem Continues.frame {rule : Use → Outlook → Place → Prop} {use : Use} {r : Reference}
    (h : Continues code sites n (t₀.Over [t₀.machine.mem^[r.hops.toInt.toNat] t₀.machine.fp]) rest)
    (hlinked : t₀.Linked code sites outlooks) (hr : r.Obeys rule outlooks use) :
    Continues code sites n (t₀.Over []) (r.frame ++ rest) := by
  have hloads := h.loads fun i hi => hlinked.links i (hi.trans hr.enclosing.2.1)
  refine hloads.push nofun nofun fun t ht => ?_
  rw [Instr.run, ht.fp]

/-- **Lookup.** The slot of a function that can be called holds where its block stands, and it lies in an activation of
the scope that declares the function. -/
theorem Linked.callee {arity : Nat} {r : Reference} (h : Linked code sites active mem low outlooks base)
    (hr : r.Obeys direct outlooks (.call arity)) :
    ∃ (scope : Option Label) (outlooks' : List Outlook) (c : Counters) (params : List Param) (decls : List Decl)
      (body : Expr) (a : Nat), params.length = arity ∧ low ≤ mem^[r.hops.toInt.toNat] base + r.offset.toInt ∧
      mem (mem^[r.hops.toInt.toNat] base + r.offset.toInt) = a ∧
      Callee code sites active mem low scope outlooks' c params decls body a (mem^[r.hops.toInt.toNat] base) := by
  obtain ⟨-, -, o, outer, p, hdrop, hoffset, hgood⟩ := hr.enclosing
  have hlinked := h.drop r.hops.toInt.toNat
  rw [hdrop] at hlinked
  rw [hoffset]
  cases p with
  | param i => exact hgood.elim
  | decl i =>
    obtain ⟨⟨pos, name, params, decls, body, hd, harity⟩, hready⟩ := hgood
    have hi := Scope.lt_readyAt hd
    cases hlinked with
    | @cons scope _ _ _ hlies hrest =>
      obtain ⟨hle, c, a, ha, hstands⟩ := hlies.slot i _ (by omega) hd
      have hobeys := hlies.obeys.get hd
      rw [Nat.zero_add] at hobeys
      -- the callee may rely on its own group only, whatever more has been executed
      have hgroup : Outlook.LiesAt code sites active mem low scope outer ⟨o.scope, o.scope.readyAt i⟩ _ :=
        ⟨hlies.low_le, hlies.active, fun j d hj => hlies.slot j d (lt_of_lt_of_le hj hready), hlies.obeys⟩
      exact ⟨scope, _, c, params, decls, body, a, harity, hle, ha, hstands, hlies.active, .cons hgroup hrest, hobeys.1,
        hobeys.2⟩

end Frames

/-! ## Calls -/

/-- a function with `params` parameters that is entered in `t` gets back to its caller in `t'`: the result is in the
place of the caller's frame pointer, which is restored, and what lies above is unchanged -/
structure Tracked.ReturnsTo (params : Nat) (t t' : Tracked) : Prop where
  ip : t.machine.ra = t'.machine.ip
  sp : t'.machine.sp = t.machine.sp + params + 1
  fp : t'.machine.fp = t.machine.mem (t.machine.sp + params + 1)
  active : t'.active = t.active
  kept : ∀ a, t.machine.sp + params + 2 ≤ a → t'.machine.mem a = t.machine.mem a

/-- entering a function, with its link on top of the stack, is safe if the return is -/
def CallSafe (code : Code) (sites : Sites) (n : Nat) : Prop :=
  ∀ (t : Tracked) (scope : Option Label) (outlooks : List Outlook) (c : Counters) (params : List Param)
    (decls : List Decl) (body : Expr),
    Callee code sites t.active t.machine.mem t.machine.sp scope outlooks c params decls body t.machine.ip
      t.machine.top →
    (∀ t', t.ReturnsTo params.length t' → t'.Safe code sites n) → t.Safe code sites n

section Calls

variable {code rest : Code} {sites : Sites} {n k : Nat} {t₀ t t' : Tracked} {outlooks : List Outlook}

/-- **Jumping.** With a base on top, on to the address that lies at `offset` from there; the base stays on top. -/
theorem Tracked.Safe.jump {offset : Int64} {a : Nat}
    (hat : code.Holds t.machine.ip (.stm :: .ltm :: .ltm :: pushInt offset :: .add :: .lw :: .js :: rest))
    (hkept : t.machine.sp ≤ t.machine.top + offset.toInt) (haddr : t.machine.mem (t.machine.top + offset.toInt) = a)
    (h : ∀ t', t.Above 0 t' → t'.machine.ip = a → (∃ n : Nat, t'.machine.ra = n ∧ code.Holds n rest) →
      t'.Safe code sites n) : t.Safe code sites n := by
  refine quiet hat.head nofun nofun ?_
  rintro _ ⟨⟩
  refine quiet hat.tail.head nofun nofun ?_
  rintro _ ⟨⟩
  refine quiet hat.tail.tail.head nofun nofun ?_
  rintro _ ⟨⟩
  have hjs : Continues code sites n (t.Over [(a : Int)]) (.js :: rest) := by
    intro t' ht' hat'
    exact js ht' hat' fun t'' ht'' hip hra => h t'' ht'' (Int.ofNat_inj.1 hip.symm) ⟨_, hra, hat'.tail⟩
  rw [← haddr] at hjs
  have hsum := (hjs.load hkept).add.push (i := pushInt offset) nofun nofun fun _ _ => rfl
  refine hsum _ ⟨⟨?_, rfl, rfl, ?_⟩, ?_⟩ hat.tail.tail.tail
  · simp
  · intro b hb
    have hne : b ≠ t.machine.sp - 1 := by omega
    have hself : Function.update t.machine.mem t.machine.sp t.machine.top = t.machine.mem := Function.update_eq_self _ _
    change Function.update (Function.update t.machine.mem (t.machine.sp + 1 - 1) t.machine.top)
      (t.machine.sp + 1 - 1 - 1) t.machine.top b = t.machine.mem b
    rw [Int.add_sub_cancel, Function.update_of_ne hne, hself]
  · intro i w hi
    obtain ⟨rfl, rfl⟩ : i = 0 ∧ t.machine.top = w := by
      cases i <;> simp_all
    simp

/-- from the caller's side: the frame pointer, `arity` arguments and the link have made place for the result -/
theorem Tracked.ReturnsTo.above {arity : Nat} {t₁ t₂ t₃ : Tracked} (h : t₂.ReturnsTo arity t₃)
    (h₁ : t.Over [t.machine.fp] t₁) (h₂ : t₁.Above (arity + 1) t₂) : t.Above 1 t₃ := by
  have hsp₁ := h₁.sp
  have hsp₂ := h₂.sp
  rw [List.length_singleton] at hsp₁
  have hcaller : t₂.machine.sp + arity + 1 = t₁.machine.sp := by omega
  refine ⟨?_, ?_, ?_, fun a ha => ?_⟩
  · rw [h.sp, hcaller, hsp₁]
  · rw [h.fp, hcaller, h₂.kept _ le_rfl]
    exact h₁.top
  · rw [h.active, h₂.active, h₁.active]
  · rw [h.kept a (by omega), h₂.kept a (by omega), h₁.kept a ha]

/-- **Calling.** A direct call pushes one word: its arguments do what arguments do, and the callee returns. -/
theorem Continues.call {args : Code} {arity : Nat} {r : Reference} (h : Continues code sites n (t₀.Above (k + 1)) rest)
    (hsafe : CallSafe code sites n) (hlinked : t₀.Linked code sites outlooks)
    (hr : r.Obeys direct outlooks (.call arity))
    (hargs : ∀ (t : Tracked) (rest : Code), t.Linked code sites outlooks →
      Continues code sites n (t.Above arity) rest → Continues code sites n (t.Above 0) (args ++ rest)) :
    Continues code sites n (t₀.Above k)
      (.lfp :: (args ++ (r.frame ++ .stm :: .ltm :: .ltm :: pushInt r.offset :: .add :: .lw :: .js :: rest))) := by
  intro t ht hat
  refine Tracked.Safe.quiet hat.head nofun nofun ?_
  rintro _ ⟨⟩
  -- `t₁` has the frame pointer on top, `t₂` the arguments, `t₃` the link, `t₄` is at the callee
  have h₁ := (Tracked.Over.refl t).push t.machine.fp
  have hlinked₁ := (hlinked.above ht).above h₁.toAbove
  refine hargs _ _ hlinked₁ ?_ _ (.refl _) hat.tail
  intro t₂ h₂ hat₂
  have hlinked₂ := hlinked₁.above h₂
  refine Continues.frame ?_ hlinked₂ hr t₂ (.refl t₂) hat₂
  intro t₃ h₃ hat₃
  obtain ⟨scope, outlooks', c, params, decls, body, a, rfl, hle, haddr, hcallee⟩ := hlinked₂.callee hr
  have hsp₃ := h₃.sp
  rw [List.length_singleton] at hsp₃
  rw [← h₃.top] at hle haddr hcallee
  refine Tracked.Safe.jump hat₃ (by omega) (by rw [h₃.kept _ hle, haddr]) ?_
  intro t₄ h₄ hip hra
  have h₂₄ := h₃.toAbove.trans h₄
  refine hsafe t₄ scope outlooks' c params decls body ?_ ?_
  · rw [hip, h₄.top]
    exact hcallee.mono h₂₄.sp_le h₂₄.kept h₂₄.active_subset
  · intro t₅ h₅
    obtain ⟨back, hback, hrest⟩ := hra
    refine h t₅ (ht.trans (h₅.above h₁ (h₂.trans h₂₄))) ?_
    have hip₅ : t₅.machine.ip = back := by
      rw [← Int.ofNat_inj, ← h₅.ip, hback]
    rw [hip₅]
    exact hrest

end Calls

/-! ## Expressions -/

mutual

/-- the code of an expression pushes one word -/
theorem Expr.continues {code : Code} {sites : Sites} {n : Nat} (hcode : code.LabelsDistinct)
    (hsafe : CallSafe code sites n) {outlooks : List Outlook} {t₀ : Tracked} (hlinked : t₀.Linked code sites outlooks)
    (e : Expr) (he : e.Obeys direct outlooks) {k : Nat} (next : Nat) {rest : Code}
    (h : Continues code sites n (t₀.Above (k + 1)) rest) :
    Continues code sites n (t₀.Above k) (e.code next ++ rest) := by
  cases e with
  | absent => exact he.elim
  | literal p v =>
    rcases he with ⟨z, rfl⟩ | ⟨b, rfl⟩
    · exact h.instr 0 1 rfl
    · exact h.instr 0 1 rfl
  | ident p r =>
    intro t ht hat
    rw [Expr.code, List.append_assoc] at hat
    have hrest : Continues code sites n (t.Above (0 + 1)) rest := fun t' h' => h t' (ht.trans h')
    have hread := ((hrest.instr 1 1 (i := .lw) rfl).instr 2 1 (i := .add) rfl).instr 0 1 (i := pushInt r.offset) rfl
    exact Continues.frame (fun t₁ h₁ hat₁ => hread t₁ h₁.toAbove hat₁) (hlinked.above ht) he t (.refl t) hat
  | call p r args =>
    have hargs : ∀ (t : Tracked) (rest : Code), t.Linked code sites outlooks →
        Continues code sites n (t.Above args.length) rest →
        Continues code sites n (t.Above 0) (Expr.argsCode next args ++ rest) := by
      intro t rest hlinked hrest
      rw [← Nat.zero_add args.length] at hrest
      exact Expr.continuesAll hcode hsafe hlinked args he.2 next hrest
    simpa only [Expr.code, List.append_assoc, List.cons_append, List.nil_append] using h.call hsafe hlinked he.1 hargs
  | cond p test yes no =>
    obtain ⟨htest, hyes, hno⟩ := he
    -- the branch for false jumps over the one for true; both come to the last label
    have hyes' := Expr.continues hcode hsafe hlinked yes hyes (next + 2 + test.labelCount + no.labelCount)
      (h.label (.control (next + 1)))
    have hjump := h.goto hcode (.control (next + 1))
      (.label (.control next) :: yes.code (next + 2 + test.labelCount + no.labelCount))
    have hno' := Expr.continues hcode hsafe hlinked no hno (next + 2 + test.labelCount) hjump
    have hbranch := Continues.branch hcode (.control next)
      (no.code (next + 2 + test.labelCount) ++ [.b (.control (next + 1))])
      (by simpa only [List.append_assoc, List.cons_append, List.nil_append] using hno') hyes'
    have htest' := Expr.continues hcode hsafe hlinked test htest (next + 2)
      (hbranch.instr 0 1 (i := pushInt 1) rfl)
    simpa only [Expr.code, List.append_assoc, List.cons_append, List.nil_append] using htest'
  | binary p op left right =>
    obtain ⟨hop, hleft, hright⟩ := he
    have hoperands : ∀ (next next' : Nat) (rest : Code), Continues code sites n (t₀.Above (k + 2)) rest →
        Continues code sites n (t₀.Above k) (left.code next ++ (right.code next' ++ rest)) := fun next next' rest h =>
      Expr.continues hcode hsafe hlinked left hleft next (Expr.continues hcode hsafe hlinked right hright next' h)
    rcases hop with rfl | rfl | rfl
    · have hone := (h.label (.control (next + 1))).instr 0 1 (i := pushInt 1) rfl
      have hzero := (h.goto hcode (.control (next + 1)) [.label (.control next), pushInt 1]).instr 0 1
        (i := pushInt 0) rfl
      have hbranch := Continues.branch hcode (.control next) [pushInt 0, .b (.control (next + 1))] hzero hone
      rw [Expr.code, List.append_assoc, List.append_assoc]
      exact hoperands _ _ _ hbranch
    · rw [Expr.code, List.append_assoc, List.append_assoc]
      exact hoperands _ _ _ (h.instr 2 1 rfl)
    · rw [Expr.code, List.append_assoc, List.append_assoc]
      exact hoperands _ _ _ (h.instr 2 1 rfl)
  | print p arg =>
    rw [Expr.code, List.append_assoc]
    exact Expr.continues hcode hsafe hlinked arg he next (h.instr 1 1 rfl)

/-- the code of arguments pushes one word for each -/
theorem Expr.continuesAll {code : Code} {sites : Sites} {n : Nat} (hcode : code.LabelsDistinct)
    (hsafe : CallSafe code sites n) {outlooks : List Outlook} {t₀ : Tracked} (hlinked : t₀.Linked code sites outlooks)
    (es : List Expr) (hes : Expr.ObeysAll direct outlooks es) {k : Nat} (next : Nat) {rest : Code}
    (h : Continues code sites n (t₀.Above (k + es.length)) rest) :
    Continues code sites n (t₀.Above k) (Expr.argsCode next es ++ rest) := by
  cases es with
  | nil => exact h
  | cons e es =>
    rw [Expr.argsCode, List.append_assoc]
    exact Expr.continuesAll hcode hsafe hlinked es hes.2 next (Expr.continues hcode hsafe hlinked e hes.1 _ h)

end

/-! ## Declarations -/

/-- the first `i` declarations of the scope `s`, in the innermost frame, have been executed since `t₀` -/
structure Tracked.Declared (code : Code) (sites : Sites) (scope : Option Label) (s : Scope) (outer : List Outlook)
    (t₀ : Tracked) (i : Nat) (t : Tracked) : Prop extends t₀.Above i t where
  lies : Outlook.LiesAt code sites t.active t.machine.mem t.machine.sp scope outer ⟨s, i⟩ t.machine.fp
  linked_outer : LetStack.Linked code sites t.active t.machine.mem t.machine.sp outer (t.machine.mem t.machine.fp)

section Declarations

variable {code rest : Code} {sites : Sites} {n : Nat} {scope : Option Label} {s : Scope} {outer : List Outlook}
  {t₀ t t' : Tracked}

theorem Tracked.Declared.linked {i : Nat} (h : t₀.Declared code sites scope s outer i t) :
    t.Linked code sites (⟨s, i⟩ :: outer) := .cons h.lies h.linked_outer

/-- a frame with its link in place, before its declarations are executed -/
theorem Tracked.Declared.zero (hlow : t.machine.sp ≤ t.machine.fp) (hactive : ⟨scope, t.machine.fp⟩ ∈ t.active)
    (hobeys : Decl.ObeysAll direct s outer 0 s.decls)
    (houter : LetStack.Linked code sites t.active t.machine.mem t.machine.sp outer (t.machine.mem t.machine.fp)) :
    t.Declared code sites scope s outer 0 t where
  toAbove := .refl t
  lies := ⟨hlow, hactive, fun i _ hi => absurd hi (Nat.not_lt_zero i), hobeys⟩
  linked_outer := houter

/-- one more word, which may be in the slot of the next declaration -/
theorem Tracked.Declared.declare {i : Nat} {d : Decl} (h : t₀.Declared code sites scope s outer i t)
    (hsp : t₀.machine.sp = t₀.machine.fp - 1) (hd : s.decls[i]? = some d) (ht : t.Above 1 t')
    (hstored : d.StoredAs code sites scope t'.machine.top) : t₀.Declared code sites scope s outer (i + 1) t' := by
  have hall := h.toAbove.trans ht
  have hlies := h.lies.mono ht.sp_le ht.kept ht.active_subset
  have houter := h.linked_outer.mono ht.sp_le ht.kept ht.active_subset
  rw [← ht.kept _ h.lies.low_le, ← ht.fp] at houter
  rw [← ht.fp] at hlies
  refine ⟨hall, ⟨hlies.low_le, hlies.active, fun j d' hj hd' => ?_, hlies.obeys⟩, houter⟩
  rcases Nat.lt_succ_iff_lt_or_eq.1 hj with hlt | rfl
  · exact hlies.slot j d' hlt hd'
  · obtain rfl := Option.some.inj (hd.symm.trans hd')
    have haddr : t'.machine.fp + (Place.decl j).offset = t'.machine.sp := by
      rw [hall.sp, hall.fp, hsp, Place.offset]
      omega
    rw [haddr]
    exact ⟨le_rfl, hstored⟩

/-- **Declarations.** One after the other, each pushes the word of its slot. -/
theorem Decl.continuesAll (hcode : code.LabelsDistinct) (hsafe : CallSafe code sites n)
    (hsp : t₀.machine.sp = t₀.machine.fp - 1) (ds done : List Decl) (c : Counters) (hs : s.decls = done ++ ds)
    (hhosts : code.Hosts (Decl.routinesAll c ds)) (hsites : Decl.sitesAll scope c ds ⊆ sites)
    (h : Continues code sites n (t₀.Declared code sites scope s outer s.decls.length) rest) :
    Continues code sites n (t₀.Declared code sites scope s outer done.length) (Decl.codeAll c ds ++ rest) := by
  induction ds generalizing done c with
  | nil =>
    rw [List.append_nil] at hs
    rwa [hs] at h
  | cons d ds ih =>
    intro t ht hat
    rw [Decl.codeAll, List.append_assoc] at hat
    obtain ⟨hhostsd, hhostsds⟩ := List.forall_mem_append.1 hhosts
    obtain ⟨hsitesd, hsitesds⟩ := List.append_subset.1 hsites
    have hd : s.decls[done.length]? = some d := by
      rw [hs]
      simp
    have hobeys := ht.lies.obeys.get hd
    rw [Nat.zero_add] at hobeys
    -- what is left to do after the word of `d`
    have hnext : ∀ t', t.Above 1 t' → d.StoredAs code sites scope t'.machine.top →
        code.Holds t'.machine.ip (Decl.codeAll (c.after d) ds ++ rest) → t'.Safe code sites n := by
      intro t' ht' hstored hat'
      have hdone := ht.declare hsp hd ht' hstored
      rw [← List.length_singleton (a := d), ← List.length_append] at hdone
      have hsplit : s.decls = (done ++ [d]) ++ ds := by rw [hs, List.append_assoc, List.singleton_append]
      exact ih (done ++ [d]) (c.after d) hsplit hhostsds hsitesds t' hdone hat'
    cases d with
    | absent => exact hobeys.elim
    | var pos name value =>
      rw [Scope.readyAt_var hd] at hobeys
      have hvalue := Expr.continues hcode hsafe ht.linked value hobeys c.labels (k := 0) fun t' ht' =>
        hnext t' ht' trivial
      exact hvalue t (.refl t) hat
    | func pos name params decls body =>
      obtain ⟨hself, hinner⟩ := List.forall_mem_cons.1 hhostsd
      obtain ⟨hsite, hsitesin⟩ := List.cons_subset.1 hsitesd
      obtain ⟨a, hl, ha⟩ := hself
      refine Tracked.Safe.quiet hat.head nofun nofun fun m hm => ?_
      have hword : code.target? (.function c.functions) = some a := hl
      rw [Instr.run, Operand.word?, hword] at hm
      obtain rfl := Option.some.inj hm
      have hpush := (Tracked.Over.refl t).push a
      refine hnext _ hpush.toAbove ?_ hat.tail
      exact ⟨c, a, hpush.top, ha, hinner, hsite, hsitesin⟩

end Declarations

/-! ## Functions -/

/-- a function with the label `l` has been entered in `t₀` and has pushed its return address -/
structure Tracked.Entered (l : Label) (t₀ t : Tracked) : Prop where
  sp : t.machine.sp = t₀.machine.sp - 1
  fp : t.machine.fp = t₀.machine.sp
  ra : t.machine.top = t₀.machine.ra
  active : t.active = ⟨some l, t₀.machine.sp⟩ :: t₀.active
  kept : ∀ a, t₀.machine.sp ≤ a → t.machine.mem a = t₀.machine.mem a

/-- the first instructions of a block, with the link on top -/
theorem Tracked.Safe.enter {code rest : Code} {sites : Sites} {n : Nat} {t : Tracked} {scope : Option Label} {l : Label}
    (hsites : sites.Unique) (hsite : (scope, l) ∈ sites)
    (hat : code.Holds t.machine.ip (.label l :: .cfp :: .lra :: rest)) (hlink : ⟨scope, t.machine.top⟩ ∈ t.active)
    (h : ∀ t', t.Entered l t' → code.Holds t'.machine.ip rest → t'.Safe code sites n) : t.Safe code sites (n + 1) := by
  refine of_quiet hat.head nofun nofun ?_
  rintro _ ⟨⟩
  refine cfp hsites hsite ⟨hat.head, hat.tail.head, trivial⟩ rfl hlink ?_
  refine quiet hat.tail.tail.head nofun nofun ?_
  rintro _ ⟨⟩
  have hover := (Over.refl ⟨{ t.machine.next.next with fp := t.machine.sp }, ⟨some l, t.machine.sp⟩ :: t.active⟩).push
    t.machine.ra
  exact h _ ⟨rfl, rfl, hover.top, rfl, hover.kept⟩ hat.tail.tail.tail

/-- the frame of the function that has been entered -/
theorem Tracked.Entered.declared {code : Code} {sites : Sites} {t₀ t : Tracked} {scope : Option Label}
    {outlooks : List Outlook} {c : Counters} {params : List Param} {decls : List Decl} {body : Expr} {a : Nat}
    (h : t₀.Entered (.function c.functions) t)
    (hcallee : Callee code sites t₀.active t₀.machine.mem t₀.machine.sp scope outlooks c params decls body a
      t₀.machine.top) :
    t.Declared code sites (some (.function c.functions)) ⟨params, decls⟩ outlooks 0 t := by
  have hsp := h.sp
  have hlink : t.machine.mem t.machine.fp = t₀.machine.top := by
    rw [h.fp]
    exact h.kept _ le_rfl
  refine .zero ?_ ?_ hcallee.obeys ?_
  · rw [h.fp]
    omega
  · rw [h.active, h.fp]
    exact List.mem_cons_self
  · rw [hlink]
    refine hcallee.linked.mono (by omega) h.kept ?_
    rw [h.active]
    exact List.subset_cons_self _ _

/-- on the way back from a function entered in `t₀`: `k` words of its frame are gone, the return address is in ra -/
structure Tracked.Unwound (t₀ : Tracked) (k : Nat) (t : Tracked) : Prop where
  sp : t.machine.sp = t₀.machine.sp + k
  ra : t.machine.ra = t₀.machine.ra
  active : t.active.tail = t₀.active
  kept : ∀ a, t₀.machine.sp + k ≤ a → t.machine.mem a = t₀.machine.mem a

/-- the result is pushed, and it is back to the caller -/
theorem Tracked.Safe.goBack {code : Code} {sites : Sites} {n : Nat} {t : Tracked}
    (hat : code.Holds t.machine.ip [.ltm, .lra, .js])
    (h : ∀ t', t.Above 1 t' → t.machine.ra = t'.machine.ip → t'.Safe code sites n) : t.Safe code sites n := by
  refine quiet hat.head nofun nofun ?_
  rintro _ ⟨⟩
  refine quiet hat.tail.head nofun nofun ?_
  rintro _ ⟨⟩
  have hover := ((Over.refl t).push t.machine.tm).push t.machine.ra
  exact js hover hat.tail.tail fun t' ht' hip _ => h t' ht' hip

namespace Continues

variable {code rest : Code} {sites : Sites} {n k params : Nat} {t₀ t₁ : Tracked}

theorem unwind (h : Continues code sites n (t₀.Unwound (k + 1)) rest) :
    Continues code sites n (t₀.Unwound k) (.pop :: rest) := by
  refine h.quiet nofun nofun fun t m ht hm => ?_
  obtain rfl := Option.some.inj hm
  refine ⟨rfl, ?_, ht.ra, ht.active, fun a ha => ht.kept a (by omega)⟩
  simp only [Machine.drop_sp, Machine.next_sp, ht.sp]
  omega

theorem unwinds (j : Nat) (h : Continues code sites n (t₀.Unwound (k + j)) rest) :
    Continues code sites n (t₀.Unwound k) (List.replicate j Instr.pop ++ rest) := by
  induction j generalizing k with
  | zero => exact h
  | succ j ih =>
    rw [← Nat.succ_add_eq_add_succ] at h
    exact (ih h).unwind

/-- the last instructions of a block, with the caller's frame pointer on top -/
theorem leave (hret : ∀ t, t₀.ReturnsTo params t → t.Safe code sites n) :
    Continues code sites n (t₀.Unwound (params + 1)) [.sfp, .ltm, .lra, .js] := by
  intro t ht hat
  have hsp := ht.sp
  refine (Tracked.Safe.of_step hat.head nofun ?_).pred
  rintro _ ⟨⟩
  refine Tracked.Safe.goBack hat.tail fun t' ht' hip => hret t' ?_
  have hsp' : t'.machine.sp = t.machine.sp + 1 - 1 := ht'.sp
  refine ⟨?_, by omega, ?_, ht'.active.trans ht.active, fun a ha => ?_⟩
  · rw [← ht.ra]
    exact hip
  · have hcaller : t₀.machine.sp + params + 1 = t.machine.sp := by omega
    rw [hcaller, ← ht.kept _ (by omega)]
    exact ht'.fp
  · have hkept : t'.machine.mem a = t.machine.mem a := ht'.kept a (show t.machine.sp + 1 ≤ a by omega)
    rw [hkept, ht.kept a (by omega)]

/-- **Returning.** From the end of a body, with the result on top. -/
theorem back {l : Label} (decls : Nat) (h : t₀.Entered l t₁) (hret : ∀ t, t₀.ReturnsTo params t → t.Safe code sites n) :
    Continues code sites n (t₁.Above (decls + 1)) (returnCode decls params) := by
  have hleave := leave hret
  rw [Nat.add_comm] at hleave
  have hsra : Continues code sites n (t₁.Above 0)
      (.sra :: .pop :: (List.replicate params .pop ++ [.sfp, .ltm, .lra, .js])) := by
    refine (hleave.unwinds params).unwind.quiet nofun nofun fun t m ht hm => ?_
    obtain rfl := Option.some.inj hm
    have hsp := h.sp
    have hsp' := ht.sp
    refine ⟨rfl, ?_, ht.top.trans h.ra, ?_, fun a ha => ?_⟩
    · simp only [Machine.drop_sp, Machine.next_sp]
      omega
    · rw [ht.active, h.active, List.tail_cons]
    · exact (ht.kept a (by omega)).trans (h.kept a (by omega))
  have hpops := hsra.pops decls
  rw [Nat.zero_add] at hpops
  exact hpops.instr 1 0 rfl

end Continues

/-- **Functions.** Entering a function is safe for as many steps as one likes, if its caller is after the return. -/
theorem callSafe {code : Code} {sites : Sites} (hcode : code.LabelsDistinct) (hsites : sites.Unique) (n : Nat) :
    CallSafe code sites n := by
  -- the label takes a step, so the rest of the block, which may call the function again, has one step less to go
  induction n with
  | zero => exact fun _ _ _ _ _ _ _ _ _ => trivial
  | succ n ih =>
    intro t scope outlooks c params decls body hcallee hret
    have hblock := hcallee.block
    rw [functionCode_eq] at hblock
    refine Tracked.Safe.enter hsites hcallee.site hblock hcallee.declared fun t₁ h₁ hat₁ => ?_
    have hfp := h₁.fp
    refine Decl.continuesAll hcode ih (by rw [h₁.sp, hfp]) decls [] c.inside rfl hcallee.hosts hcallee.inner ?_ t₁
      (h₁.declared hcallee) hat₁
    intro t₂ h₂ hat₂
    have hback := Continues.back decls.length h₁ fun t' ht' => (hret t' ht').pred
    exact Expr.continues hcode ih h₂.linked body hcallee.obeys_body _ (fun t₃ h₃ => hback t₃ (h₂.toAbove.trans h₃)) t₂
      (.refl t₂) hat₂

/-! ## Programs -/

theorem Continues.halt {code rest : Code} {sites : Sites} {n : Nat} {P : Tracked → Prop} :
    Continues code sites n P (.halt :: rest) := by
  intro t _ hat
  refine Tracked.Safe.quiet hat.head nofun nofun ?_
  rintro _ ⟨⟩

/-- however many steps a program makes, they keep the links -/
theorem Root.CallsDirectly.safe {r : Root} (h : r.CallsDirectly) (hcode : r.program.code.LabelsDistinct) {m : Machine}
    (hm : m.IsInitial) (n : Nat) : (Tracked.start m).Safe r.program.code r.sites n := by
  have hcalls := callSafe hcode r.sites_unique n
  have hself := Code.Holds.self r.program.code
  rw [← hm.ip] at hself
  cases r with
  | absent => exact h.elim
  | letIn pos decls body =>
    have hhosts := Program.hosts (Root.isClosed_program (.letIn pos decls body) (by rintro ⟨⟩)) hcode
    nth_rewrite 2 [Program.code, Root.program] at hself
    simp only [List.append_assoc, List.cons_append, List.nil_append] at hself
    refine Tracked.Safe.quiet hself.head (by rintro ⟨⟩) (by rintro ⟨⟩) ?_
    rintro _ ⟨⟩
    -- the outermost frame has no link: nothing around it is referred to
    have hsp : m.sp - 1 = m.fp - 1 := by rw [hm.fp]
    have hframe : Tracked.Declared (Root.program (.letIn pos decls body)).code (Root.sites (.letIn pos decls body)) none
        ⟨[], decls⟩ [] ⟨m.next.push 0, [⟨none, m.fp⟩]⟩ 0 ⟨m.next.push 0, [⟨none, m.fp⟩]⟩ :=
      .zero (hsp.trans_le (Int.sub_le_self _ Int.one_nonneg)) List.mem_cons_self h.1 .nil
    refine Decl.continuesAll hcode hcalls hsp decls [] .start rfl hhosts (List.Subset.refl _) ?_ _ hframe hself.tail
    intro t ht hat
    exact Expr.continues hcode hcalls ht.linked body h.2 _ Continues.halt t (.refl t) hat
  | bare body =>
    nth_rewrite 2 [Program.code, Root.program] at hself
    simp only [List.append_assoc, List.cons_append, List.nil_append] at hself
    have hframe : Tracked.Declared (Root.program (.bare body)).code (Root.sites (.bare body)) none ⟨[], []⟩ []
        (.start m) 0 (.start m) :=
      .zero hm.fp.ge List.mem_cons_self trivial .nil
    exact Expr.continues hcode hcalls hframe.linked body h _ Continues.halt _ (.refl _) hself

/-- **Direct calls.** If every call of a tree names a function that is declared with as many parameters as the call has
arguments, and has been declared by then, the tree is well-resolved, it compiles, and its access links hold: from any
initial state, whether the run ends or not, each function that is entered is linked to an activation of the scope that
declares it. -/
theorem access_links_hold_for_direct_calls {r : Root} (hr : r.CallsDirectly) :
    r.WellResolved ∧ r.compile = .ok r.program ∧ r.LinksHold := by
  refine ⟨hr.wellResolved, hr.compile_eq, fun p hp m hm t t' hreaches hstep => ?_⟩
  have hcode := labelsDistinct_of_compile hp
  obtain ⟨-, rfl⟩ := (r.compile_eq_ok_iff p).1 hp
  exact (Tracked.Safe.of_reaches hreaches (hr.safe hcode hm) 1 t' hstep).1

theorem sumTree_callsDirectly : sumTree.CallsDirectly := by
  have hn1 (ready : Nat) (top : Outlook) :
      (SumTree.n 1).Obeys direct [⟨⟨[{ name := "n" }], [SumTree.add]⟩, ready⟩, top] :=
    ⟨rfl, ⟨1, 1⟩, .param 0, _, _, rfl, .param (by decide) rfl, rfl, Nat.zero_lt_one⟩
  have hint (z : Int64) (outlooks : List Outlook) : (SumTree.int z).Obeys direct outlooks := .inl ⟨z, rfl⟩
  -- the nested function, then the three operands of the conditional, then the body of the program
  refine ⟨⟨⟨⟨⟨trivial, .inr (.inl rfl), ?_, ?_⟩, trivial⟩, ⟨.inl rfl, hn1 _ _, hint _ _⟩, hint _ _, ?_,
    ⟨?_, ⟨.inr (.inl rfl), hn1 _ _, hint _ _⟩, trivial⟩, trivial⟩, trivial⟩, ?_, hint _ _, trivial⟩
  · exact ⟨rfl, ⟨1, 1⟩, .param 0, _, _, rfl, .param (by decide) rfl, rfl, Nat.zero_lt_one⟩
  · exact ⟨rfl, ⟨2, 1⟩, .param 0, _, _, rfl, .param (by decide) rfl, rfl, Nat.zero_lt_one⟩
  · exact ⟨rfl, ⟨1, -2⟩, .decl 0, _, _, rfl, .decl (by decide) rfl, rfl, ⟨_, _, _, _, _, rfl, rfl⟩, Nat.le_refl 1⟩
  · exact ⟨rfl, ⟨0, -2⟩, .decl 0, _, _, rfl, .decl (by decide) rfl, rfl, ⟨_, _, _, _, _, rfl, rfl⟩, Nat.le_refl 1⟩
  · exact ⟨rfl, ⟨0, -2⟩, .decl 0, _, _, rfl, .decl (by decide) rfl, rfl, ⟨_, _, _, _, _, rfl, rfl⟩, Nat.le_refl 1⟩

/-- a tree with recursion and nested functions, whose calls are direct -/
theorem sumTree_links : sumTree.CallsDirectly ∧ sumTree.compile = .ok sumTree.program ∧ sumTree.LinksHold := by
  obtain ⟨-, hcompile, hlinks⟩ := access_links_hold_for_direct_calls sumTree_callsDirectly
  exact ⟨sumTree_callsDirectly, hcompile, hlinks⟩

end LetStack

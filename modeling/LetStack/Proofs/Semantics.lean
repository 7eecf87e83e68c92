/-
What a tree means: lexical scope and evaluation.

A scope has parameters and declarations: that of a function, or the outermost one, which has no parameters. The scopes
around a place are listed innermost first, so their number less one is the nesting level of the place. A tree is
resolved when each reference stands at the level it says, and its entry denotes, in the scope of the entry's level, a
place that suits the use: a parameter or a variable where a value is read, a function with as many parameters as there
are arguments where it is called.

Evaluation is call by value. At run time a frame stands for a scope: the values of its parameters, and one slot for
each declaration that has been executed so far. A place whose declaration has not been executed has no slot, and an
expression that needs it has no value.

- Binary operands are evaluated left to right, arguments last to first, and of a conditional one branch only.
- true is 1 and false is 0; a conditional takes its first branch for 1.
- A function runs in the frames of the scope that declares it, whoever calls it.

The definitions here do not mention code: that generated code does what they say is the subject of the simulation.
-/
import LetStack.Proofs.Nodes

namespace LetStack

/-! ## Places -/

/-- what an entry denotes in its scope -/
inductive Place where
  | param (i : Nat)
  | decl (i : Nat)

/-- the place at an entry's offset. Offsets are 64-bit integers, which bounds the indices that have one. -/
inductive Entry.Denotes (e : Entry) : Place → Prop where
  | param {i : Nat} : i < 2 ^ 63 - 1 → e.offset = Entry.paramOffset (.ofNat i) → e.Denotes (.param i)
  | decl {i : Nat} : i < 2 ^ 63 - 1 → e.offset = Entry.declOffset (.ofNat i) → e.Denotes (.decl i)

/-- where a place is in a frame, as an exact integer -/
def Place.offset : Place → Int
  | .param i => 1 + i
  | .decl i => -2 - i

theorem Place.offset_injective : Function.Injective Place.offset := by
  intro p q h
  cases p <;> cases q <;> simp only [Place.offset, Place.param.injEq, Place.decl.injEq, reduceCtorEq] at h ⊢ <;> omega

theorem Entry.Denotes.toInt_offset {e : Entry} {p : Place} (h : e.Denotes p) : e.offset.toInt = p.offset := by
  cases h with
  | param hi h =>
    have h1 : (1 : Int64).toInt = 1 := rfl
    rw [h, Entry.paramOffset, Int64.toInt_add, Int64.toInt_ofNat_of_lt (by omega), h1, Int.add_comm]
    exact Int.bmod_eq_of_le (by omega) (by omega)
  | decl hi h =>
    have h2 : (-2 : Int64).toInt = -2 := rfl
    rw [h, Entry.declOffset, Int64.toInt_sub, Int64.toInt_ofNat_of_lt (by omega), h2]
    exact Int.bmod_eq_of_le (by omega) (by omega)

/-- an entry denotes one place -/
theorem Entry.Denotes.unique {e : Entry} {p q : Place} (hp : e.Denotes p) (hq : e.Denotes q) : p = q := by
  apply Place.offset_injective
  rw [← hp.toInt_offset, hq.toInt_offset]

/-- `scopes` are listed innermost first: the one at nesting level `level` and those around it, if there is one -/
def enclosing {α : Type} (scopes : List α) (level : Int64) : List α :=
  if 0 ≤ level.toInt ∧ level.toInt < scopes.length then scopes.drop (scopes.length - 1 - level.toInt.toNat) else []

theorem enclosing_eq_drop {α : Type} {scopes : List α} {level : Int64} {s : α} {outer : List α}
    (h : enclosing scopes level = s :: outer) :
    0 ≤ level.toInt ∧ level.toInt < scopes.length ∧
      scopes.drop (scopes.length - 1 - level.toInt.toNat) = s :: outer := by
  unfold enclosing at h
  split at h
  case isTrue hlevel => exact ⟨hlevel.1, hlevel.2, h⟩
  case isFalse => cases h

/-! ## Resolved trees -/

structure Scope where
  params : List Param
  decls : List Decl

namespace Scope

/-- a parameter or a variable -/
def HasValue (s : Scope) : Place → Prop
  | .param i => i < s.params.length
  | .decl i => ∃ pos name value, s.decls[i]? = some (.var pos name value)

/-- a function with `arity` parameters -/
def HasFunction (arity : Nat) (s : Scope) : Place → Prop
  | .param _ => False
  | .decl i => ∃ pos name params decls body,
      s.decls[i]? = some (.func pos name params decls body) ∧ params.length = arity

end Scope

/-- used at the level it says, and denoting a place of which `good` holds -/
def Reference.Resolved (scopes : List Scope) (good : Scope → Place → Prop) (r : Reference) : Prop :=
  r.level.toInt + 1 = scopes.length ∧ ∃ e place s outer,
    r.entry = some e ∧ e.Denotes place ∧ enclosing scopes e.level = s :: outer ∧ good s place

mutual

def Expr.Resolved (scopes : List Scope) : Expr → Prop
  | .absent => True
  | .literal _ _ => True
  | .ident _ r => r.Resolved scopes Scope.HasValue
  | .call _ r args => r.Resolved scopes (Scope.HasFunction args.length) ∧ Expr.ResolvedAll scopes args
  | .cond _ test yes no => test.Resolved scopes ∧ yes.Resolved scopes ∧ no.Resolved scopes
  | .binary _ _ left right => left.Resolved scopes ∧ right.Resolved scopes
  | .print _ arg => arg.Resolved scopes

def Expr.ResolvedAll (scopes : List Scope) : List Expr → Prop
  | [] => True
  | e :: es => e.Resolved scopes ∧ Expr.ResolvedAll scopes es

end

mutual

def Decl.Resolved (scopes : List Scope) : Decl → Prop
  | .absent => True
  | .var _ _ value => value.Resolved scopes
  | .func _ _ params decls body =>
    Decl.ResolvedAll (⟨params, decls⟩ :: scopes) decls ∧ body.Resolved (⟨params, decls⟩ :: scopes)

def Decl.ResolvedAll (scopes : List Scope) : List Decl → Prop
  | [] => True
  | d :: ds => d.Resolved scopes ∧ Decl.ResolvedAll scopes ds

end

def Root.Resolved : Root → Prop
  | .absent => True
  | .letIn _ decls body => Decl.ResolvedAll [⟨[], decls⟩] decls ∧ body.Resolved [⟨[], decls⟩]
  | .bare body => body.Resolved [⟨[], []⟩]

/-! ## Evaluation -/

/-- what the execution of a declaration leaves -/
inductive Slot where
  | value (v : Int)
  | function (params : List Param) (decls : List Decl) (body : Expr)

structure Frame where
  args : List Int
  /-- the slots of the declarations executed so far, in their order -/
  slots : List Slot

/-- a frame before its declarations are executed -/
def Frame.entered (args : List Int) : Frame := ⟨args, []⟩

def Frame.declare (f : Frame) (x : Slot) : Frame := { f with slots := f.slots ++ [x] }

def boolValue (b : Bool) : Int := if b then 1 else 0

/-- what a frame holds at a place -/
inductive Frame.Holds (f : Frame) : Place → Slot → Prop where
  | param {i v} : f.args[i]? = some v → f.Holds (.param i) (.value v)
  | decl {i x} : f.slots[i]? = some x → f.Holds (.decl i) x

/-- the reference leads to a place that holds `x`, in the first of the frames `env` -/
def Reference.Finds (r : Reference) (frames : List Frame) (env : List Frame) (x : Slot) : Prop :=
  ∃ e place f outer, r.entry = some e ∧ e.Denotes place ∧ enclosing frames e.level = env ∧ env = f :: outer ∧
    f.Holds place x

mutual

/-- in the frames `env` the expression has the value `v` and prints `out` -/
inductive Expr.Yields : List Frame → Expr → Int → List Int → Prop where
  | int {env pos n} : Expr.Yields env (.literal pos (.int n)) n.toInt []
  | bool {env pos b} : Expr.Yields env (.literal pos (.bool b)) (boolValue b) []
  | ident {env env' pos r v} : r.Finds env env' (.value v) → Expr.Yields env (.ident pos r) v []
  | call {env env' pos r args params decls body vs f v out₁ out₂ out₃} :
      Expr.YieldsAll env args vs out₁ → r.Finds env env' (.function params decls body) →
      Decl.Runs env' (.entered vs) decls f out₂ → Expr.Yields (f :: env') body v out₃ →
      Expr.Yields env (.call pos r args) v (out₁ ++ out₂ ++ out₃)
  | yes {env pos test yes no v out₁ out₂} : Expr.Yields env test 1 out₁ → Expr.Yields env yes v out₂ →
      Expr.Yields env (.cond pos test yes no) v (out₁ ++ out₂)
  | no {env pos test yes no w v out₁ out₂} : Expr.Yields env test w out₁ → w ≠ 1 → Expr.Yields env no v out₂ →
      Expr.Yields env (.cond pos test yes no) v (out₁ ++ out₂)
  | equal {env pos left right v w out₁ out₂} : Expr.Yields env left v out₁ → Expr.Yields env right w out₂ →
      Expr.Yields env (.binary pos .equal left right) (boolValue (v = w)) (out₁ ++ out₂)
  | plus {env pos left right v w out₁ out₂} : Expr.Yields env left v out₁ → Expr.Yields env right w out₂ →
      Expr.Yields env (.binary pos .plus left right) (v + w) (out₁ ++ out₂)
  | times {env pos left right v w out₁ out₂} : Expr.Yields env left v out₁ → Expr.Yields env right w out₂ →
      Expr.Yields env (.binary pos .times left right) (v * w) (out₁ ++ out₂)
  | print {env pos arg v out} : Expr.Yields env arg v out → Expr.Yields env (.print pos arg) v (out ++ [v])

/-- values of arguments, in the order of the arguments; what the last one prints comes first -/
inductive Expr.YieldsAll : List Frame → List Expr → List Int → List Int → Prop where
  | nil {env} : Expr.YieldsAll env [] [] []
  | cons {env e es v vs out₁ out₂} : Expr.YieldsAll env es vs out₁ → Expr.Yields env e v out₂ →
      Expr.YieldsAll env (e :: es) (v :: vs) (out₁ ++ out₂)

/-- executing the declarations one after the other, inside `env`, takes the frame `f` to the last frame -/
inductive Decl.Runs : List Frame → Frame → List Decl → Frame → List Int → Prop where
  | nil {env f} : Decl.Runs env f [] f []
  | var {env f f' pos name value ds v out₁ out₂} : Expr.Yields (f :: env) value v out₁ →
      Decl.Runs env (f.declare (.value v)) ds f' out₂ → Decl.Runs env f (.var pos name value :: ds) f' (out₁ ++ out₂)
  | func {env f f' pos name params decls body ds out} :
      Decl.Runs env (f.declare (.function params decls body)) ds f' out →
      Decl.Runs env f (.func pos name params decls body :: ds) f' out

end

/-- running the program gives the value `v` and prints `out` -/
inductive Root.Yields : Root → Int → List Int → Prop where
  | letIn {pos decls body f v out₁ out₂} : Decl.Runs [] (.entered []) decls f out₁ → body.Yields [f] v out₂ →
      Root.Yields (.letIn pos decls body) v (out₁ ++ out₂)
  | bare {body v out} : body.Yields [.entered []] v out → Root.Yields (.bare body) v out

end LetStack

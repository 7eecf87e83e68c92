/-
Activations and access links.

While code runs, an activation of a scope is a frame that stands for it: the outermost one is there from the start, and
a function's begins where its block executes `cfp` and ends where `sfp` gives the frame pointer back. The machine knows
nothing of this. A tracked state has the list of the activations that are there, besides the state of the machine, and
it moves with the machine: tracking restricts no run (`Tracked.exists_of_reaches`).

A function is declared in one scope. `Root.sites` lists, for each function label of a tree, the scope that declares it.
The access links hold when each `cfp` of a function's block leaves at the frame pointer the base of an activation of the
scope that declares the function.

A call takes the link of its callee from the place of the called name. If that place is the function's own declaration,
the link is right. If it is a parameter or a variable to which the function was given, the link is the frame of that
parameter or variable, whatever scope declared the function.

Results:
- `Root.sites_labels`: every routine of the program has its site, in the same order;
- `passed_function_gets_the_wrong_link`: a well-resolved tree whose access links do not hold.
-/
import LetStack.Proofs.Correctness

namespace LetStack

/-! ## Activations -/

/-- a frame that stands for a scope: that of a function, or the outermost one -/
structure Activation where
  scope : Option Label
  base : Int
deriving DecidableEq

/-- a machine, with the activations that are there, innermost first -/
structure Tracked where
  machine : Machine
  active : List Activation

/-- the label that stands just before an index -/
def Code.labelBefore? (code : Code) (i : Nat) : Option Label :=
  match code[i - 1]? with
  | some (.label l) => some l
  | _ => none

namespace Tracked

/-- at the start of a program the outermost scope is active -/
def start (m : Machine) : Tracked := ⟨m, [⟨none, m.fp⟩]⟩

/-- the activations after an instruction: `cfp` in the block of a function begins one, `sfp` ends the innermost -/
def activeAfter (code : Code) (t : Tracked) : Instr → List Activation
  | .cfp => ((code.labelBefore? t.machine.ip).map fun l => ⟨some l, t.machine.sp⟩).toList ++ t.active
  | .sfp => t.active.tail
  | _ => t.active

def step (code : Code) (t : Tracked) : Option Tracked :=
  code[t.machine.ip]?.bind fun i => (i.run code t.machine).map fun m => ⟨m, t.activeAfter code i⟩

def Reaches (code : Code) : Tracked → Tracked → Prop := Relation.ReflTransGen fun t t' => step code t = some t'

variable {code : Code} {t t' : Tracked} {i : Instr}

theorem step_eq (h : code[t.machine.ip]? = some i) :
    step code t = (i.run code t.machine).map fun m => ⟨m, t.activeAfter code i⟩ := by
  simp [step, h]

theorem exists_of_step {m : Machine} (h : t.machine.step code = some m) :
    ∃ t', t.step code = some t' ∧ t'.machine = m := by
  obtain ⟨i, hi, hrun⟩ := Option.bind_eq_some_iff.1 h
  exact ⟨⟨m, t.activeAfter code i⟩, by rw [step_eq hi, hrun, Option.map_some], rfl⟩

/-- every run of the machine is one of the tracked machine -/
theorem exists_of_reaches {m : Machine} (h : Machine.Reaches code t.machine m) :
    ∃ t', Reaches code t t' ∧ t'.machine = m := by
  induction h with
  | refl => exact ⟨t, .refl, rfl⟩
  | tail _ hstep ih =>
    obtain ⟨t', hreaches, rfl⟩ := ih
    obtain ⟨t'', hstep', rfl⟩ := exists_of_step hstep
    exact ⟨t'', hreaches.tail hstep', rfl⟩

end Tracked

/-! ## Sites -/

/-- function labels, each with the scope that declares the function -/
abbrev Sites := List (Option Label × Label)

mutual

/-- the functions of a declaration in the scope `scope` -/
def Decl.sites (scope : Option Label) (c : Counters) : Decl → Sites
  | .absent => []
  | .var _ _ _ => []
  | .func _ _ _ decls _ =>
    (scope, .function c.functions) :: Decl.sitesAll (some (.function c.functions)) c.inside decls

def Decl.sitesAll (scope : Option Label) (c : Counters) : List Decl → Sites
  | [] => []
  | d :: ds => d.sites scope c ++ Decl.sitesAll scope (c.after d) ds

end

def Root.sites : Root → Sites
  | .absent => []
  | .letIn _ decls _ => Decl.sitesAll none .start decls
  | .bare _ => []

mutual

theorem Decl.sites_labels (scope : Option Label) (c : Counters) (d : Decl) :
    (d.sites scope c).map Prod.snd = (d.routines c).map Routine.label := by
  cases d with
  | absent => rfl
  | var p name value => rfl
  | func p name params decls body =>
    simp only [Decl.sites, Decl.routines, List.map_cons, Routine.make]
    rw [Decl.sitesAll_labels (some (.function c.functions)) c.inside decls]

theorem Decl.sitesAll_labels (scope : Option Label) (c : Counters) (ds : List Decl) :
    (Decl.sitesAll scope c ds).map Prod.snd = (Decl.routinesAll c ds).map Routine.label := by
  cases ds with
  | nil => rfl
  | cons d ds =>
    simp only [Decl.sitesAll, Decl.routinesAll, List.map_append]
    rw [Decl.sites_labels scope c d, Decl.sitesAll_labels scope (c.after d) ds]

end

/-- every routine of the program has its site, in the same order -/
theorem Root.sites_labels (r : Root) : r.sites.map Prod.snd = r.program.routines.map Routine.label := by
  cases r with
  | absent => rfl
  | letIn p decls body => exact Decl.sitesAll_labels none .start decls
  | bare body => rfl

mutual

theorem Decl.routines_labels (c : Counters) (d : Decl) :
    (d.routines c).map Routine.label = (List.range' c.functions d.functionCount).map Label.function := by
  cases d with
  | absent => rfl
  | var p name value => rfl
  | func p name params decls body =>
    simp only [Decl.routines, Decl.functionCount, List.map_cons, Routine.make]
    rw [Decl.routinesAll_labels c.inside decls, Nat.add_comm 1, List.range'_succ, List.map_cons, Counters.inside]

theorem Decl.routinesAll_labels (c : Counters) (ds : List Decl) :
    (Decl.routinesAll c ds).map Routine.label =
      (List.range' c.functions (Decl.functionCountAll ds)).map Label.function := by
  cases ds with
  | nil => rfl
  | cons d ds =>
    simp only [Decl.routinesAll, Decl.functionCountAll, List.map_append]
    rw [Decl.routines_labels c d, Decl.routinesAll_labels (c.after d) ds, ← List.map_append, Counters.after,
      List.range'_append_1]

end

/-- no function is declared in two scopes -/
def Sites.Unique (sites : Sites) : Prop := ∀ s s' l, (s, l) ∈ sites → (s', l) ∈ sites → s = s'

theorem Root.sites_unique (r : Root) : r.sites.Unique := by
  have hnodup : (r.sites.map Prod.snd).Nodup := by
    rw [r.sites_labels]
    cases r with
    | absent => exact List.nodup_nil
    | letIn p decls body =>
      rw [Root.program, Decl.routinesAll_labels]
      exact (List.nodup_range').map fun _ _ h => Label.function.inj h
    | bare body => exact List.nodup_nil
  intro s s' l hs hs'
  exact congrArg Prod.fst (List.inj_on_of_nodup_map hnodup hs hs' rfl)

/-! ## The invariant -/

/-- the step from `t` to `t'`, if it is the `cfp` of a function's block, leaves at the frame pointer the base of an
activation of the scope that declares the function -/
def Tracked.LinksAt (code : Code) (sites : Sites) (t t' : Tracked) : Prop :=
  ∀ scope l i, (scope, l) ∈ sites → code.Holds i [.label l, .cfp] → t.machine.ip = i + 1 →
    ∃ a ∈ t'.active, a.scope = scope ∧ t'.machine.mem t'.machine.fp = a.base

/-- **Access links.** However the compiled code runs, each function that is entered is linked to an activation of the
scope that declares it. -/
def Root.LinksHold (r : Root) : Prop :=
  ∀ p, r.compile = .ok p → ∀ m : Machine, m.IsInitial → ∀ t t', Tracked.Reaches p.code (.start m) t →
    t.step p.code = some t' → t.LinksAt p.code r.sites t'

/-! ## Rules for references -/

/-- what a use may rely on in a scope around it: of the declarations of the scope, the first `ready` have been executed
whenever the use is reached -/
structure Outlook where
  scope : Scope
  ready : Nat

inductive Use where
  | value
  | call (arity : Nat)

/-- the reference stands at the level it says, and denotes a place that is good for its use -/
def Reference.Obeys (rule : Use → Outlook → Place → Prop) (outlooks : List Outlook) (use : Use) (r : Reference) :
    Prop :=
  r.level.toInt + 1 = outlooks.length ∧ ∃ e place o outer,
    r.entry = some e ∧ e.Denotes place ∧ enclosing outlooks e.level = o :: outer ∧ rule use o place

def Decl.isFunction : Decl → Bool
  | .func _ _ _ _ _ => true
  | _ => false

/-- how many declarations have been executed when declaration `i` is in use: a variable's value comes after those before
it, and a function is called only after all of the uninterrupted group of functions that it belongs to, so that these
may call each other -/
def Scope.readyAt (s : Scope) (i : Nat) : Nat := s.decls.length - ((s.decls.drop i).dropWhile Decl.isFunction).length

mutual

/-- every node is one of the language, and every reference obeys the rule -/
def Expr.Obeys (rule : Use → Outlook → Place → Prop) (outlooks : List Outlook) : Expr → Prop
  | .absent => False
  | .literal _ v => (∃ n, v = .int n) ∨ ∃ b, v = .bool b
  | .ident _ r => r.Obeys rule outlooks .value
  | .call _ r args => r.Obeys rule outlooks (.call args.length) ∧ Expr.ObeysAll rule outlooks args
  | .cond _ test yes no => test.Obeys rule outlooks ∧ yes.Obeys rule outlooks ∧ no.Obeys rule outlooks
  | .binary _ op left right =>
    (op = .equal ∨ op = .plus ∨ op = .times) ∧ left.Obeys rule outlooks ∧ right.Obeys rule outlooks
  | .print _ arg => arg.Obeys rule outlooks

def Expr.ObeysAll (rule : Use → Outlook → Place → Prop) (outlooks : List Outlook) : List Expr → Prop
  | [] => True
  | e :: es => e.Obeys rule outlooks ∧ Expr.ObeysAll rule outlooks es

end

mutual

def Decl.Obeys (rule : Use → Outlook → Place → Prop) (outlooks : List Outlook) : Decl → Prop
  | .absent => False
  | .var _ _ value => value.Obeys rule outlooks
  | .func _ _ params decls body =>
    Decl.ObeysAll rule ⟨params, decls⟩ outlooks 0 decls ∧ body.Obeys rule (⟨⟨params, decls⟩, decls.length⟩ :: outlooks)

/-- declarations of the scope `s`, from declaration `i` on -/
def Decl.ObeysAll (rule : Use → Outlook → Place → Prop) (s : Scope) (outer : List Outlook) (i : Nat) : List Decl → Prop
  | [] => True
  | d :: ds => d.Obeys rule (⟨s, s.readyAt i⟩ :: outer) ∧ Decl.ObeysAll rule s outer (i + 1) ds

end

def Root.Obeys (rule : Use → Outlook → Place → Prop) : Root → Prop
  | .absent => False
  | .letIn _ decls body => Decl.ObeysAll rule ⟨[], decls⟩ [] 0 decls ∧ body.Obeys rule [⟨⟨[], decls⟩, decls.length⟩]
  | .bare body => body.Obeys rule [⟨⟨[], []⟩, 0⟩]

/-! ### Trees that obey a rule compile -/

section Compiles

variable {rule : Use → Outlook → Place → Prop} {outlooks : List Outlook}

/-- a reference leads as many links out as it says -/
theorem Reference.Obeys.enclosing {use : Use} {r : Reference} (h : r.Obeys rule outlooks use) :
    0 ≤ r.hops.toInt ∧ r.hops.toInt.toNat < outlooks.length ∧ ∃ o outer p,
      outlooks.drop r.hops.toInt.toNat = o :: outer ∧ r.offset.toInt = p.offset ∧ rule use o p := by
  obtain ⟨hlevel, e, p, o, outer, he, hp, ho, hgood⟩ := h
  obtain ⟨h0, hlt, hdrop⟩ := enclosing_eq_drop ho
  have hhops := Reference.toInt_hops he h0 (by omega)
  have hdepth : r.hops.toInt.toNat = outlooks.length - 1 - e.level.toInt.toNat := by omega
  rw [← hdepth] at hdrop
  have hoffset : r.offset.toInt = p.offset := by rw [Reference.offset, he, Option.elim_some, hp.toInt_offset]
  exact ⟨by omega, by omega, o, outer, p, hdrop, hoffset, hgood⟩

theorem Reference.Obeys.isBound {use : Use} {r : Reference} (h : r.Obeys rule outlooks use) : r.IsBound := by
  refine ⟨?_, Int64.le_iff_toInt_le.2 h.enclosing.1⟩
  obtain ⟨-, e, -, -, -, he, -⟩ := h
  rw [he]
  rfl

mutual

theorem Expr.Obeys.isSound (e : Expr) (h : e.Obeys rule outlooks) : ∀ n ∈ e.nodes, n.IsSound := by
  cases e with
  | absent => exact h.elim
  | literal p v => rcases h with ⟨z, rfl⟩ | ⟨b, rfl⟩ <;> simp [Expr.nodes, Node.IsSound]
  | ident p r => simpa [Expr.nodes] using Reference.Obeys.isBound h
  | call p r args =>
    simp only [Expr.nodes, List.forall_mem_cons, Node.isSound_call]
    exact ⟨h.1.isBound, Expr.ObeysAll.isSound args h.2⟩
  | cond p test yes no =>
    simp only [Expr.nodes, List.forall_mem_cons, List.forall_mem_append, Node.isSound_cond, true_and]
    exact ⟨⟨Expr.Obeys.isSound test h.1, Expr.Obeys.isSound yes h.2.1⟩, Expr.Obeys.isSound no h.2.2⟩
  | binary p op left right =>
    simp only [Expr.nodes, List.forall_mem_cons, List.forall_mem_append]
    refine ⟨?_, Expr.Obeys.isSound left h.2.1, Expr.Obeys.isSound right h.2.2⟩
    rcases h.1 with rfl | rfl | rfl <;> simp [Node.IsSound]
  | print p arg =>
    simp only [Expr.nodes, List.forall_mem_cons, Node.isSound_print, true_and]
    exact Expr.Obeys.isSound arg h

theorem Expr.ObeysAll.isSound (es : List Expr) (h : Expr.ObeysAll rule outlooks es) :
    ∀ n ∈ Expr.nodesAll es, n.IsSound := by
  cases es with
  | nil => simp [Expr.nodesAll]
  | cons e es =>
    simp only [Expr.nodesAll, List.forall_mem_append]
    exact ⟨Expr.Obeys.isSound e h.1, Expr.ObeysAll.isSound es h.2⟩

end

mutual

theorem Decl.Obeys.isSound {outlooks : List Outlook} (d : Decl) (h : d.Obeys rule outlooks) :
    ∀ n ∈ d.nodes, n.IsSound := by
  cases d with
  | absent => exact h.elim
  | var p name value =>
    simp only [Decl.nodes, List.forall_mem_cons, Node.isSound_var, true_and]
    exact Expr.Obeys.isSound value h
  | func p name params decls body =>
    simp only [Decl.nodes, List.forall_mem_cons, List.forall_mem_append, Node.isSound_func, true_and]
    exact ⟨Decl.ObeysAll.isSound decls h.1, Expr.Obeys.isSound body h.2⟩

theorem Decl.ObeysAll.isSound {s : Scope} {outer : List Outlook} {i : Nat} (ds : List Decl)
    (h : Decl.ObeysAll rule s outer i ds) : ∀ n ∈ Decl.nodesAll ds, n.IsSound := by
  cases ds with
  | nil => simp [Decl.nodesAll]
  | cons d ds =>
    simp only [Decl.nodesAll, List.forall_mem_append]
    exact ⟨Decl.Obeys.isSound d h.1, Decl.ObeysAll.isSound ds h.2⟩

end

theorem Root.Obeys.compile_eq {r : Root} (h : r.Obeys rule) : r.compile = .ok r.program := by
  refine (r.compile_eq_ok_iff _).2 ⟨?_, rfl⟩
  cases r with
  | absent => exact h.elim
  | letIn p decls body =>
    simp only [Root.nodes, List.forall_mem_cons, List.forall_mem_append, Node.isSound_letIn, true_and]
    exact ⟨Decl.ObeysAll.isSound decls h.1, Expr.Obeys.isSound body h.2⟩
  | bare body =>
    simp only [Root.nodes, List.forall_mem_cons, Node.isSound_bare, true_and]
    exact Expr.Obeys.isSound body h

end Compiles

/-- a parameter or a declaration of the scope -/
def Scope.Has (s : Scope) : Place → Prop
  | .param i => i < s.params.length
  | .decl i => i < s.decls.length

/-- **Well-resolved.** Each reference stands at the level it says and denotes a parameter or a declaration of the scope
of its entry's level, whether it is read or called. -/
def Root.WellResolved (r : Root) : Prop := r.Obeys fun _ o p => o.scope.Has p

/-! ## A link that does not hold -/

namespace Tracked

/-- `n` steps -/
def run (code : Code) : Nat → Tracked → Option Tracked
  | 0, t => some t
  | n + 1, t => (run code n t).bind (step code)

theorem reaches_of_run {code : Code} {n : Nat} {t t' : Tracked} (h : run code n t = some t') : Reaches code t t' := by
  induction n generalizing t' with
  | zero =>
    obtain rfl := Option.some.inj h
    exact .refl
  | succ n ih =>
    obtain ⟨t1, h1, hstep⟩ := Option.bind_eq_some_iff.1 h
    exact (ih h1).tail hstep

end Tracked

namespace ApplyTree

def k : Decl := .var ⟨1, 5⟩ "k" (.literal ⟨1, 13⟩ (.int 5))

def applyBody : Expr := .call ⟨2, 23⟩ ⟨"g", 1, some ⟨1, 1⟩⟩ [.ident ⟨2, 25⟩ ⟨"v", 1, some ⟨1, 2⟩⟩]

def apply : Decl := .func ⟨2, 5⟩ "apply" [{ name := "g" }, { name := "v" }] [] applyBody

def addkBody : Expr :=
  .binary ⟨3, 21⟩ .plus (.ident ⟨3, 19⟩ ⟨"x", 1, some ⟨1, 1⟩⟩) (.ident ⟨3, 23⟩ ⟨"k", 1, some ⟨0, -2⟩⟩)

def addk : Decl := .func ⟨3, 5⟩ "addk" [{ name := "x" }] [] addkBody

def body : Expr :=
  .call ⟨4, 4⟩ ⟨"apply", 0, some ⟨0, -3⟩⟩ [.ident ⟨4, 10⟩ ⟨"addk", 0, some ⟨0, -4⟩⟩, .literal ⟨4, 16⟩ (.int 1)]

end ApplyTree

/-- the tree of

    let var k = 5;
        fun apply(g, v) = g(v);
        fun addk(x) = x + k
    in apply(addk, 1)

where `addk` is called through a parameter of `apply`, and reads a variable of the scope around both -/
def applyTree : Root := .letIn ⟨1, 1⟩ [ApplyTree.k, ApplyTree.apply, ApplyTree.addk] ApplyTree.body

theorem applyTree_wellResolved : applyTree.WellResolved := by
  refine ⟨⟨.inl ⟨5, rfl⟩, ⟨trivial, ?_, ?_, trivial⟩, ⟨trivial, .inr (.inl rfl), ?_, ?_⟩, trivial⟩, ?_, ?_,
    .inl ⟨1, rfl⟩, trivial⟩
  -- `g` and `v` in `apply`, `x` and `k` in `addk`, `apply` and `addk` in the body
  · exact ⟨rfl, ⟨1, 1⟩, .param 0, _, _, rfl, .param (by decide) rfl, rfl, Nat.zero_lt_two⟩
  · exact ⟨rfl, ⟨1, 2⟩, .param 1, _, _, rfl, .param (by decide) rfl, rfl, Nat.one_lt_two⟩
  · exact ⟨rfl, ⟨1, 1⟩, .param 0, _, _, rfl, .param (by decide) rfl, rfl, Nat.zero_lt_one⟩
  · exact ⟨rfl, ⟨0, -2⟩, .decl 0, _, _, rfl, .decl (by decide) rfl, rfl, Nat.zero_lt_succ 2⟩
  · exact ⟨rfl, ⟨0, -3⟩, .decl 1, _, _, rfl, .decl (by decide) rfl, rfl, Nat.one_lt_succ_succ 1⟩
  · exact ⟨rfl, ⟨0, -4⟩, .decl 2, _, _, rfl, .decl (by decide) rfl, rfl, Nat.lt_succ_self 2⟩

/-- a machine with zeros in memory and registers -/
def Machine.zero : Machine := ⟨0, 0, 0, 0, 0, fun _ => 0, []⟩

/-- where `applyTree` is after 36 steps: the block of `addk` has just executed its `cfp`, in the frame at -12; its link
is -8, the frame of `apply`; the scope that declares `addk` has one activation, at 0 -/
theorem applyTree_entered :
    (Tracked.run applyTree.program.code 36 (.start .zero)).map
      (fun t => (t.machine.fp, t.machine.mem t.machine.fp, t.active)) =
    some (-12, -8, [⟨some (.function 1), -12⟩, ⟨some (.function 0), -8⟩, ⟨none, 0⟩]) := by
  decide +kernel

/-- **A wrong link.** The tree is well-resolved and compiles, and its access links do not hold: when `addk` is called
through the parameter `g`, its link is the frame of `apply`, and no activation of the scope that declares `addk`. -/
theorem passed_function_gets_the_wrong_link :
    applyTree.WellResolved ∧ applyTree.compile = .ok applyTree.program ∧ ¬ applyTree.LinksHold := by
  refine ⟨applyTree_wellResolved, rfl, fun hlinks => ?_⟩
  obtain ⟨t', hrun, hstate⟩ := Option.map_eq_some_iff.1 applyTree_entered
  obtain ⟨t, hrun', hstep⟩ := Option.bind_eq_some_iff.1 hrun
  have hip : (Tracked.run applyTree.program.code 35 (.start .zero)).map (fun t => t.machine.ip) = some 45 := by
    decide +kernel
  rw [hrun', Option.map_some, Option.some.injEq] at hip
  have hblock : applyTree.program.code.Holds 44 [.label (.function 1), .cfp] := ⟨rfl, rfl, trivial⟩
  obtain ⟨a, ha, hscope, hbase⟩ := hlinks _ rfl .zero ⟨rfl, rfl, rfl⟩ t t' (Tracked.reaches_of_run hrun') hstep
    none (.function 1) 44 (by decide +kernel) hblock hip
  simp only [Prod.mk.injEq] at hstate
  obtain ⟨-, hlink, hactive⟩ := hstate
  rw [hlink] at hbase
  rw [hactive] at ha
  -- of the three activations one is of the outermost scope, and its base is not the link
  simp only [List.mem_cons, List.not_mem_nil, or_false] at ha
  rcases ha with rfl | rfl | rfl
  · cases hscope
  · cases hscope
  · cases hbase

end LetStack

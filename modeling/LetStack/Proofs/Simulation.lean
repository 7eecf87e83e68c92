/-
Generated code does what the tree means.

The frames of an evaluation lie on the stack of the machine, one access link leading from each to the one around it.
That is the invariant `Represents`: for the frame at `base`, argument i is at base + 1 + i, slot i at base - 2 - i, the
word at `base` is the base of the next frame, and all of it is on the stack. The word of a function's slot is where its
block stands in the code.

One lemma for each piece of code says what it does in a state where the invariant holds: following access links
(`Represents.frame`), reading a place (`fetch`), entering a function and leaving it (`enter`, `leave`). The simulation
puts them together along a derivation of the source semantics: an expression pushes its value, arguments push their
values last to first, declarations push one word each and extend the frame.
-/
import LetStack.Proofs.Blocks
import LetStack.Proofs.Machine
import LetStack.Proofs.Semantics

namespace LetStack

/-! ## Straight pieces of code -/

namespace Machine.Pushes

variable {code rest : Code} {m m' : Machine} {ws old out : List Int} {w : Int}

/-- following `k` links that all lie on the stack -/
theorem loads {k : Nat} (h : Pushes code m (ws ++ [w]) out (List.replicate k Instr.lw ++ rest) m')
    (hlinks : ∀ j < k, m.sp ≤ m.mem^[j] w) :
    ∃ m'', Pushes code m (ws ++ [m.mem^[k] w]) out rest m'' ∧ m''.fp = m'.fp := by
  induction k generalizing w m' with
  | zero => exact ⟨m', h, rfl⟩
  | succ k ih =>
    have hload := h.load
    rw [h.kept w (hlinks 0 (by omega))] at hload
    obtain ⟨m'', h'', hfp⟩ := ih hload fun j hj => hlinks (j + 1) (by omega)
    exact ⟨m'', h'', hfp⟩

/-- taking off as many words as there are instructions for it -/
theorem pops (h : Pushes code m (ws ++ old) out (List.replicate old.length Instr.pop ++ rest) m') :
    ∃ m'', Pushes code m ws out rest m'' ∧ m''.ra = m'.ra ∧ m''.tm = m'.tm := by
  induction old using List.reverseRecOn generalizing m' with
  | nil => exact ⟨m', by simpa using h, rfl, rfl⟩
  | append_singleton old w ih =>
    rw [List.length_append, List.length_singleton, List.replicate_succ, List.cons_append, ← List.append_assoc] at h
    obtain ⟨m'', h'', hra, htm⟩ := ih (h.pop rfl)
    exact ⟨m'', h'', hra, htm⟩

/-- reading the word at an offset from a base, where the word is older than what has been pushed -/
theorem fetch {base : Int} {offset : Int64}
    (h : Pushes code m (ws ++ [base]) out (pushInt offset :: .add :: .lw :: rest) m')
    (hkept : m.sp ≤ base + offset.toInt) :
    ∃ m'', Pushes code m (ws ++ [m.mem (base + offset.toInt)]) out rest m'' ∧ m''.fp = m'.fp := by
  have hsum := (h.push rfl).add
  have hload := hsum.load
  rw [hsum.kept _ hkept] at hload
  exact ⟨_, hload, rfl⟩

end Machine.Pushes

/-! ## Frames on the stack -/

/-- the links to follow are as many as the levels between, without overflow -/
theorem Reference.toInt_hops {r : Reference} {e : Entry} (he : r.entry = some e) (h0 : 0 ≤ e.level.toInt)
    (hle : e.level.toInt ≤ r.level.toInt) : r.hops.toInt = r.level.toInt - e.level.toInt := by
  have := r.level.toInt_lt
  rw [Reference.hops, he, Option.elim_some, Int64.toInt_sub]
  exact Int.bmod_eq_of_le (by omega) (by omega)

/-- each routine stands where its label leads -/
def Code.Hosts (code : Code) (routines : List Routine) : Prop :=
  ∀ q ∈ routines, ∃ a, code.target? q.label = some a ∧ code.Holds a q.code

/-- the word `w` stands for the slot: a function is its address -/
inductive Slot.HeldAs (code : Code) (w : Int) : Slot → Prop where
  | value : Slot.HeldAs code w (.value w)
  | function {params decls body} (c : Counters) (a : Nat) : w = a → code.Holds a (functionCode c params decls body) →
      code.Hosts (Decl.routinesAll c.inside decls) → Slot.HeldAs code w (.function params decls body)

/-- the slot that the execution of a declaration leaves -/
inductive Slot.LeftBy : Slot → Decl → Prop where
  | value {v pos name value} : Slot.LeftBy (.value v) (.var pos name value)
  | function {pos name params decls body} :
      Slot.LeftBy (.function params decls body) (.func pos name params decls body)

/-- a slot at the place of a declaration is one that this declaration leaves -/
def Scope.Allows (s : Scope) (x : Slot) : Place → Prop
  | .param _ => True
  | .decl i => ∃ d, s.decls[i]? = some d ∧ x.LeftBy d

/-- the frame lies at `base`, on a stack whose top is at `low` -/
structure Frame.LiesAt (code : Code) (mem : Int → Int) (low base : Int) (s : Scope) (f : Frame) : Prop where
  low_le : low ≤ base
  place : ∀ p x, f.Holds p x →
    low ≤ base + p.offset ∧ x.HeldAs code (mem (base + p.offset)) ∧ s.Allows x p

/-- **Representation.** The frames of `scopes` lie on the stack, the innermost at `base`, each linked to the next. -/
inductive Represents (code : Code) (mem : Int → Int) (low : Int) : List Scope → List Frame → Int → Prop where
  | nil {base} : Represents code mem low [] [] base
  | cons {s scopes f env base} : f.LiesAt code mem low base s → Decl.ResolvedAll (s :: scopes) s.decls →
      Represents code mem low scopes env (mem base) → Represents code mem low (s :: scopes) (f :: env) base

theorem Frame.LiesAt.mono {code : Code} {mem mem' : Int → Int} {low low' base : Int} {s : Scope} {f : Frame}
    (h : f.LiesAt code mem low base s) (hlow : low' ≤ low) (hmem : ∀ a, low ≤ a → mem' a = mem a) :
    f.LiesAt code mem' low' base s where
  low_le := hlow.trans h.low_le
  place := by
    intro p x hp
    obtain ⟨hle, hheld, hallows⟩ := h.place p x hp
    rw [hmem _ hle]
    exact ⟨hlow.trans hle, hheld, hallows⟩

namespace Represents

variable {code rest : Code} {mem mem' : Int → Int} {low low' base : Int} {scopes : List Scope} {env env' : List Frame}
  {m m' : Machine} {ws out : List Int}

/-- frames stay where they are while the stack above them changes -/
theorem mono (h : Represents code mem low scopes env base) (hlow : low' ≤ low)
    (hmem : ∀ a, low ≤ a → mem' a = mem a) : Represents code mem' low' scopes env base := by
  induction h with
  | nil => exact .nil
  | cons hlies hdecls _ ih =>
    refine .cons (hlies.mono hlow hmem) hdecls ?_
    rw [hmem _ hlies.low_le]
    exact ih

theorem after (h : Represents code m.mem m.sp scopes env base) (hpushes : Machine.Pushes code m ws out rest m') :
    Represents code m'.mem m'.sp scopes env base := by
  refine h.mono ?_ hpushes.kept
  rw [hpushes.sp]
  omega

theorem length_eq (h : Represents code mem low scopes env base) : scopes.length = env.length := by
  induction h with
  | nil => rfl
  | cons _ _ _ ih => rw [List.length_cons, List.length_cons, ih]

/-- following `k` access links -/
theorem drop (h : Represents code mem low scopes env base) (k : Nat) :
    Represents code mem low (scopes.drop k) (env.drop k) (mem^[k] base) := by
  induction k generalizing scopes env base with
  | zero => exact h
  | succ k ih =>
    cases h with
    | nil => exact .nil
    | cons _ _ hrest => exact ih hrest

theorem low_le {s : Scope} (h : Represents code mem low (s :: scopes) env base) : low ≤ base := by
  cases h with
  | cons hlies _ _ => exact hlies.low_le

theorem links (h : Represents code mem low scopes env base) : ∀ j < scopes.length, low ≤ mem^[j] base := by
  intro j hj
  have hdrop := h.drop j
  rw [List.drop_eq_getElem_cons hj] at hdrop
  exact hdrop.low_le

/-- **Lookup.** What a resolved reference finds in the frames lies at its offset, as many links away as it says. -/
theorem lookup {good : Scope → Place → Prop} {r : Reference} {x : Slot}
    (h : Represents code mem low scopes env base) (hr : r.Resolved scopes good) (hx : r.Finds env env' x) :
    r.hops.toInt.toNat < scopes.length ∧ ∃ s outer p,
      Represents code mem low (s :: outer) env' (mem^[r.hops.toInt.toNat] base) ∧
      low ≤ mem^[r.hops.toInt.toNat] base + r.offset.toInt ∧
      x.HeldAs code (mem (mem^[r.hops.toInt.toNat] base + r.offset.toInt)) ∧ good s p ∧ s.Allows x p := by
  obtain ⟨hlevel, e, p, s, outer, he, hp, hscope, hgood⟩ := hr
  obtain ⟨e', p', f, outer', he', hp', henv, rfl, hholds⟩ := hx
  obtain rfl : e = e' := Option.some.inj (he.symm.trans he')
  obtain rfl := hp.unique hp'
  obtain ⟨h0, hlt, hdrop⟩ := enclosing_eq_drop hscope
  obtain ⟨-, -, hdrop'⟩ := enclosing_eq_drop henv
  have hhops : r.hops.toInt.toNat = scopes.length - 1 - e.level.toInt.toNat := by
    rw [Reference.toInt_hops he h0 (by omega)]
    omega
  rw [← h.length_eq, ← hhops] at hdrop'
  rw [← hhops] at hdrop
  have hrep := h.drop r.hops.toInt.toNat
  rw [hdrop, hdrop'] at hrep
  have hoffset : r.offset.toInt = p.offset := by
    rw [Reference.offset, he, Option.elim_some, hp.toInt_offset]
  refine ⟨?_, s, outer, p, hrep, ?_⟩
  · omega
  · cases hrep with
    | cons hlies _ _ =>
      obtain ⟨hle, hheld, hallows⟩ := hlies.place p x hholds
      rw [hoffset]
      exact ⟨hle, hheld, hgood, hallows⟩

/-- the code that pushes the base of the frame a reference denotes -/
theorem frame {r : Reference} (h : Represents code m.mem m.sp scopes env m'.fp)
    (hhops : r.hops.toInt.toNat < scopes.length) (hpushes : Machine.Pushes code m ws out (r.frame ++ rest) m') :
    ∃ m'', Machine.Pushes code m (ws ++ [m.mem^[r.hops.toInt.toNat] m'.fp]) out rest m'' ∧ m''.fp = m'.fp := by
  have hlfp : Machine.Pushes code m (ws ++ [m'.fp]) out (List.replicate r.hops.toInt.toNat Instr.lw ++ rest)
      (m'.next.push m'.fp) := hpushes.push rfl
  exact hlfp.loads fun j hj => h.links j (by omega)

/-- a frame whose parameters are in place, before its declarations are executed -/
theorem entered {params : List Param} {decls : List Decl} {vs : List Int}
    (h : Represents code mem low scopes env (mem base)) (hlow : low ≤ base)
    (hdecls : Decl.ResolvedAll (⟨params, decls⟩ :: scopes) decls)
    (hargs : ∀ (i : Nat) (v : Int), vs[i]? = some v → mem (base + (1 + i)) = v) :
    Represents code mem low (⟨params, decls⟩ :: scopes) (.entered vs :: env) base := by
  refine .cons ⟨hlow, fun p x hp => ?_⟩ hdecls h
  cases hp with
  | @param i v hi =>
    have hmem : mem (base + (Place.param i).offset) = v := hargs i v hi
    rw [hmem]
    refine ⟨?_, .value, trivial⟩
    rw [Place.offset]
    omega
  | decl hi => simp [Frame.entered] at hi

/-- the word of one more declaration extends the frame -/
theorem declare {s : Scope} {f : Frame} {x : Slot} {d : Decl} {w : Int}
    (h : Represents code m.mem m.sp (s :: scopes) (f :: env) m.fp) (hsp : m.sp = m.fp - 1 - f.slots.length)
    (hd : s.decls[f.slots.length]? = some d) (hleft : x.LeftBy d) (hheld : x.HeldAs code w)
    (hpushes : Machine.Pushes code m [w] out rest m') :
    Represents code m'.mem m'.sp (s :: scopes) (f.declare x :: env) m.fp := by
  have hsp' := hpushes.sp
  rw [List.length_singleton] at hsp'
  cases h.after hpushes with
  | cons hlies hdecls hrest =>
    refine .cons ⟨hlies.low_le, fun p y hp => ?_⟩ hdecls hrest
    cases hp with
    | param hi => exact hlies.place _ _ (.param hi)
    | @decl i _ hi =>
      rcases Nat.lt_or_ge i f.slots.length with hlt | hge
      · rw [Frame.declare, List.getElem?_append_left hlt] at hi
        exact hlies.place _ _ (.decl hi)
      · obtain ⟨rfl, rfl⟩ : i = f.slots.length ∧ x = y := by
          rw [Frame.declare, List.getElem?_append_right hge, List.getElem?_singleton,
            Option.ite_none_right_eq_some] at hi
          exact ⟨by omega, Option.some.inj hi.2⟩
        have hw := hpushes.word 0 w rfl
        have haddr : m.fp + (Place.decl f.slots.length).offset = m.sp - 1 - (0 : Nat) := by
          rw [Place.offset]
          omega
        rw [haddr, hw]
        exact ⟨by omega, hheld, d, hd, hleft⟩

end Represents

/-! ## Calls -/

/-- the end of the block of a function with as many declarations and parameters -/
def returnCode (decls params : Nat) : Code :=
  .stm :: (List.replicate decls Instr.pop ++ Instr.sra :: .pop :: (List.replicate params Instr.pop
    ++ [.sfp, .ltm, .lra, .js]))

theorem functionCode_eq (c : Counters) (params : List Param) (decls : List Decl) (body : Expr) :
    functionCode c params decls body = .label (.function c.functions) :: .cfp :: .lra :: (Decl.codeAll c.inside decls
      ++ (body.code (c.labels + Decl.labelCountAll decls) ++ returnCode decls.length params.length)) := by
  simp [functionCode, returnCode]

namespace Machine.Pushes

variable {code rest rest' : Code} {m m' : Machine} {ws args slots out : List Int} {base caller link v : Int} {a n : Nat}

/-- **Entering.** With the base of the callee's scope on top, the function whose address lies at `offset` from there is
entered: the base becomes its access link, the frame pointer stands at that link, and the return address is pushed. -/
theorem enter {offset : Int64} {l : Label}
    (h : Pushes code m (ws ++ [base]) out (.stm :: .ltm :: .ltm :: pushInt offset :: .add :: .lw :: .js :: rest) m')
    (hkept : m.sp ≤ base + offset.toInt) (haddr : m.mem (base + offset.toInt) = a)
    (hblock : code.Holds a (.label l :: .cfp :: .lra :: rest')) :
    ∃ (n : Nat) (m'' : Machine), code.Holds n rest ∧ Pushes code m (ws ++ [base] ++ [(n : Int)]) out rest' m'' ∧
      m''.fp = m.sp - ws.length - 1 := by
  have hstm := h.stm
  have hltm : Pushes code m (ws ++ [base]) out _ _ := hstm.push rfl
  have hltm2 : Pushes code m (ws ++ [base] ++ [base]) out _ _ := hltm.push rfl
  obtain ⟨m1, h1, -⟩ := hltm2.fetch hkept
  rw [haddr] at h1
  -- the jump, and the first instructions of the block
  have hjs := h1.js hblock
  have hlra : Pushes code m (ws ++ [base] ++ [((m1.ip + 1 : Nat) : Int)]) out rest' _ := hjs.label.cfp.push rfl
  refine ⟨m1.ip + 1, _, h1.remaining.tail, hlra, ?_⟩
  have hsp := h1.sp
  simp only [List.length_append, List.length_singleton] at hsp
  simp only [push_fp, next_fp, next_sp, drop_sp]
  omega

/-- **Leaving.** From the end of a body, with the result on top, the frame is taken off down to the caller's frame
pointer and the machine is back where the call was made, with the result in place of the frame. -/
theorem leave (h : Pushes code m (ws ++ [caller] ++ args ++ [link] ++ [(n : Int)] ++ slots ++ [v]) out
      (returnCode slots.length args.length) m')
    (hn : code.Holds n rest) : ∃ m'', Pushes code m (ws ++ [v]) out rest m'' ∧ m''.fp = caller := by
  obtain ⟨m1, h1, -, htm1⟩ := h.stm.pops
  have hlink := h1.sra.pop rfl
  obtain ⟨m2, h2, hra2, htm2⟩ := hlink.pops
  have hltm : Pushes code m (ws ++ [m2.tm]) out _ _ := h2.sfp.push rfl
  have hlra : Pushes code m (ws ++ [m2.tm] ++ [m2.ra]) out _ _ := hltm.push rfl
  have htm : m2.tm = v := htm2.trans htm1
  have hra : m2.ra = n := hra2
  rw [htm, hra] at hlra
  exact ⟨_, hlra.js hn, rfl⟩

end Machine.Pushes

/-! ## Simulation -/

theorem Decl.resolvedAll_iff (scopes : List Scope) (ds : List Decl) :
    Decl.ResolvedAll scopes ds ↔ ∀ d ∈ ds, d.Resolved scopes := by
  induction ds with
  | nil => simp [Decl.ResolvedAll]
  | cons d ds ih => simp [Decl.ResolvedAll, ih]

theorem Expr.YieldsAll.length_eq {env : List Frame} {es : List Expr} {vs out : List Int}
    (h : Expr.YieldsAll env es vs out) : vs.length = es.length := by
  induction es generalizing vs out with
  | nil => cases h; rfl
  | cons e es ih =>
    cases h with
    | cons hes _ => rw [List.length_cons, List.length_cons, ih hes]

/-- the function that a call finds is the one its reference denotes -/
theorem Represents.callee {code : Code} {mem : Int → Int} {low base : Int} {s : Scope} {outer : List Scope}
    {env : List Frame} {params : List Param} {decls : List Decl} {body : Expr} {arity : Nat} {p : Place}
    (h : Represents code mem low (s :: outer) env base) (hgood : s.HasFunction arity p)
    (hallows : s.Allows (.function params decls body) p) :
    params.length = arity ∧ Decl.ResolvedAll (⟨params, decls⟩ :: s :: outer) decls ∧
      body.Resolved (⟨params, decls⟩ :: s :: outer) := by
  cases p with
  | param i => exact hgood.elim
  | decl i =>
    obtain ⟨pos, name, params', decls', body', hd, harity⟩ := hgood
    obtain ⟨d, hd', hleft⟩ := hallows
    obtain rfl := Option.some.inj (hd.symm.trans hd')
    cases hleft
    cases h with
    | cons _ hdecls _ =>
      exact ⟨harity, (Decl.resolvedAll_iff _ _).1 hdecls _ (List.mem_of_getElem? hd)⟩

/-- wherever the code of the expression stands, and the frames `env` lie on the stack, it pushes `v` and prints `out` -/
def Expr.Delivers (code : Code) (env : List Frame) (e : Expr) (v : Int) (out : List Int) : Prop :=
  ∀ (scopes : List Scope) (m : Machine) (next : Nat) (rest : Code), e.Resolved scopes →
    Represents code m.mem m.sp scopes env m.fp → code.Holds m.ip (e.code next ++ rest) →
    ∃ m', Machine.Pushes code m [v] out rest m' ∧ m'.fp = m.fp

/-- the code of arguments pushes their values, the first one last -/
def Expr.DeliversAll (code : Code) (env : List Frame) (es : List Expr) (vs out : List Int) : Prop :=
  ∀ (scopes : List Scope) (m : Machine) (next : Nat) (rest : Code), Expr.ResolvedAll scopes es →
    Represents code m.mem m.sp scopes env m.fp → code.Holds m.ip (Expr.argsCode next es ++ rest) →
    ∃ m', Machine.Pushes code m vs.reverse out rest m' ∧ m'.fp = m.fp

/-- the code of a declaration in the frame `f` pushes a word that stands for `x` -/
def Decl.Delivers (code : Code) (env : List Frame) (f : Frame) (d : Decl) (x : Slot) (out : List Int) : Prop :=
  ∀ (scopes : List Scope) (m : Machine) (c : Counters) (rest : Code), d.Resolved scopes →
    Represents code m.mem m.sp scopes (f :: env) m.fp → code.Hosts (d.routines c) →
    code.Holds m.ip (d.code c ++ rest) →
    ∃ w m', Machine.Pushes code m [w] out rest m' ∧ m'.fp = m.fp ∧ x.HeldAs code w

/-- the code of declarations that come after `done` pushes a word for each, and turns the frame `f` into `f'` -/
def Decl.DeliversAll (code : Code) (env : List Frame) (f : Frame) (ds : List Decl) (f' : Frame) (out : List Int) :
    Prop :=
  ∀ (s : Scope) (scopes : List Scope) (done : List Decl) (m : Machine) (c : Counters) (rest : Code),
    s.decls = done ++ ds → f.slots.length = done.length → m.sp = m.fp - 1 - f.slots.length →
    Represents code m.mem m.sp (s :: scopes) (f :: env) m.fp → code.Hosts (Decl.routinesAll c ds) →
    code.Holds m.ip (Decl.codeAll c ds ++ rest) →
    ∃ ws m', Machine.Pushes code m ws out rest m' ∧ m'.fp = m.fp ∧ ws.length = ds.length ∧
      Represents code m'.mem m'.sp (s :: scopes) (f' :: env) m'.fp

section Pieces

variable {code : Code} {env env' : List Frame} {pos : Position} {r : Reference} {v w : Int}
  {vs out out₁ out₂ out₃ : List Int}

theorem Expr.Delivers.int (n : Int64) : Expr.Delivers code env (.literal pos (.int n)) n.toInt [] := by
  intro scopes m next rest _ _ hat
  exact ⟨_, (Machine.Pushes.refl hat).push rfl, rfl⟩

theorem Expr.Delivers.bool (b : Bool) : Expr.Delivers code env (.literal pos (.bool b)) (boolValue b) [] := by
  intro scopes m next rest _ _ hat
  have hpush := (Machine.Pushes.refl hat).push rfl
  cases b
  · exact ⟨_, hpush, rfl⟩
  · exact ⟨_, hpush, rfl⟩

theorem Expr.Delivers.ident (h : r.Finds env env' (.value v)) : Expr.Delivers code env (.ident pos r) v [] := by
  intro scopes m next rest hr hrep hat
  rw [Expr.code, List.append_assoc] at hat
  obtain ⟨hhops, s, outer, p, -, hle, hheld, -⟩ := hrep.lookup hr h
  obtain ⟨m1, h1, hfp1⟩ := hrep.frame hhops (.refl hat)
  obtain ⟨m2, h2, hfp2⟩ := h1.fetch hle
  cases hheld
  exact ⟨m2, h2, hfp2.trans hfp1⟩

/-- both operands, one after the other -/
theorem Expr.Delivers.operands {left right : Expr} (hleft : left.Delivers code env v out₁)
    (hright : right.Delivers code env w out₂) {scopes : List Scope} {m : Machine} {next next' : Nat} {rest : Code}
    (hr : left.Resolved scopes ∧ right.Resolved scopes) (hrep : Represents code m.mem m.sp scopes env m.fp)
    (hat : code.Holds m.ip (left.code next ++ (right.code next' ++ rest))) :
    ∃ m', Machine.Pushes code m ([] ++ [v] ++ [w]) (out₁ ++ out₂) rest m' ∧ m'.fp = m.fp := by
  obtain ⟨m1, h1, hfp1⟩ := hleft scopes m next _ hr.1 hrep hat
  have hrep1 := hrep.after h1
  rw [← hfp1] at hrep1
  obtain ⟨m2, h2, hfp2⟩ := hright scopes m1 next' rest hr.2 hrep1 h1.remaining
  exact ⟨m2, h1.trans h2, hfp2.trans hfp1⟩

theorem Expr.Delivers.plus {left right : Expr} (hleft : left.Delivers code env v out₁)
    (hright : right.Delivers code env w out₂) :
    Expr.Delivers code env (.binary pos .plus left right) (v + w) (out₁ ++ out₂) := by
  intro scopes m next rest hr hrep hat
  rw [Expr.code, List.append_assoc, List.append_assoc] at hat
  obtain ⟨m1, h1, hfp1⟩ := hleft.operands hright hr hrep hat
  exact ⟨_, h1.add, hfp1⟩

theorem Expr.Delivers.times {left right : Expr} (hleft : left.Delivers code env v out₁)
    (hright : right.Delivers code env w out₂) :
    Expr.Delivers code env (.binary pos .times left right) (v * w) (out₁ ++ out₂) := by
  intro scopes m next rest hr hrep hat
  rw [Expr.code, List.append_assoc, List.append_assoc] at hat
  obtain ⟨m1, h1, hfp1⟩ := hleft.operands hright hr hrep hat
  exact ⟨_, h1.mult, hfp1⟩

theorem Expr.Delivers.equal (hcode : code.LabelsDistinct) {left right : Expr} (hleft : left.Delivers code env v out₁)
    (hright : right.Delivers code env w out₂) :
    Expr.Delivers code env (.binary pos .equal left right) (boolValue (v = w)) (out₁ ++ out₂) := by
  intro scopes m next rest hr hrep hat
  rw [Expr.code, List.append_assoc, List.append_assoc] at hat
  obtain ⟨m1, h1, hfp1⟩ := hleft.operands hright hr hrep hat
  by_cases hvw : v = w
  · subst hvw
    rw [boolValue, decide_eq_true rfl]
    have hequal := h1.remaining.tail.tail.tail
    have hone : Machine.Pushes code m ([] ++ [1]) _ _ _ := (h1.branch (hequal.target hcode) hequal).label.push rfl
    exact ⟨_, hone.label, hfp1⟩
  · rw [boolValue, decide_eq_false hvw]
    have hzero : Machine.Pushes code m ([] ++ [0]) _ _ _ := (h1.fallThrough hvw).push rfl
    have hend := hzero.remaining.tail.tail.tail
    exact ⟨_, (hzero.goto (hend.target hcode) hend).label, hfp1⟩

theorem Expr.Delivers.print {arg : Expr} (harg : arg.Delivers code env v out) :
    Expr.Delivers code env (.print pos arg) v (out ++ [v]) := by
  intro scopes m next rest hr hrep hat
  rw [Expr.code, List.append_assoc] at hat
  obtain ⟨m1, h1, hfp1⟩ := harg scopes m next _ hr hrep hat
  have harg : Machine.Pushes code m ([] ++ [v]) out _ m1 := h1
  exact ⟨_, harg.print, hfp1⟩

theorem Expr.Delivers.yes (hcode : code.LabelsDistinct) {test yes no : Expr} (htest : test.Delivers code env 1 out₁)
    (hyes : yes.Delivers code env v out₂) : Expr.Delivers code env (.cond pos test yes no) v (out₁ ++ out₂) := by
  intro scopes m next rest hr hrep hat
  simp only [Expr.code, List.append_assoc, List.cons_append, List.nil_append] at hat
  obtain ⟨m1, h1, hfp1⟩ := htest scopes m _ _ hr.1 hrep hat
  have hone : Machine.Pushes code m ([] ++ [1] ++ [1]) out₁ _ _ := h1.push rfl
  have hlabel := hone.remaining.tail.right.tail
  have hbranch := (hone.branch (hlabel.target hcode) hlabel).label
  have hrep1 := hrep.after hbranch
  rw [← hfp1] at hrep1
  obtain ⟨m2, h2, hfp2⟩ := hyes scopes _ _ _ hr.2.1 hrep1 hbranch.remaining
  exact ⟨_, (hbranch.trans h2).label, hfp2.trans hfp1⟩

theorem Expr.Delivers.no (hcode : code.LabelsDistinct) {test yes no : Expr} (htest : test.Delivers code env w out₁)
    (hne : w ≠ 1) (hno : no.Delivers code env v out₂) :
    Expr.Delivers code env (.cond pos test yes no) v (out₁ ++ out₂) := by
  intro scopes m next rest hr hrep hat
  simp only [Expr.code, List.append_assoc, List.cons_append, List.nil_append] at hat
  obtain ⟨m1, h1, hfp1⟩ := htest scopes m _ _ hr.1 hrep hat
  have hone : Machine.Pushes code m ([] ++ [w] ++ [1]) out₁ _ _ := h1.push rfl
  have hfall := hone.fallThrough hne
  have hrep1 := hrep.after hfall
  rw [← hfp1] at hrep1
  obtain ⟨m2, h2, hfp2⟩ := hno scopes _ _ _ hr.2.2 hrep1 hfall.remaining
  have hend := h2.remaining.tail.tail.right
  exact ⟨_, ((hfall.trans h2).goto (hend.target hcode) hend).label, hfp2.trans hfp1⟩

theorem Expr.DeliversAll.nil : Expr.DeliversAll code env [] [] [] := by
  intro scopes m next rest _ _ hat
  exact ⟨m, .refl hat, rfl⟩

theorem Expr.DeliversAll.cons {e : Expr} {es : List Expr} (hes : Expr.DeliversAll code env es vs out₁)
    (he : e.Delivers code env v out₂) : Expr.DeliversAll code env (e :: es) (v :: vs) (out₁ ++ out₂) := by
  intro scopes m next rest hr hrep hat
  rw [Expr.argsCode, List.append_assoc] at hat
  obtain ⟨m1, h1, hfp1⟩ := hes scopes m _ _ hr.2 hrep hat
  have hrep1 := hrep.after h1
  rw [← hfp1] at hrep1
  obtain ⟨m2, h2, hfp2⟩ := he scopes m1 _ rest hr.1 hrep1 h1.remaining
  rw [List.reverse_cons]
  exact ⟨m2, h1.trans h2, hfp2.trans hfp1⟩

/-- **Calls.** The arguments, the callee's frame, its declarations and body, and the way back. -/
theorem Expr.Delivers.call {args : List Expr} {params : List Param} {decls : List Decl} {body : Expr} {f : Frame}
    (harity : vs.length = args.length) (hargs : Expr.DeliversAll code env args vs out₁)
    (hfinds : r.Finds env env' (.function params decls body))
    (hdecls : Decl.DeliversAll code env' (.entered vs) decls f out₂) (hbody : body.Delivers code (f :: env') v out₃) :
    Expr.Delivers code env (.call pos r args) v (out₁ ++ out₂ ++ out₃) := by
  rintro scopes m next rest ⟨hr, hargsr⟩ hrep hat
  simp only [Expr.code, List.append_assoc, List.cons_append, List.nil_append] at hat
  have hlfp : Machine.Pushes code m ([] ++ [m.fp]) [] _ _ := (Machine.Pushes.refl hat).push rfl
  obtain ⟨m1, h1, hfp1⟩ := hargs scopes (m.next.push m.fp) _ _ hargsr (hrep.after hlfp) hlfp.remaining
  have hrep1 : Represents code m1.mem m1.sp scopes env m1.fp := by
    rw [hfp1]
    exact (hrep.after hlfp).after h1
  obtain ⟨hhops, s, outer, p, hscope, hle, hheld, hgood, hallows⟩ := hrep1.lookup hr hfinds
  obtain ⟨hparams, hdeclsr, hbodyr⟩ := hscope.callee hgood hallows
  obtain ⟨m2, h2, -⟩ := hrep1.frame hhops (.refl h1.remaining)
  cases hheld with
  | function c a haddr hblock hhosts =>
    rw [functionCode_eq] at hblock
    obtain ⟨n, m3, hn, h3, hfp3⟩ := h2.enter hle haddr hblock
    have hsp3 := h3.sp
    simp only [List.length_append, List.length_singleton, List.length_nil] at hfp3 hsp3
    -- the callee's frame: its link is the last word but one, its arguments are the words above
    have hlink : m3.mem m3.fp = m1.mem^[r.hops.toInt.toNat] m1.fp := by
      rw [← h3.word 0 _ rfl, hfp3]
      congr 1
      omega
    have hrep3 : Represents code m3.mem m3.sp (⟨params, decls⟩ :: s :: outer) (.entered vs :: env') m3.fp := by
      refine .entered ?_ (by omega) hdeclsr fun i w hi => ?_
      · rw [hlink]
        exact hscope.after h3
      · rw [← h1.word_reverse hi, ← h3.kept _ (by omega), hfp3]
        congr 1
        omega
    have hbelow : m3.sp = m3.fp - 1 - (Frame.entered vs).slots.length := by
      rw [Frame.entered, List.length_nil]
      omega
    obtain ⟨ws, m4, h4, hfp4, hlen4, hrep4⟩ :=
      hdecls ⟨params, decls⟩ (s :: outer) [] m3 c.inside _ rfl rfl hbelow hrep3 hhosts h3.remaining
    obtain ⟨m5, h5, -⟩ := hbody _ m4 _ _ hbodyr hrep4 h4.remaining
    have hall : Machine.Pushes code m ([] ++ [m.fp] ++ vs.reverse
        ++ [m1.mem^[r.hops.toInt.toNat] m1.fp] ++ [(n : Int)] ++ ws ++ [v])
        (out₁ ++ out₂ ++ out₃) (returnCode ws.length vs.reverse.length) m5 := by
      rw [hlen4, List.length_reverse, harity, ← hparams]
      simpa only [List.append_assoc, List.nil_append] using (((hlfp.trans h1).trans h3).trans h4).trans h5
    exact hall.leave hn

theorem Decl.Delivers.var {f : Frame} {name : String} {value : Expr} (h : value.Delivers code (f :: env) v out) :
    Decl.Delivers code env f (.var pos name value) (.value v) out := by
  intro scopes m c rest hr hrep _ hat
  obtain ⟨m', h', hfp⟩ := h scopes m _ rest hr hrep hat
  exact ⟨v, m', h', hfp, .value⟩

theorem Decl.Delivers.func {f : Frame} {name : String} {params : List Param} {decls : List Decl} {body : Expr} :
    Decl.Delivers code env f (.func pos name params decls body) (.function params decls body) [] := by
  intro scopes m c rest _ _ hhosts hat
  obtain ⟨hself, hinner⟩ := List.forall_mem_cons.1 hhosts
  obtain ⟨a, hl, ha⟩ := hself
  have hrun : (Instr.push (.address (.function c.functions))).run code m = some (m.next.push a) := by
    have hword : code.target? (.function c.functions) = some a := hl
    rw [Instr.run, Operand.word?, hword]
    rfl
  exact ⟨a, _, (Machine.Pushes.refl hat).push hrun, rfl, .function c a rfl ha hinner⟩

theorem Decl.DeliversAll.nil {f : Frame} : Decl.DeliversAll code env f [] f [] := by
  intro s scopes done m c rest _ _ _ hrep _ hat
  exact ⟨[], m, .refl hat, rfl, rfl, hrep⟩

theorem Decl.DeliversAll.cons {f f' : Frame} {d : Decl} {ds : List Decl} {x : Slot} (hleft : x.LeftBy d)
    (hd : d.Delivers code env f x out₁) (hds : Decl.DeliversAll code env (f.declare x) ds f' out₂) :
    Decl.DeliversAll code env f (d :: ds) f' (out₁ ++ out₂) := by
  intro s scopes done m c rest hs hlen hsp hrep hhosts hat
  rw [Decl.codeAll, List.append_assoc] at hat
  obtain ⟨hhostsd, hhostsds⟩ := List.forall_mem_append.1 hhosts
  have hget : s.decls[f.slots.length]? = some d := by
    rw [hs, hlen]
    simp
  have hdr : d.Resolved (s :: scopes) := by
    cases hrep with
    | cons _ hdecls _ => exact (Decl.resolvedAll_iff _ _).1 hdecls d (List.mem_of_getElem? hget)
  obtain ⟨w, m1, h1, hfp1, hheld⟩ := hd (s :: scopes) m c _ hdr hrep hhostsd hat
  have hrep1 := hrep.declare hsp hget hleft hheld h1
  rw [← hfp1] at hrep1
  have hslots : (f.declare x).slots.length = f.slots.length + 1 := by simp [Frame.declare]
  have hsp1 := h1.sp
  rw [List.length_singleton] at hsp1
  obtain ⟨ws, m2, h2, hfp2, hlen2, hrep2⟩ := hds s scopes (done ++ [d]) m1 (c.after d) rest (by simp [hs])
    (by simp [hslots, hlen]) (by omega) hrep1 hhostsds h1.remaining
  exact ⟨w :: ws, m2, h1.trans h2, hfp2.trans hfp1, by rw [List.length_cons, hlen2, List.length_cons], hrep2⟩

end Pieces

mutual

/-- **Expressions.** What an expression yields, its code delivers. -/
theorem Expr.Yields.delivers {code : Code} (hcode : code.LabelsDistinct) : ∀ {env : List Frame} {e : Expr} {v : Int}
    {out : List Int}, e.Yields env v out → e.Delivers code env v out
  | _, _, _, _, .int => .int _
  | _, _, _, _, .bool => .bool _
  | _, _, _, _, .ident hfinds => .ident hfinds
  | _, _, _, _, .call hargs hfinds hdecls hbody =>
    .call hargs.length_eq (hargs.delivers hcode) hfinds (hdecls.delivers hcode) (hbody.delivers hcode)
  | _, _, _, _, .yes htest hyes => .yes hcode (htest.delivers hcode) (hyes.delivers hcode)
  | _, _, _, _, .no htest hne hno => .no hcode (htest.delivers hcode) hne (hno.delivers hcode)
  | _, _, _, _, .equal hleft hright => .equal hcode (hleft.delivers hcode) (hright.delivers hcode)
  | _, _, _, _, .plus hleft hright => .plus (hleft.delivers hcode) (hright.delivers hcode)
  | _, _, _, _, .times hleft hright => .times (hleft.delivers hcode) (hright.delivers hcode)
  | _, _, _, _, .print harg => .print (harg.delivers hcode)

theorem Expr.YieldsAll.delivers {code : Code} (hcode : code.LabelsDistinct) : ∀ {env : List Frame} {es : List Expr}
    {vs out : List Int}, Expr.YieldsAll env es vs out → Expr.DeliversAll code env es vs out
  | _, _, _, _, .nil => .nil
  | _, _, _, _, .cons hes he => .cons (hes.delivers hcode) (he.delivers hcode)

theorem Decl.Runs.delivers {code : Code} (hcode : code.LabelsDistinct) : ∀ {env : List Frame} {f f' : Frame}
    {ds : List Decl} {out : List Int}, Decl.Runs env f ds f' out → Decl.DeliversAll code env f ds f' out
  | _, _, _, _, _, .nil => .nil
  | _, _, _, _, _, .var hvalue hds => .cons .value (.var (hvalue.delivers hcode)) (hds.delivers hcode)
  | _, _, _, _, _, .func hds => .cons .function .func (hds.delivers hcode)

end

end LetStack

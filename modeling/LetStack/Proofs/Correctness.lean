/-
Compiled programs compute what their trees mean.

For a resolved tree that yields a value, running the compiled code from the base of an empty stack reaches `halt`, with
the value on top, the same words printed, the frame pointer back where it was, and nothing below the base touched.
Besides the value the stack then holds what the outermost frame holds: one word in place of its return address and one
for each declaration; under a bare expression there is nothing.

Results:
- `Root.Resolved.isBound`: the references of a resolved tree are ones that the generator accepts;
- `Program.hosts`: each function of a program stands where its label leads;
- `compiled_code_computes_meaning`: the statement above.
-/
import LetStack.Proofs.Simulation

namespace LetStack

/-! ## Resolved references compile -/

theorem Reference.Resolved.isBound {scopes : List Scope} {good : Scope → Place → Prop} {r : Reference}
    (h : r.Resolved scopes good) : r.IsBound := by
  obtain ⟨hlevel, e, p, s, outer, he, -, hscope, -⟩ := h
  obtain ⟨h0, hlt, -⟩ := enclosing_eq_drop hscope
  refine ⟨by rw [he]; rfl, Int64.le_iff_toInt_le.2 ?_⟩
  rw [Reference.toInt_hops he h0 (by omega)]
  exact Int.sub_nonneg_of_le (by omega)

mutual

theorem Expr.Resolved.isBound {scopes : List Scope} (e : Expr) (h : e.Resolved scopes) :
    ∀ n ∈ e.nodes, ∀ r, n.reference? = some r → r.IsBound := by
  cases e with
  | absent => simp [Expr.nodes]
  | literal p v => simp [Expr.nodes]
  | ident p r =>
    simp only [Expr.nodes, List.mem_singleton, forall_eq, Node.reference?, Option.some.injEq, forall_eq']
    exact Reference.Resolved.isBound h
  | call p r args =>
    simp only [Expr.nodes, List.forall_mem_cons, Node.reference?, Option.some.injEq, forall_eq']
    exact ⟨Reference.Resolved.isBound h.1, Expr.ResolvedAll.isBound args h.2⟩
  | cond p test yes no =>
    simp only [Expr.nodes, List.forall_mem_cons, List.forall_mem_append]
    exact ⟨by simp, ⟨Expr.Resolved.isBound test h.1, Expr.Resolved.isBound yes h.2.1⟩,
      Expr.Resolved.isBound no h.2.2⟩
  | binary p op left right =>
    simp only [Expr.nodes, List.forall_mem_cons, List.forall_mem_append]
    exact ⟨by simp, Expr.Resolved.isBound left h.1, Expr.Resolved.isBound right h.2⟩
  | print p arg =>
    simp only [Expr.nodes, List.forall_mem_cons]
    exact ⟨by simp, Expr.Resolved.isBound arg h⟩

theorem Expr.ResolvedAll.isBound {scopes : List Scope} (es : List Expr) (h : Expr.ResolvedAll scopes es) :
    ∀ n ∈ Expr.nodesAll es, ∀ r, n.reference? = some r → r.IsBound := by
  cases es with
  | nil => simp [Expr.nodesAll]
  | cons e es =>
    simp only [Expr.nodesAll, List.forall_mem_append]
    exact ⟨Expr.Resolved.isBound e h.1, Expr.ResolvedAll.isBound es h.2⟩

end

mutual

theorem Decl.Resolved.isBound {scopes : List Scope} (d : Decl) (h : d.Resolved scopes) :
    ∀ n ∈ d.nodes, ∀ r, n.reference? = some r → r.IsBound := by
  cases d with
  | absent => simp [Decl.nodes]
  | var p name value =>
    simp only [Decl.nodes, List.forall_mem_cons]
    exact ⟨by simp, Expr.Resolved.isBound value h⟩
  | func p name params decls body =>
    simp only [Decl.nodes, List.forall_mem_cons, List.forall_mem_append]
    exact ⟨by simp, Decl.ResolvedAll.isBound decls h.1, Expr.Resolved.isBound body h.2⟩

theorem Decl.ResolvedAll.isBound {scopes : List Scope} (ds : List Decl) (h : Decl.ResolvedAll scopes ds) :
    ∀ n ∈ Decl.nodesAll ds, ∀ r, n.reference? = some r → r.IsBound := by
  cases ds with
  | nil => simp [Decl.nodesAll]
  | cons d ds =>
    simp only [Decl.nodesAll, List.forall_mem_append]
    exact ⟨Decl.Resolved.isBound d h.1, Decl.ResolvedAll.isBound ds h.2⟩

end

theorem Root.Resolved.isBound (r : Root) (h : r.Resolved) : ∀ n ∈ r.nodes, ∀ s, n.reference? = some s → s.IsBound := by
  cases r with
  | absent => simp [Root.nodes]
  | letIn p decls body =>
    simp only [Root.nodes, List.forall_mem_cons, List.forall_mem_append]
    exact ⟨by simp, Decl.ResolvedAll.isBound decls h.1, Expr.Resolved.isBound body h.2⟩
  | bare body =>
    simp only [Root.nodes, List.forall_mem_cons]
    exact ⟨by simp, Expr.Resolved.isBound body h⟩

/-- a resolved tree compiles if it has only what the language has -/
theorem Root.Resolved.compiles_iff {r : Root} (h : r.Resolved) :
    (∃ p, r.compile = .ok p) ↔ ∀ n ∈ r.nodes, n.IsLegal := by
  constructor
  · rintro ⟨p, hp⟩ n hn
    exact (((r.compile_eq_ok_iff p).1 hp).1 n hn).1
  · intro hlegal
    refine ⟨r.program, (r.compile_eq_ok_iff _).2 ⟨fun n hn => ⟨hlegal n hn, ?_⟩, rfl⟩⟩
    exact Root.Resolved.isBound r h n hn

/-! ## Running a program -/

theorem Program.hosts {p : Program} (hclosed : p.IsClosed) (hcode : p.code.LabelsDistinct) :
    p.code.Hosts p.routines := by
  intro q hq
  obtain ⟨before, after, hsplit⟩ := List.append_of_mem hq
  have hparts : p.code = (p.toplevel ++ before.flatMap Routine.code) ++ (q.code ++ after.flatMap Routine.code) := by
    simp [Program.code, hsplit]
  have hself := Code.Holds.self p.code
  nth_rewrite 2 [hparts] at hself
  have hat := hself.right.left
  obtain ⟨tail, htail⟩ := List.head?_eq_some_iff.1 (hclosed.routines q hq).head
  have hlabel := hat
  rw [htail] at hlabel
  exact ⟨_, hlabel.target hcode, hat⟩

/-- how many words a program leaves on the stack -/
def Root.depth : Root → Nat
  | .absent => 0
  | .letIn _ decls _ => 1 + decls.length + 1
  | .bare _ => 1

theorem Root.Yields.pushes {r : Root} {v : Int} {out : List Int} (h : r.Yields v out) (hr : r.Resolved)
    (hcode : r.program.code.LabelsDistinct) {m : Machine} (hm : m.IsInitial) :
    ∃ ws rest m', Machine.Pushes r.program.code m (ws ++ [v]) out (.halt :: rest) m' ∧ m'.fp = m.fp ∧
      ws.length + 1 = r.depth := by
  have hself := Code.Holds.self r.program.code
  rw [← hm.ip] at hself
  have hfp := hm.fp
  cases h with
  | @letIn pos decls body f _ _ _ hdecls hbody =>
    have hhosts := Program.hosts (Root.isClosed_program (.letIn pos decls body) nofun) hcode
    nth_rewrite 2 [Program.code, Root.program] at hself
    simp only [List.append_assoc, List.cons_append, List.nil_append] at hself
    have hzero : Machine.Pushes _ m ([] ++ [0]) [] _ (m.next.push 0) := (Machine.Pushes.refl hself).push rfl
    have hrep : Represents (Root.program (.letIn pos decls body)).code (m.next.push 0).mem (m.next.push 0).sp
        [⟨[], decls⟩] [.entered []] (m.next.push 0).fp :=
      .entered .nil (by simp only [Machine.push_sp, Machine.push_fp, Machine.next_sp, Machine.next_fp]; omega) hr.1
        (by simp)
    obtain ⟨ws, m1, h1, hfp1, hlen1, hrep1⟩ := hdecls.delivers hcode ⟨[], decls⟩ [] [] (m.next.push 0) .start _ rfl rfl
      (by simp [Frame.entered]; omega) hrep hhosts hzero.remaining
    obtain ⟨m2, h2, hfp2⟩ := hbody.delivers hcode _ m1 _ _ hr.2 hrep1 h1.remaining
    refine ⟨0 :: ws, _, m2, (hzero.trans h1).trans h2, (hfp2.trans hfp1), ?_⟩
    rw [List.length_cons, hlen1, Root.depth]
    omega
  | @bare body _ _ hbody =>
    nth_rewrite 2 [Program.code, Root.program] at hself
    simp only [List.append_assoc, List.cons_append, List.nil_append] at hself
    have hrep : Represents (Root.program (.bare body)).code m.mem m.sp [⟨[], []⟩] [.entered []] m.fp :=
      .entered .nil (by omega) trivial (by simp)
    obtain ⟨m1, h1, hfp1⟩ := hbody.delivers hcode _ m _ _ hr hrep hself
    exact ⟨[], _, m1, h1, hfp1, rfl⟩

/-- **Correctness.** A resolved tree compiles if all its nodes are of the language. Where the tree yields a value, its
compiled code, started at the base of an empty stack with anything in memory, reaches `halt` with that value on top and
the same words printed; the frame pointer is what it was, the stack holds the outermost frame and the value, and no word
outside it has changed. -/
theorem compiled_code_computes_meaning {r : Root} {v : Int} {out : List Int} (hr : r.Resolved) (hv : r.Yields v out) :
    ((∃ p, r.compile = .ok p) ↔ ∀ n ∈ r.nodes, n.IsLegal) ∧
    ∀ p, r.compile = .ok p → ∀ m : Machine, m.IsInitial →
      ∃ m', Machine.Reaches p.code m m' ∧ p.code[m'.ip]? = some .halt ∧ m'.top = v ∧ m'.printed = out ∧
        m'.fp = m.fp ∧ m'.sp = m.sp - r.depth ∧ ∀ a, m.sp ≤ a → m'.mem a = m.mem a := by
  refine ⟨hr.compiles_iff, fun p hp m hm => ?_⟩
  have hcode := labelsDistinct_of_compile hp
  obtain ⟨-, rfl⟩ := (r.compile_eq_ok_iff p).1 hp
  obtain ⟨ws, rest, m', h, hfp, hdepth⟩ := hv.pushes hr hcode hm
  refine ⟨m', h.reaches, h.remaining.head, h.top, ?_, hfp, ?_, h.kept⟩
  · rw [h.printed, hm.printed, List.nil_append]
  · rw [h.sp, List.length_append, List.length_singleton, hdepth]

namespace SumTree

/-- the outermost frame, with its function -/
def outermost : Frame := ⟨[], [.function [{ name := "n" }] [add] body]⟩

/-- the frame of a call with argument `z`, after its declaration -/
def called (z : Int) : Frame := ⟨[z], [.function [{ name := "m" }] [] addBody]⟩

theorem n_yields (z : Int) : (n 1).Yields [called z, outermost] z [] :=
  .ident ⟨⟨1, 1⟩, .param 0, called z, [outermost], rfl, .param (by decide) rfl, rfl, rfl, .param rfl⟩

theorem sum_yields {level : Int64} {env : List Frame} {arg : Expr} {z v : Int} (henv : enclosing env 0 = [outermost])
    (harg : arg.Yields env z []) (hbody : body.Yields [called z, outermost] v []) :
    (sum level arg).Yields env v [] := by
  have hcall : (sum level arg).Yields env v ([] ++ [] ++ [] ++ []) :=
    .call (.cons .nil harg) ⟨⟨0, -2⟩, .decl 0, outermost, [], rfl, .decl (by decide) rfl, henv, rfl, .decl rfl⟩
      (.func .nil) hbody
  exact hcall

theorem body_yields_zero : body.Yields [called 0, outermost] 0 [] := by
  have htest : (Expr.binary ⟨1, 50⟩ .equal (n 1) (int 0)).Yields [called 0, outermost]
      (boolValue ((0 : Int) = (0 : Int64).toInt)) ([] ++ []) := .equal (n_yields 0) .int
  have hbody : body.Yields [called 0, outermost] (0 : Int64).toInt ([] ++ []) := .yes htest .int
  exact hbody

theorem addBody_yields (z v : Int) : addBody.Yields [⟨[v], []⟩, called z, outermost] (z + v) [] := by
  have hsum : addBody.Yields [⟨[v], []⟩, called z, outermost] (z + v) ([] ++ []) :=
    .plus (.ident ⟨⟨1, 1⟩, .param 0, called z, [outermost], rfl, .param (by decide) rfl, rfl, rfl, .param rfl⟩)
      (.ident ⟨⟨2, 1⟩, .param 0, ⟨[v], []⟩, _, rfl, .param (by decide) rfl, rfl, rfl, .param rfl⟩)
  exact hsum

/-- one recursive call -/
theorem body_yields {z v : Int} (hz : z ≠ 0) (h : body.Yields [called (z + -1), outermost] v []) :
    body.Yields [called z, outermost] (z + v) [] := by
  have htest : (Expr.binary ⟨1, 50⟩ .equal (n 1) (int 0)).Yields [called z, outermost]
      (boolValue (z = (0 : Int64).toInt)) ([] ++ []) := .equal (n_yields z) .int
  have hfalse : boolValue (z = (0 : Int64).toInt) ≠ 1 := by simp [boolValue, hz]
  have harg : (Expr.binary ⟨1, 76⟩ .plus (n 1) (int (-1))).Yields [called z, outermost]
      (z + (-1 : Int64).toInt) ([] ++ []) := .plus (n_yields z) .int
  have hadd : (Expr.call ⟨1, 66⟩ ⟨"add", 1, some ⟨1, -2⟩⟩ [sum 1 (.binary ⟨1, 76⟩ .plus (n 1) (int (-1)))]).Yields
      [called z, outermost] (z + v) ([] ++ [] ++ [] ++ []) :=
    .call (.cons .nil (sum_yields rfl harg h))
      ⟨⟨1, -2⟩, .decl 0, called z, [outermost], rfl, .decl (by decide) rfl, rfl, rfl, .decl rfl⟩ .nil
      (addBody_yields z v)
  have hbody : body.Yields [called z, outermost] (z + v) (([] ++ []) ++ ([] ++ [] ++ [] ++ [])) := .no htest hfalse hadd
  exact hbody

end SumTree

theorem sumTree_resolved : sumTree.Resolved := by
  have hn1 (top : Scope) : (SumTree.n 1).Resolved [⟨[{ name := "n" }], [SumTree.add]⟩, top] :=
    ⟨rfl, ⟨1, 1⟩, .param 0, _, _, rfl, .param (by decide) rfl, rfl, Nat.zero_lt_one⟩
  have hn2 (top : Scope) : (SumTree.n 2).Resolved [⟨[{ name := "m" }], []⟩, ⟨[{ name := "n" }], [SumTree.add]⟩, top] :=
    ⟨rfl, ⟨1, 1⟩, .param 0, _, _, rfl, .param (by decide) rfl, rfl, Nat.zero_lt_one⟩
  -- the nested function, then the three operands of the conditional, then the body of the program
  refine ⟨⟨⟨⟨⟨trivial, hn2 _, ?_⟩, trivial⟩, ⟨hn1 _, trivial⟩, trivial, ?_, ⟨?_, ⟨hn1 _, trivial⟩, trivial⟩, trivial⟩,
    trivial⟩, ?_, trivial, trivial⟩
  · exact ⟨rfl, ⟨2, 1⟩, .param 0, _, _, rfl, .param (by decide) rfl, rfl, Nat.zero_lt_one⟩
  · exact ⟨rfl, ⟨1, -2⟩, .decl 0, _, _, rfl, .decl (by decide) rfl, rfl, _, _, _, _, _, rfl, rfl⟩
  · exact ⟨rfl, ⟨0, -2⟩, .decl 0, _, _, rfl, .decl (by decide) rfl, rfl, _, _, _, _, _, rfl, rfl⟩
  · exact ⟨rfl, ⟨0, -2⟩, .decl 0, _, _, rfl, .decl (by decide) rfl, rfl, _, _, _, _, _, rfl, rfl⟩

theorem sumTree_yields : sumTree.Yields 3 [3] := by
  have hone : SumTree.body.Yields [SumTree.called 1, SumTree.outermost] 1 [] :=
    SumTree.body_yields Int.one_ne_zero SumTree.body_yields_zero
  have htwo : SumTree.body.Yields [SumTree.called 2, SumTree.outermost] 3 [] :=
    SumTree.body_yields (z := 2) (by decide) hone
  have hsum : (SumTree.sum 0 (SumTree.int 2)).Yields [SumTree.outermost] 3 [] := SumTree.sum_yields rfl .int htwo
  have hprint : sumTree.Yields 3 ([] ++ ([] ++ [3])) := .letIn (.func .nil) (.print hsum)
  exact hprint

/-- running the compiled tree prints 3, and leaves the word of the frame, the function and the result -/
theorem sumTree_computes :
    sumTree.Resolved ∧ sumTree.Yields 3 [3] ∧ sumTree.compile = .ok sumTree.program ∧
    ∃ m', Machine.Reaches sumTree.program.code ⟨0, 0, 0, 0, 0, fun _ => 0, []⟩ m' ∧ m'.top = 3 ∧ m'.printed = [3] ∧
      m'.fp = 0 ∧ m'.sp = -3 := by
  have hok : sumTree.compile = .ok sumTree.program := rfl
  obtain ⟨-, hrun⟩ := compiled_code_computes_meaning sumTree_resolved sumTree_yields
  obtain ⟨m', hreaches, -, htop, hprinted, hfp, hsp, -⟩ :=
    hrun _ hok ⟨0, 0, 0, 0, 0, fun _ => 0, []⟩ ⟨rfl, rfl, rfl⟩
  exact ⟨sumTree_resolved, sumTree_yields, hok, m', hreaches, htop, hprinted, hfp, hsp⟩

end LetStack

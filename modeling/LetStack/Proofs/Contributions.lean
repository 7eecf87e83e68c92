/-
What each node contributes to a program.

The code of a subtree is put together from pieces that stand apart: a conditional has its branches between the code of
its parts, a function leaves a push where it is declared and its block in the pool. Up to order, and up to the numbers
of labels, the instructions of a program are those of its nodes, taken one by one. `Node.share` lists the instructions
of a node without those of its parts, with the number 0 for all labels, and `Code.contents` forgets order and numbers.

Results:
- `Root.contents_program`: the contents of a program are the shares of the nodes;
- `every_node_contributes_once`: so the number of instructions with each operation is a sum over the nodes.
-/
import LetStack.Proofs.Blocks
import LetStack.Proofs.FirstFault

namespace LetStack

/-! ## Contents -/

/-- the label without its number -/
def Label.unnumbered : Label → Label
  | .control _ => .control 0
  | .function _ => .function 0

/-- the instruction without the number of the label that it mentions -/
def Instr.unnumbered : Instr → Instr
  | .push (.address l) => .push (.address l.unnumbered)
  | .beq l => .beq l.unnumbered
  | .b l => .b l.unnumbered
  | .label l => .label l.unnumbered
  | i => i

theorem Instr.opcode_unnumbered (i : Instr) : i.unnumbered.opcode = i.opcode := by
  rcases i with (_ | _) | _ <;> rfl

namespace Code

/-- the instructions, without their order and without the numbers of labels -/
def contents (c : Code) : Multiset Instr := Multiset.ofList (c.map Instr.unnumbered)

@[simp] theorem contents_nil : contents [] = 0 := rfl

@[simp] theorem contents_cons (i : Instr) (c : Code) : contents (i :: c) = {i.unnumbered} + contents c := by
  rw [contents, List.map_cons, ← Multiset.cons_coe, ← Multiset.singleton_add]
  rfl

@[simp] theorem contents_append (a b : Code) : contents (a ++ b) = contents a + contents b := by
  rw [contents, List.map_append, ← Multiset.coe_add]
  rfl

end Code

/-! ## Shares -/

/-- the instructions of a node itself, with the number 0 for each label -/
def Node.share : Node → Code
  | .root .absent | .decl .absent | .expr .absent => []
  -- the word for the access link of the outermost frame
  | .root (.letIn _ _ _) => [pushInt 0, .halt]
  | .root (.bare _) => [.halt]
  | .decl (.var _ _ _) => []
  | .decl (.func _ _ params decls _) =>
    functionGroup 0 ++ [.cfp, .lra, .stm] ++ List.replicate decls.length .pop ++ [.sra, .pop]
      ++ List.replicate params.length .pop ++ [.sfp, .ltm, .lra, .js]
  | .expr (.literal _ (.int n)) => [pushInt n]
  | .expr (.literal _ (.bool b)) => [pushInt (if b then 1 else 0)]
  | .expr (.literal _ (.string _)) | .expr (.literal _ .absent) => []
  | .expr (.ident _ r) => r.frame ++ [pushInt r.offset, .add, .lw]
  | .expr (.call _ r _) => [.lfp] ++ r.frame ++ [.stm, .ltm, .ltm, pushInt r.offset, .add, .lw, .js]
  | .expr (.cond _ _ _ _) => pushInt 1 :: branchingGroup 0
  | .expr (.binary _ .equal _ _) => pushInt 0 :: pushInt 1 :: branchingGroup 0
  | .expr (.binary _ .plus _ _) => [.add]
  | .expr (.binary _ .times _ _) => [.mult]
  | .expr (.binary _ (.illegal _) _ _) => []
  | .expr (.print _ _) => [.print]

/-- the shares of some nodes, taken together -/
def Node.shares (ns : List Node) : Multiset Instr := (ns.map fun n => Code.contents n.share).sum

namespace Node

@[simp] theorem shares_nil : shares [] = 0 := rfl

@[simp] theorem shares_cons (n : Node) (ns : List Node) : shares (n :: ns) = Code.contents n.share + shares ns :=
  List.sum_cons

@[simp] theorem shares_append (as bs : List Node) : shares (as ++ bs) = shares as + shares bs := by
  rw [shares, List.map_append, List.sum_append]
  rfl

end Node

/-! ## The generator -/

mutual

theorem Expr.contents_code (next : Nat) (e : Expr) (h : ∀ n ∈ e.nodes, n.IsSound) :
    Code.contents (e.code next) = Node.shares e.nodes := by
  cases e with
  | absent => simp [Expr.nodes] at h
  | literal p v => cases v <;> simp [Expr.code, Expr.nodes, Node.share]
  | ident p r => simp [Expr.code, Expr.nodes, Node.share]
  | call p r args =>
    obtain ⟨-, hargs⟩ := List.forall_mem_cons.1 h
    have h1 := Expr.contents_argsCode next args hargs
    simp only [Expr.code, Expr.nodes, Node.share, Code.contents_append, Node.shares_cons, h1]
    abel
  | cond p test yes no =>
    simp only [Expr.nodes, List.forall_mem_cons, List.forall_mem_append] at h
    obtain ⟨-, ⟨htest, hyes⟩, hno⟩ := h
    have h1 := Expr.contents_code (next + 2) test htest
    have h2 := Expr.contents_code (next + 2 + test.labelCount) no hno
    have h3 := Expr.contents_code (next + 2 + test.labelCount + no.labelCount) yes hyes
    simp only [Expr.code, Expr.nodes, Node.share, branchingGroup, Code.contents_append, Code.contents_cons,
      Code.contents_nil, Instr.unnumbered, Label.unnumbered, Node.shares_cons, Node.shares_append, h1, h2, h3]
    abel
  | binary p op left right =>
    simp only [Expr.nodes, List.forall_mem_cons, List.forall_mem_append] at h
    obtain ⟨hsound, hleft, hright⟩ := h
    have h1 := fun k => Expr.contents_code k left hleft
    have h2 := fun k => Expr.contents_code k right hright
    cases op with
    | equal =>
      simp only [Expr.code, Expr.nodes, Node.share, branchingGroup, Code.contents_append, Code.contents_cons,
        Code.contents_nil, Instr.unnumbered, Label.unnumbered, Node.shares_cons, Node.shares_append, h1, h2]
      abel
    | plus | times =>
      simp only [Expr.code, Expr.nodes, Node.share, Code.contents_append, Node.shares_cons, Node.shares_append, h1, h2]
      abel
    | illegal c => exact absurd hsound.1 id
  | print p arg =>
    obtain ⟨-, harg⟩ := List.forall_mem_cons.1 h
    have h1 := Expr.contents_code next arg harg
    simp only [Expr.code, Expr.nodes, Node.share, Code.contents_append, Node.shares_cons, h1]
    abel

theorem Expr.contents_argsCode (next : Nat) (es : List Expr) (h : ∀ n ∈ Expr.nodesAll es, n.IsSound) :
    Code.contents (Expr.argsCode next es) = Node.shares (Expr.nodesAll es) := by
  cases es with
  | nil => rfl
  | cons e es =>
    obtain ⟨he, hes⟩ := List.forall_mem_append.1 h
    have h1 := Expr.contents_argsCode next es hes
    have h2 := Expr.contents_code (next + Expr.labelCountAll es) e he
    -- arguments stand last to first
    simp only [Expr.argsCode, Expr.nodesAll, Code.contents_append, Node.shares_append, h1, h2]
    abel

end

mutual

/-- what a declaration leaves in its place and in the pool, taken together -/
theorem Decl.contents_code (c : Counters) (d : Decl) (h : ∀ n ∈ d.nodes, n.IsSound) :
    Code.contents (d.code c) + Code.contents ((d.routines c).flatMap Routine.code) = Node.shares d.nodes := by
  cases d with
  | absent => simp [Decl.nodes] at h
  | var p name value =>
    obtain ⟨-, hvalue⟩ := List.forall_mem_cons.1 h
    have h1 := value.contents_code c.labels hvalue
    simp [Decl.code, Decl.routines, Decl.nodes, Node.share, h1]
  | func p name params decls body =>
    simp only [Decl.nodes, List.forall_mem_cons, List.forall_mem_append] at h
    obtain ⟨-, hdecls, hbody⟩ := h
    have h1 := Decl.contents_codeAll c.inside decls hdecls
    have h2 := body.contents_code (c.labels + Decl.labelCountAll decls) hbody
    simp only [Decl.code, Decl.routines, Routine.make, functionCode, Decl.nodes, Node.share, functionGroup,
      List.flatMap_cons, Code.contents_append, Code.contents_cons, Code.contents_nil, Instr.unnumbered,
      Label.unnumbered, Node.shares_cons, Node.shares_append, ← h1, h2]
    abel

theorem Decl.contents_codeAll (c : Counters) (ds : List Decl) (h : ∀ n ∈ Decl.nodesAll ds, n.IsSound) :
    Code.contents (Decl.codeAll c ds) + Code.contents ((Decl.routinesAll c ds).flatMap Routine.code)
      = Node.shares (Decl.nodesAll ds) := by
  cases ds with
  | nil => rfl
  | cons d ds =>
    obtain ⟨hd, hds⟩ := List.forall_mem_append.1 h
    have h1 := Decl.contents_code c d hd
    have h2 := Decl.contents_codeAll (c.after d) ds hds
    simp only [Decl.codeAll, Decl.routinesAll, Decl.nodesAll, List.flatMap_append, Code.contents_append,
      Node.shares_append, ← h1, ← h2]
    abel

end

/-- **The contents of a program** are the shares of the nodes of its tree. -/
theorem Root.contents_program (r : Root) (h : ∀ n ∈ r.nodes, n.IsSound) :
    Code.contents r.program.code = Node.shares r.nodes := by
  cases r with
  | absent => simp [Root.nodes] at h
  | letIn p decls body =>
    simp only [Root.nodes, List.forall_mem_cons, List.forall_mem_append] at h
    obtain ⟨-, hdecls, hbody⟩ := h
    have h1 := Decl.contents_codeAll .start decls hdecls
    have h2 := body.contents_code (Decl.labelCountAll decls) hbody
    simp only [Root.program, Program.code, Root.nodes, Node.share, Code.contents_append, Code.contents_cons,
      Node.shares_cons, Node.shares_append, ← h1, h2]
    abel
  | bare body =>
    obtain ⟨-, hbody⟩ := List.forall_mem_cons.1 h
    have h1 := body.contents_code 0 hbody
    simp only [Root.program, Program.code, Root.nodes, Node.share, List.flatMap_nil, Code.contents_append,
      Node.shares_cons, h1]
    simp [add_comm]

/-! ## Counts -/

namespace Code

/-- how many instructions have this operation -/
def tally (op : Opcode) (c : Code) : Nat := c.countP fun i => i.opcode = op

@[simp] theorem tally_nil (op : Opcode) : tally op [] = 0 := rfl

@[simp] theorem tally_cons (op : Opcode) (i : Instr) (c : Code) :
    tally op (i :: c) = tally op c + if i.opcode = op then 1 else 0 := by
  simp [tally, List.countP_cons]

@[simp] theorem tally_append (op : Opcode) (a b : Code) : tally op (a ++ b) = tally op a + tally op b :=
  List.countP_append

@[simp] theorem tally_replicate (op : Opcode) (n : Nat) (i : Instr) :
    tally op (List.replicate n i) = if i.opcode = op then n else 0 := by
  simp [tally, List.countP_replicate]

/-- neither the order nor the numbers of labels matter -/
theorem countP_contents (op : Opcode) (c : Code) : (contents c).countP (fun i => i.opcode = op) = tally op c := by
  rw [contents, Multiset.coe_countP, List.countP_map]
  exact List.countP_congr fun i _ => by simp [Instr.opcode_unnumbered]

end Code

@[simp] theorem Reference.tally_frame (op : Opcode) (r : Reference) :
    Code.tally op r.frame = (if op = .lw then r.hops.toInt.toNat else 0) + if op = .lfp then 1 else 0 := by
  cases op <;> simp [Reference.frame, copies, Instr.opcode]

theorem Node.countP_shares (op : Opcode) (ns : List Node) :
    (shares ns).countP (fun i => i.opcode = op) = (ns.map fun n => Code.tally op n.share).sum := by
  induction ns with
  | nil => rfl
  | cons n ns ih => rw [shares_cons, Multiset.countP_add, Code.countP_contents, ih, List.map_cons, List.sum_cons]

namespace Node

/-- the operator of a node, if it has one -/
def operator? : Node → Option Operator
  | .expr (.binary _ op _ _) => some op
  | _ => none

/-- 1 for a node of this kind, 0 for any other -/
def ofKind (kind : NodeKind) (n : Node) : Nat := if n.kind = kind then 1 else 0

/-- 1 for a node with this operator, 0 for any other -/
def withOperator (op : Operator) (n : Node) : Nat := if n.operator? = some op then 1 else 0

/-- the words of a function's frame that are popped before it returns: one for each declaration, the access link, one
for each parameter -/
def pops : Node → Nat
  | .decl (.func _ _ params decls _) => decls.length + 1 + params.length
  | _ => 0

/-- the words that a use of a name loads: the access links that it follows, and the place that it denotes -/
def loads (n : Node) : Nat := n.reference?.elim 0 fun r => r.hops.toInt.toNat + 1

/-- how many instructions with an operation a node has itself -/
def weight (n : Node) : Opcode → Nat
  | .push =>
    n.ofKind .literal + n.ofKind .ident + n.ofKind .call + n.ofKind .func + n.ofKind .cond + 2 * n.withOperator .equal
      + n.ofKind .letIn
  | .pop => n.pops
  | .add => n.withOperator .plus + n.ofKind .ident + n.ofKind .call
  | .mult => n.withOperator .times
  | .beq | .b => n.ofKind .cond + n.withOperator .equal
  | .js | .stm => n.ofKind .call + n.ofKind .func
  | .halt => n.ofKind .letIn + n.ofKind .bare
  | .print => n.ofKind .print
  | .lw => n.loads
  | .lfp => n.ofKind .ident + 2 * n.ofKind .call
  | .sfp | .cfp | .sra => n.ofKind .func
  | .lra => 2 * n.ofKind .func
  | .ltm => 2 * n.ofKind .call + n.ofKind .func
  | .label => 2 * (n.ofKind .cond + n.withOperator .equal) + n.ofKind .func
  | .illegal _ => 0

theorem tally_share {n : Node} (h : n.IsSound) (op : Opcode) : Code.tally op n.share = n.weight op := by
  have hlegal := h.1
  rcases n with (_ | _ | _) | (_ | _ | _) | (_ | ⟨p, v⟩ | _ | _ | _ | ⟨p, o, left, right⟩ | _)
  case expr.literal => cases v <;> cases op <;> simp at hlegal ⊢ <;> rfl
  case expr.binary => cases o <;> cases op <;> simp at hlegal ⊢ <;> rfl
  all_goals
    cases op <;>
      simp [share, weight, ofKind, withOperator, operator?, pops, loads, Node.kind, Root.kind, Decl.kind, Expr.kind,
        functionGroup, branchingGroup, pushInt, Instr.opcode] at hlegal ⊢
  all_goals omega

end Node

/-! ### Sums over the nodes -/

theorem Node.sum_ofKind (kind : NodeKind) (ns : List Node) :
    (ns.map (ofKind kind)).sum = ns.countP fun n => n.kind = kind := by
  induction ns with
  | nil => rfl
  | cons n ns ih => simp [ofKind, List.countP_cons, ih, Nat.add_comm]

theorem Node.sum_withOperator (op : Operator) (ns : List Node) :
    (ns.map (withOperator op)).sum = ns.countP fun n => n.operator? = some op := by
  induction ns with
  | nil => rfl
  | cons n ns ih => simp [withOperator, List.countP_cons, ih, Nat.add_comm]

/-- a node inside a tree -/
def Node.IsInner : Node → Prop
  | .root _ => False
  | _ => True

mutual

theorem Expr.isInner_nodes (e : Expr) : ∀ n ∈ e.nodes, n.IsInner := by
  cases e with
  | call p r args => exact List.forall_mem_cons.2 ⟨trivial, Expr.isInner_nodesAll args⟩
  | cond p test yes no =>
    have hbranches := List.forall_mem_append.2 ⟨List.forall_mem_append.2 ⟨test.isInner_nodes, yes.isInner_nodes⟩,
      no.isInner_nodes⟩
    exact List.forall_mem_cons.2 ⟨trivial, hbranches⟩
  | binary p op left right =>
    exact List.forall_mem_cons.2 ⟨trivial, List.forall_mem_append.2 ⟨left.isInner_nodes, right.isInner_nodes⟩⟩
  | print p arg => exact List.forall_mem_cons.2 ⟨trivial, arg.isInner_nodes⟩
  | _ => exact List.forall_mem_singleton.2 trivial

theorem Expr.isInner_nodesAll (es : List Expr) : ∀ n ∈ Expr.nodesAll es, n.IsInner := by
  cases es with
  | nil => simp [Expr.nodesAll]
  | cons e es => exact List.forall_mem_append.2 ⟨e.isInner_nodes, Expr.isInner_nodesAll es⟩

end

mutual

theorem Decl.isInner_nodes (d : Decl) : ∀ n ∈ d.nodes, n.IsInner := by
  cases d with
  | absent => exact List.forall_mem_singleton.2 trivial
  | var p name value => exact List.forall_mem_cons.2 ⟨trivial, value.isInner_nodes⟩
  | func p name params decls body =>
    exact List.forall_mem_cons.2 ⟨trivial, List.forall_mem_append.2 ⟨Decl.isInner_nodesAll decls, body.isInner_nodes⟩⟩

theorem Decl.isInner_nodesAll (ds : List Decl) : ∀ n ∈ Decl.nodesAll ds, n.IsInner := by
  cases ds with
  | nil => simp [Decl.nodesAll]
  | cons d ds => exact List.forall_mem_append.2 ⟨d.isInner_nodes, Decl.isInner_nodesAll ds⟩

end

/-- the first node of a tree is its root, and the others are inside -/
theorem Root.exists_nodes (r : Root) : ∃ inner, r.nodes = .root r :: inner ∧ ∀ n ∈ inner, n.IsInner := by
  cases r with
  | absent => exact ⟨[], rfl, by simp⟩
  | letIn p decls body =>
    exact ⟨_, rfl, List.forall_mem_append.2 ⟨Decl.isInner_nodesAll decls, body.isInner_nodes⟩⟩
  | bare body => exact ⟨_, rfl, body.isInner_nodes⟩

/-- a kind of roots is that of one node at most -/
theorem Root.countP_kind (r : Root) {kind : NodeKind} (hkind : kind = .letIn ∨ kind = .bare) :
    r.nodes.countP (fun n => n.kind = kind) = if r.kind = kind then 1 else 0 := by
  obtain ⟨inner, hnodes, hinner⟩ := r.exists_nodes
  have hnone : inner.countP (fun n => n.kind = kind) = 0 := by
    refine List.countP_eq_zero.2 fun n hn hk => ?_
    have hn' := hinner n hn
    rcases hkind with rfl | rfl <;> rcases n with _ | (_ | _ | _) | (_ | _ | _ | _ | _ | _ | _) <;>
      simp [Node.kind, Decl.kind, Expr.kind, Node.IsInner] at hk hn'
  rw [hnodes, List.countP_cons, hnone, Nat.zero_add]
  exact if_congr (decide_eq_true_iff (p := r.kind = kind)) rfl rfl

variable {r : Root} {p : Program}

theorem tally_code (h : r.compile = .ok p) (op : Opcode) : Code.tally op p.code = (r.nodes.map (·.weight op)).sum := by
  obtain ⟨hsound, rfl⟩ := (r.compile_eq_ok_iff p).1 h
  rw [← Code.countP_contents, r.contents_program hsound, Node.countP_shares]
  exact congrArg List.sum (List.map_congr_left fun n hn => Node.tally_share (hsound n hn) op)

/-- how many scopes out from its use a name is declared -/
def Reference.distance (r : Reference) : Int := r.entry.elim 0 fun e => r.level.toInt - e.level.toInt

theorem Reference.toNat_hops {r : Reference} (hbound : r.IsBound) (h : r.HasIndices) :
    (r.hops.toInt.toNat : Int) = r.distance := by
  obtain ⟨hsome, hhops⟩ := hbound
  obtain ⟨e, he⟩ := Option.isSome_iff_exists.1 hsome
  rw [Int.toNat_of_nonneg (by simpa [Int64.le_iff_toInt_le] using hhops), h.toInt_hops he, Reference.distance, he,
    Option.elim_some]

theorem Node.sum_loads {ns : List Node} (hsound : ∀ n ∈ ns, n.IsSound)
    (hlevels : ∀ n ∈ ns, ∀ ref, n.reference? = some ref → ref.HasIndices) :
    ((ns.map loads).sum : Int) = ((ns.filterMap reference?).map fun ref => ref.distance + 1).sum := by
  induction ns with
  | nil => rfl
  | cons n ns ih =>
    obtain ⟨hn, hns⟩ := List.forall_mem_cons.1 hsound
    obtain ⟨hlevel, hrest⟩ := List.forall_mem_cons.1 hlevels
    rw [List.map_cons, List.sum_cons, Nat.cast_add, ih hns hrest, List.filterMap_cons, loads]
    cases href : n.reference? with
    | none => simp
    | some ref =>
      have hhops := Reference.toNat_hops (hn.2 ref href) (hlevel ref href)
      rw [Option.elim_some, Nat.cast_add, hhops, List.map_cons, List.sum_cons]
      rfl

/-- **Every node contributes its instructions once.** For a tree with levels in range that compiles, the number of
instructions of the program with each operation, as a sum over the nodes of the tree. -/
theorem every_node_contributes_once (h : r.compile = .ok p)
    (hlevels : ∀ n ∈ r.nodes, ∀ ref, n.reference? = some ref → ref.HasIndices) :
    let number := fun (op : Opcode) => p.code.countP fun i => i.opcode = op
    let nodes := fun (kind : NodeKind) => r.nodes.countP fun n => n.kind = kind
    let operators := fun (op : Operator) => r.nodes.countP fun n => n.operator? = some op
    (number .lw : Int) = ((r.nodes.filterMap Node.reference?).map fun ref => ref.distance + 1).sum ∧
    number .lfp = nodes .ident + 2 * nodes .call ∧
    number .pop = (r.nodes.map Node.pops).sum ∧
    number .js = nodes .call + nodes .func ∧ number .stm = nodes .call + nodes .func ∧
    number .ltm = 2 * nodes .call + nodes .func ∧
    number .cfp = nodes .func ∧ number .sra = nodes .func ∧ number .sfp = nodes .func ∧
    number .lra = 2 * nodes .func ∧
    number .add = operators .plus + nodes .ident + nodes .call ∧
    number .mult = operators .times ∧
    number .beq = nodes .cond + operators .equal ∧ number .b = nodes .cond + operators .equal ∧
    number .label = 2 * (nodes .cond + operators .equal) + nodes .func ∧
    number .push = nodes .literal + nodes .ident + nodes .call + nodes .func + nodes .cond + 2 * operators .equal
      + (if r.kind = .letIn then 1 else 0) ∧
    number .print = nodes .print ∧ number .halt = 1 ∧ ∀ code, number (.illegal code) = 0 := by
  intro number nodes operators
  have hsound := ((r.compile_eq_ok_iff p).1 h).1
  have hnumber : ∀ op, number op = (r.nodes.map (·.weight op)).sum := fun op => tally_code h op
  have hkinds : ∀ kind, (r.nodes.map (Node.ofKind kind)).sum = nodes kind := fun kind => Node.sum_ofKind kind r.nodes
  have hoperators : ∀ op, (r.nodes.map (Node.withOperator op)).sum = operators op := fun op =>
    Node.sum_withOperator op r.nodes
  have hletIn : nodes .letIn = if r.kind = .letIn then 1 else 0 := r.countP_kind (Or.inl rfl)
  have hbare : nodes .bare = if r.kind = .bare then 1 else 0 := r.countP_kind (Or.inr rfl)
  have hroot : ((if r.kind = .letIn then 1 else 0) + if r.kind = .bare then 1 else 0) = 1 := by
    cases r with
    | absent => simp [Root.nodes] at hsound
    | letIn p decls body => rfl
    | bare body => rfl
  simp only [hnumber, Node.weight, List.sum_map_add, List.sum_map_mul_left, hkinds, hoperators, hletIn, hbare, hroot,
    List.map_const', List.sum_replicate, smul_zero, implies_true, and_true, Node.sum_loads hsound hlevels]

/-- The sum tree has four identifiers, three calls and two functions. Two of the names are used one scope further in
than they are declared, so nine words are loaded. -/
theorem sumTree_contributions :
    (∀ n ∈ sumTree.nodes, ∀ ref, n.reference? = some ref → ref.HasIndices) ∧
    sumTree.compile = .ok sumTree.program ∧
    (sumTree.program.code.countP (fun i => i.opcode = .lw) : Int) = 9 ∧
    sumTree.program.code.countP (fun i => i.opcode = .lfp) = 10 ∧
    sumTree.program.code.countP (fun i => i.opcode = .pop) = 5 ∧
    sumTree.program.code.countP (fun i => i.opcode = .label) = 6 ∧
    sumTree.program.code.countP (fun i => i.opcode = .push) = 17 := by
  have hok : sumTree.compile = .ok sumTree.program := rfl
  have hlevels : ∀ n ∈ sumTree.nodes, ∀ ref ∈ n.reference?, ref.HasIndices := by decide
  obtain ⟨hlw, hlfp, hpop, -, -, -, -, -, -, -, -, -, -, -, hlabel, hpush, -⟩ := every_node_contributes_once hok hlevels
  exact ⟨hlevels, hok, hlw.trans (by decide), hlfp, hpop, hlabel, hpush⟩

end LetStack

/-
The first bad node.

The generator checks each node once, at a moment that depends on its kind: an operator before its operands, the
reference of a call after the arguments. `checked` lists the nodes of a tree by that moment. It is an order of its own:
source order has the branch for true before the branch for false and a call before its arguments, and arguments from
first to last.

The faults of a visit are the faults of the nodes in this order (`Root.faults_events`), so the one that ends the visit
is that of the first bad node. What is said of it is given here as text (`Node.report?`).

Result:
- `first_bad_node_is_reported`: which trees compile, and what is reported of the others.
-/
import LetStack.Proofs.Image

namespace LetStack

/-! ## The order of the checks -/

mutual

/-- the nodes of an expression in the order in which they are checked -/
def Expr.checked : Expr → List Node
  | .absent => [.expr .absent]
  | .literal p v => [.expr (.literal p v)]
  | .ident p r => [.expr (.ident p r)]
  | .call p r args => Expr.checkedArgs args ++ [.expr (.call p r args)]
  | .cond p test yes no => .expr (.cond p test yes no) :: (test.checked ++ no.checked ++ yes.checked)
  | .binary p op left right => .expr (.binary p op left right) :: (left.checked ++ right.checked)
  | .print p arg => .expr (.print p arg) :: arg.checked

/-- arguments are checked last to first -/
def Expr.checkedArgs : List Expr → List Node
  | [] => []
  | e :: es => Expr.checkedArgs es ++ e.checked

end

mutual

def Decl.checked : Decl → List Node
  | .absent => [.decl .absent]
  | .var p name value => .decl (.var p name value) :: value.checked
  | .func p name params decls body =>
    .decl (.func p name params decls body) :: (Decl.checkedAll decls ++ body.checked)

def Decl.checkedAll : List Decl → List Node
  | [] => []
  | d :: ds => d.checked ++ Decl.checkedAll ds

end

def Root.checked : Root → List Node
  | .absent => [.root .absent]
  | .letIn p decls body => .root (.letIn p decls body) :: (Decl.checkedAll decls ++ body.checked)
  | .bare body => .root (.bare body) :: body.checked

mutual

theorem Expr.checked_perm (e : Expr) : e.checked.Perm e.nodes := by
  cases e with
  | absent => exact .refl _
  | literal p v => exact .refl _
  | ident p r => exact .refl _
  | call p r args =>
    have hargs := Expr.checkedArgs_perm args
    exact (List.perm_append_singleton _ _).trans (hargs.cons _)
  | cond p test yes no =>
    have htest := test.checked_perm
    have hbranches : (no.checked ++ yes.checked).Perm (yes.nodes ++ no.nodes) :=
      (no.checked_perm.append yes.checked_perm).trans List.perm_append_comm
    rw [Expr.checked, Expr.nodes, List.append_assoc, List.append_assoc]
    exact (htest.append hbranches).cons _
  | binary p op left right => exact (left.checked_perm.append right.checked_perm).cons _
  | print p arg => exact arg.checked_perm.cons _

theorem Expr.checkedArgs_perm (es : List Expr) : (Expr.checkedArgs es).Perm (Expr.nodesAll es) := by
  cases es with
  | nil => exact .refl _
  | cons e es => exact ((Expr.checkedArgs_perm es).append e.checked_perm).trans List.perm_append_comm

end

mutual

theorem Decl.checked_perm (d : Decl) : d.checked.Perm d.nodes := by
  cases d with
  | absent => exact .refl _
  | var p name value => exact value.checked_perm.cons _
  | func p name params decls body => exact ((Decl.checkedAll_perm decls).append body.checked_perm).cons _

theorem Decl.checkedAll_perm (ds : List Decl) : (Decl.checkedAll ds).Perm (Decl.nodesAll ds) := by
  cases ds with
  | nil => exact .refl _
  | cons d ds => exact d.checked_perm.append (Decl.checkedAll_perm ds)

end

/-- every node is checked, and once -/
theorem Root.checked_perm (r : Root) : r.checked.Perm r.nodes := by
  cases r with
  | absent => exact .refl _
  | letIn p decls body => exact ((Decl.checkedAll_perm decls).append body.checked_perm).cons _
  | bare body => exact body.checked_perm.cons _

/-! ## The faults of the visit -/

/-- the fault of a reference at `pos` -/
def Reference.fault? (pos : Position) (r : Reference) : Option Fault :=
  match r.entry with
  | none => some (.unresolved pos r.name)
  | some e => if r.hops < 0 then some (.deeper pos r.name r.level e.level) else none

/-- the fault that the check of a node ends in, if it does -/
def Node.fault? : Node → Option Fault
  | .root .absent => some .codeOfAbsentRoot
  | .decl .absent => some .dereference
  | .expr .absent => some .codeOfAbsentExpr
  | .expr (.literal p (.string s)) => some (.codeOfLiteral p (.string s))
  | .expr (.literal p .absent) => some (.codeOfLiteral p .absent)
  | .expr (.binary p (.illegal c) _ _) => some (.codeOfOperator p (.illegal c))
  | .expr (.ident p r) | .expr (.call p r _) => r.fault? p
  | _ => none

/-- the faults of a visit, also those that would come after the first -/
def Event.faults (es : List Event) : List Fault := es.filterMap Event.fault?

@[simp]
theorem Event.faults_append (as bs : List Event) : Event.faults (as ++ bs) = Event.faults as ++ Event.faults bs :=
  List.filterMap_append

@[simp] theorem Event.faults_enter (depth : Nat) (kind : NodeKind) (detail : String) :
    Event.faults [.enter depth kind detail] = [] := rfl

theorem Reference.faults_faults (pos : Position) (r : Reference) :
    Event.faults (r.faults pos) = (r.fault? pos).toList := by
  unfold Reference.faults Reference.fault?
  cases r.entry with
  | none => rfl
  | some e =>
    by_cases h : r.hops < 0
    · simp only [if_pos h]
      rfl
    · simp only [if_neg h]
      rfl

/-- the faults of some nodes, in their order -/
def Node.faults (ns : List Node) : List Fault := ns.filterMap Node.fault?

@[simp] theorem Node.faults_append (as bs : List Node) : Node.faults (as ++ bs) = Node.faults as ++ Node.faults bs :=
  List.filterMap_append

theorem Node.faults_cons (n : Node) (ns : List Node) : Node.faults (n :: ns) = n.fault?.toList ++ Node.faults ns := by
  rw [Node.faults, List.filterMap_cons]
  cases n.fault? <;> rfl

mutual

theorem Expr.faults_events (depth : Nat) (e : Expr) : Event.faults (e.events depth) = Node.faults e.checked := by
  cases e with
  | absent => rfl
  | literal p v => cases v <;> rfl
  | ident p r =>
    rw [Expr.events, Event.faults_append, r.faults_faults, Expr.checked, Node.faults_cons]
    exact (List.append_nil _).symm
  | call p r args =>
    have hargs := Expr.faults_argsEvents (depth + 1) args
    rw [Expr.events, Event.faults_append, Event.faults_append, r.faults_faults, hargs, Expr.checked, Node.faults_append,
      Node.faults_cons]
    exact congrArg _ (List.append_nil _).symm
  | cond p test yes no =>
    have htest := Expr.faults_events (depth + 1) test
    have hno := Expr.faults_events (depth + 1) no
    have hyes := Expr.faults_events (depth + 1) yes
    simp only [Expr.events, Event.faults_append, htest, hno, hyes, Expr.checked, Node.faults_cons, Node.faults_append]
    rfl
  | binary p op left right =>
    have hleft := Expr.faults_events (depth + 1) left
    have hright := Expr.faults_events (depth + 1) right
    simp only [Expr.events, Event.faults_append, hleft, hright, Expr.checked, Node.faults_cons, Node.faults_append,
      List.append_assoc]
    cases op <;> rfl
  | print p arg =>
    have harg := Expr.faults_events (depth + 1) arg
    rw [Expr.events, Event.faults_append, harg, Expr.checked, Node.faults_cons]
    rfl

theorem Expr.faults_argsEvents (depth : Nat) (es : List Expr) :
    Event.faults (Expr.argsEvents depth es) = Node.faults (Expr.checkedArgs es) := by
  cases es with
  | nil => rfl
  | cons e es =>
    have hrest := Expr.faults_argsEvents depth es
    have hfirst := Expr.faults_events depth e
    rw [Expr.argsEvents, Event.faults_append, hrest, hfirst, Expr.checkedArgs, Node.faults_append]

end

mutual

theorem Decl.faults_events (c : Counters) (depth : Nat) (d : Decl) :
    Event.faults (d.events c depth) = Node.faults d.checked := by
  cases d with
  | absent => rfl
  | var p name value =>
    have hvalue := value.faults_events (depth + 1)
    rw [Decl.events, Event.faults_append, hvalue, Decl.checked, Node.faults_cons]
    rfl
  | func p name params decls body =>
    have hdecls := Decl.faults_eventsAll c.inside (depth + 1) decls
    have hbody := body.faults_events (depth + 1)
    simp only [Decl.events, Event.faults_append, hdecls, hbody, Decl.checked, Node.faults_cons, Node.faults_append]
    exact List.append_nil _

theorem Decl.faults_eventsAll (c : Counters) (depth : Nat) (ds : List Decl) :
    Event.faults (Decl.eventsAll c depth ds) = Node.faults (Decl.checkedAll ds) := by
  cases ds with
  | nil => rfl
  | cons d ds =>
    have hfirst := Decl.faults_events c depth d
    have hrest := Decl.faults_eventsAll (c.after d) depth ds
    rw [Decl.eventsAll, Event.faults_append, hfirst, hrest, Decl.checkedAll, Node.faults_append]

end

/-- **The faults of the visit** are those of the nodes, in the order of the checks. -/
theorem Root.faults_events (r : Root) : Event.faults r.events = Node.faults r.checked := by
  cases r with
  | absent => rfl
  | letIn p decls body =>
    have hdecls := Decl.faults_eventsAll .start 1 decls
    have hbody := body.faults_events 1
    simp only [Root.events, Event.faults_append, hdecls, hbody, Root.checked, Node.faults_cons, Node.faults_append]
    rfl
  | bare body =>
    have hbody := body.faults_events 1
    rw [Root.events, Event.faults_append, hbody, Root.checked, Node.faults_cons]
    rfl

/-- a compilation ends in the fault of the first node that has one -/
theorem Root.compile_eq (r : Root) :
    r.compile = (r.checked.findSome? Node.fault?).elim (.ok r.program) .error := by
  have hfirst : r.events.findSome? Event.fault? = r.checked.findSome? Node.fault? := by
    rw [← List.head?_filterMap, ← List.head?_filterMap]
    exact congrArg List.head? r.faults_events
  rw [Root.compile, hfirst]
  cases r.checked.findSome? Node.fault? <;> rfl

/-! ## What is reported -/

/-- what the generator needs of a node: an entry that is not nested deeper than its use, an operator that is one, a
literal that is an integer or a boolean -/
def Node.IsCompilable : Node → Prop
  | .expr (.ident _ r) | .expr (.call _ r _) => ∃ e, r.entry = some e ∧ e.level ≤ r.level
  | .expr (.binary _ op _ _) => op = .equal ∨ op = .plus ∨ op = .times
  | .expr (.literal _ v) => (∃ z, v = .int z) ∨ ∃ b, v = .bool b
  | _ => True

/-- what is reported of a reference at `pos` -/
def Reference.report? (pos : Position) (r : Reference) : Option String :=
  match r.entry with
  | none => some (pos.text ++ ": internal error: unresolved reference to " ++ r.name)
  | some e =>
    if r.level < e.level then
      some (pos.text ++ ": internal error: reference to " ++ r.name ++ " at level " ++ toString r.level.toInt
        ++ ", declared at deeper level " ++ toString e.level.toInt)
    else none

/-- what is reported of a bad node -/
def Node.report? : Node → Option String
  | .expr (.ident p r) | .expr (.call p r _) => r.report? p
  | .expr (.binary p (.illegal _) _ _) => some (p.text ++ ": internal error: unexpected binary op illegal token")
  | .expr (.literal p (.string _)) => some (p.text ++ ": internal error: unexpected literal string")
  | .expr (.literal p .absent) => some (p.text ++ ": internal error: unexpected literal <nil>")
  | _ => none

/-- levels from 0 to 2^31 - 1, as far as there are any -/
def Reference.HasIndices (r : Reference) : Prop :=
  (0 ≤ r.level.toInt ∧ r.level.toInt ≤ maxIndex) ∧
    ∀ e, r.entry = some e → 0 ≤ e.level.toInt ∧ e.level.toInt ≤ maxIndex

instance (r : Reference) : Decidable r.HasIndices :=
  inferInstanceAs (Decidable (_ ∧ ∀ e ∈ r.entry, 0 ≤ e.level.toInt ∧ e.level.toInt ≤ maxIndex))

/-- a node that is there, with levels in range -/
structure Node.IsProper (n : Node) : Prop where
  present : n.kind ≠ .absent
  levels : ∀ r, n.reference? = some r → r.HasIndices

instance (n : Node) : Decidable n.IsProper :=
  decidable_of_iff (n.kind ≠ .absent ∧ ∀ r ∈ n.reference?, r.HasIndices)
    ⟨fun h => ⟨h.1, h.2⟩, fun h => ⟨h.present, h.levels⟩⟩

/-- levels in range do not overflow when they are subtracted -/
theorem Reference.HasIndices.toInt_hops {r : Reference} {e : Entry} (h : r.HasIndices) (he : r.entry = some e) :
    r.hops.toInt = r.level.toInt - e.level.toInt := by
  obtain ⟨⟨h0, h1⟩, hentry⟩ := h
  obtain ⟨h2, h3⟩ := hentry e he
  have hmax : maxIndex = 2 ^ 31 - 1 := rfl
  rw [Reference.hops, he, Option.elim_some, Int64.toInt_sub]
  exact Int.bmod_eq_of_le (by omega) (by omega)

theorem Reference.hops_neg_iff {r : Reference} {e : Entry} (he : r.entry = some e) (h : r.HasIndices) :
    r.hops < 0 ↔ r.level < e.level := by
  rw [Int64.lt_iff_toInt_lt, Int64.lt_iff_toInt_lt, h.toInt_hops he, Int64.toInt_zero]
  omega

theorem Reference.message_fault? (pos : Position) {r : Reference} (h : r.HasIndices) :
    (r.fault? pos).map Fault.message = r.report? pos := by
  unfold Reference.fault? Reference.report?
  cases he : r.entry with
  | none => rfl
  | some e =>
    by_cases hlt : r.level < e.level
    · simp only [if_pos hlt, if_pos ((Reference.hops_neg_iff he h).2 hlt)]
      rfl
    · simp only [if_neg hlt, if_neg (fun hneg => hlt ((Reference.hops_neg_iff he h).1 hneg))]
      rfl

namespace Node

theorem IsProper.message_fault? {n : Node} (h : n.IsProper) : n.fault?.map Fault.message = n.report? := by
  have hpresent := h.present
  have hlevels := h.levels
  have hjoin : ∀ s t u : String, some (s ++ t ++ u) = some (s ++ (t ++ u)) := fun s t u => by rw [String.append_assoc]
  rcases n with (_ | _ | _) | (_ | _ | _) | (_ | ⟨p, v⟩ | ⟨p, r⟩ | ⟨p, r, args⟩ | _ | ⟨p, op, left, right⟩ | _)
  case expr.literal =>
    cases v with
    | int z => rfl
    | bool b => rfl
    | string s => exact hjoin ..
    | absent => exact hjoin ..
  case expr.ident => exact r.message_fault? p (hlevels r rfl)
  case expr.call => exact r.message_fault? p (hlevels r rfl)
  case expr.binary =>
    cases op with
    | equal => rfl
    | plus => rfl
    | times => rfl
    | illegal c => exact hjoin ..
  all_goals first | rfl | exact absurd rfl hpresent

theorem report?_eq_none_iff (n : Node) : n.report? = none ↔ n.IsCompilable := by
  have href : ∀ (p : Position) (r : Reference), r.report? p = none ↔ ∃ e, r.entry = some e ∧ e.level ≤ r.level := by
    intro p r
    unfold Reference.report?
    cases r.entry with
    | none => simp
    | some e => simp [Int64.not_lt]
  rcases n with (_ | _ | _) | (_ | _ | _) | (_ | ⟨p, v⟩ | ⟨p, r⟩ | ⟨p, r, args⟩ | _ | ⟨p, op, left, right⟩ | _)
  case expr.literal => cases v <;> simp [report?, IsCompilable]
  case expr.ident => exact href p r
  case expr.call => exact href p r
  case expr.binary => cases op <;> simp [report?, IsCompilable]
  all_goals exact ⟨fun _ => trivial, fun _ => rfl⟩

instance (n : Node) : Decidable n.IsCompilable := decidable_of_iff (n.report? = none) n.report?_eq_none_iff

theorem IsProper.fault?_eq_none_iff {n : Node} (h : n.IsProper) : n.fault? = none ↔ n.IsCompilable := by
  rw [← n.report?_eq_none_iff, ← h.message_fault?, Option.map_eq_none_iff]

theorem IsReadable.isProper {n : Node} (h : n.IsReadable) : n.IsProper where
  present := h.kind_ne_absent
  levels := by
    intro r hr
    obtain ⟨hlevel, hentry⟩ := (h.reference r hr).2
    exact ⟨hlevel, fun e he => (hentry e he).1⟩

/-- a node that was read can only be bad because its entry is nested deeper than its use -/
theorem IsReadable.isCompilable_iff {n : Node} (h : n.IsReadable) :
    n.IsCompilable ↔ ∀ r e, n.reference? = some r → r.entry = some e → e.level ≤ r.level := by
  have hlegal := h.legal
  have href : ∀ r : Reference, r.entry.isSome →
      ((∃ e, r.entry = some e ∧ e.level ≤ r.level) ↔
        ∀ r' e, some r = some r' → r'.entry = some e → e.level ≤ r'.level) := by
    intro r hr
    obtain ⟨e, he⟩ := Option.isSome_iff_exists.1 hr
    constructor
    · rintro ⟨e', he', hle⟩ r' e'' hr' he''
      obtain rfl := Option.some.inj hr'
      obtain rfl := Option.some.inj (he'.symm.trans he'')
      exact hle
    · intro hall
      exact ⟨e, he, hall r e rfl he⟩
  rcases n with (_ | _ | _) | (_ | _ | _) | (_ | ⟨p, v⟩ | ⟨p, r⟩ | ⟨p, r, args⟩ | _ | ⟨p, op, left, right⟩ | _)
  case expr.literal => cases v <;> simp [IsCompilable] at hlegal ⊢
  case expr.ident => exact href r (h.reference r rfl).1
  case expr.call => exact href r (h.reference r rfl).1
  case expr.binary => cases op <;> simp [IsCompilable] at hlegal ⊢
  all_goals simp [IsCompilable]

end Node

namespace Root

variable {r : Root}

theorem compiles_iff (h : ∀ n ∈ r.nodes, n.IsProper) :
    (∃ p, r.compile = .ok p) ↔ ∀ n ∈ r.nodes, n.IsCompilable := by
  have hnodes : (∀ n ∈ r.nodes, n.IsCompilable) ↔ r.checked.findSome? Node.fault? = none := by
    rw [List.findSome?_eq_none_iff]
    constructor
    · intro hall n hn
      have hmem := r.checked_perm.mem_iff.1 hn
      exact (h n hmem).fault?_eq_none_iff.2 (hall n hmem)
    · intro hall n hn
      exact (h n hn).fault?_eq_none_iff.1 (hall n (r.checked_perm.mem_iff.2 hn))
  rw [hnodes, compile_eq]
  cases r.checked.findSome? Node.fault? with
  | none => exact ⟨fun _ => rfl, fun _ => ⟨_, rfl⟩⟩
  | some f => simp

/-- a tree with a bad node ends in the report of the first one -/
theorem exists_first (h : ∀ n ∈ r.nodes, n.IsProper) (hbad : ¬ ∀ n ∈ r.nodes, n.IsCompilable) :
    ∃ before n after f, r.checked = before ++ n :: after ∧ (∀ m ∈ before, m.IsCompilable) ∧ ¬ n.IsCompilable ∧
      r.compile = .error f ∧ n.report? = some f.message := by
  rw [← compiles_iff h, compile_eq] at hbad
  cases hfirst : r.checked.findSome? Node.fault? with
  | none =>
    rw [hfirst] at hbad
    exact absurd ⟨_, rfl⟩ hbad
  | some f =>
    obtain ⟨before, n, after, hsplit, hn, hbefore⟩ := List.findSome?_eq_some_iff.1 hfirst
    have hproper : ∀ m ∈ r.checked, m.IsProper := fun m hm => h m (r.checked_perm.mem_iff.1 hm)
    have hmem : n ∈ r.checked := by
      rw [hsplit]
      exact List.mem_append_right _ List.mem_cons_self
    refine ⟨before, n, after, f, hsplit, ?_, ?_, ?_, ?_⟩
    · intro m hm
      apply (hproper m ?_).fault?_eq_none_iff.1 (hbefore m hm)
      rw [hsplit]
      exact List.mem_append_left _ hm
    · intro hgood
      rw [(hproper n hmem).fault?_eq_none_iff.2 hgood] at hn
      cases hn
    · rw [compile_eq, hfirst]
      rfl
    · rw [← (hproper n hmem).message_fault?, hn]
      rfl

end Root

/-- **The first bad node is reported.** A tree whose nodes are all there, with levels in range, compiles exactly if each
node is compilable. Otherwise its nodes, in the order in which they are checked, begin with compilable ones, and the
compilation ends with the report of the first that is not. A tree that was read, from whatever format, fails to
compile exactly if some reference is to a declaration that is nested deeper. -/
theorem first_bad_node_is_reported (r : Root) :
    r.checked.Perm r.nodes ∧
    ((∀ n ∈ r.nodes, n.IsProper) →
      ((∃ p, r.compile = .ok p) ↔ ∀ n ∈ r.nodes, n.IsCompilable) ∧
      ((¬ ∀ n ∈ r.nodes, n.IsCompilable) →
        ∃ before n after f, r.checked = before ++ n :: after ∧ (∀ m ∈ before, m.IsCompilable) ∧ ¬ n.IsCompilable ∧
          r.compile = .error f ∧ n.report? = some f.message)) ∧
    ∀ format data, Root.decode format data = .ok r →
      ((∃ f, r.compile = .error f) ↔
        ∃ n ∈ r.nodes, ∃ ref e, n.reference? = some ref ∧ ref.entry = some e ∧ ref.level < e.level) := by
  refine ⟨r.checked_perm, fun h => ⟨Root.compiles_iff h, Root.exists_first h⟩, ?_⟩
  intro format data hdecode
  obtain ⟨v, -, hv⟩ := Root.decode_eq_ok.1 hdecode
  have hreadable : ∀ n ∈ r.nodes, n.IsReadable := r.isReadable_iff.1 ⟨v, hv⟩
  have hproper : ∀ n ∈ r.nodes, n.IsProper := fun n hn => (hreadable n hn).isProper
  have hfails : (∃ f, r.compile = .error f) ↔ ¬ ∃ p, r.compile = .ok p := by
    cases r.compile <;> simp
  rw [hfails, Root.compiles_iff hproper]
  constructor
  · intro hbad
    by_contra hnone
    apply hbad
    intro n hn
    rw [(hreadable n hn).isCompilable_iff]
    intro ref e href he
    by_contra hlt
    exact hnone ⟨n, hn, ref, e, href, he, Int64.not_le.1 hlt⟩
  · rintro ⟨n, hn, ref, e, href, he, hlt⟩ hgood
    have hle := (hreadable n hn).isCompilable_iff.1 (hgood n hn) ref e href he
    exact Int64.not_le.2 hlt hle

/-- a conditional with three bad nodes: in the branch for true a name without an entry, and in the branch for false a
call with an argument from a deeper level and after it one whose operator is none -/
def crookedTree : Root :=
  .bare (.cond ⟨1, 1⟩ (.literal ⟨1, 4⟩ (.bool true)) (.ident ⟨1, 14⟩ ⟨"x", 0, none⟩)
    (.call ⟨2, 6⟩ ⟨"f", 0, some ⟨0, -2⟩⟩
      [.ident ⟨2, 8⟩ ⟨"y", 0, some ⟨1, 1⟩⟩,
        .binary ⟨2, 13⟩ (.illegal 0) (.literal ⟨2, 11⟩ (.int 1)) (.literal ⟨2, 15⟩ .absent)]))

theorem crookedTree_is_reported :
    (∀ n ∈ crookedTree.nodes, n.IsProper) ∧ (¬ ∀ n ∈ crookedTree.nodes, n.IsCompilable) ∧
      ∃ f, crookedTree.compile = .error f ∧
        f.message = "2:13: internal error: unexpected binary op illegal token" := by
  have hproper : ∀ n ∈ crookedTree.nodes, n.IsProper := by decide
  have hbad : ¬ ∀ n ∈ crookedTree.nodes, n.IsCompilable := by decide
  obtain ⟨before, n, after, f, -, -, -, hcompile, -⟩ :=
    ((first_bad_node_is_reported crookedTree).2.1 hproper).2 hbad
  have hoperator : crookedTree.compile = .error (.codeOfOperator ⟨2, 13⟩ (.illegal 0)) := rfl
  obtain rfl := Except.error.inj (hcompile.symm.trans hoperator)
  exact ⟨hproper, hbad, _, hcompile, by decide⟩

end LetStack

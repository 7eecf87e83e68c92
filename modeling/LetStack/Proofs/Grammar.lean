/-
The grammar of the values that can be read.

`Value.IsProgram` is the table of kinds and members as a predicate on values: what each kind of node must have, what it
may have, and nothing about the rest. It mentions neither the reader nor trees. Numbers are taken by their exact value:
an integer may be written as a negative zero, but not as a fraction, an infinity or no number at all. A member that may
be left out must still be of its type if it is there, so an explicit null is not the same as a missing list.

Result:
- `readable_iff_isProgram`: a value can be read exactly if it is of the grammar.
-/
import LetStack.Proofs.Spelling

namespace LetStack

/-! ## The grammar -/

/-- a number whose value is an integer from `least` to `greatest` -/
def Value.IsInteger (v : Value) (least greatest : ℤ) : Prop := ∃ n, v.Denotes n ∧ least ≤ n ∧ n ≤ greatest

namespace Members

/-- a node of this kind; its line and its column may be left out -/
structure IsNode (ms : Members) (kind : String) : Prop where
  kind : ms.get? "kind" = some (.string kind)
  line : ∀ w, ms.get? "line" = some w → w.IsInteger 0 (2 ^ 31 - 1)
  col : ∀ w, ms.get? "col" = some w → w.IsInteger 0 (2 ^ 31 - 1)

/-- an entry: its two integers, whatever else it has -/
structure IsEntry (ms : Members) : Prop where
  level : ∃ w, ms.get? "level" = some w ∧ w.IsInteger 0 (2 ^ 31 - 1)
  offset : ∃ w, ms.get? "offset" = some w ∧ w.IsInteger (-2 ^ 31) (2 ^ 31 - 1)

/-- what an identifier and a call have in common -/
structure IsReference (ms : Members) : Prop where
  name : ∃ s, ms.get? "name" = some (.string s)
  level : ∃ w, ms.get? "level" = some w ∧ w.IsInteger 0 (2 ^ 31 - 1)
  entry : ∃ es : Members, ms.get? "entry" = some (.object es) ∧ es.IsEntry

end Members

namespace Value

inductive IsExpr : Value → Prop
  | int {ms : Members} {w : Value} (node : ms.IsNode "int")
      (get : ms.get? "value" = some w) (value : w.IsInteger (-(2 ^ 53 - 1)) (2 ^ 53 - 1)) : IsExpr (.object ms)
  | bool {ms : Members} {b : Bool} (node : ms.IsNode "bool") (value : ms.get? "value" = some (.bool b)) :
      IsExpr (.object ms)
  | ident {ms : Members} (node : ms.IsNode "id") (reference : ms.IsReference) : IsExpr (.object ms)
  | call {ms : Members} {ws : List Value} (node : ms.IsNode "call") (reference : ms.IsReference)
      (items : ms.items? "args" = some ws) (args : ∀ w ∈ ws, IsExpr w) : IsExpr (.object ms)
  | cond {ms : Members} {w1 w2 w3 : Value} (node : ms.IsNode "if") (get1 : ms.get? "cond" = some w1) (test : IsExpr w1)
      (get2 : ms.get? "then" = some w2) (yes : IsExpr w2) (get3 : ms.get? "else" = some w3) (no : IsExpr w3) :
      IsExpr (.object ms)
  | binary {ms : Members} {kind : String} {w1 w2 : Value} (operator : kind ∈ ["eq", "plus", "times"])
      (node : ms.IsNode kind) (get1 : ms.get? "left" = some w1) (left : IsExpr w1)
      (get2 : ms.get? "right" = some w2) (right : IsExpr w2) : IsExpr (.object ms)
  | print {ms : Members} {w : Value} (node : ms.IsNode "print") (get : ms.get? "exp" = some w) (arg : IsExpr w) :
      IsExpr (.object ms)

inductive IsDecl : Value → Prop
  | var {ms : Members} {name : String} {w : Value} (node : ms.IsNode "var")
      (hname : ms.get? "name" = some (.string name))
      (get : ms.get? "value" = some w) (value : w.IsExpr) : IsDecl (.object ms)
  | func {ms : Members} {name : String} {ps ws : List Value} {w : Value} (node : ms.IsNode "fun")
      (hname : ms.get? "name" = some (.string name))
      (hparams : ms.items? "params" = some ps) (params : ∀ p ∈ ps, ∃ s, p = .string s)
      (items : ms.items? "decls" = some ws) (decls : ∀ w ∈ ws, IsDecl w)
      (get : ms.get? "body" = some w) (body : w.IsExpr) : IsDecl (.object ms)

inductive IsProgram : Value → Prop
  | letIn {ms : Members} {ws : List Value} {w : Value} (node : ms.IsNode "letin")
      (items : ms.items? "decls" = some ws) (decls : ∀ w ∈ ws, w.IsDecl)
      (get : ms.get? "body" = some w) (body : w.IsExpr) : IsProgram (.object ms)
  | bare {ms : Members} {w : Value} (node : ms.IsNode "prog") (get : ms.get? "body" = some w) (body : w.IsExpr) :
      IsProgram (.object ms)

end Value

/-! ## What spells a tree is of the grammar -/

theorem Members.HasInteger.isInteger {ms : Members} {name : String} {least greatest n : ℤ}
    (h : ms.HasInteger name least greatest n) : ∃ w, ms.get? name = some w ∧ w.IsInteger least greatest := by
  obtain ⟨w, hget, hw⟩ := h
  exact ⟨w, hget, n, hw⟩

theorem Members.HasIndex.isInteger {ms : Members} {name : String} {n : ℤ} (h : ms.HasIndex name n) {w : Value}
    (hget : ms.get? name = some w) : w.IsInteger 0 (2 ^ 31 - 1) := by
  rcases h with ⟨hnone, -⟩ | ⟨w', hget', hw'⟩
  · rw [hget] at hnone
    cases hnone
  · obtain rfl := Option.some.inj (hget.symm.trans hget')
    exact ⟨n, hw'⟩

theorem Members.Heads.isNode {ms : Members} {kind : String} {pos : Position} (h : ms.Heads kind pos) :
    ms.IsNode kind where
  kind := h.kind
  line _ hw := h.line.isInteger hw
  col _ hw := h.col.isInteger hw

theorem Reference.SpelledBy.isReference {ms : Members} {r : Reference} (h : r.SpelledBy ms) : ms.IsReference := by
  obtain ⟨hname, hlevel, e, es, -, hget, hentry⟩ := h
  exact ⟨⟨_, hname⟩, hlevel.isInteger, es, hget, hentry.level.isInteger, hentry.offset.isInteger⟩

mutual

theorem Expr.SpelledBy.isExpr {e : Expr} {v : Value} (h : e.SpelledBy v) : v.IsExpr := by
  cases h with
  | int head value =>
    obtain ⟨w, hget, hw⟩ := value.isInteger
    exact .int head.isNode hget hw
  | bool head value => exact .bool head.isNode value
  | ident head reference => exact .ident head.isNode reference.isReference
  | call head reference items hargs => exact .call head.isNode reference.isReference items hargs.isExpr
  | cond head get1 htest get2 hyes get3 hno =>
    exact .cond head.isNode get1 htest.isExpr get2 hyes.isExpr get3 hno.isExpr
  | @binary _ _ op _ _ _ _ _ kind head get1 hleft get2 hright =>
    refine .binary ?_ head.isNode get1 hleft.isExpr get2 hright.isExpr
    cases op with
    | illegal code => cases kind
    | _ =>
      obtain rfl := Option.some.inj kind
      decide
  | print head get harg => exact .print head.isNode get harg.isExpr
termination_by sizeOf e

theorem Expr.AllSpelledBy.isExpr {es : List Expr} {ws : List Value} (h : Expr.AllSpelledBy es ws) :
    ∀ w ∈ ws, w.IsExpr := by
  cases h with
  | nil => exact fun _ hw => nomatch hw
  | cons head tail => exact List.forall_mem_cons.2 ⟨head.isExpr, tail.isExpr⟩
termination_by sizeOf es

end

mutual

theorem Decl.SpelledBy.isDecl {d : Decl} {v : Value} (h : d.SpelledBy v) : v.IsDecl := by
  cases h with
  | var head hname get hvalue => exact .var head.isNode hname get hvalue.isExpr
  | func head hname hparams unplaced items hdecls get hbody =>
    refine .func head.isNode hname hparams ?_ items hdecls.isDecl get hbody.isExpr
    intro p hp
    obtain ⟨param, -, rfl⟩ := List.mem_map.1 hp
    exact ⟨_, rfl⟩
termination_by sizeOf d

theorem Decl.AllSpelledBy.isDecl {ds : List Decl} {ws : List Value} (h : Decl.AllSpelledBy ds ws) :
    ∀ w ∈ ws, w.IsDecl := by
  cases h with
  | nil => exact fun _ hw => nomatch hw
  | cons head tail => exact List.forall_mem_cons.2 ⟨head.isDecl, tail.isDecl⟩
termination_by sizeOf ds

end

theorem Root.SpelledBy.isProgram {r : Root} {v : Value} (h : r.SpelledBy v) : v.IsProgram := by
  cases h with
  | letIn head items hdecls get hbody => exact .letIn head.isNode items hdecls.isDecl get hbody.isExpr
  | bare head get hbody => exact .bare head.isNode get hbody.isExpr

/-! ## What is of the grammar spells a tree -/

namespace Members

variable {ms : Members} {name : String}

/-- an integer within the exact ones is that of a machine integer -/
theorem exists_hasInteger {least greatest : ℤ} (hleast : -maxExact ≤ least) (hgreatest : greatest ≤ maxExact)
    (h : ∃ w, ms.get? name = some w ∧ w.IsInteger least greatest) :
    ∃ n : Int64, ms.HasInteger name least greatest n.toInt := by
  obtain ⟨w, hget, n, hw⟩ := h
  have hn : ms.HasInteger name least greatest n := ⟨w, hget, hw⟩
  refine ⟨Int64.ofInt n, ?_⟩
  rwa [hn.toInt_ofInt hleast hgreatest]

theorem exists_hasIndex (h : ∀ w, ms.get? name = some w → w.IsInteger 0 (2 ^ 31 - 1)) :
    ∃ n : Int32, ms.HasIndex name n.toInt := by
  have hindex : ∃ n, ms.HasIndex name n := by
    cases hget : ms.get? name with
    | none => exact ⟨0, .inl ⟨hget, rfl⟩⟩
    | some w =>
      obtain ⟨n, hn⟩ := h w hget
      exact ⟨n, .inr ⟨w, hget, hn⟩⟩
  obtain ⟨n, hn⟩ := hindex
  refine ⟨Int32.ofInt n, ?_⟩
  rwa [hn.toInt_ofInt]

theorem IsNode.exists_heads {kind : String} (h : ms.IsNode kind) : ∃ pos, ms.Heads kind pos := by
  obtain ⟨line, hline⟩ := exists_hasIndex h.line
  obtain ⟨col, hcol⟩ := exists_hasIndex h.col
  exact ⟨⟨line, col⟩, h.kind, hline, hcol⟩

theorem IsReference.exists_spelledBy (h : ms.IsReference) : ∃ r : Reference, r.SpelledBy ms := by
  have hexact : -maxExact ≤ 0 ∧ -maxExact ≤ -2 ^ 31 ∧ maxIndex ≤ maxExact := by decide
  obtain ⟨⟨name, hname⟩, hlevel, es, hget, hdeclared, hoffset⟩ := h
  obtain ⟨level, hlevel⟩ := exists_hasInteger hexact.1 hexact.2.2 hlevel
  obtain ⟨declared, hdeclared⟩ := exists_hasInteger hexact.1 hexact.2.2 hdeclared
  obtain ⟨offset, hoffset⟩ := exists_hasInteger hexact.2.1 hexact.2.2 hoffset
  exact ⟨⟨name, level, some ⟨declared, offset⟩⟩, hname, hlevel, ⟨declared, offset⟩, es, rfl, hget, hdeclared, hoffset⟩

end Members

theorem Expr.exists_allSpelledBy {ws : List Value} (h : ∀ w ∈ ws, ∃ e : Expr, e.SpelledBy w) :
    ∃ es, Expr.AllSpelledBy es ws := by
  induction ws with
  | nil => exact ⟨[], .nil⟩
  | cons w ws ih =>
    obtain ⟨⟨e, he⟩, hws⟩ := List.forall_mem_cons.1 h
    obtain ⟨es, hes⟩ := ih hws
    exact ⟨e :: es, .cons he hes⟩

theorem Value.IsExpr.exists_spelledBy {v : Value} (h : v.IsExpr) : ∃ e : Expr, e.SpelledBy v := by
  induction h with
  | int node get value =>
    obtain ⟨pos, head⟩ := node.exists_heads
    obtain ⟨n, hn⟩ := Members.exists_hasInteger (Int.le_refl (-maxExact)) (Int.le_refl maxExact) ⟨_, get, value⟩
    exact ⟨_, .int head hn⟩
  | bool node value =>
    obtain ⟨pos, head⟩ := node.exists_heads
    exact ⟨_, .bool head value⟩
  | ident node reference =>
    obtain ⟨pos, head⟩ := node.exists_heads
    obtain ⟨r, hr⟩ := reference.exists_spelledBy
    exact ⟨_, .ident head hr⟩
  | call node reference items _ ih =>
    obtain ⟨pos, head⟩ := node.exists_heads
    obtain ⟨r, hr⟩ := reference.exists_spelledBy
    obtain ⟨args, hargs⟩ := Expr.exists_allSpelledBy ih
    exact ⟨_, .call head hr items hargs⟩
  | cond node get1 _ get2 _ get3 _ ih1 ih2 ih3 =>
    obtain ⟨pos, head⟩ := node.exists_heads
    obtain ⟨test, htest⟩ := ih1
    obtain ⟨yes, hyes⟩ := ih2
    obtain ⟨no, hno⟩ := ih3
    exact ⟨_, .cond head get1 htest get2 hyes get3 hno⟩
  | binary operator node get1 _ get2 _ ih1 ih2 =>
    obtain ⟨pos, head⟩ := node.exists_heads
    obtain ⟨left, hleft⟩ := ih1
    obtain ⟨right, hright⟩ := ih2
    simp only [List.mem_cons, List.not_mem_nil, or_false] at operator
    rcases operator with rfl | rfl | rfl
    · exact ⟨.binary pos .equal left right, .binary rfl head get1 hleft get2 hright⟩
    · exact ⟨.binary pos .plus left right, .binary rfl head get1 hleft get2 hright⟩
    · exact ⟨.binary pos .times left right, .binary rfl head get1 hleft get2 hright⟩
  | print node get _ ih =>
    obtain ⟨pos, head⟩ := node.exists_heads
    obtain ⟨arg, harg⟩ := ih
    exact ⟨_, .print head get harg⟩

/-- strings name parameters without a position -/
theorem exists_params {ps : List Value} (h : ∀ p ∈ ps, ∃ s, p = .string s) :
    ∃ params : List Param, ps = (params.map fun p => .string p.name) ∧ ∀ p ∈ params, p.pos = .unknown := by
  induction ps with
  | nil => exact ⟨[], rfl, fun _ hp => nomatch hp⟩
  | cons p ps ih =>
    obtain ⟨⟨s, rfl⟩, hps⟩ := List.forall_mem_cons.1 h
    obtain ⟨params, rfl, hunknown⟩ := ih hps
    exact ⟨{ name := s } :: params, rfl, List.forall_mem_cons.2 ⟨rfl, hunknown⟩⟩

theorem Decl.exists_allSpelledBy {ws : List Value} (h : ∀ w ∈ ws, ∃ d : Decl, d.SpelledBy w) :
    ∃ ds, Decl.AllSpelledBy ds ws := by
  induction ws with
  | nil => exact ⟨[], .nil⟩
  | cons w ws ih =>
    obtain ⟨⟨d, hd⟩, hws⟩ := List.forall_mem_cons.1 h
    obtain ⟨ds, hds⟩ := ih hws
    exact ⟨d :: ds, .cons hd hds⟩

theorem Value.IsDecl.exists_spelledBy {v : Value} (h : v.IsDecl) : ∃ d : Decl, d.SpelledBy v := by
  induction h with
  | var node hname get value =>
    obtain ⟨pos, head⟩ := node.exists_heads
    obtain ⟨e, he⟩ := value.exists_spelledBy
    exact ⟨_, .var head hname get he⟩
  | func node hname hparams params items _ get body ih =>
    obtain ⟨pos, head⟩ := node.exists_heads
    obtain ⟨params, rfl, hunknown⟩ := exists_params params
    obtain ⟨decls, hdecls⟩ := Decl.exists_allSpelledBy ih
    obtain ⟨e, he⟩ := body.exists_spelledBy
    exact ⟨_, .func head hname hparams hunknown items hdecls get he⟩

theorem Value.IsProgram.exists_spelledBy {v : Value} (h : v.IsProgram) : ∃ r : Root, r.SpelledBy v := by
  cases h with
  | letIn node items decls get body =>
    obtain ⟨pos, head⟩ := node.exists_heads
    obtain ⟨ds, hds⟩ := Decl.exists_allSpelledBy fun w hw => (decls w hw).exists_spelledBy
    obtain ⟨e, he⟩ := body.exists_spelledBy
    exact ⟨_, .letIn head items hds get he⟩
  | bare node get body =>
    obtain ⟨pos, head⟩ := node.exists_heads
    obtain ⟨e, he⟩ := body.exists_spelledBy
    exact ⟨_, .bare head get he⟩

/-- **The reader accepts exactly the grammar.** Reading a value gives a tree if the value is of the grammar, and a
complaint if it is not. -/
theorem readable_iff_isProgram (v : Value) : (∃ r, Root.ofValue v = .ok r) ↔ v.IsProgram := by
  constructor
  · rintro ⟨r, hr⟩
    exact (Root.ofValue_eq_ok.1 hr).isProgram
  · intro h
    obtain ⟨r, hr⟩ := h.exists_spelledBy
    exact ⟨r, Root.ofValue_eq_ok.2 hr⟩

end LetStack

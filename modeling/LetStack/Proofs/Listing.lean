/-
A listing can be read back.

`Line.read?` reads one line: what stands before a final colon is a label, otherwise the line has the name of an
operation and, after one space, an operand. `Code.read?` reads a whole listing, and makes instructions of the lines.
None of this would work if an operand could hold a space, a colon or an end of line. No name of the tree ever gets into
an operand: operands are made of letters, digits and a minus sign (`IsWord`).

Results:
- `Label.ofName?_eq_some`, `Operand.integer?_eq_some`: a label and an integer are read from their texts and from no
  others;
- `Code.read?_listing`: all code is read back from its listing;
- `Root.integers_program`: the integers that a program pushes are those of its nodes;
- `listing_is_unambiguous`.
-/
import LetStack.Proofs.Contributions
import LetStack.Proofs.Pool

namespace LetStack

/-! ## Words -/

/-- the characters of operands -/
def isWordChar (c : Char) : Bool := c.isAlphanum || c = '-'

/-- a text that is not empty and has such characters only -/
structure IsWord (s : String) : Prop where
  ne_empty : s ≠ ""
  chars : s.toList.all isWordChar = true

theorem IsWord.not_mem {s : String} (h : IsWord s) {c : Char} (hc : isWordChar c = false) : c ∉ s.toList := by
  intro hmem
  rw [List.all_eq_true.1 h.chars c hmem] at hc
  cases hc

theorem IsWord.append {s t : String} (ht : IsWord t) (hs : s.toList.all isWordChar = true) : IsWord (s ++ t) where
  ne_empty := by simp [ht.ne_empty]
  chars := by rw [String.toList_append, List.all_append, hs, ht.chars, Bool.and_self]

theorem isWord_toString_nat (n : Nat) : IsWord (toString n) where
  ne_empty := Nat.repr_ne_empty
  chars := by
    refine List.all_eq_true.2 fun c hc => ?_
    simp [isWordChar, Char.isAlphanum, isDigit_of_mem_toString n c hc]

theorem Label.isWord_name (l : Label) : IsWord l.name := by
  cases l with
  | control n => exact (isWord_toString_nat n).append rfl
  | function n => exact (isWord_toString_nat n).append rfl

theorem isWord_toString_int (z : Int) : IsWord (toString z) := by
  cases z with
  | ofNat n => exact isWord_toString_nat n
  | negSucc n => exact (isWord_toString_nat (n + 1)).append (s := "-") rfl

theorem Operand.isWord_text (v : Operand) : IsWord v.text := by
  cases v with
  | int n => exact isWord_toString_int n.toInt
  | address l => exact l.isWord_name

/-! ## Lines -/

/-- the operation of this name -/
def Opcode.ofName? (name : String) : Option Opcode := Opcode.all.find? fun op => op.name = name

/-- reads a line: a label and a colon, or the name of an operation and, after one space, the operand if it has one -/
def Line.read? (text : List Char) : Option Line :=
  if text.getLast? = some ':' then some ⟨.label, String.ofList text.dropLast⟩
  else
    let rest := text.dropWhile (· ≠ ' ')
    (Opcode.ofName? (String.ofList (text.takeWhile (· ≠ ' ')))).bind fun op =>
      if op ≠ .label ∧ op.hasOperand = !rest.isEmpty then some ⟨op, String.ofList rest.tail⟩ else none

/-- reads the lines of a listing -/
def Line.readAll? (text : String) : Option (List Line) := (text.toList.splitOn '\n').mapM Line.read?

namespace Line

theorem read?_label (s : String) : read? (text ⟨.label, s⟩).toList = some ⟨.label, s⟩ := by
  have htext : (text ⟨.label, s⟩).toList = s.toList ++ [':'] := String.toList_append
  rw [htext, read?, List.getLast?_concat, if_pos rfl, List.dropLast_concat, String.ofList_toList]

/-- an operation with a word as its operand -/
theorem read?_operand {op : Opcode} {s : String} (hop : op = .push ∨ op = .beq ∨ op = .b) (hs : IsWord s) :
    read? (text ⟨op, s⟩).toList = some ⟨op, s⟩ := by
  have htext : (text ⟨op, s⟩).toList = op.name.toList ++ ' ' :: s.toList := by
    rcases hop with rfl | rfl | rfl <;> simp [text, Opcode.hasOperand]
  have hname : IsWord op.name ∧ Opcode.ofName? op.name = some op ∧ op ≠ .label ∧ op.hasOperand = true := by
    rcases hop with rfl | rfl | rfl <;> exact ⟨⟨by decide, rfl⟩, rfl, by decide, rfl⟩
  obtain ⟨hword, hofName, hlabel, hoperand⟩ := hname
  -- no colon, and the first space is the one after the name
  have hcolon : (op.name.toList ++ ' ' :: s.toList).getLast? ≠ some ':' := by
    intro hlast
    rcases List.mem_append.1 (List.mem_of_getLast? hlast) with hmem | hmem
    · exact hword.not_mem rfl hmem
    · exact hs.not_mem rfl ((List.mem_cons.1 hmem).resolve_left (by decide))
  have hspace : ∀ c ∈ op.name.toList, decide (c ≠ ' ') = true := by
    intro c hc
    refine decide_eq_true fun hcs => hword.not_mem (c := ' ') rfl (hcs ▸ hc)
  rw [htext, read?, if_neg hcolon, List.takeWhile_append_of_pos hspace, List.dropWhile_append_of_pos hspace,
    List.takeWhile_cons_of_neg (by decide), List.dropWhile_cons_of_neg (by decide), List.append_nil,
    String.ofList_toList, hofName]
  simp [hlabel, hoperand]

theorem read?_text (i : Instr) : read? i.text.toList = some i.line := by
  cases i with
  | push v => exact read?_operand (Or.inl rfl) v.isWord_text
  | beq l => exact read?_operand (Or.inr (Or.inl rfl)) l.isWord_name
  | b l => exact read?_operand (Or.inr (Or.inr rfl)) l.isWord_name
  | label l => exact read?_label l.name
  | _ => decide

end Line

/-- the characters of lines -/
def isLineChar (c : Char) : Bool := isWordChar c || c = ' ' || c = ':'

theorem Instr.lineChars_text (i : Instr) : i.text.toList.all isLineChar = true := by
  have hword : ∀ s : String, IsWord s → s.toList.all isLineChar = true := by
    intro s hs
    refine List.all_eq_true.2 fun c hc => ?_
    simp [isLineChar, List.all_eq_true.1 hs.chars c hc]
  have hoperand : ∀ name s : String, name.toList.all isLineChar = true → IsWord s →
      (name ++ " " ++ s).toList.all isLineChar = true := by
    intro name s hname hs
    simp only [String.toList_append, List.all_append, hname, hword s hs, Bool.and_true, Bool.true_and]
    rfl
  cases i with
  | push v => exact hoperand "push" v.text rfl v.isWord_text
  | beq l => exact hoperand "beq" l.name rfl l.isWord_name
  | b l => exact hoperand "b" l.name rfl l.isWord_name
  | label l =>
    change (l.name ++ ":").toList.all isLineChar = true
    rw [String.toList_append, List.all_append, hword _ l.isWord_name]
    rfl
  | _ => rfl

theorem Instr.not_mem_text (i : Instr) {c : Char} (hc : isLineChar c = false) : c ∉ i.text.toList := by
  intro hmem
  rw [List.all_eq_true.1 i.lineChars_text c hmem] at hc
  cases hc

/-! ## Operands -/

/-- the label of this name: a control label, or a function label -/
def Label.ofName? (name : String) : Option Label :=
  let number := fun (k : Nat) => (String.ofList (name.toList.drop k)).toNat?
  (((number "label".length).map Label.control).filter fun l => l.name = name).or
    (((number "function".length).map Label.function).filter fun l => l.name = name)

theorem Label.ofName?_eq_some (name : String) (l : Label) : Label.ofName? name = some l ↔ l.name = name := by
  simp only [Label.ofName?, Option.or_eq_some_iff, Option.filter_eq_some_iff, decide_eq_true_eq]
  constructor
  · rintro (⟨-, h⟩ | ⟨-, -, h⟩) <;> exact h
  · rintro rfl
    have hnumber : ∀ (s : String) (n : Nat),
        (String.ofList ((s ++ toString n).toList.drop s.length)).toNat? = some n := by
      intro s n
      rw [String.toList_append, ← String.length_toList, List.drop_left, String.ofList_toList]
      exact Nat.toNat?_repr n
    cases l with
    | control n => exact Or.inl ⟨by rw [Label.name, hnumber]; rfl, rfl⟩
    | function n =>
      refine Or.inr ⟨?_, by rw [Label.name, hnumber]; rfl, rfl⟩
      -- no control label has the name of a function label
      refine Option.filter_eq_none_iff.2 fun l hl hname => ?_
      obtain ⟨m, -, rfl⟩ := Option.map_eq_some_iff.1 hl
      cases Label.name_injective (of_decide_eq_true hname)

/-- the integer with this decimal text, if it is in range -/
def Operand.integer? (text : String) : Option Int64 :=
  (text.toInt?.map Int64.ofInt).filter fun z => toString z.toInt = text

theorem Operand.integer?_eq_some (text : String) (z : Int64) :
    Operand.integer? text = some z ↔ toString z.toInt = text := by
  rw [Operand.integer?, Option.filter_eq_some_iff]
  constructor
  · rintro ⟨-, h⟩
    exact of_decide_eq_true h
  · rintro rfl
    have hread : (toString z.toInt).toInt? = some z.toInt := Int.toInt?_repr z.toInt
    rw [hread, Option.map_some, Int64.ofInt_toInt]
    exact ⟨rfl, decide_eq_true rfl⟩

/-- what is pushed: an integer, or a label -/
def Operand.read? (text : String) : Option Operand :=
  ((Operand.integer? text).map Operand.int).or ((Label.ofName? text).map Operand.address)

theorem Operand.integer?_name (l : Label) : Operand.integer? l.name = none := by
  refine Option.eq_none_iff_forall_ne_some.2 fun z hz => ?_
  exact l.name_ne_toString z.toInt ((Operand.integer?_eq_some l.name z).1 hz).symm

theorem Operand.read?_text (v : Operand) : Operand.read? v.text = some v := by
  cases v with
  | int z =>
    have hread := (Operand.integer?_eq_some (toString z.toInt) z).2 rfl
    rw [Operand.read?, Operand.text, hread]
    rfl
  | address l =>
    have hread := (Label.ofName?_eq_some l.name l).2 rfl
    rw [Operand.read?, Operand.text, Operand.integer?_name, hread]
    rfl

/-! ## Instructions -/

/-- the instruction of a line -/
def Instr.ofLine? (l : Line) : Option Instr :=
  match l.op with
  | .push => (Operand.read? l.operand).map .push
  | .beq => (Label.ofName? l.operand).map .beq
  | .b => (Label.ofName? l.operand).map .b
  | .label => (Label.ofName? l.operand).map .label
  | .pop => some .pop
  | .add => some .add
  | .mult => some .mult
  | .js => some .js
  | .halt => some .halt
  | .print => some .print
  | .lw => some .lw
  | .lfp => some .lfp
  | .sfp => some .sfp
  | .cfp => some .cfp
  | .lra => some .lra
  | .sra => some .sra
  | .ltm => some .ltm
  | .stm => some .stm
  | .illegal _ => none

theorem Instr.ofLine?_line (i : Instr) : Instr.ofLine? i.line = some i := by
  have hlabel : ∀ l : Label, Label.ofName? l.name = some l := fun l => (Label.ofName?_eq_some l.name l).2 rfl
  cases i with
  | push v => exact congrArg (Option.map Instr.push) v.read?_text
  | beq l => exact congrArg (Option.map Instr.beq) (hlabel l)
  | b l => exact congrArg (Option.map Instr.b) (hlabel l)
  | label l => exact congrArg (Option.map Instr.label) (hlabel l)
  | _ => rfl

/-- reads a listing as code -/
def Code.read? (text : String) : Option Code := (Line.readAll? text).bind fun ls => ls.mapM Instr.ofLine?

theorem mapM_map_eq_some {α β γ : Type} {f : α → β} {g : β → Option γ} {h : α → γ} (hg : ∀ a, g (f a) = some (h a))
    (as : List α) : (as.map f).mapM g = some (as.map h) := by
  induction as with
  | nil => rfl
  | cons a as ih => simp [hg, ih]

theorem Code.listing_eq (c : Code) : c.listing = "\n".intercalate (c.map Instr.text) :=
  congrArg "\n".intercalate List.map_map

theorem Line.readAll?_listing {c : Code} (hc : c ≠ []) : Line.readAll? c.listing = some (c.map Instr.line) := by
  have hsplit : c.listing.toList.splitOn '\n' = c.map fun i => i.text.toList := by
    have htext : c.listing.toList = ['\n'].intercalate (c.map fun i => i.text.toList) := by
      rw [Code.listing_eq, String.toList_intercalate, List.map_map]
      rfl
    rw [htext, List.splitOn_intercalate '\n' _ (by simpa using hc)]
    intro line hline
    obtain ⟨i, -, rfl⟩ := List.mem_map.1 hline
    exact i.not_mem_text rfl
  rw [Line.readAll?, hsplit]
  exact mapM_map_eq_some Line.read?_text c

/-- **Reading back.** Code is read from its listing as it was. -/
theorem Code.read?_listing {c : Code} (hc : c ≠ []) : Code.read? c.listing = some c := by
  rw [Code.read?, Line.readAll?_listing hc, Option.bind_some]
  simpa using mapM_map_eq_some Instr.ofLine?_line c

/-! ## Where the integers come from -/

/-- the integer that an instruction pushes -/
def Instr.integer? : Instr → Option Int64
  | .push (.int n) => some n
  | _ => none

theorem Instr.integer?_unnumbered (i : Instr) : i.unnumbered.integer? = i.integer? := by
  rcases i with (_ | _) | _ <;> rfl

/-- what is pushed is read as the integer that it is, and a label as none -/
theorem Code.integers_operands (c : Code) :
    (c.operands .push).filterMap Operand.integer? = c.filterMap Instr.integer? := by
  rw [Code.operands, List.filterMap_map, List.filterMap_filter]
  refine List.filterMap_congr fun i _ => ?_
  cases i with
  | push v =>
    cases v with
    | int z => exact (Operand.integer?_eq_some (toString z.toInt) z).2 rfl
    | address l => exact Operand.integer?_name l
  | _ => rfl

/-- the integers that are pushed for a node itself: the value of a literal, a truth value as 1 or 0; the offset of what
a name denotes; what the test of a conditional is compared with; the two outcomes of a comparison; and for declarations
at the top level the word in place of an access link -/
def Node.integers : Node → List Int64
  | .expr (.literal _ (.int n)) => [n]
  | .expr (.literal _ (.bool b)) => [if b then 1 else 0]
  | .expr (.ident _ r) | .expr (.call _ r _) => (r.entry.map Entry.offset).toList
  | .expr (.cond _ _ _ _) => [1]
  | .expr (.binary _ .equal _ _) => [0, 1]
  | .root (.letIn _ _ _) => [0]
  | _ => []

theorem Reference.integers_frame (r : Reference) : r.frame.filterMap Instr.integer? = [] := by
  refine List.filterMap_eq_nil_iff.2 fun i hi => ?_
  rcases List.mem_cons.1 hi with rfl | hi
  · rfl
  · rw [List.eq_of_mem_replicate hi]
    rfl

theorem Reference.IsBound.offset_eq {r : Reference} (h : r.IsBound) :
    [r.offset] = (r.entry.map Entry.offset).toList := by
  obtain ⟨e, he⟩ := Option.isSome_iff_exists.1 h.1
  rw [Reference.offset, he]
  rfl

theorem Node.integers_share {n : Node} (h : n.IsSound) : n.share.filterMap Instr.integer? = n.integers := by
  have hpops : ∀ k, (List.replicate k Instr.pop).filterMap Instr.integer? = [] := fun k => by simp [Instr.integer?]
  rcases n with (_ | _ | _) | (_ | _ | _) | (_ | ⟨p, v⟩ | ⟨p, r⟩ | ⟨p, r, args⟩ | _ | ⟨p, op, left, right⟩ | _)
  case expr.literal => cases v <;> rfl
  case expr.ident =>
    simp only [share, List.filterMap_append, r.integers_frame]
    exact ((isSound_ident p r).1 h).offset_eq
  case expr.call =>
    simp only [share, List.filterMap_append, r.integers_frame]
    exact ((isSound_call p r args).1 h).offset_eq
  case expr.binary => cases op <;> rfl
  case decl.func =>
    simp only [share, List.filterMap_append, hpops]
    rfl
  all_goals rfl

/-- **The integers that a program pushes** are those of the nodes of its tree. -/
theorem Root.integers_program (r : Root) (h : ∀ n ∈ r.nodes, n.IsSound) :
    (r.program.code.filterMap Instr.integer?).Perm (r.nodes.flatMap Node.integers) := by
  have hcontents : ∀ c : Code, (Code.contents c).filterMap Instr.integer? = c.filterMap Instr.integer? := by
    intro c
    rw [Code.contents, Multiset.filterMap_coe, List.filterMap_map]
    simp only [Function.comp_def, Instr.integer?_unnumbered]
  have hshares : ∀ ns : List Node, (∀ n ∈ ns, n.IsSound) →
      (Node.shares ns).filterMap Instr.integer? = Multiset.ofList (ns.flatMap Node.integers) := by
    intro ns hns
    induction ns with
    | nil => rfl
    | cons n ns ih =>
      obtain ⟨hn, hrest⟩ := List.forall_mem_cons.1 hns
      rw [Node.shares_cons, Multiset.filterMap_add, hcontents, n.integers_share hn, ih hrest]
      rfl
  have hprogram := congrArg (Multiset.filterMap Instr.integer?) (r.contents_program h)
  rw [hcontents, hshares r.nodes h] at hprogram
  exact Multiset.coe_eq_coe.1 hprogram

/-! ## Programs -/

section

variable {r : Root} {p : Program}

theorem code_ne_nil (h : r.compile = .ok p) : p.code ≠ [] := by
  intro hnil
  have hcount := (isClosed_of_compile h).count_halt
  rw [hnil] at hcount
  cases hcount

/-- a label is pushed only if it is that of a routine -/
theorem exists_routine_of_push (h : r.compile = .ok p) {l : Label} (hl : .push (.address l) ∈ p.code) :
    ∃ q ∈ p.routines, q.label = l ∧ .label l ∈ p.code := by
  have hclosed := isClosed_of_compile h
  have hpos := List.count_pos_iff.2 hl
  rw [count_push_address h, List.count_pos_iff] at hpos
  obtain ⟨i, hi, rfl⟩ := List.mem_map.1 hpos
  obtain ⟨-, rfl⟩ := (r.compile_eq_ok_iff p).1 h
  have hlength : r.program.routines.length = r.nodes.countP Node.isFunction := by
    have hdecls := congrArg List.length r.routines_decls
    rw [List.length_map, List.length_map] at hdecls
    rw [hdecls, List.countP_eq_length_filter, ← r.visits_nodes, List.length_map]
  have hlt : i < r.program.routines.length := hlength ▸ List.mem_range.1 hi
  have hlabel := Root.routine_label (List.getElem?_eq_getElem hlt)
  have hmem := List.getElem_mem hlt
  have hhead := (hclosed.routines _ hmem).head
  rw [hlabel] at hhead
  exact ⟨_, hmem, hlabel, List.mem_append_right _ (List.mem_flatMap.2 ⟨_, hmem, List.mem_of_mem_head? hhead⟩)⟩

/-- **The listing is unambiguous.** Its lines are read back as the operations and operands of the program, and the
listing as the program's code. What is pushed is either the decimal text of a 64-bit integer, which is read back as
that integer, or the label of a routine, which the program defines, and never both. And the integers that are so read
are those that the nodes of the tree have pushed. -/
theorem listing_is_unambiguous (h : r.compile = .ok p) :
    Line.readAll? p.listing = some (p.code.map Instr.line) ∧
    Code.read? p.listing = some p.code ∧
    (∀ s ∈ p.code.operands .push,
      Xor (∃ z : Int64, s = toString z.toInt ∧ Operand.integer? s = some z)
        (∃ q ∈ p.routines, s = q.label.name ∧ s ∈ p.code.operands .label)) ∧
    ((p.code.operands .push).filterMap Operand.integer?).Perm (r.nodes.flatMap Node.integers) := by
  refine ⟨Line.readAll?_listing (code_ne_nil h), Code.read?_listing (code_ne_nil h), ?_, ?_⟩
  · intro s hs
    obtain ⟨i, hi, rfl⟩ := List.mem_map.1 hs
    obtain ⟨hi, hop⟩ := List.mem_filter.1 hi
    cases i with
    | push v =>
      cases v with
      | int z =>
        refine Or.inl ⟨⟨z, rfl, (Operand.integer?_eq_some _ z).2 rfl⟩, ?_⟩
        rintro ⟨q, -, hname, -⟩
        exact q.label.name_ne_toString z.toInt hname.symm
      | address l =>
        obtain ⟨q, hq, rfl, hlabel⟩ := exists_routine_of_push h hi
        refine Or.inr ⟨⟨q, hq, rfl, List.mem_map.2 ⟨_, List.mem_filter.2 ⟨hlabel, rfl⟩, rfl⟩⟩, ?_⟩
        rintro ⟨z, hz, -⟩
        exact q.label.name_ne_toString z.toInt hz
    | _ => simp [Instr.opcode] at hop
  · obtain ⟨hsound, rfl⟩ := (r.compile_eq_ok_iff p).1 h
    rw [Code.integers_operands]
    exact r.integers_program hsound

end

/-- the tree of

    let fun f() = -9223372036854775808 in if true then f() else 7

where the function is declared and called by names that look like lines of a listing -/
def deceptiveTree : Root :=
  .letIn .unknown [.func .unknown "label0:\npush 7" [] [] (.literal .unknown (.int Int64.minValue))]
    (.cond .unknown (.literal .unknown (.bool true)) (.call .unknown ⟨"push function0", 0, some ⟨0, -2⟩⟩ [])
      (.literal .unknown (.int 7)))

theorem deceptiveTree_reads_back :
    deceptiveTree.compile = .ok deceptiveTree.program ∧
    Code.read? deceptiveTree.program.listing = some deceptiveTree.program.code ∧
    Operand.integer? "-9223372036854775808" = some Int64.minValue ∧
    ((deceptiveTree.program.code.operands .push).filterMap Operand.integer?).Perm
      [0, Int64.minValue, 1, 1, -2, 7] := by
  have hok : deceptiveTree.compile = .ok deceptiveTree.program := rfl
  obtain ⟨-, hread, -, hintegers⟩ := listing_is_unambiguous hok
  exact ⟨hok, hread, (Operand.integer?_eq_some _ Int64.minValue).2 (by decide), hintegers⟩

end LetStack

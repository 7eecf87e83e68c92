/-
The pool of routines, against the traversal of the tree.

The generator gives a function its number and its place in the pool before it looks at the functions inside, fills in
the code afterwards, and leaves a push of the label where the function is declared. A traversal knows nothing of this.
`Visitor.survey` is a visitor that passes over nothing and notes each function declaration that it is shown, with the
number of the innermost function that was entered and not yet left.

Results:
- `Root.walk_survey`: the notes are those of the function declarations among the nodes, in order, and of the functions of
  one scope in the order of the scope's declarations;
- `routines_follow_the_traversal`: the pool holds the routines of the functions noted, in that order and numbered by it;
  the label of a routine is pushed once, in the block of the scope that was noted, and a block pushes the labels of its
  scope in the order of the declarations.
-/
import LetStack.Proofs.Activation
import LetStack.Proofs.Traversal

namespace LetStack

/-! ## The survey -/

/-- a function declaration that a traversal has shown, and the number of the function it was shown in -/
structure Visit where
  decl : Decl
  /-- the innermost function that was entered and not left; `none` at the top level -/
  scope : Option Nat

/-- what a visitor has noted so far -/
structure Survey where
  visits : List Visit
  /-- the nodes that are entered and not left, innermost first; a function by its number -/
  entered : List (Option Nat)

namespace Survey

def start : Survey := ⟨[], []⟩

/-- the innermost function that is entered and not left -/
def scope (s : Survey) : Option Nat := s.entered.findSome? id

def enter (s : Survey) : Node → Survey
  | .decl (.func pos name params decls body) =>
    ⟨s.visits ++ [⟨.func pos name params decls body, s.scope⟩], some s.visits.length :: s.entered⟩
  | _ => { s with entered := none :: s.entered }

def leave (s : Survey) : Survey := { s with entered := s.entered.tail }

def step (s : Survey) : Option Node → Survey
  | some n => s.enter n
  | none => s.leave

theorem enter_of_isFunction_eq_false {n : Node} (h : n.isFunction = false) (s : Survey) :
    s.enter n = { s with entered := none :: s.entered } := by
  rcases n with _ | (_ | _ | _) | _
  case decl.func => cases h
  all_goals rfl

end Survey

/-- the visitor that notes function declarations and passes over nothing -/
def Visitor.survey : Visitor Survey := Visitor.stepping (fun _ => true) Survey.step

/-! ### What is noted -/

mutual

/-- the functions of a declaration in `scope`, the first of them with number `first` -/
def Decl.visits (scope : Option Nat) (first : Nat) : Decl → List Visit
  | .absent => []
  | .var _ _ _ => []
  | .func pos name params decls body =>
    ⟨.func pos name params decls body, scope⟩ :: Decl.visitsAll (some first) (first + 1) decls

def Decl.visitsAll (scope : Option Nat) (first : Nat) : List Decl → List Visit
  | [] => []
  | d :: ds => d.visits scope first ++ Decl.visitsAll scope (first + d.functionCount) ds

end

def Root.visits : Root → List Visit
  | .absent => []
  | .letIn _ decls _ => Decl.visitsAll none 0 decls
  | .bare _ => []

mutual

@[simp] theorem Decl.length_visits (scope : Option Nat) (first : Nat) (d : Decl) :
    (d.visits scope first).length = d.functionCount := by
  cases d with
  | absent => rfl
  | var p name value => rfl
  | func p name params decls body =>
    rw [Decl.visits, List.length_cons, Decl.length_visitsAll, Decl.functionCount, Nat.add_comm]

@[simp] theorem Decl.length_visitsAll (scope : Option Nat) (first : Nat) (ds : List Decl) :
    (Decl.visitsAll scope first ds).length = Decl.functionCountAll ds := by
  cases ds with
  | nil => rfl
  | cons d ds =>
    rw [Decl.visitsAll, List.length_append, Decl.length_visits, Decl.length_visitsAll, Decl.functionCountAll]

end

theorem Expr.filter_isFunction (e : Expr) : e.nodes.filter Node.isFunction = [] := by
  rw [← List.length_eq_zero_iff, ← List.countP_eq_length_filter]
  exact e.countP_isFunction

mutual

/-- where nothing is a function, nothing is noted -/
theorem Outline.foldl_calls_survey (t : Outline Node) (h : t.items.filter Node.isFunction = []) (s : Survey) :
    (t.calls fun _ => true).foldl Survey.step s = s := by
  cases t with
  | node n ts =>
    rw [Outline.items, List.filter_eq_nil_iff, List.forall_mem_cons, ← List.filter_eq_nil_iff] at h
    rw [Outline.calls, if_pos rfl, List.foldl_cons, List.foldl_append, Outline.foldl_callsAll_survey ts h.2, Survey.step,
      Survey.enter_of_isFunction_eq_false (Bool.eq_false_of_not_eq_true h.1)]
    rfl

theorem Outline.foldl_callsAll_survey (ts : List (Outline Node))
    (h : (Outline.itemsAll ts).filter Node.isFunction = []) (s : Survey) :
    (Outline.callsAll (fun _ => true) ts).foldl Survey.step s = s := by
  cases ts with
  | nil => rfl
  | cons t ts =>
    rw [Outline.itemsAll, List.filter_append, List.append_eq_nil_iff] at h
    rw [Outline.callsAll, List.foldl_append, Outline.foldl_calls_survey t h.1, Outline.foldl_callsAll_survey ts h.2]

end

/-- an expression declares nothing -/
theorem Expr.foldl_calls_survey (e : Expr) (s : Survey) : (e.outline.calls fun _ => true).foldl Survey.step s = s :=
  e.outline.foldl_calls_survey (by rw [e.items_outline, e.filter_isFunction]) s

/-- the parts of a scope: its declarations, and an expression -/
theorem Survey.foldl_parts {s t : Survey} {ds : List Decl}
    (h : (Outline.callsAll (fun _ => true) (Decl.outlines ds)).foldl Survey.step s = t) (body : Expr) :
    (Outline.callsAll (fun _ => true) (Decl.outlines ds ++ [body.outline])).foldl Survey.step s = t := by
  rw [Outline.callsAll_append, List.foldl_append, h, Outline.callsAll, Outline.callsAll, List.append_nil,
    body.foldl_calls_survey]

mutual

theorem Decl.foldl_calls_survey (d : Decl) (s : Survey) :
    (d.outline.calls fun _ => true).foldl Survey.step s =
      { s with visits := s.visits ++ d.visits s.scope s.visits.length } := by
  cases d with
  | absent => simp [Decl.outline, Outline.calls, Outline.callsAll, Survey.step, Survey.enter, Survey.leave, Decl.visits]
  | var p name value =>
    rw [Decl.visits, List.append_nil]
    refine Outline.foldl_calls_survey _ ?_ s
    simp [Decl.items_outline, Decl.nodes, Node.isFunction, value.filter_isFunction]
  | func p name params decls body =>
    -- inside, the function that was just noted is the scope
    have hinner := Decl.foldl_callsAll_survey decls (s.enter (.decl (.func p name params decls body)))
    rw [Decl.outline, Outline.calls, if_pos rfl, List.foldl_cons, List.foldl_append, Survey.step,
      Survey.foldl_parts hinner body]
    simp [Survey.step, Survey.enter, Survey.leave, Survey.scope, Decl.visits]

theorem Decl.foldl_callsAll_survey (ds : List Decl) (s : Survey) :
    (Outline.callsAll (fun _ => true) (Decl.outlines ds)).foldl Survey.step s =
      { s with visits := s.visits ++ Decl.visitsAll s.scope s.visits.length ds } := by
  cases ds with
  | nil => simp [Decl.outlines, Outline.callsAll, Decl.visitsAll]
  | cons d ds =>
    rw [Decl.outlines, Outline.callsAll, List.foldl_append, Decl.foldl_calls_survey, Decl.foldl_callsAll_survey]
    simp [Decl.visitsAll, Survey.scope]

end

theorem Root.foldl_calls_survey (r : Root) :
    (r.outline.calls fun _ => true).foldl Survey.step .start = ⟨r.visits, []⟩ := by
  cases r with
  | absent => rfl
  | letIn p decls body =>
    have hinner := Decl.foldl_callsAll_survey decls (Survey.start.enter (.root (.letIn p decls body)))
    rw [Root.outline, Outline.calls, if_pos rfl, List.foldl_cons, List.foldl_append, Survey.step,
      Survey.foldl_parts hinner body]
    rfl
  | bare body =>
    refine Outline.foldl_calls_survey _ ?_ _
    simp [Root.items_outline, Root.nodes, Node.isFunction, body.filter_isFunction]

theorem Root.walk_survey (r : Root) (h : ∀ n ∈ r.nodes, n.IsSound) :
    (r.walk Visitor.survey).run .start = .ok ((), ⟨r.visits, []⟩) := by
  rw [Visitor.survey, r.walk_stepping fun n hn => (h n hn).1.kind_ne_absent, r.foldl_calls_survey]

/-! ### The functions among the nodes -/

mutual

theorem Decl.visits_nodes (scope : Option Nat) (first : Nat) (d : Decl) :
    (d.visits scope first).map (fun v => Node.decl v.decl) = d.nodes.filter Node.isFunction := by
  cases d with
  | absent => rfl
  | var p name value => simp [Decl.visits, Decl.nodes, Node.isFunction, value.filter_isFunction]
  | func p name params decls body =>
    rw [Decl.visits, List.map_cons, Decl.visitsAll_nodes, Decl.nodes, List.filter_cons_of_pos rfl, List.filter_append,
      body.filter_isFunction, List.append_nil]

theorem Decl.visitsAll_nodes (scope : Option Nat) (first : Nat) (ds : List Decl) :
    (Decl.visitsAll scope first ds).map (fun v => Node.decl v.decl) = (Decl.nodesAll ds).filter Node.isFunction := by
  cases ds with
  | nil => rfl
  | cons d ds =>
    rw [Decl.visitsAll, List.map_append, Decl.visits_nodes, Decl.visitsAll_nodes, Decl.nodesAll, List.filter_append]

end

theorem Root.visits_nodes (r : Root) :
    r.visits.map (fun v => Node.decl v.decl) = r.nodes.filter Node.isFunction := by
  cases r with
  | absent => rfl
  | letIn p decls body =>
    rw [Root.visits, Decl.visitsAll_nodes, Root.nodes, List.filter_cons_of_neg (by simp [Node.isFunction]),
      List.filter_append, body.filter_isFunction, List.append_nil]
  | bare body =>
    rw [Root.visits, Root.nodes, List.filter_cons_of_neg (by simp [Node.isFunction]), body.filter_isFunction]
    rfl

/-! ### Scopes -/

/-- a scope that is older than the function with number `first` -/
def IsOlder (first : Nat) (scope : Option Nat) : Prop := ∀ j, scope = some j → j < first

/-- the top level is older than each function -/
theorem isOlder_none (first : Nat) : IsOlder first none := fun _ hj => nomatch hj

theorem IsOlder.mono {first first' : Nat} {scope : Option Nat} (h : IsOlder first scope) (hle : first ≤ first') :
    IsOlder first' scope := fun j hj => Nat.lt_of_lt_of_le (h j hj) hle

mutual

/-- each function of a declaration is in the declaration's own scope or in another of these functions -/
theorem Decl.scope_of_mem_visits {scope : Option Nat} {first : Nat} {d : Decl} {v : Visit}
    (hv : v ∈ d.visits scope first) :
    v.scope = scope ∨ ∃ j, v.scope = some j ∧ first ≤ j ∧ j < first + d.functionCount := by
  cases d with
  | absent => cases hv
  | var p name value => cases hv
  | func p name params decls body =>
    rw [Decl.functionCount]
    rcases List.mem_cons.1 hv with rfl | hv
    · exact Or.inl rfl
    · rcases Decl.scope_of_mem_visitsAll hv with hown | ⟨j, hj, hlow, hhigh⟩
      · exact Or.inr ⟨first, hown, Nat.le_refl _, by omega⟩
      · exact Or.inr ⟨j, hj, by omega, by omega⟩

theorem Decl.scope_of_mem_visitsAll {scope : Option Nat} {first : Nat} {ds : List Decl} {v : Visit}
    (hv : v ∈ Decl.visitsAll scope first ds) :
    v.scope = scope ∨ ∃ j, v.scope = some j ∧ first ≤ j ∧ j < first + Decl.functionCountAll ds := by
  cases ds with
  | nil => cases hv
  | cons d ds =>
    rw [Decl.functionCountAll]
    rcases List.mem_append.1 hv with hv | hv
    · rcases Decl.scope_of_mem_visits hv with hown | ⟨j, hj, hlow, hhigh⟩
      · exact Or.inl hown
      · exact Or.inr ⟨j, hj, hlow, by omega⟩
    · rcases Decl.scope_of_mem_visitsAll hv with hown | ⟨j, hj, hlow, hhigh⟩
      · exact Or.inl hown
      · exact Or.inr ⟨j, hj, by omega, by omega⟩

end

/-- the functions noted in a scope, with their numbers -/
def notedIn (scope : Option Nat) (first : Nat) (visits : List Visit) : List (Visit × Nat) :=
  (visits.zipIdx first).filter fun x => x.1.scope = scope

section

variable {scope : Option Nat} {first : Nat}

theorem notedIn_append (as bs : List Visit) :
    notedIn scope first (as ++ bs) = notedIn scope first as ++ notedIn scope (first + as.length) bs := by
  rw [notedIn, List.zipIdx_append, List.filter_append]
  rfl

theorem notedIn_cons (v : Visit) (vs : List Visit) :
    notedIn scope first (v :: vs) =
      if v.scope = scope then (v, first) :: notedIn scope (first + 1) vs else notedIn scope (first + 1) vs := by
  rw [notedIn, List.zipIdx_cons, List.filter_cons]
  simp only [decide_eq_true_eq]
  rfl

theorem notedIn_eq_nil {visits : List Visit} (h : ∀ v ∈ visits, v.scope ≠ scope) : notedIn scope first visits = [] := by
  refine List.filter_eq_nil_iff.2 fun x hx => ?_
  rw [decide_eq_true_eq]
  exact h x.1 (List.fst_mem_of_mem_zipIdx hx)

end

/-! ## Blocks and their scopes -/

/-- the label whose address an instruction pushes -/
def Instr.pushed? : Instr → Option Label
  | .push (.address l) => some l
  | _ => none

namespace Code

/-- the labels whose addresses are pushed, in order -/
def pushed (c : Code) : List Label := c.filterMap Instr.pushed?

@[simp] theorem pushed_nil : pushed [] = [] := rfl

@[simp] theorem pushed_cons (i : Instr) (c : Code) : pushed (i :: c) = i.pushed?.toList ++ pushed c := by
  rw [pushed, List.filterMap_cons]
  cases i.pushed? <;> rfl

@[simp] theorem pushed_append (a b : Code) : pushed (a ++ b) = pushed a ++ pushed b := List.filterMap_append

theorem mem_pushed {c : Code} {l : Label} : l ∈ c.pushed ↔ .push (.address l) ∈ c := by
  rw [pushed, List.mem_filterMap]
  constructor
  · rintro ⟨i, hi, hl⟩
    cases i with
    | push v =>
      cases v with
      | int z => cases hl
      | address l' =>
        obtain rfl := Option.some.inj hl
        exact hi
    | _ => cases hl
  · intro h
    exact ⟨_, h, rfl⟩

end Code

/-- an expression pushes no address -/
theorem Expr.pushed_code (next : Nat) (e : Expr) (h : ∀ n ∈ e.nodes, n.IsSound) : Code.pushed (e.code next) = [] := by
  refine List.eq_nil_iff_forall_not_mem.2 fun l hl => ?_
  -- it would be among the instructions that mention a label, and those are branches and their labels
  have hmem : Instr.push (.address l) ∈ Code.labelled (e.code next) :=
    List.mem_filter.2 ⟨Code.mem_pushed.1 hl, rfl⟩
  rw [(e.labelled_code next h).mem_iff, branchingGroups, List.mem_flatMap] at hmem
  obtain ⟨i, -, hi⟩ := hmem
  simp [branchingGroup] at hi

/-- the block of a scope with these declarations pushes the labels of the functions `noted`, which are those declared,
in order -/
structure Declares (block : Code) (decls : List Decl) (noted : List (Visit × Nat)) : Prop where
  pushed : block.pushed = noted.map fun x => .function x.2
  decls : noted.map (fun x => x.1.decl) = decls.filter Decl.isFunction

theorem Declares.append {a b : Code} {ds ds' : List Decl} {noted noted' : List (Visit × Nat)} (h : Declares a ds noted)
    (h' : Declares b ds' noted') : Declares (a ++ b) (ds ++ ds') (noted ++ noted') where
  pushed := by rw [Code.pushed_append, h.pushed, h'.pushed, List.map_append]
  decls := by rw [List.map_append, h.decls, h'.decls, List.filter_append]

theorem Decl.declares_code {scope : Option Nat} {c : Counters} {d : Decl} (hscope : IsOlder c.functions scope)
    (h : ∀ n ∈ d.nodes, n.IsSound) : Declares (d.code c) [d] (notedIn scope c.functions (d.visits scope c.functions)) := by
  cases d with
  | absent => simp [Decl.nodes] at h
  | var p name value =>
    obtain ⟨-, hvalue⟩ := List.forall_mem_cons.1 h
    exact ⟨value.pushed_code c.labels hvalue, rfl⟩
  | func p name params decls body =>
    -- the functions inside are in younger scopes
    have hinside : notedIn scope (c.functions + 1) (Decl.visitsAll (some c.functions) (c.functions + 1) decls) = [] := by
      refine notedIn_eq_nil fun v hv hv' => ?_
      rcases Decl.scope_of_mem_visitsAll hv with hown | ⟨j, hj, hlow, -⟩
      · exact absurd (hscope c.functions (hv'.symm.trans hown)) (Nat.lt_irrefl _)
      · exact absurd (hscope j (hv'.symm.trans hj)) (by omega)
    rw [Decl.visits, notedIn_cons, if_pos rfl, hinside]
    exact ⟨rfl, rfl⟩

theorem Decl.declares_codeAll {scope : Option Nat} {c : Counters} {ds : List Decl} (hscope : IsOlder c.functions scope)
    (h : ∀ n ∈ Decl.nodesAll ds, n.IsSound) :
    Declares (Decl.codeAll c ds) ds (notedIn scope c.functions (Decl.visitsAll scope c.functions ds)) := by
  induction ds generalizing c with
  | nil => exact ⟨rfl, rfl⟩
  | cons d ds ih =>
    obtain ⟨hd, hds⟩ := List.forall_mem_append.1 h
    rw [Decl.visitsAll, notedIn_append, Decl.length_visits]
    exact (Decl.declares_code hscope hd).append (ih (c := c.after d) (hscope.mono (Nat.le_add_right _ _)) hds)

theorem pushed_functionCode (c : Counters) (params : List Param) (decls : List Decl) (body : Expr)
    (h : ∀ n ∈ body.nodes, n.IsSound) :
    Code.pushed (functionCode c params decls body) = Code.pushed (Decl.codeAll c.inside decls) := by
  have hbody := body.pushed_code (c.labels + Decl.labelCountAll decls) h
  have hpops : ∀ n, Code.pushed (List.replicate n .pop) = [] := by
    intro n
    simp [Code.pushed, Instr.pushed?]
  simp [functionCode, hbody, hpops, Instr.pushed?]

theorem Decl.length_routines (c : Counters) (d : Decl) : (d.routines c).length = d.functionCount := by
  have hlength := congrArg List.length (d.routines_labels c)
  simpa using hlength

mutual

/-- the block of each routine of a declaration pushes what was noted in the routine's function -/
theorem Decl.declares_routine {scope : Option Nat} {c : Counters} {d : Decl} (hscope : IsOlder c.functions scope)
    (h : ∀ n ∈ d.nodes, n.IsSound) {k : Nat} {q : Routine} (hq : (d.routines c)[k]? = some q) :
    Declares q.code q.decls (notedIn (some (c.functions + k)) c.functions (d.visits scope c.functions)) := by
  cases d with
  | absent => simp [Decl.routines] at hq
  | var p name value => simp [Decl.routines] at hq
  | func p name params decls body =>
    simp only [Decl.nodes, List.forall_mem_cons, List.forall_mem_append] at h
    obtain ⟨-, hdecls, hbody⟩ := h
    have hown : scope ≠ some (c.functions + k) := fun hs => absurd (hscope _ hs) (by omega)
    have hinside : IsOlder c.inside.functions (some c.functions) := by
      intro j hj
      rw [← Option.some.inj hj]
      exact Nat.lt_succ_self _
    rw [Decl.visits, notedIn_cons, if_neg hown]
    cases k with
    | zero =>
      obtain rfl := Option.some.inj hq
      have hdeclares := Decl.declares_codeAll hinside hdecls
      exact ⟨(pushed_functionCode c params decls body hbody).trans hdeclares.pushed, hdeclares.decls⟩
    | succ k =>
      have hinner := Decl.declares_routineAll hinside hdecls (k := k) (q := q) hq
      rwa [Counters.inside, Nat.add_assoc, Nat.add_comm 1 k] at hinner

theorem Decl.declares_routineAll {scope : Option Nat} {c : Counters} {ds : List Decl}
    (hscope : IsOlder c.functions scope) (h : ∀ n ∈ Decl.nodesAll ds, n.IsSound) {k : Nat} {q : Routine}
    (hq : (Decl.routinesAll c ds)[k]? = some q) :
    Declares q.code q.decls (notedIn (some (c.functions + k)) c.functions (Decl.visitsAll scope c.functions ds)) := by
  cases ds with
  | nil => simp [Decl.routinesAll] at hq
  | cons d ds =>
    obtain ⟨hd, hds⟩ := List.forall_mem_append.1 h
    rw [Decl.visitsAll, notedIn_append, Decl.length_visits]
    rw [Decl.routinesAll] at hq
    rcases Nat.lt_or_ge k d.functionCount with hlt | hge
    · -- a function of `d`: nothing is noted in it after `d`
      rw [List.getElem?_append_left (by rwa [Decl.length_routines])] at hq
      have hlater : notedIn (some (c.functions + k)) (c.functions + d.functionCount)
          (Decl.visitsAll scope (c.functions + d.functionCount) ds) = [] := by
        refine notedIn_eq_nil fun v hv hv' => ?_
        rcases Decl.scope_of_mem_visitsAll hv with hown | ⟨j, hj, hlow, -⟩
        · exact absurd (hscope _ (hown.symm.trans hv')) (by omega)
        · exact absurd (Option.some.inj (hj.symm.trans hv')) (by omega)
      rw [hlater, List.append_nil]
      exact Decl.declares_routine hscope hd hq
    · -- a later function: nothing is noted in it before it is entered
      rw [List.getElem?_append_right (by rwa [Decl.length_routines]), Decl.length_routines] at hq
      have hearlier : notedIn (some (c.functions + k)) c.functions (d.visits scope c.functions) = [] := by
        refine notedIn_eq_nil fun v hv hv' => ?_
        rcases Decl.scope_of_mem_visits hv with hown | ⟨j, hj, -, hhigh⟩
        · exact absurd (hscope _ (hown.symm.trans hv')) (by omega)
        · exact absurd (Option.some.inj (hj.symm.trans hv')) (by omega)
      have hrest := Decl.declares_routineAll (c := c.after d) (hscope.mono (Nat.le_add_right _ _)) hds hq
      rw [hearlier, List.nil_append]
      rwa [Counters.after, Nat.add_assoc, Nat.add_sub_cancel' hge] at hrest

end

/-! ## Programs -/

mutual

theorem Decl.routines_decls (scope : Option Nat) (c : Counters) (d : Decl) :
    (d.routines c).map Routine.decl = (d.visits scope c.functions).map Visit.decl := by
  cases d with
  | absent => rfl
  | var p name value => rfl
  | func p name params decls body =>
    rw [Decl.routines, Decl.visits, List.map_cons, List.map_cons,
      Decl.routinesAll_decls (some c.functions) c.inside decls]
    rfl

theorem Decl.routinesAll_decls (scope : Option Nat) (c : Counters) (ds : List Decl) :
    (Decl.routinesAll c ds).map Routine.decl = (Decl.visitsAll scope c.functions ds).map Visit.decl := by
  cases ds with
  | nil => rfl
  | cons d ds =>
    rw [Decl.routinesAll, Decl.visitsAll, List.map_append, List.map_append, Decl.routines_decls scope c d,
      Decl.routinesAll_decls scope (c.after d) ds]
    rfl

end

/-- the declarations of the top level -/
def Root.decls : Root → List Decl
  | .letIn _ decls _ => decls
  | _ => []

/-- the block of a scope: of the function with this number, or the top level -/
def Program.block? (p : Program) : Option Nat → Option Code
  | none => some p.toplevel
  | some j => p.routines[j]?.map Routine.code

section

variable {r : Root}

theorem Root.routines_decls (r : Root) : r.program.routines.map Routine.decl = r.visits.map Visit.decl := by
  cases r with
  | absent => rfl
  | letIn p decls body => exact Decl.routinesAll_decls none .start decls
  | bare body => rfl

theorem Root.routine_label {i : Nat} {q : Routine} (hq : r.program.routines[i]? = some q) : q.label = .function i := by
  cases r with
  | absent => simp [Root.program] at hq
  | letIn p decls body =>
    have hlabel := congrArg (·[i]?) (Decl.routinesAll_labels .start decls)
    have hq' : (Decl.routinesAll .start decls)[i]? = some q := hq
    simp only [List.getElem?_map, hq', Option.map_some] at hlabel
    obtain ⟨j, hj, hjq⟩ := Option.map_eq_some_iff.1 hlabel.symm
    obtain ⟨hlt, hget⟩ := List.getElem?_eq_some_iff.1 hj
    rw [List.getElem_range', Nat.one_mul] at hget
    rw [← hjq, ← hget, Counters.start, Nat.zero_add]
  | bare body => simp [Root.program] at hq

theorem Root.declares_toplevel (h : ∀ n ∈ r.nodes, n.IsSound) :
    Declares r.program.toplevel r.decls (notedIn none 0 r.visits) := by
  cases r with
  | absent => simp [Root.nodes] at h
  | letIn p decls body =>
    simp only [Root.nodes, List.forall_mem_cons, List.forall_mem_append] at h
    obtain ⟨-, hdecls, hbody⟩ := h
    have hdeclares := Decl.declares_codeAll (isOlder_none Counters.start.functions) hdecls
    refine ⟨?_, hdeclares.decls⟩
    have hmain := body.pushed_code (Decl.labelCountAll decls) hbody
    simp only [Root.program, Code.pushed_append, hdeclares.pushed, hmain]
    simp [Instr.pushed?, pushInt, Root.visits, Counters.start]
  | bare body =>
    obtain ⟨-, hbody⟩ := List.forall_mem_cons.1 h
    refine ⟨?_, rfl⟩
    rw [Root.program, Code.pushed_append, body.pushed_code 0 hbody]
    rfl

theorem Root.declares_routine (h : ∀ n ∈ r.nodes, n.IsSound) {j : Nat} {q : Routine}
    (hq : r.program.routines[j]? = some q) : Declares q.code q.decls (notedIn (some j) 0 r.visits) := by
  cases r with
  | absent => simp [Root.program] at hq
  | letIn p decls body =>
    simp only [Root.nodes, List.forall_mem_cons, List.forall_mem_append] at h
    have hdeclares := Decl.declares_routineAll (isOlder_none Counters.start.functions) h.2.1 hq
    rwa [Counters.start, Nat.zero_add] at hdeclares
  | bare body => simp [Root.program] at hq

/-- a function is noted in the top level or in another function of the tree -/
theorem Root.exists_block {v : Visit} (hv : v ∈ r.visits) : ∃ block, r.program.block? v.scope = some block := by
  cases r with
  | absent => cases hv
  | letIn p decls body =>
    rcases Decl.scope_of_mem_visitsAll hv with hown | ⟨j, hj, -, hhigh⟩
    · rw [hown]
      exact ⟨_, rfl⟩
    · have hlength : (Decl.routinesAll .start decls).length = Decl.functionCountAll decls := by
        simpa using congrArg List.length (Decl.routinesAll_labels .start decls)
      have hget : (Root.letIn p decls body).program.routines[j]? = some _ :=
        List.getElem?_eq_getElem (l := Decl.routinesAll .start decls) (by omega)
      rw [hj, Program.block?, hget]
      exact ⟨_, rfl⟩
  | bare body => cases hv

/-- the block of the scope where a function is noted pushes its label -/
theorem Root.exists_pushed (h : ∀ n ∈ r.nodes, n.IsSound) {i : Nat} {v : Visit} (hv : r.visits[i]? = some v) :
    ∃ block, r.program.block? v.scope = some block ∧ .function i ∈ Code.pushed block := by
  obtain ⟨block, hblock⟩ := r.exists_block (List.mem_of_getElem? hv)
  have hnoted : (v, i) ∈ notedIn v.scope 0 r.visits :=
    List.mem_filter.2 ⟨List.mem_zipIdx_iff_getElem?.2 hv, by simp⟩
  refine ⟨block, hblock, ?_⟩
  cases hscope : v.scope with
  | none =>
    rw [hscope] at hblock hnoted
    rw [← Option.some.inj hblock, (r.declares_toplevel h).pushed]
    exact List.mem_map.2 ⟨_, hnoted, rfl⟩
  | some j =>
    rw [hscope] at hblock hnoted
    obtain ⟨q, hq, rfl⟩ := Option.map_eq_some_iff.1 hblock
    rw [(r.declares_routine h hq).pushed]
    exact List.mem_map.2 ⟨_, hnoted, rfl⟩

/-- the label of a function is pushed once in the whole program -/
theorem Root.count_pushed {p : Program} (h : r.compile = .ok p) {i : Nat} (hi : i < r.visits.length) :
    (p.code.operands .push).count (Label.function i).name = 1 := by
  have hfunctions : r.visits.length = r.nodes.countP Node.isFunction := by
    rw [List.countP_eq_length_filter, ← r.visits_nodes, List.length_map]
  rw [Code.count_push_name, count_push_address h]
  refine List.count_eq_one_of_mem (List.nodup_range.map fun _ _ => Label.function.inj) ?_
  exact List.mem_map.2 ⟨i, List.mem_range.2 (hfunctions ▸ hi), rfl⟩

/-- **The pool follows the traversal.** A traversal that passes over nothing comes to its end, with the functions of the
tree noted, each once. The routines of the program are those of the functions noted, in the same order. The routine with
number `i` has the label `functioni`, as many parameters and locals as the declaration has parameters and declarations,
and its code starts with its label. The label is pushed once in the whole program, in the block of the innermost function
that the declaration was shown in, or in the top level. And each block pushes, besides integers, the labels of the
functions that its scope declares, in the order of the declarations. -/
theorem routines_follow_the_traversal {p : Program} (h : r.compile = .ok p) :
    ∃ visits : List Visit, (r.walk Visitor.survey).run .start = .ok ((), ⟨visits, []⟩) ∧
      p.routines.map Routine.decl = visits.map Visit.decl ∧
      p.routines.map (fun q => Node.decl q.decl) = r.nodes.filter Node.isFunction ∧
      (∀ (i : Nat) (v : Visit), visits[i]? = some v → ∃ (q : Routine) (block : Code), p.routines[i]? = some q ∧
        q.decl = v.decl ∧ (∃ pos name params decls body, v.decl = .func pos name params decls body ∧
          q.numParams = params.length ∧ q.numLocals = decls.length) ∧
        q.label.name = "function" ++ toString i ∧ q.code.head? = some (.label q.label) ∧
        (p.code.operands .push).count q.label.name = 1 ∧ p.block? v.scope = some block ∧
        q.label.name ∈ block.operands .push) ∧
      Declares p.toplevel r.decls (notedIn none 0 visits) ∧
      ∀ (j : Nat) (q : Routine), p.routines[j]? = some q → Declares q.code q.decls (notedIn (some j) 0 visits) := by
  have honce := fun i hi => Root.count_pushed h (i := i) hi
  obtain ⟨hsound, rfl⟩ := (r.compile_eq_ok_iff p).1 h
  refine ⟨r.visits, r.walk_survey hsound, r.routines_decls, ?_, ?_, r.declares_toplevel hsound,
    fun j q hq => r.declares_routine hsound hq⟩
  · rw [← r.visits_nodes]
    simpa [Function.comp_def] using congrArg (List.map Node.decl) r.routines_decls
  · intro i v hv
    have hdecl := congrArg (·[i]?) r.routines_decls
    simp only [List.getElem?_map, hv, Option.map_some] at hdecl
    obtain ⟨q, hq, hqv⟩ := Option.map_eq_some_iff.1 hdecl
    obtain ⟨block, hblock, hpushed⟩ := r.exists_pushed hsound hv
    have hclosed : q.IsClosed := by
      refine (r.isClosed_program ?_).routines q (List.mem_of_getElem? hq)
      rintro rfl
      simp [Root.nodes] at hsound
    have hlabel := r.routine_label hq
    refine ⟨q, block, hq, hqv, ⟨q.pos, q.name, q.params, q.decls, q.body, hqv.symm, rfl, rfl⟩, by rw [hlabel]; rfl,
      hclosed.head, ?_, hblock, ?_⟩
    · rw [hlabel]
      exact honce i (List.getElem?_eq_some_iff.1 hv).1
    · rw [hlabel]
      exact List.mem_map.2 ⟨_, List.mem_filter.2 ⟨Code.mem_pushed.1 hpushed, rfl⟩, rfl⟩

end

/-! ## A tree with siblings -/

namespace SiblingTree

def int (z : Int64) : Expr := .literal .unknown (.int z)

def g : Decl := .func .unknown "g" [] [] (.ident .unknown ⟨"x", 2, some ⟨1, -2⟩⟩)

def h : Decl := .func .unknown "h" [{ name := "b" }] [] (.ident .unknown ⟨"b", 2, some ⟨2, 1⟩⟩)

def f : Decl :=
  .func .unknown "f" [{ name := "a" }] [.var .unknown "x" (int 1), g, h] (.call .unknown ⟨"g", 1, some ⟨1, -3⟩⟩ [])

def k : Decl := .func .unknown "k" [] [] (int 2)

end SiblingTree

/-- the tree of

    let fun f(a) = let var x = 1; fun g() = x; fun h(b) = b in g()
        fun k() = 2
    in k()

where functions nest and have siblings -/
def siblingTree : Root :=
  .letIn .unknown [SiblingTree.f, SiblingTree.k] (.call .unknown ⟨"k", 0, some ⟨0, -3⟩⟩ [])

/-- The traversal shows `f`, then `g` and `h` inside it, then `k`; the label of `h` is `function2`, and it is pushed once,
in the block of `f`, which declares `g` before it. -/
theorem siblingTree_pool : siblingTree.compile = .ok siblingTree.program ∧
    siblingTree.program.routines.map Routine.decl = [SiblingTree.f, SiblingTree.g, SiblingTree.h, SiblingTree.k] ∧
    (siblingTree.program.code.operands .push).count "function2" = 1 ∧
    ∃ q ∈ siblingTree.program.routines, q.decl = SiblingTree.f ∧ q.code.pushed = [.function 1, .function 2] := by
  have hok : siblingTree.compile = .ok siblingTree.program := rfl
  obtain ⟨visits, hwalk, hdecls, -, hvisits, -, hroutines⟩ := routines_follow_the_traversal hok
  -- the traversal itself says what was noted
  have hnoted : (siblingTree.walk Visitor.survey).run .start = .ok ((), ⟨[⟨SiblingTree.f, none⟩, ⟨SiblingTree.g, some 0⟩,
      ⟨SiblingTree.h, some 0⟩, ⟨SiblingTree.k, none⟩], []⟩) := rfl
  obtain rfl : [⟨SiblingTree.f, none⟩, ⟨SiblingTree.g, some 0⟩, ⟨SiblingTree.h, some 0⟩, ⟨SiblingTree.k, none⟩] = visits := by
    rw [hwalk] at hnoted
    simpa using hnoted.symm
  obtain ⟨q, -, hq, -, -, hname, -, honce, -⟩ := hvisits 2 _ rfl
  obtain ⟨q0, -, hq0, hf, -⟩ := hvisits 0 _ rfl
  rw [hname] at honce
  exact ⟨hok, hdecls, honce, q0, List.mem_of_getElem? hq0, hf, (hroutines 0 q0 hq0).pushed⟩

end LetStack

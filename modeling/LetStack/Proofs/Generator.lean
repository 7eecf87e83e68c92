/-
A generator that works step by step.

The code of a tree and the log of its compilation are functions of the tree, with the numbers of labels and the depth of
nodes handed down as arguments. Here the same work is done with a state that every step changes: the numbers taken so
far, the pool, in which a routine has its place before its code is there, the log, and a depth that is counted up and
down around each node, but only if the nodes are traced. A bad node stops the work and leaves the log as it is then.

`Emits` says what a part of the work does: the events that it goes through, what it gives, and how it leaves the state.
It is put together like the work itself (`Emits.bind`, `Emits.within`), and what comes after a fault is never done.

Result:
- `Root.build_eq`: the work on a tree gives the program or the fault of its compilation, whatever is shown, and leaves
  the entries of its log.
-/
import LetStack.Proofs.Nodes

namespace LetStack

/-! ## The state -/

/-- what the work needs to know -/
structure Work where
  counters : Counters
  /-- how many nodes are entered and not left, if that is traced -/
  depth : Nat
  pool : List Routine

def Work.start : Work := ⟨.start, 0, []⟩

/-- after taking labels of both families and adding routines -/
def Work.extend (labels functions : Nat) (qs : List Routine) (w : Work) : Work :=
  ⟨⟨w.counters.labels + labels, w.counters.functions + functions⟩, w.depth, w.pool ++ qs⟩

structure Bench where
  work : Work
  log : List String

/-- work that changes the state, and may be stopped by a fault -/
abbrev Generator (α : Type) := EStateM Fault Bench α

namespace Generator

variable {α : Type}

/-- writes the entry of an event, if it is shown -/
def note (v : Verbosity) (e : Event) : Generator Unit :=
  modify fun b => { b with log := b.log ++ (Event.entry? v e).toList }

def look : Generator Work := do
  let b ← get
  pure b.work

def change (f : Work → Work) : Generator Unit := modify fun b => { b with work := f b.work }

def stop (v : Verbosity) (f : Fault) : Generator α := do
  note v (.fault f)
  throw f

def enter (v : Verbosity) (kind : NodeKind) (detail : String) : Generator Unit := do
  let w ← look
  note v (.enter w.depth kind detail)
  if v.trace then change fun w => { w with depth := w.depth + 1 }

def leave (v : Verbosity) : Generator Unit := do
  if v.trace then change fun w => { w with depth := w.depth - 1 }

/-- work between entering and leaving a node -/
def within (v : Verbosity) (kind : NodeKind) (detail : String) (x : Generator α) : Generator α := do
  enter v kind detail
  let a ← x
  leave v
  pure a

def newLabel : Generator Label := do
  let w ← look
  change (Work.extend 1 0 [])
  pure (.control w.counters.labels)

def newFunctionLabel : Generator Label := do
  let w ← look
  change (Work.extend 0 1 [])
  pure (.function w.counters.functions)

/-- gives a routine the next place in the pool -/
def reserve (q : Routine) : Generator Nat := do
  let w ← look
  change (Work.extend 0 0 [q])
  pure w.pool.length

def fill (place : Nat) (q : Routine) : Generator Unit := change fun w => { w with pool := w.pool.set place q }

end Generator

open Generator

/-! ## The work -/

/-- pushes the base of the frame that holds what is denoted -/
def Reference.generate (v : Verbosity) (pos : Position) (r : Reference) : Generator Code :=
  match r.entry with
  | none => stop v (.unresolved pos r.name)
  | some e =>
    let hops := r.level - e.level
    if hops < 0 then stop v (.deeper pos r.name r.level e.level) else pure (.lfp :: copies hops .lw)

mutual

def Expr.generate (v : Verbosity) : Expr → Generator Code
  | .absent => stop v .codeOfAbsentExpr
  | .literal pos value => within v .literal value.text <|
    match value with
    | .int n => pure [pushInt n]
    | .bool b => pure [pushInt (if b then 1 else 0)]
    | .string s => stop v (.codeOfLiteral pos (.string s))
    | .absent => stop v (.codeOfLiteral pos .absent)
  | .ident pos r => within v .ident r.name do
    let frame ← r.generate v pos
    pure (frame ++ [pushInt r.offset, .add, .lw])
  | .call pos r args => within v .call r.name do
    let args ← Expr.generateArgs v args
    let frame ← r.generate v pos
    pure ([.lfp] ++ args ++ frame ++ [.stm, .ltm, .ltm, pushInt r.offset, .add, .lw, .js])
  | .cond _ test yes no => within v .cond "" do
    let onTrue ← newLabel
    let done ← newLabel
    let test ← test.generate v
    let no ← no.generate v
    let yes ← yes.generate v
    pure (test ++ [pushInt 1, .beq onTrue] ++ no ++ [.b done, .label onTrue] ++ yes ++ [.label done])
  | .binary pos op left right => within v .binary op.symbol <|
    match op with
    | .equal => do
      let onTrue ← newLabel
      let done ← newLabel
      let left ← left.generate v
      let right ← right.generate v
      pure (left ++ right ++ [.beq onTrue, pushInt 0, .b done, .label onTrue, pushInt 1, .label done])
    | .plus => do
      let left ← left.generate v
      let right ← right.generate v
      pure (left ++ right ++ [.add])
    | .times => do
      let left ← left.generate v
      let right ← right.generate v
      pure (left ++ right ++ [.mult])
    | .illegal c => stop v (.codeOfOperator pos (.illegal c))
  | .print _ arg => within v .print "" do
    let arg ← arg.generate v
    pure (arg ++ [.print])

def Expr.generateArgs (v : Verbosity) : List Expr → Generator Code
  | [] => pure []
  | e :: es => do
    let later ← Expr.generateArgs v es
    let first ← e.generate v
    pure (later ++ first)

end

mutual

def Decl.generate (v : Verbosity) : Decl → Generator Code
  -- an absent declaration has no name to enter it by
  | .absent => stop v .dereference
  | .var _ name value => within v .var name (value.generate v)
  | .func pos name params decls body => within v .func name do
    let label ← newFunctionLabel
    -- enclosing functions have their place before those nested in them
    let place ← reserve ⟨pos, name, params, decls, body, label, []⟩
    let locals ← Decl.generateAll v decls
    let result ← body.generate v
    let q : Routine := ⟨pos, name, params, decls, body, label,
      [.label label, .cfp, .lra] ++ locals ++ result ++ [.stm] ++ List.replicate decls.length .pop ++ [.sra, .pop]
        ++ List.replicate params.length .pop ++ [.sfp, .ltm, .lra, .js]⟩
    fill place q
    note v (.finish q)
    pure [.push (.address label)]

def Decl.generateAll (v : Verbosity) : List Decl → Generator Code
  | [] => pure []
  | d :: ds => do
    let first ← d.generate v
    let later ← Decl.generateAll v ds
    pure (first ++ later)

end

/-- the code of the top level -/
def Root.generate (v : Verbosity) : Root → Generator Code
  | .absent => stop v .codeOfAbsentRoot
  | .letIn _ decls body => within v .letIn "" do
    let locals ← Decl.generateAll v decls
    let result ← body.generate v
    pure ([pushInt 0] ++ locals ++ result ++ [.halt])
  | .bare body => within v .bare "" do
    let result ← body.generate v
    pure (result ++ [.halt])

/-- what the work on a tree gives, and the log that it leaves -/
def Root.build (v : Verbosity) (r : Root) : Except Fault Program × List String :=
  match r.generate v ⟨.start, []⟩ with
  | .ok toplevel b => (.ok ⟨toplevel, b.work.pool⟩, b.log)
  | .error f b => (.error f, b.log)

/-! ## What a part of the work does -/

/-- the entries of events, up to the first fault -/
def Event.shown (v : Verbosity) (es : List Event) : List String :=
  (Event.untilFault es).filterMap (Event.entry? v)

theorem Event.untilFault_append_of_some {es : List Event} {f : Fault} (fs : List Event)
    (h : es.findSome? Event.fault? = some f) : Event.untilFault (es ++ fs) = Event.untilFault es := by
  induction es with
  | nil => cases h
  | cons e es ih =>
    cases e with
    | fault f => rfl
    | enter _ _ _ | finish _ => exact congrArg (List.cons _) (ih h)

theorem Event.shown_append {v : Verbosity} {es : List Event} (h : Faultless es) (fs : List Event) :
    Event.shown v (es ++ fs) = Event.shown v es ++ Event.shown v fs := by
  rw [Event.shown, h.untilFault_append, List.filterMap_append, Event.shown, Event.shown, h.untilFault_eq_self]

namespace Generator

variable {α β : Type} {v : Verbosity} {w w' w'' : Work} {es fs : List Event} {a : α} {b : β}

/-- from `w` on, `x` goes through `es`: without a fault it gives `a` and leaves `w'`, with one it stops at the first,
and either way it adds the entries of `es` to the log -/
structure Emits (v : Verbosity) (x : Generator α) (w : Work) (es : List Event) (a : α) (w' : Work) : Prop where
  gives : Faultless es → ∀ log, x ⟨w, log⟩ = .ok a ⟨w', log ++ Event.shown v es⟩
  stops : ∀ f, es.findSome? Event.fault? = some f →
    ∀ log, ∃ left, x ⟨w, log⟩ = .error f ⟨left, log ++ Event.shown v es⟩

theorem bind_of_ok {x : Generator α} {k : α → Generator β} {s t : Bench} (h : x s = .ok a t) :
    (x >>= k) s = k a t := by
  show EStateM.bind x k s = k a t
  rw [EStateM.bind, h]

theorem bind_of_error {x : Generator α} {k : α → Generator β} {s t : Bench} {f : Fault} (h : x s = .error f t) :
    (x >>= k) s = .error f t := by
  show EStateM.bind x k s = .error f t
  rw [EStateM.bind, h]

/-- a step that shows nothing -/
theorem Emits.silent {x : Generator α} (h : ∀ log, x ⟨w, log⟩ = .ok a ⟨w', log⟩) : Emits v x w [] a w' where
  gives := by
    intro _ log
    have hshown : log ++ Event.shown v [] = log := List.append_nil log
    rw [h log, hshown]
  stops := by
    rintro f ⟨⟩

theorem Emits.pure (a : α) (w : Work) : Emits v (pure a) w [] a w := Emits.silent fun _ => rfl

theorem Emits.look (w : Work) : Emits v look w [] w w := Emits.silent fun _ => rfl

theorem Emits.change (f : Work → Work) (w : Work) : Emits v (change f) w [] () (f w) := Emits.silent fun _ => rfl

theorem Emits.bind {x : Generator α} {k : α → Generator β} (hx : Emits v x w es a w')
    (hk : Emits v (k a) w' fs b w'') : Emits v (x >>= k) w (es ++ fs) b w'' where
  gives := by
    intro h log
    obtain ⟨hes, hfs⟩ := (faultless_append es fs).1 h
    rw [bind_of_ok (hx.gives hes log), hk.gives hfs, Event.shown_append hes, List.append_assoc]
  stops := by
    intro f h log
    rw [List.findSome?_append] at h
    cases hes : es.findSome? Event.fault? with
    | some g =>
      rw [hes, Option.some_or] at h
      obtain ⟨left, hstop⟩ := hx.stops g hes log
      refine ⟨left, ?_⟩
      rw [bind_of_error hstop, Option.some.inj h, Event.shown, Event.shown, Event.untilFault_append_of_some fs hes]
    | none =>
      rw [hes, Option.none_or] at h
      obtain ⟨left, hstop⟩ := hk.stops f h (log ++ Event.shown v es)
      refine ⟨left, ?_⟩
      have hfaultless : Faultless es := List.findSome?_eq_none_iff.1 hes
      rw [bind_of_ok (hx.gives hfaultless log), hstop, Event.shown_append hfaultless, List.append_assoc]

theorem Emits.bind_pure {x : Generator α} (hx : Emits v x w es a w') (f : α → β) :
    Emits v (x >>= fun a => Pure.pure (f a)) w es (f a) w' := by
  have h := hx.bind (k := fun a => Pure.pure (f a)) (Emits.pure (f a) w')
  rwa [List.append_nil] at h

/-- what stands after a fault is never reached -/
theorem Emits.stop (f : Fault) (rest : List Event) (a : α) (w w' : Work) :
    Emits v (stop v f) w (.fault f :: rest) a w' where
  gives := fun h => absurd h (not_faultless_fault f rest)
  stops := by
    rintro _ ⟨⟩ log
    refine ⟨w, ?_⟩
    have hshown : Event.shown v (.fault f :: rest) = (Event.entry? v (.fault f)).toList := by
      cases h : Event.entry? v (.fault f) <;> simp [Event.shown, Event.untilFault, h]
    rw [hshown]
    rfl

theorem Emits.note {e : Event} (h : e.fault? = none) (w : Work) : Emits v (note v e) w [e] () w where
  gives := by
    intro _ log
    have hshown : Event.shown v [e] = (Event.entry? v e).toList := by
      rw [Event.shown, Faultless.untilFault_eq_self (by simp [h])]
      cases h : e.entry? v <;> simp [h]
    rw [hshown]
    rfl
  stops := by
    intro f hf
    simp [h] at hf

theorem Emits.congr {x : Generator α} {fs : List Event} {b : α} (h : Emits v x w es a w') (hes : es = fs) (ha : a = b)
    (hw : w' = w'') : Emits v x w fs b w'' := by
  subst hes ha hw
  exact h

end Generator

/-! ## Depth -/

namespace Work

variable {v : Verbosity} {w : Work} {depth : Nat}

/-- between entering a node and leaving it -/
def below (v : Verbosity) (w : Work) : Work := if v.trace then { w with depth := w.depth + 1 } else w

/-- the depth that is counted is that of the node, if any is counted -/
def IsAt (v : Verbosity) (w : Work) (depth : Nat) : Prop := v.trace = true → w.depth = depth

theorem IsAt.below (h : w.IsAt v depth) : (w.below v).IsAt v (depth + 1) := by
  intro hv
  rw [Work.below, if_pos hv, h hv]

theorem counters_below : (w.below v).counters = w.counters := by
  unfold Work.below
  split <;> rfl

theorem below_extend (m n : Nat) (qs : List Routine) :
    (w.extend m n qs).below v = (w.below v).extend m n qs := by
  unfold Work.below
  split <;> rfl

theorem IsAt.extend (h : w.IsAt v depth) (m n : Nat) (qs : List Routine) : (w.extend m n qs).IsAt v depth := h

@[simp] theorem labels_extend (m n : Nat) (qs : List Routine) :
    (w.extend m n qs).counters.labels = w.counters.labels + m := rfl

@[simp] theorem extend_zero : w.extend 0 0 [] = w := by
  simp [Work.extend]

@[simp] theorem extend_extend (m n m' n' : Nat) (qs qs' : List Routine) :
    (w.extend m n qs).extend m' n' qs' = w.extend (m + m') (n + n') (qs ++ qs') := by
  simp [Work.extend, Nat.add_assoc]

end Work

namespace Generator

variable {α β : Type} {v : Verbosity} {w w' w'' : Work} {es fs : List Event} {a : α} {depth : Nat}

theorem Emits.enter (h : w.IsAt v depth) (kind : NodeKind) (detail : String) :
    Emits v (enter v kind detail) w [.enter depth kind detail] () (w.below v) := by
  -- the depth is not counted if the node is not shown, and then it does not matter which one is said
  have hnote : Emits v (Generator.note v (.enter w.depth kind detail)) w [.enter depth kind detail] () w := by
    cases hv : v.trace with
    | true =>
      rw [h hv]
      exact Emits.note rfl w
    | false =>
      have hentry : Event.entry? v (.enter w.depth kind detail) = Event.entry? v (.enter depth kind detail) := by
        simp [ Event.entry?, hv]
      have hsame : Generator.note v (.enter w.depth kind detail) = Generator.note v (.enter depth kind detail) := by
        simp only [Generator.note, hentry]
      rw [hsame]
      exact Emits.note rfl w
  refine (Emits.look w).bind (hnote.bind ?_)
  by_cases hv : v.trace = true
  · rw [Work.below, if_pos hv, if_pos hv]
    exact Emits.change _ w
  · rw [Work.below, if_neg hv, if_neg hv]
    exact Emits.pure () w

theorem Emits.leave (w : Work) : Emits v (leave v) (w.below v) [] () w := by
  by_cases hv : v.trace = true
  · rw [Generator.leave, Work.below, if_pos hv, if_pos hv]
    exact Emits.change _ _
  · rw [Generator.leave, Work.below, if_neg hv, if_neg hv]
    exact Emits.pure () w

/-- the depth is counted down as often as it was counted up, so that the work on a node may be described without it -/
theorem Emits.within {x : Generator α} {m n : Nat} {qs : List Routine} (hw : w.IsAt v depth) (kind : NodeKind)
    (detail : String)
    (hx : ∀ u : Work, u.IsAt v (depth + 1) → u.counters = w.counters → Emits v x u es a (u.extend m n qs)) :
    Emits v (within v kind detail x) w (.enter depth kind detail :: es) a (w.extend m n qs) := by
  have hbelow := hx (w.below v) hw.below Work.counters_below
  rw [← Work.below_extend] at hbelow
  have hleave := (Emits.leave (v := v) (w.extend m n qs)).bind_pure fun _ => a
  exact Emits.congr ((Emits.enter hw kind detail).bind (hbelow.bind hleave)) (by simp) rfl rfl

end Generator

/-! ## The work on expressions -/

theorem Generator.Emits.newLabel {v : Verbosity} (w : Work) :
    Emits v newLabel w [] (.control w.counters.labels) (w.extend 1 0 []) :=
  (Emits.look w).bind ((Emits.change _ w).bind_pure _)

theorem Generator.Emits.secondLabel {v : Verbosity} (w : Work) :
    Emits v Generator.newLabel (w.extend 1 0 []) [] (.control (w.counters.labels + 1)) (w.extend 2 0 []) :=
  Emits.congr (Emits.newLabel _) rfl rfl (Work.extend_extend 1 0 1 0 [] [])

theorem Reference.emits {v : Verbosity} (pos : Position) (r : Reference) (w : Work) :
    Emits v (r.generate v pos) w (r.faults pos) r.frame w := by
  unfold Reference.generate Reference.faults Reference.frame
  cases he : r.entry with
  | none => exact Emits.stop _ [] _ w w
  | some e =>
    have hhops : r.hops = r.level - e.level := by simp [Reference.hops, he]
    by_cases h : r.level - e.level < 0
    · simp only [hhops, if_pos h]
      exact Emits.stop _ [] _ w w
    · simp only [hhops, if_neg h]
      exact Emits.pure _ w

mutual

/-- the labels that an expression takes are those that it is told to start from -/
theorem Expr.emits {v : Verbosity} {depth : Nat} (e : Expr) {w : Work} (hw : w.IsAt v depth) :
    Emits v (e.generate v) w (e.events depth) (e.code w.counters.labels) (w.extend e.labelCount 0 []) := by
  cases e with
  | absent => exact Emits.stop _ [] _ w _
  | literal p value =>
    refine Emits.within hw .literal value.text fun u _ hc => ?_
    cases value with
    | int n | bool b => exact Emits.congr (Emits.pure _ u) rfl rfl Work.extend_zero.symm
    | string s => exact Emits.stop _ [] _ u _
    | absent => exact Emits.stop _ [] _ u _
  | ident p r =>
    refine Emits.within hw .ident r.name fun u _ hc => ?_
    exact Emits.congr ((r.emits p u).bind_pure _) rfl rfl Work.extend_zero.symm
  | call p r args =>
    refine Emits.within hw .call r.name fun u hu hc => ?_
    rw [← hc]
    exact (Expr.emitsArgs args hu).bind ((r.emits p _).bind_pure _)
  | cond p test yes no =>
    refine Emits.within hw .cond "" fun u hu hc => ?_
    rw [← hc]
    have hat := hu.extend 2 0 []
    have htest := test.emits hat
    have hno := no.emits (hat.extend test.labelCount 0 [])
    have hyes := yes.emits ((hat.extend test.labelCount 0 []).extend no.labelCount 0 [])
    refine Emits.congr ((Emits.newLabel u).bind ((Emits.secondLabel u).bind
      (htest.bind (hno.bind (hyes.bind_pure _))))) (by simp) rfl ?_
    simp [Expr.labelCount]
  | binary p op left right =>
    refine Emits.within hw .binary op.symbol fun u hu hc => ?_
    rw [← hc]
    cases op with
    | equal =>
      have hat := hu.extend 2 0 []
      have hleft := left.emits hat
      have hright := right.emits (hat.extend left.labelCount 0 [])
      refine Emits.congr ((Emits.newLabel u).bind ((Emits.secondLabel u).bind
        (hleft.bind (hright.bind_pure _)))) rfl rfl ?_
      simp [Expr.labelCount]
    | plus | times =>
      have hleft := left.emits hu
      have hright := right.emits (hu.extend left.labelCount 0 [])
      refine Emits.congr (hleft.bind (hright.bind_pure _)) rfl rfl ?_
      simp [Expr.labelCount]
    | illegal c => exact Emits.stop _ _ _ u _
  | print p arg =>
    refine Emits.within hw .print "" fun u hu hc => ?_
    rw [← hc]
    exact (arg.emits hu).bind_pure _

theorem Expr.emitsArgs {v : Verbosity} {depth : Nat} (es : List Expr) {w : Work} (hw : w.IsAt v depth) :
    Emits v (Expr.generateArgs v es) w (Expr.argsEvents depth es) (Expr.argsCode w.counters.labels es)
      (w.extend (Expr.labelCountAll es) 0 []) := by
  cases es with
  | nil => exact Emits.congr (Emits.pure [] w) rfl rfl Work.extend_zero.symm
  | cons e es =>
    have hlater := Expr.emitsArgs es hw
    have hfirst := e.emits (hw.extend (Expr.labelCountAll es) 0 [])
    refine Emits.congr (hlater.bind (hfirst.bind_pure _)) rfl rfl ?_
    rw [Work.extend_extend, Nat.add_comm, Expr.labelCountAll]
    rfl

end

/-! ## The work on declarations -/

section Places

variable {v : Verbosity}

theorem Generator.Emits.newFunctionLabel (w : Work) :
    Emits v newFunctionLabel w [] (.function w.counters.functions) (w.extend 0 1 []) :=
  (Emits.look w).bind ((Emits.change _ w).bind_pure _)

theorem Generator.Emits.reserve (w : Work) (q : Routine) :
    Emits v (reserve q) w [] w.pool.length (w.extend 0 0 [q]) :=
  (Emits.look w).bind ((Emits.change _ w).bind_pure _)

/-- what has come into the pool since a place was taken stays after it -/
theorem Generator.Emits.fill (w : Work) (m n : Nat) (blank q : Routine) (qs : List Routine) :
    Emits v (fill w.pool.length q) (w.extend m n (blank :: qs)) [] () (w.extend m n (q :: qs)) := by
  refine Emits.congr (Emits.change _ _) rfl rfl ?_
  simp [Work.extend]

end Places

mutual

theorem Decl.emits {v : Verbosity} {depth : Nat} (d : Decl) {w : Work} (hw : w.IsAt v depth) :
    Emits v (d.generate v) w (d.events w.counters depth) (d.code w.counters)
      (w.extend d.labelCount d.functionCount (d.routines w.counters)) := by
  cases d with
  | absent => exact Emits.stop _ [] _ w _
  | var p name value =>
    refine Emits.within hw .var name fun u hu hc => ?_
    rw [← hc]
    exact value.emits hu
  | func p name params decls body =>
    refine Emits.within hw .func name fun u hu hc => ?_
    rw [← hc]
    let outer := u.extend 0 1 []
    let blank : Routine := ⟨p, name, params, decls, body, .function u.counters.functions, []⟩
    let nested := Decl.routinesAll u.counters.inside decls
    have hat := (hu.extend 0 1 []).extend 0 0 [blank]
    have hdecls := Decl.emitsAll decls hat
    have hbody := body.emits (hat.extend (Decl.labelCountAll decls) (Decl.functionCountAll decls) nested)
    -- the place that was taken first is followed by the nested functions
    have hleft : (((outer.extend 0 0 [blank]).extend (Decl.labelCountAll decls) (Decl.functionCountAll decls)
        nested).extend body.labelCount 0 []) = outer.extend (Decl.labelCountAll decls + body.labelCount)
          (Decl.functionCountAll decls) (blank :: nested) := by simp
    refine Emits.congr ((Emits.newFunctionLabel u).bind ((Emits.reserve outer blank).bind (hdecls.bind
      ((Emits.congr hbody rfl rfl hleft).bind ((Emits.fill outer _ _ blank _ nested).bind
        ((Emits.note rfl _).bind_pure _)))))) ?_ rfl ?_
    · exact (List.append_assoc (Decl.eventsAll u.counters.inside (depth + 1) decls) (body.events (depth + 1))
        [.finish (Routine.make u.counters p name params decls body)]).symm
    · rw [Work.extend_extend, Nat.zero_add]
      rfl

theorem Decl.emitsAll {v : Verbosity} {depth : Nat} (ds : List Decl) {w : Work} (hw : w.IsAt v depth) :
    Emits v (Decl.generateAll v ds) w (Decl.eventsAll w.counters depth ds) (Decl.codeAll w.counters ds)
      (w.extend (Decl.labelCountAll ds) (Decl.functionCountAll ds) (Decl.routinesAll w.counters ds)) := by
  cases ds with
  | nil => exact Emits.congr (Emits.pure [] w) rfl rfl Work.extend_zero.symm
  | cons d ds =>
    have hlater := Decl.emitsAll ds (hw.extend d.labelCount d.functionCount (d.routines w.counters))
    refine Emits.congr ((d.emits hw).bind (hlater.bind_pure _)) rfl rfl ?_
    rw [Work.extend_extend]
    rfl

end

/-! ## The work on a tree -/

theorem Root.emits (v : Verbosity) (r : Root) :
    ∃ m n, Emits v (r.generate v) .start r.events r.program.toplevel (Work.start.extend m n r.program.routines) := by
  have hat : Work.start.IsAt v 0 := fun _ => rfl
  cases r with
  | absent => exact ⟨0, 0, Emits.stop _ [] _ _ _⟩
  | letIn p decls body =>
    refine ⟨Decl.labelCountAll decls + body.labelCount, Decl.functionCountAll decls,
      Emits.within hat .letIn "" fun u hu hc => ?_⟩
    have hdecls := Decl.emitsAll decls hu
    have hbody := body.emits (hu.extend (Decl.labelCountAll decls) (Decl.functionCountAll decls)
      (Decl.routinesAll u.counters decls))
    rw [Work.extend_extend, List.append_nil, Work.labels_extend, hc] at hbody
    rw [hc] at hdecls
    refine Emits.congr (hdecls.bind (hbody.bind_pure _)) rfl ?_ rfl
    rw [show Work.start.counters.labels = 0 from rfl, Nat.zero_add]
    rfl
  | bare body =>
    refine ⟨body.labelCount, 0, Emits.within hat .bare "" fun u hu hc => ?_⟩
    have hbody := body.emits hu
    rw [hc] at hbody
    exact hbody.bind_pure _

/-- **What is shown changes nothing.** The work gives the program or the first fault, and leaves the log up to there. -/
theorem Root.build_eq (v : Verbosity) (r : Root) : r.build v = (r.compile, r.logEntries v) := by
  obtain ⟨m, n, hemits⟩ := r.emits v
  unfold Root.build Root.compile
  cases h : r.events.findSome? Event.fault? with
  | none =>
    rw [hemits.gives (List.findSome?_eq_none_iff.1 h) []]
    rfl
  | some f =>
    obtain ⟨left, hstops⟩ := hemits.stops f h []
    rw [hstops]
    rfl

end LetStack

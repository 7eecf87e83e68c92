/-
Code taken from its end.

A run need not end, so what is shown of a state is that the next n steps keep the access links, for every n: the state
is safe for n steps. A piece of code is then taken from its end: if what comes after it is safe to continue with from
the states it leads to, the piece is safe to continue with from the states before it. `Continues` says that of the
states with a property, and there is one rule for each kind of instruction.

Two properties occur most. `t₀.Above k` is that k words have been pushed since `t₀`, whatever they are, and
`t₀.Over ws` that these are the words `ws`; in both, all that was on the stack in `t₀` is unchanged, and so are the
frame and the activations.
-/
import LetStack.Proofs.Activation

namespace LetStack

/-! ## What instructions do to the stack -/

/-- `taken` words are taken off the stack and `pushed` words pushed, and it goes on with the next instruction -/
structure Machine.Moves (taken pushed : Nat) (m m' : Machine) : Prop where
  ip : m'.ip = m.ip + 1
  sp : m'.sp = m.sp + taken - pushed
  fp : m'.fp = m.fp
  kept : ∀ a, m.sp + taken ≤ a → m'.mem a = m.mem a

/-- how many words an instruction takes off the stack and pushes, if that is all it does besides setting ra or tm -/
def Instr.effect? : Instr → Option (Nat × Nat)
  | .label _ => some (0, 0)
  | .push _ | .lfp | .lra | .ltm => some (0, 1)
  | .pop | .sra | .stm => some (1, 0)
  | .lw | .print => some (1, 1)
  | .add | .mult => some (2, 1)
  | .beq _ | .b _ | .js | .halt | .cfp | .sfp => none

theorem Machine.moves_push (m : Machine) (taken : Nat) (w : Int) : m.Moves taken 1 ((m.next.drop taken).push w) where
  ip := rfl
  sp := rfl
  fp := rfl
  kept := by
    intro a ha
    have hne : a ≠ m.sp + taken - 1 := by omega
    simp [hne]

theorem Instr.moves {code : Code} {i : Instr} {taken pushed : Nat} {m m' : Machine}
    (h : i.effect? = some (taken, pushed)) (hrun : i.run code m = some m') : m.Moves taken pushed m' := by
  have hpush : ∀ w, m.Moves 0 1 (m.next.push w) := by
    intro w
    have hmoves := m.moves_push 0 w
    rwa [Machine.drop_zero] at hmoves
  cases i with
  | push v =>
    cases h
    obtain ⟨w, -, rfl⟩ := Option.map_eq_some_iff.1 hrun
    exact hpush w
  | lfp | lra | ltm =>
    cases h
    cases hrun
    exact hpush _
  | lw | add | mult =>
    cases h
    cases hrun
    exact m.moves_push _ _
  | label l =>
    cases h
    cases hrun
    exact ⟨rfl, by simp, rfl, fun _ _ => rfl⟩
  | print =>
    cases h
    cases hrun
    exact ⟨rfl, by simp, rfl, fun _ _ => rfl⟩
  | pop | sra | stm =>
    cases h
    cases hrun
    exact ⟨rfl, by simp, rfl, fun _ _ => rfl⟩
  | beq l | b l | js | halt | cfp | sfp => cases h

/-! ## Safe states -/

/-- the next `n` steps keep the links -/
def Tracked.Safe (code : Code) (sites : Sites) : Nat → Tracked → Prop
  | 0, _ => True
  | n + 1, t => ∀ t', t.step code = some t' → t.LinksAt code sites t' ∧ Tracked.Safe code sites n t'

namespace Tracked.Safe

variable {code : Code} {sites : Sites} {n : Nat} {t t' : Tracked} {i : Instr} {m : Machine}

theorem pred (h : t.Safe code sites (n + 1)) : t.Safe code sites n := by
  induction n generalizing t with
  | zero => trivial
  | succ n ih =>
    intro t' hstep
    obtain ⟨hlinks, hsafe⟩ := h t' hstep
    exact ⟨hlinks, ih hsafe⟩

theorem of_reaches (h : Reaches code t t') (hsafe : ∀ n, t.Safe code sites n) (n : Nat) : t'.Safe code sites n := by
  induction h generalizing n with
  | refl => exact hsafe n
  | tail _ hstep ih => exact (ih (n + 1) _ hstep).2

/-- an instruction other than `cfp` sets no link -/
theorem of_step (hi : code[t.machine.ip]? = some i) (hcfp : i ≠ .cfp)
    (h : ∀ m, i.run code t.machine = some m → Safe code sites n ⟨m, t.activeAfter code i⟩) :
    t.Safe code sites (n + 1) := by
  intro t' hstep
  rw [step_eq hi] at hstep
  obtain ⟨m, hm, rfl⟩ := Option.map_eq_some_iff.1 hstep
  refine ⟨fun scope l j _ hblock hj => ?_, h m hm⟩
  rw [hj, hblock.tail.head] at hi
  exact absurd (Option.some.inj hi).symm hcfp

/-- an instruction other than `cfp` and `sfp` leaves the activations too -/
theorem of_quiet (hi : code[t.machine.ip]? = some i) (hcfp : i ≠ .cfp) (hsfp : i ≠ .sfp)
    (h : ∀ m, i.run code t.machine = some m → Safe code sites n ⟨m, t.active⟩) : t.Safe code sites (n + 1) := by
  have hactive : t.activeAfter code i = t.active := by
    cases i with
    | cfp => exact absurd rfl hcfp
    | sfp => exact absurd rfl hsfp
    | _ => rfl
  refine of_step hi hcfp fun m hm => ?_
  rw [hactive]
  exact h m hm

theorem quiet (hi : code[t.machine.ip]? = some i) (hcfp : i ≠ .cfp) (hsfp : i ≠ .sfp)
    (h : ∀ m, i.run code t.machine = some m → Safe code sites n ⟨m, t.active⟩) : t.Safe code sites n :=
  (of_quiet hi hcfp hsfp h).pred

/-- the block of a function begins with the link on top -/
theorem cfp {scope : Option Label} {l : Label} {a : Nat} (hsites : sites.Unique) (hsite : (scope, l) ∈ sites)
    (hblock : code.Holds a [.label l, .cfp]) (hip : t.machine.ip = a + 1) (hlink : ⟨scope, t.machine.top⟩ ∈ t.active)
    (h : Safe code sites n ⟨{ t.machine.next with fp := t.machine.sp }, ⟨some l, t.machine.sp⟩ :: t.active⟩) :
    t.Safe code sites n := by
  refine pred fun t' hstep => ?_
  have hcfp : code[t.machine.ip]? = some .cfp := by
    rw [hip]
    exact hblock.tail.head
  have hbefore : code.labelBefore? t.machine.ip = some l := by
    rw [Code.labelBefore?, hip, Nat.add_sub_cancel, hblock.head]
  rw [step_eq hcfp, Instr.run, Option.map_some, activeAfter, hbefore] at hstep
  obtain rfl := Option.some.inj hstep
  refine ⟨fun scope' l' j hsite' hblock' hj => ?_, h⟩
  obtain rfl : j = a := by omega
  obtain rfl : l' = l := by
    have heq := hblock'.head.symm.trans hblock.head
    simpa using heq
  obtain rfl := hsites scope scope' l' hsite hsite'
  exact ⟨⟨scope, t.machine.top⟩, List.mem_cons_of_mem _ hlink, rfl, rfl⟩

end Tracked.Safe

/-! ## Code that is safe to continue with -/

/-- the states with `P` where `rest` comes next are safe -/
def Continues (code : Code) (sites : Sites) (n : Nat) (P : Tracked → Prop) (rest : Code) : Prop :=
  ∀ t, P t → code.Holds t.machine.ip rest → t.Safe code sites n

/-- `k` words have been pushed since `t₀`; what was on the stack then, the frame and the activations are the same -/
structure Tracked.Above (t₀ : Tracked) (k : Nat) (t : Tracked) : Prop where
  sp : t.machine.sp = t₀.machine.sp - k
  fp : t.machine.fp = t₀.machine.fp
  active : t.active = t₀.active
  kept : ∀ a, t₀.machine.sp ≤ a → t.machine.mem a = t₀.machine.mem a

namespace Tracked.Above

variable {t₀ t t' : Tracked} {k j taken pushed : Nat} {m : Machine}

theorem refl (t : Tracked) : t.Above 0 t := ⟨by simp, rfl, rfl, fun _ _ => rfl⟩

theorem trans (h : t₀.Above k t) (h' : t.Above j t') : t₀.Above (k + j) t' where
  sp := by
    rw [h'.sp, h.sp]
    omega
  fp := h'.fp.trans h.fp
  active := h'.active.trans h.active
  kept := by
    intro a ha
    have hsp := h.sp
    rw [h'.kept a (by omega), h.kept a ha]

theorem sp_le (h : t₀.Above k t) : t.machine.sp ≤ t₀.machine.sp := by
  rw [h.sp]
  omega

theorem active_subset (h : t₀.Above k t) : t₀.active ⊆ t.active := by
  rw [h.active]
  exact List.Subset.refl _

theorem top (h : t₀.Above 0 t) : t.machine.top = t₀.machine.top := by
  have hsp := h.sp
  rw [Nat.cast_zero, Int.sub_zero] at hsp
  rw [Machine.top, hsp]
  exact h.kept _ le_rfl

/-- taking off only what has been pushed -/
theorem moves (h : t₀.Above (k + taken) t) (hm : t.machine.Moves taken pushed m) :
    t₀.Above (k + pushed) ⟨m, t.active⟩ where
  sp := by
    rw [hm.sp, h.sp]
    omega
  fp := hm.fp.trans h.fp
  active := h.active
  kept := by
    intro a ha
    have hsp := h.sp
    rw [hm.kept a (by omega), h.kept a ha]

end Tracked.Above

/-- the words `ws` have been pushed since `t₀`; the last one, on top, is listed first -/
structure Tracked.Over (t₀ : Tracked) (ws : List Int) (t : Tracked) : Prop extends t₀.Above ws.length t where
  word : ∀ (i : Nat) (w : Int), ws[i]? = some w → t.machine.mem (t.machine.sp + i) = w

namespace Tracked.Over

variable {t₀ t : Tracked} {ws : List Int} {v w : Int}

theorem refl (t : Tracked) : t.Over [] t where
  toAbove := .refl t
  word := by simp

theorem top (h : t₀.Over (w :: ws) t) : t.machine.top = w := by
  have hw := h.word 0 w rfl
  rwa [Nat.cast_zero, Int.add_zero] at hw

theorem second (h : t₀.Over (w :: v :: ws) t) : t.machine.second = v := h.word 1 v rfl

/-- an instruction that takes words off and pushes one -/
theorem replace (old : List Int) (h : t₀.Over (old ++ ws) t) (w : Int) :
    t₀.Over (w :: ws) ⟨(t.machine.next.drop old.length).push w, t.active⟩ where
  toAbove := by
    have habove := h.toAbove
    rw [List.length_append, Nat.add_comm] at habove
    exact habove.moves (t.machine.moves_push old.length w)
  word := by
    intro i x hi
    cases i with
    | zero =>
      obtain rfl := Option.some.inj hi
      simp
    | succ i =>
      have hx := h.word (old.length + i) x (by rwa [List.getElem?_append_right (by omega), Nat.add_sub_cancel_left])
      rw [← hx, (t.machine.moves_push old.length w).kept]
      · rw [(t.machine.moves_push old.length w).sp]
        congr 1
        push_cast
        omega
      · rw [(t.machine.moves_push old.length w).sp]
        push_cast
        omega

theorem push (h : t₀.Over ws t) (w : Int) : t₀.Over (w :: ws) ⟨t.machine.next.push w, t.active⟩ := by
  rw [← t.machine.next.drop_zero]
  exact replace [] h w

end Tracked.Over

namespace Continues

variable {code rest : Code} {sites : Sites} {n k : Nat} {P Q : Tracked → Prop} {t₀ : Tracked} {i : Instr}

theorem quiet (h : Continues code sites n Q rest) (hcfp : i ≠ .cfp) (hsfp : i ≠ .sfp)
    (hstep : ∀ t m, P t → i.run code t.machine = some m → m.ip = t.machine.ip + 1 ∧ Q ⟨m, t.active⟩) :
    Continues code sites n P (i :: rest) := by
  intro t ht hat
  apply Tracked.Safe.quiet hat.head hcfp hsfp
  intro m hm
  obtain ⟨hip, hQ⟩ := hstep t m ht hm
  apply h _ hQ
  rw [hip]
  exact hat.tail

theorem instr (taken pushed : Nat) (h : Continues code sites n (t₀.Above (k + pushed)) rest)
    (heffect : i.effect? = some (taken, pushed)) : Continues code sites n (t₀.Above (k + taken)) (i :: rest) := by
  refine h.quiet ?_ ?_ fun t m ht hm => ?_
  · rintro rfl
    cases heffect
  · rintro rfl
    cases heffect
  · have hmoves := Instr.moves heffect hm
    exact ⟨hmoves.ip, ht.moves hmoves⟩

theorem pops (h : Continues code sites n (t₀.Above k) rest) (j : Nat) :
    Continues code sites n (t₀.Above (k + j)) (List.replicate j Instr.pop ++ rest) := by
  induction j with
  | zero => exact h
  | succ j ih => exact ih.instr 1 0 rfl

theorem label (h : Continues code sites n (t₀.Above k) rest) (l : Label) :
    Continues code sites n (t₀.Above k) (.label l :: rest) :=
  h.instr 0 0 rfl

/-- a branch forward -/
theorem goto (h : Continues code sites n (t₀.Above k) rest) (hcode : code.LabelsDistinct) (l : Label) (mid : Code) :
    Continues code sites n (t₀.Above k) (.b l :: (mid ++ .label l :: rest)) := by
  intro t ht hat
  apply Tracked.Safe.quiet hat.head nofun nofun
  intro m hm
  have hlabel := hat.tail.right
  rw [Instr.run, hlabel.target hcode, Option.map_some] at hm
  obtain rfl := Option.some.inj hm
  exact h.label l _ ⟨ht.sp, ht.fp, ht.active, ht.kept⟩ hlabel

/-- two words decide between the code that follows and the code at a label further on -/
theorem branch (hcode : code.LabelsDistinct) (l : Label) (mid : Code)
    (hfall : Continues code sites n (t₀.Above k) (mid ++ .label l :: rest))
    (hjump : Continues code sites n (t₀.Above k) rest) :
    Continues code sites n (t₀.Above (k + 2)) (.beq l :: (mid ++ .label l :: rest)) := by
  intro t ht hat
  apply Tracked.Safe.quiet hat.head nofun nofun
  intro m hm
  have hlabel := hat.tail.right
  have hsp : t.machine.sp + 2 = t₀.machine.sp - k := by
    rw [ht.sp]
    omega
  rw [Instr.run, hlabel.target hcode, Option.map_some] at hm
  split_ifs at hm with heq
  · obtain rfl := Option.some.inj hm
    exact hjump.label l _ ⟨hsp, ht.fp, ht.active, ht.kept⟩ hlabel
  · obtain rfl := Option.some.inj hm
    exact hfall _ ⟨hsp, ht.fp, ht.active, ht.kept⟩ hat.tail

/-- an instruction that takes words off and pushes one -/
theorem replace (old : List Int) {ws : List Int} {w : Int} (h : Continues code sites n (t₀.Over (w :: ws)) rest)
    (hcfp : i ≠ .cfp) (hsfp : i ≠ .sfp)
    (hrun : ∀ t, t₀.Over (old ++ ws) t → i.run code t.machine = some ((t.machine.next.drop old.length).push w)) :
    Continues code sites n (t₀.Over (old ++ ws)) (i :: rest) := by
  refine h.quiet hcfp hsfp fun t m ht hm => ?_
  rw [hrun t ht] at hm
  obtain rfl := Option.some.inj hm
  exact ⟨rfl, ht.replace old w⟩

theorem push {ws : List Int} {w : Int} (h : Continues code sites n (t₀.Over (w :: ws)) rest) (hcfp : i ≠ .cfp)
    (hsfp : i ≠ .sfp) (hrun : ∀ t, t₀.Over ws t → i.run code t.machine = some (t.machine.next.push w)) :
    Continues code sites n (t₀.Over ws) (i :: rest) := by
  rw [← List.nil_append ws]
  refine h.replace [] hcfp hsfp fun t ht => ?_
  rw [hrun t ht, List.length_nil, Machine.drop_zero]

/-- the word at an address that was on the stack before replaces the address -/
theorem load {ws : List Int} {w : Int} (h : Continues code sites n (t₀.Over (t₀.machine.mem w :: ws)) rest)
    (hkept : t₀.machine.sp ≤ w) : Continues code sites n (t₀.Over (w :: ws)) (.lw :: rest) := by
  refine h.replace [w] nofun nofun fun t ht => ?_
  rw [Instr.run, ht.top, ht.kept w hkept]
  rfl

theorem add {ws : List Int} {v w : Int} (h : Continues code sites n (t₀.Over ((v + w) :: ws)) rest) :
    Continues code sites n (t₀.Over (w :: v :: ws)) (.add :: rest) := by
  refine h.replace [w, v] nofun nofun fun t ht => ?_
  rw [Instr.run, ht.top, ht.second]
  rfl

/-- following `j` links that all lie on the stack -/
theorem loads {w : Int} {j : Nat} (h : Continues code sites n (t₀.Over [t₀.machine.mem^[j] w]) rest)
    (hlinks : ∀ i < j, t₀.machine.sp ≤ t₀.machine.mem^[i] w) :
    Continues code sites n (t₀.Over [w]) (List.replicate j Instr.lw ++ rest) := by
  induction j generalizing w with
  | zero => exact h
  | succ j ih =>
    have hloads := ih h fun i hi => hlinks (i + 1) (Nat.succ_lt_succ hi)
    exact hloads.load (hlinks 0 (Nat.succ_pos j))

end Continues

/-- to the address on top -/
theorem Tracked.Safe.js {code rest : Code} {sites : Sites} {n : Nat} {t₀ t : Tracked} {w : Int} {ws : List Int}
    (hover : t₀.Over (w :: ws) t)
    (hat : code.Holds t.machine.ip (.js :: rest))
    (h : ∀ t', t₀.Above ws.length t' → w = t'.machine.ip → t'.machine.ra = (t.machine.ip + 1 : Nat) →
      t'.Safe code sites n) : t.Safe code sites n := by
  refine quiet hat.head nofun nofun fun m hm => ?_
  rw [Instr.run, hover.top] at hm
  split_ifs at hm with hw
  obtain rfl := Option.some.inj hm
  refine h _ ⟨?_, hover.fp, hover.active, hover.kept⟩ (Int.toNat_of_nonneg hw).symm rfl
  have hsp := hover.sp
  rw [List.length_cons] at hsp
  simp only [Machine.drop_sp]
  omega

end LetStack

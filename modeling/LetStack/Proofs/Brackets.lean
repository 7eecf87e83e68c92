/-
What a traversal shows of a tree.

A visitor is called with each node that is shown, and once more when a node that it accepted is left. Read as brackets,
the first call opens what the last one closes. Nodes that look alike may stand in several places, so places have
addresses: the number of the part to go to, then of the part of that part, and so on. What is above a node is then a
shorter address, and source order is the order of addresses by their first difference.

A visitor that never stops may answer as it likes, by the node, by what it has seen, or by counting. Its answers are
written into the outline of the tree: `t` has each node with the answer to it, and for a node that is never shown any.

Results:
- `Outline.traverses_located`: which nodes are shown, in which order, and what stands between a node and its end;
- `Outline.calls_eq_thin`: passing over a node deletes what stands between it and its end, and that end;
- `traversal_brackets_the_unpruned_part`: all this of the calls that a visitor of a tree records.
-/
import LetStack.Proofs.Outline
import Mathlib.Data.List.ReduceOption

namespace LetStack

/-- where an item stands in an outline, from the whole down -/
abbrev Address := List Nat

namespace Outline

variable {α β : Type}

/-! ## Addresses -/

def item? : Address → Outline α → Option α
  | [], .node a _ => some a
  | i :: p, .node _ ts => ts[i]?.bind fun t => item? p t

/-- an address in the part with number `i`, as one in the whole -/
def within (i : Nat) (o : Address × α) : Address × α := (i :: o.1, o.2)

mutual

/-- the calls of a traversal that goes below the items that are accepted, each with the address of its item -/
def located (accepts : α → Bool) : Outline α → List (Option (Address × α))
  | .node a ts => some ([], a) :: if accepts a then locatedAll accepts 0 ts ++ [none] else []

/-- the calls for the parts from number `i` on -/
def locatedAll (accepts : α → Bool) (i : Nat) : List (Outline α) → List (Option (Address × α))
  | [] => []
  | t :: ts => (t.located accepts).map (Option.map (within i)) ++ locatedAll accepts (i + 1) ts

end

/-! ## Brackets -/

/-- an item that is accepted opens a bracket, and leaving it closes one -/
def weight (accepts : α → Bool) : Option α → Int
  | some a => if accepts a then 1 else 0
  | none => -1

/-- how many brackets are open after these calls -/
def height (accepts : α → Bool) (calls : List (Option α)) : Int := (calls.map (weight accepts)).sum

/-- no bracket is closed before it is opened, and in the end none is open -/
structure Balanced (accepts : α → Bool) (calls : List (Option α)) : Prop where
  height_eq : height accepts calls = 0
  height_nonneg : ∀ before, before <+: calls → 0 ≤ height accepts before

/-- a call for the item `a` at `p`, with all that is shown of what is below it. When it comes, what is open is what is
above it. If it is accepted, the calls for what is below follow, and then the one that closes it; if not, nothing is
shown of what is below. -/
structure Encloses (accepts : α → Bool) (calls : List (Option (Address × α))) (p : Address) (a : α) : Prop where
  accepted : accepts a = true → ∃ before inner after, calls = before ++ some (p, a) :: inner ++ none :: after ∧
    height (accepts ·.2) before = p.length ∧ Balanced (accepts ·.2) inner ∧
    ∀ q b, some (q, b) ∈ inner ↔ some (q, b) ∈ calls ∧ p <+: q ∧ q ≠ p
  rejected : accepts a = false → ∃ before after, calls = before ++ some (p, a) :: after ∧
    height (accepts ·.2) before = p.length ∧ ∀ q b, some (q, b) ∈ calls → p <+: q → q = p

/-- the calls of a traversal of `t`, with addresses -/
structure Traverses (accepts : α → Bool) (t : Outline α) (calls : List (Option (Address × α))) : Prop where
  /-- what is shown are the items below nothing that is rejected -/
  shown : ∀ p a, some (p, a) ∈ calls ↔
    t.item? p = some a ∧ ∀ q b, q <+: p → q ≠ p → t.item? q = some b → accepts b = true
  /-- each is shown once, before what is below it, and the parts in their order -/
  sorted : (calls.reduceOption.map Prod.fst).Pairwise (List.Lex (· < ·))
  encloses : ∀ p a, some (p, a) ∈ calls → Encloses accepts calls p a
  balanced : Balanced (accepts ·.2) calls
  /-- as many are left as are accepted -/
  left : calls.countP Option.isNone = calls.reduceOption.countP (accepts ·.2)

/-! ## Heights -/

section Height

variable {accepts : α → Bool}

@[simp] theorem height_nil : height accepts [] = 0 := rfl

@[simp] theorem height_cons (c : Option α) (cs : List (Option α)) :
    height accepts (c :: cs) = weight accepts c + height accepts cs := by
  simp [height]

@[simp] theorem height_append (cs ds : List (Option α)) :
    height accepts (cs ++ ds) = height accepts cs + height accepts ds := by
  simp [height]

/-- a height depends on what is accepted only -/
theorem height_map (f : β → α) (cs : List (Option β)) :
    height accepts (cs.map (Option.map f)) = height (fun b => accepts (f b)) cs := by
  rw [height, height, List.map_map]
  congr 1
  refine List.map_congr_left fun c _ => ?_
  cases c <;> rfl

theorem height_eq_sub (cs : List (Option α)) :
    height accepts cs = (cs.reduceOption.countP accepts : Int) - cs.countP Option.isNone := by
  induction cs with
  | nil => rfl
  | cons c cs ih =>
    rw [height_cons, ih]
    cases c with
    | none =>
      rw [List.reduceOption_cons_of_none, List.countP_cons_of_pos rfl, weight]
      omega
    | some a =>
      rw [List.reduceOption_cons_of_some, List.countP_cons_of_neg (p := Option.isNone) (by simp), weight,
        List.countP_cons]
      split_ifs <;> omega

namespace Balanced

theorem nil : Balanced accepts [] := ⟨rfl, fun before h => by rw [List.prefix_nil.1 h]; rfl⟩

theorem append {cs ds : List (Option α)} (hcs : Balanced accepts cs) (hds : Balanced accepts ds) :
    Balanced accepts (cs ++ ds) where
  height_eq := by rw [height_append, hcs.height_eq, hds.height_eq]; rfl
  height_nonneg before h := by
    rcases List.prefix_or_prefix_of_prefix h (List.prefix_append cs ds) with h' | ⟨before', rfl⟩
    · exact hcs.height_nonneg before h'
    · rw [height_append, hcs.height_eq, Int.zero_add]
      exact hds.height_nonneg before' ((List.prefix_append_right_inj cs).1 h)

theorem map {f : β → α} {cs : List (Option β)} (h : Balanced (fun b => accepts (f b)) cs) :
    Balanced accepts (cs.map (Option.map f)) where
  height_eq := by rw [height_map, h.height_eq]
  height_nonneg before hbefore := by
    rw [List.prefix_iff_eq_take, ← List.map_take] at hbefore
    rw [hbefore, height_map]
    exact h.height_nonneg _ (List.take_prefix _ cs)

/-- an item that is not accepted opens nothing -/
theorem single {a : α} (ha : accepts a = false) : Balanced accepts [some a] where
  height_eq := by simp [weight, ha]
  height_nonneg before h := by
    rcases List.prefix_cons_iff.1 h with rfl | ⟨before', rfl, h'⟩
    · rfl
    · rw [List.prefix_nil.1 h', height_cons, weight, ha]
      exact Int.le_refl 0

/-- an item that is accepted is closed after what it encloses -/
theorem enclose {cs : List (Option α)} (h : Balanced accepts cs) {a : α} (ha : accepts a = true) :
    Balanced accepts (some a :: (cs ++ [none])) where
  height_eq := by simp [weight, ha, h.height_eq]
  height_nonneg before hbefore := by
    rcases List.prefix_cons_iff.1 hbefore with rfl | ⟨before', rfl, h'⟩
    · rfl
    · rw [height_cons, weight, if_pos ha]
      rcases List.prefix_concat_iff.1 h' with rfl | h''
      · simp [weight, h.height_eq]
      · have := h.height_nonneg before' h''
        omega

end Balanced

end Height

/-! ## What is shown -/

section Located

variable {accepts : α → Bool}

theorem mem_map_within {i : Nat} {cs : List (Option (Address × α))} {p : Address} {a : α} :
    some (p, a) ∈ cs.map (Option.map (within i)) ↔ ∃ q, p = i :: q ∧ some (q, a) ∈ cs := by
  rw [List.mem_map]
  constructor
  · rintro ⟨c, hc, heq⟩
    obtain ⟨⟨q, b⟩, rfl, hwithin⟩ := Option.map_eq_some_iff.1 heq
    obtain ⟨rfl, rfl⟩ := Prod.mk.inj hwithin
    exact ⟨q, rfl, hc⟩
  · rintro ⟨q, rfl, hq⟩
    exact ⟨_, hq, rfl⟩

theorem mem_locatedAll {i : Nat} {ts : List (Outline α)} {p : Address} {a : α} :
    some (p, a) ∈ locatedAll accepts i ts ↔
      ∃ j q t, p = (i + j) :: q ∧ ts[j]? = some t ∧ some (q, a) ∈ t.located accepts := by
  induction ts generalizing i with
  | nil => simp [locatedAll]
  | cons t ts ih =>
    rw [locatedAll, List.mem_append, mem_map_within, ih]
    constructor
    · rintro (⟨q, rfl, hq⟩ | ⟨j, q, u, rfl, hu, hq⟩)
      · exact ⟨0, q, t, rfl, rfl, hq⟩
      · exact ⟨j + 1, q, u, by rw [Nat.add_right_comm, Nat.add_assoc], hu, hq⟩
    · rintro ⟨j, q, u, rfl, hu, hq⟩
      cases j with
      | zero =>
        obtain rfl := Option.some.inj hu
        exact .inl ⟨q, rfl, hq⟩
      | succ j => exact .inr ⟨j, q, u, by rw [Nat.add_right_comm, Nat.add_assoc], hu, hq⟩

theorem mem_located_nil {a b : α} {ts : List (Outline α)} :
    some ([], b) ∈ (node a ts).located accepts ↔ b = a := by
  rw [located, List.mem_cons]
  constructor
  · rintro (h | h)
    · exact (Prod.mk.inj (Option.some.inj h)).2
    · split_ifs at h
      · rcases List.mem_append.1 h with h | h
        · obtain ⟨j, q, t, hnil, -, -⟩ := mem_locatedAll.1 h
          cases hnil
        · cases List.mem_singleton.1 h
      · cases h
  · rintro rfl
    exact .inl rfl

theorem mem_located_cons {a b : α} {ts : List (Outline α)} {i : Nat} {p : Address} :
    some (i :: p, b) ∈ (node a ts).located accepts ↔
      accepts a = true ∧ ∃ t, ts[i]? = some t ∧ some (p, b) ∈ t.located accepts := by
  rw [located, List.mem_cons]
  constructor
  · rintro (h | h)
    · cases h
    · split_ifs at h with ha
      · rcases List.mem_append.1 h with h | h
        · obtain ⟨j, q, t, heq, ht, hq⟩ := mem_locatedAll.1 h
          rw [Nat.zero_add] at heq
          obtain ⟨rfl, rfl⟩ := List.cons.inj heq
          exact ⟨ha, t, ht, hq⟩
        · cases List.mem_singleton.1 h
      · cases h
  · rintro ⟨ha, t, ht, hp⟩
    rw [if_pos ha]
    refine .inr (List.mem_append_left _ (mem_locatedAll.2 ⟨i, p, t, ?_, ht, hp⟩))
    rw [Nat.zero_add]

/-- **What is shown** are the items below nothing that is rejected. -/
theorem mem_located {t : Outline α} {p : Address} {a : α} :
    some (p, a) ∈ t.located accepts ↔
      t.item? p = some a ∧ ∀ q b, q <+: p → q ≠ p → t.item? q = some b → accepts b = true := by
  induction p generalizing t with
  | nil =>
    obtain ⟨b, ts⟩ := t
    rw [mem_located_nil, item?, Option.some.injEq, eq_comm]
    refine (and_iff_left ?_).symm
    intro q b' hq hne
    exact absurd (List.prefix_nil.1 hq) hne
  | cons i p ih =>
    obtain ⟨b, ts⟩ := t
    rw [mem_located_cons, item?]
    constructor
    · rintro ⟨hb, t, ht, hp⟩
      obtain ⟨hitem, habove⟩ := ih.1 hp
      rw [ht]
      refine ⟨hitem, fun q c hq hne hc => ?_⟩
      rcases List.prefix_cons_iff.1 hq with rfl | ⟨q', rfl, hq'⟩
      · obtain rfl := Option.some.inj hc
        exact hb
      · rw [item?, ht] at hc
        exact habove q' c hq' (fun heq => hne (heq ▸ rfl)) hc
    · rintro ⟨hitem, habove⟩
      obtain ⟨t, ht, hitem⟩ := Option.bind_eq_some_iff.1 hitem
      refine ⟨habove [] b List.nil_prefix (List.cons_ne_nil i p).symm rfl, t, ht, ih.2 ⟨hitem, fun q c hq hne hc => ?_⟩⟩
      refine habove (i :: q) c ((List.prefix_cons_inj i).2 hq) (fun heq => hne (List.cons.inj heq).2) ?_
      rw [item?, ht]
      exact hc

/-! ## The order of what is shown -/

theorem addresses_within (i : Nat) (cs : List (Option (Address × α))) :
    (cs.map (Option.map (within i))).reduceOption.map Prod.fst = (cs.reduceOption.map Prod.fst).map (i :: ·) := by
  rw [List.reduceOption_map, List.map_map, List.map_map]
  rfl

theorem le_of_mem_locatedAll {i : Nat} {ts : List (Outline α)} {p : Address}
    (h : p ∈ (locatedAll accepts i ts).reduceOption.map Prod.fst) : ∃ j q, p = j :: q ∧ i ≤ j := by
  obtain ⟨⟨p, a⟩, ho, rfl⟩ := List.mem_map.1 h
  obtain ⟨j, q, t, rfl, -, -⟩ := mem_locatedAll.1 (List.reduceOption_mem_iff.1 ho)
  exact ⟨i + j, q, rfl, Nat.le_add_right i j⟩

mutual

theorem sorted_located (t : Outline α) :
    ((t.located accepts).reduceOption.map Prod.fst).Pairwise (List.Lex (· < ·)) := by
  cases t with
  | node a ts =>
    have hparts := sorted_locatedAll 0 ts
    rw [located, List.reduceOption_cons_of_some, List.map_cons, List.pairwise_cons]
    split_ifs
    · rw [List.reduceOption_append, List.reduceOption_cons_of_none, List.reduceOption_nil, List.append_nil]
      refine ⟨fun p hp => ?_, hparts⟩
      obtain ⟨j, q, rfl, -⟩ := le_of_mem_locatedAll hp
      exact .nil
    · exact ⟨fun p hp => absurd hp List.not_mem_nil, .nil⟩

theorem sorted_locatedAll (i : Nat) (ts : List (Outline α)) :
    ((locatedAll accepts i ts).reduceOption.map Prod.fst).Pairwise (List.Lex (· < ·)) := by
  cases ts with
  | nil => exact .nil
  | cons t ts =>
    rw [locatedAll, List.reduceOption_append, List.map_append, addresses_within, List.pairwise_append]
    refine ⟨(sorted_located t).map _ fun p q hpq => .cons hpq, sorted_locatedAll (i + 1) ts, ?_⟩
    intro p hp p' hp'
    obtain ⟨q, -, rfl⟩ := List.mem_map.1 hp
    obtain ⟨j, q', rfl, hj⟩ := le_of_mem_locatedAll hp'
    exact .rel hj

end

/-! ## What stands between -/

theorem Balanced.within {cs : List (Option (Address × α))} (h : Balanced (accepts ·.2) cs) (i : Nat) :
    Balanced (accepts ·.2) (cs.map (Option.map (Outline.within i))) := .map h

mutual

theorem balanced_located (t : Outline α) : Balanced (accepts ·.2) (t.located accepts) := by
  cases t with
  | node a ts =>
    rw [located]
    cases ha : accepts a with
    | true => exact (balanced_locatedAll 0 ts).enclose (a := ([], a)) ha
    | false => exact .single ha

theorem balanced_locatedAll (i : Nat) (ts : List (Outline α)) :
    Balanced (accepts ·.2) (locatedAll accepts i ts) := by
  cases ts with
  | nil => exact .nil
  | cons t ts => exact (balanced_located t).within i |>.append (balanced_locatedAll (i + 1) ts)

end

/-- the calls for a part stand together, and before them nothing is left open -/
theorem exists_locatedAll {i j : Nat} {ts : List (Outline α)} {t : Outline α} (h : ts[j]? = some t) :
    ∃ before after, locatedAll accepts i ts =
      before ++ (t.located accepts).map (Option.map (within (i + j))) ++ after ∧ height (accepts ·.2) before = 0 := by
  induction ts generalizing i j with
  | nil => cases h
  | cons u us ih =>
    cases j with
    | zero =>
      obtain rfl := Option.some.inj h
      exact ⟨[], locatedAll accepts (i + 1) us, rfl, rfl⟩
    | succ j =>
      obtain ⟨before, after, hsplit, hbefore⟩ := ih (i := i + 1) h
      refine ⟨(u.located accepts).map (Option.map (within i)) ++ before, after, ?_, ?_⟩
      · rw [locatedAll, hsplit, Nat.add_right_comm, Nat.add_assoc]
        simp only [List.append_assoc]
      · rw [height_append, hbefore, ((balanced_located u).within i).height_eq]
        rfl

/-- what encloses in a part encloses in the whole -/
theorem Encloses.within {a b : α} {ts : List (Outline α)} {t : Outline α} {i : Nat} {p : Address}
    (ha : accepts a = true) (ht : ts[i]? = some t) (h : Encloses accepts (t.located accepts) p b) :
    Encloses accepts ((node a ts).located accepts) (i :: p) b := by
  obtain ⟨front, back, hparts, hfront⟩ := exists_locatedAll (i := 0) ht
  rw [Nat.zero_add] at hparts
  have hcalls : (node a ts).located accepts =
      (some ([], a) :: front) ++ (t.located accepts).map (Option.map (Outline.within i)) ++ (back ++ [none]) := by
    rw [located, if_pos ha, hparts]
    simp only [List.append_assoc, List.cons_append]
  have hheight : ∀ before, height (accepts ·.2) before = p.length →
      height (accepts ·.2) ((some ([], a) :: front) ++ before.map (Option.map (Outline.within i))) =
        (i :: p).length := by
    intro before hbefore
    rw [height_append, height_cons, hfront, weight, if_pos ha, height_map, List.length_cons]
    have hsame : height (fun o => accepts (Outline.within i o).2) before = p.length := hbefore
    rw [hsame]
    omega
  constructor
  · intro hb
    obtain ⟨before, inner, after, hsplit, hbefore, hinner, hbelow⟩ := h.accepted hb
    refine ⟨_, inner.map (Option.map (Outline.within i)),
      after.map (Option.map (Outline.within i)) ++ (back ++ [none]), ?_, hheight before hbefore, hinner.within i,
      fun q c => ?_⟩
    · rw [hcalls, hsplit]
      simp only [List.map_append, List.map_cons, Option.map_some, Option.map_none, List.append_assoc, List.cons_append,
        Outline.within]
    · rw [mem_map_within]
      constructor
      · rintro ⟨q, rfl, hq⟩
        obtain ⟨hshown, hle, hne⟩ := (hbelow q c).1 hq
        refine ⟨mem_located_cons.2 ⟨ha, t, ht, hshown⟩, (List.prefix_cons_inj i).2 hle, ?_⟩
        exact fun heq => hne (List.cons.inj heq).2
      · rintro ⟨hshown, ⟨q, rfl⟩, hne⟩
        obtain ⟨-, t', ht', hshown⟩ := mem_located_cons.1 hshown
        obtain rfl := Option.some.inj (ht.symm.trans ht')
        exact ⟨p ++ q, rfl, (hbelow _ c).2 ⟨hshown, List.prefix_append p q, fun heq => hne (congrArg (i :: ·) heq)⟩⟩
  · intro hb
    obtain ⟨before, after, hsplit, hbefore, hnothing⟩ := h.rejected hb
    refine ⟨_, after.map (Option.map (Outline.within i)) ++ (back ++ [none]), ?_, hheight before hbefore, ?_⟩
    · rw [hcalls, hsplit]
      simp only [List.map_append, List.map_cons, Option.map_some, List.append_assoc, List.cons_append, Outline.within]
    · rintro q c hshown ⟨q, rfl⟩
      obtain ⟨-, t', ht', hshown⟩ := mem_located_cons.1 hshown
      obtain rfl := Option.some.inj (ht.symm.trans ht')
      exact congrArg (i :: ·) (hnothing _ c hshown (List.prefix_append p q))

theorem encloses_located {t : Outline α} {p : Address} {a : α} (h : some (p, a) ∈ t.located accepts) :
    Encloses accepts (t.located accepts) p a := by
  induction p generalizing t with
  | nil =>
    obtain ⟨b, ts⟩ := t
    obtain rfl := mem_located_nil.1 h
    constructor
    · intro ha
      refine ⟨[], locatedAll accepts 0 ts, [], by rw [located, if_pos ha]; rfl, rfl, balanced_locatedAll 0 ts, ?_⟩
      intro q c
      rw [located, if_pos ha, List.mem_cons, List.mem_append]
      constructor
      · intro hq
        obtain ⟨j, q', t, rfl, -, -⟩ := mem_locatedAll.1 hq
        exact ⟨.inr (.inl hq), List.nil_prefix, List.cons_ne_nil _ _⟩
      · rintro ⟨hq | hq | hq, -, hne⟩
        · exact absurd (Prod.mk.inj (Option.some.inj hq)).1 hne
        · exact hq
        · cases List.mem_singleton.1 hq
    · intro ha
      refine ⟨[], [], by rw [located, if_neg (by rw [ha]; exact Bool.false_ne_true)]; rfl, rfl, ?_⟩
      intro q c hq _
      cases q with
      | nil => rfl
      | cons i q =>
        rw [(mem_located_cons.1 hq).1] at ha
        cases ha
  | cons i p ih =>
    obtain ⟨b, ts⟩ := t
    obtain ⟨hb, t, ht, hp⟩ := mem_located_cons.1 h
    exact (ih hp).within hb ht

/-- **The calls of a traversal.** -/
theorem traverses_located (accepts : α → Bool) (t : Outline α) : t.Traverses accepts (t.located accepts) where
  shown _ _ := mem_located
  sorted := sorted_located t
  encloses _ _ := encloses_located
  balanced := balanced_located t
  left := by
    have hheight : height (accepts ·.2) (t.located accepts) = 0 := (balanced_located t).height_eq
    rw [height_eq_sub] at hheight
    omega

end Located

/-! ## Calls without addresses -/

section Calls

variable {accepts : α → Bool}

theorem map_snd_within (i : Nat) (cs : List (Option (Address × α))) :
    (cs.map (Option.map (within i))).map (Option.map Prod.snd) = cs.map (Option.map Prod.snd) := by
  rw [List.map_map]
  refine List.map_congr_left fun c _ => ?_
  cases c <;> rfl

mutual

theorem map_snd_located (t : Outline α) : (t.located accepts).map (Option.map Prod.snd) = t.calls accepts := by
  cases t with
  | node a ts =>
    rw [located, calls]
    cases accepts a with
    | true =>
      rw [if_pos rfl, if_pos rfl, List.map_cons, List.map_append, map_snd_locatedAll 0 ts]
      rfl
    | false => rfl

theorem map_snd_locatedAll (i : Nat) (ts : List (Outline α)) :
    (locatedAll accepts i ts).map (Option.map Prod.snd) = callsAll accepts ts := by
  cases ts with
  | nil => rfl
  | cons t ts =>
    rw [locatedAll, callsAll, List.map_append, map_snd_within, map_snd_located t, map_snd_locatedAll (i + 1) ts]

end

mutual

theorem calls_map (f : β → α) (t : Outline β) :
    (t.map f).calls accepts = (t.calls fun b => accepts (f b)).map (Option.map f) := by
  cases t with
  | node b ts =>
    rw [map, calls, calls]
    cases accepts (f b) with
    | true =>
      rw [if_pos rfl, if_pos rfl, callsAll_mapAll f ts, List.map_cons, List.map_append]
      rfl
    | false => rfl

theorem callsAll_mapAll (f : β → α) (ts : List (Outline β)) :
    callsAll accepts (mapAll f ts) = (callsAll (fun b => accepts (f b)) ts).map (Option.map f) := by
  cases ts with
  | nil => rfl
  | cons t ts => rw [mapAll, callsAll, callsAll, calls_map f t, callsAll_mapAll f ts, List.map_append]

end

/-- what is left of calls that pass over nothing, if what stands between an item that is not accepted and its end is
deleted, and that end. Of what is deleted, `opened` items are not closed yet. -/
def thin (accepts : α → Bool) : Nat → List (Option α) → List (Option α)
  | _, [] => []
  | 0, some a :: calls => some a :: thin accepts (if accepts a then 0 else 1) calls
  | 0, none :: calls => none :: thin accepts 0 calls
  | opened + 1, some _ :: calls => thin accepts (opened + 2) calls
  | opened + 1, none :: calls => thin accepts opened calls

mutual

theorem thin_skip (t : Outline α) (opened : Nat) (rest : List (Option α)) :
    thin accepts (opened + 1) ((t.calls fun _ => true) ++ rest) = thin accepts (opened + 1) rest := by
  cases t with
  | node a ts =>
    rw [calls, if_pos rfl, List.cons_append, thin, List.append_assoc, thin_skipAll ts (opened + 1)]
    rfl

theorem thin_skipAll (ts : List (Outline α)) (opened : Nat) (rest : List (Option α)) :
    thin accepts (opened + 1) (callsAll (fun _ => true) ts ++ rest) = thin accepts (opened + 1) rest := by
  cases ts with
  | nil => rfl
  | cons t ts => rw [callsAll, List.append_assoc, thin_skip t, thin_skipAll ts]

end

mutual

theorem thin_calls (t : Outline α) (rest : List (Option α)) :
    thin accepts 0 ((t.calls fun _ => true) ++ rest) = t.calls accepts ++ thin accepts 0 rest := by
  cases t with
  | node a ts =>
    rw [calls, if_pos rfl, calls, List.cons_append, thin, List.append_assoc]
    cases accepts a with
    | true =>
      rw [if_pos rfl, if_pos rfl, thin_callsAll ts, List.cons_append, List.cons_append, List.append_assoc]
      rfl
    | false =>
      rw [if_neg Bool.false_ne_true, if_neg Bool.false_ne_true, thin_skipAll ts 0]
      rfl

theorem thin_callsAll (ts : List (Outline α)) (rest : List (Option α)) :
    thin accepts 0 (callsAll (fun _ => true) ts ++ rest) = callsAll accepts ts ++ thin accepts 0 rest := by
  cases ts with
  | nil => rfl
  | cons t ts => rw [callsAll, callsAll, List.append_assoc, thin_calls t, thin_callsAll ts, List.append_assoc]

end

/-- **Passing over.** The calls are those that pass over nothing, less what is between an item that is not accepted and
its end, and that end. -/
theorem calls_eq_thin (accepts : α → Bool) (t : Outline α) :
    t.calls accepts = thin accepts 0 (t.calls fun _ => true) := by
  have h : thin accepts 0 ((t.calls fun _ => true) ++ []) = t.calls accepts ++ thin accepts 0 [] := thin_calls t []
  rw [List.append_nil, thin, List.append_nil] at h
  exact h.symm

end Calls

end Outline

/-! ## Visitors -/

namespace Visitor

variable {σ : Type}

/-- the visitor gives an answer to each call -/
def NeverStops (f : Visitor σ) : Prop := ∀ call s, ∃ answer s', (f call).run s = .ok (answer, s')

/-- the visitor may answer so to this node -/
def Answers (f : Visitor σ) (n : Node) (answer : Bool) : Prop := ∃ s s', (f (some n)).run s = .ok (answer, s')

/-- the visitor that does as `f` does, and records its calls, each node with the answer to it -/
def recorded (f : Visitor σ) : Visitor (σ × List (Option (Node × Bool))) := fun call s => do
  let (answer, s') ← f call s.1
  pure (answer, s', s.2 ++ [call.map fun n => (n, answer)])

theorem recorded_run {f : Visitor σ} {call : Option Node} {s s' : σ} {b : Bool} (h : (f call).run s = .ok (b, s'))
    (log : List (Option (Node × Bool))) :
    (f.recorded call).run (s, log) = .ok (b, s', log ++ [call.map fun n => (n, b)]) := by
  have hrecord : (f.recorded call).run (s, log) =
      ((f call).run s >>= fun a => pure (a.1, a.2, log ++ [call.map fun n => (n, a.1)])) := rfl
  rw [hrecord, h]
  rfl

end Visitor

section Recorded

variable {σ : Type} {f : Visitor σ}

/-- the outlines `ts` with answers of `f` to their nodes -/
structure Annotates (f : Visitor σ) (us : List (Outline (Node × Bool))) (ts : List (Outline Node)) : Prop where
  nodes : Outline.mapAll Prod.fst us = ts
  answers : ∀ o ∈ Outline.itemsAll us, f.Answers o.1 o.2

namespace Annotates

variable {us us' : List (Outline (Node × Bool))} {ts ts' : List (Outline Node)}

theorem nil : Annotates f [] [] := ⟨rfl, fun _ h => absurd h List.not_mem_nil⟩

theorem append (h : Annotates f us ts) (h' : Annotates f us' ts') : Annotates f (us ++ us') (ts ++ ts') where
  nodes := by rw [Outline.mapAll_append, h.nodes, h'.nodes]
  answers := by
    rw [Outline.itemsAll_append]
    exact List.forall_mem_append.2 ⟨h.answers, h'.answers⟩

theorem node {n : Node} {b : Bool} (hb : f.Answers n b) (h : Annotates f us ts) :
    Annotates f [.node (n, b) us] [.node n ts] where
  nodes := by rw [Outline.mapAll, Outline.map, h.nodes]; rfl
  answers := by
    rw [Outline.itemsAll, Outline.items, Outline.itemsAll, List.append_nil]
    exact List.forall_mem_cons.2 ⟨hb, h.answers⟩

end Annotates

mutual

/-- for what is never shown, any answers will do -/
theorem Outline.exists_annotates (hf : f.NeverStops) (s : σ) (t : Outline Node) : ∃ us, Annotates f us [t] := by
  cases t with
  | node n ts =>
    obtain ⟨b, s', hrun⟩ := hf (some n) s
    obtain ⟨us, hus⟩ := Outline.exists_annotatesAll hf s ts
    exact ⟨_, hus.node ⟨s, s', hrun⟩⟩

theorem Outline.exists_annotatesAll (hf : f.NeverStops) (s : σ) (ts : List (Outline Node)) :
    ∃ us, Annotates f us ts := by
  cases ts with
  | nil => exact ⟨[], .nil⟩
  | cons t ts =>
    obtain ⟨us, hus⟩ := Outline.exists_annotates hf s t
    obtain ⟨vs, hvs⟩ := Outline.exists_annotatesAll hf s ts
    exact ⟨us ++ vs, hus.append hvs⟩

end

/-- a part of a traversal by `f`, over the outlines `ts`: it comes to its end, and the record goes on with the calls for
them and for some answers -/
def Records (f : Visitor σ) (x : StateT σ (Except Fault) Unit)
    (x' : StateT (σ × List (Option (Node × Bool))) (Except Fault) Unit) (ts : List (Outline Node)) : Prop :=
  ∀ s log, ∃ us s', Annotates f us ts ∧ x.run s = .ok ((), s') ∧
    x'.run (s, log) = .ok ((), s', log ++ Outline.callsAll Prod.snd us)

namespace Records

variable {x y : StateT σ (Except Fault) Unit} {x' y' : StateT (σ × List (Option (Node × Bool))) (Except Fault) Unit}
  {ts us : List (Outline Node)}

theorem pure : Records f (pure ()) (pure ()) [] := by
  intro s log
  refine ⟨[], s, .nil, rfl, ?_⟩
  rw [Outline.callsAll, List.append_nil]
  rfl

theorem bind (hx : Records f x x' ts) (hy : Records f y y' us) : Records f (do x; y) (do x'; y') (ts ++ us) := by
  intro s log
  obtain ⟨vs, s1, hvs, hrun, hrecord⟩ := hx s log
  obtain ⟨ws, s2, hws, hrun', hrecord'⟩ := hy s1 (log ++ Outline.callsAll Prod.snd vs)
  refine ⟨vs ++ ws, s2, hvs.append hws, ?_, ?_⟩
  · rw [StateT.run_bind, hrun]
    exact hrun'
  · rw [StateT.run_bind, hrecord, Outline.callsAll_append, ← List.append_assoc]
    exact hrecord'

theorem around (hf : f.NeverStops) (n : Node) (h : Records f x x' ts) :
    Records f (f.around n x) (f.recorded.around n x') [.node n ts] := by
  intro s log
  obtain ⟨b, s1, henter⟩ := hf (some n) s
  have hanswer : f.Answers n b := ⟨s, s1, henter⟩
  have hrecord := Visitor.recorded_run henter log
  cases b with
  | false =>
    obtain ⟨us, hus⟩ := Outline.exists_annotatesAll hf s ts
    exact ⟨_, s1, hus.node hanswer, Visitor.around_of_false henter, Visitor.around_of_false hrecord⟩
  | true =>
    obtain ⟨us, s2, hus, hrun, hrun'⟩ := h s1 (log ++ [some (n, true)])
    obtain ⟨b, s3, hleave⟩ := hf none s2
    refine ⟨_, s3, hus.node hanswer, Visitor.around_of_true henter hrun hleave, ?_⟩
    rw [Visitor.around_of_true hrecord hrun' (Visitor.recorded_run hleave _), Outline.callsAll, Outline.callsAll,
      Outline.calls, if_pos rfl, List.append_nil, List.append_assoc, List.append_assoc]
    rfl

end Records

mutual

theorem Outline.records_walk (hf : f.NeverStops) (t : Outline Node) : Records f (t.walk f) (t.walk f.recorded) [t] := by
  cases t with
  | node n ts => exact (Outline.records_walkAll hf ts).around hf n

theorem Outline.records_walkAll (hf : f.NeverStops) (ts : List (Outline Node)) :
    Records f (Outline.walkAll f ts) (Outline.walkAll f.recorded ts) ts := by
  cases ts with
  | nil => exact .pure
  | cons t ts => exact (Outline.records_walk hf t).bind (Outline.records_walkAll hf ts)

end

mutual

/-- if the answers are those of a predicate on nodes, they are written into the outline by it -/
theorem Outline.eq_map {p : Node → Bool} (t : Outline (Node × Bool)) (h : ∀ o ∈ t.items, o.2 = p o.1) :
    t = (t.map Prod.fst).map fun n => (n, p n) := by
  cases t with
  | node o ts =>
    obtain ⟨ho, hts⟩ := List.forall_mem_cons.1 h
    rw [Outline.map, Outline.map, ← Outline.eq_mapAll ts hts, ← ho]

theorem Outline.eq_mapAll {p : Node → Bool} (ts : List (Outline (Node × Bool)))
    (h : ∀ o ∈ Outline.itemsAll ts, o.2 = p o.1) :
    ts = Outline.mapAll (fun n => (n, p n)) (Outline.mapAll Prod.fst ts) := by
  cases ts with
  | nil => rfl
  | cons t ts =>
    obtain ⟨ht, hts⟩ := List.forall_mem_append.1 h
    rw [Outline.mapAll, Outline.mapAll, ← Outline.eq_map t ht, ← Outline.eq_mapAll ts hts]

end

theorem Outline.exists_of_mapAll_eq_singleton {α β : Type} {g : α → β} {ts : List (Outline α)} {u : Outline β}
    (h : Outline.mapAll g ts = [u]) : ∃ t, ts = [t] ∧ t.map g = u := by
  cases ts with
  | nil => cases h
  | cons t ts =>
    obtain ⟨ht, hts⟩ := List.cons.inj h
    cases ts with
    | nil => exact ⟨t, rfl, ht⟩
    | cons t' ts => cases hts

/-- the record of a traversal of a tree -/
theorem Root.exists_record (r : Root) (h : ∀ n ∈ r.nodes, n.kind ≠ .absent) (hf : f.NeverStops) (s : σ) :
    ∃ (t : Outline (Node × Bool)) (s' : σ), t.map Prod.fst = r.outline ∧ (∀ o ∈ t.items, f.Answers o.1 o.2) ∧
      (r.walk f).run s = .ok ((), s') ∧ (r.walk f.recorded).run (s, []) = .ok ((), s', t.calls Prod.snd) := by
  obtain ⟨us, s', ⟨hnodes, hanswers⟩, hrun, hrecord⟩ := r.outline.records_walk hf s []
  rw [← r.walk_eq f h] at hrun
  rw [← r.walk_eq f.recorded h] at hrecord
  obtain ⟨t, rfl, ht⟩ := Outline.exists_of_mapAll_eq_singleton hnodes
  rw [Outline.itemsAll, Outline.itemsAll, List.append_nil] at hanswers
  rw [Outline.callsAll, Outline.callsAll, List.append_nil] at hrecord
  exact ⟨t, s', ht, hanswers, hrun, hrecord⟩

end Recorded

/-! ## Traversals of trees -/

/-- the visitor that goes below every node -/
def Visitor.thorough : Visitor Unit := fun _ => pure true

/-- **Traversal.** A visitor that never stops, whatever it answers, comes to the end of a tree without absent nodes. Let
`t` be the tree with the answers to its nodes, which are those of a predicate if the visitor decides by one. Then the
calls, with their addresses, are those of `Outline.Traverses`, and they are what is left of the calls of a traversal
that passes over nothing if for each node that is not accepted, and is not itself deleted, all that comes before its end
is deleted, and its end. -/
theorem traversal_brackets_the_unpruned_part (r : Root) (h : ∀ n ∈ r.nodes, n.kind ≠ .absent) {σ : Type} (f : Visitor σ)
    (hf : f.NeverStops) (s : σ) :
    ∃ (t : Outline (Node × Bool)) (calls : List (Option (Address × Node × Bool))) (s' : σ),
      t.map Prod.fst = r.outline ∧
      (∀ accepts : Node → Bool, (∀ n b, f.Answers n b → b = accepts n) → t = r.outline.map fun n => (n, accepts n)) ∧
      (r.walk f).run s = .ok ((), s') ∧
      (r.walk f.recorded).run (s, []) = .ok ((), s', calls.map (Option.map Prod.snd)) ∧
      t.Traverses Prod.snd calls ∧
      calls.map (Option.map Prod.snd) = Outline.thin Prod.snd 0 (t.calls fun _ => true) ∧
      (r.walk Visitor.thorough.recorded).run ((), []) =
        .ok ((), (), (t.calls fun _ => true).map (Option.map fun o => (o.1, true))) := by
  obtain ⟨t, s', hnodes, hanswers, hrun, hrecord⟩ := r.exists_record h hf s
  refine ⟨t, t.located Prod.snd, s', hnodes, ?_, hrun, ?_, t.traverses_located Prod.snd, ?_, ?_⟩
  · intro accepts haccepts
    rw [← hnodes]
    exact t.eq_map fun o ho => haccepts o.1 o.2 (hanswers o ho)
  · rw [Outline.map_snd_located, hrecord]
  · rw [Outline.map_snd_located, Outline.calls_eq_thin]
  · have hthorough : Visitor.thorough.NeverStops := fun _ _ => ⟨true, (), rfl⟩
    obtain ⟨u, ⟨⟩, hnodes', hanswers', -, hrecord'⟩ := r.exists_record h hthorough ()
    have htrue : ∀ o ∈ u.items, o.2 = true := by
      intro o ho
      obtain ⟨⟨⟩, ⟨⟩, hanswer⟩ := hanswers' o ho
      exact (Prod.mk.inj (Except.ok.inj hanswer)).1.symm
    rw [hrecord', u.eq_map (p := fun _ => true) htrue, hnodes', ← hnodes, Outline.calls_map, Outline.calls_map,
      List.map_map, Option.map_comp_map]
    rfl

/-- the visitor that goes below as many nodes as it has patience for -/
def Visitor.impatient : Visitor Nat
  | none => pure true
  | some _ => do
    let patience ← get
    set (patience - 1)
    pure (decide (0 < patience))

/-- a visitor that goes below two nodes is shown the parts of the program and of its function, and no more -/
theorem sumTree_is_shown_in_part :
    (∀ n ∈ sumTree.nodes, n.kind ≠ .absent) ∧ Visitor.impatient.NeverStops ∧
    ∃ (t : Outline (Node × Bool)) (calls : List (Option (Address × Node × Bool))),
      t.map Prod.fst = sumTree.outline ∧ t.Traverses Prod.snd calls ∧
      calls.map (Option.map fun o => (o.2.1.kind, o.2.2)) =
        [some (.letIn, true), some (.func, true), some (.func, false), some (.cond, false), none, some (.print, false),
          none] := by
  have hnodes : ∀ n ∈ sumTree.nodes, n.kind ≠ .absent := by decide
  have hvisitor : Visitor.impatient.NeverStops := by
    intro call patience
    cases call with
    | none => exact ⟨_, _, rfl⟩
    | some n => exact ⟨_, _, rfl⟩
  obtain ⟨t, calls, s', ht, -, -, hrecord, htraverses, -⟩ :=
    traversal_brackets_the_unpruned_part sumTree hnodes Visitor.impatient hvisitor 2
  refine ⟨hnodes, hvisitor, t, calls, ht, htraverses, ?_⟩
  obtain ⟨log, hlog, hkinds⟩ : ∃ log, (sumTree.walk Visitor.impatient.recorded).run (2, []) = .ok ((), 0, log) ∧
      log.map (Option.map fun o => (o.1.kind, o.2)) =
        [some (.letIn, true), some (.func, true), some (.func, false), some (.cond, false), none, some (.print, false),
          none] := ⟨_, rfl, rfl⟩
  obtain rfl : log = calls.map (Option.map Prod.snd) :=
    (Prod.mk.inj (Prod.mk.inj (Except.ok.inj (hlog.symm.trans hrecord))).2).2
  rw [← hkinds, List.map_map, Option.map_comp_map]
  rfl

end LetStack

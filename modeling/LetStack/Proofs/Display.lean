/-
The ways in which code is shown.

The loop prints a listing and ends its last line; the command shows the instructions one by one, each with the end of
its line, and may set labels between the sequences for bold and plain. These are the same lines. A sequence starts with
an octet that no line has, so deleting the sequences from what is shown leaves the lines as they are.

Results:
- `Code.display_false`: lines that are ended are a listing whose last line is ended;
- `deleteAll_display`: what is left without the sequences;
- `all_outputs_show_the_same_code`.
-/
import LetStack.Proofs.Listing
import LetStack.Proofs.SplitTree
import LetStack.Render

namespace LetStack

open Octet

/-! ## Deleting -/

section

variable {α : Type} [DecidableEq α]

/-- the items from the one with number `skip` on, without the occurrences of the sequences -/
def deleteFrom (seqs : List (List α)) : Nat → List α → List α
  | _, [] => []
  | skip + 1, _ :: as => deleteFrom seqs skip as
  | 0, a :: as =>
    match seqs.find? fun s => !s.isEmpty && s.isPrefixOf (a :: as) with
    | some s => deleteFrom seqs (s.length - 1) as
    | none => a :: deleteFrom seqs 0 as

/-- the items without the occurrences of the sequences, which are taken from left to right -/
def deleteAll (seqs : List (List α)) (as : List α) : List α := deleteFrom seqs 0 as

/-- what cannot start a sequence stays -/
theorem deleteAll_append {seqs : List (List α)} {as : List α} (h : ∀ a ∈ as, ∀ s ∈ seqs, s.head? ≠ some a)
    (bs : List α) : deleteAll seqs (as ++ bs) = as ++ deleteAll seqs bs := by
  induction as with
  | nil => rfl
  | cons a as ih =>
    obtain ⟨ha, has⟩ := List.forall_mem_cons.1 h
    have hnone : seqs.find? (fun s => !s.isEmpty && s.isPrefixOf (a :: (as ++ bs))) = none := by
      refine List.find?_eq_none.2 fun s hs => ?_
      cases s with
      | nil => simp
      | cons x s =>
        have hx : x ≠ a := fun hx => ha _ hs (congrArg some hx)
        simp [hx]
    have hstep : deleteAll seqs (a :: (as ++ bs)) = a :: deleteAll seqs (as ++ bs) := by
      rw [deleteAll, deleteFrom, hnone]
      rfl
    rw [List.cons_append, hstep, ih has, List.cons_append]

end

/-! ## Lines -/

theorem intercalate_concat_nil {α : Type} (x : α) (ls : List (List α)) :
    [x].intercalate (ls ++ [[]]) = ls.flatMap (· ++ [x]) := by
  induction ls with
  | nil => rfl
  | cons l ls ih =>
    rw [List.cons_append, List.intercalate_cons_of_ne_nil (by simp), ih, List.flatMap_cons]

theorem splitOn_ended {α : Type} [DecidableEq α] {x : α} {ls : List (List α)} (h : ∀ l ∈ ls, x ∉ l) :
    (ls.flatMap (· ++ [x])).splitOn x = ls ++ [[]] := by
  rw [← intercalate_concat_nil]
  refine List.splitOn_intercalate x ?_ (by simp)
  exact List.forall_mem_append.2 ⟨h, by simp⟩

/-! ## Octets of code -/

/-- the sequence that starts bold text -/
def boldOn : List UInt8 := Utf8.encode "\x1b[1m"

/-- the sequence that goes back to plain text -/
def boldOff : List UInt8 := Utf8.encode "\x1b[0m"

namespace Instr

/-- the octets of the line of an instruction -/
def octets (i : Instr) : List UInt8 := Utf8.encode i.text

/-- the same, with a label between the sequences -/
def markedOctets (i : Instr) : List UInt8 := if i.opcode = .label then boldOn ++ i.octets ++ boldOff else i.octets

/-- an octet that is no character of a line -/
theorem octet_not_mem_octets (i : Instr) {c : Char} (hascii : c.toNat < 128) (hc : isLineChar c = false) :
    octet c ∉ i.octets := by
  intro hmem
  obtain ⟨d, hd, hoctet⟩ := List.mem_flatMap.1 hmem
  rw [eq_of_octet_mem hascii hoctet] at hd
  exact i.not_mem_text hc hd

/-- neither sequence starts in a line -/
theorem deleteAll_octets (i : Instr) (bs : List UInt8) :
    deleteAll [boldOn, boldOff] (i.octets ++ bs) = i.octets ++ deleteAll [boldOn, boldOff] bs := by
  have hescape : ∀ b ∈ i.octets, octet '\x1b' ≠ b := by
    rintro b hb rfl
    exact i.octet_not_mem_octets (by decide) rfl hb
  refine deleteAll_append (fun b hb => List.forall_mem_cons.2 ⟨?_, List.forall_mem_singleton.2 ?_⟩) bs
  · exact fun h => hescape b hb (Option.some.inj h)
  · exact fun h => hescape b hb (Option.some.inj h)

theorem deleteAll_markedOctets (i : Instr) (bs : List UInt8) :
    deleteAll [boldOn, boldOff] (i.markedOctets ++ bs) = i.octets ++ deleteAll [boldOn, boldOff] bs := by
  unfold markedOctets
  split
  · calc deleteAll [boldOn, boldOff] (boldOn ++ i.octets ++ boldOff ++ bs)
      _ = deleteAll [boldOn, boldOff] (boldOn ++ (i.octets ++ (boldOff ++ bs))) := by simp only [List.append_assoc]
      _ = deleteAll [boldOn, boldOff] (i.octets ++ (boldOff ++ bs)) := rfl
      _ = i.octets ++ deleteAll [boldOn, boldOff] (boldOff ++ bs) := i.deleteAll_octets _
      _ = i.octets ++ deleteAll [boldOn, boldOff] bs := rfl
  · exact i.deleteAll_octets bs

theorem newline_not_mem_markedOctets (i : Instr) : octet '\n' ∉ i.markedOctets := by
  have hline : octet '\n' ∉ i.octets := i.octet_not_mem_octets (by decide) rfl
  unfold markedOctets
  split
  · have hon : octet '\n' ∉ boldOn := by decide
    have hoff : octet '\n' ∉ boldOff := by decide
    simp [hon, hline, hoff]
  · exact hline

end Instr

namespace Code

variable (c : Code)

theorem encode_display_false : Utf8.encode (c.display false) = (c.map Instr.octets).flatMap (· ++ [octet '\n']) := by
  rw [display, Utf8.encode_join, List.flatMap_map, List.flatMap_map]
  refine List.flatMap_congr fun i _ => ?_
  rw [Utf8.encode_append]
  rfl

theorem encode_display_true :
    Utf8.encode (c.display true) = (c.map Instr.markedOctets).flatMap (· ++ [octet '\n']) := by
  rw [display, Utf8.encode_join, List.flatMap_map, List.flatMap_map]
  refine List.flatMap_congr fun i _ => ?_
  by_cases hi : i.opcode = .label
  · simp only [Bool.true_and, hi, decide_true, if_true, Utf8.encode_append, Instr.markedOctets]
    rfl
  · simp only [Bool.true_and, hi, decide_false, Bool.false_eq_true, if_false, Utf8.encode_append, Instr.markedOctets]
    rfl

/-- lines that are ended are a listing whose last line is ended -/
theorem display_false {c : Code} (hc : c ≠ []) : c.display false = c.listing ++ "\n" := by
  obtain ⟨init, last, rfl⟩ := (List.eq_nil_or_concat' c).resolve_left hc
  have hentered : display false (init ++ [last]) = Loop.entered ((init ++ [last]).map Instr.text) := by
    rw [Loop.entered, List.map_map]
    rfl
  rw [hentered, listing_eq, List.map_append, List.map_singleton]
  exact Loop.entered_eq_intercalate _ _

/-- **What is left without the sequences** are the lines. -/
theorem deleteAll_display :
    deleteAll [boldOn, boldOff] (Utf8.encode (c.display true)) = Utf8.encode (c.display false) := by
  rw [encode_display_true, encode_display_false]
  induction c with
  | nil => rfl
  | cons i c ih =>
    have hend : ∀ bs, deleteAll [boldOn, boldOff] (octet '\n' :: bs) = octet '\n' :: deleteAll [boldOn, boldOff] bs :=
      fun _ => rfl
    simp only [List.map_cons, List.flatMap_cons, List.append_assoc, List.singleton_append, i.deleteAll_markedOctets,
      hend, ih]

end Code

/-! ## Outputs -/

/-- **All outputs show the same code.** For a tree that compiles, the command shows the listing of the program with its
last line ended, and the loop prints just that for a text that spells the tree. The lines are those of the instructions,
and none has the octet that the sequences start with. With labels set in bold there are the same lines in the same
order, those of labels between the two sequences and no others, and deleting the sequences gives what is shown
without. -/
theorem all_outputs_show_the_same_code {r : Root} {p : Program} (h : r.compile = .ok p) :
    let plain := Utf8.encode (p.listing ++ "\n")
    r.render "asm" false = .ok plain ∧
    (∀ log text final, Root.decode .json (Utf8.encode text) = .ok r →
      ∃ err, Loop.respond log text final = ⟨true, ⟨p.listing ++ "\n", err⟩, none⟩) ∧
    plain.splitOn (octet '\n') = p.code.map Instr.octets ++ [[]] ∧ octet '\x1b' ∉ plain ∧
    ∃ marked, r.render "asm" true = .ok marked ∧
      marked.splitOn (octet '\n') =
        p.code.map (fun i => if i.opcode = .label then boldOn ++ i.octets ++ boldOff else i.octets) ++ [[]] ∧
      deleteAll [boldOn, boldOff] marked = plain := by
  intro plain
  have hplain : Utf8.encode (p.code.display false) = plain := by
    rw [Code.display_false (code_ne_nil h)]
    rfl
  have hrender : ∀ bold, r.render "asm" bold = .ok (Utf8.encode (p.code.display bold)) := fun bold => by
    rw [Root.render, if_pos rfl, h]
  refine ⟨?_, ?_, ?_, ?_, _, hrender true, ?_, ?_⟩
  · rw [hrender, hplain]
  · intro log text final hdecode
    exact ⟨_, Loop.respond_of_decode hdecode h log final⟩
  · rw [← hplain, Code.encode_display_false]
    refine splitOn_ended fun l hl => ?_
    obtain ⟨i, -, rfl⟩ := List.mem_map.1 hl
    exact i.octet_not_mem_octets (by decide) rfl
  · rw [← hplain, Code.encode_display_false, List.flatMap_map]
    intro hmem
    obtain ⟨i, -, hi⟩ := List.mem_flatMap.1 hmem
    rcases List.mem_append.1 hi with hi | hi
    · exact i.octet_not_mem_octets (by decide) rfl hi
    · exact absurd hi (by decide)
  · rw [Code.encode_display_true]
    refine splitOn_ended fun l hl => ?_
    obtain ⟨i, -, rfl⟩ := List.mem_map.1 hl
    exact i.newline_not_mem_markedOctets
  · rw [Code.deleteAll_display, hplain]

/-- `if true then 1 else 2` -/
def choiceTree : Root :=
  .bare (.cond .unknown (.literal .unknown (.bool true)) (.literal .unknown (.int 1)) (.literal .unknown (.int 2)))

/-- The conditional has two labels, and so two of the nine lines stand out. -/
theorem choiceTree_is_shown :
    choiceTree.compile = .ok choiceTree.program ∧
    choiceTree.render "asm" false =
      .ok (Utf8.encode "push 1\npush 1\nbeq label0\npush 2\nb label1\nlabel0:\npush 1\nlabel1:\nhalt\n") ∧
    ∃ marked, choiceTree.render "asm" true = .ok marked ∧
      marked.splitOn (octet '\n') =
        ["push 1", "push 1", "beq label0", "push 2", "b label1", "\x1b[1mlabel0:\x1b[0m", "push 1",
          "\x1b[1mlabel1:\x1b[0m", "halt", ""].map Utf8.encode := by
  have hok : choiceTree.compile = .ok choiceTree.program := rfl
  obtain ⟨hplain, -, -, -, marked, hmarked, hlines, -⟩ := all_outputs_show_the_same_code hok
  exact ⟨hok, hplain.trans (congrArg Except.ok (by decide)), marked, hmarked, hlines.trans (by decide)⟩

end LetStack

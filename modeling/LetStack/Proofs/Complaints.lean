/-
Complaints that sound as if the input were cut off.

Whether a text may still be completed is read off the complaint about it. A complaint is in words of the reader's own,
and none of them sounds so; one cause alone quotes the input, a kind that may not stand where it does. So a complete
document is waited upon exactly if the complaint about it quotes a kind with one of the telling phrases in it. Every
other complete document is answered at once.

Results:
- `Complaint.soundsCutOff_iff`: which complaints sound as if the input were cut off;
- `complete_document_waits_only_on_a_telling_kind`, and `complete_document_may_be_waited_upon`, a document for which
  the loop waits in vain.
-/
import LetStack.Proofs.Numerals
import LetStack.Proofs.Phrases
import LetStack.Proofs.Places
import LetStack.Proofs.SplitTree

namespace LetStack

/-! ## Texts of complaints -/

/-- the characters of numbers that are no digits -/
def numeralSigns : List Char := ['-', '+', '.', 'e', 'I', 'N', 'a', 'f', 'n']

/-- neither phrase can be made of such characters -/
def IsQuiet (cs : List Char) : Prop := 'E' ∉ cs ∧ '\x27' ∉ cs

instance (cs : List Char) : Decidable (IsQuiet cs) :=
  inferInstanceAs (Decidable ('E' ∉ cs ∧ '\x27' ∉ cs))

namespace IsQuiet

@[simp]
theorem append_iff {as bs : List Char} : IsQuiet (as ++ bs) ↔ IsQuiet as ∧ IsQuiet bs := by
  simp only [IsQuiet, List.mem_append]
  tauto

theorem of_forall {cs : List Char} (h : ∀ c ∈ cs, c.isDigit = true ∨ c ∈ numeralSigns) : IsQuiet cs := by
  constructor
  · intro hmem
    exact absurd (h _ hmem) (by decide)
  · intro hmem
    exact absurd (h _ hmem) (by decide)

end IsQuiet

theorem mem_toString_int {n : ℤ} {c : Char} (h : c ∈ (toString n).toList) : c.isDigit = true ∨ c ∈ numeralSigns := by
  cases n with
  | ofNat n => exact .inl (isDigit_of_mem_toString n c h)
  | negSucc n =>
    rw [show toString (Int.negSucc n) = "-" ++ toString (n + 1) from rfl, String.toList_append, List.mem_append] at h
    rcases h with h | h
    · obtain rfl := List.mem_singleton.1 h
      exact .inr (by decide)
    · exact .inl (isDigit_of_mem_toString (n + 1) c h)

theorem Spelling.mem_text {s : Spelling} (hs : s.IsProper) {c : Char} (hc : c ∈ s.text) :
    c.isDigit = true ∨ c ∈ numeralSigns := by
  rcases List.mem_append.1 hc with hc | hc
  · exact .inl (hs.whole c hc)
  rcases List.mem_append.1 hc with hc | hc
  · rw [Spelling.fractionText] at hc
    split_ifs at hc
    · cases hc
    · rcases List.mem_cons.1 hc with rfl | hc
      · exact .inr (by decide)
      · exact .inl (hs.fraction c hc)
  · rw [Spelling.exponentText] at hc
    split at hc
    · cases hc
    · rcases List.mem_cons.1 hc with rfl | hc
      · exact .inr (by decide)
      rcases List.mem_cons.1 hc with rfl | hc
      · split_ifs
        · exact .inr (by decide)
        · exact .inr (by decide)
      rcases List.mem_append.1 hc with hc | hc
      · exact .inl (Decimal.isDigit_of_mem_zeros hc)
      · exact .inl (Nat.isDigit_of_mem_toDigits (by decide) (by decide) hc)

theorem Binary64.mem_text {x : Binary64} {c : Char} (hc : c ∈ x.text.toList) :
    c.isDigit = true ∨ c ∈ numeralSigns := by
  have hword : ∀ word ∈ ["NaN", "-Inf", "+Inf"], word.toList.Forall (· ∈ numeralSigns) := by decide
  rw [Binary64.text] at hc
  split_ifs at hc with hnan hinfinite hnegative
  · exact .inr (List.forall_iff_forall_mem.1 (hword _ (by decide)) c hc)
  · exact .inr (List.forall_iff_forall_mem.1 (hword _ (by decide)) c hc)
  · exact .inr (List.forall_iff_forall_mem.1 (hword _ (by decide)) c hc)
  · have hfinite : x.isFinite = true := by
      simp only [isNaN, isInfinite, decide_eq_true_eq, beq_iff_eq] at hnan hinfinite
      simp only [isFinite, decide_eq_true_eq]
      omega
    obtain ⟨s, hs, htext⟩ : ∃ s : Spelling, s.IsProper ∧ x.shortest.general = x.shortest.sign ++ s.text := by
      rw [Decimal.general]
      split_ifs
      · have hpower : x.shortest.power.natAbs < 100000 := by
          have hle := abs_power_shortest hfinite
          omega
        obtain ⟨s, hs, htext, -⟩ := Decimal.exists_scientific 2 hpower
        exact ⟨s, hs, htext⟩
      · obtain ⟨s, hs, htext, -⟩ := x.shortest.exists_positional
        exact ⟨s, hs, htext⟩
    rw [String.toList_ofList, htext, List.mem_append] at hc
    rcases hc with hc | hc
    · rw [Decimal.sign] at hc
      split_ifs at hc
      · obtain rfl := List.mem_singleton.1 hc
        exact .inr (by decide)
      · cases hc
    · exact Spelling.mem_text hs hc

theorem isQuiet_toString_nat (n : ℕ) : IsQuiet (toString n).toList :=
  .of_forall fun c hc => .inl (isDigit_of_mem_toString n c hc)

theorem isQuiet_toString_int (n : ℤ) : IsQuiet (toString n).toList := .of_forall fun _ => mem_toString_int

theorem Binary64.isQuiet_text (x : Binary64) : IsQuiet x.text.toList := .of_forall fun _ => Binary64.mem_text

theorem isQuiet_of_mem {name : String} (h : name ∈ memberNames ++ nodeNames) : IsQuiet name.toList := by
  have hwords : ∀ name ∈ memberNames ++ nodeNames, IsQuiet name.toList := by decide +kernel
  exact hwords name h

theorem Path.IsKnown.isQuiet_text {p : Path} (h : p.IsKnown) : IsQuiet p.text.toList := by
  have hafter : ∀ (steps : Path) (text : String), steps.IsKnown → IsQuiet text.toList →
      IsQuiet (steps.foldl PathStep.after text).toList := by
    intro steps
    induction steps with
    | nil => exact fun text _ htext => htext
    | cons step steps ih =>
      intro text hknown htext
      apply ih
      · exact fun name hname => hknown name (List.mem_cons_of_mem step hname)
      cases step with
      | member name =>
        have hname := isQuiet_of_mem (List.mem_append_left nodeNames (hknown name List.mem_cons_self))
        rw [PathStep.after]
        split_ifs
        · exact hname
        · simp only [String.toList_append, IsQuiet.append_iff]
          exact ⟨⟨htext, by decide⟩, hname⟩
      | item index =>
        rw [PathStep.after]
        simp only [String.toList_append, IsQuiet.append_iff]
        exact ⟨⟨⟨htext, by decide⟩, isQuiet_toString_nat index⟩, by decide⟩
  exact hafter p "" h (by decide)

/-- the text of a cause that quotes nothing of the input -/
theorem Cause.IsKnown.isQuiet_text {cause : Cause} (h : cause.IsKnown)
    (hkind : ∀ kind want, cause ≠ .wrongKind kind want) : IsQuiet cause.text.toList := by
  cases cause with
  | wrongType got want =>
    obtain ⟨v, rfl⟩ := h
    have hgot : IsQuiet v.description.toList := by cases v <;> rw [Value.description] <;> decide
    have hwant : IsQuiet want.text.toList := by cases want <;> decide
    simp only [Cause.text, String.toList_append, IsQuiet.append_iff]
    exact ⟨⟨⟨by decide, hgot⟩, by decide⟩, hwant⟩
  | noKind => decide
  | missing kind member =>
    have hquote : ∀ name ∈ memberNames, IsQuiet (Text.quote name).toList := by decide +kernel
    simp only [Cause.text, String.toList_append, IsQuiet.append_iff]
    exact ⟨⟨isQuiet_of_mem (List.mem_append_right memberNames h.1), by decide⟩, hquote member h.2⟩
  | wrongKind kind want => exact absurd rfl (hkind kind want)
  | notIntegral x =>
    rw [Cause.text, String.toList_append, IsQuiet.append_iff]
    exact ⟨x.isQuiet_text, by decide⟩
  | inexact x =>
    rw [Cause.text, String.toList_append, IsQuiet.append_iff]
    exact ⟨x.isQuiet_text, by decide⟩
  | outOfRange n least greatest =>
    simp only [Cause.text, String.toList_append, IsQuiet.append_iff]
    exact ⟨⟨⟨⟨⟨isQuiet_toString_int n, by decide⟩, isQuiet_toString_int least⟩, by decide⟩,
      isQuiet_toString_int greatest⟩, by decide⟩
  | unresolvedReference pos name => cases h
  | unresolvedCall pos name => cases h

/-- the place stands before the cause -/
theorem Complaint.exists_text {c : Complaint} (h : c.IsKnown) :
    ∃ place : String, IsQuiet place.toList ∧ c.text = place ++ c.cause.text := by
  rw [Complaint.text, located]
  split_ifs
  · exact ⟨"", by decide, (String.empty_append).symm⟩
  · refine ⟨c.path.text ++ ": ", ?_, rfl⟩
    rw [String.toList_append, IsQuiet.append_iff]
    exact ⟨h.path.isQuiet_text, by decide⟩

/-- a known complaint sounds as if the input were cut off exactly if it quotes a kind that does -/
theorem Complaint.soundsCutOff_iff {c : Complaint} (h : c.IsKnown) :
    Text.soundsCutOff (Utf8.encode c.text) = true ↔
      ∃ kind want, c.cause = .wrongKind kind want ∧ Text.MentionsCutOff kind := by
  obtain ⟨place, hplace, htext⟩ := Complaint.exists_text h
  by_cases hcause : ∃ kind want, c.cause = .wrongKind kind want
  · obtain ⟨kind, want, hcause⟩ := hcause
    have hbefore : IsQuiet (place ++ "got ").toList := by
      rw [String.toList_append, IsQuiet.append_iff]
      exact ⟨hplace, by decide⟩
    have hafter : IsQuiet (", want " ++ want.text).toList := by cases want <;> decide
    have hsplit : c.text = (place ++ "got ") ++ Text.quote kind ++ (", want " ++ want.text) := by
      rw [htext, hcause, Cause.text]
      simp only [String.append_assoc]
    rw [hsplit, Text.soundsCutOff_quote_iff (Text.not_soundsCutOff hbefore.1 hbefore.2)
      (Text.not_soundsCutOff hafter.1 hafter.2), hcause]
    constructor
    · exact fun hkind => ⟨kind, want, rfl, hkind⟩
    · rintro ⟨kind', want', heq, hkind⟩
      obtain ⟨rfl, rfl⟩ := Cause.wrongKind.inj heq
      exact hkind
  · have hquiet : IsQuiet c.text.toList := by
      rw [htext, String.toList_append, IsQuiet.append_iff]
      exact ⟨hplace, h.cause.isQuiet_text fun kind want heq => hcause ⟨kind, want, heq⟩⟩
    rw [Text.not_soundsCutOff hquiet.1 hquiet.2]
    constructor
    · intro hfalse
      cases hfalse
    · rintro ⟨kind, want, heq, -⟩
      exact absurd ⟨kind, want, heq⟩ hcause

namespace Loop

/-! ## Complete documents -/

theorem decode_of_read {text : String} {v : Value} {c : Complaint} (hread : Json.read (Utf8.encode text) = .ok v)
    (hc : Root.ofValue v = .error c) : Root.decode .json (Utf8.encode text) = .error (.tree c) := by
  have hvalue : Value.decode .json (Utf8.encode text) = .ok v := by rw [Value.decode, hread]
  rw [Root.decode, hvalue]
  simp only [bind, Except.bind, hc]

/-- **Complete documents.** The loop waits after a complete document exactly if the complaint about it quotes a kind
with one of the telling phrases in it. Every other complaint is reported at once. -/
theorem complete_document_waits_only_on_a_telling_kind {text : String} {v : Value}
    (hread : Json.read (Utf8.encode text) = .ok v) (log : Logging) :
    ((respond log text false).consumed = false ↔
      ∃ path kind want, Root.ofValue v = .error ⟨path, .wrongKind kind want⟩ ∧ Text.MentionsCutOff kind) ∧
    ∀ c, Root.ofValue v = .error c → (∀ kind want, c.cause = .wrongKind kind want → ¬ Text.MentionsCutOff kind) →
      respond log text false = ⟨true, ⟨"", c.text ++ "\n"⟩, none⟩ := by
  have hknown := Root.ofValue_ownWords v
  constructor
  · rw [consumed_eq_false_iff]
    constructor
    · rintro ⟨-, failure, hdecode, hincomplete⟩
      cases hc : Root.ofValue v with
      | ok r =>
        rw [decode_json_eq_ok.2 ⟨v, hread, hc⟩] at hdecode
        cases hdecode
      | error c =>
        rw [decode_of_read hread hc] at hdecode
        obtain rfl := Except.error.inj hdecode
        obtain ⟨kind, want, hcause, hkind⟩ := (Complaint.soundsCutOff_iff (hknown c hc)).1 hincomplete
        refine ⟨c.path, kind, want, ?_, hkind⟩
        rw [← hcause]
    · rintro ⟨path, kind, want, hc, hkind⟩
      refine ⟨rfl, _, decode_of_read hread hc, ?_⟩
      exact (Complaint.soundsCutOff_iff (hknown _ hc)).2 ⟨kind, want, rfl, hkind⟩
  · intro c hc hkind
    have hcomplete : (Failure.tree c).isIncomplete = false := by
      rw [Failure.isIncomplete, ← Bool.not_eq_true, Complaint.soundsCutOff_iff (hknown c hc)]
      rintro ⟨kind, want, hcause, hmentions⟩
      exact hkind kind want hcause hmentions
    rw [respond, decode_of_read hread hc]
    change (if !false && (Failure.tree c).isIncomplete then _ else _) = _
    rw [hcomplete]
    rfl

/-- an object with a kind and nothing else -/
def kindOnly (kind : String) : Value := .ofMembers [("kind", .string kind)]

/-- the loop waits after the first of these two objects and reports the second, whose kind has small letters -/
theorem capital_letters_make_the_loop_wait :
    Json.read (Utf8.encode (Json.write 0 (kindOnly "unexpected EOF"))) = .ok (kindOnly "unexpected EOF") ∧
    (respond ⟨"", .quiet⟩ (Json.write 0 (kindOnly "unexpected EOF")) false).consumed = false ∧
    Json.read (Utf8.encode (Json.write 0 (kindOnly "unexpected eof"))) = .ok (kindOnly "unexpected eof") ∧
    respond ⟨"", .quiet⟩ (Json.write 0 (kindOnly "unexpected eof")) false =
      ⟨true, ⟨"", "got \"unexpected eof\", want program (letin or prog)\n"⟩, none⟩ := by
  have hread : ∀ kind, Json.read (Utf8.encode (Json.write 0 (kindOnly kind))) = .ok (kindOnly kind) := fun kind =>
    Json.read_write (Value.isPlain_ofMembers (List.forall_mem_singleton.2 .string)) 0
  have hcapital : Root.ofValue (kindOnly "unexpected EOF") = .error ⟨[], .wrongKind "unexpected EOF" .program⟩ := by cbv
  have hsmall : Root.ofValue (kindOnly "unexpected eof") = .error ⟨[], .wrongKind "unexpected eof" .program⟩ := by cbv
  refine ⟨hread _, ?_, hread _, ?_⟩
  · apply (complete_document_waits_only_on_a_telling_kind (hread _) _).1.2
    exact ⟨[], _, _, hcapital, by decide⟩
  · have hmessage : Complaint.text ⟨[], .wrongKind "unexpected eof" .program⟩ ++ "\n" =
        "got \"unexpected eof\", want program (letin or prog)\n" := by decide
    rw [(complete_document_waits_only_on_a_telling_kind (hread _) _).2 _ hsmall, hmessage]
    rintro kind want ⟨⟩
    decide

/-- an object whose kind is one of the phrases, on one line -/
def tellingDocument : String := "\x7b\"kind\": \"unexpected EOF\"\x7d\n"

/-- the loop waits after this complete document, though there is something to report -/
theorem complete_document_may_be_waited_upon :
    (Json.read (Utf8.encode tellingDocument)).isOk = true ∧
    respond ⟨"", .quiet⟩ tellingDocument false = ⟨false, .none, none⟩ ∧
    (respond ⟨"", .quiet⟩ tellingDocument true).output =
      ⟨"", "got \"unexpected EOF\", want program (letin or prog)\n"⟩ := by
  have hwaits : (respond ⟨"", .quiet⟩ tellingDocument false).consumed = false := by decide +kernel
  refine ⟨by decide +kernel, ?_, by decide +kernel⟩
  exact respond_of_isIncomplete (consumed_eq_false_iff.1 hwaits).2 _

end Loop

end LetStack

/-
Reading messages back.

A complaint is a place and a cause, and both are shown as text: a place by the names of members with dots before them
and by numbers in brackets, a cause by a sentence with a quoted text, a description or numbers in it. The text of a
place gives the steps back, since no member that the reader looks for has a dot or a bracket in its name. The text of a
cause gives the cause back, up to numbers that are written alike: sentences are told apart by how they end, and what
stands before the end by the one colon, bracket or comma in it. So what is known of complaints holds of their texts.

Results:
- `Text.quote_injective`: a quoted text gives the text back;
- `Path.eq_of_text_eq`: two plain paths of the same text are the same;
- `Cause.cases_of_text_eq`: what has the text of a known cause is that cause;
- `complaints_point_at_a_real_place`.
-/
import LetStack.Proofs.Complaints

namespace LetStack

/-! ## Quoted text -/

namespace Text

/-- **Quoting.** A quoted text gives the text back. -/
theorem quote_injective : Function.Injective quote := by
  intro s t h
  have happart : ∀ cs : List Char, ∀ d ∈ cs,
      quoteChar d ≠ [] ∧ ∀ c us vs, quoteChar d ++ us = quoteChar c ++ vs → d = c :=
    fun cs d _ => ⟨quoteChar_ne_nil d, fun c us vs => eq_of_quoteChar_append⟩
  rw [quote, quote, String.append_left_inj, String.append_right_inj, String.ofList_inj] at h
  have hst : s.toList <+: t.toList := isPrefix_of_flatMap (happart s.toList) ⟨[], by rw [List.append_nil, h]⟩
  have hts : t.toList <+: s.toList := isPrefix_of_flatMap (happart t.toList) ⟨[], by rw [List.append_nil, h]⟩
  exact String.toList_inj.1 (hst.eq_of_length_le hts.length_le)

end Text

/-! ## Places -/

/-- a member with a name that has no dot and no opening bracket in it, or an item -/
def PathStep.IsPlain : PathStep → Prop
  | .member name => name ≠ "" ∧ '.' ∉ name.toList ∧ '[' ∉ name.toList
  | .item _ => True

def Path.IsPlain (p : Path) : Prop := ∀ s ∈ p, s.IsPlain

/-- the text of a step after others -/
def PathStep.chars : PathStep → List Char
  | .member name => '.' :: name.toList
  | .item i => '[' :: ((toString i).toList ++ [']'])

namespace PathStep

def isMark (c : Char) : Bool := c = '.' || c = '['

/-- a step begins with a mark, and has no other -/
theorem IsPlain.exists_chars {s : PathStep} (h : s.IsPlain) :
    ∃ c cs, s.chars = c :: cs ∧ isMark c = true ∧ ∀ d ∈ cs, isMark d = false := by
  cases s with
  | member name =>
    obtain ⟨-, hdot, hbracket⟩ := h
    refine ⟨'.', _, rfl, rfl, fun d hd => ?_⟩
    simp only [isMark, Bool.or_eq_false_iff, decide_eq_false_iff_not]
    exact ⟨fun heq => hdot (heq ▸ hd), fun heq => hbracket (heq ▸ hd)⟩
  | item i =>
    refine ⟨'[', _, rfl, rfl, fun d hd => ?_⟩
    rcases List.mem_append.1 hd with hd | hd
    · have hdigit := isDigit_of_mem_toString i d hd
      simp only [isMark, Bool.or_eq_false_iff, decide_eq_false_iff_not]
      constructor <;> (rintro rfl; exact absurd hdigit (by decide))
    · obtain rfl := List.mem_singleton.1 hd
      rfl

theorem chars_injective : Function.Injective chars := by
  rintro (name | i) (name' | j) h
  · exact congrArg _ (String.toList_inj.1 (List.cons.inj h).2)
  · exact absurd (List.cons.inj h).1 (by decide)
  · exact absurd (List.cons.inj h).1 (by decide)
  · have htext := List.append_cancel_right (List.cons.inj h).2
    exact congrArg _ (Nat.repr_inj.1 (String.toList_inj.1 htext))

end PathStep

namespace Path

open PathStep

/-- what comes after a step has no characters before its first mark -/
theorem takeWhile_flatMap_chars (p : Path) : (p.flatMap chars).takeWhile (!isMark ·) = [] := by
  cases p with
  | nil => rfl
  | cons s p =>
    cases s with
    | member name => rfl
    | item i => rfl

theorem eq_of_flatMap_chars_eq {p q : Path} (hp : p.IsPlain) (hq : q.IsPlain) (h : p.flatMap chars = q.flatMap chars) :
    p = q := by
  induction p generalizing q with
  | nil =>
    cases q with
    | nil => rfl
    | cons t q => cases t <;> cases h
  | cons s p ih =>
    cases q with
    | nil => cases s <;> cases h
    | cons t q =>
      obtain ⟨hs, hp⟩ := List.forall_mem_cons.1 hp
      obtain ⟨ht, hq⟩ := List.forall_mem_cons.1 hq
      obtain ⟨c, cs, hsc, -, hcs⟩ := hs.exists_chars
      obtain ⟨d, ds, htd, -, hds⟩ := ht.exists_chars
      rw [List.flatMap_cons, List.flatMap_cons, hsc, htd, List.cons_append, List.cons_append, List.cons.injEq] at h
      obtain ⟨rfl, h⟩ := h
      have hword : ∀ (cs : List Char) (rest : Path), (∀ d ∈ cs, isMark d = false) →
          (cs ++ rest.flatMap chars).takeWhile (!isMark ·) = cs := by
        intro cs rest hcs
        rw [List.takeWhile_append_of_pos (by simpa using hcs), takeWhile_flatMap_chars, List.append_nil]
      have hcsds : cs = ds := by rw [← hword cs p hcs, h, hword ds q hds]
      subst hcsds
      rw [chars_injective (hsc.trans htd.symm), ih hp hq (List.append_cancel_left h)]

/-- the text of a path with the mark of its first step -/
def marked : List Char → List Char
  | [] => []
  | c :: cs => if c = '[' then c :: cs else '.' :: c :: cs

theorem toList_after {text : String} (h : text ≠ "") (s : PathStep) :
    (s.after text).toList = text.toList ++ s.chars := by
  cases s with
  | member name =>
    rw [PathStep.after, if_neg (by simpa using h)]
    simp [chars]
  | item i => simp [PathStep.after, chars]

theorem toList_foldl_after {text : String} (h : text ≠ "") (p : Path) :
    (p.foldl PathStep.after text).toList = text.toList ++ p.flatMap chars := by
  induction p generalizing text with
  | nil => exact (List.append_nil _).symm
  | cons s p ih =>
    have hafter : s.after text ≠ "" := by
      intro hempty
      have hlist := toList_after h s
      rw [hempty] at hlist
      cases s <;> simp [chars] at hlist
    rw [List.foldl_cons, ih hafter, toList_after h, List.flatMap_cons, List.append_assoc]

theorem marked_text {p : Path} (hp : p.IsPlain) : marked p.text.toList = p.flatMap chars := by
  cases p with
  | nil => rfl
  | cons s p =>
    have hs := hp s List.mem_cons_self
    cases s with
    | member name =>
      obtain ⟨hname, -, hbracket⟩ := hs
      have htext : (Path.text (.member name :: p)).toList = name.toList ++ p.flatMap chars :=
        toList_foldl_after hname p
      rw [htext, List.flatMap_cons, chars]
      cases hcs : name.toList with
      | nil => exact absurd (String.toList_eq_nil_iff.1 hcs) hname
      | cons c cs =>
        have hc : c ≠ '[' := by
          rintro rfl
          exact hbracket (hcs ▸ List.mem_cons_self)
        rw [List.cons_append, marked, if_neg hc]
        rfl
    | item i =>
      have hfirst : ((PathStep.item i).after "").toList = chars (.item i) := by simp [PathStep.after, chars]
      have hne : (PathStep.item i).after "" ≠ "" := by
        intro hempty
        rw [hempty] at hfirst
        cases hfirst
      have htext : (Path.text (.item i :: p)).toList = chars (.item i) ++ p.flatMap chars := by
        rw [← hfirst]
        exact toList_foldl_after hne p
      rw [htext]
      rfl

/-- **Places.** Two plain paths of the same text are the same. -/
theorem eq_of_text_eq {p q : Path} (hp : p.IsPlain) (hq : q.IsPlain) (h : p.text = q.text) : p = q := by
  apply eq_of_flatMap_chars_eq hp hq
  rw [← marked_text hp, ← marked_text hq, h]

end Path

/-! ## Causes -/

/-- the sentences of complaints about values -/
inductive Sentence where
  | type (want : WantedType)
  | missing
  | kind (want : Wanted)
  | notIntegral
  | inexact
  | outOfRange
deriving DecidableEq

namespace Sentence

def all : List Sentence :=
  [.type .object, .type .string, .type .integer, .type .bool, .type .list, .missing, .kind .program,
    .kind .declaration, .kind .expression, .notIntegral, .inexact, .outOfRange]

theorem mem_all (s : Sentence) : s ∈ all := by
  rcases s with (_ | _ | _ | _ | _) | _ | (_ | _ | _) | _ | _ | _ <;> decide

/-- how a sentence ends, whatever it is about -/
def ending : Sentence → String
  | .type want => ", want " ++ want.text
  | .missing => "\""
  | .kind want => ", want " ++ want.text
  | .notIntegral => " is not an integer"
  | .inexact => " is out of exact integer range"
  | .outOfRange => "]"

theorem eq_of_isSuffix {s t : Sentence} (h : s.ending.toList <:+ t.ending.toList) : s = t := by
  have hall : ∀ s ∈ all, ∀ t ∈ all, s.ending.toList <:+ t.ending.toList → s = t := by decide +kernel
  exact hall s s.mem_all t t.mem_all h

end Sentence

namespace Cause

def sentence? : Cause → Option Sentence
  | .wrongType _ want => some (.type want)
  | .noKind => some .missing
  | .missing _ _ => some .missing
  | .wrongKind _ want => some (.kind want)
  | .notIntegral _ => some .notIntegral
  | .inexact _ => some .inexact
  | .outOfRange _ _ _ => some .outOfRange
  | .unresolvedReference _ _ => none
  | .unresolvedCall _ _ => none

/-- what stands before the end of the sentence -/
def beginning : Cause → String
  | .wrongType got _ => "got " ++ got
  | .noKind => "missing \"kind"
  | .missing kind member => kind ++ ": missing \"" ++ String.ofList (member.toList.flatMap Text.quoteChar)
  | .wrongKind kind _ => "got " ++ Text.quote kind
  | .notIntegral x => x.text
  | .inexact x => x.text
  | .outOfRange n least greatest => toString n ++ " is out of range [" ++ toString least ++ ", " ++ toString greatest
  | _ => ""

theorem text_eq {k : Cause} {s : Sentence} (h : k.sentence? = some s) : k.text = k.beginning ++ s.ending := by
  cases k <;> cases h <;>
    simp only [text, beginning, Sentence.ending, Text.quote, String.append_assoc] <;> rfl

/-- the same text is the same sentence with the same beginning -/
theorem sentence_inj {k c : Cause} (hk : k.sentence?.isSome) (hc : c.sentence?.isSome) (h : k.text = c.text) :
    k.sentence? = c.sentence? ∧ k.beginning = c.beginning := by
  obtain ⟨s, hs⟩ := Option.isSome_iff_exists.1 hk
  obtain ⟨t, ht⟩ := Option.isSome_iff_exists.1 hc
  rw [text_eq hs, text_eq ht] at h
  have hlist : k.beginning.toList ++ s.ending.toList = c.beginning.toList ++ t.ending.toList := by
    rw [← String.toList_append, h, String.toList_append]
  obtain rfl : s = t := by
    rcases List.suffix_or_suffix_of_suffix (hlist ▸ List.suffix_append _ _) (List.suffix_append _ _) with h | h
    · exact Sentence.eq_of_isSuffix h
    · exact (Sentence.eq_of_isSuffix h).symm
  exact ⟨hs.trans ht.symm, (String.append_left_inj _).1 h⟩

section Marks

variable {c : Char}

theorem not_mem_toString (h : ¬ (c.isDigit = true ∨ c ∈ numeralSigns)) (n : ℤ) : c ∉ (toString n).toList :=
  fun hc => h (mem_toString_int hc)

theorem not_mem_text (h : ¬ (c.isDigit = true ∨ c ∈ numeralSigns)) (x : Binary64) : c ∉ x.text.toList :=
  fun hc => h (Binary64.mem_text hc)

theorem colon_not_mem_name {name : String} (h : name ∈ nodeNames) : ':' ∉ name.toList := by
  have hnames : ∀ name ∈ nodeNames, ':' ∉ name.toList := by decide +kernel
  exact hnames name h

theorem colon_not_mem_quote {name : String} (h : name ∈ memberNames) : ':' ∉ (Text.quote name).toList := by
  have hnames : ∀ name ∈ memberNames, ':' ∉ (Text.quote name).toList := by decide +kernel
  exact hnames name h

end Marks

theorem toList_missing (kind member : String) :
    (missing kind member).text.toList = kind.toList ++ ':' :: (" missing ".toList ++ (Text.quote member).toList) := by
  simp [text]

/-- only the two causes that give a kind have a colon -/
theorem IsKnown.colon {c : Cause} (hc : c.IsKnown) :
    ':' ∉ c.text.toList ∨ (∃ kind member, c = .missing kind member) ∨ ∃ kind want, c = .wrongKind kind want := by
  have hcolon : ¬ (':'.isDigit = true ∨ ':' ∈ numeralSigns) := by decide
  cases c with
  | wrongType got want =>
    obtain ⟨v, rfl⟩ := hc
    have hgot : ':' ∉ v.description.toList := by cases v <;> rw [Value.description] <;> decide
    have hwant : ':' ∉ want.text.toList := by cases want <;> decide
    left
    simp only [text, String.toList_append, List.mem_append, not_or]
    exact ⟨⟨⟨by decide, hgot⟩, by decide⟩, hwant⟩
  | noKind => exact .inl (by decide)
  | missing kind member => exact .inr (.inl ⟨kind, member, rfl⟩)
  | wrongKind kind want => exact .inr (.inr ⟨kind, want, rfl⟩)
  | notIntegral x =>
    left
    simp [text, not_mem_text hcolon x]
  | inexact x =>
    left
    simp [text, not_mem_text hcolon x]
  | outOfRange n least greatest =>
    left
    simp only [text, String.toList_append, List.mem_append, not_or]
    refine ⟨⟨⟨⟨⟨?_, by decide⟩, ?_⟩, by decide⟩, ?_⟩, by decide⟩
    · exact not_mem_toString hcolon n
    · exact not_mem_toString hcolon least
    · exact not_mem_toString hcolon greatest
  | unresolvedReference pos name => exact hc.elim
  | unresolvedCall pos name => exact hc.elim

/-- no complaint about a value has the text of one about a name without an entry -/
theorem IsKnown.toList_text_ne {c : Cause} (hc : c.IsKnown) (pos : Position) (rest : List Char) :
    c.text.toList ≠ pos.text.toList ++ ':' :: ' ' :: 'u' :: rest := by
  intro h
  rcases hc.colon with hcolon | ⟨kind, member, rfl⟩ | ⟨kind, want, rfl⟩
  · exact hcolon (h ▸ List.mem_append_right _ List.mem_cons_self)
  · have hafter : ':' ∉ " missing ".toList ++ (Text.quote member).toList := by
      rw [List.mem_append, not_or]
      exact ⟨by decide, colon_not_mem_quote hc.2⟩
    rw [toList_missing] at h
    obtain ⟨-, -, hrest⟩ := (List.append_cons_inj_of_notMem (colon_not_mem_name hc.1) hafter).1 h
    cases hrest
  · have hg : 'g' ∉ pos.text.toList := by
      have hword : ¬ ('g'.isDigit = true ∨ 'g' ∈ numeralSigns) := by decide
      rw [Position.text]
      split_ifs
      · simp only [String.toList_append, List.mem_append, not_or]
        exact ⟨⟨not_mem_toString hword _, by decide⟩, not_mem_toString hword _⟩
      · decide
    have hfirst : (wrongKind kind want).text.toList =
        'g' :: ("ot " ++ Text.quote kind ++ ", want " ++ want.text).toList := by
      simp [text]
    rw [hfirst] at h
    cases hpos : pos.text.toList with
    | nil =>
      rw [hpos] at h
      cases h
    | cons a as =>
      rw [hpos] at h hg
      exact hg ((List.cons.inj h).1 ▸ List.mem_cons_self)

theorem isSome_sentence? {c : Cause} (hc : c.IsKnown) : c.sentence?.isSome := by
  cases c with
  | unresolvedReference pos name => exact hc.elim
  | unresolvedCall pos name => exact hc.elim
  | _ => rfl

theorem isSome_sentence?_of_text_eq {k c : Cause} (hc : c.IsKnown) (h : k.text = c.text) : k.sentence?.isSome := by
  cases k with
  | unresolvedReference pos name =>
    refine absurd ?_ (hc.toList_text_ne pos ("nresolved reference to ".toList ++ name.toList))
    rw [← h]
    simp [text]
  | unresolvedCall pos name =>
    refine absurd ?_ (hc.toList_text_ne pos ("nresolved call to ".toList ++ name.toList))
    rw [← h]
    simp [text]
  | _ => rfl

theorem missing_inj {kind kind' member member' : String} (hkind : kind ∈ nodeNames) (hmember : member ∈ memberNames)
    (h : (missing kind' member').text = (missing kind member).text) : kind' = kind ∧ member' = member := by
  have hafter : ':' ∉ " missing ".toList ++ (Text.quote member).toList := by
    rw [List.mem_append, not_or]
    exact ⟨by decide, colon_not_mem_quote hmember⟩
  have hlist := (congrArg String.toList h).symm
  rw [toList_missing, toList_missing] at hlist
  obtain ⟨hkinds, -, hrest⟩ := (List.append_cons_inj_of_notMem (colon_not_mem_name hkind) hafter).1 hlist
  have hquote := String.toList_inj.1 (List.append_cancel_left hrest)
  exact ⟨(String.toList_inj.1 hkinds).symm, (Text.quote_injective hquote).symm⟩

theorem toList_outOfRange (n least greatest : ℤ) : (outOfRange n least greatest).beginning.toList =
    ((toString n).toList ++ " is out of range ".toList) ++
      '[' :: ((toString least).toList ++ ',' :: ' ' :: (toString greatest).toList) := by
  simp [beginning]

theorem outOfRange_inj {n n' least least' greatest greatest' : ℤ}
    (h : (outOfRange n' least' greatest').beginning = (outOfRange n least greatest).beginning) :
    n' = n ∧ least' = least ∧ greatest' = greatest := by
  have hint : ∀ {a b : ℤ}, (toString a).toList = (toString b).toList → b = a := fun h =>
    (Int.repr_inj.1 (String.toList_inj.1 h)).symm
  have hbracket : ¬ ('['.isDigit = true ∨ '[' ∈ numeralSigns) := by decide
  have hcomma : ¬ (','.isDigit = true ∨ ',' ∈ numeralSigns) := by decide
  have hlist := (congrArg String.toList h).symm
  rw [toList_outOfRange, toList_outOfRange] at hlist
  -- the only bracket ends the number, and the only comma after it the lower bound
  have hbefore : '[' ∉ (toString n).toList ++ " is out of range ".toList := by
    rw [List.mem_append, not_or]
    exact ⟨not_mem_toString hbracket n, by decide⟩
  have hafter : '[' ∉ (toString least).toList ++ ',' :: ' ' :: (toString greatest).toList := by
    simp only [List.mem_append, List.mem_cons, not_or]
    exact ⟨not_mem_toString hbracket least, by decide, by decide, not_mem_toString hbracket greatest⟩
  obtain ⟨hnumber, -, hbounds⟩ := (List.append_cons_inj_of_notMem hbefore hafter).1 hlist
  have hgreatest : ',' ∉ ' ' :: (toString greatest).toList := by
    rw [List.mem_cons, not_or]
    exact ⟨by decide, not_mem_toString hcomma greatest⟩
  obtain ⟨hleast, -, hgreatest⟩ :=
    (List.append_cons_inj_of_notMem (not_mem_toString hcomma least) hgreatest).1 hbounds
  exact ⟨hint (List.append_cancel_right hnumber), hint hleast, hint (List.cons.inj hgreatest).2⟩

/-- **Causes.** What has the text of a known cause is that cause, up to numbers that are written alike. -/
theorem cases_of_text_eq {k c : Cause} (hc : c.IsKnown) (h : k.text = c.text) :
    k = c ∨ ∃ x y : Binary64, x.text = y.text ∧
      ((k = .notIntegral x ∧ c = .notIntegral y) ∨ (k = .inexact x ∧ c = .inexact y)) := by
  obtain ⟨hsentence, hbeginning⟩ := sentence_inj (isSome_sentence?_of_text_eq hc h) (isSome_sentence? hc) h
  cases c with
  | wrongType got want =>
    cases k with
    | wrongType got' want' =>
      obtain rfl := Sentence.type.inj (Option.some.inj hsentence)
      obtain rfl := (String.append_right_inj "got ").1 hbeginning
      exact .inl rfl
    | _ => cases hsentence
  | noKind =>
    cases k with
    | noKind => exact .inl rfl
    | missing kind member =>
      have hcolon : ':' ∈ (missing kind member).text.toList := by simp [toList_missing]
      rw [h] at hcolon
      exact absurd hcolon (by decide)
    | _ => cases hsentence
  | missing kind member =>
    cases k with
    | noKind =>
      have hcolon : ':' ∈ (missing kind member).text.toList := by simp [toList_missing]
      rw [← h] at hcolon
      exact absurd hcolon (by decide)
    | missing kind' member' =>
      obtain ⟨rfl, rfl⟩ := missing_inj hc.1 hc.2 h
      exact .inl rfl
    | _ => cases hsentence
  | wrongKind kind want =>
    cases k with
    | wrongKind kind' want' =>
      obtain rfl := Sentence.kind.inj (Option.some.inj hsentence)
      obtain rfl := Text.quote_injective ((String.append_right_inj "got ").1 hbeginning)
      exact .inl rfl
    | _ => cases hsentence
  | notIntegral y =>
    cases k with
    | notIntegral x => exact .inr ⟨x, y, hbeginning, .inl ⟨rfl, rfl⟩⟩
    | _ => cases hsentence
  | inexact y =>
    cases k with
    | inexact x => exact .inr ⟨x, y, hbeginning, .inr ⟨rfl, rfl⟩⟩
    | _ => cases hsentence
  | outOfRange n least greatest =>
    cases k with
    | outOfRange n' least' greatest' =>
      obtain ⟨rfl, rfl, rfl⟩ := outOfRange_inj hbeginning
      exact .inl rfl
    | _ => cases hsentence
  | unresolvedReference pos name => exact hc.elim
  | unresolvedCall pos name => exact hc.elim

end Cause

/-! ## Complaints -/

/-- the members that the reader looks for have plain names -/
theorem Path.IsKnown.isPlain {p : Path} (h : p.IsKnown) : p.IsPlain := by
  have hnames : ∀ name ∈ memberNames, PathStep.IsPlain (.member name) := by
    simp only [PathStep.IsPlain]
    decide +kernel
  intro s hs
  cases s with
  | member name => exact hnames name (h name hs)
  | item i => trivial

theorem Cause.IsTrueOf.of_text_eq {k c : Cause} {w : Value} (hc : c.IsTrueOf w) (hknown : c.IsKnown)
    (h : k.text = c.text) : k.IsTrueOf w := by
  rcases Cause.cases_of_text_eq hknown h with rfl | ⟨x, y, hxy, ⟨rfl, rfl⟩ | ⟨rfl, rfl⟩⟩
  · exact hc
  · obtain ⟨z, hz, htext, hdenotes⟩ := hc
    exact ⟨z, hz, htext.trans hxy.symm, hdenotes⟩
  · obtain ⟨z, hz, htext, hbeyond⟩ := hc
    exact ⟨z, hz, htext.trans hxy.symm, hbeyond⟩

/-- **Complaints point at real places.** Let a value be refused. The text of the path can be read in one way only as
names without dots and brackets and numbers of items. This path leads to a part of the value, and whatever cause the
message can be read as is true of that part. -/
theorem complaints_point_at_a_real_place (v : Value) (c : Complaint) (h : Root.ofValue v = .error c) :
    (∀ p : Path, (p.IsPlain ∧ p.text = c.path.text) ↔ p = c.path) ∧
      ∃ w, v.at? c.path = some w ∧ ∀ k : Cause, k.text = c.cause.text → k.IsTrueOf w := by
  obtain ⟨hpath, hcause⟩ := Root.ofValue_ownWords v c h
  constructor
  · intro p
    constructor
    · rintro ⟨hp, htext⟩
      exact Path.eq_of_text_eq hp hpath.isPlain htext
    · rintro rfl
      exact ⟨hpath.isPlain, rfl⟩
  · obtain ⟨-, rest, w, hrest, hw, htrue⟩ := Root.ofValue_pointsInto v c h
    rw [List.nil_append] at hrest
    subst hrest
    exact ⟨w, hw, fun k hk => htrue.of_text_eq hcause hk⟩

/-- a program with an expression in place of its declaration -/
def strayValue : Value :=
  .ofMembers [("kind", .string "letin"), ("decls", .list [.ofMembers [("kind", .string "int")]])]

theorem strayValue_is_refused_at_its_declaration : ∃ c, Root.ofValue strayValue = .error c ∧
    c.text = "decls[0]: got \"int\", want declaration (fun or var)" ∧
    ∃ w, strayValue.at? c.path = some w ∧
      ∃ ms : Members, w = .object ms ∧ ms.get? "kind" = some (.string "int") := by
  have hrefused : Root.ofValue strayValue =
      .error ⟨[.member "decls", .item 0], .wrongKind "int" .declaration⟩ := by cbv
  obtain ⟨-, w, hw, htrue⟩ := complaints_point_at_a_real_place strayValue _ hrefused
  refine ⟨_, hrefused, by decide +kernel, w, hw, ?_⟩
  exact htrue (.wrongKind "int" .declaration) rfl

end LetStack

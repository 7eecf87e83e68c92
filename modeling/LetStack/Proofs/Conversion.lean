/-
Trees that go through formats.

A tree that has been read can be written in each of the three formats and read again, and so on, through any number of
formats in any order (`Root.relay`). The first pass resets the positions that are not known; the later ones change
nothing more. What is seen of the tree stays the same throughout.

In the wire format lengths are numbers of 64 bits. No sequence of octets in a machine is longer; sequences here have any
length, so it is asked that the wire form of the tree has fewer than 2^64 octets if the wire format is used.

Results:
- `Value.exists_encode_decode`: a plain value is read back in every format;
- `Root.relay_eq`: what a tree becomes on its way through formats;
- `conversion_keeps_what_is_seen`: a tree that was read survives every sequence of formats with all that is seen of it.
-/
import LetStack.Proofs.Image
import LetStack.Proofs.JsonTrip
import LetStack.Proofs.Observation
import LetStack.Proofs.TextTrip
import LetStack.Proofs.WireTrip
import Mathlib

namespace LetStack

/-! ## One format -/

/-- a plain value is read back from its octets -/
theorem Value.exists_encode_decode {v : Value} (hv : v.IsPlain) {f : Format} (hf : f ∈ Format.all)
    (hlength : f = .wire → (Wire.write v).length < 2 ^ 64) :
    ∃ data, v.encode f = .ok data ∧ Value.decode f data = .ok v := by
  simp only [Format.all, List.mem_cons, List.not_mem_nil, or_false] at hf
  rcases hf with rfl | rfl | rfl
  · refine ⟨_, rfl, ?_⟩
    rw [Value.decode, Json.read_write hv]
  · refine ⟨_, rfl, ?_⟩
    rw [Value.decode, TextFormat.read?_write hv]
  · refine ⟨_, rfl, ?_⟩
    rw [Value.decode, Wire.read?_write hv (hlength rfl)]

/-- the numbers of a node that was read can be read back -/
theorem Node.IsReadable.fits {n : Node} (h : n.IsReadable) : n.Fits where
  position := fun p hp _ => (h.position p hp).2.1
  reference := fun r hr => (h.reference r hr).2
  integer := h.integer

namespace Root

variable {r : Root} {f : Format}

theorem ofValue_of_decode {data : List UInt8} (h : Root.decode f data = .ok r) : ∃ v, Root.ofValue v = .ok r := by
  obtain ⟨v, -, hv⟩ := decode_eq_ok.1 h
  exact ⟨v, hv⟩

/-- a tree that was read is read back from its octets, with its unknown positions reset -/
theorem exists_encode_decode (h : ∀ n ∈ r.nodes, n.IsReadable) (hf : f ∈ Format.all)
    (hlength : f = .wire → ∀ v, r.toValue = .ok v → (Wire.write v).length < 2 ^ 64) :
    ∃ data, r.encode f = .ok data ∧ Root.decode f data = .ok r.normal := by
  obtain ⟨v, hv⟩ := exists_toValue h
  obtain ⟨data, hencode, hdecode⟩ := Value.exists_encode_decode (isPlain_toValue hv) hf fun hwire => hlength hwire v hv
  have hread : Root.ofValue v = .ok r.normal := (r.gives_ofValue hv).eq_ok fun n hn => (h n hn).fits
  refine ⟨data, ?_, ?_⟩
  · rw [encode, unresolved?_of_isReadable h, hv]
    simp only [hencode]
  · exact decode_eq_ok.2 ⟨v, hdecode, hread⟩

/-! ## A sequence of formats -/

/-- a tree on its way through formats: in each of them it is written and read again -/
def relay : List Format → Root → Except Stop Root
  | [], r => .ok r
  | f :: fs, r =>
    match r.encode f with
    | .error stop => .error stop
    | .ok data =>
      match Root.decode f data with
      | .error failure => .error (.failure failure)
      | .ok r' => r'.relay fs

/-- the first format resets unknown positions, the others change nothing -/
theorem relay_eq {fs : List Format} (h : ∀ n ∈ r.nodes, n.IsReadable) (hfs : ∀ f ∈ fs, f ∈ Format.all)
    (hlength : .wire ∈ fs → ∀ v, r.toValue = .ok v → (Wire.write v).length < 2 ^ 64) :
    r.relay fs = .ok (if fs.isEmpty then r else r.normal) := by
  induction fs generalizing r with
  | nil => rfl
  | cons f fs ih =>
    obtain ⟨hf, hfs⟩ := List.forall_mem_cons.1 hfs
    obtain ⟨data, hencode, hdecode⟩ := exists_encode_decode h hf fun hwire =>
      hlength (by rw [hwire]; exact List.mem_cons_self)
    have hnormal := r.normal.isReadable_iff.1 (ofValue_of_decode hdecode)
    have hrest := ih hnormal hfs fun hwire => by
      rw [toValue_normal]
      exact hlength (List.mem_cons_of_mem _ hwire)
    rw [relay, hencode]
    simp only [hdecode]
    rw [hrest, normal_normal, ite_self]
    rfl

end Root

/-- **Conversion keeps what is seen.** A tree that was read goes through every sequence of formats. What comes out has
the same value, compiles to the same program or fails with the same message, with the same log however much of it is
asked for, and is traversed with the same lines whatever is passed over. -/
theorem conversion_keeps_what_is_seen {f : Format} {data : List UInt8} {r : Root} (hr : Root.decode f data = .ok r)
    {fs : List Format} (hfs : ∀ f ∈ fs, f ∈ Format.all)
    (hlength : .wire ∈ fs → ∀ v, r.toValue = .ok v → (Wire.write v).length < 2 ^ 64) :
    ∃ r', r.relay fs = .ok r' ∧ r'.outcome = r.outcome ∧ (∀ head v, r'.log head v = r.log head v) ∧
      (∀ prune, r'.visitLines prune = r.visitLines prune) ∧ r'.toValue = r.toValue := by
  have h := r.isReadable_iff.1 (Root.ofValue_of_decode hr)
  refine ⟨_, Root.relay_eq h hfs hlength, ?_⟩
  split_ifs
  · exact ⟨rfl, fun _ _ => rfl, fun _ => rfl, rfl⟩
  · exact ⟨r.outcome_normal, fun head v => r.log_normal head v, fun prune => r.visitLines_normal prune,
      r.toValue_normal⟩

/-- a tree whose positions have columns but no lines -/
def lineless : Root := .bare (.print ⟨0, 3⟩ (.literal ⟨0, 7⟩ (.int (-5))))

/-- a value that spells the tree; writing the tree gives another one, without the columns -/
def linelessValue : Value :=
  .ofMembers [("kind", .string "prog"), ("body", .ofMembers [("kind", .string "print"), ("col", .ofInt64 3),
    ("exp", .ofMembers [("kind", .string "int"), ("col", .ofInt64 7), ("value", .ofInt64 (-5))])])]

theorem lineless_goes_through_formats :
    ∃ data, Root.decode .json data = .ok lineless ∧ lineless.normal ≠ lineless ∧
      ∃ r', lineless.relay [.wire, .text, .wire, .json] = .ok r' ∧ r'.outcome = lineless.outcome ∧
        (∀ prune, r'.visitLines prune = lineless.visitLines prune) ∧ r'.toValue = lineless.toValue := by
  have hplain : linelessValue.IsPlain := by
    refine Value.isPlain_ofMembers (List.forall_mem_cons.2 ⟨.string, List.forall_mem_singleton.2 ?_⟩)
    refine Value.isPlain_ofMembers (List.forall_mem_cons.2 ⟨.string, List.forall_mem_cons.2 ⟨?_, ?_⟩⟩)
    · exact Value.isPlain_ofInt64 3
    refine List.forall_mem_singleton.2 (Value.isPlain_ofMembers (List.forall_mem_cons.2 ⟨.string, ?_⟩))
    exact List.forall_mem_cons.2 ⟨Value.isPlain_ofInt64 7, List.forall_mem_singleton.2 (Value.isPlain_ofInt64 (-5))⟩
  have hread : Root.ofValue linelessValue = .ok lineless := by cbv
  have hdecode : Root.decode .json (Utf8.encode (Json.write 0 linelessValue)) = .ok lineless := by
    refine Root.decode_eq_ok.2 ⟨linelessValue, ?_, hread⟩
    rw [Value.decode, Json.read_write hplain]
  have hlength : ∀ v, lineless.toValue = .ok v → (Wire.write v).length < 2 ^ 64 := by
    intro v hv
    cases hv
    decide +kernel
  have hformats : ∀ f ∈ [Format.wire, .text, .wire, .json], f ∈ Format.all := by decide
  obtain ⟨r', hrelay, houtcome, -, hlines, hvalue⟩ := conversion_keeps_what_is_seen hdecode hformats fun _ => hlength
  refine ⟨_, hdecode, ?_, r', hrelay, houtcome, hlines, hvalue⟩
  simp [lineless, Root.normal, Expr.normal, Position.normal, Position.isKnown, Position.unknown]

end LetStack

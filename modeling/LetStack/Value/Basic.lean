/-
Self-describing values: the data that the three exchange formats carry.

An object is a list of members with rising keys; keys are compared character by character, which orders them as their
UTF-8 octets do. `insert` keeps that order and replaces a member of the same key, so two objects with the same members
are equal.
-/
import LetStack.Number.Binary64

namespace LetStack

inductive Value where
  /-- no value at all; JSON cannot spell it -/
  | unset
  | null
  | number (x : Binary64)
  | string (s : String)
  | bool (b : Bool)
  | object (members : List (String × Value))
  | list (items : List Value)

abbrev Members := List (String × Value)

namespace Members

def get? (ms : Members) (key : String) : Option Value := ms.lookup key

def contains (ms : Members) (key : String) : Bool := ms.any fun m => m.1 == key

/-- adds a member, or replaces the one with this key -/
def insert (key : String) (v : Value) : Members → Members
  | [] => [(key, v)]
  | (k, w) :: rest =>
    if key < k then (key, v) :: (k, w) :: rest
    else if key = k then (key, v) :: rest
    else (k, w) :: Members.insert key v rest

/-- the members of a list, where the first of two with one key counts -/
def ofList (ms : List (String × Value)) : Members := ms.foldr (fun m acc => Members.insert m.1 m.2 acc) []

end Members

namespace Value

/-- an object with these members -/
def ofMembers (ms : List (String × Value)) : Value := .object (Members.ofList ms)

/-- what a value is, in messages -/
def description : Value → String
  | .unset => "nothing"
  | .null => "null"
  | .number _ => "number"
  | .string _ => "string"
  | .bool _ => "bool"
  | .object _ => "object"
  | .list _ => "list"

end Value

/-- a member is smaller than the members -/
theorem Members.sizeOf_get? {ms : Members} {key : String} {v : Value} (h : ms.get? key = some v) :
    sizeOf v < sizeOf ms := by
  induction ms with
  | nil => simp [Members.get?] at h
  | cons m rest ih =>
    obtain ⟨k, w⟩ := m
    simp only [Members.get?, List.lookup_cons] at h
    split at h
    · simp only [Option.some.injEq] at h
      subst h
      simp only [List.cons.sizeOf_spec, Prod.mk.sizeOf_spec]
      omega
    · have := ih h
      simp only [List.cons.sizeOf_spec]
      omega

end LetStack

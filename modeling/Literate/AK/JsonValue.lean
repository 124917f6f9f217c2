import Literate.AK.StringUtils

/-!
# AK: JSON values

`AK/JsonValue.h` and `AK/JsonObject.h`.  A `String` is its list of bytes.  A
`JsonObject` is the list of its members in the order in which an ordered hash map
visits them; the map holds each key once (`JsonValue.UniqueKeys`).

A `Double` is what the parser computes with floating-point operations, kept as the
operands of the computation.
-/

namespace Literate.AK

/-- `-0.0`, or `(double)whole + sign * (fraction / pow(10.0, digits))`, where `sign`
is that of `whole`. -/
inductive Double where
  | negativeZero
  | decimal (whole : Int) (fraction digits : Nat)
  deriving DecidableEq, Repr

inductive JsonValue where
  | null
  | int32 (n : Int32)
  | unsignedInt32 (n : UInt32)
  | int64 (n : Int64)
  | unsignedInt64 (n : UInt64)
  | double (d : Double)
  | bool (b : Bool)
  | string (s : List UInt8)
  | array (values : List JsonValue)
  | object (members : List (List UInt8 × JsonValue))

namespace JsonValue

/-- `JsonValue(long)`, where `sizeof(long)` is 8. -/
def ofLong (n : Int) : JsonValue := .int64 (Int64.ofInt n)

/-- `JsonValue(unsigned long)`, where `sizeof(long)` is 8: the value is stored as
`as_u64`, but the type says `UnsignedInt32`, so that `as_u32` reads its low half. -/
def ofUnsignedLong (n : Nat) : JsonValue := .unsignedInt32 (UInt32.ofNat n)

end JsonValue

/-- `JsonObject::set`: the value of a key is replaced in place, a new key comes
last. -/
def JsonObject.set (members : List (List UInt8 × JsonValue)) (key : List UInt8)
    (value : JsonValue) : List (List UInt8 × JsonValue) :=
  match members with
  | [] => [(key, value)]
  | (k, v) :: members =>
    if k = key then (key, value) :: members
    else (k, v) :: JsonObject.set members key value

/-- `JsonObject::get_ptr`. -/
def JsonObject.get (members : List (List UInt8 × JsonValue)) (key : List UInt8) :
    Option JsonValue :=
  match members with
  | [] => none
  | (k, v) :: members => if k = key then some v else JsonObject.get members key

namespace JsonValue

/-! ## Values as trees -/

/-- The number in an integer value of any of the four types. -/
def integer : JsonValue → Option Int
  | .int32 n => some n.toInt
  | .unsignedInt32 n => some n.toNat
  | .int64 n => some n.toInt
  | .unsignedInt64 n => some n.toNat
  | _ => none

mutual

/-- Every object of a value holds each of its keys once. -/
def UniqueKeys : JsonValue → Prop
  | .array values => UniqueKeysElements values
  | .object members => (members.map Prod.fst).Nodup ∧ UniqueKeysMembers members
  | _ => True

def UniqueKeysElements : List JsonValue → Prop
  | [] => True
  | value :: values => UniqueKeys value ∧ UniqueKeysElements values

def UniqueKeysMembers : List (List UInt8 × JsonValue) → Prop
  | [] => True
  | (_, value) :: members => UniqueKeys value ∧ UniqueKeysMembers members

end

mutual

/-- No value in the tree is a double. -/
def NoDouble : JsonValue → Prop
  | .double _ => False
  | .array values => NoDoubleElements values
  | .object members => NoDoubleMembers members
  | _ => True

def NoDoubleElements : List JsonValue → Prop
  | [] => True
  | value :: values => NoDouble value ∧ NoDoubleElements values

def NoDoubleMembers : List (List UInt8 × JsonValue) → Prop
  | [] => True
  | (_, value) :: members => NoDouble value ∧ NoDoubleMembers members

end

section

variable (number : Int → Prop) (char : UInt8 → Prop)

mutual

/-- What holds of every integer, and of every byte of the strings and keys. -/
def ForAll : JsonValue → Prop
  | .string s => ∀ c ∈ s, char c
  | .array values => ForAllElements values
  | .object members => ForAllMembers members
  | .int32 n => number n.toInt
  | .unsignedInt32 n => number n.toNat
  | .int64 n => number n.toInt
  | .unsignedInt64 n => number n.toNat
  | _ => True

def ForAllElements : List JsonValue → Prop
  | [] => True
  | value :: values => ForAll value ∧ ForAllElements values

def ForAllMembers : List (List UInt8 × JsonValue) → Prop
  | [] => True
  | (key, value) :: members => (∀ c ∈ key, char c) ∧ ForAll value ∧ ForAllMembers members

end

end

mutual

/-- The same structure with the same keys, strings and numbers: the types that
integers are stored in may differ, and the order of the members too. -/
def Same : JsonValue → JsonValue → Prop
  | .null, w => w = .null
  | .bool b, w => w = .bool b
  | .double d, w => w = .double d
  | .string s, w => w = .string s
  | .array values, w => ∃ values', w = .array values' ∧ SameElements values values'
  | .object members, w => ∃ members', w = .object members' ∧
      (∀ key, (JsonObject.get members key).isSome = (JsonObject.get members' key).isSome) ∧
      SameMembers members members'
  | .int32 n, w => w.integer = some n.toInt
  | .unsignedInt32 n, w => w.integer = some n.toNat
  | .int64 n, w => w.integer = some n.toInt
  | .unsignedInt64 n, w => w.integer = some n.toNat

def SameElements : List JsonValue → List JsonValue → Prop
  | [], values' => values' = []
  | value :: values, values' => ∃ w ws, values' = w :: ws ∧ Same value w ∧ SameElements values ws

/-- Every member is found under its key. -/
def SameMembers : List (List UInt8 × JsonValue) → List (List UInt8 × JsonValue) → Prop
  | [], _ => True
  | (key, value) :: members, members' =>
    (∃ w, JsonObject.get members' key = some w ∧ Same value w) ∧ SameMembers members members'

end

end JsonValue

/-! ## The members of an object -/

variable {members members' : List (List UInt8 × JsonValue)} {key : List UInt8}

theorem get_isSome_iff : (JsonObject.get members key).isSome ↔ key ∈ members.map Prod.fst := by
  induction members with
  | nil => simp [JsonObject.get]
  | cons member members ih =>
    obtain ⟨k, v⟩ := member
    rw [JsonObject.get]
    split_ifs with hk
    · simp [hk]
    · rw [ih]
      simp [Ne.symm hk]

theorem sameMembers_cons (hkey : key ∉ members.map Prod.fst) (value : JsonValue) :
    JsonValue.SameMembers members ((key, value) :: members') ↔
      JsonValue.SameMembers members members' := by
  induction members with
  | nil => simp [JsonValue.SameMembers]
  | cons member members ih =>
    obtain ⟨k, v⟩ := member
    simp only [List.map_cons, List.mem_cons, not_or] at hkey
    simp only [JsonValue.SameMembers, JsonObject.get, if_neg hkey.1, ih hkey.2]

theorem sameMembers_keys (h : JsonValue.SameMembers members members') :
    ∀ k ∈ members.map Prod.fst, k ∈ members'.map Prod.fst := by
  induction members with
  | nil => simp
  | cons member members ih =>
    obtain ⟨key, value⟩ := member
    rw [JsonValue.SameMembers] at h
    obtain ⟨⟨w, hw, -⟩, hrest⟩ := h
    intro k hk
    rcases List.mem_cons.mp hk with rfl | hk
    · exact get_isSome_iff.mp (by rw [hw]; rfl)
    · exact ih hrest k hk

end Literate.AK

import Literate.AK.JsonConversions
import Mathlib.Data.List.Perm.Subperm

/-!
# AK: equality of JSON values

`JsonValue::equals`.  Two objects of one size are compared by looking the keys of the first
up in the second, and `JsonObject::get` answers null for a key that is not there: a null
member of the first object is equal to no member at all of the second.
-/

namespace Literate.AK.JsonValue

open List Option

/-! ## The comparison -/

def isNull : JsonValue → Bool
  | .null => true
  | _ => false

def isNumber : JsonValue → Bool
  | .int32 _ | .unsignedInt32 _ | .int64 _ | .unsignedInt64 _ | .double _ => true
  | _ => false

section

variable (ofDouble : Double → Rat)

/-- `to_number<double>`. -/
def toDouble (value : JsonValue) : Rat := value.toNumber (NumberType.double ofDouble) (0 : Rat)

/-- The comparison of two numbers. -/
def equalsNumber (value other : JsonValue) : Bool :=
  value.isNumber && other.isNumber && decide (value.toDouble ofDouble = other.toDouble ofDouble)

mutual

def equals : JsonValue → JsonValue → Bool
  | .null, other => other.isNull
  | .bool b, other =>
    match other with
    | .bool b' => b == b'
    | _ => false
  | .string s, other =>
    match other with
    | .string s' => s == s'
    | _ => false
  | .array values, other =>
    match other with
    | .array values' => values.length == values'.length && equalsElements values values'
    | _ => false
  | .object members, other =>
    match other with
    | .object members' => members.length == members'.length && equalsMembers members members'
    | _ => false
  | .int32 n, other => equalsNumber ofDouble (.int32 n) other
  | .unsignedInt32 n, other => equalsNumber ofDouble (.unsignedInt32 n) other
  | .int64 n, other => equalsNumber ofDouble (.int64 n) other
  | .unsignedInt64 n, other => equalsNumber ofDouble (.unsignedInt64 n) other
  | .double d, other => equalsNumber ofDouble (.double d) other

/-- The loop over the elements of two arrays of one size. -/
def equalsElements : List JsonValue → List JsonValue → Bool
  | [], _ => true
  | value :: values, others =>
    match others with
    | [] => false
    | other :: others => equals value other && equalsElements values others

/-- The loop over the members of an object: `get` answers null for a key that is not in the
other object. -/
def equalsMembers : List (List UInt8 × JsonValue) → List (List UInt8 × JsonValue) → Bool
  | [], _ => true
  | (key, value) :: members, others =>
    equals value ((JsonObject.get others key).getD .null) && equalsMembers members others

end

end

/-! ## What tells two values apart -/

mutual

/-- The numbers of a value are integers of 32 bits. -/
def Narrow : JsonValue → Prop
  | .int64 _ | .unsignedInt64 _ | .double _ => False
  | .array values => NarrowElements values
  | .object members => NarrowMembers members
  | _ => True

def NarrowElements : List JsonValue → Prop
  | [] => True
  | value :: values => Narrow value ∧ NarrowElements values

def NarrowMembers : List (List UInt8 × JsonValue) → Prop
  | [] => True
  | (_, value) :: members => Narrow value ∧ NarrowMembers members

end

/-- A value built from null, booleans, strings, integers of 32 bits, arrays, and objects
that hold each key once. -/
structure Plain (value : JsonValue) : Prop where
  narrow : value.Narrow
  uniqueKeys : value.UniqueKeys

mutual

/-- Two values differ in a scalar, in the size of an array or an object, or in a member of
the first that the second does not have and that is not null. -/
def Differ : JsonValue → JsonValue → Prop
  | .null, other => other ≠ .null
  | .bool b, other => other ≠ .bool b
  | .double d, other => other ≠ .double d
  | .string s, other => other ≠ .string s
  | .array values, other => ∀ values', other = .array values' →
      values.length ≠ values'.length ∨ DifferElements values values'
  | .object members, other => ∀ members', other = .object members' →
      members.length ≠ members'.length ∨ DifferMembers members members'
  | .int32 n, other => other.integer ≠ some n.toInt
  | .unsignedInt32 n, other => other.integer ≠ some n.toNat
  | .int64 n, other => other.integer ≠ some n.toInt
  | .unsignedInt64 n, other => other.integer ≠ some n.toNat

def DifferElements : List JsonValue → List JsonValue → Prop
  | [], _ => False
  | value :: values, others => ∀ other others', others = other :: others' →
      Differ value other ∨ DifferElements values others'

def DifferMembers : List (List UInt8 × JsonValue) → List (List UInt8 × JsonValue) → Prop
  | [], _ => False
  | (key, value) :: members, others =>
    (∀ other ∈ JsonObject.get others key, Differ value other) ∧
        (JsonObject.get others key = none → value ≠ .null) ∨
      DifferMembers members others

end

mutual

/-- Where an object of the first value has a null member, the object at the same place of
the second has its key. -/
def NullsKept : JsonValue → JsonValue → Prop
  | .array values, other => ∀ values', other = .array values' → NullsKeptElements values values'
  | .object members, other =>
    ∀ members', other = .object members' → NullsKeptMembers members members'
  | _, _ => True

def NullsKeptElements : List JsonValue → List JsonValue → Prop
  | [], _ => True
  | value :: values, others => ∀ other others', others = other :: others' →
      NullsKept value other ∧ NullsKeptElements values others'

def NullsKeptMembers : List (List UInt8 × JsonValue) → List (List UInt8 × JsonValue) → Prop
  | [], _ => True
  | (key, value) :: members, others =>
    (value = .null → JsonObject.get others key ≠ none) ∧
      (∀ other ∈ JsonObject.get others key, NullsKept value other) ∧
        NullsKeptMembers members others

end

/-! ## The comparison finds what tells two values apart -/

variable {members others : List (List UInt8 × JsonValue)} {key : List UInt8} {n : Int}

theorem narrow_get (h : NarrowMembers members)
    {value : JsonValue} (hget : JsonObject.get members key = some value) : value.Narrow := by
  induction members with
  | nil => cases hget
  | cons member members ih =>
    rw [NarrowMembers] at h
    rw [JsonObject.get] at hget
    split_ifs at hget with hkey
    · obtain rfl := some.inj hget
      exact h.1
    · exact ih h.2 hget

theorem uniqueKeys_get (h : UniqueKeysMembers members)
    {value : JsonValue} (hget : JsonObject.get members key = some value) : value.UniqueKeys := by
  induction members with
  | nil => cases hget
  | cons member members ih =>
    rw [UniqueKeysMembers] at h
    rw [JsonObject.get] at hget
    split_ifs at hget with hkey
    · obtain rfl := some.inj hget
      exact h.1
    · exact ih h.2 hget

theorem toDouble_of_integer (ofDouble : Double → Rat) {value : JsonValue}
    (h : value.integer = some n) (hn : n.natAbs < 2 ^ 53) : value.toDouble ofDouble = n := by
  have hround : (NumberType.double ofDouble).ofInteger n = (n : Rat) :=
    congrArg (fun m : Int => (m : Rat)) (NumberType.holds_double hn ofDouble)
  exact (toNumber_of_integer h _ _).trans hround

/-- A number of at most 32 bits is equal to the values that have the same number. -/
theorem equalsNumber_eq_false_iff (ofDouble : Double → Rat) {value other : JsonValue}
    (h : value.integer = some n) (hvalue : value.isNumber = true) (hn : n.natAbs < 2 ^ 53)
    (hother : other.Narrow) :
    equalsNumber ofDouble value other = false ↔ other.integer ≠ some n := by
  have hinteger : ∀ m : Int, other.integer = some m → other.isNumber = true → m.natAbs < 2 ^ 53 →
      (equalsNumber ofDouble value other = false ↔ other.integer ≠ some n) := by
    intro m hm hnumber hsmall
    rw [equalsNumber, hvalue, hnumber, Bool.and_self, Bool.true_and, decide_eq_false_iff_not,
      toDouble_of_integer ofDouble h hn, toDouble_of_integer ofDouble hm hsmall, hm,
      Rat.intCast_inj, ne_eq, some.injEq]
    exact not_congr eq_comm
  have hnone : other.integer = none → other.isNumber = false →
      (equalsNumber ofDouble value other = false ↔ other.integer ≠ some n) := by
    intro hm hnumber
    rw [equalsNumber, hnumber, hm, Bool.and_false, Bool.false_and]
    simp
  cases other with
  | null => exact hnone rfl rfl
  | bool b => exact hnone rfl rfl
  | string s => exact hnone rfl rfl
  | array values => exact hnone rfl rfl
  | object members => exact hnone rfl rfl
  | double d => exact absurd hother (by simp [Narrow])
  | int64 m => exact absurd hother (by simp [Narrow])
  | unsignedInt64 m => exact absurd hother (by simp [Narrow])
  | int32 m =>
    refine hinteger m.toInt rfl rfl ?_
    have hlow := m.le_toInt
    have hhigh := m.toInt_lt
    omega
  | unsignedInt32 m =>
    refine hinteger m.toNat rfl rfl ?_
    have hlt := m.toNat_lt
    omega

section

variable (ofDouble : Double → Rat)

mutual

theorem equals_eq_false_iff : ∀ value other : JsonValue, value.Narrow → other.Narrow →
    (equals ofDouble value other = false ↔ Differ value other)
  | .null, other, _, _ => by cases other <;> simp [equals, Differ, isNull]
  | .bool b, other, _, _ => by
    cases other with
    | bool b' =>
      rw [equals, Differ, beq_eq_false_iff_ne, ne_eq, ne_eq, bool.injEq]
      exact not_congr eq_comm
    | _ => simp [equals, Differ]
  | .double d, _, h, _ => absurd h (by simp [Narrow])
  | .int64 n, _, h, _ => absurd h (by simp [Narrow])
  | .unsignedInt64 n, _, h, _ => absurd h (by simp [Narrow])
  | .string s, other, _, _ => by
    cases other with
    | string s' =>
      rw [equals, Differ, beq_eq_false_iff_ne, ne_eq, ne_eq, string.injEq]
      exact not_congr eq_comm
    | _ => simp [equals, Differ]
  | .int32 n, other, _, hother => by
    rw [equals, Differ]
    refine equalsNumber_eq_false_iff ofDouble rfl rfl ?_ hother
    have hlow := n.le_toInt
    have hhigh := n.toInt_lt
    omega
  | .unsignedInt32 n, other, _, hother => by
    rw [equals, Differ]
    refine equalsNumber_eq_false_iff ofDouble rfl rfl ?_ hother
    have hlt := n.toNat_lt
    omega
  | .array values, other, h, hother => by
    rw [Narrow] at h
    cases other with
    | array values' =>
      rw [Narrow] at hother
      rw [equals, Differ, Bool.and_eq_false_iff, beq_eq_false_iff_ne,
        equalsElements_eq_false_iff values values' h hother]
      constructor
      · rintro hdiffer values'' heq
        obtain rfl := array.inj heq
        exact hdiffer
      · intro hdiffer
        exact hdiffer values' rfl
    | _ => simp [equals, Differ]
  | .object members, other, h, hother => by
    rw [Narrow] at h
    cases other with
    | object members' =>
      rw [Narrow] at hother
      rw [equals, Differ, Bool.and_eq_false_iff, beq_eq_false_iff_ne,
        equalsMembers_eq_false_iff members members' h hother]
      constructor
      · rintro hdiffer members'' heq
        obtain rfl := object.inj heq
        exact hdiffer
      · intro hdiffer
        exact hdiffer members' rfl
    | _ => simp [equals, Differ]

theorem equalsElements_eq_false_iff : ∀ values others : List JsonValue,
    NarrowElements values → NarrowElements others →
    (equalsElements ofDouble values others = false ↔ DifferElements values others)
  | [], others, _, _ => by simp [equalsElements, DifferElements]
  | value :: values, [], _, _ => by simp [equalsElements, DifferElements]
  | value :: values, other :: others, h, hother => by
    rw [NarrowElements] at h hother
    rw [equalsElements, DifferElements, Bool.and_eq_false_iff,
      equals_eq_false_iff value other h.1 hother.1,
      equalsElements_eq_false_iff values others h.2 hother.2]
    simp

theorem equalsMembers_eq_false_iff : ∀ members others : List (List UInt8 × JsonValue),
    NarrowMembers members → NarrowMembers others →
    (equalsMembers ofDouble members others = false ↔ DifferMembers members others)
  | [], others, _, _ => by simp [equalsMembers, DifferMembers]
  | (key, value) :: members, others, h, hother => by
    rw [NarrowMembers] at h
    rw [equalsMembers, DifferMembers, Bool.and_eq_false_iff,
      equalsMembers_eq_false_iff members others h.2 hother]
    refine or_congr_left ?_
    cases hget : JsonObject.get others key with
    | none =>
      rw [getD_none, equals_eq_false_iff value .null h.1 (by simp [Narrow])]
      cases value <;> simp [Differ, integer]
    | some other =>
      rw [getD_some, equals_eq_false_iff value other h.1 (narrow_get hother hget)]
      simp

end

end

/-! ## Sameness -/

/-- Two lists of distinct keys, one inside the other, have the same keys exactly when they
have one length. -/
theorem same_keys_iff {keys others : List (List UInt8)} (h : keys.Nodup) (h' : others.Nodup)
    (hsub : ∀ k ∈ keys, k ∈ others) :
    (∀ k, k ∈ keys ↔ k ∈ others) ↔ keys.length = others.length := by
  constructor
  · intro hsame
    exact ((perm_ext_iff_of_nodup h h').mpr hsame).length_eq
  · intro hlength
    have hperm := (h.subperm hsub).perm_of_length_le (Nat.le_of_eq hlength.symm)
    exact fun k => hperm.mem_iff

/-- The two clauses on the members of an object, when one list of keys is in the other. -/
theorem get_isSome_eq_iff :
    (∀ key, (JsonObject.get members key).isSome = (JsonObject.get others key).isSome) ↔
      ∀ key, key ∈ members.map Prod.fst ↔ key ∈ others.map Prod.fst := by
  refine forall_congr' fun key => ?_
  rw [Bool.eq_iff_iff, get_isSome_iff, get_isSome_iff]

mutual

/-- Two values are the same exactly when they do not differ and the second has the null
members of the first. -/
theorem same_iff : ∀ value other : JsonValue, value.UniqueKeys → other.UniqueKeys →
    (Same value other ↔ ¬ Differ value other ∧ NullsKept value other)
  | .null, other, _, _ => by simp [Same, Differ, NullsKept]
  | .bool b, other, _, _ => by simp [Same, Differ, NullsKept]
  | .double d, other, _, _ => by simp [Same, Differ, NullsKept]
  | .string s, other, _, _ => by simp [Same, Differ, NullsKept]
  | .int32 n, other, _, _ => by simp [Same, Differ, NullsKept]
  | .unsignedInt32 n, other, _, _ => by simp [Same, Differ, NullsKept]
  | .int64 n, other, _, _ => by simp [Same, Differ, NullsKept]
  | .unsignedInt64 n, other, _, _ => by simp [Same, Differ, NullsKept]
  | .array values, other, h, h' => by
    rw [UniqueKeys] at h
    rw [Same, Differ, NullsKept]
    cases other with
    | array values' =>
      rw [UniqueKeys] at h'
      have hiff := sameElements_iff values values' h h'
      constructor
      · rintro ⟨values'', heq, hsame⟩
        obtain rfl := array.inj heq
        obtain ⟨hlength, hdiffer, hnulls⟩ := hiff.mp hsame
        refine ⟨fun hall => ?_, fun values'' heq => ?_⟩
        · exact (hall values' rfl).elim (fun hne => hne hlength) hdiffer
        · obtain rfl := array.inj heq
          exact hnulls
      · rintro ⟨hdiffer, hnulls⟩
        refine ⟨values', rfl, hiff.mpr ⟨?_, fun hd => ?_, hnulls values' rfl⟩⟩
        · by_contra hlength
          refine hdiffer fun values'' heq => ?_
          obtain rfl := array.inj heq
          exact .inl hlength
        · refine hdiffer fun values'' heq => ?_
          obtain rfl := array.inj heq
          exact .inr hd
    | _ => simp
  | .object members, other, h, h' => by
    rw [UniqueKeys] at h
    rw [Same, Differ, NullsKept]
    cases other with
    | object others =>
      rw [UniqueKeys] at h'
      have hiff := sameMembers_iff members others h.2 h'.2
      have hkeys : SameMembers members others →
          ((∀ key, (JsonObject.get members key).isSome = (JsonObject.get others key).isSome) ↔
            members.length = others.length) := by
        intro hsame
        simp only [get_isSome_eq_iff, same_keys_iff h.1 h'.1 (sameMembers_keys hsame), length_map]
      constructor
      · rintro ⟨others', heq, hsome, hsame⟩
        obtain rfl := object.inj heq
        obtain ⟨hdiffer, hnulls⟩ := hiff.mp hsame
        refine ⟨fun hall => ?_, fun others' heq => ?_⟩
        · exact (hall others rfl).elim (fun hne => hne ((hkeys hsame).mp hsome)) hdiffer
        · obtain rfl := object.inj heq
          exact hnulls
      · rintro ⟨hdiffer, hnulls⟩
        have hmembers : ¬ DifferMembers members others := by
          refine fun hd => hdiffer fun others' heq => ?_
          obtain rfl := object.inj heq
          exact .inr hd
        have hlength : members.length = others.length := by
          by_contra hlength
          refine hdiffer fun others' heq => ?_
          obtain rfl := object.inj heq
          exact .inl hlength
        have hsame := hiff.mpr ⟨hmembers, hnulls others rfl⟩
        exact ⟨others, rfl, (hkeys hsame).mpr hlength, hsame⟩
    | _ => simp

theorem sameElements_iff : ∀ values others : List JsonValue,
    UniqueKeysElements values → UniqueKeysElements others →
    (SameElements values others ↔ values.length = others.length ∧
      ¬ DifferElements values others ∧ NullsKeptElements values others)
  | [], others, _, _ => by
    rw [SameElements, DifferElements, NullsKeptElements, length_nil, eq_comm (a := 0),
      length_eq_zero_iff]
    simp
  | value :: values, [], _, _ => by simp [SameElements]
  | value :: values, other :: others, h, h' => by
    rw [UniqueKeysElements] at h h'
    have hvalue := same_iff value other h.1 h'.1
    have hvalues := sameElements_iff values others h.2 h'.2
    constructor
    · rw [SameElements]
      rintro ⟨w, ws, heq, hsame, hrest⟩
      obtain ⟨rfl, rfl⟩ := List.cons.inj heq
      obtain ⟨hdiffer, hnulls⟩ := hvalue.mp hsame
      obtain ⟨hlength, hdiffers, hnullss⟩ := hvalues.mp hrest
      refine ⟨congrArg Nat.succ hlength, ?_, ?_⟩
      · rw [DifferElements]
        exact fun hall => (hall other others rfl).elim hdiffer hdiffers
      · rw [NullsKeptElements]
        rintro w ws heq
        obtain ⟨rfl, rfl⟩ := List.cons.inj heq
        exact ⟨hnulls, hnullss⟩
    · rw [DifferElements, NullsKeptElements]
      rintro ⟨hlength, hdiffer, hnulls⟩
      obtain ⟨hnull, hnullss⟩ := hnulls other others rfl
      have hnone : ¬ (Differ value other ∨ DifferElements values others) := by
        refine fun hd => hdiffer fun w ws heq => ?_
        obtain ⟨rfl, rfl⟩ := List.cons.inj heq
        exact hd
      rw [not_or] at hnone
      rw [SameElements]
      exact ⟨other, others, rfl, hvalue.mpr ⟨hnone.1, hnull⟩,
        hvalues.mpr ⟨Nat.succ.inj hlength, hnone.2, hnullss⟩⟩

theorem sameMembers_iff : ∀ members others : List (List UInt8 × JsonValue),
    UniqueKeysMembers members → UniqueKeysMembers others →
    (SameMembers members others ↔
      ¬ DifferMembers members others ∧ NullsKeptMembers members others)
  | [], others, _, _ => by simp [SameMembers, DifferMembers, NullsKeptMembers]
  | (key, value) :: members, others, h, h' => by
    rw [UniqueKeysMembers] at h
    rw [SameMembers, DifferMembers, NullsKeptMembers, sameMembers_iff members others h.2 h']
    cases hget : JsonObject.get others key with
    | none =>
      constructor
      · rintro ⟨⟨w, hw, -⟩, -⟩
        cases hw
      · rintro ⟨hdiffer, hnull, -⟩
        refine absurd (.inl ⟨fun _ h => absurd h (not_mem_none _), ?_⟩) hdiffer
        exact fun _ hvalue => hnull hvalue rfl
    | some other =>
      have hvalue := same_iff value other h.1 (uniqueKeys_get h' hget)
      simp only [some.injEq, exists_eq_left', mem_def, forall_eq', hvalue,
        reduceCtorEq, false_implies, and_true, not_or, ne_eq, not_false_eq_true,
        implies_true, true_and]
      exact and_and_and_comm

end

/-- The members of an object are found under their keys. -/
theorem sameMembers_get (h : SameMembers members others) {value : JsonValue}
    (hget : JsonObject.get members key = some value) :
    ∃ other, JsonObject.get others key = some other ∧ Same value other := by
  induction members with
  | nil => cases hget
  | cons member members ih =>
    rw [SameMembers] at h
    rw [JsonObject.get] at hget
    split_ifs at hget with hkey
    · obtain rfl := some.inj hget
      rw [← hkey]
      exact h.1
    · exact ih h.2 hget

/-- Distinct keys are each found with their own value. -/
theorem sameMembers_of_get
    (hnodup : (members.map Prod.fst).Nodup)
    (h : ∀ key value, JsonObject.get members key = some value →
      ∃ other, JsonObject.get others key = some other ∧ Same value other) :
    SameMembers members others := by
  induction members with
  | nil => trivial
  | cons member members ih =>
    obtain ⟨key, value⟩ := member
    rw [map_cons, nodup_cons] at hnodup
    rw [SameMembers]
    refine ⟨h key value (if_pos rfl), ih hnodup.2 fun k v hget => h k v ?_⟩
    have hne : key ≠ k := by
      rintro rfl
      exact hnodup.1 (get_isSome_iff.mp (by rw [hget]; rfl))
    rw [JsonObject.get, if_neg hne, hget]

/-- A value of the integers is the same as the values that have the same number. -/
theorem same_of_integer {value other : JsonValue} (h : value.integer = some n)
    (hother : other.integer = some n) : Same value other := by
  cases value with
  | int32 m => exact hother.trans h.symm
  | unsignedInt32 m => exact hother.trans h.symm
  | int64 m => exact hother.trans h.symm
  | unsignedInt64 m => exact hother.trans h.symm
  | null => cases h
  | double d => cases h
  | bool b => cases h
  | string s => cases h
  | array values => cases h
  | object members => cases h

theorem integer_of_same {value other : JsonValue} (h : value.integer = some n)
    (hsame : Same value other) : other.integer = some n := by
  cases value with
  | int32 m => exact Eq.trans hsame h
  | unsignedInt32 m => exact Eq.trans hsame h
  | int64 m => exact Eq.trans hsame h
  | unsignedInt64 m => exact Eq.trans hsame h
  | null => cases h
  | double d => cases h
  | bool b => cases h
  | string s => cases h
  | array values => cases h
  | object members => cases h

mutual

theorem Same.symm : ∀ {value other : JsonValue}, value.UniqueKeys → other.UniqueKeys →
    Same value other → Same other value
  | .null, other, _, _, h => by
    rw [Same] at h
    rw [h, Same]
  | .bool b, other, _, _, h => by
    rw [Same] at h
    rw [h, Same]
  | .double d, other, _, _, h => by
    rw [Same] at h
    rw [h, Same]
  | .string s, other, _, _, h => by
    rw [Same] at h
    rw [h, Same]
  | .int32 n, other, _, _, h => same_of_integer (integer_of_same rfl h) rfl
  | .unsignedInt32 n, other, _, _, h => same_of_integer (integer_of_same rfl h) rfl
  | .int64 n, other, _, _, h => same_of_integer (integer_of_same rfl h) rfl
  | .unsignedInt64 n, other, _, _, h => same_of_integer (integer_of_same rfl h) rfl
  | .array values, other, hu, hu', h => by
    rw [Same] at h
    obtain ⟨values', rfl, hsame⟩ := h
    rw [UniqueKeys] at hu hu'
    rw [Same]
    exact ⟨values, rfl, sameElements_symm hu hu' hsame⟩
  | .object members, other, hu, hu', h => by
    rw [Same] at h
    obtain ⟨others, rfl, hsome, hsame⟩ := h
    rw [UniqueKeys] at hu hu'
    rw [Same]
    refine ⟨members, rfl, fun key => (hsome key).symm, sameMembers_of_get hu'.1 ?_⟩
    intro key other hother
    have hvalue : (JsonObject.get members key).isSome = true := by
      rw [hsome key, hother]
      rfl
    obtain ⟨value, hvalue⟩ := isSome_iff_exists.mp hvalue
    obtain ⟨other', hother', hsame'⟩ := sameMembers_get hsame hvalue
    obtain rfl := some.inj (hother.symm.trans hother')
    exact ⟨value, hvalue, get_symm hu.2 hvalue (uniqueKeys_get hu'.2 hother) hsame'⟩

theorem sameElements_symm : ∀ {values others : List JsonValue}, UniqueKeysElements values →
    UniqueKeysElements others → SameElements values others → SameElements others values
  | [], others, _, _, h => by
    rw [SameElements] at h
    rw [h, SameElements]
  | value :: values, others, hu, hu', h => by
    rw [SameElements] at h
    obtain ⟨other, others, rfl, hsame, hrest⟩ := h
    rw [UniqueKeysElements] at hu hu'
    rw [SameElements]
    exact ⟨value, values, rfl, Same.symm hu.1 hu'.1 hsame, sameElements_symm hu.2 hu'.2 hrest⟩

/-- A value that stands in an object, and one it is the same as. -/
theorem get_symm : ∀ {members : List (List UInt8 × JsonValue)} {key : List UInt8}
    {value other : JsonValue}, UniqueKeysMembers members →
    JsonObject.get members key = some value → other.UniqueKeys → Same value other →
    Same other value
  | [], _, _, _, _, hget, _, _ => by cases hget
  | (k, v) :: members, key, value, other, hu, hget, hu', h => by
    rw [UniqueKeysMembers] at hu
    rw [JsonObject.get] at hget
    split_ifs at hget with hkey
    · obtain rfl := some.inj hget
      exact Same.symm hu.1 hu' h
    · exact get_symm hu.2 hget hu' h

end

mutual

theorem Same.trans : ∀ {value other third : JsonValue}, value.UniqueKeys →
    Same value other → Same other third → Same value third
  | .null, other, third, _, h, h' => by
    rw [Same] at h
    rwa [h] at h'
  | .bool b, other, third, _, h, h' => by
    rw [Same] at h
    rwa [h] at h'
  | .double d, other, third, _, h, h' => by
    rw [Same] at h
    rwa [h] at h'
  | .string s, other, third, _, h, h' => by
    rw [Same] at h
    rwa [h] at h'
  | .int32 n, other, third, _, h, h' => same_of_integer rfl (integer_of_same h h')
  | .unsignedInt32 n, other, third, _, h, h' => same_of_integer rfl (integer_of_same h h')
  | .int64 n, other, third, _, h, h' => same_of_integer rfl (integer_of_same h h')
  | .unsignedInt64 n, other, third, _, h, h' => same_of_integer rfl (integer_of_same h h')
  | .array values, other, third, hu, h, h' => by
    rw [Same] at h
    obtain ⟨others, rfl, hsame⟩ := h
    rw [Same] at h'
    obtain ⟨thirds, rfl, hsame'⟩ := h'
    rw [UniqueKeys] at hu
    rw [Same]
    exact ⟨thirds, rfl, sameElements_trans hu hsame hsame'⟩
  | .object members, other, third, hu, h, h' => by
    rw [Same] at h
    obtain ⟨others, rfl, hsome, hsame⟩ := h
    rw [Same] at h'
    obtain ⟨thirds, rfl, hsome', hsame'⟩ := h'
    rw [UniqueKeys] at hu
    rw [Same]
    refine ⟨thirds, rfl, fun key => (hsome key).trans (hsome' key),
      sameMembers_of_get hu.1 ?_⟩
    intro key value hvalue
    obtain ⟨other, hother, hvalueOther⟩ := sameMembers_get hsame hvalue
    obtain ⟨third, hthird, hotherThird⟩ := sameMembers_get hsame' hother
    exact ⟨third, hthird, get_trans hu.2 hvalue hvalueOther hotherThird⟩

theorem sameElements_trans : ∀ {values others thirds : List JsonValue},
    UniqueKeysElements values → SameElements values others → SameElements others thirds →
    SameElements values thirds
  | [], others, thirds, _, h, h' => by
    rw [SameElements] at h
    rwa [h] at h'
  | value :: values, others, thirds, hu, h, h' => by
    rw [SameElements] at h
    obtain ⟨other, others, rfl, hsame, hrest⟩ := h
    rw [SameElements] at h'
    obtain ⟨third, thirds, rfl, hsame', hrest'⟩ := h'
    rw [UniqueKeysElements] at hu
    rw [SameElements]
    exact ⟨third, thirds, rfl, Same.trans hu.1 hsame hsame',
      sameElements_trans hu.2 hrest hrest'⟩

/-- A value that stands in an object, and two in a row that are the same. -/
theorem get_trans : ∀ {members : List (List UInt8 × JsonValue)} {key : List UInt8}
    {value other third : JsonValue}, UniqueKeysMembers members →
    JsonObject.get members key = some value → Same value other → Same other third →
    Same value third
  | [], _, _, _, _, _, hget, _, _ => by cases hget
  | (k, v) :: members, key, value, other, third, hu, hget, h, h' => by
    rw [UniqueKeysMembers] at hu
    rw [JsonObject.get] at hget
    split_ifs at hget with hkey
    · obtain rfl := some.inj hget
      exact Same.trans hu.1 h h'
    · exact get_trans hu.2 hget h h'

end

/-! ## Structural equality -/

section

variable (ofDouble : Double → Rat)

theorem equals_iff_not_differ {value other : JsonValue} (h : value.Narrow) (h' : other.Narrow) :
    equals ofDouble value other = true ↔ ¬ Differ value other := by
  rw [← equals_eq_false_iff ofDouble value other h h', Bool.not_eq_false]

/-- On values without the defect, `equals` is sameness. -/
theorem equals_iff_same {value other : JsonValue} (h : value.Plain) (h' : other.Plain)
    (hnulls : NullsKept value other) : equals ofDouble value other = true ↔ Same value other := by
  rw [equals_iff_not_differ ofDouble h.narrow h'.narrow,
    same_iff value other h.uniqueKeys h'.uniqueKeys, and_iff_left hnulls]

/-- `equals` decides sameness of two values exactly when they differ, or the second has the
null members of the first. -/
theorem equals_iff_same_iff {value other : JsonValue} (h : value.Plain) (h' : other.Plain) :
    (equals ofDouble value other = true ↔ Same value other) ↔
      Differ value other ∨ NullsKept value other := by
  rw [equals_iff_not_differ ofDouble h.narrow h'.narrow,
    same_iff value other h.uniqueKeys h'.uniqueKeys]
  tauto

end

mutual

theorem Same.refl : ∀ {value : JsonValue}, value.UniqueKeys → Same value value
  | .null, _ => by rw [Same]
  | .bool b, _ => by rw [Same]
  | .double d, _ => by rw [Same]
  | .string s, _ => by rw [Same]
  | .int32 n, _ => same_of_integer rfl rfl
  | .unsignedInt32 n, _ => same_of_integer rfl rfl
  | .int64 n, _ => same_of_integer rfl rfl
  | .unsignedInt64 n, _ => same_of_integer rfl rfl
  | .array values, hu => by
    rw [UniqueKeys] at hu
    rw [Same]
    exact ⟨values, rfl, sameElements_refl hu⟩
  | .object members, hu => by
    rw [UniqueKeys] at hu
    rw [Same]
    exact ⟨members, rfl, fun _ => rfl, sameMembers_of_get hu.1 fun key value hget =>
      ⟨value, hget, get_refl hu.2 hget⟩⟩

theorem sameElements_refl : ∀ {values : List JsonValue}, UniqueKeysElements values →
    SameElements values values
  | [], _ => by rw [SameElements]
  | value :: values, hu => by
    rw [UniqueKeysElements] at hu
    rw [SameElements]
    exact ⟨value, values, rfl, Same.refl hu.1, sameElements_refl hu.2⟩

theorem get_refl : ∀ {members : List (List UInt8 × JsonValue)} {key : List UInt8}
    {value : JsonValue}, UniqueKeysMembers members → JsonObject.get members key = some value →
    Same value value
  | [], _, _, _, hget => by cases hget
  | (k, v) :: members, key, value, hu, hget => by
    rw [UniqueKeysMembers] at hu
    rw [JsonObject.get] at hget
    split_ifs at hget with hkey
    · obtain rfl := some.inj hget
      exact Same.refl hu.1
    · exact get_refl hu.2 hget

end

/-- `equals` is structural equality on the pairs where it does not take a member that is not
there for a null one: on those it decides sameness, and it is symmetric and transitive.  It
is reflexive on every value. -/
structure Structural (ofDouble : Double → Rat) : Prop where
  same_iff : ∀ value other : JsonValue, value.Plain → other.Plain →
    ((equals ofDouble value other = true ↔ Same value other) ↔
      Differ value other ∨ NullsKept value other)
  refl : ∀ value : JsonValue, value.Plain → equals ofDouble value value = true
  symm : ∀ value other : JsonValue, value.Plain → other.Plain → NullsKept value other →
    equals ofDouble value other = true → equals ofDouble other value = true
  trans : ∀ value other third : JsonValue, value.Plain → other.Plain → third.Plain →
    NullsKept value other → NullsKept other third → equals ofDouble value other = true →
    equals ofDouble other third = true → equals ofDouble value third = true

theorem equals_structural (ofDouble : Double → Rat) : Structural ofDouble where
  same_iff := fun _ _ h h' => equals_iff_same_iff ofDouble h h'
  refl := by
    intro value h
    have hsame := Same.refl h.uniqueKeys
    have hnulls := ((same_iff _ _ h.uniqueKeys h.uniqueKeys).mp hsame).2
    exact (equals_iff_same ofDouble h h hnulls).mpr hsame
  symm := by
    intro value other h h' hnulls hequals
    have hsame := Same.symm h.uniqueKeys h'.uniqueKeys
      ((equals_iff_same ofDouble h h' hnulls).mp hequals)
    have hnulls' := ((same_iff _ _ h'.uniqueKeys h.uniqueKeys).mp hsame).2
    exact (equals_iff_same ofDouble h' h hnulls').mpr hsame
  trans := by
    intro value other third h h' h'' hnulls hnulls' hequals hequals'
    have hsame := Same.trans h.uniqueKeys ((equals_iff_same ofDouble h h' hnulls).mp hequals)
      ((equals_iff_same ofDouble h' h'' hnulls').mp hequals')
    have hnulls'' := ((same_iff _ _ h.uniqueKeys h''.uniqueKeys).mp hsame).2
    exact (equals_iff_same ofDouble h h'' hnulls'').mpr hsame

/-- The object `{"a":null}`. -/
def nullUnderA : JsonValue := .object [([0x61], .null)]

/-- The object `{"b":null}`. -/
def nullUnderB : JsonValue := .object [([0x62], .null)]

/-- `{"a":null}` is equal to `{"b":null}`.  `{"a":null,"c":1}` is equal to `{"c":1,"b":2}`,
but not the other way round. -/
theorem not_equals_structural : nullUnderA.Plain ∧ nullUnderB.Plain ∧
      equals (fun _ => 0) nullUnderA nullUnderB = true ∧ ¬ Same nullUnderA nullUnderB ∧
      equals (fun _ => 0) (.object [([0x61], .null), ([0x63], .int32 1)])
        (.object [([0x63], .int32 1), ([0x62], .int32 2)]) = true ∧
      equals (fun _ => 0) (.object [([0x63], .int32 1), ([0x62], .int32 2)])
        (.object [([0x61], .null), ([0x63], .int32 1)]) = false := by
  refine ⟨⟨?_, ?_⟩, ⟨?_, ?_⟩, by decide, ?_, by decide, by decide⟩
  · simp [nullUnderA, Narrow, NarrowMembers]
  · simp [nullUnderA, UniqueKeys, UniqueKeysMembers]
  · simp [nullUnderB, Narrow, NarrowMembers]
  · simp [nullUnderB, UniqueKeys, UniqueKeysMembers]
  · simp [nullUnderA, nullUnderB, Same, SameMembers, JsonObject.get]

theorem equals_structural_null : (equals (fun _ => 0) .null .null = true ↔ Same .null .null) ↔
      Differ .null .null ∨ NullsKept .null .null :=
  (equals_structural fun _ => 0).same_iff .null .null
    ⟨by simp [Narrow], by simp [UniqueKeys]⟩ ⟨by simp [Narrow], by simp [UniqueKeys]⟩

end Literate.AK.JsonValue

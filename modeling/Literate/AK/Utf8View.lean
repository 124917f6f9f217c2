import Literate.AK.StringUtils

/-!
# AK: code points in bytes

`AK/Utf8View.h`, `AK/Utf8View.cpp` and `code_point_to_utf8` of `AK/UnicodeUtils.h`.  An
iterator is the list of bytes from it on; it is done at `[]`.  `operator++` moves it
one byte on, whatever the length of the code point it stands at, so that the code points
of a view are those at *every* byte.
-/

namespace Literate.AK

open List

set_option maxRecDepth 8192

/-- The characters of a literal of the source. -/
def literal (s : List Char) : List UInt8 := s.map byte

namespace Utf8View

/-- U+FFFD. -/
def replacement : Nat := 0xFFFD

/-- `decode_first_byte`: the value so far and the length, if the byte makes sense. -/
def decodeFirstByte (b : UInt8) : Option (Nat × Nat) :=
  if b &&& 128 = 0 then some (b.toNat, 1)
  else if b &&& 64 = 0 then none
  else if b &&& 32 = 0 then some ((b &&& 31).toNat, 2)
  else if b &&& 16 = 0 then some ((b &&& 15).toNat, 3)
  else if b &&& 8 = 0 then some ((b &&& 7).toNat, 4)
  else none

/-- The loop of `operator*` over the extension bytes. -/
def extend : List UInt8 → Nat → Nat
  | [], value => value
  | b :: bytes, value =>
    if b >>> 6 ≠ 2 then replacement
    else extend bytes ((value <<< 6) ||| (b &&& 63).toNat)

/-- `operator*` at the byte `b` with `rest` after it. -/
def codePointAt (b : UInt8) (rest : List UInt8) : Nat :=
  match decodeFirstByte b with
  | none => replacement
  | some (value, length) =>
    if rest.length + 1 < length then replacement else extend (rest.take (length - 1)) value

/-- `underlying_code_point_length_in_bytes` at the byte `b` with `rest` after it. -/
def lengthAt (b : UInt8) (rest : List UInt8) : Nat :=
  match decodeFirstByte b with
  | none => 1
  | some (_, length) =>
    if rest.length + 1 < length then 1
    else if (rest.take (length - 1)).all fun b => b >>> 6 == 2 then length else 1

/-- `operator*`; its assertion fails when the iterator is done. -/
def codePoint? : List UInt8 → Option Nat
  | [] => none
  | b :: rest => some (codePointAt b rest)

/-- `underlying_code_point_length_in_bytes`; its assertion fails when the iterator is
done. -/
def length? : List UInt8 → Option Nat
  | [] => none
  | b :: rest => some (lengthAt b rest)

/-- The code points of a view, in order. -/
def codePoints : List UInt8 → List Nat
  | [] => []
  | b :: rest => codePointAt b rest :: codePoints rest

/-- The loop of `iterator_at_byte_offset`: the index of the iterator it returns, from
the index `index` and `current_offset` on. -/
def iteratorAtByteOffset (byteOffset : Nat) : List UInt8 → (index currentOffset : Nat) → Nat
  | [], index, _ => index
  | b :: rest, index, currentOffset =>
    if byteOffset ≤ currentOffset then index
    else iteratorAtByteOffset byteOffset rest (index + 1) (currentOffset + lengthAt b rest)

end Utf8View

namespace UnicodeUtils

/-- `code_point_to_utf8`; `none` when it returns -1. -/
def codePointToUtf8 (codePoint : Nat) : Option (List UInt8) :=
  if codePoint ≤ 0x7f then some [UInt8.ofNat codePoint]
  else if codePoint ≤ 0x07ff then
    some [UInt8.ofNat (((codePoint >>> 6) &&& 0x1f) ||| 0xc0),
      UInt8.ofNat ((codePoint &&& 0x3f) ||| 0x80)]
  else if codePoint ≤ 0xffff then
    some [UInt8.ofNat (((codePoint >>> 12) &&& 0x0f) ||| 0xe0),
      UInt8.ofNat (((codePoint >>> 6) &&& 0x3f) ||| 0x80),
      UInt8.ofNat ((codePoint &&& 0x3f) ||| 0x80)]
  else if codePoint ≤ 0x10ffff then
    some [UInt8.ofNat (((codePoint >>> 18) &&& 0x07) ||| 0xf0),
      UInt8.ofNat (((codePoint >>> 12) &&& 0x3f) ||| 0x80),
      UInt8.ofNat (((codePoint >>> 6) &&& 0x3f) ||| 0x80),
      UInt8.ofNat ((codePoint &&& 0x3f) ||| 0x80)]
  else none

end UnicodeUtils

/-- What `StringBuilder::append_code_point` appends. -/
def appendedCodePoint (codePoint : Nat) : List UInt8 :=
  (UnicodeUtils.codePointToUtf8 codePoint).getD [0xef, 0xbf, 0xbd]

/-- What `StringBuilder::append_as_lowercase` appends for a code point that is a
character. -/
def appendedAsLowercase (codePoint : Nat) : List UInt8 :=
  if 0x41 ≤ codePoint ∧ codePoint ≤ 0x5a then [UInt8.ofNat (codePoint + 0x20)]
  else [UInt8.ofNat codePoint]

/-! ## Character types -/

def isAsciiDigit (c : Nat) : Bool := decide (0x30 ≤ c ∧ c ≤ 0x39)

def isAsciiAlpha (c : Nat) : Bool := decide (0x61 ≤ c ∧ c ≤ 0x7a ∨ 0x41 ≤ c ∧ c ≤ 0x5a)

def isAsciiAlphanumeric (c : Nat) : Bool := isAsciiAlpha c || isAsciiDigit c

def isAsciiHexDigit (c : Nat) : Bool :=
  isAsciiDigit c || decide (0x41 ≤ c ∧ c ≤ 0x46 ∨ 0x61 ≤ c ∧ c ≤ 0x66)

/-- `parse_ascii_hex_digit`; it is not reached for another character. -/
def parseAsciiHexDigit (c : Nat) : Option Nat :=
  if isAsciiDigit c then some (c - 0x30)
  else if 0x41 ≤ c ∧ c ≤ 0x46 then some (c - 0x41 + 10)
  else if 0x61 ≤ c ∧ c ≤ 0x66 then some (c - 0x61 + 10)
  else none

/-- `to_ascii_lowercase` of a character. -/
def toAsciiLowercase (c : UInt8) : UInt8 := if 0x41 ≤ c ∧ c ≤ 0x5a then c + 0x20 else c

def equalsIgnoringCase (a b : List UInt8) : Bool :=
  a.map toAsciiLowercase == b.map toAsciiLowercase

/-! ## Bytes -/

theorem forall_byte {P : UInt8 → Prop} (h : ∀ n < 256, P (UInt8.ofNat n)) (b : UInt8) : P b := by
  have hb := h b.toNat b.toNat_lt
  rwa [UInt8.ofNat_toNat] at hb

variable {b : UInt8}

namespace Utf8View

theorem decodeFirstByte_ascii (h : b < 0x80) : decodeFirstByte b = some (b.toNat, 1) := by
  revert h
  exact forall_byte (P := fun b => b < 0x80 → decodeFirstByte b = some (b.toNat, 1))
    (by decide) b

theorem decodeFirstByte_extension (h : 0x80 ≤ b) (h' : b < 0xC0) : decodeFirstByte b = none := by
  revert h h'
  exact forall_byte (P := fun b => 0x80 ≤ b → b < 0xC0 → decodeFirstByte b = none)
    (by decide) b

@[simp] theorem codePointAt_ascii (h : b < 0x80) (rest : List UInt8) :
    codePointAt b rest = b.toNat := by
  simp [codePointAt, decodeFirstByte_ascii h, extend]

@[simp] theorem lengthAt_ascii (h : b < 0x80) (rest : List UInt8) : lengthAt b rest = 1 := by
  simp [lengthAt, decodeFirstByte_ascii h]

@[simp] theorem appendedCodePoint_ascii (h : b < 0x80) : appendedCodePoint b.toNat = [b] := by
  have hb : b.toNat ≤ 0x7f := Nat.le_of_lt_succ (UInt8.lt_iff_toNat_lt.mp h)
  rw [appendedCodePoint, UnicodeUtils.codePointToUtf8, if_pos hb, UInt8.ofNat_toNat]
  rfl

theorem codePoints_ascii {bytes : List UInt8} (h : ∀ b ∈ bytes, b < 0x80) :
    codePoints bytes = bytes.map UInt8.toNat := by
  induction bytes with
  | nil => rfl
  | cons b bytes ih =>
    obtain ⟨hb, hbytes⟩ := forall_mem_cons.mp h
    rw [codePoints, codePointAt_ascii hb, ih hbytes, map_cons]

theorem shiftLeft_or (value : Nat) {low : Nat} (h : low < 64) :
    (value <<< 6) ||| low = 64 * value + low := by
  rw [Nat.shiftLeft_eq, Nat.mul_comm, ← Nat.two_pow_add_eq_or_of_lt (i := 6) h]

theorem extend_lt (bytes : List UInt8) (value : Nat) :
    extend bytes value < max 0x10000 ((value + 1) * 64 ^ bytes.length) := by
  induction bytes generalizing value with
  | nil =>
    rw [extend, length_nil, Nat.pow_zero, Nat.mul_one]
    exact Nat.lt_of_lt_of_le (Nat.lt_succ_self _) (Nat.le_max_right _ _)
  | cons b bytes ih =>
    rw [extend]
    split
    · exact Nat.lt_of_lt_of_le (by decide) (Nat.le_max_left _ _)
    · have hlow : (b &&& 63).toNat < 64 := by
        rw [UInt8.toNat_and]
        exact Nat.lt_succ_of_le Nat.and_le_right
      have hvalue := shiftLeft_or value hlow
      have hmul : (64 * value + (b &&& 63).toNat + 1) * 64 ^ bytes.length ≤
          (value + 1) * 64 ^ (bytes.length + 1) := by
        rw [Nat.pow_succ, Nat.mul_comm (64 ^ bytes.length) 64, ← Nat.mul_assoc]
        exact Nat.mul_le_mul_right _ (by omega)
      rw [hvalue, length_cons]
      exact Nat.lt_of_lt_of_le (ih _)
        (Nat.max_le.mpr ⟨Nat.le_max_left _ _, Nat.le_trans hmul (Nat.le_max_right _ _)⟩)

theorem decodeFirstByte_bound (h : b < 0xF4) {value length : Nat}
    (hb : decodeFirstByte b = some (value, length)) :
    (value + 1) * 64 ^ (length - 1) ≤ 0x100000 := by
  have hall : ∀ n < 256, UInt8.ofNat n < 0xF4 → ∀ r ∈ decodeFirstByte (UInt8.ofNat n),
      (r.1 + 1) * 64 ^ (r.2 - 1) ≤ 0x100000 := by decide
  exact forall_byte (P := fun b => b < 0xF4 → ∀ r ∈ decodeFirstByte b,
    (r.1 + 1) * 64 ^ (r.2 - 1) ≤ 0x100000) hall b h _ hb

/-- A code point is within Unicode when its first byte is below 0xF4, or is 0xF4 and the
second is below 0x90. -/
theorem codePointAt_le {rest : List UInt8}
    (h : b < 0xF4 ∨ b = 0xF4 ∧ ∀ b' ∈ rest.head?, b' < 0x90) : codePointAt b rest ≤ 0x10FFFF := by
  rcases h with hlow | ⟨rfl, hsecond⟩
  · rw [codePointAt]
    cases hb : decodeFirstByte b with
    | none => exact (by decide : replacement ≤ 0x10FFFF)
    | some r =>
      obtain ⟨value, length⟩ := r
      have hbound := decodeFirstByte_bound hlow hb
      have hextend := extend_lt (rest.take (length - 1)) value
      have hpow : 64 ^ (rest.take (length - 1)).length ≤ 64 ^ (length - 1) :=
        Nat.pow_le_pow_right (by decide) (length_take_le _ _)
      have hmul := Nat.mul_le_mul_left (value + 1) hpow
      dsimp only
      split
      · exact (by decide : replacement ≤ 0x10FFFF)
      · omega
  · have hfirst : decodeFirstByte 0xF4 = some (4, 4) := by decide
    rw [codePointAt, hfirst]
    cases rest with
    | nil => decide
    | cons b' rest =>
      have hall : ∀ n < 256, UInt8.ofNat n < 0x90 →
          (UInt8.ofNat n &&& 63).toNat ≤ 15 ∨ UInt8.ofNat n >>> 6 ≠ 2 := by decide
      have hb' := forall_byte
        (P := fun b => b < 0x90 → (b &&& 63).toNat ≤ 15 ∨ b >>> 6 ≠ 2) hall b' (hsecond b' rfl)
      dsimp only
      split
      · exact (by decide : replacement ≤ 0x10FFFF)
      show extend (b' :: rest.take 2) 4 ≤ 0x10FFFF
      rw [extend]
      split
      · exact (by decide : replacement ≤ 0x10FFFF)
      · next hext =>
        have hlow := hb'.resolve_right hext
        have hextend := extend_lt (rest.take 2) (64 * 4 + (b' &&& 63).toNat)
        have hpow : 64 ^ (rest.take 2).length ≤ 64 ^ 2 :=
          Nat.pow_le_pow_right (by decide) (length_take_le _ _)
        have hmul := Nat.mul_le_mul_left (64 * 4 + (b' &&& 63).toNat + 1) hpow
        rw [shiftLeft_or 4 (by omega)]
        omega

/-! ## What is appended -/

theorem extensionByte (n : Nat) :
    0x80 ≤ UInt8.ofNat ((n &&& 0x3f) ||| 0x80) ∧ UInt8.ofNat ((n &&& 0x3f) ||| 0x80) < 0xC0 := by
  have hall : ∀ m < 64, 0x80 ≤ UInt8.ofNat (m ||| 0x80) ∧ UInt8.ofNat (m ||| 0x80) < 0xC0 := by
    decide
  exact hall _ (Nat.lt_succ_of_le Nat.and_le_right)

theorem codePointAt_extensionByte (n : Nat) (rest : List UInt8) :
    codePointAt (UInt8.ofNat ((n &&& 0x3f) ||| 0x80)) rest = replacement := by
  rw [codePointAt, decodeFirstByte_extension (extensionByte n).1 (extensionByte n).2]

/-- Whatever follows it, what is appended for a code point reads as code points within
Unicode. -/
theorem codePoints_appended_le (codePoint : Nat) {rest : List UInt8}
    (h : ∀ c ∈ codePoints rest, c ≤ 0x10FFFF) :
    ∀ c ∈ codePoints (appendedCodePoint codePoint ++ rest), c ≤ 0x10FFFF := by
  have hext : replacement ≤ 0x10FFFF := by decide
  rw [appendedCodePoint, UnicodeUtils.codePointToUtf8]
  split_ifs with h1 h2 h3 h4
  all_goals
    simp only [Option.getD_some, Option.getD_none, List.cons_append, nil_append, codePoints,
      forall_mem_cons, codePointAt_extensionByte]
  · refine ⟨codePointAt_le (.inl ?_), h⟩
    have hlead : (0xF4 : UInt8).toNat = 244 := by decide
    have hsize : UInt8.size = 256 := rfl
    exact (UInt8.ofNat_lt_iff (by omega)).mpr (by omega)
  · refine ⟨codePointAt_le (.inl ?_), hext, h⟩
    have hall : ∀ n < 32, UInt8.ofNat (n ||| 0xc0) < 0xF4 := by decide
    exact hall _ (Nat.lt_succ_of_le Nat.and_le_right)
  · refine ⟨codePointAt_le (.inl ?_), hext, hext, h⟩
    have hall : ∀ n < 16, UInt8.ofNat (n ||| 0xe0) < 0xF4 := by decide
    exact hall _ (Nat.lt_succ_of_le Nat.and_le_right)
  · refine ⟨codePointAt_le ?_, hext, hext, hext, h⟩
    have hshift : codePoint >>> 18 = codePoint / 262144 := Nat.shiftRight_eq_div_pow codePoint 18
    have hlead : (codePoint >>> 18) &&& 0x07 = codePoint >>> 18 % 8 :=
      Nat.and_two_pow_sub_one_eq_mod _ 3
    by_cases hlow : codePoint < 0x100000
    · have hall : ∀ n < 4, UInt8.ofNat (n ||| 0xf0) < 0xF4 := by decide
      exact .inl (hall _ (by omega))
    · have hall : ∀ n < 16, UInt8.ofNat (n ||| 0x80) < 0x90 := by decide
      have hfour : (codePoint >>> 18) &&& 0x07 = 4 := by omega
      have hsecond : (codePoint >>> 12) &&& 0x3f = codePoint >>> 12 % 64 :=
        Nat.and_two_pow_sub_one_eq_mod _ 6
      have hshift' : codePoint >>> 12 = codePoint / 4096 := Nat.shiftRight_eq_div_pow codePoint 12
      refine .inr ⟨by rw [hfour]; decide, fun b hb => ?_⟩
      cases hb
      exact hall _ (by omega)
  · exact ⟨codePointAt_le (.inl (by decide)), codePointAt_le (.inl (by decide)),
      codePointAt_le (.inl (by decide)), h⟩

end Utf8View

end Literate.AK

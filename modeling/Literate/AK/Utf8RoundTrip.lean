import Literate.AK.PercentCoding

/-!
# AK: code points appended and iterated

`StringBuilder::append_code_point` and `Utf8View` agree on every code point: at the first
byte of what is appended, `operator*` reads the code point back and
`underlying_code_point_length_in_bytes` is its length.  `operator++` passes over one byte
only, so an iteration stops at the extension bytes too and yields U+FFFD for each.
-/

namespace Literate.AK

open URL List

def isUnicodeScalarValue (codePoint : Nat) : Bool :=
  decide (codePoint ≤ 0x10FFFF) && !decide (0xD800 ≤ codePoint ∧ codePoint ≤ 0xDFFF)

/-- A `Utf8View`: its string, and its length once that has been counted. -/
structure Utf8View where
  mString : List UInt8
  mLength : Nat := 0
  mHaveLength : Bool := false

variable {m : Nat} {b : UInt8} {cs : List Nat}

namespace Utf8View

/-- The loop of `calculate_length`. -/
def calculateLength : List UInt8 → (length : Nat) → Nat
  | [], length => length
  | _ :: rest, length => calculateLength rest (length + 1)

/-- `Utf8View::length`, and the view with the length it keeps. -/
def length (view : Utf8View) : Nat × Utf8View :=
  if view.mHaveLength then (view.mLength, view)
  else
    let mLength := calculateLength view.mString 0
    (mLength, { view with mLength := mLength, mHaveLength := true })

/-- A view that has a length has the right one. -/
structure Counted (view : Utf8View) : Prop where
  length : view.mHaveLength = true → view.mLength = view.mString.length

theorem calculateLength_eq (bytes : List UInt8) (length : Nat) :
    calculateLength bytes length = length + bytes.length := by
  induction bytes generalizing length with
  | nil => rfl
  | cons b bytes ih => rw [calculateLength, ih, length_cons]; omega

theorem counted_mk (bytes : List UInt8) : Counted { mString := bytes } where
  length := fun h => absurd h Bool.false_ne_true

/-- The length is the number of bytes, whether it has been counted before or not. -/
theorem Counted.length_eq {view : Utf8View} (h : Counted view) :
    view.length.1 = view.mString.length ∧ Counted view.length.2 := by
  unfold Utf8View.length
  split
  · next hhave => exact ⟨h.length hhave, h⟩
  · have hlength : calculateLength view.mString 0 = view.mString.length := by
      rw [calculateLength_eq, Nat.zero_add]
    exact ⟨hlength, ⟨fun _ => hlength⟩⟩

/-! ## The code point at its own first byte -/

/-- What `code_point_to_utf8` writes after the first byte. -/
def IsExtension (b : UInt8) : Prop := 0x80 ≤ b ∧ b < 0xC0

theorem decodeFirstByte_two (h : m < 32) :
    decodeFirstByte (UInt8.ofNat (m ||| 0xc0)) = some (m, 2) := by
  revert m
  decide

theorem decodeFirstByte_three (h : m < 16) :
    decodeFirstByte (UInt8.ofNat (m ||| 0xe0)) = some (m, 3) := by
  revert m
  decide

theorem decodeFirstByte_four (h : m < 8) :
    decodeFirstByte (UInt8.ofNat (m ||| 0xf0)) = some (m, 4) := by
  revert m
  decide

set_option maxRecDepth 8192 in
theorem IsExtension.high (h : IsExtension b) : b >>> 6 = 2 := by
  revert h
  unfold IsExtension
  exact forall_byte (P := fun b => 0x80 ≤ b ∧ b < 0xC0 → b >>> 6 = 2) (by decide) b

theorem all_isExtension {bytes : List UInt8} (h : ∀ b ∈ bytes, IsExtension b) :
    (bytes.all fun b => b >>> 6 == 2) = true := by
  rw [List.all_eq_true]
  intro b hb
  rw [(h b hb).high, beq_self_eq_true]

theorem extend_extensionByte (n value : Nat) (rest : List UInt8) :
    extend (UInt8.ofNat ((n &&& 0x3f) ||| 0x80) :: rest) value =
      extend rest (64 * value + n % 64) := by
  have hmask : n &&& 0x3f = n % 64 := Nat.and_two_pow_sub_one_eq_mod n 6
  have hall : ∀ m < 64, (UInt8.ofNat (m ||| 0x80) &&& 63).toNat = m := by decide
  have hlow : n % 64 < 64 := Nat.mod_lt _ (by decide)
  rw [extend, if_neg (not_not.mpr (IsExtension.high (extensionByte n))), hmask, hall _ hlow,
    shiftLeft_or value hlow]

/-- What the iterator says at the first byte of an appended code point. -/
structure ReadsAs (codePoint : Nat) (bytes : List UInt8) (b : UInt8) (tail : List UInt8) :
    Prop where
  bytes : bytes = b :: tail
  extension : ∀ b ∈ tail, IsExtension b
  codePoint : ∀ rest, codePointAt b (tail ++ rest) = codePoint
  length : ∀ rest, lengthAt b (tail ++ rest) = tail.length + 1

/-- The first byte gives the length and the highest bits, the extension bytes the rest. -/
theorem readsAs_of_decodeFirstByte {tail : List UInt8} {value codePoint : Nat}
    (hfirst : decodeFirstByte b = some (value, tail.length + 1))
    (htail : ∀ b ∈ tail, IsExtension b) (hvalue : extend tail value = codePoint) :
    ReadsAs codePoint (b :: tail) b tail where
  bytes := rfl
  extension := htail
  codePoint := fun rest => by
    rw [codePointAt, hfirst]
    dsimp only
    rw [Nat.add_sub_cancel, take_left, hvalue, if_neg]
    rw [length_append]
    omega
  length := fun rest => by
    rw [lengthAt, hfirst]
    dsimp only
    rw [Nat.add_sub_cancel, take_left, all_isExtension htail, if_pos rfl, if_neg]
    rw [length_append]
    omega

theorem decodeFirstByte_one (h : m ≤ 0x7f) : decodeFirstByte (UInt8.ofNat m) = some (m, 1) := by
  have hall : ∀ m < 128, decodeFirstByte (UInt8.ofNat m) = some (m, 1) := by decide
  exact hall m (by omega)

theorem shiftRight_and (c i j : Nat) : c >>> i &&& (2 ^ j - 1) = c / 2 ^ i % 2 ^ j := by
  rw [Nat.and_two_pow_sub_one_eq_mod, Nat.shiftRight_eq_div_pow]

/-- `operator*` and `underlying_code_point_length_in_bytes` invert `code_point_to_utf8`. -/
theorem exists_readsAs {c : Nat} (h : c ≤ 0x10FFFF) :
    ∃ b tail, ReadsAs c (appendedCodePoint c) b tail := by
  have hext := fun n => extensionByte n
  rw [appendedCodePoint, UnicodeUtils.codePointToUtf8]
  split_ifs with h1 h2 h3
  · refine ⟨_, _, readsAs_of_decodeFirstByte (decodeFirstByte_one h1) ?_ rfl⟩
    exact fun _ hb => absurd hb not_mem_nil
  · have hlead : c >>> 6 &&& 0x1f = c / 64 % 32 := shiftRight_and c 6 5
    refine ⟨_, _, readsAs_of_decodeFirstByte (decodeFirstByte_two ?_) ?_ ?_⟩
    · rw [hlead]
      exact Nat.mod_lt _ (by decide)
    · exact forall_mem_singleton.mpr (hext _)
    · rw [extend_extensionByte, extend, hlead]
      omega
  · have hlead : c >>> 12 &&& 0x0f = c / 4096 % 16 := shiftRight_and c 12 4
    have hmiddle : c >>> 6 = c / 64 := Nat.shiftRight_eq_div_pow c 6
    refine ⟨_, _, readsAs_of_decodeFirstByte (decodeFirstByte_three ?_) ?_ ?_⟩
    · rw [hlead]
      exact Nat.mod_lt _ (by decide)
    · simp only [forall_mem_cons]
      exact ⟨hext _, hext _, forall_mem_nil _⟩
    · rw [extend_extensionByte, extend_extensionByte, extend, hlead, hmiddle]
      omega
  · have hlead : c >>> 18 &&& 0x07 = c / 262144 % 8 := shiftRight_and c 18 3
    have hsecond : c >>> 12 = c / 4096 := Nat.shiftRight_eq_div_pow c 12
    have hthird : c >>> 6 = c / 64 := Nat.shiftRight_eq_div_pow c 6
    refine ⟨_, _, readsAs_of_decodeFirstByte (decodeFirstByte_four ?_) ?_ ?_⟩
    · rw [hlead]
      exact Nat.mod_lt _ (by decide)
    · simp only [forall_mem_cons]
      exact ⟨hext _, hext _, hext _, forall_mem_nil _⟩
    · rw [extend_extensionByte, extend_extensionByte, extend_extensionByte, extend, hlead,
        hsecond, hthird]
      omega

/-! ## The iteration -/

theorem codePoints_extension {tail : List UInt8} (h : ∀ b ∈ tail, IsExtension b)
    (rest : List UInt8) :
    codePoints (tail ++ rest) = List.replicate tail.length replacement ++ codePoints rest := by
  induction tail with
  | nil => rfl
  | cons b tail ih =>
    obtain ⟨hb, htail⟩ := forall_mem_cons.mp h
    rw [List.cons_append, codePoints, ih htail, codePointAt, decodeFirstByte_extension hb.1 hb.2]
    rfl

/-- An iteration over what was appended for some code points. -/
def iterated (cs : List Nat) : List Nat :=
  cs.flatMap fun c => c :: List.replicate ((appendedCodePoint c).length - 1) replacement

/-- Each code point is followed by U+FFFD for every byte of it but the first. -/
theorem codePoints_flatMap_appended (h : ∀ c ∈ cs, c ≤ 0x10FFFF) :
    codePoints (cs.flatMap appendedCodePoint) = iterated cs := by
  induction cs with
  | nil => rfl
  | cons c cs ih =>
    obtain ⟨hc, hcs⟩ := forall_mem_cons.mp h
    obtain ⟨b, tail, hreads⟩ := exists_readsAs hc
    rw [flatMap_cons, iterated, flatMap_cons, hreads.bytes, List.cons_append,
      codePoints, hreads.codePoint, codePoints_extension hreads.extension, ih hcs,
      length_cons, Nat.add_sub_cancel]
    rfl

/-- What is appended for a list of code points is iterated back, and counted. -/
def RoundTrips (cs : List Nat) : Prop :=
  codePoints (cs.flatMap appendedCodePoint) = cs ∧
    (Utf8View.mk (cs.flatMap appendedCodePoint) 0 false).length.1 = cs.length

theorem length_mk_appended (cs : List Nat) :
    (Utf8View.mk (cs.flatMap appendedCodePoint) 0 false).length.1 =
      (cs.flatMap appendedCodePoint).length :=
  (counted_mk (cs.flatMap appendedCodePoint)).length_eq.1

theorem length_appended_of_length_flatMap (h : (cs.flatMap appendedCodePoint).length ≤ cs.length) :
    ∀ c ∈ cs, (appendedCodePoint c).length ≤ 1 := by
  induction cs with
  | nil => exact forall_mem_nil _
  | cons c cs ih =>
    have hpos := length_pos_of_ne_nil (appendedCodePoint_ne_nil c)
    have hcs := length_flatMap_appended cs
    rw [flatMap_cons, length_append, length_cons] at h
    exact forall_mem_cons.mpr ⟨by omega, ih (by omega)⟩

theorem iterated_ascii (h : ∀ c ∈ cs, c < 0x80) :
    iterated cs = cs ∧ (cs.flatMap appendedCodePoint).length = cs.length := by
  induction cs with
  | nil => exact ⟨rfl, rfl⟩
  | cons c cs ih =>
    obtain ⟨hc, hcs⟩ := forall_mem_cons.mp h
    obtain ⟨b, hb, rfl⟩ := exists_byte hc
    obtain ⟨hiterated, hlength⟩ := ih hcs
    rw [iterated] at hiterated
    simp only [iterated, flatMap_cons, hiterated, appendedCodePoint_ascii hb, length_append,
      hlength, length_singleton, length_cons]
    exact ⟨rfl, Nat.add_comm 1 _⟩

/-- What is appended for Unicode scalar values is iterated back exactly when each of them is
a single byte. -/
theorem roundTrips_iff_ascii {cs : List Nat} (h : ∀ c ∈ cs, isUnicodeScalarValue c = true) :
    RoundTrips cs ↔ ∀ c ∈ cs, c < 0x80 := by
  have hunicode : ∀ c ∈ cs, c ≤ 0x10FFFF := fun c hc =>
    of_decide_eq_true (Bool.and_eq_true_iff.mp (h c hc)).1
  rw [RoundTrips, codePoints_flatMap_appended hunicode, length_mk_appended]
  constructor
  · intro hround c hc
    exact lt_of_length_appended (length_appended_of_length_flatMap (Nat.le_of_eq hround.2) c hc)
  · exact iterated_ascii

theorem roundTrips_iff_ascii_euro : RoundTrips [0x41, 0x20AC] ↔ ∀ c ∈ [0x41, 0x20AC], c < 0x80 :=
  roundTrips_iff_ascii (by decide)

/-- The euro sign comes back with two replacement characters after it. -/
theorem not_roundTrips_euro : isUnicodeScalarValue 0x20AC = true ∧ ¬ RoundTrips [0x20AC] ∧
      codePoints ([0x20AC].flatMap appendedCodePoint) = [0x20AC, 0xFFFD, 0xFFFD] := by
  refine ⟨by decide, fun h => ?_, by decide⟩
  have hcodePoints := h.1
  revert hcodePoints
  decide

end Utf8View

end Literate.AK

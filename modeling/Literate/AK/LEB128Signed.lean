import Literate.AK.LEB128
import Mathlib.Tactic.Ring

/-!
# AK: signed LEB128

`LEB128::read_signed` of `AK/LEB128.h`.  The first loop is bounded by the stream; the loop
that extends the sign changes neither the number of bytes nor the last byte, which are all
that its condition looks at, so it is given a number of turns here.
-/

namespace Literate.AK

open List Option Nat BitVec Int

set_option maxRecDepth 8192

/-! ## The signed types -/

/-- The built-in signed types. -/
inductive Signed where
  | i8
  | i16
  | i32
  | i64
  deriving DecidableEq, Repr

namespace Signed

def bits : Signed → Nat
  | .i8 => 8
  | .i16 => 16
  | .i32 => 32
  | .i64 => 64

/-- `NumericLimits<ValueType>::min`. -/
def min (type : Signed) : Int := -2 ^ (type.bits - 1)

/-- `NumericLimits<ValueType>::max`. -/
def max (type : Signed) : Int := 2 ^ (type.bits - 1) - 1

variable {type : Signed} {value : Int}

theorem bits_pos (type : Signed) : 0 < type.bits := by
  cases type <;> decide

theorem fits_i64 (hmin : type.min ≤ value) (hmax : value ≤ type.max) :
    -2 ^ 63 ≤ value ∧ value < 2 ^ 63 := by
  unfold min at hmin
  unfold max at hmax
  cases type <;> dsimp only [bits] at hmin hmax <;> omega

end Signed

variable {bytes : List UInt8} {b : UInt8}

namespace LEB128

/-! ## Reading -/

/-- What the first loop of `read_signed` comes to: the assertion of `seek` fails, the
function returns false, or the loop ends with what it has collected. -/
inductive Collected where
  | aborted
  | failed (stream : InputMemoryStream)
  | collected (temp : BitVec 64) (numBytes : Nat) (byte : UInt8) (stream : InputMemoryStream)
  deriving DecidableEq, Repr

/-- The first loop of `read_signed`. -/
def collect (backupOffset : Nat) (stream : InputMemoryStream) (temp : BitVec 64)
    (numBytes : Nat) : Collected :=
  if stream.unreliableEof then
    match stream.seek backupOffset with
    | none => .aborted
    | some stream => .failed { stream with mFatalError := true }
  else if stream.readByte.2.hasAnyError then .failed stream.readByte.2
  else
    let byte := stream.readByte.1
    let maskedByte := (byte &&& 0x7f).toNat
    let shiftTooLargeForResult := decide (64 ≤ numBytes * 7)
    let shiftTooLargeForByte :=
      decide (numBytes * 7 = 63 ∧ maskedByte ≠ 0x00 ∧ maskedByte ≠ 0x7f)
    if shiftTooLargeForResult then .failed stream.readByte.2
    else if shiftTooLargeForByte then .failed stream.readByte.2
    else
      let newTemp := temp ||| (BitVec.ofNat 64 maskedByte <<< (numBytes * 7))
      if byte &&& 0x80 = 0 then .collected newTemp (numBytes + 1) byte stream.readByte.2
      else collect backupOffset stream.readByte.2 newTemp (numBytes + 1)
termination_by stream.mBytes.length - stream.mOffset
decreasing_by exact InputMemoryStream.remaining_readByte ‹_›

/-- The condition of the loop that extends the sign. -/
def Extends (numBytes : Nat) (byte : UInt8) : Prop := numBytes * 7 < 64 ∧ byte &&& 0x40 ≠ 0

instance (numBytes : Nat) (byte : UInt8) : Decidable (Extends numBytes byte) :=
  inferInstanceAs (Decidable (_ ∧ _))

/-- The loop that extends the sign, for a number of turns: `none` when they are used up. -/
def signExtend (numBytes : Nat) (byte : UInt8) : Nat → BitVec 64 → Option (BitVec 64)
  | 0, _ => none
  | turns + 1, temp =>
    if Extends numBytes byte then
      signExtend numBytes byte turns (temp ||| (BitVec.allOnes 64 <<< (numBytes * 7)))
    else some temp

/-- How a call of `read_signed` ends: on a failed assertion, or with whether it succeeded,
the result and the stream. -/
inductive Outcome where
  | aborted
  | returned (success : Bool) (result : Int) (stream : InputMemoryStream)
  deriving DecidableEq, Repr

/-- `read_signed`; it is `none` when the turns of the second loop are used up. -/
def readSigned (type : Signed) (turns : Nat) (stream : InputMemoryStream) : Option Outcome :=
  match collect stream.mOffset stream 0 0 with
  | .aborted => some .aborted
  | .failed stream => some (.returned false 0 stream)
  | .collected temp numBytes byte stream =>
    (signExtend numBytes byte turns temp).map fun temp =>
      if type.bits < 64 ∧ (type.max < temp.toInt ∨ temp.toInt < type.min) then
        .returned false 0 stream
      else .returned true (temp.setWidth type.bits).toInt stream

/-! ## Signed sequences -/

/-- A complete signed sequence and the value it encodes: seven bits a byte, the lowest
first, the high bit on every byte but the last, and the sign in bit 6 of the last one. -/
inductive EncodesSigned : List UInt8 → Int → Prop where
  | positive {b : UInt8} (h : b < 0x40) : EncodesSigned [b] b.toNat
  | negative {b : UInt8} (h : 0x40 ≤ b) (hlast : b < 0x80) : EncodesSigned [b] (b.toNat - 128)
  | more {b : UInt8} {bytes : List UInt8} {value : Int} (h : 0x80 ≤ b)
      (hmore : EncodesSigned bytes value) :
      EncodesSigned (b :: bytes) (b.toNat - 128 + 128 * value)

theorem EncodesSigned.length_pos {value : Int} (h : EncodesSigned bytes value) :
    0 < bytes.length := by
  cases h with
  | positive _ => exact Nat.zero_lt_one
  | negative _ _ => exact Nat.zero_lt_one
  | more _ _ => exact zero_lt_succ _

theorem sign_of_lt (h : b < 0x40) : b &&& 0x40 = 0 := by
  revert h
  exact forall_byte (P := fun b => b < 0x40 → b &&& 0x40 = 0) (by decide) b

theorem sign_of_le (h : 0x40 ≤ b) (hlast : b < 0x80) : b &&& 0x40 ≠ 0 := by
  revert h hlast
  exact forall_byte (P := fun b => 0x40 ≤ b → b < 0x80 → b &&& 0x40 ≠ 0) (by decide) b

theorem lt_of_last (h : b &&& 0x80 = 0) : b < 0x80 := by
  revert h
  exact forall_byte (P := fun b => b &&& 0x80 = 0 → b < 0x80) (by decide) b

theorem le_of_more (h : b &&& 0x80 ≠ 0) : 0x80 ≤ b := by
  revert h
  exact forall_byte (P := fun b => b &&& 0x80 ≠ 0 → 0x80 ≤ b) (by decide) b

/-! ## The first loop at a sequence -/

theorem or_shifted {numBytes low m : Nat} (hlow : low < 2 ^ (numBytes * 7)) :
    BitVec.ofNat 64 low ||| (BitVec.ofNat 64 m <<< (numBytes * 7)) =
      BitVec.ofNat 64 (low + m * 2 ^ (numBytes * 7)) := by
  apply eq_of_toNat_eq
  have hor : low ||| m <<< (numBytes * 7) = low + m * 2 ^ (numBytes * 7) := by
    rw [Nat.or_comm, ← shiftLeft_add_eq_or_of_lt hlow, Nat.shiftLeft_eq, Nat.add_comm]
  simp only [BitVec.toNat_or, BitVec.toNat_shiftLeft, toNat_ofNat, ← hor, or_mod_two_pow,
    Nat.shiftLeft_eq, mod_mul_mod]

theorem collect_cons {stream : InputMemoryStream} (h : stream.Continues (b :: bytes))
    (backupOffset numBytes low : Nat) (hlow : low < 2 ^ (numBytes * 7)) (hn : numBytes ≤ 9)
    (hbyte : numBytes = 9 → (b &&& 0x7f).toNat = 0x00 ∨ (b &&& 0x7f).toNat = 0x7f) :
    collect backupOffset stream (BitVec.ofNat 64 low) numBytes =
      if b &&& 0x80 = 0 then
        .collected (BitVec.ofNat 64 (low + (b &&& 0x7f).toNat * 2 ^ (numBytes * 7)))
          (numBytes + 1) b (stream.advance 1)
      else
        collect backupOffset (stream.advance 1)
          (BitVec.ofNat 64 (low + (b &&& 0x7f).toNat * 2 ^ (numBytes * 7))) (numBytes + 1) := by
  obtain ⟨hread, hnext⟩ := h.readByte
  have hready : ¬ (stream.advance 1).hasAnyError = true := by
    rw [hnext.ready]
    exact Bool.false_ne_true
  rw [collect, hread, if_neg (by rw [h.not_eof]; exact Bool.false_ne_true), if_neg hready]
  dsimp only
  rw [if_neg (by rw [decide_eq_true_eq]; omega), if_neg, or_shifted hlow]
  rw [decide_eq_true_eq]
  intro hlarge
  have hor := hbyte (by omega)
  omega

theorem pow_succ_seven (numBytes : Nat) : 2 ^ ((numBytes + 1) * 7) = 128 * 2 ^ (numBytes * 7) := by
  rw [Nat.succ_mul, Nat.pow_add, Nat.mul_comm]


/-- What the first loop leaves of a sequence: the sign is in its last byte, and what it has
collected is the value where the sign needs no extension. -/
structure CollectsTo (collected : Collected) (stream : InputMemoryStream) (numBytes : Nat)
    (value total : Int) : Prop where
  intro ::
  ends : ∃ temp byte, collected = .collected temp numBytes byte stream ∧
    (byte &&& 0x40 = 0 ↔ 0 ≤ value) ∧
    (numBytes = 10 ∨ 0 ≤ value → temp = BitVec.ofInt 64 total)

theorem collect_last {stream : InputMemoryStream} {rest : List UInt8}
    (h : stream.Continues (b :: rest)) (hlast : b < 0x80) (backupOffset numBytes low : Nat)
    (hlow : low < 2 ^ (numBytes * 7)) (hn : numBytes ≤ 9)
    (hbyte : numBytes = 9 → b.toNat = 0x00 ∨ b.toNat = 0x7f) :
    collect backupOffset stream (BitVec.ofNat 64 low) numBytes =
      .collected (BitVec.ofNat 64 (low + b.toNat * 2 ^ (numBytes * 7))) (numBytes + 1) b
        (stream.advance 1) := by
  obtain ⟨hmask, hend⟩ := mask_of_lt hlast
  rw [← hmask] at hbyte
  rw [collect_cons h backupOffset numBytes low hlow hn hbyte, if_pos hend, hmask]

/-- The first loop from the middle of a sequence on: `low` is the value of the bytes
before. -/
theorem collect_encoded {value : Int} (h : EncodesSigned bytes value) :
    ∀ {stream : InputMemoryStream} {rest : List UInt8} (backupOffset numBytes low : Nat),
      stream.Continues (bytes ++ rest) → low < 2 ^ (numBytes * 7) →
      numBytes + bytes.length ≤ 10 →
      (numBytes + bytes.length = 10 → -2 ^ 63 ≤ low + value * 2 ^ (numBytes * 7) ∧
        low + value * 2 ^ (numBytes * 7) < 2 ^ 63) →
      CollectsTo (collect backupOffset stream (BitVec.ofNat 64 low) numBytes)
        (stream.advance bytes.length) (numBytes + bytes.length) value
        (low + value * 2 ^ (numBytes * 7)) := by
  induction h with
  | @positive b hb =>
    intro stream rest backupOffset numBytes low hcontinues hlow hlength hfits
    have hlast : b < 0x80 := UInt8.lt_trans hb (by decide)
    have hbyte : numBytes = 9 → b.toNat = 0x00 ∨ b.toNat = 0x7f := by
      intro hnine
      subst hnine
      have hle := (hfits rfl).2
      omega
    rw [length_singleton] at hlength ⊢
    refine ⟨_, b, collect_last hcontinues hlast backupOffset numBytes low hlow (by omega) hbyte,
      ?_, fun _ => ?_⟩
    · exact iff_of_true (sign_of_lt hb) (natCast_nonneg _)
    · rw [← ofInt_natCast, Nat.cast_add, Nat.cast_mul, Nat.cast_pow, Nat.cast_ofNat]
  | @negative b hb hlast =>
    intro stream rest backupOffset numBytes low hcontinues hlow hlength hfits
    have hlt := UInt8.lt_iff_toNat_lt.mp hlast
    have hlt' : b.toNat < 128 := hlt
    have hbyte : numBytes = 9 → b.toNat = 0x00 ∨ b.toNat = 0x7f := by
      intro hnine
      subst hnine
      have hge := (hfits rfl).1
      omega
    rw [length_singleton] at hlength hfits ⊢
    have hneg : ¬ (0 : Int) ≤ (b.toNat : Int) - 128 := by omega
    refine ⟨_, b, collect_last hcontinues hlast backupOffset numBytes low hlow (by omega) hbyte,
      iff_of_false (sign_of_le hb hlast) hneg, fun hten => ?_⟩
    have hnine : numBytes = 9 := by
      obtain hten | hge := hten
      · omega
      · exact absurd hge hneg
    subst hnine
    have htotal : ((low + b.toNat * 2 ^ (9 * 7) : Nat) : Int) =
        low + ((b.toNat : Int) - 128) * 2 ^ (9 * 7) + 2 ^ 64 * 64 := by
      push_cast
      ring
    rw [← ofInt_natCast, htotal]
    apply eq_of_toNat_eq
    simp only [toNat_ofInt, Nat.cast_pow, Nat.cast_ofNat, add_mul_emod_self_left]
  | @more b bytes value hb hmore ih =>
    intro stream rest backupOffset numBytes low hcontinues hlow hlength hfits
    obtain ⟨hmask, hmoreBit⟩ := mask_of_le hb
    have hpos := hmore.length_pos
    have hge : 128 ≤ b.toNat := UInt8.le_iff_toNat_le.mp hb
    have hlt := b.toNat_lt
    rw [length_cons] at hlength hfits ⊢
    obtain ⟨-, hnext⟩ := hcontinues.readByte
    have hpow := pow_succ_seven numBytes
    have hlow' : low + (b.toNat - 128) * 2 ^ (numBytes * 7) < 2 ^ ((numBytes + 1) * 7) := by
      have hmul := Nat.mul_le_mul_right (2 ^ (numBytes * 7)) (by omega : b.toNat - 128 ≤ 127)
      rw [hpow]
      omega
    have htotal : (low : Int) + (b.toNat - 128 + 128 * value) * 2 ^ (numBytes * 7) =
        (low + (b.toNat - 128) * 2 ^ (numBytes * 7) : Nat) +
          value * 2 ^ ((numBytes + 1) * 7) := by
      have hcast : ((2 ^ ((numBytes + 1) * 7) : Nat) : Int) = 128 * 2 ^ (numBytes * 7) := by
        rw [hpow]
        push_cast
        rfl
      push_cast [hge] at hcast ⊢
      rw [hcast]
      ring
    have hcount : numBytes + (bytes.length + 1) = numBytes + 1 + bytes.length := by omega
    rw [hcount, htotal] at hfits
    rw [List.cons_append] at hcontinues
    rw [collect_cons hcontinues backupOffset numBytes low hlow (by omega) (by omega),
      if_neg hmoreBit, hmask, hcount, htotal, Nat.add_comm bytes.length 1,
      ← InputMemoryStream.advance_advance]
    obtain ⟨temp, byte, hcollect, hsign, htemp⟩ :=
      ih backupOffset (numBytes + 1) _ hnext hlow' (by omega) hfits
    have hiff : 0 ≤ (b.toNat : Int) - 128 + 128 * value ↔ 0 ≤ value := by omega
    rw [← hiff] at hsign htemp
    exact ⟨temp, byte, hcollect, hsign, htemp⟩


/-! ## What the first loop has read -/

/-- A byte that was read without an error stands next in the stream. -/
theorem continues_of_readByte {stream : InputMemoryStream} (heof : ¬ stream.unreliableEof = true)
    (hready : ¬ stream.readByte.2.hasAnyError = true) :
    ∃ rest, stream.Continues (stream.readByte.1 :: rest) ∧
      ∀ bytes, stream.readByte.2.Continues bytes → stream.Continues (stream.readByte.1 :: bytes) := by
  have hlt : stream.mOffset < stream.mBytes.length := by
    rw [InputMemoryStream.unreliableEof, decide_eq_true_eq] at heof
    omega
  have hread : stream.readByte = (stream.mBytes[stream.mOffset], stream.advance 1) := by
    rw [InputMemoryStream.readByte, List.getElem?_eq_getElem hlt]
    rfl
  rw [hread] at hready ⊢
  have hclear : stream.hasAnyError = false := Bool.eq_false_iff.mpr hready
  have hdrop := drop_eq_getElem_cons hlt
  refine ⟨_, ⟨hclear, hdrop⟩, fun bytes hbytes => ⟨hclear, ?_⟩⟩
  rw [hdrop]
  exact congrArg _ hbytes.bytes

section

variable (backupOffset : Nat) (stream : InputMemoryStream) (temp : BitVec 64) (numBytes : Nat)

theorem collect_sound {temp' : BitVec 64} {numBytes' : Nat} {byte : UInt8}
    {stream' : InputMemoryStream}
    (h : collect backupOffset stream temp numBytes = .collected temp' numBytes' byte stream') :
    ∃ bytes rest value, stream.Continues (bytes ++ rest) ∧ EncodesSigned bytes value ∧
      numBytes' = numBytes + bytes.length ∧ (byte &&& 0x40 = 0 ↔ 0 ≤ value) := by
  fun_induction collect backupOffset stream temp numBytes with
  | case1 => cases h
  | case2 => cases h
  | case3 => cases h
  | case4 => cases h
  | case5 => cases h
  | case6 stream temp numBytes heof hready byte' masked large lost hlarge hlost new hend =>
    obtain ⟨rest, hcontinues, -⟩ := continues_of_readByte heof hready
    obtain ⟨-, rfl, rfl, -⟩ := Collected.collected.inj h
    have hlast := lt_of_last hend
    rcases UInt8.lt_or_le stream.readByte.1 0x40 with hlt | hle
    · exact ⟨[stream.readByte.1], rest, _, hcontinues, .positive hlt, rfl,
        iff_of_true (sign_of_lt hlt) (natCast_nonneg _)⟩
    · have hneg := UInt8.lt_iff_toNat_lt.mp hlast
      have hneg' : stream.readByte.1.toNat < 128 := hneg
      exact ⟨[stream.readByte.1], rest, _, hcontinues, .negative hle hlast, rfl,
        iff_of_false (sign_of_le hle hlast) (by omega)⟩
  | case7 stream temp numBytes heof hready byte' masked large lost hlarge hlost new hmore ih =>
    obtain ⟨bytes, rest, value, hnext, hencodes, hcount, hsign⟩ := ih h
    obtain ⟨-, -, hcons⟩ := continues_of_readByte heof hready
    have hle := le_of_more hmore
    have hge : 128 ≤ stream.readByte.1.toNat := UInt8.le_iff_toNat_le.mp hle
    have hlt := stream.readByte.1.toNat_lt
    refine ⟨stream.readByte.1 :: bytes, rest, _, hcons _ hnext, .more hle hencodes, ?_, ?_⟩
    · rw [hcount, length_cons]
      omega
    · rw [hsign]
      omega

/-- The assertion of `seek` fails only where the stream was at its end from the start. -/
theorem length_le_of_aborted (h : collect backupOffset stream temp numBytes = .aborted) :
    stream.mBytes.length ≤ backupOffset := by
  fun_induction collect backupOffset stream temp numBytes with
  | case1 stream temp numBytes heof hseek =>
    unfold InputMemoryStream.seek at hseek
    split at hseek
    · cases hseek
    · next hlt => exact Nat.not_lt.mp hlt
  | case2 => cases h
  | case3 => cases h
  | case4 => cases h
  | case5 => cases h
  | case6 => cases h
  | case7 stream temp numBytes heof hready byte masked large lost hlarge hlost new hmore ih =>
    obtain ⟨rest, hcontinues, -⟩ := continues_of_readByte heof hready
    have hstream := congrArg Prod.snd hcontinues.readByte.1
    rw [hstream] at ih
    exact ih (hstream ▸ h)

end

/-! ## The second loop -/

theorem signExtend_of_extends {numBytes : Nat} {byte : UInt8} (h : Extends numBytes byte)
    (turns : Nat) (temp : BitVec 64) : signExtend numBytes byte turns temp = none := by
  induction turns generalizing temp with
  | zero => rfl
  | succ turns ih => rw [signExtend, if_pos h, ih]

theorem signExtend_of_not_extends {numBytes : Nat} {byte : UInt8} (h : ¬ Extends numBytes byte)
    (turns : Nat) (temp : BitVec 64) : signExtend numBytes byte (turns + 1) temp = some temp := by
  rw [signExtend, if_neg h]

/-! ## `read_signed` -/

variable {type : Signed} {stream : InputMemoryStream}

/-- What is asked of `read_signed` at a stream: it ends, and where the stream starts with a
sequence whose value fits the type, that value is read and the stream stands after it. -/
structure ReadsSigned (type : Signed) (stream : InputMemoryStream) : Prop where
  terminates : ∃ turns outcome, readSigned type turns stream = some outcome
  value : ∀ bytes rest value, stream.Continues (bytes ++ rest) → EncodesSigned bytes value →
    bytes.length ≤ 10 → type.min ≤ value → value ≤ type.max →
    ∃ turns, readSigned type turns stream =
      some (.returned true value (stream.advance bytes.length))

/-- The stream starts with a negative number in fewer than ten bytes. -/
def StartsNegative (stream : InputMemoryStream) : Prop :=
  ∃ bytes rest value, stream.Continues (bytes ++ rest) ∧ EncodesSigned bytes value ∧
    bytes.length < 10 ∧ value < 0

/-- The second loop is entered exactly at the end of such a number, and never left. -/
theorem readSigned_of_startsNegative (h : StartsNegative stream) (turns : Nat) :
    readSigned type turns stream = none := by
  obtain ⟨bytes, rest, value, hcontinues, hencodes, hlength, hneg⟩ := h
  obtain ⟨temp, byte, hcollect, hsign, -⟩ :=
    collect_encoded hencodes stream.mOffset 0 0 hcontinues (by decide) (by omega) (by omega)
  have hextends : Extends (0 + bytes.length) byte :=
    ⟨by omega, fun hzero => absurd (hsign.mp hzero) (Int.not_le.mpr hneg)⟩
  have hzero : BitVec.ofNat 64 0 = 0 := rfl
  rw [hzero] at hcollect
  rw [readSigned, hcollect]
  dsimp only
  rw [signExtend_of_extends hextends, map_none]

theorem readSigned_ends (h : ¬ StartsNegative stream) :
    ∃ outcome, readSigned type 1 stream = some outcome := by
  rw [readSigned]
  cases hcollect : collect stream.mOffset stream 0 0 with
  | aborted => exact ⟨_, rfl⟩
  | failed stream' => exact ⟨_, rfl⟩
  | collected temp numBytes byte stream' =>
    have hextends : ¬ Extends numBytes byte := by
      intro hextends
      obtain ⟨bytes, rest, value, hcontinues, hencodes, hcount, hsign⟩ :=
        collect_sound stream.mOffset stream 0 0 hcollect
      have hneg := mt hsign.mpr hextends.2
      have hlt := hextends.1
      exact h ⟨bytes, rest, value, hcontinues, hencodes, by omega, Int.not_le.mp hneg⟩
    dsimp only
    rw [signExtend_of_not_extends hextends]
    exact ⟨_, rfl⟩

/-- The value in range is what the narrower type holds. -/
theorem toInt_setWidth {value : Int} (hmin : type.min ≤ value) (hmax : value ≤ type.max) :
    ((BitVec.ofInt 64 value).setWidth type.bits).toInt = value := by
  have hpos := type.bits_pos
  have hofInt : (BitVec.ofInt 64 value).setWidth type.bits = BitVec.ofInt type.bits value := by
    apply eq_of_toNat_eq
    simp only [toNat_setWidth, toNat_ofInt]
    cases type <;> dsimp only [Signed.bits] <;> omega
  unfold Signed.min at hmin
  unfold Signed.max at hmax
  rw [hofInt]
  exact toInt_ofInt_eq_self hpos hmin (by omega)

theorem readSigned_encoded (h : ¬ StartsNegative stream) {rest : List UInt8} {value : Int}
    (hcontinues : stream.Continues (bytes ++ rest)) (hencodes : EncodesSigned bytes value)
    (hlength : bytes.length ≤ 10) (hmin : type.min ≤ value) (hmax : value ≤ type.max) :
    readSigned type 1 stream = some (.returned true value (stream.advance bytes.length)) := by
  have hfits := Signed.fits_i64 hmin hmax
  have hnumber : ((0 : Nat) : Int) + value * 2 ^ (0 * 7) = value := by
    rw [Nat.cast_zero, Int.zero_add, Nat.zero_mul, pow_zero, Int.mul_one]
  obtain ⟨temp, byte, hcollect, hsign, htemp⟩ :=
    collect_encoded hencodes stream.mOffset 0 0 hcontinues (by decide) (by omega)
      (fun _ => by rw [hnumber]; exact hfits)
  have hshape : 0 + bytes.length = 10 ∨ 0 ≤ value := by
    rcases Int.lt_or_le value 0 with hneg | hnonneg
    · have hten : ¬ bytes.length < 10 :=
        fun hlt => h ⟨bytes, rest, value, hcontinues, hencodes, hlt, hneg⟩
      exact .inl (by omega)
    · exact .inr hnonneg
  have hextends : ¬ Extends (0 + bytes.length) byte := by
    intro hextends
    obtain hten | hnonneg := hshape
    · have hlt := hextends.1
      omega
    · exact hextends.2 (hsign.mpr hnonneg)
  have hvalue := htemp hshape
  rw [hnumber] at hvalue
  have hint : temp.toInt = value := by rw [hvalue, toInt_ofInt_eq_self (by decide) hfits.1 hfits.2]
  have hzero : BitVec.ofNat 64 0 = 0 := rfl
  rw [hzero] at hcollect
  rw [readSigned, hcollect]
  dsimp only
  rw [signExtend_of_not_extends hextends, map_some, hint, if_neg (by omega), hvalue,
    toInt_setWidth hmin hmax]

/-- `read_signed` does what is asked of it exactly at the streams that do not start with a
negative number in fewer than ten bytes; and it fails its assertion exactly at a stream that
is at its end. -/
theorem readsSigned_iff : (ReadsSigned type stream ↔ ¬ StartsNegative stream) ∧
      ((∃ turns, readSigned type turns stream = some .aborted) ↔
        stream.unreliableEof = true) := by
  constructor
  · constructor
    · intro hreads hnegative
      obtain ⟨turns, outcome, houtcome⟩ := hreads.terminates
      rw [readSigned_of_startsNegative hnegative] at houtcome
      cases houtcome
    · intro h
      exact {
        terminates := ⟨1, readSigned_ends h⟩
        value := fun bytes rest value hcontinues hencodes hlength hmin hmax =>
          ⟨1, readSigned_encoded h hcontinues hencodes hlength hmin hmax⟩ }
  · constructor
    · intro haborted
      obtain ⟨turns, haborted⟩ := haborted
      rw [readSigned] at haborted
      cases hcollect : collect stream.mOffset stream 0 0 with
      | aborted =>
        have hle := length_le_of_aborted stream.mOffset stream 0 0 hcollect
        exact decide_eq_true hle
      | failed stream' =>
        rw [hcollect] at haborted
        cases haborted
      | collected temp numBytes byte stream' =>
        rw [hcollect, map_eq_some_iff] at haborted
        obtain ⟨extended, -, hout⟩ := haborted
        split at hout <;> cases hout
    · intro heof
      have hle := of_decide_eq_true heof
      have hseek : stream.seek stream.mOffset = none := if_neg (Nat.not_lt.mpr hle)
      refine ⟨0, ?_⟩
      rw [readSigned, collect, if_pos heof, hseek]

/-- -1 in one byte: the sign is never extended. -/
theorem not_readsSigned_sample : ¬ ReadsSigned .i64 { mBytes := [0x7f] } := by
  intro hreads
  obtain ⟨turns, outcome, houtcome⟩ := hreads.terminates
  have hcontinues : InputMemoryStream.Continues { mBytes := [0x7f] } ([0x7f] ++ []) :=
    { ready := rfl, bytes := rfl }
  have hnegative : StartsNegative { mBytes := [0x7f] } :=
    ⟨[0x7f], [], _, hcontinues, .negative (by decide) (by decide), by decide, by decide⟩
  rw [readSigned_of_startsNegative hnegative] at houtcome
  cases houtcome

end LEB128

end Literate.AK

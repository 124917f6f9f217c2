import Literate.AK.Types
import Literate.AK.Utf8View

/-!
# AK: unsigned LEB128

`LEB128::read_unsigned` of `AK/LEB128.h`, on the `InputMemoryStream` of
`AK/MemoryStream.h`.  The check for lost bits shifts left and back in the type that the
value is promoted to: for 8 and 16 bits that is an `int`, which loses nothing, and the
value is cut down afterwards.
-/

namespace Literate.AK

open List Nat

set_option maxRecDepth 8192

/-! ## The stream -/

/-- An `InputMemoryStream`: its bytes, where it stands and its pending errors. -/
structure InputMemoryStream where
  mBytes : List UInt8
  mOffset : Nat := 0
  mRecoverableError : Bool := false
  mFatalError : Bool := false
  deriving DecidableEq, Repr

variable {stream : InputMemoryStream} {b : UInt8} {bytes : List UInt8} {low numBytes : Nat}

namespace InputMemoryStream

def hasAnyError (stream : InputMemoryStream) : Bool :=
  stream.mRecoverableError || stream.mFatalError

def unreliableEof (stream : InputMemoryStream) : Bool :=
  decide (stream.mBytes.length ≤ stream.mOffset)

/-- `seek`; its assertion refuses the end of the stream too. -/
def seek (stream : InputMemoryStream) (offset : Nat) : Option InputMemoryStream :=
  if offset < stream.mBytes.length then some { stream with mOffset := offset } else none

/-- `operator>>` of one byte, which stays 0 when `read_or_error` has none. -/
def readByte (stream : InputMemoryStream) : UInt8 × InputMemoryStream :=
  match stream.mBytes[stream.mOffset]? with
  | none => (0, { stream with mRecoverableError := true })
  | some byte => (byte, { stream with mOffset := stream.mOffset + 1 })

/-- The stream after some more bytes. -/
def advance (stream : InputMemoryStream) (count : Nat) : InputMemoryStream :=
  { stream with mOffset := stream.mOffset + count }

/-- The stream has no pending error and goes on with the given bytes. -/
structure Continues (stream : InputMemoryStream) (bytes : List UInt8) : Prop where
  ready : stream.hasAnyError = false
  bytes : stream.mBytes.drop stream.mOffset = bytes

theorem Continues.not_eof (h : stream.Continues (b :: bytes)) : stream.unreliableEof = false := by
  have hlength := congrArg List.length h.bytes
  rw [length_drop, length_cons] at hlength
  exact decide_eq_false (by omega)

theorem Continues.readByte (h : stream.Continues (b :: bytes)) :
    stream.readByte = (b, stream.advance 1) ∧ (stream.advance 1).Continues bytes := by
  have hbyte : stream.mBytes[stream.mOffset]? = some b := by
    rw [← List.head?_drop, h.bytes, List.head?_cons]
  constructor
  · rw [InputMemoryStream.readByte, hbyte]
    rfl
  · refine ⟨h.ready, ?_⟩
    rw [advance, ← tail_drop, h.bytes, tail_cons]

theorem remaining_readByte (h : ¬ stream.unreliableEof = true) :
    stream.readByte.2.mBytes.length - stream.readByte.2.mOffset <
      stream.mBytes.length - stream.mOffset := by
  have hlt : stream.mOffset < stream.mBytes.length := by
    rw [unreliableEof, decide_eq_true_eq] at h
    omega
  rw [InputMemoryStream.readByte, List.getElem?_eq_getElem hlt]
  dsimp only
  omega

theorem advance_advance (stream : InputMemoryStream) (m n : Nat) :
    (stream.advance m).advance n = stream.advance (m + n) := by
  simp only [advance, Nat.add_assoc]

end InputMemoryStream

/-! ## Promotion -/

namespace Unsigned

/-- The bits of the type that an operand of a shift is promoted to: an `int` where the type
is narrower.  The shifts of an `int` here stay below its sign bit. -/
def promotedBits : Unsigned → Nat
  | .u8 | .u16 | .u32 => 32
  | .u64 => 64

/-- `value << shift`. -/
def shiftLeft (type : Unsigned) (value shift : Nat) : Nat :=
  (value <<< shift) % 2 ^ type.promotedBits

variable (type : Unsigned)

theorem bits_le_promotedBits : type.bits ≤ type.promotedBits := by
  cases type <;> decide

/-- Shifting left and back loses nothing exactly when the promoted type holds the shifted
value. -/
theorem shiftLeft_shiftRight_iff (value shift : Nat) :
    type.shiftLeft value shift >>> shift = value ↔ value * 2 ^ shift < 2 ^ type.promotedBits := by
  have hpos : 0 < 2 ^ shift := Nat.two_pow_pos shift
  rw [shiftLeft, Nat.shiftRight_eq_div_pow, Nat.shiftLeft_eq]
  constructor
  · intro h
    have hle := div_mul_le_self (value * 2 ^ shift % 2 ^ type.promotedBits) (2 ^ shift)
    rw [h] at hle
    exact Nat.lt_of_le_of_lt hle (mod_lt _ (Nat.two_pow_pos _))
  · intro h
    rw [mod_eq_of_lt h, Nat.mul_div_cancel _ hpos]

/-- Seven more bits above those that are there, cut down to the type. -/
theorem or_shiftLeft {value shift : Nat} (h : value * 2 ^ shift < 2 ^ type.promotedBits)
    (hlow : low < 2 ^ shift) :
    (low % 2 ^ type.bits ||| type.shiftLeft value shift) % 2 ^ type.bits =
      (low + value * 2 ^ shift) % 2 ^ type.bits := by
  have hshift : type.shiftLeft value shift = value <<< shift := by
    rw [shiftLeft, Nat.shiftLeft_eq, mod_eq_of_lt h]
  rw [hshift, or_mod_two_pow, mod_mod, ← or_mod_two_pow, Nat.or_comm,
    ← shiftLeft_add_eq_or_of_lt hlow, Nat.shiftLeft_eq, Nat.add_comm]

end Unsigned

namespace LEB128

/-- The loop of `read_unsigned`: whether it succeeds, the result and the stream.  It is `none`
when the assertion of `seek` fails. -/
def readLoop (type : Unsigned) (backupOffset : Nat) (stream : InputMemoryStream)
    (result numBytes : Nat) : Option (Bool × Nat × InputMemoryStream) :=
  if stream.unreliableEof then
    (stream.seek backupOffset).map fun stream =>
      (false, result, { stream with mFatalError := true })
  else if stream.readByte.2.hasAnyError then some (false, result, stream.readByte.2)
  else
    let byte := stream.readByte.1
    let maskedByte := (byte &&& 0x7f).toNat
    let shiftTooLargeForResult := decide (type.bits < numBytes * 7)
    let shiftTooLargeForByte :=
      decide (type.shiftLeft maskedByte (numBytes * 7) >>> (numBytes * 7) ≠ maskedByte)
    if shiftTooLargeForResult then some (false, result, stream.readByte.2)
    else if shiftTooLargeForByte then some (false, result, stream.readByte.2)
    else
      let newResult := (result ||| type.shiftLeft maskedByte (numBytes * 7)) % 2 ^ type.bits
      if byte &&& 0x80 = 0 then some (true, newResult, stream.readByte.2)
      else readLoop type backupOffset stream.readByte.2 newResult (numBytes + 1)
termination_by stream.mBytes.length - stream.mOffset
decreasing_by exact InputMemoryStream.remaining_readByte ‹_›

def readUnsigned (type : Unsigned) (stream : InputMemoryStream) :
    Option (Bool × Nat × InputMemoryStream) :=
  readLoop type stream.mOffset stream 0 0

/-! ## Sequences -/

/-- A complete sequence and the value it encodes: seven bits a byte, the lowest first, and
the high bit on every byte but the last. -/
inductive Encodes : List UInt8 → Nat → Prop where
  | last {b : UInt8} (h : b < 0x80) : Encodes [b] b.toNat
  | more {b : UInt8} {bytes : List UInt8} {value : Nat} (h : 0x80 ≤ b) (hmore : Encodes bytes value) :
      Encodes (b :: bytes) (b.toNat - 0x80 + 128 * value)

theorem Encodes.lt {value : Nat} (h : Encodes bytes value) : value < 128 ^ bytes.length := by
  induction h with
  | last h => exact UInt8.lt_iff_toNat_lt.mp h
  | @more b bytes value h _ ih =>
    have hb := b.toNat_lt
    rw [length_cons, Nat.pow_succ]
    omega

/-- The bytes that a value of the type takes at most. -/
def maxBytes (type : Unsigned) : Nat := (type.bits + 6) / 7

theorem mask_of_lt (h : b < 0x80) : (b &&& 0x7f).toNat = b.toNat ∧ b &&& 0x80 = 0 := by
  revert h
  exact forall_byte (P := fun b => b < 0x80 → (b &&& 0x7f).toNat = b.toNat ∧ b &&& 0x80 = 0)
    (by decide) b

theorem mask_of_le (h : 0x80 ≤ b) : (b &&& 0x7f).toNat = b.toNat - 0x80 ∧ b &&& 0x80 ≠ 0 := by
  revert h
  exact forall_byte
    (P := fun b => 0x80 ≤ b → (b &&& 0x7f).toNat = b.toNat - 0x80 ∧ b &&& 0x80 ≠ 0)
    (by decide) b

/-! ## Reading a sequence -/

variable {type : Unsigned}

theorem lt_bits (h : numBytes + 1 ≤ maxBytes type) : numBytes * 7 < type.bits := by
  unfold maxBytes at h
  omega

/-- One byte of a sequence: the loop ends with an error exactly when the promoted type does
not hold the shifted bits. -/
theorem readLoop_cons (h : stream.Continues (b :: bytes)) (hn : numBytes + 1 ≤ maxBytes type)
    (backupOffset result : Nat) : readLoop type backupOffset stream result numBytes =
      if (b &&& 0x7f).toNat * 2 ^ (numBytes * 7) < 2 ^ type.promotedBits then
        let newResult :=
          (result ||| type.shiftLeft (b &&& 0x7f).toNat (numBytes * 7)) % 2 ^ type.bits
        if b &&& 0x80 = 0 then some (true, newResult, stream.advance 1)
        else readLoop type backupOffset (stream.advance 1) newResult (numBytes + 1)
      else some (false, result, stream.advance 1) := by
  obtain ⟨hread, hnext⟩ := h.readByte
  have hbits := lt_bits hn
  have hready : ¬ (stream.advance 1).hasAnyError = true := by
    rw [hnext.ready]
    exact Bool.false_ne_true
  rw [readLoop, hread, if_neg (by rw [h.not_eof]; exact Bool.false_ne_true), if_neg hready]
  rw [if_neg (by rw [decide_eq_true_eq]; omega)]
  have hback := type.shiftLeft_shiftRight_iff (b &&& 0x7f).toNat (numBytes * 7)
  split
  · next hlost =>
    rw [decide_eq_true_eq] at hlost
    rw [if_neg (mt hback.mpr hlost)]
  · next hkept =>
    rw [decide_eq_true_eq, not_not] at hkept
    rw [if_pos (hback.mp hkept)]

/-- The bits below those of a byte do not carry over what the byte leaves free. -/
theorem add_lt_of_mul_lt {m shift total : Nat} (hlow : low < 2 ^ shift) (hle : shift ≤ total)
    (h : m * 2 ^ shift < 2 ^ total) : low + m * 2 ^ shift < 2 ^ total := by
  obtain ⟨above, rfl⟩ := Nat.exists_eq_add_of_le hle
  rw [Nat.pow_add, Nat.mul_comm] at h
  have hm := Nat.lt_of_mul_lt_mul_left h
  have hmul := Nat.mul_le_mul_left (2 ^ shift) (succ_le_of_lt hm)
  rw [Nat.mul_succ] at hmul
  rw [Nat.pow_add, Nat.mul_comm m]
  omega

/-- The loop from the middle of a number on: `low` is the value of the bytes before.  The
sequence is accepted exactly when the promoted type holds the whole number, which is then
cut down to the type. -/
theorem readLoop_spec {bytes : List UInt8} {value : Nat} (h : Encodes bytes value) :
    ∀ {stream : InputMemoryStream} {rest : List UInt8} (backupOffset numBytes low : Nat),
      stream.Continues (bytes ++ rest) →
      numBytes + bytes.length ≤ maxBytes type → low < 2 ^ (numBytes * 7) →
      (low + value * 2 ^ (numBytes * 7) < 2 ^ type.promotedBits →
        readLoop type backupOffset stream (low % 2 ^ type.bits) numBytes =
          some (true, (low + value * 2 ^ (numBytes * 7)) % 2 ^ type.bits,
            stream.advance bytes.length)) ∧
      (2 ^ type.promotedBits ≤ low + value * 2 ^ (numBytes * 7) →
        ∃ result stream', readLoop type backupOffset stream (low % 2 ^ type.bits) numBytes =
          some (false, result, stream')) := by
  induction h with
  | @last b hb =>
    intro stream rest backupOffset numBytes low hcontinues hlength hlow
    obtain ⟨hmask, hlast⟩ := mask_of_lt hb
    have hbits := lt_bits hlength
    have hpromoted := type.bits_le_promotedBits
    rw [readLoop_cons hcontinues hlength, hmask]
    constructor
    · intro hfits
      rw [if_pos (by omega), if_pos hlast, type.or_shiftLeft (by omega) hlow]
      rfl
    · intro hlost
      rw [if_neg]
      · exact ⟨_, _, rfl⟩
      · intro hlt
        have := add_lt_of_mul_lt hlow (by omega) hlt
        omega
  | @more b bytes value hb hmore ih =>
    intro stream rest backupOffset numBytes low hcontinues hlength hlow
    obtain ⟨hmask, hmoreBit⟩ := mask_of_le hb
    rw [length_cons] at hlength
    obtain ⟨-, hnext⟩ := hcontinues.readByte
    have hn : numBytes + 1 ≤ maxBytes type := by omega
    have hbyte := b.toNat_lt
    have hpow : 2 ^ ((numBytes + 1) * 7) = 128 * 2 ^ (numBytes * 7) := by
      rw [Nat.succ_mul, Nat.pow_add, Nat.mul_comm]
    have htotal : low + (b.toNat - 128 + 128 * value) * 2 ^ (numBytes * 7) =
        (low + (b.toNat - 128) * 2 ^ (numBytes * 7)) + value * 2 ^ ((numBytes + 1) * 7) := by
      rw [hpow, Nat.add_mul, Nat.mul_assoc, Nat.mul_left_comm 128 value]
      omega
    have hlow' : low + (b.toNat - 128) * 2 ^ (numBytes * 7) < 2 ^ ((numBytes + 1) * 7) := by
      have hmul := Nat.mul_le_mul_right (2 ^ (numBytes * 7)) (by omega : b.toNat - 128 ≤ 127)
      rw [hpow]
      omega
    obtain ⟨ihfits, ihlost⟩ := ih backupOffset _ _ hnext (by omega) hlow'
    rw [List.cons_append] at hcontinues
    rw [readLoop_cons hcontinues hn, hmask, htotal]
    constructor
    · intro hfits
      have hheld : (b.toNat - 128) * 2 ^ (numBytes * 7) < 2 ^ type.promotedBits := by omega
      rw [if_pos hheld, if_neg hmoreBit, type.or_shiftLeft hheld hlow, ihfits hfits,
        InputMemoryStream.advance_advance, length_cons, Nat.add_comm 1]
    · intro hlost
      rcases Nat.lt_or_ge ((b.toNat - 128) * 2 ^ (numBytes * 7)) (2 ^ type.promotedBits) with
        hheld | hheld
      · rw [if_pos hheld, if_neg hmoreBit, type.or_shiftLeft hheld hlow]
        exact ihlost hlost
      · rw [if_neg (Nat.not_lt.mpr hheld)]
        exact ⟨_, _, rfl⟩

/-- A sequence of no more bytes than the type needs is read exactly when the promoted type
holds its value. -/
theorem readUnsigned_spec {rest : List UInt8} {value : Nat} (h : Encodes bytes value)
    (hcontinues : stream.Continues (bytes ++ rest)) (hlength : bytes.length ≤ maxBytes type) :
    (value < 2 ^ type.promotedBits →
      readUnsigned type stream =
        some (true, value % 2 ^ type.bits, stream.advance bytes.length)) ∧
    (2 ^ type.promotedBits ≤ value →
      ∃ result stream', readUnsigned type stream = some (false, result, stream')) := by
  have hzero : 0 + bytes.length ≤ maxBytes type := by omega
  have hspec := readLoop_spec h stream.mOffset 0 0 hcontinues hzero (by decide)
  rw [zero_mod, Nat.zero_mul, Nat.pow_zero, Nat.mul_one, Nat.zero_add] at hspec
  exact hspec

/-- What is asked of `read_unsigned` at a sequence: a value that fits is read and the stream
stands after the sequence; one that does not fit is refused. -/
structure Meets (type : Unsigned) (stream : InputMemoryStream) (bytes : List UInt8)
    (value : Nat) : Prop where
  fits : value < 2 ^ type.bits →
    readUnsigned type stream = some (true, value, stream.advance bytes.length)
  lost : 2 ^ type.bits ≤ value →
    ∃ result stream', readUnsigned type stream = some (false, result, stream')

/-- The narrow types are promoted to a type that holds every sequence of their length. -/
theorem lt_promoted {value : Nat} (h : Encodes bytes value)
    (hlength : bytes.length ≤ maxBytes type) :
    type.bits = type.promotedBits ∨ value < 2 ^ type.promotedBits := by
  have hlt := h.lt
  have hmono := Nat.pow_le_pow_right (by decide : 0 < 128) hlength
  cases type with
  | u8 => exact .inr (Nat.lt_of_lt_of_le hlt (Nat.le_trans hmono (by decide)))
  | u16 => exact .inr (Nat.lt_of_lt_of_le hlt (Nat.le_trans hmono (by decide)))
  | u32 => exact .inl rfl
  | u64 => exact .inl rfl

/-- A sequence is read as it should be exactly when its value fits the type or the type is
not promoted. -/
theorem meets_iff {bytes rest : List UInt8} {value : Nat} (h : Encodes bytes value)
    {stream : InputMemoryStream} (hcontinues : stream.Continues (bytes ++ rest))
    (hlength : bytes.length ≤ maxBytes type) :
    Meets type stream bytes value ↔ type = .u32 ∨ type = .u64 ∨ value < 2 ^ type.bits := by
  obtain ⟨hheld, hlost⟩ := readUnsigned_spec h hcontinues hlength
  have hpow := Nat.pow_le_pow_right (by decide : 0 < 2) type.bits_le_promotedBits
  have hfits : value < 2 ^ type.bits →
      readUnsigned type stream = some (true, value, stream.advance bytes.length) := by
    intro hlt
    rw [hheld (by omega), mod_eq_of_lt hlt]
  constructor
  · intro hmeets
    rcases Nat.lt_or_ge value (2 ^ type.bits) with hlt | hge
    · exact .inr (.inr hlt)
    · obtain ⟨result, stream', hfalse⟩ := hmeets.lost hge
      rcases lt_promoted h hlength with heq | hlt
      · cases type with
        | u8 => cases heq
        | u16 => cases heq
        | u32 => exact .inl rfl
        | u64 => exact .inr (.inl rfl)
      · rw [hheld hlt] at hfalse
        cases hfalse
  · intro hcondition
    refine ⟨hfits, fun hge => ?_⟩
    obtain rfl | rfl | hlt := hcondition
    · exact hlost hge
    · exact hlost hge
    · exact absurd hge (Nat.not_le.mpr hlt)

/-- 300 in two bytes. -/
theorem encodes_sample : Encodes [0xac, 0x02] 300 :=
  .more (by decide) (.last (by decide))

theorem continues_sample : InputMemoryStream.Continues { mBytes := [0xac, 0x02] }
    ([0xac, 0x02] ++ []) where
  ready := rfl
  bytes := rfl

theorem meets_iff_sample : Meets .u8 { mBytes := [0xac, 0x02] } [0xac, 0x02] 300 ↔
      Unsigned.u8 = .u32 ∨ Unsigned.u8 = .u64 ∨ 300 < 2 ^ Unsigned.u8.bits :=
  meets_iff encodes_sample continues_sample (by decide)

/-- 300 is read into a `u8` as 44. -/
theorem not_meets_sample :
    Encodes [0xac, 0x02] 300 ∧ ¬ Meets .u8 { mBytes := [0xac, 0x02] } [0xac, 0x02] 300 ∧
      readUnsigned .u8 { mBytes := [0xac, 0x02] } =
        some (true, 44, { mBytes := [0xac, 0x02], mOffset := 2 }) := by
  have hlength : [(0xac : UInt8), 0x02].length ≤ maxBytes .u8 := by decide
  have hread := (readUnsigned_spec encodes_sample continues_sample hlength).1 (by decide)
  refine ⟨encodes_sample, fun hmeets => ?_, hread⟩
  obtain ⟨result, stream', hfalse⟩ := hmeets.lost (by decide)
  rw [hread] at hfalse
  cases hfalse

end LEB128

end Literate.AK

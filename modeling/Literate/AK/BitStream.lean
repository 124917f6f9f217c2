import Literate.Foundation.Bits

/-!
# AK: bit streams

`OutputBitStream` and `InputBitStream` of `AK/BitStream.h`, on a little-endian host.
The streams underneath are byte sequences: the output stream takes all that is written
to it, the input stream holds what has not been read.
-/

namespace Literate.AK

open Foundation

/-- The output stream underneath, and whether it has any error. -/
structure OutputStream where
  bytes : List (BitVec 8)
  anyError : Bool
  deriving DecidableEq, Repr

/-- `stream << value` for a value of these bytes. -/
def OutputStream.write (stream : OutputStream) (bytes : List (BitVec 8)) : OutputStream :=
  { stream with bytes := stream.bytes ++ bytes }

structure OutputBitStream where
  nextByte : Option (BitVec 8)
  bitOffset : Nat
  fatalError : Bool
  stream : OutputStream
  deriving DecidableEq, Repr

namespace OutputBitStream

/-- A new bit stream over the given stream. -/
def new (stream : OutputStream) : OutputBitStream where
  nextByte := none
  bitOffset := 0
  fatalError := false
  stream := stream

def write (s : OutputBitStream) (bytes : List (BitVec 8)) : OutputBitStream :=
  { s with stream := s.stream.write bytes }

/-- The branch of `write_bits` for a bit of the byte that is held. -/
def writeNextBit (bits : BitVec 32) (nWritten : Nat) (byte : BitVec 8) (s : OutputBitStream) :
    OutputBitStream :=
  let byte := byte ||| (((bits >>> nWritten) &&& 1#32) <<< s.bitOffset).setWidth 8
  if s.bitOffset = 7 then
    { s.write [byte] with nextByte := none, bitOffset := s.bitOffset + 1 }
  else { s with nextByte := some byte, bitOffset := s.bitOffset + 1 }

/-- The branch of `write_bits` that begins a byte. -/
def beginByte (s : OutputBitStream) : OutputBitStream :=
  { s with bitOffset := 0, nextByte := some 0 }

/-- The loop of `write_bits`. -/
def writeLoop (bits : BitVec 32) (count nWritten : Nat) (s : OutputBitStream) : OutputBitStream :=
  if nWritten < count then
    if s.stream.anyError then { s with fatalError := true }
    else
      match hbyte : s.nextByte with
      | some byte => writeLoop bits count (nWritten + 1) (writeNextBit bits nWritten byte s)
      | none =>
        if 16 ≤ count - nWritten then
          writeLoop bits count (nWritten + 16)
            (s.write (littleEndian 2 (((bits >>> nWritten) &&& 0xFFFF#32).setWidth 16)))
        else if 8 ≤ count - nWritten then
          writeLoop bits count (nWritten + 8)
            (s.write [((bits >>> nWritten) &&& 0xFF#32).setWidth 8])
        else writeLoop bits count nWritten (beginByte s)
  else s
termination_by (count - nWritten, if s.nextByte = none then 1 else 0)
decreasing_by
  · exact Prod.Lex.left _ _ (by omega)
  · exact Prod.Lex.left _ _ (by omega)
  · exact Prod.Lex.left _ _ (by omega)
  · rw [hbyte]
    exact Prod.Lex.right _ (by simp [beginByte])

/-- `write_bits`; `none` when its assertion fails. -/
def writeBits (bits : BitVec 32) (count : Nat) (s : OutputBitStream) : Option OutputBitStream :=
  if count ≤ 32 then
    if count = 32 ∧ s.nextByte = none then some (s.write (littleEndian 4 bits))
    else some (writeLoop bits count 0 s)
  else none

def writeBit (bit : Bool) (s : OutputBitStream) : Option OutputBitStream :=
  writeBits (BitVec.ofBool bit |>.setWidth 32) 1 s

def alignToByteBoundary (s : OutputBitStream) : OutputBitStream :=
  match s.nextByte with
  | some byte => { s.write [byte] with nextByte := none }
  | none => s

/-- `write_bits` without its fast paths. -/
def writeBitwise (bits : BitVec 32) (count nWritten : Nat) (s : OutputBitStream) :
    OutputBitStream :=
  if nWritten < count then
    if s.stream.anyError then { s with fatalError := true }
    else
      match hbyte : s.nextByte with
      | some byte => writeBitwise bits count (nWritten + 1) (writeNextBit bits nWritten byte s)
      | none => writeBitwise bits count nWritten (beginByte s)
  else s
termination_by (count - nWritten, if s.nextByte = none then 1 else 0)
decreasing_by
  · exact Prod.Lex.left _ _ (by omega)
  · rw [hbyte]
    exact Prod.Lex.right _ (by simp [beginByte])

end OutputBitStream

/-! ## Reading -/

/-- The input stream underneath: the bytes that have not been read. -/
structure InputStream where
  unread : List (BitVec 8)
  anyError : Bool
  deriving DecidableEq, Repr

structure InputBitStream where
  nextByte : Option (BitVec 8)
  bitOffset : Nat
  fatalError : Bool
  stream : InputStream
  deriving DecidableEq, Repr

namespace InputBitStream

def new (stream : InputStream) : InputBitStream where
  nextByte := none
  bitOffset := 0
  fatalError := false
  stream := stream

/-- `m_stream >> m_next_byte; m_bit_offset = 0`.  When nothing is left the stream has
an error then, and the byte is not looked at. -/
def nextByteFromStream (s : InputBitStream) : InputBitStream :=
  match s.stream.unread with
  | byte :: unread =>
    { s with nextByte := some byte, bitOffset := 0, stream := { s.stream with unread } }
  | [] =>
    { s with nextByte := some 0, bitOffset := 0, stream := { s.stream with anyError := true } }

/-- `bit << nread`, an `int`, as it is or-ed to the `u64` result. -/
def shiftedBit (byte : BitVec 8) (bitOffset nread : Nat) : BitVec 64 :=
  let bit : BitVec 32 := (byte.setWidth 32 >>> bitOffset) &&& 1#32
  (bit <<< nread).signExtend 64

/-- `if (m_bit_offset++ == 7) m_next_byte.clear()`. -/
def advance (byte : BitVec 8) (s : InputBitStream) : InputBitStream :=
  { s with
    bitOffset := s.bitOffset + 1
    nextByte := if s.bitOffset = 7 then none else some byte }

/-- The loop of `read_bits`. -/
def readLoop (count nread : Nat) (result : BitVec 64) (s : InputBitStream) :
    BitVec 64 × InputBitStream :=
  if nread < count then
    if s.stream.anyError then (0, { s with fatalError := true })
    else
      match hbyte : s.nextByte with
      | some byte =>
        readLoop count (nread + 1) (result ||| shiftedBit byte s.bitOffset nread)
          (s.advance byte)
      | none => readLoop count nread result s.nextByteFromStream
  else (result, s)
termination_by (count - nread, if s.nextByte = none then 1 else 0)
decreasing_by
  · exact Prod.Lex.left _ _ (by omega)
  · rw [hbyte]
    refine Prod.Lex.right _ ?_
    rw [nextByteFromStream]
    split <;> simp

def readBits (count : Nat) (s : InputBitStream) : BitVec 64 × InputBitStream :=
  readLoop count 0 0 s

end InputBitStream

end Literate.AK

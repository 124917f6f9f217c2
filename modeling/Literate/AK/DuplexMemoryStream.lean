import Literate.AK.MemMem

/-!
# AK: the duplex memory stream

`DuplexMemoryStream` of `AK/MemoryStream.h`.  The offsets count from the first byte ever
written and are unbounded here: the code looks at their differences and at their
residues modulo the chunk size, which a `size_t` that wraps has too.  A new chunk is not
initialized; `uninitialized` says what happens to be in it.  `none` is a failed assertion,
and a loop that is still running after its `fuel`.
-/

namespace Literate.AK

/-! ## Spans -/

namespace Span

variable {α : Type*}

/-- `slice(start)`. -/
def slice (span : List α) (start : Nat) : Option (List α) :=
  if start ≤ span.length then some (span.drop start) else none

/-- `slice(start, length)`. -/
def sliceLength (span : List α) (start length : Nat) : Option (List α) :=
  if start + length ≤ span.length then some ((span.drop start).take length) else none

def trim (span : List α) (length : Nat) : List α := span.take (min span.length length)

/-- What `copy_trimmed_to` makes of the other span, and how much it copies. -/
def copyTrimmedTo (span other : List α) : List α × Nat :=
  let count := min span.length other.length
  (span.take count ++ other.drop count, count)

end Span

open Span

/-! ## The stream -/

structure DuplexMemoryStream where
  chunks : List (List UInt8)
  writeOffset : Nat
  readOffset : Nat
  baseOffset : Nat
  recoverableError : Bool
  fatalError : Bool
  deriving DecidableEq, Repr

namespace DuplexMemoryStream

def chunkSize : Nat := 4 * 1024

/-- A stream nothing has been written to. -/
def new : DuplexMemoryStream where
  chunks := []
  writeOffset := 0
  readOffset := 0
  baseOffset := 0
  recoverableError := false
  fatalError := false

variable (uninitialized : Nat → UInt8)

def hasAnyError (s : DuplexMemoryStream) : Bool := s.recoverableError || s.fatalError

def setRecoverableError (s : DuplexMemoryStream) : DuplexMemoryStream :=
  { s with recoverableError := true }

def setFatalError (s : DuplexMemoryStream) : DuplexMemoryStream := { s with fatalError := true }

def handleAnyError (s : DuplexMemoryStream) : Bool × DuplexMemoryStream :=
  if s.hasAnyError then (true, { s with recoverableError := false, fatalError := false })
  else (false, s)

def eof (s : DuplexMemoryStream) : Bool := s.writeOffset == s.readOffset

def size (s : DuplexMemoryStream) : Nat := s.writeOffset - s.readOffset

/-- `try_discard_chunks`, with the chunks and the base offset. -/
def discardChunks (readOffset : Nat) : List (List UInt8) → Nat → Option (List (List UInt8) × Nat)
  | [], baseOffset => if chunkSize ≤ readOffset - baseOffset then none else some ([], baseOffset)
  | chunk :: chunks, baseOffset =>
    if chunkSize ≤ readOffset - baseOffset then
      discardChunks readOffset chunks (baseOffset + chunkSize)
    else some (chunk :: chunks, baseOffset)

def tryDiscardChunks (s : DuplexMemoryStream) : Option DuplexMemoryStream := do
  let (chunks, baseOffset) ← discardChunks s.readOffset s.chunks s.baseOffset
  some { s with chunks := chunks, baseOffset := baseOffset }

def discardOrError (count : Nat) (s : DuplexMemoryStream) : Option (Bool × DuplexMemoryStream) :=
  if s.writeOffset - s.readOffset < count then some (false, s.setRecoverableError)
  else do
    let s ← tryDiscardChunks { s with readOffset := s.readOffset + count }
    some (true, s)

/-- One pass through the loop of `read_without_consuming`. -/
def readStep (s : DuplexMemoryStream) (bytes : List UInt8) (nread : Nat) :
    Option (List UInt8 × Nat) := do
  let chunkIndex := (s.readOffset - s.baseOffset + nread) / chunkSize
  let chunk ← s.chunks[chunkIndex]?
  let chunkBytes ← slice chunk ((s.readOffset + nread) % chunkSize)
  let chunkBytes := trim chunkBytes (s.writeOffset - s.readOffset - nread)
  let (room, count) := copyTrimmedTo chunkBytes (← slice bytes nread)
  some (bytes.take nread ++ room, nread + count)

/-- The loop of `read_without_consuming`. -/
def readLoop (s : DuplexMemoryStream) : Nat → List UInt8 → Nat → Option (List UInt8 × Nat)
  | fuel, bytes, nread =>
    if 0 < bytes.length - nread ∧ 0 < s.writeOffset - s.readOffset - nread then
      match fuel with
      | 0 => none
      | fuel + 1 => do
          let (bytes, nread) ← readStep s bytes nread
          readLoop s fuel bytes nread
    else some (bytes, nread)

/-- `read_without_consuming`: the buffer after it, and how much has been read. -/
def readWithoutConsuming (bytes : List UInt8) (s : DuplexMemoryStream) :
    Option (List UInt8 × Nat) := readLoop s bytes.length bytes 0

/-- `read`: the buffer after it, and how much has been read. -/
def read (bytes : List UInt8) (s : DuplexMemoryStream) :
    Option ((List UInt8 × Nat) × DuplexMemoryStream) :=
  if s.hasAnyError then some ((bytes, 0), s)
  else do
    let (bytes, nread) ← readWithoutConsuming bytes s
    let s ← tryDiscardChunks { s with readOffset := s.readOffset + nread }
    some ((bytes, nread), s)

/-- `read_or_error`: the buffer after it, and whether it has been filled. -/
def readOrError (bytes : List UInt8) (s : DuplexMemoryStream) :
    Option ((List UInt8 × Bool) × DuplexMemoryStream) :=
  if s.writeOffset - s.readOffset < bytes.length then some ((bytes, false), s.setRecoverableError)
  else do
    let ((buffer, nread), s) ← read bytes s
    some ((buffer, nread == bytes.length), s)

/-- The chunk that `create_uninitialized` gives at a write offset. -/
def newChunk (offset : Nat) : List UInt8 :=
  (List.range chunkSize).map fun i => uninitialized (offset + i)

/-- One pass through the loop of `write`. -/
def writeStep (bytes : List UInt8) (writeOffset : Nat) (chunks : List (List UInt8))
    (nwritten : Nat) : Option (List (List UInt8) × Nat) := do
  let chunks :=
    if (writeOffset + nwritten) % chunkSize = 0 then
      chunks ++ [newChunk uninitialized (writeOffset + nwritten)]
    else chunks
  let last ← chunks.getLast?
  let start := (writeOffset + nwritten) % chunkSize
  let (room, count) := copyTrimmedTo (← slice bytes nwritten) (← slice last start)
  some (chunks.dropLast ++ [last.take start ++ room], nwritten + count)

/-- The loop of `write`. -/
def writeLoop (bytes : List UInt8) (writeOffset : Nat) :
    Nat → List (List UInt8) → Nat → Option (List (List UInt8) × Nat)
  | fuel, chunks, nwritten =>
    if 0 < bytes.length - nwritten then
      match fuel with
      | 0 => none
      | fuel + 1 => do
          let (chunks, nwritten) ← writeStep uninitialized bytes writeOffset chunks nwritten
          writeLoop bytes writeOffset fuel chunks nwritten
    else some (chunks, nwritten)

def write (bytes : List UInt8) (s : DuplexMemoryStream) : Option (Nat × DuplexMemoryStream) := do
  let (chunks, nwritten) ←
    writeLoop uninitialized bytes s.writeOffset bytes.length s.chunks 0
  some (nwritten, { s with chunks := chunks, writeOffset := s.writeOffset + nwritten })

def writeOrError (bytes : List UInt8) (s : DuplexMemoryStream) :
    Option (Bool × DuplexMemoryStream) := do
  let (_, s) ← write uninitialized bytes s
  some (true, s)

/-- The span of a chunk that `offset_of` searches. -/
def spanOf (chunk : List UInt8) (chunkReadOffset : Nat) : Option (List UInt8) :=
  if chunkReadOffset ≠ 0 then slice chunk chunkReadOffset else some chunk

/-- The loop of `offset_of`, from the chunk `chunkIndex` on. -/
def spansLoop (chunks : List (List UInt8)) :
    Nat → (chunkIndex chunkReadOffset bytesToSearch : Nat) → Option (List (List UInt8))
  | fuel, chunkIndex, chunkReadOffset, bytesToSearch =>
    if 0 < bytesToSearch then
      match fuel with
      | 0 => none
      | fuel + 1 => do
          let chunk ← chunks[chunkIndex]?
          let span ← spanOf chunk chunkReadOffset
          if bytesToSearch < span.length then
            some [← sliceLength span 0 bytesToSearch]
          else
            let spans ← spansLoop chunks fuel (chunkIndex + 1) 0 (bytesToSearch - span.length)
            some (span :: spans)
    else some []

/-- The spans that `offset_of` searches. -/
def spans (s : DuplexMemoryStream) : Option (List (List UInt8)) :=
  spansLoop s.chunks s.size ((s.readOffset - s.baseOffset) / chunkSize)
    ((s.readOffset - s.baseOffset) % chunkSize) (s.writeOffset - s.readOffset)

def offsetOf (value : List UInt8) (s : DuplexMemoryStream) : Option (Option Nat) := do
  memmem (← s.spans) value

/-! ## Runs -/

/-- A call of the stream; a read comes with the buffer it is to fill. -/
inductive Call
  | write (bytes : List UInt8)
  | writeOrError (bytes : List UInt8)
  | read (bytes : List UInt8)
  | readOrError (bytes : List UInt8)
  | discardOrError (count : Nat)
  | size
  | eof
  | setRecoverableError
  | setFatalError
  | handleAnyError
  deriving DecidableEq, Repr

/-- What a call returns, and the buffer after it. -/
inductive Answer
  | done
  | count (n : Nat)
  | success (b : Bool)
  | filled (bytes : List UInt8) (n : Nat)
  | filledOrNot (bytes : List UInt8) (b : Bool)
  deriving DecidableEq, Repr

/-- A call, with what it returns. -/
def perform (s : DuplexMemoryStream) : Call → Option (Answer × DuplexMemoryStream)
  | .write bytes => (write uninitialized bytes s).map fun r => (.count r.1, r.2)
  | .writeOrError bytes => (writeOrError uninitialized bytes s).map fun r => (.success r.1, r.2)
  | .read bytes => (read bytes s).map fun r => (.filled r.1.1 r.1.2, r.2)
  | .readOrError bytes => (readOrError bytes s).map fun r => (.filledOrNot r.1.1 r.1.2, r.2)
  | .discardOrError count => (discardOrError count s).map fun r => (.success r.1, r.2)
  | .size => some (.count s.size, s)
  | .eof => some (.success s.eof, s)
  | .setRecoverableError => some (.done, s.setRecoverableError)
  | .setFatalError => some (.done, s.setFatalError)
  | .handleAnyError => some (.success s.handleAnyError.1, s.handleAnyError.2)

end DuplexMemoryStream

end Literate.AK

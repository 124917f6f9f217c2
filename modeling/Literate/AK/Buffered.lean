import Literate.AK.DuplexMemoryStream

/-!
# AK: buffered streams

`Buffered<InputStream, Size>` and `Buffered<OutputStream, Size>` of `AK/Buffered.h`, over a
stream whose `read` delivers what there is of the bytes asked for and a sink that accepts
everything.  `none` is a failed assertion, and a loop or recursion that is still running after
its `fuel`.
-/

namespace Literate.AK

namespace Span

variable {α : Type*}

/-- What `copy_to` makes of the other span. -/
def copyTo (span other : List α) : Option (List α) :=
  if span.length ≤ other.length then some (span ++ other.drop span.length) else none

end Span

open Span

/-! ## The input stream -/

/-- The underlying stream: the bytes that it still has, and its pending errors. -/
structure Source where
  bytes : List UInt8
  recoverableError : Bool
  fatalError : Bool
  deriving DecidableEq, Repr

namespace Source

def hasAnyError (s : Source) : Bool := s.recoverableError || s.fatalError

/-- `read`: the buffer after it, and how much has been read. -/
def read (buffer : List UInt8) (s : Source) : (List UInt8 × Nat) × Source :=
  let (buffer, count) := copyTrimmedTo s.bytes buffer
  ((buffer, count), { s with bytes := s.bytes.drop count })

end Source

/-- `Buffered<InputStream, Size>`. -/
structure BufferedInput where
  stream : Source
  buffer : List UInt8
  buffered : Nat
  deriving DecidableEq, Repr

namespace BufferedInput

/-- A new stream; the buffer is not initialized. -/
def new (size : Nat) (uninitialized : Nat → UInt8) (bytes : List UInt8) : BufferedInput where
  stream := { bytes := bytes, recoverableError := false, fatalError := false }
  buffer := (List.range size).map uninitialized
  buffered := 0

def hasAnyError (b : BufferedInput) : Bool := b.stream.hasAnyError

def setFatalError (b : BufferedInput) : BufferedInput :=
  { b with stream := { b.stream with fatalError := true } }

def handleAnyError (b : BufferedInput) : Bool × BufferedInput :=
  if b.hasAnyError then
    (true, { b with stream := { b.stream with recoverableError := false, fatalError := false } })
  else (false, b)

/-- The bytes that are left move to the front of the buffer. -/
def shift (buffer : List UInt8) (nread buffered : Nat) : Option (List UInt8) :=
  if 0 < buffered then (sliceLength buffer nread buffered).bind fun left => copyTo left buffer
  else some buffer

/-- `read`: the caller's bytes after it, and how many have been read. -/
def read (bytes : List UInt8) (b : BufferedInput) : Option ((List UInt8 × Nat) × BufferedInput) :=
  if b.hasAnyError then some ((bytes, 0), b)
  else do
    let (filled, nread) := copyTrimmedTo (trim b.buffer b.buffered) bytes
    let buffered := b.buffered - nread
    let buffer ← shift b.buffer nread buffered
    if nread < bytes.length then
      let ((rest, count), stream) := b.stream.read (← slice filled nread)
      let ((buffer, buffered), stream) := stream.read buffer
      some ((filled.take nread ++ rest, nread + count),
        { stream := stream, buffer := buffer, buffered := buffered })
    else some ((filled, nread), { b with buffer := buffer, buffered := buffered })

/-- `read_or_error`: the caller's bytes after it, and whether they have been filled. -/
def readOrError (bytes : List UInt8) (b : BufferedInput) :
    Option ((List UInt8 × Bool) × BufferedInput) := do
  let ((filled, nread), b) ← read bytes b
  if nread < bytes.length then some ((filled, false), b.setFatalError)
  else some ((filled, true), b)

def eof (b : BufferedInput) : Bool × BufferedInput :=
  if 0 < b.buffered then (false, b)
  else
    let ((buffer, buffered), stream) := b.stream.read b.buffer
    (buffered == 0, { stream := stream, buffer := buffer, buffered := buffered })

/-- The loop of `discard_or_error`; what is in `dummy` is not looked at. -/
def discardLoop (size count : Nat) : Nat → Nat → BufferedInput → Option (Bool × BufferedInput)
  | fuel, ndiscarded, b =>
    if ndiscarded < count then
      match fuel with
      | 0 => none
      | fuel + 1 => do
          let dummy := List.replicate (min size (count - ndiscarded)) 0
          let ((_, success), b) ← readOrError dummy b
          if success then
            discardLoop size count fuel (ndiscarded + min size (count - ndiscarded)) b
          else some (false, b)
    else some (true, b)

/-- `discard_or_error`; each turn of the loop discards something. -/
def discardOrError (size count : Nat) (b : BufferedInput) : Option (Bool × BufferedInput) :=
  discardLoop size count count 0 b

end BufferedInput

/-! ## The output stream -/

/-- The underlying sink: the bytes that it has received, and its pending errors. -/
structure Sink where
  bytes : List UInt8
  recoverableError : Bool
  fatalError : Bool
  deriving DecidableEq, Repr

namespace Sink

def hasAnyError (s : Sink) : Bool := s.recoverableError || s.fatalError

def write (bytes : List UInt8) (s : Sink) : Nat × Sink :=
  (bytes.length, { s with bytes := s.bytes ++ bytes })

end Sink

/-- `Buffered<OutputStream, Size>`. -/
structure BufferedOutput where
  stream : Sink
  buffer : List UInt8
  buffered : Nat
  deriving DecidableEq, Repr

namespace BufferedOutput

/-- A new stream; the buffer is not initialized. -/
def new (size : Nat) (uninitialized : Nat → UInt8) : BufferedOutput where
  stream := { bytes := [], recoverableError := false, fatalError := false }
  buffer := (List.range size).map uninitialized
  buffered := 0

def hasAnyError (b : BufferedOutput) : Bool := b.stream.hasAnyError

def flush (b : BufferedOutput) : BufferedOutput :=
  { b with stream := (b.stream.write (b.buffer.take b.buffered)).2, buffered := 0 }

/-- A rest that would fill the buffer again goes past it. -/
def writeThrough (size : Nat) (bytes : List UInt8) (nwritten : Nat) (b : BufferedOutput) :
    Option (Nat × BufferedOutput) :=
  if size ≤ bytes.length - nwritten then do
    let (count, stream) := b.stream.write (← slice bytes nwritten)
    some (nwritten + count, { b with stream := stream })
  else some (nwritten, b)

def write (size : Nat) : Nat → List UInt8 → BufferedOutput → Option (Nat × BufferedOutput)
  | fuel, bytes, b =>
    if b.hasAnyError then some (0, b)
    else do
      let (room, nwritten) := copyTrimmedTo bytes (← slice b.buffer b.buffered)
      let b :=
        { b with
          buffer := b.buffer.take b.buffered ++ room
          buffered := b.buffered + nwritten }
      if b.buffered = size then
        match fuel with
        | 0 => none
        | fuel + 1 => do
            let (nwritten, b) ← writeThrough size bytes nwritten b.flush
            let (count, b) ← write size fuel (← slice bytes nwritten) b
            some (nwritten + count, b)
      else some (nwritten, b)

end BufferedOutput

end Literate.AK

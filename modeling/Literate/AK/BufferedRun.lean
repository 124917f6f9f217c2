import Literate.AK.Buffered

/-!
# AK: buffered streams are transparent

`PlainStream` is the underlying stream without the buffer: what is read or discarded is taken off
the front of its bytes.  Every run of the buffered stream answers as the plain one does, and
every run of writes that ends with a flush leaves the concatenation of the writes in the sink.
-/

namespace Literate.AK

open Span List Option

variable {bytes : List UInt8}

namespace BufferedInput

/-! ## The bytes still to come -/

/-- The bytes still to come: those in the buffer and those of the underlying stream. -/
def contents (b : BufferedInput) : List UInt8 := b.buffer.take b.buffered ++ b.stream.bytes

/-- The buffer has its size and holds no more. -/
structure WellFormed (size : Nat) (b : BufferedInput) : Prop where
  length : b.buffer.length = size
  buffered_le : b.buffered ≤ size

variable {size : Nat} {b : BufferedInput}

theorem WellFormed.trim (h : WellFormed size b) :
    Span.trim b.buffer b.buffered = b.buffer.take b.buffered := by
  unfold Span.trim
  rw [h.length, Nat.min_eq_right h.buffered_le]

theorem WellFormed.length_take (h : WellFormed size b) :
    (b.buffer.take b.buffered).length = b.buffered := by
  rw [List.length_take, h.length, Nat.min_eq_left h.buffered_le]

theorem length_source_read (buffer : List UInt8) (s : Source) :
    (s.read buffer).1.1.length = buffer.length ∧ (s.read buffer).1.2 ≤ buffer.length := by
  unfold Source.read copyTrimmedTo
  dsimp only
  rw [length_append, List.length_take, length_drop]
  omega

/-- The bytes that are left in the buffer come to its front. -/
theorem shift_spec (h : WellFormed size b) {nread : Nat} (hle : nread ≤ b.buffered) :
    ∃ buffer, shift b.buffer nread (b.buffered - nread) = some buffer ∧ buffer.length = size ∧
      buffer.take (b.buffered - nread) = (b.buffer.take b.buffered).drop nread := by
  have hlength := h.length
  have hbuffered := h.buffered_le
  have hslice : ((b.buffer.drop nread).take (b.buffered - nread)).length = b.buffered - nread := by
    rw [List.length_take, length_drop]
    omega
  unfold shift
  split
  · next hpos =>
    unfold sliceLength copyTo
    rw [if_pos (by omega), bind_some, if_pos (by omega)]
    refine ⟨_, rfl, ?_, ?_⟩
    · rw [length_append, length_drop]
      omega
    · rw [take_append_of_le_length (Nat.le_of_eq hslice.symm),
        take_of_length_le (Nat.le_of_eq hslice), drop_take]
  · next hzero =>
    have hnone : b.buffered - nread = 0 := by omega
    refine ⟨b.buffer, rfl, hlength, ?_⟩
    simp only [hnone, take_zero, drop_take]

theorem contents_read (buffer : List UInt8) (s : Source) : contents
      { stream := (s.read buffer).2, buffer := (s.read buffer).1.1,
        buffered := (s.read buffer).1.2 } = s.bytes := by
  unfold contents Source.read copyTrimmedTo
  have hlength : (s.bytes.take (min s.bytes.length buffer.length)).length =
      min s.bytes.length buffer.length := by
    rw [List.length_take]
    omega
  rw [take_append_of_le_length (Nat.le_of_eq hlength.symm),
    take_of_length_le (Nat.le_of_eq hlength), take_append_drop]

theorem read_buffered (h : WellFormed size b) (hready : b.hasAnyError = false)
    (hle : bytes.length ≤ b.buffered) :
    ∃ b', read bytes b = some (((b.buffer.take b.buffered).take bytes.length, bytes.length), b') ∧
      WellFormed size b' ∧ b'.contents = b.contents.drop bytes.length ∧
      b'.stream = b.stream := by
  obtain ⟨buffer, hshift, hlength, hfront⟩ := shift_spec h hle
  have hmin : min (b.buffer.take b.buffered).length bytes.length = bytes.length := by
    rw [h.length_take, Nat.min_eq_right hle]
  refine ⟨{ b with buffer := buffer, buffered := b.buffered - bytes.length }, ?_, ?_, ?_, rfl⟩
  · unfold read copyTrimmedTo
    rw [hready, if_neg Bool.false_ne_true, h.trim]
    dsimp only
    rw [hmin, hshift, bind_eq_bind, bind_some, if_neg (Nat.lt_irrefl _),
      drop_length, append_nil]
  · exact ⟨hlength, Nat.le_trans (Nat.sub_le _ _) h.buffered_le⟩
  · unfold contents
    rw [hfront, drop_append_of_le_length (by rw [h.length_take]; exact hle)]

theorem read_past (h : WellFormed size b) (hready : b.hasAnyError = false)
    (hlt : b.buffered < bytes.length) {count : Nat}
    (hcount : count = min b.stream.bytes.length (bytes.length - b.buffered)) : ∃ b', read bytes b =
        some ((b.buffer.take b.buffered ++
          (b.stream.bytes.take count ++ bytes.drop (b.buffered + count)), b.buffered + count), b') ∧
      WellFormed size b' ∧ b'.contents = b.stream.bytes.drop count ∧
      b'.stream.recoverableError = b.stream.recoverableError ∧
      b'.stream.fatalError = b.stream.fatalError := by
  obtain ⟨buffer, hshift, hlength, -⟩ := shift_spec h (Nat.le_refl _)
  have htake := h.length_take
  have hmin : min (b.buffer.take b.buffered).length bytes.length = b.buffered := by
    rw [htake, Nat.min_eq_left (Nat.le_of_lt hlt)]
  have hwhole : (b.buffer.take b.buffered).take b.buffered = b.buffer.take b.buffered :=
    take_of_length_le (Nat.le_of_eq htake)
  have hslice : slice (b.buffer.take b.buffered ++ bytes.drop b.buffered) b.buffered =
      some (bytes.drop b.buffered) := by
    unfold slice
    rw [if_pos (by rw [length_append, htake]; exact Nat.le_add_right _ _),
      drop_append_of_le_length (Nat.le_of_eq htake.symm),
      drop_eq_nil_of_le (Nat.le_of_eq htake), nil_append]
  have hfront : (b.buffer.take b.buffered ++ bytes.drop b.buffered).take b.buffered =
      b.buffer.take b.buffered := by
    rw [take_append_of_le_length (Nat.le_of_eq htake.symm), hwhole]
  have hread : b.stream.read (bytes.drop b.buffered) =
      ((b.stream.bytes.take count ++ bytes.drop (b.buffered + count), count),
        { b.stream with bytes := b.stream.bytes.drop count }) := by
    unfold Source.read copyTrimmedTo
    dsimp only
    rw [length_drop, ← hcount, drop_drop]
  have hrefill := length_source_read buffer { b.stream with bytes := b.stream.bytes.drop count }
  rw [hlength] at hrefill
  refine ⟨_, ?_, ⟨hrefill.1, hrefill.2⟩,
    contents_read buffer { b.stream with bytes := b.stream.bytes.drop count }, rfl, rfl⟩
  unfold read
  rw [hready, if_neg Bool.false_ne_true, h.trim]
  unfold copyTrimmedTo
  dsimp only
  simp only [hmin, hshift, bind_eq_bind, bind_some, if_pos hlt, hwhole, hslice, hread, hfront]

/-- `read` takes what there is of the bytes asked for off the front. -/
theorem read_spec (h : WellFormed size b) (hready : b.hasAnyError = false) (bytes : List UInt8) :
    ∃ b', read bytes b =
        some ((b.contents.take bytes.length ++ bytes.drop (min bytes.length b.contents.length),
          min bytes.length b.contents.length), b') ∧
      WellFormed size b' ∧ b'.contents = b.contents.drop bytes.length ∧
      b'.stream.recoverableError = b.stream.recoverableError ∧
      b'.stream.fatalError = b.stream.fatalError := by
  have htake := h.length_take
  have htotal : b.contents.length = b.buffered + b.stream.bytes.length := by
    unfold contents
    rw [length_append, htake]
  rcases Nat.lt_or_ge b.buffered bytes.length with hlt | hge
  · obtain ⟨b', hread, hwf, hcontents, hrecoverable, hfatal⟩ := read_past h hready hlt rfl
    have hcount : b.buffered + min b.stream.bytes.length (bytes.length - b.buffered) =
        min bytes.length b.contents.length := by omega
    have hdelivered : b.contents.take bytes.length = b.buffer.take b.buffered ++
        b.stream.bytes.take (min b.stream.bytes.length (bytes.length - b.buffered)) := by
      unfold contents
      rw [take_append, htake, take_of_length_le (by omega),
        Nat.min_comm b.stream.bytes.length, ← take_eq_take_min]
    have hleft : b.stream.bytes.drop (min b.stream.bytes.length (bytes.length - b.buffered)) =
        b.contents.drop bytes.length := by
      have hfront : (b.buffer.take b.buffered).drop bytes.length = [] :=
        drop_eq_nil_of_le (by rw [htake]; exact Nat.le_of_lt hlt)
      unfold contents
      rw [drop_append, htake, hfront, nil_append]
      rcases Nat.le_total b.stream.bytes.length (bytes.length - b.buffered) with hle | hle
      · rw [Nat.min_eq_left hle, drop_length, drop_eq_nil_of_le hle]
      · rw [Nat.min_eq_right hle]
    rw [← List.append_assoc, ← hdelivered, hcount] at hread
    exact ⟨b', hread, hwf, hcontents.trans hleft, hrecoverable, hfatal⟩
  · obtain ⟨b', hread, hwf, hcontents, hstream⟩ := read_buffered h hready hge
    have hmin : min bytes.length b.contents.length = bytes.length := by omega
    have hdelivered : b.contents.take bytes.length = (b.buffer.take b.buffered).take bytes.length := by
      unfold contents
      rw [take_append_of_le_length (by rw [htake]; exact hge)]
    rw [← hdelivered] at hread
    rw [hmin, drop_length, append_nil]
    exact ⟨b', hread, hwf, hcontents, by rw [hstream], by rw [hstream]⟩

/-- A call on a buffered stream that a reader makes. -/
inductive Fetch where
  | read (bytes : List UInt8)
  | readOrError (bytes : List UInt8)
  | discardOrError (count : Nat)
  | eof
  | handleAnyError
  deriving DecidableEq, Repr

/-- What a call answers: the caller's bytes after it with their number or whether they have
been filled, or whether it succeeded. -/
inductive Fetched where
  | read (bytes : List UInt8) (nread : Nat)
  | filled (bytes : List UInt8) (success : Bool)
  | success (success : Bool)
  deriving DecidableEq, Repr

def perform (size : Nat) (b : BufferedInput) : Fetch → Option (Fetched × BufferedInput)
  | .read bytes => (read bytes b).map fun result => (.read result.1.1 result.1.2, result.2)
  | .readOrError bytes =>
    (readOrError bytes b).map fun result => (.filled result.1.1 result.1.2, result.2)
  | .discardOrError count =>
    (discardOrError size count b).map fun result => (.success result.1, result.2)
  | .eof => some (.success (eof b).1, (eof b).2)
  | .handleAnyError => some (.success (handleAnyError b).1, (handleAnyError b).2)

def performAll (size : Nat) (b : BufferedInput) : List Fetch → Option (List Fetched × BufferedInput)
  | [] => some ([], b)
  | fetch :: fetches => do
      let (answer, b) ← perform size b fetch
      let (answers, b) ← performAll size b fetches
      some (answer :: answers, b)

end BufferedInput

/-! ## The plain stream -/

open BufferedInput

/-- A stream without a buffer: the bytes still to come, and whether an error is pending. -/
structure PlainStream where
  bytes : List UInt8
  error : Bool
  deriving DecidableEq, Repr

namespace PlainStream

/-- How many of `count` bytes there are to read. -/
def available (p : PlainStream) (count : Nat) : Nat := if p.error then 0 else min count p.bytes.length

/-- The first bytes taken off. -/
def advance (p : PlainStream) (count : Nat) : PlainStream := { p with bytes := p.bytes.drop count }

def read (p : PlainStream) (bytes : List UInt8) : List UInt8 :=
  p.bytes.take (p.available bytes.length) ++ bytes.drop (p.available bytes.length)

/-- `count` bytes taken off, or what there is of them and an error. -/
def taken (p : PlainStream) (count : Nat) : PlainStream :=
  if p.available count < count then { p.advance (p.available count) with error := true }
  else p.advance (p.available count)

/-- What a call answers, and what it does. -/
def perform (p : PlainStream) : Fetch → Fetched × PlainStream
  | .read bytes =>
    (.read (p.read bytes) (p.available bytes.length), p.advance (p.available bytes.length))
  | .readOrError bytes =>
    (.filled (p.read bytes) (decide (bytes.length ≤ p.available bytes.length)),
      p.taken bytes.length)
  | .discardOrError count => (.success (decide (count ≤ p.available count)), p.taken count)
  | .eof => (.success p.bytes.isEmpty, p)
  | .handleAnyError => (.success p.error, { p with error := false })

def performAll (p : PlainStream) : List Fetch → List Fetched × PlainStream
  | [] => ([], p)
  | fetch :: fetches =>
    let (answer, p) := p.perform fetch
    let (answers, p) := p.performAll fetches
    (answer :: answers, p)

end PlainStream

/-! ## The refinement -/

namespace BufferedInput

/-- The buffered stream stands for the plain one. -/
structure Represents (size : Nat) (b : BufferedInput) (p : PlainStream) : Prop where
  wellFormed : WellFormed size b
  bytes : b.contents = p.bytes
  error : b.hasAnyError = p.error

variable {size : Nat} {b : BufferedInput} {p : PlainStream}

theorem represents_new (uninitialized : Nat → UInt8) (bytes : List UInt8) :
    Represents size (new size uninitialized bytes) { bytes := bytes, error := false } where
  wellFormed := ⟨by unfold new; rw [length_map, length_range], Nat.zero_le size⟩
  bytes := rfl
  error := rfl

section

variable (h : Represents size b p)

include h

theorem Represents.read (bytes : List UInt8) :
    ∃ b', BufferedInput.read bytes b = some ((p.read bytes, p.available bytes.length), b') ∧
      Represents size b' (p.advance (p.available bytes.length)) := by
  cases herror : p.error with
  | true =>
    have hpending : b.hasAnyError = true := h.error.trans herror
    have hnone : p.available bytes.length = 0 := if_pos herror
    have hunchanged : p.read bytes = bytes := by
      unfold PlainStream.read
      rw [hnone, take_zero, nil_append, drop_zero]
    rw [hnone, hunchanged]
    exact ⟨b, if_pos hpending, h⟩
  | false =>
    have hready : b.hasAnyError = false := h.error.trans herror
    have havailable : p.available bytes.length = min bytes.length p.bytes.length := by
      unfold PlainStream.available
      rw [herror, if_neg Bool.false_ne_true]
    obtain ⟨b', hread, hwf, hcontents, hrecoverable, hfatal⟩ :=
      read_spec h.wellFormed hready bytes
    rw [h.bytes, ← havailable] at hread
    rw [h.bytes] at hcontents
    have htake : p.bytes.take bytes.length = p.bytes.take (p.available bytes.length) := by
      rw [havailable, ← take_eq_take_min]
    have hdrop : p.bytes.drop bytes.length = p.bytes.drop (p.available bytes.length) := by
      rw [havailable]
      rcases Nat.le_total bytes.length p.bytes.length with hle | hle
      · rw [Nat.min_eq_left hle]
      · rw [Nat.min_eq_right hle, drop_length, drop_eq_nil_of_le hle]
    rw [htake] at hread
    refine ⟨b', hread, hwf, hcontents.trans hdrop, ?_⟩
    have hpending : b'.hasAnyError = b.hasAnyError := by
      unfold BufferedInput.hasAnyError Source.hasAnyError
      rw [hrecoverable, hfatal]
    exact hpending.trans h.error

theorem Represents.setFatalError : Represents size b.setFatalError { p with error := true } where
  wellFormed := ⟨h.wellFormed.length, h.wellFormed.buffered_le⟩
  bytes := h.bytes
  error := Bool.or_true _

theorem Represents.readOrError (bytes : List UInt8) : ∃ b', BufferedInput.readOrError bytes b =
        some ((p.read bytes, decide (bytes.length ≤ p.available bytes.length)), b') ∧
      Represents size b' (p.taken bytes.length) := by
  obtain ⟨b', hread, hnext⟩ := h.read bytes
  unfold BufferedInput.readOrError PlainStream.taken
  rw [hread, bind_eq_bind, bind_some]
  dsimp only
  split
  · next hlt =>
    rw [decide_eq_false (Nat.not_le.mpr hlt)]
    exact ⟨b'.setFatalError, rfl, hnext.setFatalError⟩
  · next hge =>
    rw [decide_eq_true (Nat.not_lt.mp hge)]
    exact ⟨b', rfl, hnext⟩

end

theorem available_of_error {count : Nat} (herror : p.error = true) : p.available count = 0 :=
  if_pos herror

theorem available_of_ready {count : Nat} (herror : p.error = false) :
    p.available count = min count p.bytes.length := by
  unfold PlainStream.available
  rw [herror, if_neg Bool.false_ne_true]

theorem taken_zero (p : PlainStream) : p.taken 0 = p := by
  have hzero : p.available 0 = 0 := by
    unfold PlainStream.available
    rw [Nat.zero_min, ite_self]
  unfold PlainStream.taken
  rw [hzero, if_neg (Nat.lt_irrefl 0)]
  rfl

/-- A turn that finds too little finds what there is. -/
theorem available_of_short {count left : Nat} (hle : count ≤ left)
    (hshort : p.available count < count) :
    p.available left = p.available count ∧ p.available left < left := by
  cases herror : p.error with
  | true =>
    rw [available_of_error herror] at hshort ⊢
    rw [available_of_error herror]
    omega
  | false =>
    rw [available_of_ready herror] at hshort ⊢
    rw [available_of_ready herror]
    omega

/-- A turn that finds enough leaves the rest to the turns after it. -/
theorem taken_of_full {count left : Nat} (hle : count ≤ left) (hpos : 0 < count)
    (hfull : ¬ p.available count < count) : p.available count = count ∧
      (p.advance count).available (left - count) + count = p.available left ∧
      (p.advance count).taken (left - count) = p.taken left := by
  cases herror : p.error with
  | true =>
    rw [available_of_error herror] at hfull
    exact absurd hpos hfull
  | false =>
    rw [available_of_ready herror] at hfull
    have herror' : (p.advance count).error = false := herror
    have hcount : p.available count = count := by
      rw [available_of_ready herror]
      omega
    have hsum : (p.advance count).available (left - count) + count = p.available left := by
      rw [available_of_ready herror, available_of_ready herror', PlainStream.advance, length_drop]
      omega
    have hadvance : (p.advance count).advance ((p.advance count).available (left - count)) =
        p.advance (p.available left) := by
      rw [← hsum]
      unfold PlainStream.advance
      rw [drop_drop, Nat.add_comm]
    refine ⟨hcount, hsum, ?_⟩
    unfold PlainStream.taken
    rw [hadvance]
    by_cases hshort : p.available left < left
    · rw [if_pos hshort, if_pos (by omega)]
    · rw [if_neg hshort, if_neg (by omega)]

theorem Represents.discardLoop (hsize : 0 < size) (count : Nat) (fuel : Nat) :
    ∀ {b : BufferedInput} {p : PlainStream} {ndiscarded : Nat}, Represents size b p →
      count - ndiscarded ≤ fuel →
      ∃ b', BufferedInput.discardLoop size count fuel ndiscarded b =
          some (decide (count - ndiscarded ≤ p.available (count - ndiscarded)), b') ∧
        Represents size b' (p.taken (count - ndiscarded)) := by
  induction fuel with
  | zero =>
    intro b p ndiscarded h hfuel
    have hnone : count - ndiscarded = 0 := by omega
    rw [BufferedInput.discardLoop, if_neg (by omega), hnone, taken_zero]
    exact ⟨b, rfl, h⟩
  | succ fuel ih =>
    intro b p ndiscarded h hfuel
    rw [BufferedInput.discardLoop]
    split
    · next hlt =>
      have hturn : 0 < min size (count - ndiscarded) := by omega
      have hle : min size (count - ndiscarded) ≤ count - ndiscarded := Nat.min_le_right _ _
      dsimp only
      generalize min size (count - ndiscarded) = turn at hturn hle ⊢
      obtain ⟨b', hread, hnext⟩ := h.readOrError (List.replicate turn 0)
      rw [length_replicate] at hread hnext
      rw [hread, bind_eq_bind, bind_some]
      by_cases hshort : p.available turn < turn
      · obtain ⟨heq, hless⟩ := available_of_short hle hshort
        unfold PlainStream.taken at hnext ⊢
        rw [if_pos hshort] at hnext
        rw [decide_eq_false (Nat.not_le.mpr hshort), if_neg Bool.false_ne_true,
          decide_eq_false (Nat.not_le.mpr hless), if_pos hless, heq]
        exact ⟨b', rfl, hnext⟩
      · obtain ⟨hfull, hsum, htaken⟩ := taken_of_full hle hturn hshort
        unfold PlainStream.taken at hnext
        rw [if_neg hshort, hfull] at hnext
        obtain ⟨b'', hloop, hrest⟩ := ih hnext (by omega : count - (ndiscarded + turn) ≤ fuel)
        have hleft : count - (ndiscarded + turn) = count - ndiscarded - turn := by omega
        rw [hleft] at hloop hrest
        rw [htaken] at hrest
        have hiff : decide (count - ndiscarded - turn ≤
            (p.advance turn).available (count - ndiscarded - turn)) =
            decide (count - ndiscarded ≤ p.available (count - ndiscarded)) :=
          decide_eq_decide.mpr (by omega)
        rw [hiff] at hloop
        rw [decide_eq_true (Nat.not_lt.mp hshort), if_pos rfl]
        exact ⟨b'', hloop, hrest⟩
    · next hge =>
      have hnone : count - ndiscarded = 0 := by omega
      rw [hnone, taken_zero]
      exact ⟨b, rfl, h⟩

theorem Represents.eof (hsize : 0 < size) (h : Represents size b p) :
    (BufferedInput.eof b).1 = p.bytes.isEmpty ∧ Represents size (BufferedInput.eof b).2 p := by
  have hbytes := h.bytes
  have hlength := h.wellFormed.length
  unfold BufferedInput.eof
  split
  · next hpos =>
    have hne : p.bytes.isEmpty = false := by
      rw [List.isEmpty_eq_false_iff, ← hbytes, ← length_pos_iff]
      unfold contents
      rw [length_append, h.wellFormed.length_take]
      omega
    rw [hne]
    exact ⟨rfl, h⟩
  · next hzero =>
    have hnone : b.buffered = 0 := by omega
    have hsource : b.stream.bytes = p.bytes := by
      rw [← hbytes]
      unfold contents
      rw [hnone, take_zero, nil_append]
    have hrefill := length_source_read b.buffer b.stream
    rw [hlength] at hrefill
    constructor
    · dsimp only
      unfold Source.read copyTrimmedTo
      rw [hlength, hsource]
      cases p.bytes with
      | nil => rw [length_nil, Nat.zero_min]; rfl
      | cons byte bytes =>
        have hsome : min (byte :: bytes).length size ≠ 0 := by
          rw [length_cons]
          omega
        exact beq_eq_false_iff_ne.mpr hsome
    · exact {
        wellFormed := ⟨hrefill.1, hrefill.2⟩
        bytes := (contents_read b.buffer b.stream).trans hsource
        error := h.error }

theorem Represents.handleAnyError (h : Represents size b p) :
    (BufferedInput.handleAnyError b).1 = p.error ∧
      Represents size (BufferedInput.handleAnyError b).2 { p with error := false } := by
  have hwf := h.wellFormed
  unfold BufferedInput.handleAnyError
  split
  · next hpending =>
    exact ⟨hpending.symm.trans h.error, ⟨hwf.length, hwf.buffered_le⟩, h.bytes, rfl⟩
  · next hready =>
    have hclear : b.hasAnyError = false := Bool.eq_false_iff.mpr hready
    exact ⟨hclear.symm.trans h.error, hwf, h.bytes, hclear⟩

/-- A call on the buffered stream answers as it does on the plain one. -/
theorem Represents.perform (hsize : 0 < size) (h : Represents size b p) (fetch : Fetch) :
    ∃ b', BufferedInput.perform size b fetch = some ((p.perform fetch).1, b') ∧
      Represents size b' (p.perform fetch).2 := by
  cases fetch with
  | read bytes =>
    obtain ⟨b', hread, hnext⟩ := h.read bytes
    refine ⟨b', ?_, hnext⟩
    rw [BufferedInput.perform, hread]
    rfl
  | readOrError bytes =>
    obtain ⟨b', hread, hnext⟩ := h.readOrError bytes
    refine ⟨b', ?_, hnext⟩
    rw [BufferedInput.perform, hread]
    rfl
  | discardOrError count =>
    obtain ⟨b', hdiscard, hnext⟩ :=
      h.discardLoop hsize count count (Nat.sub_le count 0)
    refine ⟨b', ?_, hnext⟩
    rw [BufferedInput.perform, BufferedInput.discardOrError, hdiscard]
    rfl
  | eof =>
    obtain ⟨hanswer, hnext⟩ := h.eof hsize
    refine ⟨_, ?_, hnext⟩
    rw [BufferedInput.perform, hanswer]
    rfl
  | handleAnyError =>
    obtain ⟨hanswer, hnext⟩ := h.handleAnyError
    refine ⟨_, ?_, hnext⟩
    rw [BufferedInput.perform, hanswer]
    rfl

theorem Represents.performAll (hsize : 0 < size) (fetches : List Fetch) :
    ∀ {b : BufferedInput} {p : PlainStream}, Represents size b p →
      ∃ b', BufferedInput.performAll size b fetches = some ((p.performAll fetches).1, b') ∧
        Represents size b' (p.performAll fetches).2 := by
  induction fetches with
  | nil =>
    intro b p h
    exact ⟨b, rfl, h⟩
  | cons fetch fetches ih =>
    intro b p h
    obtain ⟨b', hperform, hnext⟩ := h.perform hsize fetch
    obtain ⟨b'', hrest, hlast⟩ := ih hnext
    refine ⟨b'', ?_, hlast⟩
    rw [BufferedInput.performAll, hperform, bind_eq_bind, bind_some]
    dsimp only
    rw [hrest]
    rfl

end BufferedInput

/-! ## Writing -/

namespace BufferedOutput

/-- The bytes written so far: those that the sink has received and those in the buffer. -/
def written (b : BufferedOutput) : List UInt8 := b.stream.bytes ++ b.buffer.take b.buffered

/-- The buffer has its size and room, and no error is pending. -/
structure WellFormed (size : Nat) (b : BufferedOutput) : Prop where
  length : b.buffer.length = size
  buffered_lt : b.buffered < size
  ready : b.hasAnyError = false

variable {size : Nat} {b : BufferedOutput}

theorem wellFormed_new (hsize : 0 < size) (uninitialized : Nat → UInt8) :
    WellFormed size (new size uninitialized) where
  length := by unfold new; rw [length_map, length_range]
  buffered_lt := hsize
  ready := rfl

theorem written_flush (b : BufferedOutput) :
    b.flush.written = b.written ∧ b.flush.stream.bytes = b.written := by
  unfold flush written Sink.write
  rw [take_zero, append_nil]
  exact ⟨rfl, rfl⟩

theorem buffer_fill (h : WellFormed size b) {count : Nat}
    (hbytes : count ≤ bytes.length) (hroom : b.buffered + count ≤ size) :
    (b.buffer.take b.buffered ++
        (bytes.take count ++ (b.buffer.drop b.buffered).drop count)).length = size ∧
      (b.buffer.take b.buffered ++
        (bytes.take count ++ (b.buffer.drop b.buffered).drop count)).take (b.buffered + count) =
        b.buffer.take b.buffered ++ bytes.take count := by
  have hlength := h.length
  have hfront : (b.buffer.take b.buffered ++ bytes.take count).length = b.buffered + count := by
    simp only [length_append, List.length_take]
    omega
  rw [← List.append_assoc]
  constructor
  · simp only [length_append, hfront, length_drop]
    omega
  · rw [take_append_of_le_length (Nat.le_of_eq hfront.symm),
      take_of_length_le (Nat.le_of_eq hfront)]

theorem write_room (h : WellFormed size b) (fuel : Nat) (hroom : b.buffered + bytes.length < size) :
    ∃ b', write size fuel bytes b = some (bytes.length, b') ∧ WellFormed size b' ∧
      b'.written = b.written ++ bytes := by
  have hlength := h.length
  have hslice : slice b.buffer b.buffered = some (b.buffer.drop b.buffered) :=
    if_pos (by omega)
  have hmin : min bytes.length (b.buffer.drop b.buffered).length = bytes.length := by
    rw [length_drop]
    omega
  obtain ⟨hfilled, hfront⟩ := buffer_fill h (Nat.le_refl bytes.length) (Nat.le_of_lt hroom)
  rw [take_length] at hfilled hfront
  rw [write, h.ready, if_neg Bool.false_ne_true, hslice, bind_eq_bind, bind_some]
  unfold copyTrimmedTo
  dsimp only
  rw [hmin, take_length, if_neg (Nat.ne_of_lt hroom)]
  refine ⟨_, rfl, ⟨hfilled, hroom, h.ready⟩, ?_⟩
  unfold written
  rw [hfront, List.append_assoc]

theorem WellFormed.flush (hsize : 0 < size) (hlength : b.buffer.length = size)
    (hready : b.hasAnyError = false) : WellFormed size b.flush where
  length := hlength
  buffered_lt := hsize
  ready := hready

/-- What is left after the buffer has been filled goes past it, or to a write of its own. -/
theorem writeThrough_spec (h : WellFormed size b) {nwritten : Nat}
    (hempty : b.buffered = 0) (hle : nwritten ≤ bytes.length) :
    ∃ count b', writeThrough size bytes nwritten b = some (nwritten + count, b') ∧
      nwritten + count ≤ bytes.length ∧ WellFormed size b' ∧
      b'.written ++ bytes.drop (nwritten + count) = b.written ++ bytes.drop nwritten := by
  unfold writeThrough
  split
  · next hlarge =>
    have hslice : slice bytes nwritten = some (bytes.drop nwritten) := if_pos hle
    rw [hslice, bind_eq_bind, bind_some]
    refine ⟨(bytes.drop nwritten).length, _, rfl, ?_, ⟨h.length, h.buffered_lt, h.ready⟩, ?_⟩
    · rw [length_drop]
      omega
    · have hend : nwritten + (bytes.drop nwritten).length = bytes.length := by
        rw [length_drop]
        omega
      unfold written
      simp only [hend, drop_length, append_nil, hempty, take_zero]
  · exact ⟨0, b, rfl, hle, h, rfl⟩

theorem write_spec (hsize : 0 < size) (fuel : Nat) :
    ∀ {b : BufferedOutput} {bytes : List UInt8}, WellFormed size b → bytes.length ≤ fuel →
      ∃ b', write size fuel bytes b = some (bytes.length, b') ∧ WellFormed size b' ∧
        b'.written = b.written ++ bytes := by
  induction fuel with
  | zero =>
    intro b bytes h hfuel
    have hlt := h.buffered_lt
    exact write_room h 0 (by omega)
  | succ fuel ih =>
    intro b bytes h hfuel
    rcases Nat.lt_or_ge (b.buffered + bytes.length) size with hroom | hfull
    · exact write_room h (fuel + 1) hroom
    · have hlt := h.buffered_lt
      have hlength := h.length
      obtain ⟨room, hroom⟩ : ∃ room, b.buffered + room = size := ⟨size - b.buffered, by omega⟩
      have hle : room ≤ bytes.length := by omega
      have hslice : slice b.buffer b.buffered = some (b.buffer.drop b.buffered) :=
        if_pos (by omega)
      have hmin : min bytes.length (b.buffer.drop b.buffered).length = room := by
        rw [length_drop]
        omega
      obtain ⟨hfilled, hfront⟩ := buffer_fill h hle (Nat.le_of_eq hroom)
      rw [write, h.ready, if_neg Bool.false_ne_true, hslice, bind_eq_bind, bind_some]
      unfold copyTrimmedTo
      dsimp only
      rw [hmin, if_pos hroom]
      generalize hb : ({ b with
        buffer := b.buffer.take b.buffered ++
          (bytes.take room ++ (b.buffer.drop b.buffered).drop room)
        buffered := b.buffered + room } : BufferedOutput) = filled
      have hwritten : filled.written = b.written ++ bytes.take room := by
        rw [← hb]
        unfold written
        rw [hfront, List.append_assoc]
      have hflush : WellFormed size filled.flush := by
        rw [← hb]
        exact WellFormed.flush hsize hfilled h.ready
      have hempty : filled.flush.buffered = 0 := rfl
      obtain ⟨count, passed, hthrough, hpassed, hwf, hrest⟩ :=
        writeThrough_spec hflush hempty hle
      have hslice' : slice bytes (room + count) = some (bytes.drop (room + count)) :=
        if_pos hpassed
      have hleft : (bytes.drop (room + count)).length ≤ fuel := by
        rw [length_drop]
        omega
      obtain ⟨b', hwrite, hwf', hwritten'⟩ := ih hwf hleft
      rw [hthrough, bind_eq_bind, bind_some]
      rw [hslice', bind_some, hwrite, bind_some]
      refine ⟨b', ?_, hwf', ?_⟩
      · dsimp only
        rw [length_drop, Nat.add_sub_cancel' hpassed]
      · rw [hwritten', hrest, (written_flush filled).1, hwritten, List.append_assoc,
          take_append_drop]

/-- Every write in turn, with the numbers that they return. -/
def writeAll (size : Nat) (b : BufferedOutput) :
    List (List UInt8) → Option (List Nat × BufferedOutput)
  | [] => some ([], b)
  | bytes :: writes => do
      let (count, b) ← write size bytes.length bytes b
      let (counts, b) ← writeAll size b writes
      some (count :: counts, b)

theorem writeAll_spec (hsize : 0 < size) (writes : List (List UInt8)) :
    ∀ {b : BufferedOutput}, WellFormed size b →
      ∃ b', writeAll size b writes = some (writes.map List.length, b') ∧
        b'.written = b.written ++ writes.flatten := by
  induction writes with
  | nil =>
    intro b h
    exact ⟨b, rfl, (append_nil _).symm⟩
  | cons bytes writes ih =>
    intro b h
    obtain ⟨b', hwrite, hwf, hwritten⟩ := write_spec hsize bytes.length h (Nat.le_refl _)
    obtain ⟨b'', hrest, hlast⟩ := ih hwf
    refine ⟨b'', ?_, ?_⟩
    · rw [writeAll, hwrite, bind_eq_bind, bind_some]
      dsimp only
      rw [hrest]
      rfl
    · rw [hlast, hwritten, flatten_cons, List.append_assoc]

end BufferedOutput

/-! ## Both directions -/

/-- A buffered input stream answers every sequence of calls as the stream below it would, and
a buffered output stream hands on what was written to it, in order and to the last byte. -/
theorem buffered_transparent {size : Nat} (hsize : 0 < size) (uninitialized : Nat → UInt8) :
    (∀ (bytes : List UInt8) (fetches : List Fetch),
      ∃ b, BufferedInput.performAll size (BufferedInput.new size uninitialized bytes) fetches =
          some ((PlainStream.performAll { bytes := bytes, error := false } fetches).1, b) ∧
        b.contents = (PlainStream.performAll { bytes := bytes, error := false } fetches).2.bytes) ∧
      ∀ writes : List (List UInt8),
        ∃ b, BufferedOutput.writeAll size (BufferedOutput.new size uninitialized) writes =
            some (writes.map List.length, b) ∧ b.flush.stream.bytes = writes.flatten := by
  constructor
  · intro bytes fetches
    obtain ⟨b, hperform, h⟩ := (represents_new uninitialized bytes).performAll hsize fetches
    exact ⟨b, hperform, h.bytes⟩
  · intro writes
    obtain ⟨b, hwrite, hwritten⟩ :=
      BufferedOutput.writeAll_spec hsize writes (BufferedOutput.wellFormed_new hsize uninitialized)
    refine ⟨b, hwrite, ?_⟩
    rw [(BufferedOutput.written_flush b).2, hwritten]
    rfl

/-- A buffer of four bytes, read in pieces and with a discard, and written to past its end. -/
theorem buffered_transparent_four :
    (BufferedInput.performAll 4 (BufferedInput.new 4 (fun _ => 0) [1, 2, 3, 4, 5, 6, 7, 8, 9])
        [.read [0], .read [0, 0], .discardOrError 5, .readOrError [0, 0]]).map Prod.fst =
      some [.read [1] 1, .read [2, 3] 2, .success true, .filled [9, 0] false] ∧
      ((BufferedOutput.writeAll 4 (BufferedOutput.new 4 fun _ => 0)
        [[1, 2, 3], [4, 5, 6, 7, 8, 9, 10], [11]]).map fun result => result.2.flush.stream.bytes) =
        some [1, 2, 3, 4, 5, 6, 7, 8, 9, 10, 11] := by
  have hsize : 0 < 4 := by decide
  obtain ⟨hread, hwrite⟩ := buffered_transparent hsize fun _ => 0
  obtain ⟨b, hperform, -⟩ := hread [1, 2, 3, 4, 5, 6, 7, 8, 9]
    [.read [0], .read [0, 0], .discardOrError 5, .readOrError [0, 0]]
  obtain ⟨b', hwritten, hflush⟩ := hwrite [[1, 2, 3], [4, 5, 6, 7, 8, 9, 10], [11]]
  constructor
  · rw [hperform]
    rfl
  · rw [hwritten, map_some, hflush]
    rfl

end Literate.AK

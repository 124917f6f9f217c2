import Literate.AK.DuplexFifo

/-!
# AK: runs of the duplex memory stream

`ByteQueue` is what the stream is for: a queue of bytes with the two error flags.  Every
run of the stream succeeds, answers each call as the queue does, and the bytes that were
taken out are followed by the unread ones as they were written.
-/

namespace Literate.AK

open DuplexMemoryStream

/-! ## The abstract queue -/

/-- The bytes in the queue, and those that have been read or discarded, in order. -/
structure ByteQueue where
  queue : List UInt8
  taken : List UInt8
  recoverableError : Bool
  fatalError : Bool
  deriving DecidableEq, Repr

namespace ByteQueue

def empty : ByteQueue where
  queue := []
  taken := []
  recoverableError := false
  fatalError := false

def anyError (q : ByteQueue) : Bool := q.recoverableError || q.fatalError

/-- Take the first `n` bytes out. -/
def take (q : ByteQueue) (n : Nat) : ByteQueue :=
  { q with queue := q.queue.drop n, taken := q.taken ++ q.queue.take n }

def append (q : ByteQueue) (bytes : List UInt8) : ByteQueue := { q with queue := q.queue ++ bytes }

/-- What a call answers, and what it does. -/
def perform (q : ByteQueue) : Call → Answer × ByteQueue
  | .write bytes => (.count bytes.length, q.append bytes)
  | .writeOrError bytes => (.success true, q.append bytes)
  | .read bytes =>
    let n := if q.anyError then 0 else min bytes.length q.queue.length
    (.filled (q.queue.take n ++ bytes.drop n) n, q.take n)
  | .readOrError bytes =>
    if q.queue.length < bytes.length then
      (.filledOrNot bytes false, { q with recoverableError := true })
    else if q.anyError then (.filledOrNot bytes bytes.isEmpty, q)
    else (.filledOrNot (q.queue.take bytes.length) true, q.take bytes.length)
  | .discardOrError count =>
    if q.queue.length < count then (.success false, { q with recoverableError := true })
    else (.success true, q.take count)
  | .size => (.count q.queue.length, q)
  | .eof => (.success q.queue.isEmpty, q)
  | .setRecoverableError => (.done, { q with recoverableError := true })
  | .setFatalError => (.done, { q with fatalError := true })
  | .handleAnyError => (.success q.anyError, { q with recoverableError := false, fatalError := false })

/-- The answers to some calls, and the queue after them. -/
def performAll : ByteQueue → List Call → List Answer × ByteQueue
  | q, [] => ([], q)
  | q, call :: calls =>
    let (answer, q) := q.perform call
    let (answers, q) := performAll q calls
    (answer :: answers, q)

end ByteQueue

namespace DuplexMemoryStream

variable (uninitialized : Nat → UInt8)

/-- The answers to some calls, and the stream after them. -/
def performAll : DuplexMemoryStream → List Call → Option (List Answer × DuplexMemoryStream)
  | s, [] => some ([], s)
  | s, call :: calls => do
      let (answer, s) ← perform uninitialized s call
      let (answers, s) ← performAll s calls
      some (answer :: answers, s)

/-- The bytes that some calls write. -/
def written : List Call → List UInt8
  | [] => []
  | .write bytes :: calls | .writeOrError bytes :: calls => bytes ++ written calls
  | _ :: calls => written calls

end DuplexMemoryStream

/-! ## The refinement -/

/-- What is taken out of a queue and what is left in it is what was written. -/
theorem ByteQueue.conserved (calls : List Call) (q : ByteQueue) :
    (q.performAll calls).2.taken ++ (q.performAll calls).2.queue =
      q.taken ++ q.queue ++ written calls := by
  induction calls generalizing q with
  | nil => simp [ByteQueue.performAll, written]
  | cons call calls ih =>
    rw [ByteQueue.performAll]
    simp only [ih]
    have htake : ∀ n, (q.take n).taken ++ (q.take n).queue = q.taken ++ q.queue := by
      intro n
      rw [ByteQueue.take, List.append_assoc, List.take_append_drop]
    cases call with
    | write bytes => simp [ByteQueue.perform, ByteQueue.append, written]
    | writeOrError bytes => simp [ByteQueue.perform, ByteQueue.append, written]
    | read bytes => simp only [ByteQueue.perform, htake, written]
    | readOrError bytes =>
      simp only [ByteQueue.perform, written]
      split
      · rfl
      · split
        · rfl
        · rw [htake]
    | discardOrError count =>
      simp only [ByteQueue.perform, written]
      split
      · rfl
      · rw [htake]
    | size => rfl
    | eof => rfl
    | setRecoverableError => rfl
    | setFatalError => rfl
    | handleAnyError => rfl

namespace DuplexMemoryStream

variable (uninitialized : Nat → UInt8)

/-- The stream holds the bytes of the queue. -/
structure Represents (s : DuplexMemoryStream) (q : ByteQueue) : Prop where
  wellFormed : WellFormed s
  unread : s.unread = q.queue
  recoverableError : s.recoverableError = q.recoverableError
  fatalError : s.fatalError = q.fatalError

theorem represents_new : Represents new .empty := ⟨wellFormed_new, rfl, rfl, rfl⟩

namespace Represents

variable {s : DuplexMemoryStream} {q : ByteQueue}

section

variable (h : Represents s q)

include h

theorem size : s.size = q.queue.length := by
  rw [← h.unread, h.wellFormed.length_unread]

theorem anyError : s.hasAnyError = q.anyError := by
  rw [hasAnyError, ByteQueue.anyError, h.recoverableError, h.fatalError]

/-- Changing the error flags leaves the bytes alone. -/
theorem flags {s' : DuplexMemoryStream} {q' : ByteQueue}
    (hs : s' = { s with recoverableError := s'.recoverableError, fatalError := s'.fatalError })
    (hq : q' = { q with recoverableError := s'.recoverableError, fatalError := s'.fatalError }) :
    Represents s' q' := by
  rw [hs, hq]
  exact ⟨⟨h.wellFormed.window, h.wellFormed.base_le, h.wellFormed.read_le, h.wellFormed.read_lt⟩,
    h.unread, rfl, rfl⟩

theorem fail : Represents s.setRecoverableError { q with recoverableError := true } :=
  h.flags rfl (by rw [setRecoverableError, h.fatalError])

theorem write (bytes : List UInt8) :
    ∃ s', DuplexMemoryStream.write uninitialized bytes s = some (bytes.length, s') ∧
      Represents s' (q.append bytes) := by
  obtain ⟨s', hwrite, hwell, hunread, hrecoverable, hfatal⟩ :=
    h.wellFormed.write_spec uninitialized bytes
  exact ⟨s', hwrite, hwell, by rw [hunread, h.unread, ByteQueue.append],
    by rw [hrecoverable, h.recoverableError, ByteQueue.append],
    by rw [hfatal, h.fatalError, ByteQueue.append]⟩

theorem advance {count : Nat} (hcount : count ≤ q.queue.length) :
    ∃ s', tryDiscardChunks { s with readOffset := s.readOffset + count } = some s' ∧
      Represents s' (q.take count) := by
  obtain ⟨s', hadvance, hwell, hunread, hrecoverable, hfatal⟩ :=
    h.wellFormed.advance (h.size ▸ hcount)
  exact ⟨s', hadvance, hwell, by rw [hunread, h.unread, ByteQueue.take],
    by rw [hrecoverable, h.recoverableError, ByteQueue.take],
    by rw [hfatal, h.fatalError, ByteQueue.take]⟩

theorem read (herror : q.anyError = false) (bytes : List UInt8) :
    ∃ s', DuplexMemoryStream.read bytes s =
        some ((q.queue.take (min bytes.length q.queue.length) ++
            bytes.drop (min bytes.length q.queue.length), min bytes.length q.queue.length), s') ∧
      Represents s' (q.take (min bytes.length q.queue.length)) := by
  obtain ⟨s', hread, hwell, hunread, hrecoverable, hfatal⟩ :=
    h.wellFormed.read_spec (h.anyError.trans herror) bytes
  rw [h.size, filled, h.unread] at hread
  rw [h.size, h.unread] at hunread
  exact ⟨s', hread, hwell, by rw [hunread, ByteQueue.take],
    by rw [hrecoverable, h.recoverableError, ByteQueue.take],
    by rw [hfatal, h.fatalError, ByteQueue.take]⟩

theorem read_error (herror : q.anyError = true) (bytes : List UInt8) :
    DuplexMemoryStream.read bytes s = some ((bytes, 0), s) := by
  rw [DuplexMemoryStream.read, if_pos (h.anyError.trans herror)]

theorem performRead (bytes : List UInt8) :
    ∃ s', perform uninitialized s (.read bytes) = some ((q.perform (.read bytes)).1, s') ∧
      Represents s' (q.perform (.read bytes)).2 := by
  cases herror : q.anyError with
  | true =>
    refine ⟨s, ?_, ?_⟩
    · simp [perform, h.read_error herror, ByteQueue.perform, herror]
    · simpa [ByteQueue.perform, herror, ByteQueue.take] using h
  | false =>
    obtain ⟨s', hread, hrep⟩ := h.read herror bytes
    refine ⟨s', ?_, ?_⟩
    · simp [perform, hread, ByteQueue.perform, herror]
    · simpa [ByteQueue.perform, herror] using hrep

theorem performReadOrError (bytes : List UInt8) :
    ∃ s', perform uninitialized s (.readOrError bytes) =
        some ((q.perform (.readOrError bytes)).1, s') ∧
      Represents s' (q.perform (.readOrError bytes)).2 := by
  have hsize := h.size
  rw [DuplexMemoryStream.size] at hsize
  by_cases hshort : q.queue.length < bytes.length
  · refine ⟨s.setRecoverableError, ?_, ?_⟩
    · simp [perform, readOrError, hsize, hshort, ByteQueue.perform]
    · simpa [ByteQueue.perform, hshort] using h.fail
  · cases herror : q.anyError with
    | true =>
      refine ⟨s, ?_, ?_⟩
      · have hempty : (0 == bytes.length) = bytes.isEmpty := by cases bytes <;> rfl
        simp [perform, readOrError, hsize, hshort, ByteQueue.perform, herror,
          h.read_error herror, hempty]
      · simpa [ByteQueue.perform, hshort, herror] using h
    | false =>
      obtain ⟨s', hread, hrep⟩ := h.read herror bytes
      rw [Nat.min_eq_left (Nat.le_of_not_lt hshort)] at hread hrep
      refine ⟨s', ?_, ?_⟩
      · simp [perform, readOrError, hsize, hshort, ByteQueue.perform, herror, hread]
      · simpa [ByteQueue.perform, hshort, herror] using hrep

theorem performDiscardOrError (count : Nat) :
    ∃ s', perform uninitialized s (.discardOrError count) =
        some ((q.perform (.discardOrError count)).1, s') ∧
      Represents s' (q.perform (.discardOrError count)).2 := by
  have hsize := h.size
  rw [DuplexMemoryStream.size] at hsize
  by_cases hshort : q.queue.length < count
  · refine ⟨s.setRecoverableError, ?_, ?_⟩
    · simp [perform, discardOrError, hsize, hshort, ByteQueue.perform]
    · simpa [ByteQueue.perform, hshort] using h.fail
  · obtain ⟨s', hadvance, hrep⟩ := h.advance (Nat.le_of_not_lt hshort)
    refine ⟨s', ?_, ?_⟩
    · simp [perform, discardOrError, hsize, hshort, ByteQueue.perform, hadvance]
    · simpa [ByteQueue.perform, hshort] using hrep

theorem performHandleAnyError : ∃ s', perform uninitialized s .handleAnyError =
        some ((q.perform .handleAnyError).1, s') ∧
      Represents s' (q.perform .handleAnyError).2 := by
  refine ⟨{ s with recoverableError := false, fatalError := false }, ?_, h.flags rfl rfl⟩
  rw [perform, handleAnyError, h.anyError, ByteQueue.perform]
  cases herror : q.anyError with
  | true => rfl
  | false =>
    -- Nothing is pending: the flags are down already.
    have hflags := h.anyError.trans herror
    rw [hasAnyError, Bool.or_eq_false_iff] at hflags
    have hsame : { s with recoverableError := false, fatalError := false } = s := by
      cases s
      simp_all only
    rw [if_neg (by decide), hsame]

/-- Each call succeeds and answers as the queue does. -/
theorem perform (call : Call) :
    ∃ s', DuplexMemoryStream.perform uninitialized s call = some ((q.perform call).1, s') ∧
      Represents s' (q.perform call).2 := by
  cases call with
  | write bytes =>
    obtain ⟨s', hwrite, hrep⟩ := h.write uninitialized bytes
    exact ⟨s', by simp [DuplexMemoryStream.perform, hwrite, ByteQueue.perform], hrep⟩
  | writeOrError bytes =>
    obtain ⟨s', hwrite, hrep⟩ := h.write uninitialized bytes
    exact ⟨s', by simp [DuplexMemoryStream.perform, writeOrError, hwrite, ByteQueue.perform], hrep⟩
  | read bytes => exact h.performRead uninitialized bytes
  | readOrError bytes => exact h.performReadOrError uninitialized bytes
  | discardOrError count => exact h.performDiscardOrError uninitialized count
  | size => exact ⟨s, by rw [DuplexMemoryStream.perform, h.size, ByteQueue.perform], h⟩
  | eof =>
    exact ⟨s, by rw [DuplexMemoryStream.perform, h.wellFormed.eof_iff, h.unread,
      ByteQueue.perform], h⟩
  | setRecoverableError => exact ⟨_, rfl, h.fail⟩
  | setFatalError =>
    exact ⟨_, rfl, h.flags rfl (by
      rw [ByteQueue.perform, DuplexMemoryStream.setFatalError, h.recoverableError])⟩
  | handleAnyError => exact h.performHandleAnyError uninitialized

theorem performAll (calls : List Call) : ∃ s', DuplexMemoryStream.performAll uninitialized s calls =
        some ((q.performAll calls).1, s') ∧ Represents s' (q.performAll calls).2 := by
  induction calls generalizing s q with
  | nil => exact ⟨s, rfl, h⟩
  | cons call calls ih =>
    obtain ⟨s₁, hcall, h₁⟩ := h.perform uninitialized call
    obtain ⟨s₂, hcalls, h₂⟩ := ih h₁
    refine ⟨s₂, ?_, h₂⟩
    simp [DuplexMemoryStream.performAll, hcall, hcalls, ByteQueue.performAll]

end

end Represents

/-- Every run of a new stream is a run of the byte queue: it gives the same answers, and
what has been taken out, followed by what is unread, is what was written.  Asking for
more than there is fails and changes only the error flag. -/
theorem isByteQueue (uninitialized : Nat → UInt8) (calls : List Call) :
    ∃ s, performAll uninitialized new calls = some ((ByteQueue.empty.performAll calls).1, s) ∧
      s.unread = (ByteQueue.empty.performAll calls).2.queue ∧
      (ByteQueue.empty.performAll calls).2.taken ++ s.unread = written calls ∧
      s.size = s.unread.length ∧ s.eof = s.unread.isEmpty ∧
      (∀ count, s.size < count →
        discardOrError count s = some (false, { s with recoverableError := true })) ∧
      ∀ bytes : List UInt8, s.size < bytes.length →
        readOrError bytes s = some ((bytes, false), { s with recoverableError := true }) := by
  obtain ⟨s, hrun, hrep⟩ :=
    represents_new.performAll uninitialized calls
  refine ⟨s, hrun, hrep.unread, ?_, hrep.wellFormed.length_unread.symm, hrep.wellFormed.eof_iff,
    fun count hcount => if_pos hcount, fun bytes hbytes => if_pos hbytes⟩
  rw [hrep.unread, ByteQueue.conserved]
  rfl

end DuplexMemoryStream

end Literate.AK

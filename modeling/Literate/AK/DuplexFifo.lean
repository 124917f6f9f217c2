import Literate.Foundation.Chunks
import Literate.AK.DuplexMemoryStream

/-!
# AK: the duplex memory stream is a byte queue

The chunks are a window on the bytes written: they begin at the base offset, which the
read offset passes by less than a chunk, and end with the chunk that the write offset
lies in.  Every call keeps the window and answers as a queue of the unread bytes does.
-/

namespace Literate.AK.DuplexMemoryStream

open Foundation Span List Option

variable (uninitialized : Nat → UInt8)

/-! ## The window of chunks -/

/-- The chunks are those from `base` to the one that `write` lies in; there is none for
a `write` at a chunk's beginning. -/
structure Window (chunks : List (List UInt8)) (base write : Nat) : Prop where
  chunked : Chunked chunkSize chunks
  base_mod : base % chunkSize = 0
  base_le : base ≤ write
  covers : write ≤ base + chunks.length * chunkSize
  tight : base + chunks.length * chunkSize < write + chunkSize

/-- The bytes the window holds. -/
def contents (chunks : List (List UInt8)) (base write : Nat) : List UInt8 :=
  chunks.flatten.take (write - base)

variable {chunks : List (List UInt8)} {bytes : List UInt8} {n : Nat}

theorem Window.length_contents {base write : Nat} (h : Window chunks base write) :
    (contents chunks base write).length = write - base := by
  have := h.covers
  rw [contents, List.length_take, h.chunked.length_flatten]
  omega

/-- A window with room for a byte, in its last chunk at `start`. -/
structure Room (init : List (List UInt8)) (last : List UInt8) (base write start : Nat) : Prop where
  chunked : Chunked chunkSize (init ++ [last])
  base_mod : base % chunkSize = 0
  start_lt : start < chunkSize
  write_eq : write = base + init.length * chunkSize + start

@[simp] theorem length_newChunk (offset : Nat) :
    (newChunk uninitialized offset).length = chunkSize := by simp [newChunk]

/-- Before it copies, `write` has a chunk with room. -/
theorem Window.room {base write : Nat} (h : Window chunks base write) :
    ∃ init last, Room init last base write (write % chunkSize) ∧
      (if write % chunkSize = 0 then chunks ++ [newChunk uninitialized write] else chunks) =
        init ++ [last] ∧
      contents (init ++ [last]) base write = contents chunks base write := by
  obtain ⟨hchunked, hmod, hle, hcovers, htight⟩ := h
  by_cases hfull : write % chunkSize = 0
  · refine ⟨chunks, newChunk uninitialized write, ⟨?_, hmod, ?_, ?_⟩, if_pos hfull, ?_⟩
    · exact chunked_append.mpr ⟨hchunked, chunked_cons.mpr ⟨length_newChunk _ _, chunked_nil⟩⟩
    · exact Nat.mod_lt _ (by decide)
    · simp only [chunkSize] at *
      omega
    · rw [contents, flatten_append, take_append_of_le_length, contents]
      rw [hchunked.length_flatten]
      omega
  · have hne : chunks ≠ [] := by
      rintro rfl
      simp only [chunkSize, length_nil] at *
      omega
    obtain ⟨init, last, rfl⟩ := (eq_nil_or_concat' chunks).resolve_left hne
    refine ⟨init, last, ⟨hchunked, hmod, Nat.mod_lt _ (by decide), ?_⟩, if_neg hfull, rfl⟩
    simp only [chunkSize, length_append, length_singleton] at *
    omega

/-- What is copied into the room is appended to the contents. -/
theorem Room.fill {init : List (List UInt8)} {last source : List UInt8} {base write start : Nat}
    (h : Room init last base write start) (hpos : 0 < source.length)
    (hfits : start + source.length ≤ chunkSize) :
    Window (init ++ [last.take start ++ (source ++ last.drop (start + source.length))]) base
        (write + source.length) ∧
      contents (init ++ [last.take start ++ (source ++ last.drop (start + source.length))]) base
        (write + source.length) = contents (init ++ [last]) base write ++ source := by
  obtain ⟨hchunked, hmod, hstart, rfl⟩ := h
  obtain ⟨hinit, hlast⟩ := chunked_append.mp hchunked
  obtain ⟨hlength, -⟩ := chunked_cons.mp hlast
  constructor
  · refine ⟨chunked_append.mpr ⟨hinit, chunked_cons.mpr ⟨?_, chunked_nil⟩⟩, hmod, ?_, ?_, ?_⟩
    · simp only [length_append, List.length_take, length_drop, hlength]
      omega
    · omega
    all_goals
      simp only [length_append, length_singleton, Nat.succ_mul]
      omega
  · have hbefore : base + init.length * chunkSize + start - base =
        init.length * chunkSize + start := by omega
    have hafter : base + init.length * chunkSize + start + source.length - base =
        init.length * chunkSize + start + source.length := by omega
    simp only [contents, hbefore, hafter]
    exact hchunked.take_overwrite (Nat.le_of_lt hstart) source

/-! ## Writing -/

theorem copyTrimmedTo_eq (span other : List UInt8) : copyTrimmedTo span other =
      (span.take (min span.length other.length) ++ other.drop (min span.length other.length),
        min span.length other.length) := rfl

theorem slice_of_le {α : Type*} {span : List α} {start : Nat} (h : start ≤ span.length) :
    slice span start = some (span.drop start) := if_pos h

theorem writeStep_spec {base write nwritten : Nat}
    (h : Window chunks base (write + nwritten)) (hlt : nwritten < bytes.length) :
    ∃ chunks' count, 0 < count ∧ nwritten + count ≤ bytes.length ∧
      writeStep uninitialized bytes write chunks nwritten = some (chunks', nwritten + count) ∧
      Window chunks' base (write + (nwritten + count)) ∧
      contents chunks' base (write + (nwritten + count)) =
        contents chunks base (write + nwritten) ++ (bytes.drop nwritten).take count := by
  obtain ⟨init, last, hroom, hchunks, hcontents⟩ := h.room uninitialized
  have hlength : last.length = chunkSize :=
    hroom.chunked last (mem_append_right _ (mem_singleton_self last))
  have hstart := hroom.start_lt
  set start := (write + nwritten) % chunkSize with hstart_eq
  set count := min (bytes.drop nwritten).length (last.drop start).length with hcount
  have hsource : ((bytes.drop nwritten).take count).length = count := by
    rw [List.length_take]
    exact Nat.min_eq_left (Nat.min_le_left _ _)
  simp only [length_drop, hlength] at hcount
  have hpos : 0 < ((bytes.drop nwritten).take count).length := by omega
  have hfits : start + ((bytes.drop nwritten).take count).length ≤ chunkSize := by omega
  have hfill := hroom.fill hpos hfits
  rw [hsource, Nat.add_assoc write nwritten count] at hfill
  refine ⟨_, count, by omega, by omega, ?_, hfill.1, by rw [hfill.2, hcontents]⟩
  rw [writeStep, ← hstart_eq, hchunks]
  simp [slice_of_le (Nat.le_of_lt hlt), slice_of_le (hlength ▸ Nat.le_of_lt hstart),
    copyTrimmedTo_eq, hcount, hlength]

theorem writeLoop_spec {base write : Nat} (fuel : Nat) :
    ∀ {chunks : List (List UInt8)} {nwritten : Nat}, Window chunks base (write + nwritten) →
      nwritten ≤ bytes.length → bytes.length - nwritten ≤ fuel →
      ∃ chunks', writeLoop uninitialized bytes write fuel chunks nwritten =
          some (chunks', bytes.length) ∧
        Window chunks' base (write + bytes.length) ∧
        contents chunks' base (write + bytes.length) =
          contents chunks base (write + nwritten) ++ bytes.drop nwritten := by
  induction fuel with
  | zero =>
    intro chunks nwritten h hle hfuel
    have heq : nwritten = bytes.length := by omega
    subst heq
    exact ⟨chunks, by simp [writeLoop], h, by simp⟩
  | succ fuel ih =>
    intro chunks nwritten h hle hfuel
    by_cases hlt : nwritten < bytes.length
    · obtain ⟨chunks₁, count, hpos, hcount, hstep, hwindow, hcontents⟩ :=
        writeStep_spec uninitialized h hlt
      obtain ⟨chunks', hloop, hwindow', hcontents'⟩ := ih hwindow hcount (by omega)
      refine ⟨chunks', ?_, hwindow', ?_⟩
      · rw [writeLoop, if_pos (by omega)]
        simp only [hstep, bind_eq_bind, bind_some]
        exact hloop
      · rw [hcontents', hcontents, List.append_assoc, ← drop_drop, take_append_drop]
    · have heq : nwritten = bytes.length := by omega
      subst heq
      exact ⟨chunks, by simp [writeLoop], h, by simp⟩

/-! ## The stream -/

/-- The window of the stream, with the read offset in its first chunk. -/
structure WellFormed (s : DuplexMemoryStream) : Prop where
  window : Window s.chunks s.baseOffset s.writeOffset
  base_le : s.baseOffset ≤ s.readOffset
  read_le : s.readOffset ≤ s.writeOffset
  read_lt : s.readOffset < s.baseOffset + chunkSize

/-- The bytes that have been written and neither read nor discarded. -/
def unread (s : DuplexMemoryStream) : List UInt8 :=
  (contents s.chunks s.baseOffset s.writeOffset).drop (s.readOffset - s.baseOffset)

theorem wellFormed_new : WellFormed new where
  window := ⟨chunked_nil, rfl, Nat.le_refl _, Nat.le_refl _, by decide⟩
  base_le := Nat.le_refl _
  read_le := Nat.le_refl _
  read_lt := by decide

theorem WellFormed.length_unread {s : DuplexMemoryStream} (h : WellFormed s) :
    s.unread.length = s.size := by
  have := h.base_le
  have := h.read_le
  rw [unread, length_drop, h.window.length_contents, size]
  omega

theorem WellFormed.eof_iff {s : DuplexMemoryStream} (h : WellFormed s) :
    s.eof = s.unread.isEmpty := by
  have := h.read_le
  rw [eof, Bool.eq_iff_iff, beq_iff_eq, isEmpty_iff_length_eq_zero, h.length_unread, size]
  omega

/-- `write` appends to the unread bytes. -/
theorem WellFormed.write_spec {s : DuplexMemoryStream} (h : WellFormed s) (bytes : List UInt8) :
    ∃ s', write uninitialized bytes s = some (bytes.length, s') ∧ WellFormed s' ∧
      s'.unread = s.unread ++ bytes ∧ s'.recoverableError = s.recoverableError ∧
      s'.fatalError = s.fatalError := by
  obtain ⟨chunks', hloop, hwindow, hcontents⟩ := writeLoop_spec uninitialized bytes.length
    ((Nat.add_zero s.writeOffset).symm ▸ h.window) (Nat.zero_le _) (Nat.sub_le bytes.length 0)
  have hread := h.read_le
  refine ⟨{ s with chunks := chunks', writeOffset := s.writeOffset + bytes.length }, ?_,
    ⟨hwindow, h.base_le, by simp only; omega, h.read_lt⟩, ?_, rfl, rfl⟩
  · simp [write, hloop]
  · rw [unread, hcontents, Nat.add_zero, drop_zero, drop_append_of_le_length, unread]
    rw [h.window.length_contents]
    exact Nat.sub_le_sub_right hread _

/-! ## Freeing chunks -/

theorem discardChunks_spec {read write : Nat} :
    ∀ {base : Nat}, Window chunks base write → base ≤ read → read ≤ write →
      ∃ chunks' base', discardChunks read chunks base = some (chunks', base') ∧
        Window chunks' base' write ∧ base' ≤ read ∧ read < base' + chunkSize ∧
        (contents chunks' base' write).drop (read - base') =
          (contents chunks base write).drop (read - base) := by
  induction chunks with
  | nil =>
    intro base h hbase hread
    have hcovers := h.covers
    simp only [length_nil, Nat.zero_mul] at hcovers
    have hsize : 0 < chunkSize := by decide
    refine ⟨[], base, ?_, h, hbase, by omega, rfl⟩
    rw [discardChunks, if_neg (by omega)]
  | cons chunk chunks ih =>
    intro base h hbase hread
    rw [discardChunks]
    by_cases hpassed : chunkSize ≤ read - base
    · obtain ⟨hchunked, hmod, hle, hcovers, htight⟩ := h
      obtain ⟨hlength, hrest⟩ := chunked_cons.mp hchunked
      rw [length_cons, Nat.succ_mul] at hcovers htight
      have hsize : 0 < chunkSize := by decide
      have hwindow : Window chunks (base + chunkSize) write :=
        ⟨hrest, by rw [Nat.add_mod_right, hmod], by omega, by omega, by omega⟩
      obtain ⟨chunks', base', hloop, hwindow', hbase', hread', hunread⟩ :=
        ih hwindow (by omega) hread
      refine ⟨chunks', base', by rw [if_pos hpassed, hloop], hwindow', hbase', hread', ?_⟩
      have hskip : read - base = chunk.length + (read - (base + chunkSize)) := by omega
      have hleft : write - (base + chunkSize) - (read - (base + chunkSize)) =
          write - base - (chunk.length + (read - (base + chunkSize))) := by omega
      rw [hunread, contents, contents, flatten_cons, drop_take, drop_take, hskip,
        ← drop_drop, drop_left, hleft]
    · rw [if_neg hpassed]
      exact ⟨_, _, rfl, h, hbase, by omega, rfl⟩

/-- Moving the read offset and freeing the chunks it has passed. -/
theorem WellFormed.advance {s : DuplexMemoryStream} (h : WellFormed s) {count : Nat}
    (hcount : count ≤ s.size) :
    ∃ s', tryDiscardChunks { s with readOffset := s.readOffset + count } = some s' ∧
      WellFormed s' ∧ s'.unread = s.unread.drop count ∧
      s'.recoverableError = s.recoverableError ∧ s'.fatalError = s.fatalError := by
  have hbase := h.base_le
  have hread := h.read_le
  rw [size] at hcount
  have hle : s.baseOffset ≤ s.readOffset + count := by omega
  have hlt : s.readOffset + count ≤ s.writeOffset := by omega
  obtain ⟨chunks', base', hloop, hwindow, hbase', hread', hunread⟩ :=
    discardChunks_spec h.window hle hlt
  refine ⟨{ s with readOffset := s.readOffset + count, chunks := chunks', baseOffset := base' },
    ?_, ⟨hwindow, hbase', by simp only; omega, hread'⟩, ?_, rfl, rfl⟩
  · simp [tryDiscardChunks, hloop]
  · simp only [unread, hunread, drop_drop]
    congr 1
    omega

/-! ## Reading -/

/-- The bytes of a chunk from an unread offset on are the unread bytes up to its end. -/
theorem WellFormed.chunk_at {s : DuplexMemoryStream} (h : WellFormed s) {skip : Nat}
    (hskip : skip < s.size) :
    ∃ chunk, s.chunks[(s.readOffset - s.baseOffset + skip) / chunkSize]? = some chunk ∧
      (s.readOffset + skip) % chunkSize = (s.readOffset - s.baseOffset + skip) % chunkSize ∧
      chunk.length = chunkSize ∧
      (chunk.drop ((s.readOffset - s.baseOffset + skip) % chunkSize)).take (s.size - skip) =
        (s.unread.drop skip).take
          (chunkSize - (s.readOffset - s.baseOffset + skip) % chunkSize) := by
  have hbase := h.base_le
  have hread := h.read_le
  obtain ⟨hchunked, hmod, hle, hcovers, htight⟩ := h.window
  rw [size] at hskip
  have hindex : (s.readOffset - s.baseOffset + skip) / chunkSize < s.chunks.length := by
    rw [Nat.div_lt_iff_lt_mul (by decide)]
    omega
  obtain ⟨chunk, hchunk⟩ : ∃ chunk,
      s.chunks[(s.readOffset - s.baseOffset + skip) / chunkSize]? = some chunk :=
    ⟨_, List.getElem?_eq_getElem hindex⟩
  refine ⟨chunk, hchunk, ?_, hchunked chunk (mem_of_getElem? hchunk), ?_⟩
  · simp only [chunkSize] at *
    omega
  · simp only [hchunked.chunk_at hchunk, Nat.div_add_mod', unread, contents, drop_drop, drop_take,
      take_take, size, Nat.min_comm]
    congr 2
    omega

theorem WellFormed.readStep_spec {s : DuplexMemoryStream} (h : WellFormed s)
    {nread : Nat} (hsize : nread < s.size) (hlt : nread < bytes.length) :
    ∃ count, 0 < count ∧ nread + count ≤ s.size ∧ nread + count ≤ bytes.length ∧
      readStep s bytes nread =
        some (bytes.take nread ++ ((s.unread.drop nread).take count ++ bytes.drop (nread + count)),
          nread + count) := by
  obtain ⟨chunk, hchunk, hmod, hlength, htake⟩ := h.chunk_at hsize
  have hstart : (s.readOffset - s.baseOffset + nread) % chunkSize < chunkSize :=
    Nat.mod_lt _ (by decide)
  set start := (s.readOffset - s.baseOffset + nread) % chunkSize
  have hslice : slice chunk start = some (chunk.drop start) :=
    slice_of_le (hlength ▸ Nat.le_of_lt hstart)
  have htrim : trim (chunk.drop start) (s.writeOffset - s.readOffset - nread) =
      (s.unread.drop nread).take (chunkSize - start) := by
    rw [← htake, trim, Nat.min_comm, ← take_eq_take_min, size]
  have hpart : ((s.unread.drop nread).take (chunkSize - start)).length =
      min (chunkSize - start) (s.size - nread) := by
    rw [List.length_take, length_drop, h.length_unread]
  refine ⟨min (min (chunkSize - start) (s.size - nread)) (bytes.length - nread),
    by omega, by omega, by omega, ?_⟩
  simp only [readStep, hchunk, hmod, hslice, slice_of_le (Nat.le_of_lt hlt), bind_eq_bind,
    bind_some, copyTrimmedTo_eq, htrim, hpart, length_drop, drop_drop,
    take_take]
  rw [Nat.min_eq_left (Nat.le_trans (Nat.min_le_left _ _) (Nat.min_le_left _ _))]

/-- The buffer when the first `n` unread bytes have been copied to it. -/
def filled (s : DuplexMemoryStream) (bytes : List UInt8) (n : Nat) : List UInt8 :=
  s.unread.take n ++ bytes.drop n

variable {s : DuplexMemoryStream}

theorem WellFormed.length_filled (h : WellFormed s) (hsize : n ≤ s.size) (hle : n ≤ bytes.length) :
    (s.filled bytes n).length = bytes.length := by
  rw [filled, length_append, List.length_take, length_drop, h.length_unread]
  omega

theorem WellFormed.filled_add (h : WellFormed s) (hsize : n ≤ s.size) (count : Nat) :
    (s.filled bytes n).take n ++
        ((s.unread.drop n).take count ++ (s.filled bytes n).drop (n + count)) =
      s.filled bytes (n + count) := by
  have hlength : (s.unread.take n).length = n := by
    rw [List.length_take, h.length_unread, Nat.min_eq_left hsize]
  rw [filled, take_left' hlength, ← drop_drop, drop_left' hlength,
    ← List.append_assoc, ← take_add, drop_drop, filled]

theorem WellFormed.readLoop_spec (h : WellFormed s) (bytes : List UInt8) (fuel : Nat) :
    ∀ {nread : Nat}, nread ≤ s.size → nread ≤ bytes.length →
      bytes.length - nread ≤ fuel →
      readLoop s fuel (s.filled bytes nread) nread =
        some (s.filled bytes (min bytes.length s.size), min bytes.length s.size) := by
  induction fuel with
  | zero =>
    intro nread hsize hle hfuel
    have hdone : min bytes.length s.size = nread := by omega
    rw [readLoop, if_neg (by rw [h.length_filled hsize hle]; omega), hdone]
  | succ fuel ih =>
    intro nread hsize hle hfuel
    rw [readLoop, h.length_filled hsize hle]
    by_cases hmore : nread < bytes.length ∧ nread < s.size
    · obtain ⟨count, hpos, hcount, hcount', hstep⟩ :=
        h.readStep_spec hmore.2 (h.length_filled hsize hle ▸ hmore.1)
      rw [h.length_filled hsize hle] at hcount'
      rw [h.filled_add hsize] at hstep
      rw [if_pos (by rw [size] at hmore; omega)]
      simp only [hstep, bind_eq_bind, bind_some]
      exact ih hcount hcount' (by omega)
    · have hdone : min bytes.length s.size = nread := by omega
      rw [if_neg (by rw [size] at hmore; omega), hdone]

/-- `read` without an error takes as much as the buffer holds, or all there is. -/
theorem WellFormed.read_spec (h : WellFormed s)
    (herror : s.hasAnyError = false) (bytes : List UInt8) :
    ∃ s', read bytes s = some ((s.filled bytes (min bytes.length s.size),
        min bytes.length s.size), s') ∧ WellFormed s' ∧
      s'.unread = s.unread.drop (min bytes.length s.size) ∧
      s'.recoverableError = s.recoverableError ∧ s'.fatalError = s.fatalError := by
  have hloop := h.readLoop_spec bytes bytes.length (Nat.zero_le _) (Nat.zero_le _) (Nat.sub_le _ _)
  have hstart : s.filled bytes 0 = bytes := by simp [filled]
  rw [hstart] at hloop
  obtain ⟨s', hadvance, hkeeps⟩ := h.advance (Nat.min_le_right bytes.length s.size)
  refine ⟨s', ?_, hkeeps⟩
  rw [read, if_neg (by simp [herror])]
  simp [readWithoutConsuming, hloop, hadvance]

end Literate.AK.DuplexMemoryStream

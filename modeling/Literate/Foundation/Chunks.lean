import Mathlib.Data.List.Basic
import Mathlib.Data.List.TakeDrop

/-!
# Foundation: sequences cut into chunks of one size

A list of chunks that all have `size` elements is its concatenation with the cuts
forgotten.  The lemmas say where an element of the concatenation lies, and what
overwriting the end of the last chunk does to a prefix of the concatenation.
-/

namespace Literate.Foundation

open List

variable {α : Type*} {size : Nat} {chunks : List (List α)}

/-- All the chunks have `size` elements. -/
def Chunked (size : Nat) (chunks : List (List α)) : Prop := ∀ chunk ∈ chunks, chunk.length = size

@[simp] theorem chunked_nil : Chunked size ([] : List (List α)) := fun _ h => nomatch h

@[simp] theorem chunked_cons {chunk : List α} :
    Chunked size (chunk :: chunks) ↔ chunk.length = size ∧ Chunked size chunks :=
  forall_mem_cons

theorem chunked_append {chunks' : List (List α)} :
    Chunked size (chunks ++ chunks') ↔ Chunked size chunks ∧ Chunked size chunks' :=
  forall_mem_append

section

variable (h : Chunked size chunks)

include h

theorem Chunked.length_flatten : chunks.flatten.length = chunks.length * size := by
  induction chunks with
  | nil => simp
  | cons chunk chunks ih =>
    obtain ⟨hchunk, hchunks⟩ := chunked_cons.mp h
    rw [flatten_cons, length_append, hchunk, ih hchunks, length_cons,
      Nat.succ_mul, Nat.add_comm]

theorem Chunked.drop_flatten (k : Nat) :
    chunks.flatten.drop (k * size) = (chunks.drop k).flatten := by
  induction k generalizing chunks with
  | zero => simp
  | succ k ih =>
    cases chunks with
    | nil => simp
    | cons chunk chunks =>
      obtain ⟨hchunk, hchunks⟩ := chunked_cons.mp h
      rw [flatten_cons, Nat.succ_mul, Nat.add_comm, ← drop_drop, ← hchunk,
        drop_left, hchunk, ih hchunks, drop_succ_cons]

/-- A chunk is the part of the concatenation that begins at its index. -/
theorem Chunked.chunk_at {k : Nat} {chunk : List α} (hk : chunks[k]? = some chunk) (start : Nat) :
    chunk.drop start = (chunks.flatten.drop (k * size + start)).take (size - start) := by
  obtain ⟨hlt, rfl⟩ := List.getElem?_eq_some_iff.mp hk
  have hlength : (chunks[k]).length = size := h _ (getElem_mem hlt)
  rw [← drop_drop, h.drop_flatten, drop_eq_getElem_cons hlt, flatten_cons,
    drop_append, hlength, ← hlength, take_append_of_le_length (by simp),
    take_of_length_le (by simp)]

end

/-- Overwriting the last chunk from `start` on by something that fits. -/
theorem Chunked.take_overwrite {init : List (List α)} {last : List α}
    (h : Chunked size (init ++ [last])) {start : Nat} (hstart : start ≤ size) (source : List α) :
    ((init ++ [last.take start ++ (source ++ last.drop (start + source.length))]).flatten).take
        (init.length * size + start + source.length) =
      (init ++ [last]).flatten.take (init.length * size + start) ++ source := by
  obtain ⟨hinit, hlast⟩ := chunked_append.mp h
  obtain ⟨hlength, -⟩ := chunked_cons.mp hlast
  have hinitial : (last.take start).length = start := by
    rw [List.length_take, hlength, Nat.min_eq_left hstart]
  have hflat := hinit.length_flatten
  have hfront : (init ++ [last]).flatten.take (init.length * size + start) =
      init.flatten ++ last.take start := by
    rw [flatten_append, ← hflat, take_length_add_append]
    simp
  have hback : (init ++ [last.take start ++
      (source ++ last.drop (start + source.length))]).flatten =
      (init.flatten ++ last.take start ++ source) ++ last.drop (start + source.length) := by
    simp [List.append_assoc]
  rw [hfront, hback]
  refine take_left' ?_
  simp only [length_append, hflat, hinitial]

end Literate.Foundation

import Mathlib.Data.List.Basic
import Mathlib.Data.List.Range

/-!
# Foundation: bit sequences, least significant bit first

`slice x a n` are the `n` bits of `x` from position `a` on; `unpack` are the bits of a
list of bytes.  A list of bytes is determined by its bits, so a byte sequence *is* the
packing of a bit sequence when its bits are that sequence.
-/

namespace Literate.Foundation

open List

variable {w : Nat}

/-- The bits of `x` at the positions from `a` to `a + n - 1`. -/
def slice (x : BitVec w) (a n : Nat) : List Bool :=
  (List.range n).map fun i => x.getLsbD (a + i)

section

variable (x : BitVec w)

@[simp] theorem slice_zero (a : Nat) : slice x a 0 = [] := rfl

@[simp] theorem length_slice (a n : Nat) : (slice x a n).length = n := by
  simp [slice]

theorem slice_succ (a n : Nat) : slice x a (n + 1) = slice x a n ++ [x.getLsbD (a + n)] := by
  simp [slice, List.range_succ]

theorem slice_add (a m n : Nat) : slice x a (m + n) = slice x a m ++ slice x (a + m) n := by
  induction n with
  | zero => simp
  | succ n ih => rw [← Nat.add_assoc, slice_succ, ih, slice_succ, List.append_assoc, Nat.add_assoc]

theorem slice_cons (a n : Nat) : slice x a (n + 1) = x.getLsbD a :: slice x (a + 1) n := by
  rw [Nat.add_comm, slice_add]
  simp [slice]

end

variable {v a b n : Nat} {x : BitVec w}

theorem slice_congr {y : BitVec v} (h : ∀ i < n, x.getLsbD (a + i) = y.getLsbD (b + i)) :
    slice x a n = slice y b n :=
  map_congr_left fun i hi => h i (mem_range.mp hi)

theorem getLsbD_of_slice_eq {y : BitVec v} (h : slice x a n = slice y b n) {i : Nat} (hi : i < n) :
    x.getLsbD (a + i) = y.getLsbD (b + i) := by
  have hget := congrArg (fun l => l[i]?) h
  simpa [slice, hi] using hget

/-- All the bits of a word. -/
def bits (x : BitVec w) : List Bool := slice x 0 w

@[simp] theorem length_bits (x : BitVec w) : (bits x).length = w := length_slice x 0 w

theorem bits_injective {y : BitVec w} (h : bits x = bits y) : x = y := by
  refine BitVec.eq_of_getLsbD_eq fun i hi => ?_
  simpa using getLsbD_of_slice_eq h hi

/-- The bits of the bytes, in order. -/
def unpack (bytes : List (BitVec 8)) : List Bool := bytes.flatMap bits

@[simp] theorem unpack_nil : unpack [] = [] := rfl

@[simp] theorem unpack_cons (byte : BitVec 8) (bytes : List (BitVec 8)) :
    unpack (byte :: bytes) = bits byte ++ unpack bytes := rfl

@[simp] theorem unpack_append (bytes bytes' : List (BitVec 8)) :
    unpack (bytes ++ bytes') = unpack bytes ++ unpack bytes' := flatMap_append

@[simp] theorem length_unpack (bytes : List (BitVec 8)) :
    (unpack bytes).length = 8 * bytes.length := by
  induction bytes with
  | nil => rfl
  | cons byte bytes ih =>
    rw [unpack_cons, length_append, ih, length_bits, length_cons]
    omega

/-- Bytes, followed by less than a byte, are determined by their bits. -/
theorem unpack_injective {bytes bytes' : List (BitVec 8)} {rest rest' : List Bool}
    (hrest : rest.length < 8) (hrest' : rest'.length < 8)
    (h : unpack bytes ++ rest = unpack bytes' ++ rest') : bytes = bytes' ∧ rest = rest' := by
  have hlength : bytes.length = bytes'.length := by
    have hcount := congrArg List.length h
    simp only [length_append, length_unpack] at hcount
    omega
  induction bytes generalizing bytes' with
  | nil =>
    cases bytes' with
    | nil => exact ⟨rfl, h⟩
    | cons byte' bytes' => cases hlength
  | cons byte bytes ih =>
    cases bytes' with
    | nil => cases hlength
    | cons byte' bytes' =>
      simp only [unpack_cons, List.append_assoc] at h
      obtain ⟨hbits, htail⟩ := append_inj h (by simp)
      obtain ⟨hbytes, hrest⟩ := ih htail (by simpa using hlength)
      exact ⟨congrArg₂ List.cons (bits_injective hbits) hbytes, hrest⟩

/-- The first `n` bytes of a word, least significant byte first. -/
def littleEndian (n : Nat) (x : BitVec w) : List (BitVec 8) :=
  (List.range n).map fun i => (x >>> (8 * i)).setWidth 8

theorem unpack_littleEndian (n : Nat) (x : BitVec w) :
    unpack (littleEndian n x) = slice x 0 (8 * n) := by
  induction n with
  | zero => rfl
  | succ n ih =>
    have hlast : bits ((x >>> (8 * n)).setWidth 8) = slice x (8 * n) 8 := by
      refine slice_congr fun i hi => ?_
      simp [hi]
    have hsplit : littleEndian (n + 1) x =
        littleEndian n x ++ [(x >>> (8 * n)).setWidth 8] := by
      simp [littleEndian, List.range_succ]
    rw [hsplit, unpack_append, ih, unpack_cons, unpack_nil, append_nil, hlast,
      Nat.mul_succ, slice_add, Nat.zero_add]

end Literate.Foundation

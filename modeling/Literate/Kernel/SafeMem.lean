import Mathlib.Order.Lattice

/-!
# Kernel: copying and filling memory that may fault

`safe_memcpy` and `safe_memset` of `Kernel/Arch/x86/common/SafeMem.cpp` on x86_64, without
`fault_at`.  `validate_canonical_address` is taken to return the condition it computes, and the
first statement of `safe_memset` to write from `dest` on.
-/

namespace Literate.Kernel.SafeMem

open Nat

abbrev Memory := Nat → BitVec 8

/-- Bytes that are stored one after the other from an address on. -/
def store (m : Memory) (dest n : Nat) (bytes : Nat → BitVec 8) : Memory := fun address =>
  if dest ≤ address ∧ address < dest + n then bytes (address - dest) else m address

def byteOf (word : BitVec 64) (i : Nat) : BitVec 8 := word.extractLsb' (8 * i) 8

/-- A string instruction with `rep`: the memory behind it, and the count that is left when it
faults. -/
def rep (instruction : Nat → Memory → Option Memory) : Nat → Nat → Memory → Memory × Nat
  | 0, _, m => (m, 0)
  | left + 1, i, m =>
    match instruction i m with
    | none => (m, left + 1)
    | some m => rep instruction left (i + 1) m

variable (virtualAddressBitWidth : Nat) (faults : Nat → Bool)

def validateCanonicalAddress (address : Nat) : Bool :=
  let mostSignificantBits := virtualAddressBitWidth - 1
  let insignificantBits := address >>> mostSignificantBits
  insignificantBits = 0 || insignificantBits = 0xffffffffffffffff >>> mostSignificantBits

/-- One of the bytes cannot be accessed. -/
def blocked (address size : Nat) : Bool := (List.range size).any fun i => faults (address + i)

/-- `stos` with elements of `size` bytes. -/
def stos (size dest : Nat) (word : BitVec 64) (i : Nat) (m : Memory) : Option Memory :=
  if blocked faults (dest + i * size) size then none
  else some (store m (dest + i * size) size (byteOf word))

/-- `movs` with elements of `size` bytes. -/
def movs (size dest src i : Nat) (m : Memory) : Option Memory :=
  if blocked faults (src + i * size) size || blocked faults (dest + i * size) size then none
  else some (store m (dest + i * size) size fun j => m (src + i * size + j))

def safeMemcpy (dest src n : Nat) (m : Memory) : Bool × Memory :=
  if validateCanonicalAddress virtualAddressBitWidth dest = false then (false, m)
  else if validateCanonicalAddress virtualAddressBitWidth src = false then (false, m)
  else
    let bytes (dest src n : Nat) (m : Memory) : Bool × Memory :=
      let (m, remainder) := rep (movs faults 1 dest src) n 0 m
      (decide (remainder = 0), m)
    if dest % 4 = 0 ∧ src % 4 = 0 ∧ 12 ≤ n then
      let sizeTs := n / 8
      let (m, remainder) := rep (movs faults 8 dest src) sizeTs 0 m
      if remainder ≠ 0 then (false, m)
      else if n - sizeTs * 8 = 0 then (true, m)
      else bytes (dest + sizeTs * 8) (src + sizeTs * 8) (n - sizeTs * 8) m
    else bytes dest src n m

def expandedC (c : BitVec 32) : BitVec 64 :=
  let expandedC := (c.setWidth 8).setWidth 64
  let expandedC := expandedC ||| expandedC <<< 8
  expandedC ||| expandedC <<< 16

def safeMemset (dest : Nat) (c : BitVec 32) (n : Nat) (m : Memory) : Bool × Memory :=
  if validateCanonicalAddress virtualAddressBitWidth dest = false then (false, m)
  else
    let bytes (dest n : Nat) (m : Memory) : Bool × Memory :=
      let (m, remainder) := rep (stos faults 1 dest (c.setWidth 64)) n 0 m
      (decide (remainder = 0), m)
    if dest % 4 = 0 ∧ 12 ≤ n then
      let sizeTs := n / 8
      let (m, remainder) := rep (stos faults 8 dest (expandedC c)) sizeTs 0 m
      if remainder ≠ 0 then (false, m)
      else if n - sizeTs * 8 = 0 then (true, m)
      else bytes (dest + sizeTs * 8) (n - sizeTs * 8) m
    else bytes dest n m

variable {virtualAddressBitWidth faults}

/-! ## Stores -/

variable {dest n src : Nat}

theorem store_congr {bytes bytes' : Nat → BitVec 8} (m : Memory) (h : ∀ i < n, bytes i = bytes' i) :
    store m dest n bytes = store m dest n bytes' := by
  funext address
  unfold store
  split
  · exact h _ (by omega)
  · rfl

theorem store_store (m : Memory) (dest n k : Nat) (bytes : Nat → BitVec 8) :
    store (store m dest n bytes) (dest + n) k (fun i => bytes (n + i)) =
      store m dest (n + k) bytes := by
  funext address
  unfold store
  by_cases hbehind : dest + n ≤ address ∧ address < dest + n + k
  · rw [if_pos hbehind, if_pos (by omega)]
    exact congrArg bytes (by omega)
  · rw [if_neg hbehind]
    by_cases hfirst : dest ≤ address ∧ address < dest + n
    · rw [if_pos hfirst, if_pos (by omega)]
    · rw [if_neg hfirst, if_neg (by omega)]

theorem store_zero (m : Memory) (dest : Nat) (bytes : Nat → BitVec 8) :
    store m dest 0 bytes = m := by
  funext address
  unfold store
  rw [if_neg (by omega)]

/-- An instruction that stores its element of some bytes, repeated, stores all of them. -/
theorem rep_store {instruction : Nat → Memory → Option Memory} {m : Memory}
    {size count : Nat} {bytes : Nat → BitVec 8}
    (h : ∀ i < count, instruction i (store m dest (i * size) bytes) =
      some (store (store m dest (i * size) bytes) (dest + i * size) size
        fun j => bytes (i * size + j))) :
    rep instruction count 0 m = (store m dest (count * size) bytes, 0) := by
  have hfrom : ∀ left i, i + left = count → rep instruction left i (store m dest (i * size) bytes) =
      (store m dest (count * size) bytes, 0) := by
    intro left
    induction left with
    | zero =>
      intro i hi
      rw [rep, ← hi, Nat.add_zero]
    | succ left ih =>
      intro i hi
      rw [rep, h i (by omega), store_store, ← Nat.succ_mul]
      exact ih (i + 1) (by omega)
  have hall := hfrom count 0 (Nat.zero_add _)
  rwa [Nat.zero_mul, store_zero] at hall

/-- All of the bytes can be accessed. -/
def Clear (faults : Nat → Bool) (start n : Nat) : Prop :=
  ∀ address, start ≤ address → address < start + n → faults address = false

theorem not_blocked {start address size : Nat} (h : Clear faults start n)
    (hstart : start ≤ address) (hend : address + size ≤ start + n) :
    blocked faults address size = false := by
  unfold blocked
  rw [List.any_eq_false]
  intro i hi
  rw [List.mem_range] at hi
  rw [h (address + i) (by omega) (by omega)]
  exact Bool.false_ne_true

theorem rep_stos {size count : Nat} (hclear : Clear faults dest (count * size))
    (word : BitVec 64) (m : Memory) : rep (stos faults size dest word) count 0 m =
      (store m dest (count * size) fun i => byteOf word (i % size), 0) := by
  refine rep_store fun i hi => ?_
  have hle : (i + 1) * size ≤ count * size := Nat.mul_le_mul_right _ hi
  rw [Nat.succ_mul] at hle
  unfold stos
  rw [not_blocked hclear (by omega) (by omega), if_neg Bool.false_ne_true]
  congr 1
  refine store_congr _ fun j hj => ?_
  rw [Nat.mul_add_mod_self_right, mod_eq_of_lt hj]

theorem rep_movs {size count : Nat} (hdest : Clear faults dest (count * size))
    (hsrc : Clear faults src (count * size))
    (hapart : src + count * size ≤ dest ∨ dest + count * size ≤ src) (m : Memory) :
    rep (movs faults size dest src) count 0 m =
      (store m dest (count * size) fun i => m (src + i), 0) := by
  refine rep_store fun i hi => ?_
  have hle : (i + 1) * size ≤ count * size := Nat.mul_le_mul_right _ hi
  rw [Nat.succ_mul] at hle
  unfold movs
  rw [not_blocked hsrc (by omega) (by omega), not_blocked hdest (by omega) (by omega),
    Bool.or_false, if_neg Bool.false_ne_true]
  congr 1
  refine store_congr _ fun j hj => ?_
  unfold store
  rw [if_neg (by omega), Nat.add_assoc]

theorem Clear.part {start start' n' : Nat} (h : Clear faults start n) (hstart : start ≤ start')
    (hend : start' + n' ≤ start + n) : Clear faults start' n' :=
  fun address hle hlt => h address (Nat.le_trans hstart hle) (Nat.lt_of_lt_of_le hlt hend)

/-! ## The two functions -/

/-- Whichever part of it copies which of them, every byte arrives. -/
theorem safeMemcpy_eq (hcanonical : validateCanonicalAddress virtualAddressBitWidth dest = true)
    (hcanonical' : validateCanonicalAddress virtualAddressBitWidth src = true)
    (hdest : Clear faults dest n) (hsrc : Clear faults src n)
    (hapart : src + n ≤ dest ∨ dest + n ≤ src) (m : Memory) :
    safeMemcpy virtualAddressBitWidth faults dest src n m =
      (true, store m dest n fun i => m (src + i)) := by
  have hbytes : ∀ k, k ≤ n → rep (movs faults 1 (dest + k) (src + k)) (n - k) 0
      (store m dest k fun i => m (src + i)) = (store m dest n fun i => m (src + i), 0) := by
    intro k hk
    rw [rep_movs (hdest.part (by omega) (by omega)) (hsrc.part (by omega) (by omega)) (by omega),
      Nat.mul_one]
    have hsame : store (store m dest k fun i => m (src + i)) (dest + k) (n - k)
        (fun i => store m dest k (fun i => m (src + i)) (src + k + i)) =
        store (store m dest k fun i => m (src + i)) (dest + k) (n - k)
          (fun i => (fun i => m (src + i)) (k + i)) := by
      refine store_congr _ fun i hi => ?_
      unfold store
      rw [if_neg (by omega), Nat.add_assoc]
    rw [hsame, store_store, Nat.add_sub_cancel' hk]
  have hall := hbytes 0 (Nat.zero_le n)
  rw [store_zero, Nat.sub_zero, Nat.add_zero, Nat.add_zero] at hall
  unfold safeMemcpy
  rw [hcanonical, hcanonical', if_neg Bool.noConfusion, if_neg Bool.noConfusion]
  dsimp only
  split
  · have hle : n / 8 * 8 ≤ n := div_mul_le_self n 8
    rw [rep_movs (hdest.part (Nat.le_refl _) (by omega)) (hsrc.part (Nat.le_refl _) (by omega))
      (by omega), if_neg (not_not.mpr rfl)]
    split
    · next hnone => rw [show n / 8 * 8 = n by omega]
    · rw [hbytes _ hle]
      rfl
  · rw [hall]
    rfl

/-- What `safe_memset` stores. -/
def filled (c : BitVec 32) (dest n i : Nat) : BitVec 8 :=
  if (dest % 4 = 0 ∧ 12 ≤ n) ∧ i < n / 8 * 8 then byteOf (expandedC c) (i % 8)
  else byteOf (c.setWidth 64) 0

theorem safeMemset_eq (hcanonical : validateCanonicalAddress virtualAddressBitWidth dest = true)
    (hclear : Clear faults dest n) (c : BitVec 32) (m : Memory) :
    safeMemset virtualAddressBitWidth faults dest c n m =
      (true, store m dest n (filled c dest n)) := by
  have hbytes : ∀ dest n m, Clear faults dest n → rep (stos faults 1 dest (c.setWidth 64)) n 0 m =
      (store m dest n fun _ => byteOf (c.setWidth 64) 0, 0) := by
    intro dest n m hclear
    rw [rep_stos (by rwa [Nat.mul_one]), Nat.mul_one]
    refine congrArg (·, 0) (store_congr m fun i _ => ?_)
    rw [mod_one]
  unfold safeMemset
  rw [hcanonical, if_neg Bool.noConfusion]
  dsimp only
  split
  · next hfast =>
    have hle : n / 8 * 8 ≤ n := div_mul_le_self n 8
    have hwords : store m dest (n / 8 * 8) (fun i => byteOf (expandedC c) (i % 8)) =
        store m dest (n / 8 * 8) (filled c dest n) :=
      store_congr m fun i hi => (if_pos ⟨hfast, hi⟩).symm
    rw [rep_stos (hclear.part (Nat.le_refl _) (by omega)), if_neg (not_not.mpr rfl), hwords]
    split
    · rw [show n / 8 * 8 = n by omega]
    · have htail : store (store m dest (n / 8 * 8) (filled c dest n)) (dest + n / 8 * 8)
          (n - n / 8 * 8) (fun _ => byteOf (c.setWidth 64) 0) =
          store (store m dest (n / 8 * 8) (filled c dest n)) (dest + n / 8 * 8)
            (n - n / 8 * 8) (fun i => filled c dest n (n / 8 * 8 + i)) :=
        store_congr _ fun i _ => (if_neg fun h => by omega).symm
      rw [hbytes _ _ _ (hclear.part (by omega) (by omega)), htail, store_store,
        Nat.add_sub_cancel' hle]
      rfl
  · next hslow =>
    have htail : store m dest n (fun _ => byteOf (c.setWidth 64) 0) =
        store m dest n (filled c dest n) :=
      store_congr m fun i _ => (if_neg fun h => hslow h.1).symm
    rw [hbytes _ _ _ hclear, htail]
    rfl

theorem byteOf_setWidth (c : BitVec 32) : byteOf (c.setWidth 64) 0 = c.setWidth 8 := by
  apply BitVec.eq_of_getLsbD_eq
  intro i hi
  simp [byteOf, hi, show i < 64 by omega]

theorem byteOf_expandedC_four (c : BitVec 32) : byteOf (expandedC c) 4 = 0 := by
  apply BitVec.eq_of_getLsbD_eq
  intro i hi
  simp [byteOf, expandedC]
  omega

theorem expandedC_zero {c : BitVec 32} (h : c.setWidth 8 = 0) : expandedC c = 0 := by
  unfold expandedC
  rw [h]
  decide

end Literate.Kernel.SafeMem

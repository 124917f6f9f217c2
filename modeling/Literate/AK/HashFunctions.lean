import Mathlib.Tactic.NormNum.Prime
import Literate.Foundation.XorLinear

/-!
# AK: hash functions

`double_hash` of `AK/HashFunctions.h` is the step from one probe of a hash table to the next, and
`int_hash` and `pair_int_hash` make hashes of integers.  The step is a xorshift step into whose
one cycle zero is put, so that the probes of a table get everywhere.
-/

namespace Literate.AK

open Foundation Function

set_option maxRecDepth 8192

/-- The key in the place of zero. -/
def magic : Nat := 0xBA5EDB01

/-- The xorshift step of `double_hash`. -/
def xorShift (key : Nat) : Nat :=
  let key := key ^^^ ((key <<< 13) % 2 ^ 32)
  let key := key ^^^ (key >>> 17)
  key ^^^ ((key <<< 5) % 2 ^ 32)

/-- `double_hash`, where a `u32` is a number below `2 ^ 32`. -/
def doubleHash (key : Nat) : Nat :=
  if key = magic then 0 else xorShift (if key = 0 then magic else key)

def intHash (key : UInt32) : UInt32 :=
  let key := key + ~~~(key <<< 15)
  let key := key ^^^ (key >>> 10)
  let key := key + (key <<< 3)
  let key := key ^^^ (key >>> 6)
  let key := key + ~~~(key <<< 11)
  key ^^^ (key >>> 16)

def pairIntHash (key1 key2 : UInt32) : UInt32 :=
  intHash ((intHash key1 * 209) ^^^ intHash (key2 * 412))

/-! ## The xorshift step -/

theorem xorLinear_xorShift : XorLinear xorShift := by
  have hleft : ∀ i, XorLinear fun key => key ^^^ ((key <<< i) % 2 ^ 32) := fun i =>
    XorLinear.id.xor ((XorLinear.truncate 32).comp (XorLinear.shiftLeft i))
  have hright : XorLinear fun key => key ^^^ (key >>> 17) :=
    XorLinear.id.xor (XorLinear.shiftRight 17)
  exact (hleft 5).comp (hright.comp (hleft 13))

variable {key p x y : Nat}

theorem xorShift_lt (h : key < 2 ^ 32) : xorShift key < 2 ^ 32 := by
  have htruncated : ∀ x, x % 2 ^ 32 < 2 ^ 32 := fun x => Nat.mod_lt x (Nat.two_pow_pos 32)
  have hleft : key ^^^ ((key <<< 13) % 2 ^ 32) < 2 ^ 32 := Nat.xor_lt_two_pow h (htruncated _)
  have hright : ∀ x < 2 ^ 32, x ^^^ (x >>> 17) < 2 ^ 32 := fun x hx =>
    Nat.xor_lt_two_pow hx (Nat.lt_of_le_of_lt (Nat.shiftRight_le x 17) hx)
  exact Nat.xor_lt_two_pow (hright _ hleft) (htruncated _)

theorem modulus_xorShift : Modulus xorShift 32 0x1003EC241 :=
  { linear := xorLinear_xorShift
    lt := fun _ => xorShift_lt
    width_pos := by decide
    le_modulus := by decide
    modulus_lt := by decide
    vanishes := by decide }

theorem eq_of_prime_dvd (hp : p.Prime) (hdvd : p ∣ 2 ^ 32 - 1) :
    p = 3 ∨ p = 5 ∨ p = 17 ∨ p = 257 ∨ p = 65537 := by
  have hfactors : 2 ^ 32 - 1 = 3 * (5 * (17 * (257 * 65537))) := by decide
  have heq : ∀ q, q.Prime → p ∣ q → p = q := fun q hq h => (Nat.prime_dvd_prime_iff_eq hp hq).mp h
  simp only [hfactors, hp.dvd_mul] at hdvd
  exact hdvd.imp (heq 3 (by norm_num)) (Or.imp (heq 5 (by norm_num)) (Or.imp (heq 17 (by norm_num))
    (Or.imp (heq 257 (by norm_num)) (heq 65537 (by norm_num)))))

/-- For each prime factor of the order, the power of the step that is its difference. -/
theorem exists_powModulo (hp : p.Prime) (hdvd : p ∣ 2 ^ 32 - 1) :
    ∃ e < 2 ^ 32, powModulo 32 0x1003EC241 32 ((2 ^ 32 - 1) / p) ^^^ 1 =
      powModulo 32 0x1003EC241 32 e := by
  rcases eq_of_prime_dvd hp hdvd with rfl | rfl | rfl | rfl | rfl
  · exact ⟨2863311530, by decide⟩
  · exact ⟨1145324612, by decide⟩
  · exact ⟨3991793133, by decide⟩
  · exact ⟨2812716966, by decide⟩
  · exact ⟨3034363099, by decide⟩

theorem powModulo_order : powModulo 32 0x1003EC241 32 (2 ^ 32 - 1) = 1 := by
  decide

theorem exists_iterate_xorShift (hx : x < 2 ^ 32) (hx0 : x ≠ 0) (hy : y < 2 ^ 32) (hy0 : y ≠ 0) :
    ∃ k, xorShift^[k] x = y :=
  modulus_xorShift.exists_iterate powModulo_order (fun _ => exists_powModulo) hx hx0 hy hy0

/-! ## `double_hash` -/

theorem doubleHash_lt (h : key < 2 ^ 32) : doubleHash key < 2 ^ 32 := by
  rw [doubleHash]
  split_ifs
  · exact Nat.two_pow_pos 32
  · exact xorShift_lt (by decide)
  · exact xorShift_lt h

theorem doubleHash_magic : doubleHash magic = 0 := if_pos rfl

theorem doubleHash_zero : doubleHash 0 = xorShift magic := rfl

theorem doubleHash_of_ne (hmagic : key ≠ magic) (hzero : key ≠ 0) :
    doubleHash key = xorShift key := by
  rw [doubleHash, if_neg hmagic, if_neg hzero]

/-- The steps of `double_hash` get where the xorshift steps get, with one more step at zero. -/
theorem exists_iterate_of_xorShift (hx : x < 2 ^ 32) (hx0 : x ≠ 0) (n : Nat) :
    ∃ k, doubleHash^[k] x = xorShift^[n] x := by
  induction n with
  | zero => exact ⟨0, rfl⟩
  | succ n ih =>
    obtain ⟨k, hk⟩ := ih
    have hzero : xorShift^[n] x ≠ 0 := modulus_xorShift.iterate_ne_zero powModulo_order hx hx0 n
    rw [iterate_succ_apply']
    rcases Decidable.eq_or_ne (xorShift^[n] x) magic with hmagic | hmagic
    · refine ⟨k + 1 + 1, ?_⟩
      simp only [iterate_succ_apply', hk, hmagic, doubleHash_magic, doubleHash_zero]
    · refine ⟨k + 1, ?_⟩
      rw [iterate_succ_apply', hk, doubleHash_of_ne hmagic hzero]

/-- The probe sequence of every key gets to every key. -/
theorem exists_iterate_doubleHash (hx : x < 2 ^ 32) (hy : y < 2 ^ 32) :
    ∃ k < 2 ^ 32, doubleHash^[k] x = y := by
  have hmagic : magic < 2 ^ 32 ∧ magic ≠ 0 := by decide
  have hfrom : ∀ z < 2 ^ 32, z ≠ 0 → ∃ k, doubleHash^[k] z = y := by
    intro z hz hz0
    rcases Decidable.eq_or_ne y 0 with rfl | hy0
    · obtain ⟨n, hn⟩ := exists_iterate_xorShift hz hz0 hmagic.1 hmagic.2
      obtain ⟨k, hk⟩ := exists_iterate_of_xorShift hz hz0 n
      refine ⟨k + 1, ?_⟩
      rw [iterate_succ_apply', hk, hn, doubleHash_magic]
    · obtain ⟨n, hn⟩ := exists_iterate_xorShift hz hz0 hy hy0
      obtain ⟨k, hk⟩ := exists_iterate_of_xorShift hz hz0 n
      exact ⟨k, hk.trans hn⟩
  have hreached : ∃ k, doubleHash^[k] x = y := by
    rcases Decidable.eq_or_ne x 0 with rfl | hx0
    · obtain ⟨k, hk⟩ := hfrom (xorShift magic) (xorShift_lt hmagic.1)
        (modulus_xorShift.iterate_ne_zero powModulo_order hmagic.1 hmagic.2 1)
      refine ⟨k + 1, ?_⟩
      rw [iterate_succ_apply, doubleHash_zero, hk]
    · exact hfrom x hx hx0
  have hbelow : ∀ z ∈ Finset.range (2 ^ 32), doubleHash z ∈ Finset.range (2 ^ 32) := by
    intro z hz
    rw [Finset.mem_range] at hz ⊢
    exact doubleHash_lt hz
  obtain ⟨k, hk, heq⟩ := exists_iterate_lt_card hbelow (Finset.mem_range.mpr hx) hreached
  rw [Finset.card_range] at hk
  exact ⟨k, hk, heq⟩

end Literate.AK

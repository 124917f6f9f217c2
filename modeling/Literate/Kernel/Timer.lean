import Mathlib.Algebra.Group.Nat.Defs
import Mathlib.Order.Fin.Basic

/-!
# Kernel: the split counter

`Timer::microseconds_since_boot` of `Kernel/Arch/aarch64/RPi/Timer.cpp`.  The two registers are
the halves of a counter at the time that they are read.
-/

namespace Literate.Kernel.Timer

variable {τ : Type*} (counter : τ → BitVec 64) (time : Fin 5 → τ)

/-- `m_registers->counter_high`. -/
def counterHigh (t : τ) : BitVec 32 := (counter t).extractLsb' 32 32

/-- `m_registers->counter_low`. -/
def counterLow (t : τ) : BitVec 32 := (counter t).extractLsb' 0 32

/-- The value, and which read was the last one. -/
def microsecondsSinceBoot : BitVec 64 × Fin 5 :=
  let high := counterHigh counter (time 0)
  let low := counterLow counter (time 1)
  if high ≠ counterHigh counter (time 2) then
    let high := counterHigh counter (time 3)
    let low := counterLow counter (time 4)
    (high.setWidth 64 <<< 32 ||| low.setWidth 64, 4)
  else (high.setWidth 64 <<< 32 ||| low.setWidth 64, 2)

theorem toNat_counterHigh (t : τ) : (counterHigh counter t).toNat = (counter t).toNat / 2 ^ 32 := by
  rw [counterHigh, BitVec.extractLsb'_toNat, Nat.shiftRight_eq_div_pow]
  omega

theorem toNat_counterLow (t : τ) : (counterLow counter t).toNat = (counter t).toNat % 2 ^ 32 := by
  rw [counterLow, BitVec.extractLsb'_toNat, Nat.shiftRight_zero]

theorem toNat_join (high low : BitVec 32) :
    (high.setWidth 64 <<< 32 ||| low.setWidth 64).toNat = high.toNat * 2 ^ 32 + low.toNat := by
  have hlow := low.isLt
  rw [BitVec.toNat_or, BitVec.toNat_shiftLeft, BitVec.toNat_setWidth, BitVec.toNat_setWidth,
    Nat.mod_eq_of_lt (by omega), Nat.mod_eq_of_lt (by omega), Nat.shiftLeft_eq,
    Nat.mod_eq_of_lt (by omega), ← Nat.shiftLeft_eq, ← Nat.shiftLeft_add_eq_or_of_lt hlow]

/-- With at most one carry out of the low half, the value is one that the counter had at a read. -/
theorem microsecondsSinceBoot_between [Preorder τ] (hcounter : Monotone fun t => (counter t).toNat)
    (htime : Monotone time)
    (hadvance : (counter (time (microsecondsSinceBoot counter time).2)).toNat <
      (counter (time 0)).toNat + 2 ^ 32) :
    (counter (time 0)).toNat ≤ (microsecondsSinceBoot counter time).1.toNat ∧
      (microsecondsSinceBoot counter time).1.toNat ≤
        (counter (time (microsecondsSinceBoot counter time).2)).toNat := by
  have hmono : ∀ i j : Fin 5, i ≤ j → (counter (time i)).toNat ≤ (counter (time j)).toNat :=
    fun _ _ hij => hcounter (htime hij)
  have h01 := hmono 0 1 (by decide)
  have h12 := hmono 1 2 (by decide)
  have h23 := hmono 2 3 (by decide)
  have h34 := hmono 3 4 (by decide)
  by_cases hne : counterHigh counter (time 0) ≠ counterHigh counter (time 2)
  · have hvalue : microsecondsSinceBoot counter time =
        ((counterHigh counter (time 3)).setWidth 64 <<< 32 |||
          (counterLow counter (time 4)).setWidth 64, 4) := if_pos hne
    rw [hvalue] at hadvance ⊢
    rw [Ne, ← BitVec.toNat_inj, toNat_counterHigh, toNat_counterHigh] at hne
    rw [toNat_join, toNat_counterHigh, toNat_counterLow]
    dsimp only at hadvance ⊢
    omega
  · have hvalue : microsecondsSinceBoot counter time =
        ((counterHigh counter (time 0)).setWidth 64 <<< 32 |||
          (counterLow counter (time 1)).setWidth 64, 2) := if_neg hne
    rw [hvalue]
    rw [not_not, ← BitVec.toNat_inj, toNat_counterHigh, toNat_counterHigh] at hne
    rw [toNat_join, toNat_counterHigh, toNat_counterLow]
    dsimp only
    omega

/-- The low half runs over between the first two reads. -/
theorem microsecondsSinceBoot_between_carry : 2 ^ 32 - 1 ≤ (microsecondsSinceBoot
      (fun t : Fin 5 => BitVec.ofNat 64 (2 ^ 32 - 1 + t.val)) id).1.toNat :=
  Nat.le_trans (by decide)
    (@microsecondsSinceBoot_between _ (fun t : Fin 5 => BitVec.ofNat 64 (2 ^ 32 - 1 + t.val)) id _
      (by unfold Monotone; decide) monotone_id (by decide)).1

end Literate.Kernel.Timer

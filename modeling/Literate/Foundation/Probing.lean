import Mathlib.Data.List.Nodup
import Mathlib.Data.List.Perm.Subperm
import Mathlib.Data.List.Range
import Mathlib.Data.Nat.Find
import Mathlib.Logic.Function.Iterate

/-!
# Foundation: probe sequences

Open addressing with a step from hash to hash: the places that are probed for a hash are the
remainders of the hashes of its sequence.  An element is found when the places before its own
are all occupied, which stays so when more places are.
-/

namespace Literate.Foundation

open List

/-- The `k`-th place that is probed. -/
def place (step : Nat → Nat) (capacity hash k : Nat) : Nat := step^[k] hash % capacity

/-- A place is probed for a hash, and those before it are all occupied. -/
def Reaches (step : Nat → Nat) (capacity : Nat) (occupied : Nat → Prop) (hash i : Nat) : Prop :=
  ∃ k, place step capacity hash k = i ∧ ∀ j < k, occupied (place step capacity hash j)

/-- Every sequence goes through all hashes below `bound`. -/
structure Cyclic (step : Nat → Nat) (bound : Nat) : Prop where
  lt : ∀ hash < bound, step hash < bound
  reaches : ∀ hash < bound, ∀ i < bound, ∃ k < bound, step^[k] hash = i

variable {step : Nat → Nat} {capacity bound hash i : Nat} {occupied occupied' : Nat → Prop}

theorem place_succ (k : Nat) :
    place step capacity hash (k + 1) = place step capacity (step hash) k := by
  unfold place
  rw [Function.iterate_succ_apply]

theorem place_lt (hpos : 0 < capacity) (k : Nat) : place step capacity hash k < capacity :=
  Nat.mod_lt _ hpos

theorem Reaches.mono (h : Reaches step capacity occupied hash i)
    (hmono : ∀ j, occupied j → occupied' j) : Reaches step capacity occupied' hash i := by
  obtain ⟨k, hk, hbefore⟩ := h
  exact ⟨k, hk, fun j hj => hmono _ (hbefore j hj)⟩

theorem Cyclic.exists_place (h : Cyclic step bound) (hhash : hash < bound) (hi : i < capacity)
    (hbound : i < bound) : ∃ k < bound, place step capacity hash k = i := by
  obtain ⟨k, hk, heq⟩ := h.reaches hash hhash i hbound
  refine ⟨k, hk, ?_⟩
  rw [place, heq, Nat.mod_eq_of_lt hi]

/-- The first of the probed places with a property. -/
theorem exists_first {p : Nat → Prop} {k : Nat} (hp : p (place step capacity hash k)) :
    ∃ first ≤ k, p (place step capacity hash first) ∧
      ∀ j < first, ¬ p (place step capacity hash j) := by
  classical
  have hexists : ∃ k, p (place step capacity hash k) := ⟨k, hp⟩
  exact ⟨Nat.find hexists, Nat.find_min' hexists hp, Nat.find_spec hexists,
    fun j hj => Nat.find_min hexists hj⟩

/-- Fewer elements than places leave a place. -/
theorem exists_notMem_of_length_lt {l : List Nat} {n : Nat} (hlength : l.length < n) :
    ∃ i < n, i ∉ l := by
  by_contra hall
  have hsubset : List.range n ⊆ l := by
    intro i hi
    by_contra hmem
    exact hall ⟨i, mem_range.mp hi, hmem⟩
  have hle := subperm_of_subset nodup_range hsubset
  have hlength' := hle.length_le
  rw [length_range] at hlength'
  omega

end Literate.Foundation

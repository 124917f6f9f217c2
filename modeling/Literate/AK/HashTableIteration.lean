import Literate.AK.HashTableLinks

/-!
# AK: iteration over a hash table

An iterator of an unordered table goes through the used buckets from the first to the last one,
and an iterator of an ordered table follows the links.  Either of them visits each used bucket
once.
-/

namespace Literate.AK

open Foundation List

variable {α : Type}

/-- The buckets that are visited from an iterator on, until it is null. -/
def Iterates (t : HashTableType α) (table : HashTable α) : Option Nat → List Nat → Prop
  | it, [] => it = none
  | it, i :: visited => it = some i ∧
      ∃ it', HashTable.next t table.mBuckets table.mCapacity i = .ok it' ∧ Iterates t table it' visited

/-- The used ones of some buckets. -/
def usedBuckets (table : HashTable α) (i count : Nat) : List Nat :=
  (List.range' i count).filter fun j => (table.mBuckets j).state = .used

variable {t : HashTableType α} {table : HashTable α} {order deleted : List Nat} {values : List α}
  {i count : Nat}

theorem mem_usedBuckets {j : Nat} :
    j ∈ usedBuckets table i count ↔ (i ≤ j ∧ j < i + count) ∧ (table.mBuckets j).state = .used := by
  rw [usedBuckets, mem_filter, mem_range'_1, decide_eq_true_iff]

theorem usedBuckets_of_used (hused : (table.mBuckets i).state = .used) :
    usedBuckets table i (count + 1) = i :: usedBuckets table (i + 1) count := by
  rw [usedBuckets, range'_succ, filter_cons_of_pos (by rw [hused]; rfl), usedBuckets]

theorem usedBuckets_of_ne (hunused : (table.mBuckets i).state ≠ .used) :
    usedBuckets table i (count + 1) = usedBuckets table (i + 1) count := by
  rw [usedBuckets, range'_succ, filter_cons_of_neg (by rw [decide_eq_true_iff]; exact hunused),
    usedBuckets]

theorem skipToNext_spec (hend : i + count + 1 = table.mCapacity)
    (hsentinel : (table.mBuckets table.mCapacity).state = .endBucket)
    (hstates : ∀ j < table.mCapacity, (table.mBuckets j).state ≠ .endBucket) :
    HashTable.skipToNext table.mBuckets (count + 1) i =
      .ok (usedBuckets table (i + 1) count).head? := by
  induction count generalizing i with
  | zero =>
    rw [HashTable.skipToNext, show i + 1 = table.mCapacity from hend, hsentinel]
    rfl
  | succ count ih =>
    rw [HashTable.skipToNext]
    by_cases hused : (table.mBuckets (i + 1)).state = .used
    · rw [if_pos hused, usedBuckets_of_used hused]
      rfl
    · rw [if_neg hused, if_neg (hstates (i + 1) (by omega)), usedBuckets_of_ne hused]
      exact ih (by omega)

theorem iterates_usedBuckets (hordered : t.isOrdered = false) (hend : i + count = table.mCapacity)
    (hsentinel : (table.mBuckets table.mCapacity).state = .endBucket)
    (hstates : ∀ j < table.mCapacity, (table.mBuckets j).state ≠ .endBucket) :
    Iterates t table (usedBuckets table i count).head? (usedBuckets table i count) := by
  induction count generalizing i with
  | zero => rfl
  | succ count ih =>
    by_cases hused : (table.mBuckets i).state = .used
    · rw [usedBuckets_of_used hused]
      refine ⟨rfl, _, ?_, ih (by omega)⟩
      rw [HashTable.next, hordered, if_neg (by decide),
        show table.mCapacity - i = count + 1 by omega]
      exact skipToNext_spec (by omega) hsentinel hstates
    · rw [usedBuckets_of_ne hused]
      exact ih (by omega)

theorem iterates_linked (hordered : t.isOrdered = true) {it : Option Nat} {visited : List Nat}
    (h : Linked (nextOf table) it visited) : Iterates t table it visited := by
  induction visited generalizing it with
  | nil => exact h
  | cons i visited ih =>
    refine ⟨h.1, nextOf table i, ?_, ih h.2⟩
    rw [HashTable.next, if_pos hordered]
    rfl

section

variable (h : Filled t table order deleted values)

include h

theorem exists_values {visited : List Nat} (hvisited : ∀ i ∈ visited, i ∈ order) :
    ∃ read : List α, visited.map (fun i => (table.mBuckets i).slot) = read.map some := by
  induction visited with
  | nil => exact ⟨[], rfl⟩
  | cons i visited ih =>
    obtain ⟨read, hread⟩ := ih fun j hj => hvisited j (mem_cons_of_mem i hj)
    obtain ⟨value, -, hslot⟩ := h.exists_value (hvisited i mem_cons_self)
    exact ⟨value :: read, by simp only [map_cons, hslot, hread]⟩

theorem Filled.reorder {visited : List Nat} {read : List α} (hvisited : visited.Perm order)
    (hread : visited.map (fun i => (table.mBuckets i).slot) = read.map some) :
    Filled t table visited deleted read ∧ read.Perm values := by
  refine ⟨⟨hread, hvisited.nodup_iff.mpr h.nodup, fun i => ?_, h.deleted_nodup, h.deleted_iff,
    h.free, fun i hi => h.reached i (hvisited.mem_iff.mp hi), h.sentinel⟩, ?_⟩
  · rw [hvisited.mem_iff]
    exact h.used_iff i
  · have hperm := hvisited.map fun i => (table.mBuckets i).slot
    rw [hread, h.located] at hperm
    have hvalues := hperm.filterMap id
    rwa [filterMap_map, filterMap_map, Function.id_comp, filterMap_some,
      filterMap_some] at hvalues

theorem begin_iterates
    (hlinked : t.isOrdered = true → Linked (nextOf table) table.mHead order) :
    ∃ visited read, Iterates t table (HashTable.begin t table) visited ∧
      Filled t table visited deleted read ∧ visited.Perm order ∧ read.Perm values ∧
      (t.isOrdered = true → visited = order ∧ read = values) := by
  cases hordered : t.isOrdered with
  | true =>
    have hhead : HashTable.begin t table = table.mHead := if_pos hordered
    rw [hhead]
    exact ⟨order, values, iterates_linked hordered (hlinked hordered), h, List.Perm.refl order,
      List.Perm.refl values, fun _ => ⟨rfl, rfl⟩⟩
  | false =>
    have hmem : ∀ i, i ∈ usedBuckets table 0 table.mCapacity ↔ i ∈ order := by
      intro i
      rw [mem_usedBuckets, h.used_iff, Nat.zero_add]
      exact and_congr_left fun _ => and_iff_right (Nat.zero_le i)
    have hperm : (usedBuckets table 0 table.mCapacity).Perm order :=
      (perm_ext_iff_of_nodup ((nodup_range' ..).filter _) h.nodup).mpr hmem
    obtain ⟨read, hread⟩ := exists_values h fun i hi => (hmem i).mp hi
    obtain ⟨hfilled, hvalues⟩ := h.reorder hperm hread
    have hstates : ∀ j < table.mCapacity, (table.mBuckets j).state ≠ .endBucket := by
      intro j hj hstate
      rcases h.bucket_cases hj with hfree | hdeleted | ⟨hused, -⟩
      · exact BucketState.noConfusion (hfree.symm.trans hstate)
      · exact BucketState.noConfusion (hdeleted.symm.trans hstate)
      · exact BucketState.noConfusion (hused.symm.trans hstate)
    have hbegin : HashTable.begin t table = (usedBuckets table 0 table.mCapacity).head? := by
      rw [HashTable.begin, hordered, if_neg (by decide), usedBuckets, ← range_eq_range',
        ← List.head?_filter]
      refine congrArg List.head? (filter_congr fun j hj => ?_)
      rcases h.bucket_cases (mem_range.mp hj) with hfree | hdeleted | ⟨hused, -⟩
      · rw [hfree]; rfl
      · rw [hdeleted]; rfl
      · rw [hused]; rfl
    refine ⟨_, read, ?_, hfilled, hperm, hvalues, fun htrue => absurd htrue (by decide)⟩
    rw [hbegin]
    rcases Nat.eq_zero_or_pos table.mCapacity with hzero | hpos
    · rw [hzero]
      rfl
    · exact iterates_usedBuckets hordered (Nat.zero_add _) (h.sentinel hordered hpos) hstates

end

end Literate.AK

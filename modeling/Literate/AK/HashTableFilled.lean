import Literate.AK.HashTable
import Literate.Foundation.Probing

/-!
# AK: what the buckets of a hash table hold

`Filled t table order deleted values`: the used buckets are those of `order`, where the `values`
are stored, the deleted ones are those of `deleted`, and the places that are probed for a value
before its own are all taken.  A lookup then ends, at an element that it looks for or at a free
bucket.  Nothing is asked of the traits here.
-/

namespace Literate.AK

open Foundation List

variable {α : Type}

theorem cyclic_doubleHash : Cyclic doubleHash (2 ^ 32) :=
  ⟨fun _ => doubleHash_lt, fun _ hhash _ hi => exists_iterate_doubleHash hhash hi⟩

namespace HashTable

variable {table : HashTable α} {i j : Nat} {f : Bucket α → Bucket α}

theorem modify_self : (table.modify i f).mBuckets i = f (table.mBuckets i) :=
  Function.update_self ..

theorem modify_of_ne (h : j ≠ i) : (table.modify i f).mBuckets j = table.mBuckets j :=
  Function.update_of_ne h ..

end HashTable

/-- The contents of the buckets, whatever their links are. -/
structure Filled (t : HashTableType α) (table : HashTable α) (order deleted : List Nat)
    (values : List α) : Prop where
  located : order.map (fun i => (table.mBuckets i).slot) = values.map some
  nodup : order.Nodup
  used_iff : ∀ i, i ∈ order ↔ i < table.mCapacity ∧ (table.mBuckets i).state = .used
  deleted_nodup : deleted.Nodup
  deleted_iff : ∀ i, i ∈ deleted ↔ i < table.mCapacity ∧ (table.mBuckets i).state = .deleted
  free : ∀ i < table.mCapacity, (table.mBuckets i).state ≠ .used →
    (table.mBuckets i).state ≠ .deleted → (table.mBuckets i).state = .free
  reached : ∀ i ∈ order, ∀ value, (table.mBuckets i).slot = some value →
    Reaches doubleHash table.mCapacity (fun j => (table.mBuckets j).state ≠ .free)
      (t.hash value) i
  sentinel : t.isOrdered = false → 0 < table.mCapacity →
    (table.mBuckets table.mCapacity).state = .endBucket

/-- The states and the elements of all buckets but one are as before. -/
def ChangedAt (table table' : HashTable α) (i : Nat) : Prop :=
  table'.mCapacity = table.mCapacity ∧ ∀ j ≠ i,
    (table'.mBuckets j).state = (table.mBuckets j).state ∧
      (table'.mBuckets j).slot = (table.mBuckets j).slot

/-- The states and the elements of the buckets are as before. -/
def SameContents (table table' : HashTable α) : Prop :=
  table'.mCapacity = table.mCapacity ∧ ∀ j,
    (table'.mBuckets j).state = (table.mBuckets j).state ∧
      (table'.mBuckets j).slot = (table.mBuckets j).slot

namespace SameContents

variable {table table' table'' : HashTable α}

theorem refl : SameContents table table := ⟨rfl, fun _ => ⟨rfl, rfl⟩⟩

theorem trans (h : SameContents table table') (h' : SameContents table' table'') :
    SameContents table table'' :=
  ⟨h'.1.trans h.1, fun j => ⟨(h'.2 j).1.trans (h.2 j).1, (h'.2 j).2.trans (h.2 j).2⟩⟩

theorem modify {i : Nat} {f : Bucket α → Bucket α} (hstate : ∀ b, (f b).state = b.state)
    (hslot : ∀ b, (f b).slot = b.slot) : SameContents table (table.modify i f) := by
  refine ⟨rfl, fun j => ?_⟩
  rcases Decidable.eq_or_ne j i with rfl | hj
  · rw [HashTable.modify_self]
    exact ⟨hstate _, hslot _⟩
  · rw [HashTable.modify_of_ne hj]
    exact ⟨rfl, rfl⟩

end SameContents

namespace ChangedAt

variable {table table' table'' : HashTable α} {i : Nat}

theorem modify {f : Bucket α → Bucket α} : ChangedAt table (table.modify i f) i := by
  refine ⟨rfl, fun j hj => ?_⟩
  rw [HashTable.modify_of_ne hj]
  exact ⟨rfl, rfl⟩

theorem trans_same (h : ChangedAt table table' i) (h' : SameContents table' table'') :
    ChangedAt table table'' i :=
  ⟨h'.1.trans h.1, fun j hj => ⟨(h'.2 j).1.trans (h.2 j hj).1, (h'.2 j).2.trans (h.2 j hj).2⟩⟩

end ChangedAt

/-! ## What is in the buckets -/

namespace Filled

variable {t : HashTableType α} {table table' : HashTable α} {order deleted : List Nat}
  {values : List α} {i : Nat} {value : α}

section

variable (h : Filled t table order deleted values)

include h

theorem congr (hsame : SameContents table table') : Filled t table' order deleted values := by
  have hstate : ∀ i, (table'.mBuckets i).state = (table.mBuckets i).state := fun i => (hsame.2 i).1
  have hslot : ∀ i, (table'.mBuckets i).slot = (table.mBuckets i).slot := fun i => (hsame.2 i).2
  refine ⟨?_, h.nodup, ?_, h.deleted_nodup, ?_, ?_, ?_, ?_⟩
  · simp only [hslot]
    exact h.located
  · simp only [hstate, hsame.1]
    exact h.used_iff
  · simp only [hstate, hsame.1]
    exact h.deleted_iff
  · simp only [hstate, hsame.1]
    exact h.free
  · simp only [hstate, hslot, hsame.1]
    exact h.reached
  · simp only [hstate, hsame.1]
    exact h.sentinel

theorem used (hi : i ∈ order) : (table.mBuckets i).state = .used :=
  ((h.used_iff i).mp hi).2

theorem lt (hi : i ∈ order) : i < table.mCapacity :=
  ((h.used_iff i).mp hi).1

theorem length_eq : order.length = values.length := by
  have hlength := congrArg List.length h.located
  rwa [length_map, length_map] at hlength

/-- The lists around a used bucket and around its value. -/
theorem exists_split (hi : i ∈ order) :
    ∃ before after valuesBefore value valuesAfter, order = before ++ i :: after ∧
      values = valuesBefore ++ value :: valuesAfter ∧ before.length = valuesBefore.length ∧
      (table.mBuckets i).slot = some value := by
  obtain ⟨before, after, rfl⟩ := append_of_mem hi
  have hlocated := h.located.symm
  rw [map_append, map_eq_append_iff] at hlocated
  obtain ⟨valuesBefore, valuesFrom, rfl, hbefore, hfrom⟩ := hlocated
  rw [map_cons, map_eq_cons_iff] at hfrom
  obtain ⟨value, valuesAfter, rfl, hvalue, -⟩ := hfrom
  have hlength : valuesBefore.length = before.length := by
    have hlengths := congrArg List.length hbefore
    rwa [length_map, length_map] at hlengths
  exact ⟨before, after, valuesBefore, value, valuesAfter, rfl, rfl, hlength.symm, hvalue.symm⟩

theorem exists_value (hi : i ∈ order) : ∃ value ∈ values, (table.mBuckets i).slot = some value := by
  obtain ⟨_, _, valuesBefore, value, valuesAfter, -, rfl, -, hvalue⟩ := h.exists_split hi
  exact ⟨value, mem_append_right _ mem_cons_self, hvalue⟩

theorem exists_bucket (hvalue : value ∈ values) :
    ∃ i ∈ order, (table.mBuckets i).slot = some value := by
  have hmem : some value ∈ values.map some := List.mem_map_of_mem hvalue
  rw [← h.located, List.mem_map] at hmem
  exact hmem

theorem bucket_cases (hi : i < table.mCapacity) :
    (table.mBuckets i).state = .free ∨ (table.mBuckets i).state = .deleted ∨
      ((table.mBuckets i).state = .used ∧ ∃ value, (table.mBuckets i).slot = some value) := by
  rcases Decidable.eq_or_ne (table.mBuckets i).state .used with hused | hused
  · obtain ⟨value, -, hslot⟩ := h.exists_value ((h.used_iff i).mpr ⟨hi, hused⟩)
    exact .inr (.inr ⟨hused, value, hslot⟩)
  · rcases Decidable.eq_or_ne (table.mBuckets i).state .deleted with hdeleted | hdeleted
    · exact .inr (.inl hdeleted)
    · exact .inl (h.free i hi hused hdeleted)

/-- A bucket is free as long as there are fewer elements than hashes and than buckets. -/
theorem exists_free
    (hroom : order.length + deleted.length < min table.mCapacity (2 ^ 32)) :
    ∃ i < table.mCapacity, i < 2 ^ 32 ∧ (table.mBuckets i).state = .free := by
  rw [← length_append] at hroom
  obtain ⟨i, hi, hmem⟩ := exists_notMem_of_length_lt hroom
  rw [mem_append, not_or, h.used_iff, h.deleted_iff] at hmem
  have hcapacity := Nat.lt_of_lt_of_le hi (Nat.min_le_left _ _)
  exact ⟨i, hcapacity, Nat.lt_of_lt_of_le hi (Nat.min_le_right _ _),
    h.free i hcapacity (fun hstate => hmem.1 ⟨hcapacity, hstate⟩)
      (fun hstate => hmem.2 ⟨hcapacity, hstate⟩)⟩

end

end Filled

/-! ## Where a lookup ends -/

/-- A lookup ends at a free bucket and at an element that it looks for. -/
def Stops (table : HashTable α) (predicate : α → Bool) (i : Nat) : Prop :=
  (table.mBuckets i).state = .free ∨ ((table.mBuckets i).state = .used ∧
    ∃ other, (table.mBuckets i).slot = some other ∧ predicate other = true)

/-- The `k`-th place is the first one where a lookup ends. -/
structure FirstStop (table : HashTable α) (predicate : α → Bool) (hash k : Nat) : Prop where
  stops : Stops table predicate (place doubleHash table.mCapacity hash k)
  before : ∀ j < k, ¬ Stops table predicate (place doubleHash table.mCapacity hash j)

theorem FirstStop.tail {table : HashTable α} {predicate : α → Bool} {hash k : Nat}
    (h : FirstStop table predicate hash (k + 1)) :
    FirstStop table predicate (doubleHash hash) k := by
  refine ⟨?_, fun j hj => ?_⟩
  · rw [← place_succ]
    exact h.stops
  · rw [← place_succ]
    exact h.before (j + 1) (Nat.succ_lt_succ hj)

namespace Filled

variable {t : HashTableType α} {table : HashTable α} {order deleted : List Nat} {values : List α}
  {predicate : α → Bool} {hash k : Nat}

theorem exists_firstStop (h : Filled t table order deleted values)
    (hroom : order.length + deleted.length < min table.mCapacity (2 ^ 32)) (hhash : hash < 2 ^ 32)
    (predicate : α → Bool) : ∃ k < 2 ^ 32, FirstStop table predicate hash k := by
  obtain ⟨free, hfree, hbound, hstate⟩ := h.exists_free hroom
  obtain ⟨n, hn, hplace⟩ := cyclic_doubleHash.exists_place hhash hfree hbound
  have hstops : Stops table predicate (place doubleHash table.mCapacity hash n) := by
    rw [hplace]
    exact .inl hstate
  obtain ⟨k, hk, hstopsk, hbefore⟩ := exists_first hstops
  exact ⟨k, Nat.lt_of_le_of_lt hk hn, hstopsk, hbefore⟩

theorem taken_of_not_stops (h : Filled t table order deleted values) {i : Nat}
    (hi : i < table.mCapacity) (hstops : ¬ Stops table predicate i) :
    (table.mBuckets i).state = .deleted ∨ ((table.mBuckets i).state = .used ∧
      ∃ other, (table.mBuckets i).slot = some other ∧ predicate other = false) := by
  rcases h.bucket_cases hi with hfree | hdeleted | ⟨hused, other, hslot⟩
  · exact absurd (.inl hfree) hstops
  · exact .inl hdeleted
  · refine .inr ⟨hused, other, hslot, ?_⟩
    rw [← Bool.not_eq_true]
    exact fun hequals => hstops (.inr ⟨hused, other, hslot, hequals⟩)

theorem ne_free_of_not_stops {i : Nat} (hstops : ¬ Stops table predicate i) :
    (table.mBuckets i).state ≠ .free :=
  fun hfree => hstops (.inl hfree)

/-- A lookup that ends at a free bucket went past all elements with the hash. -/
theorem not_predicate_of_free (h : Filled t table order deleted values)
    (hfirst : FirstStop table predicate hash k)
    (hfree : (table.mBuckets (place doubleHash table.mCapacity hash k)).state = .free)
    {other : α} (hother : other ∈ values) (hhash : t.hash other = hash) :
    predicate other = false := by
  obtain ⟨i, hi, hslot⟩ := h.exists_bucket hother
  obtain ⟨n, hplace, hpath⟩ := h.reached i hi other hslot
  rw [hhash] at hplace hpath
  rw [← Bool.not_eq_true]
  intro hpredicate
  rcases Nat.lt_trichotomy n k with hlt | rfl | hgt
  · refine hfirst.before n hlt ?_
    rw [hplace]
    exact .inr ⟨h.used hi, other, hslot, hpredicate⟩
  · rw [hplace, h.used hi] at hfree
    exact BucketState.noConfusion hfree
  · exact hpath k hgt hfree

end Filled

/-! ## A lookup with a hash -/

namespace HashTable

variable {t : HashTableType α} {table : HashTable α} {order deleted : List Nat} {values : List α}
  {predicate : α → Bool} {fuel hash : Nat} {other : α}

section

variable (hpos : 0 < table.mCapacity)

include hpos

theorem lookupWithHashLoop_free
    (hfree : (table.mBuckets (hash % table.mCapacity)).state = .free) :
    table.lookupWithHashLoop predicate (fuel + 1) hash = .ok none := by
  rw [lookupWithHashLoop, if_neg (Nat.pos_iff_ne_zero.mp hpos)]
  dsimp only
  rw [hfree]
  rfl

theorem lookupWithHashLoop_deleted
    (hdeleted : (table.mBuckets (hash % table.mCapacity)).state = .deleted) :
    table.lookupWithHashLoop predicate (fuel + 1) hash =
      table.lookupWithHashLoop predicate fuel (doubleHash hash) := by
  rw [lookupWithHashLoop, if_neg (Nat.pos_iff_ne_zero.mp hpos)]
  dsimp only
  rw [hdeleted]
  rfl

theorem lookupWithHashLoop_used
    (hused : (table.mBuckets (hash % table.mCapacity)).state = .used)
    (hslot : (table.mBuckets (hash % table.mCapacity)).slot = some other) :
    table.lookupWithHashLoop predicate (fuel + 1) hash =
      if predicate other then .ok (some (hash % table.mCapacity))
      else table.lookupWithHashLoop predicate fuel (doubleHash hash) := by
  rw [lookupWithHashLoop, if_neg (Nat.pos_iff_ne_zero.mp hpos)]
  dsimp only
  rw [hused, hslot]
  rfl

end

theorem lookupWithHashLoop_spec {k : Nat} (h : Filled t table order deleted values)
    (hpos : 0 < table.mCapacity) (hfirst : FirstStop table predicate hash k) (hfuel : k < fuel) :
    table.lookupWithHashLoop predicate fuel hash =
      .ok (if (table.mBuckets (place doubleHash table.mCapacity hash k)).state = .free then none
        else some (place doubleHash table.mCapacity hash k)) := by
  induction k generalizing fuel hash with
  | zero =>
    obtain ⟨fuel, rfl⟩ : ∃ n, fuel = n + 1 := ⟨fuel - 1, by omega⟩
    cases hfirst.stops with
    | inl hfree =>
      rw [if_pos hfree]
      exact lookupWithHashLoop_free hpos hfree
    | inr hfound =>
      obtain ⟨hused, other, hslot, hpredicate⟩ := hfound
      rw [if_neg (by rw [hused]; exact BucketState.noConfusion)]
      exact (lookupWithHashLoop_used hpos hused hslot).trans (if_pos hpredicate)
  | succ k ih =>
    obtain ⟨fuel, rfl⟩ : ∃ n, fuel = n + 1 := ⟨fuel - 1, by omega⟩
    rw [place_succ, ← ih hfirst.tail (Nat.lt_of_succ_lt_succ hfuel)]
    rcases h.taken_of_not_stops (Nat.mod_lt hash hpos) (hfirst.before 0 (Nat.succ_pos k)) with
      hdeleted | ⟨hused, other, hslot, hpredicate⟩
    · exact lookupWithHashLoop_deleted hpos hdeleted
    · rw [lookupWithHashLoop_used hpos hused hslot, if_neg (by rw [hpredicate]; decide)]

theorem lookupWithHash_spec (h : Filled t table order deleted values)
    (hroom : order.length + deleted.length < min table.mCapacity (2 ^ 32))
    (hsize : order.length ≤ table.mSize) (hhash : hash < 2 ^ 32) (predicate : α → Bool) :
    (∃ i ∈ order, ∃ other, (table.mBuckets i).slot = some other ∧ predicate other = true ∧
        table.lookupWithHash hash predicate = .ok (some i)) ∨
      ((∀ other ∈ values, t.hash other = hash → predicate other = false) ∧
        table.lookupWithHash hash predicate = .ok none) := by
  unfold lookupWithHash
  by_cases hempty : table.mSize = 0
  · refine .inr ⟨fun other hother => ?_, if_pos hempty⟩
    have hlength := length_pos_of_mem hother
    rw [← h.length_eq] at hlength
    omega
  rw [if_neg hempty]
  have hpos : 0 < table.mCapacity := by omega
  obtain ⟨k, hk, hfirst⟩ := h.exists_firstStop hroom hhash predicate
  rw [lookupWithHashLoop_spec h hpos hfirst hk]
  cases hfirst.stops with
  | inl hfree =>
    refine .inr ⟨fun other hother => h.not_predicate_of_free hfirst hfree hother, ?_⟩
    rw [if_pos hfree]
  | inr hfound =>
    obtain ⟨hused, other, hslot, hpredicate⟩ := hfound
    refine .inl ⟨_, (h.used_iff _).mpr ⟨place_lt hpos k, hused⟩, other, hslot, hpredicate, ?_⟩
    rw [if_neg (by rw [hused]; exact BucketState.noConfusion)]

end HashTable

end Literate.AK

import Literate.AK.HashTableFilled
import Literate.Foundation.Contracts
import Literate.Foundation.Linked

/-!
# AK: changes of a hash table

Where a lookup for writing puts an element, and what the buckets hold when an element is put
there, replaced or deleted.  The links of an ordered table go through its used buckets, and a
new bucket is put at their end.
-/

namespace Literate.AK

open Foundation List Option

variable {α : Type}

/-! ## A lookup for writing -/

namespace HashTable

variable {t : HashTableType α} {table : HashTable α} {order deleted : List Nat} {values : List α}
  {value other : α} {fuel hash k i : Nat} {firstEmptyBucket : Option Nat}

section

variable (hpos : 0 < table.mCapacity)

include hpos

theorem lookupForWritingLoop_free
    (hfree : (table.mBuckets (hash % table.mCapacity)).state = .free) :
    table.lookupForWritingLoop t value (fuel + 1) hash firstEmptyBucket =
      .ok (firstEmptyBucket.getD (hash % table.mCapacity)) := by
  rw [lookupForWritingLoop, if_neg (Nat.pos_iff_ne_zero.mp hpos)]
  dsimp only
  rw [hfree]
  rfl

theorem lookupForWritingLoop_deleted
    (hdeleted : (table.mBuckets (hash % table.mCapacity)).state = .deleted) :
    table.lookupForWritingLoop t value (fuel + 1) hash firstEmptyBucket =
      table.lookupForWritingLoop t value fuel (doubleHash hash)
        (some (firstEmptyBucket.getD (hash % table.mCapacity))) := by
  rw [lookupForWritingLoop, if_neg (Nat.pos_iff_ne_zero.mp hpos)]
  dsimp only
  rw [hdeleted]
  rfl

theorem lookupForWritingLoop_used
    (hused : (table.mBuckets (hash % table.mCapacity)).state = .used)
    (hslot : (table.mBuckets (hash % table.mCapacity)).slot = some other) :
    table.lookupForWritingLoop t value (fuel + 1) hash firstEmptyBucket =
      if t.equals other value then .ok (hash % table.mCapacity)
      else table.lookupForWritingLoop t value fuel (doubleHash hash) firstEmptyBucket := by
  rw [lookupForWritingLoop, if_neg (Nat.pos_iff_ne_zero.mp hpos)]
  dsimp only
  rw [hused, hslot]
  rfl

end

/-- The result of a lookup that ends at the `k`-th place: the place, when it is used, and else
the first place on the way that is not. -/
def LookupResult (table : HashTable α) (hash k : Nat) (firstEmptyBucket : Option Nat) (i : Nat) :
    Prop :=
  ((table.mBuckets (place doubleHash table.mCapacity hash k)).state = .used ∧
      i = place doubleHash table.mCapacity hash k) ∨
    ((table.mBuckets (place doubleHash table.mCapacity hash k)).state = .free ∧
      (firstEmptyBucket = some i ∨
        (firstEmptyBucket = none ∧ ∃ m ≤ k, i = place doubleHash table.mCapacity hash m ∧
          (table.mBuckets i).state ≠ .used ∧
          ∀ j < m, (table.mBuckets (place doubleHash table.mCapacity hash j)).state = .used)))

theorem LookupResult.pass (hused : (table.mBuckets (hash % table.mCapacity)).state = .used)
    (h : LookupResult table (doubleHash hash) k firstEmptyBucket i) :
    LookupResult table hash (k + 1) firstEmptyBucket i := by
  unfold LookupResult at *
  rw [place_succ]
  refine h.imp_right fun ⟨hfree, h⟩ => ⟨hfree, h.imp_right fun ⟨hnone, m, hm, hi, hunused, hbefore⟩ => ?_⟩
  refine ⟨hnone, m + 1, Nat.succ_le_succ hm, by rw [place_succ]; exact hi, hunused, fun j hj => ?_⟩
  cases j with
  | zero => exact hused
  | succ j =>
    rw [place_succ]
    exact hbefore j (Nat.lt_of_succ_lt_succ hj)

/-- The first deleted place on the way is remembered. -/
theorem LookupResult.remember
    (hdeleted : (table.mBuckets (hash % table.mCapacity)).state = .deleted)
    (h : LookupResult table (doubleHash hash) k
      (some (firstEmptyBucket.getD (hash % table.mCapacity))) i) :
    LookupResult table hash (k + 1) firstEmptyBucket i := by
  unfold LookupResult at *
  rw [place_succ]
  refine h.imp_right fun ⟨hfree, h⟩ => ⟨hfree, ?_⟩
  rcases h with h | ⟨hnone, -⟩
  · rw [some.injEq] at h
    cases firstEmptyBucket with
    | some empty => exact .inl (congrArg some h)
    | none =>
      rw [getD_none] at h
      refine .inr ⟨rfl, 0, Nat.zero_le _, h.symm, ?_, fun j hj => absurd hj (Nat.not_lt_zero j)⟩
      rw [← h, hdeleted]
      exact BucketState.noConfusion
  · exact absurd hnone (some_ne_none _)

theorem lookupForWritingLoop_spec (h : Filled t table order deleted values)
    (hpos : 0 < table.mCapacity)
    (hfirst : FirstStop table (fun other => t.equals other value) hash k) (hfuel : k < fuel) :
    ∃ i, table.lookupForWritingLoop t value fuel hash firstEmptyBucket = .ok i ∧
      LookupResult table hash k firstEmptyBucket i := by
  induction k generalizing fuel hash firstEmptyBucket with
  | zero =>
    obtain ⟨fuel, rfl⟩ : ∃ n, fuel = n + 1 := ⟨fuel - 1, by omega⟩
    cases hfirst.stops with
    | inl hfree =>
      refine ⟨_, lookupForWritingLoop_free hpos hfree, .inr ⟨hfree, ?_⟩⟩
      cases firstEmptyBucket with
      | some empty => exact .inl rfl
      | none =>
        refine .inr ⟨rfl, 0, Nat.le_refl 0, rfl, ?_, fun j hj => absurd hj (Nat.not_lt_zero j)⟩
        rw [getD_none]
        exact fun hused => BucketState.noConfusion (hfree.symm.trans hused)
    | inr hfound =>
      obtain ⟨hused, other, hslot, hequals⟩ := hfound
      exact ⟨_, (lookupForWritingLoop_used hpos hused hslot).trans (if_pos hequals),
        .inl ⟨hused, rfl⟩⟩
  | succ k ih =>
    obtain ⟨fuel, rfl⟩ : ∃ n, fuel = n + 1 := ⟨fuel - 1, by omega⟩
    have hlt : k < fuel := Nat.lt_of_succ_lt_succ hfuel
    rcases h.taken_of_not_stops (Nat.mod_lt hash hpos) (hfirst.before 0 (Nat.succ_pos k)) with
      hdeleted | ⟨hused, other, hslot, hequals⟩
    · rw [lookupForWritingLoop_deleted hpos hdeleted]
      obtain ⟨i, hi, hresult⟩ := ih hfirst.tail hlt
      exact ⟨i, hi, hresult.remember hdeleted⟩
    · rw [lookupForWritingLoop_used hpos hused hslot, if_neg (by rw [hequals]; decide)]
      obtain ⟨i, hi, hresult⟩ := ih hfirst.tail hlt
      exact ⟨i, hi, hresult.pass hused⟩

/-- A bucket for a value: that of an equal element, or one that is not used, when no element
with the same hash is equal. -/
structure BucketFor (t : HashTableType α) (table : HashTable α) (order : List Nat)
    (values : List α) (value : α) (i : Nat) : Prop where
  lt : i < table.mCapacity
  reaches : Reaches doubleHash table.mCapacity (fun j => (table.mBuckets j).state ≠ .free)
    (t.hash value) i
  equal_of_mem : i ∈ order →
    ∃ other, (table.mBuckets i).slot = some other ∧ t.equals other value = true
  new_of_notMem : i ∉ order → ∀ other ∈ values, t.hash other = t.hash value →
    t.equals other value = false

theorem lookupForWriting_spec (h : Filled t table order deleted values)
    (hroom : order.length + deleted.length < min table.mCapacity (2 ^ 32)) (value : α) :
    ∃ i, table.lookupForWritingLoop t value (2 ^ 32) (t.hash value) none = .ok i ∧
      BucketFor t table order values value i := by
  have hpos : 0 < table.mCapacity := by omega
  obtain ⟨k, hk, hfirst⟩ := h.exists_firstStop hroom (t.hash_lt value)
    fun other => t.equals other value
  obtain ⟨i, hloop, hresult⟩ :
      ∃ i, table.lookupForWritingLoop t value (2 ^ 32) (t.hash value) none = .ok i ∧
        LookupResult table (t.hash value) k none i := lookupForWritingLoop_spec h hpos hfirst hk
  have hpath : ∀ j < k, (table.mBuckets (place doubleHash table.mCapacity (t.hash value) j)).state ≠
      .free := fun j hj => Filled.ne_free_of_not_stops (hfirst.before j hj)
  refine ⟨i, hloop, ?_⟩
  rcases hresult with ⟨hused, rfl⟩ | ⟨hfree, hnone | ⟨-, m, hm, rfl, hunused, hbefore⟩⟩
  · have hmem := (h.used_iff _).mpr ⟨place_lt hpos k, hused⟩
    refine ⟨place_lt hpos k, ⟨k, rfl, hpath⟩, fun _ => ?_, fun hnotMem => absurd hmem hnotMem⟩
    cases hfirst.stops with
    | inl hfree => exact absurd (hfree.symm.trans hused) BucketState.noConfusion
    | inr hequal => exact hequal.2
  · exact absurd hnone.symm (some_ne_none i)
  · exact ⟨place_lt hpos m, ⟨m, rfl, fun j hj => hpath j (by omega)⟩,
      fun hmem => absurd (h.used hmem) hunused, fun _ other hother =>
        h.not_predicate_of_free hfirst hfree hother⟩

end HashTable

/-! ## Changes of the contents -/

namespace Filled

variable {t : HashTableType α} {table table' : HashTable α} {order deleted : List Nat}
  {values : List α} {value : α} {i : Nat}

theorem fresh (hfree : ∀ i < table.mCapacity, (table.mBuckets i).state = .free)
    (hsentinel : t.isOrdered = false → 0 < table.mCapacity →
      (table.mBuckets table.mCapacity).state = .endBucket) : Filled t table [] [] [] := by
  refine ⟨rfl, nodup_nil, fun i => ?_, nodup_nil, fun i => ?_, fun i hi _ _ => hfree i hi,
    fun i hi => absurd hi not_mem_nil, hsentinel⟩
  · refine ⟨fun hi => absurd hi not_mem_nil, fun hi => ?_⟩
    rw [hfree i hi.1] at hi
    exact absurd hi.2 BucketState.noConfusion
  · refine ⟨fun hi => absurd hi not_mem_nil, fun hi => ?_⟩
    rw [hfree i hi.1] at hi
    exact absurd hi.2 BucketState.noConfusion

section

variable (h : Filled t table order deleted values)

include h

/-- An element is put into a bucket that is reached for it. -/
theorem reached_of_used
    (hreaches : Reaches doubleHash table.mCapacity (fun j => (table.mBuckets j).state ≠ .free)
      (t.hash value) i)
    (hchanged : ChangedAt table table' i) (hstate : (table'.mBuckets i).state = .used)
    (hslot : (table'.mBuckets i).slot = some value) {j : Nat} (hj : j ∈ order ∨ j = i) {other : α}
    (hother : (table'.mBuckets j).slot = some other) :
    Reaches doubleHash table'.mCapacity (fun j => (table'.mBuckets j).state ≠ .free)
      (t.hash other) j := by
  have hoccupied : ∀ j, (table.mBuckets j).state ≠ .free → (table'.mBuckets j).state ≠ .free := by
    intro j hj
    rcases Decidable.eq_or_ne j i with rfl | hji
    · rw [hstate]
      exact BucketState.noConfusion
    · rw [(hchanged.2 j hji).1]
      exact hj
  rw [hchanged.1]
  rcases Decidable.eq_or_ne j i with rfl | hji
  · rw [hslot, some.injEq] at hother
    rw [← hother]
    exact hreaches.mono hoccupied
  · rw [(hchanged.2 j hji).2] at hother
    exact (h.reached j (hj.resolve_right hji) other hother).mono hoccupied

theorem sentinel_of_changedAt (hi : i < table.mCapacity)
    (hchanged : ChangedAt table table' i) (hordered : t.isOrdered = false)
    (hpos : 0 < table'.mCapacity) : (table'.mBuckets table'.mCapacity).state = .endBucket := by
  rw [hchanged.1] at hpos ⊢
  rw [(hchanged.2 _ (Nat.ne_of_gt hi)).1]
  exact h.sentinel hordered hpos

theorem insert (hi : i < table.mCapacity) (hunused : i ∉ order)
    (hreaches : Reaches doubleHash table.mCapacity (fun j => (table.mBuckets j).state ≠ .free)
      (t.hash value) i)
    (hchanged : ChangedAt table table' i) (hstate : (table'.mBuckets i).state = .used)
    (hslot : (table'.mBuckets i).slot = some value) :
    Filled t table' (order ++ [i]) (deleted.erase i) (values ++ [value]) := by
  have hne : ∀ j ∈ order, j ≠ i := fun j hj heq => hunused (heq ▸ hj)
  refine ⟨?_, ?_, fun j => ?_, h.deleted_nodup.erase i, fun j => ?_, fun j hj => ?_,
    fun j hj other hother => ?_, h.sentinel_of_changedAt hi hchanged⟩
  · simp only [map_append, ← h.located, map_singleton, hslot]
    congr 1
    exact map_congr_left fun j hj => (hchanged.2 j (hne j hj)).2
  · exact nodup_append.mpr ⟨h.nodup, nodup_singleton i, fun j hj k hk =>
      (mem_singleton.mp hk) ▸ hne j hj⟩
  · rw [mem_append, mem_singleton, hchanged.1]
    rcases Decidable.eq_or_ne j i with rfl | hji
    · simp [hstate, hi]
    · rw [h.used_iff, (hchanged.2 j hji).1]
      simp [hji]
  · rw [h.deleted_nodup.mem_erase_iff, h.deleted_iff, hchanged.1]
    rcases Decidable.eq_or_ne j i with rfl | hji
    · simp [hstate]
    · rw [(hchanged.2 j hji).1]
      simp only [ne_eq, hji, not_false_eq_true, true_and]
  · rw [hchanged.1] at hj
    rcases Decidable.eq_or_ne j i with rfl | hji
    · exact fun hne' => absurd hstate hne'
    · rw [(hchanged.2 j hji).1]
      exact h.free j hj
  · rw [mem_append, mem_singleton] at hj
    exact h.reached_of_used hreaches hchanged hstate hslot hj hother

end

variable {before after : List Nat} {valuesBefore valuesAfter : List α} {old : α}

section

variable (h : Filled t table (before ++ i :: after) deleted (valuesBefore ++ old :: valuesAfter))

include h

theorem replace
    (hlength : before.length = valuesBefore.length)
    (hreaches : Reaches doubleHash table.mCapacity (fun j => (table.mBuckets j).state ≠ .free)
      (t.hash value) i)
    (hchanged : ChangedAt table table' i) (hstate : (table'.mBuckets i).state = .used)
    (hslot : (table'.mBuckets i).slot = some value) :
    Filled t table' (before ++ i :: after) deleted (valuesBefore ++ value :: valuesAfter) := by
  have hmem : i ∈ before ++ i :: after := mem_append_right _ mem_cons_self
  have hstates : ∀ j, (table'.mBuckets j).state = (table.mBuckets j).state := by
    intro j
    rcases Decidable.eq_or_ne j i with rfl | hji
    · rw [hstate, h.used hmem]
    · exact (hchanged.2 j hji).1
  have hnodup := h.nodup
  rw [nodup_append] at hnodup
  obtain ⟨-, hafter, hdisjoint⟩ := hnodup
  refine ⟨?_, h.nodup, fun j => ?_, h.deleted_nodup, fun j => ?_, fun j => ?_,
    fun j hj other hother => ?_, h.sentinel_of_changedAt (h.lt hmem) hchanged⟩
  · have hlocated := h.located
    simp only [map_append] at hlocated ⊢
    obtain ⟨hfirst, hrest⟩ := append_inj hlocated (by simp only [length_map, hlength])
    simp only [map_cons, List.cons.injEq] at hrest
    simp only [map_cons, hslot, ← hfirst, ← hrest.2]
    congr 1
    · exact map_congr_left fun j hj =>
        (hchanged.2 j (hdisjoint j hj i mem_cons_self)).2
    · congr 1
      exact map_congr_left fun j hj =>
        (hchanged.2 j fun heq => (nodup_cons.mp hafter).1 (heq ▸ hj)).2
  · rw [hstates, hchanged.1]
    exact h.used_iff j
  · rw [hstates, hchanged.1]
    exact h.deleted_iff j
  · rw [hstates, hchanged.1]
    exact h.free j
  · exact h.reached_of_used hreaches hchanged hstate hslot (.inl hj) hother

theorem delete
    (hlength : before.length = valuesBefore.length)
    (hchanged : ChangedAt table table' i) (hstate : (table'.mBuckets i).state = .deleted) :
    Filled t table' (before ++ after) (i :: deleted) (valuesBefore ++ valuesAfter) := by
  have hmem : i ∈ before ++ i :: after := mem_append_right _ mem_cons_self
  have hlt := h.lt hmem
  have hnodup : (i :: (before ++ after)).Nodup := nodup_middle.mp h.nodup
  have hne : ∀ j ∈ before ++ after, j ≠ i := fun j hj heq =>
    (nodup_cons.mp hnodup).1 (heq ▸ hj)
  have hoccupied : ∀ j, (table.mBuckets j).state ≠ .free → (table'.mBuckets j).state ≠ .free := by
    intro j hj
    rcases Decidable.eq_or_ne j i with rfl | hji
    · rw [hstate]
      exact BucketState.noConfusion
    · rw [(hchanged.2 j hji).1]
      exact hj
  have hnotDeleted : i ∉ deleted := by
    rw [h.deleted_iff, h.used hmem]
    exact fun hdeleted => BucketState.noConfusion hdeleted.2
  refine ⟨?_, (nodup_cons.mp hnodup).2, fun j => ?_,
    nodup_cons.mpr ⟨hnotDeleted, h.deleted_nodup⟩, fun j => ?_, fun j hj => ?_,
    fun j hj other hother => ?_, h.sentinel_of_changedAt hlt hchanged⟩
  · have hlocated := h.located
    simp only [map_append] at hlocated
    obtain ⟨hfirst, hrest⟩ := append_inj hlocated (by simp only [length_map, hlength])
    simp only [map_cons, List.cons.injEq] at hrest
    rw [map_append, map_append, ← hfirst, ← hrest.2, ← map_append, ← map_append]
    exact map_congr_left fun j hj => (hchanged.2 j (hne j hj)).2
  · have hiff := h.used_iff j
    rw [mem_append, mem_cons] at hiff
    rw [mem_append, hchanged.1]
    rcases Decidable.eq_or_ne j i with rfl | hji
    · rw [← mem_append, hstate]
      simp only [reduceCtorEq, and_false, iff_false]
      exact fun hj => hne j hj rfl
    · rw [(hchanged.2 j hji).1, ← hiff]
      simp [hji]
  · rw [mem_cons, h.deleted_iff, hchanged.1]
    rcases Decidable.eq_or_ne j i with rfl | hji
    · simp [hstate, hlt]
    · rw [(hchanged.2 j hji).1]
      simp [hji]
  · rw [hchanged.1] at hj
    rcases Decidable.eq_or_ne j i with rfl | hji
    · exact fun _ hne' => absurd hstate hne'
    · rw [(hchanged.2 j hji).1]
      exact h.free j hj
  · have hj' : j ∈ before ++ i :: after :=
      (mem_append.mp hj).elim (mem_append_left _) fun hj =>
        mem_append_right _ (mem_cons_of_mem i hj)
    rw [(hchanged.2 j (hne j hj)).2] at hother
    rw [hchanged.1]
    exact (h.reached j hj' other hother).mono hoccupied

end

end Filled

end Literate.AK

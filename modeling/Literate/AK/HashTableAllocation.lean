import Literate.AK.HashTableRun

/-!
# AK: hash tables and failing allocations

Whether `try_set` and `try_ensure_capacity` are undone when an allocation fails.  Their first
allocation comes before any change.  The new buckets may turn out to be too few while the
elements are put into them, since `should_grow` counts all elements from the beginning; others
are then allocated, and there `MUST` insists.
-/

namespace Literate.AK

open Foundation

variable {α β : Type}

/-- An operation succeeds, or reports that there is no memory and leaves the table as it was. -/
def Atomic (s : TableState α) (r : Except Crash (ErrorOr β × TableState α)) : Prop :=
  ∃ result s', r = .ok (result, s') ∧ ∀ e, result = .error e → e = .enomem ∧ s'.table = s.table

/-- A table whose elements are different and counted, and linked in both directions if it is
ordered. -/
def WellFormed (t : HashTableType α) (table : HashTable α) : Prop :=
  ∃ order deleted values, Sound t table order deleted values ∧ Counted t table values ∧
    (t.isOrdered = true → Chained table order)

namespace HashTable

/-- New buckets for a capacity are allocated. -/
def Allocates (t : HashTableType α) (newCapacity : Nat) (s : TableState α) : Prop :=
  kcalloc (sizeInBytes t (goodCapacity t newCapacity) % 2 ^ 64) s = true ∧
    sizeInBytes t (goodCapacity t newCapacity) < 2 ^ 64

instance (t : HashTableType α) (capacity : Nat) (s : TableState α) :
    Decidable (Allocates t capacity s) :=
  inferInstanceAs (Decidable (_ ∧ _))

/-- Too little memory is allocated for a capacity, since its size in bytes has overflowed. -/
def Overflows (t : HashTableType α) (newCapacity : Nat) (s : TableState α) : Prop :=
  kcalloc (sizeInBytes t (goodCapacity t newCapacity) % 2 ^ 64) s = true ∧
    2 ^ 64 ≤ sizeInBytes t (goodCapacity t newCapacity)

/-- One of the growths fails that follow each other while elements are put into new buckets. -/
inductive GrowthFails (t : HashTableType α) : TableState α → Prop
  | now {s : TableState α} (hgrow : s.table.shouldGrow = true)
      (hfails : ¬ Allocates t (2 * s.table.mCapacity) s) : GrowthFails t s
  | later {s : TableState α} (hgrow : s.table.shouldGrow = true)
      (hallocates : Allocates t (2 * s.table.mCapacity) s)
      (hfails : GrowthFails t (newBuckets t s (2 * s.table.mCapacity))) : GrowthFails t s

/-- `try_rehash` gets new buckets, and then something goes wrong: they are not as large as they
should be, or too few for the elements while there is no memory for others. -/
def Interrupted (t : HashTableType α) (newCapacity : Nat) (s : TableState α) : Prop :=
  Overflows t newCapacity s ∨ (Allocates t newCapacity s ∧ 0 < s.table.mSize ∧
    GrowthFails t (newBuckets t s newCapacity))

/-- `MUST` stops the program. -/
def isAbort : Except Crash β → Bool
  | .error .abort => true
  | .error .fault | .error .endless | .ok _ => false

section

variable {t : HashTableType α} {s s' : TableState α} {newCapacity : Nat}

/-! ## The growths -/

theorem growthFails_iff (hgrow : s.table.shouldGrow = true)
    (hallocates : Allocates t (2 * s.table.mCapacity) s) :
    GrowthFails t s ↔ GrowthFails t (newBuckets t s (2 * s.table.mCapacity)) := by
  constructor
  · intro h
    cases h with
    | now _ hfails => exact absurd hallocates hfails
    | later _ _ hfails => exact hfails
  · exact .later hgrow hallocates

theorem not_growthFails (hstays : s.table.shouldGrow = false) : ¬ GrowthFails t s := by
  intro h
  cases h with
  | now hgrow _ => exact Bool.noConfusion (hstays.symm.trans hgrow)
  | later hgrow _ _ => exact Bool.noConfusion (hstays.symm.trans hgrow)

/-- What is asked of an allocation depends on the counters alone. -/
theorem newBuckets_congr (hcounts : SameCounts s.table s'.table)
    (hallocations : s'.allocations = s.allocations) :
    newBuckets t s' newCapacity = newBuckets t s newCapacity := by
  simp only [newBuckets, rehashed, hcounts.1, hallocations]

theorem kcalloc_congr (hallocations : s'.allocations = s.allocations) (size : Nat) :
    kcalloc size s' = kcalloc size s := by
  simp only [kcalloc, hallocations]

theorem shouldGrow_congr {table table' : HashTable α} (hcounts : SameCounts table table') :
    table'.shouldGrow = table.shouldGrow := by
  rw [shouldGrow, shouldGrow, usedBucketCount, usedBucketCount, hcounts.1, hcounts.2.1, hcounts.2.2]

theorem growthFails_congr (hcounts : SameCounts s.table s'.table)
    (hallocations : s'.allocations = s.allocations) : GrowthFails t s' ↔ GrowthFails t s := by
  have hshould := shouldGrow_congr hcounts
  have hallocates : Allocates t (2 * s'.table.mCapacity) s' ↔ Allocates t (2 * s.table.mCapacity) s := by
    simp only [Allocates, kcalloc_congr hallocations, hcounts.2.1]
  cases hgrow : s.table.shouldGrow with
  | false => exact iff_of_false (not_growthFails (hshould.trans hgrow)) (not_growthFails hgrow)
  | true =>
    by_cases hgranted : Allocates t (2 * s.table.mCapacity) s
    · rw [growthFails_iff (hshould.trans hgrow) (hallocates.mpr hgranted),
        growthFails_iff hgrow hgranted, hcounts.2.1, newBuckets_congr hcounts hallocations]
    · exact iff_of_true (.now (hshould.trans hgrow) (mt hallocates.mp hgranted))
        (.now hgrow hgranted)

/-- While elements are put into new buckets, the growths that are to come fail if those from the
beginning on do. -/
def Follows (t : HashTableType α) (newCapacity : Nat) (s s' : TableState α) : Prop :=
  Allocates t newCapacity s ∧ s'.table.mSize = s.table.mSize ∧
    (GrowthFails t s' ↔ GrowthFails t (newBuckets t s newCapacity))

theorem watches_interrupted :
    Watches t (fun _ => Interrupted t newCapacity s) (Follows t newCapacity s) := by
  have hinterrupted : ∀ s', Follows t newCapacity s s' → 0 < s'.table.mSize → GrowthFails t s' →
      Interrupted t newCapacity s := fun s' hfollows hpos hfails =>
    .inr ⟨hfollows.1, hfollows.2.1 ▸ hpos, hfollows.2.2.mp hfails⟩
  refine ⟨fun s₁ s₂ hcounts hallocations hfollows => ?_, fun s' hfollows hpos hgrow hkcalloc => ?_,
    fun s' hfollows hpos hgrow => ⟨fun _ hoverflow => ?_, fun hkcalloc hsize => ?_⟩⟩
  · exact ⟨hfollows.1, hcounts.1.trans hfollows.2.1,
      (growthFails_congr hcounts hallocations).trans hfollows.2.2⟩
  · refine hinterrupted s' hfollows hpos (.now hgrow fun hallocates => ?_)
    exact Bool.noConfusion (hkcalloc.symm.trans hallocates.1)
  · exact hinterrupted s' hfollows hpos (.now hgrow fun hallocates =>
      absurd hallocates.2 (Nat.not_lt_of_le hoverflow))
  · exact ⟨hfollows.1, hfollows.2.1, (growthFails_iff hgrow ⟨hkcalloc, hsize⟩).symm.trans hfollows.2.2⟩

theorem opens_interrupted :
    Opens t (fun _ => Interrupted t newCapacity s) (Follows t newCapacity s) newCapacity s :=
  ⟨fun hkcalloc hoverflow => .inl ⟨hkcalloc, hoverflow⟩,
    fun hkcalloc hsize => ⟨⟨hkcalloc, hsize⟩, rfl, Iff.rfl⟩⟩

/-! ## Capacity -/

variable {order deleted : List Nat} {values : List α}

/-- `try_rehash` that is not interrupted moves the elements, or fails to allocate. -/
theorem exists_tryRehash (h : Sound t s.table order deleted values)
    (hinOrder : InOrder t s.table order values) (hcount : s.table.usedBucketCount < 2 ^ 32)
    (hfine : (newCapacity = s.table.mCapacity ∧ 4 ≤ newCapacity) ∨ ¬ Interrupted t newCapacity s) :
    ∃ result s', tryRehash t maxDepth newCapacity s = .ok (result, s') ∧
      OrUnchanged s (fun _ s' => ∃ order' values', Sound t s'.table order' [] values' ∧
        s'.table.mSize = s.table.mSize ∧ Retained t values values' ∧
        (t.isOrdered = true → Chained s.table order →
          (newCapacity = s.table.mCapacity ∧ 4 ≤ newCapacity → keepsLinks t s.table = true) →
            Chained s'.table order')) (result, s') ∧
      ∀ e, result = .error e → e = .enomem ∧
        kcalloc (sizeInBytes t (goodCapacity t newCapacity) % 2 ^ 64) s = false := by
  by_cases hsame : newCapacity = s.table.mCapacity ∧ 4 ≤ newCapacity
  · obtain ⟨s', order', hrehash, hsound, hsize, -, hchained⟩ := tryRehash_same_spec h hcount hsame
    exact ⟨.ok (), s', hrehash, ⟨order', values, hsound, hsize, Retained.refl,
      fun hordered hlinks hkeeps => hchained hordered hlinks (hkeeps hsame)⟩, fun e he => by cases he⟩
  · have hopens : Opens t (fun _ => Interrupted t newCapacity s) (Follows t newCapacity s)
        newCapacity s := opens_interrupted
    have hspec := (tryRehash_spec watches_interrupted hopens h hinOrder hcount).allow
      fun _ => hfine.resolve_left hsame
    obtain ⟨⟨result, s'⟩, hresult, hs'⟩ := hspec.exists_ok
    refine ⟨result, s', hresult, ?_, fun e he => ?_⟩
    · cases result with
      | error e => exact hs'
      | ok _ =>
        obtain ⟨order', values', hsound, hsize, -, hretained, hchained, -⟩ := hs'
        exact ⟨order', values', hsound, hsize, hretained, hchained⟩
    · subst he
      obtain ⟨depth, hdepth⟩ : ∃ depth, maxDepth = depth + 1 := ⟨2 ^ 64 - 1, by decide⟩
      rw [hdepth] at hresult
      exact (kcalloc_of_tryRehash hsame hresult).symm

theorem not_interrupted_of_tryRehash
    (h : Sound t s.table order deleted values) (hinOrder : InOrder t s.table order values)
    (hcounted : Counted t s.table values) (hcount : s.table.usedBucketCount < 2 ^ 32)
    (hother : ¬ (newCapacity = s.table.mCapacity ∧ 4 ≤ newCapacity)) {result : ErrorOr Unit}
    (hresult : tryRehash t maxDepth newCapacity s = .ok (result, s')) :
    ¬ Interrupted t newCapacity s := by
  have hopens : Opens t (fun _ => Interrupted t newCapacity s) (Follows t newCapacity s)
      newCapacity s := opens_interrupted
  have hspec := (tryRehash_spec watches_interrupted hopens h hinOrder hcount).of_ok hresult
  have hlength : order.length = s.table.mSize := h.length_eq.trans hcounted.2.symm
  cases result with
  | error e =>
    obtain ⟨depth, hdepth⟩ : ∃ depth, maxDepth = depth + 1 := ⟨2 ^ 64 - 1, by decide⟩
    rw [hdepth] at hresult
    have hkcalloc := (kcalloc_of_tryRehash hother hresult).1
    rintro (hoverflows | ⟨hallocates, -⟩)
    · exact Bool.noConfusion (hkcalloc.symm.trans hoverflows.1)
    · exact Bool.noConfusion (hkcalloc.symm.trans hallocates.1)
  | ok _ =>
    obtain ⟨order', values', hsound', hsize', hdeleted', -, -, hfollows⟩ := hspec
    obtain ⟨⟨hallocates, -, hfails⟩, hdoubled⟩ := hfollows hother
    rintro (hoverflows | ⟨-, hpos, hgrowthFails⟩)
    · exact absurd hallocates.2 (Nat.not_lt_of_le hoverflows.2)
    · -- the capacity was doubled for every element that did not fit
      rw [hlength] at hdoubled
      have hlarge := hdoubled.large hpos
      have husedCount : s'.table.usedBucketCount = s.table.mSize := by
        rw [usedBucketCount, hsize', hdeleted', Nat.add_zero]
      have hsmall : s.table.mSize < 2 ^ 32 := Nat.lt_of_le_of_lt (Nat.le_add_right _ _) hcount
      refine not_growthFails ?_ (hfails.mpr hgrowthFails)
      rw [← Bool.not_eq_true, shouldGrow_iff hsound'.bytes (by rw [husedCount]; exact hsmall),
        husedCount]
      omega

/-! ## Setting -/

theorem newBuckets_stays
    (hsound : Sound t s.table order deleted values) (hcounted : Counted t s.table values)
    (hallocates : Allocates t (2 * s.table.mCapacity) s) (hcount : s.table.usedBucketCount < 2 ^ 32) :
    (newBuckets t s (2 * s.table.mCapacity)).table.shouldGrow = false := by
  have hlength : order.length = s.table.mSize := hsound.length_eq.trans hcounted.2.symm
  have hgood := le_goodCapacity_double hsound.bytes
  have hroom := hsound.room
  have hsizeLe := hsound.size_le
  have hzero : s.table.mCapacity = 0 → s.table.mSize = 0 := hcounted.mSize_eq_zero hsound
  have hnew : Growing t (newBuckets t s (2 * s.table.mCapacity)).table [] [] :=
    rehashed_growing (kcalloc_bytes hallocates.1 hallocates.2)
  have husedCount : (newBuckets t s (2 * s.table.mCapacity)).table.usedBucketCount = s.table.mSize := rfl
  have hcapacity : (newBuckets t s (2 * s.table.mCapacity)).table.mCapacity =
      goodCapacity t (2 * s.table.mCapacity) := rfl
  have hsmall : s.table.mSize < 2 ^ 32 := Nat.lt_of_le_of_lt (Nat.le_add_right _ _) hcount
  rw [← Bool.not_eq_true, shouldGrow_iff hnew.bytes (by rw [husedCount]; exact hsmall), husedCount,
    hcapacity]
  omega

/-- New buckets whose size has overflowed are too few for the last one. -/
theorem tryRehash_of_overflows (hoverflows : Overflows t newCapacity s)
    (hother : ¬ (newCapacity = s.table.mCapacity ∧ 4 ≤ newCapacity)) :
    tryRehash t maxDepth newCapacity s = .error .fault := by
  obtain ⟨depth, hdepth⟩ : ∃ depth, maxDepth = depth + 1 := ⟨2 ^ 64 - 1, by decide⟩
  have hgranted : ¬ kcalloc (sizeInBytes t (goodCapacity t newCapacity) % 2 ^ 64) s = false := by
    rw [hoverflows.1]
    exact Bool.noConfusion
  rw [hdepth, tryRehash, if_neg hother]
  rw [if_neg hgranted, if_pos hoverflows.2]

theorem error_of_trySet {value : α} {behavior : HashSetExistingEntryBehavior} {e : Errno}
    (h : trySet t value behavior s = .ok (.error e, s')) : s.table.shouldGrow = true ∧
      tryRehash t maxDepth (s.table.mCapacity * 2 % 2 ^ 64) s = .ok (.error e, s') := by
  rw [trySet] at h
  cases hlookup : tryLookupForWriting t (tryRehash t maxDepth) value s with
  | error crash =>
    rw [hlookup] at h
    cases h
  | ok r =>
    obtain ⟨found, s₁⟩ := r
    rw [hlookup] at h
    cases found with
    | error e' =>
      cases h
      exact rehash_of_tryLookupForWriting hlookup
    | ok i =>
      simp only [bind, Except.bind, pure, Except.pure] at h
      split_ifs at h
      · cases behavior <;> cases h
      all_goals
        split at h <;> cases h

/-- `try_set` of buckets whose size does not overflow sets an element, or fails to allocate. -/
theorem exists_trySet (h : Sound t s.table order deleted values)
    (hcounted : Counted t s.table values) (hchained : t.isOrdered = true → Chained s.table order)
    (hcount : s.table.usedBucketCount < 2 ^ 32)
    (hfits : ¬ (s.table.shouldGrow = true ∧ Overflows t (2 * s.table.mCapacity) s)) (value : α)
    (behavior : HashSetExistingEntryBehavior) :
    ∃ result s', trySet t value behavior s = .ok (result, s') ∧
      OrUnchanged s (fun result s' => ∃ order' deleted' middle values',
        Sound t s'.table order' deleted' values' ∧ Retained t values middle ∧
        SetsTo t value behavior result middle values' ∧
        s'.table.mSize = s.table.mSize + (if result = .insertedNewEntry then 1 else 0) ∧
        s'.table.mDeletedCount ≤ s.table.mDeletedCount ∧
        (s.table.shouldGrow = false → s'.table.mCapacity = s.table.mCapacity) ∧
        (t.isOrdered = true → Chained s.table order → Chained s'.table order')) (result, s') ∧
      ∀ e, result = .error e → e = .enomem ∧ s.table.shouldGrow = true ∧
        kcalloc (sizeInBytes t (goodCapacity t (2 * s.table.mCapacity)) % 2 ^ 64) s = false := by
  have hle := capacity_le h.bytes
  have hdouble : s.table.mCapacity * 2 % 2 ^ 64 = 2 * s.table.mCapacity := by
    rw [Nat.mod_eq_of_lt (by omega), Nat.mul_comm]
  have hwatches : Watches t (fun _ => False) fun s' : TableState α => s'.table.shouldGrow = false :=
    { steady := fun _ _ hcounts _ hsame => (shouldGrow_congr hcounts).trans hsame
      fails := fun _ hsame _ hgrow => Bool.noConfusion (hsame.symm.trans hgrow)
      opens := fun _ hsame _ hgrow => Bool.noConfusion (hsame.symm.trans hgrow) }
  have hspec := trySet_spec hwatches
    (fun hshould => ⟨fun hkcalloc hoverflow => hfits ⟨hshould, hkcalloc, hoverflow⟩,
      fun hkcalloc hsize => newBuckets_stays h hcounted ⟨hkcalloc, hsize⟩ hcount⟩)
    h (fun hordered => ⟨(hchained hordered).forward, hcounted.1⟩)
    (fun hordered => .inl (hchained hordered)) hcount value behavior
  obtain ⟨⟨result, s'⟩, hresult, hs'⟩ := hspec.exists_ok
  refine ⟨result, s', hresult, hs', fun e he => ?_⟩
  subst he
  obtain ⟨depth, hdepth⟩ : ∃ depth, maxDepth = depth + 1 := ⟨2 ^ 64 - 1, by decide⟩
  obtain ⟨hshould, hrehash⟩ := error_of_trySet hresult
  rw [hdouble, hdepth] at hrehash
  obtain ⟨hkcalloc, henomem⟩ := kcalloc_of_tryRehash (by omega) hrehash
  exact ⟨henomem, hshould, hkcalloc⟩

/-- `try_set` is atomic as long as the size of the buckets does not overflow. -/
theorem trySet_atomic_iff (h : WellFormed t s.table) (hcount : s.table.usedBucketCount < 2 ^ 32)
    (value : α) (behavior : HashSetExistingEntryBehavior) : Atomic s (trySet t value behavior s) ↔
      ¬ (s.table.shouldGrow = true ∧ Overflows t (2 * s.table.mCapacity) s) := by
  obtain ⟨order, deleted, values, hsound, hcounted, hchained⟩ := h
  have hle := capacity_le hsound.bytes
  have hdouble : s.table.mCapacity * 2 % 2 ^ 64 = 2 * s.table.mCapacity := by
    rw [Nat.mod_eq_of_lt (by omega), Nat.mul_comm]
  constructor
  · rintro ⟨result, s', hresult, -⟩ ⟨hshould, hoverflows⟩
    have hrehash := tryRehash_of_overflows hoverflows (by omega)
    rw [trySet, tryLookupForWriting, if_pos hshould, hdouble, hrehash] at hresult
    cases hresult
  · intro hfits
    obtain ⟨result, s', hresult, hs', herror⟩ :=
      exists_trySet hsound hcounted hchained hcount hfits value behavior
    refine ⟨result, s', hresult, fun e he => ⟨(herror e he).1, ?_⟩⟩
    subst he
    exact hs'

theorem wellFormed_of_loaded (hlawful : Lawful t) (hordered : t.isOrdered = false)
    (h : Loaded t s.table) : WellFormed t s.table := by
  obtain ⟨order, deleted, values, hsound, hcounted⟩ := h
  exact ⟨order, deleted, values, hsound, hcounted hlawful,
    fun htrue => Bool.noConfusion (hordered.symm.trans htrue)⟩

end

theorem lawful_ownHash : Lawful ownHash :=
  { refl := fun a => decide_eq_true (Eq.refl a)
    symm := fun _ _ h => decide_eq_true (of_decide_eq_true h).symm
    trans := fun _ _ _ h h' => decide_eq_true ((of_decide_eq_true h).trans (of_decide_eq_true h'))
    hash_eq := fun _ _ h => congrArg ownHash.hash (of_decide_eq_true h) }

end HashTable

end Literate.AK

import Literate.AK.HashTableIteration
import Literate.Foundation.Representatives

/-!
# AK: growth of a hash table

`try_rehash` puts the elements of the old buckets into new ones, through lookups that may ask
for more growth while this is going on.  Each growth doubles the capacity, so that the table is
large enough after a few of them, and no loop goes on forever: the new buckets always have room
for one more element, and the old ones are visited once.

Elements that are equal under the traits but have different hashes may be in one table, and one
of them may be lost when they are moved.  When no two elements are equal, none is.
-/

namespace Literate.AK

open Foundation List Nat Bool

variable {α β : Type}

/-- No two elements are equal. -/
def Distinct (t : HashTableType α) (values : List α) : Prop :=
  values.Pairwise fun a b => t.equals a b = false ∧ t.equals b a = false

/-- Elements that are moved are kept, when no two of them are equal, and an ordered table keeps
their order. -/
structure Retained (t : HashTableType α) (values values' : List α) : Prop where
  length_le : values'.length ≤ values.length
  perm : Distinct t values → values'.Perm values
  eq : Distinct t values → t.isOrdered = true → values' = values

/-- A table that has room for an element, with counters that do not fall short. -/
structure Sound (t : HashTableType α) (table : HashTable α) (order deleted : List Nat)
    (values : List α) : Prop extends Filled t table order deleted values where
  room : order.length + deleted.length < table.mCapacity ∨ table.mCapacity = 0
  bytes : table.mCapacity * t.bucketSize ≤ 2 ^ 57
  size_le : order.length ≤ table.mSize
  deleted_le : deleted.length ≤ table.mDeletedCount

/-- New buckets with some of the elements. -/
structure Growing (t : HashTableType α) (table : HashTable α) (order : List Nat)
    (values : List α) : Prop extends Sound t table order [] values where
  deletedCount : table.mDeletedCount = 0
  chained : t.isOrdered = true → Chained table order
  distinct : t.isOrdered = true → Distinct t values

/-- What an ordered table needs for growth: its links, and no two equal elements. -/
def InOrder (t : HashTableType α) (table : HashTable α) (order : List Nat) (values : List α) : Prop :=
  t.isOrdered = true → Linked (nextOf table) table.mHead order ∧ Distinct t values

/-- New buckets, at least so many, with the elements that are kept. -/
def Grown (t : HashTableType α) (size capacity : Nat) (values : List α) (table : HashTable α) :
    Prop :=
  ∃ order' values', Growing t table order' values' ∧ table.mSize = size ∧
    capacity ≤ table.mCapacity ∧ Retained t values values'

/-- A capacity that the elements do not outgrow, or that was doubled for each of them. -/
def Doubled (size count capacity : Nat) : Prop :=
  count = 0 ∨ (size + 1) * 100 < capacity * 60 ∨ 2 ^ (count + 1) ≤ capacity

/-- What is said of the counters and of the allocations to come, and not of the buckets. -/
def Steady (I : TableState α → Prop) : Prop :=
  ∀ s s', SameCounts s.table s'.table → s'.allocations = s.allocations → I s → I s'

/-- A result with a property, or a failure that leaves the table alone. -/
def OrUnchanged (s : TableState α) (P : β → TableState α → Prop) : ErrorOr β × TableState α → Prop
  | (.ok b, s') => P b s'
  | (.error _, s') => s'.table = s.table

/-! ## Elements that are kept -/

section

variable {t : HashTableType α} {values values' : List α} {value : α}

namespace Distinct

theorem perm (h : Distinct t values) (hperm : values'.Perm values) : Distinct t values' :=
  Inequivalent.perm h hperm

theorem of_append (h : Distinct t (values ++ values')) : Distinct t values :=
  (pairwise_append.mp h).1

theorem equals_eq_false (h : Distinct t (values ++ [value])) {other : α} (hother : other ∈ values) :
    t.equals other value = false :=
  ((pairwise_append.mp h).2.2 other hother value mem_cons_self).1

theorem eq_of_equals (h : Distinct t values) {a b : α} (ha : a ∈ values) (hb : b ∈ values)
    (hequals : t.equals a b = true) : a = b :=
  Inequivalent.eq_of_equivalent h ha hb hequals

end Distinct

namespace Retained

theorem refl : Retained t values values :=
  ⟨Nat.le_refl _, fun _ => List.Perm.refl _, fun _ _ => rfl⟩

theorem append {first rest middle last : List α} (h : Retained t first middle)
    (h' : Retained t (middle ++ rest) last) : Retained t (first ++ rest) last := by
  have hdistinct : Distinct t (first ++ rest) → Distinct t (middle ++ rest) := fun hall =>
    hall.perm ((h.perm hall.of_append).append_right rest)
  refine ⟨?_, fun hall => ?_, fun hall hordered => ?_⟩
  · have hlength := h'.length_le
    have hfirst := h.length_le
    rw [length_append] at hlength ⊢
    omega
  · exact (h'.perm (hdistinct hall)).trans ((h.perm hall.of_append).append_right rest)
  · rw [h'.eq (hdistinct hall) hordered, h.eq hall.of_append hordered]

end Retained

end

namespace Doubled

variable {size count capacity capacity' : Nat}

theorem grow (h : Doubled size count capacity) (hsmall : capacity * 60 ≤ (size + 1) * 100)
    (hcapacity : max (2 * capacity) 4 ≤ capacity') : Doubled size (count + 1) capacity' := by
  refine .inr (.inr ?_)
  rcases h with rfl | hlarge | hpow
  · exact (Nat.le_max_right _ _).trans hcapacity
  · omega
  · calc 2 ^ (count + 1 + 1) = 2 ^ (count + 1) * 2 := Nat.pow_succ _ _
      _ ≤ capacity * 2 := Nat.mul_le_mul_right 2 hpow
      _ ≤ capacity' := by omega

/-- A capacity that was doubled for all elements is large enough for them. -/
theorem large (h : Doubled size size capacity) (hpos : 0 < size) :
    (size + 1) * 100 < capacity * 60 := by
  rcases h with hzero | hlarge | hpow
  · omega
  · exact hlarge
  · have hlt : size + 2 ≤ 2 ^ (size + 1) := Nat.lt_two_pow_self
    have hlarge : (size + 1) * 2 ≤ 2 ^ (size + 1) := by
      rw [Nat.pow_succ]
      exact Nat.mul_le_mul_right 2 Nat.lt_two_pow_self
    generalize 2 ^ (size + 1) = pow at *
    omega

end Doubled

/-! ## Lookups for writing -/

variable {e : Errno} {s' : TableState α} {old : HashTable α} {depth : Nat}

namespace HashTable

variable {t : HashTableType α} {allowed : Crash → Prop} {s : TableState α} {value : α}
  {rehash : Nat → TableState α → Except Crash (ErrorOr Unit × TableState α)}

theorem must_spec {P : β → TableState α → Prop} {r : Except Crash (ErrorOr β × TableState α)}
    (h : Ensures allowed (OrUnchanged s P) r)
    (habort : ∀ e s', r = .ok (.error e, s') → allowed .abort) :
    Ensures allowed (fun r => P r.1 r.2) (must r) := by
  cases r with
  | error crash => exact h
  | ok r =>
    obtain ⟨result, s'⟩ := r
    cases result with
    | ok b => exact h
    | error e => exact habort e s' rfl

/-- A lookup for writing, with growth before it when the table should grow. -/
theorem tryLookupForWriting_spec {P : TableState α → Prop}
    (hgrow : s.table.shouldGrow = true → Ensures allowed (OrUnchanged s fun _ s' => P s')
      (rehash (s.table.mCapacity * 2 % 2 ^ 64) s))
    (hstay : s.table.shouldGrow = false → P s)
    (hends : ∀ s', P s' →
      ∃ i, lookupForWritingLoop t s'.table value (2 ^ 32) (t.hash value) none = .ok i) :
    Ensures allowed (OrUnchanged s fun i s' => P s' ∧
      lookupForWritingLoop t s'.table value (2 ^ 32) (t.hash value) none = .ok i)
      (tryLookupForWriting t rehash value s) := by
  have hloop : ∀ s' : TableState α, P s' → Ensures allowed
      (OrUnchanged s fun i s' => P s' ∧
        lookupForWritingLoop t s'.table value (2 ^ 32) (t.hash value) none = .ok i)
      (do
        let i ← lookupForWritingLoop t s'.table value (2 ^ 32) (t.hash value) none
        return (.ok i, s')) := by
    intro s' hP
    obtain ⟨i, hloop⟩ := hends s' hP
    rw [hloop]
    exact ⟨hP, hloop⟩
  unfold tryLookupForWriting
  cases hshould : s.table.shouldGrow with
  | true =>
    refine Ensures.bind (hgrow hshould) ?_
    rintro ⟨result, s'⟩ hresult
    cases result with
    | error e => exact hresult
    | ok _ => exact hloop s' hresult
  | false => exact hloop s (hstay hshould)

theorem rehash_of_tryLookupForWriting
    (h : tryLookupForWriting t rehash value s = .ok (.error e, s')) :
    s.table.shouldGrow = true ∧ rehash (s.table.mCapacity * 2 % 2 ^ 64) s = .ok (.error e, s') := by
  have hloop : ∀ s'' : TableState α, (do
      let i ← lookupForWritingLoop t s''.table value (2 ^ 32) (t.hash value) none
      return ((.ok i : ErrorOr Nat), s'')) ≠ Except.ok (.error e, s') := by
    intro s'' heq
    cases hlookup : lookupForWritingLoop t s''.table value (2 ^ 32) (t.hash value) none with
    | error crash =>
      rw [hlookup] at heq
      cases heq
    | ok i =>
      rw [hlookup] at heq
      cases heq
  unfold tryLookupForWriting at h
  cases hshould : s.table.shouldGrow with
  | false =>
    rw [hshould] at h
    exact absurd h (hloop s)
  | true =>
    rw [hshould] at h
    cases hrehash : rehash (s.table.mCapacity * 2 % 2 ^ 64) s with
    | error crash =>
      rw [if_pos rfl, hrehash] at h
      cases h
    | ok r =>
      obtain ⟨result, s''⟩ := r
      rw [if_pos rfl, hrehash] at h
      cases result with
      | error e' =>
        cases h
        exact ⟨rfl, rfl⟩
      | ok _ => exact absurd h (hloop s'')

end HashTable

/-! ## Room -/

section

variable {t : HashTableType α} {table : HashTable α} {order deleted : List Nat} {values : List α}

theorem capacity_le (hbytes : table.mCapacity * t.bucketSize ≤ 2 ^ 57) : table.mCapacity ≤ 2 ^ 57 :=
  (Nat.le_mul_of_pos_right _ t.bucketSize_pos).trans hbytes

theorem shouldGrow_iff (hbytes : table.mCapacity * t.bucketSize ≤ 2 ^ 57)
    (hcount : table.usedBucketCount < 2 ^ 32) :
    table.shouldGrow = true ↔ table.mCapacity * 60 ≤ (table.usedBucketCount + 1) * 100 := by
  have hcapacity := capacity_le hbytes
  rw [HashTable.shouldGrow, decide_eq_true_iff, mod_eq_of_lt (by omega),
    mod_eq_of_lt (by omega)]

namespace Sound

section

variable (h : Sound t table order deleted values)

include h

theorem eq_nil_of_capacity (hcapacity : table.mCapacity = 0) : order = [] ∧ deleted = [] := by
  refine ⟨eq_nil_iff_forall_not_mem.mpr fun i hi => ?_,
    eq_nil_iff_forall_not_mem.mpr fun i hi => ?_⟩
  · have hlt := ((h.used_iff i).mp hi).1
    omega
  · have hlt := ((h.deleted_iff i).mp hi).1
    omega

theorem room_of_stays (hcount : table.usedBucketCount < 2 ^ 32)
    (hstays : table.shouldGrow = false) : order.length + deleted.length + 1 < table.mCapacity ∧
      order.length + deleted.length < min table.mCapacity (2 ^ 32) := by
  have hsize := h.size_le
  have hdeleted := h.deleted_le
  have hstays' : ¬ table.mCapacity * 60 ≤ (table.usedBucketCount + 1) * 100 := by
    rw [← shouldGrow_iff h.bytes hcount, hstays]
    decide
  unfold HashTable.usedBucketCount at hstays' hcount
  omega

theorem length_le_of_count
    (hcount : table.usedBucketCount < 2 ^ 32) : order.length ≤ 2 ^ 32 := by
  have hsize := h.size_le
  unfold HashTable.usedBucketCount at hcount
  omega

theorem exists_free_bucket (hpos : 0 < table.mCapacity) (hcount : table.usedBucketCount < 2 ^ 32) :
    order.length + deleted.length < min table.mCapacity (2 ^ 32) := by
  have hsize := h.size_le
  have hdeleted := h.deleted_le
  have hroom := h.room
  unfold HashTable.usedBucketCount at hcount
  omega

end

end Sound

end

/-! ## One element -/

/-- Other contents in the buckets of a growing table. -/
theorem Growing.change {t : HashTableType α} {table table' : HashTable α} {order order' : List Nat}
    {values values' : List α}
    (h : Growing t table order values) (hfilled : Filled t table' order' [] values')
    (hcounts : SameCounts table table') (hroom : order'.length < table.mCapacity)
    (hsize : order'.length ≤ table.mSize) (hchained : t.isOrdered = true → Chained table' order')
    (hdistinct : t.isOrdered = true → Distinct t values') : Growing t table' order' values' :=
  { hfilled with
    room := .inl (by rw [hcounts.2.1]; exact hroom)
    bytes := by rw [hcounts.2.1]; exact h.bytes
    size_le := by rw [hcounts.1]; exact hsize
    deleted_le := Nat.zero_le _
    deletedCount := by rw [hcounts.2.2]; exact h.deletedCount
    chained := hchained
    distinct := hdistinct }

/-- `try_rehash`, as the growing table calls it. -/
def Grows (t : HashTableType α) (allowed : Crash → Prop) (I : TableState α → Prop)
    (rehash : Nat → TableState α → Except Crash (ErrorOr Unit × TableState α))
    (size capacity : Nat) : Prop :=
  ∀ s order values, Growing t s.table order values → s.table.mSize = size →
    capacity ≤ s.table.mCapacity → I s → order.length < size → s.table.shouldGrow = true →
    (∀ e s', rehash (s.table.mCapacity * 2 % 2 ^ 64) s = .ok (.error e, s') → allowed .abort) ∧
    Ensures allowed
      (OrUnchanged s fun _ s' => Grown t size (max (2 * s.table.mCapacity) 4) values s'.table ∧ I s')
      (rehash (s.table.mCapacity * 2 % 2 ^ 64) s)

namespace HashTable

variable {t : HashTableType α} {allowed : Crash → Prop} {I : TableState α → Prop} {s : TableState α}
  {value : α} {rehash : Nat → TableState α → Except Crash (ErrorOr Unit × TableState α)}
  {size capacity : Nat} {order : List Nat} {values : List α}

/-- An element is put into the bucket that a lookup ends at. -/
theorem putInto_spec {table : HashTable α} (h : Growing t table order values)
    (hroom : order.length + 1 < table.mCapacity) (hlength : order.length < table.mSize)
    (hsmall : table.mSize < 2 ^ 32)
    (hdistinct : t.isOrdered = true → Distinct t (values ++ [value])) {i : Nat}
    (hloop : lookupForWritingLoop t table value (2 ^ 32) (t.hash value) none = .ok i) :
    ∃ table', linkLast t (table.modify i fun bucket =>
        { bucket with slot := some value, state := .used }) i = .ok table' ∧
      Grown t table.mSize table.mCapacity (values ++ [value]) table' ∧ SameCounts table table' := by
  obtain ⟨i', hloop', hbucket⟩ := lookupForWriting_spec h.toFilled (by rw [length_nil]; omega) value
  obtain rfl : i' = i := Except.ok.inj (hloop'.symm.trans hloop)
  have hchanged : ChangedAt table (table.modify i' fun bucket =>
      { bucket with slot := some value, state := .used }) i' := ChangedAt.modify
  have hstate : ((table.modify i' fun bucket =>
      { bucket with slot := some value, state := .used }).mBuckets i').state = .used := by
    rw [modify_self]
  have hslot : ((table.modify i' fun bucket =>
      { bucket with slot := some value, state := .used }).mBuckets i').slot = some value := by
    rw [modify_self]
  generalize hput : (table.modify i' fun bucket =>
    { bucket with slot := some value, state := .used }) = put at *
  have hcounts : SameCounts table put := by
    rw [← hput]
    exact ⟨rfl, rfl, rfl⟩
  by_cases hi : i' ∈ order
  · -- an element that is equal, though no two elements of an ordered table are
    obtain ⟨other, hother, hequals⟩ := hbucket.equal_of_mem hi
    obtain ⟨before, after, valuesBefore, old, valuesAfter, rfl, rfl, hlengths, hold⟩ :=
      h.exists_split hi
    obtain rfl : old = other := Option.some.inj (hold.symm.trans hother)
    have hnever : ¬ Distinct t (valuesBefore ++ old :: valuesAfter ++ [value]) := by
      intro hall
      have hfalse := hall.equals_eq_false (mem_append_right valuesBefore mem_cons_self)
      rw [hequals] at hfalse
      exact Bool.noConfusion hfalse
    have hunordered : ¬ t.isOrdered = true := fun hordered => hnever (hdistinct hordered)
    refine ⟨put, if_neg hunordered, ⟨_, _,
      h.change (h.replace hlengths hbucket.reaches hchanged hstate hslot) hcounts (by omega) (by omega)
        (fun hordered => absurd hordered hunordered) (fun hordered => absurd hordered hunordered),
      hcounts.1, Nat.le_of_eq hcounts.2.1.symm, ?_, fun hall => absurd hall hnever,
      fun hall => absurd hall hnever⟩, hcounts⟩
    simp only [length_append, length_cons, length_nil]
    omega
  · have hfilled := h.insert hbucket.lt hi hbucket.reaches hchanged hstate hslot
    have hlength' : (order ++ [i']).length = order.length + 1 := by
      rw [length_append, length_singleton]
    cases hordered : t.isOrdered with
    | false =>
      exact ⟨put, by rw [linkLast, hordered, if_neg (by decide)], ⟨_, _,
        h.change hfilled hcounts (by omega) (by omega)
          (fun htrue => absurd (hordered.symm.trans htrue) (by decide)) hdistinct,
        hcounts.1, Nat.le_of_eq hcounts.2.1.symm, Retained.refl⟩, hcounts⟩
    | true =>
      have hchained : Chained put order := by
        rw [← hput]
        exact (h.chained hordered).modify (fun _ => rfl) fun _ => rfl
      obtain ⟨table', hlinked, hchained'⟩ := linkLast_chained hordered hchained hi
      obtain ⟨hsame, hcounts'⟩ := linkLast_relinked hlinked
      have hcountsAll : SameCounts table table' :=
        ⟨hcounts'.1.trans hcounts.1, hcounts'.2.1.trans hcounts.2.1, hcounts'.2.2.trans hcounts.2.2⟩
      exact ⟨table', hlinked, ⟨_, _,
        h.change (hfilled.congr hsame) hcountsAll (by omega) (by omega) (fun _ => hchained') hdistinct,
        hcountsAll.1, Nat.le_of_eq hcountsAll.2.1.symm, Retained.refl⟩, hcountsAll⟩

section

variable (hgrows : Grows t allowed I rehash size capacity)

include hgrows

/-- A growing table has room for an element before it is put in. -/
theorem beforeLookup_spec
    (h : Growing t s.table order values) (hsize : s.table.mSize = size) (hsmall : size < 2 ^ 32)
    (hcapacity : capacity ≤ s.table.mCapacity) (hI : I s) (hlength : order.length < size) {count : Nat}
    (hdoubled : Doubled size count s.table.mCapacity) : Ensures allowed (OrUnchanged s fun i s' =>
        ((∃ order' values', Growing t s'.table order' values' ∧ s'.table.mSize = size ∧
          s.table.mCapacity ≤ s'.table.mCapacity ∧ Retained t values values' ∧
          order'.length + 1 < s'.table.mCapacity ∧ order'.length < size) ∧ I s' ∧
          Doubled size (count + 1) s'.table.mCapacity) ∧
        lookupForWritingLoop t s'.table value (2 ^ 32) (t.hash value) none = .ok i)
      (tryLookupForWriting t rehash value s) := by
  have hshouldGrow : s.table.shouldGrow = true ↔ s.table.mCapacity * 60 ≤ (size + 1) * 100 := by
    rw [shouldGrow_iff h.bytes (by unfold usedBucketCount; rw [h.deletedCount]; omega),
      usedBucketCount, h.deletedCount, hsize, Nat.add_zero]
  refine @tryLookupForWriting_spec α t allowed s value rehash (fun s' =>
    (∃ order' values', Growing t s'.table order' values' ∧ s'.table.mSize = size ∧
      s.table.mCapacity ≤ s'.table.mCapacity ∧ Retained t values values' ∧
      order'.length + 1 < s'.table.mCapacity ∧ order'.length < size) ∧ I s' ∧
      Doubled size (count + 1) s'.table.mCapacity) ?_ ?_ ?_
  · intro hshould
    refine (hgrows s order values h hsize hcapacity hI hlength hshould).2.mono ?_
    rintro ⟨result, s'⟩ hresult
    cases result with
    | error e => exact hresult
    | ok _ =>
      obtain ⟨⟨order', values', hgrowing, hsize', hcapacity', hretained⟩, hI'⟩ := hresult
      have hroom := h.room
      rw [length_nil] at hroom
      have hnil : s.table.mCapacity = 0 → order.length = 0 := fun hzero => by
        rw [(h.eq_nil_of_capacity hzero).1, length_nil]
      have hlength' := hretained.length_le
      rw [← h.length_eq, ← hgrowing.length_eq] at hlength'
      refine ⟨⟨order', values', hgrowing, hsize', by omega, hretained, by omega, by omega⟩, hI', ?_⟩
      exact hdoubled.grow (hshouldGrow.mp hshould) hcapacity'
  · intro hstays
    have hroom := h.room_of_stays (by unfold usedBucketCount; rw [h.deletedCount]; omega) hstays
    rw [length_nil] at hroom
    have hlarge : ¬ s.table.mCapacity * 60 ≤ (size + 1) * 100 := by
      rw [← hshouldGrow, hstays]
      decide
    exact ⟨⟨order, values, h, hsize, Nat.le_refl _, Retained.refl, by omega, hlength⟩, hI,
      .inr (.inl (Nat.lt_of_not_le hlarge))⟩
  · rintro s' ⟨⟨order', values', hgrowing, -, -, -, hroom, hlength'⟩, -⟩
    obtain ⟨i, hloop, -⟩ := lookupForWriting_spec hgrowing.toFilled (by rw [length_nil]; omega) value
    exact ⟨i, hloop⟩

theorem insertDuringRehash_spec (hsteady : Steady I)
    (h : Growing t s.table order values) (hsize : s.table.mSize = size) (hsmall : size < 2 ^ 32)
    (hcapacity : capacity ≤ s.table.mCapacity) (hI : I s) (hlength : order.length < size) {count : Nat}
    (hdoubled : Doubled size count s.table.mCapacity)
    (hdistinct : t.isOrdered = true → Distinct t (values ++ [value])) :
    Ensures allowed (fun s' => Grown t size s.table.mCapacity (values ++ [value]) s'.table ∧ I s' ∧
        Doubled size (count + 1) s'.table.mCapacity)
      (insertDuringRehash t rehash value s) := by
  have habort : ∀ e s', tryLookupForWriting t rehash value s = .ok (.error e, s') →
      allowed .abort := by
    intro e s' heq
    obtain ⟨hshould, hrehash⟩ := rehash_of_tryLookupForWriting heq
    exact (hgrows s order values h hsize hcapacity hI hlength hshould).1 e s' hrehash
  refine Ensures.bind
    (must_spec (beforeLookup_spec hgrows h hsize hsmall hcapacity hI hlength hdoubled) habort) ?_
  rintro ⟨i, s'⟩ ⟨⟨⟨order', values', hgrowing, hsize', hcapacity', hretained, hroom, hlength'⟩, hI',
    hdoubled'⟩, hloop⟩
  have hretained' : Retained t (values ++ [value]) (values' ++ [value]) := hretained.append Retained.refl
  obtain ⟨table', hput, ⟨order'', values'', hgrowing', hsize'', hcapacity'', hretained''⟩, hcounts⟩ :=
    putInto_spec hgrowing hroom (by omega) (by omega)
      (fun hordered => (hretained'.eq (hdistinct hordered) hordered).symm ▸ hdistinct hordered) hloop
  dsimp only
  rw [hput]
  refine ⟨⟨order'', values'', hgrowing', hsize''.trans hsize', hcapacity'.trans hcapacity'',
    hretained.append hretained''⟩, hsteady _ _ hcounts rfl hI', ?_⟩
  rw [hcounts.2.1]
  exact hdoubled'

/-! ## All elements -/

/-- The elements that an iterator over the old buckets visits are put into the new ones. -/
theorem reinsertLoop_spec {visited : List Nat} {read : List α} {fuel : Nat}
    {it : Option Nat} (hsteady : Steady I) (hiterates : Iterates t old it visited)
    (hread : visited.map (fun i => (old.mBuckets i).slot) = read.map some)
    (hfuel : visited.length ≤ fuel) (h : Growing t s.table order values)
    (hsize : s.table.mSize = size) (hsmall : size < 2 ^ 32) (hcapacity : capacity ≤ s.table.mCapacity)
    (hI : I s) (hlength : order.length + visited.length ≤ size) {count : Nat}
    (hdoubled : Doubled size count s.table.mCapacity)
    (hdistinct : t.isOrdered = true → Distinct t (values ++ read)) :
    Ensures allowed (fun s' => Grown t size s.table.mCapacity (values ++ read) s'.table ∧ I s' ∧
        Doubled size (count + visited.length) s'.table.mCapacity)
      (reinsertLoop t rehash old.mCapacity old.mBuckets fuel it s) := by
  induction visited generalizing read fuel it s order values count with
  | nil =>
    obtain rfl : it = none := hiterates
    obtain rfl : read = [] := (map_eq_nil_iff.mp hread.symm)
    rw [append_nil, reinsertLoop]
    exact ⟨⟨order, values, h, hsize, Nat.le_refl _, Retained.refl⟩, hI, hdoubled⟩
  | cons i visited ih =>
    obtain ⟨rfl, it', hnext, hiterates'⟩ := hiterates
    rw [map_cons] at hread
    obtain ⟨value, read, rfl, hslot, hread'⟩ := map_eq_cons_iff.mp hread.symm
    rw [length_cons] at hfuel hlength
    obtain ⟨fuel, rfl⟩ : ∃ n, fuel = n + 1 := ⟨fuel - 1, by omega⟩
    rw [append_cons] at hdistinct ⊢
    rw [reinsertLoop, ← hslot]
    refine Ensures.bind (insertDuringRehash_spec hgrows hsteady h hsize hsmall hcapacity hI
      (by omega) hdoubled fun hordered => (hdistinct hordered).of_append) ?_
    rintro s' ⟨⟨order', values', hgrowing, hsize', hcapacity', hretained⟩, hI', hdoubled'⟩
    rw [hnext]
    have hlength' := hretained.length_le
    rw [length_append, length_singleton, ← h.length_eq, ← hgrowing.length_eq] at hlength'
    refine (ih hiterates' hread'.symm (le_of_succ_le_succ hfuel) hgrowing hsize'
      (hcapacity.trans hcapacity') hI' (by omega) hdoubled' fun hordered => ?_).mono ?_
    · rw [hretained.eq (hdistinct hordered).of_append hordered]
      exact hdistinct hordered
    · rintro s'' ⟨⟨order'', values'', hgrowing', hsize'', hcapacity'', hretained'⟩, hI'', hdoubled''⟩
      rw [Nat.add_right_comm, Nat.add_assoc] at hdoubled''
      exact ⟨⟨order'', values'', hgrowing', hsize'', hcapacity'.trans hcapacity'',
        hretained.append hretained'⟩, hI'', hdoubled''⟩

end

/-- A capacity whose size does not overflow is allocated. -/
theorem le_goodCapacity {newCapacity : Nat} (hbytes : max newCapacity 4 * t.bucketSize < 2 ^ 64) :
    max newCapacity 4 ≤ goodCapacity t newCapacity := by
  rw [goodCapacity, Nat.le_div_iff_mul_le t.bucketSize_pos, mod_eq_of_lt hbytes]
  exact t.le_kmallocGoodSize _ hbytes

theorem rehashed_growing {newCapacity : Nat} (hbytes : newCapacity * t.bucketSize ≤ 2 ^ 57) :
    Growing t (rehashed t old newCapacity) [] [] := by
  have hfree : ∀ i < newCapacity, ((rehashed t old newCapacity).mBuckets i).state = .free := by
    intro i hi
    rw [rehashed]
    dsimp only
    rw [if_neg fun h => Nat.ne_of_lt hi h.2]
    rfl
  have hsentinel : t.isOrdered = false →
      ((rehashed t old newCapacity).mBuckets newCapacity).state = .endBucket := by
    intro hordered
    rw [rehashed]
    dsimp only
    rw [if_pos ⟨hordered, rfl⟩]
  have hfilled : Filled t (rehashed t old newCapacity) [] [] [] :=
    Filled.fresh hfree fun hordered _ => hsentinel hordered
  exact { hfilled with
    room := by
      rw [length_nil]
      exact (Nat.eq_zero_or_pos newCapacity).symm
    bytes := hbytes
    size_le := Nat.zero_le _
    deleted_le := Nat.zero_le _
    deletedCount := rfl
    chained := fun hordered => ⟨rfl, rfl, fun i _ => by
      rw [nextOf, previousOf, rehashed]
      dsimp only
      rw [if_neg fun h => absurd (hordered.symm.trans h.1) (by decide)]
      exact ⟨rfl, rfl⟩⟩
    distinct := fun _ => List.Pairwise.nil }

/-- Buckets that have been allocated fit into memory. -/
theorem kcalloc_bytes (hkcalloc : kcalloc (sizeInBytes t capacity % 2 ^ 64) s = true)
    (hsize : sizeInBytes t capacity < 2 ^ 64) : capacity * t.bucketSize ≤ 2 ^ 57 := by
  rw [kcalloc, and_eq_true, decide_eq_true_iff, mod_eq_of_lt hsize] at hkcalloc
  refine le_trans ?_ hkcalloc.2
  rw [sizeInBytes, Nat.mul_comm]
  split_ifs
  · exact Nat.le_refl _
  · exact Nat.mul_le_mul_left _ (le_succ _)

/-- The new buckets that are allocated first. -/
def newBuckets (t : HashTableType α) (s : TableState α) (newCapacity : Nat) : TableState α :=
  { table := rehashed t s.table (goodCapacity t newCapacity)
    allocations := s.allocations.rest }

/-- What is watched where new buckets are allocated: a size that overflows is allowed to stop the
program. -/
structure Opens (t : HashTableType α) (allowed : Crash → Prop) (I : TableState α → Prop)
    (newCapacity : Nat) (s : TableState α) : Prop where
  overflows : kcalloc (sizeInBytes t (goodCapacity t newCapacity) % 2 ^ 64) s = true →
    2 ^ 64 ≤ sizeInBytes t (goodCapacity t newCapacity) → allowed .fault
  succeeds : kcalloc (sizeInBytes t (goodCapacity t newCapacity) % 2 ^ 64) s = true →
    sizeInBytes t (goodCapacity t newCapacity) < 2 ^ 64 → I (newBuckets t s newCapacity)

/-- What is watched while elements are moved: there an allocation that fails is allowed to stop
the program, too. -/
structure Watches (t : HashTableType α) (allowed : Crash → Prop) (I : TableState α → Prop) :
    Prop where
  steady : Steady I
  fails : ∀ s, I s → 0 < s.table.mSize → s.table.shouldGrow = true →
    kcalloc (sizeInBytes t (goodCapacity t (2 * s.table.mCapacity)) % 2 ^ 64) s = false →
    allowed .abort
  opens : ∀ s, I s → 0 < s.table.mSize → s.table.shouldGrow = true → Opens t allowed I (2 * s.table.mCapacity) s

theorem opens_all {newCapacity : Nat} :
    Opens t (fun crash => crash ≠ .endless) (fun _ => True) newCapacity s :=
  ⟨fun _ _ => Crash.noConfusion, fun _ _ => trivial⟩

theorem watches_all : Watches t (fun crash => crash ≠ .endless) fun _ => True :=
  { steady := fun _ _ _ _ _ => trivial
    fails := fun _ _ _ _ _ => Crash.noConfusion
    opens := fun _ _ _ _ => opens_all }

theorem tryRehash_succ_spec {newCapacity : Nat} {deleted : List Nat}
    (hgrows : Grows t allowed I (tryRehash t depth) size (goodCapacity t newCapacity))
    (hsteady : Steady I) (hopens : Opens t allowed I newCapacity s)
    (h : Sound t s.table order deleted values)
    (hinOrder : InOrder t s.table order values) (hsize : s.table.mSize = size) (hsmall : size < 2 ^ 32)
    (hother : ¬ (newCapacity = s.table.mCapacity ∧ 4 ≤ newCapacity)) : Ensures allowed
      (OrUnchanged s fun _ s' => Grown t size (goodCapacity t newCapacity) values s'.table ∧ I s' ∧
        Doubled size order.length s'.table.mCapacity)
      (tryRehash t (depth + 1) newCapacity s) := by
  rw [tryRehash, if_neg hother]
  dsimp only
  split_ifs with hkcalloc hoverflow
  · exact rfl
  · exact hopens.overflows (not_eq_false _ ▸ hkcalloc) hoverflow
  rw [not_eq_false] at hkcalloc
  have hI' := hopens.succeeds hkcalloc (Nat.lt_of_not_le hoverflow)
  have hbytes := kcalloc_bytes hkcalloc (Nat.lt_of_not_le hoverflow)
  obtain ⟨visited, read, hiterates, hfilled, hvisited, hread, heq⟩ :=
    begin_iterates h.toFilled fun hordered => (hinOrder hordered).1
  have hlength : visited.length = order.length := hvisited.length_eq
  have hroom := h.room
  have hsizeLe := h.size_le
  have hnil : s.table.mCapacity = 0 → order.length = 0 := fun hzero => by
    rw [(h.eq_nil_of_capacity hzero).1, length_nil]
  have hnew : Growing t (TableState.mk (rehashed t s.table (goodCapacity t newCapacity))
      s.allocations.rest).table [] [] := rehashed_growing hbytes
  have hreinserted := reinsertLoop_spec hgrows hsteady hiterates hfilled.located
    (by omega : visited.length ≤ s.table.mCapacity + 1)
    hnew hsize hsmall (Nat.le_refl _) hI' (by rw [length_nil]; omega) (.inl rfl)
    (fun hordered => by rw [nil_append, (heq hordered).2]; exact (hinOrder hordered).2)
  refine Ensures.bind hreinserted ?_
  rintro s' ⟨⟨order', values', hgrowing, hsize', hcapacity', hretained⟩, hI'', hdoubled⟩
  rw [nil_append] at hretained
  rw [Nat.zero_add, hlength] at hdoubled
  refine ⟨⟨order', values', hgrowing, hsize', hcapacity', ?_, fun hall => ?_, fun hall hordered => ?_⟩,
    hI'', hdoubled⟩
  · rw [← hread.length_eq]
    exact hretained.length_le
  · exact (hretained.perm (hall.perm hread)).trans hread
  · rw [hretained.eq (hall.perm hread) hordered, (heq hordered).2]

theorem le_goodCapacity_double {table : HashTable α} (hbytes : table.mCapacity * t.bucketSize ≤ 2 ^ 57) :
    max (2 * table.mCapacity) 4 ≤ goodCapacity t (2 * table.mCapacity) := by
  have hbucketSize := t.bucketSize_lt
  refine le_goodCapacity ?_
  rcases Nat.le_total (2 * table.mCapacity) 4 with hfew | hmany
  · rw [Nat.max_eq_right hfew]
    omega
  · rw [Nat.max_eq_left hmany, Nat.mul_assoc]
    omega

theorem tryRehash_double_spec {deleted : List Nat}
    (hgrows : Grows t allowed I (tryRehash t depth) size (goodCapacity t (2 * s.table.mCapacity)))
    (hsteady : Steady I) (hopens : Opens t allowed I (2 * s.table.mCapacity) s)
    (h : Sound t s.table order deleted values) (hinOrder : InOrder t s.table order values)
    (hsize : s.table.mSize = size) (hsmall : size < 2 ^ 32) : Ensures allowed
      (OrUnchanged s fun _ s' =>
        Grown t size (max (2 * s.table.mCapacity) 4) values s'.table ∧ I s')
      (tryRehash t (depth + 1) (s.table.mCapacity * 2 % 2 ^ 64) s) := by
  have hle := capacity_le h.bytes
  have hdouble : s.table.mCapacity * 2 % 2 ^ 64 = 2 * s.table.mCapacity := by
    rw [mod_eq_of_lt (by omega), Nat.mul_comm]
  rw [hdouble]
  refine (tryRehash_succ_spec hgrows hsteady hopens h hinOrder hsize hsmall (by omega)).mono ?_
  rintro ⟨result, s'⟩ hresult
  cases result with
  | error e => exact hresult
  | ok _ =>
    obtain ⟨⟨order', values', hgrowing, hsize', hcapacity', hretained⟩, hI', -⟩ := hresult
    exact ⟨⟨order', values', hgrowing, hsize', (le_goodCapacity_double h.bytes).trans hcapacity',
      hretained⟩, hI'⟩

theorem kcalloc_of_tryRehash {newCapacity : Nat}
    (hother : ¬ (newCapacity = s.table.mCapacity ∧ 4 ≤ newCapacity))
    (h : tryRehash t (depth + 1) newCapacity s = .ok (.error e, s')) :
    kcalloc (sizeInBytes t (goodCapacity t newCapacity) % 2 ^ 64) s = false ∧ e = .enomem := by
  rw [tryRehash, if_neg hother] at h
  dsimp only at h
  split_ifs at h with hkcalloc hoverflow
  · cases h
    exact ⟨hkcalloc, rfl⟩
  · cases hloop : reinsertLoop t (tryRehash t depth) s.table.mCapacity s.table.mBuckets
        (s.table.mCapacity + 1) (begin t s.table) (newBuckets t s newCapacity) with
    | error crash =>
      rw [newBuckets] at hloop
      rw [hloop] at h
      cases h
    | ok s'' =>
      rw [newBuckets] at hloop
      rw [hloop] at h
      cases h

/-- No capacity is asked for twice, and not many are. -/
theorem tryRehash_grows (hwatches : Watches t allowed I) (hsmall : size < 2 ^ 32)
    (hdepth : 2 * (size + 1) ≤ depth + capacity) :
    Grows t allowed I (tryRehash t depth) size capacity := by
  induction depth generalizing capacity with
  | zero =>
    intro s order values h hsize hcapacity hI hlength hshould
    rw [shouldGrow_iff h.bytes (by unfold usedBucketCount; rw [h.deletedCount]; omega),
      usedBucketCount, h.deletedCount] at hshould
    omega
  | succ depth ih =>
    intro s order values h hsize hcapacity hI hlength hshould
    have hpos : 0 < s.table.mSize := by omega
    have hgood := le_goodCapacity_double h.bytes
    have hle := capacity_le h.bytes
    refine ⟨fun e s' herror => hwatches.fails s hI hpos hshould ?_, tryRehash_double_spec
      (ih (by omega)) hwatches.steady (hwatches.opens s hI hpos hshould) h.toSound
      (fun hordered => ⟨(h.chained hordered).forward, h.distinct hordered⟩) hsize hsmall⟩
    rw [Nat.mul_comm, ← mod_eq_of_lt (by omega : s.table.mCapacity * 2 < 2 ^ 64)]
    refine (kcalloc_of_tryRehash ?_ herror).1
    rw [mod_eq_of_lt (by omega)]
    omega

end HashTable

end Literate.AK

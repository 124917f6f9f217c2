import Mathlib.Data.Set.Function
import Literate.AK.HashTableOperations
import Literate.Foundation.Run

/-!
# AK: runs of a hash table

A run is any sequence of operations on a table that is empty in the beginning, whatever the
allocations come to.  A bucket is free after each of them, and the lookups end, as long as
there are fewer buckets in use than hashes and the links of an ordered table go through its
buckets.  Rehashing an ordered table in place may exchange two buckets that are linked to each
other, and then the links go round.
-/

namespace Literate.AK

open Foundation List

variable {α : Type}

/-- What `TraitsForT` promises. -/
structure Lawful (t : HashTableType α) : Prop where
  refl : ∀ a, t.equals a a = true
  symm : ∀ a b, t.equals a b = true → t.equals b a = true
  trans : ∀ a b c, t.equals a b = true → t.equals b c = true → t.equals a c = true
  hash_eq : ∀ a b, t.equals a b = true → t.hash a = t.hash b

/-- The operations of a table.  An iterator is one of the table's buckets. -/
inductive HashTableOperation (α : Type) where
  | trySet (value : α) (existingEntryBehavior : HashSetExistingEntryBehavior)
  | set (value : α) (existingEntryBehavior : HashSetExistingEntryBehavior)
  | tryEnsureCapacity (capacity : Nat)
  | ensureCapacity (capacity : Nat)
  | remove (value : α)
  | removeAt (iterator : Nat)
  | removeAllMatching (predicate : α → Bool)

namespace HashTable

/-- An operation, without what it returns. -/
def perform (t : HashTableType α) (s : TableState α) :
    HashTableOperation α → Except Crash (TableState α)
  | .trySet value behavior => do
      let (_, s) ← trySet t value behavior s
      return s
  | .set value behavior => do
      let (_, s) ← set t value behavior s
      return s
  | .tryEnsureCapacity capacity => do
      let (_, s) ← tryEnsureCapacity t capacity s
      return s
  | .ensureCapacity capacity => do
      let (_, s) ← ensureCapacity t capacity s
      return s
  | .remove value => do
      let (table, _) ← remove t s.table value
      return { s with table := table }
  | .removeAt iterator =>
    if s.table.mCapacity ≤ iterator then .error .fault
    else do
      let table ← removeAt t s.table iterator
      return { s with table := table }
  | .removeAllMatching predicate => do
      let (table, _) ← removeAllMatching t s.table predicate
      return { s with table := table }

/-- A step of a run.  The program is over where an operation stops it. -/
def step (t : HashTableType α) (s : TableState α) (op : HashTableOperation α) :
    Option (TableState α) :=
  (perform t s op).toOption

/-- A table with nothing in it, before some allocations. -/
def start (allocations : Allocations) : TableState α :=
  { table := empty, allocations := allocations }

end HashTable

/-! ## Elements -/

/-- The elements are different, and counted. -/
def Counted (t : HashTableType α) (table : HashTable α) (values : List α) : Prop :=
  Distinct t values ∧ table.mSize = values.length

/-- A table with room, in which the elements are different when the traits are lawful. -/
def Loaded (t : HashTableType α) (table : HashTable α) : Prop :=
  ∃ order deleted values, Sound t table order deleted values ∧ (Lawful t → Counted t table values)

/-- The links of an ordered table go through its used buckets. -/
def LinksThrough (table : HashTable α) : Prop :=
  ∃ order, Linked (nextOf table) table.mHead order ∧
    ∀ i, i ∈ order ↔ i < table.mCapacity ∧ (table.mBuckets i).state = .used

/-- There are fewer buckets in use than hashes, and the links of an ordered table are in order. -/
structure Intact (t : HashTableType α) (table : HashTable α) : Prop where
  count : table.usedBucketCount < 2 ^ 32
  lawful : t.isOrdered = true → Lawful t
  links : t.isOrdered = true → LinksThrough table

theorem intact_of_unordered {t : HashTableType α} {table : HashTable α}
    (hordered : t.isOrdered = false) (hcount : table.usedBucketCount < 2 ^ 32) : Intact t table :=
  ⟨hcount, fun htrue => absurd (hordered.symm.trans htrue) (by decide),
    fun htrue => absurd (hordered.symm.trans htrue) (by decide)⟩

section

variable {t : HashTableType α} {s s' : TableState α} {table : HashTable α}
  {order deleted : List Nat} {values values' : List α} {value : α}

theorem loaded_empty : Loaded t (HashTable.empty : HashTable α) := by
  refine ⟨[], [], [], ?_, fun _ => ⟨List.Pairwise.nil, rfl⟩⟩
  have hfilled : Filled t (HashTable.empty : HashTable α) [] [] [] :=
    Filled.fresh (fun i hi => absurd hi (Nat.not_lt_zero i)) fun _ hpos => absurd hpos (Nat.lt_irrefl 0)
  exact { hfilled with
    room := .inr rfl
    bytes := by
      rw [HashTable.empty]
      dsimp only
      omega
    size_le := Nat.le_refl 0
    deleted_le := Nat.le_refl 0 }

/-- Counts that are right do not depend on the order in which the elements are listed. -/
theorem Sound.reorder (h : Sound t table order deleted values) {visited : List Nat} {read : List α}
    (hfilled : Filled t table visited deleted read) (hvisited : visited.Perm order) :
    Sound t table visited deleted read :=
  { hfilled with
    room := hvisited.length_eq ▸ h.room
    bytes := h.bytes
    size_le := hvisited.length_eq ▸ h.size_le
    deleted_le := h.deleted_le }

theorem Counted.perm (h : Counted t table values) {read : List α} (hread : read.Perm values) :
    Counted t table read :=
  ⟨h.1.perm hread, h.2.trans hread.length_eq.symm⟩

theorem Counted.mSize_eq_zero (h : Counted t table values) (hsound : Sound t table order deleted values)
    (hzero : table.mCapacity = 0) : table.mSize = 0 := by
  rw [h.2, ← hsound.length_eq, (hsound.eq_nil_of_capacity hzero).1, length_nil]

/-- The buckets of a table that is intact can be listed in the order of the links. -/
theorem Intact.inOrder (h : Intact t table) (hloaded : Loaded t table) :
    ∃ order deleted values, Sound t table order deleted values ∧ InOrder t table order values ∧
      (Lawful t → Counted t table values) := by
  obtain ⟨order, deleted, values, hsound, hcounted⟩ := hloaded
  cases hordered : t.isOrdered with
  | false =>
    exact ⟨order, deleted, values, hsound,
      fun htrue => absurd (hordered.symm.trans htrue) (by decide), hcounted⟩
  | true =>
    obtain ⟨linked, hlinked, hmem⟩ := h.links hordered
    have hperm : linked.Perm order :=
      (perm_ext_iff_of_nodup hlinked.nodup hsound.nodup).mpr fun i => by
        rw [hmem, hsound.used_iff]
    obtain ⟨read, hread⟩ := exists_values hsound.toFilled fun i hi => hperm.mem_iff.mp hi
    obtain ⟨hfilled, hvalues⟩ := hsound.toFilled.reorder hperm hread
    have hcounted' : Counted t table read := (hcounted (h.lawful hordered)).perm hvalues
    exact ⟨linked, deleted, read, hsound.reorder hfilled hperm,
      fun _ => ⟨hlinked, hcounted'.1⟩, fun _ => hcounted'⟩

theorem Lawful.equals_comm (h : Lawful t) (a b : α) : t.equals a b = t.equals b a :=
  Bool.eq_iff_iff.mpr ⟨h.symm a b, h.symm b a⟩

variable {behavior : HashSetExistingEntryBehavior} {result : HashSetResult}

section

variable (h : SetsTo t value behavior result values values')

include h

/-- `try_set` keeps the elements different. -/
theorem SetsTo.distinct (hlawful : Lawful t)
    (hdistinct : Distinct t values) : Distinct t values' := by
  cases h with
  | inserted hnew =>
    have hdifferent : ∀ other ∈ values, t.equals other value = false := by
      intro other hother
      rw [← Bool.not_eq_true]
      intro hequals
      have hfalse := hnew other hother (hlawful.hash_eq other value hequals)
      rw [hequals] at hfalse
      exact Bool.noConfusion hfalse
    refine pairwise_append.mpr ⟨hdistinct, pairwise_singleton _ _, fun a ha b hb => ?_⟩
    rw [mem_singleton.mp hb]
    exact ⟨hdifferent a ha, (hlawful.equals_comm value a).trans (hdifferent a ha)⟩
  | kept _ => exact hdistinct
  | replaced hequals =>
    rename_i before after old
    have hother : ∀ other, t.equals other old = false → t.equals other value = false := by
      intro other hfalse
      rw [← Bool.not_eq_true] at hfalse ⊢
      exact fun htrue => hfalse (hlawful.trans other value old htrue (hlawful.symm old value hequals))
    have hboth : ∀ other, t.equals other old = false → t.equals other value = false ∧
        t.equals value other = false := fun other hfalse =>
      ⟨hother other hfalse, (hlawful.equals_comm value other).trans (hother other hfalse)⟩
    obtain ⟨hbefore, hafter, hcross⟩ := pairwise_append.mp hdistinct
    obtain ⟨hold, hrest⟩ := pairwise_cons.mp hafter
    refine pairwise_append.mpr ⟨hbefore, pairwise_cons.mpr ⟨fun b hb => ?_, hrest⟩,
      fun a ha b hb => ?_⟩
    · obtain ⟨hfalse, hfalse'⟩ := hboth b (hold b hb).2
      exact ⟨hfalse', hfalse⟩
    · rcases mem_cons.mp hb with rfl | hb
      · exact hboth a (hcross a ha old mem_cons_self).1
      · exact hcross a ha b (mem_cons_of_mem old hb)

/-- `try_set` counts a new element. -/
theorem SetsTo.length :
    values'.length = values.length + if result = .insertedNewEntry then 1 else 0 := by
  cases h with
  | inserted _ => rw [length_append, length_singleton, if_pos rfl]
  | kept _ => rfl
  | replaced _ => simp only [length_append]; rfl

end

theorem Distinct.sublist (h : Distinct t values) (hsublist : values'.Sublist values) :
    Distinct t values' := List.Pairwise.sublist hsublist h

theorem Counted.without {table' : HashTable α} {before after : List α}
    (h : Counted t table (before ++ value :: after)) (hsize : table'.mSize + 1 = table.mSize) :
    Counted t table' (before ++ after) := by
  refine ⟨h.1.sublist ((sublist_cons_self _ _).append_left before), ?_⟩
  have hlength := h.2
  rw [length_append, length_cons] at hlength
  rw [length_append]
  omega

/-! ## Steps -/

namespace HashTable

section

variable (h : Loaded t s.table)

include h

theorem trySet_loaded (hintact : Intact t s.table) (value : α)
    (behavior : HashSetExistingEntryBehavior) :
    Ends (OrUnchanged s fun _ s' => Loaded t s'.table) (trySet t value behavior s) := by
  obtain ⟨order, deleted, values, hsound, hinOrder, hcounted⟩ := hintact.inOrder h
  refine (trySet_spec watches_all (fun _ => opens_all) hsound hinOrder
    (fun _ => .inr Crash.noConfusion) hintact.count value behavior).mono ?_
  rintro ⟨result, s'⟩ hresult
  cases result with
  | error e => exact hresult
  | ok result =>
    obtain ⟨order', deleted', middle, values', hsound', hretained, hsets, hsize', -⟩ := hresult
    refine ⟨order', deleted', values', hsound', fun hlawful => ?_⟩
    obtain ⟨hdistinct, hsize⟩ := hcounted hlawful
    have hperm := hretained.perm hdistinct
    refine ⟨hsets.distinct hlawful (hdistinct.perm hperm), ?_⟩
    rw [hsize', hsets.length, hperm.length_eq, hsize]

theorem tryEnsureCapacity_loaded (hintact : Intact t s.table) (capacity : Nat) :
    Ends (OrUnchanged s fun _ s' => Loaded t s'.table) (tryEnsureCapacity t capacity s) := by
  obtain ⟨order, deleted, values, hsound, hinOrder, hcounted⟩ := hintact.inOrder h
  unfold tryEnsureCapacity
  split_ifs
  · exact Crash.noConfusion
  refine (tryRehash_spec watches_all opens_all hsound hinOrder hintact.count).mono ?_
  rintro ⟨result, s'⟩ hresult
  cases result with
  | error e => exact hresult
  | ok result =>
    obtain ⟨order', values', hsound', hsize', -, hretained, -⟩ := hresult
    refine ⟨order', [], values', hsound', fun hlawful => ?_⟩
    obtain ⟨hdistinct, hsize⟩ := hcounted hlawful
    have hperm := hretained.perm hdistinct
    exact ⟨hdistinct.perm hperm, hsize'.trans (hsize.trans hperm.length_eq.symm)⟩

theorem loaded_of_orUnchanged {β : Type} {r : ErrorOr β × TableState α}
    (hr : OrUnchanged s (fun _ s' => Loaded t s'.table) r) : Loaded t r.2.table := by
  obtain ⟨result, s'⟩ := r
  cases result with
  | error e =>
    rw [show s'.table = s.table from hr]
    exact h
  | ok b => exact hr

theorem perform_loaded (hintact : Intact t s.table) (op : HashTableOperation α) :
    Ends (fun s' => Loaded t s'.table) (perform t s op) := by
  cases op with
  | trySet value behavior =>
    exact Ensures.bind (trySet_loaded h hintact value behavior) fun r hr => loaded_of_orUnchanged h hr
  | set value behavior =>
    exact Ensures.bind (must_spec (trySet_loaded h hintact value behavior)
      fun _ _ _ => Crash.noConfusion) fun r hr => hr
  | tryEnsureCapacity capacity =>
    exact Ensures.bind (tryEnsureCapacity_loaded h hintact capacity)
      fun r hr => loaded_of_orUnchanged h hr
  | ensureCapacity capacity =>
    exact Ensures.bind (must_spec (tryEnsureCapacity_loaded h hintact capacity)
      fun _ _ _ => Crash.noConfusion) fun r hr => hr
  | remove value =>
    obtain ⟨order, deleted, values, hsound, hcounted⟩ := h
    refine Ensures.bind (remove_spec hsound hintact.count (fun _ => .inr Crash.noConfusion) value) ?_
    rintro ⟨table, removed⟩
      (⟨hr, -⟩ | ⟨-, order', deleted', before, old, after, rfl, -, hsound', hsize', -⟩)
    · obtain ⟨rfl, rfl⟩ := Prod.mk.inj hr
      exact ⟨order, deleted, values, hsound, hcounted⟩
    · exact ⟨order', deleted', before ++ after, hsound', fun hlawful =>
        (hcounted hlawful).without hsize'⟩
  | removeAt iterator =>
    obtain ⟨order, deleted, values, hsound, hcounted⟩ := h
    rw [perform]
    split_ifs with hiterator
    · exact Crash.noConfusion
    by_cases hmem : iterator ∈ order
    · obtain ⟨table', order', deleted', before, value, after, hremove, rfl, -, hsound', hsize', -⟩ :=
        removeAt_spec hsound (hsound.length_le_of_count hintact.count) hmem
      rw [hremove]
      exact ⟨order', deleted', before ++ after, hsound', fun hlawful =>
        (hcounted hlawful).without hsize'⟩
    · rw [removeAt_of_notMem hsound (Nat.lt_of_not_le hiterator) hmem]
      exact Crash.noConfusion
  | removeAllMatching predicate =>
    obtain ⟨order, deleted, values, hsound, hcounted⟩ := h
    obtain ⟨table', removed, order', deleted', hremove, hsound', hsize', -⟩ :=
      removeAllMatching_spec hsound hintact.count predicate
    rw [perform, hremove]
    refine ⟨order', deleted', _, hsound', fun hlawful => ?_⟩
    obtain ⟨hdistinct, hsize⟩ := hcounted hlawful
    refine ⟨hdistinct.sublist filter_sublist, ?_⟩
    dsimp only
    omega

end

end HashTable

end

/-! ## Lookups -/

namespace HashTable

theorem ok_of_step {t : HashTableType α} {s s' : TableState α} {op : HashTableOperation α}
    (h : step t s op = some s') : perform t s op = .ok s' := by
  unfold step at h
  cases hperform : perform t s op with
  | error crash =>
    rw [hperform] at h
    cases h
  | ok s'' =>
    rw [hperform] at h
    exact congrArg Except.ok (Option.some.inj h)

/-- `lookup_with_hash` and `try_lookup_for_writing` end, for every hash and every value. -/
def LookupsEnd (t : HashTableType α) (s : TableState α) : Prop :=
  (∀ hash < 2 ^ 32, ∀ predicate, s.table.lookupWithHash hash predicate ≠ .error .endless) ∧
    ∀ value, tryLookupForWriting t (tryRehash t maxDepth) value s ≠ .error .endless

/-- At least one bucket is free, if there are any. -/
def HasFree (table : HashTable α) : Prop :=
  0 < table.mCapacity → ∃ i < table.mCapacity, (table.mBuckets i).state = .free

theorem bijOn_doubleHash : Set.BijOn doubleHash {x | x < 2 ^ 32} {x | x < 2 ^ 32} := by
  have hmaps : Set.MapsTo doubleHash {x | x < 2 ^ 32} {x | x < 2 ^ 32} := fun _ => doubleHash_lt
  have hsurj : Set.SurjOn doubleHash {x | x < 2 ^ 32} {x | x < 2 ^ 32} := by
    intro y hy
    obtain ⟨k, -, hk⟩ := exists_iterate_doubleHash (hmaps hy) hy
    refine ⟨doubleHash^[k] y, hmaps.iterate k hy, ?_⟩
    exact (Function.iterate_succ_apply' doubleHash k y).symm.trans hk
  have hrange : ((Finset.range (2 ^ 32) : Finset Nat) : Set Nat) = {x | x < 2 ^ 32} := by
    ext x
    exact Finset.mem_range
  refine ⟨hmaps, ?_, hsurj⟩
  rw [← hrange] at hmaps hsurj ⊢
  exact Finset.injOn_of_surjOn_of_card_le doubleHash hmaps hsurj (Nat.le_refl _)

theorem lookupsEnd_of_loaded {t : HashTableType α} {s : TableState α} (h : Loaded t s.table)
    (hintact : Intact t s.table) : HasFree s.table ∧ LookupsEnd t s := by
  obtain ⟨order, deleted, values, hsound, hinOrder, -⟩ := hintact.inOrder h
  refine ⟨fun hpos => ?_, fun hash hhash predicate => ?_, fun value => ?_⟩
  · obtain ⟨i, hi, -, hfree⟩ := hsound.exists_free (hsound.exists_free_bucket hpos hintact.count)
    exact ⟨i, hi, hfree⟩
  · have hends : Ensures (fun crash => crash ≠ .endless) _ (s.table.lookupWithHash hash predicate) :=
      lookupWithHash_ensures hsound hintact.count (fun _ => .inr Crash.noConfusion) hhash predicate
    exact hends.ne_error fun hne => hne rfl
  · exact (lookup_ready watches_all (fun _ => opens_all) hsound hinOrder hintact.count
      value).ne_error fun hne => hne rfl

/-- Every state of a run that keeps the table intact is loaded. -/
theorem always_loaded {t : HashTableType α} {s : TableState α} {ops : List (HashTableOperation α)}
    (h : Loaded t s.table) (hintact : Always (step t) (fun s => Intact t s.table) s ops) :
    Always (step t) (fun s => Loaded t s.table ∧ Intact t s.table) s ops := by
  induction ops generalizing s with
  | nil => exact ⟨h, hintact⟩
  | cons op ops ih =>
    refine ⟨⟨h, hintact.1⟩, fun s' hs' => ih ?_ (hintact.2 s' hs')⟩
    exact (perform_loaded h hintact.1 op).of_ok (ok_of_step hs')

/-- The probes get everywhere, and in a run that keeps the table intact a bucket stays free and
every lookup ends. -/
theorem lookups_end (t : HashTableType α) :
    (Set.BijOn doubleHash {x | x < 2 ^ 32} {x | x < 2 ^ 32} ∧
      ∀ x < 2 ^ 32, ∀ y < 2 ^ 32, ∃ k < 2 ^ 32, doubleHash^[k] x = y) ∧
    (∀ capacity, 0 < capacity → capacity ≤ 2 ^ 32 → ∀ hash < 2 ^ 32, ∀ i < capacity,
      ∃ k < 2 ^ 32, doubleHash^[k] hash % capacity = i) ∧
    ∀ allocations ops, Always (step t) (fun s => Intact t s.table) (start allocations) ops →
      Always (step t) (fun s => HasFree s.table ∧ LookupsEnd t s) (start allocations) ops := by
  refine ⟨⟨bijOn_doubleHash, fun x hx y hy => exists_iterate_doubleHash hx hy⟩,
    fun capacity _ hcapacity hash hhash i hi => ?_, fun allocations ops hintact => ?_⟩
  · exact cyclic_doubleHash.exists_place hhash hi (Nat.lt_of_lt_of_le hi hcapacity)
  · have hloaded : Always (step t) (fun s => Loaded t s.table ∧ Intact t s.table)
        (start allocations) ops := always_loaded loaded_empty hintact
    exact hloaded.mono fun s hs => lookupsEnd_of_loaded hs.1 hs.2

/-- Integers in an unordered table, which are their own hashes. -/
def ownHash : HashTableType Nat :=
  { hash := fun value => value % 2 ^ 32
    equals := fun a b => a = b
    isOrdered := false
    bucketSize := 8
    kmallocGoodSize := id
    hash_lt := fun _ => Nat.mod_lt _ (by decide)
    bucketSize_pos := by decide
    bucketSize_lt := by decide
    le_kmallocGoodSize := fun _ _ => Nat.le_refl _ }

/-- A table that grows before the third element is put into it. -/
theorem lookups_end_grown : ∃ s, run (step ownHash) (start fun _ => true)
        [.set 1 .replace, .set 5 .keep, .set 2 .replace, .remove 5] = some s ∧
      HasFree s.table ∧ LookupsEnd ownHash s := by
  have heach : Each (step ownHash) (fun s _ => s.table.usedBucketCount < 2 ^ 32)
      (start fun _ => true) [.set 1 .replace, .set 5 .keep, .set 2 .replace, .remove 5] := by
    decide
  have hrun : (run (step ownHash) (start fun _ => true)
      [.set 1 .replace, .set 5 .keep, .set 2 .replace, .remove 5]).map (fun s =>
        decide (s.table.usedBucketCount < 2 ^ 32)) = some true := by
    decide
  obtain ⟨s, hs, hlast⟩ := Option.map_eq_some_iff.mp hrun
  have hintact : Always (step ownHash) (fun s => Intact ownHash s.table) (start fun _ => true)
      [.set 1 .replace, .set 5 .keep, .set 2 .replace, .remove 5] :=
    (Always.of_each_last heach hs (of_decide_eq_true hlast)).mono fun _ hcount =>
      intact_of_unordered rfl hcount
  exact ⟨s, hs, always_iff.mp ((lookups_end ownHash).2.2 _ _ hintact) _ s (prefix_refl _) hs⟩

/-- Integers in an ordered table, of which all have the same hash. -/
def oneHash : HashTableType Nat :=
  { hash := fun _ => 0x20001
    equals := fun a b => a = b
    isOrdered := true
    bucketSize := 24
    kmallocGoodSize := id
    hash_lt := fun _ => by decide
    bucketSize_pos := by decide
    bucketSize_lt := by decide
    le_kmallocGoodSize := fun _ _ => Nat.le_refl _ }

/-- Two elements, of which the second one is in the first bucket, and a rehash in place. -/
def exchangedLinks : List (HashTableOperation Nat) :=
  [.set 0 .replace, .set 1 .replace, .ensureCapacity 2]

/-- A program that goes on forever. -/
def isEndless {β : Type} : Except Crash β → Bool
  | .error .endless => true
  | .error .abort | .error .fault | .ok _ => false

theorem eq_endless {β : Type} {r : Except Crash β} (h : isEndless r = true) : r = .error .endless := by
  cases r with
  | ok b => cases h
  | error crash =>
    cases crash with
    | endless => rfl
    | abort => cases h
    | fault => cases h

theorem not_lookups_end :
    ¬ ∀ (t : HashTableType Nat) allocations ops s, run (step t) (start allocations) ops = some s →
      ∀ value, tryLookupForWriting t (tryRehash t maxDepth) value s ≠ .error .endless := by
  intro h
  have hrun : (run (step oneHash) (start fun _ => true) exchangedLinks).any (fun s =>
      isEndless (tryLookupForWriting oneHash (tryRehash oneHash maxDepth) 2 s)) = true := by
    decide
  cases hs : run (step oneHash) (start fun _ => true) exchangedLinks with
  | none =>
    rw [hs] at hrun
    cases hrun
  | some s =>
    rw [hs] at hrun
    exact h oneHash (fun _ => true) exchangedLinks s hs 2 (eq_endless hrun)

end HashTable

end Literate.AK

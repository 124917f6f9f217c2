import Mathlib.Data.Finset.Card
import Literate.AK.HashMapHash
import Literate.AK.HashTableAllocation

/-!
# AK: hash tables are finite maps

What an unordered table stores is a map from the classes of equal elements to elements.  Every
operation, copying among them, does to the table what it does to the map, as long as its
allocations succeed and fewer buckets are in use than there are hashes: a table with more of them
has no bucket for another element that a lookup could get to.
-/

namespace Literate.AK

open Foundation List Option

variable {α β : Type}

/-- What a program does with a table: an operation, or it goes on with a copy. -/
inductive HashTableAction (α : Type) where
  | operation (op : HashTableOperation α)
  | copy

/-! ## Copying -/

namespace HashTable

/-- The loop of the copy constructor over the elements of the other table. -/
def copyLoop (t : HashTableType α) (other : HashTable α) :
    (fuel : Nat) → (it : Option Nat) → TableState α → Except Crash (TableState α)
  | _, none, s => .ok s
  | 0, some _, _ => .error .endless
  | fuel + 1, some i, s =>
    match (other.mBuckets i).slot with
    | none => .error .fault
    | some value => do
        let (_, s) ← set t value .replace s
        let it ← next t other.mBuckets other.mCapacity i
        copyLoop t other fuel it s

/-- `HashTable(HashTable const& other)`. -/
def copy (t : HashTableType α) (s : TableState α) : Except Crash (TableState α) := do
  let other := s.table
  let (_, s) ← must (tryRehash t maxDepth other.mCapacity (start s.allocations))
  copyLoop t other (other.mCapacity + 1) (begin t other) s

/-- An action, without what it returns. -/
def act (t : HashTableType α) (s : TableState α) : HashTableAction α → Except Crash (TableState α)
  | .operation op => perform t s op
  | .copy => copy t s

end HashTable

/-! ## Maps -/

/-- A map from the classes of equal elements to the elements that are stored. -/
abbrev ElementMap (α : Type) := α → Option α

namespace ElementMap

/-- An element is set: it takes the place of an equal one, unless that one is kept. -/
def set (t : HashTableType α) (stored : ElementMap α) (value : α) :
    HashSetExistingEntryBehavior → ElementMap α
  | .keep => fun v => if t.equals v value = true then some ((stored v).getD value) else stored v
  | .replace => fun v => if t.equals v value = true then some value else stored v

/-- The class of an element is removed. -/
def remove (t : HashTableType α) (stored : ElementMap α) (value : α) : ElementMap α :=
  fun v => if t.equals v value = true then none else stored v

/-- The classes are removed whose elements match. -/
def removeAllMatching (stored : ElementMap α) (predicate : α → Bool) : ElementMap α :=
  fun v => (stored v).filter fun value => !predicate value

/-- What an action does to the map.  An iterator stands for the element it is at. -/
def after (t : HashTableType α) (table : HashTable α) (stored : ElementMap α) :
    HashTableAction α → ElementMap α
  | .operation (.trySet value behavior) => set t stored value behavior
  | .operation (.set value behavior) => set t stored value behavior
  | .operation (.tryEnsureCapacity _) => stored
  | .operation (.ensureCapacity _) => stored
  | .operation (.remove value) => remove t stored value
  | .operation (.removeAt iterator) =>
    match (table.mBuckets iterator).slot with
    | some value => remove t stored value
    | none => stored
  | .operation (.removeAllMatching predicate) => removeAllMatching stored predicate
  | .copy => stored

end ElementMap

/-- A table is the map: a lookup finds the element that is stored for a class and no other one,
and the elements are those that a loop over the table goes through, once, and that `size()`
counts. -/
structure IsMap (t : HashTableType α) (table : HashTable α) (stored : ElementMap α) : Prop where
  classes : ∀ v w, t.equals v w = true → stored v = stored w
  find : ∀ v, ∃ it, table.find t v = .ok it ∧ (it = none ↔ stored v = none) ∧
    ∀ i, it = some i → (table.mBuckets i).slot = stored v
  elements : ∃ values, Distinct t values ∧ (∀ v, v ∈ values ↔ stored v = some v) ∧
    table.mSize = values.length ∧
    ∀ (β : Type) (f : β → α → β) (b : β), table.forEach t f b = .ok (values.foldl f b)

/-! ## What is asked of an action -/

namespace HashTable

/-- The allocation that an element may need succeeds. -/
def AllocatesNext (t : HashTableType α) (s : TableState α) : Prop :=
  s.table.shouldGrow = true → Allocates t (2 * s.table.mCapacity) s

instance (t : HashTableType α) (s : TableState α) : Decidable (AllocatesNext t s) :=
  inferInstanceAs (Decidable (_ → _))

/-- The allocations of an operation succeed. -/
def AllocatesFor (t : HashTableType α) (s : TableState α) : HashTableOperation α → Prop
  | .trySet _ _ => AllocatesNext t s
  | .set _ _ => AllocatesNext t s
  | .tryEnsureCapacity capacity => AllocatesCapacity (capacity * 2 % 2 ^ 64)
  | .ensureCapacity capacity => AllocatesCapacity (capacity * 2 % 2 ^ 64)
  | .remove _ => True
  | .removeAt _ => True
  | .removeAllMatching _ => True
where
  /-- New buckets are allocated, and others while the elements do not fit into them. -/
  AllocatesCapacity (newCapacity : Nat) : Prop :=
    (newCapacity = s.table.mCapacity ∧ 4 ≤ newCapacity) ∨
      (Allocates t newCapacity s ∧
        (0 < s.table.mSize → ¬ GrowthFails t (newBuckets t s newCapacity)))

/-- The allocations of a copy succeed: of its buckets, and while the elements are set one after
the other. -/
def AllocatesCopy (t : HashTableType α) (s : TableState α) : Prop :=
  Allocates t s.table.mCapacity (start s.allocations) ∧
    ∀ values ∈ (s.table.forEach t (fun list value => list ++ [value]) []).toOption,
      Each (step t) (fun s _ => AllocatesNext t s)
        (newBuckets t (start s.allocations) s.table.mCapacity)
        (values.map fun value => .set value .replace)

instance (t : HashTableType α) (s : TableState α) : Decidable (AllocatesCopy t s) :=
  inferInstanceAs (Decidable (_ ∧ ∀ _ ∈ _, _))

/-- What a caller has to see to, and the allocations succeed. -/
def Permitted (t : HashTableType α) (s : TableState α) : HashTableAction α → Prop
  | .operation (.tryEnsureCapacity capacity) =>
    s.table.mSize ≤ capacity ∧ AllocatesFor t s (.tryEnsureCapacity capacity)
  | .operation (.ensureCapacity capacity) =>
    s.table.mSize ≤ capacity ∧ AllocatesFor t s (.ensureCapacity capacity)
  | .operation (.removeAt iterator) =>
    iterator < s.table.mCapacity ∧ (s.table.mBuckets iterator).state = .used
  | .operation op => AllocatesFor t s op
  | .copy => AllocatesCopy t s

/-- A table and the map, after an action. -/
def tracked (t : HashTableType α) (s : TableState α × ElementMap α) (action : HashTableAction α) :
    Option (TableState α × ElementMap α) :=
  (act t s.1 action).toOption.map fun s' => (s', s.2.after t s.1.table action)

/-- Fewer buckets are in use than there are hashes. -/
def Countable (s : TableState α × ElementMap α) : Prop := s.1.table.usedBucketCount < 2 ^ 32

instance (s : TableState α × ElementMap α) : Decidable (Countable s) :=
  inferInstanceAs (Decidable (_ < _))

end HashTable

/-! ## The map in the buckets -/

/-- The map of a table's elements. -/
def Stores (t : HashTableType α) (table : HashTable α) (stored : ElementMap α) : Prop :=
  ∃ order deleted values, Sound t table order deleted values ∧ Counted t table values ∧
    ∀ v, stored v = representative t.equals values v

variable {order deleted : List Nat} {i fuel : Nat} {allocations : Allocations}

section

variable {t : HashTableType α} {s s' : TableState α} {table : HashTable α} {stored : ElementMap α}
  {values values' : List α} {value : α} {behavior : HashSetExistingEntryBehavior}
  {result : HashSetResult}

theorem Lawful.equivalence (h : Lawful t) : Equivalence fun a b => t.equals a b = true :=
  ⟨h.refl, @fun a b => h.symm a b, @fun a b c => h.trans a b c⟩

theorem stores_empty : Stores t (HashTable.empty : HashTable α) fun _ => none := by
  obtain ⟨order, deleted, values, hsound, -⟩ := (loaded_empty : Loaded t (HashTable.empty : HashTable α))
  have hnil : values = [] := by
    rw [← length_eq_zero_iff, ← hsound.length_eq, (hsound.eq_nil_of_capacity rfl).1, length_nil]
  subst hnil
  exact ⟨order, deleted, [], hsound, ⟨List.Pairwise.nil, rfl⟩, fun _ => rfl⟩

theorem Stores.congr {stored' : ElementMap α} (h : Stores t table stored)
    (hsame : ∀ v, stored' v = stored v) : Stores t table stored' := by
  obtain ⟨order, deleted, values, hsound, hcounted, hstored⟩ := h
  exact ⟨order, deleted, values, hsound, hcounted, fun v => (hsame v).trans (hstored v)⟩

theorem SetsTo.representative_eq (h : SetsTo t value behavior result values values')
    (hlawful : Lawful t) (hdistinct : Distinct t values) (v : α) :
    representative t.equals values' v =
      ElementMap.set t (representative t.equals values) value behavior v := by
  have hr := hlawful.equivalence
  have hdistinct' := h.distinct hlawful hdistinct
  cases h with
  | inserted hnew =>
    have hnone : t.equals v value = true → representative t.equals values v = none := by
      intro hequals
      rw [representative_congr hr hequals, representative_eq_none_iff]
      intro other hother
      rw [hlawful.equals_comm, ← Bool.not_eq_true]
      intro hequal
      have hfalse := hnew other hother (hlawful.hash_eq other value hequal)
      rw [hequal] at hfalse
      exact Bool.noConfusion hfalse
    rw [representative_middle hr hdistinct', append_nil]
    cases behavior with
    | replace => rfl
    | keep =>
      dsimp only [ElementMap.set]
      split_ifs with hequals
      · rw [hnone hequals]
        rfl
      · rfl
  | kept hequals =>
    rename_i before after old
    dsimp only [ElementMap.set]
    split_ifs with hv
    · rw [(representative_eq_some_iff hr hdistinct).mpr
        ⟨mem_append_right before mem_cons_self, hr.trans hv (hr.symm hequals)⟩]
      rfl
    · rfl
  | replaced hequals =>
    rename_i before after old
    rw [representative_middle hr hdistinct']
    dsimp only [ElementMap.set]
    split_ifs with hv
    · rfl
    · have hold : ¬ t.equals v old = true := fun hvold => hv (hr.trans hvold hequals)
      rw [representative_middle hr hdistinct, if_neg hold]

/-! ## Actions -/

namespace HashTable

theorem trySet_allocated (h : Sound t s.table order deleted values)
    (hcounted : Counted t s.table values) (hchained : t.isOrdered = true → Chained s.table order)
    (hcount : s.table.usedBucketCount < 2 ^ 32) (hallocates : AllocatesNext t s) (value : α)
    (behavior : HashSetExistingEntryBehavior) :
    ∃ result s' order' deleted' middle values', trySet t value behavior s = .ok (.ok result, s') ∧
      Sound t s'.table order' deleted' values' ∧ Retained t values middle ∧
      SetsTo t value behavior result middle values' ∧
      s'.table.mSize = s.table.mSize + (if result = .insertedNewEntry then 1 else 0) ∧
      s'.table.mDeletedCount ≤ s.table.mDeletedCount ∧
      (s.table.shouldGrow = false → s'.table.mCapacity = s.table.mCapacity) ∧
      (t.isOrdered = true → Chained s'.table order') := by
  have hfits : ¬ (s.table.shouldGrow = true ∧ Overflows t (2 * s.table.mCapacity) s) :=
    fun hboth => absurd (hallocates hboth.1).2 (Nat.not_lt_of_le hboth.2.2)
  obtain ⟨result, s', hresult, hs', herror⟩ :=
    exists_trySet h hcounted hchained hcount hfits value behavior
  cases result with
  | error e =>
    obtain ⟨-, hshould, hkcalloc⟩ := herror e rfl
    exact Bool.noConfusion (hkcalloc.symm.trans (hallocates hshould).1)
  | ok result =>
    obtain ⟨order', deleted', middle, values', hsound', hretained, hsets, hsize, hdeleted,
      hcapacity, hlinks⟩ := hs'
    exact ⟨result, s', order', deleted', middle, values', hresult, hsound', hretained, hsets, hsize,
      hdeleted, hcapacity, fun hordered => hlinks hordered (hchained hordered)⟩

theorem trySet_stores (hlawful : Lawful t) (hordered : t.isOrdered = false)
    (h : Stores t s.table stored) (hcount : s.table.usedBucketCount < 2 ^ 32)
    (hallocates : AllocatesNext t s) (value : α) (behavior : HashSetExistingEntryBehavior) :
    ∃ result s', trySet t value behavior s = .ok (.ok result, s') ∧
      Stores t s'.table (stored.set t value behavior) ∧
      s'.table.usedBucketCount ≤ s.table.usedBucketCount + 1 ∧
      (s.table.shouldGrow = false → s'.table.mCapacity = s.table.mCapacity) := by
  obtain ⟨order, deleted, values, hsound, hcounted, hstored⟩ := h
  obtain ⟨result, s', order', deleted', middle, values', hresult, hsound', hretained, hsets, hsize,
    hdeleted, hcapacity, -⟩ := trySet_allocated hsound hcounted
      (fun htrue => Bool.noConfusion (hordered.symm.trans htrue)) hcount hallocates value behavior
  have hperm := hretained.perm hcounted.1
  have hmiddle := hcounted.1.perm hperm
  refine ⟨result, s', hresult, ⟨order', deleted', values', hsound',
    ⟨hsets.distinct hlawful hmiddle, ?_⟩, fun v => ?_⟩, ?_, hcapacity⟩
  · rw [hsize, hsets.length, hperm.length_eq, hcounted.2]
  · rw [hsets.representative_eq hlawful hmiddle]
    have hsame : stored = representative t.equals middle := funext fun w => by
      rw [hstored, representative_perm hlawful.equivalence hcounted.1 hperm]
    rw [hsame]
  · unfold usedBucketCount
    rw [hsize]
    split_ifs <;> omega

theorem tryRehash_allocated (h : Sound t s.table order deleted values)
    (hinOrder : InOrder t s.table order values) (hcount : s.table.usedBucketCount < 2 ^ 32)
    {newCapacity : Nat} (hallocates : AllocatesFor.AllocatesCapacity t s newCapacity) :
    ∃ s' order' values', tryRehash t maxDepth newCapacity s = .ok (.ok (), s') ∧
      Sound t s'.table order' [] values' ∧ s'.table.mSize = s.table.mSize ∧
      Retained t values values' ∧
      (t.isOrdered = true → Chained s.table order →
        (newCapacity = s.table.mCapacity ∧ 4 ≤ newCapacity → keepsLinks t s.table = true) →
          Chained s'.table order') := by
  have hfine : (newCapacity = s.table.mCapacity ∧ 4 ≤ newCapacity) ∨ ¬ Interrupted t newCapacity s := by
    refine hallocates.imp_right fun hgranted => ?_
    rintro (hoverflows | ⟨-, hpos, hfails⟩)
    · exact absurd hgranted.1.2 (Nat.not_lt_of_le hoverflows.2)
    · exact hgranted.2 hpos hfails
  obtain ⟨result, s', hresult, hs', herror⟩ := exists_tryRehash h hinOrder hcount hfine
  cases result with
  | error e =>
    have hkcalloc := (herror e rfl).2
    rcases hallocates with hsame | ⟨hgranted, -⟩
    · obtain ⟨s'', order', hrehash, -⟩ := tryRehash_same_spec h hcount hsame
      cases hresult.symm.trans hrehash
    · exact Bool.noConfusion (hkcalloc.symm.trans hgranted.1)
  | ok _ =>
    obtain ⟨order', values', hsound', hsize, hretained, hlinks⟩ := hs'
    exact ⟨s', order', values', hresult, hsound', hsize, hretained, hlinks⟩

section

variable (hlawful : Lawful t)

include hlawful

theorem tryRehash_stores (hordered : t.isOrdered = false)
    (h : Stores t s.table stored) (hcount : s.table.usedBucketCount < 2 ^ 32) {newCapacity : Nat}
    (hallocates : AllocatesFor.AllocatesCapacity t s newCapacity) :
    ∃ s', tryRehash t maxDepth newCapacity s = .ok (.ok (), s') ∧ Stores t s'.table stored := by
  obtain ⟨order, deleted, values, hsound, hcounted, hstored⟩ := h
  obtain ⟨s', order', values', hresult, hsound', hsize, hretained, -⟩ := tryRehash_allocated hsound
    (fun htrue => Bool.noConfusion (hordered.symm.trans htrue)) hcount hallocates
  have hperm := hretained.perm hcounted.1
  refine ⟨s', hresult, order', [], values', hsound', ⟨hcounted.1.perm hperm, ?_⟩, fun v => ?_⟩
  · rw [hsize, hcounted.2, hperm.length_eq]
  · rw [hstored, representative_perm hlawful.equivalence hcounted.1 hperm]

theorem remove_stores (h : Stores t s.table stored)
    (hcount : s.table.usedBucketCount < 2 ^ 32) (value : α) :
    ∃ table' removed, s.table.remove t value = .ok (table', removed) ∧
      Stores t table' (stored.remove t value) := by
  obtain ⟨order, deleted, values, hsound, hcounted, hstored⟩ := h
  have hr := hlawful.equivalence
  obtain ⟨⟨table', removed⟩, hresult, hs'⟩ := (remove_spec hsound hcount
    (fun hzero => .inl (hcounted.mSize_eq_zero hsound hzero)) value).exists_ok
  refine ⟨table', removed, hresult, ?_⟩
  rcases hs' with ⟨heq, hnone⟩ | ⟨-, order', deleted', before, old, after, rfl, hequals, hsound', hsize, -⟩
  · obtain ⟨rfl, -⟩ := Prod.mk.inj heq
    refine ⟨order, deleted, values, hsound, hcounted, fun v => ?_⟩
    dsimp only [ElementMap.remove]
    split_ifs with hv
    · rw [representative_congr hr hv, eq_comm, representative_eq_none_iff]
      intro other hother
      rw [← Bool.not_eq_true]
      intro hequal
      have hfalse := hnone other hother (hlawful.hash_eq value other hequal).symm
      rw [hequal] at hfalse
      exact Bool.noConfusion hfalse
    · exact hstored v
  · refine ⟨order', deleted', before ++ after, hsound', hcounted.without hsize, fun v => ?_⟩
    have hsame : t.equals v value = true ↔ t.equals v old = true :=
      ⟨fun hv => hr.trans hv hequals, fun hv => hr.trans hv (hr.symm hequals)⟩
    rw [representative_erase hr hcounted.1]
    dsimp only [ElementMap.remove]
    rw [hstored]
    exact if_congr hsame rfl rfl

theorem removeAt_stores (h : Stores t s.table stored)
    (hcount : s.table.usedBucketCount < 2 ^ 32) (hi : i < s.table.mCapacity)
    (hused : (s.table.mBuckets i).state = .used) :
    ∃ table' value, s.table.removeAt t i = .ok table' ∧ (s.table.mBuckets i).slot = some value ∧
      Stores t table' (stored.remove t value) := by
  obtain ⟨order, deleted, values, hsound, hcounted, hstored⟩ := h
  obtain ⟨table', order', deleted', before, value, after, hremove, rfl, hslot, hsound', hsize, -⟩ :=
    removeAt_spec hsound (hsound.length_le_of_count hcount) ((hsound.used_iff i).mpr ⟨hi, hused⟩)
  refine ⟨table', value, hremove, hslot, order', deleted', before ++ after, hsound',
    hcounted.without hsize, fun v => ?_⟩
  rw [representative_erase hlawful.equivalence hcounted.1]
  dsimp only [ElementMap.remove]
  rw [hstored]

theorem removeAllMatching_stores (h : Stores t s.table stored)
    (hcount : s.table.usedBucketCount < 2 ^ 32) (predicate : α → Bool) :
    ∃ table' removed, removeAllMatching t s.table predicate = .ok (table', removed) ∧
      Stores t table' (stored.removeAllMatching predicate) := by
  obtain ⟨order, deleted, values, hsound, hcounted, hstored⟩ := h
  obtain ⟨table', removed, order', deleted', hremove, hsound', hsize, -⟩ :=
    removeAllMatching_spec hsound hcount predicate
  refine ⟨table', removed, hremove, order', deleted', _, hsound',
    ⟨hcounted.1.sublist filter_sublist, ?_⟩, fun v => ?_⟩
  · have hcountedSize := hcounted.2
    omega
  · rw [representative_filter hlawful.equivalence hcounted.1, ElementMap.removeAllMatching, hstored]

/-! ## Copies -/

/-- The map of elements that are set one after the other. -/
theorem foldl_set {done read : List α} (hdistinct : Distinct t (done ++ read)) :
    read.foldl (fun stored value => ElementMap.set t stored value .replace)
      (representative t.equals done) = representative t.equals (done ++ read) := by
  induction read generalizing done with
  | nil => rw [foldl_nil, append_nil]
  | cons value read ih =>
    rw [append_cons] at hdistinct ⊢
    have hset : ElementMap.set t (representative t.equals done) value .replace =
        representative t.equals (done ++ [value]) := by
      funext v
      rw [representative_middle hlawful.equivalence hdistinct.of_append, append_nil]
      rfl
    rw [foldl_cons, hset, ih hdistinct]

/-- The elements that an iterator over the other table visits are set. -/
theorem copyLoop_stores (hordered : t.isOrdered = false) {other : HashTable α}
    {visited : List Nat} {read : List α} {it : Option Nat} (hiterates : Iterates t other it visited)
    (hread : visited.map (fun i => (other.mBuckets i).slot) = read.map some)
    (hfuel : visited.length ≤ fuel) (h : Stores t s.table stored)
    (hcount : s.table.usedBucketCount + read.length < 2 ^ 32)
    (hallocates : Each (step t) (fun s _ => AllocatesNext t s) s
      (read.map fun value => .set value .replace)) :
    ∃ s', copyLoop t other fuel it s = .ok s' ∧
      Stores t s'.table (read.foldl (fun stored value => stored.set t value .replace) stored) := by
  induction visited generalizing read fuel it s stored with
  | nil =>
    obtain rfl : it = none := hiterates
    obtain rfl : read = [] := map_eq_nil_iff.mp hread.symm
    rw [copyLoop]
    exact ⟨s, rfl, h⟩
  | cons i visited ih =>
    obtain ⟨rfl, it', hnext, hiterates'⟩ := hiterates
    rw [map_cons] at hread
    obtain ⟨value, read, rfl, hslot, hread'⟩ := map_eq_cons_iff.mp hread.symm
    rw [length_cons] at hfuel hcount
    obtain ⟨fuel, rfl⟩ : ∃ n, fuel = n + 1 := ⟨fuel - 1, by omega⟩
    obtain ⟨hnow, hlater⟩ := hallocates
    obtain ⟨result, s', hset, hstores, hcount', -⟩ :=
      trySet_stores hlawful hordered h (by omega) hnow value .replace
    have hmust : set t value .replace s = .ok (result, s') := by rw [set, hset, must]
    have hstep : step t s (.set value .replace) = some s' := by
      rw [step, perform, hmust]
      rfl
    rw [copyLoop, ← hslot]
    dsimp only
    rw [hmust]
    dsimp only [bind, Except.bind]
    rw [hnext, foldl_cons]
    exact ih hiterates' hread'.symm (by omega) hstores (by omega) (hlater s' hstep)

end

theorem tryRehash_empty {newCapacity : Nat}
    (hallocates : Allocates t newCapacity (start allocations)) :
    tryRehash t maxDepth newCapacity (start allocations) =
      .ok (.ok (), newBuckets t (start allocations) newCapacity) := by
  obtain ⟨depth, hdepth⟩ : ∃ depth, maxDepth = depth + 1 := ⟨2 ^ 64 - 1, by decide⟩
  have hother : ¬ (newCapacity = (empty : HashTable α).mCapacity ∧ 4 ≤ newCapacity) := by
    rintro ⟨rfl, hle⟩
    exact Nat.not_le_of_lt (by decide : 0 < 4) hle
  have hgranted : ¬ kcalloc (sizeInBytes t (goodCapacity t newCapacity) % 2 ^ 64)
      (start allocations : TableState α) = false := by
    rw [hallocates.1]
    exact Bool.noConfusion
  have hbegin : begin t (empty : HashTable α) = none := by
    rw [begin]
    split_ifs <;> rfl
  rw [hdepth, tryRehash, start, if_neg hother]
  rw [start] at hgranted
  rw [if_neg hgranted, if_neg (Nat.not_le_of_lt hallocates.2), hbegin]
  rfl

section

variable (hlawful : Lawful t)

include hlawful

theorem copy_stores (hordered : t.isOrdered = false)
    (h : Stores t s.table stored) (hcount : s.table.usedBucketCount < 2 ^ 32)
    (hallocates : AllocatesCopy t s) : ∃ s', copy t s = .ok s' ∧ Stores t s'.table stored := by
  obtain ⟨order, deleted, values, hsound, hcounted, hstored⟩ := h
  obtain ⟨visited, read, hiterates, hfuel, hvisited, hread, -, hforEach⟩ :=
    forEach_spec hsound fun htrue => Bool.noConfusion (hordered.symm.trans htrue)
  obtain ⟨hbuckets, hsets⟩ := hallocates
  have hempty : Stores t (newBuckets t (start s.allocations) s.table.mCapacity).table
      (representative t.equals []) := by
    have hnew : Growing t (newBuckets t (start s.allocations) s.table.mCapacity).table [] [] :=
      rehashed_growing (kcalloc_bytes hbuckets.1 hbuckets.2)
    exact ⟨[], [], [], hnew.toSound, ⟨List.Pairwise.nil, rfl⟩, fun _ => rfl⟩
  have hlength : (newBuckets t (start s.allocations) s.table.mCapacity).table.usedBucketCount +
      read.length < 2 ^ 32 := by
    have hsize : read.length = s.table.mSize := hread.length_eq.trans hcounted.2.symm
    have hzero : (newBuckets t (start s.allocations) s.table.mCapacity).table.usedBucketCount = 0 := rfl
    unfold usedBucketCount at hcount
    omega
  have helements : read ∈ (s.table.forEach t (fun list value => list ++ [value]) []).toOption := by
    rw [hforEach, foldl_elements, nil_append]
    rfl
  obtain ⟨s', hloop, hstores⟩ := copyLoop_stores hlawful hordered hiterates hvisited.located hfuel
    hempty hlength (hsets read helements)
  refine ⟨s', ?_, hstores.congr fun v => ?_⟩
  · rw [copy]
    rw [tryRehash_empty hbuckets, must]
    exact hloop
  · have hdistinct : Distinct t ([] ++ read) := hcounted.1.perm hread
    rw [foldl_set hlawful hdistinct, nil_append, hstored,
      representative_perm hlawful.equivalence hcounted.1 hread]

/-! ## Runs -/

/-- Every action does to the table what it does to the map. -/
theorem act_stores (hordered : t.isOrdered = false)
    (h : Stores t s.table stored) (hcount : s.table.usedBucketCount < 2 ^ 32)
    {action : HashTableAction α} (hpermitted : Permitted t s action) :
    ∃ s', act t s action = .ok s' ∧ Stores t s'.table (stored.after t s.table action) := by
  cases action with
  | copy => exact copy_stores hlawful hordered h hcount hpermitted
  | operation op =>
    cases op with
    | trySet value behavior =>
      obtain ⟨result, s', hset, hstores, -⟩ :=
        trySet_stores hlawful hordered h hcount hpermitted value behavior
      exact ⟨s', by rw [act, perform, hset]; rfl, hstores⟩
    | set value behavior =>
      obtain ⟨result, s', hset, hstores, -⟩ :=
        trySet_stores hlawful hordered h hcount hpermitted value behavior
      exact ⟨s', by rw [act, perform, set, hset]; rfl, hstores⟩
    | tryEnsureCapacity capacity =>
      obtain ⟨s', hrehash, hstores⟩ := tryRehash_stores hlawful hordered h hcount hpermitted.2
      refine ⟨s', ?_, hstores⟩
      rw [act, perform, tryEnsureCapacity, if_neg (Nat.not_lt_of_le hpermitted.1), hrehash]
      rfl
    | ensureCapacity capacity =>
      obtain ⟨s', hrehash, hstores⟩ := tryRehash_stores hlawful hordered h hcount hpermitted.2
      refine ⟨s', ?_, hstores⟩
      rw [act, perform, ensureCapacity, tryEnsureCapacity,
        if_neg (Nat.not_lt_of_le hpermitted.1), hrehash]
      rfl
    | remove value =>
      obtain ⟨table', removed, hremove, hstores⟩ := remove_stores hlawful h hcount value
      exact ⟨{ s with table := table' }, by rw [act, perform, hremove]; rfl, hstores⟩
    | removeAt iterator =>
      obtain ⟨table', value, hremove, hslot, hstores⟩ :=
        removeAt_stores hlawful h hcount hpermitted.1 hpermitted.2
      refine ⟨{ s with table := table' }, ?_, ?_⟩
      · rw [act, perform, if_neg (Nat.not_le_of_lt hpermitted.1), hremove]
        rfl
      · rw [ElementMap.after, hslot]
        exact hstores
    | removeAllMatching predicate =>
      obtain ⟨table', removed, hremove, hstores⟩ :=
        removeAllMatching_stores hlawful h hcount predicate
      exact ⟨{ s with table := table' }, by rw [act, perform, hremove]; rfl, hstores⟩

theorem isMap_of_stores (hordered : t.isOrdered = false)
    (h : Stores t table stored) (hcount : table.usedBucketCount < 2 ^ 32) : IsMap t table stored := by
  obtain ⟨order, deleted, values, hsound, hcounted, hstored⟩ := h
  have hr := hlawful.equivalence
  refine ⟨fun v w hequals => ?_, fun v => ?_, ?_⟩
  · simp only [hstored, representative_congr hr hequals]
  · obtain ⟨it, hlookup, hit⟩ := (lookupWithHash_ensures hsound hcount
      (fun hzero => .inl (hcounted.mSize_eq_zero hsound hzero)) (t.hash_lt v)
      fun other => t.equals v other).exists_ok
    refine ⟨it, hlookup, ?_⟩
    rw [hstored]
    rcases hit with ⟨i, hi, other, rfl, hslot, hequals⟩ | ⟨rfl, hnone⟩
    · obtain ⟨value, hvalue, hslot'⟩ := hsound.exists_value hi
      obtain rfl : other = value := some.inj (hslot.symm.trans hslot')
      rw [(representative_eq_some_iff hr hcounted.1).mpr ⟨hvalue, hequals⟩]
      refine ⟨iff_of_false (some_ne_none i) (some_ne_none other), fun j hj => ?_⟩
      cases hj
      exact hslot
    · have hrepresentative : representative t.equals values v = none := by
        rw [representative_eq_none_iff]
        intro other hother
        rw [← Bool.not_eq_true]
        intro hequal
        have hfalse := hnone other hother (hlawful.hash_eq v other hequal).symm
        rw [hequal] at hfalse
        exact Bool.noConfusion hfalse
      exact ⟨iff_of_true rfl hrepresentative, fun i hi => by cases hi⟩
  · obtain ⟨visited, read, -, -, -, hread, -, hforEach⟩ :=
      forEach_spec hsound fun htrue => Bool.noConfusion (hordered.symm.trans htrue)
    refine ⟨read, hcounted.1.perm hread, fun v => ?_, hcounted.2.trans hread.length_eq.symm, hforEach⟩
    rw [hstored, representative_self_iff hr hcounted.1, hread.mem_iff]

theorem tracked_stores (hordered : t.isOrdered = false)
    {actions : List (HashTableAction α)} (h : Stores t s.table stored)
    (hpermitted : Each (tracked t) (fun s action => Permitted t s.1 action) (s, stored) actions)
    (hcount : Always (tracked t) Countable (s, stored) actions) :
    (∃ s', run (tracked t) (s, stored) actions = some s') ∧
      Always (tracked t) (fun s => IsMap t s.1.table s.2) (s, stored) actions := by
  induction actions generalizing s stored with
  | nil => exact ⟨⟨_, rfl⟩, isMap_of_stores hlawful hordered h hcount⟩
  | cons action actions ih =>
    obtain ⟨s', hact, hstores⟩ := act_stores hlawful hordered h hcount.1 hpermitted.1
    have hstep : tracked t (s, stored) action = some (s', stored.after t s.table action) := by
      rw [tracked, hact]
      rfl
    obtain ⟨⟨last, hrun⟩, halways⟩ := ih hstores (hpermitted.2 _ hstep) (hcount.2 _ hstep)
    refine ⟨⟨last, run_cons_eq_some.mpr ⟨_, hstep, hrun⟩⟩,
      isMap_of_stores hlawful hordered h hcount.1, fun s'' hs'' => ?_⟩
    rw [hstep] at hs''
    cases hs''
    exact halways

end

/-- In every run whose allocations succeed and in which there are always more hashes than buckets
in use, every action returns, and the table is the map. -/
theorem isMap_always (t : HashTableType α) (hlawful : Lawful t) (hordered : t.isOrdered = false)
    (allocations : Allocations) (actions : List (HashTableAction α))
    (hpermitted : Each (tracked t) (fun s action => Permitted t s.1 action)
      (start allocations, fun _ => none) actions)
    (hcount : Always (tracked t) Countable (start allocations, fun _ => none) actions) :
    (∃ s, run (tracked t) (start allocations, fun _ => none) actions = some s) ∧
      Always (tracked t) (fun s => IsMap t s.1.table s.2) (start allocations, fun _ => none) actions :=
  tracked_stores hlawful hordered stores_empty hpermitted hcount

end HashTable

end

namespace HashTable

/-! ## A table with more elements than hashes -/

theorem lookupWithHashLoop_lt {table : HashTable α} {predicate : α → Bool} {hash : Nat}
    (hhash : hash < 2 ^ 32) (h : table.lookupWithHashLoop predicate fuel hash = .ok (some i)) :
    i < 2 ^ 32 := by
  induction fuel generalizing hash with
  | zero => cases h
  | succ fuel ih =>
    have hplace : hash % table.mCapacity < 2 ^ 32 := Nat.lt_of_le_of_lt (Nat.mod_le _ _) hhash
    rw [lookupWithHashLoop] at h
    by_cases hzero : table.mCapacity = 0
    · rw [if_pos hzero] at h
      cases h
    · rw [if_neg hzero] at h
      by_cases hused : isUsedBucket (table.mBuckets (hash % table.mCapacity)).state = true
      · rw [if_pos hused] at h
        cases hslot : (table.mBuckets (hash % table.mCapacity)).slot with
        | none =>
          rw [hslot] at h
          cases h
        | some value =>
          rw [hslot] at h
          dsimp only at h
          split_ifs at h with hfound hstop
          · cases h
            exact hplace
          · cases h
          · exact ih (doubleHash_lt hhash) h
      · rw [if_neg hused] at h
        split_ifs at h with hstop
        · cases h
        · exact ih (doubleHash_lt hhash) h

theorem find_lt {t : HashTableType α} {table : HashTable α} {value : α}
    (h : table.find t value = .ok (some i)) : i < 2 ^ 32 := by
  rw [find, lookupWithHash] at h
  split_ifs at h with hzero
  · cases h
  · exact lookupWithHashLoop_lt (t.hash_lt value) h

/-- So a table cannot be a map of more elements. -/
theorem length_le_of_isMap {t : HashTableType α} {table : HashTable α} {stored : ElementMap α}
    (h : IsMap t table stored) {values : List α} (hnodup : values.Nodup)
    (hvalues : ∀ v ∈ values, stored v = some v) : values.length ≤ 2 ^ 32 := by
  classical
  choose it hfind hnone hslot using h.find
  have hit : ∀ v ∈ values, it v = some ((it v).getD 0) := by
    intro v hv
    cases hv' : it v with
    | none => exact absurd ((hnone v).mp hv') (by rw [hvalues v hv]; exact some_ne_none v)
    | some i => rfl
  have hplace : ∀ v ∈ values.toFinset, (it v).getD 0 ∈ Finset.range (2 ^ 32) := by
    intro v hv
    rw [List.mem_toFinset] at hv
    rw [Finset.mem_range]
    exact find_lt ((hfind v).trans (congrArg Except.ok (hit v hv)))
  have hinj : Set.InjOn (fun v => (it v).getD 0) values.toFinset := by
    intro v hv w hw heq
    rw [Finset.mem_coe, List.mem_toFinset] at hv hw
    have hsame := hslot v _ (hit v hv)
    rw [show (it v).getD 0 = (it w).getD 0 from heq, hslot w _ (hit w hw), hvalues v hv,
      hvalues w hw] at hsame
    exact (some.inj hsame).symm
  have hcard := Finset.card_le_card_of_injOn _ hplace hinj
  rwa [toFinset_card_of_nodup hnodup, Finset.card_range] at hcard

/-- Some integers are set. -/
def sets (values : List Nat) : List (HashTableAction Nat) :=
  values.map fun value => .operation (.set value .replace)

theorem run_sets {s last : TableState Nat × ElementMap Nat} {values : List Nat}
    (h : run (tracked ownHash) s (sets values) = some last) :
    last.2 = values.foldl (fun stored value => stored.set ownHash value .replace) s.2 := by
  induction values generalizing s with
  | nil => exact congrArg Prod.snd (some.inj h).symm
  | cons value values ih =>
    obtain ⟨s', hstep, hrest⟩ := run_cons_eq_some.mp h
    obtain ⟨table', -, hs'⟩ := map_eq_some_iff.mp hstep
    rw [ih hrest, ← hs']
    rfl

/-- A table with many buckets does not grow while integers are set. -/
theorem permitted_sets {s : TableState Nat} {stored : ElementMap Nat} {values : List Nat}
    (h : Stores ownHash s.table stored) (hcapacity : s.table.mCapacity = 2 ^ 34)
    (hcount : s.table.usedBucketCount + values.length ≤ 2 ^ 32 + 1) :
    Each (tracked ownHash) (fun s action => Permitted ownHash s.1 action) (s, stored)
      (sets values) := by
  induction values generalizing s stored with
  | nil => trivial
  | cons value values ih =>
    rw [length_cons] at hcount
    have hstays : s.table.shouldGrow = false := by
      rw [shouldGrow, hcapacity, decide_eq_false_iff_not,
        Nat.mod_eq_of_lt (by omega : (s.table.usedBucketCount + 1) * 100 < 2 ^ 64)]
      omega
    have hallocates : AllocatesNext ownHash s := fun hgrow =>
      Bool.noConfusion (hstays.symm.trans hgrow)
    refine ⟨hallocates, fun s' hs' => ?_⟩
    rcases eq_nil_or_concat values with rfl | ⟨_, _, hconcat⟩
    · trivial
    · have hpos : 0 < values.length := by
        rw [hconcat, length_concat]
        exact Nat.succ_pos _
      obtain ⟨result, s'', hset, hstores, hcount'', hcapacity''⟩ :=
        trySet_stores lawful_ownHash rfl h (by omega) hallocates value .replace
      have hstep : tracked ownHash (s, stored) (.operation (.set value .replace)) =
          some (s'', stored.set ownHash value .replace) := by
        rw [tracked, act, perform, set, hset]
        rfl
      obtain rfl : (s'', stored.set ownHash value .replace) = s' :=
        some.inj (hstep.symm.trans hs')
      exact ih hstores ((hcapacity'' hstays).trans hcapacity) (by omega)

theorem ensureCapacity_empty {t : HashTableType α} {capacity : Nat}
    (hallocates : Allocates t (capacity * 2 % 2 ^ 64) (start allocations)) (stored : ElementMap α) :
    tracked t (start allocations, stored) (.operation (.ensureCapacity capacity)) =
      some (newBuckets t (start allocations) (capacity * 2 % 2 ^ 64), stored) := by
  have hsize : ¬ capacity < (start allocations : TableState α).table.mSize := Nat.not_lt_zero _
  rw [tracked, act, perform, ensureCapacity, tryEnsureCapacity, if_neg hsize,
    tryRehash_empty hallocates]
  rfl

/-- There is a table with room for more integers than there are hashes. -/
theorem exists_room : ∃ s : TableState Nat,
      Permitted ownHash (start fun _ => true) (.operation (.ensureCapacity (2 ^ 33))) ∧
      tracked ownHash (start fun _ => true, fun _ => none)
        (.operation (.ensureCapacity (2 ^ 33))) = some (s, fun _ => none) ∧
      Stores ownHash s.table (fun _ => none) ∧ s.table.mCapacity = 2 ^ 34 ∧
      s.table.usedBucketCount = 0 := by
  have hallocates : Allocates ownHash (2 ^ 33 * 2 % 2 ^ 64) (start fun _ => true) := by
    constructor <;> decide
  have hnew : Growing ownHash
      (newBuckets ownHash (start fun _ => true) (2 ^ 33 * 2 % 2 ^ 64)).table [] [] :=
    rehashed_growing (kcalloc_bytes hallocates.1 hallocates.2)
  refine ⟨_, ⟨Nat.zero_le _, .inr ⟨hallocates, fun hpos => absurd hpos (Nat.lt_irrefl 0)⟩⟩,
    ensureCapacity_empty hallocates _,
    ⟨[], [], [], hnew.toSound, ⟨List.Pairwise.nil, rfl⟩, fun _ => rfl⟩, ?_, rfl⟩
  decide

/-- The integers are in the map that they have been put into. -/
theorem sets_range {s last : TableState Nat × ElementMap Nat} {n : Nat}
    (hempty : s.2 = fun _ => none) (h : run (tracked ownHash) s (sets (List.range n)) = some last) :
    ∀ v ∈ List.range n, last.2 v = some v := by
  have hdistinct : Distinct ownHash ([] ++ List.range n) :=
    (nodup_iff_pairwise_ne.mp nodup_range).imp fun hne =>
      ⟨decide_eq_false hne, decide_eq_false hne.symm⟩
  have hlast : last.2 = representative ownHash.equals ([] ++ List.range n) := by
    rw [run_sets h, hempty]
    exact foldl_set lawful_ownHash hdistinct
  intro v hv
  rw [hlast, representative_self_iff lawful_ownHash.equivalence hdistinct]
  exact hv

/-- A table gets no more elements than there are hashes, although it has room for them. -/
theorem not_isMap_crowded : ¬ ∀ (allocations : Allocations) (actions : List (HashTableAction Nat)),
      Each (tracked ownHash) (fun s action => Permitted ownHash s.1 action)
        (start allocations, fun _ => none) actions →
      (∃ s, run (tracked ownHash) (start allocations, fun _ => none) actions = some s) ∧
        Always (tracked ownHash) (fun s => IsMap ownHash s.1.table s.2)
          (start allocations, fun _ => none) actions := by
  intro h
  obtain ⟨s, hgranted, hroom, hstores, hcapacity, hzero⟩ := exists_room
  obtain ⟨n, hn⟩ : ∃ n, n = 2 ^ 32 + 1 := ⟨_, rfl⟩
  have hlimit : s.table.usedBucketCount + (List.range n).length ≤ 2 ^ 32 + 1 := by
    rw [length_range, hzero, Nat.zero_add, hn]
  have hpermitted : Each (tracked ownHash) (fun s action => Permitted ownHash s.1 action)
      (start (fun _ => true), fun _ => none)
      (.operation (.ensureCapacity (2 ^ 33)) :: sets (List.range n)) := by
    refine ⟨hgranted, fun s' hs' => ?_⟩
    rw [← some.inj (hroom.symm.trans hs')]
    exact permitted_sets hstores hcapacity hlimit
  obtain ⟨⟨last, hrun⟩, halways⟩ := h _ _ hpermitted
  have hmap := always_iff.mp halways _ last (prefix_refl _) hrun
  obtain ⟨s', hs', hsets⟩ := run_cons_eq_some.mp hrun
  obtain rfl := some.inj (hroom.symm.trans hs')
  have hlength := length_le_of_isMap hmap nodup_range (sets_range rfl hsets)
  rw [length_range, hn] at hlength
  exact Nat.lt_irrefl _ hlength

/-- Two elements are put into a table, which is copied. -/
def copied : List (HashTableAction Nat) :=
  [.operation (.set 1 .replace), .copy, .operation (.set 5 .keep)]

/-- A copy that gets a second element. -/
theorem isMap_always_copied :
    (∃ s, run (tracked ownHash) (start (fun _ => true), fun _ => none) copied = some s) ∧
      Always (tracked ownHash) (fun s => IsMap ownHash s.1.table s.2)
        (start (fun _ => true), fun _ => none) copied := by
  have hpermitted : Each (tracked ownHash) (fun s action => Permitted ownHash s.1 action)
      (start (fun _ => true), fun _ => none) copied := by
    have hallocates : Each (tracked ownHash)
        (fun s _ => AllocatesNext ownHash s.1 ∧ AllocatesCopy ownHash s.1)
        (start (fun _ => true), fun _ => none) copied := by
      decide
    exact ⟨hallocates.1.1, fun s hs => ⟨(hallocates.2 s hs).1.2, fun s' hs' =>
      ⟨((hallocates.2 s hs).2 s' hs').1.1, fun _ _ => trivial⟩⟩⟩
  have heach : Each (tracked ownHash) (fun s _ => Countable s)
      (start (fun _ => true), fun _ => none) copied := by
    decide
  have hrun : (run (tracked ownHash) (start (fun _ => true), fun _ => none) copied).map
      (fun s => decide (Countable s)) = some true := by
    decide
  obtain ⟨s, hs, hlast⟩ := map_eq_some_iff.mp hrun
  exact isMap_always ownHash lawful_ownHash rfl _ _ hpermitted
    (Always.of_each_last heach hs (of_decide_eq_true hlast))

end HashTable

end Literate.AK

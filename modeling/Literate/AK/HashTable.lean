import Mathlib.Logic.Function.Basic
import Literate.AK.Types
import Literate.AK.HashFunctions

/-!
# AK: hash tables

`HashTable` of `AK/HasTable.h`, ordered and unordered.  A function that may fail to allocate
answers an error code, and the program stops where the code insists that there is none, where
an assertion fails, where something is read that is not there, and where a loop does not end.
The results of the allocations to come are part of the state.  Elements are plain values:
moving one out of a bucket and destroying it leave its bytes where they are.
-/

namespace Literate.AK

variable {α β : Type}

inductive BucketState where
  | free
  | used
  | deleted
  | rehashed
  | endBucket
  deriving DecidableEq, Repr

def isUsedBucket : BucketState → Bool
  | .used | .rehashed => true
  | .free | .deleted | .endBucket => false

def isFreeBucket : BucketState → Bool
  | .free | .deleted => true
  | .used | .rehashed | .endBucket => false

/-- A bucket.  The pointers of an unordered table's buckets are not used. -/
structure Bucket (α : Type) where
  state : BucketState
  slot : Option α
  previous : Option Nat
  next : Option Nat
  deriving DecidableEq, Repr

/-- A bucket of `kcalloc`. -/
def Bucket.zero : Bucket α :=
  { state := .free
    slot := none
    previous := none
    next := none }

/-- `HashTable`: its buckets, of which there are `mCapacity`, and one more at the end of an
unordered table, the first and the last bucket of an ordered one, and the counters. -/
structure HashTable (α : Type) where
  mBuckets : Nat → Bucket α
  mHead : Option Nat
  mTail : Option Nat
  mSize : Nat
  mCapacity : Nat
  mDeletedCount : Nat

/-- `HashTable<T, TraitsForT, IsOrdered>`, with the size of a bucket and `kmalloc_good_size`,
which only rounds up. -/
structure HashTableType (α : Type) where
  hash : α → Nat
  equals : α → α → Bool
  isOrdered : Bool
  bucketSize : Nat
  kmallocGoodSize : Nat → Nat
  hash_lt : ∀ value, hash value < 2 ^ 32
  bucketSize_pos : 0 < bucketSize
  bucketSize_lt : bucketSize < 2 ^ 62
  le_kmallocGoodSize : ∀ size < 2 ^ 64, size ≤ kmallocGoodSize size

/-- Why a program stops, or does not. -/
inductive Crash where
  | abort
  | fault
  | endless
  deriving DecidableEq, Repr

abbrev ErrorOr (β : Type) := Except Errno β

/-- The results of the allocations to come. -/
abbrev Allocations := Nat → Bool

/-- The results after the next one. -/
def Allocations.rest (allocations : Allocations) : Allocations := fun i => allocations (i + 1)

/-- A table and the results of the allocations to come. -/
structure TableState (α : Type) where
  table : HashTable α
  allocations : Allocations

inductive HashSetResult where
  | insertedNewEntry
  | replacedExistingEntry
  | keptExistingEntry
  deriving DecidableEq, Repr

inductive HashSetExistingEntryBehavior where
  | keep
  | replace
  deriving DecidableEq, Repr

def must : Except Crash (ErrorOr β × TableState α) → Except Crash (β × TableState α)
  | .ok (.ok value, s) => .ok (value, s)
  | .ok (.error _, _) => .error .abort
  | .error crash => .error crash

namespace HashTable

/-- The default constructor. -/
def empty : HashTable α :=
  { mBuckets := fun _ => .zero
    mHead := none
    mTail := none
    mSize := 0
    mCapacity := 0
    mDeletedCount := 0 }

/-- A bucket is changed. -/
def modify (table : HashTable α) (i : Nat) (f : Bucket α → Bucket α) : HashTable α :=
  { table with mBuckets := Function.update table.mBuckets i (f (table.mBuckets i)) }

/-- The state of a bucket is changed. -/
def setState (table : HashTable α) (i : Nat) (state : BucketState) : HashTable α :=
  table.modify i fun bucket => { bucket with state := state }

def usedBucketCount (table : HashTable α) : Nat := table.mSize + table.mDeletedCount

/-- `should_grow`, of `size_t` numbers. -/
def shouldGrow (table : HashTable α) : Bool :=
  table.mCapacity * 60 % 2 ^ 64 ≤ (table.usedBucketCount + 1) * 100 % 2 ^ 64

variable (t : HashTableType α)

/-! ## Links -/

/-- A new bucket is the last one. -/
def linkLast (table : HashTable α) (i : Nat) : Except Crash (HashTable α) :=
  if t.isOrdered then
    match table.mHead, table.mTail with
    | none, _ => .ok { table with mHead := some i, mTail := some i }
    | some _, none => .error .fault
    | some _, some last =>
      let table := table.modify i fun bucket => { bucket with previous := some last }
      let table := table.modify last fun bucket => { bucket with next := some i }
      .ok { table with mTail := some i }
  else .ok table

/-- The neighbours of a bucket are told that it is there. -/
def relink (table : HashTable α) (i : Nat) : HashTable α :=
  let table :=
    match (table.mBuckets i).previous with
    | some before => table.modify before fun bucket => { bucket with next := some i }
    | none => { table with mHead := some i }
  match (table.mBuckets i).next with
  | some after => table.modify after fun bucket => { bucket with previous := some i }
  | none => { table with mTail := some i }

/-- The pointers of two buckets are exchanged, and the neighbours of the second one are told. -/
def swapLinks (table : HashTable α) (i target : Nat) : HashTable α :=
  let moving := table.mBuckets i
  let into := table.mBuckets target
  let table := table.modify i fun bucket =>
    { bucket with previous := into.previous, next := into.next }
  let table := table.modify target fun bucket =>
    { bucket with previous := moving.previous, next := moving.next }
  table.relink target

def deleteBucket (table : HashTable α) (i : Nat) : HashTable α :=
  let table := table.modify i fun bucket => { bucket with state := .deleted, slot := none }
  if t.isOrdered then
    let bucket := table.mBuckets i
    let table :=
      match bucket.previous with
      | some before => table.modify before fun b => { b with next := bucket.next }
      | none => { table with mHead := bucket.next }
    let bucket := table.mBuckets i
    let table :=
      match bucket.next with
      | some after => table.modify after fun b => { b with previous := bucket.previous }
      | none => { table with mTail := bucket.previous }
    table.modify i fun bucket => { bucket with previous := none, next := none }
  else table

/-! ## Lookups -/

/-- The loop of `lookup_with_hash`. -/
def lookupWithHashLoop (table : HashTable α) (predicate : α → Bool) :
    (fuel hash : Nat) → Except Crash (Option Nat)
  | 0, _ => .error .endless
  | fuel + 1, hash =>
    if table.mCapacity = 0 then .error .fault
    else
      let i := hash % table.mCapacity
      let bucket := table.mBuckets i
      if isUsedBucket bucket.state then
        match bucket.slot with
        | none => .error .fault
        | some value =>
          if predicate value then .ok (some i)
          else if bucket.state ≠ .used ∧ bucket.state ≠ .deleted then .ok none
          else lookupWithHashLoop table predicate fuel (doubleHash hash)
      else if bucket.state ≠ .used ∧ bucket.state ≠ .deleted then .ok none
      else lookupWithHashLoop table predicate fuel (doubleHash hash)

/-- `lookup_with_hash`.  The hashes come again after `2 ^ 32` of them. -/
def lookupWithHash (table : HashTable α) (hash : Nat) (predicate : α → Bool) :
    Except Crash (Option Nat) :=
  if table.mSize = 0 then .ok none
  else table.lookupWithHashLoop predicate (2 ^ 32) hash

def find (table : HashTable α) (value : α) : Except Crash (Option Nat) :=
  table.lookupWithHash (t.hash value) fun other => t.equals value other

/-- The loop of `try_lookup_for_writing`. -/
def lookupForWritingLoop (table : HashTable α) (value : α) :
    (fuel hash : Nat) → (firstEmptyBucket : Option Nat) → Except Crash Nat
  | 0, _, _ => .error .endless
  | fuel + 1, hash, firstEmptyBucket =>
    if table.mCapacity = 0 then .error .fault
    else
      let i := hash % table.mCapacity
      let bucket := table.mBuckets i
      if isUsedBucket bucket.state then
        match bucket.slot with
        | none => .error .fault
        | some other =>
          if t.equals other value then .ok i
          else lookupForWritingLoop table value fuel (doubleHash hash) firstEmptyBucket
      else
        let firstEmptyBucket := firstEmptyBucket.getD i
        if bucket.state ≠ .deleted then .ok firstEmptyBucket
        else lookupForWritingLoop table value fuel (doubleHash hash) (some firstEmptyBucket)

/-- `try_lookup_for_writing`, with `try_rehash` as a parameter. -/
def tryLookupForWriting (tryRehash : Nat → TableState α → Except Crash (ErrorOr Unit × TableState α))
    (value : α) (s : TableState α) : Except Crash (ErrorOr Nat × TableState α) := do
  let (grown, s) ←
    if s.table.shouldGrow then tryRehash (s.table.mCapacity * 2 % 2 ^ 64) s
    else .ok (.ok (), s)
  match grown with
  | .error e => return (.error e, s)
  | .ok () => do
      let i ← lookupForWritingLoop t s.table value (2 ^ 32) (t.hash value) none
      return (.ok i, s)

/-! ## Iteration -/

def begin (table : HashTable α) : Option Nat :=
  if t.isOrdered then table.mHead
  else (List.range table.mCapacity).find? fun i => isUsedBucket (table.mBuckets i).state

/-- `skip_to_next`, with `count` buckets left. -/
def skipToNext (buckets : Nat → Bucket α) : (count i : Nat) → Except Crash (Option Nat)
  | 0, _ => .error .fault
  | count + 1, i =>
    if (buckets (i + 1)).state = .used then .ok (some (i + 1))
    else if (buckets (i + 1)).state = .endBucket then .ok none
    else skipToNext buckets count (i + 1)

/-- `operator++`. -/
def next (buckets : Nat → Bucket α) (capacity i : Nat) : Except Crash (Option Nat) :=
  if t.isOrdered then .ok (buckets i).next else skipToNext buckets (capacity - i) i

/-! ## Rehashing in place -/

/-- The loop of `rehash_in_place` for the bucket `i`. -/
def rehashBucket (i : Nat) : (fuel targetHash : Nat) → HashTable α → Except Crash (HashTable α)
  | 0, _, _ => .error .endless
  | fuel + 1, targetHash, table =>
    let target := targetHash % table.mCapacity
    if isFreeBucket (table.mBuckets i).state then .ok table
    else if i = target then .ok (table.setState i .rehashed)
    else if isFreeBucket (table.mBuckets target).state then
      let bucket := table.mBuckets i
      let table := table.modify target fun b => { b with slot := bucket.slot, state := .rehashed }
      let table := table.modify i fun b => { b with slot := none, state := .free }
      let table := if t.isOrdered then table.swapLinks i target else table
      rehashBucket i fuel targetHash table
    else if (table.mBuckets target).state = .rehashed then
      rehashBucket i fuel (doubleHash targetHash) table
    else if (table.mBuckets target).state = .endBucket then .error .abort
    else
      -- the target's element now has to go on from `i`
      let moving := table.mBuckets i
      let into := table.mBuckets target
      let table := table.modify i fun b => { b with slot := into.slot, state := into.state }
      let table := table.modify target fun b => { b with slot := moving.slot, state := .rehashed }
      let table := if t.isOrdered then table.swapLinks i target else table
      match (table.mBuckets i).slot with
      | none => .error .fault
      | some value =>
        let targetHash := t.hash value
        if targetHash % table.mCapacity = i then
          let table := table.setState i .rehashed
          .ok (if t.isOrdered then table.relink i else table)
        else rehashBucket i fuel targetHash table

/-- The first loop of `rehash_in_place`, with `count` buckets left. -/
def rehashInPlaceLoop : (count i : Nat) → HashTable α → Except Crash (HashTable α)
  | 0, _, table => .ok table
  | count + 1, i, table =>
    match (table.mBuckets i).state with
    | .rehashed | .endBucket | .free => rehashInPlaceLoop count (i + 1) table
    | .deleted => rehashInPlaceLoop count (i + 1) (table.setState i .free)
    | .used =>
      match (table.mBuckets i).slot with
      | none => .error .fault
      | some value =>
        let newHash := t.hash value
        if newHash % table.mCapacity = i then
          rehashInPlaceLoop count (i + 1) (table.setState i .rehashed)
        else do
          let table ← rehashBucket t i ((table.mCapacity + 1) * (2 ^ 32 + 1)) newHash table
          let table :=
            if (table.mBuckets i).state = .deleted then table.setState i .free else table
          rehashInPlaceLoop count (i + 1) table

def rehashInPlace (table : HashTable α) : Except Crash (HashTable α) := do
  let table ← rehashInPlaceLoop t table.mCapacity 0 table
  return { table with
    mBuckets := fun i =>
      if i < table.mCapacity ∧ (table.mBuckets i).state = .rehashed then
        { table.mBuckets i with state := .used }
      else table.mBuckets i
    mDeletedCount := 0 }

def rehashInPlaceIfNeeded (table : HashTable α) : Except Crash (HashTable α) :=
  if table.mSize ≤ table.mDeletedCount ∧ table.shouldGrow then rehashInPlace t table else .ok table

/-! ## Growth -/

/-- `insert_during_rehash`, with `try_rehash` as a parameter. -/
def insertDuringRehash
    (tryRehash : Nat → TableState α → Except Crash (ErrorOr Unit × TableState α)) (value : α)
    (s : TableState α) : Except Crash (TableState α) := do
  -- `lookup_for_writing`
  let (i, s) ← must (tryLookupForWriting t tryRehash value s)
  let table := s.table.modify i fun bucket => { bucket with slot := some value, state := .used }
  let table ← linkLast t table i
  return { s with table := table }

/-- The loop of `try_rehash` over the old buckets. -/
def reinsertLoop
    (tryRehash : Nat → TableState α → Except Crash (ErrorOr Unit × TableState α))
    (oldCapacity : Nat) (oldBuckets : Nat → Bucket α) :
    (fuel : Nat) → (it : Option Nat) → TableState α → Except Crash (TableState α)
  | _, none, s => .ok s
  | 0, some _, _ => .error .endless
  | fuel + 1, some i, s =>
    match (oldBuckets i).slot with
    | none => .error .fault
    | some value => do
        let s ← insertDuringRehash t tryRehash value s
        let it ← next t oldBuckets oldCapacity i
        reinsertLoop tryRehash oldCapacity oldBuckets fuel it s

/-- `size_in_bytes`, before it overflows. -/
def sizeInBytes (capacity : Nat) : Nat :=
  if t.isOrdered then t.bucketSize * capacity else t.bucketSize * (capacity + 1)

/-- `kcalloc(1, size)`, which has no more bytes to give than there are addresses. -/
def kcalloc (size : Nat) (s : TableState α) : Bool :=
  s.allocations 0 && decide (size ≤ 2 ^ 57)

/-- The capacity that is allocated for a capacity. -/
def goodCapacity (newCapacity : Nat) : Nat :=
  t.kmallocGoodSize (max newCapacity 4 * t.bucketSize % 2 ^ 64) / t.bucketSize

/-- The new buckets of `try_rehash`, before anything is put into them. -/
def rehashed (table : HashTable α) (newCapacity : Nat) : HashTable α :=
  { table with
    mBuckets := fun i =>
      if t.isOrdered = false ∧ i = newCapacity then { Bucket.zero with state := .endBucket } else .zero
    mHead := none
    mTail := none
    mCapacity := newCapacity
    mDeletedCount := 0 }

/-- `try_rehash`, with `depth` levels of it left. -/
def tryRehash : (depth newCapacity : Nat) → TableState α →
    Except Crash (ErrorOr Unit × TableState α)
  | 0, _, _ => .error .endless
  | depth + 1, newCapacity, s =>
    if newCapacity = s.table.mCapacity ∧ 4 ≤ newCapacity then do
      let table ← rehashInPlace t s.table
      return (.ok (), { s with table := table })
    else
      let newCapacity := goodCapacity t newCapacity
      let old := s.table
      let it := begin t old
      if kcalloc (sizeInBytes t newCapacity % 2 ^ 64) s = false then
        .ok (.error .enomem, { s with allocations := s.allocations.rest })
      else if 2 ^ 64 ≤ sizeInBytes t newCapacity then .error .fault
      else do
        let s := { table := rehashed t old newCapacity, allocations := s.allocations.rest }
        let s ← reinsertLoop t (tryRehash depth) old.mCapacity old.mBuckets (old.mCapacity + 1) it s
        return (.ok (), s)

/-- The levels of `try_rehash`: there are no more capacities than these. -/
def maxDepth : Nat := 2 ^ 64

/-! ## Operations -/

def trySet (value : α) (existingEntryBehavior : HashSetExistingEntryBehavior) (s : TableState α) :
    Except Crash (ErrorOr HashSetResult × TableState α) := do
  let (found, s) ← tryLookupForWriting t (tryRehash t maxDepth) value s
  match found with
  | .error e => return (.error e, s)
  | .ok i =>
    let bucket := s.table.mBuckets i
    if isUsedBucket bucket.state then
      match existingEntryBehavior with
      | .keep => return (.ok .keptExistingEntry, s)
      | .replace =>
        let table := s.table.modify i fun bucket => { bucket with slot := some value }
        return (.ok .replacedExistingEntry, { s with table := table })
    else do
      let table := s.table.modify i fun bucket => { bucket with slot := some value, state := .used }
      let table :=
        if bucket.state = .deleted then { table with mDeletedCount := table.mDeletedCount - 1 }
        else table
      let table ← linkLast t table i
      return (.ok .insertedNewEntry, { s with table := { table with mSize := table.mSize + 1 } })

def set (value : α) (existingEntryBehavior : HashSetExistingEntryBehavior) (s : TableState α) :
    Except Crash (HashSetResult × TableState α) :=
  must (trySet t value existingEntryBehavior s)

def tryEnsureCapacity (capacity : Nat) (s : TableState α) :
    Except Crash (ErrorOr Unit × TableState α) :=
  if capacity < s.table.mSize then .error .abort
  else tryRehash t maxDepth (capacity * 2 % 2 ^ 64) s

def ensureCapacity (capacity : Nat) (s : TableState α) : Except Crash (Unit × TableState α) :=
  must (tryEnsureCapacity t capacity s)

/-- `remove` of an iterator. -/
def removeAt (table : HashTable α) (i : Nat) : Except Crash (HashTable α) :=
  if isUsedBucket (table.mBuckets i).state = false then .error .abort
  else
    let table := table.deleteBucket t i
    rehashInPlaceIfNeeded t
      { table with mSize := table.mSize - 1, mDeletedCount := table.mDeletedCount + 1 }

/-- `remove` of a value. -/
def remove (table : HashTable α) (value : α) : Except Crash (HashTable α × Bool) := do
  match ← table.find t value with
  | none => return (table, false)
  | some i =>
    let table ← table.removeAt t i
    return (table, true)

/-- The loop of `remove_all_matching`, with `count` buckets left. -/
def removeAllMatchingLoop (predicate : α → Bool) :
    (count i removedCount : Nat) → HashTable α → Except Crash (HashTable α × Nat)
  | 0, _, removedCount, table => .ok (table, removedCount)
  | count + 1, i, removedCount, table =>
    let bucket := table.mBuckets i
    if isUsedBucket bucket.state then
      match bucket.slot with
      | none => .error .fault
      | some value =>
        if predicate value then
          removeAllMatchingLoop predicate count (i + 1) (removedCount + 1)
            (table.deleteBucket t i)
        else removeAllMatchingLoop predicate count (i + 1) removedCount table
    else removeAllMatchingLoop predicate count (i + 1) removedCount table

def removeAllMatching (table : HashTable α) (predicate : α → Bool) :
    Except Crash (HashTable α × Bool) := do
  let (table, removedCount) ← removeAllMatchingLoop t predicate table.mCapacity 0 0 table
  let table := { table with
    mDeletedCount := table.mDeletedCount + removedCount
    mSize := table.mSize - removedCount }
  let table ← rehashInPlaceIfNeeded t table
  return (table, removedCount ≠ 0)

end HashTable

end Literate.AK

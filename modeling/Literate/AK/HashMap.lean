import Literate.AK.HashTableRun

/-!
# AK: hash maps

`HashMap` of `AK/HashMap.h` is a hash table of entries, of which only the keys are hashed and
compared.  The association of a map is what `get` answers for every key; it is that of its
entries, in any order.  `hash` goes through the entries in the order of their buckets.
-/

namespace Literate.AK

open Foundation

variable {K V α β : Type}

structure Entry (K V : Type) where
  key : K
  value : V
  deriving DecidableEq, Repr

/-- `HashMap<K, V, KeyTraits, IsOrdered>`, with `hash` of keys and values, the size of a bucket
and `kmalloc_good_size`. -/
structure HashMapType (K V : Type) where
  keyHash : K → UInt32
  keyEquals : K → K → Bool
  hashOfKey : K → UInt32
  hashOfValue : V → UInt32
  isOrdered : Bool
  bucketSize : Nat
  kmallocGoodSize : Nat → Nat
  bucketSize_pos : 0 < bucketSize
  bucketSize_lt : bucketSize < 2 ^ 62
  le_kmallocGoodSize : ∀ size < 2 ^ 64, size ≤ kmallocGoodSize size

/-- `HashTable<Entry, EntryTraits, IsOrdered>`. -/
def HashMapType.table (t : HashMapType K V) : HashTableType (Entry K V) :=
  { hash := fun entry => (t.keyHash entry.key).toNat
    equals := fun a b => t.keyEquals a.key b.key
    isOrdered := t.isOrdered
    bucketSize := t.bucketSize
    kmallocGoodSize := t.kmallocGoodSize
    hash_lt := fun entry => (t.keyHash entry.key).toNat_lt
    bucketSize_pos := t.bucketSize_pos
    bucketSize_lt := t.bucketSize_lt
    le_kmallocGoodSize := t.le_kmallocGoodSize }

/-- What `KeyTraits` and `hash` of the keys promise. -/
structure LawfulKeys (t : HashMapType K V) : Prop where
  refl : ∀ a, t.keyEquals a a = true
  symm : ∀ a b, t.keyEquals a b = true → t.keyEquals b a = true
  trans : ∀ a b c, t.keyEquals a b = true → t.keyEquals b c = true → t.keyEquals a c = true
  keyHash_eq : ∀ a b, t.keyEquals a b = true → t.keyHash a = t.keyHash b
  hashOfKey_eq : ∀ a b, t.keyEquals a b = true → t.hashOfKey a = t.hashOfKey b

/-! ## The elements of a table -/

namespace HashTable

variable (t : HashTableType α)

/-- The loop of `forEach`. -/
def forEachLoop (table : HashTable α) (f : β → α → β) :
    (fuel : Nat) → (it : Option Nat) → β → Except Crash β
  | _, none, b => .ok b
  | 0, some _, _ => .error .endless
  | fuel + 1, some i, b =>
    match (table.mBuckets i).slot with
    | none => .error .fault
    | some value => do
        let it ← next t table.mBuckets table.mCapacity i
        forEachLoop table f fuel it (f b value)

/-- `for (auto& it : table)`.  There are no more elements than buckets. -/
def forEach (table : HashTable α) (f : β → α → β) (b : β) : Except Crash β :=
  forEachLoop t table f (table.mCapacity + 1) (begin t table) b

end HashTable

/-! ## Maps -/

namespace HashMap

variable (t : HashMapType K V)

def find (table : HashTable (Entry K V)) (key : K) : Except Crash (Option Nat) :=
  table.lookupWithHash (t.keyHash key).toNat fun entry => t.keyEquals key entry.key

def get (table : HashTable (Entry K V)) (key : K) : Except Crash (Option V) := do
  match ← find t table key with
  | none => return none
  | some i =>
    match (table.mBuckets i).slot with
    | none => .error .fault
    | some entry => return (some entry.value)

/-- `remove` of a key. -/
def remove (table : HashTable (Entry K V)) (key : K) :
    Except Crash (HashTable (Entry K V) × Bool) := do
  match ← find t table key with
  | none => return (table, false)
  | some i =>
    let table ← table.removeAt t.table i
    return (table, true)

def keys (table : HashTable (Entry K V)) : Except Crash (List K) :=
  table.forEach t.table (fun list entry => list ++ [entry.key]) []

/-- What `hash` does with an entry. -/
def hashEntry (hash : UInt32) (entry : Entry K V) : UInt32 :=
  let entryHash := pairIntHash (t.hashOfKey entry.key) (t.hashOfValue entry.value)
  pairIntHash hash entryHash

def hash (table : HashTable (Entry K V)) : Except Crash UInt32 :=
  table.forEach t.table (hashEntry t) 0

/-- The operations of a map.  An iterator is one of its buckets. -/
inductive Operation (K V : Type) where
  | set (key : K) (value : V)
  | trySet (key : K) (value : V)
  | remove (key : K)
  | removeAt (iterator : Nat)
  | removeAllMatching (predicate : K → V → Bool)
  | ensureCapacity (capacity : Nat)
  | tryEnsureCapacity (capacity : Nat)

/-- An operation, without what it returns. -/
def perform (s : TableState (Entry K V)) : Operation K V → Except Crash (TableState (Entry K V))
  | .set key value => HashTable.perform t.table s (.set { key := key, value := value } .replace)
  | .trySet key value => HashTable.perform t.table s (.trySet { key := key, value := value } .replace)
  | .remove key => do
      let (table, _) ← remove t s.table key
      return { s with table := table }
  | .removeAt iterator => HashTable.perform t.table s (.removeAt iterator)
  | .removeAllMatching predicate =>
    HashTable.perform t.table s (.removeAllMatching fun entry => predicate entry.key entry.value)
  | .ensureCapacity capacity => HashTable.perform t.table s (.ensureCapacity capacity)
  | .tryEnsureCapacity capacity => HashTable.perform t.table s (.tryEnsureCapacity capacity)

/-- A step of a run.  The program is over where an operation stops it. -/
def step (s : TableState (Entry K V)) (op : Operation K V) : Option (TableState (Entry K V)) :=
  (perform t s op).toOption

end HashMap

end Literate.AK

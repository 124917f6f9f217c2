import Literate.AK.HashTableInPlace

/-!
# AK: the operations of a hash table

What `try_set`, `try_ensure_capacity`, `remove` and `remove_all_matching` do to the elements of
a table, on every path through growth and rehashing.  The elements of an ordered table are only
moved while its links are in order.
-/

namespace Literate.AK

open Foundation List Option

variable {α β : Type}

/-- Neither a lookup nor a loop over the buckets goes on forever. -/
abbrev Ends (P : β → Prop) (r : Except Crash β) : Prop :=
  Ensures (fun crash : Crash => crash ≠ .endless) P r

/-- What `try_set` does to the elements: a new one is put behind the others, and one that is
there is kept or replaced. -/
inductive SetsTo (t : HashTableType α) (value : α) :
    HashSetExistingEntryBehavior → HashSetResult → List α → List α → Prop
  | inserted {behavior : HashSetExistingEntryBehavior} {values : List α}
      (hnew : ∀ other ∈ values, t.hash other = t.hash value → t.equals other value = false) :
      SetsTo t value behavior .insertedNewEntry values (values ++ [value])
  | kept {before after : List α} {old : α} (hequals : t.equals old value = true) :
      SetsTo t value .keep .keptExistingEntry (before ++ old :: after) (before ++ old :: after)
  | replaced {before after : List α} {old : α} (hequals : t.equals old value = true) :
      SetsTo t value .replace .replacedExistingEntry (before ++ old :: after) (before ++ value :: after)

variable {i : Nat} {middle : List α}

namespace HashTable

variable {t : HashTableType α} {s : TableState α} {table : HashTable α} {order deleted : List Nat}
  {values : List α} {value : α} {allowed : Crash → Prop} {I : TableState α → Prop}

/-! ## Capacity -/

theorem tryRehash_same_spec {newCapacity : Nat} (h : Sound t s.table order deleted values)
    (hcount : s.table.usedBucketCount < 2 ^ 32)
    (hsame : newCapacity = s.table.mCapacity ∧ 4 ≤ newCapacity) :
    ∃ s' order', tryRehash t maxDepth newCapacity s = .ok (.ok (), s') ∧
      Sound t s'.table order' [] values ∧ s'.table.mSize = s.table.mSize ∧
      s'.table.mDeletedCount = 0 ∧
      (t.isOrdered = true → Chained s.table order → keepsLinks t s.table = true →
        Chained s'.table order') := by
  obtain ⟨table', order', hrehash, hfilled, hlength, hsize, hcapacity, hdeleted, hchained⟩ :=
    rehashInPlace_spec h.toFilled (h.length_le_of_count hcount)
  obtain ⟨depth, hdepth⟩ : ∃ depth, maxDepth = depth + 1 := ⟨2 ^ 64 - 1, by decide⟩
  rw [hdepth, tryRehash, if_pos hsame, hrehash]
  refine ⟨_, order', rfl, { hfilled with
    room := ?_, bytes := ?_, size_le := ?_, deleted_le := Nat.zero_le _ }, hsize, hdeleted, hchained⟩
  · have hroom := h.room
    rw [hcapacity, hlength, length_nil]
    omega
  · rw [hcapacity]
    exact h.bytes
  · rw [hlength, hsize]
    exact h.size_le

/-- `try_rehash` moves the elements, and loses none when no two of them are equal. -/
theorem tryRehash_spec (hwatches : Watches t allowed I) {newCapacity : Nat}
    (hopens : Opens t allowed I newCapacity s) (h : Sound t s.table order deleted values)
    (hinOrder : InOrder t s.table order values) (hcount : s.table.usedBucketCount < 2 ^ 32) :
    Ensures allowed (OrUnchanged s fun _ s' => ∃ order' values', Sound t s'.table order' [] values' ∧
        s'.table.mSize = s.table.mSize ∧ s'.table.mDeletedCount = 0 ∧ Retained t values values' ∧
        (t.isOrdered = true → Chained s.table order →
          (newCapacity = s.table.mCapacity ∧ 4 ≤ newCapacity → keepsLinks t s.table = true) →
            Chained s'.table order') ∧
        (¬ (newCapacity = s.table.mCapacity ∧ 4 ≤ newCapacity) →
          I s' ∧ Doubled s.table.mSize order.length s'.table.mCapacity))
      (tryRehash t maxDepth newCapacity s) := by
  by_cases hsame : newCapacity = s.table.mCapacity ∧ 4 ≤ newCapacity
  · obtain ⟨s', order', hrehash, hsound, hsize, hdeleted, hchained⟩ :=
      tryRehash_same_spec h hcount hsame
    rw [hrehash]
    exact ⟨order', values, hsound, hsize, hdeleted, Retained.refl,
      fun hordered hlinks hkeeps => hchained hordered hlinks (hkeeps hsame),
      fun hother => absurd hsame hother⟩
  · have hsmall : s.table.mSize < 2 ^ 32 := Nat.lt_of_le_of_lt (Nat.le_add_right _ _) hcount
    obtain ⟨depth, hdepth⟩ : ∃ depth, maxDepth = depth + 1 := ⟨2 ^ 64 - 1, by decide⟩
    have hlarge : 2 * (s.table.mSize + 1) ≤ depth + goodCapacity t newCapacity := by
      have hmax : maxDepth = 2 ^ 64 := rfl
      omega
    have hgrows : Grows t allowed I (tryRehash t depth) s.table.mSize (goodCapacity t newCapacity) :=
      tryRehash_grows hwatches hsmall hlarge
    rw [hdepth]
    refine (tryRehash_succ_spec hgrows hwatches.steady hopens h hinOrder rfl hsmall hsame).mono ?_
    rintro ⟨result, s'⟩ hresult
    cases result with
    | error e => exact hresult
    | ok _ =>
      obtain ⟨⟨order', values', hgrowing, hsize, -, hretained⟩, hI, hdoubled⟩ := hresult
      exact ⟨order', values', hgrowing.toSound, hsize, hgrowing.deletedCount, hretained,
        fun hordered _ _ => hgrowing.chained hordered, fun _ => ⟨hI, hdoubled⟩⟩

/-! ## Setting -/

theorem linkLast_spec (hi : i ∉ order)
    (hlinks : t.isOrdered = true → Chained table order ∨ allowed .fault) :
    Ensures allowed (fun table' => Relinked table table' ∧
        (t.isOrdered = true → Chained table order → Chained table' (order ++ [i])))
      (linkLast t table i) := by
  cases hlink : linkLast t table i with
  | ok table' =>
    refine ⟨linkLast_relinked hlink, fun hordered hchained => ?_⟩
    obtain ⟨table'', hlink', hchained'⟩ := linkLast_chained hordered hchained hi
    obtain rfl : table'' = table' := Except.ok.inj (hlink'.symm.trans hlink)
    exact hchained'
  | error crash =>
    have hordered : t.isOrdered = true := by
      rw [← Bool.not_eq_false]
      intro hunordered
      rw [linkLast, hunordered, if_neg (by decide)] at hlink
      cases hlink
    rcases hlinks hordered with hchained | hfault
    · obtain ⟨table', hlink', -⟩ := linkLast_chained hordered hchained hi
      cases hlink'.symm.trans hlink
    · have hcrash : crash = .fault := by
        unfold linkLast at hlink
        rw [if_pos hordered] at hlink
        cases hhead : table.mHead with
        | none =>
          rw [hhead] at hlink
          cases hlink
        | some first =>
          cases htail : table.mTail with
          | none =>
            rw [hhead, htail] at hlink
            cases hlink
            rfl
          | some last =>
            rw [hhead, htail] at hlink
            cases hlink
      rw [hcrash]
      exact hfault

/-- The elements before a lookup for writing ends: there is room for one more. -/
structure Ready (t : HashTableType α) (size : Nat) (values : List α) (table : HashTable α)
    (order deleted : List Nat) (middle : List α) : Prop extends Sound t table order deleted middle where
  size_eq : table.mSize = size
  kept : Retained t values middle
  ready : order.length + deleted.length + 1 < table.mCapacity
  hashes : order.length + deleted.length < min table.mCapacity (2 ^ 32)

/-- `try_lookup_for_writing` of a table, with the growth before it. -/
theorem lookup_ready (hwatches : Watches t allowed I)
    (hopens : s.table.shouldGrow = true → Opens t allowed I (2 * s.table.mCapacity) s)
    (h : Sound t s.table order deleted values) (hinOrder : InOrder t s.table order values)
    (hcount : s.table.usedBucketCount < 2 ^ 32) (value : α) :
    Ensures allowed (OrUnchanged s fun i s' =>
        (∃ order' deleted' middle, Ready t s.table.mSize values s'.table order' deleted' middle ∧
          s'.table.mDeletedCount ≤ s.table.mDeletedCount ∧
          (s.table.shouldGrow = false → s'.table.mCapacity = s.table.mCapacity) ∧
          (t.isOrdered = true → Chained s.table order → Chained s'.table order')) ∧
        lookupForWritingLoop t s'.table value (2 ^ 32) (t.hash value) none = .ok i)
      (tryLookupForWriting t (tryRehash t maxDepth) value s) := by
  have hsmall : s.table.mSize < 2 ^ 32 := Nat.lt_of_le_of_lt (Nat.le_add_right _ _) hcount
  have hroom := h.room
  have hsizeLe := h.size_le
  refine @tryLookupForWriting_spec α t _ s value _ (fun s' =>
    ∃ order' deleted' middle, Ready t s.table.mSize values s'.table order' deleted' middle ∧
      s'.table.mDeletedCount ≤ s.table.mDeletedCount ∧
      (s.table.shouldGrow = false → s'.table.mCapacity = s.table.mCapacity) ∧
      (t.isOrdered = true → Chained s.table order → Chained s'.table order')) ?_ ?_ ?_
  · intro hshould
    obtain ⟨depth, hdepth⟩ : ∃ depth, maxDepth = depth + 1 := ⟨2 ^ 64 - 1, by decide⟩
    have hgrows : Grows t allowed I (tryRehash t depth) s.table.mSize
        (goodCapacity t (2 * s.table.mCapacity)) := by
      refine tryRehash_grows hwatches hsmall ?_
      have hmax : maxDepth = 2 ^ 64 := rfl
      omega
    rw [hdepth]
    refine (tryRehash_double_spec hgrows hwatches.steady (hopens hshould) h hinOrder rfl hsmall).mono ?_
    rintro ⟨result, s'⟩ hresult
    cases result with
    | error e => exact hresult
    | ok _ =>
      obtain ⟨⟨order', middle, hgrowing, hsize, hcapacity, hretained⟩, -⟩ := hresult
      have hnil : s.table.mCapacity = 0 → order.length = 0 := fun hzero => by
        rw [(h.eq_nil_of_capacity hzero).1, length_nil]
      have hlength := hretained.length_le
      rw [← h.length_eq, ← hgrowing.length_eq] at hlength
      refine ⟨order', [], middle, ⟨hgrowing.toSound, hsize, hretained, ?_, ?_⟩, ?_,
        fun hstays => Bool.noConfusion (hstays.symm.trans hshould),
        fun hordered _ => hgrowing.chained hordered⟩
      · rw [length_nil]
        omega
      · rw [length_nil]
        omega
      · rw [hgrowing.deletedCount]
        exact Nat.zero_le _
  · intro hstays
    obtain ⟨hready, hhashes⟩ := h.room_of_stays hcount hstays
    exact ⟨order, deleted, values, ⟨h, rfl, Retained.refl, hready, hhashes⟩, Nat.le_refl _,
      fun _ => rfl, fun _ hchained => hchained⟩
  · rintro s' ⟨order', deleted', middle, hready, -⟩
    obtain ⟨i, hloop, -⟩ := lookupForWriting_spec hready.toFilled hready.hashes value
    exact ⟨i, hloop⟩

theorem replace_spec {size : Nat} (h : Ready t size values table order deleted middle)
    (hbucket : BucketFor t table order middle value i) (hi : i ∈ order) :
    ∃ first old last, middle = first ++ old :: last ∧ t.equals old value = true ∧
      Sound t (table.modify i fun bucket => { bucket with slot := some value }) order deleted
        (first ++ value :: last) := by
  obtain ⟨other, hother, hequals⟩ := hbucket.equal_of_mem hi
  obtain ⟨orderBefore, orderAfter, first, old, last, rfl, rfl, hlengths, hold⟩ := h.exists_split hi
  obtain rfl : old = other := some.inj (hold.symm.trans hother)
  have hused : ((table.modify i fun bucket => { bucket with slot := some value }).mBuckets i).state =
      .used := by
    rw [modify_self]
    exact h.used hi
  have hslot : ((table.modify i fun bucket => { bucket with slot := some value }).mBuckets i).slot =
      some value := by
    rw [modify_self]
  exact ⟨first, old, last, rfl, hequals,
    { h.replace hlengths hbucket.reaches ChangedAt.modify hused hslot with
      room := h.room, bytes := h.bytes, size_le := h.size_le, deleted_le := h.deleted_le }⟩

theorem insert_spec {size : Nat} (h : Ready t size values table order deleted middle)
    (hbucket : BucketFor t table order middle value i) (hi : i ∉ order)
    {put table' : HashTable α} (hbuckets : put.mBuckets = (table.modify i fun bucket =>
      { bucket with slot := some value, state := .used }).mBuckets)
    (hcapacities : put.mCapacity = table.mCapacity) (hsize : put.mSize = table.mSize)
    (hdeleted : put.mDeletedCount = if (table.mBuckets i).state = .deleted then table.mDeletedCount - 1
      else table.mDeletedCount)
    (hrelinked : Relinked put table') :
    Sound t { table' with mSize := table'.mSize + 1 } (order ++ [i]) (deleted.erase i)
      (middle ++ [value]) := by
  have hchanged : ChangedAt table put i := by
    refine ⟨hcapacities, fun j hj => ?_⟩
    rw [hbuckets, modify_of_ne hj]
    exact ⟨rfl, rfl⟩
  have hstate : (put.mBuckets i).state = .used := by rw [hbuckets, modify_self]
  have hslot : (put.mBuckets i).slot = some value := by rw [hbuckets, modify_self]
  have hfilled := (h.insert hbucket.lt hi hbucket.reaches hchanged hstate hslot).congr hrelinked.contents
  have hfilled' : Filled t { table' with mSize := table'.mSize + 1 } (order ++ [i]) (deleted.erase i)
      (middle ++ [value]) := hfilled.congr ⟨rfl, fun _ => ⟨rfl, rfl⟩⟩
  have hcapacity : table'.mCapacity = table.mCapacity := hrelinked.counts.2.1.trans hchanged.1
  have hlength : (order ++ [i]).length = order.length + 1 := by rw [length_append, length_singleton]
  have herase := length_erase_le (l := deleted) (a := i)
  have hready := h.ready
  have hsizeLe := h.size_le
  have hdeletedLe := h.deleted_le
  have hdeletedCount : table'.mDeletedCount = put.mDeletedCount := hrelinked.counts.2.2
  refine { hfilled' with room := .inl ?_, bytes := ?_, size_le := ?_, deleted_le := ?_ }
  · rw [hlength]
    dsimp only
    omega
  · dsimp only
    rw [hcapacity]
    exact h.bytes
  · rw [hlength]
    dsimp only
    rw [hrelinked.counts.1, hsize]
    omega
  · dsimp only
    rw [hdeletedCount, hdeleted]
    split_ifs with hwasDeleted
    · have hmem : i ∈ deleted := (h.deleted_iff i).mpr ⟨hbucket.lt, hwasDeleted⟩
      rw [length_erase_of_mem hmem]
      omega
    · omega

/-- `try_set` puts an element behind the others, or where an equal one is. -/
theorem trySet_spec (hwatches : Watches t allowed I)
    (hopens : s.table.shouldGrow = true → Opens t allowed I (2 * s.table.mCapacity) s)
    (h : Sound t s.table order deleted values) (hinOrder : InOrder t s.table order values)
    (hlinks : t.isOrdered = true → Chained s.table order ∨ allowed .fault)
    (hcount : s.table.usedBucketCount < 2 ^ 32) (value : α) (behavior : HashSetExistingEntryBehavior) :
    Ensures allowed (OrUnchanged s fun result s' => ∃ order' deleted' middle values',
        Sound t s'.table order' deleted' values' ∧ Retained t values middle ∧
        SetsTo t value behavior result middle values' ∧
        s'.table.mSize = s.table.mSize + (if result = .insertedNewEntry then 1 else 0) ∧
        s'.table.mDeletedCount ≤ s.table.mDeletedCount ∧
        (s.table.shouldGrow = false → s'.table.mCapacity = s.table.mCapacity) ∧
        (t.isOrdered = true → Chained s.table order → Chained s'.table order'))
      (trySet t value behavior s) := by
  refine Ensures.bind (lookup_ready hwatches hopens h hinOrder hcount value) ?_
  rintro ⟨result, s'⟩ hresult
  cases result with
  | error e => exact hresult
  | ok i =>
    obtain ⟨⟨order', deleted', middle, hready, hdeletedLe, hcapacity, hchained⟩, hloop⟩ := hresult
    obtain ⟨i', hloop', hbucket⟩ := lookupForWriting_spec hready.toFilled hready.hashes value
    obtain rfl : i' = i := Except.ok.inj (hloop'.symm.trans hloop)
    dsimp only
    by_cases hi : i' ∈ order'
    · obtain ⟨first, old, last, hmiddle, hequals, hsound⟩ := replace_spec hready hbucket hi
      rw [if_pos (by rw [hready.used hi]; rfl)]
      subst hmiddle
      cases behavior with
      | keep =>
        exact ⟨order', deleted', _, _, hready.toSound, hready.kept, .kept hequals, hready.size_eq,
          hdeletedLe, hcapacity, hchained⟩
      | replace =>
        exact ⟨order', deleted', _, _, hsound, hready.kept, .replaced hequals, hready.size_eq,
          hdeletedLe, hcapacity, fun hordered hold => (hchained hordered hold).modify
            (f := fun bucket => { bucket with slot := some value }) (fun _ => rfl) fun _ => rfl⟩
    · have hunused : ¬ isUsedBucket (s'.table.mBuckets i').state = true := by
        rcases hready.bucket_cases hbucket.lt with hfree | hdeleted | ⟨hused, -⟩
        · rw [hfree]; decide
        · rw [hdeleted]; decide
        · exact absurd ((hready.used_iff i').mpr ⟨hbucket.lt, hused⟩) hi
      rw [if_neg hunused]
      have hput : ∀ hordered : t.isOrdered = true, Chained s'.table order' → Chained
          (if (s'.table.mBuckets i').state = .deleted then
            { (s'.table.modify i' fun bucket => { bucket with slot := some value, state := .used }) with
              mDeletedCount := (s'.table.modify i' fun bucket =>
                { bucket with slot := some value, state := .used }).mDeletedCount - 1 }
          else s'.table.modify i' fun bucket => { bucket with slot := some value, state := .used })
          order' := by
        intro _ hold
        have hmodified : Chained (s'.table.modify i' fun bucket =>
            { bucket with slot := some value, state := .used }) order' :=
          hold.modify (fun _ => rfl) fun _ => rfl
        split_ifs
        · exact hmodified.congr rfl rfl rfl rfl
        · exact hmodified
      refine Ensures.bind (linkLast_spec hi fun hordered =>
        (hlinks hordered).imp_left fun hold => hput hordered (hchained hordered hold)) ?_
      rintro table' ⟨hrelinked, hchained'⟩
      have hinserted := insert_spec hready hbucket hi (by split_ifs <;> rfl) (by split_ifs <;> rfl)
        (by split_ifs <;> rfl) (by split_ifs <;> rfl) hrelinked
      refine ⟨_, _, middle, _, hinserted, hready.kept, .inserted (hbucket.new_of_notMem hi), ?_, ?_,
        ?_, fun hordered hold => (hchained' hordered (hput hordered (hchained hordered hold))).congr
          rfl rfl rfl rfl⟩
      · dsimp only
        rw [if_pos rfl, hrelinked.counts.1, ← hready.size_eq]
        split_ifs <;> rfl
      · dsimp only
        rw [hrelinked.counts.2.2]
        split_ifs
        · exact (Nat.sub_le _ 1).trans hdeletedLe
        · exact hdeletedLe
      · intro hstays
        rw [hrelinked.counts.2.1, ← hcapacity hstays]
        split_ifs <;> rfl

/-! ## Removing -/

theorem deleteBucket_relinked (i : Nat) :
    Relinked (table.modify i fun bucket => { bucket with state := .deleted, slot := none })
      (table.deleteBucket t i) := by
  unfold deleteBucket
  split_ifs
  · dsimp only
    generalize (table.modify i fun bucket => { bucket with state := .deleted, slot := none }) = first
    refine Relinked.trans ?_ (Relinked.modify (fun _ => rfl) fun _ => rfl)
    cases (first.mBuckets i).previous with
    | none =>
      cases (first.mBuckets i).next with
      | none => exact ⟨⟨rfl, fun _ => ⟨rfl, rfl⟩⟩, rfl, rfl, rfl⟩
      | some after => exact Relinked.head.trans (Relinked.modify (fun _ => rfl) fun _ => rfl)
    | some before =>
      dsimp only
      have hbefore : Relinked first (first.modify before fun b =>
          { b with next := (first.mBuckets i).next }) :=
        Relinked.modify (fun _ => rfl) fun _ => rfl
      generalize (first.modify before fun b => { b with next := (first.mBuckets i).next }) =
        second at *
      cases (second.mBuckets i).next with
      | none => exact hbefore.trans Relinked.tail
      | some after => exact hbefore.trans (Relinked.modify (fun _ => rfl) fun _ => rfl)
  · exact Relinked.refl

theorem deleteBucket_changed (i : Nat) : ChangedAt table (table.deleteBucket t i) i ∧
    ((table.deleteBucket t i).mBuckets i).state = .deleted ∧
      SameCounts table (table.deleteBucket t i) := by
  have hrelinked := @deleteBucket_relinked α t table i
  refine ⟨ChangedAt.modify.trans_same hrelinked.contents, ?_,
    SameCounts.trans ⟨rfl, rfl, rfl⟩ hrelinked.counts⟩
  rw [(hrelinked.contents.2 i).1, modify_self]

/-- The links stay in order in `rehash_in_place_if_needed`. -/
def keepsLinksIfNeeded (t : HashTableType α) (table : HashTable α) : Bool :=
  if table.mSize ≤ table.mDeletedCount ∧ table.shouldGrow then keepsLinks t table else true

theorem rehashInPlaceIfNeeded_spec (h : Sound t table order deleted values)
    (hlength : order.length ≤ 2 ^ 32) :
    ∃ table' order' deleted', rehashInPlaceIfNeeded t table = .ok table' ∧
      Sound t table' order' deleted' values ∧ table'.mSize = table.mSize ∧
      table'.mCapacity = table.mCapacity ∧
      (t.isOrdered = true → Chained table order → keepsLinksIfNeeded t table = true →
        Chained table' order') := by
  unfold rehashInPlaceIfNeeded keepsLinksIfNeeded
  split_ifs
  · obtain ⟨table', order', hrehash, hfilled, hlength', hsize, hcapacity, hdeleted, hchained⟩ :=
      rehashInPlace_spec h.toFilled hlength
    have hroom := h.room
    refine ⟨table', order', [], hrehash, { hfilled with
      room := ?_, bytes := ?_, size_le := ?_, deleted_le := Nat.zero_le _ }, hsize, hcapacity, hchained⟩
    · rw [hcapacity, hlength', length_nil]
      omega
    · rw [hcapacity]
      exact h.bytes
    · rw [hlength', hsize]
      exact h.size_le
  · exact ⟨table, order, deleted, rfl, h, rfl, rfl, fun _ hlinks _ => hlinks⟩

/-- A table in which a bucket has been deleted, and counted. -/
def withDeleted (t : HashTableType α) (table : HashTable α) (i : Nat) : HashTable α :=
  { table.deleteBucket t i with
    mSize := (table.deleteBucket t i).mSize - 1
    mDeletedCount := (table.deleteBucket t i).mDeletedCount + 1 }

theorem withDeleted_chained {before after : List Nat} (hordered : t.isOrdered = true)
    (h : Chained table (before ++ i :: after)) : Chained (withDeleted t table i) (before ++ after) :=
  (h.deleteBucket hordered).congr rfl rfl rfl rfl

theorem removeAt_of_mem (h : Sound t table order deleted values) (hi : i ∈ order) :
    table.removeAt t i = rehashInPlaceIfNeeded t (withDeleted t table i) := by
  have hused : ¬ isUsedBucket (table.mBuckets i).state = false := by
    rw [h.used hi]
    decide
  rw [removeAt, if_neg hused]
  rfl

theorem removeAt_of_notMem (h : Sound t table order deleted values) (hlt : i < table.mCapacity)
    (hi : i ∉ order) : table.removeAt t i = .error .abort := by
  have hunused : isUsedBucket (table.mBuckets i).state = false := by
    rcases h.bucket_cases hlt with hfree | hdeleted | ⟨hused, -⟩
    · rw [hfree]
      rfl
    · rw [hdeleted]
      rfl
    · exact absurd ((h.used_iff i).mpr ⟨hlt, hused⟩) hi
  rw [removeAt, if_pos hunused]

theorem withDeleted_sound {orderBefore orderAfter : List Nat} {before after : List α}
    (h : Sound t table (orderBefore ++ i :: orderAfter) deleted (before ++ value :: after))
    (hlengths : orderBefore.length = before.length) :
    Sound t (withDeleted t table i) (orderBefore ++ orderAfter) (i :: deleted) (before ++ after) ∧
      (withDeleted t table i).mSize + 1 = table.mSize := by
  obtain ⟨hchanged, hstate, hcounts⟩ := @deleteBucket_changed α t table i
  have hfilled : Filled t (withDeleted t table i) (orderBefore ++ orderAfter) (i :: deleted)
      (before ++ after) := (h.delete hlengths hchanged hstate).congr ⟨rfl, fun _ => ⟨rfl, rfl⟩⟩
  have hsize := h.size_le
  have hdeleted := h.deleted_le
  have hroom := h.room
  have hlengthAll : (orderBefore ++ i :: orderAfter).length = (orderBefore ++ orderAfter).length + 1 := by
    simp only [length_append, length_cons, Nat.add_assoc]
  refine ⟨{ hfilled with room := ?_, bytes := ?_, size_le := ?_, deleted_le := ?_ }, ?_⟩
  · rw [withDeleted]
    rw [hcounts.2.1, length_cons]
    omega
  · rw [withDeleted]
    rw [hcounts.2.1]
    exact h.bytes
  · rw [withDeleted]
    dsimp only
    rw [hcounts.1]
    omega
  · rw [withDeleted]
    dsimp only
    rw [hcounts.2.2, length_cons]
    omega
  · rw [withDeleted]
    dsimp only
    rw [hcounts.1]
    omega

/-- `remove` of an iterator takes its element away. -/
theorem removeAt_spec (h : Sound t table order deleted values) (hlength : order.length ≤ 2 ^ 32)
    (hi : i ∈ order) :
    ∃ table' order' deleted' before value after, table.removeAt t i = .ok table' ∧
      values = before ++ value :: after ∧ (table.mBuckets i).slot = some value ∧
      Sound t table' order' deleted' (before ++ after) ∧ table'.mSize + 1 = table.mSize ∧
      (t.isOrdered = true → Chained table order →
        keepsLinksIfNeeded t (withDeleted t table i) = true → Chained table' order') := by
  obtain ⟨orderBefore, orderAfter, before, value, after, rfl, rfl, hlengths, hslot⟩ := h.exists_split hi
  obtain ⟨hsound, hsize⟩ := withDeleted_sound h hlengths
  rw [length_append, length_cons] at hlength
  obtain ⟨table', order', deleted', hrehash, hsound', hsize', -, hchained⟩ :=
    rehashInPlaceIfNeeded_spec hsound (by rw [length_append]; omega)
  exact ⟨table', order', deleted', before, value, after, (removeAt_of_mem h hi).trans hrehash, rfl, hslot,
    hsound', by rw [hsize', hsize], fun hordered hlinks =>
      hchained hordered (withDeleted_chained hordered hlinks)⟩

/-- A lookup ends, at an element or when there is none of the hash.  Without buckets there has to
be no element. -/
theorem lookupWithHash_ensures (h : Sound t table order deleted values)
    (hcount : table.usedBucketCount < 2 ^ 32)
    (hempty : table.mCapacity = 0 → table.mSize = 0 ∨ allowed .fault) {hash : Nat} (hhash : hash < 2 ^ 32)
    (predicate : α → Bool) : Ensures allowed (fun it =>
        (∃ i ∈ order, ∃ other, it = some i ∧ (table.mBuckets i).slot = some other ∧
          predicate other = true) ∨
        (it = none ∧ ∀ other ∈ values, t.hash other = hash → predicate other = false))
      (table.lookupWithHash hash predicate) := by
  rcases Nat.eq_zero_or_pos table.mCapacity with hzero | hpos
  · have hnil : values = [] := by
      rw [← length_eq_zero_iff, ← h.length_eq, (h.eq_nil_of_capacity hzero).1, length_nil]
    unfold lookupWithHash
    split_ifs with hsize
    · exact .inr ⟨rfl, fun other hother => absurd (hnil ▸ hother) not_mem_nil⟩
    · obtain ⟨fuel, hfuel⟩ : ∃ fuel, 2 ^ 32 = fuel + 1 := ⟨2 ^ 32 - 1, by decide⟩
      rw [hfuel, lookupWithHashLoop, if_pos hzero]
      exact (hempty hzero).resolve_left hsize
  · rcases lookupWithHash_spec h.toFilled (h.exists_free_bucket hpos hcount) h.size_le hhash predicate
      with ⟨i, hi, other, hslot, hpredicate, hlookup⟩ | ⟨hnone, hlookup⟩
    · rw [hlookup]
      exact .inl ⟨i, hi, other, rfl, hslot, hpredicate⟩
    · rw [hlookup]
      exact .inr ⟨rfl, hnone⟩

/-- `remove` of a value takes an equal element away, if there is one. -/
theorem remove_spec (h : Sound t table order deleted values) (hcount : table.usedBucketCount < 2 ^ 32)
    (hempty : table.mCapacity = 0 → table.mSize = 0 ∨ allowed .fault) (value : α) :
    Ensures allowed (fun r =>
        (r = (table, false) ∧
          ∀ other ∈ values, t.hash other = t.hash value → t.equals value other = false) ∨
        (r.2 = true ∧ ∃ order' deleted' before old after,
          values = before ++ old :: after ∧ t.equals value old = true ∧
          Sound t r.1 order' deleted' (before ++ after) ∧ r.1.mSize + 1 = table.mSize ∧
          (t.isOrdered = true → Chained table order → (∀ i, table.find t value = .ok (some i) →
            keepsLinksIfNeeded t (withDeleted t table i) = true) → Chained r.1 order')))
      (table.remove t value) := by
  unfold remove
  have hensures := lookupWithHash_ensures h hcount hempty (t.hash_lt value) fun other =>
    t.equals value other
  refine Ensures.bind (Ensures.and_ok hensures) ?_
  rintro it ⟨hfind, ⟨i, hi, other, rfl, hslot, hequals⟩ | ⟨rfl, hnone⟩⟩
  · obtain ⟨table', order', deleted', before, old, after, hremove, hvalues, hold, hsound, hsize,
        hchained⟩ := removeAt_spec h (h.length_le_of_count hcount) hi
    obtain rfl : other = old := some.inj (hslot.symm.trans hold)
    dsimp only
    rw [hremove]
    exact .inr ⟨rfl, order', deleted', before, other, after, hvalues, hequals, hsound, hsize,
      fun hordered hlinks hkeeps => hchained hordered hlinks (hkeeps i hfind)⟩
  · exact .inl ⟨rfl, hnone⟩

/-- The loop of `remove_all_matching`: the elements that do not match are kept. -/
theorem removeAllMatchingLoop_spec {predicate : α → Bool} {count i : Nat}
    (h : Filled t table order deleted values) (hend : i + count = table.mCapacity)
    (hbefore : ∀ j ∈ order, j < i → ∀ value, (table.mBuckets j).slot = some value →
      predicate value = false) :
    ∃ table' order' deleted' values',
      (∀ removedCount, removeAllMatchingLoop t predicate count i removedCount table =
        .ok (table', removedCount + (order.length - order'.length))) ∧
      Filled t table' order' deleted' values' ∧ SameCounts table table' ∧
      order'.length + deleted'.length = order.length + deleted.length ∧
      order'.length ≤ order.length ∧
      values'.filter (fun value => !predicate value) = values.filter (fun value => !predicate value) ∧
      (∀ value ∈ values', predicate value = false) ∧
      (t.isOrdered = true → Chained table order → Chained table' order') := by
  induction count generalizing i table order deleted values with
  | zero =>
    refine ⟨table, order, deleted, values, fun removedCount => ?_, h, SameCounts.refl, rfl,
      Nat.le_refl _, rfl, fun value hvalue => ?_, fun _ hlinks => hlinks⟩
    · rw [removeAllMatchingLoop, Nat.sub_self, Nat.add_zero]
    · obtain ⟨j, hj, hslot⟩ := h.exists_bucket hvalue
      exact hbefore j hj (by have := h.lt hj; omega) value hslot
  | succ count ih =>
    by_cases hmem : i ∈ order
    · obtain ⟨orderBefore, orderAfter, before, value, after, horder, hvalues, hlengths, hslot⟩ :=
        h.exists_split hmem
      have hstate : isUsedBucket (table.mBuckets i).state = true := by
        rw [h.used hmem]
        rfl
      by_cases hmatches : predicate value = true
      · subst horder hvalues
        obtain ⟨hchanged, hdeleted, hcounts⟩ := @deleteBucket_changed α t table i
        have hnodup := nodup_cons.mp (nodup_middle.mp h.nodup)
        obtain ⟨table', order', deleted', values', hloop, hfilled, hcounts', hlength, hle, hfilter,
            hnone, hchained⟩ := ih (h.delete hlengths hchanged hdeleted)
          (by rw [hchanged.1]; omega) (i := i + 1) fun j hj hlt other hother => by
            have hji : j ≠ i := fun hji => hnodup.1 (hji ▸ hj)
            rw [(hchanged.2 j hji).2] at hother
            refine hbefore j ?_ (by omega) other hother
            exact (mem_append.mp hj).elim (mem_append_left _) fun hj =>
              mem_append_right _ (mem_cons_of_mem i hj)
        rw [length_cons] at hlength
        have hlengthAll : (orderBefore ++ i :: orderAfter).length =
            (orderBefore ++ orderAfter).length + 1 := by
          simp only [length_append, length_cons, Nat.add_assoc]
        refine ⟨table', order', deleted', values', fun removedCount => ?_, hfilled,
          hcounts.trans hcounts', by omega, by omega, hfilter.trans ?_, hnone,
          fun hordered hlinks => hchained hordered (hlinks.deleteBucket hordered)⟩
        · rw [removeAllMatchingLoop]
          rw [if_pos hstate, hslot]
          dsimp only
          rw [if_pos hmatches, hloop, hlengthAll]
          congr 2
          omega
        · rw [filter_append, filter_append, filter_cons_of_neg (by rw [hmatches]; decide)]
      · obtain ⟨table', order', deleted', values', hloop, hrest⟩ :=
          ih h (by omega) (i := i + 1) fun j hj hlt other hother => by
            rcases Nat.lt_succ_iff_lt_or_eq.mp hlt with hlt | rfl
            · exact hbefore j hj hlt other hother
            · obtain rfl : value = other := some.inj (hslot.symm.trans hother)
              exact Bool.not_eq_true _ ▸ hmatches
        refine ⟨table', order', deleted', values', fun removedCount => ?_, hrest⟩
        rw [removeAllMatchingLoop]
        rw [if_pos hstate, hslot]
        dsimp only
        rw [if_neg hmatches, hloop]
    · have hstate : ¬ isUsedBucket (table.mBuckets i).state = true := by
        rcases h.bucket_cases (by omega : i < table.mCapacity) with hfree | hdeleted | ⟨hused, -⟩
        · rw [hfree]; decide
        · rw [hdeleted]; decide
        · exact absurd ((h.used_iff i).mpr ⟨by omega, hused⟩) hmem
      obtain ⟨table', order', deleted', values', hloop, hrest⟩ :=
        ih h (by omega) (i := i + 1) fun j hj hlt other hother => by
          rcases Nat.lt_succ_iff_lt_or_eq.mp hlt with hlt | rfl
          · exact hbefore j hj hlt other hother
          · exact absurd hj hmem
      refine ⟨table', order', deleted', values', fun removedCount => ?_, hrest⟩
      rw [removeAllMatchingLoop]
      rw [if_neg hstate, hloop]

/-- The counters of a table from which elements have been removed. -/
def withoutMatching (table : HashTable α) (removedCount : Nat) : HashTable α :=
  { table with
    mDeletedCount := table.mDeletedCount + removedCount
    mSize := table.mSize - removedCount }

theorem removeAllMatching_spec (h : Sound t table order deleted values)
    (hcount : table.usedBucketCount < 2 ^ 32) (predicate : α → Bool) :
    ∃ table' removed order' deleted', removeAllMatching t table predicate = .ok (table', removed) ∧
      Sound t table' order' deleted' (values.filter fun value => !predicate value) ∧
      table'.mSize + values.length =
        table.mSize + (values.filter fun value => !predicate value).length ∧
      (t.isOrdered = true → Chained table order →
        (∀ r, removeAllMatchingLoop t predicate table.mCapacity 0 0 table = .ok r →
          keepsLinksIfNeeded t (withoutMatching r.1 r.2) = true) → Chained table' order') := by
  obtain ⟨table₁, order₁, deleted₁, values₁, hloop, hfilled, hcounts, hlength, hle, hfilter, hnone,
    hchained₁⟩ :=
    @removeAllMatchingLoop_spec α t table order deleted values predicate table.mCapacity 0 h.toFilled
      (Nat.zero_add _) fun j _ hj => absurd hj (Nat.not_lt_zero j)
  obtain rfl : values₁ = values.filter fun value => !predicate value := by
    rw [← hfilter]
    exact (filter_eq_self.mpr fun value hvalue => by rw [hnone value hvalue]; rfl).symm
  have hsize := h.size_le
  have hdeleted := h.deleted_le
  have hroom := h.room
  unfold usedBucketCount at hcount
  have hsound : Sound t { table₁ with
      mDeletedCount := table₁.mDeletedCount + (0 + (order.length - order₁.length))
      mSize := table₁.mSize - (0 + (order.length - order₁.length)) } order₁ deleted₁
      (values.filter fun value => !predicate value) := by
    refine { hfilled.congr ⟨rfl, fun _ => ⟨rfl, rfl⟩⟩ with
      room := ?_, bytes := ?_, size_le := ?_, deleted_le := ?_ }
    · dsimp only
      rw [hcounts.2.1]
      omega
    · dsimp only
      rw [hcounts.2.1]
      exact h.bytes
    · dsimp only
      rw [hcounts.1]
      omega
    · dsimp only
      rw [hcounts.2.2]
      omega
  obtain ⟨table', order', deleted', hrehash, hsound', hsize', -, hchained⟩ :=
    rehashInPlaceIfNeeded_spec hsound (by omega)
  refine ⟨table', decide (0 + (order.length - order₁.length) ≠ 0), order', deleted', ?_, hsound', ?_,
    fun hordered hlinks hkeeps =>
      hchained hordered ((hchained₁ hordered hlinks).congr rfl rfl rfl rfl) (hkeeps _ (hloop 0))⟩
  · rw [removeAllMatching, hloop]
    dsimp only [bind, Except.bind]
    rw [hrehash]
    rfl
  · rw [hsize', ← hfilled.length_eq, ← h.length_eq]
    dsimp only
    rw [hcounts.1]
    omega

end HashTable

end Literate.AK

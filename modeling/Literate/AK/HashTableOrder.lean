import Literate.AK.HashTableMap

/-!
# AK: the order of an ordered hash table

An ordered table is a list of its members in the order in which they were first inserted, and
its links go through the members' buckets in that order, as long as a rehash in place neither
exchanges two buckets that are linked to each other nor leaves an element, by probing, in the
bucket that it came to.
-/

namespace Literate.AK

open Foundation List

variable {α : Type}

/-! ## Members -/

/-- A member is set: it takes the place of an equal one, unless that one is kept. -/
def setMember (t : HashTableType α) (members : List α) (value : α) :
    HashSetExistingEntryBehavior → List α
  | .keep => if members.any fun member => t.equals member value then members else members ++ [value]
  | .replace =>
    if members.any fun member => t.equals member value then
      members.map fun member => if t.equals member value then value else member
    else members ++ [value]

/-- What an operation does to the members.  An iterator stands for the element it is at. -/
def membersAfter (t : HashTableType α) (table : HashTable α) (members : List α) :
    HashTableOperation α → List α
  | .trySet value behavior => setMember t members value behavior
  | .set value behavior => setMember t members value behavior
  | .tryEnsureCapacity _ => members
  | .ensureCapacity _ => members
  | .remove value => members.filter fun member => !t.equals value member
  | .removeAt iterator =>
    match (table.mBuckets iterator).slot with
    | some value => members.filter fun member => !t.equals value member
    | none => members
  | .removeAllMatching predicate => members.filter fun member => !predicate member

/-- The links go through the used buckets from `mHead`, and back from `mTail`, in the order of the
members, and so does an iterator. -/
structure InsertionOrder (t : HashTableType α) (table : HashTable α) (members : List α) : Prop where
  links : ∃ order, Linked (nextOf table) table.mHead order ∧
    Linked (previousOf table) table.mTail order.reverse ∧ order.Nodup ∧
    (∀ i, i ∈ order ↔ i < table.mCapacity ∧ (table.mBuckets i).state = .used) ∧
    order.map (fun i => (table.mBuckets i).slot) = members.map some
  iterated : ∀ (β : Type) (f : β → α → β) (b : β), table.forEach t f b = .ok (members.foldl f b)
  size : table.mSize = members.length

namespace HashTable

/-- An operation leaves the links in order: a rehash in place, if there is one, does. -/
def keepsOrder (t : HashTableType α) (table : HashTable α) : HashTableOperation α → Bool
  | .trySet _ _ => true
  | .set _ _ => true
  | .tryEnsureCapacity capacity => ofCapacity (capacity * 2 % 2 ^ 64)
  | .ensureCapacity capacity => ofCapacity (capacity * 2 % 2 ^ 64)
  | .remove value =>
    match table.find t value with
    | .ok (some i) => keepsLinksIfNeeded t (withDeleted t table i)
    | .ok none => true
    | .error _ => true
  | .removeAt iterator => keepsLinksIfNeeded t (withDeleted t table iterator)
  | .removeAllMatching predicate =>
    match removeAllMatchingLoop t predicate table.mCapacity 0 0 table with
    | .ok (table, removedCount) => keepsLinksIfNeeded t (withoutMatching table removedCount)
    | .error _ => true
where
  /-- Only the same capacity is rehashed in place. -/
  ofCapacity (newCapacity : Nat) : Bool :=
    if newCapacity = table.mCapacity ∧ 4 ≤ newCapacity then keepsLinks t table else true

/-- A table and its members, after an operation. -/
def listed (t : HashTableType α) (s : TableState α × List α) (op : HashTableOperation α) :
    Option (TableState α × List α) :=
  (step t s.1 op).map fun s' => (s', membersAfter t s.1.table s.2 op)

end HashTable

section

variable {t : HashTableType α} {s s' : TableState α} {table : HashTable α} {members values values' : List α}
  {value : α} {behavior : HashSetExistingEntryBehavior} {result : HashSetResult}

/-- An element that is not equal to another one is not equal to one that takes its place. -/
theorem Lawful.equals_false (h : Lawful t) {old other : α} (hequals : t.equals old value = true)
    (hother : t.equals other old = false) : t.equals other value = false := by
  rw [← Bool.not_eq_true] at hother ⊢
  exact fun hvalue => hother (h.trans other value old hvalue (h.symm old value hequals))

/-- `try_set` of the elements is `setMember`. -/
theorem SetsTo.eq_setMember (h : SetsTo t value behavior result values values') (hlawful : Lawful t)
    (hdistinct : Distinct t values) : values' = setMember t values value behavior := by
  cases h with
  | inserted hnew =>
    have hnone : ¬ (values.any fun member => t.equals member value) = true := by
      rw [List.any_eq_true]
      rintro ⟨other, hother, hequals⟩
      have hfalse := hnew other hother (hlawful.hash_eq other value hequals)
      rw [hequals] at hfalse
      exact Bool.noConfusion hfalse
    cases behavior with
    | keep => exact (if_neg hnone).symm
    | replace => exact (if_neg hnone).symm
  | kept hequals =>
    refine (if_pos ?_).symm
    rw [List.any_eq_true]
    exact ⟨_, mem_append_right _ mem_cons_self, hequals⟩
  | replaced hequals =>
    rename_i before after old
    obtain ⟨-, hafter, hcross⟩ := pairwise_append.mp hdistinct
    obtain ⟨hold, -⟩ := pairwise_cons.mp hafter
    have hstays : ∀ other, t.equals other old = false →
        (if t.equals other value then value else other) = other := fun other hfalse => by
      rw [hlawful.equals_false hequals hfalse]
      rfl
    have hbefore : before.map (fun member => if t.equals member value then value else member) =
        before := by
      refine (map_congr_left fun other hother => ?_).trans (List.map_id before)
      exact hstays other (hcross other hother old mem_cons_self).1
    have hlast : after.map (fun member => if t.equals member value then value else member) =
        after := by
      refine (map_congr_left fun other hother => ?_).trans (List.map_id after)
      exact hstays other (hold other hother).2
    have hany : ((before ++ old :: after).any fun member => t.equals member value) = true := by
      rw [List.any_eq_true]
      exact ⟨old, mem_append_right before mem_cons_self, hequals⟩
    refine Eq.trans ?_ (if_pos hany).symm
    rw [map_append, map_cons, hbefore, hlast, if_pos hequals]

theorem Distinct.filter_middle {before after : List α} {old : α} (hlawful : Lawful t)
    (hdistinct : Distinct t (before ++ old :: after)) (hequals : t.equals value old = true) :
    (before ++ old :: after).filter (fun member => !t.equals value member) = before ++ after := by
  obtain ⟨-, hafter, hcross⟩ := pairwise_append.mp hdistinct
  obtain ⟨hold, -⟩ := pairwise_cons.mp hafter
  have hstays : ∀ other, t.equals other old = false → (!t.equals value other) = true := by
    intro other hfalse
    rw [hlawful.equals_comm, hlawful.equals_false (hlawful.symm value old hequals) hfalse]
    rfl
  rw [filter_append, filter_cons_of_neg (by rw [hequals]; decide),
    filter_eq_self.mpr fun other hother =>
      hstays other (hcross other hother old mem_cons_self).1,
    filter_eq_self.mpr fun other hother => hstays other (hold other hother).2]

/-! ## Operations -/

/-- An ordered table with its members, linked in their order. -/
def Listed (t : HashTableType α) (table : HashTable α) (members : List α) : Prop :=
  ∃ order deleted, Sound t table order deleted members ∧ Counted t table members ∧
    Chained table order

theorem listed_empty : Listed t (HashTable.empty : HashTable α) [] := by
  obtain ⟨order, deleted, values, hsound, -⟩ := (loaded_empty : Loaded t (HashTable.empty : HashTable α))
  obtain ⟨rfl, rfl⟩ := hsound.eq_nil_of_capacity rfl
  obtain rfl : values = [] := map_eq_nil_iff.mp hsound.located.symm
  exact ⟨[], [], hsound, ⟨List.Pairwise.nil, rfl⟩, rfl, rfl, fun _ _ => ⟨rfl, rfl⟩⟩

namespace HashTable

theorem trySet_listed (hlawful : Lawful t) (hordered : t.isOrdered = true)
    (h : Listed t s.table members) (hcount : s.table.usedBucketCount < 2 ^ 32)
    (hallocates : AllocatesNext t s) (value : α) (behavior : HashSetExistingEntryBehavior) :
    ∃ result s', trySet t value behavior s = .ok (.ok result, s') ∧
      Listed t s'.table (setMember t members value behavior) := by
  obtain ⟨order, deleted, hsound, hcounted, hchained⟩ := h
  obtain ⟨result, s', order', deleted', middle, values', hresult, hsound', hretained, hsets, hsize,
    -, -, hlinks⟩ := trySet_allocated hsound hcounted (fun _ => hchained) hcount hallocates value behavior
  have hmiddle : middle = members := hretained.eq hcounted.1 hordered
  subst hmiddle
  rw [← hsets.eq_setMember hlawful hcounted.1]
  refine ⟨result, s', hresult, order', deleted', hsound',
    ⟨hsets.distinct hlawful hcounted.1, ?_⟩, hlinks hordered⟩
  rw [hsize, hsets.length, hcounted.2]

theorem tryRehash_listed (hordered : t.isOrdered = true) (h : Listed t s.table members)
    (hcount : s.table.usedBucketCount < 2 ^ 32) {newCapacity : Nat}
    (hallocates : AllocatesFor.AllocatesCapacity t s newCapacity)
    (hkeeps : keepsOrder.ofCapacity t s.table newCapacity = true) :
    ∃ s', tryRehash t maxDepth newCapacity s = .ok (.ok (), s') ∧ Listed t s'.table members := by
  obtain ⟨order, deleted, hsound, hcounted, hchained⟩ := h
  obtain ⟨s', order', values', hresult, hsound', hsize, hretained, hlinks⟩ :=
    tryRehash_allocated hsound (fun _ => ⟨hchained.forward, hcounted.1⟩) hcount hallocates
  have hvalues : values' = members := hretained.eq hcounted.1 hordered
  subst hvalues
  refine ⟨s', hresult, order', [], hsound', ⟨hcounted.1, hsize.trans hcounted.2⟩,
    hlinks hordered hchained fun hsame => ?_⟩
  rwa [keepsOrder.ofCapacity, if_pos hsame] at hkeeps

theorem remove_listed (hlawful : Lawful t) (hordered : t.isOrdered = true)
    (h : Listed t s.table members) (hcount : s.table.usedBucketCount < 2 ^ 32) (value : α)
    (hkeeps : keepsOrder t s.table (.remove value) = true) :
    ∃ table' removed, s.table.remove t value = .ok (table', removed) ∧
      Listed t table' (members.filter fun member => !t.equals value member) := by
  obtain ⟨order, deleted, hsound, hcounted, hchained⟩ := h
  obtain ⟨⟨table', removed⟩, hresult, hs'⟩ := (remove_spec hsound hcount
    (fun hzero => .inl (hcounted.mSize_eq_zero hsound hzero)) value).exists_ok
  refine ⟨table', removed, hresult, ?_⟩
  rcases hs' with ⟨heq, hnone⟩ | ⟨-, order', deleted', before, old, after, rfl, hequals, hsound', hsize,
    hlinks⟩
  · obtain ⟨rfl, -⟩ := Prod.mk.inj heq
    rw [filter_eq_self.mpr]
    · exact ⟨order, deleted, hsound, hcounted, hchained⟩
    · intro other hother
      rw [Bool.not_eq_true', ← Bool.not_eq_true]
      intro hequal
      have hfalse := hnone other hother (hlawful.hash_eq value other hequal).symm
      rw [hequal] at hfalse
      exact Bool.noConfusion hfalse
  · rw [hcounted.1.filter_middle hlawful hequals]
    refine ⟨order', deleted', hsound', hcounted.without hsize, hlinks hordered hchained fun i hfind => ?_⟩
    rw [keepsOrder, hfind] at hkeeps
    exact hkeeps

theorem removeAt_listed (hlawful : Lawful t) (hordered : t.isOrdered = true)
    (h : Listed t s.table members) (hcount : s.table.usedBucketCount < 2 ^ 32) {i : Nat}
    (hi : i < s.table.mCapacity) (hused : (s.table.mBuckets i).state = .used)
    (hkeeps : keepsOrder t s.table (.removeAt i) = true) :
    ∃ table' value, s.table.removeAt t i = .ok table' ∧ (s.table.mBuckets i).slot = some value ∧
      Listed t table' (members.filter fun member => !t.equals value member) := by
  obtain ⟨order, deleted, hsound, hcounted, hchained⟩ := h
  obtain ⟨table', order', deleted', before, value, after, hremove, rfl, hslot, hsound', hsize, hlinks⟩ :=
    removeAt_spec hsound (hsound.length_le_of_count hcount) ((hsound.used_iff i).mpr ⟨hi, hused⟩)
  refine ⟨table', value, hremove, hslot, ?_⟩
  rw [hcounted.1.filter_middle hlawful (hlawful.refl value)]
  exact ⟨order', deleted', hsound', hcounted.without hsize, hlinks hordered hchained hkeeps⟩

theorem removeAllMatching_listed (hordered : t.isOrdered = true) (h : Listed t s.table members)
    (hcount : s.table.usedBucketCount < 2 ^ 32) (predicate : α → Bool)
    (hkeeps : keepsOrder t s.table (.removeAllMatching predicate) = true) :
    ∃ table' removed, removeAllMatching t s.table predicate = .ok (table', removed) ∧
      Listed t table' (members.filter fun member => !predicate member) := by
  obtain ⟨order, deleted, hsound, hcounted, hchained⟩ := h
  obtain ⟨table', removed, order', deleted', hremove, hsound', hsize, hlinks⟩ :=
    removeAllMatching_spec hsound hcount predicate
  refine ⟨table', removed, hremove, order', deleted', hsound',
    ⟨hcounted.1.sublist filter_sublist, ?_⟩, hlinks hordered hchained fun r hloop => ?_⟩
  · have hcountedSize := hcounted.2
    omega
  · rw [keepsOrder, hloop] at hkeeps
    exact hkeeps

/-! ## Runs -/

/-- Every operation keeps the members linked in their order. -/
theorem perform_listed (hlawful : Lawful t) (hordered : t.isOrdered = true)
    (h : Listed t s.table members) (hcount : s.table.usedBucketCount < 2 ^ 32)
    {op : HashTableOperation α} (hpermitted : Permitted t s (.operation op))
    (hkeeps : keepsOrder t s.table op = true) :
    ∃ s', perform t s op = .ok s' ∧ Listed t s'.table (membersAfter t s.table members op) := by
  cases op with
  | trySet value behavior =>
    obtain ⟨result, s', hset, hlisted⟩ :=
      trySet_listed hlawful hordered h hcount hpermitted value behavior
    exact ⟨s', by rw [perform, hset]; rfl, hlisted⟩
  | set value behavior =>
    obtain ⟨result, s', hset, hlisted⟩ :=
      trySet_listed hlawful hordered h hcount hpermitted value behavior
    exact ⟨s', by rw [perform, set, hset]; rfl, hlisted⟩
  | tryEnsureCapacity capacity =>
    obtain ⟨s', hrehash, hlisted⟩ := tryRehash_listed hordered h hcount hpermitted.2 hkeeps
    refine ⟨s', ?_, hlisted⟩
    rw [perform, tryEnsureCapacity, if_neg (Nat.not_lt_of_le hpermitted.1), hrehash]
    rfl
  | ensureCapacity capacity =>
    obtain ⟨s', hrehash, hlisted⟩ := tryRehash_listed hordered h hcount hpermitted.2 hkeeps
    refine ⟨s', ?_, hlisted⟩
    rw [perform, ensureCapacity, tryEnsureCapacity, if_neg (Nat.not_lt_of_le hpermitted.1), hrehash]
    rfl
  | remove value =>
    obtain ⟨table', removed, hremove, hlisted⟩ := remove_listed hlawful hordered h hcount value hkeeps
    exact ⟨{ s with table := table' }, by rw [perform, hremove]; rfl, hlisted⟩
  | removeAt iterator =>
    obtain ⟨table', value, hremove, hslot, hlisted⟩ :=
      removeAt_listed hlawful hordered h hcount hpermitted.1 hpermitted.2 hkeeps
    refine ⟨{ s with table := table' }, ?_, ?_⟩
    · rw [perform, if_neg (Nat.not_le_of_lt hpermitted.1), hremove]
      rfl
    · rw [membersAfter, hslot]
      exact hlisted
  | removeAllMatching predicate =>
    obtain ⟨table', removed, hremove, hlisted⟩ :=
      removeAllMatching_listed hordered h hcount predicate hkeeps
    exact ⟨{ s with table := table' }, by rw [perform, hremove]; rfl, hlisted⟩

theorem insertionOrder_of_listed (hordered : t.isOrdered = true) (h : Listed t table members) :
    InsertionOrder t table members := by
  obtain ⟨order, deleted, hsound, hcounted, hchained⟩ := h
  refine ⟨⟨order, hchained.forward, hchained.backward, hsound.nodup, hsound.used_iff,
    hsound.located⟩, ?_, hcounted.2⟩
  obtain ⟨visited, read, -, -, -, -, hread, hforEach⟩ :=
    forEach_spec hsound fun _ => hchained.forward
  rw [← hread hordered]
  exact hforEach

theorem listed_run (hlawful : Lawful t) (hordered : t.isOrdered = true)
    {ops : List (HashTableOperation α)} (h : Listed t s.table members)
    (hpermitted : Each (listed t) (fun s op => Permitted t s.1 (.operation op)) (s, members) ops)
    (hcount : Always (listed t) (fun s => s.1.table.usedBucketCount < 2 ^ 32) (s, members) ops)
    (hkeeps : Each (listed t) (fun s op => keepsOrder t s.1.table op = true) (s, members) ops) :
    (∃ s', run (listed t) (s, members) ops = some s') ∧
      Always (listed t) (fun s => InsertionOrder t s.1.table s.2) (s, members) ops := by
  induction ops generalizing s members with
  | nil => exact ⟨⟨_, rfl⟩, insertionOrder_of_listed hordered h⟩
  | cons op ops ih =>
    obtain ⟨s', hperform, hlisted⟩ :=
      perform_listed hlawful hordered h hcount.1 hpermitted.1 hkeeps.1
    have hstep : listed t (s, members) op = some (s', membersAfter t s.table members op) := by
      rw [listed, step, hperform]
      rfl
    obtain ⟨⟨last, hrun⟩, halways⟩ :=
      ih hlisted (hpermitted.2 _ hstep) (hcount.2 _ hstep) (hkeeps.2 _ hstep)
    refine ⟨⟨last, run_cons_eq_some.mpr ⟨_, hstep, hrun⟩⟩,
      insertionOrder_of_listed hordered h, fun s'' hs'' => ?_⟩
    rw [hstep] at hs''
    cases hs''
    exact halways

/-- In every run whose rehashes in place keep the links, an ordered table has its members in the
order in which they were first inserted. -/
theorem insertionOrder_always (t : HashTableType α) (hlawful : Lawful t) (hordered : t.isOrdered = true)
    (allocations : Allocations) (ops : List (HashTableOperation α))
    (hpermitted : Each (listed t) (fun s op => Permitted t s.1 (.operation op))
      (start allocations, []) ops)
    (hcount : Always (listed t) (fun s => s.1.table.usedBucketCount < 2 ^ 32)
      (start allocations, []) ops)
    (hkeeps : Each (listed t) (fun s op => keepsOrder t s.1.table op = true)
      (start allocations, []) ops) :
    (∃ s, run (listed t) (start allocations, []) ops = some s) ∧
      Always (listed t) (fun s => InsertionOrder t s.1.table s.2) (start allocations, []) ops :=
  listed_run hlawful hordered listed_empty hpermitted hcount hkeeps

end HashTable

end

namespace HashTable

/-! ## Two tables -/

/-- Integers in an ordered table, which are their own hashes. -/
def ownOrder : HashTableType Nat := { ownHash with isOrdered := true }

theorem lawful_of_eq {t : HashTableType Nat} (hequals : t.equals = fun a b => decide (a = b)) :
    Lawful t := by
  have hiff : ∀ a b, t.equals a b = true ↔ a = b := fun a b => by rw [hequals, decide_eq_true_iff]
  refine ⟨fun a => (hiff a a).mpr rfl, fun a b h => (hiff b a).mpr ((hiff a b).mp h).symm,
    fun a b c h h' => (hiff a c).mpr (((hiff a b).mp h).trans ((hiff b c).mp h')),
    fun a b h => congrArg t.hash ((hiff a b).mp h)⟩

/-- What is asked of an operation, when `try_ensure_capacity` rehashes in place. -/
def PermittedInPlace (t : HashTableType α) (s : TableState α) : HashTableOperation α → Bool
  | .tryEnsureCapacity capacity | .ensureCapacity capacity =>
    s.table.mSize ≤ capacity ∧ capacity * 2 % 2 ^ 64 = s.table.mCapacity ∧
      4 ≤ capacity * 2 % 2 ^ 64
  | .trySet _ _ | .set _ _ => AllocatesNext t s
  | .remove _ | .removeAllMatching _ => true
  | .removeAt _ => false

theorem permitted_inPlace {t : HashTableType α} {s : TableState α} {op : HashTableOperation α}
    (h : PermittedInPlace t s op = true) : Permitted t s (.operation op) := by
  cases op with
  | trySet _ _ => exact (of_decide_eq_true h : AllocatesNext t s)
  | set _ _ => exact (of_decide_eq_true h : AllocatesNext t s)
  | tryEnsureCapacity _ => exact ⟨(of_decide_eq_true h).1, .inl (of_decide_eq_true h).2⟩
  | ensureCapacity _ => exact ⟨(of_decide_eq_true h).1, .inl (of_decide_eq_true h).2⟩
  | remove _ => exact trivial
  | removeAllMatching _ => exact trivial
  | removeAt _ => cases h

/-- Three elements, one of which is moved when the table is rehashed in place. -/
def rehashedInPlace : List (HashTableOperation Nat) :=
  [.set 1 .replace, .set 5 .replace, .remove 1, .ensureCapacity 2, .set 2 .keep, .set 5 .replace]

/-- An element that is moved to another bucket. -/
theorem insertionOrder_always_moved :
    (∃ s, run (listed ownOrder) (start fun _ => true, []) rehashedInPlace = some s) ∧
      Always (listed ownOrder) (fun s => InsertionOrder ownOrder s.1.table s.2)
        (start fun _ => true, []) rehashedInPlace := by
  have heach : Each (listed ownOrder) (fun s op => PermittedInPlace ownOrder s.1 op = true ∧
      s.1.table.usedBucketCount < 2 ^ 32 ∧ keepsOrder ownOrder s.1.table op = true)
      (start fun _ => true, []) rehashedInPlace := by
    decide
  have hrun : (run (listed ownOrder) (start fun _ => true, []) rehashedInPlace).map (fun s =>
      decide (s.1.table.usedBucketCount < 2 ^ 32)) = some true := by
    decide
  obtain ⟨s, hs, hlast⟩ := Option.map_eq_some_iff.mp hrun
  exact insertionOrder_always ownOrder (lawful_of_eq rfl) rfl _ _
    (heach.mono fun _ _ hall => permitted_inPlace hall.1)
    (Always.of_each_last (heach.mono fun _ _ hall => hall.2.1) hs (of_decide_eq_true hlast))
    (heach.mono fun _ _ hall => hall.2.2)

/-- The bucket that a number of links lead to. -/
def follow (table : HashTable α) : Nat → Option Nat → Option Nat
  | 0, it => it
  | _ + 1, none => none
  | count + 1, some i => follow table count (nextOf table i)

theorem follow_linked {table : HashTable α} {it : Option Nat} {order : List Nat} {count : Nat}
    (h : Linked (nextOf table) it order) (hcount : order.length ≤ count) :
    follow table count it = none := by
  induction order generalizing it count with
  | nil =>
    obtain rfl : it = none := h
    cases count <;> rfl
  | cons i order ih =>
    obtain ⟨rfl, hrest⟩ := h
    rw [length_cons] at hcount
    obtain ⟨count, rfl⟩ : ∃ n, count = n + 1 := ⟨count - 1, by omega⟩
    have hfollow : follow table count (nextOf table i) = none := ih hrest (by omega)
    exact hfollow

/-- Two buckets that are linked to each other are exchanged, and the links go round. -/
theorem not_insertionOrder_exchanged : ¬ ∀ (t : HashTableType Nat), Lawful t → t.isOrdered = true →
      ∀ (allocations : Allocations) (ops : List (HashTableOperation Nat)),
        Each (listed t) (fun s op => Permitted t s.1 (.operation op)) (start allocations, []) ops →
        Always (listed t) (fun s => InsertionOrder t s.1.table s.2) (start allocations, []) ops := by
  intro h
  have heach : Each (listed oneHash) (fun s op => PermittedInPlace oneHash s.1 op = true)
      (start fun _ => true, []) exchangedLinks := by
    decide
  have hrun : (run (listed oneHash) (start fun _ => true, []) exchangedLinks).any (fun s =>
      decide (s.1.table.mSize ≤ 2) && (follow s.1.table 2 s.1.table.mHead).isSome) = true := by
    decide
  cases hs : run (listed oneHash) (start fun _ => true, []) exchangedLinks with
  | none =>
    rw [hs] at hrun
    cases hrun
  | some s =>
    rw [hs, Option.any_some, Bool.and_eq_true, decide_eq_true_iff] at hrun
    have horder := always_iff.mp (h oneHash (lawful_of_eq rfl) rfl (fun _ => true) exchangedLinks
      (heach.mono fun _ _ hpermitted => permitted_inPlace hpermitted)) _ s (prefix_refl _) hs
    obtain ⟨⟨order, hlinked, -, -, -, hslots⟩, -, hsize⟩ := horder
    have hlength : order.length = s.2.length := by
      have hlengths := congrArg List.length hslots
      rwa [length_map, length_map] at hlengths
    have hnone := follow_linked hlinked (by omega : order.length ≤ 2)
    rw [hnone] at hrun
    cases hrun.2

end HashTable

end Literate.AK

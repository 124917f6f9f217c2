import Mathlib.Data.List.Forall2
import Literate.AK.HashMap

/-!
# AK: hashes of hash maps

`get` is a lookup in the list of the entries of a map, in any order.  `hash` folds over the
entries in the order of their buckets, so that two maps with one association hash equally when
they meet their keys in one order; where they do not, as after another sequence of insertions,
their hashes differ.
-/

namespace Literate.AK

open Foundation List Option
open HashTable (perform_loaded)

variable {K V α β : Type}

/-! ## Iteration -/

namespace HashTable

variable {t : HashTableType α} {table : HashTable α} {order deleted : List Nat} {values : List α}

/-- A loop over the elements goes through what its iterator visits. -/
theorem forEachLoop_spec {visited : List Nat} {read : List α} {fuel : Nat} {it : Option Nat}
    (hiterates : Iterates t table it visited)
    (hread : visited.map (fun i => (table.mBuckets i).slot) = read.map some)
    (hfuel : visited.length ≤ fuel) (f : β → α → β) (b : β) :
    forEachLoop t table f fuel it b = .ok (read.foldl f b) := by
  induction visited generalizing read fuel it b with
  | nil =>
    obtain rfl : it = none := hiterates
    obtain rfl : read = [] := map_eq_nil_iff.mp hread.symm
    rw [forEachLoop]
    rfl
  | cons i visited ih =>
    obtain ⟨rfl, it', hnext, hiterates'⟩ := hiterates
    rw [map_cons] at hread
    obtain ⟨value, read, rfl, hslot, hread'⟩ := map_eq_cons_iff.mp hread.symm
    rw [length_cons] at hfuel
    obtain ⟨fuel, rfl⟩ : ∃ n, fuel = n + 1 := ⟨fuel - 1, by omega⟩
    rw [forEachLoop, ← hslot]
    rw [hnext]
    exact ih hiterates' hread'.symm (by omega) (f b value)

/-- A loop over a table visits its elements once, and those of an ordered table in order. -/
theorem forEach_spec (h : Sound t table order deleted values)
    (hlinked : t.isOrdered = true → Linked (nextOf table) table.mHead order) :
    ∃ visited read, Iterates t table (begin t table) visited ∧
      visited.length ≤ table.mCapacity + 1 ∧ Sound t table visited deleted read ∧
      read.Perm values ∧ (t.isOrdered = true → read = values) ∧
      ∀ (β : Type) (f : β → α → β) (b : β), table.forEach t f b = .ok (read.foldl f b) := by
  obtain ⟨visited, read, hiterates, hfilled, hvisited, hread, heq⟩ :=
    begin_iterates h.toFilled hlinked
  have hroom := h.room
  have hlength : visited.length = order.length := hvisited.length_eq
  have hnil : table.mCapacity = 0 → order.length = 0 := fun hzero => by
    rw [(h.eq_nil_of_capacity hzero).1, length_nil]
  have hfuel : visited.length ≤ table.mCapacity + 1 := by omega
  exact ⟨visited, read, hiterates, hfuel, h.reorder hfilled hvisited, hread,
    fun hordered => (heq hordered).2,
    fun β f b => forEachLoop_spec hiterates hfilled.located hfuel f b⟩

/-- The elements of an unordered table, in the order of a loop over them. -/
theorem exists_elements (h : Loaded t table) (hlawful : Lawful t) (hordered : t.isOrdered = false) :
    ∃ order deleted values, Sound t table order deleted values ∧ Counted t table values ∧
      ∀ (β : Type) (f : β → α → β) (b : β), table.forEach t f b = .ok (values.foldl f b) := by
  obtain ⟨order, deleted, values, hsound, hcounted⟩ := h
  obtain ⟨visited, read, -, -, hvisited, hread, -, hforEach⟩ :=
    forEach_spec hsound fun htrue => Bool.noConfusion (hordered.symm.trans htrue)
  exact ⟨visited, deleted, read, hvisited, (hcounted hlawful).perm hread, hforEach⟩

theorem foldl_elements (values list : List α) :
    values.foldl (fun list value => list ++ [value]) list = list ++ values := by
  induction values generalizing list with
  | nil => rw [foldl_nil, append_nil]
  | cons value values ih => rw [foldl_cons, ih, List.append_assoc]; rfl

end HashTable

/-! ## Associations -/

/-- The value of a key in a list of entries. -/
def associated (t : HashMapType K V) (entries : List (Entry K V)) (key : K) : Option V :=
  (entries.find? fun entry => t.keyEquals key entry.key).map fun entry => entry.value

theorem LawfulKeys.table {t : HashMapType K V} (h : LawfulKeys t) : Lawful t.table :=
  { refl := fun a => h.refl a.key
    symm := fun a b => h.symm a.key b.key
    trans := fun a b c => h.trans a.key b.key c.key
    hash_eq := fun a b hequals => congrArg UInt32.toNat (h.keyHash_eq a.key b.key hequals) }

variable {t : HashMapType K V} {table : HashTable (Entry K V)} {order deleted : List Nat}
  {entries entries' : List (Entry K V)} {key : K} {entry : Entry K V}

theorem associated_of_mem (lawful : LawfulKeys t) (h : Distinct t.table entries)
    (hentry : entry ∈ entries) (hequals : t.keyEquals key entry.key = true) :
    associated t entries key = some entry.value := by
  unfold associated
  cases hfind : entries.find? fun entry => t.keyEquals key entry.key with
  | none => exact absurd hequals (List.find?_eq_none.mp hfind entry hentry)
  | some other =>
    have hother := List.find?_some hfind
    have hsame : other = entry := h.eq_of_equals (List.mem_of_find?_eq_some hfind) hentry
      (lawful.trans _ _ _ (lawful.symm _ _ hother) hequals)
    rw [hsame, map_some]

/-- Without an entry for a key, it is not associated with anything. -/
theorem associated_of_forall (h : ∀ entry ∈ entries, t.keyEquals key entry.key = false) :
    associated t entries key = none := by
  unfold associated
  rw [List.find?_eq_none.mpr fun entry hentry => by rw [h entry hentry]; exact Bool.noConfusion,
    map_none]

/-- The order of the entries does not matter for the association. -/
theorem associated_perm (lawful : LawfulKeys t) (h : Distinct t.table entries)
    (hperm : entries'.Perm entries) (key : K) :
    associated t entries' key = associated t entries key := by
  by_cases hexists : ∃ entry ∈ entries, t.keyEquals key entry.key = true
  · obtain ⟨entry, hentry, hequals⟩ := hexists
    rw [associated_of_mem lawful h hentry hequals,
      associated_of_mem lawful (h.perm hperm) (hperm.mem_iff.mpr hentry) hequals]
  · have hnone : ∀ entry ∈ entries, t.keyEquals key entry.key = false := fun entry hentry =>
      Bool.eq_false_iff.mpr fun hequals => hexists ⟨entry, hentry, hequals⟩
    rw [associated_of_forall hnone,
      associated_of_forall fun entry hentry => hnone entry (hperm.mem_iff.mp hentry)]

/-- `get` is a lookup in the list of the entries. -/
theorem get_spec (h : Sound t.table table order deleted entries)
    (hcounted : Counted t.table table entries) (lawful : LawfulKeys t)
    (hcount : table.usedBucketCount < 2 ^ 32) (key : K) :
    HashMap.get t table key = .ok (associated t entries key) := by
  unfold HashMap.get HashMap.find
  obtain ⟨it, hlookup, hit⟩ := (HashTable.lookupWithHash_ensures h hcount
    (fun hzero => .inl (hcounted.mSize_eq_zero h hzero)) (t.keyHash key).toNat_lt
    (fun entry => t.keyEquals key entry.key)).exists_ok
  rw [hlookup]
  rcases hit with ⟨i, hi, other, rfl, hslot, hequals⟩ | ⟨rfl, hnone⟩
  · obtain ⟨entry, hentry, hslot'⟩ := h.exists_value hi
    obtain rfl : other = entry := some.inj (hslot.symm.trans hslot')
    rw [associated_of_mem lawful hcounted.1 hentry hequals]
    dsimp only [bind, Except.bind]
    rw [hslot]
    rfl
  · rw [associated_of_forall fun entry hentry => ?_]
    · rfl
    · rw [← Bool.not_eq_true]
      intro hequals
      have hfalse := hnone entry hentry
        (congrArg UInt32.toNat (lawful.keyHash_eq key entry.key hequals).symm)
      rw [hequals] at hfalse
      exact Bool.noConfusion hfalse

/-! ## Runs -/

namespace HashMap

variable {s s' : TableState (Entry K V)}

/-- There are fewer buckets in use than hashes. -/
def Countable (s : TableState (Entry K V)) : Prop := s.table.usedBucketCount < 2 ^ 32

theorem remove_loaded (h : Loaded t.table table) (hcount : table.usedBucketCount < 2 ^ 32) (key : K) :
    Ends (fun r => Loaded t.table r.1) (remove t table key) := by
  obtain ⟨order, deleted, entries, hsound, hcounted⟩ := h
  refine Ensures.bind (HashTable.lookupWithHash_ensures hsound hcount
    (fun _ => .inr Crash.noConfusion) (t.keyHash key).toNat_lt _) ?_
  rintro it (⟨i, hi, -, rfl, -, -⟩ | ⟨rfl, -⟩)
  · obtain ⟨table', order', deleted', before, entry, after, hremove, rfl, -, hsound', hsize, -⟩ :=
      HashTable.removeAt_spec hsound (hsound.length_le_of_count hcount) hi
    dsimp only
    rw [hremove]
    exact ⟨order', deleted', before ++ after, hsound', fun hlawful =>
      (hcounted hlawful).without hsize⟩
  · exact ⟨order, deleted, entries, hsound, hcounted⟩

theorem step_loaded (hordered : t.isOrdered = false) (h : Loaded t.table s.table) (hcount : Countable s)
    {op : Operation K V} (hstep : step t s op = some s') : Loaded t.table s'.table := by
  have hintact : Intact t.table s.table := intact_of_unordered hordered hcount
  have hends : Ends (fun s' => Loaded t.table s'.table) (perform t s op) := by
    cases op with
    | set key value =>
      rw [perform]
      exact perform_loaded h hintact _
    | trySet key value =>
      rw [perform]
      exact perform_loaded h hintact _
    | remove key => exact Ensures.bind (remove_loaded h hcount key) fun r hr => hr
    | removeAt iterator =>
      rw [perform]
      exact perform_loaded h hintact _
    | removeAllMatching predicate =>
      rw [perform]
      exact perform_loaded h hintact _
    | ensureCapacity capacity =>
      rw [perform]
      exact perform_loaded h hintact _
    | tryEnsureCapacity capacity =>
      rw [perform]
      exact perform_loaded h hintact _
  unfold step at hstep
  cases hperform : perform t s op with
  | error crash =>
    rw [hperform] at hstep
    cases hstep
  | ok s'' =>
    rw [hperform] at hstep hends
    exact some.inj hstep ▸ hends

theorem loaded_of_run (hordered : t.isOrdered = false) {ops : List (Operation K V)}
    (h : Loaded t.table s.table) (hcount : Always (step t) Countable s ops)
    (hrun : run (step t) s ops = some s') : Loaded t.table s'.table ∧ Countable s' := by
  induction ops generalizing s with
  | nil => exact some.inj hrun ▸ ⟨h, hcount⟩
  | cons op ops ih =>
    obtain ⟨s₁, hstep, hrest⟩ := run_cons_eq_some.mp hrun
    exact ih (step_loaded hordered h hcount.1 hstep) (hcount.2 s₁ hstep) hrest

instance (s : TableState (Entry K V)) : Decidable (Countable s) :=
  inferInstanceAs (Decidable (_ < _))

/-- The entries in the order of a loop over the map. -/
def elements (t : HashMapType K V) (table : HashTable (Entry K V)) :
    Except Crash (List (Entry K V)) :=
  table.forEach t.table (fun list entry => list ++ [entry]) []

/-- Maps with the same entries, in any order, have one association. -/
theorem get_eq_of_perm (lawful : LawfulKeys t) (hordered : t.isOrdered = false)
    (h : Loaded t.table s.table ∧ Countable s) (h' : Loaded t.table s'.table ∧ Countable s')
    (hentries : elements t s.table = .ok entries)
    (hentries' : elements t s'.table = .ok entries') (hperm : entries'.Perm entries) (key : K) :
    get t s.table key = get t s'.table key := by
  obtain ⟨_, _, read, hsound, hcounted, hforEach⟩ :=
    HashTable.exists_elements h.1 lawful.table hordered
  obtain ⟨_, _, read', hsound', hcounted', hforEach'⟩ :=
    HashTable.exists_elements h'.1 lawful.table hordered
  rw [elements, hforEach, HashTable.foldl_elements, nil_append, Except.ok.injEq] at hentries
  rw [elements, hforEach', HashTable.foldl_elements, nil_append, Except.ok.injEq] at hentries'
  subst hentries hentries'
  rw [get_spec hsound hcounted lawful h.2, get_spec hsound' hcounted' lawful h'.2,
    associated_perm lawful hcounted.1 hperm]

/-! ## Hashes -/

/-- The keys of two maps are met in the same order. -/
def SameOrder (t : HashMapType K V) (table table' : HashTable (Entry K V)) : Prop :=
  ∃ keys keys', HashMap.keys t table = .ok keys ∧ HashMap.keys t table' = .ok keys' ∧
    List.Forall₂ (fun key key' => t.keyEquals key key' = true) keys keys'

theorem foldl_keys (entries : List (Entry K V)) (list : List K) :
    entries.foldl (fun list entry => list ++ [entry.key]) list =
      list ++ entries.map fun entry => entry.key := by
  induction entries generalizing list with
  | nil => rw [foldl_nil, map_nil, append_nil]
  | cons entry entries ih => rw [foldl_cons, ih, map_cons, List.append_assoc]; rfl

theorem keys_of_elements (lawful : LawfulKeys t) (hordered : t.isOrdered = false)
    (h : Loaded t.table table) (hentries : elements t table = .ok entries) :
    keys t table = .ok (entries.map fun entry => entry.key) := by
  obtain ⟨_, _, read, -, -, hforEach⟩ := HashTable.exists_elements h lawful.table hordered
  rw [elements, hforEach, HashTable.foldl_elements, nil_append, Except.ok.injEq] at hentries
  rw [keys, hforEach, foldl_keys, nil_append, hentries]

/-- Entries with equal keys and one association have equal hashes. -/
theorem foldl_hashEntry (lawful : LawfulKeys t) {all all' : List (Entry K V)}
    (hall : Distinct t.table all) (hall' : Distinct t.table all')
    (hsame : ∀ key, associated t all key = associated t all' key)
    (hentries : ∀ entry ∈ entries, entry ∈ all) (hentries' : ∀ entry ∈ entries', entry ∈ all')
    (hkeys : List.Forall₂ (fun key key' => t.keyEquals key key' = true)
      (entries.map fun entry => entry.key) (entries'.map fun entry => entry.key)) (hash : UInt32) :
    entries.foldl (hashEntry t) hash = entries'.foldl (hashEntry t) hash := by
  induction entries generalizing entries' hash with
  | nil =>
    rw [map_nil, forall₂_nil_left_iff, map_eq_nil_iff] at hkeys
    rw [hkeys]
  | cons entry entries ih =>
    rw [map_cons, forall₂_cons_left_iff] at hkeys
    obtain ⟨key', keys', hequals, hkeys', heq⟩ := hkeys
    obtain ⟨entry', entries', rfl, rfl, rfl⟩ := map_eq_cons_iff.mp heq
    have hvalue : entry.value = entry'.value := by
      have hassociated := hsame entry.key
      rw [associated_of_mem lawful hall (hentries entry mem_cons_self) (lawful.refl entry.key),
        associated_of_mem lawful hall' (hentries' entry' mem_cons_self) hequals] at hassociated
      exact some.inj hassociated
    have hentry : hashEntry t hash entry = hashEntry t hash entry' := by
      simp only [hashEntry, lawful.hashOfKey_eq _ _ hequals, hvalue]
    simp only [foldl_cons, hentry]
    exact ih (fun e he => hentries e (mem_cons_of_mem entry he))
      (fun e he => hentries' e (mem_cons_of_mem entry' he)) hkeys' _

/-- Two maps with one association, whatever happened to them, have the same hash when they meet
their keys in the same order. -/
theorem hash_eq_of_sameOrder (lawful : LawfulKeys t) (hordered : t.isOrdered = false)
    {allocations allocations' : Allocations} {ops ops' : List (Operation K V)}
    (hcount : Always (step t) Countable (HashTable.start allocations) ops)
    (hcount' : Always (step t) Countable (HashTable.start allocations') ops')
    (hrun : run (step t) (HashTable.start allocations) ops = some s)
    (hrun' : run (step t) (HashTable.start allocations') ops' = some s')
    (hsame : ∀ key, get t s.table key = get t s'.table key)
    (horder : SameOrder t s.table s'.table) :
    ∃ number, hash t s.table = .ok number ∧ hash t s'.table = .ok number := by
  obtain ⟨hloaded, hcountable⟩ := loaded_of_run hordered loaded_empty hcount hrun
  obtain ⟨hloaded', hcountable'⟩ := loaded_of_run hordered loaded_empty hcount' hrun'
  obtain ⟨_, _, entries, hsound, hcounted, hforEach⟩ :=
    HashTable.exists_elements hloaded lawful.table hordered
  obtain ⟨_, _, entries', hsound', hcounted', hforEach'⟩ :=
    HashTable.exists_elements hloaded' lawful.table hordered
  obtain ⟨keys, keys', hkeys, hkeys', hequal⟩ := horder
  rw [HashMap.keys, hforEach, Except.ok.injEq, foldl_keys, nil_append] at hkeys
  rw [HashMap.keys, hforEach', Except.ok.injEq, foldl_keys, nil_append] at hkeys'
  subst hkeys hkeys'
  have hassociated : ∀ key, associated t entries key = associated t entries' key := by
    intro key
    have hget := hsame key
    rw [get_spec hsound hcounted lawful hcountable, get_spec hsound' hcounted' lawful hcountable',
      Except.ok.injEq] at hget
    exact hget
  refine ⟨entries.foldl (hashEntry t) 0, hforEach _ _ _, ?_⟩
  rw [foldl_hashEntry lawful hcounted.1 hcounted'.1 hassociated (fun _ h => h) (fun _ h => h) hequal]
  exact hforEach' _ _ _

/-- A map from numbers to numbers, whose hashes are those of integers. -/
def numbers : HashMapType UInt32 UInt32 :=
  { keyHash := intHash
    keyEquals := fun a b => a = b
    hashOfKey := intHash
    hashOfValue := intHash
    isOrdered := false
    bucketSize := 12
    kmallocGoodSize := id
    bucketSize_pos := by decide
    bucketSize_lt := by decide
    le_kmallocGoodSize := fun _ _ => Nat.le_refl _ }

theorem lawful_numbers : LawfulKeys numbers :=
  { refl := fun _ => decide_eq_true rfl
    symm := fun _ _ h => decide_eq_true (of_decide_eq_true h).symm
    trans := fun _ _ _ h h' => decide_eq_true ((of_decide_eq_true h).trans (of_decide_eq_true h'))
    keyHash_eq := fun _ _ h => congrArg intHash (of_decide_eq_true h)
    hashOfKey_eq := fun _ _ h => congrArg intHash (of_decide_eq_true h) }

/-- The map of numbers after a run. -/
def after (ops : List (Operation UInt32 UInt32)) : Option (TableState (Entry UInt32 UInt32)) :=
  run (step numbers) (HashTable.start fun _ => true) ops

/-- A run that is seen to keep the map countable, with the entries and the hash at its end. -/
def Shows (ops : List (Operation UInt32 UInt32)) (entries : List (Entry UInt32 UInt32))
    (number : UInt32) : Prop :=
  Each (step numbers) (fun s _ => Countable s) (HashTable.start fun _ => true) ops ∧
    (after ops).map (fun s => (elements numbers s.table, hash numbers s.table, decide (Countable s))) =
      some (.ok entries, .ok number, true)

instance (ops : List (Operation UInt32 UInt32)) (entries : List (Entry UInt32 UInt32))
    (number : UInt32) : Decidable (Shows ops entries number) :=
  inferInstanceAs (Decidable (_ ∧ _))

theorem Shows.exists_state {ops : List (Operation UInt32 UInt32)}
    {entries : List (Entry UInt32 UInt32)} {number : UInt32} (h : Shows ops entries number) :
    ∃ s, after ops = some s ∧
      Always (step numbers) Countable (HashTable.start fun _ => true) ops ∧
      elements numbers s.table = .ok entries ∧ hash numbers s.table = .ok number := by
  obtain ⟨heach, hseen⟩ := h
  obtain ⟨s, hs, hshown⟩ := map_eq_some_iff.mp hseen
  obtain ⟨helements, hrest⟩ := Prod.mk.inj hshown
  obtain ⟨hhash, hcountable⟩ := Prod.mk.inj hrest
  exact ⟨s, hs, Always.of_each_last heach hs (of_decide_eq_true hcountable), helements, hhash⟩

/-- Both runs set 5 to 1 and 7 to 2, which begin at the same bucket. -/
theorem not_hash_eq : ¬ ∀ (t : HashMapType UInt32 UInt32), LawfulKeys t → t.isOrdered = false →
    ∀ (allocations allocations' : Allocations) (ops ops' : List (Operation UInt32 UInt32)) s s',
      run (step t) (HashTable.start allocations) ops = some s →
      run (step t) (HashTable.start allocations') ops' = some s' →
      (∀ key, get t s.table key = get t s'.table key) →
      ∃ number, hash t s.table = .ok number ∧ hash t s'.table = .ok number := by
  intro h
  have hshows : Shows [.set 5 1, .set 7 2] [⟨5, 1⟩, ⟨7, 2⟩] 2342898634 := by decide
  have hshows' : Shows [.set 7 2, .set 5 1] [⟨7, 2⟩, ⟨5, 1⟩] 2388106828 := by decide
  obtain ⟨s, hrun, hcount, helements, hhash⟩ := hshows.exists_state
  obtain ⟨s', hrun', hcount', helements', hhash'⟩ := hshows'.exists_state
  have hget : ∀ key, get numbers s.table key = get numbers s'.table key := fun key =>
    get_eq_of_perm lawful_numbers rfl (loaded_of_run rfl loaded_empty hcount hrun)
      (loaded_of_run rfl loaded_empty hcount' hrun') helements helements' (List.Perm.swap _ _ _) key
  obtain ⟨number, hnumber, hnumber'⟩ := h numbers lawful_numbers rfl _ _ _ _ s s' hrun hrun' hget
  rw [hhash, Except.ok.injEq] at hnumber
  rw [hhash', ← hnumber, Except.ok.injEq] at hnumber'
  exact absurd hnumber' (by decide)

/-- The second map has twice the capacity of the first one. -/
theorem hash_eq_of_sameOrder_numbers : ∃ s s', after [.set 5 1, .set 7 2] = some s ∧
      after [.set 5 3, .set 6 3, .set 7 2, .remove 6, .set 5 1] = some s' ∧
      ∃ number, hash numbers s.table = .ok number ∧ hash numbers s'.table = .ok number := by
  have hshows : Shows [.set 5 1, .set 7 2] [⟨5, 1⟩, ⟨7, 2⟩] 2342898634 := by decide
  have hshows' : Shows [.set 5 3, .set 6 3, .set 7 2, .remove 6, .set 5 1] [⟨5, 1⟩, ⟨7, 2⟩]
      2342898634 := by decide
  obtain ⟨s, hrun, hcount, helements, -⟩ := hshows.exists_state
  obtain ⟨s', hrun', hcount', helements', -⟩ := hshows'.exists_state
  have hloaded := loaded_of_run rfl loaded_empty hcount hrun
  have hloaded' := loaded_of_run rfl loaded_empty hcount' hrun'
  have horder : SameOrder numbers s.table s'.table :=
    ⟨_, _, keys_of_elements lawful_numbers rfl hloaded.1 helements,
      keys_of_elements lawful_numbers rfl hloaded'.1 helements',
      forall₂_same.mpr fun key _ => lawful_numbers.refl key⟩
  exact ⟨s, s', hrun, hrun', hash_eq_of_sameOrder lawful_numbers rfl hcount hcount' hrun hrun'
    (fun key => get_eq_of_perm lawful_numbers rfl hloaded hloaded' helements helements'
      (List.Perm.refl _) key) horder⟩

end HashMap

end Literate.AK

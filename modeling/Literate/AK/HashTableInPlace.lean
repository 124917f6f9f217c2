import Literate.AK.HashTableGrowth

/-!
# AK: rehashing a hash table in place

While `rehash_in_place` goes on, the elements are in used buckets, at any place, and in rehashed
ones, which are reached over rehashed buckets only and stay as they are.  An element that is
moved takes a place that is free, or changes places with an element that is moved next, so that
there is one bucket less to be rehashed each time.
-/

namespace Literate.AK

open Foundation Function List
open Equiv (swap swap_apply_left swap_apply_right)

variable {α : Type}

/-- The contents of the buckets while they are rehashed in place. -/
structure Moving (t : HashTableType α) (table : HashTable α) (order : List Nat) (values : List α) :
    Prop where
  located : order.map (fun i => (table.mBuckets i).slot) = values.map some
  nodup : order.Nodup
  taken_iff : ∀ i, i ∈ order ↔ i < table.mCapacity ∧
    ((table.mBuckets i).state = .used ∨ (table.mBuckets i).state = .rehashed)
  empty : ∀ i < table.mCapacity, i ∉ order →
    (table.mBuckets i).state = .free ∨ (table.mBuckets i).state = .deleted
  reached : ∀ i ∈ order, (table.mBuckets i).state = .rehashed → ∀ value,
    (table.mBuckets i).slot = some value →
    Reaches doubleHash table.mCapacity (fun j => (table.mBuckets j).state = .rehashed)
      (t.hash value) i
  sentinel : t.isOrdered = false → 0 < table.mCapacity →
    (table.mBuckets table.mCapacity).state = .endBucket

/-- The element of a bucket goes to its target, and the target's element, if any, to the
bucket. -/
structure Exchanged (table table' : HashTable α) (i target : Nat) : Prop where
  capacity : table'.mCapacity = table.mCapacity
  others : ∀ j, j ≠ i → j ≠ target → (table'.mBuckets j).state = (table.mBuckets j).state ∧
    (table'.mBuckets j).slot = (table.mBuckets j).slot
  moved : (table'.mBuckets target).state = .rehashed ∧
    (table'.mBuckets target).slot = (table.mBuckets i).slot
  used : (table.mBuckets target).state = .used → (table'.mBuckets i).state = .used ∧
    (table'.mBuckets i).slot = (table.mBuckets target).slot
  free : isFreeBucket (table.mBuckets target).state = true → (table'.mBuckets i).state = .free

/-- A bucket that is not looked at again. -/
def Settled (table : HashTable α) (i : Nat) : Prop :=
  (table.mBuckets i).state = .free ∨ (table.mBuckets i).state = .rehashed

/-- The buckets that are not rehashed. -/
def pending (table : HashTable α) (order : List Nat) : Nat :=
  order.countP fun i => (table.mBuckets i).state = .used

namespace HashTable

variable {table : HashTable α} {i j : Nat} {state : BucketState}

theorem setState_self : ((table.setState i state).mBuckets i).state = state := by
  rw [setState, modify_self]

theorem setState_of_ne (h : j ≠ i) :
    ((table.setState i state).mBuckets j).state = (table.mBuckets j).state := by
  rw [setState, modify_of_ne h]

theorem setState_slot : ((table.setState i state).mBuckets j).slot = (table.mBuckets j).slot := by
  rcases Decidable.eq_or_ne j i with rfl | h
  · rw [setState, modify_self]
  · rw [setState, modify_of_ne h]

end HashTable

namespace Exchanged

variable {table table' table'' : HashTable α} {i target : Nat}

theorem congr (h : Exchanged table table' i target) (hsame : SameContents table' table'') :
    Exchanged table table'' i target := by
  refine ⟨hsame.1.trans h.capacity, fun j hji hjt => ?_, ?_, fun hused => ?_, fun hfree => ?_⟩
  · rw [(hsame.2 j).1, (hsame.2 j).2]
    exact h.others j hji hjt
  · rw [(hsame.2 target).1, (hsame.2 target).2]
    exact h.moved
  · rw [(hsame.2 i).1, (hsame.2 i).2]
    exact h.used hused
  · rw [(hsame.2 i).1]
    exact h.free hfree

end Exchanged

namespace Moving

variable {t : HashTableType α} {table table' : HashTable α} {order deleted : List Nat}
  {values : List α} {value : α} {i target k : Nat}

theorem of_filled (h : Filled t table order deleted values) : Moving t table order values := by
  have hnever : ∀ i < table.mCapacity, (table.mBuckets i).state ≠ .rehashed := by
    intro i hi hstate
    rcases h.bucket_cases hi with hfree | hdeleted | ⟨hused, -⟩
    · exact BucketState.noConfusion (hfree.symm.trans hstate)
    · exact BucketState.noConfusion (hdeleted.symm.trans hstate)
    · exact BucketState.noConfusion (hused.symm.trans hstate)
  refine ⟨h.located, h.nodup, fun i => ?_, fun i hi hmem => ?_,
    fun i hi hstate => absurd hstate (hnever i (h.lt hi)), h.sentinel⟩
  · rw [h.used_iff]
    exact and_congr_right fun hi => (or_iff_left (hnever i hi)).symm
  · rcases h.bucket_cases hi with hfree | hdeleted | ⟨hused, -⟩
    · exact .inl hfree
    · exact .inr hdeleted
    · exact absurd ((h.used_iff i).mpr ⟨hi, hused⟩) hmem

section

variable (h : Moving t table order values)

include h

theorem congr (hsame : SameContents table table') : Moving t table' order values := by
  have hstate : ∀ i, (table'.mBuckets i).state = (table.mBuckets i).state := fun i => (hsame.2 i).1
  have hslot : ∀ i, (table'.mBuckets i).slot = (table.mBuckets i).slot := fun i => (hsame.2 i).2
  refine ⟨?_, h.nodup, ?_, ?_, ?_, ?_⟩
  · simp only [hslot]
    exact h.located
  · simp only [hstate, hsame.1]
    exact h.taken_iff
  · simp only [hstate, hsame.1]
    exact h.empty
  · simp only [hstate, hslot, hsame.1]
    exact h.reached
  · simp only [hstate, hsame.1]
    exact h.sentinel

theorem lt (hi : i ∈ order) : i < table.mCapacity :=
  ((h.taken_iff i).mp hi).1

theorem exists_value (hi : i ∈ order) : ∃ value, (table.mBuckets i).slot = some value := by
  have hmem : (table.mBuckets i).slot ∈ order.map fun i => (table.mBuckets i).slot :=
    List.mem_map_of_mem hi
  rw [h.located, List.mem_map] at hmem
  obtain ⟨value, -, hvalue⟩ := hmem
  exact ⟨value, hvalue.symm⟩

theorem length_le : order.length ≤ table.mCapacity := by
  have hsubset : order ⊆ List.range table.mCapacity := fun i hi => mem_range.mpr (h.lt hi)
  have hle := (subperm_of_subset h.nodup hsubset).length_le
  rwa [length_range] at hle

/-- A bucket that is not rehashed is found after fewer probes than there are hashes. -/
theorem probes_lt (hlength : order.length ≤ 2 ^ 32)
    (hi : i ∈ order) (hused : (table.mBuckets i).state = .used) {hash : Nat} (hhash : hash < 2 ^ 32)
    (hbefore : ∀ j < k, (table.mBuckets (place doubleHash table.mCapacity hash j)).state = .rehashed) :
    k < 2 ^ 32 := by
  have hfewer : (order.filter fun j => (table.mBuckets j).state = .rehashed).length <
      min table.mCapacity (2 ^ 32) := by
    refine Nat.lt_of_lt_of_le ?_ (le_min h.length_le hlength)
    rw [length_filter_lt_length_iff_exists]
    exact ⟨i, hi, by rw [hused]; decide⟩
  obtain ⟨j, hj, hmem⟩ := exists_notMem_of_length_lt hfewer
  have hcapacity := Nat.lt_of_lt_of_le hj (Nat.min_le_left _ _)
  obtain ⟨n, hn, hplace⟩ := cyclic_doubleHash.exists_place hhash hcapacity
    (Nat.lt_of_lt_of_le hj (Nat.min_le_right _ _))
  by_contra hle
  have hstate := hbefore n (by omega)
  rw [hplace] at hstate
  refine hmem (mem_filter.mpr ⟨(h.taken_iff j).mpr ⟨hcapacity, .inr hstate⟩, ?_⟩)
  rw [hstate]
  decide

/-- A bucket that holds its element at the right place is rehashed. -/
theorem settle (hi : i ∈ order) (hslot : (table.mBuckets i).slot = some value)
    (hreached : Reaches doubleHash table.mCapacity (fun j => (table.mBuckets j).state = .rehashed)
      (t.hash value) i) : Moving t (table.setState i .rehashed) order values := by
  have hlt := h.lt hi
  have hmono : ∀ j, (table.mBuckets j).state = .rehashed →
      ((table.setState i .rehashed).mBuckets j).state = .rehashed := by
    intro j hj
    rcases Decidable.eq_or_ne j i with rfl | hji
    · exact HashTable.setState_self
    · rw [HashTable.setState_of_ne hji, hj]
  refine ⟨?_, h.nodup, fun j => ?_, fun j hj hmem => ?_, fun j hj hstate other hother => ?_,
    fun hordered hpos => ?_⟩
  · simp only [HashTable.setState_slot]
    exact h.located
  · rcases Decidable.eq_or_ne j i with rfl | hji
    · rw [HashTable.setState_self]
      exact iff_of_true hi ⟨hlt, .inr rfl⟩
    · rw [HashTable.setState_of_ne hji]
      exact h.taken_iff j
  · have hji : j ≠ i := fun hji => hmem (hji ▸ hi)
    rw [HashTable.setState_of_ne hji]
    exact h.empty j hj hmem
  · rw [HashTable.setState_slot] at hother
    rcases Decidable.eq_or_ne j i with rfl | hji
    · obtain rfl : value = other := Option.some.inj (hslot.symm.trans hother)
      exact hreached.mono hmono
    · rw [HashTable.setState_of_ne hji] at hstate
      exact (h.reached j hj hstate other hother).mono hmono
  · exact (HashTable.setState_of_ne (Nat.ne_of_gt hlt)).trans (h.sentinel hordered hpos)

theorem clear (hi : i ∉ order) (hlt : i < table.mCapacity) :
    Moving t (table.setState i .free) order values := by
  have hne : ∀ j ∈ order, j ≠ i := fun j hj hji => hi (hji ▸ hj)
  have hmono : ∀ j, (table.mBuckets j).state = .rehashed →
      ((table.setState i .free).mBuckets j).state = .rehashed := by
    intro j hj
    rcases Decidable.eq_or_ne j i with rfl | hji
    · exact absurd ((h.taken_iff j).mpr ⟨hlt, .inr hj⟩) hi
    · rw [HashTable.setState_of_ne hji, hj]
  refine ⟨?_, h.nodup, fun j => ?_, fun j hj hmem => ?_, fun j hj hstate other hother => ?_,
    fun hordered hpos => ?_⟩
  · simp only [HashTable.setState_slot]
    exact h.located
  · rcases Decidable.eq_or_ne j i with rfl | hji
    · rw [HashTable.setState_self]
      refine iff_of_false hi fun htaken => ?_
      exact htaken.2.elim BucketState.noConfusion BucketState.noConfusion
    · rw [HashTable.setState_of_ne hji]
      exact h.taken_iff j
  · rcases Decidable.eq_or_ne j i with rfl | hji
    · exact .inl HashTable.setState_self
    · rw [HashTable.setState_of_ne hji]
      exact h.empty j hj hmem
  · rw [HashTable.setState_slot] at hother
    rw [HashTable.setState_of_ne (hne j hj)] at hstate
    exact (h.reached j hj hstate other hother).mono hmono
  · exact (HashTable.setState_of_ne (Nat.ne_of_gt hlt)).trans (h.sentinel hordered hpos)

theorem slot_swap (hexchanged : Exchanged table table' i target)
    (hne : i ≠ target) (hrehashed : (table.mBuckets target).state ≠ .rehashed) {j : Nat}
    (hj : j ∈ order) : (table'.mBuckets (swap i target j)).slot = (table.mBuckets j).slot := by
  rcases Decidable.eq_or_ne j i with rfl | hji
  · rw [swap_apply_left]
    exact hexchanged.moved.2
  rcases Decidable.eq_or_ne j target with rfl | hjt
  · rw [swap_apply_right]
    exact (hexchanged.used (((h.taken_iff j).mp hj).2.resolve_right hrehashed)).2
  · rw [Equiv.swap_apply_of_ne_of_ne hji hjt]
    exact (hexchanged.others j hji hjt).2

/-- The state of a bucket that is not rehashed, after an exchange. -/
theorem target_cases (htarget : target < table.mCapacity)
    (hrehashed : (table.mBuckets target).state ≠ .rehashed) :
    (target ∈ order ∧ (table.mBuckets target).state = .used) ∨
      (target ∉ order ∧ isFreeBucket (table.mBuckets target).state = true) := by
  by_cases hmem : target ∈ order
  · exact .inl ⟨hmem, ((h.taken_iff target).mp hmem).2.resolve_right hrehashed⟩
  · refine .inr ⟨hmem, ?_⟩
    rcases h.empty target htarget hmem with hfree | hdeleted
    · rw [hfree]; rfl
    · rw [hdeleted]; rfl

theorem exchange (hexchanged : Exchanged table table' i target)
    (hi : i ∈ order) (hused : (table.mBuckets i).state = .used) (hne : i ≠ target)
    (htarget : target < table.mCapacity) (hrehashed : (table.mBuckets target).state ≠ .rehashed)
    (hslot : (table.mBuckets i).slot = some value)
    (hreached : Reaches doubleHash table.mCapacity (fun j => (table.mBuckets j).state = .rehashed)
      (t.hash value) target) :
    Moving t table' (order.map (swap i target)) values := by
  have hmem : ∀ j, j ∈ order.map (swap i target) ↔ swap i target j ∈ order := by
    intro j
    rw [List.mem_map]
    refine ⟨fun ⟨k, hk, hkj⟩ => ?_, fun hj => ⟨_, hj, Equiv.swap_apply_self i target j⟩⟩
    rw [← hkj, Equiv.swap_apply_self]
    exact hk
  have hmono : ∀ j, (table.mBuckets j).state = .rehashed → (table'.mBuckets j).state = .rehashed := by
    intro j hj
    have hji : j ≠ i := fun hji => BucketState.noConfusion (hused.symm.trans (hji ▸ hj))
    have hjt : j ≠ target := fun hjt => hrehashed (hjt ▸ hj)
    rw [(hexchanged.others j hji hjt).1, hj]
  have hlt := h.lt hi
  refine ⟨?_, h.nodup.map (Equiv.injective _), fun j => ?_, fun j hj hnotMem => ?_,
    fun j hj hstate other hother => ?_, fun hordered hpos => ?_⟩
  · rw [List.map_map, ← h.located]
    exact map_congr_left fun j hj => h.slot_swap hexchanged hne hrehashed hj
  · rw [hmem, hexchanged.capacity]
    rcases Decidable.eq_or_ne j target with rfl | hjt
    · rw [swap_apply_right, hexchanged.moved.1]
      exact iff_of_true hi ⟨htarget, .inr rfl⟩
    rcases Decidable.eq_or_ne j i with rfl | hji
    · rw [swap_apply_left]
      rcases h.target_cases htarget hrehashed with ⟨hin, htargetUsed⟩ | ⟨hout, hfree⟩
      · exact iff_of_true hin ⟨hlt, .inl (hexchanged.used htargetUsed).1⟩
      · rw [hexchanged.free hfree]
        refine iff_of_false hout fun htaken => ?_
        exact htaken.2.elim BucketState.noConfusion BucketState.noConfusion
    · rw [Equiv.swap_apply_of_ne_of_ne hji hjt, (hexchanged.others j hji hjt).1]
      exact h.taken_iff j
  · rw [hmem] at hnotMem
    rw [hexchanged.capacity] at hj
    rcases Decidable.eq_or_ne j target with rfl | hjt
    · rw [swap_apply_right] at hnotMem
      exact absurd hi hnotMem
    rcases Decidable.eq_or_ne j i with rfl | hji
    · rw [swap_apply_left] at hnotMem
      rcases h.target_cases htarget hrehashed with ⟨hin, -⟩ | ⟨-, hfree⟩
      · exact absurd hin hnotMem
      · exact .inl (hexchanged.free hfree)
    · rw [Equiv.swap_apply_of_ne_of_ne hji hjt] at hnotMem
      rw [(hexchanged.others j hji hjt).1]
      exact h.empty j hj hnotMem
  · rw [hexchanged.capacity]
    rcases Decidable.eq_or_ne j target with rfl | hjt
    · obtain rfl : value = other :=
        Option.some.inj (hslot.symm.trans (hexchanged.moved.2.symm.trans hother))
      exact hreached.mono hmono
    rw [hmem] at hj
    rcases Decidable.eq_or_ne j i with rfl | hji
    · rw [swap_apply_left] at hj
      have htargetUsed := ((h.taken_iff target).mp hj).2.resolve_right hrehashed
      rw [(hexchanged.used htargetUsed).1] at hstate
      exact BucketState.noConfusion hstate
    · rw [Equiv.swap_apply_of_ne_of_ne hji hjt] at hj
      rw [(hexchanged.others j hji hjt).1] at hstate
      rw [(hexchanged.others j hji hjt).2] at hother
      exact (h.reached j hj hstate other hother).mono hmono
  · rw [hexchanged.capacity] at hpos ⊢
    rw [(hexchanged.others _ (Nat.ne_of_gt hlt) (Nat.ne_of_gt htarget)).1]
    exact h.sentinel hordered hpos

/-- An exchange leaves one bucket less to be rehashed. -/
theorem pending_exchange
    (hexchanged : Exchanged table table' i target) (hi : i ∈ order)
    (hused : (table.mBuckets i).state = .used) (hne : i ≠ target)
    (htargetUsed : (table.mBuckets target).state = .used) :
    pending table' (order.map (swap i target)) + 1 = pending table order := by
  obtain ⟨before, after, rfl⟩ := append_of_mem hi
  have hnodup : (i :: (before ++ after)).Nodup := nodup_middle.mp h.nodup
  have hothers : ∀ j ∈ before ++ after,
      decide ((table'.mBuckets (swap i target j)).state = .used) =
        decide ((table.mBuckets j).state = .used) := by
    intro j hj
    have hji : j ≠ i := fun hji => (nodup_cons.mp hnodup).1 (hji ▸ hj)
    rcases Decidable.eq_or_ne j target with rfl | hjt
    · rw [swap_apply_right, (hexchanged.used htargetUsed).1, htargetUsed]
    · rw [Equiv.swap_apply_of_ne_of_ne hji hjt, (hexchanged.others j hji hjt).1]
  have hmoved : ¬ (table'.mBuckets (swap i target i)).state = .used := by
    rw [swap_apply_left, hexchanged.moved.1]
    exact BucketState.noConfusion
  have hcount : (before ++ after).countP
      ((fun j => decide ((table'.mBuckets j).state = .used)) ∘ swap i target) =
        (before ++ after).countP fun j => decide ((table.mBuckets j).state = .used) :=
    countP_congr fun j hj => by rw [comp_apply, hothers j hj]
  have hnew : pending table' ((before ++ i :: after).map (swap i target)) =
      (before ++ after).countP fun j => decide ((table.mBuckets j).state = .used) := by
    rw [pending, countP_map, countP_append,
      countP_cons_of_neg (by rw [comp_apply, decide_eq_true_iff]; exact hmoved),
      ← countP_append]
    exact hcount
  have hold : pending table (before ++ i :: after) =
      ((before ++ after).countP fun j => decide ((table.mBuckets j).state = .used)) + 1 := by
    rw [pending, countP_append, countP_cons_of_pos (by rw [hused]; rfl), countP_append]
    exact (Nat.add_assoc _ _ 1).symm
  rw [hnew, hold]

end

end Moving

/-! ## The steps of the loop -/

/-- A step of rehashing in place keeps the elements, and what is settled.  It leaves the links in
order under a condition. -/
structure Rehashing (t : HashTableType α) (table table' : HashTable α) (values : List α)
    (length : Nat) (keeps : Prop) : Prop where
  moving : ∃ order', Moving t table' order' values ∧ order'.length = length ∧
    (keeps → Chained table' order')
  counts : SameCounts table table'
  settled : ∀ j, Settled table j → Settled table' j

namespace Rehashing

variable {t : HashTableType α} {table table' table'' : HashTable α} {values : List α}
  {length length' : Nat} {keeps keeps' : Prop}

theorem trans (h : Rehashing t table table' values length keeps)
    (h' : Rehashing t table' table'' values length' keeps') :
    Rehashing t table table'' values length' keeps' :=
  ⟨h'.moving, h.counts.trans h'.counts, fun j hj => h'.settled j (h.settled j hj)⟩

theorem mono (h : Rehashing t table table' values length keeps') (hkeeps : keeps → keeps') :
    Rehashing t table table' values length keeps := by
  obtain ⟨⟨order', hmoving, hlength, hchained⟩, hcounts, hsettled⟩ := h
  exact ⟨⟨order', hmoving, hlength, fun hk => hchained (hkeeps hk)⟩, hcounts, hsettled⟩

end Rehashing

namespace HashTable

variable {t : HashTableType α} {table : HashTable α} {order : List Nat} {values : List α}
  {value : α} {i target fuel targetHash k : Nat}

theorem relink_relinked : Relinked table (table.relink i) := by
  unfold relink
  cases (table.mBuckets i).previous with
  | none =>
    dsimp only
    cases (table.mBuckets i).next with
    | none => exact ⟨⟨rfl, fun _ => ⟨rfl, rfl⟩⟩, rfl, rfl, rfl⟩
    | some after => exact Relinked.head.trans (Relinked.modify (fun _ => rfl) fun _ => rfl)
  | some before =>
    dsimp only
    have hbefore : Relinked table (table.modify before fun bucket => { bucket with next := some i }) :=
      Relinked.modify (fun _ => rfl) fun _ => rfl
    generalize (table.modify before fun bucket => { bucket with next := some i }) = second at *
    cases (second.mBuckets i).next with
    | none => exact hbefore.trans Relinked.tail
    | some after => exact hbefore.trans (Relinked.modify (fun _ => rfl) fun _ => rfl)

theorem swapLinks_relinked : Relinked table (table.swapLinks i target) := by
  unfold swapLinks
  refine ((Relinked.modify ?_ ?_).trans (Relinked.modify ?_ ?_)).trans relink_relinked <;>
    exact fun _ => rfl

theorem swapLinks_ite_relinked {c : Prop} [Decidable c] :
    Relinked table (if c then table.swapLinks i target else table) := by
  split_ifs
  · exact swapLinks_relinked
  · exact Relinked.refl

/-- The element of `i` moves into a free target. -/
theorem exchanged_free (hne : i ≠ target) (hfree : isFreeBucket (table.mBuckets target).state = true) :
    Exchanged table ((table.modify target fun b =>
      { b with slot := (table.mBuckets i).slot, state := .rehashed }).modify i fun b =>
        { b with slot := none, state := .free }) i target := by
  refine ⟨rfl, fun j hji hjt => ?_, ?_, fun hused => ?_, fun _ => ?_⟩
  · rw [modify_of_ne hji, modify_of_ne hjt]
    exact ⟨rfl, rfl⟩
  · rw [modify_of_ne hne.symm, modify_self]
    exact ⟨rfl, rfl⟩
  · rw [hused] at hfree
    exact Bool.noConfusion hfree
  · rw [modify_self]

/-- The elements of `i` and of a used target change places. -/
theorem exchanged_used (hne : i ≠ target) (hused : (table.mBuckets target).state = .used) :
    Exchanged table ((table.modify i fun b =>
      { b with slot := (table.mBuckets target).slot
               state := (table.mBuckets target).state }).modify target fun b =>
        { b with slot := (table.mBuckets i).slot, state := .rehashed }) i target := by
  refine ⟨rfl, fun j hji hjt => ?_, ?_, fun _ => ?_, fun hfree => ?_⟩
  · rw [modify_of_ne hjt, modify_of_ne hji]
    exact ⟨rfl, rfl⟩
  · rw [modify_self]
    exact ⟨rfl, rfl⟩
  · rw [modify_of_ne hne, modify_self]
    exact ⟨hused, rfl⟩
  · rw [hused] at hfree
    exact Bool.noConfusion hfree

/-- The table after the element of `i` moved into a free target. -/
def movedTo (t : HashTableType α) (table : HashTable α) (i target : Nat) : HashTable α :=
  let moved := (table.modify target fun b =>
    { b with slot := (table.mBuckets i).slot, state := .rehashed }).modify i fun b =>
      { b with slot := none, state := .free }
  if t.isOrdered then moved.swapLinks i target else moved

/-- The table after the elements of `i` and of a used target changed places. -/
def swappedWith (t : HashTableType α) (table : HashTable α) (i target : Nat) : HashTable α :=
  let swapped := (table.modify i fun b =>
    { b with slot := (table.mBuckets target).slot
             state := (table.mBuckets target).state }).modify target fun b =>
      { b with slot := (table.mBuckets i).slot, state := .rehashed }
  if t.isOrdered then swapped.swapLinks i target else swapped

/-- Two buckets are not linked to each other. -/
def notLinked (table : HashTable α) (i target : Nat) : Bool :=
  (table.mBuckets i).previous ≠ some target && (table.mBuckets i).next ≠ some target

/-- The links stay in order while `rehash_in_place` has the bucket `i`: it does not change places
with a bucket that it is linked to, and an element that came to it goes on, or is at home. -/
def keepsLinksOf (t : HashTableType α) (i : Nat) :
    (fuel targetHash : Nat) → (exchanged : Bool) → HashTable α → Bool
  | 0, _, _, _ => true
  | fuel + 1, targetHash, exchanged, table =>
    let target := targetHash % table.mCapacity
    if isFreeBucket (table.mBuckets i).state then true
    else if i = target then !exchanged
    else if isFreeBucket (table.mBuckets target).state then true
    else if (table.mBuckets target).state = .rehashed then
      keepsLinksOf t i fuel (doubleHash targetHash) exchanged table
    else
      notLinked table i target &&
        match ((swappedWith t table i target).mBuckets i).slot with
        | none => true
        | some value =>
          t.hash value % table.mCapacity = i ||
            keepsLinksOf t i fuel (t.hash value) true (swappedWith t table i target)

/-- The links stay in order in the first loop of `rehash_in_place`, with the passes for a bucket. -/
def keepsLinksLoop (t : HashTableType α) (fuel : Nat) : (count i : Nat) → HashTable α → Bool
  | 0, _, _ => true
  | count + 1, i, table =>
    match (table.mBuckets i).state with
    | .rehashed | .endBucket | .free => keepsLinksLoop t fuel count (i + 1) table
    | .deleted => keepsLinksLoop t fuel count (i + 1) (table.setState i .free)
    | .used =>
      match (table.mBuckets i).slot with
      | none => true
      | some value =>
        if t.hash value % table.mCapacity = i then
          keepsLinksLoop t fuel count (i + 1) (table.setState i .rehashed)
        else
          keepsLinksOf t i fuel (t.hash value) false table &&
            match rehashBucket t i fuel (t.hash value) table with
            | .error _ => true
            | .ok table =>
              keepsLinksLoop t fuel count (i + 1)
                (if (table.mBuckets i).state = .deleted then table.setState i .free else table)

/-- The links stay in order when a table is rehashed in place. -/
def keepsLinks (t : HashTableType α) (table : HashTable α) : Bool :=
  keepsLinksLoop t ((table.mCapacity + 1) * (2 ^ 32 + 1)) table.mCapacity 0 table

/-- The links while `rehash_in_place` has the bucket `i`: the neighbours of an element that came
to it have not been told. -/
def LinksFor (table : HashTable α) (order : List Nat) (i : Nat) (exchanged : Bool) : Prop :=
  if exchanged then ChainedBut table order i else Chained table order

theorem LinksFor.but {exchanged : Bool} (h : LinksFor table order i exchanged) :
    ChainedBut table order i := by
  cases exchanged with
  | false => exact Chained.but h i
  | true => exact h

theorem movedTo_chained (hordered : t.isOrdered = true) (h : ChainedBut table order i) (hi : i ∈ order)
    (htarget : target ∉ order) :
    Chained (movedTo t table i target) (order.map (swap i target)) := by
  have hsame : SameLinks table ((table.modify target fun b =>
      { b with slot := (table.mBuckets i).slot, state := .rehashed }).modify i fun b =>
        { b with slot := none, state := .free }) := by
    refine SameLinks.trans (SameLinks.modify ?_ ?_) (SameLinks.modify ?_ ?_) <;> exact fun _ => rfl
  have hmoved := h.congr hsame
  obtain ⟨hprevious, hnext⟩ := hmoved.ne_of_notMem htarget
  unfold movedTo
  rw [if_pos hordered]
  refine (hmoved.swapLinks hi hprevious hnext).of_notMem fun hmem => htarget ?_
  obtain ⟨j, hj, hji⟩ := List.mem_map.mp hmem
  have htarget : j = target := by rw [← Equiv.swap_apply_self i target j, hji, swap_apply_left]
  exact htarget ▸ hj

theorem swappedWith_chained (hordered : t.isOrdered = true) (h : ChainedBut table order i)
    (hi : i ∈ order) (hlinks : notLinked table i target = true) :
    ChainedBut (swappedWith t table i target) (order.map (swap i target)) i := by
  have hsame : SameLinks table ((table.modify i fun b =>
      { b with slot := (table.mBuckets target).slot
               state := (table.mBuckets target).state }).modify target fun b =>
        { b with slot := (table.mBuckets i).slot, state := .rehashed }) := by
    refine SameLinks.trans (SameLinks.modify ?_ ?_) (SameLinks.modify ?_ ?_) <;> exact fun _ => rfl
  simp only [notLinked, Bool.and_eq_true, decide_eq_true_iff] at hlinks
  unfold swappedWith
  rw [if_pos hordered]
  refine (h.congr hsame).swapLinks hi ?_ ?_
  · rw [hsame.previous]
    exact hlinks.1
  · rw [hsame.next]
    exact hlinks.2

section

variable (hused : (table.mBuckets i).state = .used)

theorem rehashBucket_done (hfree : isFreeBucket (table.mBuckets i).state = true) :
    rehashBucket t i (fuel + 1) targetHash table = .ok table := by
  rw [rehashBucket]
  exact if_pos hfree

include hused

theorem rehashBucket_here (hhere : i = targetHash % table.mCapacity) :
    rehashBucket t i (fuel + 1) targetHash table = .ok (table.setState i .rehashed) := by
  rw [rehashBucket]
  rw [if_neg (by rw [hused]; decide), if_pos hhere]

section

variable (hne : i ≠ targetHash % table.mCapacity)

include hne

theorem rehashBucket_free
    (hfree : isFreeBucket (table.mBuckets (targetHash % table.mCapacity)).state = true) :
    rehashBucket t i (fuel + 1) targetHash table =
      rehashBucket t i fuel targetHash (movedTo t table i (targetHash % table.mCapacity)) := by
  rw [rehashBucket]
  rw [if_neg (by rw [hused]; decide), if_neg hne, if_pos hfree]
  rfl

theorem rehashBucket_rehashed
    (hrehashed : (table.mBuckets (targetHash % table.mCapacity)).state = .rehashed) :
    rehashBucket t i (fuel + 1) targetHash table =
      rehashBucket t i fuel (doubleHash targetHash) table := by
  rw [rehashBucket]
  rw [if_neg (by rw [hused]; decide), if_neg hne, if_neg (by rw [hrehashed]; decide), if_pos hrehashed]

theorem rehashBucket_used
    (htarget : (table.mBuckets (targetHash % table.mCapacity)).state = .used)
    (hslot : ((swappedWith t table i (targetHash % table.mCapacity)).mBuckets i).slot = some value) :
    rehashBucket t i (fuel + 1) targetHash table =
      if t.hash value % table.mCapacity = i then
        .ok (if t.isOrdered then
            ((swappedWith t table i (targetHash % table.mCapacity)).setState i .rehashed).relink i
          else (swappedWith t table i (targetHash % table.mCapacity)).setState i .rehashed)
      else rehashBucket t i fuel (t.hash value) (swappedWith t table i (targetHash % table.mCapacity)) := by
  have hcapacity : (swappedWith t table i (targetHash % table.mCapacity)).mCapacity =
      table.mCapacity := by
    rw [swappedWith]
    exact swapLinks_ite_relinked.counts.2.1
  rw [rehashBucket]
  dsimp only
  rw [if_neg (by rw [hused]; decide), if_neg hne, if_neg (by rw [htarget]; decide),
    if_neg (by rw [htarget]; decide), if_neg (by rw [htarget]; decide)]
  rw [swappedWith] at hslot hcapacity ⊢
  rw [hslot]
  rw [hcapacity]

end

end

theorem exchanged_movedTo (hne : i ≠ target)
    (hfree : isFreeBucket (table.mBuckets target).state = true) :
    Exchanged table (movedTo t table i target) i target ∧
      SameCounts table (movedTo t table i target) :=
  ⟨(exchanged_free hne hfree).congr swapLinks_ite_relinked.contents,
    SameCounts.trans ⟨rfl, rfl, rfl⟩ swapLinks_ite_relinked.counts⟩

theorem exchanged_swappedWith (hne : i ≠ target) (hused : (table.mBuckets target).state = .used) :
    Exchanged table (swappedWith t table i target) i target ∧
      SameCounts table (swappedWith t table i target) :=
  ⟨(exchanged_used hne hused).congr swapLinks_ite_relinked.contents,
    SameCounts.trans ⟨rfl, rfl, rfl⟩ swapLinks_ite_relinked.counts⟩

theorem pending_pos (hi : i ∈ order) (hused : (table.mBuckets i).state = .used) :
    0 < pending table order :=
  countP_pos_iff.mpr ⟨i, hi, decide_eq_true hused⟩

theorem settled_of_exchanged {table' : HashTable α} (hexchanged : Exchanged table table' i target)
    (hused : (table.mBuckets i).state = .used) {j : Nat} (hj : Settled table j) :
    Settled table' j := by
  rcases Decidable.eq_or_ne j target with rfl | hjt
  · exact .inr hexchanged.moved.1
  · have hji : j ≠ i := by
      rintro rfl
      exact hj.elim (fun hstate => BucketState.noConfusion (hused.symm.trans hstate))
        fun hstate => BucketState.noConfusion (hused.symm.trans hstate)
    unfold Settled
    rw [(hexchanged.others j hji hjt).1]
    exact hj

theorem rehashing_settle {table' : HashTable α} (h : Moving t table order values) (hi : i ∈ order)
    (hslot : (table.mBuckets i).slot = some value)
    (hreached : Reaches doubleHash table.mCapacity (fun j => (table.mBuckets j).state = .rehashed)
      (t.hash value) i)
    (hrelinked : Relinked (table.setState i .rehashed) table') {keeps : Prop}
    (hkeeps : keeps → Chained table' order) :
    Rehashing t table table' values order.length keeps ∧ Settled table' i := by
  have hstate : ∀ j, (table'.mBuckets j).state = ((table.setState i .rehashed).mBuckets j).state :=
    fun j => (hrelinked.contents.2 j).1
  refine ⟨⟨⟨order, (h.settle hi hslot hreached).congr hrelinked.contents, rfl, hkeeps⟩,
    SameCounts.trans ⟨rfl, rfl, rfl⟩ hrelinked.counts, fun j hj => ?_⟩, .inr ?_⟩
  · unfold Settled
    rw [hstate]
    rcases Decidable.eq_or_ne j i with rfl | hji
    · exact .inr setState_self
    · rw [setState_of_ne hji]
      exact hj
  · rw [hstate, setState_self]

theorem fuel_of_exchange {left before bound : Nat} (hleft : left + 1 = before) (hk : k < bound)
    (hfuel : before * bound + 1 ≤ fuel + 1 + k) : left * bound + 1 ≤ fuel + 0 := by
  rw [← hleft, Nat.succ_mul] at hfuel
  omega

/-- The passes of the loop are enough for all buckets. -/
theorem fuel_le {pending capacity bound : Nat} (h : pending ≤ capacity) :
    pending * bound + 1 ≤ (capacity + 1) * (bound + 1) + 0 := by
  have hle : pending * bound ≤ (capacity + 1) * bound := Nat.mul_le_mul_right _ (by omega)
  rw [Nat.mul_succ]
  omega

/-- What keeps the links in order while `rehash_in_place` has a bucket. -/
def KeepsOf (t : HashTableType α) (order : List Nat) (i fuel targetHash : Nat) (exchanged : Bool)
    (table : HashTable α) : Prop :=
  t.isOrdered = true ∧ LinksFor table order i exchanged ∧
    keepsLinksOf t i fuel targetHash exchanged table = true

section

variable {exchanged : Bool} (hused : (table.mBuckets i).state = .used)

include hused

theorem KeepsOf.here (hhere : i = targetHash % table.mCapacity)
    (h : KeepsOf t order i (fuel + 1) targetHash exchanged table) : Chained table order := by
  obtain ⟨-, hlinks, hkeeps⟩ := h
  rw [keepsLinksOf] at hkeeps
  rw [if_neg (by rw [hused]; decide), if_pos hhere] at hkeeps
  cases exchanged with
  | false => exact hlinks
  | true => cases hkeeps

theorem KeepsOf.rehashed (hne : i ≠ targetHash % table.mCapacity)
    (hrehashed : (table.mBuckets (targetHash % table.mCapacity)).state = .rehashed)
    (h : KeepsOf t order i (fuel + 1) targetHash exchanged table) :
    KeepsOf t order i fuel (doubleHash targetHash) exchanged table := by
  obtain ⟨hordered, hlinks, hkeeps⟩ := h
  rw [keepsLinksOf] at hkeeps
  rw [if_neg (by rw [hused]; decide), if_neg hne, if_neg (by rw [hrehashed]; decide),
    if_pos hrehashed] at hkeeps
  exact ⟨hordered, hlinks, hkeeps⟩

theorem KeepsOf.used (hne : i ≠ targetHash % table.mCapacity)
    (htarget : (table.mBuckets (targetHash % table.mCapacity)).state = .used)
    (hslot : ((swappedWith t table i (targetHash % table.mCapacity)).mBuckets i).slot = some value)
    (hi : i ∈ order) (h : KeepsOf t order i (fuel + 1) targetHash exchanged table) :
    ChainedBut (swappedWith t table i (targetHash % table.mCapacity))
        (order.map (swap i (targetHash % table.mCapacity))) i ∧
      (t.hash value % table.mCapacity ≠ i →
        KeepsOf t (order.map (swap i (targetHash % table.mCapacity))) i fuel (t.hash value) true
          (swappedWith t table i (targetHash % table.mCapacity))) := by
  obtain ⟨hordered, hlinks, hkeeps⟩ := h
  rw [keepsLinksOf] at hkeeps
  rw [if_neg (by rw [hused]; decide), if_neg hne, if_neg (by rw [htarget]; decide),
    if_neg (by rw [htarget]; decide), Bool.and_eq_true, hslot, Bool.or_eq_true,
    decide_eq_true_iff] at hkeeps
  have hchained := swappedWith_chained hordered hlinks.but hi hkeeps.1
  exact ⟨hchained, fun hother => ⟨hordered, hchained, hkeeps.2.resolve_left hother⟩⟩

end

/-- `rehash_in_place` gets the bucket `i` settled, whatever is moved through it. -/
theorem rehashBucket_spec (h : Moving t table order values) (hlength : order.length ≤ 2 ^ 32)
    (hi : i ∈ order) (hused : (table.mBuckets i).state = .used)
    (hslot : (table.mBuckets i).slot = some value) (htarget : targetHash = doubleHash^[k] (t.hash value))
    (hbefore : ∀ j < k,
      (table.mBuckets (place doubleHash table.mCapacity (t.hash value) j)).state = .rehashed)
    (hfuel : pending table order * 2 ^ 32 + 1 ≤ fuel + k) (exchanged : Bool) :
    ∃ table', rehashBucket t i fuel targetHash table = .ok table' ∧
      Rehashing t table table' values order.length
        (KeepsOf t order i fuel targetHash exchanged table) ∧ Settled table' i := by
  have hprobes := h.probes_lt hlength hi hused (t.hash_lt value) hbefore
  have hpending := pending_pos hi hused
  induction fuel generalizing table order value targetHash k exchanged with
  | zero => omega
  | succ fuel ih =>
    have hpos : 0 < table.mCapacity := Nat.lt_of_le_of_lt (Nat.zero_le i) (h.lt hi)
    have hplace : targetHash % table.mCapacity = place doubleHash table.mCapacity (t.hash value) k := by
      rw [htarget, place]
    have hlt : targetHash % table.mCapacity < table.mCapacity := Nat.mod_lt _ hpos
    have hreached : Reaches doubleHash table.mCapacity (fun j => (table.mBuckets j).state = .rehashed)
        (t.hash value) (targetHash % table.mCapacity) := ⟨k, hplace.symm, hbefore⟩
    by_cases hne : i = targetHash % table.mCapacity
    · rw [← hne] at hreached
      refine ⟨_, rehashBucket_here hused hne,
        rehashing_settle h hi hslot hreached Relinked.refl fun hkeeps => ?_⟩
      exact (hkeeps.here hused hne).modify (fun _ => rfl) fun _ => rfl
    by_cases hrehashed : (table.mBuckets (targetHash % table.mCapacity)).state = .rehashed
    · -- normal probing
      rw [rehashBucket_rehashed hused hne hrehashed]
      have hbefore' : ∀ j < k + 1,
          (table.mBuckets (place doubleHash table.mCapacity (t.hash value) j)).state = .rehashed := by
        intro j hj
        rcases Nat.lt_succ_iff_lt_or_eq.mp hj with hj | rfl
        · exact hbefore j hj
        · rw [← hplace]
          exact hrehashed
      obtain ⟨table', hloop, hdone, hsettled⟩ := ih h hlength hi hused hslot
        (by rw [iterate_succ_apply', ← htarget]) hbefore' (by omega) exchanged
        (h.probes_lt hlength hi hused (t.hash_lt value) hbefore') hpending
      exact ⟨table', hloop, hdone.mono (KeepsOf.rehashed hused hne hrehashed), hsettled⟩
    rcases h.target_cases hlt hrehashed with ⟨hin, htargetUsed⟩ | ⟨hout, hfree⟩
    · -- the elements change places, and the one that is in `i` now goes on
      obtain ⟨hexchanged, hcounts⟩ := exchanged_swappedWith (t := t) hne htargetUsed
      have hmoving := h.exchange hexchanged hi hused hne hlt hrehashed hslot hreached
      have hlengths : (order.map (swap i (targetHash % table.mCapacity))).length =
          order.length := length_map _
      have hrehashing : Rehashing t table (swappedWith t table i (targetHash % table.mCapacity))
          values order.length False :=
        ⟨⟨_, hmoving, hlengths, False.elim⟩, hcounts, fun j => settled_of_exchanged hexchanged hused⟩
      have hi' : i ∈ order.map (swap i (targetHash % table.mCapacity)) :=
        List.mem_map.mpr ⟨_, hin, swap_apply_right _ _⟩
      obtain ⟨hused', hslot'⟩ := hexchanged.used htargetUsed
      obtain ⟨other, hother⟩ := hmoving.exists_value hi'
      have hpending' := h.pending_exchange hexchanged hi hused hne htargetUsed
      rw [rehashBucket_used hused hne htargetUsed hother]
      by_cases hhome : t.hash other % table.mCapacity = i
      · rw [if_pos hhome]
        have hreached' : Reaches doubleHash
            (swappedWith t table i (targetHash % table.mCapacity)).mCapacity
            (fun j => ((swappedWith t table i (targetHash % table.mCapacity)).mBuckets j).state =
              .rehashed) (t.hash other) i := by
          rw [hexchanged.capacity]
          exact ⟨0, hhome, fun j hj => absurd hj (Nat.not_lt_zero j)⟩
        cases hordered : t.isOrdered with
        | true =>
          obtain ⟨hdone, hsettled⟩ := rehashing_settle hmoving hi' hother hreached'
            relink_relinked fun hkeeps : KeepsOf t order i (fuel + 1) targetHash exchanged table =>
              ((hkeeps.used hused hne htargetUsed hother hi).1.congr SameLinks.setState).relink hi'
          rw [hlengths] at hdone
          exact ⟨_, rfl, hrehashing.trans hdone, hsettled⟩
        | false =>
          obtain ⟨hdone, hsettled⟩ := rehashing_settle hmoving hi' hother hreached'
            Relinked.refl fun hkeeps : KeepsOf t order i (fuel + 1) targetHash exchanged table =>
              Bool.noConfusion (hordered.symm.trans hkeeps.1)
          rw [hlengths] at hdone
          exact ⟨_, rfl, hrehashing.trans hdone, hsettled⟩
      · rw [if_neg hhome]
        obtain ⟨table', hloop, hdone, hsettled⟩ := ih hmoving (by rw [hlengths]; exact hlength) hi'
          hused' hother rfl (fun j hj => absurd hj (Nat.not_lt_zero j))
          (fuel_of_exchange hpending' hprobes hfuel) true (by decide) (pending_pos hi' hused')
        rw [hlengths] at hdone
        exact ⟨table', hloop, hrehashing.trans (hdone.mono fun hkeeps =>
          (hkeeps.used hused hne htargetUsed hother hi).2 hhome), hsettled⟩
    · -- the target is free
      obtain ⟨hexchanged, hcounts⟩ := exchanged_movedTo (t := t) hne hfree
      have hmoving := h.exchange hexchanged hi hused hne hlt hrehashed hslot hreached
      have hfreed := hexchanged.free hfree
      obtain ⟨fuel, rfl⟩ : ∃ n, fuel = n + 1 := ⟨fuel - 1, by omega⟩
      refine ⟨movedTo t table i (targetHash % table.mCapacity), ?_,
        ⟨⟨_, hmoving, length_map _, fun hkeeps =>
          movedTo_chained hkeeps.1 hkeeps.2.1.but hi hout⟩, hcounts,
          fun j => settled_of_exchanged hexchanged hused⟩, .inl hfreed⟩
      rw [rehashBucket_free hused hne hfree]
      exact rehashBucket_done (by rw [hfreed]; rfl)

/-! ## All buckets -/

/-- What keeps the links in order in the first loop. -/
def KeepsLoop (t : HashTableType α) (order : List Nat) (count i : Nat) (table : HashTable α) : Prop :=
  t.isOrdered = true ∧ Chained table order ∧
    keepsLinksLoop t ((table.mCapacity + 1) * (2 ^ 32 + 1)) count i table = true

theorem rehashInPlaceLoop_step (count : Nat) (h : Moving t table order values)
    (hlength : order.length ≤ 2 ^ 32) (hi : i < table.mCapacity) :
    ∃ table', rehashInPlaceLoop t (count + 1) i table = rehashInPlaceLoop t count (i + 1) table' ∧
      (∀ fuel, fuel = (table.mCapacity + 1) * (2 ^ 32 + 1) →
        keepsLinksLoop t fuel (count + 1) i table = true →
          keepsLinksLoop t fuel count (i + 1) table' = true) ∧
      Rehashing t table table' values order.length (KeepsLoop t order (count + 1) i table) ∧
      Settled table' i := by
  have hstays : Rehashing t table table values order.length (KeepsLoop t order (count + 1) i table) :=
    ⟨⟨order, h, rfl, fun hkeeps => hkeeps.2.1⟩, SameCounts.refl, fun _ hj => hj⟩
  by_cases hmem : i ∈ order
  · rcases ((h.taken_iff i).mp hmem).2 with hused | hrehashed
    · obtain ⟨value, hslot⟩ := h.exists_value hmem
      by_cases hhome : t.hash value % table.mCapacity = i
      · have hreached : Reaches doubleHash table.mCapacity
            (fun j => (table.mBuckets j).state = .rehashed) (t.hash value) i :=
          ⟨0, hhome, fun j hj => absurd hj (Nat.not_lt_zero j)⟩
        refine ⟨_, ?_, ?_, rehashing_settle h hmem hslot hreached Relinked.refl fun hkeeps =>
          hkeeps.2.1.modify (fun _ => rfl) fun _ => rfl⟩
        · rw [rehashInPlaceLoop, hused]
          rw [hslot]
          exact if_pos hhome
        · intro fuel _
          rw [keepsLinksLoop, hused]
          rw [hslot]
          dsimp only
          rw [if_pos hhome]
          exact id
      · have hpending : pending table order ≤ table.mCapacity :=
          countP_le_length.trans h.length_le
        obtain ⟨table', hloop, hrehashing, hsettled⟩ := rehashBucket_spec h hlength hmem hused hslot
          (iterate_zero_apply doubleHash (t.hash value)).symm
          (fun j hj => absurd hj (Nat.not_lt_zero j)) (fuel_le hpending) false
        have hstate : (table'.mBuckets i).state ≠ .deleted := fun hdeleted =>
          hsettled.elim (fun hfree => BucketState.noConfusion (hfree.symm.trans hdeleted))
            fun hrehashed => BucketState.noConfusion (hrehashed.symm.trans hdeleted)
        have hkeeps : ∀ fuel, fuel = (table.mCapacity + 1) * (2 ^ 32 + 1) →
            keepsLinksLoop t fuel (count + 1) i table =
              (keepsLinksOf t i fuel (t.hash value) false table &&
                keepsLinksLoop t fuel count (i + 1) table') := by
          intro fuel hfuel
          rw [← hfuel] at hloop
          rw [keepsLinksLoop, hused]
          rw [hslot]
          dsimp only
          rw [if_neg hhome, hloop]
          dsimp only
          rw [if_neg hstate]
        refine ⟨table', ?_, ?_, hrehashing.mono fun ⟨hordered, hchained, hloopKeeps⟩ => ?_, hsettled⟩
        · rw [rehashInPlaceLoop, hused]
          rw [hslot]
          dsimp only
          rw [if_neg hhome, hloop]
          exact congrArg (rehashInPlaceLoop t count (i + 1)) (if_neg hstate)
        · intro fuel hfuel
          rw [hkeeps fuel hfuel, Bool.and_eq_true]
          exact And.right
        · rw [hkeeps _ rfl, Bool.and_eq_true] at hloopKeeps
          exact ⟨hordered, hchained, hloopKeeps.1⟩
    · refine ⟨table, ?_, ?_, hstays, .inr hrehashed⟩
      · rw [rehashInPlaceLoop, hrehashed]
      · intro fuel _
        rw [keepsLinksLoop, hrehashed]
        exact id
  · rcases h.empty i hi hmem with hfree | hdeleted
    · refine ⟨table, ?_, ?_, hstays, .inl hfree⟩
      · rw [rehashInPlaceLoop, hfree]
      · intro fuel _
        rw [keepsLinksLoop, hfree]
        exact id
    · refine ⟨table.setState i .free, ?_, ?_, ⟨⟨order, h.clear hmem hi, rfl, fun hkeeps =>
        hkeeps.2.1.modify (fun _ => rfl) fun _ => rfl⟩, ⟨rfl, rfl, rfl⟩, fun j hj => ?_⟩,
        .inl setState_self⟩
      · rw [rehashInPlaceLoop, hdeleted]
      · intro fuel _
        rw [keepsLinksLoop, hdeleted]
        exact id
      · unfold Settled
        rcases Decidable.eq_or_ne j i with rfl | hji
        · exact .inl setState_self
        · rw [setState_of_ne hji]
          exact hj

theorem rehashInPlaceLoop_spec {count : Nat} (h : Moving t table order values)
    (hlength : order.length ≤ 2 ^ 32) (hend : i + count = table.mCapacity)
    (hsettled : ∀ j < i, Settled table j) :
    ∃ table', rehashInPlaceLoop t count i table = .ok table' ∧
      Rehashing t table table' values order.length (KeepsLoop t order count i table) ∧
      ∀ j < table.mCapacity, Settled table' j := by
  induction count generalizing table order i with
  | zero =>
    refine ⟨table, by rw [rehashInPlaceLoop], ⟨⟨order, h, rfl, fun hkeeps => hkeeps.2.1⟩,
      SameCounts.refl, fun _ hj => hj⟩, fun j hj => hsettled j (by omega)⟩
  | succ count ih =>
    obtain ⟨table', hloop, hkeeps, hrehashing, hi⟩ := rehashInPlaceLoop_step count h hlength
      (by omega : i < table.mCapacity)
    obtain ⟨order', hmoving, hlength', hchained⟩ := hrehashing.moving
    have hcapacity : table'.mCapacity = table.mCapacity := hrehashing.counts.2.1
    have hend' : i + 1 + count = table'.mCapacity := by rw [hcapacity]; omega
    obtain ⟨table'', hloop', hrehashing', hall⟩ := ih hmoving (hlength' ▸ hlength) hend'
      fun j hj => by
        rcases Nat.lt_succ_iff_lt_or_eq.mp hj with hlt | rfl
        · exact hrehashing.settled j (hsettled j hlt)
        · exact hi
    rw [hlength'] at hrehashing'
    rw [hcapacity] at hall
    exact ⟨table'', hloop.trans hloop', hrehashing.trans (hrehashing'.mono fun hkeepsLoop =>
      ⟨hkeepsLoop.1, hchained hkeepsLoop, hcapacity.symm ▸ hkeeps _ rfl hkeepsLoop.2.2⟩), hall⟩

/-- The second loop of `rehash_in_place`. -/
def markUsed (table : HashTable α) : HashTable α :=
  { table with
    mBuckets := fun i =>
      if i < table.mCapacity ∧ (table.mBuckets i).state = .rehashed then
        { table.mBuckets i with state := .used }
      else table.mBuckets i
    mDeletedCount := 0 }

theorem rehashInPlace_of_loop {table' : HashTable α}
    (hloop : rehashInPlaceLoop t table.mCapacity 0 table = .ok table') :
    rehashInPlace t table = .ok (markUsed table') := by
  rw [rehashInPlace, hloop]
  rfl

theorem markUsed_rehashed (hlt : i < table.mCapacity) (h : (table.mBuckets i).state = .rehashed) :
    ((markUsed table).mBuckets i).state = .used := by
  rw [markUsed]
  dsimp only
  rw [if_pos ⟨hlt, h⟩]

theorem markUsed_of_ne (h : ¬ (i < table.mCapacity ∧ (table.mBuckets i).state = .rehashed)) :
    ((markUsed table).mBuckets i).state = (table.mBuckets i).state := by
  rw [markUsed]
  dsimp only
  rw [if_neg h]

theorem markUsed_slot : ((markUsed table).mBuckets i).slot = (table.mBuckets i).slot := by
  rw [markUsed]
  dsimp only
  split_ifs <;> rfl

theorem markUsed_links : SameLinks table (markUsed table) := by
  refine ⟨funext fun i => ?_, funext fun i => ?_, rfl, rfl⟩
  · unfold nextOf markUsed
    dsimp only
    split_ifs <;> rfl
  · unfold previousOf markUsed
    dsimp only
    split_ifs <;> rfl

theorem filled_markUsed (h : Moving t table order values)
    (hsettled : ∀ j < table.mCapacity, Settled table j) :
    Filled t (markUsed table) order [] values := by
  have hrehashed : ∀ j ∈ order, (table.mBuckets j).state = .rehashed := by
    intro j hj
    obtain ⟨hlt, htaken⟩ := (h.taken_iff j).mp hj
    refine (hsettled j hlt).resolve_left fun hfree => ?_
    exact htaken.elim (fun hstate => BucketState.noConfusion (hfree.symm.trans hstate))
      fun hstate => BucketState.noConfusion (hfree.symm.trans hstate)
  have hused : ∀ j ∈ order, ((markUsed table).mBuckets j).state = .used := fun j hj =>
    markUsed_rehashed (h.lt hj) (hrehashed j hj)
  have hfree : ∀ j < table.mCapacity, j ∉ order → ((markUsed table).mBuckets j).state = .free := by
    intro j hlt hj
    have hne : (table.mBuckets j).state ≠ .rehashed := fun hstate =>
      hj ((h.taken_iff j).mpr ⟨hlt, .inr hstate⟩)
    rw [markUsed_of_ne fun hboth => hne hboth.2]
    exact (hsettled j hlt).resolve_right hne
  refine ⟨?_, h.nodup, fun j => ⟨fun hj => ⟨h.lt hj, hused j hj⟩, fun ⟨hlt, hstate⟩ => ?_⟩,
    nodup_nil, fun j => ⟨fun hj => absurd hj not_mem_nil, fun ⟨hlt, hstate⟩ => ?_⟩,
    fun j hlt hne _ => hfree j hlt fun hj => hne (hused j hj), fun j hj value hvalue => ?_,
    fun hordered hpos => ?_⟩
  · simp only [markUsed_slot]
    exact h.located
  · by_contra hj
    exact BucketState.noConfusion ((hfree j hlt hj).symm.trans hstate)
  · by_cases hj : j ∈ order
    · exact BucketState.noConfusion ((hused j hj).symm.trans hstate)
    · exact BucketState.noConfusion ((hfree j hlt hj).symm.trans hstate)
  · rw [markUsed_slot] at hvalue
    refine (h.reached j hj (hrehashed j hj) value hvalue).mono fun k hk => ?_
    by_cases hlt : k < table.mCapacity
    · rw [markUsed_rehashed hlt hk]
      exact BucketState.noConfusion
    · rw [markUsed_of_ne fun hboth => hlt hboth.1, hk]
      exact BucketState.noConfusion
  · refine (markUsed_of_ne fun hboth => Nat.lt_irrefl _ hboth.1).trans ?_
    exact h.sentinel hordered hpos

/-- `rehash_in_place` ends, and leaves the same elements and nothing deleted. -/
theorem rehashInPlace_spec {deleted : List Nat} (h : Filled t table order deleted values)
    (hlength : order.length ≤ 2 ^ 32) :
    ∃ table' order', rehashInPlace t table = .ok table' ∧ Filled t table' order' [] values ∧
      order'.length = order.length ∧ table'.mSize = table.mSize ∧
      table'.mCapacity = table.mCapacity ∧ table'.mDeletedCount = 0 ∧
      (t.isOrdered = true → Chained table order → keepsLinks t table = true →
        Chained table' order') := by
  obtain ⟨table', hloop, hrehashing, hsettled⟩ := rehashInPlaceLoop_spec (Moving.of_filled h) hlength
    (Nat.zero_add table.mCapacity) fun j hj => absurd hj (Nat.not_lt_zero j)
  obtain ⟨order', hmoving, hlength', hchained⟩ := hrehashing.moving
  obtain ⟨hsize, hcapacity, -⟩ := hrehashing.counts
  rw [← hcapacity] at hsettled
  exact ⟨markUsed table', order', rehashInPlace_of_loop hloop, filled_markUsed hmoving hsettled,
    hlength', hsize, hcapacity, rfl, fun hordered hlinks hkeeps =>
      (hchained ⟨hordered, hlinks, hkeeps⟩).congr markUsed_links.next markUsed_links.previous rfl rfl⟩

end HashTable

end Literate.AK

import Literate.AK.HashTableChanges
import Literate.Foundation.DoublyLinked

/-!
# AK: the links of an ordered hash table

The links of an ordered table go through its used buckets, in both directions, and other
buckets have none.  A new bucket is linked behind the last one, and a bucket that is deleted is
taken out.  When a bucket goes to another place, only the pointers to it have to be written.
-/

namespace Literate.AK

open Foundation Function List Option
open Function (update)
open HashTable (modify_self modify_of_ne linkLast)

variable {α : Type}

/-- The used buckets of an ordered table, from its head. -/
def nextOf (table : HashTable α) (i : Nat) : Option Nat := (table.mBuckets i).next

/-- The used buckets of an ordered table, from its tail. -/
def previousOf (table : HashTable α) (i : Nat) : Option Nat := (table.mBuckets i).previous

/-- The links go through the buckets of a list. -/
structure Chained (table : HashTable α) (order : List Nat) : Prop where
  forward : Linked (nextOf table) table.mHead order
  backward : Linked (previousOf table) table.mTail order.reverse
  loose : ∀ i, i ∉ order → nextOf table i = none ∧ previousOf table i = none

/-- The links of a table from its head, which is behind null. -/
def forwardOf (table : HashTable α) : Option Nat → Option Nat
  | none => table.mHead
  | some i => nextOf table i

/-- The links of a table from its tail. -/
def backwardOf (table : HashTable α) : Option Nat → Option Nat
  | none => table.mTail
  | some i => previousOf table i

/-- The counters of a table and the number of its buckets are as before. -/
def SameCounts (table table' : HashTable α) : Prop :=
  table'.mSize = table.mSize ∧ table'.mCapacity = table.mCapacity ∧
    table'.mDeletedCount = table.mDeletedCount

namespace SameCounts

variable {table table' table'' : HashTable α}

theorem refl : SameCounts table table := ⟨rfl, rfl, rfl⟩

theorem trans (h : SameCounts table table') (h' : SameCounts table' table'') :
    SameCounts table table'' :=
  ⟨h'.1.trans h.1, h'.2.1.trans h.2.1, h'.2.2.trans h.2.2⟩

end SameCounts

/-- Only links are changed. -/
structure Relinked (table table' : HashTable α) : Prop where
  contents : SameContents table table'
  counts : SameCounts table table'

namespace Relinked

variable {table table' table'' : HashTable α} {i : Nat} {pointer : Option Nat}

theorem refl : Relinked table table := ⟨SameContents.refl, SameCounts.refl⟩

theorem trans (h : Relinked table table') (h' : Relinked table' table'') : Relinked table table'' :=
  ⟨h.contents.trans h'.contents, h.counts.trans h'.counts⟩

theorem modify {f : Bucket α → Bucket α} (hstate : ∀ b, (f b).state = b.state)
    (hslot : ∀ b, (f b).slot = b.slot) : Relinked table (table.modify i f) :=
  ⟨SameContents.modify hstate hslot, rfl, rfl, rfl⟩

theorem head : Relinked table { table with mHead := pointer } :=
  ⟨⟨rfl, fun _ => ⟨rfl, rfl⟩⟩, rfl, rfl, rfl⟩

theorem tail : Relinked table { table with mTail := pointer } :=
  ⟨⟨rfl, fun _ => ⟨rfl, rfl⟩⟩, rfl, rfl, rfl⟩

end Relinked

section

variable {t : HashTableType α} {table table' : HashTable α} {order : List Nat} {i : Nat}

variable {f : Bucket α → Bucket α}

theorem nextOf_modify :
    nextOf (table.modify i f) = update (nextOf table) i (f (table.mBuckets i)).next := by
  funext j
  rcases Decidable.eq_or_ne j i with rfl | hj
  · rw [nextOf, modify_self, update_self]
  · simp only [nextOf, modify_of_ne hj, update_of_ne hj]

theorem previousOf_modify : previousOf (table.modify i f) =
      update (previousOf table) i (f (table.mBuckets i)).previous := by
  funext j
  rcases Decidable.eq_or_ne j i with rfl | hj
  · rw [previousOf, modify_self, update_self]
  · simp only [previousOf, modify_of_ne hj, update_of_ne hj]

theorem nextOf_modify_of_eq (hf : ∀ b, (f b).next = b.next) :
    nextOf (table.modify i f) = nextOf table := by
  rw [nextOf_modify, hf]
  exact update_eq_self i (nextOf table)

theorem previousOf_modify_of_eq (hf : ∀ b, (f b).previous = b.previous) :
    previousOf (table.modify i f) = previousOf table := by
  rw [previousOf_modify, hf]
  exact update_eq_self i (previousOf table)

namespace Chained

theorem congr (h : Chained table order) (hnext : nextOf table' = nextOf table)
    (hprevious : previousOf table' = previousOf table) (hhead : table'.mHead = table.mHead)
    (htail : table'.mTail = table.mTail) : Chained table' order :=
  ⟨by rw [hnext, hhead]; exact h.forward, by rw [hprevious, htail]; exact h.backward,
    by rw [hnext, hprevious]; exact h.loose⟩

theorem modify (h : Chained table order) (hnext : ∀ b, (f b).next = b.next)
    (hprevious : ∀ b, (f b).previous = b.previous) : Chained (table.modify i f) order :=
  h.congr (nextOf_modify_of_eq hnext) (previousOf_modify_of_eq hprevious) rfl rfl

end Chained

theorem linkLast_relinked (h : linkLast t table i = .ok table') : Relinked table table' := by
  unfold linkLast at h
  split_ifs at h with hordered
  · cases hhead : table.mHead with
    | none =>
      rw [hhead] at h
      cases h
      exact ⟨⟨rfl, fun _ => ⟨rfl, rfl⟩⟩, rfl, rfl, rfl⟩
    | some first =>
      cases htail : table.mTail with
      | none =>
        rw [hhead, htail] at h
        cases h
      | some last =>
        rw [hhead, htail] at h
        cases h
        refine ((Relinked.modify ?_ ?_).trans (Relinked.modify ?_ ?_)).trans Relinked.tail <;>
          exact fun _ => rfl
  · cases h
    exact Relinked.refl

theorem linkLast_chained (hordered : t.isOrdered = true) (h : Chained table order) (hi : i ∉ order) :
    ∃ table', linkLast t table i = .ok table' ∧ Chained table' (order ++ [i]) := by
  obtain ⟨hnext, hprevious⟩ := h.loose i hi
  rcases eq_nil_or_concat order with rfl | ⟨before, last, rfl⟩
  · have hhead : table.mHead = none := h.forward
    refine ⟨{ table with mHead := some i, mTail := some i }, ?_, ⟨⟨rfl, hnext⟩, ⟨rfl, hprevious⟩, fun j hj => ?_⟩⟩
    · rw [linkLast, if_pos hordered, hhead]
    · exact h.loose j not_mem_nil
  · have hbackward := h.backward
    rw [concat_eq_append, List.reverse_append, reverse_singleton, singleton_append] at hbackward
    have htail : table.mTail = some last := hbackward.1
    have hhead : table.mHead = (before ++ [last]).head? := by
      rw [← concat_eq_append]
      exact h.forward.head?_eq.symm
    rw [concat_eq_append] at h hi ⊢
    obtain ⟨first, hfirst⟩ : ∃ first, (before ++ [last]).head? = some first := by
      cases before with
      | nil => exact ⟨last, rfl⟩
      | cons first before => exact ⟨first, rfl⟩
    rw [hfirst] at hhead
    refine ⟨_, by rw [linkLast, if_pos hordered, hhead, htail], ?_⟩
    have hnextOf : nextOf ((table.modify i fun bucket => { bucket with previous := some last }).modify
        last fun bucket => { bucket with next := some i }) =
          update (nextOf table) last (some i) := by
      rw [nextOf_modify, nextOf_modify_of_eq]
      exact fun _ => rfl
    have hpreviousOf : previousOf ((table.modify i fun bucket =>
        { bucket with previous := some last }).modify last fun bucket =>
          { bucket with next := some i }) = update (previousOf table) i (some last) := by
      rw [previousOf_modify_of_eq, previousOf_modify]
      exact fun _ => rfl
    refine ⟨?_, ?_, fun j hj => ?_⟩
    · exact (congrArg (fun next => Linked next table.mHead (before ++ [last] ++ [i])) hnextOf).mpr
        (h.forward.concat hi hnext)
    · rw [List.reverse_append, reverse_singleton, singleton_append]
      refine (congrArg (fun previous => Linked previous (some i)
        (i :: (before ++ [last]).reverse)) hpreviousOf).mpr ?_
      rw [← htail]
      exact Linked.push (fun hmem => hi (mem_reverse.mp hmem)) h.backward
    · rw [mem_append, mem_singleton, not_or] at hj
      have hjlast : j ≠ last := fun heq => hj.1 (heq ▸ mem_append_right before mem_cons_self)
      obtain ⟨hnext, hprevious⟩ := h.loose j hj.1
      refine ⟨?_, ?_⟩
      · refine (congrFun hnextOf j).trans ?_
        rw [update_of_ne hjlast]
        exact hnext
      · refine (congrFun hpreviousOf j).trans ?_
        rw [update_of_ne hj.2]
        exact hprevious

end

/-- Only the contents of buckets are changed. -/
structure SameLinks (table table' : HashTable α) : Prop where
  next : nextOf table' = nextOf table
  previous : previousOf table' = previousOf table
  head : table'.mHead = table.mHead
  tail : table'.mTail = table.mTail

namespace SameLinks

variable {table table' table'' : HashTable α} {i : Nat}

theorem trans (h : SameLinks table table') (h' : SameLinks table' table'') : SameLinks table table'' :=
  ⟨h'.next.trans h.next, h'.previous.trans h.previous, h'.head.trans h.head, h'.tail.trans h.tail⟩

theorem modify {f : Bucket α → Bucket α} (hnext : ∀ b, (f b).next = b.next)
    (hprevious : ∀ b, (f b).previous = b.previous) : SameLinks table (table.modify i f) :=
  ⟨nextOf_modify_of_eq hnext, previousOf_modify_of_eq hprevious, rfl, rfl⟩

theorem setState {state : BucketState} : SameLinks table (table.setState i state) := by
  refine SameLinks.modify ?_ ?_ <;> exact fun _ => rfl

end SameLinks

/-! ## Changes of links -/

section

variable {t : HashTableType α} {table table' : HashTable α} {order before after : List Nat}
  {i : Nat}

/-- The links go through the buckets of a list in both directions. -/
theorem chained_iff : Chained table order ↔ Threads (forwardOf table) (backwardOf table) order := by
  constructor
  · rintro ⟨hforward, hbackward, hloose⟩
    obtain ⟨hnodup, hhead, hnext⟩ := linked_iff.mp hforward
    obtain ⟨-, htail, hprevious⟩ := linked_iff.mp hbackward
    refine ⟨hnodup, funext fun p => ?_, funext fun p => ?_⟩
    · cases p with
      | none => exact hhead.trans following_none.symm
      | some x =>
        by_cases hx : x ∈ order
        · exact hnext x hx
        · exact (hloose x hx).1.trans (following_of_notMem hx).symm
    · cases p with
      | none => exact htail.trans following_none.symm
      | some x =>
        by_cases hx : x ∈ order.reverse
        · exact hprevious x hx
        · refine (hloose x fun hmem => hx (mem_reverse.mpr hmem)).2.trans ?_
          exact (following_of_notMem hx).symm
  · rintro ⟨hnodup, hforward, hbackward⟩
    have hnext : ∀ p, forwardOf table p = following order p := congrFun hforward
    have hprevious : ∀ p, backwardOf table p = following order.reverse p := congrFun hbackward
    refine ⟨linked_iff.mpr ⟨hnodup, (hnext none).trans following_none, fun x _ => hnext (some x)⟩,
      linked_iff.mpr ⟨nodup_reverse.mpr hnodup, (hprevious none).trans following_none,
        fun x _ => hprevious (some x)⟩, fun x hx => ⟨?_, ?_⟩⟩
    · exact (hnext (some x)).trans (following_of_notMem hx)
    · refine (hprevious (some x)).trans (following_of_notMem fun hmem => hx ?_)
      exact mem_reverse.mp hmem

theorem forwardOf_modify (f : Bucket α → Bucket α) : forwardOf (table.modify i f) =
    update (forwardOf table) (some i) (f (table.mBuckets i)).next := by
  funext p
  cases p with
  | none => rfl
  | some x =>
    refine (congrFun nextOf_modify x).trans ?_
    rcases Decidable.eq_or_ne x i with rfl | hx
    · simp only [update_self]
    · rw [update_of_ne hx, update_of_ne fun heq => hx (some.inj heq)]
      rfl

theorem backwardOf_modify (f : Bucket α → Bucket α) : backwardOf (table.modify i f) =
    update (backwardOf table) (some i) (f (table.mBuckets i)).previous := by
  funext p
  cases p with
  | none => rfl
  | some x =>
    refine (congrFun previousOf_modify x).trans ?_
    rcases Decidable.eq_or_ne x i with rfl | hx
    · simp only [update_self]
    · rw [update_of_ne hx, update_of_ne fun heq => hx (some.inj heq)]
      rfl

/-- The link behind a pointer is written. -/
def setForward (table : HashTable α) (p link : Option Nat) : HashTable α :=
  match p with
  | some before => table.modify before fun bucket => { bucket with next := link }
  | none => { table with mHead := link }

/-- The link before a pointer is written. -/
def setBackward (table : HashTable α) (p link : Option Nat) : HashTable α :=
  match p with
  | some after => table.modify after fun bucket => { bucket with previous := link }
  | none => { table with mTail := link }

section

variable (table : HashTable α) (p link : Option Nat)

theorem forwardOf_setForward :
    forwardOf (setForward table p link) = update (forwardOf table) p link := by
  cases p with
  | none => funext q; cases q <;> rfl
  | some before => exact forwardOf_modify fun bucket => { bucket with next := link }

theorem backwardOf_setForward : backwardOf (setForward table p link) = backwardOf table := by
  cases p with
  | none => funext q; cases q <;> rfl
  | some before =>
    refine (backwardOf_modify fun bucket => { bucket with next := link }).trans ?_
    exact update_eq_self (some before) (backwardOf table)

theorem backwardOf_setBackward :
    backwardOf (setBackward table p link) = update (backwardOf table) p link := by
  cases p with
  | none => funext q; cases q <;> rfl
  | some after => exact backwardOf_modify fun bucket => { bucket with previous := link }

theorem forwardOf_setBackward : forwardOf (setBackward table p link) = forwardOf table := by
  cases p with
  | none => funext q; cases q <;> rfl
  | some after =>
    refine (forwardOf_modify fun bucket => { bucket with previous := link }).trans ?_
    exact update_eq_self (some after) (forwardOf table)

end

/-- A bucket has no links any more. -/
def clearLinks (table : HashTable α) (i : Nat) : HashTable α :=
  table.modify i fun bucket => { bucket with previous := none, next := none }

/-! ## One bucket -/

theorem relink_eq (table : HashTable α) (i : Nat) :
    table.relink i = setBackward (setForward table (backwardOf table (some i)) (some i))
      (forwardOf (setForward table (backwardOf table (some i)) (some i)) (some i)) (some i) := by
  rfl

theorem relink_links (h : backwardOf table (some i) ≠ some i) : forwardOf (table.relink i) =
        update (forwardOf table) (backwardOf table (some i)) (some i) ∧
      backwardOf (table.relink i) =
        update (backwardOf table) (forwardOf table (some i)) (some i) := by
  rw [relink_eq, forwardOf_setBackward, backwardOf_setBackward, forwardOf_setForward,
    backwardOf_setForward, update_of_ne h.symm]
  exact ⟨rfl, rfl⟩

/-- Only the pointers to a bucket may be missing. -/
def ChainedBut (table : HashTable α) (order : List Nat) (i : Nat) : Prop :=
  ThreadsBut (forwardOf table) (backwardOf table) order i

/-- The pointers of two buckets are exchanged. -/
def exchangeLinks (table : HashTable α) (i target : Nat) : HashTable α :=
  (table.modify i fun bucket =>
    { bucket with previous := (table.mBuckets target).previous
                  next := (table.mBuckets target).next }).modify target fun bucket =>
      { bucket with previous := (table.mBuckets i).previous, next := (table.mBuckets i).next }

section

variable (table : HashTable α)

theorem exchangeLinks_bucket (i target x : Nat) :
    nextOf (exchangeLinks table i target) x = nextOf table (Equiv.swap i target x) ∧
      previousOf (exchangeLinks table i target) x = previousOf table (Equiv.swap i target x) := by
  unfold nextOf previousOf exchangeLinks
  rcases Decidable.eq_or_ne x target with rfl | hxt
  · rw [Equiv.swap_apply_right, modify_self]
    exact ⟨rfl, rfl⟩
  rcases Decidable.eq_or_ne x i with rfl | hxi
  · rw [Equiv.swap_apply_left, modify_of_ne hxt, modify_self]
    exact ⟨rfl, rfl⟩
  · rw [Equiv.swap_apply_of_ne_of_ne hxi hxt, modify_of_ne hxt, modify_of_ne hxi]
    exact ⟨rfl, rfl⟩

theorem forwardOf_exchangeLinks (i target : Nat) : forwardOf (exchangeLinks table i target) =
      fun p => forwardOf table (p.map (Equiv.swap i target)) := by
  funext p
  cases p with
  | none => rfl
  | some x => exact (exchangeLinks_bucket table i target x).1

theorem backwardOf_exchangeLinks (i target : Nat) : backwardOf (exchangeLinks table i target) =
      fun p => backwardOf table (p.map (Equiv.swap i target)) := by
  funext p
  cases p with
  | none => rfl
  | some x => exact (exchangeLinks_bucket table i target x).2

theorem swapLinks_eq (i target : Nat) :
    table.swapLinks i target = (exchangeLinks table i target).relink target := rfl

end

namespace ChainedBut

section

variable (h : ChainedBut table order i)

include h

theorem congr (hsame : SameLinks table table') : ChainedBut table' order i := by
  have hforward : forwardOf table' = forwardOf table := funext fun p => by
    cases p with
    | none => exact hsame.head
    | some x => exact congrFun hsame.next x
  have hbackward : backwardOf table' = backwardOf table := funext fun p => by
    cases p with
    | none => exact hsame.tail
    | some x => exact congrFun hsame.previous x
  rw [ChainedBut, hforward, hbackward]
  exact h

theorem ne_of_notMem {target : Nat} (htarget : target ∉ order) :
    previousOf table i ≠ some target ∧ nextOf table i ≠ some target := by
  refine ⟨fun hprevious => htarget ?_, fun hnext => htarget ?_⟩
  · exact mem_reverse.mp (mem_of_following ((ThreadsBut.backward_self h).symm.trans hprevious))
  · exact mem_of_following ((ThreadsBut.forward_self h).symm.trans hnext)

/-- The neighbours of a bucket are told that it is there. -/
theorem relink (hi : i ∈ order) : Chained (table.relink i) order := by
  have hself : backwardOf table (some i) ≠ some i := by
    rw [ThreadsBut.backward_self h]
    exact following_self_ne (nodup_reverse.mpr h.nodup)
  obtain ⟨hforward, hbackward⟩ := relink_links hself
  rw [chained_iff, hforward, hbackward]
  exact ThreadsBut.relink h hi

/-- The links go with a bucket to its target, when the two are not neighbours. -/
theorem swapLinks {target : Nat} (hi : i ∈ order)
    (hprevious : previousOf table i ≠ some target) (hnext : nextOf table i ≠ some target) :
    ChainedBut (table.swapLinks i target) (order.map (Equiv.swap i target)) i := by
  have hforward := forwardOf_exchangeLinks table i target
  have hbackward := backwardOf_exchangeLinks table i target
  have hhere : ∀ links : Option Nat → Option Nat,
      links ((some target).map (Equiv.swap i target)) = links (some i) := fun links => by
    rw [map_some, Equiv.swap_apply_right]
  have hbefore : backwardOf (exchangeLinks table i target) (some target) = backwardOf table (some i) := by
    rw [hbackward]
    exact hhere (backwardOf table)
  have hafter : forwardOf (exchangeLinks table i target) (some target) = forwardOf table (some i) := by
    rw [hforward]
    exact hhere (forwardOf table)
  have hself : backwardOf (exchangeLinks table i target) (some target) ≠ some target := by
    rw [hbefore]
    exact hprevious
  obtain ⟨hforward', hbackward'⟩ := relink_links hself
  rw [ChainedBut, swapLinks_eq, hforward', hbackward', hbefore, hafter, hforward, hbackward]
  exact ThreadsBut.exchange h hi hprevious hnext

/-- There is nothing at a bucket that the elements have left. -/
theorem of_notMem (hi : i ∉ order) : Chained table order :=
  chained_iff.mpr (ThreadsBut.of_notMem h hi)

end

end ChainedBut

namespace Chained

theorem but (h : Chained table order) (i : Nat) : ChainedBut table order i :=
  (chained_iff.mp h).but i

theorem deleteBucket (hordered : t.isOrdered = true) (h : Chained table (before ++ i :: after)) :
    Chained (table.deleteBucket t i) (before ++ after) := by
  have hdeleted : Chained (table.modify i fun bucket => { bucket with state := .deleted, slot := none })
      (before ++ i :: after) := h.modify (fun _ => rfl) fun _ => rfl
  unfold HashTable.deleteBucket
  rw [if_pos hordered]
  generalize (table.modify i fun bucket => { bucket with state := .deleted, slot := none }) = first at hdeleted
  have hthreads := chained_iff.mp hdeleted
  have hself : backwardOf first (some i) ≠ some i := by
    rw [hthreads.backward]
    exact following_self_ne (nodup_reverse.mpr hthreads.nodup)
  have hunlink := hthreads.unlink
  rw [chained_iff]
  have hsecond : forwardOf (setForward first (backwardOf first (some i)) (forwardOf first (some i)))
      (some i) = forwardOf first (some i) := by
    rw [forwardOf_setForward, update_of_ne hself.symm]
  have hforward : forwardOf (clearLinks (setBackward
      (setForward first (backwardOf first (some i)) (forwardOf first (some i)))
      (forwardOf (setForward first (backwardOf first (some i)) (forwardOf first (some i))) (some i))
      (backwardOf (setForward first (backwardOf first (some i)) (forwardOf first (some i))) (some i))) i) =
      following (before ++ after) := by
    rw [clearLinks, forwardOf_modify, forwardOf_setBackward, forwardOf_setForward]
    exact hunlink.forward
  have hbackward : backwardOf (clearLinks (setBackward
      (setForward first (backwardOf first (some i)) (forwardOf first (some i)))
      (forwardOf (setForward first (backwardOf first (some i)) (forwardOf first (some i))) (some i))
      (backwardOf (setForward first (backwardOf first (some i)) (forwardOf first (some i))) (some i))) i) =
      following (before ++ after).reverse := by
    rw [clearLinks, backwardOf_modify, backwardOf_setBackward, backwardOf_setForward, hsecond]
    exact hunlink.backward
  exact ⟨hunlink.nodup, hforward, hbackward⟩

end Chained

end

end Literate.AK

import Literate.AK.BitmapCount

/-!
# AK: ranges of unset bits

`BitmapView::find_next_range_of_unset_bits` adds up the unset bits word by word.  It looks for the
range from the beginning of the word that the search is to start in when that word is all unset, and
from the bits behind the last whole word when the search is to start there.
-/

namespace Literate.AK.BitmapView

open Foundation Option BitVec

/-- What a part of the search comes to: a range that is returned, or the place where the unset bits
that were seen last begin and how many they are. -/
inductive Ranges
  | returned (start length : Nat)
  | going (start freeChunks : Nat)
  deriving DecidableEq, Repr

variable (s : BitmapView) (minLength maxLength : Nat)

/-- The loop over the bits of a word that is neither all set nor all unset. -/
def viewBits (bucketIndex : Nat) : Nat → Nat → BitVec 64 → Nat → Nat → Option Ranges
  | 0, _, _, _, _ => none
  | fuel + 1, viewedBits, bucket, start, freeChunks =>
    if viewedBits < 64 then
      let start := if freeChunks = 0 then bucketIndex * 64 + viewedBits else start
      if bucket = 0#64 then
        let freeChunks := freeChunks + (64 - viewedBits)
        viewBits bucketIndex fuel 64 bucket start freeChunks
      else
        let trailingZeroes := countTrailingZeroes bucket
        let bucket := bucket >>> trailingZeroes
        let freeChunks := freeChunks + trailingZeroes
        let viewedBits := viewedBits + trailingZeroes
        if minLength ≤ freeChunks then some (.returned start (min freeChunks maxLength))
        else
          let trailingOnes := countTrailingZeroes (~~~bucket)
          viewBits bucketIndex fuel (viewedBits + trailingOnes) (bucket >>> trailingOnes) start 0
    else some (.going start freeChunks)

/-- One word. -/
def viewBucket (bucketIndex startBucketBit start freeChunks : Nat) : Option Ranges := do
  let bucket ← s.wordAt 0 (8 * bucketIndex)
  if bucket = BitVec.allOnes 64 then
    if minLength ≤ freeChunks then some (.returned start (min freeChunks maxLength))
    else some (.going start 0)
  else if bucket = 0#64 then
    let start := if freeChunks = 0 then bucketIndex * 64 else start
    let freeChunks := freeChunks + 64
    if maxLength ≤ freeChunks then some (.returned start maxLength)
    else some (.going start freeChunks)
  else
    viewBits minLength maxLength bucketIndex 65 startBucketBit (bucket >>> startBucketBit) start
      freeChunks

/-- The loop over `n` words. -/
def viewBuckets : Nat → Nat → Nat → Nat → Nat → Option Ranges
  | 0, _, _, start, freeChunks => some (.going start freeChunks)
  | n + 1, bucketIndex, startBucketBit, start, freeChunks => do
      match ← s.viewBucket minLength maxLength bucketIndex startBucketBit start freeChunks with
      | .returned start length => some (.returned start length)
      | .going start freeChunks => viewBuckets n (bucketIndex + 1) 0 start freeChunks

/-- The loop over `n` bits behind the last whole word. -/
def viewTrailing : Nat → Nat → Nat → Nat → Option Ranges
  | 0, _, start, freeChunks => some (.going start freeChunks)
  | n + 1, i, start, freeChunks => do
      let bit ← s.get i
      if ¬ bit then
        let start := if freeChunks = 0 then i else start
        let freeChunks := freeChunks + 1
        if minLength ≤ freeChunks then some (.returned start (min freeChunks maxLength))
        else viewTrailing n (i + 1) start freeChunks
      else viewTrailing n (i + 1) start 0

/-- The start of the range, which is written to `from`, and the length that is returned. -/
def findNextRangeOfUnsetBits (start : Nat) : Option (Nat × Option Nat) :=
  if maxLength < minLength then some (start, none)
  else do
    let startBucketIndex := start / 64
    let startBucketBit := start % 64
    match ← s.viewBuckets minLength maxLength (s.mSize / 64 - startBucketIndex) startBucketIndex
        startBucketBit start 0 with
    | .returned start length => some (start, some length)
    | .going start freeChunks =>
      if freeChunks < minLength then
        match ← s.viewTrailing minLength maxLength (s.mSize % 64) (s.mSize / 64 * 64) start
            freeChunks with
        | .returned start length => some (start, some length)
        | .going start _ => some (start, none)
      else some (start, some (min freeChunks maxLength))

/-- The `n` bits from index `a` on are in the bitmap and unset. -/
def Unset (a n : Nat) : Prop := ∀ i, a ≤ i → i < a + n → i < s.mSize ∧ s.bit i = false

/-- A range is found that begins where the first one of the least length does, at or after `a`; or
there is no range of that length. -/
def FindsRange (a : Nat) : Option (Nat × Option Nat) → Prop
  | none => False
  | some (_, none) => ∀ j, a ≤ j → ¬ s.Unset j minLength
  | some (start, some length) =>
    a ≤ start ∧ minLength ≤ length ∧ length ≤ maxLength ∧ s.Unset start length ∧
      ∀ j, a ≤ j → j < start → ¬ s.Unset j minLength

/-- Where the search for a range begins. -/
def searchStart (start : Nat) : Nat :=
  if start / 64 < s.mSize / 64 then
    if s.wordAt 0 (8 * (start / 64)) = some 0#64 then start / 64 * 64 else start
  else s.mSize / 64 * 64

/-! ## What has been seen -/

/-- The search, from `a` on, has seen the bits before `p`: no range of the least length begins before
the last `freeChunks` of them, which are unset and begin at `start`. -/
structure Seen (a p start freeChunks : Nat) : Prop where
  after : a + freeChunks ≤ p
  inside : p ≤ s.mSize
  start : 0 < freeChunks → start + freeChunks = p
  unset : ∀ i, p - freeChunks ≤ i → i < p → s.bit i = false
  noRange : ∀ j, a ≤ j → j + freeChunks < p → ¬ s.Unset j minLength

variable {s minLength maxLength} {a p k start freeChunks : Nat}

section

variable (h : s.Seen minLength a p start freeChunks)

include h

theorem Seen.add (hk : p + k ≤ s.mSize) (hunset : ∀ i, p ≤ i → i < p + k → s.bit i = false) :
    s.Seen minLength a (p + k) (if freeChunks = 0 then p else start) (freeChunks + k) := by
  have hafter := h.after
  refine ⟨by omega, by omega, fun _ => ?_, fun i hfrom hi => ?_, fun j hfrom hj => ?_⟩
  · by_cases hzero : freeChunks = 0
    · rw [if_pos hzero, hzero, Nat.zero_add]
    · have hstart := h.start (Nat.pos_of_ne_zero hzero)
      rw [if_neg hzero]
      omega
  · rcases Nat.lt_or_ge i p with hlt | hge
    · exact h.unset i (by omega) hlt
    · exact hunset i hge hi
  · exact h.noRange j hfrom (by omega)

theorem Seen.stop (hfew : freeChunks < minLength)
    (hpos : 0 < k) (hk : p + k ≤ s.mSize) (hset : ∀ i, p ≤ i → i < p + k → s.bit i = true)
    (start' : Nat) : s.Seen minLength a (p + k) start' 0 := by
  have hafter := h.after
  refine ⟨by omega, hk, fun hpos => absurd hpos (Nat.lt_irrefl 0), fun i hfrom hi => by omega,
    fun j hfrom hj hunset => ?_⟩
  by_cases hbefore : j + freeChunks < p
  · exact h.noRange j hfrom hbefore hunset
  · -- the range would reach a set bit
    obtain ⟨-, hclear⟩ := hunset (max j p) (by omega) (by omega)
    rw [hset (max j p) (by omega) (by omega)] at hclear
    cases hclear

/-- Enough unset bits are a range that can be returned. -/
theorem Seen.found
    (henough : minLength ≤ freeChunks) (hpos : 0 < minLength) (hmax : minLength ≤ maxLength)
    {length : Nat}
    (hlength : length = min freeChunks maxLength) :
    s.FindsRange minLength maxLength a (some (start, some length)) := by
  have hafter := h.after
  have hinside := h.inside
  have hstart := h.start (by omega)
  refine ⟨by omega, by omega, by omega, fun i hfrom hi => ⟨by omega, h.unset i (by omega) (by omega)⟩,
    fun j hfrom hj => h.noRange j hfrom (by omega)⟩

theorem Seen.nothing (hp : s.mSize ≤ p) (hfew : freeChunks < minLength) (start' : Nat) :
    s.FindsRange minLength maxLength a (some (start', none)) := by
  have hafter := h.after
  have hinside := h.inside
  intro j hfrom hunset
  by_cases hbefore : j + freeChunks < p
  · exact h.noRange j hfrom hbefore hunset
  · obtain ⟨hlt, -⟩ := hunset (j + freeChunks) (by omega) (by omega)
    omega

end

/-- What a part of the search leaves: a range that is found, or the bits before `p` seen. -/
def Leaves (s : BitmapView) (minLength maxLength a p : Nat) : Ranges → Prop
  | .returned start length => s.FindsRange minLength maxLength a (some (start, some length))
  | .going start freeChunks => s.Seen minLength a p start freeChunks

/-! ## The loops -/

theorem Leaves.congr {q : Nat} {r : Ranges} (h : s.Leaves minLength maxLength a p r) (hpq : p = q) :
    s.Leaves minLength maxLength a q r := hpq ▸ h

/-- The bits of a word from `viewedBits` on, moved down. -/
def HasBits (s : BitmapView) (bucketIndex viewedBits : Nat) (bucket : BitVec 64) : Prop :=
  ∀ j, bucket.getLsbD j =
    (decide (viewedBits + j < 64) && s.bit (bucketIndex * 64 + viewedBits + j))

theorem HasBits.shift {bucketIndex viewedBits : Nat} {bucket : BitVec 64}
    (h : s.HasBits bucketIndex viewedBits bucket) (n : Nat) :
    s.HasBits bucketIndex (viewedBits + n) (bucket >>> n) := by
  intro j
  rw [getLsbD_ushiftRight, h, ← Nat.add_assoc, ← Nat.add_assoc, ← Nat.add_assoc]

section

variable (hmin : 0 < minLength)

include hmin

theorem viewBits_spec {bucketIndex fuel viewedBits : Nat} {bucket : BitVec 64}
    (hmax : minLength ≤ maxLength)
    (h : s.Seen minLength a (bucketIndex * 64 + viewedBits) start freeChunks)
    (hsize : bucketIndex * 64 + 64 ≤ s.mSize) (hviewed : viewedBits ≤ 64)
    (hfuel : 64 - viewedBits < fuel) (hbits : s.HasBits bucketIndex viewedBits bucket)
    (hne : viewedBits = 0 → bucket ≠ BitVec.allOnes 64) :
    ∃ r, viewBits minLength maxLength bucketIndex fuel viewedBits bucket start freeChunks = some r ∧
      s.Leaves minLength maxLength a (bucketIndex * 64 + 64) r := by
  induction fuel generalizing viewedBits bucket start freeChunks with
  | zero => omega
  | succ fuel ih =>
    rw [viewBits]
    by_cases hlt : viewedBits < 64
    · simp only [if_pos hlt]
      by_cases hzero : bucket = 0#64
      · -- the rest of the word is unset
        have hunset : ∀ i, bucketIndex * 64 + viewedBits ≤ i →
            i < bucketIndex * 64 + viewedBits + (64 - viewedBits) → s.bit i = false := by
          intro i hfrom hi
          obtain ⟨j, rfl⟩ := Nat.exists_eq_add_of_le hfrom
          have hbit := hbits j
          rw [hzero, getLsbD_zero, decide_eq_true (by omega), Bool.true_and] at hbit
          exact hbit.symm
        have hseen := h.add (by omega) hunset
        have hend : bucketIndex * 64 + viewedBits + (64 - viewedBits) = bucketIndex * 64 + 64 := by
          omega
        rw [if_pos hzero]
        refine ih (hend ▸ hseen) (Nat.le_refl 64) (by omega) (fun j => ?_) (by omega)
        rw [hzero, getLsbD_zero, decide_eq_false (by omega), Bool.false_and]
      · obtain ⟨-, hset, hbelow⟩ := countTrailingZeroes_spec hzero
        rw [if_neg hzero]
        generalize countTrailingZeroes bucket = trailingZeroes at hset hbelow ⊢
        have hfits : viewedBits + trailingZeroes < 64 := by
          rw [hbits, Bool.and_eq_true, decide_eq_true_eq] at hset
          exact hset.1
        have hunset : ∀ i, bucketIndex * 64 + viewedBits ≤ i →
            i < bucketIndex * 64 + viewedBits + trailingZeroes → s.bit i = false := by
          intro i hfrom hi
          obtain ⟨j, rfl⟩ := Nat.exists_eq_add_of_le hfrom
          have hbit := hbelow j (by omega)
          rwa [hbits, decide_eq_true (by omega), Bool.true_and] at hbit
        have hseen := h.add (by omega) hunset
        by_cases henough : minLength ≤ freeChunks + trailingZeroes
        · exact ⟨_, if_pos henough, hseen.found henough hmin hmax rfl⟩
        · have hshift := hbits.shift trailingZeroes
          have hlow : (bucket >>> trailingZeroes).getLsbD 0 = true := by
            rw [getLsbD_ushiftRight, Nat.add_zero]
            exact hset
          have hones : ~~~(bucket >>> trailingZeroes) ≠ 0#64 := by
            intro hall
            have hfull : bucket >>> trailingZeroes = BitVec.allOnes 64 := by
              rw [← BitVec.not_not (b := bucket >>> trailingZeroes), hall, not_zero]
            have hlast := hshift 63
            rw [hfull, getLsbD_allOnes, decide_eq_true (by decide : 63 < 64)] at hlast
            have hstart : viewedBits + trailingZeroes = 0 := by
              by_contra hpos
              rw [decide_eq_false (by omega), Bool.false_and] at hlast
              cases hlast
            have hboth : viewedBits = 0 ∧ trailingZeroes = 0 := by omega
            rw [hboth.2, ushiftRight_zero] at hfull
            exact hne hboth.1 hfull
          obtain ⟨hwidth, hclear, hsetbelow⟩ := countTrailingZeroes_spec hones
          rw [if_neg henough]
          generalize countTrailingZeroes (~~~(bucket >>> trailingZeroes)) = trailingOnes
            at hwidth hclear hsetbelow ⊢
          have hbit : ∀ j < trailingOnes, (bucket >>> trailingZeroes).getLsbD j = true := by
            intro j hj
            have hnot := hsetbelow j hj
            rw [getLsbD_not, decide_eq_true (by omega), Bool.true_and,
              Bool.not_eq_false'] at hnot
            exact hnot
          have hpos : 0 < trailingOnes := by
            by_contra hnone
            have hzeroOnes : trailingOnes = 0 := by omega
            rw [hzeroOnes, getLsbD_not, hlow] at hclear
            cases hclear
          have hin : viewedBits + trailingZeroes + trailingOnes ≤ 64 := by
            have hlast := hbit (trailingOnes - 1) (by omega)
            rw [hshift, Bool.and_eq_true, decide_eq_true_eq] at hlast
            omega
          have hstop := hseen.stop (k := trailingOnes) (by omega) hpos (by omega)
            (fun i hfrom hi => by
              obtain ⟨j, rfl⟩ := Nat.exists_eq_add_of_le hfrom
              have hlast := hbit j (by omega)
              rw [hshift, Bool.and_eq_true, decide_eq_true_eq] at hlast
              rw [Nat.add_assoc (bucketIndex * 64)]
              exact hlast.2)
            (if freeChunks = 0 then bucketIndex * 64 + viewedBits else start)
          simp only [Nat.add_assoc (bucketIndex * 64)] at hstop
          exact ih hstop hin (by omega) (hshift.shift trailingOnes) (by omega)
    · have hend : viewedBits = 64 := by omega
      rw [if_neg hlt]
      exact ⟨_, rfl, hend ▸ h⟩

theorem viewBucket_spec {bucketIndex startBucketBit : Nat}
    (hmax : minLength ≤ maxLength) (h : s.Seen minLength a p start freeChunks)
    (hindex : bucketIndex < s.mSize / 64) (hbit : startBucketBit < 64)
    (hp : p = if s.wordAt 0 (8 * bucketIndex) = some 0#64 then bucketIndex * 64
      else bucketIndex * 64 + startBucketBit) :
    ∃ r, s.viewBucket minLength maxLength bucketIndex startBucketBit start freeChunks = some r ∧
      s.Leaves minLength maxLength a (bucketIndex * 64 + 64) r := by
  have hbytes := le_sizeInBytes (s := s)
  have hsize : bucketIndex * 64 + 64 ≤ s.mSize := by omega
  obtain ⟨bucket, hbucket, hget⟩ := wordAt_add 0 (s := s) (k := 8 * bucketIndex) (by omega)
  rw [Nat.zero_add] at hbucket
  have hbits : s.HasBits bucketIndex 0 bucket := by
    intro j
    by_cases hj : j < 64
    · have hindex : 8 * (8 * bucketIndex) + j = bucketIndex * 64 + 0 + j := by omega
      rw [decide_eq_true (by omega), Bool.true_and, hget j hj, hindex]
      rfl
    · rw [decide_eq_false (by omega), Bool.false_and]
      exact getLsbD_of_ge bucket j (Nat.le_of_not_lt hj)
  simp only [hbucket, some.injEq] at hp
  rw [viewBucket, hbucket, bind_eq_bind, bind_some]
  by_cases hall : bucket = BitVec.allOnes 64
  · rw [if_pos hall]
    by_cases henough : minLength ≤ freeChunks
    · exact ⟨_, if_pos henough, h.found henough hmin hmax rfl⟩
    · have hnonzero : bucket ≠ 0#64 := by
        rw [hall]
        decide
      rw [if_neg hnonzero] at hp
      refine ⟨_, if_neg henough, ?_⟩
      have hstop := h.stop (k := 64 - startBucketBit) (by omega) (by omega) (by omega)
        (fun i hfrom hi => by
          obtain ⟨j, rfl⟩ := Nat.exists_eq_add_of_le hfrom
          have hset := hbits (startBucketBit + j)
          rw [hall, getLsbD_allOnes, decide_eq_true (by omega), decide_eq_true (by omega),
            Bool.true_and, Nat.add_zero, ← Nat.add_assoc, ← hp] at hset
          exact hset.symm) start
      have hend : p + (64 - startBucketBit) = bucketIndex * 64 + 64 := by omega
      exact hend ▸ hstop
  · rw [if_neg hall]
    by_cases hzero : bucket = 0#64
    · rw [if_pos hzero] at hp
      have hunset : ∀ i, p ≤ i → i < p + 64 → s.bit i = false := by
        intro i hfrom hi
        obtain ⟨j, rfl⟩ := Nat.exists_eq_add_of_le hfrom
        have hclear := hbits j
        rw [hzero, getLsbD_zero, decide_eq_true (by omega), Bool.true_and, Nat.add_zero,
          ← hp] at hclear
        exact hclear.symm
      have hseen := h.add (by omega) hunset
      rw [if_pos hzero]
      simp only []
      by_cases henough : maxLength ≤ freeChunks + 64
      · exact ⟨_, if_pos henough, hp ▸ hseen.found (by omega) hmin hmax (by omega)⟩
      · exact ⟨_, if_neg henough, hp ▸ hseen⟩
    · rw [if_neg hzero] at hp
      have hshift := hbits.shift startBucketBit
      rw [Nat.zero_add] at hshift
      rw [if_neg hzero]
      refine viewBits_spec hmin hmax (hp ▸ h) hsize (Nat.le_of_lt hbit) (by omega) hshift ?_
      rintro rfl
      rwa [ushiftRight_zero]

theorem viewBuckets_spec {n bucketIndex startBucketBit : Nat}
    (hmax : minLength ≤ maxLength) (h : s.Seen minLength a p start freeChunks)
    (hindex : bucketIndex + n ≤ s.mSize / 64) (hbit : startBucketBit < 64)
    (hp : p = if s.wordAt 0 (8 * bucketIndex) = some 0#64 then bucketIndex * 64
      else bucketIndex * 64 + startBucketBit) :
    ∃ r, s.viewBuckets minLength maxLength n bucketIndex startBucketBit start freeChunks = some r ∧
      s.Leaves minLength maxLength a (if n = 0 then p else (bucketIndex + n) * 64) r := by
  induction n generalizing bucketIndex startBucketBit p start freeChunks with
  | zero => exact ⟨_, rfl, h⟩
  | succ n ih =>
    obtain ⟨r, hr, hleaves⟩ := viewBucket_spec hmin hmax h (by omega) hbit hp
    rw [viewBuckets, hr, bind_eq_bind, bind_some, if_neg (Nat.succ_ne_zero n)]
    cases r with
    | returned start length => exact ⟨_, rfl, hleaves⟩
    | going start freeChunks =>
      have hnext : bucketIndex * 64 + 64 = (bucketIndex + 1) * 64 := by omega
      obtain ⟨r, hr, hrest⟩ := @ih _ _ _ (bucketIndex + 1) 0 hleaves
        (by omega) (by decide) (by split <;> exact hnext)
      refine ⟨r, hr, hrest.congr ?_⟩
      split
      · rename_i hzero
        rw [hzero, hnext]
      · rw [Nat.add_assoc, Nat.add_comm 1]

theorem viewTrailing_spec {n : Nat} (hmax : minLength ≤ maxLength)
    (h : s.Seen minLength a p start freeChunks) (hn : p + n = s.mSize)
    (hfew : freeChunks < minLength) :
    ∃ r, s.viewTrailing minLength maxLength n p start freeChunks = some r ∧
      match r with
      | .returned start length => s.FindsRange minLength maxLength a (some (start, some length))
      | .going start _ => s.FindsRange minLength maxLength a (some (start, none)) := by
  induction n generalizing p start freeChunks with
  | zero => exact ⟨_, rfl, h.nothing (by omega) hfew start⟩
  | succ n ih =>
    have hget : s.get p = some (s.bit p) := by
      obtain ⟨byte, hbyte⟩ := exists_byte (div_lt_sizeInBytes (i := p) (s := s) (by omega))
      have hlow : p % 8 < 8 := Nat.mod_lt p (by decide)
      have hmask : (0#8 != byte &&& (1#8 <<< (p % 8))) = byte.getLsbD (p % 8) := by
        cases hbit : byte.getLsbD (p % 8) with
        | false =>
          have hzero : byte &&& (1#8 <<< (p % 8)) = 0#8 := by
            refine eq_of_getLsbD_eq fun i hi => ?_
            rw [getLsbD_and, getLsbD_one_shiftLeft hlow, getLsbD_zero]
            by_cases heq : i = p % 8
            · rw [heq, hbit, Bool.false_and]
            · rw [decide_eq_false heq, Bool.and_false]
          rw [hzero]
          decide
        | true =>
          have hne : 0#8 ≠ byte &&& (1#8 <<< (p % 8)) := by
            intro hzero
            have hget := congrArg (fun x => x.getLsbD (p % 8)) hzero
            simp only [getLsbD_zero, getLsbD_and, getLsbD_one_shiftLeft hlow, hbit,
              decide_true, Bool.and_true] at hget
            cases hget
          exact bne_iff_ne.mpr hne
      rw [BitmapView.get, if_pos (by omega), hbyte, map_some, hmask, bit, bitAt_eq hbyte]
    rw [viewTrailing, hget, bind_eq_bind, bind_some]
    cases hbit : s.bit p with
    | false =>
      have hseen := h.add (k := 1) (by omega) fun i hfrom hi => by
        obtain rfl : i = p := by omega
        exact hbit
      simp only [Bool.false_eq_true, not_false_eq_true, if_true]
      by_cases henough : minLength ≤ freeChunks + 1
      · exact ⟨_, if_pos henough, hseen.found henough hmin hmax rfl⟩
      · rw [if_neg henough]
        exact ih hseen (by omega) (by omega)
    | true =>
      have hstop := h.stop (k := 1) hfew (by decide) (by omega)
        (fun i hfrom hi => by
          obtain rfl : i = p := by omega
          exact hbit) start
      simp only [not_true, if_false]
      exact ih hstop (by omega) hmin

/-! ## The search -/

/-- The first range at or after where the search begins is found. -/
theorem findNextRange_finds (hmax : minLength ≤ maxLength) (start : Nat) :
    s.FindsRange minLength maxLength (s.searchStart start)
      (s.findNextRangeOfUnsetBits minLength maxLength start) := by
  have hbegin : s.searchStart start ≤ s.mSize := by
    unfold searchStart
    split
    · split <;> omega
    · omega
  have hseen : s.Seen minLength (s.searchStart start) (s.searchStart start) start 0 :=
    ⟨Nat.le_refl _, hbegin, fun hpos => absurd hpos (Nat.lt_irrefl 0), fun i hfrom hi => by omega,
      fun j hfrom hj => by omega⟩
  obtain ⟨r, hr, hleaves⟩ : ∃ r, s.viewBuckets minLength maxLength (s.mSize / 64 - start / 64)
      (start / 64) (start % 64) start 0 = some r ∧
        s.Leaves minLength maxLength (s.searchStart start) (s.mSize / 64 * 64) r := by
    by_cases hin : start / 64 < s.mSize / 64
    · have hp : s.searchStart start = if s.wordAt 0 (8 * (start / 64)) = some 0#64 then start / 64 * 64
          else start / 64 * 64 + start % 64 := by
        have hsplit : start / 64 * 64 + start % 64 = start := Nat.div_add_mod' start 64
        rw [searchStart, if_pos hin, hsplit]
      obtain ⟨r, hr, hleaves⟩ := viewBuckets_spec hmin hmax hseen
        (n := s.mSize / 64 - start / 64) (by omega) (Nat.mod_lt start (by decide)) hp
      have hall : start / 64 + (s.mSize / 64 - start / 64) = s.mSize / 64 := by omega
      rw [if_neg (by omega), hall] at hleaves
      exact ⟨r, hr, hleaves⟩
    · have hnone : s.mSize / 64 - start / 64 = 0 := by omega
      have hp : s.searchStart start = s.mSize / 64 * 64 := if_neg hin
      rw [hnone]
      rw [hp] at hseen ⊢
      exact ⟨_, rfl, hseen⟩
  rw [findNextRangeOfUnsetBits, if_neg (Nat.not_lt_of_le hmax)]
  simp only [hr, bind_eq_bind, bind_some]
  cases r with
  | returned start length => exact hleaves
  | going start freeChunks =>
    by_cases hfew : freeChunks < minLength
    · obtain ⟨r, hr, hfinds⟩ := viewTrailing_spec hmin hmax hleaves
        (Nat.div_add_mod' s.mSize 64) hfew
      simp only [if_pos hfew, hr, bind_some]
      cases r with
      | returned start length => exact hfinds
      | going start freeChunks => exact hfinds
    · simp only [if_neg hfew]
      exact Seen.found hleaves (Nat.le_of_not_lt hfew) hmin hmax rfl

end

theorem searchStart_le (start : Nat) : s.searchStart start ≤ start := by
  unfold searchStart
  split
  · split <;> omega
  · omega

/-- What is found at or after `a` is what is to be found at or after `b`, when no range begins
between them. -/
theorem findsRange_iff {b : Nat} {r : Option (Nat × Option Nat)} (hab : a ≤ b)
    (hr : s.FindsRange minLength maxLength a r) :
    s.FindsRange minLength maxLength b r ↔ ∀ j, a ≤ j → j < b → ¬ s.Unset j minLength := by
  cases r with
  | none => exact hr.elim
  | some r =>
    obtain ⟨start, length⟩ := r
    cases length with
    | none =>
      exact iff_of_true (fun j hfrom => hr j (Nat.le_trans hab hfrom)) fun j hfrom _ => hr j hfrom
    | some length =>
      obtain ⟨hstart, hmin, hmax, hunset, hfirst⟩ := hr
      constructor
      · rintro ⟨hafter, -⟩ j hfrom hj
        exact hfirst j hfrom (Nat.lt_of_lt_of_le hj hafter)
      · intro h
        refine ⟨?_, hmin, hmax, hunset, fun j hfrom hj => hfirst j (Nat.le_trans hab hfrom) hj⟩
        by_contra hbefore
        exact h start hstart (Nat.lt_of_not_le hbefore) fun i hfrom hi => hunset i hfrom (by omega)

/-- The right range is found exactly when none begins between the place where the search begins and
the place where it is to begin. -/
theorem findNextRange_iff (s : BitmapView) (start : Nat) (hmin : 1 ≤ minLength)
    (hmax : minLength ≤ maxLength) :
    s.FindsRange minLength maxLength start (s.findNextRangeOfUnsetBits minLength maxLength start) ↔
      ∀ j, s.searchStart start ≤ j → j < start → ¬ s.Unset j minLength :=
  findsRange_iff (searchStart_le start) (findNextRange_finds hmin hmax start)

/-- Seventy bits without a value. -/
def seventy : BitmapView := ⟨List.replicate 9 0, 70, rfl, by decide⟩

theorem findNextRange_iff_seventy :
    seventy.FindsRange 2 5 66 (seventy.findNextRangeOfUnsetBits 2 5 66) ↔
      ∀ j, seventy.searchStart 66 ≤ j → j < 66 → ¬ seventy.Unset j 2 :=
  findNextRange_iff seventy 66 (by decide) (by decide)

/-- The search from the third bit finds a range that begins with the first. -/
theorem not_findNextRange :
    ¬ ∀ (s : BitmapView) (start minLength maxLength : Nat), 1 ≤ minLength → minLength ≤ maxLength →
      s.FindsRange minLength maxLength start
        (s.findNextRangeOfUnsetBits minLength maxLength start) := by
  intro h
  have hnone := (findNextRange_iff seventy 2 (Nat.le_refl 1) (Nat.le_refl 1)).mp
    (h seventy 2 1 1 (Nat.le_refl 1) (Nat.le_refl 1))
  have hstart : seventy.searchStart 2 ≤ 0 := by decide
  have hunset : seventy.Unset 0 1 := by
    intro i _ hi
    obtain rfl : i = 0 := by omega
    decide
  exact hnone 0 hstart (by decide) hunset

end Literate.AK.BitmapView

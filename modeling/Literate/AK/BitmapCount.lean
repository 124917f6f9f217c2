import Literate.AK.BitmapView

/-!
# AK: counting in bitmaps

`BitmapView::count_in_range` reads whole words where the memory of the bitmap is aligned.  The
bytes of the bitmap lie from `address` on, and a pointer is an address.
-/

namespace Literate.AK.BitmapView

open Foundation Option Nat Bool BitVec

variable (s : BitmapView) (address : Nat)

/-- The byte that a pointer points to. -/
def byteAt (p : Nat) : Option (BitVec 8) :=
  if address ≤ p then s.mData[p - address]? else none

/-- The word of type `size_t` that a pointer points to. -/
def wordAt (p : Nat) : Option (BitVec 64) :=
  if address ≤ p ∧ p + 8 ≤ address + s.mData.length then
    some (ofLittleEndian 64 ((s.mData.drop (p - address)).take 8))
  else none

/-- `p & ~(sizeof(size_t) - 1)`. -/
def alignDown (p : Nat) : Nat := p / 8 * 8

/-- The loops over `n` bytes from `first` on: where the pointer is after them, and the count. -/
def countBytes : Nat → Nat → Nat → Option (Nat × Nat)
  | 0, first, count => some (first, count)
  | n + 1, first, count => do
      let byte ← s.byteAt address first
      countBytes n (first + 1) (count + popcount byte)

/-- The loop over `n` words. -/
def countWords : Nat → Nat → Nat → Option (Nat × Nat)
  | 0, ptrLarge, count => some (ptrLarge, count)
  | n + 1, ptrLarge, count => do
      let word ← s.wordAt address ptrLarge
      countWords n (ptrLarge + 8) (count + popcount word)

/-- The whole bytes between the first and the last. -/
def countMiddle (first last count : Nat) : Option Nat := do
  let ptrLarge := alignDown (first + 7)
  let ptrLarge := if last < ptrLarge then last else ptrLarge
  let (_, count) ← s.countBytes address (ptrLarge - first) first count
  let lastLarge := alignDown last
  let (ptrLarge, count) ← s.countWords address ((lastLarge - ptrLarge + 7) / 8) ptrLarge count
  let (_, count) ← s.countBytes address (last - ptrLarge) ptrLarge count
  some count

/-- The set bits of the byte that a range ends in, when the bitmap has that byte. -/
def countLast (last : Nat) (byteMask : BitVec 8) : Option Nat :=
  if last < address + s.sizeInBytes then
    (s.byteAt address last).map fun byte => popcount (byte &&& byteMask)
  else some 0

/-- The set bits of a range that has bits. -/
def countSet (start len : Nat) : Option Nat := do
  let first := address + start / 8
  let last := address + sum start len / 8
  let byte ← s.byteAt address first
  let byte := byte &&& bitmaskFirstByte.getD (start % 8) 0
  if first = last then
    some (popcount (byte &&& bitmaskLastByte.getD (sum start len % 8) 0))
  else do
    let lastCount ← s.countLast address last (bitmaskLastByte.getD (sum start len % 8) 0)
    let count := popcount byte + lastCount
    if first + 1 < last then s.countMiddle address (first + 1) last count else some count

def countInRange (start len : Nat) (value : Bool) : Option Nat :=
  if ¬ start < s.mSize then none
  else if ¬ sum start len < s.mSize then none
  else if len = 0 then some 0
  else (s.countSet address start len).map fun count => if value then count else len - count

def countSlow (value : Bool) : Option Nat := s.countInRange address 0 s.mSize value

variable {s address} {k n count start len : Nat} {value : Bool}

theorem byteAt_add (k : Nat) : s.byteAt address (address + k) = s.mData[k]? := by
  rw [byteAt, if_pos (Nat.le_add_right address k), Nat.add_sub_cancel_left]

theorem popcount_byte {byte : BitVec 8} (h : s.mData[k]? = some byte) :
    popcount byte = countBits s.mData (8 * k) 8 :=
  popcount_eq_countBits_low (Nat.le_refl 8) (fun _ hi => (bitAt_byte h hi).symm) fun i hi =>
    getLsbD_of_ge byte i hi

/-- The bits of a byte that the mask for the start of a range leaves. -/
theorem popcount_first {byte : BitVec 8} (h : s.mData[k]? = some byte) (start : Nat) :
    popcount (byte &&& bitmaskFirstByte.getD (start % 8) 0) =
      countBits s.mData (8 * k + start % 8) (8 - start % 8) := by
  have hlow : start % 8 < 8 := mod_lt start (by decide)
  refine popcount_eq_countBits (Nat.le_of_lt hlow) (Nat.le_refl 8) (fun i hfrom hi => ?_) fun i hi => ?_
  · have hmask := getLsbD_bitmaskFirstByte start i
    rw [mod_eq_of_lt hi] at hmask
    rw [getLsbD_and, hmask.mpr hfrom, Bool.and_true, bitAt_byte h hi]
  · rcases hi with hi | hi
    · have hmask := getLsbD_bitmaskFirstByte start i
      rw [mod_eq_of_lt (by omega : i < 8)] at hmask
      rw [getLsbD_and, eq_false_iff.mpr (mt hmask.mp (Nat.not_le_of_lt hi)),
        Bool.and_false]
    · exact getLsbD_of_ge _ i hi

/-- The bits of a byte that the mask for the end of a range leaves. -/
theorem popcount_last {byte : BitVec 8} (h : s.mData[k]? = some byte) (last : Nat) :
    popcount (byte &&& bitmaskLastByte.getD (last % 8) 0) = countBits s.mData (8 * k) (last % 8) := by
  have hlow : last % 8 < 8 := mod_lt last (by decide)
  refine popcount_eq_countBits_low (Nat.le_of_lt hlow) (fun i hi => ?_) fun i hi => ?_
  · have hmask := getLsbD_bitmaskLastByte last i
    rw [mod_eq_of_lt (by omega : i < 8)] at hmask
    rw [getLsbD_and, hmask.mpr hi, Bool.and_true, bitAt_byte h (by omega)]
  · by_cases hwide : i < 8
    · have hmask := getLsbD_bitmaskLastByte last i
      rw [mod_eq_of_lt hwide] at hmask
      rw [getLsbD_and, eq_false_iff.mpr (mt hmask.mp (by omega)), Bool.and_false]
    · exact getLsbD_of_ge _ i (Nat.le_of_not_lt hwide)

theorem popcount_between {byte : BitVec 8} (h : s.mData[k]? = some byte) (start last : Nat)
    (hle : start % 8 ≤ last % 8) :
    popcount (byte &&& bitmaskFirstByte.getD (start % 8) 0 &&& bitmaskLastByte.getD (last % 8) 0) =
      countBits s.mData (8 * k + start % 8) (last % 8 - start % 8) := by
  have hlow : last % 8 < 8 := mod_lt last (by decide)
  refine popcount_eq_countBits hle (Nat.le_of_lt hlow) (fun i hfrom hi => ?_) fun i hi => ?_
  · have hfirst := getLsbD_bitmaskFirstByte start i
    have hlast := getLsbD_bitmaskLastByte last i
    rw [mod_eq_of_lt (by omega : i < 8)] at hfirst hlast
    rw [getLsbD_and, getLsbD_and, hfirst.mpr hfrom, hlast.mpr hi, Bool.and_true,
      Bool.and_true, bitAt_byte h (by omega)]
  · by_cases hwide : i < 8
    · have hfirst := getLsbD_bitmaskFirstByte start i
      have hlast := getLsbD_bitmaskLastByte last i
      rw [mod_eq_of_lt hwide] at hfirst hlast
      simp only [getLsbD_and]
      rcases hi with hi | hi
      · rw [eq_false_iff.mpr (mt hfirst.mp (by omega)), Bool.and_false, Bool.false_and]
      · rw [eq_false_iff.mpr (mt hlast.mp (by omega)), Bool.and_false]
    · exact getLsbD_of_ge _ i (Nat.le_of_not_lt hwide)

/-! ## The loops -/

theorem countBytes_eq (h : k + n ≤ s.sizeInBytes) : s.countBytes address n (address + k) count =
      some (address + k + n, count + countBits s.mData (8 * k) (8 * n)) := by
  induction n generalizing k count with
  | zero => rfl
  | succ n ih =>
    obtain ⟨byte, hbyte⟩ := exists_byte (s := s) (k := k) (by omega)
    have hsplit : countBits s.mData (8 * k) (8 * (n + 1)) =
        popcount byte + countBits s.mData (8 * (k + 1)) (8 * n) := by
      simp only [Nat.mul_succ, Nat.add_comm (8 * n), countBits_add, popcount_byte hbyte]
    rw [countBytes, byteAt_add, hbyte, bind_eq_bind, bind_some, Nat.add_assoc address,
      ih (by omega), hsplit]
    congr 2 <;> omega

theorem wordAt_add (address : Nat) (h : k + 8 ≤ s.sizeInBytes) :
    ∃ word, s.wordAt address (address + k) = some word ∧
      ∀ i < 64, word.getLsbD i = bitAt s.mData (8 * k + i) := by
  have hlength : s.mData.length = s.sizeInBytes := s.length_mData
  refine ⟨_, if_pos ⟨Nat.le_add_right address k, by omega⟩, fun i hi => ?_⟩
  rw [getLsbD_ofLittleEndian, decide_eq_true hi, Bool.true_and, bitAt_take (by omega),
    Nat.add_sub_cancel_left, bitAt_drop]

theorem countWords_eq (h : k + 8 * n ≤ s.sizeInBytes) : s.countWords address n (address + k) count =
      some (address + k + 8 * n, count + countBits s.mData (8 * k) (64 * n)) := by
  induction n generalizing k count with
  | zero => rfl
  | succ n ih =>
    obtain ⟨word, hword, hbits⟩ := wordAt_add address (s := s) (k := k) (by omega)
    have hcount : popcount word = countBits s.mData (8 * k) 64 :=
      popcount_eq_countBits_low (Nat.le_refl 64) hbits fun i hi => getLsbD_of_ge word i hi
    have hsplit : countBits s.mData (8 * k) (64 * (n + 1)) =
        popcount word + countBits s.mData (8 * (k + 8)) (64 * n) := by
      rw [Nat.mul_succ, Nat.add_comm (64 * n), countBits_add, hcount, Nat.mul_add]
    rw [countWords, hword, bind_eq_bind, bind_some, Nat.add_assoc address,
      ih (by omega), hsplit]
    congr 2 <;> omega

/-- The bytes between are counted, wherever the words in them begin. -/
theorem countMiddle_eq {last : Nat} (h : k ≤ last) (hlast : last ≤ s.sizeInBytes) :
    s.countMiddle address (address + k) (address + last) count =
      some (count + countBits s.mData (8 * k) (8 * (last - k))) := by
  -- `a` bytes come before the first word, then `b` words, then the rest
  obtain ⟨a, ha, hle⟩ : ∃ a, (if address + last < alignDown (address + k + 7) then address + last
      else alignDown (address + k + 7)) = address + (k + a) ∧ k + a ≤ last := by
    unfold alignDown
    split
    · exact ⟨last - k, by omega, by omega⟩
    · exact ⟨(address + k + 7) / 8 * 8 - (address + k), by omega, by omega⟩
  obtain ⟨b, hb, hwords⟩ : ∃ b, (alignDown (address + last) - (address + (k + a)) + 7) / 8 = b ∧
      k + a + 8 * b ≤ last := by
    refine ⟨_, rfl, ?_⟩
    unfold alignDown at ha ⊢
    split at ha <;> omega
  rw [countMiddle]
  simp only [ha]
  have hbytes : address + (k + a) - (address + k) = a := by omega
  rw [hbytes, countBytes_eq (by omega), bind_eq_bind, bind_some]
  simp only [hb]
  rw [countWords_eq (by omega), bind_some]
  simp only [Nat.add_assoc address (k + a) (8 * b), Nat.add_sub_add_left]
  rw [countBytes_eq (by omega), bind_some]
  have hsplit : 8 * (last - k) = 8 * a + (64 * b + 8 * (last - (k + a + 8 * b))) := by omega
  have hword : 8 * k + 8 * a + 64 * b = 8 * (k + a + 8 * b) := by omega
  rw [hsplit, countBits_add, countBits_add, hword, ← Nat.mul_add]
  simp only [some.injEq]
  omega

/-! ## The count -/

theorem countSet_eq (h : start + len < s.mSize) :
    s.countSet address start len = some (countBits s.mData start len) := by
  have hsum : sum start len = start + len := sum_eq (Nat.le_of_lt h)
  obtain ⟨byte, hbyte⟩ := exists_byte (div_lt_sizeInBytes (Nat.lt_of_le_of_lt
    (Nat.le_add_right start len) h))
  obtain ⟨lastByte, hlastByte⟩ := exists_byte (div_lt_sizeInBytes h)
  have hfirst : 8 * (start / 8) + start % 8 = start := div_add_mod start 8
  rw [countSet]
  simp only [byteAt_add, hbyte, hsum, bind_eq_bind, bind_some]
  by_cases hone : start / 8 = (start + len) / 8
  · have hcount := popcount_between hbyte start (start + len) (by omega)
    have hwidth : (start + len) % 8 - start % 8 = len := by omega
    rw [hfirst, hwidth] at hcount
    rw [if_pos (congrArg (address + ·) hone), hcount]
  · have hne : ¬ address + start / 8 = address + (start + len) / 8 := by omega
    have hinside : address + (start + len) / 8 < address + s.sizeInBytes :=
      Nat.add_lt_add_left (div_lt_sizeInBytes h) address
    have hstart := popcount_first hbyte start
    rw [hfirst] at hstart
    -- the first byte, the bytes between and the last byte
    have hsplit : len = 8 - start % 8 +
        (8 * ((start + len) / 8 - (start / 8 + 1)) + (start + len) % 8) := by omega
    have hbits : countBits s.mData start len =
        countBits s.mData start (8 - start % 8) +
          (countBits s.mData (8 * (start / 8 + 1)) (8 * ((start + len) / 8 - (start / 8 + 1))) +
            countBits s.mData (8 * ((start + len) / 8)) ((start + len) % 8)) := by
      have hsecond : start + (8 - start % 8) = 8 * (start / 8 + 1) := by omega
      have hthird : 8 * (start / 8 + 1) + 8 * ((start + len) / 8 - (start / 8 + 1)) =
          8 * ((start + len) / 8) := by omega
      conv_lhs => rw [hsplit]
      simp only [countBits_add, hsecond, hthird]
    rw [if_neg hne, countLast, if_pos hinside, byteAt_add, hlastByte, map_some,
      bind_some, hstart, popcount_last hlastByte, hbits]
    by_cases hnext : start / 8 + 1 < (start + len) / 8
    · rw [if_pos (by omega), Nat.add_assoc, countMiddle_eq (Nat.le_of_lt hnext)
        (Nat.le_of_lt (div_lt_sizeInBytes h)), some.injEq]
      omega
    · have hzero : (start + len) / 8 - (start / 8 + 1) = 0 := by omega
      rw [if_neg (by omega), hzero, Nat.mul_zero, countBits_zero, Nat.zero_add]

theorem countInRange_eq (h : start + len < s.mSize) :
    s.countInRange address start len value = some (countValue s.mData start len value) := by
  have hstart : start < s.mSize := by omega
  rw [countInRange, if_neg (not_not_intro hstart), sum_eq (Nat.le_of_lt h),
    if_neg (not_not_intro h)]
  by_cases hlen : len = 0
  · subst hlen
    rw [if_pos rfl]
    rfl
  · rw [if_neg hlen, countSet_eq h, map_some]
    cases value with
    | false => rw [countValue_false]; rfl
    | true => rw [countValue_true]; rfl

/-- Of the ranges inside of a bitmap, those are counted that end before its last bit. -/
theorem countInRange_iff (hstart : start < s.mSize) (hlen : start + len ≤ s.mSize)
    (address : Nat) (value : Bool) :
    s.countInRange address start len value = some (countValue s.mData start len value) ↔
      start + len < s.mSize := by
  refine ⟨fun h => ?_, countInRange_eq⟩
  by_contra hout
  rw [countInRange, if_neg (not_not_intro hstart), sum_eq hlen, if_pos hout] at h
  cases h

theorem countInRange_iff_twelve :
    (⟨[0x0f, 0x0a], 12, rfl, by decide⟩ : BitmapView).countInRange 5 2 9 true =
        some (countValue [0x0f, 0x0a] 2 9 true) ↔ 2 + 9 < 12 :=
  countInRange_iff (s := ⟨[0x0f, 0x0a], 12, rfl, by decide⟩) (by decide) (by decide) 5 true

/-- The bits of a whole bitmap are not counted. -/
theorem not_countSlow :
    ¬ ∀ (s : BitmapView) (address start len : Nat) (value : Bool), start < s.mSize →
      start + len ≤ s.mSize →
        s.countInRange address start len value = some (countValue s.mData start len value) := by
  intro h
  have hcount := h ⟨[0x01], 8, rfl, by decide⟩ 0 0 8 true (by decide) (by decide)
  exact absurd ((countInRange_iff (s := ⟨[0x01], 8, rfl, by decide⟩) (by decide) (by decide) 0
    true).mp hcount) (by decide)

end Literate.AK.BitmapView

import Literate.Foundation.BitArrays

/-!
# AK: bitmaps, and updates of their ranges

`AK/BitmapView.h` and `AK/Bitmap.h`.  An access outside of the bytes of a bitmap fails, as an
assertion does.
-/

namespace Literate.AK

open Foundation List Option

def ceilDiv (a b : Nat) : Nat := if a % b ≠ 0 then a / b + 1 else a / b

structure BitmapView where
  mData : List (BitVec 8)
  mSize : Nat
  length_mData : mData.length = ceilDiv mSize 8
  mSize_lt : mSize < 2 ^ 64

namespace BitmapView

def bitmaskFirstByte : List (BitVec 8) := [0xFF, 0xFE, 0xFC, 0xF8, 0xF0, 0xE0, 0xC0, 0x80]

def bitmaskLastByte : List (BitVec 8) := [0x00, 0x1, 0x3, 0x7, 0xF, 0x1F, 0x3F, 0x7F]

variable (s : BitmapView)

def sizeInBytes : Nat := ceilDiv s.mSize 8

def get (index : Nat) : Option Bool :=
  if index < s.mSize then
    (s.mData[index / 8]?).map fun byte => 0#8 != byte &&& (1#8 <<< (index % 8))
  else none

/-- The bit at an index. -/
def bit (i : Nat) : Bool := bitAt s.mData i

/-- A sum of type `size_t`. -/
def sum (a b : Nat) : Nat := (a + b) % 2 ^ 64

variable {s}

theorem sum_eq {a b : Nat} (h : a + b ≤ s.mSize) : sum a b = a + b :=
  Nat.mod_eq_of_lt (Nat.lt_of_le_of_lt h s.mSize_lt)

theorem le_sizeInBytes : s.mSize ≤ 8 * s.sizeInBytes := by
  unfold sizeInBytes ceilDiv
  split <;> omega

theorem sizeInBytes_le {n : Nat} (h : s.mSize ≤ 8 * n) : s.sizeInBytes ≤ n := by
  unfold sizeInBytes ceilDiv
  split <;> omega

theorem div_lt_sizeInBytes {i : Nat} (h : i < s.mSize) : i / 8 < s.sizeInBytes := by
  have hle := le_sizeInBytes (s := s)
  omega

theorem exists_byte {k : Nat} (h : k < s.sizeInBytes) : ∃ byte, s.mData[k]? = some byte :=
  ⟨_, List.getElem?_eq_getElem (by rw [s.length_mData]; exact h)⟩

theorem no_byte {k : Nat} (h : s.sizeInBytes ≤ k) : s.mData[k]? = none :=
  List.getElem?_eq_none (by rw [s.length_mData]; exact h)

/-- The mask for a range that starts at `start`. -/
theorem getLsbD_bitmaskFirstByte (start i : Nat) :
    (bitmaskFirstByte.getD (start % 8) 0).getLsbD (i % 8) = true ↔ start % 8 ≤ i % 8 := by
  have hall : ∀ k < 8, ∀ j < 8, (bitmaskFirstByte.getD k 0).getLsbD j = true ↔ k ≤ j := by decide
  exact hall _ (Nat.mod_lt start (by decide)) _ (Nat.mod_lt i (by decide))

/-- The mask for a range that stops before `last`. -/
theorem getLsbD_bitmaskLastByte (last i : Nat) :
    (bitmaskLastByte.getD (last % 8) 0).getLsbD (i % 8) = true ↔ i % 8 < last % 8 := by
  have hall : ∀ k < 8, ∀ j < 8, (bitmaskLastByte.getD k 0).getLsbD j = true ↔ j < k := by decide
  exact hall _ (Nat.mod_lt last (by decide)) _ (Nat.mod_lt i (by decide))

end BitmapView

namespace Bitmap

open BitmapView

/-- The write that `set_range` does at the first and at the last byte of its range. -/
def setMasked (value verifyThatAllBitsFlip : Bool) (s : BitmapView) (index : Nat)
    (byteMask : BitVec 8) : Option BitmapView := do
  let byte ← s.mData[index]?
  if verifyThatAllBitsFlip && (byte &&& byteMask) != (if value then 0#8 else byteMask) then none
  else
    some { s with
      mData := s.mData.set index (if value then byte ||| byteMask else byte &&& ~~~byteMask)
      length_mData := length_set.trans s.length_mData }

/-- `__builtin_memset`, from the byte `first` to the byte before `last`. -/
def memset (value : Bool) (s : BitmapView) (first last : Nat) : Option BitmapView :=
  if last ≤ s.mData.length then
    some { s with
      mData := s.mData.mapIdx fun i byte =>
        if first ≤ i ∧ i < last then (if value then 0xFF#8 else 0x0#8) else byte
      length_mData := length_mapIdx.trans s.length_mData }
  else none

def setRangeVerifying (value verifyThatAllBitsFlip : Bool) (s : BitmapView) (start len : Nat) :
    Option BitmapView :=
  if ¬ start < s.mSize then none
  else if ¬ sum start len ≤ s.mSize then none
  else if len = 0 then some s
  else
    let first := start / 8
    let last := sum start len / 8
    let byteMask := bitmaskFirstByte.getD (start % 8) 0
    if first = last then
      let byteMask := byteMask &&& bitmaskLastByte.getD (sum len len % 8) 0
      setMasked value verifyThatAllBitsFlip s first byteMask
    else do
      let s ← setMasked value verifyThatAllBitsFlip s first byteMask
      let byteMask := bitmaskLastByte.getD (sum start len % 8) 0
      let s ← setMasked value verifyThatAllBitsFlip s last byteMask
      if first + 1 < last then memset value s (first + 1) last else some s

def setRange (s : BitmapView) (start len : Nat) (value : Bool) : Option BitmapView :=
  setRangeVerifying value false s start len

def setRangeAndVerifyThatAllBitsFlip (s : BitmapView) (start len : Nat) (value : Bool) :
    Option BitmapView :=
  setRangeVerifying value true s start len

/-! ## Range updates -/

/-- The bits of a range have a value, and the other bits are as they were. -/
def SetsRange (s : BitmapView) (start len : Nat) (value : Bool) (r : Option BitmapView) : Prop :=
  ∃ s', r = some s' ∧ s'.mSize = s.mSize ∧
    ∀ i, s'.bit i = if start ≤ i ∧ i < start + len then value else s.bit i

/-- In one byte, the bits between the end of the range and that of the mask, which is taken from
twice the length, have the value; otherwise the byte that the range ends in is one of the bitmap. -/
def EndsInBitmap (s : BitmapView) (start len : Nat) (value : Bool) : Prop :=
  if start / 8 = (start + len) / 8 then
    ∀ j < 8, start % 8 ≤ j → min ((len + len) % 8) ((start + len) % 8) ≤ j →
      j < max ((len + len) % 8) ((start + len) % 8) → s.bit (8 * (start / 8) + j) = value
  else (start + len) / 8 < s.sizeInBytes

instance (s : BitmapView) (start len : Nat) (value : Bool) :
    Decidable (EndsInBitmap s start len value) := by
  unfold EndsInBitmap
  infer_instance

variable {s : BitmapView} {value : Bool} {index start len : Nat} {byteMask : BitVec 8}

theorem setMasked_spec (value : Bool) (byteMask : BitVec 8) (h : index < s.sizeInBytes) :
    ∃ s', setMasked value false s index byteMask = some s' ∧ s'.mSize = s.mSize ∧
      ∀ i, s'.bit i =
        if i / 8 = index ∧ byteMask.getLsbD (i % 8) = true then value else s.bit i := by
  obtain ⟨byte, hbyte⟩ := exists_byte h
  have hlt : index < s.mData.length := by rwa [s.length_mData]
  have hrun : ∃ s', setMasked value false s index byteMask = some s' ∧ s'.mSize = s.mSize ∧
      s'.mData =
        s.mData.set index (if value then byte ||| byteMask else byte &&& ~~~byteMask) := by
    rw [setMasked, hbyte]
    exact ⟨_, rfl, rfl, rfl⟩
  obtain ⟨s', heq, hsize, hdata⟩ := hrun
  refine ⟨s', heq, hsize, fun i => ?_⟩
  by_cases hi : i / 8 = index
  · have hset : s'.mData[i / 8]? =
        some (if value then byte ||| byteMask else byte &&& ~~~byteMask) := by
      rw [hdata, hi, List.getElem?_set_self hlt]
    have hlow : i % 8 < 8 := Nat.mod_lt i (by decide)
    rw [bit, bitAt_eq hset, bit, bitAt_eq (hi.symm ▸ hbyte)]
    cases value <;> cases hmask : byteMask.getLsbD (i % 8) <;>
      simp only [BitVec.getLsbD_or, BitVec.getLsbD_and, BitVec.getLsbD_not, hi, hmask, hlow,
        Bool.false_eq_true, if_false, if_true, and_true, and_false, decide_true, Bool.not_true,
        Bool.not_false, Bool.and_true, Bool.and_false, Bool.or_true, Bool.or_false]
  · have hne : ¬ (i / 8 = index ∧ byteMask.getLsbD (i % 8) = true) := fun h => hi h.1
    rw [if_neg hne]
    exact bitAt_congr (hdata ▸ List.getElem?_set_ne (Ne.symm hi))

theorem setMasked_none {verify : Bool} (h : s.sizeInBytes ≤ index) :
    setMasked value verify s index byteMask = none := by
  rw [setMasked, no_byte h]
  rfl

theorem memset_spec (value : Bool) (first : Nat) {last : Nat} (h : last ≤ s.sizeInBytes) :
    ∃ s', memset value s first last = some s' ∧ s'.mSize = s.mSize ∧
      ∀ i, s'.bit i = if first ≤ i / 8 ∧ i / 8 < last then value else s.bit i := by
  refine ⟨_, if_pos (by rw [s.length_mData]; exact h), rfl, fun i => ?_⟩
  have hlow : i % 8 < 8 := Nat.mod_lt i (by decide)
  simp only [bit, bitAt, getD_eq_getElem?_getD, List.getElem?_mapIdx]
  by_cases hin : first ≤ i / 8 ∧ i / 8 < last
  · obtain ⟨byte, hbyte⟩ := exists_byte (s := s) (Nat.lt_of_lt_of_le hin.2 h)
    have hall : ∀ j < 8, (0xFF#8).getLsbD j = true := by decide
    simp only [hbyte, map_some, getD_some, if_pos hin]
    cases value with
    | false => exact BitVec.getLsbD_zero
    | true => exact hall (i % 8) hlow
  · rw [if_neg hin]
    cases s.mData[i / 8]? with
    | none => rfl
    | some byte => rw [map_some, if_neg hin]

theorem ite_eq_ite_iff {a c : Prop} [Decidable a] [Decidable c] {v b : Bool} :
    (if a then v else b) = (if c then v else b) ↔ ((a ↔ c) ∨ b = v) := by
  by_cases ha : a <;> by_cases hc : c <;> simp [ha, hc, eq_comm]

theorem setRange_oneByte (hstart : start < s.mSize) (hlen : start + len ≤ s.mSize) (hpos : len ≠ 0)
    (hbyte : start / 8 = (start + len) / 8) :
    SetsRange s start len value (setRange s start len value) ↔ EndsInBitmap s start len value := by
  have hsum : sum start len = start + len := sum_eq hlen
  have hdouble : sum len len % 8 = (len + len) % 8 := Nat.mod_mod_of_dvd _ ⟨2 ^ 61, rfl⟩
  obtain ⟨s', heq, hsize, hbits⟩ := setMasked_spec value
    (bitmaskFirstByte.getD (start % 8) 0 &&& bitmaskLastByte.getD ((len + len) % 8) 0)
    (div_lt_sizeInBytes hstart)
  have hrun : setRange s start len value = some s' := by
    rw [setRange, setRangeVerifying, if_neg (not_not_intro hstart), hsum,
      if_neg (not_not_intro hlen), if_neg hpos, if_pos hbyte, hdouble, heq]
  have hmask : ∀ i, (bitmaskFirstByte.getD (start % 8) 0 &&&
      bitmaskLastByte.getD ((len + len) % 8) 0).getLsbD (i % 8) = true ↔
        start % 8 ≤ i % 8 ∧ i % 8 < (len + len) % 8 := by
    intro i
    rw [BitVec.getLsbD_and, Bool.and_eq_true, getLsbD_bitmaskFirstByte, getLsbD_bitmaskLastByte]
  have hiff : SetsRange s start len value (setRange s start len value) ↔
      ∀ i, s'.bit i = if start ≤ i ∧ i < start + len then value else s.bit i := by
    rw [hrun]
    constructor
    · rintro ⟨t, ht, -, hbits⟩
      rwa [← some.inj ht] at hbits
    · exact fun h => ⟨s', rfl, hsize, h⟩
  rw [hiff, EndsInBitmap, if_pos hbyte]
  simp only [hbits, hmask, ite_eq_ite_iff]
  constructor
  · intro h j hj hfrom hmin hmax
    have hdiv : (8 * (start / 8) + j) / 8 = start / 8 := by omega
    have hmod : (8 * (start / 8) + j) % 8 = j := by omega
    rcases h (8 * (start / 8) + j) with hsame | hbit
    · rw [hdiv, hmod] at hsame
      omega
    · exact hbit
  · intro h i
    by_cases hsame : (i / 8 = start / 8 ∧ start % 8 ≤ i % 8 ∧ i % 8 < (len + len) % 8) ↔
        (start ≤ i ∧ i < start + len)
    · exact .inl hsame
    · right
      have hdiv : i / 8 = start / 8 := by omega
      have hi : 8 * (start / 8) + i % 8 = i := by omega
      have hbit := h (i % 8) (Nat.mod_lt i (by decide)) (by omega) (by omega) (by omega)
      rwa [hi] at hbit

theorem setRange_bytes (hstart : start < s.mSize) (hlen : start + len ≤ s.mSize) (hpos : len ≠ 0)
    (hbyte : start / 8 ≠ (start + len) / 8) :
    SetsRange s start len value (setRange s start len value) ↔ EndsInBitmap s start len value := by
  have hsum : sum start len = start + len := sum_eq hlen
  obtain ⟨s₁, heq₁, hsize₁, hbits₁⟩ := setMasked_spec value
    (bitmaskFirstByte.getD (start % 8) 0) (div_lt_sizeInBytes hstart)
  have hbytes₁ : s₁.sizeInBytes = s.sizeInBytes := by simp only [sizeInBytes, hsize₁]
  rw [EndsInBitmap, if_neg hbyte]
  have hrun : setRange s start len value =
      (setMasked value false s₁ ((start + len) / 8) (bitmaskLastByte.getD ((start + len) % 8) 0)).bind
        fun s => if start / 8 + 1 < (start + len) / 8 then
          memset value s (start / 8 + 1) ((start + len) / 8) else some s := by
    rw [setRange, setRangeVerifying, if_neg (not_not_intro hstart), hsum,
      if_neg (not_not_intro hlen), if_neg hpos, if_neg hbyte, heq₁]
    rfl
  rw [hrun]
  constructor
  · rintro ⟨s', hs', -⟩
    by_contra hout
    rw [setMasked_none (by rw [hbytes₁]; exact Nat.le_of_not_lt hout)] at hs'
    cases hs'
  · intro hin
    obtain ⟨s₂, heq₂, hsize₂, hbits₂⟩ := setMasked_spec value (s := s₁)
      (bitmaskLastByte.getD ((start + len) % 8) 0) (hbytes₁.symm ▸ hin)
    have hbits : ∀ i, s₂.bit i =
        if start ≤ i ∧ i < start + len ∧ (i / 8 = start / 8 ∨ i / 8 = (start + len) / 8) then value
        else s.bit i := by
      intro i
      simp only [hbits₂, hbits₁, getLsbD_bitmaskFirstByte, getLsbD_bitmaskLastByte]
      by_cases hlast : i / 8 = (start + len) / 8 ∧ i % 8 < (start + len) % 8
      · rw [if_pos hlast, if_pos (by omega)]
      · rw [if_neg hlast, ite_eq_ite_iff]
        left
        omega
    rw [heq₂, bind_some]
    by_cases hmiddle : start / 8 + 1 < (start + len) / 8
    · have hbytes₂ : s₂.sizeInBytes = s.sizeInBytes := by simp only [sizeInBytes, hsize₂, hsize₁]
      obtain ⟨s₃, heq₃, hsize₃, hbits₃⟩ := memset_spec value (s := s₂)
        (start / 8 + 1) (hbytes₂.symm ▸ Nat.le_of_lt hin)
      refine ⟨s₃, by rw [if_pos hmiddle, heq₃], by rw [hsize₃, hsize₂, hsize₁], fun i => ?_⟩
      rw [hbits₃, hbits]
      by_cases hi : start / 8 + 1 ≤ i / 8 ∧ i / 8 < (start + len) / 8
      · rw [if_pos hi, if_pos (by omega)]
      · rw [if_neg hi, ite_eq_ite_iff]
        left
        omega
    · refine ⟨s₂, if_neg hmiddle, by rw [hsize₂, hsize₁], fun i => ?_⟩
      rw [hbits, ite_eq_ite_iff]
      left
      omega

/-- A range inside of a bitmap is set exactly when it is without bits or ends as the masks take it
to. -/
theorem setRange_sets_iff (hstart : start < s.mSize) (hlen : start + len ≤ s.mSize) :
    SetsRange s start len value (setRange s start len value) ↔
      len = 0 ∨ EndsInBitmap s start len value := by
  by_cases hpos : len = 0
  · subst hpos
    have hrun : setRange s start 0 value = some s := by
      rw [setRange, setRangeVerifying, if_neg (not_not_intro hstart), sum_eq hlen,
        if_neg (not_not_intro hlen), if_pos rfl]
    rw [hrun]
    exact iff_of_true ⟨s, rfl, rfl, fun i => (if_neg (by omega)).symm⟩ (.inl rfl)
  · rw [or_iff_right hpos]
    by_cases hbyte : start / 8 = (start + len) / 8
    · exact setRange_oneByte hstart hlen hpos hbyte
    · exact setRange_bytes hstart hlen hpos hbyte

/-- Twelve bits without a value. -/
def twelve : BitmapView := ⟨[0, 0], 12, rfl, by decide⟩

theorem setRange_sets_iff_twelve : SetsRange twelve 3 7 true (setRange twelve 3 7 true) ↔
      7 = 0 ∨ EndsInBitmap twelve 3 7 true :=
  setRange_sets_iff (by decide) (by decide)

/-- One bit is to be set, and the mask for it is empty. -/
theorem not_setRange_sets :
    ¬ ∀ (s : BitmapView) (value : Bool) (start len : Nat), start < s.mSize → start + len ≤ s.mSize →
      SetsRange s start len value (setRange s start len value) := by
  intro h
  have hiff := (setRange_sets_iff (by decide)
    (by decide)).mp (h twelve true 2 1 (by decide) (by decide))
  exact absurd hiff (by decide)

end Bitmap

end Literate.AK

import Literate.AK.MemMemSearch

/-!
# AK: substring search

`bitap_bitwise` and `memmem_optional` of `AK/MemMem.h`.  Bit `k` of the word that
`bitap_bitwise` carries through the haystack is clear when the first `k` bytes of the
needle end here.  `none` is a failed assertion, or a failure of `memmem`.
-/

namespace Literate.AK

open Foundation List

namespace MemMem

/-- The loop of `bitap_bitwise` that clears bit `i` in the mask of the needle's byte `i`. -/
def needleMaskLoop : List UInt8 → Nat → (UInt8 → BitVec 32) → UInt8 → BitVec 32
  | [], _, needleMask => needleMask
  | symbol :: needle, i, needleMask =>
    needleMaskLoop needle (i + 1)
      (Function.update needleMask symbol (needleMask symbol &&& ~~~ (1#32 <<< i)))

/-- `needle_mask`, once it is filled in. -/
def needleMask (needle : List UInt8) : UInt8 → BitVec 32 :=
  needleMaskLoop needle 0 fun _ => 0xFFFFFFFF#32

/-- `lookup |= needle_mask[symbol]; lookup <<= 1`. -/
def lookupStep (needle : List UInt8) (lookup : BitVec 32) (symbol : UInt8) : BitVec 32 :=
  (lookup ||| needleMask needle symbol) <<< 1

/-- The loop of `bitap_bitwise` over the haystack, from its byte `i` on. -/
def bitapLoop (needle : List UInt8) : List UInt8 → Nat → BitVec 32 → Option Nat
  | [], _, _ => none
  | symbol :: haystack, i, lookup =>
    let lookup := lookupStep needle lookup symbol
    if lookup &&& (1#32 <<< needle.length) = 0#32 then some (i + 1 - needle.length)
    else bitapLoop needle haystack (i + 1) lookup

/-- `bitap_bitwise`; the pointer that it returns is the offset into the haystack. -/
def bitapBitwise (haystack needle : List UInt8) : Option (Option Nat) :=
  if needle.length < 32 then some (bitapLoop needle haystack 0 0xFFFFFFFE#32) else none

end MemMem

open MemMem in
def memmemOptional (haystack needle : List UInt8) : Option (Option Nat) :=
  if needle.length = 0 then some (some 0)
  else if haystack.length < needle.length then some none
  else if haystack.length = needle.length then
    if haystack = needle then some (some 0) else some none
  else if needle.length < 32 then bitapBitwise haystack needle
  else memmem [haystack] needle

namespace MemMem

variable {needle haystack : List UInt8}

/-! ## The masks -/

/-- Bit `k` of a mask is clear at the places of its byte in the needle. -/
theorem getLsbD_needleMaskLoop (i k : Nat) (hk : k < 32) (mask : UInt8 → BitVec 32)
    (symbol : UInt8) : (needleMaskLoop needle i mask symbol).getLsbD k = false ↔
      (mask symbol).getLsbD k = false ∨ (i ≤ k ∧ needle[k - i]? = some symbol) := by
  induction needle generalizing i mask with
  | nil => simp [needleMaskLoop]
  | cons first needle ih =>
    have hupdate : (Function.update mask first (mask first &&& ~~~ (1#32 <<< i)) symbol).getLsbD k
        = false ↔ (mask symbol).getLsbD k = false ∨ (k = i ∧ first = symbol) := by
      by_cases heq : symbol = first
      · subst heq
        rw [Function.update_self, BitVec.getLsbD_and, BitVec.getLsbD_not,
          BitVec.getLsbD_shiftLeft, BitVec.getLsbD_one]
        simp only [hk, decide_true, Bool.true_and, Bool.and_eq_false_iff]
        by_cases hki : k = i
        · subst hki
          simp
        · by_cases hlt : k < i
          · simp [hki, hlt]
          · have hne : k - i ≠ 0 := by omega
            simp [hki, hne]
      · rw [Function.update_of_ne heq]
        have hne : first ≠ symbol := fun h => heq h.symm
        simp [hne]
    rw [needleMaskLoop, ih, hupdate]
    by_cases hki : k = i
    · subst hki
      have hnle : ¬ k + 1 ≤ k := by omega
      simp [hnle]
    · by_cases hlt : i < k
      · have hindex : k - i = (k - (i + 1)) + 1 := by omega
        have hle : i ≤ k := by omega
        have hle' : i + 1 ≤ k := hlt
        rw [hindex, List.getElem?_cons_succ]
        simp [hki, hle, hle']
      · have hnle : ¬ i ≤ k := by omega
        have hnle' : ¬ i + 1 ≤ k := by omega
        simp [hki, hnle, hnle']

theorem getLsbD_needleMask {k : Nat} (hk : k < 32) (symbol : UInt8) :
    (needleMask needle symbol).getLsbD k = false ↔ needle[k]? = some symbol := by
  have hones : (0xFFFFFFFF#32).getLsbD k = true := by
    have hall : 0xFFFFFFFF#32 = BitVec.allOnes 32 := rfl
    rw [hall, BitVec.getLsbD_allOnes, decide_eq_true hk]
  rw [needleMask, getLsbD_needleMaskLoop 0 k hk, hones]
  simp

/-! ## The search -/

/-- The clear bits of the word are the prefixes of the needle that end at `i`. -/
def Tracks (needle haystack : List UInt8) (i : Nat) (lookup : BitVec 32) : Prop :=
  ∀ k < 32, lookup.getLsbD k = false ↔ Ends (needle[·]?) (haystack[·]?) i k

theorem tracks_start : Tracks needle haystack 0 0xFFFFFFFE#32 := by
  intro k hk
  have hall : 0xFFFFFFFE#32 = BitVec.allOnes 32 <<< 1 := rfl
  rw [ends_start, hall, BitVec.getLsbD_shiftLeft, BitVec.getLsbD_allOnes, decide_eq_true hk]
  cases k with
  | zero => simp
  | succ k =>
    have hk' : k < 32 := by omega
    simp [hk']

/-- Each byte of the haystack extends the prefixes that it continues. -/
theorem Tracks.step {i : Nat} {lookup : BitVec 32} {symbol : UInt8}
    (h : Tracks needle haystack i lookup) (hsymbol : haystack[i]? = some symbol) :
    Tracks needle haystack (i + 1) (lookupStep needle lookup symbol) := by
  intro k hk
  rw [lookupStep, BitVec.getLsbD_shiftLeft, decide_eq_true hk, Bool.true_and]
  cases k with
  | zero => simp [ends_zero]
  | succ k =>
    have hk' : k < 32 := by omega
    rw [Nat.add_sub_cancel, BitVec.getLsbD_or, ends_succ, ← h k hk', hsymbol,
      eq_comm (a := some symbol), ← getLsbD_needleMask hk' symbol]
    simp

theorem and_twoPow_eq_zero {x : BitVec 32} {n : Nat} (hn : n < 32) :
    x &&& (1#32 <<< n) = 0#32 ↔ x.getLsbD n = false := by
  rw [← BitVec.twoPow_eq, BitVec.and_twoPow]
  cases x.getLsbD n with
  | false => simp
  | true =>
    have hset : (BitVec.twoPow 32 n).getLsbD n = true := by
      rw [BitVec.getLsbD_twoPow]
      simp [hn]
    have hne : BitVec.twoPow 32 n ≠ 0#32 := by
      intro hzero
      rw [hzero, BitVec.getLsbD_zero] at hset
      cases hset
    simpa using hne

/-- Before byte `i` the needle has not ended, and the word knows which of its prefixes end
there. -/
theorem bitapLoop_spec (hne : needle ≠ []) (hshort : needle.length < 32) {rest : List UInt8}
    {i : Nat} {lookup : BitVec 32} (hrest : haystack.drop i = rest)
    (h : Tracks needle haystack i lookup)
    (hbefore : ∀ r ≤ i, ¬ Ends (needle[·]?) (haystack[·]?) r needle.length) :
    FirstOccurrence needle haystack (bitapLoop needle rest i lookup) := by
  induction rest generalizing i lookup with
  | nil =>
    rw [bitapLoop]
    have hend := drop_eq_nil_iff.mp hrest
    exact firstOccurrence_of_not_ends hne fun r hr => hbefore r (by omega)
  | cons symbol rest ih =>
    have hsymbol : haystack[i]? = some symbol := by rw [← List.head?_drop, hrest, List.head?_cons]
    have hstep := h.step hsymbol
    have hdrop : haystack.drop (i + 1) = rest := by rw [← drop_drop, hrest, drop_one, tail_cons]
    have hclear := hstep needle.length hshort
    rw [← and_twoPow_eq_zero hshort] at hclear
    rw [bitapLoop]
    by_cases hzero : lookupStep needle lookup symbol &&& (1#32 <<< needle.length) = 0#32
    · rw [if_pos hzero]
      exact firstOccurrence_of_ends (hclear.mp hzero) fun r hr =>
        hbefore r (Nat.le_of_lt_succ hr)
    · rw [if_neg hzero]
      refine ih hdrop hstep fun r hr => ?_
      cases Nat.lt_or_eq_of_le hr with
      | inl hlt => exact hbefore r (Nat.le_of_lt_succ hlt)
      | inr heq =>
        rw [heq]
        exact fun hends => hzero (hclear.mpr hends)

/-- `bitap_bitwise` finds the first occurrence of a needle of fewer than 32 bytes. -/
theorem bitapBitwise_spec (hne : needle ≠ []) (hshort : needle.length < 32)
    (haystack : List UInt8) : ∃ found, bitapBitwise haystack needle = some found ∧
      FirstOccurrence needle haystack found := by
  refine ⟨_, if_pos hshort, ?_⟩
  refine bitapLoop_spec hne hshort drop_zero tracks_start fun r hr hends => ?_
  have hpos := length_pos_of_ne_nil hne
  have hle := hends.1
  omega

end MemMem

open MemMem in
/-- `memmem_optional` finds the first occurrence, or fails on a needle that is too long. -/
theorem memmemOptional_orOverflow (haystack needle : List UInt8) :
    OrOverflow needle (memmemOptional haystack needle) (FirstOccurrence needle haystack) := by
  rw [memmemOptional]
  by_cases hnil : needle.length = 0
  · rw [if_pos hnil, length_eq_zero_iff.mp hnil]
    exact orOverflow_some (firstOccurrence_nil haystack)
  have hne : needle ≠ [] := fun h => hnil (by rw [h, length_nil])
  rw [if_neg hnil]
  by_cases hlt : haystack.length < needle.length
  · rw [if_pos hlt]
    exact orOverflow_some (firstOccurrence_of_length_lt hlt)
  rw [if_neg hlt]
  by_cases heq : haystack.length = needle.length
  · rw [if_pos heq, ← apply_ite some]
    exact orOverflow_some (firstOccurrence_of_length_eq heq)
  rw [if_neg heq]
  by_cases hshort : needle.length < 32
  · rw [if_pos hshort]
    exact .inr (bitapBitwise_spec hne hshort haystack)
  · have hmemmem := memmem_orOverflow hne [haystack]
    rw [flatten_singleton] at hmemmem
    rw [if_neg hshort]
    exact hmemmem

open MemMem in
/-- What is found is short enough for the indices, or the whole haystack. -/
theorem memmemOptional_found {haystack needle : List UInt8} {index : Nat}
    (h : memmemOptional haystack needle = some (some index)) :
    (needle.length : Int) ≤ intMax ∨ haystack.length = needle.length := by
  by_cases heq : haystack.length = needle.length
  · exact .inr heq
  by_cases hshort : needle.length < 32
  · rw [intMax]
    omega
  rw [memmemOptional, if_neg (by omega)] at h
  by_cases hlt : haystack.length < needle.length
  · rw [if_pos hlt] at h
    cases h
  · rw [if_neg hlt, if_neg heq, if_neg hshort] at h
    exact .inl (fits_of_memmem_found h)

open MemMem in
/-- A needle that is too long is not found where a longer haystack begins with it. -/
theorem memmemOptional_overflow {needle rest : List UInt8} (hlong : intMax < needle.length)
    (hrest : rest ≠ []) : memmemOptional (needle ++ rest) needle = none := by
  have hpos := length_pos_of_ne_nil hrest
  have hshort : ¬ needle.length < 32 := by
    rw [intMax] at hlong
    omega
  rw [memmemOptional, length_append, if_neg (by omega), if_neg (by omega), if_neg (by omega),
    if_neg hshort]
  exact memmem_overflow hlong rest

/-- `memmem_optional` finds the first occurrence, and so does each of its two algorithms on
the needles that it takes. -/
theorem memmemOptional_first (haystack needle : List UInt8) (hfits : needle.length < 2 ^ 31) :
    ∃ found, memmemOptional haystack needle = some found ∧
      FirstOccurrence needle haystack found ∧
      (needle ≠ [] → needle.length < 32 → MemMem.bitapBitwise haystack needle = some found) ∧
      (needle ≠ [] → memmem [haystack] needle = some found) := by
  have hint : (needle.length : Int) ≤ MemMem.intMax := by
    rw [MemMem.intMax]
    omega
  obtain ⟨found, hfound, hfirst⟩ := (memmemOptional_orOverflow haystack needle).of_fits hint
  refine ⟨found, hfound, hfirst, fun hne hshort => ?_, fun hne => ?_⟩
  · obtain ⟨found', hbitap, hfirst'⟩ := MemMem.bitapBitwise_spec hne hshort haystack
    rw [hbitap, hfirst.unique hfirst']
  · obtain ⟨found', hkmp, hfirst'⟩ := memmem_spec hne hint [haystack]
    rw [flatten_singleton] at hfirst'
    rw [hkmp, hfirst.unique hfirst']

theorem memmemOptional_first_sample : ∃ found, memmemOptional [1, 1, 2, 1] [1, 2] = some found ∧
      FirstOccurrence [1, 2] ([1, 1, 2, 1] : List UInt8) found ∧
      (([1, 2] : List UInt8) ≠ [] → ([1, 2] : List UInt8).length < 32 →
        MemMem.bitapBitwise [1, 1, 2, 1] [1, 2] = some found) ∧
      (([1, 2] : List UInt8) ≠ [] → memmem [[1, 1, 2, 1]] [1, 2] = some found) :=
  memmemOptional_first [1, 1, 2, 1] [1, 2] (by decide)

end Literate.AK

import Literate.Foundation.Borders
import Literate.AK.DuplexRun

/-!
# AK: the search over chunks finds the first occurrence

The table of `prepare_kmp_partial_table` holds the fallbacks of the needle, and the search
keeps its place in the needle aligned with the part of the haystack it has passed.  The
indices of type `int` reach every needle of fewer than 2^31 bytes and no longer one.
-/

namespace Literate.AK

open Foundation List Option

namespace MemMem

/-! ## Indices -/

theorem at?_eq {β : Type} {span : List β} {index : Int} (h : 0 ≤ index) :
    at? span index = span[index.toNat]? := if_pos h

theorem increment_eq {index : Int} (h : index < intMax) : increment index = some (index + 1) :=
  if_pos h

theorem getElem?_ne_iff {needle : List UInt8} {i j : Nat} (hi : i < needle.length)
    (hj : j < needle.length) : needle[i] = needle[j] ↔ needle[i]? = needle[j]? := by
  rw [List.getElem?_eq_getElem hi, List.getElem?_eq_getElem hj, some.injEq]

/-! ## Needles and integers -/

/-- A result that is as it should be, or a failure, which only a needle meets that is longer
than the indices reach. -/
def OrOverflow {β : Type} (needle : List UInt8) (result : Option β) (P : β → Prop) : Prop :=
  (result = none ∧ intMax < needle.length) ∨ ∃ value, result = some value ∧ P value

variable {β γ : Type} {needle : List UInt8} {result : Option β} {P : β → Prop}

theorem orOverflow_some {value : β} (h : P value) : OrOverflow needle (some value) P :=
  .inr ⟨value, rfl, h⟩

section

variable (h : OrOverflow needle result P)

include h

theorem OrOverflow.bind {f : β → Option γ} {Q : γ → Prop}
    (hf : ∀ value, P value → OrOverflow needle (f value) Q) :
    OrOverflow needle (result.bind f) Q := by
  rcases h with ⟨rfl, hlong⟩ | ⟨value, rfl, hvalue⟩
  · exact .inl ⟨rfl, hlong⟩
  · exact hf value hvalue

theorem OrOverflow.map {f : β → γ} {Q : γ → Prop}
    (hf : ∀ value, P value → Q (f value)) : OrOverflow needle (result.map f) Q := by
  rcases h with ⟨rfl, hlong⟩ | ⟨value, rfl, hvalue⟩
  · exact .inl ⟨rfl, hlong⟩
  · exact orOverflow_some (hf value hvalue)

theorem OrOverflow.of_fits
    (hfits : (needle.length : Int) ≤ intMax) : ∃ value, result = some value ∧ P value := by
  rcases h with ⟨-, hlong⟩ | h
  · omega
  · exact h

end

/-- An index into the needle can be incremented unless the needle is too long. -/
theorem increment_orOverflow {index : Int} (h : index < needle.length) :
    OrOverflow needle (increment index) (· = index + 1) := by
  by_cases hlt : index < intMax
  · exact .inr ⟨_, increment_eq hlt, rfl⟩
  · exact .inl ⟨if_neg hlt, by omega⟩

/-! ## The table -/

/-- The entries before `position` are the fallbacks of the needle. -/
structure TableUpTo (needle : List UInt8) (table : List Int) (position : Nat) : Prop where
  length : table.length = needle.length
  fallback : ∀ i < position, ∃ target, table[i]? = some target ∧ Fallback (needle[·]?) i target

variable {table : List Int} {position : Nat}

section

variable (h : TableUpTo needle table position)

include h

theorem TableUpTo.set (hlt : position < needle.length)
    {target : Int} (ht : Fallback (needle[·]?) position target) :
    TableUpTo needle (table.set position target) (position + 1) where
  length := by rw [length_set, h.length]
  fallback i hi := by
    cases Nat.lt_succ_iff_lt_or_eq.mp hi with
    | inl hbefore =>
      rw [List.getElem?_set_ne (Nat.ne_of_gt hbefore)]
      exact h.fallback i hbefore
    | inr heq =>
      subst heq
      exact ⟨target, List.getElem?_set_self (h.length ▸ hlt), ht⟩

/-- The inner loop ends at the border that the next symbol continues. -/
theorem fallBack_spec (hlt : position < needle.length)
    (fuel : Nat) : ∀ {candidate : Int}, Failing (needle[·]?) position candidate →
      candidate < fuel →
      ∃ c, fallBack needle table position fuel candidate = some c ∧
        Extends (needle[·]?) position c := by
  induction fuel with
  | zero =>
    intro candidate hfailing hfuel
    have := hfailing.ge
    omega
  | succ fuel ih =>
    intro candidate hfailing hfuel
    have hbefore := hfailing.border.1
    obtain ⟨target, htable, ht⟩ := h.fallback _ hbefore
    have hdown := ht.lt
    have hge := hfailing.ge
    simp only [fallBack, at?_eq hge, htable, bind_eq_bind, bind_some]
    by_cases h0 : 0 ≤ target
    · have hthere : target.toNat < needle.length := by omega
      simp only [if_pos h0, at?_eq h0, List.getElem?_eq_getElem hthere,
        List.getElem?_eq_getElem hlt, bind_some]
      by_cases heq : needle[target.toNat] = needle[position]
      · rw [if_neg (not_not.mpr heq)]
        exact ⟨target, rfl, hfailing.extends_of_eq ht h0
          ((getElem?_ne_iff hthere hlt).mp heq)⟩
      · rw [if_pos heq]
        refine ih (hfailing.failing ht h0 fun hsame => heq ?_) (by omega)
        exact (getElem?_ne_iff hthere hlt).mpr hsame
    · rw [if_neg h0]
      exact ⟨target, rfl, hfailing.extends_of_neg ht (Int.not_le.mp h0)⟩

theorem tableStep_spec (hlt : position < needle.length)
    {candidate : Int} (hlongest : Longest (needle[·]?) position candidate) :
    OrOverflow needle (tableStep needle table position candidate) fun result =>
      TableUpTo needle result.1 (position + 1) ∧
        Longest (needle[·]?) (position + 1) result.2 := by
  have hge := hlongest.ge
  have hbefore := hlongest.border.1
  have hthere : candidate.toNat < needle.length := by omega
  simp only [tableStep, at?_eq hge, List.getElem?_eq_getElem hlt, List.getElem?_eq_getElem hthere,
    bind_eq_bind, bind_some]
  by_cases heq : needle[position] = needle[candidate.toNat]
  · have hsame := ((getElem?_ne_iff hlt hthere).mp heq).symm
    obtain ⟨entry, htable, ht⟩ := h.fallback _ hbefore
    rw [if_pos heq, htable, bind_some]
    refine (increment_orOverflow (by omega)).bind ?_
    rintro _ rfl
    exact orOverflow_some
      ⟨h.set hlt (hlongest.fallback_of_eq hsame ht), (hlongest.extends hsame).longest_succ⟩
  · have hdiffer : needle[candidate.toNat]? ≠ needle[position]? :=
      fun hsame => heq ((getElem?_ne_iff hlt hthere).mpr hsame.symm)
    have hset := h.set hlt (hlongest.fallback hdiffer)
    have hbefore' : TableUpTo needle (table.set position candidate) position :=
      ⟨hset.length, fun i hi => hset.fallback i (Nat.lt_succ_of_lt hi)⟩
    obtain ⟨c, hfall, hextends⟩ := fallBack_spec hbefore' hlt (needle.length + 1)
      (hlongest.failing hdiffer) (by omega)
    have hsucc := hextends.longest_succ
    have hsmall := hsucc.lt
    rw [if_neg heq, hfall, bind_some]
    refine (increment_orOverflow (by omega)).bind ?_
    rintro _ rfl
    exact orOverflow_some ⟨hset, hsucc⟩

end

theorem tableLoop_spec (remaining : Nat) :
    ∀ {table : List Int} {position : Nat} {candidate : Int}, TableUpTo needle table position →
      Longest (needle[·]?) position candidate → position + remaining = needle.length →
      OrOverflow needle (tableLoop needle remaining table position candidate) fun table' =>
        TableUpTo needle table' needle.length := by
  induction remaining with
  | zero =>
    intro table position candidate h _ hend
    exact orOverflow_some (hend ▸ h)
  | succ remaining ih =>
    intro table position candidate h hlongest hend
    refine (tableStep_spec h (by omega) hlongest).bind ?_
    rintro ⟨table₁, candidate₁⟩ ⟨h₁, hlongest₁⟩
    exact ih h₁ hlongest₁ (by omega)

theorem prepareKmpPartialTable_spec (hne : needle ≠ []) :
    OrOverflow needle (prepareKmpPartialTable needle) fun table =>
      TableUpTo needle table needle.length := by
  have hpos := length_pos_of_ne_nil hne
  have hempty : TableUpTo needle (List.replicate needle.length 0) 0 :=
    ⟨length_replicate, fun i hi => absurd hi (Nat.not_lt_zero i)⟩
  rw [prepareKmpPartialTable, if_pos hpos]
  exact tableLoop_spec _ (hempty.set hpos fallback_zero) longest_one (by omega)

/-! ## The search -/

/-- What the search has not passed yet. -/
def Search.rest (s : Search) : List UInt8 :=
  match s.haystack with
  | [] => []
  | chunk :: chunks => chunk.drop s.currentHaystackIndex ++ chunks.flatten

theorem Search.rest_cons {s : Search} {chunk : List UInt8} {chunks : List (List UInt8)}
    (h : s.haystack = chunk :: chunks) (hlt : s.currentHaystackIndex < chunk.length) :
    s.rest = chunk[s.currentHaystackIndex] ::
      (chunk.drop (s.currentHaystackIndex + 1) ++ chunks.flatten) := by
  rw [Search.rest, h]
  show chunk.drop s.currentHaystackIndex ++ chunks.flatten = _
  rw [drop_eq_getElem_cons hlt, List.cons_append]

/-- The search has passed a part of the text and is aligned with it. -/
structure Searching (needle text : List UInt8) (s : Search) : Prop where
  rest : text.drop s.totalHaystackIndex = s.rest
  total_le : s.totalHaystackIndex ≤ text.length
  current_le : ∀ chunk ∈ s.haystack.head?, s.currentHaystackIndex ≤ chunk.length
  index_ge : 0 ≤ s.needleIndex
  index_lt : s.needleIndex.toNat < needle.length
  aligned : Aligned (needle[·]?) (text[·]?) needle.length s.totalHaystackIndex s.needleIndex.toNat

/-- A pass lowers this: it bounds the passes that are left. -/
def Search.potential (s : Search) : Nat :=
  s.haystack.length + 2 * s.rest.length + s.needleIndex.toNat

/-- What a pass of the search keeps, and what it has found when it ends. -/
def Pass.Spec (needle text : List UInt8) (s : Search) : Pass → Prop
  | .again s' => Searching needle text s' ∧ s'.potential < s.potential
  | .found index => FirstOccurrence needle text (some index)

variable {text chunk : List UInt8} {chunks : List (List UInt8)} {s : Search}

section

variable (h : Searching needle text s)

include h

theorem Searching.skipChunk (hhaystack : s.haystack = chunk :: chunks)
    (hend : chunk.length ≤ s.currentHaystackIndex) :
    Searching needle text { s with currentHaystackIndex := 0, haystack := s.haystack.tail } ∧
      Search.potential { s with currentHaystackIndex := 0, haystack := s.haystack.tail } <
        s.potential := by
  have hrest : Search.rest { s with currentHaystackIndex := 0, haystack := s.haystack.tail } =
      s.rest := by
    simp only [Search.rest, hhaystack]
    cases chunks <;> simp [drop_of_length_le hend]
  refine ⟨⟨by rw [hrest, ← h.rest], h.total_le, fun _ _ => Nat.zero_le _, h.index_ge, h.index_lt,
    h.aligned⟩, ?_⟩
  rw [Search.potential, Search.potential, hrest, hhaystack]
  simp only [tail_cons, length_cons]
  omega

/-- The next symbol of the chunk is the next of the text. -/
theorem Searching.symbol (hhaystack : s.haystack = chunk :: chunks)
    (hlt : s.currentHaystackIndex < chunk.length) :
    text[s.totalHaystackIndex]? = some chunk[s.currentHaystackIndex] ∧
      s.totalHaystackIndex < text.length := by
  have hhead : text[s.totalHaystackIndex]? = some chunk[s.currentHaystackIndex] := by
    rw [← Nat.add_zero s.totalHaystackIndex, ← List.getElem?_drop, h.rest,
      Search.rest_cons hhaystack hlt]
    rfl
  exact ⟨hhead, (List.getElem?_eq_some_iff.mp hhead).1⟩

/-- Passing a symbol, with the place in the needle aligned after it. -/
theorem Searching.passSymbol
    (hhaystack : s.haystack = chunk :: chunks) (hlt : s.currentHaystackIndex < chunk.length)
    {index : Int} (hge : 0 ≤ index) (hindex : index.toNat < needle.length)
    (hsmall : index ≤ s.needleIndex + 1)
    (haligned : Aligned (needle[·]?) (text[·]?) needle.length (s.totalHaystackIndex + 1)
      index.toNat) :
    Pass.Spec needle text s (.again { s with
      needleIndex := index
      currentHaystackIndex := s.currentHaystackIndex + 1
      totalHaystackIndex := s.totalHaystackIndex + 1 }) := by
  have hrest : s.rest = chunk[s.currentHaystackIndex] :: Search.rest { s with
      needleIndex := index
      currentHaystackIndex := s.currentHaystackIndex + 1
      totalHaystackIndex := s.totalHaystackIndex + 1 } := by
    rw [Search.rest_cons hhaystack hlt, Search.rest, hhaystack]
  have hnext := h.index_ge
  refine ⟨⟨?_, (h.symbol hhaystack hlt).2, ?_, hge, hindex, haligned⟩, ?_⟩
  · rw [← drop_drop, h.rest, hrest]
    rfl
  · intro chunk' hchunk'
    simp only [hhaystack, List.head?_cons, mem_some_iff] at hchunk'
    exact hchunk' ▸ hlt
  · rw [Search.potential, Search.potential, hrest, length_cons]
    simp only
    omega

end

theorem searchStep_spec (htable : TableUpTo needle table needle.length)
    (h : Searching needle text s) (hhaystack : s.haystack = chunk :: chunks) :
    OrOverflow needle (searchStep needle table chunk s) fun pass => pass.Spec needle text s := by
  have hge := h.index_ge
  have hindex := h.index_lt
  by_cases hend : chunk.length ≤ s.currentHaystackIndex
  · rw [searchStep, if_pos hend]
    exact orOverflow_some (h.skipChunk hhaystack hend)
  have hlt := Nat.lt_of_not_le hend
  obtain ⟨hsymbol, htotal⟩ := h.symbol hhaystack hlt
  simp only [searchStep, if_neg hend, at?_eq hge, List.getElem?_eq_getElem hindex,
    List.getElem?_eq_getElem hlt, bind_eq_bind, bind_some]
  by_cases heq : needle[s.needleIndex.toNat] = chunk[s.currentHaystackIndex]
  · have hadvance := h.aligned.advance (w := (needle[·]?)) (t := (text[·]?)) (by
      rw [hsymbol, List.getElem?_eq_getElem hindex, heq])
    have hsucc : (s.needleIndex + 1).toNat = s.needleIndex.toNat + 1 := by omega
    rw [if_pos heq]
    refine (increment_orOverflow (by omega)).bind ?_
    rintro _ rfl
    by_cases hfull : s.needleIndex + 1 = needle.length
    · rw [if_pos hfull]
      refine orOverflow_some ?_
      rw [show s.needleIndex.toNat + 1 = needle.length by omega] at hadvance
      rw [Pass.Spec, show (s.needleIndex + 1).toNat = needle.length by omega]
      exact hadvance.found
    · rw [if_neg hfull]
      refine orOverflow_some
        (h.passSymbol hhaystack hlt (by omega) (by omega) (Int.le_refl _) ?_)
      rw [hsucc]
      exact hadvance
  · have hdiffer : needle[s.needleIndex.toNat]? ≠ text[s.totalHaystackIndex]? := by
      rw [hsymbol, List.getElem?_eq_getElem hindex]
      exact fun hsame => heq (some.inj hsame)
    obtain ⟨target, hentry, ht⟩ := htable.fallback _ hindex
    have hdown := ht.lt
    have htarget := ht.ge
    rw [if_neg heq, hentry, bind_some]
    by_cases hneg : target < 0
    · obtain rfl : target = -1 := by omega
      rw [if_pos hneg, increment_eq (by decide), bind_some]
      exact orOverflow_some (h.passSymbol hhaystack hlt (Int.le_refl 0)
        (Nat.zero_lt_of_lt hindex) (by omega) (h.aligned.skip hindex hdiffer ht hneg))
    · have h0 : 0 ≤ target := Int.not_lt.mp hneg
      rw [if_neg hneg]
      refine orOverflow_some ⟨⟨h.rest, h.total_le, h.current_le, h0, ?_,
        h.aligned.fall hindex hdiffer ht h0⟩, ?_⟩
      · simp only
        omega
      · simp only [Search.potential]
        simp only [Search.rest]
        omega

theorem searchLoop_spec (htable : TableUpTo needle table needle.length) (fuel : Nat) :
    ∀ {s : Search}, Searching needle text s → s.potential < fuel →
      OrOverflow needle (searchLoop needle table fuel s) (FirstOccurrence needle text) := by
  induction fuel with
  | zero => exact fun _ hfuel => absurd hfuel (Nat.not_lt_zero _)
  | succ fuel ih =>
    intro s h hfuel
    rw [searchLoop]
    cases hhaystack : s.haystack with
    | nil =>
      have hend : text.length = s.totalHaystackIndex := by
        have hrest := h.rest
        rw [Search.rest, hhaystack, drop_eq_nil_iff] at hrest
        exact Nat.le_antisymm hrest h.total_le
      have haligned := h.aligned
      rw [← hend] at haligned
      exact orOverflow_some (haligned.exhausted h.index_lt)
    | cons chunk chunks =>
      refine (searchStep_spec htable h hhaystack).bind fun pass hspec => ?_
      cases pass with
      | found index => exact orOverflow_some hspec
      | again s' => exact ih hspec.1 (by have := hspec.2; omega)

end MemMem

open MemMem

/-- The search finds the first occurrence, or fails on a needle that is too long. -/
theorem memmem_orOverflow {needle : List UInt8} (hne : needle ≠ []) (haystack : List (List UInt8)) :
    OrOverflow needle (memmem haystack needle) (FirstOccurrence needle haystack.flatten) := by
  refine (prepareKmpPartialTable_spec hne).bind fun table htable => ?_
  set s : Search :=
    { haystack := haystack, currentHaystackIndex := 0, totalHaystackIndex := 0, needleIndex := 0 }
  have hrest : s.rest = haystack.flatten := by
    rw [Search.rest]
    cases haystack <;> rfl
  have hsearching : Searching needle haystack.flatten s :=
    ⟨hrest.symm, Nat.zero_le _, fun _ _ => Nat.zero_le _, Int.le_refl _,
      length_pos_of_ne_nil hne, aligned_zero⟩
  have hpasses : s.potential < passes haystack := by
    rw [Search.potential, hrest, passes]
    exact Nat.lt_succ_self _
  exact searchLoop_spec htable _ hsearching hpasses

/-- The search finds the first occurrence of a needle whose length is an `int`. -/
theorem memmem_spec {needle : List UInt8} (hne : needle ≠ [])
    (hfits : (needle.length : Int) ≤ intMax) (haystack : List (List UInt8)) :
    ∃ found, memmem haystack needle = some found ∧
      FirstOccurrence needle haystack.flatten found :=
  (memmem_orOverflow hne haystack).of_fits hfits

/-! ## Needles that are too long -/

namespace MemMem

/-- Where the needle stands first the search runs into the largest `int`. -/
theorem searchLoop_overflow {needle : List UInt8} (hlong : intMax < needle.length)
    (rest : List UInt8) (table : List Int) (fuel : Nat) : ∀ {index : Nat}, (index : Int) ≤ intMax →
      searchLoop needle table fuel
        { haystack := [needle ++ rest], currentHaystackIndex := index, totalHaystackIndex := index,
          needleIndex := index } = none := by
  induction fuel with
  | zero => exact fun _ => rfl
  | succ fuel ih =>
    intro index hindex
    have hlt : index < needle.length := by omega
    have hge : (0 : Int) ≤ index := Int.natCast_nonneg index
    have hchunk : ¬ (needle ++ rest).length ≤ index := by
      rw [length_append]
      omega
    simp only [searchLoop, searchStep, if_neg hchunk, at?_eq hge, Int.toNat_natCast,
      List.getElem?_append_left hlt, List.getElem?_eq_getElem hlt, bind_eq_bind, bind_some,
      if_true, increment]
    by_cases hmore : (index : Int) < intMax
    · rw [if_pos hmore, bind_some, if_neg (by omega), bind_some]
      have hnext : ((index + 1 : Nat) : Int) ≤ intMax := by push_cast; omega
      exact ih hnext
    · rw [if_neg hmore]
      rfl

theorem increment_le {index next : Int} (h : increment index = some next) : next ≤ intMax := by
  rw [increment] at h
  by_cases hlt : index < intMax
  · rw [if_pos hlt, some.injEq] at h
    omega
  · rw [if_neg hlt] at h
    cases h

theorem fits_of_searchStep_found {needle : List UInt8} {table : List Int} {chunk : List UInt8}
    {s : Search} {index : Nat} (h : searchStep needle table chunk s = some (.found index)) :
    (needle.length : Int) ≤ intMax := by
  rw [searchStep] at h
  by_cases hend : chunk.length ≤ s.currentHaystackIndex
  · rw [if_pos hend] at h
    cases h
  · rw [if_neg hend] at h
    simp only [bind_eq_bind, bind_eq_some_iff] at h
    obtain ⟨symbol, -, there, -, h⟩ := h
    by_cases heq : symbol = there
    · rw [if_pos heq, bind_eq_some_iff] at h
      obtain ⟨next, hnext, h⟩ := h
      by_cases hfull : next = needle.length
      · exact hfull ▸ increment_le hnext
      · rw [if_neg hfull] at h
        cases h
    · rw [if_neg heq, bind_eq_some_iff] at h
      obtain ⟨next, -, h⟩ := h
      by_cases hneg : next < 0
      · rw [if_pos hneg, bind_eq_some_iff] at h
        obtain ⟨after, -, h⟩ := h
        cases h
      · rw [if_neg hneg] at h
        cases h

theorem fits_of_searchLoop_found {needle : List UInt8} {table : List Int} {fuel : Nat}
    {s : Search} {index : Nat} (h : searchLoop needle table fuel s = some (some index)) :
    (needle.length : Int) ≤ intMax := by
  induction fuel generalizing s with
  | zero => cases h
  | succ fuel ih =>
    rw [searchLoop] at h
    cases hhaystack : s.haystack with
    | nil =>
      rw [hhaystack] at h
      cases h
    | cons chunk chunks =>
      simp only [hhaystack, bind_eq_bind, bind_eq_some_iff] at h
      obtain ⟨pass, hstep, h⟩ := h
      cases pass with
      | found index' => exact fits_of_searchStep_found hstep
      | again s' => exact ih h

end MemMem

/-- Only a needle whose length is an `int` is ever found. -/
theorem fits_of_memmem_found {needle : List UInt8} {haystack : List (List UInt8)} {index : Nat}
    (h : memmem haystack needle = some (some index)) : (needle.length : Int) ≤ intMax := by
  simp only [memmem, bind_eq_bind, bind_eq_some_iff] at h
  obtain ⟨table, -, h⟩ := h
  exact fits_of_searchLoop_found h

/-- A longer needle is not found where the haystack begins with it. -/
theorem memmem_overflow {needle : List UInt8} (hlong : intMax < needle.length) (rest : List UInt8) :
    memmem [needle ++ rest] needle = none := by
  rw [memmem]
  cases prepareKmpPartialTable needle with
  | none => rfl
  | some table =>
    exact searchLoop_overflow hlong rest table _ (by decide : ((0 : Nat) : Int) ≤ intMax)

/-! ## The unread occurrence -/

namespace DuplexMemoryStream

theorem spanOf_eq {chunk : List UInt8} {start : Nat} (h : start ≤ chunk.length) :
    spanOf chunk start = some (chunk.drop start) := by
  by_cases hzero : start = 0
  · rw [spanOf, if_neg (not_not.mpr hzero), hzero, drop_zero]
  · rw [spanOf, if_pos hzero, slice_of_le h]

/-- The spans from an unread offset on are the bytes that are unread from there. -/
theorem WellFormed.spansLoop_spec {s : DuplexMemoryStream} (h : WellFormed s) (fuel : Nat) :
    ∀ {skip : Nat}, skip ≤ s.size → s.size - skip ≤ fuel →
      ∃ spans, spansLoop s.chunks fuel ((s.readOffset - s.baseOffset + skip) / chunkSize)
          ((s.readOffset - s.baseOffset + skip) % chunkSize) (s.size - skip) = some spans ∧
        spans.flatten = s.unread.drop skip := by
  induction fuel with
  | zero =>
    intro skip hskip hfuel
    have hdone : s.size - skip = 0 := by omega
    refine ⟨[], by rw [spansLoop, hdone, if_neg (Nat.lt_irrefl 0)], ?_⟩
    rw [drop_of_length_le (by rw [h.length_unread]; omega)]
    rfl
  | succ fuel ih =>
    intro skip hskip hfuel
    by_cases hlt : skip < s.size
    · obtain ⟨chunk, hchunk, -, hlength, htake⟩ := h.chunk_at hlt
      have hdiv := Nat.div_add_mod (s.readOffset - s.baseOffset + skip) chunkSize
      have hstart : (s.readOffset - s.baseOffset + skip) % chunkSize < chunkSize :=
        Nat.mod_lt _ (by decide)
      rw [spansLoop, if_pos (by omega)]
      set start := (s.readOffset - s.baseOffset + skip) % chunkSize
      have hspan := spanOf_eq (hlength.symm ▸ Nat.le_of_lt hstart)
      simp only [hchunk, hspan, bind_eq_bind, bind_some, length_drop, hlength]
      by_cases hlast : s.size - skip < chunkSize - start
      · rw [if_pos hlast, Span.sliceLength, if_pos (by simp [hlength]; omega)]
        refine ⟨_, rfl, ?_⟩
        rw [flatten_singleton, drop_zero, htake, take_of_length_le]
        rw [length_drop, h.length_unread]
        omega
      · have hindex : (s.readOffset - s.baseOffset + (skip + (chunkSize - start))) / chunkSize =
            (s.readOffset - s.baseOffset + skip) / chunkSize + 1 := by
          simp only [chunkSize] at *
          omega
        have hzero : (s.readOffset - s.baseOffset + (skip + (chunkSize - start))) % chunkSize =
            0 := by
          simp only [chunkSize] at *
          omega
        have hskip' : skip + (chunkSize - start) ≤ s.size := by omega
        obtain ⟨spans, hspans, hflatten⟩ := ih hskip' (by omega)
        rw [hindex, hzero, ← Nat.sub_sub] at hspans
        rw [if_neg hlast, hspans]
        refine ⟨_, rfl, ?_⟩
        have hchunk' : chunk.drop start = (s.unread.drop skip).take (chunkSize - start) := by
          rw [← htake, take_of_length_le]
          rw [length_drop, hlength]
          omega
        rw [flatten_cons, hflatten, hchunk', ← drop_drop, take_append_drop]
    · have hdone : s.size - skip = 0 := by omega
      refine ⟨[], by rw [spansLoop, hdone, if_neg (Nat.lt_irrefl 0)], ?_⟩
      rw [drop_of_length_le (by rw [h.length_unread]; omega)]
      rfl

theorem WellFormed.spans_spec {s : DuplexMemoryStream} (h : WellFormed s) :
    ∃ spans, s.spans = some spans ∧ spans.flatten = s.unread :=
  h.spansLoop_spec s.size (Nat.zero_le _) (Nat.sub_le _ _)

theorem WellFormed.offsetOf_spec {s : DuplexMemoryStream} (h : WellFormed s) {value : List UInt8}
    (hne : value ≠ []) (hfits : (value.length : Int) ≤ intMax) :
    ∃ found, offsetOf value s = some found ∧ FirstOccurrence value s.unread found := by
  obtain ⟨spans, hspans, hflatten⟩ := h.spans_spec
  obtain ⟨found, hmemmem, hfirst⟩ := memmem_spec hne hfits spans
  refine ⟨found, ?_, hflatten ▸ hfirst⟩
  simp only [offsetOf, hspans, bind_eq_bind, bind_some]
  exact hmemmem

end DuplexMemoryStream

/-- For a needle of fewer than 2^31 bytes the search over any chunks finds the first
occurrence, and so does `offset_of` among the unread bytes after any run of the stream. -/
theorem memmem_first (needle : List UInt8) (hne : needle ≠ []) (hfits : needle.length < 2 ^ 31) :
    (∀ haystack : List (List UInt8), ∃ found, memmem haystack needle = some found ∧
      FirstOccurrence needle haystack.flatten found) ∧
    ∀ (uninitialized : Nat → UInt8) (calls : List DuplexMemoryStream.Call) (answers)
      (s : DuplexMemoryStream),
      DuplexMemoryStream.performAll uninitialized .new calls = some (answers, s) →
      ∃ found, s.offsetOf needle = some found ∧ FirstOccurrence needle s.unread found := by
  have hint : (needle.length : Int) ≤ intMax := by
    rw [intMax]
    omega
  refine ⟨memmem_spec hne hint, fun uninitialized calls answers s hrun => ?_⟩
  obtain ⟨s', hrun', hrep⟩ :=
    DuplexMemoryStream.represents_new.performAll uninitialized calls
  obtain ⟨-, rfl⟩ := Prod.mk.inj (some.inj (hrun.symm.trans hrun'))
  exact hrep.wellFormed.offsetOf_spec hne hint

theorem memmem_first_sample : (∃ found, memmem [[1, 2, 1], [], [2, 3]] [1, 2, 3] = some found ∧
      FirstOccurrence [1, 2, 3] ([1, 2, 1, 2, 3] : List UInt8) found) ∧
    ∃ found, DuplexMemoryStream.new.offsetOf [1, 2, 3] = some found ∧
      FirstOccurrence [1, 2, 3] DuplexMemoryStream.new.unread found :=
  have h := memmem_first [1, 2, 3] (by decide) (by decide)
  ⟨h.1 [[1, 2, 1], [], [2, 3]], h.2 (fun _ => 0) [] [] .new rfl⟩

/-- A needle of 2^31 bytes is not found where it is the whole haystack. -/
theorem not_memmem_first_long : List.replicate (2 ^ 31) (0 : UInt8) ≠ [] ∧
    ¬ ∃ found, memmem [List.replicate (2 ^ 31) 0] (List.replicate (2 ^ 31) 0) = some found ∧
      FirstOccurrence (List.replicate (2 ^ 31) 0) [List.replicate (2 ^ 31) 0].flatten found := by
  refine ⟨?_, fun ⟨found, hfound, _⟩ => ?_⟩
  · rw [Ne, replicate_eq_nil_iff]
    decide
  · have hoverflow := @memmem_overflow (List.replicate (2 ^ 31) 0)
      (by rw [length_replicate]; decide) []
    rw [append_nil, hfound] at hoverflow
    cases hoverflow

end Literate.AK

import Literate.AK.MemMemOptional
import Literate.AK.StringView
import Literate.Foundation.Occurrences

/-!
# AK: replacing

`StringUtils::find_all` and `StringUtils::replace` of `AK/StringUtils.cpp`.  The positions that
`find_all` gives may overlap, and then the length of the part between two of them wraps and an
assertion of `substring_view` fails.  A `StringBuilder` is the characters that it holds.
-/

namespace Literate.AK

open Foundation List Option

namespace StringUtils

inductive ReplaceMode where
  | all
  | firstOnly
  deriving DecidableEq, Repr

/-- The loop of `find_all`; `none` is a failure of `memmem_optional`. -/
def findAllLoop (haystack needle : List UInt8) (currentPosition : Nat) : Option (List Nat) :=
  if currentPosition ≤ haystack.length then
    (memmemOptional (haystack.drop currentPosition) needle).bind fun maybePosition =>
      match maybePosition with
      | none => some []
      | some position =>
        (findAllLoop haystack needle (currentPosition + (position + 1))).map
          ((currentPosition + position) :: ·)
  else some []
termination_by haystack.length + 1 - currentPosition

def findAll (haystack needle : List UInt8) : Option (List Nat) := findAllLoop haystack needle 0

/-- The difference of two sizes, which wraps. -/
def sizeDifference (a b : Nat) : Nat := (a + 2 ^ 64 - b) % 2 ^ 64

/-- The loop of `replace` over the positions and what follows it. -/
def replaceLoop (str needle replacement : StringView) :
    (positions : List Nat) → (lastPosition : Nat) → (replacedString : List UInt8) →
      Option (List UInt8)
  | [], lastPosition, replacedString => do
      let part ← str.substringView lastPosition (sizeDifference str.length lastPosition)
      some (replacedString ++ part.bytes)
  | position :: positions, lastPosition, replacedString => do
      let part ← str.substringView lastPosition (sizeDifference position lastPosition)
      replaceLoop str needle replacement positions (position + needle.length)
        (replacedString ++ part.bytes ++ replacement.bytes)

/-- The positions that `replace` cuts the string at. -/
def replacePositions (str needle : List UInt8) : ReplaceMode → Option (List Nat)
  | .all => findAll str needle
  | .firstOnly => (memmemOptional str needle).map Option.toList

/-- `StringUtils::replace`; `none` is a failed assertion. -/
def replace (str needle replacement : StringView) (replaceMode : ReplaceMode) :
    Option (List UInt8) :=
  if str.isEmpty then some str.bytes
  else do
    let positions ← replacePositions str.bytes needle.bytes replaceMode
    if positions = [] then some str.bytes
    else replaceLoop str needle replacement positions 0 []

/-! ## The positions -/

open MemMem in
/-- `find_all` gives all occurrences, or fails on a needle that is too long. -/
theorem findAllLoop_orOverflow {needle : List UInt8} (hne : needle ≠ []) (haystack : List UInt8)
    (currentPosition : Nat) : OrOverflow needle (findAllLoop haystack needle currentPosition)
      (Occurrences needle haystack currentPosition) := by
  fun_induction findAllLoop haystack needle currentPosition with
  | case1 currentPosition hle ih =>
    refine (memmemOptional_orOverflow _ needle).bind fun found hfirst => ?_
    cases found with
    | none => exact orOverflow_some (occurrences_nil hfirst)
    | some position => exact (ih position).map fun places h => h.cons hfirst
  | case2 currentPosition hgt =>
    refine orOverflow_some (occurrences_nil (firstOccurrence_of_length_lt ?_))
    have hpos := length_pos_of_ne_nil hne
    rw [length_drop]
    omega

open MemMem in
/-- `find_all` fails when its first search does. -/
theorem findAll_eq_none_iff {haystack needle : List UInt8} (hne : needle ≠ []) :
    findAll haystack needle = none ↔ memmemOptional haystack needle = none := by
  rw [findAll, findAllLoop, if_pos (Nat.zero_le _), drop_zero]
  cases hfound : memmemOptional haystack needle with
  | none => exact iff_of_true rfl rfl
  | some found =>
    refine iff_of_false ?_ (some_ne_none found)
    cases found with
    | none => exact some_ne_none _
    | some position =>
      have hnext := findAllLoop_orOverflow hne haystack (0 + (position + 1))
      have hsome : ∃ places, findAllLoop haystack needle (0 + (position + 1)) = some places := by
        rcases memmemOptional_found hfound with hfits | hwhole
        · obtain ⟨places, hplaces, -⟩ := hnext.of_fits hfits
          exact ⟨places, hplaces⟩
        · have hpos := length_pos_of_ne_nil hne
          have hshorter : (haystack.drop (0 + (position + 1))).length < needle.length := by
            rw [length_drop]
            omega
          rw [findAllLoop, memmemOptional, if_neg hpos.ne', if_pos hshorter]
          by_cases hle : 0 + (position + 1) ≤ haystack.length
          · exact ⟨[], if_pos hle⟩
          · exact ⟨[], if_neg hle⟩
      obtain ⟨places, hplaces⟩ := hsome
      simp only [bind_some, hplaces, map_some]
      exact some_ne_none _

/-! ## Cutting -/

variable {str needle replacement : StringView} {positions : List Nat} {lastPosition : Nat}

theorem sizeDifference_eq {a b : Nat} (hb : b ≤ a) (ha : a < 2 ^ 64) :
    sizeDifference a b = a - b := by
  rw [sizeDifference]
  omega

/-- Where the positions allow it the loop replaces the occurrences from the left. -/
theorem replaceLoop_replaced (hne : needle.bytes ≠ []) (replacedString : List UInt8)
    (h : Occurrences needle.bytes str.bytes lastPosition positions)
    (hlast : lastPosition ≤ str.length) (hcuts : Cuts needle.length lastPosition positions) :
    ∃ result, replaceLoop str needle replacement positions lastPosition replacedString =
        some (replacedString ++ result) ∧
      Replaced needle.bytes replacement.bytes (str.bytes.drop lastPosition) result := by
  have hfits := str.fits
  induction positions generalizing lastPosition replacedString with
  | nil =>
    rw [StringView.length] at hlast
    have hsize : sizeDifference str.length lastPosition = str.bytes.length - lastPosition :=
      sizeDifference_eq hlast (by rw [StringView.length]; omega)
    have hpart : lastPosition + (str.bytes.length - lastPosition) ≤ str.length :=
      Nat.le_of_eq (Nat.add_sub_of_le hlast)
    refine ⟨str.bytes.drop lastPosition, ?_, .absent h.absent⟩
    simp only [replaceLoop, hsize, StringView.substringView_eq hpart, StringView.part,
      bind_eq_bind, bind_some]
    rw [take_of_length_le (by rw [length_drop])]
  | cons position positions ih =>
    obtain ⟨hle, hcuts⟩ := hcuts
    have hmatch := ((h.mem_iff position).mp mem_cons_self).2
    have hlength := hmatch.length_le
    have hpos := length_pos_of_ne_nil hne
    rw [length_drop] at hlength
    have hsize : sizeDifference position lastPosition = position - lastPosition :=
      sizeDifference_eq hle (by omega)
    have hpart : lastPosition + (position - lastPosition) ≤ str.length := by
      rw [StringView.length]
      omega
    have hend : position + needle.length ≤ str.length := by
      simp only [StringView.length]
      omega
    have hbehind : Occurrences needle.bytes str.bytes (position + needle.length) positions :=
      h.behind hne hcuts.le_of_mem
    obtain ⟨result, hloop, hresult⟩ := ih (replacedString ++ (str.bytes.drop lastPosition).take
      (position - lastPosition) ++ replacement.bytes) hbehind hend hcuts
    refine ⟨_, ?_, h.replaced_cons hne hresult⟩
    rw [replaceLoop, hsize, StringView.substringView_eq hpart]
    refine hloop.trans ?_
    simp only [List.append_assoc]

/-- Where they do not an assertion fails. -/
theorem replaceLoop_none (replacedString : List UInt8)
    (hpositions : ∀ i ∈ positions, i + needle.length ≤ str.length)
    (hlast : lastPosition ≤ str.length) (hcuts : ¬ Cuts needle.length lastPosition positions) :
    replaceLoop str needle replacement positions lastPosition replacedString = none := by
  have hfits := str.fits
  induction positions generalizing lastPosition replacedString with
  | nil => exact absurd trivial hcuts
  | cons position positions ih =>
    have hend := hpositions position mem_cons_self
    rw [replaceLoop]
    by_cases hle : lastPosition ≤ position
    · have hpart : lastPosition + sizeDifference position lastPosition ≤ str.length := by
        simp only [StringView.length] at *
        rw [sizeDifference_eq hle (by omega)]
        omega
      rw [StringView.substringView_eq hpart]
      exact ih _ (fun i hi => hpositions i (mem_cons_of_mem _ hi)) hend
        fun hlater => hcuts ⟨hle, hlater⟩
    · -- the length is a difference that has wrapped
      have hbeyond : str.length < lastPosition + sizeDifference position lastPosition := by
        simp only [StringView.length] at *
        rw [sizeDifference]
        omega
      rw [StringView.substringView, if_neg (StringView.not_substringAsserted hlast hbeyond)]
      rfl

/-! ## Replacing all occurrences -/

variable (str needle replacement)

/-- The string with the occurrences that do not overlap, from the left, replaced. -/
def ReplacesAll : Prop :=
  ∃ result, replace str needle replacement .all = some result ∧
    Replaced needle.bytes replacement.bytes str.bytes result

variable {str needle replacement}

theorem replace_all_eq (hstr : str.bytes ≠ []) : replace str needle replacement .all =
      (findAll str.bytes needle.bytes).bind fun positions =>
        if positions = [] then some str.bytes
        else replaceLoop str needle replacement positions 0 [] := by
  have hempty : str.isEmpty = false := decide_eq_false hstr
  rw [replace, hempty, if_neg Bool.false_ne_true]
  rfl

theorem firstOccurrence_none_of_empty (hne : needle.bytes ≠ []) (hstr : str.bytes = []) :
    FirstOccurrence needle.bytes str.bytes none := by
  refine firstOccurrence_of_length_lt ?_
  rw [hstr]
  exact length_pos_of_ne_nil hne

/-- An assertion fails where two occurrences overlap. -/
theorem replace_eq_none_of_overlap (hne : needle.bytes ≠ [])
    (h : ¬ Separate needle.bytes str.bytes) : replace str needle replacement .all = none := by
  have hstr : str.bytes ≠ [] := fun hempty =>
    h fun i _ hi _ _ => absurd hi (firstOccurrence_none_of_empty hne hempty i)
  rw [replace_all_eq hstr]
  rcases findAllLoop_orOverflow hne str.bytes 0 with ⟨hnone, -⟩ | ⟨places, hplaces, hall⟩
  · rw [findAll, hnone]
    rfl
  · have hcuts : ¬ Cuts needle.length 0 places := mt hall.cuts_iff.mp h
    have hsome : places ≠ [] := by
      rintro rfl
      exact hcuts trivial
    have hends : ∀ i ∈ places, i + needle.length ≤ str.length := by
      intro i hi
      have hlength := ((hall.mem_iff i).mp hi).2.length_le
      have hpos := length_pos_of_ne_nil hne
      rw [length_drop] at hlength
      simp only [StringView.length]
      omega
    rw [findAll, hplaces, bind_some, if_neg hsome]
    exact replaceLoop_none [] hends (Nat.zero_le _) hcuts

theorem replacesAll_of_separate (hne : needle.bytes ≠ [])
    (h : Separate needle.bytes str.bytes) (hfound : memmemOptional str.bytes needle.bytes ≠ none) :
    ReplacesAll str needle replacement := by
  by_cases hstr : str.bytes = []
  · have hempty : str.isEmpty = true := decide_eq_true hstr
    exact ⟨str.bytes, by rw [replace, if_pos hempty],
      .absent (firstOccurrence_none_of_empty hne hstr)⟩
  · rw [ReplacesAll, replace_all_eq hstr]
    rcases findAllLoop_orOverflow hne str.bytes 0 with ⟨hnone, -⟩ | ⟨places, hplaces, hall⟩
    · exact absurd ((findAll_eq_none_iff hne).mp hnone) hfound
    · rw [findAll, hplaces, bind_some]
      by_cases hsome : places = []
      · subst hsome
        exact ⟨str.bytes, if_pos rfl, .absent hall.absent⟩
      · rw [if_neg hsome]
        exact replaceLoop_replaced hne [] hall (Nat.zero_le _) (hall.cuts_iff.mpr h)

/-- `replace` replaces all occurrences exactly when no two of them overlap, and the search for
them does not fail, as it may on a needle of 2^31 bytes or more. -/
theorem replacesAll_iff (str needle replacement : StringView) (hneedle : needle.bytes ≠ []) :
    (ReplacesAll str needle replacement ↔
      Separate needle.bytes str.bytes ∧ memmemOptional str.bytes needle.bytes ≠ none) ∧
    (needle.length < 2 ^ 31 → memmemOptional str.bytes needle.bytes ≠ none) := by
  have hsearch : needle.length < 2 ^ 31 → memmemOptional str.bytes needle.bytes ≠ none := by
    intro hlength
    have hint : (needle.bytes.length : Int) ≤ MemMem.intMax := by
      rw [StringView.length] at hlength
      rw [MemMem.intMax]
      omega
    obtain ⟨found, hfound, -⟩ :=
      (memmemOptional_orOverflow str.bytes needle.bytes).of_fits hint
    rw [hfound]
    exact some_ne_none found
  refine ⟨⟨fun h => ?_, fun h => replacesAll_of_separate hneedle h.1 h.2⟩, hsearch⟩
  obtain ⟨result, hresult, -⟩ := h
  constructor
  · by_contra hoverlap
    rw [replace_eq_none_of_overlap hneedle hoverlap] at hresult
    cases hresult
  · intro hnone
    have hstr : str.bytes ≠ [] := by
      intro hempty
      have hpos := length_pos_of_ne_nil hneedle
      rw [hempty, memmemOptional, if_neg hpos.ne', length_nil, if_pos hpos] at hnone
      cases hnone
    rw [replace_all_eq hstr, (findAll_eq_none_iff hneedle).mpr hnone] at hresult
    cases hresult

theorem replacesAll_iff_sample :
    ReplacesAll ⟨1, [0x61, 0x62, 0x61], by decide, by decide⟩ ⟨1, [0x61], by decide, by decide⟩
        ⟨1, [0x63, 0x63], by decide, by decide⟩ ↔
      Separate [0x61] ([0x61, 0x62, 0x61] : List UInt8) ∧
        memmemOptional [0x61, 0x62, 0x61] [0x61] ≠ none :=
  (replacesAll_iff ⟨1, [0x61, 0x62, 0x61], by decide, by decide⟩ ⟨1, [0x61], by decide, by decide⟩
    ⟨1, [0x63, 0x63], by decide, by decide⟩ (by decide)).1

/-- In `"aaa"` the needle `"aa"` occurs twice, and an assertion fails. -/
theorem not_replacesAll_aaa : ¬ ReplacesAll ⟨1, [0x61, 0x61, 0x61], by decide, by decide⟩
      ⟨1, [0x61, 0x61], by decide, by decide⟩ ⟨1, [0x62], by decide, by decide⟩ := by
  rintro ⟨result, hresult, -⟩
  have hoverlap : ¬ Separate ([0x61, 0x61] : List UInt8) [0x61, 0x61, 0x61] := fun h =>
    absurd (h 0 1 (by decide) (by decide) (by decide)) (by decide)
  rw [replace_eq_none_of_overlap (by decide) hoverlap] at hresult
  cases hresult

end StringUtils

end Literate.AK

import Mathlib.Data.List.DropRight
import Literate.AK.StringUtils
import Literate.AK.StringView

/-!
# AK: trimming

`StringUtils::trim` with the assertions of the accesses that it makes.  None of them fails.
What is left of the string is what should be, except for the loop from the right.
-/

namespace Literate.AK

open List

namespace StringUtils

/-! ## The accesses -/

/-- The loop of `trim` from the left, from index `i` on with `remaining` indices left.  The
outer `none` is a failed assertion, the inner one returns `""`. -/
def trimLeftView (str characters : StringView) :
    (remaining i start length : Nat) → Option (Option (Nat × Nat))
  | 0, _, start, length => some (some (start, length))
  | remaining + 1, i, start, length =>
    if length = 0 then some none
    else do
      let c ← str.bytes[i]?
      if c ∉ characters.bytes then some (some (start, length))
      else trimLeftView str characters remaining (i + 1) (start + 1) (length - 1)

/-- The loop of `trim` from the right, from index `i` down to 1. -/
def trimRightView (str characters : StringView) : (i length : Nat) → Option (Option Nat)
  | 0, length => some (some length)
  | i + 1, length =>
    if length = 0 then some none
    else do
      let c ← str.bytes[i + 1]?
      if c ∈ characters.bytes then some (some length)
      else trimRightView str characters i (length - 1)

/-- The start and the length that the first part of `trim` leaves. -/
def trimStart (str characters : StringView) (mode : TrimMode) : Option (Option (Nat × Nat)) :=
  if mode = .left ∨ mode = .both then trimLeftView str characters str.length 0 0 str.length
  else some (some (0, str.length))

/-- The length that the second part of `trim` leaves. -/
def trimEnd (str characters : StringView) (mode : TrimMode) (length : Nat) : Option (Option Nat) :=
  if mode = .right ∨ mode = .both then
    trimRightView str characters ((str.length + 2 ^ 64 - 1) % 2 ^ 64) length
  else some (some length)

/-- `trim`, and the characters of the view that it returns; `none` is a failed assertion. -/
def trimView (str characters : StringView) (mode : TrimMode) : Option (List UInt8) := do
  match ← trimStart str characters mode with
  | none => some []
  | some (start, length) =>
    match ← trimEnd str characters mode length with
    | none => some []
    | some length => (str.substringView start length).map StringView.bytes

variable {str characters : StringView}

theorem trimLeftView_eq {remaining i start length : Nat} (h : i + remaining = str.length) :
    trimLeftView str characters remaining i start length =
      some (trimLeft characters.bytes (str.bytes.drop i) start length) := by
  induction remaining generalizing i start length with
  | zero =>
    rw [Nat.add_zero, StringView.length] at h
    rw [drop_of_length_le (Nat.le_of_eq h.symm)]
    rfl
  | succ remaining ih =>
    rw [StringView.length] at h
    have hi : i < str.bytes.length := by omega
    rw [drop_eq_getElem_cons hi, trimLeftView, trimLeft, List.getElem?_eq_getElem hi]
    simp only [Option.bind_eq_bind, Option.bind_some]
    rw [ih (by rw [StringView.length]; omega)]
    by_cases hzero : length = 0
    · simp only [if_pos hzero]
    · simp only [if_neg hzero, apply_ite some]

theorem trimRightView_eq {i length : Nat} (h : i < str.length) :
    trimRightView str characters i length =
      some (trimRight characters.bytes str.bytes i length) := by
  induction i generalizing length with
  | zero => rfl
  | succ i ih =>
    rw [StringView.length] at h
    rw [trimRightView, trimRight, List.getElem?_eq_getElem h, getD_eq_getElem _ _ h]
    simp only [Option.bind_eq_bind, Option.bind_some]
    rw [ih (by rw [StringView.length]; omega)]
    by_cases hzero : length = 0
    · simp only [if_pos hzero]
    · simp only [if_neg hzero, apply_ite some]

theorem trimLeft_le {characters str : List UInt8} {start length start' length' : Nat}
    (h : trimLeft characters str start length = some (start', length')) :
    start' + length' = start + length := by
  induction str generalizing start length with
  | nil =>
    rw [trimLeft, Option.some.injEq, Prod.mk.injEq] at h
    omega
  | cons c str ih =>
    rw [trimLeft] at h
    by_cases hzero : length = 0
    · rw [if_pos hzero] at h
      cases h
    · rw [if_neg hzero] at h
      by_cases hc : c ∈ characters
      · rw [if_neg (not_not.mpr hc)] at h
        have := ih h
        omega
      · rw [if_pos hc, Option.some.injEq, Prod.mk.injEq] at h
        omega

/-- The loop from the right only takes from the length. -/
theorem trimRight_le {characters str : List UInt8} {i length length' : Nat}
    (h : trimRight characters str i length = some length') : length' ≤ length := by
  induction i generalizing length with
  | zero =>
    rw [trimRight, Option.some.injEq] at h
    omega
  | succ i ih =>
    rw [trimRight] at h
    by_cases hzero : length = 0
    · rw [if_pos hzero] at h
      cases h
    · rw [if_neg hzero] at h
      by_cases hc : str.getD (i + 1) 0 ∈ characters
      · rw [if_pos hc, Option.some.injEq] at h
        omega
      · rw [if_neg hc] at h
        have := ih h
        omega

/-- The index from the right starts at the last character, or at the largest `size_t`. -/
theorem trimRightView_start {length : Nat} (hlength : length ≤ str.length) :
    trimRightView str characters ((str.length + 2 ^ 64 - 1) % 2 ^ 64) length =
      some (if str.bytes = [] then none
        else trimRight characters.bytes str.bytes (str.bytes.length - 1) length) := by
  have hfits := str.fits
  rw [StringView.length] at *
  by_cases hempty : str.bytes = []
  · have hzero : length = 0 := by
      rw [hempty, length_nil] at hlength
      exact Nat.le_zero.mp hlength
    have hindex : (str.bytes.length + 2 ^ 64 - 1) % 2 ^ 64 = (2 ^ 64 - 2) + 1 := by
      rw [hempty]
      rfl
    rw [if_pos hempty, hindex, trimRightView, if_pos hzero]
  · have hpos := length_pos_of_ne_nil hempty
    have hindex : (str.bytes.length + 2 ^ 64 - 1) % 2 ^ 64 = str.bytes.length - 1 := by omega
    rw [if_neg hempty, hindex, trimRightView_eq (by rw [StringView.length]; omega)]

theorem trimStart_eq (mode : TrimMode) : trimStart str characters mode =
      some (if mode = .left ∨ mode = .both then
        trimLeft characters.bytes str.bytes 0 str.bytes.length
      else some (0, str.bytes.length)) := by
  rw [trimStart, trimLeftView_eq (Nat.zero_add _), drop_zero, apply_ite some]
  rfl

theorem trimEnd_eq (mode : TrimMode) {length : Nat} (hlength : length ≤ str.length) :
    trimEnd str characters mode length =
      some (if mode = .right ∨ mode = .both then
        if str.bytes = [] then none
        else trimRight characters.bytes str.bytes (str.bytes.length - 1) length
      else some length) := by
  rw [trimEnd, trimRightView_start hlength]
  exact (apply_ite some _ _ _).symm

/-- No assertion of `trim` fails, and its result is the one of `StringUtils.trim`. -/
theorem trimView_eq (str characters : StringView) (mode : TrimMode) :
    trimView str characters mode = some (trim str.bytes characters.bytes mode) := by
  rw [trimView, trim, trimStart_eq]
  simp only [Option.bind_eq_bind, Option.bind_some]
  cases hstart : (if mode = .left ∨ mode = .both then
      trimLeft characters.bytes str.bytes 0 str.bytes.length
    else some (0, str.bytes.length)) with
  | none => rfl
  | some found =>
    obtain ⟨start, length⟩ := found
    have hsum : start + length = str.length := by
      rw [StringView.length]
      split at hstart
      next =>
          have := trimLeft_le hstart
          omega
      next =>
          rw [Option.some.injEq, Prod.mk.injEq] at hstart
          omega
    simp only [trimEnd_eq mode (by omega : length ≤ str.length), Option.bind_some]
    cases hend : (if mode = .right ∨ mode = .both then
        if str.bytes = [] then none
        else trimRight characters.bytes str.bytes (str.bytes.length - 1) length
      else some length) with
    | none => rfl
    | some length' =>
      have hle : length' ≤ length := by
        split at hend
        next =>
            split at hend
            next => cases hend
            next => exact trimRight_le hend
        next =>
            rw [Option.some.injEq] at hend
            omega
      simp only [StringView.substringView_eq (by omega : start + length' ≤ str.length),
        Option.map_some]
      rfl

/-! ## The result -/

def isOneOf (characters : List UInt8) (c : UInt8) : Bool := decide (c ∈ characters)

/-- The string without the characters of the set at its ends. -/
def trimmed (str characters : List UInt8) : TrimMode → List UInt8
  | .left => str.dropWhile (isOneOf characters)
  | .right => str.rdropWhile (isOneOf characters)
  | .both => (str.dropWhile (isOneOf characters)).rdropWhile (isOneOf characters)

/-- The strings that `trim` trims as it should. -/
def IsTrimmable (str characters : List UInt8) : TrimMode → Prop
  | .left => True
  | .right => str = [] ∨ ∃ c, str = [c] ∧ c ∉ characters
  | .both => str.length ≤ 1 ∨ ∀ c ∈ str, c ∈ characters

section Lists

variable {str characters : List UInt8}

theorem isOneOf_iff {c : UInt8} : isOneOf characters c = true ↔ c ∈ characters :=
  decide_eq_true_iff

/-- The loop from the left leaves what begins with the first other character. -/
theorem trimLeft_eq (start : Nat) : trimLeft characters str start str.length =
      some (start + (str.takeWhile (isOneOf characters)).length,
        (str.dropWhile (isOneOf characters)).length) := by
  induction str generalizing start with
  | nil => rfl
  | cons c str ih =>
    have hpos : (c :: str).length ≠ 0 := Nat.succ_ne_zero _
    rw [trimLeft, if_neg hpos]
    by_cases hc : c ∈ characters
    · have hone := isOneOf_iff.mpr hc
      simp only [if_neg (not_not.mpr hc), length_cons, Nat.add_sub_cancel, ih,
        takeWhile_cons_of_pos hone, dropWhile_cons_of_pos hone]
      congr 2
      omega
    · have hnone := mt isOneOf_iff.mp hc
      rw [if_pos hc, takeWhile_cons_of_neg hnone, dropWhile_cons_of_neg hnone]
      rfl

theorem drop_length_takeWhile (p : UInt8 → Bool) (str : List UInt8) :
    str.drop (str.takeWhile p).length = str.dropWhile p := by
  have h := @drop_left _ (str.takeWhile p) (str.dropWhile p)
  rwa [takeWhile_append_dropWhile] at h

theorem trim_left : trim str characters .left = trimmed str characters .left := by
  simp only [trim, true_or, if_true, reduceCtorEq, or_self, if_false, trimLeft_eq, Nat.zero_add,
    drop_length_takeWhile, take_length]
  rfl

/-- What the loop from the right leaves of the last characters of the string. -/
def trimmedRight (str characters body : List UInt8) : List UInt8 :=
  (if str = [] then none
    else trimRight characters str (str.length - 1) body.length).elim [] body.take

theorem trim_right : trim str characters .right = trimmedRight str characters str := by
  simp only [trim, true_or, if_true, reduceCtorEq, or_self, if_false, drop_zero, trimmedRight]
  cases (if str = [] then none else trimRight characters str (str.length - 1) str.length) <;> rfl

theorem trim_both : trim str characters .both =
      trimmedRight str characters (str.dropWhile (isOneOf characters)) := by
  simp only [trim, or_true, if_true, trimLeft_eq, Nat.zero_add, drop_length_takeWhile, trimmedRight]
  cases (if str = [] then none else trimRight characters str (str.length - 1)
    (str.dropWhile (isOneOf characters)).length) <;> rfl

/-- Of one character the loop from the right takes nothing. -/
theorem trimmedRight_singleton (c : UInt8) (body : List UInt8) :
    trimmedRight [c] characters body = body := by
  rw [trimmedRight, if_neg (cons_ne_nil c [])]
  exact take_length

/-- Of more characters it takes the last one exactly when that is not in the set. -/
theorem trimmedRight_ne {init : List UInt8} (hinit : init ≠ []) (body : List UInt8) (c : UInt8) :
    trimmedRight (init ++ [c]) characters (body ++ [c]) ≠
      (body ++ [c]).rdropWhile (isOneOf characters) := by
  obtain ⟨i, hi⟩ := Nat.exists_eq_succ_of_ne_zero (length_pos_of_ne_nil hinit).ne'
  have hnonempty : init ++ [c] ≠ [] :=
    append_ne_nil_of_right_ne_nil init (cons_ne_nil c [])
  have hindex : (init ++ [c]).length - 1 = i + 1 := by
    rw [length_append, length_singleton, hi, Nat.add_sub_cancel]
  have hlast : (init ++ [c]).getD (i + 1) 0 = c := by
    rw [getD_eq_getElem?_getD, List.getElem?_append_right (Nat.le_of_eq hi), hi, Nat.sub_self]
    rfl
  have hlength : (body ++ [c]).length = body.length + 1 := length_append
  rw [trimmedRight, if_neg hnonempty, hindex, trimRight, hlast, hlength,
    if_neg (Nat.succ_ne_zero _)]
  by_cases hc : c ∈ characters
  · have hshorter := (List.rdropWhile_prefix (isOneOf characters) (l := body)).length_le
    rw [if_pos hc, rdropWhile_concat_pos _ _ _ (isOneOf_iff.mpr hc), Option.elim_some,
      ← hlength, take_length]
    intro heq
    rw [← heq, hlength] at hshorter
    omega
  · rw [if_neg hc, rdropWhile_concat_neg _ _ _ (mt isOneOf_iff.mp hc)]
    intro heq
    have hfull := congrArg List.length heq
    rw [hlength] at hfull
    cases hloop : trimRight characters (init ++ [c]) i (body.length + 1 - 1) with
    | none =>
      rw [hloop] at hfull
      cases hfull
    | some length =>
      have hle := trimRight_le hloop
      rw [hloop, Option.elim_some, List.length_take] at hfull
      omega

theorem trim_right_iff : trim str characters .right = trimmed str characters .right ↔
      str = [] ∨ ∃ c, str = [c] ∧ c ∉ characters := by
  rw [trim_right, trimmed]
  rcases eq_nil_or_concat str with rfl | ⟨init, c, rfl⟩
  · exact iff_of_true rfl (.inl rfl)
  · rw [concat_eq_append]
    by_cases hinit : init = []
    · subst hinit
      rw [nil_append, trimmedRight_singleton, rdropWhile_singleton]
      by_cases hc : c ∈ characters
      · rw [if_pos (isOneOf_iff.mpr hc)]
        simp [hc]
      · have hnone := mt isOneOf_iff.mp hc
        rw [if_neg hnone]
        simp [hc]
    · refine iff_of_false (trimmedRight_ne hinit init c) ?_
      rintro (hnil | ⟨d, hd, -⟩)
      · exact (append_ne_nil_of_right_ne_nil init (cons_ne_nil c [])) hnil
      · exact hinit (append_eq_singleton_iff.mp hd |>.elim (fun h => h.1) fun h => by simp at h)

theorem trim_both_iff : trim str characters .both = trimmed str characters .both ↔
      str.length ≤ 1 ∨ ∀ c ∈ str, c ∈ characters := by
  rw [trim_both, trimmed]
  rcases eq_nil_or_concat (str.dropWhile (isOneOf characters)) with hempty | ⟨body, c, hbody⟩
  · have hall : ∀ c ∈ str, c ∈ characters := fun c hc =>
      isOneOf_iff.mp (dropWhile_eq_nil_iff.mp hempty c hc)
    refine iff_of_true ?_ (.inr hall)
    rw [hempty, trimmedRight, rdropWhile_nil]
    cases (if str = [] then none else trimRight characters str (str.length - 1) [].length) with
    | none => rfl
    | some length => exact take_nil
  · rw [concat_eq_append] at hbody
    have hsplit : str = (str.takeWhile (isOneOf characters) ++ body) ++ [c] := by
      rw [List.append_assoc, ← hbody, takeWhile_append_dropWhile]
    rw [hbody]
    by_cases hinit : str.takeWhile (isOneOf characters) ++ body = []
    · obtain ⟨-, rfl⟩ := append_eq_nil_iff.mp hinit
      rw [hinit, nil_append] at hsplit
      have hc : ¬ isOneOf characters c = true := by
        intro hone
        rw [hsplit, dropWhile_cons_of_pos hone] at hbody
        cases hbody
      refine iff_of_true ?_ (.inl (by rw [hsplit, length_singleton]))
      rw [hsplit, nil_append, trimmedRight_singleton, rdropWhile_singleton, if_neg hc]
    · have hne := @trimmedRight_ne characters _ hinit body c
      rw [← hsplit] at hne
      refine iff_of_false hne ?_
      rintro (hshort | hall)
      · rw [hsplit, length_append, length_singleton] at hshort
        exact hinit (length_eq_zero_iff.mp (by omega))
      · rw [dropWhile_eq_nil_iff.mpr fun c hc => isOneOf_iff.mpr (hall c hc)] at hbody
        exact append_ne_nil_of_right_ne_nil body (cons_ne_nil c []) hbody.symm

end Lists

/-- `trim` never reads outside the string, and leaves what it should of every string when it
trims on the left; on the right and on both sides it does for these strings only. -/
theorem trimView_iff (str characters : StringView) (mode : TrimMode) :
    trimView str characters mode ≠ none ∧
      (trimView str characters mode = some (trimmed str.bytes characters.bytes mode) ↔
        IsTrimmable str.bytes characters.bytes mode) := by
  rw [trimView_eq, Option.some.injEq]
  refine ⟨Option.some_ne_none _, ?_⟩
  cases mode with
  | left => exact iff_of_true trim_left trivial
  | right => exact trim_right_iff
  | both => exact trim_both_iff

/-- `"a "` keeps the space at its end. -/
theorem not_trimView_space :
    trimView ⟨1, [0x61, 0x20], by decide, by decide⟩ ⟨1, [0x20], by decide, by decide⟩ .right ≠
      some (trimmed [0x61, 0x20] [0x20] .right) := by
  rw [trimView_eq]
  decide

end StringUtils

end Literate.AK

import Literate.AK.MemMemOptional
import Literate.AK.StringView
import Literate.AK.Utf8View
import Literate.Foundation.Skipping

/-!
# AK: search without regard to case

`StringUtils::contains` of `AK/StringUtils.cpp`.  Where the case does not matter it goes on
after a failure behind the characters that were the same, which passes over an occurrence
that begins among them.
-/

namespace Literate.AK

open Foundation List

namespace StringUtils

/-- How the inner loop of `contains` ends. -/
inductive Comparison
  | found
  | differs (ni : Nat)
  | exhausted
  deriving DecidableEq, Repr

/-- The inner loop of `contains` from index `ni` of the needle on. -/
def compareNeedle : (needle str : List UInt8) → (ni : Nat) → Comparison
  | p :: needle, ch :: str, ni =>
    if toAsciiLowercase ch ≠ toAsciiLowercase p then .differs ni
    else if needle = [] then .found
    else compareNeedle needle str (ni + 1)
  | _, _, _ => .exhausted

/-- The outer loop of `contains` over what is left of the string, where the index has been
moved on by `passed` characters. -/
def containsLoop (needle : List UInt8) : (str : List UInt8) → (passed : Nat) → Bool
  | [], _ => false
  | _ :: str, passed + 1 => containsLoop needle str passed
  | ch :: str, 0 =>
    if toAsciiLowercase ch ≠ toAsciiLowercase (needle.getD 0 0) then containsLoop needle str 0
    else
      match compareNeedle needle (ch :: str) 0 with
      | .found => true
      | .differs ni => containsLoop needle str (if 0 < ni then ni - 1 else 0)
      | .exhausted => containsLoop needle str 0

/-- `StringUtils::contains`; `none` is a failure of `memmem`. -/
def contains (str needle : StringView) (caseSensitivity : CaseSensitivity) : Option Bool :=
  if str.isNull || needle.isNull || str.isEmpty || decide (str.length < needle.length) then
    some false
  else if needle.isEmpty then some true
  else if caseSensitivity = .caseSensitive then
    (memmemOptional str.bytes needle.bytes).map Option.isSome
  else some (containsLoop needle.bytes str.bytes 0)

/-- Some part of the string is the needle but for the case. -/
def ContainsIgnoringCase (str needle : List UInt8) : Prop :=
  ∃ part, part <:+: str ∧ equalsIgnoringCase part needle = true

variable {needle str : List UInt8}

/-! ## The loops -/

/-- The inner loop finds out how many characters are the same. -/
theorem compareNeedle_eq (hne : needle ≠ []) (ni : Nat) : compareNeedle needle str ni =
      if agreement (needle.map toAsciiLowercase) (str.map toAsciiLowercase) = needle.length then .found
      else if agreement (needle.map toAsciiLowercase) (str.map toAsciiLowercase) = str.length then
        .exhausted
      else .differs (ni + agreement (needle.map toAsciiLowercase) (str.map toAsciiLowercase)) := by
  induction needle generalizing str ni with
  | nil => exact absurd rfl hne
  | cons p needle ih =>
    cases str with
    | nil =>
      have hlength : 0 ≠ (p :: needle).length := (Nat.succ_ne_zero _).symm
      rw [compareNeedle, map_nil, agreement, if_neg hlength, if_pos length_nil.symm]
      all_goals exact fun _ _ _ _ _ h => by cases h
    | cons ch str =>
      simp only [compareNeedle, map_cons, agreement]
      by_cases hsame : toAsciiLowercase p = toAsciiLowercase ch
      · rw [if_neg (not_not.mpr hsame.symm), if_pos hsame]
        by_cases hlast : needle = []
        · subst hlast
          rw [if_pos rfl, map_nil, agreement, if_pos (by simp)]
          exact fun _ _ _ _ h => by cases h
        · rw [if_neg hlast, ih hlast (ni + 1)]
          simp only [length_cons, Nat.add_right_cancel_iff, Nat.add_assoc, Nat.add_comm 1]
      · rw [if_pos (Ne.symm hsame), if_neg hsame, if_neg (by simp), if_neg (by simp), Nat.add_zero]

theorem containsLoop_passed (passed : Nat) :
    containsLoop needle str passed = containsLoop needle (str.drop passed) 0 := by
  induction passed generalizing str with
  | zero => rw [drop_zero]
  | succ passed ih =>
    cases str with
    | nil => rfl
    | cons ch str =>
      rw [containsLoop, drop_succ_cons]
      exact ih

/-- The search reaches what skipping over the characters that are the same reaches. -/
theorem containsLoop_iff (hne : needle ≠ []) : containsLoop needle str 0 = true ↔
      Arrives (needle.map toAsciiLowercase) (str.map toAsciiLowercase) := by
  induction hlength : str.length using Nat.strong_induction_on generalizing str with
  | _ n ih =>
    cases str with
    | nil =>
      refine iff_of_false Bool.false_ne_true (not_arrives_of_length_lt ?_)
      simp only [length_map]
      exact length_pos_of_ne_nil hne
    | cons ch str =>
      rw [length_cons] at hlength
      have hdrop : ∀ i, containsLoop needle (str.drop i) 0 = true ↔
          Arrives (needle.map toAsciiLowercase) ((str.drop i).map toAsciiLowercase) :=
        fun i => ih _ (by rw [length_drop]; omega) rfl
      have hskip : ∀ l, ((ch :: str).map toAsciiLowercase).drop (max 1 l) =
          (str.drop (l - 1)).map toAsciiLowercase := by
        intro l
        have hmax : max 1 l = (l - 1) + 1 := by omega
        rw [hmax, map_cons, drop_succ_cons, map_drop]
      obtain ⟨p, needle', rfl⟩ := exists_cons_of_ne_nil hne
      rw [containsLoop, arrives_iff, ← agreement_eq_length_iff, skip, hskip, ← hdrop,
        length_map, getD_cons_zero]
      by_cases hfirst : toAsciiLowercase ch = toAsciiLowercase p
      · rw [if_neg (not_not.mpr hfirst), compareNeedle_eq hne 0, Nat.zero_add]
        by_cases hfound : agreement ((p :: needle').map toAsciiLowercase)
            ((ch :: str).map toAsciiLowercase) = (p :: needle').length
        · rw [if_pos hfound]
          exact iff_of_true rfl (.inl hfound)
        · rw [if_neg hfound, or_iff_right hfound]
          by_cases hend : agreement ((p :: needle').map toAsciiLowercase)
              ((ch :: str).map toAsciiLowercase) = (ch :: str).length
          · have hle := agreement_le ((p :: needle').map toAsciiLowercase)
              ((ch :: str).map toAsciiLowercase)
            rw [length_map] at hle
            rw [if_pos hend, hend, length_cons, Nat.add_sub_cancel, drop_length]
            refine iff_of_false ?_ Bool.false_ne_true
            rw [← drop_zero (l := str), hdrop]
            refine not_arrives_of_length_lt ?_
            simp only [length_map, drop_zero]
            rw [length_cons] at hend
            omega
          · rw [if_neg hend]
            have hpassed : ∀ l : Nat, (if 0 < l then l - 1 else 0) = l - 1 := by
              intro l
              split <;> omega
            simp only [hpassed]
            rw [containsLoop_passed]
      · have hnone : agreement ((p :: needle').map toAsciiLowercase)
            ((ch :: str).map toAsciiLowercase) = 0 := by
          simp only [map_cons, agreement, if_neg (Ne.symm hfirst)]
        have hfound : (0 : Nat) ≠ (p :: needle').length := (Nat.succ_ne_zero _).symm
        rw [if_pos hfirst, hnone, or_iff_right hfound, Nat.zero_sub, drop_zero]

/-! ## The search -/

/-- The needle begins one of the parts of the string that are left when the characters that
are the same as its first ones are cut off, or one character if none is. -/
def ArrivesIgnoringCase (str needle : List UInt8) : Prop :=
  Arrives (needle.map toAsciiLowercase) (str.map toAsciiLowercase)

theorem containsIgnoringCase_iff : ContainsIgnoringCase str needle ↔
      needle.map toAsciiLowercase <:+: str.map toAsciiLowercase := by
  constructor
  · rintro ⟨part, hpart, heq⟩
    rw [equalsIgnoringCase, beq_iff_eq] at heq
    exact heq ▸ hpart.map toAsciiLowercase
  · rintro ⟨before, after, hsplit⟩
    obtain ⟨front, back, rfl, hfront, -⟩ := map_eq_append_iff.mp hsplit.symm
    obtain ⟨start, part, rfl, -, hpart⟩ := map_eq_append_iff.mp hfront
    exact ⟨part, ⟨start, back, rfl⟩, by rw [equalsIgnoringCase, hpart, beq_self_eq_true]⟩

theorem contains_caseInsensitive {str needle : StringView} (hstr : str.bytes ≠ [])
    (hneedle : needle.bytes ≠ []) : contains str needle .caseInsensitive = some true ↔
      ArrivesIgnoringCase str.bytes needle.bytes := by
  have hnull : ∀ s : StringView, s.bytes ≠ [] → s.isNull = false := fun s hs =>
    decide_eq_false fun hzero => hs (s.empty_of_null hzero)
  have hempty : ∀ s : StringView, s.bytes ≠ [] → s.isEmpty = false := fun s hs =>
    decide_eq_false hs
  simp only [contains, hnull str hstr, hnull needle hneedle, hempty str hstr, hempty needle hneedle,
    Bool.false_or, if_neg Bool.false_ne_true]
  by_cases hshort : str.length < needle.length
  · rw [if_pos (decide_eq_true hshort)]
    refine iff_of_false (by decide) (not_arrives_of_length_lt ?_)
    rwa [length_map, length_map]
  · have hmode : CaseSensitivity.caseInsensitive ≠ .caseSensitive := by decide
    rw [if_neg (mt of_decide_eq_true hshort), if_neg hmode, Option.some.injEq]
    exact containsLoop_iff hneedle

/-- The search finds the needle in a string exactly when it comes to it.  It comes to it in
every string where the needle is unbroken, and for a broken one there is a string where it
does not. -/
theorem contains_iff (needle : StringView) (hneedle : needle.bytes ≠ []) :
    (∀ str : StringView, str.bytes ≠ [] →
      ((contains str needle .caseInsensitive = some true ↔
          ContainsIgnoringCase str.bytes needle.bytes) ↔
        (ContainsIgnoringCase str.bytes needle.bytes →
          ArrivesIgnoringCase str.bytes needle.bytes))) ∧
    (Unbroken (needle.bytes.map toAsciiLowercase) →
      ∀ str : StringView, str.bytes ≠ [] →
        (contains str needle .caseInsensitive = some true ↔
          ContainsIgnoringCase str.bytes needle.bytes)) ∧
    (¬ Unbroken (needle.bytes.map toAsciiLowercase) → needle.length < 2 ^ 63 - 1 →
      ∃ str : StringView, str.bytes ≠ [] ∧
        ¬ (contains str needle .caseInsensitive = some true ↔
          ContainsIgnoringCase str.bytes needle.bytes)) := by
  have hsound : ∀ str : List UInt8, ArrivesIgnoringCase str needle.bytes →
      ContainsIgnoringCase str needle.bytes := fun str h =>
    containsIgnoringCase_iff.mpr (infix_of_arrives h)
  refine ⟨fun str hstr => ?_, fun hunbroken str hstr => ?_, fun hbroken hlength => ?_⟩
  · rw [contains_caseInsensitive hstr hneedle]
    exact ⟨fun h => h.mpr, fun h => ⟨hsound str.bytes, h⟩⟩
  · rw [contains_caseInsensitive hstr hneedle]
    exact ⟨hsound str.bytes,
      fun h => arrives_of_isInfix hunbroken (containsIgnoringCase_iff.mp h)⟩
  · obtain ⟨n, hn⟩ := exists_not_arrives hbroken
    have hfits : 1 + (needle.bytes.take n ++ needle.bytes).length < 2 ^ 64 := by
      rw [StringView.length] at hlength
      rw [length_append, List.length_take]
      omega
    have hne : needle.bytes.take n ++ needle.bytes ≠ [] :=
      append_ne_nil_of_right_ne_nil _ hneedle
    refine ⟨⟨1, needle.bytes.take n ++ needle.bytes, hfits, fun h => absurd h Nat.one_ne_zero⟩,
      hne, ?_⟩
    rw [contains_caseInsensitive hne hneedle]
    intro h
    have harrives := h.mpr ⟨needle.bytes, (suffix_append _ _).isInfix, beq_self_eq_true _⟩
    rw [ArrivesIgnoringCase, map_append, map_take] at harrives
    exact hn harrives

theorem contains_iff_sample :
    (contains ⟨1, [0x41, 0x62, 0x43], by decide, by decide⟩ ⟨1, [0x42], by decide, by decide⟩
        .caseInsensitive = some true ↔
      ContainsIgnoringCase [0x41, 0x62, 0x43] [0x42]) ↔
    (ContainsIgnoringCase [0x41, 0x62, 0x43] [0x42] →
      ArrivesIgnoringCase [0x41, 0x62, 0x43] [0x42]) :=
  (contains_iff ⟨1, [0x42], by decide, by decide⟩ (by decide)).1
    ⟨1, [0x41, 0x62, 0x43], by decide, by decide⟩ (by decide)

/-- `"aab"` is not found in `"aaab"`. -/
theorem not_contains_aab : contains ⟨1, [0x61, 0x61, 0x61, 0x62], by decide, by decide⟩
        ⟨1, [0x61, 0x61, 0x62], by decide, by decide⟩ .caseInsensitive = some false ∧
      ContainsIgnoringCase [0x61, 0x61, 0x61, 0x62] [0x61, 0x61, 0x62] :=
  ⟨by decide, [0x61, 0x61, 0x62], ⟨[0x61], [], rfl⟩, rfl⟩

end StringUtils

end Literate.AK

import Mathlib.Data.List.Forall2
import Literate.AK.StringView
import Literate.AK.Utf8View
import Literate.Foundation.Wildcards

/-!
# AK: strings and masks

`StringUtils::matches` of `AK/StringUtils.cpp`.  At a `*` it looks for the first suffix of the
string that the rest of the mask matches, and goes on from there.
-/

namespace Literate.AK

open Foundation List

structure MaskSpan where
  start : Nat
  length : Nat
  deriving DecidableEq, Repr

variable {ch : UInt8} {accepts : List UInt8 → Bool}

namespace StringUtils

/-- The comparison of a character of the mask with one of the string. -/
def sameCharacter (caseSensitivity : CaseSensitivity) (p ch : UInt8) : Bool :=
  match caseSensitivity with
  | .caseSensitive => decide (p = ch)
  | .caseInsensitive => decide (toAsciiLowercase p = toAsciiLowercase ch)

/-- The inner loop at a `*`: the characters before the first suffix that is not empty and
that the rest of the mask matches, or all of them. -/
def skipped (accepts : List UInt8 → Bool) : List UInt8 → Nat
  | [] => 0
  | ch :: str => if accepts (ch :: str) then 0 else skipped accepts str + 1

/-- The loop over the stars that are left when the string is exhausted. -/
def trailingStars (position : Nat) : List UInt8 → Bool × List MaskSpan
  | [] => (true, [])
  | p :: mask =>
    if p = byte '*' then
      ((trailingStars position mask).1, ⟨position, 0⟩ :: (trailingStars position mask).2)
    else (false, [])

/-- The loop of `matches` over what is left of the mask and of the string, and the spans
that it records.  The views of the recursion are not null, and a mask `*` is answered before
its loop. -/
def matchesLoop (caseSensitivity : CaseSensitivity) :
    (mask str : List UInt8) → (position : Nat) → Bool × List MaskSpan
  | [], str, _ => (decide (str = []), [])
  | p :: mask, [], position => trailingStars position (p :: mask)
  | p :: mask, ch :: str, position =>
    if p = byte '*' then
      if mask = [] then (true, [⟨position, (ch :: str).length⟩])
      else
        let length := skipped (fun suffix =>
          decide (mask = [byte '*']) || (matchesLoop caseSensitivity mask suffix 0).1) (ch :: str)
        let rest := matchesLoop caseSensitivity mask ((ch :: str).drop length) (position + length)
        (rest.1, ⟨position, length⟩ :: rest.2)
    else if p = byte '?' then
      let rest := matchesLoop caseSensitivity mask str (position + 1)
      (rest.1, ⟨position, 1⟩ :: rest.2)
    else if sameCharacter caseSensitivity p ch then
      matchesLoop caseSensitivity mask str (position + 1)
    else (false, [])

/-- `StringUtils::matches`, and the vector of spans, if it is given one. -/
def matchesMask (str mask : StringView) (caseSensitivity : CaseSensitivity)
    (matchSpans : Option (List MaskSpan)) : Bool × Option (List MaskSpan) :=
  if str.isNull || mask.isNull then (str.isNull && mask.isNull, matchSpans)
  else if mask.bytes = [byte '*'] then (true, matchSpans.map (· ++ [⟨0, str.length⟩]))
  else
    let result := matchesLoop caseSensitivity mask.bytes str.bytes 0
    (result.1, matchSpans.map (· ++ result.2))

/-! ## What a mask stands for -/

/-- What a character of a mask stands for. -/
def maskSymbol (p : UInt8) : MaskSymbol UInt8 :=
  if p = byte '*' then .anyWord else if p = byte '?' then .anySymbol else .symbol p

/-- The texts that a mask describes. -/
def Describes (caseSensitivity : CaseSensitivity) (mask text : List UInt8) : Prop :=
  Masks (fun p ch => sameCharacter caseSensitivity p ch = true) (mask.map maskSymbol) text

variable {caseSensitivity : CaseSensitivity} {mask str : List UInt8} {position : Nat}

theorem describes_nil : Describes caseSensitivity [] str ↔ str = [] := masks_nil

theorem describes_star : Describes caseSensitivity (byte '*' :: mask) str ↔
      ∃ k ≤ str.length, Describes caseSensitivity mask (str.drop k) := masks_anyWord_iff

theorem describes_question : Describes caseSensitivity (byte '?' :: mask) (ch :: str) ↔
      Describes caseSensitivity mask str := masks_anySymbol_cons

theorem describes_character {p : UInt8} (hstar : p ≠ byte '*') (hquestion : p ≠ byte '?') :
    Describes caseSensitivity (p :: mask) (ch :: str) ↔
      sameCharacter caseSensitivity p ch = true ∧ Describes caseSensitivity mask str := by
  rw [Describes, map_cons, maskSymbol, if_neg hstar, if_neg hquestion, masks_symbol_cons]
  rfl

theorem describes_empty : Describes caseSensitivity mask [] ↔ ∀ p ∈ mask, p = byte '*' := by
  have hstar : ∀ p, maskSymbol p = .anyWord ↔ p = byte '*' := by
    intro p
    rw [maskSymbol]
    split
    next h => exact iff_of_true rfl h
    next h =>
        refine iff_of_false ?_ h
        split <;> exact fun heq => by cases heq
  rw [Describes, masks_empty_iff, List.forall_mem_map]
  exact forall₂_congr fun p _ => hstar p

/-! ## The answer -/

theorem trailingStars_iff (position : Nat) :
    (trailingStars position mask).1 = true ↔ ∀ p ∈ mask, p = byte '*' := by
  induction mask with
  | nil => simp [trailingStars]
  | cons p mask ih =>
    rw [trailingStars, forall_mem_cons]
    by_cases hp : p = byte '*'
    · rw [if_pos hp, ih, and_iff_right hp]
    · rw [if_neg hp]
      exact iff_of_false Bool.false_ne_true fun h => hp h.1

theorem skipped_le (accepts : List UInt8 → Bool) (str : List UInt8) :
    skipped accepts str ≤ str.length := by
  induction str with
  | nil => exact Nat.le_refl 0
  | cons ch str ih =>
    rw [skipped, length_cons]
    split <;> omega

theorem not_accepts_of_lt_skipped {k : Nat} (h : k < skipped accepts str) :
    accepts (str.drop k) = false := by
  induction str generalizing k with
  | nil => exact absurd h (Nat.not_lt_zero k)
  | cons ch str ih =>
    rw [skipped] at h
    split at h
    next => exact absurd h (Nat.not_lt_zero k)
    next hno =>
        cases k with
        | zero => exact Bool.eq_false_iff.mpr hno
        | succ k => exact ih (Nat.lt_of_succ_lt_succ h)

theorem accepts_of_skipped_lt (h : skipped accepts str < str.length) :
    accepts (str.drop (skipped accepts str)) = true := by
  induction str with
  | nil => exact absurd h (Nat.not_lt_zero _)
  | cons ch str ih =>
    rw [skipped] at h ⊢
    split at h
    next hyes =>
        rw [if_pos hyes]
        exact hyes
    next hno =>
        rw [if_neg hno]
        exact ih (Nat.lt_of_succ_lt_succ h)

/-- To go on from the first suffix that is accepted loses nothing. -/
theorem skipped_iff {P : List UInt8 → Prop}
    (haccepts : ∀ suffix, accepts suffix = true ↔ P suffix) :
    P (str.drop (skipped accepts str)) ↔ ∃ k ≤ str.length, P (str.drop k) := by
  have hle := skipped_le accepts str
  refine ⟨fun h => ⟨_, hle, h⟩, fun ⟨k, hk, h⟩ => ?_⟩
  by_cases hlt : skipped accepts str < str.length
  · exact (haccepts _).mp (accepts_of_skipped_lt hlt)
  · have hend : k = skipped accepts str := by
      by_contra hne
      have hbefore : k < skipped accepts str := by omega
      have hno := not_accepts_of_lt_skipped hbefore
      rw [(haccepts _).mpr h] at hno
      cases hno
    rwa [← hend]

theorem matchesLoop_iff : (matchesLoop caseSensitivity mask str position).1 = true ↔
      Describes caseSensitivity mask str := by
  induction mask generalizing str position with
  | nil => rw [matchesLoop, describes_nil, decide_eq_true_iff]
  | cons p mask ih =>
    cases str with
    | nil => rw [matchesLoop, trailingStars_iff, describes_empty]
    | cons ch str =>
      rw [matchesLoop]
      by_cases hstar : p = byte '*'
      · subst hstar
        rw [if_pos rfl, describes_star]
        by_cases hlast : mask = []
        · rw [if_pos hlast, hlast]
          refine iff_of_true rfl ⟨_, Nat.le_refl _, ?_⟩
          rw [drop_length, describes_nil]
        · rw [if_neg hlast]
          refine ih.trans (skipped_iff fun suffix => ?_)
          rw [Bool.or_eq_true, ih, decide_eq_true_iff]
          refine or_iff_right_of_imp ?_
          rintro rfl
          refine describes_star.mpr ⟨_, Nat.le_refl _, ?_⟩
          rw [drop_length, describes_nil]
      · by_cases hquestion : p = byte '?'
        · subst hquestion
          rw [if_neg hstar, if_pos rfl, describes_question]
          exact ih
        · rw [if_neg hstar, if_neg hquestion, describes_character hstar hquestion]
          by_cases hsame : sameCharacter caseSensitivity p ch = true
          · rw [if_pos hsame, ih, and_iff_right hsame]
          · rw [if_neg hsame]
            exact iff_of_false Bool.false_ne_true fun h => hsame h.1

/-! ## The spans -/

/-- The part of the string that a span covers. -/
def spanned (str : List UInt8) (span : MaskSpan) : List UInt8 :=
  (str.drop span.start).take span.length

/-- The spans of the wildcards of a mask, in the string from `position` on. -/
structure Recorded (caseSensitivity : CaseSensitivity) (mask str : List UInt8) (position : Nat)
    (spans : List MaskSpan) : Prop where
  one_each : spans.length = (mask.map maskSymbol).countP MaskSymbol.isWildcard
  ordered : spans.Pairwise fun span later => span.start + span.length ≤ later.start
  within : ∀ span ∈ spans, position ≤ span.start ∧ span.start + span.length ≤ str.length
  filled : List.Forall₂ (fun p ch => sameCharacter caseSensitivity p ch = true)
    (substitute (mask.map maskSymbol) (spans.map (spanned str))) (str.drop position)

theorem sameCharacter_self (ch : UInt8) : sameCharacter caseSensitivity ch ch = true := by
  cases caseSensitivity <;> exact decide_eq_true rfl

theorem recorded_nil : Recorded caseSensitivity [] str str.length [] where
  one_each := rfl
  ordered := .nil
  within _ h := absurd h not_mem_nil
  filled := by
    rw [drop_length]
    exact .nil

/-- A wildcard takes the next `length` characters. -/
theorem Recorded.wildcard {p : UInt8} {length : Nat} {spans : List MaskSpan}
    (h : Recorded caseSensitivity mask str (position + length) spans)
    (hp : (maskSymbol p).isWildcard = true) (hlength : position + length ≤ str.length) :
    Recorded caseSensitivity (p :: mask) str position (⟨position, length⟩ :: spans) where
  one_each := by
    rw [length_cons, map_cons, countP_cons_of_pos hp, h.one_each]
  ordered := pairwise_cons.mpr ⟨fun span hspan => (h.within span hspan).1, h.ordered⟩
  within span hspan := by
    cases mem_cons.mp hspan with
    | inl heq =>
      subst heq
      exact ⟨Nat.le_refl _, hlength⟩
    | inr hmem =>
      have hwithin := h.within span hmem
      exact ⟨by omega, hwithin.2⟩
  filled := by
    have hsplit : str.drop position = spanned str ⟨position, length⟩ ++ str.drop (position + length) := by
      rw [spanned, ← drop_drop, take_append_drop]
    have hcons : substitute ((p :: mask).map maskSymbol)
        ((⟨position, length⟩ :: spans).map (spanned str)) =
          spanned str ⟨position, length⟩ ++
            substitute (mask.map maskSymbol) (spans.map (spanned str)) := by
      simp only [map_cons]
      cases hsymbol : maskSymbol p with
      | anyWord => rfl
      | anySymbol => rfl
      | symbol c =>
        rw [hsymbol] at hp
        cases hp
    rw [hcons, hsplit]
    exact rel_append (forall₂_same.mpr fun ch _ => sameCharacter_self ch) h.filled

theorem Recorded.character {p ch : UInt8} {spans : List MaskSpan}
    (h : Recorded caseSensitivity mask str (position + 1) spans) (hstar : p ≠ byte '*')
    (hquestion : p ≠ byte '?') (hch : str.drop position = ch :: str.drop (position + 1))
    (hsame : sameCharacter caseSensitivity p ch = true) :
    Recorded caseSensitivity (p :: mask) str position spans := by
  have hsymbol : maskSymbol p = .symbol p := by rw [maskSymbol, if_neg hstar, if_neg hquestion]
  refine ⟨?_, h.ordered, fun span hspan => ?_, ?_⟩
  · rw [map_cons, hsymbol, countP_cons_of_neg Bool.false_ne_true, h.one_each]
  · have hwithin := h.within span hspan
    exact ⟨by omega, hwithin.2⟩
  · rw [map_cons, hsymbol, hch]
    exact .cons hsame h.filled

theorem isWildcard_star : (maskSymbol (byte '*')).isWildcard = true := by decide

theorem isWildcard_question : (maskSymbol (byte '?')).isWildcard = true := by decide

theorem trailingStars_recorded (h : (trailingStars str.length mask).1 = true) :
    Recorded caseSensitivity mask str str.length (trailingStars str.length mask).2 := by
  induction mask with
  | nil => exact recorded_nil
  | cons p mask ih =>
    rw [trailingStars] at h ⊢
    by_cases hp : p = byte '*'
    · subst hp
      rw [if_pos rfl] at h ⊢
      exact @Recorded.wildcard _ _ _ _ _ 0 _ (ih h) isWildcard_star (Nat.le_refl _)
    · rw [if_neg hp] at h
      cases h

theorem matchesLoop_recorded {rest : List UInt8} (hrest : str.drop position = rest)
    (hposition : position ≤ str.length)
    (h : (matchesLoop caseSensitivity mask rest position).1 = true) :
    Recorded caseSensitivity mask str position
      (matchesLoop caseSensitivity mask rest position).2 := by
  induction mask generalizing rest position with
  | nil =>
    rw [matchesLoop] at h ⊢
    have hend := drop_eq_nil_iff.mp (hrest.trans (of_decide_eq_true h))
    obtain rfl : position = str.length := by omega
    exact recorded_nil
  | cons p mask ih =>
    cases rest with
    | nil =>
      have hend := drop_eq_nil_iff.mp hrest
      obtain rfl : position = str.length := by omega
      rw [matchesLoop] at h ⊢
      exact trailingStars_recorded h
    | cons ch rest =>
      have hlength := congrArg List.length hrest
      rw [length_drop, length_cons] at hlength
      have htail : str.drop (position + 1) = rest := by rw [← drop_drop, hrest, drop_one, tail_cons]
      rw [matchesLoop] at h ⊢
      by_cases hstar : p = byte '*'
      · subst hstar
        rw [if_pos rfl] at h ⊢
        by_cases hlast : mask = []
        · rw [if_pos hlast, hlast]
          have hend : position + (ch :: rest).length = str.length := by
            rw [length_cons]
            omega
          refine Recorded.wildcard ?_ isWildcard_star (Nat.le_of_eq hend)
          rw [hend]
          exact recorded_nil
        · rw [if_neg hlast] at h ⊢
          have hskipped := skipped_le (fun suffix => decide (mask = [byte '*']) ||
            (matchesLoop caseSensitivity mask suffix 0).1) (ch :: rest)
          rw [length_cons] at hskipped
          refine Recorded.wildcard (ih ?_ (by omega) h) isWildcard_star (by omega)
          rw [← drop_drop, hrest]
      · by_cases hquestion : p = byte '?'
        · subst hquestion
          rw [if_neg hstar, if_pos rfl] at h ⊢
          exact Recorded.wildcard (ih htail (by omega) h) isWildcard_question (by omega)
        · rw [if_neg hstar, if_neg hquestion] at h ⊢
          by_cases hsame : sameCharacter caseSensitivity p ch = true
          · rw [if_pos hsame] at h ⊢
            exact (ih htail (by omega) h).character hstar hquestion (by rw [hrest, htail])
              hsame
          · rw [if_neg hsame] at h
            cases h

/-! ## Strings and masks -/

/-- Views that are not null match when the mask describes the string; and then the spans of
its wildcards have been added to the vector, in order, and put in their place they give the
string. -/
theorem matchesMask_iff (str mask : StringView) (caseSensitivity : CaseSensitivity)
    (before : List MaskSpan) (hstr : str.isNull = false) (hmask : mask.isNull = false) :
    ((matchesMask str mask caseSensitivity none).1 = true ↔
        Describes caseSensitivity mask.bytes str.bytes) ∧
      ((matchesMask str mask caseSensitivity (some before)).1 = true ↔
        Describes caseSensitivity mask.bytes str.bytes) ∧
      ((matchesMask str mask caseSensitivity (some before)).1 = true →
        ∃ spans, (matchesMask str mask caseSensitivity (some before)).2 = some (before ++ spans) ∧
          Recorded caseSensitivity mask.bytes str.bytes 0 spans) := by
  have hall : ∀ matchSpans, ∃ answer spans,
      matchesMask str mask caseSensitivity matchSpans = (answer, matchSpans.map (· ++ spans)) ∧
        (answer = true ↔ Describes caseSensitivity mask.bytes str.bytes) ∧
        (answer = true → Recorded caseSensitivity mask.bytes str.bytes 0 spans) := by
    intro matchSpans
    have hnull : ¬ (str.isNull || mask.isNull) = true := by
      rw [hstr, hmask]
      decide
    by_cases hstar : mask.bytes = [byte '*']
    · refine ⟨true, [⟨0, str.length⟩], by rw [matchesMask, if_neg hnull, if_pos hstar], ?_, ?_⟩
      · rw [hstar]
        refine iff_of_true rfl (describes_star.mpr ⟨_, Nat.le_refl _, ?_⟩)
        rw [drop_length, describes_nil]
      · intro _
        rw [hstar]
        refine Recorded.wildcard ?_ isWildcard_star (Nat.le_of_eq (Nat.zero_add _))
        rw [Nat.zero_add]
        exact recorded_nil
    · refine ⟨(matchesLoop caseSensitivity mask.bytes str.bytes 0).1,
        (matchesLoop caseSensitivity mask.bytes str.bytes 0).2,
        by rw [matchesMask, if_neg hnull, if_neg hstar], matchesLoop_iff, ?_⟩
      exact matchesLoop_recorded drop_zero (Nat.zero_le _)
  obtain ⟨answer, spans, heq, hiff, hspans⟩ := hall (some before)
  obtain ⟨answer', spans', heq', hiff', -⟩ := hall none
  rw [heq, heq']
  exact ⟨hiff', hiff, fun h => ⟨spans, rfl, hspans h⟩⟩

theorem matchesMask_iff_sample : (matchesMask ⟨1, [0x61, 0x62, 0x43], by decide, by decide⟩
        ⟨1, [byte '*', 0x63], by decide, by decide⟩ .caseInsensitive none).1 = true ↔
      Describes .caseInsensitive [byte '*', 0x63] [0x61, 0x62, 0x43] :=
  (matchesMask_iff ⟨1, [0x61, 0x62, 0x43], by decide, by decide⟩
    ⟨1, [byte '*', 0x63], by decide, by decide⟩ .caseInsensitive [] rfl rfl).1

end StringUtils

end Literate.AK

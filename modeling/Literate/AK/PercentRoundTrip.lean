import Literate.AK.Utf8RoundTrip

/-!
# AK: percent-encoding with the percent sign

The sets of `URL::percent_encode` that contain the percent sign, which no component of a URL
is serialized with.  What is encoded with one of them has no escape but its own, so decoding
gives back what the code points of the view encode: the string itself when it is in ASCII, and
otherwise not, since the view has a code point at every byte.
-/

namespace Literate.AK.URL

open Utf8View List Option

/-! ## The sets -/

/-- The sets with the percent sign. -/
inductive PercentSignSet where
  | component
  | applicationXWWWFormUrlencoded
  | encodeURI
  deriving DecidableEq, Repr

def isInComponentSet (codePoint : Nat) : Bool :=
  codePointIsInPercentEncodeSet codePoint .userinfo ||
    containsCodePoint ['$', '%', '&', '+', ','] codePoint

/-- `code_point_is_in_percent_encode_set`, of the sets with the percent sign. -/
def codePointIsInPercentSignSet (codePoint : Nat) : PercentSignSet → Bool
  | .component => isInComponentSet codePoint
  | .applicationXWWWFormUrlencoded =>
    isInComponentSet codePoint || containsCodePoint ['!', '\'', '(', ')', '~'] codePoint
  | .encodeURI =>
    decide (0x7E ≤ codePoint) ||
      !isAsciiAlphanumeric codePoint &&
        !containsCodePoint [';', ',', '/', '?', ':', '@', '&', '=', '+', '$', '-', '_', '.', '!',
          '~', '*', '\'', '(', ')', '#'] codePoint

/-- What `append_percent_encoded_if_necessary` appends, for the set of the code points for
which `isIn` is true. -/
def percentEncodedIfIn (isIn : Nat → Bool) (codePoint : Nat) : Option (List UInt8) :=
  if isIn codePoint then percentEncoded codePoint else some (appendedCodePoint codePoint)

/-- `percent_encode` of the code points of the input. -/
def percentEncodeInLoop (isIn : Nat → Bool) : List Nat → Option (List UInt8)
  | [] => some []
  | codePoint :: input => do
      let text ← percentEncodedIfIn isIn codePoint
      let rest ← percentEncodeInLoop isIn input
      some (text ++ rest)

/-- `percent_encode`; `none` when an assertion fails. -/
def percentEncodeIn (isIn : Nat → Bool) (input : List UInt8) : Option (List UInt8) :=
  percentEncodeInLoop isIn (codePoints input)

/-- A set that contains the percent sign and everything outside ASCII. -/
structure Escaping (isIn : Nat → Bool) : Prop where
  percent : isIn 0x25 = true
  large : ∀ codePoint, 0x80 ≤ codePoint → isIn codePoint = true

theorem escaping_percentSignSet (set : PercentSignSet) :
    Escaping (codePointIsInPercentSignSet · set) where
  percent := by cases set <;> decide
  large := by
    intro codePoint hlarge
    have huserinfo := isInPercentEncodeSet_of_large hlarge .userinfo
    have hcomponent : isInComponentSet codePoint = true := by
      unfold isInComponentSet
      rw [huserinfo, Bool.true_or]
    cases set with
    | component => exact hcomponent
    | applicationXWWWFormUrlencoded =>
      unfold codePointIsInPercentSignSet
      rw [hcomponent, Bool.true_or]
    | encodeURI =>
      unfold codePointIsInPercentSignSet
      rw [decide_eq_true (Nat.le_trans (by decide) hlarge), Bool.true_or]

/-! ## Decoding -/

variable {isIn : Nat → Bool}

/-- What is appended for a code point is in ASCII and decoded to its encoding. -/
theorem percentDecodeLoop_encodedIfIn (h : Escaping isIn) {codePoint : Nat} {text : List UInt8}
    (htext : percentEncodedIfIn isIn codePoint = some text) (rest : List UInt8) :
    (∀ b ∈ text, b < 0x80) ∧
      percentDecodeLoop (text ++ rest) 0 =
        appendedCodePoint codePoint ++ percentDecodeLoop rest 0 := by
  unfold percentEncodedIfIn at htext
  split at htext
  · rw [percentEncoded_eq_some htext]
    refine ⟨fun b hb => ?_, percentDecodeLoop_encoded _ rest⟩
    obtain ⟨b', -, hb'⟩ := mem_flatMap.mp hb
    exact ascii_percentEncodedByte b' b hb'
  · next hout =>
    have hlt : codePoint < 0x80 := by
      by_contra hlarge
      exact hout (h.large codePoint (Nat.le_of_not_lt hlarge))
    have hne : codePoint ≠ 0x25 := by
      intro heq
      rw [heq] at hout
      exact hout h.percent
    obtain ⟨b, hb, rfl⟩ := exists_byte hlt
    rw [appendedCodePoint_ascii hb] at htext ⊢
    cases htext
    refine ⟨forall_mem_singleton.mpr hb, ?_⟩
    rw [singleton_append, percentDecodeLoop, codePointAt_ascii hb, if_pos hne,
      appendedCodePoint_ascii hb]

theorem percentDecodeLoop_encodeIn (h : Escaping isIn) {codePoints : List Nat}
    {text : List UInt8} (htext : percentEncodeInLoop isIn codePoints = some text) :
    (∀ b ∈ text, b < 0x80) ∧
      percentDecodeLoop text 0 = codePoints.flatMap appendedCodePoint := by
  induction codePoints generalizing text with
  | nil =>
    cases htext
    exact ⟨forall_mem_nil _, rfl⟩
  | cons codePoint codePoints ih =>
    obtain ⟨first, hfirst, htext⟩ := bind_eq_some_iff.mp htext
    obtain ⟨rest, hrest, htext⟩ := bind_eq_some_iff.mp htext
    cases htext
    obtain ⟨hascii, hdecode⟩ := percentDecodeLoop_encodedIfIn h hfirst rest
    obtain ⟨hascii', hdecode'⟩ := ih hrest
    rw [hdecode, hdecode', flatMap_cons]
    exact ⟨forall_mem_append.mpr ⟨hascii, hascii'⟩, rfl⟩

theorem percentEncodeIn_some {codePoints : List Nat} (h : ∀ c ∈ codePoints, c ≤ 0x10FFFF) :
    ∃ text, percentEncodeInLoop isIn codePoints = some text := by
  induction codePoints with
  | nil => exact ⟨[], rfl⟩
  | cons codePoint codePoints ih =>
    obtain ⟨hle, hrest⟩ := forall_mem_cons.mp h
    obtain ⟨rest, hrest⟩ := ih hrest
    have hutf8 : ∃ bytes, UnicodeUtils.codePointToUtf8 codePoint = some bytes := by
      unfold UnicodeUtils.codePointToUtf8
      split_ifs <;> exact ⟨_, rfl⟩
    obtain ⟨bytes, hbytes⟩ := hutf8
    have hfirst : ∃ first, percentEncodedIfIn isIn codePoint = some first := by
      unfold percentEncodedIfIn percentEncoded
      rw [hbytes]
      split <;> exact ⟨_, rfl⟩
    obtain ⟨first, hfirst⟩ := hfirst
    rw [percentEncodeInLoop, hfirst, hrest]
    exact ⟨_, rfl⟩

/-- Encoding and decoding gives the encodings of the code points of the view. -/
theorem percentDecode_percentEncodeIn (h : Escaping isIn) {cs : List Nat}
    (hunicode : ∀ c ∈ cs, c ≤ 0x10FFFF) :
    (percentEncodeIn isIn (cs.flatMap appendedCodePoint)).map percentDecode =
      some ((codePoints (cs.flatMap appendedCodePoint)).flatMap appendedCodePoint) := by
  have hle : ∀ c ∈ codePoints (cs.flatMap appendedCodePoint), c ≤ 0x10FFFF := by
    induction cs with
    | nil => exact forall_mem_nil _
    | cons c cs ih =>
      rw [flatMap_cons]
      exact codePoints_appended_le c (ih (forall_mem_cons.mp hunicode).2)
  obtain ⟨text, htext⟩ : ∃ text, percentEncodeInLoop isIn
      (codePoints (cs.flatMap appendedCodePoint)) = some text := percentEncodeIn_some hle
  obtain ⟨hascii, hdecode⟩ := percentDecodeLoop_encodeIn h htext
  unfold percentEncodeIn
  rw [htext, map_some, percentDecode_ascii hascii, hdecode]

/-- The encoding of a code point outside ASCII is outside ASCII. -/
theorem exists_large {c : Nat} (h : 0x80 ≤ c) : ∃ b ∈ appendedCodePoint c, 0x80 ≤ b := by
  have hext := (extensionByte c).1
  unfold appendedCodePoint UnicodeUtils.codePointToUtf8
  rw [if_neg (by omega)]
  split_ifs
  · exact ⟨_, mem_cons_of_mem _ mem_cons_self, hext⟩
  · exact ⟨_, mem_cons_of_mem _ (mem_cons_of_mem _ mem_cons_self), hext⟩
  · exact ⟨_, mem_cons_of_mem _ (mem_cons_of_mem _ (mem_cons_of_mem _
      mem_cons_self)), hext⟩
  · exact ⟨0xef, mem_cons_self, by decide⟩

theorem ascii_flatMap_iff {cs : List Nat} :
    (∀ b ∈ cs.flatMap appendedCodePoint, b < 0x80) ↔ ∀ c ∈ cs, c < 0x80 := by
  constructor
  · intro hascii c hc
    by_contra hlarge
    obtain ⟨b, hb, hle⟩ := exists_large (Nat.le_of_not_lt hlarge)
    exact UInt8.not_lt.mpr hle (hascii b (mem_flatMap.mpr ⟨c, hc, hb⟩))
  · intro hascii b hb
    obtain ⟨c, hc, hmem⟩ := mem_flatMap.mp hb
    obtain ⟨b', hb', rfl⟩ := exists_byte (hascii c hc)
    rw [appendedCodePoint_ascii hb', mem_singleton] at hmem
    rw [hmem]
    exact hb'

/-- What `percent_encode` makes of a string with the set is decoded to the string. -/
def DecodesBack (set : PercentSignSet) (input : List UInt8) : Prop :=
  (percentEncodeIn (codePointIsInPercentSignSet · set) input).map percentDecode = some input

/-- A string in UTF-8 is decoded back exactly when it is in ASCII, whichever the set. -/
theorem decodesBack_iff (set : PercentSignSet) {cs : List Nat}
    (h : ∀ c ∈ cs, isUnicodeScalarValue c = true) :
    DecodesBack set (cs.flatMap appendedCodePoint) ↔ ∀ c ∈ cs, c < 0x80 := by
  have hunicode : ∀ c ∈ cs, c ≤ 0x10FFFF := fun c hc =>
    of_decide_eq_true (Bool.and_eq_true_iff.mp (h c hc)).1
  unfold DecodesBack
  rw [percentDecode_percentEncodeIn (escaping_percentSignSet set) hunicode, some_inj]
  rw [← ascii_flatMap_iff]
  exact ⟨ascii_of_flatMap_appended, flatMap_appended_ascii⟩

/-- `a%2B` with an escaped percent sign. -/
theorem decodesBack_iff_percent :
    DecodesBack .component ([0x61, 0x25, 0x32, 0x42].flatMap appendedCodePoint) ↔
      ∀ c ∈ [0x61, 0x25, 0x32, 0x42], c < 0x80 :=
  decodesBack_iff .component (by decide)

/-- The letter U+00E9 comes back with U+FFFD behind it. -/
theorem not_decodesBack_eAcute : isUnicodeScalarValue 0xE9 = true ∧
      ∀ set, ¬ DecodesBack set ([0xE9].flatMap appendedCodePoint) := by
  have hscalar : isUnicodeScalarValue 0xE9 = true := by decide
  refine ⟨hscalar, fun set hback => ?_⟩
  unfold DecodesBack at hback
  rw [percentDecode_percentEncodeIn (escaping_percentSignSet set)
    (forall_mem_singleton.mpr (by decide)), some_inj] at hback
  have hlt := ascii_flatMap_iff.mp (ascii_of_flatMap_appended hback) 0xE9 mem_cons_self
  exact absurd hlt (by decide)

end Literate.AK.URL

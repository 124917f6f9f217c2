import Literate.AK.Utf16View
import Literate.AK.Utf8Validate

/-!
# AK: well-formed UTF-16 and UTF-8

`Utf16View::validate` against the encoder: it takes a text apart into what `code_point_to_utf16`
makes of Unicode scalar values, as far as that goes.  `to_utf8` makes of any text what
`Utf8View::validate` accepts.
-/

namespace Literate.AK.Utf16View

open Foundation Computability List

/-- What `code_point_to_utf16` makes of a Unicode scalar value. -/
def utf16Chars : Language UInt16 :=
  {u | ∃ c, isUnicodeScalarValue c = true ∧ codePointToUtf16 [] c = some u}

/-- `validate` accepts the texts that consist of characters, and `valid_code_units` is the length
of the longest beginning that does. -/
def ValidatesUtf16 (units : List UInt16) : Prop :=
  ((validate ⟨units, none⟩).1 = true ↔ units ∈ utf16Chars∗) ∧
    IsGreatest {n | ∃ q, q <+: units ∧ q ∈ utf16Chars∗ ∧ q.length = n} (validate ⟨units, none⟩).2

variable {units u : List UInt16} {codeUnit : UInt16} {high low : UInt16}

/-! ## Characters -/

theorem flatMap_pieces (units : List UInt16) : (pieces units).flatMap Piece.codeUnits = units := by
  induction units using piecesInduction with
  | nil => rfl
  | pair high low rest hhigh hlow ih =>
    rw [pieces_pair hhigh hlow, flatMap_cons, ih]
    rfl
  | unit codeUnit rest hnext ih =>
    rw [pieces_unit hnext, flatMap_cons, ih]
    rfl

theorem isHighSurrogate_iff : isHighSurrogate codeUnit = true ↔
    0xd800 ≤ codeUnit.toNat ∧ codeUnit.toNat ≤ 0xdbff := by
  simp only [isHighSurrogate, decide_eq_true_iff, UInt16.le_iff_toNat_le]
  exact Iff.rfl

theorem isLowSurrogate_iff : isLowSurrogate codeUnit = true ↔
    0xdc00 ≤ codeUnit.toNat ∧ codeUnit.toNat ≤ 0xdfff := by
  simp only [isLowSurrogate, decide_eq_true_iff, UInt16.le_iff_toNat_le]
  exact Iff.rfl

/-- The encoder gives a surrogate pair back from its code point. -/
theorem pair_mem (hhigh : isHighSurrogate high = true) (hlow : isLowSurrogate low = true) :
    [high, low] ∈ utf16Chars := by
  obtain ⟨hhigh1, hhigh2⟩ := isHighSurrogate_iff.mp hhigh
  obtain ⟨hlow1, hlow2⟩ := isLowSurrogate_iff.mp hlow
  obtain ⟨upper, hupper⟩ := Nat.exists_eq_add_of_le hhigh1
  obtain ⟨lower, hlower⟩ := Nat.exists_eq_add_of_le hlow1
  have hvalue : pairValue high low = upper * 0x400 + lower + 0x10000 := by
    rw [pairValue, hupper, hlower, Nat.add_sub_cancel_left, Nat.add_sub_cancel_left,
      Nat.shiftLeft_eq]
  have hshift : (pairValue high low - 0x10000) >>> 10 = upper := by
    rw [Nat.shiftRight_eq_div_pow]
    omega
  have hmask : (pairValue high low - 0x10000) &&& 0x3ff = lower := by
    refine (Nat.and_two_pow_sub_one_eq_mod _ 10).trans ?_
    omega
  have hor : 0xd800 ||| upper = high.toNat := (or_high (by omega)).trans hupper.symm
  have hor' : 0xdc00 ||| lower = low.toNat := (or_low (by omega)).trans hlower.symm
  refine ⟨pairValue high low, ?_, ?_⟩
  · simp only [isUnicodeScalarValue, Bool.and_eq_true, Bool.not_eq_true', decide_eq_true_iff,
      decide_eq_false_iff_not]
    omega
  · rw [codePointToUtf16, if_pos (by omega), if_neg (by omega), hshift, hmask, hor, hor',
      UInt16.ofNat_toNat, UInt16.ofNat_toNat]
    rfl

theorem unit_mem (hhigh : isHighSurrogate codeUnit = false)
    (hlow : isLowSurrogate codeUnit = false) : [codeUnit] ∈ utf16Chars := by
  have hhigh' := mt isHighSurrogate_iff.mpr (Bool.eq_false_iff.mp hhigh)
  have hlow' := mt isLowSurrogate_iff.mpr (Bool.eq_false_iff.mp hlow)
  have hlt : codeUnit.toNat < 0x10000 := codeUnit.toNat_lt
  refine ⟨codeUnit.toNat, ?_, ?_⟩
  · simp only [isUnicodeScalarValue, Bool.and_eq_true, Bool.not_eq_true', decide_eq_true_iff,
      decide_eq_false_iff_not]
    omega
  · rw [codePointToUtf16, if_pos (by omega), if_pos hlt, UInt16.ofNat_toNat]
    rfl

/-- A character is cut off as a piece. -/
theorem exists_piece_of_mem (hu : u ∈ utf16Chars) : ∃ piece : Piece, piece.isLone = false ∧
    u = piece.codeUnits ∧ ∀ rest, pieces (u ++ rest) = piece :: pieces rest := by
  obtain ⟨c, hc, hu⟩ := hu
  obtain ⟨units, hunits, piece, hlone, -, hpieces⟩ := exists_piece hc
  rw [hunits, nil_append, Option.some.injEq] at hu
  subst hu
  refine ⟨piece, hlone, ?_, hpieces⟩
  rw [← flatMap_pieces units, ← append_nil units, hpieces]
  exact append_nil _

theorem prefixFree_utf16Chars : PrefixFree utf16Chars := by
  constructor
  · intro w hw hnil
    obtain ⟨piece, -, rfl, -⟩ := exists_piece_of_mem hw
    cases piece <;> cases hnil
  · intro w hw w' hw' r r' heq
    obtain ⟨piece, -, hpiece, hpieces⟩ := exists_piece_of_mem hw
    obtain ⟨piece', -, hpiece', hpieces'⟩ := exists_piece_of_mem hw'
    have hcut := hpieces r
    rw [heq, hpieces' r'] at hcut
    rw [hpiece, hpiece', (cons.inj hcut).1]

/-! ## The loop -/

/-- A surrogate on its own begins no character. -/
theorem stuck_of_lone {rest : List UInt16} (hlone : (Piece.unit codeUnit).isLone = true)
    (hnext : isHighSurrogate codeUnit = true → ∀ next ∈ rest.head?, isLowSurrogate next = false) :
    ∀ w ∈ utf16Chars, ¬ w <+: codeUnit :: rest := by
  rintro w hw ⟨r, heq⟩
  obtain ⟨piece, hpiece, -, hpieces⟩ := exists_piece_of_mem hw
  have hcut := hpieces r
  rw [heq, pieces_unit hnext] at hcut
  rw [← (cons.inj hcut).1, hlone] at hpiece
  cases hpiece

theorem validateFrom_spec (units : List UInt16) (n : Nat) : ∃ p rest,
    Parsed utf16Chars units p rest ∧ validateFrom units n = (decide (rest = []), n + p.length) := by
  induction units using piecesInduction generalizing n with
  | nil => exact ⟨[], [], .of_nil prefixFree_utf16Chars, rfl⟩
  | pair high low rest hhigh hlow ih =>
    obtain ⟨p, left, hparsed, hvalid⟩ := ih (n + 1 + 1)
    refine ⟨[high, low] ++ p, left, .cons (pair_mem hhigh hlow) hparsed, ?_⟩
    rw [validateFrom, if_pos hhigh, if_pos hlow, hvalid, length_append]
    exact congrArg (Prod.mk _) (Nat.add_assoc n 2 p.length)
  | unit codeUnit rest hnext ih =>
    cases hlone : (Piece.unit codeUnit).isLone with
    | true =>
      refine ⟨[], codeUnit :: rest, .of_stuck (stuck_of_lone hlone hnext), ?_⟩
      cases hhigh : isHighSurrogate codeUnit with
      | true =>
        cases rest with
        | nil => simp [validateFrom, hhigh]
        | cons next rest => simp [validateFrom, hhigh, hnext hhigh next rfl]
      | false =>
        have hlow : isLowSurrogate codeUnit = true := by
          rwa [Piece.isLone, hhigh, Bool.false_or] at hlone
        cases rest <;> simp [validateFrom, hhigh, hlow]
    | false =>
      obtain ⟨hhigh, hlow⟩ := Bool.or_eq_false_iff.mp hlone
      obtain ⟨p, left, hparsed, hvalid⟩ := ih (n + 1)
      refine ⟨[codeUnit] ++ p, left, .cons (unit_mem hhigh hlow) hparsed, ?_⟩
      rw [length_append, length_singleton, ← Nat.add_assoc, ← hvalid]
      cases rest <;> simp [validateFrom, hhigh, hlow]

/-- For every sequence of code units. -/
theorem validatesUtf16 (units : List UInt16) : ValidatesUtf16 units := by
  obtain ⟨p, rest, hparsed, hvalidate⟩ := validateFrom_spec units 0
  rw [Nat.zero_add] at hvalidate
  rw [ValidatesUtf16, validate, hvalidate]
  exact ⟨by rw [decide_eq_true_iff, hparsed.mem_kstar_iff prefixFree_utf16Chars],
    hparsed.isGreatest prefixFree_utf16Chars⟩

/-! ## What `to_utf8` writes -/

theorem toNat_masked (k n offset : Nat)
    (h : ∀ m < 2 ^ k, (UInt8.ofNat (m ||| offset)).toNat = m + offset) :
    (UInt8.ofNat (n &&& (2 ^ k - 1) ||| offset)).toNat = n % 2 ^ k + offset := by
  rw [Nat.and_two_pow_sub_one_eq_mod]
  exact h _ (Nat.mod_lt n (Nat.two_pow_pos k))

/-- Whatever is appended but a surrogate is a character of RFC 3629. -/
theorem isUtf8Char_appendedCodePoint {c : Nat} (h : ¬ (0xD800 ≤ c ∧ c ≤ 0xDFFF)) :
    Utf8View.IsUtf8Char (appendedCodePoint c) := by
  have hext := fun n => Utf8View.extensionByte n
  have hnext : ∀ n, (UInt8.ofNat (n &&& 0x3f ||| 0x80)).toNat = n % 64 + 0x80 :=
    fun n => toNat_masked 6 n 0x80 (by decide)
  have htwo : (UInt8.ofNat (c / 64 &&& 0x1f ||| 0xc0)).toNat = c / 64 % 32 + 0xc0 :=
    toNat_masked 5 _ 0xc0 (by decide)
  have hthree : (UInt8.ofNat (c / 4096 &&& 0x0f ||| 0xe0)).toNat = c / 4096 % 16 + 0xe0 :=
    toNat_masked 4 _ 0xe0 (by decide)
  have hfour : (UInt8.ofNat (c / 262144 &&& 0x07 ||| 0xf0)).toNat = c / 262144 % 8 + 0xf0 :=
    toNat_masked 3 _ 0xf0 (by decide)
  rw [appendedCodePoint, UnicodeUtils.codePointToUtf8]
  simp only [Nat.shiftRight_eq_div_pow, Nat.reducePow]
  split_ifs with h1 h2 h3 h4
  · refine .one ?_
    rw [UInt8.toNat_ofNat']
    omega
  · refine .two ?_ (hext _)
    omega
  · have hsecond := hnext (c / 64)
    refine .three ?_ (hext _) (hext _) ?_ ?_ <;> omega
  · have hsecond := hnext (c / 4096)
    refine .four ?_ (hext _) (hext _) (hext _) ?_ ?_ <;> omega
  · have hbf : (0x80 : UInt8) ≤ 0xbf ∧ (0xbf : UInt8) < 0xC0 := ⟨by decide, by decide⟩
    have hbd : (0x80 : UInt8) ≤ 0xbd ∧ (0xbd : UInt8) < 0xC0 := ⟨by decide, by decide⟩
    exact .three (by decide) hbf hbd (by decide) (by decide)

theorem isUtf8Char_codePoint (piece : Piece) :
    Utf8View.IsUtf8Char (appendedCodePoint piece.codePoint) := by
  refine isUtf8Char_appendedCodePoint ?_
  rw [Piece.codePoint]
  cases piece with
  | unit codeUnit =>
    split
    · decide
    · next hlone =>
      rw [Piece.isLone, Bool.or_eq_true, isHighSurrogate_iff, isLowSurrogate_iff] at hlone
      rw [Piece.value]
      omega
  | pair high low hhigh hlow =>
    have hlarge := pairValue_gt high low
    rw [Piece.isLone, if_neg Bool.false_ne_true, Piece.value]
    omega

/-- `Utf8View::validate` goes over all of a well-formed text. -/
theorem validate_of_mem_kstar {bytes : List UInt8} (h : bytes ∈ Utf8View.utf8Chars∗) :
    Utf8View.validate bytes = (true, bytes.length) := by
  obtain ⟨p, rest, hparsed, hvalidate⟩ := Utf8View.validate_spec bytes
  obtain ⟨words, hflatten, hwords⟩ := h
  have hrest := (hparsed.mem_kstar_iff Utf8View.prefixFree_sequences).mp
    ⟨words, hflatten, fun w hw => Utf8View.mem_sequences_of_utf8Chars w (hwords w hw)⟩
  have hsplit := hparsed.split
  rw [hrest, append_nil] at hsplit
  rw [hvalidate, hrest, hsplit, decide_eq_true rfl]

/-- For every text `to_utf8` writes well-formed UTF-8 when it allows no invalid code units, and
`Utf8View::validate` goes over all of it. -/
theorem toUtf8_wellFormed (view : Utf16View) : ∃ bytes, view.toUtf8 .no = some bytes ∧
    bytes ∈ Utf8View.utf8Chars∗ ∧ Utf8View.validate bytes = (true, bytes.length) := by
  have hwords : ((pieces view.mCodeUnits).flatMap fun piece => appendedCodePoint piece.codePoint) ∈
      Utf8View.utf8Chars∗ :=
    Language.join_mem_kstar (forall_mem_map.mpr fun piece _ => isUtf8Char_codePoint piece)
  refine ⟨_, ?_, hwords, validate_of_mem_kstar hwords⟩
  rw [toUtf8, if_neg (by decide), forEach_eq, foldl_map, flatMap_eq_foldl]

end Literate.AK.Utf16View

import Literate.AK.Utf8RoundTrip
import Literate.Foundation.PrefixCodes

/-!
# AK: validation of UTF-8

`Utf8View::validate` looks at the bit patterns of the bytes and at the largest code point.  So
it takes a text apart into sequences of a first byte and the extension bytes that it asks for.
Some of these are no characters of RFC 3629: a code point that is encoded in more bytes than it
needs, and a surrogate.
-/

namespace Literate.AK

open Foundation Computability List Option

set_option maxRecDepth 8192

def isUnicode (codePoint : Nat) : Bool := decide (codePoint ≤ 0x10FFFF)

variable {b a : UInt8} {bytes c p : List UInt8}

namespace Utf8View

/-- The inner loop of `validate`, with `count` extension bytes to come: the code point and the
bytes after it. -/
def validateExtension : (count : Nat) → List UInt8 → (codePoint : Nat) →
    Option (Nat × List UInt8)
  | 0, bytes, codePoint => some (codePoint, bytes)
  | _ + 1, [], _ => none
  | count + 1, b :: bytes, codePoint =>
    if b >>> 6 ≠ 2 then none
    else validateExtension count bytes ((codePoint <<< 6) ||| (b &&& 63).toNat)

/-- One pass through the loop of `validate`: the length of the code point and the bytes after
it. -/
def validateStep (b : UInt8) (rest : List UInt8) : Option (Nat × List UInt8) := do
  let (codePoint, codePointLength) ← decodeFirstByte b
  let (codePoint, bytes) ← validateExtension (codePointLength - 1) rest codePoint
  if isUnicode codePoint then some (codePointLength, bytes) else none

/-! ## Sequences -/

/-- What one pass goes over. -/
def sequences : Language UInt8 :=
  {c | ∃ b tail value, c = b :: tail ∧ decodeFirstByte b = some (value, tail.length + 1) ∧
    (∀ x ∈ tail, IsExtension x) ∧ isUnicode (extend tail value) = true}

theorem isExtension_of_high (h : b >>> 6 = 2) : IsExtension b := by
  revert h
  unfold IsExtension
  exact forall_byte (P := fun b => b >>> 6 = 2 → 0x80 ≤ b ∧ b < 0xC0) (by decide) b

theorem length_pos_of_decodeFirstByte {value length : Nat}
    (h : decodeFirstByte b = some (value, length)) : 0 < length := by
  have hall : ∀ n < 256, ∀ r ∈ decodeFirstByte (UInt8.ofNat n), 0 < r.2 := by decide
  exact forall_byte (P := fun b => ∀ r ∈ decodeFirstByte b, 0 < r.2) hall b _ h

theorem validateExtension_eq_some {count codePoint codePoint' : Nat} {rest : List UInt8}
    (h : validateExtension count bytes codePoint = some (codePoint', rest)) :
    ∃ tail, bytes = tail ++ rest ∧ tail.length = count ∧ (∀ x ∈ tail, IsExtension x) ∧
      extend tail codePoint = codePoint' := by
  induction count generalizing bytes codePoint with
  | zero =>
    cases h
    exact ⟨[], rfl, rfl, forall_mem_nil _, rfl⟩
  | succ count ih =>
    cases bytes with
    | nil => cases h
    | cons b bytes =>
      rw [validateExtension] at h
      split_ifs at h with hb
      obtain ⟨tail, hsplit, hlength, htail, hvalue⟩ := ih h
      refine ⟨b :: tail, by rw [hsplit, List.cons_append], by rw [length_cons, hlength],
        forall_mem_cons.mpr ⟨isExtension_of_high (not_not.mp hb), htail⟩, ?_⟩
      rw [extend, if_neg hb]
      exact hvalue

theorem validateExtension_append {tail : List UInt8} (h : ∀ x ∈ tail, IsExtension x)
    (rest : List UInt8) (codePoint : Nat) :
    validateExtension tail.length (tail ++ rest) codePoint = some (extend tail codePoint, rest) := by
  induction tail generalizing codePoint with
  | nil => rfl
  | cons b tail ih =>
    obtain ⟨hb, htail⟩ := forall_mem_cons.mp h
    simp only [length_cons, List.cons_append, validateExtension, if_neg (not_not.mpr hb.high),
      extend]
    exact ih htail _

theorem validateStep_sound {rest : List UInt8} {length : Nat}
    (h : validateStep b rest = some (length, bytes)) :
    ∃ c ∈ sequences, b :: rest = c ++ bytes ∧ c.length = length := by
  unfold validateStep at h
  simp only [bind_eq_bind, bind_eq_some_iff] at h
  obtain ⟨⟨value, codePointLength⟩, hfirst, ⟨codePoint, bytes'⟩, hextension, h⟩ := h
  dsimp only at hextension h
  split_ifs at h with hunicode
  cases h
  obtain ⟨tail, rfl, hlength, htail, rfl⟩ := validateExtension_eq_some hextension
  have hpos := length_pos_of_decodeFirstByte hfirst
  have hcount : tail.length + 1 = length := by omega
  exact ⟨b :: tail, ⟨b, tail, value, rfl, hcount.symm ▸ hfirst, htail, hunicode⟩, rfl, hcount⟩

theorem validateStep_complete (h : c ∈ sequences) (bytes : List UInt8) :
    ∃ b rest, c ++ bytes = b :: rest ∧ validateStep b rest = some (c.length, bytes) := by
  obtain ⟨b, tail, value, rfl, hfirst, htail, hunicode⟩ := h
  refine ⟨b, tail ++ bytes, rfl, ?_⟩
  unfold validateStep
  simp only [hfirst, bind_eq_bind, bind_some, Nat.add_sub_cancel,
    validateExtension_append htail, length_cons]
  exact if_pos hunicode

/-- The first byte of a sequence says where it ends. -/
theorem prefixFree_sequences : PrefixFree sequences where
  ne_nil := by
    rintro w ⟨b, tail, value, rfl, -⟩
    exact cons_ne_nil b tail
  eq_of_append := by
    rintro w ⟨b, tail, value, rfl, hfirst, -⟩ w' ⟨b', tail', value', rfl, hfirst', -⟩ r r' heq
    simp only [List.cons_append, List.cons.injEq] at heq
    obtain ⟨rfl, htails⟩ := heq
    rw [hfirst, some.injEq, Prod.mk.injEq] at hfirst'
    rw [(append_inj htails (Nat.succ_injective hfirst'.2)).1]

/-! ## The loop -/

theorem length_validateStep {rest : List UInt8} {length : Nat}
    (h : validateStep b rest = some (length, bytes)) : bytes.length < (b :: rest).length := by
  obtain ⟨c, hc, hsplit, -⟩ := validateStep_sound h
  have hpos := length_pos_of_ne_nil (prefixFree_sequences.ne_nil c hc)
  rw [hsplit, length_append]
  omega

/-- The loop of `validate`: whether the text is valid, and `valid_bytes`. -/
def validateLoop (bytes : List UInt8) (validBytes : Nat) : Bool × Nat :=
  match bytes with
  | [] => (true, validBytes)
  | b :: rest =>
    match _ : validateStep b rest with
    | none => (false, validBytes)
    | some (codePointLength, bytes) => validateLoop bytes (validBytes + codePointLength)
termination_by bytes.length
decreasing_by exact length_validateStep ‹_›

def validate (bytes : List UInt8) : Bool × Nat := validateLoop bytes 0

theorem validateLoop_of_none {rest : List UInt8} (h : validateStep b rest = none)
    (validBytes : Nat) : validateLoop (b :: rest) validBytes = (false, validBytes) := by
  rw [validateLoop]
  split
  · rfl
  · next hsome => rw [h] at hsome; cases hsome

theorem validateLoop_of_some {rest : List UInt8} {length : Nat}
    (h : validateStep b rest = some (length, bytes)) (validBytes : Nat) :
    validateLoop (b :: rest) validBytes = validateLoop bytes (validBytes + length) := by
  rw [validateLoop]
  split
  · next hnone => rw [h] at hnone; cases hnone
  · next hsome =>
    rw [h] at hsome
    cases hsome
    rfl

/-- The loop goes over all sequences that the text begins with. -/
theorem validateLoop_spec (bytes : List UInt8) : ∃ p rest, Parsed sequences bytes p rest ∧
      ∀ validBytes, validateLoop bytes validBytes = (decide (rest = []), validBytes + p.length) := by
  induction hlength : bytes.length using Nat.strongRecOn generalizing bytes with
  | ind n ih =>
    cases bytes with
    | nil =>
      refine ⟨[], [], Parsed.of_nil prefixFree_sequences, fun validBytes => ?_⟩
      rw [validateLoop]
      rfl
    | cons b rest =>
      cases hstep : validateStep b rest with
      | none =>
        refine ⟨[], b :: rest, Parsed.of_stuck fun w hw hprefix => ?_, fun validBytes =>
          validateLoop_of_none hstep validBytes⟩
        obtain ⟨bytes, hsplit⟩ := hprefix
        obtain ⟨b', rest', heq, hsome⟩ := validateStep_complete hw bytes
        rw [hsplit] at heq
        cases heq
        rw [hstep] at hsome
        cases hsome
      | some r =>
        obtain ⟨length, bytes⟩ := r
        obtain ⟨c, hc, hsplit, rfl⟩ := validateStep_sound hstep
        obtain ⟨p, left, hparsed, hloop⟩ :=
          ih bytes.length (hlength ▸ length_validateStep hstep) bytes rfl
        refine ⟨c ++ p, left, hsplit ▸ hparsed.cons hc, fun validBytes => ?_⟩
        rw [validateLoop_of_some hstep, hloop, length_append, Nat.add_assoc]

theorem validate_spec (bytes : List UInt8) :
    ∃ p rest, Parsed sequences bytes p rest ∧ validate bytes = (decide (rest = []), p.length) := by
  obtain ⟨p, rest, hparsed, hloop⟩ := validateLoop_spec bytes
  exact ⟨p, rest, hparsed, by rw [validate, hloop, Nat.zero_add]⟩

/-! ## Characters -/

/-- The characters of RFC 3629. -/
inductive IsUtf8Char : List UInt8 → Prop
  | one {a : UInt8} (ha : a.toNat ≤ 0x7F) : IsUtf8Char [a]
  | two {a b : UInt8} (ha : 0xC2 ≤ a.toNat ∧ a.toNat ≤ 0xDF) (hb : IsExtension b) :
      IsUtf8Char [a, b]
  | three {a b c : UInt8} (ha : 0xE0 ≤ a.toNat ∧ a.toNat ≤ 0xEF) (hb : IsExtension b)
      (hc : IsExtension c) (hlow : a.toNat = 0xE0 → 0xA0 ≤ b.toNat)
      (hhigh : a.toNat = 0xED → b.toNat ≤ 0x9F) : IsUtf8Char [a, b, c]
  | four {a b c d : UInt8} (ha : 0xF0 ≤ a.toNat ∧ a.toNat ≤ 0xF4) (hb : IsExtension b)
      (hc : IsExtension c) (hd : IsExtension d) (hlow : a.toNat = 0xF0 → 0x90 ≤ b.toNat)
      (hhigh : a.toNat = 0xF4 → b.toNat ≤ 0x8F) : IsUtf8Char [a, b, c, d]

/-- Sequences that are longer than their code point needs. -/
inductive IsOverlong : List UInt8 → Prop
  | two {a b : UInt8} (ha : a.toNat = 0xC0 ∨ a.toNat = 0xC1) (hb : IsExtension b) :
      IsOverlong [a, b]
  | three {a b c : UInt8} (ha : a.toNat = 0xE0) (hb : IsExtension b) (hlow : b.toNat ≤ 0x9F)
      (hc : IsExtension c) : IsOverlong [a, b, c]
  | four {a b c d : UInt8} (ha : a.toNat = 0xF0) (hb : IsExtension b) (hlow : b.toNat ≤ 0x8F)
      (hc : IsExtension c) (hd : IsExtension d) : IsOverlong [a, b, c, d]

/-- The encodings of U+D800 to U+DFFF. -/
inductive IsSurrogate : List UInt8 → Prop
  | three {a b c : UInt8} (ha : a.toNat = 0xED) (hb : IsExtension b) (hhigh : 0xA0 ≤ b.toNat)
      (hc : IsExtension c) : IsSurrogate [a, b, c]

/-- The characters of RFC 3629, as a code. -/
def utf8Chars : Language UInt8 := {c | IsUtf8Char c}

theorem isExtension_iff : IsExtension b ↔ 0x80 ≤ b.toNat ∧ b.toNat ≤ 0xBF := by
  unfold IsExtension
  rw [UInt8.le_iff_toNat_le, UInt8.lt_iff_toNat_lt]
  exact and_congr_right fun _ => Nat.lt_succ_iff

theorem decodeFirstByte_eq (b : UInt8) : decodeFirstByte b =
      if b.toNat ≤ 0x7F then some (b.toNat, 1)
      else if b.toNat ≤ 0xBF then none
      else if b.toNat ≤ 0xDF then some (b.toNat - 0xC0, 2)
      else if b.toNat ≤ 0xEF then some (b.toNat - 0xE0, 3)
      else if b.toNat ≤ 0xF7 then some (b.toNat - 0xF0, 4)
      else none :=
  forall_byte (P := fun b => decodeFirstByte b =
    if b.toNat ≤ 0x7F then some (b.toNat, 1)
    else if b.toNat ≤ 0xBF then none
    else if b.toNat ≤ 0xDF then some (b.toNat - 0xC0, 2)
    else if b.toNat ≤ 0xEF then some (b.toNat - 0xE0, 3)
    else if b.toNat ≤ 0xF7 then some (b.toNat - 0xF0, 4)
    else none) (by decide) b

theorem extend_cons (h : IsExtension b) (tail : List UInt8) (value : Nat) :
    extend (b :: tail) value = extend tail (64 * value + (b.toNat - 0x80)) := by
  have hall : ∀ n < 256, IsExtension (UInt8.ofNat n) →
      (UInt8.ofNat n &&& 63).toNat = (UInt8.ofNat n).toNat - 0x80 := by
    unfold IsExtension
    decide
  have hlow := forall_byte (P := fun b => IsExtension b → (b &&& 63).toNat = b.toNat - 0x80) hall b h
  have hrange := isExtension_iff.mp h
  rw [extend, if_neg (not_not.mpr h.high), hlow, shiftLeft_or value (by omega)]

theorem two_mem_sequences (ha : 0xC0 ≤ a.toNat ∧ a.toNat ≤ 0xDF) (hb : IsExtension b) :
    [a, b] ∈ sequences := by
  have hrange := isExtension_iff.mp hb
  refine ⟨a, [b], a.toNat - 0xC0, rfl, ?_, forall_mem_singleton.mpr hb, decide_eq_true ?_⟩
  · rw [decodeFirstByte_eq, if_neg (by omega), if_neg (by omega), if_pos ha.2]
    rfl
  · rw [extend_cons hb, extend]
    omega

theorem three_mem_sequences {c : UInt8} (ha : 0xE0 ≤ a.toNat ∧ a.toNat ≤ 0xEF)
    (hb : IsExtension b) (hc : IsExtension c) : [a, b, c] ∈ sequences := by
  have hrange := isExtension_iff.mp hb
  have hrange' := isExtension_iff.mp hc
  refine ⟨a, [b, c], a.toNat - 0xE0, rfl, ?_,
    forall_mem_cons.mpr ⟨hb, forall_mem_singleton.mpr hc⟩, decide_eq_true ?_⟩
  · rw [decodeFirstByte_eq, if_neg (by omega), if_neg (by omega), if_neg (by omega), if_pos ha.2]
    rfl
  · rw [extend_cons hb, extend_cons hc, extend]
    omega

theorem four_mem_sequences {c d : UInt8} (ha : 0xF0 ≤ a.toNat ∧ a.toNat ≤ 0xF4) (hb : IsExtension b)
    (hc : IsExtension c) (hd : IsExtension d) (hhigh : a.toNat = 0xF4 → b.toNat ≤ 0x8F) :
    [a, b, c, d] ∈ sequences := by
  have hrange := isExtension_iff.mp hb
  have hrange' := isExtension_iff.mp hc
  have hrange'' := isExtension_iff.mp hd
  refine ⟨a, [b, c, d], a.toNat - 0xF0, rfl, ?_, forall_mem_cons.mpr ⟨hb,
    forall_mem_cons.mpr ⟨hc, forall_mem_singleton.mpr hd⟩⟩, decide_eq_true ?_⟩
  · rw [decodeFirstByte_eq, if_neg (by omega), if_neg (by omega), if_neg (by omega),
      if_neg (by omega), if_pos (by omega)]
    rfl
  · rw [extend_cons hb, extend_cons hc, extend_cons hd, extend]
    omega

/-- What `validate` lets pass: the characters, and those forms that are none. -/
theorem mem_sequences_iff : c ∈ sequences ↔ IsUtf8Char c ∨ IsOverlong c ∨ IsSurrogate c := by
  constructor
  · rintro ⟨a, tail, value, rfl, hfirst, htail, hunicode⟩
    have hle : extend tail value ≤ 0x10FFFF := of_decide_eq_true hunicode
    rw [decodeFirstByte_eq] at hfirst
    split_ifs at hfirst with hone hnone htwo hthree hfour <;>
      obtain ⟨rfl, hlength⟩ := Prod.mk.inj (some.inj hfirst)
    · obtain rfl : tail = [] := eq_nil_of_length_eq_zero (by omega)
      exact .inl (.one hone)
    · obtain ⟨b, rfl⟩ := length_eq_one_iff.mp (by omega : tail.length = 1)
      have hb := forall_mem_singleton.mp htail
      by_cases hlow : a.toNat ≤ 0xC1
      · exact .inr (.inl (.two (by omega) hb))
      · exact .inl (.two (by omega) hb)
    · obtain ⟨b, c, rfl⟩ := length_eq_two.mp (by omega : tail.length = 2)
      obtain ⟨hb, hrest⟩ := forall_mem_cons.mp htail
      have hc := forall_mem_singleton.mp hrest
      by_cases hlow : a.toNat = 0xE0 ∧ b.toNat ≤ 0x9F
      · exact .inr (.inl (.three hlow.1 hb hlow.2 hc))
      by_cases hhigh : a.toNat = 0xED ∧ 0xA0 ≤ b.toNat
      · exact .inr (.inr (.three hhigh.1 hb hhigh.2 hc))
      · exact .inl (.three (by omega) hb hc (by omega) (by omega))
    · obtain ⟨b, c, d, rfl⟩ := length_eq_three.mp (by omega : tail.length = 3)
      obtain ⟨hb, hrest⟩ := forall_mem_cons.mp htail
      obtain ⟨hc, hrest⟩ := forall_mem_cons.mp hrest
      have hd := forall_mem_singleton.mp hrest
      have hrange := isExtension_iff.mp hb
      rw [extend_cons hb, extend_cons hc, extend_cons hd, extend] at hle
      by_cases hlow : a.toNat = 0xF0 ∧ b.toNat ≤ 0x8F
      · exact .inr (.inl (.four hlow.1 hb hlow.2 hc hd))
      · exact .inl (.four (by omega) hb hc hd (by omega) (by omega))
  · rintro (hchar | hoverlong | hsurrogate)
    · cases hchar with
      | one ha =>
        refine ⟨_, [], _, rfl, (decodeFirstByte_eq _).trans (if_pos ha), forall_mem_nil _,
          decide_eq_true ?_⟩
        rw [extend]
        omega
      | two ha hb => exact two_mem_sequences (by omega) hb
      | three ha hb hc _ _ => exact three_mem_sequences ha hb hc
      | four ha hb hc hd _ hhigh => exact four_mem_sequences ha hb hc hd hhigh
    · cases hoverlong with
      | two ha hb => exact two_mem_sequences (by omega) hb
      | three ha hb _ hc => exact three_mem_sequences (by omega) hb hc
      | four ha hb _ hc hd => exact four_mem_sequences (by omega) hb hc hd (by omega)
    · cases hsurrogate with
      | three ha hb _ hc => exact three_mem_sequences (by omega) hb hc

theorem mem_sequences_of_utf8Chars : ∀ c ∈ utf8Chars, c ∈ sequences :=
  fun _ hc => mem_sequences_iff.mpr (.inl hc)

theorem not_isUtf8Char (h : IsOverlong c ∨ IsSurrogate c) : ¬ IsUtf8Char c := by
  intro hchar
  rcases h with hoverlong | hsurrogate
  · cases hoverlong with
    | two ha _ =>
      cases hchar with
      | two ha' _ => omega
    | three ha _ hlow _ =>
      cases hchar with
      | three _ _ _ hlow' _ => have := hlow' ha; omega
    | four ha _ hlow _ _ =>
      cases hchar with
      | four _ _ _ _ hlow' _ => have := hlow' ha; omega
  · cases hsurrogate with
    | three ha _ hhigh _ =>
      cases hchar with
      | three _ _ _ _ hhigh' => have := hhigh' ha; omega

/-! ## What is validated -/

/-- `validate` accepts the texts that consist of characters, and `valid_bytes` is the length of
the longest beginning that does. -/
def ValidatesUtf8 (bytes : List UInt8) : Prop :=
  ((validate bytes).1 = true ↔ bytes ∈ utf8Chars∗) ∧
    IsGreatest {n | ∃ q, q <+: bytes ∧ q ∈ utf8Chars∗ ∧ q.length = n} (validate bytes).2

/-- `validate` is right exactly when it goes over characters only. -/
theorem validatesUtf8_iff_parsed {rest : List UInt8} (hparsed : Parsed sequences bytes p rest)
    (hvalidate : validate bytes = (decide (rest = []), p.length)) :
    ValidatesUtf8 bytes ↔ Parsed utf8Chars bytes p rest := by
  have hchars : PrefixFree utf8Chars := prefixFree_sequences.mono mem_sequences_of_utf8Chars
  rw [ValidatesUtf8, hvalidate]
  constructor
  · rintro ⟨-, ⟨q, ⟨r, hsplit⟩, hq, hlength⟩, -⟩
    obtain ⟨rfl, -⟩ := append_inj (hsplit.trans hparsed.split) hlength
    exact ⟨hparsed.split, hq, fun w hw =>
      hparsed.stuck w (mem_sequences_of_utf8Chars w hw)⟩
  · intro h
    exact ⟨by rw [decide_eq_true_iff, h.mem_kstar_iff hchars], h.isGreatest hchars⟩

/-- It does exactly when no overlong form and no surrogate comes after characters. -/
theorem parsed_utf8Chars_iff {rest : List UInt8} (h : Parsed sequences bytes p rest) :
    Parsed utf8Chars bytes p rest ↔ ∀ q d r, bytes = q ++ d ++ r → q ∈ utf8Chars∗ →
      ¬ (IsOverlong d ∨ IsSurrogate d) := by
  rw [h.mono_iff prefixFree_sequences mem_sequences_of_utf8Chars]
  refine forall₃_congr fun q d r => forall₂_congr fun _ _ => ⟨fun h hform => ?_, fun h hd => ?_⟩
  · exact not_isUtf8Char hform (h (mem_sequences_iff.mpr (.inr hform)))
  · exact (mem_sequences_iff.mp hd).resolve_right h

/-- `validate` is right exactly when no overlong form and no surrogate comes after characters. -/
theorem validatesUtf8_iff (bytes : List UInt8) :
    ValidatesUtf8 bytes ↔ ∀ q d r, bytes = q ++ d ++ r → q ∈ utf8Chars∗ →
      ¬ (IsOverlong d ∨ IsSurrogate d) := by
  obtain ⟨p, rest, hparsed, hvalidate⟩ := validate_spec bytes
  rw [validatesUtf8_iff_parsed hparsed hvalidate, parsed_utf8Chars_iff hparsed]

/-- NUL in two bytes. -/
theorem not_validatesUtf8_overlong : ¬ ValidatesUtf8 [0xC0, 0x80] := by
  obtain ⟨p, rest, hparsed, hvalidate⟩ := validate_spec [0xC0, 0x80]
  rw [validatesUtf8_iff_parsed hparsed hvalidate, parsed_utf8Chars_iff hparsed]
  intro h
  refine h [] [0xC0, 0x80] [] rfl (Language.nil_mem_kstar _) (.inl (.two (.inl rfl) ?_))
  unfold IsExtension
  decide

end Utf8View

end Literate.AK

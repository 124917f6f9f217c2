import Literate.AK.URL

/-!
# AK: decoding what has been percent-encoded

A component of a URL is serialized by `percent_encode` and read back through
`percent_decode`.  What comes of it is a function `decoded` of the component's code points,
whatever the percent-encode set.  It gives the component back exactly when the component is
`Plain`: in ASCII, and without a percent sign that two hexadecimal digits follow.
-/

namespace Literate.AK.URL

open Utf8View List Option
open UnicodeUtils (codePointToUtf8)

/-! ## Escapes among code points -/

/-- The byte of two hexadecimal digits. -/
def hexByte (high low : Nat) : Option UInt8 := do
  if isAsciiHexDigit high && isAsciiHexDigit low then
    some (UInt8.ofNat ((← parseAsciiHexDigit high) <<< 4) + UInt8.ofNat (← parseAsciiHexDigit low))
  else none

/-- The byte of the first two code points. -/
def digitsByte : List Nat → Option UInt8
  | high :: low :: _ => hexByte high low
  | _ => none

/-- The byte of the escape that the code point `c` begins. -/
def escape (c : Nat) (rest : List Nat) : Option UInt8 :=
  if c = 0x25 then digitsByte rest else none

def hasEscape : List Nat → Bool
  | [] => false
  | c :: rest => (escape c rest).isSome || hasEscape rest

/-- The bytes of code points, of which `skip` have been read, with escapes decoded. -/
def decodedLoop : List Nat → (skip : Nat) → List UInt8
  | [], _ => []
  | _ :: rest, skip + 1 => decodedLoop rest skip
  | c :: rest, 0 =>
    match escape c rest with
    | none => appendedCodePoint c ++ decodedLoop rest 0
    | some b => b :: decodedLoop rest 2

def decoded (codePoints : List Nat) : List UInt8 := decodedLoop codePoints 0

variable {c low : Nat} {b : UInt8} {text text' encoding component : List UInt8}

theorem escape_eq_some {rest : List Nat} (h : escape c rest = some b) :
    c = 0x25 ∧ ∃ high low rest', rest = high :: low :: rest' ∧ hexByte high low = some b := by
  unfold escape at h
  split at h
  · next hc =>
    unfold digitsByte at h
    split at h
    · next high low rest' => exact ⟨hc, high, low, rest', rfl, h⟩
    · cases h
  · cases h

theorem hexByte_isHex {high : Nat} (h : hexByte high low = some b) :
    isAsciiHexDigit high = true ∧ isAsciiHexDigit low = true := by
  rw [hexByte] at h
  split at h
  · next hhex => exact Bool.and_eq_true_iff.mp hhex
  · cases h

theorem isAsciiHexDigit_lt (h : isAsciiHexDigit c = true) : c < 0x80 := by
  simp only [isAsciiHexDigit, isAsciiDigit, Bool.or_eq_true, decide_eq_true_eq] at h
  omega

/-- Code points are read one by one, but for the three of an escape. -/
theorem escapeInduction {motive : List Nat → Prop} (nil : motive [])
    (code : ∀ c rest, escape c rest = none → motive rest → motive (c :: rest))
    (escaped : ∀ high low rest b, hexByte high low = some b → motive rest →
      motive (0x25 :: high :: low :: rest)) (codePoints : List Nat) : motive codePoints := by
  match codePoints with
  | [] => exact nil
  | c :: rest =>
    match h : escape c rest with
    | none => exact code c rest h (escapeInduction nil code escaped rest)
    | some b =>
      obtain ⟨rfl, high, low, rest', rfl, hb⟩ := escape_eq_some h
      exact escaped high low rest' b hb (escapeInduction nil code escaped rest')
termination_by codePoints.length

@[simp] theorem decoded_nil : decoded [] = [] := rfl

theorem decoded_code {rest : List Nat} (h : escape c rest = none) :
    decoded (c :: rest) = appendedCodePoint c ++ decoded rest := by
  rw [decoded, decodedLoop, h]
  rfl

theorem decoded_escaped {high : Nat} (h : hexByte high low = some b) (rest : List Nat) :
    decoded (0x25 :: high :: low :: rest) = b :: decoded rest := by
  have hescape : escape 0x25 (high :: low :: rest) = some b := h
  rw [decoded, decodedLoop, hescape]
  rfl

/-! ## Texts -/

/-- A text that stands for code points: each as itself, or percent-encoded. -/
inductive Text : List UInt8 → List Nat → Prop
  | nil : Text [] []
  | plain {b : UInt8} {text : List UInt8} {codePoints : List Nat} (hb : b < 0x80) :
      Text text codePoints → Text (b :: text) (b.toNat :: codePoints)
  | encoded {c : Nat} {encoding text : List UInt8} {codePoints : List Nat}
      (hencoding : percentEncoded c = some encoding)
      (hhex : isAsciiHexDigit c = false) (hpercent : c ≠ 0x25) :
      Text text codePoints → Text (encoding ++ text) (c :: codePoints)

theorem Text.append {codePoints codePoints' : List Nat}
    (h : Text text codePoints) (h' : Text text' codePoints') :
    Text (text ++ text') (codePoints ++ codePoints') := by
  induction h with
  | nil => exact h'
  | plain hb _ ih => exact .plain hb ih
  | encoded hencoding hhex hpercent _ ih =>
    rw [List.append_assoc]
    exact .encoded hencoding hhex hpercent ih

set_option maxRecDepth 8192 in
theorem hexDigits_spec (b : UInt8) : ∃ high low : UInt8, hexDigits b = [high, low] ∧
    high < 0x80 ∧ low < 0x80 ∧ hexByte high.toNat low.toNat = some b := by
  have hall : ∀ n < 256, byte (Nat.digitChar (n / 16)).toUpper < 0x80 ∧
      byte (Nat.digitChar (n % 16)).toUpper < 0x80 ∧
      hexByte (byte (Nat.digitChar (n / 16)).toUpper).toNat
        (byte (Nat.digitChar (n % 16)).toUpper).toNat = some (UInt8.ofNat n) := by
    decide
  obtain ⟨hhigh, hlow, hbyte⟩ := hall b.toNat b.toNat_lt
  rw [UInt8.ofNat_toNat] at hbyte
  exact ⟨_, _, rfl, hhigh, hlow, hbyte⟩

theorem percentEncoded_eq_some (h : percentEncoded c = some encoding) :
    encoding = (appendedCodePoint c).flatMap percentEncodedByte := by
  obtain ⟨bytes, hbytes, rfl⟩ := map_eq_some_iff.mp h
  rw [appendedCodePoint, hbytes, getD_some]

theorem appendedCodePoint_ne_nil (c : Nat) : appendedCodePoint c ≠ [] := by
  rw [appendedCodePoint, codePointToUtf8]
  split_ifs <;> exact cons_ne_nil _ _

theorem percentEncoded_eq_cons (h : percentEncoded c = some encoding) :
    ∃ text, encoding = byte '%' :: text := by
  obtain ⟨b, bytes, hbytes⟩ := exists_cons_of_ne_nil (appendedCodePoint_ne_nil c)
  rw [percentEncoded_eq_some h, hbytes, flatMap_cons]
  exact ⟨_, rfl⟩

theorem ascii_percentEncodedByte (b : UInt8) : ∀ b' ∈ percentEncodedByte b, b' < 0x80 := by
  obtain ⟨high, low, hdigits, hhigh, hlow, -⟩ := hexDigits_spec b
  rw [percentEncodedByte, hdigits]
  simp only [forall_mem_cons, hhigh, hlow, not_mem_nil, false_implies, implies_true,
    and_true]
  decide

theorem Text.ascii {codePoints : List Nat} (h : Text text codePoints) : ∀ b ∈ text, b < 0x80 := by
  induction h with
  | nil => simp
  | plain hb _ ih => exact forall_mem_cons.mpr ⟨hb, ih⟩
  | encoded hencoding _ _ _ ih =>
    rw [percentEncoded_eq_some hencoding, forall_mem_append]
    refine ⟨fun b hb => ?_, ih⟩
    obtain ⟨b', -, hb'⟩ := mem_flatMap.mp hb
    exact ascii_percentEncodedByte b' b hb'

theorem ascii_percent : byte '%' < 0x80 := by decide

theorem hexByte?_eq (digits : List UInt8) : hexByte? digits =
      (codePoint? digits).bind fun high =>
        (codePoint? (digits.drop 1)).bind fun low => hexByte high low := rfl

theorem hexByte_eq_none {high : Nat}
    (h : isAsciiHexDigit high = false ∨ isAsciiHexDigit low = false) : hexByte high low = none := by
  cases hbyte : hexByte high low with
  | none => rfl
  | some b =>
    obtain ⟨hhigh, hlow⟩ := hexByte_isHex hbyte
    rw [hhigh, hlow] at h
    cases h <;> contradiction

/-- A text has a digit at a place where its code points have it. -/
theorem Text.hexByte? {codePoints : List Nat} (h : Text text codePoints) :
    hexByte? text = digitsByte codePoints := by
  have hpercent : isAsciiHexDigit (byte '%').toNat = false := by decide
  rw [hexByte?_eq]
  cases h with
  | nil => rfl
  | @plain b text codePoints hb h =>
    cases h with
    | nil => rfl
    | @plain b' text codePoints hb' h =>
      simp only [codePoint?, digitsByte, drop_succ_cons, drop_zero,
        codePointAt_ascii hb, codePointAt_ascii hb', bind_some]
    | @encoded c encoding text codePoints hencoding hhex _ h =>
      obtain ⟨text', rfl⟩ := percentEncoded_eq_cons hencoding
      simp only [codePoint?, digitsByte, drop_succ_cons, drop_zero, List.cons_append,
        codePointAt_ascii hb, codePointAt_ascii ascii_percent, bind_some]
      rw [hexByte_eq_none (.inr hhex), hexByte_eq_none (.inr hpercent)]
  | @encoded c encoding text codePoints hencoding hhex _ h =>
    obtain ⟨text', rfl⟩ := percentEncoded_eq_cons hencoding
    have hdigits : digitsByte (c :: codePoints) = none := by
      cases codePoints with
      | nil => rfl
      | cons d _ => exact hexByte_eq_none (.inl hhex)
    rw [hdigits, List.cons_append, codePoint?, codePointAt_ascii ascii_percent, bind_some]
    cases codePoint? ((byte '%' :: (text' ++ text)).drop 1) with
    | none => rfl
    | some low => exact hexByte_eq_none (.inl hpercent)

/-! ## Decoding -/

theorem percentDecode_ascii (h : ∀ b ∈ text, b < 0x80) :
    percentDecode text = percentDecodeLoop text 0 := by
  rw [percentDecode]
  split
  · rfl
  · next hpercent =>
    induction text with
    | nil => rfl
    | cons b text ih =>
      obtain ⟨hb, htext⟩ := forall_mem_cons.mp h
      obtain ⟨hne, hrest⟩ := not_or.mp (mt mem_cons.mpr hpercent)
      have hcode : b.toNat ≠ 0x25 := fun heq => hne (UInt8.toNat_inj.mp heq).symm
      rw [percentDecodeLoop, codePointAt_ascii hb, if_pos hcode, appendedCodePoint_ascii hb,
        ← ih htext hrest]
      rfl

theorem percentDecodeLoop_encoded (bytes text : List UInt8) :
    percentDecodeLoop (bytes.flatMap percentEncodedByte ++ text) 0 =
      bytes ++ percentDecodeLoop text 0 := by
  induction bytes with
  | nil => rfl
  | cons b bytes ih =>
    obtain ⟨high, low, hdigits, hhigh, hlow, hbyte⟩ := hexDigits_spec b
    have hhex : hexByte? (high :: low :: (bytes.flatMap percentEncodedByte ++ text)) = some b := by
      rw [hexByte?_eq]
      simpa [codePoint?, codePointAt_ascii hhigh, codePointAt_ascii hlow] using hbyte
    rw [flatMap_cons, percentEncodedByte, hdigits]
    simp only [List.cons_append, nil_append]
    rw [percentDecodeLoop, codePointAt_ascii ascii_percent, if_neg (by decide), hhex]
    simp only [percentDecodeLoop, ih]

/-- The percent sign and the digits of an escape stand for themselves. -/
theorem Text.eq_plain {codePoints : List Nat}
    (h : Text text (c :: codePoints)) (hc : c = 0x25 ∨ isAsciiHexDigit c = true) :
    ∃ b text', text = b :: text' ∧ b < 0x80 ∧ b.toNat = c ∧ Text text' codePoints := by
  cases h with
  | @plain b text _ hb h => exact ⟨b, text, rfl, hb, rfl, h⟩
  | encoded _ hhex hpercent _ =>
    rw [hhex] at hc
    cases hc with
    | inl hc => exact absurd hc hpercent
    | inr hc => cases hc

theorem Text.percentDecodeLoop {codePoints : List Nat} (h : Text text codePoints) :
    percentDecodeLoop text 0 = decoded codePoints := by
  induction codePoints using escapeInduction generalizing text with
  | nil =>
    cases h
    rfl
  | code c rest hescape ih =>
    rw [decoded_code hescape]
    cases h with
    | @plain b text _ hb h =>
      rw [URL.percentDecodeLoop, codePointAt_ascii hb, ih h, h.hexByte?]
      split
      · rfl
      · next hcode =>
        have hnone : digitsByte rest = none := by rwa [escape, if_pos (not_not.mp hcode)] at hescape
        rw [hnone]
    | @encoded _ encoding text _ hencoding hhex hpercent h =>
      rw [percentEncoded_eq_some hencoding, percentDecodeLoop_encoded, ih h]
  | escaped high low rest b hbyte ih =>
    obtain ⟨hhigh, hlow⟩ := hexByte_isHex hbyte
    obtain ⟨b₀, text₁, rfl, hb₀, hcode₀, h₁⟩ := h.eq_plain (.inl rfl)
    have hdigits := h₁.hexByte?
    obtain ⟨b₁, text₂, rfl, -, -, h₂⟩ := h₁.eq_plain (.inr hhigh)
    obtain ⟨b₂, text₃, rfl, -, -, h₃⟩ := h₂.eq_plain (.inr hlow)
    rw [decoded_escaped hbyte, URL.percentDecodeLoop, codePointAt_ascii hb₀, hcode₀,
      if_neg (not_not.mpr rfl), hdigits, digitsByte, hbyte]
    simp only [URL.percentDecodeLoop, ih h₃]

theorem Text.percentDecode {codePoints : List Nat} (h : Text text codePoints) :
    percentDecode text = decoded codePoints := by
  rw [percentDecode_ascii h.ascii, h.percentDecodeLoop]

/-! ## Encoding -/

/-- A byte that stands for itself where `set` is encoded. -/
def Unencoded (set : PercentEncodeSet) (b : UInt8) : Prop :=
  b < 0x80 ∧ codePointIsInPercentEncodeSet b.toNat set = false

theorem isInPercentEncodeSet_of_large (h : 0x80 ≤ c) (set : PercentEncodeSet) :
    codePointIsInPercentEncodeSet c set = true := by
  have hcontrol : isInC0ControlSet c = true := decide_eq_true (.inr (by omega))
  cases set <;>
    simp [codePointIsInPercentEncodeSet, isInFragmentSet, isInPathSet, isInQuerySet, hcontrol]

/-- Neither the percent sign nor the digits are ever encoded. -/
theorem isInPercentEncodeSet_escape (h : c = 0x25 ∨ isAsciiHexDigit c = true)
    (set : PercentEncodeSet) : codePointIsInPercentEncodeSet c set = false := by
  have hlt : c < 0x80 := by
    cases h with
    | inl h => omega
    | inr h => exact isAsciiHexDigit_lt h
  revert h
  have hall : ∀ n < 128, n = 0x25 ∨ isAsciiHexDigit n = true →
      codePointIsInPercentEncodeSet n set = false := by
    cases set <;> decide
  exact hall c hlt

theorem exists_byte (h : c < 0x80) : ∃ b : UInt8, b < 0x80 ∧ b.toNat = c := by
  have hsize : c < 256 := by omega
  have hb : (UInt8.ofNat c).toNat = c := UInt8.toNat_ofNat_of_lt' hsize
  exact ⟨UInt8.ofNat c, UInt8.lt_iff_toNat_lt.mpr (by rw [hb]; exact h), hb⟩

theorem exists_byte_of_not_isIn {set : PercentEncodeSet}
    (h : ¬ codePointIsInPercentEncodeSet c set = true) :
    ∃ b : UInt8, b.toNat = c ∧ Unencoded set b := by
  have hc : c < 0x80 := by
    by_contra hlarge
    exact h (isInPercentEncodeSet_of_large (Nat.le_of_not_lt hlarge) set)
  obtain ⟨b, hb, rfl⟩ := exists_byte hc
  exact ⟨b, rfl, hb, Bool.not_eq_true _ ▸ h⟩

theorem percentEncodedIfNecessary_text {set : PercentEncodeSet}
    (h : percentEncodedIfNecessary c set = some text) {codePoints : List Nat}
    (h' : Text text' codePoints) : Text (text ++ text') (c :: codePoints) := by
  rw [percentEncodedIfNecessary] at h
  split at h
  · next hset =>
    refine .encoded h ?_ ?_ h'
    · by_contra hhex
      rw [isInPercentEncodeSet_escape (.inr (by simpa using hhex)) set] at hset
      cases hset
    · intro hpercent
      rw [isInPercentEncodeSet_escape (.inl hpercent) set] at hset
      cases hset
  · next hset =>
    obtain ⟨b, rfl, hb⟩ := exists_byte_of_not_isIn hset
    cases h
    rw [appendedCodePoint_ascii hb.1]
    exact .plain hb.1 h'

theorem percentEncodeLoop_text {set : PercentEncodeSet} {codePoints : List Nat}
    (h : percentEncodeLoop set codePoints = some text) : Text text codePoints := by
  induction codePoints generalizing text with
  | nil =>
    cases h
    exact .nil
  | cons c codePoints ih =>
    rw [percentEncodeLoop] at h
    obtain ⟨first, hfirst, h⟩ := bind_eq_some_iff.mp h
    obtain ⟨rest, hrest, h⟩ := bind_eq_some_iff.mp h
    cases h
    exact percentEncodedIfNecessary_text hfirst (ih hrest)

/-- What `percent_encode` makes of a component stands for its code points. -/
theorem percentEncode_text {set : PercentEncodeSet} (h : percentEncode component set = some text) :
    Text text (codePoints component) :=
  percentEncodeLoop_text h

theorem unencoded_percentEncodedByte (b : UInt8) (set : PercentEncodeSet) :
    ∀ b' ∈ percentEncodedByte b, Unencoded set b' := by
  obtain ⟨high, low, hdigits, hhigh, hlow, hbyte⟩ := hexDigits_spec b
  obtain ⟨hhexHigh, hhexLow⟩ := hexByte_isHex hbyte
  rw [percentEncodedByte, hdigits]
  simp only [forall_mem_cons, not_mem_nil, false_implies, implies_true, and_true]
  exact ⟨⟨ascii_percent, isInPercentEncodeSet_escape (.inl rfl) set⟩,
    ⟨hhigh, isInPercentEncodeSet_escape (.inr hhexHigh) set⟩,
    ⟨hlow, isInPercentEncodeSet_escape (.inr hhexLow) set⟩⟩

theorem unencoded_percentEncodedIfNecessary {set : PercentEncodeSet}
    (h : percentEncodedIfNecessary c set = some text) : ∀ b ∈ text, Unencoded set b := by
  rw [percentEncodedIfNecessary] at h
  split at h
  · rw [percentEncoded_eq_some h]
    intro b hb
    obtain ⟨b', -, hb'⟩ := mem_flatMap.mp hb
    exact unencoded_percentEncodedByte b' set b hb'
  · next hset =>
    obtain ⟨b, rfl, hb⟩ := exists_byte_of_not_isIn hset
    cases h
    rw [appendedCodePoint_ascii hb.1]
    exact forall_mem_singleton.mpr hb

theorem percentEncodedIfNecessary_ne_nil {set : PercentEncodeSet}
    (h : percentEncodedIfNecessary c set = some text) : text ≠ [] := by
  rw [percentEncodedIfNecessary] at h
  split at h
  · obtain ⟨text', rfl⟩ := percentEncoded_eq_cons h
    exact cons_ne_nil _ _
  · cases h
    exact appendedCodePoint_ne_nil c

theorem unencoded_percentEncode {set : PercentEncodeSet}
    (h : percentEncode component set = some text) : ∀ b ∈ text, Unencoded set b := by
  rw [percentEncode] at h
  generalize codePoints component = codePoints at h
  induction codePoints generalizing text with
  | nil =>
    cases h
    exact fun b hb => absurd hb not_mem_nil
  | cons c codePoints ih =>
    obtain ⟨first, hfirst, h⟩ := bind_eq_some_iff.mp h
    obtain ⟨rest, hrest, h⟩ := bind_eq_some_iff.mp h
    cases h
    exact forall_mem_append.mpr ⟨unencoded_percentEncodedIfNecessary hfirst, ih hrest⟩

theorem percentEncode_length {set : PercentEncodeSet}
    (h : percentEncode component set = some text) : component.length ≤ text.length := by
  rw [percentEncode] at h
  induction component generalizing text with
  | nil => exact Nat.zero_le _
  | cons b component ih =>
    obtain ⟨first, hfirst, h⟩ := bind_eq_some_iff.mp h
    obtain ⟨rest, hrest, h⟩ := bind_eq_some_iff.mp h
    cases h
    have hpos := length_pos_of_ne_nil (percentEncodedIfNecessary_ne_nil hfirst)
    have hle := ih hrest
    rw [length_cons, length_append]
    omega

theorem percentEncodedIfNecessary_unencoded {set : PercentEncodeSet} (h : Unencoded set b) :
    percentEncodedIfNecessary b.toNat set = some [b] := by
  rw [percentEncodedIfNecessary, h.2, if_neg Bool.false_ne_true, appendedCodePoint_ascii h.1]

theorem percentEncode_unencoded {set : PercentEncodeSet} (h : ∀ b ∈ text, Unencoded set b) :
    percentEncode text set = some text := by
  rw [percentEncode]
  induction text with
  | nil => rfl
  | cons b text ih =>
    obtain ⟨hb, htext⟩ := forall_mem_cons.mp h
    rw [codePoints, codePointAt_ascii hb.1, percentEncodeLoop,
      percentEncodedIfNecessary_unencoded hb, ih htext]
    rfl

theorem percentEncode_ascii (h : ∀ b ∈ component, b < 0x80) (set : PercentEncodeSet) :
    ∃ text, percentEncode component set = some text := by
  rw [percentEncode]
  induction component with
  | nil => exact ⟨[], rfl⟩
  | cons b component ih =>
    obtain ⟨hb, hcomponent⟩ := forall_mem_cons.mp h
    obtain ⟨rest, hrest⟩ := ih hcomponent
    have hfirst : ∃ first, percentEncodedIfNecessary b.toNat set = some first := by
      have hle : b.toNat ≤ 0x7f := Nat.le_of_lt_succ (UInt8.lt_iff_toNat_lt.mp hb)
      rw [percentEncodedIfNecessary, percentEncoded, codePointToUtf8, if_pos hle]
      split <;> exact ⟨_, rfl⟩
    obtain ⟨first, hfirst⟩ := hfirst
    rw [codePoints, codePointAt_ascii hb, percentEncodeLoop, hfirst, hrest]
    exact ⟨_, rfl⟩

/-! ## Plain components -/

/-- In ASCII, and without an escape. -/
def Plain (component : List UInt8) : Prop :=
  (∀ b ∈ component, b < 0x80) ∧ hasEscape (codePoints component) = false

instance (component : List UInt8) : Decidable (Plain component) :=
  inferInstanceAs (Decidable (_ ∧ _))

theorem decoded_of_not_hasEscape {codePoints : List Nat} (h : hasEscape codePoints = false) :
    decoded codePoints = codePoints.flatMap appendedCodePoint := by
  induction codePoints with
  | nil => rfl
  | cons c rest ih =>
    rw [hasEscape, Bool.or_eq_false_iff, isSome_eq_false_iff, isNone_iff_eq_none] at h
    rw [decoded_code h.1, flatMap_cons, ih h.2]

theorem flatMap_appended_ascii (h : ∀ b ∈ component, b < 0x80) :
    (codePoints component).flatMap appendedCodePoint = component := by
  induction component with
  | nil => rfl
  | cons b component ih =>
    obtain ⟨hb, hcomponent⟩ := forall_mem_cons.mp h
    rw [codePoints, codePointAt_ascii hb, flatMap_cons, appendedCodePoint_ascii hb,
      ih hcomponent]
    rfl

theorem Plain.decoded (h : Plain component) : decoded (codePoints component) = component := by
  rw [decoded_of_not_hasEscape h.2, flatMap_appended_ascii h.1]

/-- How many code points are in ASCII. -/
def asciiCount (codePoints : List Nat) : Nat := codePoints.countP (· < 0x80)

theorem asciiCount_append (codePoints codePoints' : List Nat) :
    asciiCount (codePoints ++ codePoints') = asciiCount codePoints + asciiCount codePoints' :=
  countP_append

theorem length_flatMap_appended (codePoints : List Nat) :
    codePoints.length ≤ (codePoints.flatMap appendedCodePoint).length := by
  induction codePoints with
  | nil => exact Nat.le_refl _
  | cons c codePoints ih =>
    have hpos := length_pos_of_ne_nil (appendedCodePoint_ne_nil c)
    rw [flatMap_cons, length_append, length_cons]
    omega

theorem extend_nil (value : Nat) : extend [] value = value := rfl

theorem extend_extensionByte (n : Nat) (bytes : List UInt8) (value : Nat) :
    extend (UInt8.ofNat ((n &&& 0x3f) ||| 0x80) :: bytes) value =
      extend bytes (64 * value + n % 64) := by
  have hall : ∀ m < 64, UInt8.ofNat (m ||| 0x80) >>> 6 = 2 ∧
      (UInt8.ofNat (m ||| 0x80) &&& 63).toNat = m := by decide
  have hmod : n &&& 0x3f = n % 64 := Nat.and_two_pow_sub_one_eq_mod n 6
  have hlt : n % 64 < 64 := Nat.mod_lt n (by decide)
  rw [hmod, extend, (hall _ hlt).1, if_neg (not_not.mpr rfl), (hall _ hlt).2,
    shiftLeft_or value hlt]

/-- What is appended for a code point outside ASCII reads as code points outside ASCII. -/
theorem codePoints_appended_large (h : 0x80 ≤ c) (rest : List UInt8) :
    ∃ large, codePoints (appendedCodePoint c ++ rest) = large ++ codePoints rest ∧
      ∀ d ∈ large, 0x80 ≤ d := by
  have hext : 0x80 ≤ replacement := by decide
  have hshift : ∀ i, c >>> i = c / 2 ^ i := Nat.shiftRight_eq_div_pow c
  rw [appendedCodePoint, codePointToUtf8, if_neg (by omega)]
  split_ifs with h2 h3 h4
  all_goals
    simp only [getD_some, getD_none, List.cons_append, nil_append, codePoints,
      codePointAt_extensionByte]
  · have hlead : ∀ m < 32, decodeFirstByte (UInt8.ofNat (m ||| 0xc0)) = some (m, 2) := by decide
    refine ⟨[_, _], rfl, forall_mem_cons.mpr ⟨?_, forall_mem_singleton.mpr hext⟩⟩
    rw [codePointAt, hlead _ (Nat.lt_succ_of_le Nat.and_le_right)]
    simp only [length_cons, Nat.reduceSub, take_succ_cons, take_zero,
      extend_extensionByte, extend_nil]
    rw [if_neg (by omega), Nat.and_two_pow_sub_one_eq_mod _ 5, hshift]
    omega
  · have hlead : ∀ m < 16, decodeFirstByte (UInt8.ofNat (m ||| 0xe0)) = some (m, 3) := by decide
    refine ⟨[_, _, _], rfl, forall_mem_cons.mpr
      ⟨?_, forall_mem_cons.mpr ⟨hext, forall_mem_singleton.mpr hext⟩⟩⟩
    rw [codePointAt, hlead _ (Nat.lt_succ_of_le Nat.and_le_right)]
    simp only [length_cons, Nat.reduceSub, take_succ_cons, take_zero,
      extend_extensionByte, extend_nil]
    rw [if_neg (by omega), Nat.and_two_pow_sub_one_eq_mod _ 4, hshift, hshift]
    omega
  · have hlead : ∀ m < 8, decodeFirstByte (UInt8.ofNat (m ||| 0xf0)) = some (m, 4) := by decide
    refine ⟨[_, _, _, _], rfl, forall_mem_cons.mpr ⟨?_, forall_mem_cons.mpr
      ⟨hext, forall_mem_cons.mpr ⟨hext, forall_mem_singleton.mpr hext⟩⟩⟩⟩
    rw [codePointAt, hlead _ (Nat.lt_succ_of_le Nat.and_le_right)]
    simp only [length_cons, Nat.reduceSub, take_succ_cons, take_zero,
      extend_extensionByte, extend_nil]
    rw [if_neg (by omega), Nat.and_two_pow_sub_one_eq_mod _ 3, hshift, hshift, hshift]
    omega
  · have hlead : decodeFirstByte 0xef = some (15, 3) := by decide
    have hsecond : decodeFirstByte 0xbf = none := by decide
    have hthird : decodeFirstByte 0xbd = none := by decide
    refine ⟨[_, _, _], rfl, forall_mem_cons.mpr ⟨?_, forall_mem_cons.mpr
      ⟨?_, forall_mem_singleton.mpr ?_⟩⟩⟩
    · rw [codePointAt, hlead]
      dsimp only
      rw [if_neg (by simp only [length_cons]; omega)]
      exact (by decide : 0x80 ≤ extend [0xbf, 0xbd] 15)
    · rw [codePointAt, hsecond]
      exact hext
    · rw [codePointAt, hthird]
      exact hext

/-- The bytes of a code point read as no more code points in ASCII than it is. -/
theorem asciiCount_appended (c : Nat) (rest : List UInt8) :
    asciiCount (codePoints (appendedCodePoint c ++ rest)) =
      asciiCount [c] + asciiCount (codePoints rest) := by
  by_cases hc : c < 0x80
  · obtain ⟨b, hb, rfl⟩ := exists_byte hc
    rw [appendedCodePoint_ascii hb, singleton_append, codePoints, codePointAt_ascii hb]
    exact asciiCount_append [b.toNat] (codePoints rest)
  · obtain ⟨large, hlarge, hall⟩ := codePoints_appended_large (Nat.le_of_not_lt hc) rest
    have hzero : asciiCount large = 0 :=
      countP_eq_zero.mpr fun d hd => by simpa using hall d hd
    have hzero' : asciiCount [c] = 0 :=
      countP_eq_zero.mpr fun d hd => by simpa [mem_singleton.mp hd] using hc
    rw [hlarge, asciiCount_append, hzero, hzero']

theorem asciiCount_cons (c : Nat) (rest : List Nat) :
    asciiCount (c :: rest) = asciiCount [c] + asciiCount rest :=
  asciiCount_append [c] rest

theorem asciiCount_ascii (h : c < 0x80) : asciiCount [c] = 1 := by
  simp [asciiCount, h]

theorem asciiCount_codePoints_cons (b : UInt8) (rest : List UInt8) :
    asciiCount (codePoints (b :: rest)) ≤ 1 + asciiCount (codePoints rest) := by
  rw [codePoints, asciiCount_cons]
  have hle : asciiCount [codePointAt b rest] ≤ 1 := countP_le_length
  omega

/-- Decoding does not add code points in ASCII, and an escape takes some away. -/
theorem asciiCount_decoded (cs : List Nat) :
    asciiCount (codePoints (decoded cs)) + (if hasEscape cs then 1 else 0) ≤ asciiCount cs := by
  induction cs using escapeInduction with
  | nil => exact Nat.le_refl _
  | code c rest hescape ih =>
    have hhas : hasEscape (c :: rest) = hasEscape rest := by rw [hasEscape, hescape]; rfl
    rw [decoded_code hescape, asciiCount_appended, hhas, asciiCount_cons c rest]
    omega
  | escaped high low rest b hbyte ih =>
    obtain ⟨hhigh, hlow⟩ := hexByte_isHex hbyte
    have hcount : asciiCount (0x25 :: high :: low :: rest) = 3 + asciiCount rest := by
      rw [asciiCount_cons, asciiCount_cons high, asciiCount_cons low,
        asciiCount_ascii (by decide), asciiCount_ascii (isAsciiHexDigit_lt hhigh),
        asciiCount_ascii (isAsciiHexDigit_lt hlow)]
      omega
    have hcons := asciiCount_codePoints_cons b (decoded rest)
    have hone : (if hasEscape (0x25 :: high :: low :: rest) then 1 else 0) ≤ 1 := by
      split <;> decide
    rw [decoded_escaped hbyte, hcount]
    omega

theorem length_codePoints (bytes : List UInt8) : (codePoints bytes).length = bytes.length := by
  induction bytes with
  | nil => rfl
  | cons b bytes ih => simp only [codePoints, length_cons, ih]

theorem lt_of_length_appended (h : (appendedCodePoint c).length ≤ 1) : c < 0x80 := by
  by_contra hlarge
  rw [appendedCodePoint, codePointToUtf8, if_neg (by omega)] at h
  revert h
  repeat' split
  all_goals simp

theorem ascii_of_length_appended (h : (appendedCodePoint c).length ≤ 1) :
    ∀ b ∈ appendedCodePoint c, b < 0x80 := by
  revert h
  rw [appendedCodePoint, codePointToUtf8]
  split_ifs with hc
  · intro _
    obtain ⟨b, hb, rfl⟩ := exists_byte (Nat.lt_succ_of_le hc)
    rw [getD_some, UInt8.ofNat_toNat]
    exact forall_mem_singleton.mpr hb
  all_goals
    intro h
    simp at h

theorem ascii_of_length_flatMap {cs : List Nat}
    (h : (cs.flatMap appendedCodePoint).length ≤ cs.length) :
    ∀ b ∈ cs.flatMap appendedCodePoint, b < 0x80 := by
  induction cs with
  | nil => exact fun b hb => absurd hb not_mem_nil
  | cons c cs ih =>
    have hpos := length_pos_of_ne_nil (appendedCodePoint_ne_nil c)
    have hle := length_flatMap_appended cs
    rw [flatMap_cons, length_append, length_cons] at h
    rw [flatMap_cons]
    exact forall_mem_append.mpr ⟨ascii_of_length_appended (by omega), ih (by omega)⟩

/-- A component that the encodings of its code points make up is in ASCII. -/
theorem ascii_of_flatMap_appended
    (h : (codePoints component).flatMap appendedCodePoint = component) :
    ∀ b ∈ component, b < 0x80 := by
  have hle : ((codePoints component).flatMap appendedCodePoint).length ≤
      (codePoints component).length :=
    Nat.le_of_eq (by rw [h, length_codePoints])
  have hascii := ascii_of_length_flatMap hle
  rwa [h] at hascii

/-- Decoding gives back the plain components only. -/
theorem decoded_eq_iff : decoded (codePoints component) = component ↔ Plain component := by
  refine ⟨fun h => ?_, Plain.decoded⟩
  have hcount := asciiCount_decoded (codePoints component)
  rw [h] at hcount
  have hescape : hasEscape (codePoints component) = false := by
    by_contra hhas
    rw [if_pos (by simpa using hhas)] at hcount
    omega
  rw [decoded_of_not_hasEscape hescape] at h
  exact ⟨ascii_of_flatMap_appended h, hescape⟩

end Literate.AK.URL

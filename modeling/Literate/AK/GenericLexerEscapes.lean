import Literate.AK.GenericLexerRun
import Literate.AK.Utf16View
import Literate.Foundation.Numerals
import Mathlib.Data.Nat.ModEq

/-!
# AK: escaped code points

`consume_escaped_code_point` of `AK/GenericLexer.cpp`.  The digits between braces are summed
up in 32 bits, and a sum that falls is taken for an overflow.  A sum that has wrapped was
2^28 at least and may not fall below that, so it is no code point either way (`Tracks`).
-/

namespace Literate.AK

open Foundation List Option
open UInt16 (toNat_ofNat')
open Utf16View (isLowSurrogate isHighSurrogate pairValue)

set_option maxRecDepth 8192

namespace GenericLexer

inductive UnicodeEscapeError where
  | malformedUnicodeEscape
  | unicodeEscapeOverflow
  deriving DecidableEq

/-- `next_is(is_ascii_hex_digit)`. -/
def nextIsHexDigit (lexer : GenericLexer) : Option Bool :=
  lexer.nextIsMatching fun ch => isAsciiHexDigit ch.toNat

/-- `parse_ascii_hex_digit(consume())`. -/
def consumeHexDigit (lexer : GenericLexer) : Option (Nat × GenericLexer) :=
  lexer.consume.bind fun result =>
    (parseAsciiHexDigit result.1.toNat).map fun digit => (digit, result.2)

/-- The loop of `decode_code_point`, of at most `fuel` rounds, and what follows it. -/
def decodeCodePointLoop : (fuel : Nat) → (codePoint : Nat) → GenericLexer →
    Option (Except UnicodeEscapeError Nat × GenericLexer)
  | 0, _, _ => none
  | fuel + 1, codePoint, lexer => do
      if !(← lexer.nextIsHexDigit) then some (.error .malformedUnicodeEscape, lexer)
      else do
        let (digit, lexer) ← lexer.consumeHexDigit
        let newCodePoint := (codePoint <<< 4) % 2 ^ 32 ||| digit
        if newCodePoint < codePoint then some (.error .unicodeEscapeOverflow, lexer)
        else do
          let (closes, lexer) ← lexer.consumeSpecificChar (byte '\x7d')
          if !closes then decodeCodePointLoop fuel newCodePoint lexer
          else if newCodePoint ≤ 0x10FFFF then some (.ok newCodePoint, lexer)
          else some (.error .unicodeEscapeOverflow, lexer)

/-- `decode_code_point`.  A round consumes a digit. -/
def decodeCodePoint (lexer : GenericLexer) :
    Option (Except UnicodeEscapeError Nat × GenericLexer) := do
  let (startsWithOpenBracket, lexer) ← lexer.consumeSpecificChar (byte '\x7b')
  if startsWithOpenBracket then lexer.decodeCodePointLoop lexer.rounds 0 else none

/-- The loop of `decode_one_surrogate`, of `remaining` rounds. -/
def decodeOneSurrogateLoop : (remaining : Nat) → (surrogate : UInt16) → GenericLexer →
    Option (Option UInt16 × GenericLexer)
  | 0, surrogate, lexer => some (some surrogate, lexer)
  | remaining + 1, surrogate, lexer => do
      if !(← lexer.nextIsHexDigit) then some (none, lexer)
      else do
        let (digit, lexer) ← lexer.consumeHexDigit
        decodeOneSurrogateLoop remaining (surrogate <<< 4 ||| UInt16.ofNat digit) lexer

def decodeOneSurrogate (lexer : GenericLexer) : Option (Option UInt16 × GenericLexer) :=
  lexer.decodeOneSurrogateLoop 4 0

/-- The characters of `"\\u"`. -/
def unicodeEscape : List UInt8 := [byte '\\', byte 'u']

/-- What `decode_single_or_paired_surrogate` does behind a high surrogate. -/
def decodePairedSurrogate (combineSurrogatePairs : Bool) (high : UInt16) (lexer : GenericLexer) :
    Option (Except UnicodeEscapeError Nat × GenericLexer) :=
  if !combineSurrogatePairs then some (.ok high.toNat, lexer)
  else do
    let (isEscape, lexer) ← lexer.consumeSpecificString unicodeEscape
    if !isEscape then some (.ok high.toNat, lexer)
    else do
      let (lowSurrogate, lexer) ← lexer.decodeOneSurrogate
      match lowSurrogate with
      | none => some (.error .malformedUnicodeEscape, lexer)
      | some low =>
        if isLowSurrogate low then
          (Utf16View.decodeSurrogatePair high low).map fun codePoint => (.ok codePoint, lexer)
        else (lexer.retreatCount 6).map fun lexer => (.ok high.toNat, lexer)

def decodeSingleOrPairedSurrogate (combineSurrogatePairs : Bool) (lexer : GenericLexer) :
    Option (Except UnicodeEscapeError Nat × GenericLexer) := do
  let (highSurrogate, lexer) ← lexer.decodeOneSurrogate
  match highSurrogate with
  | none => some (.error .malformedUnicodeEscape, lexer)
  | some high =>
    if !isHighSurrogate high then some (.ok high.toNat, lexer)
    else lexer.decodePairedSurrogate combineSurrogatePairs high

def consumeEscapedCodePoint (combineSurrogatePairs : Bool) (lexer : GenericLexer) :
    Option (Except UnicodeEscapeError Nat × GenericLexer) := do
  let (isEscape, lexer) ← lexer.consumeSpecificString unicodeEscape
  if !isEscape then some (.error .malformedUnicodeEscape, lexer)
  else do
    if ← lexer.nextIsChar (byte '\x7b') then lexer.decodeCodePoint
    else lexer.decodeSingleOrPairedSurrogate combineSurrogatePairs

/-! ## Reading what stands there -/

/-- The value of a hexadecimal digit. -/
def hexDigitOf (ch : UInt8) : Option Nat := parseAsciiHexDigit ch.toNat

variable {lexer : GenericLexer} {ch : UInt8} {text : List UInt8}

theorem Inside.peek_rest (h : lexer.Inside) : lexer.peek 0 = some (lexer.rest.headD 0) := by
  have hlength := lexer.length_lt
  rw [Inside] at h
  rw [peek_eq (by omega), Nat.add_zero, getD_eq_getElem?_getD, ← List.head?_drop, rest,
    List.headD_eq_head?_getD]

theorem isAsciiHexDigit_iff (ch : UInt8) : isAsciiHexDigit ch.toNat = (hexDigitOf ch).isSome :=
  forall_byte (P := fun ch => isAsciiHexDigit ch.toNat = (hexDigitOf ch).isSome)
    (by decide) ch

theorem hexDigitOf_lt {digit : Nat} (h : hexDigitOf ch = some digit) : digit < 2 ^ 4 := by
  revert h
  exact forall_byte (P := fun ch => hexDigitOf ch = some digit → digit < 2 ^ 4)
    (fun n hn => by
      have hall : ∀ n < 256, ∀ digit ∈ hexDigitOf (UInt8.ofNat n), digit < 2 ^ 4 := by decide
      exact hall n hn digit) ch

theorem Inside.nextIsHexDigit_eq (h : lexer.Inside) :
    lexer.nextIsHexDigit = some (hexDigitOf (lexer.rest.headD 0)).isSome := by
  rw [nextIsHexDigit, nextIsMatching, h.peek_rest, map_some, isAsciiHexDigit_iff]

theorem consumeHexDigit_eq {digit : Nat} (h : lexer.rest = ch :: text)
    (hdigit : hexDigitOf ch = some digit) :
    lexer.consumeHexDigit = some (digit, lexer.advance) := by
  rw [hexDigitOf] at hdigit
  rw [consumeHexDigit, consume_eq (getElem?_of_rest h), bind_some, hdigit, map_some]

/-- A character that is not 0 is passed over where it stands. -/
theorem consumeSpecificChar_rest (h : lexer.rest = ch :: text) {next : UInt8} (hne : next ≠ 0) :
    lexer.consumeSpecificChar next =
      some (if ch = next then (true, lexer.advance) else (false, lexer)) := by
  have hinside : lexer.Inside := Nat.le_of_lt (inside_of_rest h)
  rw [hinside.consumeSpecificChar_eq hne, getElem?_of_rest h]
  simp

/-- A string without 0 is recognised where it stands. -/
theorem nextIsLoop_eq {expected : List UInt8} (hzero : 0 ∉ expected) : ∀ {i : Nat},
    lexer.mIndex + i + expected.length ≤ 2 ^ 64 →
      lexer.nextIsLoop expected i = some (decide (expected <+: lexer.rest.drop i)) := by
  induction expected with
  | nil =>
    intro i _
    rw [nextIsLoop, decide_eq_true nil_prefix]
  | cons ch expected ih =>
    intro i hfits
    rw [length_cons] at hfits
    rw [mem_cons, not_or] at hzero
    obtain ⟨hch, hexpected⟩ := hzero
    have hpeek : lexer.peek i = some ((lexer.rest.drop i).headD 0) := by
      rw [peek_eq (by omega), rest, drop_drop, getD_eq_getElem?_getD,
        List.headD_eq_head?_getD, List.head?_drop]
    have hdrop : lexer.rest.drop (i + 1) = (lexer.rest.drop i).tail := by rw [← drop_drop, drop_one]
    rw [nextIsLoop, hpeek, bind_some, ih hexpected (by omega), hdrop]
    cases lexer.rest.drop i with
    | nil =>
      rw [headD_nil, if_pos hch, decide_eq_false]
      exact fun hprefix => cons_ne_nil _ _ (prefix_nil.mp hprefix)
    | cons found text =>
      rw [headD_cons, tail_cons]
      by_cases heq : ch = found
      · rw [if_neg (not_not.mpr heq.symm), some.injEq, decide_eq_decide,
          cons_prefix_cons, and_iff_right heq]
      · rw [if_pos (Ne.symm heq), decide_eq_false fun h => heq (cons_prefix_cons.mp h).1]

theorem Inside.consumeSpecificString_unicodeEscape (h : lexer.Inside) :
    lexer.consumeSpecificString unicodeEscape =
      some (if unicodeEscape <+: lexer.rest then (true, lexer.advance.advance)
        else (false, lexer)) := by
  have hlength := lexer.length_lt
  have hle := h
  rw [Inside] at hle
  have htwo : unicodeEscape.length = 2 := rfl
  have hnext : lexer.nextIsString unicodeEscape = some (decide (unicodeEscape <+: lexer.rest)) :=
    nextIsLoop_eq (by decide) (by omega)
  rw [consumeSpecificString, hnext, map_some]
  by_cases hprefix : unicodeEscape <+: lexer.rest
  · have hlong := hprefix.length_le
    have hmin : min (lexer.mIndex + unicodeEscape.length) lexer.mInput.length =
        lexer.mIndex + 1 + 1 := by
      rw [rest, length_drop, ← StringView.length] at hlong
      omega
    rw [if_pos hprefix, decide_eq_true hprefix, h.ignore_eq, hmin]
    rfl
  · rw [if_neg hprefix, decide_eq_false hprefix]
    rfl

/-! ## The sum of the digits -/

/-- The sum in 32 bits against the value of the digits so far. -/
def Tracks (codePoint value : Nat) : Prop :=
  codePoint < 2 ^ 32 ∧ (codePoint = value ∨ 2 ^ 28 ≤ codePoint ∧ 2 ^ 28 ≤ value)

theorem tracks_zero : Tracks 0 0 := ⟨by decide, .inl rfl⟩

theorem shift_or {codePoint digit : Nat} (hdigit : digit < 2 ^ 4) :
    (codePoint <<< 4) % 2 ^ 32 ||| digit = (codePoint * 16) % 2 ^ 32 + digit := by
  have hmod : (codePoint <<< 4) % 2 ^ 32 = (codePoint % 2 ^ 28) <<< 4 := by
    simp only [Nat.shiftLeft_eq]
    omega
  rw [hmod, ← Nat.shiftLeft_add_eq_or_of_lt hdigit, Nat.shiftLeft_eq]
  omega

/-- A digit more: the sum falls, and then the value is too large for a code point, or it keeps
track of it. -/
theorem Tracks.step {codePoint value digit : Nat} (h : Tracks codePoint value)
    (hdigit : digit < 2 ^ 4) : ((codePoint <<< 4) % 2 ^ 32 ||| digit < codePoint → 2 ^ 28 ≤ value) ∧
    (¬ (codePoint <<< 4) % 2 ^ 32 ||| digit < codePoint →
      Tracks ((codePoint <<< 4) % 2 ^ 32 ||| digit) (value * 16 + digit)) := by
  obtain ⟨hlt, htracks⟩ := h
  rw [shift_or hdigit, Tracks]
  omega

theorem Tracks.le_iff {codePoint value : Nat} (h : Tracks codePoint value) :
    codePoint ≤ 0x10FFFF ↔ value ≤ 0x10FFFF := by
  obtain ⟨hlt, htracks⟩ := h
  omega

theorem Tracks.eq_of_le {codePoint value : Nat} (h : Tracks codePoint value)
    (hle : value ≤ 0x10FFFF) : codePoint = value := by
  obtain ⟨hlt, htracks⟩ := h
  omega

/-- What the digits between braces are decoded to: their value when it is one of a code point,
with the lexer behind the brace, or an overflow. -/
def Decodes (lexer : GenericLexer) (value stop : Nat)
    (result : Option (Except UnicodeEscapeError Nat × GenericLexer)) : Prop :=
  (value ≤ 0x10FFFF → result = some (.ok value, lexer.atIndex stop)) ∧
  (0x10FFFF < value → ∃ index ≤ stop,
    result = some (.error .unicodeEscapeOverflow, lexer.atIndex index))

theorem decodeCodePointLoop_round {digit : Nat} (h : lexer.rest = ch :: text)
    (hdigit : hexDigitOf ch = some digit) (fuel codePoint : Nat) :
    lexer.decodeCodePointLoop (fuel + 1) codePoint =
      if (codePoint <<< 4) % 2 ^ 32 ||| digit < codePoint then
        some (.error .unicodeEscapeOverflow, lexer.advance)
      else
        (lexer.advance.consumeSpecificChar (byte '\x7d')).bind fun closed =>
          if !closed.1 then
            closed.2.decodeCodePointLoop fuel ((codePoint <<< 4) % 2 ^ 32 ||| digit)
          else if (codePoint <<< 4) % 2 ^ 32 ||| digit ≤ 0x10FFFF then
            some (.ok ((codePoint <<< 4) % 2 ^ 32 ||| digit), closed.2)
          else some (.error .unicodeEscapeOverflow, closed.2) := by
  have hinside : lexer.Inside := Nat.le_of_lt (inside_of_rest h)
  have hisDigit : lexer.nextIsHexDigit = some true := by
    rw [hinside.nextIsHexDigit_eq, h, headD_cons, hdigit, isSome_some]
  simp only [decodeCodePointLoop, hisDigit, consumeHexDigit_eq h hdigit, bind_eq_bind,
    bind_some, Bool.not_true, Bool.false_eq_true, if_false]

theorem numeral_step (value digit : Nat) (ds : List Nat) :
    value * 16 ^ (digit :: ds).length + Nat.ofDigits 16 (digit :: ds).reverse =
      (value * 16 + digit) * 16 ^ ds.length + Nat.ofDigits 16 ds.reverse := by
  rw [ofDigits_reverse_cons, length_cons, Nat.pow_succ, Nat.add_mul, Nat.mul_assoc,
    Nat.mul_comm 16, Nat.add_assoc]

/-- The loop over the digits that are left, where the ones before have the value `value`. -/
theorem decodeCodePointLoop_spec {digits behind : List UInt8} : ∀ {fuel codePoint value : Nat}
    {lexer : GenericLexer} {ds : List Nat}, lexer.rest = digits ++ byte '\x7d' :: behind →
    digits ≠ [] → digits.mapM hexDigitOf = some ds → Tracks codePoint value →
    digits.length ≤ fuel →
    lexer.Decodes (value * 16 ^ ds.length + Nat.ofDigits 16 ds.reverse)
      (lexer.mIndex + digits.length + 1) (lexer.decodeCodePointLoop fuel codePoint) := by
  induction digits with
  | nil => exact fun _ hne => absurd rfl hne
  | cons ch digits ih =>
    intro fuel codePoint value lexer ds hrest _ hdigits htracks hfuel
    obtain ⟨fuel, rfl⟩ := Nat.exists_eq_succ_of_ne_zero
      (Nat.ne_of_gt (Nat.lt_of_lt_of_le (Nat.succ_pos _) hfuel))
    rw [mapM_cons] at hdigits
    obtain ⟨digit, hdigit, hdigits⟩ := bind_eq_some_iff.mp hdigits
    obtain ⟨ds', hds, hsame⟩ := bind_eq_some_iff.mp hdigits
    obtain rfl : digit :: ds' = ds := some.inj hsame
    have hadvance := rest_advance hrest
    obtain ⟨hfalls, hkeeps⟩ := htracks.step (hexDigitOf_lt hdigit)
    rw [decodeCodePointLoop_round hrest hdigit, numeral_step]
    by_cases hlt : (codePoint <<< 4) % 2 ^ 32 ||| digit < codePoint
    · -- the value is large already and only grows
      have hgrows : (value * 16 + digit) * 1 ≤ (value * 16 + digit) * 16 ^ ds'.length :=
        Nat.mul_le_mul_left _ (Nat.pow_pos (by decide))
      rw [if_pos hlt]
      refine ⟨fun hle => ?_, fun _ => ⟨lexer.mIndex + 1, ?_, rfl⟩⟩
      · omega
      · rw [length_cons]
        omega
    · have htracks' := hkeeps hlt
      rw [if_neg hlt]
      cases digits with
      | nil =>
        obtain rfl : [] = ds' := some.inj hds
        rw [consumeSpecificChar_rest hadvance (by decide), if_pos rfl, bind_some]
        simp only [Bool.not_true, Bool.false_eq_true, if_false, htracks'.le_iff,
          reverse_nil, Nat.ofDigits_nil, length_nil, Nat.pow_zero, Nat.mul_one,
          Nat.add_zero]
        refine ⟨fun hle => ?_, fun hgt => ⟨lexer.mIndex + 2, Nat.le_refl _, ?_⟩⟩
        · rw [if_pos hle, htracks'.eq_of_le hle]
          rfl
        · rw [if_neg (Nat.not_le.mpr hgt)]
          rfl
      | cons next digits =>
        have hnext : next ≠ byte '\x7d' := by
          rintro rfl
          have hnone : hexDigitOf (byte '\x7d') = none := by decide
          rw [mapM_cons, hnone] at hds
          cases hds
        have hdecodes := ih hadvance (cons_ne_nil _ _) hds htracks'
          (Nat.le_of_succ_le_succ hfuel)
        rw [consumeSpecificChar_rest hadvance (by decide), if_neg hnext, bind_some]
        rw [advance_mIndex] at hdecodes
        have hstop : lexer.mIndex + (ch :: next :: digits).length + 1 =
            lexer.mIndex + 1 + (next :: digits).length + 1 := by
          rw [length_cons]
          omega
        rw [hstop]
        exact hdecodes

/-! ## Four digits -/

theorem ofNat_step (surrogate : UInt16) {digit : Nat} (hdigit : digit < 2 ^ 4) (scale n : Nat) :
    UInt16.ofNat ((surrogate <<< 4 ||| UInt16.ofNat digit).toNat * scale + n) =
      UInt16.ofNat ((surrogate.toNat * 16 + digit) * scale + n) := by
  have hshift : (surrogate <<< 4).toNat = (surrogate.toNat % 2 ^ 12) <<< 4 := by
    simp only [UInt16.toNat_shiftLeft, Nat.shiftLeft_eq]
    have hfour : (4 : UInt16).toNat % 16 = 4 := rfl
    rw [hfour]
    omega
  have hsum : (surrogate <<< 4 ||| UInt16.ofNat digit).toNat =
      (surrogate.toNat * 16 + digit) % 2 ^ 16 := by
    have hsmall : digit % 2 ^ 16 = digit := Nat.mod_eq_of_lt (by omega)
    rw [UInt16.toNat_or, hshift, toNat_ofNat', hsmall,
      ← Nat.shiftLeft_add_eq_or_of_lt hdigit, Nat.shiftLeft_eq]
    omega
  rw [hsum]
  refine UInt16.toNat_inj.mp ?_
  simp only [toNat_ofNat']
  exact ((Nat.mod_modEq _ _).mul_right scale).add_right n

theorem decodeOneSurrogateLoop_digits {digits behind : List UInt8} :
    ∀ {surrogate : UInt16} {lexer : GenericLexer} {ds : List Nat},
      lexer.rest = digits ++ behind → digits.mapM hexDigitOf = some ds →
      lexer.decodeOneSurrogateLoop digits.length surrogate =
        some (some (UInt16.ofNat
          (surrogate.toNat * 16 ^ ds.length + Nat.ofDigits 16 ds.reverse)),
          lexer.atIndex (lexer.mIndex + digits.length)) := by
  induction digits with
  | nil =>
    intro surrogate lexer ds _ hdigits
    obtain rfl : [] = ds := some.inj hdigits
    simp only [length_nil, decodeOneSurrogateLoop, Nat.pow_zero, Nat.mul_one,
      reverse_nil, Nat.ofDigits_nil, Nat.add_zero, UInt16.ofNat_toNat]
    rfl
  | cons ch digits ih =>
    intro surrogate lexer ds hrest hdigits
    rw [mapM_cons] at hdigits
    obtain ⟨digit, hdigit, hdigits⟩ := bind_eq_some_iff.mp hdigits
    obtain ⟨ds', hds, hsame⟩ := bind_eq_some_iff.mp hdigits
    obtain rfl : digit :: ds' = ds := some.inj hsame
    have hinside : lexer.Inside := Nat.le_of_lt (inside_of_rest hrest)
    have hisDigit : lexer.nextIsHexDigit = some true := by
      rw [hinside.nextIsHexDigit_eq, hrest, List.cons_append, headD_cons, hdigit,
        isSome_some]
    simp only [length_cons, decodeOneSurrogateLoop, hisDigit,
      consumeHexDigit_eq hrest hdigit, bind_eq_bind, bind_some, Bool.not_true,
      Bool.false_eq_true, if_false]
    rw [ih (rest_advance hrest) hds, ofNat_step _ (hexDigitOf_lt hdigit), ← length_cons,
      numeral_step, advance_mIndex, Nat.add_assoc, Nat.add_comm 1]
    rfl

theorem decodeOneSurrogateLoop_none (remaining : Nat) : ∀ {surrogate : UInt16}
    {lexer : GenericLexer}, lexer.Inside →
      (∀ digits behind, lexer.rest = digits ++ behind → digits.length = remaining →
        digits.mapM hexDigitOf = none) →
      ∃ stop, lexer.decodeOneSurrogateLoop remaining surrogate = some (none, lexer.atIndex stop) := by
  induction remaining with
  | zero =>
    intro surrogate lexer _ hnone
    cases hnone [] lexer.rest rfl rfl
  | succ remaining ih =>
    intro surrogate lexer hinside hnone
    simp only [decodeOneSurrogateLoop, hinside.nextIsHexDigit_eq, bind_eq_bind,
      bind_some]
    cases hdigit : hexDigitOf (lexer.rest.headD 0) with
    | none => exact ⟨lexer.mIndex, rfl⟩
    | some digit =>
      cases hrest : lexer.rest with
      | nil =>
        have hzero : hexDigitOf 0 = none := by decide
        rw [hrest, headD_nil, hzero] at hdigit
        cases hdigit
      | cons ch text =>
        rw [hrest, headD_cons] at hdigit
        have hadvance := rest_advance hrest
        have hinside' : lexer.advance.Inside := by
          have hlt := inside_of_rest hrest
          rw [Inside, advance_mIndex, advance_mInput]
          omega
        obtain ⟨stop, hloop⟩ := @ih (surrogate <<< 4 ||| UInt16.ofNat digit) lexer.advance
          hinside' fun digits behind hsplit hlength => by
            have hmore := hnone (ch :: digits) behind
              (by rw [hrest, ← hadvance, hsplit]; rfl)
              (by rw [length_cons, hlength])
            rw [mapM_cons, hdigit] at hmore
            cases hdigits : digits.mapM hexDigitOf with
            | none => rfl
            | some ds =>
              rw [hdigits] at hmore
              cases hmore
        refine ⟨stop, ?_⟩
        simp only [isSome_some, Bool.not_true, Bool.false_eq_true, if_false,
          consumeHexDigit_eq hrest hdigit, bind_some]
        exact hloop

/-- Four hexadecimal digits and their value. -/
def FourDigits (digits : List UInt8) (value : Nat) : Prop :=
  digits.length = 4 ∧ numeral 16 hexDigitOf digits = some value

theorem numeral_eq_some_iff {digits : List UInt8} {value : Nat} :
    numeral 16 hexDigitOf digits = some value ↔
      ∃ ds, digits.mapM hexDigitOf = some ds ∧ Nat.ofDigits 16 ds.reverse = value :=
  map_eq_some_iff

theorem FourDigits.lt {digits : List UInt8} {value : Nat} (h : FourDigits digits value) :
    value < 2 ^ 16 := by
  obtain ⟨hlength, hnumeral⟩ := h
  obtain ⟨ds, hds, rfl⟩ := numeral_eq_some_iff.mp hnumeral
  have hdigits : ∀ {l : List UInt8} {ds : List Nat}, l.mapM hexDigitOf = some ds →
      ds.length = l.length ∧ ∀ d ∈ ds, d < 16 := by
    intro l
    induction l with
    | nil =>
      intro ds hds
      obtain rfl : [] = ds := some.inj hds
      exact ⟨rfl, fun _ h => by cases h⟩
    | cons ch l ih =>
      intro ds hds
      rw [mapM_cons] at hds
      obtain ⟨digit, hdigit, hds⟩ := bind_eq_some_iff.mp hds
      obtain ⟨ds', hds', hsame⟩ := bind_eq_some_iff.mp hds
      obtain rfl : digit :: ds' = ds := some.inj hsame
      obtain ⟨hlength, hall⟩ := ih hds'
      refine ⟨by simp only [length_cons, hlength], fun d hd => ?_⟩
      cases mem_cons.mp hd with
      | inl heq => exact heq ▸ hexDigitOf_lt hdigit
      | inr hmem => exact hall d hmem
  obtain ⟨hfour, hall⟩ := hdigits hds
  have hlt := @Nat.ofDigits_lt_base_pow_length 16 ds.reverse (by decide)
    (fun d hd => hall d (mem_reverse.mp hd))
  rw [length_reverse, hfour, hlength] at hlt
  exact hlt

theorem decodeOneSurrogate_eq {digits behind : List UInt8} {value : Nat}
    (hrest : lexer.rest = digits ++ behind) (h : FourDigits digits value) :
    lexer.decodeOneSurrogate = some (some (UInt16.ofNat value), lexer.atIndex (lexer.mIndex + 4)) := by
  obtain ⟨hlength, hnumeral⟩ := h
  obtain ⟨ds, hds, rfl⟩ := numeral_eq_some_iff.mp hnumeral
  have hloop := @decodeOneSurrogateLoop_digits digits behind 0 lexer ds hrest hds
  rw [hlength] at hloop
  rw [decodeOneSurrogate, hloop, UInt16.toNat_zero, Nat.zero_mul, Nat.zero_add]

def IsHigh (value : Nat) : Prop := 0xd800 ≤ value ∧ value ≤ 0xdbff

def IsLow (value : Nat) : Prop := 0xdc00 ≤ value ∧ value ≤ 0xdfff

theorem isHighSurrogate_ofNat {value : Nat} (h : value < 2 ^ 16) :
    isHighSurrogate (UInt16.ofNat value) = true ↔ IsHigh value := by
  have hvalue : (UInt16.ofNat value).toNat = value := by rw [toNat_ofNat', Nat.mod_eq_of_lt h]
  simp only [isHighSurrogate, decide_eq_true_iff, UInt16.le_iff_toNat_le, hvalue, IsHigh]
  rfl

theorem isLowSurrogate_ofNat {value : Nat} (h : value < 2 ^ 16) :
    isLowSurrogate (UInt16.ofNat value) = true ↔ IsLow value := by
  have hvalue : (UInt16.ofNat value).toNat = value := by rw [toNat_ofNat', Nat.mod_eq_of_lt h]
  simp only [isLowSurrogate, decide_eq_true_iff, UInt16.le_iff_toNat_le, hvalue, IsLow]
  rfl

/-- What a value of four digits is decoded to, where `behind` stands behind them: itself, or
a code point with the low surrogate that follows it. -/
structure DecodesUnit (lexer : GenericLexer) (combine : Bool) (value : Nat) (behind : List UInt8)
    (result : Option (Except UnicodeEscapeError Nat × GenericLexer)) : Prop where
  alone : (¬ (combine = true ∧ IsHigh value ∧ unicodeEscape <+: behind)) →
    result = some (.ok value, lexer.atIndex (lexer.mIndex + 6))
  paired : combine = true → IsHigh value → ∀ digits low behind',
    behind = unicodeEscape ++ digits ++ behind' → FourDigits digits low → IsLow low →
    result = some (.ok (0x10000 + (value - 0xd800) * 0x400 + (low - 0xdc00)),
      lexer.atIndex (lexer.mIndex + 12))
  unpaired : combine = true → IsHigh value → ∀ digits low behind',
    behind = unicodeEscape ++ digits ++ behind' → FourDigits digits low → ¬ IsLow low →
    result = some (.ok value, lexer.atIndex (lexer.mIndex + 6))
  malformed : combine = true → IsHigh value → ∀ text, behind = unicodeEscape ++ text →
    (∀ digits low behind', text = digits ++ behind' → ¬ FourDigits digits low) →
    ∃ index, result = some (.error .malformedUnicodeEscape, lexer.atIndex index)

/-! ## Escapes -/

theorem rest_atIndex {front behind : List UInt8} (h : lexer.rest = front ++ behind) :
    (lexer.atIndex (lexer.mIndex + front.length)).rest = behind := by
  rw [rest, atIndex_mInput, atIndex_mIndex, ← drop_drop, ← rest, h, drop_left]

theorem inside_atIndex {front behind : List UInt8} (hinside : lexer.Inside)
    (h : lexer.rest = front ++ behind) : (lexer.atIndex (lexer.mIndex + front.length)).Inside := by
  have hlength := congrArg List.length h
  rw [rest, length_drop, length_append, ← StringView.length] at hlength
  rw [Inside] at hinside
  rw [Inside, atIndex_mIndex, atIndex_mInput]
  omega

theorem decodePairedSurrogate_spec (hinside : lexer.Inside) {value : Nat} (hvalue : value < 2 ^ 16)
    (hhigh : IsHigh value) : (¬ unicodeEscape <+: lexer.rest →
      lexer.decodePairedSurrogate true (UInt16.ofNat value) = some (.ok value, lexer)) ∧
    (∀ digits low behind, lexer.rest = unicodeEscape ++ digits ++ behind → FourDigits digits low →
      (IsLow low → lexer.decodePairedSurrogate true (UInt16.ofNat value) =
        some (.ok (0x10000 + (value - 0xd800) * 0x400 + (low - 0xdc00)),
          lexer.atIndex (lexer.mIndex + 6))) ∧
      (¬ IsLow low →
        lexer.decodePairedSurrogate true (UInt16.ofNat value) = some (.ok value, lexer))) ∧
    ∀ text, lexer.rest = unicodeEscape ++ text →
      (∀ digits low behind, text = digits ++ behind → ¬ FourDigits digits low) →
      ∃ index, lexer.decodePairedSurrogate true (UInt16.ofNat value) =
        some (.error .malformedUnicodeEscape, lexer.atIndex index) := by
  have htoNat : (UInt16.ofNat value).toNat = value := by rw [toNat_ofNat', Nat.mod_eq_of_lt hvalue]
  have hspecific := hinside.consumeSpecificString_unicodeEscape
  have htwo : lexer.advance.advance = lexer.atIndex (lexer.mIndex + unicodeEscape.length) := rfl
  have hdecode : unicodeEscape <+: lexer.rest →
      lexer.decodePairedSurrogate true (UInt16.ofNat value) =
        (lexer.atIndex (lexer.mIndex + unicodeEscape.length)).decodeOneSurrogate.bind fun result =>
          match result.1 with
          | none => some (.error .malformedUnicodeEscape, result.2)
          | some low =>
            if isLowSurrogate low then
              (Utf16View.decodeSurrogatePair (UInt16.ofNat value) low).map fun codePoint =>
                (.ok codePoint, result.2)
            else (result.2.retreatCount 6).map fun lexer => (.ok value, lexer) := by
    intro hprefix
    rw [if_pos hprefix, htwo] at hspecific
    simp only [decodePairedSurrogate, Bool.not_true, Bool.false_eq_true, if_false, hspecific,
      bind_eq_bind, bind_some, htoNat]
  refine ⟨fun hprefix => ?_, fun digits low behind hrest hdigits => ?_, fun text hrest hnone => ?_⟩
  · rw [if_neg hprefix] at hspecific
    simp only [decodePairedSurrogate, Bool.not_true, Bool.false_eq_true, if_false, hspecific,
      bind_eq_bind, bind_some, Bool.not_false, if_true, htoNat]
  · rw [List.append_assoc] at hrest
    have hlow := hdigits.lt
    have hindex : lexer.mIndex + unicodeEscape.length + 4 = lexer.mIndex + 6 := rfl
    rw [hdecode (hrest ▸ prefix_append _ _), decodeOneSurrogate_eq (rest_atIndex hrest) hdigits,
      bind_some, atIndex_atIndex, atIndex_mIndex, hindex]
    dsimp only
    refine ⟨fun hisLow => ?_, fun hisLow => ?_⟩
    · have hpair : pairValue (UInt16.ofNat value) (UInt16.ofNat low) =
          0x10000 + (value - 0xd800) * 0x400 + (low - 0xdc00) := by
        rw [pairValue, htoNat, toNat_ofNat', Nat.mod_eq_of_lt hlow,
          Nat.shiftLeft_eq]
        omega
      rw [if_pos ((isLowSurrogate_ofNat hlow).mpr hisLow),
        Utf16View.decodeSurrogatePair_pair ((isHighSurrogate_ofNat hvalue).mpr hhigh)
          ((isLowSurrogate_ofNat hlow).mpr hisLow), hpair, map_some]
    · -- the two escapes are as long as what is retreated by
      rw [if_neg (mt (isLowSurrogate_ofNat hlow).mp hisLow), retreatCount, atIndex_mIndex,
        if_pos (Nat.le_add_left _ _), map_some, Nat.add_sub_cancel]
      rfl
  · have hprefix : unicodeEscape <+: lexer.rest := hrest ▸ prefix_append _ _
    obtain ⟨index, hloop⟩ := @decodeOneSurrogateLoop_none 4 0
      (lexer.atIndex (lexer.mIndex + unicodeEscape.length)) (inside_atIndex hinside hrest)
      fun digits behind hsplit hlength => by
        rw [rest_atIndex hrest] at hsplit
        cases hds : digits.mapM hexDigitOf with
        | none => rfl
        | some ds =>
          refine absurd ⟨hlength, ?_⟩ (hnone digits (Nat.ofDigits 16 ds.reverse) behind hsplit)
          exact numeral_eq_some_iff.mpr ⟨ds, hds, rfl⟩
    refine ⟨index, ?_⟩
    rw [hdecode hprefix, decodeOneSurrogate, hloop, bind_some]
    rfl

variable {digits behind : List UInt8} {value : Nat}

theorem head_ne_of_numeral (hnumeral : numeral 16 hexDigitOf digits = some value)
    (hne : digits ≠ []) (hch : hexDigitOf ch = none) : (digits ++ behind).headD 0 ≠ ch := by
  cases digits with
  | nil => exact absurd rfl hne
  | cons first digits =>
    rintro rfl
    rw [List.cons_append, headD_cons] at hch
    rw [numeral_cons_none hch] at hnumeral
    cases hnumeral

/-- Four digits that are decoded on their own or with a pair. -/
theorem decodesUnit (hinside : lexer.Inside)
    (hrest : lexer.rest = unicodeEscape ++ digits ++ behind) (hdigits : FourDigits digits value)
    (combine : Bool) :
    lexer.DecodesUnit combine value behind (lexer.consumeEscapedCodePoint combine) := by
  have hvalue := hdigits.lt
  have hrest' : lexer.rest = unicodeEscape ++ (digits ++ behind) := by rw [hrest, List.append_assoc]
  have hsix : (unicodeEscape ++ digits).length = 6 := by
    rw [length_append, hdigits.1]
    rfl
  have hbehind : (lexer.atIndex (lexer.mIndex + 6)).rest = behind := hsix ▸ rest_atIndex hrest
  have hinsideBehind : (lexer.atIndex (lexer.mIndex + 6)).Inside :=
    hsix ▸ inside_atIndex hinside hrest
  have hspecific := hinside.consumeSpecificString_unicodeEscape
  rw [if_pos (hrest' ▸ prefix_append _ _)] at hspecific
  have hinsideDigits : (lexer.atIndex (lexer.mIndex + unicodeEscape.length)).Inside :=
    inside_atIndex hinside hrest'
  have htwo : lexer.advance.advance = lexer.atIndex (lexer.mIndex + unicodeEscape.length) := rfl
  have hfirst : (digits ++ behind).headD 0 ≠ byte '\x7b' :=
    head_ne_of_numeral hdigits.2 (ne_nil_of_length_eq_add_one hdigits.1) (by decide)
  have hopen : lexer.advance.advance.nextIsChar (byte '\x7b') = some false := by
    rw [htwo, nextIsChar, hinsideDigits.peek_rest, rest_atIndex hrest', map_some,
      beq_eq_false_iff_ne.mpr hfirst]
  have hdecode : lexer.consumeEscapedCodePoint combine =
      if !isHighSurrogate (UInt16.ofNat value) then
        some (.ok value, lexer.atIndex (lexer.mIndex + 6))
      else (lexer.atIndex (lexer.mIndex + 6)).decodePairedSurrogate combine (UInt16.ofNat value) := by
    have hone : lexer.advance.advance.decodeOneSurrogate =
        some (some (UInt16.ofNat value), lexer.atIndex (lexer.mIndex + 6)) :=
      decodeOneSurrogate_eq (htwo ▸ rest_atIndex hrest') hdigits
    have htoNat : (UInt16.ofNat value).toNat = value := by
      rw [toNat_ofNat', Nat.mod_eq_of_lt hvalue]
    simp only [consumeEscapedCodePoint, hspecific, bind_eq_bind, bind_some,
      Bool.not_true, Bool.false_eq_true, if_false, hopen, decodeSingleOrPairedSurrogate, hone,
      htoNat]
  have hhighIff := isHighSurrogate_ofNat hvalue
  have hpaired : combine = true → IsHigh value → lexer.consumeEscapedCodePoint combine =
      (lexer.atIndex (lexer.mIndex + 6)).decodePairedSurrogate true (UInt16.ofNat value) := by
    rintro rfl hhigh
    rw [hdecode, hhighIff.mpr hhigh]
    rfl
  constructor
  · intro halone
    by_cases hhigh : IsHigh value
    · cases combine with
      | false =>
        rw [hdecode, hhighIff.mpr hhigh]
        simp only [Bool.not_true, Bool.false_eq_true, if_false, decodePairedSurrogate,
          Bool.not_false, if_true, toNat_ofNat', Nat.mod_eq_of_lt hvalue]
      | true =>
        rw [hpaired rfl hhigh]
        refine (decodePairedSurrogate_spec hinsideBehind hvalue hhigh).1 ?_
        rw [hbehind]
        exact fun hprefix => halone ⟨rfl, hhigh, hprefix⟩
    · rw [hdecode, Bool.eq_false_iff.mpr (mt hhighIff.mp hhigh)]
      rfl
  · intro hcombine hhigh digits low behind' hsplit hlow hisLow
    rw [hpaired hcombine hhigh]
    exact ((decodePairedSurrogate_spec hinsideBehind hvalue hhigh).2.1 digits low behind'
      (hbehind.trans hsplit) hlow).1 hisLow
  · intro hcombine hhigh digits low behind' hsplit hlow hisLow
    rw [hpaired hcombine hhigh]
    exact ((decodePairedSurrogate_spec hinsideBehind hvalue hhigh).2.1 digits low behind'
      (hbehind.trans hsplit) hlow).2 hisLow
  · intro hcombine hhigh text hsplit hnone
    rw [hpaired hcombine hhigh]
    exact (decodePairedSurrogate_spec hinsideBehind hvalue hhigh).2.2 text
      (hbehind.trans hsplit) hnone

theorem decodes (hinside : lexer.Inside) (hrest : lexer.rest =
      unicodeEscape ++ byte '\x7b' :: (digits ++ byte '\x7d' :: behind))
    (hne : digits ≠ []) (hnumeral : numeral 16 hexDigitOf digits = some value) (combine : Bool) :
    lexer.Decodes value (lexer.mIndex + digits.length + 4)
      (lexer.consumeEscapedCodePoint combine) := by
  have hspecific := hinside.consumeSpecificString_unicodeEscape
  rw [if_pos (hrest ▸ prefix_append _ _)] at hspecific
  have htwo : lexer.advance.advance.rest = byte '\x7b' :: (digits ++ byte '\x7d' :: behind) :=
    rest_atIndex hrest
  have hinsideBrace : lexer.advance.advance.Inside := Nat.le_of_lt (inside_of_rest htwo)
  have hopen : lexer.advance.advance.nextIsChar (byte '\x7b') = some true := by
    rw [nextIsChar, hinsideBrace.peek_rest, htwo, headD_cons, map_some, beq_self_eq_true]
  obtain ⟨ds, hds, rfl⟩ := numeral_eq_some_iff.mp hnumeral
  have hthree := rest_advance htwo
  have hfuel : digits.length ≤ lexer.rounds := by
    have hlength := congrArg List.length hrest
    rw [rest, length_drop] at hlength
    simp only [length_append, length_cons] at hlength
    rw [rounds, StringView.length]
    omega
  have hloop := @decodeCodePointLoop_spec digits behind lexer.rounds 0 0 _ ds hthree hne hds
    tracks_zero hfuel
  have hdecode : lexer.consumeEscapedCodePoint combine =
      lexer.advance.advance.advance.decodeCodePointLoop lexer.rounds 0 := by
    simp only [consumeEscapedCodePoint, hspecific, bind_eq_bind, bind_some,
      Bool.not_true, Bool.false_eq_true, if_false, hopen, if_true, decodeCodePoint,
      consumeSpecificChar_rest htwo (by decide : byte '\x7b' ≠ 0)]
    rfl
  have hstop : lexer.advance.advance.advance.mIndex + digits.length + 1 =
      lexer.mIndex + digits.length + 4 := by
    simp only [advance_mIndex]
    omega
  rw [Nat.zero_mul, Nat.zero_add, hstop] at hloop
  rw [hdecode]
  exact hloop

/-- Escaped code points are decoded as their digits say. -/
theorem consumeEscapedCodePoint_spec (lexer : GenericLexer) (hinside : lexer.Inside)
    (combine : Bool) :
    (∀ digits value behind, digits ≠ [] → numeral 16 hexDigitOf digits = some value →
      lexer.rest = unicodeEscape ++ byte '\x7b' :: (digits ++ byte '\x7d' :: behind) →
      lexer.Decodes value (lexer.mIndex + digits.length + 4)
        (lexer.consumeEscapedCodePoint combine)) ∧
    ∀ digits value behind, FourDigits digits value →
      lexer.rest = unicodeEscape ++ digits ++ behind →
      lexer.DecodesUnit combine value behind (lexer.consumeEscapedCodePoint combine) :=
  ⟨fun _ _ _ hne hnumeral hrest => decodes hinside hrest hne hnumeral combine,
    fun _ _ _ hdigits hrest => decodesUnit hinside hrest hdigits combine⟩

/-- A pair of escapes, `\uD83D\uDE00`, is read at once. -/
theorem consumeEscapedCodePoint_spec_sample : consumeEscapedCodePoint true
        ⟨⟨1, [92, 117, 68, 56, 51, 68, 92, 117, 68, 69, 48, 48], by decide, by decide⟩, 0⟩ =
      some (.ok 0x1F600,
        ⟨⟨1, [92, 117, 68, 56, 51, 68, 92, 117, 68, 69, 48, 48], by decide, by decide⟩, 12⟩) :=
  ((consumeEscapedCodePoint_spec
    ⟨⟨1, [92, 117, 68, 56, 51, 68, 92, 117, 68, 69, 48, 48], by decide, by decide⟩, 0⟩
    (Nat.zero_le _) true).2 [68, 56, 51, 68] 0xD83D [92, 117, 68, 69, 48, 48]
    ⟨rfl, by decide⟩ (by decide)).paired rfl ⟨by decide, by decide⟩
      [68, 69, 48, 48] 0xDE00 [] (by decide) ⟨rfl, by decide⟩
      ⟨by decide, by decide⟩

end GenericLexer

end Literate.AK

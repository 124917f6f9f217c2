import Literate.AK.JsonAccepted
import Literate.AK.JsonSerializer

/-!
# AK: from a value to its text and back

`reread` is what the parser makes of the text of a value: the same tree, but of a
number the first digit, no negative number at all, and `NUL` for a control character
that has no escape of its own.
-/

namespace Literate.AK

open StringUtils JsonParser Json List Option Function Nat
open JsonValue (serialize unsignedInt32)

/-! ## Numbers -/

/-- The first digit of a number. -/
def leadingDigit (n : Nat) : Nat := if n < 10 then n else leadingDigit (n / 10)

def rereadInteger (n : Int) : Option JsonValue :=
  if n < 0 then none else some (.unsignedInt32 (UInt32.ofNat (leadingDigit n.toNat)))

theorem leadingDigit_lt (n : Nat) : leadingDigit n < 10 := by
  fun_induction leadingDigit n with
  | case1 n h => exact h
  | case2 n _ ih => exact ih

theorem leadingDigit_pos {n : Nat} (hn : 0 < n) : 0 < leadingDigit n := by
  fun_induction leadingDigit n with
  | case1 n h => exact hn
  | case2 n h ih => exact ih (by omega)

variable {n : Int} {d fuel : Nat} {text s t k key : List UInt8} {α : Type} {e : Error}
  {members object : List (List UInt8 × JsonValue)}

theorem isDigit_digitChar (hd : d < 10) : isDigit (byte (Nat.digitChar d)) := by
  revert d
  decide

theorem digit_digitChar (hd : d < 10) : digit (byte (Nat.digitChar d)) = d := by
  revert d
  decide

theorem toDigits_cons (n : Nat) : ∃ ds, (Nat.toDigits 10 n).map byte =
    byte (Nat.digitChar (leadingDigit n)) :: ds ∧ (∀ c ∈ ds, isDigit c) ∧ (n < 10 → ds = []) := by
  fun_induction leadingDigit n with
  | case1 n h => exact ⟨[], by rw [toDigits_of_lt_base h]; rfl, by simp, fun _ => rfl⟩
  | case2 n h ih =>
    obtain ⟨ds, hds, hdigits, -⟩ := ih
    refine ⟨ds ++ [byte (Nat.digitChar (n % 10))], ?_, ?_, fun hn => absurd hn h⟩
    · rw [toDigits_of_base_le (by decide) (by omega), map_append, hds]
      rfl
    · intro c hc
      rcases mem_append.mp hc with hc | hc
      · exact hdigits c hc
      · rw [mem_singleton.mp hc]
        exact isDigit_digitChar (mod_lt n (by decide))

theorem digitChar_ne_zero (hpos : 0 < d) (hd : d < 10) : byte (Nat.digitChar d) ≠ byte '0' := by
  intro h
  have hdigit := digit_digitChar hd
  rw [h] at hdigit
  have hzero : digit (byte '0') = 0 := by decide
  omega

theorem leadingDigit_zero : leadingDigit 0 = 0 := by
  rw [leadingDigit, if_pos (by decide)]

theorem parserInt_toDigits (n : Nat) : ParserInt ((Nat.toDigits 10 n).map byte) := by
  obtain ⟨ds, hds, hdigits, hnil⟩ := toDigits_cons n
  rw [hds]
  rcases Nat.eq_zero_or_pos n with rfl | hpos
  · rw [hnil (by decide), leadingDigit_zero]
    exact .zero
  · exact .digits (isDigit_digitChar (leadingDigit_lt n))
      (digitChar_ne_zero (leadingDigit_pos hpos) (leadingDigit_lt n))
      fun c hc => .inl (hdigits c hc)

theorem parseNumber_decimal (n : Int) {rest : List UInt8} (hrest : Follow rest) :
    (parseNumber (decimal n ++ rest)).toOption =
      (rereadInteger n).map fun value => (value, rest) := by
  rw [decimal, rereadInteger]
  split_ifs with hn
  · obtain ⟨ds, hds, hdigits, -⟩ := toDigits_cons n.natAbs
    have hlead := leadingDigit_lt n.natAbs
    have hne := digitChar_ne_zero (leadingDigit_pos (show 0 < n.natAbs by omega)) hlead
    rw [hds]
    obtain ⟨e, he⟩ := @parseNumber_minus (byte (Nat.digitChar (leadingDigit n.natAbs)) :: ds) rest
      (by
        intro c hc
        rcases mem_cons.mp hc with rfl | hc
        · exact isDigit_digitChar hlead
        · exact hdigits c hc)
      ⟨_, mem_cons_self, hne⟩ hrest
    rw [he]
    rfl
  · obtain ⟨ds, hds, -⟩ := toDigits_cons n.toNat
    have hint := parserInt_toDigits n.toNat
    rw [hds] at hint ⊢
    rw [parseNumber_int hint hrest, digit_digitChar (leadingDigit_lt _)]
    rfl

/-! ## Strings -/

/-- A control character without an escape of its own comes back as `NUL`. -/
def rereadByte (ch : UInt8) : UInt8 :=
  if ch < 0x20 ∧ ch ≠ 0x08 ∧ ch ≠ 0x0a ∧ ch ≠ 0x09 then 0 else ch

def rereadString (s : List UInt8) : List UInt8 := s.map rereadByte

theorem digitChar_notMem_whitespace (hd : d < 16) : byte (Nat.digitChar d) ∉ whitespace := by
  revert d
  decide

/-- Of the four digits the parser reads the first. -/
theorem unescapeLoop_hexEscape (ch : UInt8) (sb rest : List UInt8) :
    unescapeLoop sb (hexEscape ch ++ rest) = unescapeLoop (sb ++ [0]) rest := by
  have hch : ch.toNat < 256 := UInt8.toNat_lt ch
  have hcode := @convertToUintFromHex_four (byte '0') (byte '0')
    (byte (Nat.digitChar (ch.toNat / 16))) (byte (Nat.digitChar (ch.toNat % 16))) 0
  exact unescapeLoop_unicode (hcode.mpr ⟨by decide, by decide,
    digitChar_notMem_whitespace (by omega), digitChar_notMem_whitespace (by omega)⟩) sb rest

theorem unescapeLoop_escapedForJson {formatter : Formatter} (hformatter : formatter.Documented)
    {ch : UInt8} (h : escapedForJson formatter ch = some text) (sb rest : List UInt8) :
    unescapeLoop sb (text ++ rest) = unescapeLoop (sb ++ [rereadByte ch]) rest := by
  rw [escapedForJson] at h
  split_ifs at h with hb hn ht hquote hbackslash hcontrol
  · obtain rfl := some.inj h
    subst hb
    exact unescapeLoop_escape (by decide) sb rest
  · obtain rfl := some.inj h
    subst hn
    exact unescapeLoop_escape (by decide) sb rest
  · obtain rfl := some.inj h
    subst ht
    exact unescapeLoop_escape (by decide) sb rest
  · obtain rfl := some.inj h
    subst hquote
    exact unescapeLoop_escape (by decide) sb rest
  · obtain rfl := some.inj h
    subst hbackslash
    exact unescapeLoop_escape (by decide) sb rest
  · have hlt : ch < 0x20 := UInt8.lt_of_le_of_lt hcontrol (by decide)
    rw [hformatter ch text h, unescapeLoop_hexEscape, rereadByte, if_pos ⟨hlt, hb, hn, ht⟩]
  · obtain rfl := some.inj h
    have hle : 0x20 ≤ ch := by
      rw [UInt8.not_le, UInt8.lt_iff_toNat_lt] at hcontrol
      rw [UInt8.le_iff_toNat_le]
      exact hcontrol
    rw [singleton_append, unescapeLoop_plain hquote hbackslash hle, rereadByte,
      if_neg fun hch => UInt8.not_lt.mpr hle hch.1]

theorem unescapeLoop_appendEscapedForJson {formatter : Formatter}
    (hformatter : formatter.Documented)
    (h : appendEscapedForJson formatter s = some text) (sb rest : List UInt8) :
    unescapeLoop sb (text ++ byte '"' :: rest) = .ok (sb ++ rereadString s, rest) := by
  induction s generalizing text sb with
  | nil =>
    obtain rfl := some.inj h
    rw [nil_append, unescapeLoop_quote, rereadString, map_nil, append_nil]
  | cons ch s ih =>
    obtain ⟨item, hitem, tail, htail, rfl⟩ :
        ∃ item, escapedForJson formatter ch = some item ∧
          ∃ tail, appendEscapedForJson formatter s = some tail ∧ item ++ tail = text := by
      simpa [appendEscapedForJson, bind_eq_some_iff] using h
    rw [List.append_assoc, unescapeLoop_escapedForJson hformatter hitem, ih htail]
    simp [rereadString]

theorem consumeAndUnescapeString_quoted {formatter : Formatter} (hformatter : formatter.Documented)
    (h : appendEscapedForJson formatter s = some text) (rest : List UInt8) :
    consumeAndUnescapeString (quoted text ++ rest) = .ok (rereadString s, rest) := by
  have hquoted : quoted text ++ rest = byte '"' :: (text ++ byte '"' :: rest) := by simp [quoted]
  rw [hquoted, consumeAndUnescapeString, consumeSpecific_cons]
  exact unescapeLoop_appendEscapedForJson hformatter h [] rest

/-! ## Values -/

/-- The members of an object that is built one member after the other. -/
def setAll (object members : List (List UInt8 × JsonValue)) : List (List UInt8 × JsonValue) :=
  members.foldl (fun object member => JsonObject.set object member.1 member.2) object

mutual

/-- What the parser makes of the text of a value, if it accepts it. -/
def reread : JsonValue → Option JsonValue
  | .string s => some (.string (rereadString s))
  | .array values => (rereadElements values).map .array
  | .object members => (rereadMembers members).map fun members => .object (setAll [] members)
  | .int32 n => rereadInteger n.toInt
  | .unsignedInt32 n => rereadInteger n.toNat
  | .int64 n => rereadInteger n.toInt
  | .unsignedInt64 n => rereadInteger n.toNat
  | .null => some .null
  | .bool b => some (.bool b)
  | .double d => some (.double d)

def rereadElements : List JsonValue → Option (List JsonValue)
  | [] => some []
  | value :: values => (reread value).bind fun w => (rereadElements values).map fun ws => w :: ws

def rereadMembers : List (List UInt8 × JsonValue) → Option (List (List UInt8 × JsonValue))
  | [] => some []
  | (key, value) :: members => (reread value).bind fun w =>
    (rereadMembers members).map fun ms => (rereadString key, w) :: ms

end

theorem toOption_bind {β : Type} (x : Except Error α) (f : α → Except Error β) :
    (x >>= f).toOption = x.toOption.bind fun a => (f a).toOption := by
  cases x <;> rfl

theorem toOption_eq_some {x : Except Error α} {a : α} : x.toOption = some a ↔ x = .ok a := by
  cases x <;> simp [Except.toOption]

theorem toOption_eq_none {x : Except Error α} : x.toOption = none ↔ ∃ e, x = .error e := by
  cases x <;> simp [Except.toOption]

theorem parseElements_error (ht : Opens t)
    (h : parseHelper fuel (t ++ s) = .error e) (array : List JsonValue) :
    parseElements (fuel + 1) array (t ++ s) = .error e := by
  obtain ⟨hignore, hne⟩ := @ignoreSpaces_value [] t (by simp [Whitespace]) ht s
  rw [nil_append] at hignore
  rw [parseElements]
  simp only [hignore, if_neg hne, h]
  rfl

theorem parseMembers_error {name : List UInt8}
    (hname : ∀ s, consumeAndUnescapeString (quoted k ++ s) = .ok (name, s))
    (h : parseHelper fuel (t ++ s) = .error e) (object : List (List UInt8 × JsonValue)) :
    parseMembers (fuel + 1) object (quoted k ++ byte ':' :: (t ++ s)) = .error e := by
  have hclose := peek_quoted k (byte ':' :: (t ++ s))
  have hignore := @ignoreSpaces_quoted [] (by simp [Whitespace]) k (byte ':' :: (t ++ s))
  rw [nil_append] at hignore
  have hcolon : ignoreSpaces (byte ':' :: (t ++ s)) = byte ':' :: (t ++ s) :=
    ignoreSpaces_cons (by decide) _
  rw [parseMembers]
  simp only [hignore, if_neg hclose, hname, bind, Except.bind, hcolon, consumeSpecific_cons,
    parseHelper_ignoreSpaces, h]

/-- What the fuel has to be, and what comes back, for the text of a value. -/
def Rereads (value : JsonValue) (t : List UInt8) : Prop :=
  Opens t ∧ ∀ fuel rest, 3 * t.length + 3 ≤ fuel → Follow rest →
    (parseHelper fuel (t ++ rest)).toOption = (reread value).map fun w => (w, rest)

def RereadsElements (values : List JsonValue) (t : List UInt8) : Prop :=
  Opens t ∧ ∀ fuel array rest, 3 * t.length + 4 ≤ fuel →
    (parseElements fuel array (t ++ byte ']' :: rest)).toOption =
      (rereadElements values).map fun ws => (.array (array ++ ws), rest)

def RereadsMembers (members : List (List UInt8 × JsonValue)) (t : List UInt8) : Prop :=
  (∃ k s, t = quoted k ++ s) ∧ ∀ fuel object rest, 3 * t.length + 4 ≤ fuel →
    (parseMembers fuel object (t ++ byte '}' :: rest)).toOption =
      (rereadMembers members).map fun ms => (.object (setAll object ms), rest)

theorem rereads_integer {value : JsonValue} (h : reread value = rereadInteger n) :
    Rereads value (decimal n) := by
  obtain ⟨c, t, ht, hc⟩ : ∃ c t, decimal n = c :: t ∧ (c = byte '-' ∨ isDigit c) := by
    rw [decimal]
    split_ifs
    · exact ⟨_, _, rfl, .inl rfl⟩
    · obtain ⟨ds, hds, -⟩ := toDigits_cons n.toNat
      exact ⟨_, ds, hds, .inr (isDigit_digitChar (leadingDigit_lt _))⟩
  have hnumber : isNumberChar c := isNumberChar_iff.mpr (.inr hc)
  refine ⟨⟨c, t, ht, fun hspace => not_isNumberChar_of_isSpace hspace hnumber, ?_⟩,
    fun fuel rest hfuel hrest => ?_⟩
  · rintro rfl
    exact absurd hnumber (by decide)
  · obtain ⟨fuel, rfl⟩ := exists_eq_succ_of_ne_zero (show fuel ≠ 0 by omega)
    have hparse : parseHelper (fuel + 1) (decimal n ++ rest) = parseNumber (decimal n ++ rest) := by
      rw [ht, List.cons_append, parseHelper_number hc]
    rw [hparse, parseNumber_decimal n hrest, h]

theorem rereadsElements_last {value : JsonValue} (h : Rereads value t) :
    RereadsElements [value] t := by
  obtain ⟨hopens, hvalue⟩ := h
  refine ⟨hopens, fun fuel array rest hfuel => ?_⟩
  obtain ⟨fuel, rfl⟩ := exists_eq_succ_of_ne_zero (show fuel ≠ 0 by omega)
  have hparse := hvalue fuel (byte ']' :: rest) (by omega) (follow_cons (by decide))
  simp only [rereadElements, map_some]
  cases hreread : reread value with
  | none =>
    rw [hreread] at hparse
    obtain ⟨e, he⟩ := toOption_eq_none.mp hparse
    rw [parseElements_error hopens he]
    rfl
  | some w =>
    rw [hreread] at hparse
    have hlast := @parseElements_last fuel [] t [] rest w (by simp [Whitespace]) hopens
      (by simp [Whitespace]) (toOption_eq_some.mp hparse) array
    simp only [nil_append] at hlast
    rw [hlast]
    rfl

theorem rereadsElements_next {value : JsonValue} {values : List JsonValue}
    (h : Rereads value t) (hs : RereadsElements values s) :
    RereadsElements (value :: values) (t ++ byte ',' :: s) := by
  obtain ⟨hopens, hvalue⟩ := h
  obtain ⟨hopens', hvalues⟩ := hs
  refine ⟨?_, fun fuel array rest hfuel => ?_⟩
  · obtain ⟨c, t', rfl, hc⟩ := hopens
    exact ⟨c, _, rfl, hc⟩
  rw [length_append, length_cons] at hfuel
  obtain ⟨fuel, rfl⟩ := exists_eq_succ_of_ne_zero (show fuel ≠ 0 by omega)
  have hparse := hvalue fuel (byte ',' :: (s ++ byte ']' :: rest)) (by omega)
    (follow_cons (by decide))
  rw [List.append_assoc, List.cons_append, rereadElements]
  cases hreread : reread value with
  | none =>
    rw [hreread] at hparse
    obtain ⟨e, he⟩ := toOption_eq_none.mp hparse
    rw [parseElements_error hopens he]
    rfl
  | some w =>
    rw [hreread] at hparse
    have hpeek : peek (ignoreSpaces (s ++ byte ']' :: rest)) ≠ byte ']' := by
      obtain ⟨hignore, hne⟩ := @ignoreSpaces_value [] s (by simp [Whitespace]) hopens'
        (byte ']' :: rest)
      rw [nil_append] at hignore
      rwa [hignore]
    have hnext := @parseElements_next fuel [] t [] (s ++ byte ']' :: rest) w
      (by simp [Whitespace]) hopens (by simp [Whitespace]) (toOption_eq_some.mp hparse) hpeek
      array
    simp only [nil_append] at hnext
    rw [hnext, hvalues fuel (array ++ [w]) rest (by omega)]
    simp [comp_def]

section

variable {formatter : Formatter} (hformatter : formatter.Documented)

include hformatter

theorem rereadsMembers_last {value : JsonValue}
    (hk : appendEscapedForJson formatter key = some k) (h : Rereads value t) :
    RereadsMembers [(key, value)] (quoted k ++ byte ':' :: t) := by
  obtain ⟨-, hvalue⟩ := h
  have hname := consumeAndUnescapeString_quoted hformatter hk
  refine ⟨⟨k, _, rfl⟩, fun fuel object rest hfuel => ?_⟩
  rw [length_append, length_cons] at hfuel
  obtain ⟨fuel, rfl⟩ := exists_eq_succ_of_ne_zero (show fuel ≠ 0 by omega)
  have hparse := hvalue fuel (byte '}' :: rest) (by omega) (follow_cons (by decide))
  rw [List.append_assoc, List.cons_append]
  simp only [rereadMembers, map_some]
  cases hreread : reread value with
  | none =>
    rw [hreread] at hparse
    obtain ⟨e, he⟩ := toOption_eq_none.mp hparse
    rw [parseMembers_error hname he]
    rfl
  | some w =>
    rw [hreread] at hparse
    have hnil : Whitespace [] := by simp [Whitespace]
    have hlast := @parseMembers_last fuel [] k [] [] t [] rest _ w hnil hnil hname hnil hnil
      (toOption_eq_some.mp hparse) object
    simp only [nil_append] at hlast
    rw [hlast]
    rfl

theorem rereadsMembers_next {value : JsonValue} (hk : appendEscapedForJson formatter key = some k)
    (h : Rereads value t) (hs : RereadsMembers members s) :
    RereadsMembers ((key, value) :: members) (quoted k ++ byte ':' :: (t ++ byte ',' :: s)) := by
  obtain ⟨-, hvalue⟩ := h
  obtain ⟨⟨k', s', rfl⟩, hmembers⟩ := hs
  have hname := consumeAndUnescapeString_quoted hformatter hk
  refine ⟨⟨k, _, rfl⟩, fun fuel object rest hfuel => ?_⟩
  simp only [length_append, length_cons] at hfuel
  obtain ⟨fuel, rfl⟩ := exists_eq_succ_of_ne_zero (show fuel ≠ 0 by omega)
  have hparse := hvalue fuel (byte ',' :: (quoted k' ++ s' ++ byte '}' :: rest)) (by omega)
    (follow_cons (by decide))
  rw [List.append_assoc, List.cons_append, List.append_assoc, List.cons_append]
  simp only [rereadMembers]
  cases hreread : reread value with
  | none =>
    rw [hreread] at hparse
    obtain ⟨e, he⟩ := toOption_eq_none.mp hparse
    rw [parseMembers_error hname he]
    rfl
  | some w =>
    rw [hreread] at hparse
    have hnil : Whitespace [] := by simp [Whitespace]
    have hpeek : peek (ignoreSpaces (quoted k' ++ s' ++ byte '}' :: rest)) ≠ byte '}' := by
      have hignore := ignoreSpaces_quoted hnil k' (s' ++ byte '}' :: rest)
      rw [nil_append] at hignore
      rw [List.append_assoc, hignore]
      exact peek_quoted _ _
    have hnext := @parseMembers_next fuel [] k [] [] t [] (quoted k' ++ s' ++ byte '}' :: rest) _
      w hnil hnil hname hnil hnil (toOption_eq_some.mp hparse) hpeek object
    simp only [nil_append] at hnext
    rw [hnext, hmembers fuel _ rest (by simp only [length_append]; omega)]
    simp [comp_def, setAll]

end

/-! ### Every value -/

theorem serializeElements_false (formatter : Formatter) (value : JsonValue)
    (values : List JsonValue) : serializeElements formatter false (value :: values) =
      (serializeElements formatter true (value :: values)).map fun t => byte ',' :: t := by
  simp only [serializeElements]
  cases value.serialize formatter with
  | none => rfl
  | some text => cases serializeElements formatter false values <;> rfl

theorem serializeMembers_false (formatter : Formatter) (member : List UInt8 × JsonValue)
    (members : List (List UInt8 × JsonValue)) :
    serializeMembers formatter false (member :: members) =
      (serializeMembers formatter true (member :: members)).map fun t => byte ',' :: t := by
  obtain ⟨key, value⟩ := member
  simp only [serializeMembers, beginItem]
  cases appendEscapedForJson formatter key with
  | none => rfl
  | some k =>
    cases value.serialize formatter with
    | none => rfl
    | some text => cases serializeMembers formatter false members <;> rfl

mutual

/-- The parser reads the text of a value as `reread` says. -/
theorem rereads_serialize {formatter : Formatter} (hformatter : formatter.Documented) :
    ∀ (value : JsonValue) (t : List UInt8),
    value.serialize formatter = some t → value.NoDouble → Rereads value t
  | .null, t, h, _ => by
    obtain rfl := some.inj h
    refine ⟨⟨_, _, rfl, by decide, by decide⟩, fun fuel rest hfuel _ => ?_⟩
    obtain ⟨fuel, rfl⟩ := exists_eq_succ_of_ne_zero (show fuel ≠ 0 by omega)
    rfl
  | .bool true, t, h, _ => by
    obtain rfl := some.inj h
    refine ⟨⟨_, _, rfl, by decide, by decide⟩, fun fuel rest hfuel _ => ?_⟩
    obtain ⟨fuel, rfl⟩ := exists_eq_succ_of_ne_zero (show fuel ≠ 0 by omega)
    rfl
  | .bool false, t, h, _ => by
    obtain rfl := some.inj h
    refine ⟨⟨_, _, rfl, by decide, by decide⟩, fun fuel rest hfuel _ => ?_⟩
    obtain ⟨fuel, rfl⟩ := exists_eq_succ_of_ne_zero (show fuel ≠ 0 by omega)
    rfl
  | .double d, _, _, hdouble => absurd hdouble (by simp [JsonValue.NoDouble])
  | .int32 n, t, h, _ => by
    obtain rfl := some.inj h
    exact rereads_integer rfl
  | .unsignedInt32 n, t, h, _ => by
    obtain rfl := some.inj h
    exact rereads_integer rfl
  | .int64 n, t, h, _ => by
    obtain rfl := some.inj h
    exact rereads_integer rfl
  | .unsignedInt64 n, t, h, _ => by
    obtain rfl := some.inj h
    exact rereads_integer rfl
  | .string s, t, h, _ => by
    obtain ⟨k, hk, rfl⟩ : ∃ k, appendEscapedForJson formatter s = some k ∧ quoted k = t := by
      simpa [serialize, bind_eq_some_iff, quoted] using h
    refine ⟨⟨_, _, rfl, by decide, by decide⟩, fun fuel rest hfuel _ => ?_⟩
    obtain ⟨fuel, rfl⟩ := exists_eq_succ_of_ne_zero (show fuel ≠ 0 by omega)
    rw [parseHelper_string, parseString, consumeAndUnescapeString_quoted hformatter hk]
    rfl
  | .array [], t, h, _ => by
    obtain rfl := some.inj h
    refine ⟨⟨_, _, rfl, by decide, by decide⟩, fun fuel rest hfuel _ => ?_⟩
    obtain ⟨fuel, rfl⟩ := Nat.exists_eq_add_of_le' (show 3 ≤ fuel by omega)
    rfl
  | .array (value :: values), t, h, hdouble => by
    obtain ⟨s, hs, rfl⟩ : ∃ s, serializeElements formatter true (value :: values) = some s ∧
        byte '[' :: (s ++ [byte ']']) = t := by
      simpa only [serialize, bind_eq_bind, bind_eq_some_iff,
        Option.pure_def, some.injEq] using h
    obtain ⟨-, helements⟩ := rereadsElements_serialize hformatter (value :: values) s (by simp) hs
      (by simpa only [JsonValue.NoDouble] using hdouble)
    refine ⟨⟨_, _, rfl, by decide, by decide⟩, fun fuel rest hfuel _ => ?_⟩
    obtain ⟨fuel, rfl⟩ := Nat.exists_eq_add_of_le' (show 3 ≤ fuel by omega)
    simp only [length_cons, length_append] at hfuel
    have hparse := helements (fuel + 1) [] rest (by omega)
    change (parseElements (fuel + 1) [] (s ++ [byte ']'] ++ rest)).toOption = _
    rw [List.append_assoc, singleton_append, hparse, reread, Option.map_map]
    rfl
  | .object [], t, h, _ => by
    obtain rfl := some.inj h
    refine ⟨⟨_, _, rfl, by decide, by decide⟩, fun fuel rest hfuel _ => ?_⟩
    obtain ⟨fuel, rfl⟩ := Nat.exists_eq_add_of_le' (show 3 ≤ fuel by omega)
    rfl
  | .object (member :: members), t, h, hdouble => by
    obtain ⟨s, hs, rfl⟩ : ∃ s, serializeMembers formatter true (member :: members) = some s ∧
        byte '{' :: (s ++ [byte '}']) = t := by
      simpa only [serialize, bind_eq_bind, bind_eq_some_iff,
        Option.pure_def, some.injEq] using h
    obtain ⟨-, hmembers⟩ := rereadsMembers_serialize hformatter (member :: members) s (by simp) hs
      (by simpa only [JsonValue.NoDouble] using hdouble)
    refine ⟨⟨_, _, rfl, by decide, by decide⟩, fun fuel rest hfuel _ => ?_⟩
    obtain ⟨fuel, rfl⟩ := Nat.exists_eq_add_of_le' (show 3 ≤ fuel by omega)
    simp only [length_cons, length_append] at hfuel
    have hparse := hmembers (fuel + 1) [] rest (by omega)
    change (parseMembers (fuel + 1) [] (s ++ [byte '}'] ++ rest)).toOption = _
    rw [List.append_assoc, singleton_append, hparse, reread, Option.map_map]
    rfl

theorem rereadsElements_serialize {formatter : Formatter} (hformatter : formatter.Documented) :
    ∀ (values : List JsonValue) (t : List UInt8),
    values ≠ [] → serializeElements formatter true values = some t →
      JsonValue.NoDoubleElements values → RereadsElements values t
  | [], _, hne, _, _ => absurd rfl hne
  | [value], t, _, h, hdouble => by
    have hvalue : value.serialize formatter = some t := by
      simpa [serializeElements, bind_eq_some_iff] using h
    exact rereadsElements_last (rereads_serialize hformatter value t hvalue hdouble.1)
  | value :: value' :: values, t, _, h, hdouble => by
    rw [serializeElements, serializeElements_false] at h
    obtain ⟨text, htext, s, hs, rfl⟩ : ∃ text, value.serialize formatter = some text ∧
        ∃ s, serializeElements formatter true (value' :: values) = some s ∧
          text ++ byte ',' :: s = t := by
      simpa only [bind_eq_bind, bind_eq_some_iff, Option.pure_def,
        some.injEq, map_eq_some_iff, if_true, nil_append,
        exists_exists_and_eq_and] using h
    exact rereadsElements_next (rereads_serialize hformatter value text htext hdouble.1)
      (rereadsElements_serialize hformatter (value' :: values) s (by simp) hs hdouble.2)

theorem rereadsMembers_serialize {formatter : Formatter} (hformatter : formatter.Documented) :
    ∀ (members : List (List UInt8 × JsonValue)) (t : List UInt8),
    members ≠ [] → serializeMembers formatter true members = some t →
      JsonValue.NoDoubleMembers members → RereadsMembers members t
  | [], _, hne, _, _ => absurd rfl hne
  | [(key, value)], t, _, h, hdouble => by
    obtain ⟨k, hk, text, htext, rfl⟩ : ∃ k, appendEscapedForJson formatter key = some k ∧
        ∃ text, value.serialize formatter = some text ∧ quoted k ++ byte ':' :: text = t := by
      simpa [serializeMembers, beginItem, bind_eq_some_iff, quoted] using h
    have hvalue := rereads_serialize hformatter value text htext hdouble.1
    exact rereadsMembers_last hformatter hk hvalue
  | (key, value) :: member :: members, t, _, h, hdouble => by
    rw [serializeMembers, serializeMembers_false] at h
    obtain ⟨k, hk, text, htext, s, hs, rfl⟩ : ∃ k, appendEscapedForJson formatter key = some k ∧
        ∃ text, value.serialize formatter = some text ∧
          ∃ s, serializeMembers formatter true (member :: members) = some s ∧
            quoted k ++ byte ':' :: (text ++ byte ',' :: s) = t := by
      simpa [beginItem, bind_eq_some_iff, quoted] using h
    have hvalue := rereads_serialize hformatter value text htext hdouble.1
    exact rereadsMembers_next hformatter hk hvalue
      (rereadsMembers_serialize hformatter (member :: members) s (by simp) hs hdouble.2)

end

/-! ## What comes back the same -/

/-- The integers that come back. -/
def OneDigit (n : Int) : Prop := 0 ≤ n ∧ n ≤ 9

/-- The bytes that come back. -/
def Kept (c : UInt8) : Prop := rereadByte c = c

theorem leadingDigit_eq_iff {n : Nat} : leadingDigit n = n ↔ n < 10 := by
  constructor
  · intro h
    rw [← h]
    exact leadingDigit_lt n
  · intro h
    rw [leadingDigit, if_pos h]

theorem rereadInteger_same_iff :
    (∃ w, rereadInteger n = some w ∧ w.integer = some n) ↔ OneDigit n := by
  rw [rereadInteger, OneDigit]
  split_ifs with hn
  · simp only [false_and, exists_false, false_iff]
    omega
  · have hlt := leadingDigit_lt n.toNat
    have hiff := @leadingDigit_eq_iff n.toNat
    simp only [some.injEq, exists_eq_left', JsonValue.integer, UInt32.toNat_ofNat']
    rw [mod_eq_of_lt (by omega)]
    omega

theorem rereadByte_idem (c : UInt8) : rereadByte (rereadByte c) = rereadByte c := by
  by_cases hc : c < 0x20 ∧ c ≠ 0x08 ∧ c ≠ 0x0a ∧ c ≠ 0x09
  · have hzero : rereadByte c = 0 := if_pos hc
    rw [hzero]
    decide
  · have hkept : rereadByte c = c := if_neg hc
    rw [hkept, hkept]

theorem rereadString_eq_iff : rereadString s = s ↔ ∀ c ∈ s, Kept c := by
  rw [rereadString]
  induction s with
  | nil => simp
  | cons c s ih =>
    rw [map_cons, List.cons.injEq, ih, forall_mem_cons]
    rfl

theorem rereadString_idem (s : List UInt8) : rereadString (rereadString s) = rereadString s := by
  simp only [rereadString, List.map_map]
  exact map_congr_left fun c _ => rereadByte_idem c

/-! ### The members of an object -/

theorem set_of_notMem (hkey : key ∉ members.map Prod.fst) (value : JsonValue) :
    JsonObject.set members key value = members ++ [(key, value)] := by
  induction members with
  | nil => rfl
  | cons member members ih =>
    obtain ⟨k, v⟩ := member
    simp only [map_cons, mem_cons, not_or] at hkey
    rw [JsonObject.set, if_neg (Ne.symm hkey.1), ih hkey.2]
    rfl

theorem keys_set {value : JsonValue} (h : k ∈ (JsonObject.set members key value).map Prod.fst) :
    k = key ∨ k ∈ members.map Prod.fst := by
  induction members with
  | nil => simpa [JsonObject.set] using h
  | cons member members ih =>
    obtain ⟨k', v⟩ := member
    rw [JsonObject.set] at h
    split_ifs at h with hk
    · rw [hk]
      exact .inr (by simpa using h)
    · rcases mem_cons.mp h with rfl | h
      · exact .inr (by simp)
      · exact (ih h).imp_right fun hmem => mem_cons_of_mem _ hmem

theorem keys_setAll (h : k ∈ (setAll object members).map Prod.fst) :
    k ∈ object.map Prod.fst ∨ k ∈ members.map Prod.fst := by
  induction members generalizing object with
  | nil => exact .inl h
  | cons member members ih =>
    rcases ih h with h | h
    · rcases keys_set h with rfl | h
      · exact .inr (by simp)
      · exact .inl h
    · exact .inr (by simp [List.mem_map.mp h])

theorem setAll_of_nodup (h : ((object ++ members).map Prod.fst).Nodup) :
    setAll object members = object ++ members := by
  induction members generalizing object with
  | nil => exact (append_nil object).symm
  | cons member members ih =>
    have hmember : member.1 ∉ object.map Prod.fst := by
      rw [map_append, nodup_append] at h
      intro hmem
      exact h.2.2 _ hmem _ (by simp) rfl
    have happend : object ++ member :: members = object ++ [member] ++ members := by simp
    rw [happend] at h ⊢
    rw [← ih h, ← set_of_notMem hmember]
    rfl

theorem keys_rereadMembers {ms : List (List UInt8 × JsonValue)}
    (h : rereadMembers members = some ms) :
    ms.map Prod.fst = (members.map Prod.fst).map rereadString := by
  induction members generalizing ms with
  | nil =>
    obtain rfl := some.inj h
    rfl
  | cons member members ih =>
    obtain ⟨key, value⟩ := member
    rw [rereadMembers] at h
    obtain ⟨w, -, h'⟩ := bind_eq_some_iff.mp h
    obtain ⟨ms', hms', rfl⟩ := map_eq_some_iff.mp h'
    simp [ih hms']

theorem forAllMembers_keys {number : Int → Prop} {char : UInt8 → Prop}
    (h : JsonValue.ForAllMembers number char members) :
    ∀ k ∈ members.map Prod.fst, ∀ c ∈ k, char c := by
  induction members with
  | nil => simp
  | cons member members ih =>
    obtain ⟨key, value⟩ := member
    rw [JsonValue.ForAllMembers] at h
    intro k hk
    rcases mem_cons.mp hk with rfl | hk
    · exact h.1
    · exact ih h.2.2 k hk

/-! ### Every value -/

mutual

/-- What comes back is the same exactly when every number has one digit and every byte
is kept. -/
theorem reread_same_iff : ∀ value : JsonValue, value.UniqueKeys →
    ((∃ w, reread value = some w ∧ value.Same w) ↔ value.ForAll OneDigit Kept)
  | .null, _ => by simp [reread, JsonValue.Same, JsonValue.ForAll]
  | .bool b, _ => by simp [reread, JsonValue.Same, JsonValue.ForAll]
  | .double d, _ => by simp [reread, JsonValue.Same, JsonValue.ForAll]
  | .int32 n, _ => by
    simp only [reread, JsonValue.Same, JsonValue.ForAll]
    exact rereadInteger_same_iff
  | .unsignedInt32 n, _ => by
    simp only [reread, JsonValue.Same, JsonValue.ForAll]
    exact rereadInteger_same_iff
  | .int64 n, _ => by
    simp only [reread, JsonValue.Same, JsonValue.ForAll]
    exact rereadInteger_same_iff
  | .unsignedInt64 n, _ => by
    simp only [reread, JsonValue.Same, JsonValue.ForAll]
    exact rereadInteger_same_iff
  | .string s, _ => by simp [reread, JsonValue.Same, JsonValue.ForAll, rereadString_eq_iff]
  | .array values, hunique => by
    rw [JsonValue.UniqueKeys] at hunique
    rw [JsonValue.ForAll, ← rereadElements_same_iff values hunique]
    simp only [reread, JsonValue.Same, map_eq_some_iff]
    constructor
    · rintro ⟨_, ⟨ws, hws, rfl⟩, ws', hws', hsame⟩
      obtain rfl := JsonValue.array.inj hws'
      exact ⟨ws, hws, hsame⟩
    · rintro ⟨ws, hws, hsame⟩
      exact ⟨_, ⟨ws, hws, rfl⟩, ws, rfl, hsame⟩
  | .object members, hunique => by
    rw [JsonValue.UniqueKeys] at hunique
    obtain ⟨hnodup, hvalues⟩ := hunique
    have hmembers := rereadMembers_same_iff members hvalues hnodup
    -- once the keys are kept, no member takes the place of another
    have hset : ∀ ms, rereadMembers members = some ms →
        (∀ k ∈ members.map Prod.fst, rereadString k = k) →
        setAll [] ms = ms ∧ ms.map Prod.fst = members.map Prod.fst := by
      intro ms hms hkept
      have hkeys : ms.map Prod.fst = members.map Prod.fst := by
        rw [keys_rereadMembers hms]
        exact (map_congr_left hkept).trans (List.map_id' _)
      exact ⟨setAll_of_nodup (by rwa [nil_append, hkeys]), hkeys⟩
    simp only [reread, JsonValue.Same, JsonValue.ForAll, map_eq_some_iff]
    constructor
    · rintro ⟨_, ⟨ms, hms, rfl⟩, ms', hms', hkeys, hsame⟩
      obtain rfl := JsonValue.object.inj hms'
      have hkept : ∀ k ∈ members.map Prod.fst, rereadString k = k := by
        intro k hk
        have hmem := (keys_setAll (sameMembers_keys hsame k hk)).resolve_left (by simp)
        rw [keys_rereadMembers hms] at hmem
        obtain ⟨k', -, rfl⟩ := List.mem_map.mp hmem
        exact rereadString_idem k'
      rw [(hset ms hms hkept).1] at hsame
      exact (hmembers hkept).mp ⟨ms, hms, hsame⟩
    · intro hall
      have hkept : ∀ k ∈ members.map Prod.fst, rereadString k = k := fun k hk =>
        rereadString_eq_iff.mpr (forAllMembers_keys hall k hk)
      obtain ⟨ms, hms, hsame⟩ := (hmembers hkept).mpr hall
      obtain ⟨hsetAll, hkeys⟩ := hset ms hms hkept
      refine ⟨_, ⟨ms, hms, rfl⟩, _, rfl, fun key => ?_, by rwa [hsetAll]⟩
      rw [hsetAll, Bool.eq_iff_iff, get_isSome_iff, get_isSome_iff, hkeys]

theorem rereadElements_same_iff : ∀ values : List JsonValue,
    JsonValue.UniqueKeysElements values →
    ((∃ ws, rereadElements values = some ws ∧ JsonValue.SameElements values ws) ↔
      JsonValue.ForAllElements OneDigit Kept values)
  | [], _ => by simp [rereadElements, JsonValue.SameElements, JsonValue.ForAllElements]
  | value :: values, hunique => by
    rw [JsonValue.UniqueKeysElements] at hunique
    rw [JsonValue.ForAllElements, ← reread_same_iff value hunique.1,
      ← rereadElements_same_iff values hunique.2]
    simp only [rereadElements, JsonValue.SameElements, bind_eq_some_iff,
      map_eq_some_iff]
    constructor
    · rintro ⟨_, ⟨w, hw, ws, hws, rfl⟩, w', ws', heq, hsame, hsames⟩
      obtain ⟨rfl, rfl⟩ := List.cons.inj heq
      exact ⟨⟨w, hw, hsame⟩, ws, hws, hsames⟩
    · rintro ⟨⟨w, hw, hsame⟩, ws, hws, hsames⟩
      exact ⟨_, ⟨w, hw, ws, hws, rfl⟩, w, ws, rfl, hsame, hsames⟩

theorem rereadMembers_same_iff : ∀ members : List (List UInt8 × JsonValue),
    JsonValue.UniqueKeysMembers members → (members.map Prod.fst).Nodup →
    (∀ k ∈ members.map Prod.fst, rereadString k = k) →
    ((∃ ms, rereadMembers members = some ms ∧ JsonValue.SameMembers members ms) ↔
      JsonValue.ForAllMembers OneDigit Kept members)
  | [], _, _, _ => by simp [rereadMembers, JsonValue.SameMembers, JsonValue.ForAllMembers]
  | (key, value) :: members, hunique, hnodup, hkept => by
    rw [JsonValue.UniqueKeysMembers] at hunique
    rw [map_cons, nodup_cons] at hnodup
    rw [map_cons, forall_mem_cons] at hkept
    have hkey : ∀ c ∈ key, Kept c := rereadString_eq_iff.mp hkept.1
    rw [JsonValue.ForAllMembers, ← reread_same_iff value hunique.1,
      ← rereadMembers_same_iff members hunique.2 hnodup.2 hkept.2]
    simp only [rereadMembers, bind_eq_some_iff, map_eq_some_iff]
    constructor
    · rintro ⟨_, ⟨w, hw, ms, hms, rfl⟩, hsame⟩
      rw [hkept.1, JsonValue.SameMembers, JsonObject.get, if_pos rfl,
        sameMembers_cons hnodup.1] at hsame
      obtain ⟨⟨w', hw', hsame⟩, hsames⟩ := hsame
      obtain rfl := some.inj hw'
      exact ⟨hkey, ⟨w, hw, hsame⟩, ms, hms, hsames⟩
    · rintro ⟨-, ⟨w, hw, hsame⟩, ms, hms, hsames⟩
      refine ⟨_, ⟨w, hw, ms, hms, rfl⟩, ?_⟩
      rw [hkept.1, JsonValue.SameMembers, JsonObject.get, if_pos rfl, sameMembers_cons hnodup.1]
      exact ⟨⟨w, rfl, hsame⟩, hsames⟩

end

/-! ## What is serialized -/

theorem appendEscapedForJson_isSome_iff {formatter : Formatter} :
    (appendEscapedForJson formatter s).isSome ↔
      ∀ c ∈ s, (escapedForJson formatter c).isSome := by
  induction s with
  | nil => simp [appendEscapedForJson]
  | cons c s ih =>
    rw [forall_mem_cons, ← ih, appendEscapedForJson]
    cases escapedForJson formatter c with
    | none => simp
    | some text => cases appendEscapedForJson formatter s <;> simp

mutual

/-- Only a control character can stop the serializer. -/
theorem serialize_isSome_iff {formatter : Formatter} : ∀ value : JsonValue, value.NoDouble →
    ((value.serialize formatter).isSome ↔
      value.ForAll (fun _ => True) fun c => (escapedForJson formatter c).isSome)
  | .null, _ => by simp [serialize, JsonValue.ForAll]
  | .bool b, _ => by simp [serialize, JsonValue.ForAll]
  | .double d, h => absurd h (by simp [JsonValue.NoDouble])
  | .int32 n, _ => by simp [serialize, JsonValue.ForAll]
  | .unsignedInt32 n, _ => by simp [serialize, JsonValue.ForAll]
  | .int64 n, _ => by simp [serialize, JsonValue.ForAll]
  | .unsignedInt64 n, _ => by simp [serialize, JsonValue.ForAll]
  | .string s, _ => by
    rw [JsonValue.ForAll, ← appendEscapedForJson_isSome_iff, serialize]
    cases appendEscapedForJson formatter s <;> simp
  | .array values, h => by
    rw [JsonValue.NoDouble] at h
    rw [JsonValue.ForAll, ← serializeElements_isSome_iff true values h, serialize]
    cases serializeElements formatter true values <;> simp
  | .object members, h => by
    rw [JsonValue.NoDouble] at h
    rw [JsonValue.ForAll, ← serializeMembers_isSome_iff true members h, serialize]
    cases serializeMembers formatter true members <;> simp

theorem serializeElements_isSome_iff {formatter : Formatter} (empty : Bool) :
    ∀ values : List JsonValue, JsonValue.NoDoubleElements values →
    ((serializeElements formatter empty values).isSome ↔
      JsonValue.ForAllElements (fun _ => True) (fun c => (escapedForJson formatter c).isSome)
        values)
  | [], _ => by simp [serializeElements, JsonValue.ForAllElements]
  | value :: values, h => by
    rw [JsonValue.NoDoubleElements] at h
    rw [JsonValue.ForAllElements, ← serialize_isSome_iff value h.1,
      ← serializeElements_isSome_iff false values h.2, serializeElements]
    cases value.serialize formatter with
    | none => simp
    | some text => cases serializeElements formatter false values <;> simp

theorem serializeMembers_isSome_iff {formatter : Formatter} (empty : Bool) :
    ∀ members : List (List UInt8 × JsonValue), JsonValue.NoDoubleMembers members →
    ((serializeMembers formatter empty members).isSome ↔
      JsonValue.ForAllMembers (fun _ => True) (fun c => (escapedForJson formatter c).isSome)
        members)
  | [], _ => by simp [serializeMembers, JsonValue.ForAllMembers]
  | (key, value) :: members, h => by
    rw [JsonValue.NoDoubleMembers] at h
    rw [JsonValue.ForAllMembers, ← appendEscapedForJson_isSome_iff,
      ← serialize_isSome_iff value h.1, ← serializeMembers_isSome_iff false members h.2,
      serializeMembers, beginItem]
    cases appendEscapedForJson formatter key with
    | none => simp
    | some k =>
      cases value.serialize formatter with
      | none => simp
      | some text => cases serializeMembers formatter false members <;> simp

end

/-! ## The round trip -/

variable {number number' : Int → Prop} {char char' : UInt8 → Prop}

mutual

theorem forAll_and : ∀ value : JsonValue,
    value.ForAll (fun n => number n ∧ number' n) (fun c => char c ∧ char' c) ↔
      value.ForAll number char ∧ value.ForAll number' char'
  | .null => by simp [JsonValue.ForAll]
  | .bool b => by simp [JsonValue.ForAll]
  | .double d => by simp [JsonValue.ForAll]
  | .int32 n => by simp [JsonValue.ForAll]
  | .unsignedInt32 n => by simp [JsonValue.ForAll]
  | .int64 n => by simp [JsonValue.ForAll]
  | .unsignedInt64 n => by simp [JsonValue.ForAll]
  | .string s => by simp only [JsonValue.ForAll, forall₂_and]
  | .array values => by simp only [JsonValue.ForAll, forAllElements_and values]
  | .object members => by simp only [JsonValue.ForAll, forAllMembers_and members]

theorem forAllElements_and : ∀ values : List JsonValue,
    JsonValue.ForAllElements (fun n => number n ∧ number' n) (fun c => char c ∧ char' c) values ↔
      JsonValue.ForAllElements number char values ∧ JsonValue.ForAllElements number' char' values
  | [] => by simp [JsonValue.ForAllElements]
  | value :: values => by
    simp only [JsonValue.ForAllElements, forAll_and value, forAllElements_and values]
    exact and_and_and_comm

theorem forAllMembers_and : ∀ members : List (List UInt8 × JsonValue),
    JsonValue.ForAllMembers (fun n => number n ∧ number' n) (fun c => char c ∧ char' c) members ↔
      JsonValue.ForAllMembers number char members ∧ JsonValue.ForAllMembers number' char' members
  | [] => by simp [JsonValue.ForAllMembers]
  | (key, value) :: members => by
    simp only [JsonValue.ForAllMembers, forAll_and value, forAllMembers_and members, forall₂_and]
    tauto

end

/-- The text of a value is parsed, and the result is the same value. -/
def RoundTrips (formatter : Formatter) (value : JsonValue) : Prop :=
  ∃ text w, value.serialize formatter = some text ∧ parse text = .ok w ∧ value.Same w

/-- A byte that is written and comes back: `NUL` is the one control character among
those without an escape of their own, if it is written. -/
def RoundTripsByte (formatter : Formatter) (c : UInt8) : Prop :=
  0x20 ≤ c ∨ c = 0x08 ∨ c = 0x09 ∨ c = 0x0a ∨ c = 0 ∧ (formatter.control 0).isSome

theorem roundTripsByte_iff {formatter : Formatter} {c : UInt8} :
    RoundTripsByte formatter c ↔ Kept c ∧ (escapedForJson formatter c).isSome := by
  constructor
  · rintro (hle | rfl | rfl | rfl | ⟨rfl, hzero⟩)
    · have hcontrol : ¬ c ≤ 0x1f := by
        rw [UInt8.le_iff_toNat_le] at hle ⊢
        exact Nat.not_le.mpr hle
      refine ⟨if_neg fun h => UInt8.not_lt.mpr hle h.1, ?_⟩
      rw [escapedForJson]
      split_ifs <;> rfl
    · exact ⟨by unfold Kept; decide, rfl⟩
    · exact ⟨by unfold Kept; decide, rfl⟩
    · exact ⟨by unfold Kept; decide, rfl⟩
    · exact ⟨by unfold Kept; decide, hzero⟩
  · rintro ⟨hkept, hsome⟩
    by_cases hc : c < 0x20 ∧ c ≠ 0x08 ∧ c ≠ 0x0a ∧ c ≠ 0x09
    · obtain rfl : 0 = c := (if_pos hc).symm.trans hkept
      exact .inr (.inr (.inr (.inr ⟨rfl, hsome⟩)))
    · by_cases hle : 0x20 ≤ c
      · exact .inl hle
      · simp only [UInt8.not_le.mp hle, true_and, not_and_or, not_not] at hc
        rcases hc with hc | hc | hc
        · exact .inr (.inl hc)
        · exact .inr (.inr (.inr (.inl hc)))
        · exact .inr (.inr (.inl hc))

theorem parse_serialize {formatter : Formatter} (hformatter : formatter.Documented)
    {value : JsonValue} (hdouble : value.NoDouble) (htext : value.serialize formatter = some text) :
    (parse text).toOption = reread value := by
  have hparse := (rereads_serialize hformatter value text htext hdouble).2 _ [] le_rfl rfl
  rw [append_nil] at hparse
  rw [parse, toOption_bind, hparse]
  cases reread value <;> rfl

/-- A value without doubles comes back from its text exactly when all its integers have
one digit and no sign, and its strings and keys no control character without an escape
of its own but `NUL`. -/
theorem roundTrips_iff (formatter : Formatter) (hformatter : formatter.Documented)
    (value : JsonValue) (hdouble : value.NoDouble) (hunique : value.UniqueKeys) :
    RoundTrips formatter value ↔
      value.ForAll (fun n => 0 ≤ n ∧ n ≤ 9) (RoundTripsByte formatter) := by
  have hnumber : (fun n => 0 ≤ n ∧ n ≤ 9) = fun n => OneDigit n ∧ True := by
    funext n
    simp [OneDigit]
  have hbyte : RoundTripsByte formatter =
      fun c => Kept c ∧ ((escapedForJson formatter c).isSome = true) :=
    funext fun c => propext roundTripsByte_iff
  rw [hnumber, hbyte, forAll_and, ← serialize_isSome_iff value hdouble,
    ← reread_same_iff value hunique]
  constructor
  · rintro ⟨text, w, htext, hw, hsame⟩
    refine ⟨⟨w, ?_, hsame⟩, by rw [htext]; rfl⟩
    rw [← parse_serialize hformatter hdouble htext, hw]
    rfl
  · rintro ⟨⟨w, hw, hsame⟩, hsome⟩
    obtain ⟨text, htext⟩ := isSome_iff_exists.mp hsome
    refine ⟨text, w, htext, toOption_eq_some.mp ?_, hsame⟩
    rw [parse_serialize hformatter hdouble htext, hw]

/-- What `vformat` writes if the format string is taken for the one that was meant. -/
def Formatter.braced : Formatter where
  control := fun ch => some (hexEscape ch)
  double := fun _ => none

theorem Formatter.braced_documented : Formatter.braced.Documented :=
  fun _ _ h => (some.inj h).symm

/-! ## Strings on their own -/

/-- A string that is escaped and, in quotes, comes back with nothing of what follows. -/
def UnescapesBack (s : List UInt8) : Prop :=
  ∃ text, appendEscapedForJson .braced s = some text ∧
    ∀ rest, consumeAndUnescapeString (quoted text ++ rest) = .ok (s, rest)

theorem exists_appendEscapedForJson (s : List UInt8) :
    ∃ text, appendEscapedForJson .braced s = some text := by
  refine isSome_iff_exists.mp (appendEscapedForJson_isSome_iff.mpr fun c _ => ?_)
  rw [escapedForJson]
  split_ifs <;> rfl

/-- A string comes back exactly when it has no control character without an escape of its
own but `NUL`. -/
theorem unescapesBack_iff (s : List UInt8) : UnescapesBack s ↔
      ∀ c ∈ s, 0x20 ≤ c ∨ c = 0x08 ∨ c = 0x09 ∨ c = 0x0a ∨ c = 0 := by
  obtain ⟨text, htext⟩ := exists_appendEscapedForJson s
  have hread := consumeAndUnescapeString_quoted Formatter.braced_documented htext
  have hbyte : ∀ c, Kept c ↔ 0x20 ≤ c ∨ c = 0x08 ∨ c = 0x09 ∨ c = 0x0a ∨ c = 0 := by
    intro c
    have hsome : (escapedForJson .braced c).isSome = true := by
      rw [escapedForJson]
      split_ifs <;> rfl
    have hiff := @roundTripsByte_iff .braced c
    rw [hsome, and_iff_left rfl] at hiff
    rw [← hiff, RoundTripsByte]
    exact or_congr_right (or_congr_right (or_congr_right (or_congr_right (and_iff_left rfl))))
  constructor
  · rintro ⟨text', htext', hback⟩ c hc
    obtain rfl : text = text' := some.inj (htext.symm.trans htext')
    have hsame : rereadString s = s := by
      have hok := (hread []).symm.trans (hback [])
      exact congrArg Prod.fst (Except.ok.inj hok)
    exact (hbyte c).mp (rereadString_eq_iff.mp hsame c hc)
  · intro h
    have hsame : rereadString s = s := rereadString_eq_iff.mpr fun c hc => (hbyte c).mpr (h c hc)
    refine ⟨text, htext, fun rest => ?_⟩
    rw [hread rest, hsame]

/-- U+001F is written as `\u001f`, and read back as `NUL`. -/
theorem not_unescapesBack_unitSeparator :
    appendEscapedForJson .braced [0x1f] = some (['\\', 'u', '0', '0', '1', 'f'].map byte) ∧
      consumeAndUnescapeString (quoted (['\\', 'u', '0', '0', '1', 'f'].map byte)) = .ok ([0], []) ∧
      ¬ UnescapesBack [0x1f] := by
  refine ⟨by decide, rfl, ?_⟩
  rintro ⟨text, htext, hback⟩
  obtain rfl : ['\\', 'u', '0', '0', '1', 'f'].map byte = text :=
    some.inj ((show appendEscapedForJson .braced [0x1f] = _ by decide).symm.trans htext)
  have hbytes : ([0] : List UInt8) = [0x1f] := congrArg Prod.fst (Except.ok.inj (hback []))
  exact absurd hbytes (by decide)

/-- The object `{"a":[7,null,"\n"]}`. -/
def sampleObject : JsonValue :=
  .object [([byte 'a'], .array [.int32 7, .null, .string [0x0a]])]

theorem roundTrips_sampleObject : RoundTrips .braced sampleObject := by
  refine (roundTrips_iff .braced Formatter.braced_documented sampleObject ?_ ?_).mpr ?_
  · simp [sampleObject, JsonValue.NoDouble, JsonValue.NoDoubleMembers, JsonValue.NoDoubleElements]
  · simp [sampleObject, JsonValue.UniqueKeys, JsonValue.UniqueKeysMembers,
      JsonValue.UniqueKeysElements]
  · simp only [sampleObject, JsonValue.ForAll, JsonValue.ForAllMembers, JsonValue.ForAllElements,
      forall_mem_cons, not_mem_nil, false_implies, implies_true, and_true, true_and]
    unfold RoundTripsByte
    decide

/-- 12 is read back as 1. -/
theorem not_roundTrips_twelve : (unsignedInt32 12).NoDouble ∧
    (unsignedInt32 12).UniqueKeys ∧
    (unsignedInt32 12).serialize .braced = some (['1', '2'].map byte) ∧
    parse (['1', '2'].map byte) = .ok (.unsignedInt32 1) ∧
    ¬ RoundTrips .braced (.unsignedInt32 12) := by
  refine ⟨trivial, trivial, rfl, rfl, ?_⟩
  rintro ⟨text, w, htext, hw, hsame⟩
  obtain rfl := some.inj htext
  obtain rfl : unsignedInt32 1 = w := Except.ok.inj hw
  have hinteger : some (1 : Int) = some 12 := hsame
  exact absurd hinteger (by decide)

end Literate.AK

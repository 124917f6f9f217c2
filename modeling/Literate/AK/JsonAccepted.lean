import Literate.AK.JsonNumber

/-!
# AK: the texts that the JSON parser accepts

The parser accepts exactly the texts of the grammar whose numbers and `\u` escapes are
the parser's own.  Soundness goes by induction on the fuel, completeness by induction
on the derivation.
-/

namespace Literate.AK.JsonParser

open StringUtils Json List Option
open Error (fromStringLiteral)

/-! ## Whitespace -/

theorem isSpace_iff {c : UInt8} : isSpace c ↔ isWhitespace c := by
  have ht : byte '\t' = 0x09 := by decide
  have hn : byte '\n' = 0x0a := by decide
  have hr : byte '\r' = 0x0d := by decide
  have hs : byte ' ' = 0x20 := by decide
  simp only [isSpace, isWhitespace, Bool.or_eq_true, beq_iff_eq, ht, hn, hr, hs]
  constructor
  · rintro (((h | h) | h) | h) <;> simp [h]
  · rintro (h | h | h | h) <;> simp [h]

variable {w s t k : List UInt8} {α β : Type} {array : List JsonValue} {v : JsonValue}
  {object : List (List UInt8 × JsonValue)} {fuel : Nat}

theorem ignoreSpaces_append (hw : Whitespace w) (s : List UInt8) :
    ignoreSpaces (w ++ s) = ignoreSpaces s :=
  dropWhile_append_of_pos fun c hc => isSpace_iff.mpr (hw c hc)

theorem ignoreSpaces_cons {c : UInt8} (hc : ¬ isSpace c) (s : List UInt8) :
    ignoreSpaces (c :: s) = c :: s :=
  dropWhile_cons_of_neg hc

theorem exists_ignoreSpaces (s : List UInt8) : ∃ w, Whitespace w ∧ s = w ++ ignoreSpaces s :=
  ⟨s.takeWhile isSpace, fun _ hc => isSpace_iff.mp (mem_takeWhile_imp hc),
    takeWhile_append_dropWhile.symm⟩

theorem ignoreSpaces_idem (s : List UInt8) : ignoreSpaces (ignoreSpaces s) = ignoreSpaces s := by
  induction s with
  | nil => rfl
  | cons c s ih =>
    by_cases hc : isSpace c
    · have hdrop : ignoreSpaces (c :: s) = ignoreSpaces s := dropWhile_cons_of_pos hc
      rw [hdrop, ih]
    · simp only [ignoreSpaces_cons hc]

theorem parseHelper_ignoreSpaces (fuel : Nat) (s : List UInt8) :
    parseHelper fuel (ignoreSpaces s) = parseHelper fuel s := by
  cases fuel with
  | zero => rfl
  | succ fuel => simp only [parseHelper, ignoreSpaces_idem]

theorem not_isNumberChar_of_isSpace {c : UInt8} (hc : isSpace c) : ¬ isNumberChar c := by
  rcases isSpace_iff.mp hc with rfl | rfl | rfl | rfl <;> decide

/-- Whitespace may follow a number, and so may what follows the whitespace. -/
theorem follow_append {rest : List UInt8} (hw : Whitespace w) (hrest : Follow rest) :
    Follow (w ++ rest) := by
  cases w with
  | nil => exact hrest
  | cons c w =>
    exact follow_cons (not_isNumberChar_of_isSpace
      (isSpace_iff.mpr (hw c mem_cons_self)))

theorem consumeSpecific_eq_some {c : UInt8} (hc : c ≠ 0) {rest : List UInt8} :
    consumeSpecific c s = some rest ↔ s = c :: rest := by
  cases s with
  | nil => simp [consumeSpecific, peek, hc.symm]
  | cons d s =>
    by_cases hd : d = c
    · simp [consumeSpecific, peek, hd]
    · simp [consumeSpecific, peek, hd]

theorem consumeSpecific_cons (c : UInt8) (s : List UInt8) : consumeSpecific c (c :: s) = some s :=
  if_pos rfl

theorem peek_eq_iff {c : UInt8} (hc : c ≠ 0) : peek s = c ↔ ∃ rest, s = c :: rest := by
  cases s with
  | nil => simp [peek, hc.symm]
  | cons d s => simp [peek]

/-! ## Strings -/

theorem escaped_isSome_iff {c : UInt8} : (escaped c).isSome ↔ c ∈ escapes := by
  simp only [escapes, map_cons, map_nil, mem_cons, not_mem_nil, or_false]
  unfold escaped
  split_ifs with h₁ h₂ h₃ h₄ h₅ h₆ h₇ h₈ <;> simp [*]

theorem unescapeLoop_cons (sb : List UInt8) (ch : UInt8) (input : List UInt8) :
    unescapeLoop sb (ch :: input) =
      if ch = byte '"' then .ok (sb, input)
      else if ch = byte '\\' then
        match input with
        | [] => fromStringLiteral "JsonParser: Error while parsing string"
        | esc :: input =>
          match escaped esc with
          | some b => unescapeLoop (sb ++ [b]) input
          | none =>
            if esc = byte 'u' then
              match input with
              | a :: b :: c :: d :: input =>
                match convertToUintFromHex 32 [a, b, c, d] .yes with
                | some codePoint => unescapeLoop (sb ++ codePointToUtf8 codePoint) input
                | none => fromStringLiteral
                    "JsonParser: Error while parsing Unicode escape"
              | _ => fromStringLiteral "JsonParser: EOF while parsing Unicode escape"
            else fromStringLiteral "JsonParser: Error while parsing string"
      else if ch < 0x20 then fromStringLiteral "JsonParser: Error while parsing string"
      else unescapeLoop (sb ++ [ch]) input :=
  (unescapeLoop.eq_def sb (ch :: input)).trans rfl

theorem unescapeLoop_quote (sb rest : List UInt8) :
    unescapeLoop sb (byte '"' :: rest) = .ok (sb, rest) := by
  rw [unescapeLoop_cons]
  simp

theorem unescapeLoop_plain {c : UInt8} (hquote : c ≠ byte '"') (hbackslash : c ≠ byte '\\')
    (hc : 0x20 ≤ c) (sb t : List UInt8) :
    unescapeLoop sb (c :: t) = unescapeLoop (sb ++ [c]) t := by
  rw [unescapeLoop_cons]
  simp only [if_neg hquote, if_neg hbackslash, if_neg (UInt8.not_lt.mpr hc)]

theorem unescapeLoop_escape {c b : UInt8} (hb : escaped c = some b) (sb t : List UInt8) :
    unescapeLoop sb (byte '\\' :: c :: t) = unescapeLoop (sb ++ [b]) t := by
  have hne : byte '\\' ≠ byte '"' := by decide
  rw [unescapeLoop_cons]
  simp only [if_neg hne, if_true, hb]

theorem unescapeLoop_unicode {a b c d : UInt8} {codePoint : Nat}
    (h : convertToUintFromHex 32 [a, b, c, d] .yes = some codePoint) (sb t : List UInt8) :
    unescapeLoop sb (byte '\\' :: byte 'u' :: a :: b :: c :: d :: t) =
      unescapeLoop (sb ++ codePointToUtf8 codePoint) t := by
  have hne : byte '\\' ≠ byte '"' := by decide
  have hnone : escaped (byte 'u') = none := by decide
  rw [unescapeLoop_cons]
  simp only [if_neg hne, if_true, hnone, h]

theorem unescapeLoop_sound {sb input rest : List UInt8}
    (h : unescapeLoop sb input = .ok (s, rest)) :
    ∃ t, input = t ++ byte '"' :: rest ∧ Derives ParserNumber ParserUnicode .chars t := by
  fun_induction unescapeLoop sb input with
  | case2 sb tail =>
    obtain ⟨-, rfl⟩ := Prod.mk.inj (Except.ok.inj h)
    exact ⟨[], rfl, .nil⟩
  | case4 sb esc tail b hesc _ ih =>
    obtain ⟨t, rfl, ht⟩ := ih h
    exact ⟨byte '\\' :: esc :: t, rfl,
      .escape (escaped_isSome_iff.mp (by rw [hesc]; rfl)) ht⟩
  | case5 sb a b c d tail codePoint hcode _ _ ih =>
    obtain ⟨t, rfl, ht⟩ := ih h
    obtain ⟨ha, hb, hc, hd⟩ := convertToUintFromHex_four.mp hcode
    have hu : ParserUnicode [a, b, c, d] := ⟨a, b, c, d, rfl, by rw [ha]; rfl, hb, hc, hd⟩
    exact ⟨byte '\\' :: byte 'u' :: ([a, b, c, d] ++ t), rfl, .unicode hu ht⟩
  | case10 sb ch tail hquote hbackslash hcontrol ih =>
    obtain ⟨t, rfl, ht⟩ := ih h
    exact ⟨ch :: t, rfl, .plain (UInt8.not_lt.mp hcontrol) hquote hbackslash ht⟩
  | _ => cases h

theorem consumeAndUnescapeString_sound {input rest : List UInt8}
    (h : consumeAndUnescapeString input = .ok (s, rest)) :
    ∃ t, input = quoted t ++ rest ∧ Derives ParserNumber ParserUnicode .chars t := by
  rw [consumeAndUnescapeString] at h
  cases hc : consumeSpecific (byte '"') input with
  | none =>
    rw [hc] at h
    cases h
  | some tail =>
    rw [hc] at h
    obtain ⟨t, rfl, ht⟩ := unescapeLoop_sound h
    refine ⟨t, ?_, ht⟩
    rw [(consumeSpecific_eq_some (by decide)).mp hc]
    simp [quoted]

/-! ## Literals -/

theorem nextIs_iff {word : List UInt8} (hword : ∀ c ∈ word, c ≠ 0) {input : List UInt8} :
    nextIs word input ↔ ∃ rest, input = word ++ rest := by
  induction word generalizing input with
  | nil => simp [nextIs]
  | cons c word ih =>
    have hc : c ≠ 0 := hword c mem_cons_self
    have ih' := @ih (fun x hx => hword x (mem_cons_of_mem c hx))
    simp only [nextIs, Bool.and_eq_true, decide_eq_true_eq, peek_eq_iff hc, ih']
    constructor
    · rintro ⟨⟨rest, rfl⟩, rest', hrest⟩
      exact ⟨rest', by rw [List.cons_append, ← hrest]; rfl⟩
    · rintro ⟨rest, rfl⟩
      exact ⟨⟨_, rfl⟩, rest, rfl⟩

theorem consumeWord_sound {word input rest : List UInt8} (hword : ∀ c ∈ word, c ≠ 0)
    (h : consumeWord word input = some rest) : input = word ++ rest := by
  rw [consumeWord] at h
  split at h
  · rename_i hnext
    obtain ⟨rest', rfl⟩ := (nextIs_iff hword).mp hnext
    rw [drop_left] at h
    rw [some.inj h]
  · cases h

/-! ## Soundness -/

/-- A value, found at the front of the input. -/
def SoundValue (input rest : List UInt8) : Prop :=
  ∃ w t, Whitespace w ∧ Derives ParserNumber ParserUnicode .value t ∧ input = w ++ (t ++ rest)

/-- The elements of an array and its bracket. -/
def SoundElements (input rest : List UInt8) : Prop :=
  (∃ w, Whitespace w ∧ input = w ++ byte ']' :: rest) ∨
    ∃ t, Derives ParserNumber ParserUnicode .elements t ∧ input = t ++ byte ']' :: rest

def SoundMembers (input rest : List UInt8) : Prop :=
  (∃ w, Whitespace w ∧ input = w ++ byte '}' :: rest) ∨
    ∃ t, Derives ParserNumber ParserUnicode .members t ∧ input = t ++ byte '}' :: rest

theorem bind_eq_ok {x : Except Error α} {f : α → Except Error β} {b : β} :
    (x >>= f) = .ok b ↔ ∃ a, x = .ok a ∧ f a = .ok b := by
  cases x with
  | error e => simp [bind, Except.bind]
  | ok a => simp [bind, Except.bind]

theorem finishArray_sound {input rest : List UInt8} (h : finishArray array input = .ok (v, rest)) :
    ignoreSpaces input = byte ']' :: rest := by
  rw [finishArray] at h
  cases hc : consumeSpecific (byte ']') (ignoreSpaces input) with
  | none =>
    rw [hc] at h
    cases h
  | some tail =>
    rw [hc] at h
    obtain ⟨-, rfl⟩ := Prod.mk.inj (Except.ok.inj h)
    exact (consumeSpecific_eq_some (by decide)).mp hc

theorem finishObject_sound {input rest : List UInt8}
    (h : finishObject object input = .ok (v, rest)) : input = byte '}' :: rest := by
  rw [finishObject] at h
  cases hc : consumeSpecific (byte '}') input with
  | none =>
    rw [hc] at h
    cases h
  | some tail =>
    rw [hc] at h
    obtain ⟨-, rfl⟩ := Prod.mk.inj (Except.ok.inj h)
    exact (consumeSpecific_eq_some (by decide)).mp hc

/-- The value that the character at the front announces. -/
theorem parseHelper_sound
    (harray : ∀ input v rest, parseArray fuel input = .ok (v, rest) →
      ∃ tail, input = byte '[' :: tail ∧ SoundElements tail rest)
    (hobject : ∀ input v rest, parseObject fuel input = .ok (v, rest) →
      ∃ tail, input = byte '{' :: tail ∧ SoundMembers tail rest)
    {input rest : List UInt8} {v : JsonValue}
    (h : parseHelper (fuel + 1) input = .ok (v, rest)) : SoundValue input rest := by
  obtain ⟨w, hw, hinput⟩ := exists_ignoreSpaces input
  rw [parseHelper] at h
  generalize ignoreSpaces input = s at h hinput
  suffices hs : ∃ t, Derives ParserNumber ParserUnicode .value t ∧ s = t ++ rest by
    obtain ⟨t, ht, rfl⟩ := hs
    exact ⟨w, t, hw, ht, hinput⟩
  split_ifs at h with hbrace hbracket hquote hnumber hf ht hn
  · obtain ⟨tail, rfl, ⟨w', hw', rfl⟩ | ⟨t, ht, rfl⟩⟩ := hobject _ _ _ h
    · exact ⟨_, .emptyObject hw', by simp⟩
    · exact ⟨_, .object ht, by simp⟩
  · obtain ⟨tail, rfl, ⟨w', hw', rfl⟩ | ⟨t, ht, rfl⟩⟩ := harray _ _ _ h
    · exact ⟨_, .emptyArray hw', by simp⟩
    · exact ⟨_, .array ht, by simp⟩
  · rw [parseString, bind_eq_ok] at h
    obtain ⟨⟨string, tail⟩, hstring, h⟩ := h
    obtain ⟨-, rfl⟩ := Prod.mk.inj (Except.ok.inj h)
    obtain ⟨t, rfl, ht⟩ := consumeAndUnescapeString_sound hstring
    exact ⟨_, .string ht, rfl⟩
  · have hhead : ∃ c t, s = c :: t ∧ (c = byte '-' ∨ isDigit c) := by
      cases s with
      | nil => exact absurd hnumber (by decide)
      | cons c t => exact ⟨c, t, rfl, hnumber⟩
    obtain ⟨tok, rfl, htok⟩ := parseNumber_sound hhead h
    exact ⟨tok, .number htok, rfl⟩
  · rw [parseFalse] at h
    cases hc : consumeWord wordFalse s with
    | none =>
      rw [hc] at h
      cases h
    | some tail =>
      rw [hc] at h
      obtain ⟨-, rfl⟩ := Prod.mk.inj (Except.ok.inj h)
      exact ⟨_, .false, consumeWord_sound (by simp [byte]) hc⟩
  · rw [parseTrue] at h
    cases hc : consumeWord wordTrue s with
    | none =>
      rw [hc] at h
      cases h
    | some tail =>
      rw [hc] at h
      obtain ⟨-, rfl⟩ := Prod.mk.inj (Except.ok.inj h)
      exact ⟨_, .true, consumeWord_sound (by simp [byte]) hc⟩
  · rw [parseNull] at h
    cases hc : consumeWord wordNull s with
    | none =>
      rw [hc] at h
      cases h
    | some tail =>
      rw [hc] at h
      obtain ⟨-, rfl⟩ := Prod.mk.inj (Except.ok.inj h)
      exact ⟨_, .null, consumeWord_sound (by simp [byte]) hc⟩
  · cases h

section

variable (hw : Whitespace w)

include hw

theorem whitespace_append {w' : List UInt8} (hw' : Whitespace w') : Whitespace (w ++ w') := by
  intro c hc
  rcases mem_append.mp hc with hc | hc
  · exact hw c hc
  · exact hw' c hc

theorem derives_elements_append
    (h : Derives ParserNumber ParserUnicode .elements t) :
    Derives ParserNumber ParserUnicode .elements (w ++ t) := by
  cases h with
  | element hw' hv hw'' =>
    rw [← List.append_assoc]
    exact .element (whitespace_append hw hw') hv hw''
  | nextElement hw' hv hw'' ht =>
    rw [← List.append_assoc]
    exact .nextElement (whitespace_append hw hw') hv hw'' ht

theorem derives_members_append
    (h : Derives ParserNumber ParserUnicode .members t) :
    Derives ParserNumber ParserUnicode .members (w ++ t) := by
  cases h with
  | member hw' hk hw₁ hw₂ hv hw'' =>
    rw [← List.append_assoc]
    exact .member (whitespace_append hw hw') hk hw₁ hw₂ hv hw''
  | nextMember hw' hk hw₁ hw₂ hv hw'' ht =>
    rw [← List.append_assoc]
    exact .nextMember (whitespace_append hw hw') hk hw₁ hw₂ hv hw'' ht

theorem peek_ignoreSpaces {c : UInt8} {rest : List UInt8}
    (h : ignoreSpaces s = w ++ c :: rest) : peek (ignoreSpaces s) = c := by
  cases w with
  | nil =>
    rw [h]
    rfl
  | cons d w =>
    have hidem := ignoreSpaces_idem s
    rw [h, List.cons_append] at hidem
    have hd : isSpace d := isSpace_iff.mpr (hw d mem_cons_self)
    have hdrop : ignoreSpaces (d :: (w ++ c :: rest)) = ignoreSpaces (w ++ c :: rest) :=
      dropWhile_cons_of_pos hd
    have hlength : (ignoreSpaces (w ++ c :: rest)).length ≤ (w ++ c :: rest).length :=
      length_dropWhile_le _ _
    rw [← hdrop, hidem, length_cons] at hlength
    omega

end

/-- After a comma there is another element: the bracket is refused there. -/
theorem SoundElements.of_ne {input rest : List UInt8} (h : SoundElements (ignoreSpaces input) rest)
    (hne : peek (ignoreSpaces input) ≠ byte ']') :
    ∃ t, Derives ParserNumber ParserUnicode .elements t ∧ input = t ++ byte ']' :: rest := by
  obtain ⟨w, hw, hinput⟩ := exists_ignoreSpaces input
  rcases h with ⟨w', hw', heq⟩ | ⟨t, ht, heq⟩
  · exact absurd (peek_ignoreSpaces hw' heq) hne
  · refine ⟨w ++ t, derives_elements_append hw ht, ?_⟩
    rw [hinput, heq, List.append_assoc]

theorem SoundMembers.of_ne {input rest : List UInt8} (h : SoundMembers (ignoreSpaces input) rest)
    (hne : peek (ignoreSpaces input) ≠ byte '}') :
    ∃ t, Derives ParserNumber ParserUnicode .members t ∧ input = t ++ byte '}' :: rest := by
  obtain ⟨w, hw, hinput⟩ := exists_ignoreSpaces input
  rcases h with ⟨w', hw', heq⟩ | ⟨t, ht, heq⟩
  · exact absurd (peek_ignoreSpaces hw' heq) hne
  · refine ⟨w ++ t, derives_members_append hw ht, ?_⟩
    rw [hinput, heq, List.append_assoc]

section

variable (hvalue : ∀ input v rest, parseHelper fuel input = .ok (v, rest) → SoundValue input rest)

include hvalue

theorem parseElements_sound
    (helements : ∀ array input v rest, parseElements fuel array input = .ok (v, rest) →
      SoundElements input rest)
    {input rest : List UInt8}
    (h : parseElements (fuel + 1) array input = .ok (v, rest)) : SoundElements input rest := by
  obtain ⟨w, hw, hinput⟩ := exists_ignoreSpaces input
  rw [parseElements] at h
  split_ifs at h with hclose
  · exact .inl ⟨w, hw, by rw [hinput, ← finishArray_sound h, ignoreSpaces_idem]⟩
  · refine .inr ?_
    obtain ⟨⟨element, input₁⟩, helement, htail⟩ := bind_eq_ok.mp h
    dsimp only at htail
    rw [parseHelper_ignoreSpaces] at helement
    obtain ⟨w₁, t, hw₁, ht, rfl⟩ := hvalue _ _ _ helement
    obtain ⟨w₂, hw₂, hinput₁⟩ := exists_ignoreSpaces input₁
    split_ifs at htail with hclose₁
    · refine ⟨w₁ ++ (t ++ w₂), .element hw₁ ht hw₂, ?_⟩
      have hfinish := finishArray_sound htail
      rw [ignoreSpaces_idem] at hfinish
      rw [hinput₁, hfinish]
      simp
    · cases hcomma : consumeSpecific (byte ',') (ignoreSpaces input₁) with
      | none =>
        rw [hcomma] at htail
        cases htail
      | some input₂ =>
        rw [hcomma] at htail
        dsimp only at htail
        split_ifs at htail with hclose₂
        · cases htail
        · obtain ⟨t', ht', rfl⟩ := (helements _ _ _ _ htail).of_ne hclose₂
          refine ⟨w₁ ++ (t ++ (w₂ ++ byte ',' :: t')), .nextElement hw₁ ht hw₂ ht', ?_⟩
          rw [hinput₁, (consumeSpecific_eq_some (by decide)).mp hcomma]
          simp

theorem parseMembers_sound
    (hmembers : ∀ object input v rest, parseMembers fuel object input = .ok (v, rest) →
      SoundMembers input rest)
    {input rest : List UInt8}
    (h : parseMembers (fuel + 1) object input = .ok (v, rest)) : SoundMembers input rest := by
  obtain ⟨w, hw, hinput⟩ := exists_ignoreSpaces input
  rw [parseMembers] at h
  split_ifs at h with hclose
  · exact .inl ⟨w, hw, by rw [← finishObject_sound h]; exact hinput⟩
  · refine .inr ?_
    obtain ⟨⟨name, input₁⟩, hname, hkeyed⟩ := bind_eq_ok.mp h
    obtain ⟨k, hkey, hk⟩ := consumeAndUnescapeString_sound hname
    obtain ⟨w₁, hw₁, hinput₁⟩ := exists_ignoreSpaces input₁
    cases hcolon : consumeSpecific (byte ':') (ignoreSpaces input₁) with
    | none =>
      simp only [hcolon] at hkeyed
      cases hkeyed
    | some input₂ =>
      simp only [hcolon] at hkeyed
      obtain ⟨⟨value, input₃⟩, hparse, htail⟩ := bind_eq_ok.mp hkeyed
      rw [parseHelper_ignoreSpaces] at hparse
      obtain ⟨w₂, t, hw₂, ht, rfl⟩ := hvalue _ _ _ hparse
      obtain ⟨w₃, hw₃, hinput₃⟩ := exists_ignoreSpaces input₃
      -- the text up to the value
      have hfront : input = w ++ (quoted k ++ (w₁ ++ byte ':' :: (w₂ ++ (t ++ input₃)))) := by
        rw [hinput, hkey, hinput₁, (consumeSpecific_eq_some (by decide)).mp hcolon]
      split_ifs at htail with hclose₁
      · refine ⟨_, .member hw hk hw₁ hw₂ ht hw₃, ?_⟩
        rw [hfront, hinput₃, finishObject_sound htail]
        simp
      · cases hcomma : consumeSpecific (byte ',') (ignoreSpaces input₃) with
        | none =>
          simp only [hcomma] at htail
          cases htail
        | some input₄ =>
          simp only [hcomma] at htail
          split_ifs at htail with hclose₂
          · cases htail
          · obtain ⟨t', ht', rfl⟩ := (hmembers _ _ _ _ htail).of_ne hclose₂
            refine ⟨_, .nextMember hw hk hw₁ hw₂ ht hw₃ ht', ?_⟩
            rw [hfront, hinput₃, (consumeSpecific_eq_some (by decide)).mp hcomma]
            simp

end

theorem parse_sound (fuel : Nat) :
    (∀ input v rest, parseHelper fuel input = .ok (v, rest) → SoundValue input rest) ∧
    (∀ input v rest, parseArray fuel input = .ok (v, rest) →
      ∃ tail, input = byte '[' :: tail ∧ SoundElements tail rest) ∧
    (∀ input v rest, parseObject fuel input = .ok (v, rest) →
      ∃ tail, input = byte '{' :: tail ∧ SoundMembers tail rest) ∧
    (∀ array input v rest, parseElements fuel array input = .ok (v, rest) →
      SoundElements input rest) ∧
    ∀ object input v rest, parseMembers fuel object input = .ok (v, rest) →
      SoundMembers input rest := by
  induction fuel with
  | zero =>
    exact ⟨fun _ _ _ h => (by cases h), fun _ _ _ h => (by cases h), fun _ _ _ h => (by cases h),
      fun _ _ _ _ h => (by cases h), fun _ _ _ _ h => (by cases h)⟩
  | succ fuel ih =>
    obtain ⟨hvalue, harray, hobject, helements, hmembers⟩ := ih
    refine ⟨fun _ _ _ => parseHelper_sound harray hobject, fun input v rest h => ?_,
      fun input v rest h => ?_, fun _ _ _ _ => parseElements_sound hvalue helements,
      fun _ _ _ _ => parseMembers_sound hvalue hmembers⟩
    · rw [parseArray] at h
      cases hc : consumeSpecific (byte '[') input with
      | none =>
        rw [hc] at h
        cases h
      | some tail =>
        rw [hc] at h
        exact ⟨tail, (consumeSpecific_eq_some (by decide)).mp hc, helements _ _ _ _ h⟩
    · rw [parseObject] at h
      cases hc : consumeSpecific (byte '{') input with
      | none =>
        rw [hc] at h
        cases h
      | some tail =>
        rw [hc] at h
        exact ⟨tail, (consumeSpecific_eq_some (by decide)).mp hc, hmembers _ _ _ _ h⟩

/-! ## Completeness -/

/-- A text that starts with a character which is no whitespace and closes no array. -/
def Opens (t : List UInt8) : Prop := ∃ c t', t = c :: t' ∧ ¬ isSpace c ∧ c ≠ byte ']'

theorem value_head (h : Derives ParserNumber ParserUnicode .value t) : Opens t := by
  cases h with
  | null => exact ⟨_, _, rfl, by decide, by decide⟩
  | true => exact ⟨_, _, rfl, by decide, by decide⟩
  | false => exact ⟨_, _, rfl, by decide, by decide⟩
  | number ht =>
    obtain ⟨c, t', rfl, hc⟩ := parserNumber_head ht
    have hnumber : isNumberChar c := isNumberChar_iff.mpr (.inr hc)
    refine ⟨c, t', rfl, fun hspace => not_isNumberChar_of_isSpace hspace hnumber, ?_⟩
    rintro rfl
    exact absurd hnumber (by decide)
  | string ht => exact ⟨_, _, rfl, by decide, by decide⟩
  | emptyArray hw => exact ⟨_, _, rfl, by decide, by decide⟩
  | array ht => exact ⟨_, _, rfl, by decide, by decide⟩
  | emptyObject hw => exact ⟨_, _, rfl, by decide, by decide⟩
  | object ht => exact ⟨_, _, rfl, by decide, by decide⟩

theorem ignoreSpaces_value {w t : List UInt8} (hw : Whitespace w) (h : Opens t) (s : List UInt8) :
    ignoreSpaces (w ++ (t ++ s)) = t ++ s ∧ peek (t ++ s) ≠ byte ']' := by
  obtain ⟨c, t', rfl, hspace, hne⟩ := h
  rw [ignoreSpaces_append hw]
  exact ⟨ignoreSpaces_cons hspace _, hne⟩

theorem ignoreSpaces_char (hw : Whitespace w) {c : UInt8} (hc : ¬ isSpace c) (s : List UInt8) :
    ignoreSpaces (w ++ c :: s) = c :: s := by
  rw [ignoreSpaces_append hw, ignoreSpaces_cons hc]

theorem peek_quoted (k s : List UInt8) : peek (quoted k ++ s) ≠ byte '}' := by
  change byte '"' ≠ byte '}'
  decide

theorem ignoreSpaces_quoted {w : List UInt8} (hw : Whitespace w) (k s : List UInt8) :
    ignoreSpaces (w ++ (quoted k ++ s)) = quoted k ++ s :=
  ignoreSpaces_char hw (by decide) _

theorem parseElements_ignoreSpaces (fuel : Nat) (array : List JsonValue) (s : List UInt8) :
    parseElements fuel array (ignoreSpaces s) = parseElements fuel array s := by
  cases fuel with
  | zero => rfl
  | succ fuel => simp only [parseElements, ignoreSpaces_idem]

theorem parseMembers_ignoreSpaces (fuel : Nat) (object : List (List UInt8 × JsonValue))
    (s : List UInt8) : parseMembers fuel object (ignoreSpaces s) = parseMembers fuel object s := by
  cases fuel with
  | zero => rfl
  | succ fuel => simp only [parseMembers, ignoreSpaces_idem]

theorem parseHelper_number {c : UInt8} (hc : c = byte '-' ∨ isDigit c) (fuel : Nat)
    (s : List UInt8) : parseHelper (fuel + 1) (c :: s) = parseNumber (c :: s) := by
  have hnumber : isNumberChar c := isNumberChar_iff.mpr (.inr hc)
  have hspace : ¬ isSpace c := fun h => not_isNumberChar_of_isSpace h hnumber
  have hne : ∀ d, ¬ isNumberChar d → peek (c :: s) ≠ d := by
    rintro d hd rfl
    exact hd hnumber
  rw [parseHelper, ignoreSpaces_cons hspace, if_neg (hne (byte '{') (by decide)),
    if_neg (hne (byte '[') (by decide)), if_neg (hne (byte '"') (by decide))]
  exact if_pos hc

theorem parseHelper_string (fuel : Nat) (k s : List UInt8) :
    parseHelper (fuel + 1) (quoted k ++ s) = parseString (quoted k ++ s) := rfl

theorem parseElements_value {value : JsonValue} (hw : Whitespace w) (ht : Opens t)
    (h : parseHelper fuel (t ++ s) = .ok (value, s)) (array : List JsonValue) :
    parseElements (fuel + 1) array (w ++ (t ++ s)) =
      if peek (ignoreSpaces s) = byte ']' then finishArray (array ++ [value]) (ignoreSpaces s)
      else match consumeSpecific (byte ',') (ignoreSpaces s) with
        | none => fromStringLiteral "JsonParser: Expected ','"
        | some input =>
          if peek (ignoreSpaces input) = byte ']' then
            fromStringLiteral "JsonParser: Unexpected ']'"
          else parseElements fuel (array ++ [value]) (ignoreSpaces input) := by
  obtain ⟨hignore, hne⟩ := ignoreSpaces_value hw ht s
  rw [parseElements]
  simp only [hignore, if_neg hne, h]
  rfl

theorem parseElements_last {fuel : Nat} {w t w' rest : List UInt8} {value : JsonValue}
    (hw : Whitespace w) (ht : Opens t) (hw' : Whitespace w')
    (h : parseHelper fuel (t ++ (w' ++ byte ']' :: rest)) = .ok (value, w' ++ byte ']' :: rest))
    (array : List JsonValue) :
    parseElements (fuel + 1) array (w ++ (t ++ (w' ++ byte ']' :: rest))) =
      .ok (.array (array ++ [value]), rest) := by
  rw [parseElements_value hw ht h, ignoreSpaces_char hw' (by decide)]
  rfl

theorem parseElements_next {fuel : Nat} {w t w' s : List UInt8} {value : JsonValue}
    (hw : Whitespace w) (ht : Opens t) (hw' : Whitespace w')
    (h : parseHelper fuel (t ++ (w' ++ byte ',' :: s)) = .ok (value, w' ++ byte ',' :: s))
    (hs : peek (ignoreSpaces s) ≠ byte ']') (array : List JsonValue) :
    parseElements (fuel + 1) array (w ++ (t ++ (w' ++ byte ',' :: s))) =
      parseElements fuel (array ++ [value]) s := by
  have hcomma : peek (byte ',' :: s) ≠ byte ']' := show byte ',' ≠ byte ']' by decide
  rw [parseElements_value hw ht h, ignoreSpaces_char hw' (by decide), if_neg hcomma,
    consumeSpecific_cons]
  simp only [if_neg hs]
  exact parseElements_ignoreSpaces _ _ _

theorem elements_peek (h : Derives ParserNumber ParserUnicode .elements t) (s : List UInt8) :
    peek (ignoreSpaces (t ++ s)) ≠ byte ']' := by
  cases h with
  | element hw hv hw' =>
    simp only [List.append_assoc, (ignoreSpaces_value hw (value_head hv) _).1]
    exact (ignoreSpaces_value hw (value_head hv) _).2
  | nextElement hw hv hw' ht =>
    simp only [List.append_assoc, (ignoreSpaces_value hw (value_head hv) _).1]
    exact (ignoreSpaces_value hw (value_head hv) _).2

theorem members_peek (h : Derives ParserNumber ParserUnicode .members t) (s : List UInt8) :
    peek (ignoreSpaces (t ++ s)) ≠ byte '}' := by
  cases h with
  | member hw hk hw₁ hw₂ hv hw' =>
    simp only [List.append_assoc, ignoreSpaces_quoted hw]
    exact peek_quoted _ _
  | nextMember hw hk hw₁ hw₂ hv hw' ht =>
    simp only [List.append_assoc, ignoreSpaces_quoted hw]
    exact peek_quoted _ _

theorem parseMembers_value {w₁ w₂ name : List UInt8} {value : JsonValue}
    (hw : Whitespace w) (hw₁ : Whitespace w₁)
    (hname : consumeAndUnescapeString (quoted k ++ (w₁ ++ byte ':' :: (w₂ ++ (t ++ s)))) =
      .ok (name, w₁ ++ byte ':' :: (w₂ ++ (t ++ s)))) (hw₂ : Whitespace w₂)
    (h : parseHelper fuel (t ++ s) = .ok (value, s))
    (object : List (List UInt8 × JsonValue)) :
    parseMembers (fuel + 1) object
        (w ++ (quoted k ++ (w₁ ++ byte ':' :: (w₂ ++ (t ++ s))))) =
      if peek (ignoreSpaces s) = byte '}' then
        finishObject (JsonObject.set object name value) (ignoreSpaces s)
      else match consumeSpecific (byte ',') (ignoreSpaces s) with
        | none => fromStringLiteral "JsonParser: Expected ','"
        | some input =>
          if peek (ignoreSpaces input) = byte '}' then
            fromStringLiteral "JsonParser: Unexpected '\x7d'"
          else parseMembers fuel (JsonObject.set object name value) (ignoreSpaces input) := by
  have hclose := peek_quoted k (w₁ ++ byte ':' :: (w₂ ++ (t ++ s)))
  have hvalue : parseHelper fuel (ignoreSpaces (w₂ ++ (t ++ s))) = .ok (value, s) := by
    rw [ignoreSpaces_append hw₂, parseHelper_ignoreSpaces, h]
  rw [parseMembers]
  simp only [ignoreSpaces_quoted hw, if_neg hclose, hname]
  change (match consumeSpecific (byte ':') (ignoreSpaces (w₁ ++ byte ':' :: (w₂ ++ (t ++ s)))) with
    | none => _
    | some input => _) = _
  rw [ignoreSpaces_char hw₁ (by decide), consumeSpecific_cons]
  simp only [hvalue]
  rfl

theorem parseMembers_last {fuel : Nat} {w k w₁ w₂ t w' rest name : List UInt8}
    {value : JsonValue} (hw : Whitespace w) (hw₁ : Whitespace w₁)
    (hname : ∀ s, consumeAndUnescapeString (quoted k ++ s) = .ok (name, s))
    (hw₂ : Whitespace w₂) (hw' : Whitespace w')
    (h : parseHelper fuel (t ++ (w' ++ byte '}' :: rest)) = .ok (value, w' ++ byte '}' :: rest))
    (object : List (List UInt8 × JsonValue)) : parseMembers (fuel + 1) object
        (w ++ (quoted k ++ (w₁ ++ byte ':' :: (w₂ ++ (t ++ (w' ++ byte '}' :: rest)))))) =
      .ok (.object (JsonObject.set object name value), rest) := by
  rw [parseMembers_value hw hw₁ (hname _) hw₂ h, ignoreSpaces_char hw' (by decide)]
  rfl

theorem parseMembers_next {fuel : Nat} {w k w₁ w₂ t w' s name : List UInt8}
    {value : JsonValue} (hw : Whitespace w) (hw₁ : Whitespace w₁)
    (hname : ∀ s, consumeAndUnescapeString (quoted k ++ s) = .ok (name, s))
    (hw₂ : Whitespace w₂) (hw' : Whitespace w')
    (h : parseHelper fuel (t ++ (w' ++ byte ',' :: s)) = .ok (value, w' ++ byte ',' :: s))
    (hs : peek (ignoreSpaces s) ≠ byte '}') (object : List (List UInt8 × JsonValue)) :
    parseMembers (fuel + 1) object
        (w ++ (quoted k ++ (w₁ ++ byte ':' :: (w₂ ++ (t ++ (w' ++ byte ',' :: s)))))) =
      parseMembers fuel (JsonObject.set object name value) s := by
  have hcomma : peek (byte ',' :: s) ≠ byte '}' := show byte ',' ≠ byte '}' by decide
  rw [parseMembers_value hw hw₁ (hname _) hw₂ h, ignoreSpaces_char hw' (by decide),
    if_neg hcomma, consumeSpecific_cons]
  simp only [if_neg hs]
  exact parseMembers_ignoreSpaces _ _ _

/-! ### Every derivation -/

/-- How the parser accepts what a symbol derives. -/
def Parsed : Symbol → List UInt8 → Prop
  | .chars, t => ∀ sb, ∃ string, ∀ rest,
      unescapeLoop sb (t ++ byte '"' :: rest) = .ok (string, rest)
  | .value, t => ∀ fuel rest, 3 * t.length + 3 ≤ fuel → Follow rest →
      ∃ value, parseHelper fuel (t ++ rest) = .ok (value, rest)
  | .elements, t => ∀ fuel array rest, 3 * t.length + 4 ≤ fuel →
      ∃ value, parseElements fuel array (t ++ byte ']' :: rest) = .ok (value, rest)
  | .members, t => ∀ fuel object rest, 3 * t.length + 4 ≤ fuel →
      ∃ value, parseMembers fuel object (t ++ byte '}' :: rest) = .ok (value, rest)

theorem parsed_string (h : Parsed .chars k) :
    ∃ string, ∀ rest, consumeAndUnescapeString (quoted k ++ rest) = .ok (string, rest) := by
  obtain ⟨string, hstring⟩ := h []
  refine ⟨string, fun rest => ?_⟩
  have hquoted : quoted k ++ rest = byte '"' :: (k ++ byte '"' :: rest) := by simp [quoted]
  rw [hquoted, consumeAndUnescapeString, consumeSpecific_cons]
  exact hstring rest

theorem parsed_of_derives {sym : Symbol} (h : Derives ParserNumber ParserUnicode sym t) :
    Parsed sym t := by
  induction h with
  | nil => exact fun sb => ⟨sb, fun rest => unescapeLoop_quote sb rest⟩
  | @plain c t hc hquote hbackslash _ ih =>
    intro sb
    obtain ⟨string, hstring⟩ := ih (sb ++ [c])
    refine ⟨string, fun rest => ?_⟩
    rw [List.cons_append, unescapeLoop_plain hquote hbackslash hc, hstring]
  | @escape c t hc _ ih =>
    intro sb
    obtain ⟨b, hb⟩ := isSome_iff_exists.mp (escaped_isSome_iff.mpr hc)
    obtain ⟨string, hstring⟩ := ih (sb ++ [b])
    refine ⟨string, fun rest => ?_⟩
    simp only [List.cons_append, unescapeLoop_escape hb, hstring]
  | @unicode u t hu _ ih =>
    intro sb
    obtain ⟨a, b, c, d, rfl, ha, hb, hc, hd⟩ := hu
    obtain ⟨v, hv⟩ := isSome_iff_exists.mp ha
    have hcode := convertToUintFromHex_four.mpr ⟨hv, hb, hc, hd⟩
    obtain ⟨string, hstring⟩ := ih (sb ++ codePointToUtf8 v)
    refine ⟨string, fun rest => ?_⟩
    simp only [List.cons_append, nil_append]
    rw [unescapeLoop_unicode hcode, hstring]
  | null =>
    intro fuel rest hfuel _
    obtain ⟨fuel, rfl⟩ := Nat.exists_eq_succ_of_ne_zero (show fuel ≠ 0 by omega)
    exact ⟨.null, rfl⟩
  | true =>
    intro fuel rest hfuel _
    obtain ⟨fuel, rfl⟩ := Nat.exists_eq_succ_of_ne_zero (show fuel ≠ 0 by omega)
    exact ⟨.bool true, rfl⟩
  | false =>
    intro fuel rest hfuel _
    obtain ⟨fuel, rfl⟩ := Nat.exists_eq_succ_of_ne_zero (show fuel ≠ 0 by omega)
    exact ⟨.bool false, rfl⟩
  | @number t ht =>
    intro fuel rest hfuel hrest
    obtain ⟨fuel, rfl⟩ := Nat.exists_eq_succ_of_ne_zero (show fuel ≠ 0 by omega)
    obtain ⟨value, hvalue⟩ := parseNumber_complete ht hrest
    refine ⟨value, ?_⟩
    obtain ⟨c, t', rfl, hc⟩ := parserNumber_head ht
    rw [List.cons_append, parseHelper_number hc]
    exact hvalue
  | string _ ih =>
    intro fuel rest hfuel _
    obtain ⟨fuel, rfl⟩ := Nat.exists_eq_succ_of_ne_zero (show fuel ≠ 0 by omega)
    obtain ⟨string, hstring⟩ := parsed_string ih
    refine ⟨.string string, ?_⟩
    rw [parseHelper_string, parseString, hstring]
    rfl
  | @emptyArray w hw =>
    intro fuel rest hfuel _
    obtain ⟨fuel, rfl⟩ := Nat.exists_eq_add_of_le' (show 3 ≤ fuel by omega)
    refine ⟨.array [], ?_⟩
    change parseElements (fuel + 1) [] (w ++ [byte ']'] ++ rest) = _
    rw [parseElements, List.append_assoc, singleton_append, ignoreSpaces_char hw (by decide)]
    rfl
  | @array t _ ih =>
    intro fuel rest hfuel _
    rw [length_cons, length_append] at hfuel
    obtain ⟨fuel, rfl⟩ := Nat.exists_eq_add_of_le' (show 3 ≤ fuel by omega)
    obtain ⟨value, hvalue⟩ := ih (fuel + 1) [] rest (by simp at hfuel; omega)
    refine ⟨value, ?_⟩
    change parseElements (fuel + 1) [] (t ++ [byte ']'] ++ rest) = _
    rw [List.append_assoc, singleton_append, hvalue]
  | @emptyObject w hw =>
    intro fuel rest hfuel _
    obtain ⟨fuel, rfl⟩ := Nat.exists_eq_add_of_le' (show 3 ≤ fuel by omega)
    refine ⟨.object [], ?_⟩
    change parseMembers (fuel + 1) [] (w ++ [byte '}'] ++ rest) = _
    rw [parseMembers, List.append_assoc, singleton_append, ignoreSpaces_char hw (by decide)]
    rfl
  | @object t _ ih =>
    intro fuel rest hfuel _
    rw [length_cons, length_append] at hfuel
    obtain ⟨fuel, rfl⟩ := Nat.exists_eq_add_of_le' (show 3 ≤ fuel by omega)
    obtain ⟨value, hvalue⟩ := ih (fuel + 1) [] rest (by simp at hfuel; omega)
    refine ⟨value, ?_⟩
    change parseMembers (fuel + 1) [] (t ++ [byte '}'] ++ rest) = _
    rw [List.append_assoc, singleton_append, hvalue]
  | @element w v w' hw hv hw' ih =>
    intro fuel array rest hfuel
    simp only [length_append] at hfuel
    obtain ⟨fuel, rfl⟩ := Nat.exists_eq_succ_of_ne_zero (show fuel ≠ 0 by omega)
    obtain ⟨value, hvalue⟩ := ih fuel (w' ++ byte ']' :: rest) (by omega)
      (follow_append hw' (follow_cons (by decide)))
    simp only [List.append_assoc]
    exact ⟨_, parseElements_last hw (value_head hv) hw' hvalue array⟩
  | @nextElement w v w' t hw hv hw' ht ih ih' =>
    intro fuel array rest hfuel
    simp only [length_append, length_cons] at hfuel
    obtain ⟨fuel, rfl⟩ := Nat.exists_eq_succ_of_ne_zero (show fuel ≠ 0 by omega)
    obtain ⟨value, hvalue⟩ := ih fuel (w' ++ byte ',' :: (t ++ byte ']' :: rest)) (by omega)
      (follow_append hw' (follow_cons (by decide)))
    obtain ⟨result, hresult⟩ := ih' fuel (array ++ [value]) rest (by omega)
    refine ⟨result, ?_⟩
    simp only [List.append_assoc, List.cons_append]
    rw [parseElements_next hw (value_head hv) hw' hvalue (elements_peek ht _), hresult]
  | @member w k w₁ w₂ v w' hw hk hw₁ hw₂ hv hw' ihk ih =>
    intro fuel object rest hfuel
    simp only [length_append, length_cons] at hfuel
    obtain ⟨fuel, rfl⟩ := Nat.exists_eq_succ_of_ne_zero (show fuel ≠ 0 by omega)
    obtain ⟨name, hname⟩ := parsed_string ihk
    obtain ⟨value, hvalue⟩ := ih fuel (w' ++ byte '}' :: rest) (by omega)
      (follow_append hw' (follow_cons (by decide)))
    simp only [List.append_assoc, List.cons_append]
    exact ⟨_, parseMembers_last hw hw₁ hname hw₂ hw' hvalue object⟩
  | @nextMember w k w₁ w₂ v w' t hw hk hw₁ hw₂ hv hw' ht ihk ih ih' =>
    intro fuel object rest hfuel
    simp only [length_append, length_cons] at hfuel
    obtain ⟨fuel, rfl⟩ := Nat.exists_eq_succ_of_ne_zero (show fuel ≠ 0 by omega)
    obtain ⟨name, hname⟩ := parsed_string ihk
    obtain ⟨value, hvalue⟩ := ih fuel (w' ++ byte ',' :: (t ++ byte '}' :: rest)) (by omega)
      (follow_append hw' (follow_cons (by decide)))
    obtain ⟨result, hresult⟩ := ih' fuel (JsonObject.set object name value) rest (by omega)
    refine ⟨result, ?_⟩
    simp only [List.append_assoc, List.cons_append]
    rw [parseMembers_next hw hw₁ hname hw₂ hw' hvalue (members_peek ht _), hresult]

/-! ## The parser runs to its end -/

theorem SoundValue.length_lt {input rest : List UInt8} (h : SoundValue input rest) :
    rest.length < input.length := by
  obtain ⟨w, t, hw, ht, rfl⟩ := h
  obtain ⟨c, t', rfl, -⟩ := value_head ht
  simp only [length_append, length_cons]
  omega

theorem length_ignoreSpaces_le (s : List UInt8) : (ignoreSpaces s).length ≤ s.length :=
  length_dropWhile_le _ _

theorem bind_ne_outOfFuel {x : Except Error α} {f : α → Except Error β}
    (hx : x ≠ .error .outOfFuel) (hf : ∀ a, x = .ok a → f a ≠ .error .outOfFuel) :
    (x >>= f) ≠ .error .outOfFuel := by
  cases x with
  | error e => simpa [bind, Except.bind] using hx
  | ok a => exact hf a rfl

theorem unescapeLoop_ne_outOfFuel (sb input : List UInt8) :
    unescapeLoop sb input ≠ .error .outOfFuel := by
  fun_induction unescapeLoop sb input with
  | case4 sb esc tail b hesc _ ih => exact ih
  | case5 sb a b c d tail codePoint hcode _ _ ih => exact ih
  | case10 sb ch tail hquote hbackslash hcontrol ih => exact ih
  | _ => simp [fromStringLiteral]

theorem consumeAndUnescapeString_ne_outOfFuel (input : List UInt8) :
    consumeAndUnescapeString input ≠ .error .outOfFuel := by
  rw [consumeAndUnescapeString]
  split
  · simp [fromStringLiteral]
  · exact unescapeLoop_ne_outOfFuel _ _

theorem step_ne_outOfFuel (scan : NumberScan) (c : UInt8) : scan.step c ≠ .error .outOfFuel := by
  unfold NumberScan.step
  split_ifs <;> simp [fromStringLiteral]

theorem scanNumber_ne_outOfFuel (scan : NumberScan) (input : List UInt8) :
    scanNumber scan input ≠ .error .outOfFuel := by
  induction input generalizing scan with
  | nil => simp [scanNumber]
  | cons c input ih =>
    rw [scanNumber]
    split_ifs
    · exact bind_ne_outOfFuel (step_ne_outOfFuel scan c) fun scan' _ => ih scan'
    · simp

theorem value_ne_outOfFuel (scan : NumberScan) : scan.value ≠ .error .outOfFuel := by
  unfold NumberScan.value
  split_ifs
  · simp
  · refine bind_ne_outOfFuel ?_ fun whole _ => ?_
    · unfold NumberScan.whole
      split
      · simp
      · split <;> simp [fromStringLiteral]
    · split <;> simp [pure, Except.pure, fromStringLiteral]
  · split
    · split_ifs <;> simp
    · split
      · simp [fromStringLiteral]
      · split_ifs <;> simp

theorem parseNumber_ne_outOfFuel (input : List UInt8) : parseNumber input ≠ .error .outOfFuel := by
  refine bind_ne_outOfFuel (scanNumber_ne_outOfFuel _ _) fun scan _ => ?_
  exact bind_ne_outOfFuel (value_ne_outOfFuel _) fun value _ => by simp [pure, Except.pure]

theorem finishArray_ne_outOfFuel (array : List JsonValue) (input : List UInt8) :
    finishArray array input ≠ .error .outOfFuel := by
  rw [finishArray]
  split <;> simp [fromStringLiteral]

theorem finishObject_ne_outOfFuel (object : List (List UInt8 × JsonValue)) (input : List UInt8) :
    finishObject object input ≠ .error .outOfFuel := by
  rw [finishObject]
  split <;> simp [fromStringLiteral]

theorem length_of_consumeSpecific {c : UInt8} (hc : c ≠ 0) {rest : List UInt8}
    (h : consumeSpecific c s = some rest) : s.length = rest.length + 1 := by
  rw [(consumeSpecific_eq_some hc).mp h, length_cons]

theorem parse_fuel (fuel : Nat) :
    (∀ input, 3 * input.length + 3 ≤ fuel → parseHelper fuel input ≠ .error .outOfFuel) ∧
    (∀ input, 3 * input.length + 2 ≤ fuel → parseArray fuel input ≠ .error .outOfFuel) ∧
    (∀ input, 3 * input.length + 2 ≤ fuel → parseObject fuel input ≠ .error .outOfFuel) ∧
    (∀ array input, 3 * input.length + 4 ≤ fuel →
      parseElements fuel array input ≠ .error .outOfFuel) ∧
    ∀ object input, 3 * input.length + 4 ≤ fuel →
      parseMembers fuel object input ≠ .error .outOfFuel := by
  induction fuel with
  | zero =>
    exact ⟨fun _ h => by omega, fun _ h => by omega, fun _ h => by omega, fun _ _ h => by omega,
      fun _ _ h => by omega⟩
  | succ fuel ih =>
    obtain ⟨hhelper, harray, hobject, helements, hmembers⟩ := ih
    refine ⟨fun input hfuel => ?_, fun input hfuel => ?_, fun input hfuel => ?_,
      fun array input hfuel => ?_, fun object input hfuel => ?_⟩
    · have hlength := length_ignoreSpaces_le input
      rw [parseHelper]
      split_ifs
      · exact hobject _ (by omega)
      · exact harray _ (by omega)
      · exact bind_ne_outOfFuel (consumeAndUnescapeString_ne_outOfFuel _) fun a _ => by
          simp [pure, Except.pure]
      · exact parseNumber_ne_outOfFuel _
      · unfold parseFalse
        split <;> simp [fromStringLiteral]
      · unfold parseTrue
        split <;> simp [fromStringLiteral]
      · unfold parseNull
        split <;> simp [fromStringLiteral]
      · simp [fromStringLiteral]
    · rw [parseArray]
      split
      · simp [fromStringLiteral]
      · rename_i tail htail
        have := length_of_consumeSpecific (by decide) htail
        exact helements _ _ (by omega)
    · rw [parseObject]
      split
      · simp [fromStringLiteral]
      · rename_i tail htail
        have := length_of_consumeSpecific (by decide) htail
        exact hmembers _ _ (by omega)
    · have hlength := length_ignoreSpaces_le input
      rw [parseElements]
      split_ifs
      · exact finishArray_ne_outOfFuel _ _
      · refine bind_ne_outOfFuel (hhelper _ (by omega)) fun a ha => ?_
        have hlt := ((parse_sound fuel).1 _ _ _ ha).length_lt
        have hlength₁ := length_ignoreSpaces_le a.2
        dsimp only
        split_ifs
        · exact finishArray_ne_outOfFuel _ _
        · split
          · simp [fromStringLiteral]
          · rename_i tail htail
            have := length_of_consumeSpecific (by decide) htail
            have hlength₂ := length_ignoreSpaces_le tail
            split_ifs
            · simp [fromStringLiteral]
            · exact helements _ _ (by omega)
    · have hlength := length_ignoreSpaces_le input
      rw [parseMembers]
      dsimp only
      split_ifs
      · exact finishObject_ne_outOfFuel _ _
      · refine bind_ne_outOfFuel (consumeAndUnescapeString_ne_outOfFuel _) fun a ha => ?_
        obtain ⟨k, hk, -⟩ := consumeAndUnescapeString_sound ha
        have hkey : a.2.length ≤ (ignoreSpaces input).length := by
          rw [hk, length_append]
          omega
        have hlength₁ := length_ignoreSpaces_le a.2
        split
        · simp [fromStringLiteral]
        · rename_i tail htail
          have := length_of_consumeSpecific (by decide) htail
          have hlength₂ := length_ignoreSpaces_le tail
          refine bind_ne_outOfFuel (hhelper _ (by omega)) fun b hb => ?_
          have hlt := ((parse_sound fuel).1 _ _ _ hb).length_lt
          have hlength₃ := length_ignoreSpaces_le b.2
          split_ifs
          · exact finishObject_ne_outOfFuel _ _
          · split
            · simp [fromStringLiteral]
            · rename_i tail' htail'
              have := length_of_consumeSpecific (by decide) htail'
              have hlength₄ := length_ignoreSpaces_le tail'
              split_ifs
              · simp [fromStringLiteral]
              · exact hmembers _ _ (by omega)

theorem parse_ne_outOfFuel (input : List UInt8) : parse input ≠ .error .outOfFuel := by
  refine bind_ne_outOfFuel ((parse_fuel _).1 input le_rfl) fun a _ => ?_
  dsimp only
  split_ifs <;> simp [pure, Except.pure, fromStringLiteral]

/-! ## The accepted texts -/

theorem ignoreSpaces_eq_nil_iff : ignoreSpaces s = [] ↔ Whitespace s := by
  rw [ignoreSpaces, dropWhile_eq_nil_iff]
  exact forall₂_congr fun c _ => isSpace_iff

theorem follow_of_whitespace (hw : Whitespace w) : Follow w := by
  rw [← append_nil w]
  exact follow_append hw rfl

/-- The parser accepts exactly the texts of its grammar. -/
theorem parse_isOk_iff {input : List UInt8} :
    (∃ value, parse input = .ok value) ↔ ParserText input := by
  constructor
  · rintro ⟨value, h⟩
    obtain ⟨⟨result, rest⟩, hhelper, hfinish⟩ := bind_eq_ok.mp h
    obtain ⟨w, t, hw, ht, rfl⟩ := (parse_sound _).1 _ _ _ hhelper
    dsimp only at hfinish
    split_ifs at hfinish with hrest
    · exact ⟨w, t, rest, hw, ht, ignoreSpaces_eq_nil_iff.mp hrest, rfl⟩
    · cases hfinish
  · rintro ⟨w, t, w', hw, ht, hw', rfl⟩
    have hlength : 3 * t.length + 3 ≤ 3 * (w ++ (t ++ w')).length + 3 := by
      simp only [length_append]
      omega
    obtain ⟨value, hvalue⟩ := parsed_of_derives ht _ w' hlength (follow_of_whitespace hw')
    have hhelper : parseHelper (3 * (w ++ (t ++ w')).length + 3) (w ++ (t ++ w')) =
        .ok (value, w') := by
      rw [← hvalue, ← parseHelper_ignoreSpaces, ignoreSpaces_append hw, parseHelper_ignoreSpaces]
    refine ⟨value, bind_eq_ok.mpr ⟨_, hhelper, ?_⟩⟩
    dsimp only
    rw [if_pos (ignoreSpaces_eq_nil_iff.mpr hw')]
    rfl

/-- The parser ends on every input: with a value for the texts of its grammar, and with the text of
an error for all others. -/
theorem parse_decides (input : List UInt8) :
    ((∃ value, parse input = .ok value) ∧ ParserText input) ∨
      ((∃ text, parse input = .error (.message text)) ∧ ¬ ParserText input) := by
  by_cases htext : ParserText input
  · exact .inl ⟨parse_isOk_iff.mpr htext, htext⟩
  · refine .inr ⟨?_, htext⟩
    cases hparse : parse input with
    | ok value => exact absurd (parse_isOk_iff.mp ⟨value, hparse⟩) htext
    | error error =>
      cases error with
      | message text => exact ⟨text, rfl⟩
      | outOfFuel => exact absurd hparse (parse_ne_outOfFuel input)

end Literate.AK.JsonParser

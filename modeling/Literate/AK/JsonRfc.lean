import Literate.AK.JsonAccepted

/-!
# AK: the accepted texts and RFC 8259

The parser accepts texts outside the grammar of RFC 8259, but only through two kinds
of token: numbers (`-`, `--0`, `-0.`, `1-2`) and the characters of a `\u` escape, of
which it reads one.  `TokensRfc` looks at the tokens of a text alone.
-/

namespace Literate.AK.Json

open StringUtils JsonParser List

/-! ## The tokens of a text -/

mutual

/-- Outside the strings of a text every number is one of the RFC; `number` is what has
been read of the number that the scan is in. -/
def TokensOutside : List UInt8 → List UInt8 → Prop
  | number, [] => number = [] ∨ RfcNumber number
  | number, c :: s =>
    if isNumberChar c then TokensOutside (number ++ [c]) s
    else (number = [] ∨ RfcNumber number) ∧
      if c = byte '"' then TokensInside s else TokensOutside [] s

/-- Inside a string every `\u` has four hexadecimal digits. -/
def TokensInside : List UInt8 → Prop
  | [] => True
  | c :: s =>
    if c = byte '"' then TokensOutside [] s
    else if c = byte '\\' then
      match s with
      | [] => True
      | e :: s =>
        if e = byte 'u' then
          match s with
          | a :: b :: c :: d :: s => RfcUnicode [a, b, c, d] ∧ TokensInside s
          | _ => True
        else TokensInside s
    else TokensInside s

end

/-- The numbers and the `\u` escapes of a text are those of the RFC. -/
def TokensRfc (s : List UInt8) : Prop := TokensOutside [] s

variable {tok s w t : List UInt8} {c : UInt8} {sym : Symbol}

theorem tokensOutside_append (htok : ∀ c ∈ tok, isNumberChar c) (number s : List UInt8) :
    TokensOutside number (tok ++ s) ↔ TokensOutside (number ++ tok) s := by
  induction tok generalizing number with
  | nil => rw [nil_append, append_nil]
  | cons c tok ih =>
    have hc : isNumberChar c := htok c mem_cons_self
    rw [List.cons_append, TokensOutside, if_pos hc,
      ih fun x hx => htok x (mem_cons_of_mem c hx), List.append_assoc]
    rfl

theorem tokensOutside_follow {number : List UInt8} (hnumber : number ≠ []) (hs : Follow s) :
    TokensOutside number s ↔ RfcNumber number ∧ TokensOutside [] s := by
  cases s with
  | nil => simp [TokensOutside, hnumber]
  | cons c s =>
    have hc : ¬ isNumberChar c := by
      intro hc
      have htake : (c :: s).takeWhile isNumberChar = [] := hs
      rw [takeWhile_cons_of_pos hc] at htake
      cases htake
    simp only [TokensOutside, if_neg hc]
    simp [hnumber]

theorem tokensOutside_number (htok : ∀ c ∈ tok, isNumberChar c) (hne : tok ≠ []) (hs : Follow s) :
    TokensOutside [] (tok ++ s) ↔ RfcNumber tok ∧ TokensOutside [] s := by
  rw [tokensOutside_append htok, nil_append, tokensOutside_follow hne hs]

/-- A character that is no token of its own. -/
def plain (c : UInt8) : Bool := !isNumberChar c && c != byte '"'

theorem tokensOutside_plain {t : List UInt8} (ht : ∀ c ∈ t, plain c) (s : List UInt8) :
    TokensOutside [] (t ++ s) ↔ TokensOutside [] s := by
  induction t with
  | nil => rfl
  | cons c t ih =>
    have hc := ht c mem_cons_self
    simp only [plain, Bool.and_eq_true, Bool.not_eq_true', bne_iff_ne, ne_eq] at hc
    rw [List.cons_append, TokensOutside, if_neg (by simp [hc.1]), if_neg hc.2,
      ih fun x hx => ht x (mem_cons_of_mem c hx)]
    simp

theorem tokensOutside_cons (hc : plain c) (s : List UInt8) :
    TokensOutside [] (c :: s) ↔ TokensOutside [] s :=
  @tokensOutside_plain [c] (by simpa using hc) s

theorem plain_of_whitespace (hw : Whitespace w) : ∀ c ∈ w, plain c := by
  intro c hc
  rcases hw c hc with rfl | rfl | rfl | rfl <;> decide

theorem tokensOutside_whitespace (hw : Whitespace w) (s : List UInt8) :
    TokensOutside [] (w ++ s) ↔ TokensOutside [] s :=
  tokensOutside_plain (plain_of_whitespace hw) s

/-- What a character inside a string says about its tokens. -/
theorem tokensInside_cons (c : UInt8) (s : List UInt8) : TokensInside (c :: s) =
      if c = byte '"' then TokensOutside [] s
      else if c = byte '\\' then
        match s with
        | [] => True
        | e :: s =>
          if e = byte 'u' then
            match s with
            | a :: b :: c :: d :: s => RfcUnicode [a, b, c, d] ∧ TokensInside s
            | _ => True
          else TokensInside s
      else TokensInside s := by
  rw [TokensInside.eq_def]

theorem tokensInside_quote (s : List UInt8) :
    TokensInside (byte '"' :: s) ↔ TokensOutside [] s := by
  rw [tokensInside_cons]
  simp

theorem tokensOutside_quoted (k s : List UInt8) :
    TokensOutside [] (quoted k ++ s) ↔ TokensInside (k ++ byte '"' :: s) := by
  have hquoted : quoted k ++ s = byte '"' :: (k ++ byte '"' :: s) := by simp [quoted]
  rw [hquoted, TokensOutside, if_neg (by decide), if_pos rfl]
  simp

theorem tokensInside_plain (hquote : c ≠ byte '"') (hbackslash : c ≠ byte '\\') (s : List UInt8) :
    TokensInside (c :: s) ↔ TokensInside s := by
  rw [tokensInside_cons]
  simp [hquote, hbackslash]

theorem tokensInside_escape (hc : c ∈ escapes) (s : List UInt8) :
    TokensInside (byte '\\' :: c :: s) ↔ TokensInside s := by
  have hne : byte '\\' ≠ byte '"' := by decide
  have hu : c ≠ byte 'u' := by
    rintro rfl
    exact absurd hc (by decide)
  rw [tokensInside_cons]
  simp [hne, hu]

theorem tokensInside_unicode (a b c d : UInt8) (s : List UInt8) :
    TokensInside (byte '\\' :: byte 'u' :: a :: b :: c :: d :: s) ↔
      RfcUnicode [a, b, c, d] ∧ TokensInside s := by
  have hne : byte '\\' ≠ byte '"' := by decide
  rw [tokensInside_cons]
  simp [hne]

/-! ## An accepted text whose tokens are the RFC's -/

/-- What the tokens of a derived text say about it and about what comes after it. -/
def Strict : Symbol → List UInt8 → Prop
  | .chars, t => ∀ s, TokensInside (t ++ s) →
      Derives RfcNumber RfcUnicode .chars t ∧ TokensInside s
  | sym, t => ∀ s, Follow s → TokensOutside [] (t ++ s) →
      Derives RfcNumber RfcUnicode sym t ∧ TokensOutside [] s

theorem strict_word {word : List UInt8} (hword : ∀ c ∈ word, plain c)
    (h : Derives RfcNumber RfcUnicode .value word) : Strict .value word :=
  fun s _ hs => ⟨h, (tokensOutside_plain hword s).mp hs⟩

theorem strict_of_derives (h : Derives ParserNumber ParserUnicode sym t) : Strict sym t := by
  induction h with
  | nil => exact fun s hs => ⟨.nil, hs⟩
  | plain hc hquote hbackslash _ ih =>
    intro s hs
    obtain ⟨ht, hs⟩ := ih s ((tokensInside_plain hquote hbackslash _).mp hs)
    exact ⟨.plain hc hquote hbackslash ht, hs⟩
  | escape hc _ ih =>
    intro s hs
    obtain ⟨ht, hs⟩ := ih s ((tokensInside_escape hc _).mp hs)
    exact ⟨.escape hc ht, hs⟩
  | @unicode u t hu _ ih =>
    obtain ⟨a, b, c, d, rfl, -⟩ := hu
    intro s hs
    obtain ⟨hrfc, hs⟩ := (tokensInside_unicode a b c d (t ++ s)).mp hs
    obtain ⟨ht, hs⟩ := ih s hs
    exact ⟨.unicode hrfc ht, hs⟩
  | null => exact strict_word (List.all_eq_true.mp rfl) .null
  | true => exact strict_word (List.all_eq_true.mp rfl) .true
  | false => exact strict_word (List.all_eq_true.mp rfl) .false
  | number ht =>
    intro s hfollow hs
    obtain ⟨c, t', rfl, -⟩ := parserNumber_head ht
    obtain ⟨hrfc, hs⟩ :=
      (tokensOutside_number (isNumberChar_of_parserNumber ht) (by simp) hfollow).mp hs
    exact ⟨.number hrfc, hs⟩
  | string _ ih =>
    intro s _ hs
    obtain ⟨ht, hs⟩ := ih _ ((tokensOutside_quoted _ s).mp hs)
    exact ⟨.string ht, (tokensInside_quote s).mp hs⟩
  | @emptyArray w hw =>
    intro s _ hs
    rw [List.cons_append, tokensOutside_cons (by decide), List.append_assoc,
      tokensOutside_whitespace hw] at hs
    exact ⟨.emptyArray hw, (tokensOutside_cons (by decide) s).mp hs⟩
  | array _ ih =>
    intro s _ hs
    rw [List.cons_append, tokensOutside_cons (by decide), List.append_assoc] at hs
    obtain ⟨ht, hs⟩ := ih _ (follow_cons (by decide)) hs
    exact ⟨.array ht, (tokensOutside_cons (by decide) s).mp hs⟩
  | @emptyObject w hw =>
    intro s _ hs
    rw [List.cons_append, tokensOutside_cons (by decide), List.append_assoc,
      tokensOutside_whitespace hw] at hs
    exact ⟨.emptyObject hw, (tokensOutside_cons (by decide) s).mp hs⟩
  | object _ ih =>
    intro s _ hs
    rw [List.cons_append, tokensOutside_cons (by decide), List.append_assoc] at hs
    obtain ⟨ht, hs⟩ := ih _ (follow_cons (by decide)) hs
    exact ⟨.object ht, (tokensOutside_cons (by decide) s).mp hs⟩
  | element hw _ hw' ih =>
    intro s hfollow hs
    simp only [List.append_assoc, tokensOutside_whitespace hw] at hs
    obtain ⟨hv, hs⟩ := ih _ (follow_append hw' hfollow) hs
    exact ⟨.element hw hv hw', (tokensOutside_whitespace hw' s).mp hs⟩
  | nextElement hw _ hw' _ ih ih' =>
    intro s hfollow hs
    simp only [List.append_assoc, List.cons_append] at hs
    rw [tokensOutside_whitespace hw] at hs
    obtain ⟨hv, hs⟩ := ih _ (follow_append hw' (follow_cons (by decide))) hs
    rw [tokensOutside_whitespace hw', tokensOutside_cons (by decide)] at hs
    obtain ⟨ht, hs⟩ := ih' s hfollow hs
    exact ⟨.nextElement hw hv hw' ht, hs⟩
  | member hw _ hw₁ hw₂ _ hw' ihk ih =>
    intro s hfollow hs
    simp only [List.append_assoc, List.cons_append] at hs
    rw [tokensOutside_whitespace hw, tokensOutside_quoted] at hs
    obtain ⟨hk, hs⟩ := ihk _ hs
    rw [tokensInside_quote, tokensOutside_whitespace hw₁, tokensOutside_cons (by decide),
      tokensOutside_whitespace hw₂] at hs
    obtain ⟨hv, hs⟩ := ih _ (follow_append hw' hfollow) hs
    exact ⟨.member hw hk hw₁ hw₂ hv hw', (tokensOutside_whitespace hw' s).mp hs⟩
  | nextMember hw _ hw₁ hw₂ _ hw' _ ihk ih ih' =>
    intro s hfollow hs
    simp only [List.append_assoc, List.cons_append] at hs
    rw [tokensOutside_whitespace hw, tokensOutside_quoted] at hs
    obtain ⟨hk, hs⟩ := ihk _ hs
    rw [tokensInside_quote, tokensOutside_whitespace hw₁, tokensOutside_cons (by decide),
      tokensOutside_whitespace hw₂] at hs
    obtain ⟨hv, hs⟩ := ih _ (follow_append hw' (follow_cons (by decide))) hs
    rw [tokensOutside_whitespace hw', tokensOutside_cons (by decide)] at hs
    obtain ⟨ht, hs⟩ := ih' s hfollow hs
    exact ⟨.nextMember hw hk hw₁ hw₂ hv hw' ht, hs⟩

/-! ## The tokens of a text of the RFC -/

theorem rfcNumber_chars (h : RfcNumber t) : t ≠ [] ∧ ∀ c ∈ t, isNumberChar c := by
  have hint : ∀ {int : List UInt8}, RfcInt int → int ≠ [] ∧ ∀ c ∈ int, isNumberChar c := by
    intro int h
    cases h with
    | zero => exact ⟨by simp, List.all_eq_true.mp rfl⟩
    | digits hd _ hds =>
      refine ⟨by simp, fun c hc => isNumberChar_iff.mpr (.inr (.inr ?_))⟩
      rcases mem_cons.mp hc with rfl | hc
      · exact hd
      · exact hds c hc
  have hboth : ∀ {int frac : List UInt8}, RfcInt int → RfcFraction frac →
      ∀ c ∈ int ++ frac, isNumberChar c := by
    intro int frac hi hf c hc
    rcases mem_append.mp hc with hc | hc
    · exact (hint hi).2 c hc
    · exact isNumberChar_of_rfcFraction hf c hc
  cases h with
  | positive hi hf => exact ⟨by simp [(hint hi).1], hboth hi hf⟩
  | negative hi hf =>
    refine ⟨by simp, fun c hc => ?_⟩
    rcases mem_cons.mp hc with rfl | hc
    · decide
    · exact hboth hi hf c hc

/-- The tokens of a derived text are in order when those after it are. -/
def Ordered : Symbol → List UInt8 → Prop
  | .chars, t => ∀ s, TokensInside s → TokensInside (t ++ s)
  | _, t => ∀ s, Follow s → TokensOutside [] s → TokensOutside [] (t ++ s)

theorem ordered_of_derives (h : Derives RfcNumber RfcUnicode sym t) : Ordered sym t := by
  have hword : ∀ {word : List UInt8}, (∀ c ∈ word, plain c) → Ordered .value word :=
    fun hword s _ hs => (tokensOutside_plain hword s).mpr hs
  induction h with
  | nil => exact fun s hs => hs
  | plain hc hquote hbackslash _ ih =>
    exact fun s hs => (tokensInside_plain hquote hbackslash _).mpr (ih s hs)
  | escape hc _ ih => exact fun s hs => (tokensInside_escape hc _).mpr (ih s hs)
  | @unicode u t hu _ ih =>
    obtain ⟨a, b, c, d, rfl⟩ := length_eq_four.mp hu.1
    exact fun s hs => (tokensInside_unicode a b c d _).mpr ⟨hu, ih s hs⟩
  | null => exact hword (List.all_eq_true.mp rfl)
  | true => exact hword (List.all_eq_true.mp rfl)
  | false => exact hword (List.all_eq_true.mp rfl)
  | number ht =>
    obtain ⟨hne, hchars⟩ := rfcNumber_chars ht
    exact fun s hfollow hs => (tokensOutside_number hchars hne hfollow).mpr ⟨ht, hs⟩
  | string _ ih =>
    exact fun s _ hs => (tokensOutside_quoted _ s).mpr (ih _ ((tokensInside_quote s).mpr hs))
  | @emptyArray w hw =>
    intro s _ hs
    rw [List.cons_append, tokensOutside_cons (by decide), List.append_assoc,
      tokensOutside_whitespace hw]
    exact (tokensOutside_cons (by decide) s).mpr hs
  | array _ ih =>
    intro s _ hs
    rw [List.cons_append, tokensOutside_cons (by decide), List.append_assoc]
    exact ih _ (follow_cons (by decide)) ((tokensOutside_cons (by decide) s).mpr hs)
  | @emptyObject w hw =>
    intro s _ hs
    rw [List.cons_append, tokensOutside_cons (by decide), List.append_assoc,
      tokensOutside_whitespace hw]
    exact (tokensOutside_cons (by decide) s).mpr hs
  | object _ ih =>
    intro s _ hs
    rw [List.cons_append, tokensOutside_cons (by decide), List.append_assoc]
    exact ih _ (follow_cons (by decide)) ((tokensOutside_cons (by decide) s).mpr hs)
  | element hw _ hw' ih =>
    intro s hfollow hs
    simp only [List.append_assoc, tokensOutside_whitespace hw]
    exact ih _ (follow_append hw' hfollow) ((tokensOutside_whitespace hw' s).mpr hs)
  | nextElement hw _ hw' _ ih ih' =>
    intro s hfollow hs
    simp only [List.append_assoc, List.cons_append]
    rw [tokensOutside_whitespace hw]
    refine ih _ (follow_append hw' (follow_cons (by decide))) ?_
    rw [tokensOutside_whitespace hw', tokensOutside_cons (by decide)]
    exact ih' s hfollow hs
  | member hw _ hw₁ hw₂ _ hw' ihk ih =>
    intro s hfollow hs
    simp only [List.append_assoc, List.cons_append]
    rw [tokensOutside_whitespace hw, tokensOutside_quoted]
    refine ihk _ ?_
    rw [tokensInside_quote, tokensOutside_whitespace hw₁, tokensOutside_cons (by decide),
      tokensOutside_whitespace hw₂]
    exact ih _ (follow_append hw' hfollow) ((tokensOutside_whitespace hw' s).mpr hs)
  | nextMember hw _ hw₁ hw₂ _ hw' _ ihk ih ih' =>
    intro s hfollow hs
    simp only [List.append_assoc, List.cons_append]
    rw [tokensOutside_whitespace hw, tokensOutside_quoted]
    refine ihk _ ?_
    rw [tokensInside_quote, tokensOutside_whitespace hw₁, tokensOutside_cons (by decide),
      tokensOutside_whitespace hw₂]
    refine ih _ (follow_append hw' (follow_cons (by decide))) ?_
    rw [tokensOutside_whitespace hw', tokensOutside_cons (by decide)]
    exact ih' s hfollow hs

theorem tokensRfc_of_rfcText (h : RfcText s) : TokensRfc s := by
  obtain ⟨w, t, w', hw, ht, hw', rfl⟩ := h
  rw [TokensRfc, tokensOutside_whitespace hw]
  refine ordered_of_derives ht w' (follow_of_whitespace hw') ?_
  rw [← append_nil w', tokensOutside_whitespace hw', TokensOutside]
  exact .inl rfl

theorem rfcText_of_parserText (h : ParserText s) (htokens : TokensRfc s) : RfcText s := by
  obtain ⟨w, t, w', hw, ht, hw', rfl⟩ := h
  rw [TokensRfc, tokensOutside_whitespace hw] at htokens
  exact ⟨w, t, w', hw,
    (strict_of_derives ht w' (follow_of_whitespace hw') htokens).1, hw', rfl⟩

/-! ## Soundness of the parser -/

/-- The parser is right to accept a text exactly when the text, if it is one that the
parser's grammar derives, has no number and no `\u` escape but those of the RFC. -/
theorem parse_rfcText_iff (input : List UInt8) :
    ((∃ value, parse input = .ok value) → RfcText input) ↔
      (ParserText input → TokensRfc input) := by
  rw [parse_isOk_iff]
  constructor
  · exact fun h htext => tokensRfc_of_rfcText (h htext)
  · exact fun h htext => rfcText_of_parserText htext (h htext)

theorem minus_notMem_tail (h : RfcNumber (c :: t)) : byte '-' ∉ t := by
  have hint : ∀ {int : List UInt8}, RfcInt int → byte '-' ∉ int := by
    intro int hint
    cases hint with
    | zero => decide
    | digits hd _ hds =>
      rintro (_ | ⟨_, hmem⟩)
      · exact absurd hd (by decide)
      · exact absurd (hds _ hmem) (by decide)
  have hfrac : ∀ {frac : List UInt8}, RfcFraction frac → byte '-' ∉ frac := by
    intro frac hfrac
    cases hfrac with
    | none => simp
    | some _ hds =>
      rintro (_ | ⟨_, hmem⟩)
      exact absurd (hds _ hmem) (by decide)
  generalize hs : c :: t = s at h
  cases h with
  | positive hi hf =>
    intro hmem
    have hmem' : byte '-' ∈ c :: t := mem_cons_of_mem c hmem
    rw [hs] at hmem'
    exact (mem_append.mp hmem').elim (hint hi) (hfrac hf)
  | negative hi hf =>
    obtain ⟨-, rfl⟩ := List.cons.inj hs
    exact fun hmem => (mem_append.mp hmem).elim (hint hi) (hfrac hf)

/-- `1-2` is parsed as 1. -/
theorem not_rfcText_oneMinusTwo : parse (['1', '-', '2'].map byte) = .ok (.unsignedInt32 1) ∧
      ¬ RfcText (['1', '-', '2'].map byte) := by
  refine ⟨rfl, fun h => ?_⟩
  have htokens := tokensRfc_of_rfcText h
  have hnumber : RfcNumber (['1', '-', '2'].map byte) := by
    have hpoint : Follow [] := rfl
    have hchars : ∀ c ∈ ['1', '-', '2'].map byte, isNumberChar c := List.all_eq_true.mp rfl
    rw [TokensRfc, ← append_nil (['1', '-', '2'].map byte),
      tokensOutside_number hchars (by simp) hpoint] at htokens
    exact htokens.1
  exact minus_notMem_tail hnumber (by decide)

end Literate.AK.Json

import Literate.AK.GenericLexerRun

/-!
# AK: unescaping a quoted string

`consume_and_unescape_string` of `AK/GenericLexer.cpp`.  It consumes the quoted string and
then, as many times as its content has characters, an escaped character: not of the content,
which the lexer has passed, but of what stands behind the closing quote.
-/

namespace Literate.AK

open List Option

namespace GenericLexer

/-! ## The second pass -/

/-- What `consume_escaped_character` makes of the character behind an escape. -/
def mappedCharacter : (escapeMap : List UInt8) → (c : UInt8) → UInt8
  | plain :: mapped :: escapeMap, c => if c = plain then mapped else mappedCharacter escapeMap c
  | _, c => c

/-- The map that is passed by default: `"n\nr\rt\tb\bf\f"`. -/
def escapeMap : List UInt8 :=
  [byte 'n', 0x0a, byte 'r', 0x0d, byte 't', 0x09, byte 'b', 0x08, byte 'f', 0x0c]

def consumeEscapedCharacter (escapeChar : UInt8) (lexer : GenericLexer) :
    Option (UInt8 × GenericLexer) := do
  let (escapes, lexer) ← lexer.consumeSpecificChar escapeChar
  if !escapes then lexer.consume
  else do
    let (c, lexer) ← lexer.consume
    some (mappedCharacter escapeMap c, lexer)

/-- The loop of `consume_and_unescape_string`, of `remaining` rounds. -/
def unescapeLoop (escapeChar : UInt8) :
    (remaining : Nat) → (builder : List UInt8) → GenericLexer → Option (List UInt8 × GenericLexer)
  | 0, builder, lexer => some (builder, lexer)
  | remaining + 1, builder, lexer =>
    (lexer.consumeEscapedCharacter escapeChar).bind fun result =>
      unescapeLoop escapeChar remaining (builder ++ [result.1]) result.2

/-- `consume_and_unescape_string`; the string that it returns may be null. -/
def consumeAndUnescapeString (escapeChar : UInt8) (lexer : GenericLexer) :
    Option (Option (List UInt8) × GenericLexer) := do
  let (view, lexer) ← lexer.consumeQuotedString escapeChar
  if view.isNull then some (none, lexer)
  else
    (lexer.unescapeLoop escapeChar view.length []).map fun result => (some result.1, result.2)

/-! ## Quoted strings -/

/-- What may stand between two quotes: an escape takes the character behind it along. -/
inductive QuotedContent (escapeChar quoteChar : UInt8) : List UInt8 → Prop
  | nil : QuotedContent escapeChar quoteChar []
  | character {ch : UInt8} {content : List UInt8} : ch ≠ escapeChar → ch ≠ quoteChar →
      QuotedContent escapeChar quoteChar content →
      QuotedContent escapeChar quoteChar (ch :: content)
  | escape {ch : UInt8} {content : List UInt8} : QuotedContent escapeChar quoteChar content →
      QuotedContent escapeChar quoteChar (escapeChar :: ch :: content)

/-- A terminated quoted string starts here.  A quote that is the escape character does not
terminate one. -/
def StartsQuoted (lexer : GenericLexer) (escapeChar : UInt8) (content : List UInt8) : Prop :=
  ∃ quoteChar rest, isQuote quoteChar = true ∧ quoteChar ≠ escapeChar ∧
    QuotedContent escapeChar quoteChar content ∧
    lexer.mInput.bytes.drop lexer.mIndex = quoteChar :: (content ++ quoteChar :: rest)

/-- A content with its escape sequences replaced. -/
def unescaped (escapeChar : UInt8) : (content : List UInt8) → List UInt8
  | [] => []
  | [ch] => [ch]
  | ch :: next :: content =>
    if ch = escapeChar then mappedCharacter escapeMap next :: unescaped escapeChar content
    else ch :: unescaped escapeChar (next :: content)

/-- What is promised: the unescaped content of the quoted string that starts here, with the
lexer behind its closing quote, or null and the lexer as it was. -/
def UnescapesQuoted (lexer : GenericLexer) (escapeChar : UInt8) : Prop :=
  (∀ content, lexer.StartsQuoted escapeChar content →
    lexer.consumeAndUnescapeString escapeChar =
      some (some (unescaped escapeChar content),
        lexer.atIndex (lexer.mIndex + content.length + 2))) ∧
  ((∀ content, ¬ lexer.StartsQuoted escapeChar content) →
    lexer.consumeAndUnescapeString escapeChar = some (none, lexer))

variable {lexer : GenericLexer} {escapeChar quoteChar : UInt8}

/-! ## The first pass -/

theorem quotedLoop_round {ch : UInt8} (h : lexer.mInput.bytes[lexer.mIndex]? = some ch)
    (fuel : Nat) : lexer.quotedLoop escapeChar quoteChar (fuel + 1) =
      if ch = escapeChar then lexer.advance.advance.quotedLoop escapeChar quoteChar fuel
      else if ch = quoteChar then some lexer
      else lexer.advance.quotedLoop escapeChar quoteChar fuel := by
  obtain ⟨hlt, -⟩ := List.getElem?_eq_some_iff.mp h
  have hlength := lexer.length_lt
  rw [StringView.length] at hlength
  have hpeek : lexer.peek 0 = some ch := by
    rw [peek_eq (by omega), Nat.add_zero, getD_eq_getElem?_getD, h, getD_some]
  have heof : lexer.isEof = false := decide_eq_false (Nat.not_le.mpr hlt)
  simp only [quotedLoop, heof, nextIsChar, hpeek, map_some, bind_some,
    Bool.false_eq_true, if_false, beq_iff_eq]

theorem quotedLoop_eof (h : lexer.mInput.length ≤ lexer.mIndex) (fuel : Nat) :
    lexer.quotedLoop escapeChar quoteChar (fuel + 1) = some lexer := by
  rw [quotedLoop, isEof, if_pos (decide_eq_true h)]

theorem quotedLoop_content (hne : quoteChar ≠ escapeChar) {content rest : List UInt8}
    (hcontent : QuotedContent escapeChar quoteChar content) : ∀ {lexer : GenericLexer} {fuel : Nat},
      lexer.mInput.bytes.drop lexer.mIndex = content ++ quoteChar :: rest →
      lexer.mInput.length - lexer.mIndex < fuel →
      lexer.quotedLoop escapeChar quoteChar fuel =
        some (lexer.atIndex (lexer.mIndex + content.length)) := by
  induction hcontent with
  | nil =>
    intro lexer fuel htext hfuel
    obtain ⟨fuel, rfl⟩ := Nat.exists_eq_succ_of_ne_zero (Nat.ne_of_gt (Nat.zero_lt_of_lt hfuel))
    rw [quotedLoop_round (getElem?_of_rest htext), if_neg hne, if_pos rfl]
    rfl
  | @character ch content hescape hquote _ ih =>
    intro lexer fuel htext hfuel
    obtain ⟨fuel, rfl⟩ := Nat.exists_eq_succ_of_ne_zero (Nat.ne_of_gt (Nat.zero_lt_of_lt hfuel))
    have hlt := inside_of_rest htext
    rw [quotedLoop_round (getElem?_of_rest htext), if_neg hescape, if_neg hquote,
      ih (rest_advance htext) (by rw [advance_mIndex, advance_mInput]; omega), length_cons,
      advance_mIndex, Nat.add_assoc, Nat.add_comm 1]
    rfl
  | @escape ch content _ ih =>
    intro lexer fuel htext hfuel
    obtain ⟨fuel, rfl⟩ := Nat.exists_eq_succ_of_ne_zero (Nat.ne_of_gt (Nat.zero_lt_of_lt hfuel))
    have hlt := inside_of_rest htext
    have hindex : lexer.mIndex + 1 + 1 + content.length =
        lexer.mIndex + (escapeChar :: ch :: content).length := by
      simp only [length_cons]
      omega
    rw [quotedLoop_round (getElem?_of_rest htext), if_pos rfl,
      ih (rest_advance (rest_advance htext))
        (by simp only [advance_mIndex, advance_mInput]; omega),
      advance_mIndex, advance_mIndex, hindex]
    rfl

theorem quotedLoop_closed (fuel : Nat) : ∀ {lexer : GenericLexer} {stop : Nat},
    lexer.quotedLoop escapeChar quoteChar fuel = some (lexer.atIndex stop) →
    lexer.mInput.bytes[stop]? = some quoteChar →
    ∃ content rest, quoteChar ≠ escapeChar ∧ QuotedContent escapeChar quoteChar content ∧
      lexer.mInput.bytes.drop lexer.mIndex = content ++ quoteChar :: rest ∧
      stop = lexer.mIndex + content.length := by
  induction fuel with
  | zero =>
    intro lexer stop hloop _
    cases hloop
  | succ fuel ih =>
    intro lexer stop hloop hclosed
    obtain ⟨hstop, -⟩ := List.getElem?_eq_some_iff.mp hclosed
    have hsame : ∀ {index index'}, lexer.atIndex index = lexer.atIndex index' → index = index' :=
      fun h => congrArg GenericLexer.mIndex h
    by_cases heof : lexer.mInput.length ≤ lexer.mIndex
    · rw [quotedLoop_eof heof] at hloop
      obtain rfl : lexer.mIndex = stop := hsame (some.inj hloop)
      exact absurd hstop (Nat.not_lt.mpr heof)
    · obtain ⟨ch, hch⟩ : ∃ ch, lexer.mInput.bytes[lexer.mIndex]? = some ch :=
        ⟨_, List.getElem?_eq_getElem (Nat.lt_of_not_le heof)⟩
      have hdrop : lexer.mInput.bytes.drop lexer.mIndex =
          ch :: lexer.advance.mInput.bytes.drop lexer.advance.mIndex := by
        obtain ⟨hlt, hget⟩ := List.getElem?_eq_some_iff.mp hch
        rw [drop_eq_getElem_cons hlt, hget]
        rfl
      rw [quotedLoop_round hch] at hloop
      by_cases hescape : ch = escapeChar
      · subst hescape
        rw [if_pos rfl] at hloop
        obtain ⟨content, rest, hne, hcontent, htext, rfl⟩ := ih hloop hclosed
        simp only [advance_mIndex, advance_mInput] at htext hdrop hstop ⊢
        have hlt : lexer.mIndex + 1 < lexer.mInput.bytes.length := by omega
        refine ⟨ch :: lexer.mInput.bytes[lexer.mIndex + 1] :: content, rest, hne,
          .escape hcontent, ?_, ?_⟩
        · rw [hdrop, drop_eq_getElem_cons hlt, htext]
          rfl
        · simp only [length_cons]
          omega
      · rw [if_neg hescape] at hloop
        by_cases hquote : ch = quoteChar
        · subst hquote
          rw [if_pos rfl] at hloop
          obtain rfl : lexer.mIndex = stop := hsame (some.inj hloop)
          exact ⟨[], _, hescape, .nil, hdrop, rfl⟩
        · rw [if_neg hquote] at hloop
          obtain ⟨content, rest, hne, hcontent, htext, rfl⟩ := ih hloop hclosed
          refine ⟨ch :: content, rest, hne, .character hescape hquote hcontent, ?_, ?_⟩
          · rw [hdrop, htext]
            rfl
          · rw [advance_mIndex, length_cons]
            omega

theorem StartsQuoted.consumed {content : List UInt8} (h : lexer.StartsQuoted escapeChar content) :
    ∃ view : StringView, view.bytes = content ∧ view.isNull = false ∧
      lexer.consumeQuotedString escapeChar =
        some (view, lexer.atIndex (lexer.mIndex + content.length + 2)) := by
  obtain ⟨quoteChar, rest, hisQuote, hne, hcontent, htext⟩ := h
  have hquote := getElem?_of_rest htext
  have hbehind : lexer.mInput.bytes.drop (lexer.mIndex + 1) = content ++ quoteChar :: rest :=
    rest_advance htext
  obtain ⟨hlt, -⟩ := List.getElem?_eq_some_iff.mp hquote
  have hlength := congrArg List.length htext
  simp only [length_drop, length_cons, length_append] at hlength
  have hloop : lexer.advance.quotedLoop escapeChar quoteChar lexer.rounds =
      some (lexer.atIndex (lexer.mIndex + 1 + content.length)) :=
    quotedLoop_content hne hcontent hbehind
      (by rw [rounds, advance_mIndex, advance_mInput]; omega)
  have hclosed : lexer.mInput.bytes[lexer.mIndex + 1 + content.length]? = some quoteChar := by
    rw [← List.head?_drop, ← drop_drop, hbehind, drop_left, List.head?_cons]
  have hindex : lexer.mIndex + 1 + content.length + 1 = lexer.mIndex + content.length + 2 := by omega
  rw [consumeQuotedString_eq hquote hisQuote hloop (by omega) (by rw [StringView.length]; omega),
    dif_pos hclosed, hindex]
  refine ⟨_, ?_, ?_, rfl⟩
  · show (lexer.mInput.bytes.drop (lexer.mIndex + 1)).take
        (lexer.mIndex + 1 + content.length - (lexer.mIndex + 1)) = content
    rw [Nat.add_sub_cancel_left]
    exact (congrArg (List.take content.length) hbehind).trans take_left
  · exact decide_eq_false (Nat.ne_of_gt (Nat.lt_of_lt_of_le (Nat.succ_pos _)
      (Nat.le_add_left _ _)))

theorem consumeQuotedString_of_not_starts (hinside : lexer.Inside)
    (h : ∀ content, ¬ lexer.StartsQuoted escapeChar content) :
    lexer.consumeQuotedString escapeChar = some (.null, lexer) := by
  by_cases hstarts : ∃ quote, isQuote quote = true ∧
      lexer.mInput.bytes[lexer.mIndex]? = some quote
  · obtain ⟨quote, hisQuote, hquote⟩ := hstarts
    obtain ⟨stop, hstart, hstop, hloop⟩ := exists_quotedLoop escapeChar hquote
    rw [consumeQuotedString_eq hquote hisQuote hloop hstart hstop, dif_neg]
    intro hclosed
    obtain ⟨content, rest, hne, hcontent, htext, -⟩ :=
      @quotedLoop_closed escapeChar quote lexer.rounds lexer.advance stop hloop hclosed
    refine h content ⟨quote, rest, hisQuote, hne, hcontent, ?_⟩
    obtain ⟨hlt, hget⟩ := List.getElem?_eq_some_iff.mp hquote
    rw [drop_eq_getElem_cons hlt, hget, ← htext]
    rfl
  · exact hinside.consumeQuotedString_none escapeChar fun quote hisQuote hquote =>
      hstarts ⟨quote, hisQuote, hquote⟩

/-! ## The second pass goes on -/

theorem le_of_consumeSpecificChar {next : UInt8} {result : Bool × GenericLexer}
    (h : lexer.consumeSpecificChar next = some result) : lexer.mIndex ≤ result.2.mIndex := by
  obtain ⟨isNext, -, rfl⟩ := map_eq_some_iff.mp h
  cases isNext with
  | false => exact Nat.le_refl _
  | true => exact Nat.le_add_right _ _

theorem lt_of_consume {result : UInt8 × GenericLexer} (h : lexer.consume = some result) :
    lexer.mIndex < result.2.mIndex := by
  rw [consume] at h
  split at h
  · cases h
  · obtain ⟨ch, -, rfl⟩ := map_eq_some_iff.mp h
    exact Nat.lt_succ_self _

theorem lt_of_consumeEscapedCharacter {result : UInt8 × GenericLexer}
    (h : lexer.consumeEscapedCharacter escapeChar = some result) :
    lexer.mIndex < result.2.mIndex := by
  obtain ⟨⟨escapes, after⟩, hspecific, h⟩ := bind_eq_some_iff.mp h
  have hle := le_of_consumeSpecificChar hspecific
  cases escapes with
  | false => exact Nat.lt_of_le_of_lt hle (lt_of_consume h)
  | true =>
    obtain ⟨⟨c, last⟩, hconsume, h⟩ := bind_eq_some_iff.mp h
    cases h
    have hlt := lt_of_consume hconsume
    exact Nat.lt_of_le_of_lt hle hlt

theorem le_of_unescapeLoop (remaining : Nat) : ∀ {lexer : GenericLexer} {builder : List UInt8}
    {result : List UInt8 × GenericLexer},
    lexer.unescapeLoop escapeChar remaining builder = some result →
    lexer.mIndex + remaining ≤ result.2.mIndex := by
  induction remaining with
  | zero =>
    intro lexer builder result h
    cases h
    exact Nat.le_refl _
  | succ remaining ih =>
    intro lexer builder result h
    obtain ⟨next, hnext, h⟩ := bind_eq_some_iff.mp h
    have hlt := lt_of_consumeEscapedCharacter hnext
    have hle := ih h
    omega

/-- A quoted string is unescaped, or null returned, exactly when no quoted string starts here
that has a content. -/
theorem unescapesQuoted_iff (lexer : GenericLexer) (escapeChar : UInt8) (hinside : lexer.Inside) :
    lexer.UnescapesQuoted escapeChar ↔
      ∀ content, lexer.StartsQuoted escapeChar content → content = [] := by
  constructor
  · intro hunescapes content hstarts
    obtain ⟨view, hbytes, hnull, hconsumed⟩ := hstarts.consumed
    have hresult := hunescapes.1 content hstarts
    simp only [consumeAndUnescapeString, hconsumed, bind_eq_bind, bind_some, hnull,
      Bool.false_eq_true, if_false] at hresult
    obtain ⟨result, hloop, hsame⟩ := map_eq_some_iff.mp hresult
    have hle := le_of_unescapeLoop view.length hloop
    rw [(Prod.mk.inj hsame).2, StringView.length, hbytes] at hle
    simp only [atIndex_mIndex] at hle
    exact eq_nil_of_length_eq_zero (by omega)
  · intro hempty
    refine ⟨fun content hstarts => ?_, fun hnone => ?_⟩
    · obtain rfl := hempty content hstarts
      obtain ⟨view, hbytes, hnull, hconsumed⟩ := hstarts.consumed
      have hlength : view.length = 0 := by rw [StringView.length, hbytes, length_nil]
      simp only [consumeAndUnescapeString, hconsumed, bind_eq_bind, bind_some, hnull,
        Bool.false_eq_true, if_false, hlength]
      rfl
    · simp only [consumeAndUnescapeString, consumeQuotedString_of_not_starts hinside hnone,
        bind_eq_bind, bind_some]
      rfl

theorem unescapesQuoted_iff_empty :
    UnescapesQuoted ⟨⟨1, [0x22, 0x22, 0x61], by decide, by decide⟩, 0⟩ 0x5c ↔
      ∀ content, StartsQuoted ⟨⟨1, [0x22, 0x22, 0x61], by decide, by decide⟩, 0⟩ 0x5c content →
        content = [] :=
  unescapesQuoted_iff ⟨⟨1, [0x22, 0x22, 0x61], by decide, by decide⟩, 0⟩ 0x5c (Nat.zero_le _)

/-- Of `"a"b` the character behind the quoted string is returned. -/
theorem not_unescapesQuoted_a :
    ¬ UnescapesQuoted ⟨⟨1, [0x22, 0x61, 0x22, 0x62], by decide, by decide⟩, 0⟩ 0x5c ∧
    consumeAndUnescapeString 0x5c ⟨⟨1, [0x22, 0x61, 0x22, 0x62], by decide, by decide⟩, 0⟩ =
      some (some [0x62], ⟨⟨1, [0x22, 0x61, 0x22, 0x62], by decide, by decide⟩, 4⟩) := by
  have hresult : consumeAndUnescapeString 0x5c
      ⟨⟨1, [0x22, 0x61, 0x22, 0x62], by decide, by decide⟩, 0⟩ =
        some (some [0x62], ⟨⟨1, [0x22, 0x61, 0x22, 0x62], by decide, by decide⟩, 4⟩) := by
    decide
  refine ⟨fun hunescapes => ?_, hresult⟩
  have hstarts : StartsQuoted ⟨⟨1, [0x22, 0x61, 0x22, 0x62], by decide, by decide⟩, 0⟩ 0x5c [0x61] :=
    ⟨0x22, [0x62], by decide, by decide, .character (by decide) (by decide) .nil, rfl⟩
  have hpromised := hunescapes.1 [0x61] hstarts
  rw [hresult] at hpromised
  revert hpromised
  decide

end GenericLexer

end Literate.AK

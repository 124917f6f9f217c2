import Literate.AK.GenericLexer
import Literate.Foundation.Run

/-!
# AK: the generic lexer stays in its input

Every operation begins and ends with the index in the input or at its end (`Inside`), reads
characters of the input only, and returns the range that it has passed.
-/

namespace Literate.AK

open Foundation List Option

variable {condition : GenericLexer → Option Bool} {input : StringView} {quote : UInt8}
  {operation : Operation}

namespace GenericLexer

/-- The index is in the input, or at its end. -/
def Inside (lexer : GenericLexer) : Prop := lexer.mIndex ≤ lexer.mInput.length

/-- A lexer of the same input at another index. -/
def atIndex (lexer : GenericLexer) (index : Nat) : GenericLexer := { lexer with mIndex := index }

/-- What is left of the input. -/
def rest (lexer : GenericLexer) : List UInt8 := lexer.mInput.bytes.drop lexer.mIndex

variable {lexer : GenericLexer}

@[simp] theorem atIndex_mIndex (index : Nat) : (lexer.atIndex index).mIndex = index := rfl

@[simp] theorem atIndex_mInput (index : Nat) : (lexer.atIndex index).mInput = lexer.mInput := rfl

@[simp] theorem atIndex_atIndex (index index' : Nat) :
    (lexer.atIndex index).atIndex index' = lexer.atIndex index' := rfl

@[simp] theorem advance_mIndex : lexer.advance.mIndex = lexer.mIndex + 1 := rfl

@[simp] theorem advance_mInput : lexer.advance.mInput = lexer.mInput := rfl

variable {ch : UInt8} {text : List UInt8}

section

variable (h : lexer.rest = ch :: text)

include h

theorem getElem?_of_rest : lexer.mInput.bytes[lexer.mIndex]? = some ch := by
  rw [← List.head?_drop, ← rest, h, List.head?_cons]

theorem inside_of_rest : lexer.mIndex < lexer.mInput.length :=
  (List.getElem?_eq_some_iff.mp (getElem?_of_rest h)).1

theorem rest_advance : lexer.advance.rest = text := by
  rw [rest, advance_mIndex, advance_mInput, ← drop_drop, ← rest, h, drop_one,
    tail_cons]

end

/-! ## Looking -/

theorem length_lt (lexer : GenericLexer) : lexer.mInput.length + 1 < 2 ^ 64 := by
  have hfits := lexer.mInput.fits
  by_cases hnull : lexer.mInput.characters = 0
  · rw [StringView.length, lexer.mInput.empty_of_null hnull]
    decide
  · rw [StringView.length]
    omega

theorem Inside.tellRemaining_eq (h : lexer.Inside) :
    lexer.tellRemaining = lexer.mInput.length - lexer.mIndex := by
  have hlength := lexer.length_lt
  rw [Inside] at h
  rw [tellRemaining]
  omega

theorem peek_eq {offset : Nat} (h : lexer.mIndex + offset < 2 ^ 64) :
    lexer.peek offset = some (lexer.mInput.bytes.getD (lexer.mIndex + offset) 0) := by
  rw [peek, Nat.mod_eq_of_lt h, StringView.at?, StringView.length]
  by_cases hlt : lexer.mIndex + offset < lexer.mInput.bytes.length
  · rw [if_pos hlt, getD_eq_getElem?_getD, List.getElem?_eq_getElem hlt, getD_some]
  · rw [if_neg hlt, getD_eq_default _ _ (Nat.le_of_not_lt hlt)]

theorem exists_peek (lexer : GenericLexer) (offset : Nat) : ∃ ch, lexer.peek offset = some ch := by
  rw [peek, StringView.at?, StringView.length]
  split
  · next hlt => exact ⟨_, List.getElem?_eq_getElem hlt⟩
  · exact ⟨0, rfl⟩

theorem exists_nextIsString (expected : List UInt8) (lexer : GenericLexer) :
    ∃ isNext, lexer.nextIsString expected = some isNext := by
  have hloop : ∀ i, ∃ isNext, lexer.nextIsLoop expected i = some isNext := by
    induction expected with
    | nil => exact fun _ => ⟨true, rfl⟩
    | cons ch expected ih =>
      intro i
      obtain ⟨found, hfound⟩ := lexer.exists_peek i
      rw [nextIsLoop, hfound, bind_some]
      split
      · exact ⟨false, rfl⟩
      · exact ih (i + 1)
  exact hloop 0

/-- A condition that can be evaluated everywhere. -/
def Defined (condition : GenericLexer → Option Bool) : Prop :=
  ∀ lexer, ∃ goesOn, condition lexer = some goesOn

theorem defined_peek (f : UInt8 → Bool) : Defined fun lexer => (lexer.peek 0).map f := fun lexer =>
  (lexer.exists_peek 0).imp' f fun ch h => by
    dsimp only
    rw [h, map_some]

theorem defined_nextIsString (expected : List UInt8) :
    Defined fun lexer => (lexer.nextIsString expected).map (!·) := fun lexer =>
  (exists_nextIsString expected lexer).imp' (!·) fun isNext h => by
    dsimp only
    rw [h, map_some]

/-! ## The loops -/

/-- A loop ends in the input or at its end, not before where it began. -/
theorem advanceWhile_spec (hcondition : Defined condition) (fuel : Nat) :
    ∀ {lexer : GenericLexer}, lexer.Inside →
      lexer.mInput.length - lexer.mIndex < fuel →
      ∃ stop, lexer.mIndex ≤ stop ∧ stop ≤ lexer.mInput.length ∧
        lexer.advanceWhile condition fuel = some (lexer.atIndex stop) := by
  induction fuel with
  | zero => exact fun _ hfuel => absurd hfuel (Nat.not_lt_zero _)
  | succ fuel ih =>
    intro lexer h hfuel
    rw [Inside] at h
    rw [advanceWhile, isEof]
    by_cases heof : lexer.mInput.length ≤ lexer.mIndex
    · rw [if_pos (decide_eq_true heof)]
      exact ⟨lexer.mIndex, Nat.le_refl _, h, rfl⟩
    · obtain ⟨goesOn, hgoesOn⟩ := hcondition lexer
      rw [if_neg (mt of_decide_eq_true heof), hgoesOn, bind_some]
      cases goesOn with
      | false => exact ⟨lexer.mIndex, Nat.le_refl _, h, rfl⟩
      | true =>
        obtain ⟨stop, hle, hstop, hloop⟩ := @ih lexer.advance
          (by rw [Inside, advance_mIndex, advance_mInput]; omega)
          (by rw [advance_mIndex, advance_mInput]; omega)
        exact ⟨stop, Nat.le_of_succ_le hle, hstop, hloop⟩

theorem Inside.advanceWhile_rounds (h : lexer.Inside) (hcondition : Defined condition) :
    ∃ stop, lexer.mIndex ≤ stop ∧ stop ≤ lexer.mInput.length ∧
      lexer.advanceWhile condition lexer.rounds = some (lexer.atIndex stop) :=
  advanceWhile_spec hcondition _ h (by rw [rounds]; omega)

/-- The loop over a quoted string may end one behind the end. -/
theorem quotedLoop_spec (escapeChar quoteChar : UInt8) (fuel : Nat) :
    ∀ {lexer : GenericLexer}, lexer.mIndex ≤ lexer.mInput.length + 1 →
      lexer.mInput.length - lexer.mIndex < fuel →
      ∃ stop, lexer.mIndex ≤ stop ∧ stop ≤ lexer.mInput.length + 1 ∧
        lexer.quotedLoop escapeChar quoteChar fuel = some (lexer.atIndex stop) := by
  induction fuel with
  | zero => exact fun _ hfuel => absurd hfuel (Nat.not_lt_zero _)
  | succ fuel ih =>
    intro lexer h hfuel
    rw [quotedLoop, isEof]
    by_cases heof : lexer.mInput.length ≤ lexer.mIndex
    · rw [if_pos (decide_eq_true heof)]
      exact ⟨lexer.mIndex, Nat.le_refl _, h, rfl⟩
    · obtain ⟨ch, hch⟩ := lexer.exists_peek 0
      simp only [if_neg (mt of_decide_eq_true heof), nextIsChar, hch]
      simp
      split
      · obtain ⟨stop, hle, hstop, hloop⟩ := @ih lexer.advance.advance
          (by simp only [advance_mIndex, advance_mInput]; omega)
          (by simp only [advance_mIndex, advance_mInput]; omega)
        simp only [advance_mIndex] at hle
        exact ⟨stop, by omega, hstop, hloop⟩
      · split
        · exact ⟨lexer.mIndex, Nat.le_refl _, h, rfl⟩
        · obtain ⟨stop, hle, hstop, hloop⟩ := @ih lexer.advance
            (by simp only [advance_mIndex, advance_mInput]; omega)
            (by simp only [advance_mIndex, advance_mInput]; omega)
          exact ⟨stop, Nat.le_of_succ_le hle, hstop, hloop⟩

/-! ## The ranges that are returned -/

/-- A view of the input from one index to another, or one of nothing. -/
structure IsRange (input : StringView) (start stop : Nat) (view : StringView) : Prop where
  le : start ≤ stop
  inside : stop ≤ input.length
  bytes : view.bytes = (input.bytes.drop start).take (stop - start)
  place : view.characters = input.characters + start ∨ view = .null

theorem isRange_null {start : Nat} (h : start ≤ input.length) :
    IsRange input start start .null where
  le := Nat.le_refl _
  inside := h
  bytes := by rw [Nat.sub_self, take_zero, StringView.null]
  place := .inr rfl

theorem isRange_part {start length stop : Nat}
    (h : start + length ≤ input.length) (hstop : start + length = stop) :
    IsRange input start stop (input.part start length h) where
  le := by omega
  inside := hstop ▸ h
  bytes := by rw [← hstop, Nat.add_sub_cancel_left, StringView.part]
  place := .inl rfl

theorem exists_passed {start stop : Nat} (hle : start ≤ stop) (hstop : stop ≤ lexer.mInput.length) :
    ∃ view, lexer.passed start (stop - start) = some view ∧ IsRange lexer.mInput start stop view := by
  obtain ⟨length, rfl⟩ := Nat.exists_eq_add_of_le hle
  rw [passed, Nat.add_sub_cancel_left]
  by_cases hzero : length = 0
  · rw [if_pos hzero, hzero]
    exact ⟨_, rfl, isRange_null (Nat.le_trans hle hstop)⟩
  · rw [if_neg hzero]
    exact ⟨_, StringView.substringView_eq hstop, isRange_part hstop rfl⟩

/-- The operations that end with a loop return what it has passed. -/
theorem Inside.consumeLoop_spec (h : lexer.Inside) (hcondition : Defined condition) :
    ∃ view stop, lexer.consumeLoop condition = some (view, lexer.atIndex stop) ∧
      IsRange lexer.mInput lexer.mIndex stop view := by
  obtain ⟨stop, hle, hstop, hloop⟩ := h.advanceWhile_rounds hcondition
  obtain ⟨view, hview, hrange⟩ := @exists_passed (lexer.atIndex stop) _ _ hle hstop
  refine ⟨view, stop, ?_, hrange⟩
  simp [consumeLoop, hloop, atIndex_mIndex, hview]

theorem Inside.consumeCount_spec (h : lexer.Inside) (count : Nat) :
    ∃ view stop, lexer.consumeCount count = some (view, lexer.atIndex stop) ∧
      IsRange lexer.mInput lexer.mIndex stop view := by
  rw [consumeCount]
  by_cases hzero : count = 0
  · rw [if_pos hzero]
    exact ⟨_, lexer.mIndex, rfl, isRange_null h⟩
  · have hfits : lexer.mIndex + min count lexer.tellRemaining ≤ lexer.mInput.length := by
      rw [h.tellRemaining_eq]
      rw [Inside] at h
      omega
    rw [if_neg hzero]
    dsimp only
    rw [StringView.substringView_eq hfits]
    exact ⟨_, _, rfl, isRange_part hfits rfl⟩

theorem Inside.consumeAll_spec (h : lexer.Inside) :
    ∃ view stop, lexer.consumeAll = some (view, lexer.atIndex stop) ∧
      IsRange lexer.mInput lexer.mIndex stop view := by
  rw [consumeAll]
  by_cases heof : lexer.isEof = true
  · rw [if_pos heof]
    exact ⟨_, lexer.mIndex, rfl, isRange_null h⟩
  · have hend : lexer.mIndex + (lexer.mInput.length - lexer.mIndex) = lexer.mInput.length :=
      Nat.add_sub_of_le h
    rw [if_neg heof, h.tellRemaining_eq, StringView.substringView_eq (Nat.le_of_eq hend)]
    exact ⟨_, _, rfl, isRange_part (Nat.le_of_eq hend) hend⟩

theorem Inside.ignore_eq (h : lexer.Inside) (count : Nat) :
    lexer.ignore count = lexer.atIndex (min (lexer.mIndex + count) lexer.mInput.length) := by
  rw [ignore, atIndex, h.tellRemaining_eq]
  congr 1
  rw [Inside] at h
  omega

/-- A character that is not 0 is passed over where it stands. -/
theorem Inside.consumeSpecificChar_eq (h : lexer.Inside) {next : UInt8} (hne : next ≠ 0) :
    lexer.consumeSpecificChar next =
      some (if lexer.mInput.bytes[lexer.mIndex]? = some next then (true, lexer.advance)
        else (false, lexer)) := by
  have hlength := lexer.length_lt
  have hignore := h.ignore_eq 1
  rw [Inside] at h
  rw [consumeSpecificChar, nextIsChar, peek_eq (by omega), Nat.add_zero, getD_eq_getElem?_getD,
    hignore]
  cases hch : lexer.mInput.bytes[lexer.mIndex]? with
  | none => simp [hne.symm]
  | some ch =>
    obtain ⟨hlt, -⟩ := List.getElem?_eq_some_iff.mp hch
    have hmin : min (lexer.mIndex + 1) lexer.mInput.length = lexer.mIndex + 1 :=
      Nat.min_eq_left hlt
    by_cases heq : ch = next
    · simp [heq, hmin, atIndex, advance]
    · simp [heq]

theorem take_drop_append {i j k : Nat} (hij : i ≤ j) (hjk : j ≤ k) :
    (text.drop i).take (k - i) = (text.drop i).take (j - i) ++ (text.drop j).take (k - j) := by
  have hsum : k - i = (j - i) + (k - j) := by omega
  rw [hsum, take_add, drop_drop, Nat.add_sub_of_le hij]

/-- What stands behind a line: a carriage return, a newline, both or neither. -/
def IsLineDelimiter (delimiter : List UInt8) : Prop :=
  ∃ cr lf : Bool, delimiter =
    (if cr then [byte '\r'] else []) ++ (if lf then [byte '\n'] else [])

theorem Inside.consumeSpecificChar_spec (h : lexer.Inside) {next : UInt8} (hne : next ≠ 0) :
    ∃ isNext : Bool, ∃ stop, lexer.consumeSpecificChar next = some (isNext, lexer.atIndex stop) ∧
      lexer.mIndex ≤ stop ∧ stop ≤ lexer.mInput.length ∧
      (lexer.mInput.bytes.drop lexer.mIndex).take (stop - lexer.mIndex) =
        if isNext then [next] else [] := by
  rw [h.consumeSpecificChar_eq hne]
  by_cases hch : lexer.mInput.bytes[lexer.mIndex]? = some next
  · obtain ⟨hlt, hget⟩ := List.getElem?_eq_some_iff.mp hch
    refine ⟨true, lexer.mIndex + 1, if_pos hch ▸ rfl, Nat.le_succ _, hlt, ?_⟩
    rw [Nat.add_sub_cancel_left, drop_eq_getElem_cons hlt, take_succ_cons, take_zero,
      hget, if_pos rfl]
  · refine ⟨false, lexer.mIndex, if_neg hch ▸ rfl, Nat.le_refl _, h, ?_⟩
    rw [Nat.sub_self, take_zero, if_neg Bool.false_ne_true]

theorem Inside.consumeLine_spec (h : lexer.Inside) :
    ∃ view stop behind, lexer.consumeLine = some (view, lexer.atIndex behind) ∧
      IsRange lexer.mInput lexer.mIndex stop view ∧ stop ≤ behind ∧
      behind ≤ lexer.mInput.length ∧
      IsLineDelimiter ((lexer.mInput.bytes.drop stop).take (behind - stop)) := by
  obtain ⟨stop, hle, hstop, hloop⟩ :=
    h.advanceWhile_rounds (show Defined insideLine from defined_peek _)
  obtain ⟨cr, afterCr, hcr, hleCr, hstopCr, hrangeCr⟩ := @consumeSpecificChar_spec
    (lexer.atIndex stop) hstop (byte '\r') (by decide)
  obtain ⟨lf, afterLf, hlf, hleLf, hstopLf, hrangeLf⟩ := @consumeSpecificChar_spec
    (lexer.atIndex afterCr) hstopCr (byte '\n') (by decide)
  obtain ⟨view, hview, hrange⟩ := @exists_passed (lexer.atIndex afterLf) _ _ hle hstop
  refine ⟨view, stop, afterLf, ?_, hrange, Nat.le_trans hleCr hleLf, hstopLf, cr, lf, ?_⟩
  · simp only [consumeLine, hloop, bind_eq_bind, bind_some, atIndex_mIndex, hcr,
      atIndex_atIndex, hlf, hview]
  · exact (take_drop_append hleCr hleLf).trans (congrArg₂ _ hrangeCr hrangeLf)

theorem consume_eq (h : lexer.mInput.bytes[lexer.mIndex]? = some ch) :
    lexer.consume = some (ch, lexer.advance) := by
  obtain ⟨hlt, -⟩ := List.getElem?_eq_some_iff.mp h
  rw [consume, isEof, StringView.length, if_neg (mt of_decide_eq_true (Nat.not_le.mpr hlt)),
    StringView.at?, h, map_some]

theorem atIndex_self : lexer.atIndex lexer.mIndex = lexer := rfl

theorem isQuote_ne_zero (h : isQuote ch = true) : ch ≠ 0 := by
  rintro rfl
  revert h
  decide

/-- What `consume_quoted_string` returns where a quoted string ends: the characters between
its quotes. -/
structure IsQuoted (input : StringView) (start stop : Nat) (view : StringView) : Prop where
  range : IsRange input (start + 1) (stop - 1) view
  not_null : view.isNull = false
  opening : ∃ quote, isQuote quote = true ∧ input.bytes[start]? = some quote ∧
    input.bytes[stop - 1]? = some quote
  stop : start + 2 ≤ stop ∧ stop ≤ input.length

theorem consumeQuotedString_eq {escapeChar : UInt8} {stop : Nat}
    (hquote : lexer.mInput.bytes[lexer.mIndex]? = some quote) (hisQuote : isQuote quote = true)
    (hloop : lexer.advance.quotedLoop escapeChar quote lexer.rounds = some (lexer.atIndex stop))
    (hstart : lexer.mIndex + 1 ≤ stop) (hstop : stop ≤ lexer.mInput.length + 1) :
    lexer.consumeQuotedString escapeChar =
      if h : lexer.mInput.bytes[stop]? = some quote then
        some (lexer.mInput.part (lexer.mIndex + 1) (stop - (lexer.mIndex + 1)) (by
            obtain ⟨hlt, -⟩ := List.getElem?_eq_some_iff.mp h
            rw [StringView.length]
            omega),
          lexer.atIndex (stop + 1))
      else some (.null, lexer) := by
  have hlength := lexer.length_lt
  obtain ⟨hlt, -⟩ := List.getElem?_eq_some_iff.mp hquote
  have hle : lexer.mIndex < lexer.mInput.length := hlt
  have hstarts : lexer.peek 0 = some quote := by
    rw [peek_eq (by omega), Nat.add_zero, getD_eq_getElem?_getD, hquote, getD_some]
  have hpeek : (lexer.atIndex stop).peek 0 = some (lexer.mInput.bytes.getD stop 0) :=
    peek_eq (by rw [atIndex_mIndex]; omega)
  have hrounds : lexer.advance.rounds = lexer.rounds := rfl
  simp only [consumeQuotedString, nextIsMatching, hstarts, map_some, bind_some,
    hisQuote, Bool.not_true, Bool.false_eq_true, if_false, consume_eq hquote, bind_eq_bind,
    hrounds, hloop, hpeek, advance_mIndex, atIndex_mIndex]
  by_cases hclosed : lexer.mInput.bytes[stop]? = some quote
  · obtain ⟨hbefore, -⟩ := List.getElem?_eq_some_iff.mp hclosed
    have hinside : (lexer.atIndex stop).Inside := Nat.le_of_lt hbefore
    have hignore : (lexer.atIndex stop).ignore 1 = lexer.atIndex (stop + 1) := by
      rw [hinside.ignore_eq, atIndex_atIndex, atIndex_mIndex, atIndex_mInput]
      exact congrArg _ (Nat.min_eq_left hbefore)
    have hrange : lexer.mIndex + 1 + (stop - (lexer.mIndex + 1)) ≤ lexer.mInput.length := by
      rw [StringView.length]
      omega
    have hclosing : lexer.mInput.bytes.getD stop 0 = quote := by
      rw [getD_eq_getElem?_getD, hclosed, getD_some]
    rw [dif_pos hclosed, if_neg (not_not.mpr hclosing), hignore, atIndex_mInput,
      StringView.substringView_eq hrange, bind_some]
  · have hne : lexer.mInput.bytes.getD stop 0 ≠ quote := by
      rw [getD_eq_getElem?_getD]
      cases hget : lexer.mInput.bytes[stop]? with
      | none => exact Ne.symm (isQuote_ne_zero hisQuote)
      | some ch => exact fun heq => hclosed (hget.trans (congrArg some heq))
    rw [dif_neg hclosed, if_pos hne]
    rfl

theorem Inside.consumeQuotedString_none (h : lexer.Inside) (escapeChar : UInt8)
    (hquote : ∀ quote, isQuote quote = true → lexer.mInput.bytes[lexer.mIndex]? ≠ some quote) :
    lexer.consumeQuotedString escapeChar = some (.null, lexer) := by
  have hlength := lexer.length_lt
  rw [Inside] at h
  have hisQuote : isQuote (lexer.mInput.bytes.getD lexer.mIndex 0) = false := by
    rw [getD_eq_getElem?_getD]
    cases hget : lexer.mInput.bytes[lexer.mIndex]? with
    | none => rfl
    | some ch => exact Bool.eq_false_iff.mpr fun hch => hquote ch hch hget
  rw [consumeQuotedString, nextIsMatching, peek_eq (by omega), Nat.add_zero, map_some,
    bind_some, hisQuote]
  rfl

/-- The loop over a quoted string begins behind the quote and ends. -/
theorem exists_quotedLoop (escapeChar : UInt8)
    (hquote : lexer.mInput.bytes[lexer.mIndex]? = some quote) :
    ∃ stop, lexer.mIndex + 1 ≤ stop ∧ stop ≤ lexer.mInput.length + 1 ∧
      lexer.advance.quotedLoop escapeChar quote lexer.rounds = some (lexer.atIndex stop) := by
  obtain ⟨hlt, -⟩ := List.getElem?_eq_some_iff.mp hquote
  exact @quotedLoop_spec escapeChar quote lexer.rounds lexer.advance
    (by rw [advance_mIndex, advance_mInput, StringView.length]; omega)
    (by rw [rounds, advance_mIndex, advance_mInput]; omega)

theorem Inside.consumeQuotedString_spec (h : lexer.Inside) (escapeChar : UInt8) :
    lexer.consumeQuotedString escapeChar = some (.null, lexer) ∨
    ∃ view stop, lexer.consumeQuotedString escapeChar = some (view, lexer.atIndex stop) ∧
      IsQuoted lexer.mInput lexer.mIndex stop view := by
  by_cases hstarts : ∃ quote, isQuote quote = true ∧
      lexer.mInput.bytes[lexer.mIndex]? = some quote
  · obtain ⟨quote, hisQuote, hquote⟩ := hstarts
    obtain ⟨stop, hstart, hstop, hloop⟩ := exists_quotedLoop escapeChar hquote
    rw [consumeQuotedString_eq hquote hisQuote hloop hstart hstop]
    by_cases hclosed : lexer.mInput.bytes[stop]? = some quote
    · obtain ⟨hbefore, -⟩ := List.getElem?_eq_some_iff.mp hclosed
      rw [dif_pos hclosed]
      refine .inr ⟨_, stop + 1, rfl, isRange_part _ (Nat.add_sub_of_le hstart), ?_,
        ⟨quote, hisQuote, hquote, hclosed⟩, by omega, hbefore⟩
      exact decide_eq_false (Nat.ne_of_gt (Nat.lt_of_lt_of_le (Nat.succ_pos _)
        (Nat.le_add_left _ _)))
    · rw [dif_neg hclosed]
      exact .inl rfl
  · exact .inl (h.consumeQuotedString_none escapeChar fun quote hisQuote hquote =>
      hstarts ⟨quote, hisQuote, hquote⟩)

/-! ## Sequences of operations -/

/-- An operation with its arguments. -/
inductive Operation
  | consume
  | consumeCount (count : Nat)
  | consumeAll
  | consumeLine
  | consumeUntilChar (stop : UInt8)
  | consumeUntilString (stop : List UInt8)
  | consumeUntilMatching (pred : UInt8 → Bool)
  | consumeWhile (pred : UInt8 → Bool)
  | consumeQuotedString (escapeChar : UInt8)
  | consumeSpecificChar (next : UInt8)
  | consumeSpecificString (next : List UInt8)
  | ignore (count : Nat)
  | ignoreWhile (pred : UInt8 → Bool)
  | ignoreUntilMatching (pred : UInt8 → Bool)
  | ignoreUntilChar (stop : UInt8) (count : Nat)
  | retreat
  | retreatCount (count : Nat)

/-- What an operation returns. -/
inductive Answer
  | nothing
  | truth (b : Bool)
  | character (ch : UInt8)
  | view (view : StringView)

def perform (lexer : GenericLexer) : Operation → Option (Answer × GenericLexer)
  | .consume => lexer.consume.map fun result => (.character result.1, result.2)
  | .consumeCount count => (lexer.consumeCount count).map fun result => (.view result.1, result.2)
  | .consumeAll => lexer.consumeAll.map fun result => (.view result.1, result.2)
  | .consumeLine => lexer.consumeLine.map fun result => (.view result.1, result.2)
  | .consumeUntilChar stop =>
    (lexer.consumeUntilChar stop).map fun result => (.view result.1, result.2)
  | .consumeUntilString stop =>
    (lexer.consumeUntilString stop).map fun result => (.view result.1, result.2)
  | .consumeUntilMatching pred =>
    (lexer.consumeUntilMatching pred).map fun result => (.view result.1, result.2)
  | .consumeWhile pred => (lexer.consumeWhile pred).map fun result => (.view result.1, result.2)
  | .consumeQuotedString escapeChar =>
    (lexer.consumeQuotedString escapeChar).map fun result => (.view result.1, result.2)
  | .consumeSpecificChar next =>
    (lexer.consumeSpecificChar next).map fun result => (.truth result.1, result.2)
  | .consumeSpecificString next =>
    (lexer.consumeSpecificString next).map fun result => (.truth result.1, result.2)
  | .ignore count => some (.nothing, lexer.ignore count)
  | .ignoreWhile pred => (lexer.ignoreWhile pred).map fun lexer => (.nothing, lexer)
  | .ignoreUntilMatching pred => (lexer.ignoreUntilMatching pred).map fun lexer => (.nothing, lexer)
  | .ignoreUntilChar stop count =>
    (lexer.ignoreUntilChar stop count).map fun lexer => (.nothing, lexer)
  | .retreat => lexer.retreat.map fun lexer => (.nothing, lexer)
  | .retreatCount count => (lexer.retreatCount count).map fun lexer => (.nothing, lexer)

/-- What an operation asserts before anything else. -/
def Permitted (lexer : GenericLexer) : Operation → Prop
  | .consume => lexer.mIndex < lexer.mInput.length
  | .retreat => 0 < lexer.mIndex
  | .retreatCount count => count ≤ lexer.mIndex
  | _ => True

/-- What is returned of the input: the range between the indices, without the end of the
line behind a line, and without its quotes a quoted string. -/
def Returned (before after : GenericLexer) : Operation → Answer → Prop
  | .consumeLine, .view view =>
    ∃ stop, IsRange before.mInput before.mIndex stop view ∧ stop ≤ after.mIndex ∧
      IsLineDelimiter ((before.mInput.bytes.drop stop).take (after.mIndex - stop))
  | .consumeQuotedString _, .view view =>
    (view = .null ∧ after = before) ∨ IsQuoted before.mInput before.mIndex after.mIndex view
  | _, .view view => IsRange before.mInput before.mIndex after.mIndex view
  | _, .character ch =>
    before.mInput.bytes[before.mIndex]? = some ch ∧ after.mIndex = before.mIndex + 1
  | _, _ => True

/-- An operation that is permitted ends in the input or at its end, and returns what it should. -/
def Succeeds (lexer : GenericLexer) (operation : Operation) : Prop :=
  ∃ answer stop, lexer.perform operation = some (answer, lexer.atIndex stop) ∧
    stop ≤ lexer.mInput.length ∧ Returned lexer (lexer.atIndex stop) operation answer

theorem succeeds_of_range {result : Option (StringView × GenericLexer)}
    (hperform : lexer.perform operation = result.map fun result => (.view result.1, result.2))
    (hreturned : ∀ view after, IsRange lexer.mInput lexer.mIndex after.mIndex view →
      Returned lexer after operation (.view view))
    (h : ∃ view stop, result = some (view, lexer.atIndex stop) ∧
      IsRange lexer.mInput lexer.mIndex stop view) : lexer.Succeeds operation := by
  obtain ⟨view, stop, hresult, hrange⟩ := h
  refine ⟨.view view, stop, ?_, hrange.inside, hreturned view _ hrange⟩
  rw [hperform, hresult, map_some]

/-- The operations that pass over characters and return nothing. -/
theorem succeeds_of_ignored {result : Option GenericLexer}
    (hperform : lexer.perform operation = result.map fun lexer => (.nothing, lexer))
    (hreturned : ∀ after, Returned lexer after operation .nothing)
    (h : ∃ stop, result = some (lexer.atIndex stop) ∧ stop ≤ lexer.mInput.length) :
    lexer.Succeeds operation := by
  obtain ⟨stop, hresult, hstop⟩ := h
  refine ⟨.nothing, stop, ?_, hstop, hreturned _⟩
  rw [hperform, hresult, map_some]

theorem succeeds_of_expected {isNext : Option Bool} {count : Nat}
    (h : lexer.Inside) (hdefined : ∃ b, isNext = some b)
    (hperform : lexer.perform operation = (isNext.map fun isNext =>
      if !isNext then (false, lexer) else (true, lexer.ignore count)).map
        fun result => (.truth result.1, result.2))
    (hreturned : ∀ b after, Returned lexer after operation (.truth b)) :
    lexer.Succeeds operation := by
  obtain ⟨b, rfl⟩ := hdefined
  cases b with
  | false => exact ⟨.truth false, lexer.mIndex, hperform, h, hreturned _ _⟩
  | true =>
    refine ⟨.truth true, min (lexer.mIndex + count) lexer.mInput.length, ?_, Nat.min_le_right _ _,
      hreturned _ _⟩
    rw [hperform, ← h.ignore_eq]
    rfl

theorem Inside.succeeds (h : lexer.Inside) (hpermitted : lexer.Permitted operation) :
    lexer.Succeeds operation := by
  have hloop : ∀ {condition : GenericLexer → Option Bool}, Defined condition →
      ∃ stop, lexer.advanceWhile condition lexer.rounds = some (lexer.atIndex stop) ∧
        stop ≤ lexer.mInput.length := fun hcondition => by
    obtain ⟨stop, -, hstop, hloop⟩ := h.advanceWhile_rounds hcondition
    exact ⟨stop, hloop, hstop⟩
  cases operation with
  | consume =>
    have hch := List.getElem?_eq_getElem hpermitted
    refine ⟨.character _, lexer.mIndex + 1, ?_, hpermitted, hch, rfl⟩
    rw [perform, consume_eq hch]
    rfl
  | consumeCount count => exact succeeds_of_range rfl (fun _ _ => id) (h.consumeCount_spec count)
  | consumeAll => exact succeeds_of_range rfl (fun _ _ => id) h.consumeAll_spec
  | consumeLine =>
    obtain ⟨view, stop, behind, hline, hrange, hle, hbehind, hdelimiter⟩ := h.consumeLine_spec
    refine ⟨.view view, behind, ?_, hbehind, stop, hrange, hle, hdelimiter⟩
    rw [perform, hline, map_some]
  | consumeUntilChar stop =>
    exact succeeds_of_range rfl (fun _ _ => id) (h.consumeLoop_spec (defined_peek _))
  | consumeUntilString stop =>
    exact succeeds_of_range rfl (fun _ _ => id) (h.consumeLoop_spec (defined_nextIsString stop))
  | consumeUntilMatching pred =>
    exact succeeds_of_range rfl (fun _ _ => id) (h.consumeLoop_spec (defined_peek _))
  | consumeWhile pred =>
    exact succeeds_of_range rfl (fun _ _ => id) (h.consumeLoop_spec (defined_peek pred))
  | consumeQuotedString escapeChar =>
    rcases h.consumeQuotedString_spec escapeChar with hnull | ⟨view, stop, hquoted, hrange⟩
    · refine ⟨.view .null, lexer.mIndex, ?_, h, .inl ⟨rfl, rfl⟩⟩
      rw [perform, hnull, map_some, atIndex_self]
    · refine ⟨.view view, stop, ?_, hrange.stop.2, .inr hrange⟩
      rw [perform, hquoted, map_some]
  | consumeSpecificChar next =>
    refine succeeds_of_expected h ?_ rfl fun _ _ => trivial
    exact (lexer.exists_peek 0).imp' (· == next) fun ch hch => by rw [nextIsChar, hch, map_some]
  | consumeSpecificString next =>
    exact succeeds_of_expected h (exists_nextIsString next lexer) rfl fun _ _ => trivial
  | ignore count =>
    refine ⟨.nothing, _, ?_, Nat.min_le_right (lexer.mIndex + count) lexer.mInput.length, trivial⟩
    rw [perform, h.ignore_eq]
  | ignoreWhile pred => exact succeeds_of_ignored rfl (fun _ => trivial) (hloop (defined_peek pred))
  | ignoreUntilMatching pred =>
    exact succeeds_of_ignored rfl (fun _ => trivial) (hloop (defined_peek _))
  | ignoreUntilChar stop count =>
    obtain ⟨index, hindex, hinside⟩ := hloop (defined_peek (· != stop))
    refine succeeds_of_ignored rfl (fun _ => trivial)
      ⟨min (index + count) lexer.mInput.length, ?_, Nat.min_le_right _ _⟩
    rw [ignoreUntilChar, hindex, map_some, @Inside.ignore_eq (lexer.atIndex index) hinside]
    rfl
  | retreat =>
    refine succeeds_of_ignored rfl (fun _ => trivial)
      ⟨lexer.mIndex - 1, if_pos hpermitted, Nat.le_trans (Nat.sub_le _ _) h⟩
  | retreatCount count =>
    refine succeeds_of_ignored rfl (fun _ => trivial)
      ⟨lexer.mIndex - count, if_pos hpermitted, Nat.le_trans (Nat.sub_le _ _) h⟩

/-- An assertion fails where an operation is not permitted. -/
theorem perform_eq_none (h : ¬ lexer.Permitted operation) : lexer.perform operation = none := by
  cases operation with
  | consume =>
    have hconsume : lexer.consume = none := if_pos (decide_eq_true (Nat.le_of_not_lt h))
    rw [perform, hconsume, map_none]
  | retreat =>
    have hretreat : lexer.retreat = none := if_neg h
    rw [perform, hretreat, map_none]
  | retreatCount count =>
    have hretreat : lexer.retreatCount count = none := if_neg h
    rw [perform, hretreat, map_none]
  | _ => exact absurd trivial h

/-- A step of a program that uses a lexer. -/
def step (lexer : GenericLexer) (operation : Operation) : Option GenericLexer :=
  (lexer.perform operation).map Prod.snd

/-- However a lexer has been used, its index is in the input or at its end; the next operation
fails exactly where it asserts that it is not permitted, and otherwise ends and returns what it
has passed. -/
theorem always_succeeds (input : StringView) {lexer : GenericLexer}
    (h : Reachable step ⟨input, 0⟩ lexer) : lexer.mInput = input ∧ lexer.mIndex ≤ input.length ∧
    ∀ operation, (lexer.Permitted operation → lexer.Succeeds operation) ∧
      (¬ lexer.Permitted operation → lexer.perform operation = none) := by
  have hstep : ∀ lexer operation after, lexer.mInput = input ∧ lexer.Inside →
      step lexer operation = some after → after.mInput = input ∧ after.Inside := by
    rintro lexer operation after ⟨rfl, hinside⟩ hafter
    by_cases hpermitted : lexer.Permitted operation
    · obtain ⟨answer, stop, hperform, hstop, -⟩ := hinside.succeeds hpermitted
      rw [step, hperform] at hafter
      cases hafter
      exact ⟨rfl, hstop⟩
    · rw [step, perform_eq_none hpermitted] at hafter
      cases hafter
  obtain ⟨rfl, hinside⟩ := h.of_invariant hstep ⟨rfl, Nat.zero_le _⟩
  exact ⟨rfl, hinside, fun operation => ⟨hinside.succeeds, perform_eq_none⟩⟩

/-- A quote with an escape at the end of the input behind it. -/
theorem always_succeeds_sample :
    Succeeds ⟨⟨1, [0x27, 0x5c], by decide, by decide⟩, 0⟩ (.consumeQuotedString 0x5c) :=
  ((always_succeeds ⟨1, [0x27, 0x5c], by decide, by decide⟩ ⟨[], rfl⟩).2.2
    (.consumeQuotedString 0x5c)).1 trivial

end GenericLexer

end Literate.AK

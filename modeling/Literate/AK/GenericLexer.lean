import Literate.AK.StringUtils
import Literate.AK.StringView

/-!
# AK: the generic lexer

`GenericLexer` of `AK/GenericLexer.h` and `AK/GenericLexer.cpp`: the operations that move its
index through the input.  A `char const*` is its characters before the terminator.  `none` is
a failed assertion, the one of the input's `operator[]` included.

`consume_quoted_string` passes over an escape with the character behind it also where the
input ends between them.  The index is then one too far until it is restored.
-/

namespace Literate.AK

/-- The view that `{}` makes. -/
def StringView.null : StringView where
  characters := 0
  bytes := []
  fits := by decide
  empty_of_null _ := rfl

/-- `operator[]`. -/
def StringView.at? (s : StringView) (index : Nat) : Option UInt8 := s.bytes[index]?

structure GenericLexer where
  mInput : StringView
  mIndex : Nat
  deriving DecidableEq

namespace GenericLexer

/-- `tell_remaining`, a difference that may wrap. -/
def tellRemaining (lexer : GenericLexer) : Nat :=
  (lexer.mInput.length + 2 ^ 64 - lexer.mIndex) % 2 ^ 64

def isEof (lexer : GenericLexer) : Bool := decide (lexer.mInput.length ≤ lexer.mIndex)

def peek (lexer : GenericLexer) (offset : Nat) : Option UInt8 :=
  if (lexer.mIndex + offset) % 2 ^ 64 < lexer.mInput.length then
    lexer.mInput.at? ((lexer.mIndex + offset) % 2 ^ 64)
  else some 0

/-- `next_is(char)`. -/
def nextIsChar (expected : UInt8) (lexer : GenericLexer) : Option Bool :=
  (lexer.peek 0).map (· == expected)

/-- The loop of `next_is` over a string from index `i` on. -/
def nextIsLoop (lexer : GenericLexer) : (expected : List UInt8) → (i : Nat) → Option Bool
  | [], _ => some true
  | ch :: expected, i =>
    (lexer.peek i).bind fun found =>
      if found ≠ ch then some false else nextIsLoop lexer expected (i + 1)

/-- `next_is(StringView)`, and `next_is(char const*)`. -/
def nextIsString (expected : List UInt8) (lexer : GenericLexer) : Option Bool :=
  lexer.nextIsLoop expected 0

/-- `next_is(TPredicate)`. -/
def nextIsMatching (pred : UInt8 → Bool) (lexer : GenericLexer) : Option Bool :=
  (lexer.peek 0).map pred

/-- `++m_index`. -/
def advance (lexer : GenericLexer) : GenericLexer := { lexer with mIndex := lexer.mIndex + 1 }

def retreat (lexer : GenericLexer) : Option GenericLexer :=
  if 0 < lexer.mIndex then some { lexer with mIndex := lexer.mIndex - 1 } else none

/-- `retreat(size_t)`. -/
def retreatCount (count : Nat) (lexer : GenericLexer) : Option GenericLexer :=
  if count ≤ lexer.mIndex then some { lexer with mIndex := lexer.mIndex - count } else none

def ignore (count : Nat) (lexer : GenericLexer) : GenericLexer :=
  { lexer with mIndex := lexer.mIndex + min count lexer.tellRemaining }

def consume (lexer : GenericLexer) : Option (UInt8 × GenericLexer) :=
  if lexer.isEof then none
  else (lexer.mInput.at? lexer.mIndex).map fun ch => (ch, lexer.advance)

/-- `consume_specific(char)`. -/
def consumeSpecificChar (next : UInt8) (lexer : GenericLexer) : Option (Bool × GenericLexer) :=
  (lexer.nextIsChar next).map fun isNext => if !isNext then (false, lexer) else (true, lexer.ignore 1)

/-- `consume_specific(StringView)`, which those for a `String` and a `char const*` call. -/
def consumeSpecificString (next : List UInt8) (lexer : GenericLexer) :
    Option (Bool × GenericLexer) :=
  (lexer.nextIsString next).map fun isNext =>
    if !isNext then (false, lexer) else (true, lexer.ignore next.length)

/-- A loop that advances as long as the condition holds before the end, of at most `fuel`
rounds. -/
def advanceWhile (condition : GenericLexer → Option Bool) :
    (fuel : Nat) → GenericLexer → Option GenericLexer
  | 0, _ => none
  | fuel + 1, lexer =>
    if lexer.isEof then some lexer
    else
      (condition lexer).bind fun goesOn =>
        if goesOn then advanceWhile condition fuel lexer.advance else some lexer

/-- The loops advance to the end at most. -/
def rounds (lexer : GenericLexer) : Nat := lexer.mInput.length + 1

/-- What a loop has passed: `{}`, or the view from where it began. -/
def passed (lexer : GenericLexer) (start length : Nat) : Option StringView :=
  if length = 0 then some .null else lexer.mInput.substringView start length

/-- What the operations that end with a loop return. -/
def consumeLoop (condition : GenericLexer → Option Bool) (lexer : GenericLexer) :
    Option (StringView × GenericLexer) := do
  let start := lexer.mIndex
  let lexer ← lexer.advanceWhile condition lexer.rounds
  let view ← lexer.passed start (lexer.mIndex - start)
  some (view, lexer)

/-! ## The operations -/

/-- `consume(size_t)`. -/
def consumeCount (count : Nat) (lexer : GenericLexer) : Option (StringView × GenericLexer) :=
  if count = 0 then some (.null, lexer)
  else
    let start := lexer.mIndex
    let length := min count lexer.tellRemaining
    (lexer.mInput.substringView start length).map fun view =>
      (view, { lexer with mIndex := lexer.mIndex + length })

def consumeAll (lexer : GenericLexer) : Option (StringView × GenericLexer) :=
  if lexer.isEof then some (.null, lexer)
  else
    (lexer.mInput.substringView lexer.mIndex lexer.tellRemaining).map fun rest =>
      (rest, { lexer with mIndex := lexer.mInput.length })

/-- `!is_eof() && peek() != '\r' && peek() != '\n'`. -/
def insideLine (lexer : GenericLexer) : Option Bool :=
  (lexer.peek 0).map fun ch => ch != byte '\r' && ch != byte '\n'

def consumeLine (lexer : GenericLexer) : Option (StringView × GenericLexer) := do
  let start := lexer.mIndex
  let lexer ← lexer.advanceWhile insideLine lexer.rounds
  let length := lexer.mIndex - start
  let (_, lexer) ← lexer.consumeSpecificChar (byte '\r')
  let (_, lexer) ← lexer.consumeSpecificChar (byte '\n')
  let view ← lexer.passed start length
  some (view, lexer)

/-- `consume_until(char)`. -/
def consumeUntilChar (stop : UInt8) : GenericLexer → Option (StringView × GenericLexer) :=
  consumeLoop fun lexer => (lexer.peek 0).map (· != stop)

/-- `consume_until(StringView)`, and `consume_until(char const*)`. -/
def consumeUntilString (stop : List UInt8) : GenericLexer → Option (StringView × GenericLexer) :=
  consumeLoop fun lexer => (lexer.nextIsString stop).map (!·)

def consumeWhile (pred : UInt8 → Bool) : GenericLexer → Option (StringView × GenericLexer) :=
  consumeLoop fun lexer => (lexer.peek 0).map pred

/-- `consume_until` for a predicate. -/
def consumeUntilMatching (pred : UInt8 → Bool) :
    GenericLexer → Option (StringView × GenericLexer) :=
  consumeLoop fun lexer => (lexer.peek 0).map fun ch => !pred ch

def ignoreWhile (pred : UInt8 → Bool) (lexer : GenericLexer) : Option GenericLexer :=
  lexer.advanceWhile (fun lexer => (lexer.peek 0).map pred) lexer.rounds

/-- `ignore_until` for a predicate. -/
def ignoreUntilMatching (pred : UInt8 → Bool) (lexer : GenericLexer) : Option GenericLexer :=
  lexer.advanceWhile (fun lexer => (lexer.peek 0).map fun ch => !pred ch) lexer.rounds

/-- `ignore_until(char)`, and how many characters it ignores behind. -/
def ignoreUntilChar (stop : UInt8) (count : Nat) (lexer : GenericLexer) : Option GenericLexer :=
  (lexer.advanceWhile (fun lexer => (lexer.peek 0).map (· != stop)) lexer.rounds).map (ignore count)

def isQuote (ch : UInt8) : Bool := ch == byte '\'' || ch == byte '"'

/-- The loop of `consume_quoted_string`, of at most `fuel` rounds. -/
def quotedLoop (escapeChar quoteChar : UInt8) : (fuel : Nat) → GenericLexer → Option GenericLexer
  | 0, _ => none
  | fuel + 1, lexer =>
    if lexer.isEof then some lexer
    else
      (lexer.nextIsChar escapeChar).bind fun isEscape =>
        if isEscape then quotedLoop escapeChar quoteChar fuel lexer.advance.advance
        else
          (lexer.nextIsChar quoteChar).bind fun isQuote =>
            if isQuote then some lexer else quotedLoop escapeChar quoteChar fuel lexer.advance

def consumeQuotedString (escapeChar : UInt8) (lexer : GenericLexer) :
    Option (StringView × GenericLexer) :=
  (lexer.nextIsMatching isQuote).bind fun starts =>
    if !starts then some (.null, lexer)
    else do
      let (quoteChar, lexer) ← lexer.consume
      let start := lexer.mIndex
      let lexer ← lexer.quotedLoop escapeChar quoteChar lexer.rounds
      let length := lexer.mIndex - start
      let next ← lexer.peek 0
      -- the string is unterminated
      if next ≠ quoteChar then some (.null, { lexer with mIndex := start - 1 })
      else do
        let lexer := lexer.ignore 1
        let view ← lexer.mInput.substringView start length
        some (view, lexer)

end GenericLexer

end Literate.AK

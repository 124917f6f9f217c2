import Literate.AK.JsonValue
import Mathlib.Data.List.TakeWhile

/-!
# AK: the JSON parser

`AK/JsonParser.cpp` as it is built outside the kernel.  The state of the lexer is
what is left of its input.  Objects and arrays nest, so `parseHelper` and its
companions take fuel; `JsonParser.parse` gives them enough
(`JsonParser.parse_ne_outOfFuel`).
-/

namespace Literate.AK.JsonParser

open StringUtils

/-- An error with its text; `outOfFuel` is the model's own. -/
inductive Error where
  | message (text : String)
  | outOfFuel
  deriving DecidableEq, Repr

def Error.fromStringLiteral {α : Type} (text : String) : Except Error α :=
  .error (.message text)

/-! ## The lexer -/

/-- `peek()`: 0 at the end of the input. -/
def peek : List UInt8 → UInt8
  | [] => 0
  | ch :: _ => ch

def isSpace (ch : UInt8) : Bool :=
  ch == byte '\t' || ch == byte '\n' || ch == byte '\r' || ch == byte ' '

/-- `ignore_while(is_space)`. -/
def ignoreSpaces (input : List UInt8) : List UInt8 := input.dropWhile isSpace

/-- `consume_specific(char)`. -/
def consumeSpecific (next : UInt8) (input : List UInt8) : Option (List UInt8) :=
  if peek input = next then some (input.drop 1) else none

/-- `next_is(StringView)`. -/
def nextIs : List UInt8 → List UInt8 → Bool
  | [], _ => true
  | ch :: expected, input => decide (peek input = ch) && nextIs expected (input.drop 1)

/-- `consume_specific(StringView)`. -/
def consumeWord (next input : List UInt8) : Option (List UInt8) :=
  if nextIs next input then some (input.drop next.length) else none

/-! ## Strings -/

/-- `code_point_to_utf8`, and the replacement character for what is no code point. -/
def codePointToUtf8 (codePoint : Nat) : List UInt8 :=
  if codePoint ≤ 0x7f then [UInt8.ofNat codePoint]
  else if codePoint ≤ 0x07ff then
    [UInt8.ofNat (codePoint / 2 ^ 6 % 2 ^ 5 + 0xc0), UInt8.ofNat (codePoint % 2 ^ 6 + 0x80)]
  else if codePoint ≤ 0xffff then
    [UInt8.ofNat (codePoint / 2 ^ 12 % 2 ^ 4 + 0xe0),
      UInt8.ofNat (codePoint / 2 ^ 6 % 2 ^ 6 + 0x80), UInt8.ofNat (codePoint % 2 ^ 6 + 0x80)]
  else if codePoint ≤ 0x10ffff then
    [UInt8.ofNat (codePoint / 2 ^ 18 % 2 ^ 3 + 0xf0),
      UInt8.ofNat (codePoint / 2 ^ 12 % 2 ^ 6 + 0x80),
      UInt8.ofNat (codePoint / 2 ^ 6 % 2 ^ 6 + 0x80), UInt8.ofNat (codePoint % 2 ^ 6 + 0x80)]
  else [0xef, 0xbf, 0xbd]

/-- The escapes of one character. -/
def escaped (ch : UInt8) : Option UInt8 :=
  if ch = byte '"' then some (byte '"')
  else if ch = byte '\\' then some (byte '\\')
  else if ch = byte '/' then some (byte '/')
  else if ch = byte 'n' then some 0x0a
  else if ch = byte 'r' then some 0x0d
  else if ch = byte 't' then some 0x09
  else if ch = byte 'b' then some 0x08
  else if ch = byte 'f' then some 0x0c
  else none

/-- The loop of `consume_and_unescape_string` up to the closing quote.  The source
looks ahead to the next quote or backslash, and copies what it passed. -/
def unescapeLoop (finalSb : List UInt8) : List UInt8 → Except Error (List UInt8 × List UInt8)
  | [] => Error.fromStringLiteral "JsonParser: Expected '\"'"
  | ch :: input =>
    if ch = byte '"' then .ok (finalSb, input)
    else if ch = byte '\\' then
      match input with
      | [] => Error.fromStringLiteral "JsonParser: Error while parsing string"
      | esc :: input =>
        match escaped esc with
        | some b => unescapeLoop (finalSb ++ [b]) input
        | none =>
          if esc = byte 'u' then
            match input with
            | a :: b :: c :: d :: input =>
              match convertToUintFromHex 32 [a, b, c, d] .yes with
              | some codePoint => unescapeLoop (finalSb ++ codePointToUtf8 codePoint) input
              | none => Error.fromStringLiteral
                  "JsonParser: Error while parsing Unicode escape"
            | _ => Error.fromStringLiteral "JsonParser: EOF while parsing Unicode escape"
          else Error.fromStringLiteral "JsonParser: Error while parsing string"
    else if ch < 0x20 then Error.fromStringLiteral "JsonParser: Error while parsing string"
    else unescapeLoop (finalSb ++ [ch]) input

def consumeAndUnescapeString (input : List UInt8) : Except Error (List UInt8 × List UInt8) :=
  match consumeSpecific (byte '"') input with
  | none => Error.fromStringLiteral "JsonParser: Expected '\"'"
  | some input => unescapeLoop [] input

def parseString (input : List UInt8) : Except Error (JsonValue × List UInt8) := do
  let (string, input) ← consumeAndUnescapeString input
  return (.string string, input)

/-! ## Numbers -/

/-- The local variables of `parse_number`. -/
structure NumberScan where
  numberBuffer : List UInt8 := []
  fractionBuffer : List UInt8 := []
  isDouble : Bool := false
  allZero : Bool := true
  deriving DecidableEq, Repr

/-- The loop stays at such a character. -/
def isNumberChar (ch : UInt8) : Bool := ch == byte '.' || ch == byte '-' || isDigit ch

/-- The body of the loop of `parse_number`, at a character it does not leave at. -/
def NumberScan.step (scan : NumberScan) (ch : UInt8) : Except Error NumberScan :=
  if ch = byte '.' then
    if scan.isDouble then Error.fromStringLiteral "JsonParser: Multiple '.' in number"
    else .ok { scan with isDouble := true }
  else
    let allZero := scan.allZero && (ch == byte '-' || ch == byte '0')
    if scan.isDouble then
      if ch = byte '-' then Error.fromStringLiteral "JsonParser: Error while parsing number"
      else .ok { scan with allZero, fractionBuffer := scan.fractionBuffer ++ [ch] }
    else if 0 < scan.numberBuffer.length ∧ scan.numberBuffer.getD 0 0 = byte '0' then
      Error.fromStringLiteral "JsonParser: Error while parsing number"
    else if 1 < scan.numberBuffer.length ∧ scan.numberBuffer.getD 0 0 = byte '-' ∧
        scan.numberBuffer.getD 1 0 = byte '0' then
      Error.fromStringLiteral "JsonParser: Error while parsing number"
    else .ok { scan with allZero, numberBuffer := scan.numberBuffer ++ [ch] }

/-- The loop of `parse_number`. -/
def scanNumber : NumberScan → List UInt8 → Except Error (NumberScan × List UInt8)
  | scan, [] => .ok (scan, [])
  | scan, ch :: input =>
    if isNumberChar ch then do
      let scan ← scan.step ch
      scanNumber scan input
    else .ok (scan, ch :: input)

/-- The part before the point of a double. -/
def NumberScan.whole (scan : NumberScan) : Except Error Int :=
  match convertToUint 32 scan.numberBuffer .yes with
  | some number => .ok (BitVec.ofNat 32 number).toInt
  | none => match convertToInt 32 scan.numberBuffer .yes with
      | some number => .ok number
      | none => Error.fromStringLiteral "JsonParser: Error while parsing number"

/-- What `parse_number` makes of the buffers. -/
def NumberScan.value (scan : NumberScan) : Except Error JsonValue :=
  if scan.numberBuffer.head? = some (byte '-') ∧ scan.allZero then .ok (.double .negativeZero)
  else if scan.isDouble then do
    let whole ← scan.whole
    match convertToUint 64 scan.fractionBuffer .yes with
    | none => Error.fromStringLiteral "JsonParser: Error while parsing number"
    | some fraction => return .double (.decimal whole fraction scan.fractionBuffer.length)
  else match convertToUint 64 scan.numberBuffer .yes with
    | some number =>
      if number ≤ 2 ^ 32 - 1 then .ok (.unsignedInt32 (UInt32.ofNat number))
      else .ok (.ofUnsignedLong number)
    | none => match convertToInt 64 scan.numberBuffer .yes with
        | none => Error.fromStringLiteral "JsonParser: Error while parsing number"
        | some number =>
          if number ≤ 2 ^ 31 - 1 then .ok (.int32 (Int32.ofInt number))
          else .ok (.ofLong number)

def parseNumber (input : List UInt8) : Except Error (JsonValue × List UInt8) := do
  let (scan, input) ← scanNumber {} input
  let value ← scan.value
  return (value, input)

/-! ## Literals -/

def wordTrue : List UInt8 := ['t', 'r', 'u', 'e'].map byte

def wordFalse : List UInt8 := ['f', 'a', 'l', 's', 'e'].map byte

def wordNull : List UInt8 := ['n', 'u', 'l', 'l'].map byte

def parseTrue (input : List UInt8) : Except Error (JsonValue × List UInt8) :=
  match consumeWord wordTrue input with
  | none => Error.fromStringLiteral "JsonParser: Expected 'true'"
  | some input => .ok (.bool true, input)

def parseFalse (input : List UInt8) : Except Error (JsonValue × List UInt8) :=
  match consumeWord wordFalse input with
  | none => Error.fromStringLiteral "JsonParser: Expected 'false'"
  | some input => .ok (.bool false, input)

def parseNull (input : List UInt8) : Except Error (JsonValue × List UInt8) :=
  match consumeWord wordNull input with
  | none => Error.fromStringLiteral "JsonParser: Expected 'null'"
  | some input => .ok (.null, input)

/-! ## Objects, arrays and values -/

/-- What comes after the loop of `parse_object`. -/
def finishObject (object : List (List UInt8 × JsonValue)) (input : List UInt8) :
    Except Error (JsonValue × List UInt8) :=
  match consumeSpecific (byte '}') input with
  | none => Error.fromStringLiteral "JsonParser: Expected '\x7d'"
  | some input => .ok (.object object, input)

/-- What comes after the loop of `parse_array`. -/
def finishArray (array : List JsonValue) (input : List UInt8) :
    Except Error (JsonValue × List UInt8) :=
  match consumeSpecific (byte ']') (ignoreSpaces input) with
  | none => Error.fromStringLiteral "JsonParser: Expected ']'"
  | some input => .ok (.array array, input)

mutual

def parseHelper : Nat → List UInt8 → Except Error (JsonValue × List UInt8)
  | 0, _ => .error .outOfFuel
  | fuel + 1, input =>
    let input := ignoreSpaces input
    let typeHint := peek input
    if typeHint = byte '{' then parseObject fuel input
    else if typeHint = byte '[' then parseArray fuel input
    else if typeHint = byte '"' then parseString input
    else if typeHint = byte '-' ∨ isDigit typeHint then parseNumber input
    else if typeHint = byte 'f' then parseFalse input
    else if typeHint = byte 't' then parseTrue input
    else if typeHint = byte 'n' then parseNull input
    else Error.fromStringLiteral "JsonParser: Unexpected character"

def parseObject : Nat → List UInt8 → Except Error (JsonValue × List UInt8)
  | 0, _ => .error .outOfFuel
  | fuel + 1, input =>
    match consumeSpecific (byte '{') input with
    | none => Error.fromStringLiteral "JsonParser: Expected '\x7b'"
    | some input => parseMembers fuel [] input

/-- The loop of `parse_object`.  The name is not null: `to_string` gives the empty
string for an empty builder. -/
def parseMembers : Nat → List (List UInt8 × JsonValue) → List UInt8 →
    Except Error (JsonValue × List UInt8)
  | 0, _, _ => .error .outOfFuel
  | fuel + 1, object, input =>
    let input := ignoreSpaces input
    if peek input = byte '}' then finishObject object input
    else do
      let (name, input) ← consumeAndUnescapeString input
      let input := ignoreSpaces input
      match consumeSpecific (byte ':') input with
      | none => Error.fromStringLiteral "JsonParser: Expected ':'"
      | some input => do
          let input := ignoreSpaces input
          let (value, input) ← parseHelper fuel input
          let object := JsonObject.set object name value
          let input := ignoreSpaces input
          if peek input = byte '}' then finishObject object input
          else match consumeSpecific (byte ',') input with
            | none => Error.fromStringLiteral "JsonParser: Expected ','"
            | some input =>
              let input := ignoreSpaces input
              if peek input = byte '}' then
                Error.fromStringLiteral "JsonParser: Unexpected '\x7d'"
              else parseMembers fuel object input

def parseArray : Nat → List UInt8 → Except Error (JsonValue × List UInt8)
  | 0, _ => .error .outOfFuel
  | fuel + 1, input =>
    match consumeSpecific (byte '[') input with
    | none => Error.fromStringLiteral "JsonParser: Expected '['"
    | some input => parseElements fuel [] input

/-- The loop of `parse_array`. -/
def parseElements : Nat → List JsonValue → List UInt8 → Except Error (JsonValue × List UInt8)
  | 0, _, _ => .error .outOfFuel
  | fuel + 1, array, input =>
    let input := ignoreSpaces input
    if peek input = byte ']' then finishArray array input
    else do
      let (element, input) ← parseHelper fuel input
      let array := array ++ [element]
      let input := ignoreSpaces input
      if peek input = byte ']' then finishArray array input
      else match consumeSpecific (byte ',') input with
        | none => Error.fromStringLiteral "JsonParser: Expected ','"
        | some input =>
          let input := ignoreSpaces input
          if peek input = byte ']' then
            Error.fromStringLiteral "JsonParser: Unexpected ']'"
          else parseElements fuel array input

end

def parse (input : List UInt8) : Except Error JsonValue := do
  let (result, rest) ← parseHelper (3 * input.length + 3) input
  if ignoreSpaces rest = [] then return result
  else Error.fromStringLiteral "JsonParser: Didn't consume all input"

end Literate.AK.JsonParser

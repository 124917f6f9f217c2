import Literate.AK.JsonParser

/-!
# AK: the JSON serializer

`JsonValue::serialize`, `JsonObject::serialize` and what they use: what is appended to
the builder is the result, `none` where a `MUST` stops the program.  `Format.cpp` is
not here, so the text that `appendff` makes of a control character and of a double is
a parameter; integers are written in decimal.
-/

namespace Literate.AK

open StringUtils JsonParser

/-- What `vformat` writes, `none` when it fails. -/
structure Formatter where
  /-- `"\\u{:04x"` with a control character. -/
  control : UInt8 → Option (List UInt8)
  /-- `"{}"` with a double. -/
  double : Double → Option (List UInt8)

/-- `{:04x}` of a byte, with `\u` before it. -/
def hexEscape (ch : UInt8) : List UInt8 :=
  byte '\\' :: byte 'u' :: byte '0' :: byte '0' ::
    [byte (Nat.digitChar (ch.toNat / 16)), byte (Nat.digitChar (ch.toNat % 16))]

/-- The format string lacks its closing brace; if it is taken for the one that was
meant, it writes four digits. -/
def Formatter.Documented (formatter : Formatter) : Prop :=
  ∀ ch text, formatter.control ch = some text → text = hexEscape ch

/-- `"{}"` with an integer. -/
def decimal (n : Int) : List UInt8 :=
  if n < 0 then byte '-' :: (Nat.toDigits 10 n.natAbs).map byte
  else (Nat.toDigits 10 n.toNat).map byte

section

variable (formatter : Formatter)

/-- The body of the loop of `StringBuilder::try_append_escaped_for_json`. -/
def escapedForJson (ch : UInt8) : Option (List UInt8) :=
  if ch = 0x08 then some [byte '\\', byte 'b']
  else if ch = 0x0a then some [byte '\\', byte 'n']
  else if ch = 0x09 then some [byte '\\', byte 't']
  else if ch = byte '"' then some [byte '\\', byte '"']
  else if ch = byte '\\' then some [byte '\\', byte '\\']
  else if ch ≤ 0x1f then formatter.control ch
  else some [ch]

def appendEscapedForJson : List UInt8 → Option (List UInt8)
  | [] => some []
  | ch :: string => do
      let text ← escapedForJson formatter ch
      let rest ← appendEscapedForJson string
      return text ++ rest

/-- `JsonObjectSerializer::begin_item`, with `m_empty`. -/
def beginItem (empty : Bool) (key : List UInt8) : Option (List UInt8) := do
  let text ← appendEscapedForJson formatter key
  return (if empty then [] else [byte ',']) ++ byte '"' :: (text ++ [byte '"', byte ':'])

mutual

def JsonValue.serialize : JsonValue → Option (List UInt8)
  | .string s => do
      let text ← appendEscapedForJson formatter s
      return byte '"' :: (text ++ [byte '"'])
  | .array values => do
      let text ← serializeElements true values
      return byte '[' :: (text ++ [byte ']'])
  | .object members => do
      let text ← serializeMembers true members
      return byte '{' :: (text ++ [byte '}'])
  | .bool b => some (if b then wordTrue else wordFalse)
  | .double d => formatter.double d
  | .int32 n => some (decimal n.toInt)
  | .int64 n => some (decimal n.toInt)
  | .unsignedInt32 n => some (decimal n.toNat)
  | .unsignedInt64 n => some (decimal n.toNat)
  | .null => some wordNull

/-- `JsonArraySerializer::add` of each element, with commas as for members. -/
def serializeElements (empty : Bool) : List JsonValue → Option (List UInt8)
  | [] => some []
  | value :: values => do
      let text ← value.serialize
      let rest ← serializeElements false values
      return (if empty then [] else [byte ',']) ++ (text ++ rest)

/-- `JsonObjectSerializer::add` of each member. -/
def serializeMembers (empty : Bool) : List (List UInt8 × JsonValue) → Option (List UInt8)
  | [] => some []
  | (key, value) :: members => do
      let item ← beginItem formatter empty key
      let text ← value.serialize
      let rest ← serializeMembers false members
      return item ++ (text ++ rest)

end

end

end Literate.AK

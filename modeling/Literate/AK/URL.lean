import Literate.AK.Utf8View

/-!
# AK: URLs and percent encoding

`AK/URL.h` and `AK/URL.cpp`.  A `String` that may be null is an optional list of bytes.
`percent_encode` is taken to return what its builder holds, as the file leaves its
return statement out; `none` is a failed assertion.
-/

namespace Literate.AK

open Utf8View

structure URL where
  valid : Bool
  scheme : Option (List UInt8)
  username : Option (List UInt8)
  password : Option (List UInt8)
  host : Option (List UInt8)
  port : Option Nat
  paths : List (List UInt8)
  query : Option (List UInt8)
  fragment : Option (List UInt8)
  cannotBeABaseUrl : Bool
  dataPayloadIsBase64 : Bool
  dataMimeType : Option (List UInt8)
  dataPayload : Option (List UInt8)
  deriving DecidableEq, Repr

namespace URL

/-- `URL()`. -/
def new : URL where
  valid := false
  scheme := none
  username := none
  password := none
  host := none
  port := none
  paths := []
  query := none
  fragment := none
  cannotBeABaseUrl := false
  dataPayloadIsBase64 := false
  dataMimeType := none
  dataPayload := none

def data : List UInt8 := literal ['d', 'a', 't', 'a']
def file : List UInt8 := literal ['f', 'i', 'l', 'e']
def ftp : List UInt8 := literal ['f', 't', 'p']
def http : List UInt8 := literal ['h', 't', 't', 'p']
def https : List UInt8 := literal ['h', 't', 't', 'p', 's']
def ws : List UInt8 := literal ['w', 's']
def wss : List UInt8 := literal ['w', 's', 's']

/-- The constructor of a data URL. -/
def ofData (mimeType payload : List UInt8) (isBase64 : Bool) : URL :=
  { new with
    valid := true
    scheme := some data
    dataPayloadIsBase64 := isBase64
    dataMimeType := some mimeType
    dataPayload := some payload }

def appendPath (url : URL) (path : List UInt8) : URL := { url with paths := url.paths ++ [path] }

def isSpecialScheme (scheme : List UInt8) : Bool :=
  scheme ∈ [ftp, file, http, https, ws, wss]

def isSpecial (url : URL) : Bool := url.scheme.any isSpecialScheme

def defaultPortForScheme (scheme : List UInt8) : Nat :=
  if scheme = http then 80
  else if scheme = https then 443
  else if scheme = literal ['g', 'e', 'm', 'i', 'n', 'i'] then 1965
  else if scheme = literal ['i', 'r', 'c'] then 6667
  else if scheme = literal ['i', 'r', 'c', 's'] then 6697
  else if scheme = ws then 80
  else if scheme = wss then 443
  else 0

/-! ## Percent encoding -/

inductive PercentEncodeSet
  | c0Control
  | fragment
  | query
  | specialQuery
  | path
  | userinfo
  deriving DecidableEq, Repr

/-- `characters.contains(code_point)`: the code point is converted to a `char`. -/
def containsCodePoint (characters : List Char) (codePoint : Nat) : Bool :=
  (literal characters).contains (UInt8.ofNat codePoint)

def isInC0ControlSet (codePoint : Nat) : Bool := decide (codePoint < 0x20 ∨ 0x7E < codePoint)

def isInFragmentSet (codePoint : Nat) : Bool :=
  isInC0ControlSet codePoint || containsCodePoint [' ', '"', '<', '>', '`'] codePoint

def isInQuerySet (codePoint : Nat) : Bool :=
  isInC0ControlSet codePoint || containsCodePoint [' ', '"', '#', '<', '>'] codePoint

def isInPathSet (codePoint : Nat) : Bool :=
  isInQuerySet codePoint || containsCodePoint ['?', '`', '\x7b', '\x7d'] codePoint

/-- `code_point_is_in_percent_encode_set`, of the sets that are used. -/
def codePointIsInPercentEncodeSet (codePoint : Nat) : PercentEncodeSet → Bool
  | .c0Control => isInC0ControlSet codePoint
  | .fragment => isInFragmentSet codePoint
  | .query => isInQuerySet codePoint
  | .specialQuery => isInQuerySet codePoint || decide (codePoint = 0x27)
  | .path => isInPathSet codePoint
  | .userinfo =>
    isInPathSet codePoint ||
      containsCodePoint ['/', ':', ';', '=', '@', '[', '\\', ']', '^', '|'] codePoint

/-- `{:02X}` of a byte. -/
def hexDigits (b : UInt8) : List UInt8 :=
  [byte (Nat.digitChar (b.toNat / 16)).toUpper, byte (Nat.digitChar (b.toNat % 16)).toUpper]

/-- A percent sign and the two digits of a byte. -/
def percentEncodedByte (b : UInt8) : List UInt8 := byte '%' :: hexDigits b

/-- What `append_percent_encoded` appends: the bytes of the code point's encoding, each
percent-encoded. -/
def percentEncoded (codePoint : Nat) : Option (List UInt8) :=
  (UnicodeUtils.codePointToUtf8 codePoint).map fun bytes => bytes.flatMap percentEncodedByte

/-- What `append_percent_encoded_if_necessary` appends. -/
def percentEncodedIfNecessary (codePoint : Nat) (set : PercentEncodeSet) : Option (List UInt8) :=
  if codePointIsInPercentEncodeSet codePoint set then percentEncoded codePoint
  else some (appendedCodePoint codePoint)

/-- `percent_encode` of the code points of the input. -/
def percentEncodeLoop (set : PercentEncodeSet) : List Nat → Option (List UInt8)
  | [] => some []
  | codePoint :: input => do
      let text ← percentEncodedIfNecessary codePoint set
      let rest ← percentEncodeLoop set input
      some (text ++ rest)

def percentEncode (input : List UInt8) (set : PercentEncodeSet) : Option (List UInt8) :=
  percentEncodeLoop set (codePoints input)

/-- The byte of the two hexadecimal digits at an iterator. -/
def hexByte? (digits : List UInt8) : Option UInt8 := do
  let high ← codePoint? digits
  let low ← codePoint? (digits.drop 1)
  if isAsciiHexDigit high && isAsciiHexDigit low then
    some (UInt8.ofNat ((← parseAsciiHexDigit high) <<< 4) + UInt8.ofNat (← parseAsciiHexDigit low))
  else none

/-- The loop of `percent_decode`, which has `skip` bytes to pass before the next
character: the digits it has read. -/
def percentDecodeLoop : List UInt8 → (skip : Nat) → List UInt8
  | [], _ => []
  | _ :: rest, skip + 1 => percentDecodeLoop rest skip
  | b :: rest, 0 =>
    if codePointAt b rest ≠ 0x25 then
      appendedCodePoint (codePointAt b rest) ++ percentDecodeLoop rest 0
    else
      match hexByte? rest with
      | none => appendedCodePoint (codePointAt b rest) ++ percentDecodeLoop rest 0
      | some value => value :: percentDecodeLoop rest 2

def percentDecode (input : List UInt8) : List UInt8 :=
  if byte '%' ∈ input then percentDecodeLoop input 0 else input

/-! ## Serialization -/

def includesCredentials (url : URL) : Bool :=
  !(url.username.getD []).isEmpty || !(url.password.getD []).isEmpty

/-- `{}` of a port. -/
def decimalPort (port : Nat) : List UInt8 := (Nat.toDigits 10 port).map byte

/-- The credentials part of `serialize`. -/
def serializeCredentials (url : URL) : Option (List UInt8) :=
  if url.includesCredentials then do
    let username ← percentEncode (url.username.getD []) .userinfo
    if (url.password.getD []).isEmpty then some (username ++ [byte '@'])
    else
      let password ← percentEncode (url.password.getD []) .userinfo
      some (username ++ byte ':' :: password ++ [byte '@'])
  else some []

/-- The host part of `serialize`. -/
def serializeHost (url : URL) : Option (List UInt8) :=
  match url.host with
  | none => some []
  | some host => do
      let credentials ← url.serializeCredentials
      some (literal ['/', '/'] ++ credentials ++ host ++
        match url.port with
        | none => []
        | some port => byte ':' :: decimalPort port)

/-- The segments of a path, as `serialize` writes them. -/
def serializeSegments : List (List UInt8) → Option (List UInt8)
  | [] => some []
  | segment :: segments => do
      let text ← percentEncode segment .path
      let rest ← serializeSegments segments
      some (byte '/' :: text ++ rest)

/-- The path part of `serialize`. -/
def serializePath (url : URL) : Option (List UInt8) :=
  if url.cannotBeABaseUrl then
    match url.paths with
    | [] => none
    | path :: _ => percentEncode path .path
  else do
    let segments ← serializeSegments url.paths
    if url.host = none ∧ 1 < url.paths.length ∧ url.paths.head? = some [] then
      some (literal ['/', '.'] ++ segments)
    else some segments

/-- The query part of `serialize`. -/
def serializeQuery (url : URL) : Option (List UInt8) :=
  match url.query with
  | none => some []
  | some query => do
      let text ← percentEncode query (if url.isSpecial then .specialQuery else .query)
      some (byte '?' :: text)

/-- The fragment part of `serialize`. -/
def serializeFragment (url : URL) : Option (List UInt8) :=
  match url.fragment with
  | none => some []
  | some fragment => do
      let text ← percentEncode fragment .fragment
      some (byte '#' :: text)

def serializeDataUrl (url : URL) : Option (List UInt8) := do
  if url.scheme ≠ some data then none
  let mimeType ← url.dataMimeType
  let payload ← url.dataPayload
  let text ← percentEncode payload .c0Control
  some (data ++ byte ':' :: mimeType ++
    (if url.dataPayloadIsBase64 then literal [';', 'b', 'a', 's', 'e', '6', '4'] else []) ++
    byte ',' :: text)

/-- `serialize`, with the fragment. -/
def serialize (url : URL) : Option (List UInt8) :=
  if url.scheme = some data then url.serializeDataUrl
  else do
    let host ← url.serializeHost
    let path ← url.serializePath
    let query ← url.serializeQuery
    let fragment ← url.serializeFragment
    some (url.scheme.getD [] ++ byte ':' :: host ++ path ++ query ++ fragment)

end URL

end Literate.AK

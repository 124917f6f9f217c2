import Literate.Foundation.Machine
import Literate.AK.URL

/-!
# AK: the URL parser

`URLParser::parse` of `AK/URLParser.cpp` and what it uses.  A pass through its loop is a
function of the local variables; the iterator is its byte offset.  The validation errors
are only reported and left out, and `abort` is a failed assertion, an index out of range
or a use of a base URL that is not there.
-/

namespace Literate.AK

open Foundation Utf8View URL

/-! ## Hosts and path segments -/

namespace URLParser

/-- The code point of an iterator that is done. -/
def endOfFile : Nat := 0xFFFFFFFF

/-- A code point that is this character. -/
def isChar (codePoint : Nat) (c : Char) : Bool := codePoint == (byte c).toNat

/-- `\0\t\n\r #/:<>?@[\]^|`. -/
def forbiddenHostCodePointsExcludingPercent : List UInt8 :=
  [0x00, 0x09, 0x0a, 0x0d] ++
    literal [' ', '#', '/', ':', '<', '>', '?', '@', '[', '\\', ']', '^', '|']

def forbiddenHostCodePoints : List UInt8 :=
  byte '%' :: forbiddenHostCodePointsExcludingPercent

/-- `parse_opaque_host`; the inner `none` says that there is no host. -/
def parseOpaqueHost (input : List UInt8) : Option (Option (List UInt8)) :=
  if forbiddenHostCodePointsExcludingPercent.any fun c => input.contains c then some none
  else (percentEncode input .c0Control).map some

/-- `parse_host`; the inner `none` says that there is no host. -/
def parseHost (input : List UInt8) (isNotSpecial : Bool) : Option (Option (List UInt8)) :=
  if input.head? = some (byte '[') then
    if input.getLast? ≠ some (byte ']') then some none
    else none -- `TODO()`
  else if isNotSpecial then parseOpaqueHost input
  else if input.isEmpty then none
  else
    let domain := percentDecode input
    if forbiddenHostCodePoints.any fun c => domain.contains c then some none
    else some (some domain)

def startsWithWindowsDriveLetter : List UInt8 → Bool
  | [] => false
  | [_] => false
  | a :: b :: rest =>
    if !isAsciiAlpha a.toNat && !(b == byte ':' || b == byte '|') then false
    else
      match rest with
      | [] => true
      | c :: _ => (literal ['/', '\\', '?', '#']).contains c

def isWindowsDriveLetter : List UInt8 → Bool
  | [a, b] => isAsciiAlpha a.toNat && (b == byte ':' || b == byte '|')
  | _ => false

def isNormalizedWindowsDriveLetter : List UInt8 → Bool
  | [a, b] => isAsciiAlpha a.toNat && b == byte ':'
  | _ => false

def isSingleDotPathSegment (input : List UInt8) : Bool :=
  input == literal ['.'] || equalsIgnoringCase input (literal ['%', '2', 'e'])

def isDoubleDotPathSegment (input : List UInt8) : Bool :=
  input == literal ['.', '.'] || equalsIgnoringCase input (literal ['.', '%', '2', 'e']) ||
    equalsIgnoringCase input (literal ['%', '2', 'e', '.']) ||
    equalsIgnoringCase input (literal ['%', '2', 'e', '%', '2', 'e'])

/-- `percent_encode_after_encoding`, without spaces as plus signs. -/
def percentEncodeAfterEncoding (input : List UInt8) (set : PercentEncodeSet) : List UInt8 :=
  input.flatMap fun b =>
    -- A `char` from 0x80 on becomes a code point that is in every set.
    let isomorph := if b < 0x80 then b.toNat else b.toNat + 0xFFFFFF00
    if codePointIsInPercentEncodeSet isomorph set then percentEncodedByte b
    else appendedCodePoint isomorph

/-! ## Data URLs -/

def startsWith (input start : List UInt8) : Bool := start.isPrefixOf input

/-- `substring_view(start)`. -/
def substringView (input : List UInt8) (start : Nat) : Option (List UInt8) :=
  if start ≤ input.length then some (input.drop start) else none

/-- `substring_view(start, length)`. -/
def substringViewLength (input : List UInt8) (start length : Nat) : Option (List UInt8) :=
  if start + length ≤ input.length then some ((input.drop start).take length) else none

/-- `ends_with` without case sensitivity, of a string that is not empty.  It looks for
the string's own beginning at its end, as long as `end` is. -/
def endsWithIgnoringCase (str ending : List UInt8) : Bool :=
  if str.length < ending.length then false
  else equalsIgnoringCase (str.drop (str.length - ending.length)) (str.take ending.length)

def base64 : List UInt8 := literal ['b', 'a', 's', 'e', '6', '4']
def textPlain : List UInt8 := literal ['t', 'e', 'x', 't', '/', 'p', 'l', 'a', 'i', 'n']
def dataColon : List UInt8 := literal ['d', 'a', 't', 'a', ':']

/-- The MIME type of `parse_data_url` and whether `base64` has been taken off it. -/
def takeBase64 (mimeType : List UInt8) : Option (List UInt8 × Bool) :=
  if endsWithIgnoringCase mimeType base64 then do
    let substring ← substringViewLength mimeType 0 (mimeType.length - 6)
    let trimmed := StringUtils.trim substring (literal [' ']) .right
    if trimmed.getLast? = some (byte ';') then
      some (← substringViewLength trimmed 0 (trimmed.length - 1), true)
    else some (mimeType, false)
  else some (mimeType, false)

/-- `parse_data_url`; the inner `none` says that there is no URL. -/
def parseDataUrl (rawInput : List UInt8) : Option (Option URL) := do
  if !startsWith rawInput dataColon then none
  let input ← substringView rawInput 5
  match input.idxOf? (byte ',') with
  | none => some none
  | some commaOffset => do
      let mimeType := StringUtils.trim (← substringViewLength input 0 commaOffset)
        [0x09, 0x0a, 0x0c, 0x0d, 0x20] .both
      let encodedBody ← substringView input (commaOffset + 1)
      let (mimeType, isBase64Encoded) ← takeBase64 mimeType
      let mimeType :=
        if startsWith mimeType (literal [';']) || mimeType.isEmpty then textPlain ++ mimeType
        else mimeType
      some (some (ofData (StringUtils.trim mimeType [0x0a, 0x0d, 0x09, 0x20] .both)
        (percentDecode encodedBody) isBase64Encoded))

/-! ## The state machine -/

inductive State
  | schemeStart
  | scheme
  | noScheme
  | specialRelativeOrAuthority
  | pathOrAuthority
  | relative
  | relativeSlash
  | specialAuthoritySlashes
  | specialAuthorityIgnoreSlashes
  | authority
  | host
  | hostname
  | port
  | file
  | fileSlash
  | fileHost
  | pathStart
  | path
  | cannotBeABaseUrlPath
  | query
  | fragment
  deriving DecidableEq, Repr

end URLParser

open URLParser

/-- The local variables of `parse`. -/
structure URLParser where
  state : State
  url : URL
  buffer : List UInt8
  atSignSeen : Bool
  insideBrackets : Bool
  passwordTokenSeen : Bool
  position : Nat
  deriving DecidableEq, Repr

namespace URLParser

/-- How the `switch` is left: by `break`, by `continue`, by `return {}`, or not at all. -/
inductive Step
  | next (p : URLParser)
  | again (p : URLParser)
  | invalid
  | abort
  deriving DecidableEq, Repr

variable (input : List UInt8) (base : Option URL)

/-- The code point of a pass. -/
def codePoint (p : URLParser) : Nat := (codePoint? (input.drop p.position)).getD endOfFile

def getRemaining (p : URLParser) : Option (List UInt8) := do
  let length ← length? (input.drop p.position)
  substringView input (p.position + length)

/-- `++iterator`. -/
def increment (p : URLParser) : Option URLParser :=
  if p.position < input.length then some { p with position := p.position + 1 } else none

/-- A step that may abort. -/
def orAbort (step : Option Step) : Step := step.getD .abort

/-- `get_remaining().starts_with("/"sv)` decides between two steps. -/
def ifRemainingStartsWithSlash (p : URLParser) (yes no : Step) : Step :=
  orAbort do
    let remaining ← getRemaining input p
    some (if startsWith remaining (literal ['/']) then yes else no)

/-- `++iterator` before a `break`. -/
def nextAfterIncrement (p : URLParser) : Step := orAbort ((increment input p).map .next)

def isSlash (c : Nat) : Bool := isChar c '/'

/-- A backslash of a special URL. -/
def isSpecialBackslash (url : URL) (c : Nat) : Bool := url.isSpecial && isChar c '\\'

/-- The end of the input, a slash, `?` or `#`. -/
def isDelimiter (c : Nat) : Bool :=
  c == endOfFile || isChar c '/' || isChar c '?' || isChar c '#'

def schemeStart (c : Nat) (p : URLParser) : Step :=
  if isAsciiAlpha c then
    .next { p with buffer := p.buffer ++ appendedAsLowercase c, state := .scheme }
  else .again { p with state := .noScheme }

/-- What `Scheme` does at the colon. -/
def schemeColon (p : URLParser) : Step :=
  let p := { p with url := { p.url with scheme := some p.buffer }, buffer := [] }
  if p.url.scheme = some URL.file then
    -- What remains is looked at for a validation error only.
    orAbort ((getRemaining input p).map fun _ => .next { p with state := .file })
  else if p.url.isSpecial then
    if base.any fun base => base.scheme == p.url.scheme then
      .next { p with state := .specialRelativeOrAuthority }
    else .next { p with state := .specialAuthoritySlashes }
  else
    ifRemainingStartsWithSlash input p
      (nextAfterIncrement input { p with state := .pathOrAuthority })
      (.next { p with
        url := { p.url with cannotBeABaseUrl := true }.appendPath []
        state := .cannotBeABaseUrlPath })

def scheme (c : Nat) (p : URLParser) : Step :=
  if isAsciiAlphanumeric c || isChar c '+' || isChar c '-' || isChar c '.' then
    .next { p with buffer := p.buffer ++ appendedAsLowercase c }
  else if isChar c ':' then schemeColon input base p
  else .again { p with buffer := [], state := .noScheme, position := 0 }

def noScheme (c : Nat) (p : URLParser) : Step :=
  match base with
  | none => .invalid
  | some base =>
    if base.cannotBeABaseUrl && !isChar c '#' then .invalid
    else if base.cannotBeABaseUrl && isChar c '#' then
      .next { p with
        url := { p.url with
          scheme := base.scheme
          paths := base.paths
          query := base.query
          fragment := some []
          cannotBeABaseUrl := true }
        state := .fragment }
    else if base.scheme ≠ some URL.file then .again { p with state := .relative }
    else .again { p with state := .file }

def specialRelativeOrAuthority (c : Nat) (p : URLParser) : Step :=
  if isSlash c then
    ifRemainingStartsWithSlash input p
      (nextAfterIncrement input { p with state := .specialAuthorityIgnoreSlashes })
      (.again { p with state := .relative })
  else .again { p with state := .relative }

def pathOrAuthority (c : Nat) (p : URLParser) : Step :=
  if isSlash c then .next { p with state := .authority } else .again { p with state := .path }

/-- What `Relative` takes from the base URL, its query too. -/
def fromBase (base url : URL) : URL :=
  { url with
    username := base.username
    password := base.password
    host := base.host
    port := base.port
    paths := base.paths
    query := base.query }

def relative (c : Nat) (p : URLParser) : Step :=
  match base with
  | none => .abort
  | some base =>
    let p := { p with url := { p.url with scheme := base.scheme } }
    if isSlash c then .next { p with state := .relativeSlash }
    else if isSpecialBackslash p.url c then .next { p with state := .relativeSlash }
    else
      let p := { p with url := fromBase base p.url }
      if isChar c '?' then
        .next { p with url := { p.url with query := some [] }, state := .query }
      else if isChar c '#' then
        .next { p with url := { p.url with fragment := some [] }, state := .fragment }
      else if c ≠ endOfFile then
        .again { p with
          url := { p.url with query := none, paths := p.url.paths.dropLast }
          state := .path }
      else .next p

def relativeSlash (c : Nat) (p : URLParser) : Step :=
  if p.url.isSpecial && (isSlash c || isChar c '\\') then
    .next { p with state := .specialAuthorityIgnoreSlashes }
  else if isSlash c then .next { p with state := .authority }
  else
    match base with
    | none => .abort
    | some base =>
      .again { p with
        url := { p.url with
          username := base.username
          password := base.password
          host := base.host
          port := base.port }
        state := .path }

def specialAuthoritySlashes (c : Nat) (p : URLParser) : Step :=
  if isSlash c then
    ifRemainingStartsWithSlash input p
      (nextAfterIncrement input { p with state := .specialAuthorityIgnoreSlashes })
      (.again { p with state := .specialAuthorityIgnoreSlashes })
  else .again { p with state := .specialAuthorityIgnoreSlashes }

def specialAuthorityIgnoreSlashes (c : Nat) (p : URLParser) : Step :=
  if !isSlash c && !isChar c '\\' then .again { p with state := .authority } else .next p

/-- The body of the loop of `Authority` over the code points of a builder. -/
def credential (p : URLParser) (c : Nat) : Option URLParser :=
  if isChar c ':' && !p.passwordTokenSeen then some { p with passwordTokenSeen := true }
  else do
    let text ← percentEncodedIfNecessary c .userinfo
    if p.passwordTokenSeen then
      let password := percentDecode (p.url.password.getD [] ++ text)
      some { p with url := { p.url with password := some password } }
    else
      let username := percentDecode (p.url.username.getD [] ++ text)
      some { p with url := { p.url with username := some username } }

/-- What `Authority` does at an at sign.  The builder it reads the credentials from is
a new one, so that there is nothing in it. -/
def authorityAt (p : URLParser) : Step :=
  let builder : List UInt8 := []
  orAbort (((codePoints builder).foldlM credential { p with atSignSeen := true }).map fun p =>
    .next { p with buffer := [] })

/-- The byte offset that `Authority` goes back to, as a `size_t`. -/
def hostOffset (p : URLParser) : Nat :=
  if p.buffer.length + 1 ≤ p.position then p.position - (p.buffer.length + 1)
  else 2 ^ 64 - (p.buffer.length + 1 - p.position)

def authority (c : Nat) (p : URLParser) : Step :=
  if isChar c '@' then authorityAt p
  else if isDelimiter c || isSpecialBackslash p.url c then
    if p.atSignSeen && p.buffer.isEmpty then .invalid
    else
      .next { p with
        position := iteratorAtByteOffset (hostOffset p) input 0 0
        buffer := []
        state := .host }
  else .next { p with buffer := p.buffer ++ appendedCodePoint c }

/-- `parse_host` of the buffer and what is done with the host. -/
def withHost (isNotSpecial : Bool) (p : URLParser) (f : List UInt8 → Step) : Step :=
  orAbort ((parseHost p.buffer isNotSpecial).map fun host => host.elim .invalid f)

def host (c : Nat) (p : URLParser) : Step :=
  if isChar c ':' && !p.insideBrackets then
    if p.buffer.isEmpty then .invalid
    else
      withHost (!p.url.isSpecial) p fun host =>
        .next { p with url := { p.url with host := some host }, buffer := [], state := .port }
  else if isDelimiter c || isSpecialBackslash p.url c then
    if p.url.isSpecial && p.buffer.isEmpty then .invalid
    else
      withHost (!p.url.isSpecial) p fun host =>
        .again { p with url := { p.url with host := some host }, buffer := [], state := .port }
  else if isChar c '[' then .next { p with insideBrackets := true }
  else if isChar c ']' then .next { p with insideBrackets := false }
  else .next { p with buffer := p.buffer ++ appendedCodePoint c }

def port (c : Nat) (p : URLParser) : Step :=
  if isAsciiDigit c then .next { p with buffer := p.buffer ++ appendedCodePoint c }
  else if isDelimiter c || isSpecialBackslash p.url c then
    if p.buffer.isEmpty then .again { p with state := .pathStart }
    else
      match StringUtils.convertToUint 32 p.buffer .yes with
      | none => .invalid
      | some port =>
        if 65535 < port then .invalid
        else
          let port := if port = defaultPortForScheme (p.url.scheme.getD []) then none else some port
          .again { p with url := { p.url with port := port }, buffer := [], state := .pathStart }
  else .invalid

/-- What a URL without a drive letter of its own does with the last segment of its base:
`File` removes it, but for a drive letter. -/
def removeLastPath (url : URL) : URL :=
  if url.scheme = some URL.file ∧ url.paths.length = 1 ∧
      isNormalizedWindowsDriveLetter (url.paths.headD []) then url
  else { url with paths := url.paths.dropLast }

def file (c : Nat) (p : URLParser) : Step :=
  let p := { p with url := { p.url with scheme := some URL.file, host := some [] } }
  if isSlash c || isChar c '\\' then .next { p with state := .fileSlash }
  else
    match base with
    | none => .next p
    | some base =>
      if base.scheme = some URL.file then
        let p := { p with url := { p.url with
          host := base.host
          paths := base.paths
          query := base.query } }
        if isChar c '?' then
          .next { p with url := { p.url with query := some [] }, state := .query }
        else if isChar c '#' then
          .next { p with url := { p.url with fragment := some [] }, state := .fragment }
        else if c ≠ endOfFile then
          let p := { p with url := { p.url with query := none } }
          orAbort do
            let substringFromPointer ← substringView input p.position
            let url :=
              if startsWithWindowsDriveLetter substringFromPointer then { p.url with paths := [] }
              else removeLastPath p.url
            some (.again { p with url := url, state := .path })
        else .next p
      else .next p

def fileSlash (c : Nat) (p : URLParser) : Step :=
  if isSlash c || isChar c '\\' then .next { p with state := .fileHost }
  else
    match base with
    | none => .next p
    | some base =>
      if base.scheme = some URL.file then
        let url := { p.url with host := base.host }
        orAbort do
          let substringFromPointer ← substringView input p.position
          if startsWithWindowsDriveLetter substringFromPointer then
            some (.again { p with url := url, state := .path })
          else
            let first ← base.paths[0]?
            let url := if isNormalizedWindowsDriveLetter first then url.appendPath first else url
            some (.again { p with url := url, state := .path })
      else .next p

def localhost : List UInt8 := literal ['l', 'o', 'c', 'a', 'l', 'h', 'o', 's', 't']

def fileHost (c : Nat) (p : URLParser) : Step :=
  if isDelimiter c || isChar c '\\' then
    if isWindowsDriveLetter p.buffer then .again { p with state := .path }
    else if p.buffer.isEmpty then
      .again { p with url := { p.url with host := some [] }, state := .pathStart }
    else
      withHost true p fun host =>
        .again { p with
          url := { p.url with host := some (if host = localhost then [] else host) }
          buffer := []
          state := .pathStart }
  else .next { p with buffer := p.buffer ++ appendedCodePoint c }

def pathStart (c : Nat) (p : URLParser) : Step :=
  if p.url.isSpecial then
    if !isSlash c && !isChar c '\\' then .again { p with state := .path }
    else .next { p with state := .path }
  else if isChar c '?' then
    .next { p with url := { p.url with query := some [] }, state := .query }
  else if isChar c '#' then
    .next { p with url := { p.url with fragment := some [] }, state := .fragment }
  else if c ≠ endOfFile then
    if isSlash c then .next { p with state := .path } else .again { p with state := .path }
  else .next p

/-- A buffer that is a drive letter at the beginning of a file path, normalized. -/
def normalizedDriveLetter (url : URL) (buffer : List UInt8) : List UInt8 :=
  if url.scheme = some URL.file ∧ url.paths = [] ∧ isWindowsDriveLetter buffer then
    buffer.take 1 ++ [byte ':']
  else buffer

/-- What `Path` makes of the URL at the end of a segment, `slash` or not. -/
def endSegment (slash : Bool) (url : URL) (buffer : List UInt8) : URL :=
  if isDoubleDotPathSegment buffer then
    let url := removeLastPath url
    if slash then url else url.appendPath []
  else if isSingleDotPathSegment buffer && !slash then url.appendPath []
  else if !isSingleDotPathSegment buffer then
    url.appendPath (percentDecode (normalizedDriveLetter url buffer))
  else url

def path (c : Nat) (p : URLParser) : Step :=
  if isDelimiter c || isSpecialBackslash p.url c then
    let slash := isSlash c || isSpecialBackslash p.url c
    let p := { p with url := endSegment slash p.url p.buffer, buffer := [] }
    if isChar c '?' then
      .next { p with url := { p.url with query := some [] }, state := .query }
    else if isChar c '#' then
      .next { p with url := { p.url with fragment := some [] }, state := .fragment }
    else .next p
  else
    orAbort ((percentEncodedIfNecessary c .path).map fun text =>
      .next { p with buffer := p.buffer ++ text })

def cannotBeABaseUrlPath (c : Nat) (p : URLParser) : Step :=
  if p.url.paths = [[]] then
    let url := { p.url with paths := [percentDecode p.buffer] }
    if isChar c '?' then
      .next { p with url := { url with query := some [] }, state := .query }
    else if isChar c '#' then
      .next { p with url := { url with fragment := some [] }, state := .fragment }
    else if c ≠ endOfFile then
      orAbort ((percentEncodedIfNecessary c .c0Control).map fun text =>
        .next { p with buffer := p.buffer ++ text })
    else .next { p with url := url }
  else .abort

def query (c : Nat) (p : URLParser) : Step :=
  if c = endOfFile ∨ isChar c '#' then
    if p.url.query = some [] then
      let set : PercentEncodeSet := if p.url.isSpecial then .specialQuery else .query
      let p := { p with
        url := { p.url with query := some (percentEncodeAfterEncoding p.buffer set) }
        buffer := [] }
      if isChar c '#' then
        .next { p with url := { p.url with fragment := some [] }, state := .fragment }
      else .next p
    else .abort
  else .next { p with buffer := p.buffer ++ appendedCodePoint c }

def fragment (c : Nat) (p : URLParser) : Step :=
  if c ≠ endOfFile then .next { p with buffer := p.buffer ++ appendedCodePoint c }
  else .next { p with url := { p.url with fragment := some (percentDecode p.buffer) }, buffer := [] }

/-- The `switch` of the loop. -/
def step (p : URLParser) : Step :=
  let c := codePoint input p
  match p.state with
  | .schemeStart => schemeStart c p
  | .scheme => scheme input base c p
  | .noScheme => noScheme base c p
  | .specialRelativeOrAuthority => specialRelativeOrAuthority input c p
  | .pathOrAuthority => pathOrAuthority c p
  | .relative => relative base c p
  | .relativeSlash => relativeSlash base c p
  | .specialAuthoritySlashes => specialAuthoritySlashes input c p
  | .specialAuthorityIgnoreSlashes => specialAuthorityIgnoreSlashes c p
  | .authority => authority input c p
  | .host => host c p
  | .hostname => host c p
  | .port => port c p
  | .file => file input base c p
  | .fileSlash => fileSlash input base c p
  | .fileHost => fileHost c p
  | .pathStart => pathStart c p
  | .path => path c p
  | .cannotBeABaseUrlPath => cannotBeABaseUrlPath c p
  | .query => query c p
  | .fragment => fragment c p

/-- What a run comes to. -/
inductive Result
  | url (url : URL)
  | abort
  | running
  deriving DecidableEq, Repr

/-- A pass through the loop. -/
def pass (p : URLParser) : Outcome URLParser Result :=
  match step input base p with
  | .next p =>
    if input.length ≤ p.position then .done (.url { p.url with valid := true })
    else .next { p with position := p.position + 1 }
  | .again p => .next p
  | .invalid => .done (.url URL.new)
  | .abort => .done .abort

/-- A bound on the passes. -/
def passes : Nat := 14 * (input.length + 1)

end URLParser

/-! ## Parsing -/

namespace URLParser

/-- The input without the controls and spaces at its ends; `none` when nothing is left. -/
def stripped (rawInput : List UInt8) : Option (List UInt8) :=
  let startIndex := (rawInput.takeWhile (· ≤ 0x20)).length
  let endIndex := rawInput.length - (rawInput.reverse.takeWhile (· ≤ 0x20)).length
  if endIndex ≤ startIndex then none
  else some ((rawInput.drop startIndex).take (endIndex - startIndex))

/-- The input without tabs and newlines. -/
def withoutTabsAndNewlines (input : List UInt8) : List UInt8 :=
  input.filter fun c => c ≠ 0x09 ∧ c ≠ 0x0a

/-- `processed_input`; `none` when `parse` returns before it. -/
def processedInput (rawInput : List UInt8) (url : Option URL) : Option (List UInt8) :=
  match url with
  | none => (stripped rawInput).map withoutTabsAndNewlines
  | some _ => if rawInput.isEmpty then none else some (withoutTabsAndNewlines rawInput)

/-- The local variables before the loop. -/
def start (url : Option URL) (stateOverride : Option State) : URLParser where
  state := stateOverride.getD .schemeStart
  url := url.getD URL.new
  buffer := []
  atSignSeen := false
  insideBrackets := false
  passwordTokenSeen := false
  position := 0

/-- The loop of `parse`. -/
def mainLoop (input : List UInt8) (base : Option URL) (p : URLParser) : Result :=
  (runFor (pass input base) (passes input) p).getD .running

def parse (rawInput : List UInt8) (base : Option URL) (url : Option URL)
    (stateOverride : Option State) : Result :=
  if rawInput.isEmpty then .url URL.new
  else if startsWith rawInput dataColon then
    match parseDataUrl rawInput with
    | none => .abort
    | some none => .url URL.new
    | some (some url) => .url url
  else
    match processedInput rawInput url with
    | none => .url URL.new
    | some input => mainLoop input base (start url stateOverride)

end URLParser

end Literate.AK

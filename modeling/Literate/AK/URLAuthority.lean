import Literate.AK.URLPaths

/-!
# AK: what may become the host

`Authority` goes back by what its buffer holds, one more byte than it has read for each
byte outside ASCII.  So a host that is read again is in ASCII, whatever is in the input,
or there is none.
-/

namespace Literate.AK.URLParser

open Foundation Utf8View URL List Option Nat

set_option maxRecDepth 8192

variable {input : List UInt8} {p : URLParser} {c : Nat} {url : URL} {host : List UInt8}
  {Q : List UInt8 → Prop}

/-! ## After the host -/

/-- A state in which the host stays. -/
def isAfterHost : State → Bool
  | .port => true
  | .pathStart => true
  | .path => true
  | .query => true
  | .fragment => true
  | _ => false

/-- A step stays among these states and leaves the host. -/
def KeepsHost (p : URLParser) : Step → Prop
  | .next p' => isAfterHost p'.state = true ∧ p'.url.host = p.url.host
  | .again p' => isAfterHost p'.state = true ∧ p'.url.host = p.url.host
  | .invalid => True
  | .abort => True

theorem keepsHost_port (hstate : p.state = .port) : KeepsHost p (port c p) := by
  have hafter : isAfterHost p.state = true := by rw [hstate]; rfl
  rw [port]
  split
  · exact ⟨hafter, rfl⟩
  split
  · split
    · exact ⟨rfl, rfl⟩
    split
    · trivial
    split
    · trivial
    · exact ⟨rfl, rfl⟩
  · trivial

theorem keepsHost_pathStart (hstate : p.state = .pathStart) : KeepsHost p (pathStart c p) := by
  have hafter : isAfterHost p.state = true := by rw [hstate]; rfl
  rw [pathStart]
  split
  · split <;> exact ⟨rfl, rfl⟩
  split
  · exact ⟨rfl, rfl⟩
  split
  · exact ⟨rfl, rfl⟩
  split
  · split <;> exact ⟨rfl, rfl⟩
  · exact ⟨hafter, rfl⟩

theorem keepsHost_path (hstate : p.state = .path) : KeepsHost p (path c p) := by
  have hafter : isAfterHost p.state = true := by rw [hstate]; rfl
  rw [path]
  split
  · have hhost : ∀ slash, (endSegment slash p.url p.buffer).host = p.url.host := fun slash => by
      rw [endSegment_eq]
    split
    · exact ⟨rfl, hhost _⟩
    split
    · exact ⟨rfl, hhost _⟩
    · exact ⟨hafter, hhost _⟩
  · cases percentEncodedIfNecessary c .path with
    | none => trivial
    | some text => exact ⟨hafter, rfl⟩

theorem keepsHost_query (hstate : p.state = .query) : KeepsHost p (query c p) := by
  have hafter : isAfterHost p.state = true := by rw [hstate]; rfl
  rw [query]
  split
  · split
    · dsimp only
      split
      · exact ⟨rfl, rfl⟩
      · exact ⟨hafter, rfl⟩
    · trivial
  · exact ⟨hafter, rfl⟩

theorem keepsHost_fragment (hstate : p.state = .fragment) : KeepsHost p (fragment c p) := by
  have hafter : isAfterHost p.state = true := by rw [hstate]; rfl
  rw [fragment]
  split <;> exact ⟨hafter, rfl⟩

theorem keepsHost_step (h : isAfterHost p.state = true) : KeepsHost p (step input none p) := by
  rw [step]
  cases hstate : p.state with
  | port => exact keepsHost_port hstate
  | pathStart => exact keepsHost_pathStart hstate
  | path => exact keepsHost_path hstate
  | query => exact keepsHost_query hstate
  | fragment => exact keepsHost_fragment hstate
  | _ =>
    rw [hstate] at h
    cases h

/-- A URL with a host like this. -/
def WithHost (Q : List UInt8 → Prop) (url : URL) : Prop := ∃ host, url.host = some host ∧ Q host

/-- The host has been read. -/
def HostRead (Q : List UInt8 → Prop) (p : URLParser) : Prop :=
  isAfterHost p.state = true ∧ WithHost Q p.url

theorem HostRead.step (h : HostRead Q p) :
    Preserves input (HostRead Q) (WithHost Q) (step input none p) := by
  obtain ⟨hafter, host, hhost, hQ⟩ := h
  have hkeeps : KeepsHost p (URLParser.step input none p) := keepsHost_step hafter
  cases hstep : URLParser.step input none p with
  | next p' =>
    rw [hstep] at hkeeps
    have hwith : WithHost Q p'.url := ⟨host, hkeeps.2.trans hhost, hQ⟩
    exact ⟨fun _ => ⟨hkeeps.1, hwith⟩, fun _ => hwith⟩
  | again p' =>
    rw [hstep] at hkeeps
    exact ⟨hkeeps.1, host, hkeeps.2.trans hhost, hQ⟩
  | invalid => trivial
  | abort => trivial

/-! ## Before the path -/

theorem authorityAt_eq (p : URLParser) :
    authorityAt p = .next { p with atSignSeen := true, buffer := [] } := rfl

/-- The authority is being read. -/
def BeforeHost (p : URLParser) : Prop :=
  (p.state = .authority ∨ p.state = .host) ∧ p.url.paths = []

/-- From `Authority` on, there is no path without a host. -/
def PathAfterHost (p : URLParser) : Prop := BeforeHost p ∨ HostRead (fun _ => True) p

/-- A URL with a host or without a path. -/
def HostOrNoPath (url : URL) : Prop := url.paths = [] ∨ WithHost (fun _ => True) url

theorem BeforeHost.stay (h : p.url.paths = []) (hstate : p.state = .authority ∨ p.state = .host) :
    Preserves input PathAfterHost HostOrNoPath (.next p) :=
  ⟨fun _ => .inl ⟨hstate, h⟩, fun _ => .inl h⟩

theorem preserves_withHost {Inv : URLParser → Prop} {Post : URL → Prop} {isNotSpecial : Bool}
    {f : List UInt8 → Step} (h : ∀ host, parseHost p.buffer isNotSpecial = some (some host) →
      Preserves input Inv Post (f host)) :
    Preserves input Inv Post (withHost isNotSpecial p f) := by
  rw [withHost]
  cases hparse : parseHost p.buffer isNotSpecial with
  | none => trivial
  | some parsed =>
    cases parsed with
    | none => trivial
    | some host => exact h host hparse

theorem BeforeHost.step (h : BeforeHost p) :
    Preserves input PathAfterHost HostOrNoPath (step input none p) := by
  obtain ⟨hstate | hstate, hpaths⟩ := h
  · rw [URLParser.step, hstate]
    show Preserves input _ _ (authority input (codePoint input p) p)
    rw [authority]
    split
    · rw [authorityAt_eq]
      exact BeforeHost.stay hpaths (.inl hstate)
    split
    · split
      · trivial
      · exact BeforeHost.stay hpaths (.inr rfl)
    · exact BeforeHost.stay hpaths (.inl hstate)
  · rw [URLParser.step, hstate]
    show Preserves input _ _ (URLParser.host (codePoint input p) p)
    rw [URLParser.host]
    split
    · split
      · trivial
      · refine preserves_withHost fun host _ => ?_
        have hwith : WithHost (fun _ => True) { p.url with host := some host } := ⟨host, rfl, trivial⟩
        exact ⟨fun _ => .inr ⟨rfl, hwith⟩, fun _ => .inr hwith⟩
    split
    · split
      · trivial
      · exact preserves_withHost fun host _ => .inr ⟨rfl, host, rfl, trivial⟩
    split
    · exact BeforeHost.stay hpaths (.inr hstate)
    split
    · exact BeforeHost.stay hpaths (.inr hstate)
    · exact BeforeHost.stay hpaths (.inr hstate)

/-- A URL that has a path but no host does not come from an authority. -/
theorem host_or_no_path (h : BeforeHost p) (hrun : mainLoop input none p = .url url)
    (hvalid : url.valid = true) : url.paths = [] ∨ url.host ≠ none := by
  have hstep : ∀ p, PathAfterHost p →
      Preserves input PathAfterHost HostOrNoPath (URLParser.step input none p) := by
    rintro p (hbefore | hread)
    · exact hbefore.step
    · exact hread.step.mono (fun _ => .inr) (fun _ => .inr)
  obtain ⟨url', hpost | ⟨host, hhost, -⟩, rfl⟩ := exists_of_mainLoop hstep (.inl h) hrun hvalid
  · exact .inl hpost
  · right
    rw [hhost]
    exact some_ne_none host

/-! ## Code points that are too long -/

variable {b : UInt8} {buffer : List UInt8} {p' : URLParser}

theorem decodeFirstByte_large (h : 0x80 ≤ b) :
    decodeFirstByte b = none ∨ ∃ value length, decodeFirstByte b = some (value, length + 2) := by
  have hall : ∀ n < 256, 0x80 ≤ UInt8.ofNat n →
      (decodeFirstByte (UInt8.ofNat n)).all fun r => decide (2 ≤ r.2) := by decide
  have hb := forall_byte (P := fun b => 0x80 ≤ b →
    (decodeFirstByte b).all fun r => decide (2 ≤ r.2)) hall b h
  cases hdecode : decodeFirstByte b with
  | none => exact .inl rfl
  | some r =>
    obtain ⟨value, length⟩ := r
    rw [hdecode, all_some, decide_eq_true_eq] at hb
    exact .inr ⟨value, length - 2, by rw [Nat.sub_add_cancel hb]⟩

theorem codePointAt_extension (h : b >>> 6 = 2) (rest : List UInt8) :
    0x80 ≤ b ∧ codePointAt b rest = replacement := by
  have hall : ∀ n < 256, UInt8.ofNat n >>> 6 = 2 →
      0x80 ≤ UInt8.ofNat n ∧ decodeFirstByte (UInt8.ofNat n) = none := by decide
  obtain ⟨hb, hdecode⟩ := forall_byte (P := fun b => b >>> 6 = 2 →
    0x80 ≤ b ∧ decodeFirstByte b = none) hall b h
  exact ⟨hb, by rw [codePointAt, hdecode]⟩

/-- A code point in ASCII that does not begin with a byte in ASCII is longer than it should
be, and what follows is no code point. -/
theorem codePointAt_overlong {rest : List UInt8} (hb : 0x80 ≤ b) (h : codePointAt b rest < 0x80) :
    ∃ b' rest', rest = b' :: rest' ∧ 0x80 ≤ b' ∧ codePointAt b' rest' = replacement := by
  have hlarge : ¬ replacement < 0x80 := by decide
  rw [codePointAt] at h
  obtain hdecode | ⟨value, length, hdecode⟩ := decodeFirstByte_large hb
  · rw [hdecode] at h
    exact absurd h hlarge
  rw [hdecode] at h
  dsimp only at h
  cases rest with
  | nil =>
    rw [length_nil, if_pos (by omega)] at h
    exact absurd h hlarge
  | cons b' rest' =>
    split at h
    · exact absurd h hlarge
    rw [add_succ_sub_one, take_succ_cons, extend] at h
    split at h
    · exact absurd h hlarge
    · next hextension => exact ⟨b', rest', rfl, codePointAt_extension (not_not.mp hextension) rest'⟩

theorem length_appendedCodePoint (c : Nat) :
    1 ≤ (appendedCodePoint c).length ∧ (appendedCodePoint c).length ≤ 4 := by
  refine ⟨length_pos_of_ne_nil (appendedCodePoint_ne_nil c), ?_⟩
  rw [appendedCodePoint, UnicodeUtils.codePointToUtf8]
  repeat' split
  all_goals simp

theorem lengthAt_bounds (b : UInt8) (rest : List UInt8) :
    1 ≤ lengthAt b rest ∧ lengthAt b rest ≤ 4 := by
  have hall : ∀ n < 256, (decodeFirstByte (UInt8.ofNat n)).all fun r =>
      decide (1 ≤ r.2 ∧ r.2 ≤ 4) := by decide
  have hb := forall_byte (P := fun b => (decodeFirstByte b).all fun r =>
    decide (1 ≤ r.2 ∧ r.2 ≤ 4)) hall b
  rw [lengthAt]
  cases hdecode : decodeFirstByte b with
  | none => exact ⟨Nat.le_refl 1, show 1 ≤ 4 by omega⟩
  | some r =>
    obtain ⟨value, length⟩ := r
    rw [hdecode, all_some, decide_eq_true_eq] at hb
    dsimp only
    repeat' split
    all_goals omega

theorem iteratorAtByteOffset_le (byteOffset : Nat) (text : List UInt8) (index current : Nat) :
    iteratorAtByteOffset byteOffset text index current ≤ index + (byteOffset - current) := by
  induction text generalizing index current with
  | nil => exact Nat.le_add_right _ _
  | cons b text ih =>
    rw [iteratorAtByteOffset]
    split
    · exact Nat.le_add_right _ _
    · have hle := ih (index + 1) (current + lengthAt b text)
      have hlength := lengthAt_bounds b text
      omega

theorem iteratorAtByteOffset_past {byteOffset : Nat} {text : List UInt8} (index : Nat)
    {current : Nat} (h : current + 4 * text.length ≤ byteOffset) :
    iteratorAtByteOffset byteOffset text index current = index + text.length := by
  induction text generalizing index current with
  | nil => rfl
  | cons b text ih =>
    have hlength := lengthAt_bounds b text
    rw [length_cons] at h ⊢
    rw [iteratorAtByteOffset, if_neg (by omega), ih (index + 1) (by omega)]
    omega

/-! ## Decoding -/

theorem hexByte?_eq_some {digits : List UInt8} {value : UInt8} (h : hexByte? digits = some value) :
    ∃ high low rest, digits = high :: low :: rest ∧
      isAsciiHexDigit (codePointAt high (low :: rest)) = true ∧
      isAsciiHexDigit (codePointAt low rest) = true := by
  rw [hexByte?_eq] at h
  obtain ⟨high, hhigh, h⟩ := bind_eq_some_iff.mp h
  obtain ⟨low, hlow, h⟩ := bind_eq_some_iff.mp h
  obtain ⟨hhex, hhex'⟩ := hexByte_isHex h
  match digits, hhigh, hlow with
  | high' :: low' :: rest, hhigh, hlow =>
    cases hhigh
    cases hlow
    exact ⟨high', low', rest, rfl, hhex, hhex'⟩

theorem mem_percentDecodeLoop (hb : b < 0x80) (hhex : isAsciiHexDigit b.toNat = false)
    (hpercent : b ≠ byte '%') (text : List UInt8) : b ∈ text → b ∈ percentDecodeLoop text 0 := by
  have hpercent' : b.toNat ≠ 0x25 := fun heq =>
    hpercent (UInt8.toNat_inj.mp (heq.trans (by decide)))
  have hne : ∀ b' rest, isAsciiHexDigit (codePointAt b' rest) = true → b ≠ b' := by
    rintro b' rest hhex' rfl
    rw [codePointAt_ascii hb, hhex] at hhex'
    cases hhex'
  induction hlength : text.length using Nat.strong_induction_on generalizing text with
  | _ n ih =>
    intro hmem
    cases text with
    | nil => cases hmem
    | cons b' text =>
      rw [length_cons] at hlength
      rw [percentDecodeLoop]
      have hkept : b ∈ appendedCodePoint (codePointAt b' text) ++ percentDecodeLoop text 0 := by
        rw [mem_append]
        cases mem_cons.mp hmem with
        | inl heq =>
          rw [← heq, codePointAt_ascii hb, appendedCodePoint_ascii hb]
          exact .inl (mem_singleton_self b)
        | inr hrest => exact .inr (ih text.length (by omega) text rfl hrest)
      split
      · exact hkept
      · next hescape =>
        cases hvalue : hexByte? text with
        | none => exact hkept
        | some value =>
          obtain ⟨high, low, rest, rfl, hhigh, hlow⟩ := hexByte?_eq_some hvalue
          simp only [percentDecodeLoop]
          refine mem_cons_of_mem _ (ih rest.length ?_ rest rfl ?_)
          · simp only [length_cons] at hlength
            omega
          · obtain heq | hmem := mem_cons.mp hmem
            · rw [← heq, codePointAt_ascii hb] at hescape
              exact absurd (not_not.mp hescape) hpercent'
            obtain heq | hmem := mem_cons.mp hmem
            · exact absurd heq (hne _ _ hhigh)
            obtain heq | hmem := mem_cons.mp hmem
            · exact absurd heq (hne _ _ hlow)
            · exact hmem

theorem parseHost_at (h : byte '@' ∈ buffer) : parseHost buffer false ≠ some (some host) := by
  have hdomain : byte '@' ∈ percentDecode buffer := by
    rw [percentDecode]
    split
    · exact mem_percentDecodeLoop (by decide) (by decide) (by decide) buffer h
    · exact h
  have hforbidden : (forbiddenHostCodePoints.any fun c => (percentDecode buffer).contains c) = true :=
    List.any_eq_true.mpr ⟨byte '@', by decide, contains_iff_mem.mpr hdomain⟩
  rw [parseHost]
  split
  · split
    · exact fun heq => some_ne_none host (some.inj heq).symm
    · exact (some_ne_none _).symm
  rw [if_neg Bool.false_ne_true]
  split
  · exact (some_ne_none _).symm
  · dsimp only
    rw [hforbidden, if_pos rfl]
    exact fun heq => some_ne_none host (some.inj heq).symm

theorem parseHost_of_notMem (hpercent : byte '%' ∉ buffer)
    (h : parseHost buffer false = some (some host)) : host = buffer := by
  rw [parseHost] at h
  split at h
  · split at h <;> cases h
  rw [if_neg Bool.false_ne_true] at h
  split at h
  · cases h
  dsimp only at h
  split at h
  · cases h
  · cases h
    exact percentDecode_of_notMem hpercent

/-! ## The place of an authority -/

/-- The code point at a place of the input. -/
def codePointFrom (input : List UInt8) (i : Nat) : Nat :=
  (codePoint? (input.drop i)).getD endOfFile

theorem codePoint_eq (input : List UInt8) (p : URLParser) :
    codePoint input p = codePointFrom input p.position := rfl

theorem codePointFrom_ascii {i : Nat} (h : input[i]? = some b) (hb : b < 0x80) :
    codePointFrom input i = b.toNat := by
  obtain ⟨hlt, rfl⟩ := List.getElem?_eq_some_iff.mp h
  rw [codePointFrom, drop_eq_getElem_cons hlt, codePoint?, codePointAt_ascii hb,
    getD_some]

theorem codePointFrom_overlong {i : Nat} (h : input[i]? = some b) (hb : 0x80 ≤ b)
    (hascii : codePointFrom input i < 0x80) :
    (∃ b', input[i + 1]? = some b' ∧ 0x80 ≤ b') ∧ codePointFrom input (i + 1) = replacement := by
  obtain ⟨hlt, rfl⟩ := List.getElem?_eq_some_iff.mp h
  rw [codePointFrom, drop_eq_getElem_cons hlt, codePoint?, getD_some] at hascii
  obtain ⟨b', rest, hrest, hb', hreplacement⟩ := codePointAt_overlong hb hascii
  constructor
  · refine ⟨b', ?_, hb'⟩
    rw [← List.getElem?_drop (i := i + 1) (j := 0), hrest]
    rfl
  · rw [codePointFrom, hrest, codePoint?, getD_some, hreplacement]

/-- A code point at which a host or its authority ends. -/
def endsAuthority (url : URL) (c : Nat) : Bool := isDelimiter c || isSpecialBackslash url c

/-- A byte that a host reads as it is, but for a colon. -/
def PlainByte (b : UInt8) : Prop :=
  b ≠ byte '%' ∧ b ≠ byte '@' ∧ b ≠ byte '[' ∧ b ≠ byte ']' ∧ b ≠ byte '/' ∧ b ≠ byte '?' ∧
    b ≠ byte '#' ∧ b ≠ byte '\\'

/-- The code points from `i` on are in ASCII, up to one at which a host ends. -/
def AsciiRun (input : List UInt8) (url : URL) (i : Nat) : Prop :=
  ∃ d, i ≤ d ∧
    (isChar (codePointFrom input d) ':' || endsAuthority url (codePointFrom input d)) = true ∧
    ∀ j, i ≤ j → j < d → ∃ b, input[j]? = some b ∧ b < 0x80 ∧ PlainByte b

/-- An authority that begins at `start` and ends at `finish`. -/
structure AuthorityAt (input : List UInt8) (url : URL) (start finish : Nat) : Prop where
  special : url.isSpecial = true
  before : ∀ i, 0 < i → i < start → AsciiRun input url i
  lt : start < finish
  inside : ∀ i, start ≤ i → i < finish → ∃ b, input[i]? = some b ∧ PlainByte b
  colon : ∀ i, start ≤ i → input[i]? = some (byte ':') → ∀ j, i ≤ j → j < finish →
    ∃ b, input[j]? = some b ∧ b < 0x80
  finish : input[finish]? = some (byte '/')

variable {start finish : Nat}

theorem endsAuthority_replacement (url : URL) : endsAuthority url replacement = false := by
  simp [endsAuthority, isDelimiter, isSpecialBackslash, isChar, replacement, endOfFile, byte]

theorem endsAuthority_at (url : URL) : endsAuthority url (byte '@').toNat = false := by
  simp [endsAuthority, isDelimiter, isSpecialBackslash, isChar, endOfFile, byte]

theorem endsAuthority_plain (h : PlainByte b) : endsAuthority url b.toNat = false := by
  obtain ⟨-, -, -, -, hslash, hquestion, hnumber, hbackslash⟩ := h
  have hend : (b.toNat == endOfFile) = false := beq_eq_false_iff_ne.mpr (toNat_ne_endOfFile b)
  rw [endsAuthority, isDelimiter, isSpecialBackslash, isChar_eq_false hslash,
    isChar_eq_false hquestion, isChar_eq_false hnumber, isChar_eq_false hbackslash, hend,
    Bool.and_false]
  rfl

theorem lt_of_endsAuthority {i : Nat} (hi : input[i]? = some b)
    (h : endsAuthority url (codePointFrom input i) = true) : codePointFrom input i < 0x80 := by
  have hne : codePointFrom input i ≠ endOfFile := by
    obtain ⟨hlt, rfl⟩ := List.getElem?_eq_some_iff.mp hi
    rw [codePointFrom, drop_eq_getElem_cons hlt, codePoint?, getD_some]
    have hbound := codePointAt_lt input[i] (input.drop (i + 1))
    rw [endOfFile]
    omega
  have hbytes : (byte '/').toNat < 0x80 ∧ (byte '?').toNat < 0x80 ∧ (byte '#').toNat < 0x80 ∧
      (byte '\\').toNat < 0x80 := by decide
  simp only [endsAuthority, isDelimiter, isSpecialBackslash, isChar, Bool.or_eq_true,
    Bool.and_eq_true, beq_iff_eq] at h
  omega

namespace AuthorityAt

variable (h : AuthorityAt input url start finish) {i : Nat}
include h

theorem finish_lt : finish < input.length := (List.getElem?_eq_some_iff.mp h.finish).1

theorem codePoint_finish : codePointFrom input finish = (byte '/').toNat :=
  codePointFrom_ascii h.finish ascii_slash

section

variable (hstart : start ≤ i)

include hstart

/-- A character that is not what its byte says is too long, and is not the last. -/
theorem overlong (hfinish : i < finish) (hascii : codePointFrom input i < 0x80)
    (hbyte : ∀ b, input[i]? = some b → codePointFrom input i ≠ b.toNat) :
    i + 1 < finish ∧ codePointFrom input (i + 1) = replacement := by
  obtain ⟨b, hb, -⟩ := h.inside i hstart hfinish
  have hlarge : 0x80 ≤ b := by
    by_contra hsmall
    exact hbyte b hb (codePointFrom_ascii hb (UInt8.not_le.mp hsmall))
  obtain ⟨⟨b', hb', hlarge'⟩, hreplacement⟩ := codePointFrom_overlong hb hlarge hascii
  refine ⟨Nat.lt_of_le_of_ne hfinish ?_, hreplacement⟩
  rintro rfl
  rw [some.inj (hb'.symm.trans h.finish)] at hlarge'
  exact absurd hlarge' (by decide)

theorem overlong_of_ends (hfinish : i < finish)
    (hends : endsAuthority url (codePointFrom input i) = true) :
    i + 1 < finish ∧ codePointFrom input (i + 1) = replacement := by
  obtain ⟨b, hb, hplain⟩ := h.inside i hstart hfinish
  refine h.overlong hstart hfinish (lt_of_endsAuthority hb hends) fun b' hb' heq => ?_
  cases hb.symm.trans hb'
  rw [heq, endsAuthority_plain hplain] at hends
  cases hends

theorem overlong_of_at (hfinish : i < finish) (hat : isChar (codePointFrom input i) '@' = true) :
    i + 1 < finish ∧ codePointFrom input (i + 1) = replacement := by
  obtain ⟨b, hb, -, hplain, -⟩ := h.inside i hstart hfinish
  rw [isChar, beq_iff_eq] at hat
  refine h.overlong hstart hfinish (by rw [hat]; decide) fun b' hb' heq => ?_
  cases hb.symm.trans hb'
  exact hplain (UInt8.toNat_inj.mp (heq.symm.trans hat))

theorem overlong_of_colon {t : Nat} (hlt : i < t) (ht : t < finish)
    (hat : isChar (codePointFrom input t) '@' = true)
    (hcolon : isChar (codePointFrom input i) ':' = true) :
    codePointFrom input (i + 1) = replacement := by
  rw [isChar, beq_iff_eq] at hcolon
  refine (h.overlong hstart (Nat.lt_trans hlt ht) (by rw [hcolon]; decide)
    fun b hb heq => ?_).2
  have hbyte : b = byte ':' := UInt8.toNat_inj.mp (heq.symm.trans hcolon)
  rw [hbyte] at hb
  obtain ⟨bt, hbt, hascii⟩ := h.colon i hstart hb t (Nat.le_of_lt hlt) ht
  have hle : start ≤ t := Nat.le_of_lt (Nat.lt_of_le_of_lt hstart hlt)
  obtain ⟨bt', hbt', -, hplain, -⟩ := h.inside t hle ht
  cases hbt.symm.trans hbt'
  rw [codePointFrom_ascii hbt hascii, isChar, beq_iff_eq] at hat
  exact hplain (UInt8.toNat_inj.mp hat)

end

end AuthorityAt

/-! ## The invariant -/

/-- A host in ASCII. -/
def Ascii (host : List UInt8) : Prop := ∀ b ∈ host, b < 0x80

/-- How far `Authority` has read: from `a` on, and into the buffer from `s` on. -/
structure ReadFrom (input : List UInt8) (url : URL) (start finish a s : Nat) (p : URLParser) :
    Prop where
  url_eq : p.url = url
  insideBrackets : p.insideBrackets = false
  start_le : start ≤ a
  slashes : ∀ i, start ≤ i → i < a → endsAuthority url (codePointFrom input i) = true
  le : a ≤ s
  le_position : s ≤ p.position
  le_finish : p.position ≤ finish
  inner : ∀ i, a ≤ i → i < p.position → endsAuthority url (codePointFrom input i) = false
  sign : p.atSignSeen = false ∧ s = a ∨
    p.atSignSeen = true ∧ a < s ∧ isChar (codePointFrom input (s - 1)) '@' = true
  lower : p.position ≤ s + p.buffer.length
  upper : p.buffer.length ≤ 4 * (p.position - s)
  ascii : p.position = s + p.buffer.length →
    ∀ i, s ≤ i → i < p.position → codePointFrom input i < 0x80

/-- What `Host` reads is in ASCII. -/
structure AsciiAhead (input : List UInt8) (p : URLParser) : Prop where
  insideBrackets : p.insideBrackets = false
  buffer : ∀ b ∈ p.buffer, b < 0x80 ∧ b ≠ byte '%'
  ahead : AsciiRun input p.url p.position

/-- `Host` comes to an at sign. -/
def SignAhead (input : List UInt8) (start finish : Nat) (p : URLParser) : Prop :=
  ∃ t, p.position ≤ t ∧ t < finish ∧ start ≤ p.position ∧
    isChar (codePointFrom input t) '@' = true ∧
    ∀ i, p.position ≤ i → i < t → endsAuthority p.url (codePointFrom input i) = false

/-- Where `Authority` may go back to. -/
def HostPlace (input : List UInt8) (url : URL) (start finish : Nat) (p : URLParser) : Prop :=
  p.url = url ∧ (AsciiAhead input p ∨ SignAhead input start finish p ∨ byte '@' ∈ p.buffer)

/-- The invariant from the slashes before the authority on. -/
def Rereads (input : List UInt8) (url : URL) (start finish : Nat) (p : URLParser) : Prop :=
  match p.state with
  | .specialAuthorityIgnoreSlashes =>
    (p.url = url ∧ p.buffer = [] ∧ p.atSignSeen = false ∧ p.insideBrackets = false) ∧
      start ≤ p.position ∧ p.position < finish ∧
      ∀ i, start ≤ i → i < p.position → endsAuthority url (codePointFrom input i) = true
  | .authority => ∃ a s, ReadFrom input url start finish a s p
  | .host => HostPlace input url start finish p
  | .port => WithHost Ascii p.url ∨ codePointFrom input p.position = replacement
  | _ => HostRead Ascii p

theorem rereads_of_authority (hstate : p.state = .authority)
    (h : ∃ a s, ReadFrom input url start finish a s p) : Rereads input url start finish p := by
  rw [Rereads, hstate]
  exact h

theorem rereads_of_host (hstate : p.state = .host) (h : HostPlace input url start finish p) :
    Rereads input url start finish p := by
  rw [Rereads, hstate]
  exact h

/-- A URL without a host, or with one in ASCII. -/
def AsciiOrNoHost (url : URL) : Prop := url.host = none ∨ WithHost Ascii url

theorem HostRead.rereads (h : HostRead Ascii p) : Rereads input url start finish p := by
  rw [Rereads]
  obtain ⟨hafter, hhost⟩ := h
  cases hstate : p.state <;> rw [hstate] at hafter <;>
    first | exact .inl hhost | exact ⟨by rw [hstate]; rfl, hhost⟩ | cases hafter

theorem rereads_of_hostRead {s : Step} (h : Preserves input (HostRead Ascii) (WithHost Ascii) s) :
    Preserves input (Rereads input url start finish) AsciiOrNoHost s :=
  h.mono (fun _ => HostRead.rereads) (fun _ => .inr)

theorem rereads_specialAuthorityIgnoreSlashes (h : AuthorityAt input url start finish)
    (hnone : url.host = none) (hstate : p.state = .specialAuthorityIgnoreSlashes)
    (hp : (p.url = url ∧ p.buffer = [] ∧ p.atSignSeen = false ∧ p.insideBrackets = false) ∧
        start ≤ p.position ∧ p.position < finish ∧
        ∀ i, start ≤ i → i < p.position → endsAuthority url (codePointFrom input i) = true) :
    Preserves input (Rereads input url start finish) AsciiOrNoHost
      (specialAuthorityIgnoreSlashes (codePoint input p) p) := by
  obtain ⟨⟨hurl, hbuffer, hsign, hbrackets⟩, hstart, hfinish, hslashes⟩ := hp
  rw [specialAuthorityIgnoreSlashes, codePoint_eq]
  split
  · refine ⟨p.position, p.position, hurl, hbrackets, hstart, hslashes, Nat.le_refl _, Nat.le_refl _,
      Nat.le_of_lt hfinish, fun i hle hlt => absurd hlt (Nat.not_lt.mpr hle), .inl ⟨hsign, rfl⟩,
      Nat.le_add_right _ _, ?_, fun _ i hle hlt => absurd hlt (Nat.not_lt.mpr hle)⟩
    rw [hbuffer]
    exact Nat.zero_le _
  · next hslash =>
    have hends : endsAuthority url (codePointFrom input p.position) = true := by
      simp only [Bool.and_eq_true, Bool.not_eq_true', not_and, Bool.not_eq_false] at hslash
      rw [endsAuthority, isDelimiter, isSpecialBackslash, h.special, Bool.true_and]
      cases hfirst : isSlash (codePointFrom input p.position) with
      | true =>
        rw [isSlash] at hfirst
        rw [hfirst]
        simp
      | false =>
        rw [hslash hfirst]
        simp
    have hnext := (h.overlong_of_ends hstart hfinish hends).1
    refine ⟨fun _ => ?_, fun _ => .inl (hurl ▸ hnone)⟩
    rw [Rereads]
    rw [hstate]
    refine ⟨⟨hurl, hbuffer, hsign, hbrackets⟩, le_succ_of_le hstart, hnext, fun i hle hlt => ?_⟩
    obtain hlt | rfl := Nat.lt_succ_iff_lt_or_eq.mp hlt
    · exact hslashes i hle hlt
    · exact hends

variable {a s : Nat}

section

variable (hp : ReadFrom input url start finish a s p)

include hp

theorem ReadFrom.lt_finish
    (h : AuthorityAt input url start finish)
    (hinner : endsAuthority url (codePointFrom input p.position) = false) : p.position < finish := by
  refine Nat.lt_of_le_of_ne hp.le_finish fun heq => ?_
  rw [heq, h.codePoint_finish] at hinner
  cases hinner

theorem ReadFrom.inner_succ
    (hinner : endsAuthority url (codePointFrom input p.position) = false) :
    ∀ i, a ≤ i → i < p.position + 1 → endsAuthority url (codePointFrom input i) = false := by
  intro i hle hlt
  obtain hlt | rfl := Nat.lt_succ_iff_lt_or_eq.mp hlt
  · exact hp.inner i hle hlt
  · exact hinner

theorem ReadFrom.at
    (h : AuthorityAt input url start finish)
    (hat : isChar (codePointFrom input p.position) '@' = true) :
    ReadFrom input url start finish a (p.position + 1)
      { p with atSignSeen := true, buffer := [], position := p.position + 1 } := by
  have hinner : endsAuthority url (codePointFrom input p.position) = false := by
    rw [isChar, beq_iff_eq] at hat
    rw [hat]
    exact endsAuthority_at url
  exact {
    url_eq := hp.url_eq
    insideBrackets := hp.insideBrackets
    start_le := hp.start_le
    slashes := hp.slashes
    le := le_succ_of_le (Nat.le_trans hp.le hp.le_position)
    le_position := Nat.le_refl _
    le_finish := hp.lt_finish h hinner
    inner := hp.inner_succ hinner
    sign := .inr ⟨rfl, lt_succ_of_le (Nat.le_trans hp.le hp.le_position), hat⟩
    lower := Nat.le_add_right _ _
    upper := Nat.zero_le _
    ascii := fun _ i hle hlt => absurd hlt (Nat.not_lt.mpr hle) }

theorem ReadFrom.append
    (h : AuthorityAt input url start finish)
    (hinner : endsAuthority url (codePointFrom input p.position) = false) :
    ReadFrom input url start finish a s
      { p with
        buffer := p.buffer ++ appendedCodePoint (codePointFrom input p.position)
        position := p.position + 1 } := by
  have hlength := length_appendedCodePoint (codePointFrom input p.position)
  have hlower := hp.lower
  have hupper := hp.upper
  have hle := hp.le_position
  refine ⟨hp.url_eq, hp.insideBrackets, hp.start_le, hp.slashes, hp.le, le_succ_of_le hle,
    hp.lt_finish h hinner, hp.inner_succ hinner, hp.sign, ?_, ?_, fun hexact i hle hlt => ?_⟩
  · rw [length_append]
    show p.position + 1 ≤ _
    omega
  · rw [length_append]
    show _ ≤ 4 * (p.position + 1 - s)
    omega
  · have hexact' : p.position + 1 =
        s + (p.buffer.length + (appendedCodePoint (codePointFrom input p.position)).length) := by
      rw [← length_append]
      exact hexact
    have hlt' : i < p.position + 1 := hlt
    obtain hlt | rfl := Nat.lt_succ_iff_lt_or_eq.mp hlt'
    · exact hp.ascii (by omega) i hle hlt
    · have hone : (appendedCodePoint (codePointFrom input p.position)).length ≤ 1 := by omega
      exact lt_of_length_appended hone

/-- Where a buffer is no longer than what it was read from, all of that is in ASCII. -/
theorem ReadFrom.asciiRun
    (h : AuthorityAt input url start finish) (hexact : p.position = s + p.buffer.length)
    (hends : endsAuthority url (codePointFrom input p.position) = true) : AsciiRun input url s := by
  have hreplacement : ¬ replacement < 0x80 := by decide
  refine ⟨p.position, hp.le_position, by rw [hends, Bool.or_true], fun j hle hlt => ?_⟩
  have hstart : start ≤ j := Nat.le_trans hp.start_le (Nat.le_trans hp.le hle)
  obtain ⟨b, hb, hplain⟩ := h.inside j hstart (Nat.lt_of_lt_of_le hlt hp.le_finish)
  refine ⟨b, hb, ?_, hplain⟩
  by_contra hlarge
  obtain ⟨-, hnext⟩ := codePointFrom_overlong hb (UInt8.not_lt.mp hlarge)
    (hp.ascii hexact j hle hlt)
  obtain hlt' | heq := Nat.lt_or_eq_of_le (succ_le_of_lt hlt)
  · have hascii := hp.ascii hexact (j + 1) (le_succ_of_le hle) hlt'
    rw [hnext] at hascii
    exact hreplacement hascii
  · rw [← heq, succ_eq_add_one, hnext, endsAuthority_replacement] at hends
    cases hends

/-- Going back by what the buffer holds leads to a place from where a host is in ASCII, or
none. -/
theorem ReadFrom.hostPlace
    (h : AuthorityAt input url start finish)
    (hends : endsAuthority url (codePointFrom input p.position) = true)
    (hbuffer : p.atSignSeen = true → p.buffer ≠ []) {q : Nat} (hpos : 0 < q)
    (hq : q + p.buffer.length ≤ p.position) :
    HostPlace input url start finish { p with state := .host, buffer := [], position := q } := by
  have hlower := hp.lower
  refine ⟨hp.url_eq, ?_⟩
  have hascii : AsciiRun input url q →
      AsciiAhead input { p with state := .host, buffer := [], position := q } := fun hrun =>
    ⟨hp.insideBrackets, fun _ hb => (nomatch hb), by rw [hp.url_eq]; exact hrun⟩
  by_cases hbefore : q < start
  · exact .inl (hascii (h.before q hpos hbefore))
  by_cases hslash : q < a
  · refine .inl (hascii ⟨q, Nat.le_refl q, ?_, fun j hle hlt => absurd hlt (Nat.not_lt.mpr hle)⟩)
    rw [hp.slashes q (Nat.not_lt.mp hbefore) hslash, Bool.or_true]
  obtain ⟨-, rfl⟩ | ⟨hseen, hlt, hat⟩ := hp.sign
  · have hqs : q = s := by omega
    rw [hqs] at hascii ⊢
    exact .inl (hascii (hp.asciiRun h (by omega) hends))
  · have hle := hp.le_position
    have hfinish := hp.le_finish
    have hstart := hp.start_le
    have hne := length_pos_of_ne_nil (hbuffer hseen)
    have hqs : q < s := by
      by_contra hnot
      have hascii := hp.ascii (by omega) s (Nat.le_refl s) (by omega)
      have hfirst : start ≤ s - 1 := by omega
      have hlast : s - 1 < finish := by omega
      have hnext := (h.overlong_of_at hfirst hlast hat).2
      rw [Nat.sub_add_cancel (by omega)] at hnext
      rw [hnext] at hascii
      exact absurd hascii (by decide)
    refine .inr (.inl ⟨s - 1, le_pred_of_lt hqs, by omega, Nat.not_lt.mp hbefore, hat,
      fun i hle' hlt' => ?_⟩)
    rw [hp.url_eq]
    exact hp.inner i (Nat.le_trans (Nat.not_lt.mp hslash) hle') (by omega)

theorem ReadFrom.rewind
    (h : AuthorityAt input url start finish) (hnone : url.host = none)
    (hlength : input.length < 2 ^ 60)
    (hends : endsAuthority url (codePointFrom input p.position) = true)
    (hbuffer : p.atSignSeen = true → p.buffer ≠ []) :
    Preserves input (Rereads input url start finish) AsciiOrNoHost (.next { p with
      position := iteratorAtByteOffset (hostOffset p) input 0 0, buffer := [], state := .host }) := by
  have hfinish := hp.le_finish
  have hlt := h.finish_lt
  have hupper := hp.upper
  refine ⟨fun hmore => ?_, fun _ => .inl (by rw [← hnone, ← hp.url_eq])⟩
  by_cases hwrap : p.buffer.length + 1 ≤ p.position
  · have hiterator := iteratorAtByteOffset_le (hostOffset p) input 0 0
    rw [hostOffset, if_pos hwrap] at hiterator
    have hq : iteratorAtByteOffset (hostOffset p) input 0 0 + 1 + p.buffer.length ≤ p.position := by
      rw [hostOffset, if_pos hwrap]
      omega
    exact hp.hostPlace h hends hbuffer (succ_pos _) hq
  · have hoffset : 0 + 4 * input.length ≤ hostOffset p := by
      rw [hostOffset, if_neg hwrap]
      omega
    rw [iteratorAtByteOffset_past 0 hoffset] at hmore
    change 0 + input.length < input.length at hmore
    omega

end

theorem rereads_authority (h : AuthorityAt input url start finish) (hnone : url.host = none)
    (hlength : input.length < 2 ^ 60) (hstate : p.state = .authority)
    (hp : ∃ a s, ReadFrom input url start finish a s p) :
    Preserves input (Rereads input url start finish) AsciiOrNoHost
      (authority input (codePoint input p) p) := by
  obtain ⟨a, s, hp⟩ := hp
  have hstay : ∀ p', p'.state = .authority → p'.url = p.url →
      (∃ a s, ReadFrom input url start finish a s { p' with position := p'.position + 1 }) →
      Preserves input (Rereads input url start finish) AsciiOrNoHost (.next p') := by
    intro p' hp' hurl hread
    exact ⟨fun _ => rereads_of_authority hp' hread, fun _ => .inl (by rw [hurl, hp.url_eq, hnone])⟩
  rw [authority, codePoint_eq]
  split
  · next hat =>
    rw [authorityAt_eq]
    exact hstay _ hstate rfl ⟨a, p.position + 1, hp.at h hat⟩
  split
  · next hends =>
    rw [hp.url_eq] at hends
    split
    · trivial
    · next hbuffer =>
      refine hp.rewind h hnone hlength hends fun hseen hnil => hbuffer ?_
      rw [hseen, hnil]
      rfl
  · next hinner =>
    rw [hp.url_eq] at hinner
    exact hstay _ hstate rfl ⟨a, s, hp.append h (Bool.not_eq_true _ ▸ hinner)⟩

theorem rereads_next_port {host : List UInt8} (hascii : Ascii host)
    (hstate : p'.state = .port) (hhost : p'.url.host = some host) :
    Preserves input (Rereads input url start finish) AsciiOrNoHost (.next p') := by
  refine ⟨fun _ => ?_, fun _ => .inr ⟨host, hhost, hascii⟩⟩
  exact HostRead.rereads ⟨by show isAfterHost p'.state = true; rw [hstate]; rfl, host, hhost, hascii⟩

theorem rereads_again_port {host : List UInt8} (hascii : Ascii host)
    (hstate : p'.state = .port) (hhost : p'.url.host = some host) :
    Preserves input (Rereads input url start finish) AsciiOrNoHost (.again p') :=
  HostRead.rereads ⟨by rw [hstate]; rfl, host, hhost, hascii⟩

theorem AsciiAhead.parseHost (hp : AsciiAhead input p) {parsed : List UInt8}
    (h : URLParser.parseHost p.buffer false = some (some parsed)) : Ascii parsed := by
  rw [parseHost_of_notMem (fun hmem => (hp.buffer _ hmem).2 rfl) h]
  exact fun b hb => (hp.buffer b hb).1

section

variable (h : AuthorityAt input url start finish)

include h

theorem rereads_asciiAhead (hnone : url.host = none)
    (hstate : p.state = .host) (hurl : p.url = url) (hp : AsciiAhead input p) :
    Preserves input (Rereads input url start finish) AsciiOrNoHost
      (URLParser.host (codePoint input p) p) := by
  have hspecial : (!p.url.isSpecial) = false := by rw [hurl, h.special]; rfl
  rw [URLParser.host, codePoint_eq]
  split
  · split
    · trivial
    · refine preserves_withHost fun parsed hparsed => ?_
      rw [hspecial] at hparsed
      exact rereads_next_port (hp.parseHost hparsed) rfl rfl
  · next hcolon =>
    split
    · split
      · trivial
      · refine preserves_withHost fun parsed hparsed => ?_
        rw [hspecial] at hparsed
        exact rereads_again_port (hp.parseHost hparsed) rfl rfl
    · next hends =>
      obtain ⟨d, hle, hstop, hrun⟩ := hp.ahead
      have hlt : p.position < d := by
        refine Nat.lt_of_le_of_ne hle fun heq => ?_
        rw [← heq, hurl] at hstop
        rw [hp.insideBrackets, Bool.not_false, Bool.and_true] at hcolon
        rw [hurl] at hends
        cases Bool.or_eq_true_iff.mp hstop with
        | inl hstop => exact hcolon hstop
        | inr hstop => exact hends hstop
      obtain ⟨b, hb, hascii, hplain⟩ := hrun p.position (Nat.le_refl _) hlt
      rw [codePointFrom_ascii hb hascii, isChar_eq_false hplain.2.2.1,
        isChar_eq_false hplain.2.2.2.1, appendedCodePoint_ascii hascii]
      refine ⟨fun _ => rereads_of_host hstate ⟨hurl, .inl ⟨hp.insideBrackets, ?_, ?_⟩⟩,
        fun _ => .inl (hurl ▸ hnone)⟩
      · exact forall_mem_append.mpr
          ⟨hp.buffer, forall_mem_singleton.mpr ⟨hascii, hplain.1⟩⟩
      · exact ⟨d, hlt, hstop, fun j hle' hlt' => hrun j (le_of_succ_le hle') hlt'⟩

theorem rereads_signAhead (hnone : url.host = none)
    (hstate : p.state = .host) (hurl : p.url = url) (hp : SignAhead input start finish p) :
    Preserves input (Rereads input url start finish) AsciiOrNoHost
      (URLParser.host (codePoint input p) p) := by
  obtain ⟨t, hle, ht, hstart, hat, hinner⟩ := hp
  have hlt : isChar (codePointFrom input p.position) '@' = false → p.position < t := fun hnot => by
    refine Nat.lt_of_le_of_ne hle fun heq => ?_
    rw [heq, hat] at hnot
    cases hnot
  have hends : endsAuthority p.url (codePointFrom input p.position) = false := by
    obtain hlt' | rfl := Nat.lt_or_eq_of_le hle
    · exact hinner p.position (Nat.le_refl _) hlt'
    · rw [isChar, beq_iff_eq] at hat
      rw [hat]
      exact endsAuthority_at p.url
  have hstay : ∀ p' : URLParser, p'.state = .host → p'.url = p.url → p'.position = p.position →
      (isChar (codePointFrom input p.position) '@' = true → byte '@' ∈ p'.buffer) →
      Preserves input (Rereads input url start finish) AsciiOrNoHost (.next p') := by
    intro p' hp' hurl' hposition hbuffer
    refine ⟨fun _ => rereads_of_host hp' ⟨hurl'.trans hurl, .inr ?_⟩,
      fun _ => .inl (by rw [hurl', hurl, hnone])⟩
    cases hsign : isChar (codePointFrom input p.position) '@' with
    | true => exact .inr (hbuffer hsign)
    | false =>
      have hnext := hlt hsign
      rw [← hposition] at hnext hstart hinner
      refine .inl ⟨t, hnext, ht, le_succ_of_le hstart, hat, fun i hle' hlt' => ?_⟩
      rw [hurl']
      exact hinner i (le_of_succ_le hle') hlt'
  have hbracket : ∀ x : Char, byte x ≠ byte '@' → isChar (codePointFrom input p.position) x = true →
      isChar (codePointFrom input p.position) '@' = true → False := by
    intro x hx hchar hsign
    rw [isChar, beq_iff_eq] at hchar hsign
    exact hx (UInt8.toNat_inj.mp (hchar.symm.trans hsign))
  rw [URLParser.host, codePoint_eq]
  split
  · next hcolon =>
    split
    · trivial
    · refine preserves_withHost fun parsed _ => ?_
      have hcolon' := (Bool.and_eq_true_iff.mp hcolon).1
      have hnot : isChar (codePointFrom input p.position) '@' = false :=
        Bool.not_eq_true _ ▸ hbracket ':' (by decide) hcolon'
      have hreplacement := h.overlong_of_colon hstart (hlt hnot) ht hat hcolon'
      refine ⟨fun _ => ?_, fun _ => ?_⟩
      · rw [Rereads]
        exact .inr hreplacement
      · have hend : input.length ≤ p.position := by assumption
        have hlast := h.finish_lt
        omega
  split
  · next hends' =>
    change endsAuthority p.url _ = true at hends'
    rw [hends] at hends'
    cases hends'
  split
  · next hopen => exact hstay _ hstate rfl rfl fun hsign => (hbracket '[' (by decide) hopen hsign).elim
  split
  · next hclose => exact hstay _ hstate rfl rfl fun hsign => (hbracket ']' (by decide) hclose hsign).elim
  · refine hstay _ hstate rfl rfl fun hsign => mem_append_right _ ?_
    rw [isChar, beq_iff_eq] at hsign
    rw [hsign, appendedCodePoint_ascii (by decide)]
    exact mem_singleton_self _

theorem rereads_sign (hnone : url.host = none)
    (hstate : p.state = .host) (hurl : p.url = url) (hp : byte '@' ∈ p.buffer) :
    Preserves input (Rereads input url start finish) AsciiOrNoHost
      (URLParser.host (codePoint input p) p) := by
  have hspecial : (!p.url.isSpecial) = false := by rw [hurl, h.special]; rfl
  have hinvalid : ∀ f, Preserves input (Rereads input url start finish) AsciiOrNoHost
      (withHost (!p.url.isSpecial) p f) := fun f => preserves_withHost fun parsed hparsed => by
    rw [hspecial] at hparsed
    exact absurd hparsed (parseHost_at hp)
  have hstay : ∀ p' : URLParser, p'.state = .host → p'.url = p.url → byte '@' ∈ p'.buffer →
      Preserves input (Rereads input url start finish) AsciiOrNoHost (.next p') :=
    fun p' hp' hurl' hbuffer =>
      ⟨fun _ => rereads_of_host hp' ⟨hurl'.trans hurl, .inr (.inr hbuffer)⟩,
        fun _ => .inl (by rw [hurl', hurl, hnone])⟩
  rw [URLParser.host]
  split
  · split
    · trivial
    · exact hinvalid _
  split
  · split
    · trivial
    · exact hinvalid _
  split
  · exact hstay _ hstate rfl hp
  split
  · exact hstay _ hstate rfl hp
  · exact hstay _ hstate rfl (mem_append_left _ hp)

theorem rereads_step (hnone : url.host = none)
    (hlength : input.length < 2 ^ 60) (p : URLParser) (hp : Rereads input url start finish p) :
    Preserves input (Rereads input url start finish) AsciiOrNoHost (step input none p) := by
  have hread : HostRead Ascii p → Preserves input (Rereads input url start finish) AsciiOrNoHost
      (step input none p) := fun hread => rereads_of_hostRead hread.step
  rw [Rereads] at hp
  cases hstate : p.state with
  | specialAuthorityIgnoreSlashes =>
    rw [hstate] at hp
    rw [step, hstate]
    exact rereads_specialAuthorityIgnoreSlashes h hnone hstate hp
  | authority =>
    rw [hstate] at hp
    rw [step, hstate]
    exact rereads_authority h hnone hlength hstate hp
  | host =>
    rw [hstate] at hp
    obtain ⟨hurl, hascii | hsign | hbuffer⟩ := hp
    · rw [step, hstate]
      exact rereads_asciiAhead h hnone hstate hurl hascii
    · rw [step, hstate]
      exact rereads_signAhead h hnone hstate hurl hsign
    · rw [step, hstate]
      exact rereads_sign h hnone hstate hurl hbuffer
  | port =>
    rw [hstate] at hp
    obtain hwith | hreplacement := hp
    · exact hread ⟨by rw [hstate]; rfl, hwith⟩
    · rw [step, hstate]
      show Preserves input _ _ (port (codePointFrom input p.position) p)
      have hends := endsAuthority_replacement p.url
      rw [endsAuthority] at hends
      rw [hreplacement, port, if_neg (by decide), hends, if_neg Bool.false_ne_true]
      trivial
  | _ =>
    rw [hstate] at hp
    exact hread hp

/-- From the slashes before the authority on, no host is read that is not in ASCII. -/
theorem ascii_or_no_host (hnone : url.host = none)
    (hlength : input.length < 2 ^ 60) (hp : Rereads input url start finish p) {url' : URL}
    (hrun : mainLoop input none p = .url url') (hvalid : url'.valid = true) :
    ∀ host ∈ url'.host, Ascii host := by
  obtain ⟨url'', hpost, rfl⟩ :=
    exists_of_mainLoop (rereads_step h hnone hlength) hp hrun hvalid
  intro host hhost
  obtain hnone' | ⟨host', hhost', hascii⟩ := hpost
  · rw [hnone'] at hhost
    cases hhost
  · cases hhost'.symm.trans hhost
    exact hascii

end

end Literate.AK.URLParser

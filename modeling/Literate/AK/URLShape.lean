import Literate.AK.URLReparse

/-!
# AK: what a parsed URL is like

`Shaped` is what the fields of every URL that `parse` makes without a base URL have in
common, `Shape` what leads to it in each state of the parser.
-/

namespace Literate.AK.URLParser

open Foundation Utf8View URL List Option

set_option maxRecDepth 8192

/-! ## Shapes -/

/-- A scheme that has been read. -/
def SchemeText (scheme : List UInt8) : Prop :=
  (∃ b, scheme.head? = some b ∧ isAsciiAlpha b.toNat = true) ∧ ∀ b ∈ scheme, SchemeByte b

/-- A host as `parse_opaque_host` makes it. -/
def OpaqueHost (host : List UInt8) : Prop :=
  ∀ b ∈ host, Unencoded .c0Control b ∧ b ∉ forbiddenHostCodePointsExcludingPercent

/-- A host of a special URL. -/
def SpecialHost (host : List UInt8) : Prop :=
  host ≠ [] ∧ ∀ b ∈ host, b ∉ forbiddenHostCodePoints

/-- A port: the first digit of the number, but for the port of the scheme. -/
def PortShape (scheme : List UInt8) (port : Option Nat) : Prop :=
  ∀ n ∈ port, n < 10 ∧ n ≠ defaultPortForScheme scheme

def HostShape (scheme host : List UInt8) (port : Option Nat) : Prop :=
  if scheme = URL.file then OpaqueHost host ∧ host ≠ localhost ∧ port = none
  else if isSpecialScheme scheme then SpecialHost host ∧ PortShape scheme port
  else OpaqueHost host ∧ PortShape scheme port ∧ (host = [] → port = none)

/-- What does not depend on the path and what follows it. -/
structure Based (url : URL) : Prop where
  scheme : ∃ scheme, url.scheme = some scheme ∧ SchemeText scheme
  username : url.username = none
  password : url.password = none
  host : ∀ host ∈ url.host, HostShape (url.scheme.getD []) host url.port
  port : url.host = none → url.port = none

/-- What every parsed URL is like. -/
structure Shaped (url : URL) : Prop extends Based url where
  query : ∀ query ∈ url.query, ∀ b ∈ query, Unencoded (querySet url) b
  path : url.cannotBeABaseUrl = true →
    url.isSpecial = false ∧ url.host = none ∧ ∃ path, url.paths = [path]
  pathless : url.paths = [] → url.host = none ∨ url.isSpecial = true →
    url.query = none ∧ url.fragment = none ∧ url.cannotBeABaseUrl = false
  hostless : url.isSpecial = true → url.host = none → url.paths = []
  special : url.isSpecial = true → url.host ≠ none → url.scheme ≠ some URL.file → url.paths ≠ []

/-- A URL of which the scheme alone is known. -/
def withScheme (scheme : List UInt8) : URL := { URL.new with scheme := some scheme }

/-- A URL before its path. -/
structure BeforePath (url : URL) : Prop extends Based url where
  query : url.query = none
  fragment : url.fragment = none
  cannotBeABaseUrl : url.cannotBeABaseUrl = false
  hostless : url.isSpecial = true → url.host ≠ none

/-- What the states lead to, without a base URL. -/
def Shape (input : List UInt8) (p : URLParser) : Prop :=
  match p.state with
  | .schemeStart => p.url = URL.new ∧ p.buffer = []
  | .scheme => p.url = URL.new ∧ SchemeText p.buffer
  | .noScheme => True
  | .specialRelativeOrAuthority => False
  | .pathOrAuthority =>
    ∃ scheme, SchemeText scheme ∧ isSpecialScheme scheme = false ∧ p.url = withScheme scheme
  | .relative => False
  | .relativeSlash => False
  | .specialAuthoritySlashes =>
    ∃ scheme, SchemeText scheme ∧ scheme ≠ URL.file ∧ p.url = withScheme scheme
  | .specialAuthorityIgnoreSlashes =>
    ∃ scheme, SchemeText scheme ∧ scheme ≠ URL.file ∧ p.url = withScheme scheme
  | .authority => ∃ scheme, SchemeText scheme ∧ scheme ≠ URL.file ∧ p.url = withScheme scheme
  | .host =>
    (∃ scheme, SchemeText scheme ∧ scheme ≠ URL.file ∧ p.url = withScheme scheme) ∧
      Appended p.buffer
  | .hostname => False
  | .port =>
    BeforePath p.url ∧ p.url.scheme ≠ some URL.file ∧ p.url.port = none ∧ p.url.host ≠ none ∧
      (∀ b ∈ p.buffer, isAsciiDigit b.toNat = true) ∧
      (p.url.host = some [] →
        p.buffer = [] ∧ isAsciiDigit (codePoint input p) = false)
  | .file =>
    (p.url = withScheme URL.file ∨ p.url = { withScheme URL.file with host := some [] }) ∧
      p.buffer = []
  | .fileSlash => p.url = { withScheme URL.file with host := some [] } ∧ p.buffer = []
  | .fileHost => p.url = { withScheme URL.file with host := some [] } ∧ Appended p.buffer
  | .pathStart => BeforePath p.url ∧ p.url.host ≠ none
  | .path => BeforePath p.url
  | .cannotBeABaseUrlPath =>
    ∃ scheme, SchemeText scheme ∧ isSpecialScheme scheme = false ∧
      p.url = { withScheme scheme with cannotBeABaseUrl := true, paths := [[]] }
  | .query => Shaped p.url ∧ p.url.query ≠ none
  | .fragment => Shaped p.url ∧ p.url.fragment ≠ none

/-- A step leads to a shape, and at the end to a URL that is shaped. -/
def KeepsShape (input : List UInt8) : Step → Prop := Preserves input (Shape input) Shaped

variable {input : List UInt8} {p : URLParser} {c : Nat} {url : URL} {scheme : List UInt8}

/-! ## Lemmas -/

theorem based_withScheme (h : SchemeText scheme) : Based (withScheme scheme) where
  scheme := ⟨scheme, rfl, h⟩
  username := rfl
  password := rfl
  host := fun _ hhost => (nomatch hhost)
  port := fun _ => rfl

theorem shaped_withScheme (h : SchemeText scheme) : Shaped (withScheme scheme) where
  toBased := based_withScheme h
  query := fun _ hquery => (nomatch hquery)
  path := fun h => (nomatch h)
  pathless := fun _ _ => ⟨rfl, rfl, rfl⟩
  hostless := fun _ _ => rfl
  special := fun _ hhost => absurd rfl hhost

theorem schemeText_file : SchemeText URL.file := by
  refine ⟨⟨byte 'f', rfl, by decide⟩, ?_⟩
  simp only [URL.file, literal, map_cons, map_nil, forall_mem_cons]
  simp only [SchemeByte]
  decide

theorem BeforePath.shaped (h : BeforePath url)
    (hspecial : url.isSpecial = true → url.scheme ≠ some URL.file → url.paths ≠ []) :
    Shaped url where
  toBased := h.toBased
  query := fun q hq => by
    rw [h.query] at hq
    cases hq
  path := fun hbaseless => by
    rw [h.cannotBeABaseUrl] at hbaseless
    cases hbaseless
  pathless := fun _ _ => ⟨h.query, h.fragment, h.cannotBeABaseUrl⟩
  hostless := fun hspecial hhost => absurd hhost (h.hostless hspecial)
  special := fun hspecial' _ => hspecial hspecial'

theorem appendedAsLowercase_schemeByte
    (h : (isAsciiAlphanumeric c || isChar c '+' || isChar c '-' || isChar c '.') = true) :
    ∃ b, appendedAsLowercase c = [b] ∧ SchemeByte b ∧
      (isAsciiAlpha c = true → isAsciiAlpha b.toNat = true) := by
  have hlt : c < 0x80 := by
    simp only [isAsciiAlphanumeric, isAsciiAlpha, isAsciiDigit, isChar, Bool.or_eq_true,
      decide_eq_true_eq, beq_iff_eq] at h
    have hbytes : (byte '+').toNat = 43 ∧ (byte '-').toNat = 45 ∧ (byte '.').toNat = 46 := by decide
    omega
  have hall : ∀ n < 128,
      (isAsciiAlphanumeric n || isChar n '+' || isChar n '-' || isChar n '.') = true →
      ∃ b ∈ (appendedAsLowercase n).head?, appendedAsLowercase n = [b] ∧ SchemeByte b ∧
        (isAsciiAlpha n = true → isAsciiAlpha b.toNat = true) := by
    simp only [SchemeByte]
    decide
  obtain ⟨b, -, hb⟩ := hall c hlt h
  exact ⟨b, hb⟩

theorem lt_of_isAscii (h : codePoint input p < 0x80) : p.position < input.length :=
  lt_of_codePoint_ne fun heof => by
    rw [heof] at h
    exact absurd h (by decide)

variable {p' : URLParser} {buffer text : List UInt8} {b : UInt8}

theorem keepsShape_next_lt (hlt : p'.position < input.length)
    (h : Shape input { p' with position := p'.position + 1 }) : KeepsShape input (.next p') :=
  ⟨fun _ => h, fun hend => absurd hlt (Nat.not_lt.mpr hend)⟩

theorem isAlpha_lt (h : isAsciiAlpha c = true) : c < 0x80 := by
  simp only [isAsciiAlpha, decide_eq_true_eq] at h
  omega

/-! ## The states -/

theorem keepsShape_schemeStart (h : p.url = URL.new ∧ p.buffer = []) :
    KeepsShape input (schemeStart (codePoint input p) p) := by
  rw [schemeStart]
  split
  · next halpha =>
    obtain ⟨b, hb, hscheme, hbalpha⟩ := appendedAsLowercase_schemeByte (c := codePoint input p)
      (by rw [isAsciiAlphanumeric, halpha]; rfl)
    refine keepsShape_next_lt (lt_of_isAscii (isAlpha_lt halpha)) ⟨h.1, ?_⟩
    rw [hb, h.2]
    exact ⟨⟨b, rfl, hbalpha halpha⟩, forall_mem_singleton.mpr hscheme⟩
  · trivial

theorem keepsShape_ifRemainingStartsWithSlash {yes no : Step}
    (hyes : KeepsShape input yes) (hno : KeepsShape input no) :
    KeepsShape input (ifRemainingStartsWithSlash input p' yes no) := by
  rw [ifRemainingStartsWithSlash]
  cases getRemaining input p' with
  | none => trivial
  | some remaining =>
    show KeepsShape input (if _ then yes else no)
    split
    · exact hyes
    · exact hno

/-- A step that leads to a shaped URL, whether the input ends there or not. -/
theorem keepsShape_next (hshaped : Shaped p'.url)
    (h : Shape input { p' with position := p'.position + 1 }) : KeepsShape input (.next p') :=
  ⟨fun _ => h, fun _ => hshaped⟩

theorem keepsShape_stay {state : State} (hstate : p'.state = state) (hshaped : Shaped p'.url)
    (h : Shape input { p' with state := state, position := p'.position + 1 }) :
    KeepsShape input (.next p') := by
  subst hstate
  exact keepsShape_next hshaped h

theorem keepsShape_nextAfterIncrement (hshaped : Shaped p'.url)
    (h : Shape input { p' with position := p'.position + 2 }) :
    KeepsShape input (nextAfterIncrement input p') := by
  rw [nextAfterIncrement, increment]
  split
  · exact keepsShape_next hshaped h
  · trivial

theorem keepsShape_schemeColon (h : p.url = URL.new ∧ SchemeText p.buffer)
    (hlt : p.position < input.length) : KeepsShape input (schemeColon input none p) := by
  have hurl : { p.url with scheme := some p.buffer } = withScheme p.buffer := by rw [h.1]; rfl
  rw [schemeColon, hurl]
  split
  · next hfile =>
    have hbuffer : p.buffer = URL.file := some.inj hfile
    rw [hbuffer]
    cases getRemaining input { p with url := withScheme URL.file, buffer := [] } with
    | none => trivial
    | some remaining => exact keepsShape_next_lt hlt ⟨.inl rfl, rfl⟩
  next hfile =>
    have hfile' : p.buffer ≠ URL.file := fun heq => hfile (congrArg some heq)
    split
    · exact keepsShape_next_lt hlt ⟨_, h.2, hfile', rfl⟩
    · next hspecial =>
      have hspecial' : isSpecialScheme p.buffer = false := by
        simpa [isSpecial, withScheme] using hspecial
      refine keepsShape_ifRemainingStartsWithSlash
        (keepsShape_nextAfterIncrement (shaped_withScheme h.2) ⟨_, h.2, hspecial', rfl⟩)
        (keepsShape_next_lt hlt ⟨_, h.2, hspecial', rfl⟩)

theorem keepsShape_scheme (hstate : p.state = .scheme) (h : p.url = URL.new ∧ SchemeText p.buffer) :
    KeepsShape input (URLParser.scheme input none (codePoint input p) p) := by
  rw [URLParser.scheme]
  split
  · next hchar =>
    obtain ⟨b, hb, hscheme, -⟩ := appendedAsLowercase_schemeByte hchar
    have hlt : codePoint input p < 0x80 := by
      simp only [isAsciiAlphanumeric, isAsciiAlpha, isAsciiDigit, isChar, Bool.or_eq_true,
        decide_eq_true_eq, beq_iff_eq] at hchar
      have hbytes : (byte '+').toNat = 43 ∧ (byte '-').toNat = 45 ∧ (byte '.').toNat = 46 := by
        decide
      omega
    refine keepsShape_next_lt (lt_of_isAscii hlt) ?_
    rw [Shape]
    rw [hstate, hb]
    obtain ⟨⟨b', hhead, halpha⟩, hall⟩ := h.2
    refine ⟨h.1, ⟨b', ?_, halpha⟩, forall_mem_append.mpr
      ⟨hall, forall_mem_singleton.mpr hscheme⟩⟩
    rw [List.head?_append, hhead, some_or]
  split
  · next hcolon => exact keepsShape_schemeColon h (lt_of_isChar hcolon)
  · trivial

theorem keepsShape_specialAuthoritySlashes
    (h : ∃ scheme, SchemeText scheme ∧ scheme ≠ URL.file ∧ p.url = withScheme scheme) :
    KeepsShape input (specialAuthoritySlashes input c p) := by
  have hshaped : Shaped p.url := by
    obtain ⟨scheme, hscheme, -, hurl⟩ := h
    rw [hurl]
    exact shaped_withScheme hscheme
  rw [specialAuthoritySlashes]
  split
  · exact keepsShape_ifRemainingStartsWithSlash (keepsShape_nextAfterIncrement hshaped h) h
  · exact h

theorem keepsShape_specialAuthorityIgnoreSlashes (hstate : p.state = .specialAuthorityIgnoreSlashes)
    (h : ∃ scheme, SchemeText scheme ∧ scheme ≠ URL.file ∧ p.url = withScheme scheme) :
    KeepsShape input (specialAuthorityIgnoreSlashes c p) := by
  rw [specialAuthorityIgnoreSlashes]
  split
  · exact h
  · obtain ⟨scheme, hscheme, hfile, hurl⟩ := h
    exact keepsShape_stay hstate (by rw [hurl]; exact shaped_withScheme hscheme)
      ⟨scheme, hscheme, hfile, hurl⟩

theorem keepsShape_pathOrAuthority
    (h : ∃ scheme, SchemeText scheme ∧ isSpecialScheme scheme = false ∧ p.url = withScheme scheme) :
    KeepsShape input (pathOrAuthority c p) := by
  obtain ⟨scheme, hscheme, hspecial, hurl⟩ := h
  rw [pathOrAuthority]
  split
  · refine keepsShape_next (by rw [hurl]; exact shaped_withScheme hscheme) ⟨scheme, hscheme, ?_, hurl⟩
    rintro rfl
    exact absurd hspecial (by decide)
  · show BeforePath p.url
    rw [hurl]
    refine ⟨based_withScheme hscheme, rfl, rfl, rfl, fun h => ?_⟩
    have h' : isSpecialScheme scheme = true := h
    rw [hspecial] at h'
    cases h'

theorem keepsShape_authority (hstate : p.state = .authority)
    (h : ∃ scheme, SchemeText scheme ∧ scheme ≠ URL.file ∧ p.url = withScheme scheme) :
    KeepsShape input (authority input c p) := by
  have hshaped : Shaped p.url := by
    obtain ⟨scheme, hscheme, -, hurl⟩ := h
    rw [hurl]
    exact shaped_withScheme hscheme
  rw [authority]
  split
  · exact keepsShape_stay hstate hshaped h
  split
  · split
    · trivial
    · exact keepsShape_next hshaped ⟨h, appended_nil⟩
  · exact keepsShape_stay hstate hshaped h

/-! ## Hosts -/

theorem Appended.mem_of_ascii (h : Appended buffer)
    (hb : b < 0x80) (hmem : b.toNat ∈ codePoints buffer) : b ∈ buffer := by
  obtain ⟨cs, rfl⟩ := h
  induction cs with
  | nil => cases hmem
  | cons c cs ih =>
    rw [flatMap_cons] at hmem ⊢
    by_cases hc : c < 0x80
    · obtain ⟨b', hb', rfl⟩ := exists_byte hc
      rw [appendedCodePoint_ascii hb', singleton_append, codePoints, codePointAt_ascii hb',
        mem_cons] at hmem
      rw [appendedCodePoint_ascii hb', singleton_append, mem_cons]
      exact hmem.imp (fun heq => UInt8.toNat_inj.mp heq) ih
    · obtain ⟨large, hlarge, hall⟩ :=
        codePoints_appended_large (Nat.le_of_not_lt hc) (cs.flatMap appendedCodePoint)
      rw [hlarge, mem_append] at hmem
      cases hmem with
      | inl hmem =>
        have hle := hall _ hmem
        have hlt := UInt8.lt_iff_toNat_lt.mp hb
        exact absurd hlt (Nat.not_lt.mpr hle)
      | inr hmem => exact mem_append_right _ (ih hmem)

/-- A byte of an encoding stands for itself in the component, or belongs to an escape. -/
theorem mem_percentEncodeLoop {set : PercentEncodeSet} {cs : List Nat}
    (h : percentEncodeLoop set cs = some text) (hb : b ∈ text) :
    b.toNat ∈ cs ∨ ∃ b', b ∈ percentEncodedByte b' := by
  induction cs generalizing text with
  | nil =>
    cases h
    cases hb
  | cons c cs ih =>
    obtain ⟨first, hfirst, h⟩ := bind_eq_some_iff.mp h
    obtain ⟨rest, hrest, h⟩ := bind_eq_some_iff.mp h
    cases h
    cases mem_append.mp hb with
    | inl hb =>
      rw [percentEncodedIfNecessary] at hfirst
      split at hfirst
      · rw [percentEncoded_eq_some hfirst] at hb
        obtain ⟨b', -, hb'⟩ := mem_flatMap.mp hb
        exact .inr ⟨b', hb'⟩
      · next hset =>
        obtain ⟨b', rfl, hb'⟩ := exists_byte_of_not_isIn hset
        cases hfirst
        rw [appendedCodePoint_ascii hb'.1, mem_singleton] at hb
        rw [hb]
        exact .inl mem_cons_self
    | inr hb => exact (ih hrest hb).imp (mem_cons_of_mem c) id

theorem not_forbidden_digit {n : Nat} (h : n < 16) :
    byte (Nat.digitChar n).toUpper ∉ forbiddenHostCodePointsExcludingPercent := by
  have hall : ∀ n < 16,
      byte (Nat.digitChar n).toUpper ∉ forbiddenHostCodePointsExcludingPercent := by decide
  exact hall n h

theorem not_forbidden_of_mem_percentEncodedByte {b' : UInt8} (h : b ∈ percentEncodedByte b') :
    b ∉ forbiddenHostCodePointsExcludingPercent := by
  have hlt := b'.toNat_lt
  rw [percentEncodedByte, hexDigits, mem_cons, mem_cons, mem_singleton] at h
  rcases h with rfl | rfl | rfl
  · decide
  · exact not_forbidden_digit (by omega)
  · exact not_forbidden_digit (by omega)

theorem any_contains_eq_false {characters : List UInt8}
    (h : (characters.any fun c => text.contains c) = false) : ∀ b ∈ text, b ∉ characters := by
  intro b hb hmem
  rw [List.any_eq_false] at h
  exact h b hmem (contains_iff_mem.mpr hb)

theorem opaqueHost_of_parse {host : List UInt8} (hbuffer : Appended buffer)
    (h : parseHost buffer true = some (some host)) :
    OpaqueHost host ∧ (host = [] → buffer = []) := by
  rw [parseHost] at h
  split at h
  · split at h <;> cases h
  · rw [if_pos rfl, parseOpaqueHost] at h
    split at h
    · cases h
    · next hforbidden =>
      obtain ⟨text, htext, heq⟩ := map_eq_some_iff.mp h
      cases heq
      refine ⟨fun b hb => ⟨unencoded_percentEncode htext b hb, ?_⟩, fun hnil => ?_⟩
      · cases mem_percentEncodeLoop htext hb with
        | inl hmem =>
          refine any_contains_eq_false (Bool.not_eq_true _ ▸ hforbidden) b ?_
          exact hbuffer.mem_of_ascii (unencoded_percentEncode htext b hb).1 hmem
        | inr hescape =>
          obtain ⟨b', hb'⟩ := hescape
          exact not_forbidden_of_mem_percentEncodedByte hb'
      · have hlength := percentEncode_length htext
        rw [hnil] at hlength
        exact length_eq_zero_iff.mp (Nat.le_zero.mp hlength)

theorem percentDecode_ne_nil (h : text ≠ []) : percentDecode text ≠ [] := by
  rw [percentDecode]
  split
  · cases text with
    | nil => exact absurd rfl h
    | cons b text =>
      rw [percentDecodeLoop]
      split
      · exact fun hnil => appendedCodePoint_ne_nil _ (append_eq_nil_iff.mp hnil).1
      · split
        · exact fun hnil => appendedCodePoint_ne_nil _ (append_eq_nil_iff.mp hnil).1
        · exact cons_ne_nil _ _
  · exact h

theorem specialHost_of_parse {host : List UInt8} (h : parseHost buffer false = some (some host)) :
    SpecialHost host := by
  rw [parseHost] at h
  split at h
  · split at h <;> cases h
  · rw [if_neg Bool.false_ne_true] at h
    split at h
    · cases h
    · next hempty =>
      dsimp only at h
      split at h
      · cases h
      · next hforbidden =>
        cases h
        refine ⟨percentDecode_ne_nil (by simpa using hempty), ?_⟩
        exact any_contains_eq_false (Bool.not_eq_true _ ▸ hforbidden)

theorem keepsShape_withHost {isNotSpecial : Bool} {f : List UInt8 → Step}
    (h : ∀ host, parseHost p.buffer isNotSpecial = some (some host) → KeepsShape input (f host)) :
    KeepsShape input (withHost isNotSpecial p f) := by
  rw [withHost]
  cases hparse : parseHost p.buffer isNotSpecial with
  | none => trivial
  | some host =>
    cases host with
    | none => trivial
    | some host => exact h host hparse

theorem beforePath_withHost {host : List UInt8} (hscheme : SchemeText scheme)
    (hfile : scheme ≠ URL.file) (hbuffer : Appended buffer)
    (h : parseHost buffer (!(withScheme scheme).isSpecial) = some (some host)) :
    BeforePath { withScheme scheme with host := some host } ∧ (host = [] → buffer = []) := by
  have hspecial : (withScheme scheme).isSpecial = isSpecialScheme scheme := rfl
  have hport : PortShape scheme none := fun _ hport => (nomatch hport)
  have hshape : HostShape scheme host none ∧ (host = [] → buffer = []) := by
    rw [HostShape, if_neg hfile]
    rw [hspecial] at h
    cases hscheme : isSpecialScheme scheme with
    | true =>
      rw [hscheme] at h
      have hhost := specialHost_of_parse h
      exact ⟨⟨hhost, hport⟩, fun hnil => absurd hnil hhost.1⟩
    | false =>
      rw [hscheme] at h
      have hhost := opaqueHost_of_parse hbuffer h
      exact ⟨⟨hhost.1, hport, fun _ => rfl⟩, hhost.2⟩
  refine ⟨⟨⟨⟨scheme, rfl, hscheme⟩, rfl, rfl, fun host' hhost' => ?_, fun h => (nomatch h)⟩,
    rfl, rfl, rfl, fun _ => some_ne_none _⟩, hshape.2⟩
  cases hhost'
  exact hshape.1

theorem keepsShape_host (hstate : p.state = .host)
    (h : (∃ scheme, SchemeText scheme ∧ scheme ≠ URL.file ∧ p.url = withScheme scheme) ∧
      Appended p.buffer) : KeepsShape input (URLParser.host (codePoint input p) p) := by
  obtain ⟨⟨scheme, hscheme, hfile, hurl⟩, hbuffer⟩ := h
  have hstay : ∀ p' : URLParser, p'.state = p.state → p'.url = p.url → Appended p'.buffer →
      KeepsShape input (.next p') := by
    intro p' hp' hurl' happended
    refine keepsShape_next (by rw [hurl', hurl]; exact shaped_withScheme hscheme) ?_
    rw [Shape]
    rw [hp', hstate, hurl', hurl]
    exact ⟨⟨scheme, hscheme, hfile, rfl⟩, happended⟩
  have hport : ∀ host, parseHost p.buffer (!p.url.isSpecial) = some (some host) →
      BeforePath { p.url with host := some host } ∧ (host = [] → p.buffer = []) := by
    intro host hparse
    rw [hurl] at hparse ⊢
    exact beforePath_withHost hscheme hfile hbuffer hparse
  have hfile' : p.url.scheme ≠ some URL.file := by
    rw [hurl]
    exact fun heq => hfile (some.inj heq)
  have hnone : p.url.port = none := by rw [hurl]; rfl
  rw [URLParser.host]
  split
  · next hcolon =>
    have hlt := lt_of_isChar (Bool.and_eq_true_iff.mp hcolon).1
    split
    · trivial
    · next hempty =>
      refine keepsShape_withHost fun host hparse => ?_
      obtain ⟨hbefore, hnil⟩ := hport host hparse
      refine keepsShape_next_lt hlt ⟨hbefore, hfile', hnone, some_ne_none _,
        forall_mem_nil _, fun heq => ?_⟩
      exact absurd (hnil (some.inj heq)) (by simpa using hempty)
  split
  · next hend =>
    split
    · trivial
    · refine keepsShape_withHost fun host hparse => ?_
      obtain ⟨hbefore, hnil⟩ := hport host hparse
      refine ⟨hbefore, hfile', hnone, some_ne_none _, forall_mem_nil _,
        fun heq => ⟨rfl, ?_⟩⟩
      exact isAsciiDigit_of_end hend
  split
  · exact hstay _ rfl rfl hbuffer
  split
  · exact hstay _ rfl rfl hbuffer
  · exact hstay _ rfl rfl (hbuffer.append _)

theorem digit_notMem_whitespace (h : isAsciiDigit b.toNat = true) : b ∉ StringUtils.whitespace := by
  have hall : ∀ n < 256, isAsciiDigit (UInt8.ofNat n).toNat = true →
      UInt8.ofNat n ∉ StringUtils.whitespace := by decide
  exact forall_byte (P := fun b => isAsciiDigit b.toNat = true → b ∉ StringUtils.whitespace)
    hall b h

theorem convertToUint_digits {port : Nat} (hbuffer : ∀ b ∈ buffer, isAsciiDigit b.toNat = true)
    (h : StringUtils.convertToUint 32 buffer .yes = some port) : port < 10 := by
  cases buffer with
  | nil => cases h
  | cons b buffer =>
    rw [StringUtils.convertToUint_cons (by decide)
      (fun x hx => digit_notMem_whitespace (hbuffer x hx))] at h
    split at h
    · next hdigit =>
      cases h
      exact StringUtils.digit_lt hdigit
    · cases h

theorem isAsciiDigit_lt (h : isAsciiDigit c = true) : c < 0x80 := by
  simp only [isAsciiDigit, decide_eq_true_eq] at h
  omega

theorem BeforePath.withPort (h : BeforePath url) (hfile : url.scheme ≠ some URL.file)
    (hhost : url.host ≠ none) {port : Option Nat}
    (hshape : PortShape (url.scheme.getD []) port) (hempty : url.host = some [] → port = none) :
    BeforePath { url with port := port } :=
  { h with
    port := fun hnone => absurd hnone hhost
    host := fun host hmem => by
      have hold := h.host host hmem
      obtain ⟨scheme, hscheme, -⟩ := h.scheme
      rw [hscheme] at hfile hshape hold
      rw [HostShape] at hold ⊢
      have hne : scheme ≠ URL.file := fun heq => hfile (congrArg some heq)
      simp only [hscheme, getD_some, if_neg hne] at hold hshape ⊢
      split
      · next hspecial =>
        rw [if_pos hspecial] at hold
        exact ⟨hold.1, hshape⟩
      · next hspecial =>
        rw [if_neg hspecial] at hold
        refine ⟨hold.1, hshape, fun hnil => hempty ?_⟩
        rw [← hnil]
        exact hmem }

theorem keepsShape_port (hstate : p.state = .port)
    (h : BeforePath p.url ∧ p.url.scheme ≠ some URL.file ∧ p.url.port = none ∧ p.url.host ≠ none ∧
      (∀ b ∈ p.buffer, isAsciiDigit b.toNat = true) ∧
      (p.url.host = some [] → p.buffer = [] ∧ isAsciiDigit (codePoint input p) = false)) :
    KeepsShape input (URLParser.port (codePoint input p) p) := by
  obtain ⟨hbefore, hfile, hport, hhost, hbuffer, hempty⟩ := h
  rw [URLParser.port]
  split
  · next hdigit =>
    obtain ⟨b, hb, hcode⟩ := exists_byte (isAsciiDigit_lt hdigit)
    refine keepsShape_next_lt (lt_of_isAscii (isAsciiDigit_lt hdigit)) ?_
    rw [Shape]
    rw [hstate]
    refine ⟨hbefore, hfile, hport, hhost, ?_, fun hnil => ?_⟩
    · rw [← hcode, appendedCodePoint_ascii hb]
      refine forall_mem_append.mpr ⟨hbuffer, forall_mem_singleton.mpr ?_⟩
      rw [hcode]
      exact hdigit
    · rw [(hempty hnil).2] at hdigit
      cases hdigit
  split
  · split
    · exact ⟨hbefore, hhost⟩
    · next hne =>
      split
      · trivial
      · next port hconvert =>
        have hlt := convertToUint_digits hbuffer hconvert
        split
        · trivial
        · refine ⟨hbefore.withPort hfile hhost ?_ ?_, hhost⟩
          · intro n hn
            split at hn
            · cases hn
            · next hdefault =>
              cases hn
              exact ⟨hlt, hdefault⟩
          · intro hnil
            rw [(hempty hnil).1] at hne
            exact absurd rfl hne
  · trivial

theorem based_file {host : List UInt8} (hhost : OpaqueHost host) (hlocalhost : host ≠ localhost) :
    Based { withScheme URL.file with host := some host } where
  scheme := ⟨URL.file, rfl, schemeText_file⟩
  username := rfl
  password := rfl
  host := fun host' hhost' => by
    cases hhost'
    show HostShape URL.file host none
    rw [HostShape, if_pos rfl]
    exact ⟨hhost, hlocalhost, rfl⟩
  port := fun h => (nomatch h)

theorem beforePath_file {host : List UInt8} (hhost : OpaqueHost host)
    (hlocalhost : host ≠ localhost) :
    BeforePath { withScheme URL.file with host := some host } where
  toBased := based_file hhost hlocalhost
  query := rfl
  fragment := rfl
  cannotBeABaseUrl := rfl
  hostless := fun _ => some_ne_none _

theorem beforePath_file_empty : BeforePath { withScheme URL.file with host := some [] } :=
  beforePath_file (fun _ hb => (nomatch hb)) (by decide)

theorem shaped_file : Shaped { withScheme URL.file with host := some [] } :=
  beforePath_file_empty.shaped fun _ hfile => absurd rfl hfile

theorem keepsShape_file (hstate : p.state = .file)
    (h : (p.url = withScheme URL.file ∨ p.url = { withScheme URL.file with host := some [] }) ∧
      p.buffer = []) : KeepsShape input (URLParser.file input none c p) := by
  have hurl : { p.url with scheme := some URL.file, host := some [] } =
      { withScheme URL.file with host := some [] } := by
    cases h.1 with
    | inl h => rw [h]; rfl
    | inr h => rw [h]; rfl
  unfold URLParser.file
  rw [hurl]
  split
  · exact keepsShape_next shaped_file ⟨rfl, h.2⟩
  · exact keepsShape_stay hstate shaped_file ⟨.inr rfl, h.2⟩

theorem keepsShape_fileSlash (hstate : p.state = .fileSlash)
    (h : p.url = { withScheme URL.file with host := some [] } ∧ p.buffer = []) :
    KeepsShape input (fileSlash input none c p) := by
  have hshaped : Shaped p.url := by
    rw [h.1]
    exact shaped_file
  unfold fileSlash
  split
  · refine keepsShape_next hshaped ⟨h.1, ?_⟩
    rw [h.2]
    exact appended_nil
  · exact keepsShape_stay hstate hshaped h

theorem keepsShape_fileHost (hstate : p.state = .fileHost)
    (h : p.url = { withScheme URL.file with host := some [] } ∧ Appended p.buffer) :
    KeepsShape input (fileHost c p) := by
  have hbefore : BeforePath p.url := by
    rw [h.1]
    exact beforePath_file_empty
  rw [fileHost]
  split
  · split
    · exact hbefore
    split
    · show BeforePath { p.url with host := some [] } ∧ _
      rw [h.1]
      exact ⟨beforePath_file_empty, some_ne_none _⟩
    · refine keepsShape_withHost fun host hparse => ?_
      have hhost := (opaqueHost_of_parse h.2 hparse).1
      rw [h.1]
      refine ⟨beforePath_file ?_ ?_, some_ne_none _⟩
      · split
        · exact forall_mem_nil _
        · exact hhost
      · split
        · decide
        · next hne => exact hne
  · exact keepsShape_stay hstate (by rw [h.1]; exact shaped_file) ⟨h.1, h.2.append c⟩

/-! ## Paths, queries and fragments -/

theorem BeforePath.withPaths (h : BeforePath url) (paths : List (List UInt8)) :
    BeforePath { url with paths := paths } :=
  { h with }

theorem removeLastPath_eq (url : URL) :
    removeLastPath url = { url with paths := (removeLastPath url).paths } := by
  rw [removeLastPath]
  split <;> rfl

theorem endSegment_eq (slash : Bool) (url : URL) (buffer : List UInt8) :
    endSegment slash url buffer = { url with paths := (endSegment slash url buffer).paths } := by
  have hremove := removeLastPath_eq url
  unfold endSegment
  split
  · rw [hremove]
    split <;> rfl
  split
  · rfl
  split
  · rfl
  · rfl

theorem endSegment_paths_ne_nil (url : URL) (buffer : List UInt8) :
    (endSegment false url buffer).paths ≠ [] := by
  unfold endSegment
  split
  · rw [if_neg Bool.false_ne_true]
    exact append_ne_nil_of_right_ne_nil _ (cons_ne_nil _ _)
  · cases isSingleDotPathSegment buffer with
    | true => exact append_ne_nil_of_right_ne_nil _ (cons_ne_nil _ _)
    | false => exact append_ne_nil_of_right_ne_nil _ (cons_ne_nil _ _)

theorem BeforePath.endSegment (h : BeforePath url) (slash : Bool) (buffer : List UInt8) :
    BeforePath (endSegment slash url buffer) := by
  rw [endSegment_eq]
  exact h.withPaths _

/-- A query and a fragment after a path, or a host that needs none. -/
theorem BeforePath.withTail (h : BeforePath url)
    (hpaths : url.paths ≠ [] ∨ url.host ≠ none ∧ url.isSpecial = false)
    (query fragment : Option (List UInt8))
    (hquery : ∀ q ∈ query, ∀ b ∈ q, Unencoded (querySet url) b) :
    Shaped { url with query := query, fragment := fragment } :=
  { h with
    query := hquery
    path := fun hbaseless => absurd (h.cannotBeABaseUrl.symm.trans hbaseless) Bool.false_ne_true
    pathless := fun hnil hor => by
      cases hpaths with
      | inl hpaths => exact absurd hnil hpaths
      | inr hhost =>
        cases hor with
        | inl hnone => exact absurd hnone hhost.1
        | inr hspecial => exact absurd (hhost.2.symm.trans hspecial) Bool.false_ne_true
    hostless := fun hspecial hhost => absurd hhost (h.hostless hspecial)
    special := fun hspecial _ _ => hpaths.elim id fun hhost =>
      absurd (hhost.2.symm.trans hspecial) Bool.false_ne_true }

/-- Another query and fragment in place of what is there. -/
theorem Shaped.withTail (h : Shaped url) (hne : url.query ≠ none ∨ url.fragment ≠ none)
    (query fragment : Option (List UInt8))
    (hquery : ∀ q ∈ query, ∀ b ∈ q, Unencoded (querySet url) b) :
    Shaped { url with query := query, fragment := fragment } :=
  { h with
    query := hquery
    pathless := fun hnil hor => by
      obtain ⟨hquery, hfragment, -⟩ := h.pathless hnil hor
      cases hne with
      | inl hne => exact absurd hquery hne
      | inr hne => exact absurd hfragment hne }

theorem unencoded_nil (set : PercentEncodeSet) :
    ∀ q ∈ some ([] : List UInt8), ∀ b ∈ q, Unencoded set b := by
  intro q hq
  cases hq
  exact fun _ hb => (nomatch hb)

theorem shaped_withOpaquePath (hscheme : SchemeText scheme) (hspecial : isSpecialScheme scheme = false)
    (path : List UInt8) (query fragment : Option (List UInt8))
    (hquery : ∀ q ∈ query, ∀ b ∈ q, Unencoded .query b) : Shaped { withScheme scheme with
      cannotBeABaseUrl := true, paths := [path], query := query, fragment := fragment } where
  toBased := ⟨⟨scheme, rfl, hscheme⟩, rfl, rfl, fun _ hhost => (nomatch hhost), fun _ => rfl⟩
  query := by
    have hset : querySet (withScheme scheme) = .query := by
      rw [querySet, show (withScheme scheme).isSpecial = false from hspecial]
      rfl
    intro q hq
    show ∀ b ∈ q, Unencoded (querySet (withScheme scheme)) b
    rw [hset]
    exact hquery q hq
  path := fun _ => ⟨hspecial, rfl, path, rfl⟩
  pathless := fun hnil => (nomatch hnil)
  hostless := fun hspecial' => absurd (hspecial.symm.trans hspecial') Bool.false_ne_true
  special := fun hspecial' => absurd (hspecial.symm.trans hspecial') Bool.false_ne_true

theorem keepsShape_pathStart (hstate : p.state = .pathStart)
    (h : BeforePath p.url ∧ p.url.host ≠ none) :
    KeepsShape input (pathStart (codePoint input p) p) := by
  obtain ⟨hbefore, hhost⟩ := h
  rw [pathStart]
  split
  · split
    · exact hbefore
    · next hslash =>
      have hlt : p.position < input.length := by
        simp only [Bool.and_eq_true, Bool.not_eq_true', not_and_or, Bool.not_eq_false] at hslash
        cases hslash with
        | inl hslash => exact lt_of_isChar hslash
        | inr hbackslash => exact lt_of_isChar hbackslash
      exact keepsShape_next_lt hlt hbefore
  · next hspecial =>
    have hspecial' : p.url.isSpecial = false := by simpa using hspecial
    have hshaped := hbefore.shaped fun hspecial => absurd (hspecial'.symm.trans hspecial)
      Bool.false_ne_true
    have hpaths : p.url.paths ≠ [] ∨ p.url.host ≠ none ∧ p.url.isSpecial = false :=
      .inr ⟨hhost, hspecial'⟩
    split
    · have hshaped := hbefore.withTail hpaths (some []) p.url.fragment
        (unencoded_nil (querySet p.url))
      exact keepsShape_next hshaped ⟨hshaped, some_ne_none _⟩
    split
    · have hshaped := hbefore.withTail hpaths p.url.query (some [])
        (fun q hq => by rw [hbefore.query] at hq; cases hq)
      exact keepsShape_next hshaped ⟨hshaped, some_ne_none _⟩
    split
    · split
      · exact keepsShape_next hshaped hbefore
      · exact hbefore
    · exact keepsShape_stay hstate hshaped ⟨hbefore, hhost⟩

theorem keepsShape_path (hstate : p.state = .path) (h : BeforePath p.url) :
    KeepsShape input (path (codePoint input p) p) := by
  have hstay : ∀ p' : URLParser, p'.state = p.state → BeforePath p'.url →
      Shape input { p' with position := p'.position + 1 } := by
    intro p' hp' hbefore
    rw [Shape]
    rw [hp', hstate]
    exact hbefore
  rw [path]
  split
  · have hbefore : ∀ slash, BeforePath (endSegment slash p.url p.buffer) := fun slash =>
      h.endSegment slash p.buffer
    have hpaths := endSegment_paths_ne_nil p.url p.buffer
    split
    · next hquestion =>
      have hslash : (isSlash (codePoint input p) ||
          isSpecialBackslash p.url (codePoint input p)) = false := by
        rw [isChar, beq_iff_eq] at hquestion
        simp [hquestion, isSlash, isSpecialBackslash, isChar, byte]
      rw [hslash]
      have hshaped := (hbefore false).withTail (.inl hpaths) (some [])
        (endSegment false p.url p.buffer).fragment
        (unencoded_nil (querySet (endSegment false p.url p.buffer)))
      exact keepsShape_next hshaped ⟨hshaped, some_ne_none _⟩
    split
    · next hnumber =>
      have hslash : (isSlash (codePoint input p) ||
          isSpecialBackslash p.url (codePoint input p)) = false := by
        rw [isChar, beq_iff_eq] at hnumber
        simp [hnumber, isSlash, isSpecialBackslash, isChar, byte]
      rw [hslash]
      have hshaped := (hbefore false).withTail (.inl hpaths)
        (endSegment false p.url p.buffer).query (some [])
        (fun q hq => by rw [(hbefore false).query] at hq; cases hq)
      exact keepsShape_next hshaped ⟨hshaped, some_ne_none _⟩
    · cases hslash : isSlash (codePoint input p) || isSpecialBackslash p.url (codePoint input p) with
      | false =>
        exact keepsShape_next ((hbefore false).shaped fun _ _ => hpaths) (hstay _ rfl (hbefore _))
      | true =>
        have hlt : p.position < input.length := by
          rw [Bool.or_eq_true] at hslash
          cases hslash with
          | inl hslash => exact lt_of_isChar hslash
          | inr hbackslash => exact lt_of_isChar (Bool.and_eq_true_iff.mp hbackslash).2
        exact keepsShape_next_lt hlt (hstay _ rfl (hbefore _))
  · next hend =>
    rw [Bool.or_eq_true, not_or, Bool.not_eq_true] at hend
    have hlt := lt_of_codePoint_ne (isDelimiter_eq_false hend.1)
    cases percentEncodedIfNecessary (codePoint input p) .path with
    | none => trivial
    | some text => exact keepsShape_next_lt hlt (hstay _ rfl h)

theorem keepsShape_cannotBeABaseUrlPath (hstate : p.state = .cannotBeABaseUrlPath)
    (h : ∃ scheme, SchemeText scheme ∧ isSpecialScheme scheme = false ∧
      p.url = { withScheme scheme with cannotBeABaseUrl := true, paths := [[]] }) :
    KeepsShape input (cannotBeABaseUrlPath (codePoint input p) p) := by
  obtain ⟨scheme, hscheme, hspecial, hurl⟩ := h
  have hnone : ∀ q ∈ (none : Option (List UInt8)), ∀ b ∈ q, Unencoded .query b :=
    fun _ hq => (nomatch hq)
  rw [cannotBeABaseUrlPath, hurl, if_pos rfl]
  split
  · have hshaped := shaped_withOpaquePath hscheme hspecial (percentDecode p.buffer) (some [])
      none (unencoded_nil .query)
    exact keepsShape_next hshaped ⟨hshaped, some_ne_none _⟩
  split
  · have hshaped := shaped_withOpaquePath hscheme hspecial (percentDecode p.buffer) none
      (some []) hnone
    exact keepsShape_next hshaped ⟨hshaped, some_ne_none _⟩
  have hshaped : ∀ path, Shaped { withScheme scheme with
      cannotBeABaseUrl := true, paths := [path] } := fun path =>
    shaped_withOpaquePath hscheme hspecial path none none hnone
  split
  · cases percentEncodedIfNecessary (codePoint input p) .c0Control with
    | none => trivial
    | some text => exact keepsShape_stay hstate (hshaped _) ⟨scheme, hscheme, hspecial, rfl⟩
  · next hend =>
    have hle := length_le_of_codePoint (not_not.mp hend)
    exact ⟨fun hlt => absurd hlt (Nat.not_lt.mpr hle), fun _ => hshaped _⟩

theorem unencoded_percentEncodeAfterEncoding (text : List UInt8) (set : PercentEncodeSet) :
    ∀ b ∈ percentEncodeAfterEncoding text set, Unencoded set b := by
  intro b hb
  obtain ⟨b', -, hb'⟩ := mem_flatMap.mp hb
  dsimp only at hb'
  generalize (if b' < 0x80 then b'.toNat else b'.toNat + 0xFFFFFF00) = isomorph at hb'
  split at hb'
  · exact unencoded_percentEncodedByte b' set b hb'
  · next hset =>
    obtain ⟨b'', heq, hb''⟩ := exists_byte_of_not_isIn hset
    rw [← heq, appendedCodePoint_ascii hb''.1, mem_singleton] at hb'
    rw [hb']
    exact hb''

theorem keepsShape_query (hstate : p.state = .query) (h : Shaped p.url ∧ p.url.query ≠ none) :
    KeepsShape input (query c p) := by
  unfold query
  by_cases hend : c = endOfFile ∨ isChar c '#'
  · rw [if_pos hend]
    split
    · dsimp only
      have hquery : ∀ fragment, Shaped { p.url with
          query := some (percentEncodeAfterEncoding p.buffer (querySet p.url))
          fragment := fragment } := fun fragment =>
        h.1.withTail (.inl h.2) _ _ fun q hq => by
          cases hq
          exact unencoded_percentEncodeAfterEncoding _ _
      split
      · exact keepsShape_next (hquery _) ⟨hquery _, some_ne_none _⟩
      · exact keepsShape_stay hstate (hquery p.url.fragment)
          ⟨hquery p.url.fragment, some_ne_none _⟩
    · trivial
  · rw [if_neg hend]
    exact keepsShape_stay hstate h.1 h

theorem keepsShape_fragment (hstate : p.state = .fragment)
    (h : Shaped p.url ∧ p.url.fragment ≠ none) : KeepsShape input (fragment c p) := by
  rw [fragment]
  split
  · exact keepsShape_stay hstate h.1 h
  · have hfragment := h.1.withTail (.inr h.2) p.url.query (some (percentDecode p.buffer))
      h.1.query
    exact keepsShape_stay hstate hfragment ⟨hfragment, some_ne_none _⟩

theorem keepsShape_step (h : Shape input p) : KeepsShape input (step input none p) := by
  rw [step]
  rw [Shape] at h
  cases hstate : p.state with
  | schemeStart => rw [hstate] at h; exact keepsShape_schemeStart h
  | scheme => rw [hstate] at h; exact keepsShape_scheme hstate h
  | noScheme => trivial
  | specialRelativeOrAuthority => rw [hstate] at h; exact h.elim
  | pathOrAuthority => rw [hstate] at h; exact keepsShape_pathOrAuthority h
  | relative => rw [hstate] at h; exact h.elim
  | relativeSlash => rw [hstate] at h; exact h.elim
  | specialAuthoritySlashes => rw [hstate] at h; exact keepsShape_specialAuthoritySlashes h
  | specialAuthorityIgnoreSlashes =>
    rw [hstate] at h; exact keepsShape_specialAuthorityIgnoreSlashes hstate h
  | authority => rw [hstate] at h; exact keepsShape_authority hstate h
  | host => rw [hstate] at h; exact keepsShape_host hstate h
  | hostname => rw [hstate] at h; exact h.elim
  | port => rw [hstate] at h; exact keepsShape_port hstate h
  | file => rw [hstate] at h; exact keepsShape_file hstate h
  | fileSlash => rw [hstate] at h; exact keepsShape_fileSlash hstate h
  | fileHost => rw [hstate] at h; exact keepsShape_fileHost hstate h
  | pathStart => rw [hstate] at h; exact keepsShape_pathStart hstate h
  | path => rw [hstate] at h; exact keepsShape_path hstate h
  | cannotBeABaseUrlPath => rw [hstate] at h; exact keepsShape_cannotBeABaseUrlPath hstate h
  | query => rw [hstate] at h; exact keepsShape_query hstate h
  | fragment => rw [hstate] at h; exact keepsShape_fragment hstate h

/-! ## Runs -/

theorem Shaped.withValid (h : Shaped url) (valid : Bool) : Shaped { url with valid := valid } :=
  { h with }

theorem shaped_of_mainLoop (h : Shape input p) (hrun : mainLoop input none p = .url url)
    (hvalid : url.valid = true) : Shaped url := by
  obtain ⟨url', hshaped, rfl⟩ := exists_of_mainLoop (fun _ => keepsShape_step) h hrun hvalid
  exact hshaped.withValid true

/-- A valid URL that `parse` makes without a base URL is shaped, but for data URLs. -/
theorem shaped_of_parse {rawInput : List UInt8} (h : parse rawInput none none none = .url url)
    (hvalid : url.valid = true) (hdata : url.scheme ≠ some data) : Shaped url := by
  cases parse_cases h with
  | inl hnew =>
    subst hnew
    cases hvalid
  | inr h =>
    cases h with
    | inl hofData =>
      obtain ⟨mimeType, payload, isBase64, rfl⟩ := hofData
      exact absurd rfl hdata
    | inr hloop =>
      obtain ⟨input, -, hloop⟩ := hloop
      exact shaped_of_mainLoop (p := start none none) ⟨rfl, rfl⟩ hloop hvalid

end Literate.AK.URLParser

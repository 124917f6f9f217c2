import Literate.AK.URLPaths

/-!
# AK: parsing a serialized URL

`serialize` writes the components that the parser has decoded, encoded anew.  What is
parsed from it has the components that the URL has exactly when they are `Stable`.
-/

namespace Literate.AK.URLParser

open Foundation Utf8View URL List Option

set_option maxRecDepth 8192

/-- The components that are compared. -/
structure SameComponents (url' url : URL) : Prop where
  valid : url'.valid = true
  scheme : url'.scheme = url.scheme
  host : url'.host = url.host
  port : url'.port = url.port
  paths : url'.paths = url.paths
  query : url'.query = url.query
  fragment : url'.fragment = url.fragment

/-- Parsing what a URL is serialized as gives its components. -/
def RoundTrips (url : URL) : Prop :=
  ∃ text url', url.serialize = some text ∧ parse text none none none = .url url' ∧
    SameComponents url' url

/-- An opaque path that survives, and with it the fragment where there is no query: what the
parser has read of the path is still in its buffer there. -/
structure StableOpaque (url : URL) (path : List UInt8) : Prop where
  plain : Plain path
  slash : path.head? ≠ some (byte '/')
  query : url.query ≠ none → path = []
  fragment : url.query = none → ∀ fragment ∈ url.fragment, ∃ text text',
    percentEncode path .path = some text ∧ percentEncode fragment .fragment = some text' ∧
      percentDecode (text ++ text') = fragment

/-- What survives a round. -/
structure Stable (url : URL) : Prop where
  host : ∀ host ∈ url.host, ∀ b ∈ host, b < 0x80
  pathless : url.paths = [] → url.isSpecial = false ∧ url.host ≠ none
  opaquePath : url.cannotBeABaseUrl = true → ∀ path ∈ url.paths, StableOpaque url path
  segments : url.cannotBeABaseUrl = false → ∀ segment ∈ url.paths, StableSegment url segment
  drive : url.cannotBeABaseUrl = false → StableDrive url url.paths
  fragment : url.cannotBeABaseUrl = false ∨ url.query ≠ none →
    ∀ fragment ∈ url.fragment, Plain fragment

/-! ## The text -/

/-- `{}` of a port, with its colon. -/
def portText : Option Nat → List UInt8
  | none => []
  | some port => byte ':' :: decimalPort port

/-- The host and the port, as `serialize` writes them. -/
def hostText : Option (List UInt8) → Option Nat → List UInt8
  | none, _ => []
  | some host, port => byte '/' :: byte '/' :: host ++ portText port

/-- The texts of a fragment. -/
inductive FragmentText : Option (List UInt8) → Option (List UInt8) → Prop
  | none : FragmentText none none
  | some {fragment text : List UInt8} (h : percentEncode fragment .fragment = some text) :
      FragmentText (some fragment) (some text)

variable {url : URL} {text pathText scheme : List UInt8} {fragment : Option (List UInt8)}

theorem serializeFragment_eq_some : url.serializeFragment = some text ↔
      ∃ fragment, FragmentText url.fragment fragment ∧ text = fragmentText fragment := by
  rw [serializeFragment]
  constructor
  · intro h
    cases hfragment : url.fragment with
    | none =>
      rw [hfragment] at h
      cases h
      exact ⟨none, .none, rfl⟩
    | some fragment =>
      rw [hfragment] at h
      obtain ⟨text', hencode, h⟩ := bind_eq_some_iff.mp h
      cases h
      exact ⟨some text', .some hencode, rfl⟩
  · rintro ⟨fragment, hfragment, rfl⟩
    generalize url.fragment = original at hfragment
    cases hfragment with
    | none => rfl
    | some hencode =>
      dsimp only
      rw [hencode]
      rfl

theorem serialize_eq_some (h : Shaped url) (hdata : url.scheme ≠ some data)
    (hscheme : url.scheme = some scheme) :
    url.serialize = some text ↔ ∃ pathText fragment, url.serializePath = some pathText ∧
      FragmentText url.fragment fragment ∧
      text = scheme ++ byte ':' :: (hostText url.host url.port ++
        (pathText ++ (queryText url.query ++ fragmentText fragment))) := by
  have hcredentials : url.includesCredentials = false := by
    rw [includesCredentials, h.username, h.password]
    rfl
  have hhost : url.serializeHost = some (hostText url.host url.port) := by
    rw [serializeHost, serializeCredentials, hcredentials]
    cases hhost : url.host with
    | none => rfl
    | some host =>
      cases url.port with
      | none => simp [hostText, portText, literal]
      | some port => simp [hostText, portText, literal]
  have hquery : url.serializeQuery = some (queryText url.query) := by
    rw [serializeQuery]
    cases hquery : url.query with
    | none => rfl
    | some query =>
      have hencode := percentEncode_unencoded (h.query query hquery)
      rw [querySet] at hencode
      dsimp only
      rw [hencode]
      rfl
  rw [serialize, if_neg hdata, hhost, hquery, hscheme]
  simp only [bind_eq_bind, bind_some, getD_some]
  constructor
  · intro hserialize
    obtain ⟨pathText, hpath, hserialize⟩ := bind_eq_some_iff.mp hserialize
    obtain ⟨text', hfragment', hserialize⟩ := bind_eq_some_iff.mp hserialize
    obtain ⟨fragment, hfragment, rfl⟩ := serializeFragment_eq_some.mp hfragment'
    cases hserialize
    exact ⟨pathText, fragment, hpath, hfragment, by simp⟩
  · rintro ⟨pathText, fragment, hpath, hfragment, rfl⟩
    rw [hpath, serializeFragment_eq_some.mpr ⟨fragment, hfragment, rfl⟩]
    simp

/-! ## Clean texts -/

/-- A text that `parse` reads as it is. -/
structure Clean (text : List UInt8) : Prop where
  first : ∀ b ∈ text.head?, 0x20 < b
  last : ∀ b ∈ text.getLast?, 0x20 < b
  inner : ∀ b ∈ text, b ≠ 0x09 ∧ b ≠ 0x0a

theorem takeWhile_eq_nil_of_head? (h : ∀ b ∈ text.head?, 0x20 < b) :
    text.takeWhile (· ≤ 0x20) = [] := by
  cases text with
  | nil => rfl
  | cons b text =>
    rw [takeWhile_cons, if_neg]
    rw [decide_eq_true_eq, UInt8.not_le]
    exact h b rfl

theorem Clean.processedInput (h : Clean text) (hne : text ≠ []) :
    processedInput text none = some text := by
  have hstart := takeWhile_eq_nil_of_head? h.first
  have hend : text.reverse.takeWhile (· ≤ 0x20) = [] :=
    takeWhile_eq_nil_of_head? (by rw [List.head?_reverse]; exact h.last)
  have hlength := length_pos_of_ne_nil hne
  have hfilter : withoutTabsAndNewlines text = text := by
    rw [withoutTabsAndNewlines, filter_eq_self]
    exact fun b hb => decide_eq_true (h.inner b hb)
  rw [URLParser.processedInput, stripped, hstart, hend]
  simp only [length_nil, Nat.sub_zero, drop_zero, take_length]
  rw [if_neg (Nat.not_le.mpr hlength), map_some, hfilter]

theorem parse_of_comes {r : Result} (hclean : Clean text) (hne : text ≠ [])
    (hdata : startsWith text dataColon = false) (h : Comes text .schemeStart URL.new [] text r) :
    parse text none none none = r := by
  rw [parse, if_neg (by simpa using hne), hdata, if_neg Bool.false_ne_true,
    hclean.processedInput hne]
  exact h (start none none) ⟨rfl, rfl, rfl, rfl, rfl, rfl, drop_zero, Nat.zero_add _⟩

theorem comes_schemeText {input rest : List UInt8} {r : Result} (hscheme : SchemeText scheme)
    (h : Comes input .scheme url scheme rest r) :
    Comes input .schemeStart url [] (scheme ++ rest) r := by
  have hrun : ∀ (text buffer : List UInt8), (∀ b ∈ text, SchemeByte b) →
      Comes input .scheme url (buffer ++ text) rest r →
      Comes input .scheme url buffer (text ++ rest) r := by
    intro text
    induction text with
    | nil => exact fun buffer _ h => by rwa [append_nil] at h
    | cons b text ih =>
      intro buffer htext h
      obtain ⟨hb, htext⟩ := forall_mem_cons.mp htext
      exact comes_scheme_byte hb (ih _ htext (by simpa using h))
  obtain ⟨⟨b, hhead, halpha⟩, hall⟩ := hscheme
  cases scheme with
  | nil => cases hhead
  | cons b' scheme =>
    cases hhead
    obtain ⟨hb, hscheme⟩ := forall_mem_cons.mp hall
    exact comes_schemeStart hb halpha (hrun scheme [b] hscheme h)

theorem takeWhile_scheme {rest : List UInt8} (h : byte ':' ∉ scheme) :
    (scheme ++ byte ':' :: rest).takeWhile (· ≠ byte ':') = scheme := by
  have hall : ∀ b ∈ scheme, decide (b ≠ byte ':') = true := fun b hb =>
    decide_eq_true fun heq => h (by rw [← heq]; exact hb)
  rw [takeWhile_append_of_pos hall, takeWhile_cons_of_neg (by simp), append_nil]

theorem startsWith_dataColon {rest : List UInt8} (hscheme : SchemeText scheme)
    (hdata : scheme ≠ data) : startsWith (scheme ++ byte ':' :: rest) dataColon = false := by
  by_contra hstarts
  rw [startsWith, Bool.not_eq_false, isPrefixOf_iff_prefix] at hstarts
  obtain ⟨rest', hrest⟩ := hstarts
  have hcolon : byte ':' ∉ scheme := fun hmem =>
    absurd (hscheme.2 _ hmem).2.2 (by decide)
  have hdataColon : dataColon ++ rest' = data ++ byte ':' :: rest' := rfl
  rw [hdataColon] at hrest
  have htake := congrArg (List.takeWhile (· ≠ byte ':')) hrest
  rw [takeWhile_scheme hcolon, takeWhile_scheme (by decide)] at htake
  exact hdata htake.symm

/-- A byte that is not a control or a space. -/
def Graphic (b : UInt8) : Prop := 0x20 < b ∧ b < 0x80

variable {b : UInt8} {original : Option (List UInt8)}

theorem graphic_of_unencoded {set : PercentEncodeSet} (hset : set ≠ .c0Control)
    (h : Unencoded set b) : Graphic b := by
  have hall : ∀ n < 256, ∀ set, set ≠ PercentEncodeSet.c0Control →
      UInt8.ofNat n < 0x80 → codePointIsInPercentEncodeSet (UInt8.ofNat n).toNat set = false →
      0x20 < UInt8.ofNat n := by
    intro n hn set hset
    revert n hn
    cases set <;> first | exact absurd rfl hset | decide
  exact ⟨forall_byte (P := fun b => ∀ set, set ≠ PercentEncodeSet.c0Control →
    b < 0x80 → codePointIsInPercentEncodeSet b.toNat set = false → 0x20 < b) hall b set hset h.1 h.2,
    h.1⟩

theorem graphic_ne (h : Graphic b) : b ≠ 0x09 ∧ b ≠ 0x0a := by
  constructor
  · rintro rfl
    exact absurd h.1 (by decide)
  · rintro rfl
    exact absurd h.1 (by decide)

theorem graphic_of_schemeByte (h : SchemeByte b) : Graphic b := by
  have hall : ∀ n < 256, SchemeByte (UInt8.ofNat n) → Graphic (UInt8.ofNat n) := by
    simp only [SchemeByte, Graphic]
    decide
  exact forall_byte (P := fun b => SchemeByte b → Graphic b) hall b h

theorem clean_text {rest : List UInt8} (hscheme : SchemeText scheme)
    (hinner : ∀ b ∈ rest, b ≠ 0x09 ∧ b ≠ 0x0a) (hlast : ∀ b ∈ rest.getLast?, 0x20 < b) :
    Clean (scheme ++ byte ':' :: rest) where
  first := by
    obtain ⟨⟨b, hhead, -⟩, hall⟩ := hscheme
    rw [List.head?_append, hhead, some_or]
    rintro _ ⟨⟩
    exact (graphic_of_schemeByte (hall b (List.mem_of_head? hhead))).1
  last := by
    rw [List.getLast?_append, List.getLast?_cons]
    cases hrest : rest.getLast? with
    | none =>
      rintro _ ⟨⟩
      decide
    | some b =>
      rintro _ ⟨⟩
      exact hlast b hrest
  inner := by
    rw [forall_mem_append, forall_mem_cons]
    exact ⟨fun b hb => graphic_ne (graphic_of_schemeByte (hscheme.2 b hb)), by decide, hinner⟩

/-! ## Hosts -/

/-- A host that the parser reads as it is. -/
def PlainHost (host : List UInt8) : Prop :=
  ∀ b ∈ host, b < 0x80 ∧ b ∉ forbiddenHostCodePointsExcludingPercent

theorem PlainHost.hostByte {host : List UInt8} (h : PlainHost host) (url : URL) :
    ∀ b ∈ host, HostByte url b ∧ b ≠ byte '@' := by
  have hall : ∀ n < 256, UInt8.ofNat n ∉ forbiddenHostCodePointsExcludingPercent →
      isDelimiter (UInt8.ofNat n).toNat = false ∧
        isChar (UInt8.ofNat n).toNat '\\' = false := by decide
  intro b hb
  obtain ⟨hascii, hforbidden⟩ := h b hb
  obtain ⟨hdelimiter, hbackslash⟩ := forall_byte
    (P := fun b => b ∉ forbiddenHostCodePointsExcludingPercent →
      isDelimiter b.toNat = false ∧ isChar b.toNat '\\' = false) hall b hforbidden
  have hne : ∀ x : Char, byte x ∈ forbiddenHostCodePointsExcludingPercent → b ≠ byte x :=
    fun x hx heq => hforbidden (heq ▸ hx)
  refine ⟨⟨⟨hascii, ?_⟩, hne ':' (by decide), hne '[' (by decide), hne ']' (by decide)⟩,
    hne '@' (by decide)⟩
  rw [hdelimiter, isSpecialBackslash, hbackslash, Bool.and_false]
  rfl

theorem SpecialHost.plainHost {host : List UInt8} (h : SpecialHost host)
    (hascii : ∀ b ∈ host, b < 0x80) : PlainHost host := fun b hb =>
  ⟨hascii b hb, fun hmem => h.2 b hb (mem_cons_of_mem _ hmem)⟩

theorem OpaqueHost.plainHost {host : List UInt8} (h : OpaqueHost host) : PlainHost host :=
  fun b hb => ⟨(h b hb).1.1, (h b hb).2⟩

theorem any_contains_of_notMem {characters : List UInt8} (h : ∀ b ∈ text, b ∉ characters) :
    (characters.any fun c => text.contains c) = false := by
  rw [List.any_eq_false]
  intro c hc hcontains
  exact h c (contains_iff_mem.mp hcontains) hc

theorem PlainHost.head?_ne {host : List UInt8} (h : PlainHost host) :
    host.head? ≠ some (byte '[') := fun hhead =>
  (h _ (List.mem_of_head? hhead)).2 (by decide)

/-- A domain without a percent sign is parsed as it is. -/
theorem parseHost_special {host : List UInt8} (h : SpecialHost host)
    (hascii : ∀ b ∈ host, b < 0x80) : parseHost host false = some (some host) := by
  have hpercent : byte '%' ∉ host := fun hmem => h.2 _ hmem mem_cons_self
  rw [parseHost, if_neg (h.plainHost hascii).head?_ne, if_neg Bool.false_ne_true,
    if_neg (by simpa using h.1), percentDecode_of_notMem hpercent]
  dsimp only
  rw [any_contains_of_notMem h.2, if_neg Bool.false_ne_true]

theorem parseHost_opaqueHost {host : List UInt8} (h : OpaqueHost host) :
    parseHost host true = some (some host) := by
  rw [parseHost, if_neg h.plainHost.head?_ne, if_pos rfl, parseOpaqueHost,
    any_contains_of_notMem fun b hb => (h b hb).2, if_neg Bool.false_ne_true,
    percentEncode_unencoded fun b hb => (h b hb).1]
  rfl

variable {input rest : List UInt8} {r : Result} {host : List UInt8} {port : Option Nat}

/-- The host of a URL that is no file URL, with its port. -/
theorem comes_hostText (hscheme : url.scheme = some scheme) (hplain : PlainHost host)
    (hparse : parseHost host (!url.isSpecial) = some (some host))
    (hempty : host = [] → url.isSpecial = false ∧ port = none) (hport : PortShape scheme port)
    (hnone : url.port = none) (hend : Ends url rest)
    (h : Comes input .pathStart { url with host := some host, port := port } [] rest r) :
    Comes input .host url [] (host ++ (portText port ++ rest)) r := by
  refine comes_host_text (fun b hb => (hplain.hostByte url b hb).1) ?_
  rw [nil_append]
  cases port with
  | none =>
    have hurl : ({ url with host := some host, port := none } : URL) =
        { url with host := some host } := by rw [← hnone]
    rw [hurl] at h
    exact comes_host_end hend (fun hspecial hnil =>
      absurd ((hempty hnil).1.symm.trans hspecial) Bool.false_ne_true) hparse
      (comes_port_end hend h)
  | some port =>
    obtain ⟨hlt, hdefault⟩ := hport port rfl
    have hne : host ≠ [] := fun hnil => (nomatch (hempty hnil).2)
    refine comes_host_colon hne hparse (comes_port hlt ?_ hend h)
    rwa [hscheme]

theorem portText_bytes (url : URL) (hport : PortShape scheme port) :
    ∀ b ∈ portText port, Inner url b ∧ b ≠ byte '@' ∧ Graphic b := by
  cases port with
  | none => exact fun _ hb => (nomatch hb)
  | some port =>
    obtain ⟨hlt, -⟩ := hport port rfl
    have hall : ∀ port < 10, ∀ b ∈ byte ':' :: decimalPort port,
        isDelimiter b.toNat = false ∧ isChar b.toNat '\\' = false ∧ b ≠ byte '@' ∧
          0x20 < b ∧ b < 0x80 := by decide
    intro b hb
    obtain ⟨hdelimiter, hbackslash, hat, hlow, hhigh⟩ := hall port hlt b hb
    refine ⟨⟨hhigh, ?_⟩, hat, hlow, hhigh⟩
    rw [hdelimiter, isSpecialBackslash, hbackslash, Bool.and_false]
    rfl

/-! ## Paths -/

theorem serializeSegments_eq_some {segments : List (List UInt8)} :
    serializeSegments segments = some text ↔
      ∃ texts, Texts segments texts ∧ text = texts.flatMap fun text => byte '/' :: text := by
  induction segments generalizing text with
  | nil =>
    constructor
    · rintro ⟨⟩
      exact ⟨[], .nil, rfl⟩
    · rintro ⟨texts, h, rfl⟩
      cases h
      rfl
  | cons segment segments ih =>
    constructor
    · intro h
      obtain ⟨first, hfirst, h⟩ := bind_eq_some_iff.mp h
      obtain ⟨rest, hrest, h⟩ := bind_eq_some_iff.mp h
      cases h
      obtain ⟨texts, htexts, rfl⟩ := ih.mp hrest
      exact ⟨first :: texts, .cons hfirst htexts, rfl⟩
    · rintro ⟨texts, h, rfl⟩
      cases h with
      | @cons _ first _ texts hfirst htexts =>
        rw [serializeSegments, hfirst, ih.mpr ⟨texts, htexts, rfl⟩]
        rfl

theorem flatMap_eq_joined {texts : List (List UInt8)} (h : texts ≠ []) :
    (texts.flatMap fun text => byte '/' :: text) = byte '/' :: joined texts := by
  induction texts with
  | nil => exact absurd rfl h
  | cons text texts ih =>
    cases texts with
    | nil => simp [joined]
    | cons text' texts =>
      rw [flatMap_cons, ih (cons_ne_nil _ _), joined_cons_cons, List.cons_append]

theorem unencoded_slash : Unencoded .path (byte '/') := by
  rw [Unencoded]
  decide

theorem unencoded_joined {segments texts : List (List UInt8)} (h : Texts segments texts) :
    ∀ b ∈ joined texts, Unencoded .path b := by
  induction h with
  | nil => exact fun _ hb => (nomatch hb)
  | @cons segment text segments texts hencode htexts ih =>
    cases htexts with
    | nil => exact unencoded_percentEncode hencode
    | cons _ _ =>
      rw [joined_cons_cons, forall_mem_append, forall_mem_cons]
      exact ⟨unencoded_percentEncode hencode, unencoded_slash, ih⟩

theorem Texts.ne_nil {segments texts : List (List UInt8)} (h : Texts segments texts)
    (hne : segments ≠ []) : texts ≠ [] := by
  cases h with
  | nil => exact absurd rfl hne
  | cons _ _ => exact cons_ne_nil _ _

theorem exists_texts {segments : List (List UInt8)}
    (h : ∀ segment ∈ segments, ∀ b ∈ segment, b < 0x80) : ∃ texts, Texts segments texts := by
  induction segments with
  | nil => exact ⟨[], .nil⟩
  | cons segment segments ih =>
    obtain ⟨hsegment, hsegments⟩ := forall_mem_cons.mp h
    obtain ⟨text, htext⟩ := percentEncode_ascii hsegment .path
    obtain ⟨texts, htexts⟩ := ih hsegments
    exact ⟨text :: texts, .cons htext htexts⟩

/-- A dot stands before a path that would look like an authority. -/
def pathPrefix (url : URL) : List UInt8 :=
  if url.host = none ∧ 1 < url.paths.length ∧ url.paths.head? = some [] then literal ['/', '.']
  else []

theorem serializePath_eq_some (hbaseless : url.cannotBeABaseUrl = false) (hne : url.paths ≠ []) :
    url.serializePath = some pathText ↔
      ∃ texts, Texts url.paths texts ∧ pathText = pathPrefix url ++ byte '/' :: joined texts := by
  rw [serializePath, hbaseless, if_neg Bool.false_ne_true]
  constructor
  · intro h
    obtain ⟨text, htext, h⟩ := bind_eq_some_iff.mp h
    obtain ⟨texts, htexts, rfl⟩ := serializeSegments_eq_some.mp htext
    rw [flatMap_eq_joined (htexts.ne_nil hne)] at h
    refine ⟨texts, htexts, ?_⟩
    rw [pathPrefix]
    split at h
    · next hcond =>
      cases h
      rw [if_pos hcond]
    · next hcond =>
      cases h
      rw [if_neg hcond, nil_append]
  · rintro ⟨texts, htexts, rfl⟩
    rw [serializeSegments_eq_some.mpr ⟨texts, htexts, rfl⟩,
      flatMap_eq_joined (htexts.ne_nil hne), pathPrefix]
    split <;> rfl

theorem serializePath_nil (hbaseless : url.cannotBeABaseUrl = false) (hnil : url.paths = []) :
    url.serializePath = some [] := by
  rw [serializePath, hbaseless, hnil]
  simp [serializeSegments]

theorem serializePath_singleton {path : List UInt8} (hbaseless : url.cannotBeABaseUrl = true)
    (hpaths : url.paths = [path]) : url.serializePath = percentEncode path .path := by
  rw [serializePath, hbaseless, if_pos rfl, hpaths]

theorem exists_fragmentText
    (h : ∀ text ∈ fragment, ∃ text', percentEncode text .fragment = some text') :
    ∃ fragment', FragmentText fragment fragment' := by
  cases fragment with
  | none => exact ⟨none, .none⟩
  | some fragment =>
    obtain ⟨text, htext⟩ := h fragment rfl
    exact ⟨some text, .some htext⟩

theorem Stable.serialize (hstable : Stable url) (h : Shaped url) (hdata : url.scheme ≠ some data) :
    ∃ text, url.serialize = some text := by
  obtain ⟨scheme, hscheme, -⟩ := h.scheme
  have hplain : url.cannotBeABaseUrl = false ∨ url.query ≠ none →
      ∃ fragment, FragmentText url.fragment fragment := fun hcond =>
    exists_fragmentText fun fragment hfragment =>
      percentEncode_ascii (hstable.fragment hcond fragment hfragment).1 .fragment
  cases hbaseless : url.cannotBeABaseUrl with
  | false =>
    obtain ⟨fragment, hfragment⟩ := hplain (.inl hbaseless)
    have hpath : ∃ pathText, url.serializePath = some pathText := by
      by_cases hnil : url.paths = []
      · exact ⟨[], serializePath_nil hbaseless hnil⟩
      · obtain ⟨texts, htexts⟩ := exists_texts fun segment hmem =>
          (hstable.segments hbaseless segment hmem).plain.1
        exact ⟨_, (serializePath_eq_some hbaseless hnil).mpr ⟨texts, htexts, rfl⟩⟩
    obtain ⟨pathText, hpath⟩ := hpath
    exact ⟨_, (serialize_eq_some h hdata hscheme).mpr ⟨pathText, fragment, hpath, hfragment, rfl⟩⟩
  | true =>
    obtain ⟨-, -, path, hpaths⟩ := h.path hbaseless
    have hpath := hstable.opaquePath hbaseless path (by rw [hpaths]; exact mem_singleton_self _)
    obtain ⟨pathText, htext⟩ := percentEncode_ascii hpath.plain.1 .path
    have hfragment : ∃ fragment, FragmentText url.fragment fragment := by
      cases hquery : url.query with
      | some query => exact hplain (.inr (by rw [hquery]; exact some_ne_none _))
      | none =>
        refine exists_fragmentText fun fragment hmem => ?_
        obtain ⟨-, text', -, htext', -⟩ := hpath.fragment hquery fragment hmem
        exact ⟨text', htext'⟩
    obtain ⟨fragment, hfragment⟩ := hfragment
    rw [← serializePath_singleton hbaseless hpaths] at htext
    exact ⟨_, (serialize_eq_some h hdata hscheme).mpr ⟨pathText, fragment, htext, hfragment, rfl⟩⟩

/-! ## What the parser makes of the text -/

variable {query : Option (List UInt8)} {texts : List (List UInt8)}

theorem FragmentText.graphic (h : FragmentText original fragment) :
    ∀ text ∈ fragment, ∀ b ∈ text, Graphic b := by
  cases h with
  | none => exact fun _ hmem => (nomatch hmem)
  | some hencode =>
    rintro _ ⟨⟩ b hb
    exact graphic_of_unencoded (by decide) (unencoded_percentEncode hencode b hb)

theorem querySet_ne (url : URL) : querySet url ≠ .c0Control := by
  rw [querySet]
  split <;> decide

theorem query_bytes (hquery : ∀ text ∈ query, ∀ b ∈ text, Unencoded (querySet url) b) :
    ∀ text ∈ query, ∀ b ∈ text, b < 0x80 ∧ b ≠ byte '#' := by
  intro text htext b hb
  have hunencoded := hquery text htext b hb
  refine ⟨hunencoded.1, ?_⟩
  rintro rfl
  have hset := hunencoded.2
  rw [querySet] at hset
  split at hset <;> exact absurd hset (by decide)

theorem percentEncodeAfterEncoding_unencoded {set : PercentEncodeSet}
    (h : ∀ b ∈ text, Unencoded set b) : percentEncodeAfterEncoding text set = text := by
  induction text with
  | nil => rfl
  | cons b text ih =>
    obtain ⟨hb, htext⟩ := forall_mem_cons.mp h
    have hrest := ih htext
    rw [percentEncodeAfterEncoding] at hrest ⊢
    rw [flatMap_cons, hrest]
    dsimp only
    rw [if_pos hb.1, hb.2, if_neg Bool.false_ne_true, appendedCodePoint_ascii hb.1]
    rfl

/-- Where nothing is left in the buffer, the query is what it was. -/
theorem withTail_nil (hquery : ∀ text ∈ query, ∀ b ∈ text, Unencoded (querySet url) b)
    (hnone : url.query = none) (hnone' : url.fragment = none) :
    withTail url [] query fragment = { url with
      query := query, fragment := fragment.map percentDecode, valid := true } := by
  cases query with
  | some query => rw [withTail, nil_append, percentEncodeAfterEncoding_unencoded (hquery query rfl)]
  | none =>
    cases fragment with
    | none =>
      rw [withTail, map_none]
      nth_rewrite 1 [← hnone, ← hnone']
      rfl
    | some fragment => rw [withTail, nil_append, map_some, ← hnone]

theorem comes_path (htext : ∀ b ∈ text, Unencoded .path b) (hnone : url.query = none)
    (hnone' : url.fragment = none) (hquery : ∀ text ∈ query, ∀ b ∈ text, Unencoded (querySet url) b)
    (hfragment : ∀ text ∈ fragment, ∀ b ∈ text, Graphic b) :
    Comes input .path url [] (text ++ (queryText query ++ fragmentText fragment))
      (.url { reread url text with
        query := query, fragment := fragment.map percentDecode, valid := true }) := by
  have hreread : reread url text = { url with paths := (reread url text).paths } := by
    rw [reread, endSegment_eq, readPath_eq]
  have htail : Comes input .path (readPath url [] text).1 (readPath url [] text).2
      (queryText query ++ fragmentText fragment)
      (.url (withTail (reread url text) [] query fragment)) :=
    comes_tail (query_bytes hquery) (fun text htext b hb => (hfragment text htext b hb).2)
      (by rw [hreread]; exact hnone') (fun text' p htail hp => step_path_end htail hp)
  rw [withTail_nil (by rw [hreread]; exact hquery) (by rw [hreread]; exact hnone)
    (by rw [hreread]; exact hnone')] at htail
  exact comes_path_text htext htail

/-- The fragment that is parsed is the one there was exactly when it is plain. -/
theorem fragment_eq_iff (h : FragmentText original fragment) :
    fragment.map percentDecode = original ↔ ∀ text ∈ original, Plain text := by
  cases h with
  | none => exact ⟨fun _ _ hmem => (nomatch hmem), fun _ => rfl⟩
  | @some original text hencode =>
    rw [map_some, some_inj, (percentEncode_text hencode).percentDecode,
      decoded_eq_iff]
    refine ⟨fun hplain text hmem => ?_, fun hall => hall original rfl⟩
    cases hmem
    exact hplain

theorem stableSegment_congr {url' : URL} (h : url'.scheme = url.scheme) {segment : List UInt8} :
    StableSegment url' segment ↔ StableSegment url segment := by
  have hseparator : ∀ b, IsSeparator url' b ↔ IsSeparator url b := fun b => by
    simp only [IsSeparator, isSpecialBackslash, isSpecial, h]
  exact ⟨fun h => ⟨h.plain, fun b hb hsep => h.separator b hb ((hseparator b).mpr hsep),
      h.singleDot, h.doubleDot⟩,
    fun h => ⟨h.plain, fun b hb hsep => h.separator b hb ((hseparator b).mp hsep),
      h.singleDot, h.doubleDot⟩⟩

/-- The path that is parsed is the one there was exactly when its segments are stable. -/
theorem reread_eq_iff (url' : URL) (hscheme : url'.scheme = url.scheme) (hnil : url'.paths = [])
    (h : Texts url.paths texts) (hne : url.paths ≠ []) :
    (reread url' (joined texts)).paths = url.paths ↔
      (∀ segment ∈ url.paths, StableSegment url segment) ∧ StableDrive url url.paths := by
  have hdrive : StableDrive url' url.paths ↔ StableDrive url url.paths := by
    simp only [StableDrive, hscheme]
  constructor
  · intro hread
    rw [← nil_append url.paths, ← hnil] at hread
    obtain ⟨hstable, hdrive'⟩ := stable_of_reread h hne hread
    exact ⟨fun segment hmem => (stableSegment_congr hscheme).mp (hstable segment hmem),
      hdrive.mp (hdrive' hnil)⟩
  · rintro ⟨hstable, hdrive'⟩
    rw [reread_stable h hne
      (fun segment hmem => (stableSegment_congr hscheme).mpr (hstable segment hmem))
      (fun _ => hdrive.mpr hdrive')]
    rw [hnil, nil_append]

/-! ## The kinds of URLs -/

/-- The URL before its path is read. -/
def beforePath (scheme : List UInt8) (url : URL) : URL :=
  { withScheme scheme with host := url.host, port := url.port }

/-- The URL that is read with its path. -/
def reparsed (scheme : List UInt8) (url : URL) (text : List UInt8)
    (fragment : Option (List UInt8)) : URL :=
  { reread (beforePath scheme url) text with
    query := url.query, fragment := fragment.map percentDecode, valid := true }

theorem reparsed_eq (scheme : List UInt8) (url : URL) (text : List UInt8)
    (fragment : Option (List UInt8)) :
    reparsed scheme url text fragment = { beforePath scheme url with
      paths := (reread (beforePath scheme url) text).paths
      query := url.query, fragment := fragment.map percentDecode, valid := true } := by
  rw [reparsed, reread, endSegment_eq, readPath_eq]

/-- A URL with segments survives exactly when it is stable. -/
theorem same_reparsed_iff (hscheme : url.scheme = some scheme)
    (hbaseless : url.cannotBeABaseUrl = false) (hne : url.paths ≠ []) (htexts : Texts url.paths texts)
    (hfragment : FragmentText url.fragment fragment)
    (hascii : ∀ host ∈ url.host, ∀ b ∈ host, b < 0x80) :
    SameComponents (reparsed scheme url (joined texts) fragment) url ↔ Stable url := by
  have hpaths := reread_eq_iff (beforePath scheme url) hscheme.symm rfl htexts hne
  have hplain := fragment_eq_iff hfragment
  rw [reparsed_eq]
  constructor
  · intro hsame
    obtain ⟨hsegments, hdrive⟩ := hpaths.mp hsame.paths
    exact ⟨hascii, fun hnil => absurd hnil hne,
      fun hbaseless' => absurd (hbaseless.symm.trans hbaseless') Bool.false_ne_true,
      fun _ => hsegments, fun _ => hdrive, fun _ => hplain.mp hsame.fragment⟩
  · intro hstable
    exact ⟨rfl, hscheme.symm, rfl, rfl,
      hpaths.mpr ⟨hstable.segments hbaseless, hstable.drive hbaseless⟩, rfl,
      hplain.mpr (hstable.fragment (.inl hbaseless))⟩

theorem graphic_rest (h : Shaped url) (hfragment : FragmentText url.fragment fragment)
    (hpath : ∀ b ∈ pathText, Unencoded .path b) :
    ∀ b ∈ pathText ++ (queryText url.query ++ fragmentText fragment), Graphic b := by
  simp only [forall_mem_append]
  refine ⟨fun b hb => graphic_of_unencoded (by decide) (hpath b hb), ?_, ?_⟩
  · cases hquery : url.query with
    | none => exact fun _ hb => (nomatch hb)
    | some query =>
      refine forall_mem_cons.mpr ⟨by rw [Graphic]; decide, fun b hb => ?_⟩
      exact graphic_of_unencoded (querySet_ne url) (h.query query hquery b hb)
  · cases fragment with
    | none => exact fun _ hb => (nomatch hb)
    | some text => exact forall_mem_cons.mpr ⟨by rw [Graphic]; decide, hfragment.graphic text rfl⟩

theorem getLast?_of_graphic {front : List UInt8} (h : ∀ b ∈ rest, Graphic b)
    (hfront : rest = [] → ∀ b ∈ front.getLast?, 0x20 < b) :
    ∀ b ∈ (front ++ rest).getLast?, 0x20 < b := by
  rw [List.getLast?_append]
  cases hlast : rest.getLast? with
  | none =>
    rw [none_or]
    exact hfront (List.getLast?_eq_none_iff.mp hlast)
  | some b =>
    rintro _ ⟨⟩
    exact (h b (List.mem_of_getLast? hlast)).1

/-- Where `Path` begins, after a host. -/
theorem comes_segments (h : Shaped url) (hscheme : url.scheme = some scheme)
    (htexts : Texts url.paths texts) (hfragment : FragmentText url.fragment fragment) :
    Comes input .pathStart (beforePath scheme url) []
      (byte '/' :: joined texts ++ (queryText url.query ++ fragmentText fragment))
      (.url (reparsed scheme url (joined texts) fragment)) := by
  have hset : querySet (beforePath scheme url) = querySet url := by
    simp only [querySet, isSpecial, hscheme]
    rfl
  have hquery : ∀ text ∈ url.query, ∀ b ∈ text, Unencoded (querySet (beforePath scheme url)) b := by
    rw [hset]
    exact h.query
  exact comes_pathStart_slash
    (comes_path (unencoded_joined htexts) rfl rfl hquery hfragment.graphic)

theorem ends_slash (url : URL) (rest : List UInt8) : Ends url (byte '/' :: rest) :=
  ⟨fun b hb => by cases hb; decide, rfl⟩

/-! ### File URLs -/

theorem OpaqueHost.isWindowsDriveLetter (h : OpaqueHost host) :
    URLParser.isWindowsDriveLetter host = false := by
  by_contra hdrive
  rw [Bool.not_eq_false] at hdrive
  match host, hdrive with
  | [a, b], hdrive =>
    simp only [URLParser.isWindowsDriveLetter, Bool.and_eq_true, Bool.or_eq_true, beq_iff_eq] at hdrive
    have hb := (h b (by simp)).2
    obtain ⟨-, rfl | rfl⟩ := hdrive <;> exact hb (by decide)

theorem comes_file (hhost : OpaqueHost host) (hlocalhost : host ≠ localhost) (hend : Ends url rest)
    (hspecial : url.isSpecial = true)
    (h : Comes input .pathStart { url with host := some host } [] rest r) :
    Comes input .fileHost url [] (host ++ rest) r := by
  by_cases hnil : host = []
  · subst hnil
    exact comes_fileHost_empty hend hspecial h
  · refine comes_fileHost_text (fun b hb => ?_) (comes_fileHost_end hend hspecial hnil
      hhost.isWindowsDriveLetter (parseHost_opaqueHost hhost) hlocalhost h)
    obtain ⟨⟨⟨hascii, hinner⟩, -⟩, -⟩ := hhost.plainHost.hostByte url b hb
    refine ⟨hascii, ?_⟩
    rwa [isSpecialBackslash, hspecial, Bool.true_and] at hinner

end Literate.AK.URLParser

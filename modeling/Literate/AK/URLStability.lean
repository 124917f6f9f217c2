import Literate.AK.URLAuthority
import Literate.AK.URLRoundTrip

/-!
# AK: the URLs that survive a round

For each kind of URL, what `parse` makes of the text that it is serialized as; and from
that, which URLs come back as they were.
-/

namespace Literate.AK.URLParser

open Foundation Utf8View URL List Option

set_option maxRecDepth 8192

variable {input rest text pathText scheme host : List UInt8} {url : URL} {r : Result}
  {port : Option Nat} {fragment : Option (List UInt8)} {texts : List (List UInt8)}

/-! ## The text as a whole -/

/-- What is written after the host. -/
def afterHost (url : URL) (pathText : List UInt8) (fragment : Option (List UInt8)) : List UInt8 :=
  pathText ++ (queryText url.query ++ fragmentText fragment)

/-- What a URL is serialized as. -/
def serialized (scheme : List UInt8) (url : URL) (pathText : List UInt8)
    (fragment : Option (List UInt8)) : List UInt8 :=
  scheme ++ byte ':' :: (hostText url.host url.port ++ afterHost url pathText fragment)

theorem hostText_some_append (host : List UInt8) (port : Option Nat) (rest : List UInt8) :
    hostText (some host) port ++ rest =
      byte '/' :: byte '/' :: (host ++ (portText port ++ rest)) := by
  simp [hostText]

variable {b : UInt8} {i : Nat} {url' : URL}

theorem graphic_of_plainOpaque (h : Unencoded .c0Control b)
    (hforbidden : b ∉ forbiddenHostCodePointsExcludingPercent) : Graphic b := by
  have hall : ∀ n < 256, UInt8.ofNat n < 0x80 →
      codePointIsInPercentEncodeSet (UInt8.ofNat n).toNat .c0Control = false →
      UInt8.ofNat n ∉ forbiddenHostCodePointsExcludingPercent → 0x20 < UInt8.ofNat n := by
    decide
  exact ⟨forall_byte (P := fun b => b < 0x80 →
    codePointIsInPercentEncodeSet b.toNat .c0Control = false →
    b ∉ forbiddenHostCodePointsExcludingPercent → 0x20 < b) hall b h.1 h.2 hforbidden, h.1⟩

theorem PlainHost.inner_of_mem (h : PlainHost host) (hb : b ∈ host) :
    b < 0x80 ∧ b ≠ 0x09 ∧ b ≠ 0x0a := by
  obtain ⟨hascii, hforbidden⟩ := h b hb
  refine ⟨hascii, ?_, ?_⟩
  · rintro rfl
    exact hforbidden (by decide)
  · rintro rfl
    exact hforbidden (by decide)

theorem portShape_none (scheme : List UInt8) : PortShape scheme none :=
  fun _ hmem => (nomatch hmem)

theorem HostShape.portShape (h : HostShape scheme host port) : PortShape scheme port := by
  rw [HostShape] at h
  split at h
  · rw [h.2.2]
    exact portShape_none scheme
  split at h
  · exact h.2
  · exact h.2.1

theorem HostShape.plainHost (h : HostShape scheme host port) (hascii : ∀ b ∈ host, b < 0x80) :
    PlainHost host := by
  rw [HostShape] at h
  split at h
  · exact h.1.plainHost
  split at h
  · exact h.1.plainHost hascii
  · exact h.1.plainHost

theorem hostText_bytes (hshape : ∀ host ∈ url.host, HostShape scheme host url.port)
    (hascii : ∀ host ∈ url.host, ∀ b ∈ host, b < 0x80) :
    ∀ b ∈ hostText url.host url.port, b < 0x80 ∧ b ≠ 0x09 ∧ b ≠ 0x0a := by
  cases hhost : url.host with
  | none => exact fun _ hb => (nomatch hb)
  | some host =>
    have hslash : byte '/' < 0x80 ∧ byte '/' ≠ 0x09 ∧ byte '/' ≠ 0x0a := by decide
    have hplain := (hshape host hhost).plainHost (hascii host hhost)
    refine forall_mem_cons.mpr ⟨hslash, forall_mem_cons.mpr ⟨hslash, ?_⟩⟩
    refine forall_mem_append.mpr ⟨fun b hb => hplain.inner_of_mem hb, fun b hb => ?_⟩
    have hgraphic := (portText_bytes url (hshape host hhost).portShape b hb).2.2
    exact ⟨hgraphic.2, graphic_ne hgraphic⟩

theorem ascii_of_schemeText (h : SchemeText scheme) : ∀ b ∈ scheme, b < 0x80 :=
  fun b hb => (h.2 b hb).1

theorem ascii_serialized (h : Shaped url) (hscheme : url.scheme = some scheme)
    (hascii : ∀ host ∈ url.host, ∀ b ∈ host, b < 0x80)
    (hfragment : FragmentText url.fragment fragment) (hpath : ∀ b ∈ pathText, Unencoded .path b) :
    ∀ b ∈ serialized scheme url pathText fragment, b < 0x80 := by
  obtain ⟨scheme', hscheme', htext⟩ := h.scheme
  cases hscheme.symm.trans hscheme'
  have hshape := h.host
  rw [hscheme] at hshape
  refine forall_mem_append.mpr ⟨ascii_of_schemeText htext, forall_mem_cons.mpr
    ⟨ascii_colon, forall_mem_append.mpr ⟨fun b hb => ?_, fun b hb => ?_⟩⟩⟩
  · exact (hostText_bytes hshape hascii b hb).1
  · exact (graphic_rest h hfragment hpath b hb).2

/-- A serialized URL is read as it is, but for a host outside ASCII. -/
theorem clean_serialized (h : Shaped url) (hscheme : url.scheme = some scheme)
    (hascii : ∀ host ∈ url.host, ∀ b ∈ host, b < 0x80)
    (hfragment : FragmentText url.fragment fragment) (hpath : ∀ b ∈ pathText, Unencoded .path b)
    (hlast : afterHost url pathText fragment = [] →
      ∀ b ∈ (hostText url.host url.port).getLast?, 0x20 < b) :
    Clean (serialized scheme url pathText fragment) := by
  obtain ⟨scheme', hscheme', htext⟩ := h.scheme
  cases hscheme.symm.trans hscheme'
  have hshape := h.host
  rw [hscheme] at hshape
  have hgraphic := graphic_rest h hfragment hpath
  refine clean_text htext (forall_mem_append.mpr ⟨fun b hb => ?_, fun b hb => ?_⟩)
    (getLast?_of_graphic hgraphic hlast)
  · exact (hostText_bytes hshape hascii b hb).2
  · exact graphic_ne (hgraphic b hb)

/-- What is parsed from a serialized URL is what comes after its scheme. -/
theorem parse_serialized (htext : SchemeText scheme) (hdata : scheme ≠ data)
    (hclean : Clean (serialized scheme url pathText fragment))
    (h : Comes (serialized scheme url pathText fragment) .scheme URL.new scheme
      (byte ':' :: (hostText url.host url.port ++ afterHost url pathText fragment)) r) :
    parse (serialized scheme url pathText fragment) none none none = r :=
  parse_of_comes hclean (append_ne_nil_of_right_ne_nil _ (cons_ne_nil _ _))
    (startsWith_dataColon htext hdata) (comes_schemeText htext h)

/-! ## The kinds of URLs -/

theorem HostShape.parseHost (h : HostShape scheme host port) (hfile : scheme ≠ URL.file)
    (hascii : ∀ b ∈ host, b < 0x80) :
    URLParser.parseHost host (!isSpecialScheme scheme) = some (some host) := by
  rw [HostShape, if_neg hfile] at h
  split at h
  · next hspecial =>
    rw [hspecial]
    exact parseHost_special h.1 hascii
  · next hspecial =>
    rw [Bool.not_eq_true] at hspecial
    rw [hspecial]
    exact parseHost_opaqueHost h.1

/-- Only a URL that is not special has an empty host, and then no port. -/
theorem HostShape.of_nil (h : HostShape scheme host port) (hfile : scheme ≠ URL.file)
    (hnil : host = []) : isSpecialScheme scheme = false ∧ port = none := by
  rw [HostShape, if_neg hfile] at h
  split at h
  · exact absurd hnil h.1.1
  · next hspecial => exact ⟨Bool.not_eq_true _ ▸ hspecial, h.2.2 hnil⟩

section

variable (hinput : ∀ b ∈ input, b < 0x80)

include hinput

theorem comes_authorityText
    (hshape : HostShape scheme host port) (hfile : scheme ≠ URL.file)
    (hascii : ∀ b ∈ host, b < 0x80) (hend : Ends (withScheme scheme) rest)
    (hlength : (host ++ (portText port ++ rest)).length < input.length)
    (h : Comes input .pathStart { withScheme scheme with host := some host, port := port } []
      rest r) :
    Comes input .authority (withScheme scheme) [] (host ++ (portText port ++ rest)) r := by
  have hplain := hshape.plainHost hascii
  have hbytes : ∀ b ∈ host ++ portText port, Inner (withScheme scheme) b ∧ b ≠ byte '@' := by
    refine forall_mem_append.mpr ⟨fun b hb => ?_, fun b hb => ?_⟩
    · obtain ⟨⟨hinner, -⟩, hat⟩ := hplain.hostByte (withScheme scheme) b hb
      exact ⟨hinner, hat⟩
    · obtain ⟨hinner, hat, -⟩ := portText_bytes (withScheme scheme) hshape.portShape b hb
      exact ⟨hinner, hat⟩
  have hhost : Comes input .host (withScheme scheme) [] (host ++ (portText port ++ rest)) r :=
    comes_hostText rfl hplain (hshape.parseHost hfile hascii) (hshape.of_nil hfile)
      hshape.portShape rfl hend h
  rw [← List.append_assoc] at hhost hlength ⊢
  exact comes_authority hinput hbytes hend hlength hhost

/-- A special URL that is no file URL is read up to its path. -/
theorem comes_specialHost
    (hshape : HostShape scheme host port) (hfile : scheme ≠ URL.file)
    (hspecial : isSpecialScheme scheme = true) (hascii : ∀ b ∈ host, b < 0x80)
    (hend : Ends (withScheme scheme) rest)
    (hlength : (host ++ (portText port ++ rest)).length < input.length)
    (h : Comes input .pathStart { withScheme scheme with host := some host, port := port } []
      rest r) :
    Comes input .scheme URL.new scheme (byte ':' :: (hostText (some host) port ++ rest)) r := by
  have hauthority := comes_authorityText hinput hshape hfile hascii hend hlength h
  rw [hostText_some_append]
  refine comes_colon_special hfile hspecial (comes_specialAuthoritySlashes ?_)
  have hplain := hshape.plainHost hascii
  cases host with
  | nil => exact (nomatch hspecial.symm.trans (hshape.of_nil hfile rfl).1)
  | cons b host =>
    obtain ⟨⟨hinner, -⟩, -⟩ := hplain.hostByte (withScheme scheme) b mem_cons_self
    exact comes_specialAuthorityIgnoreSlashes hspecial hinner hauthority

/-- A URL with a host that is not special is read up to its path. -/
theorem comes_opaqueHost
    (hshape : HostShape scheme host port) (hspecial : isSpecialScheme scheme = false)
    (hascii : ∀ b ∈ host, b < 0x80) (hend : Ends (withScheme scheme) rest)
    (hlength : (host ++ (portText port ++ rest)).length < input.length)
    (h : Comes input .pathStart { withScheme scheme with host := some host, port := port } []
      rest r) :
    Comes input .scheme URL.new scheme (byte ':' :: (hostText (some host) port ++ rest)) r := by
  have hfile : scheme ≠ URL.file := by
    rintro rfl
    exact absurd hspecial (by decide)
  rw [hostText_some_append]
  exact comes_colon_slash hspecial (comes_pathOrAuthority_slash
    (comes_authorityText hinput hshape hfile hascii hend hlength h))

end

theorem comes_fileText (hshape : HostShape URL.file host port)
    (hend : Ends (withScheme URL.file) rest)
    (h : Comes input .pathStart { withScheme URL.file with host := some host, port := port } []
      rest r) :
    Comes input .scheme URL.new URL.file (byte ':' :: (hostText (some host) port ++ rest)) r := by
  rw [HostShape, if_pos rfl] at hshape
  obtain ⟨hhost, hlocalhost, rfl⟩ := hshape
  rw [hostText_some_append]
  exact comes_colon_file (comes_file_slashes (comes_file hhost hlocalhost hend rfl h))

/-- A URL with a host in ASCII is read up to its path. -/
theorem comes_hosted (hinput : ∀ b ∈ input, b < 0x80)
    (hshape : HostShape scheme host port) (hascii : ∀ b ∈ host, b < 0x80)
    (hend : Ends (withScheme scheme) rest)
    (hlength : (host ++ (portText port ++ rest)).length < input.length)
    (h : Comes input .pathStart { withScheme scheme with host := some host, port := port } []
      rest r) :
    Comes input .scheme URL.new scheme (byte ':' :: (hostText (some host) port ++ rest)) r := by
  by_cases hfile : scheme = URL.file
  · subst hfile
    exact comes_fileText hshape hend h
  · cases hspecial : isSpecialScheme scheme with
    | true => exact comes_specialHost hinput hshape hfile hspecial hascii hend hlength h
    | false => exact comes_opaqueHost hinput hshape hspecial hascii hend hlength h

/-! ## URLs with a host -/

/-- What is parsed from each text that the URL may be serialized as. -/
theorem roundTrips_iff_serialized (h : Shaped url) (hdata : url.scheme ≠ some data)
    (hscheme : url.scheme = some scheme) :
    RoundTrips url ↔ ∃ pathText fragment, url.serializePath = some pathText ∧
      FragmentText url.fragment fragment ∧ ∃ url',
        parse (serialized scheme url pathText fragment) none none none = .url url' ∧
          SameComponents url' url := by
  constructor
  · rintro ⟨text, url', htext, hparse, hsame⟩
    obtain ⟨pathText, fragment, hpath, hfragment, rfl⟩ :=
      (serialize_eq_some h hdata hscheme).mp htext
    exact ⟨pathText, fragment, hpath, hfragment, url', hparse, hsame⟩
  · rintro ⟨pathText, fragment, hpath, hfragment, url', hparse, hsame⟩
    exact ⟨_, url', (serialize_eq_some h hdata hscheme).mpr
      ⟨pathText, fragment, hpath, hfragment, rfl⟩, hparse, hsame⟩

theorem Stable.exists_parts (hstable : Stable url) (h : Shaped url)
    (hdata : url.scheme ≠ some data) : ∃ pathText fragment,
      url.serializePath = some pathText ∧ FragmentText url.fragment fragment := by
  obtain ⟨scheme, hscheme, -⟩ := h.scheme
  obtain ⟨text, htext⟩ := hstable.serialize h hdata
  obtain ⟨pathText, fragment, hpath, hfragment, -⟩ :=
    (serialize_eq_some h hdata hscheme).mp htext
  exact ⟨pathText, fragment, hpath, hfragment⟩

theorem beforePath_host (hhost : url.host = some host) : beforePath scheme url =
      { withScheme scheme with host := some host, port := url.port } := by
  rw [beforePath, hhost]

theorem pathPrefix_of_host (hhost : url.host = some host) : pathPrefix url = [] := by
  rw [pathPrefix, if_neg]
  rintro ⟨hnone, -⟩
  rw [hhost] at hnone
  cases hnone

/-- The text of a URL with a host in ASCII is read up to its path. -/
theorem parse_hosted (h : Shaped url) (hdata : url.scheme ≠ some data)
    (hscheme : url.scheme = some scheme) (hhost : url.host = some host)
    (hascii : ∀ b ∈ host, b < 0x80) (hfragment : FragmentText url.fragment fragment)
    (hpath : ∀ b ∈ pathText, Unencoded .path b) (hlast : afterHost url pathText fragment = [] →
      ∀ b ∈ (hostText url.host url.port).getLast?, 0x20 < b)
    (hend : Ends (withScheme scheme) (afterHost url pathText fragment))
    (hcomes : Comes (serialized scheme url pathText fragment) .pathStart (beforePath scheme url) []
      (afterHost url pathText fragment) r) :
    parse (serialized scheme url pathText fragment) none none none = r := by
  obtain ⟨scheme', hscheme', htext⟩ := h.scheme
  cases hscheme.symm.trans hscheme'
  have hall : ∀ host ∈ url.host, ∀ b ∈ host, b < 0x80 := by
    rw [hhost]
    rintro _ ⟨⟩
    exact hascii
  have hshape := h.host host hhost
  rw [hscheme, getD_some] at hshape
  have hinput := ascii_serialized h hscheme hall hfragment hpath
  refine parse_serialized htext (fun heq => hdata (by rw [hscheme, heq]))
    (clean_serialized h hscheme hall hfragment hpath hlast) ?_
  rw [beforePath_host hhost] at hcomes
  rw [hhost]
  refine comes_hosted hinput hshape hascii hend ?_ hcomes
  simp only [serialized, hhost, hostText, length_append, length_cons]
  omega

/-- A URL with a host in ASCII and segments survives exactly when it is stable. -/
theorem roundTrips_iff_of_segments (h : Shaped url) (hdata : url.scheme ≠ some data)
    (hbaseless : url.cannotBeABaseUrl = false) (hhost : url.host = some host)
    (hascii : ∀ b ∈ host, b < 0x80) (hne : url.paths ≠ []) : RoundTrips url ↔ Stable url := by
  obtain ⟨scheme, hscheme, -⟩ := h.scheme
  have hall : ∀ host ∈ url.host, ∀ b ∈ host, b < 0x80 := by
    rw [hhost]
    rintro _ ⟨⟩
    exact hascii
  have hparse : ∀ texts fragment, Texts url.paths texts → FragmentText url.fragment fragment →
      parse (serialized scheme url (byte '/' :: joined texts) fragment) none none none =
        .url (reparsed scheme url (joined texts) fragment) := by
    intro texts fragment htexts hfragment
    refine parse_hosted h hdata hscheme hhost hascii hfragment ?_ (fun hnil => (nomatch hnil))
      (ends_slash _ _) (comes_segments h hscheme htexts hfragment)
    exact forall_mem_cons.mpr ⟨unencoded_slash, unencoded_joined htexts⟩
  rw [roundTrips_iff_serialized h hdata hscheme]
  constructor
  · rintro ⟨pathText, fragment, hpath, hfragment, url', hurl', hsame⟩
    obtain ⟨texts, htexts, rfl⟩ := (serializePath_eq_some hbaseless hne).mp hpath
    rw [pathPrefix_of_host hhost, nil_append, hparse texts fragment htexts hfragment] at hurl'
    cases hurl'
    exact (same_reparsed_iff hscheme hbaseless hne htexts hfragment hall).mp hsame
  · intro hstable
    obtain ⟨pathText, fragment, hpath, hfragment⟩ := hstable.exists_parts h hdata
    obtain ⟨texts, htexts, rfl⟩ := (serializePath_eq_some hbaseless hne).mp hpath
    refine ⟨_, fragment, hpath, hfragment, _, ?_,
      (same_reparsed_iff hscheme hbaseless hne htexts hfragment hall).mpr hstable⟩
    rw [pathPrefix_of_host hhost, nil_append, hparse texts fragment htexts hfragment]

theorem Based.opaqueHost (h : Based url) (hspecial : url.isSpecial = false) :
    ∀ host ∈ url.host, OpaqueHost host := by
  intro host hhost
  obtain ⟨scheme, hscheme, -⟩ := h.scheme
  have hshape := h.host host hhost
  have hspecial' : isSpecialScheme scheme = false := by
    rwa [isSpecial, hscheme, any_some] at hspecial
  rw [hscheme, getD_some, HostShape] at hshape
  split at hshape
  · exact hshape.1
  rw [hspecial', if_neg Bool.false_ne_true] at hshape
  exact hshape.1

theorem OpaqueHost.ascii (h : OpaqueHost host) : ∀ b ∈ host, b < 0x80 := fun b hb => (h b hb).1.1

theorem getLast?_hostText (h : Based url) (hhosts : ∀ host ∈ url.host, OpaqueHost host) :
    ∀ b ∈ (hostText url.host url.port).getLast?, 0x20 < b := by
  intro b hb
  have hmem := List.mem_of_getLast? hb
  cases hhost : url.host with
  | none =>
    rw [hhost] at hmem
    cases hmem
  | some host =>
    rw [hhost] at hmem
    have hbaseless := hhosts host hhost
    have hslash : 0x20 < byte '/' := by decide
    obtain rfl | hmem := mem_cons.mp hmem
    · exact hslash
    obtain rfl | hmem := mem_cons.mp hmem
    · exact hslash
    obtain hmem | hmem := mem_append.mp hmem
    · exact (graphic_of_plainOpaque (hbaseless b hmem).1 (hbaseless b hmem).2).1
    · exact (portText_bytes url (h.host host hhost).portShape b hmem).2.2.1

theorem comes_pathless (h : Shaped url) (hscheme : url.scheme = some scheme)
    (hspecial : url.isSpecial = false) (hfragment : FragmentText url.fragment fragment) :
    Comes input .pathStart (beforePath scheme url) [] (afterHost url [] fragment)
      (.url { beforePath scheme url with
        query := url.query, fragment := fragment.map percentDecode, valid := true }) := by
  have hspecial' : (beforePath scheme url).isSpecial = false := by
    rwa [isSpecial, hscheme] at hspecial
  have hset : querySet (beforePath scheme url) = querySet url := by
    simp only [querySet, hspecial, hspecial']
  have hquery : ∀ text ∈ url.query, ∀ b ∈ text, Unencoded (querySet (beforePath scheme url)) b := by
    rw [hset]
    exact h.query
  rw [← withTail_nil hquery rfl rfl]
  exact comes_tail (query_bytes hquery)
    (fun text htext b hb => (hfragment.graphic text htext b hb).2) rfl
    (fun text p htail hp => step_pathStart_end htail hspecial' hp)

/-- A URL with a host but no segments, which is not special, survives exactly when its
fragment is plain. -/
theorem roundTrips_iff_of_pathless (h : Shaped url) (hdata : url.scheme ≠ some data)
    (hspecial : url.isSpecial = false) (hbaseless : url.cannotBeABaseUrl = false)
    (hhost : url.host = some host) (hnil : url.paths = []) : RoundTrips url ↔ Stable url := by
  obtain ⟨scheme, hscheme, -⟩ := h.scheme
  have hascii := (h.opaqueHost hspecial host hhost).ascii
  have hparse : ∀ fragment, FragmentText url.fragment fragment →
      parse (serialized scheme url [] fragment) none none none =
        .url { beforePath scheme url with
          query := url.query, fragment := fragment.map percentDecode, valid := true } :=
    fun fragment hfragment =>
      parse_hosted h hdata hscheme hhost hascii hfragment (fun _ hb => (nomatch hb))
        (fun _ => getLast?_hostText h.toBased (h.opaqueHost hspecial))
        ((isTail_queryText url.query fragment).ends _)
        (comes_pathless h hscheme hspecial hfragment)
  have hpath := serializePath_nil hbaseless hnil
  rw [roundTrips_iff_serialized h hdata hscheme]
  constructor
  · rintro ⟨pathText, fragment, hpath', hfragment, url', hurl', hsame⟩
    cases hpath.symm.trans hpath'
    rw [hparse fragment hfragment] at hurl'
    cases hurl'
    refine ⟨?_, fun _ => ⟨hspecial, by rw [hhost]; exact some_ne_none _⟩,
      fun hbaseless' => (nomatch hbaseless.symm.trans hbaseless'), ?_, ?_,
      fun _ => (fragment_eq_iff hfragment).mp hsame.fragment⟩
    · rw [hhost]
      rintro _ ⟨⟩
      exact hascii
    · rw [hnil]
      exact fun _ _ hmem => (nomatch hmem)
    · rw [hnil]
      exact fun _ _ _ hmem => (nomatch hmem)
  · intro hstable
    obtain ⟨pathText, fragment, hpath', hfragment⟩ := hstable.exists_parts h hdata
    cases hpath.symm.trans hpath'
    exact ⟨_, fragment, hpath, hfragment, _, hparse fragment hfragment, rfl, hscheme.symm, rfl, rfl,
      hnil.symm, rfl, (fragment_eq_iff hfragment).mpr (hstable.fragment (.inl hbaseless))⟩

/-! ## URLs without segments -/

/-- A URL without segments comes back with one where it is special. -/
theorem not_roundTrips_of_special (h : Shaped url) (hdata : url.scheme ≠ some data)
    (hspecial : url.isSpecial = true) (hhost : url.host = some host) (hnil : url.paths = []) :
    ¬ RoundTrips url := by
  obtain ⟨scheme, hscheme, -⟩ := h.scheme
  have hfile : url.scheme = some URL.file := by
    by_contra hfile
    exact h.special hspecial (by rw [hhost]; exact some_ne_none _) hfile hnil
  obtain ⟨hquery, hfragment, hbaseless⟩ := h.pathless hnil (.inr hspecial)
  cases hscheme.symm.trans hfile
  have hshape := h.host host hhost
  rw [hscheme, getD_some, HostShape, if_pos rfl] at hshape
  rw [roundTrips_iff_serialized h hdata hscheme]
  rintro ⟨pathText, fragment, hpath, hfragmentText, url', hurl', hsame⟩
  cases (serializePath_nil hbaseless hnil).symm.trans hpath
  rw [hfragment] at hfragmentText
  cases hfragmentText
  have hend : afterHost url [] none = [] := by rw [afterHost, hquery]; rfl
  have hlast := getLast?_hostText h.toBased (by rw [hhost]; rintro _ ⟨⟩; exact hshape.1)
  have hcomes : Comes (serialized URL.file url [] none) .pathStart (beforePath URL.file url) []
      (afterHost url [] none) (.url (withTail (endSegment false (beforePath URL.file url) []) []
        none none)) := by
    rw [hend]
    have hnone : ∀ text ∈ (none : Option (List UInt8)), ∀ b ∈ text, b < 0x80 ∧ b ≠ byte '#' :=
      fun _ hmem => absurd hmem (not_mem_none _)
    have hnone' : ∀ text ∈ (none : Option (List UInt8)), ∀ b ∈ text, b < 0x80 :=
      fun _ hmem => absurd hmem (not_mem_none _)
    have htail : Comes (serialized URL.file url [] none) .path (beforePath URL.file url) []
        (queryText none ++ fragmentText none) (.url (withTail
          (endSegment false (beforePath URL.file url) []) [] none none)) :=
      comes_tail hnone hnone' (by rw [endSegment_eq]; rfl)
        (fun text p htail hp => step_path_end htail hp)
    exact comes_pathStart_special rfl htail
  have hempty : ∀ b ∈ ([] : List UInt8), Unencoded .path b := forall_mem_nil _
  rw [parse_hosted h hdata hscheme hhost hshape.1.ascii (by rw [hfragment]; exact .none)
    hempty (fun _ => hlast) (by rw [hend]; exact (IsTail.ends (.inl rfl) _))
    hcomes] at hurl'
  cases hurl'
  exact endSegment_paths_ne_nil _ _ (hsame.paths.trans hnil)

theorem comes_specialAuthoritySlashes_nil {buffer : List UInt8}
    (h : Comes input .authority url buffer [] r) :
    Comes input .specialAuthoritySlashes url buffer [] r := by
  have hignore : Comes input .specialAuthorityIgnoreSlashes url buffer [] r := by
    refine h.again fun p hp => ?_
    rw [step, hp.state_eq, hp.codePoint_nil, ← hp.url_eq, ← hp.buffer_eq]
    rfl
  refine hignore.again fun p hp => ?_
  rw [step, hp.state_eq, hp.codePoint_nil, ← hp.url_eq, ← hp.buffer_eq]
  rfl

theorem comes_host_nil (hspecial : url.isSpecial = true) :
    Comes input .host url [] [] (.url URL.new) := by
  refine comes_invalid fun p hp => ?_
  rw [step, hp.state_eq, hp.codePoint_nil]
  have hbuffer : p.buffer.isEmpty = true := by rw [hp.buffer_eq]; rfl
  rw [URLParser.host, hp.insideBrackets, hp.url_eq, hspecial, hbuffer]
  rfl

/-- Where nothing follows the scheme, there is no URL, or it has a host or a segment. -/
theorem comes_scheme_nil (htext : SchemeText scheme) (hinput : ∀ b ∈ input, b < 0x80)
    (hne : input ≠ []) : ∃ url', Comes input .scheme URL.new scheme [byte ':'] (.url url') ∧
      (url'.valid = false ∨ url'.host ≠ none ∨ url'.paths ≠ []) := by
  have hlength := length_pos_of_ne_nil hne
  by_cases hfile : scheme = URL.file
  · subst hfile
    refine ⟨_, comes_colon_file (comes_last .file
      { withScheme URL.file with host := some [] } [] fun p hp => ?_), .inr (.inl ?_)⟩
    · rw [step, hp.state_eq, hp.codePoint_nil]
      show URLParser.file input none endOfFile p = _
      rw [URLParser.file, hp.url_eq, ← hp.buffer_eq, ← hp.state_eq]
      rfl
    · exact some_ne_none _
  cases hspecial : isSpecialScheme scheme with
  | true =>
    have hnone : ∀ b ∈ ([] : List UInt8), Inner (withScheme scheme) b ∧ b ≠ byte '@' :=
      forall_mem_nil _
    have hend : Ends (withScheme scheme) [] := IsTail.ends (.inl rfl) _
    exact ⟨URL.new, comes_colon_special hfile hspecial (comes_specialAuthoritySlashes_nil
      (comes_authority hinput hnone hend hlength (comes_host_nil hspecial))), .inl rfl⟩
  | false =>
    have htail : Comes input .cannotBeABaseUrlPath
        ({ URL.new with scheme := some scheme, cannotBeABaseUrl := true }.appendPath []) []
        (queryText none ++ fragmentText none) (.url (withTail { URL.new with
          scheme := some scheme, cannotBeABaseUrl := true, paths := [percentDecode []] } []
          none none)) :=
      comes_tail (fun _ hmem => absurd hmem (not_mem_none _))
        (fun _ hmem => absurd hmem (not_mem_none _)) rfl
        (fun text p htail hp => step_cannotBeABaseUrlPath_end htail rfl hp)
    exact ⟨_, comes_colon_opaquePath hspecial (by simp) htail,
      .inr (.inr (cons_ne_nil _ _))⟩

/-- A URL with neither a host nor a segment comes back with one of them, or not at all. -/
theorem not_roundTrips_of_empty (h : Shaped url) (hdata : url.scheme ≠ some data)
    (hhost : url.host = none) (hnil : url.paths = []) : ¬ RoundTrips url := by
  obtain ⟨scheme, hscheme, htext⟩ := h.scheme
  obtain ⟨hquery, hfragment, hbaseless⟩ := h.pathless hnil (.inl hhost)
  rw [roundTrips_iff_serialized h hdata hscheme]
  rintro ⟨pathText, fragment, hpath, hfragmentText, url', hurl', hsame⟩
  cases (serializePath_nil hbaseless hnil).symm.trans hpath
  have hempty : ∀ b ∈ ([] : List UInt8), Unencoded .path b := fun _ hb => (nomatch hb)
  have hhosts : ∀ host ∈ url.host, ∀ b ∈ host, b < 0x80 := by
    rw [hhost]
    exact fun _ hmem => (nomatch hmem)
  have hinput := ascii_serialized h hscheme hhosts hfragmentText hempty
  have hclean := clean_serialized h hscheme hhosts hfragmentText hempty fun _ => by
    rw [hhost]
    exact fun _ hb => (nomatch hb)
  rw [hfragment] at hfragmentText
  cases hfragmentText
  have hrest : hostText url.host url.port ++ afterHost url [] none = [] := by
    rw [hhost, afterHost, hquery]
    rfl
  obtain ⟨url'', hcomes, hdiffers⟩ := comes_scheme_nil htext hinput
    (append_ne_nil_of_right_ne_nil _ (cons_ne_nil _ _))
  have hcomes' : Comes (serialized scheme url [] none) .scheme URL.new scheme
      (byte ':' :: (hostText url.host url.port ++ afterHost url [] none)) (.url url'') := by
    rw [hrest]
    exact hcomes
  rw [parse_serialized htext (fun heq => hdata (by rw [hscheme, heq])) hclean hcomes'] at hurl'
  cases hurl'
  obtain hvalid | hhost' | hpaths := hdiffers
  · exact Bool.false_ne_true (hvalid.symm.trans hsame.valid)
  · exact hhost' (hsame.host.trans hhost)
  · exact hpaths (hsame.paths.trans hnil)

/-! ## Hosts outside ASCII -/

theorem getElem?_middle {before middle after : List UInt8} (hle : before.length ≤ i)
    (hlt : i < before.length + middle.length) :
    (before ++ (middle ++ after))[i]? = middle[i - before.length]? := by
  rw [List.getElem?_append_right hle, List.getElem?_append_left (by omega)]

theorem plainByte_of_schemeByte (h : SchemeByte b) : PlainByte b := by
  have hne : ∀ x : Char, (isAsciiAlphanumeric (byte x).toNat || isChar (byte x).toNat '+' ||
      isChar (byte x).toNat '-' || isChar (byte x).toNat '.') = false → b ≠ byte x := by
    rintro x hx rfl
    have hscheme := h.2.2
    rw [hx] at hscheme
    cases hscheme
  exact ⟨hne '%' (by decide), hne '@' (by decide), hne '[' (by decide), hne ']' (by decide),
    hne '/' (by decide), hne '?' (by decide), hne '#' (by decide), hne '\\' (by decide)⟩

theorem plainByte_of_notMem (h : b ∉ forbiddenHostCodePoints) : PlainByte b := by
  have hne : ∀ x : Char, byte x ∈ forbiddenHostCodePoints → b ≠ byte x :=
    fun x hx heq => h (heq ▸ hx)
  exact ⟨hne '%' (by decide), hne '@' (by decide), hne '[' (by decide), hne ']' (by decide),
    hne '/' (by decide), hne '?' (by decide), hne '#' (by decide), hne '\\' (by decide)⟩

theorem plainByte_portText (hport : PortShape scheme port) : ∀ b ∈ portText port, PlainByte b := by
  cases port with
  | none => exact fun _ hb => (nomatch hb)
  | some port =>
    obtain ⟨hlt, -⟩ := hport port rfl
    have hall : ∀ port < 10, ∀ b ∈ byte ':' :: decimalPort port,
        b ∉ byte ':' :: forbiddenHostCodePoints ∨ b = byte ':' := by decide
    intro b hb
    obtain hnot | rfl := hall port hlt b hb
    · exact plainByte_of_notMem fun hmem => hnot (mem_cons_of_mem _ hmem)
    · unfold PlainByte
      decide

/-- A host that begins before the authority ends at the colon or a slash. -/
theorem asciiRun_scheme (htext : SchemeText scheme) (url : URL) (rest : List UInt8)
    (hlt : i < scheme.length + 3) :
    AsciiRun (scheme ++ ([byte ':', byte '/', byte '/'] ++ rest)) url i := by
  have hseparator : ∀ k < 3, ∃ b, ([byte ':', byte '/', byte '/'] ++ rest)[k]? = some b ∧
      b < 0x80 ∧ (isChar b.toNat ':' || endsAuthority url b.toNat) = true := by
    intro k hk
    have hall : ∀ k < 3, ∃ b ∈ [byte ':', byte '/', byte '/'][k]?,
        b < 0x80 ∧ (isChar b.toNat ':' || isDelimiter b.toNat) = true := by decide
    obtain ⟨b, hb, hascii, hstop⟩ := hall k hk
    refine ⟨b, by rw [List.getElem?_append_left (by simpa using hk)]; exact hb, hascii, ?_⟩
    rw [endsAuthority, ← Bool.or_assoc, hstop, Bool.true_or]
  have hafter : ∀ d, scheme.length ≤ d → d < scheme.length + 3 →
      (isChar (codePointFrom (scheme ++ ([byte ':', byte '/', byte '/'] ++ rest)) d) ':' ||
        endsAuthority url (codePointFrom (scheme ++ ([byte ':', byte '/', byte '/'] ++ rest)) d)) =
          true := by
    intro d hle hd
    obtain ⟨b, hb, hascii, hstop⟩ := hseparator (d - scheme.length) (by omega)
    rw [← List.getElem?_append_right hle] at hb
    rwa [codePointFrom_ascii hb hascii]
  by_cases hscheme : i < scheme.length
  · refine ⟨scheme.length, Nat.le_of_lt hscheme, hafter _ (Nat.le_refl _) (by omega),
      fun j _ hj => ?_⟩
    rw [List.getElem?_append_left hj, List.getElem?_eq_getElem hj]
    have hbyte := htext.2 _ (getElem_mem hj)
    exact ⟨_, rfl, hbyte.1, plainByte_of_schemeByte hbyte⟩
  · exact ⟨i, Nat.le_refl i, hafter i (Nat.not_lt.mp hscheme) hlt,
      fun j hle hj => absurd hj (Nat.not_lt.mpr hle)⟩

theorem authorityAt_special (htext : SchemeText scheme) (hspecial : isSpecialScheme scheme = true)
    (hhost : SpecialHost host) (hport : PortShape scheme port) (rest : List UInt8) :
    AuthorityAt (scheme ++ byte ':' :: byte '/' :: byte '/' ::
        ((host ++ portText port) ++ byte '/' :: rest)) (withScheme scheme)
      (scheme.length + 3) (scheme.length + 3 + (host ++ portText port).length) := by
  have hbefore : (scheme ++ [byte ':', byte '/', byte '/']).length = scheme.length + 3 := by
    rw [length_append]
    rfl
  have hinput : scheme ++ byte ':' :: byte '/' :: byte '/' ::
      ((host ++ portText port) ++ byte '/' :: rest) =
        (scheme ++ [byte ':', byte '/', byte '/']) ++
          ((host ++ portText port) ++ byte '/' :: rest) := by simp
  rw [hinput]
  have hmiddle : ∀ i, scheme.length + 3 ≤ i →
      i < scheme.length + 3 + (host ++ portText port).length →
      ((scheme ++ [byte ':', byte '/', byte '/']) ++
        ((host ++ portText port) ++ byte '/' :: rest))[i]? =
          (host ++ portText port)[i - (scheme.length + 3)]? := by
    intro i hle hlt
    rw [← hbefore] at hle hlt ⊢
    exact getElem?_middle hle hlt
  have hplain : ∀ b ∈ host ++ portText port, PlainByte b := forall_mem_append.mpr
    ⟨fun b hb => plainByte_of_notMem (hhost.2 b hb), plainByte_portText hport⟩
  refine ⟨hspecial, fun i _ hlt => ?_, ?_, fun i hle hlt => ?_, fun i hle hcolon j hij hlt => ?_, ?_⟩
  · rw [List.append_assoc]
    exact asciiRun_scheme htext (withScheme scheme) _ hlt
  · have hne := length_pos_of_ne_nil hhost.1
    rw [length_append]
    omega
  · rw [hmiddle i hle hlt]
    have hlt' : i - (scheme.length + 3) < (host ++ portText port).length := by omega
    exact ⟨_, List.getElem?_eq_getElem hlt', hplain _ (getElem_mem hlt')⟩
  · rw [hmiddle i hle (Nat.lt_of_le_of_lt hij hlt)] at hcolon
    rw [hmiddle j (Nat.le_trans hle hij) hlt]
    have hafter : host.length ≤ i - (scheme.length + 3) := by
      by_contra hbefore'
      rw [List.getElem?_append_left (by omega)] at hcolon
      exact hhost.2 _ (mem_of_getElem? hcolon) (by decide)
    rw [length_append] at hlt
    rw [List.getElem?_append_right (by omega), List.getElem?_eq_getElem (by omega)]
    refine ⟨_, rfl, (portText_bytes (withScheme scheme) hport _ (getElem_mem _)).2.2.2⟩
  · rw [← hbefore, List.getElem?_append_right (by omega), List.getElem?_append_right (by omega)]
    simp

theorem SpecialHost.ne_of_mem (h : SpecialHost host) (hb : b ∈ host) : b ≠ 0x09 ∧ b ≠ 0x0a := by
  have hforbidden := h.2 b hb
  constructor
  · rintro rfl
    exact hforbidden (by decide)
  · rintro rfl
    exact hforbidden (by decide)

/-- What a special URL with segments is serialized as is read with a host in ASCII, or none. -/
theorem ascii_of_parse_special (h : Shaped url) (hdata : url.scheme ≠ some data)
    (hscheme : url.scheme = some scheme) (hspecial : isSpecialScheme scheme = true)
    (hfile : scheme ≠ URL.file) (hhost : url.host = some host)
    (hfragment : FragmentText url.fragment fragment) (htexts : Texts url.paths texts)
    (hlength : (serialized scheme url (byte '/' :: joined texts) fragment).length < 2 ^ 60)
    (hparse : parse (serialized scheme url (byte '/' :: joined texts) fragment) none
      none none = .url url') (hvalid : url'.valid = true) :
    ∀ host ∈ url'.host, ∀ b ∈ host, b < 0x80 := by
  obtain ⟨scheme', hscheme', htext⟩ := h.scheme
  cases hscheme.symm.trans hscheme'
  have hshape := h.host host hhost
  rw [hscheme, getD_some, HostShape, if_neg hfile, if_pos hspecial] at hshape
  obtain ⟨hhostShape, hport⟩ := hshape
  have hpath : ∀ b ∈ byte '/' :: joined texts, Unencoded .path b :=
    forall_mem_cons.mpr ⟨unencoded_slash, unencoded_joined htexts⟩
  have hgraphic := graphic_rest h hfragment hpath
  have hrest : hostText url.host url.port ++ afterHost url (byte '/' :: joined texts) fragment =
      byte '/' :: byte '/' :: ((host ++ portText url.port) ++ byte '/' ::
        (joined texts ++ (queryText url.query ++ fragmentText fragment))) := by
    rw [hhost, hostText_some_append, afterHost, List.append_assoc, List.cons_append]
  have hclean : Clean (serialized scheme url (byte '/' :: joined texts) fragment) := by
    refine clean_text htext ?_ (getLast?_of_graphic hgraphic fun hnil =>
      absurd hnil (cons_ne_nil _ _))
    refine forall_mem_append.mpr ⟨fun b hb => ?_, fun b hb => graphic_ne (hgraphic b hb)⟩
    have hslash : byte '/' ≠ 0x09 ∧ byte '/' ≠ 0x0a := by decide
    rw [hhost] at hb
    obtain rfl | hb := mem_cons.mp hb
    · exact hslash
    obtain rfl | hb := mem_cons.mp hb
    · exact hslash
    obtain hb | hb := mem_append.mp hb
    · exact hhostShape.ne_of_mem hb
    · exact graphic_ne (portText_bytes url hport b hb).2.2
  have hauthority := authorityAt_special htext hspecial hhostShape hport
    (joined texts ++ (queryText url.query ++ fragmentText fragment))
  have hinput : serialized scheme url (byte '/' :: joined texts) fragment =
      scheme ++ byte ':' :: byte '/' :: byte '/' :: ((host ++ portText url.port) ++ byte '/' ::
        (joined texts ++ (queryText url.query ++ fragmentText fragment))) := by
    rw [serialized, hrest]
  rw [← hinput] at hauthority
  have hplace : At (serialized scheme url (byte '/' :: joined texts) fragment)
      .specialAuthorityIgnoreSlashes (withScheme scheme) []
      ((host ++ portText url.port) ++ byte '/' ::
        (joined texts ++ (queryText url.query ++ fragmentText fragment)))
      { start none none with
        state := .specialAuthorityIgnoreSlashes, url := withScheme scheme
        position := scheme.length + 3 } := by
    refine ⟨rfl, rfl, rfl, rfl, rfl, rfl, ?_, ?_⟩
    · rw [hinput]
      exact drop_length_add_append 3
    · simp only [hinput, length_append, length_cons]
      omega
  have hcomes := comes_colon_special hfile hspecial (comes_specialAuthoritySlashes hplace.comes)
  rw [← hrest] at hcomes
  rw [parse_serialized htext (fun heq => hdata (by rw [hscheme, heq])) hclean hcomes] at hparse
  refine ascii_or_no_host hauthority rfl hlength ?_ hparse hvalid
  exact ⟨⟨rfl, rfl, rfl, rfl⟩, Nat.le_refl _, hauthority.lt,
    fun i hle hlt => absurd hlt (Nat.not_lt.mpr hle)⟩

theorem ascii_of_roundTrips (h : Shaped url) (hdata : url.scheme ≠ some data)
    (hlength : ∀ text, url.serialize = some text → text.length < 2 ^ 60)
    (hroundTrips : RoundTrips url) (hhost : url.host = some host) (hne : url.paths ≠ []) :
    ∀ b ∈ host, b < 0x80 := by
  obtain ⟨scheme, hscheme, htext⟩ := h.scheme
  cases hspecial : isSpecialScheme scheme with
  | false =>
    have hspecial' : url.isSpecial = false := by rwa [isSpecial, hscheme]
    exact (h.opaqueHost hspecial' host hhost).ascii
  | true =>
    by_cases hfile : scheme = URL.file
    · have hshape := h.host host hhost
      rw [hscheme, getD_some, HostShape, if_pos hfile] at hshape
      exact hshape.1.ascii
    have hbaseless : url.cannotBeABaseUrl = false := by
      by_contra hbaseless
      have hspecial' := (h.path (Bool.not_eq_false _ ▸ hbaseless)).1
      rw [isSpecial, hscheme, any_some, hspecial] at hspecial'
      cases hspecial'
    have hserialize := fun pathText fragment hpath hfragment =>
      hlength _ ((serialize_eq_some h hdata hscheme).mpr
        ⟨pathText, fragment, hpath, hfragment, rfl⟩)
    obtain ⟨pathText, fragment, hpath, hfragment, url', hparse, hsame⟩ :=
      (roundTrips_iff_serialized h hdata hscheme).mp hroundTrips
    have hlength' := hserialize pathText fragment hpath hfragment
    obtain ⟨texts, htexts, rfl⟩ := (serializePath_eq_some hbaseless hne).mp hpath
    rw [pathPrefix_of_host hhost, nil_append] at hlength' hparse
    exact ascii_of_parse_special h hdata hscheme hspecial hfile hhost hfragment htexts hlength'
      hparse hsame.valid host (hsame.host.trans hhost)

/-! ## URLs without a host -/

theorem endSegment_dot (url : URL) : endSegment true url [byte '.'] = url := by
  have hdots : isDoubleDotPathSegment [byte '.'] = false ∧
      isSingleDotPathSegment [byte '.'] = true := by decide
  rw [endSegment, hdots.1, hdots.2]
  rfl

/-- The dot before a path is read as a segment that is dropped. -/
theorem reread_dot (url : URL) (text : List UInt8) :
    reread url (byte '.' :: byte '/' :: text) = reread url text := by
  have hread : readPath url [] [byte '.'] = (url, [byte '.']) := by
    have hnot : ∀ b ∈ [byte '.'], ¬ IsSeparator url b := by
      rintro b hb
      rw [mem_singleton.mp hb, IsSeparator, isSpecialBackslash,
        isChar_eq_false (by decide : byte '.' ≠ byte '\\')]
      simp [isSlash, isChar, byte]
    have hread := readPath_of_not_separator hnot [] []
    rwa [append_nil] at hread
  have hcons := reread_cons url [byte '.'] text
  rw [hread, endSegment_dot] at hcons
  exact hcons

theorem hosts_of_none (hhost : url.host = none) : ∀ host ∈ url.host, ∀ b ∈ host, b < 0x80 := by
  rw [hhost]
  exact fun _ hmem => (nomatch hmem)

theorem clean_hostless (h : Shaped url) (hscheme : url.scheme = some scheme) (hhost : url.host = none)
    (hfragment : FragmentText url.fragment fragment) (hpath : ∀ b ∈ pathText, Unencoded .path b) :
    Clean (serialized scheme url pathText fragment) :=
  clean_serialized h hscheme (hosts_of_none hhost) hfragment hpath fun _ => by
    rw [hhost]
    exact fun _ hb => (nomatch hb)

theorem afterHost_cons (url : URL) (b : UInt8) (pathText : List UInt8)
    (fragment : Option (List UInt8)) :
    afterHost url (b :: pathText) fragment = b :: afterHost url pathText fragment := rfl

theorem hostText_none (hhost : url.host = none) : hostText url.host url.port = [] := by
  rw [hhost]
  rfl

theorem head?_afterHost (url : URL) (fragment : Option (List UInt8))
    (hhead : text.head? ≠ some (byte '/')) :
    (afterHost url text fragment).head? ≠ some (byte '/') := by
  rw [afterHost, List.head?_append]
  cases hfirst : text.head? with
  | some b =>
    rw [hfirst] at hhead
    exact hhead
  | none =>
    obtain hnil | hquestion | hnumber := isTail_queryText url.query fragment
    · rw [hnil]
      exact fun heq => (nomatch heq)
    · rw [hquestion, none_or]
      decide
    · rw [hnumber, none_or]
      decide

/-- A path without a host that does not look like an authority. -/
theorem parse_hostless (h : Shaped url) (hdata : url.scheme ≠ some data)
    (hscheme : url.scheme = some scheme) (hspecial : isSpecialScheme scheme = false)
    (hhost : url.host = none) (hfragment : FragmentText url.fragment fragment)
    (hpath : ∀ b ∈ text, Unencoded .path b) (hhead : text.head? ≠ some (byte '/')) :
    parse (serialized scheme url (byte '/' :: text) fragment) none none none =
      .url { reread (withScheme scheme) text with
        query := url.query, fragment := fragment.map percentDecode, valid := true } := by
  obtain ⟨scheme', hscheme', htext⟩ := h.scheme
  cases hscheme.symm.trans hscheme'
  have hpath' : ∀ b ∈ byte '/' :: text, Unencoded .path b :=
    forall_mem_cons.mpr ⟨unencoded_slash, hpath⟩
  have hgraphic := graphic_rest h hfragment hpath
  have hset : querySet (withScheme scheme) = querySet url := by
    simp only [querySet, isSpecial, hscheme]
    rfl
  have hquery : ∀ text ∈ url.query, ∀ b ∈ text, Unencoded (querySet (withScheme scheme)) b := by
    rw [hset]
    exact h.query
  have hnext := head?_afterHost url fragment hhead
  refine parse_serialized htext (fun heq => hdata (by rw [hscheme, heq]))
    (clean_hostless h hscheme hhost hfragment hpath') ?_
  rw [hostText_none hhost, nil_append, afterHost_cons]
  exact comes_colon_slash hspecial (comes_pathOrAuthority
    (fun b hb => (hgraphic b (List.mem_of_head? hb)).2) hnext
    (comes_path hpath rfl rfl hquery hfragment.graphic))

/-- A path without a host that looks like an authority is read as one. -/
theorem host_or_no_path_of_parse (h : Shaped url) (hdata : url.scheme ≠ some data)
    (hscheme : url.scheme = some scheme) (hspecial : isSpecialScheme scheme = false)
    (hhost : url.host = none) (hfragment : FragmentText url.fragment fragment)
    (hpath : ∀ b ∈ byte '/' :: byte '/' :: text, Unencoded .path b)
    (hparse : parse (serialized scheme url (byte '/' :: byte '/' :: text) fragment) none none none =
      .url url') (hvalid : url'.valid = true) : url'.paths = [] ∨ url'.host ≠ none := by
  obtain ⟨scheme', hscheme', htext⟩ := h.scheme
  cases hscheme.symm.trans hscheme'
  have hinput : serialized scheme url (byte '/' :: byte '/' :: text) fragment =
      scheme ++ byte ':' :: byte '/' :: byte '/' :: afterHost url text fragment := by
    rw [serialized, hostText_none hhost]
    rfl
  have hplace : At (serialized scheme url (byte '/' :: byte '/' :: text) fragment)
      .authority (withScheme scheme) [] (afterHost url text fragment)
      { start none none with
        state := .authority, url := withScheme scheme, position := scheme.length + 3 } := by
    refine ⟨rfl, rfl, rfl, rfl, rfl, rfl, ?_, ?_⟩
    · rw [hinput]
      exact drop_length_add_append 3
    · simp only [hinput, length_append, length_cons]
      omega
  have hcomes := comes_colon_slash hspecial (comes_pathOrAuthority_slash hplace.comes)
  have hrest : hostText url.host url.port ++ afterHost url (byte '/' :: byte '/' :: text) fragment =
      byte '/' :: byte '/' :: afterHost url text fragment := by
    rw [hostText_none hhost]
    rfl
  rw [← hrest] at hcomes
  rw [parse_serialized htext (fun heq => hdata (by rw [hscheme, heq]))
    (clean_hostless h hscheme hhost hfragment hpath) hcomes] at hparse
  exact host_or_no_path ⟨.inl rfl, rfl⟩ hparse hvalid

theorem beforePath_none (h : Based url) (hhost : url.host = none) :
    beforePath scheme url = withScheme scheme := by
  rw [beforePath, hhost, h.port hhost]
  rfl

/-- Where the text of a path begins with a slash and no dot is put before it, a segment has a
slash in it. -/
theorem not_stable_of_slash (hhost : url.host = none) (hbaseless : url.cannotBeABaseUrl = false)
    (htexts : Texts url.paths texts) (hinitial : pathPrefix url = [])
    (hhead : (joined texts).head? = some (byte '/')) : ¬ Stable url := by
  intro hstable
  have hsegments := hstable.segments hbaseless
  unfold pathPrefix at hinitial
  generalize url.paths = paths at htexts hinitial hsegments
  cases htexts with
  | nil => cases hhead
  | @cons segment text segments texts hencode htexts =>
    have hsegment := hsegments segment mem_cons_self
    have hnot := (separator_text_iff hencode hsegment.plain.1).mpr hsegment.separator
    have hempty : text ≠ [] → False := by
      intro hne
      cases text with
      | nil => exact hne rfl
      | cons b text =>
        have hb : b = byte '/' := by
          cases htexts with
          | nil => exact some.inj hhead
          | cons _ _ => exact some.inj hhead
        exact hnot b mem_cons_self (hb ▸ isSeparator_slash url)
    have hnil : text = [] := by
      by_contra hne
      exact hempty hne
    rw [hnil] at hencode hhead
    have hlength := percentEncode_length hencode
    have hsegmentNil : segment = [] := length_eq_zero_iff.mp (Nat.le_zero.mp hlength)
    cases htexts with
    | nil => cases hhead
    | cons _ _ =>
      rw [if_pos ⟨hhost, by simp, by rw [hsegmentNil]; rfl⟩] at hinitial
      cases hinitial

/-- A URL without a host but with segments survives exactly when it is stable. -/
theorem roundTrips_iff_of_hostless (h : Shaped url) (hdata : url.scheme ≠ some data)
    (hbaseless : url.cannotBeABaseUrl = false) (hhost : url.host = none) (hne : url.paths ≠ []) :
    RoundTrips url ↔ Stable url := by
  obtain ⟨scheme, hscheme, -⟩ := h.scheme
  have hspecial : isSpecialScheme scheme = false := by
    by_contra hspecial
    refine hne (h.hostless ?_ hhost)
    rw [isSpecial, hscheme, any_some]
    exact Bool.not_eq_false _ ▸ hspecial
  have hparse : ∀ texts fragment, Texts url.paths texts → FragmentText url.fragment fragment →
      (pathPrefix url = [] → (joined texts).head? ≠ some (byte '/')) →
      parse (serialized scheme url (pathPrefix url ++ byte '/' :: joined texts) fragment) none none
        none = .url (reparsed scheme url (joined texts) fragment) := by
    intro texts fragment htexts hfragment hhead
    rw [reparsed, beforePath_none h.toBased hhost]
    by_cases hinitial : pathPrefix url = []
    · rw [hinitial, nil_append]
      exact parse_hostless h hdata hscheme hspecial hhost hfragment (unencoded_joined htexts)
        (hhead hinitial)
    · have hdot : pathPrefix url = [byte '/', byte '.'] := by
        unfold pathPrefix at hinitial ⊢
        split at hinitial
        · next hcond => rw [if_pos hcond]; rfl
        · exact absurd rfl hinitial
      have hdotUnencoded : Unencoded .path (byte '.') := by
        rw [Unencoded]
        decide
      rw [hdot, ← reread_dot]
      exact parse_hostless h hdata hscheme hspecial hhost hfragment
        (forall_mem_cons.mpr ⟨hdotUnencoded, forall_mem_cons.mpr
          ⟨unencoded_slash, unencoded_joined htexts⟩⟩)
        fun heq => absurd (some.inj heq) (by decide)
  rw [roundTrips_iff_serialized h hdata hscheme]
  constructor
  · rintro ⟨pathText, fragment, hpath, hfragment, url', hurl', hsame⟩
    obtain ⟨texts, htexts, rfl⟩ := (serializePath_eq_some hbaseless hne).mp hpath
    have hhead : pathPrefix url = [] → (joined texts).head? ≠ some (byte '/') := by
      intro hinitial hhead
      cases hjoined : joined texts with
      | nil =>
        rw [hjoined] at hhead
        cases hhead
      | cons b text =>
        rw [hjoined] at hhead
        cases hhead
        have hunencoded : ∀ b ∈ byte '/' :: byte '/' :: text, Unencoded .path b := by
          rw [← hjoined]
          exact forall_mem_cons.mpr ⟨unencoded_slash, unencoded_joined htexts⟩
        rw [hinitial, hjoined, nil_append] at hurl'
        obtain hnil | hsome := host_or_no_path_of_parse h hdata hscheme hspecial hhost hfragment
          hunencoded hurl' hsame.valid
        · exact hne (hsame.paths.symm.trans hnil)
        · exact hsome (hsame.host.trans hhost)
    rw [hparse texts fragment htexts hfragment hhead] at hurl'
    cases hurl'
    exact (same_reparsed_iff hscheme hbaseless hne htexts hfragment (hosts_of_none hhost)).mp hsame
  · intro hstable
    obtain ⟨pathText, fragment, hpath, hfragment⟩ := hstable.exists_parts h hdata
    obtain ⟨texts, htexts, rfl⟩ := (serializePath_eq_some hbaseless hne).mp hpath
    have hhead : pathPrefix url = [] → (joined texts).head? ≠ some (byte '/') :=
      fun hinitial hhead => not_stable_of_slash hhost hbaseless htexts hinitial hhead hstable
    exact ⟨_, fragment, hpath, hfragment, _, hparse texts fragment htexts hfragment hhead,
      (same_reparsed_iff hscheme hbaseless hne htexts hfragment (hosts_of_none hhost)).mpr hstable⟩

/-! ## Opaque paths -/

theorem Text.of_slash {codePoints : List Nat} (h : Text (byte '/' :: text) codePoints) :
    ∃ rest, codePoints = (byte '/').toNat :: rest ∧ Text text rest := by
  generalize hwhole : byte '/' :: text = whole at h
  cases h with
  | nil => cases hwhole
  | plain hb h =>
    cases hwhole
    exact ⟨_, rfl, h⟩
  | encoded hencoding hhex hpercent h =>
    obtain ⟨encoding', hcons⟩ := percentEncoded_eq_cons hencoding
    rw [hcons, List.cons_append] at hwhole
    exact absurd (head_eq_of_cons_eq hwhole) (by decide)

theorem parse_opaquePath (h : Shaped url) (hdata : url.scheme ≠ some data)
    (hscheme : url.scheme = some scheme) (hspecial : isSpecialScheme scheme = false)
    (hhost : url.host = none) (hfragment : FragmentText url.fragment fragment)
    (hpath : ∀ b ∈ text, Unencoded .path b) (hhead : text.head? ≠ some (byte '/')) :
    parse (serialized scheme url text fragment) none none none =
      .url (withTail { withScheme scheme with
        cannotBeABaseUrl := true, paths := [percentDecode text] } text url.query fragment) := by
  obtain ⟨scheme', hscheme', htext⟩ := h.scheme
  cases hscheme.symm.trans hscheme'
  have hset : querySet (withScheme scheme) = querySet url := by
    simp only [querySet, isSpecial, hscheme]
    rfl
  have hquery : ∀ text ∈ url.query, ∀ b ∈ text, Unencoded (querySet (withScheme scheme)) b := by
    rw [hset]
    exact h.query
  refine parse_serialized htext (fun heq => hdata (by rw [hscheme, heq]))
    (clean_hostless h hscheme hhost hfragment hpath) ?_
  rw [hostText_none hhost, nil_append]
  refine comes_colon_opaquePath hspecial (head?_afterHost url fragment hhead)
    (comes_cannotBeABaseUrlPath_text rfl hpath ?_)
  exact comes_tail (query_bytes hquery)
    (fun text htext b hb => (hfragment.graphic text htext b hb).2) rfl
    (fun text p htail hp => step_cannotBeABaseUrlPath_end htail rfl hp)

theorem unencoded_query (h : Unencoded .path b) : Unencoded .query b := by
  refine ⟨h.1, ?_⟩
  have hset := h.2
  rw [codePointIsInPercentEncodeSet, isInPathSet, Bool.or_eq_false_iff] at hset
  exact hset.1

theorem percentEncode_eq_nil {path : List UInt8} (h : percentEncode path .path = some text) :
    text = [] ↔ path = [] := by
  constructor
  · rintro rfl
    exact length_eq_zero_iff.mp (Nat.le_zero.mp (percentEncode_length h))
  · rintro rfl
    exact (some.inj h).symm

/-- A text begins with a slash only where the path does, or it is not in ASCII. -/
theorem head?_percentEncode {path : List UInt8} (h : percentEncode path .path = some text)
    (hascii : ∀ b ∈ path, b < 0x80) (hhead : text.head? = some (byte '/')) :
    path.head? = some (byte '/') := by
  cases text with
  | nil => cases hhead
  | cons b text =>
    cases hhead
    obtain ⟨rest, hcodePoints, -⟩ := Text.of_slash (percentEncode_text h)
    cases path with
    | nil => cases hcodePoints
    | cons b path =>
      have hb := head_eq_of_cons_eq hcodePoints
      rw [codePointAt_ascii (hascii b mem_cons_self)] at hb
      rw [List.head?_cons, UInt8.toNat_inj.mp hb]

theorem head?_percentEncode_slash {path : List UInt8}
    (h : percentEncode (byte '/' :: path) .path = some text) : text.head? = some (byte '/') := by
  rw [percentEncode, codePoints, codePointAt_ascii ascii_slash, percentEncodeLoop,
    percentEncodedIfNecessary_unencoded unencoded_slash] at h
  obtain ⟨first, hfirst, h⟩ := bind_eq_some_iff.mp h
  obtain ⟨rest, -, h⟩ := bind_eq_some_iff.mp h
  cases hfirst
  cases h
  rfl

/-- An opaque path that seems to begin with a slash does not come back. -/
theorem not_roundTrips_of_slash (h : Shaped url) (hdata : url.scheme ≠ some data)
    (hspecial : url.isSpecial = false) (hhost : url.host = none) {path : List UInt8}
    (hbaseless : url.cannotBeABaseUrl = true) (hpaths : url.paths = [path])
    (htext : percentEncode path .path = some text) (hhead : text.head? = some (byte '/')) :
    ¬ RoundTrips url := by
  obtain ⟨scheme, hscheme, -⟩ := h.scheme
  have hspecial' : isSpecialScheme scheme = false := by
    rwa [isSpecial, hscheme, any_some] at hspecial
  rw [roundTrips_iff_serialized h hdata hscheme]
  rintro ⟨pathText, fragment, hpath, hfragment, url', hurl', hsame⟩
  rw [serializePath_singleton hbaseless hpaths, htext] at hpath
  cases hpath
  have hunencoded := unencoded_percentEncode htext
  cases text with
  | nil => cases hhead
  | cons b text =>
    cases hhead
    have hpath : ∀ b ∈ text, Unencoded .path b := (forall_mem_cons.mp hunencoded).2
    by_cases hsecond : text.head? = some (byte '/')
    · cases text with
      | nil => cases hsecond
      | cons b text =>
        cases hsecond
        obtain hnil | hsome := host_or_no_path_of_parse h hdata hscheme hspecial' hhost hfragment
          hunencoded hurl' hsame.valid
        · rw [hsame.paths, hpaths] at hnil
          cases hnil
        · exact hsome (hsame.host.trans hhost)
    · rw [parse_hostless h hdata hscheme hspecial' hhost hfragment hpath hsecond] at hurl'
      cases hurl'
      obtain ⟨rest, hcodePoints, hrest⟩ := Text.of_slash (percentEncode_text htext)
      have hweight := (weight_segment (withScheme scheme) false hrest rfl).1
      have hpaths' : (reread (withScheme scheme) text).paths = [path] := hsame.paths.trans hpaths
      change weight (reread (withScheme scheme) text).paths ≤ _ at hweight
      have hslash : asciiCount [(byte '/').toNat] = 1 := by decide
      have hzero : weight (withScheme scheme).paths = 0 := rfl
      rw [hpaths', weight_singleton, hcodePoints, asciiCount_cons, hslash, hzero] at hweight
      omega

/-- The query that is read after an opaque path is its own where there is no path. -/
theorem query_opaque_iff {query : List UInt8} (hspecial : url.isSpecial = false)
    (htext : ∀ b ∈ text, Unencoded .path b) (hquery : ∀ b ∈ query, Unencoded (querySet url) b) :
    percentEncodeAfterEncoding (text ++ query) (querySet url) = query ↔ text = [] := by
  have hset : querySet url = .query := by rw [querySet, hspecial]; rfl
  rw [hset] at hquery ⊢
  rw [percentEncodeAfterEncoding_unencoded (forall_mem_append.mpr
    ⟨fun b hb => unencoded_query (htext b hb), hquery⟩)]
  exact append_left_eq_self

theorem opaquePath_eq_iff {path : List UInt8} (h : percentEncode path .path = some text) :
    [percentDecode text] = [path] ↔ Plain path := by
  rw [singleton_inj, (percentEncode_text h).percentDecode, decoded_eq_iff]

/-- The URL that is read with an opaque path. -/
def opaqueUrl (scheme text : List UInt8) : URL :=
  { withScheme scheme with cannotBeABaseUrl := true, paths := [percentDecode text] }

/-- A URL with an opaque path comes back without loss where its parts do. -/
theorem same_opaque_iff {path : List UInt8} (h : Shaped url) (hscheme : url.scheme = some scheme)
    (hspecial : url.isSpecial = false) (hhost : url.host = none) (hpaths : url.paths = [path])
    (htext : percentEncode path .path = some text) (hfragment : FragmentText url.fragment fragment) :
    SameComponents (withTail (opaqueUrl scheme text) text url.query fragment) url ↔
      Plain path ∧ (url.query ≠ none → path = []) ∧
        (url.query = none → ∀ fragment ∈ url.fragment, ∃ text text',
          percentEncode path .path = some text ∧ percentEncode fragment .fragment = some text' ∧
            percentDecode (text ++ text') = fragment) ∧
        (url.query ≠ none → ∀ fragment ∈ url.fragment, Plain fragment) := by
  have hset : querySet (opaqueUrl scheme text) = querySet url := by
    simp only [querySet, isSpecial, hscheme]
    rfl
  have hport := h.port hhost
  have hpath := opaquePath_eq_iff htext
  have hplain := fragment_eq_iff hfragment
  have hquery := h.query
  cases hq : url.query with
  | none =>
    have hfragment' : (withTail (opaqueUrl scheme text) text none fragment).fragment = url.fragment ↔
        ∀ fragment ∈ url.fragment, ∃ text text', percentEncode path .path = some text ∧
          percentEncode fragment .fragment = some text' ∧
            percentDecode (text ++ text') = fragment := by
      generalize url.fragment = original at hfragment
      cases hfragment with
      | none => exact ⟨fun _ _ hmem => absurd hmem (not_mem_none _), fun _ => rfl⟩
      | @some original text' hencode =>
        constructor
        · rintro hread _ ⟨⟩
          exact ⟨text, text', htext, hencode, some.inj hread⟩
        · intro hall
          obtain ⟨text₁, text₂, htext₁, htext₂, hdecode⟩ := hall original rfl
          cases htext.symm.trans htext₁
          cases hencode.symm.trans htext₂
          exact congrArg some hdecode
    have hfields : ∀ fragment, SameComponents
        (withTail (opaqueUrl scheme text) text none fragment) url ↔
          [percentDecode text] = [path] ∧
            (withTail (opaqueUrl scheme text) text none fragment).fragment = url.fragment := by
      intro fragment
      constructor
      · intro hsame
        have hpaths' := hsame.paths.trans hpaths
        cases fragment <;> exact ⟨hpaths', hsame.fragment⟩
      · rintro ⟨hdecode, hread⟩
        refine ⟨?_, ?_, ?_, ?_, ?_, ?_, hread⟩
        · cases fragment <;> rfl
        · cases fragment <;> exact hscheme.symm
        · cases fragment <;> exact hhost.symm
        · cases fragment <;> exact hport.symm
        · rw [hpaths]
          cases fragment <;> exact hdecode
        · rw [hq]
          cases fragment <;> rfl
    rw [hfields, hpath, hfragment']
    simp
  | some query =>
    have hread := query_opaque_iff hspecial (unencoded_percentEncode htext) (hquery query hq)
    have hnil := percentEncode_eq_nil htext
    constructor
    · intro hsame
      have hquery' : some (percentEncodeAfterEncoding (text ++ query)
          (querySet (opaqueUrl scheme text))) = some query := hsame.query.trans hq
      rw [hset, some_inj, hread, hnil] at hquery'
      exact ⟨hpath.mp (hsame.paths.trans hpaths), fun _ => hquery',
        fun hnone => absurd hnone (some_ne_none _),
        fun _ => hplain.mp hsame.fragment⟩
    · rintro ⟨hplainPath, hempty, -, hplainFragment⟩
      refine ⟨rfl, hscheme.symm, hhost.symm, hport.symm, ?_, ?_, ?_⟩
      · rw [hpaths]
        exact hpath.mpr hplainPath
      · rw [hq]
        show some _ = some _
        rw [hset, hread.mpr (hnil.mpr (hempty (some_ne_none query)))]
      · exact hplain.mpr (hplainFragment (some_ne_none query))

theorem roundTrips_iff_of_opaquePath (h : Shaped url) (hdata : url.scheme ≠ some data)
    (hbaseless : url.cannotBeABaseUrl = true) : RoundTrips url ↔ Stable url := by
  obtain ⟨scheme, hscheme, -⟩ := h.scheme
  obtain ⟨hspecial, hhost, path, hpaths⟩ := h.path hbaseless
  have hspecial' : isSpecialScheme scheme = false := by
    rwa [isSpecial, hscheme, any_some] at hspecial
  have hmem : path ∈ url.paths := by rw [hpaths]; exact mem_singleton_self path
  have hpathText := serializePath_singleton hbaseless hpaths
  have hparse : ∀ text fragment, percentEncode path .path = some text →
      FragmentText url.fragment fragment → text.head? ≠ some (byte '/') →
      parse (serialized scheme url text fragment) none none none =
        .url (withTail (opaqueUrl scheme text) text url.query fragment) :=
    fun text fragment htext hfragment hhead =>
      parse_opaquePath h hdata hscheme hspecial' hhost hfragment (unencoded_percentEncode htext) hhead
  constructor
  · intro hroundTrips
    have hslash : ∀ text, percentEncode path .path = some text → text.head? ≠ some (byte '/') :=
      fun text htext hhead =>
        not_roundTrips_of_slash h hdata hspecial hhost hbaseless hpaths htext hhead hroundTrips
    obtain ⟨text, fragment, hpath, hfragment, url', hurl', hsame⟩ :=
      (roundTrips_iff_serialized h hdata hscheme).mp hroundTrips
    rw [hpathText] at hpath
    rw [hparse text fragment hpath hfragment (hslash text hpath)] at hurl'
    cases hurl'
    obtain ⟨hplain, hquery, hnone, hsome⟩ :=
      (same_opaque_iff h hscheme hspecial hhost hpaths hpath hfragment).mp hsame
    have hhead : path.head? ≠ some (byte '/') := by
      intro hhead
      cases path with
      | nil => cases hhead
      | cons b path =>
        cases hhead
        exact hslash text hpath (head?_percentEncode_slash hpath)
    refine ⟨hosts_of_none hhost, fun hnil => ?_, fun _ path' hpath' => ?_,
      fun hnot => absurd (hnot.symm.trans hbaseless) Bool.false_ne_true,
      fun hnot => absurd (hnot.symm.trans hbaseless) Bool.false_ne_true, ?_⟩
    · rw [hpaths] at hnil
      cases hnil
    · rw [hpaths] at hpath'
      rw [mem_singleton.mp hpath']
      exact ⟨hplain, hhead, hquery, hnone⟩
    · rintro (hnot | hne)
      · exact absurd (hnot.symm.trans hbaseless) Bool.false_ne_true
      · exact hsome hne
  · intro hstable
    obtain ⟨hplain, hhead, hquery, hnone⟩ := hstable.opaquePath hbaseless path hmem
    obtain ⟨text, fragment, hpath, hfragment⟩ := hstable.exists_parts h hdata
    rw [hpathText] at hpath
    have hslash : text.head? ≠ some (byte '/') := fun hslash =>
      hhead (head?_percentEncode hpath hplain.1 hslash)
    exact (roundTrips_iff_serialized h hdata hscheme).mpr ⟨text, fragment, hpathText.trans hpath,
      hfragment, _, hparse text fragment hpath hfragment hslash,
      (same_opaque_iff h hscheme hspecial hhost hpaths hpath hfragment).mpr
        ⟨hplain, hquery, hnone, fun hne => hstable.fragment (.inr hne)⟩⟩

/-! ## All URLs -/

/-- A URL survives if it is stable, and only then, as long as its text is not so long that
`Authority` goes back beyond its beginning to a place within it. -/
theorem Shaped.roundTrips_iff_stable (h : Shaped url) (hdata : url.scheme ≠ some data) :
    (Stable url → RoundTrips url) ∧
      ((∀ text, url.serialize = some text → text.length < 2 ^ 60) → RoundTrips url → Stable url) := by
  obtain ⟨scheme, hscheme, -⟩ := h.scheme
  cases hbaseless : url.cannotBeABaseUrl with
  | true =>
    have hiff := roundTrips_iff_of_opaquePath h hdata hbaseless
    exact ⟨hiff.mpr, fun _ => hiff.mp⟩
  | false =>
    cases hhost : url.host with
    | none =>
      by_cases hnil : url.paths = []
      · refine ⟨fun hstable => absurd hhost (hstable.pathless hnil).2, fun _ hroundTrips => ?_⟩
        exact absurd hroundTrips (not_roundTrips_of_empty h hdata hhost hnil)
      · have hiff := roundTrips_iff_of_hostless h hdata hbaseless hhost hnil
        exact ⟨hiff.mpr, fun _ => hiff.mp⟩
    | some host =>
      by_cases hnil : url.paths = []
      · cases hspecial : url.isSpecial with
        | true =>
          refine ⟨fun hstable => ?_, fun _ hroundTrips => ?_⟩
          · exact (nomatch hspecial.symm.trans (hstable.pathless hnil).1)
          · exact absurd hroundTrips (not_roundTrips_of_special h hdata hspecial hhost hnil)
        | false =>
          have hiff := roundTrips_iff_of_pathless h hdata hspecial hbaseless hhost hnil
          exact ⟨hiff.mpr, fun _ => hiff.mp⟩
      · have hiff : (∀ b ∈ host, b < 0x80) → (RoundTrips url ↔ Stable url) := fun hascii =>
          roundTrips_iff_of_segments h hdata hbaseless hhost hascii hnil
        exact ⟨fun hstable => (hiff (hstable.host host hhost)).mpr hstable,
          fun hlength hroundTrips =>
            (hiff (ascii_of_roundTrips h hdata hlength hroundTrips hhost hnil)).mp hroundTrips⟩

/-- Parsing what a parsed URL is serialized as gives its components if and only if it is
stable. -/
theorem parse_serialize_iff {input : List UInt8} {url : URL}
    (h : parse input none none none = .url url) (hvalid : url.valid = true)
    (hdata : url.scheme ≠ some data) : (Stable url → RoundTrips url) ∧
      ((∀ text, url.serialize = some text → text.length < 2 ^ 60) → RoundTrips url → Stable url) :=
  (shaped_of_parse h hvalid hdata).roundTrips_iff_stable hdata

/-- `http://h/` and a segment. -/
def onHost (segment : List UInt8) : List UInt8 :=
  literal ['h', 't', 't', 'p', ':', '/', '/', 'h', '/'] ++ segment

/-- What is parsed from it. -/
def urlOnHost (segment : List UInt8) : URL :=
  { withScheme http with valid := true, host := some (literal ['h']), paths := [segment] }

theorem parse_serialize_iff_p :
    (Stable (urlOnHost (literal ['p'])) → RoundTrips (urlOnHost (literal ['p']))) ∧
      ((∀ text, (urlOnHost (literal ['p'])).serialize = some text → text.length < 2 ^ 60) →
        RoundTrips (urlOnHost (literal ['p'])) → Stable (urlOnHost (literal ['p']))) :=
  have hparse : parse (onHost (literal ['p'])) none none none =
      .url (urlOnHost (literal ['p'])) := by decide
  parse_serialize_iff hparse rfl (by decide)

/-- An escaped percent sign is decoded, and what stands for it then is decoded again:
`%2541` is read as `%41`, and that as `A`. -/
theorem not_roundTrips_escaped_percent :
    ¬ ∀ (input : List UInt8) (url : URL), parse input none none none = .url url →
      url.valid = true → url.scheme ≠ some data → RoundTrips url := by
  intro h
  have hparse : parse (onHost (literal ['%', '2', '5', '4', '1'])) none none none =
      .url (urlOnHost (literal ['%', '4', '1'])) := by decide
  obtain ⟨text, url', htext, hurl', hsame⟩ := h _ _ hparse rfl (by decide)
  have hserialize : (urlOnHost (literal ['%', '4', '1'])).serialize =
      some (onHost (literal ['%', '4', '1'])) := by decide
  have hagain : parse (onHost (literal ['%', '4', '1'])) none none none =
      .url (urlOnHost (literal ['A'])) := by decide
  cases hserialize.symm.trans htext
  cases hagain.symm.trans hurl'
  exact absurd hsame.paths (by decide)

end Literate.AK.URLParser

import Literate.AK.URLPaths

/-!
# AK: the segments of a parsed URL

Where the segments of a URL come from that `parse` makes, with a base URL or without one:
from the base, from a drive letter, or from code points of the input that follow each other
and are decoded.  What holds of all these holds of the path.
-/

namespace Literate.AK.URLParser

open Foundation Utf8View URL List Option

variable (P : List UInt8 → Prop)

/-- A URL that can be a base has segments with `P`, and one that cannot is not special. -/
structure Fine (url : URL) : Prop where
  segments : url.cannotBeABaseUrl = false → ∀ segment ∈ url.paths, P segment
  opaque_path : url.cannotBeABaseUrl = true → url.isSpecial = false

/-- A URL that can be a base, and has segments with `P`. -/
def HasSegments (url : URL) : Prop :=
  url.cannotBeABaseUrl = false ∧ ∀ segment ∈ url.paths, P segment

/-- `P` holds of what a segment can come from. -/
structure Closed (input : List UInt8) (base : Option URL) : Prop where
  nil : P []
  base : ∀ url ∈ base, Fine P url
  drive : ∀ a b : UInt8, isAsciiAlpha a.toNat = true → b = byte ':' ∨ b = byte '|' → P [a, b]
  segment : ∀ (text : List UInt8) (cs : List Nat), Text text cs → cs <:+: codePoints input →
    0x2F ∉ cs → isDoubleDotPathSegment text = false → isSingleDotPathSegment text = false →
    P (decoded cs)

/-- The code points before the position stand in the buffer, or a drive letter does that the
code point ends. -/
def PathBuffer (input : List UInt8) (p : URLParser) : Prop :=
  (∃ cs, Text p.buffer cs ∧ cs <:+ (codePoints input).take p.position ∧ 0x2F ∉ cs) ∨
    (isWindowsDriveLetter p.buffer = true ∧
      (isDelimiter (codePoint input p) || isSpecialBackslash p.url (codePoint input p)) = true)

/-- What the states lead to. -/
def Segmented (input : List UInt8) (base : Option URL) (p : URLParser) : Prop :=
  match p.state with
  | .schemeStart => HasSegments P p.url ∧ p.buffer = []
  | .scheme => HasSegments P p.url
  | .noScheme => HasSegments P p.url ∧ p.buffer = []
  | .specialRelativeOrAuthority =>
    HasSegments P p.url ∧ p.buffer = [] ∧ ∀ url ∈ base, url.cannotBeABaseUrl = false
  | .pathOrAuthority => HasSegments P p.url ∧ p.buffer = []
  | .relative => HasSegments P p.url ∧ p.buffer = [] ∧ ∀ url ∈ base, url.cannotBeABaseUrl = false
  | .relativeSlash => HasSegments P p.url ∧ p.buffer = []
  | .specialAuthoritySlashes => HasSegments P p.url ∧ p.buffer = []
  | .specialAuthorityIgnoreSlashes => HasSegments P p.url ∧ p.buffer = []
  | .authority => HasSegments P p.url
  | .host => HasSegments P p.url
  | .hostname => HasSegments P p.url
  | .port => HasSegments P p.url
  | .file => HasSegments P p.url ∧ p.buffer = []
  | .fileSlash => HasSegments P p.url ∧ p.buffer = [] ∧ p.url.scheme = some URL.file
  | .fileHost => HasSegments P p.url ∧ p.url.scheme = some URL.file
  | .pathStart => HasSegments P p.url ∧ p.buffer = []
  | .path => HasSegments P p.url ∧ PathBuffer input p
  | .cannotBeABaseUrlPath => p.url.cannotBeABaseUrl = true ∧ p.url.isSpecial = false
  | .query => Fine P p.url
  | .fragment => Fine P p.url

/-- A step leads to segments with `P`, and so does the end. -/
def KeepsSegments (input : List UInt8) (base : Option URL) : Step → Prop :=
  Preserves input (Segmented P input base) (Fine P)

variable {P} {input : List UInt8} {base : Option URL} {p : URLParser} {c : Nat} {url : URL}

/-! ## Lemmas -/

theorem HasSegments.fine (h : HasSegments P url) : Fine P url where
  segments := fun _ => h.2
  opaque_path := fun hcannot => absurd (h.1 ▸ hcannot) Bool.false_ne_true

theorem Fine.withQuery (h : Fine P url) (query fragment : Option (List UInt8)) :
    Fine P { url with query := query, fragment := fragment } where
  segments := h.segments
  opaque_path := h.opaque_path

theorem pathBuffer_nil (h : p.buffer = []) : PathBuffer input p :=
  .inl ⟨[], h ▸ .nil, nil_suffix, not_mem_nil⟩

variable {p' : URLParser} {buffer : List UInt8}

theorem keepsSegments_next
    (h : Segmented P input base { p' with position := p'.position + 1 }) (hfine : Fine P p'.url) :
    KeepsSegments P input base (.next p') :=
  ⟨fun _ => h, fun _ => hfine⟩

theorem keepsSegments_stay {state : State} (hstate : p'.state = state)
    (h : Segmented P input base { p' with state := state, position := p'.position + 1 })
    (hfine : Fine P p'.url) : KeepsSegments P input base (.next p') := by
  subst hstate
  exact keepsSegments_next h hfine

theorem keepsSegments_nextAfterIncrement (hfine : Fine P p'.url)
    (h : ∀ position, Segmented P input base { p' with position := position }) :
    KeepsSegments P input base (nextAfterIncrement input p') := by
  rw [nextAfterIncrement, increment]
  split
  · exact keepsSegments_next (h _) hfine
  · trivial

theorem keepsSegments_ifRemainingStartsWithSlash {yes no : Step}
    (hyes : KeepsSegments P input base yes) (hno : KeepsSegments P input base no) :
    KeepsSegments P input base (ifRemainingStartsWithSlash input p' yes no) := by
  rw [ifRemainingStartsWithSlash]
  cases getRemaining input p' with
  | none => trivial
  | some remaining =>
    rw [bind_eq_bind, bind_some, orAbort, getD_some]
    split
    · exact hyes
    · exact hno

theorem keepsSegments_withHost {isNotSpecial : Bool} {f : List UInt8 → Step}
    (h : ∀ host, KeepsSegments P input base (f host)) :
    KeepsSegments P input base (withHost isNotSpecial p f) := by
  rw [withHost]
  cases parseHost p.buffer isNotSpecial with
  | none => trivial
  | some host =>
    cases host with
    | none => trivial
    | some host => exact h host

/-! ## The scheme -/

theorem keepsSegments_schemeStart (h : HasSegments P p.url ∧ p.buffer = []) :
    KeepsSegments P input base (schemeStart c p) := by
  rw [schemeStart]
  split
  · exact keepsSegments_next h.1 h.1.fine
  · exact h

section

variable (hclosed : Closed P input base)

include hclosed

theorem keepsSegments_schemeColon (h : HasSegments P p.url) :
    KeepsSegments P input base (schemeColon input base p) := by
  unfold schemeColon
  dsimp only
  split
  · cases getRemaining input _ with
    | none => trivial
    | some remaining => exact keepsSegments_next ⟨h, rfl⟩ (HasSegments.fine h)
  split
  · next hspecial =>
    split
    · next hsame =>
      refine keepsSegments_next ⟨h, rfl, fun url hurl => ?_⟩ (HasSegments.fine h)
      cases hurl
      rw [any_some, beq_iff_eq] at hsame
      -- A base of the same special scheme can be one.
      cases hcannot : url.cannotBeABaseUrl with
      | false => rfl
      | true =>
        have hnot := (hclosed.base url rfl).opaque_path hcannot
        rw [isSpecial, hsame] at hnot
        exact absurd hspecial (Bool.not_eq_true _ ▸ hnot)
    · exact keepsSegments_next ⟨h, rfl⟩ (HasSegments.fine h)
  · next hspecial =>
    have hcannot : Fine P ({ p.url with
        scheme := some p.buffer
        cannotBeABaseUrl := true }.appendPath []) :=
      ⟨fun hcannot => absurd hcannot.symm Bool.false_ne_true,
        fun _ => Bool.not_eq_true _ ▸ hspecial⟩
    refine keepsSegments_ifRemainingStartsWithSlash ?_ ?_
    · exact keepsSegments_nextAfterIncrement (HasSegments.fine h) fun _ => ⟨h, rfl⟩
    · exact keepsSegments_next ⟨rfl, hcannot.opaque_path rfl⟩ hcannot

theorem keepsSegments_scheme (hstate : p.state = .scheme)
    (h : HasSegments P p.url) : KeepsSegments P input base (scheme input base c p) := by
  rw [scheme]
  split
  · exact keepsSegments_stay hstate h h.fine
  split
  · exact keepsSegments_schemeColon hclosed h
  · exact ⟨h, rfl⟩

theorem keepsSegments_noScheme
    (h : HasSegments P p.url ∧ p.buffer = []) : KeepsSegments P input base (noScheme base c p) := by
  unfold noScheme
  cases base with
  | none => trivial
  | some url =>
    dsimp only
    cases hcannot : url.cannotBeABaseUrl with
    | true =>
      cases hhash : isChar c '#' with
      | false => trivial
      | true =>
        have hnot := (hclosed.base url rfl).opaque_path hcannot
        have hfine : Fine P { p.url with
            scheme := url.scheme
            paths := url.paths
            query := url.query
            fragment := some []
            cannotBeABaseUrl := true } := ⟨nofun, fun _ => hnot⟩
        exact keepsSegments_next hfine hfine
    | false =>
      simp only [Bool.false_and, if_neg Bool.false_ne_true]
      split
      · refine ⟨h.1, h.2, fun url' hurl => ?_⟩
        cases hurl
        exact hcannot
      · exact h

end

/-! ## Relative references -/

theorem keepsSegments_specialRelativeOrAuthority
    (h : HasSegments P p.url ∧ p.buffer = [] ∧ ∀ url ∈ base, url.cannotBeABaseUrl = false) :
    KeepsSegments P input base (specialRelativeOrAuthority input c p) := by
  rw [specialRelativeOrAuthority]
  split
  · refine keepsSegments_ifRemainingStartsWithSlash ?_ h
    exact keepsSegments_nextAfterIncrement h.1.fine fun _ => ⟨h.1, h.2.1⟩
  · exact h

theorem keepsSegments_pathOrAuthority (h : HasSegments P p.url ∧ p.buffer = []) :
    KeepsSegments P input base (pathOrAuthority c p) := by
  rw [pathOrAuthority]
  split
  · exact keepsSegments_next h.1 h.1.fine
  · exact ⟨h.1, pathBuffer_nil h.2⟩

theorem keepsSegments_relative (hclosed : Closed P input base)
    (h : HasSegments P p.url ∧ p.buffer = [] ∧ ∀ url ∈ base, url.cannotBeABaseUrl = false)
    (hstate : p.state = .relative) : KeepsSegments P input base (relative base c p) := by
  unfold relative
  cases base with
  | none => trivial
  | some url =>
    have hbase : ∀ segment ∈ url.paths, P segment :=
      (hclosed.base url rfl).segments (h.2.2 url rfl)
    dsimp only
    split
    · exact keepsSegments_next ⟨h.1, h.2.1⟩ (HasSegments.fine h.1)
    split
    · exact keepsSegments_next ⟨h.1, h.2.1⟩ (HasSegments.fine h.1)
    have hsegments : HasSegments P (fromBase url { p.url with scheme := url.scheme }) :=
      ⟨h.1.1, hbase⟩
    split
    · exact keepsSegments_next (hsegments.fine.withQuery _ _) (hsegments.fine.withQuery _ _)
    split
    · exact keepsSegments_next (hsegments.fine.withQuery _ _) (hsegments.fine.withQuery _ _)
    split
    · have hdropped : ∀ segment ∈ url.paths.dropLast, P segment := fun segment hsegment =>
        hbase segment ((dropLast_sublist _).subset hsegment)
      exact ⟨⟨h.1.1, hdropped⟩, pathBuffer_nil h.2.1⟩
    · exact keepsSegments_stay hstate ⟨hsegments, h.2⟩ hsegments.fine

theorem keepsSegments_relativeSlash (h : HasSegments P p.url ∧ p.buffer = []) :
    KeepsSegments P input base (relativeSlash base c p) := by
  unfold relativeSlash
  split
  · exact keepsSegments_next h h.1.fine
  split
  · exact keepsSegments_next h.1 h.1.fine
  · cases base with
    | none => trivial
    | some url => exact ⟨h.1, pathBuffer_nil h.2⟩

/-! ## Authorities -/

theorem keepsSegments_specialAuthoritySlashes (h : HasSegments P p.url ∧ p.buffer = []) :
    KeepsSegments P input base (specialAuthoritySlashes input c p) := by
  rw [specialAuthoritySlashes]
  split
  · refine keepsSegments_ifRemainingStartsWithSlash ?_ h
    exact keepsSegments_nextAfterIncrement h.1.fine fun _ => h
  · exact h

theorem keepsSegments_specialAuthorityIgnoreSlashes
    (hstate : p.state = .specialAuthorityIgnoreSlashes) (h : HasSegments P p.url ∧ p.buffer = []) :
    KeepsSegments P input base (specialAuthorityIgnoreSlashes c p) := by
  rw [specialAuthorityIgnoreSlashes]
  split
  · exact h.1
  · exact keepsSegments_stay hstate h h.1.fine

theorem keepsSegments_authority (hstate : p.state = .authority) (h : HasSegments P p.url) :
    KeepsSegments P input base (authority input c p) := by
  rw [authority]
  split
  · exact keepsSegments_stay hstate h h.fine
  split
  · split
    · trivial
    · exact keepsSegments_next h h.fine
  · exact keepsSegments_stay hstate h h.fine

theorem keepsSegments_host (hstate : p.state = .host ∨ p.state = .hostname)
    (h : HasSegments P p.url) : KeepsSegments P input base (host c p) := by
  have hstay : ∀ p' : URLParser, p'.state = p.state → p'.url = p.url →
      KeepsSegments P input base (.next p') := by
    intro p' hp' hurl
    cases hstate with
    | inl hstate => exact keepsSegments_stay (hp'.trans hstate) (hurl ▸ h) (hurl ▸ h.fine)
    | inr hstate => exact keepsSegments_stay (hp'.trans hstate) (hurl ▸ h) (hurl ▸ h.fine)
  rw [host]
  split
  · split
    · trivial
    · exact keepsSegments_withHost fun host => keepsSegments_next h (HasSegments.fine h)
  split
  · split
    · trivial
    · exact keepsSegments_withHost fun host => h
  split
  · exact hstay _ rfl rfl
  split
  · exact hstay _ rfl rfl
  · exact hstay _ rfl rfl

theorem keepsSegments_port (hstate : p.state = .port) (h : HasSegments P p.url) :
    KeepsSegments P input base (port c p) := by
  rw [port]
  split
  · exact keepsSegments_stay hstate h h.fine
  split
  · split
    · next hempty => exact ⟨h, List.isEmpty_iff.mp hempty⟩
    · split
      · trivial
      · split
        · trivial
        · exact ⟨h, rfl⟩
  · trivial

/-! ## File URLs -/

theorem isSpecial_of_file (h : url.scheme = some URL.file) : url.isSpecial = true := by
  rw [isSpecial, h]
  rfl

theorem Fine.of_file (h : Fine P url) (hfile : url.scheme = some URL.file) :
    ∀ segment ∈ url.paths, P segment := by
  refine h.segments (Bool.not_eq_true _ ▸ fun hcannot => ?_)
  exact Bool.false_ne_true ((h.opaque_path hcannot).symm.trans (isSpecial_of_file hfile))

section

variable (hclosed : Closed P input base)

include hclosed

theorem keepsSegments_file (hstate : p.state = .file) (h : HasSegments P p.url ∧ p.buffer = []) :
    KeepsSegments P input base (file input base c p) := by
  unfold file
  split
  · exact keepsSegments_next ⟨h.1, h.2, rfl⟩ (HasSegments.fine h.1)
  cases base with
  | none => exact keepsSegments_stay hstate h (HasSegments.fine h.1)
  | some url =>
    dsimp only
    split
    · next hfile =>
      have hbase := (hclosed.base url rfl).of_file hfile
      have hsegments : HasSegments P { p.url with
          scheme := some URL.file
          host := url.host
          paths := url.paths
          query := url.query } := ⟨h.1.1, hbase⟩
      split
      · exact keepsSegments_next (hsegments.fine.withQuery _ _) (hsegments.fine.withQuery _ _)
      split
      · exact keepsSegments_next (hsegments.fine.withQuery _ _) (hsegments.fine.withQuery _ _)
      split
      · cases substringView input p.position with
        | none => trivial
        | some substring =>
          refine ⟨?_, pathBuffer_nil h.2⟩
          split
          · exact ⟨h.1.1, forall_mem_nil _⟩
          · unfold removeLastPath
            split
            · exact hsegments
            · refine ⟨h.1.1, fun segment hsegment => ?_⟩
              exact hbase segment ((dropLast_sublist _).subset hsegment)
      · exact keepsSegments_stay hstate ⟨hsegments, h.2⟩ hsegments.fine
    · exact keepsSegments_stay hstate h (HasSegments.fine h.1)

theorem Closed.normalizedDrive {segment : List UInt8}
    (h : isNormalizedWindowsDriveLetter segment = true) : P segment := by
  unfold isNormalizedWindowsDriveLetter at h
  split at h
  · next a b =>
    obtain ⟨halpha, hcolon⟩ := Bool.and_eq_true_iff.mp h
    exact hclosed.drive a b halpha (.inl (beq_iff_eq.mp hcolon))
  · cases h

theorem keepsSegments_fileSlash (hstate : p.state = .fileSlash)
    (h : HasSegments P p.url ∧ p.buffer = [] ∧ p.url.scheme = some URL.file) :
    KeepsSegments P input base (fileSlash input base c p) := by
  have hstay : KeepsSegments P input base (.next p) := keepsSegments_stay hstate h h.1.fine
  unfold fileSlash
  split
  · exact keepsSegments_next ⟨h.1, h.2.2⟩ h.1.fine
  cases base with
  | none => exact hstay
  | some url =>
    dsimp only
    split
    · cases substringView input p.position with
      | none => trivial
      | some substring =>
        rw [bind_eq_bind, bind_some]
        split
        · exact ⟨h.1, pathBuffer_nil h.2.1⟩
        · cases url.paths[0]? with
          | none => trivial
          | some first =>
            rw [bind_some]
            refine ⟨?_, pathBuffer_nil h.2.1⟩
            split
            · next hdrive =>
              refine ⟨h.1.1, fun segment hsegment => ?_⟩
              cases mem_append.mp hsegment with
              | inl hold => exact h.1.2 segment hold
              | inr hnew =>
                rw [mem_singleton.mp hnew]
                exact hclosed.normalizedDrive hdrive
            · exact h.1
    · exact hstay

end

theorem keepsSegments_fileHost (hstate : p.state = .fileHost)
    (h : HasSegments P p.url ∧ p.url.scheme = some URL.file) :
    KeepsSegments P input base (fileHost (codePoint input p) p) := by
  rw [fileHost]
  split
  · next hend =>
    split
    · next hdrive =>
      refine ⟨h.1, .inr ⟨hdrive, ?_⟩⟩
      rw [isSpecialBackslash, isSpecial_of_file h.2, Bool.true_and]
      exact hend
    split
    · next hempty => exact ⟨h.1, List.isEmpty_iff.mp hempty⟩
    · exact keepsSegments_withHost fun host => ⟨h.1, rfl⟩
  · exact keepsSegments_stay hstate h h.1.fine

/-! ## Paths -/

theorem keepsSegments_pathStart (hstate : p.state = .pathStart)
    (h : HasSegments P p.url ∧ p.buffer = []) : KeepsSegments P input base (pathStart c p) := by
  have hpath : ∀ position, Segmented P input base
      { p with state := .path, position := position } :=
    fun _ => ⟨h.1, pathBuffer_nil h.2⟩
  rw [pathStart]
  split
  · split
    · exact hpath p.position
    · exact keepsSegments_next (hpath _) h.1.fine
  split
  · exact keepsSegments_next (h.1.fine.withQuery _ _) (h.1.fine.withQuery _ _)
  split
  · exact keepsSegments_next (h.1.fine.withQuery _ _) (h.1.fine.withQuery _ _)
  split
  · split
    · exact keepsSegments_next (hpath _) h.1.fine
    · exact hpath p.position
  · exact keepsSegments_stay hstate h h.1.fine

theorem exists_of_isWindowsDriveLetter (h : isWindowsDriveLetter buffer = true) :
    ∃ a b, buffer = [a, b] ∧ isAsciiAlpha a.toNat = true ∧ (b = byte ':' ∨ b = byte '|') := by
  unfold isWindowsDriveLetter at h
  split at h
  · next a b =>
    obtain ⟨halpha, hsign⟩ := Bool.and_eq_true_iff.mp h
    simp only [Bool.or_eq_true, beq_iff_eq] at hsign
    exact ⟨a, b, rfl, halpha, hsign⟩
  · cases h

section

variable (hclosed : Closed P input base)

include hclosed

theorem Closed.percentDecode_drive
    (h : isWindowsDriveLetter buffer = true) : P (percentDecode buffer) := by
  rw [percentDecode_of_notMem (percent_notMem_drive h)]
  obtain ⟨a, b, rfl, halpha, hsign⟩ := exists_of_isWindowsDriveLetter h
  exact hclosed.drive a b halpha hsign

theorem PathBuffer.addedSegment (h : PathBuffer input p)
    (hdouble : isDoubleDotPathSegment p.buffer = false)
    (hsingle : isSingleDotPathSegment p.buffer = false) : P (addedSegment p.url p.buffer) := by
  unfold URLParser.addedSegment normalizedDriveLetter
  split
  · next hdrive =>
    obtain ⟨a, b, hbuffer, halpha, -⟩ := exists_of_isWindowsDriveLetter hdrive.2.2
    refine hclosed.percentDecode_drive ?_
    rw [hbuffer, take_succ_cons, take_zero, singleton_append, isWindowsDriveLetter,
      halpha]
    rfl
  · cases h with
    | inl htext =>
      obtain ⟨cs, htext, hsuffix, hslash⟩ := htext
      rw [htext.percentDecode]
      have hinfix : cs <:+: codePoints input :=
        hsuffix.isInfix.trans (List.take_prefix _ _).isInfix
      exact hclosed.segment p.buffer cs htext hinfix hslash hdouble hsingle
    | inr hdrive => exact hclosed.percentDecode_drive hdrive.1

theorem HasSegments.endSegment (h : HasSegments P p.url)
    (hbuffer : PathBuffer input p) (slash : Bool) :
    HasSegments P (endSegment slash p.url p.buffer) := by
  have hremoved : HasSegments P (removeLastPath p.url) := by
    rw [removeLastPath]
    split
    · exact h
    · refine ⟨h.1, fun segment hsegment => ?_⟩
      exact h.2 segment ((dropLast_sublist _).subset hsegment)
  have happend : ∀ (url : URL) (segment : List UInt8), HasSegments P url → P segment →
      HasSegments P (url.appendPath segment) := by
    intro url segment hurl hsegment
    refine ⟨hurl.1, fun segment' hmem => ?_⟩
    cases mem_append.mp hmem with
    | inl hold => exact hurl.2 segment' hold
    | inr hnew => exact mem_singleton.mp hnew ▸ hsegment
  unfold URLParser.endSegment
  cases hdouble : isDoubleDotPathSegment p.buffer with
  | true =>
    rw [if_pos rfl]
    split
    · exact hremoved
    · exact happend _ _ hremoved hclosed.nil
  | false =>
    rw [if_neg Bool.false_ne_true]
    cases hsingle : isSingleDotPathSegment p.buffer with
    | true =>
      split
      · exact happend _ _ h hclosed.nil
      · exact h
    | false => exact happend _ _ h (hbuffer.addedSegment hclosed hdouble hsingle)

end

theorem take_codePoints_succ (h : p.position < input.length) :
    (codePoints input).take (p.position + 1) =
      (codePoints input).take p.position ++ [codePoint input p] := by
  have hget : ∀ (bytes : List UInt8) (i : Nat), i < bytes.length →
      (codePoints bytes)[i]? = some ((codePoint? (bytes.drop i)).getD endOfFile) := by
    intro bytes i hi
    induction bytes generalizing i with
    | nil => cases hi
    | cons b bytes ih =>
      cases i with
      | zero => rfl
      | succ i => exact ih i (Nat.lt_of_succ_lt_succ hi)
  rw [take_add_one, hget input p.position h]
  rfl

theorem keepsSegments_path (hclosed : Closed P input base) (hstate : p.state = .path)
    (h : HasSegments P p.url ∧ PathBuffer input p) :
    KeepsSegments P input base (path (codePoint input p) p) := by
  rw [path]
  split
  · have hsegments := h.1.endSegment hclosed h.2
      (isSlash (codePoint input p) || isSpecialBackslash p.url (codePoint input p))
    split
    · exact keepsSegments_next (hsegments.fine.withQuery _ _) (hsegments.fine.withQuery _ _)
    split
    · exact keepsSegments_next (hsegments.fine.withQuery _ _) (hsegments.fine.withQuery _ _)
    · exact keepsSegments_stay hstate ⟨hsegments, pathBuffer_nil rfl⟩ hsegments.fine
  · next hinner =>
    cases htext : percentEncodedIfNecessary (codePoint input p) .path with
    | none => trivial
    | some text =>
      refine keepsSegments_next ?_ (HasSegments.fine h.1)
      rw [Segmented]
      rw [hstate]
      refine ⟨h.1, ?_⟩
      cases h.2 with
      | inr hdrive => exact absurd hdrive.2 hinner
      | inl hbuffer =>
        obtain ⟨cs, hbuffer, hsuffix, hslash⟩ := hbuffer
        rw [Bool.or_eq_true, not_or, Bool.not_eq_true] at hinner
        have hlt := lt_of_codePoint_ne (isDelimiter_eq_false hinner.1)
        have hone : Text text [codePoint input p] := by
          have := percentEncodedIfNecessary_text htext .nil
          rwa [append_nil] at this
        refine .inl ⟨cs ++ [codePoint input p], hbuffer.append hone, ?_, ?_⟩
        · rw [take_codePoints_succ hlt]
          obtain ⟨before, hbefore⟩ := hsuffix
          exact ⟨before, by rw [← hbefore, List.append_assoc]⟩
        · intro hmem
          cases mem_append.mp hmem with
          | inl hold => exact hslash hold
          | inr hnew =>
            have hcode := mem_singleton.mp hnew
            rw [← hcode] at hinner
            exact absurd hinner.1 (by decide)

/-! ## Behind the path -/

theorem keepsSegments_cannotBeABaseUrlPath (hstate : p.state = .cannotBeABaseUrlPath)
    (h : p.url.cannotBeABaseUrl = true ∧ p.url.isSpecial = false) :
    KeepsSegments P input base (cannotBeABaseUrlPath c p) := by
  have hfine : ∀ url : URL, url.cannotBeABaseUrl = p.url.cannotBeABaseUrl →
      url.scheme = p.url.scheme → Fine P url := by
    intro url hcannot hscheme
    refine ⟨fun hnot => ?_, fun _ => ?_⟩
    · rw [hcannot, h.1] at hnot
      cases hnot
    · rw [isSpecial, hscheme]
      exact h.2
  rw [cannotBeABaseUrlPath]
  split
  · dsimp only
    split
    · exact keepsSegments_next (hfine _ rfl rfl) (hfine _ rfl rfl)
    split
    · exact keepsSegments_next (hfine _ rfl rfl) (hfine _ rfl rfl)
    split
    · cases percentEncodedIfNecessary c .c0Control with
      | none => trivial
      | some text => exact keepsSegments_stay hstate h (hfine _ rfl rfl)
    · exact keepsSegments_stay hstate h (hfine _ rfl rfl)
  · trivial

theorem keepsSegments_query (hstate : p.state = .query) (h : Fine P p.url) :
    KeepsSegments P input base (query c p) := by
  unfold query
  split
  · split
    · dsimp only
      split
      · exact keepsSegments_next (h.withQuery _ _) (h.withQuery _ _)
      · exact keepsSegments_stay hstate (h.withQuery _ _) (h.withQuery _ _)
    · trivial
  · exact keepsSegments_stay hstate h h

theorem keepsSegments_fragment (hstate : p.state = .fragment) (h : Fine P p.url) :
    KeepsSegments P input base (fragment c p) := by
  rw [fragment]
  split
  · exact keepsSegments_stay hstate h h
  · exact keepsSegments_stay hstate (h.withQuery _ _) (h.withQuery _ _)

/-! ## Steps and runs -/

theorem keepsSegments_step (hclosed : Closed P input base) (h : Segmented P input base p) :
    KeepsSegments P input base (step input base p) := by
  rw [step]
  rw [Segmented] at h
  cases hstate : p.state with
  | schemeStart => rw [hstate] at h; exact keepsSegments_schemeStart h
  | scheme => rw [hstate] at h; exact keepsSegments_scheme hclosed hstate h
  | noScheme => rw [hstate] at h; exact keepsSegments_noScheme hclosed h
  | specialRelativeOrAuthority => rw [hstate] at h; exact keepsSegments_specialRelativeOrAuthority h
  | pathOrAuthority => rw [hstate] at h; exact keepsSegments_pathOrAuthority h
  | relative => rw [hstate] at h; exact keepsSegments_relative hclosed h hstate
  | relativeSlash => rw [hstate] at h; exact keepsSegments_relativeSlash h
  | specialAuthoritySlashes => rw [hstate] at h; exact keepsSegments_specialAuthoritySlashes h
  | specialAuthorityIgnoreSlashes =>
    rw [hstate] at h; exact keepsSegments_specialAuthorityIgnoreSlashes hstate h
  | authority => rw [hstate] at h; exact keepsSegments_authority hstate h
  | host => rw [hstate] at h; exact keepsSegments_host (.inl hstate) h
  | hostname => rw [hstate] at h; exact keepsSegments_host (.inr hstate) h
  | port => rw [hstate] at h; exact keepsSegments_port hstate h
  | file => rw [hstate] at h; exact keepsSegments_file hclosed hstate h
  | fileSlash => rw [hstate] at h; exact keepsSegments_fileSlash hclosed hstate h
  | fileHost => rw [hstate] at h; exact keepsSegments_fileHost hstate h
  | pathStart => rw [hstate] at h; exact keepsSegments_pathStart hstate h
  | path => rw [hstate] at h; exact keepsSegments_path hclosed hstate h
  | cannotBeABaseUrlPath => rw [hstate] at h; exact keepsSegments_cannotBeABaseUrlPath hstate h
  | query => rw [hstate] at h; exact keepsSegments_query hstate h
  | fragment => rw [hstate] at h; exact keepsSegments_fragment hstate h

theorem hasSegments_new : HasSegments P URL.new := ⟨rfl, forall_mem_nil _⟩

/-- What `parse` makes has segments with `P`. -/
theorem fine_of_parse {rawInput : List UInt8}
    (hclosed : ∀ input ∈ processedInput rawInput none, Closed P input base)
    (h : parse rawInput base none none = .url url) : Fine P url := by
  have hnew : Fine P URL.new := hasSegments_new.fine
  cases parse_cases h with
  | inl heq => exact heq ▸ hnew
  | inr h =>
    cases h with
    | inl hdata =>
      obtain ⟨mimeType, payload, isBase64, rfl⟩ := hdata
      exact ⟨fun _ => forall_mem_nil _, nofun⟩
    | inr hloop =>
      obtain ⟨input, hinput, hloop⟩ := hloop
      cases valid_of_mainLoop hloop with
      | inl hvalid =>
        have hstart : Segmented P input base (start none none) := ⟨hasSegments_new, rfl⟩
        obtain ⟨url', hfine, rfl⟩ := exists_of_mainLoop
          (fun _ => keepsSegments_step (hclosed input hinput)) hstart hloop hvalid
        exact ⟨hfine.segments, hfine.opaque_path⟩
      | inr heq => exact heq ▸ hnew

end Literate.AK.URLParser

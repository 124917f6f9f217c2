import Literate.AK.URLTermination

/-!
# AK: where the URL parser aborts

Of the assertions and indices in the state machine and `parse_host` three kinds can fail:
a code point beyond Unicode that a path is to percent-encode, a file host in brackets, and
the first segment of a base file URL that has none.  `Ready` is what the transitions
establish for the others, and a run aborts exactly when it comes to a state that is not
`Safe`.
-/

namespace Literate.AK

open Foundation Utf8View List Option

/-! ## Percent encoding -/

theorem codePointToUtf8_eq_none {codePoint : Nat} :
    UnicodeUtils.codePointToUtf8 codePoint = none ↔ 0x10FFFF < codePoint := by
  rw [UnicodeUtils.codePointToUtf8]
  split_ifs <;> simp <;> omega

namespace URL

/-- Percent-encoding fails for what is beyond Unicode, which is in every set. -/
theorem percentEncodedIfNecessary_eq_none {codePoint : Nat} {set : PercentEncodeSet} :
    percentEncodedIfNecessary codePoint set = none ↔ 0x10FFFF < codePoint := by
  have hset : 0x10FFFF < codePoint → codePointIsInPercentEncodeSet codePoint set = true := by
    intro h
    have hcontrol : isInC0ControlSet codePoint = true := decide_eq_true (.inr (by omega))
    cases set <;>
      simp [codePointIsInPercentEncodeSet, isInFragmentSet, isInPathSet, isInQuerySet, hcontrol]
  rw [percentEncodedIfNecessary]
  split
  · rw [percentEncoded, map_eq_none_iff, codePointToUtf8_eq_none]
  · next hnot => exact ⟨fun h => (nomatch h), fun h => absurd (hset h) hnot⟩

theorem percentEncodeLoop_ne_none {set : PercentEncodeSet} {codePoints : List Nat}
    (h : ∀ c ∈ codePoints, c ≤ 0x10FFFF) : percentEncodeLoop set codePoints ≠ none := by
  induction codePoints with
  | nil => simp [percentEncodeLoop]
  | cons c codePoints ih =>
    obtain ⟨hc, hcodePoints⟩ := forall_mem_cons.mp h
    have hsome : percentEncodedIfNecessary c set ≠ none :=
      mt percentEncodedIfNecessary_eq_none.mp (Nat.not_lt.mpr hc)
    obtain ⟨text, htext⟩ := ne_none_iff_exists'.mp hsome
    obtain ⟨rest, hrest⟩ := ne_none_iff_exists'.mp (ih hcodePoints)
    simp [percentEncodeLoop, htext, hrest]

end URL

variable {isNotSpecial : Bool} {x : Char} {p' : URLParser}

namespace URLParser

open URL

/-- A buffer that code points have been appended to. -/
def Appended (buffer : List UInt8) : Prop :=
  ∃ codePoints : List Nat, buffer = codePoints.flatMap appendedCodePoint

theorem appended_nil : Appended [] := ⟨[], rfl⟩

variable {buffer : List UInt8}

section

variable (h : Appended buffer)

include h

theorem Appended.append (c : Nat) : Appended (buffer ++ appendedCodePoint c) := by
  obtain ⟨codePoints, rfl⟩ := h
  exact ⟨codePoints ++ [c], by rw [flatMap_append, flatMap_singleton]⟩

theorem Appended.codePoints_le : ∀ c ∈ codePoints buffer, c ≤ 0x10FFFF := by
  obtain ⟨appended, rfl⟩ := h
  induction appended with
  | nil => simp [codePoints]
  | cons c appended ih =>
    rw [flatMap_cons]
    exact codePoints_appended_le c ih

theorem Appended.percentEncode_ne_none (set : PercentEncodeSet) : percentEncode buffer set ≠ none :=
  percentEncodeLoop_ne_none h.codePoints_le

theorem Appended.parseOpaqueHost_ne_none : parseOpaqueHost buffer ≠ none := by
  rw [parseOpaqueHost]
  split
  · exact some_ne_none _
  · rw [Ne, map_eq_none_iff]
    exact h.percentEncode_ne_none _

end

/-- A host in brackets is what `parse_host` has still to do. -/
def Bracketed (buffer : List UInt8) : Prop :=
  buffer.head? = some (byte '[') ∧ buffer.getLast? = some (byte ']')

instance (buffer : List UInt8) : Decidable (Bracketed buffer) :=
  inferInstanceAs (Decidable (_ ∧ _))

/-- `parse_host` aborts for a host in brackets, and for none where the URL is special. -/
theorem parseHost_eq_none (h : Appended buffer) (hempty : isNotSpecial = false → buffer ≠ []) :
    parseHost buffer isNotSpecial = none ↔ Bracketed buffer := by
  rw [parseHost, Bracketed]
  by_cases hopen : buffer.head? = some (byte '[')
  · rw [if_pos hopen]
    split
    · next hclose => exact ⟨fun h => (nomatch h), fun h => absurd h.2 hclose⟩
    · next hclose => exact ⟨fun _ => ⟨hopen, not_not.mp hclose⟩, fun _ => rfl⟩
  · rw [if_neg hopen]
    refine ⟨fun hnone => ?_, fun h => absurd h.1 hopen⟩
    cases isNotSpecial with
    | true => exact absurd hnone h.parseOpaqueHost_ne_none
    | false =>
      have hbuffer : buffer.isEmpty = false := by
        cases buffer with
        | nil => exact absurd rfl (hempty rfl)
        | cons _ _ => rfl
      simp only [Bool.false_eq_true, if_false, hbuffer] at hnone
      split at hnone <;> cases hnone

/-! ## The invariant -/

/-- What the transitions to a state establish. -/
def Ready (base : Option URL) (p : URLParser) : Prop :=
  match p.state with
  | .schemeStart => p.buffer = [] ∧ p.url.paths = []
  | .scheme => p.url.paths = []
  | .noScheme => p.buffer = []
  | .specialRelativeOrAuthority => base ≠ none
  | .relative => base ≠ none
  | .relativeSlash => base ≠ none
  | .host => Appended p.buffer ∧ p.buffer.head? ≠ some (byte '[')
  | .hostname => Appended p.buffer ∧ p.buffer.head? ≠ some (byte '[')
  | .file => p.buffer = []
  | .fileSlash => p.buffer = []
  | .fileHost => Appended p.buffer
  | .cannotBeABaseUrlPath => p.url.paths = [[]]
  | .query => p.url.query = some []
  | _ => True

/-- The base is a file URL without a segment, and there is no drive letter ahead. -/
def LacksSegment (input : List UInt8) (base : Option URL) (p : URLParser) : Prop :=
  ∃ url, base = some url ∧ url.scheme = some URL.file ∧ url.paths = [] ∧
    startsWithWindowsDriveLetter (input.drop p.position) = false

/-- The branch that aborts is not taken. -/
def Safe (input : List UInt8) (base : Option URL) (p : URLParser) : Prop :=
  let c := codePoint input p
  match p.state with
  | .path => c = endOfFile ∨ c ≤ 0x10FFFF
  | .cannotBeABaseUrlPath => c = endOfFile ∨ c ≤ 0x10FFFF
  | .fileHost => (isDelimiter c || isChar c '\\') = true → ¬ Bracketed p.buffer
  | .fileSlash => (isSlash c || isChar c '\\') = false → ¬ LacksSegment input base p
  | _ => True

/-- A step aborts when the state is not safe, and otherwise leaves a state that is ready,
unless it is at the end. -/
def Keeps (input : List UInt8) (base : Option URL) (safe : Prop) : Step → Prop
  | .next p => safe ∧ (Ready base p ∨ input.length ≤ p.position)
  | .again p => safe ∧ Ready base p ∧ p.position ≤ input.length
  | .invalid => safe
  | .abort => ¬ safe

variable {input : List UInt8} {base : Option URL} {p : URLParser} {c : Nat}

/-! ## What reads ahead -/

theorem lengthAt_le (b : UInt8) (rest : List UInt8) : lengthAt b rest ≤ rest.length + 1 := by
  rw [lengthAt]
  split
  · omega
  · split_ifs <;> omega

theorem getRemaining_isSome (h : p.position < input.length) : ∃ r, getRemaining input p = some r := by
  have hdrop := drop_eq_getElem_cons h
  have hle := lengthAt_le input[p.position] (input.drop (p.position + 1))
  rw [length_drop] at hle
  rw [getRemaining, hdrop]
  simp only [length?, bind_eq_bind, bind_some, substringView]
  exact ⟨_, if_pos (by omega)⟩

set_option maxRecDepth 8192 in
theorem codePointAt_lt (b : UInt8) (rest : List UInt8) : codePointAt b rest < 0x200000 := by
  have hall : ∀ n < 256, ∀ r ∈ decodeFirstByte (UInt8.ofNat n),
      (r.1 + 1) * 64 ^ (r.2 - 1) ≤ 0x200000 := by decide
  have hreplacement : replacement < 0x200000 := by decide
  rw [codePointAt]
  cases hb : decodeFirstByte b with
  | none => exact hreplacement
  | some r =>
    obtain ⟨value, length⟩ := r
    have hbound := forall_byte (P := fun b => ∀ r ∈ decodeFirstByte b,
      (r.1 + 1) * 64 ^ (r.2 - 1) ≤ 0x200000) hall b _ hb
    have hextend := extend_lt (rest.take (length - 1)) value
    have hpow : 64 ^ (rest.take (length - 1)).length ≤ 64 ^ (length - 1) :=
      Nat.pow_le_pow_right (by decide) (length_take_le _ _)
    have hmul := Nat.mul_le_mul_left (value + 1) hpow
    dsimp only at hbound ⊢
    split
    · exact hreplacement
    · omega

theorem length_le_of_codePoint (h : codePoint input p = endOfFile) : input.length ≤ p.position := by
  by_contra hmore
  rw [codePoint, drop_eq_getElem_cons (Nat.lt_of_not_le hmore)] at h
  have hlt := codePointAt_lt input[p.position] (input.drop (p.position + 1))
  have heq : codePointAt input[p.position] (input.drop (p.position + 1)) = 0xFFFFFFFF := h
  omega

theorem lt_of_codePoint_ne (h : codePoint input p ≠ endOfFile) : p.position < input.length := by
  by_contra hdone
  refine h ?_
  rw [codePoint, drop_of_length_le (Nat.le_of_not_lt hdone)]
  rfl

theorem lt_of_isChar (h : isChar (codePoint input p) x = true) : p.position < input.length := by
  refine lt_of_codePoint_ne fun heof => ?_
  rw [heof, isChar, beq_iff_eq] at h
  have hlt := (byte x).toNat_lt
  rw [← h] at hlt
  exact absurd hlt (by decide)

theorem keeps_ifRemainingStartsWithSlash (h : p.position < input.length)
    (hposition : p'.position = p.position) {yes no : Step} (hyes : Keeps input base True yes)
    (hno : Keeps input base True no) :
    Keeps input base True (ifRemainingStartsWithSlash input p' yes no) := by
  obtain ⟨r, hr⟩ := getRemaining_isSome (p := p') (hposition ▸ h)
  rw [ifRemainingStartsWithSlash, hr]
  show Keeps input base True (if _ then yes else no)
  split
  · exact hyes
  · exact hno

theorem keeps_nextAfterIncrement (h : p'.position < input.length) (hready : Ready base p') :
    Keeps input base True (nextAfterIncrement input p') := by
  rw [nextAfterIncrement, increment, if_pos h]
  exact ⟨trivial, .inl hready⟩

/-! ## The states -/

theorem keeps_schemeStart (hready : p.buffer = [] ∧ p.url.paths = [])
    (hle : p.position ≤ input.length) : Keeps input base True (schemeStart c p) := by
  rw [schemeStart]
  split
  · exact ⟨trivial, .inl hready.2⟩
  · exact ⟨trivial, hready.1, hle⟩

theorem keeps_schemeColon (hready : p.url.paths = []) (h : p.position < input.length) :
    Keeps input base True (schemeColon input base p) := by
  rw [schemeColon]
  split
  · obtain ⟨r, hr⟩ := getRemaining_isSome
      (p := { p with url := { p.url with scheme := some p.buffer }, buffer := [] }) h
    rw [hr]
    exact ⟨trivial, .inl rfl⟩
  split
  · split
    · next hbase => exact ⟨trivial, .inl (fun hnone => by rw [hnone] at hbase; cases hbase)⟩
    · exact ⟨trivial, .inl trivial⟩
  · refine keeps_ifRemainingStartsWithSlash (p := p) h rfl (keeps_nextAfterIncrement h trivial) ?_
    refine ⟨trivial, .inl ?_⟩
    show (URL.appendPath _ []).paths = [[]]
    rw [URL.appendPath]
    simp [hready]

theorem keeps_scheme (hstate : p.state = .scheme) (hready : p.url.paths = []) :
    Keeps input base True (scheme input base (codePoint input p) p) := by
  rw [scheme]
  split
  · exact ⟨trivial, .inl (by simp [Ready, hstate, hready])⟩
  split
  · next hcolon => exact keeps_schemeColon hready (lt_of_isChar hcolon)
  · exact ⟨trivial, rfl, Nat.zero_le _⟩

theorem keeps_noScheme (hready : p.buffer = []) (hle : p.position ≤ input.length) :
    Keeps input base True (noScheme base c p) := by
  unfold noScheme
  cases base with
  | none => trivial
  | some base =>
    dsimp only
    split
    · trivial
    split
    · exact ⟨trivial, .inl trivial⟩
    split
    · exact ⟨trivial, some_ne_none _, hle⟩
    · exact ⟨trivial, hready, hle⟩

theorem keeps_specialRelativeOrAuthority (hready : base ≠ none) (hle : p.position ≤ input.length) :
    Keeps input base True (specialRelativeOrAuthority input (codePoint input p) p) := by
  rw [specialRelativeOrAuthority]
  split
  · next hslash =>
    have hlt := lt_of_isChar hslash
    exact keeps_ifRemainingStartsWithSlash hlt rfl (keeps_nextAfterIncrement hlt trivial)
      ⟨trivial, hready, hle⟩
  · exact ⟨trivial, hready, hle⟩

theorem keeps_pathOrAuthority (hle : p.position ≤ input.length) :
    Keeps input base True (pathOrAuthority c p) := by
  rw [pathOrAuthority]
  split
  · exact ⟨trivial, .inl trivial⟩
  · exact ⟨trivial, trivial, hle⟩

theorem keeps_relative (hstate : p.state = .relative) (hready : base ≠ none)
    (hle : p.position ≤ input.length) : Keeps input base True (relative base c p) := by
  unfold relative
  cases base with
  | none => exact absurd rfl hready
  | some base =>
    dsimp only
    split
    · exact ⟨trivial, .inl hready⟩
    split
    · exact ⟨trivial, .inl hready⟩
    split
    · exact ⟨trivial, .inl rfl⟩
    split
    · exact ⟨trivial, .inl trivial⟩
    split
    · exact ⟨trivial, trivial, hle⟩
    · exact ⟨trivial, .inl (by simp [Ready, hstate])⟩

theorem keeps_relativeSlash (hready : base ≠ none) (hle : p.position ≤ input.length) :
    Keeps input base True (relativeSlash base c p) := by
  unfold relativeSlash
  cases base with
  | none => exact absurd rfl hready
  | some base =>
    split
    · exact ⟨trivial, .inl trivial⟩
    split
    · exact ⟨trivial, .inl trivial⟩
    · exact ⟨trivial, trivial, hle⟩

theorem keeps_specialAuthoritySlashes (hle : p.position ≤ input.length) :
    Keeps input base True (specialAuthoritySlashes input (codePoint input p) p) := by
  rw [specialAuthoritySlashes]
  split
  · next hslash =>
    have hlt := lt_of_isChar hslash
    exact keeps_ifRemainingStartsWithSlash hlt rfl (keeps_nextAfterIncrement hlt trivial)
      ⟨trivial, trivial, hle⟩
  · exact ⟨trivial, trivial, hle⟩

theorem keeps_specialAuthorityIgnoreSlashes (hstate : p.state = .specialAuthorityIgnoreSlashes)
    (hle : p.position ≤ input.length) :
    Keeps input base True (specialAuthorityIgnoreSlashes c p) := by
  rw [specialAuthorityIgnoreSlashes]
  split
  · exact ⟨trivial, trivial, hle⟩
  · exact ⟨trivial, .inl (by simp [Ready, hstate])⟩

theorem keeps_authority (hstate : p.state = .authority) :
    Keeps input base True (authority input c p) := by
  rw [authority]
  split
  · exact ⟨trivial, .inl (by simp [Ready, hstate])⟩
  split
  · split
    · trivial
    · exact ⟨trivial, .inl ⟨appended_nil, by simp⟩⟩
  · exact ⟨trivial, .inl (by simp [Ready, hstate])⟩

/-- What is appended for a code point begins with a bracket for the bracket only. -/
theorem head?_appendedCodePoint_ne (h : isChar c '[' = false) :
    (appendedCodePoint c).head? ≠ some (byte '[') := by
  rw [appendedCodePoint, UnicodeUtils.codePointToUtf8]
  split_ifs with h1 h2 h3 h4 <;>
    simp only [getD_some, getD_none, List.head?_cons, ne_eq, some.injEq]
  · intro heq
    have hvalue := congrArg UInt8.toNat heq
    rw [UInt8.toNat_ofNat_of_lt' (by have : UInt8.size = 256 := rfl; omega)] at hvalue
    rw [isChar, hvalue, beq_self_eq_true] at h
    cases h
  · have hall : ∀ n < 32, UInt8.ofNat (n ||| 0xc0) ≠ byte '[' := by decide
    exact hall _ (Nat.lt_succ_of_le Nat.and_le_right)
  · have hall : ∀ n < 16, UInt8.ofNat (n ||| 0xe0) ≠ byte '[' := by decide
    exact hall _ (Nat.lt_succ_of_le Nat.and_le_right)
  · have hall : ∀ n < 8, UInt8.ofNat (n ||| 0xf0) ≠ byte '[' := by decide
    exact hall _ (Nat.lt_succ_of_le Nat.and_le_right)
  · decide

theorem keeps_withHost {safe : Prop} {f : List UInt8 → Step}
    (habort : parseHost p.buffer isNotSpecial = none ↔ ¬ safe)
    (h : safe → ∀ host, Keeps input base safe (f host)) :
    Keeps input base safe (withHost isNotSpecial p f) := by
  rw [withHost]
  cases hparse : parseHost p.buffer isNotSpecial with
  | none => exact habort.mp hparse
  | some host =>
    have hsafe : safe := not_not.mp fun hsafe => by
      rw [habort.mpr hsafe] at hparse
      cases hparse
    cases host with
    | none => exact hsafe
    | some host => exact h hsafe host

theorem keeps_host (hstate : p.state = .host ∨ p.state = .hostname)
    (hready : Appended p.buffer ∧ p.buffer.head? ≠ some (byte '[')) (hle : p.position ≤ input.length) :
    Keeps input base True (host c p) := by
  have hstay : ∀ p' : URLParser, p'.state = p.state → Appended p'.buffer →
      p'.buffer.head? ≠ some (byte '[') → Keeps input base True (.next p') := by
    intro p' hp' happended hhead
    refine ⟨trivial, .inl ?_⟩
    rw [Ready, hp']
    cases hstate with
    | inl hstate => rw [hstate]; exact ⟨happended, hhead⟩
    | inr hstate => rw [hstate]; exact ⟨happended, hhead⟩
  have hparse : (p.url.isSpecial = true → p.buffer ≠ []) →
      (parseHost p.buffer (!p.url.isSpecial) = none ↔ ¬ True) := by
    intro hempty
    rw [parseHost_eq_none hready.1 (by simpa using hempty)]
    exact ⟨fun hbracketed => absurd hbracketed.1 hready.2, fun h => absurd trivial h⟩
  rw [host]
  split
  · split
    · trivial
    · next hempty =>
      exact keeps_withHost (hparse fun _ h => hempty (by rw [h]; rfl)) fun _ _ => ⟨trivial, .inl trivial⟩
  split
  · split
    · trivial
    · next hempty =>
      refine keeps_withHost (hparse fun hspecial h => hempty ?_) fun _ _ => ⟨trivial, trivial, hle⟩
      rw [hspecial, h]
      rfl
  split
  · exact hstay _ rfl hready.1 hready.2
  · next hopen =>
    split
    · exact hstay _ rfl hready.1 hready.2
    · refine hstay _ rfl (hready.1.append c) ?_
      have hcode := head?_appendedCodePoint_ne (c := c) (by simpa using hopen)
      have hbuffer := hready.2
      rw [List.head?_append]
      cases hhead : p.buffer.head? with
      | none => exact hcode
      | some b => rwa [hhead] at hbuffer

theorem keeps_port (hstate : p.state = .port) (hle : p.position ≤ input.length) :
    Keeps input base True (port c p) := by
  rw [port]
  split
  · exact ⟨trivial, .inl (by simp [Ready, hstate])⟩
  split
  · split
    · exact ⟨trivial, trivial, hle⟩
    · split
      · trivial
      · split
        · trivial
        · exact ⟨trivial, trivial, hle⟩
  · trivial

theorem keeps_file (hstate : p.state = .file) (hready : p.buffer = [])
    (hle : p.position ≤ input.length) : Keeps input base True (file input base c p) := by
  unfold file
  have hstay : ∀ p' : URLParser, p'.state = p.state → p'.buffer = p.buffer →
      Keeps input base True (.next p') := by
    intro p' hp' hbuffer
    exact ⟨trivial, .inl (by simp [Ready, hp', hstate, hbuffer, hready])⟩
  split
  · exact ⟨trivial, .inl hready⟩
  cases base with
  | none => exact hstay _ rfl rfl
  | some base =>
    dsimp only
    split
    · split
      · exact ⟨trivial, .inl rfl⟩
      split
      · exact ⟨trivial, .inl trivial⟩
      split
      · rw [substringView, if_pos hle]
        exact ⟨trivial, trivial, hle⟩
      · exact hstay _ rfl rfl
    · exact hstay _ rfl rfl

theorem keeps_fileSlash (hstate : p.state = .fileSlash) (hready : p.buffer = [])
    (hle : p.position ≤ input.length) :
    Keeps input base ((isSlash c || isChar c '\\') = false → ¬ LacksSegment input base p)
      (fileSlash input base c p) := by
  unfold fileSlash
  split
  · next hslash =>
    refine ⟨fun h => ?_, ?_⟩
    · rw [hslash] at h
      cases h
    · have happended : Appended p.buffer := by
        rw [hready]
        exact appended_nil
      exact .inl happended
  · next hslash =>
    have hready' : Ready base p := by simp [Ready, hstate, hready]
    cases base with
    | none =>
      refine ⟨fun _ hlacks => ?_, .inl hready'⟩
      obtain ⟨_, hurl, _⟩ := hlacks
      cases hurl
    | some base =>
      dsimp only
      split
      · next hfile =>
        rw [substringView, if_pos hle]
        simp only [bind_eq_bind, bind_some]
        split
        · next hdrive =>
          refine ⟨fun _ ⟨url, hurl, _, _, hno⟩ => ?_, trivial, hle⟩
          rw [hdrive] at hno
          cases hno
        · next hdrive =>
          cases hpaths : base.paths with
          | nil =>
            intro hsafe
            exact hsafe (by simpa using hslash)
              ⟨base, rfl, hfile, hpaths, by simpa using hdrive⟩
          | cons first paths =>
            refine ⟨fun _ ⟨url, hurl, _, hnil, _⟩ => ?_, trivial, hle⟩
            cases hurl
            rw [hpaths] at hnil
            cases hnil
      · next hfile =>
        refine ⟨fun _ ⟨url, hurl, hscheme, _⟩ => ?_, .inl hready'⟩
        cases hurl
        exact hfile hscheme

theorem isWindowsDriveLetter_bracketed (h : Bracketed buffer) :
    isWindowsDriveLetter buffer = false := by
  rw [isWindowsDriveLetter.eq_def]
  split
  · next a b =>
    cases h.1
    rfl
  · rfl

theorem keeps_fileHost (hstate : p.state = .fileHost) (hready : Appended p.buffer)
    (hle : p.position ≤ input.length) :
    Keeps input base ((isDelimiter c || isChar c '\\') = true → ¬ Bracketed p.buffer)
      (fileHost c p) := by
  rw [fileHost]
  split
  · next hend =>
    split
    · next hdrive =>
      refine ⟨fun _ hbracketed => ?_, trivial, hle⟩
      rw [isWindowsDriveLetter_bracketed hbracketed] at hdrive
      cases hdrive
    split
    · next hempty =>
      refine ⟨fun _ hbracketed => ?_, trivial, hle⟩
      rw [List.isEmpty_iff] at hempty
      rw [Bracketed, hempty] at hbracketed
      cases hbracketed.1
    · refine keeps_withHost ?_ fun hsafe host => ⟨hsafe, trivial, hle⟩
      rw [parseHost_eq_none hready (fun h => by cases h)]
      exact ⟨fun h hsafe => hsafe hend h, fun h => not_not.mp fun hnot => h fun _ => hnot⟩
  · next hend =>
    refine ⟨fun h => absurd h hend, .inl ?_⟩
    rw [Ready, hstate]
    exact hready.append c

theorem keeps_pathStart (hstate : p.state = .pathStart) (hle : p.position ≤ input.length) :
    Keeps input base True (pathStart c p) := by
  rw [pathStart]
  split
  · split
    · exact ⟨trivial, trivial, hle⟩
    · exact ⟨trivial, .inl trivial⟩
  split
  · exact ⟨trivial, .inl rfl⟩
  split
  · exact ⟨trivial, .inl trivial⟩
  split
  · split
    · exact ⟨trivial, .inl trivial⟩
    · exact ⟨trivial, trivial, hle⟩
  · exact ⟨trivial, .inl (by simp [Ready, hstate])⟩

/-- A code point that is a character is within Unicode. -/
theorem le_of_isChar (h : isChar c x = true) : c ≤ 0x10FFFF := by
  rw [isChar, beq_iff_eq] at h
  have hlt := (byte x).toNat_lt
  omega

theorem isDelimiter_eq_false (h : isDelimiter c = false) : c ≠ endOfFile := by
  rintro rfl
  simp [isDelimiter] at h

theorem eq_or_le_of_isDelimiter (h : isDelimiter c = true) : c = endOfFile ∨ c ≤ 0x10FFFF := by
  simp only [isDelimiter, Bool.or_eq_true, beq_iff_eq] at h
  obtain ((heof | hslash) | hquestion) | hhash := h
  · exact .inl heof
  · exact .inr (le_of_isChar hslash)
  · exact .inr (le_of_isChar hquestion)
  · exact .inr (le_of_isChar hhash)

theorem keeps_percentEncoded (hc : c ≠ endOfFile) {set : PercentEncodeSet}
    {f : List UInt8 → URLParser} (h : ∀ text, Ready base (f text)) :
    Keeps input base (c = endOfFile ∨ c ≤ 0x10FFFF)
      (orAbort ((percentEncodedIfNecessary c set).map fun text => .next (f text))) := by
  cases htext : percentEncodedIfNecessary c set with
  | none =>
    have hlarge := percentEncodedIfNecessary_eq_none.mp htext
    rintro (heof | hle)
    · exact hc heof
    · exact Nat.not_lt.mpr hle hlarge
  | some text =>
    refine ⟨.inr (Nat.le_of_not_lt fun hlarge => ?_), .inl (h text)⟩
    rw [percentEncodedIfNecessary_eq_none.mpr hlarge] at htext
    cases htext

theorem keeps_path (hstate : p.state = .path) :
    Keeps input base (c = endOfFile ∨ c ≤ 0x10FFFF) (path c p) := by
  rw [path]
  split
  · next hend =>
    have hsafe : c = endOfFile ∨ c ≤ 0x10FFFF := by
      rw [Bool.or_eq_true] at hend
      cases hend with
      | inl hdelimiter => exact eq_or_le_of_isDelimiter hdelimiter
      | inr hbackslash => exact .inr (le_of_isChar (Bool.and_eq_true_iff.mp hbackslash).2)
    split
    · exact ⟨hsafe, .inl rfl⟩
    split
    · exact ⟨hsafe, .inl trivial⟩
    · exact ⟨hsafe, .inl (by simp [Ready, hstate])⟩
  · next hend =>
    rw [Bool.or_eq_true, not_or, Bool.not_eq_true] at hend
    exact keeps_percentEncoded (isDelimiter_eq_false hend.1) fun _ => by simp [Ready, hstate]

theorem keeps_cannotBeABaseUrlPath (hstate : p.state = .cannotBeABaseUrlPath)
    (hready : p.url.paths = [[]]) :
    Keeps input base (codePoint input p = endOfFile ∨ codePoint input p ≤ 0x10FFFF)
      (cannotBeABaseUrlPath (codePoint input p) p) := by
  rw [cannotBeABaseUrlPath, if_pos hready]
  split
  · next hquestion => exact ⟨.inr (le_of_isChar hquestion), .inl rfl⟩
  split
  · next hhash => exact ⟨.inr (le_of_isChar hhash), .inl trivial⟩
  split
  · next hc => exact keeps_percentEncoded hc fun _ => by simpa [Ready, hstate] using hready
  · next hc =>
    have heof := not_not.mp hc
    exact ⟨.inl heof, .inr (length_le_of_codePoint heof)⟩

theorem keeps_query (hstate : p.state = .query) (hready : p.url.query = some []) :
    Keeps input base True (query (codePoint input p) p) := by
  unfold query
  by_cases hend : codePoint input p = endOfFile ∨ isChar (codePoint input p) '#'
  · rw [if_pos hend, if_pos hready]
    dsimp only
    split
    · exact ⟨trivial, .inl trivial⟩
    · next hhash => exact ⟨trivial, .inr (length_le_of_codePoint (hend.resolve_right hhash))⟩
  · rw [if_neg hend]
    exact ⟨trivial, .inl (by simpa [Ready, hstate] using hready)⟩

theorem keeps_fragment (hstate : p.state = .fragment) : Keeps input base True (fragment c p) := by
  rw [fragment]
  split <;> exact ⟨trivial, .inl (by simp [Ready, hstate])⟩

theorem keeps_step (hready : Ready base p) (hle : p.position ≤ input.length) :
    Keeps input base (Safe input base p) (step input base p) := by
  rw [step, Safe]
  rw [Ready] at hready
  cases hstate : p.state with
  | schemeStart => rw [hstate] at hready; exact keeps_schemeStart hready hle
  | scheme => rw [hstate] at hready; exact keeps_scheme hstate hready
  | noScheme => rw [hstate] at hready; exact keeps_noScheme hready hle
  | specialRelativeOrAuthority =>
    rw [hstate] at hready; exact keeps_specialRelativeOrAuthority hready hle
  | pathOrAuthority => exact keeps_pathOrAuthority hle
  | relative => rw [hstate] at hready; exact keeps_relative hstate hready hle
  | relativeSlash => rw [hstate] at hready; exact keeps_relativeSlash hready hle
  | specialAuthoritySlashes => exact keeps_specialAuthoritySlashes hle
  | specialAuthorityIgnoreSlashes => exact keeps_specialAuthorityIgnoreSlashes hstate hle
  | authority => exact keeps_authority hstate
  | host => rw [hstate] at hready; exact keeps_host (.inl hstate) hready hle
  | hostname => rw [hstate] at hready; exact keeps_host (.inr hstate) hready hle
  | port => exact keeps_port hstate hle
  | file => rw [hstate] at hready; exact keeps_file hstate hready hle
  | fileSlash => rw [hstate] at hready; exact keeps_fileSlash hstate hready hle
  | fileHost => rw [hstate] at hready; exact keeps_fileHost hstate hready hle
  | pathStart => exact keeps_pathStart hstate hle
  | path => exact keeps_path hstate
  | cannotBeABaseUrlPath => rw [hstate] at hready; exact keeps_cannotBeABaseUrlPath hstate hready
  | query => rw [hstate] at hready; exact keeps_query hstate hready
  | fragment => exact keeps_fragment hstate

/-! ## Runs -/

/-- What holds at the beginning of a pass. -/
def Inv (input : List UInt8) (base : Option URL) (p : URLParser) : Prop :=
  Ready base p ∧ p.position ≤ input.length

theorem inv_start : Inv input base (start none none) := ⟨⟨rfl, rfl⟩, Nat.zero_le _⟩

theorem Inv.pass (h : Inv input base p) (hpass : pass input base p = .next p') :
    Inv input base p' := by
  have hkeeps := keeps_step h.1 h.2
  rw [URLParser.pass] at hpass
  split at hpass
  · next p'' hstep =>
    rw [hstep] at hkeeps
    split at hpass
    · cases hpass
    · next hmore =>
      cases hpass
      have hlt := Nat.lt_of_not_le hmore
      exact ⟨hkeeps.2.resolve_right hmore, hlt⟩
  · next p'' hstep =>
    rw [hstep] at hkeeps
    cases hpass
    exact hkeeps.2
  · cases hpass
  · cases hpass

theorem pass_eq_abort (h : Inv input base p) :
    pass input base p = .done .abort ↔ ¬ Safe input base p := by
  have hkeeps := keeps_step h.1 h.2
  rw [pass]
  cases hstep : step input base p with
  | next p' =>
    rw [hstep] at hkeeps
    refine ⟨fun hpass => ?_, fun hnot => absurd hkeeps.1 hnot⟩
    dsimp only at hpass
    split at hpass <;> cases hpass
  | again p' =>
    rw [hstep] at hkeeps
    exact ⟨fun hpass => (by cases hpass), fun hnot => absurd hkeeps.1 hnot⟩
  | invalid =>
    rw [hstep] at hkeeps
    exact ⟨fun hpass => (by cases hpass), fun hnot => absurd hkeeps hnot⟩
  | abort =>
    rw [hstep] at hkeeps
    exact ⟨fun _ => hkeeps, fun _ => rfl⟩

theorem mainLoop_eq_abort : mainLoop input base (start none none) = .abort ↔
      ∃ p, Visits (pass input base) (start none none) p ∧ ¬ Safe input base p := by
  obtain ⟨r, hrun⟩ := runFor_passes input base (start none none)
  have hinv : ∀ p, Visits (pass input base) (start none none) p → Inv input base p := fun p hp =>
    hp.invariant (fun _ _ h hpass => h.pass hpass) inv_start
  rw [mainLoop, hrun, getD_some]
  constructor
  · rintro rfl
    obtain ⟨p, hvisits, hdone⟩ := exists_visits_of_runFor hrun
    exact ⟨p, hvisits, (pass_eq_abort (hinv p hvisits)).mp hdone⟩
  · rintro ⟨p, hvisits, hunsafe⟩
    exact runFor_of_visits hvisits ((pass_eq_abort (hinv p hvisits)).mpr hunsafe) hrun

/-! ## Data URLs -/

theorem takeBase64_ne_none (mimeType : List UInt8) : takeBase64 mimeType ≠ none := by
  rw [takeBase64]
  split
  · rw [substringViewLength, if_pos (by omega)]
    simp
    split
    · rw [substringViewLength, if_pos (by omega)]
      exact some_ne_none _
    · exact some_ne_none _
  · exact some_ne_none _

theorem parseDataUrl_ne_none {rawInput : List UInt8} (h : startsWith rawInput dataColon = true) :
    parseDataUrl rawInput ≠ none := by
  have hlength : 5 ≤ rawInput.length := (List.isPrefixOf_iff_prefix.mp h).length_le
  rw [parseDataUrl, h, substringView, if_pos hlength]
  simp only [Bool.not_true, Bool.false_eq_true, if_false, bind_eq_bind, bind_some]
  cases hcomma : (rawInput.drop 5).idxOf? (byte ',') with
  | none => exact some_ne_none _
  | some commaOffset =>
    have hlt : commaOffset < (rawInput.drop 5).length := by
      obtain ⟨hlt, -⟩ := List.findIdx?_eq_some_iff_getElem.mp hcomma
      exact hlt
    dsimp only
    rw [substringViewLength, if_pos (by omega), bind_some]
    rw [substringView, if_pos (Nat.succ_le_of_lt hlt), bind_some]
    obtain ⟨⟨mimeType, isBase64⟩, htaken⟩ := ne_none_iff_exists'.mp
      (takeBase64_ne_none (StringUtils.trim (((rawInput.drop 5).drop 0).take commaOffset)
        [0x09, 0x0a, 0x0c, 0x0d, 0x20] .both))
    rw [htaken]
    exact some_ne_none _

/-- A path segment that is not Unicode. -/
example : parse (literal ['w', 's', ':', 'h', '/'] ++ [0xF5, 0x80, 0x80, 0x80]) none none none =
    .abort := by decide

/-- `/x` with `file:`, which has no segment, as the base. -/
example : ∃ base, parse (literal ['f', 'i', 'l', 'e', ':']) none none none = .url base ∧
    parse (literal ['/', 'x']) base none none = .abort :=
  ⟨_, rfl, by decide⟩

end URLParser

end Literate.AK

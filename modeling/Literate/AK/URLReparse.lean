import Literate.AK.PercentCoding
import Literate.AK.URLSafety

/-!
# AK: how the URL parser reads ASCII text

`Comes` says what the loop comes to from a state with a text ahead.  There is a rule for
each state, which takes the text of a component as a whole; read backwards, from the last
component to the first, they say what the parser makes of a serialized URL.
-/

namespace Literate.AK.URLParser

open Foundation Utf8View URL List Option

variable {input : List UInt8} {base : Option URL} {p p' : URLParser} {r : Result}

/-! ## One pass -/

theorem mainLoop_of_pass (h : pass input base p = .next p') :
    mainLoop input base p = mainLoop input base p' := by
  obtain ⟨r, hrun⟩ := runFor_passes input base p
  obtain ⟨r', hrun'⟩ := runFor_passes input base p'
  obtain ⟨m, hm⟩ := (Visits.step h (.refl p')).runFor hrun'
  simp only [mainLoop, hrun, hrun', runFor_unique hrun hm]

theorem mainLoop_of_done (h : pass input base p = .done r) : mainLoop input base p = r := by
  obtain ⟨r', hrun⟩ := runFor_passes input base p
  rw [mainLoop, hrun, runFor_of_visits (.refl p) h hrun, getD_some]

theorem mainLoop_next (h : step input base p = .next p') (hmore : p'.position < input.length) :
    mainLoop input base p = mainLoop input base { p' with position := p'.position + 1 } :=
  mainLoop_of_pass (by rw [pass, h]; exact if_neg (Nat.not_le.mpr hmore))

theorem mainLoop_last (h : step input base p = .next p') (hend : input.length ≤ p'.position) :
    mainLoop input base p = .url { p'.url with valid := true } :=
  mainLoop_of_done (by rw [pass, h]; exact if_pos hend)

theorem mainLoop_again (h : step input base p = .again p') :
    mainLoop input base p = mainLoop input base p' :=
  mainLoop_of_pass (by rw [pass, h])

theorem mainLoop_invalid (h : step input base p = .invalid) :
    mainLoop input base p = .url URL.new :=
  mainLoop_of_done (by rw [pass, h])

/-! ## Invariants -/

/-- A step keeps an invariant, and at the end leaves a URL with `Post`. -/
def Preserves (input : List UInt8) (Inv : URLParser → Prop) (Post : URL → Prop) : Step → Prop
  | .next p =>
    (p.position < input.length → Inv { p with position := p.position + 1 }) ∧
      (input.length ≤ p.position → Post p.url)
  | .again p => Inv p
  | .invalid => True
  | .abort => True

variable {Inv : URLParser → Prop} {Post : URL → Prop} {url : URL}

theorem Preserves.mono {Inv' : URLParser → Prop} {Post' : URL → Prop} {s : Step}
    (h : Preserves input Inv Post s) (hinv : ∀ p, Inv p → Inv' p)
    (hpost : ∀ url, Post url → Post' url) : Preserves input Inv' Post' s := by
  cases s with
  | next p => exact ⟨fun hmore => hinv _ (h.1 hmore), fun hend => hpost _ (h.2 hend)⟩
  | again p => exact hinv p h
  | invalid => trivial
  | abort => trivial

section

variable (h : Preserves input Inv Post (step input base p))

include h

theorem Preserves.pass
    (hpass : pass input base p = .next p') : Inv p' := by
  rw [URLParser.pass] at hpass
  split at hpass
  · next p'' hstep =>
    rw [hstep] at h
    split at hpass
    · cases hpass
    · next hmore =>
      cases hpass
      exact h.1 (Nat.lt_of_not_le hmore)
  · next p'' hstep =>
    rw [hstep] at h
    cases hpass
    exact h
  · cases hpass
  · cases hpass

theorem Preserves.done
    (hpass : URLParser.pass input base p = .done (.url url)) (hvalid : url.valid = true) :
    ∃ url', Post url' ∧ url = { url' with valid := true } := by
  rw [URLParser.pass] at hpass
  split at hpass
  · next p'' hstep =>
    rw [hstep] at h
    split at hpass
    · next hend =>
      cases hpass
      exact ⟨p''.url, h.2 hend, rfl⟩
    · cases hpass
  · cases hpass
  · cases hpass
    cases hvalid
  · cases hpass

end

/-- The rule of invariants: what the loop comes to has what the steps leave at the end. -/
theorem exists_of_mainLoop (hstep : ∀ p, Inv p → Preserves input Inv Post (step input base p))
    (h : Inv p) (hrun : mainLoop input base p = .url url) (hvalid : url.valid = true) :
    ∃ url', Post url' ∧ url = { url' with valid := true } := by
  obtain ⟨r, hr⟩ := runFor_passes input base p
  rw [mainLoop, hr, getD_some] at hrun
  subst hrun
  obtain ⟨t, hvisits, hdone⟩ := exists_visits_of_runFor hr
  have hinv := hvisits.invariant (fun _ _ hs hpass => (hstep _ hs).pass hpass) h
  exact (hstep t hinv).done hdone hvalid

/-! ## Results -/

theorem valid_of_mainLoop (h : mainLoop input base p = .url url) :
    url.valid = true ∨ url = URL.new := by
  obtain ⟨r, hr⟩ := runFor_passes input base p
  rw [mainLoop, hr, getD_some] at h
  subst h
  obtain ⟨t, -, hdone⟩ := exists_visits_of_runFor hr
  rw [URLParser.pass] at hdone
  split at hdone
  · split at hdone
    · cases hdone
      exact .inl rfl
    · cases hdone
  · cases hdone
  · cases hdone
    exact .inr rfl
  · cases hdone

theorem exists_ofData_of_parseDataUrl {rawInput : List UInt8}
    (h : parseDataUrl rawInput = some (some url)) :
    ∃ mimeType payload isBase64, url = ofData mimeType payload isBase64 := by
  rw [parseDataUrl] at h
  split at h
  · cases h
  obtain ⟨input, -, h⟩ := bind_eq_some_iff.mp h
  split at h
  · cases h
  obtain ⟨mimeType, -, h⟩ := bind_eq_some_iff.mp h
  obtain ⟨encodedBody, -, h⟩ := bind_eq_some_iff.mp h
  obtain ⟨taken, -, h⟩ := bind_eq_some_iff.mp h
  cases h
  exact ⟨_, _, _, rfl⟩

variable {rawInput : List UInt8} {url₀ : Option URL} {stateOverride : Option State}

section

variable (h : parse rawInput base url₀ stateOverride = .url url)

include h

/-- What `parse` returns: nothing, a data URL, or what its loop comes to. -/
theorem parse_cases :
    url = URL.new ∨ (∃ mimeType payload isBase64, url = ofData mimeType payload isBase64) ∨
      ∃ input ∈ processedInput rawInput url₀,
        mainLoop input base (start url₀ stateOverride) = .url url := by
  rw [parse] at h
  split at h
  · cases h
    exact .inl rfl
  split at h
  · split at h
    · cases h
    · cases h
      exact .inl rfl
    · next hdata =>
      cases h
      exact .inr (.inl (exists_ofData_of_parseDataUrl hdata))
  · split at h
    · cases h
      exact .inl rfl
    · next input hinput => exact .inr (.inr ⟨input, hinput, h⟩)

theorem valid_of_parse : url.valid = true ∨ url = URL.new := by
  cases parse_cases h with
  | inl hnew => exact .inr hnew
  | inr h =>
    cases h with
    | inl hdata =>
      obtain ⟨mimeType, payload, isBase64, rfl⟩ := hdata
      exact .inl rfl
    | inr hloop =>
      obtain ⟨input, -, hloop⟩ := hloop
      exact valid_of_mainLoop hloop

end

/-! ## Places of the input -/

/-- The local variables with `text` ahead. -/
structure At (input : List UInt8) (state : State) (url : URL) (buffer text : List UInt8)
    (p : URLParser) : Prop where
  state_eq : p.state = state
  url_eq : p.url = url
  buffer_eq : p.buffer = buffer
  atSignSeen : p.atSignSeen = false
  insideBrackets : p.insideBrackets = false
  passwordTokenSeen : p.passwordTokenSeen = false
  text_eq : input.drop p.position = text
  length_eq : p.position + text.length = input.length

/-- What the loop comes to with `text` ahead. -/
def Comes (input : List UInt8) (state : State) (url : URL) (buffer text : List UInt8)
    (r : Result) : Prop :=
  ∀ p, At input state url buffer text p → mainLoop input none p = r

variable {state state' : State} {url' : URL} {buffer buffer' text rest : List UInt8} {b : UInt8}

/-- There is but one place with `text` ahead. -/
theorem At.unique (h : At input state url buffer text p) (h' : At input state url buffer text p') :
    p' = p := by
  obtain ⟨hstate, hurl, hbuffer, hsign, hbrackets, hpassword, -, hlength⟩ := h
  obtain ⟨hstate', hurl', hbuffer', hsign', hbrackets', hpassword', -, hlength'⟩ := h'
  have hposition : p'.position = p.position := by omega
  cases p
  cases p'
  simp_all

theorem At.comes (h : At input state url buffer text p) :
    Comes input state url buffer text (mainLoop input none p) :=
  fun _ h' => by rw [h.unique h']

theorem At.codePoint (h : At input state url buffer (b :: rest) p) (hb : b < 0x80) :
    codePoint input p = b.toNat := by
  rw [URLParser.codePoint, h.text_eq, codePoint?, codePointAt_ascii hb, getD_some]

theorem At.codePoint_nil (h : At input state url buffer [] p) :
    URLParser.codePoint input p = endOfFile := by
  rw [URLParser.codePoint, h.text_eq]
  rfl

theorem At.lt (h : At input state url buffer (b :: rest) p) : p.position < input.length := by
  have hlength := h.length_eq
  rw [length_cons] at hlength
  omega

theorem At.drop_succ (h : At input state url buffer (b :: rest) p) :
    input.drop (p.position + 1) = rest := by
  rw [← drop_drop, h.text_eq, drop_succ_cons, drop_zero]

theorem At.next (h : At input state url buffer (b :: rest) p) : At input state' url' buffer' rest
      { p with state := state', url := url', buffer := buffer', position := p.position + 1 } where
  state_eq := rfl
  url_eq := rfl
  buffer_eq := rfl
  atSignSeen := h.atSignSeen
  insideBrackets := h.insideBrackets
  passwordTokenSeen := h.passwordTokenSeen
  text_eq := h.drop_succ
  length_eq := by
    have hlength := h.length_eq
    rw [length_cons] at hlength
    show p.position + 1 + rest.length = input.length
    omega

theorem At.skip (h : At input state url buffer (text ++ rest) p) : At input state url buffer' rest
      { p with buffer := buffer', position := p.position + text.length } :=
  { h with
    buffer_eq := rfl
    text_eq := by
      rw [← drop_drop, h.text_eq, drop_left]
    length_eq := by
      have hlength := h.length_eq
      rw [length_append] at hlength
      show p.position + text.length + rest.length = input.length
      omega }

theorem At.again (h : At input state url buffer text p) :
    At input state' url' buffer' text { p with state := state', url := url', buffer := buffer' } :=
  { h with
    state_eq := rfl
    url_eq := rfl
    buffer_eq := rfl }

theorem Comes.next (h : Comes input state' url' buffer' rest r)
    (hstep : ∀ p, At input state url buffer (b :: rest) p →
      step input none p = .next { p with state := state', url := url', buffer := buffer' }) :
    Comes input state url buffer (b :: rest) r := by
  intro p hp
  rw [mainLoop_next (hstep p hp) hp.lt]
  exact h _ hp.next

theorem Comes.again (h : Comes input state' url' buffer' text r)
    (hstep : ∀ p, At input state url buffer text p →
      step input none p = .again { p with state := state', url := url', buffer := buffer' }) :
    Comes input state url buffer text r := by
  intro p hp
  rw [mainLoop_again (hstep p hp)]
  exact h _ hp.again

theorem Comes.nextTwo {b' : UInt8} (h : Comes input state' url' buffer' rest r)
    (hstep : ∀ p, At input state url buffer (b :: b' :: rest) p →
      step input none p = .next { p with
        state := state', url := url', buffer := buffer', position := p.position + 1 }) :
    Comes input state url buffer (b :: b' :: rest) r := by
  intro p hp
  have hnext : At input state url buffer (b' :: rest) { p with
      state := state, url := url, buffer := buffer, position := p.position + 1 } := hp.next
  rw [mainLoop_next (hstep p hp) hnext.lt]
  exact h _ hnext.next

theorem comes_last (state' : State) (url' : URL) (buffer' : List UInt8)
    (hstep : ∀ p, At input state url buffer [] p →
      step input none p = .next { p with state := state', url := url', buffer := buffer' }) :
    Comes input state url buffer [] (.url { url' with valid := true }) := by
  intro p hp
  have hlength := hp.length_eq
  rw [mainLoop_last (hstep p hp) (Nat.le_of_eq hlength.symm)]

theorem comes_invalid (hstep : ∀ p, At input state url buffer text p →
      step input none p = .invalid) : Comes input state url buffer text (.url URL.new) := by
  intro p hp
  rw [mainLoop_invalid (hstep p hp)]

/-! ## Schemes -/

/-- A character of a scheme, in lower case. -/
def SchemeByte (b : UInt8) : Prop :=
  b < 0x80 ∧ appendedAsLowercase b.toNat = [b] ∧
    (isAsciiAlphanumeric b.toNat || isChar b.toNat '+' || isChar b.toNat '-' ||
      isChar b.toNat '.') = true

theorem comes_schemeStart (hb : SchemeByte b) (halpha : isAsciiAlpha b.toNat = true)
    (h : Comes input .scheme url (buffer ++ [b]) rest r) :
    Comes input .schemeStart url buffer (b :: rest) r := by
  refine h.next fun p hp => ?_
  rw [step, hp.state_eq, hp.codePoint hb.1]
  rw [schemeStart, if_pos halpha, hb.2.1, hp.buffer_eq, ← hp.url_eq]

theorem comes_scheme_byte (hb : SchemeByte b) (h : Comes input .scheme url (buffer ++ [b]) rest r) :
    Comes input .scheme url buffer (b :: rest) r := by
  refine h.next fun p hp => ?_
  rw [step, hp.state_eq, hp.codePoint hb.1]
  show scheme input none b.toNat p = _
  rw [scheme, if_pos hb.2.2, hb.2.1, hp.buffer_eq, ← hp.url_eq, ← hp.state_eq]

theorem At.getRemaining (h : At input state url buffer (b :: rest) p) (hb : b < 0x80) :
    getRemaining input p = some rest := by
  rw [URLParser.getRemaining, h.text_eq]
  simp only [length?, lengthAt_ascii hb, bind_eq_bind, bind_some, substringView]
  rw [if_pos (Nat.succ_le_of_lt h.lt), h.drop_succ]

theorem startsWith_slash (text : List UInt8) :
    startsWith text (literal ['/']) = decide (text.head? = some (byte '/')) := by
  cases text with
  | nil => rfl
  | cons b text =>
    rw [Bool.eq_iff_iff, decide_eq_true_iff, List.head?_cons, some_inj]
    simp only [startsWith, literal, map_cons, map_nil, List.isPrefixOf, Bool.and_true,
      beq_iff_eq]
    exact eq_comm

theorem ascii_colon : byte ':' < 0x80 := by decide
theorem ascii_slash : byte '/' < 0x80 := by decide

theorem At.step_colon {scheme : List UInt8} (h : At input .scheme url scheme (byte ':' :: rest) p) :
    step input none p = schemeColon input none p := by
  rw [step, h.state_eq, h.codePoint ascii_colon]
  rw [URLParser.scheme, if_neg (by decide), if_pos (by decide)]

theorem comes_colon_file (h : Comes input .file { url with scheme := some URL.file } [] rest r) :
    Comes input .scheme url URL.file (byte ':' :: rest) r := by
  refine h.next fun p hp => ?_
  have hremaining : getRemaining input
      { p with url := { p.url with scheme := some p.buffer }, buffer := [] } = some rest :=
    hp.getRemaining ascii_colon
  rw [hp.step_colon, schemeColon]
  rw [hremaining, hp.buffer_eq, hp.url_eq, if_pos rfl]
  rfl

theorem comes_colon_special {scheme : List UInt8} (hfile : scheme ≠ URL.file)
    (hspecial : isSpecialScheme scheme = true)
    (h : Comes input .specialAuthoritySlashes { url with scheme := some scheme } [] rest r) :
    Comes input .scheme url scheme (byte ':' :: rest) r := by
  refine h.next fun p hp => ?_
  rw [hp.step_colon, schemeColon]
  rw [hp.buffer_eq, hp.url_eq, if_neg (by simpa using hfile),
    if_pos (by simpa [isSpecial] using hspecial)]
  rfl

theorem comes_colon_slash {scheme : List UInt8} (hspecial : isSpecialScheme scheme = false)
    (h : Comes input .pathOrAuthority { url with scheme := some scheme } [] rest r) :
    Comes input .scheme url scheme (byte ':' :: byte '/' :: rest) r := by
  refine h.nextTwo fun p hp => ?_
  have hremaining : getRemaining input
      { p with url := { p.url with scheme := some p.buffer }, buffer := [] } =
        some (byte '/' :: rest) :=
    hp.getRemaining ascii_colon
  have hfile : scheme ≠ URL.file := by
    rintro rfl
    exact absurd hspecial (by decide)
  rw [hp.step_colon, schemeColon]
  rw [ifRemainingStartsWithSlash, hremaining, hp.buffer_eq, hp.url_eq, if_neg (by simpa using hfile),
    if_neg (by simp [isSpecial, hspecial])]
  show orAbort (some (if startsWith (byte '/' :: rest) (literal ['/']) = true then _ else _)) = _
  rw [startsWith_slash, if_pos (decide_eq_true List.head?_cons), nextAfterIncrement, increment,
    if_pos hp.lt]
  rfl

theorem comes_colon_opaquePath {scheme : List UInt8} (hspecial : isSpecialScheme scheme = false)
    (hrest : rest.head? ≠ some (byte '/')) (h : Comes input .cannotBeABaseUrlPath
      ({ url with scheme := some scheme, cannotBeABaseUrl := true }.appendPath []) [] rest r) :
    Comes input .scheme url scheme (byte ':' :: rest) r := by
  refine h.next fun p hp => ?_
  have hremaining : getRemaining input
      { p with url := { p.url with scheme := some p.buffer }, buffer := [] } = some rest :=
    hp.getRemaining ascii_colon
  have hfile : scheme ≠ URL.file := by
    rintro rfl
    exact absurd hspecial (by decide)
  rw [hp.step_colon, schemeColon]
  rw [ifRemainingStartsWithSlash, hremaining, hp.buffer_eq, hp.url_eq, if_neg (by simpa using hfile),
    if_neg (by simp [isSpecial, hspecial])]
  show orAbort (some (if startsWith rest (literal ['/']) = true then _ else _)) = _
  rw [startsWith_slash, if_neg (by simpa using hrest)]
  rfl

/-! ## Slashes -/

theorem comes_specialAuthoritySlashes
    (h : Comes input .specialAuthorityIgnoreSlashes url buffer rest r) :
    Comes input .specialAuthoritySlashes url buffer (byte '/' :: byte '/' :: rest) r := by
  refine h.nextTwo fun p hp => ?_
  rw [step, hp.state_eq, hp.codePoint ascii_slash]
  have hstarts : startsWith (byte '/' :: rest) (literal ['/']) = true := by
    simp [startsWith, literal]
  rw [specialAuthoritySlashes, if_pos (by decide), ifRemainingStartsWithSlash,
    hp.getRemaining ascii_slash]
  show orAbort (some (if startsWith (byte '/' :: rest) (literal ['/']) = true then _ else _)) = _
  rw [if_pos hstarts, nextAfterIncrement, increment, if_pos hp.lt, ← hp.url_eq, ← hp.buffer_eq]
  rfl

/-- A byte, or the end, at which a component ends. -/
def Ends (url : URL) (text : List UInt8) : Prop :=
  (∀ b ∈ text.head?, b < 0x80) ∧
    (isDelimiter ((text.head?.map UInt8.toNat).getD endOfFile) ||
      isSpecialBackslash url ((text.head?.map UInt8.toNat).getD endOfFile)) = true

/-- A byte at which no component ends. -/
def Inner (url : URL) (b : UInt8) : Prop :=
  b < 0x80 ∧ (isDelimiter b.toNat || isSpecialBackslash url b.toNat) = false

theorem At.codePoint_head (h : At input state url buffer text p)
    (hascii : ∀ b ∈ text.head?, b < 0x80) :
    URLParser.codePoint input p = (text.head?.map UInt8.toNat).getD endOfFile := by
  cases text with
  | nil => exact h.codePoint_nil
  | cons b text => exact h.codePoint (hascii b rfl)

theorem isSlash_of_inner (hb : Inner url b) : isSlash b.toNat = false := by
  have hdelimiter := (Bool.or_eq_false_iff.mp hb.2).1
  simp only [isDelimiter, Bool.or_eq_false_iff] at hdelimiter
  exact hdelimiter.1.1.2

theorem comes_specialAuthorityIgnoreSlashes (hspecial : url.isSpecial = true) (hb : Inner url b)
    (h : Comes input .authority url buffer (b :: text) r) :
    Comes input .specialAuthorityIgnoreSlashes url buffer (b :: text) r := by
  refine h.again fun p hp => ?_
  have hbackslash : isChar b.toNat '\\' = false := by
    have hspecialBackslash := (Bool.or_eq_false_iff.mp hb.2).2
    rwa [isSpecialBackslash, hspecial, Bool.true_and] at hspecialBackslash
  rw [step, hp.state_eq, hp.codePoint hb.1]
  rw [specialAuthorityIgnoreSlashes, isSlash_of_inner hb, hbackslash, ← hp.url_eq, ← hp.buffer_eq]
  rfl

theorem comes_pathOrAuthority_slash (h : Comes input .authority url buffer rest r) :
    Comes input .pathOrAuthority url buffer (byte '/' :: rest) r := by
  refine h.next fun p hp => ?_
  rw [step, hp.state_eq, hp.codePoint ascii_slash, ← hp.url_eq, ← hp.buffer_eq]
  rfl

theorem comes_pathOrAuthority (hascii : ∀ b ∈ text.head?, b < 0x80)
    (htext : text.head? ≠ some (byte '/')) (h : Comes input .path url buffer text r) :
    Comes input .pathOrAuthority url buffer text r := by
  refine h.again fun p hp => ?_
  rw [step, hp.state_eq, hp.codePoint_head hascii]
  have hslash : isSlash ((text.head?.map UInt8.toNat).getD endOfFile) = false := by
    cases text with
    | nil => rfl
    | cons b text =>
      rw [isSlash, isChar, beq_eq_false_iff_ne]
      exact fun heq => htext (congrArg some (UInt8.toNat_inj.mp heq))
  rw [pathOrAuthority, hslash, ← hp.url_eq, ← hp.buffer_eq]
  rfl

/-! ## Authorities -/

theorem iteratorAtByteOffset_ascii {before : List UInt8} (h : ∀ b ∈ before, b < 0x80)
    (after : List UInt8) {byteOffset current : Nat} (index : Nat)
    (hle : byteOffset ≤ current + before.length) :
    iteratorAtByteOffset byteOffset (before ++ after) index current =
      index + (byteOffset - current) := by
  induction before generalizing index current with
  | nil =>
    have hdone : byteOffset ≤ current := hle
    rw [nil_append, Nat.sub_eq_zero_of_le hdone]
    cases after with
    | nil => rfl
    | cons b after => rw [iteratorAtByteOffset, if_pos hdone, Nat.add_zero]
  | cons b before ih =>
    obtain ⟨hb, hbefore⟩ := forall_mem_cons.mp h
    rw [length_cons] at hle
    rw [List.cons_append, iteratorAtByteOffset, lengthAt_ascii hb]
    split
    · omega
    · rw [ih hbefore (index + 1) (by omega)]
      omega

/-- `Authority` reads on to where the host ends. -/
theorem mainLoop_authority_text (htext : ∀ b ∈ text, Inner url b ∧ b ≠ byte '@')
    (hp : At input .authority url buffer (text ++ rest) p) :
    mainLoop input none p = mainLoop input none
      { p with buffer := buffer ++ text, position := p.position + text.length } := by
  induction text generalizing buffer p with
  | nil =>
    rw [append_nil, ← hp.buffer_eq]
    rfl
  | cons b text ih =>
    obtain ⟨⟨hb, hat⟩, htext⟩ := forall_mem_cons.mp htext
    have hat' : isChar b.toNat '@' = false := by
      rw [isChar, beq_eq_false_iff_ne]
      exact fun heq => hat (UInt8.toNat_inj.mp heq)
    have hstep : step input none p = .next { p with
        state := .authority, url := url, buffer := buffer ++ [b] } := by
      rw [step, hp.state_eq, hp.codePoint hb.1]
      show authority input b.toNat p = _
      simp only [authority, hat', if_neg Bool.false_ne_true, hp.url_eq, hb.2,
        appendedCodePoint_ascii hb.1, hp.buffer_eq, ← hp.state_eq]
    rw [mainLoop_next hstep hp.lt, ih htext hp.next]
    simp only [List.append_assoc, singleton_append, length_cons, Nat.add_assoc,
      Nat.add_comm 1, hp.state_eq, hp.url_eq]

theorem At.step_authority (h : At input .authority url text rest p) (hend : Ends url rest) :
    step input none p = .next { p with
      state := .host, buffer := []
      position := iteratorAtByteOffset (hostOffset p) input 0 0 } := by
  have hat : isChar ((rest.head?.map UInt8.toNat).getD endOfFile) '@' = false := by
    cases rest with
    | nil => rfl
    | cons b rest =>
      rw [isChar, beq_eq_false_iff_ne]
      intro heq
      have hb : b = byte '@' := UInt8.toNat_inj.mp heq
      have hdelimiter := hend.2
      rw [hb] at hdelimiter
      simp [isDelimiter, isSpecialBackslash, isChar, byte, endOfFile] at hdelimiter
  rw [step, h.state_eq, h.codePoint_head hend.1]
  rw [authority, hat, if_neg Bool.false_ne_true, if_pos (by rw [h.url_eq]; exact hend.2),
    h.atSignSeen]
  simp

/-- `Authority` goes back to the beginning of the host. -/
theorem comes_authority (hinput : ∀ b ∈ input, b < 0x80)
    (htext : ∀ b ∈ text, Inner url b ∧ b ≠ byte '@') (hend : Ends url rest)
    (hlength : (text ++ rest).length < input.length)
    (h : Comes input .host url [] (text ++ rest) r) :
    Comes input .authority url [] (text ++ rest) r := by
  intro p hp
  have hend' : At input .authority url text rest
      { p with buffer := text, position := p.position + text.length } := hp.skip
  have hposition := hp.length_eq
  have hoffset : iteratorAtByteOffset (hostOffset
      { p with buffer := text, position := p.position + text.length }) input 0 0 =
        p.position - 1 := by
    have hle : p.position - 1 ≤ 0 + input.length := by omega
    have hiterator := iteratorAtByteOffset_ascii hinput [] 0 hle
    rw [append_nil] at hiterator
    rw [hostOffset, if_pos (by dsimp only; omega)]
    rw [show p.position + text.length - (text.length + 1) = p.position - 1 by omega, hiterator]
    omega
  have hstep := hend'.step_authority hend
  rw [hoffset] at hstep
  rw [mainLoop_authority_text htext hp, nil_append, mainLoop_next hstep (by dsimp only; omega)]
  refine h _ ⟨rfl, hp.url_eq, rfl, hp.atSignSeen, hp.insideBrackets, hp.passwordTokenSeen, ?_, ?_⟩
  · show input.drop (p.position - 1 + 1) = _
    rw [Nat.sub_add_cancel (by omega), hp.text_eq]
  · show p.position - 1 + 1 + _ = _
    omega

/-! ## Hosts and ports -/

theorem isChar_eq_false {x : Char} (h : b ≠ byte x) : isChar b.toNat x = false := by
  rw [isChar, beq_eq_false_iff_ne]
  exact fun heq => h (UInt8.toNat_inj.mp heq)

/-- A component does not end at the character `x` if `x` ends none. -/
theorem isChar_of_ends {x : Char} (h : Ends url rest)
    (hx : isDelimiter (byte x).toNat = false ∧ byte x ≠ byte '\\') :
    isChar ((rest.head?.map UInt8.toNat).getD endOfFile) x = false := by
  rw [isChar, beq_eq_false_iff_ne]
  intro heq
  have hend := h.2
  rw [heq, hx.1, isSpecialBackslash, isChar_eq_false hx.2, Bool.and_false] at hend
  cases hend

/-- A byte that `Host` appends to its buffer. -/
def HostByte (url : URL) (b : UInt8) : Prop :=
  Inner url b ∧ b ≠ byte ':' ∧ b ≠ byte '[' ∧ b ≠ byte ']'

theorem comes_host_text (htext : ∀ b ∈ text, HostByte url b)
    (h : Comes input .host url (buffer ++ text) rest r) :
    Comes input .host url buffer (text ++ rest) r := by
  induction text generalizing buffer with
  | nil => rwa [append_nil] at h
  | cons b text ih =>
    obtain ⟨⟨hb, hcolon, hopen, hclose⟩, htext⟩ := forall_mem_cons.mp htext
    have h' : Comes input .host url ((buffer ++ [b]) ++ text) rest r := by simpa using h
    refine (ih htext h').next fun p hp => ?_
    rw [step, hp.state_eq, hp.codePoint hb.1]
    show host b.toNat p = _
    rw [host, isChar_eq_false hcolon, isChar_eq_false hopen, isChar_eq_false hclose, hp.url_eq,
      hb.2, appendedCodePoint_ascii hb.1, hp.buffer_eq, ← hp.state_eq]
    rfl

theorem comes_host_colon {host : List UInt8} (hbuffer : buffer ≠ [])
    (hhost : parseHost buffer (!url.isSpecial) = some (some host))
    (h : Comes input .port { url with host := some host } [] rest r) :
    Comes input .host url buffer (byte ':' :: rest) r := by
  refine h.next fun p hp => ?_
  rw [step, hp.state_eq, hp.codePoint ascii_colon]
  rw [URLParser.host, hp.insideBrackets, if_pos (by decide), withHost, hp.buffer_eq, hp.url_eq,
    if_neg (by simpa using hbuffer), hhost]
  rfl

theorem comes_host_end {host : List UInt8} (hend : Ends url rest)
    (hbuffer : url.isSpecial = true → buffer ≠ [])
    (hhost : parseHost buffer (!url.isSpecial) = some (some host))
    (h : Comes input .port { url with host := some host } [] rest r) :
    Comes input .host url buffer rest r := by
  refine h.again fun p hp => ?_
  rw [step, hp.state_eq, hp.codePoint_head hend.1]
  have hempty : (url.isSpecial && buffer.isEmpty) = false := by
    cases hspecial : url.isSpecial with
    | false => rfl
    | true => simpa using hbuffer hspecial
  rw [URLParser.host, isChar_of_ends hend (by decide), Bool.false_and, if_neg Bool.false_ne_true,
    hp.url_eq, hend.2, if_pos rfl, hp.buffer_eq, hempty, if_neg Bool.false_ne_true, withHost,
    hp.buffer_eq, hhost]
  rfl

theorem isAsciiDigit_of_end {c : Nat} (h : (isDelimiter c || isSpecialBackslash url c) = true) :
    isAsciiDigit c = false := by
  by_contra hdigit
  simp only [isAsciiDigit, decide_eq_true_eq, Bool.not_eq_false] at hdigit
  simp only [isDelimiter, isSpecialBackslash, isChar, Bool.or_eq_true, Bool.and_eq_true,
    beq_iff_eq, endOfFile] at h
  have hbytes : (byte '/').toNat = 47 ∧ (byte '?').toNat = 63 ∧ (byte '#').toNat = 35 ∧
      (byte '\\').toNat = 92 := by decide
  omega

theorem comes_port_end (hend : Ends url rest) (h : Comes input .pathStart url [] rest r) :
    Comes input .port url [] rest r := by
  refine h.again fun p hp => ?_
  rw [step, hp.state_eq, hp.codePoint_head hend.1]
  have hempty : p.buffer.isEmpty = true := by rw [hp.buffer_eq]; rfl
  rw [URLParser.port, isAsciiDigit_of_end hend.2, if_neg Bool.false_ne_true, hp.url_eq, hend.2,
    if_pos rfl, hempty, if_pos rfl, ← hp.url_eq, ← hp.buffer_eq]

theorem decimalPort_digit {port : Nat} (h : port < 10) :
    ∃ b : UInt8, decimalPort port = [b] ∧ b < 0x80 ∧ isAsciiDigit b.toNat = true ∧
      StringUtils.convertToUint 32 [b] .yes = some port := by
  have hall : ∀ port < 10, decimalPort port = [UInt8.ofNat (0x30 + port)] ∧
      UInt8.ofNat (0x30 + port) < 0x80 ∧
      isAsciiDigit (UInt8.ofNat (0x30 + port)).toNat = true ∧
      StringUtils.convertToUint 32 [UInt8.ofNat (0x30 + port)] .yes = some port := by
    decide
  exact ⟨_, hall port h⟩

theorem comes_port {port : Nat} (hport : port < 10)
    (hdefault : port ≠ defaultPortForScheme (url.scheme.getD [])) (hend : Ends url rest)
    (h : Comes input .pathStart { url with port := some port } [] rest r) :
    Comes input .port url [] (decimalPort port ++ rest) r := by
  obtain ⟨b, hdecimal, hb, hdigit, hconvert⟩ := decimalPort_digit hport
  rw [hdecimal]
  have hmiddle : Comes input .port url [b] rest r := by
    refine h.again fun p hp => ?_
    rw [step, hp.state_eq, hp.codePoint_head hend.1]
    have hlarge : ¬ 65535 < port := by omega
    rw [URLParser.port, isAsciiDigit_of_end hend.2, if_neg Bool.false_ne_true, hp.url_eq, hend.2,
      if_pos rfl, hp.buffer_eq, hconvert]
    simp only [isEmpty_cons, Bool.false_eq_true, if_false, if_neg hlarge, if_neg hdefault]
  refine hmiddle.next fun p hp => ?_
  rw [step, hp.state_eq, hp.codePoint hb]
  show URLParser.port b.toNat p = _
  rw [URLParser.port, hdigit, if_pos rfl, appendedCodePoint_ascii hb, hp.buffer_eq, ← hp.url_eq,
    ← hp.state_eq]
  rfl

/-! ## Files -/

theorem comes_file_slashes
    (h : Comes input .fileHost { url with scheme := some URL.file, host := some [] } buffer rest r) :
    Comes input .file url buffer (byte '/' :: byte '/' :: rest) r := by
  have hslash : Comes input .fileSlash { url with scheme := some URL.file, host := some [] } buffer
      (byte '/' :: rest) r := by
    refine h.next fun p hp => ?_
    rw [step, hp.state_eq, hp.codePoint ascii_slash, ← hp.url_eq, ← hp.buffer_eq]
    rfl
  refine hslash.next fun p hp => ?_
  rw [step, hp.state_eq, hp.codePoint ascii_slash, ← hp.url_eq, ← hp.buffer_eq]
  rfl

theorem comes_fileHost_text
    (htext : ∀ b ∈ text, b < 0x80 ∧ (isDelimiter b.toNat || isChar b.toNat '\\') = false)
    (h : Comes input .fileHost url (buffer ++ text) rest r) :
    Comes input .fileHost url buffer (text ++ rest) r := by
  induction text generalizing buffer with
  | nil => rwa [append_nil] at h
  | cons b text ih =>
    obtain ⟨hb, htext⟩ := forall_mem_cons.mp htext
    have h' : Comes input .fileHost url ((buffer ++ [b]) ++ text) rest r := by simpa using h
    refine (ih htext h').next fun p hp => ?_
    rw [step, hp.state_eq, hp.codePoint hb.1]
    show fileHost b.toNat p = _
    rw [fileHost, hb.2, if_neg Bool.false_ne_true, appendedCodePoint_ascii hb.1, hp.buffer_eq,
      ← hp.state_eq, ← hp.url_eq]

theorem isDelimiter_or_of_ends (h : Ends url rest) (hspecial : url.isSpecial = true) :
    (isDelimiter ((rest.head?.map UInt8.toNat).getD endOfFile) ||
      isChar ((rest.head?.map UInt8.toNat).getD endOfFile) '\\') = true := by
  have hend := h.2
  rwa [isSpecialBackslash, hspecial, Bool.true_and] at hend

theorem comes_fileHost_empty (hend : Ends url rest) (hspecial : url.isSpecial = true)
    (h : Comes input .pathStart { url with host := some [] } [] rest r) :
    Comes input .fileHost url [] rest r := by
  refine h.again fun p hp => ?_
  rw [step, hp.state_eq, hp.codePoint_head hend.1]
  have hempty : p.buffer.isEmpty = true := by rw [hp.buffer_eq]; rfl
  have hdrive : isWindowsDriveLetter p.buffer = false := by rw [hp.buffer_eq]; rfl
  rw [fileHost, isDelimiter_or_of_ends hend hspecial, if_pos rfl, hdrive, if_neg Bool.false_ne_true,
    hempty, if_pos rfl, ← hp.url_eq, ← hp.buffer_eq]

theorem comes_fileHost_end {host : List UInt8} (hend : Ends url rest)
    (hspecial : url.isSpecial = true) (hbuffer : buffer ≠ [])
    (hdrive : isWindowsDriveLetter buffer = false) (hhost : parseHost buffer true = some (some host))
    (hlocalhost : host ≠ localhost)
    (h : Comes input .pathStart { url with host := some host } [] rest r) :
    Comes input .fileHost url buffer rest r := by
  refine h.again fun p hp => ?_
  rw [step, hp.state_eq, hp.codePoint_head hend.1]
  rw [fileHost, isDelimiter_or_of_ends hend hspecial, if_pos rfl, hp.buffer_eq, hdrive,
    if_neg Bool.false_ne_true, if_neg (by simpa using hbuffer), withHost, hp.buffer_eq, hhost,
    hp.url_eq]
  show Step.again _ = _
  rw [if_neg hlocalhost]

/-! ## Paths -/

theorem comes_pathStart_slash (h : Comes input .path url buffer rest r) :
    Comes input .pathStart url buffer (byte '/' :: rest) r := by
  refine h.next fun p hp => ?_
  rw [step, hp.state_eq, hp.codePoint ascii_slash]
  rw [pathStart]
  cases hspecial : p.url.isSpecial with
  | true => rw [if_pos rfl, if_neg (by decide), ← hp.url_eq, ← hp.buffer_eq]
  | false =>
    rw [if_neg Bool.false_ne_true, if_neg (by decide), if_neg (by decide), if_pos (by decide),
      if_pos (by decide), ← hp.url_eq, ← hp.buffer_eq]

/-- A special URL has a segment even where there is none. -/
theorem comes_pathStart_special (hspecial : url.isSpecial = true)
    (h : Comes input .path url buffer [] r) : Comes input .pathStart url buffer [] r := by
  refine h.again fun p hp => ?_
  rw [step, hp.state_eq, hp.codePoint_nil]
  rw [pathStart, hp.url_eq, hspecial, if_pos rfl, if_pos (by decide), ← hp.url_eq, ← hp.buffer_eq]

theorem toNat_ne_endOfFile (b : UInt8) : b.toNat ≠ endOfFile := by
  have hlt := b.toNat_lt
  rw [endOfFile]
  omega

theorem unencoded_path_ne (hb : Unencoded .path b) : b ≠ byte '?' ∧ b ≠ byte '#' := by
  constructor
  · rintro rfl
    exact absurd hb.2 (by decide)
  · rintro rfl
    exact absurd hb.2 (by decide)

theorem unencoded_c0Control {set : PercentEncodeSet} (hb : Unencoded set b) :
    Unencoded .c0Control b := by
  refine ⟨hb.1, ?_⟩
  have hset := hb.2
  cases set <;>
    simp_all [codePointIsInPercentEncodeSet, isInFragmentSet, isInPathSet, isInQuerySet]

/-- What `Path` has made of a text: the URL and the buffer after it. -/
def readPath : URL → (buffer text : List UInt8) → URL × List UInt8
  | url, buffer, [] => (url, buffer)
  | url, buffer, b :: text =>
    if isSlash b.toNat || isSpecialBackslash url b.toNat then
      readPath (endSegment true url buffer) [] text
    else readPath url (buffer ++ [b]) text

theorem comes_path_text (htext : ∀ b ∈ text, Unencoded .path b)
    (h : Comes input .path (readPath url buffer text).1 (readPath url buffer text).2 rest r) :
    Comes input .path url buffer (text ++ rest) r := by
  induction text generalizing url buffer with
  | nil => exact h
  | cons b text ih =>
    obtain ⟨hb, htext⟩ := forall_mem_cons.mp htext
    have hquestion := isChar_eq_false (unencoded_path_ne hb).1
    have hnumber := isChar_eq_false (unencoded_path_ne hb).2
    have hdelimiter : isDelimiter b.toNat = isSlash b.toNat := by
      have hend : (b.toNat == endOfFile) = false := beq_eq_false_iff_ne.mpr (toNat_ne_endOfFile b)
      simp only [isDelimiter, hquestion, hnumber, hend, Bool.or_false, Bool.false_or, isSlash]
    rw [readPath] at h
    cases hslash : isSlash b.toNat || isSpecialBackslash url b.toNat with
    | true =>
      rw [hslash, if_pos rfl] at h
      refine (ih htext h).next fun p hp => ?_
      rw [step, hp.state_eq, hp.codePoint hb.1]
      rw [path, hdelimiter, hp.url_eq, hslash, if_pos rfl]
      dsimp only
      simp only [hquestion, if_neg Bool.false_ne_true, hnumber, hp.buffer_eq, ← hp.state_eq]
    | false =>
      rw [hslash, if_neg Bool.false_ne_true] at h
      refine (ih htext h).next fun p hp => ?_
      rw [step, hp.state_eq, hp.codePoint hb.1]
      show path b.toNat p = _
      rw [path, hdelimiter, hp.url_eq, hslash, if_neg Bool.false_ne_true,
        percentEncodedIfNecessary_unencoded hb, map_some, hp.buffer_eq, ← hp.state_eq,
        ← hp.url_eq]
      rfl

/-! ## Queries and fragments -/

theorem comes_fragment (url : URL) (buffer : List UInt8) (htext : ∀ b ∈ text, b < 0x80) :
    Comes input .fragment url buffer text
      (.url { url with fragment := some (percentDecode (buffer ++ text)), valid := true }) := by
  induction text generalizing buffer with
  | nil =>
    rw [append_nil]
    refine comes_last .fragment { url with fragment := some (percentDecode buffer) } []
      fun p hp => ?_
    rw [step, hp.state_eq, hp.codePoint_nil]
    show fragment endOfFile p = _
    rw [fragment, if_neg (not_not.mpr rfl), hp.url_eq, hp.buffer_eq, ← hp.state_eq]
  | cons b text ih =>
    obtain ⟨hb, htext⟩ := forall_mem_cons.mp htext
    rw [append_cons]
    refine (ih (buffer ++ [b]) htext).next fun p hp => ?_
    rw [step, hp.state_eq, hp.codePoint hb]
    show fragment b.toNat p = _
    rw [fragment, if_pos (toNat_ne_endOfFile b), appendedCodePoint_ascii hb, hp.buffer_eq, ← hp.url_eq,
      ← hp.state_eq]

/-- `{}` of a fragment, with its number sign. -/
def fragmentText : Option (List UInt8) → List UInt8
  | none => []
  | some text => byte '#' :: text

/-- `{}` of a query, with its question mark. -/
def queryText : Option (List UInt8) → List UInt8
  | none => []
  | some text => byte '?' :: text

/-- The set that `Query` encodes. -/
def querySet (url : URL) : PercentEncodeSet := if url.isSpecial then .specialQuery else .query

theorem ascii_number : byte '#' < 0x80 := by decide

/-- `Query` reads the query and, from a number sign on, the fragment. -/
theorem comes_query {fragment : Option (List UInt8)}
    (hquery : url.query = some []) (htext : ∀ b ∈ text, b < 0x80 ∧ b ≠ byte '#')
    (hfragment : ∀ text ∈ fragment, ∀ b ∈ text, b < 0x80) (hnone : url.fragment = none) :
    Comes input .query url buffer (text ++ fragmentText fragment)
      (.url { url with
        query := some (percentEncodeAfterEncoding (buffer ++ text) (querySet url))
        fragment := fragment.map percentDecode, valid := true }) := by
  induction text generalizing buffer with
  | nil =>
    rw [append_nil, nil_append]
    cases fragment with
    | none =>
      have hurl : url = { url with fragment := none } := by rw [← hnone]
      refine comes_last .query { url with
        query := some (percentEncodeAfterEncoding buffer (querySet url))
        fragment := none } [] fun p hp => ?_
      rw [step, hp.state_eq, hp.codePoint_nil]
      rw [query, if_pos (.inl rfl), hp.url_eq, if_pos hquery, hurl]
      dsimp only
      rw [if_neg (by decide), hp.buffer_eq, ← hp.state_eq]
      rfl
    | some text =>
      refine (comes_fragment { url with
        query := some (percentEncodeAfterEncoding buffer (querySet url)), fragment := some [] } []
        (hfragment text rfl)).next fun p hp => ?_
      rw [step, hp.state_eq, hp.codePoint ascii_number]
      rw [query, if_pos (.inr (by decide)), hp.url_eq, if_pos hquery]
      rw [if_pos (by decide), hp.buffer_eq, querySet]
  | cons b text ih =>
    obtain ⟨hb, htext⟩ := forall_mem_cons.mp htext
    have hend : ¬ (b.toNat = endOfFile ∨ isChar b.toNat '#' = true) := by
      rw [isChar_eq_false hb.2, Bool.false_eq_true, or_false]
      exact toNat_ne_endOfFile b
    rw [append_cons]
    refine (ih htext).next fun p hp => ?_
    rw [step, hp.state_eq, hp.codePoint hb.1]
    show query b.toNat p = _
    rw [query, if_neg hend, appendedCodePoint_ascii hb.1, hp.buffer_eq, ← hp.url_eq, ← hp.state_eq]

/-! ## The end of the path -/

/-- What a state does at the end of the path, with the URL and the buffer that it leaves. -/
def pathEnd (c : Nat) (p : URLParser) (url : URL) (buffer : List UInt8) : Step :=
  if isChar c '?' then
    .next { p with url := { url with query := some [] }, buffer := buffer, state := .query }
  else if isChar c '#' then
    .next { p with url := { url with fragment := some [] }, buffer := buffer, state := .fragment }
  else .next { p with url := url, buffer := buffer }

/-- The URL with its query and fragment, of which the first also takes what a state has
left in the buffer. -/
def withTail (url : URL) (buffer : List UInt8) : (query fragment : Option (List UInt8)) → URL
  | none, none => { url with valid := true }
  | none, some text => { url with fragment := some (percentDecode (buffer ++ text)), valid := true }
  | some query, fragment =>
    { url with
      query := some (percentEncodeAfterEncoding (buffer ++ query) (querySet url))
      fragment := fragment.map percentDecode
      valid := true }

/-- What follows a path. -/
def IsTail (text : List UInt8) : Prop :=
  text = [] ∨ text.head? = some (byte '?') ∨ text.head? = some (byte '#')

theorem isTail_queryText (query fragment : Option (List UInt8)) :
    IsTail (queryText query ++ fragmentText fragment) := by
  cases query with
  | some query => exact .inr (.inl rfl)
  | none =>
    cases fragment with
    | some fragment => exact .inr (.inr rfl)
    | none => exact .inl rfl

theorem IsTail.ends {text : List UInt8} (h : IsTail text) (url : URL) : Ends url text := by
  obtain rfl | h | h := h
  · exact ⟨fun b hb => (nomatch hb), rfl⟩
  · refine ⟨fun b hb => ?_, ?_⟩
    · rw [h] at hb
      cases hb
      decide
    · rw [h]
      rfl
  · refine ⟨fun b hb => ?_, ?_⟩
    · rw [h] at hb
      cases hb
      decide
    · rw [h]
      rfl

theorem comes_tail {query fragment : Option (List UInt8)}
    (hquery : ∀ text ∈ query, ∀ b ∈ text, b < 0x80 ∧ b ≠ byte '#')
    (hfragment : ∀ text ∈ fragment, ∀ b ∈ text, b < 0x80) (hnone : url'.fragment = none)
    (hstep : ∀ text p, IsTail text → At input state url buffer text p →
      step input none p =
        pathEnd ((text.head?.map UInt8.toNat).getD endOfFile) p url' buffer') :
    Comes input state url buffer (queryText query ++ fragmentText fragment)
      (.url (withTail url' buffer' query fragment)) := by
  cases query with
  | some query =>
    have hempty : ({ url' with query := some [] } : URL).query = some [] := rfl
    refine (comes_query hempty (hquery query rfl) hfragment hnone).next fun p hp => ?_
    rw [hstep _ p (.inr (.inl rfl)) hp]
    rfl
  | none =>
    cases fragment with
    | none =>
      intro p hp
      have hlength := hp.length_eq
      rw [mainLoop_last (hstep [] p (.inl rfl) hp) (Nat.le_of_eq hlength.symm)]
      rfl
    | some fragment =>
      refine (comes_fragment { url' with fragment := some [] } buffer'
        (hfragment fragment rfl)).next fun p hp => ?_
      rw [hstep _ p (.inr (.inr rfl)) hp]
      rfl

theorem step_path_end (h : IsTail text) (hp : At input .path url buffer text p) :
    step input none p = pathEnd ((text.head?.map UInt8.toNat).getD endOfFile) p
      (endSegment false url buffer) [] := by
  have hend := h.ends url
  have hslash : isSlash ((text.head?.map UInt8.toNat).getD endOfFile) = false ∧
      isSpecialBackslash url ((text.head?.map UInt8.toNat).getD endOfFile) = false := by
    obtain rfl | h | h := h
    · exact ⟨rfl, by simp [isSpecialBackslash, isChar, endOfFile, byte]⟩
    · rw [h]
      exact ⟨rfl, by simp [isSpecialBackslash, isChar, byte]⟩
    · rw [h]
      exact ⟨rfl, by simp [isSpecialBackslash, isChar, byte]⟩
  rw [step, hp.state_eq, hp.codePoint_head hend.1]
  rw [path, hp.url_eq, hend.2, if_pos rfl, hslash.1, hslash.2, hp.buffer_eq, pathEnd]
  rfl

/-- `PathStart` at the end of a URL that is not special. -/
theorem step_pathStart_end (h : IsTail text) (hspecial : url.isSpecial = false)
    (hp : At input .pathStart url buffer text p) :
    step input none p = pathEnd ((text.head?.map UInt8.toNat).getD endOfFile) p url buffer := by
  have hend := h.ends url
  rw [step, hp.state_eq, hp.codePoint_head hend.1]
  rw [pathStart, hp.url_eq, hspecial, if_neg Bool.false_ne_true, pathEnd, ← hp.buffer_eq]
  obtain rfl | h | h := h
  · rw [← hp.url_eq]
    rfl
  · rw [h]
    rfl
  · rw [h]
    rfl

/-- `CannotBeABaseUrlPath` at its end: the buffer stays. -/
theorem step_cannotBeABaseUrlPath_end (h : IsTail text)
    (hpaths : url.paths = [[]]) (hp : At input .cannotBeABaseUrlPath url buffer text p) :
    step input none p = pathEnd ((text.head?.map UInt8.toNat).getD endOfFile) p
      { url with paths := [percentDecode buffer] } buffer := by
  have hend := h.ends url
  rw [step, hp.state_eq, hp.codePoint_head hend.1]
  rw [cannotBeABaseUrlPath, hp.url_eq, if_pos hpaths, pathEnd, ← hp.buffer_eq]
  obtain rfl | h | h := h
  · rfl
  · rw [h]
    rfl
  · rw [h]
    rfl

theorem comes_cannotBeABaseUrlPath_text
    (hpaths : url.paths = [[]]) (htext : ∀ b ∈ text, Unencoded .path b)
    (h : Comes input .cannotBeABaseUrlPath url (buffer ++ text) rest r) :
    Comes input .cannotBeABaseUrlPath url buffer (text ++ rest) r := by
  induction text generalizing buffer with
  | nil => rwa [append_nil] at h
  | cons b text ih =>
    obtain ⟨hb, htext⟩ := forall_mem_cons.mp htext
    have h' : Comes input .cannotBeABaseUrlPath url ((buffer ++ [b]) ++ text) rest r := by simpa using h
    refine (ih htext h').next fun p hp => ?_
    rw [step, hp.state_eq, hp.codePoint hb.1]
    rw [cannotBeABaseUrlPath, hp.url_eq, if_pos hpaths]
    dsimp only
    simp only [isChar_eq_false (unencoded_path_ne hb).1, if_neg Bool.false_ne_true,
      isChar_eq_false (unencoded_path_ne hb).2, if_pos (toNat_ne_endOfFile b),
      percentEncodedIfNecessary_unencoded (unencoded_c0Control hb), map_some, hp.buffer_eq,
      ← hp.state_eq]
    rfl

end Literate.AK.URLParser

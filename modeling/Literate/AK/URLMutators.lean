import Literate.Foundation.Run
import Literate.AK.LexicalPath
import Literate.AK.URLShape

/-!
# AK: URLs that are changed

The setters of `AK/URL.h` and `AK/URL.cpp`, and the URLs they start from.  `m_valid` and
`m_port` are derived from the other members, and each setter refreshes them or does not:
`Settled` says that both are up to date, and the runs that keep it are characterized.
-/

namespace Literate.AK

open Foundation

namespace URL

def about : List UInt8 := literal ['a', 'b', 'o', 'u', 't']
def mailto : List UInt8 := literal ['m', 'a', 'i', 'l', 't', 'o']

/-- A payload that `compute_validity` takes for base64.  The characters it turns down are
those that are not alphanumeric and three more, which are not alphanumeric either. -/
def isBase64Payload (payload : List UInt8) : Bool :=
  payload.length % 4 == 0 &&
    payload.all fun character =>
      !(!isAsciiAlphanumeric character.toNat || character == byte '+' || character == byte '/' ||
        character == byte '=')

/-- What `compute_validity` asks of what is behind the scheme. -/
def computeBodyValidity (url : URL) : Bool :=
  if url.scheme.getD [] = data then
    if (url.dataMimeType.getD []).isEmpty then false
    else if url.dataPayloadIsBase64 then isBase64Payload (url.dataPayload.getD [])
    else true
  else if url.cannotBeABaseUrl then
    if url.paths.length ≠ 1 then false else !(url.paths.headD []).isEmpty
  else if url.scheme.getD [] = about ∨ url.scheme.getD [] = mailto then false
  else url.paths.length != 0

def computeValidity (url : URL) : Bool :=
  if (url.scheme.getD []).isEmpty then false
  else if !url.computeBodyValidity then false
  else if url.scheme.getD [] = file ∧ url.host = none then false
  else true

/-! ## The setters -/

/-- `m_valid = compute_validity()`. -/
def refreshed (url : URL) : URL := { url with valid := url.computeValidity }

def setScheme (url : URL) (scheme : Option (List UInt8)) : URL :=
  refreshed { url with scheme := scheme }

def setUsername (url : URL) (username : Option (List UInt8)) : URL :=
  refreshed { url with username := username }

def setPassword (url : URL) (password : Option (List UInt8)) : URL :=
  refreshed { url with password := password }

def setHost (url : URL) (host : Option (List UInt8)) : URL :=
  refreshed { url with host := host }

def setPort (url : URL) (port : Option UInt16) : URL :=
  if port.map UInt16.toNat = some (defaultPortForScheme (url.scheme.getD [])) then
    { url with port := none }
  else refreshed { url with port := port.map UInt16.toNat }

def setPaths (url : URL) (paths : List (List UInt8)) : URL :=
  refreshed { url with paths := paths }

def setQuery (url : URL) (query : Option (List UInt8)) : URL := { url with query := query }

def setFragments (url : URL) (fragment : Option (List UInt8)) : URL :=
  { url with fragment := fragment }

def setCannotBeABaseUrl (url : URL) (value : Bool) : URL := { url with cannotBeABaseUrl := value }

def createWithFileScheme (path fragment hostname : Option (List UInt8)) : URL :=
  let lexicalPath := LexicalPath.ofPath path
  if !lexicalPath.isAbsolute then new
  else
    let url := new.setScheme (some file)
    let url :=
      url.setHost
        (if hostname = none ∨ hostname = some URLParser.localhost then some [] else hostname)
    let url := url.setPaths lexicalPath.parts
    let url := if (path.getD []).getLast? = some (byte '/') then url.appendPath [] else url
    url.setFragments fragment

/-- A call of a setter. -/
inductive Mutation
  | setScheme (scheme : Option (List UInt8))
  | setUsername (username : Option (List UInt8))
  | setPassword (password : Option (List UInt8))
  | setHost (host : Option (List UInt8))
  | setPort (port : Option UInt16)
  | setPaths (paths : List (List UInt8))
  | appendPath (path : List UInt8)
  | setQuery (query : Option (List UInt8))
  | setFragments (fragment : Option (List UInt8))
  | setCannotBeABaseUrl (value : Bool)
  deriving DecidableEq, Repr

def mutate (url : URL) : Mutation → URL
  | .setScheme scheme => url.setScheme scheme
  | .setUsername username => url.setUsername username
  | .setPassword password => url.setPassword password
  | .setHost host => url.setHost host
  | .setPort port => url.setPort port
  | .setPaths paths => url.setPaths paths
  | .appendPath path => url.appendPath path
  | .setQuery query => url.setQuery query
  | .setFragments fragment => url.setFragments fragment
  | .setCannotBeABaseUrl value => url.setCannotBeABaseUrl value

def step (url : URL) (mutation : Mutation) : Option URL := some (url.mutate mutation)

/-- Where a URL comes from.  The constructors that take a string parse it, without a
base URL. -/
inductive Origin
  | default
  | parse (rawInput : List UInt8) (base url : Option URL)
      (stateOverride : Option URLParser.State)
  | data (mimeType payload : List UInt8) (isBase64 : Bool)
  | fileScheme (path fragment hostname : Option (List UInt8))

/-- The URL, unless the parser aborts. -/
def Origin.make : Origin → Option URL
  | .default => some new
  | .parse rawInput base url stateOverride =>
    match URLParser.parse rawInput base url stateOverride with
    | .url url => some url
    | .abort => none
    | .running => none
  | .data mimeType payload isBase64 => some (ofData mimeType payload isBase64)
  | .fileScheme path fragment hostname => some (createWithFileScheme path fragment hostname)

/-! ## What is derived -/

/-- `is_valid()` is what `compute_validity()` says, and the port is not the one that the
scheme has anyway. -/
def Settled (url : URL) : Prop :=
  url.valid = url.computeValidity ∧
    url.port ≠ some (defaultPortForScheme (url.scheme.getD []))

instance (url : URL) : Decidable url.Settled := inferInstanceAs (Decidable (_ ∧ _))

/-- The validity does not depend on the path. -/
def PathIgnored (url : URL) : Prop :=
  url.scheme.getD [] = [] ∨ url.scheme = some data ∨ (url.scheme = some file ∧ url.host = none)

/-- The path is that of a URL that cannot be a base. -/
def Opaque (url : URL) : Prop := url.paths.length = 1 ∧ url.paths.headD [] ≠ []

/-- The path is that of a URL that can be a base. -/
def Hierarchical (url : URL) : Prop := url.scheme.getD [] ∉ [about, mailto] ∧ url.paths ≠ []

instance (url : URL) : Decidable url.PathIgnored := inferInstanceAs (Decidable (_ ∨ _))
instance (url : URL) : Decidable url.Opaque := inferInstanceAs (Decidable (_ ∧ _))
instance (url : URL) : Decidable url.Hierarchical := inferInstanceAs (Decidable (_ ∧ _))

/-- What is behind the scheme is of the scheme's kind. -/
def Filled (url : URL) : Prop :=
  if url.scheme = some data then
    url.dataMimeType.getD [] ≠ [] ∧
      (url.dataPayloadIsBase64 = true → isBase64Payload (url.dataPayload.getD []) = true)
  else if url.cannotBeABaseUrl then url.paths ≠ [[]]
  else url.Hierarchical

/-- What a URL may lack that was parsed from another one. -/
structure Carried (url : URL) : Prop where
  scheme : url.scheme.getD [] ≠ []
  path : url.scheme ≠ some data → url.cannotBeABaseUrl = true → url.paths.length = 1
  host : url.scheme = some file → url.host ≠ none
  port : url.port ≠ some (defaultPortForScheme (url.scheme.getD []))

/-- The URL that an origin makes is settled. -/
def Origin.Sound (url : URL) : Origin → Prop
  | .default => True
  | .parse _ none none none => url.valid = true → url.Filled
  | .parse _ _ _ _ => url.valid = true → url.Filled ∧ url.Carried
  | .data mimeType payload isBase64 =>
    mimeType ≠ [] ∧ (isBase64 = true → isBase64Payload payload = true)
  | .fileScheme path _ _ =>
    (path.getD []).getLast? = some (byte '/') →
      (LexicalPath.ofPath path).string ≠ [LexicalPath.slash]

/-- A setter leaves nothing behind that is out of date. -/
def Refreshes (url : URL) : Mutation → Prop
  | .setScheme scheme => url.port ≠ some (defaultPortForScheme (scheme.getD []))
  | .appendPath path =>
    url.PathIgnored ∨
      if url.cannotBeABaseUrl then 2 ≤ url.paths.length ∨ (url.paths ++ [path]).head? = some []
      else url.scheme.getD [] ∈ [about, mailto] ∨ url.paths ≠ []
  | .setCannotBeABaseUrl value =>
    value = url.cannotBeABaseUrl ∨ url.PathIgnored ∨ (url.Opaque ↔ url.Hierarchical)
  | _ => True

instance (url : URL) : (mutation : Mutation) → Decidable (url.Refreshes mutation)
  | .setScheme _ => inferInstanceAs (Decidable (_ ≠ _))
  | .setUsername _ => .isTrue trivial
  | .setPassword _ => .isTrue trivial
  | .setHost _ => .isTrue trivial
  | .setPort _ => .isTrue trivial
  | .setPaths _ => .isTrue trivial
  | .appendPath path =>
    inferInstanceAs (Decidable (url.PathIgnored ∨
      if url.cannotBeABaseUrl then 2 ≤ url.paths.length ∨ (url.paths ++ [path]).head? = some []
      else url.scheme.getD [] ∈ [about, mailto] ∨ url.paths ≠ []))
  | .setQuery _ => .isTrue trivial
  | .setFragments _ => .isTrue trivial
  | .setCannotBeABaseUrl _ => inferInstanceAs (Decidable (_ ∨ _ ∨ (_ ↔ _)))

/-! ## Validity -/

variable {url : URL}

theorem scheme_eq_some_iff {scheme : List UInt8} (h : scheme ≠ []) :
    url.scheme.getD [] = scheme ↔ url.scheme = some scheme := by
  cases url.scheme with
  | none => simp [Ne.symm h]
  | some _ => simp

theorem data_ne_nil : data ≠ [] := by decide
theorem file_ne_nil : file ≠ [] := by decide

theorem computeValidity_eq_true_iff : url.computeValidity = true ↔
      url.scheme.getD [] ≠ [] ∧ url.computeBodyValidity = true ∧
        (url.scheme = some file → url.host ≠ none) := by
  unfold computeValidity
  rw [← scheme_eq_some_iff file_ne_nil]
  by_cases hscheme : url.scheme.getD [] = []
  · simp [hscheme]
  · cases hbody : url.computeBodyValidity with
    | true => simp [hscheme, imp_iff_not_or]
    | false => simp [hscheme]

theorem computeBodyValidity_data (h : url.scheme = some data) : url.computeBodyValidity = true ↔
      url.dataMimeType.getD [] ≠ [] ∧
        (url.dataPayloadIsBase64 = true → isBase64Payload (url.dataPayload.getD []) = true) := by
  unfold computeBodyValidity
  rw [if_pos (by rw [h]; rfl)]
  cases hmime : url.dataMimeType.getD [] with
  | nil => simp
  | cons _ _ => cases url.dataPayloadIsBase64 <;> simp

theorem computeBodyValidity_opaquePath (h : url.scheme ≠ some data)
    (hcannot : url.cannotBeABaseUrl = true) : url.computeBodyValidity = true ↔ url.Opaque := by
  unfold computeBodyValidity Opaque
  rw [if_neg (by rwa [scheme_eq_some_iff data_ne_nil]), if_pos hcannot]
  by_cases hlength : url.paths.length = 1
  · simp [hlength]
  · simp [hlength]

theorem computeBodyValidity_hierarchical (h : url.scheme ≠ some data)
    (hcannot : url.cannotBeABaseUrl = false) :
    url.computeBodyValidity = true ↔ url.Hierarchical := by
  unfold computeBodyValidity Hierarchical
  rw [if_neg (by rwa [scheme_eq_some_iff data_ne_nil]), if_neg (by simp [hcannot])]
  simp only [← List.mem_pair]
  by_cases hscheme : url.scheme.getD [] ∈ [about, mailto]
  · simp
  · simp only [hscheme, if_false, bne_iff_ne, ne_eq, List.length_eq_zero_iff, not_false_eq_true,
      true_and]

/-- The path is of the URL's kind. -/
def PathFits (url : URL) : Prop := if url.cannotBeABaseUrl then url.Opaque else url.Hierarchical

theorem computeBodyValidity_iff_pathFits (h : url.scheme ≠ some data) :
    url.computeBodyValidity = true ↔ url.PathFits := by
  unfold PathFits
  cases hcannot : url.cannotBeABaseUrl with
  | true => rw [computeBodyValidity_opaquePath h hcannot, if_pos rfl]
  | false => rw [computeBodyValidity_hierarchical h hcannot, if_neg Bool.false_ne_true]

theorem computeValidity_iff_pathFits (h : ¬ url.PathIgnored) :
    url.computeValidity = true ↔ url.PathFits := by
  obtain ⟨hscheme, hdata, hfile⟩ := not_or.mp h |>.imp_right not_or.mp
  rw [computeValidity_eq_true_iff, computeBodyValidity_iff_pathFits hdata]
  constructor
  · exact fun hvalid => hvalid.2.1
  · exact fun hfits => ⟨hscheme, hfits, fun heq hhost => hfile ⟨heq, hhost⟩⟩

/-- Another path, for a base URL or not. -/
def withPath (url : URL) (paths : List (List UInt8)) (cannotBeABaseUrl : Bool) : URL :=
  { url with paths := paths, cannotBeABaseUrl := cannotBeABaseUrl }

theorem computeValidity_withPath_of_pathIgnored (h : url.PathIgnored)
    (paths : List (List UInt8)) (cannotBeABaseUrl : Bool) :
    (url.withPath paths cannotBeABaseUrl).computeValidity = url.computeValidity := by
  unfold withPath
  cases h with
  | inl hscheme => simp [computeValidity, hscheme]
  | inr h =>
    cases h with
    | inl hdata => simp [computeValidity, computeBodyValidity, hdata]
    | inr hfile => simp [computeValidity, hfile.1, hfile.2]

/-- A setter that leaves the validity alone has to leave the path as fit as it was. -/
theorem computeValidity_withPath_iff (paths : List (List UInt8)) (cannotBeABaseUrl : Bool) :
    (url.withPath paths cannotBeABaseUrl).computeValidity = url.computeValidity ↔
      url.PathIgnored ∨ ((url.withPath paths cannotBeABaseUrl).PathFits ↔ url.PathFits) := by
  by_cases hignored : url.PathIgnored
  · simp [hignored, computeValidity_withPath_of_pathIgnored hignored]
  · have hignored' : ¬ (url.withPath paths cannotBeABaseUrl).PathIgnored := hignored
    rw [Bool.eq_iff_iff, computeValidity_iff_pathFits hignored,
      computeValidity_iff_pathFits hignored']
    simp [hignored]

theorem pathFits_appendPath_iff (path : List UInt8) :
    ((url.appendPath path).PathFits ↔ url.PathFits) ↔
      if url.cannotBeABaseUrl then 2 ≤ url.paths.length ∨ (url.paths ++ [path]).head? = some []
      else url.scheme.getD [] ∈ [about, mailto] ∨ url.paths ≠ [] := by
  unfold PathFits appendPath Opaque Hierarchical
  cases url.cannotBeABaseUrl with
  | true =>
    simp only [if_pos rfl]
    match url.paths with
    | [] => simp
    | [only] => simp
    | first :: second :: rest => simp
  | false =>
    simp only [if_neg Bool.false_ne_true]
    by_cases hscheme : url.scheme.getD [] ∈ [about, mailto]
    · simp [hscheme]
    · simp only [hscheme, not_false_eq_true, true_and, false_or]
      simp

theorem pathFits_setCannotBeABaseUrl_iff (value : Bool) :
    ((url.setCannotBeABaseUrl value).PathFits ↔ url.PathFits) ↔
      value = url.cannotBeABaseUrl ∨ (url.Opaque ↔ url.Hierarchical) := by
  unfold PathFits setCannotBeABaseUrl Opaque Hierarchical
  cases value <;> cases url.cannotBeABaseUrl <;> simp [iff_comm]

/-! ## Steps -/

theorem settled_refreshed :
    (refreshed url).Settled ↔ url.port ≠ some (defaultPortForScheme (url.scheme.getD [])) := by
  exact and_iff_right rfl

/-- What a setter leaves of a URL that is settled. -/
theorem settled_mutate_iff (h : url.Settled) (mutation : Mutation) :
    (url.mutate mutation).Settled ↔ url.Refreshes mutation := by
  cases mutation with
  | setScheme scheme => exact settled_refreshed
  | setUsername username => exact settled_refreshed.trans (iff_true_intro h.2)
  | setPassword password => exact settled_refreshed.trans (iff_true_intro h.2)
  | setHost host => exact settled_refreshed.trans (iff_true_intro h.2)
  | setPort port =>
    refine iff_true_intro ?_
    rw [mutate, setPort]
    split
    · exact ⟨h.1, nofun⟩
    · next hport => exact settled_refreshed.mpr hport
  | setPaths paths => exact settled_refreshed.trans (iff_true_intro h.2)
  | appendPath path =>
    have hvalidity := url.computeValidity_withPath_iff (url.paths ++ [path]) url.cannotBeABaseUrl
    rw [Refreshes, ← pathFits_appendPath_iff]
    refine Iff.trans ?_ hvalidity
    exact (and_iff_left h.2).trans (h.1 ▸ eq_comm)
  | setQuery query => exact iff_true_intro h
  | setFragments fragment => exact iff_true_intro h
  | setCannotBeABaseUrl value =>
    have hvalidity := url.computeValidity_withPath_iff url.paths value
    rw [Refreshes, or_left_comm, ← pathFits_setCannotBeABaseUrl_iff]
    refine Iff.trans ?_ hvalidity
    exact (and_iff_left h.2).trans (h.1 ▸ eq_comm)

end URL

end Literate.AK

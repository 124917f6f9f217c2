import Literate.AK.PercentRoundTrip
import Literate.AK.URLAuthority
import Literate.AK.URLFile
import Literate.AK.URLSegments

/-!
# AK: file URLs with one slash and with three

`file:/` and `file:///` before a path do not come to the same URL: after one slash,
everything up to the next slash is passed over, and what follows it is read as a host.
`formsAgree` says of the code points of a path when the two URLs are the same all the same.
-/

namespace Literate.AK.URLParser

open Foundation Utf8View URL List Option

variable {url : URL} {buffer : List UInt8} {c : Nat} {cs : List Nat}

/-! ## Number signs -/

/-- How many number signs a text has. -/
def numberSigns (text : List UInt8) : Nat := text.count (byte '#')

theorem numberSigns_append (text text' : List UInt8) :
    numberSigns (text ++ text') = numberSigns text + numberSigns text' := count_append

theorem numberSigns_number (text : List UInt8) :
    numberSigns (byte '#' :: text) = numberSigns text + 1 := count_cons_self

theorem numberSigns_of_ne {b : UInt8} (hb : b ≠ byte '#') (text : List UInt8) :
    numberSigns (b :: text) = numberSigns text := count_cons_of_ne hb

theorem percentDecodeLoop_cases (b : UInt8) (text : List UInt8) : percentDecodeLoop (b :: text) 0 =
        appendedCodePoint (codePointAt b text) ++ percentDecodeLoop text 0 ∨
      ∃ high low rest value, text = high :: low :: rest ∧
        (b ≠ byte '#' ∧ high ≠ byte '#' ∧ low ≠ byte '#') ∧
        percentDecodeLoop (b :: text) 0 = value :: percentDecodeLoop rest 0 := by
  have hhex : ∀ {b' rest}, isAsciiHexDigit (codePointAt b' rest) = true → b' ≠ byte '#' := by
    rintro b' rest hhex rfl
    rw [codePointAt_ascii (by decide)] at hhex
    exact absurd hhex (by decide)
  rw [percentDecodeLoop]
  split
  · exact .inl rfl
  · next hescape =>
    cases hvalue : hexByte? text with
    | none => exact .inl rfl
    | some value =>
      obtain ⟨high, low, rest, rfl, hhigh, hlow⟩ := hexByte?_eq_some hvalue
      refine .inr ⟨high, low, rest, value, rfl, ⟨?_, hhex hhigh, hhex hlow⟩, rfl⟩
      rintro rfl
      rw [codePointAt_ascii (by decide)] at hescape
      exact hescape (by decide)

theorem percentDecodeLoop_number (text : List UInt8) :
    percentDecodeLoop (byte '#' :: text) 0 = byte '#' :: percentDecodeLoop text 0 := by
  rw [percentDecodeLoop, codePointAt_ascii (by decide), if_pos (by decide),
    appendedCodePoint_ascii (by decide), singleton_append]

/-- Decoding leaves the number signs of a text that nothing comes after but a number sign,
and does not touch what comes after. -/
theorem numberSigns_percentDecodeLoop {after : List UInt8}
    (hafter : ∀ b ∈ after.head?, b = byte '#') (text : List UInt8) :
    numberSigns text + numberSigns (percentDecodeLoop after 0) ≤
      numberSigns (percentDecodeLoop (text ++ after) 0) := by
  induction hlength : text.length using Nat.strong_induction_on generalizing text with
  | _ n ih =>
    cases text with
    | nil => exact Nat.le_of_eq (Nat.zero_add _)
    | cons b text =>
      rw [length_cons] at hlength
      rw [List.cons_append]
      cases percentDecodeLoop_cases b (text ++ after) with
      | inl hkept =>
        have hih := ih text.length (by omega) text rfl
        rw [hkept, numberSigns_append]
        by_cases hb : b = byte '#'
        · subst hb
          rw [codePointAt_ascii (by decide), appendedCodePoint_ascii (by decide),
            numberSigns_number, numberSigns_number]
          omega
        · rw [numberSigns_of_ne hb]
          omega
      | inr hescape =>
        obtain ⟨high, low, rest, value, htext, ⟨hb, hhigh, hlow⟩, hdecode⟩ := hescape
        cases text with
        | nil => exact absurd (hafter high (congrArg List.head? htext)) hhigh
        | cons high' text =>
          obtain ⟨rfl, htext'⟩ := List.cons.inj htext
          cases text with
          | nil => exact absurd (hafter low (congrArg List.head? htext')) hlow
          | cons low' text =>
            obtain ⟨rfl, rfl⟩ := List.cons.inj htext'
            simp only [length_cons] at hlength
            have hih := ih text.length (by omega) text rfl
            have hvalue : numberSigns (percentDecodeLoop (text ++ after) 0) ≤
                numberSigns (value :: percentDecodeLoop (text ++ after) 0) :=
              count_le_count_cons
            rw [numberSigns_of_ne hb, numberSigns_of_ne hhigh, numberSigns_of_ne hlow, hdecode]
            exact Nat.le_trans hih hvalue

/-- A text after a number sign has fewer of them than the whole, decoded too. -/
theorem numberSigns_percentDecode_lt (before after : List UInt8) :
    numberSigns (percentDecode after) < numberSigns (percentDecode (before ++ byte '#' :: after)) := by
  have hafter : numberSigns (percentDecode after) ≤ numberSigns (percentDecodeLoop after 0) := by
    rw [percentDecode]
    split
    · exact Nat.le_refl _
    · have hle := @numberSigns_percentDecodeLoop [] (fun b hb => by cases hb) after
      rw [append_nil] at hle
      exact Nat.le_trans (Nat.le_add_right _ _) hle
  have hwhole := @numberSigns_percentDecodeLoop (byte '#' :: after)
    (fun b hb => (some.inj hb).symm) before
  rw [percentDecodeLoop_number, numberSigns_number] at hwhole
  by_cases hpercent : byte '%' ∈ before ++ byte '#' :: after
  · rw [percentDecode.eq_def (before ++ _), if_pos hpercent]
    omega
  · have hnot : byte '%' ∉ after := fun hmem =>
      hpercent (mem_append_right _ (mem_cons_of_mem _ hmem))
    simp only [percentDecode, if_neg hpercent, if_neg hnot, numberSigns_append, numberSigns_number]
    omega

theorem isChar_number_iff : isChar c '#' = true ↔ c = (byte '#').toNat := beq_iff_eq

theorem fragment_ne (hc : isChar c '#' = true) (before after : List Nat) :
    percentDecode (appended (before ++ c :: after)) ≠ percentDecode (appended after) := by
  intro heq
  obtain rfl := isChar_number_iff.mp hc
  have hlt := numberSigns_percentDecode_lt (appended before) (appended after)
  rw [appended_append, appended_cons, appendedCodePoint_ascii (by decide), singleton_append]
    at heq
  rw [heq] at hlt
  exact Nat.lt_irrefl _ hlt

/-! ## What follows a path -/

/-- The fragment of code points begins after the first number sign. -/
theorem numberFragment_cases (cs : List Nat) :
    (numberFragment cs = none ∧ ∀ c ∈ cs, isChar c '#' = false) ∨
      ∃ before c after, cs = before ++ c :: after ∧ isChar c '#' = true ∧
        numberFragment cs = some (percentDecode (appended after)) := by
  induction cs with
  | nil => exact .inl ⟨rfl, fun c hc => by cases hc⟩
  | cons c cs ih =>
    cases hc : isChar c '#' with
    | true => exact .inr ⟨[], c, cs, rfl, hc, numberFragment_of_number hc⟩
    | false =>
      rw [numberFragment_of_not_number hc]
      refine ih.imp (fun hnone => ⟨hnone.1, forall_mem_cons.mpr ⟨hc, hnone.2⟩⟩) ?_
      rintro ⟨before, c', after, rfl, hc', hfragment⟩
      exact ⟨c :: before, c', after, rfl, hc', hfragment⟩

theorem numberFragment_of_mem (hc : isChar c '#' = true) (before after : List Nat) :
    ∃ first, numberFragment (before ++ c :: after) =
      some (percentDecode (appended (first ++ after))) := by
  induction before with
  | nil => exact ⟨[], numberFragment_of_number hc⟩
  | cons c' before ih =>
    rw [List.cons_append]
    cases hc' : isChar c' '#' with
    | true =>
      rw [numberFragment_of_number hc']
      exact ⟨before ++ [c], by rw [List.append_assoc, singleton_append]⟩
    | false =>
      rw [numberFragment_of_not_number hc']
      exact ih

/-- A part at the end of code points that have a number sign before it has another fragment. -/
theorem numberFragment_ne (hc : isChar c '#' = true) (before middle after : List Nat) :
    numberFragment (before ++ c :: (middle ++ after)) ≠ numberFragment after := by
  obtain ⟨first, hwhole⟩ := numberFragment_of_mem hc before (middle ++ after)
  rw [hwhole]
  intro heq
  cases numberFragment_cases after with
  | inl hnone =>
    rw [hnone.1] at heq
    cases heq
  | inr hsome =>
    obtain ⟨before', c', after', rfl, hc', hfragment⟩ := hsome
    simp only [hfragment, ← List.append_assoc] at heq
    exact fragment_ne hc' (first ++ middle ++ before') after' (some.inj heq)

theorem percentEncodeAfterEncoding_append (text text' : List UInt8) (set : PercentEncodeSet) :
    percentEncodeAfterEncoding (text ++ text') set =
      percentEncodeAfterEncoding text set ++ percentEncodeAfterEncoding text' set :=
  flatMap_append

variable {text : List UInt8}

theorem percentEncodeAfterEncoding_ne_nil (h : text ≠ []) (set : PercentEncodeSet) :
    percentEncodeAfterEncoding text set ≠ [] := by
  obtain ⟨b, text, rfl⟩ := exists_cons_of_ne_nil h
  rw [percentEncodeAfterEncoding, flatMap_cons]
  have hne : ∀ c, (if codePointIsInPercentEncodeSet c set then percentEncodedByte b
      else appendedCodePoint c) ≠ [] := by
    intro c
    split
    · exact cons_ne_nil _ _
    · exact appendedCodePoint_ne_nil c
  exact append_ne_nil_of_left_ne_nil (hne _) _

/-- Queries of which one is the end of the other differ. -/
theorem query_ne {before : List Nat} (hbefore : before ≠ []) (after : List Nat) :
    percentEncodeAfterEncoding (appended (before ++ after)) .specialQuery ≠
      percentEncodeAfterEncoding (appended after) .specialQuery := by
  rw [appended_append, percentEncodeAfterEncoding_append, Ne, append_left_eq_self]
  exact percentEncodeAfterEncoding_ne_nil (mt appended_eq_nil_iff.mp hbefore) _

/-- Nothing, or a question mark or a number sign and more. -/
def FollowsPath (cs : List Nat) : Prop := ∀ c ∈ cs.head?, isStop c = true

/-- What follows a path is not read as if a part at its end followed the path. -/
theorem tail_ne {before tail : List Nat} (hbefore : before ≠ []) (hwhole : FollowsPath (before ++ tail))
    (htail : FollowsPath tail) : ¬ (tailQuery tail = tailQuery (before ++ tail) ∧
      tailFragment tail = tailFragment (before ++ tail)) := by
  rintro ⟨hquery, hfragment⟩
  obtain ⟨c, before, rfl⟩ := exists_cons_of_ne_nil hbefore
  have hc : isStop c = true := hwhole c rfl
  rw [List.cons_append, tailQuery] at hquery
  rw [List.cons_append, tailFragment] at hfragment
  cases tail with
  | nil =>
    cases hquestion : isChar c '?' with
    | true =>
      rw [hquestion, if_pos rfl] at hquery
      cases hquery
    | false =>
      rw [hquestion, if_neg Bool.false_ne_true] at hfragment
      cases hfragment
  | cons c' tail =>
    have hc' : isStop c' = true := htail c' rfl
    rw [tailQuery] at hquery
    rw [tailFragment] at hfragment
    cases hquestion : isChar c '?' with
    | true =>
      rw [hquestion, if_pos rfl] at hquery hfragment
      cases hquestion' : isChar c' '?' with
      | true =>
        rw [hquestion', if_pos rfl] at hquery hfragment
        cases numberFragment_cases before with
        | inl hnone =>
          have hall : ∀ c ∈ before ++ [c'], (!isChar c '#') = true := by
            intro d hd
            cases mem_append.mp hd with
            | inl hd => rw [hnone.2 d hd, Bool.not_false]
            | inr hd =>
              obtain rfl := mem_singleton.mp hd
              rw [isChar, beq_iff_eq] at hquestion'
              subst hquestion'
              decide
          rw [append_cons, takeWhile_append_of_pos hall] at hquery
          exact query_ne (by simp) _ (some.inj hquery).symm
        | inr hsome =>
          obtain ⟨before', c'', middle, rfl, hnumber, -⟩ := hsome
          refine numberFragment_ne hnumber before' (middle ++ [c']) tail ?_
          rw [hfragment]
          simp
      | false =>
        rw [hquestion', if_neg Bool.false_ne_true] at hquery
        cases hquery
    | false =>
      rw [hquestion, if_neg Bool.false_ne_true] at hquery hfragment
      cases hquestion' : isChar c' '?' with
      | true =>
        rw [hquestion', if_pos rfl] at hquery
        cases hquery
      | false =>
        have hnumber' : isChar c' '#' = true := by rwa [isStop, hquestion', Bool.false_or] at hc'
        rw [hquestion', if_neg Bool.false_ne_true] at hfragment
        exact fragment_ne hnumber' before tail (some.inj hfragment).symm

/-! ## What the two forms come to -/

theorem endsHost_of_isStop (h : isStop c = true) : endsHost c = true := by
  rw [endsHost, h, Bool.or_true]

theorem dropWhile_endsHost (cs : List Nat) :
    (cs.dropWhile fun c => !endsHost c).dropWhile (fun c => !isStop c) =
      cs.dropWhile fun c => !isStop c := by
  induction cs with
  | nil => rfl
  | cons c cs ih =>
    cases hends : endsHost c with
    | true => rw [dropWhile_cons_of_neg (by rw [hends]; decide)]
    | false =>
      have hstop : isStop c = false := by
        rw [← Bool.not_eq_true]
        intro hstop
        rw [endsHost_of_isStop hstop] at hends
        cases hends
      rw [dropWhile_cons_of_pos (by rw [hends]; rfl), ih,
        dropWhile_cons_of_pos (by rw [hstop]; rfl)]

/-- A URL whose query and fragment are read from what follows a path. -/
def HasTail (cs : List Nat) (r : Result) : Prop :=
  ∀ url, r = .url url → url.valid = true →
    url.query = tailQuery (cs.dropWhile fun c => !isStop c) ∧
      url.fragment = tailFragment (cs.dropWhile fun c => !isStop c)

theorem hasTail_pathResult (url : URL) (buffer : List UInt8) (cs : List Nat) :
    HasTail cs (pathResult url buffer cs) := by
  intro url' h _
  rw [pathResult] at h
  split at h
  · cases h
  · obtain rfl := Result.url.inj h
    exact ⟨rfl, rfl⟩

theorem hasTail_pathStartResult (url : URL) (cs : List Nat) :
    HasTail cs (pathStartResult url cs) := by
  cases cs with
  | nil => exact hasTail_pathResult url [] []
  | cons c cs =>
    rw [pathStartResult]
    cases hsep : isSeparator c with
    | true =>
      have hdrop : ((c :: cs).dropWhile fun c => !isStop c) = cs.dropWhile fun c => !isStop c :=
        dropWhile_cons_of_pos (by rw [not_isStop_of_isSeparator hsep]; rfl)
      rw [if_pos rfl, HasTail, hdrop]
      exact hasTail_pathResult url [] cs
    | false => exact hasTail_pathResult url [] (c :: cs)

theorem hasTail_fileHostEnd (url : URL) (buffer : List UInt8) (cs : List Nat) :
    HasTail cs (fileHostEnd url buffer cs) := by
  rw [fileHostEnd]
  split
  · exact hasTail_pathResult url buffer cs
  split
  · exact hasTail_pathStartResult _ cs
  split
  · intro url' h
    cases h
  · intro url' h hvalid
    obtain rfl := Result.url.inj h
    cases hvalid
  · exact hasTail_pathStartResult _ cs

theorem hasTail_fileHostResult (url : URL) (buffer : List UInt8) (cs : List Nat) :
    HasTail cs (fileHostResult url buffer cs) := by
  have htail := hasTail_fileHostEnd url (buffer ++ appended (cs.takeWhile fun c => !endsHost c))
    (cs.dropWhile fun c => !endsHost c)
  rw [HasTail, dropWhile_endsHost] at htail
  exact htail

theorem host_endSegment (slash : Bool) (url : URL) (buffer : List UInt8) :
    (endSegment slash url buffer).host = url.host := by
  have hremove : (removeLastPath url).host = url.host := by
    rw [removeLastPath]
    split <;> rfl
  rw [endSegment]
  split
  · cases slash <;> exact hremove
  split
  · rfl
  split <;> rfl

theorem host_resolve (url : URL) (segs : List (List UInt8)) :
    (resolve url segs).host = url.host := by
  induction segs generalizing url with
  | nil => rfl
  | cons segment segs ih =>
    cases segs with
    | nil => exact host_endSegment false url segment
    | cons next segs => exact (ih _).trans (host_endSegment true url segment)

theorem paths_resolve_ne_nil {segs : List (List UInt8)} (h : segs ≠ []) (url : URL) :
    (resolve url segs).paths ≠ [] := by
  induction segs generalizing url with
  | nil => exact absurd rfl h
  | cons segment segs ih =>
    cases segs with
    | nil => exact endSegment_paths_ne_nil url segment
    | cons next segs => exact ih (cons_ne_nil _ _) _

/-! ## When they agree -/

/-- The segments that a path comes to, dot segments resolved. -/
def pathSegments (path : List Nat) : Option (List (List UInt8)) :=
  (segments [] path).map fun segs => (resolve emptyFile segs).paths

/-- Two paths that come to the same segments. -/
def samePath (path path' : List Nat) : Bool :=
  (pathSegments path').isSome && pathSegments path == pathSegments path'

/-- The path has a slash; between it and the next one is nothing, `localhost` or a drive
letter; and leaving out what is before them, the drive letter apart, does not change the
segments that the path comes to. -/
def formsAgree (cs : List Nat) : Bool :=
  let path := cs.takeWhile fun c => !isStop c
  match path.dropWhile fun c => !isSeparator c with
  | [] => false
  | _ :: rest =>
    let host := appended (rest.takeWhile fun c => !isSeparator c)
    if isWindowsDriveLetter host then samePath rest path
    else
      (host.isEmpty || host == localhost) &&
        samePath ((rest.dropWhile fun c => !isSeparator c).drop 1) path

/-- Both are URLs, with the same validity, host, paths, query and fragment. -/
def SameFileUrl (r r' : Result) : Prop :=
  ∃ url url', r = .url url ∧ r' = .url url' ∧ url.valid = url'.valid ∧ url.host = url'.host ∧
    url.paths = url'.paths ∧ url.query = url'.query ∧ url.fragment = url'.fragment

/-- Code points that do not end a path. -/
def InPath (path : List Nat) : Prop := ∀ c ∈ path, isStop c = false

theorem takeWhile_path {path tail : List Nat} (hpath : InPath path) (htail : FollowsPath tail) :
    ((path ++ tail).takeWhile fun c => !isStop c) = path ∧
      ((path ++ tail).dropWhile fun c => !isStop c) = tail := by
  have hall : ∀ c ∈ path, (!isStop c) = true := fun c hc => by rw [hpath c hc, Bool.not_false]
  rw [takeWhile_append_of_pos hall, dropWhile_append_of_pos hall]
  cases tail with
  | nil => exact ⟨append_nil path, rfl⟩
  | cons c tail =>
    have hc : isStop c = true := htail c rfl
    rw [takeWhile_cons_of_neg (by rw [hc]; decide),
      dropWhile_cons_of_neg (by rw [hc]; decide), append_nil]
    exact ⟨rfl, rfl⟩

theorem followsPath_dropWhile (cs : List Nat) : FollowsPath (cs.dropWhile fun c => !isStop c) := by
  intro c hc
  have hnot := List.head?_dropWhile_not (fun c => !isStop c) cs
  rw [mem_def.mp hc] at hnot
  dsimp only at hnot
  rwa [Bool.not_eq_false'] at hnot

theorem pathResult_append {path tail : List Nat} (hpath : InPath path) (htail : FollowsPath tail)
    (url : URL) (buffer : List UInt8) : pathResult url buffer (path ++ tail) =
      match segments buffer path with
      | none => .abort
      | some segs => .url (withTailOf (resolve url segs) tail) := by
  have hparts : ∀ path' tail', path' = path → tail' = tail →
      (match segments buffer path' with
        | none => Result.abort
        | some segs => .url (withTailOf (resolve url segs) tail')) =
      match segments buffer path with
      | none => .abort
      | some segs => .url (withTailOf (resolve url segs) tail) := by
    rintro _ _ rfl rfl
    rfl
  exact hparts _ _ (takeWhile_path hpath htail).1 (takeWhile_path hpath htail).2

/-- Two paths before the same end come to the same URL when their segments are the same. -/
theorem sameFileUrl_pathResult {path path' tail : List Nat} (hpath : InPath path)
    (hpath' : InPath path') (htail : FollowsPath tail) :
    SameFileUrl (pathResult emptyFile [] (path ++ tail))
      (pathResult emptyFile [] (path' ++ tail)) ↔ samePath path path' = true := by
  simp only [pathResult_append hpath htail, pathResult_append hpath' htail, samePath, pathSegments]
  cases segments [] path' with
  | none =>
    refine iff_of_false ?_ Bool.false_ne_true
    rintro ⟨_, _, -, h, -⟩
    cases h
  | some segs' =>
    cases segments [] path with
    | none =>
      refine iff_of_false ?_ Bool.false_ne_true
      rintro ⟨_, _, h, -⟩
      cases h
    | some segs =>
      simp only [map_some, isSome_some, Bool.true_and, beq_iff_eq, some.injEq]
      constructor
      · rintro ⟨url, url', h, h', -, -, hpaths, -⟩
        obtain rfl := Result.url.inj h
        obtain rfl := Result.url.inj h'
        exact hpaths
      · intro hpaths
        exact ⟨_, _, rfl, rfl, rfl,
          (host_resolve emptyFile segs).trans (host_resolve emptyFile segs').symm, hpaths,
          rfl, rfl⟩

theorem not_sameFileUrl_of_host {host : List UInt8} (hhost : host ≠ []) (path path' : List Nat) :
    ¬ SameFileUrl (pathResult { emptyFile with host := some host } [] path)
      (pathResult emptyFile [] path') := by
  rintro ⟨url, url', h, h', -, heq, -⟩
  rw [pathResult] at h h'
  split at h
  · cases h
  split at h'
  · cases h'
  obtain rfl := Result.url.inj h
  obtain rfl := Result.url.inj h'
  have heq' := (host_resolve _ _).symm.trans (heq.trans (host_resolve _ _))
  exact hhost (some.inj heq')

/-- A text whose encoding has no percent sign is encoded as itself. -/
theorem percentEncode_eq_self {encoded : List UInt8} {set : PercentEncodeSet}
    (h : percentEncode text set = some encoded) (hpercent : byte '%' ∉ encoded) :
    encoded = text := by
  rw [percentEncode] at h
  induction text generalizing encoded with
  | nil => exact (some.inj h).symm
  | cons b text ih =>
    obtain ⟨first, hfirst, h⟩ := bind_eq_some_iff.mp h
    obtain ⟨rest, hrest, h⟩ := bind_eq_some_iff.mp h
    obtain rfl := some.inj h
    rw [mem_append, not_or] at hpercent
    have hin : ∀ {c text'}, byte '%' ∉ text' → percentEncodedIfNecessary c set = some text' →
        ¬ codePointIsInPercentEncodeSet c set = true := by
      intro c text' hnot htext' hset
      rw [percentEncodedIfNecessary, if_pos hset] at htext'
      obtain ⟨text'', rfl⟩ := percentEncoded_eq_cons htext'
      exact hnot mem_cons_self
    obtain ⟨b', hb', hunencoded⟩ := exists_byte_of_not_isIn (hin hpercent.1 hfirst)
    rw [← hb', percentEncodedIfNecessary_unencoded hunencoded] at hfirst
    obtain rfl := some.inj hfirst
    rw [ih hrest hpercent.2]
    by_cases hb : b < 0x80
    · rw [codePointAt_ascii hb] at hb'
      rw [UInt8.toNat_inj.mp hb']
      rfl
    · -- A longer encoding of a character in ASCII: the byte after it is encoded.
      obtain ⟨b'', rest', rfl, -, hreplacement⟩ := codePointAt_overlong (UInt8.not_lt.mp hb)
        (hb' ▸ UInt8.lt_iff_toNat_lt.mp hunencoded.1)
      obtain ⟨first', hfirst', hrest⟩ := bind_eq_some_iff.mp hrest
      obtain ⟨rest'', -, hrest⟩ := bind_eq_some_iff.mp hrest
      obtain rfl := some.inj hrest
      refine absurd (isInPercentEncodeSet_of_large ?_ set)
        (hin (fun hmem => hpercent.2 (mem_append_left _ hmem)) hfirst')
      rw [hreplacement]
      decide

/-- The hosts that a file URL is given for the texts that are no hosts. -/
theorem percentEncode_of_parseHost {host : List UInt8} (h : parseHost text true = some (some host)) :
    percentEncode text .c0Control = some host := by
  rw [parseHost] at h
  split at h
  · split at h <;> cases h
  · rw [if_pos rfl, parseOpaqueHost] at h
    split at h
    · cases h
    · obtain ⟨host', hhost', h⟩ := map_eq_some_iff.mp h
      obtain rfl := some.inj h
      exact hhost'

theorem parseHost_localhost : parseHost localhost true = some (some localhost) := by decide

theorem eq_localhost_of_parseHost (h : parseHost text true = some (some localhost)) :
    text = localhost :=
  (percentEncode_eq_self (percentEncode_of_parseHost h) (by decide)).symm

theorem eq_nil_of_parseHost (h : parseHost text true = some (some [])) : text = [] :=
  (percentEncode_eq_self (percentEncode_of_parseHost h) not_mem_nil).symm

set_option maxRecDepth 8192 in
theorem unencoded_drive {host : List UInt8} (h : isWindowsDriveLetter host = true) :
    ∀ b ∈ host, Unencoded .path b := by
  have halpha : ∀ n < 256, isAsciiAlpha (UInt8.ofNat n).toNat = true →
      Unencoded .path (UInt8.ofNat n) := by
    simp only [Unencoded]
    decide
  obtain ⟨a, b, rfl, ha, hb⟩ := exists_of_isWindowsDriveLetter h
  rw [forall_mem_cons, forall_mem_singleton]
  refine ⟨forall_byte (P := fun b => isAsciiAlpha b.toNat = true → Unencoded .path b) halpha a ha, ?_⟩
  obtain rfl | rfl := hb <;> exact ⟨by decide, by decide⟩

/-- `Path` reads a text that is not encoded as what `FileHost` has of it. -/
theorem segments_unencoded {host : List Nat} (hhost : ∀ b ∈ appended host, Unencoded .path b)
    (hsep : ∀ c ∈ host, isSeparator c = false) (buffer : List UInt8) (rest : List Nat) :
    segments buffer (host ++ rest) = segments (buffer ++ appended host) rest := by
  induction host generalizing buffer with
  | nil => rw [appended_nil', append_nil, nil_append]
  | cons c host ih =>
    rw [appended_cons, forall_mem_append] at hhost
    obtain ⟨hc, hsep'⟩ := forall_mem_cons.mp hsep
    have hascii : c < 0x80 := by
      by_contra hlarge
      obtain ⟨b, hb, hlarge'⟩ := exists_large (Nat.le_of_not_lt hlarge)
      exact absurd (hhost.1 b hb).1 (UInt8.not_lt.mpr hlarge')
    obtain ⟨b, hb, rfl⟩ := exists_byte hascii
    have hunencoded := hhost.1 b (by rw [appendedCodePoint_ascii hb]; exact mem_singleton_self b)
    rw [List.cons_append, segments, hc, if_neg Bool.false_ne_true,
      percentEncodedIfNecessary_unencoded hunencoded, bind_some, ih hhost.2 hsep',
      appended_cons, appendedCodePoint_ascii hb, List.append_assoc]

theorem takeWhile_host {rest tail : List Nat} (hrest : InPath rest) (htail : FollowsPath tail) :
    ((rest ++ tail).takeWhile fun c => !endsHost c) = (rest.takeWhile fun c => !isSeparator c) ∧
      ((rest ++ tail).dropWhile fun c => !endsHost c) =
        (rest.dropWhile fun c => !isSeparator c) ++ tail := by
  induction rest with
  | nil =>
    cases tail with
    | nil => exact ⟨rfl, rfl⟩
    | cons c tail =>
      have hc : endsHost c = true := endsHost_of_isStop (htail c rfl)
      rw [nil_append, takeWhile_cons_of_neg (by rw [hc]; decide),
        dropWhile_cons_of_neg (by rw [hc]; decide)]
      exact ⟨rfl, rfl⟩
  | cons c rest ih =>
    obtain ⟨hc, hrest⟩ := forall_mem_cons.mp hrest
    have hends : endsHost c = isSeparator c := by rw [endsHost, hc, Bool.or_false]
    simp only [List.cons_append, takeWhile_cons, dropWhile_cons, hends]
    cases isSeparator c with
    | true => exact ⟨rfl, rfl⟩
    | false => exact ⟨congrArg (c :: ·) (ih hrest).1, (ih hrest).2⟩

theorem pathStartResult_append {rest tail : List Nat} (hrest : ∀ c ∈ rest.head?, isSeparator c = true)
    (htail : FollowsPath tail) (url : URL) :
    pathStartResult url (rest ++ tail) = pathResult url [] (rest.drop 1 ++ tail) := by
  cases rest with
  | cons c rest =>
    have hc : isSeparator c = true := hrest c rfl
    rw [List.cons_append, pathStartResult, hc, if_pos rfl]
    rfl
  | nil =>
    cases tail with
    | nil => rfl
    | cons c tail =>
      have hc : isSeparator c = false := by
        rw [← Bool.not_eq_true]
        intro hsep
        have hstop : isStop c = true := htail c rfl
        rw [not_isStop_of_isSeparator hsep] at hstop
        cases hstop
      rw [nil_append, pathStartResult, hc, if_neg Bool.false_ne_true]
      rfl

/-- Without a slash in its path, no file URL has the two forms. -/
theorem not_sameFileUrl_of_no_separator {path tail : List Nat} (hpath : InPath path)
    (htail : FollowsPath tail) (hsep : ∀ c ∈ path, isSeparator c = false) :
    ¬ SameFileUrl (fileSlashResult emptyFile (path ++ tail))
      (pathResult emptyFile [] (path ++ tail)) := by
  have hall : ∀ c ∈ path, (!isSeparator c) = true := fun c hc => by rw [hsep c hc, Bool.not_false]
  rintro ⟨url, url', h, h', hvalid, -, hpaths, hquery, hfragment⟩
  rw [pathResult_append hpath htail] at h'
  cases hsegs : segments [] path with
  | none =>
    rw [hsegs] at h'
    cases h'
  | some segs =>
    rw [hsegs] at h'
    obtain rfl := Result.url.inj h'
    rw [fileSlashResult, dropWhile_append_of_pos hall] at h
    cases hdrop : tail.dropWhile fun c => !isSeparator c with
    | nil =>
      rw [hdrop] at h
      obtain rfl := Result.url.inj h
      exact paths_resolve_ne_nil (segments_ne_nil hsegs) emptyFile hpaths.symm
    | cons c after =>
      -- What is read as the host is behind the path: so are the query and the fragment.
      rw [hdrop] at h
      obtain ⟨hquery', hfragment'⟩ := hasTail_fileHostResult emptyFile [] after url h hvalid
      have hsplit : tail = (tail.takeWhile fun c => !isSeparator c) ++ c ::
          ((after.takeWhile fun c => !isStop c) ++ after.dropWhile fun c => !isStop c) := by
        simp only [takeWhile_append_dropWhile, ← hdrop]
      rw [append_cons, ← List.append_assoc] at hsplit
      refine tail_ne ?_ (hsplit ▸ htail) (followsPath_dropWhile after) ⟨?_, ?_⟩
      · simp
      · rw [← hsplit, ← hquery', hquery]
        rfl
      · rw [← hsplit, ← hfragment', hfragment]
        rfl

/-- With a slash in its path, a file URL has the two forms when nothing is lost before the
slash and at the host. -/
theorem sameFileUrl_of_separator {path rest tail : List Nat} (hpath : InPath path)
    (hrest : InPath rest) (htail : FollowsPath tail) :
    SameFileUrl (fileHostResult emptyFile [] (rest ++ tail))
      (pathResult emptyFile [] (path ++ tail)) ↔
      (if isWindowsDriveLetter (appended (rest.takeWhile fun c => !isSeparator c)) then
        samePath rest path
      else
        ((appended (rest.takeWhile fun c => !isSeparator c)).isEmpty ||
            appended (rest.takeWhile fun c => !isSeparator c) == localhost) &&
          samePath ((rest.dropWhile fun c => !isSeparator c).drop 1) path) = true := by
  have hsep : ∀ c ∈ rest.takeWhile fun c => !isSeparator c, isSeparator c = false := by
    intro c hc
    have hnot := mem_takeWhile_imp hc
    rwa [Bool.not_eq_true'] at hnot
  have hafter : InPath (rest.dropWhile fun c => !isSeparator c) := fun c hc =>
    hrest c ((dropWhile_suffix _).subset hc)
  have hnext : InPath ((rest.dropWhile fun c => !isSeparator c).drop 1) := fun c hc =>
    hafter c (mem_of_mem_drop hc)
  have hfirst : ∀ c ∈ (rest.dropWhile fun c => !isSeparator c).head?, isSeparator c = true := by
    intro c hc
    have hnot := List.head?_dropWhile_not (fun c => !isSeparator c) rest
    rw [mem_def.mp hc] at hnot
    dsimp only at hnot
    rwa [Bool.not_eq_false'] at hnot
  have hsplit := takeWhile_append_dropWhile (p := fun c => !isSeparator c) (l := rest)
  rw [fileHostResult, (takeWhile_host hrest htail).1, (takeWhile_host hrest htail).2,
    nil_append]
  generalize (rest.takeWhile fun c => !isSeparator c) = host at hsep hsplit ⊢
  generalize (rest.dropWhile fun c => !isSeparator c) = after at hafter hnext hfirst hsplit ⊢
  rw [fileHostEnd]
  cases hdrive : isWindowsDriveLetter (appended host) with
  | true =>
    have hsegments := segments_unencoded (unencoded_drive hdrive) hsep [] after
    rw [nil_append, hsplit] at hsegments
    rw [if_pos rfl, if_pos rfl, ← sameFileUrl_pathResult hrest hpath htail,
      pathResult_append hafter htail, pathResult_append hrest htail, hsegments]
  | false =>
    simp only [if_neg Bool.false_ne_true, Bool.and_eq_true]
    cases hempty : (appended host).isEmpty with
    | true =>
      rw [if_pos rfl, pathStartResult_append hfirst htail, Bool.true_or]
      exact (sameFileUrl_pathResult hnext hpath htail).trans (and_iff_right rfl).symm
    | false =>
      rw [if_neg Bool.false_ne_true, Bool.false_or, beq_iff_eq]
      by_cases hlocalhost : appended host = localhost
      · rw [hlocalhost, parseHost_localhost]
        dsimp only
        rw [if_pos rfl, pathStartResult_append hfirst htail]
        exact (sameFileUrl_pathResult hnext hpath htail).trans
          (and_iff_right rfl).symm
      · refine iff_of_false ?_ fun h => hlocalhost h.1
        cases hparse : parseHost (appended host) true with
        | none =>
          rintro ⟨_, _, h, -⟩
          cases h
        | some parsed =>
          cases parsed with
          | none =>
            rintro ⟨url, url', h, h', hvalid, -⟩
            obtain rfl := Result.url.inj h
            rw [pathResult_append hpath htail] at h'
            split at h'
            · cases h'
            · obtain rfl := Result.url.inj h'
              cases hvalid
          | some host' =>
            have hne : host' ≠ localhost := by
              rintro rfl
              exact hlocalhost (eq_localhost_of_parseHost hparse)
            have hne' : host' ≠ [] := by
              rintro rfl
              rw [eq_nil_of_parseHost hparse] at hempty
              cases hempty
            dsimp only
            rw [if_neg hne, pathStartResult_append hfirst htail]
            exact not_sameFileUrl_of_host hne' _ _

/-- `file:/` and `file:///` before a path agree on exactly the paths of `formsAgree`. -/
theorem fileForms_iff (path : List UInt8) :
    SameFileUrl (parse (oneSlash path) none none none) (parse (threeSlashes path) none none none) ↔
      formsAgree (codePoints (fileText path)) = true := by
  rw [parse_oneSlash, parse_threeSlashes]
  generalize codePoints (fileText path) = cs
  have hsplit := takeWhile_append_dropWhile (p := fun c => !isStop c) (l := cs)
  have htail := followsPath_dropWhile cs
  have hpath : InPath (cs.takeWhile fun c => !isStop c) := by
    intro c hc
    have hnot := mem_takeWhile_imp hc
    rwa [Bool.not_eq_true'] at hnot
  rw [formsAgree]
  generalize (cs.takeWhile fun c => !isStop c) = path at hsplit hpath ⊢
  generalize (cs.dropWhile fun c => !isStop c) = tail at hsplit htail
  subst hsplit
  cases hsep : path.dropWhile fun c => !isSeparator c with
  | nil =>
    refine iff_of_false (not_sameFileUrl_of_no_separator hpath htail fun c hc => ?_)
      Bool.false_ne_true
    have hall := dropWhile_eq_nil_iff.mp hsep c hc
    rwa [Bool.not_eq_true'] at hall
  | cons c rest =>
    have hrest : InPath rest := fun c' hc' =>
      hpath c' ((dropWhile_suffix _).subset (hsep ▸ mem_cons_of_mem c hc'))
    have hdrop : ((path ++ tail).dropWhile fun c => !isSeparator c) = c :: (rest ++ tail) := by
      rw [dropWhile_append, hsep]
      rfl
    rw [fileSlashResult, hdrop]
    exact sameFileUrl_of_separator hpath hrest htail

/-- `file:/p` has no segments, `file:///p` has one. -/
theorem not_fileForms_p : ¬ SameFileUrl (parse (oneSlash (literal ['p'])) none none none)
      (parse (threeSlashes (literal ['p'])) none none none) := by
  have hone : parse (oneSlash (literal ['p'])) none none none =
      .url { emptyFile with valid := true } := by decide
  have hthree : parse (threeSlashes (literal ['p'])) none none none =
      .url { emptyFile with valid := true, paths := [literal ['p']] } := by decide
  rintro ⟨url, url', h, h', -, -, hpaths, -⟩
  obtain rfl := Result.url.inj (hone.symm.trans h)
  obtain rfl := Result.url.inj (hthree.symm.trans h')
  exact absurd hpaths (by decide)

end Literate.AK.URLParser

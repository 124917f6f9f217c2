import Literate.AK.URLRoundTrip
import Mathlib.Data.List.TakeWhile

/-!
# AK: how the URL parser reads file URLs

From `FileSlash` on, a file URL without a base is read code point by code point, each of
them once.  So what the loop comes to is a function of the code points ahead: first what
follows a path, then a path, a host, and the slashes before it.

`FileSlash` without a base passes over everything up to the next slash: its way to `Path`
stands inside the branch for a base.
-/

namespace Literate.AK.URLParser

open Foundation Utf8View URL List Option

set_option maxRecDepth 8192

variable {input : List UInt8} {p : URLParser} {r : Result} {state : State} {url : URL}
  {buffer text rest : List UInt8} {b : UInt8} {c : Nat} {cs : List Nat}

/-! ## Code points -/

/-- A slash of a special URL. -/
def isSeparator (c : Nat) : Bool := isSlash c || isChar c '\\'

/-- Where the path ends. -/
def isStop (c : Nat) : Bool := isChar c '?' || isChar c '#'

/-- The bytes that a builder has after some code points. -/
def appended (cs : List Nat) : List UInt8 := cs.flatMap appendedCodePoint

@[simp] theorem appended_nil' : appended [] = [] := rfl

@[simp] theorem appended_cons (c : Nat) (cs : List Nat) :
    appended (c :: cs) = appendedCodePoint c ++ appended cs := flatMap_cons

@[simp] theorem appended_append (cs cs' : List Nat) :
    appended (cs ++ cs') = appended cs ++ appended cs' := flatMap_append

theorem appended_eq_nil_iff : appended cs = [] ↔ cs = [] := by
  cases cs with
  | nil => simp
  | cons c cs =>
    rw [appended_cons, append_eq_nil_iff]
    simp [appendedCodePoint_ne_nil c]

theorem At.codePoint_cons (h : At input state url buffer (b :: rest) p) :
    URLParser.codePoint input p = codePointAt b rest := by
  rw [URLParser.codePoint, h.text_eq, codePoint?, getD_some]

theorem codePointAt_ne_endOfFile (b : UInt8) (rest : List UInt8) : codePointAt b rest ≠ endOfFile :=
  Nat.ne_of_lt (Nat.lt_trans (codePointAt_lt b rest) (by decide))

theorem isDelimiter_of_ne (h : c ≠ endOfFile) : isDelimiter c = (isSlash c || isStop c) := by
  rw [isDelimiter, beq_eq_false_iff_ne.mpr h, Bool.false_or, isStop, Bool.or_assoc]
  rfl

theorem not_isStop_of_isSeparator (h : isSeparator c = true) : isStop c = false := by
  simp only [isSeparator, isSlash, isChar, Bool.or_eq_true, beq_iff_eq] at h
  obtain rfl | rfl := h <;> decide

/-! ## What follows a path -/

/-- The query that is read from what follows a path. -/
def tailQuery : List Nat → Option (List UInt8)
  | [] => none
  | c :: cs =>
    if isChar c '?' then
      some (percentEncodeAfterEncoding (appended (cs.takeWhile fun c => !isChar c '#')) .specialQuery)
    else none

/-- The fragment after a number sign, if there is one. -/
def numberFragment (cs : List Nat) : Option (List UInt8) :=
  match cs.dropWhile fun c => !isChar c '#' with
  | [] => none
  | _ :: cs => some (percentDecode (appended cs))

/-- The fragment that is read from what follows a path. -/
def tailFragment : List Nat → Option (List UInt8)
  | [] => none
  | c :: cs => if isChar c '?' then numberFragment cs else some (percentDecode (appended cs))

/-- A URL with what follows its path. -/
def withTailOf (url : URL) (cs : List Nat) : URL :=
  { url with query := tailQuery cs, fragment := tailFragment cs, valid := true }

theorem numberFragment_of_number (hc : isChar c '#' = true) :
    numberFragment (c :: cs) = some (percentDecode (appended cs)) := by
  rw [numberFragment, dropWhile_cons_of_neg (by rw [hc]; decide)]

theorem numberFragment_of_not_number (hc : isChar c '#' = false) :
    numberFragment (c :: cs) = numberFragment cs := by
  rw [numberFragment, dropWhile_cons_of_pos (by rw [hc]; rfl), numberFragment]

theorem comes_fragment_codePoints (url : URL) (buffer text : List UInt8) :
    Comes input .fragment url buffer text
      (.url { url with
        fragment := some (percentDecode (buffer ++ appended (codePoints text)))
        valid := true }) := by
  induction text generalizing buffer with
  | nil =>
    rw [codePoints, appended_nil', append_nil]
    refine comes_last .fragment { url with fragment := some (percentDecode buffer) } []
      fun p hp => ?_
    rw [step, hp.state_eq, hp.codePoint_nil]
    show fragment endOfFile p = _
    rw [fragment, if_neg (not_not.mpr rfl), hp.url_eq, hp.buffer_eq, ← hp.state_eq]
  | cons b text ih =>
    rw [codePoints, appended_cons, ← List.append_assoc]
    refine (ih (buffer ++ appendedCodePoint (codePointAt b text))).next fun p hp => ?_
    rw [step, hp.state_eq, hp.codePoint_cons]
    show fragment (codePointAt b text) p = _
    rw [fragment, if_pos (codePointAt_ne_endOfFile b text), hp.buffer_eq, ← hp.url_eq,
      ← hp.state_eq]

/-- `Query` reads the query and, from a number sign on, the fragment. -/
theorem comes_query_codePoints (hspecial : url.isSpecial = true) (hquery : url.query = some [])
    (hfragment : url.fragment = none) (buffer text : List UInt8) :
    Comes input .query url buffer text
      (.url { url with
        query := some (percentEncodeAfterEncoding
          (buffer ++ appended ((codePoints text).takeWhile fun c => !isChar c '#')) .specialQuery)
        fragment := numberFragment (codePoints text)
        valid := true }) := by
  induction text generalizing buffer with
  | nil =>
    have hurl : url = { url with fragment := none } := by rw [← hfragment]
    rw [codePoints, takeWhile_nil, appended_nil', append_nil]
    refine comes_last .query { url with
      query := some (percentEncodeAfterEncoding buffer .specialQuery)
      fragment := none } [] fun p hp => ?_
    rw [step, hp.state_eq, hp.codePoint_nil]
    rw [query, if_pos (.inl rfl), hp.url_eq, if_pos hquery, hspecial, if_pos rfl, hurl]
    dsimp only
    rw [if_neg (by decide), hp.buffer_eq, ← hp.state_eq]
  | cons b text ih =>
    rw [codePoints]
    cases hnumber : isChar (codePointAt b text) '#' with
    | true =>
      rw [numberFragment_of_number hnumber,
        takeWhile_cons_of_neg (by rw [hnumber]; decide), appended_nil', append_nil]
      refine (comes_fragment_codePoints { url with
        query := some (percentEncodeAfterEncoding buffer .specialQuery)
        fragment := some [] } [] text).next fun p hp => ?_
      rw [step, hp.state_eq, hp.codePoint_cons]
      rw [query, if_pos (.inr hnumber), hp.url_eq, if_pos hquery, hspecial, if_pos rfl]
      rw [if_pos hnumber, hp.buffer_eq]
    | false =>
      have hend : ¬ (codePointAt b text = endOfFile ∨ isChar (codePointAt b text) '#' = true) := by
        rw [hnumber, Bool.false_eq_true, or_false]
        exact codePointAt_ne_endOfFile b text
      rw [numberFragment_of_not_number hnumber,
        takeWhile_cons_of_pos (by rw [hnumber]; rfl), appended_cons, ← List.append_assoc]
      refine (ih (buffer ++ appendedCodePoint (codePointAt b text))).next fun p hp => ?_
      rw [step, hp.state_eq, hp.codePoint_cons]
      show query (codePointAt b text) p = _
      rw [query, if_neg hend, hp.buffer_eq, ← hp.url_eq, ← hp.state_eq]

/-! ## Paths -/

/-- The segments that `Path` reads, percent-encoded, of which the first begins with what is
in the buffer; `none` when a code point cannot be encoded. -/
def segments : (buffer : List UInt8) → List Nat → Option (List (List UInt8))
  | buffer, [] => some [buffer]
  | buffer, c :: cs =>
    if isSeparator c then (segments [] cs).map (buffer :: ·)
    else (percentEncodedIfNecessary c .path).bind fun text => segments (buffer ++ text) cs

/-- The URL with its path resolved, the last segment without a slash after it. -/
def resolve (url : URL) : List (List UInt8) → URL
  | [] => url
  | [segment] => endSegment false url segment
  | segment :: next :: segments => resolve (endSegment true url segment) (next :: segments)

/-- What `Path` comes to. -/
def pathResult (url : URL) (buffer : List UInt8) (cs : List Nat) : Result :=
  match segments buffer (cs.takeWhile fun c => !isStop c) with
  | none => .abort
  | some segments => .url (withTailOf (resolve url segments) (cs.dropWhile fun c => !isStop c))

theorem segments_ne_nil {segs : List (List UInt8)} (h : segments buffer cs = some segs) :
    segs ≠ [] := by
  induction cs generalizing buffer segs with
  | nil =>
    rw [segments] at h
    obtain rfl := some.inj h
    exact cons_ne_nil _ _
  | cons c cs ih =>
    rw [segments] at h
    split at h
    · obtain ⟨segs', -, rfl⟩ := map_eq_some_iff.mp h
      exact cons_ne_nil _ _
    · obtain ⟨text, -, h⟩ := bind_eq_some_iff.mp h
      exact ih h

theorem resolve_cons {segs : List (List UInt8)} (h : segs ≠ []) (url : URL) (segment : List UInt8) :
    resolve url (segment :: segs) = resolve (endSegment true url segment) segs := by
  cases segs with
  | nil => exact absurd rfl h
  | cons next segs => rfl

theorem isSpecial_endSegment (slash : Bool) (url : URL) (buffer : List UInt8) :
    (endSegment slash url buffer).isSpecial = url.isSpecial ∧
      (endSegment slash url buffer).query = url.query ∧
      (endSegment slash url buffer).fragment = url.fragment := by
  have hremove : (removeLastPath url).isSpecial = url.isSpecial ∧
      (removeLastPath url).query = url.query ∧ (removeLastPath url).fragment = url.fragment := by
    rw [removeLastPath]
    split <;> exact ⟨rfl, rfl, rfl⟩
  rw [endSegment]
  split
  · cases slash <;> exact hremove
  split
  · exact ⟨rfl, rfl, rfl⟩
  split <;> exact ⟨rfl, rfl, rfl⟩

/-- A special URL that has neither a query nor a fragment yet. -/
structure Fresh (url : URL) : Prop where
  special : url.isSpecial = true
  query : url.query = none
  fragment : url.fragment = none

section

variable (h : Fresh url)

include h

theorem Fresh.endSegment (slash : Bool) (buffer : List UInt8) :
    Fresh (URLParser.endSegment slash url buffer) where
  special := (isSpecial_endSegment slash url buffer).1.trans h.special
  query := (isSpecial_endSegment slash url buffer).2.1.trans h.query
  fragment := (isSpecial_endSegment slash url buffer).2.2.trans h.fragment

theorem Fresh.withTailOf_nil : withTailOf url [] = { url with valid := true } := by
  obtain ⟨-, hquery, hfragment⟩ := h
  cases url
  rw [withTailOf, tailQuery, tailFragment, hquery, hfragment]

theorem Fresh.isSpecialBackslash : isSpecialBackslash url c = isChar c '\\' := by
  rw [URLParser.isSpecialBackslash, h.special, Bool.true_and]

theorem Fresh.step_path (hp : At input .path url buffer text p)
    (hc : URLParser.codePoint input p = c) (hend : (isDelimiter c || isChar c '\\') = true) :
    step input none p =
      pathEnd c p (URLParser.endSegment (isSeparator c) url buffer) [] := by
  rw [step, hp.state_eq, hc]
  rw [path, hp.url_eq, h.isSpecialBackslash, hend, if_pos rfl, hp.buffer_eq, pathEnd]
  rfl

theorem comes_path_codePoints (buffer text : List UInt8) :
    Comes input .path url buffer text (pathResult url buffer (codePoints text)) := by
  induction text generalizing url buffer with
  | nil =>
    show Comes input .path url buffer [] (.url (withTailOf (endSegment false url buffer) []))
    rw [(h.endSegment false buffer).withTailOf_nil]
    refine comes_last .path (endSegment false url buffer) [] fun p hp => ?_
    rw [h.step_path hp hp.codePoint_nil rfl, ← hp.state_eq]
    rfl
  | cons b text ih =>
    rw [codePoints, pathResult]
    have hne := codePointAt_ne_endOfFile b text
    cases hsep : isSeparator (codePointAt b text) with
    | true =>
      have hstop := not_isStop_of_isSeparator hsep
      have hend : (isDelimiter (codePointAt b text) || isChar (codePointAt b text) '\\') = true := by
        rw [isDelimiter_of_ne hne, hstop, Bool.or_false]
        exact hsep
      have hnot : isChar (codePointAt b text) '?' = false ∧ isChar (codePointAt b text) '#' = false :=
        Bool.or_eq_false_iff.mp hstop
      rw [takeWhile_cons_of_pos (by rw [hstop]; rfl),
        dropWhile_cons_of_pos (by rw [hstop]; rfl), segments, hsep, if_pos rfl]
      have hrest := ih (h.endSegment true buffer) []
      have hresult : pathResult (endSegment true url buffer) [] (codePoints text) =
          match (segments [] ((codePoints text).takeWhile fun c => !isStop c)).map (buffer :: ·) with
          | none => .abort
          | some segs => .url (withTailOf (resolve url segs)
              ((codePoints text).dropWhile fun c => !isStop c)) := by
        rw [pathResult]
        cases hsegs : segments [] ((codePoints text).takeWhile fun c => !isStop c) with
        | none => rfl
        | some segs =>
          rw [map_some]
          dsimp only
          rw [resolve_cons (segments_ne_nil hsegs)]
      rw [hresult] at hrest
      refine hrest.next fun p hp => ?_
      simp only [h.step_path hp hp.codePoint_cons hend, hsep, pathEnd, hnot.1,
        if_neg Bool.false_ne_true, hnot.2, ← hp.state_eq]
    | false =>
      cases hstop : isStop (codePointAt b text) with
      | true =>
        have hend : (isDelimiter (codePointAt b text) || isChar (codePointAt b text) '\\') = true := by
          rw [isDelimiter_of_ne hne, hstop, Bool.or_true, Bool.true_or]
        rw [takeWhile_cons_of_neg (by rw [hstop]; decide),
          dropWhile_cons_of_neg (by rw [hstop]; decide)]
        show Comes input .path url buffer (b :: text)
          (.url (withTailOf (endSegment false url buffer) (codePointAt b text :: codePoints text)))
        have hfresh := h.endSegment false buffer
        rw [withTailOf, tailQuery, tailFragment]
        cases hquestion : isChar (codePointAt b text) '?' with
        | true =>
          simp only [if_pos rfl]
          have hspecial : ({ endSegment false url buffer with query := some [] } :
              URL).isSpecial = true := hfresh.special
          refine (comes_query_codePoints hspecial rfl hfresh.fragment [] text).next
            fun p hp => ?_
          rw [h.step_path hp hp.codePoint_cons hend, hsep, pathEnd, hquestion, if_pos rfl]
        | false =>
          have hnumber : isChar (codePointAt b text) '#' = true := by
            rwa [isStop, hquestion, Bool.false_or] at hstop
          simp only [if_neg Bool.false_ne_true, ← hfresh.query]
          refine (comes_fragment_codePoints { endSegment false url buffer with
            fragment := some [] } [] text).next fun p hp => ?_
          rw [h.step_path hp hp.codePoint_cons hend, hsep, pathEnd, hquestion,
            if_neg Bool.false_ne_true, hnumber, if_pos rfl]
      | false =>
        have hend : (isDelimiter (codePointAt b text) || isChar (codePointAt b text) '\\') = false := by
          have hsep' := Bool.or_eq_false_iff.mp hsep
          rw [isDelimiter_of_ne hne, hstop, hsep'.1, hsep'.2]
          rfl
        rw [takeWhile_cons_of_pos (by rw [hstop]; rfl),
          dropWhile_cons_of_pos (by rw [hstop]; rfl), segments, hsep,
          if_neg Bool.false_ne_true]
        cases htext : percentEncodedIfNecessary (codePointAt b text) .path with
        | none =>
          intro p hp
          have hstep : step input none p = .abort := by
            rw [step, hp.state_eq, hp.codePoint_cons]
            rw [path, hp.url_eq, h.isSpecialBackslash, hend, if_neg Bool.false_ne_true, htext]
            rfl
          refine mainLoop_of_done ?_
          rw [pass, hstep]
          rfl
        | some encoded =>
          refine (ih h (buffer ++ encoded)).next fun p hp => ?_
          rw [step, hp.state_eq, hp.codePoint_cons]
          show path (codePointAt b text) p = _
          rw [path, hp.url_eq, h.isSpecialBackslash, hend, if_neg Bool.false_ne_true, htext,
            map_some, hp.buffer_eq, ← hp.state_eq, ← hp.url_eq]
          rfl

end

/-! ## Hosts -/

/-- What `PathStart` comes to. -/
def pathStartResult (url : URL) (cs : List Nat) : Result :=
  match cs with
  | [] => pathResult url [] []
  | c :: cs => if isSeparator c then pathResult url [] cs else pathResult url [] (c :: cs)

/-- Where the host of a file URL ends. -/
def endsHost (c : Nat) : Bool := isSeparator c || isStop c

/-- What `FileHost` comes to at the end of the host that is in the buffer. -/
def fileHostEnd (url : URL) (buffer : List UInt8) (cs : List Nat) : Result :=
  if isWindowsDriveLetter buffer then pathResult url buffer cs
  else if buffer.isEmpty then pathStartResult { url with host := some [] } cs
  else
    match parseHost buffer true with
    | none => .abort
    | some none => .url URL.new
    | some (some host) =>
      pathStartResult { url with host := some (if host = localhost then [] else host) } cs

/-- What `FileHost` comes to. -/
def fileHostResult (url : URL) (buffer : List UInt8) (cs : List Nat) : Result :=
  fileHostEnd url (buffer ++ appended (cs.takeWhile fun c => !endsHost c))
    (cs.dropWhile fun c => !endsHost c)

/-- What `FileSlash` comes to without a base: it passes over what is before a slash. -/
def fileSlashResult (url : URL) (cs : List Nat) : Result :=
  match cs.dropWhile fun c => !isSeparator c with
  | [] => .url { url with valid := true }
  | _ :: cs => fileHostResult url [] cs

section

variable (h : Fresh url)

include h

theorem Fresh.withHost (host : Option (List UInt8)) : Fresh { url with host := host } where
  special := h.special
  query := h.query
  fragment := h.fragment

theorem comes_pathStart_codePoints (text : List UInt8) :
    Comes input .pathStart url [] text (pathStartResult url (codePoints text)) := by
  cases text with
  | nil => exact comes_pathStart_special h.special (comes_path_codePoints h [] [])
  | cons b text =>
    rw [codePoints, pathStartResult]
    cases hsep : isSeparator (codePointAt b text) with
    | true =>
      refine (comes_path_codePoints h [] text).next fun p hp => ?_
      have hnot : (!isSlash (codePointAt b text) && !isChar (codePointAt b text) '\\') = false := by
        rw [← Bool.not_or]
        exact congrArg (! ·) hsep
      rw [step, hp.state_eq, hp.codePoint_cons]
      rw [pathStart, hp.url_eq, h.special, if_pos rfl, hnot, if_neg Bool.false_ne_true,
        ← hp.url_eq, ← hp.buffer_eq]
    | false =>
      refine (comes_path_codePoints h [] (b :: text)).again fun p hp => ?_
      have hnot : (!isSlash (codePointAt b text) && !isChar (codePointAt b text) '\\') = true := by
        rw [← Bool.not_or]
        exact congrArg (! ·) hsep
      rw [step, hp.state_eq, hp.codePoint_cons]
      rw [pathStart, hp.url_eq, h.special, if_pos rfl, hnot, if_pos rfl, ← hp.url_eq,
        ← hp.buffer_eq]

theorem comes_fileHost_codePoints_end (buffer text : List UInt8)
    (hend : ∀ p, At input .fileHost url buffer text p →
      (isDelimiter (codePoint input p) || isChar (codePoint input p) '\\') = true) :
    Comes input .fileHost url buffer text (fileHostEnd url buffer (codePoints text)) := by
  have hstep : ∀ p, At input .fileHost url buffer text p →
      step input none p = fileHost (codePoint input p) p := by
    intro p hp
    rw [step, hp.state_eq]
  rw [fileHostEnd]
  cases hdrive : isWindowsDriveLetter buffer with
  | true =>
    refine (comes_path_codePoints h buffer text).again fun p hp => ?_
    rw [hstep p hp, fileHost, hend p hp, if_pos rfl, hp.buffer_eq, hdrive, if_pos rfl,
      ← hp.url_eq, ← hp.buffer_eq]
  | false =>
    rw [if_neg Bool.false_ne_true]
    cases hempty : buffer.isEmpty with
    | true =>
      obtain rfl := List.isEmpty_iff.mp hempty
      refine (comes_pathStart_codePoints (h.withHost (some [])) text).again fun p hp => ?_
      rw [hstep p hp, fileHost, hend p hp, if_pos rfl, hp.buffer_eq, hdrive,
        if_neg Bool.false_ne_true, if_pos hempty, ← hp.url_eq, ← hp.buffer_eq]
    | false =>
      rw [if_neg Bool.false_ne_true]
      have hhost : ∀ p, At input .fileHost url buffer text p →
          step input none p = withHost true p fun host =>
            .again { p with
              url := { p.url with host := some (if host = localhost then [] else host) }
              buffer := []
              state := .pathStart } := by
        intro p hp
        rw [hstep p hp, fileHost, hend p hp, if_pos rfl, hp.buffer_eq, hdrive,
          if_neg Bool.false_ne_true, hempty, if_neg Bool.false_ne_true]
      cases hparse : parseHost buffer true with
      | none =>
        intro p hp
        refine mainLoop_of_done ?_
        rw [pass, hhost p hp, withHost, hp.buffer_eq, hparse]
        rfl
      | some parsed =>
        cases parsed with
        | none =>
          refine comes_invalid fun p hp => ?_
          rw [hhost p hp, withHost, hp.buffer_eq, hparse]
          rfl
        | some host =>
          refine (comes_pathStart_codePoints (h.withHost _) text).again fun p hp => ?_
          rw [hhost p hp, withHost, hp.buffer_eq, hparse, ← hp.url_eq]
          rfl

/-- `FileHost` reads a host and what follows it. -/
theorem comes_fileHost_codePoints (buffer text : List UInt8) :
    Comes input .fileHost url buffer text (fileHostResult url buffer (codePoints text)) := by
  induction text generalizing buffer with
  | nil =>
    rw [codePoints, fileHostResult, takeWhile_nil, appended_nil', append_nil]
    refine comes_fileHost_codePoints_end h buffer [] fun p hp => ?_
    rw [hp.codePoint_nil]
    rfl
  | cons b text ih =>
    have hdelimiter : (isDelimiter (codePointAt b text) || isChar (codePointAt b text) '\\') =
        endsHost (codePointAt b text) := by
      rw [isDelimiter_of_ne (codePointAt_ne_endOfFile b text), endsHost, isSeparator,
        Bool.or_right_comm]
    cases hends : endsHost (codePointAt b text) with
    | true =>
      rw [codePoints, fileHostResult, takeWhile_cons_of_neg (by rw [hends]; decide),
        dropWhile_cons_of_neg (by rw [hends]; decide), appended_nil', append_nil]
      refine comes_fileHost_codePoints_end h buffer (b :: text) fun p hp => ?_
      rw [hp.codePoint_cons, hdelimiter, hends]
    | false =>
      rw [codePoints, fileHostResult, takeWhile_cons_of_pos (by rw [hends]; rfl),
        dropWhile_cons_of_pos (by rw [hends]; rfl), appended_cons, ← List.append_assoc]
      refine (ih (buffer ++ appendedCodePoint (codePointAt b text))).next fun p hp => ?_
      rw [step, hp.state_eq, hp.codePoint_cons]
      show fileHost (codePointAt b text) p = _
      rw [fileHost, hdelimiter, hends, if_neg Bool.false_ne_true, hp.buffer_eq, ← hp.url_eq,
        ← hp.state_eq]

/-- `FileSlash` passes over what is before a slash. -/
theorem comes_fileSlash_codePoints (text : List UInt8) :
    Comes input .fileSlash url [] text (fileSlashResult url (codePoints text)) := by
  induction text with
  | nil =>
    refine comes_last .fileSlash url [] fun p hp => ?_
    rw [step, hp.state_eq, hp.codePoint_nil]
    show fileSlash input none endOfFile p = _
    rw [fileSlash, if_neg (by decide), ← hp.url_eq, ← hp.buffer_eq, ← hp.state_eq]
  | cons b text ih =>
    rw [codePoints, fileSlashResult]
    cases hsep : isSeparator (codePointAt b text) with
    | true =>
      rw [dropWhile_cons_of_neg (by rw [hsep]; decide)]
      refine (comes_fileHost_codePoints h [] text).next fun p hp => ?_
      rw [step, hp.state_eq, hp.codePoint_cons]
      have hslash : (isSlash (codePointAt b text) || isChar (codePointAt b text) '\\') = true := hsep
      rw [fileSlash, if_pos hslash, ← hp.url_eq, ← hp.buffer_eq]
    | false =>
      rw [dropWhile_cons_of_pos (by rw [hsep]; rfl)]
      refine ih.next fun p hp => ?_
      have hnot : ¬ (isSlash (codePointAt b text) || isChar (codePointAt b text) '\\') = true := by
        rw [show (isSlash _ || isChar _ '\\') = false from hsep]
        exact Bool.false_ne_true
      rw [step, hp.state_eq, hp.codePoint_cons]
      show fileSlash input none (codePointAt b text) p = _
      rw [fileSlash, if_neg hnot, ← hp.url_eq, ← hp.buffer_eq, ← hp.state_eq]

end

/-! ## Both forms -/

/-- What the parser reads of a text after the slashes of `file:/`: controls and spaces at its
end are cut off, tabs and newlines left out. -/
def fileText (path : List UInt8) : List UInt8 :=
  withoutTabsAndNewlines (path.reverse.dropWhile (· ≤ 0x20)).reverse

/-- A file URL with nothing in it. -/
def emptyFile : URL := { URL.new with scheme := some URL.file, host := some [] }

theorem fresh_emptyFile : Fresh emptyFile where
  special := by decide
  query := rfl
  fragment := rfl

theorem append_spaces (path : List UInt8) :
    (path.reverse.dropWhile (· ≤ 0x20)).reverse ++ (path.reverse.takeWhile (· ≤ 0x20)).reverse =
      path := by
  rw [← List.reverse_append, takeWhile_append_dropWhile, reverse_reverse]

/-- The spaces at the end of a text are those at the end of its last part, if the part before
does not end with one. -/
theorem takeWhile_spaces {before : List UInt8} (path : List UInt8)
    (h : ∀ b ∈ before.getLast?, 0x20 < b) :
    (before ++ path).reverse.takeWhile (· ≤ 0x20) = path.reverse.takeWhile (· ≤ 0x20) := by
  have hlast : before.reverse.takeWhile (· ≤ 0x20) = [] :=
    takeWhile_eq_nil_of_head? (by rw [List.head?_reverse]; exact h)
  rw [List.reverse_append, takeWhile_append]
  split
  · next hfull =>
    rw [hlast, append_nil]
    exact ((List.takeWhile_prefix _).eq_of_length hfull).symm
  · rfl

/-- A text that begins and ends with a character, before one that may end with spaces. -/
theorem processedInput_append {before : List UInt8} (hbefore : Clean before) (hne : before ≠ [])
    (path : List UInt8) :
    processedInput (before ++ path) none = some (before ++ fileText path) := by
  have hlength := length_pos_of_ne_nil hne
  have hstart : (before ++ path).takeWhile (· ≤ 0x20) = [] := by
    refine takeWhile_eq_nil_of_head? fun b hb => hbefore.first b ?_
    rwa [List.head?_append_of_ne_nil _ hne] at hb
  have hend := takeWhile_spaces path hbefore.last
  have hfilter : withoutTabsAndNewlines before = before := by
    rw [withoutTabsAndNewlines, filter_eq_self]
    exact fun b hb => decide_eq_true (hbefore.inner b hb)
  have hsplit := append_spaces path
  have hpath : (path.reverse.dropWhile (· ≤ 0x20)).length +
      (path.reverse.takeWhile (· ≤ 0x20)).length = path.length := by
    have hlength' := congrArg List.length hsplit
    rwa [length_append, length_reverse, length_reverse] at hlength'
  have hwhole : before ++ path = before ++ (path.reverse.dropWhile (· ≤ 0x20)).reverse ++
      (path.reverse.takeWhile (· ≤ 0x20)).reverse := by
    rw [List.append_assoc, hsplit]
  have htake : (before ++ path).take (before.length + path.length -
      (path.reverse.takeWhile (· ≤ 0x20)).length) =
        before ++ (path.reverse.dropWhile (· ≤ 0x20)).reverse := by
    rw [hwhole]
    refine take_left' ?_
    rw [length_append, length_reverse]
    omega
  rw [processedInput, stripped, hstart, hend]
  simp only [length_nil, drop_zero, Nat.sub_zero, length_append]
  rw [if_neg (by omega), htake, map_some, fileText, withoutTabsAndNewlines,
    filter_append]
  exact congrArg (fun l => some (l ++ _)) hfilter

theorem comes_file_slash
    (h : Comes input .fileSlash { url with scheme := some URL.file, host := some [] } buffer rest r) :
    Comes input .file url buffer (byte '/' :: rest) r := by
  refine h.next fun p hp => ?_
  rw [step, hp.state_eq, hp.codePoint ascii_slash, ← hp.url_eq, ← hp.buffer_eq]
  rfl

/-- `file:` and what comes after it. -/
theorem parse_file (before : List UInt8) (hbefore : Clean (URL.file ++ byte ':' :: before))
    (path : List UInt8) (h : ∀ input, Comes input .file { URL.new with scheme := some URL.file } []
      (before ++ fileText path) r) :
    parse (URL.file ++ byte ':' :: before ++ path) none none none = r := by
  have hdata : startsWith (URL.file ++ byte ':' :: before ++ path) dataColon = false := by
    rw [List.append_assoc]
    exact startsWith_dataColon schemeText_file (by decide)
  rw [parse, if_neg (by simp), hdata, if_neg Bool.false_ne_true,
    processedInput_append hbefore (by simp)]
  have hcomes : Comes (URL.file ++ byte ':' :: before ++ fileText path) .schemeStart URL.new []
      (URL.file ++ byte ':' :: before ++ fileText path) r := by
    rw [List.append_assoc]
    exact comes_schemeText schemeText_file (comes_colon_file (h _))
  exact hcomes (start none none) ⟨rfl, rfl, rfl, rfl, rfl, rfl, drop_zero, Nat.zero_add _⟩

/-- `file:/` and a path. -/
def oneSlash (path : List UInt8) : List UInt8 :=
  literal ['f', 'i', 'l', 'e', ':', '/'] ++ path

/-- `file:///` and a path. -/
def threeSlashes (path : List UInt8) : List UInt8 :=
  literal ['f', 'i', 'l', 'e', ':', '/', '/', '/'] ++ path

theorem parse_oneSlash (path : List UInt8) : parse (oneSlash path) none none none =
      fileSlashResult emptyFile (codePoints (fileText path)) := by
  exact parse_file [byte '/'] ⟨by decide, by decide, by decide⟩ path fun input =>
    comes_file_slash (comes_fileSlash_codePoints fresh_emptyFile (fileText path))

theorem parse_threeSlashes (path : List UInt8) : parse (threeSlashes path) none none none =
      pathResult emptyFile [] (codePoints (fileText path)) := by
  refine parse_file [byte '/', byte '/', byte '/'] ⟨by decide, by decide, by decide⟩ path
    fun input => comes_file_slashes ?_
  have hcomes : Comes input .fileHost emptyFile [] (byte '/' :: fileText path) _ :=
    comes_fileHost_codePoints fresh_emptyFile [] (byte '/' :: fileText path)
  rw [codePoints, codePointAt_ascii ascii_slash] at hcomes
  exact hcomes

end Literate.AK.URLParser

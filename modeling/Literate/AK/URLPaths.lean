import Literate.AK.URLShape

/-!
# AK: reading the segments of a path back

The path of a URL is serialized segment by segment, and the parser splits the text, drops
the dot segments and decodes the others.  The weight of a path, its code points in ASCII
and one for each segment, does not grow on the way; where it stays the same, nothing was
dropped or decoded, and where the number of segments stays the same too, nothing was
split.
-/

namespace Literate.AK.URLParser

open Utf8View URL List Option Bool

set_option maxRecDepth 8192

/-! ## Dot segments -/

theorem toAsciiLowercase_dot (b : UInt8) : (toAsciiLowercase b = byte '.' → b = byte '.') ∧
      (toAsciiLowercase b = byte '%' → b = byte '%') ∧
      (toAsciiLowercase b = byte '2' → b = byte '2') ∧
      (toAsciiLowercase b = byte 'e' → b = byte 'e' ∨ b = byte 'E') :=
  forall_byte (P := fun b => (toAsciiLowercase b = byte '.' → b = byte '.') ∧
      (toAsciiLowercase b = byte '%' → b = byte '%') ∧
      (toAsciiLowercase b = byte '2' → b = byte '2') ∧
      (toAsciiLowercase b = byte 'e' → b = byte 'e' ∨ b = byte 'E')) (by decide) b

variable {input buffer : List UInt8} {cs : List Nat} {a b : UInt8} {paths texts : List (List UInt8)}
  {url' : URL}

theorem eq_escapedDot (rest : List UInt8)
    (h : input.map toAsciiLowercase = byte '%' :: byte '2' :: byte 'e' :: rest) :
    ∃ e rest', (e = byte 'e' ∨ e = byte 'E') ∧ input = byte '%' :: byte '2' :: e :: rest' ∧
      rest'.map toAsciiLowercase = rest := by
  match input, h with
  | [], h => cases h
  | [_], h => simp at h
  | [_, _], h => simp at h
  | a :: b :: c :: rest', h =>
    simp only [map_cons, List.cons.injEq] at h
    obtain ⟨ha, hb, hc, hrest⟩ := h
    have ha' := (toAsciiLowercase_dot a).2.1 ha
    have hb' := (toAsciiLowercase_dot b).2.2.1 hb
    exact ⟨c, rest', (toAsciiLowercase_dot c).2.2.2 hc, by rw [ha', hb'], hrest⟩

theorem eq_dot (rest : List UInt8) (h : input.map toAsciiLowercase = byte '.' :: rest) :
    ∃ rest', input = byte '.' :: rest' ∧ rest'.map toAsciiLowercase = rest := by
  match input, h with
  | [], h => cases h
  | a :: rest', h =>
    rw [map_cons, List.cons.injEq] at h
    exact ⟨rest', by rw [(toAsciiLowercase_dot a).1 h.1], h.2⟩

theorem percentDecode_singleDot (h : isSingleDotPathSegment buffer = true) :
    percentDecode buffer = literal ['.'] := by
  simp only [isSingleDotPathSegment, or_eq_true, beq_iff_eq, equalsIgnoringCase] at h
  cases h with
  | inl h => rw [h]; decide
  | inr h =>
    obtain ⟨e, rest, he, rfl, hrest⟩ := eq_escapedDot [] h
    rw [map_eq_nil_iff] at hrest
    subst hrest
    cases he with
    | inl he => rw [he]; decide
    | inr he => rw [he]; decide

theorem percentDecode_doubleDot (h : isDoubleDotPathSegment buffer = true) :
    percentDecode buffer = literal ['.', '.'] := by
  simp only [isDoubleDotPathSegment, or_eq_true, beq_iff_eq, equalsIgnoringCase] at h
  obtain ((h | h) | h) | h := h
  · rw [h]
    decide
  · obtain ⟨rest, rfl, hrest⟩ := eq_dot (literal ['%', '2', 'e']) h
    obtain ⟨e, rest', he, rfl, hnil⟩ := eq_escapedDot [] hrest
    rw [map_eq_nil_iff] at hnil
    subst hnil
    obtain rfl | rfl := he <;> decide
  · obtain ⟨e, rest, he, rfl, hrest⟩ := eq_escapedDot (literal ['.']) h
    obtain ⟨rest', rfl, hnil⟩ := eq_dot [] hrest
    rw [map_eq_nil_iff] at hnil
    subst hnil
    obtain rfl | rfl := he <;> decide
  · obtain ⟨e, rest, he, rfl, hrest⟩ := eq_escapedDot (literal ['%', '2', 'e']) h
    obtain ⟨e', rest', he', rfl, hnil⟩ := eq_escapedDot [] hrest
    rw [map_eq_nil_iff] at hnil
    subst hnil
    obtain rfl | rfl := he <;> obtain rfl | rfl := he' <;> decide

/-! ## Weights -/

/-- The code points in ASCII, and one for each segment. -/
def weight (paths : List (List UInt8)) : Nat :=
  (paths.map fun segment => asciiCount (codePoints segment) + 1).sum

theorem weight_append (paths paths' : List (List UInt8)) :
    weight (paths ++ paths') = weight paths + weight paths' := by
  simp only [weight, map_append, List.sum_append]

theorem weight_singleton (segment : List UInt8) :
    weight [segment] = asciiCount (codePoints segment) + 1 := by
  simp [weight]

theorem weight_dropLast (paths : List (List UInt8)) : weight paths.dropLast ≤ weight paths := by
  cases eq_nil_or_concat paths with
  | inl h => rw [h]; exact Nat.le_refl _
  | inr h =>
    obtain ⟨front, last, rfl⟩ := h
    rw [concat_eq_append, dropLast_concat, weight_append]
    exact Nat.le_add_right _ _

theorem weight_removeLastPath (url : URL) : weight (removeLastPath url).paths ≤ weight url.paths := by
  rw [removeLastPath]
  split
  · exact Nat.le_refl _
  · exact weight_dropLast _

/-- The segment that the end of a segment adds. -/
def addedSegment (url : URL) (buffer : List UInt8) : List UInt8 :=
  percentDecode (normalizedDriveLetter url buffer)

theorem endSegment_of_not_dot {url : URL} (slash : Bool)
    (hsingle : isSingleDotPathSegment buffer = false)
    (hdouble : isDoubleDotPathSegment buffer = false) :
    endSegment slash url buffer = url.appendPath (addedSegment url buffer) := by
  rw [endSegment, hsingle, hdouble]
  rfl

theorem ascii_codePoints_literal : asciiCount (codePoints (literal ['.'])) = 1 ∧
    asciiCount (codePoints (literal ['.', '.'])) = 2 := by decide

/-- A buffer that is a drive letter has two code points. -/
theorem drive_spec {url : URL} (h : normalizedDriveLetter url buffer ≠ buffer) :
    ∃ a, buffer = [a, byte '|'] ∧ isAsciiAlpha a.toNat = true ∧ url.scheme = some URL.file ∧
      url.paths = [] ∧ normalizedDriveLetter url buffer = [a, byte ':'] := by
  rw [normalizedDriveLetter] at h
  split at h
  · next hdrive =>
    obtain ⟨hscheme, hpaths, hletter⟩ := hdrive
    match buffer, hletter with
    | [a, b], hletter =>
      simp only [isWindowsDriveLetter, and_eq_true, or_eq_true, beq_iff_eq] at hletter
      obtain ⟨halpha, rfl | rfl⟩ := hletter
      · exact absurd rfl h
      · refine ⟨a, rfl, halpha, hscheme, hpaths, ?_⟩
        rw [normalizedDriveLetter, if_pos ⟨hscheme, hpaths, by
          simp [isWindowsDriveLetter, halpha]⟩]
        rfl
  · exact absurd rfl h

/-- A text without a percent sign stands for its bytes. -/
theorem eq_of_text {text : List UInt8} (h : Text text cs) (hpercent : byte '%' ∉ text) :
    cs = text.map UInt8.toNat := by
  induction h with
  | nil => rfl
  | plain _ _ ih => rw [map_cons, ← ih (fun hmem => hpercent (mem_cons_of_mem _ hmem))]
  | encoded hencoding _ _ _ _ =>
    obtain ⟨text', rfl⟩ := percentEncoded_eq_cons hencoding
    exact absurd (mem_append_left _ mem_cons_self) hpercent

theorem isAsciiAlpha_ne_percent (h : isAsciiAlpha a.toNat = true) : a ≠ byte '%' := by
  rintro rfl
  exact absurd h (by decide)

theorem percentDecode_of_notMem {text : List UInt8} (h : byte '%' ∉ text) :
    percentDecode text = text := by
  rw [percentDecode, if_neg h]

theorem asciiCount_two (ha : isAsciiAlpha a.toNat = true) (x : Char) (hx : byte x < 0x80) :
    asciiCount (codePoints [a, byte x]) = 2 ∧
      codePoints [a, byte x] = [a.toNat, (byte x).toNat] := by
  have ha' : a < 0x80 := UInt8.lt_iff_toNat_lt.mpr (by
    simp only [isAsciiAlpha, decide_eq_true_eq] at ha
    have h128 : (0x80 : UInt8).toNat = 128 := rfl
    omega)
  have hcodes : codePoints [a, byte x] = [a.toNat, (byte x).toNat] := by
    rw [codePoints, codePoints, codePointAt_ascii ha', codePointAt_ascii hx]
    rfl
  refine ⟨?_, hcodes⟩
  rw [hcodes, asciiCount_cons, asciiCount_ascii (UInt8.lt_iff_toNat_lt.mp ha'),
    asciiCount_ascii (UInt8.lt_iff_toNat_lt.mp hx)]

/-- The segment that is added is no heavier than the code points it is made of. -/
theorem asciiCount_addedSegment (url : URL) (h : Text buffer cs) :
    asciiCount (codePoints (addedSegment url buffer)) + (if hasEscape cs then 1 else 0) ≤
      asciiCount cs := by
  rw [addedSegment]
  by_cases hdrive : normalizedDriveLetter url buffer = buffer
  · rw [hdrive, h.percentDecode]
    exact asciiCount_decoded cs
  · obtain ⟨a, rfl, ha, -, -, hnormalized⟩ := drive_spec hdrive
    have hpercent : ∀ x : Char, byte x ≠ byte '%' → byte '%' ∉ [a, byte x] := by
      intro x hx hmem
      rw [mem_cons, mem_singleton] at hmem
      cases hmem with
      | inl hmem => exact isAsciiAlpha_ne_percent ha hmem.symm
      | inr hmem => exact hx hmem.symm
    have hcs := eq_of_text h (hpercent '|' (by decide))
    have hcount : asciiCount cs = 2 := by
      obtain ⟨hcount, hcodes⟩ := asciiCount_two ha '|' (by decide)
      simp only [hcs, map_cons, map_nil, ← hcodes, hcount]
    have hescape : hasEscape cs = false := by
      have hne : a.toNat ≠ 0x25 := fun heq => isAsciiAlpha_ne_percent ha (UInt8.toNat_inj.mp heq)
      rw [hcs]
      simp only [map_cons, map_nil, hasEscape, escape, hne, if_false]
      decide
    rw [hnormalized, percentDecode_of_notMem (hpercent ':' (by decide)), hcount, hescape,
      (asciiCount_two ha ':' (by decide)).1]
    decide

/-- Ending a segment adds no more weight than it has; if no less, it is added as it is. -/
theorem weight_endSegment (url : URL) (slash : Bool) (h : Text buffer cs) :
    weight (endSegment slash url buffer).paths ≤ weight url.paths + asciiCount cs + 1 ∧
      (weight (endSegment slash url buffer).paths = weight url.paths + asciiCount cs + 1 →
        isSingleDotPathSegment buffer = false ∧ isDoubleDotPathSegment buffer = false ∧
          hasEscape cs = false) := by
  have hdecoded := asciiCount_decoded cs
  rw [← h.percentDecode] at hdecoded
  have hone : weight [[]] = 1 := by decide
  cases hdouble : isDoubleDotPathSegment buffer with
  | true =>
    rw [percentDecode_doubleDot hdouble, ascii_codePoints_literal.2] at hdecoded
    have hremove := weight_removeLastPath url
    have hweight : weight (endSegment slash url buffer).paths ≤ weight url.paths + 1 := by
      rw [endSegment, hdouble, if_pos rfl]
      dsimp only
      split
      · omega
      · rw [appendPath]
        rw [weight_append, hone]
        omega
    omega
  | false =>
    cases hsingle : isSingleDotPathSegment buffer with
    | true =>
      rw [percentDecode_singleDot hsingle, ascii_codePoints_literal.1] at hdecoded
      have hweight : weight (endSegment slash url buffer).paths ≤ weight url.paths + 1 := by
        rw [endSegment, hdouble, hsingle, if_neg Bool.false_ne_true]
        cases slash with
        | true => exact Nat.le_succ _
        | false =>
          show weight (url.paths ++ [[]]) ≤ _
          rw [weight_append, hone]
      omega
    | false =>
      have hadded := asciiCount_addedSegment url h
      rw [endSegment_of_not_dot slash hsingle hdouble, appendPath]
      rw [weight_append, weight_singleton]
      refine ⟨by omega, fun heq => ⟨rfl, rfl, ?_⟩⟩
      by_contra hescape
      rw [if_pos (by simpa using hescape)] at hadded
      omega

/-! ## Reading a segment -/

/-- A byte at which `Path` ends a segment. -/
def IsSeparator (url : URL) (b : UInt8) : Prop :=
  (isSlash b.toNat || isSpecialBackslash url b.toNat) = true

theorem isSeparator_withPaths {url : URL} :
    IsSeparator { url with paths := paths } b ↔ IsSeparator url b := Iff.rfl

theorem readPath_inner {url : URL} (h : ¬ IsSeparator url b) (buffer rest : List UInt8) :
    readPath url buffer (b :: rest) = readPath url (buffer ++ [b]) rest := by
  rw [readPath]
  exact if_neg h

theorem readPath_of_not_separator {url : URL} {text : List UInt8}
    (h : ∀ b ∈ text, ¬ IsSeparator url b) (buffer rest : List UInt8) :
    readPath url buffer (text ++ rest) = readPath url (buffer ++ text) rest := by
  induction text generalizing buffer with
  | nil => rw [append_nil, nil_append]
  | cons b text ih =>
    obtain ⟨hb, htext⟩ := forall_mem_cons.mp h
    rw [List.cons_append, readPath_inner hb, ih htext, List.append_assoc, singleton_append]

theorem readPath_separator {url : URL} (h : IsSeparator url b) (buffer rest : List UInt8) :
    readPath url buffer (b :: rest) = readPath (endSegment true url buffer) [] rest := by
  rw [readPath]
  exact if_pos h

theorem not_isSeparator_percentEncodedByte {url : URL} {b' : UInt8}
    (h : b ∈ percentEncodedByte b') : ¬ IsSeparator url b := by
  have hall : ∀ n < 256, (percentEncodedByte (UInt8.ofNat n)).all
      (fun b => !isSlash b.toNat && !isChar b.toNat '\\') = true := by decide
  have hb := List.all_eq_true.mp (forall_byte (P := fun b' => (percentEncodedByte b').all
    (fun b => !isSlash b.toNat && !isChar b.toNat '\\') = true) hall b') b h
  simp only [and_eq_true, not_eq_true'] at hb
  rw [IsSeparator, hb.1, isSpecialBackslash, hb.2, Bool.and_false]
  exact Bool.false_ne_true

theorem not_isSeparator_percentEncoded (url : URL) {c : Nat} {encoding : List UInt8}
    (h : percentEncoded c = some encoding) : ∀ b ∈ encoding, ¬ IsSeparator url b := by
  rw [percentEncoded_eq_some h]
  intro b hb
  obtain ⟨b', -, hb'⟩ := mem_flatMap.mp hb
  exact not_isSeparator_percentEncodedByte hb'

theorem readPath_eq (url : URL) (buffer text : List UInt8) :
    (readPath url buffer text).1 = { url with paths := (readPath url buffer text).1.paths } := by
  induction text generalizing url buffer with
  | nil => rfl
  | cons b text ih =>
    by_cases hsep : IsSeparator url b
    · have hread := ih (endSegment true url buffer) []
      rw [readPath_separator hsep, hread]
      rw [endSegment_eq]
    · rw [readPath_inner hsep]
      exact ih url (buffer ++ [b])

theorem paths_endSegment (url : URL) (slash : Bool) (h : Text buffer cs)
    (hweight : weight (endSegment slash url buffer).paths = weight url.paths + asciiCount cs + 1) :
    (endSegment slash url buffer).paths = url.paths ++ [addedSegment url buffer] := by
  obtain ⟨hsingle, hdouble, -⟩ := (weight_endSegment url slash h).2 hweight
  rw [endSegment_of_not_dot slash hsingle hdouble]
  rfl

theorem isSeparator_endSegment {url : URL} {slash : Bool} :
    IsSeparator (endSegment slash url buffer) b ↔ IsSeparator url b := by
  rw [endSegment_eq]
  exact isSeparator_withPaths

theorem weight_readPath (url : URL) {text : List UInt8} {cs' : List Nat}
    (h : Text text cs) (hbuffer : Text buffer cs') :
    ∃ cs'', Text (readPath url buffer text).2 cs'' ∧
      weight (readPath url buffer text).1.paths + asciiCount cs'' ≤
        weight url.paths + asciiCount cs' + asciiCount cs ∧
      (weight (readPath url buffer text).1.paths + asciiCount cs'' =
          weight url.paths + asciiCount cs' + asciiCount cs →
        url.paths <+: (readPath url buffer text).1.paths ∧
          ((∃ b ∈ text, IsSeparator url b) →
            url.paths.length < (readPath url buffer text).1.paths.length)) := by
  induction h generalizing url buffer cs' with
  | nil =>
    refine ⟨cs', hbuffer, Nat.le_refl _, fun _ => ⟨prefix_refl _, fun hsep => ?_⟩⟩
    obtain ⟨b, hb, -⟩ := hsep
    cases hb
  | @plain b text cs hb h ih =>
    have hcount : asciiCount (b.toNat :: cs) = 1 + asciiCount cs := by
      rw [asciiCount_cons, asciiCount_ascii (UInt8.lt_iff_toNat_lt.mp hb)]
    by_cases hsep : IsSeparator url b
    · rw [readPath_separator hsep]
      obtain ⟨cs'', htext, hle, heq⟩ := ih (endSegment true url buffer) .nil
      obtain ⟨hle', heq'⟩ := weight_endSegment url true hbuffer
      have hzero : asciiCount ([] : List Nat) = 0 := rfl
      refine ⟨cs'', htext, by omega, fun htotal => ?_⟩
      have hpaths := paths_endSegment url true hbuffer (by omega)
      obtain ⟨hinitial, -⟩ := heq (by omega)
      rw [hpaths] at hinitial
      refine ⟨(prefix_append _ _).trans hinitial, fun _ => ?_⟩
      have hlength := hinitial.length_le
      rw [length_append, length_singleton] at hlength
      omega
    · rw [readPath_inner hsep]
      have happend : asciiCount (cs' ++ [b.toNat]) = asciiCount cs' + 1 := by
        rw [asciiCount, countP_append, ← asciiCount, ← asciiCount,
          asciiCount_ascii (UInt8.lt_iff_toNat_lt.mp hb)]
      obtain ⟨cs'', htext, hle, heq⟩ := ih url (hbuffer.append (.plain hb .nil))
      refine ⟨cs'', htext, by omega, fun htotal => ?_⟩
      obtain ⟨hinitial, hlength⟩ := heq (by omega)
      refine ⟨hinitial, fun hex => hlength ?_⟩
      obtain ⟨b', hb', hsep'⟩ := hex
      cases mem_cons.mp hb' with
      | inl heq => exact absurd (heq ▸ hsep') hsep
      | inr hmem => exact ⟨b', hmem, hsep'⟩
  | @encoded c encoding text cs hencoding hhex hpercent h ih =>
    have hnot := not_isSeparator_percentEncoded url hencoding
    rw [readPath_of_not_separator hnot]
    have hfirst : Text encoding [c] := by
      have hsingle := Text.encoded hencoding hhex hpercent .nil
      rwa [append_nil] at hsingle
    have happend : asciiCount (cs' ++ [c]) = asciiCount cs' + asciiCount [c] :=
      countP_append
    have hcount := asciiCount_cons c cs
    obtain ⟨cs'', htext, hle, heq⟩ := ih url (hbuffer.append hfirst)
    refine ⟨cs'', htext, by omega, fun htotal => ?_⟩
    obtain ⟨hinitial, hlength⟩ := heq (by omega)
    refine ⟨hinitial, fun hex => hlength ?_⟩
    obtain ⟨b', hb', hsep'⟩ := hex
    cases mem_append.mp hb' with
    | inl hmem => exact absurd hsep' (hnot b' hmem)
    | inr hmem => exact ⟨b', hmem, hsep'⟩

theorem weight_segment (url : URL) {text : List UInt8} (slash : Bool) (h : Text text cs)
    (hurl : url' = endSegment slash (readPath url [] text).1 (readPath url [] text).2) :
    weight url'.paths ≤ weight url.paths + asciiCount cs + 1 ∧
      (weight url'.paths = weight url.paths + asciiCount cs + 1 →
        url.paths <+: url'.paths ∧ url.paths.length + 1 ≤ url'.paths.length ∧
          (url'.paths.length = url.paths.length + 1 →
            (∀ b ∈ text, ¬ IsSeparator url b) ∧ isSingleDotPathSegment text = false ∧
              isDoubleDotPathSegment text = false ∧ hasEscape cs = false ∧
              url'.paths = url.paths ++ [addedSegment url text])) := by
  obtain ⟨cs'', htext, hle, heq⟩ := weight_readPath url h .nil
  obtain ⟨hle', heq'⟩ := weight_endSegment (readPath url [] text).1 slash htext
  rw [← hurl] at hle' heq'
  have hzero : asciiCount ([] : List Nat) = 0 := rfl
  refine ⟨by omega, fun htotal => ?_⟩
  have hpaths := paths_endSegment (readPath url [] text).1 slash htext
    (by rw [← hurl]; omega)
  rw [← hurl] at hpaths
  obtain ⟨hinitial, hlength⟩ := heq (by omega)
  have hinitial' : url.paths <+: url'.paths := by
    rw [hpaths]
    exact hinitial.trans (prefix_append _ _)
  have hlength' : url'.paths.length = (readPath url [] text).1.paths.length + 1 := by
    rw [hpaths, length_append, length_singleton]
  have hle'' := hinitial.length_le
  refine ⟨hinitial', by omega, fun hone => ?_⟩
  have hnot : ∀ b ∈ text, ¬ IsSeparator url b := fun b hb hsep => by
    have hlt := hlength ⟨b, hb, hsep⟩
    omega
  have hread : readPath url [] text = (url, text) := by
    have hread := readPath_of_not_separator hnot [] []
    rwa [append_nil] at hread
  rw [hread] at hurl
  rw [hurl] at htotal ⊢
  obtain ⟨hsingle, hdouble, hescape⟩ := (weight_endSegment url slash h).2 htotal
  exact ⟨hnot, hsingle, hdouble, hescape, paths_endSegment url slash h htotal⟩

/-! ## Reading a path -/

/-- The texts of segments with slashes between them. -/
def joined : List (List UInt8) → List UInt8
  | [] => []
  | [text] => text
  | text :: texts => text ++ byte '/' :: joined texts

theorem joined_cons_cons (text text' : List UInt8) (texts : List (List UInt8)) :
    joined (text :: text' :: texts) = text ++ byte '/' :: joined (text' :: texts) := rfl

/-- What `Path` makes of the text of a path. -/
def reread (url : URL) (text : List UInt8) : URL :=
  endSegment false (readPath url [] text).1 (readPath url [] text).2

/-- The texts that segments are serialized as. -/
def Texts (segments texts : List (List UInt8)) : Prop :=
  List.Forall₂ (fun segment text => percentEncode segment .path = some text) segments texts

theorem isSeparator_slash (url : URL) : IsSeparator url (byte '/') := by
  rw [IsSeparator, show isSlash (byte '/').toNat = true from rfl]
  rfl

theorem readPath_append (url : URL) (buffer text rest : List UInt8) :
    readPath url buffer (text ++ rest) =
      readPath (readPath url buffer text).1 (readPath url buffer text).2 rest := by
  induction text generalizing url buffer with
  | nil => rfl
  | cons b text ih =>
    by_cases hsep : IsSeparator url b
    · simp only [List.cons_append, readPath_separator hsep, ih]
    · simp only [List.cons_append, readPath_inner hsep, ih]

theorem reread_cons (url : URL) (text rest : List UInt8) : reread url (text ++ byte '/' :: rest) =
      reread (endSegment true (readPath url [] text).1 (readPath url [] text).2) rest := by
  simp only [reread, readPath_append, readPath_separator (isSeparator_slash _)]

/-- Reading a path back adds no more weight than it has; if no less, what was there stays,
and no segment is lost. -/
theorem weight_reread (url : URL) {segments : List (List UInt8)}
    (h : Texts segments texts) (hne : segments ≠ []) :
    weight (reread url (joined texts)).paths ≤ weight url.paths + weight segments ∧
      (weight (reread url (joined texts)).paths = weight url.paths + weight segments →
        url.paths <+: (reread url (joined texts)).paths ∧
          url.paths.length + segments.length ≤ (reread url (joined texts)).paths.length) := by
  induction h generalizing url with
  | nil => exact absurd rfl hne
  | @cons segment text segments texts hencode htexts ih =>
    have htext := percentEncode_text hencode
    have hweight : weight (segment :: segments) =
        asciiCount (codePoints segment) + 1 + weight segments := rfl
    cases htexts with
    | nil =>
      obtain ⟨hle, heq⟩ := weight_segment url false htext rfl
      have hzero : weight [] = 0 := rfl
      rw [hweight, hzero]
      refine ⟨hle, fun htotal => ?_⟩
      obtain ⟨hinitial, hlength, -⟩ := heq htotal
      exact ⟨hinitial, hlength⟩
    | @cons segment' text' segments texts hencode' htexts =>
      rw [joined_cons_cons, reread_cons]
      obtain ⟨hle, heq⟩ := weight_segment url true htext rfl
      obtain ⟨hle', heq'⟩ :=
        ih (endSegment true (readPath url [] text).1 (readPath url [] text).2)
          (cons_ne_nil _ _)
      rw [hweight]
      refine ⟨by omega, fun htotal => ?_⟩
      obtain ⟨hinitial, hlength, -⟩ := heq (by omega)
      obtain ⟨hinitial', hlength'⟩ := heq' (by omega)
      rw [length_cons]
      exact ⟨hinitial.trans hinitial', by omega⟩

/-! ## Segments that are read back as they are -/

/-- A segment that survives. -/
structure StableSegment (url : URL) (segment : List UInt8) : Prop where
  plain : Plain segment
  separator : ∀ b ∈ segment, ¬ IsSeparator url b
  singleDot : isSingleDotPathSegment segment = false
  doubleDot : isDoubleDotPathSegment segment = false

/-- A drive letter at the beginning of a file path has its colon. -/
def StableDrive (url : URL) (segments : List (List UInt8)) : Prop :=
  url.scheme = some URL.file → ∀ first ∈ segments.head?,
    isWindowsDriveLetter first = true → isNormalizedWindowsDriveLetter first = true

variable {url : URL} {segment text : List UInt8}

theorem mem_percentEncode {set : PercentEncodeSet} (h : percentEncode segment set = some text)
    (hb : b ∈ segment) (hset : Unencoded set b) : b ∈ text := by
  rw [percentEncode] at h
  induction segment generalizing text with
  | nil => cases hb
  | cons b' segment ih =>
    obtain ⟨first, hfirst, h⟩ := bind_eq_some_iff.mp h
    obtain ⟨rest, hrest, h⟩ := bind_eq_some_iff.mp h
    cases h
    cases mem_cons.mp hb with
    | inl heq =>
      subst heq
      rw [codePointAt_ascii hset.1, percentEncodedIfNecessary_unencoded hset] at hfirst
      cases hfirst
      exact mem_append_left _ mem_cons_self
    | inr hmem => exact mem_append_right _ (ih hrest hmem)

theorem mem_of_mem_percentEncode {set : PercentEncodeSet}
    (h : percentEncode segment set = some text) (hascii : ∀ b ∈ segment, b < 0x80) (hb : b ∈ text) :
    b ∈ segment ∨ ∃ b', b ∈ percentEncodedByte b' := by
  refine (mem_percentEncodeLoop h hb).imp (fun hmem => ?_) id
  rw [codePoints_ascii hascii, List.mem_map] at hmem
  obtain ⟨b', hb', heq⟩ := hmem
  exact UInt8.toNat_inj.mp heq ▸ hb'

theorem unencoded_of_isSeparator (h : IsSeparator url b) : Unencoded .path b := by
  have hall : ∀ n < 256, isSlash (UInt8.ofNat n).toNat = true ∨
      isChar (UInt8.ofNat n).toNat '\\' = true → Unencoded .path (UInt8.ofNat n) := by
    simp only [Unencoded]
    decide
  rw [IsSeparator, or_eq_true, isSpecialBackslash, and_eq_true] at h
  exact forall_byte (P := fun b => isSlash b.toNat = true ∨ isChar b.toNat '\\' = true →
    Unencoded .path b) hall b (h.imp id And.right)

section

variable (h : percentEncode segment .path = some text)

include h

theorem separator_text_iff
    (hascii : ∀ b ∈ segment, b < 0x80) :
    (∀ b ∈ text, ¬ IsSeparator url b) ↔ ∀ b ∈ segment, ¬ IsSeparator url b := by
  refine ⟨fun hall b hb hsep => ?_, fun hall b hb hsep => ?_⟩
  · exact hall b (mem_percentEncode h hb (unencoded_of_isSeparator hsep)) hsep
  · cases mem_of_mem_percentEncode h hascii hb with
    | inl hmem => exact hall b hmem hsep
    | inr hescape =>
      obtain ⟨b', hb'⟩ := hescape
      exact not_isSeparator_percentEncodedByte hb' hsep

theorem text_of_dot
    (hdot : isSingleDotPathSegment segment = true ∨ isDoubleDotPathSegment segment = true) :
    text = segment := by
  have hall : ∀ n < 256, toAsciiLowercase (UInt8.ofNat n) ∈ literal ['.', '%', '2', 'e'] →
      Unencoded .path (UInt8.ofNat n) := by
    simp only [Unencoded]
    decide
  have hbyte := forall_byte (P := fun b => toAsciiLowercase b ∈ literal ['.', '%', '2', 'e'] →
    Unencoded .path b) hall
  have hlower : ∀ b ∈ segment.map toAsciiLowercase, b ∈ literal ['.', '%', '2', 'e'] := by
    simp only [isSingleDotPathSegment, isDoubleDotPathSegment, or_eq_true, beq_iff_eq,
      equalsIgnoringCase] at hdot
    obtain (h | h) | ((h | h) | h) | h := hdot
    all_goals
      rw [h]
      decide
  have hunencoded : ∀ b ∈ segment, Unencoded .path b := fun b hb =>
    hbyte b (hlower _ (List.mem_map_of_mem hb))
  rw [percentEncode_unencoded hunencoded] at h
  exact (some.inj h).symm

theorem percentDecode_text (hplain : Plain segment) : percentDecode text = segment := by
  rw [(percentEncode_text h).percentDecode, hplain.decoded]

theorem stableDots (hplain : Plain segment) (hsingle : isSingleDotPathSegment segment = false)
    (hdouble : isDoubleDotPathSegment segment = false) :
    isSingleDotPathSegment text = false ∧ isDoubleDotPathSegment text = false := by
  have hdecode := percentDecode_text h hplain
  constructor
  · by_contra hdot
    rw [← hdecode, percentDecode_singleDot (by simpa using hdot)] at hsingle
    exact absurd hsingle (by decide)
  · by_contra hdot
    rw [← hdecode, percentDecode_doubleDot (by simpa using hdot)] at hdouble
    exact absurd hdouble (by decide)

theorem text_of_drive
    (hdrive : isWindowsDriveLetter segment = true) : text = segment := by
  have hall : ∀ n < 256, isAsciiAlpha (UInt8.ofNat n).toNat = true ∨
      UInt8.ofNat n = byte ':' ∨ UInt8.ofNat n = byte '|' → Unencoded .path (UInt8.ofNat n) := by
    simp only [Unencoded]
    decide
  have hbyte := forall_byte (P := fun b => isAsciiAlpha b.toNat = true ∨
      b = byte ':' ∨ b = byte '|' → Unencoded .path b) hall
  match segment, hdrive with
  | [a, b], hdrive =>
    simp only [isWindowsDriveLetter, and_eq_true, or_eq_true, beq_iff_eq] at hdrive
    have hunencoded : ∀ b' ∈ [a, b], Unencoded .path b' :=
      forall_mem_cons.mpr ⟨hbyte a (.inl hdrive.1),
        forall_mem_singleton.mpr (hbyte b (.inr hdrive.2))⟩
    rw [percentEncode_unencoded hunencoded] at h
    exact (some.inj h).symm

end

theorem percent_notMem_drive (hdrive : isWindowsDriveLetter text = true) : byte '%' ∉ text := by
  match text, hdrive with
  | [a, b], hdrive =>
    simp only [isWindowsDriveLetter, and_eq_true, or_eq_true, beq_iff_eq] at hdrive
    intro hmem
    rw [mem_cons, mem_singleton] at hmem
    cases hmem with
    | inl heq => exact isAsciiAlpha_ne_percent hdrive.1 heq.symm
    | inr heq =>
      rw [← heq] at hdrive
      exact absurd hdrive.2 (by decide)

theorem normalized_iff (hdrive : isWindowsDriveLetter text = true) :
    text.take 1 ++ [byte ':'] = text ↔ isNormalizedWindowsDriveLetter text = true := by
  match text, hdrive with
  | [a, b], hdrive =>
    simp only [isWindowsDriveLetter, and_eq_true] at hdrive
    rw [isNormalizedWindowsDriveLetter, hdrive.1, Bool.true_and, beq_iff_eq]
    refine ⟨fun heq => ?_, fun heq => by rw [heq]; rfl⟩
    have htail : [byte ':'] = [b] := tail_eq_of_cons_eq heq
    exact (head_eq_of_cons_eq htail).symm

/-- What is added for a plain segment is the segment itself, but for a drive letter. -/
theorem addedSegment_eq_iff (h : percentEncode segment .path = some text) (hplain : Plain segment) :
    addedSegment url text = segment ↔
      (url.scheme = some URL.file → url.paths = [] → isWindowsDriveLetter segment = true →
        isNormalizedWindowsDriveLetter segment = true) := by
  have hdecode := percentDecode_text h hplain
  rw [addedSegment, normalizedDriveLetter]
  split
  · next hdrive =>
    obtain ⟨hscheme, hpaths, hletter⟩ := hdrive
    have htext : text = segment := by
      rw [percentDecode_of_notMem (percent_notMem_drive hletter)] at hdecode
      exact hdecode
    subst htext
    have hpercent : byte '%' ∉ text.take 1 ++ [byte ':'] := by
      intro hmem
      cases mem_append.mp hmem with
      | inl hmem => exact percent_notMem_drive hletter (mem_of_mem_take hmem)
      | inr hmem => exact absurd (mem_singleton.mp hmem) (by decide)
    rw [percentDecode_of_notMem hpercent, normalized_iff hletter]
    exact ⟨fun hnormalized _ _ _ => hnormalized, fun hall => hall hscheme hpaths hletter⟩
  · next hnot =>
    refine ⟨fun _ hscheme hpaths hletter => absurd ⟨hscheme, hpaths, ?_⟩ hnot, fun _ => hdecode⟩
    rw [text_of_drive h hletter]
    exact hletter

theorem StableSegment.withPaths :
    StableSegment { url with paths := paths } segment ↔ StableSegment url segment :=
  ⟨fun h => ⟨h.plain, h.separator, h.singleDot, h.doubleDot⟩,
    fun h => ⟨h.plain, h.separator, h.singleDot, h.doubleDot⟩⟩

theorem endSegment_stable (h : percentEncode segment .path = some text)
    (hstable : StableSegment url segment) (hdrive : url.paths = [] → StableDrive url [segment])
    (slash : Bool) : endSegment slash (readPath url [] text).1 (readPath url [] text).2 =
      { url with paths := url.paths ++ [segment] } := by
  have hnot := (separator_text_iff h hstable.plain.1).mpr hstable.separator
  have hread : readPath url [] text = (url, text) := by
    have hread := readPath_of_not_separator hnot [] []
    rwa [append_nil] at hread
  have hadded : addedSegment url text = segment :=
    (addedSegment_eq_iff h hstable.plain).mpr fun hscheme hpaths =>
      hdrive hpaths hscheme segment rfl
  obtain ⟨hsingle, hdouble⟩ := stableDots h hstable.plain hstable.singleDot hstable.doubleDot
  rw [hread, endSegment_of_not_dot slash hsingle hdouble, hadded]
  rfl

theorem reread_stable {segments : List (List UInt8)} (h : Texts segments texts)
    (hne : segments ≠ []) (hstable : ∀ segment ∈ segments, StableSegment url segment)
    (hdrive : url.paths = [] → StableDrive url segments) :
    reread url (joined texts) = { url with paths := url.paths ++ segments } := by
  induction h generalizing url with
  | nil => exact absurd rfl hne
  | @cons segment text segments texts hencode htexts ih =>
    obtain ⟨hsegment, hsegments⟩ := forall_mem_cons.mp hstable
    cases htexts with
    | nil => exact endSegment_stable hencode hsegment hdrive false
    | @cons segment' text' segments texts hencode' htexts =>
      rw [joined_cons_cons, reread_cons, endSegment_stable hencode hsegment hdrive true,
        ih (cons_ne_nil _ _)
          (fun segment hmem => StableSegment.withPaths.mpr (hsegments segment hmem))
          (fun hnil => absurd hnil (append_ne_nil_of_right_ne_nil _ (cons_ne_nil _ _)))]
      simp

/-- A segment that is added as it is, without loss of weight, is stable. -/
theorem stable_of_endSegment (h : percentEncode segment .path = some text) {slash : Bool}
    (hurl : url' = endSegment slash (readPath url [] text).1 (readPath url [] text).2)
    (hweight : weight url'.paths = weight url.paths + asciiCount (codePoints segment) + 1)
    (hlength : url'.paths.length = url.paths.length + 1) {rest : List (List UInt8)}
    (hinitial : url'.paths <+: url.paths ++ segment :: rest) :
    StableSegment url segment ∧ (url.paths = [] → StableDrive url (segment :: rest)) ∧
      url'.paths = url.paths ++ [segment] := by
  have htext := percentEncode_text h
  obtain ⟨-, -, hone⟩ := (weight_segment url slash htext hurl).2 hweight
  obtain ⟨hnot, hsingle, hdouble, -, hpaths⟩ := hone hlength
  have hadded : addedSegment url text = segment := by
    rw [hpaths] at hinitial
    exact (cons_prefix_cons.mp ((prefix_append_right_inj _).mp hinitial)).1
  have hdecoded : decoded (codePoints segment) = segment := by
    rw [← htext.percentDecode]
    by_cases hdrive : normalizedDriveLetter url text = text
    · rwa [addedSegment, hdrive] at hadded
    · obtain ⟨a, rfl, ha, -, -, hnormalized⟩ := drive_spec hdrive
      have hletter : ∀ x : Char, byte x = byte ':' ∨ byte x = byte '|' →
          isWindowsDriveLetter [a, byte x] = true := fun x hx => by
        simp only [isWindowsDriveLetter, ha, Bool.true_and, or_eq_true, beq_iff_eq]
        exact hx
      have hsegment : segment = [a, byte ':'] := by
        rw [addedSegment, hnormalized,
          percentDecode_of_notMem (percent_notMem_drive (hletter ':' (.inl rfl)))] at hadded
        exact hadded.symm
      rw [hsegment] at h
      have heq := text_of_drive h (hletter ':' (.inl rfl))
      exact absurd (tail_eq_of_cons_eq heq) (by decide)
  have hplain := decoded_eq_iff.mp hdecoded
  have hdot : ∀ h' : isSingleDotPathSegment segment = true ∨
      isDoubleDotPathSegment segment = true, False := fun h' => by
    rw [← text_of_dot h h', hsingle, hdouble] at h'
    exact h'.elim Bool.false_ne_true Bool.false_ne_true
  refine ⟨⟨hplain, (separator_text_iff h hplain.1).mp hnot, ?_, ?_⟩, ?_, ?_⟩
  · exact not_eq_true _ ▸ fun h' => hdot (.inl h')
  · exact not_eq_true _ ▸ fun h' => hdot (.inr h')
  · intro hnil hscheme first hfirst
    cases hfirst
    exact (addedSegment_eq_iff h hplain).mp hadded hscheme hnil
  · rw [hpaths, hadded]

theorem stable_of_reread {segments : List (List UInt8)} (h : Texts segments texts)
    (hne : segments ≠ []) (hread : (reread url (joined texts)).paths = url.paths ++ segments) :
    (∀ segment ∈ segments, StableSegment url segment) ∧
      (url.paths = [] → StableDrive url segments) := by
  induction h generalizing url with
  | nil => exact absurd rfl hne
  | @cons segment text segments texts hencode htexts ih =>
    have htext := percentEncode_text hencode
    have hweight : weight (segment :: segments) =
        asciiCount (codePoints segment) + 1 + weight segments := rfl
    cases htexts with
    | nil =>
      have hsingle : weight [segment] = asciiCount (codePoints segment) + 1 :=
        weight_singleton segment
      have hlength : (url.paths ++ [segment]).length = url.paths.length + 1 := by
        rw [length_append, length_singleton]
      have hurl : reread url (joined [text]) =
          endSegment false (readPath url [] text).1 (readPath url [] text).2 := rfl
      have hinitial : (reread url (joined [text])).paths <+: url.paths ++ [segment] :=
        hread ▸ prefix_refl _
      obtain ⟨hstable, hdrive, -⟩ := stable_of_endSegment hencode hurl
        (by rw [hread, weight_append]; omega) (by rw [hread, hlength]) hinitial
      exact ⟨forall_mem_singleton.mpr hstable, hdrive⟩
    | @cons segment' text' segments texts hencode' htexts =>
      rw [joined_cons_cons, reread_cons] at hread
      generalize hurl : endSegment true (readPath url [] text).1 (readPath url [] text).2 = url'
        at hread
      have hrest : Texts (segment' :: segments) (text' :: texts) := .cons hencode' htexts
      obtain ⟨hle, heq⟩ := weight_segment url true htext hurl.symm
      obtain ⟨hle', heq'⟩ := weight_reread url' hrest (cons_ne_nil _ _)
      rw [hread, weight_append] at hle' heq'
      obtain ⟨-, hlength, -⟩ := heq (by omega)
      obtain ⟨hinitial, hlength'⟩ := heq' (by omega)
      simp only [length_append, length_cons] at hlength'
      obtain ⟨hstable, hdrive, hpaths⟩ := stable_of_endSegment hencode hurl.symm (by omega)
        (by omega) hinitial
      have hseparator : ∀ b, IsSeparator url' b ↔ IsSeparator url b := fun b => by
        rw [← hurl, isSeparator_endSegment, readPath_eq, isSeparator_withPaths]
      have hread' : (reread url' (joined (text' :: texts))).paths =
          url'.paths ++ segment' :: segments := by
        rw [hread, hpaths, List.append_assoc, singleton_append]
      obtain ⟨hstable', -⟩ := ih (cons_ne_nil _ _) hread'
      refine ⟨forall_mem_cons.mpr ⟨hstable, fun segment hmem => ?_⟩, hdrive⟩
      have hother := hstable' segment hmem
      exact ⟨hother.plain, fun b hb hsep => hother.separator b hb ((hseparator b).mpr hsep),
        hother.singleDot, hother.doubleDot⟩

end Literate.AK.URLParser

import Literate.AK.URLSegments
import Mathlib.Data.List.Infix

/-!
# AK: dots in the path of a URL

`URL::path` of `AK/URL.cpp`, split at its slashes.  A dot segment is recognized in the
encoded buffer, however it is spelled there, so that no stored segment is one; but what is
stored is decoded, and an encoded slash comes apart in `path` into components that nothing
has looked at.
-/

namespace Literate.AK

open Utf8View List

namespace URL

/-- `path`; `none` when there is no first segment. -/
def path (url : URL) : Option (List UInt8) :=
  if url.cannotBeABaseUrl then url.paths[0]?
  else some (url.paths.flatMap fun segment => byte '/' :: segment)

/-- A component that stands for a directory. -/
def IsDot (component : List UInt8) : Prop :=
  component = literal ['.'] ∨ component = literal ['.', '.']

instance (component : List UInt8) : Decidable (IsDot component) :=
  inferInstanceAs (Decidable (_ ∨ _))

/-- No component of a text is a dot. -/
def NoDots (text : List UInt8) : Prop := ∀ component ∈ text.splitOn (byte '/'), ¬ IsDot component

instance (text : List UInt8) : Decidable (NoDots text) :=
  inferInstanceAs (Decidable (∀ component ∈ _, _))

/-- A URL that `parse` returns, without a base URL or with one that it returned before. -/
inductive Parsed : URL → Prop
  | parse {rawInput : List UInt8} {base : Option URL} {url : URL}
      (hbase : ∀ url ∈ base, Parsed url)
      (h : URLParser.parse rawInput base none none = .url url) : Parsed url

/-! ## Components -/

variable {url : URL} {segment : List UInt8}

theorem noDots_iff_of_notMem (h : byte '/' ∉ segment) : NoDots segment ↔ ¬ IsDot segment := by
  unfold NoDots
  rw [splitOn_eq_singleton h]
  exact forall_mem_singleton

/-- The components of the path are those of its segments. -/
theorem splitOn_segments (start : List UInt8) (segments : List (List UInt8)) :
    (start ++ segments.flatMap fun segment => byte '/' :: segment).splitOn (byte '/') =
      start.splitOn (byte '/') ++ segments.flatMap fun segment => segment.splitOn (byte '/') := by
  induction segments generalizing start with
  | nil => simp
  | cons segment segments ih =>
    simp only [flatMap_cons, List.cons_append, splitOn_append_cons_self, ih segment]

theorem noDots_path_iff (h : url.cannotBeABaseUrl = false) :
    (∀ text ∈ url.path, NoDots text) ↔ ∀ segment ∈ url.paths, NoDots segment := by
  have hpath : url.path = some ([] ++ url.paths.flatMap fun segment => byte '/' :: segment) := by
    unfold path
    rw [h, if_neg Bool.false_ne_true, nil_append]
  have hnil : ¬ IsDot [] := by decide
  rw [hpath]
  simp only [Option.mem_def, Option.some.injEq, forall_eq', NoDots, splitOn_segments,
    splitOn_nil, singleton_append, forall_mem_cons, mem_flatMap]
  constructor
  · intro hall segment hsegment component hcomponent
    exact hall.2 component ⟨segment, hsegment, hcomponent⟩
  · intro hall
    refine ⟨hnil, fun component hcomponent => ?_⟩
    obtain ⟨segment, hsegment, hmem⟩ := hcomponent
    exact hall segment hsegment component hmem

end URL

variable {c : Nat} {b : UInt8} {cs : List Nat} {out text : List UInt8}

namespace URLParser

open Foundation URL

/-! ## What is decoded -/

/-- What is appended for a code point outside ASCII is outside ASCII. -/
theorem large_of_mem_appended (h : 0x80 ≤ c) (hb : b ∈ appendedCodePoint c) : ¬ b < 0x80 := by
  have hmem : ∀ bytes : List UInt8, b ∈ bytes → b < 0x80 → b.toNat ∈ codePoints bytes := by
    intro bytes hbytes hlt
    induction bytes with
    | nil => cases hbytes
    | cons b' bytes ih =>
      cases mem_cons.mp hbytes with
      | inl heq =>
        subst heq
        rw [codePoints, codePointAt_ascii hlt]
        exact mem_cons_self
      | inr hrest => exact mem_cons_of_mem _ (ih hrest)
  intro hlt
  obtain ⟨large, hcodes, hlarge⟩ := codePoints_appended_large h []
  simp only [append_nil, codePoints] at hcodes
  have hle := hlarge b.toNat (hcodes ▸ hmem _ hb hlt)
  have : b.toNat < 0x80 := hlt
  omega

/-- A byte of ASCII that decoding begins with is a code point, or escaped. -/
theorem decoded_eq_cons (hb : b < 0x80) (h : decoded cs = b :: out) :
    (∃ rest, cs = b.toNat :: rest ∧ decoded rest = out) ∨
      ∃ high low rest, cs = 0x25 :: high :: low :: rest ∧ hexByte high low = some b ∧
        decoded rest = out := by
  cases cs with
  | nil => cases h
  | cons c cs =>
    cases hescape : escape c cs with
    | none =>
      rw [decoded_code hescape] at h
      by_cases hc : c < 0x80
      · obtain ⟨b', hb', rfl⟩ := exists_byte hc
        rw [appendedCodePoint_ascii hb', singleton_append, List.cons.injEq] at h
        exact .inl ⟨cs, by rw [h.1], h.2⟩
      · obtain ⟨b', bytes, hbytes⟩ := exists_cons_of_ne_nil (appendedCodePoint_ne_nil c)
        rw [hbytes, List.cons_append, List.cons.injEq] at h
        have hmem : b ∈ appendedCodePoint c := by
          rw [hbytes, h.1]
          exact mem_cons_self
        exact absurd hb (large_of_mem_appended (Nat.le_of_not_lt hc) hmem)
    | some b' =>
      obtain ⟨rfl, high, low, rest, rfl, hbyte⟩ := escape_eq_some hescape
      rw [decoded_escaped hbyte, List.cons.injEq] at h
      exact .inr ⟨high, low, rest, rfl, h.1 ▸ hbyte, h.2⟩

theorem decoded_eq_nil (h : decoded cs = []) : cs = [] := by
  cases cs with
  | nil => rfl
  | cons c cs =>
    cases hescape : escape c cs with
    | none =>
      rw [decoded_code hescape] at h
      exact absurd (append_eq_nil_iff.mp h).1 (appendedCodePoint_ne_nil c)
    | some b =>
      obtain ⟨rfl, high, low, rest, rfl, hbyte⟩ := escape_eq_some hescape
      rw [decoded_escaped hbyte] at h
      cases h

/-- The code points of the hexadecimal digits. -/
def digitCodes : List Nat := (List.range 0x80).filter isAsciiHexDigit

theorem mem_digitCodes (h : isAsciiHexDigit c = true) : c ∈ digitCodes :=
  mem_filter.mpr ⟨mem_range.mpr (isAsciiHexDigit_lt h), h⟩

theorem digits_of_hexByte {high low : Nat} (h : hexByte high low = some b) :
    (b = byte '.' → high = 0x32 ∧ (low = 0x65 ∨ low = 0x45)) ∧
      (b = byte '/' → high = 0x32 ∧ (low = 0x66 ∨ low = 0x46)) := by
  have hdots : ∀ high ∈ digitCodes, ∀ low ∈ digitCodes, hexByte high low = some (byte '.') →
      high = 0x32 ∧ (low = 0x65 ∨ low = 0x45) := by decide
  have hslashes : ∀ high ∈ digitCodes, ∀ low ∈ digitCodes, hexByte high low = some (byte '/') →
      high = 0x32 ∧ (low = 0x66 ∨ low = 0x46) := by decide
  obtain ⟨hhigh, hlow⟩ := hexByte_isHex h
  have hhigh := mem_digitCodes hhigh
  have hlow := mem_digitCodes hlow
  exact ⟨fun hdot => hdots high hhigh low hlow (hdot ▸ h),
    fun hslash => hslashes high hhigh low hlow (hslash ▸ h)⟩

/-- A text that begins with a dot, escaped or not. -/
def BeginsWithDot (text rest : List UInt8) : Prop :=
  text = byte '.' :: rest ∨ text = byte '%' :: byte '2' :: byte 'e' :: rest ∨
    text = byte '%' :: byte '2' :: byte 'E' :: rest

theorem beginsWithDot_of_decoded (htext : Text text cs) (h : decoded cs = byte '.' :: out) :
    ∃ rest cs', BeginsWithDot text rest ∧ Text rest cs' ∧ decoded cs' = out := by
  cases decoded_eq_cons (by decide) h with
  | inl hcode =>
    obtain ⟨cs', rfl, hout⟩ := hcode
    generalize hc : (byte '.').toNat = c at htext
    cases htext with
    | @plain b rest _ hb hrest =>
      have heq : b = byte '.' := UInt8.toNat_inj.mp hc.symm
      exact ⟨rest, cs', .inl (by rw [heq]), hrest, hout⟩
    | @encoded _ encoding rest _ hencoding _ _ hrest =>
      rw [← hc] at hencoding
      cases hencoding
      exact ⟨rest, cs', .inr (.inr rfl), hrest, hout⟩
  | inr hescaped =>
    obtain ⟨high, low, cs', rfl, hbyte, hout⟩ := hescaped
    obtain ⟨hhigh, hlow⟩ := hexByte_isHex hbyte
    obtain ⟨b₀, text₁, rfl, -, hb₀, h₁⟩ := htext.eq_plain (.inl rfl)
    obtain ⟨b₁, text₂, rfl, -, hb₁, h₂⟩ := h₁.eq_plain (.inr hhigh)
    obtain ⟨b₂, rest, rfl, -, hb₂, hrest⟩ := h₂.eq_plain (.inr hlow)
    obtain ⟨rfl, hletter⟩ := (digits_of_hexByte hbyte).1 rfl
    have hpercent : b₀ = byte '%' := UInt8.toNat_inj.mp hb₀
    have htwo : b₁ = byte '2' := UInt8.toNat_inj.mp hb₁
    refine ⟨rest, cs', .inr ?_, hrest, hout⟩
    rw [hpercent, htwo]
    cases hletter with
    | inl hsmall =>
      have he : b₂ = byte 'e' := UInt8.toNat_inj.mp (hb₂.trans hsmall)
      exact .inl (by rw [he])
    | inr hcapital =>
      have he : b₂ = byte 'E' := UInt8.toNat_inj.mp (hb₂.trans hcapital)
      exact .inr (by rw [he])

theorem not_isDot_decoded (htext : Text text cs) (hdouble : isDoubleDotPathSegment text = false)
    (hsingle : isSingleDotPathSegment text = false) : ¬ IsDot (decoded cs) := by
  intro hdot
  cases hdot with
  | inl hone =>
    obtain ⟨rest, cs', hbegins, hrest, hout⟩ := beginsWithDot_of_decoded htext hone
    rw [decoded_eq_nil hout] at hrest
    cases hrest
    obtain rfl | rfl | rfl := hbegins
    · exact absurd hsingle (by decide)
    · exact absurd hsingle (by decide)
    · exact absurd hsingle (by decide)
  | inr htwo =>
    obtain ⟨text', cs', hbegins, htext', hone⟩ := beginsWithDot_of_decoded htext htwo
    obtain ⟨rest, cs'', hbegins', hrest, hout⟩ := beginsWithDot_of_decoded htext' hone
    rw [decoded_eq_nil hout] at hrest
    cases hrest
    obtain rfl | rfl | rfl := hbegins' <;> obtain rfl | rfl | rfl := hbegins <;>
      exact absurd hdouble (by decide)

/-- The input escapes a slash. -/
def EncodesSlash (input : List UInt8) : Prop :=
  [0x25, 0x32, 0x66] <:+: codePoints input ∨ [0x25, 0x32, 0x46] <:+: codePoints input

instance (input : List UInt8) : Decidable (EncodesSlash input) :=
  inferInstanceAs (Decidable (_ ∨ _))

theorem slash_of_decoded (h : byte '/' ∈ decoded cs) :
    0x2F ∈ cs ∨ [0x25, 0x32, 0x66] <:+: cs ∨ [0x25, 0x32, 0x46] <:+: cs := by
  induction cs using escapeInduction with
  | nil => cases h
  | code c rest hescape ih =>
    rw [decoded_code hescape] at h
    cases mem_append.mp h with
    | inl hmem =>
      by_cases hc : c < 0x80
      · obtain ⟨b, hb, rfl⟩ := exists_byte hc
        rw [appendedCodePoint_ascii hb, mem_singleton] at hmem
        rw [← hmem]
        exact .inl mem_cons_self
      · exact absurd (by decide) (large_of_mem_appended (Nat.le_of_not_lt hc) hmem)
    | inr hmem =>
      have hinfix : rest <:+: c :: rest := (suffix_cons c rest).isInfix
      exact (ih hmem).imp (mem_cons_of_mem c)
        (Or.imp (fun hsmall => hsmall.trans hinfix) fun hcapital => hcapital.trans hinfix)
  | escaped high low rest b hbyte ih =>
    rw [decoded_escaped hbyte] at h
    cases mem_cons.mp h with
    | inl hslash =>
      obtain ⟨rfl, hlow⟩ := (digits_of_hexByte hbyte).2 hslash.symm
      refine .inr (hlow.imp ?_ ?_)
      · rintro rfl
        exact (prefix_append [0x25, 0x32, 0x66] rest).isInfix
      · rintro rfl
        exact (prefix_append [0x25, 0x32, 0x46] rest).isInfix
    | inr hmem =>
      have hinfix : rest <:+: 0x25 :: high :: low :: rest :=
        (suffix_append [0x25, high, low] rest).isInfix
      exact (ih hmem).imp
        (fun hslash => (mem_append_right [0x25, high, low] hslash))
        (Or.imp (fun hsmall => hsmall.trans hinfix) fun hcapital => hcapital.trans hinfix)

/-! ## Segments -/

variable {input : List UInt8} {base : Option URL} {url : URL}

theorem drive_not_isDot {a : UInt8} (halpha : isAsciiAlpha a.toNat = true) : ¬ IsDot [a, b] := by
  intro hdot
  cases hdot with
  | inl hone => cases hone
  | inr htwo =>
    obtain ⟨rfl, -⟩ := cons_eq_cons.mp htwo
    exact absurd halpha (by decide)

theorem closed_not_isDot (hbase : ∀ url ∈ base, Fine (fun segment => ¬ IsDot segment) url) :
    Closed (fun segment => ¬ IsDot segment) input base where
  nil := by decide
  base := hbase
  drive := fun _ _ halpha _ => drive_not_isDot halpha
  segment := fun _ _ htext _ _ hdouble hsingle => not_isDot_decoded htext hdouble hsingle

/-- No segment that `parse` stores is a dot. -/
theorem fine_of_parsed (h : Parsed url) : Fine (fun segment => ¬ IsDot segment) url := by
  induction h with
  | parse _ hparse ih => exact fine_of_parse (fun _ _ => closed_not_isDot ih) hparse

theorem closed_noDots (hbase : ∀ url ∈ base, Fine NoDots url) (hinput : ¬ EncodesSlash input) :
    Closed NoDots input base where
  nil := by decide
  base := hbase
  drive := by
    intro a b halpha hsign
    refine (noDots_iff_of_notMem ?_).mpr (drive_not_isDot halpha)
    refine not_mem_cons_of_ne_of_not_mem ?_ ?_
    · rintro rfl
      exact absurd halpha (by decide)
    · refine not_mem_cons_of_ne_of_not_mem ?_ not_mem_nil
      cases hsign with
      | inl hcolon => exact hcolon ▸ by decide
      | inr hbar => exact hbar ▸ by decide
  segment := by
    intro text cs htext hinfix hslash hdouble hsingle
    refine (noDots_iff_of_notMem fun hmem => ?_).mpr (not_isDot_decoded htext hdouble hsingle)
    cases slash_of_decoded hmem with
    | inl hcode => exact hslash hcode
    | inr hescaped =>
      exact hinput (hescaped.imp (fun hsmall => hsmall.trans hinfix)
        fun hcapital => hcapital.trans hinfix)

/-- A URL of the host `h`. -/
def pathOnHost (paths : List (List UInt8)) : URL :=
  { URL.new with
    valid := true
    scheme := some http
    host := some (literal ['h'])
    paths := paths }

end URLParser

end Literate.AK

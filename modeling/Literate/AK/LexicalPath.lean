import Literate.Foundation.Walks
import Literate.AK.StringUtils

/-!
# AK: lexical paths

`LexicalPath` of `AK/LexicalPath.cpp`, as far as a URL is made from one: the canonical
string, whether it is absolute, and its parts.  The names that are cut out of the string
besides (`dirname`, `basename`, `title`, `extension`) are left out.
-/

namespace Literate.AK

open Foundation List

/-- `split_view` of a `String` or `StringView`, without the empty parts. -/
def splitView (separator : UInt8) (input : List UInt8) : List (List UInt8) :=
  (input.splitOn separator).filter fun part => !part.isEmpty

/-- There is nothing to split off when there are separators only. -/
theorem splitView_eq_nil_iff {separator : UInt8} {input : List UInt8} :
    splitView separator input = [] ↔ ∀ b ∈ input, b = separator := by
  unfold splitView
  induction input with
  | nil => simp
  | cons b input ih =>
    rw [splitOn_cons_eq_if_modifyHead]
    cases hb : b == separator with
    | true =>
      rw [if_pos rfl, filter_cons_of_neg (by simp), ih]
      simp [beq_iff_eq.mp hb]
    | false =>
      rw [if_neg (by simp)]
      obtain ⟨part, parts, hsplit⟩ :=
        exists_cons_of_ne_nil (splitOn_ne_nil separator input)
      rw [hsplit, modifyHead_cons, filter_cons_of_pos (by simp)]
      simp [beq_eq_false_iff_ne.mp hb]

theorem mem_splitView {separator : UInt8} {input part : List UInt8}
    (h : part ∈ splitView separator input) : part ≠ [] ∧ separator ∉ part := by
  obtain ⟨hmem, hpart⟩ := mem_filter.mp h
  refine ⟨?_, ?_⟩
  · rintro rfl
    cases hpart
  · clear h hpart
    induction input generalizing part with
    | nil =>
      rw [splitOn_nil, mem_singleton] at hmem
      subst hmem
      exact not_mem_nil
    | cons b input ih =>
      rw [splitOn_cons_eq_if_modifyHead] at hmem
      obtain ⟨first, parts, hsplit⟩ :=
        exists_cons_of_ne_nil (splitOn_ne_nil separator input)
      rw [hsplit] at ih hmem
      split at hmem
      · cases mem_cons.mp hmem with
        | inl hpart => exact hpart ▸ not_mem_nil
        | inr hpart => exact ih hpart
      · next hb =>
        rw [modifyHead_cons] at hmem
        cases mem_cons.mp hmem with
        | inl hpart =>
          rw [hpart]
          exact not_mem_cons_of_ne_of_not_mem
            (fun heq => hb (beq_iff_eq.mpr heq.symm)) (ih mem_cons_self)
        | inr hpart => exact ih (mem_cons_of_mem _ hpart)

/-- What the constructor keeps of a path. -/
structure LexicalPath where
  string : List UInt8
  parts : List (List UInt8)
  deriving DecidableEq, Repr

namespace LexicalPath

def slash : UInt8 := byte '/'
def dot : List UInt8 := [byte '.']
def dotDot : List UInt8 := [byte '.', byte '.']

/-- The body of the loop of `canonicalized_path` over the parts. -/
def canonicalStep (isAbsolute : Bool) (canonicalParts : List (List UInt8)) (part : List UInt8) :
    List (List UInt8) :=
  if part = dot then canonicalParts
  else if part = dotDot then
    if canonicalParts.isEmpty then
      -- At the root, `..` does nothing.
      if isAbsolute then canonicalParts else canonicalParts ++ [part]
    else if canonicalParts.getLast? ≠ some dotDot then canonicalParts.dropLast
    else canonicalParts ++ [part]
  else canonicalParts ++ [part]

/-- `canonicalized_path`, of a path that may be null. -/
def canonicalizedPath : Option (List UInt8) → Option (List UInt8)
  | none => none
  | some path =>
    if path.isEmpty then some dot
    else if ¬ (byte '.' ∈ path) ∧ ¬ ([slash, slash] <:+: path) ∧ path.getLast? ≠ some slash then
      some path
    else
      let isAbsolute := path.head? == some slash
      let canonicalParts := (splitView slash path).foldl (canonicalStep isAbsolute) []
      let canonicalParts :=
        if canonicalParts.isEmpty ∧ isAbsolute = false then [dot] else canonicalParts
      some ((if isAbsolute then [slash] else []) ++ [slash].intercalate canonicalParts)

/-- The constructor. -/
def ofPath (path : Option (List UInt8)) : LexicalPath :=
  let string := (canonicalizedPath path).getD []
  if string.isEmpty then { string := dot, parts := [] }
  else { string := string, parts := splitView slash string }

def isAbsolute (path : LexicalPath) : Bool := path.string.head? == some slash

/-! ## The canonical string -/

theorem canonicalStep_eq (isAbsolute : Bool) (parts : List (List UInt8)) (part : List UInt8) :
    canonicalStep isAbsolute parts part =
      if part ≠ dot then reduceStep dotDot isAbsolute parts part else parts := by
  rw [canonicalStep, reduceStep]
  by_cases hdot : part = dot
  · rw [if_pos hdot, if_neg (not_not.mpr hdot)]
  · rw [if_neg hdot, if_pos hdot]
    by_cases hdotDot : part = dotDot
    · simp only [if_pos hdotDot]
      cases parts with
      | nil => cases isAbsolute <;> simp [hdotDot]
      | cons first parts =>
        by_cases hlast : (first :: parts).getLast? = some dotDot
        · simp [hlast, hdotDot]
        · simp [hlast]
    · simp only [if_neg hdotDot]

theorem mem_canonicalStep {isAbsolute : Bool} {canonicalParts : List (List UInt8)}
    {part other : List UInt8} (h : other ∈ canonicalStep isAbsolute canonicalParts part) :
    other ∈ canonicalParts ∨ other = part := by
  rw [canonicalStep_eq] at h
  split at h
  · exact mem_reduceStep h
  · exact .inl h

/-- A canonical path is the root or has a name in it. -/
theorem canonicalizedPath_spec {path string : List UInt8}
    (h : canonicalizedPath (some path) = some string) :
    string = [slash] ∨ ∃ b ∈ string, b ≠ slash := by
  rw [canonicalizedPath] at h
  split at h
  · cases h
    exact .inr ⟨byte '.', mem_singleton_self _, by decide⟩
  next hempty =>
  split at h
  · next hcanonical =>
    cases h
    have hne : path ≠ [] := fun heq => hempty (heq ▸ rfl)
    refine .inr ⟨path.getLast hne, getLast_mem hne, fun hlast => ?_⟩
    exact hcanonical.2.2 (by rw [List.getLast?_eq_some_getLast hne, hlast])
  · dsimp only at h
    generalize (path.head? == some slash) = isAbsolute at h
    cases hparts : (splitView slash path).foldl (canonicalStep isAbsolute) [] with
    | nil =>
      rw [hparts] at h
      cases isAbsolute with
      | true =>
        cases h
        exact .inl rfl
      | false =>
        cases h
        exact .inr ⟨byte '.', mem_singleton_self _, by decide⟩
    | cons part parts =>
      have hmem : part ∈ [] ∨ part ∈ splitView slash path :=
        mem_foldl mem_canonicalStep (hparts ▸ mem_cons_self)
      obtain ⟨hne, hslash⟩ := mem_splitView (hmem.resolve_left not_mem_nil)
      obtain ⟨b, hb⟩ := exists_mem_of_ne_nil part hne
      simp only [hparts, isEmpty_cons, Bool.false_eq_true, false_and, if_false] at h
      cases h
      refine .inr ⟨b, mem_append_right _ ?_, fun heq => hslash (heq ▸ hb)⟩
      cases parts with
      | nil => simpa [List.intercalate] using hb
      | cons other parts => simp [List.intercalate, hb]

/-- The assertion of the constructor: only the root has no parts. -/
theorem parts_eq_nil_iff {path : List UInt8} :
    (ofPath (some path)).parts = [] ↔ (ofPath (some path)).string = [slash] := by
  obtain ⟨string, hstring⟩ : ∃ string, canonicalizedPath (some path) = some string := by
    rw [canonicalizedPath]
    split
    · exact ⟨_, rfl⟩
    · split <;> exact ⟨_, rfl⟩
  have hspec := canonicalizedPath_spec hstring
  have hne : string.isEmpty = false := by
    cases hspec with
    | inl hroot => exact hroot ▸ rfl
    | inr hname =>
      obtain ⟨b, hb, -⟩ := hname
      cases string with
      | nil => cases hb
      | cons _ _ => rfl
  unfold ofPath
  rw [hstring, Option.getD_some]
  dsimp only
  rw [hne, if_neg Bool.false_ne_true, splitView_eq_nil_iff]
  constructor
  · intro hall
    cases hspec with
    | inl hroot => exact hroot
    | inr hname =>
      obtain ⟨b, hb, hslash⟩ := hname
      exact absurd (hall b hb) hslash
  · intro hroot b hb
    exact mem_singleton.mp (hroot ▸ hb)

end LexicalPath

end Literate.AK

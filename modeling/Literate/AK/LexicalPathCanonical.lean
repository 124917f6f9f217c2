import Literate.AK.LexicalPath
import Literate.AK.StringSplit

/-!
# AK: canonical paths

What `canonicalized_path` of `AK/LexicalPath.cpp` returns.  Its loop reduces the parts of the
path (`Foundation.reduceStep`), and the path that it returns at once is the one that the loop
would make of it.
-/

namespace Literate.AK

open Foundation List

namespace LexicalPath

/-- `path[0] == '/'`. -/
def startsAtRoot (path : List UInt8) : Bool := path.head? == some slash

/-! ## Resolving a path -/

/-- Where a component leads to from a directory: an empty one and `.` stay there. -/
def resolveStep (directory : List (List UInt8)) (component : List UInt8) : List (List UInt8) :=
  if component = [] ∨ component = dot then directory
  else if component = dotDot then directory.dropLast
  else directory ++ [component]

/-- The place that a path names, looked up component by component from a directory. -/
def resolve (directory : List (List UInt8)) (path : List UInt8) : List (List UInt8) :=
  (path.splitOn slash).foldl resolveStep (if startsAtRoot path then [] else directory)

/-- The parts of a path that lead anywhere. -/
def names (path : List UInt8) : List (List UInt8) :=
  (splitView slash path).filter fun part => part ≠ dot

/-- A path of such parts. -/
def written (isAbsolute : Bool) (parts : List (List UInt8)) : List UInt8 :=
  (if isAbsolute then [slash] else []) ++
    [slash].intercalate (if parts.isEmpty ∧ isAbsolute = false then [dot] else parts)

/-- The names of a path without those that `..` crosses out. -/
def canonicalParts (path : List UInt8) : List (List UInt8) :=
  (names path).foldl (reduceStep dotDot (startsAtRoot path)) []

variable {path part : List UInt8} {parts : List (List UInt8)}

theorem resolve_eq (directory : List (List UInt8)) (path : List UInt8) : resolve directory path =
      walk dotDot (if startsAtRoot path then [] else directory) (names path) := by
  rw [resolve, walk, names, splitView, List.filter_filter, foldl_filter]
  refine congrArg (fun step => List.foldl step _ (path.splitOn slash)) ?_
  funext directory component
  cases component with
  | nil => rfl
  | cons b component =>
    by_cases hdot : b :: component = dot
    · rw [resolveStep, if_pos (.inr hdot)]
      simp [hdot]
    · rw [resolveStep, if_neg (by simp [hdot]), walkStep]
      simp [hdot]

/-! ## The loop -/

theorem foldl_canonicalStep (path : List UInt8) :
    (splitView slash path).foldl (canonicalStep (startsAtRoot path)) [] = canonicalParts path := by
  rw [canonicalParts, names, foldl_filter]
  refine congrArg (fun step => List.foldl step [] (splitView slash path)) ?_
  funext parts part
  rw [canonicalStep_eq]
  simp

theorem mem_names (h : part ∈ names path) : part ≠ [] ∧ slash ∉ part ∧ part ≠ dot := by
  obtain ⟨hmem, hdot⟩ := mem_filter.mp h
  obtain ⟨hne, hslash⟩ := mem_splitView hmem
  exact ⟨hne, hslash, of_decide_eq_true hdot⟩

theorem mem_canonicalParts (h : part ∈ canonicalParts path) :
    part ≠ [] ∧ slash ∉ part ∧ part ≠ dot :=
  mem_names ((mem_foldl mem_reduceStep h).resolve_left not_mem_nil)

theorem reduced_canonicalParts (path : List UInt8) :
    Reduced dotDot (startsAtRoot path) (canonicalParts path) :=
  reduced_nil.foldl _

/-! ## Texts with and without empty components -/

/-- The first component is empty when nothing stands before a slash. -/
theorem head_splitOn (path : List UInt8) : ∃ first rest, path.splitOn slash = first :: rest ∧
    (first = [] ↔ path = [] ∨ path.head? = some slash) := by
  cases path with
  | nil => exact ⟨[], [], splitOn_nil _, by simp⟩
  | cons b path =>
    rw [splitOn_cons_eq_if_modifyHead]
    by_cases hb : b = slash
    · rw [if_pos (beq_iff_eq.mpr hb)]
      exact ⟨[], _, rfl, by simp [hb]⟩
    · obtain ⟨first, rest, hsplit⟩ :=
        exists_cons_of_ne_nil (splitOn_ne_nil slash path)
      rw [if_neg (mt beq_iff_eq.mp hb), hsplit, modifyHead_cons]
      exact ⟨b :: first, rest, rfl, by simp [hb]⟩

/-- All components but the first are names exactly when no two slashes follow each other and
none is at the end. -/
theorem tail_splitOn_iff (path : List UInt8) :
    [] ∉ (path.splitOn slash).tail ↔ ¬ [slash, slash] <:+: path ∧ path.getLast? ≠ some slash := by
  induction path with
  | nil => simp
  | cons b path ih =>
    have hinfix : ([slash, slash] <:+: b :: path) ↔
        (b = slash ∧ path.head? = some slash) ∨ [slash, slash] <:+: path := by
      rw [infix_cons_iff, cons_prefix_cons, eq_comm]
      cases path with
      | nil => simp
      | cons next path =>
        rw [cons_prefix_cons, and_iff_left nil_prefix, List.head?_cons,
          Option.some.injEq, @eq_comm _ slash next]
    have hlast : (b :: path).getLast? = some slash ↔
        (b = slash ∧ path = []) ∨ path.getLast? = some slash := by
      cases path <;> simp
    obtain ⟨first, rest, hsplit, hfirst⟩ := head_splitOn path
    rw [hsplit, tail_cons] at ih
    rw [splitOn_cons_eq_if_modifyHead, hinfix, ne_eq, hlast, hsplit]
    by_cases hb : b = slash
    · rw [if_pos (beq_iff_eq.mpr hb), tail_cons, mem_cons, eq_comm, hfirst]
      simp only [hb, true_and]
      tauto
    · rw [if_neg (mt beq_iff_eq.mp hb), modifyHead_cons, tail_cons, ih]
      simp [hb]

/-! ## What is written -/

section

variable (isAbsolute : Bool)

theorem splitOn_written (hparts : ∀ part ∈ parts, slash ∉ part) :
    (written isAbsolute parts).splitOn slash =
      if isAbsolute then [] :: (if parts.isEmpty then [[]] else parts)
      else if parts.isEmpty then [dot] else parts := by
  have hjoined : parts ≠ [] → ([slash].intercalate parts).splitOn slash = parts :=
    splitOn_intercalate slash hparts
  cases isAbsolute with
  | true =>
    have hslash : ∀ text : List UInt8, (slash :: text).splitOn slash = [] :: text.splitOn slash :=
      fun text => by rw [splitOn_cons_eq_if_modifyHead, if_pos (beq_self_eq_true _)]
    cases parts with
    | nil => rfl
    | cons first parts =>
      show (slash :: [slash].intercalate (first :: parts)).splitOn slash = _
      rw [hslash, hjoined (cons_ne_nil _ _)]
      rfl
  | false =>
    cases parts with
    | nil => rfl
    | cons first parts => exact hjoined (cons_ne_nil _ _)

theorem startsAtRoot_written
    (hparts : ∀ part ∈ parts, part ≠ [] ∧ slash ∉ part ∧ part ≠ dot) :
    startsAtRoot (written isAbsolute parts) = isAbsolute := by
  cases isAbsolute with
  | true => rfl
  | false =>
    cases parts with
    | nil => rfl
    | cons first parts =>
      obtain ⟨hne, hslash, -⟩ := hparts first mem_cons_self
      obtain ⟨b, first, rfl⟩ := exists_cons_of_ne_nil hne
      have hb : b ≠ slash := fun heq => hslash (heq ▸ mem_cons_self)
      have hhead : (written false ((b :: first) :: parts)).head? = some b := by cases parts <;> rfl
      rw [startsAtRoot, hhead]
      exact beq_eq_false_iff_ne.mpr fun heq => hb (Option.some.inj heq)

theorem names_written
    (hparts : ∀ part ∈ parts, part ≠ [] ∧ slash ∉ part ∧ part ≠ dot) :
    names (written isAbsolute parts) = parts := by
  have hkept : (parts.filter fun part => !part.isEmpty).filter (fun part => part ≠ dot) = parts := by
    rw [List.filter_filter, filter_eq_self]
    intro part hpart
    obtain ⟨hne, -, hdot⟩ := hparts part hpart
    simp [hne, hdot]
  rw [names, splitView, splitOn_written isAbsolute fun part hpart => (hparts part hpart).2.1]
  cases parts with
  | nil => cases isAbsolute <;> rfl
  | cons first parts =>
    cases isAbsolute with
    | true => exact hkept
    | false => exact hkept

theorem canonicalParts_written
    (hparts : ∀ part ∈ parts, part ≠ [] ∧ slash ∉ part ∧ part ≠ dot)
    (hreduced : Reduced dotDot isAbsolute parts) :
    canonicalParts (written isAbsolute parts) = parts := by
  rw [canonicalParts, names_written isAbsolute hparts, startsAtRoot_written isAbsolute hparts]
  exact Reduced.foldl_append (nil_append parts ▸ hreduced)

end

/-! ## The canonical path -/

theorem mem_of_mem_splitOn {component : List UInt8} {b : UInt8}
    (hcomponent : component ∈ path.splitOn slash) (hb : b ∈ component) : b ∈ path := by
  induction path generalizing component with
  | nil =>
    rw [splitOn_nil, mem_singleton] at hcomponent
    exact hcomponent ▸ hb
  | cons c path ih =>
    obtain ⟨first, rest, hsplit⟩ := exists_cons_of_ne_nil (splitOn_ne_nil slash path)
    rw [hsplit] at ih
    rw [splitOn_cons_eq_if_modifyHead, hsplit] at hcomponent
    split at hcomponent
    · cases mem_cons.mp hcomponent with
      | inl hnil =>
        rw [hnil] at hb
        cases hb
      | inr hmem => exact mem_cons_of_mem c (ih hmem hb)
    · rw [modifyHead_cons] at hcomponent
      cases mem_cons.mp hcomponent with
      | inl hfirst =>
        rw [hfirst, mem_cons] at hb
        exact mem_cons.mpr (hb.imp_right (ih mem_cons_self))
      | inr hmem => exact mem_cons_of_mem c (ih (mem_cons_of_mem _ hmem) hb)

theorem canonicalParts_of_plain (hdots : byte '.' ∉ path) :
    canonicalParts path = splitView slash path := by
  have hplain : ∀ part ∈ splitView slash path, byte '.' ∉ part := fun part hpart hmem =>
    hdots (mem_of_mem_splitOn (mem_of_mem_filter hpart) hmem)
  have hnames : names path = splitView slash path := by
    refine filter_eq_self.mpr fun part hpart => decide_eq_true ?_
    rintro rfl
    exact hplain dot hpart mem_cons_self
  have hreduced : Reduced dotDot (startsAtRoot path) (names path) :=
    ⟨0, names path, rfl, fun hmem => hplain dotDot (hnames ▸ hmem) mem_cons_self, fun _ => rfl⟩
  rw [canonicalParts, ← hnames]
  exact Reduced.foldl_append (nil_append (names path) ▸ hreduced)

/-- A path without dots, empty components and a slash at its end is written of its names. -/
theorem written_of_plain (hne : path ≠ []) (hdots : byte '.' ∉ path)
    (hslashes : ¬ [slash, slash] <:+: path) (hlast : path.getLast? ≠ some slash) :
    written (startsAtRoot path) (canonicalParts path) = path := by
  obtain ⟨first, rest, hsplit, hfirst⟩ := head_splitOn path
  have hrest := (tail_splitOn_iff path).mpr ⟨hslashes, hlast⟩
  have hpath := @intercalate_splitOn _ path _ _ slash
  rw [hsplit] at hrest hpath
  rw [tail_cons] at hrest
  have hkept : rest.filter (fun part => !part.isEmpty) = rest := by
    refine filter_eq_self.mpr fun part hpart => ?_
    have hpartNe : part ≠ [] := fun heq => hrest (heq ▸ hpart)
    simp [hpartNe]
  rw [canonicalParts_of_plain hdots, splitView, hsplit]
  by_cases hnil : first = []
  · have hroot : startsAtRoot path = true := beq_iff_eq.mpr ((hfirst.mp hnil).resolve_left hne)
    subst hnil
    rw [filter_cons_of_neg (by simp), hkept, hroot]
    cases rest with
    | nil => exact absurd hpath.symm hne
    | cons next rest => exact hpath
  · have hroot : startsAtRoot path = false :=
      Bool.eq_false_iff.mpr fun h => hnil (hfirst.mpr (.inr (beq_iff_eq.mp h)))
    rw [filter_cons_of_pos (by simp [hnil]), hkept, hroot]
    exact hpath

/-- Any path becomes what is written of its canonical parts. -/
theorem canonicalizedPath_eq (path : List UInt8) :
    canonicalizedPath (some path) = some (written (startsAtRoot path) (canonicalParts path)) := by
  rw [canonicalizedPath]
  split
  · next hempty =>
    obtain rfl := List.isEmpty_iff.mp hempty
    rfl
  next hempty =>
  split
  · next hplain =>
    rw [written_of_plain (mt List.isEmpty_iff.mpr hempty) hplain.1 hplain.2.1 hplain.2.2]
  · rw [← foldl_canonicalStep, written]
    rfl

/-- What is written of reduced names is free of what a canonical path is free of. -/
theorem written_spec (isAbsolute : Bool)
    (hparts : ∀ part ∈ parts, part ≠ [] ∧ slash ∉ part ∧ part ≠ dot)
    (hreduced : Reduced dotDot isAbsolute parts) : ¬ [slash, slash] <:+: written isAbsolute parts ∧
    (written isAbsolute parts ≠ [slash] → (written isAbsolute parts).getLast? ≠ some slash) ∧
    (written isAbsolute parts ≠ dot → dot ∉ (written isAbsolute parts).splitOn slash) ∧
    Reduced dotDot isAbsolute ((written isAbsolute parts).splitOn slash) := by
  have hsplit := splitOn_written isAbsolute fun part hpart => (hparts part hpart).2.1
  have hslashes := tail_splitOn_iff (written isAbsolute parts)
  have hdot : dot ∉ parts := fun hmem => (hparts dot hmem).2.2 rfl
  have hempty : [] ∉ parts := fun hmem => (hparts [] hmem).1 rfl
  by_cases hnil : parts = []
  · subst hnil
    cases isAbsolute with
    | true => exact ⟨by decide, fun h => absurd rfl h, fun _ => by decide, 0, _, rfl, by decide,
        fun _ => rfl⟩
    | false => exact ⟨by decide, fun _ => by decide, fun h => absurd rfl h, 0, _, rfl, by decide,
        fun _ => rfl⟩
  · rw [List.isEmpty_eq_false_iff.mpr hnil, if_neg Bool.false_ne_true] at hsplit
    rw [hsplit] at hslashes ⊢
    cases isAbsolute with
    | true =>
      obtain ⟨hdouble, htrailing⟩ := hslashes.mp hempty
      refine ⟨hdouble, fun _ => htrailing, fun _ => ?_, 0, [] :: parts, rfl, ?_, fun _ => rfl⟩
      · exact not_mem_cons_of_ne_of_not_mem (by decide) hdot
      · exact not_mem_cons_of_ne_of_not_mem (by decide) hreduced.not_mem
    | false =>
      obtain ⟨hdouble, htrailing⟩ := hslashes.mp (mt mem_of_mem_tail hempty)
      exact ⟨hdouble, fun _ => htrailing, fun _ => hdot, hreduced⟩

theorem canonicalizedPath_written (isAbsolute : Bool)
    (hparts : ∀ part ∈ parts, part ≠ [] ∧ slash ∉ part ∧ part ≠ dot)
    (hreduced : Reduced dotDot isAbsolute parts) :
    canonicalizedPath (some (written isAbsolute parts)) = some (written isAbsolute parts) := by
  rw [canonicalizedPath_eq, startsAtRoot_written _ hparts, canonicalParts_written _ hparts hreduced]

/-- What a canonical path is, and that it names what `path` does. -/
structure IsCanonicalForm (path canonical : List UInt8) : Prop where
  idempotent : canonicalizedPath (some canonical) = some canonical
  absolute : startsAtRoot canonical = startsAtRoot path
  noDoubleSlash : ¬ [slash, slash] <:+: canonical
  noTrailingSlash : canonical ≠ [slash] → canonical.getLast? ≠ some slash
  noDot : canonical ≠ dot → dot ∉ canonical.splitOn slash
  leadingDotDot : Reduced dotDot (startsAtRoot canonical) (canonical.splitOn slash)
  sameLocation : ∀ directory, resolve directory canonical = resolve directory path

end LexicalPath

end Literate.AK

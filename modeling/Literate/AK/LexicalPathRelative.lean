import Literate.AK.LexicalPathCanonical

/-!
# AK: relative paths

`join`, `absolute_path` and `relative_path` of `AK/LexicalPath.h` and `AK/LexicalPath.cpp`.
`none` is a failed assertion.
-/

namespace Literate.AK

open Foundation List Option

namespace LexicalPath

/-- `join` of two parts. -/
def join (first rest : List UInt8) : LexicalPath := ofPath (some (first ++ [slash] ++ rest))

def absolutePath (dirPath target : List UInt8) : Option (List UInt8) :=
  if (ofPath (some target)).isAbsolute then canonicalizedPath (some target)
  else canonicalizedPath (some (join dirPath target).string)

/-- `substring_view` from `start` on. -/
def substringFrom (text : List UInt8) (start : Nat) : Option (List UInt8) :=
  if start ≤ text.length then some (text.drop start) else none

/-- `relative_path` of two canonical paths. -/
def relativeCanonical (path base : List UInt8) : Option (List UInt8) :=
  if path = base then some dot
  else if base = [slash] then substringFrom path 1
  else if base.isPrefixOf path then
    path[base.length]?.bind fun ch =>
      if ch = slash then substringFrom path (base.length + 1) else some path
  else some path

def relativePath (aPath aPrefix : List UInt8) : Option (List UInt8) :=
  if !startsAtRoot aPath || !startsAtRoot aPrefix then some []
  else if aPath = aPrefix then some dot
  else
    (canonicalizedPath (some aPath)).bind fun path =>
      (canonicalizedPath (some aPrefix)).bind fun base => relativeCanonical path base

variable {path target dirPath rest : List UInt8} {parts : List (List UInt8)}

/-! ## Joining -/

theorem string_ofPath (path : List UInt8) :
    (ofPath (some path)).string = written (startsAtRoot path) (canonicalParts path) := by
  have hne : (written (startsAtRoot path) (canonicalParts path)).isEmpty = false := by
    rw [List.isEmpty_eq_false_iff]
    cases canonicalizedPath_spec (canonicalizedPath_eq path) with
    | inl hroot => exact hroot ▸ cons_ne_nil _ _
    | inr hname =>
      obtain ⟨b, hb, -⟩ := hname
      exact ne_nil_of_mem hb
  rw [ofPath, canonicalizedPath_eq, getD_some, hne]
  rfl

theorem isAbsolute_ofPath (path : List UInt8) :
    (ofPath (some path)).isAbsolute = startsAtRoot path := by
  rw [isAbsolute, string_ofPath]
  exact startsAtRoot_written _ fun part hpart => mem_canonicalParts hpart

/-- The names of two paths with a slash between them. -/
theorem names_append (front rest : List UInt8) :
    names (front ++ slash :: rest) = names front ++ names rest := by
  rw [names, splitView, splitOn_append_cons_self, filter_append, filter_append]
  rfl

section

variable (hdir : startsAtRoot dirPath = true)

include hdir

/-- From a directory at the root a target leads on from there, or from the root. -/
theorem absolutePath_eq (target : List UInt8) : absolutePath dirPath target =
      some (written true (if startsAtRoot target then canonicalParts target
        else (names target).foldl (reduceStep dotDot true) (canonicalParts dirPath))) := by
  rw [absolutePath, isAbsolute_ofPath]
  cases htarget : startsAtRoot target with
  | true => rw [if_pos rfl, if_pos rfl, canonicalizedPath_eq, htarget]
  | false =>
    have hroot : startsAtRoot (dirPath ++ [slash] ++ target) = true := by
      cases dirPath with
      | nil => cases hdir
      | cons b dirPath => exact hdir
    have hparts : canonicalParts (dirPath ++ [slash] ++ target) =
        (names target).foldl (reduceStep dotDot true) (canonicalParts dirPath) := by
      rw [canonicalParts, hroot, List.append_assoc, singleton_append, names_append,
        List.foldl_append, canonicalParts, hdir]
    have hreduced := reduced_canonicalParts (dirPath ++ [slash] ++ target)
    rw [hroot] at hreduced
    rw [if_neg Bool.false_ne_true, if_neg Bool.false_ne_true, join, string_ofPath, hroot,
      canonicalizedPath_written true (fun part hpart => mem_canonicalParts hpart) hreduced, hparts]

/-! ## There and back -/

/-- A target that leads from the directory to the parts. -/
theorem absolutePath_of_append
    (hpath : startsAtRoot path = true) (htarget : startsAtRoot target = false)
    (hparts : canonicalParts path = canonicalParts dirPath ++ names target) :
    absolutePath dirPath target = canonicalizedPath (some path) := by
  have hreduced := reduced_canonicalParts path
  rw [hpath, hparts] at hreduced
  rw [absolutePath_eq hdir, htarget, if_neg Bool.false_ne_true, hreduced.foldl_append, ← hparts,
    canonicalizedPath_eq, hpath]

theorem absolutePath_dot (hpath : startsAtRoot path = true)
    (hparts : canonicalParts path = canonicalParts dirPath) :
    absolutePath dirPath dot = canonicalizedPath (some path) :=
  absolutePath_of_append hdir hpath rfl (hparts.trans (append_nil _).symm)

end

theorem absolutePath_relativeCanonical {aPath aPrefix : List UInt8}
    (hpath : startsAtRoot aPath = true) (hbase : startsAtRoot aPrefix = true) :
    (relativeCanonical (written true (canonicalParts aPath))
      (written true (canonicalParts aPrefix))).bind (absolutePath aPrefix) =
        canonicalizedPath (some aPath) := by
  have hpathParts : ∀ part ∈ canonicalParts aPath, part ≠ [] ∧ slash ∉ part ∧ part ≠ dot :=
    fun _ hpart => mem_canonicalParts hpart
  have hbaseParts : ∀ part ∈ canonicalParts aPrefix, part ≠ [] ∧ slash ∉ part ∧ part ≠ dot :=
    fun _ hpart => mem_canonicalParts hpart
  have hnames := names_written true hpathParts
  have hbaseNames := names_written true hbaseParts
  have hreduced := reduced_canonicalParts aPath
  rw [hpath] at hreduced
  have hself : absolutePath aPrefix (written true (canonicalParts aPath)) =
      canonicalizedPath (some aPath) := by
    rw [absolutePath_eq hbase, startsAtRoot_written true hpathParts, if_pos rfl,
      canonicalParts_written true hpathParts hreduced, canonicalizedPath_eq, hpath]
  rw [relativeCanonical]
  split
  · next heq =>
    refine absolutePath_dot hbase hpath ?_
    rw [← hnames, heq, hbaseNames]
  next hne =>
  split
  · next hroot =>
    -- the path without its first slash
    have hnil : canonicalParts aPrefix = [] := by
      rw [← hbaseNames, hroot]
      rfl
    have hsome : canonicalParts aPath ≠ [] := fun heq => hne (by rw [heq, hnil])
    have hdrop : (written true (canonicalParts aPath)).drop 1 =
        written false (canonicalParts aPath) := by
      simp only [written, List.isEmpty_eq_false_iff.mpr hsome]
      rfl
    have hlength : 1 ≤ (written true (canonicalParts aPath)).length := Nat.succ_pos _
    rw [substringFrom, if_pos hlength, hdrop]
    refine absolutePath_of_append hbase hpath (startsAtRoot_written false hpathParts) ?_
    rw [names_written false hpathParts, hnil, nil_append]
  split
  · next hisPrefix =>
    obtain ⟨rest, hrest⟩ := isPrefixOf_iff_prefix.mp hisPrefix
    have hget : (written true (canonicalParts aPath))[
        (written true (canonicalParts aPrefix)).length]? = rest.head? := by
      rw [← hrest, ← List.head?_drop, drop_left]
    rw [hget]
    cases rest with
    | nil => exact absurd (hrest.symm.trans (append_nil _)) hne
    | cons ch rest =>
      rw [List.head?_cons, bind_some]
      split
      · next hch =>
        subst hch
        have hlength : (written true (canonicalParts aPrefix)).length + 1 ≤
            (written true (canonicalParts aPath)).length := by
          rw [← hrest, length_append, length_cons]
          omega
        have hdrop : (written true (canonicalParts aPath)).drop
            ((written true (canonicalParts aPrefix)).length + 1) = rest := by
          rw [← hrest, ← drop_drop, drop_left, drop_one, tail_cons]
        have hrelative : startsAtRoot rest = false := by
          refine Bool.eq_false_iff.mpr fun hroot => ?_
          -- two slashes would follow each other
          refine (written_spec true hpathParts hreduced).1 ?_
          obtain ⟨text, rfl⟩ := List.head?_eq_some_iff.mp (beq_iff_eq.mp hroot)
          exact ⟨written true (canonicalParts aPrefix), text, by rw [← hrest]; simp⟩
        rw [substringFrom, if_pos hlength, hdrop]
        refine absolutePath_of_append hbase hpath hrelative ?_
        rw [← hnames, ← hrest, names_append, hbaseNames]
      · exact hself
  · exact hself

end LexicalPath

end Literate.AK

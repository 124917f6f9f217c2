import Mathlib.Data.List.Perm.Basic
import Mathlib.Data.List.Nodup

/-!
# Foundation: association lists with distinct keys

The entries of a map in the order in which it happens to iterate.  As long as the keys are
distinct, what is found under a key does not depend on that order.
-/

namespace Literate.Foundation

open List

variable {κ τ : Type*}

/-- No two entries have one key. -/
def DistinctKeys (entries : List (κ × τ)) : Prop := (entries.map Prod.fst).Nodup

variable {entries entries' : List (κ × τ)} {key key' : κ}

theorem distinctKeys_cons {entry : κ × τ} :
    DistinctKeys (entry :: entries) ↔ entry.1 ∉ entries.map Prod.fst ∧ DistinctKeys entries :=
  nodup_cons

theorem DistinctKeys.perm (h : DistinctKeys entries) (hperm : entries'.Perm entries) :
    DistinctKeys entries' :=
  ((hperm.map Prod.fst).nodup_iff).mpr h

variable [DecidableEq κ]

theorem lookup_cons_of_ne (h : key ≠ key') (value : τ) (entries : List (κ × τ)) :
    ((key', value) :: entries).lookup key = entries.lookup key := by
  rw [lookup_cons, beq_eq_false_iff_ne.mpr h]

theorem mem_of_lookup {value : τ} (h : entries.lookup key = some value) :
    (key, value) ∈ entries := by
  obtain ⟨before, after, rfl, -⟩ := lookup_eq_some_iff.mp h
  simp

theorem lookup_eq_some_iff_mem (h : DistinctKeys entries) {value : τ} :
    entries.lookup key = some value ↔ (key, value) ∈ entries := by
  refine ⟨mem_of_lookup, fun hmem => ?_⟩
  induction entries with
  | nil => cases hmem
  | cons entry entries ih =>
    obtain ⟨hfresh, hrest⟩ := distinctKeys_cons.mp h
    rcases mem_cons.mp hmem with rfl | hmem
    · exact lookup_cons_self
    · have hne : key ≠ entry.1 := by
        rintro rfl
        exact hfresh (List.mem_map.mpr ⟨_, hmem, rfl⟩)
      rw [← ih hrest hmem]
      exact lookup_cons_of_ne hne entry.2 entries

theorem lookup_eq_none_iff_not_mem : entries.lookup key = none ↔ key ∉ entries.map Prod.fst := by
  rw [lookup_eq_none_iff, List.mem_map]
  constructor
  · rintro h ⟨entry, hentry, rfl⟩
    simpa using h entry hentry
  · intro h entry hentry
    exact bne_iff_ne.mpr fun heq => h ⟨entry, hentry, heq.symm⟩

theorem lookup_perm (h : DistinctKeys entries) (hperm : entries'.Perm entries) (key : κ) :
    entries'.lookup key = entries.lookup key := by
  refine Option.ext fun value => ?_
  rw [lookup_eq_some_iff_mem h, lookup_eq_some_iff_mem (h.perm hperm), hperm.mem_iff]

theorem lookup_map (entries : List (κ × τ)) {υ : Type*} (f : τ → υ) (key : κ) :
    (entries.map fun entry => (entry.1, f entry.2)).lookup key = (entries.lookup key).map f := by
  induction entries with
  | nil => rfl
  | cons entry entries ih =>
    rw [map_cons, lookup_cons, lookup_cons, ih]
    split <;> rfl

/-- The value of a key is replaced in place. -/
def replaceKey (entries : List (κ × τ)) (key : κ) (value : τ) : List (κ × τ) :=
  entries.map fun entry => if entry.1 = key then (entry.1, value) else entry

@[simp] theorem keys_replaceKey (entries : List (κ × τ)) (key : κ) (value : τ) :
    (replaceKey entries key value).map Prod.fst = entries.map Prod.fst := by
  rw [replaceKey, List.map_map]
  refine map_congr_left fun entry _ => ?_
  rw [Function.comp_apply]
  split <;> rfl

theorem lookup_replaceKey_of_ne (entries : List (κ × τ)) (h : key' ≠ key) (value : τ) :
    (replaceKey entries key value).lookup key' = entries.lookup key' := by
  induction entries with
  | nil => rfl
  | cons entry entries ih =>
    rw [replaceKey, map_cons, lookup_cons, lookup_cons, ← replaceKey, ih]
    by_cases hkey : entry.1 = key
    · have hne : (key' == entry.1) = false := by simpa [hkey] using h
      rw [if_pos hkey, hne]
    · rw [if_neg hkey]

theorem lookup_replaceKey_self {old : τ} (h : entries.lookup key = some old) (value : τ) :
    (replaceKey entries key value).lookup key = some value := by
  induction entries with
  | nil => cases h
  | cons entry entries ih =>
    rw [replaceKey, map_cons, lookup_cons, ← replaceKey]
    by_cases hkey : entry.1 = key
    · rw [if_pos hkey, hkey, beq_self_eq_true]
    · have hne : key ≠ entry.1 := fun heq => hkey heq.symm
      rw [if_neg hkey, beq_eq_false_iff_ne.mpr hne]
      exact ih ((lookup_cons_of_ne hne entry.2 entries).symm.trans h)

end Literate.Foundation

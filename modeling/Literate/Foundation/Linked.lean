import Mathlib.Data.List.Basic
import Mathlib.Data.List.Nodup
import Mathlib.Logic.Function.Basic

/-!
# Foundation: singly linked lists in a heap

`Linked next p l` says that following `next` from the pointer `p` visits exactly
the nodes of `l`, in that order, and then meets the null pointer.  The list is
determined by the heap and the pointer, and it never visits a node twice: a chain
that ends is acyclic.
-/

namespace Literate.Foundation

open Function List
open Function (update)

variable {ν : Type*}

/-- The nodes visited from `p` are those of the list, and the last one's link is
null. -/
def Linked (next : ν → Option ν) : Option ν → List ν → Prop
  | p, [] => p = none
  | p, a :: l => p = some a ∧ Linked next (next a) l

namespace Linked

variable {next : ν → Option ν} {p : Option ν} {a : ν} {l : List ν}

@[simp] theorem nil_iff : Linked next p [] ↔ p = none := Iff.rfl

@[simp] theorem cons_iff : Linked next p (a :: l) ↔ p = some a ∧ Linked next (next a) l := Iff.rfl

theorem none_iff : Linked next none l ↔ l = [] := by
  cases l <;> simp [Linked]

/-- A non-null head is the list's first node. -/
theorem some_iff : Linked next (some a) l ↔ ∃ t, l = a :: t ∧ Linked next (next a) t := by
  cases l with
  | nil => simp
  | cons b t =>
    simp only [cons_iff, Option.some.injEq, List.cons.injEq]
    constructor
    · rintro ⟨rfl, h⟩
      exact ⟨t, ⟨rfl, rfl⟩, h⟩
    · rintro ⟨t', ⟨rfl, rfl⟩, h⟩
      exact ⟨rfl, h⟩

theorem unique {l' : List ν} (h : Linked next p l) (h' : Linked next p l') : l = l' := by
  induction l generalizing p l' with
  | nil => exact (none_iff.mp (nil_iff.mp h ▸ h')).symm
  | cons a l ih =>
    obtain ⟨rfl, h⟩ := h
    obtain ⟨t, rfl, ht⟩ := some_iff.mp h'
    rw [ih h ht]

theorem suffix {l₁ l₂ : List ν} (h : Linked next p (l₁ ++ a :: l₂)) :
    Linked next (some a) (a :: l₂) := by
  induction l₁ generalizing p with
  | nil => exact ⟨rfl, h.2⟩
  | cons b l₁ ih => exact ih h.2

/-- A chain that ends never visits a node twice. -/
theorem nodup (h : Linked next p l) : l.Nodup := by
  induction l generalizing p with
  | nil => exact nodup_nil
  | cons a l ih =>
    refine nodup_cons.mpr ⟨fun hmem => ?_, ih h.2⟩
    obtain ⟨l₁, l₂, rfl⟩ := append_of_mem hmem
    have heq : l₁ ++ a :: l₂ = l₂ := h.2.unique (suffix h.2).2
    have hlen := congrArg List.length heq
    simp only [length_append, length_cons] at hlen
    omega

/-- The list begins at the pointer. -/
theorem head?_eq (h : Linked next p l) : l.head? = p := by
  cases l with
  | nil => exact (nil_iff.mp h).symm
  | cons a l => exact h.1.symm

theorem congr {next' : ν → Option ν} (hnext : ∀ b ∈ l, next b = next' b) (h : Linked next p l) :
    Linked next' p l := by
  induction l generalizing p with
  | nil => exact h
  | cons b l ih =>
    refine ⟨h.1, ?_⟩
    rw [← hnext b mem_cons_self]
    exact ih (fun c hc => hnext c (mem_cons_of_mem b hc)) h.2

variable [DecidableEq ν]

/-- Writing the link of a node outside the list leaves the list as it was. -/
theorem update_of_notMem (ha : a ∉ l) (v : Option ν) (h : Linked next p l) :
    Linked (update next a v) p l := by
  refine h.congr fun b hb => ?_
  have hne : b ≠ a := fun hba => ha (hba ▸ hb)
  rw [update_of_ne hne]

/-- What comes behind a node is replaced. -/
theorem relink {before after after' : List ν} {q : Option ν}
    (h : Linked next p (before ++ a :: after)) (hafter : Linked (update next a q) q after') :
    Linked (update next a q) p (before ++ a :: after') := by
  have hnodup := h.nodup
  induction before generalizing p with
  | nil => exact ⟨h.1, by rwa [update_self]⟩
  | cons c before ih =>
    obtain ⟨hc, hnodup⟩ := nodup_cons.mp hnodup
    have hca : c ≠ a := fun hca => hc (hca ▸ mem_append_right before mem_cons_self)
    refine ⟨h.1, ?_⟩
    rw [update_of_ne hca]
    exact ih h.2 hnodup

/-- Linking a node behind another, in front of what followed that one. -/
theorem insert {before after : List ν} {b : ν} (h : Linked next p (before ++ a :: after))
    (hb : b ∉ before ++ a :: after) : Linked (update (update next b (next a)) a (some b)) p
      (before ++ a :: b :: after) := by
  have hba : b ≠ a := fun hba => hb (hba ▸ mem_append_right before mem_cons_self)
  have hbafter : b ∉ after := fun hmem =>
    hb (mem_append_right before (mem_cons_of_mem a hmem))
  have hsuffix := h.suffix
  have haafter : a ∉ after := (nodup_cons.mp hsuffix.nodup).1
  refine (h.update_of_notMem hb (next a)).relink ⟨rfl, ?_⟩
  rw [update_of_ne hba, update_self]
  exact (hsuffix.2.update_of_notMem hbafter _).update_of_notMem haafter _

/-- Linking past a node. -/
theorem skip {before after : List ν} {b : ν} (h : Linked next p (before ++ a :: b :: after)) :
    Linked (update next a (next b)) p (before ++ a :: after) := by
  have hsuffix := h.suffix
  have ha := (nodup_cons.mp hsuffix.nodup).1
  exact h.relink (hsuffix.2.2.update_of_notMem (fun hmem => ha (mem_cons_of_mem b hmem)) _)

omit [DecidableEq ν] in
/-- The link of a node is the node that follows it. -/
theorem next_getElem {k : Nat} (h : Linked next p l) (ha : l[k]? = some a) : next a = l[k + 1]? := by
  induction l generalizing p k with
  | nil => cases ha
  | cons b l ih =>
    cases k with
    | zero =>
      obtain rfl := Option.some.inj ha
      rw [List.getElem?_cons_succ, ← List.head?_eq_getElem?]
      exact h.2.head?_eq.symm
    | succ k => exact ih h.2 ha

/-- Linking a node behind the last one. -/
theorem concat {b : ν} (h : Linked next p (l ++ [a])) (hb : b ∉ l ++ [a]) (hnext : next b = none) :
    Linked (update next a (some b)) p (l ++ [a] ++ [b]) := by
  have hba : b ≠ a := fun hba => hb (hba ▸ mem_append_right l mem_cons_self)
  have hnodup := h.nodup
  induction l generalizing p with
  | nil =>
    refine ⟨h.1, ?_, ?_⟩
    · rw [update_self]
    · rw [update_of_ne hba]
      exact hnext
  | cons c l ih =>
    obtain ⟨hc, hnodup⟩ := nodup_cons.mp hnodup
    refine ⟨h.1, ?_⟩
    have hca : c ≠ a := fun hca => hc (hca ▸ mem_append_right l mem_cons_self)
    rw [update_of_ne hca]
    exact ih h.2 (fun hmem => hb (mem_cons_of_mem c hmem)) hnodup

/-- Linking a node in front of the list. -/
theorem push (ha : a ∉ l) (h : Linked next p l) : Linked (update next a p) (some a) (a :: l) :=
  ⟨rfl, by rw [update_self]; exact h.update_of_notMem ha p⟩

end Linked

end Literate.Foundation

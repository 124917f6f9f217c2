import Mathlib.Data.List.Nodup
import Mathlib.Data.List.Pairwise
import Mathlib.Data.List.Perm.Basic

/-!
# Foundation: finite maps from classes to their representatives

A list of elements no two of which are equivalent is a finite map: the class of an element is
mapped to the element of the list that is in it.  Adding an element, exchanging one for an
equivalent one, taking one away and filtering the list are operations on the map.
-/

namespace Literate.Foundation

open List

variable {α : Type*} {r : α → α → Bool} {l l' before after : List α} {a b v w : α}

/-- No two elements of a list are equivalent. -/
abbrev Inequivalent (r : α → α → Bool) (l : List α) : Prop :=
  l.Pairwise fun a b => r a b = false ∧ r b a = false

/-- The element of a list that is equivalent to another one. -/
def representative (r : α → α → Bool) (l : List α) (v : α) : Option α := l.find? (r v)

theorem representative_eq_none_iff : representative r l v = none ↔ ∀ a ∈ l, r v a = false := by
  rw [representative, List.find?_eq_none]
  exact forall₂_congr fun a _ => Bool.not_eq_true (r v a) ▸ Iff.rfl

theorem representative_congr (hr : Equivalence fun a b => r a b = true) (h : r v w = true) :
    representative r l v = representative r l w := by
  have hsame : r v = r w := funext fun a => Bool.eq_iff_iff.mpr
    ⟨fun hva => hr.trans (hr.symm h) hva, fun hwa => hr.trans h hwa⟩
  simp only [representative, hsame]

/-- Equivalent elements of such a list are the same. -/
theorem Inequivalent.eq_of_equivalent (h : Inequivalent r l) (ha : a ∈ l) (hb : b ∈ l)
    (hab : r a b = true) : a = b := by
  have hsymm : Std.Symm fun a b => r a b = false ∧ r b a = false :=
    ⟨fun _ _ hab => ⟨hab.2, hab.1⟩⟩
  by_contra hne
  exact Bool.noConfusion (hab.symm.trans (List.Pairwise.forall h ha hb hne).1)

theorem Inequivalent.perm (h : Inequivalent r l) (hperm : l'.Perm l) : Inequivalent r l' :=
  hperm.symm.pairwise h fun hab => ⟨hab.2, hab.1⟩

section

variable (hr : Equivalence fun a b => r a b = true)

include hr

theorem representative_eq_some_iff
    (h : Inequivalent r l) : representative r l v = some a ↔ a ∈ l ∧ r v a = true := by
  constructor
  · intro hfind
    exact ⟨List.mem_of_find?_eq_some hfind, List.find?_some hfind⟩
  · rintro ⟨ha, hva⟩
    cases hfind : representative r l v with
    | none =>
      rw [representative_eq_none_iff] at hfind
      exact Bool.noConfusion ((hfind a ha).symm.trans hva)
    | some b =>
      have hvb : r v b = true := List.find?_some hfind
      rw [h.eq_of_equivalent (List.mem_of_find?_eq_some hfind) ha (hr.trans (hr.symm hvb) hva)]

/-- The elements of the list are those that represent themselves. -/
theorem representative_self_iff (h : Inequivalent r l) : representative r l v = some v ↔ v ∈ l := by
  rw [representative_eq_some_iff hr h, and_iff_left (hr.refl v)]

theorem representative_perm (h : Inequivalent r l)
    (hperm : l'.Perm l) (v : α) : representative r l' v = representative r l v := by
  ext a
  rw [representative_eq_some_iff hr h, representative_eq_some_iff hr (h.perm hperm), hperm.mem_iff]

/-- One element represents its class. -/
theorem representative_middle
    (h : Inequivalent r (before ++ a :: after)) (v : α) :
    representative r (before ++ a :: after) v =
      if r v a = true then some a else representative r (before ++ after) v := by
  split_ifs with hva
  · exact (representative_eq_some_iff hr h).mpr
      ⟨mem_append_right before mem_cons_self, hva⟩
  · simp only [representative, List.find?_append, List.find?_cons_of_neg hva]

/-- An element is taken away. -/
theorem representative_erase
    (h : Inequivalent r (before ++ a :: after)) (v : α) : representative r (before ++ after) v =
      if r v a = true then none else representative r (before ++ a :: after) v := by
  rw [representative_middle hr h]
  split_ifs with hva
  · rw [representative_eq_none_iff]
    intro b hb
    rw [← Bool.not_eq_true]
    intro hvb
    have hmem : b ∈ before ++ a :: after := (mem_append.mp hb).elim
      (mem_append_left _) fun hafter => mem_append_right _ (mem_cons_of_mem a hafter)
    have hba := h.eq_of_equivalent hmem (mem_append_right before mem_cons_self)
      (hr.trans (hr.symm hvb) hva)
    have hnodup : (before ++ a :: after).Nodup := h.imp fun hab => by
      rintro rfl
      exact Bool.noConfusion (hab.1.symm.trans (hr.refl _))
    exact (nodup_cons.mp (nodup_middle.mp hnodup)).1 (hba ▸ hb)
  · rfl

theorem representative_filter (h : Inequivalent r l)
    (p : α → Bool) (v : α) : representative r (l.filter p) v = (representative r l v).filter p := by
  ext a
  rw [representative_eq_some_iff hr (h.filter p), mem_filter, Option.filter_eq_some_iff,
    representative_eq_some_iff hr h]
  exact and_right_comm

end

end Literate.Foundation

import Mathlib.Algebra.Group.Int.Defs
import Mathlib.Order.Defs.Unbundled
import Mathlib.Tactic.SplitIfs

/-!
# Foundation: rearranging a range

A list addressed by integers, and what is done to a range `lo ≤ i < hi` of it by exchanging
entries.  A range is in order for a strict weak order when no entry is less than an earlier
one; a range that is parted by a pivot is in order as soon as its two sides are.
-/

namespace Literate.Foundation

open List

variable {α : Type}

/-- The entry at a position, if there is one. -/
def entry (xs : List α) (i : Int) : Option α := if 0 ≤ i then xs[i.toNat]? else none

/-- Two entries are exchanged. -/
def exchange (xs : List α) (i j : Int) : Option (List α) := do
  let a ← entry xs i
  let b ← entry xs j
  return (xs.set i.toNat b).set j.toNat a

variable {xs ys zs : List α} {i j k lo hi lo' hi' mid : Int} {P Q : α → Prop} {a b : α}

theorem entry_eq_some : entry xs i = some a ↔ 0 ≤ i ∧ xs[i.toNat]? = some a := by
  unfold entry
  split_ifs with h
  · exact ⟨fun hat => ⟨h, hat⟩, And.right⟩
  · exact iff_of_false nofun fun hat => h hat.1

theorem exists_entry (hi : 0 ≤ i) (hlt : i < xs.length) : ∃ a, entry xs i = some a := by
  have hbound : i.toNat < xs.length := by omega
  exact ⟨xs[i.toNat], entry_eq_some.mpr ⟨hi, List.getElem?_eq_getElem hbound⟩⟩

/-- What an exchange does. -/
structure Exchanged (i j : Int) (xs ys : List α) : Prop where
  perm : ys.Perm xs
  left : entry ys i = entry xs j
  right : entry ys j = entry xs i
  other : ∀ k, k ≠ i → k ≠ j → entry ys k = entry xs k

theorem exists_exchange (hi : 0 ≤ i ∧ i < xs.length) (hj : 0 ≤ j ∧ j < xs.length) :
    ∃ ys, exchange xs i j = some ys ∧ Exchanged i j xs ys := by
  have hin : i.toNat < xs.length := by omega
  have hjn : j.toNat < xs.length := by omega
  have hia : entry xs i = some xs[i.toNat] :=
    entry_eq_some.mpr ⟨hi.1, List.getElem?_eq_getElem hin⟩
  have hjb : entry xs j = some xs[j.toNat] :=
    entry_eq_some.mpr ⟨hj.1, List.getElem?_eq_getElem hjn⟩
  refine ⟨(xs.set i.toNat xs[j.toNat]).set j.toNat xs[i.toNat], ?_, ?_⟩
  · rw [exchange, hia, hjb]
    rfl
  refine ⟨set_set_perm hin hjn, ?_, ?_, fun k hki hkj => ?_⟩
  · rw [hjb]
    refine entry_eq_some.mpr ⟨hi.1, ?_⟩
    by_cases hsame : i = j
    · subst hsame
      exact List.getElem?_set_self (by rw [length_set]; exact hin)
    · rw [List.getElem?_set_ne (by omega), List.getElem?_set_self hin]
  · rw [hia]
    exact entry_eq_some.mpr ⟨hj.1, List.getElem?_set_self (by rw [length_set]; exact hjn)⟩
  · unfold entry
    split_ifs with hk
    · rw [List.getElem?_set_ne (by omega), List.getElem?_set_ne (by omega)]
    · rfl

@[simp] theorem entry_natCast (xs : List α) (n : Nat) : entry xs n = xs[n]? := by
  rw [entry, if_pos (Int.natCast_nonneg n), Int.toNat_natCast]

/-- Only the range is rearranged, and what is in it comes from it. -/
structure Rearranges (lo hi : Int) (xs ys : List α) : Prop where
  perm : ys.Perm xs
  outside : ∀ i, i < lo ∨ hi ≤ i → entry ys i = entry xs i
  inside : ∀ i, lo ≤ i → i < hi → ∃ j, lo ≤ j ∧ j < hi ∧ entry ys i = entry xs j

namespace Rearranges

theorem refl (lo hi : Int) (xs : List α) : Rearranges lo hi xs xs :=
  ⟨.refl xs, fun _ _ => rfl, fun i hlo hhi => ⟨i, hlo, hhi, rfl⟩⟩

theorem trans (hxy : Rearranges lo hi xs ys) (hyz : Rearranges lo hi ys zs) :
    Rearranges lo hi xs zs where
  perm := hyz.perm.trans hxy.perm
  outside := fun i hi => (hyz.outside i hi).trans (hxy.outside i hi)
  inside := by
    intro i hlo hhi
    obtain ⟨j, hjlo, hjhi, hj⟩ := hyz.inside i hlo hhi
    obtain ⟨k, hklo, hkhi, hk⟩ := hxy.inside j hjlo hjhi
    exact ⟨k, hklo, hkhi, hj.trans hk⟩

theorem mono (h : Rearranges lo' hi' xs ys) (hlo : lo ≤ lo') (hhi : hi' ≤ hi) :
    Rearranges lo hi xs ys where
  perm := h.perm
  outside := fun i hi => h.outside i (by omega)
  inside := by
    intro i hilo hihi
    by_cases hin : lo' ≤ i ∧ i < hi'
    · obtain ⟨j, hjlo, hjhi, hj⟩ := h.inside i hin.1 hin.2
      exact ⟨j, by omega, by omega, hj⟩
    · exact ⟨i, hilo, hihi, h.outside i (by omega)⟩

theorem length_eq (h : Rearranges lo hi xs ys) : ys.length = xs.length := h.perm.length_eq

/-- What is before the end of the range is permuted. -/
theorem take_perm {n : Nat} (h : Rearranges lo n xs ys) : (ys.take n).Perm (xs.take n) := by
  have hdrop : ys.drop n = xs.drop n := by
    refine ext_getElem? fun k => ?_
    have hout := h.outside ((n + k : Nat) : Int) (.inr (by omega))
    simp only [entry_natCast] at hout
    simp only [List.getElem?_drop, hout]
  have hperm := h.perm
  rw [← take_append_drop n ys, ← take_append_drop n xs, hdrop] at hperm
  exact (perm_append_right_iff _).mp hperm

end Rearranges

theorem Exchanged.rearranges (h : Exchanged i j xs ys) (hi' : lo ≤ i ∧ i < hi)
    (hj : lo ≤ j ∧ j < hi) : Rearranges lo hi xs ys where
  perm := h.perm
  outside := fun k hk => h.other k (by omega) (by omega)
  inside := by
    intro k hlo hhi
    by_cases hki : k = i
    · exact ⟨j, hj.1, hj.2, hki ▸ h.left⟩
    by_cases hkj : k = j
    · exact ⟨i, hi'.1, hi'.2, hkj ▸ h.right⟩
    exact ⟨k, hlo, hhi, h.other k hki hkj⟩

/-! ## Properties of all entries of a range -/

/-- The entries of a range have a property. -/
def AllOn (P : α → Prop) (xs : List α) (lo hi : Int) : Prop :=
  ∀ i a, lo ≤ i → i < hi → entry xs i = some a → P a

namespace AllOn

theorem empty (h : hi ≤ lo) : AllOn P xs lo hi := by
  intro i a hlo hhi
  omega

theorem imp (h : AllOn P xs lo hi) (hPQ : ∀ a, P a → Q a) : AllOn Q xs lo hi :=
  fun i a hlo hhi hat => hPQ a (h i a hlo hhi hat)

theorem mono (h : AllOn P xs lo hi) (hlo : lo ≤ lo') (hhi : hi' ≤ hi) : AllOn P xs lo' hi' :=
  fun i a hilo hihi hat => h i a (by omega) (by omega) hat

/-- A property of a range is not lost where another range is rearranged, or a part of it. -/
theorem rearrange (h : AllOn P xs lo hi) (hxy : Rearranges lo' hi' xs ys)
    (hwhere : hi' ≤ lo ∨ hi ≤ lo' ∨ (lo ≤ lo' ∧ hi' ≤ hi)) : AllOn P ys lo hi := by
  intro i a hlo hhi hat
  by_cases hin : lo' ≤ i ∧ i < hi'
  · obtain ⟨j, hjlo, hjhi, hj⟩ := hxy.inside i hin.1 hin.2
    exact h j a (by omega) (by omega) (hj.symm.trans hat)
  · exact h i a hlo hhi ((hxy.outside i (by omega)).symm.trans hat)

/-- Two ranges with an entry between them. -/
theorem join (hleft : AllOn P xs lo mid) (hmid : ∀ a, entry xs mid = some a → P a)
    (hright : AllOn P xs (mid + 1) hi) : AllOn P xs lo hi := by
  intro i a hlo hhi hat
  rcases Int.lt_trichotomy i mid with hlt | heq | hgt
  · exact hleft i a hlo hlt hat
  · exact hmid a (heq ▸ hat)
  · exact hright i a (by omega) hhi hat

end AllOn

/-! ## Order -/

section

variable (lt : α → α → Prop)

/-- No entry of a range is less than an earlier one. -/
def OrderedOn (xs : List α) (lo hi : Int) : Prop :=
  ∀ i j a b, lo ≤ i → i < j → j < hi → entry xs i = some a → entry xs j = some b → ¬ lt b a

/-- The range is parted by the entry at a position of it. -/
structure Parted (xs : List α) (lo mid hi : Int) : Prop where
  lo_le : lo ≤ mid
  lt_hi : mid < hi
  pivot : ∃ p, entry xs mid = some p ∧ AllOn (fun a => ¬ lt p a) xs lo mid ∧
    AllOn (fun a => ¬ lt a p) xs (mid + 1) hi

end

variable {lt : α → α → Prop}

theorem OrderedOn.short (h : hi ≤ lo + 1) : OrderedOn lt xs lo hi := by
  intro i j a b hlo hij hhi
  omega

/-- The order of a range is not lost where another range is rearranged. -/
theorem OrderedOn.rearrange (h : OrderedOn lt xs lo hi) (hxy : Rearranges lo' hi' xs ys)
    (hwhere : hi' ≤ lo ∨ hi ≤ lo') : OrderedOn lt ys lo hi := by
  intro i j a b hlo hij hhi hi hj
  exact h i j a b hlo hij hhi ((hxy.outside i (by omega)).symm.trans hi)
    ((hxy.outside j (by omega)).symm.trans hj)

/-- A range stays parted where one of its sides or what is outside of it is rearranged. -/
theorem Parted.rearrange (h : Parted lt xs lo mid hi) (hxy : Rearranges lo' hi' xs ys)
    (hwhere : hi' ≤ lo ∨ hi ≤ lo' ∨ (lo ≤ lo' ∧ hi' ≤ mid) ∨ (mid < lo' ∧ hi' ≤ hi)) :
    Parted lt ys lo mid hi := by
  have hlo := h.lo_le
  have hhi := h.lt_hi
  obtain ⟨p, hp, hleft, hright⟩ := h.pivot
  exact ⟨hlo, hhi, p, (hxy.outside mid (by omega)).trans hp, hleft.rearrange hxy (by omega),
    hright.rearrange hxy (by omega)⟩

section

variable [IsStrictWeakOrder α lt]

/-- Not being less is transitive. -/
theorem not_lt_trans {c : α} (hab : ¬ lt b a) (hbc : ¬ lt c b) : ¬ lt c a := by
  intro hca
  have hirrefl := (inferInstance : Std.Irrefl lt).irrefl
  have htrans := (inferInstance : IsTrans α lt).trans
  by_cases hlt : lt a b
  · exact hbc (htrans c a b hca hlt)
  by_cases hlt' : lt b c
  · exact hab (htrans b c a hlt' hca)
  · exact (IsStrictWeakOrder.incomp_trans a b c ⟨hlt, hab⟩ ⟨hlt', hbc⟩).2 hca

theorem Parted.ordered (h : Parted lt xs lo mid hi) (hleft : OrderedOn lt xs lo mid)
    (hright : OrderedOn lt xs (mid + 1) hi) : OrderedOn lt xs lo hi := by
  obtain ⟨p, hp, hbelow, habove⟩ := h.pivot
  have hupto : ∀ i a, lo ≤ i → i ≤ mid → entry xs i = some a → ¬ lt p a := by
    intro i a hlo hle hat
    rcases Int.lt_or_eq_of_le hle with hlt | rfl
    · exact hbelow i a hlo hlt hat
    · cases hp.symm.trans hat
      exact (inferInstance : Std.Irrefl lt).irrefl p
  intro i j a b hlo hij hhi hi hj
  rcases Int.lt_trichotomy j mid with hjlt | rfl | hjgt
  · exact hleft i j a b hlo hij hjlt hi hj
  · cases hp.symm.trans hj
    exact hbelow i a hlo hij hi
  · by_cases him : mid < i
    · exact hright i j a b him hij hhi hi hj
    · exact not_lt_trans (hupto i a hlo (by omega) hi) (habove j b hjgt hhi hj)

end

/-- A range is brought into order. -/
structure Sorts (lt : α → α → Prop) (lo hi : Int) (xs ys : List α) : Prop where
  rearranges : Rearranges lo hi xs ys
  ordered : OrderedOn lt ys lo hi

end Literate.Foundation

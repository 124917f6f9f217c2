import Mathlib.Data.List.Lex
import Mathlib.Data.Set.Insert
import Mathlib.Order.Compare
import Mathlib.Order.WithBot
import Literate.AK.StringView

/-!
# AK: the order of string views

`StringView::compare` and the operators of `AK/StringView.h`.  A null view has no content and
comes before all others.  Of two views one of which continues the other `compare` says that
either comes after the other one.
-/

namespace Literate.AK

open List

/-- `__builtin_memcmp` up to the end of the shorter argument, of which only the sign is
known. -/
def memcmp : List UInt8 → List UInt8 → Int
  | a :: s, b :: t => if a = b then memcmp s t else if a < b then -1 else 1
  | _, _ => 0

namespace StringView

def compare (s other : StringView) : Int :=
  if s.characters = 0 then (if other.characters ≠ 0 then -1 else 0)
  else if other.characters = 0 then 1
  else
    let rlen := min s.length other.length
    let c := memcmp (s.bytes.take rlen) (other.bytes.take rlen)
    if c = 0 then
      if s.length < other.length then 1 else if s.length = other.length then 0 else 1
    else c

/-- `operator<`. -/
def lessThan (s other : StringView) : Bool := decide (s.compare other < 0)

/-- `operator<=`. -/
def lessEqual (s other : StringView) : Bool := decide (s.compare other ≤ 0)

/-- `operator>`. -/
def greaterThan (s other : StringView) : Bool := decide (0 < s.compare other)

/-- `operator>=`. -/
def greaterEqual (s other : StringView) : Bool := decide (0 ≤ s.compare other)

/-- The bytes of a view that is not null, in lexicographic order with nothing before them
all. -/
def content (s : StringView) : WithBot (List Nat) :=
  if s.characters = 0 then ⊥ else ((s.bytes.map UInt8.toNat : List Nat) : WithBot (List Nat))

/-- Among these views `compare` is the order of the contents, and the operators are a total
order on them. -/
structure OrdersContents (views : Set StringView) : Prop where
  compare_neg_iff : ∀ a ∈ views, ∀ b ∈ views, a.compare b < 0 ↔ a.content < b.content
  compare_zero_iff : ∀ a ∈ views, ∀ b ∈ views, a.compare b = 0 ↔ a.content = b.content
  compare_swap : ∀ a ∈ views, ∀ b ∈ views, a.compare b < 0 ↔ 0 < b.compare a
  lessEqual_total : ∀ a ∈ views, ∀ b ∈ views, a.lessEqual b = true ∨ b.lessEqual a = true
  lessEqual_antisymm : ∀ a ∈ views, ∀ b ∈ views, a.lessEqual b = true → b.lessEqual a = true →
    a.content = b.content
  lessEqual_trans : ∀ a ∈ views, ∀ b ∈ views, ∀ c ∈ views,
    a.lessEqual b = true → b.lessEqual c = true → a.lessEqual c = true
  lessThan_iff : ∀ a ∈ views, ∀ b ∈ views, a.lessThan b = true ↔ ¬ b.lessEqual a = true
  greaterThan_eq : ∀ a ∈ views, ∀ b ∈ views, a.greaterThan b = b.lessThan a
  greaterEqual_eq : ∀ a ∈ views, ∀ b ∈ views, a.greaterEqual b = b.lessEqual a

/-- The other view continues this one. -/
def IsContinuedBy (a b : StringView) : Prop :=
  a.characters ≠ 0 ∧ b.characters ≠ 0 ∧ a.bytes <+: b.bytes ∧ a.bytes ≠ b.bytes

/-! ## The comparison of bytes -/

theorem memcmp_take (a b : List UInt8) :
    memcmp (a.take (min a.length b.length)) (b.take (min a.length b.length)) = memcmp a b := by
  induction a generalizing b with
  | nil => cases b <;> rfl
  | cons x a ih =>
    cases b with
    | nil => rfl
    | cons y b => simp only [length_cons, Nat.add_min_add_right, take_succ_cons, memcmp, ih]

theorem memcmp_of_isPrefix {a b : List UInt8} (h : a <+: b) : memcmp a b = 0 := by
  induction a generalizing b with
  | nil => cases b <;> rfl
  | cons x a ih =>
    obtain ⟨rest, rfl⟩ := h
    rw [List.cons_append, memcmp, if_pos rfl]
    exact ih (prefix_append a rest)

theorem lt_of_isPrefix {l l' : List Nat} (h : l <+: l') (hne : l ≠ l') : l < l' := by
  obtain ⟨rest, rfl⟩ := h
  induction l with
  | nil =>
    cases rest with
    | nil => exact absurd rfl hne
    | cons n rest => exact nil_lt_cons n rest
  | cons m l ih =>
    refine cons_lt_cons_iff.mpr (.inr ⟨rfl, ih fun heq => hne ?_⟩)
    rw [List.cons_append, ← heq]

/-- The bytes are in order where they first differ, or one of the lists continues the
other. -/
theorem memcmp_cases (a b : List UInt8) : (memcmp a b < 0 ∧ a.map UInt8.toNat < b.map UInt8.toNat) ∨
      (0 < memcmp a b ∧ b.map UInt8.toNat < a.map UInt8.toNat) ∨
      (memcmp a b = 0 ∧ (a <+: b ∨ b <+: a)) := by
  induction a generalizing b with
  | nil => exact .inr (.inr ⟨memcmp_of_isPrefix nil_prefix, .inl nil_prefix⟩)
  | cons x a ih =>
    cases b with
    | nil => exact .inr (.inr ⟨rfl, .inr nil_prefix⟩)
    | cons y b =>
      simp only [memcmp, map_cons, cons_lt_cons_iff]
      by_cases heq : x = y
      · subst heq
        simp only [if_pos rfl, cons_prefix_cons]
        simpa using ih b
      · rw [if_neg heq]
        have hne : x.toNat ≠ y.toNat := fun h => heq (UInt8.toNat_inj.mp h)
        by_cases hlt : x < y
        · rw [if_pos hlt]
          exact .inl ⟨by decide, .inl (UInt8.lt_iff_toNat_lt.mp hlt)⟩
        · rw [if_neg hlt]
          have hle : ¬ x.toNat < y.toNat := mt UInt8.lt_iff_toNat_lt.mpr hlt
          exact .inr (.inl ⟨by decide, .inl (by omega)⟩)

/-! ## The comparison of views -/

variable {a b : StringView}

theorem content_of_null (h : a.characters = 0) : a.content = ⊥ := if_pos h

theorem content_of_not_null (h : a.characters ≠ 0) :
    a.content = ((a.bytes.map UInt8.toNat : List Nat) : WithBot (List Nat)) := if_neg h

theorem map_toNat_inj {l l' : List UInt8} : l.map UInt8.toNat = l'.map UInt8.toNat ↔ l = l' :=
  (map_injective_iff.mpr fun _ _ h => UInt8.toNat_inj.mp h).eq_iff

theorem compare_of_not_null (ha : a.characters ≠ 0) (hb : b.characters ≠ 0) : a.compare b =
      if memcmp a.bytes b.bytes = 0 then
        if a.length < b.length then 1 else if a.length = b.length then 0 else 1
      else memcmp a.bytes b.bytes := by
  rw [compare, if_neg ha, if_neg hb]
  simp only [StringView.length, memcmp_take]

theorem compare_of_isContinuedBy (h : a.IsContinuedBy b) :
    a.compare b = 1 ∧ a.content < b.content := by
  obtain ⟨ha, hb, hcontinues, hne⟩ := h
  have hlt : a.length < b.length := by
    refine Nat.lt_of_le_of_ne hcontinues.length_le fun hlength => hne ?_
    exact hcontinues.eq_of_length hlength
  rw [compare_of_not_null ha hb, if_pos (memcmp_of_isPrefix hcontinues), if_pos hlt,
    content_of_not_null ha, content_of_not_null hb, WithBot.coe_lt_coe]
  exact ⟨rfl, lt_of_isPrefix (hcontinues.map _) (mt map_toNat_inj.mp hne)⟩

section

variable (h : ¬ a.IsContinuedBy b)

include h

/-- Of all other views it says how they are ordered. -/
theorem compare_cases :
    (a.compare b < 0 ∧ a.content < b.content) ∨ (a.compare b = 0 ∧ a.content = b.content) ∨
      (0 < a.compare b ∧ b.content < a.content) := by
  by_cases ha : a.characters = 0
  · rw [compare, if_pos ha, content_of_null ha]
    by_cases hb : b.characters = 0
    · rw [if_neg (not_not.mpr hb), content_of_null hb]
      exact .inr (.inl ⟨rfl, rfl⟩)
    · rw [if_pos hb, content_of_not_null hb]
      exact .inl ⟨by decide, WithBot.bot_lt_coe _⟩
  by_cases hb : b.characters = 0
  · rw [compare, if_neg ha, if_pos hb, content_of_null hb, content_of_not_null ha]
    exact .inr (.inr ⟨by decide, WithBot.bot_lt_coe _⟩)
  simp only [compare_of_not_null ha hb, content_of_not_null ha, content_of_not_null hb,
    WithBot.coe_lt_coe, WithBot.coe_inj, map_toNat_inj]
  rcases memcmp_cases a.bytes b.bytes with ⟨hneg, hlt⟩ | ⟨hpos, hlt⟩ | ⟨hzero, hcontinues⟩
  · rw [if_neg (by omega)]
    exact .inl ⟨hneg, hlt⟩
  · rw [if_neg (by omega)]
    exact .inr (.inr ⟨hpos, hlt⟩)
  · rw [if_pos hzero]
    by_cases heq : a.bytes = b.bytes
    · have hlength : a.length = b.length := congrArg List.length heq
      rw [if_neg (by omega), if_pos hlength]
      exact .inr (.inl ⟨rfl, heq⟩)
    · have hback : b.bytes <+: a.bytes := hcontinues.resolve_left fun hcontinues =>
        h ⟨ha, hb, hcontinues, heq⟩
      have hlength : b.length < a.length := by
        refine Nat.lt_of_le_of_ne hback.length_le fun hlength => heq ?_
        exact (hback.eq_of_length hlength).symm
      rw [if_neg (by omega), if_neg (by omega)]
      exact .inr (.inr ⟨by decide, lt_of_isPrefix (hback.map _)
        fun hsame => heq (map_toNat_inj.mp hsame).symm⟩)

theorem compare_compares : (cmp (a.compare b) 0).Compares a.content b.content := by
  rcases compare_cases h with ⟨hneg, hlt⟩ | ⟨hzero, heq⟩ | ⟨hpos, hgt⟩
  · rw [cmp_eq_lt_iff _ _ |>.mpr hneg]
    exact hlt
  · rw [cmp_eq_eq_iff _ _ |>.mpr hzero]
    exact heq
  · rw [cmp_eq_gt_iff _ _ |>.mpr hpos]
    exact hgt

theorem compare_neg_iff : a.compare b < 0 ↔ a.content < b.content :=
  (cmp_eq_lt_iff _ _).symm.trans (compare_compares h).eq_lt

theorem compare_pos_iff : 0 < a.compare b ↔ b.content < a.content :=
  (cmp_eq_gt_iff _ _).symm.trans (compare_compares h).eq_gt

theorem compare_zero_iff : a.compare b = 0 ↔ a.content = b.content :=
  (cmp_eq_eq_iff _ _).symm.trans (compare_compares h).eq_eq

theorem lessEqual_iff : a.lessEqual b = true ↔ a.content ≤ b.content := by
  simp only [lessEqual, decide_eq_true_iff, ← not_lt, compare_pos_iff h]

end

/-- `compare` orders the contents of some views exactly when none of them continues
another. -/
theorem ordersContents_iff (views : Set StringView) :
    OrdersContents views ↔ ∀ a ∈ views, ∀ b ∈ views, ¬ a.IsContinuedBy b := by
  constructor
  · intro h a ha b hb hcontinued
    obtain ⟨hone, hlt⟩ := compare_of_isContinuedBy hcontinued
    have hneg := (h.compare_neg_iff a ha b hb).mpr hlt
    omega
  · intro h
    have hle : ∀ a ∈ views, ∀ b ∈ views, a.lessEqual b = true ↔ a.content ≤ b.content :=
      fun a ha b hb => lessEqual_iff (h a ha b hb)
    constructor
    · exact fun a ha b hb => compare_neg_iff (h a ha b hb)
    · exact fun a ha b hb => compare_zero_iff (h a ha b hb)
    · intro a ha b hb
      rw [compare_neg_iff (h a ha b hb), compare_pos_iff (h b hb a ha)]
    · intro a ha b hb
      rw [hle a ha b hb, hle b hb a ha]
      exact le_total _ _
    · intro a ha b hb hab hba
      exact le_antisymm ((hle a ha b hb).mp hab) ((hle b hb a ha).mp hba)
    · intro a ha b hb c hc hab hbc
      exact (hle a ha c hc).mpr (le_trans ((hle a ha b hb).mp hab) ((hle b hb c hc).mp hbc))
    · intro a ha b hb
      rw [hle b hb a ha, lessThan, decide_eq_true_iff, compare_neg_iff (h a ha b hb), not_le]
    · intro a ha b hb
      rw [greaterThan, lessThan, decide_eq_decide, compare_pos_iff (h a ha b hb),
        compare_neg_iff (h b hb a ha)]
    · intro a ha b hb
      simp only [greaterEqual, lessEqual, decide_eq_decide, ← not_lt, compare_neg_iff (h a ha b hb),
        compare_pos_iff (h b hb a ha)]

/-- `"a"` comes after `"ab"`, and `"ab"` after `"a"`. -/
theorem not_ordersContents_ab : ¬ OrdersContents
      {⟨1, [0x61], by decide, by decide⟩, ⟨1, [0x61, 0x62], by decide, by decide⟩} := by
  intro h
  have hswap := h.compare_swap _ (Set.mem_insert _ _) _ (Set.mem_insert_of_mem _ rfl)
  exact absurd (hswap.mpr (by decide)) (by decide)

end StringView

end Literate.AK

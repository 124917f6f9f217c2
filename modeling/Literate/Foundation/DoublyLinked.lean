import Literate.Foundation.Linked
import Mathlib.Logic.Equiv.Basic

/-!
# Foundation: doubly linked lists in a heap

A list with a head and a tail is a ring through the null pointer: the first node comes
behind null, and null behind the last node.  `following l` is what comes behind a
pointer, and backwards it is `following l.reverse`.  In this view a change at one node
is an update of the pointers to it, in either direction.
-/

namespace Literate.Foundation

open Function List Option
open Function (update)
open Equiv (swap)

variable {ν : Type*} [DecidableEq ν]

/-- What comes behind a pointer in a list. -/
def following : List ν → Option ν → Option ν
  | l, none => l.head?
  | [], some _ => none
  | a :: l, some x => if a = x then l.head? else following l (some x)

variable {l before after : List ν} {p : Option ν} {x y z : ν}

theorem following_none : following l none = l.head? := by
  cases l <;> rfl

theorem following_of_notMem (hx : x ∉ l) : following l (some x) = none := by
  induction l with
  | nil => rfl
  | cons a l ih =>
    rw [mem_cons, not_or] at hx
    rw [following, if_neg (Ne.symm hx.1), ih hx.2]

theorem mem_of_following (h : following l p = some y) : y ∈ l := by
  induction l generalizing p with
  | nil => cases p <;> cases h
  | cons a l ih =>
    cases p with
    | none => exact (some.inj h) ▸ mem_cons_self
    | some x =>
      rw [following] at h
      split_ifs at h with hax
      · exact mem_cons_of_mem a (List.mem_of_mem_head? h)
      · exact mem_cons_of_mem a (ih h)

/-- What comes behind a node. -/
theorem following_self (h : (before ++ y :: after).Nodup) :
    following (before ++ y :: after) (some y) = after.head? := by
  induction before with
  | nil => rw [nil_append, following, if_pos rfl]
  | cons a before ih =>
    rw [List.cons_append] at h ⊢
    obtain ⟨ha, hrest⟩ := nodup_cons.mp h
    have hne : a ≠ y := fun hay => ha (hay ▸ mem_append_right before mem_cons_self)
    rw [following, if_neg hne, ih hrest]

/-- The pointer that a node comes behind. -/
theorem following_eq_some (h : (before ++ y :: after).Nodup) :
    following (before ++ y :: after) p = some y ↔ p = before.getLast? := by
  induction before generalizing p with
  | nil =>
    obtain ⟨hy, -⟩ := nodup_cons.mp h
    cases p with
    | none => exact iff_of_true rfl rfl
    | some x =>
      refine iff_of_false (fun hfollowing => hy ?_) nofun
      rw [nil_append, following] at hfollowing
      split_ifs at hfollowing with hyx
      · exact List.mem_of_mem_head? hfollowing
      · exact mem_of_following hfollowing
  | cons a before ih =>
    rw [List.cons_append] at h ⊢
    obtain ⟨ha, hrest⟩ := nodup_cons.mp h
    have hay : a ≠ y := fun hay => ha (hay ▸ mem_append_right before mem_cons_self)
    rw [List.getLast?_cons]
    cases p with
    | none => exact iff_of_false (fun hfollowing => hay (some.inj hfollowing)) nofun
    | some x =>
      rw [following, some.injEq]
      by_cases hax : a = x
      · rw [if_pos hax, ← hax]
        cases before with
        | nil => exact iff_of_true rfl rfl
        | cons b before =>
          have hby : b ≠ y := fun hby => (nodup_cons.mp hrest).1
            (hby ▸ mem_append_right before mem_cons_self)
          have hlast : (b :: before).getLast?.getD a ∈ b :: before := by
            rw [List.getLast?_eq_some_getLast (cons_ne_nil b before)]
            exact getLast_mem (cons_ne_nil b before)
          exact iff_of_false (fun hhead => hby (some.inj hhead))
            fun heq => ha (heq ▸ mem_append_left _ hlast)
      · rw [if_neg hax, ih hrest]
        cases before with
        | nil => exact iff_of_false nofun fun heq => hax heq.symm
        | cons b before =>
          rw [List.getLast?_eq_some_getLast (cons_ne_nil b before), some.injEq]
          rfl

/-- Backwards, a node comes behind what it comes before. -/
theorem following_reverse (h : l.Nodup) (hy : y ∈ l) :
    following l p = some y ↔ p = following l.reverse (some y) := by
  obtain ⟨before, after, rfl⟩ := append_of_mem hy
  have hreverse : (before ++ y :: after).reverse = after.reverse ++ y :: before.reverse := by simp
  have hnodup := nodup_reverse.mpr h
  rw [hreverse] at hnodup
  rw [following_eq_some h, hreverse, following_self hnodup, List.head?_reverse]

theorem following_append_of_ne (hy : p ≠ some y) (hlast : p ≠ before.getLast?) :
    following (before ++ after) p = following (before ++ y :: after) p := by
  cases p with
  | none =>
    cases before with
    | nil => exact absurd rfl hlast
    | cons a before => rfl
  | some x =>
    have hyx : ¬ y = x := fun hyx => hy (congrArg some hyx.symm)
    induction before with
    | nil => simp only [nil_append, following, if_neg hyx]
    | cons a before ih =>
      simp only [List.cons_append, following]
      cases before with
      | nil =>
        have hax : ¬ a = x := fun hax => hlast (congrArg some hax.symm)
        simp only [if_neg hax, nil_append, following, if_neg hyx]
      | cons b before =>
        rw [ih hlast]
        rfl

/-- What comes behind a pointer when a node is taken out. -/
theorem following_erase (h : (before ++ y :: after).Nodup) : following (before ++ after) p =
      if p = some y then none
      else if p = following (before ++ y :: after).reverse (some y) then
        following (before ++ y :: after) (some y)
      else following (before ++ y :: after) p := by
  have hmem : y ∈ before ++ y :: after := mem_append_right before mem_cons_self
  obtain ⟨hy, hrest⟩ := nodup_cons.mp (nodup_middle.mp h)
  have hlast : following (before ++ y :: after).reverse (some y) = before.getLast? :=
    (following_eq_some h).mp ((following_reverse h hmem).mpr rfl)
  rw [hlast, following_self h]
  split_ifs with hpy hp
  · rw [hpy, following_of_notMem hy]
  · rw [hp]
    rcases eq_nil_or_concat before with rfl | ⟨first, last, rfl⟩
    · exact following_none
    · rw [concat_eq_append] at hrest ⊢
      rw [List.append_assoc, singleton_append] at hrest ⊢
      rw [List.getLast?_concat, following_self hrest]
  · exact following_append_of_ne hpy hp

/-- What comes behind a pointer when the nodes are moved. -/
theorem following_map (e : ν ≃ ν) : following (l.map e) p = (following l (p.map e.symm)).map e := by
  cases p with
  | none => simp only [map_none, following_none, List.head?_map]
  | some x =>
    rw [map_some]
    induction l with
    | nil => rfl
    | cons a l ih =>
      simp only [map_cons, following, ih, List.head?_map]
      by_cases hax : e a = x
      · rw [if_pos hax, if_pos (e.eq_symm_apply.mpr hax)]
      · rw [if_neg hax, if_neg fun heq => hax (e.eq_symm_apply.mp heq)]

/-! ## Lists in a heap -/

variable {next : ν → Option ν} {first : Option ν}

/-- A chain is what comes behind its nodes. -/
theorem linked_iff : Linked next first l ↔
    l.Nodup ∧ first = l.head? ∧ ∀ x ∈ l, next x = following l (some x) := by
  constructor
  · intro h
    refine ⟨h.nodup, h.head?_eq.symm, ?_⟩
    induction l generalizing first with
    | nil => exact fun x hx => absurd hx not_mem_nil
    | cons a l ih =>
      obtain ⟨ha, -⟩ := nodup_cons.mp h.nodup
      intro x hx
      rw [following]
      rcases mem_cons.mp hx with rfl | hx
      · rw [if_pos rfl, h.2.head?_eq]
      · rw [if_neg fun (hax : a = x) => ha (hax ▸ hx)]
        exact ih h.2 x hx
  · rintro ⟨hnodup, rfl, hnext⟩
    induction l with
    | nil => rfl
    | cons a l ih =>
      obtain ⟨ha, hrest⟩ := nodup_cons.mp hnodup
      refine ⟨rfl, ?_⟩
      rw [hnext a mem_cons_self, following, if_pos rfl]
      refine ih hrest fun x hx => ?_
      rw [hnext x (mem_cons_of_mem a hx), following, if_neg fun (hax : a = x) => ha (hax ▸ hx)]

/-- The pointers in both directions go through a list, and other nodes have none. -/
structure Threads (forward backward : Option ν → Option ν) (l : List ν) : Prop where
  nodup : l.Nodup
  forward : forward = following l
  backward : backward = following l.reverse

/-- The same, except for the pointers to a node. -/
structure ThreadsBut (forward backward : Option ν → Option ν) (l : List ν) (y : ν) : Prop where
  nodup : l.Nodup
  forward : ∀ p, following l p ≠ some y → forward p = following l p
  backward : ∀ p, following l.reverse p ≠ some y → backward p = following l.reverse p

variable {forward backward : Option ν → Option ν}

theorem following_self_ne (h : l.Nodup) : following l (some y) ≠ some y := by
  intro hself
  obtain ⟨before, after, rfl⟩ := append_of_mem (mem_of_following hself)
  rw [following_self h] at hself
  obtain ⟨hy, -⟩ := nodup_cons.mp (nodup_middle.mp h)
  exact hy (mem_append_right before (List.mem_of_mem_head? hself))

theorem Threads.but (h : Threads forward backward l) (y : ν) : ThreadsBut forward backward l y :=
  ⟨h.nodup, fun _ _ => by rw [h.forward], fun _ _ => by rw [h.backward]⟩

section

variable (h : ThreadsBut forward backward l y)

include h

/-- There are no pointers to a node that is not in the list. -/
theorem ThreadsBut.of_notMem (hy : y ∉ l) : Threads forward backward l := by
  refine ⟨h.nodup, funext fun p => h.forward p fun hp => hy (mem_of_following hp),
    funext fun p => h.backward p fun hp => hy ?_⟩
  exact mem_reverse.mp (mem_of_following hp)

theorem ThreadsBut.reverse : ThreadsBut backward forward l.reverse y :=
  ⟨nodup_reverse.mpr h.nodup, h.backward, by rw [reverse_reverse]; exact h.forward⟩

theorem ThreadsBut.forward_self : forward (some y) = following l (some y) :=
  h.forward _ (following_self_ne h.nodup)

theorem ThreadsBut.backward_self : backward (some y) = following l.reverse (some y) :=
  h.reverse.forward_self

/-- The neighbours of a node are told where it is. -/
theorem ThreadsBut.relink_forward (hy : y ∈ l) :
    update forward (backward (some y)) (some y) = following l := by
  funext p
  have hiff := @following_reverse _ _ l p y h.nodup hy
  rw [h.backward_self, update_apply]
  split_ifs with hp
  · exact (hiff.mpr hp).symm
  · exact h.forward p (mt hiff.mp hp)

theorem ThreadsBut.relink (hy : y ∈ l) : Threads (update forward (backward (some y)) (some y))
      (update backward (forward (some y)) (some y)) l :=
  ⟨h.nodup, h.relink_forward hy, h.reverse.relink_forward (mem_reverse.mpr hy)⟩

end

/-- A pointer to neither of two nodes stays when these change places. -/
theorem map_swap_of_ne (hy : p ≠ some y) (hz : p ≠ some z) : p.map (swap y z) = p := by
  cases p with
  | none => rfl
  | some x =>
    rw [map_some, Equiv.swap_apply_of_ne_of_ne (fun hxy => hy (congrArg some hxy))
      fun hxz => hz (congrArg some hxz)]

theorem map_swap_map_swap (p : Option ν) : (p.map (swap y z)).map (swap y z) = p := by
  cases p with
  | none => rfl
  | some x => simp only [map_some, Equiv.swap_apply_self]

theorem ThreadsBut.exchange_forward (h : ThreadsBut forward backward l y) (hy : y ∈ l)
    (hbefore : backward (some y) ≠ some z) (hp : following (l.map (swap y z)) p ≠ some y) :
    update (fun p => forward (p.map (swap y z))) (backward (some y)) (some z) p =
      following (l.map (swap y z)) p := by
  have hback := h.backward_self
  have hself : backward (some y) ≠ some y := by
    rw [hback]
    exact following_self_ne (nodup_reverse.mpr h.nodup)
  have hiff := fun q => @following_reverse _ _ l q y h.nodup hy
  rw [← hback] at hiff
  rw [following_map, Equiv.symm_swap] at hp ⊢
  rw [update_apply]
  split_ifs with hpq
  · rw [hpq, map_swap_of_ne hself hbefore, (hiff _).mpr rfl, map_some, Equiv.swap_apply_left]
  · -- the pointer is neither to the node that moves nor to the place that it goes to
    have hne : following l (p.map (swap y z)) ≠ some y := by
      intro heq
      have hr := (hiff _).mp heq
      refine hpq ?_
      rw [← map_swap_map_swap p, hr, map_swap_of_ne hself hbefore]
    have hnez : following l (p.map (swap y z)) ≠ some z := by
      intro heq
      rw [heq, map_some, Equiv.swap_apply_right] at hp
      exact hp rfl
    rw [h.forward _ hne, map_swap_of_ne hne hnez]

/-- A node goes to another place, and what was there, if anything, comes to its own: then only
the pointers to that may be missing. -/
theorem ThreadsBut.exchange (h : ThreadsBut forward backward l y) (hy : y ∈ l)
    (hbefore : backward (some y) ≠ some z) (hafter : forward (some y) ≠ some z) : ThreadsBut
      (update (fun p => forward (p.map (swap y z))) (backward (some y)) (some z))
      (update (fun p => backward (p.map (swap y z))) (forward (some y)) (some z))
      (l.map (swap y z)) y := by
  refine ⟨h.nodup.map (Equiv.injective _), fun p hp => h.exchange_forward hy hbefore hp,
    fun p hp => ?_⟩
  rw [← map_reverse] at hp ⊢
  exact h.reverse.exchange_forward (mem_reverse.mpr hy) hafter hp

theorem Threads.unlink_forward (h : Threads forward backward (before ++ y :: after)) :
    update (update forward (backward (some y)) (forward (some y))) (some y) none =
      following (before ++ after) := by
  funext p
  simp only [following_erase h.nodup, update_apply, h.forward, h.backward]

theorem Threads.reverse (h : Threads forward backward l) : Threads backward forward l.reverse :=
  ⟨nodup_reverse.mpr h.nodup, h.backward, by rw [reverse_reverse]; exact h.forward⟩

/-- A node is taken out. -/
theorem Threads.unlink (h : Threads forward backward (before ++ y :: after)) : Threads
      (update (update forward (backward (some y)) (forward (some y))) (some y) none)
      (update (update backward (forward (some y)) (backward (some y))) (some y) none)
      (before ++ after) := by
  have hreverse : Threads backward forward (after.reverse ++ y :: before.reverse) := by
    have hr := h.reverse
    rwa [List.reverse_append, reverse_cons, List.append_assoc, singleton_append] at hr
  refine ⟨(nodup_cons.mp (nodup_middle.mp h.nodup)).2, h.unlink_forward, ?_⟩
  rw [List.reverse_append]
  exact hreverse.unlink_forward

omit [DecidableEq ν] in
theorem nodup_insert (h : (before ++ after).Nodup) (hy : y ∉ before ++ after) :
    (before ++ y :: after).Nodup :=
  nodup_middle.mpr (nodup_cons.mpr ⟨hy, h⟩)

theorem Threads.link_forward (h : Threads forward backward (before ++ after))
    (hy : y ∉ before ++ after) :
    update (update forward (some y) after.head?) before.getLast? (some y) =
      following (before ++ y :: after) := by
  have hnodup := nodup_insert h.nodup hy
  funext p
  simp only [update_apply, h.forward]
  split_ifs with hlast hself
  · exact ((following_eq_some hnodup).mpr hlast).symm
  · rw [hself, following_self hnodup]
  · exact following_append_of_ne hself hlast

/-- A node is put between two others. -/
theorem Threads.link (h : Threads forward backward (before ++ after)) (hy : y ∉ before ++ after) :
    Threads
      (update (update forward (some y) after.head?) before.getLast? (some y))
      (update (update backward (some y) before.getLast?) after.head? (some y))
      (before ++ y :: after) := by
  have hreverse : Threads backward forward (after.reverse ++ before.reverse) := by
    have hr := h.reverse
    rwa [List.reverse_append] at hr
  refine ⟨nodup_insert h.nodup hy, h.link_forward hy, ?_⟩
  have hback := hreverse.link_forward (y := y) (by
    rw [← List.reverse_append, mem_reverse]
    exact hy)
  rw [List.head?_reverse, List.getLast?_reverse] at hback
  rw [hback, List.reverse_append, reverse_cons, List.append_assoc, singleton_append]

end Literate.Foundation

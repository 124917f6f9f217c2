import Mathlib.Data.List.Basic
import Mathlib.Data.List.Infix

/-!
# Foundation: walks through a tree of directories

A walk goes by names into directories and by one of them, `up`, out of the last one; out of
the root it leads nowhere.  A list of names is reduced by crossing out each name with the `up`
behind it.  The reduced list leads to the same place from everywhere.
-/

namespace Literate.Foundation

open List

variable {α : Type*}

/-- Each `up` stands at the beginning, and none does in a list that starts at the root. -/
def Reduced (up : α) (rooted : Bool) (names : List α) : Prop :=
  ∃ count rest, names = List.replicate count up ++ rest ∧ up ∉ rest ∧ (rooted = true → count = 0)

variable {up name : α} {rooted : Bool} {place reduced names : List α}

theorem reduced_nil : Reduced up rooted [] := ⟨0, [], rfl, not_mem_nil, fun _ => rfl⟩

theorem Reduced.before_up (h : Reduced up rooted (reduced ++ up :: names)) :
    rooted = false ∧ ∀ name ∈ reduced, name = up := by
  obtain ⟨count, rest, heq, hrest, hrooted⟩ := h
  cases append_eq_append_iff.mp heq with
  | inl hsplit =>
    obtain ⟨middle, hreplicate, hbehind⟩ := hsplit
    have hpos : count ≠ 0 := by
      rintro rfl
      obtain ⟨rfl, rfl⟩ := append_eq_nil_iff.mp hreplicate.symm
      rw [nil_append] at hbehind
      exact hrest (hbehind ▸ mem_cons_self)
    refine ⟨Bool.eq_false_iff.mpr fun h => hpos (hrooted h), fun name hname => ?_⟩
    exact eq_of_mem_replicate (hreplicate ▸ mem_append_left _ hname)
  | inr hsplit =>
    obtain ⟨middle, -, rfl⟩ := hsplit
    exact absurd (mem_append_right _ mem_cons_self) hrest

/-- In a list that starts at the root no `up` is left. -/
theorem Reduced.not_mem (h : Reduced up true names) : up ∉ names := by
  obtain ⟨count, rest, rfl, hrest, hrooted⟩ := h
  rw [hrooted rfl, List.replicate_zero, nil_append]
  exact hrest

/-- What a fold holds whose steps add what they are given at most. -/
theorem mem_foldl {step : List α → α → List α} {other : α}
    (hstep : ∀ {held name}, other ∈ step held name → other ∈ held ∨ other = name)
    {held : List α} (h : other ∈ names.foldl step held) : other ∈ held ∨ other ∈ names := by
  induction names generalizing held with
  | nil => exact .inl h
  | cons name names ih =>
    cases ih h with
    | inl hmem =>
      refine (hstep hmem).imp_right fun heq => ?_
      rw [heq]
      exact mem_cons_self
    | inr hmem => exact .inr (mem_cons_of_mem name hmem)

/-! ## Walking and reducing -/

variable [DecidableEq α]

/-- A name is entered, and `up` leaves the directory that was entered last. -/
def walkStep (up : α) (place : List α) (name : α) : List α :=
  if name = up then place.dropLast else place ++ [name]

/-- Where the names lead to from a place. -/
def walk (up : α) (place names : List α) : List α := names.foldl (walkStep up) place

/-- A name behind a reduced list; a list that starts at the root loses an `up` there. -/
def reduceStep (up : α) (rooted : Bool) (reduced : List α) (name : α) : List α :=
  if name = up then
    if reduced = [] then if rooted then [] else [up]
    else if reduced.getLast? = some up then reduced ++ [up]
    else reduced.dropLast
  else reduced ++ [name]

theorem walk_append (place front names : List α) :
    walk up place (front ++ names) = walk up (walk up place front) names :=
  List.foldl_append

theorem Reduced.step (h : Reduced up rooted reduced) (name : α) :
    Reduced up rooted (reduceStep up rooted reduced name) := by
  obtain ⟨count, rest, rfl, hrest, hrooted⟩ := h
  rw [reduceStep]
  by_cases hname : name = up
  · rw [if_pos hname]
    cases eq_nil_or_concat' rest with
    | inl hnil =>
      subst hnil
      rw [append_nil]
      cases count with
      | zero =>
        rw [List.replicate_zero, if_pos rfl]
        cases rooted with
        | true => exact reduced_nil
        | false => exact ⟨1, [], rfl, not_mem_nil, fun h => by cases h⟩
      | succ count =>
        have hlast : (List.replicate (count + 1) up).getLast? = some up := by
          rw [List.getLast?_replicate, if_neg (Nat.succ_ne_zero _)]
        have hne : List.replicate (count + 1) up ≠ [] := cons_ne_nil _ _
        rw [if_neg hne, if_pos hlast]
        refine ⟨count + 2, [], ?_, not_mem_nil, fun h => ?_⟩
        · rw [append_nil, List.replicate_succ' (n := count + 1)]
        · cases hrooted h
    | inr hconcat =>
      obtain ⟨front, last, rfl⟩ := hconcat
      have hlast : up ≠ last := fun heq => hrest (heq ▸ mem_append_right _ mem_cons_self)
      have hne : List.replicate count up ++ (front ++ [last]) ≠ [] :=
        append_ne_nil_of_right_ne_nil _ (append_ne_nil_of_right_ne_nil _
          (cons_ne_nil _ _))
      rw [if_neg hne, ← List.append_assoc, List.getLast?_concat, dropLast_concat,
        if_neg fun heq => hlast (Option.some.inj heq).symm]
      exact ⟨count, front, rfl, fun hmem => hrest (mem_append_left _ hmem), hrooted⟩
  · rw [if_neg hname, List.append_assoc]
    refine ⟨count, rest ++ [name], rfl, ?_, hrooted⟩
    rw [mem_append, mem_singleton, not_or]
    exact ⟨hrest, Ne.symm hname⟩

theorem walk_reduceStep (hplace : rooted = true → place = []) (reduced : List α) (name : α) :
    walk up place (reduceStep up rooted reduced name) = walkStep up (walk up place reduced) name := by
  rw [reduceStep]
  by_cases hname : name = up
  · subst hname
    rw [if_pos rfl]
    cases eq_nil_or_concat' reduced with
    | inl hnil =>
      subst hnil
      rw [if_pos rfl]
      cases rooted with
      | true =>
        obtain rfl := hplace rfl
        simp only [if_pos rfl, walkStep]
        rfl
      | false => rfl
    | inr hconcat =>
      obtain ⟨front, last, rfl⟩ := hconcat
      rw [List.getLast?_concat, dropLast_concat,
        if_neg (append_ne_nil_of_right_ne_nil _ (cons_ne_nil _ _))]
      by_cases hlast : last = name
      · rw [if_pos (congrArg some hlast), walk_append]
        rfl
      · -- the name that was entered last is left
        rw [if_neg fun heq => hlast (Option.some.inj heq), walk_append, walkStep, if_pos rfl]
        show walk name place front = (walkStep name (walk name place front) last).dropLast
        rw [walkStep, if_neg hlast, dropLast_concat]
  · rw [if_neg hname, walk_append]
    rfl

theorem Reduced.foldl (h : Reduced up rooted reduced) (names : List α) :
    Reduced up rooted (names.foldl (reduceStep up rooted) reduced) := by
  induction names generalizing reduced with
  | nil => exact h
  | cons name names ih => exact ih (h.step name)

/-- The reduced list leads where the list does. -/
theorem walk_foldl_reduceStep (hplace : rooted = true → place = []) (reduced names : List α) :
    walk up place (names.foldl (reduceStep up rooted) reduced) =
      walk up (walk up place reduced) names := by
  induction names generalizing reduced with
  | nil => rfl
  | cons name names ih =>
    rw [foldl_cons, ih, walk_reduceStep hplace]
    rfl

/-- A reduced list is its own reduction. -/
theorem Reduced.foldl_append (h : Reduced up rooted (reduced ++ names)) :
    names.foldl (reduceStep up rooted) reduced = reduced ++ names := by
  induction names generalizing reduced with
  | nil => exact (append_nil _).symm
  | cons name names ih =>
    have hstep : reduceStep up rooted reduced name = reduced ++ [name] := by
      rw [reduceStep]
      by_cases hname : name = up
      · subst hname
        obtain ⟨rfl, hbefore⟩ := h.before_up
        rw [if_pos rfl]
        cases eq_nil_or_concat' reduced with
        | inl hnil =>
          subst hnil
          rfl
        | inr hconcat =>
          obtain ⟨front, last, rfl⟩ := hconcat
          obtain rfl : last = name := hbefore last (mem_append_right _ mem_cons_self)
          rw [List.getLast?_concat, if_pos rfl,
            if_neg (append_ne_nil_of_right_ne_nil _ (cons_ne_nil _ _))]
      · rw [if_neg hname]
    have happend : reduced ++ name :: names = reduced ++ [name] ++ names := by
      rw [List.append_assoc, singleton_append]
    rw [foldl_cons, hstep, happend]
    exact ih (happend ▸ h)

theorem mem_reduceStep {other : α} (h : other ∈ reduceStep up rooted reduced name) :
    other ∈ reduced ∨ other = name := by
  rw [reduceStep] at h
  split at h
  · next hname =>
    split at h
    · split at h
      · cases h
      · exact .inr ((mem_singleton.mp h).trans hname.symm)
    · split at h
      · exact (mem_append.mp h).imp_right fun h => (mem_singleton.mp h).trans hname.symm
      · exact .inl (mem_of_mem_dropLast h)
  · exact (mem_append.mp h).imp_right mem_singleton.mp

end Literate.Foundation

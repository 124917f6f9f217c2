import Mathlib.Algebra.Group.Nat.Defs
import Mathlib.Order.Lattice

/-!
# AK: binary search

`binary_search` of `AK/BinarySearch.h`.  A computation is `none` where an index leaves the
haystack or a `size_t` wraps around; neither happens on a haystack that the comparator
sees as sorted.
-/

namespace Literate.AK.BinarySearch

open List

/-- A sum in `size_t` that does not wrap around. -/
def add (a b : Nat) : Option Nat := if a + b < 2 ^ 64 then some (a + b) else none

/-- A difference in `size_t` that does not wrap around. -/
def sub (a b : Nat) : Option Nat := if b ≤ a then some (a - b) else none

/-- What a search gives: the index of the element it returns the address of, and the index
that it stores. -/
structure Result where
  element : Option Nat
  nearbyIndex : Nat
  deriving DecidableEq, Repr

section

variable {Element Needle : Type}

/-- The loop of `binary_search`. -/
def searchLoop (comparator : Needle → Element → Int) (haystack : List Element) (needle : Needle) :
    (fuel low high : Nat) → Option Result
  | 0, _, _ => none
  | fuel + 1, low, high =>
    if low ≤ high then do
      let distance ← sub high low
      let middle ← add low (distance / 2)
      let element ← haystack[middle]?
      let comparison := comparator needle element
      if comparison < 0 then
        if middle ≠ 0 then do
          let high ← sub middle 1
          searchLoop comparator haystack needle fuel low high
        else return ⟨none, min low high⟩
      else if comparison > 0 then do
        let low ← add middle 1
        searchLoop comparator haystack needle fuel low high
      else return ⟨some middle, middle⟩
    else return ⟨none, min low high⟩

def binarySearch (comparator : Needle → Element → Int) (haystack : List Element)
    (needle : Needle) : Option Result :=
  if haystack.length = 0 then return ⟨none, 0⟩
  else do
    let high ← sub haystack.length 1
    searchLoop comparator haystack needle (haystack.length + 1) 0 high

/-- The haystack is sorted as the comparator sees it: what is below the needle comes before
what is equal to it, and that before what is above it. -/
def Sorted (comparator : Needle → Element → Int) (haystack : List Element) (needle : Needle) :
    Prop :=
  haystack.Pairwise fun a b => (comparator needle a < 0 → comparator needle b < 0) ∧
    (0 < comparator needle b → 0 < comparator needle a)

/-- What a search should give. -/
structure Finds (comparator : Needle → Element → Int) (haystack : List Element)
    (needle : Needle) (result : Result) : Prop where
  equal : ∀ index, result.element = some index →
    ∃ element, haystack[index]? = some element ∧ comparator needle element = 0
  found_iff : result.element.isSome = true ↔
    ∃ element ∈ haystack, comparator needle element = 0
  nearby : result.element = none → haystack ≠ [] →
    ((∀ element ∈ haystack, comparator needle element < 0) ∧ result.nearbyIndex = 0) ∨
    (∃ element, haystack[result.nearbyIndex]? = some element ∧ 0 < comparator needle element ∧
      ∀ later, result.nearbyIndex < later → ∀ element, haystack[later]? = some element →
        comparator needle element < 0)

variable {comparator : Needle → Element → Int} {haystack : List Element} {needle : Needle}

theorem Sorted.above {i j : Nat} {a b : Element} (h : Sorted comparator haystack needle)
    (hi : haystack[i]? = some a) (hj : haystack[j]? = some b) (hle : i ≤ j)
    (hlt : comparator needle a < 0) : comparator needle b < 0 := by
  obtain ⟨hilt, hia⟩ := List.getElem?_eq_some_iff.mp hi
  obtain ⟨hjlt, hjb⟩ := List.getElem?_eq_some_iff.mp hj
  rcases Nat.lt_or_eq_of_le hle with hbefore | rfl
  · have hpair := pairwise_iff_getElem.mp h i j hilt hjlt hbefore
    rw [hia, hjb] at hpair
    exact hpair.1 hlt
  · rw [hi] at hj
    cases hj
    exact hlt

theorem Sorted.below {i j : Nat} {a b : Element} (h : Sorted comparator haystack needle)
    (hi : haystack[i]? = some a) (hj : haystack[j]? = some b) (hle : i ≤ j)
    (hlt : 0 < comparator needle b) : 0 < comparator needle a := by
  obtain ⟨hilt, hia⟩ := List.getElem?_eq_some_iff.mp hi
  obtain ⟨hjlt, hjb⟩ := List.getElem?_eq_some_iff.mp hj
  rcases Nat.lt_or_eq_of_le hle with hbefore | rfl
  · have hpair := pairwise_iff_getElem.mp h i j hilt hjlt hbefore
    rw [hia, hjb] at hpair
    exact hpair.2 hlt
  · rw [hi] at hj
    cases hj
    exact hlt

/-- What is known between two steps: all elements before `low` are below the needle, all those
after `high` are above it. -/
structure Narrowed (comparator : Needle → Element → Int) (haystack : List Element)
    (needle : Needle) (low high : Nat) : Prop where
  low_le : low ≤ high + 1
  high_lt : high < haystack.length
  before : ∀ i element, i < low → haystack[i]? = some element → 0 < comparator needle element
  after : ∀ i element, high < i → haystack[i]? = some element → comparator needle element < 0

theorem Finds.found {index : Nat} {element : Element} (hat : haystack[index]? = some element)
    (hequal : comparator needle element = 0) :
    Finds comparator haystack needle ⟨some index, index⟩ where
  equal := by
    rintro _ ⟨⟩
    exact ⟨element, hat, hequal⟩
  found_iff := iff_of_true rfl ⟨element, mem_of_getElem? hat, hequal⟩
  nearby := nofun

theorem Finds.between {index : Nat} {element : Element} (hat : haystack[index]? = some element)
    (hbelow : ∀ i element, i ≤ index → haystack[i]? = some element → 0 < comparator needle element)
    (habove : ∀ i element, index < i → haystack[i]? = some element →
      comparator needle element < 0) :
    Finds comparator haystack needle ⟨none, index⟩ where
  equal := nofun
  found_iff := by
    refine iff_of_false Bool.false_ne_true ?_
    rintro ⟨other, hother, hequal⟩
    obtain ⟨i, hi⟩ := mem_iff_getElem?.mp hother
    rcases Nat.lt_or_ge index i with hafter | hbefore
    · have hlt := habove i other hafter hi
      omega
    · have hlt := hbelow i other hbefore hi
      omega
  nearby := fun _ _ => .inr ⟨element, hat, hbelow index element (Nat.le_refl index) hat,
    fun later hlater other hother => habove later other hlater hother⟩

theorem Finds.first (habove : ∀ element ∈ haystack, comparator needle element < 0) :
    Finds comparator haystack needle ⟨none, 0⟩ where
  equal := nofun
  found_iff := by
    refine iff_of_false Bool.false_ne_true ?_
    rintro ⟨element, hmem, hequal⟩
    have hlt := habove element hmem
    omega
  nearby := fun _ _ => .inl ⟨habove, rfl⟩

/-- Each step halves what is left, and what is left ends. -/
theorem searchLoop_finds (hsize : haystack.length < 2 ^ 64)
    (hsorted : Sorted comparator haystack needle) {fuel low high : Nat}
    (hfuel : high + 1 < fuel + low) (h : Narrowed comparator haystack needle low high) :
    ∃ result, searchLoop comparator haystack needle fuel low high = some result ∧
      Finds comparator haystack needle result := by
  induction fuel generalizing low high with
  | zero =>
    have hlow := h.low_le
    omega
  | succ fuel ih =>
    have hlow := h.low_le
    have hhigh := h.high_lt
    rw [searchLoop]
    by_cases hle : low ≤ high
    · obtain ⟨middle, hmiddle⟩ : ∃ middle, middle = low + (high - low) / 2 := ⟨_, rfl⟩
      obtain ⟨element, hat⟩ : ∃ element, haystack[middle]? = some element :=
        ⟨_, List.getElem?_eq_getElem (by omega)⟩
      have hsub : sub high low = some (high - low) := if_pos hle
      have hadd : add low ((high - low) / 2) = some middle := by
        rw [hmiddle]
        exact if_pos (by omega)
      rw [if_pos hle, hsub]
      dsimp only [bind, Option.bind]
      rw [hadd]
      dsimp only
      rw [hat]
      dsimp only
      rcases lt_trichotomy (comparator needle element) 0 with hless | hequal | hgreater
      · rw [if_pos hless]
        have hafter : ∀ i other, middle ≤ i → haystack[i]? = some other →
            comparator needle other < 0 :=
          fun i other hi hother => hsorted.above hat hother hi hless
        by_cases hfirst : middle = 0
        · have hzero : low = 0 := by omega
          rw [if_neg (not_not.mpr hfirst), hzero, Nat.zero_min]
          refine ⟨_, rfl, .first fun other hother => ?_⟩
          obtain ⟨i, hi⟩ := mem_iff_getElem?.mp hother
          exact hafter i other (by omega) hi
        · have hdown : sub middle 1 = some (middle - 1) := if_pos (by omega)
          rw [if_pos hfirst, hdown]
          exact ih (by omega) ⟨by omega, by omega, h.before,
            fun i other hi hother => hafter i other (by omega) hother⟩
      · rw [if_neg (by omega), if_neg (by omega)]
        exact ⟨_, rfl, .found hat hequal⟩
      · have hup : add middle 1 = some (middle + 1) := if_pos (by omega)
        rw [if_neg (by omega), if_pos hgreater, hup]
        exact ih (by omega) ⟨by omega, hhigh, fun i other hi hother =>
          hsorted.below hother hat (by omega) hgreater, h.after⟩
    · rw [if_neg hle, Nat.min_eq_right (by omega)]
      exact ⟨_, rfl, .between (List.getElem?_eq_getElem hhigh)
        (fun i other hi hother => h.before i other (by omega) hother) h.after⟩

/-- The search returns on every sorted haystack, with an equal element or with the place where
there would be one. -/
theorem binarySearch_finds (hsize : haystack.length < 2 ^ 64)
    (hsorted : Sorted comparator haystack needle) :
    ∃ result, binarySearch comparator haystack needle = some result ∧
      Finds comparator haystack needle result := by
  unfold binarySearch
  by_cases hempty : haystack.length = 0
  · have hnil := length_eq_zero_iff.mp hempty
    rw [if_pos hempty]
    refine ⟨_, rfl, .first fun element hmem => ?_⟩
    rw [hnil] at hmem
    cases hmem
  · have hhigh : sub haystack.length 1 = some (haystack.length - 1) := if_pos (by omega)
    rw [if_neg hempty, hhigh]
    refine searchLoop_finds hsize hsorted (by omega) ⟨by omega, by omega, ?_, ?_⟩
    · intro i element hi
      omega
    · intro i element hi hat
      rw [List.getElem?_eq_none (by omega)] at hat
      cases hat

end

/-- A needle between the second and the third of three numbers. -/
theorem binarySearch_finds_between :
    ∃ result, binarySearch (fun needle element => (needle - element : Int)) [1, 3, 5] 4 =
        some result ∧
      Finds (fun needle element => (needle - element : Int)) [1, 3, 5] 4 result :=
  binarySearch_finds (by decide) (by unfold Sorted; decide)

end Literate.AK.BinarySearch

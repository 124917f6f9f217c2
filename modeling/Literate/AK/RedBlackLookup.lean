import Literate.AK.RedBlackInsert
import Literate.AK.RedBlackRelink
import Mathlib.Order.Bounds.Defs

/-!
# AK: lookups in a red-black tree, and the way through it

What the lookups return is said by the keys of the tree.  Equal keys may stand on both
sides of a node: the order of the tree only says that no key is below one before it.  The
iterator goes through the nodes in that order.
-/

namespace Literate.AK

open Foundation List Option

namespace BaseRedBlackTree

variable {P K : Type} [LinearOrder K] {tree : BaseRedBlackTree P K} {parent : Option P}
  {t : Tree P} {key : K} {fuel : Nat}

/-! ## What a lookup returns -/

/-- The keys of the nodes of a tree. -/
def keys (tree : BaseRedBlackTree P K) (t : Tree P) : Set K :=
  {k | ∃ p ∈ t.toList, (tree.nodes p).key = k}

/-- A node with the key, or null if there is none. -/
def Found (tree : BaseRedBlackTree P K) (t : Tree P) (key : K) : Option P → Prop
  | some p => p ∈ t.toList ∧ (tree.nodes p).key = key
  | none => key ∉ tree.keys t

/-- A node with the greatest key that is not above, or null if there is none. -/
def LargestNotAbove (tree : BaseRedBlackTree P K) (t : Tree P) (key : K) : Option P → Prop
  | some p => p ∈ t.toList ∧ IsGreatest {k ∈ tree.keys t | k ≤ key} (tree.nodes p).key
  | none => ∀ k ∈ tree.keys t, ¬ k ≤ key

/-- A node with the least key that is not below, or null if there is none. -/
def SmallestNotBelow (tree : BaseRedBlackTree P K) (t : Tree P) (key : K) : Option P → Prop
  | some p => p ∈ t.toList ∧ IsLeast {k ∈ tree.keys t | key ≤ k} (tree.nodes p).key
  | none => ∀ k ∈ tree.keys t, ¬ key ≤ k

/-- The keys of a tree do not go down. -/
def Sorted (tree : BaseRedBlackTree P K) (t : Tree P) : Prop :=
  t.toList.Pairwise fun p q => (tree.nodes p).key ≤ (tree.nodes q).key

omit [LinearOrder K] in
theorem mem_keys_node {c : Color} {l r : Tree P} {p : P} {k : K} : k ∈ tree.keys (.node c l p r) ↔
      k ∈ tree.keys l ∨ (tree.nodes p).key = k ∨ k ∈ tree.keys r := by
  simp only [keys, Set.mem_ofPred_eq, Tree.toList, mem_append, mem_cons]
  constructor
  · rintro ⟨q, hq | rfl | hq, hk⟩
    · exact .inl ⟨q, hq, hk⟩
    · exact .inr (.inl hk)
    · exact .inr (.inr ⟨q, hq, hk⟩)
  · rintro (⟨q, hq, hk⟩ | hk | ⟨q, hq, hk⟩)
    · exact ⟨q, .inl hq, hk⟩
    · exact ⟨p, .inr (.inl rfl), hk⟩
    · exact ⟨q, .inr (.inr hq), hk⟩

omit [LinearOrder K] in
theorem not_mem_keys_nil (k : K) : k ∉ tree.keys .nil := by
  rintro ⟨p, hp, -⟩
  cases hp

theorem sorted_node {c : Color} {l r : Tree P} {p : P} :
    tree.Sorted (.node c l p r) → tree.Sorted l ∧ tree.Sorted r ∧
      (∀ k ∈ tree.keys l, k ≤ (tree.nodes p).key) ∧ ∀ k ∈ tree.keys r, (tree.nodes p).key ≤ k := by
  intro h
  rw [Sorted, Tree.toList, pairwise_append, pairwise_cons] at h
  obtain ⟨hl, ⟨hpr, hr⟩, hlp⟩ := h
  refine ⟨hl, hr, ?_, ?_⟩
  · rintro k ⟨q, hq, rfl⟩
    exact hlp q hq p mem_cons_self
  · rintro k ⟨q, hq, rfl⟩
    exact hpr q hq

/-! ## The three lookups -/

section

variable (hfuel : t.toList.length ≤ fuel)

include hfuel

theorem find_spec (h : Owns tree.nodes parent t)
    (hsorted : tree.Sorted t) : ∃ r, tree.find key fuel t.top = some r ∧ tree.Found t key r := by
  induction t generalizing parent fuel with
  | nil => exact ⟨none, by cases fuel <;> rfl, not_mem_keys_nil key⟩
  | node c l p r ihl ihr =>
    rw [Tree.toList, length_append, length_cons] at hfuel
    obtain ⟨fuel, rfl⟩ := Nat.exists_eq_succ_of_ne_zero (show fuel ≠ 0 by omega)
    have hlfuel : l.toList.length ≤ fuel := by omega
    have hrfuel : r.toList.length ≤ fuel := by omega
    obtain ⟨-, -, hleft, hright, hl, hr⟩ := h
    obtain ⟨hsl, hsr, hlp, hpr⟩ := sorted_node hsorted
    rw [Tree.top, find, hleft, hright]
    by_cases heq : (tree.nodes p).key = key
    · rw [if_neg (not_not.mpr heq)]
      exact ⟨some p, rfl, by simp [Tree.toList], heq⟩
    rw [if_pos heq]
    -- The key is on one side only, whatever equals the key of the node.
    split_ifs with hlt
    · obtain ⟨res, hfind, hfound⟩ := ihl hlfuel hl hsl
      refine ⟨res, hfind, ?_⟩
      cases res with
      | some q => exact ⟨by simp [Tree.toList, hfound.1], hfound.2⟩
      | none =>
        intro hmem
        obtain hmem | hmem | hmem := mem_keys_node.mp hmem
        · exact hfound hmem
        · exact heq hmem
        · exact absurd hlt (not_lt.mpr (hpr key hmem))
    · obtain ⟨res, hfind, hfound⟩ := ihr hrfuel hr hsr
      refine ⟨res, hfind, ?_⟩
      cases res with
      | some q => exact ⟨by simp [Tree.toList, hfound.1], hfound.2⟩
      | none =>
        intro hmem
        obtain hmem | hmem | hmem := mem_keys_node.mp hmem
        · exact heq (le_antisymm (hlp key hmem) (not_lt.mp hlt)).symm
        · exact heq hmem
        · exact hfound hmem

/-- A loop that keeps a candidate returns what the subtree has, or else the candidate. -/
theorem findLargestNotAboveLoop_spec
    (h : Owns tree.nodes parent t) (hsorted : tree.Sorted t) (candidate : Option P) :
    ∃ r, tree.findLargestNotAboveLoop key fuel t.top candidate = some (r <|> candidate) ∧
      tree.LargestNotAbove t key r := by
  induction t generalizing parent fuel candidate with
  | nil => exact ⟨none, by cases fuel <;> rfl, fun k hk => absurd hk (not_mem_keys_nil k)⟩
  | node c l p r ihl ihr =>
    rw [Tree.toList, length_append, length_cons] at hfuel
    obtain ⟨fuel, rfl⟩ := Nat.exists_eq_succ_of_ne_zero (show fuel ≠ 0 by omega)
    have hlfuel : l.toList.length ≤ fuel := by omega
    have hrfuel : r.toList.length ≤ fuel := by omega
    obtain ⟨-, -, hleft, hright, hl, hr⟩ := h
    obtain ⟨hsl, hsr, hlp, hpr⟩ := sorted_node hsorted
    have hp : (tree.nodes p).key ∈ tree.keys (.node c l p r) := mem_keys_node.mpr (.inr (.inl rfl))
    rw [Tree.top, findLargestNotAboveLoop, hleft, hright]
    split_ifs with heq hlt
    · exact ⟨some p, rfl, by simp [Tree.toList], ⟨hp, heq.ge⟩, fun k hk => heq ▸ hk.2⟩
    · obtain ⟨res, hloop, hlargest⟩ := ihl hlfuel hl hsl candidate
      refine ⟨res, hloop, ?_⟩
      have hleftOnly : ∀ k ∈ tree.keys (.node c l p r), k ≤ key → k ∈ tree.keys l := by
        intro k hk hle
        obtain hk | rfl | hk := mem_keys_node.mp hk
        · exact hk
        · exact absurd hlt (not_lt.mpr hle)
        · exact absurd hlt (not_lt.mpr (le_trans (hpr k hk) hle))
      cases res with
      | some q =>
        obtain ⟨hq, ⟨hmem, hle⟩, hupper⟩ := hlargest
        exact ⟨by simp [Tree.toList, hq], ⟨mem_keys_node.mpr (.inl hmem), hle⟩,
          fun k hk => hupper ⟨hleftOnly k hk.1 hk.2, hk.2⟩⟩
      | none => exact fun k hk hle => hlargest k (hleftOnly k hk hle) hle
    · obtain ⟨res, hloop, hlargest⟩ := ihr hrfuel hr hsr (some p)
      have hle : (tree.nodes p).key ≤ key := not_lt.mp hlt
      cases res with
      | some q =>
        refine ⟨some q, hloop, ?_⟩
        obtain ⟨hq, ⟨hmem, hqle⟩, hupper⟩ := hlargest
        refine ⟨by simp [Tree.toList, hq], ⟨mem_keys_node.mpr (.inr (.inr hmem)), hqle⟩, ?_⟩
        rintro k ⟨hk, hkle⟩
        obtain hk | rfl | hk := mem_keys_node.mp hk
        · exact le_trans (hlp k hk) (hpr _ hmem)
        · exact hpr _ hmem
        · exact hupper ⟨hk, hkle⟩
      | none =>
        refine ⟨some p, hloop, by simp [Tree.toList], ⟨hp, hle⟩, ?_⟩
        rintro k ⟨hk, hkle⟩
        obtain hk | rfl | hk := mem_keys_node.mp hk
        · exact hlp k hk
        · exact le_refl _
        · exact absurd hkle (hlargest k hk)

theorem findSmallestNotBelowLoop_spec
    (h : Owns tree.nodes parent t) (hsorted : tree.Sorted t) (candidate : Option P) :
    ∃ r, tree.findSmallestNotBelowLoop key fuel t.top candidate = some (r <|> candidate) ∧
      tree.SmallestNotBelow t key r := by
  induction t generalizing parent fuel candidate with
  | nil => exact ⟨none, by cases fuel <;> rfl, fun k hk => absurd hk (not_mem_keys_nil k)⟩
  | node c l p r ihl ihr =>
    rw [Tree.toList, length_append, length_cons] at hfuel
    obtain ⟨fuel, rfl⟩ := Nat.exists_eq_succ_of_ne_zero (show fuel ≠ 0 by omega)
    have hlfuel : l.toList.length ≤ fuel := by omega
    have hrfuel : r.toList.length ≤ fuel := by omega
    obtain ⟨-, -, hleft, hright, hl, hr⟩ := h
    obtain ⟨hsl, hsr, hlp, hpr⟩ := sorted_node hsorted
    have hp : (tree.nodes p).key ∈ tree.keys (.node c l p r) := mem_keys_node.mpr (.inr (.inl rfl))
    rw [Tree.top, findSmallestNotBelowLoop, hleft, hright]
    split_ifs with heq hle
    · exact ⟨some p, rfl, by simp [Tree.toList], ⟨hp, heq.ge⟩, fun k hk => heq ▸ hk.2⟩
    · obtain ⟨res, hloop, hsmallest⟩ := ihr hrfuel hr hsr candidate
      refine ⟨res, hloop, ?_⟩
      have hlt : (tree.nodes p).key < key := lt_of_le_of_ne hle heq
      have hrightOnly : ∀ k ∈ tree.keys (.node c l p r), key ≤ k → k ∈ tree.keys r := by
        intro k hk hkle
        obtain hk | rfl | hk := mem_keys_node.mp hk
        · exact absurd hlt (not_lt.mpr (le_trans hkle (hlp k hk)))
        · exact absurd hlt (not_lt.mpr hkle)
        · exact hk
      cases res with
      | some q =>
        obtain ⟨hq, ⟨hmem, hqle⟩, hlower⟩ := hsmallest
        exact ⟨by simp [Tree.toList, hq], ⟨mem_keys_node.mpr (.inr (.inr hmem)), hqle⟩,
          fun k hk => hlower ⟨hrightOnly k hk.1 hk.2, hk.2⟩⟩
      | none => exact fun k hk hkle => hsmallest k (hrightOnly k hk hkle) hkle
    · obtain ⟨res, hloop, hsmallest⟩ := ihl hlfuel hl hsl (some p)
      have hlt : key ≤ (tree.nodes p).key := le_of_not_ge hle
      cases res with
      | some q =>
        refine ⟨some q, hloop, ?_⟩
        obtain ⟨hq, ⟨hmem, hqle⟩, hlower⟩ := hsmallest
        refine ⟨by simp [Tree.toList, hq], ⟨mem_keys_node.mpr (.inl hmem), hqle⟩, ?_⟩
        rintro k ⟨hk, hkle⟩
        obtain hk | rfl | hk := mem_keys_node.mp hk
        · exact hlower ⟨hk, hkle⟩
        · exact hlp _ hmem
        · exact le_trans (hlp _ hmem) (hpr k hk)
      | none =>
        refine ⟨some p, hloop, by simp [Tree.toList], ⟨hp, hlt⟩, ?_⟩
        rintro k ⟨hk, hkle⟩
        obtain hk | rfl | hk := mem_keys_node.mp hk
        · exact absurd hkle (hsmallest k hk)
        · exact le_refl _
        · exact hpr k hk

end

/-! ## Neighbours in order -/

variable [DecidableEq P]

omit [LinearOrder K] in
/-- The neighbour of a node on a side is what comes after it on the way to that side. -/
theorem neighbour_of_split (side : Side) (h : tree.Holds t) {p : P} {l r : List P}
    (hsplit : t.towards side = l ++ p :: r) (hfuel : t.toList.length < fuel) :
    tree.neighbour side fuel p = some r.head? := by
  have hp : p ∈ t.toList := by
    rw [← Tree.mem_towards, hsplit]
    exact mem_append_right _ mem_cons_self
  obtain ⟨ctx, c, l', r', rfl⟩ := exists_plug hp
  obtain ⟨near, far, hnode⟩ := Tree.exists_nodeOn side c l' p r'
  rw [hnode] at h hsplit hfuel
  rw [neighbour_spec side h hfuel]
  have hnodup : (l ++ p :: r).Nodup := by
    rw [← hsplit]
    exact Tree.nodup_towards.mpr h.nodup
  obtain ⟨hp', -⟩ := nodup_cons.mp (nodup_middle.mp hnodup)
  rw [mem_append, not_or] at hp'
  rw [towards_plug, Tree.towards_nodeOn, List.append_assoc, ← List.append_assoc,
    List.cons_append] at hsplit
  obtain ⟨-, -, hr⟩ := (append_cons_inj_of_notMem hp'.1 hp'.2).mp hsplit.symm
  rw [hr]

omit [LinearOrder K] in
theorem successor_of_split (h : tree.Holds t) {p : P} {l r : List P}
    (hsplit : t.toList = l ++ p :: r) (hfuel : t.toList.length < fuel) :
    tree.successor fuel p = some r.head? := by
  rw [successor_eq]
  exact neighbour_of_split .right h hsplit hfuel

omit [LinearOrder K] in
theorem predecessor_of_split (h : tree.Holds t) {p : P} {l r : List P}
    (hsplit : t.toList = l ++ p :: r) (hfuel : t.toList.length < fuel) :
    tree.predecessor fuel p = some l.getLast? := by
  rw [predecessor, ← List.head?_reverse]
  have hreverse : t.towards .left = r.reverse ++ p :: l.reverse := by
    rw [Tree.towards, hsplit, List.reverse_append, reverse_cons, List.append_assoc,
      singleton_append]
  exact neighbour_of_split .left h hreverse hfuel

omit [LinearOrder K] in
theorem predecessor_successor (h : tree.Holds t) (hfuel : t.toList.length < fuel) {p q : P}
    (hp : p ∈ t.toList) (hq : tree.successor fuel p = some (some q)) :
    tree.predecessor fuel q = some (some p) := by
  obtain ⟨l, r, hsplit⟩ := append_of_mem hp
  rw [successor_of_split h hsplit hfuel, some.injEq, List.head?_eq_some_iff] at hq
  obtain ⟨r, rfl⟩ := hq
  rw [append_cons] at hsplit
  rw [predecessor_of_split h hsplit hfuel, List.getLast?_append, List.getLast?_singleton]
  rfl

end BaseRedBlackTree

/-! ## Iterators -/

namespace RedBlackTreeIterator

open BaseRedBlackTree

variable {P K : Type} [DecidableEq P] {tree : BaseRedBlackTree P K} {t : Tree P} {fuel : Nat}

/-- `++` goes to the next node, with the one it leaves behind it. -/
theorem increment_of_split (h : tree.Holds t) (hfuel : t.toList.length < fuel) {p : P}
    {l r : List P} (hsplit : t.toList = l ++ p :: r) (prev : Option P) :
    increment fuel tree ⟨some p, prev⟩ = some ⟨r.head?, some p⟩ := by
  rw [increment]
  dsimp only
  rw [successor_of_split h hsplit hfuel, map_some]

/-- A loop from a node meets the nodes after it, each of them once, and ends. -/
theorem visited_of_split (h : tree.Holds t) (hfuel : t.toList.length < fuel) {l r : List P}
    (hsplit : t.toList = l ++ r) {steps : Nat} (hsteps : r.length ≤ steps) (prev : Option P) :
    visited fuel tree steps ⟨r.head?, prev⟩ = some r := by
  induction r generalizing l steps prev with
  | nil => cases steps <;> rfl
  | cons p r ih =>
    obtain ⟨steps, rfl⟩ := Nat.exists_eq_succ_of_ne_zero (show steps ≠ 0 by
      rw [length_cons] at hsteps
      omega)
    have hrest : t.toList = (l ++ [p]) ++ r := by rw [hsplit, append_cons]
    rw [List.head?_cons, visited, increment_of_split h hfuel hsplit, bind_some,
      ih hrest (Nat.le_of_succ_le_succ hsteps) (some p), map_some]

end RedBlackTreeIterator

namespace BaseRedBlackTree

variable {P K : Type} [LinearOrder K]

theorem orElse_none (r : Option P) : (r <|> none) = r := by
  cases r <;> rfl

/-- The lookups find what they are for, and the iteration goes through the whole tree. -/
theorem lookups_correct [DecidableEq P] (tree : BaseRedBlackTree P K) (t : Tree P) (key : K) (fuel : Nat)
    (h : tree.Valid t) (hfuel : t.toList.length < fuel) :
    (∃ r, tree.find key fuel tree.root = some r ∧ tree.Found t key r) ∧
      (∃ r, findLargestNotAbove fuel tree tree.root key = some r ∧
        tree.LargestNotAbove t key r) ∧
      (∃ r, findSmallestNotBelow fuel tree tree.root key = some r ∧
        tree.SmallestNotBelow t key r) ∧
      (RedBlackTreeIterator.visited fuel tree fuel (.begin tree) = some t.toList ∧
        t.toList.Nodup) ∧
      ∀ p q, p ∈ t.toList → tree.successor fuel p = some (some q) →
        tree.predecessor fuel q = some (some p) := by
  have hle := Nat.le_of_lt hfuel
  rw [h.holds.root]
  refine ⟨find_spec hle h.holds.owns h.sorted, ?_, ?_, ⟨?_, h.holds.nodup⟩, fun p q =>
    predecessor_successor h.holds hfuel⟩
  · obtain ⟨r, hr, hlargest⟩ :=
      findLargestNotAboveLoop_spec hle h.holds.owns h.sorted none
    exact ⟨r, hr.trans (congrArg some (orElse_none r)), hlargest⟩
  · obtain ⟨r, hr, hsmallest⟩ :=
      findSmallestNotBelowLoop_spec hle h.holds.owns h.sorted none
    exact ⟨r, hr.trans (congrArg some (orElse_none r)), hsmallest⟩
  · rw [RedBlackTreeIterator.begin, h.minimum]
    exact RedBlackTreeIterator.visited_of_split h.holds hfuel (nil_append _).symm hle none

/-- Three nodes with key 5, the first of them on the left of the root. -/
def equalKeysTree : BaseRedBlackTree Nat Nat where
  nodes := fun p =>
    if p = 0 then { leftChild := some 1, rightChild := some 2, color := .black, key := 5 }
    else { parent := some 0, key := 5 }
  root := some 0
  size := 3
  minimum := some 1

theorem equalKeysTree_valid :
    equalKeysTree.Valid (.node .black (.node .red .nil 1 .nil) 0 (.node .red .nil 2 .nil)) where
  holds := ⟨⟨rfl, rfl, rfl, rfl, ⟨rfl, rfl, rfl, rfl, trivial, trivial⟩,
    ⟨rfl, rfl, rfl, rfl, trivial, trivial⟩⟩, rfl, by decide⟩
  redBlack := by
    have hred : ∀ p : Nat, Tree.Proper (.node .red .nil p .nil) 0 := fun p =>
      (@Tree.proper_red _ .left .nil .nil p 0).mpr ⟨⟨rfl, rfl⟩, Tree.proper_nil, Tree.proper_nil⟩
    exact ⟨rfl, 1, (@Tree.proper_black _ .left _ _ 0 0).mpr ⟨hred 1, hred 2⟩⟩
  sorted := by decide
  minimum := rfl
  size := rfl

theorem lookups_equalKeys : (∃ r, equalKeysTree.find 5 4 (some 0) = some r ∧ equalKeysTree.Found
        (.node .black (.node .red .nil 1 .nil) 0 (.node .red .nil 2 .nil)) 5 r) ∧
      RedBlackTreeIterator.visited 4 equalKeysTree 4 (.begin equalKeysTree) = some [1, 0, 2] ∧
      equalKeysTree.predecessor 4 2 = some (some 0) := by
  obtain ⟨hfind, -, -, hvisited, hundo⟩ :=
    lookups_correct equalKeysTree _ 5 4 equalKeysTree_valid (by decide)
  exact ⟨hfind, hvisited.1, hundo 0 2 (by decide) (by decide)⟩

end BaseRedBlackTree

end Literate.AK

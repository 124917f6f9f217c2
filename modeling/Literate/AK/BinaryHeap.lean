import Mathlib.Data.Nat.Basic
import Mathlib.Order.Defs.LinearOrder
import Literate.Foundation.Contracts
import Literate.Foundation.Rearranging

/-!
# AK: a binary heap

`AK/BinaryHeap.h`.  A computation is `none` where an index leaves `m_elements` or an assertion
fails.  An array of structures with two members has fewer than `2 ^ 62` of them: the index of a
child does not wrap around.
-/

namespace Literate.AK

open Foundation List Option
open Returns (bind)

/-- An element of a heap. -/
structure HeapElement (K V : Type) where
  key : K
  value : V
  deriving DecidableEq, Repr

/-- A heap: the array, and how many of its elements are in use. -/
structure BinaryHeap (K V : Type) where
  elements : List (HeapElement K V)
  size : Nat
  deriving DecidableEq, Repr

namespace BinaryHeap

section

variable {K V : Type} [Preorder K] [DecidableLE K] [DecidableLT K]

/-- The child of `index` with the smaller key. -/
def minChild (size : Nat) (elements : List (HeapElement K V)) (index : Nat) : Option Nat :=
  let leftChild := index * 2 + 1
  let rightChild := index * 2 + 2
  if rightChild < size then do
    let atRight ← elements[rightChild]?
    let atLeft ← elements[leftChild]?
    return if atRight.key < atLeft.key then rightChild else leftChild
  else return leftChild

def heapifyDown (size : Nat) : (fuel : Nat) → (elements : List (HeapElement K V)) →
    (index : Nat) → Option (List (HeapElement K V))
  | 0, _, _ => none
  | fuel + 1, elements, index =>
    if index * 2 + 1 < size then do
      let minChild ← minChild size elements index
      let atIndex ← elements[index]?
      let atMin ← elements[minChild]?
      if atIndex.key ≤ atMin.key then return elements
      else do
        let elements ← exchange elements index minChild
        heapifyDown size fuel elements minChild
    else return elements

def heapifyUp : (fuel : Nat) → (elements : List (HeapElement K V)) → (index : Nat) →
    Option (List (HeapElement K V))
  | 0, _, _ => none
  | fuel + 1, elements, index =>
    if index ≠ 0 then do
      let parent := (index - 1) / 2
      let atIndex ← elements[index]?
      let atParent ← elements[parent]?
      if atIndex.key ≥ atParent.key then return elements
      else do
        let elements ← exchange elements index parent
        heapifyUp fuel elements parent
    else return elements

/-- The first loop of the constructor copies the arrays. -/
def copyLoop (keys : List K) (values : List V) : (count i : Nat) →
    (elements : List (HeapElement K V)) → Option (List (HeapElement K V))
  | 0, _, elements => some elements
  | count + 1, i, elements => do
      let key ← keys[i]?
      let value ← values[i]?
      if i < elements.length then copyLoop keys values count (i + 1) (elements.set i ⟨key, value⟩)
      else none

/-- The second loop of the constructor, from `i` down to 0. -/
def heapifyLoop (size : Nat) : (i : Nat) → (elements : List (HeapElement K V)) →
    Option (List (HeapElement K V))
  | 0, elements => heapifyDown size (size + 1) elements 0
  | i + 1, elements => do
      let elements ← heapifyDown size (size + 1) elements (i + 1)
      heapifyLoop size i elements

/-- The constructor from two arrays; what was in the storage before is arbitrary. -/
def construct (storage : List (HeapElement K V)) (keys : List K) (values : List V) (size : Nat) :
    Option (BinaryHeap K V) :=
  if size ≤ storage.length then do
    let elements ← copyLoop keys values size 0 storage
    let elements ← heapifyLoop size (size / 2) elements
    return ⟨elements, size⟩
  else none

def insert (heap : BinaryHeap K V) (key : K) (value : V) : Option (BinaryHeap K V) :=
  if heap.size < heap.elements.length then do
    let index := heap.size
    let elements ← heapifyUp (index + 1) (heap.elements.set index ⟨key, value⟩) index
    return ⟨elements, heap.size + 1⟩
  else none

def popMin (heap : BinaryHeap K V) : Option (BinaryHeap K V × V) :=
  if heap.size ≠ 0 then do
    let index := heap.size - 1
    let elements ← exchange heap.elements ((0 : Nat) : Int) index
    let elements ← heapifyDown index (index + 1) elements 0
    let atIndex ← elements[index]?
    return (⟨elements, index⟩, atIndex.value)
  else none

/-- The operations on a heap. -/
inductive Operation (K V : Type)
  | insert (key : K) (value : V)
  | popMin

/-- An operation, and the value it returns. -/
def step (heap : BinaryHeap K V) : Operation K V → Option (BinaryHeap K V × Option V)
  | .insert key value => do
      let heap ← heap.insert key value
      return (heap, none)
  | .popMin => do
      let result ← heap.popMin
      return (result.1, some result.2)

/-- A sequence of operations, and the values they return. -/
def run : BinaryHeap K V → List (Operation K V) → Option (BinaryHeap K V × List V)
  | heap, [] => some (heap, [])
  | heap, op :: ops => do
      let result ← heap.step op
      let rest ← run result.1 ops
      return (rest.1, result.2.toList ++ rest.2)

end

/-! ## The elements in use -/

variable {K V : Type} {elements : List (HeapElement K V)} {i j : Nat}

/-- The elements in use. -/
def contents (heap : BinaryHeap K V) : List (HeapElement K V) := heap.elements.take heap.size

theorem exists_exchange_nat (hi : i < elements.length) (hj : j < elements.length) :
    ∃ elements', exchange elements i j = some elements' ∧
      elements'[i]? = elements[j]? ∧ elements'[j]? = elements[i]? ∧
      (∀ k, k ≠ i → k ≠ j → elements'[k]? = elements[k]?) ∧
      ∀ n : Nat, i < n → j < n → Rearranges 0 n elements elements' := by
  obtain ⟨elements', hexchange, hex⟩ :=
    @exists_exchange _ elements (i : Int) (j : Int) (by omega) (by omega)
  have hleft := hex.left
  have hright := hex.right
  simp only [entry_natCast] at hleft hright
  refine ⟨elements', hexchange, hleft, hright, fun k hki hkj => ?_,
    fun n hin hjn => hex.rearranges (by omega) (by omega)⟩
  have hother := hex.other (k : Int) (by omega) (by omega)
  rwa [entry_natCast, entry_natCast] at hother

theorem copyLoop_returns {keys : List K} {values : List V} {count i : Nat}
    (hkeys : i + count ≤ keys.length) (hvalues : i + count ≤ values.length)
    (hlength : i + count ≤ elements.length) :
    Returns (fun elements' => elements'.length = elements.length ∧
      (∀ k, k < i → elements'[k]? = elements[k]?) ∧
      ∀ k, i ≤ k → k < i + count →
        elements'[k]? = (List.zipWith HeapElement.mk keys values)[k]?)
      (copyLoop keys values count i elements) := by
  induction count generalizing i elements with
  | zero => exact ⟨rfl, fun _ _ => rfl, fun k hi hk => by omega⟩
  | succ count ih =>
    obtain ⟨key, hkey⟩ : ∃ key, keys[i]? = some key := ⟨_, List.getElem?_eq_getElem (by omega)⟩
    obtain ⟨value, hvalue⟩ : ∃ value, values[i]? = some value :=
      ⟨_, List.getElem?_eq_getElem (by omega)⟩
    rw [copyLoop]
    simp only [hkey, hvalue, bind_eq_bind, bind_some]
    rw [if_pos (by omega)]
    refine (ih (by omega) (by omega) (by rw [length_set]; omega)).mono
      fun elements' h => ⟨h.1.trans length_set, fun k hk => ?_, fun k hik hk => ?_⟩
    · rw [h.2.1 k (by omega), List.getElem?_set_ne (by omega)]
    · rcases Nat.lt_or_eq_of_le hik with hlt | rfl
      · exact h.2.2 k hlt (by omega)
      · rw [h.2.1 i (by omega), List.getElem?_set_self (by omega), List.getElem?_zipWith, hkey,
          hvalue]

/-! ## Heap order -/

section

variable {K V : Type} [Preorder K]

/-- The key at one position is at most the key at another. -/
def LeAt (elements : List (HeapElement K V)) (i j : Nat) : Prop :=
  ∃ a b, elements[i]? = some a ∧ elements[j]? = some b ∧ a.key ≤ b.key

/-- The parents from a position on are at most their children. -/
def OrderedFrom (elements : List (HeapElement K V)) (size lo : Nat) : Prop :=
  ∀ child, 0 < child → child < size → lo ≤ (child - 1) / 2 → LeAt elements ((child - 1) / 2) child

/-- Only the children of one position are perhaps not in order, and they are above its parent. -/
structure DownOrder (elements : List (HeapElement K V)) (size lo hole : Nat) : Prop where
  except : ∀ child, 0 < child → child < size → lo ≤ (child - 1) / 2 → (child - 1) / 2 ≠ hole →
    LeAt elements ((child - 1) / 2) child
  grand : ∀ child, child < size → (child - 1) / 2 = hole → 0 < child → 0 < hole →
    lo ≤ (hole - 1) / 2 → LeAt elements ((hole - 1) / 2) child

/-- Only one position and its parent are perhaps not in order, and its children are above its
parent. -/
structure UpOrder (elements : List (HeapElement K V)) (size hole : Nat) : Prop where
  except : ∀ child, 0 < child → child < size → child ≠ hole →
    LeAt elements ((child - 1) / 2) child
  grand : ∀ child, child < size → (child - 1) / 2 = hole → 0 < child → 0 < hole →
    LeAt elements ((hole - 1) / 2) child

/-- The elements in use are within the capacity, and in heap order. -/
structure IsHeap (capacity : Nat) (heap : BinaryHeap K V) : Prop where
  length_eq : heap.elements.length = capacity
  size_le : heap.size ≤ capacity
  ordered : OrderedFrom heap.elements heap.size 0

variable {elements elements' : List (HeapElement K V)} {size lo hole i j k : Nat}

theorem LeAt.trans (hij : LeAt elements i j) (hjk : LeAt elements j k) : LeAt elements i k := by
  obtain ⟨a, b, ha, hb, hab⟩ := hij
  obtain ⟨b', c, hb', hc, hbc⟩ := hjk
  cases hb.symm.trans hb'
  exact ⟨a, c, ha, hc, le_trans hab hbc⟩

/-- What is known of two positions is known of where their elements go. -/
theorem LeAt.move {i' j' : Nat} (h : LeAt elements i j) (hi : elements'[i']? = elements[i]?)
    (hj : elements'[j']? = elements[j]?) : LeAt elements' i' j' := by
  obtain ⟨a, b, ha, hb, hab⟩ := h
  exact ⟨a, b, hi.trans ha, hj.trans hb, hab⟩

theorem LeAt.self (h : i < elements.length) : LeAt elements i i :=
  ⟨elements[i], elements[i], List.getElem?_eq_getElem h, List.getElem?_eq_getElem h, le_refl _⟩

/-- An element goes down: its smaller child comes in its place. -/
theorem DownOrder.move {m : Nat} (h : DownOrder elements size lo hole)
    (hm : (m - 1) / 2 = hole ∧ 0 < m ∧ m < size) (hlt : LeAt elements m hole)
    (hmin : ∀ child, child < size → (child - 1) / 2 = hole → 0 < child → LeAt elements m child)
    (hhole : elements'[hole]? = elements[m]?) (hat : elements'[m]? = elements[hole]?)
    (hother : ∀ k, k ≠ hole → k ≠ m → elements'[k]? = elements[k]?) :
    DownOrder elements' size lo m where
  except := by
    intro child hpos hchild hlo hparent
    by_cases hup : (child - 1) / 2 = hole
    · rw [hup]
      by_cases hchild' : child = m
      · subst hchild'
        exact hlt.move hhole hat
      · exact (hmin child hchild hup hpos).move hhole (hother child (by omega) hchild')
    · by_cases hchild' : child = hole
      · subst hchild'
        exact (h.grand m hm.2.2 hm.1 hm.2.1 hpos hlo).move (hother _ (by omega) hparent) hhole
      · exact (h.except child hpos hchild hlo hup).move (hother _ hup hparent)
          (hother child hchild' (by omega))
  grand := by
    intro child hchild hparent hpos hm' hlo
    have hup := h.except child hpos hchild (by omega) (by omega)
    rw [hparent] at hup
    rw [hm.1]
    exact hup.move hhole (hother child (by omega) (by omega))

theorem DownOrder.finish (h : DownOrder elements size lo hole)
    (hchildren : ∀ child, child < size → (child - 1) / 2 = hole → 0 < child →
      LeAt elements hole child) : OrderedFrom elements size lo := by
  intro child hpos hchild hlo
  by_cases hup : (child - 1) / 2 = hole
  · rw [hup]
    exact hchildren child hchild hup hpos
  · exact h.except child hpos hchild hlo hup

/-- An element goes up: its parent comes in its place. -/
theorem UpOrder.move (h : UpOrder elements size hole) (hhole : 0 < hole ∧ hole < size)
    (hlt : LeAt elements hole ((hole - 1) / 2)) (hat : elements'[hole]? = elements[(hole - 1) / 2]?)
    (hup : elements'[(hole - 1) / 2]? = elements[hole]?)
    (hother : ∀ k, k ≠ hole → k ≠ (hole - 1) / 2 → elements'[k]? = elements[k]?) :
    UpOrder elements' size ((hole - 1) / 2) where
  except := by
    intro child hpos hchild hne
    by_cases hchild' : child = hole
    · subst hchild'
      exact hlt.move hup hat
    · by_cases hparent : (child - 1) / 2 = hole
      · rw [hparent]
        exact (h.grand child hchild hparent hpos hhole.1).move hat (hother child hchild' hne)
      · have hkept := h.except child hpos hchild hchild'
        by_cases hsibling : (child - 1) / 2 = (hole - 1) / 2
        · rw [hsibling] at hkept ⊢
          exact (hlt.trans hkept).move hup (hother child hchild' hne)
        · exact hkept.move (hother _ hparent hsibling) (hother child hchild' hne)
  grand := by
    intro child hchild hparent hpos hpos'
    have habove := h.except ((hole - 1) / 2) hpos' (by omega) (by omega)
    have hfar := hother (((hole - 1) / 2 - 1) / 2) (by omega) (by omega)
    by_cases hchild' : child = hole
    · subst hchild'
      exact habove.move hfar hat
    · have hkept := h.except child hpos hchild hchild'
      rw [hparent] at hkept
      exact (habove.trans hkept).move hfar (hother child hchild' (by omega))

theorem UpOrder.finish (h : UpOrder elements size hole)
    (hparent : 0 < hole → hole < size → LeAt elements ((hole - 1) / 2) hole) :
    OrderedFrom elements size 0 := by
  intro child hpos hchild _
  by_cases hchild' : child = hole
  · subst hchild'
    exact hparent hpos hchild
  · exact h.except child hpos hchild hchild'

theorem OrderedFrom.root_le (h : OrderedFrom elements size 0) (hlength : size ≤ elements.length)
    (hi : i < size) : LeAt elements 0 i := by
  induction i using Nat.strongRecOn with
  | ind i ih =>
    rcases Nat.eq_zero_or_pos i with rfl | hpos
    · exact .self (by omega)
    · exact (ih ((i - 1) / 2) (by omega) (by omega)).trans (h i hpos hi (Nat.zero_le _))

end

section

variable {K : Type} [Preorder K] [Std.Total (α := K) (· ≤ ·)] {a b : K}

theorem le_of_not_le (h : ¬ a ≤ b) : b ≤ a :=
  (Std.Total.total a b).resolve_left h

theorem le_of_not_less (h : ¬ b < a) : a ≤ b :=
  Classical.byContradiction fun hnot => h (lt_of_le_not_ge (le_of_not_le hnot) hnot)

end

/-! ## The operations -/

section

variable {K V : Type} [Preorder K] [Std.Total (α := K) (· ≤ ·)] [DecidableLE K] [DecidableLT K]
  {elements : List (HeapElement K V)} {size lo hole : Nat}

omit [DecidableLE K] in
theorem minChild_returns (hlength : size ≤ elements.length) (hleft : hole * 2 + 1 < size) :
    Returns (fun m => ((m - 1) / 2 = hole ∧ 0 < m ∧ m < size) ∧
      ∀ child, child < size → (child - 1) / 2 = hole → 0 < child → LeAt elements m child)
      (minChild size elements hole) := by
  have hself := @LeAt.self K V _ elements (hole * 2 + 1) (by omega)
  have hchild : ∀ child, (child - 1) / 2 = hole → 0 < child →
      child = hole * 2 + 1 ∨ child = hole * 2 + 2 := by omega
  unfold minChild
  by_cases hright : hole * 2 + 2 < size
  · have hself' := @LeAt.self K V _ elements (hole * 2 + 2) (by omega)
    obtain ⟨a, ha⟩ : ∃ a, elements[hole * 2 + 1]? = some a :=
      ⟨_, List.getElem?_eq_getElem (by omega)⟩
    obtain ⟨b, hb⟩ : ∃ b, elements[hole * 2 + 2]? = some b :=
      ⟨_, List.getElem?_eq_getElem (by omega)⟩
    simp only [if_pos hright, ha, hb, bind_eq_bind, bind_some]
    by_cases hlt : b.key < a.key
    · rw [if_pos hlt]
      refine ⟨by omega, fun child _ hparent hpos => ?_⟩
      rcases hchild child hparent hpos with rfl | rfl
      · exact ⟨b, a, hb, ha, le_of_lt hlt⟩
      · exact hself'
    · rw [if_neg hlt]
      refine ⟨by omega, fun child _ hparent hpos => ?_⟩
      rcases hchild child hparent hpos with rfl | rfl
      · exact hself
      · exact ⟨a, b, ha, hb, le_of_not_less hlt⟩
  · rw [if_neg hright]
    refine ⟨by omega, fun child hbound hparent hpos => ?_⟩
    rcases hchild child hparent hpos with rfl | rfl
    · exact hself
    · omega

theorem heapifyDown_returns {fuel : Nat} (hlength : size ≤ elements.length)
    (hfuel : 0 < fuel ∧ size < fuel + hole) (h : DownOrder elements size lo hole) :
    Returns (fun elements' => Rearranges 0 size elements elements' ∧
      OrderedFrom elements' size lo) (heapifyDown size fuel elements hole) := by
  induction fuel generalizing elements hole with
  | zero => omega
  | succ fuel ih =>
    rw [heapifyDown]
    by_cases hchildren : hole * 2 + 1 < size
    · rw [if_pos hchildren]
      refine bind (minChild_returns hlength hchildren) fun m hm => ?_
      obtain ⟨hbounds, hmin⟩ := hm
      obtain ⟨a, ha⟩ : ∃ a, elements[hole]? = some a := ⟨_, List.getElem?_eq_getElem (by omega)⟩
      obtain ⟨b, hb⟩ : ∃ b, elements[m]? = some b := ⟨_, List.getElem?_eq_getElem (by omega)⟩
      simp only [ha, hb, bind_eq_bind, bind_some]
      by_cases hle : a.key ≤ b.key
      · rw [if_pos hle]
        have hrest : LeAt elements hole m := ⟨a, b, ha, hb, hle⟩
        exact ⟨.refl _ _ _, h.finish fun child hchild hparent hpos =>
          hrest.trans (hmin child hchild hparent hpos)⟩
      · obtain ⟨elements', hexchange, hat, hat', hother, hmove⟩ :=
          @exists_exchange_nat K V elements hole m (by omega) (by omega)
        have hmoved := hmove size (by omega) (by omega)
        rw [if_neg hle]
        simp only [hexchange, bind_some]
        refine (ih (hmoved.length_eq ▸ hlength) (by omega)
          (h.move hbounds ⟨b, a, hb, ha, le_of_not_le hle⟩ hmin hat hat' hother)).mono
          fun elements'' hlast => ⟨hmoved.trans hlast.1, hlast.2⟩
    · rw [if_neg hchildren]
      refine ⟨.refl _ _ _, h.finish fun child hchild hparent hpos => ?_⟩
      omega

omit [DecidableLT K] in
/-- `heapify_up` restores the order above a position. -/
theorem heapifyUp_returns {fuel : Nat} (hlength : size ≤ elements.length) (hhole : hole < size)
    (hfuel : hole < fuel) (h : UpOrder elements size hole) :
    Returns (fun elements' => Rearranges 0 size elements elements' ∧
      OrderedFrom elements' size 0) (heapifyUp fuel elements hole) := by
  induction fuel generalizing elements hole with
  | zero => omega
  | succ fuel ih =>
    rw [heapifyUp]
    by_cases hroot : hole ≠ 0
    · obtain ⟨a, ha⟩ : ∃ a, elements[hole]? = some a := ⟨_, List.getElem?_eq_getElem (by omega)⟩
      obtain ⟨b, hb⟩ : ∃ b, elements[(hole - 1) / 2]? = some b :=
        ⟨_, List.getElem?_eq_getElem (by omega)⟩
      rw [if_pos hroot]
      simp only [ha, hb, bind_eq_bind, bind_some]
      by_cases hge : a.key ≥ b.key
      · rw [if_pos hge]
        exact ⟨.refl _ _ _, h.finish fun _ _ => ⟨b, a, hb, ha, hge⟩⟩
      · obtain ⟨elements', hexchange, hat, hat', hother, hmove⟩ :=
          @exists_exchange_nat K V elements hole ((hole - 1) / 2) (by omega) (by omega)
        have hmoved := hmove size hhole (by omega)
        rw [if_neg hge]
        simp only [hexchange, bind_some]
        refine (ih (hmoved.length_eq ▸ hlength) (by omega) (by omega)
          (h.move ⟨by omega, hhole⟩ ⟨a, b, ha, hb, le_of_not_le hge⟩ hat hat' hother)).mono
          fun elements'' hlast => ⟨hmoved.trans hlast.1, hlast.2⟩
    · rw [if_neg hroot]
      exact ⟨.refl _ _ _, h.finish fun hpos => absurd (Nat.pos_iff_ne_zero.mp hpos) hroot⟩

/-! ## The constructor and the operations on a heap -/

theorem heapifyLoop_returns {i : Nat} (hlength : size ≤ elements.length) (hi : i ≤ size)
    (h : OrderedFrom elements size (i + 1)) :
    Returns (fun elements' => Rearranges 0 size elements elements' ∧
      OrderedFrom elements' size 0) (heapifyLoop size i elements) := by
  have hdown : ∀ {i} {elements : List (HeapElement K V)}, OrderedFrom elements size (i + 1) →
      DownOrder elements size i i := fun h =>
    ⟨fun child hpos hchild hlo hne => h child hpos hchild (by omega),
      fun child _ _ _ hpos hlo => by omega⟩
  induction i generalizing elements with
  | zero => exact heapifyDown_returns hlength (by omega) (hdown h)
  | succ i ih =>
    refine bind (heapifyDown_returns hlength (by omega) (hdown h)) fun elements' h' => ?_
    refine (ih (h'.1.length_eq ▸ hlength) (by omega) h'.2).mono fun elements'' h'' => ?_
    exact ⟨h'.1.trans h''.1, h''.2⟩

variable {capacity : Nat} {heap : BinaryHeap K V}

theorem construct_returns {storage : List (HeapElement K V)} {keys : List K} {values : List V}
    (hkeys : size ≤ keys.length) (hvalues : size ≤ values.length) (hsize : size ≤ storage.length) :
    Returns (fun heap => IsHeap storage.length heap ∧ heap.size = size ∧
      heap.contents.Perm ((List.zipWith HeapElement.mk keys values).take size))
      (construct storage keys values size) := by
  rw [construct, if_pos hsize]
  refine bind (copyLoop_returns (by omega) (by omega) (by omega)) fun elements h => ?_
  obtain ⟨hlength, _, hcopied⟩ := h
  have hnone : OrderedFrom elements size (size / 2 + 1) := by
    intro child hpos hchild hlo
    omega
  refine bind (heapifyLoop_returns (by omega) (by omega) hnone) fun elements' h' => ?_
  refine ⟨⟨h'.1.length_eq.trans hlength, hsize, h'.2⟩, rfl, h'.1.take_perm.trans ?_⟩
  refine List.Perm.of_eq (ext_getElem? fun k => ?_)
  simp only [List.getElem?_take]
  split_ifs with hk
  · exact hcopied k (Nat.zero_le k) (by omega)
  · rfl

omit [DecidableLT K] in
theorem insert_returns (h : IsHeap capacity heap) (hroom : heap.size < capacity) (key : K)
    (value : V) : Returns (fun heap' => IsHeap capacity heap' ∧ heap'.size = heap.size + 1 ∧
      heap'.contents.Perm (⟨key, value⟩ :: heap.contents)) (heap.insert key value) := by
  have hlength := h.length_eq
  have hset : (heap.elements.set heap.size ⟨key, value⟩).length = capacity :=
    length_set.trans hlength
  have hup : UpOrder (heap.elements.set heap.size ⟨key, value⟩) (heap.size + 1) heap.size := by
    refine ⟨fun child hpos hchild hne => ?_, fun child hchild hparent hpos hpos' => by omega⟩
    exact (h.ordered child hpos (by omega) (Nat.zero_le _)).move
      (List.getElem?_set_ne (by omega)) (List.getElem?_set_ne (by omega))
  rw [insert, if_pos (by omega)]
  refine bind (heapifyUp_returns (by omega) (Nat.lt_succ_self _) (Nat.lt_succ_self _) hup)
    fun elements' h' => ?_
  refine ⟨⟨h'.1.length_eq.trans hset, by dsimp only; omega, h'.2⟩, rfl, ?_⟩
  have htake : (heap.elements.set heap.size ⟨key, value⟩).take (heap.size + 1) =
      heap.contents ++ [⟨key, value⟩] := by
    rw [take_add_one, take_set_of_le (Nat.le_refl _), List.getElem?_set_self (by omega)]
    rfl
  exact (htake ▸ h'.1.take_perm).trans (perm_append_singleton _ _)

theorem popMin_returns (h : IsHeap capacity heap) (hsome : 0 < heap.size) :
    Returns (fun result => IsHeap capacity result.1 ∧ result.1.size + 1 = heap.size ∧
      ∃ key, heap.contents.Perm (⟨key, result.2⟩ :: result.1.contents) ∧
        ∀ element ∈ heap.contents, key ≤ element.key) heap.popMin := by
  have hlength := h.length_eq
  have hsize := h.size_le
  obtain ⟨root, hroot⟩ : ∃ root, heap.elements[0]? = some root :=
    ⟨_, List.getElem?_eq_getElem (by omega)⟩
  obtain ⟨elements₁, hexchange, _, hlast, hother, hmove⟩ :=
    @exists_exchange_nat K V heap.elements 0 (heap.size - 1) (by omega) (by omega)
  have hmoved := hmove heap.size hsome (by omega)
  have hlength₁ := hmoved.length_eq
  have hdown : DownOrder elements₁ (heap.size - 1) 0 0 := by
    refine ⟨fun child hpos hchild _ hne => ?_, fun child _ _ _ hpos => by omega⟩
    exact (h.ordered child hpos (by omega) (Nat.zero_le _)).move
      (hother _ hne (by omega)) (hother child (by omega) (by omega))
  rw [popMin, if_pos (by omega)]
  simp only [hexchange, bind_eq_bind, bind_some]
  refine bind (heapifyDown_returns (by omega) (by omega) hdown) fun elements₂ h₂ => ?_
  have hkept := h₂.1.outside ((heap.size - 1 : Nat) : Int) (.inr (Int.le_refl _))
  simp only [entry_natCast] at hkept
  have hatLast : elements₂[heap.size - 1]? = some root := hkept.trans (hlast.trans hroot)
  refine Returns.of_eq (b := (⟨elements₂, heap.size - 1⟩, root.value)) (by rw [hatLast]; rfl) ?_
  have hlength₂ := h₂.1.length_eq
  have htake : elements₁.take heap.size = elements₁.take (heap.size - 1) ++ [root] := by
    obtain ⟨n, hn⟩ : ∃ n, heap.size = n + 1 := ⟨heap.size - 1, by omega⟩
    rw [hn, Nat.add_sub_cancel] at hlast ⊢
    rw [take_add_one, hlast, hroot]
    rfl
  refine ⟨⟨by dsimp only; omega, by dsimp only; omega, h₂.2⟩, by dsimp only; omega, root.key, ?_,
    fun element hmem => ?_⟩
  · calc heap.contents.Perm (elements₁.take heap.size) := hmoved.take_perm.symm
      _ = elements₁.take (heap.size - 1) ++ [root] := htake
      List.Perm _ (elements₂.take (heap.size - 1) ++ [root]) :=
        h₂.1.take_perm.symm.append_right _
      List.Perm _ (root :: elements₂.take (heap.size - 1)) := perm_append_singleton _ _
  · obtain ⟨i, hi⟩ := mem_iff_getElem?.mp hmem
    rw [contents, List.getElem?_take] at hi
    split_ifs at hi with hbound
    · obtain ⟨a, b, ha, hb, hab⟩ := h.ordered.root_le (by omega) hbound
      cases hroot.symm.trans ha
      cases hi.symm.trans hb
      exact hab

end

/-! ## Runs -/

variable {K V : Type}

/-- What a sequence of operations inserts. -/
def inserted : List (Operation K V) → List (HeapElement K V)
  | [] => []
  | .insert key value :: ops => ⟨key, value⟩ :: inserted ops
  | .popMin :: ops => inserted ops

/-- A sequence of operations stays within the capacity. -/
def Fits (capacity : Nat) : (size : Nat) → List (Operation K V) → Prop
  | _, [] => True
  | size, .insert _ _ :: ops => size < capacity ∧ Fits capacity (size + 1) ops
  | size, .popMin :: ops => 0 < size ∧ Fits capacity (size - 1) ops

theorem fits_replicate (capacity n : Nat) :
    Fits capacity n (List.replicate n (.popMin : Operation K V)) := by
  induction n with
  | zero => exact trivial
  | succ n ih => exact ⟨Nat.succ_pos n, ih⟩

section

variable {K V : Type} [Preorder K]

/-- What a priority queue may do: an insertion adds an element, and a removal takes a minimal
one. -/
inductive Serves : (stored : List (HeapElement K V)) → List (Operation K V) →
    (popped rest : List (HeapElement K V)) → Prop
  | done {stored rest : List (HeapElement K V)} : stored.Perm rest → Serves stored [] [] rest
  | insert {stored popped rest : List (HeapElement K V)} {ops : List (Operation K V)} {key : K}
      {value : V} : Serves (⟨key, value⟩ :: stored) ops popped rest →
      Serves stored (.insert key value :: ops) popped rest
  | popMin {stored left popped rest : List (HeapElement K V)} {ops : List (Operation K V)}
      {element : HeapElement K V} : stored.Perm (element :: left) →
      (∀ other ∈ stored, element.key ≤ other.key) → Serves left ops popped rest →
      Serves stored (.popMin :: ops) (element :: popped) rest

namespace Serves

variable {stored stored' popped rest : List (HeapElement K V)} {ops : List (Operation K V)}

section

variable (h : Serves stored ops popped rest)

include h

theorem congr (hperm : stored'.Perm stored) : Serves stored' ops popped rest := by
  induction h generalizing stored' with
  | done hrest => exact .done (hperm.trans hrest)
  | insert _ ih => exact .insert (ih (hperm.cons _))
  | popMin hleft hmin hrest _ =>
    exact .popMin (hperm.trans hleft) (fun other hmem => hmin other (hperm.mem_iff.mp hmem)) hrest

theorem perm : (popped ++ rest).Perm (stored ++ inserted ops) := by
  induction h with
  | done hrest =>
    rw [inserted, append_nil]
    exact hrest.symm
  | insert _ ih => exact ih.trans perm_middle.symm
  | popMin hleft _ _ ih => exact (ih.cons _).trans (hleft.symm.append_right _)

/-- What is popped without insertions comes in the order of the keys. -/
theorem drain {n : Nat}
    (hops : ops = List.replicate n .popMin) : popped.length = n ∧ (popped ++ rest).Perm stored ∧
      popped.Pairwise fun a b => a.key ≤ b.key := by
  induction h generalizing n with
  | done hrest =>
    cases n with
    | zero => exact ⟨rfl, hrest.symm, .nil⟩
    | succ n => cases hops
  | insert _ _ => cases n <;> cases hops
  | popMin hleft hmin _ ih =>
    cases n with
    | zero => cases hops
    | succ n =>
      cases hops
      obtain ⟨hlength, hperm, hsorted⟩ := ih rfl
      refine ⟨congrArg (· + 1) hlength, (hperm.cons _).trans hleft.symm,
        pairwise_cons.mpr ⟨fun other hother => ?_, hsorted⟩⟩
      have hmem := hperm.mem_iff.mp (mem_append_left _ hother)
      exact hmin other (hleft.mem_iff.mpr (mem_cons_of_mem _ hmem))

end

end Serves

end

section

variable {K V : Type} [Preorder K] [Std.Total (α := K) (· ≤ ·)] [DecidableLE K] [DecidableLT K]
  {capacity : Nat} {heap : BinaryHeap K V}

/-- Every sequence of operations within the capacity serves as a priority queue. -/
theorem run_serves {ops : List (Operation K V)} (h : IsHeap capacity heap)
    (hfits : Fits capacity heap.size ops) :
    ∃ heap' popped, heap.run ops = some (heap', popped.map HeapElement.value) ∧
      IsHeap capacity heap' ∧ Serves heap.contents ops popped heap'.contents := by
  induction ops generalizing heap with
  | nil => exact ⟨heap, [], rfl, h, .done (.refl _)⟩
  | cons op ops ih =>
    cases op with
    | insert key value =>
      obtain ⟨heap₁, heq, h₁, hsize, hperm⟩ :=
        (insert_returns h hfits.1 key value).exists_some
      obtain ⟨heap₂, popped, hrun, h₂, hserves⟩ := ih h₁ (hsize ▸ hfits.2)
      refine ⟨heap₂, popped, ?_, h₂, .insert (hserves.congr hperm.symm)⟩
      simp only [run, step, heq, hrun, bind_eq_bind, bind_some, Option.pure_def]
      rfl
    | popMin =>
      obtain ⟨⟨heap₁, value⟩, heq, h₁, hsize, key, hperm, hmin⟩ :=
        (popMin_returns h hfits.1).exists_some
      have hless : heap.size - 1 = heap₁.size := by
        dsimp only at hsize
        omega
      obtain ⟨heap₂, popped, hrun, h₂, hserves⟩ := ih h₁ (hless ▸ hfits.2)
      refine ⟨heap₂, ⟨key, value⟩ :: popped, ?_, h₂, .popMin hperm hmin hserves⟩
      simp only [run, step, heq, hrun, bind_eq_bind, bind_some, Option.pure_def]
      rfl

/-- A heap popped until nothing is left gives everything, in the order of the keys. -/
theorem run_drains (h : IsHeap capacity heap) :
    ∃ heap' drained, heap.run (List.replicate heap.size .popMin) =
        some (heap', List.map HeapElement.value drained) ∧ heap'.size = 0 ∧
      List.Perm drained heap.contents ∧ List.Pairwise (fun a b => a.key ≤ b.key) drained := by
  obtain ⟨heap', drained, hrun, h', hserves⟩ := run_serves h (fits_replicate capacity heap.size)
  obtain ⟨hlength, hperm, hsorted⟩ := hserves.drain rfl
  have hcontents : ∀ {heap : BinaryHeap K V}, IsHeap capacity heap →
      heap.contents.length = heap.size := by
    intro heap h
    rw [contents, List.length_take, h.length_eq, Nat.min_eq_left h.size_le]
  have hsum := hperm.length_eq
  rw [length_append, hlength, hcontents h, hcontents h'] at hsum
  have hnone : heap'.contents = [] := length_eq_zero_iff.mp (by rw [hcontents h']; omega)
  rw [hnone, append_nil] at hperm
  exact ⟨heap', drained, hrun, by omega, hperm, hsorted⟩

/-- After its construction from two arrays, a heap serves as a priority queue as long as its
capacity suffices: in every state it is in heap order, every removal takes a minimal element,
nothing is lost and nothing comes twice, and all that is left comes in the order of the keys. -/
theorem heap_serves {storage : List (HeapElement K V)} {keys : List K} {values : List V}
    {size : Nat} {ops : List (Operation K V)} (hkeys : size ≤ keys.length)
    (hvalues : size ≤ values.length) (hsize : size ≤ storage.length)
    (hfits : Fits storage.length size ops) :
    ∃ first heap popped, construct storage keys values size = some first ∧
      IsHeap storage.length first ∧
      first.run ops = some (heap, List.map HeapElement.value popped) ∧
      IsHeap storage.length heap ∧
      Serves ((List.zipWith HeapElement.mk keys values).take size) ops popped heap.contents ∧
      (popped ++ heap.contents).Perm
        ((List.zipWith HeapElement.mk keys values).take size ++ inserted ops) ∧
      ∃ empty drained, heap.run (List.replicate heap.size .popMin) =
          some (empty, List.map HeapElement.value drained) ∧ empty.size = 0 ∧
        List.Perm drained heap.contents ∧ List.Pairwise (fun a b => a.key ≤ b.key) drained := by
  obtain ⟨first, hconstruct, hfirst, hstart, hcontents⟩ :=
    (construct_returns hkeys hvalues hsize).exists_some
  obtain ⟨heap, popped, hrun, hheap, hserves⟩ := run_serves hfirst (hstart ▸ hfits)
  have hserves' := hserves.congr hcontents.symm
  exact ⟨first, heap, popped, hconstruct, hfirst, hrun, hheap, hserves', hserves'.perm,
    run_drains hheap⟩

end

/-- A heap of two elements with room for a third. -/
theorem heap_serves_two : ∃ first heap popped,
    construct (List.replicate 3 (⟨0, 0⟩ : HeapElement Nat Nat)) [2, 1] [20, 10] 2 = some first ∧
    IsHeap 3 first ∧
    first.run [.insert 0 5, .popMin] = some (heap, List.map HeapElement.value popped) ∧
    Serves [⟨2, 20⟩, ⟨1, 10⟩] [.insert 0 5, .popMin] popped heap.contents := by
  have hfits : Fits (List.replicate 3 (⟨0, 0⟩ : HeapElement Nat Nat)).length 2
      ([.insert 0 5, .popMin] : List (Operation Nat Nat)) :=
    ⟨by decide, by decide, trivial⟩
  have hkeys : 2 ≤ [2, 1].length := by decide
  have hvalues : 2 ≤ [20, 10].length := by decide
  obtain ⟨first, heap, popped, hconstruct, hfirst, hrun, _, hserves, _⟩ :=
    heap_serves hkeys hvalues (by decide) hfits
  exact ⟨first, heap, popped, hconstruct, hfirst, hrun, hserves⟩

end BinaryHeap

end Literate.AK

import Literate.AK.Types
import Literate.Foundation.Contracts
import Literate.Foundation.Rearranging

/-!
# AK: sorting

The two sorts of `AK/QuickSort.h`.  A computation is `none` where an index leaves the
collection or an `int` overflows; the pivots are references, and are read where they stand.
-/

namespace Literate.AK.QuickSort

open Foundation Option
open Returns (bind)

variable {fuel : Nat}

section

variable {α : Type} (lessThan : α → α → Bool)

/-! ## Two pivots -/

/-- The variables of a partition with two pivots. -/
structure Cursors (α : Type) where
  col : List α
  j : Int
  k : Int
  g : Int

/-- The entries of the pivots are chosen, and put in order. -/
def choosePivots (col : List α) (start stop size : Int) : Option (List α) :=
  if size > 3 then do
    let third := size.tdiv 3
    let left ← int (start + third)
    let right ← int (stop - third)
    let atLeft ← entry col left
    let atRight ← entry col right
    if lessThan atLeft atRight then do
      let col ← exchange col left start
      exchange col right stop
    else do
      let col ← exchange col left stop
      exchange col right start
  else do
    let atStart ← entry col start
    let atStop ← entry col stop
    if !lessThan atStart atStop then exchange col start stop
    else return col

/-- The inner loop of the partition: `g` goes down. -/
def skipLoop (col : List α) (stop k : Int) : (fuel : Nat) → (g : Int) → Option Int
  | 0, _ => none
  | fuel + 1, g => do
      let atG ← entry col g
      let rightPivot ← entry col stop
      if !lessThan atG rightPivot && k < g then do
        let g ← int (g - 1)
        skipLoop col stop k fuel g
      else return g

/-- One round of the partition. -/
def partitionStep (start stop : Int) (c : Cursors α) : Option (Cursors α) := do
  let atK ← entry c.col c.k
  let leftPivot ← entry c.col start
  if lessThan atK leftPivot then do
    let col ← exchange c.col c.k c.j
    let j ← int (c.j + 1)
    let k ← int (c.k + 1)
    return ⟨col, j, k, c.g⟩
  else do
    let rightPivot ← entry c.col stop
    if !lessThan atK rightPivot then do
      let g ← skipLoop lessThan c.col stop c.k ((c.g - c.k).toNat + 1) c.g
      let col ← exchange c.col c.k g
      let g ← int (g - 1)
      let atK ← entry col c.k
      let leftPivot ← entry col start
      if lessThan atK leftPivot then do
        let col ← exchange col c.k c.j
        let j ← int (c.j + 1)
        let k ← int (c.k + 1)
        return ⟨col, j, k, g⟩
      else do
        let k ← int (c.k + 1)
        return ⟨col, c.j, k, g⟩
    else do
      let k ← int (c.k + 1)
      return { c with k }

/-- The loop of the partition. -/
def partitionLoop (start stop : Int) : (fuel : Nat) → Cursors α → Option (Cursors α)
  | 0, _ => none
  | fuel + 1, c =>
    if c.k ≤ c.g then do
      let c ← partitionStep lessThan start stop c
      partitionLoop start stop fuel c
    else return c

/-- The partition: the collection, and where the pivots are. -/
def partition (col : List α) (start stop : Int) : Option (Cursors α) := do
  let j ← int (start + 1)
  let g ← int (stop - 1)
  let c ← partitionLoop lessThan start stop ((stop - start).toNat + 1) ⟨col, j, j, g⟩
  let j ← int (c.j - 1)
  let g ← int (c.g + 1)
  let col ← exchange c.col start j
  let col ← exchange col stop g
  return ⟨col, j, c.k, g⟩

def dualPivotQuickSort : (fuel : Nat) → (col : List α) → (start stop : Int) → Option (List α)
  | 0, _, _, _ => none
  | fuel + 1, col, start, stop =>
    if start < stop then do
      let size ← int (stop - start)
      let size ← int (size + 1)
      let col ← choosePivots lessThan col start stop size
      let c ← partition lessThan col start stop
      let leftStop ← int (c.j - 1)
      let middleStart ← int (c.j + 1)
      let middleStop ← int (c.g - 1)
      let rightStart ← int (c.g + 1)
      let leftSize ← int (c.j - start)
      let middleSize ← int (c.g - middleStart)
      let afterStop ← int (stop + 1)
      let rightSize ← int (afterStop - rightStart)
      if leftSize ≥ middleSize ∧ leftSize ≥ rightSize then do
        let col ← dualPivotQuickSort fuel c.col middleStart middleStop
        let col ← dualPivotQuickSort fuel col rightStart stop
        dualPivotQuickSort fuel col start leftStop
      else if middleSize ≥ rightSize then do
        let col ← dualPivotQuickSort fuel c.col start leftStop
        let col ← dualPivotQuickSort fuel col rightStart stop
        dualPivotQuickSort fuel col middleStart middleStop
      else do
        let col ← dualPivotQuickSort fuel c.col start leftStop
        let col ← dualPivotQuickSort fuel col middleStart middleStop
        dualPivotQuickSort fuel col rightStart stop
    else return col

/-! ## One pivot -/

/-- The loop of the partition with one pivot: the collection and `i`. -/
def pivotLoop (start size : Int) : (fuel : Nat) → (j : Int) → (col : List α) → (i : Int) →
    Option (List α × Int)
  | 0, _, _, _ => none
  | fuel + 1, j, col, i =>
    if j < size then do
      let atJ ← entry col (start + j)
      let pivot ← entry col start
      if lessThan atJ pivot then do
        let col ← exchange col (start + j) (start + i)
        let i ← int (i + 1)
        let j ← int (j + 1)
        pivotLoop start size fuel j col i
      else do
        let j ← int (j + 1)
        pivotLoop start size fuel j col i
    else return (col, i)

/-- `single_pivot_quick_sort`, on the positions of the iterators. -/
def singlePivotQuickSort : (fuel : Nat) → (col : List α) → (start stop : Int) → Option (List α)
  | 0, _, _, _ => none
  | fuel + 1, col, start, stop => do
      let size ← int (stop - start)
      if size ≤ 1 then return col
      else do
        let pivotPoint := size.tdiv 2
        let col ← (if pivotPoint ≠ 0 then exchange col (start + pivotPoint) start else some col)
        let parted ← pivotLoop lessThan start size size.toNat 1 col 1
        let i := parted.2
        let col ← exchange parted.1 start (start + i - 1)
        if i > size.tdiv 2 then do
          let col ← singlePivotQuickSort fuel col (start + i) stop
          singlePivotQuickSort fuel col start (start + i - 1)
        else do
          let col ← singlePivotQuickSort fuel col start (start + i - 1)
          singlePivotQuickSort fuel col (start + i) stop

/-! ## The partition with two pivots -/

variable {lessThan} {start stop n : Int} {col : List α} {left right : α} {c : Cursors α}

/-- The range of a call lies in the collection, whose positions are `int`s. -/
structure InRange (col : List α) (start stop : Int) : Prop where
  start_nonneg : 0 ≤ start
  stop_lt : stop < col.length
  length_lt : col.length < 2147483648

/-- What is known between two rounds: what is below the left pivot, what is between the pivots,
what is left, and what is not below the right one. -/
structure Partitioning (lessThan : α → α → Bool) (start stop : Int) (left right : α)
    (before : List α) (c : Cursors α) : Prop where
  inRange : InRange c.col start stop
  rearranges : Rearranges (start + 1) stop before c.col
  left_at : entry c.col start = some left
  right_at : entry c.col stop = some right
  start_lt : start + 1 ≤ c.j
  j_le : c.j ≤ c.k ∧ c.j ≤ c.g + 1
  k_le : c.k ≤ c.g + 2
  g_lt : c.g < stop
  below : AllOn (fun a => lessThan a left = true) c.col (start + 1) c.j
  between : AllOn (fun a => lessThan a left = false ∧ lessThan a right = true) c.col c.j
    (min c.k (c.g + 1))
  above : AllOn (fun a => lessThan a right = false) c.col (c.g + 1) stop

/-- The inner loop ends at an entry that is below the right pivot, or at `k`. -/
theorem skipLoop_returns {k : Int} {g : Int} (hrange : InRange col start stop)
    (hright : entry col stop = some right) (hk : 0 ≤ k) (hg : k ≤ g ∧ g < stop)
    (hfuel : g - k < fuel) (habove : AllOn (fun a => lessThan a right = false) col (g + 1) stop) :
    Returns (fun g' => k ≤ g' ∧ g' ≤ g ∧
      AllOn (fun a => lessThan a right = false) col (g' + 1) stop ∧
      (g' = k ∨ ∃ b, entry col g' = some b ∧ lessThan b right = true))
      (skipLoop lessThan col stop k fuel g) := by
  obtain ⟨hnonneg, hstop, hlength⟩ := hrange
  induction fuel generalizing g with
  | zero => omega
  | succ fuel ih =>
    obtain ⟨b, hb⟩ := @exists_entry α col g (by omega) (by omega)
    simp only [skipLoop, hb, hright, bind_eq_bind, bind_some]
    by_cases hskip : (!lessThan b right && decide (k < g)) = true
    · rw [if_pos hskip, int_of_fits (by omega) (by omega), bind_some]
      simp only [Bool.and_eq_true, Bool.not_eq_true', decide_eq_true_eq] at hskip
      refine (ih (by omega) (by omega) ?_).mono fun g' hg' => ?_
      · rw [Int.sub_add_cancel]
        intro i a hlo hhi ha
        by_cases hig : i = g
        · subst hig
          cases hb.symm.trans ha
          exact hskip.1
        · exact habove i a (by omega) hhi ha
      · exact ⟨hg'.1, by omega, hg'.2.2⟩
    · rw [if_neg hskip]
      refine ⟨hg.1, Int.le_refl g, habove, ?_⟩
      by_cases hend : g = k
      · exact .inl hend
      · simp only [Bool.and_eq_true, Bool.not_eq_true', decide_eq_true_eq, not_and] at hskip
        refine .inr ⟨b, hb, Bool.of_not_eq_false fun hfalse => ?_⟩
        have hle := hskip hfalse
        omega

namespace Partitioning

variable {before : List α}

section

variable (h : Partitioning lessThan start stop left right before c)

include h

theorem takeBelow {a : α}
    (hk : c.k ≤ c.g) (hat : entry c.col c.k = some a) (hbelow : lessThan a left = true) :
    ∃ col, exchange c.col c.k c.j = some col ∧
      Partitioning lessThan start stop left right before ⟨col, c.j + 1, c.k + 1, c.g⟩ := by
  obtain ⟨hnonneg, hstop, hlength⟩ := h.inRange
  have hstart := h.start_lt
  have hj := h.j_le
  have hg := h.g_lt
  have hcount : min c.k (c.g + 1) = c.k := by omega
  obtain ⟨col, hcol, hex⟩ := @exists_exchange α c.col c.k c.j (by omega) (by omega)
  have hrearranges : Rearranges c.j (c.k + 1) c.col col := hex.rearranges (by omega) (by omega)
  have hbetween := hcount ▸ h.between
  refine ⟨col, hcol, ⟨hnonneg, hrearranges.length_eq ▸ hstop, hrearranges.length_eq ▸ hlength⟩,
    h.rearranges.trans (hrearranges.mono (by omega) (by omega)),
    (hrearranges.outside _ (by omega)).trans h.left_at,
    (hrearranges.outside _ (by omega)).trans h.right_at, ?_, ?_, ?_, hg, ?_, ?_,
    h.above.rearrange hrearranges (by omega)⟩
  · dsimp only
    omega
  · dsimp only
    omega
  · dsimp only
    omega
  · refine (h.below.rearrange hrearranges (by omega)).join (fun b hb => ?_)
      (.empty (by dsimp only; omega))
    rw [hex.right, hat] at hb
    cases hb
    exact hbelow
  · have hmin : min (c.k + 1) (c.g + 1) = c.k + 1 := by omega
    dsimp only
    rw [hmin]
    intro i b hlo hhi hb
    by_cases hik : i = c.k
    · subst hik
      rw [hex.left] at hb
      exact hbetween c.j b (by omega) (by omega) hb
    · rw [hex.other i hik (by omega)] at hb
      exact hbetween i b (by omega) (by omega) hb

theorem passBetween {a : α} (hk : c.k ≤ c.g) (hat : entry c.col c.k = some a)
    (hbetween : lessThan a left = false ∧ lessThan a right = true) :
    Partitioning lessThan start stop left right before { c with k := c.k + 1 } := by
  have hj := h.j_le
  have hcount : min c.k (c.g + 1) = c.k := by omega
  have hnext : min (c.k + 1) (c.g + 1) = c.k + 1 := by omega
  refine ⟨h.inRange, h.rearranges, h.left_at, h.right_at, h.start_lt, ⟨?_, hj.2⟩, ?_, h.g_lt,
    h.below, ?_, h.above⟩
  · dsimp only
    omega
  · dsimp only
    omega
  · dsimp only
    rw [hnext]
    refine (hcount ▸ h.between).join (fun b hb => ?_) (.empty (Int.le_refl _))
    cases hat.symm.trans hb
    exact hbetween

/-- An entry that is not below the right pivot is exchanged with one that is, or is the last
that was left. -/
theorem takeAbove {a : α} {g : Int}
    (hg : c.k ≤ g ∧ g ≤ c.g) (hat : entry c.col c.k = some a) (habove : lessThan a right = false)
    (hskipped : AllOn (fun a => lessThan a right = false) c.col (g + 1) stop) :
    ∃ col, exchange c.col c.k g = some col ∧ entry col c.k = entry c.col g ∧
      Partitioning lessThan start stop left right before ⟨col, c.j, c.k, g - 1⟩ := by
  obtain ⟨hnonneg, hstop, hlength⟩ := h.inRange
  have hstart := h.start_lt
  have hj := h.j_le
  have hlast := h.g_lt
  obtain ⟨col, hcol, hex⟩ := @exists_exchange α c.col c.k g (by omega) (by omega)
  have hrearranges : Rearranges c.k (g + 1) c.col col := hex.rearranges (by omega) (by omega)
  refine ⟨col, hcol, hex.left, ⟨hnonneg, hrearranges.length_eq ▸ hstop,
    hrearranges.length_eq ▸ hlength⟩,
    h.rearranges.trans (hrearranges.mono (by omega) (by omega)),
    (hrearranges.outside _ (by omega)).trans h.left_at,
    (hrearranges.outside _ (by omega)).trans h.right_at, hstart, ⟨hj.1, ?_⟩, ?_, ?_,
    h.below.rearrange hrearranges (by omega),
    (h.between.mono (Int.le_refl _) ?_).rearrange hrearranges (.inr (.inl ?_)), ?_⟩
  · dsimp only
    omega
  · dsimp only
    omega
  · dsimp only
    omega
  · dsimp only
    omega
  · dsimp only
    omega
  · dsimp only
    rw [Int.sub_add_cancel]
    intro i b hlo hhi hb
    by_cases hig : i = g
    · subst hig
      rw [hex.right, hat] at hb
      cases hb
      exact habove
    · rw [hrearranges.outside i (by omega)] at hb
      exact hskipped i b (by omega) hhi hb

end

/-- One round takes an entry from those that are left. -/
theorem step (h : Partitioning lessThan start stop left right before c) (hk : c.k ≤ c.g) :
    Returns (fun c' => Partitioning lessThan start stop left right before c' ∧
      c'.g - c'.k < c.g - c.k) (partitionStep lessThan start stop c) := by
  obtain ⟨hnonneg, hstop, hlength⟩ := h.inRange
  have hstart := h.start_lt
  have hj := h.j_le
  have hlast := h.g_lt
  have hjNext : int (c.j + 1) = some (c.j + 1) := int_of_fits (by omega) (by omega)
  have hkNext : int (c.k + 1) = some (c.k + 1) := int_of_fits (by omega) (by omega)
  obtain ⟨a, ha⟩ := @exists_entry α c.col c.k (by omega) (by omega)
  simp only [partitionStep, ha, h.left_at, h.right_at, hjNext, hkNext, bind_eq_bind,
    bind_some]
  cases hbelow : lessThan a left with
  | true =>
    obtain ⟨col, hcol, hnext⟩ := h.takeBelow hk ha hbelow
    simp only [hcol, bind_some]
    refine ⟨hnext, ?_⟩
    dsimp only
    omega
  | false =>
    cases habove : lessThan a right with
    | true =>
      refine ⟨h.passBetween hk ha ⟨hbelow, habove⟩, ?_⟩
      dsimp only
      omega
    | false =>
      refine bind (skipLoop_returns h.inRange h.right_at (by omega) ⟨hk, hlast⟩
        (by omega) h.above) fun g hg => ?_
      obtain ⟨hkg, hgle, hskipped, hend⟩ := hg
      obtain ⟨col, hcol, hatK, hnext⟩ := h.takeAbove ⟨hkg, hgle⟩ ha habove hskipped
      have hgNext : int (g - 1) = some (g - 1) := int_of_fits (by omega) (by omega)
      simp only [hcol, hgNext, hnext.left_at, bind_some]
      rcases Int.lt_or_eq_of_le hkg with hlt | rfl
      · obtain ⟨b, hb, hbright⟩ := hend.resolve_left (by omega)
        have hbK := hatK.trans hb
        simp only [hbK, bind_some]
        cases hbleft : lessThan b left with
        | true =>
          obtain ⟨col', hcol', hlast'⟩ := hnext.takeBelow (by dsimp only; omega) hbK hbleft
          simp only [hcol', bind_some]
          refine ⟨hlast', ?_⟩
          dsimp only
          omega
        | false =>
          refine ⟨hnext.passBetween (by dsimp only; omega) hbK ⟨hbleft, hbright⟩, ?_⟩
          dsimp only
          omega
      · -- nothing is left: `k` goes past `g`
        have hbK := hatK.trans ha
        simp only [hbK, hbelow, bind_some]
        have hbetween := hnext.between
        have hmin : min c.k (c.k - 1 + 1) = min (c.k + 1) (c.k - 1 + 1) := by omega
        rw [hmin] at hbetween
        refine ⟨⟨hnext.inRange, hnext.rearranges, hnext.left_at, hnext.right_at, hstart,
          ⟨?_, hnext.j_le.2⟩, ?_, hnext.g_lt, hnext.below, hbetween, hnext.above⟩, ?_⟩
        · dsimp only
          omega
        · dsimp only
          omega
        · dsimp only
          omega

theorem loop (h : Partitioning lessThan start stop left right before c)
    (hfuel : c.g - c.k + 2 < fuel) :
    Returns (fun c' => Partitioning lessThan start stop left right before c' ∧ c'.g < c'.k)
      (partitionLoop lessThan start stop fuel c) := by
  induction fuel generalizing c with
  | zero =>
    have hk := h.k_le
    omega
  | succ fuel ih =>
    rw [partitionLoop]
    by_cases hk : c.k ≤ c.g
    · rw [if_pos hk]
      exact bind (h.step hk) fun c' hc' => ih hc'.1 (by omega)
    · rw [if_neg hk]
      exact ⟨h, Int.lt_of_not_ge hk⟩

end Partitioning

/-! ## The partition with one pivot -/

/-- What is known between two rounds: what is below the pivot, and what is not. -/
structure Pivoting (lessThan : α → α → Bool) (start stop : Int) (pivot : α) (before col : List α)
    (i j : Int) : Prop where
  rearranges : Rearranges start stop before col
  pivot_at : entry col start = some pivot
  bounds : 1 ≤ i ∧ i ≤ j ∧ start + j ≤ stop
  below : AllOn (fun a => lessThan a pivot = true) col (start + 1) (start + i)
  notBelow : AllOn (fun a => lessThan a pivot = false) col (start + i) (start + j)

variable {before : List α} {pivot : α} {i j : Int}

theorem Pivoting.step {a : α} (h : Pivoting lessThan start stop pivot before col i j)
    (hstart : 0 ≤ start) (hstop : stop ≤ col.length) (hj : start + j < stop)
    (hat : entry col (start + j) = some a) (hbelow : lessThan a pivot = true) :
    ∃ col', exchange col (start + j) (start + i) = some col' ∧ col'.length = col.length ∧
      Pivoting lessThan start stop pivot before col' (i + 1) (j + 1) := by
  have hbounds := h.bounds
  obtain ⟨col', hcol', hex⟩ :=
    @exists_exchange α col (start + j) (start + i) (by omega) (by omega)
  have hmove : Rearranges (start + i) (start + j + 1) col col' :=
    hex.rearranges (by omega) (by omega)
  refine ⟨col', hcol', hmove.length_eq, h.rearranges.trans (hmove.mono (by omega) (by omega)),
    (hmove.outside _ (by omega)).trans h.pivot_at, by omega, ?_, ?_⟩
  · refine (h.below.rearrange hmove (by omega)).join (fun b hb => ?_) (.empty (by omega))
    rw [hex.right, hat] at hb
    cases hb
    exact hbelow
  · intro k b hlo hhi hb
    by_cases hk : k = start + j
    · subst hk
      rw [hex.left] at hb
      exact h.notBelow _ b (Int.le_refl _) (by omega) hb
    · rw [hex.other k hk (by omega)] at hb
      exact h.notBelow k b (by omega) (by omega) hb

section

variable (h : Pivoting lessThan start stop pivot before col i j)

include h

theorem Pivoting.pass {a : α} (hj : start + j < stop) (hat : entry col (start + j) = some a)
    (hnotBelow : lessThan a pivot = false) :
    Pivoting lessThan start stop pivot before col i (j + 1) := by
  have hbounds := h.bounds
  refine ⟨h.rearranges, h.pivot_at, by omega, h.below, ?_⟩
  refine h.notBelow.join (fun b hb => ?_) (.empty (by omega))
  cases hat.symm.trans hb
  exact hnotBelow

/-- The loop of the partition goes through the range. -/
theorem pivotLoop_returns
    (hstart : 0 ≤ start) (hstop : stop ≤ col.length) (hlength : col.length < 2147483648)
    (hfuel : stop - start - j < fuel) :
    Returns (fun result => Pivoting lessThan start stop pivot before result.1 result.2
        (stop - start) ∧ result.1.length = col.length)
      (pivotLoop lessThan start (stop - start) fuel j col i) := by
  induction fuel generalizing col i j with
  | zero =>
    have hbounds := h.bounds
    omega
  | succ fuel ih =>
    have hbounds := h.bounds
    rw [pivotLoop]
    by_cases hj : j < stop - start
    · obtain ⟨a, ha⟩ := @exists_entry α col (start + j) (by omega) (by omega)
      rw [if_pos hj]
      simp only [ha, h.pivot_at, int_of_fits (n := i + 1) (by omega) (by omega),
        int_of_fits (n := j + 1) (by omega) (by omega), bind_eq_bind, bind_some]
      cases hbelow : lessThan a pivot with
      | true =>
        obtain ⟨col', hcol', hsame, hnext⟩ := h.step hstart hstop (by omega) ha hbelow
        simp only [hcol', bind_some, if_true]
        refine (ih hnext (by omega) (by omega) (by omega)).mono fun result hresult => ?_
        exact ⟨hresult.1, hresult.2.trans hsame⟩
      | false => exact ih (h.pass (by omega) ha hbelow) hstop hlength (by omega)
    · have hend : stop - start = j := by omega
      rw [if_neg hj]
      exact ⟨hend ▸ h, rfl⟩

end

/-! ## Sorting -/

section

variable [IsStrictWeakOrder α fun a b => lessThan a b = true]

theorem not_lessThan {a b : α} (h : lessThan a b = true) : lessThan b a = false := by
  refine Bool.of_not_eq_true fun hba => ?_
  have htrans := (inferInstance : IsTrans α fun a b => lessThan a b = true).trans
  exact (inferInstance : Std.Irrefl fun a b => lessThan a b = true).irrefl a (htrans a b a h hba)

theorem not_above_of_below {a : α} (hpivots : lessThan right left = false)
    (h : lessThan a left = true) : lessThan right a = false := by
  refine Bool.of_not_eq_true fun hra => ?_
  have htrans := (inferInstance : IsTrans α fun a b => lessThan a b = true).trans
  rw [htrans right a left hra h] at hpivots
  cases hpivots

/-- The pivots are in order. -/
structure Chosen (lessThan : α → α → Bool) (start stop : Int) (before col : List α) : Prop where
  rearranges : Rearranges start (stop + 1) before col
  pivots : ∃ left right, entry col start = some left ∧ entry col stop = some right ∧
    lessThan right left = false

theorem choosePivots_returns (hrange : InRange col start stop) (hlt : start < stop) :
    Returns (Chosen lessThan start stop col)
      (choosePivots lessThan col start stop (stop - start + 1)) := by
  obtain ⟨hnonneg, hstop, hlength⟩ := hrange
  unfold choosePivots
  by_cases hsize : stop - start + 1 > 3
  · obtain ⟨third, hthird⟩ : ∃ third, third = (stop - start + 1).tdiv 3 := ⟨_, rfl⟩
    have hbounds : 1 ≤ third ∧ 3 * third ≤ stop - start + 1 := by
      rw [hthird, Int.tdiv_eq_ediv_of_nonneg (by omega)]
      omega
    rw [if_pos hsize, ← hthird]
    obtain ⟨a, ha⟩ := @exists_entry α col (start + third) (by omega) (by omega)
    obtain ⟨b, hb⟩ := @exists_entry α col (stop - third) (by omega) (by omega)
    simp only [int_of_fits (n := start + third) (by omega) (by omega),
      int_of_fits (n := stop - third) (by omega) (by omega), ha, hb, bind_eq_bind,
      bind_some]
    cases hab : lessThan a b with
    | true =>
      obtain ⟨col₁, hcol₁, hex₁⟩ :=
        @exists_exchange α col (start + third) start (by omega) (by omega)
      have hmove₁ : Rearranges start (stop + 1) col col₁ :=
        hex₁.rearranges (by omega) (by omega)
      have hsame := hmove₁.length_eq
      obtain ⟨col₂, hcol₂, hex₂⟩ :=
        @exists_exchange α col₁ (stop - third) stop (by omega) (by omega)
      simp only [hcol₁, hcol₂, if_true, bind_some]
      refine ⟨hmove₁.trans (hex₂.rearranges (by omega) (by omega)), a, b, ?_, ?_,
        not_lessThan hab⟩
      · rw [hex₂.other start (by omega) (by omega), hex₁.right, ha]
      · rw [hex₂.right, hex₁.other _ (by omega) (by omega), hb]
    | false =>
      obtain ⟨col₁, hcol₁, hex₁⟩ :=
        @exists_exchange α col (start + third) stop (by omega) (by omega)
      have hmove₁ : Rearranges start (stop + 1) col col₁ :=
        hex₁.rearranges (by omega) (by omega)
      have hsame := hmove₁.length_eq
      obtain ⟨col₂, hcol₂, hex₂⟩ :=
        @exists_exchange α col₁ (stop - third) start (by omega) (by omega)
      simp only [hcol₁, hcol₂, bind_some, Bool.false_eq_true, if_false]
      refine ⟨hmove₁.trans (hex₂.rearranges (by omega) (by omega)), b, a, ?_, ?_, hab⟩
      · rw [hex₂.right, hex₁.other _ (by omega) (by omega), hb]
      · rw [hex₂.other stop (by omega) (by omega), hex₁.right, ha]
  · obtain ⟨a, ha⟩ := @exists_entry α col start (by omega) (by omega)
    obtain ⟨b, hb⟩ := @exists_entry α col stop (by omega) (by omega)
    rw [if_neg hsize]
    simp only [ha, hb, bind_eq_bind, bind_some]
    cases hab : lessThan a b with
    | true => exact ⟨.refl _ _ _, a, b, ha, hb, not_lessThan hab⟩
    | false =>
      obtain ⟨col₁, hcol₁, hex⟩ := @exists_exchange α col start stop (by omega) (by omega)
      simp only [hcol₁, Bool.not_false, if_true]
      exact ⟨hex.rearranges (by omega) (by omega), b, a, hex.left.trans hb,
        hex.right.trans ha, hab⟩

/-- The range is parted by the left pivot up to the right one, and by that. -/
structure Split (lessThan : α → α → Bool) (start stop : Int) (before : List α) (c : Cursors α) :
    Prop where
  rearranges : Rearranges start (stop + 1) before c.col
  first : Parted (fun a b => lessThan a b = true) c.col start c.j c.g
  second : Parted (fun a b => lessThan a b = true) c.col start c.g (stop + 1)

theorem Partitioning.split {before : List α} (hpivots : lessThan right left = false)
    (h : Partitioning lessThan start stop left right before c) (hend : c.g < c.k) :
    Returns (Split lessThan start stop before)
      (do
        let j ← int (c.j - 1)
        let g ← int (c.g + 1)
        let col ← exchange c.col start j
        let col ← exchange col stop g
        return ⟨col, j, c.k, g⟩) := by
  obtain ⟨hnonneg, hstop, hlength⟩ := h.inRange
  have hstart := h.start_lt
  have hj := h.j_le
  have hg := h.g_lt
  have hmin : min c.k (c.g + 1) = c.g + 1 := by omega
  have hbetween := hmin ▸ h.between
  obtain ⟨col₁, hcol₁, hex₁⟩ := @exists_exchange α c.col start (c.j - 1) (by omega) (by omega)
  have hmove₁ : Rearranges start c.j c.col col₁ := hex₁.rearranges (by omega) (by omega)
  have hsame := hmove₁.length_eq
  obtain ⟨col₂, hcol₂, hex₂⟩ := @exists_exchange α col₁ stop (c.g + 1) (by omega) (by omega)
  have hmove₂ : Rearranges (c.g + 1) (stop + 1) col₁ col₂ :=
    hex₂.rearranges (by omega) (by omega)
  simp only [int_of_fits (n := c.j - 1) (by omega) (by omega),
    int_of_fits (n := c.g + 1) (by omega) (by omega), hcol₁, hcol₂, bind_eq_bind,
    bind_some]
  have hleft : entry col₂ (c.j - 1) = some left := by
    rw [hmove₂.outside _ (by omega), hex₁.right, h.left_at]
  have hright : entry col₂ (c.g + 1) = some right := by
    rw [hex₂.right, hmove₁.outside _ (by omega), h.right_at]
  have hbelow : AllOn (fun a => lessThan a left = true) col₂ start (c.j - 1) := by
    refine AllOn.rearrange ?_ hmove₂ (.inr (.inl (by omega)))
    intro i a hlo hhi ha
    by_cases hi : i = start
    · subst hi
      rw [hex₁.left] at ha
      exact h.below _ a (by omega) (by omega) ha
    · rw [hex₁.other i hi (by omega)] at ha
      exact h.below i a (by omega) (by omega) ha
  have hbetween₂ : AllOn (fun a => lessThan a left = false ∧ lessThan a right = true) col₂ c.j
      (c.g + 1) :=
    (hbetween.rearrange hmove₁ (.inl (Int.le_refl _))).rearrange hmove₂
      (.inr (.inl (Int.le_refl _)))
  have habove : AllOn (fun a => lessThan a right = false) col₂ (c.g + 1 + 1) (stop + 1) := by
    intro i a hlo hhi ha
    have hbefore := h.above.rearrange hmove₁ (.inl (by omega))
    by_cases hi : i = stop
    · subst hi
      rw [hex₂.left] at ha
      exact hbefore _ a (by omega) (by omega) ha
    · rw [hex₂.other i hi (by omega)] at ha
      exact hbefore i a (by omega) (by omega) ha
  have hsucc : c.j - 1 + 1 = c.j := by omega
  refine ⟨(h.rearranges.mono (by omega) (by omega)).trans
    ((hmove₁.mono (by omega) (by omega)).trans (hmove₂.mono (by omega) (by omega))),
    ⟨?_, ?_, left, hleft, hbelow.imp fun a ha => ?_, ?_⟩,
    ⟨?_, ?_, right, hright, AllOn.join (hbelow.imp fun a ha => ?_)
      (fun a ha => ?_) ?_, habove.imp fun a ha => ?_⟩⟩
  · dsimp only
    omega
  · dsimp only
    omega
  · rw [not_lessThan ha]
    exact Bool.false_ne_true
  · dsimp only
    rw [hsucc]
    refine hbetween₂.imp fun a ha => ?_
    rw [ha.1]
    exact Bool.false_ne_true
  · dsimp only
    omega
  · dsimp only
    omega
  · rw [not_above_of_below hpivots ha]
    exact Bool.false_ne_true
  · cases hleft.symm.trans ha
    rw [hpivots]
    exact Bool.false_ne_true
  · rw [hsucc]
    refine hbetween₂.imp fun a ha => ?_
    rw [not_lessThan ha.2]
    exact Bool.false_ne_true
  · rw [ha]
    exact Bool.false_ne_true

theorem partition_returns {before : List α} (hrange : InRange col start stop) (hlt : start < stop)
    (h : Chosen lessThan start stop before col) :
    Returns (Split lessThan start stop before) (partition lessThan col start stop) := by
  obtain ⟨hnonneg, hstop, hlength⟩ := hrange
  obtain ⟨left, right, hleft, hright, hpivots⟩ := h.pivots
  have hinit : Partitioning lessThan start stop left right col
      ⟨col, start + 1, start + 1, stop - 1⟩ := by
    refine ⟨⟨hnonneg, hstop, hlength⟩, .refl _ _ _, hleft, hright, Int.le_refl _,
      ⟨Int.le_refl _, ?_⟩, ?_, ?_, .empty (Int.le_refl _), .empty ?_, .empty ?_⟩ <;>
      dsimp only <;> omega
  simp only [partition, int_of_fits (n := start + 1) (by omega) (by omega),
    int_of_fits (n := stop - 1) (by omega) (by omega), bind_eq_bind, bind_some]
  refine bind (hinit.loop (by dsimp only; omega)) fun c hc => ?_
  refine (hc.1.split hpivots hc.2).mono fun c' hc' => ?_
  exact ⟨h.rearranges.trans hc'.rearranges, hc'.first, hc'.second⟩

/-- The range lies between the pivots, or before or after both. -/
def IsPart (start stop : Int) (c : Cursors α) (lo hi : Int) : Prop :=
  (start ≤ lo ∧ hi ≤ c.j) ∨ (c.j < lo ∧ hi ≤ c.g) ∨ (c.g < lo ∧ hi ≤ stop + 1)

namespace Split

variable {before : List α} {lo hi : Int} {col' : List α}

omit [IsStrictWeakOrder α fun a b => lessThan a b = true] in
theorem sortPart (h : Split lessThan start stop before c)
    (hsorts : Sorts (fun a b => lessThan a b = true) lo hi c.col col')
    (hwhere : IsPart start stop c lo hi) :
    Split lessThan start stop before { c with col := col' } := by
  unfold IsPart at hwhere
  have hj := h.first.lo_le
  have hg := h.first.lt_hi
  have hstop := h.second.lt_hi
  exact ⟨h.rearranges.trans (hsorts.rearranges.mono (by omega) (by omega)),
    h.first.rearrange hsorts.rearranges (by omega),
    h.second.rearrange hsorts.rearranges (by omega)⟩

omit [IsStrictWeakOrder α fun a b => lessThan a b = true] in
theorem sequence {f₁ f₂ f₃ : List α → Option (List α)} {lo₁ hi₁ lo₂ hi₂ lo₃ hi₃ : Int}
    (h : Split lessThan start stop before c) (hf₁ : ∀ col, col.length = c.col.length →
      Returns (Sorts (fun a b => lessThan a b = true) lo₁ hi₁ col) (f₁ col))
    (hf₂ : ∀ col, col.length = c.col.length →
      Returns (Sorts (fun a b => lessThan a b = true) lo₂ hi₂ col) (f₂ col))
    (hf₃ : ∀ col, col.length = c.col.length →
      Returns (Sorts (fun a b => lessThan a b = true) lo₃ hi₃ col) (f₃ col))
    (h₁ : IsPart start stop c lo₁ hi₁) (h₂ : IsPart start stop c lo₂ hi₂)
    (h₃ : IsPart start stop c lo₃ hi₃) (h₁₂ : hi₂ ≤ lo₁ ∨ hi₁ ≤ lo₂) (h₁₃ : hi₃ ≤ lo₁ ∨ hi₁ ≤ lo₃)
    (h₂₃ : hi₃ ≤ lo₂ ∨ hi₂ ≤ lo₃) :
    Returns (fun col => Split lessThan start stop before { c with col } ∧
        OrderedOn (fun a b => lessThan a b = true) col lo₁ hi₁ ∧
        OrderedOn (fun a b => lessThan a b = true) col lo₂ hi₂ ∧
        OrderedOn (fun a b => lessThan a b = true) col lo₃ hi₃)
      (do
        let col ← f₁ c.col
        let col ← f₂ col
        f₃ col) := by
  refine bind (hf₁ c.col rfl) fun col₁ hs₁ => ?_
  have hsame₁ := hs₁.rearranges.length_eq
  refine bind (hf₂ col₁ hsame₁) fun col₂ hs₂ => ?_
  have hsame₂ := hs₂.rearranges.length_eq.trans hsame₁
  refine (hf₃ col₂ hsame₂).mono fun col₃ hs₃ => ?_
  exact ⟨((h.sortPart hs₁ h₁).sortPart hs₂ h₂).sortPart hs₃ h₃,
    (hs₁.ordered.rearrange hs₂.rearranges h₁₂).rearrange hs₃.rearranges h₁₃,
    hs₂.ordered.rearrange hs₃.rearranges h₂₃, hs₃.ordered⟩

theorem sorts (h : Split lessThan start stop before c)
    (hleft : OrderedOn (fun a b => lessThan a b = true) c.col start c.j)
    (hmiddle : OrderedOn (fun a b => lessThan a b = true) c.col (c.j + 1) c.g)
    (hright : OrderedOn (fun a b => lessThan a b = true) c.col (c.g + 1) (stop + 1)) :
    Sorts (fun a b => lessThan a b = true) start (stop + 1) before c.col :=
  ⟨h.rearranges, h.second.ordered (h.first.ordered hleft hmiddle) hright⟩

end Split

/-- `dual_pivot_quick_sort` sorts its range: the three parts of it are sorted, in whichever
order. -/
theorem dualPivotQuickSort_sorts (hrange : InRange col start stop)
    (hle : start ≤ stop + 1) (hfuel : stop + 1 - start < fuel) :
    Returns (Sorts (fun a b => lessThan a b = true) start (stop + 1) col)
      (dualPivotQuickSort lessThan fuel col start stop) := by
  induction fuel generalizing col start stop with
  | zero => omega
  | succ fuel ih =>
    rw [dualPivotQuickSort]
    by_cases hempty : ¬ start < stop
    · rw [if_neg hempty]
      exact ⟨.refl _ _ _, .short (by omega)⟩
    have hlt := not_not.mp hempty
    obtain ⟨hnonneg, hstop, hlength⟩ := hrange
    rw [if_pos hlt]
    simp only [int_of_fits (n := stop - start) (by omega) (by omega),
      int_of_fits (n := stop - start + 1) (by omega) (by omega),
      int_of_fits (n := stop + 1) (by omega) (by omega), bind_eq_bind, bind_some]
    refine bind (choosePivots_returns ⟨hnonneg, hstop, hlength⟩ hlt) fun col₁ h₁ => ?_
    have hsame₁ := h₁.rearranges.length_eq
    refine bind (partition_returns ⟨hnonneg, by omega, by omega⟩ hlt h₁) fun c h => ?_
    have hsame := h.rearranges.length_eq
    have hj := h.first.lo_le
    have hg := h.first.lt_hi
    have hend := h.second.lt_hi
    have hleftStop : c.j - 1 + 1 = c.j := by omega
    have hmiddleStop : c.g - 1 + 1 = c.g := by omega
    simp only [int_of_fits (n := c.j - 1) (by omega) (by omega),
      int_of_fits (n := c.j + 1) (by omega) (by omega),
      int_of_fits (n := c.g - 1) (by omega) (by omega),
      int_of_fits (n := c.g + 1) (by omega) (by omega),
      int_of_fits (n := c.j - start) (by omega) (by omega),
      int_of_fits (n := c.g - (c.j + 1)) (by omega) (by omega),
      int_of_fits (n := stop + 1 - (c.g + 1)) (by omega) (by omega), bind_some]
    -- a part of the range is sorted by a recursive call
    have hpart : ∀ (col : List α) (lo hi : Int), col.length = c.col.length → start ≤ lo →
        lo ≤ hi + 1 → hi + 1 - lo < stop - start → hi ≤ stop →
        Returns (Sorts (fun a b => lessThan a b = true) lo (hi + 1) col)
          (dualPivotQuickSort lessThan fuel col lo hi) :=
      fun col lo hi hcol hlo hle hsize hhi =>
        ih ⟨by omega, by omega, by omega⟩ hle (by omega)
    have hleft := fun (col : List α) (hcol : col.length = c.col.length) =>
      hpart col start (c.j - 1) hcol (Int.le_refl _) (by omega) (by omega) (by omega)
    have hmiddle := fun (col : List α) (hcol : col.length = c.col.length) =>
      hpart col (c.j + 1) (c.g - 1) hcol (by omega) (by omega) (by omega) (by omega)
    have hright := fun (col : List α) (hcol : col.length = c.col.length) =>
      hpart col (c.g + 1) stop hcol (by omega) (by omega) (by omega) (Int.le_refl _)
    rw [hleftStop] at hleft
    rw [hmiddleStop] at hmiddle
    have hisLeft : IsPart start stop c start c.j := .inl ⟨Int.le_refl _, Int.le_refl _⟩
    have hisMiddle : IsPart start stop c (c.j + 1) c.g :=
      .inr (.inl ⟨by omega, Int.le_refl _⟩)
    have hisRight : IsPart start stop c (c.g + 1) (stop + 1) :=
      .inr (.inr ⟨by omega, Int.le_refl _⟩)
    by_cases hlargest : c.j - start ≥ c.g - (c.j + 1) ∧ c.j - start ≥ stop + 1 - (c.g + 1)
    · rw [if_pos hlargest]
      refine (h.sequence hmiddle hright hleft hisMiddle hisRight hisLeft (by omega) (by omega)
        (by omega)).mono fun col hcol => ?_
      exact hcol.1.sorts hcol.2.2.2 hcol.2.1 hcol.2.2.1
    · rw [if_neg hlargest]
      by_cases hsecond : c.g - (c.j + 1) ≥ stop + 1 - (c.g + 1)
      · rw [if_pos hsecond]
        refine (h.sequence hleft hright hmiddle hisLeft hisRight hisMiddle (by omega) (by omega)
          (by omega)).mono fun col hcol => ?_
        exact hcol.1.sorts hcol.2.1 hcol.2.2.2 hcol.2.2.1
      · rw [if_neg hsecond]
        refine (h.sequence hleft hmiddle hright hisLeft hisMiddle hisRight (by omega) (by omega)
          (by omega)).mono fun col hcol => ?_
        exact hcol.1.sorts hcol.2.1 hcol.2.2.1 hcol.2.2.2

variable {before : List α} {pivot : α} {i : Int}

theorem Pivoting.parted (h : Pivoting lessThan start stop pivot before col i (stop - start))
    (hstart : 0 ≤ start) (hstop : stop ≤ col.length) :
    Returns (fun col' => Rearranges start stop before col' ∧
        Parted (fun a b => lessThan a b = true) col' start (start + i - 1) stop)
      (exchange col start (start + i - 1)) := by
  have hbounds := h.bounds
  obtain ⟨col', hcol', hex⟩ :=
    @exists_exchange α col start (start + i - 1) (by omega) (by omega)
  have hmove : Rearranges start (start + i) col col' := hex.rearranges (by omega) (by omega)
  have hbelow : AllOn (fun a => lessThan a pivot = true) col' start (start + i - 1) := by
    intro k a hlo hhi ha
    by_cases hk : k = start
    · subst hk
      rw [hex.left] at ha
      exact h.below _ a (by omega) (by omega) ha
    · rw [hex.other k hk (by omega)] at ha
      exact h.below k a (by omega) (by omega) ha
  have hnotBelow : AllOn (fun a => lessThan a pivot = false) col' (start + i - 1 + 1) stop := by
    rw [Int.sub_add_cancel]
    refine AllOn.rearrange ?_ hmove (.inl (Int.le_refl _))
    exact h.notBelow.mono (Int.le_refl _) (by omega)
  refine Returns.of_eq hcol' ⟨h.rearranges.trans (hmove.mono (Int.le_refl _) (by omega)),
    by omega, by omega, pivot, hex.right.trans h.pivot_at, hbelow.imp fun a ha => ?_,
    hnotBelow.imp fun a ha => ?_⟩
  · rw [not_lessThan ha]
    exact Bool.false_ne_true
  · rw [ha]
    exact Bool.false_ne_true

theorem singlePivotQuickSort_sorts (hstart : 0 ≤ start) (hle : start ≤ stop)
    (hstop : stop ≤ col.length) (hlength : col.length < 2147483648) (hfuel : stop - start < fuel) :
    Returns (Sorts (fun a b => lessThan a b = true) start stop col)
      (singlePivotQuickSort lessThan fuel col start stop) := by
  induction fuel generalizing col start stop with
  | zero => omega
  | succ fuel ih =>
    rw [singlePivotQuickSort]
    simp only [int_of_fits (n := stop - start) (by omega) (by omega), bind_eq_bind,
      bind_some]
    by_cases hshort : stop - start ≤ 1
    · rw [if_pos hshort]
      exact ⟨.refl _ _ _, .short (by omega)⟩
    obtain ⟨point, hpoint⟩ : ∃ point, point = (stop - start).tdiv 2 := ⟨_, rfl⟩
    have hbounds : 1 ≤ point ∧ point < stop - start := by
      rw [hpoint, Int.tdiv_eq_ediv_of_nonneg (by omega)]
      omega
    obtain ⟨col₁, hcol₁, hex⟩ :=
      @exists_exchange α col (start + point) start (by omega) (by omega)
    have hmove : Rearranges start stop col col₁ := hex.rearranges (by omega) (by omega)
    have hsame₁ := hmove.length_eq
    obtain ⟨pivot, hpivot⟩ := @exists_entry α col₁ start (by omega) (by omega)
    have hinit : Pivoting lessThan start stop pivot col col₁ 1 1 :=
      ⟨hmove, hpivot, by omega, .empty (Int.le_refl _), .empty (Int.le_refl _)⟩
    rw [if_neg hshort, ← hpoint, if_pos (by omega), hcol₁, bind_some]
    refine bind (pivotLoop_returns hinit hstart (by omega) (by omega) (by omega))
      fun result hresult => ?_
    obtain ⟨hpivoting, hsame⟩ := hresult
    have hi := hpivoting.bounds
    refine bind (hpivoting.parted hstart (by omega)) fun col₂ h₂ => ?_
    obtain ⟨hmove₂, hparted⟩ := h₂
    have hsame₂ := hmove₂.length_eq
    have hsucc : start + result.2 - 1 + 1 = start + result.2 := by omega
    by_cases hlonger : result.2 > point
    · rw [if_pos hlonger]
      refine bind (ih (by omega) (by omega) (by omega) (by omega) (by omega))
        fun col₃ h₃ => ?_
      have hsame₃ := h₃.rearranges.length_eq
      refine (ih hstart (by omega) (by omega) (by omega) (by omega)).mono fun col₄ h₄ => ?_
      have hparted₃ := hparted.rearrange h₃.rearranges (by omega)
      have hparted₄ := hparted₃.rearrange h₄.rearranges (by omega)
      refine ⟨hmove₂.trans ((h₃.rearranges.mono (by omega) (by omega)).trans
        (h₄.rearranges.mono (by omega) (by omega))), hparted₄.ordered h₄.ordered ?_⟩
      rw [hsucc]
      exact h₃.ordered.rearrange h₄.rearranges (by omega)
    · rw [if_neg hlonger]
      refine bind (ih hstart (by omega) (by omega) (by omega) (by omega))
        fun col₃ h₃ => ?_
      have hsame₃ := h₃.rearranges.length_eq
      refine (ih (by omega) (by omega) (by omega) (by omega) (by omega)).mono fun col₄ h₄ => ?_
      have hparted₃ := hparted.rearrange h₃.rearranges (by omega)
      have hparted₄ := hparted₃.rearrange h₄.rearranges (by omega)
      refine ⟨hmove₂.trans ((h₃.rearranges.mono (by omega) (by omega)).trans
        (h₄.rearranges.mono (by omega) (by omega))),
        hparted₄.ordered (h₃.ordered.rearrange h₄.rearranges (by omega)) ?_⟩
      rw [hsucc]
      exact h₄.ordered

/-! ## Both sorts -/

/-- The result is the collection in order: no entry is less than an earlier one. -/
structure IsSorted (lessThan : α → α → Bool) (col sorted : List α) : Prop where
  perm : sorted.Perm col
  ordered : sorted.Pairwise fun a b => lessThan b a = false

omit [IsStrictWeakOrder α fun a b => lessThan a b = true] in
theorem isSorted_of_sorts {sorted : List α}
    (h : Sorts (fun a b => lessThan a b = true) 0 col.length col sorted) :
    IsSorted lessThan col sorted where
  perm := h.rearranges.perm
  ordered := by
    have hsame := h.rearranges.length_eq
    refine List.pairwise_iff_getElem.mpr fun i j hi hj hij => Bool.of_not_eq_true ?_
    refine h.ordered i j sorted[i] sorted[j] (by omega) (by omega) (by omega)
      (entry_eq_some.mpr ⟨by omega, ?_⟩) (entry_eq_some.mpr ⟨by omega, ?_⟩)
    · rw [Int.toNat_natCast]
      exact List.getElem?_eq_getElem hi
    · rw [Int.toNat_natCast]
      exact List.getElem?_eq_getElem hj

/-- Both sorts return, and leave the collection in order. -/
theorem quickSorts_sort (hlength : col.length < 2147483648) :
    (∃ sorted, dualPivotQuickSort lessThan (col.length + 1) col 0 (col.length - 1) = some sorted ∧
      IsSorted lessThan col sorted) ∧
    (∃ sorted, singlePivotQuickSort lessThan (col.length + 1) col 0 col.length = some sorted ∧
      IsSorted lessThan col sorted) := by
  have hdual : Returns _ (dualPivotQuickSort lessThan (col.length + 1) col 0 (col.length - 1)) :=
    dualPivotQuickSort_sorts ⟨Int.le_refl 0, by omega, hlength⟩ (by omega) (by omega)
  have hsingle : Returns _ (singlePivotQuickSort lessThan (col.length + 1) col 0 col.length) :=
    singlePivotQuickSort_sorts (Int.le_refl 0) (by omega) (Int.le_refl _) hlength (by omega)
  rw [Int.sub_add_cancel] at hdual
  exact ⟨(hdual.mono fun _ => isSorted_of_sorts).exists_some,
    (hsingle.mono fun _ => isSorted_of_sorts).exists_some⟩

end

end

/-- Five numbers, two of them twice. -/
theorem quickSorts_sort_five :
    (∃ sorted, dualPivotQuickSort (fun a b : Nat => decide (a < b)) 6 [3, 1, 2, 1, 3] 0 4 =
        some sorted ∧ IsSorted (fun a b => decide (a < b)) [3, 1, 2, 1, 3] sorted) ∧
    (∃ sorted, singlePivotQuickSort (fun a b : Nat => decide (a < b)) 6 [3, 1, 2, 1, 3] 0 5 =
        some sorted ∧ IsSorted (fun a b => decide (a < b)) [3, 1, 2, 1, 3] sorted) := by
  have horder : IsStrictWeakOrder Nat fun a b => decide (a < b) = true :=
    { irrefl := fun a h => Nat.lt_irrefl a (of_decide_eq_true h)
      trans := fun a b c hab hbc =>
        decide_eq_true (Nat.lt_trans (of_decide_eq_true hab) (of_decide_eq_true hbc))
      incomp_trans := by
        intro a b c hab hbc
        simp only [decide_eq_true_eq] at hab hbc ⊢
        omega }
  have hlength : [3, 1, 2, 1, 3].length < 2147483648 := by decide
  exact quickSorts_sort hlength

end Literate.AK.QuickSort

import Literate.AK.Utf8RoundTrip

/-!
# AK: code points in UTF-16

`AK/Utf16View.h`, `AK/Utf16View.cpp` and the append of a `Utf16View` to a `StringBuilder`.
A pointer into the code units is the list of those from it on.  An operation whose
assertion fails, or which reads past the last code unit, gives `none`.

Encoder, iterator, length, validator and both conversions to UTF-8 look for surrogate pairs
on their own.  `pieces` cuts a sequence of code units once, and each of them is stated by
the pieces.
-/

namespace Literate.AK

open List Option Nat Bool

/-! ## Surrogates -/

namespace Utf16View

def isHighSurrogate (codeUnit : UInt16) : Bool := decide (0xd800 ≤ codeUnit ∧ codeUnit ≤ 0xdbff)

def isLowSurrogate (codeUnit : UInt16) : Bool := decide (0xdc00 ≤ codeUnit ∧ codeUnit ≤ 0xdfff)

/-- The code point of a high and a low surrogate. -/
def pairValue (high low : UInt16) : Nat :=
  ((high.toNat - 0xd800) <<< 10) + (low.toNat - 0xdc00) + 0x10000

def decodeSurrogatePair (high low : UInt16) : Option Nat :=
  if isHighSurrogate high && isLowSurrogate low then some (pairValue high low) else none

end Utf16View

/-- `code_point_to_utf16`. -/
def codePointToUtf16 (string : List UInt16) (codePoint : Nat) : Option (List UInt16) :=
  if codePoint ≤ 0x10FFFF then
    if codePoint < 0x10000 then some (string ++ [UInt16.ofNat codePoint])
    else
      some (string ++ [UInt16.ofNat (0xd800 ||| ((codePoint - 0x10000) >>> 10))] ++
        [UInt16.ofNat (0xdc00 ||| ((codePoint - 0x10000) &&& 0x3ff))])
  else none

/-- The loop of `to_utf16_impl` over the code points of a view. -/
def toUtf16Impl (codePoints : List Nat) : Option (List UInt16) :=
  codePoints.foldlM codePointToUtf16 []

/-! ## The iterator -/

/-- A `Utf16CodePointIterator`. -/
structure Utf16CodePointIterator where
  mPtr : List UInt16
  mRemainingCodeUnits : Nat
  deriving DecidableEq

namespace Utf16CodePointIterator

open Utf16View

/-- `operator*`. -/
def codePoint? (it : Utf16CodePointIterator) : Option Nat :=
  if 0 < it.mRemainingCodeUnits then
    match it.mPtr with
    | [] => none
    | codeUnit :: rest =>
      if isHighSurrogate codeUnit then
        if 1 < it.mRemainingCodeUnits then
          match rest with
          | [] => none
          | next :: _ =>
            if isLowSurrogate next then decodeSurrogatePair codeUnit next else some 0xfffd
        else some 0xfffd
      else if isLowSurrogate codeUnit then some 0xfffd
      else some codeUnit.toNat
  else none

def lengthInCodeUnits? (it : Utf16CodePointIterator) : Option Nat :=
  if 0 < it.mRemainingCodeUnits then
    match it.mPtr with
    | [] => none
    | codeUnit :: rest =>
      if isHighSurrogate codeUnit then
        if 1 < it.mRemainingCodeUnits then
          match rest with
          | [] => none
          | next :: _ => if isLowSurrogate next then some 2 else some 1
        else some 1
      else some 1
  else none

/-- `operator++`. -/
def next? (it : Utf16CodePointIterator) : Option Utf16CodePointIterator :=
  it.lengthInCodeUnits?.map fun codeUnits =>
    if it.mRemainingCodeUnits < codeUnits then ⟨it.mPtr.drop it.mRemainingCodeUnits, 0⟩
    else ⟨it.mPtr.drop codeUnits, it.mRemainingCodeUnits - codeUnits⟩

/-- A range-based loop from `it` to `last` of at most `fuel` rounds. -/
def forEach {σ : Type} (body : σ → Nat → σ) (last : Utf16CodePointIterator) :
    (fuel : Nat) → Utf16CodePointIterator → σ → Option σ
  | 0, it, state => if it = last then some state else none
  | fuel + 1, it, state =>
    if it = last then some state
    else
      it.codePoint?.bind fun codePoint =>
        it.next?.bind fun next => forEach body last fuel next (body state codePoint)

end Utf16CodePointIterator

/-! ## The view -/

/-- A `Utf16View`: its code units, and its length in code points once that has been
counted. -/
structure Utf16View where
  mCodeUnits : List UInt16
  mLengthInCodePoints : Option Nat := none

inductive AllowInvalidCodeUnits where
  | yes
  | no
  deriving DecidableEq

variable {low codeUnit : UInt16} {σ : Type} {n i : Nat}

namespace Utf16View

def lengthInCodeUnits (view : Utf16View) : Nat := view.mCodeUnits.length

/-- `begin`. -/
def beginIterator (view : Utf16View) : Utf16CodePointIterator :=
  ⟨view.mCodeUnits, view.mCodeUnits.length⟩

/-- `end`. -/
def endIterator (view : Utf16View) : Utf16CodePointIterator :=
  ⟨view.mCodeUnits.drop view.mCodeUnits.length, 0⟩

/-- A range-based loop over the view.  A round passes over a code unit at least, so it has
no more rounds than the view has code units. -/
def forEach {σ : Type} (body : σ → Nat → σ) (view : Utf16View) (state : σ) : Option σ :=
  Utf16CodePointIterator.forEach body view.endIterator view.lengthInCodeUnits
    view.beginIterator state

/-- The code points of an iteration over the view, in order. -/
def codePoints? (view : Utf16View) : Option (List Nat) :=
  view.forEach (fun codePoints codePoint => codePoints ++ [codePoint]) []

def calculateLengthInCodePoints (view : Utf16View) : Option Nat :=
  view.forEach (fun codePoints _ => codePoints + 1) 0

/-- `length_in_code_points`, and the view with the length it keeps. -/
def lengthInCodePoints (view : Utf16View) : Option (Nat × Utf16View) :=
  match view.mLengthInCodePoints with
  | some length => some (length, view)
  | none =>
    view.calculateLengthInCodePoints.map fun length =>
      (length, { view with mLengthInCodePoints := some length })

/-- The loop of `validate`: what it returns, and `valid_code_units`. -/
def validateFrom : List UInt16 → (validCodeUnits : Nat) → Bool × Nat
  | [], validCodeUnits => (true, validCodeUnits)
  | [codeUnit], validCodeUnits =>
    if isHighSurrogate codeUnit then (false, validCodeUnits)
    else if isLowSurrogate codeUnit then (false, validCodeUnits)
    else (true, validCodeUnits + 1)
  | codeUnit :: next :: rest, validCodeUnits =>
    if isHighSurrogate codeUnit then
      if isLowSurrogate next then validateFrom rest (validCodeUnits + 1 + 1)
      else (false, validCodeUnits)
    else if isLowSurrogate codeUnit then (false, validCodeUnits)
    else validateFrom (next :: rest) (validCodeUnits + 1)

def validate (view : Utf16View) : Bool × Nat := validateFrom view.mCodeUnits 0

def codeUnitAt (view : Utf16View) (index : Nat) : Option UInt16 := view.mCodeUnits[index]?

def codePointAt (view : Utf16View) (index : Nat) : Option Nat :=
  (view.codeUnitAt index).bind fun codeUnit =>
    if !isHighSurrogate codeUnit && !isLowSurrogate codeUnit then some codeUnit.toNat
    else if isLowSurrogate codeUnit || index + 1 == view.lengthInCodeUnits then
      some codeUnit.toNat
    else
      (view.codeUnitAt (index + 1)).bind fun second =>
        if !isLowSurrogate second then some codeUnit.toNat
        else decodeSurrogatePair codeUnit second

/-- The loop of `to_utf8` that allows invalid code units. -/
def toUtf8From : List UInt16 → (builder : List UInt8) → Option (List UInt8)
  | [], builder => some builder
  | [codeUnit], builder => some (builder ++ appendedCodePoint codeUnit.toNat)
  | codeUnit :: next :: rest, builder =>
    if isHighSurrogate codeUnit && isLowSurrogate next then
      (decodeSurrogatePair codeUnit next).bind fun codePoint =>
        toUtf8From rest (builder ++ appendedCodePoint codePoint)
    else toUtf8From (next :: rest) (builder ++ appendedCodePoint codeUnit.toNat)

/-- `to_utf8`. -/
def toUtf8 (view : Utf16View) (allowInvalidCodeUnits : AllowInvalidCodeUnits) :
    Option (List UInt8) :=
  if allowInvalidCodeUnits = .yes then toUtf8From view.mCodeUnits []
  else view.forEach (fun builder codePoint => builder ++ appendedCodePoint codePoint) []

/-- The loop of `StringBuilder::try_append`, at the code unit `i`. -/
def appendFrom (view : Utf16View) (i : Nat) (builder : List UInt8) : Option (List UInt8) :=
  if i < view.lengthInCodeUnits then
    (view.codePointAt i).bind fun codePoint =>
      view.appendFrom (i + if codePoint > 0xffff then 2 else 1)
        (builder ++ appendedCodePoint codePoint)
  else some builder
termination_by view.lengthInCodeUnits - i
decreasing_by split <;> omega

/-- `StringBuilder::append` of a view: the bytes of the builder after it. -/
def append (builder : List UInt8) (view : Utf16View) : Option (List UInt8) :=
  view.appendFrom 0 builder

/-! ## Pieces -/

/-- A code unit on its own, or the two of a surrogate pair. -/
inductive Piece where
  | unit (codeUnit : UInt16)
  | pair (high low : UInt16) (hhigh : isHighSurrogate high = true)
      (hlow : isLowSurrogate low = true)

namespace Piece

/-- The code units of a piece. -/
def codeUnits : Piece → List UInt16
  | unit codeUnit => [codeUnit]
  | pair high low _ _ => [high, low]

/-- The code point of a piece; a surrogate on its own stands for itself. -/
def value : Piece → Nat
  | unit codeUnit => codeUnit.toNat
  | pair high low _ _ => pairValue high low

/-- Whether a piece is a surrogate on its own. -/
def isLone : Piece → Bool
  | unit codeUnit => isHighSurrogate codeUnit || isLowSurrogate codeUnit
  | pair _ _ _ _ => false

/-- The code point of a piece, with U+FFFD for a surrogate on its own. -/
def codePoint (piece : Piece) : Nat := if piece.isLone then 0xfffd else piece.value

end Piece

/-- A sequence of code units, with each high surrogate taken together with a low one that
follows it. -/
def pieces : List UInt16 → List Piece
  | [] => []
  | [codeUnit] => [.unit codeUnit]
  | codeUnit :: next :: rest =>
    if h : isHighSurrogate codeUnit = true ∧ isLowSurrogate next = true then
      .pair codeUnit next h.1 h.2 :: pieces rest
    else .unit codeUnit :: pieces (next :: rest)

theorem pieces_pair {high : UInt16} (hhigh : isHighSurrogate high = true)
    (hlow : isLowSurrogate low = true) (rest : List UInt16) :
    pieces (high :: low :: rest) = .pair high low hhigh hlow :: pieces rest := by
  rw [pieces, dif_pos ⟨hhigh, hlow⟩]

/-- A code unit is cut off on its own when no pair begins at it. -/
theorem pieces_unit {rest : List UInt16}
    (h : isHighSurrogate codeUnit = true → ∀ next ∈ rest.head?, isLowSurrogate next = false) :
    pieces (codeUnit :: rest) = .unit codeUnit :: pieces rest := by
  cases rest with
  | nil => rfl
  | cons next rest =>
    rw [pieces, dif_neg]
    intro hpair
    have hlow := h hpair.1 next rfl
    rw [hpair.2] at hlow
    exact Bool.false_ne_true hlow.symm

theorem piecesInduction {P : List UInt16 → Prop} (nil : P [])
    (pair : ∀ high low rest, isHighSurrogate high = true → isLowSurrogate low = true → P rest →
      P (high :: low :: rest))
    (unit : ∀ codeUnit rest,
      (isHighSurrogate codeUnit = true → ∀ next ∈ rest.head?, isLowSurrogate next = false) →
      P rest → P (codeUnit :: rest))
    (units : List UInt16) : P units := by
  fun_induction pieces units with
  | case1 => exact nil
  | case2 codeUnit => exact unit codeUnit [] (fun _ _ h => absurd h (not_mem_none _)) nil
  | case3 high low rest h ih => exact pair high low rest h.1 h.2 ih
  | case4 codeUnit next rest h ih =>
    refine unit codeUnit (next :: rest) (fun hhigh next' hnext' => ?_) ih
    rw [← mem_some.mp hnext']
    exact eq_false_iff.mpr fun hlow => h ⟨hhigh, hlow⟩

theorem isLowSurrogate_of_high (h : isHighSurrogate codeUnit = true) :
    isLowSurrogate codeUnit = false := by
  have hhigh := (of_decide_eq_true h).2
  refine decide_eq_false fun hlow => ?_
  have hle := UInt16.le_trans hlow.1 hhigh
  exact absurd hle (by decide)

@[simp] theorem decodeSurrogatePair_pair {high : UInt16} (hhigh : isHighSurrogate high = true)
    (hlow : isLowSurrogate low = true) :
    decodeSurrogatePair high low = some (pairValue high low) := by
  rw [decodeSurrogatePair, hhigh, hlow]
  rfl

end Utf16View

/-! ## An iteration goes over the pieces -/

namespace Utf16CodePointIterator

open Utf16View

/-- An iterator that has the code units `units` in front of it. -/
def ahead (units : List UInt16) : Utf16CodePointIterator := ⟨units, units.length⟩

/-- `operator*` and `operator++` at a surrogate pair. -/
theorem step_pair {high : UInt16} (rest : List UInt16) (hhigh : isHighSurrogate high = true)
    (hlow : isLowSurrogate low = true) :
    (ahead (high :: low :: rest)).codePoint? = some (pairValue high low) ∧
      (ahead (high :: low :: rest)).next? = some (ahead rest) := by
  constructor
  · simp [codePoint?, ahead, hhigh, hlow]
  · have hlength : ¬ rest.length + 1 + 1 < 2 := Nat.not_lt.mpr (Nat.le_add_left _ _)
    simp [next?, lengthInCodeUnits?, ahead, hhigh, hlow, hlength]

/-- `operator*` and `operator++` at a code unit on its own. -/
theorem step_unit {rest : List UInt16}
    (h : isHighSurrogate codeUnit = true → ∀ next ∈ rest.head?, isLowSurrogate next = false) :
    (ahead (codeUnit :: rest)).codePoint? = some (Piece.unit codeUnit).codePoint ∧
      (ahead (codeUnit :: rest)).next? = some (ahead rest) := by
  cases hhigh : isHighSurrogate codeUnit with
  | false =>
    constructor
    · cases hlow : isLowSurrogate codeUnit <;>
        simp [codePoint?, ahead, Piece.codePoint, Piece.isLone, Piece.value, hhigh, hlow]
    · simp [next?, lengthInCodeUnits?, ahead, hhigh]
  | true =>
    cases rest with
    | nil =>
      constructor
      · simp [codePoint?, ahead, Piece.codePoint, Piece.isLone, hhigh]
      · simp [next?, lengthInCodeUnits?, ahead, hhigh]
    | cons next rest =>
      have hnext := h hhigh next rfl
      constructor
      · simp [codePoint?, ahead, Piece.codePoint, Piece.isLone, hhigh, hnext]
      · simp [next?, lengthInCodeUnits?, ahead, hhigh, hnext]

theorem ahead_ne_end (codeUnit : UInt16) (rest : List UInt16) :
    ahead (codeUnit :: rest) ≠ ⟨[], 0⟩ := by
  intro h
  have hptr := congrArg mPtr h
  exact cons_ne_nil _ _ hptr

theorem forEach_step (body : σ → Nat → σ) {units rest : List UInt16}
    {codePoint fuel : Nat} {state : σ}
    (h : (ahead (codeUnit :: units)).codePoint? = some codePoint ∧
      (ahead (codeUnit :: units)).next? = some (ahead rest)) :
    forEach body ⟨[], 0⟩ (fuel + 1) (ahead (codeUnit :: units)) state =
      forEach body ⟨[], 0⟩ fuel (ahead rest) (body state codePoint) := by
  rw [forEach, if_neg (ahead_ne_end _ _), h.1, h.2]
  rfl

/-- A loop over code units runs its body on the code point of each piece. -/
theorem forEach_ahead (body : σ → Nat → σ) (units : List UInt16) (fuel : Nat)
    (hfuel : units.length ≤ fuel) (state : σ) : forEach body ⟨[], 0⟩ fuel (ahead units) state =
      some (((pieces units).map Piece.codePoint).foldl body state) := by
  induction units using piecesInduction generalizing fuel state with
  | nil => cases fuel <;> rfl
  | pair high low rest hhigh hlow ih =>
    obtain ⟨fuel, rfl⟩ := exists_eq_add_one_of_ne_zero
      (Nat.ne_of_gt (Nat.lt_of_lt_of_le (zero_lt_succ _) hfuel))
    have hrest : rest.length ≤ fuel :=
      Nat.le_trans (le_succ _) (le_of_succ_le_succ hfuel)
    rw [forEach_step body (step_pair rest hhigh hlow), ih fuel hrest, pieces_pair hhigh hlow]
    rfl
  | unit codeUnit rest hnext ih =>
    obtain ⟨fuel, rfl⟩ := exists_eq_add_one_of_ne_zero
      (Nat.ne_of_gt (Nat.lt_of_lt_of_le (zero_lt_succ _) hfuel))
    rw [forEach_step body (step_unit hnext), ih fuel (le_of_succ_le_succ hfuel),
      pieces_unit hnext]
    rfl

end Utf16CodePointIterator

namespace Utf16View

open Utf16CodePointIterator

/-- A range-based loop over a view runs its body on the code point of each piece. -/
theorem forEach_eq (body : σ → Nat → σ) (view : Utf16View) (state : σ) : view.forEach body state =
      some (((pieces view.mCodeUnits).map Piece.codePoint).foldl body state) := by
  have hend : view.endIterator = ⟨[], 0⟩ := by rw [endIterator, drop_length]
  rw [forEach, hend]
  exact forEach_ahead body view.mCodeUnits _ (Nat.le_refl _) state

theorem foldl_concat (cs init : List Nat) :
    cs.foldl (fun codePoints codePoint => codePoints ++ [codePoint]) init = init ++ cs := by
  induction cs generalizing init with
  | nil => exact (append_nil _).symm
  | cons c cs ih => rw [foldl_cons, ih, List.append_assoc, singleton_append]

theorem foldl_count (cs : List Nat) (n : Nat) :
    cs.foldl (fun codePoints _ => codePoints + 1) n = n + cs.length := by
  induction cs generalizing n with
  | nil => rfl
  | cons c cs ih => rw [foldl_cons, ih, length_cons, Nat.add_assoc, Nat.add_comm 1]

theorem codePoints?_eq (view : Utf16View) :
    view.codePoints? = some ((pieces view.mCodeUnits).map Piece.codePoint) := by
  rw [codePoints?, forEach_eq, foldl_concat, nil_append]

theorem calculateLengthInCodePoints_eq (view : Utf16View) :
    view.calculateLengthInCodePoints = some (pieces view.mCodeUnits).length := by
  rw [calculateLengthInCodePoints, forEach_eq, foldl_count, length_map, Nat.zero_add]

/-- A view that has a length has the right one. -/
structure Counted (view : Utf16View) : Prop where
  length : ∀ n ∈ view.mLengthInCodePoints, n = (pieces view.mCodeUnits).length

theorem counted_mk (units : List UInt16) : Counted { mCodeUnits := units } where
  length := fun _ h => absurd h (not_mem_none _)

/-- The length is the number of pieces, whether it has been counted before or not. -/
theorem Counted.lengthInCodePoints_eq {view : Utf16View} (h : Counted view) :
    ∃ view', view.lengthInCodePoints = some ((pieces view.mCodeUnits).length, view') ∧
      Counted view' ∧ view'.mCodeUnits = view.mCodeUnits := by
  unfold lengthInCodePoints
  split
  · next n hn =>
    rw [← h.length n hn]
    exact ⟨view, rfl, h, rfl⟩
  · rw [calculateLengthInCodePoints_eq]
    exact ⟨_, rfl, ⟨fun n hn => (mem_some.mp hn).symm⟩, rfl⟩

/-- `validate` passes over what has no surrogate on its own. -/
theorem validateFrom_of_not_lone (units : List UInt16)
    (h : ∀ piece ∈ pieces units, piece.isLone = false) (validCodeUnits : Nat) :
    validateFrom units validCodeUnits = (true, validCodeUnits + units.length) := by
  induction units using piecesInduction generalizing validCodeUnits with
  | nil => rfl
  | pair high low rest hhigh hlow ih =>
    rw [pieces_pair hhigh hlow] at h
    have hrest := ih (forall_mem_cons.mp h).2 (validCodeUnits + 1 + 1)
    simp only [validateFrom, if_pos hhigh, if_pos hlow, hrest, length_cons]
    exact congrArg (Prod.mk true) (by omega)
  | unit codeUnit rest hnext ih =>
    rw [pieces_unit hnext] at h
    obtain ⟨hunit, hrest⟩ := forall_mem_cons.mp h
    obtain ⟨hhigh, hlow⟩ := or_eq_false_iff.mp hunit
    have hvalid := ih hrest (validCodeUnits + 1)
    cases rest with
    | nil => simp [validateFrom, hhigh, hlow]
    | cons next rest =>
      simp only [validateFrom, hhigh, hlow, if_neg Bool.false_ne_true, hvalid,
        length_cons (a := codeUnit)]
      exact congrArg (Prod.mk true) (by omega)

/-! ## The round trip -/

theorem or_high (h : n < 0x400) : 0xd800 ||| n = 0xd800 + n :=
  (two_pow_add_eq_or_of_lt (i := 10) h 0x36).symm

theorem or_low (h : n < 0x400) : 0xdc00 ||| n = 0xdc00 + n :=
  (two_pow_add_eq_or_of_lt (i := 10) h 0x37).symm

/-- What is encoded for a scalar value is one piece, no surrogate on its own, whose code
point is that value. -/
theorem exists_piece {c : Nat} (h : isUnicodeScalarValue c = true) :
    ∃ units, (∀ string, codePointToUtf16 string c = some (string ++ units)) ∧
      ∃ piece : Piece, piece.isLone = false ∧ piece.codePoint = c ∧
        ∀ rest, pieces (units ++ rest) = piece :: pieces rest := by
  obtain ⟨hunicode, hsurrogate⟩ := and_eq_true_iff.mp h
  have hle : c ≤ 0x10FFFF := of_decide_eq_true hunicode
  have hnot : ¬ (0xD800 ≤ c ∧ c ≤ 0xDFFF) :=
    of_decide_eq_false (not_eq_true' _ |>.mp hsurrogate)
  by_cases hc : c < 0x10000
  · -- a code unit of its own
    have htoNat : (UInt16.ofNat c).toNat = c := UInt16.toNat_ofNat_of_lt' hc
    have hhigh : isHighSurrogate (UInt16.ofNat c) = false := by
      simp only [isHighSurrogate, decide_eq_false_iff_not, UInt16.le_iff_toNat_le, htoNat]
      intro hc
      exact hnot ⟨hc.1, Nat.le_trans hc.2 (by decide)⟩
    have hlow : isLowSurrogate (UInt16.ofNat c) = false := by
      simp only [isLowSurrogate, decide_eq_false_iff_not, UInt16.le_iff_toNat_le, htoNat]
      intro hc
      exact hnot ⟨Nat.le_trans (by decide) hc.1, hc.2⟩
    have hlone : (Piece.unit (UInt16.ofNat c)).isLone = false :=
      or_eq_false_iff.mpr ⟨hhigh, hlow⟩
    refine ⟨[UInt16.ofNat c], fun string => ?_, .unit (UInt16.ofNat c), hlone, ?_, fun rest => ?_⟩
    · rw [codePointToUtf16, if_pos hle, if_pos hc]
    · rw [Piece.codePoint, hlone, if_neg Bool.false_ne_true]
      exact htoNat
    · refine pieces_unit fun hhigh' => ?_
      rw [hhigh] at hhigh'
      exact absurd hhigh' Bool.false_ne_true
  · -- ten bits in the high surrogate and ten in the low one
    have hshift : (c - 0x10000) >>> 10 = (c - 0x10000) / 0x400 := Nat.shiftRight_eq_div_pow _ 10
    have hmask : (c - 0x10000) &&& 0x3ff = (c - 0x10000) % 0x400 :=
      and_two_pow_sub_one_eq_mod _ 10
    have hupper : (c - 0x10000) / 0x400 < 0x400 := by omega
    have hlower : (c - 0x10000) % 0x400 < 0x400 := mod_lt _ (by decide)
    obtain ⟨high, hhighEq⟩ : ∃ high, high = UInt16.ofNat (0xd800 ||| ((c - 0x10000) >>> 10)) :=
      ⟨_, rfl⟩
    obtain ⟨low, hlowEq⟩ : ∃ low, low = UInt16.ofNat (0xdc00 ||| ((c - 0x10000) &&& 0x3ff)) :=
      ⟨_, rfl⟩
    have hhighNat : high.toNat = 0xd800 + (c - 0x10000) / 0x400 := by
      rw [hhighEq, hshift, or_high hupper]
      exact UInt16.toNat_ofNat_of_lt' (show _ < 65536 by omega)
    have hlowNat : low.toNat = 0xdc00 + (c - 0x10000) % 0x400 := by
      rw [hlowEq, hmask, or_low hlower]
      exact UInt16.toNat_ofNat_of_lt' (show _ < 65536 by omega)
    have hhigh : isHighSurrogate high = true := by
      simp only [isHighSurrogate, decide_eq_true_iff, UInt16.le_iff_toNat_le, hhighNat]
      exact ⟨Nat.le_add_right _ _, Nat.add_le_add_left (le_of_lt_succ hupper) _⟩
    have hlow : isLowSurrogate low = true := by
      simp only [isLowSurrogate, decide_eq_true_iff, UInt16.le_iff_toNat_le, hlowNat]
      exact ⟨Nat.le_add_right _ _, Nat.add_le_add_left (le_of_lt_succ hlower) _⟩
    refine ⟨[high, low], fun string => ?_, .pair high low hhigh hlow, rfl, ?_,
      fun rest => pieces_pair hhigh hlow rest⟩
    · rw [codePointToUtf16, if_pos hle, if_neg hc, ← hhighEq, ← hlowEq, List.append_assoc]
      rfl
    · have hvalue : pairValue high low = c := by
        simp only [pairValue, hhighNat, hlowNat, Nat.add_sub_cancel_left, Nat.shiftLeft_eq]
        omega
      exact hvalue

/-- What is encoded for scalar values has a piece for each of them. -/
theorem pieces_foldlM {cs : List Nat} (h : ∀ c ∈ cs, isUnicodeScalarValue c = true)
    (string : List UInt16) : ∃ units, cs.foldlM codePointToUtf16 string = some (string ++ units) ∧
      (∀ piece ∈ pieces units, piece.isLone = false) ∧
      (pieces units).map Piece.codePoint = cs := by
  induction cs generalizing string with
  | nil => exact ⟨[], congrArg some (append_nil _).symm, forall_mem_nil _, rfl⟩
  | cons c cs ih =>
    obtain ⟨hc, hcs⟩ := forall_mem_cons.mp h
    obtain ⟨units, hunits, piece, hlone, hpiece, hpieces⟩ := exists_piece hc
    obtain ⟨rest, hrest, hnone, hmap⟩ := ih hcs (string ++ units)
    refine ⟨units ++ rest, ?_, ?_, ?_⟩
    · rw [foldlM_cons, hunits, bind_eq_bind, bind_some, hrest, List.append_assoc]
    · rw [hpieces]
      exact forall_mem_cons.mpr ⟨hlone, hnone⟩
    · rw [hpieces, map_cons, hpiece, hmap]

/-- What is encoded for a list of code points is iterated back, is counted, now and when
asked again, and is valid as a whole. -/
def RoundTrips (cs : List Nat) : Prop :=
  ∃ units, toUtf16Impl cs = some units ∧
    (Utf16View.mk units none).codePoints? = some cs ∧
    (∃ view view', (Utf16View.mk units none).lengthInCodePoints = some (cs.length, view) ∧
      view.lengthInCodePoints = some (cs.length, view')) ∧
    (Utf16View.mk units none).validate = (true, units.length)

/-- Every list of Unicode scalar values makes the round trip through UTF-16. -/
theorem roundTrips_of_scalarValues {cs : List Nat} (h : ∀ c ∈ cs, isUnicodeScalarValue c = true) :
    RoundTrips cs := by
  obtain ⟨units, hunits, hlone, hmap⟩ := pieces_foldlM h []
  rw [nil_append] at hunits
  have hlength : (pieces units).length = cs.length := by rw [← hmap, length_map]
  obtain ⟨view, hview, hcounted, hviewUnits⟩ := (counted_mk units).lengthInCodePoints_eq
  obtain ⟨view', hview', -, -⟩ := hcounted.lengthInCodePoints_eq
  rw [hviewUnits] at hview'
  refine ⟨units, hunits, ?_, ⟨view, view', ?_, ?_⟩, ?_⟩
  · rw [codePoints?_eq, hmap]
  · rw [hview, hlength]
  · rw [hview', hlength]
  · rw [validate, validateFrom_of_not_lone units hlone, Nat.zero_add]

theorem roundTrips_clef : RoundTrips [0x41, 0xFFFF, 0x1D11E, 0x10FFFF] :=
  roundTrips_of_scalarValues (by decide)

/-! ## Both conversions to UTF-8 -/

/-- The bytes of a sequence of code units, a surrogate on its own encoded like any other
code point. -/
def lenientUtf8 (units : List UInt16) : List UInt8 :=
  (pieces units).flatMap fun piece => appendedCodePoint piece.value

theorem lenientUtf8_pair {high : UInt16} (hhigh : isHighSurrogate high = true)
    (hlow : isLowSurrogate low = true) (rest : List UInt16) : lenientUtf8 (high :: low :: rest) =
      appendedCodePoint (pairValue high low) ++ lenientUtf8 rest := by
  rw [lenientUtf8, pieces_pair hhigh hlow, flatMap_cons]
  rfl

theorem lenientUtf8_unit {rest : List UInt16}
    (h : isHighSurrogate codeUnit = true → ∀ next ∈ rest.head?, isLowSurrogate next = false) :
    lenientUtf8 (codeUnit :: rest) = appendedCodePoint codeUnit.toNat ++ lenientUtf8 rest := by
  rw [lenientUtf8, pieces_unit h, flatMap_cons]
  rfl

theorem toUtf8From_eq (units : List UInt16) (builder : List UInt8) :
    toUtf8From units builder = some (builder ++ lenientUtf8 units) := by
  induction units using piecesInduction generalizing builder with
  | nil => exact congrArg some (append_nil _).symm
  | pair high low rest hhigh hlow ih =>
    rw [toUtf8From, hhigh, hlow, Bool.and_self, if_pos rfl, decodeSurrogatePair_pair hhigh hlow,
      bind_some, ih, lenientUtf8_pair hhigh hlow, List.append_assoc]
  | unit codeUnit rest hnext ih =>
    rw [lenientUtf8_unit hnext, ← List.append_assoc, ← ih]
    cases rest with
    | nil => rfl
    | cons next rest =>
      have hpair : ¬ (isHighSurrogate codeUnit && isLowSurrogate next) = true := by
        intro hpair
        obtain ⟨hhigh, hlow⟩ := and_eq_true_iff.mp hpair
        rw [hnext hhigh next rfl] at hlow
        exact Bool.false_ne_true hlow
      rw [toUtf8From, if_neg hpair]

theorem codePointAt_pair {view : Utf16View} {high : UInt16} {rest : List UInt16}
    (hunits : view.mCodeUnits.drop i = high :: low :: rest)
    (hhigh : isHighSurrogate high = true) (hlow : isLowSurrogate low = true) :
    view.codePointAt i = some (pairValue high low) := by
  have hat : view.codeUnitAt i = some high := by
    rw [codeUnitAt, ← List.head?_drop, hunits]
    rfl
  have hnext : view.codeUnitAt (i + 1) = some low := by
    rw [codeUnitAt, ← List.head?_drop, ← drop_drop, hunits]
    rfl
  have hlength : (i + 1 == view.lengthInCodeUnits) = false := by
    have hdrop := congrArg List.length hunits
    simp only [length_drop, length_cons] at hdrop
    rw [lengthInCodeUnits]
    exact beq_false_of_ne (by omega)
  simp only [codePointAt, hat, bind_some, hnext, hhigh, hlow, isLowSurrogate_of_high hhigh, hlength]
  exact decodeSurrogatePair_pair hhigh hlow

theorem codePointAt_unit {view : Utf16View} {rest : List UInt16}
    (hunits : view.mCodeUnits.drop i = codeUnit :: rest)
    (hnext : isHighSurrogate codeUnit = true → ∀ next ∈ rest.head?, isLowSurrogate next = false) :
    view.codePointAt i = some codeUnit.toNat := by
  have hat : view.codeUnitAt i = some codeUnit := by
    rw [codeUnitAt, ← List.head?_drop, hunits]
    rfl
  have hlength := congrArg List.length hunits
  rw [length_drop, length_cons] at hlength
  rw [codePointAt, hat, bind_some]
  cases hhigh : isHighSurrogate codeUnit with
  | false => cases isLowSurrogate codeUnit <;> rfl
  | true =>
    rw [isLowSurrogate_of_high hhigh]
    cases rest with
    | nil =>
      have hlast : (i + 1 == view.lengthInCodeUnits) = true := by
        rw [length_nil] at hlength
        exact beq_iff_eq.mpr (show i + 1 = view.mCodeUnits.length by omega)
      rw [hlast]
      rfl
    | cons next rest =>
      have hmore : (i + 1 == view.lengthInCodeUnits) = false := by
        rw [length_cons] at hlength
        exact beq_false_of_ne (show i + 1 ≠ view.mCodeUnits.length by omega)
      have hsecond : view.codeUnitAt (i + 1) = some next := by
        rw [codeUnitAt, ← List.head?_drop, ← drop_drop, hunits]
        rfl
      rw [hmore, hsecond, bind_some, hnext hhigh next rfl]
      rfl

theorem pairValue_gt (high low : UInt16) : pairValue high low > 0xffff :=
  Nat.le_add_left _ _

/-- A round of the loop of `StringBuilder::try_append`. -/
theorem appendFrom_step {view : Utf16View} {codePoint : Nat}
    {rest : List UInt16} (hunits : view.mCodeUnits.drop i = codeUnit :: rest)
    (hcodePoint : view.codePointAt i = some codePoint) (builder : List UInt8) :
    view.appendFrom i builder =
      view.appendFrom (i + if codePoint > 0xffff then 2 else 1)
        (builder ++ appendedCodePoint codePoint) := by
  have hlt : i < view.lengthInCodeUnits := by
    have hdrop := congrArg List.length hunits
    rw [length_drop, length_cons] at hdrop
    show i < view.mCodeUnits.length
    omega
  rw [appendFrom, if_pos hlt, hcodePoint, bind_some]

/-- The index walk of `StringBuilder::try_append`. -/
theorem appendFrom_eq (view : Utf16View) (units : List UInt16) (i : Nat)
    (hunits : view.mCodeUnits.drop i = units) (builder : List UInt8) :
    view.appendFrom i builder = some (builder ++ lenientUtf8 units) := by
  induction units using piecesInduction generalizing i builder with
  | nil =>
    have hge : ¬ i < view.lengthInCodeUnits := Nat.not_lt.mpr (drop_eq_nil_iff.mp hunits)
    rw [appendFrom, if_neg hge]
    exact congrArg some (append_nil _).symm
  | pair high low rest hhigh hlow ih =>
    have hrest : view.mCodeUnits.drop (i + 2) = rest := by
      rw [← drop_drop, hunits]
      rfl
    rw [appendFrom_step hunits (codePointAt_pair hunits hhigh hlow),
      if_pos (pairValue_gt high low), ih (i + 2) hrest, lenientUtf8_pair hhigh hlow,
      List.append_assoc]
  | unit codeUnit rest hnext ih =>
    have hrest : view.mCodeUnits.drop (i + 1) = rest := by
      rw [← drop_drop, hunits]
      rfl
    have hunit : ¬ codeUnit.toNat > 0xffff := Nat.not_lt.mpr (le_of_lt_succ codeUnit.toNat_lt)
    rw [appendFrom_step hunits (codePointAt_unit hunits hnext), if_neg hunit,
      ih (i + 1) hrest, lenientUtf8_unit hnext, List.append_assoc]

/-- Appending a view to a builder adds the bytes that `to_utf8` gives when it allows invalid
code units, and neither stops at an assertion. -/
theorem append_eq_toUtf8 (view : Utf16View) : ∃ bytes, view.toUtf8 .yes = some bytes ∧
      ∀ builder, append builder view = some (builder ++ bytes) := by
  refine ⟨lenientUtf8 view.mCodeUnits, ?_, fun builder => ?_⟩
  · rw [toUtf8, if_pos rfl, toUtf8From_eq, nil_append]
  · exact appendFrom_eq view view.mCodeUnits 0 rfl builder

end Utf16View

end Literate.AK

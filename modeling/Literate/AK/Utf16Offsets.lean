import Literate.AK.Utf16View

/-!
# AK: offsets in UTF-16

`code_point_offset_of` and `code_unit_offset_of` of `AK/Utf16View.cpp`.  An offset between the
two code units of a surrogate pair is reduced by two, so it wraps and is not reached any more:
all code points are counted then.
-/

namespace Literate.AK

open List Option Nat

variable {codeUnit : UInt16} {codePointOffset fuel : Nat}

namespace Utf16View

open Utf16CodePointIterator

/-- The loop of `code_point_offset_of`, of at most `fuel` rounds. -/
def codePointOffsetLoop (last : Utf16CodePointIterator) :
    (fuel : Nat) → Utf16CodePointIterator → (codeUnitOffset codePointOffset : Nat) → Option Nat
  | 0, it, _, codePointOffset => if it = last then some codePointOffset else none
  | fuel + 1, it, codeUnitOffset, codePointOffset =>
    if it = last then some codePointOffset
    else if codeUnitOffset = 0 then some codePointOffset
    else
      it.lengthInCodeUnits?.bind fun codeUnits =>
        it.next?.bind fun next =>
          codePointOffsetLoop last fuel next ((codeUnitOffset + 2 ^ 64 - codeUnits) % 2 ^ 64)
            ((codePointOffset + 1) % 2 ^ 64)

def codePointOffsetOf (view : Utf16View) (codeUnitOffset : Nat) : Option Nat :=
  codePointOffsetLoop view.endIterator view.lengthInCodeUnits view.beginIterator codeUnitOffset 0

/-- The loop of `code_unit_offset_of`, of at most `fuel` rounds. -/
def codeUnitOffsetLoop (last : Utf16CodePointIterator) :
    (fuel : Nat) → Utf16CodePointIterator → (codePointOffset codeUnitOffset : Nat) → Option Nat
  | 0, it, _, codeUnitOffset => if it = last then some codeUnitOffset else none
  | fuel + 1, it, codePointOffset, codeUnitOffset =>
    if it = last then some codeUnitOffset
    else if codePointOffset = 0 then some codeUnitOffset
    else
      it.lengthInCodeUnits?.bind fun codeUnits =>
        it.next?.bind fun next =>
          codeUnitOffsetLoop last fuel next (codePointOffset - 1)
            ((codeUnitOffset + codeUnits) % 2 ^ 64)

def codeUnitOffsetOf (view : Utf16View) (codePointOffset : Nat) : Option Nat :=
  codeUnitOffsetLoop view.endIterator view.lengthInCodeUnits view.beginIterator codePointOffset 0

/-! ## Where code points start -/

/-- The offsets at which pieces start, the first one at `offset`. -/
def starts : (cut : List Piece) → (offset : Nat) → List Nat
  | [], _ => []
  | piece :: cut, offset => offset :: starts cut (offset + piece.codeUnits.length)

/-- The number of code points that start before an offset. -/
def startsBefore (cut : List Piece) (codeUnitOffset : Nat) : Nat :=
  ((starts cut 0).filter (· < codeUnitOffset)).length

/-- Whether an offset is between the code units of a surrogate pair that another code point
follows. -/
def SplitsPair (units : List UInt16) (codeUnitOffset : Nat) : Prop :=
  ∃ front high low behind, units = front ++ high :: low :: behind ∧
    isHighSurrogate high = true ∧ isLowSurrogate low = true ∧
    codeUnitOffset = front.length + 1 ∧ behind ≠ []

theorem starts_add (cut : List Piece) (offset distance : Nat) :
    starts cut (offset + distance) = (starts cut offset).map (· + distance) := by
  induction cut generalizing offset with
  | nil => rfl
  | cons piece cut ih => simp only [starts, map_cons, ← ih, Nat.add_right_comm]

theorem startsBefore_zero (cut : List Piece) : startsBefore cut 0 = 0 := by
  rw [startsBefore, length_eq_zero_iff, filter_eq_nil_iff]
  exact fun start _ h => Nat.not_lt_zero _ (of_decide_eq_true h)

theorem startsBefore_cons (piece : Piece) (cut : List Piece) {codeUnitOffset : Nat}
    (h : 0 < codeUnitOffset) : startsBefore (piece :: cut) codeUnitOffset =
      startsBefore cut (codeUnitOffset - piece.codeUnits.length) + 1 := by
  have hmoved : starts cut (0 + piece.codeUnits.length) =
      (starts cut 0).map (· + piece.codeUnits.length) := starts_add cut 0 _
  have hsame : ((starts cut 0).map (· + piece.codeUnits.length)).filter (· < codeUnitOffset) =
      ((starts cut 0).filter (· < codeUnitOffset - piece.codeUnits.length)).map
        (· + piece.codeUnits.length) := by
    rw [List.filter_map]
    congr 1
    refine filter_congr fun start _ => ?_
    rw [Function.comp_apply, decide_eq_decide]
    omega
  have hfirst : decide (0 < codeUnitOffset) = true := decide_eq_true h
  simp only [startsBefore, starts, filter_cons, if_pos hfirst, length_cons, hmoved, hsame,
    length_map]

/-! ## A step of the iterator -/

/-- An iterator in front of a piece steps over it. -/
structure StepsOver (piece : Piece) (rest : List UInt16) : Prop where
  cut : pieces (piece.codeUnits ++ rest) = piece :: pieces rest
  length : (ahead (piece.codeUnits ++ rest)).lengthInCodeUnits? = some piece.codeUnits.length
  next : (ahead (piece.codeUnits ++ rest)).next? = some (ahead rest)

theorem stepsOver_pair {high low : UInt16} (rest : List UInt16)
    (hhigh : isHighSurrogate high = true) (hlow : isLowSurrogate low = true) :
    StepsOver (.pair high low hhigh hlow) rest where
  cut := pieces_pair hhigh hlow rest
  length := by simp [lengthInCodeUnits?, ahead, Piece.codeUnits, hhigh, hlow]
  next := (step_pair rest hhigh hlow).2

theorem stepsOver_unit {rest : List UInt16}
    (hnext : isHighSurrogate codeUnit = true → ∀ next ∈ rest.head?, isLowSurrogate next = false) :
    StepsOver (.unit codeUnit) rest where
  cut := pieces_unit hnext
  length := by
    cases hhigh : isHighSurrogate codeUnit with
    | false => simp [lengthInCodeUnits?, ahead, Piece.codeUnits, hhigh]
    | true =>
      cases rest with
      | nil => simp [lengthInCodeUnits?, ahead, Piece.codeUnits, hhigh]
      | cons next rest =>
        have hnot := hnext hhigh next rfl
        simp [lengthInCodeUnits?, ahead, Piece.codeUnits, hhigh, hnot]
  next := (step_unit hnext).2

theorem stepsInduction {P : List UInt16 → Prop} (nil : P [])
    (step : ∀ piece rest, StepsOver piece rest → P rest → P (piece.codeUnits ++ rest))
    (units : List UInt16) : P units :=
  piecesInduction nil (fun _ _ rest hhigh hlow => step _ _ (stepsOver_pair rest hhigh hlow))
    (fun _ _ hnext => step _ _ (stepsOver_unit hnext)) units

variable {piece : Piece} {rest : List UInt16} {codeUnitOffset : Nat}

/-- A high surrogate that is a piece is followed by no low one. -/
theorem StepsOver.no_pair (h : StepsOver (.unit codeUnit) rest) :
    isHighSurrogate codeUnit = true → ∀ next ∈ rest.head?, isLowSurrogate next = false := by
  intro hhigh next hnext
  obtain ⟨behind, rfl⟩ := List.head?_eq_some_iff.mp hnext
  refine Bool.eq_false_iff.mpr fun hlow => ?_
  have hcut := h.cut
  rw [Piece.codeUnits, singleton_append, pieces_pair hhigh hlow] at hcut
  cases (List.cons.inj hcut).1

theorem length_codeUnits_pos (piece : Piece) : 0 < piece.codeUnits.length := by
  cases piece <;> exact succ_pos _

theorem length_pieces_pos {units : List UInt16} (h : units ≠ []) : 0 < (pieces units).length := by
  induction units using stepsInduction with
  | nil => exact absurd rfl h
  | step piece rest hstep _ =>
    rw [hstep.cut]
    exact succ_pos _

/-! ## Pairs that are split -/

theorem not_splitsPair_zero (units : List UInt16) : ¬ SplitsPair units 0 := by
  rintro ⟨front, -, -, -, -, -, -, hoffset, -⟩
  cases hoffset

/-- An offset within a piece is one between the code units of a pair. -/
theorem splitsPair_within (hpos : 0 < codeUnitOffset) (hlt : codeUnitOffset < piece.codeUnits.length) :
    SplitsPair (piece.codeUnits ++ rest) codeUnitOffset ↔ rest ≠ [] := by
  cases piece with
  | unit codeUnit => exact absurd hlt (Nat.not_lt.mpr hpos)
  | pair high low hhigh hlow =>
    obtain rfl : codeUnitOffset = 1 := Nat.le_antisymm (le_of_lt_succ hlt) hpos
    constructor
    · rintro ⟨front, high', low', behind, hunits, -, -, hoffset, hbehind⟩
      obtain rfl : front = [] := length_eq_zero_iff.mp (succ_inj.mp hoffset).symm
      obtain rfl : rest = behind := (List.cons.inj (List.cons.inj hunits).2).2
      exact hbehind
    · exact fun hrest => ⟨[], high, low, rest, rfl, hhigh, hlow, rfl, hrest⟩

/-- An offset behind a code unit that begins no pair. -/
theorem splitsPair_cons
    (hnext : isHighSurrogate codeUnit = true → ∀ next ∈ rest.head?, isLowSurrogate next = false) :
    SplitsPair (codeUnit :: rest) (codeUnitOffset + 1) ↔ SplitsPair rest codeUnitOffset := by
  constructor
  · rintro ⟨front, high, low, behind, hunits, hhigh, hlow, hoffset, hbehind⟩
    cases front with
    | nil =>
      obtain ⟨rfl, rfl⟩ := List.cons.inj hunits
      have hnot := hnext hhigh low rfl
      rw [hlow] at hnot
      cases hnot
    | cons ch front =>
      obtain ⟨-, hrest⟩ := List.cons.inj hunits
      exact ⟨front, high, low, behind, hrest, hhigh, hlow, succ_inj.mp hoffset, hbehind⟩
  · rintro ⟨front, high, low, behind, rfl, hhigh, hlow, rfl, hbehind⟩
    exact ⟨codeUnit :: front, high, low, behind, rfl, hhigh, hlow, rfl, hbehind⟩

theorem StepsOver.splitsPair (h : StepsOver piece rest) :
    SplitsPair (piece.codeUnits ++ rest) (codeUnitOffset + piece.codeUnits.length) ↔
      SplitsPair rest codeUnitOffset := by
  cases piece with
  | unit codeUnit => exact splitsPair_cons h.no_pair
  | pair high low hhigh hlow =>
    have hnext : isHighSurrogate low = true → ∀ next ∈ rest.head?, isLowSurrogate next = false :=
      fun hhigh => absurd hlow (Bool.eq_false_iff.mp (isLowSurrogate_of_high hhigh))
    rw [← splitsPair_cons hnext]
    constructor
    · rintro ⟨front, high', low', behind, hunits, hhigh', hlow', hoffset, hbehind⟩
      cases front with
      | nil => cases hoffset
      | cons ch front =>
        obtain ⟨-, hrest⟩ := List.cons.inj hunits
        exact ⟨front, high', low', behind, hrest, hhigh', hlow', succ_inj.mp hoffset,
          hbehind⟩
    · rintro ⟨front, high', low', behind, hrest, hhigh', hlow', hoffset, hbehind⟩
      exact ⟨high :: front, high', low', behind, congrArg (high :: ·) hrest, hhigh', hlow',
        congrArg (· + 1) hoffset, hbehind⟩

/-! ## The two loops -/

theorem ahead_append_ne_end (piece : Piece) (rest : List UInt16) :
    ahead (piece.codeUnits ++ rest) ≠ ⟨[], 0⟩ := by
  cases piece <;> exact ahead_ne_end _ _

theorem codePointOffsetLoop_step (h : StepsOver piece rest)
    (hoffset : 0 < codeUnitOffset) (hfits : codePointOffset + 1 < 2 ^ 64) (fuel : Nat) :
    codePointOffsetLoop ⟨[], 0⟩ (fuel + 1) (ahead (piece.codeUnits ++ rest)) codeUnitOffset
        codePointOffset =
      codePointOffsetLoop ⟨[], 0⟩ fuel (ahead rest)
        ((codeUnitOffset + 2 ^ 64 - piece.codeUnits.length) % 2 ^ 64) (codePointOffset + 1) := by
  simp only [codePointOffsetLoop, if_neg (ahead_append_ne_end _ _), if_neg (Nat.ne_of_gt hoffset),
    h.length, h.next, bind_some, mod_eq_of_lt hfits]

theorem codePointOffsetLoop_zero (units : List UInt16) (hfuel : units.length ≤ fuel)
    (codePointOffset : Nat) :
    codePointOffsetLoop ⟨[], 0⟩ fuel (ahead units) 0 codePointOffset = some codePointOffset := by
  cases fuel with
  | zero =>
    obtain rfl : units = [] := length_eq_zero_iff.mp (le_zero.mp hfuel)
    rfl
  | succ fuel =>
    rw [codePointOffsetLoop]
    split <;> rfl

theorem codePointOffsetLoop_end (fuel codeUnitOffset codePointOffset : Nat) :
    codePointOffsetLoop ⟨[], 0⟩ fuel (ahead []) codeUnitOffset codePointOffset =
      some codePointOffset := by
  cases fuel <;> exact if_pos rfl

/-- What is left of an offset that reaches as far as what is subtracted. -/
theorem sub_of_le {codeUnits : Nat} (hle : codeUnits ≤ codeUnitOffset)
    (hlt : codeUnitOffset < 2 ^ 64) :
    (codeUnitOffset + 2 ^ 64 - codeUnits) % 2 ^ 64 = codeUnitOffset - codeUnits := by
  omega

theorem codePointOffsetLoop_beyond (units : List UInt16)
    (hfuel : units.length ≤ fuel) (hbeyond : units.length < codeUnitOffset)
    (hlt : codeUnitOffset < 2 ^ 64) (hfits : codePointOffset + units.length < 2 ^ 64) :
    codePointOffsetLoop ⟨[], 0⟩ fuel (ahead units) codeUnitOffset codePointOffset =
      some (codePointOffset + (pieces units).length) := by
  induction units using stepsInduction generalizing fuel codeUnitOffset codePointOffset with
  | nil => exact codePointOffsetLoop_end _ _ _
  | step piece rest hstep ih =>
    have hpos := length_codeUnits_pos piece
    rw [length_append] at hfuel hbeyond hfits
    obtain ⟨fuel, rfl⟩ := exists_eq_add_one_of_ne_zero (by omega : fuel ≠ 0)
    rw [codePointOffsetLoop_step hstep (by omega) (by omega), sub_of_le (by omega) hlt,
      ih (by omega) (by omega) (by omega) (by omega), hstep.cut, length_cons, Nat.add_assoc,
      Nat.add_comm 1]

/-- At an offset that splits no pair the code points before it are counted, and at one that
does all of them. -/
theorem codePointOffsetLoop_spec (units : List UInt16) {fuel codePointOffset : Nat}
    (hfuel : units.length ≤ fuel) (hle : codeUnitOffset ≤ units.length)
    (hfits : codePointOffset + units.length < 2 ^ 64) : (¬ SplitsPair units codeUnitOffset →
      codePointOffsetLoop ⟨[], 0⟩ fuel (ahead units) codeUnitOffset codePointOffset =
        some (codePointOffset + startsBefore (pieces units) codeUnitOffset)) ∧
    (SplitsPair units codeUnitOffset →
      codePointOffsetLoop ⟨[], 0⟩ fuel (ahead units) codeUnitOffset codePointOffset =
        some (codePointOffset + (pieces units).length) ∧
      startsBefore (pieces units) codeUnitOffset < (pieces units).length) := by
  induction units using stepsInduction generalizing fuel codeUnitOffset codePointOffset with
  | nil =>
    refine ⟨fun _ => codePointOffsetLoop_end _ _ _, ?_⟩
    rintro ⟨front, high, low, behind, hunits, -⟩
    exact absurd hunits.symm (append_ne_nil_of_right_ne_nil _ (cons_ne_nil _ _))
  | step piece rest hstep ih =>
    have hpos := length_codeUnits_pos piece
    by_cases hzero : codeUnitOffset = 0
    · subst hzero
      refine ⟨fun _ => ?_, fun hsplits => absurd hsplits (not_splitsPair_zero _)⟩
      rw [codePointOffsetLoop_zero _ hfuel, startsBefore_zero, Nat.add_zero]
    have hoffset := Nat.pos_of_ne_zero hzero
    rw [length_append] at hfuel hle hfits
    obtain ⟨fuel, rfl⟩ := exists_eq_add_one_of_ne_zero (by omega : fuel ≠ 0)
    rw [codePointOffsetLoop_step hstep hoffset (by omega), hstep.cut, startsBefore_cons _ _ hoffset,
      length_cons]
    by_cases hwithin : codeUnitOffset < piece.codeUnits.length
    · -- the offset wraps, and the loop goes on to the end
      have hnone : codeUnitOffset - piece.codeUnits.length = 0 :=
        Nat.sub_eq_zero_of_le (Nat.le_of_lt hwithin)
      rw [splitsPair_within hoffset hwithin, hnone, startsBefore_zero, not_not,
        codePointOffsetLoop_beyond rest (by omega) (by omega) (by omega) (by omega), Nat.add_assoc,
        Nat.add_comm 1]
      refine ⟨?_, fun hrest => ⟨rfl, succ_lt_succ (length_pieces_pos hrest)⟩⟩
      rintro rfl
      rfl
    · obtain ⟨distance, rfl⟩ := Nat.exists_eq_add_of_le' (Nat.le_of_not_lt hwithin)
      have hrest := @ih distance fuel (codePointOffset + 1) (by omega) (by omega) (by omega)
      simp only [Nat.add_assoc, Nat.add_comm 1] at hrest
      rw [hstep.splitsPair, sub_of_le (by omega) (by omega), Nat.add_sub_cancel]
      exact ⟨hrest.1, fun hsplits =>
        ⟨(hrest.2 hsplits).1, succ_lt_succ (hrest.2 hsplits).2⟩⟩

theorem codeUnitOffsetLoop_step (h : StepsOver piece rest)
    (hfits : codeUnitOffset + piece.codeUnits.length < 2 ^ 64) (fuel codePointOffset : Nat) :
    codeUnitOffsetLoop ⟨[], 0⟩ (fuel + 1) (ahead (piece.codeUnits ++ rest)) (codePointOffset + 1)
        codeUnitOffset =
      codeUnitOffsetLoop ⟨[], 0⟩ fuel (ahead rest) codePointOffset
        (codeUnitOffset + piece.codeUnits.length) := by
  simp only [codeUnitOffsetLoop, if_neg (ahead_append_ne_end _ _), if_neg (succ_ne_zero _),
    h.length, h.next, bind_some, mod_eq_of_lt hfits, Nat.add_sub_cancel]

theorem codeUnitOffsetLoop_zero (units : List UInt16) (hfuel : units.length ≤ fuel)
    (codeUnitOffset : Nat) :
    codeUnitOffsetLoop ⟨[], 0⟩ fuel (ahead units) 0 codeUnitOffset = some codeUnitOffset := by
  cases fuel with
  | zero =>
    obtain rfl : units = [] := length_eq_zero_iff.mp (le_zero.mp hfuel)
    rfl
  | succ fuel =>
    rw [codeUnitOffsetLoop]
    split <;> rfl

/-- The offset of a code point is one at which a code point starts, or the end: no pair is split
there, and the code points before it are counted. -/
theorem codeUnitOffsetLoop_spec (units : List UInt16) {fuel codePointOffset codeUnitOffset : Nat}
    (hfuel : units.length ≤ fuel) (hle : codePointOffset ≤ (pieces units).length)
    (hfits : codeUnitOffset + units.length < 2 ^ 64) : ∃ distance ≤ units.length,
      codeUnitOffsetLoop ⟨[], 0⟩ fuel (ahead units) codePointOffset codeUnitOffset =
        some (codeUnitOffset + distance) ∧ ¬ SplitsPair units distance ∧
      startsBefore (pieces units) distance = codePointOffset := by
  induction units using stepsInduction generalizing fuel codePointOffset codeUnitOffset with
  | nil =>
    obtain rfl : codePointOffset = 0 := le_zero.mp hle
    exact ⟨0, Nat.zero_le _, codeUnitOffsetLoop_zero [] hfuel _, not_splitsPair_zero _, rfl⟩
  | step piece rest hstep ih =>
    cases codePointOffset with
    | zero =>
      exact ⟨0, Nat.zero_le _, codeUnitOffsetLoop_zero _ hfuel _, not_splitsPair_zero _,
        startsBefore_zero _⟩
    | succ codePointOffset =>
      have hpos := length_codeUnits_pos piece
      rw [hstep.cut, length_cons] at hle
      rw [length_append] at hfuel hfits ⊢
      obtain ⟨fuel, rfl⟩ := exists_eq_add_one_of_ne_zero (by omega : fuel ≠ 0)
      obtain ⟨distance, hdistance, hloop, hsplits, hbefore⟩ :=
        @ih fuel codePointOffset (codeUnitOffset + piece.codeUnits.length) (by omega)
          (le_of_succ_le_succ hle) (by omega)
      refine ⟨distance + piece.codeUnits.length, by omega, ?_, mt hstep.splitsPair.mp hsplits, ?_⟩
      · rw [codeUnitOffsetLoop_step hstep (by omega), hloop, Nat.add_assoc,
          Nat.add_comm piece.codeUnits.length]
      · rw [hstep.cut, startsBefore_cons _ _ (by omega), Nat.add_sub_cancel, hbefore]

/-! ## The conversions -/

/-- A code unit offset is converted to the number of code points that start before it. -/
def CountsBefore (view : Utf16View) (codeUnitOffset : Nat) : Prop :=
  view.codePointOffsetOf codeUnitOffset =
    some (startsBefore (pieces view.mCodeUnits) codeUnitOffset)

/-- A code point offset is converted to a code unit offset and back. -/
def ConvertsBack (view : Utf16View) (codePointOffset : Nat) : Prop :=
  ∃ codeUnitOffset, view.codeUnitOffsetOf codePointOffset = some codeUnitOffset ∧
    view.codePointOffsetOf codeUnitOffset = some codePointOffset

variable {view : Utf16View}

theorem endIterator_eq (view : Utf16View) : view.endIterator = ⟨[], 0⟩ := by
  rw [endIterator, drop_length]

/-- An offset within the view is converted right exactly when it splits no pair. -/
theorem countsBefore_iff (hlength : view.mCodeUnits.length < 2 ^ 64)
    (hle : codeUnitOffset ≤ view.mCodeUnits.length) :
    view.CountsBefore codeUnitOffset ↔ ¬ SplitsPair view.mCodeUnits codeUnitOffset := by
  obtain ⟨hwhole, hsplit⟩ := @codePointOffsetLoop_spec codeUnitOffset view.mCodeUnits
    view.lengthInCodeUnits 0 (Nat.le_refl _) hle (by omega)
  rw [CountsBefore, codePointOffsetOf, endIterator_eq]
  constructor
  · intro hcounts hsplits
    obtain ⟨hloop, hlt⟩ := hsplit hsplits
    rw [Nat.zero_add] at hloop
    exact Nat.ne_of_gt hlt (some.inj (hloop.symm.trans hcounts))
  · intro hsplits
    exact (hwhole hsplits).trans (congrArg some (Nat.zero_add _))

theorem convertsBack (hlength : view.mCodeUnits.length < 2 ^ 64)
    (hle : codePointOffset ≤ (pieces view.mCodeUnits).length) :
    view.ConvertsBack codePointOffset := by
  obtain ⟨distance, hdistance, hloop, hsplits, hbefore⟩ :=
    @codeUnitOffsetLoop_spec view.mCodeUnits view.lengthInCodeUnits codePointOffset 0
      (Nat.le_refl _) hle (by omega)
  refine ⟨distance, ?_, ?_⟩
  · rw [codeUnitOffsetOf, endIterator_eq]
    exact hloop.trans (congrArg some (Nat.zero_add _))
  · have hcounts := (countsBefore_iff hlength hdistance).mpr hsplits
    rw [CountsBefore, hbefore] at hcounts
    exact hcounts

/-- A code unit offset within the view is converted to the number of code points before it
exactly when it splits no pair that another code point follows, and each code point offset is
converted there and back. -/
theorem offsets_converted_iff (view : Utf16View) (hlength : view.mCodeUnits.length < 2 ^ 64) :
    (∀ codeUnitOffset ≤ view.mCodeUnits.length,
      (view.CountsBefore codeUnitOffset ↔ ¬ SplitsPair view.mCodeUnits codeUnitOffset)) ∧
    ∀ codePointOffset ≤ (pieces view.mCodeUnits).length, view.ConvertsBack codePointOffset :=
  ⟨fun _ hle => countsBefore_iff hlength hle, fun _ hle => convertsBack hlength hle⟩

/-- The pair of U+1F600 may be split where nothing follows it. -/
theorem offsets_converted_iff_smiley :
    (∀ codeUnitOffset ≤ 2, (CountsBefore ⟨[0xd83d, 0xde00], none⟩ codeUnitOffset ↔
      ¬ SplitsPair [0xd83d, 0xde00] codeUnitOffset)) ∧
    ∀ codePointOffset ≤ (pieces [0xd83d, 0xde00]).length,
      ConvertsBack ⟨[0xd83d, 0xde00], none⟩ codePointOffset :=
  offsets_converted_iff ⟨[0xd83d, 0xde00], none⟩ (by decide)

/-- Where a letter follows the pair it is counted too. -/
theorem not_countsBefore_smiley : ¬ CountsBefore ⟨[0xd83d, 0xde00, 0x41], none⟩ 1 ∧
    codePointOffsetOf ⟨[0xd83d, 0xde00, 0x41], none⟩ 1 = some 2 ∧
    startsBefore (pieces [0xd83d, 0xde00, 0x41]) 1 = 1 := by
  have hresult : codePointOffsetOf ⟨[0xd83d, 0xde00, 0x41], none⟩ 1 = some 2 := by decide
  have hbefore : startsBefore (pieces [0xd83d, 0xde00, 0x41]) 1 = 1 := by decide
  refine ⟨fun hcounts => ?_, hresult, hbefore⟩
  rw [CountsBefore, hresult, hbefore] at hcounts
  cases hcounts

end Utf16View

end Literate.AK

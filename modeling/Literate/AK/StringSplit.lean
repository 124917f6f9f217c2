import Literate.AK.MemMemOptional
import Literate.AK.StringView
import Literate.Foundation.Splitting

/-!
# AK: splitting

`for_each_split_view`, `split_view` and `split_view_if` of `AK/StringView.h` and
`AK/StringView.cpp`, and `split` of `AK/String.cpp`.  The first searches for its separator,
the others look at one character after the other, and they find the same parts.  `none` is a
failed assertion, or a failure of `memmem_optional`.
-/

namespace Literate.AK

open Foundation List Option
open StringView (bytes)

def StringUtils.find (haystack needle : StringView) (start : Nat) : Option (Option Nat) :=
  if haystack.length < start then some none
  else (memmemOptional (haystack.bytes.drop start) needle.bytes).map fun index =>
    index.map (· + start)

/-! ## The loops -/

namespace StringView

def substringViewStartingAfterSubstring (s substring : StringView) : Option StringView :=
  let remainingCharacters := substring.characters + substring.length
  if h : s.characters ≤ remainingCharacters ∧ remainingCharacters ≤ s.characters + s.length then
    some (s.part (remainingCharacters - s.characters)
      (s.length - (remainingCharacters - s.characters)) (by omega))
  else none

/-- The loop of `for_each_split_view`, of at most `fuel` rounds, and what follows it. -/
def forEachSplitViewLoop {σ : Type} (separator : StringView) (keepEmpty : Bool)
    (callback : σ → StringView → σ) :
    (fuel : Nat) → (view : StringView) → (maybeSeparatorIndex : Option Nat) → σ → Option σ
  | 0, _, _, _ => none
  | _ + 1, view, none, state =>
    some (if keepEmpty || !view.isEmpty then callback state view else state)
  | fuel + 1, view, some separatorIndex, state => do
      let partWithSeparator ← view.substringView 0 (separatorIndex + separator.length)
      let state ←
        if keepEmpty || decide (0 < separatorIndex) then
          (partWithSeparator.substringView 0 separatorIndex).map (callback state)
        else some state
      let view ← view.substringViewStartingAfterSubstring partWithSeparator
      let maybeSeparatorIndex ← StringUtils.find view separator 0
      forEachSplitViewLoop separator keepEmpty callback fuel view maybeSeparatorIndex state

/-- `for_each_split_view`.  A round takes a character at least. -/
def forEachSplitView {σ : Type} (s separator : StringView) (keepEmpty : Bool)
    (callback : σ → StringView → σ) (state : σ) : Option σ :=
  if separator.isEmpty then none
  else if s.isEmpty then some state
  else
    (StringUtils.find s separator 0).bind fun maybeSeparatorIndex =>
      forEachSplitViewLoop separator keepEmpty callback (s.length + 1) s maybeSeparatorIndex state

/-- `split_view`; the one for a character takes a view of that character. -/
def splitView (s separator : StringView) (keepEmpty : Bool) : Option (List StringView) :=
  s.forEachSplitView separator keepEmpty (fun parts view => parts ++ [view]) []

end StringView

/-- The loop over the characters of `split_view_if` and `split_limit`, from index `i` on, and
what follows it.  It goes on under a condition on the parts that it has. -/
def splitLoop {γ : Type} (length : Nat) (substring : Nat → Nat → Option γ)
    (goesOn : List γ → Bool) (predicate : UInt8 → Bool) (keepEmpty : Bool) :
    (rest : List UInt8) → (i substart : Nat) → (v : List γ) → Option (List γ)
  | [], _, substart, v => splitTail substart v
  | ch :: rest, i, substart, v =>
    if goesOn v then
      if predicate ch then
        let sublen := i - substart
        if sublen ≠ 0 ∨ keepEmpty then
          (substring substart sublen).bind fun part =>
            splitLoop length substring goesOn predicate keepEmpty rest (i + 1) (i + 1) (v ++ [part])
        else splitLoop length substring goesOn predicate keepEmpty rest (i + 1) (i + 1) v
      else splitLoop length substring goesOn predicate keepEmpty rest (i + 1) substart v
    else splitTail substart v
where
  splitTail (substart : Nat) (v : List γ) : Option (List γ) :=
    let taillen := length - substart
    if taillen ≠ 0 ∨ keepEmpty then
      (substring substart taillen).map fun part => v ++ [part]
    else some v

def StringView.splitViewIf (s : StringView) (predicate : UInt8 → Bool) (keepEmpty : Bool) :
    Option (List StringView) :=
  if s.isEmpty then some []
  else splitLoop s.length s.substringView (fun _ => true) predicate keepEmpty s.bytes 0 0 []

/-- `String::substring`. -/
def stringSubstring (s : List UInt8) (start length : Nat) : Option (List UInt8) :=
  if length = 0 then some []
  else if start + length < 2 ^ 64 ∧ start + length ≤ s.length then some ((s.drop start).take length)
  else none

/-- `String::split_limit`. -/
def stringSplitLimit (s : List UInt8) (separator : UInt8) (limit : Nat) (keepEmpty : Bool) :
    Option (List (List UInt8)) :=
  if s = [] then some []
  else
    splitLoop s.length (stringSubstring s) (fun v => decide (v.length + 1 ≠ limit))
      (fun ch => ch == separator) keepEmpty s 0 0 []

/-- `String::split`. -/
def stringSplit (s : List UInt8) (separator : UInt8) (keepEmpty : Bool) :
    Option (List (List UInt8)) :=
  stringSplitLimit s separator 0 keepEmpty

/-! ## Cutting out -/

/-- Whether a part that lies at a place is kept. -/
def keeps (keepEmpty : Bool) (place : Nat × Nat) : Bool := keepEmpty || decide (place.2 ≠ 0)

namespace StringView

theorem eq_of_bytes {s t : StringView} (hcharacters : s.characters = t.characters)
    (hbytes : s.bytes = t.bytes) : s = t := by
  cases s
  cases t
  cases hcharacters
  cases hbytes
  rfl

/-- The part of a view at a place in it. -/
def partAt (s : StringView) (place : Nat × Nat) : StringView :=
  if h : place.1 + place.2 ≤ s.length then s.part place.1 place.2 h else s

variable {s separator : StringView} {start length : Nat}

section

variable (h : start + length ≤ s.length)

include h

theorem partAt_eq : s.partAt (start, length) = s.part start length h := dif_pos h

theorem length_part : (s.part start length h).length = length := by
  rw [StringView.length] at h
  rw [StringView.length, part, List.length_take, length_drop]
  omega

theorem part_congr {start' length' : Nat} (hstart : start = start') (hlength : length = length') :
    s.part start length h = s.part start' length' (hstart ▸ hlength ▸ h) := by
  subst hstart hlength
  rfl

theorem part_part {offset start' : Nat} (h' : start' + offset ≤ (s.part start length h).length) :
    (s.part start length h).part start' offset h' =
      s.part (start + start') offset (by rw [length_part] at h'; omega) := by
  rw [length_part] at h'
  refine eq_of_bytes (Nat.add_assoc _ _ _) ?_
  simp only [part]
  rw [drop_take, take_take, drop_drop, Nat.min_eq_left (by omega)]

theorem substringViewStartingAfterSubstring_part :
    s.substringViewStartingAfterSubstring (s.part start length h) =
      some (s.part (start + length) (s.length - (start + length)) (by omega)) := by
  have hremaining : (s.part start length h).characters + (s.part start length h).length =
      s.characters + (start + length) := by
    rw [length_part, part, Nat.add_assoc]
  simp only [substringViewStartingAfterSubstring, hremaining, Nat.add_sub_cancel_left]
  rw [dif_pos ⟨Nat.le_add_right _ _, Nat.add_le_add_left h _⟩]

end

theorem find_spec (hfits : (separator.bytes.length : Int) ≤ MemMem.intMax) (view : StringView) :
    ∃ found, StringUtils.find view separator 0 = some found ∧
      FirstOccurrence separator.bytes view.bytes found := by
  obtain ⟨found, hfound, hfirst⟩ :=
    (memmemOptional_orOverflow view.bytes separator.bytes).of_fits hfits
  refine ⟨found, ?_, hfirst⟩
  rw [StringUtils.find, if_neg (Nat.not_lt_zero _), drop_zero, hfound, map_some]
  cases found <;> rfl

theorem bytes_rest (h : start + (s.length - start) ≤ s.length) :
    (s.part start (s.length - start) h).bytes = s.bytes.drop start :=
  take_of_length_le (Nat.le_of_eq length_drop)

/-! ## The search for a separator -/

theorem isEmpty_part (h : start + length ≤ s.length) :
    (!(s.part start length h).isEmpty) = decide (length ≠ 0) := by
  have hlength := length_part h
  rw [StringView.length] at hlength
  rw [isEmpty, ← decide_not, decide_eq_decide, ← length_eq_zero_iff, hlength]

/-- A round calls back with the part before the separator and goes on behind it. -/
theorem forEachSplitViewLoop_round {σ : Type} (keepEmpty : Bool) (callback : σ → StringView → σ)
    (fuel : Nat) {view : StringView} {separatorIndex : Nat}
    (h : separatorIndex + separator.length ≤ view.length) (state : σ) :
    forEachSplitViewLoop separator keepEmpty callback (fuel + 1) view (some separatorIndex) state =
      (StringUtils.find (view.part (separatorIndex + separator.length)
        (view.length - (separatorIndex + separator.length)) (by omega)) separator 0).bind fun found =>
          forEachSplitViewLoop separator keepEmpty callback fuel
            (view.part (separatorIndex + separator.length)
              (view.length - (separatorIndex + separator.length)) (by omega)) found
            (if keepEmpty || decide (0 < separatorIndex) then
              callback state (view.part 0 separatorIndex (by omega)) else state) := by
  have hwhole : 0 + (separatorIndex + separator.length) ≤ view.length := by omega
  have hbefore : 0 + separatorIndex ≤
      (view.part 0 (separatorIndex + separator.length) hwhole).length := by
    rw [length_part]
    omega
  have hbehind : view.substringViewStartingAfterSubstring
      (view.part 0 (separatorIndex + separator.length) hwhole) =
      some (view.part (separatorIndex + separator.length)
        (view.length - (separatorIndex + separator.length)) (by omega)) := by
    rw [substringViewStartingAfterSubstring_part]
    exact congrArg some (part_congr _ (Nat.zero_add _) (by omega))
  rw [forEachSplitViewLoop, substringView_eq hwhole]
  simp only [bind_eq_bind, bind_some, hbehind, substringView_eq hbefore,
    map_some, part_part]
  by_cases hkeep : (keepEmpty || decide (0 < separatorIndex)) = true
  · simp only [if_pos hkeep]
  · simp only [if_neg hkeep]

/-- The loop calls back with the parts of what is left. -/
theorem forEachSplitViewLoop_spec (hne : separator.bytes ≠ [])
    (hfits : (separator.bytes.length : Int) ≤ MemMem.intMax) (fuel : Nat) :
    ∀ {start : Nat} {found : Option Nat} (h : start + (s.length - start) ≤ s.length),
      FirstOccurrence separator.bytes (s.bytes.drop start) found → s.length - start < fuel →
      ∃ contents, Split separator.bytes (s.bytes.drop start) contents ∧
        ∀ (σ : Type) (keepEmpty : Bool) (callback : σ → StringView → σ) (state : σ),
          forEachSplitViewLoop separator keepEmpty callback fuel
              (s.part start (s.length - start) h) found state =
            some ((((partPlaces separator.length start contents).filter (keeps keepEmpty)).map
              s.partAt).foldl callback state) := by
  induction fuel with
  | zero => exact fun _ _ hfuel => absurd hfuel (Nat.not_lt_zero _)
  | succ fuel ih =>
    intro start found h hfirst hfuel
    cases found with
    | none =>
      have hlast : (s.bytes.drop start).length = s.length - start := length_drop
      refine ⟨[s.bytes.drop start], .last hfirst, fun σ keepEmpty callback state => ?_⟩
      simp only [forEachSplitViewLoop, isEmpty_part, partPlaces, hlast, filter_singleton]
      by_cases hkeep : (keepEmpty || decide (s.length - start ≠ 0)) = true
      · rw [if_pos hkeep, keeps, hkeep]
        exact congrArg some (congrArg (callback state) (partAt_eq h).symm)
      · rw [if_neg hkeep, keeps, Bool.eq_false_iff.mpr hkeep]
        rfl
    | some separatorIndex =>
      obtain ⟨part, rest, hsplit, hpart⟩ := hfirst.exists_append
      have hlength := congrArg List.length hsplit
      simp only [length_append, length_drop, hpart] at hlength
      have hpos := length_pos_of_ne_nil hne
      have hs : s.bytes.length = s.length := rfl
      have hseparator : separator.bytes.length = separator.length := rfl
      have hview := length_part h
      have hwhole : separatorIndex + separator.length ≤
          (s.part start (s.length - start) h).length := by omega
      have hnext : start + separatorIndex + separator.length +
          (s.length - (start + separatorIndex + separator.length)) ≤ s.length := by omega
      have hview' : (s.part start (s.length - start) h).part (separatorIndex + separator.length)
          ((s.part start (s.length - start) h).length - (separatorIndex + separator.length))
          (by omega) = s.part (start + separatorIndex + separator.length)
            (s.length - (start + separatorIndex + separator.length)) hnext := by
        rw [part_part]
        exact part_congr _ (by omega) (by omega)
      obtain ⟨found, hfound, hfirst'⟩ := find_spec hfits
        (s.part (start + separatorIndex + separator.length)
          (s.length - (start + separatorIndex + separator.length)) hnext)
      rw [bytes_rest] at hfirst'
      obtain ⟨contents, hcontents, hloop⟩ := ih hnext hfirst' (by omega)
      have hrest : s.bytes.drop (start + separatorIndex + separator.length) = rest := by
        rw [Nat.add_assoc, ← drop_drop, hsplit, ← hpart, ← hseparator, ← length_append,
          drop_left]
      rw [hrest] at hcontents
      rw [hsplit, ← hpart] at hfirst
      refine ⟨part :: contents, hsplit ▸ .next hfirst hcontents,
        fun σ keepEmpty callback state => ?_⟩
      have hkept : (keepEmpty || decide (0 < separatorIndex)) = keeps keepEmpty (start, separatorIndex) := by
        simp only [keeps, Nat.pos_iff_ne_zero]
      rw [forEachSplitViewLoop_round keepEmpty callback fuel hwhole, hview', hfound,
        bind_some, hloop, partPlaces, hpart, part_part, ← partAt_eq, hkept]
      by_cases hkeep : keeps keepEmpty (start, separatorIndex) = true
      · rw [if_pos hkeep, filter_cons_of_pos hkeep, map_cons, foldl_cons]
        rfl
      · rw [if_neg hkeep, filter_cons_of_neg hkeep]

theorem part_whole (h : 0 + (s.length - 0) ≤ s.length) : s.part 0 (s.length - 0) h = s :=
  eq_of_bytes (Nat.add_zero _) (bytes_rest h)

/-- The parts of a view at a separator, whether or not the empty ones are kept. -/
theorem splitView_spec (hs : s.bytes ≠ []) (hne : separator.bytes ≠ [])
    (hfits : (separator.bytes.length : Int) ≤ MemMem.intMax) :
    ∃ contents, Split separator.bytes s.bytes contents ∧
      ∀ keepEmpty, s.splitView separator keepEmpty =
        some (((partPlaces separator.length 0 contents).filter (keeps keepEmpty)).map s.partAt) := by
  have hempty : s.isEmpty = false := decide_eq_false hs
  have hseparator : separator.isEmpty = false := decide_eq_false hne
  obtain ⟨found, hfound, hfirst⟩ := find_spec hfits s
  obtain ⟨contents, hcontents, hloop⟩ := @forEachSplitViewLoop_spec s separator hne hfits
    (s.length + 1) 0 found (by omega) hfirst (by omega)
  refine ⟨contents, hcontents, fun keepEmpty => ?_⟩
  simp only [splitView, forEachSplitView, hempty, hseparator, if_neg Bool.false_ne_true, hfound,
    bind_some]
  rw [part_whole] at hloop
  rw [hloop, foldl_append_eq_append (f := fun view => [view]), nil_append,
    ← flatMap_def, flatMap_singleton']

end StringView

/-! ## The loops over the characters -/

theorem keeps_iff {keepEmpty : Bool} {place : Nat × Nat} :
    keeps keepEmpty place = true ↔ place.2 ≠ 0 ∨ keepEmpty = true := by
  rw [keeps, Bool.or_eq_true, decide_eq_true_iff, or_comm]

/-- The parts at the characters that the predicate holds of. -/
theorem splitLoop_spec {γ : Type} {text : List UInt8} {substring : Nat → Nat → Option γ}
    {cut : Nat × Nat → γ} {goesOn : List γ → Bool} (predicate : UInt8 → Bool) (keepEmpty : Bool)
    (hcut : ∀ start length, start + length ≤ text.length →
      substring start length = some (cut (start, length)))
    (hgoesOn : ∀ v, goesOn v = true) {rest part : List UInt8} {i substart : Nat}
    (hsplit : text.drop substart = part ++ rest) (hi : substart + part.length = i)
    (hsubstart : substart ≤ text.length) (hpart : ∀ ch ∈ part, predicate ch = false) (v : List γ) :
    splitLoop text.length substring goesOn predicate keepEmpty rest i substart v =
      some (v ++ ((partPlaces 1 substart ((text.drop substart).splitOnP predicate)).filter
        (keeps keepEmpty)).map cut) := by
  have hlength := congrArg List.length hsplit
  rw [length_drop, length_append] at hlength
  induction rest generalizing i substart v part with
  | nil =>
    rw [length_nil, Nat.add_zero] at hlength
    simp only [hsplit, append_nil, splitOnP_eq_singleton hpart, partPlaces, splitLoop,
      splitLoop.splitTail, hlength]
    by_cases hkeep : keeps keepEmpty (substart, part.length) = true
    · rw [filter_cons_of_pos hkeep, if_pos (keeps_iff.mp hkeep), hcut _ _ (by omega)]
      rfl
    · rw [filter_cons_of_neg hkeep, if_neg (mt keeps_iff.mpr hkeep), filter_nil,
        map_nil, append_nil]
  | cons ch rest ih =>
    rw [length_cons] at hlength
    rw [splitLoop, if_pos (hgoesOn v)]
    by_cases hch : predicate ch = true
    · have hrest : text.drop (i + 1) = rest := by
        simp only [← hi, Nat.add_assoc, ← drop_drop, hsplit, drop_left, drop_one, tail_cons]
      have hnext := fun v => @ih [] (i + 1) (i + 1) hrest rfl (by omega) (fun _ h => by cases h) v
        (by rw [length_nil]; omega)
      have hsublen : i - substart = part.length := by omega
      rw [hrest] at hnext
      simp only [if_pos hch, hsublen, hnext, hsplit,
        splitOnP_append_cons_of_forall_mem hpart ch hch, partPlaces, hi]
      by_cases hkeep : keeps keepEmpty (substart, part.length) = true
      · rw [filter_cons_of_pos hkeep, if_pos (keeps_iff.mp hkeep), hcut _ _ (by omega),
          bind_some, map_cons, List.append_assoc, singleton_append]
      · rw [filter_cons_of_neg hkeep, if_neg (mt keeps_iff.mpr hkeep)]
    · rw [if_neg hch]
      refine @ih (part ++ [ch]) (i + 1) substart ?_ ?_ hsubstart ?_ v ?_
      · rw [hsplit, List.append_assoc, singleton_append]
      · rw [← hi, length_append, length_singleton, Nat.add_assoc]
      · intro ch' hch'
        cases mem_append.mp hch' with
        | inl hmem => exact hpart ch' hmem
        | inr hmem => exact mem_singleton.mp hmem ▸ Bool.eq_false_iff.mpr hch
      · rw [length_append, length_singleton]
        omega

/-! ## Splitting -/

namespace StringView

variable {s separator : StringView}

theorem splitViewIf_eq (hs : s.bytes ≠ []) (predicate : UInt8 → Bool) (keepEmpty : Bool) :
    s.splitViewIf predicate keepEmpty =
      some (((partPlaces 1 0 (s.bytes.splitOnP predicate)).filter (keeps keepEmpty)).map s.partAt) := by
  have hcut : ∀ start length, start + length ≤ s.bytes.length →
      s.substringView start length = some (s.partAt (start, length)) := fun start length h => by
    rw [substringView_eq h, partAt_eq h]
  have hempty : s.isEmpty = false := decide_eq_false hs
  rw [splitViewIf, hempty, if_neg Bool.false_ne_true]
  exact splitLoop_spec predicate keepEmpty hcut (fun _ => rfl) (nil_append _).symm rfl
    (Nat.zero_le _) (fun _ h => by cases h) []

theorem stringSplit_eq (hs : s.bytes ≠ []) (separator : UInt8) (keepEmpty : Bool) :
    stringSplit s.bytes separator keepEmpty =
      some (((partPlaces 1 0 (s.bytes.splitOn separator)).filter (keeps keepEmpty)).map
        fun place => (s.bytes.drop place.1).take place.2) := by
  have hcut : ∀ start length, start + length ≤ s.bytes.length →
      stringSubstring s.bytes start length = some ((s.bytes.drop start).take length) := by
    intro start length h
    have hfits := s.fits
    rw [stringSubstring]
    by_cases hzero : length = 0
    · rw [if_pos hzero, hzero, take_zero]
    · rw [if_neg hzero, if_pos ⟨by omega, h⟩]
  have hgoesOn : ∀ v : List (List UInt8), decide (v.length + 1 ≠ 0) = true := fun v =>
    decide_eq_true (Nat.succ_ne_zero _)
  rw [stringSplit, stringSplitLimit, if_neg hs, splitOn_eq_splitOnP]
  exact splitLoop_spec _ keepEmpty hcut hgoesOn (nil_append _).symm rfl
    (Nat.zero_le _) (fun _ h => by cases h) []

/-- What `split_view` returns for a separator that can be searched for: parts that do not hold
it and, joined with it, are the string again, and without the empty ones the others.  At a
character `split_view_if` and `String::split` return the same. -/
theorem splitView_parts (s separator : StringView) (hs : s.bytes ≠ [])
    (hseparator : separator.bytes ≠ []) (hfits : separator.length < 2 ^ 31) :
    (∃ parts, s.splitView separator true = some parts ∧
      (∀ part ∈ parts, ¬ separator.bytes <:+: part.bytes) ∧
      separator.bytes.intercalate (parts.map bytes) = s.bytes ∧
      s.splitView separator false = some (parts.filter fun part => !part.isEmpty)) ∧
    ∀ c, separator.bytes = [c] → ∀ keepEmpty, ∃ parts,
      s.splitView separator keepEmpty = some parts ∧
      s.splitViewIf (fun ch => ch == c) keepEmpty = some parts ∧
      stringSplit s.bytes c keepEmpty = some (parts.map bytes) := by
  have hint : (separator.bytes.length : Int) ≤ MemMem.intMax := by
    rw [StringView.length] at hfits
    rw [MemMem.intMax]
    omega
  obtain ⟨contents, hcontents, hsplit⟩ := splitView_spec hs hseparator hint
  obtain ⟨hplaces, hparts⟩ := @Split.places_spec _ _ _ _ 0 hcontents (Nat.zero_le _)
  have hpartAt : ∀ place ∈ partPlaces separator.length 0 contents,
      (s.partAt place).bytes = (s.bytes.drop place.1).take place.2 ∧
      (!(s.partAt place).isEmpty) = keeps false place := fun place hplace => by
    have hle : place.1 + place.2 ≤ s.length := hplaces place hplace
    rw [partAt_eq hle, isEmpty_part]
    exact ⟨rfl, rfl⟩
  have hbytes : ∀ keepEmpty,
      (((partPlaces separator.length 0 contents).filter (keeps keepEmpty)).map s.partAt).map
        bytes = ((partPlaces separator.length 0 contents).filter (keeps keepEmpty)).map
          fun place => (s.bytes.drop place.1).take place.2 := fun keepEmpty => by
    rw [List.map_map]
    exact map_congr_left fun place hplace => (hpartAt place (mem_of_mem_filter hplace)).1
  have hall : (partPlaces separator.length 0 contents).filter (keeps true) =
      partPlaces separator.length 0 contents := filter_eq_self.mpr fun _ _ => rfl
  constructor
  · have hmap : ((partPlaces separator.length 0 contents).map s.partAt).map bytes =
        contents := by
      rw [← hall, hbytes, hall]
      exact hparts
    refine ⟨_, hall ▸ hsplit true, fun part hpart => ?_, hmap.symm ▸ hcontents.joined, ?_⟩
    · exact hcontents.not_infix hseparator part.bytes (hmap ▸ List.mem_map_of_mem hpart)
    · rw [hsplit false, List.filter_map]
      refine congrArg some (congrArg (List.map s.partAt) (filter_congr fun place hplace => ?_))
      exact (hpartAt place hplace).2.symm
  · intro c hc keepEmpty
    have hlength : separator.length = 1 := by rw [StringView.length, hc, length_singleton]
    obtain rfl : contents = s.bytes.splitOn c := (hc ▸ hcontents).eq_splitOn
    refine ⟨_, hsplit keepEmpty, ?_, ?_⟩
    · rw [splitViewIf_eq hs, hlength, splitOn_eq_splitOnP]
    · rw [stringSplit_eq hs, hbytes, hlength]

theorem splitView_parts_sample : (∃ parts, splitView ⟨1, [0x61, 0x2c, 0x62], by decide, by decide⟩
        ⟨1, [0x2c], by decide, by decide⟩ true = some parts ∧
      (∀ part ∈ parts, ¬ [0x2c] <:+: part.bytes) ∧
      [0x2c].intercalate (parts.map bytes) = [0x61, 0x2c, 0x62] ∧
      splitView ⟨1, [0x61, 0x2c, 0x62], by decide, by decide⟩ ⟨1, [0x2c], by decide, by decide⟩
        false = some (parts.filter fun part => !part.isEmpty)) ∧
    ∀ c, ([0x2c] : List UInt8) = [c] → ∀ keepEmpty, ∃ parts,
      splitView ⟨1, [0x61, 0x2c, 0x62], by decide, by decide⟩ ⟨1, [0x2c], by decide, by decide⟩
        keepEmpty = some parts ∧
      splitViewIf ⟨1, [0x61, 0x2c, 0x62], by decide, by decide⟩ (fun ch => ch == c) keepEmpty =
        some parts ∧
      stringSplit [0x61, 0x2c, 0x62] c keepEmpty = some (parts.map bytes) :=
  splitView_parts ⟨1, [0x61, 0x2c, 0x62], by decide, by decide⟩ ⟨1, [0x2c], by decide, by decide⟩
    (by decide) (by decide) (by decide)

/-- The search for a separator that is too long fails where a longer string begins with it. -/
theorem splitView_overflow {rest : List UInt8} (hlong : MemMem.intMax < separator.bytes.length)
    (hrest : rest ≠ []) (hs : s.bytes = separator.bytes ++ rest) (keepEmpty : Bool) :
    s.splitView separator keepEmpty = none := by
  have hempty : s.isEmpty = false :=
    decide_eq_false (hs ▸ append_ne_nil_of_right_ne_nil _ hrest)
  have hfind : StringUtils.find s separator 0 = none := by
    rw [StringUtils.find, if_neg (Nat.not_lt_zero _), drop_zero, hs,
      memmemOptional_overflow hlong hrest]
    rfl
  rw [splitView, forEachSplitView, hempty, if_neg Bool.false_ne_true, hfind, bind_none]
  split <;> rfl

/-- A separator of 2^31 bytes in a string of one byte more. -/
theorem not_splitView_parts_long :
    ∃ s separator : StringView, s.bytes = List.replicate (2 ^ 31 + 1) 0 ∧
      separator.bytes = List.replicate (2 ^ 31) 0 ∧
      ¬ ∃ parts, s.splitView separator true = some parts := by
  have hfits : ∀ n, n < 2 ^ 32 → 1 + (List.replicate n (0 : UInt8)).length < 2 ^ 64 := fun n hn => by
    rw [length_replicate]
    omega
  refine ⟨⟨1, List.replicate (2 ^ 31 + 1) 0, hfits _ (by decide), fun h => absurd h Nat.one_ne_zero⟩,
    ⟨1, List.replicate (2 ^ 31) 0, hfits _ (by decide), fun h => absurd h Nat.one_ne_zero⟩,
    rfl, rfl, ?_⟩
  rintro ⟨parts, hparts⟩
  rw [splitView_overflow (by rw [length_replicate]; decide) (cons_ne_nil 0 [])
    List.replicate_succ'] at hparts
  cases hparts

end StringView

end Literate.AK

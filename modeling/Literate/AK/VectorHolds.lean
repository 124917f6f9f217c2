import Literate.AK.Vector

/-!
# AK: what a vector holds

`Holds t v values` says that a vector is well formed and that its elements are `values`.
Each operation of a vector keeps it, whether the elements are trivial or not and whether
they are in the inline or in an outline buffer.
-/

namespace Literate.AK.Vector

open Foundation List Option
open Slots (objects length_objects leftovers)

variable {α : Type}

/-- The vector is well formed and its elements are `values`. -/
structure Holds (t : VectorType α) (v : Vector α) (values : List α) : Prop where
  size_eq : v.mSize = values.length
  size_le : v.mSize ≤ v.mCapacity
  inline_length : v.mInlineBuffer.length = t.inlineCapacity
  outline_length : ∀ buffer, v.mOutlineBuffer = some buffer → buffer.length = v.mCapacity
  inline_le : v.mOutlineBuffer = none → v.mCapacity ≤ t.inlineCapacity
  bounded : v.mCapacity * t.elementSize < 2 ^ 64
  stored : ∃ rest, v.data = objects values ++ rest

/-- What is known of the platform: an element has a size, the inline buffer is in the address
space, and `kmalloc_good_size` gives a size that is no smaller. -/
structure Platform (t : VectorType α) : Prop where
  elementSize_pos : 0 < t.elementSize
  inline_bounded : t.inlineCapacity * t.elementSize < 2 ^ 64
  le_goodSize : ∀ size < 2 ^ 64, size ≤ t.kmallocGoodSize size
  goodSize_lt : ∀ size < 2 ^ 64, t.kmallocGoodSize size < 2 ^ 64

/-- A capacity that is there, or that does not overflow in bytes. -/
def CanEnsure (t : VectorType α) (v : Vector α) (neededCapacity : Nat) : Prop :=
  neededCapacity ≤ v.mCapacity ∨ neededCapacity * t.elementSize < 2 ^ 64

/-- The same of a capacity that is padded before. -/
def CanGrow (t : VectorType α) (v : Vector α) (neededCapacity : Nat) : Prop :=
  neededCapacity ≤ v.mCapacity ∨
    max 4 (neededCapacity + neededCapacity / 4 + 4) * t.elementSize < 2 ^ 64

/-! ## The buffer -/

variable {n neededCapacity newSize : Nat} {slot : Slot α}

section

variable {t : VectorType α} {v : Vector α} {values : List α}

section

variable (v : Vector α) (buffer : Slots α)

@[simp] theorem withData_mSize : (v.withData buffer).mSize = v.mSize := by
  unfold withData
  split <;> rfl

@[simp] theorem withData_mCapacity : (v.withData buffer).mCapacity = v.mCapacity := by
  unfold withData
  split <;> rfl

@[simp] theorem withData_data : (v.withData buffer).data = buffer := by
  unfold withData data
  cases v.mOutlineBuffer with
  | none => rfl
  | some _ => rfl

end

@[simp] theorem withData_withData (v : Vector α) (buffer buffer' : Slots α) :
    (v.withData buffer).withData buffer' = v.withData buffer' := by
  unfold withData
  cases v.mOutlineBuffer with
  | none => rfl
  | some _ => rfl

theorem Holds.le_length (h : Holds t v values) : v.mCapacity ≤ v.data.length := by
  unfold data
  cases houtline : v.mOutlineBuffer with
  | none =>
    rw [getD_none, h.inline_length]
    exact h.inline_le houtline
  | some buffer =>
    rw [getD_some]
    exact Nat.le_of_eq (h.outline_length buffer houtline).symm

theorem Holds.store (h : Holds t v values) {values' : List α} {rest : Slots α} {size : Nat}
    (hlength : (objects values' ++ rest).length = v.data.length)
    (hsize : size = values'.length) (hle : size ≤ v.mCapacity) :
    Holds t { v.withData (objects values' ++ rest) with mSize := size } values' := by
  unfold data withData at *
  cases houtline : v.mOutlineBuffer with
  | none =>
    rw [houtline] at hlength
    exact ⟨hsize, hle, hlength.trans h.inline_length,
      fun buffer hbuffer => absurd hbuffer.symm (some_ne_none buffer),
      fun _ => h.inline_le houtline, h.bounded, rest, rfl⟩
  | some buffer =>
    rw [houtline] at hlength
    refine ⟨hsize, hle, h.inline_length, fun buffer' hbuffer => ?_,
      fun hnone => absurd hnone (some_ne_none _), h.bounded, rest, rfl⟩
    rw [← some.inj hbuffer]
    exact hlength.trans (h.outline_length buffer houtline)

theorem Holds.exists_room (h : Holds t v values) (hle : values.length + n ≤ v.mCapacity) :
    ∃ room rest, room.length = n ∧ v.data = objects values ++ room ++ rest := by
  obtain ⟨rest, hdata⟩ := h.stored
  have hlength := h.le_length
  rw [hdata, length_append, length_objects] at hlength
  refine ⟨rest.take n, rest.drop n, length_take_of_le (by omega), ?_⟩
  rw [hdata, List.append_assoc, take_append_drop]

theorem holds_empty (platform : Platform t) : Holds t (empty t) [] :=
  ⟨rfl, Nat.zero_le _, length_replicate,
    fun buffer hbuffer => absurd hbuffer.symm (some_ne_none buffer),
    fun _ => Nat.le_refl _, platform.inline_bounded, _, rfl⟩

end

/-! ## `TypedTransfer` -/

variable {t : VectorType α} {values : List α} {pre post rest tpre tmid tpost : Slots α}
  {start count dest width : Nat}

/-- A copy of the first objects of another buffer, trivial or not. -/
theorem copy_spec (hdest : dest = tpre.length) (htmid : tmid.length = values.length)
    (hcount : count = values.length) :
    t.copy (tpre ++ tmid ++ tpost) dest (objects values ++ post) 0 count =
      some (tpre ++ objects values ++ tpost) := by
  have hlength : (objects values).length = values.length := length_objects values
  have hmemmove := @Slots.memmove_spec α [] (objects values) post tpre tmid tpost 0 count dest
    hdest (htmid.trans hlength.symm) rfl (hcount.trans hlength.symm)
  have htransfer := @Slots.transfer_spec α t.isTrivial t.backward .copied values [] post tpre tmid
    tpost 0 count dest hdest htmid rfl hcount
  rw [VectorType.copy]
  split_ifs with hzero htrivial
  · rw [hcount, length_eq_zero_iff] at hzero
    subst hzero
    rw [length_eq_zero_iff.mp htmid]
    rfl
  · exact hmemmove
  · rw [nil_append] at htransfer
    rw [htransfer, map_some]

theorem copy_front (htmid : tmid.length = values.length) (hcount : count = values.length) :
    t.copy (tmid ++ tpost) 0 (objects values ++ post) 0 count =
      some (objects values ++ tpost) :=
  @copy_spec α t values post [] tmid tpost count 0 rfl htmid hcount

theorem exists_of_mem_leftovers {trivial : Bool} (h : slot ∈ leftovers trivial .moved values) :
    slot.exists = true := by
  obtain ⟨value, -, rfl⟩ := List.mem_map.mp h
  cases trivial with
  | false => rfl
  | true => rfl

/-- Objects moved to another buffer, trivial or not, are still there to be destroyed. -/
theorem move_spec (hdest : dest = tpre.length) (htmid : tmid.length = values.length)
    (hcount : count = values.length) :
    ∃ left : Slots α, left.length = values.length ∧ (∀ slot ∈ left, slot.exists = true) ∧
      t.move (tpre ++ tmid ++ tpost) dest (objects values ++ post) 0 count =
        some (tpre ++ objects values ++ tpost, left ++ post) := by
  have hlength : (objects values).length = values.length := length_objects values
  have hobjects : ∀ slot ∈ objects values, slot.exists = true := by
    intro slot hmem
    obtain ⟨value, -, rfl⟩ := List.mem_map.mp hmem
    rfl
  have hmemmove := @Slots.memmove_spec α [] (objects values) post tpre tmid tpost 0 count dest
    hdest (htmid.trans hlength.symm) rfl (hcount.trans hlength.symm)
  have htransfer := @Slots.transfer_spec α t.isTrivial t.backward .moved values [] post tpre tmid
    tpost 0 count dest hdest htmid rfl hcount
  rw [VectorType.move]
  split_ifs with hzero htrivial
  · rw [hcount, length_eq_zero_iff] at hzero
    subst hzero
    rw [length_eq_zero_iff.mp htmid]
    exact ⟨[], rfl, hobjects, rfl⟩
  · rw [nil_append] at hmemmove
    rw [hmemmove]
    exact ⟨objects values, hlength, hobjects, rfl⟩
  · exact ⟨leftovers t.isTrivial .moved values, length_map _,
      fun _ => exists_of_mem_leftovers, htransfer⟩

/-- Objects moved up in their buffer, trivial or not. -/
theorem moveWithin_up (hstart : start = pre.length) (hcount : count = values.length)
    (hdest : dest = start + width) (hwidth : 0 < width) (hrest : width ≤ rest.length) :
    ∃ gap, gap.length = width ∧
      t.moveWithin (pre ++ objects values ++ rest) dest start count =
        some (pre ++ gap ++ objects values ++ rest.drop width) := by
  have hlength : (objects values).length = values.length := length_objects values
  rw [VectorType.moveWithin]
  split_ifs with hzero htrivial hle
  · rw [hcount, length_eq_zero_iff] at hzero
    subst hzero
    refine ⟨rest.take width, length_take_of_le hrest, ?_⟩
    simp only [Slots.objects_nil, append_nil, List.append_assoc, take_append_drop]
  · exact Slots.memmove_up hstart (hcount.trans hlength.symm) hdest hrest
  · omega
  · have hby : dest - start = width := by omega
    rw [hby]
    exact Slots.shiftUp_spec hstart hcount hwidth hrest

theorem copyWithin_down {hole : Slots α} (hstart : start = pre.length + hole.length)
    (hcount : count = values.length) (hdest : dest = pre.length) : ∃ gap, gap.length = hole.length ∧
      copyWithin (pre ++ hole ++ objects values ++ rest) dest start count =
        some (pre ++ objects values ++ gap ++ rest) := by
  have hlength : (objects values).length = values.length := length_objects values
  rw [copyWithin]
  split_ifs with hzero
  · rw [hcount, length_eq_zero_iff] at hzero
    subst hzero
    refine ⟨hole, rfl, ?_⟩
    simp only [Slots.objects_nil, append_nil]
  · exact Slots.memmove_down hstart (hcount.trans hlength.symm) hdest

/-! ## Capacity -/

variable {v : Vector α}

/-- A buffer with room for `n` slots. -/
theorem replicate_raw_split {capacity : Nat} (hle : n ≤ capacity) :
    List.replicate capacity (Slot.raw : Slot α) =
      List.replicate n .raw ++ List.replicate (capacity - n) .raw := by
  rw [replicate_append_replicate, Nat.add_sub_cancel' hle]

/-- The allocated capacity is what is needed and can be counted in bytes. -/
theorem Platform.newCapacity (platform : Platform t)
    (hfits : neededCapacity * t.elementSize < 2 ^ 64) : neededCapacity ≤
        t.kmallocGoodSize (neededCapacity * t.elementSize % 2 ^ 64) / t.elementSize ∧
      t.kmallocGoodSize (neededCapacity * t.elementSize % 2 ^ 64) / t.elementSize *
        t.elementSize < 2 ^ 64 := by
  rw [Nat.mod_eq_of_lt hfits]
  have hle := platform.le_goodSize _ hfits
  have hlt := platform.goodSize_lt _ hfits
  have hmul := Nat.div_mul_le_self (t.kmallocGoodSize (neededCapacity * t.elementSize)) t.elementSize
  exact ⟨(Nat.le_div_iff_mul_le platform.elementSize_pos).mpr hle, Nat.lt_of_le_of_lt hmul hlt⟩

theorem Holds.relocate (h : Holds t v values) {oldBuffer : Slots α} {newCapacity : Nat}
    (hold : oldBuffer.length = v.data.length) (hnew : (objects values ++ rest).length = newCapacity)
    (hbounded : newCapacity * t.elementSize < 2 ^ 64) : Holds t { v.withData oldBuffer with
      mOutlineBuffer := some (objects values ++ rest), mCapacity := newCapacity } values := by
  refine ⟨?_, ?_, ?_, ?_, fun hnone => absurd hnone (some_ne_none _), hbounded, rest, rfl⟩
  · exact (withData_mSize v oldBuffer).trans h.size_eq
  · dsimp only
    rw [withData_mSize, h.size_eq, ← hnew, length_append, length_objects]
    omega
  · unfold data withData at *
    cases houtline : v.mOutlineBuffer with
    | none =>
      rw [houtline] at hold
      exact hold.trans h.inline_length
    | some buffer => exact h.inline_length
  · intro buffer hbuffer
    rw [← some.inj hbuffer]
    exact hnew

theorem Holds.tryEnsureCapacity (h : Holds t v values) (platform : Platform t)
    (hcan : CanEnsure t v neededCapacity) :
    ∃ v', v.tryEnsureCapacity t neededCapacity = some v' ∧ Holds t v' values ∧
      neededCapacity ≤ v'.mCapacity ∧ v'.mSize = v.mSize := by
  rw [Vector.tryEnsureCapacity]
  rcases Nat.lt_or_ge v.mCapacity neededCapacity with hlt | hge
  · have hfits := hcan.resolve_left (Nat.not_le.mpr hlt)
    obtain ⟨hneeded, hbytes⟩ := platform.newCapacity hfits
    rw [if_neg (Nat.not_le.mpr hlt)]
    generalize t.kmallocGoodSize (neededCapacity * t.elementSize % 2 ^ 64) / t.elementSize =
      newCapacity at *
    rw [if_neg (Nat.not_le.mpr hbytes)]
    have hsize := h.size_le
    have hvalues : values.length ≤ newCapacity := by
      rw [← h.size_eq]
      omega
    have hnew : (objects values ++
        List.replicate (newCapacity - values.length) Slot.raw).length = newCapacity := by
      rw [length_append, length_objects, length_replicate]
      omega
    obtain ⟨rest, hdata⟩ := h.stored
    have htmid : (List.replicate values.length (Slot.raw : Slot α)).length = values.length :=
      length_replicate
    rw [replicate_raw_split hvalues]
    cases htrivial : t.isTrivial with
    | true =>
      rw [if_pos rfl, hdata, copy_front htmid h.size_eq, ← hdata]
      exact ⟨_, rfl, h.relocate rfl hnew hbytes, hneeded, withData_mSize v v.data⟩
    | false =>
      have hold : (leftovers false .relocated values ++ rest).length = v.data.length := by
        simp only [hdata, length_append, length_objects, leftovers, length_map]
      rw [if_neg Bool.false_ne_true, hdata, Slots.transfer_front htmid h.size_eq]
      exact ⟨_, rfl, h.relocate hold hnew hbytes, hneeded, withData_mSize v _⟩
  · rw [if_pos hge]
    exact ⟨v, rfl, h, hge, rfl⟩

theorem Holds.tryGrowCapacity (h : Holds t v values) (platform : Platform t)
    (hcan : CanGrow t v neededCapacity) :
    ∃ v', v.tryGrowCapacity t neededCapacity = some v' ∧ Holds t v' values ∧
      neededCapacity ≤ v'.mCapacity ∧ v'.mSize = v.mSize := by
  rw [Vector.tryGrowCapacity]
  rcases Nat.lt_or_ge v.mCapacity neededCapacity with hlt | hge
  · have hfits := hcan.resolve_left (Nat.not_le.mpr hlt)
    have hpos := platform.elementSize_pos
    have hsmall : neededCapacity + neededCapacity / 4 + 4 < 2 ^ 64 := by
      have hle := Nat.le_mul_of_pos_right (max 4 (neededCapacity + neededCapacity / 4 + 4)) hpos
      omega
    have hpadded : paddedCapacity neededCapacity =
        max 4 (neededCapacity + neededCapacity / 4 + 4) := by
      rw [paddedCapacity, Nat.mod_eq_of_lt hsmall]
    rw [if_neg (Nat.not_le.mpr hlt), hpadded]
    obtain ⟨v', hv', hholds, hle, hsize⟩ := h.tryEnsureCapacity platform (.inr hfits)
    exact ⟨v', hv', hholds, (by omega), hsize⟩
  · rw [if_pos hge]
    exact ⟨v, rfl, h, hge, rfl⟩

theorem exists_of_mem_objects (h : slot ∈ objects values) : slot.exists = true := by
  obtain ⟨value, -, rfl⟩ := List.mem_map.mp h
  rfl

/-- Objects in the slots below the size are destroyed. -/
theorem clearWithCapacity_spec {left rest : Slots α} (hdata : v.data = left ++ rest)
    (hlength : left.length = v.mSize) (hexists : ∀ slot ∈ left, slot.exists = true) :
    ∃ buffer, buffer.length = v.data.length ∧
      v.clearWithCapacity t = some { v.withData buffer with mSize := 0 } := by
  obtain ⟨gap, hgap, hdestroy⟩ := @Slots.destroyFrom_spec α t.isTrivial [] left rest 0 v.mSize rfl
    hlength.symm hexists
  rw [nil_append, ← hdata] at hdestroy
  refine ⟨gap ++ rest, ?_, ?_⟩
  · simp only [hdata, length_append, hgap, hlength]
  · rw [Vector.clearWithCapacity, hdestroy]
    rfl

section

variable (h : Holds t v values)

include h

/-- The elements are destroyed, and the buffer is kept. -/
theorem Holds.clearWithCapacity : ∃ v', v.clearWithCapacity t = some v' ∧ Holds t v' [] := by
  obtain ⟨rest, hdata⟩ := h.stored
  obtain ⟨buffer, hbuffer, hclear⟩ := clearWithCapacity_spec (t := t) hdata
    ((length_objects values).trans h.size_eq.symm) fun _ => exists_of_mem_objects
  have hholds : Holds t { v.withData (objects [] ++ buffer) with mSize := 0 } [] :=
    h.store hbuffer rfl (Nat.zero_le _)
  exact ⟨_, hclear, hholds⟩

/-- The elements are destroyed, and the inline buffer is used again. -/
theorem Holds.clear (platform : Platform t) :
    ∃ v', v.clear t = some v' ∧ Holds t v' [] ∧ v'.mOutlineBuffer = none ∧
      v'.mCapacity = t.inlineCapacity := by
  obtain ⟨v', hclear, hholds⟩ := h.clearWithCapacity
  refine ⟨{ v' with mOutlineBuffer := none, mCapacity := t.inlineCapacity }, ?_, ?_, rfl, rfl⟩
  · rw [Vector.clear, hclear]
    rfl
  · exact ⟨hholds.size_eq, hholds.size_eq ▸ Nat.zero_le _, hholds.inline_length,
      fun buffer hbuffer => absurd hbuffer.symm (some_ne_none buffer),
      fun _ => Nat.le_refl _, platform.inline_bounded, _, rfl⟩

theorem Holds.destroyFrom (hle : newSize ≤ values.length) :
    ∃ buffer, Slots.destroyFrom t.isTrivial newSize (v.mSize - newSize) v.data = some buffer ∧
      Holds t { v.withData buffer with mSize := newSize } (values.take newSize) := by
  obtain ⟨rest, hdata⟩ := h.stored
  have hlength : newSize = (objects (values.take newSize)).length := by
    rw [length_objects, length_take_of_le hle]
  have hcount : v.mSize - newSize = (objects (values.drop newSize)).length := by
    rw [length_objects, length_drop, h.size_eq]
  obtain ⟨gap, hgap, hdestroy⟩ := @Slots.destroyFrom_spec α t.isTrivial
    (objects (values.take newSize)) (objects (values.drop newSize)) rest newSize
    (v.mSize - newSize) hlength hcount fun _ => exists_of_mem_objects
  rw [← Slots.objects_append, take_append_drop, ← hdata, List.append_assoc] at hdestroy
  have hsize := h.size_le
  have heq := h.size_eq
  refine ⟨_, hdestroy, h.store ?_ ?_ (by omega)⟩
  · simp only [hdata, length_append, length_objects, hgap, length_take_of_le hle]
    omega
  · rw [length_take_of_le hle]

theorem Holds.shrink (platform : Platform t) (hle : newSize ≤ values.length) (keepCapacity : Bool) :
    ∃ v', v.shrink t newSize keepCapacity = some v' ∧ Holds t v' (values.take newSize) := by
  have heq := h.size_eq
  rw [Vector.shrink, if_neg (by omega)]
  split_ifs with hsame hzero hkeep
  · refine ⟨v, rfl, ?_⟩
    rw [hsame, heq, take_length]
    exact h
  · rw [hzero, take_zero]
    exact h.clearWithCapacity
  · rw [hzero, take_zero]
    obtain ⟨v', hclear, hholds, -⟩ := h.clear platform
    exact ⟨v', hclear, hholds⟩
  · obtain ⟨buffer, hdestroy, hholds⟩ := h.destroyFrom hle
    rw [hdestroy]
    exact ⟨_, rfl, hholds⟩

theorem Holds.tryResize (platform : Platform t)
    (hcan : CanEnsure t v newSize) (keepCapacity : Bool) :
    ∃ v', v.tryResize t newSize keepCapacity = some v' ∧
      Holds t v' (values.take newSize ++
        List.replicate (newSize - values.length) t.defaultValue) := by
  have heq := h.size_eq
  rw [Vector.tryResize]
  split_ifs with hle
  · have hnone : newSize - values.length = 0 := by omega
    rw [hnone, List.replicate_zero, append_nil]
    exact h.shrink platform (by omega) keepCapacity
  · obtain ⟨v', hv', hholds, hcapacity, hsize⟩ := h.tryEnsureCapacity platform hcan
    obtain ⟨rest, hdata⟩ := hholds.stored
    have hroom := hholds.le_length
    rw [hdata, length_append, length_objects] at hroom
    have hmid : (rest.take (newSize - values.length)).length = newSize - values.length :=
      length_take_of_le (by omega)
    have hfill := @Slots.fill_spec α (objects values) (rest.take (newSize - values.length))
      (rest.drop (newSize - values.length)) v'.mSize (newSize - v'.mSize) t.defaultValue
      (hholds.size_eq.trans (length_objects values).symm) (by rw [hmid]; omega)
    rw [List.append_assoc, take_append_drop, ← hdata, ← Slots.objects_append] at hfill
    have hcount : newSize - v'.mSize = newSize - values.length := by omega
    have htake : values.take newSize = values := take_of_length_le (by omega)
    rw [hv', bind_eq_bind, bind_some, hfill, hcount, htake]
    refine ⟨_, rfl, hholds.store ?_ ?_ hcapacity⟩
    · simp only [hdata, length_append, length_objects, length_replicate, length_drop]
      omega
    · rw [length_append, length_replicate]
      omega

end

end Literate.AK.Vector

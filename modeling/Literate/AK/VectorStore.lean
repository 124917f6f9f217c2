import Literate.AK.VectorOperations

/-!
# AK: vectors and other vectors

Copies, moves, and the operations that are given another vector.  The other vector may be
the vector itself, except where it is put before its own elements by a move: there the code
takes the elements away after it has made room for them, and has no room left.
-/

namespace Literate.AK

open Foundation Function List Option
open Slots (objects length_objects)

variable {α : Type} {t : VectorType α}

namespace Vector

variable {v other : Vector α} {values : List α}

theorem Holds.copy (hempty : Holds t v []) (platform : Platform t) (h : Holds t other values) :
    ∃ v' buffer, v.tryEnsureCapacity t other.mSize = some v' ∧
      t.copy v'.data 0 other.data 0 other.mSize = some buffer ∧
      Holds t { v'.withData buffer with mSize := other.mSize } values := by
  have hfits : other.mSize * t.elementSize < 2 ^ 64 :=
    Nat.lt_of_le_of_lt (Nat.mul_le_mul_right t.elementSize h.size_le) h.bounded
  obtain ⟨v', hensure, hholds, hcapacity, -⟩ := hempty.tryEnsureCapacity platform (.inr hfits)
  have hroom_le : ([] : List α).length + values.length ≤ v'.mCapacity := by
    rw [length_nil, Nat.zero_add, ← h.size_eq]
    exact hcapacity
  obtain ⟨room, rest, hroom, hdata⟩ := hholds.exists_room hroom_le
  obtain ⟨post, hother⟩ := h.stored
  rw [Slots.objects_nil, nil_append] at hdata
  have hcopy : t.copy v'.data 0 other.data 0 other.mSize = some (objects values ++ rest) := by
    rw [hdata, hother]
    exact copy_front hroom h.size_eq
  refine ⟨v', _, hensure, hcopy, hholds.store ?_ h.size_eq hcapacity⟩
  simp only [hdata, length_append, length_objects, hroom]

theorem Holds.copyConstruct (platform : Platform t) (h : Holds t other values) :
    ∃ v', other.copyConstruct t = some v' ∧ Holds t v' values := by
  have hempty : Holds t { Vector.empty t with mCapacity := 0 } [] :=
    ⟨rfl, Nat.le_refl _, length_replicate,
      fun buffer hbuffer => absurd hbuffer.symm (some_ne_none buffer),
      fun _ => Nat.zero_le _, (by rw [Nat.zero_mul]; exact Nat.two_pow_pos 64), _, rfl⟩
  obtain ⟨v', buffer, hensure, hcopy, hholds⟩ := hempty.copy platform h
  rw [Vector.copyConstruct, hensure, bind_eq_bind, bind_some, hcopy]
  exact ⟨_, rfl, hholds⟩

theorem length_inlineStorage : (inlineStorage t).length = t.inlineCapacity :=
  length_replicate

/-- Nothing is left in a vector that was moved from. -/
theorem Holds.moveConstruct (platform : Platform t) (h : Holds t other values)
    {inlineBuffer : Slots α} (hlength : inlineBuffer.length = t.inlineCapacity) :
    ∃ v' w, Vector.moveConstruct t inlineBuffer other = some (v', w) ∧ Holds t v' values ∧
      Holds t w [] ∧ v'.mSize = values.length ∧ w.mCapacity = t.inlineCapacity := by
  have hleft : ∀ buffer : Slots α, buffer.length = t.inlineCapacity →
      Holds t (⟨0, t.inlineCapacity, buffer, none⟩ : Vector α) [] := fun buffer hbuffer =>
    ⟨rfl, Nat.zero_le _, hbuffer, fun b hb => absurd hb.symm (some_ne_none b),
      fun _ => Nat.le_refl _, platform.inline_bounded, _, rfl⟩
  obtain ⟨rest, hdata⟩ := h.stored
  rw [Vector.moveConstruct]
  cases houtline : other.mOutlineBuffer with
  | some buffer =>
    rw [if_neg fun hand => some_ne_none _ hand.2]
    rw [data, houtline, getD_some] at hdata
    exact ⟨_, _, rfl,
      ⟨h.size_eq, h.size_le, hlength, fun b hb => h.outline_length b (houtline.trans hb),
        fun hnone => absurd hnone (some_ne_none _), h.bounded, rest, hdata⟩,
      hleft _ h.inline_length, h.size_eq, rfl⟩
  | none =>
    have hle := Nat.le_trans h.size_le (h.inline_le houtline)
    rw [data, houtline, getD_none] at hdata
    rcases Nat.eq_zero_or_pos t.inlineCapacity with hzero | hpos
    · have hnil : values = [] := by
        apply length_eq_zero_iff.mp
        rw [← h.size_eq]
        omega
      subst hnil
      rw [if_neg fun hand => Nat.ne_of_gt hand.1 hzero]
      exact ⟨_, _, rfl,
        ⟨h.size_eq, h.size_le, hlength, fun b hb => absurd hb.symm (some_ne_none b),
          fun _ => h.inline_le houtline, h.bounded, inlineBuffer, rfl⟩,
        hleft _ h.inline_length, h.size_eq, rfl⟩
    · have htake : (inlineBuffer.take other.mSize).length = values.length := by
        rw [length_take_of_le (by omega), h.size_eq]
      have htransfer := @Slots.transfer_front α t.isTrivial false .relocated values rest
        (inlineBuffer.take other.mSize) (inlineBuffer.drop other.mSize) other.mSize htake h.size_eq
      rw [take_append_drop, ← hdata] at htransfer
      have hleftovers : (Slots.leftovers t.isTrivial .relocated values ++ rest).length =
          t.inlineCapacity := by
        simp only [← h.inline_length, hdata, length_append, length_objects, Slots.leftovers,
          length_map]
      have hnew : (objects values ++ inlineBuffer.drop other.mSize).length =
          t.inlineCapacity := by
        rw [length_append, length_objects, length_drop, ← h.size_eq, hlength]
        omega
      rw [if_pos ⟨hpos, rfl⟩, htransfer]
      exact ⟨_, _, rfl,
        ⟨h.size_eq, h.size_le, hnew, fun b hb => absurd hb.symm (some_ne_none b),
          fun _ => h.inline_le houtline, h.bounded, _, rfl⟩,
        hleft _ hleftovers, h.size_eq, rfl⟩

/-- A vector that was moved from slot by slot is destroyed. -/
theorem Holds.clear_left (h : Holds t v values) {left rest : Slots α}
    (hlength : left.length = values.length) (hexists : ∀ slot ∈ left, slot.exists = true) :
    ∃ v', (v.withData (left ++ rest)).clear t = some v' := by
  obtain ⟨buffer, -, hclear⟩ := @clearWithCapacity_spec α t (v.withData (left ++ rest)) left rest
    (withData_data v _) (by rw [withData_mSize, hlength, h.size_eq]) hexists
  rw [Vector.clear, hclear]
  exact ⟨_, rfl⟩

end Vector

namespace Store

/-- The vectors of a program hold the lists of the same names. -/
def Refines (t : VectorType α) (store : Store α) (lists : Nat → List α) : Prop :=
  ∀ this, Vector.Holds t (store this) (lists this)

variable {store : Store α} {lists : Nat → List α} {this other : Nat}

section

variable (h : Refines t store lists)

include h

theorem Refines.update {v : Vector α} {values : List α} (hv : Vector.Holds t v values) :
    Refines t (Function.update store this v) (Function.update lists this values) := by
  intro name
  rcases Decidable.eq_or_ne name this with rfl | hne
  · simp only [update_self]
    exact hv
  · simp only [update_of_ne hne]
    exact h name

theorem Refines.replace {v : Vector α}
    (hv : Vector.Holds t v (lists this)) : Refines t (Function.update store this v) lists := by
  have hupdate : Refines t (Function.update store this v)
      (Function.update lists this (lists this)) := h.update hv
  rw [update_eq_self] at hupdate
  exact hupdate

theorem Refines.size (this : Nat) : (store this).mSize = (lists this).length := (h this).size_eq

/-! ## Copies and moves -/

theorem Refines.copyAssign (platform : Vector.Platform t)
    (this other : Nat) : ∃ store', copyAssign t store this other = some store' ∧
      Refines t store' (Function.update lists this (lists other)) := by
  rw [Store.copyAssign]
  split_ifs with hsame
  · subst hsame
    rw [update_eq_self]
    exact ⟨store, rfl, h⟩
  · obtain ⟨v, hclear, hempty, -⟩ := (h this).clear platform
    obtain ⟨v', buffer, hensure, hcopy, hholds⟩ := hempty.copy platform (h other)
    simp only [hclear, bind_eq_bind, bind_some, hensure, hcopy]
    exact ⟨_, rfl, h.update hholds⟩

end

/-- The elements of a list to another list. -/
def moveList (lists : Nat → List α) (this other : Nat) : Nat → List α :=
  Function.update (Function.update lists other []) this (lists other)

theorem moveList_self : moveList lists this this = lists := by
  rw [moveList, update_idem, update_eq_self]

section

variable (h : Refines t store lists)

include h

theorem Refines.moveAssign (platform : Vector.Platform t)
    (this other : Nat) : ∃ store', moveAssign t store this other = some store' ∧
      Refines t store' (moveList lists this other) := by
  rw [Store.moveAssign]
  split_ifs with hsame
  · subst hsame
    rw [moveList_self]
    exact ⟨store, rfl, h⟩
  · obtain ⟨v, hclear, hempty, -⟩ := (h this).clear platform
    obtain ⟨v', w, hmove, hholds, hleft, -⟩ :=
      (h other).moveConstruct platform hempty.inline_length
    rw [hclear, bind_eq_bind, bind_some, hmove]
    refine ⟨_, rfl, ?_⟩
    rw [moveList, update_comm (Ne.symm hsame)]
    exact (h.update hholds).update hleft

theorem Refines.copyConstruct (platform : Vector.Platform t)
    (this other : Nat) : ∃ store', copyConstruct t store this other = some store' ∧
      Refines t store' (Function.update lists this (lists other)) := by
  obtain ⟨v, hcopy, hholds⟩ := (h other).copyConstruct platform
  obtain ⟨v', hclear, -⟩ := (h this).clear platform
  rw [Store.copyConstruct, hcopy, bind_eq_bind, bind_some, hclear]
  exact ⟨_, rfl, h.update hholds⟩

theorem Refines.moveConstruct (platform : Vector.Platform t)
    (this other : Nat) : ∃ store', moveConstruct t store this other = some store' ∧
      Refines t store' (moveList lists this other) := by
  obtain ⟨v, w, hmove, hholds, hleft, -⟩ :=
    (h other).moveConstruct platform Vector.length_inlineStorage
  have hmoved : Refines t (Function.update store other w) (Function.update lists other []) :=
    h.update hleft
  obtain ⟨v', hclear, -⟩ := (hmoved this).clear platform
  rw [Store.moveConstruct, hmove, bind_eq_bind, bind_some]
  dsimp only
  rw [hclear]
  exact ⟨_, rfl, hmoved.update hholds⟩

/-! ## The elements of another vector -/

theorem Refines.tryExtend (platform : Vector.Platform t)
    (hcan : Vector.CanGrow t (store this) ((store this).mSize + (store other).mSize)) :
    ∃ store', tryExtend t store this other = some store' ∧
      Refines t store' (Function.update lists this (lists this ++ lists other)) := by
  obtain ⟨v, hgrow, hholds, hcapacity, hsize⟩ := (h this).tryGrowCapacity platform hcan
  have hstore := h.replace hholds
  rw [h.size this, h.size other] at hcapacity
  obtain ⟨room, rest, hroom, hdata⟩ := hholds.exists_room hcapacity
  obtain ⟨post, hother⟩ := (hstore other).stored
  have hat : v.mSize = (objects (lists this)).length := by rw [hholds.size_eq, length_objects]
  have hcopy := @Vector.copy_spec α t (lists other) post (objects (lists this)) room rest
    (Function.update store this v other).mSize v.mSize hat hroom (hstore.size other)
  rw [← hother, ← hdata, ← Slots.objects_append] at hcopy
  rw [Store.tryExtend, hgrow, bind_eq_bind, bind_some]
  dsimp only
  rw [hcopy, hstore.size other]
  have hnew : v.mSize + (lists other).length = (lists this ++ lists other).length := by
    rw [length_append, hholds.size_eq]
  refine ⟨_, rfl, hstore.update (hholds.store ?_ hnew ?_)⟩
  · simp only [hdata, length_append, length_objects, hroom]
  · rw [hholds.size_eq]
    exact hcapacity

end

/-- The capacity that is asked for when a vector is moved to the end of another one, which has
nothing left in it when they are the same. -/
def CanExtendMove (t : VectorType α) (store : Store α) (this other : Nat) : Prop :=
  ((store this).mSize = 0 ∧ (store this).mCapacity ≤ (store other).mCapacity) ∨
    if this = other then Vector.CanGrow t (Vector.empty t) (store other).mSize
    else Vector.CanGrow t (store this) ((store this).mSize + (store other).mSize)

theorem Refines.tryExtendMove (h : Refines t store lists) (platform : Vector.Platform t)
    (hcan : CanExtendMove t store this other) :
    ∃ store', tryExtendMove t store this other = some store' ∧
      Refines t store' (Function.update (Function.update lists other []) this
        (Function.update lists other [] this ++ lists other)) := by
  rw [Store.tryExtendMove]
  split_ifs with hempty
  · have hnil : Function.update lists other [] this = [] := by
      rcases Decidable.eq_or_ne this other with rfl | hne
      · exact update_self this [] lists
      · rw [update_of_ne hne]
        apply length_eq_zero_iff.mp
        rw [← h.size]
        exact hempty.1
    rw [hnil, nil_append]
    exact h.moveAssign platform this other
  · obtain ⟨tmp, w, hmove, hholds, hleft, htmp, hinline⟩ :=
      (h other).moveConstruct platform Vector.length_inlineStorage
    have hmoved : Refines t (Function.update store other w) (Function.update lists other []) :=
      h.update hleft
    have hgrow : Vector.CanGrow t (Function.update store other w this)
        ((Function.update store other w this).mSize + (store other).mSize) := by
      have hcan' := hcan.resolve_left hempty
      rcases Decidable.eq_or_ne this other with rfl | hne
      · rw [if_pos rfl] at hcan'
        rw [update_self, hleft.size_eq, length_nil, Nat.zero_add]
        unfold Vector.CanGrow at *
        rw [hinline]
        exact hcan'
      · rw [if_neg hne] at hcan'
        rw [update_of_ne hne]
        exact hcan'
    obtain ⟨v, hv, hvholds, hcapacity, hsize⟩ := (hmoved this).tryGrowCapacity platform hgrow
    rw [hmoved.size this, h.size other] at hcapacity
    obtain ⟨room, rest, hroom, hdata⟩ := hvholds.exists_room hcapacity
    obtain ⟨post, hpost⟩ := hholds.stored
    obtain ⟨left, hlength, hexists, htransfer⟩ := @Vector.move_spec α t (lists other) post
      (objects (Function.update lists other [] this)) room rest (store other).mSize v.mSize
      (by rw [hvholds.size_eq, length_objects]) hroom (h.size other)
    obtain ⟨v', hclear⟩ : ∃ v', (tmp.withData (left ++ post)).clear t = some v' :=
      hholds.clear_left hlength hexists
    rw [← hpost, ← hdata, ← Slots.objects_append] at htransfer
    rw [hmove, bind_eq_bind, bind_some]
    dsimp only
    simp only [hv, bind_eq_bind, bind_some, htransfer]
    rw [hclear, h.size other]
    have hnew : v.mSize + (lists other).length =
        (Function.update lists other [] this ++ lists other).length := by
      rw [length_append, hvholds.size_eq]
    refine ⟨_, rfl, hmoved.update (hvholds.store ?_ hnew ?_)⟩
    · simp only [hdata, length_append, length_objects, hroom]
    · rw [hvholds.size_eq]
      exact hcapacity

/-- A vector is not put before itself, and there is room for another one. -/
def CanPrependMove (t : VectorType α) (store : Store α) (this other : Nat) : Prop :=
  (store other).mSize = 0 ∨ (store this).mSize = 0 ∨
    (this ≠ other ∧ Vector.CanGrow t (store this) ((store this).mSize + (store other).mSize))

theorem Refines.tryPrependMove (h : Refines t store lists) (platform : Vector.Platform t)
    (hcan : CanPrependMove t store this other) :
    ∃ store', tryPrependMove t store this other = some store' ∧
      Refines t store' (Function.update (Function.update lists other []) this
        (lists other ++ Function.update lists other [] this)) := by
  rw [Store.tryPrependMove]
  split_ifs with hnothing hempty
  · have hnil : lists other = [] := by
      apply length_eq_zero_iff.mp
      rw [← h.size]
      exact hnothing
    have hsame : Function.update lists other [] = lists := by rw [← hnil, update_eq_self]
    rw [hsame, hnil, nil_append, update_eq_self]
    exact ⟨store, rfl, h⟩
  · have hnil : Function.update lists other [] this = [] := by
      rcases Decidable.eq_or_ne this other with rfl | hne
      · exact update_self this [] lists
      · rw [update_of_ne hne]
        apply length_eq_zero_iff.mp
        rw [← h.size]
        exact hempty
    rw [hnil, append_nil]
    exact h.moveAssign platform this other
  · obtain ⟨hne, hgrow⟩ := (hcan.resolve_left hnothing).resolve_left hempty
    obtain ⟨v, hv, hvholds, hcapacity, -⟩ := (h this).tryGrowCapacity platform hgrow
    rw [h.size this, h.size other] at hcapacity
    obtain ⟨room, rest, hroom, hdata⟩ := hvholds.exists_room hcapacity
    obtain ⟨tmp, w, hmove, hholds, hleft, htmp, -⟩ :=
      (h other).moveConstruct platform Vector.length_inlineStorage
    obtain ⟨post, hpost⟩ := hholds.stored
    have hpos : 0 < (lists other).length := by
      rw [← h.size]
      exact Nat.pos_of_ne_zero hnothing
    have hrest : (lists other).length ≤ (room ++ rest).length := by
      rw [length_append, hroom]
      omega
    obtain ⟨gap, hgap, hshift⟩ := @Slots.shiftUp_spec α t.isTrivial .relocated (lists this) []
      (room ++ rest) 0 v.mSize (lists other).length rfl hvholds.size_eq hpos hrest
    rw [nil_append, ← List.append_assoc, ← hdata, ← hroom, drop_left, hroom,
      nil_append, List.append_assoc] at hshift
    obtain ⟨left, hlength, hexists, htransfer⟩ := @Vector.move_spec α t (lists other) post []
      gap (objects (lists this) ++ rest) tmp.mSize 0 rfl hgap htmp
    obtain ⟨v', hclear⟩ : ∃ v', (tmp.withData (left ++ post)).clear t = some v' :=
      hholds.clear_left hlength hexists
    simp only [← hpost, nil_append, ← List.append_assoc (objects _), ← Slots.objects_append] at htransfer
    dsimp only
    rw [hv, bind_eq_bind, bind_some, h.size other, hshift, bind_eq_bind,
      bind_some]
    rw [update_of_ne (Ne.symm hne), hmove, bind_eq_bind, bind_some]
    rw [update_of_ne hne, update_self, Vector.withData_data, htransfer,
      bind_eq_bind, bind_some]
    rw [hclear, Vector.withData_withData, Vector.withData_mSize, update_comm hne,
      update_idem, update_of_ne hne]
    have hnew : v.mSize + (lists other).length = (lists other ++ lists this).length := by
      rw [length_append, hvholds.size_eq, Nat.add_comm]
    refine ⟨_, rfl, (h.update hleft).update (hvholds.store ?_ hnew ?_)⟩
    · simp only [hdata, length_append, length_objects, hroom]
      omega
    · rw [hvholds.size_eq]
      exact hcapacity

end Store

end Literate.AK

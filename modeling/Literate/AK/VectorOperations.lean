import Mathlib.Data.List.InsertIdx
import Literate.AK.VectorHolds

/-!
# AK: elements into a vector and out of it

Each operation on the elements of one vector does what the operation of the same name does
to a list.  There are two ways through most of them, one for trivial elements, whose bytes
are moved at once, and one for other elements, which are moved one after another and
destroyed where they were.  Both leave the elements where the invariant wants them.
-/

namespace Literate.AK.Vector

open Foundation List Option

variable {α : Type} {t : VectorType α} {v : Vector α} {values : List α}

/-! ## Elements in -/

theorem Holds.tryAppend (h : Holds t v values) (platform : Platform t) (value : α)
    (hcan : CanGrow t v (v.mSize + 1)) :
    ∃ v', v.tryAppend t value = some v' ∧ Holds t v' (values ++ [value]) := by
  obtain ⟨v', hgrow, hholds, hcapacity, hsize⟩ := h.tryGrowCapacity platform hcan
  rw [h.size_eq] at hcapacity
  obtain ⟨room, rest, hroom, hdata⟩ := hholds.exists_room hcapacity
  obtain ⟨slot, rfl⟩ := length_eq_one_iff.mp hroom
  rw [List.append_assoc, singleton_append] at hdata
  have hat : v'.mSize = (Slots.objects values).length := by
    rw [hholds.size_eq, Slots.length_objects]
  have hconstruct : Slots.construct v'.data v'.mSize value =
      some (Slots.objects (values ++ [value]) ++ rest) := by
    rw [hdata, Slots.construct_append hat, Slots.objects_append, List.append_assoc]
    rfl
  rw [Vector.tryAppend, hgrow, bind_eq_bind, bind_some, hconstruct]
  refine ⟨_, rfl, hholds.store ?_ ?_ ?_⟩
  · rw [hdata, length_append, length_append, Slots.length_objects,
      Slots.length_objects, length_append, length_singleton, length_cons]
    omega
  · rw [hholds.size_eq, length_append, length_singleton]
  · rw [hholds.size_eq]
    exact hcapacity

theorem Holds.tryAppendValues (h : Holds t v values) (platform : Platform t) (news : List α)
    (hcan : CanGrow t v (v.mSize + news.length)) :
    ∃ v', v.tryAppendValues t news = some v' ∧ Holds t v' (values ++ news) := by
  rw [Vector.tryAppendValues]
  split_ifs with hzero
  · rw [length_eq_zero_iff.mp hzero, append_nil]
    exact ⟨v, rfl, h⟩
  · obtain ⟨v', hgrow, hholds, hcapacity, hsize⟩ := h.tryGrowCapacity platform hcan
    rw [h.size_eq] at hcapacity
    obtain ⟨room, rest, hroom, hdata⟩ := hholds.exists_room hcapacity
    have hat : v'.mSize = (Slots.objects values).length := by
      rw [hholds.size_eq, Slots.length_objects]
    have hcopy := @copy_spec α t news [] (Slots.objects values) room rest news.length v'.mSize hat
      hroom rfl
    rw [append_nil, ← hdata, ← Slots.objects_append] at hcopy
    rw [hgrow, bind_eq_bind, bind_some, hcopy]
    refine ⟨_, rfl, hholds.store ?_ ?_ ?_⟩
    · simp only [hdata, length_append, Slots.length_objects, hroom]
    · rw [hholds.size_eq, length_append]
    · rw [hholds.size_eq]
      exact hcapacity

variable {index i : Nat}

theorem insertIdx_eq_take_drop (hle : index ≤ values.length) (value : α) :
    values.insertIdx index value = values.take index ++ value :: values.drop index := by
  induction values generalizing index with
  | nil =>
    rw [length_nil, Nat.le_zero] at hle
    subst hle
    rfl
  | cons head values ih =>
    cases index with
    | zero => rfl
    | succ index =>
      rw [insertIdx_succ_cons, take_succ_cons, drop_succ_cons,
        List.cons_append, ih (Nat.le_of_succ_le_succ hle)]

theorem Holds.constructAt (h : Holds t v values) (hle : index ≤ values.length)
    (value : α) {gap room rest : Slots α} (hgap : gap.length = 1) (hroom : room.length = 1)
    (hdata : v.data = Slots.objects values ++ room ++ rest)
    (hcapacity : values.length + 1 ≤ v.mCapacity) : ∃ buffer,
      Slots.construct (Slots.objects (values.take index) ++ gap ++
        Slots.objects (values.drop index) ++ rest) index value = some buffer ∧
      Holds t { v.withData buffer with mSize := v.mSize + 1 } (values.insertIdx index value) := by
  obtain ⟨slot, rfl⟩ := length_eq_one_iff.mp hgap
  have hbefore : index = (Slots.objects (values.take index)).length := by
    rw [Slots.length_objects, length_take_of_le hle]
  have hslots : Slots.objects (values.take index) ++ [slot] ++ Slots.objects (values.drop index) ++
      rest = Slots.objects (values.take index) ++
        slot :: (Slots.objects (values.drop index) ++ rest) := by
    rw [List.append_assoc, List.append_assoc, singleton_append]
  have hbuffer : Slots.objects (values.take index) ++
      Slot.object value :: (Slots.objects (values.drop index) ++ rest) =
        Slots.objects (values.insertIdx index value) ++ rest := by
    rw [insertIdx_eq_take_drop hle, Slots.objects_append, Slots.objects_cons, List.append_assoc,
      List.cons_append]
  refine ⟨Slots.objects (values.insertIdx index value) ++ rest, ?_, h.store ?_ ?_ ?_⟩
  · rw [hslots, Slots.construct_append hbefore, hbuffer]
  · simp only [hdata, length_append, Slots.length_objects, length_insertIdx_of_le_length hle, hroom]
  · rw [h.size_eq, length_insertIdx_of_le_length hle]
  · rw [h.size_eq]
    exact hcapacity

theorem Holds.tryInsert (h : Holds t v values) (platform : Platform t)
    (hle : index ≤ values.length) (value : α) (hcan : CanGrow t v (v.mSize + 1)) :
    ∃ v', v.tryInsert t index value = some v' ∧ Holds t v' (values.insertIdx index value) := by
  have hsize := h.size_eq
  rw [Vector.tryInsert, if_neg (by omega)]
  rcases Nat.eq_or_lt_of_le hle with hend | hlt
  · rw [if_pos (hend.trans hsize.symm), hend, insertIdx_length_self]
    exact h.tryAppend platform value hcan
  · rw [if_neg (by omega)]
    obtain ⟨v', hgrow, hholds, hcapacity, hsize'⟩ := h.tryGrowCapacity platform hcan
    rw [hsize] at hcapacity
    obtain ⟨room, rest, hroom, hdata⟩ := hholds.exists_room hcapacity
    have hbefore : index = (Slots.objects (values.take index)).length := by
      rw [Slots.length_objects, length_take_of_le hle]
    have hcount : v'.mSize - index = (values.drop index).length := by
      rw [length_drop, hholds.size_eq]
    have hcount' : v'.mSize + 1 - index - 1 = (values.drop index).length := by omega
    have hrest : 1 ≤ (room ++ rest).length := by
      rw [length_append, hroom]
      omega
    have hdrop : (room ++ rest).drop 1 = rest := by rw [← hroom, drop_left]
    have hsplit : v'.data = Slots.objects (values.take index) ++
        Slots.objects (values.drop index) ++ (room ++ rest) := by
      rw [← Slots.objects_append, take_append_drop, hdata, List.append_assoc]
    rw [hgrow, bind_eq_bind, bind_some]
    cases htrivial : t.isTrivial with
    | true =>
      obtain ⟨gap, hgap, hmove⟩ := @moveWithin_up α t (values.drop index)
        (Slots.objects (values.take index)) (room ++ rest) index (v'.mSize + 1 - index - 1)
        (index + 1) 1 hbefore hcount' rfl Nat.one_pos hrest
      obtain ⟨buffer, hconstruct, hbuffer⟩ :=
        hholds.constructAt hle value hgap hroom hdata hcapacity
      rw [← hsplit, hdrop] at hmove
      rw [if_pos rfl, hmove, bind_eq_bind, bind_some]
      dsimp only
      rw [hconstruct]
      exact ⟨_, rfl, hbuffer⟩
    | false =>
      obtain ⟨gap, hgap, hshift⟩ := @Slots.shiftUp_spec α false .relocated (values.drop index)
        (Slots.objects (values.take index)) (room ++ rest) index (v'.mSize - index) 1
        hbefore hcount Nat.one_pos hrest
      obtain ⟨buffer, hconstruct, hbuffer⟩ :=
        hholds.constructAt hle value hgap hroom hdata hcapacity
      rw [← hsplit, hdrop] at hshift
      rw [if_neg Bool.false_ne_true, hshift, bind_eq_bind, bind_some]
      dsimp only
      rw [hconstruct]
      exact ⟨_, rfl, hbuffer⟩

theorem Holds.tryPrependValues (h : Holds t v values) (platform : Platform t) (news : List α)
    (hcan : CanGrow t v (v.mSize + news.length)) :
    ∃ v', v.tryPrependValues t news = some v' ∧ Holds t v' (news ++ values) := by
  rw [Vector.tryPrependValues]
  split_ifs with hzero
  · rw [length_eq_zero_iff.mp hzero, nil_append]
    exact ⟨v, rfl, h⟩
  · obtain ⟨v', hgrow, hholds, hcapacity, hsize⟩ := h.tryGrowCapacity platform hcan
    rw [h.size_eq] at hcapacity
    obtain ⟨room, rest, hroom, hdata⟩ := hholds.exists_room hcapacity
    have hrest : news.length ≤ (room ++ rest).length := by
      rw [length_append, hroom]
      omega
    obtain ⟨gap, hgap, hmove⟩ := @moveWithin_up α t values [] (room ++ rest) 0 v'.mSize news.length
      news.length rfl hholds.size_eq (Nat.zero_add _).symm (Nat.pos_of_ne_zero hzero) hrest
    simp only [nil_append, ← List.append_assoc (Slots.objects values), ← hdata, ← hroom, drop_left,
      List.append_assoc] at hmove
    have hcopy := @copy_front α t news [] gap (Slots.objects values ++ rest) news.length hgap rfl
    rw [append_nil, ← List.append_assoc (Slots.objects news), ← Slots.objects_append] at hcopy
    rw [hgrow, bind_eq_bind, bind_some, ← hroom, hmove, bind_eq_bind,
      bind_some, hroom, hcopy]
    refine ⟨_, rfl, hholds.store ?_ ?_ ?_⟩
    · simp only [hdata, length_append, Slots.length_objects, hroom]
      omega
    · rw [hholds.size_eq, length_append, Nat.add_comm]
    · rw [hholds.size_eq]
      exact hcapacity

/-! ## Elements out -/

variable {news olds : List α} {mid rest : Slots α}

/-- What is not an element any more is destroyed and the gap is closed, trivial or not. -/
theorem removeCount_spec (hsize : v.mSize = olds.length + mid.length + news.length)
    (hdata : v.data = Slots.objects olds ++ mid ++ Slots.objects news ++ rest)
    (hexists : ∀ slot ∈ mid, slot.exists = true) (hpos : 0 < mid.length) :
    ∃ gap, gap.length = mid.length ∧ v.removeCount t olds.length mid.length =
      some { v.withData (Slots.objects (olds ++ news) ++ (gap ++ rest)) with
        mSize := v.mSize - mid.length } := by
  have hstart : olds.length + mid.length = (Slots.objects olds).length + mid.length := by
    rw [Slots.length_objects]
  have hcount : v.mSize - olds.length - mid.length = news.length := by omega
  have hat : olds.length = (Slots.objects olds).length := (Slots.length_objects olds).symm
  have happend : ∀ gap : Slots α, Slots.objects olds ++ Slots.objects news ++ gap ++ rest =
      Slots.objects (olds ++ news) ++ (gap ++ rest) := by
    intro gap
    rw [Slots.objects_append, List.append_assoc]
  rw [removeCount, if_neg (Nat.pos_iff_ne_zero.mp hpos), if_neg (by omega)]
  cases htrivial : t.isTrivial with
  | true =>
    obtain ⟨gap, hgap, hcopy⟩ := @copyWithin_down α news (Slots.objects olds) rest
      (olds.length + mid.length) (v.mSize - olds.length - mid.length) olds.length mid hstart
      hcount hat
    rw [happend] at hcopy
    rw [if_pos rfl, hdata, hcopy]
    exact ⟨gap, hgap, rfl⟩
  | false =>
    obtain ⟨hole, hhole, hdestroy⟩ := @Slots.destroyFrom_spec α false (Slots.objects olds) mid
      (Slots.objects news ++ rest) olds.length mid.length hat rfl hexists
    obtain ⟨gap, hgap, hshift⟩ := @Slots.shiftDown_spec α false .relocated news
      (Slots.objects olds) rest (olds.length + mid.length)
      (v.mSize - olds.length - mid.length) mid.length hole (by rw [hstart, hhole]) hcount hhole.symm
      hpos
    simp only [← List.append_assoc] at hdestroy
    rw [happend] at hshift
    rw [if_neg Bool.false_ne_true, hdata, hdestroy, bind_eq_bind, bind_some, hshift]
    exact ⟨gap, hgap, rfl⟩

theorem remove_eq_removeCount (v : Vector α) (index : Nat) :
    v.remove t index = v.removeCount t index 1 := by
  have hdestroy : ∀ buffer : Slots α, Slots.destroyFrom t.isTrivial index 1 buffer =
      Slots.destroy t.isTrivial buffer index := by
    intro buffer
    exact bind_fun_some _
  rw [remove, removeCount, if_neg Nat.one_ne_zero, hdestroy]
  rcases Nat.lt_or_ge index v.mSize with hlt | hge
  · rw [if_neg (Nat.not_le.mpr hlt), if_neg (Nat.not_lt.mpr hlt)]
  · rw [if_pos hge, if_pos (Nat.lt_succ_of_le hge)]

/-- The slot of an element may be there without its value. -/
theorem remove_spec {slot : Slot α} (hsize : v.mSize = olds.length + 1 + news.length)
    (hdata : v.data = Slots.objects olds ++ slot :: (Slots.objects news ++ rest))
    (hexists : slot.exists = true) : ∃ gap, gap.length = 1 ∧ v.remove t olds.length =
      some { v.withData (Slots.objects (olds ++ news) ++ (gap ++ rest)) with
        mSize := v.mSize - 1 } := by
  have hdata' : v.data = Slots.objects olds ++ [slot] ++ Slots.objects news ++ rest := by
    rw [hdata, List.append_assoc, List.append_assoc, singleton_append]
  have hmem : ∀ slot' ∈ [slot], slot'.exists = true := by
    intro slot' hslot'
    rw [mem_singleton.mp hslot']
    exact hexists
  rw [remove_eq_removeCount]
  exact removeCount_spec hsize hdata' hmem Nat.one_pos

theorem Holds.removeCount (h : Holds t v values) {count : Nat}
    (hle : index + count ≤ values.length) : ∃ v', v.removeCount t index count = some v' ∧
      Holds t v' (values.take index ++ values.drop (index + count)) := by
  rcases Nat.eq_zero_or_pos count with rfl | hpos
  · rw [Vector.removeCount, if_pos rfl, Nat.add_zero, take_append_drop]
    exact ⟨v, rfl, h⟩
  obtain ⟨rest, hdata⟩ := h.stored
  have hindex : (values.take index).length = index := length_take_of_le (by omega)
  have hmid : (Slots.objects ((values.drop index).take count)).length = count := by
    rw [Slots.length_objects, length_take_of_le]
    rw [length_drop]
    omega
  have hsize : v.mSize = (values.take index).length +
      (Slots.objects ((values.drop index).take count)).length +
        (values.drop (index + count)).length := by
    rw [h.size_eq, hindex, hmid, length_drop]
    omega
  have hsplit : v.data = Slots.objects (values.take index) ++
      Slots.objects ((values.drop index).take count) ++
        Slots.objects (values.drop (index + count)) ++ rest := by
    simp only [hdata, ← Slots.objects_append, List.append_assoc (values.take index), ← drop_drop,
      take_append_drop]
  obtain ⟨gap, hgap, hremove⟩ := removeCount_spec (t := t) hsize hsplit
    (fun _ => exists_of_mem_objects) (by rw [hmid]; exact hpos)
  rw [hindex, hmid] at hremove
  rw [hmid] at hgap
  have heq := h.size_eq
  have hsize_le := h.size_le
  have hnew : (values.take index ++ values.drop (index + count)).length = v.mSize - count := by
    rw [length_append, hindex, length_drop]
    omega
  refine ⟨_, hremove, h.store ?_ hnew.symm (by omega)⟩
  simp only [hdata, length_append, Slots.length_objects, hnew, hgap]
  omega

theorem Holds.remove (h : Holds t v values) (hlt : index < values.length) :
    ∃ v', v.remove t index = some v' ∧ Holds t v' (values.eraseIdx index) := by
  rw [remove_eq_removeCount, eraseIdx_eq_take_drop_succ]
  exact h.removeCount hlt

theorem Holds.valueAt (h : Holds t v values) (hlt : i < values.length) :
    Slots.valueAt v.data i = some values[i] := by
  obtain ⟨rest, hdata⟩ := h.stored
  rw [Slots.valueAt, hdata, List.getElem?_append_left (by rw [Slots.length_objects]; exact hlt),
    Slots.objects, List.getElem?_map, List.getElem?_eq_getElem hlt]
  rfl

/-! ## Elements that match -/

variable {predicate : α → Bool}

/-- No element before `i` matches. -/
theorem Holds.removeFirstMatchingLoop (h : Holds t v values) {count : Nat}
    (hcount : i + count = values.length) :
    ∃ v', v.removeFirstMatchingLoop t predicate count i = some (v', (values.drop i).any predicate) ∧
      Holds t v' (values.take i ++ (values.drop i).eraseP predicate) := by
  induction count generalizing i with
  | zero =>
    have hdrop : values.drop i = [] := drop_of_length_le (by omega)
    rw [hdrop, eraseP_nil, append_nil, take_of_length_le (by omega)]
    exact ⟨v, rfl, h⟩
  | succ count ih =>
    have hlt : i < values.length := by omega
    rw [Vector.removeFirstMatchingLoop, h.valueAt hlt, bind_eq_bind, bind_some,
      drop_eq_getElem_cons hlt]
    cases hmatch : predicate values[i] with
    | true =>
      obtain ⟨v', hremove, hholds⟩ := h.remove hlt
      rw [eraseIdx_eq_take_drop_succ] at hholds
      rw [if_pos rfl, hremove, eraseP_cons_of_pos hmatch, any_cons, hmatch, Bool.true_or]
      exact ⟨v', rfl, hholds⟩
    | false =>
      have hkept : ¬ predicate values[i] = true := by
        rw [hmatch]
        exact Bool.false_ne_true
      obtain ⟨v', hloop, hholds⟩ := @ih (i + 1) (by omega)
      rw [if_neg Bool.false_ne_true, hloop, eraseP_cons_of_neg hkept, any_cons, hmatch,
        Bool.false_or]
      refine ⟨v', rfl, ?_⟩
      rw [take_succ_eq_append_getElem hlt, List.append_assoc, singleton_append] at hholds
      exact hholds

theorem Holds.removeFirstMatching (h : Holds t v values) :
    ∃ v', v.removeFirstMatching t predicate = some (v', values.any predicate) ∧
      Holds t v' (values.eraseP predicate) :=
  h.removeFirstMatchingLoop ((Nat.zero_add _).trans h.size_eq)

/-- The elements before `i` are those that do not match. -/
theorem Holds.removeAllMatchingLoop {count : Nat} {kept left : List α} (something : Bool)
    (h : Holds t v (kept ++ left)) (hcount : count = left.length) :
    ∃ v', v.removeAllMatchingLoop t predicate count kept.length something =
        some (v', something || left.any predicate) ∧
      Holds t v' (kept ++ left.filter fun value => !predicate value) := by
  induction left generalizing count kept something v with
  | nil =>
    subst hcount
    rw [any_nil, Bool.or_false]
    exact ⟨v, rfl, h⟩
  | cons value left ih =>
    subst hcount
    have hlt : kept.length < (kept ++ value :: left).length := by
      rw [length_append, length_cons]
      omega
    have hvalue := h.valueAt hlt
    rw [getElem_append_right (Nat.le_refl _)] at hvalue
    simp only [Nat.sub_self, getElem_cons_zero] at hvalue
    rw [length_cons, Vector.removeAllMatchingLoop, hvalue, bind_eq_bind,
      bind_some, any_cons]
    cases hmatch : predicate value with
    | true =>
      obtain ⟨v', hremove, hholds⟩ := h.remove hlt
      rw [eraseIdx_append_of_length_le (Nat.le_refl _), Nat.sub_self] at hholds
      obtain ⟨v'', hloop, hholds'⟩ := ih true hholds rfl
      rw [if_pos rfl, hremove, bind_eq_bind, bind_some, hloop,
        filter_cons_of_neg (by rw [hmatch]; exact Bool.false_ne_true)]
      rw [Bool.true_or, Bool.or_true]
      exact ⟨v'', rfl, hholds'⟩
    | false =>
      rw [append_cons] at h
      obtain ⟨v', hloop, hholds⟩ := ih something h rfl
      rw [length_append, length_singleton] at hloop
      rw [if_neg Bool.false_ne_true, hloop, Bool.false_or,
        filter_cons_of_pos (by rw [hmatch]; rfl), append_cons]
      exact ⟨v', rfl, hholds⟩

theorem Holds.removeAllMatching (h : Holds t v values) :
    ∃ v', v.removeAllMatching t predicate = some (v', values.any predicate) ∧
      Holds t v' (values.filter fun value => !predicate value) := by
  have hloop := @Holds.removeAllMatchingLoop α t v predicate v.mSize [] values false h h.size_eq
  rw [nil_append, Bool.false_or] at hloop
  exact hloop

/-! ## Elements from the ends -/

theorem Holds.takeLast {last : α} (h : Holds t v (values ++ [last])) :
    ∃ v', v.takeLast t = some (v', last) ∧ Holds t v' values := by
  obtain ⟨rest, hdata⟩ := h.stored
  have hsize := h.size_eq
  have hle := h.size_le
  rw [length_append, length_singleton] at hsize
  rw [Slots.objects_append, List.append_assoc] at hdata
  have hat : v.mSize - 1 = (Slots.objects values).length := by
    rw [Slots.length_objects, hsize]
    rfl
  have htake : Slots.destroy t.isTrivial
      (Slots.moveFrom t.isTrivial v.data (v.mSize - 1)) (v.mSize - 1) =
        some (Slots.objects values ++ Slots.left t.isTrivial .relocated last :: rest) := by
    rw [hdata]
    exact @Slots.takeFrom_append α t.isTrivial .relocated last (Slots.objects values) rest
      (v.mSize - 1) hat
  have hvalue : Slots.valueAt v.data (v.mSize - 1) = some last := by
    rw [hdata]
    exact Slots.valueAt_append hat
  rw [Vector.takeLast, if_neg (by omega), hvalue, bind_eq_bind, bind_some]
  dsimp only
  rw [htake]
  refine ⟨_, rfl, h.store ?_ ?_ (by omega)⟩
  · rw [hdata, length_append, length_append]
    rfl
  · rw [hat, Slots.length_objects]

theorem Holds.takeFirst {first : α} (h : Holds t v (first :: values)) :
    ∃ v', v.takeFirst t = some (v', first) ∧ Holds t v' values := by
  obtain ⟨rest, hdata⟩ := h.stored
  have hsize := h.size_eq
  have hle := h.size_le
  rw [length_cons] at hsize
  have hmoved : Slots.moveFrom t.isTrivial v.data 0 =
      Slots.left t.isTrivial .moved first :: (Slots.objects values ++ rest) := by
    rw [hdata]
    exact some.inj (@Slots.takeFrom_append α t.isTrivial .moved first []
      (Slots.objects values ++ rest) 0 rfl)
  have hexists : (Slots.left t.isTrivial .moved first).exists = true := by
    cases t.isTrivial with
    | true => rfl
    | false => rfl
  have hvalue : Slots.valueAt v.data 0 = some first := by
    rw [hdata]
    rfl
  obtain ⟨gap, hgap, hremove⟩ := @remove_spec α t
    (v.withData (Slots.moveFrom t.isTrivial v.data 0)) values [] rest
    (Slots.left t.isTrivial .moved first) (by rw [withData_mSize, hsize, length_nil]; omega)
    (by rw [withData_data, hmoved]; rfl) hexists
  rw [nil_append, withData_withData, withData_mSize, length_nil] at hremove
  rw [Vector.takeFirst, if_neg (by omega), hvalue, bind_eq_bind, bind_some]
  rw [hremove]
  refine ⟨_, rfl, h.store ?_ ?_ (by omega)⟩
  · simp only [hdata, length_append, Slots.length_objects, length_cons, hgap]
    omega
  · rw [hsize]
    rfl

end Literate.AK.Vector

import Mathlib.Data.List.Induction

/-!
# Foundation: storage with objects

A buffer is a list of slots, each with an object, with an object that was moved from, or
with none.  The operations on it are partial: there is nothing outside of the buffer, only
an object is read, and only an object is destroyed.  A trivial object is its bytes: moving
it is copying it, and destroying it does nothing.
-/

namespace Literate.Foundation

open List Option

variable {α : Type}

/-- What is in a slot. -/
inductive Slot (α : Type) where
  | raw
  | object (value : α)
  | moved
  deriving DecidableEq, Repr

/-- Is there an object, with or without its value? -/
def Slot.exists : Slot α → Bool
  | .raw => false
  | .object _ => true
  | .moved => true

/-- A buffer. -/
abbrev Slots (α : Type) := List (Slot α)

/-- What happens to an object whose value is taken. -/
inductive Source where
  | copied
  | moved
  | relocated
  deriving DecidableEq, Repr

variable {slot : Slot α}

namespace Slots

/-- The slots of some objects. -/
def objects (values : List α) : Slots α := values.map .object

/-- The value of the object in a slot. -/
def valueAt (buffer : Slots α) (i : Nat) : Option α :=
  match buffer[i]? with
  | some (.object value) => some value
  | _ => none

/-- A new object in a slot. -/
def construct (buffer : Slots α) (i : Nat) (value : α) : Option (Slots α) :=
  if i < buffer.length then some (buffer.set i (.object value)) else none

/-- An object is moved from. -/
def moveFrom (trivial : Bool) (buffer : Slots α) (i : Nat) : Slots α :=
  if trivial then buffer else buffer.set i .moved

/-- An object is destroyed. -/
def destroy (trivial : Bool) (buffer : Slots α) (i : Nat) : Option (Slots α) :=
  if trivial then some buffer
  else if (buffer[i]?.map Slot.exists).getD false then some (buffer.set i .raw)
  else none

/-- The slot of an object whose value was taken. -/
def takeFrom (trivial : Bool) (source : Source) (buffer : Slots α) (i : Nat) : Option (Slots α) :=
  match source with
  | .copied => some buffer
  | .moved => some (moveFrom trivial buffer i)
  | .relocated => destroy trivial (moveFrom trivial buffer i) i

/-- The bytes of `count` slots, whatever is in them. -/
def memmove (target : Slots α) (dest : Nat) (buffer : Slots α) (start count : Nat) :
    Option (Slots α) :=
  if start + count ≤ buffer.length ∧ dest + count ≤ target.length then
    some (target.take dest ++ (buffer.drop start).take count ++ target.drop (dest + count))
  else none

/-! ## Loops -/

/-- Objects of one buffer to slots of another, in the order of the slots or against it. -/
def transfer (trivial : Bool) (source : Source) (backward : Bool) :
    (count : Nat) → (target : Slots α) → (dest : Nat) → (buffer : Slots α) → (start : Nat) →
      Option (Slots α × Slots α)
  | 0, target, _, buffer, _ => some (target, buffer)
  | count + 1, target, dest, buffer, start => do
      let i := if backward then count else 0
      let value ← valueAt buffer (start + i)
      let target ← construct target (dest + i) value
      let buffer ← takeFrom trivial source buffer (start + i)
      let next := if backward then 0 else 1
      transfer trivial source backward count target (dest + next) buffer (start + next)

/-- An object to another slot of its buffer. -/
def shift (trivial : Bool) (source : Source) (buffer : Slots α) (dest i : Nat) : Option (Slots α) := do
  let value ← valueAt buffer i
  let buffer ← construct buffer dest value
  takeFrom trivial source buffer i

/-- The `count` objects from `start` on, `width` slots up, the last one first. -/
def shiftUp (trivial : Bool) (source : Source) (width start : Nat) :
    (count : Nat) → Slots α → Option (Slots α)
  | 0, buffer => some buffer
  | count + 1, buffer => do
      let buffer ← shift trivial source buffer (start + count + width) (start + count)
      shiftUp trivial source width start count buffer

/-- The `count` objects from `start` on, `width` slots down, the first one first. -/
def shiftDown (trivial : Bool) (source : Source) (width : Nat) :
    (start count : Nat) → Slots α → Option (Slots α)
  | _, 0, buffer => some buffer
  | start, count + 1, buffer => do
      let buffer ← shift trivial source buffer (start - width) start
      shiftDown trivial source width (start + 1) count buffer

/-- The objects of `count` slots are destroyed. -/
def destroyFrom (trivial : Bool) : (start count : Nat) → Slots α → Option (Slots α)
  | _, 0, buffer => some buffer
  | start, count + 1, buffer => do
      let buffer ← destroy trivial buffer start
      destroyFrom trivial (start + 1) count buffer

/-- New objects of one value in `count` slots. -/
def fill (value : α) : (start count : Nat) → Slots α → Option (Slots α)
  | _, 0, buffer => some buffer
  | start, count + 1, buffer => do
      let buffer ← construct buffer start value
      fill value (start + 1) count buffer

/-! ## What is in the slots afterwards -/

/-- What is left of an object whose value was taken. -/
def left (trivial : Bool) (source : Source) (value : α) : Slot α :=
  match source with
  | .copied => .object value
  | .moved => if trivial then .object value else .moved
  | .relocated => if trivial then .object value else .raw

@[simp] theorem length_objects (values : List α) : (objects values).length = values.length :=
  length_map _

@[simp] theorem objects_nil : objects ([] : List α) = [] := rfl

@[simp] theorem objects_cons (value : α) (values : List α) :
    objects (value :: values) = .object value :: objects values := rfl

@[simp] theorem objects_append (values values' : List α) :
    objects (values ++ values') = objects values ++ objects values' :=
  map_append

theorem append_objects_concat (pre : Slots α) (values : List α) (value : α) (post : Slots α) :
    pre ++ objects (values ++ [value]) ++ post = pre ++ objects values ++ .object value :: post := by
  simp only [objects_append, objects_cons, objects_nil, List.append_assoc, singleton_append]

variable {trivial : Bool} {source : Source} {value : α} {pre post : Slots α} {i : Nat}

theorem valueAt_append (hi : i = pre.length) :
    valueAt (pre ++ .object value :: post) i = some value := by
  rw [valueAt, hi, List.getElem?_append_right (Nat.le_refl _), Nat.sub_self,
    List.getElem?_cons_zero]

theorem construct_append (hi : i = pre.length) :
    construct (pre ++ slot :: post) i value = some (pre ++ .object value :: post) := by
  have hlt : i < (pre ++ slot :: post).length := by
    rw [length_append, length_cons]
    omega
  rw [construct, if_pos hlt, hi, set_append_right _ _ (Nat.le_refl _), Nat.sub_self,
    set_cons_zero]

theorem destroy_append (hi : i = pre.length) (hslot : slot.exists = true) :
    ∃ slot', destroy trivial (pre ++ slot :: post) i = some (pre ++ slot' :: post) := by
  cases trivial with
  | true => exact ⟨slot, rfl⟩
  | false =>
    refine ⟨.raw, ?_⟩
    have hexists : ((pre ++ slot :: post)[i]?.map Slot.exists).getD false = true := by
      rw [hi, List.getElem?_append_right (Nat.le_refl _), Nat.sub_self, List.getElem?_cons_zero,
        map_some, getD_some, hslot]
    rw [destroy, if_neg Bool.false_ne_true, if_pos hexists, hi,
      set_append_right _ _ (Nat.le_refl _), Nat.sub_self, set_cons_zero]

theorem takeFrom_append (hi : i = pre.length) :
    takeFrom trivial source (pre ++ .object value :: post) i =
      some (pre ++ left trivial source value :: post) := by
  have hset : ∀ slot slot' : Slot α, (pre ++ slot :: post).set i slot' = pre ++ slot' :: post := by
    intro slot slot'
    rw [hi, set_append_right _ _ (Nat.le_refl _), Nat.sub_self, set_cons_zero]
  cases source with
  | copied => rfl
  | moved =>
    cases trivial with
    | true => rfl
    | false =>
      rw [takeFrom, moveFrom, if_neg Bool.false_ne_true, hset]
      rfl
  | relocated =>
    cases trivial with
    | true => rfl
    | false =>
      have hexists : ((pre ++ Slot.moved :: post)[i]?.map Slot.exists).getD false = true := by
        rw [hi, List.getElem?_append_right (Nat.le_refl _), Nat.sub_self, List.getElem?_cons_zero]
        rfl
      simp only [takeFrom, moveFrom, if_neg Bool.false_ne_true, hset, destroy, if_pos hexists]
      rfl

/-- An object to a slot above it. -/
theorem shift_up {mid : Slots α} {dest : Nat} (hi : i = pre.length)
    (hdest : dest = i + 1 + mid.length) :
    shift trivial source (pre ++ .object value :: (mid ++ slot :: post)) dest i =
      some (pre ++ left trivial source value :: (mid ++ .object value :: post)) := by
  have hsplit : ∀ object slot : Slot α, pre ++ object :: (mid ++ slot :: post) =
      (pre ++ object :: mid) ++ slot :: post := by
    intro object slot
    rw [List.append_assoc, List.cons_append]
  have hlength : dest = (pre ++ Slot.object value :: mid).length := by
    rw [length_append, length_cons]
    omega
  rw [shift, valueAt_append hi, bind_eq_bind, bind_some, hsplit,
    construct_append hlength, bind_eq_bind, bind_some, ← hsplit, takeFrom_append hi]

/-- An object to a slot below it. -/
theorem shift_down {mid : Slots α} {dest : Nat} (hdest : dest = pre.length)
    (hi : i = dest + 1 + mid.length) :
    shift trivial source (pre ++ slot :: (mid ++ .object value :: post)) dest i =
      some (pre ++ .object value :: (mid ++ left trivial source value :: post)) := by
  have hsplit : ∀ slot object : Slot α, pre ++ slot :: (mid ++ object :: post) =
      (pre ++ slot :: mid) ++ object :: post := by
    intro slot object
    rw [List.append_assoc, List.cons_append]
  have hlength : ∀ slot : Slot α, i = (pre ++ slot :: mid).length := by
    intro slot
    rw [length_append, length_cons]
    omega
  rw [shift, hsplit, valueAt_append (hlength slot), bind_eq_bind, bind_some, ← hsplit,
    construct_append hdest, bind_eq_bind, bind_some, hsplit,
    takeFrom_append (hlength _), ← hsplit]

theorem exists_split {buffer : Slots α} (h : i < buffer.length) :
    ∃ pre slot post, buffer = pre ++ slot :: post ∧ pre.length = i ∧ buffer.drop (i + 1) = post := by
  refine ⟨buffer.take i, buffer[i], buffer.drop (i + 1), ?_, length_take_of_le (by omega), rfl⟩
  rw [getElem_cons_drop, take_append_drop]

variable {trivial backward : Bool} {source : Source} {values : List α}
  {pre mid post rest tpre tmid tpost : Slots α} {start count width dest : Nat}

/-- Moving objects up leaves a gap below them. -/
theorem shiftUp_spec (hstart : start = pre.length) (hcount : count = values.length)
    (hwidth : 0 < width) (hrest : width ≤ rest.length) : ∃ gap, gap.length = width ∧
      shiftUp trivial source width start count (pre ++ objects values ++ rest) =
        some (pre ++ gap ++ objects values ++ rest.drop width) := by
  induction values using List.reverseRecOn generalizing count rest with
  | nil =>
    subst hcount
    refine ⟨rest.take width, length_take_of_le hrest, ?_⟩
    simp only [objects_nil, append_nil, List.append_assoc, take_append_drop]
    rfl
  | append_singleton values value ih =>
    rw [length_append, length_singleton] at hcount
    subst hcount
    obtain ⟨below, slot, above, hsplit, hbelow, habove⟩ :=
      exists_split (Nat.lt_of_lt_of_le (Nat.sub_lt hwidth Nat.one_pos) hrest)
    have hwidth' : width - 1 + 1 = width := by omega
    rw [hwidth'] at habove
    have hi : start + values.length = (pre ++ objects values).length := by
      rw [length_append, length_objects]
      omega
    have hdest : start + values.length + width = start + values.length + 1 + below.length := by
      omega
    have hrest' : width ≤ (left trivial source value :: (below ++ .object value :: above)).length := by
      rw [length_cons, length_append]
      omega
    obtain ⟨gap, hgap, hshift⟩ := ih rfl hrest'
    refine ⟨gap, hgap, ?_⟩
    have hbuffer : pre ++ objects (values ++ [value]) ++ rest =
        pre ++ objects values ++ .object value :: (below ++ slot :: above) := by
      rw [hsplit, append_objects_concat]
    have hdrop : (left trivial source value :: (below ++ .object value :: above)).drop width =
        .object value :: above := by
      rw [← hwidth', drop_succ_cons, ← hbelow, drop_left]
    rw [shiftUp, hbuffer, shift_up hi hdest, bind_eq_bind, bind_some, hshift, hdrop,
      habove, append_objects_concat]

/-- Moving objects down closes a gap below them and leaves one above. -/
theorem shiftDown_spec {hole : Slots α} (hstart : start = pre.length + hole.length)
    (hcount : count = values.length) (hwidth : width = hole.length) (hpos : 0 < width) :
    ∃ gap, gap.length = width ∧
      shiftDown trivial source width start count (pre ++ hole ++ objects values ++ rest) =
        some (pre ++ objects values ++ gap ++ rest) := by
  induction values generalizing count pre hole start with
  | nil =>
    subst hcount
    refine ⟨hole, hwidth.symm, ?_⟩
    simp only [objects_nil, append_nil]
    rfl
  | cons value values ih =>
    subst hcount
    cases hole with
    | nil => exact absurd hpos (by rw [hwidth]; exact Nat.lt_irrefl 0)
    | cons slot hole =>
      rw [length_cons] at hstart hwidth
      have hbuffer : pre ++ slot :: hole ++ objects (value :: values) ++ rest =
          pre ++ slot :: (hole ++ .object value :: (objects values ++ rest)) := by
        simp only [objects_cons, List.append_assoc, List.cons_append]
      have hnext : pre ++ .object value :: (hole ++ left trivial source value ::
          (objects values ++ rest)) = (pre ++ [.object value]) ++
            (hole ++ [left trivial source value]) ++ objects values ++ rest := by
        rw [List.append_assoc, List.append_assoc, List.append_assoc, List.append_assoc,
          singleton_append, singleton_append]
      have hstart' : start + 1 = (pre ++ [Slot.object value]).length +
          (hole ++ [left trivial source value]).length := by
        simp only [length_append, length_singleton]
        omega
      have hwidth' : width = (hole ++ [left trivial source value]).length := by
        rw [length_append, length_singleton]
        omega
      obtain ⟨gap, hgap, hshift⟩ := ih hstart' rfl hwidth'
      refine ⟨gap, hgap, ?_⟩
      rw [length_cons, shiftDown, hbuffer, shift_down (by omega) (by omega),
        bind_eq_bind, bind_some, hnext, hshift, objects_cons,
        List.append_assoc pre, singleton_append]

/-- What is left of objects whose values were taken. -/
def leftovers (trivial : Bool) (source : Source) (values : List α) : Slots α :=
  values.map (left trivial source)

theorem transfer_forward (target buffer : Slots α) :
    transfer trivial source false (count + 1) target dest buffer start = (do
      let value ← valueAt buffer start
      let target ← construct target dest value
      let buffer ← takeFrom trivial source buffer start
      transfer trivial source false count target (dest + 1) buffer (start + 1)) := rfl

theorem transfer_backward (target buffer : Slots α) :
    transfer trivial source true (count + 1) target dest buffer start = (do
      let value ← valueAt buffer (start + count)
      let target ← construct target (dest + count) value
      let buffer ← takeFrom trivial source buffer (start + count)
      transfer trivial source true count target dest buffer start) := rfl

/-- Moving objects to another buffer, in either order. -/
theorem transfer_spec (hdest : dest = tpre.length) (htmid : tmid.length = values.length)
    (hstart : start = pre.length) (hcount : count = values.length) :
    transfer trivial source backward count (tpre ++ tmid ++ tpost) dest
        (pre ++ objects values ++ post) start =
      some (tpre ++ objects values ++ tpost,
        pre ++ leftovers trivial source values ++ post) := by
  cases backward with
  | false =>
    induction values generalizing count dest start tpre tmid pre with
    | nil =>
      subst hcount
      rw [length_eq_zero_iff.mp htmid]
      rfl
    | cons value values ih =>
      subst hcount
      cases tmid with
      | nil => exact absurd htmid.symm (Nat.succ_ne_zero _)
      | cons slot tmid =>
        have hdest' : dest + 1 = (tpre ++ [Slot.object value]).length := by
          rw [length_append, length_singleton, hdest]
        have hstart' : start + 1 = (pre ++ [left trivial source value]).length := by
          rw [length_append, length_singleton, hstart]
        have hnext := ih hdest' (Nat.succ.inj htmid) hstart' rfl
        simp only [leftovers, List.append_assoc, nil_append, List.cons_append] at hnext
        simp only [leftovers, objects_cons, map_cons, List.append_assoc, List.cons_append,
          length_cons]
        simp only [transfer_forward, valueAt_append hstart, bind_eq_bind, bind_some,
          construct_append hdest, takeFrom_append hstart, hnext]
  | true =>
    induction values using List.reverseRecOn generalizing count tmid tpost post with
    | nil =>
      subst hcount
      rw [length_eq_zero_iff.mp htmid]
      rfl
    | append_singleton values value ih =>
      rw [length_append, length_singleton] at hcount htmid
      subst hcount
      rcases eq_nil_or_concat tmid with rfl | ⟨slots, slot, rfl⟩
      · exact absurd htmid.symm (Nat.succ_ne_zero _)
      rw [concat_eq_append] at htmid ⊢
      rw [length_append, length_singleton, Nat.add_right_cancel_iff] at htmid
      have hi : start + values.length = (pre ++ objects values).length := by
        rw [length_append, length_objects, hstart]
      have hj : dest + values.length = (tpre ++ slots).length := by rw [length_append, htmid, hdest]
      have hnext := @ih (left trivial source value :: post) slots (.object value :: tpost)
        values.length htmid rfl
      have htarget : tpre ++ (slots ++ [slot]) ++ tpost = tpre ++ slots ++ slot :: tpost := by simp
      simp only [htarget, append_objects_concat, transfer_backward, valueAt_append hi, bind_eq_bind,
        bind_some, construct_append hj, takeFrom_append hi, hnext]
      simp only [leftovers, map_append, map_cons, map_nil, List.append_assoc,
        singleton_append]

/-- Moving the first objects of a buffer to the front of another. -/
theorem transfer_front (htmid : tmid.length = values.length) (hcount : count = values.length) :
    transfer trivial source backward count (tmid ++ tpost) 0 (objects values ++ post) 0 =
      some (objects values ++ tpost, leftovers trivial source values ++ post) :=
  @transfer_spec α trivial backward source values [] post [] tmid tpost 0 count 0 rfl htmid rfl
    hcount

/-- Destroying objects leaves a gap. -/
theorem destroyFrom_spec (hstart : start = pre.length) (hcount : count = mid.length)
    (hmid : ∀ slot ∈ mid, slot.exists = true) : ∃ gap, gap.length = count ∧
      destroyFrom trivial start count (pre ++ mid ++ post) = some (pre ++ gap ++ post) := by
  induction mid generalizing count start pre with
  | nil =>
    subst hcount
    exact ⟨[], rfl, rfl⟩
  | cons slot mid ih =>
    subst hcount
    obtain ⟨slot', hslot'⟩ : ∃ slot', destroy trivial (pre ++ slot :: (mid ++ post)) start =
        some (pre ++ slot' :: (mid ++ post)) :=
      destroy_append hstart (hmid slot mem_cons_self)
    have hstart' : start + 1 = (pre ++ [slot']).length := by
      rw [length_append, length_singleton, hstart]
    obtain ⟨gap, hgap, hnext⟩ := ih hstart' rfl fun s hs => hmid s (mem_cons_of_mem _ hs)
    refine ⟨slot' :: gap, by simp only [length_cons, hgap], ?_⟩
    simp only [List.append_assoc, List.cons_append, nil_append] at hnext hslot' ⊢
    rw [length_cons, destroyFrom, hslot', bind_eq_bind, bind_some, hnext]

theorem fill_spec {value : α} (hstart : start = pre.length) (hcount : count = mid.length) :
    fill value start count (pre ++ mid ++ post) =
      some (pre ++ objects (List.replicate count value) ++ post) := by
  induction mid generalizing count start pre with
  | nil =>
    subst hcount
    rfl
  | cons slot mid ih =>
    subst hcount
    have hstart' : start + 1 = (pre ++ [Slot.object value]).length := by
      rw [length_append, length_singleton, hstart]
    have hnext := ih hstart' rfl
    simp only [List.append_assoc, List.cons_append, nil_append] at hnext ⊢
    rw [length_cons, fill, construct_append hstart, bind_eq_bind, bind_some,
      hnext, List.replicate_succ, objects_cons, List.cons_append]

/-! ## Moving bytes -/

/-- Slots to another buffer. -/
theorem memmove_spec (hdest : dest = tpre.length) (htmid : tmid.length = mid.length)
    (hstart : start = pre.length) (hcount : count = mid.length) :
    memmove (tpre ++ tmid ++ tpost) dest (pre ++ mid ++ post) start count =
      some (tpre ++ mid ++ tpost) := by
  subst hdest hstart hcount
  have hfits : pre.length + mid.length ≤ (pre ++ mid ++ post).length ∧
      tpre.length + mid.length ≤ (tpre ++ tmid ++ tpost).length := by
    simp only [length_append]
    omega
  have hdrop : (tpre ++ tmid ++ tpost).drop (tpre.length + mid.length) = tpost := by
    rw [← htmid, ← length_append, drop_left]
  rw [memmove, if_pos hfits, hdrop, List.append_assoc tpre, take_left, List.append_assoc pre,
    drop_left, take_left]

/-- Slots up in their own buffer, over the ends of each other. -/
theorem memmove_up (hstart : start = pre.length) (hcount : count = mid.length)
    (hdest : dest = start + width) (hrest : width ≤ rest.length) : ∃ gap, gap.length = width ∧
      memmove (pre ++ mid ++ rest) dest (pre ++ mid ++ rest) start count =
        some (pre ++ gap ++ mid ++ rest.drop width) := by
  subst hstart hcount hdest
  have hfits : pre.length + mid.length ≤ (pre ++ mid ++ rest).length ∧
      pre.length + width + mid.length ≤ (pre ++ mid ++ rest).length := by
    simp only [length_append]
    omega
  have hends : (pre ++ mid ++ rest).drop (pre.length + width + mid.length) = rest.drop width := by
    rw [Nat.add_right_comm, ← length_append, drop_length_add_append]
  have hgap : ((mid ++ rest).take width).length = width := by
    apply length_take_of_le
    rw [length_append]
    omega
  refine ⟨(mid ++ rest).take width, hgap, ?_⟩
  rw [memmove, if_pos hfits, hends, List.append_assoc pre, take_length_add_append,
    drop_left, take_left]

/-- Slots down in their own buffer, over the ends of each other. -/
theorem memmove_down {hole : Slots α} (hstart : start = pre.length + hole.length)
    (hcount : count = mid.length) (hdest : dest = pre.length) : ∃ gap, gap.length = hole.length ∧
      memmove (pre ++ hole ++ mid ++ rest) dest (pre ++ hole ++ mid ++ rest) start count =
        some (pre ++ mid ++ gap ++ rest) := by
  subst hstart hcount hdest
  have hfits : pre.length + hole.length + mid.length ≤ (pre ++ hole ++ mid ++ rest).length ∧
      pre.length + mid.length ≤ (pre ++ hole ++ mid ++ rest).length := by
    simp only [length_append]
    omega
  have hgap : ((hole ++ mid).drop mid.length).length = hole.length := by
    rw [length_drop, length_append]
    omega
  have hbefore : (pre ++ hole ++ mid ++ rest).take pre.length = pre := by
    simp only [List.append_assoc, take_left]
  have hmid : ((pre ++ hole ++ mid ++ rest).drop (pre.length + hole.length)).take mid.length =
      mid := by
    rw [List.append_assoc, ← length_append, drop_left, take_left]
  have hends : (pre ++ hole ++ mid ++ rest).drop (pre.length + mid.length) =
      (hole ++ mid).drop mid.length ++ rest := by
    have hle : mid.length ≤ (hole ++ mid).length := by
      rw [length_append]
      omega
    simp only [List.append_assoc pre, drop_length_add_append, drop_append_of_le_length hle]
  refine ⟨(hole ++ mid).drop mid.length, hgap, ?_⟩
  rw [memmove, if_pos hfits, hbefore, hmid, hends, ← List.append_assoc]

end Slots

end Literate.Foundation

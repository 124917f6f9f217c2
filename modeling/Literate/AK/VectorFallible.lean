import Literate.AK.VectorProgram
import Literate.AK.Types

/-!
# AK: vectors when memory runs out

The fallible operations of `AK/Vector.h`, with an allocator that may have no memory.  What
they do when it has is what they do in `AK.Vector`; what they leave when it has not is the
state at their early return.
-/

namespace Literate.AK

open Foundation Option
open Function (update)

variable {α σ τ : Type}

/-- What a fallible operation returns, and the state that it leaves. -/
inductive Attempt (σ : Type) where
  | ok (state : σ)
  | error (errno : Errno) (state : σ)
  deriving Repr

namespace Attempt

def map (f : σ → τ) : Attempt σ → Attempt τ
  | .ok state => .ok (f state)
  | .error errno state => .error errno (f state)

/-- `TRY`: the rest of the operation, unless there is an error. -/
def andThen (attempt : Option (Attempt σ)) (rest : σ → Option σ) : Option (Attempt σ) :=
  attempt.bind fun
    | .ok state => (rest state).map .ok
    | .error errno state => some (.error errno state)

theorem andThen_eq_error {attempt : Option (Attempt σ)} {rest : σ → Option σ} {errno : Errno}
    {state : σ} (h : andThen attempt rest = some (.error errno state)) :
    attempt = some (.error errno state) := by
  unfold andThen at h
  cases attempt with
  | none => cases h
  | some attempt =>
    cases attempt with
    | ok state' =>
      rw [bind_some] at h
      obtain ⟨_, -, hok⟩ := map_eq_some_iff.mp h
      cases hok
    | error errno' state' => exact h

end Attempt

/-! ## One vector -/

namespace FallibleVector

variable (t : VectorType α) (allocates : Nat → Bool)

def tryEnsureCapacity (v : Vector α) (neededCapacity : Nat) : Option (Attempt (Vector α)) :=
  if neededCapacity ≤ v.mCapacity then some (.ok v)
  else
    let newCapacity := t.kmallocGoodSize (neededCapacity * t.elementSize % 2 ^ 64) / t.elementSize
    -- `kmalloc_array`
    if 2 ^ 64 ≤ newCapacity * t.elementSize then none
    else if allocates (newCapacity * t.elementSize) then
      (v.tryEnsureCapacity t neededCapacity).map .ok
    else some (.error .enomem v)

def tryGrowCapacity (v : Vector α) (neededCapacity : Nat) : Option (Attempt (Vector α)) :=
  if neededCapacity ≤ v.mCapacity then some (.ok v)
  else tryEnsureCapacity t allocates v (Vector.paddedCapacity neededCapacity)

def tryResize (v : Vector α) (newSize : Nat) (keepCapacity : Bool) : Option (Attempt (Vector α)) :=
  if newSize ≤ v.mSize then (v.shrink t newSize keepCapacity).map .ok
  else
    Attempt.andThen (tryEnsureCapacity t allocates v newSize) fun v => do
      let buffer ← Slots.fill t.defaultValue v.mSize (newSize - v.mSize) v.data
      return { v.withData buffer with mSize := newSize }

/-- `try_append` of a value. -/
def tryAppend (v : Vector α) (value : α) : Option (Attempt (Vector α)) :=
  Attempt.andThen (tryGrowCapacity t allocates v (v.mSize + 1)) fun v => do
    let buffer ← Slots.construct v.data v.mSize value
    return { v.withData buffer with mSize := v.mSize + 1 }

/-- `try_append` of `count` values. -/
def tryAppendValues (v : Vector α) (values : List α) : Option (Attempt (Vector α)) :=
  if values.length = 0 then some (.ok v)
  else
    Attempt.andThen (tryGrowCapacity t allocates v (v.mSize + values.length)) fun v => do
      let buffer ← t.copy v.data v.mSize (Slots.objects values) 0 values.length
      return { v.withData buffer with mSize := v.mSize + values.length }

def tryInsert (v : Vector α) (index : Nat) (value : α) : Option (Attempt (Vector α)) :=
  if v.mSize < index then some (.error .einval v)
  else if index = v.mSize then tryAppend t allocates v value
  else
    Attempt.andThen (tryGrowCapacity t allocates v (v.mSize + 1)) fun v => do
      let buffer ←
        if t.isTrivial then t.moveWithin v.data (index + 1) index (v.mSize + 1 - index - 1)
        else Slots.shiftUp t.isTrivial .relocated 1 index (v.mSize - index) v.data
      let buffer ← Slots.construct buffer index value
      return { v.withData buffer with mSize := v.mSize + 1 }

/-- `try_prepend` of a value. -/
def tryPrepend (v : Vector α) (value : α) : Option (Attempt (Vector α)) :=
  tryInsert t allocates v 0 value

/-- `try_prepend` of `count` values. -/
def tryPrependValues (v : Vector α) (values : List α) : Option (Attempt (Vector α)) :=
  if values.length = 0 then some (.ok v)
  else
    Attempt.andThen (tryGrowCapacity t allocates v (v.mSize + values.length)) fun v => do
      let buffer ← t.moveWithin v.data values.length 0 v.mSize
      let buffer ← t.copy buffer 0 (Slots.objects values) 0 values.length
      return { v.withData buffer with mSize := v.mSize + values.length }

end FallibleVector

/-! ## Vectors of a program -/

/-- A call of a fallible operation on the vector `this`. -/
inductive FallibleOp (α : Type) where
  | append (this : Nat) (value : α)
  | appendValues (this : Nat) (values : List α)
  | insert (this index : Nat) (value : α)
  | prepend (this : Nat) (value : α)
  | prependValues (this : Nat) (values : List α)
  | extend (this other : Nat)
  | extendMove (this other : Nat)
  | prependMove (this other : Nat)
  | resize (this newSize : Nat) (keepCapacity : Bool)
  | ensureCapacity (this neededCapacity : Nat)
  | growCapacity (this neededCapacity : Nat)
  deriving DecidableEq, Repr

/-- The one call that moves its argument before it has the room. -/
def FallibleOp.MovesFirst : FallibleOp α → Prop
  | .extendMove _ _ => True
  | _ => False

variable {neededCapacity : Nat}

namespace FallibleStore

variable (t : VectorType α) (allocates : Nat → Bool)

/-- What an operation of one vector does to the vectors of the program. -/
def put (store : Store α) (this : Nat) (attempt : Option (Attempt (Vector α))) :
    Option (Attempt (Store α)) :=
  attempt.map (Attempt.map (update store this))

/-- `try_grow_capacity` of a vector. -/
def grow (store : Store α) (this neededCapacity : Nat) : Option (Attempt (Store α)) :=
  put store this (FallibleVector.tryGrowCapacity t allocates (store this) neededCapacity)

/-- `try_extend` by a copy. -/
def tryExtend (store : Store α) (this other : Nat) : Option (Attempt (Store α)) :=
  Attempt.andThen (grow t allocates store this ((store this).mSize + (store other).mSize))
    fun store => do
      let v := store this
      let buffer ← t.copy v.data v.mSize (store other).data 0 (store other).mSize
      return update store this
        { v.withData buffer with mSize := v.mSize + (store other).mSize }

/-- `try_extend` by a vector that is moved from.  The destructor of `tmp` clears it, on the
early return too. -/
def tryExtendMove (store : Store α) (this other : Nat) : Option (Attempt (Store α)) :=
  if (store this).mSize = 0 ∧ (store this).mCapacity ≤ (store other).mCapacity then
    (Store.moveAssign t store this other).map .ok
  else do
    let otherSize := (store other).mSize
    let (tmp, w) ← Vector.moveConstruct t (Vector.inlineStorage t) (store other)
    let store := update store other w
    match ← grow t allocates store this ((store this).mSize + otherSize) with
    | .error errno store => do
        let _ ← tmp.clear t
        return .error errno store
    | .ok store => do
        let v := store this
        let (buffer, tmpBuffer) ← t.move v.data v.mSize tmp.data 0 otherSize
        let _ ← (tmp.withData tmpBuffer).clear t
        return .ok (update store this
          { v.withData buffer with mSize := v.mSize + otherSize })

/-- `try_prepend` of a vector that is moved from. -/
def tryPrependMove (store : Store α) (this other : Nat) : Option (Attempt (Store α)) :=
  if (store other).mSize = 0 then some (.ok store)
  else if (store this).mSize = 0 then (Store.moveAssign t store this other).map .ok
  else
    let otherSize := (store other).mSize
    Attempt.andThen (grow t allocates store this ((store this).mSize + otherSize))
      fun store => do
        let v := store this
        let buffer ← Slots.shiftUp t.isTrivial .relocated otherSize 0 v.mSize v.data
        let store := update store this (v.withData buffer)
        let (tmp, w) ← Vector.moveConstruct t (Vector.inlineStorage t) (store other)
        let store := update store other w
        let v := store this
        let (buffer, tmpBuffer) ← t.move v.data 0 tmp.data 0 tmp.mSize
        let _ ← (tmp.withData tmpBuffer).clear t
        return update store this { v.withData buffer with mSize := v.mSize + otherSize }

/-- A call. -/
def perform (store : Store α) : FallibleOp α → Option (Attempt (Store α))
  | .append this value => put store this (FallibleVector.tryAppend t allocates (store this) value)
  | .appendValues this values =>
    put store this (FallibleVector.tryAppendValues t allocates (store this) values)
  | .insert this index value =>
    put store this (FallibleVector.tryInsert t allocates (store this) index value)
  | .prepend this value => put store this (FallibleVector.tryPrepend t allocates (store this) value)
  | .prependValues this values =>
    put store this (FallibleVector.tryPrependValues t allocates (store this) values)
  | .extend this other => tryExtend t allocates store this other
  | .extendMove this other => tryExtendMove t allocates store this other
  | .prependMove this other => tryPrependMove t allocates store this other
  | .resize this newSize keepCapacity =>
    put store this (FallibleVector.tryResize t allocates (store this) newSize keepCapacity)
  | .ensureCapacity this neededCapacity =>
    put store this (FallibleVector.tryEnsureCapacity t allocates (store this) neededCapacity)
  | .growCapacity this neededCapacity => grow t allocates store this neededCapacity

/-! ## When there is none -/

section

variable {t allocates} {v v' : Vector α} {errno : Errno}

theorem tryEnsureCapacity_error
    (h : FallibleVector.tryEnsureCapacity t allocates v neededCapacity = some (.error errno v')) :
    v' = v := by
  unfold FallibleVector.tryEnsureCapacity at h
  split at h
  · cases h
  dsimp only at h
  split at h
  · cases h
  split at h
  · obtain ⟨_, -, hok⟩ := map_eq_some_iff.mp h
    cases hok
  · cases h
    rfl

/-- A vector that cannot grow has no room, and is left as it is. -/
theorem tryGrowCapacity_error
    (h : FallibleVector.tryGrowCapacity t allocates v neededCapacity = some (.error errno v')) :
    v' = v ∧ v.mCapacity < neededCapacity := by
  unfold FallibleVector.tryGrowCapacity at h
  split at h
  · cases h
  · next hlt => exact ⟨tryEnsureCapacity_error h, Nat.lt_of_not_le hlt⟩

theorem andThen_grow_error {rest : Vector α → Option (Vector α)}
    (h : Attempt.andThen (FallibleVector.tryGrowCapacity t allocates v neededCapacity) rest =
      some (.error errno v')) : v' = v :=
  (tryGrowCapacity_error (Attempt.andThen_eq_error h)).1

theorem tryAppendValues_error {values : List α}
    (h : FallibleVector.tryAppendValues t allocates v values = some (.error errno v')) :
    v' = v := by
  unfold FallibleVector.tryAppendValues at h
  split at h
  · cases h
  · exact andThen_grow_error h

theorem tryInsert_error {index : Nat} {value : α}
    (h : FallibleVector.tryInsert t allocates v index value = some (.error errno v')) : v' = v := by
  unfold FallibleVector.tryInsert at h
  split at h
  · cases h
    rfl
  split at h
  · exact andThen_grow_error h
  · exact andThen_grow_error h

theorem tryPrependValues_error {values : List α}
    (h : FallibleVector.tryPrependValues t allocates v values = some (.error errno v')) :
    v' = v := by
  unfold FallibleVector.tryPrependValues at h
  split at h
  · cases h
  · exact andThen_grow_error h

theorem tryResize_error {newSize : Nat} {keepCapacity : Bool}
    (h : FallibleVector.tryResize t allocates v newSize keepCapacity = some (.error errno v')) :
    v' = v := by
  unfold FallibleVector.tryResize at h
  split at h
  · obtain ⟨_, -, hok⟩ := map_eq_some_iff.mp h
    cases hok
  · exact tryEnsureCapacity_error (Attempt.andThen_eq_error h)

variable {store store' : Store α} {this other : Nat}

/-- An error leaves the vectors alone that leaves its vector alone. -/
theorem put_error {attempt : Option (Attempt (Vector α))}
    (hvector : ∀ v', attempt = some (.error errno v') → v' = store this)
    (h : put store this attempt = some (.error errno store')) : store' = store := by
  obtain ⟨attempt', hattempt, hmap⟩ := map_eq_some_iff.mp h
  cases attempt' with
  | ok v' => cases hmap
  | error errno' v' =>
    cases hmap
    rw [hvector v' hattempt, Function.update_eq_self]

theorem grow_error (h : grow t allocates store this neededCapacity = some (.error errno store')) :
    store' = store ∧ (store this).mCapacity < neededCapacity := by
  refine ⟨put_error (fun v' hv' => (tryGrowCapacity_error hv').1) h, ?_⟩
  obtain ⟨attempt, hattempt, hmap⟩ := map_eq_some_iff.mp h
  cases attempt with
  | ok v' => cases hmap
  | error errno' v' => exact (tryGrowCapacity_error hattempt).2

theorem moveConstruct_left {inlineBuffer : Slots α} {tmp w : Vector α}
    (h : Vector.moveConstruct t inlineBuffer v = some (tmp, w)) : w.mSize = 0 := by
  unfold Vector.moveConstruct at h
  split at h
  · obtain ⟨buffers, -, hmoved⟩ := bind_eq_some_iff.mp h
    cases hmoved
    rfl
  · cases h
    rfl

/-- The vector that was to be moved from has been, when there is no room for its elements. -/
theorem tryExtendMove_error
    (h : tryExtendMove t allocates store this other = some (.error errno store')) :
    ∃ w : Vector α, w.mSize = 0 ∧ store' = update store other w ∧
      (store' this).mCapacity < (store' this).mSize + (store other).mSize := by
  unfold tryExtendMove at h
  split at h
  · obtain ⟨_, -, hok⟩ := map_eq_some_iff.mp h
    cases hok
  · obtain ⟨⟨tmp, w⟩, hmove, h⟩ := bind_eq_some_iff.mp h
    obtain ⟨attempt, hgrow, h⟩ := bind_eq_some_iff.mp h
    cases attempt with
    | ok grown =>
      obtain ⟨moved, -, h⟩ := bind_eq_some_iff.mp h
      obtain ⟨cleared, -, h⟩ := bind_eq_some_iff.mp h
      cases h
    | error errno' grown =>
      obtain ⟨cleared, -, h⟩ := bind_eq_some_iff.mp h
      cases h
      obtain ⟨rfl, hroom⟩ := grow_error hgrow
      exact ⟨w, moveConstruct_left hmove, rfl, hroom⟩

theorem tryPrependMove_error
    (h : tryPrependMove t allocates store this other = some (.error errno store')) :
    store' = store := by
  unfold tryPrependMove at h
  split at h
  · cases h
  split at h
  · obtain ⟨_, -, hok⟩ := map_eq_some_iff.mp h
    cases hok
  · exact (grow_error (Attempt.andThen_eq_error h)).1

/-- Every other call leaves all vectors as they are when it returns an error. -/
theorem perform_error {call : FallibleOp α} (hcall : ¬ call.MovesFirst)
    (h : perform t allocates store call = some (.error errno store')) : store' = store := by
  cases call with
  | append this value => exact put_error (fun _ => andThen_grow_error) h
  | appendValues this values => exact put_error (fun _ => tryAppendValues_error) h
  | insert this index value => exact put_error (fun _ => tryInsert_error) h
  | prepend this value => exact put_error (fun _ => tryInsert_error) h
  | prependValues this values => exact put_error (fun _ => tryPrependValues_error) h
  | extend this other => exact (grow_error (Attempt.andThen_eq_error h)).1
  | extendMove this other => exact absurd trivial hcall
  | prependMove this other => exact tryPrependMove_error h
  | resize this newSize keepCapacity => exact put_error (fun _ => tryResize_error) h
  | ensureCapacity this neededCapacity => exact put_error (fun _ => tryEnsureCapacity_error) h
  | growCapacity this neededCapacity => exact (grow_error h).1

/-- Every vector has the elements, the size and the capacity that it had. -/
def Unchanged (store store' : Store α) : Prop :=
  ∀ name, (store' name).elements = (store name).elements ∧
    (store' name).mSize = (store name).mSize ∧ (store' name).mCapacity = (store name).mCapacity

/-- A call that returns `ENOMEM` leaves the vectors unchanged exactly when it is not the
`try_extend` that moves its argument. -/
theorem unchanged_iff (hsize : ∀ name, (store name).mSize ≤ (store name).mCapacity)
    {call : FallibleOp α} (h : perform t allocates store call = some (.error .enomem store')) :
    Unchanged store store' ↔ ¬ call.MovesFirst := by
  constructor
  · intro hunchanged hmoves
    cases call with
    | extendMove this other =>
      obtain ⟨w, hw, hstore', hroom⟩ := tryExtendMove_error h
      have hother : (store' other).mSize = 0 := by rw [hstore', Function.update_self, hw]
      have hempty : (store other).mSize = 0 := (hunchanged other).2.1.symm.trans hother
      have hthis := hsize this
      rw [hempty, Nat.add_zero, (hunchanged this).2.1, (hunchanged this).2.2] at hroom
      omega
    | _ => exact hmoves
  · intro hcall name
    rw [perform_error hcall h]
    exact ⟨rfl, rfl, rfl⟩

end

/-- A vector of one number, with no room for another. -/
def single (value : Nat) : Vector Nat :=
  { mSize := 1
    mCapacity := 1
    mInlineBuffer := []
    mOutlineBuffer := some [.object value] }

theorem holds_single (value : Nat) : Vector.Holds (Store.numbers 0) (single value) [value] where
  size_eq := rfl
  size_le := Nat.le_refl 1
  inline_length := rfl
  outline_length := fun buffer hbuffer => by cases hbuffer; rfl
  inline_le := nofun
  bounded := (by decide : 1 * 8 < 2 ^ 64)
  stored := ⟨[], rfl⟩

/-- There is no room to append to a single number. -/
theorem unchanged_iff_append :
    Unchanged (fun name => single name) (update (fun name => single name) 0 (single 0)) ↔
      ¬ (FallibleOp.append 0 7).MovesFirst :=
  have hfull : perform (Store.numbers 0) (fun _ => false) (fun name => single name)
      (.append 0 7) = some (.error .enomem
        (update (fun name => single name) 0 (single 0))) := rfl
  unchanged_iff (fun _ => Nat.le_refl 1) hfull

/-- A vector that is to be put behind another one is lost when there is no memory. -/
theorem not_unchanged_extendMove :
    ¬ ∀ (t : VectorType Nat) (allocates : Nat → Bool) (store store' : Store Nat)
        (lists : Nat → List Nat) (call : FallibleOp Nat), Store.Refines t store lists →
      perform t allocates store call = some (.error .enomem store') → Unchanged store store' := by
  intro h
  have hrefines : Store.Refines (Store.numbers 0) (fun name => single name) fun name => [name] :=
    holds_single
  have hunchanged := h (Store.numbers 0) (fun _ => false) _ _ _ (.extendMove 0 1) hrefines rfl
  exact absurd (hunchanged 1).2.1 (by decide)

end FallibleStore

end Literate.AK

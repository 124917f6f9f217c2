import Mathlib.Logic.Function.Basic
import Literate.Foundation.Slots
import Mathlib.Algebra.Group.Nat.Defs

/-!
# AK: vectors

`Vector` of `AK/Vector.h` and `TypedTransfer` of `AK/TypedTransfer.h`, on storage that
faults when a slot outside of a buffer is used, when something is read that is not an
object, and when something is destroyed that is not one.  Allocation succeeds.  The vectors
of a program are in a store, so that an operation may be given a vector as its own argument.
-/

namespace Literate.AK

open Foundation
open Slots (memmove transfer shiftUp valueAt)
open Function (update)

variable {α : Type}

/-- `Vector<T, inline_capacity>`, with the size of a `T` and what `Traits` says of it.
`backward` is the order of the addresses of two different buffers. -/
structure VectorType (α : Type) where
  inlineCapacity : Nat
  isTrivial : Bool
  elementSize : Nat
  kmallocGoodSize : Nat → Nat
  backward : Bool
  defaultValue : α

/-- The inline buffer, and the buffer that is used in its place when there is one. -/
structure Vector (α : Type) where
  mSize : Nat
  mCapacity : Nat
  mInlineBuffer : Slots α
  mOutlineBuffer : Option (Slots α)
  deriving Repr

/-! ## `TypedTransfer` -/

namespace VectorType

variable (t : VectorType α)

/-- `TypedTransfer::move` to another buffer. -/
def move (target : Slots α) (dest : Nat) (buffer : Slots α) (start count : Nat) :
    Option (Slots α × Slots α) :=
  if count = 0 then some (target, buffer)
  else if t.isTrivial then
    (memmove target dest buffer start count).map fun target => (target, buffer)
  else transfer t.isTrivial .moved t.backward count target dest buffer start

/-- `TypedTransfer::move` in one buffer, where the direction is that of the slots. -/
def moveWithin (buffer : Slots α) (dest start count : Nat) : Option (Slots α) :=
  if count = 0 then some buffer
  else if t.isTrivial then memmove buffer dest buffer start count
  else if dest ≤ start then
    Slots.shiftDown t.isTrivial .moved (start - dest) start count buffer
  else shiftUp t.isTrivial .moved (dest - start) start count buffer

/-- `TypedTransfer::copy` to another buffer. -/
def copy (target : Slots α) (dest : Nat) (buffer : Slots α) (start count : Nat) :
    Option (Slots α) :=
  if count = 0 then some target
  else if t.isTrivial then memmove target dest buffer start count
  else
    (transfer t.isTrivial .copied t.backward count target dest buffer start).map Prod.fst

end VectorType

/-- `TypedTransfer::copy` of trivial objects in one buffer. -/
def copyWithin (buffer : Slots α) (dest start count : Nat) : Option (Slots α) :=
  if count = 0 then some buffer else memmove buffer dest buffer start count

namespace Vector

variable (t : VectorType α)

/-! ## Capacity -/

/-- Uninitialised inline storage. -/
def inlineStorage : Slots α := List.replicate t.inlineCapacity .raw

/-- The default constructor. -/
def empty : Vector α :=
  { mSize := 0
    mCapacity := t.inlineCapacity
    mInlineBuffer := inlineStorage t
    mOutlineBuffer := none }

def data (v : Vector α) : Slots α := v.mOutlineBuffer.getD v.mInlineBuffer

/-- The vector with other contents of its buffer. -/
def withData (v : Vector α) (buffer : Slots α) : Vector α :=
  match v.mOutlineBuffer with
  | some _ => { v with mOutlineBuffer := some buffer }
  | none => { v with mInlineBuffer := buffer }

def paddedCapacity (capacity : Nat) : Nat := max 4 ((capacity + capacity / 4 + 4) % 2 ^ 64)

def tryEnsureCapacity (v : Vector α) (neededCapacity : Nat) : Option (Vector α) :=
  if neededCapacity ≤ v.mCapacity then some v
  else
    let newCapacity := t.kmallocGoodSize (neededCapacity * t.elementSize % 2 ^ 64) / t.elementSize
    -- `kmalloc_array`
    if 2 ^ 64 ≤ newCapacity * t.elementSize then none
    else do
      let newBuffer := List.replicate newCapacity .raw
      let (newBuffer, oldBuffer) ←
        if t.isTrivial then
          (t.copy newBuffer 0 v.data 0 v.mSize).map fun newBuffer => (newBuffer, v.data)
        else transfer t.isTrivial .relocated false v.mSize newBuffer 0 v.data 0
      return { v.withData oldBuffer with
        mOutlineBuffer := some newBuffer, mCapacity := newCapacity }

def tryGrowCapacity (v : Vector α) (neededCapacity : Nat) : Option (Vector α) :=
  if neededCapacity ≤ v.mCapacity then some v
  else tryEnsureCapacity t v (paddedCapacity neededCapacity)

def clearWithCapacity (v : Vector α) : Option (Vector α) := do
  let buffer ← Slots.destroyFrom t.isTrivial 0 v.mSize v.data
  return { v.withData buffer with mSize := 0 }

def clear (v : Vector α) : Option (Vector α) := do
  let v ← clearWithCapacity t v
  return { v with mOutlineBuffer := none, mCapacity := t.inlineCapacity }

def shrink (v : Vector α) (newSize : Nat) (keepCapacity : Bool) : Option (Vector α) :=
  if v.mSize < newSize then none
  else if newSize = v.mSize then some v
  else if newSize = 0 then if keepCapacity then clearWithCapacity t v else clear t v
  else do
    let buffer ← Slots.destroyFrom t.isTrivial newSize (v.mSize - newSize) v.data
    return { v.withData buffer with mSize := newSize }

def tryResize (v : Vector α) (newSize : Nat) (keepCapacity : Bool) : Option (Vector α) :=
  if newSize ≤ v.mSize then shrink t v newSize keepCapacity
  else do
    let v ← tryEnsureCapacity t v newSize
    let buffer ← Slots.fill t.defaultValue v.mSize (newSize - v.mSize) v.data
    return { v.withData buffer with mSize := newSize }

/-! ## Elements in -/

/-- `try_append` of a value. -/
def tryAppend (v : Vector α) (value : α) : Option (Vector α) := do
  let v ← tryGrowCapacity t v (v.mSize + 1)
  let buffer ← Slots.construct v.data v.mSize value
  return { v.withData buffer with mSize := v.mSize + 1 }

/-- `try_append` of `count` values. -/
def tryAppendValues (v : Vector α) (values : List α) : Option (Vector α) :=
  if values.length = 0 then some v
  else do
    let v ← tryGrowCapacity t v (v.mSize + values.length)
    let buffer ← t.copy v.data v.mSize (Slots.objects values) 0 values.length
    return { v.withData buffer with mSize := v.mSize + values.length }

/-- `try_insert`.  An index after the end is an error, which `insert` does not accept. -/
def tryInsert (v : Vector α) (index : Nat) (value : α) : Option (Vector α) :=
  if v.mSize < index then none
  else if index = v.mSize then tryAppend t v value
  else do
    let v ← tryGrowCapacity t v (v.mSize + 1)
    let buffer ←
      if t.isTrivial then t.moveWithin v.data (index + 1) index (v.mSize + 1 - index - 1)
      else shiftUp t.isTrivial .relocated 1 index (v.mSize - index) v.data
    let buffer ← Slots.construct buffer index value
    return { v.withData buffer with mSize := v.mSize + 1 }

/-- `try_prepend` of a value. -/
def tryPrepend (v : Vector α) (value : α) : Option (Vector α) := tryInsert t v 0 value

/-- `try_prepend` of `count` values. -/
def tryPrependValues (v : Vector α) (values : List α) : Option (Vector α) :=
  if values.length = 0 then some v
  else do
    let v ← tryGrowCapacity t v (v.mSize + values.length)
    let buffer ← t.moveWithin v.data values.length 0 v.mSize
    let buffer ← t.copy buffer 0 (Slots.objects values) 0 values.length
    return { v.withData buffer with mSize := v.mSize + values.length }

/-! ## Elements out -/

/-- `remove` of one element. -/
def remove (v : Vector α) (index : Nat) : Option (Vector α) :=
  if v.mSize ≤ index then none
  else do
    let buffer ←
      if t.isTrivial then copyWithin v.data index (index + 1) (v.mSize - index - 1)
      else do
        let buffer ← Slots.destroy t.isTrivial v.data index
        Slots.shiftDown t.isTrivial .relocated 1 (index + 1) (v.mSize - index - 1) buffer
    return { v.withData buffer with mSize := v.mSize - 1 }

/-- `remove` of `count` elements. -/
def removeCount (v : Vector α) (index count : Nat) : Option (Vector α) :=
  if count = 0 then some v
  else if v.mSize < index + count then none
  else do
    let buffer ←
      if t.isTrivial then copyWithin v.data index (index + count) (v.mSize - index - count)
      else do
        let buffer ← Slots.destroyFrom t.isTrivial index count v.data
        Slots.shiftDown t.isTrivial .relocated count (index + count) (v.mSize - index - count) buffer
    return { v.withData buffer with mSize := v.mSize - count }

/-- The loop of `remove_first_matching`, with `count` elements left. -/
def removeFirstMatchingLoop (predicate : α → Bool) :
    (count i : Nat) → Vector α → Option (Vector α × Bool)
  | 0, _, v => some (v, false)
  | count + 1, i, v => do
      let value ← valueAt v.data i
      if predicate value then
        let v ← remove t v i
        return (v, true)
      else removeFirstMatchingLoop predicate count (i + 1) v

def removeFirstMatching (v : Vector α) (predicate : α → Bool) : Option (Vector α × Bool) :=
  removeFirstMatchingLoop t predicate v.mSize 0 v

/-- The loop of `remove_all_matching`, with `count` elements left. -/
def removeAllMatchingLoop (predicate : α → Bool) :
    (count i : Nat) → (somethingWasRemoved : Bool) → Vector α → Option (Vector α × Bool)
  | 0, _, somethingWasRemoved, v => some (v, somethingWasRemoved)
  | count + 1, i, somethingWasRemoved, v => do
      let value ← valueAt v.data i
      if predicate value then
        let v ← remove t v i
        removeAllMatchingLoop predicate count i true v
      else removeAllMatchingLoop predicate count (i + 1) somethingWasRemoved v

def removeAllMatching (v : Vector α) (predicate : α → Bool) : Option (Vector α × Bool) :=
  removeAllMatchingLoop t predicate v.mSize 0 false v

def takeLast (v : Vector α) : Option (Vector α × α) :=
  if v.mSize = 0 then none
  else do
    let value ← valueAt v.data (v.mSize - 1)
    let buffer := Slots.moveFrom t.isTrivial v.data (v.mSize - 1)
    let buffer ← Slots.destroy t.isTrivial buffer (v.mSize - 1)
    return ({ v.withData buffer with mSize := v.mSize - 1 }, value)

def takeFirst (v : Vector α) : Option (Vector α × α) :=
  if v.mSize = 0 then none
  else do
    let value ← valueAt v.data 0
    let v ← remove t (v.withData (Slots.moveFrom t.isTrivial v.data 0)) 0
    return (v, value)

/-! ## Other vectors -/

/-- The copy constructor. -/
def copyConstruct (other : Vector α) : Option (Vector α) := do
  let v ← tryEnsureCapacity t { empty t with mCapacity := 0 } other.mSize
  let buffer ← t.copy v.data 0 other.data 0 other.mSize
  return { v.withData buffer with mSize := other.mSize }

/-- The move constructor, into an inline buffer, and what is left of the other vector.  It is
also the body of the assignment, which clears the vector before. -/
def moveConstruct (inlineBuffer : Slots α) (other : Vector α) : Option (Vector α × Vector α) := do
  let (inlineBuffer, otherInlineBuffer) ←
    if 0 < t.inlineCapacity ∧ other.mOutlineBuffer = none then
      transfer t.isTrivial .relocated false other.mSize inlineBuffer 0 other.mInlineBuffer 0
    else some (inlineBuffer, other.mInlineBuffer)
  return (
    { mSize := other.mSize
      mCapacity := other.mCapacity
      mInlineBuffer := inlineBuffer
      mOutlineBuffer := other.mOutlineBuffer },
    { mSize := 0
      mCapacity := t.inlineCapacity
      mInlineBuffer := otherInlineBuffer
      mOutlineBuffer := none })

end Vector

/-! ## A program with vectors -/

/-- The vectors of a program by their names. -/
abbrev Store (α : Type) := Nat → Vector α

namespace Store

variable (t : VectorType α)

/-- The assignment of a vector. -/
def copyAssign (store : Store α) (this other : Nat) : Option (Store α) :=
  if this = other then some store
  else do
    let v ← (store this).clear t
    let v ← v.tryEnsureCapacity t (store other).mSize
    let buffer ← t.copy v.data 0 (store other).data 0 (store other).mSize
    return update store this { v.withData buffer with mSize := (store other).mSize }

/-- The assignment of a vector that is moved from. -/
def moveAssign (store : Store α) (this other : Nat) : Option (Store α) :=
  if this = other then some store
  else do
    let v ← (store this).clear t
    let (v, w) ← Vector.moveConstruct t v.mInlineBuffer (store other)
    return update (update store this v) other w

/-- A copy takes the place of a vector, which is destroyed. -/
def copyConstruct (store : Store α) (this other : Nat) : Option (Store α) := do
  let v ← (store other).copyConstruct t
  let _ ← (store this).clear t
  return update store this v

/-- A vector that is moved to takes the place of a vector, which is destroyed. -/
def moveConstruct (store : Store α) (this other : Nat) : Option (Store α) := do
  let (v, w) ← Vector.moveConstruct t (Vector.inlineStorage t) (store other)
  let store := update store other w
  let _ ← (store this).clear t
  return update store this v

/-- `try_extend` by a copy. -/
def tryExtend (store : Store α) (this other : Nat) : Option (Store α) := do
  let v ← (store this).tryGrowCapacity t ((store this).mSize + (store other).mSize)
  let store := update store this v
  let buffer ← t.copy v.data v.mSize (store other).data 0 (store other).mSize
  return update store this
    { v.withData buffer with mSize := v.mSize + (store other).mSize }

/-- `try_extend` by a vector that is moved from.  The destructor of `tmp` clears it. -/
def tryExtendMove (store : Store α) (this other : Nat) : Option (Store α) :=
  if (store this).mSize = 0 ∧ (store this).mCapacity ≤ (store other).mCapacity then
    moveAssign t store this other
  else do
    let otherSize := (store other).mSize
    let (tmp, w) ← Vector.moveConstruct t (Vector.inlineStorage t) (store other)
    let store := update store other w
    let v ← (store this).tryGrowCapacity t ((store this).mSize + otherSize)
    let (buffer, tmpBuffer) ← t.move v.data v.mSize tmp.data 0 otherSize
    let _ ← (tmp.withData tmpBuffer).clear t
    return update store this { v.withData buffer with mSize := v.mSize + otherSize }

/-- `try_prepend` of a vector that is moved from. -/
def tryPrependMove (store : Store α) (this other : Nat) : Option (Store α) :=
  if (store other).mSize = 0 then some store
  else if (store this).mSize = 0 then moveAssign t store this other
  else do
    let otherSize := (store other).mSize
    let v ← (store this).tryGrowCapacity t ((store this).mSize + otherSize)
    let buffer ← shiftUp t.isTrivial .relocated otherSize 0 v.mSize v.data
    let store := update store this (v.withData buffer)
    let (tmp, w) ← Vector.moveConstruct t (Vector.inlineStorage t) (store other)
    let store := update store other w
    let v := store this
    let (buffer, tmpBuffer) ← t.move v.data 0 tmp.data 0 tmp.mSize
    let _ ← (tmp.withData tmpBuffer).clear t
    return update store this { v.withData buffer with mSize := v.mSize + otherSize }

end Store

end Literate.AK

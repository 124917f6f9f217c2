import Literate.Foundation.Run
import Mathlib.Logic.Function.Basic
import Mathlib.Algebra.Group.Nat.Defs

/-!
# AK: fly strings

`FlyString` of `AK/FlyString.cpp` over `StringImpl` of `AK/StringImpl.cpp`, with the reference
counts that decide when an implementation is destroyed.  An address is a number, and the heap
says which implementation is there.  The table is the list of its elements: a lookup by a hash
meets every element of that hash, so that the predicate alone decides what it finds.
-/

namespace Literate.AK.FlyString

open Foundation

/-! ## String implementations -/

/-- `StringImpl`; its length is that of its characters. -/
structure StringImpl where
  characters : List UInt8
  mHash : UInt32
  mHasHash : Bool
  mFly : Bool
  mRefCount : Nat
  deriving DecidableEq, Repr

/-- One turn of the loop of `string_hash`. -/
def stringHashTurn (toU32 : UInt8 → UInt32) (hash : UInt32) (character : UInt8) : UInt32 :=
  let hash := hash + toU32 character
  let hash := hash + (hash <<< 10)
  hash ^^^ (hash >>> 6)

/-- `string_hash`; `toU32` converts a `char`, which the compiler may take as signed or not. -/
def stringHash (toU32 : UInt8 → UInt32) (characters : List UInt8) (seed : UInt32) : UInt32 :=
  let hash := characters.foldl (stringHashTurn toU32) seed
  let hash := hash + (hash >>> 3)
  let hash := hash ^^^ (hash >>> 11)
  hash + (hash <<< 15)

namespace StringImpl

/-- `StringImpl(ConstructTheEmptyStringImpl)`. -/
def constructTheEmptyStringImpl : StringImpl where
  characters := []
  mHash := 0
  mHasHash := false
  mFly := true
  mRefCount := 1

/-- `StringImpl(ConstructWithInlineBuffer, length)`, and the characters copied there. -/
def constructWithInlineBuffer (characters : List UInt8) : StringImpl where
  characters := characters
  mHash := 0
  mHasHash := false
  mFly := false
  mRefCount := 1

/-- The hash of a text, as `compute_hash` has it. -/
def hashOf (toU32 : UInt8 → UInt32) (characters : List UInt8) : UInt32 :=
  if characters.length = 0 then 0 else stringHash toU32 characters 0

def computeHash (toU32 : UInt8 → UInt32) (impl : StringImpl) : StringImpl :=
  { impl with
    mHash := hashOf toU32 impl.characters
    mHasHash := true }

/-- `hash`, which keeps what it computes; it answers the `existing_hash` of the result. -/
def hash (toU32 : UInt8 → UInt32) (impl : StringImpl) : StringImpl :=
  if impl.mHasHash then impl else impl.computeHash toU32

end StringImpl

/-! ## The store -/

/-- The implementations, the two globals, and the `String`s and `FlyString`s that are alive;
`none` is the null one. -/
structure Store where
  heap : Nat → Option StringImpl
  sTheEmptyStringimpl : Option Nat
  sTable : List Nat
  strings : List (Option Nat)
  flyStrings : List (Option Nat)

namespace Store

/-- Before the first string. -/
def start : Store where
  heap := fun _ => none
  sTheEmptyStringimpl := none
  sTable := []
  strings := []
  flyStrings := []

def contents (s : Store) (a : Nat) : Option (List UInt8) := (s.heap a).map (·.characters)

/-- `is_fly` of the implementation at `a`, which is alive. -/
def isFly (s : Store) (a : Nat) : Bool := (s.heap a).any (·.mFly)

/-- The implementation at `a`, changed. -/
def modify (s : Store) (a : Nat) (f : StringImpl → StringImpl) : Store :=
  { s with heap := Function.update s.heap a ((s.heap a).map f) }

/-- `impl` at `a`. -/
def place (s : Store) (a : Nat) (impl : StringImpl) : Store :=
  { s with heap := Function.update s.heap a (some impl) }

/-- `kfree_sized`. -/
def free (s : Store) (a : Nat) : Store := { s with heap := Function.update s.heap a none }

/-! ### The table -/

def equals (s : Store) (a b : Nat) : Bool := decide (s.contents a = s.contents b)

def find (table : List Nat) (predicate : Nat → Bool) : List Nat × Option Nat :=
  (table, table.find? predicate)

def set (s : Store) (table : List Nat) (value : Nat) : List Nat × Unit :=
  if table.any (s.equals · value) then
    (table.map fun other => if s.equals other value then value else other, ())
  else (table ++ [value], ())

def remove (s : Store) (table : List Nat) (value : Nat) : List Nat × Bool :=
  (table.eraseP (s.equals value), table.any (s.equals value))

/-- `fly_impls`, which answers by value: the copy constructor of the table. -/
def flyImpls (s : Store) : List Nat := s.sTable.foldl (fun copy it => (s.set copy it).1) []

/-- A call on what `fly_impls` answers.  What the call makes of that copy goes away with it at
the end of the expression, and `*s_table` is as it was. -/
def onFlyImpls {β : Type} (s : Store) (call : List Nat → List Nat × β) : Store × β :=
  (s, (call s.flyImpls).2)

def didDestroyImpl (s : Store) (impl : Nat) : Store :=
  (s.onFlyImpls fun flyImpls => s.remove flyImpls impl).1

/-! ### Reference counts -/

def ref (s : Store) (a : Nat) : Option Store :=
  (s.heap a).bind fun impl =>
    if 0 < impl.mRefCount ∧ impl.mRefCount + 1 < 2 ^ 32 then
      some (s.modify a fun impl => { impl with mRefCount := impl.mRefCount + 1 })
    else none

/-- `~StringImpl`, and `operator delete`. -/
def delete (s : Store) (a : Nat) : Store :=
  if s.isFly a then (s.didDestroyImpl a).free a else s.free a

def unref (s : Store) (a : Nat) : Option Store :=
  (s.heap a).bind fun impl =>
    if impl.mRefCount = 0 then none
    else if impl.mRefCount - 1 = 0 then some (s.delete a)
    else some (s.modify a fun impl => { impl with mRefCount := impl.mRefCount - 1 })

/-- The copy of a `RefPtr`. -/
def refIfNotNull (s : Store) : Option Nat → Option Store
  | none => some s
  | some a => s.ref a

/-- `~RefPtr`. -/
def unrefIfNotNull (s : Store) : Option Nat → Option Store
  | none => some s
  | some a => s.unref a

/-! ### Constructors -/

/-- `the_empty_stringimpl`; `slot` is what `kmalloc` answers if it is asked. -/
def theEmptyStringimpl (s : Store) (slot : Nat) : Option (Store × Nat) :=
  match s.sTheEmptyStringimpl with
  | some a => some (s, a)
  | none =>
    if s.heap slot = none then
      some ({ s.place slot .constructTheEmptyStringImpl with sTheEmptyStringimpl := some slot }, slot)
    else none

/-- `StringImpl::create(cstring, length)`, and so `String(StringView)` and `to_string`. -/
def create (s : Store) (cstring : Option (List UInt8)) (slot : Nat) : Option (Store × Option Nat) :=
  match cstring with
  | none => some (s, none)
  | some [] => (s.theEmptyStringimpl slot).bind fun (s, a) => (s.ref a).map fun s => (s, some a)
  | some (c :: cs) =>
    -- `kmalloc` answers no address that is in use
    if s.heap slot = none then
      some (s.place slot (.constructWithInlineBuffer (c :: cs)), some slot)
    else none

/-- `m_impl = impl`. -/
def assign (s : Store) (impl : Nat) : Option (Store × Option Nat) :=
  (s.ref impl).map fun s => (s, some impl)

/-- What the constructors of `FlyString` do with an implementation that is not in the table. -/
def enter (toU32 : UInt8 → UInt32) (s : Store) (impl : Nat) : Option (Store × Option Nat) :=
  let s := s.modify impl (·.hash toU32)
  let s := (s.onFlyImpls fun flyImpls => s.set flyImpls impl).1
  let s := s.modify impl fun impl => { impl with mFly := true }
  s.assign impl

/-- `FlyString(String const&)`. -/
def flyOfString (toU32 : UInt8 → UInt32) (s : Store) : Option Nat → Option (Store × Option Nat)
  | none => some (s, none)
  | some impl =>
    if s.isFly impl then s.assign impl
    else
      let s := s.modify impl (·.hash toU32)
      match (s.onFlyImpls fun flyImpls => find flyImpls (s.equals impl)).2 with
      | none => s.enter toU32 impl
      | some it => if s.isFly it then s.assign it else none

/-- `FlyString(StringView)`. -/
def flyOfView (toU32 : UInt8 → UInt32) (s : Store) (view : Option (List UInt8)) (slot : Nat) :
    Option (Store × Option Nat) :=
  match view with
  | none => some (s, none)
  | some characters =>
    let found := (s.onFlyImpls fun flyImpls =>
      find flyImpls fun candidate => decide (s.contents candidate = some characters)).2
    match found with
    | none =>
      (s.create (some characters) slot).bind fun (s, newString) =>
        newString.bind fun impl =>
          (s.enter toU32 impl).bind fun (s, mImpl) =>
            -- `new_string` goes out of scope
            (s.unref impl).map fun s => (s, mImpl)
    | some it => if s.isFly it then s.assign it else none

end Store

/-! ## Programs -/

/-- What a program does with strings.  The number is the position of the string that is used
among those alive, and `slot` is what `kmalloc` answers. -/
inductive Event where
  /-- `String(StringView)` -/
  | string (view : Option (List UInt8)) (slot : Nat)
  /-- `String(String const&)` -/
  | copyString (i : Nat)
  /-- `String(FlyString const&)` -/
  | stringOfFly (i : Nat)
  /-- `~String` -/
  | dropString (i : Nat)
  /-- `FlyString(String const&)` -/
  | flyOfString (i : Nat)
  /-- `FlyString(StringView)` -/
  | flyOfView (view : Option (List UInt8)) (slot : Nat)
  /-- `FlyString(FlyString const&)` -/
  | copyFly (i : Nat)
  /-- `~FlyString` -/
  | dropFly (i : Nat)
  deriving Repr

namespace Store

/-- A `String` more. -/
def pushString (s : Store) (impl : Option Nat) : Store := { s with strings := s.strings ++ [impl] }

/-- A `FlyString` more. -/
def pushFly (s : Store) (impl : Option Nat) : Store :=
  { s with flyStrings := s.flyStrings ++ [impl] }

def eraseString (s : Store) (i : Nat) : Store := { s with strings := s.strings.eraseIdx i }

def eraseFly (s : Store) (i : Nat) : Store := { s with flyStrings := s.flyStrings.eraseIdx i }

/-- One construction or destruction; `none` when it cannot happen or an assertion fails. -/
def step (toU32 : UInt8 → UInt32) (s : Store) : Event → Option Store
  | .string view slot => (s.create view slot).map fun (s, impl) => s.pushString impl
  | .copyString i => s.strings[i]?.bind fun impl => (s.refIfNotNull impl).map (·.pushString impl)
  | .stringOfFly i =>
    s.flyStrings[i]?.bind fun impl => (s.refIfNotNull impl).map (·.pushString impl)
  | .dropString i => s.strings[i]?.bind fun impl => (s.eraseString i).unrefIfNotNull impl
  | .flyOfString i =>
    s.strings[i]?.bind fun impl => (s.flyOfString toU32 impl).map fun (s, impl) => s.pushFly impl
  | .flyOfView view slot => (s.flyOfView toU32 view slot).map fun (s, impl) => s.pushFly impl
  | .copyFly i => s.flyStrings[i]?.bind fun impl => (s.refIfNotNull impl).map (·.pushFly impl)
  | .dropFly i => s.flyStrings[i]?.bind fun impl => (s.eraseFly i).unrefIfNotNull impl

/-! ## What interning promises -/

/-- Two fly strings that are alive and not null have one implementation when their contents are
equal. -/
def Shared (s : Store) : Prop :=
  ∀ a b, some a ∈ s.flyStrings → some b ∈ s.flyStrings → s.contents a = s.contents b → a = b

/-- Equal contents are shared, different ones are not, and the table has the implementations
that are alive and marked. -/
structure Interned (s : Store) : Prop where
  shared : s.Shared
  distinct : ∀ a b, some a ∈ s.flyStrings → some b ∈ s.flyStrings →
    s.contents a ≠ s.contents b → a ≠ b
  table : ∀ a, a ∈ s.sTable ↔ s.isFly a

end Store

end Literate.AK.FlyString

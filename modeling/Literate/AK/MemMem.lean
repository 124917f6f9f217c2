import Mathlib.Data.List.Basic
import Mathlib.Algebra.Group.Nat.Defs
import Mathlib.Algebra.Group.Int.Defs

/-!
# AK: search over chunks

`memmem` of `AK/MemMem.h` for a haystack in chunks.  The indices into the needle are of
type `int`; `none` is an index out of range, an `int` that overflows, or an exhausted
`fuel`.
-/

namespace Literate.AK

namespace MemMem

/-- The largest value of an `int`. -/
def intMax : Int := 2 ^ 31 - 1

/-- `++index` of an `int`. -/
def increment (index : Int) : Option Int := if index < intMax then some (index + 1) else none

/-- `span[index]` for an index of type `int`. -/
def at? {β : Type*} (span : List β) (index : Int) : Option β :=
  if 0 ≤ index then span[index.toNat]? else none

/-- The `do … while` of `prepare_kmp_partial_table`. -/
def fallBack (needle : List UInt8) (table : List Int) (position : Nat) : Nat → Int → Option Int
  | 0, _ => none
  | fuel + 1, candidate => do
      let candidate ← at? table candidate
      if 0 ≤ candidate then
        let there ← at? needle candidate
        let here ← needle[position]?
        if there ≠ here then fallBack needle table position fuel candidate else some candidate
      else some candidate

/-- One pass through the `while` of `prepare_kmp_partial_table`. -/
def tableStep (needle : List UInt8) (table : List Int) (position : Nat) (candidate : Int) :
    Option (List Int × Int) := do
  let here ← needle[position]?
  let there ← at? needle candidate
  if here = there then
    let entry ← at? table candidate
    some (table.set position entry, ← increment candidate)
  else
    let table := table.set position candidate
    let candidate ← fallBack needle table position (needle.length + 1) candidate
    some (table, ← increment candidate)

/-- The `while` of `prepare_kmp_partial_table`, of which `remaining` passes are left. -/
def tableLoop (needle : List UInt8) :
    (remaining : Nat) → List Int → (position : Nat) → (candidate : Int) → Option (List Int)
  | 0, table, _, _ => some table
  | remaining + 1, table, position, candidate => do
      let (table, candidate) ← tableStep needle table position candidate
      tableLoop needle remaining table (position + 1) candidate

def prepareKmpPartialTable (needle : List UInt8) : Option (List Int) :=
  let table := List.replicate needle.length (0 : Int)
  if 0 < needle.length then tableLoop needle (needle.length - 1) (table.set 0 (-1)) 1 0 else none

/-- The local variables of the search. -/
structure Search where
  /-- The chunks from `haystack_it` on. -/
  haystack : List (List UInt8)
  currentHaystackIndex : Nat
  totalHaystackIndex : Nat
  needleIndex : Int

/-- How a pass through the loop of the search ends. -/
inductive Pass
  | again (s : Search)
  | found (index : Nat)

/-- One pass through the loop of the search in the chunk `chunk`. -/
def searchStep (needle : List UInt8) (table : List Int) (chunk : List UInt8) (s : Search) :
    Option Pass :=
  if chunk.length ≤ s.currentHaystackIndex then
    some (.again { s with currentHaystackIndex := 0, haystack := s.haystack.tail })
  else do
    let symbol ← at? needle s.needleIndex
    let there ← chunk[s.currentHaystackIndex]?
    if symbol = there then
      let needleIndex ← increment s.needleIndex
      if needleIndex = needle.length then
        some (.found (s.totalHaystackIndex + 1 - needleIndex.toNat))
      else
        some (.again { s with
          needleIndex := needleIndex
          currentHaystackIndex := s.currentHaystackIndex + 1
          totalHaystackIndex := s.totalHaystackIndex + 1 })
    else
      let needleIndex ← at? table s.needleIndex
      if needleIndex < 0 then
        some (.again { s with
          needleIndex := ← increment needleIndex
          currentHaystackIndex := s.currentHaystackIndex + 1
          totalHaystackIndex := s.totalHaystackIndex + 1 })
      else some (.again { s with needleIndex := needleIndex })

/-- The loop of the search. -/
def searchLoop (needle : List UInt8) (table : List Int) : Nat → Search → Option (Option Nat)
  | 0, _ => none
  | fuel + 1, s =>
    match s.haystack with
    | [] => some none
    | chunk :: _ => do
        match ← searchStep needle table chunk s with
        | .found index => some (some index)
        | .again s => searchLoop needle table fuel s

/-- A bound on the passes of the search: each leaves a chunk, moves on in the haystack,
or falls back in the needle. -/
def passes (haystack : List (List UInt8)) : Nat :=
  haystack.length + 2 * haystack.flatten.length + 1

end MemMem

open MemMem in
/-- `memmem`: the index of the needle in the chunks, if any. -/
def memmem (haystack : List (List UInt8)) (needle : List UInt8) : Option (Option Nat) := do
  let table ← prepareKmpPartialTable needle
  searchLoop needle table (passes haystack)
    { haystack := haystack, currentHaystackIndex := 0, totalHaystackIndex := 0, needleIndex := 0 }

end Literate.AK

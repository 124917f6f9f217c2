import Mathlib.Logic.Function.Basic
import Mathlib.Data.Nat.Bitwise

/-!
# Kernel: page tables of the identity map

`Kernel/Arch/aarch64/MMU.cpp` up to `build_identity_map`: the bump allocator that hands out
zeroed pages, and the loop that enters a range of physical memory into four levels of
tables.  Memory is a map from the addresses of its words; an address is below 2^48, where
nothing wraps around.
-/

namespace Literate.Kernel.MMU

abbrev granuleSize : Nat := 0x1000

abbrev pageTableSize : Nat := 0x1000

abbrev tableDescriptor : Nat := 0b11

/-- `DESCRIPTOR_MASK`, a `u32`. -/
abbrev descriptorMask : Nat := 0xfffffffc

def descriptorToPointer (descriptor : Nat) : Nat := descriptor &&& descriptorMask

/-- The words of the memory. -/
abbrev Memory := Nat → Nat

/-- A page that was taken, and the memory as it was then. -/
structure Taken where
  page : Nat
  memory : Memory

/-- The memory and the `PageBumpAllocator`, with the pages that were taken from it. -/
structure State where
  memory : Memory
  mEnd : Nat
  mCurrent : Nat
  taken : List Taken

namespace State

/-- `*address = value`. -/
def store (s : State) (address value : Nat) : State :=
  { s with memory := Function.update s.memory address value }

end State

/-- The loop of `zero_page`. -/
def zeroWords (memory : Memory) (p : Nat) : (words : Nat) → Memory
  | 0 => memory
  | words + 1 => zeroWords (Function.update memory p 0) (p + 8) words

def zeroPage (memory : Memory) (page : Nat) : Memory := zeroWords memory page (pageTableSize / 8)

/-- The constructor of `PageBumpAllocator`, which panics on an invalid range. -/
def pageBumpAllocator (memory : Memory) (start endAddr : Nat) : Option State :=
  if endAddr ≤ start then none
  else if start % pageTableSize ≠ 0 ∨ endAddr % pageTableSize ≠ 0 then none
  else some { memory, mEnd := endAddr, mCurrent := start, taken := [] }

namespace State

/-- `take_page`, which panics when the memory is exhausted. -/
def takePage (s : State) : Option (Nat × State) :=
  if s.mCurrent = s.mEnd then none
  else
    let page := s.mCurrent
    let memory := zeroPage s.memory page
    some (page, { s with
      memory, mCurrent := s.mCurrent + pageTableSize, taken := s.taken ++ [⟨page, memory⟩] })

/-- The entry of a table, with a page of its own where there is none. -/
def ensureTable (s : State) (table index : Nat) : Option State :=
  let entry := table + 8 * index
  if s.memory entry = 0 then
    (s.takePage).map fun (page, s) =>
      let s := s.store entry page
      s.store entry (s.memory entry ||| tableDescriptor)
  else some s

/-- The body of the loop of `insert_identity_entries_for_physical_memory_range`. -/
def insertEntry (s : State) (pageTable addr flags : Nat) : Option State := do
  let level0Idx := (addr >>> 39) &&& 0x1ff
  let level1Idx := (addr >>> 30) &&& 0x1ff
  let level2Idx := (addr >>> 21) &&& 0x1ff
  let level3Idx := (addr >>> 12) &&& 0x1ff
  let level1Table := pageTable
  let s ← s.ensureTable level1Table level0Idx
  let level2Table := descriptorToPointer (s.memory (level1Table + 8 * level0Idx))
  let s ← s.ensureTable level2Table level1Idx
  let level3Table := descriptorToPointer (s.memory (level2Table + 8 * level1Idx))
  let s ← s.ensureTable level3Table level2Idx
  let level4Table := descriptorToPointer (s.memory (level3Table + 8 * level2Idx))
  let l4Entry := level4Table + 8 * level3Idx
  let s := s.store l4Entry addr
  return s.store l4Entry (s.memory l4Entry ||| flags)

/-- `insert_identity_entries_for_physical_memory_range`. -/
def insertIdentityEntries (s : State) (pageTable start endAddr flags : Nat) : Option State :=
  if start < endAddr then do
    let s ← s.insertEntry pageTable start flags
    s.insertIdentityEntries pageTable (start + granuleSize) endAddr flags
  else some s
termination_by endAddr - start
decreasing_by
  rw [granuleSize]
  omega

end State

/-- A range of physical memory, with the flags of its entries. -/
structure Range where
  start : Nat
  endAddr : Nat
  flags : Nat
  deriving DecidableEq, Repr

/-- Ranges entered one after the other. -/
def State.insertRanges (s : State) (pageTable : Nat) : List Range → Option State
  | [] => some s
  | range :: ranges => do
      let s ← s.insertIdentityEntries pageTable range.start range.endAddr range.flags
      s.insertRanges pageTable ranges

/-- `build_identity_map`, for the peripherals of the machine. -/
def State.buildIdentityMap (s : State) (peripheralBaseAddress peripheralEndAddress : Nat) :
    Option State := do
  let (level1Table, s) ← s.takePage
  let normalMemoryFlags := (1 <<< 10) ||| 0b11 ||| (3 <<< 8) ||| (0 <<< 2)
  let deviceMemoryFlags := (1 <<< 10) ||| 0b11 ||| (2 <<< 8) ||| (1 <<< 2)
  let s ← s.insertIdentityEntries level1Table 0x00000000 0x3effffff normalMemoryFlags
  s.insertIdentityEntries level1Table peripheralBaseAddress peripheralEndAddress deviceMemoryFlags

/-! ## The walk of the tables -/

/-- The table of a descriptor, or nothing if it is not a valid one. -/
def nextTable (descriptor : Nat) : Option Nat :=
  if descriptor % 4 = 3 then some (descriptor / 2 ^ 12 % 2 ^ 36 * 2 ^ 12) else none

/-- The entry of a table for the bits of an address from `shift` on. -/
def entryAt (memory : Memory) (table addr shift : Nat) : Nat :=
  memory (table + 8 * (addr / 2 ^ shift % 512))

/-- The walk of the four levels: the entry of the last one, if it is reached. -/
def walk (memory : Memory) (pageTable addr : Nat) : Option Nat := do
  let level2Table ← nextTable (entryAt memory pageTable addr 39)
  let level3Table ← nextTable (entryAt memory level2Table addr 30)
  let level4Table ← nextTable (entryAt memory level3Table addr 21)
  return entryAt memory level4Table addr 12

end Literate.Kernel.MMU

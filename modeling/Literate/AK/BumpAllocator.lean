import Mathlib.Data.List.Perm.Basic
import Mathlib.Logic.Function.Basic

/-!
# AK: the bump allocator

`BumpAllocator` of `AK/BumpAllocator.h`.  `chunks` is not read by the code: it records the
chunks that `allocate_a_chunk` got.
-/

namespace Literate.AK.BumpAllocator

structure ChunkHeader where
  magic : Nat
  nextChunk : Nat

/-- `sizeof(ChunkHeader)`. -/
def headerSize : Nat := 16

/-- `explode_byte(0xdf)`. -/
def chunkMagic : Nat := 0xdfdfdfdfdfdfdfdf

/-- An allocator, the headers in memory and `s_unused_allocation_cache`. -/
structure State where
  headers : Nat → ChunkHeader
  cache : Nat
  headChunk : Nat
  currentChunk : Nat
  byteOffset : Nat
  chunks : List Nat

/-- How a call ends early: at a failed `VERIFY`, or when the fuel of the model is used up. -/
inductive Stop where
  | verifyFailed
  | outOfFuel

def verify (p : Prop) [Decidable p] : Except Stop Unit :=
  if p then .ok () else .error .verifyFailed

/-- A new allocator over the memory that is there. -/
def initially (headers : Nat → ChunkHeader) (cache : Nat) : State where
  headers := headers
  cache := cache
  headChunk := 0
  currentChunk := 0
  byteOffset := 0
  chunks := []

def alignUpTo (value alignment : Nat) : Nat := (value + alignment - 1) / alignment * alignment

-- `source` is `kmalloc` or `mmap`, by the chunks that it has given so far
variable (chunkSize : Nat) (source : List Nat → Option Nat)

def allocateAChunk (s : State) : Except Stop (Bool × State) := do
  let cached := s.cache
  let s := { s with cache := 0 }
  match if cached ≠ 0 then some cached else source s.chunks with
  | none => return (false, s)
  | some newChunk =>
    verify (s.currentChunk ≠ 0)
    let oldHeader := s.headers s.currentChunk
    verify (oldHeader.magic = chunkMagic)
    verify (oldHeader.nextChunk = 0)
    let header := { oldHeader with nextChunk := newChunk }
    return (true, { s with
      headers := Function.update s.headers s.currentChunk header
      currentChunk := newChunk
      chunks := s.chunks ++ [newChunk] })

/-- `allocate` from `allocate_agin` on; the offset stays when a chunk is added. -/
def allocateAgain (size align : Nat) : Nat → State → Except Stop (Option Nat × State)
  | 0, _ => .error .outOfFuel
  | fuel + 1, s => do
    verify (s.currentChunk ≠ 0)
    let alignedPtr := alignUpTo (s.byteOffset + s.currentChunk) align
    let nextOffset := alignedPtr + size - s.currentChunk
    if chunkSize < nextOffset then
      let (added, s) ← allocateAChunk source s
      if added then allocateAgain size align fuel s else return (none, s)
    else return (some alignedPtr, { s with byteOffset := nextOffset })

def allocate (size align fuel : Nat) (s : State) : Except Stop (Option Nat × State) := do
  verify (size < chunkSize - headerSize)
  if s.currentChunk = 0 then
    let (added, s) ← allocateAChunk source s
    if added then allocateAgain chunkSize source size align fuel s else return (none, s)
  else allocateAgain chunkSize source size align fuel s

/-- The chunks that `for_each_chunk` visits from one on. -/
def forEachChunk (s : State) : Nat → Nat → Except Stop (List Nat)
  | 0, _ => .error .outOfFuel
  | fuel + 1, headChunk =>
    if headChunk = 0 then .ok []
    else do
      let header := s.headers headChunk
      verify (header.magic = chunkMagic)
      verify (headChunk = s.currentChunk → header.nextChunk = 0)
      return headChunk :: (← forEachChunk s fuel header.nextChunk)

/-- The cache after `deallocate_all` has visited the chunks, and what it has given back; the
headers of those are not needed any more. -/
def release : Bool → Nat → List Nat → Nat × List Nat
  | _, cache, [] => (cache, [])
  | true, cache, chunk :: rest =>
    let (cache, freed) := release true cache rest
    (cache, chunk :: freed)
  | false, cache, chunk :: rest =>
    let (last, freed) := release true chunk rest
    (last, if cache = 0 then freed else cache :: freed)

/-- The chunks that are visited, the cache and the chunks that are given back. -/
def deallocateAll (s : State) (fuel : Nat) : Except Stop (List Nat × Nat × List Nat) :=
  if s.headChunk = 0 then .ok ([], s.cache, [])
  else do
    let visited ← forEachChunk s fuel s.headChunk
    return (visited, release (decide (s.cache ≠ 0)) s.cache visited)

/-- The requests, each a size and an alignment, one after the other; the blocks they get. -/
def serve (fuel : Nat) : List (Nat × Nat) → State → Except Stop (List (Option Nat) × State)
  | [], s => .ok ([], s)
  | (size, align) :: requests, s => do
    let (block, s) ← allocate chunkSize source size align fuel s
    let (blocks, s) ← serve fuel requests s
    return (block :: blocks, s)

/-- Every request gets a block of its own, and every chunk is visited once in the end. -/
def Served (requests : List (Nat × Nat)) (s : State) : Prop :=
  ∃ fuel blocks t visited cache,
    serve chunkSize source fuel requests s = .ok (blocks.map some, t) ∧
    (∀ p ∈ requests.zip blocks, p.1.2 ∣ p.2 ∧
      ∃ chunk ∈ t.chunks, chunk + headerSize ≤ p.2 ∧ p.2 + p.1.1 ≤ chunk + chunkSize) ∧
    (requests.zip blocks).Pairwise (fun p q => p.2 + p.1.1 ≤ q.2 ∨ q.2 + q.1.1 ≤ p.2) ∧
    deallocateAll t fuel = .ok (visited, cache) ∧ visited.Perm t.chunks

variable {chunkSize source}

/-- There is no chunk to which the first one could be linked. -/
theorem allocateAChunk_ne_ok {s : State} (hcurrent : s.currentChunk = 0) (t : State) :
    allocateAChunk source s ≠ .ok (true, t) := by
  intro h
  unfold allocateAChunk verify at h
  dsimp only at h
  split at h
  · cases h
  · rw [if_neg (not_not.mpr hcurrent)] at h
    cases h

theorem allocate_ne_ok {s : State} (hcurrent : s.currentChunk = 0) (size align fuel block : Nat)
    (t : State) : allocate chunkSize source size align fuel s ≠ .ok (some block, t) := by
  intro h
  unfold allocate at h
  rw [if_pos hcurrent] at h
  cases hverify : verify (size < chunkSize - headerSize) with
  | error stop =>
    rw [hverify] at h
    cases h
  | ok u =>
    rw [hverify] at h
    cases hadd : allocateAChunk source s with
    | error stop =>
      rw [hadd] at h
      cases h
    | ok result =>
      obtain ⟨added, t'⟩ := result
      rw [hadd] at h
      cases added with
      | false => cases h
      | true => exact allocateAChunk_ne_ok hcurrent t' hadd

theorem not_served_cons (headers : Nat → ChunkHeader) (cache : Nat) (request : Nat × Nat)
    (requests : List (Nat × Nat)) :
    ¬ Served chunkSize source (request :: requests) (initially headers cache) := by
  rintro ⟨fuel, blocks, t, -, -, hserve, -⟩
  unfold serve at hserve
  cases hfirst : allocate chunkSize source request.1 request.2 fuel (initially headers cache) with
  | error stop =>
    rw [hfirst] at hserve
    cases hserve
  | ok result =>
    obtain ⟨block, s⟩ := result
    cases block with
    | some block => exact allocate_ne_ok rfl _ _ _ _ _ hfirst
    | none =>
      rw [hfirst] at hserve
      cases hrest : serve chunkSize source fuel requests s with
      | error stop =>
        simp only [hrest, bind, Except.bind] at hserve
        cases hserve
      | ok rest =>
        simp only [hrest, bind, Except.bind, pure, Except.pure] at hserve
        cases blocks <;> cases hserve

/-- A new allocator serves no request at all. -/
theorem served_iff (headers : Nat → ChunkHeader) (cache : Nat) (requests : List (Nat × Nat)) :
    Served chunkSize source requests (initially headers cache) ↔ requests = [] := by
  constructor
  · intro h
    cases requests with
    | nil => rfl
    | cons request requests => exact absurd h (not_served_cons headers cache request requests)
  · rintro rfl
    exact ⟨0, [], initially headers cache, [], _, rfl, fun _ => List.not_mem_nil.elim, .nil, rfl,
      .nil⟩

/-- Eight bytes of a page. -/
theorem not_served_eight : ¬ Served 4096 (fun chunks => some (4096 * (chunks.length + 1))) [(8, 8)]
    (initially (fun _ => ⟨0, 0⟩) 0) :=
  not_served_cons (fun _ => ⟨0, 0⟩) 0 (8, 8) []

end Literate.AK.BumpAllocator

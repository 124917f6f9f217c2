import Literate.Foundation.Run

/-!
# Kernel: walking a stack

The loop `walk_stack` of `Processor::capture_stack_trace` in
`Kernel/Arch/x86/common/Processor.cpp`.  One turn of the loop is one step; its label is what the
memory answers.  `reads` is not read by the code: it records the words that were read.
-/

namespace Literate.Kernel.StackTrace

open Literate.Foundation List Nat

/-- What a turn of the loop gets: the two words, none where the access faults, and whether
`try_append` has the memory it needs. -/
structure Answer where
  retaddr : Option Nat
  appended : Bool
  next : Option Nat
  deriving DecidableEq

inductive Routine where
  | copyFromUser
  | safeMemcpy
  deriving DecidableEq

/-- A word that was read, and whether a frame in user memory had been followed by then. -/
structure Read where
  address : Nat
  routine : Routine
  isWalkingUserspaceStack : Bool
  deriving DecidableEq

structure Walk where
  stackPtr : Nat
  stackTrace : List Nat
  count : Nat
  isWalkingUserspaceStack : Bool
  finished : Bool
  reads : List Read
  deriving DecidableEq

def maxStackFrames : Nat := 4096

/-- The walk at the head of the loop. -/
def initially (stackPtr ip : Nat) : Walk where
  stackPtr := stackPtr
  stackTrace := [ip]
  count := 1
  isWalkingUserspaceStack := false
  finished := false
  reads := []

def Walk.finish (s : Walk) : Walk := { s with finished := true }

/-- A turn that goes on to the accesses. -/
def Walk.turn (s : Walk) (walking : Bool) : Walk :=
  { s with count := s.count + 1, isWalkingUserspaceStack := walking }

/-- A word that is read at an address. -/
def Walk.read (s : Walk) (address : Nat) (routine : Routine) : Walk :=
  { s with reads := s.reads ++ [⟨address, routine, s.isWalkingUserspaceStack⟩] }

variable (ceiling maxFrames : Nat)

def isUserAddress (vaddr : Nat) : Prop := vaddr < ceiling

instance (vaddr : Nat) : Decidable (isUserAddress ceiling vaddr) :=
  inferInstanceAs (Decidable (_ < _))

def isUserRange (vaddr size : Nat) : Prop := vaddr + size ≤ ceiling

instance (vaddr size : Nat) : Decidable (isUserRange ceiling vaddr size) :=
  inferInstanceAs (Decidable (_ ≤ _))

/-- The routine that reads a frame. -/
def routineFor (stackPtr : Nat) : Routine :=
  if isUserRange ceiling stackPtr (8 * 2) then .copyFromUser else .safeMemcpy

/-- The accesses of a turn, after the checks. -/
def follow (s : Walk) (a : Answer) : Walk :=
  let routine := routineFor ceiling s.stackPtr
  match a.retaddr with
  | none => s.finish
  | some retaddr =>
    let s := s.read (s.stackPtr + 8) routine
    if retaddr = 0 ∨ a.appended = false then s.finish
    else
      let s := { s with stackTrace := s.stackTrace ++ [retaddr] }
      match a.next with
      | none => s.finish
      | some stackPtr => { s.read s.stackPtr routine with stackPtr := stackPtr }

def step (s : Walk) (a : Answer) : Option Walk :=
  if s.finished then none
  else if s.stackPtr ≠ 0 ∧ s.stackTrace.length < maxStackFrames then
    let s := { s with count := s.count + 1 }
    if maxFrames ≠ 0 ∧ s.count > maxFrames then some s.finish
    else if ¬ isUserAddress ceiling s.stackPtr then
      if s.isWalkingUserspaceStack then some s.finish else some (follow ceiling s a)
    else some (follow ceiling { s with isWalkingUserspaceStack := true } a)
  else some s.finish

/-! ## One turn -/

/-- The turn gets as far as the accesses. -/
def Follows (s : Walk) : Prop :=
  s.stackPtr ≠ 0 ∧ s.stackTrace.length < maxStackFrames ∧
    (maxFrames ≠ 0 → s.count + 1 ≤ maxFrames) ∧
    (s.isWalkingUserspaceStack = true → isUserAddress ceiling s.stackPtr)

/-- Both words of the frame are in user memory, when one of them is and they are read. -/
def Fits (s : Walk) (a : Answer) : Prop :=
  s.finished = false → Follows ceiling maxFrames s → a.retaddr.isSome = true →
    isUserAddress ceiling s.stackPtr → isUserRange ceiling s.stackPtr (8 * 2)

/-- Every word that is read after a frame in user memory is in user memory. -/
def StaysUser (s : Walk) : Prop :=
  ∀ r ∈ s.reads, r.isWalkingUserspaceStack = true → isUserRange ceiling r.address 8

/-- The trace is as long as it may be, and the words are those that may be read. -/
structure Bounded (s : Walk) : Prop where
  frames : s.stackTrace.length ≤ maxStackFrames
  maximum : maxFrames ≠ 0 → s.stackTrace.length ≤ maxFrames
  user : StaysUser ceiling s

structure Inv (s : Walk) : Prop extends Bounded ceiling maxFrames s where
  count : s.stackTrace.length ≤ s.count

variable {ceiling maxFrames}
variable {s s' : Walk} {a : Answer}

theorem step_cases (h : step ceiling maxFrames s a = some s') :
    (¬ Follows ceiling maxFrames s ∧ s'.finished = true ∧ s'.stackTrace = s.stackTrace ∧
      s.count ≤ s'.count ∧ s'.reads = s.reads) ∨
    Follows ceiling maxFrames s ∧ ∃ walking,
      (walking = true → isUserAddress ceiling s.stackPtr) ∧
      (isUserAddress ceiling s.stackPtr → walking = true) ∧
      s' = follow ceiling (s.turn walking) a := by
  unfold step at h
  unfold Follows
  split at h
  · cases h
  · split at h
    · next hloop =>
      dsimp only at h
      split at h
      · next hmax =>
        cases h
        exact .inl ⟨fun hfollows => by have := hfollows.2.2.1 hmax.1; omega, rfl, rfl,
          le_succ _, rfl⟩
      · next hmax =>
        have hmaximum : maxFrames ≠ 0 → s.count + 1 ≤ maxFrames := by omega
        split at h
        · next hkernel =>
          split at h
          · next hwalking =>
            cases h
            exact .inl ⟨fun hfollows => hkernel (hfollows.2.2.2 hwalking), rfl, rfl,
              le_succ _, rfl⟩
          · next hwalking =>
            cases h
            exact .inr ⟨⟨hloop.1, hloop.2, hmaximum, fun h => absurd h hwalking⟩,
              s.isWalkingUserspaceStack, fun h => absurd h hwalking, fun h => absurd h hkernel,
              rfl⟩
        · next huser =>
          cases h
          rw [not_not] at huser
          exact .inr ⟨⟨hloop.1, hloop.2, hmaximum, fun _ => huser⟩, true, fun _ => huser,
            fun _ => rfl, rfl⟩
    · next hloop =>
      cases h
      exact .inl ⟨fun hfollows => hloop ⟨hfollows.1, hfollows.2.1⟩, rfl, rfl, Nat.le_refl _, rfl⟩

theorem follow_trace (ceiling : Nat) (s : Walk) (a : Answer) :
    (follow ceiling s a).count = s.count ∧
      ((follow ceiling s a).stackTrace.length = s.stackTrace.length + 1 ∨
        (follow ceiling s a).finished = true ∧ (follow ceiling s a).stackTrace = s.stackTrace) := by
  unfold follow
  split
  · exact ⟨rfl, .inr ⟨rfl, rfl⟩⟩
  · split
    · exact ⟨rfl, .inr ⟨rfl, rfl⟩⟩
    · split
      · exact ⟨rfl, .inl length_append⟩
      · exact ⟨rfl, .inl length_append⟩

/-- The words of the frame that a turn reads, the second one first. -/
theorem follow_reads (ceiling : Nat) (s : Walk) (a : Answer) : let word (address : Nat) : Read :=
      ⟨address, routineFor ceiling s.stackPtr, s.isWalkingUserspaceStack⟩
    (follow ceiling s a).reads = s.reads ∧ a.retaddr.isSome = false ∨
      a.retaddr.isSome = true ∧
        ((follow ceiling s a).reads = s.reads ++ [word (s.stackPtr + 8)] ∨
          (follow ceiling s a).reads =
            s.reads ++ [word (s.stackPtr + 8)] ++ [word s.stackPtr]) := by
  unfold follow
  split
  · next hnone => exact .inl ⟨rfl, by rw [hnone]; rfl⟩
  · next hsome =>
    refine .inr ⟨by rw [hsome]; rfl, ?_⟩
    split
    · exact .inl rfl
    · split
      · exact .inl rfl
      · exact .inr rfl

theorem stays_follow (h : StaysUser ceiling s)
    (hrange : a.retaddr.isSome = true → s.isWalkingUserspaceStack = true →
      isUserRange ceiling s.stackPtr (8 * 2)) : StaysUser ceiling (follow ceiling s a) := by
  intro r hr huser
  obtain ⟨hreads, -⟩ | ⟨hsome, hreads | hreads⟩ := follow_reads ceiling s a
  · exact h r (hreads ▸ hr) huser
  · rw [hreads, mem_append, mem_singleton] at hr
    obtain hr | rfl := hr
    · exact h r hr huser
    · exact hrange hsome huser
  · rw [hreads, mem_append, mem_append, mem_singleton, mem_singleton] at hr
    obtain (hr | rfl) | rfl := hr
    · exact h r hr huser
    · exact hrange hsome huser
    · exact Nat.le_trans (Nat.add_le_add_left (by decide) _) (hrange hsome huser)

theorem step_eq_none : step ceiling maxFrames s a = none ↔ s.finished = true := by
  unfold step
  split
  · next hfinished => exact iff_of_true rfl hfinished
  · next hunfinished =>
    refine iff_of_false ?_ hunfinished
    dsimp only
    split_ifs <;> exact not_false

theorem step_inv (hinv : Inv ceiling maxFrames s)
    (hfits : Fits ceiling maxFrames s a) (h : step ceiling maxFrames s a = some s') :
    Inv ceiling maxFrames s' := by
  obtain ⟨-, -, htrace, hcount, hreads⟩ | ⟨hfollows, walking, hwalking, -, rfl⟩ := step_cases h
  · refine ⟨⟨?_, ?_, ?_⟩, ?_⟩
    · exact htrace ▸ hinv.frames
    · exact htrace ▸ hinv.maximum
    · unfold StaysUser
      exact hreads ▸ hinv.user
    · exact htrace ▸ Nat.le_trans hinv.count hcount
  · have hunfinished : s.finished = false := by
      rw [Bool.eq_false_iff, Ne, ← step_eq_none (a := a), h]
      exact Option.some_ne_none _
    obtain ⟨hcount, htrace⟩ := follow_trace ceiling (s.turn walking) a
    have hle := hinv.count
    have hlt := hfollows.2.1
    have hmaximum := hfollows.2.2.1
    have hlength : (follow ceiling (s.turn walking) a).stackTrace.length ≤
        s.stackTrace.length + 1 := by
      obtain htrace | ⟨-, htrace⟩ := htrace
      · exact htrace.le
      · rw [htrace]
        exact le_succ _
    change _ = s.count + 1 at hcount
    refine ⟨⟨by omega, fun hne => ?_, stays_follow hinv.user fun hsome hwalk =>
      hfits hunfinished hfollows hsome (hwalking hwalk)⟩, by omega⟩
    omega

theorem step_bad (hfits : ¬ Fits ceiling maxFrames s a) :
    ∃ s', step ceiling maxFrames s a = some s' ∧ ¬ Bounded ceiling maxFrames s' := by
  unfold Fits at hfits
  push Not at hfits
  obtain ⟨hunfinished, hfollows, hsome, huser, hrange⟩ := hfits
  cases hstep : step ceiling maxFrames s a with
  | none =>
    rw [step_eq_none, hunfinished] at hstep
    cases hstep
  | some s' =>
    refine ⟨s', rfl, fun hbounded => ?_⟩
    obtain ⟨hnot, -⟩ | ⟨-, walking, -, hwalking, rfl⟩ := step_cases hstep
    · exact hnot hfollows
    · have hread : StaysUser ceiling _ := hbounded.user
      obtain ⟨-, hnone⟩ | ⟨-, hreads | hreads⟩ := follow_reads ceiling (s.turn walking) a
      · rw [hsome] at hnone
        cases hnone
      · exact hrange (hread _ (hreads ▸ mem_append_right _ mem_cons_self)
          (hwalking huser))
      · exact hrange (hread _ (hreads ▸ mem_append_left _
          (mem_append_right _ mem_cons_self)) (hwalking huser))

/-! ## The whole walk -/

/-- However the memory answers, the loop is left when the trace has as many frames as it may. -/
theorem finishes (left : Nat) (hinv : s.stackTrace.length ≤ maxStackFrames)
    (hleft : maxStackFrames < s.stackTrace.length + left) {answers : List Answer}
    (hanswers : left ≤ answers.length) :
    ∃ n ≤ left, ∃ t, run (step ceiling maxFrames) s (answers.take n) = some t ∧
      t.finished = true := by
  induction left generalizing s answers with
  | zero => omega
  | succ left ih =>
    obtain ⟨a, answers, rfl⟩ := List.exists_cons_of_length_pos (zero_lt_of_lt hanswers)
    cases hstep : step ceiling maxFrames s a with
    | none => exact ⟨0, Nat.zero_le _, s, rfl, step_eq_none.mp hstep⟩
    | some s' =>
      have hrun : ∀ n, run (step ceiling maxFrames) s ((a :: answers).take (n + 1)) =
          run (step ceiling maxFrames) s' (answers.take n) := fun n => by
        rw [take_succ_cons, run, hstep, Option.bind_some]
      cases hfinished : s'.finished with
      | true => exact ⟨1, by omega, s', hrun 0, hfinished⟩
      | false =>
        obtain ⟨-, hended, -⟩ | ⟨hfollows, walking, -, -, rfl⟩ := step_cases hstep
        · rw [hfinished] at hended
          cases hended
        · have hlt := hfollows.2.1
          obtain htrace | ⟨hended, -⟩ := (follow_trace ceiling (s.turn walking) a).2
          · change _ = s.stackTrace.length + 1 at htrace
            obtain ⟨n, hn, t, ht, hlast⟩ := ih (by rw [htrace]; exact hlt) (by omega)
              (le_of_succ_le_succ hanswers)
            exact ⟨n + 1, by omega, t, (hrun n).trans ht, hlast⟩
          · rw [hfinished] at hended
            cases hended

end Literate.Kernel.StackTrace

import Literate.Foundation.Run
import Mathlib.Algebra.Group.Nat.Defs
import Mathlib.Logic.Function.Basic

/-!
# Kernel: the recursive spinlock

`RecursiveSpinlock` of `Kernel/Arch/x86/common/SpinLock.cpp`, where `m_recursion` is read as
`m_recursions`.  Every access to it and to `m_lock` is one step, and the steps of the processors
interleave freely; a processor may call `unlock` without the lock.  Interrupt flags and ranks are
left out.  `depths` is not read by the code: it counts the calls to `lock` of a processor that
have returned and that no `unlock` has undone.
-/

namespace Literate.Kernel.SpinLock

open Foundation
open Function (update update_self update_of_ne)

/-- Where a processor is in `lock` or in `unlock`, with the value it has read. -/
inductive Pc where
  | out
  | compareExchange
  | increment
  | incrementFrom (recursions : Nat)
  | verifyRecursions
  | verifyLock
  | decrement
  | decrementFrom (recursions : Nat)
  | store
  | verifyFailed
  deriving DecidableEq

inductive Call where
  | lock
  | unlock

/-- `m_lock` with the processor that it points to, `m_recursions`, and the processors. -/
structure State where
  lock : Option Nat
  recursions : Nat
  pcs : Nat → Pc
  depths : Nat → Nat

def initially : State where
  lock := none
  recursions := 0
  pcs := fun _ => .out
  depths := fun _ => 0

def State.goto (s : State) (cpu : Nat) (pc : Pc) : State := { s with pcs := update s.pcs cpu pc }

/-- What a processor does next; the call is for one that is in none.  The declaration of
`m_recursions` is not in the source: it has `limit` values. -/
def step (limit : Nat) (s : State) : Nat × Call → Option State
  | (cpu, call) =>
    match s.pcs cpu with
    | .out =>
      match call with
      | .lock => some (s.goto cpu .compareExchange)
      | .unlock => some (s.goto cpu .verifyRecursions)
    | .compareExchange =>
      match s.lock with
      | none => some { s.goto cpu .increment with lock := some cpu }
      | some expected => some (if expected = cpu then s.goto cpu .increment else s)
    | .increment => some (s.goto cpu (.incrementFrom s.recursions))
    | .incrementFrom recursions => some { s.goto cpu .out with
        recursions := (recursions + 1) % limit
        depths := update s.depths cpu (s.depths cpu + 1) }
    | .verifyRecursions =>
      some (s.goto cpu (if 0 < s.recursions then .verifyLock else .verifyFailed))
    | .verifyLock => some (s.goto cpu (if s.lock = some cpu then .decrement else .verifyFailed))
    | .decrement => some (s.goto cpu (.decrementFrom s.recursions))
    | .decrementFrom recursions =>
      some { s.goto cpu (if recursions - 1 = 0 then .store else .out) with
        recursions := recursions - 1
        depths := update s.depths cpu (s.depths cpu - 1) }
    | .store => some { s.goto cpu .out with lock := none }
    | .verifyFailed => none

/-- The count has room for one more. -/
def Fits (limit : Nat) (s : State) (a : Nat × Call) : Prop :=
  match s.pcs a.1 with
  | .incrementFrom _ => s.depths a.1 + 1 < limit
  | _ => True

instance (limit : Nat) (s : State) (a : Nat × Call) : Decidable (Fits limit s a) := by
  unfold Fits
  split <;> infer_instance

/-- One processor at most has the lock, and the count is how often; `VERIFY` stops only those
that do not have it; when all have given it back it is free. -/
structure Safe (s : State) : Prop where
  exclusive : ∀ cpu other, 0 < s.depths cpu → 0 < s.depths other → cpu = other
  counted : ∀ cpu, 0 < s.depths cpu → s.pcs cpu = .out →
    s.lock = some cpu ∧ s.recursions = s.depths cpu
  verified : ∀ cpu, s.pcs cpu = .verifyFailed → s.depths cpu = 0
  released : (∀ cpu, s.pcs cpu = .out ∧ s.depths cpu = 0) → s.lock = none ∧ s.recursions = 0

/-! ## The invariant -/

/-- What holds where a processor is, by whether it has the lock. -/
def At (has : Prop) (recursions depth : Nat) : Pc → Prop
  | .out | .compareExchange | .verifyRecursions | .verifyLock =>
    (has → recursions = depth ∧ 0 < depth) ∧ (¬ has → depth = 0)
  | .increment => has ∧ recursions = depth
  | .incrementFrom read => has ∧ read = recursions ∧ recursions = depth
  | .decrement => has ∧ recursions = depth ∧ 0 < depth
  | .decrementFrom read => has ∧ read = recursions ∧ recursions = depth ∧ 0 < depth
  | .store => has ∧ recursions = 0 ∧ depth = 0
  | .verifyFailed => ¬ has ∧ depth = 0

structure Inv (s : State) : Prop where
  at' : ∀ cpu, At (s.lock = some cpu) s.recursions (s.depths cpu) (s.pcs cpu)
  free : s.lock = none → s.recursions = 0

theorem At.depth_eq_zero {has : Prop} {recursions depth : Nat} {pc : Pc}
    (h : At has recursions depth pc) (hnot : ¬ has) : depth = 0 := by
  cases pc with
  | out | compareExchange | verifyRecursions | verifyLock => exact h.2 hnot
  | verifyFailed => exact h.2
  | _ => exact absurd h.1 hnot

/-- A processor sees the count only when it has the lock. -/
theorem At.congr {has has' : Prop} {recursions recursions' depth : Nat} {pc : Pc}
    (h : At has recursions depth pc) (hiff : has' ↔ has) (heq : has → recursions' = recursions) :
    At has' recursions' depth pc := by
  rw [propext hiff]
  by_cases hhas : has
  · rwa [heq hhas]
  · cases pc with
    | out | compareExchange | verifyRecursions | verifyLock =>
      exact ⟨fun hmine => absurd hmine hhas, h.2⟩
    | verifyFailed => exact h
    | _ => exact absurd h.1 hhas

theorem Inv.lock_of_depth {s : State} (h : Inv s) {cpu : Nat} (hdepth : 0 < s.depths cpu) :
    s.lock = some cpu := by
  by_contra hlock
  exact Nat.ne_of_gt hdepth ((h.at' cpu).depth_eq_zero hlock)

theorem Inv.safe {s : State} (h : Inv s) : Safe s where
  exclusive cpu other hcpu hother :=
    Option.some.inj ((h.lock_of_depth hcpu).symm.trans (h.lock_of_depth hother))
  counted cpu hdepth hpc := by
    have hat := h.at' cpu
    rw [hpc] at hat
    exact ⟨h.lock_of_depth hdepth, (hat.1 (h.lock_of_depth hdepth)).1⟩
  verified cpu hpc := by
    have hat := h.at' cpu
    rw [hpc] at hat
    exact hat.2
  released hall := by
    cases hlock : s.lock with
    | none => exact ⟨rfl, h.free hlock⟩
    | some cpu =>
      have hat := h.at' cpu
      rw [(hall cpu).1, (hall cpu).2] at hat
      exact absurd (hat.1 hlock).2 (Nat.lt_irrefl 0)

/-! ## One step -/

/-- A processor acts; the others see the lock and, if they have it, the count as before. -/
theorem Inv.acts {s : State} (h : Inv s) (cpu : Nat) (lock : Option Nat) (pc : Pc)
    {recursions depth : Nat}
    (hothers : ∀ other, other ≠ cpu →
      (lock = some other ↔ s.lock = some other) ∧ (s.lock = some other → recursions = s.recursions))
    (hat : At (lock = some cpu) recursions depth pc) (hfree : lock = none → recursions = 0) :
    Inv ⟨lock, recursions, update s.pcs cpu pc, update s.depths cpu depth⟩ where
  at' other := by
    dsimp only
    by_cases hne : other = cpu
    · rw [hne, update_self, update_self]
      exact hat
    · rw [update_of_ne hne, update_of_ne hne]
      exact (h.at' other).congr (hothers other hne).1 (hothers other hne).2
  free := hfree

/-- A step that only moves the processor on. -/
theorem Inv.goto {s : State} (h : Inv s) (cpu : Nat) {pc : Pc}
    (hat : At (s.lock = some cpu) s.recursions (s.depths cpu) pc) : Inv (s.goto cpu pc) := by
  have hacts := h.acts cpu s.lock pc (fun _ _ => ⟨Iff.rfl, fun _ => rfl⟩) hat h.free
  rwa [Function.update_eq_self] at hacts

/-- A step of the processor that has the lock. -/
theorem Inv.holds {s : State} (h : Inv s) {cpu : Nat} (hlock : s.lock = some cpu)
    {recursions depth : Nat} {pc : Pc} (hat : At True recursions depth pc) :
    Inv ⟨s.lock, recursions, update s.pcs cpu pc, update s.depths cpu depth⟩ := by
  refine h.acts cpu s.lock pc (fun other hne => ⟨Iff.rfl, fun hother => ?_⟩)
    (hat.congr (iff_true_intro hlock) fun _ => rfl)
    (fun hnone => absurd (hnone.symm.trans hlock) (Option.some_ne_none _).symm)
  exact absurd (Option.some.inj (hother.symm.trans hlock)) hne

theorem step_inv {limit : Nat} {s s' : State} {a : Nat × Call} (h : Inv s) (hfits : Fits limit s a)
    (hstep : step limit s a = some s') : Inv s' := by
  obtain ⟨cpu, call⟩ := a
  have hat := h.at' cpu
  unfold Fits at hfits
  unfold step at hstep
  dsimp only at hfits hstep
  cases hpc : s.pcs cpu <;> rw [hpc] at hfits hstep hat
  case out =>
    cases call with
    | lock =>
      cases hstep
      exact h.goto cpu hat
    | unlock =>
      cases hstep
      exact h.goto cpu hat
  case compareExchange =>
    cases hlock : s.lock with
    | none =>
      rw [hlock] at hstep hat
      cases hstep
      have hdepth := hat.2 (Option.some_ne_none _).symm
      have hacts := h.acts cpu (some cpu) .increment (fun other hne => ⟨?_, ?_⟩)
        (And.intro rfl ((h.free hlock).trans hdepth.symm)) nofun
      · rwa [Function.update_eq_self] at hacts
      · rw [hlock]
        exact iff_of_false (fun heq => hne (Option.some.inj heq).symm) nofun
      · exact fun _ => rfl
    | some expected =>
      rw [hlock] at hstep
      cases hstep
      split
      · next heq => exact h.goto cpu ⟨heq ▸ hlock, (hat.1 (heq ▸ hlock)).1⟩
      · exact h
  case increment =>
    cases hstep
    exact h.goto cpu ⟨hat.1, rfl, hat.2⟩
  case incrementFrom recursions =>
    cases hstep
    obtain ⟨hlock, rfl, hdepth⟩ := hat
    rw [hdepth, Nat.mod_eq_of_lt hfits]
    exact h.holds hlock ⟨fun _ => ⟨rfl, Nat.succ_pos _⟩, fun hnot => absurd trivial hnot⟩
  case verifyRecursions =>
    cases hstep
    split
    · exact h.goto cpu hat
    · next hzero =>
      have hnot : s.lock ≠ some cpu := fun hlock => hzero ((hat.1 hlock).1 ▸ (hat.1 hlock).2)
      exact h.goto cpu ⟨hnot, hat.2 hnot⟩
  case verifyLock =>
    cases hstep
    split
    · next hlock => exact h.goto cpu ⟨hlock, hat.1 hlock⟩
    · next hnot => exact h.goto cpu ⟨hnot, hat.2 hnot⟩
  case decrement =>
    cases hstep
    exact h.goto cpu ⟨hat.1, rfl, hat.2⟩
  case decrementFrom recursions =>
    cases hstep
    obtain ⟨hlock, rfl, hdepth, hpos⟩ := hat
    refine h.holds hlock ?_
    rw [hdepth]
    split
    · next hzero => exact ⟨trivial, hzero, hzero⟩
    · next hmore =>
      exact ⟨fun _ => ⟨rfl, Nat.pos_of_ne_zero hmore⟩, fun hnot => absurd trivial hnot⟩
  case store =>
    cases hstep
    obtain ⟨hlock, hzero, hdepth⟩ := hat
    have hacts := h.acts cpu none .out (fun other hne => ⟨?_, fun _ => rfl⟩)
      ⟨nofun, fun _ => hdepth⟩ fun _ => hzero
    · rwa [Function.update_eq_self] at hacts
    · rw [hlock]
      exact iff_of_false nofun fun heq => hne (Option.some.inj heq).symm
  case verifyFailed => cases hstep

/-- However the steps interleave, the lock excludes and counts, as long as the count fits. -/
theorem safe_always {limit : Nat} {as : List (Nat × Call)}
    (hfits : Each (step limit) (Fits limit) initially as) :
    Always (step limit) Safe initially as := by
  refine (Always.of_each (fun _ _ _ => step_inv) ?_ hfits).mono fun _ h => h.safe
  exact ⟨fun _ => ⟨nofun, fun _ => rfl⟩, fun _ => rfl⟩

/-- One processor locks twice while another one waits, and a third one has no lock to give back. -/
theorem safe_always_three :
    Always (step (2 ^ 32)) Safe initially
      [(0, .lock), (1, .lock), (0, .lock), (1, .lock), (0, .lock), (0, .lock), (2, .unlock),
        (0, .lock), (0, .lock), (2, .unlock), (2, .unlock), (0, .lock), (0, .lock), (0, .unlock)] :=
  safe_always (by decide)

end Literate.Kernel.SpinLock

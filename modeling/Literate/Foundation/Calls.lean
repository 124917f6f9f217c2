import Literate.Foundation.Run
import Mathlib.Data.List.Count

/-!
# Foundation: calls that share a memory

Any number of calls are in progress at once.  Each has a state of its own, and they all
work on one shared state; one access to it is one step, and the steps of the calls
interleave freely with those of other parties that change the shared state.

The rule for invariants asks for what holds of the shared state (which may count the calls
in some set of states) and for what holds of each call beside it.  One access has to keep
what holds of every other call too.
-/

namespace Literate.Foundation

open List Option

/-- How a call begins, what one access of a call does, and what another party does to the
shared state.  `none` says that it cannot happen now. -/
structure Procedure (σ κ β α ε : Type*) where
  start : σ → β → Option κ
  access : σ → κ → α → Option (σ × κ)
  other : σ → ε → Option σ

/-- The shared state and the calls so far, in the order in which they began. -/
structure Pool (σ κ : Type*) where
  shared : σ
  calls : List κ

/-- What happens next. -/
inductive Move (β α ε : Type*) where
  | start (b : β)
  | access (i : Nat) (a : α)
  | other (e : ε)

namespace Procedure

variable {σ κ β α ε : Type*} (proc : Procedure σ κ β α ε)

/-- One step of the interleaved calls. -/
def step (pool : Pool σ κ) : Move β α ε → Option (Pool σ κ)
  | .start b =>
    (proc.start pool.shared b).map fun call => { pool with calls := pool.calls ++ [call] }
  | .access i a =>
    pool.calls[i]?.bind fun call =>
      (proc.access pool.shared call a).map fun result =>
        { shared := result.1, calls := pool.calls.set i result.2 }
  | .other e => (proc.other pool.shared e).map fun shared => { pool with shared := shared }

/-- No call has begun. -/
def initially (shared : σ) : Pool σ κ := { shared := shared, calls := [] }

/-- The invariant: `census` looks at the shared state and the number of calls in the states
`q`, and `each` at the shared state and one call. -/
structure Holds (q : κ → Bool) (census : σ → Nat → Prop) (each : σ → κ → Prop)
    (pool : Pool σ κ) : Prop where
  census : census pool.shared (pool.calls.countP q)
  each : ∀ call ∈ pool.calls, each pool.shared call

/-- What a step has to keep, under a condition on the shared state and the number of calls
in the states `q`.  In `access` the number `n` is that of the calls beside the one that
makes the access. -/
structure Keeps (q : κ → Bool) (census : σ → Nat → Prop) (each : σ → κ → Prop)
    (condition : σ → Nat → Prop) : Prop where
  start : ∀ {s b call n}, census s n → proc.start s b = some call →
    census s (n + (q call).toNat) ∧ each s call
  access : ∀ {s call a s' call' n}, census s (n + (q call).toNat) → each s call →
    condition s (n + (q call).toNat) → proc.access s call a = some (s', call') →
    census s' (n + (q call').toNat) ∧ each s' call' ∧
      ∀ third, each s third → (q third = true → 0 < n) → each s' third
  other : ∀ {s e s' n}, census s n → condition s n → proc.other s e = some s' →
    census s' n ∧ ∀ third, each s third → (q third = true → 0 < n) → each s' third

variable {proc} {q : κ → Bool} {census : σ → Nat → Prop} {each : σ → κ → Prop}
  {condition : σ → Nat → Prop}

theorem countP_singleton (call : κ) : [call].countP q = (q call).toNat := by
  cases h : q call with
  | true => rw [List.countP_singleton, h]; rfl
  | false => rw [List.countP_singleton, h]; rfl

theorem countP_pos {call : κ} {calls : List κ} (hmem : call ∈ calls) (h : q call = true) :
    0 < calls.countP q :=
  countP_pos_iff.mpr ⟨call, hmem, h⟩

theorem Keeps.step (h : proc.Keeps q census each condition) {pool pool' : Pool σ κ}
    {move : Move β α ε} (hholds : Holds q census each pool)
    (hcondition : condition pool.shared (pool.calls.countP q))
    (hstep : proc.step pool move = some pool') : Holds q census each pool' := by
  cases move with
  | start b =>
    obtain ⟨call, hcall, rfl⟩ := map_eq_some_iff.mp hstep
    obtain ⟨hcensus, heach⟩ := h.start hholds.census hcall
    constructor
    · rw [countP_append, countP_singleton]
      exact hcensus
    · intro third hthird
      rcases mem_append.mp hthird with hold | hnew
      · exact hholds.each third hold
      · rw [mem_singleton.mp hnew]
        exact heach
  | access i a =>
    obtain ⟨call, hcall, hmap⟩ := bind_eq_some_iff.mp hstep
    obtain ⟨⟨s', call'⟩, haccess, rfl⟩ := map_eq_some_iff.mp hmap
    obtain ⟨hi, hget⟩ := List.getElem?_eq_some_iff.mp hcall
    -- the calls before and after the one that makes the access
    have hsplit : pool.calls = pool.calls.take i ++ call :: pool.calls.drop (i + 1) := by
      rw [← hget, getElem_cons_drop, take_append_drop]
    have hset : pool.calls.set i call' =
        pool.calls.take i ++ call' :: pool.calls.drop (i + 1) := by
      rw [set_eq_take_append_cons_drop, if_pos hi]
    have hcount : ∀ k : κ, (pool.calls.take i ++ k :: pool.calls.drop (i + 1)).countP q =
        (pool.calls.take i ++ pool.calls.drop (i + 1)).countP q + (q k).toNat := by
      intro k
      rw [← singleton_append, countP_append, countP_append, countP_append,
        countP_singleton]
      omega
    have hcensus := hholds.census
    rw [hsplit, hcount] at hcensus hcondition
    have hmem : call ∈ pool.calls := mem_of_getElem? hcall
    obtain ⟨hcensus', heach', hothers⟩ :=
      h.access hcensus (hholds.each call hmem) hcondition haccess
    constructor
    · dsimp only
      rw [hset, hcount]
      exact hcensus'
    · intro third hthird
      rw [hset, mem_append, mem_cons] at hthird
      have hrest : third = call' ∨ third ∈ pool.calls.take i ++ pool.calls.drop (i + 1) := by
        rw [mem_append]
        obtain hbefore | heq | hafter := hthird
        · exact .inr (.inl hbefore)
        · exact .inl heq
        · exact .inr (.inr hafter)
      obtain heq | hrest := hrest
      · rw [heq]
        exact heach'
      · have hold : third ∈ pool.calls := by
          rw [hsplit]
          rcases mem_append.mp hrest with hbefore | hafter
          · exact mem_append_left _ hbefore
          · exact mem_append_right _ (mem_cons_of_mem _ hafter)
        exact hothers third (hholds.each third hold) (countP_pos hrest)
  | other e =>
    obtain ⟨shared, hother, rfl⟩ := map_eq_some_iff.mp hstep
    obtain ⟨hcensus, hothers⟩ := h.other hholds.census hcondition hother
    exact ⟨hcensus, fun third hthird =>
      hothers third (hholds.each third hthird) (countP_pos hthird)⟩

theorem holds_initially {shared : σ} (h : census shared 0) :
    Holds q census each (initially shared) where
  census := h
  each := nofun

/-- The rule of invariants, for runs whose steps all meet the condition. -/
theorem Keeps.always_of_each (h : proc.Keeps q census each condition) {shared : σ}
    (hinitial : census shared 0) {moves : List (Move β α ε)} (hcondition : Each proc.step
      (fun pool _ => condition pool.shared (pool.calls.countP q)) (initially shared) moves) :
    Always proc.step (Holds q census each) (initially shared) moves :=
  Always.of_each (fun _ _ _ hholds hmet hstep => h.step hholds hmet hstep)
    (holds_initially hinitial) hcondition

/-- The rule of invariants for all runs. -/
theorem Keeps.always (h : proc.Keeps q census each fun _ _ => True) {shared : σ}
    (hinitial : census shared 0) (moves : List (Move β α ε)) :
    Always proc.step (Holds q census each) (initially shared) moves :=
  Always.of_invariant (fun _ _ _ hholds hstep => h.step hholds trivial hstep) moves
    (holds_initially hinitial)

end Procedure

end Literate.Foundation

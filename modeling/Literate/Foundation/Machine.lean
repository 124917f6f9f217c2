import Mathlib.Data.Nat.Basic

/-!
# Foundation: deterministic machines that run to a result

A pass of a machine leaves a state to go on from or ends with a result.  This module
packages what a loop of the program needs: the rule of invariants over the states
visited, a bound on the passes from a measure, and that what a run comes to is what a
pass from one of the visited states ends with.
-/

namespace Literate.Foundation

/-- What a pass comes to. -/
inductive Outcome (σ ρ : Type*)
  | next (s : σ)
  | done (r : ρ)

variable {σ ρ : Type*} (pass : σ → Outcome σ ρ)

/-- The result after at most `n` passes; `none` while the machine is still running. -/
def runFor : Nat → σ → Option ρ
  | 0, _ => none
  | n + 1, s =>
    match pass s with
    | .next s' => runFor n s'
    | .done r => some r

/-- The states at the beginning of the passes. -/
inductive Visits : σ → σ → Prop
  | refl (s : σ) : Visits s s
  | step {s s' t : σ} : pass s = .next s' → Visits s' t → Visits s t

variable {pass}
variable {s t : σ} {r r' : ρ} {n m : Nat}

theorem runFor_succ_of_next {s' : σ} (h : pass s = .next s') (n : Nat) :
    runFor pass (n + 1) s = runFor pass n s' := by rw [runFor, h]

theorem runFor_succ_of_done (h : pass s = .done r) (n : Nat) :
    runFor pass (n + 1) s = some r := by rw [runFor, h]

/-- More passes than needed change nothing. -/
theorem runFor_mono (hnm : n ≤ m) (h : runFor pass n s = some r) : runFor pass m s = some r := by
  induction n generalizing m s with
  | zero => cases h
  | succ n ih =>
    obtain ⟨m, rfl⟩ : ∃ m', m = m' + 1 := ⟨m - 1, by omega⟩
    cases hs : pass s with
    | next s' =>
      rw [runFor_succ_of_next hs] at h ⊢
      exact ih (Nat.le_of_succ_le_succ hnm) h
    | done r' =>
      rw [runFor_succ_of_done hs] at h ⊢
      exact h

theorem runFor_unique (h : runFor pass n s = some r) (h' : runFor pass m s = some r') : r = r' := by
  have hr := runFor_mono (Nat.le_max_left n m) h
  have hr' := runFor_mono (Nat.le_max_right n m) h'
  exact Option.some.inj (hr.symm.trans hr')

/-- A measure that every pass lowers bounds the passes. -/
theorem runFor_of_measure {measure : σ → Nat}
    (hlower : ∀ s s', pass s = .next s' → measure s' < measure s) (hn : measure s < n) :
    ∃ r, runFor pass n s = some r := by
  induction n generalizing s with
  | zero => exact absurd hn (Nat.not_lt_zero _)
  | succ n ih =>
    cases hs : pass s with
    | next s' =>
      rw [runFor_succ_of_next hs]
      exact ih (Nat.lt_of_lt_of_le (hlower s s' hs) (Nat.le_of_lt_succ hn))
    | done r => exact ⟨r, runFor_succ_of_done hs n⟩

theorem Visits.invariant {Inv : σ → Prop} (hpass : ∀ s s', Inv s → pass s = .next s' → Inv s')
    (h : Visits pass s t) (hs : Inv s) : Inv t := by
  induction h with
  | refl _ => exact hs
  | step hnext _ ih => exact ih (hpass _ _ hs hnext)

/-- What a run comes to is what the pass from a state visited ends with. -/
theorem exists_visits_of_runFor (h : runFor pass n s = some r) :
    ∃ t, Visits pass s t ∧ pass t = .done r := by
  induction n generalizing s with
  | zero => cases h
  | succ n ih =>
    cases hs : pass s with
    | next s' =>
      rw [runFor_succ_of_next hs] at h
      obtain ⟨t, hvisits, hdone⟩ := ih h
      exact ⟨t, .step hs hvisits, hdone⟩
    | done r' =>
      rw [runFor_succ_of_done hs] at h
      exact ⟨s, .refl s, by rw [hs, Option.some.inj h]⟩

/-- The result from a state is that from every state visited on the way. -/
theorem Visits.runFor (h : Visits pass s t) (hrun : runFor pass n t = some r) :
    ∃ m, runFor pass m s = some r := by
  induction h with
  | refl _ => exact ⟨n, hrun⟩
  | step hs _ ih =>
    obtain ⟨m, hm⟩ := ih hrun
    exact ⟨m + 1, by rw [runFor_succ_of_next hs, hm]⟩

theorem runFor_of_visits (h : Visits pass s t) (hdone : pass t = .done r)
    (hrun : runFor pass n s = some r') : r' = r := by
  obtain ⟨m, hm⟩ := h.runFor (runFor_succ_of_done hdone 0)
  exact runFor_unique hrun hm

end Literate.Foundation

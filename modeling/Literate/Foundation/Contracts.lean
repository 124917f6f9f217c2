import Mathlib.Logic.Basic

/-!
# Foundation: contracts of programs that may stop

A program of `Except ε β` comes to a result or stops with an error.  `Ensures allowed P r` says
that a result has the property `P` and that only errors that are allowed stop the program: no
error allowed makes it a total contract, and all errors allowed a partial one.  `Returns P r`
is the total contract of a program of `Option β`, which stops without saying why.
-/

namespace Literate.Foundation

variable {ε β γ : Type}

/-- A result has the property, and an error is allowed. -/
def Ensures (allowed : ε → Prop) (P : β → Prop) : Except ε β → Prop
  | .ok b => P b
  | .error e => allowed e

namespace Ensures

variable {allowed allowed' : ε → Prop} {P Q : β → Prop} {R : γ → Prop} {r : Except ε β}

section

variable (h : Ensures allowed P r)

include h

theorem mono (hP : ∀ b, P b → Q b) : Ensures allowed Q r := by
  cases r with
  | ok b => exact hP b h
  | error e => exact h

theorem allow (hallowed : ∀ e, allowed e → allowed' e) : Ensures allowed' P r := by
  cases r with
  | ok b => exact h
  | error e => exact hallowed e h

/-- One program after another. -/
theorem bind {f : β → Except ε γ}
    (hf : ∀ b, P b → Ensures allowed R (f b)) : Ensures allowed R (r >>= f) := by
  cases r with
  | ok b => exact hf b h
  | error e => exact h

theorem of_ok {b : β} (hr : r = .ok b) : P b := by
  rw [hr] at h
  exact h

/-- The result is remembered. -/
theorem and_ok : Ensures allowed (fun b => r = .ok b ∧ P b) r := by
  cases r with
  | ok b => exact ⟨rfl, h⟩
  | error e => exact h

theorem ne_error {e : ε} (he : ¬ allowed e) : r ≠ .error e := by
  intro hr
  rw [hr] at h
  exact he h

end

/-- A program without errors. -/
theorem exists_ok (h : Ensures (fun _ => False) P r) : ∃ b, r = .ok b ∧ P b := by
  cases r with
  | ok b => exact ⟨b, rfl, h⟩
  | error e => exact h.elim

end Ensures

/-- The program comes to a result, and the result has the property. -/
def Returns (P : β → Prop) : Option β → Prop
  | some b => P b
  | none => False

namespace Returns

variable {P Q : β → Prop} {R : γ → Prop} {r : Option β}

theorem of_eq {b : β} (hr : r = some b) (hP : P b) : Returns P r := by
  rw [hr]
  exact hP

theorem mono (h : Returns P r) (hP : ∀ b, P b → Q b) : Returns Q r := by
  cases r with
  | some b => exact hP b h
  | none => exact h

/-- One program after another. -/
theorem bind {f : β → Option γ} (h : Returns P r) (hf : ∀ b, P b → Returns R (f b)) :
    Returns R (r >>= f) := by
  cases r with
  | some b => exact hf b h
  | none => exact h

theorem exists_some (h : Returns P r) : ∃ b, r = some b ∧ P b := by
  cases r with
  | some b => exact ⟨b, rfl, h⟩
  | none => exact h.elim

end Returns

end Literate.Foundation

import Mathlib.Algebra.Group.Nat.Defs
import Mathlib.Data.List.Basic

/-!
# AK: string views

`StringView` of `AK/StringView.h`.  A view is the address of its characters and the
characters that are there.
-/

namespace Literate.AK

inductive CaseSensitivity where
  | caseInsensitive
  | caseSensitive
  deriving DecidableEq, Repr

/-- A view.  Its characters do not reach beyond the address space, as its constructors
assert, and there are none at the null pointer. -/
structure StringView where
  characters : Nat
  bytes : List UInt8
  fits : characters + bytes.length < 2 ^ 64
  empty_of_null : characters = 0 → bytes = []
  deriving DecidableEq

namespace StringView

def isNull (s : StringView) : Bool := decide (s.characters = 0)

def isEmpty (s : StringView) : Bool := decide (s.bytes = [])

def length (s : StringView) : Nat := s.bytes.length

/-- The part of a view that lies in it. -/
def part (s : StringView) (start length : Nat) (h : start + length ≤ s.length) : StringView where
  characters := s.characters + start
  bytes := (s.bytes.drop start).take length
  fits := by
    have hfits := s.fits
    rw [StringView.length] at h
    rw [List.length_take, List.length_drop]
    omega
  empty_of_null hnull := by
    have hempty := s.empty_of_null (Nat.eq_zero_of_add_eq_zero_right hnull)
    rw [hempty, List.drop_nil, List.take_nil]

/-- The assertions of `substring_view` and of the constructor that it calls, on sums that
wrap. -/
def SubstringAsserted (s : StringView) (start length : Nat) : Prop :=
  (start + length) % 2 ^ 64 ≤ s.length ∧ (s.characters + start) % 2 ^ 64 + length < 2 ^ 64

instance (s : StringView) (start length : Nat) : Decidable (s.SubstringAsserted start length) :=
  inferInstanceAs (Decidable (_ ∧ _))

/-- `substring_view`; `none` is a failed assertion, or a view beyond the characters. -/
def substringView (s : StringView) (start length : Nat) : Option StringView :=
  if s.SubstringAsserted start length then
    if h : start + length ≤ s.length then some (s.part start length h) else none
  else none

theorem substringView_eq {s : StringView} {start length : Nat} (h : start + length ≤ s.length) :
    s.substringView start length = some (s.part start length h) := by
  have hfits := s.fits
  have hasserted : s.SubstringAsserted start length := by
    rw [StringView.length] at h
    simp only [SubstringAsserted, StringView.length, Nat.mod_eq_of_lt (by omega)]
    omega
  rw [substringView, if_pos hasserted, dif_pos h]

/-- A view that begins in the string and goes beyond it fails an assertion, also when its
length is a difference that has wrapped. -/
theorem not_substringAsserted {s : StringView} {start length : Nat} (hstart : start ≤ s.length)
    (h : s.length < start + length) : ¬ s.SubstringAsserted start length := by
  intro hasserted
  have hfits := s.fits
  rw [StringView.length] at *
  rw [SubstringAsserted, StringView.length, Nat.mod_eq_of_lt (by omega : s.characters + start < 2 ^ 64)]
    at hasserted
  have hwrap : (start + length) % 2 ^ 64 = start + length := Nat.mod_eq_of_lt (by omega)
  omega

end StringView

end Literate.AK

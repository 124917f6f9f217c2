import Mathlib.Data.List.Basic

/-!
# Foundation: words with wildcards

A mask is a word with two wildcards in it: one stands for any word and one for any one
symbol.  `same` says which symbols of a text a symbol of the mask stands for.
-/

namespace Literate.Foundation

open List

variable {α : Type*}

inductive MaskSymbol (α : Type*)
  /-- Any word, possibly empty. -/
  | anyWord
  /-- Any one symbol. -/
  | anySymbol
  | symbol (c : α)
  deriving DecidableEq, Repr

namespace MaskSymbol

def isWildcard : MaskSymbol α → Bool
  | anyWord => true
  | anySymbol => true
  | symbol _ => false

end MaskSymbol

open MaskSymbol

/-- The texts that a mask describes. -/
inductive Masks (same : α → α → Prop) : List (MaskSymbol α) → List α → Prop
  | nil : Masks same [] []
  | anyWord (word : List α) {mask : List (MaskSymbol α)} {text : List α} :
      Masks same mask text → Masks same (.anyWord :: mask) (word ++ text)
  | anySymbol (c : α) {mask : List (MaskSymbol α)} {text : List α} :
      Masks same mask text → Masks same (.anySymbol :: mask) (c :: text)
  | symbol {p c : α} {mask : List (MaskSymbol α)} {text : List α} :
      same p c → Masks same mask text → Masks same (.symbol p :: mask) (c :: text)

/-- A mask with words in the place of its wildcards. -/
def substitute : List (MaskSymbol α) → List (List α) → List α
  | [], _ => []
  | .symbol c :: mask, words => c :: substitute mask words
  | _ :: mask, words => words.headD [] ++ substitute mask words.tail

variable {same : α → α → Prop} {mask : List (MaskSymbol α)} {text : List α}

@[simp] theorem masks_nil : Masks same [] text ↔ text = [] := by
  constructor
  · intro h
    cases h
    rfl
  · rintro rfl
    exact .nil

@[simp] theorem masks_anySymbol_cons {c : α} :
    Masks same (.anySymbol :: mask) (c :: text) ↔ Masks same mask text := by
  constructor
  · intro h
    cases h with
    | anySymbol _ h => exact h
  · exact .anySymbol c

@[simp] theorem masks_symbol_cons {p c : α} :
    Masks same (.symbol p :: mask) (c :: text) ↔ same p c ∧ Masks same mask text := by
  constructor
  · intro h
    cases h with
    | symbol hsame h => exact ⟨hsame, h⟩
  · exact fun h => .symbol h.1 h.2

theorem masks_anyWord_iff :
    Masks same (.anyWord :: mask) text ↔ ∃ k ≤ text.length, Masks same mask (text.drop k) := by
  constructor
  · intro h
    cases h with
    | @anyWord word _ rest h =>
      refine ⟨word.length, ?_, ?_⟩
      · rw [length_append]
        exact Nat.le_add_right _ _
      · rwa [drop_left]
  · rintro ⟨k, -, h⟩
    have hword := Masks.anyWord (text.take k) h
    rwa [take_append_drop] at hword

/-- The empty text is described by wildcards for words only. -/
theorem masks_empty_iff : Masks same mask [] ↔ ∀ p ∈ mask, p = .anyWord := by
  induction mask with
  | nil => simp
  | cons p mask ih =>
    cases p with
    | anyWord =>
      rw [masks_anyWord_iff]
      simp [ih]
    | anySymbol =>
      refine iff_of_false (fun h => (by cases h)) fun h => ?_
      cases h _ mem_cons_self
    | symbol c =>
      refine iff_of_false (fun h => (by cases h)) fun h => ?_
      cases h _ mem_cons_self

end Literate.Foundation

import Literate.Foundation.Borders

/-!
# Foundation: splitting a text at a word

`Split` cuts a text at the occurrences of a word that do not overlap, from the left.  No
part holds the word, and the parts joined with it are the text again.  At a word of one
symbol the parts are those of `List.splitOn`.
-/

namespace Literate.Foundation

open List

variable {α : Type*} {word text part rest : List α} {parts : List (List α)}

/-- The parts of a text before the first occurrence of a word, before the first one behind
it, and so on, and the part behind the last. -/
inductive Split (word : List α) : (text : List α) → (parts : List (List α)) → Prop
  | last {text : List α} : FirstOccurrence word text none → Split word text [text]
  | next {part rest : List α} {parts : List (List α)} :
      FirstOccurrence word (part ++ word ++ rest) (some part.length) → Split word rest parts →
      Split word (part ++ word ++ rest) (part :: parts)

/-- A text is cut in three where a word occurs. -/
theorem FirstOccurrence.exists_append {place : Nat} (h : FirstOccurrence word text (some place)) :
    ∃ part rest, text = part ++ word ++ rest ∧ part.length = place := by
  obtain ⟨rest, hrest⟩ := h.1
  by_cases hle : place ≤ text.length
  · refine ⟨text.take place, rest, ?_, length_take_of_le hle⟩
    rw [List.append_assoc, hrest, take_append_drop]
  · -- behind the text there is the empty word only, which occurs at its start too
    have hnil : word = [] := by
      have hdrop := drop_eq_nil_of_le (Nat.le_of_not_le hle)
      rw [hdrop] at hrest
      exact append_eq_nil_iff.mp hrest |>.1
    have hpos : 0 < place := Nat.zero_lt_of_lt (Nat.lt_of_not_le hle)
    exact absurd (hnil ▸ nil_prefix) (h.2 0 hpos)

/-- What stands before the first occurrence of a word does not hold it. -/
theorem not_infix_of_first (hne : word ≠ [])
    (h : FirstOccurrence word (part ++ word ++ rest) (some part.length)) : ¬ word <:+: part := by
  rintro ⟨before, after, heq⟩
  have hpos := length_pos_of_ne_nil hne
  have hlength := congrArg List.length heq
  simp only [length_append] at hlength
  refine h.2 before.length (by omega) ?_
  rw [← heq]
  simp only [List.append_assoc, drop_left]
  exact prefix_append _ _

theorem not_infix_of_absent (h : FirstOccurrence word text none) : ¬ word <:+: text := by
  rintro ⟨before, after, rfl⟩
  refine h before.length ?_
  rw [List.append_assoc, drop_left]
  exact prefix_append _ _

namespace Split

theorem ne_nil (h : Split word text parts) : parts ≠ [] := by
  cases h with
  | last _ => exact cons_ne_nil _ _
  | next _ _ => exact cons_ne_nil _ _

theorem not_infix (hne : word ≠ []) (h : Split word text parts) :
    ∀ part ∈ parts, ¬ word <:+: part := by
  induction h with
  | last habsent =>
    intro part hpart
    rw [mem_singleton.mp hpart]
    exact not_infix_of_absent habsent
  | next hfirst _ ih =>
    intro part hpart
    cases mem_cons.mp hpart with
    | inl heq => exact heq ▸ not_infix_of_first hne hfirst
    | inr hmem => exact ih part hmem

/-- Joining the parts gives back the text. -/
theorem joined (h : Split word text parts) : word.intercalate parts = text := by
  induction h with
  | last _ => exact intercalate_singleton
  | next _ hrest ih => rw [intercalate_cons_of_ne_nil hrest.ne_nil, ih]

/-- The parts at a symbol. -/
theorem eq_splitOn [BEq α] [LawfulBEq α] {symbol : α} (h : Split [symbol] text parts) :
    parts = text.splitOn symbol := by
  have hnot : ∀ part ∈ parts, symbol ∉ part := fun part hpart hmem =>
    h.not_infix (cons_ne_nil _ _) part hpart ((singleton_infix_iff symbol part).mpr hmem)
  rw [← h.joined, splitOn_intercalate symbol hnot h.ne_nil]

end Split

/-! ## Where the parts lie -/

/-- The places and lengths of parts that follow each other from `start` on, with `gap`
symbols between any two. -/
def partPlaces (gap : Nat) : (start : Nat) → List (List α) → List (Nat × Nat)
  | _, [] => []
  | start, part :: parts => (start, part.length) :: partPlaces gap (start + part.length + gap) parts

namespace Split

/-- The parts of what is left of a text lie in the text, and are what stands there. -/
theorem places_spec {start : Nat} (h : Split word (text.drop start) parts)
    (hstart : start ≤ text.length) :
    (∀ place ∈ partPlaces word.length start parts, place.1 + place.2 ≤ text.length) ∧
    (partPlaces word.length start parts).map (fun place => (text.drop place.1).take place.2) =
      parts := by
  generalize hrest : text.drop start = rest at h
  have hlength := congrArg List.length hrest
  rw [length_drop] at hlength
  induction h generalizing start with
  | last _ =>
    refine ⟨fun place hplace => ?_, ?_⟩
    · rw [mem_singleton.mp hplace]
      omega
    · simp only [partPlaces, map_singleton, hrest, take_length]
  | @next part rest parts _ _ ih =>
    have hnext : text.drop (start + part.length + word.length) = rest := by
      rw [Nat.add_assoc, ← drop_drop, hrest, ← length_append, drop_left]
    have hlast := congrArg List.length hnext
    simp only [length_append, length_drop] at hlength hlast
    obtain ⟨hplaces, hparts⟩ := ih (by omega) hnext (by rw [← hnext, length_drop])
    refine ⟨fun place hplace => ?_, ?_⟩
    · cases mem_cons.mp hplace with
      | inl heq =>
        rw [heq]
        omega
      | inr hmem => exact hplaces place hmem
    · rw [partPlaces, map_cons, hparts, hrest, List.append_assoc, take_left]

end Split

end Literate.Foundation

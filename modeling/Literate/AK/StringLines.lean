import Literate.AK.StringSplit
import Literate.AK.StringUtils

/-!
# AK: lines

`StringView::lines` of `AK/StringView.cpp`.  A line ends with a newline, with a carriage
return, or with both in this order (`Lines`).  The loop ends a line at a carriage return and
passes over a newline behind it.
-/

namespace Literate.AK

open List Option
open StringView (length bytes)

def newline : UInt8 := byte '\n'
def carriageReturn : UInt8 := byte '\r'

/-- What the loop of `lines` carries on; `split_view` is set where a line is taken. -/
structure LinesState where
  v : List StringView
  substart : Nat
  lastChWasCr : Bool

namespace StringView

/-- The line before index `i` is taken. -/
def takeLine (s : StringView) (i : Nat) (state : LinesState) (lastChWasCr : Bool) :
    Option LinesState :=
  (s.substringView state.substart (i - state.substart)).map fun line =>
    { v := state.v ++ [line], substart := i + 1, lastChWasCr := lastChWasCr }

/-- The body of the loop of `lines`. -/
def linesStep (s : StringView) (i : Nat) (ch : UInt8) (state : LinesState) : Option LinesState :=
  if ch = newline then
    if state.lastChWasCr then some { state with substart := i + 1, lastChWasCr := false }
    else s.takeLine i state false
  else if ch = carriageReturn then s.takeLine i state true
  else some { state with lastChWasCr := false }

/-- The loop of `lines` over the characters from index `i` on, and what follows it. -/
def linesLoop (s : StringView) : (rest : List UInt8) → (i : Nat) → LinesState →
    Option (List StringView)
  | [], _, state =>
    let taillen := s.length - state.substart
    if taillen ≠ 0 then
      (s.substringView state.substart taillen).map fun tail => state.v ++ [tail]
    else some state.v
  | ch :: rest, i, state => (s.linesStep i ch state).bind (s.linesLoop rest (i + 1))

/-- `lines`; `separator` is the view of the newline that is handed to `split_view`. -/
def lines (s separator : StringView) (considerCr : Bool) : Option (List StringView) :=
  if s.isEmpty then some []
  else if !considerCr then s.splitView separator true
  else s.linesLoop s.bytes 0 { v := [], substart := 0, lastChWasCr := false }

end StringView

/-! ## Line endings -/

/-- A text that belongs to one line. -/
def Unended (piece : List UInt8) : Prop := newline ∉ piece ∧ carriageReturn ∉ piece

/-- The pieces of a text between its line endings. -/
inductive Lines : (text : List UInt8) → (pieces : List (List UInt8)) → Prop
  | last {piece : List UInt8} : Unended piece → Lines piece [piece]
  | lf {piece rest : List UInt8} {pieces : List (List UInt8)} : Unended piece →
      Lines rest pieces → Lines (piece ++ newline :: rest) (piece :: pieces)
  | cr {piece rest : List UInt8} {pieces : List (List UInt8)} : Unended piece →
      rest.head? ≠ some newline → Lines rest pieces →
      Lines (piece ++ carriageReturn :: rest) (piece :: pieces)
  | crlf {piece rest : List UInt8} {pieces : List (List UInt8)} : Unended piece →
      Lines rest pieces → Lines (piece ++ carriageReturn :: newline :: rest) (piece :: pieces)

/-- Pieces without an empty one at the end. -/
def omitLastEmpty : List (List UInt8) → List (List UInt8)
  | [] => []
  | [piece] => if piece = [] then [] else [piece]
  | piece :: next :: pieces => piece :: omitLastEmpty (next :: pieces)

variable {text piece : List UInt8}

theorem Lines.ne_nil {pieces : List (List UInt8)} (h : Lines text pieces) : pieces ≠ [] := by
  cases h <;> exact cons_ne_nil _ _

theorem omitLastEmpty_cons {pieces : List (List UInt8)} (h : pieces ≠ []) :
    omitLastEmpty (piece :: pieces) = piece :: omitLastEmpty pieces := by
  obtain ⟨next, pieces, rfl⟩ := exists_cons_of_ne_nil h
  rfl

theorem unended_nil : Unended [] := ⟨not_mem_nil, not_mem_nil⟩

theorem unended_cons {ch : UInt8} :
    Unended (ch :: piece) ↔ (ch ≠ newline ∧ ch ≠ carriageReturn) ∧ Unended piece := by
  simp only [Unended, mem_cons, not_or]
  constructor
  · exact fun h => ⟨⟨Ne.symm h.1.1, Ne.symm h.2.1⟩, h.1.2, h.2.2⟩
  · exact fun h => ⟨⟨Ne.symm h.1.1, h.2.1⟩, Ne.symm h.1.2, h.2.2⟩

theorem Lines.cons {ch : UInt8} {text piece : List UInt8} {pieces : List (List UInt8)}
    (hch : ch ≠ newline ∧ ch ≠ carriageReturn) (h : Lines text (piece :: pieces)) :
    Lines (ch :: text) ((ch :: piece) :: pieces) := by
  cases h with
  | last hpiece => exact .last (unended_cons.mpr ⟨hch, hpiece⟩)
  | lf hpiece hrest => exact .lf (unended_cons.mpr ⟨hch, hpiece⟩) hrest
  | cr hpiece hhead hrest => exact .cr (unended_cons.mpr ⟨hch, hpiece⟩) hhead hrest
  | crlf hpiece hrest => exact .crlf (unended_cons.mpr ⟨hch, hpiece⟩) hrest

/-- The first piece of a text is omitted only when there is nothing at all. -/
theorem Lines.omitLastEmpty_eq {first : List UInt8} {others : List (List UInt8)}
    (h : Lines text (first :: others)) (hne : text ≠ []) :
    omitLastEmpty (first :: others) = first :: omitLastEmpty others := by
  cases h with
  | last _ => exact if_neg hne
  | lf _ hrest => exact omitLastEmpty_cons hrest.ne_nil
  | cr _ _ hrest => exact omitLastEmpty_cons hrest.ne_nil
  | crlf _ hrest => exact omitLastEmpty_cons hrest.ne_nil

theorem exists_lines (text : List UInt8) : ∃ pieces, Lines text pieces := by
  induction hlength : text.length using Nat.strong_induction_on generalizing text with
  | _ n ih =>
    cases text with
    | nil => exact ⟨_, .last unended_nil⟩
    | cons ch text =>
      rw [length_cons] at hlength
      obtain ⟨pieces, h⟩ := ih text.length (by omega) text rfl
      obtain ⟨piece, others, rfl⟩ := exists_cons_of_ne_nil h.ne_nil
      by_cases hnewline : ch = newline
      · subst hnewline
        exact ⟨_, .lf unended_nil h⟩
      by_cases hcr : ch = carriageReturn
      · subst hcr
        by_cases hhead : text.head? = some newline
        · obtain ⟨rest, rfl⟩ := List.head?_eq_some_iff.mp hhead
          rw [length_cons] at hlength
          obtain ⟨pieces, h⟩ := ih rest.length (by omega) rest rfl
          exact ⟨_, .crlf unended_nil h⟩
        · exact ⟨_, .cr unended_nil hhead h⟩
      · exact ⟨_, h.cons ⟨hnewline, hcr⟩⟩

/-! ## The loop -/

namespace StringView

variable {s : StringView}

/-- The characters of one line change nothing but that the last one was no carriage return. -/
theorem linesLoop_unended {piece : List UInt8} (hpiece : Unended piece) (rest : List UInt8) :
    ∀ {i : Nat} {state : LinesState},
      s.linesLoop (piece ++ rest) i state =
        s.linesLoop rest (i + piece.length)
          { state with lastChWasCr := state.lastChWasCr && piece.isEmpty } := by
  induction piece with
  | nil =>
    intro i state
    rw [nil_append, length_nil, Nat.add_zero, isEmpty_nil, Bool.and_true]
  | cons ch piece ih =>
    intro i state
    obtain ⟨⟨hnewline, hcr⟩, hpiece⟩ := unended_cons.mp hpiece
    rw [List.cons_append, linesLoop, linesStep, if_neg hnewline, if_neg hcr, bind_some,
      ih hpiece, length_cons, isEmpty_cons, Bool.and_false, Bool.false_and,
      Nat.add_assoc, Nat.add_comm 1]

/-- A piece of what is left of a string is a part of it. -/
theorem part_of_drop {start : Nat} {piece rest : List UInt8}
    (h : s.bytes.drop start = piece ++ rest) (hne : piece ++ rest ≠ []) :
    ∃ hle : start + piece.length ≤ s.length, (s.part start piece.length hle).bytes = piece ∧
      s.bytes.drop (start + piece.length) = rest := by
  have hpos := length_pos_of_ne_nil hne
  have hlength := congrArg List.length h
  rw [length_drop] at hlength
  rw [length_append] at hlength hpos
  refine ⟨by rw [length]; omega, ?_, ?_⟩
  · exact (congrArg (List.take piece.length) h).trans take_left
  · rw [← drop_drop, h, drop_left]

theorem linesLoop_ended {start : Nat} {piece rest : List UInt8} {ch : UInt8} {lastChWasCr : Bool}
    (hpiece : Unended piece) (h : s.bytes.drop start = piece ++ ch :: rest)
    (hch : ch = carriageReturn ∨ ch = newline ∧ (lastChWasCr && piece.isEmpty) = false)
    (v : List StringView) :
    ∃ line : StringView, line.bytes = piece ∧ s.bytes.drop (start + piece.length + 1) = rest ∧
      s.linesLoop (piece ++ ch :: rest) start ⟨v, start, lastChWasCr⟩ =
        s.linesLoop rest (start + piece.length + 1)
          ⟨v ++ [line], start + piece.length + 1, decide (ch = carriageReturn)⟩ := by
  obtain ⟨hle, hbytes, hdrop⟩ :=
    part_of_drop h (append_ne_nil_of_right_ne_nil _ (cons_ne_nil _ _))
  have htake : ∀ before after, s.takeLine (start + piece.length) ⟨v, start, before⟩ after =
      some ⟨v ++ [s.part start piece.length hle], start + piece.length + 1, after⟩ := by
    intro before after
    rw [takeLine, Nat.add_sub_cancel_left, substringView_eq hle, map_some]
  refine ⟨_, hbytes, by rw [← drop_drop, hdrop, drop_one, tail_cons], ?_⟩
  rw [linesLoop_unended hpiece, linesLoop, linesStep]
  rcases hch with rfl | ⟨rfl, hbefore⟩
  · have hne : carriageReturn ≠ newline := by decide
    rw [if_neg hne, if_pos rfl, htake, bind_some, decide_eq_true rfl]
  · have hne : newline ≠ carriageReturn := by decide
    rw [if_pos rfl, hbefore, if_neg Bool.false_ne_true, htake, bind_some,
      decide_eq_false hne]

/-- The loop takes the pieces of what is left.  A newline at its start would belong to a
carriage return before it. -/
theorem linesLoop_spec {pieces : List (List UInt8)} (h : Lines text pieces) :
    ∀ {start : Nat}, s.bytes.drop start = text → ∀ (v : List StringView) (lastChWasCr : Bool),
      (lastChWasCr = true → text.head? ≠ some newline) →
      ∃ lines, s.linesLoop text start ⟨v, start, lastChWasCr⟩ = some (v ++ lines) ∧
        lines.map bytes = omitLastEmpty pieces := by
  induction h with
  | @last piece hpiece =>
    intro start htext v lastChWasCr _
    have hloop := @linesLoop_unended s piece hpiece [] start ⟨v, start, lastChWasCr⟩
    have hlength : s.length - start = piece.length := by rw [← htext, length_drop, length]
    rw [append_nil] at hloop
    rw [hloop, linesLoop, hlength, omitLastEmpty]
    by_cases hempty : piece = []
    · rw [if_neg (not_not.mpr (length_eq_zero_iff.mpr hempty)), if_pos hempty]
      exact ⟨[], by rw [append_nil], rfl⟩
    · obtain ⟨hle, hbytes, -⟩ := @part_of_drop s start piece [] (by rw [htext, append_nil])
        (by rwa [append_nil])
      rw [if_pos (mt length_eq_zero_iff.mp hempty), if_neg hempty, substringView_eq hle]
      exact ⟨[_], rfl, by rw [map_singleton, hbytes]⟩
  | @lf piece rest pieces hpiece hrest ih =>
    intro start htext v lastChWasCr hhead
    have hbefore : (lastChWasCr && piece.isEmpty) = false := by
      rw [Bool.and_eq_false_imp]
      intro hcr
      rw [List.isEmpty_eq_false_iff]
      rintro rfl
      exact hhead hcr rfl
    obtain ⟨line, hline, hdrop, hloop⟩ := linesLoop_ended hpiece htext (.inr ⟨rfl, hbefore⟩) v
    obtain ⟨lines, hlines, hbytes⟩ := ih hdrop (v ++ [line]) false (fun h => by cases h)
    refine ⟨line :: lines, ?_, ?_⟩
    · rw [hloop, append_cons v line lines]
      exact hlines
    · rw [map_cons, hline, hbytes, omitLastEmpty_cons hrest.ne_nil]
  | @cr piece rest pieces hpiece hhead hrest ih =>
    intro start htext v lastChWasCr _
    obtain ⟨line, hline, hdrop, hloop⟩ := @linesLoop_ended s start piece rest carriageReturn
      lastChWasCr hpiece htext (.inl rfl) v
    obtain ⟨lines, hlines, hbytes⟩ := ih hdrop (v ++ [line]) true (fun _ => hhead)
    refine ⟨line :: lines, ?_, ?_⟩
    · rw [hloop, append_cons v line lines]
      exact hlines
    · rw [map_cons, hline, hbytes, omitLastEmpty_cons hrest.ne_nil]
  | @crlf piece rest pieces hpiece hrest ih =>
    intro start htext v lastChWasCr _
    obtain ⟨line, hline, hdrop, hloop⟩ := @linesLoop_ended s start piece (newline :: rest)
      carriageReturn lastChWasCr hpiece htext (.inl rfl) v
    have hbehind : s.bytes.drop (start + piece.length + 1 + 1) = rest := by
      rw [← drop_drop, hdrop, drop_one, tail_cons]
    obtain ⟨lines, hlines, hbytes⟩ := ih hbehind (v ++ [line]) false (fun h => by cases h)
    refine ⟨line :: lines, ?_, ?_⟩
    · -- the newline moves the start of the next line on
      rw [hloop, append_cons v line lines, ← hlines]
      rfl
    · rw [map_cons, hline, hbytes, omitLastEmpty_cons hrest.ne_nil]

/-- The pieces of a string between its line endings, but for an empty one behind the last,
are its lines.  The empty string has none. -/
theorem lines_pieces (s separator : StringView) :
    (s.bytes = [] → s.lines separator true = some []) ∧
    (∃ first others, Lines s.bytes (first :: others)) ∧
    ∀ first others, Lines s.bytes (first :: others) → s.bytes ≠ [] →
      ∃ lines, s.lines separator true = some lines ∧
        lines.map bytes = first :: omitLastEmpty others := by
  refine ⟨fun hs => ?_, ?_, fun first others hpieces hs => ?_⟩
  · have hempty : s.isEmpty = true := decide_eq_true hs
    rw [lines, if_pos hempty]
  · obtain ⟨pieces, hpieces⟩ := exists_lines s.bytes
    obtain ⟨first, others, rfl⟩ := exists_cons_of_ne_nil hpieces.ne_nil
    exact ⟨first, others, hpieces⟩
  · have hempty : s.isEmpty = false := decide_eq_false hs
    obtain ⟨lines, hlines, hbytes⟩ := linesLoop_spec hpieces drop_zero [] false
      (fun h => by cases h)
    refine ⟨lines, ?_, hbytes.trans (hpieces.omitLastEmpty_eq hs)⟩
    rw [StringView.lines, hempty, if_neg Bool.false_ne_true]
    exact hlines

theorem lines_pieces_sample :
    ∃ lines, StringView.lines ⟨1, [0x61, 0x0d, 0x0a], by decide, by decide⟩
        ⟨1, [0x0a], by decide, by decide⟩ true = some lines ∧
      lines.map bytes = [0x61] :: omitLastEmpty [[]] := by
  have hpieces : Lines [0x61, 0x0d, 0x0a] [[0x61], []] :=
    @Lines.crlf [0x61] [] [[]] ⟨by decide, by decide⟩ (.last unended_nil)
  exact (lines_pieces ⟨1, [0x61, 0x0d, 0x0a], by decide, by decide⟩
    ⟨1, [0x0a], by decide, by decide⟩).2.2 [0x61] [[]] hpieces (by decide)

/-- The empty string is one empty piece, which no line ending stands before. -/
theorem not_lines_pieces_empty : Lines [] [[]] ∧
    ¬ ∃ lines, StringView.lines ⟨1, [], by decide, by decide⟩ ⟨1, [0x0a], by decide, by decide⟩
        true = some lines ∧
      lines.map bytes = [] :: omitLastEmpty [] := by
  refine ⟨.last unended_nil, ?_⟩
  rintro ⟨lines, hlines, hbytes⟩
  cases hlines
  cases hbytes

end StringView

end Literate.AK

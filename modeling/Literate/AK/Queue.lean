import Literate.Foundation.Run

/-!
# AK: the segmented queue

`AK/Queue.h`, whose misspelt members are read as the ones declared and whose `load` is read as
`last`.  A segment is the list of the values in its vector, and the segments are in the order of
their intrusive list.
-/

namespace Literate.AK

open Foundation List

structure Queue (T : Type) where
  mSegments : List (List T)
  mIndexIntoFirst : Nat
  mSize : Nat

namespace Queue

section

variable {T : Type}

/-- A queue as it is constructed. -/
def empty : Queue T := ⟨[], 0, 0⟩

def isEmpty (s : Queue T) : Bool := s.mSize == 0

/-- The segments that `enqueue` appends to: there is a new one when the last is full. -/
def withRoom (segmentSize : Nat) (segments : List (List T)) : List (List T) :=
  match segments.getLast? with
  | none => segments ++ [[]]
  | some last => if segmentSize ≤ last.length then segments ++ [[]] else segments

def enqueue (segmentSize : Nat) (s : Queue T) (value : T) : Option (Queue T) := do
  let segments := withRoom segmentSize s.mSegments
  let last ← segments.getLast?
  some ⟨segments.dropLast ++ [last ++ [value]], s.mIndexIntoFirst, s.mSize + 1⟩

/-- What `dequeue` does when it has counted the value: the last segment of a queue without values
is used again from its start. -/
def recycle (s : Queue T) : Queue T :=
  if s.mSize = 0 then
    match s.mSegments with
    | [] => s
    | _ :: _ => { s with mIndexIntoFirst := 0, mSegments := s.mSegments.dropLast ++ [[]] }
  else s

def dequeue (segmentSize : Nat) (s : Queue T) : Option (T × Queue T) :=
  if s.isEmpty then none
  else do
    let first ← s.mSegments.head?
    let value ← first[s.mIndexIntoFirst]?
    let s := { s with mIndexIntoFirst := s.mIndexIntoFirst + 1 }
    let s := if s.mIndexIntoFirst = segmentSize then
        { s with mSegments := s.mSegments.tail, mIndexIntoFirst := 0 }
      else s
    some (value, recycle { s with mSize := s.mSize - 1 })

def head (s : Queue T) : Option T :=
  if s.isEmpty then none
  else do
    let first ← s.mSegments.head?
    first[s.mIndexIntoFirst]?

/-- The segments are deleted until `take_first` returns none. -/
def clear (_ : Queue T) : Queue T := ⟨[], 0, 0⟩

inductive Operation (T : Type)
  | enqueue (value : T)
  | dequeue
  | head
  | clear
  deriving DecidableEq, Repr

/-- An operation on the queue, with the value that it returns. -/
def step (segmentSize : Nat) (s : Queue T × Option T) : Operation T → Option (Queue T × Option T)
  | .enqueue value => (s.1.enqueue segmentSize value).map fun s => (s, none)
  | .dequeue => (s.1.dequeue segmentSize).map fun r => (r.2, some r.1)
  | .head => s.1.head.map fun value => (s.1, some value)
  | .clear => some (s.1.clear, none)

/-- Values are taken and looked at in queues that have them. -/
def Permitted (s : Queue T × Option T) : Operation T → Prop
  | .dequeue | .head => s.1.isEmpty = false
  | .enqueue _ | .clear => True

instance (s : Queue T × Option T) (op : Operation T) : Decidable (Permitted s op) := by
  cases op <;> unfold Permitted <;> infer_instance

/-! ## First in, first out -/

/-- What an operation does to the values that are outstanding, and the value that it returns. -/
def operate (values : List T) : Operation T → List T × Option T
  | .enqueue value => (values ++ [value], none)
  | .dequeue => (values.tail, values.head?)
  | .head => (values, values.head?)
  | .clear => ([], none)

/-- The size counts the outstanding values, the head is the first of them, and the same value has
been returned. -/
structure Describes (s : Queue T × Option T) (t : List T × Option T) : Prop where
  size : s.1.mSize = t.1.length
  head : s.1.head = t.1.head?
  returned : s.2 = t.2

/-- The outstanding values lie one after the other in the segments.  Only the last segment has room,
and only the first may be without values. -/
structure Holds (segmentSize : Nat) (s : Queue T) (values : List T) : Prop where
  contents : s.mSegments.flatten.drop s.mIndexIntoFirst = values
  size : s.mSize = values.length
  inside : s.mIndexIntoFirst ≤ s.mSegments.flatten.length
  index : s.mIndexIntoFirst < segmentSize
  full : ∀ segment ∈ s.mSegments.dropLast, segment.length = segmentSize
  fits : ∀ segment ∈ s.mSegments, segment.length ≤ segmentSize
  used : ∀ segment ∈ s.mSegments.tail, segment ≠ []

variable {segmentSize : Nat} {s : Queue T} {values : List T}

theorem holds_empty (hpos : 0 < segmentSize) : Holds segmentSize (empty : Queue T) [] :=
  ⟨rfl, rfl, Nat.le_refl 0, hpos, nofun, nofun, nofun⟩

theorem isEmpty_eq_false_iff (h : Holds segmentSize s values) :
    s.isEmpty = false ↔ values ≠ [] := by
  rw [isEmpty, h.size, beq_eq_false_iff_ne, ne_eq, length_eq_zero_iff]

/-- The first outstanding value is where `head` looks for it. -/
theorem Holds.first {value : T} {rest : List T} (h : Holds segmentSize s (value :: rest)) :
    ∃ first segments, s.mSegments = first :: segments ∧ first[s.mIndexIntoFirst]? = some value := by
  have hget : s.mSegments.flatten[s.mIndexIntoFirst]? = some value := by
    rw [← List.head?_drop, h.contents, List.head?_cons]
  cases hsegments : s.mSegments with
  | nil =>
    rw [hsegments, flatten_nil, List.getElem?_nil] at hget
    cases hget
  | cons first segments =>
    refine ⟨first, segments, rfl, ?_⟩
    rw [hsegments, flatten_cons] at hget
    have hlt : s.mIndexIntoFirst < first.length := by
      cases segments with
      | nil =>
        obtain ⟨hlt, -⟩ := List.getElem?_eq_some_iff.mp hget
        simpa using hlt
      | cons second segments =>
        have hfull := h.full first (by simp [hsegments])
        have hindex := h.index
        omega
    rwa [List.getElem?_append_left hlt] at hget

theorem Holds.head_eq (h : Holds segmentSize s values) : s.head = values.head? := by
  cases values with
  | nil =>
    have hempty : s.isEmpty = true := beq_iff_eq.mpr h.size
    rw [head, if_pos hempty, List.head?_nil]
  | cons value rest =>
    obtain ⟨first, segments, hsegments, hget⟩ := h.first
    have hempty := (isEmpty_eq_false_iff h).mpr (cons_ne_nil value rest)
    rw [head, hempty, if_neg Bool.false_ne_true, hsegments]
    exact hget

/-! ## The operations -/

theorem flatten_withRoom (segmentSize : Nat) (segments : List (List T)) :
    (withRoom segmentSize segments).flatten = segments.flatten := by
  unfold withRoom
  split
  · simp
  · split
    · simp
    · rfl

/-- The segments before the last are full, and the last has room. -/
theorem withRoom_eq (hpos : 0 < segmentSize) {segments : List (List T)}
    (hfull : ∀ segment ∈ segments.dropLast, segment.length = segmentSize)
    (hfits : ∀ segment ∈ segments, segment.length ≤ segmentSize)
    (hused : ∀ segment ∈ segments.tail, segment ≠ []) :
    ∃ before last, withRoom segmentSize segments = before ++ [last] ∧ last.length < segmentSize ∧
      (∀ segment ∈ before, segment.length = segmentSize) ∧
      ∀ segment ∈ before.tail, segment ≠ [] := by
  rcases eq_nil_or_concat segments with rfl | ⟨before, last, rfl⟩
  · exact ⟨[], [], rfl, hpos, nofun, nofun⟩
  · rw [concat_eq_append] at *
    rw [dropLast_concat] at hfull
    unfold withRoom
    rw [List.getLast?_concat]
    by_cases hlast : segmentSize ≤ last.length
    · refine ⟨before ++ [last], [], if_pos hlast, hpos, fun segment hsegment => ?_, hused⟩
      rcases mem_append.mp hsegment with hsegment | hsegment
      · exact hfull segment hsegment
      · rw [mem_singleton.mp hsegment]
        exact Nat.le_antisymm (hfits last (by simp)) hlast
    · refine ⟨before, last, if_neg hlast, Nat.lt_of_not_le hlast, hfull, fun segment hsegment => ?_⟩
      cases before with
      | nil => exact absurd hsegment not_mem_nil
      | cons first before => exact hused segment (by simp [tail_cons.symm ▸ hsegment])

theorem Holds.enqueue (h : Holds segmentSize s values) (value : T) :
    ∃ s', s.enqueue segmentSize value = some s' ∧ Holds segmentSize s' (values ++ [value]) := by
  obtain ⟨before, last, hroom, hlast, hfull, hused⟩ :=
    withRoom_eq (Nat.zero_lt_of_lt h.index) h.full h.fits h.used
  have hflatten : (before ++ [last ++ [value]]).flatten = s.mSegments.flatten ++ [value] := by
    rw [← flatten_withRoom segmentSize s.mSegments, hroom]
    simp
  refine ⟨⟨before ++ [last ++ [value]], s.mIndexIntoFirst, s.mSize + 1⟩, ?_, ?_⟩
  · simp [Queue.enqueue, hroom]
  · refine ⟨?_, ?_, ?_, h.index, ?_, ?_, ?_⟩
    · rw [hflatten, drop_append_of_le_length h.inside, h.contents]
    · simp [h.size]
    · rw [hflatten, length_append]
      exact Nat.le_add_right_of_le h.inside
    · rwa [dropLast_concat]
    · intro segment hsegment
      rcases mem_append.mp hsegment with hsegment | hsegment
      · exact Nat.le_of_eq (hfull segment hsegment)
      · rw [mem_singleton.mp hsegment, length_append]
        exact hlast
    · intro segment hsegment
      cases before with
      | nil => exact absurd hsegment not_mem_nil
      | cons first before =>
        rw [List.cons_append, tail_cons, mem_append] at hsegment
        rcases hsegment with hsegment | hsegment
        · exact hused segment hsegment
        · rw [mem_singleton.mp hsegment]
          simp

/-- A queue without values keeps at most one segment, which is emptied. -/
theorem Holds.recycle (h : Holds segmentSize s values) :
    Holds segmentSize (Queue.recycle s) values := by
  by_cases hsize : s.mSize = 0
  · have hvalues : values = [] := length_eq_zero_iff.mp (h.size.symm.trans hsize)
    subst hvalues
    have hpos := Nat.zero_lt_of_lt h.index
    rw [Queue.recycle, if_pos hsize]
    cases hsegments : s.mSegments with
    | nil => exact h
    | cons first segments =>
      have hnone : segments = [] := by
        cases segments with
        | nil => rfl
        | cons second segments =>
          have hfull := h.full first (by simp [hsegments])
          have hused := length_pos_iff.mpr (h.used second (by simp [hsegments]))
          have hlength := drop_eq_nil_iff.mp h.contents
          simp only [hsegments, flatten_cons, length_append] at hlength
          have hindex := h.index
          omega
      subst hnone
      exact ⟨rfl, hsize, Nat.zero_le _, hpos, nofun, by simp, nofun⟩
  · rwa [Queue.recycle, if_neg hsize]

theorem Holds.dequeue {value : T} {rest : List T} (h : Holds segmentSize s (value :: rest)) :
    ∃ s', s.dequeue segmentSize = some (value, s') ∧ Holds segmentSize s' rest := by
  obtain ⟨first, segments, hsegments, hget⟩ := h.first
  have hempty := (isEmpty_eq_false_iff h).mpr (cons_ne_nil value rest)
  have hrest : s.mSegments.flatten.drop (s.mIndexIntoFirst + 1) = rest := by
    rw [← drop_drop, h.contents, drop_one, tail_cons]
  have hsize : s.mSize - 1 = rest.length := by rw [h.size, length_cons, Nat.add_sub_cancel]
  obtain ⟨hlt, -⟩ := List.getElem?_eq_some_iff.mp hget
  have hfits := h.fits first (by simp [hsegments])
  rw [Queue.dequeue, hempty, if_neg Bool.false_ne_true, hsegments]
  simp only [List.head?_cons, Option.bind_eq_bind, Option.bind_some, hget]
  refine ⟨_, rfl, Holds.recycle ?_⟩
  by_cases hlast : s.mIndexIntoFirst + 1 = segmentSize
  · -- the first segment is used up
    have hlength : first.length = s.mIndexIntoFirst + 1 := by omega
    simp only [if_pos hlast]
    refine ⟨?_, hsize, Nat.zero_le _, Nat.zero_lt_of_lt h.index, ?_, ?_, ?_⟩
    · rw [hsegments, flatten_cons, ← hlength, drop_left] at hrest
      exact hrest
    · intro segment hsegment
      refine h.full segment ?_
      rw [hsegments]
      cases segments with
      | nil => exact absurd hsegment not_mem_nil
      | cons second segments => exact mem_cons_of_mem first hsegment
    · exact fun segment hsegment => h.fits segment (by simp [hsegments, tail_cons ▸ hsegment])
    · exact fun segment hsegment =>
        h.used segment (by simpa [hsegments] using mem_of_mem_tail hsegment)
  · simp only [if_neg hlast]
    refine ⟨?_, hsize, ?_, ?_, ?_, ?_, ?_⟩
    · exact hsegments ▸ hrest
    · rw [flatten_cons, length_append]
      exact Nat.le_add_right_of_le hlt
    · exact Nat.lt_of_le_of_ne h.index hlast
    · exact hsegments ▸ h.full
    · exact hsegments ▸ h.fits
    · exact hsegments ▸ h.used

/-! ## Runs -/

theorem Holds.describes (h : Holds segmentSize s values) (value : Option T) :
    Describes (s, value) (values, value) :=
  ⟨h.size, h.head_eq, rfl⟩

theorem Holds.step (h : Holds segmentSize s values) {value : Option T} {op : Operation T}
    (hop : Permitted (s, value) op) :
    ∃ s', Queue.step segmentSize (s, value) op = some (s', (operate values op).2) ∧
      Holds segmentSize s' (operate values op).1 := by
  cases op with
  | enqueue new =>
    obtain ⟨s', heq, h'⟩ := h.enqueue new
    exact ⟨s', by rw [Queue.step, heq]; rfl, h'⟩
  | dequeue =>
    cases values with
    | nil => exact absurd rfl ((isEmpty_eq_false_iff h).mp hop)
    | cons first rest =>
      obtain ⟨s', heq, h'⟩ := h.dequeue
      exact ⟨s', by rw [Queue.step, heq]; rfl, h'⟩
  | head =>
    cases values with
    | nil => exact absurd rfl ((isEmpty_eq_false_iff h).mp hop)
    | cons first rest => exact ⟨s, by rw [Queue.step, h.head_eq]; rfl, h⟩
  | clear => exact ⟨empty, rfl, holds_empty (Nat.zero_lt_of_lt h.index)⟩

/-- In every run of a queue whose segments have room for a value, the values come out in the order
in which they were put in. -/
theorem queue_implements (hpos : 0 < segmentSize) {ops : List (Operation T)}
    (hops : Each (Queue.step segmentSize) Permitted (empty, none) ops) :
    Implements (Queue.step segmentSize) (fun t op t' => t' = operate t.1 op) Describes
      (empty, none) ([], none) ops := by
  have hdescribes : ∀ (s : Queue T × Option T) (t : List T × Option T),
      Holds segmentSize s.1 t.1 ∧ s.2 = t.2 → Describes s t := by
    rintro ⟨s, value⟩ ⟨values, _⟩ ⟨h, rfl⟩
    exact h.describes value
  refine Implements.of_each hdescribes ?_ ⟨holds_empty hpos, rfl⟩ hops
  rintro ⟨s, value⟩ ⟨values, _⟩ op ⟨h, rfl⟩ hop
  obtain ⟨s', heq, h'⟩ := h.step hop
  exact ⟨(s', (operate values op).2), operate values op, heq, rfl, h', rfl⟩

end

/-- Four values go through segments of two. -/
theorem queue_implements_four :
    Implements (Queue.step 2) (fun t op t' => t' = operate t.1 op) Describes (empty, none) ([], none)
      [.enqueue 1, .enqueue 2, .enqueue 3, .dequeue, .head, .dequeue, .enqueue 4, .dequeue, .dequeue,
        .clear] :=
  queue_implements (by decide) (by decide)

/-- Segments without room lose the second value. -/
theorem not_queue_implements_zero :
    ¬ ∀ ops : List (Operation Nat), Each (Queue.step 0) Permitted (empty, none) ops →
      Implements (Queue.step 0) (fun t op t' => t' = operate t.1 op) Describes
        (empty, none) ([], none) ops := by
  intro h
  obtain ⟨s, hrun⟩ := (h [.enqueue 1, .enqueue 2, .dequeue, .dequeue] (by decide)).exists_run
  cases hrun

end Queue

end Literate.AK

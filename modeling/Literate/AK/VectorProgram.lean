import Literate.AK.VectorStore
import Literate.Foundation.Run

/-!
# AK: programs with vectors

A program calls the operations of its vectors in any order, and sees what they answer.  What
it sees is what a program with lists in the place of the vectors sees, as long as no vector
is moved before its own elements and no capacity overflows in bytes.
-/

namespace Literate.AK

open Foundation List

variable {α : Type}

/-- A call on the vector `this`. -/
inductive Op (α : Type) where
  | append (this : Nat) (value : α)
  | appendValues (this : Nat) (values : List α)
  | insert (this index : Nat) (value : α)
  | prepend (this : Nat) (value : α)
  | prependValues (this : Nat) (values : List α)
  | extend (this other : Nat)
  | extendMove (this other : Nat)
  | prependMove (this other : Nat)
  | remove (this index : Nat)
  | removeCount (this index count : Nat)
  | removeFirstMatching (this : Nat) (predicate : α → Bool)
  | removeAllMatching (this : Nat) (predicate : α → Bool)
  | takeFirst (this : Nat)
  | takeLast (this : Nat)
  | resize (this newSize : Nat) (keepCapacity : Bool)
  | shrink (this newSize : Nat) (keepCapacity : Bool)
  | ensureCapacity (this neededCapacity : Nat)
  | growCapacity (this neededCapacity : Nat)
  | clear (this : Nat)
  | clearWithCapacity (this : Nat)
  | copyAssign (this other : Nat)
  | moveAssign (this other : Nat)
  | copyConstruct (this other : Nat)
  | moveConstruct (this other : Nat)

/-- What a call answers. -/
inductive Output (α : Type) where
  | done
  | removed (somethingWasRemoved : Bool)
  | taken (value : α)
  deriving DecidableEq, Repr

/-! ## The program with vectors -/

namespace Store

variable (t : VectorType α)

/-- A vector after a call that answers nothing. -/
def put (store : Store α) (this : Nat) (v : Vector α) : Store α × Output α :=
  (Function.update store this v, .done)

/-- A call.  It fails where the code asserts, or uses storage that is not there. -/
def perform (store : Store α) : Op α → Option (Store α × Output α)
  | .append this value => ((store this).tryAppend t value).map (put store this)
  | .appendValues this values => ((store this).tryAppendValues t values).map (put store this)
  | .insert this index value => ((store this).tryInsert t index value).map (put store this)
  | .prepend this value => ((store this).tryPrepend t value).map (put store this)
  | .prependValues this values => ((store this).tryPrependValues t values).map (put store this)
  | .extend this other => (tryExtend t store this other).map fun store => (store, .done)
  | .extendMove this other => (tryExtendMove t store this other).map fun store => (store, .done)
  | .prependMove this other => (tryPrependMove t store this other).map fun store => (store, .done)
  | .remove this index => ((store this).remove t index).map (put store this)
  | .removeCount this index count => ((store this).removeCount t index count).map (put store this)
  | .removeFirstMatching this predicate =>
    ((store this).removeFirstMatching t predicate).map fun (v, somethingWasRemoved) =>
      (Function.update store this v, .removed somethingWasRemoved)
  | .removeAllMatching this predicate =>
    ((store this).removeAllMatching t predicate).map fun (v, somethingWasRemoved) =>
      (Function.update store this v, .removed somethingWasRemoved)
  | .takeFirst this =>
    ((store this).takeFirst t).map fun (v, value) => (Function.update store this v, .taken value)
  | .takeLast this =>
    ((store this).takeLast t).map fun (v, value) => (Function.update store this v, .taken value)
  | .resize this newSize keepCapacity =>
    ((store this).tryResize t newSize keepCapacity).map (put store this)
  | .shrink this newSize keepCapacity =>
    ((store this).shrink t newSize keepCapacity).map (put store this)
  | .ensureCapacity this neededCapacity =>
    ((store this).tryEnsureCapacity t neededCapacity).map (put store this)
  | .growCapacity this neededCapacity =>
    ((store this).tryGrowCapacity t neededCapacity).map (put store this)
  | .clear this => ((store this).clear t).map (put store this)
  | .clearWithCapacity this => ((store this).clearWithCapacity t).map (put store this)
  | .copyAssign this other => (copyAssign t store this other).map fun store => (store, .done)
  | .moveAssign this other => (moveAssign t store this other).map fun store => (store, .done)
  | .copyConstruct this other => (copyConstruct t store this other).map fun store => (store, .done)
  | .moveConstruct this other => (moveConstruct t store this other).map fun store => (store, .done)

/-- Does a call ask for a capacity that can be counted in bytes, and not put a vector before
its own elements by a move? -/
def Allowed (store : Store α) : Op α → Prop
  | .append this _ | .prepend this _ => Vector.CanGrow t (store this) ((store this).mSize + 1)
  | .insert this index _ =>
    (store this).mSize < index ∨ Vector.CanGrow t (store this) ((store this).mSize + 1)
  | .appendValues this values | .prependValues this values =>
    Vector.CanGrow t (store this) ((store this).mSize + values.length)
  | .extend this other => Vector.CanGrow t (store this) ((store this).mSize + (store other).mSize)
  | .extendMove this other => CanExtendMove t store this other
  | .prependMove this other => CanPrependMove t store this other
  | .resize this newSize _ => Vector.CanEnsure t (store this) newSize
  | .ensureCapacity this neededCapacity => Vector.CanEnsure t (store this) neededCapacity
  | .growCapacity this neededCapacity => Vector.CanGrow t (store this) neededCapacity
  | _ => True

/-- The vectors of a program before its first call. -/
def initial : Store α × List (Output α) := (fun _ => Vector.empty t, [])

/-- A call, and what was answered so far. -/
def step (state : Store α × List (Output α)) (op : Op α) : Option (Store α × List (Output α)) :=
  (perform t state.1 op).map fun (store, output) => (store, state.2 ++ [output])

end Store

/-- The elements of a vector, where they can be read. -/
def Vector.elements (v : Vector α) : List (Option α) :=
  (List.range v.mSize).map (Slots.valueAt v.data)

/-! ## The program with lists -/

namespace Lists

/-- A list after a call that answers nothing. -/
def put (lists : Nat → List α) (this : Nat) (values : List α) : (Nat → List α) × Output α :=
  (Function.update lists this values, .done)

/-- A call.  It is not defined outside of the list. -/
def perform (defaultValue : α) (lists : Nat → List α) : Op α → Option ((Nat → List α) × Output α)
  | .append this value => some (put lists this (lists this ++ [value]))
  | .appendValues this values => some (put lists this (lists this ++ values))
  | .insert this index value =>
    if index ≤ (lists this).length then
      some (put lists this ((lists this).insertIdx index value))
    else none
  | .prepend this value => some (put lists this (value :: lists this))
  | .prependValues this values => some (put lists this (values ++ lists this))
  | .extend this other => some (put lists this (lists this ++ lists other))
  | .extendMove this other =>
    let values := lists other
    let lists := Function.update lists other []
    some (put lists this (lists this ++ values))
  | .prependMove this other =>
    let values := lists other
    let lists := Function.update lists other []
    some (put lists this (values ++ lists this))
  | .remove this index =>
    if index < (lists this).length then some (put lists this ((lists this).eraseIdx index))
    else none
  | .removeCount this index count =>
    if count = 0 ∨ index + count ≤ (lists this).length then
      some (put lists this ((lists this).take index ++ (lists this).drop (index + count)))
    else none
  | .removeFirstMatching this predicate =>
    some (Function.update lists this ((lists this).eraseP predicate),
      .removed ((lists this).any predicate))
  | .removeAllMatching this predicate =>
    some (Function.update lists this ((lists this).filter fun value => !predicate value),
      .removed ((lists this).any predicate))
  | .takeFirst this =>
    match lists this with
    | [] => none
    | first :: values => some (Function.update lists this values, .taken first)
  | .takeLast this =>
    (lists this).getLast?.map fun last =>
      (Function.update lists this (lists this).dropLast, .taken last)
  | .resize this newSize _ =>
    some (put lists this ((lists this).take newSize ++
      List.replicate (newSize - (lists this).length) defaultValue))
  | .shrink this newSize _ =>
    if newSize ≤ (lists this).length then some (put lists this ((lists this).take newSize))
    else none
  | .ensureCapacity _ _ | .growCapacity _ _ => some (lists, .done)
  | .clear this | .clearWithCapacity this => some (put lists this [])
  | .copyAssign this other | .copyConstruct this other => some (put lists this (lists other))
  | .moveAssign this other | .moveConstruct this other =>
    let values := lists other
    let lists := Function.update lists other []
    some (put lists this values)

/-- The lists of a program before its first call. -/
def initial : (Nat → List α) × List (Output α) := (fun _ => [], [])

/-- A call, and what was answered so far. -/
def step (defaultValue : α) (state : (Nat → List α) × List (Output α)) (op : Op α) :
    Option ((Nat → List α) × List (Output α)) :=
  (perform defaultValue state.1 op).map fun (lists, output) => (lists, state.2 ++ [output])

end Lists

/-! ## One call -/

variable {state : Store α × List (Output α)} {ops : List (Op α)}

namespace Store

variable {t : VectorType α}

/-- The vectors hold the lists, and the answers are the same. -/
def Agrees (t : VectorType α) {β : Type} (state : Store α × β) (lists : (Nat → List α) × β) : Prop :=
  Refines t state.1 lists.1 ∧ state.2 = lists.2

variable {store : Store α} {lists : Nat → List α} {this : Nat} {values : List α}

theorem Refines.rel_put (h : Refines t store lists) {result : Option (Vector α)}
    (hresult : ∃ v, result = some v ∧ Vector.Holds t v values) :
    Option.Rel (Agrees t) (result.map (put store this)) (some (Lists.put lists this values)) := by
  obtain ⟨v, rfl, hholds⟩ := hresult
  exact .some ⟨h.update hholds, rfl⟩

theorem Refines.rel_answer {β : Type} (h : Refines t store lists) {result : Option (Vector α × β)}
    {answer : β} (output : β → Output α)
    (hresult : ∃ v, result = some (v, answer) ∧ Vector.Holds t v values) : Option.Rel (Agrees t)
      (result.map fun (v, answer) => (Function.update store this v, output answer))
      (some (Function.update lists this values, output answer)) := by
  obtain ⟨v, rfl, hholds⟩ := hresult
  exact .some ⟨h.update hholds, rfl⟩

theorem rel_store {result : Option (Store α)}
    (hresult : ∃ store, result = some store ∧ Refines t store lists) :
    Option.Rel (Agrees t) (result.map fun store => (store, (Output.done : Output α)))
      (some (lists, .done)) := by
  obtain ⟨store, rfl, hrefines⟩ := hresult
  exact .some ⟨hrefines, rfl⟩

/-- A call does to the vectors what it does to the lists. -/
theorem perform_rel (platform : Vector.Platform t)
    (h : Refines t store lists) (op : Op α) (hallowed : Allowed t store op) :
    Option.Rel (Agrees t) (perform t store op) (Lists.perform t.defaultValue lists op) := by
  cases op with
  | append this value => exact h.rel_put ((h this).tryAppend platform value hallowed)
  | appendValues this values => exact h.rel_put ((h this).tryAppendValues platform values hallowed)
  | insert this index value =>
    have hsize := h.size this
    rw [perform, Lists.perform]
    rcases Nat.lt_or_ge (lists this).length index with hlt | hle
    · rw [if_neg (Nat.not_le.mpr hlt), Vector.tryInsert, if_pos (by omega)]
      exact .none
    · rw [if_pos hle]
      exact h.rel_put ((h this).tryInsert platform hle value (hallowed.resolve_left (by omega)))
  | prepend this value =>
    exact h.rel_put ((h this).tryInsert platform (Nat.zero_le _) value hallowed)
  | prependValues this values =>
    exact h.rel_put ((h this).tryPrependValues platform values hallowed)
  | extend this other => exact rel_store (h.tryExtend platform hallowed)
  | extendMove this other => exact rel_store (h.tryExtendMove platform hallowed)
  | prependMove this other => exact rel_store (h.tryPrependMove platform hallowed)
  | remove this index =>
    have hsize := h.size this
    rw [perform, Lists.perform]
    rcases Nat.lt_or_ge index (lists this).length with hlt | hge
    · rw [if_pos hlt]
      exact h.rel_put ((h this).remove hlt)
    · rw [if_neg (Nat.not_lt.mpr hge), Vector.remove, if_pos (by omega)]
      exact .none
  | removeCount this index count =>
    have hsize := h.size this
    rw [perform, Lists.perform]
    split_ifs with hcan
    · apply h.rel_put
      cases hcan with
      | inl hzero =>
        subst hzero
        rw [Vector.removeCount, if_pos rfl, Nat.add_zero, take_append_drop]
        exact ⟨store this, rfl, h this⟩
      | inr hle => exact (h this).removeCount hle
    · obtain ⟨hcount, hafter⟩ := not_or.mp hcan
      rw [Vector.removeCount, if_neg hcount, if_pos (by omega)]
      exact .none
  | removeFirstMatching this predicate => exact h.rel_answer .removed (h this).removeFirstMatching
  | removeAllMatching this predicate => exact h.rel_answer .removed (h this).removeAllMatching
  | takeFirst this =>
    have hsize := h.size this
    have hthis := h this
    rw [perform, Lists.perform]
    cases hlist : lists this with
    | nil =>
      rw [hlist, length_nil] at hsize
      rw [Vector.takeFirst, if_pos hsize]
      exact .none
    | cons first values =>
      rw [hlist] at hthis
      exact h.rel_answer .taken hthis.takeFirst
  | takeLast this =>
    have hsize := h.size this
    have hthis := h this
    rw [perform, Lists.perform]
    rcases eq_nil_or_concat (lists this) with hnil | ⟨values, last, hconcat⟩
    · rw [hnil, length_nil] at hsize
      rw [hnil, Vector.takeLast, if_pos hsize]
      exact .none
    · rw [concat_eq_append] at hconcat
      rw [hconcat] at hthis
      rw [hconcat, List.getLast?_concat, dropLast_concat]
      exact h.rel_answer .taken hthis.takeLast
  | resize this newSize keepCapacity =>
    exact h.rel_put ((h this).tryResize platform hallowed keepCapacity)
  | shrink this newSize keepCapacity =>
    have hsize := h.size this
    rw [perform, Lists.perform]
    split_ifs with hle
    · exact h.rel_put ((h this).shrink platform hle keepCapacity)
    · rw [Vector.shrink, if_pos (by omega)]
      exact .none
  | ensureCapacity this neededCapacity =>
    obtain ⟨v, hv, hholds, -⟩ := (h this).tryEnsureCapacity platform hallowed
    rw [perform, Lists.perform]
    rw [hv]
    exact .some ⟨h.replace hholds, rfl⟩
  | growCapacity this neededCapacity =>
    obtain ⟨v, hv, hholds, -⟩ := (h this).tryGrowCapacity platform hallowed
    rw [perform, Lists.perform]
    rw [hv]
    exact .some ⟨h.replace hholds, rfl⟩
  | clear this =>
    obtain ⟨v, hv, hholds, -⟩ := (h this).clear platform
    exact h.rel_put ⟨v, hv, hholds⟩
  | clearWithCapacity this => exact h.rel_put (h this).clearWithCapacity
  | copyAssign this other => exact rel_store (h.copyAssign platform this other)
  | moveAssign this other => exact rel_store (h.moveAssign platform this other)
  | copyConstruct this other => exact rel_store (h.copyConstruct platform this other)
  | moveConstruct this other => exact rel_store (h.moveConstruct platform this other)

theorem step_rel (platform : Vector.Platform t) {lists : (Nat → List α) × List (Output α)}
    (h : Agrees t state lists) (op : Op α) (hallowed : Allowed t state.1 op) :
    Option.Rel (Agrees t) (step t state op) (Lists.step t.defaultValue lists op) := by
  have hrel := perform_rel platform h.1 op hallowed
  unfold step Lists.step
  generalize perform t state.1 op = result at hrel
  generalize Lists.perform t.defaultValue lists.1 op = result' at hrel
  cases hrel with
  | none => exact .none
  | some hagrees =>
    refine .some ⟨hagrees.1, ?_⟩
    dsimp only
    rw [h.2, hagrees.2]

/-! ## Runs -/

theorem agrees_initial (platform : Vector.Platform t) : Agrees t (initial t) Lists.initial :=
  ⟨fun _ => Vector.holds_empty platform, rfl⟩

/-- What a program sees of its vectors. -/
def view (state : Store α × List (Output α)) : (Nat → List (Option α)) × List (Output α) :=
  (fun this => (state.1 this).elements, state.2)

/-- What a program sees of its lists. -/
def listView (state : (Nat → List α) × List (Output α)) :
    (Nat → List (Option α)) × List (Output α) :=
  (fun this => (state.1 this).map some, state.2)

end Store

theorem Vector.Holds.elements_eq {t : VectorType α} {v : Vector α} {values : List α}
    (h : Holds t v values) : v.elements = values.map some := by
  apply ext_getElem
  · simp only [Vector.elements, length_map, length_range, h.size_eq]
  · intro i hi hi'
    rw [length_map] at hi'
    simp [Vector.elements, h.valueAt hi']

namespace Store

variable {t : VectorType α}

theorem Agrees.view_eq {lists : (Nat → List α) × List (Output α)} (h : Agrees t state lists) :
    view state = listView lists := by
  refine Prod.ext (funext fun this => ?_) h.2
  exact (h.1 this).elements_eq

theorem run_view (platform : Vector.Platform t)
    (hallowed : Each (step t) (fun state => Allowed t state.1) (initial t) ops) :
    (run (step t) (initial t) ops).map view =
      (run (Lists.step t.defaultValue) Lists.initial ops).map listView := by
  have hrel := run_rel (R := Agrees t) (fun _ _ op h => step_rel platform h op)
    (agrees_initial platform) hallowed
  generalize run (step t) (initial t) ops = result at hrel
  generalize run (Lists.step t.defaultValue) Lists.initial ops = result' at hrel
  cases hrel with
  | none => rfl
  | some hagrees => exact congrArg some hagrees.view_eq

theorem always_size_le (platform : Vector.Platform t)
    (hallowed : Each (step t) (fun state => Allowed t state.1) (initial t) ops) :
    Always (step t) (fun state => ∀ this, (state.1 this).mSize ≤ (state.1 this).mCapacity)
      (initial t) ops := by
  have hstep : ∀ state op state', (∃ lists, Agrees t state lists) → Allowed t state.1 op →
      step t state op = some state' → ∃ lists, Agrees t state' lists := by
    intro state op state' hagrees hop hstate
    obtain ⟨lists, hlists⟩ := hagrees
    have hrel := step_rel platform hlists op hop
    rw [hstate] at hrel
    generalize Lists.step t.defaultValue lists op = result at hrel
    cases hrel with
    | some hnext => exact ⟨_, hnext⟩
  refine (Always.of_each hstep ⟨_, agrees_initial platform⟩ hallowed).mono fun state hagrees this => ?_
  obtain ⟨lists, hlists⟩ := hagrees
  exact (hlists.1 this).size_le

instance Allowed.decidable (store : Store α) : ∀ op, Decidable (Allowed t store op)
  | .append _ _ | .prepend _ _ | .appendValues _ _ | .prependValues _ _ | .extend _ _
  | .growCapacity _ _ | .resize _ _ _ | .ensureCapacity _ _ => inferInstanceAs (Decidable (_ ∨ _))
  | .insert _ _ _ => inferInstanceAs (Decidable (_ ∨ _ ∨ _))
  | .extendMove this other =>
    inferInstanceAs (Decidable (_ ∨ if this = other then _ ∨ _ else _ ∨ _))
  | .prependMove this other => inferInstanceAs (Decidable (_ ∨ _ ∨ (this ≠ other ∧ (_ ∨ _))))
  | .remove _ _ | .removeCount _ _ _ | .removeFirstMatching _ _ | .removeAllMatching _ _
  | .takeFirst _ | .takeLast _ | .shrink _ _ _ | .clear _ | .clearWithCapacity _
  | .copyAssign _ _ | .moveAssign _ _ | .copyConstruct _ _ | .moveConstruct _ _ => .isTrue trivial

/-- Numbers that are moved one after another. -/
def numbers (inlineCapacity : Nat) : VectorType Nat :=
  { inlineCapacity := inlineCapacity
    isTrivial := false
    elementSize := 8
    kmallocGoodSize := id
    backward := false
    defaultValue := 0 }

theorem platform_numbers_two : Vector.Platform (numbers 2) :=
  ⟨by decide, by decide, fun _ _ => Nat.le_refl _, fun _ hlt => hlt⟩

theorem platform_numbers_zero : Vector.Platform (numbers 0) :=
  ⟨by decide, by decide, fun _ _ => Nat.le_refl _, fun _ hlt => hlt⟩

/-- A program that leaves the inline buffer, moves a vector before another one, and removes. -/
def sampleOps : List (Op Nat) :=
  [.append 0 1, .append 0 2, .moveAssign 1 0, .prependValues 1 [3, 4], .append 0 5,
    .prependMove 1 0, .extend 1 1, .removeAllMatching 1 (· == 3), .takeFirst 1, .takeLast 1]

/-- The bytes of a capacity overflow, and nothing is allocated for its elements. -/
example : (step (numbers 0) (initial (numbers 0)) (.resize 0 (2 ^ 61) false)).isSome = false := by
  decide

end Store

end Literate.AK

import Literate.Foundation.Run
import Mathlib.Algebra.Order.Ring.Int
import Mathlib.Logic.Function.Basic

/-!
# AK: checked integers

`AK/Checked.h` for every integral type, over variables that hold checked integers.  The free `-`
adds, a copy of a variable that is not `const` empties it, which the postfix operators do to their
own, and an operand that has overflowed fails an assertion.  The function that is declared as
`operator!=` with a checked operand has the body of a `+=`.
-/

namespace Literate.AK

open Foundation Function Option

/-- The integral types. -/
structure Integral where
  signed : Bool
  bits : Nat
  wide : 8 ≤ bits

namespace Integral

variable (T : Integral)

/-- `NumericLimits<T>::min`. -/
def min : Int := if T.signed then -2 ^ (T.bits - 1) else 0

/-- `NumericLimits<T>::max`. -/
def max : Int := if T.signed then 2 ^ (T.bits - 1) - 1 else 2 ^ T.bits - 1

def InRange (x : Int) : Prop := T.min ≤ x ∧ x ≤ T.max

instance (x : Int) : Decidable (T.InRange x) := by
  unfold InRange
  infer_instance

/-- A value of the type. -/
@[ext] structure Value (T : Integral) where
  toInt : Int
  inRange : T.InRange toInt
  deriving DecidableEq

variable {T}

theorem two_pow_bits : (2 : Int) ^ T.bits = 2 * 2 ^ (T.bits - 1) := by
  have h : T.bits = T.bits - 1 + 1 := (Nat.sub_add_cancel (Nat.le_trans (by decide) T.wide)).symm
  rw [h, Int.pow_succ, Nat.add_sub_cancel, Int.mul_comm]

theorem one_lt_half : (1 : Int) < 2 ^ (T.bits - 1) := by
  have h : T.bits - 1 ≠ 0 := by
    have := T.wide
    omega
  exact one_lt_pow₀ (by decide) h

theorem max_eq : T.max = T.min + 2 ^ T.bits - 1 := by
  have h := T.two_pow_bits
  unfold max min
  split <;> omega

theorem wrap_inRange (x : Int) : T.InRange (T.min + (x - T.min) % 2 ^ T.bits) := by
  have hpos : (0 : Int) < 2 ^ T.bits := Int.pow_pos (by decide)
  have hnonneg := Int.emod_nonneg (x - T.min) (Int.ne_of_gt hpos)
  have hlt := Int.emod_lt_of_pos (x - T.min) hpos
  have hmax := T.max_eq
  constructor <;> omega

variable (T)

/-- A conversion to the type, which wraps around. -/
def wrap (x : Int) : T.Value := ⟨T.min + (x - T.min) % 2 ^ T.bits, wrap_inRange x⟩

/-- `is_within_range`, whose cases are those of `TypeBoundsChecker`. -/
def isWithinRange (U : Integral) (value : U.Value) : Bool :=
  match decide (U.bits ≤ T.bits), T.signed, U.signed with
  | false, false, false => value.toInt ≤ T.max
  | false, true, true => value.toInt ≤ T.max ∧ T.min ≤ value.toInt
  | false, false, true => 0 ≤ value.toInt ∧ value.toInt ≤ T.max
  | false, true, false => value.toInt ≤ T.max
  | true, false, false => true
  | true, true, true => true
  | true, false, true => 0 ≤ value.toInt
  | true, true, false => if U.bits < T.bits then true else value.toInt ≤ T.max

structure Checked (T : Integral) where
  mValue : T.Value
  mOverflow : Bool := false
  deriving DecidableEq

/-- The four operations. -/
inductive Operator
  | add
  | sub
  | mul
  | div
  deriving DecidableEq, Repr

namespace Checked

variable {T}

/-- `Checked(U value)`. -/
def ofIntegral (U : Integral) (value : U.Value) : T.Checked :=
  ⟨T.wrap value.toInt, !T.isWithinRange U value⟩

/-- `Checked(Checked&)`: the copy, and what the source is left with. -/
def copy (other : T.Checked) : T.Checked × T.Checked :=
  (other, ⟨T.wrap 0, false⟩)

def hasOverflow (this : T.Checked) : Bool := this.mOverflow

/-- `value`, which asserts that there is no overflow. -/
def value (this : T.Checked) : Option T.Value :=
  if this.mOverflow then none else some this.mValue

/-- `m_overflow |= __builtin_*_overflow(.., &m_value)` for an exact result. -/
def store (this : T.Checked) (exact : Int) : T.Checked :=
  ⟨T.wrap exact, this.mOverflow || !decide (T.InRange exact)⟩

def add (this : T.Checked) (other : T.Value) : T.Checked :=
  this.store (this.mValue.toInt + other.toInt)

def sub (this : T.Checked) (other : T.Value) : T.Checked :=
  this.store (this.mValue.toInt - other.toInt)

def mul (this : T.Checked) (other : T.Value) : T.Checked :=
  this.store (this.mValue.toInt * other.toInt)

def div (this : T.Checked) (other : T.Value) : T.Checked :=
  if T.signed = true ∧ other.toInt = -1 ∧ this.mValue.toInt = T.min then
    { this with mOverflow := true }
  else if other.toInt = 0 then { this with mOverflow := true }
  else { this with mValue := T.wrap (this.mValue.toInt.tdiv other.toInt) }

/-- The member of an operation. -/
def member (this : T.Checked) : Operator → T.Value → T.Checked
  | .add => this.add
  | .sub => this.sub
  | .mul => this.mul
  | .div => this.div

/-- `operator-=`, `operator*=`, `operator/=` and `operator!=` with a checked operand. -/
def compoundChecked (this : T.Checked) (op : Operator) (other : T.Checked) : Option T.Checked :=
  other.value.map fun value =>
    { this with mOverflow := this.mOverflow || other.mOverflow }.member op value

/-- `operator+=`, `operator-=` and `operator/=` with a value.  There is no such `operator*=`; the
operand is converted to a checked integer. -/
def compound (this : T.Checked) (op : Operator) (other : T.Value) : Option T.Checked :=
  match op with
  | .mul => this.compoundChecked .mul (ofIntegral T other)
  | op => some (this.member op other)

/-- The free operators; that of a difference adds. -/
def free (op : Operator) (a b : T.Checked) : Option T.Checked :=
  match op with
  | .sub => b.value.map a.add
  | op => b.value.map (a.member op)

/-- Prefix `operator++`. -/
def increment (this : T.Checked) : T.Checked := this.add (T.wrap 1)

/-- Prefix `operator--`. -/
def decrement (this : T.Checked) : T.Checked := this.sub (T.wrap 1)

/-- Postfix `operator++`: the old value, and the new one. -/
def postIncrement (this : T.Checked) : T.Checked × T.Checked :=
  let (old, this) := this.copy
  (old, this.add (T.wrap 1))

/-- Postfix `operator--`. -/
def postDecrement (this : T.Checked) : T.Checked × T.Checked :=
  let (old, this) := this.copy
  (old, this.sub (T.wrap 1))

end Checked

/-- An operation; its result is put in the variable `k`. -/
inductive Operation (T : Integral)
  | construct (k : Nat) (value : T.Value)
  | convert (k : Nat) (U : Integral) (value : U.Value)
  | member (op : Operator) (k : Nat) (other : T.Value)
  | compound (op : Operator) (k : Nat) (other : T.Value)
  | compoundChecked (op : Operator) (k l : Nat)
  | free (op : Operator) (k l m : Nat)
  | increment (k : Nat)
  | decrement (k : Nat)
  | postIncrement (k l : Nat)
  | postDecrement (k l : Nat)
  | copyConst (k l : Nat)
  | copy (k l : Nat)

variable {T}

open Function (update)

/-- The variables before the first operation. -/
def start (T : Integral) (_ : Nat) : T.Checked := ⟨T.wrap 0, false⟩

/-- An operation on the variables. -/
def step (s : Nat → T.Checked) : Operation T → Option (Nat → T.Checked)
  | .construct k value => some (update s k ⟨value, false⟩)
  | .convert k U value => some (update s k (.ofIntegral U value))
  | .member op k other => some (update s k ((s k).member op other))
  | .compound op k other => ((s k).compound op other).map (update s k)
  | .compoundChecked op k l => ((s k).compoundChecked op (s l)).map (update s k)
  | .free op k l m => (Checked.free op (s l) (s m)).map (update s k)
  | .increment k => some (update s k (s k).increment)
  | .decrement k => some (update s k (s k).decrement)
  | .postIncrement k l => some (update (update s l (s l).postIncrement.2) k (s l).postIncrement.1)
  | .postDecrement k l => some (update (update s l (s l).postDecrement.2) k (s l).postDecrement.1)
  | .copyConst k l => some (update s k (s l))
  | .copy k l => some (update (update s l (s l).copy.2) k (s l).copy.1)

/-- The variable has not overflowed, and its value is 0. -/
def Empty (this : T.Checked) : Prop := this.mOverflow = false ∧ this.mValue.toInt = 0

instance (this : T.Checked) : Decidable (Empty this) := by
  unfold Empty
  infer_instance

/-- No checked operand on the right has overflowed, a difference is by 0 or overflows as the sum
does, and a variable that is copied from elsewhere than itself is empty already. -/
def Exact (s : Nat → T.Checked) : Operation T → Prop
  | .compoundChecked _ _ l => (s l).mOverflow = false
  | .free .sub _ l m =>
      (s m).mOverflow = false ∧ ((s l).mOverflow = true ∨ (s m).mValue.toInt = 0 ∨
        (¬ T.InRange ((s l).mValue.toInt - (s m).mValue.toInt) ∧
          ¬ T.InRange ((s l).mValue.toInt + (s m).mValue.toInt)))
  | .free _ _ _ m => (s m).mOverflow = false
  | .postIncrement k l => k = l ∨ Empty (s l)
  | .postDecrement k l => k = l ∨ Empty (s l) ∨ (T.signed = false ∧ (s l).mOverflow = true)
  | .copy k l => k = l ∨ Empty (s l)
  | _ => True

instance (s : Nat → T.Checked) (op : Operation T) : Decidable (Exact s op) := by
  cases op with
  | free op => cases op <;> unfold Exact <;> infer_instance
  | _ => unfold Exact; infer_instance

/-! ### Exact arithmetic -/

/-- The exact result of an operation. -/
def Operator.exact : Operator → Int → Int → Option Int
  | .add, a, b => some (a + b)
  | .sub, a, b => some (a - b)
  | .mul, a, b => some (a * b)
  | .div, a, b => if b = 0 then none else some (a.tdiv b)

variable (T)

/-- A result that the type has. -/
def limit (x : Int) : Option Int := if T.InRange x then some x else none

/-- The result of an operation on results; nothing comes of one that has overflowed. -/
def result (op : Operator) (a b : Option Int) : Option Int :=
  a.bind fun x => b.bind fun y => (op.exact x y).bind T.limit

variable {T}

/-- What an operation does to the results that the variables stand for. -/
def operate (t : Nat → Option Int) : Operation T → Nat → Option Int
  | .construct k value => update t k (some value.toInt)
  | .convert k _ value => update t k (T.limit value.toInt)
  | .member op k other | .compound op k other => update t k (T.result op (t k) (some other.toInt))
  | .compoundChecked op k l => update t k (T.result op (t k) (t l))
  | .free op k l m => update t k (T.result op (t l) (t m))
  | .increment k => update t k (T.result .add (t k) (some 1))
  | .decrement k => update t k (T.result .sub (t k) (some 1))
  | .postIncrement k l => update (update t l (T.result .add (t l) (some 1))) k (t l)
  | .postDecrement k l => update (update t l (T.result .sub (t l) (some 1))) k (t l)
  | .copyConst k l | .copy k l => update t k (t l)

/-- A variable has overflowed where there is no result, and has its value where there is one. -/
def Describes (s : Nat → T.Checked) (t : Nat → Option Int) : Prop :=
  ∀ k, (s k).hasOverflow = (t k).isNone ∧ (s k).value.map Value.toInt = t k

/-- The results that the variables stand for. -/
def view (s : Nat → T.Checked) (k : Nat) : Option Int := (s k).value.map Value.toInt

section Exactness

variable {this : T.Checked} {other : T.Value} {s : Nat → T.Checked} {t : Nat → Option Int}
  {k l m : Nat}

theorem describes_iff : Describes s t ↔ t = view s := by
  constructor
  · exact fun h => funext fun k => (h k).2.symm
  · rintro rfl k
    refine ⟨?_, rfl⟩
    unfold view Checked.value Checked.hasOverflow
    cases (s k).mOverflow <;> rfl

theorem view_update (s : Nat → T.Checked) (k : Nat) (c : T.Checked) :
    view (update s k c) = update (view s) k (c.value.map Value.toInt) :=
  comp_update (fun c : T.Checked => c.value.map Value.toInt) s k c

theorem value_of_overflow (h : this.mOverflow = true) : this.value = none := by
  rw [Checked.value, if_pos h]

theorem value_of_not (h : this.mOverflow = false) : this.value = some this.mValue := by
  rw [Checked.value, h, if_neg Bool.false_ne_true]

theorem wrap_of_inRange {x : Int} (h : T.InRange x) : (T.wrap x).toInt = x := by
  have hmax := T.max_eq
  have hmod : (x - T.min) % 2 ^ T.bits = x - T.min :=
    Int.emod_eq_of_lt (Int.sub_nonneg.mpr h.1) (by
      have := h.2
      omega)
  change T.min + (x - T.min) % 2 ^ T.bits = x
  rw [hmod]
  omega

theorem inRange_bit {x : Int} (hzero : 0 ≤ x) (hone : x ≤ 1) : T.InRange x := by
  have h := T.one_lt_half
  have hbits := T.two_pow_bits
  unfold InRange min max
  split <;> omega

/-- The cases of `TypeBoundsChecker` ask whether the value is in the range. -/
theorem isWithinRange_iff (U : Integral) (value : U.Value) :
    T.isWithinRange U value = true ↔ T.InRange value.toInt := by
  have hT := T.two_pow_bits
  have hU := U.two_pow_bits
  have hpos : (0 : Int) < 2 ^ (U.bits - 1) := Int.pow_pos (by decide)
  have hwider : U.bits ≤ T.bits → (2 : Int) ^ (U.bits - 1) ≤ 2 ^ (T.bits - 1) := fun h =>
    pow_le_pow_right₀ (by decide) (Nat.sub_le_sub_right h 1)
  have hlt : U.bits < T.bits → (2 : Int) ^ U.bits ≤ 2 ^ (T.bits - 1) := fun h =>
    pow_le_pow_right₀ (by decide) (Nat.le_sub_one_of_lt h)
  have hgt : ¬ U.bits ≤ T.bits → (2 : Int) ^ T.bits ≤ 2 ^ (U.bits - 1) := fun h =>
    pow_le_pow_right₀ (by decide) (Nat.le_sub_one_of_lt (Nat.lt_of_not_le h))
  obtain ⟨signed, bits, wide⟩ := T
  obtain ⟨signed', bits', wide'⟩ := U
  obtain ⟨x, hx⟩ := value
  have hrange := hx
  by_cases hwide : bits' ≤ bits <;> cases signed <;> cases signed' <;>
    simp only [isWithinRange, InRange, min, max, hwide, decide_true, decide_false, decide_eq_true_eq, if_true, if_false,
      Bool.false_eq_true, true_iff, ite_eq_left_iff, not_lt,
      not_false_eq_true, not_true_eq_false, forall_const, IsEmpty.forall_iff] at * <;> omega

theorem value_store (h : this.mOverflow = false) (exact : Int) :
    (this.store exact).value.map Value.toInt = T.limit exact := by
  unfold limit
  by_cases hin : T.InRange exact
  · have hnot : (this.store exact).mOverflow = false := by
      rw [Checked.store, h, decide_eq_true hin]
      rfl
    rw [value_of_not hnot, if_pos hin, map_some]
    exact congrArg some (wrap_of_inRange hin)
  · have hover : (this.store exact).mOverflow = true := by
      rw [Checked.store, decide_eq_false hin, Bool.not_false, Bool.or_true]
    rw [value_of_overflow hover, if_neg hin, map_none]

/-- A quotient is in the range except where it is that of the smallest value by -1. -/
theorem inRange_tdiv {a b : Int} (ha : T.InRange a) (hb : T.InRange b) (hzero : b ≠ 0)
    (hmin : ¬ (T.signed = true ∧ b = -1 ∧ a = T.min)) : T.InRange (a.tdiv b) := by
  have hhalf := T.one_lt_half
  have habs : (a.tdiv b).natAbs = a.natAbs / b.natAbs := Int.natAbs_tdiv a b
  have hle : (a.tdiv b).natAbs ≤ a.natAbs := habs ▸ Nat.div_le_self _ _
  unfold InRange min max at *
  cases hsigned : T.signed with
  | false =>
    rw [hsigned] at ha hb
    simp only [Bool.false_eq_true, if_false] at *
    have hnonneg := Int.tdiv_nonneg ha.1 hb.1
    omega
  | true =>
    rw [hsigned] at ha hb hmin
    simp only [if_true, true_and] at *
    by_cases hone : b = -1
    · subst hone
      rw [Int.tdiv_neg, Int.tdiv_one]
      omega
    by_cases hlarge : b = 1
    · subst hlarge
      rw [Int.tdiv_one]
      exact ha
    · have hlt : a = 0 ∨ (a.tdiv b).natAbs < a.natAbs := by
        by_cases ha0 : a = 0
        · exact .inl ha0
        · exact .inr (habs ▸ Nat.div_lt_self (by omega) (by omega))
      rcases hlt with rfl | hlt
      · rw [Int.zero_tdiv]
        omega
      · omega

theorem value_div (h : this.mOverflow = false) : (this.div other).value.map Value.toInt =
      (Operator.div.exact this.mValue.toInt other.toInt).bind T.limit := by
  have hexact : ∀ a b : Int, Operator.div.exact a b = if b = 0 then none else some (a.tdiv b) :=
    fun _ _ => rfl
  rw [Checked.div, hexact]
  by_cases hmin : T.signed = true ∧ other.toInt = -1 ∧ this.mValue.toInt = T.min
  · obtain ⟨hsigned, hother, hvalue⟩ := hmin
    have hout : ¬ T.InRange (-T.min) := by
      unfold InRange min max
      rw [hsigned]
      simp only [if_true]
      omega
    rw [if_pos ⟨hsigned, hother, hvalue⟩, value_of_overflow rfl, hother, hvalue,
      if_neg (by decide), bind_some, Int.tdiv_neg, Int.tdiv_one, limit, if_neg hout,
      map_none]
  · rw [if_neg hmin]
    by_cases hzero : other.toInt = 0
    · rw [if_pos hzero, if_pos hzero, value_of_overflow rfl, map_none, bind_none]
    · have hin := inRange_tdiv this.mValue.inRange other.inRange hzero hmin
      simp only [if_neg hzero, bind_some, limit, if_pos hin]
      have hvalue : (⟨T.wrap (this.mValue.toInt.tdiv other.toInt), this.mOverflow⟩ :
          T.Checked).value = some (T.wrap (this.mValue.toInt.tdiv other.toInt)) := value_of_not h
      rw [hvalue, map_some, wrap_of_inRange hin]

theorem overflow_member (h : this.mOverflow = true) (op : Operator) :
    (this.member op other).mOverflow = true := by
  have hstore : ∀ exact, (this.store exact).mOverflow = true := fun exact => by
    rw [Checked.store, h, Bool.true_or]
  cases op with
  | add => exact hstore _
  | sub => exact hstore _
  | mul => exact hstore _
  | div =>
    rw [Checked.member, Checked.div]
    split
    · rfl
    · split
      · rfl
      · exact h

theorem value_member (op : Operator) : (this.member op other).value.map Value.toInt =
      T.result op (this.value.map Value.toInt) (some other.toInt) := by
  cases h : this.mOverflow with
  | true => rw [value_of_overflow (overflow_member h op), value_of_overflow h]; rfl
  | false =>
    rw [value_of_not h]
    cases op with
    | add => exact value_store h _
    | sub => exact value_store h _
    | mul => exact value_store h _
    | div => exact value_div h

/-- A checked operand aborts where it has overflowed, and is exact where it has not. -/
theorem compoundChecked_eq (op : Operator) (operand : T.Checked) :
    this.compoundChecked op operand = operand.value.map (this.member op) := by
  cases h : operand.mOverflow with
  | true => rw [Checked.compoundChecked, value_of_overflow h]; rfl
  | false => rw [Checked.compoundChecked, value_of_not h, h]; simp only [Bool.or_false]

theorem compound_eq (op : Operator) : this.compound op other = some (this.member op other) := by
  have hconvert : (Checked.ofIntegral T other : T.Checked) = ⟨other, false⟩ := by
    have hwithin := (isWithinRange_iff T other).mpr other.inRange
    have hwrap : T.wrap other.toInt = other := Value.ext (wrap_of_inRange other.inRange)
    rw [Checked.ofIntegral, hwithin, hwrap]
    rfl
  cases op with
  | mul => rw [Checked.compound, compoundChecked_eq, hconvert]; rfl
  | _ => rfl

theorem value_ofIntegral (U : Integral) (value : U.Value) :
    (Checked.ofIntegral U value : T.Checked).value.map Value.toInt = T.limit value.toInt := by
  by_cases hin : T.InRange value.toInt
  · have hnot : (Checked.ofIntegral U value : T.Checked).mOverflow = false := by
      rw [Checked.ofIntegral, (isWithinRange_iff U value).mpr hin, Bool.not_true]
    rw [value_of_not hnot, limit, if_pos hin]
    exact congrArg some (wrap_of_inRange hin)
  · have hover : (Checked.ofIntegral U value : T.Checked).mOverflow = true := by
      rw [Checked.ofIntegral, Bool.eq_false_iff.mpr (mt (isWithinRange_iff U value).mp hin),
        Bool.not_false]
    rw [value_of_overflow hover, limit, if_neg hin, map_none]

/-- A step stores what it should when the variable stands for it. -/
theorem stored_iff {c : Option T.Checked} {x : Option Int} :
    (∃ s', c.map (update s k) = some s' ∧ view s' = update (view s) k x) ↔
      ∃ c', c = some c' ∧ c'.value.map Value.toInt = x := by
  constructor
  · rintro ⟨s', hs', hview⟩
    obtain ⟨c', rfl, rfl⟩ := map_eq_some_iff.mp hs'
    rw [view_update] at hview
    exact ⟨c', rfl, update_injective (view s) k hview⟩
  · rintro ⟨c', rfl, rfl⟩
    exact ⟨_, rfl, view_update _ _ _⟩

/-- The same where the operation leaves `c` in the variable that it returns the value of. -/
theorem moved_iff {c : T.Checked} {x : Option Int} :
    (∃ s', some (update (update s l c) k (s l)) = some s' ∧
        view s' = update (update (view s) l x) k (view s l)) ↔
      k = l ∨ c.value.map Value.toInt = x := by
  have hview : view (update (update s l c) k (s l)) =
      update (update (view s) l (c.value.map Value.toInt)) k (view s l) := by
    simp only [view_update, view]
  constructor
  · rintro ⟨s', hs', hs⟩
    obtain rfl := some.inj hs'
    refine or_iff_not_imp_left.mpr fun hne => ?_
    have hl := congrFun (hview.symm.trans hs) l
    rwa [update_of_ne (Ne.symm hne), update_of_ne (Ne.symm hne),
      update_self, update_self] at hl
  · rintro h
    refine ⟨_, rfl, hview.trans ?_⟩
    rcases h with rfl | rfl
    · simp only [update_idem]
    · rfl

theorem view_of_overflow (h : (s k).mOverflow = true) : view s k = none := by
  rw [view, value_of_overflow h, map_none]

theorem view_of_not (h : (s k).mOverflow = false) : view s k = some (s k).mValue.toInt := by
  rw [view, value_of_not h, map_some]

theorem view_eq_zero : some 0 = view s l ↔ Empty (s l) := by
  unfold Empty
  cases h : (s l).mOverflow with
  | true => simp [view_of_overflow h]
  | false => simp [view_of_not h, eq_comm]

theorem limit_eq_limit {x y : Int} :
    T.limit x = T.limit y ↔ x = y ∨ (¬ T.InRange x ∧ ¬ T.InRange y) := by
  unfold limit
  by_cases hx : T.InRange x
  · have hne : ¬ T.InRange y → x ≠ y := fun hy heq => hy (heq ▸ hx)
    by_cases hy : T.InRange y <;> simp [hx, hy]
    exact hne hy
  · have hne : T.InRange y → x ≠ y := fun hy heq => hx (heq ▸ hy)
    by_cases hy : T.InRange y <;> simp [hx, hy]
    exact hne hy

theorem limit_one : T.limit 1 = some 1 := by
  rw [limit, if_pos (inRange_bit (by decide) (by decide))]

theorem result_of_not (op : Operator) (b : Int) (h : (s l).mOverflow = false) :
    T.result op (view s l) (some b) = (op.exact (s l).mValue.toInt b).bind T.limit := by
  rw [view_of_not h]
  rfl

theorem result_of_overflow (op : Operator) (b : Option Int) (h : (s l).mOverflow = true) :
    T.result op (view s l) b = none := by
  rw [view_of_overflow h]
  rfl

theorem increment_iff : some 1 = T.result .add (view s l) (some 1) ↔ Empty (s l) := by
  unfold Empty
  cases h : (s l).mOverflow with
  | true => simp [result_of_overflow .add _ h]
  | false =>
    rw [result_of_not .add 1 h, ← limit_one]
    refine limit_eq_limit.trans ?_
    have hone : T.InRange 1 := inRange_bit (by decide) (by decide)
    simp only [hone, not_true_eq_false, false_and, or_false, true_and]
    omega

theorem decrement_iff : T.limit (-1) = T.result .sub (view s l) (some 1) ↔
      Empty (s l) ∨ (T.signed = false ∧ (s l).mOverflow = true) := by
  have hrange := (s l).mValue.inRange
  have hhalf := T.one_lt_half
  unfold Empty
  cases h : (s l).mOverflow with
  | true =>
    rw [result_of_overflow .sub _ h, limit, ite_eq_right_iff]
    unfold InRange min max
    cases T.signed
    · simp
    · simp only [if_true, reduceCtorEq, false_and, or_false, imp_false, iff_false, not_not]
      omega
  | false =>
    rw [result_of_not .sub 1 h]
    refine limit_eq_limit.trans ?_
    unfold InRange min max at *
    cases hsigned : T.signed <;> simp only [hsigned, Bool.false_eq_true, if_true, if_false,
      true_and, and_false, or_false] at * <;> omega

/-- An operand that has not overflowed is what a member needs. -/
theorem operand_iff (op : Operator) (k l : Nat) : (∃ c, (s l).value.map ((s k).member op) = some c ∧
        c.value.map Value.toInt = T.result op (view s k) (view s l)) ↔
      (s l).mOverflow = false := by
  cases h : (s l).mOverflow with
  | true => simp [value_of_overflow h]
  | false =>
    rw [value_of_not h, view_of_not h]
    exact iff_of_true ⟨_, rfl, value_member op⟩ rfl

theorem difference_iff (l : Nat) (b : Int) :
    T.result .add (view s l) (some b) = T.result .sub (view s l) (some b) ↔
      (s l).mOverflow = true ∨ b = 0 ∨ (¬ T.InRange ((s l).mValue.toInt - b) ∧
        ¬ T.InRange ((s l).mValue.toInt + b)) := by
  cases h : (s l).mOverflow with
  | true =>
    rw [result_of_overflow .add _ h, result_of_overflow .sub _ h]
    exact iff_of_true rfl (.inl rfl)
  | false =>
    rw [result_of_not .add b h, result_of_not .sub b h]
    refine limit_eq_limit.trans ?_
    have hsame : (s l).mValue.toInt + b = (s l).mValue.toInt - b ↔ b = 0 := by omega
    rw [hsame, and_comm]
    simp

/-- A step is exact exactly when it meets the condition. -/
theorem step_iff (s : Nat → T.Checked) (op : Operation T) :
    (∃ s', step s op = some s' ∧ view s' = operate (view s) op) ↔ Exact s op := by
  have hone : some 1 = some (T.wrap 1).toInt := congrArg some (wrap_of_inRange (inRange_bit (by decide) (by decide))).symm
  have hempty : (⟨T.wrap 0, false⟩ : T.Checked).value.map Value.toInt = some 0 :=
    congrArg some (wrap_of_inRange (inRange_bit (by decide) (by decide)))
  cases op with
  | construct k value => exact iff_of_true (stored_iff.mpr ⟨⟨value, false⟩, rfl, rfl⟩) trivial
  | convert k U value =>
    exact iff_of_true (stored_iff.mpr ⟨_, rfl, value_ofIntegral U value⟩) trivial
  | member op k other => exact iff_of_true (stored_iff.mpr ⟨_, rfl, value_member op⟩) trivial
  | compound op k other =>
    exact iff_of_true (stored_iff.mpr ⟨_, compound_eq op, value_member op⟩) trivial
  | compoundChecked op k l =>
    rw [step, operate, stored_iff, compoundChecked_eq]
    exact operand_iff op k l
  | free op k l m =>
    rw [step, operate, stored_iff]
    cases op with
    | sub =>
      cases h : (s m).mOverflow with
      | true => simp [Checked.free, value_of_overflow h, Exact, h]
      | false =>
        have hadd : ((s l).add (s m).mValue).value.map Value.toInt =
            T.result .add (view s l) (some (s m).mValue.toInt) := value_member .add
        rw [Checked.free, value_of_not h, view_of_not h, Exact, h, ← difference_iff]
        simp [hadd]
    | _ => exact operand_iff _ l m
  | increment k =>
    refine iff_of_true ?_ trivial
    rw [step, operate, hone]
    exact stored_iff.mpr ⟨_, rfl, value_member .add⟩
  | decrement k =>
    refine iff_of_true ?_ trivial
    rw [step, operate, hone]
    exact stored_iff.mpr ⟨_, rfl, value_member .sub⟩
  | postIncrement k l =>
    have hnew : ((⟨T.wrap 0, false⟩ : T.Checked).add (T.wrap 1)).value.map Value.toInt =
        some 1 := by
      refine (value_member .add).trans ?_
      rw [hempty, ← hone]
      exact limit_one
    refine (moved_iff (c := Checked.add ⟨T.wrap 0, false⟩ (T.wrap 1))).trans ?_
    rw [hnew, increment_iff]
    rfl
  | postDecrement k l =>
    have hnew : ((⟨T.wrap 0, false⟩ : T.Checked).sub (T.wrap 1)).value.map Value.toInt =
        T.limit (-1) := by
      refine (value_member .sub).trans ?_
      rw [hempty, ← hone]
      rfl
    refine (moved_iff (c := Checked.sub ⟨T.wrap 0, false⟩ (T.wrap 1))).trans ?_
    rw [hnew, decrement_iff]
    rfl
  | copyConst k l => exact iff_of_true (stored_iff.mpr ⟨s l, rfl, rfl⟩) trivial
  | copy k l =>
    have hmoved := @moved_iff T s k l ⟨T.wrap 0, false⟩ (view s l)
    rw [update_eq_self, hempty, view_eq_zero] at hmoved
    exact hmoved

end Exactness

/-- Every result is exact, and an overflow stays, exactly when no step subtracts by the free
operator, copies a variable with a value or has an operand that has overflowed, up to what `Exact`
leaves. -/
theorem checked_iff (T : Integral) (s : Nat → T.Checked) (ops : List (Operation T)) :
    Implements step (fun t op t' => t' = operate t op) Describes s (view s) ops ↔
      Each step Exact s ops := by
  refine @implements_iff_each _ _ _ _ _ _ (fun _ s t => t = view s) Exact
    (fun _ _ _ => describes_iff.mpr)
    (fun _ _ _ h h' => (describes_iff.mp h).trans (describes_iff.mp h').symm) ?_ ?_ ops s _ rfl
  · rintro op _ s _ rfl hexact
    obtain ⟨s', hs', hview⟩ := (step_iff s op).mpr hexact
    exact ⟨s', _, hs', rfl, hview.symm⟩
  · rintro op _ s _ rfl hnot s' _ hs' rfl hdescribes
    exact hnot ((step_iff s op).mp ⟨s', hs', (describes_iff.mp hdescribes).symm⟩)

/-- Three less one is four, and `++` behind a variable takes its value away. -/
theorem not_checked :
    ¬ Implements step (fun t op t' => t' = operate t op) Describes (start ⟨true, 32, by decide⟩)
        (view (start ⟨true, 32, by decide⟩))
        [.construct 0 ⟨3, by decide⟩, .construct 1 ⟨1, by decide⟩, .free .sub 2 0 1] ∧
      ¬ Implements step (fun t op t' => t' = operate t op) Describes
        (start ⟨true, 32, by decide⟩) (view (start ⟨true, 32, by decide⟩))
        [.construct 0 ⟨3, by decide⟩, .postIncrement 1 0] :=
  ⟨fun h => absurd ((checked_iff _ _ _).mp h) (by decide),
    fun h => absurd ((checked_iff _ _ _).mp h) (by decide)⟩

end Integral

end Literate.AK

import Mathlib.Data.Nat.Bitwise
import Mathlib.Data.Nat.Prime.Basic
import Mathlib.Dynamics.PeriodicPts.Defs
import Mathlib.Order.Interval.Finset.Nat

/-!
# Foundation: maps that are linear for exclusive or

A map `f` of the numbers of `w` bits that respects exclusive or is a matrix over the field
with two elements, and the powers of `f` are the powers of an unknown modulo a polynomial
that `f` satisfies.  Polynomials are numbers here, a bit for each coefficient, so that their
powers can be computed: `act f n p x` is the polynomial `p`, of less than `n` bits, of `f`
at `x`.  A map whose order is the greatest that there can be runs through all numbers but
zero.
-/

namespace Literate.Foundation

open Function Nat
open Finset (range card_range mem_range mem_erase)

/-- The map respects exclusive or. -/
structure XorLinear (f : Nat → Nat) : Prop where
  map_zero : f 0 = 0
  map_xor : ∀ x y, f (x ^^^ y) = f x ^^^ f y

theorem XorLinear.id : XorLinear fun x => x := ⟨rfl, fun _ _ => rfl⟩

theorem XorLinear.shiftLeft (i : Nat) : XorLinear fun x => x <<< i :=
  ⟨Nat.zero_shiftLeft i, fun _ _ => Nat.shiftLeft_xor_distrib⟩

theorem XorLinear.shiftRight (i : Nat) : XorLinear fun x => x >>> i :=
  ⟨Nat.zero_shiftRight i, fun _ _ => Nat.shiftRight_xor_distrib⟩

theorem XorLinear.truncate (w : Nat) : XorLinear fun x => x % 2 ^ w :=
  ⟨zero_mod _, fun _ _ => xor_mod_two_pow⟩

theorem XorLinear.comp {f g : Nat → Nat} (hg : XorLinear g) (hf : XorLinear f) :
    XorLinear fun x => g (f x) :=
  ⟨(congrArg g hf.map_zero).trans hg.map_zero, fun x y =>
    (congrArg g (hf.map_xor x y)).trans (hg.map_xor _ _)⟩

theorem XorLinear.xor {f g : Nat → Nat} (hf : XorLinear f) (hg : XorLinear g) :
    XorLinear fun x => f x ^^^ g x := by
  refine ⟨by rw [hf.map_zero, hg.map_zero, Nat.xor_self], fun x y => ?_⟩
  simp only [hf.map_xor, hg.map_xor, Nat.xor_assoc, ← Nat.xor_assoc (f y), Nat.xor_comm (f y)]

/-- The highest bits of two numbers are the same and go away. -/
theorem xor_lt_of_le {w a b : Nat} (ha : 2 ^ w ≤ a) (ha' : a < 2 ^ (w + 1)) (hb : 2 ^ w ≤ b)
    (hb' : b < 2 ^ (w + 1)) : a ^^^ b < 2 ^ w := by
  have hdiv : ∀ c, 2 ^ w ≤ c → c < 2 ^ (w + 1) → c / 2 ^ w = 1 := by
    intro c hc hc'
    rw [Nat.pow_succ, Nat.mul_comm] at hc'
    apply Nat.le_antisymm
    · exact le_of_lt_succ (Nat.div_lt_of_lt_mul (Nat.mul_comm 2 (2 ^ w) ▸ hc'))
    · exact (Nat.one_le_div_iff (Nat.two_pow_pos w)).mpr hc
  have hzero : (a ^^^ b) / 2 ^ w = 0 := by
    rw [xor_div_two_pow, hdiv a ha ha', hdiv b hb hb', Nat.xor_self]
  exact (div_eq_zero_iff_lt (Nat.two_pow_pos w)).mp hzero

/-- The map is determined by the powers of two. -/
theorem XorLinear.eq_zero_of_basis {f : Nat → Nat} (hf : XorLinear f) {w : Nat}
    (hbasis : ∀ i < w, f (2 ^ i) = 0) {x : Nat} (hx : x < 2 ^ w) : f x = 0 := by
  induction w generalizing x with
  | zero =>
    rw [Nat.pow_zero, Nat.lt_one_iff] at hx
    rw [hx, hf.map_zero]
  | succ w ih =>
    have hbelow : ∀ i < w, f (2 ^ i) = 0 := fun i hi => hbasis i (lt_succ_of_lt hi)
    cases Nat.lt_or_ge x (2 ^ w) with
    | inl hlt => exact ih hbelow hlt
    | inr hge =>
      have hrest : x ^^^ 2 ^ w < 2 ^ w :=
        xor_lt_of_le hge hx (Nat.le_refl _) (Nat.pow_lt_pow_right (by decide) (Nat.lt_succ_self w))
      have htop : (x ^^^ 2 ^ w) ^^^ 2 ^ w = x := xor_xor_cancel_right x (2 ^ w)
      rw [← htop, hf.map_xor, ih hbelow hrest, hbasis w (Nat.lt_succ_self w), Nat.xor_self]

/-! ## Polynomials of a map -/

/-- The polynomial `p`, of less than `n` bits, of `f` at `x`. -/
def act (f : Nat → Nat) : (n p x : Nat) → Nat
  | 0, _, _ => 0
  | n + 1, p, x => (if p % 2 = 1 then x else 0) ^^^ act f n (p / 2) (f x)

/-- A polynomial times the unknown, modulo the polynomial `m` of degree `w`. -/
def mulX (w m p : Nat) : Nat := if 2 ^ w ≤ 2 * p then (2 * p) ^^^ m else 2 * p

/-- The product of two polynomials, the first one of less than `n` bits. -/
def mulModulo (w m : Nat) : (n p q : Nat) → Nat
  | 0, _, _ => 0
  | n + 1, p, q => (if p % 2 = 1 then q else 0) ^^^ mulModulo w m n (p / 2) (mulX w m q)

/-- The unknown to the power `e`, of less than `n` bits. -/
def powModulo (w m : Nat) : (n e : Nat) → Nat
  | 0, _ => 1
  | n + 1, e =>
    let root := powModulo w m n (e / 2)
    let square := mulModulo w m w root root
    if e % 2 = 1 then mulX w m square else square

variable {f : Nat → Nat} {n p q x : Nat}

theorem XorLinear.ite (c : Prop) [Decidable c] : XorLinear fun x => if c then x else 0 := by
  refine ⟨ite_self 0, fun x y => ?_⟩
  by_cases hc : c
  · simp only [if_pos hc]
  · simp only [if_neg hc, Nat.xor_self]

theorem XorLinear.act (hf : XorLinear f) (n p : Nat) : XorLinear (act f n p) := by
  induction n generalizing p with
  | zero => exact ⟨rfl, fun _ _ => (Nat.xor_self 0).symm⟩
  | succ n ih => exact (XorLinear.ite (p % 2 = 1)).xor ((ih (p / 2)).comp hf)

theorem act_map (hf : XorLinear f) : act f n p (f x) = f (act f n p x) := by
  induction n generalizing p x with
  | zero => exact hf.map_zero.symm
  | succ n ih =>
    rw [act, act, hf.map_xor, ih]
    by_cases hodd : p % 2 = 1
    · simp only [if_pos hodd]
    · simp only [if_neg hodd, hf.map_zero]

theorem act_zero : act f n 0 x = 0 := by
  induction n generalizing x with
  | zero => rfl
  | succ n ih => rw [act, Nat.zero_div, ih, zero_mod, if_neg Nat.zero_ne_one, Nat.xor_self]

theorem act_xor : act f n (p ^^^ q) x = act f n p x ^^^ act f n q x := by
  induction n generalizing p q x with
  | zero => exact (Nat.xor_self 0).symm
  | succ n ih =>
    have hbit : (if (p ^^^ q) % 2 = 1 then x else 0) =
        (if p % 2 = 1 then x else 0) ^^^ (if q % 2 = 1 then x else 0) := by
      have hmod : (p ^^^ q) % 2 = (p % 2) ^^^ (q % 2) := @xor_mod_two_pow p q 1
      rw [hmod]
      rcases mod_two_eq_zero_or_one p with hp | hp <;>
        rcases mod_two_eq_zero_or_one q with hq | hq <;> simp [hp, hq]
    rw [act, act, act, xor_div_two, ih, hbit, Nat.xor_assoc, Nat.xor_assoc,
      ← Nat.xor_assoc (if q % 2 = 1 then x else 0), ← Nat.xor_assoc (act f n (p / 2) (f x)),
      Nat.xor_comm (act f n (p / 2) (f x))]

theorem act_two_mul : act f (n + 1) (2 * p) x = act f n p (f x) := by
  rw [act, mul_mod_right, if_neg Nat.zero_ne_one, Nat.zero_xor,
    Nat.mul_div_cancel_left p Nat.two_pos]

theorem act_succ (hp : p < 2 ^ n) : act f (n + 1) p x = act f n p x := by
  induction n generalizing p x with
  | zero =>
    rw [Nat.pow_zero, Nat.lt_one_iff] at hp
    simp only [hp, act_zero]
  | succ n ih =>
    rw [Nat.pow_succ] at hp
    have hhalf : p / 2 < 2 ^ n := Nat.div_lt_of_lt_mul (Nat.mul_comm _ _ ▸ hp)
    rw [act, ih hhalf, act]

theorem act_one (hn : 0 < n) : act f n 1 x = x := by
  cases n with
  | zero => exact absurd hn (Nat.lt_irrefl 0)
  | succ n =>
    have hzero : act f n (1 / 2) (f x) = 0 := act_zero
    rw [act, hzero, Nat.xor_zero]
    rfl

/-- The map is a matrix of `w` rows, and the polynomial `m` of degree `w` of it is zero. -/
structure Modulus (f : Nat → Nat) (w m : Nat) : Prop where
  linear : XorLinear f
  lt : ∀ x < 2 ^ w, f x < 2 ^ w
  width_pos : 0 < w
  le_modulus : 2 ^ w ≤ m
  modulus_lt : m < 2 ^ (w + 1)
  vanishes : ∀ i < w, act f (w + 1) m (2 ^ i) = 0

namespace Modulus

variable {w m e y : Nat}

section

variable (h : Modulus f w m)

include h

theorem act_modulus (hx : x < 2 ^ w) : act f (w + 1) m x = 0 :=
  (h.linear.act (w + 1) m).eq_zero_of_basis h.vanishes hx

theorem mulX_lt (hp : p < 2 ^ w) : mulX w m p < 2 ^ w := by
  rw [mulX]
  split_ifs with hle
  · have hlt : 2 * p < 2 ^ (w + 1) := by
      rw [Nat.pow_succ]
      omega
    exact xor_lt_of_le hle hlt h.le_modulus h.modulus_lt
  · exact Nat.not_le.mp hle

theorem act_mulX (hp : p < 2 ^ w) (hx : x < 2 ^ w) : act f w (mulX w m p) x = f (act f w p x) := by
  rw [← act_succ (h.mulX_lt hp), mulX]
  split_ifs with hle
  · rw [act_xor, h.act_modulus hx, Nat.xor_zero, act_two_mul, act_map h.linear]
  · rw [act_two_mul, act_map h.linear]

theorem mulModulo_lt (hq : q < 2 ^ w) : mulModulo w m n p q < 2 ^ w := by
  induction n generalizing p q with
  | zero => exact Nat.two_pow_pos w
  | succ n ih =>
    apply xor_lt_two_pow
    · split_ifs
      · exact hq
      · exact Nat.two_pow_pos w
    · exact ih (h.mulX_lt hq)

/-- A product acts as one factor after the other. -/
theorem act_mulModulo (hq : q < 2 ^ w) (hx : x < 2 ^ w) :
    act f w (mulModulo w m n p q) x = act f n p (act f w q x) := by
  induction n generalizing p q with
  | zero => exact act_zero
  | succ n ih =>
    rw [mulModulo, act_xor, ih (h.mulX_lt hq), h.act_mulX hq hx, act]
    by_cases hodd : p % 2 = 1
    · simp only [if_pos hodd]
    · simp only [if_neg hodd, act_zero]

theorem powModulo_lt : powModulo w m n e < 2 ^ w := by
  induction n generalizing e with
  | zero => exact Nat.one_lt_two_pow (Nat.pos_iff_ne_zero.mp h.width_pos)
  | succ n ih =>
    rw [powModulo]
    split_ifs
    · exact h.mulX_lt (h.mulModulo_lt ih)
    · exact h.mulModulo_lt ih

theorem iterate_lt (hx : x < 2 ^ w) : f^[n] x < 2 ^ w := by
  induction n with
  | zero => exact hx
  | succ n ih =>
    rw [iterate_succ_apply']
    exact h.lt _ ih

/-- A power of the unknown acts as the power of the map. -/
theorem act_powModulo (he : e < 2 ^ n) (hx : x < 2 ^ w) :
    act f w (powModulo w m n e) x = f^[e] x := by
  induction n generalizing e x with
  | zero =>
    rw [Nat.pow_zero, Nat.lt_one_iff] at he
    rw [he]
    exact act_one h.width_pos
  | succ n ih =>
    rw [Nat.pow_succ] at he
    have hhalf : e / 2 < 2 ^ n := Nat.div_lt_of_lt_mul (Nat.mul_comm _ _ ▸ he)
    have hsquare : act f w (mulModulo w m w (powModulo w m n (e / 2)) (powModulo w m n (e / 2))) x =
        f^[e / 2 + e / 2] x := by
      rw [h.act_mulModulo h.powModulo_lt hx, ih hhalf hx, ih hhalf (h.iterate_lt hx),
        iterate_add_apply]
    rw [powModulo]
    split_ifs with hodd
    · have hdouble : (e / 2 + e / 2).succ = e := by omega
      rw [h.act_mulX (h.mulModulo_lt h.powModulo_lt) hx, hsquare,
        ← iterate_succ_apply' f, hdouble]
    · have hdouble : e = e / 2 + e / 2 := by omega
      rw [hsquare, ← hdouble]

end

end Modulus

/-! ## One cycle -/

variable {β : Type} {f : β → β} {x y : β}

/-- A period that is not a period any more without one of its prime factors is minimal. -/
theorem minimalPeriod_eq_of_prime (hperiod : f^[n] x = x)
    (hprime : ∀ p, p.Prime → p ∣ n → f^[n / p] x ≠ x) : Function.minimalPeriod f x = n := by
  obtain ⟨k, hk⟩ := Function.IsPeriodicPt.minimalPeriod_dvd hperiod
  rcases Decidable.eq_or_ne k 1 with rfl | hne
  · exact (hk.trans (Nat.mul_one _)).symm
  · obtain ⟨p, hp, c, hc⟩ := Nat.exists_prime_and_dvd hne
    have hdvd : p ∣ n := ⟨Function.minimalPeriod f x * c, by rw [hk, hc, Nat.mul_left_comm]⟩
    have hdiv : n / p = Function.minimalPeriod f x * c := by
      rw [hk, hc, Nat.mul_left_comm, Nat.mul_div_cancel_left _ hp.pos]
    have hreturn : f^[n / p] x = x := by
      rw [hdiv]
      exact (isPeriodicPt_minimalPeriod f x).mul_const c
    exact absurd hreturn (hprime p hp hdvd)

/-- A map with a period of the size of a set runs through the set. -/
theorem exists_iterate_of_card [DecidableEq β] {s : Finset β} (hmaps : ∀ z ∈ s, f z ∈ s) (hx : x ∈ s)
    (hperiod : Function.minimalPeriod f x = s.card) (hy : y ∈ s) : ∃ k, f^[k] x = y := by
  have hmem : ∀ k, f^[k] x ∈ s := by
    intro k
    induction k with
    | zero => exact hx
    | succ k ih =>
      rw [iterate_succ_apply']
      exact hmaps _ ih
  have hinj : Set.InjOn (fun k => f^[k] x) (range s.card) := by
    rw [← hperiod, Finset.coe_range]
    exact iterate_injOn_Iio_minimalPeriod
  have himage : (range s.card).image (fun k => f^[k] x) = s := by
    apply Finset.eq_of_subset_of_card_le
    · intro z hz
      obtain ⟨k, -, rfl⟩ := Finset.mem_image.mp hz
      exact hmem k
    · rw [Finset.card_image_of_injOn hinj, card_range]
  rw [← himage] at hy
  obtain ⟨k, -, hk⟩ := Finset.mem_image.mp hy
  exact ⟨k, hk⟩

/-- What is reached is reached before the elements of a set are used up. -/
theorem exists_iterate_lt_card {s : Finset β} (hmaps : ∀ z ∈ s, f z ∈ s) (hx : x ∈ s)
    (hreached : ∃ k, f^[k] x = y) : ∃ k < s.card, f^[k] x = y := by
  classical
  have hmem : ∀ k, f^[k] x ∈ s := by
    intro k
    induction k with
    | zero => exact hx
    | succ k ih =>
      rw [iterate_succ_apply']
      exact hmaps _ ih
  have hfirst : ∀ k, k < Nat.find hreached → f^[k] x ≠ y := fun k hk => Nat.find_min hreached hk
  have hy : f^[Nat.find hreached] x = y := Nat.find_spec hreached
  have hne : ∀ i j, i < j → j ≤ Nat.find hreached → f^[i] x ≠ f^[j] x := by
    intro i j hij hj heq
    have hshort : f^[Nat.find hreached - j + i] x = y := by
      rw [iterate_add_apply, heq, ← iterate_add_apply, Nat.sub_add_cancel hj, hy]
    exact hfirst _ (by omega) hshort
  have hinj : Set.InjOn (fun k => f^[k] x) (range (Nat.find hreached + 1)) := by
    intro i hi j hj heq
    rw [Finset.mem_coe, mem_range] at hi hj
    rcases Nat.lt_trichotomy i j with hlt | rfl | hgt
    · exact absurd heq (hne i j hlt (le_of_lt_succ hj))
    · rfl
    · exact absurd heq.symm (hne j i hgt (le_of_lt_succ hi))
  have hcard := Finset.card_le_card_of_injOn (fun k => f^[k] x) (fun k _ => hmem k) hinj
  rw [card_range] at hcard
  exact ⟨Nat.find hreached, hcard, hy⟩

variable {f : Nat → Nat} {w m x y : Nat}

theorem Modulus.iterate_period (h : Modulus f w m) (hone : powModulo w m w (2 ^ w - 1) = 1)
    (hx : x < 2 ^ w) : f^[2 ^ w - 1] x = x := by
  have hpred : 2 ^ w - 1 < 2 ^ w := sub_lt (Nat.two_pow_pos w) Nat.one_pos
  rw [← h.act_powModulo hpred hx, hone, act_one h.width_pos]

theorem Modulus.iterate_ne_zero (h : Modulus f w m) (hone : powModulo w m w (2 ^ w - 1) = 1)
    (hx : x < 2 ^ w) (hx0 : x ≠ 0) (k : Nat) : f^[k] x ≠ 0 := by
  intro hk
  have hzero : ∀ k, f^[k] 0 = 0 := fun k => iterate_fixed h.linear.map_zero k
  have hlong : f^[(2 ^ w - 1) * k] x = x :=
    Function.IsPeriodicPt.mul_const (h.iterate_period hone hx) k
  have hle : k ≤ (2 ^ w - 1) * k := by
    have htwo := Nat.one_lt_two_pow (Nat.pos_iff_ne_zero.mp h.width_pos)
    exact Nat.le_mul_of_pos_left k (by omega)
  rw [← Nat.sub_add_cancel hle, iterate_add_apply, hk, hzero] at hlong
  exact hx0 hlong.symm

/-- A map of the greatest order runs through all numbers but zero.  For each prime factor of the
order there is a power of the map that is the difference of the map's power and the identity, and
a power of the map is zero at zero only. -/
theorem Modulus.exists_iterate (h : Modulus f w m) (hone : powModulo w m w (2 ^ w - 1) = 1)
    (hprime : ∀ p, p.Prime → p ∣ 2 ^ w - 1 → ∃ e < 2 ^ w,
      powModulo w m w ((2 ^ w - 1) / p) ^^^ 1 = powModulo w m w e)
    (hx : x < 2 ^ w) (hx0 : x ≠ 0) (hy : y < 2 ^ w) (hy0 : y ≠ 0) : ∃ k, f^[k] x = y := by
  have hpred : 2 ^ w - 1 < 2 ^ w := sub_lt (Nat.two_pow_pos w) Nat.one_pos
  have hminimal : Function.minimalPeriod f x = 2 ^ w - 1 := by
    apply minimalPeriod_eq_of_prime (h.iterate_period hone hx)
    intro p hp hdvd hreturn
    obtain ⟨e, he, heq⟩ := hprime p hp hdvd
    have hlt : (2 ^ w - 1) / p < 2 ^ w := Nat.lt_of_le_of_lt (Nat.div_le_self _ _) hpred
    have hdifference : f^[e] x = 0 := by
      rw [← h.act_powModulo he hx, ← heq, act_xor, h.act_powModulo hlt hx, hreturn,
        act_one h.width_pos, Nat.xor_self]
    exact h.iterate_ne_zero hone hx hx0 e hdifference
  have hcard : ((range (2 ^ w)).erase 0).card = 2 ^ w - 1 := by
    rw [Finset.card_erase_of_mem (mem_range.mpr (Nat.two_pow_pos w)), card_range]
  apply exists_iterate_of_card (s := (range (2 ^ w)).erase 0)
  · intro z hz
    obtain ⟨hz0, hz⟩ := mem_erase.mp hz
    rw [mem_range] at hz
    exact mem_erase.mpr ⟨h.iterate_ne_zero hone hz hz0 1, mem_range.mpr (h.lt z hz)⟩
  · exact mem_erase.mpr ⟨hx0, mem_range.mpr hx⟩
  · rw [hminimal, hcard]
  · exact mem_erase.mpr ⟨hy0, mem_range.mpr hy⟩

end Literate.Foundation

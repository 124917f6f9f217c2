import Literate.AK.StringUtils
import Literate.Foundation.Shortlex
import Mathlib.Data.Nat.Log

/-!
# AK: bijective numeration

`String::bijective_base_from` writes the ordinary digits of a number and then takes one from
the character of its first digit, so that `AA` comes after `Z`.  With more than one digit
the first one then never is the last letter, and the words that begin with it are left out.
-/

namespace Literate.AK.String

open Foundation List Option
open Nat (div_add_mod' div_eq_of_lt log_eq_of_pow_le_of_lt_pow lt_pow_succ_log_self
  mod_eq_of_lt mod_lt mul_add_div mul_add_mod mul_mod_left
  pow_log_le_self pred_eq_sub_one succ_ne_zero succ_pos)

/-- The map that a null view stands for. -/
def defaultMap : List UInt8 := "ABCDEFGHIJKLMNOPQRSTUVWXYZ".toList.map byte

/-- The character of a digit. -/
def digitChar (map : List UInt8) (digit : Nat) : UInt8 := map.getD digit 0

/-- The digits of a number, the lowest first; `fuel` bounds how many a `size_t` has. -/
def digitLoop (base : Nat) (map : List UInt8) : Nat → Nat → List UInt8
  | 0, _ => []
  | fuel + 1, value =>
    digitChar map (value % base) ::
      if 0 < value / base then digitLoop base map fuel (value / base) else []

/-- The characters from `j` on are swapped, `count` times, with those as far from the end. -/
def swapLoop (i : Nat) : Nat → Nat → List UInt8 → List UInt8
  | 0, _, buffer => buffer
  | count + 1, j, buffer =>
    swapLoop i count (j + 1)
      ((buffer.set j (buffer.getD (i - j - 1) 0)).set (i - j - 1) (buffer.getD j 0))

/-- `String::bijective_base_from`; none is the `VERIFY` that ends the program. -/
def bijectiveBaseFrom (value base : Nat) (map : Option (List UInt8)) : Option (List UInt8) :=
  let map := map.getD defaultMap
  if 2 ≤ base ∧ base ≤ map.length then
    let buffer := digitLoop base map 64 value
    let i := buffer.length
    -- Only the highest digit is in a range that starts at one, and only if it is not alone.
    let buffer := if 1 < i then buffer.set (i - 1) (buffer.getD (i - 1) 0 - 1) else buffer
    some (swapLoop i (i / 2) 0 buffer)
  else none

/-! ### The word of a number -/

variable {k n i : Nat}

section Words

variable {base : Nat} {map : List UInt8}

/-- After the swaps before `j` the ends of the buffer are exchanged. -/
theorem swapLoop_spec (l : List UInt8) (count j : Nat) {buffer : List UInt8}
    (hcount : j + count = l.length / 2) (hlength : buffer.length = l.length)
    (hswapped : ∀ k < l.length,
      buffer[k]? = if k < j ∨ l.length - j ≤ k then l[l.length - 1 - k]? else l[k]?) :
    swapLoop l.length count j buffer = l.reverse := by
  induction count generalizing j buffer with
  | zero =>
    refine ext_getElem? fun k => ?_
    by_cases hk : k < l.length
    · rw [swapLoop, hswapped k hk, List.getElem?_reverse hk]
      split
      · rfl
      · exact congrArg (l[·]?) (by omega)
    · rw [swapLoop, List.getElem?_eq_none (by omega), List.getElem?_eq_none (by simpa using hk)]
  | succ count ih =>
    refine ih (j + 1) (by omega) (by simpa using hlength) fun k hk => ?_
    have hj := hswapped j (by omega)
    have hmirror := hswapped (l.length - j - 1) (by omega)
    rw [if_neg (by omega)] at hj hmirror
    simp only [List.getElem?_set, length_set, getD_eq_getElem?_getD, hj, hmirror, hswapped k hk]
    grind

theorem swapLoop_reverse (l : List UInt8) : swapLoop l.length (l.length / 2) 0 l = l.reverse :=
  swapLoop_spec l _ 0 (Nat.zero_add _) rfl fun k hk => by rw [if_neg (by omega)]

/-- A number given by its highest digit and the rest. -/
theorem split_digits (hbase : 2 ≤ base) {digit rest : Nat} (hpos : 0 < digit)
    (hdigit : digit < base) (hrest : rest < base ^ k) : Nat.log base (digit * base ^ k + rest) = k ∧
      (digit * base ^ k + rest) / base ^ k = digit ∧
      (digit * base ^ k + rest) % base ^ k = rest := by
  have hpow : 0 < base ^ k := Nat.pow_pos (by omega)
  refine ⟨log_eq_of_pow_le_of_lt_pow ?_ ?_, ?_, ?_⟩
  · exact (Nat.le_mul_of_pos_left _ hpos).trans (Nat.le_add_right _ _)
  · have hstep : (digit + 1) * base ^ k ≤ base * base ^ k := Nat.mul_le_mul_right _ hdigit
    rw [Nat.add_mul, Nat.one_mul] at hstep
    rw [Nat.pow_succ, Nat.mul_comm (_ ^ _)]
    omega
  · rw [Nat.mul_comm, mul_add_div hpow, div_eq_of_lt hrest, Nat.add_zero]
  · rw [Nat.mul_comm, mul_add_mod, mod_eq_of_lt hrest]

theorem exists_split (hbase : 2 ≤ base) (hn : n ≠ 0) :
    ∃ digit k rest, 0 < digit ∧ digit < base ∧ rest < base ^ k ∧
      n = digit * base ^ k + rest ∧ k = Nat.log base n := by
  have hpow : 0 < base ^ Nat.log base n := Nat.pow_pos (by omega)
  refine ⟨n / base ^ Nat.log base n, Nat.log base n, n % base ^ Nat.log base n,
    Nat.div_pos (pow_log_le_self base hn) hpow, ?_, mod_lt _ hpow,
    (div_add_mod' _ _).symm, rfl⟩
  exact Nat.div_lt_of_lt_mul (by
    rw [← Nat.pow_succ]
    exact lt_pow_succ_log_self hbase n)

/-- Read from its end the buffer is the highest digit and those below it. -/
theorem digitLoop_reverse (map : List UInt8) (hbase : 2 ≤ base) {fuel digit rest : Nat} (hpos : 0 < digit)
    (hdigit : digit < base) (hrest : rest < base ^ k) (hfuel : k < fuel) :
    (digitLoop base map fuel (digit * base ^ k + rest)).reverse =
      digitChar map digit :: padded base (digitChar map) k rest := by
  induction k generalizing fuel rest with
  | zero =>
    obtain ⟨fuel, rfl⟩ : ∃ f, fuel = f + 1 := ⟨fuel - 1, by omega⟩
    obtain rfl : rest = 0 := by simpa using hrest
    have hlast : ¬ 0 < digit / base := by rw [div_eq_of_lt hdigit]; exact Nat.lt_irrefl 0
    simp only [Nat.pow_zero, Nat.mul_one, Nat.add_zero]
    rw [digitLoop, if_neg hlast, mod_eq_of_lt hdigit]
    rfl
  | succ k ih =>
    obtain ⟨fuel, rfl⟩ : ∃ f, fuel = f + 1 := ⟨fuel - 1, by omega⟩
    have hzero : 0 < base := by omega
    have hquotient : (digit * base ^ (k + 1) + rest) / base = digit * base ^ k + rest / base := by
      rw [Nat.pow_succ, ← Nat.mul_assoc, Nat.mul_comm _ base, mul_add_div hzero]
    have hremainder : (digit * base ^ (k + 1) + rest) % base = rest % base := by
      rw [Nat.pow_succ, ← Nat.mul_assoc, Nat.mul_comm _ base, mul_add_mod]
    have hmore : 0 < digit * base ^ k + rest / base :=
      Nat.add_pos_left (Nat.mul_pos hpos (Nat.pow_pos hzero)) _
    have hrest' : rest / base < base ^ k :=
      Nat.div_lt_of_lt_mul (by rwa [Nat.mul_comm, ← Nat.pow_succ])
    rw [digitLoop, hquotient, hremainder, if_pos hmore, reverse_cons,
      ih hrest' (by omega), padded, List.cons_append]

theorem bijectiveBaseFrom_single {map : Option (List UInt8)} (hbase : 2 ≤ base)
    (hlen : base ≤ (map.getD defaultMap).length) (hn : n < base) :
    bijectiveBaseFrom n base map = some [digitChar (map.getD defaultMap) n] := by
  have hlast : ¬ 0 < n / base := by rw [div_eq_of_lt hn]; exact Nat.lt_irrefl 0
  have hloop : digitLoop base (map.getD defaultMap) 64 n = [digitChar (map.getD defaultMap) n] := by
    rw [digitLoop, if_neg hlast, mod_eq_of_lt hn]
  rw [bijectiveBaseFrom, if_pos ⟨hbase, hlen⟩]
  simp [hloop, swapLoop]

/-- With more than one digit one is taken from the character of the highest. -/
theorem bijectiveBaseFrom_split {map : Option (List UInt8)} (hbase : 2 ≤ base)
    (hlen : base ≤ (map.getD defaultMap).length) {digit rest : Nat} (hpos : 0 < digit)
    (hdigit : digit < base) (hrest : rest < base ^ (k + 1))
    (hsize : digit * base ^ (k + 1) + rest < 2 ^ 64) :
    bijectiveBaseFrom (digit * base ^ (k + 1) + rest) base map =
      some ((digitChar (map.getD defaultMap) digit - 1) ::
        padded base (digitChar (map.getD defaultMap)) (k + 1) rest) := by
  have hfuel : k + 1 < 64 := by
    have htwo : 2 ^ (k + 1) ≤ base ^ (k + 1) := Nat.pow_le_pow_left hbase _
    have hone : base ^ (k + 1) ≤ digit * base ^ (k + 1) := Nat.le_mul_of_pos_left _ hpos
    exact (Nat.pow_lt_pow_iff_right (by decide)).mp (by omega : 2 ^ (k + 1) < 2 ^ 64)
  have hloop := digitLoop_reverse (map.getD defaultMap) hbase hpos hdigit hrest hfuel
  generalize hlow : padded base (digitChar (map.getD defaultMap)) (k + 1) rest = low at hloop ⊢
  have hlength : low.length = k + 1 := hlow ▸ length_padded base _ (k + 1) rest
  have hbuffer : digitLoop base (map.getD defaultMap) 64 (digit * base ^ (k + 1) + rest) =
      low.reverse ++ [digitChar (map.getD defaultMap) digit] := by
    rw [← reverse_cons, ← hloop, reverse_reverse]
  have hpatched : ∀ c : UInt8, (low.reverse ++ [c]).set (low.reverse ++ [c]).length.pred
      ((low.reverse ++ [c]).getD (low.reverse ++ [c]).length.pred 0 - 1) =
        low.reverse ++ [c - 1] := by
    intro c
    simp [getD_eq_getElem?_getD]
  rw [bijectiveBaseFrom, if_pos ⟨hbase, hlen⟩]
  simp only [hbuffer]
  rw [if_pos (by simp [hlength]), ← pred_eq_sub_one, hpatched]
  have hsame : (low.reverse ++ [digitChar (map.getD defaultMap) digit]).length =
      (low.reverse ++ [digitChar (map.getD defaultMap) digit - 1]).length := by simp
  rw [hsame, swapLoop_reverse, List.reverse_append, reverse_reverse]
  rfl

end Words

/-! ### The order of the words -/

/-- The string of one number is a word, and that of another is the next one. -/
def Follows (alphabet : List UInt8) (r r' : Option (List UInt8)) : Prop :=
  ∃ v w, r = some v ∧ r' = some w ∧ IsSuccessor alphabet v w

/-- When the characters next to the highest digits make the next number's string the next. -/
def Adjusts (base : Nat) (map : List UInt8) (n : Nat) : Prop :=
  let k := Nat.log base n
  let digit := n / base ^ k
  if n + 1 < base then True
  else if n + 1 = base then digitChar map 1 - 1 = digitChar map 0
  else if (n + 1) % base ^ k ≠ 0 then digitChar map digit - 1 ∈ map.take base
  else digit + 1 < base ∧ ∃ e, e + 1 < base ∧ digitChar map e = digitChar map digit - 1 ∧
    digitChar map (e + 1) = digitChar map (digit + 1) - 1

section Order

variable {base : Nat} {map : List UInt8}

theorem take_letter (hlen : base ≤ map.length) (hi : i < base) :
    (map.take base)[i]? = some (digitChar map i) := by
  rw [List.getElem?_take_of_lt hi, digitChar, getD_eq_getElem?_getD,
    List.getElem?_eq_getElem (by omega), getD_some]

theorem digitChar_inj (hnodup : map.Nodup) (hlen : base ≤ map.length) {j : Nat}
    (hi : i < base) (hj : j < base) (h : digitChar map i = digitChar map j) : i = j := by
  have halphabet : (map.take base).Nodup := hnodup.sublist (take_sublist _ _)
  rw [← idxOf_letter halphabet (take_letter hlen hi), h,
    idxOf_letter halphabet (take_letter hlen hj)]

theorem sub_one_inj {a b : UInt8} (h : a - 1 = b - 1) : a = b := by
  have := congrArg (· + 1) h
  simpa using this

theorem sub_one_ne (a : UInt8) : a - 1 ≠ a := by
  intro h
  have hnat := congrArg UInt8.toNat h
  have hlt := a.toNat_lt
  rw [UInt8.toNat_sub, UInt8.toNat_one] at hnat
  omega

/-- The number of a word of several digits, by the place of its first letter. -/
theorem rank_split (hnodup : map.Nodup) (hbase : 2 ≤ base) (hlen : base ≤ map.length) (c : UInt8)
    {rest : Nat} (hrest : rest < base ^ k) :
    rank (map.take base) (c :: padded base (digitChar map) k rest) =
      (map.take base).idxOf c * base ^ k + shorter base (k + 1) + rest := by
  have hlength : (map.take base).length = base := length_take_of_le hlen
  have halphabet : (map.take base).Nodup := hnodup.sublist (take_sublist _ _)
  have hne : map.take base ≠ [] := ne_nil_of_length_pos (by omega)
  have hrank := rank_padded (digitChar map) halphabet
    (fun i hi => take_letter hlen (hlength ▸ hi)) hne (hlength.symm ▸ hrest)
  rw [hlength] at hrank
  rw [rank, hlength, length_padded, hrank, shorter, Nat.add_mul]
  omega

theorem split_subset_iff (hbase : 2 ≤ base) (hlen : base ≤ map.length) (c : UInt8) (k rest : Nat) :
    c :: padded base (digitChar map) k rest ⊆ map.take base ↔ c ∈ map.take base := by
  have hlength : (map.take base).length = base := length_take_of_le hlen
  have hne : map.take base ≠ [] := ne_nil_of_length_pos (by omega)
  have hlow := padded_subset (digitChar map)
    (fun i hi => take_letter hlen (hlength ▸ hi)) hne k rest
  rw [hlength] at hlow
  exact ⟨fun h => (cons_subset.mp h).1, fun h => cons_subset.mpr ⟨h, hlow⟩⟩

theorem digitChar_mem (hlen : base ≤ map.length) (hi : i < base) :
    digitChar map i ∈ map.take base :=
  mem_of_getElem? (take_letter hlen hi)

section

variable (hnodup : map.Nodup)

include hnodup

theorem exists_letter (hlen : base ≤ map.length) {c : UInt8}
    (hc : c ∈ map.take base) : ∃ i < base, c = digitChar map i ∧ (map.take base).idxOf c = i := by
  have halphabet : (map.take base).Nodup := hnodup.sublist (take_sublist _ _)
  obtain ⟨i, hletter⟩ := mem_iff_getElem?.mp hc
  obtain ⟨hi, -⟩ := List.getElem?_eq_some_iff.mp hletter
  rw [length_take_of_le hlen] at hi
  have hsome := (take_letter hlen hi).symm.trans hletter
  exact ⟨i, hi, (some.inj hsome).symm, idxOf_letter halphabet hletter⟩

theorem idxOf_digitChar (hlen : base ≤ map.length) (hi : i < base) :
    (map.take base).idxOf (digitChar map i) = i :=
  idxOf_letter (hnodup.sublist (take_sublist _ _)) (take_letter hlen hi)

theorem follows_iff (hbase : 2 ≤ base) (hlen : base ≤ map.length)
    {v w : List UInt8} : Follows (map.take base) (some v) (some w) ↔
      v ⊆ map.take base ∧ w ⊆ map.take base ∧
        rank (map.take base) w = rank (map.take base) v + 1 := by
  have hlength : (map.take base).length = base := length_take_of_le hlen
  have hne : map.take base ≠ [] := ne_nil_of_length_pos (by omega)
  rw [← isSuccessor_iff (hnodup.sublist (take_sublist _ _)) hne]
  constructor
  · rintro ⟨_, _, hv, hw, h⟩
    obtain rfl := some.inj hv
    obtain rfl := some.inj hw
    exact h
  · exact fun h => ⟨v, w, rfl, rfl, h⟩

/-- One character comes after another as long as there is one. -/
theorem follows_single (hbase : 2 ≤ base) (hlen : base ≤ map.length) (hn : n + 1 < base) :
    Follows (map.take base) (some [digitChar map n]) (some [digitChar map (n + 1)]) := by
  refine (follows_iff hnodup hbase hlen).mpr
    ⟨by simpa using digitChar_mem hlen (by omega), by simpa using digitChar_mem hlen hn, ?_⟩
  simp [rank, idxOf_digitChar hnodup hlen hn, idxOf_digitChar hnodup hlen (by omega : n < base)]

/-- After the last one come two characters, the first of which is to be the first. -/
theorem follows_second (hbase : 2 ≤ base) (hlen : base ≤ map.length)
    (hn : n + 1 = base) (c : UInt8) : Follows (map.take base) (some [digitChar map n])
        (some (c :: padded base (digitChar map) 1 0)) ↔
      c = digitChar map 0 := by
  rw [follows_iff hnodup hbase hlen, split_subset_iff hbase hlen,
    rank_split hnodup hbase hlen c (by rw [Nat.pow_one]; omega), rank,
    idxOf_digitChar hnodup hlen (by omega)]
  simp only [shorter, rank, length_nil, Nat.pow_zero, Nat.pow_one, hn]
  constructor
  · rintro ⟨-, hc, hrank⟩
    obtain ⟨i, hi, rfl, hi'⟩ := exists_letter hnodup hlen hc
    rw [hi'] at hrank
    have hzero : i * base = 0 := by omega
    obtain rfl : i = 0 := (Nat.mul_eq_zero.mp hzero).resolve_right (by omega)
    rfl
  · rintro rfl
    have hzero := idxOf_digitChar hnodup hlen (by omega : 0 < base)
    refine ⟨by simpa using digitChar_mem hlen (by omega), digitChar_mem hlen (by omega), ?_⟩
    rw [hzero]
    omega

/-- The digits below the highest count up, whatever letter is before them. -/
theorem follows_rest (hbase : 2 ≤ base) (hlen : base ≤ map.length)
    {rest : Nat} (hrest : rest + 1 < base ^ k) (c : UInt8) :
    Follows (map.take base) (some (c :: padded base (digitChar map) k rest))
        (some (c :: padded base (digitChar map) k (rest + 1))) ↔
      c ∈ map.take base := by
  rw [follows_iff hnodup hbase hlen, split_subset_iff hbase hlen, split_subset_iff hbase hlen,
    rank_split hnodup hbase hlen c hrest, rank_split hnodup hbase hlen c (by omega)]
  exact ⟨fun h => h.1, fun h => ⟨h, h, rfl⟩⟩

/-- When those start again the letter before them is to be the next. -/
theorem follows_carry (hbase : 2 ≤ base) (hlen : base ≤ map.length)
    {rest : Nat} (hrest : rest + 1 = base ^ k) (c c' : UInt8) :
    Follows (map.take base) (some (c :: padded base (digitChar map) k rest))
        (some (c' :: padded base (digitChar map) k 0)) ↔
      ∃ e, e + 1 < base ∧ digitChar map e = c ∧ digitChar map (e + 1) = c' := by
  have hpow : 0 < base ^ k := Nat.pow_pos (by omega)
  rw [follows_iff hnodup hbase hlen, split_subset_iff hbase hlen, split_subset_iff hbase hlen,
    rank_split hnodup hbase hlen c (by omega), rank_split hnodup hbase hlen c' hpow]
  constructor
  · rintro ⟨hc, hc', hrank⟩
    obtain ⟨i, hi, rfl, hi'⟩ := exists_letter hnodup hlen hc
    obtain ⟨j, hj, rfl, hj'⟩ := exists_letter hnodup hlen hc'
    rw [hi', hj'] at hrank
    have hnext : j * base ^ k = (i + 1) * base ^ k := by
      rw [Nat.add_mul, Nat.one_mul]
      omega
    obtain rfl := Nat.eq_of_mul_eq_mul_right hpow hnext
    exact ⟨i, hj, rfl, rfl⟩
  · rintro ⟨e, he, rfl, rfl⟩
    refine ⟨digitChar_mem hlen (by omega), digitChar_mem hlen he, ?_⟩
    rw [idxOf_digitChar hnodup hlen he, idxOf_digitChar hnodup hlen (by omega), Nat.add_mul,
      Nat.one_mul]
    omega

/-- The last letter never begins a word of several digits, so that none comes after those
that begin with the one before it. -/
theorem not_follows_longer (hbase : 2 ≤ base) (hlen : base ≤ map.length)
    {rest : Nat} (hrest : rest + 1 = base ^ k) (c' : UInt8) : ¬ Follows (map.take base)
      (some ((digitChar map (base - 1) - 1) :: padded base (digitChar map) k rest))
      (some (c' :: padded base (digitChar map) (k + 1) 0)) := by
  have hpow : 0 < base ^ k := Nat.pow_pos (by omega)
  simp only [follows_iff hnodup hbase hlen, split_subset_iff hbase hlen,
    rank_split hnodup hbase hlen _ (by omega : rest < base ^ k),
    rank_split hnodup hbase hlen c' (Nat.pow_pos (by omega))]
  rintro ⟨hc, -, hrank⟩
  obtain ⟨i, hi, hletter, hi'⟩ := exists_letter hnodup hlen hc
  have hlast : i ≠ base - 1 := by
    rintro rfl
    exact sub_one_ne _ hletter
  rw [hi', shorter.eq_def base (k + 1 + 1)] at hrank
  simp only at hrank
  have hless : (i + 1 + 1) * base ^ k ≤ base * base ^ k := Nat.mul_le_mul_right _ (by omega)
  simp only [Nat.add_mul, Nat.one_mul] at hless
  rw [Nat.pow_succ, Nat.mul_comm (base ^ k)] at hrank
  omega

end

end Order

/-! ### The strings of all numbers -/

section Strings

variable {base : Nat} {map : Option (List UInt8)}

/-- The next string is the next word exactly when the characters allow the adjustment. -/
theorem bijectiveBaseFrom_follows_iff (hbase : 2 ≤ base)
    (hlen : base ≤ (map.getD defaultMap).length) (hnodup : (map.getD defaultMap).Nodup)
    (hsize : n + 1 < 2 ^ 64) :
    Follows ((map.getD defaultMap).take base) (bijectiveBaseFrom n base map)
        (bijectiveBaseFrom (n + 1) base map) ↔
      Adjusts base (map.getD defaultMap) n := by
  by_cases hsingle : n + 1 < base
  · rw [bijectiveBaseFrom_single hbase hlen (by omega), bijectiveBaseFrom_single hbase hlen hsingle,
      Adjusts, if_pos hsingle]
    exact iff_of_true (follows_single hnodup hbase hlen hsingle) trivial
  by_cases hsecond : n + 1 = base
  · have hten : n + 1 = 1 * base ^ (0 + 1) + 0 := by simp [hsecond]
    rw [Adjusts, if_neg hsingle, if_pos hsecond, bijectiveBaseFrom_single hbase hlen (by omega),
      hten, bijectiveBaseFrom_split hbase hlen Nat.one_pos (by omega) (Nat.pow_pos (by omega))
        (hten ▸ hsize)]
    exact follows_second hnodup hbase hlen hsecond _
  obtain ⟨digit, k, rest, hpos, hdigit, hrest, rfl, hk⟩ :=
    exists_split hbase (by omega : n ≠ 0)
  obtain ⟨k, rfl⟩ : ∃ j, k = j + 1 := by
    refine ⟨k - 1, ?_⟩
    rcases k with - | k
    · simp only [Nat.pow_zero, Nat.mul_one] at hrest hsingle hsecond
      omega
    · rfl
  obtain ⟨hlog, hquotient, -⟩ := split_digits hbase hpos hdigit hrest
  rw [Adjusts, if_neg hsingle, if_neg hsecond, hlog, hquotient,
    bijectiveBaseFrom_split hbase hlen hpos hdigit hrest (by omega)]
  rcases Nat.lt_or_eq_of_le hrest with hmore | hcarry
  · -- The digits below the highest count up.
    have hmod : (digit * base ^ (k + 1) + rest + 1) % base ^ (k + 1) ≠ 0 := by
      rw [Nat.add_assoc, (split_digits hbase hpos hdigit hmore).2.2]
      exact succ_ne_zero rest
    rw [if_pos hmod, Nat.add_assoc, bijectiveBaseFrom_split hbase hlen hpos hdigit hmore (by omega)]
    exact follows_rest hnodup hbase hlen hmore _
  · -- They start again, below the next highest digit or below one more.
    have hnext : digit * base ^ (k + 1) + rest + 1 = (digit + 1) * base ^ (k + 1) + 0 := by
      rw [Nat.add_mul, Nat.one_mul]
      omega
    have hmod : (digit * base ^ (k + 1) + rest + 1) % base ^ (k + 1) = 0 := by
      rw [hnext, Nat.add_zero, mul_mod_left]
    rw [if_neg (not_not.mpr hmod), hnext]
    rw [hnext] at hsize
    by_cases hlast : digit + 1 < base
    · rw [bijectiveBaseFrom_split hbase hlen (succ_pos _) hlast (Nat.pow_pos (by omega)) hsize,
        follows_carry hnodup hbase hlen hcarry]
      exact ⟨fun h => ⟨hlast, h⟩, fun h => h.2⟩
    · have hall : digit + 1 = base := by omega
      have htop : (digit + 1) * base ^ (k + 1) + 0 = 1 * base ^ (k + 1 + 1) + 0 := by
        rw [hall, Nat.one_mul, Nat.pow_succ _ (k + 1), Nat.mul_comm]
      obtain rfl : digit = base - 1 := by omega
      rw [htop] at hsize ⊢
      rw [bijectiveBaseFrom_split hbase hlen Nat.one_pos hbase (Nat.pow_pos (by omega)) hsize]
      exact iff_of_false (not_follows_longer hnodup hbase hlen hcarry _) fun h => hlast h.1

/-- The string of zero is the first word that has a character. -/
theorem bijectiveBaseFrom_zero (hbase : 2 ≤ base) (hlen : base ≤ (map.getD defaultMap).length)
    (hnodup : (map.getD defaultMap).Nodup) :
    Follows ((map.getD defaultMap).take base) (some []) (bijectiveBaseFrom 0 base map) := by
  have hzero := idxOf_digitChar hnodup hlen (by omega : 0 < base)
  rw [bijectiveBaseFrom_single hbase hlen (by omega), follows_iff hnodup hbase hlen]
  refine ⟨nil_subset _, by simpa using digitChar_mem hlen (by omega), ?_⟩
  simp [rank, hzero]

/-- The string gives back the number: its length the number of the digits, its first
character the highest of them and the others the rest. -/
theorem bijectiveBaseFrom_inj (hbase : 2 ≤ base) (hlen : base ≤ (map.getD defaultMap).length)
    (hnodup : (map.getD defaultMap).Nodup) {m : Nat} (hm : m < 2 ^ 64) (hn : n < 2 ^ 64)
    (h : bijectiveBaseFrom m base map = bijectiveBaseFrom n base map) : m = n := by
  have hcases : ∀ n < 2 ^ 64, (n < base ∧ bijectiveBaseFrom n base map =
        some [digitChar (map.getD defaultMap) n]) ∨
      ∃ digit k rest, digit < base ∧ rest < base ^ (k + 1) ∧
        n = digit * base ^ (k + 1) + rest ∧ bijectiveBaseFrom n base map =
          some ((digitChar (map.getD defaultMap) digit - 1) ::
            padded base (digitChar (map.getD defaultMap)) (k + 1) rest) := by
    intro n hn
    by_cases hsingle : n < base
    · exact .inl ⟨hsingle, bijectiveBaseFrom_single hbase hlen hsingle⟩
    obtain ⟨digit, k, rest, hpos, hdigit, hrest, rfl, hk⟩ := exists_split hbase (by omega : n ≠ 0)
    rcases k with - | k
    · simp only [Nat.pow_zero, Nat.mul_one] at hrest hsingle
      omega
    · exact .inr ⟨digit, k, rest, hdigit, hrest, rfl,
        bijectiveBaseFrom_split hbase hlen hpos hdigit hrest hn⟩
  rcases hcases m hm with ⟨hmlt, hms⟩ | ⟨digit, k, rest, hdigit, hrest, rfl, hms⟩ <;>
    rcases hcases n hn with ⟨hnlt, hns⟩ | ⟨digit', k', rest', hdigit', hrest', rfl, hns⟩ <;>
    rw [hms, hns, some.injEq, List.cons.injEq] at h
  · exact digitChar_inj hnodup hlen hmlt hnlt h.1
  · have := congrArg List.length h.2
    simp at this
  · have := congrArg List.length h.2
    simp at this
  · obtain rfl : k = k' := by simpa using congrArg List.length h.2
    obtain rfl := digitChar_inj hnodup hlen hdigit hdigit' (sub_one_inj h.1)
    have hrank := congrArg (rank ((map.getD defaultMap).take base)) (congrArg (List.cons 0) h.2)
    rw [rank_split hnodup hbase hlen _ hrest, rank_split hnodup hbase hlen _ hrest'] at hrank
    omega

end Strings

/-- The strings are distinct and begin with the first word, and the string of the next number
is the next word exactly where the character before that of the highest digit is the letter
that it should be. -/
theorem bijectiveBaseFrom_enumerates_iff {base : Nat} {map : Option (List UInt8)} (hbase : 2 ≤ base)
    (hlen : base ≤ (map.getD defaultMap).length) (hnodup : (map.getD defaultMap).Nodup) :
    (∀ m n : UInt64, bijectiveBaseFrom m.toNat base map = bijectiveBaseFrom n.toNat base map →
        m = n) ∧
      Follows ((map.getD defaultMap).take base) (some []) (bijectiveBaseFrom 0 base map) ∧
      ∀ n : UInt64, n.toNat + 1 < 2 ^ 64 →
        (Follows ((map.getD defaultMap).take base) (bijectiveBaseFrom n.toNat base map)
            (bijectiveBaseFrom (n.toNat + 1) base map) ↔
          Adjusts base (map.getD defaultMap) n.toNat) :=
  ⟨fun m n h => UInt64.toNat_inj.mp
      (bijectiveBaseFrom_inj hbase hlen hnodup m.toNat_lt n.toNat_lt h),
    bijectiveBaseFrom_zero hbase hlen hnodup,
    fun _ hsize => bijectiveBaseFrom_follows_iff hbase hlen hnodup hsize⟩

/-- In base ten `AA` comes after `J`. -/
theorem bijectiveBaseFrom_enumerates_iff_ten : bijectiveBaseFrom 9 10 none = some [byte 'J'] ∧
      bijectiveBaseFrom 10 10 none = some [byte 'A', byte 'A'] ∧
      Follows (defaultMap.take 10) (bijectiveBaseFrom 9 10 none) (bijectiveBaseFrom 10 10 none) := by
  have hall := bijectiveBaseFrom_enumerates_iff (by decide : 2 ≤ 10)
    (by decide : 10 ≤ ((none : Option (List UInt8)).getD defaultMap).length) (by decide)
  have hnine := hall.2.2 9 (by decide)
  rw [show (9 : UInt64).toNat = 9 from rfl] at hnine
  have hadjusts : Adjusts 10 defaultMap 9 := by
    rw [Adjusts, if_neg (by decide), if_pos rfl]
    decide
  exact ⟨by decide, by decide, hnine.mpr hadjusts⟩

/-- `AAA` comes after `YZ`: the words that begin with `Z` are left out. -/
theorem not_bijectiveBaseFrom_follows : bijectiveBaseFrom 675 26 none = some [byte 'Y', byte 'Z'] ∧
      bijectiveBaseFrom 676 26 none = some [byte 'A', byte 'A', byte 'A'] ∧
      ¬ Follows (defaultMap.take 26) (bijectiveBaseFrom 675 26 none)
        (bijectiveBaseFrom 676 26 none) := by
  have hlast : bijectiveBaseFrom 675 26 none =
      some ((digitChar defaultMap (26 - 1) - 1) :: padded 26 (digitChar defaultMap) 1 25) := by
    decide
  have hnext : bijectiveBaseFrom 676 26 none =
      some (byte 'A' :: padded 26 (digitChar defaultMap) 2 0) := by
    decide
  refine ⟨by decide, by decide, ?_⟩
  rw [hlast, hnext]
  exact not_follows_longer (by decide) (by decide) (by decide) (by decide) _

end Literate.AK.String

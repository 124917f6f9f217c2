import Literate.AK.JsonConversions
import Literate.AK.JsonRoundTrip

/-!
# AK: integers in JSON texts

What `JsonParser::parse` makes of an integer literal, and what `to_number` makes of that.
Of a literal the first digit is read (`StringUtils::trim` cuts the others off), and none
that begins with a sign is read at all.
-/

namespace Literate.AK

open StringUtils JsonParser Json NumberType List

/-- The number that is written with some digits. -/
def literalValue (ds : List UInt8) : Nat := ds.foldl (fun n c => 10 * n + digit c) 0

/-- The integer literals: an optional sign, no leading zero, and not minus zero. -/
inductive IntegerLiteral : List UInt8 → Int → Prop where
  | nonnegative {ds : List UInt8} (hint : RfcInt ds) : IntegerLiteral ds (literalValue ds)
  | negative {ds : List UInt8} (hint : RfcInt ds) (hnonzero : ds ≠ [byte '0']) :
      IntegerLiteral (byte '-' :: ds) (-(literalValue ds : Int))

/-- A literal is parsed, and what it is parsed to denotes the number. -/
def KeepsValue (literal : List UInt8) (n : Int) : Prop :=
  ∃ value, parse literal = .ok value ∧ value.Denotes n

/-! ## The number that is written -/

theorem le_foldl_digits (ds : List UInt8) (n : Nat) :
    n ≤ ds.foldl (fun n c => 10 * n + digit c) n := by
  induction ds generalizing n with
  | nil => exact Nat.le_refl n
  | cons d ds ih =>
    have hstep := ih (10 * n + digit d)
    rw [foldl_cons]
    omega

variable {d : UInt8} {ds t : List UInt8}

theorem digit_pos (hne : d ≠ byte '0') : 0 < digit d := by
  refine Nat.pos_of_ne_zero fun h => hne ?_
  have hsub : d - byte '0' = 0 := UInt8.toNat_inj.mp h
  rw [← UInt8.sub_add_cancel d (byte '0'), hsub, UInt8.zero_add]

theorem literalValue_pos (hint : RfcInt ds) (hnonzero : ds ≠ [byte '0']) : 0 < literalValue ds := by
  cases hint with
  | zero => exact absurd rfl hnonzero
  | @digits d t _ hne _ =>
    have hfirst := le_foldl_digits t (10 * 0 + digit d)
    have hdigit := digit_pos hne
    rw [literalValue, foldl_cons]
    omega

/-- A number has one digit exactly when it is its first digit. -/
theorem literalValue_cons_le_iff (hd : isDigit d) (hnonzero : d ≠ byte '0') :
    literalValue (d :: ds) ≤ 9 ↔ ds = [] := by
  constructor
  · intro hle
    cases ds with
    | nil => rfl
    | cons d' ds =>
      have htwo := le_foldl_digits ds (10 * (10 * 0 + digit d) + digit d')
      have hpos := digit_pos hnonzero
      simp only [literalValue, foldl_cons] at hle
      omega
  · rintro rfl
    have hlt := digit_lt hd
    rw [literalValue, foldl_cons, foldl_nil]
    omega

/-! ## What is parsed -/

theorem parse_literal {c : UInt8} (hc : c = byte '-' ∨ isDigit c) :
    parse (c :: t) = (parseNumber (c :: t)).bind fun r =>
      if ignoreSpaces r.2 = [] then .ok r.1
      else Error.fromStringLiteral "JsonParser: Didn't consume all input" := by
  have hfuel : 3 * (c :: t).length + 3 = 3 * (c :: t).length + 2 + 1 := rfl
  rw [parse, hfuel, parseHelper_number hc]
  rfl

theorem parse_nonnegative (hint : RfcInt ds) : ∃ d t, ds = d :: t ∧ isDigit d ∧
      parse ds = .ok (.unsignedInt32 (UInt32.ofNat (digit d))) := by
  have hparser : ParserInt ds := by
    cases hint with
    | zero => exact .zero
    | digits hd hnonzero hds => exact .digits hd hnonzero fun c hc => .inl (hds c hc)
  obtain ⟨d, t, rfl, hd, -⟩ := parserInt_head hparser
  refine ⟨d, t, rfl, hd, ?_⟩
  have hnumber : parseNumber (d :: t ++ []) = _ := parseNumber_int hparser rfl
  rw [append_nil] at hnumber
  rw [parse_literal (.inr hd), hnumber]
  rfl

theorem parse_negative (hint : RfcInt ds) (hnonzero : ds ≠ [byte '0']) :
    ∃ e, parse (byte '-' :: ds) = .error e := by
  have hdigits : ∀ c ∈ ds, isDigit c := by
    cases hint with
    | zero => exact absurd rfl hnonzero
    | digits hd _ hds => exact forall_mem_cons.mpr ⟨hd, hds⟩
  have hsome : ∃ c ∈ ds, c ≠ byte '0' := by
    cases hint with
    | zero => exact absurd rfl hnonzero
    | digits _ hne _ => exact ⟨_, mem_cons_self, hne⟩
  obtain ⟨e, he⟩ : ∃ e, parseNumber (byte '-' :: ds ++ []) = .error e :=
    parseNumber_minus hdigits hsome rfl
  rw [append_nil] at he
  refine ⟨e, ?_⟩
  rw [parse_literal (.inl rfl), he]
  rfl

/-! ## Integers that keep their value -/

/-- A value of four bytes without a sign denotes its number and, below `2 ^ 64`, no other. -/
theorem denotes_unsignedInt32_iff {m : UInt32} {n : Int} (hlow : 0 ≤ n) (hhigh : n < 2 ^ 64) :
    (JsonValue.unsignedInt32 m).Denotes n ↔ (m.toNat : Int) = n := by
  constructor
  · intro h
    have hm : (unsigned 64 fun _ => 0).Holds (m.toNat : Int) :=
      ⟨Int.natCast_nonneg _, Int.lt_trans (Int.ofNat_lt.mpr m.toNat_lt) (by decide)⟩
    have hdenotes := h (unsigned 64 fun _ => 0) ⟨hlow, hhigh⟩ (0#64)
    exact Option.some.inj (((unsigned 64 fun _ => 0).kept _ hm).symm.trans hdenotes)
  · rintro rfl
    exact JsonValue.denotes_of_integer rfl

/-- The first digit of a literal is its number exactly when there is no other. -/
theorem digit_eq_literalValue_iff (hint : RfcInt (d :: t)) :
    digit d = literalValue (d :: t) ↔ literalValue (d :: t) ≤ 9 := by
  cases hint with
  | zero => decide
  | digits hd hnonzero _ =>
    rw [literalValue_cons_le_iff hd hnonzero]
    have hlt := digit_lt hd
    constructor
    · intro heq
      refine (literalValue_cons_le_iff hd hnonzero).mp ?_
      omega
    · rintro rfl
      rw [literalValue, foldl_cons, foldl_nil, Nat.mul_zero, Nat.zero_add]

/-- An integer literal below `2 ^ 64` keeps its value exactly when it is a single digit. -/
theorem keepsValue_iff {literal : List UInt8} {n : Int} (hliteral : IntegerLiteral literal n)
    (hhigh : n < 2 ^ 64) : KeepsValue literal n ↔ 0 ≤ n ∧ n ≤ 9 := by
  cases hliteral with
  | nonnegative hint =>
    obtain ⟨d, t, rfl, hd, hparse⟩ := parse_nonnegative hint
    have hdigit := digit_lt hd
    have htoNat : (UInt32.ofNat (digit d)).toNat = digit d :=
      UInt32.toNat_ofNat_of_lt' (Nat.lt_trans hdigit (by decide))
    have hkeeps : KeepsValue (d :: t) (literalValue (d :: t)) ↔
        digit d = literalValue (d :: t) := by
      constructor
      · rintro ⟨value, hvalue, hdenotes⟩
        obtain rfl := Except.ok.inj (hparse.symm.trans hvalue)
        rw [denotes_unsignedInt32_iff (Int.natCast_nonneg _) hhigh, htoNat] at hdenotes
        exact Int.ofNat_inj.mp hdenotes
      · intro heq
        refine ⟨_, hparse, (denotes_unsignedInt32_iff (Int.natCast_nonneg _) hhigh).mpr ?_⟩
        rw [htoNat, heq]
    rw [hkeeps, digit_eq_literalValue_iff hint]
    omega
  | @negative ds hint hnonzero =>
    obtain ⟨e, he⟩ := parse_negative hint hnonzero
    have hpos := literalValue_pos hint hnonzero
    constructor
    · rintro ⟨value, hvalue, -⟩
      rw [he] at hvalue
      cases hvalue
    · rintro ⟨hlow, -⟩
      omega

theorem keepsValue_seven : KeepsValue [byte '7'] 7 ↔ (0 : Int) ≤ 7 ∧ (7 : Int) ≤ 9 :=
  keepsValue_iff (.nonnegative (.digits (by decide) (by decide) (forall_mem_nil _)))
    (by decide)

/-- `12` is read as 1, and `-1` is not read. -/
theorem not_keepsValue_twelve : IntegerLiteral (['1', '2'].map byte) 12 ∧
      parse (['1', '2'].map byte) = .ok (.unsignedInt32 1) ∧
      ¬ KeepsValue (['1', '2'].map byte) 12 ∧
      IntegerLiteral (['-', '1'].map byte) (-1) ∧
      parse (['-', '1'].map byte) =
        .error (.message "JsonParser: Error while parsing number") := by
  refine ⟨.nonnegative (.digits (by decide) (by decide)
      (forall_mem_singleton.mpr (by decide))), rfl, ?_,
    .negative (.digits (by decide) (by decide) (forall_mem_nil _))
      (fun h => absurd (List.cons.inj h).1 (by decide)), rfl⟩
  rintro ⟨value, hvalue, hdenotes⟩
  obtain rfl : JsonValue.unsignedInt32 1 = value := Except.ok.inj hvalue
  have hnumber := (denotes_unsignedInt32_iff (by decide) (by decide)).mp hdenotes
  exact absurd hnumber (by decide)

end Literate.AK

import Literate.AK.Utf8View

/-!
# AK: Base64

`AK/Base64.cpp`.  The encoder and the decoder both go by groups, of three bytes and of
four characters; an offset into the input is the list of bytes from it on.  Decoding
gives back what was encoded, whatever the length of the last group.
-/

namespace Literate.AK.Base64

open List

/-- The characters of the sixty-four values, in order. -/
def alphabet : List UInt8 :=
  literal ['A', 'B', 'C', 'D', 'E', 'F', 'G', 'H', 'I', 'J', 'K', 'L', 'M', 'N', 'O', 'P',
    'Q', 'R', 'S', 'T', 'U', 'V', 'W', 'X', 'Y', 'Z', 'a', 'b', 'c', 'd', 'e', 'f',
    'g', 'h', 'i', 'j', 'k', 'l', 'm', 'n', 'o', 'p', 'q', 'r', 's', 't', 'u', 'v',
    'w', 'x', 'y', 'z', '0', '1', '2', '3', '4', '5', '6', '7', '8', '9', '+', '/']

/-- The loop of `make_lookup_table` over the alphabet from index `i` on. -/
def fillTable : List UInt8 → (i : Nat) → (table : List Int) → List Int
  | [], _, table => table
  | ch :: rest, i, table => fillTable rest (i + 1) (table.set ch.toNat i)

/-- `make_lookup_table`: -1 for what is no character of the alphabet. -/
def alphabetLookupTable : List Int := fillTable alphabet 0 (List.replicate 256 (-1))

def isAsciiSpace (c : UInt8) : Bool :=
  c == byte ' ' || c == byte '\t' || c == byte '\n' || c == 0x0b || c == 0x0c || c == byte '\r'

/-! ## Decoding -/

/-- What the `get` of `decode_base64` leaves in its references, and the value. -/
structure Got where
  value : UInt8
  isPadding : Bool
  parsedSomething : Bool
  rest : List UInt8
  deriving DecidableEq, Repr

/-- The `get` of `decode_base64`; `mayPad` when it is given an `is_padding`.  Its assertion
holds of every entry of the table (`alphabetLookupTable_lt`). -/
def getValue (mayPad : Bool) (input : List UInt8) : Except String Got :=
  match input.dropWhile isAsciiSpace with
  | [] => .ok ⟨0, false, false, []⟩
  | ch :: rest =>
    if ch = byte '=' then
      if !mayPad then .error "Invalid '=' character outside of padding in base64 data"
      else .ok ⟨0, true, true, rest⟩
    else
      let result := alphabetLookupTable.getD ch.toNat (-1)
      if result < 0 then .error "Invalid character in base64 data"
      else .ok ⟨UInt8.ofNat result.toNat, false, true, rest⟩

/-- The bytes of one group, `parsed_something` and what is left of the input. -/
structure Group where
  bytes : List UInt8
  parsedSomething : Bool
  rest : List UInt8
  deriving DecidableEq, Repr

/-- `out0`, `out1` and `out2`, those of the padding left out. -/
def outputs (in0 in1 in2 in3 : UInt8) (in2IsPadding in3IsPadding : Bool) : List UInt8 :=
  let out0 := UInt8.ofNat ((in0.toNat <<< 2) ||| ((in1.toNat >>> 4) &&& 3))
  let out1 := UInt8.ofNat (((in1.toNat &&& 0xf) <<< 4) ||| ((in2.toNat >>> 2) &&& 0xf))
  let out2 := UInt8.ofNat (((in2.toNat &&& 0x3) <<< 6) ||| in3.toNat)
  [out0] ++ (if in2IsPadding then [] else [out1]) ++ (if in3IsPadding then [] else [out2])

/-- The body of the loop of `decode_base64`. -/
def decodeGroup (input : List UInt8) : Except String Group := do
  let in0 ← getValue false input
  let in1 ← getValue false in0.rest
  let in2 ← getValue true in1.rest
  let in3 ← getValue true in2.rest
  return {
    bytes := outputs in0.value in1.value in2.value in3.value in2.isPadding in3.isPadding
    parsedSomething :=
      in0.parsedSomething || in1.parsedSomething || in2.parsedSomething || in3.parsedSomething
    rest := in3.rest }

variable {input : List UInt8} {index low : Nat}

/-- What is left after a `get` is shorter, if something was parsed. -/
theorem length_getValue {mayPad : Bool} {got : Got} (h : getValue mayPad input = .ok got) :
    got.rest.length ≤ input.length ∧
      (got.parsedSomething = true → got.rest.length < input.length) := by
  have hskip := (dropWhile_sublist (l := input) isAsciiSpace).length_le
  unfold getValue at h
  split at h
  · cases h
    exact ⟨Nat.zero_le _, fun hparsed => absurd hparsed Bool.false_ne_true⟩
  · next ch rest hrest =>
    have hlt : rest.length < input.length := by
      rw [hrest, length_cons] at hskip
      omega
    have hgot : got.rest = rest := by
      split at h
      · split at h
        · cases h
        · cases h
          rfl
      · dsimp only at h
        split at h
        · cases h
        · cases h
          rfl
    rw [hgot]
    exact ⟨Nat.le_of_lt hlt, fun _ => hlt⟩

/-- What the four reads of a group give, when all of them succeed. -/
theorem decodeGroup_eq_ok {group : Group} (h : decodeGroup input = .ok group) :
    ∃ in0 in1 in2 in3, getValue false input = .ok in0 ∧ getValue false in0.rest = .ok in1 ∧
      getValue true in1.rest = .ok in2 ∧ getValue true in2.rest = .ok in3 ∧
      group.rest = in3.rest ∧
      group.parsedSomething = (in0.parsedSomething || in1.parsedSomething ||
        in2.parsedSomething || in3.parsedSomething) := by
  unfold decodeGroup at h
  simp only [bind, Except.bind, pure, Except.pure] at h
  split at h
  · cases h
  · next in0 h0 =>
    split at h
    · cases h
    · next in1 h1 =>
      split at h
      · cases h
      · next in2 h2 =>
        split at h
        · cases h
        · next in3 h3 =>
          cases h
          exact ⟨in0, in1, in2, in3, h0, h1, h2, h3, rfl, rfl⟩

theorem length_decodeGroup {group : Group}
    (h : decodeGroup input = .ok group) (hparsed : group.parsedSomething = true) :
    group.rest.length < input.length := by
  obtain ⟨in0, in1, in2, in3, h0, h1, h2, h3, hrest, hgroup⟩ := decodeGroup_eq_ok h
  obtain ⟨hle0, hlt0⟩ := length_getValue h0
  obtain ⟨hle1, hlt1⟩ := length_getValue h1
  obtain ⟨hle2, hlt2⟩ := length_getValue h2
  obtain ⟨hle3, hlt3⟩ := length_getValue h3
  simp only [hgroup, Bool.or_eq_true] at hparsed
  rw [hrest]
  obtain ((hp | hp) | hp) | hp := hparsed
  · have := hlt0 hp
    omega
  · have := hlt1 hp
    omega
  · have := hlt2 hp
    omega
  · have := hlt3 hp
    omega

/-- The loop of `decode_base64`. -/
def decodeLoop (input output : List UInt8) : Except String (List UInt8) :=
  if input = [] then .ok output
  else
    match _ : decodeGroup input with
    | .error e => .error e
    | .ok group =>
      if _ : group.parsedSomething = true then
        decodeLoop group.rest (output ++ group.bytes)
      else .ok output
termination_by input.length
decreasing_by exact length_decodeGroup ‹_› ‹_›

/-- `decode_base64`. -/
def decodeBase64 (input : List UInt8) : Except String (List UInt8) := decodeLoop input []

/-! ## Encoding -/

/-- The `get` of `encode_base64`: the byte at the offset and whether padding is needed. -/
def getByte (input : List UInt8) (offset : Nat) : UInt8 × Bool :=
  match input[offset]? with
  | none => (0, true)
  | some b => (b, false)

/-- The character of a value below sixty-four. -/
def alphabetAt (index : Nat) : UInt8 := alphabet.getD index 0

/-- The body of the loop of `encode_base64`. -/
def encodeGroup (input : List UInt8) : List UInt8 :=
  let in0 := (getByte input 0).1.toNat
  let in1 := (getByte input 1).1.toNat
  let in2 := (getByte input 2).1.toNat
  let is16bit := (getByte input 1).2
  let is8bit := (getByte input 2).2
  let index0 := (in0 >>> 2) &&& 0x3f
  let index1 := ((in0 <<< 4) ||| (in1 >>> 4)) &&& 0x3f
  let index2 := ((in1 <<< 2) ||| (in2 >>> 6)) &&& 0x3f
  let index3 := in2 &&& 0x3f
  [alphabetAt index0, alphabetAt index1,
    if is16bit then byte '=' else alphabetAt index2,
    if is8bit then byte '=' else alphabetAt index3]

/-- `encode_base64`. -/
def encodeBase64 (input : List UInt8) : List UInt8 :=
  if input = [] then [] else encodeGroup input ++ encodeBase64 (input.drop 3)
termination_by input.length
decreasing_by
  have := length_pos_of_ne_nil ‹input ≠ []›
  rw [length_drop]
  omega

/-! ## The table and the alphabet -/

set_option maxRecDepth 8192 in
/-- What the assertion of `get` checks. -/
theorem alphabetLookupTable_lt : ∀ result ∈ alphabetLookupTable, result < 256 := by
  decide

/-- The character of a value is read as that value, and is no space and no padding. -/
theorem alphabetAt_spec (h : index < 64) :
    alphabetLookupTable.getD (alphabetAt index).toNat (-1) = index ∧
      isAsciiSpace (alphabetAt index) = false ∧ alphabetAt index ≠ byte '=' := by
  revert index
  decide

theorem getValue_alphabetAt (h : index < 64) (mayPad : Bool) (rest : List UInt8) :
    getValue mayPad (alphabetAt index :: rest) =
      .ok ⟨UInt8.ofNat index, false, true, rest⟩ := by
  obtain ⟨htable, hspace, hpadding⟩ := alphabetAt_spec h
  rw [getValue, dropWhile_cons_of_neg (by rw [hspace]; exact Bool.false_ne_true)]
  dsimp only
  rw [if_neg hpadding, htable, if_neg (by omega)]
  rfl

theorem getValue_padding (rest : List UInt8) :
    getValue true (byte '=' :: rest) = .ok ⟨0, true, true, rest⟩ := by
  have hspace : isAsciiSpace (byte '=') = false := by decide
  rw [getValue, dropWhile_cons_of_neg (by rw [hspace]; exact Bool.false_ne_true)]
  rfl

/-! ## Six bits and eight bits -/

section

variable (n : Nat)

theorem mask_lt : n &&& 0x3f < 64 := Nat.lt_succ_of_le Nat.and_le_right

theorem mask_two : n &&& 0x3 = n % 4 := Nat.and_two_pow_sub_one_eq_mod n 2

theorem mask_four : n &&& 0xf = n % 16 := Nat.and_two_pow_sub_one_eq_mod n 4

theorem mask_six : n &&& 0x3f = n % 64 := Nat.and_two_pow_sub_one_eq_mod n 6

theorem shiftRight_two : n >>> 2 = n / 4 := Nat.shiftRight_eq_div_pow n 2

theorem shiftRight_four : n >>> 4 = n / 16 := Nat.shiftRight_eq_div_pow n 4

theorem shiftRight_six : n >>> 6 = n / 64 := Nat.shiftRight_eq_div_pow n 6

/-- Two bits, four bits and six bits beside a number. -/
theorem shiftLeft_two_or (h : low < 4) : (n <<< 2) ||| low = 4 * n + low := by
  rw [← Nat.shiftLeft_add_eq_or_of_lt (i := 2) h, Nat.shiftLeft_eq, Nat.mul_comm]

theorem shiftLeft_four_or (h : low < 16) : (n <<< 4) ||| low = 16 * n + low := by
  rw [← Nat.shiftLeft_add_eq_or_of_lt (i := 4) h, Nat.shiftLeft_eq, Nat.mul_comm]

theorem shiftLeft_six_or (h : low < 64) : (n <<< 6) ||| low = 64 * n + low := by
  rw [← Nat.shiftLeft_add_eq_or_of_lt (i := 6) h, Nat.shiftLeft_eq, Nat.mul_comm]

end

/-- The bytes of a group in terms of its four values. -/
theorem outputs_ofNat {a b c d : Nat} (ha : a < 64) (hb : b < 64) (hc : c < 64) (hd : d < 64)
    (in2IsPadding in3IsPadding : Bool) :
    outputs (UInt8.ofNat a) (UInt8.ofNat b) (UInt8.ofNat c) (UInt8.ofNat d) in2IsPadding
        in3IsPadding =
      [UInt8.ofNat (4 * a + b / 16)] ++
        (if in2IsPadding then [] else [UInt8.ofNat (16 * (b % 16) + c / 4)]) ++
        (if in3IsPadding then [] else [UInt8.ofNat (64 * (c % 4) + d)]) := by
  have hvalue : ∀ n < 64, (UInt8.ofNat n).toNat = n := by decide
  have hb4 : b / 16 % 4 = b / 16 := by omega
  have hc2 : c / 4 % 16 = c / 4 := by omega
  rw [outputs, hvalue a ha, hvalue b hb, hvalue c hc, hvalue d hd, shiftRight_four,
    shiftRight_two, mask_two, mask_four, mask_four, mask_two, hb4, hc2,
    shiftLeft_two_or a (by omega), shiftLeft_four_or (b % 16) (by omega),
    shiftLeft_six_or (c % 4) hd]

section

variable (in0 in1 in2 : UInt8)

theorem index0_eq : (in0.toNat >>> 2) &&& 0x3f = in0.toNat / 4 := by
  have h0 := in0.toNat_lt
  rw [mask_six, shiftRight_two]
  omega

theorem index1_eq :
    ((in0.toNat <<< 4) ||| (in1.toNat >>> 4)) &&& 0x3f = 16 * (in0.toNat % 4) + in1.toNat / 16 := by
  have h1 := in1.toNat_lt
  rw [shiftRight_four, shiftLeft_four_or _ (by omega), mask_six]
  omega

theorem index2_eq :
    ((in1.toNat <<< 2) ||| (in2.toNat >>> 6)) &&& 0x3f = 4 * (in1.toNat % 16) + in2.toNat / 64 := by
  have h2 := in2.toNat_lt
  rw [shiftRight_six, shiftLeft_two_or _ (by omega), mask_six]
  omega

/-- The values of a group of the encoder become its bytes again. -/
theorem outputs_indices (in2IsPadding in3IsPadding : Bool) :
    outputs (UInt8.ofNat ((in0.toNat >>> 2) &&& 0x3f))
        (UInt8.ofNat (((in0.toNat <<< 4) ||| (in1.toNat >>> 4)) &&& 0x3f))
        (UInt8.ofNat (((in1.toNat <<< 2) ||| (in2.toNat >>> 6)) &&& 0x3f))
        (UInt8.ofNat (in2.toNat &&& 0x3f)) in2IsPadding in3IsPadding =
      [in0] ++ (if in2IsPadding then [] else [in1]) ++ (if in3IsPadding then [] else [in2]) := by
  have h1 := in1.toNat_lt
  have h2 := in2.toNat_lt
  have hout0 : 4 * (in0.toNat / 4) + (16 * (in0.toNat % 4) + in1.toNat / 16) / 16 = in0.toNat := by
    omega
  have hout1 : 16 * ((16 * (in0.toNat % 4) + in1.toNat / 16) % 16) +
      (4 * (in1.toNat % 16) + in2.toNat / 64) / 4 = in1.toNat := by
    omega
  have hout2 : 64 * ((4 * (in1.toNat % 16) + in2.toNat / 64) % 4) + in2.toNat % 64 = in2.toNat := by
    omega
  rw [outputs_ofNat (mask_lt _) (mask_lt _) (mask_lt _) (mask_lt _), index0_eq, index1_eq,
    index2_eq, mask_six, hout0, hout1, hout2, UInt8.ofNat_toNat, UInt8.ofNat_toNat,
    UInt8.ofNat_toNat]

end

/-! ## The round trip -/

/-- A character of the end of a group, which is padding where there is no byte. -/
theorem getValue_or_padding (h : index < 64) {needPadding : Bool}
    (hpadding : needPadding = true → index = 0) (rest : List UInt8) :
    getValue true ((if needPadding then byte '=' else alphabetAt index) :: rest) =
      .ok ⟨UInt8.ofNat index, needPadding, true, rest⟩ := by
  cases needPadding with
  | false => exact getValue_alphabetAt h true rest
  | true =>
    rw [hpadding rfl]
    exact getValue_padding rest

/-- A byte that is not there counts as zero, and no later one is there. -/
theorem getByte_of_padding {offset : Nat} (h : (getByte input offset).2 = true) :
    ∀ offset', offset ≤ offset' → getByte input offset' = (0, true) := by
  intro offset' hle
  have hnone : input.length ≤ offset := by
    by_contra hlt
    rw [getByte, List.getElem?_eq_getElem (by omega)] at h
    exact Bool.false_ne_true h
  rw [getByte, List.getElem?_eq_none (by omega)]

/-- The bytes of a group are the first three, as far as there are any. -/
theorem take_three (h : input ≠ []) :
    [(getByte input 0).1] ++ (if (getByte input 1).2 then [] else [(getByte input 1).1]) ++
      (if (getByte input 2).2 then [] else [(getByte input 2).1]) = input.take 3 := by
  match input, h with
  | [in0], _ => rfl
  | [in0, in1], _ => rfl
  | in0 :: in1 :: in2 :: rest, _ => rfl

theorem decodeGroup_encodeGroup (h : input ≠ []) (rest : List UInt8) :
    decodeGroup (encodeGroup input ++ rest) = .ok ⟨input.take 3, true, rest⟩ := by
  have hpadding2 : (getByte input 1).2 = true →
      (((getByte input 1).1.toNat <<< 2) ||| ((getByte input 2).1.toNat >>> 6)) &&& 0x3f = 0 := by
    intro hneed
    rw [getByte_of_padding hneed 1 (Nat.le_refl 1), getByte_of_padding hneed 2 (by decide)]
    rfl
  have hpadding3 : (getByte input 2).2 = true → (getByte input 2).1.toNat &&& 0x3f = 0 := by
    intro hneed
    rw [getByte_of_padding hneed 2 (Nat.le_refl 2)]
    rfl
  have hbytes := outputs_indices (getByte input 0).1 (getByte input 1).1 (getByte input 2).1
    (getByte input 1).2 (getByte input 2).2
  rw [take_three h] at hbytes
  rw [decodeGroup, encodeGroup]
  simp only [List.cons_append, nil_append, getValue_alphabetAt (mask_lt _),
    getValue_or_padding (mask_lt _) hpadding2, getValue_or_padding (mask_lt _) hpadding3, bind,
    Except.bind, pure, Except.pure, hbytes, Bool.or_self]

theorem decodeLoop_encodeBase64 (input output : List UInt8) :
    decodeLoop (encodeBase64 input) output = .ok (output ++ input) := by
  induction hlength : input.length using Nat.strongRecOn generalizing input output with
  | ind n ih =>
    by_cases hnil : input = []
    · rw [hnil, encodeBase64, decodeLoop, if_pos rfl, if_pos rfl, append_nil]
    · have hpos := length_pos_of_ne_nil hnil
      have hgroup := decodeGroup_encodeGroup hnil (encodeBase64 (input.drop 3))
      rw [encodeBase64, if_neg hnil, decodeLoop, if_neg (by simp [encodeGroup])]
      split
      · next e herror => rw [hgroup] at herror; cases herror
      · next group hok =>
        rw [hgroup] at hok
        cases hok
        rw [dif_pos rfl, ih _ (by rw [length_drop]; omega) _ _ rfl, List.append_assoc,
          take_append_drop]

/-- Decoding inverts encoding. -/
theorem decodeBase64_encodeBase64 (input : List UInt8) :
    decodeBase64 (encodeBase64 input) = .ok input := by
  rw [decodeBase64, decodeLoop_encodeBase64, nil_append]

end Literate.AK.Base64

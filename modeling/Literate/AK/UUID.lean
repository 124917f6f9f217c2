import Literate.AK.StringUtils

/-!
# AK: UUIDs as text

The conversions, the constructor and `to_string` of `AK/UUID.cpp`, with `decode_hex` and
`encode_hex` of `AK/Hex.cpp`; `c2` is taken to be the second digit, and `Litte` to be `Little`.
The conversion for little endian is not called.  `none` is a failed `VERIFY` or `MUST`.
-/

namespace Literate.AK

open List Option

set_option maxRecDepth 8192

def decodeHexDigit (digit : UInt8) : UInt8 :=
  if digit ≥ byte '0' ∧ digit ≤ byte '9' then digit - byte '0'
  else if digit ≥ byte 'a' ∧ digit ≤ byte 'f' then 10 + (digit - byte 'a')
  else if digit ≥ byte 'A' ∧ digit ≤ byte 'F' then 10 + (digit - byte 'A')
  else 255

/-- `none` is an error: a digit that is none, or one too many. -/
def decodeHex : List UInt8 → Option (List UInt8)
  | [] => some []
  | [_] => none
  | d1 :: d2 :: input =>
    let c1 := decodeHexDigit d1
    let c2 := decodeHexDigit d2
    if c1 ≥ 16 ∨ c2 ≥ 16 then none
    else (decodeHex input).map (((c1 <<< 4) + c2) :: ·)

/-- What `{:02x}` prints for a byte is a parameter: the formatter is not part of the source. -/
def encodeHex (format02x : UInt8 → List UInt8) (input : List UInt8) : List UInt8 :=
  input.flatMap format02x

def lowerHexDigit (nibble : UInt8) : UInt8 :=
  if nibble < 10 then byte '0' + nibble else byte 'a' + (nibble - 10)

/-- The digits of `{:02x}`. -/
def lowerHex (b : UInt8) : List UInt8 := [lowerHexDigit (b >>> 4), lowerHexDigit (b &&& 15)]

namespace UUID

inductive Endianness where
  | mixed
  | little
  deriving DecidableEq

def overwrite (buffer : List UInt8) (offset : Nat) (data : List UInt8) : List UInt8 :=
  buffer.take offset ++ data ++ buffer.drop (offset + data.length)

/-- The five units of a text, decoded. -/
def units (s : List UInt8) :
    Option (List UInt8 × List UInt8 × List UInt8 × List UInt8 × List UInt8) := do
  if s.length ≠ 36 then failure
  let firstUnit ← decodeHex ((s.drop 0).take 8)
  let secondUnit ← decodeHex ((s.drop 9).take 4)
  let thirdUnit ← decodeHex ((s.drop 14).take 4)
  let fourthUnit ← decodeHex ((s.drop 19).take 4)
  let fifthUnit ← decodeHex ((s.drop 24).take 12)
  if firstUnit.length = 4 ∧ secondUnit.length = 2 ∧ thirdUnit.length = 2 ∧
      fourthUnit.length = 2 ∧ fifthUnit.length = 6 then
    return (firstUnit, secondUnit, thirdUnit, fourthUnit, fifthUnit)
  else failure

/-- `convert_string_view_to_mixed_endian_uuid`; `behind` are the two bytes in memory behind those
of the first unit. -/
def toMixedEndian (behind : UInt8 × UInt8) (s : List UInt8) : Option (List UInt8) := do
  let (firstUnit, secondUnit, thirdUnit, fourthUnit, fifthUnit) ← units s
  let buffer := List.replicate 16 0
  let buffer := (List.range 4).foldl (fun buffer index =>
    buffer.set (3 - index) (firstUnit.getD index 0)) buffer
  let buffer := (List.range 2).foldl (fun buffer index =>
    (buffer.set (3 + 2 - index) (secondUnit.getD index 0)).set (5 + 2 - index)
      (thirdUnit.getD index 0)) buffer
  return overwrite (overwrite buffer 8 fourthUnit) 10
    ((firstUnit ++ [behind.1, behind.2]).take fifthUnit.length)

def ofString (behind : UInt8 × UInt8) (s : List UInt8) : Endianness → Option (List UInt8)
  | .little => toMixedEndian behind s
  | .mixed => toMixedEndian behind s

/-- Five units with dashes between them. -/
def dashed (first second third fourth fifth : List UInt8) : List UInt8 :=
  first ++ byte '-' :: (second ++ byte '-' :: (third ++ byte '-' :: (fourth ++ byte '-' :: fifth)))

def toString (format02x : UInt8 → List UInt8) (buffer : List UInt8) : List UInt8 :=
  let slice (start size : Nat) := encodeHex format02x ((buffer.drop start).take size)
  dashed (slice 0 4) (slice 4 2) (slice 6 2) (slice 8 2) (slice 10 6)

/-! ## Texts -/

def hexDigits : List UInt8 := "0123456789abcdefABCDEF".toList.map byte

def lower (c : UInt8) : UInt8 := if byte 'A' ≤ c ∧ c ≤ byte 'F' then c + 32 else c

/-- Five groups of digits that make up a text. -/
structure Text where
  first : List UInt8
  second : List UInt8
  third : List UInt8
  fourth : List UInt8
  fifth : List UInt8
  lengths : first.length = 8 ∧ second.length = 4 ∧ third.length = 4 ∧ fourth.length = 4 ∧
    fifth.length = 12
  digits : ∀ c ∈ first ++ second ++ third ++ fourth ++ fifth, c ∈ hexDigits

def Text.text (t : Text) : List UInt8 := dashed t.first t.second t.third t.fourth t.fifth

/-- The bytes of a group. -/
def bytes (group : List UInt8) : List UInt8 := (decodeHex group).getD []

/-- What the two layouts are for. -/
structure RoundTrips (format02x : UInt8 → List UInt8) (behind : UInt8 × UInt8) (t : Text) :
    Prop where
  little : (ofString behind t.text .little).map (toString format02x) = some (t.text.map lower)
  mixed : ofString behind t.text .mixed = some ((bytes t.first).reverse ++
    (bytes t.second).reverse ++ (bytes t.third).reverse ++ bytes t.fourth ++ bytes t.fifth)
  decode : ∀ input, decodeHex (encodeHex format02x input) = some input
  encode : ∀ group input, (∀ c ∈ group, c ∈ hexDigits) → decodeHex group = some input →
    encodeHex format02x input = group.map lower

/-! ## Digits -/

theorem decodeHexDigit_lowerHexDigit (b : UInt8) :
    ¬ (decodeHexDigit (lowerHexDigit (b >>> 4)) ≥ 16 ∨
        decodeHexDigit (lowerHexDigit (b &&& 15)) ≥ 16) ∧
      (decodeHexDigit (lowerHexDigit (b >>> 4)) <<< 4) +
        decodeHexDigit (lowerHexDigit (b &&& 15)) = b := by
  have hall : ∀ n : Fin 256, ¬ (decodeHexDigit (lowerHexDigit (UInt8.ofFin n >>> 4)) ≥ 16 ∨
        decodeHexDigit (lowerHexDigit (UInt8.ofFin n &&& 15)) ≥ 16) ∧
      (decodeHexDigit (lowerHexDigit (UInt8.ofFin n >>> 4)) <<< 4) +
        decodeHexDigit (lowerHexDigit (UInt8.ofFin n &&& 15)) = UInt8.ofFin n := by
    decide
  exact hall b.toFin

theorem decodeHex_encodeHex (input : List UInt8) :
    decodeHex (encodeHex lowerHex input) = some input := by
  induction input with
  | nil => rfl
  | cons b input ih =>
    obtain ⟨hvalid, hpair⟩ := decodeHexDigit_lowerHexDigit b
    rw [encodeHex] at ih
    rw [encodeHex, flatMap_cons, lowerHex, List.cons_append, singleton_append, decodeHex]
    rw [if_neg hvalid, ih, hpair, map_some]

theorem encodeHex_injective {input input' : List UInt8}
    (h : encodeHex lowerHex input = encodeHex lowerHex input') : input = input' := by
  have hdecoded := congrArg decodeHex h
  rw [decodeHex_encodeHex, decodeHex_encodeHex] at hdecoded
  exact some.inj hdecoded

theorem length_encodeHex (input : List UInt8) :
    (encodeHex lowerHex input).length = 2 * input.length := by
  induction input with
  | nil => rfl
  | cons b input ih =>
    rw [encodeHex] at ih
    rw [encodeHex, flatMap_cons, length_append, ih, length_cons, lowerHex]
    exact Nat.add_comm 2 _

theorem decodeHexDigit_spec : ∀ c1 ∈ hexDigits, ∀ c2 ∈ hexDigits,
    ¬ (decodeHexDigit c1 ≥ 16 ∨ decodeHexDigit c2 ≥ 16) ∧
      lowerHex ((decodeHexDigit c1 <<< 4) + decodeHexDigit c2) = [lower c1, lower c2] := by
  decide

theorem encodeHex_of_decodeHex : ∀ {group input : List UInt8}, (∀ c ∈ group, c ∈ hexDigits) →
    decodeHex group = some input → encodeHex lowerHex input = group.map lower
  | [], _, _, h => by
    cases h
    rfl
  | [_], _, _, h => by cases h
  | c1 :: c2 :: group, input, hdigits, h => by
    rw [forall_mem_cons, forall_mem_cons] at hdigits
    obtain ⟨hvalid, hpair⟩ := decodeHexDigit_spec c1 hdigits.1 c2 hdigits.2.1
    rw [decodeHex, if_neg hvalid] at h
    obtain ⟨rest, hrest, rfl⟩ := map_eq_some_iff.mp h
    have ih := encodeHex_of_decodeHex hdigits.2.2 hrest
    rw [encodeHex] at ih
    rw [encodeHex, flatMap_cons, hpair, ih]
    rfl

theorem exists_decodeHex (n : Nat) {group : List UInt8} (hlength : group.length = 2 * n)
    (hdigits : ∀ c ∈ group, c ∈ hexDigits) :
    ∃ input, decodeHex group = some input ∧ input.length = n := by
  induction n generalizing group with
  | zero =>
    rw [length_eq_zero_iff.mp hlength]
    exact ⟨[], rfl, rfl⟩
  | succ n ih =>
    match group with
    | [] => cases hlength
    | [_] =>
      rw [length_singleton] at hlength
      omega
    | c1 :: c2 :: group =>
      rw [length_cons, length_cons] at hlength
      rw [forall_mem_cons, forall_mem_cons] at hdigits
      obtain ⟨input, hinput, hsize⟩ := ih (by omega) hdigits.2.2
      obtain ⟨hvalid, -⟩ := decodeHexDigit_spec c1 hdigits.1 c2 hdigits.2.1
      refine ⟨((decodeHexDigit c1 <<< 4) + decodeHexDigit c2) :: input, ?_,
        congrArg (· + 1) hsize⟩
      rw [decodeHex, if_neg hvalid, hinput, map_some]

/-! ## Units -/

theorem hexDigits_of_decodeHex : ∀ {group input : List UInt8}, decodeHex group = some input →
    ∀ c ∈ group, c ∈ hexDigits
  | [], _, _ => forall_mem_nil _
  | [_], _, h => by cases h
  | c1 :: c2 :: group, input, h => by
    have hall : ∀ n : Fin 256, ¬ decodeHexDigit (UInt8.ofFin n) ≥ 16 → UInt8.ofFin n ∈ hexDigits := by
      decide
    rw [decodeHex] at h
    split at h
    · cases h
    · next hvalid =>
      obtain ⟨rest, hrest, -⟩ := map_eq_some_iff.mp h
      obtain ⟨hc1, hc2⟩ := not_or.mp hvalid
      exact forall_mem_cons.mpr ⟨hall c1.toFin hc1,
        forall_mem_cons.mpr ⟨hall c2.toFin hc2, hexDigits_of_decodeHex hrest⟩⟩

/-- `decode_hex` decodes what `encode_hex` makes, in either case, and nothing else. -/
theorem decodeHex_eq_some_iff (group input : List UInt8) : decodeHex group = some input ↔
    (∀ c ∈ group, c ∈ hexDigits) ∧ group.map lower = encodeHex lowerHex input := by
  constructor
  · intro h
    have hdigits := hexDigits_of_decodeHex h
    exact ⟨hdigits, (encodeHex_of_decodeHex hdigits h).symm⟩
  · rintro ⟨hdigits, hlower⟩
    have hlength : group.length = 2 * input.length := by
      rw [← length_encodeHex, ← hlower, length_map]
    obtain ⟨output, houtput, -⟩ := exists_decodeHex _ hlength hdigits
    have hencoded := encodeHex_of_decodeHex hdigits houtput
    rw [houtput, encodeHex_injective (hencoded.trans hlower)]

theorem dashed_inj {u1 u2 u3 u4 u5 v1 v2 v3 v4 v5 : List UInt8}
    (h : dashed u1 u2 u3 u4 u5 = dashed v1 v2 v3 v4 v5) (h1 : u1.length = v1.length)
    (h2 : u2.length = v2.length) (h3 : u3.length = v3.length) (h4 : u4.length = v4.length) :
    u1 = v1 ∧ u2 = v2 ∧ u3 = v3 ∧ u4 = v4 ∧ u5 = v5 := by
  unfold dashed at h
  obtain ⟨hu1, h⟩ := append_inj h h1
  obtain ⟨hu2, h⟩ := append_inj (List.cons.inj h).2 h2
  obtain ⟨hu3, h⟩ := append_inj (List.cons.inj h).2 h3
  obtain ⟨hu4, h⟩ := append_inj (List.cons.inj h).2 h4
  exact ⟨hu1, hu2, hu3, hu4, (List.cons.inj h).2⟩

/-- What a group is decoded to. -/
structure Decoded (group : List UInt8) (n : Nat) : Prop where
  decode : decodeHex group = some (bytes group)
  length : (bytes group).length = n
  encode : encodeHex lowerHex (bytes group) = group.map lower

theorem decoded {n : Nat} {group : List UInt8} (hlength : group.length = 2 * n)
    (hdigits : ∀ c ∈ group, c ∈ hexDigits) : Decoded group n := by
  obtain ⟨input, hdecode, hsize⟩ := exists_decodeHex n hlength hdigits
  have hbytes : bytes group = input := by rw [bytes, hdecode, getD_some]
  rw [← hbytes] at hdecode hsize
  exact ⟨hdecode, hsize, encodeHex_of_decodeHex hdigits hdecode⟩

theorem Text.decoded (t : Text) : Decoded t.first 4 ∧ Decoded t.second 2 ∧ Decoded t.third 2 ∧
    Decoded t.fourth 2 ∧ Decoded t.fifth 6 := by
  obtain ⟨h1, h2, h3, h4, h5⟩ := t.lengths
  have hdigits := t.digits
  simp only [forall_mem_append] at hdigits
  obtain ⟨⟨⟨⟨hd1, hd2⟩, hd3⟩, hd4⟩, hd5⟩ := hdigits
  exact ⟨UUID.decoded h1 hd1, UUID.decoded h2 hd2, UUID.decoded h3 hd3, UUID.decoded h4 hd4,
    UUID.decoded h5 hd5⟩

theorem slices_text (t : Text) : t.text.length = 36 ∧ (t.text.drop 0).take 8 = t.first ∧
    (t.text.drop 9).take 4 = t.second ∧ (t.text.drop 14).take 4 = t.third ∧
    (t.text.drop 19).take 4 = t.fourth ∧ (t.text.drop 24).take 12 = t.fifth := by
  obtain ⟨first, second, third, fourth, fifth, ⟨h1, h2, h3, h4, h5⟩, -⟩ := t
  match first, second, third, fourth, fifth, h1, h2, h3, h4, h5 with
  | [_, _, _, _, _, _, _, _], [_, _, _, _], [_, _, _, _], [_, _, _, _],
    [_, _, _, _, _, _, _, _, _, _, _, _], _, _, _, _, _ => exact ⟨rfl, rfl, rfl, rfl, rfl, rfl⟩

theorem units_text (t : Text) : units t.text =
    some (bytes t.first, bytes t.second, bytes t.third, bytes t.fourth, bytes t.fifth) := by
  obtain ⟨hlength, hs1, hs2, hs3, hs4, hs5⟩ := slices_text t
  obtain ⟨hd1, hd2, hd3, hd4, hd5⟩ := t.decoded
  unfold units
  rw [hs1, hs2, hs3, hs4, hs5, hd1.decode, hd2.decode, hd3.decode, hd4.decode, hd5.decode]
  simp [hlength, hd1.length, hd2.length, hd3.length, hd4.length, hd5.length]

theorem toMixedEndian_eq (behind : UInt8 × UInt8) (t : Text) : toMixedEndian behind t.text =
    some ((bytes t.first).reverse ++ (bytes t.second).reverse ++ (bytes t.third).reverse ++
      bytes t.fourth ++ (bytes t.first ++ [behind.1, behind.2])) := by
  obtain ⟨hd1, hd2, hd3, hd4, hd5⟩ := t.decoded
  unfold toMixedEndian
  rw [units_text]
  dsimp only [bind_eq_bind, bind_some]
  rw [hd5.length]
  have h1 := hd1.length
  have h2 := hd2.length
  have h3 := hd3.length
  have h4 := hd4.length
  generalize bytes t.first = u1 at *
  generalize bytes t.second = u2 at *
  generalize bytes t.third = u3 at *
  generalize bytes t.fourth = u4 at *
  match u1, u2, u3, u4, h1, h2, h3, h4 with
  | [_, _, _, _], [_, _], [_, _], [_, _], _, _, _, _ => rfl

/-- `to_string` of units in their order. -/
theorem toString_append (u1 u2 u3 u4 u5 : List UInt8) (h1 : u1.length = 4) (h2 : u2.length = 2)
    (h3 : u3.length = 2) (h4 : u4.length = 2) (h5 : u5.length = 6) :
    toString lowerHex (u1 ++ u2 ++ u3 ++ u4 ++ u5) = dashed (encodeHex lowerHex u1)
      (encodeHex lowerHex u2) (encodeHex lowerHex u3) (encodeHex lowerHex u4)
      (encodeHex lowerHex u5) := by
  match u1, u2, u3, u4, u5, h1, h2, h3, h4, h5 with
  | [_, _, _, _], [_, _], [_, _], [_, _], [_, _, _, _, _, _], _, _, _, _, _ => rfl

/-- A text whose groups are all zeros. -/
def zeros : Text where
  first := List.replicate 8 (byte '0')
  second := List.replicate 4 (byte '0')
  third := List.replicate 4 (byte '0')
  fourth := List.replicate 4 (byte '0')
  fifth := List.replicate 12 (byte '0')
  lengths := by decide
  digits := by decide

def one : Text := { zeros with
  first := List.replicate 7 (byte '0') ++ [byte '1']
  lengths := by decide
  digits := by decide }

end UUID

end Literate.AK

import Literate.AK.BitRoundTrip
import Literate.Foundation.BigEndian

/-!
# AK: bits from the highest one on

`read_bits_big_endian` of `AK/BitStream.h`.  It takes a whole byte at once when no bit of
it has been read and all of it is wanted, and otherwise one bit of it.
-/

namespace Literate.AK

open Foundation List

namespace InputBitStream

/-- `result <<= 8; result |= m_next_byte.value()`. -/
def appendByte (byte : BitVec 8) (result : BitVec 64) : BitVec 64 :=
  (result <<< 8) ||| byte.setWidth 64

/-- `result <<= 1; result |= bit`, where the bit is an `int`. -/
def appendBit (byte : BitVec 8) (bitOffset : Nat) (result : BitVec 64) : BitVec 64 :=
  let bit : BitVec 32 := (byte.setWidth 32 >>> (7 - bitOffset)) &&& 1#32
  (result <<< 1) ||| bit.signExtend 64

/-- The branch of `read_bits_big_endian` that takes the byte that is held. -/
def clearNextByte (s : InputBitStream) : InputBitStream := { s with nextByte := none }

/-- The loop of `read_bits_big_endian`. -/
def readLoopBigEndian (count nread : Nat) (result : BitVec 64) (s : InputBitStream) :
    BitVec 64 × InputBitStream :=
  if nread < count then
    if s.stream.anyError then (0, { s with fatalError := true })
    else
      match hbyte : s.nextByte with
      | some byte =>
        if 8 ≤ count - nread ∧ s.bitOffset = 0 then
          readLoopBigEndian count (nread + 8) (appendByte byte result) s.clearNextByte
        else
          readLoopBigEndian count (nread + 1) (appendBit byte s.bitOffset result)
            (s.advance byte)
      | none => readLoopBigEndian count nread result s.nextByteFromStream
  else (result, s)
termination_by (count - nread, if s.nextByte = none then 1 else 0)
decreasing_by
  · exact Prod.Lex.left _ _ (by omega)
  · exact Prod.Lex.left _ _ (by omega)
  · rw [hbyte]
    refine Prod.Lex.right _ ?_
    rw [nextByteFromStream]
    split <;> simp

def readBitsBigEndian (count : Nat) (s : InputBitStream) : BitVec 64 × InputBitStream :=
  readLoopBigEndian count 0 0 s

/-- `read_bits_big_endian` with each of the counts in turn. -/
def readAllBigEndian : List Nat → InputBitStream → List (BitVec 64)
  | [], _ => []
  | count :: counts, s =>
    (readBitsBigEndian count s).1 :: readAllBigEndian counts (readBitsBigEndian count s).2

/-- The bits that have not been read, in the order in which `read_bits_big_endian` takes
them. -/
def contentBigEndian (s : InputBitStream) : List Bool :=
  (match s.nextByte with
    | some byte => (bigEndianBits byte).drop s.bitOffset
    | none => []) ++ unpackBigEndian s.stream.unread

variable {s : InputBitStream}

/-! ## The result -/

/-- A group of bits, as `read_bits_big_endian` gives it. -/
def group (l : List Bool) : BitVec 64 := BitVec.ofNat 64 (bigEndian l)

theorem toNat_group {l : List Bool} (h : l.length ≤ 64) : (group l).toNat = bigEndian l := by
  rw [group, BitVec.toNat_ofNat]
  exact Nat.mod_eq_of_lt
    (Nat.lt_of_lt_of_le (bigEndian_lt l) (Nat.pow_le_pow_right (by decide) h))

theorem group_append {l l' : List Bool} (h : l.length + l'.length ≤ 64) :
    group (l ++ l') = (group l <<< l'.length) ||| group l' := by
  have hfits : (group l).toNat * 2 ^ l'.length < 2 ^ 64 := by
    rw [toNat_group (by omega)]
    calc bigEndian l * 2 ^ l'.length < 2 ^ l.length * 2 ^ l'.length :=
          Nat.mul_lt_mul_of_pos_right (bigEndian_lt l) (Nat.two_pow_pos _)
      _ = 2 ^ (l.length + l'.length) := (Nat.pow_add 2 _ _).symm
      _ ≤ 2 ^ 64 := Nat.pow_le_pow_right (by decide) h
  have hlow : (group l').toNat < 2 ^ l'.length := by
    rw [toNat_group (by omega)]
    exact bigEndian_lt l'
  refine BitVec.eq_of_toNat_eq ?_
  have hboth : (l ++ l').length ≤ 64 := by rwa [length_append]
  have hhigh : l.length ≤ 64 := by omega
  rw [toNat_shiftLeft_or hfits hlow, toNat_group hboth, toNat_group hhigh,
    toNat_group (by omega), bigEndian_append]

theorem toNat_appendByte (byte : BitVec 8) {result : BitVec 64} {nread : Nat}
    (hresult : result.toNat < 2 ^ nread) (hnread : nread + 8 ≤ 64) :
    (appendByte byte result).toNat = result.toNat * 2 ^ 8 + bigEndian (bigEndianBits byte) := by
  have hlow : (byte.setWidth 64).toNat = byte.toNat := BitVec.toNat_setWidth_of_le (by decide)
  have hfits : result.toNat * 2 ^ 8 < 2 ^ 64 := by
    calc result.toNat * 2 ^ 8 < 2 ^ nread * 2 ^ 8 := by omega
      _ = 2 ^ (nread + 8) := (Nat.pow_add 2 nread 8).symm
      _ ≤ 2 ^ 64 := Nat.pow_le_pow_right (by decide) hnread
  rw [appendByte, toNat_shiftLeft_or hfits (by rw [hlow]; exact byte.isLt), hlow,
    bigEndian_bigEndianBits]

theorem toNat_appendBit (byte : BitVec 8) {offset nread : Nat} {result : BitVec 64}
    (hoffset : offset < 8) (hresult : result.toNat < 2 ^ nread) (hnread : nread + 1 ≤ 64) :
    (appendBit byte offset result).toNat = result.toNat * 2 + (byte.getMsbD offset).toNat := by
  have hmsb : byte.getMsbD offset = byte.getLsbD (7 - offset) := by
    rw [BitVec.getMsbD, decide_eq_true hoffset, Bool.true_and]
  have hbit := shiftedBit_eq byte (7 - offset) 0
  have hfits : result.toNat * 2 ^ 1 < 2 ^ 64 := by
    calc result.toNat * 2 ^ 1 < 2 ^ nread * 2 ^ 1 := by omega
      _ = 2 ^ (nread + 1) := (Nat.pow_add 2 nread 1).symm
      _ ≤ 2 ^ 64 := Nat.pow_le_pow_right (by decide) hnread
  have hlow : (placed (byte.getLsbD (7 - offset)) 0).toNat = (byte.getMsbD offset).toNat := by
    rw [hmsb]
    cases byte.getLsbD (7 - offset) <;> rfl
  rw [shiftedBit, BitVec.shiftLeft_zero] at hbit
  rw [appendBit, hbit, toNat_shiftLeft_or hfits, hlow, Nat.pow_one]
  rw [hlow]
  exact Nat.lt_of_le_of_lt (Bool.toNat_le _) (by decide)

/-! ## The loop -/

theorem contentBigEndian_some {byte : BitVec 8} (h : s.nextByte = some byte) : s.contentBigEndian =
      (bigEndianBits byte).drop s.bitOffset ++ unpackBigEndian s.stream.unread := by
  rw [contentBigEndian, h]

theorem contentBigEndian_none (h : s.nextByte = none) :
    s.contentBigEndian = unpackBigEndian s.stream.unread := by
  rw [contentBigEndian, h, nil_append]

theorem nextByteFromStream_bigEndian (h : s.Ready) (hnone : s.nextByte = none)
    (hcontent : s.contentBigEndian ≠ []) : s.nextByteFromStream.Ready ∧
      s.nextByteFromStream.contentBigEndian = s.contentBigEndian := by
  rw [contentBigEndian_none hnone] at hcontent ⊢
  rw [nextByteFromStream]
  cases hunread : s.stream.unread with
  | nil => exact absurd (by rw [hunread]; rfl) hcontent
  | cons byte unread => exact ⟨⟨h.noError, fun _ => by simp⟩, rfl⟩

theorem clearNextByte_bigEndian {byte : BitVec 8} (h : s.Ready) (hbyte : s.nextByte = some byte)
    (hoffset : s.bitOffset = 0) : s.clearNextByte.Ready ∧
      s.contentBigEndian = bigEndianBits byte ++ s.clearNextByte.contentBigEndian := by
  refine ⟨⟨h.noError, fun hsome => absurd rfl hsome⟩, ?_⟩
  rw [contentBigEndian_some hbyte, hoffset, drop_zero, @contentBigEndian_none s.clearNextByte rfl]
  rfl

theorem advance_bigEndian {byte : BitVec 8} (h : s.Ready) (hbyte : s.nextByte = some byte) :
    (s.advance byte).Ready ∧
      s.contentBigEndian = byte.getMsbD s.bitOffset :: (s.advance byte).contentBigEndian := by
  have hoffset := h.offset (by simp [hbyte])
  refine ⟨(advance_spec h hbyte).1, ?_⟩
  rw [contentBigEndian_some hbyte, drop_bigEndianBits byte hoffset, List.cons_append]
  congr 1
  by_cases hlast : s.bitOffset = 7
  · rw [@contentBigEndian_none (s.advance byte) (if_pos hlast), hlast,
      drop_eq_nil_of_le (Nat.le_of_eq (length_bigEndianBits byte)), nil_append]
    rfl
  · rw [@contentBigEndian_some (s.advance byte) byte (if_neg hlast)]
    rfl

/-- The loop takes as many bits as it needs, when the stream has them. -/
theorem readLoopBigEndian_spec {taken rest : List Bool} {count nread : Nat} {result : BitVec 64}
    (h : s.Ready) (hcontent : s.contentBigEndian = taken ++ rest)
    (hlength : nread + taken.length = count) (hcount : count ≤ 64)
    (hresult : result.toNat < 2 ^ nread) :
    ∃ value s', readLoopBigEndian count nread result s = (value, s') ∧
      value.toNat = result.toNat * 2 ^ taken.length + bigEndian taken ∧ s'.Ready ∧
      s'.contentBigEndian = rest := by
  fun_induction readLoopBigEndian count nread result s generalizing taken with
  | case1 n result s hlt herror =>
    rw [h.noError] at herror
    cases herror
  | case2 n result s hlt hne byte hbyte hwhole ih =>
    obtain ⟨hready, hsplit⟩ := clearNextByte_bigEndian h hbyte hwhole.2
    have hsum := toNat_appendByte byte hresult (by omega)
    have hbits : taken = bigEndianBits byte ++ taken.drop 8 := by
      have htake := congrArg (List.take 8) (hsplit.symm.trans hcontent)
      rw [take_append_of_le_length (by rw [length_bigEndianBits]),
        take_of_length_le (by rw [length_bigEndianBits]),
        take_append_of_le_length (by omega)] at htake
      rw [htake, take_append_drop]
    have hlow := bigEndian_lt (bigEndianBits byte)
    rw [length_bigEndianBits] at hlow
    have hleft : 8 + (taken.drop 8).length = taken.length := by
      rw [length_drop]
      omega
    have hbig : bigEndian taken =
        bigEndian (bigEndianBits byte) * 2 ^ (taken.drop 8).length + bigEndian (taken.drop 8) := by
      rw [← bigEndian_append, ← hbits]
    rw [hsplit, hbits, List.append_assoc] at hcontent
    obtain ⟨value, s', hs', hvalue, hready', hrest⟩ := ih hready
      (append_cancel_left hcontent) (by omega) (by rw [hsum, Nat.pow_add]; omega)
    refine ⟨value, s', hs', ?_, hready', hrest⟩
    rw [hvalue, hsum, hbig, ← hleft, Nat.pow_add, Nat.add_mul, Nat.mul_assoc, Nat.add_assoc]
  | case3 n result s hlt hne byte hbyte hwhole ih =>
    have hoffset := h.offset (by simp [hbyte])
    cases taken with
    | nil =>
      simp only [length_nil] at hlength
      omega
    | cons b taken =>
      obtain ⟨hready, hcons⟩ := advance_bigEndian h hbyte
      rw [hcons] at hcontent
      obtain ⟨rfl, hrest⟩ := List.cons.inj hcontent
      have hsum := toNat_appendBit byte hoffset hresult (by omega)
      have hbit := Bool.toNat_le (byte.getMsbD s.bitOffset)
      rw [length_cons] at hlength
      obtain ⟨value, s', hs', hvalue, hready', hrest'⟩ := ih hready hrest (by omega)
        (by rw [hsum, Nat.pow_succ]; omega)
      refine ⟨value, s', hs', ?_, hready', hrest'⟩
      rw [hvalue, hsum, bigEndian_cons, length_cons, Nat.pow_succ, Nat.add_mul,
        Nat.mul_assoc, Nat.mul_comm 2 (2 ^ taken.length), Nat.add_assoc]
  | case4 n result s hlt hne hnone ih =>
    have hne : s.contentBigEndian ≠ [] := by
      rw [hcontent]
      intro hnil
      rw [(append_eq_nil_iff.mp hnil).1, length_nil] at hlength
      omega
    obtain ⟨hready, hsame⟩ := nextByteFromStream_bigEndian h hnone hne
    exact ih hready (hsame.trans hcontent) hlength hresult
  | case5 n result s hge =>
    obtain rfl : taken = [] := length_eq_zero_iff.mp (by omega)
    exact ⟨result, s, rfl, by simp, h, hcontent⟩

theorem readBitsBigEndian_spec {taken rest : List Bool} (h : s.Ready)
    (hcontent : s.contentBigEndian = taken ++ rest) (hcount : taken.length ≤ 64) :
    ∃ s', readBitsBigEndian taken.length s = (group taken, s') ∧ s'.Ready ∧
      s'.contentBigEndian = rest := by
  obtain ⟨value, s', hs', hvalue, hready, hrest⟩ :=
    @readLoopBigEndian_spec s taken rest taken.length 0 0 h hcontent (Nat.zero_add _) hcount
      (by decide)
  have hzero : (0 : BitVec 64).toNat = 0 := rfl
  have hword : value = group taken := by
    refine BitVec.eq_of_toNat_eq ?_
    rw [hvalue, hzero, Nat.zero_mul, Nat.zero_add, toNat_group hcount]
  exact ⟨s', by rw [readBitsBigEndian, hs', hword], hready, hrest⟩

/-! ## Every sequence of reads -/

/-- The results are the consecutive groups of what has not been read. -/
theorem readAllBigEndian_spec {counts : List Nat} (h : s.Ready)
    (hcounts : ∀ count ∈ counts, count ≤ 64) (henough : counts.sum ≤ s.contentBigEndian.length) :
    readAllBigEndian counts s = (counts.splitLengths s.contentBigEndian).map group := by
  induction counts generalizing s with
  | nil => rfl
  | cons count counts ih =>
    rw [sum_cons] at henough
    have htake : (s.contentBigEndian.take count).length = count := by
      rw [List.length_take]
      omega
    obtain ⟨s', hs', hready, hrest⟩ := readBitsBigEndian_spec h
      (take_append_drop count s.contentBigEndian).symm
      (by rw [htake]; exact hcounts count mem_cons_self)
    rw [htake] at hs'
    rw [readAllBigEndian, hs', splitLengths_cons, map_cons, ← hrest]
    refine congrArg (List.cons _) (ih hready (fun c hc => hcounts c (mem_cons_of_mem _ hc)) ?_)
    rw [hrest, length_drop]
    omega

theorem new_ready (bytes : List (BitVec 8)) : (new ⟨bytes, false⟩).Ready :=
  ⟨rfl, fun hbyte => absurd rfl hbyte⟩

/-- Reading any counts of at most 64 bits gives the consecutive groups of the bits of the
stream, the highest bit of a byte first; and two reads next to each other can be made one. -/
theorem readAllBigEndian_groups (bytes : List (BitVec 8)) (counts : List Nat)
    (hcounts : ∀ count ∈ counts, count ≤ 64) (henough : counts.sum ≤ 8 * bytes.length) :
    (readAllBigEndian counts (new ⟨bytes, false⟩)).map BitVec.toNat =
        (counts.splitLengths (unpackBigEndian bytes)).map bigEndian ∧
      ∀ (earlier : List Nat) (a b : Nat) (later : List Nat),
        counts = earlier ++ a :: b :: later → a + b ≤ 64 →
          ∃ (before : List (BitVec 64)) (high low : BitVec 64) (after : List (BitVec 64)),
            before.length = earlier.length ∧
            readAllBigEndian counts (new ⟨bytes, false⟩) = before ++ high :: low :: after ∧
            readAllBigEndian (earlier ++ (a + b) :: later) (new ⟨bytes, false⟩) =
              before ++ ((high <<< b) ||| low) :: after := by
  have hcontent : (new ⟨bytes, false⟩).contentBigEndian = unpackBigEndian bytes :=
    contentBigEndian_none rfl
  have hall : ∀ {counts : List Nat}, (∀ count ∈ counts, count ≤ 64) →
      counts.sum ≤ 8 * bytes.length →
      readAllBigEndian counts (new ⟨bytes, false⟩) =
        (counts.splitLengths (unpackBigEndian bytes)).map group := by
    intro counts hcounts henough
    rw [readAllBigEndian_spec (new_ready bytes) hcounts, hcontent]
    rwa [hcontent, length_unpackBigEndian]
  constructor
  · rw [hall hcounts henough, List.map_map]
    refine map_congr_left fun l hl => toNat_group ?_
    have hlength := List.mem_map_of_mem (f := List.length) hl
    rw [map_splitLengths_length _ _ (by rwa [length_unpackBigEndian])] at hlength
    exact hcounts l.length hlength
  · rintro earlier a b later rfl hab
    have hsum : (earlier ++ a :: b :: later).sum = (earlier ++ (a + b) :: later).sum := by
      simp only [List.sum_append, sum_cons, Nat.add_assoc]
    have hmerged : ∀ count ∈ earlier ++ (a + b) :: later, count ≤ 64 := by
      intro count hcount
      rcases mem_append.mp hcount with hearlier | hlater
      · exact hcounts count (mem_append_left _ hearlier)
      · rcases mem_cons.mp hlater with rfl | hlater
        · exact hab
        · exact hcounts count (by simp [hlater])
    have hleft : ((unpackBigEndian bytes).drop (earlier.sum + a)).length ≥ b := by
      simp only [List.sum_append, sum_cons] at henough
      rw [length_drop, length_unpackBigEndian]
      omega
    simp only [hall hcounts henough, hall hmerged (hsum ▸ henough), splitLengths_append, map_append]
    simp only [splitLengths_cons, map_cons, drop_drop]
    refine ⟨_, _, _, _, ?_, rfl, ?_⟩
    · rw [length_map, length_splitLengths]
    · have htake : (((unpackBigEndian bytes).drop (earlier.sum + a)).take b).length = b := by
        rw [List.length_take]
        omega
      rw [take_add, group_append, drop_drop, htake, Nat.add_assoc]
      rw [drop_drop, htake, List.length_take]
      omega

theorem readAllBigEndian_groups_sample :
    (readAllBigEndian [3, 8, 13] (new ⟨[0xA5, 0x0F, 0x81], false⟩)).map BitVec.toNat =
      ([3, 8, 13].splitLengths (unpackBigEndian [0xA5, 0x0F, 0x81])).map bigEndian :=
  (readAllBigEndian_groups [0xA5, 0x0F, 0x81] [3, 8, 13] (by decide) (by decide)).1

end InputBitStream

end Literate.AK

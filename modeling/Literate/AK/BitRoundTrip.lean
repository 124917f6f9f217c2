import Literate.AK.BitPacking

/-!
# AK: reading back what was written

`read_bits` puts the bits that it takes from the stream together again.  Every bit is an
`int` when it is shifted into place, so a set bit 31 becomes a negative number and fills
the upper half of the result.
-/

namespace Literate.AK

open Foundation List BitVec

namespace InputBitStream

/-- The bits that have not been read. -/
def content (s : InputBitStream) : List Bool :=
  (match s.nextByte with
    | some byte => slice byte s.bitOffset (8 - s.bitOffset)
    | none => []) ++ unpack s.stream.unread

/-- The stream has no error, and a byte is only held when it has a bit left. -/
structure Ready (s : InputBitStream) : Prop where
  noError : s.stream.anyError = false
  offset : s.nextByte ≠ none → s.bitOffset < 8

variable {s : InputBitStream}

/-- What a bit adds to the result of `read_bits` at position `n`. -/
def placed (b : Bool) (n : Nat) : BitVec 64 :=
  ((BitVec.ofBool b).setWidth 32 <<< n).signExtend 64

/-- What `read_bits` makes of the given bits from position `n` on. -/
def assemble (n : Nat) : List Bool → BitVec 64
  | [] => 0
  | b :: l => placed b n ||| assemble (n + 1) l

theorem shiftedBit_eq (byte : BitVec 8) (offset n : Nat) :
    shiftedBit byte offset n = placed (byte.getLsbD offset) n := by
  have hbit : ((byte.setWidth 32 >>> offset) &&& 1#32) =
      (BitVec.ofBool (byte.getLsbD offset)).setWidth 32 := by
    refine eq_of_getLsbD_eq fun i hi => ?_
    rw [OutputBitStream.getLsbD_shift_and_one _ _ _ (by decide), getLsbD_setWidth,
      getLsbD_setWidth, getLsbD_ofBool]
    by_cases hlt : offset < 32
    · simp [hlt, hi]
    · have hzero : byte.getLsbD offset = false := getLsbD_of_ge byte offset (by omega)
      simp [hlt, hzero]
  rw [shiftedBit, placed, hbit]

/-- Bits up to 30 stay where they are; bit 31 is the sign of an `int`. -/
theorem getLsbD_placed (b : Bool) {n j : Nat} (hn : n < 32) (hj : j < 64) :
    (placed b n).getLsbD j = true ↔ b = true ∧ (j = n ∨ n = 31 ∧ 31 ≤ j) := by
  have hbit : ∀ k < 32,
      ((BitVec.ofBool b).setWidth 32 <<< n).getLsbD k = (b && decide (k = n)) := by
    intro k hk
    rw [getLsbD_shiftLeft, getLsbD_setWidth, getLsbD_ofBool]
    by_cases heq : k = n
    · subst heq
      simp [hk]
    · by_cases hlt : k < n
      · simp [heq, hlt]
      · have hne : k - n ≠ 0 := by omega
        simp [heq, hne]
  rw [placed, getLsbD_signExtend, msb_eq_getLsbD_last]
  by_cases hlow : j < 32
  · rw [if_pos hlow, hbit j hlow]
    have hsign : n = 31 ∧ 31 ≤ j → j = n := by omega
    simp only [hj, decide_true, Bool.true_and, Bool.and_eq_true, decide_eq_true_eq]
    exact and_congr_right fun _ => ⟨.inl, fun h => h.elim id hsign⟩
  · rw [if_neg hlow, hbit 31 (by decide)]
    have hsign : 31 = n ↔ j = n ∨ n = 31 ∧ 31 ≤ j := by omega
    simp only [hj, decide_true, Bool.true_and, Bool.and_eq_true, decide_eq_true_eq]
    exact and_congr_right fun _ => hsign

/-- The bits of a word, put together again from position `n` on. -/
theorem getLsbD_assemble {w : Nat} (word : BitVec w) {n m j : Nat} (hcount : n + m ≤ 32)
    (hj : j < 64) : (assemble n (slice word n m)).getLsbD j = true ↔
      (n ≤ j ∧ j < n + m ∧ word.getLsbD j = true) ∨
        (n + m = 32 ∧ 0 < m ∧ 31 ≤ j ∧ word.getLsbD 31 = true) := by
  induction m generalizing n with
  | zero =>
    have hempty : ¬ (n ≤ j ∧ j < n) := by omega
    have hzero : (0#64).getLsbD j = false := getLsbD_zero
    simp only [slice_zero, assemble, Nat.add_zero]
    grind
  | succ m ih =>
    rw [slice_cons, assemble, getLsbD_or, Bool.or_eq_true,
      getLsbD_placed _ (by omega) hj, ih (by omega)]
    clear ih
    by_cases hlast : n = 31
    · obtain rfl : m = 0 := by omega
      subst hlast
      by_cases heq : j = 31
      · subst heq
        simp
      · grind
    · by_cases heq : j = n
      · subst heq
        grind
      · grind

/-- `read_bits` gives the word back, unless it takes 32 bits and the last is set. -/
theorem assemble_eq_iff (word : BitVec 32) {count : Nat} (hcount : count ≤ 32)
    (hword : word.toNat < 2 ^ count) : assemble 0 (slice word 0 count) = word.setWidth 64 ↔
      (count = 32 → word.getLsbD 31 = false) := by
  have hhigh : ∀ j, count ≤ j → word.getLsbD j = false := fun j hj =>
    Nat.testBit_lt_two_pow (Nat.lt_of_lt_of_le hword (Nat.pow_le_pow_right (by decide) hj))
  constructor
  · intro h hfull
    have hbit := congrArg (fun x : BitVec 64 => x.getLsbD 32) h
    by_contra htrue
    have hset := (@getLsbD_assemble 32 word 0 count 32 (by omega) (by decide)).mpr
      (.inr ⟨by omega, by omega, by decide, by simpa using htrue⟩)
    simp only [hset] at hbit
    simp at hbit
  · intro h
    refine eq_of_getLsbD_eq fun j hj => Bool.eq_iff_iff.mpr ?_
    rw [getLsbD_assemble word (by omega) hj, getLsbD_setWidth]
    have hbelow : word.getLsbD j = true → j < count := fun htrue => by
      by_contra hge
      rw [hhigh j (by omega)] at htrue
      cases htrue
    simp only [Nat.zero_le, true_and, Nat.zero_add, hj, decide_true, Bool.true_and]
    constructor
    · rintro (⟨-, htrue⟩ | ⟨hfull, -, -, htrue⟩)
      · exact htrue
      · rw [h hfull] at htrue
        cases htrue
    · exact fun htrue => .inl ⟨hbelow htrue, htrue⟩

/-! ## The loop -/

theorem content_some {byte : BitVec 8} (h : s.nextByte = some byte) :
    s.content = slice byte s.bitOffset (8 - s.bitOffset) ++ unpack s.stream.unread := by
  rw [content, h]

theorem content_none (h : s.nextByte = none) : s.content = unpack s.stream.unread := by
  rw [content, h, nil_append]

theorem nextByteFromStream_spec (h : s.Ready) (hnone : s.nextByte = none)
    (hcontent : s.content ≠ []) :
    s.nextByteFromStream.Ready ∧ s.nextByteFromStream.content = s.content := by
  rw [content_none hnone] at hcontent ⊢
  rw [nextByteFromStream]
  cases hunread : s.stream.unread with
  | nil => exact absurd (by rw [hunread]; rfl) hcontent
  | cons byte unread => exact ⟨⟨h.noError, fun _ => by simp⟩, rfl⟩

theorem advance_spec {byte : BitVec 8} (h : s.Ready) (hbyte : s.nextByte = some byte) :
    (s.advance byte).Ready ∧
      s.content = byte.getLsbD s.bitOffset :: (s.advance byte).content := by
  have hoffset := h.offset (by simp [hbyte])
  have hsplit : slice byte s.bitOffset (8 - s.bitOffset) =
      byte.getLsbD s.bitOffset :: slice byte (s.bitOffset + 1) (7 - s.bitOffset) := by
    rw [← slice_cons]
    congr 1
    omega
  rw [content_some hbyte, hsplit]
  by_cases hlast : s.bitOffset = 7
  · refine ⟨⟨h.noError, fun hsome => absurd (if_pos hlast) hsome⟩, ?_⟩
    rw [@content_none (s.advance byte) (if_pos hlast), hlast]
    rfl
  · refine ⟨⟨h.noError, fun _ => ?_⟩, ?_⟩
    · simp only [advance]
      omega
    · rw [@content_some (s.advance byte) byte (if_neg hlast)]
      have hleft : 7 - s.bitOffset = 8 - (s.bitOffset + 1) := by omega
      rw [hleft]
      rfl

/-- The loop takes as many bits as it needs, when the stream has them. -/
theorem readLoop_spec {taken rest : List Bool} {count nread : Nat} {result : BitVec 64}
    (h : s.Ready) (hcontent : s.content = taken ++ rest) (hlength : nread + taken.length = count) :
    ∃ s', readLoop count nread result s = (result ||| assemble nread taken, s') ∧ s'.Ready ∧
      s'.content = rest := by
  fun_induction readLoop count nread result s generalizing taken with
  | case1 n result s hlt herror =>
    rw [h.noError] at herror
    cases herror
  | case2 n result s hlt hne byte hbyte ih =>
    have hoffset := h.offset (by simp [hbyte])
    cases taken with
    | nil =>
      simp only [length_nil] at hlength
      omega
    | cons b taken =>
      obtain ⟨hready, hcons⟩ := advance_spec h hbyte
      rw [hcons] at hcontent
      obtain ⟨rfl, hrest⟩ := List.cons.inj hcontent
      obtain ⟨s', hs', hready', hrest'⟩ := ih hready hrest
        (by simp only [length_cons] at hlength; omega)
      exact ⟨s', by rw [hs', shiftedBit_eq, assemble, BitVec.or_assoc], hready', hrest'⟩
  | case3 n result s hlt hne hnone ih =>
    have hne : s.content ≠ [] := by
      rw [hcontent]
      intro hnil
      rw [(append_eq_nil_iff.mp hnil).1] at hlength
      simp only [length_nil] at hlength
      omega
    obtain ⟨hready, hsame⟩ := nextByteFromStream_spec h hnone hne
    exact ih hready (hsame.trans hcontent) hlength
  | case4 n result s hge =>
    have hnil : taken = [] := length_eq_zero_iff.mp (by omega)
    subst hnil
    refine ⟨s, ?_, h, hcontent⟩
    simp [assemble]

theorem readBits_spec {taken rest : List Bool} (h : s.Ready) (hcontent : s.content = taken ++ rest) :
    ∃ s', readBits taken.length s = (assemble 0 taken, s') ∧ s'.Ready ∧ s'.content = rest := by
  obtain ⟨s', hs', hready, hrest⟩ := @readLoop_spec s taken rest taken.length 0 0 h hcontent
    (Nat.zero_add _)
  exact ⟨s', by rw [readBits, hs']; simp, hready, hrest⟩

/-- `read_bits` with each of the counts in turn. -/
def readAll : List Nat → InputBitStream → List (BitVec 64)
  | [], _ => []
  | count :: counts, s => (readBits count s).1 :: readAll counts (readBits count s).2

end InputBitStream

/-! ## The round trip -/

/-- The values that `read_bits` gives back for pairs of a value and a count: they are
written, the output is aligned, and its bytes are read. -/
def roundTrip (pairs : List (BitVec 32 × Nat)) : Option (List (BitVec 64)) :=
  (pairs.foldlM (fun s pair => OutputBitStream.writeBits pair.1 pair.2 s)
      (OutputBitStream.new ⟨[], false⟩)).map fun s =>
    InputBitStream.readAll (pairs.map Prod.snd)
      (InputBitStream.new ⟨s.alignToByteBoundary.stream.bytes, false⟩)

variable {pairs : List (BitVec 32 × Nat)}

theorem foldlM_writeBits_spec {s : OutputBitStream}
    (hpairs : ∀ pair ∈ pairs, pair.2 ≤ 32) (h : s.Whole) :
    ∃ s', pairs.foldlM (fun s pair => OutputBitStream.writeBits pair.1 pair.2 s) s = some s' ∧
      s'.Whole ∧ s'.content = s.content ++ pairs.flatMap fun pair => slice pair.1 0 pair.2 := by
  induction pairs generalizing s with
  | nil => exact ⟨s, rfl, h, (append_nil _).symm⟩
  | cons pair pairs ih =>
    obtain ⟨s₁, hs₁, hwhole, hcontent⟩ :=
      OutputBitStream.writeBits_spec pair.1 (hpairs pair mem_cons_self) h
    obtain ⟨s', hs', hwhole', hcontent'⟩ :=
      ih (fun p hp => hpairs p (mem_cons_of_mem _ hp)) hwhole
    refine ⟨s', by rw [foldlM_cons, hs₁]; exact hs', hwhole', ?_⟩
    rw [hcontent', hcontent, flatMap_cons, List.append_assoc]

theorem readAll_spec {s : InputBitStream} {rest : List Bool} (h : s.Ready)
    (hcontent : s.content = (pairs.flatMap fun pair => slice pair.1 0 pair.2) ++ rest) :
    InputBitStream.readAll (pairs.map Prod.snd) s =
      pairs.map fun pair => InputBitStream.assemble 0 (slice pair.1 0 pair.2) := by
  induction pairs generalizing s with
  | nil => rfl
  | cons pair pairs ih =>
    rw [flatMap_cons, List.append_assoc] at hcontent
    obtain ⟨s', hs', hready, hrest⟩ := InputBitStream.readBits_spec h hcontent
    rw [length_slice] at hs'
    simp only [map_cons, InputBitStream.readAll, hs', ih hready hrest]

theorem roundTrip_eq (hpairs : ∀ pair ∈ pairs, pair.2 ≤ 32) : roundTrip pairs =
      some (pairs.map fun pair => InputBitStream.assemble 0 (slice pair.1 0 pair.2)) := by
  have hnew := @OutputBitStream.new_whole ⟨[], false⟩ rfl
  obtain ⟨s, hs, hwhole, hcontent⟩ := foldlM_writeBits_spec hpairs hnew
  obtain ⟨-, hnone, halign⟩ := OutputBitStream.alignToByteBoundary_spec hwhole
  have hbytes : unpack s.alignToByteBoundary.stream.bytes =
      (pairs.flatMap fun pair => slice pair.1 0 pair.2) ++
        List.replicate ((8 - s.content.length % 8) % 8) false := by
    rw [← OutputBitStream.content_none hnone, halign, OutputBitStream.padded]
    congr 1
  have hready : (InputBitStream.new ⟨s.alignToByteBoundary.stream.bytes, false⟩).Ready :=
    ⟨rfl, fun hbyte => absurd rfl hbyte⟩
  have hread := readAll_spec hready ((InputBitStream.content_none rfl).trans hbytes)
  rw [roundTrip, hs, Option.map_some, hread]

/-- The values come back, in order, exactly when none of them takes 32 bits and has the
last of them set. -/
theorem roundTrip_iff (pairs : List (BitVec 32 × Nat))
    (hpairs : ∀ pair ∈ pairs, pair.2 ≤ 32 ∧ pair.1.toNat < 2 ^ pair.2) :
    roundTrip pairs = some (pairs.map fun pair => pair.1.setWidth 64) ↔
      ∀ pair ∈ pairs, pair.2 = 32 → pair.1.toNat < 2 ^ 31 := by
  have hbit : ∀ word : BitVec 32, word.getLsbD 31 = false ↔ word.toNat < 2 ^ 31 := by
    intro word
    have hmsb : word.msb = word.getLsbD 31 := msb_eq_getLsbD_last word
    rw [← hmsb, msb_eq_decide, decide_eq_false_iff_not, Nat.not_le]
  rw [roundTrip_eq fun pair hpair => (hpairs pair hpair).1, Option.some.injEq, map_inj_left]
  refine forall₂_congr fun pair hpair => ?_
  rw [InputBitStream.assemble_eq_iff pair.1 (hpairs pair hpair).1 (hpairs pair hpair).2, hbit]

theorem roundTrip_iff_sample : roundTrip [(5, 3), (0x7FFFFFFF, 32)] = some [5, 0x7FFFFFFF] := by
  have h := (roundTrip_iff [(5, 3), (0x7FFFFFFF, 32)] (by decide)).mpr (by decide)
  exact h

/-- A 32-bit value with its last bit set comes back with its upper half filled. -/
theorem not_roundTrip_signBit : roundTrip [(0x80000000, 32)] = some [0xFFFFFFFF80000000] ∧
      roundTrip [(0x80000000, 32)] ≠ some [(0x80000000 : BitVec 32).setWidth 64] := by
  have h := @roundTrip_eq [(0x80000000, 32)] (by decide)
  rw [h]
  decide

end Literate.AK

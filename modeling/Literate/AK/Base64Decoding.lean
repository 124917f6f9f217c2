import Literate.AK.Base64

/-!
# AK: what Base64 decoding accepts

`decode_base64` skips whitespace and goes by groups of four characters.  Padding is told apart
from the alphabet for each character of a group alone, and characters that are not there count
as zero.  So a text is decoded when no character of it is wrong at its place in the group, and
that is more than padded Base64.
-/

namespace Literate.AK.Base64

open List

/-- A text without its whitespace. -/
def withoutSpaces (input : List UInt8) : List UInt8 := input.filter fun c => !isAsciiSpace c

/-- Padded Base64: whole groups of the alphabet, up to two of the last characters padding. -/
def IsPadded (text : List UInt8) : Prop :=
  text.length % 4 = 0 ∧ ∃ body count, text = body ++ List.replicate count (byte '=') ∧ count ≤ 2 ∧
    ∀ c ∈ body, c ∈ alphabet

/-- A character of the alphabet, or padding where it may stand. -/
def IsReadable (mayPad : Bool) (c : UInt8) : Prop := c ∈ alphabet ∨ (mayPad = true ∧ c = byte '=')

/-- No character is wrong at its place in a group: padding is the third or the fourth one. -/
def IsReadableText (text : List UInt8) : Prop :=
  ∀ i c, text[i]? = some c → IsReadable (decide (2 ≤ i % 4)) c

/-- The value of a character of the alphabet. -/
def sextet (c : UInt8) : Nat := (alphabetLookupTable.getD c.toNat (-1)).toNat

/-- A character without those low bits of its value that are below `unit`. -/
def withoutLowBits (unit : Nat) (c : UInt8) : UInt8 := alphabetAt (sextet c / unit * unit)

/-- The low bits that the last group has no use for are cleared. -/
def clearUnused : List UInt8 → List UInt8
  | [a, b, c, d] =>
    if c = byte '=' then [a, withoutLowBits 16 b, c, d]
    else if d = byte '=' then [a, b, withoutLowBits 4 c, d]
    else [a, b, c, d]
  | a :: b :: c :: d :: rest => a :: b :: c :: d :: clearUnused rest
  | text => text

/-! ## Characters -/

set_option maxRecDepth 8192 in
/-- The characters of the alphabet are those of the sixty-four values. -/
theorem sextet_spec {c : UInt8} (h : c ∈ alphabet) : sextet c < 64 ∧ alphabetAt (sextet c) = c := by
  revert c
  decide

/-- Only the entries of the characters of the alphabet are filled in. -/
theorem getD_fillTable_of_notMem {c : UInt8} {chars : List UInt8} (h : c ∉ chars) (i : Nat)
    (table : List Int) : (fillTable chars i table).getD c.toNat (-1) = table.getD c.toNat (-1) := by
  induction chars generalizing i table with
  | nil => rfl
  | cons ch rest ih =>
    have hne : ch.toNat ≠ c.toNat := fun heq => h (UInt8.toNat_inj.mp heq ▸ mem_cons_self)
    rw [fillTable, ih fun hmem => h (mem_cons_of_mem ch hmem), getD_eq_getElem?_getD,
      List.getElem?_set_ne hne, ← getD_eq_getElem?_getD]

theorem lookup_neg_of_notMem {c : UInt8} (h : c ∉ alphabet) :
    alphabetLookupTable.getD c.toNat (-1) < 0 := by
  rw [alphabetLookupTable, getD_fillTable_of_notMem h, getD_replicate _ c.toNat_lt]
  decide

theorem padding_notMem : byte '=' ∉ alphabet := by decide

/-! ## Whitespace -/

/-- What is read, with the whitespace after it left out. -/
def Got.stripped (got : Got) : Got := { got with rest := withoutSpaces got.rest }

def Group.stripped (group : Group) : Group := { group with rest := withoutSpaces group.rest }

theorem withoutSpaces_dropWhile (input : List UInt8) :
    withoutSpaces (input.dropWhile isAsciiSpace) = withoutSpaces input := by
  induction input with
  | nil => rfl
  | cons c input ih =>
    cases hc : isAsciiSpace c with
    | true =>
      rw [dropWhile_cons_of_pos hc, ih, withoutSpaces, withoutSpaces,
        filter_cons_of_neg (by rw [hc]; decide)]
    | false => rw [dropWhile_cons_of_neg (by rw [hc]; decide)]

theorem dropWhile_withoutSpaces (input : List UInt8) :
    (withoutSpaces input).dropWhile isAsciiSpace = withoutSpaces input := by
  cases htext : withoutSpaces input with
  | nil => rfl
  | cons c rest =>
    have hmem : c ∈ withoutSpaces input := htext ▸ mem_cons_self
    have hspace := (mem_filter.mp hmem).2
    exact dropWhile_cons_of_neg (by rw [Bool.not_eq_true'] at hspace; rw [hspace]; decide)

/-- The first character that is no whitespace comes first when there is none. -/
theorem getValue_withoutSpaces (mayPad : Bool) (input : List UInt8) :
    getValue mayPad (withoutSpaces input) = (getValue mayPad input).map Got.stripped := by
  simp only [getValue, dropWhile_withoutSpaces, ← withoutSpaces_dropWhile input]
  cases hskip : input.dropWhile isAsciiSpace with
  | nil => rfl
  | cons ch rest =>
    have hch : isAsciiSpace ch = false := by
      have hhead := head_dropWhile_not isAsciiSpace (by rw [hskip]; exact cons_ne_nil _ _)
      simpa only [hskip, head_cons] using hhead
    rw [withoutSpaces, filter_cons_of_pos (by rw [hch]; rfl)]
    dsimp only
    split_ifs <;> rfl

theorem decodeGroup_withoutSpaces (input : List UInt8) :
    decodeGroup (withoutSpaces input) = (decodeGroup input).map Group.stripped := by
  unfold decodeGroup
  simp only [bind, Except.bind, pure, Except.pure, getValue_withoutSpaces]
  cases getValue false input with
  | error e => rfl
  | ok in0 =>
    simp only [Except.map, Got.stripped, getValue_withoutSpaces]
    cases getValue false in0.rest with
    | error e => rfl
    | ok in1 =>
      simp only [Except.map, Got.stripped, getValue_withoutSpaces]
      cases getValue true in1.rest with
      | error e => rfl
      | ok in2 =>
        simp only [Except.map, Got.stripped, getValue_withoutSpaces]
        cases getValue true in2.rest with
        | error e => rfl
        | ok in3 => rfl

/-! ## The loop -/

variable {input : List UInt8}

theorem decodeLoop_of_error {e : String} (h : decodeGroup input = .error e) (output : List UInt8) :
    decodeLoop input output = .error e := by
  have hne : input ≠ [] := by
    rintro rfl
    cases h
  rw [decodeLoop, if_neg hne]
  split
  · next herror =>
    rw [h] at herror
    cases herror
    rfl
  · next hok =>
    rw [h] at hok
    cases hok

theorem decodeLoop_of_ok {group : Group} (h : decodeGroup input = .ok group) (output : List UInt8) :
    decodeLoop input output =
      if group.parsedSomething then decodeLoop group.rest (output ++ group.bytes) else .ok output := by
  by_cases hnil : input = []
  · subst hnil
    cases h
    rw [decodeLoop, if_pos rfl]
    rfl
  · rw [decodeLoop, if_neg hnil]
    split
    · next herror =>
      rw [h] at herror
      cases herror
    · next hok =>
      rw [h] at hok
      cases hok
      rfl

theorem decodeLoop_withoutSpaces (input output : List UInt8) :
    decodeLoop (withoutSpaces input) output = decodeLoop input output := by
  induction hlength : input.length using Nat.strongRecOn generalizing input output with
  | ind n ih =>
    have hstripped := decodeGroup_withoutSpaces input
    cases hgroup : decodeGroup input with
    | error e =>
      rw [hgroup] at hstripped
      rw [decodeLoop_of_error hstripped, decodeLoop_of_error hgroup]
    | ok group =>
      rw [hgroup] at hstripped
      rw [decodeLoop_of_ok hstripped, decodeLoop_of_ok hgroup]
      by_cases hparsed : group.parsedSomething = true
      · rw [if_pos (show group.stripped.parsedSomething = true from hparsed), if_pos hparsed]
        exact ih _ (hlength ▸ length_decodeGroup hgroup hparsed) _ _ rfl
      · rw [if_neg (show ¬ group.stripped.parsedSomething = true from hparsed), if_neg hparsed]

/-! ## Groups -/

variable {text : List UInt8} {c : UInt8} {mayPad : Bool}

theorem getValue_of_mem (h : c ∈ alphabet) (mayPad : Bool) (rest : List UInt8) :
    getValue mayPad (c :: rest) = .ok ⟨UInt8.ofNat (sextet c), false, true, rest⟩ := by
  obtain ⟨hlt, hc⟩ := sextet_spec h
  have hget := getValue_alphabetAt hlt mayPad rest
  rwa [hc] at hget

theorem getValue_of_not_isReadable (hspace : isAsciiSpace c = false) (h : ¬ IsReadable mayPad c)
    (rest : List UInt8) : ∃ e, getValue mayPad (c :: rest) = .error e := by
  obtain ⟨hmem, hpadding⟩ := not_or.mp h
  rw [getValue, dropWhile_cons_of_neg (by rw [hspace]; decide)]
  dsimp only
  by_cases hc : c = byte '='
  · have hmayPad : mayPad = false := Bool.eq_false_iff.mpr fun htrue => hpadding ⟨htrue, hc⟩
    rw [if_pos hc, hmayPad]
    exact ⟨_, rfl⟩
  · rw [if_neg hc, if_pos (lookup_neg_of_notMem hmem)]
    exact ⟨_, rfl⟩

/-- A read goes over the next character, if there is one and it may stand there. -/
theorem getValue_drop {k : Nat} (h : ∀ c, text[k]? = some c → IsReadable mayPad c) :
    ∃ got, getValue mayPad (text.drop k) = .ok got ∧ got.rest = text.drop (k + 1) ∧
      got.parsedSomething = decide (k < text.length) := by
  by_cases hk : k < text.length
  · rw [drop_eq_getElem_cons hk, decide_eq_true hk]
    rcases h text[k] (List.getElem?_eq_getElem hk) with hmem | ⟨rfl, hpadding⟩
    · exact ⟨_, getValue_of_mem hmem mayPad _, rfl, rfl⟩
    · rw [hpadding]
      exact ⟨_, getValue_padding _, rfl, rfl⟩
  · rw [drop_of_length_le (Nat.not_lt.mp hk), drop_of_length_le (by omega),
      decide_eq_false hk]
    exact ⟨_, rfl, rfl, rfl⟩

/-- A read that succeeds has found no other character. -/
theorem isReadable_of_getValue (hspaces : ∀ c ∈ text, isAsciiSpace c = false) {k : Nat} {got : Got}
    (h : getValue mayPad (text.drop k) = .ok got) :
    (∀ c, text[k]? = some c → IsReadable mayPad c) ∧ got.rest = text.drop (k + 1) := by
  have hreadable : ∀ c, text[k]? = some c → IsReadable mayPad c := by
    intro c hc
    obtain ⟨hk, rfl⟩ := List.getElem?_eq_some_iff.mp hc
    by_contra hnot
    obtain ⟨e, herror⟩ :=
      getValue_of_not_isReadable (hspaces _ (getElem_mem hk)) hnot (text.drop (k + 1))
    rw [drop_eq_getElem_cons hk, herror] at h
    cases h
  obtain ⟨got', hgot, hrest, -⟩ := getValue_drop hreadable
  obtain rfl : got' = got := Except.ok.inj (hgot.symm.trans h)
  exact ⟨hreadable, hrest⟩

theorem decodeGroup_of_reads {in0 in1 in2 in3 : Got}
    (h0 : getValue false input = .ok in0) (h1 : getValue false in0.rest = .ok in1)
    (h2 : getValue true in1.rest = .ok in2) (h3 : getValue true in2.rest = .ok in3) :
    decodeGroup input = .ok {
      bytes := outputs in0.value in1.value in2.value in3.value in2.isPadding in3.isPadding
      parsedSomething :=
        in0.parsedSomething || in1.parsedSomething || in2.parsedSomething || in3.parsedSomething
      rest := in3.rest } := by
  rw [decodeGroup]
  simp only [bind, Except.bind, pure, Except.pure, h0, h1, h2, h3]

/-- The places of a group are right. -/
def IsReadableGroup (text : List UInt8) : Prop :=
  ∀ i < 4, ∀ c, text[i]? = some c → IsReadable (decide (2 ≤ i)) c

theorem decodeGroup_eq_ok_of_isReadable (h : IsReadableGroup text) :
    ∃ group, decodeGroup text = .ok group ∧ group.rest = text.drop 4 ∧
      group.parsedSomething = decide (0 < text.length) := by
  obtain ⟨in0, h0, hrest0, hparsed0⟩ := getValue_drop (h 0 (by decide))
  obtain ⟨in1, h1, hrest1, hparsed1⟩ := getValue_drop (h 1 (by decide))
  obtain ⟨in2, h2, hrest2, hparsed2⟩ := getValue_drop (h 2 (by decide))
  obtain ⟨in3, h3, hrest3, hparsed3⟩ := getValue_drop (h 3 (by decide))
  rw [drop_zero] at h0
  rw [← hrest0] at h1
  rw [← hrest1] at h2
  rw [← hrest2] at h3
  refine ⟨_, decodeGroup_of_reads h0 h1 h2 h3, hrest3, ?_⟩
  rw [hparsed0, hparsed1, hparsed2, hparsed3]
  simp only [← Bool.decide_or, decide_eq_decide]
  omega

theorem isReadable_of_decodeGroup (hspaces : ∀ c ∈ text, isAsciiSpace c = false) {group : Group}
    (h : decodeGroup text = .ok group) : IsReadableGroup text := by
  obtain ⟨in0, in1, in2, in3, h0, h1, h2, h3, -, -⟩ := decodeGroup_eq_ok h
  obtain ⟨hreadable0, hrest0⟩ := @isReadable_of_getValue text false hspaces 0 in0 h0
  rw [hrest0] at h1
  obtain ⟨hreadable1, hrest1⟩ := isReadable_of_getValue hspaces h1
  rw [hrest1] at h2
  obtain ⟨hreadable2, hrest2⟩ := isReadable_of_getValue hspaces h2
  rw [hrest2] at h3
  obtain ⟨hreadable3, -⟩ := isReadable_of_getValue hspaces h3
  intro i hi
  rcases (by omega : i = 0 ∨ i = 1 ∨ i = 2 ∨ i = 3) with rfl | rfl | rfl | rfl
  · exact hreadable0
  · exact hreadable1
  · exact hreadable2
  · exact hreadable3

theorem isReadableText_iff : IsReadableText text ↔
    IsReadableGroup text ∧ IsReadableText (text.drop 4) := by
  constructor
  · refine fun h => ⟨fun i hi c hc => ?_, fun i c hc => ?_⟩
    · have hreadable := h i c hc
      rwa [Nat.mod_eq_of_lt hi] at hreadable
    · rw [List.getElem?_drop] at hc
      have hreadable := h (4 + i) c hc
      rwa [Nat.add_mod_left] at hreadable
  · rintro ⟨hgroup, hrest⟩ i c hc
    by_cases hi : i < 4
    · rw [Nat.mod_eq_of_lt hi]
      exact hgroup i hi c hc
    · have hreadable := hrest (i - 4) c (by rw [List.getElem?_drop, ← hc]; congr 1; omega)
      rwa [show (i - 4) % 4 = i % 4 by omega] at hreadable

/-- A text without whitespace is decoded exactly when no character is wrong at its place. -/
theorem decodeLoop_isOk_iff (hspaces : ∀ c ∈ text, isAsciiSpace c = false) (output : List UInt8) :
    (∃ out, decodeLoop text output = .ok out) ↔ IsReadableText text := by
  induction hlength : text.length using Nat.strongRecOn generalizing text output with
  | ind n ih =>
    rw [isReadableText_iff]
    by_cases hgroup : IsReadableGroup text
    · obtain ⟨group, hok, hrest, hparsed⟩ := decodeGroup_eq_ok_of_isReadable hgroup
      rw [decodeLoop_of_ok hok, hparsed, hrest, and_iff_right hgroup]
      by_cases hpos : 0 < text.length
      · rw [if_pos (decide_eq_true hpos)]
        exact ih _ (by rw [← hlength, length_drop]; omega)
          (fun c hc => hspaces c (mem_of_mem_drop hc)) _ rfl
      · obtain rfl : text = [] := eq_nil_of_length_eq_zero (by omega)
        exact iff_of_true ⟨_, rfl⟩ fun i c hc => by rw [drop_nil] at hc; cases hc
    · refine iff_of_false (fun ⟨out, hout⟩ => ?_) fun h => hgroup h.1
      cases hdecode : decodeGroup text with
      | error e =>
        rw [decodeLoop_of_error hdecode] at hout
        cases hout
      | ok group => exact hgroup (isReadable_of_decodeGroup hspaces hdecode)

/-! ## Encoding what was decoded -/

section

variable (x y z : UInt8)

theorem encodeGroup_three (rest : List UInt8) : encodeGroup (x :: y :: z :: rest) =
      [alphabetAt (x.toNat / 4), alphabetAt (16 * (x.toNat % 4) + y.toNat / 16),
        alphabetAt (4 * (y.toNat % 16) + z.toNat / 64), alphabetAt (z.toNat % 64)] := by
  rw [← index0_eq, ← index1_eq, ← index2_eq, ← mask_six]
  rfl

theorem encodeGroup_two : encodeGroup [x, y] =
      [alphabetAt (x.toNat / 4), alphabetAt (16 * (x.toNat % 4) + y.toNat / 16),
        alphabetAt (4 * (y.toNat % 16)), byte '='] := by
  have hlast := index2_eq y 0
  rw [show (0 : UInt8).toNat / 64 = 0 from rfl, Nat.add_zero] at hlast
  rw [← index0_eq, ← index1_eq, ← hlast]
  rfl

theorem encodeGroup_one : encodeGroup [x] =
      [alphabetAt (x.toNat / 4), alphabetAt (16 * (x.toNat % 4)), byte '=', byte '='] := by
  have hlast := index1_eq x 0
  rw [show (0 : UInt8).toNat / 16 = 0 from rfl, Nat.add_zero] at hlast
  rw [← index0_eq, ← hlast]
  rfl

end

variable {a b d : UInt8}

theorem isPadded_cases (h : IsPadded text) : text = [] ∨
      (∃ a b c d rest, text = a :: b :: c :: d :: rest ∧ IsPadded rest ∧ a ∈ alphabet ∧
        b ∈ alphabet ∧ c ∈ alphabet ∧ d ∈ alphabet) ∨
      (∃ a b c, text = [a, b, c, byte '='] ∧ a ∈ alphabet ∧ b ∈ alphabet ∧ c ∈ alphabet) ∨
      ∃ a b, text = [a, b, byte '=', byte '='] ∧ a ∈ alphabet ∧ b ∈ alphabet := by
  obtain ⟨hlength, body, count, rfl, hcount, hbody⟩ := h
  rw [length_append, length_replicate] at hlength
  cases body with
  | nil =>
    obtain rfl : count = 0 := by
      rw [length_nil] at hlength
      omega
    exact .inl rfl
  | cons a body =>
  cases body with
  | nil =>
    rw [length_singleton] at hlength
    omega
  | cons b body =>
  cases body with
  | nil =>
    obtain rfl : count = 2 := by
      simp only [length_cons, length_nil] at hlength
      omega
    simp only [forall_mem_cons] at hbody
    exact .inr (.inr (.inr ⟨a, b, rfl, hbody.1, hbody.2.1⟩))
  | cons c body =>
  cases body with
  | nil =>
    obtain rfl : count = 1 := by
      simp only [length_cons, length_nil] at hlength
      omega
    simp only [forall_mem_cons] at hbody
    exact .inr (.inr (.inl ⟨a, b, c, rfl, hbody.1, hbody.2.1, hbody.2.2.1⟩))
  | cons d body =>
    simp only [forall_mem_cons] at hbody
    obtain ⟨ha, hb, hc, hd, hrest⟩ := hbody
    refine .inr (.inl ⟨a, b, c, d, body ++ List.replicate count (byte '='), rfl,
      ⟨?_, body, count, rfl, hcount, hrest⟩, ha, hb, hc, hd⟩)
    simp only [length_cons] at hlength
    rw [length_append, length_replicate]
    omega

theorem ne_padding (h : c ∈ alphabet) : c ≠ byte '=' := fun heq => padding_notMem (heq ▸ h)

theorem clearUnused_cons (hc : c ∈ alphabet) (hd : d ∈ alphabet) (rest : List UInt8) :
    clearUnused (a :: b :: c :: d :: rest) = a :: b :: c :: d :: clearUnused rest := by
  cases rest with
  | nil =>
    rw [clearUnused, if_neg (ne_padding hc), if_neg (ne_padding hd)]
    rfl
  | cons e rest =>
    rw [clearUnused]
    exact cons_ne_nil e rest

theorem group_full (ha : a ∈ alphabet) (hb : b ∈ alphabet) (hc : c ∈ alphabet) (hd : d ∈ alphabet) :
    ∃ x y z, (∀ rest, decodeGroup (a :: b :: c :: d :: rest) = .ok ⟨[x, y, z], true, rest⟩) ∧
      ∀ rest, encodeGroup (x :: y :: z :: rest) = [a, b, c, d] := by
  obtain ⟨hlta, heqa⟩ := sextet_spec ha
  obtain ⟨hltb, heqb⟩ := sextet_spec hb
  obtain ⟨hltc, heqc⟩ := sextet_spec hc
  obtain ⟨hltd, heqd⟩ := sextet_spec hd
  refine ⟨UInt8.ofNat (4 * sextet a + sextet b / 16),
    UInt8.ofNat (16 * (sextet b % 16) + sextet c / 4),
    UInt8.ofNat (64 * (sextet c % 4) + sextet d), fun rest => ?_, fun rest => ?_⟩
  · rw [decodeGroup_of_reads (getValue_of_mem ha false _) (getValue_of_mem hb false _)
      (getValue_of_mem hc true _) (getValue_of_mem hd true _), outputs_ofNat hlta hltb hltc hltd]
    rfl
  · rw [encodeGroup_three, UInt8.toNat_ofNat_of_lt' (by rw [UInt8.size]; omega),
      UInt8.toNat_ofNat_of_lt' (by rw [UInt8.size]; omega),
      UInt8.toNat_ofNat_of_lt' (by rw [UInt8.size]; omega),
      show (4 * sextet a + sextet b / 16) / 4 = sextet a by omega,
      show 16 * ((4 * sextet a + sextet b / 16) % 4) +
        (16 * (sextet b % 16) + sextet c / 4) / 16 = sextet b by omega,
      show 4 * ((16 * (sextet b % 16) + sextet c / 4) % 16) +
        (64 * (sextet c % 4) + sextet d) / 64 = sextet c by omega,
      show (64 * (sextet c % 4) + sextet d) % 64 = sextet d by omega, heqa, heqb, heqc, heqd]

/-- Of the third value the highest four bits are used. -/
theorem group_two (ha : a ∈ alphabet) (hb : b ∈ alphabet) (hc : c ∈ alphabet) :
    ∃ x y, decodeGroup [a, b, c, byte '='] = .ok ⟨[x, y], true, []⟩ ∧
      encodeGroup [x, y] = [a, b, withoutLowBits 4 c, byte '='] := by
  obtain ⟨hlta, heqa⟩ := sextet_spec ha
  obtain ⟨hltb, heqb⟩ := sextet_spec hb
  obtain ⟨hltc, -⟩ := sextet_spec hc
  refine ⟨UInt8.ofNat (4 * sextet a + sextet b / 16),
    UInt8.ofNat (16 * (sextet b % 16) + sextet c / 4), ?_, ?_⟩
  · rw [decodeGroup_of_reads (getValue_of_mem ha false _) (getValue_of_mem hb false _)
      (getValue_of_mem hc true _) (getValue_padding _)]
    have houtputs := outputs_ofNat hlta hltb hltc (by decide : 0 < 64) false true
    rw [show (0 : UInt8) = UInt8.ofNat 0 from rfl, houtputs]
    rfl
  · rw [encodeGroup_two, UInt8.toNat_ofNat_of_lt' (by rw [UInt8.size]; omega),
      UInt8.toNat_ofNat_of_lt' (by rw [UInt8.size]; omega),
      show (4 * sextet a + sextet b / 16) / 4 = sextet a by omega,
      show 16 * ((4 * sextet a + sextet b / 16) % 4) +
        (16 * (sextet b % 16) + sextet c / 4) / 16 = sextet b by omega,
      show 4 * ((16 * (sextet b % 16) + sextet c / 4) % 16) = sextet c / 4 * 4 by omega,
      heqa, heqb, withoutLowBits]

/-- Of the second value the highest two bits are used. -/
theorem group_one (ha : a ∈ alphabet) (hb : b ∈ alphabet) :
    ∃ x, decodeGroup [a, b, byte '=', byte '='] = .ok ⟨[x], true, []⟩ ∧
      encodeGroup [x] = [a, withoutLowBits 16 b, byte '=', byte '='] := by
  obtain ⟨hlta, heqa⟩ := sextet_spec ha
  obtain ⟨hltb, -⟩ := sextet_spec hb
  refine ⟨UInt8.ofNat (4 * sextet a + sextet b / 16), ?_, ?_⟩
  · rw [decodeGroup_of_reads (getValue_of_mem ha false _) (getValue_of_mem hb false _)
      (getValue_padding _) (getValue_padding _)]
    have houtputs := outputs_ofNat hlta hltb (by decide : 0 < 64) (by decide : 0 < 64) true true
    rw [show (0 : UInt8) = UInt8.ofNat 0 from rfl, houtputs]
    rfl
  · rw [encodeGroup_one, UInt8.toNat_ofNat_of_lt' (by rw [UInt8.size]; omega),
      show (4 * sextet a + sextet b / 16) / 4 = sextet a by omega,
      show 16 * ((4 * sextet a + sextet b / 16) % 4) = sextet b / 16 * 16 by omega,
      heqa, withoutLowBits]

theorem encodeBase64_of_ne_nil (h : input ≠ []) :
    encodeBase64 input = encodeGroup input ++ encodeBase64 (input.drop 3) := by
  rw [encodeBase64, if_neg h]

theorem encodeBase64_nil : encodeBase64 [] = [] := by rw [encodeBase64, if_pos rfl]

/-- What is decoded from padded Base64 is encoded as it was, but for the unused bits. -/
theorem exists_decoded (h : IsPadded text) :
    ∃ out, (∀ output, decodeLoop text output = .ok (output ++ out)) ∧
      encodeBase64 out = clearUnused text := by
  induction hlength : text.length using Nat.strongRecOn generalizing text with
  | ind n ih =>
    rcases isPadded_cases h with rfl | ⟨a, b, c, d, rest, rfl, hrest, ha, hb, hc, hd⟩ |
      ⟨a, b, c, rfl, ha, hb, hc⟩ | ⟨a, b, rfl, ha, hb⟩
    · refine ⟨[], fun output => ?_, encodeBase64_nil⟩
      rw [decodeLoop, if_pos rfl, append_nil]
    · obtain ⟨x, y, z, hdecode, hencode⟩ := group_full ha hb hc hd
      simp only [length_cons] at hlength
      obtain ⟨out, hloop, heq⟩ := ih rest.length (by omega) hrest rfl
      refine ⟨x :: y :: z :: out, fun output => ?_, ?_⟩
      · rw [decodeLoop_of_ok (hdecode rest), if_pos rfl, hloop, List.append_assoc]
        rfl
      · rw [encodeBase64_of_ne_nil (cons_ne_nil _ _), hencode, clearUnused_cons hc hd, ← heq]
        rfl
    · obtain ⟨x, y, hdecode, hencode⟩ := group_two ha hb hc
      refine ⟨[x, y], fun output => ?_, ?_⟩
      · rw [decodeLoop_of_ok hdecode, if_pos rfl, decodeLoop, if_pos rfl]
      · rw [encodeBase64_of_ne_nil (cons_ne_nil _ _), hencode, clearUnused,
          if_neg (ne_padding hc), if_pos rfl]
        exact congrArg (_ ++ ·) encodeBase64_nil
    · obtain ⟨x, hdecode, hencode⟩ := group_one ha hb
      refine ⟨[x], fun output => ?_, ?_⟩
      · rw [decodeLoop_of_ok hdecode, if_pos rfl, decodeLoop, if_pos rfl]
      · rw [encodeBase64_of_ne_nil (cons_ne_nil _ _), hencode, clearUnused, if_pos rfl]
        exact congrArg (_ ++ ·) encodeBase64_nil

/-! ## What is decoded -/

/-- `decode_base64` succeeds for padded Base64 with any whitespace in it, and what it returns is
encoded as the text was. -/
def DecodesPadded (input : List UInt8) : Prop :=
  ((∃ out, decodeBase64 input = .ok out) ↔ IsPadded (withoutSpaces input)) ∧
    ∀ out, decodeBase64 input = .ok out → encodeBase64 out = clearUnused (withoutSpaces input)

theorem isAsciiSpace_of_mem_withoutSpaces (h : c ∈ withoutSpaces input) :
    isAsciiSpace c = false := by
  have hspace := (mem_filter.mp h).2
  rwa [Bool.not_eq_true'] at hspace

theorem decodeBase64_isOk_iff (input : List UInt8) :
    (∃ out, decodeBase64 input = .ok out) ↔ IsReadableText (withoutSpaces input) := by
  rw [decodeBase64, ← decodeLoop_withoutSpaces]
  exact decodeLoop_isOk_iff (fun _ => isAsciiSpace_of_mem_withoutSpaces) []

/-- A text is decoded as padded Base64 exactly when it is that, or some character of it is wrong
at its place in the group. -/
theorem decodesPadded_iff (input : List UInt8) : DecodesPadded input ↔
      (IsPadded (withoutSpaces input) ∨ ¬ IsReadableText (withoutSpaces input)) := by
  rw [DecodesPadded, decodeBase64_isOk_iff]
  constructor
  · rintro ⟨hiff, -⟩
    by_cases hreadable : IsReadableText (withoutSpaces input)
    · exact .inl (hiff.mp hreadable)
    · exact .inr hreadable
  · rintro (hpadded | hwrong)
    · obtain ⟨decoded, hloop, hencode⟩ := exists_decoded hpadded
      have hdecoded : decodeBase64 input = .ok decoded := by
        rw [decodeBase64, ← decodeLoop_withoutSpaces, hloop, nil_append]
      refine ⟨iff_of_true ((decodeBase64_isOk_iff input).mp ⟨_, hdecoded⟩) hpadded, fun out hout => ?_⟩
      rw [← Except.ok.inj (hdecoded.symm.trans hout), hencode]
    · refine ⟨iff_of_false hwrong fun hpadded => ?_, fun out hout => ?_⟩
      · obtain ⟨decoded, hloop, -⟩ := exists_decoded hpadded
        exact hwrong ((decodeLoop_isOk_iff (fun _ => isAsciiSpace_of_mem_withoutSpaces) []).mp
          ⟨_, hloop []⟩)
      · exact absurd ((decodeBase64_isOk_iff input).mp ⟨out, hout⟩) hwrong

/-- A group of two characters is decoded to three bytes. -/
theorem not_decodesPadded_short : ¬ DecodesPadded (literal ['Z', 'g']) ∧
      decodeBase64 (literal ['Z', 'g']) = .ok [0x66, 0, 0] := by
  have hgroup : decodeGroup (literal ['Z', 'g']) = .ok ⟨[0x66, 0, 0], true, []⟩ := by decide
  have hdecode : decodeBase64 (literal ['Z', 'g']) = .ok [0x66, 0, 0] := by
    rw [decodeBase64, decodeLoop_of_ok hgroup, if_pos rfl, decodeLoop, if_pos rfl, nil_append]
  refine ⟨fun h => ?_, hdecode⟩
  have hlength := (h.1.mp ⟨_, hdecode⟩).1
  revert hlength
  decide

end Literate.AK.Base64

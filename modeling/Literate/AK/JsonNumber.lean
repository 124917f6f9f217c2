import Literate.AK.JsonParser
import Literate.AK.JsonGrammar

/-!
# AK: the numbers that the JSON parser accepts

`parse_number` collects signs, digits and at most one point in one loop and judges
afterwards.  Here the loop is a fold over the characters it stays at, and the fold is
computed for the part before the point and the part after it.
-/

namespace Literate.AK.JsonParser

open StringUtils Json List
open NumberScan (step whole)

variable {c : UInt8} {cs ds tok frac : List UInt8}

theorem isNumberChar_iff : isNumberChar c ↔ c = byte '.' ∨ c = byte '-' ∨ isDigit c := by
  simp [isNumberChar, or_assoc]

theorem notMem_whitespace_of_isNumberChar (h : isNumberChar c) : c ∉ whitespace := by
  intro hc
  simp only [whitespace, mem_cons, not_mem_nil, or_false] at hc
  rcases hc with rfl | rfl | rfl | rfl | rfl | rfl <;> exact absurd h (by decide)

theorem ne_point_of_isDigit (h : isDigit c) : c ≠ byte '.' := by
  rintro rfl
  exact absurd h (by decide)

theorem ne_minus_of_isDigit (h : isDigit c) : c ≠ byte '-' := by
  rintro rfl
  exact absurd h (by decide)

/-! ## The loop -/

theorem scanNumber_eq (scan : NumberScan) (input : List UInt8) : scanNumber scan input =
      ((input.takeWhile isNumberChar).foldlM step scan).map
        fun scan => (scan, input.dropWhile isNumberChar) := by
  induction input generalizing scan with
  | nil => rfl
  | cons c input ih =>
    by_cases hc : isNumberChar c
    · rw [scanNumber, if_pos hc, takeWhile_cons_of_pos hc, dropWhile_cons_of_pos hc,
        foldlM_cons]
      cases hstep : scan.step c with
      | error e => rfl
      | ok scan' => exact ih scan'
    · rw [scanNumber, if_neg hc, takeWhile_cons_of_neg hc, dropWhile_cons_of_neg hc]
      rfl

/-- The two checks for a leading zero. -/
def okInt : List UInt8 → Bool
  | a :: b :: cs => a ≠ byte '0' && !(a == byte '-' && b == byte '0' && !cs.isEmpty)
  | _ => true

theorem okInt_of_append {cs ds : List UInt8} (h : okInt (cs ++ ds)) : okInt cs := by
  match cs with
  | [] => rfl
  | [a] => rfl
  | a :: b :: cs =>
    cases cs with
    | nil =>
      simp only [okInt, isEmpty_nil, Bool.not_true, Bool.and_false, Bool.not_false,
        Bool.and_true]
      simp only [List.cons_append, nil_append, okInt, Bool.and_eq_true] at h
      exact h.1
    | cons c cs => exact h

/-- The integer part so far is a sequence of signs and zeros. -/
def zeroish (cs : List UInt8) : Bool := cs.all fun c => c == byte '-' || c == byte '0'

theorem step_int {scan : NumberScan} (hc : c ≠ byte '.')
    (hscan : scan.isDouble = false) (scan' : NumberScan) :
    scan.step c = .ok scan' ↔ okInt (scan.numberBuffer ++ [c]) ∧
      scan' = { scan with
        allZero := scan.allZero && zeroish [c]
        numberBuffer := scan.numberBuffer ++ [c] } := by
  obtain ⟨number, fraction, isDouble, allZero⟩ := scan
  obtain rfl : isDouble = false := hscan
  simp only [step, if_neg hc, Bool.false_eq_true, if_false, zeroish, all_cons,
    all_nil, Bool.and_true]
  match number with
  | [] =>
    simp only [okInt, length_nil, Nat.lt_irrefl, false_and, if_false, Nat.not_lt_zero,
      nil_append, true_and, Except.ok.injEq]
    exact eq_comm
  | [a] =>
    by_cases ha : a = byte '0'
    · simp [okInt, ha, Error.fromStringLiteral]
    · simp only [okInt, length_singleton, getD_cons_zero, ha, and_false, if_false,
        Nat.lt_irrefl, false_and, Except.ok.injEq]
      simp only [List.cons_append, nil_append, ne_eq, ha, not_false_eq_true, decide_true,
        isEmpty_nil, Bool.not_true, Bool.and_false, Bool.not_false, Bool.and_self, true_and]
      exact eq_comm
  | a :: b :: number =>
    by_cases ha : a = byte '0'
    · simp [okInt, ha, Error.fromStringLiteral]
    · by_cases hm : a = byte '-' ∧ b = byte '0'
      · simp [okInt, hm, Error.fromStringLiteral]
      · have hok : okInt (a :: b :: number ++ [c]) := by
          simp only [Decidable.not_and_iff_not_or_not] at hm
          simpa [okInt, ha] using hm
        simp only [getD_cons_zero, getD_cons_succ, ha, hm, and_false, if_false, hok,
          true_and, Except.ok.injEq]
        exact eq_comm

theorem foldlM_int {cs : List UInt8} (hcs : ∀ c ∈ cs, c ≠ byte '.') {scan : NumberScan}
    (hscan : scan.isDouble = false) (scan' : NumberScan) : cs.foldlM step scan = .ok scan' ↔
      (cs = [] ∨ okInt (scan.numberBuffer ++ cs)) ∧
        scan' = { scan with
          allZero := scan.allZero && zeroish cs
          numberBuffer := scan.numberBuffer ++ cs } := by
  induction cs generalizing scan with
  | nil =>
    simp only [foldlM_nil, pure, Except.pure, Except.ok.injEq, zeroish, all_nil,
      Bool.and_true, append_nil, true_or, true_and]
    exact eq_comm
  | cons c cs ih =>
    have hcs' : ∀ x ∈ cs, x ≠ byte '.' := fun x hx => hcs x (mem_cons_of_mem c hx)
    have hstep := step_int (hcs c mem_cons_self) hscan
    rw [foldlM_cons]
    cases hc : scan.step c with
    | error e =>
      have hnot : ¬ okInt (scan.numberBuffer ++ [c]) := by
        intro hok
        rw [(hstep _).mpr ⟨hok, rfl⟩] at hc
        cases hc
      have hnot' : ¬ okInt (scan.numberBuffer ++ c :: cs) := by
        intro hok
        refine hnot (@okInt_of_append _ cs ?_)
        rwa [List.append_assoc]
      simp [bind, Except.bind, hnot']
    | ok scan₁ =>
      obtain ⟨hok, rfl⟩ := (hstep scan₁).mp hc
      refine Iff.trans (@ih hcs' _ hscan) ?_
      have hcons : okInt (scan.numberBuffer ++ [c] ++ cs) =
          okInt (scan.numberBuffer ++ c :: cs) := by
        rw [List.append_assoc]
        rfl
      constructor
      · rintro ⟨hcs, rfl⟩
        refine ⟨.inr ?_, by simp [zeroish, Bool.and_assoc]⟩
        rcases hcs with rfl | hcs
        · exact hok
        · exact hcons ▸ hcs
      · rintro ⟨hcs, rfl⟩
        refine ⟨.inr ?_, by simp [zeroish, Bool.and_assoc]⟩
        rcases hcs with hcs | hcs
        · cases hcs
        · exact hcons.symm ▸ hcs

theorem foldlM_fraction {ds : List UInt8} (hds : ∀ c ∈ ds, isNumberChar c) {scan : NumberScan}
    (hscan : scan.isDouble = true) (scan' : NumberScan) :
    ds.foldlM step scan = .ok scan' ↔ (∀ c ∈ ds, isDigit c) ∧
      scan' = { scan with
        allZero := scan.allZero && zeroish ds
        fractionBuffer := scan.fractionBuffer ++ ds } := by
  induction ds generalizing scan with
  | nil =>
    simp only [foldlM_nil, pure, Except.pure, Except.ok.injEq, zeroish, all_nil,
      Bool.and_true, append_nil, not_mem_nil, false_implies, implies_true, true_and]
    exact eq_comm
  | cons c ds ih =>
    have hds' : ∀ x ∈ ds, isNumberChar x := fun x hx => hds x (mem_cons_of_mem c hx)
    rw [foldlM_cons]
    rcases isNumberChar_iff.mp (hds c mem_cons_self) with rfl | rfl | hc
    · have hpoint : ¬ isDigit (byte '.') := by decide
      simp [step, hscan, Error.fromStringLiteral, bind, Except.bind, hpoint]
    · have hminus : ¬ isDigit (byte '-') := by decide
      have hne : byte '-' ≠ byte '.' := by decide
      simp [step, hscan, hne, Error.fromStringLiteral, bind, Except.bind, hminus]
    · have hstep : scan.step c = .ok { scan with
          allZero := scan.allZero && zeroish [c]
          fractionBuffer := scan.fractionBuffer ++ [c] } := by
        simp [step, hscan, ne_point_of_isDigit hc, ne_minus_of_isDigit hc, zeroish]
      rw [hstep]
      refine Iff.trans (@ih hds' _ hscan) ?_
      simp [hc, zeroish, Bool.and_assoc]

/-! ## What the buffers are worth -/

/-- An integer part that starts with a digit is read as that digit. -/
theorem value_int {d : UInt8} {ds : List UInt8} {scan : NumberScan} (hd : isDigit d)
    (hnumber : scan.numberBuffer = d :: ds) (hds : ∀ c ∈ ds, isNumberChar c)
    (hscan : scan.isDouble = false) :
    scan.value = .ok (.unsignedInt32 (UInt32.ofNat (digit d))) := by
  have hws : ∀ x ∈ d :: ds, x ∉ whitespace := by
    intro x hx
    rcases mem_cons.mp hx with rfl | hx
    · exact notMem_whitespace_of_isNumberChar (isNumberChar_iff.mpr (.inr (.inr hd)))
    · exact notMem_whitespace_of_isNumberChar (hds x hx)
  have hne : ¬ (scan.numberBuffer.head? = some (byte '-') ∧ scan.allZero = true) := by
    rw [hnumber]
    simp [ne_minus_of_isDigit hd]
  have hlt := digit_lt hd
  have huint : convertToUint 64 scan.numberBuffer .yes = some (digit d) := by
    rw [hnumber, convertToUint_cons (by decide) hws, if_pos hd]
  simp only [NumberScan.value, if_neg hne, hscan, huint, Bool.false_eq_true, if_false]
  rw [if_pos (by omega)]

/-- When the parser makes a number of what it has collected. -/
theorem value_isOk {c : UInt8} {cs ds : List UInt8} {scan : NumberScan}
    (hc : c = byte '-' ∨ isDigit c) (hnumber : scan.numberBuffer = c :: cs)
    (hcs : ∀ x ∈ cs, isNumberChar x) (hfraction : scan.fractionBuffer = ds)
    (hds : ∀ x ∈ ds, isDigit x) : (∃ value, scan.value = .ok value) ↔
      c = byte '-' ∧ scan.allZero ∨ isDigit c ∧ (scan.isDouble → ds ≠ []) := by
  have hmem : ∀ x ∈ c :: cs, x ∉ whitespace := by
    intro x hx
    rcases mem_cons.mp hx with rfl | hx
    · exact notMem_whitespace_of_isNumberChar (isNumberChar_iff.mpr (.inr hc))
    · exact notMem_whitespace_of_isNumberChar (hcs x hx)
  rcases hc with rfl | hd
  · have hminus : ¬ isDigit (byte '-') := by decide
    by_cases hzero : scan.allZero
    · simp [NumberScan.value, hnumber, hzero]
    · have hvalue : ∀ value, scan.value ≠ .ok value := by
        intro value
        have huint : ∀ bits, 4 ≤ bits → convertToUint bits scan.numberBuffer .yes = none := by
          intro bits hbits
          rw [hnumber, convertToUint_cons hbits hmem, if_neg hminus]
        have hint : ∀ bits, convertToInt bits scan.numberBuffer .yes = none := by
          intro bits
          rw [hnumber, convertToInt_minus hmem]
        simp only [NumberScan.value, whole, hzero, and_false, if_false,
          huint 32 (by decide), huint 64 (by decide), hint, Bool.false_eq_true]
        split <;> simp [Error.fromStringLiteral, bind, Except.bind]
      simp [hzero, hvalue, hminus]
  · have hne : ¬ (scan.numberBuffer.head? = some (byte '-') ∧ scan.allZero = true) := by
      rw [hnumber]
      simp [ne_minus_of_isDigit hd]
    cases hdouble : scan.isDouble with
    | false =>
      have hvalue := value_int hd hnumber hcs hdouble
      simp [hvalue, hd]
    | true =>
      have hfrac : convertToUint 64 ds .yes ≠ none ↔ ds ≠ [] := by
        cases ds with
        | nil =>
          have hempty : convertToUint 64 [] .yes = none := by decide
          simp [hempty]
        | cons e es =>
          have hws : ∀ x ∈ e :: es, x ∉ whitespace := fun x hx =>
            notMem_whitespace_of_isNumberChar (isNumberChar_iff.mpr (.inr (.inr (hds x hx))))
          rw [convertToUint_cons (by decide) hws, if_pos (hds e mem_cons_self)]
          simp
      have hwhole : convertToUint 32 scan.numberBuffer .yes = some (digit c) := by
        rw [hnumber, convertToUint_cons (by decide) hmem, if_pos hd]
      simp only [NumberScan.value, whole, if_neg hne, hdouble, if_true, hwhole, hfraction]
      rw [← hfrac]
      cases convertToUint 64 ds .yes with
      | none => simp [Error.fromStringLiteral, bind, Except.bind, ne_minus_of_isDigit hd]
      | some fraction => simp [bind, Except.bind, pure, Except.pure, hd]

/-! ## The tokens -/

/-- The part of a number before the point, as far as the loop lets it pass. -/
theorem okInt_iff (hc : isDigit c) (hcs : ∀ x ∈ cs, x = byte '-' ∨ isDigit x) :
    okInt (c :: cs) ↔ ParserInt (c :: cs) := by
  constructor
  · intro h
    by_cases hzero : c = byte '0'
    · subst hzero
      cases cs with
      | nil => exact .zero
      | cons x cs => simp [okInt] at h
    · exact .digits hc hzero fun x hx => (hcs x hx).symm
  · intro h
    cases h with
    | zero => rfl
    | digits hd hnonzero hds =>
      cases cs with
      | nil => rfl
      | cons x cs => simp [okInt, hnonzero, ne_minus_of_isDigit hc]

theorem okInt_minus_iff :
    okInt (byte '-' :: cs) ∧ zeroish (byte '-' :: cs) ↔ ParserNegativeZero (byte '-' :: cs) := by
  constructor
  · rintro ⟨hok, hzero⟩
    simp only [zeroish, List.all_eq_true, Bool.or_eq_true, beq_iff_eq] at hzero
    match cs with
    | [] => exact .minus
    | x :: cs =>
      rcases hzero x (by simp) with rfl | rfl
      · exact .more fun y hy => hzero y (by simp [hy])
      · cases cs with
        | nil => exact .zero
        | cons y cs => simp [okInt] at hok
  · intro h
    cases h with
    | minus => exact ⟨rfl, rfl⟩
    | zero => exact ⟨by decide, by decide⟩
    | more hcs =>
      have hne : byte '-' ≠ byte '0' := by decide
      refine ⟨by simp [okInt, hne], ?_⟩
      simp only [zeroish, List.all_eq_true, Bool.or_eq_true, beq_iff_eq]
      intro x hx
      rcases mem_cons.mp hx with rfl | hx
      · exact .inl rfl
      · rcases mem_cons.mp hx with rfl | hx
        · exact .inl rfl
        · exact hcs x hx

theorem isDigit_or_minus (hc : isNumberChar c) (hpoint : c ≠ byte '.') : c = byte '-' ∨ isDigit c :=
  (isNumberChar_iff.mp hc).resolve_left hpoint

theorem integer_isOk_iff (hc : c = byte '-' ∨ isDigit c)
    (hcs : ∀ x ∈ cs, x = byte '-' ∨ isDigit x) :
    (∃ scan value, (c :: cs).foldlM step {} = .ok scan ∧ scan.value = .ok value) ↔
      okInt (c :: cs) ∧ (c = byte '-' ∧ zeroish (c :: cs) ∨ isDigit c) := by
  have hpoint : ∀ x ∈ c :: cs, x ≠ byte '.' := by
    intro x hx
    have hx' : x = byte '-' ∨ isDigit x := by
      rcases mem_cons.mp hx with rfl | hx
      · exact hc
      · exact hcs x hx
    rcases hx' with rfl | hx'
    · decide
    · exact ne_point_of_isDigit hx'
  have hfold := @foldlM_int (c :: cs) hpoint {} rfl
  have hvalue := @value_isOk c cs [] { numberBuffer := c :: cs, allZero := zeroish (c :: cs) }
    hc rfl (fun x hx => isNumberChar_iff.mpr (.inr (hcs x hx))) rfl (by simp)
  simp only [Bool.false_eq_true, false_implies, and_true] at hvalue
  constructor
  · rintro ⟨scan, value, hscan, hok⟩
    obtain ⟨hint, rfl⟩ := (hfold scan).mp hscan
    exact ⟨hint.resolve_left (by simp), hvalue.mp ⟨value, hok⟩⟩
  · rintro ⟨hint, hhead⟩
    obtain ⟨value, hok⟩ := hvalue.mpr hhead
    exact ⟨_, value, (hfold _).mpr ⟨.inr hint, rfl⟩, hok⟩

theorem decimal_isOk_iff (hc : c = byte '-' ∨ isDigit c)
    (hcs : ∀ x ∈ cs, x = byte '-' ∨ isDigit x) (hds : ∀ x ∈ ds, isNumberChar x) :
    (∃ scan value, (c :: cs ++ byte '.' :: ds).foldlM step {} = .ok scan ∧
      scan.value = .ok value) ↔
      okInt (c :: cs) ∧ (∀ x ∈ ds, isDigit x) ∧
        (c = byte '-' ∧ zeroish (c :: cs) ∧ zeroish ds ∨ isDigit c ∧ ds ≠ []) := by
  have hpoint : ∀ x ∈ c :: cs, x ≠ byte '.' := by
    intro x hx
    have hx' : x = byte '-' ∨ isDigit x := by
      rcases mem_cons.mp hx with rfl | hx
      · exact hc
      · exact hcs x hx
    rcases hx' with rfl | hx'
    · decide
    · exact ne_point_of_isDigit hx'
  have hfold := @foldlM_int (c :: cs) hpoint {} rfl
  have hfraction := @foldlM_fraction ds hds
    { numberBuffer := c :: cs, allZero := zeroish (c :: cs), isDouble := true } rfl
  rw [foldlM_append]
  constructor
  · rintro ⟨scan, value, hscan, hok⟩
    cases hint : (c :: cs).foldlM step {} with
    | error e =>
      rw [hint] at hscan
      cases hscan
    | ok scan₁ =>
      rw [hint] at hscan
      obtain ⟨hok₁, rfl⟩ := (hfold scan₁).mp hint
      obtain ⟨hdigits, rfl⟩ := (hfraction scan).mp hscan
      refine ⟨hok₁.resolve_left (by simp), hdigits, ?_⟩
      have hvalue := (value_isOk hc rfl (fun x hx => isNumberChar_iff.mpr (.inr (hcs x hx)))
        rfl hdigits).mp ⟨value, hok⟩
      simpa [and_assoc] using hvalue
  · rintro ⟨hint, hdigits, hhead⟩
    let scan : NumberScan := ⟨c :: cs, ds, true, zeroish (c :: cs) && zeroish ds⟩
    obtain ⟨value, hok⟩ := (@value_isOk c cs ds scan hc rfl
      (fun x hx => isNumberChar_iff.mpr (.inr (hcs x hx))) rfl hdigits).mpr
      (by simpa [scan, and_assoc] using hhead)
    refine ⟨scan, value, ?_, hok⟩
    rw [(hfold _).mpr ⟨.inr hint, rfl⟩]
    exact (hfraction _).mpr ⟨hdigits, rfl⟩

theorem parserInt_head {int : List UInt8} (h : ParserInt int) : ∃ c cs, int = c :: cs ∧
    isDigit c ∧ ∀ x ∈ cs, x = byte '-' ∨ isDigit x := by
  cases h with
  | zero => exact ⟨_, _, rfl, by decide, by simp⟩
  | digits hd _ hds => exact ⟨_, _, rfl, hd, fun x hx => (hds x hx).symm⟩

theorem parserNegativeZero_head {int : List UInt8} (h : ParserNegativeZero int) :
    ∃ cs, int = byte '-' :: cs ∧ ∀ x ∈ cs, x = byte '-' ∨ isDigit x := by
  have hzero : isDigit (byte '0') := by decide
  cases h with
  | minus => exact ⟨_, rfl, by simp⟩
  | zero => exact ⟨_, rfl, by simp [hzero]⟩
  | more hcs =>
    refine ⟨_, rfl, fun x hx => ?_⟩
    rcases mem_cons.mp hx with rfl | hx
    · exact .inl rfl
    · rcases hcs x hx with rfl | rfl
      · exact .inl rfl
      · exact .inr hzero

theorem zeroish_iff (hds : ∀ x ∈ ds, isDigit x) : zeroish ds ↔ ∀ x ∈ ds, x = byte '0' := by
  simp only [zeroish, List.all_eq_true, Bool.or_eq_true, beq_iff_eq]
  constructor
  · intro h x hx
    exact (h x hx).resolve_left (ne_minus_of_isDigit (hds x hx))
  · intro h x hx
    exact .inr (h x hx)

/-- A token of the loop is accepted when it is one of the parser's numbers. -/
theorem token_isOk_iff (htok : ∀ c ∈ tok, isNumberChar c)
    (hhead : ∃ c t, tok = c :: t ∧ (c = byte '-' ∨ isDigit c)) :
    (∃ scan value, tok.foldlM step {} = .ok scan ∧ scan.value = .ok value) ↔
      ParserNumber tok := by
  have hzero : isDigit (byte '0') := by decide
  constructor
  · intro hok
    obtain ⟨c, t, rfl, hc⟩ := hhead
    have hspan : (t.takeWhile fun x => x != byte '.') ++ (t.dropWhile fun x => x != byte '.') =
        t := takeWhile_append_dropWhile
    have hint : ∀ x ∈ t.takeWhile fun x => x != byte '.', x = byte '-' ∨ isDigit x := by
      intro x hx
      refine isDigit_or_minus (htok x (mem_cons_of_mem c ?_)) ?_
      · exact (List.takeWhile_prefix _).subset hx
      · simpa using mem_takeWhile_imp hx
    cases hdrop : t.dropWhile fun x => x != byte '.' with
    | nil =>
      rw [hdrop, append_nil] at hspan
      rw [hspan] at hint
      obtain ⟨hoki, hcase⟩ := (integer_isOk_iff hc hint).mp hok
      rw [← append_nil (c :: t)]
      rcases hcase with ⟨rfl, hz⟩ | hd
      · exact .negativeZero (okInt_minus_iff.mp ⟨hoki, hz⟩) .none
      · exact .positive ((okInt_iff hd hint).mp hoki) .none
    | cons e ds =>
      have he : e = byte '.' := by
        have hhead := head_dropWhile_not (fun x => x != byte '.')
          (show (t.dropWhile fun x => x != byte '.') ≠ [] by simp [hdrop])
        simpa [hdrop] using hhead
      subst he
      rw [hdrop] at hspan
      generalize t.takeWhile (fun x => x != byte '.') = cs at hspan hint
      subst hspan
      have hds : ∀ x ∈ ds, isNumberChar x := fun x hx => htok x (by simp [hx])
      obtain ⟨hoki, hdigits, hcase⟩ := (decimal_isOk_iff hc hint hds).mp hok
      rcases hcase with ⟨rfl, hz, hz'⟩ | ⟨hd, hne⟩
      · exact .negativeZero (okInt_minus_iff.mp ⟨hoki, hz⟩)
          (.some ((zeroish_iff hdigits).mp hz'))
      · exact .positive ((okInt_iff hd hint).mp hoki) (.some hne hdigits)
  · intro h
    cases h with
    | positive hint hfrac =>
      obtain ⟨c, cs, rfl, hd, hcs⟩ := parserInt_head hint
      have hoki := (okInt_iff hd hcs).mpr hint
      cases hfrac with
      | none =>
        rw [append_nil]
        exact (integer_isOk_iff (.inr hd) hcs).mpr ⟨hoki, .inr hd⟩
      | some hne hds =>
        exact (decimal_isOk_iff (.inr hd) hcs fun x hx =>
          isNumberChar_iff.mpr (.inr (.inr (hds x hx)))).mpr ⟨hoki, hds, .inr ⟨hd, hne⟩⟩
    | negativeZero hint hfrac =>
      obtain ⟨cs, rfl, hcs⟩ := parserNegativeZero_head hint
      obtain ⟨hoki, hz⟩ := okInt_minus_iff.mpr hint
      cases hfrac with
      | none =>
        rw [append_nil]
        exact (integer_isOk_iff (.inl rfl) hcs).mpr ⟨hoki, .inl ⟨rfl, hz⟩⟩
      | some hds =>
        have hdigits : ∀ x ∈ _, isDigit x := fun x hx => by
          rw [hds x hx]
          exact hzero
        exact (decimal_isOk_iff (.inl rfl) hcs fun x hx =>
          isNumberChar_iff.mpr (.inr (.inr (hdigits x hx)))).mpr
          ⟨hoki, hdigits, .inl ⟨rfl, hz, (zeroish_iff hdigits).mpr hds⟩⟩

theorem parserNumber_head (h : ParserNumber tok) :
    ∃ c t, tok = c :: t ∧ (c = byte '-' ∨ isDigit c) := by
  cases h with
  | positive hint hfrac =>
    obtain ⟨c, cs, rfl, hd, -⟩ := parserInt_head hint
    exact ⟨c, _, rfl, .inr hd⟩
  | negativeZero hint hfrac =>
    obtain ⟨cs, rfl, -⟩ := parserNegativeZero_head hint
    exact ⟨_, _, rfl, .inl rfl⟩

theorem isNumberChar_of_rfcFraction (h : RfcFraction frac) : ∀ x ∈ frac, isNumberChar x := by
  cases h with
  | none => simp
  | some hne hds =>
    intro x hx
    rcases mem_cons.mp hx with rfl | hx
    · exact isNumberChar_iff.mpr (.inl rfl)
    · exact isNumberChar_iff.mpr (.inr (.inr (hds x hx)))

theorem isNumberChar_of_parserZeroFraction (h : ParserZeroFraction frac) :
    ∀ x ∈ frac, isNumberChar x := by
  cases h with
  | none => simp
  | some hds =>
    intro x hx
    rcases mem_cons.mp hx with rfl | hx
    · exact isNumberChar_iff.mpr (.inl rfl)
    · rw [hds x hx]
      decide

theorem isNumberChar_of_parserNumber (h : ParserNumber tok) : ∀ x ∈ tok, isNumberChar x := by
  intro x hx
  cases h with
  | positive hint hfrac =>
    obtain ⟨c, cs, rfl, hd, hcs⟩ := parserInt_head hint
    rcases mem_append.mp hx with hx | hx
    · rcases mem_cons.mp hx with rfl | hx
      · exact isNumberChar_iff.mpr (.inr (.inr hd))
      · exact isNumberChar_iff.mpr (.inr (hcs x hx))
    · exact isNumberChar_of_rfcFraction hfrac x hx
  | negativeZero hint hfrac =>
    obtain ⟨cs, rfl, hcs⟩ := parserNegativeZero_head hint
    rcases mem_append.mp hx with hx | hx
    · rcases mem_cons.mp hx with rfl | hx
      · exact isNumberChar_iff.mpr (.inr (.inl rfl))
      · exact isNumberChar_iff.mpr (.inr (hcs x hx))
    · exact isNumberChar_of_parserZeroFraction hfrac x hx

/-- What comes after a number: the loop does not stay at its first character. -/
def Follow (rest : List UInt8) : Prop := rest.takeWhile isNumberChar = []

theorem follow_dropWhile {rest : List UInt8} (h : Follow rest) :
    rest.dropWhile isNumberChar = rest := by
  have hspan : rest.takeWhile isNumberChar ++ rest.dropWhile isNumberChar = rest :=
    takeWhile_append_dropWhile
  rwa [show rest.takeWhile isNumberChar = [] from h] at hspan

theorem follow_cons {rest : List UInt8} (hc : ¬ isNumberChar c) : Follow (c :: rest) :=
  takeWhile_cons_of_neg hc

theorem scanNumber_append {rest : List UInt8} (htok : ∀ x ∈ tok, isNumberChar x)
    (hrest : Follow rest) (scan : NumberScan) : scanNumber scan (tok ++ rest) =
      (tok.foldlM step scan).map fun scan => (scan, rest) := by
  rw [scanNumber_eq, takeWhile_append_of_pos htok, dropWhile_append_of_pos htok,
    show rest.takeWhile isNumberChar = [] from hrest, follow_dropWhile hrest, append_nil]

theorem parseNumber_sound {input rest : List UInt8} {value : JsonValue}
    (hhead : ∃ c t, input = c :: t ∧ (c = byte '-' ∨ isDigit c))
    (h : parseNumber input = .ok (value, rest)) :
    ∃ tok, input = tok ++ rest ∧ ParserNumber tok := by
  rw [parseNumber, scanNumber_eq] at h
  cases hfold : (input.takeWhile isNumberChar).foldlM step {} with
  | error e =>
    rw [hfold] at h
    cases h
  | ok scan =>
    rw [hfold] at h
    cases hvalue : scan.value with
    | error e => simp [Except.map, bind, Except.bind, hvalue] at h
    | ok v =>
      simp only [Except.map, bind, Except.bind, hvalue, pure, Except.pure, Except.ok.injEq,
        Prod.mk.injEq] at h
      refine ⟨input.takeWhile isNumberChar, ?_, ?_⟩
      · rw [← h.2]
        exact takeWhile_append_dropWhile.symm
      · refine (token_isOk_iff (fun x hx => mem_takeWhile_imp hx) ?_).mp
          ⟨scan, v, hfold, hvalue⟩
        obtain ⟨c, t, rfl, hc⟩ := hhead
        exact ⟨c, _, takeWhile_cons_of_pos (isNumberChar_iff.mpr (.inr hc)), hc⟩

theorem parseNumber_complete {rest : List UInt8} (h : ParserNumber tok) (hrest : Follow rest) :
    ∃ value, parseNumber (tok ++ rest) = .ok (value, rest) := by
  have htok := isNumberChar_of_parserNumber h
  obtain ⟨scan, value, hscan, hvalue⟩ := (token_isOk_iff htok (parserNumber_head h)).mpr h
  refine ⟨value, ?_⟩
  rw [parseNumber, scanNumber_append htok hrest, hscan]
  simp [Except.map, bind, Except.bind, hvalue, pure, Except.pure]

theorem parseNumber_int {d : UInt8} {rest : List UInt8} (hint : ParserInt (d :: ds))
    (hrest : Follow rest) :
    parseNumber (d :: ds ++ rest) = .ok (.unsignedInt32 (UInt32.ofNat (digit d)), rest) := by
  obtain ⟨c, cs, heq, hd, hcs⟩ := parserInt_head hint
  obtain ⟨rfl, rfl⟩ := List.cons.inj heq
  have hok : okInt (d :: ds) := (okInt_iff hd hcs).mpr hint
  have hnumber : ∀ x ∈ d :: ds, x = byte '-' ∨ isDigit x := by
    intro x hx
    rcases mem_cons.mp hx with rfl | hx
    · exact .inr hd
    · exact hcs x hx
  have hpoint : ∀ x ∈ d :: ds, x ≠ byte '.' := by
    rintro x hx rfl
    exact absurd (hnumber _ hx) (by decide)
  have hchars : ∀ x ∈ d :: ds, isNumberChar x :=
    fun x hx => isNumberChar_iff.mpr (.inr (hnumber x hx))
  obtain ⟨scan, hfold⟩ : ∃ scan, (d :: ds).foldlM step {} = .ok scan :=
    ⟨_, (foldlM_int hpoint rfl _).mpr ⟨.inr hok, rfl⟩⟩
  obtain ⟨-, rfl⟩ := (foldlM_int hpoint rfl _).mp hfold
  have hvalue := @value_int d ds { numberBuffer := d :: ds, allZero := zeroish (d :: ds) } hd rfl
    (fun x hx => hchars x (mem_cons_of_mem d hx)) rfl
  rw [parseNumber, scanNumber_append hchars hrest, hfold]
  simp [Except.map, bind, Except.bind, pure, Except.pure, hvalue]

/-- No negative integer is read but for negative zero. -/
theorem parseNumber_minus {ds rest : List UInt8} (hds : ∀ c ∈ ds, isDigit c)
    (hnonzero : ∃ c ∈ ds, c ≠ byte '0') (hrest : Follow rest) :
    ∃ e, parseNumber (byte '-' :: ds ++ rest) = .error e := by
  have hchars : ∀ x ∈ byte '-' :: ds, isNumberChar x := by
    intro x hx
    rcases mem_cons.mp hx with rfl | hx
    · decide
    · exact isNumberChar_iff.mpr (.inr (.inr (hds x hx)))
  have hno : ¬ ∃ scan value, (byte '-' :: ds).foldlM step {} = .ok scan ∧
      scan.value = .ok value := by
    rw [integer_isOk_iff (.inl rfl) fun x hx => .inr (hds x hx)]
    rintro ⟨-, ⟨-, hzero⟩ | hdigit⟩
    · obtain ⟨c, hc, hne⟩ := hnonzero
      refine hne ((zeroish_iff hds).mp ?_ c hc)
      simpa [zeroish] using hzero
    · exact absurd hdigit (by decide)
  rw [parseNumber, scanNumber_append hchars hrest]
  cases hfold : (byte '-' :: ds).foldlM step {} with
  | error e => exact ⟨e, rfl⟩
  | ok scan =>
    cases hvalue : scan.value with
    | error e => exact ⟨e, by simp [Except.map, bind, Except.bind, hvalue]⟩
    | ok value => exact absurd ⟨scan, value, hfold, hvalue⟩ hno

end Literate.AK.JsonParser

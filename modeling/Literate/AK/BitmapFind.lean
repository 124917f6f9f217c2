import Literate.AK.BitmapCount

/-!
# AK: searches in bitmaps

`BitmapView::find_first` goes through the whole bytes of a bitmap.  `find_one_anywhere` begins at
the word that the hint is in, goes on by words and then by bytes, and comes back for what lies
before the hint.
-/

namespace Literate.AK.BitmapView

open Foundation Option

/-- A byte or a word without a bit that equals `value`. -/
def fill (w : Nat) (value : Bool) : BitVec w := if value then 0#w else BitVec.allOnes w

/-- The index of the first bit that equals `value` in a byte or in a word that begins at the `i`-th
byte. -/
def answer {w : Nat} (value : Bool) (i : Nat) (x : BitVec w) : Option Nat :=
  let x := if value then x else ~~~x
  if x = 0#w then none else some (i * 8 + bitScanForward x - 1)

variable (s : BitmapView) (address : Nat) (value : Bool)

/-- The loops over `n` bytes from the `i`-th on: they stop at a byte with a bit that equals
`value`. -/
def scanBytes : Nat → Nat → Option Nat
  | 0, i => some i
  | n + 1, i => do
      let byte ← s.mData[i]?
      if byte = fill 8 value then scanBytes n (i + 1) else some i

def answerByte (i : Nat) : Option (Option Nat) := do
  let byte ← s.mData[i]?
  let index ← answer value i byte
  some (some index)

/-- What the bytes from the `i`-th to the last whole one come to. -/
def searchBytes (i : Nat) : Option (Option Nat) := do
  let byteCount := s.mSize / 8
  let i ← s.scanBytes value (byteCount - i) i
  if i = byteCount then some none else s.answerByte value i

def findFirst : Option (Option Nat) := s.searchBytes value 0

/-- The loop over `n` words. -/
def scanWords : Nat → Nat → Option Nat
  | 0, ptrLarge => some ptrLarge
  | n + 1, ptrLarge => do
      let word ← s.wordAt address ptrLarge
      if word = fill 64 value then scanWords n (ptrLarge + 8) else some ptrLarge

/-- What the words before `last` and the bytes after them come to. -/
def searchWords (last ptrLarge : Nat) : Option (Option Nat) := do
  let endLarge := alignDown last
  let ptrLarge ← s.scanWords address value ((endLarge - ptrLarge) / 8) ptrLarge
  if ptrLarge = endLarge then
    let i := ptrLarge - address
    if ¬ i ≤ s.mSize / 8 then none else s.searchBytes value i
  else do
    let word ← s.wordAt address ptrLarge
    let index ← answer value (ptrLarge - address) word
    some (some index)

/-- One iteration of the loop of `find_one_anywhere`. -/
def onePass (last hint : Nat) : Option (Option Nat) :=
  let ptrLarge := alignDown (address + hint / 8)
  if ptrLarge < address then do
    let ptrLarge := ptrLarge + 8
    let startPtrLarge := ptrLarge - address
    let i ← s.scanBytes value startPtrLarge 0
    if i < startPtrLarge then s.answerByte value i else s.searchWords address value last ptrLarge
  else s.searchWords address value last ptrLarge

def findLoop (last hint : Nat) : Option (Option Nat) :=
  match s.onePass address value last hint with
  | none => none
  | some (some index) => some (some index)
  | some none => if hint ≤ 8 then some none else findLoop (alignDown (address + hint / 8)) 0
termination_by hint

def findOneAnywhere (hint : Nat) : Option (Option Nat) :=
  if ¬ hint < s.mSize then none else s.findLoop address value (address + s.mSize / 8) hint

/-- No bit from `a` to `b - 1` equals `value`. -/
def Lacks (a b : Nat) : Prop := ∀ i, a ≤ i → i < b → s.bit i ≠ value

/-- Some bit from `a` to `b - 1` equals `value`. -/
def Has (a b : Nat) : Prop := ∃ i < b, a ≤ i ∧ s.bit i = value

instance (a b : Nat) : Decidable (Has s value a b) := by
  unfold Has
  infer_instance

/-- What a search comes to: the first bit from `a` to `b - 1` that equals `value`. -/
def Searched (a b : Nat) : Option Nat → Prop
  | none => s.Lacks value a b
  | some i => a ≤ i ∧ i < b ∧ s.bit i = value ∧ s.Lacks value a i

variable {r : Option Nat} {w hint : Nat}

variable {s address value} {a b c i n : Nat}

theorem lacks_iff : s.Lacks value a b ↔ ¬ s.Has value a b := by
  unfold Lacks Has
  grind

theorem Lacks.append (h : s.Lacks value a b) (h' : s.Lacks value b c) : s.Lacks value a c := by
  intro i hfrom hi
  rcases Nat.lt_or_ge i b with hlt | hge
  · exact h i hfrom hlt
  · exact h' i hge hi

theorem Searched.prepend (h : s.Lacks value a b) (hab : a ≤ b) (h' : s.Searched value b c r) :
    s.Searched value a c r := by
  cases r with
  | none => exact Lacks.append h h'
  | some i =>
    obtain ⟨hfrom, hi, hbit, hbefore⟩ := h'
    exact ⟨Nat.le_trans hab hfrom, hi, hbit, h.append hbefore⟩

/-! ## One byte, one word -/

theorem lacks_of_fill {x : BitVec w} (hbits : ∀ j < w, x.getLsbD j = s.bit (8 * i + j))
    (hx : x = fill w value) : s.Lacks value (8 * i) (8 * i + w) := by
  intro k hfrom hk
  obtain ⟨j, rfl⟩ := Nat.exists_eq_add_of_le hfrom
  have hj : j < w := by omega
  rw [← hbits j hj, hx, fill]
  cases value with
  | false => simp [hj]
  | true => simp

theorem answer_fill {x : BitVec w} (hx : x = fill w value) : answer value i x = none := by
  subst hx
  cases value <;> simp [answer, fill]

/-- The answer for a byte or a word that is not filled. -/
theorem answer_spec {x : BitVec w} (hbits : ∀ j < w, x.getLsbD j = s.bit (8 * i + j))
    (hx : x ≠ fill w value) :
    ∃ j, answer value i x = some (8 * i + j) ∧ j < w ∧ s.bit (8 * i + j) = value ∧
      s.Lacks value (8 * i) (8 * i + j) := by
  have hsought : ∀ j < w, (if value then x else ~~~x).getLsbD j = true ↔ s.bit (8 * i + j) = value := by
    intro j hj
    rw [← hbits j hj]
    cases value with
    | false => simp [hj]
    | true => simp
  have hne : (if value then x else ~~~x) ≠ 0#w := by
    intro hzero
    apply hx
    cases value with
    | false =>
      have hnot : ~~~x = 0#w := hzero
      rw [fill, if_neg Bool.false_ne_true, ← BitVec.not_not (b := x), hnot, BitVec.not_zero]
    | true => exact hzero
  obtain ⟨j, hscan, hset, hbelow⟩ := bitScanForward_spec hne
  have hj : j < w := BitVec.lt_of_getLsbD hset
  refine ⟨j, ?_, hj, (hsought j hj).mp hset, fun k hfrom hk hbit => ?_⟩
  · rw [answer]
    simp only [if_neg hne, hscan, some.injEq]
    omega
  · obtain ⟨m, rfl⟩ := Nat.exists_eq_add_of_le hfrom
    have hfalse := hbelow m (by omega)
    rw [(hsought m (by omega)).mpr hbit] at hfalse
    cases hfalse

theorem bits_byte {byte : BitVec 8} (h : s.mData[i]? = some byte) :
    ∀ j < 8, byte.getLsbD j = s.bit (8 * i + j) :=
  fun _ hj => (bitAt_byte h hj).symm

theorem answerByte_spec {byte : BitVec 8} (h : s.mData[i]? = some byte) (hbyte : byte ≠ fill 8 value) :
    ∃ j, s.answerByte value i = some (some (8 * i + j)) ∧ j < 8 ∧ s.bit (8 * i + j) = value ∧
      s.Lacks value (8 * i) (8 * i + j) := by
  obtain ⟨j, heq, hj, hbit, hbefore⟩ := answer_spec (bits_byte h) hbyte
  refine ⟨j, ?_, hj, hbit, hbefore⟩
  rw [answerByte, h, bind_eq_bind, bind_some, heq]
  rfl

/-! ## The scans -/

theorem scanBytes_spec (value : Bool) (h : i + n ≤ s.sizeInBytes) :
    ∃ k, s.scanBytes value n i = some k ∧ i ≤ k ∧ k ≤ i + n ∧ s.Lacks value (8 * i) (8 * k) ∧
      (k < i + n → ∃ byte, s.mData[k]? = some byte ∧ byte ≠ fill 8 value) := by
  induction n generalizing i with
  | zero => exact ⟨i, rfl, Nat.le_refl i, Nat.le_refl i, fun k hfrom hk => by omega, fun h => by omega⟩
  | succ n ih =>
    obtain ⟨byte, hbyte⟩ := exists_byte (s := s) (k := i) (by omega)
    rw [scanBytes, hbyte, bind_eq_bind, bind_some]
    by_cases hfill : byte = fill 8 value
    · obtain ⟨k, heq, hfrom, hk, hlacks, hstop⟩ := ih (i := i + 1) (by omega)
      refine ⟨k, by rw [if_pos hfill, heq], by omega, by omega, ?_, fun hlt => hstop (by omega)⟩
      exact (lacks_of_fill (bits_byte hbyte) hfill).append hlacks
    · exact ⟨i, if_neg hfill, Nat.le_refl i, Nat.le_add_right i _, fun k hfrom hk => by omega,
        fun _ => ⟨byte, hbyte, hfill⟩⟩

theorem searchBytes_spec (value : Bool) (h : i ≤ s.mSize / 8) :
    ∃ r, s.searchBytes value i = some r ∧ s.Searched value (8 * i) (8 * (s.mSize / 8)) r := by
  have hbytes := le_sizeInBytes (s := s)
  obtain ⟨k, heq, hfrom, hk, hlacks, hstop⟩ :=
    scanBytes_spec value (s := s) (i := i) (n := s.mSize / 8 - i) (by omega)
  rw [searchBytes, heq, bind_eq_bind, bind_some]
  by_cases hlast : k = s.mSize / 8
  · subst hlast
    exact ⟨none, if_pos rfl, hlacks⟩
  · obtain ⟨byte, hbyte, hne⟩ := hstop (by omega)
    obtain ⟨j, hanswer, hj, hbit, hbefore⟩ := answerByte_spec hbyte hne
    exact ⟨some (8 * k + j), by rw [if_neg hlast, hanswer], by omega, by omega, hbit,
      hlacks.append hbefore⟩

theorem scanWords_spec (address : Nat) (value : Bool) (h : i + 8 * n ≤ s.sizeInBytes) :
    ∃ k, s.scanWords address value n (address + i) = some (address + (i + 8 * k)) ∧ k ≤ n ∧
      s.Lacks value (8 * i) (8 * (i + 8 * k)) ∧
      (k < n → ∃ word, s.wordAt address (address + (i + 8 * k)) = some word ∧
        (∀ j < 64, word.getLsbD j = s.bit (8 * (i + 8 * k) + j)) ∧ word ≠ fill 64 value) := by
  induction n generalizing i with
  | zero => exact ⟨0, rfl, Nat.le_refl 0, fun k hfrom hk => by omega, fun h => by omega⟩
  | succ n ih =>
    obtain ⟨word, hword, hbits⟩ := wordAt_add address (s := s) (k := i) (by omega)
    rw [scanWords, hword, bind_eq_bind, bind_some]
    by_cases hfill : word = fill 64 value
    · obtain ⟨k, heq, hk, hlacks, hstop⟩ := ih (i := i + 8) (by omega)
      have hnext : i + 8 + 8 * k = i + 8 * (k + 1) := by omega
      rw [hnext] at heq hlacks hstop
      refine ⟨k + 1, by rw [if_pos hfill, Nat.add_assoc, heq], by omega, ?_,
        fun hlt => hstop (by omega)⟩
      have hfirst := lacks_of_fill hbits hfill
      have hend : 8 * i + 64 = 8 * (i + 8) := by omega
      exact (hend ▸ hfirst).append hlacks
    · exact ⟨0, if_neg hfill, Nat.zero_le _, fun k hfrom hk => by omega,
        fun _ => ⟨word, hword, hbits, hfill⟩⟩

theorem searchWords_spec (value : Bool) {last : Nat} (hlast : alignDown last = address + c) (hb : b ≤ c)
    (hwords : (c - b) % 8 = 0) (hc : c ≤ s.mSize / 8) :
    ∃ r, s.searchWords address value last (address + b) = some r ∧
      s.Searched value (8 * b) (8 * (s.mSize / 8)) r := by
  have hbytes := le_sizeInBytes (s := s)
  obtain ⟨k, heq, hk, hlacks, hstop⟩ := scanWords_spec address value (s := s)
    (i := b) (n := (c - b) / 8) (by omega)
  have hcount : (address + c - (address + b)) / 8 = (c - b) / 8 := by rw [Nat.add_sub_add_left]
  rw [searchWords]
  simp only [hlast, hcount, heq, bind_eq_bind, bind_some]
  by_cases hall : k = (c - b) / 8
  · have hend : b + 8 * k = c := by omega
    have hoffset : address + c - address = c := by omega
    rw [hend, if_pos rfl, hoffset, if_neg (not_not_intro hc)]
    obtain ⟨r, hr, hsearched⟩ := searchBytes_spec value (s := s) hc
    exact ⟨r, hr, hsearched.prepend (hend ▸ hlacks) (by omega)⟩
  · obtain ⟨word, hword, hbits, hne⟩ := hstop (by omega)
    obtain ⟨j, hanswer, hj, hbit, hbefore⟩ := answer_spec hbits hne
    have hoffset : address + (b + 8 * k) - address = b + 8 * k := by omega
    have hnot : ¬ address + (b + 8 * k) = address + c := by omega
    refine ⟨some (8 * (b + 8 * k) + j), ?_, by omega, by omega, hbit, hlacks.append hbefore⟩
    rw [if_neg hnot, hword, bind_some, hoffset, hanswer]
    rfl

/-! ## The iterations of the loop -/

theorem scanBytes_add (m n i : Nat) : s.scanBytes value (n + m) i =
      (s.scanBytes value n i).bind fun k => if k = i + n then s.scanBytes value m k else some k := by
  induction n generalizing i with
  | zero => simp [scanBytes]
  | succ n ih =>
    simp only [Nat.add_right_comm, scanBytes]
    cases s.mData[i]? with
    | none => rfl
    | some byte =>
      simp only [bind_eq_bind, bind_some]
      by_cases hfill : byte = fill 8 value
      · have hnext : i + 1 + n = i + (n + 1) := by omega
        simp only [if_pos hfill, ih, hnext]
      · rw [if_neg hfill, if_neg hfill, bind_some, if_neg (by omega)]

/-- The scan of bytes without the value goes on behind them. -/
theorem scanBytes_lacks {m : Nat} (h : n ≤ s.sizeInBytes) (hlacks : s.Lacks value 0 (8 * n)) :
    s.scanBytes value (n + m) 0 = s.scanBytes value m n := by
  obtain ⟨k, heq, -, hk, -, hstop⟩ := scanBytes_spec value (s := s) (i := 0) (n := n)
    (by omega)
  have hend : k = 0 + n := by
    by_contra hne
    obtain ⟨byte, hbyte, hfill⟩ := hstop (by omega)
    obtain ⟨j, -, hj, hbit, -⟩ := answerByte_spec hbyte hfill
    exact hlacks (8 * k + j) (Nat.zero_le _) (by omega) hbit
  rw [scanBytes_add, heq, bind_some, if_pos hend, hend, Nat.zero_add]

theorem onePass_inside (value : Bool) {last : Nat} (hptr : alignDown (address + hint / 8) = address + b)
    (hlast : alignDown last = address + c) (hb : b ≤ c) (hc : c ≤ s.mSize / 8) :
    ∃ r, s.onePass address value last hint = some r ∧
      s.Searched value (8 * b) (8 * (s.mSize / 8)) r := by
  have hwords : (c - b) % 8 = 0 := by
    unfold alignDown at hptr hlast
    omega
  rw [onePass]
  simp only [hptr, if_neg (Nat.not_lt_of_le (Nat.le_add_right address b))]
  exact searchWords_spec value hlast hb hwords hc

/-- The pass begins before the bitmap, and the first whole word in it is not past its end. -/
theorem onePass_before (value : Bool) {last : Nat} (hptr : alignDown (address + hint / 8) < address)
    (hnext : alignDown (address + hint / 8) + 8 = address + b)
    (hlast : alignDown last = address + c) (hb : b ≤ c) (hc : c ≤ s.mSize / 8) :
    ∃ r, s.onePass address value last hint = some r ∧ s.Searched value 0 (8 * (s.mSize / 8)) r := by
  have hbytes := le_sizeInBytes (s := s)
  have hwords : (c - b) % 8 = 0 := by
    unfold alignDown at hnext hlast
    omega
  have hstart : address + b - address = b := by omega
  obtain ⟨k, heq, -, hk, hlacks, hstop⟩ :=
    scanBytes_spec value (s := s) (i := 0) (n := b) (by omega)
  rw [onePass]
  simp only [if_pos hptr, hnext, hstart, heq, bind_eq_bind, bind_some]
  by_cases hlt : k < b
  · obtain ⟨byte, hbyte, hne⟩ := hstop (by omega)
    obtain ⟨j, hanswer, hj, hbit, hbefore⟩ := answerByte_spec hbyte hne
    exact ⟨some (8 * k + j), by rw [if_pos hlt, hanswer], Nat.zero_le _, by omega, hbit,
      hlacks.append hbefore⟩
  · have hkb : k = b := by omega
    subst hkb
    obtain ⟨r, hr, hsearched⟩ := searchWords_spec value hlast hb hwords hc
    exact ⟨r, by rw [if_neg hlt, hr], hsearched.prepend hlacks (Nat.zero_le _)⟩

/-! ## What the searches find -/

/-- Nothing is found in a bitmap without the value, and otherwise a bit that equals it. -/
def FindsAnywhere (s : BitmapView) (value : Bool) : Option (Option Nat) → Prop
  | none => False
  | some none => s.Lacks value 0 s.mSize
  | some (some i) => i < s.mSize ∧ s.bit i = value

/-- The least bit that equals the value is found. -/
def FindsFirst (s : BitmapView) (value : Bool) : Option (Option Nat) → Prop
  | none => False
  | some r => s.Searched value 0 s.mSize r

/-- The bits of the last byte, when it is not whole. -/
def HasTrailing (s : BitmapView) (value : Bool) : Prop := s.Has value (8 * (s.mSize / 8)) s.mSize

def HasWhole (s : BitmapView) (value : Bool) : Prop := s.Has value 0 (8 * (s.mSize / 8))

instance (s : BitmapView) (value : Bool) : Decidable (HasTrailing s value) := by
  unfold HasTrailing
  infer_instance

instance (s : BitmapView) (value : Bool) : Decidable (HasWhole s value) := by
  unfold HasWhole
  infer_instance

/-- The hint is in a word that begins before the bitmap. -/
def BeginsBefore (address hint : Nat) : Prop := alignDown (address + hint / 8) < address

instance (address hint : Nat) : Decidable (BeginsBefore address hint) := by
  unfold BeginsBefore
  infer_instance

/-- When the search from a hint comes to the right end. -/
def Reaches (s : BitmapView) (address : Nat) (value : Bool) (hint : Nat) : Prop :=
  if s.HasWhole value then
    address % 8 = 7 → hint = 8 → s.Has value 8 (8 * (s.mSize / 8))
  else if BeginsBefore address hint ∧ s.mSize / 8 < 8 - address % 8 then s.HasTrailing value
  else if BeginsBefore address hint ∧ 8 < hint then
    s.HasTrailing value ∧ s.mSize / 8 + 1 = 8 - address % 8 + 8
  else ¬ s.HasTrailing value

instance (s : BitmapView) (address : Nat) (value : Bool) (hint : Nat) :
    Decidable (Reaches s address value hint) := by
  unfold Reaches
  infer_instance

theorem lacks_size_iff : s.Lacks value 0 s.mSize ↔ ¬ s.HasWhole value ∧ ¬ s.HasTrailing value := by
  simp only [HasWhole, HasTrailing, ← lacks_iff]
  constructor
  · intro h
    exact ⟨fun i hfrom hi => h i hfrom (by omega), fun i _ hi => h i (Nat.zero_le i) hi⟩
  · exact fun h => Lacks.append h.1 h.2

/-- The first bit is found when it is in a whole byte, and its absence when there is none. -/
theorem findFirst_iff (s : BitmapView) (value : Bool) :
    s.FindsFirst value (s.findFirst value) ↔ s.HasWhole value ∨ ¬ s.HasTrailing value := by
  obtain ⟨r, hr, hsearched⟩ := searchBytes_spec value (s := s) (i := 0) (Nat.zero_le _)
  rw [findFirst, hr]
  cases r with
  | none =>
    have hwhole : ¬ s.HasWhole value := lacks_iff.mp hsearched
    refine Iff.trans lacks_size_iff ?_
    rw [or_iff_right hwhole, and_iff_right hwhole]
  | some i =>
    obtain ⟨hfrom, hi, hbit, hbefore⟩ := hsearched
    exact iff_of_true ⟨hfrom, by omega, hbit, hbefore⟩ (.inl ⟨i, hi, Nat.zero_le i, hbit⟩)

theorem findsAnywhere_searched (hr : s.Searched value a (8 * (s.mSize / 8)) r)
    (hlacks : s.Lacks value 0 a) :
    s.FindsAnywhere value (some r) ↔ s.HasWhole value ∨ ¬ s.HasTrailing value := by
  cases r with
  | none =>
    have hwhole : ¬ s.HasWhole value := lacks_iff.mp (hlacks.append hr)
    refine Iff.trans lacks_size_iff ?_
    rw [or_iff_right hwhole, and_iff_right hwhole]
  | some i =>
    obtain ⟨-, hi, hbit, -⟩ := hr
    exact iff_of_true ⟨by omega, hbit⟩ (.inl ⟨i, hi, Nat.zero_le i, hbit⟩)

theorem findLoop_ends {last : Nat}
    (h : s.onePass address value last hint = some r) (hends : r ≠ none ∨ hint ≤ 8) :
    s.findLoop address value last hint = some r := by
  rw [findLoop, h]
  cases r with
  | some index => rfl
  | none => exact if_pos (hends.resolve_left (not_not_intro rfl))

theorem findLoop_again {last : Nat} (h : s.onePass address value last hint = some none)
    (hagain : ¬ hint ≤ 8) : s.findLoop address value last hint =
      s.findLoop address value (alignDown (address + hint / 8)) 0 := by
  rw [findLoop, h]
  exact if_neg hagain

theorem findLoop_none {last : Nat} (h : s.onePass address value last hint = none) :
    s.findLoop address value last hint = none := by
  rw [findLoop, h]

theorem Searched.hasWhole (h : s.Searched value a (8 * (s.mSize / 8)) r) (hsome : r ≠ none) :
    s.HasWhole value := by
  cases r with
  | none => exact absurd rfl hsome
  | some i => exact ⟨i, h.2.1, Nat.zero_le i, h.2.2.1⟩

/-- The search begins in the bitmap, and comes back for what lies before. -/
theorem findLoop_inside (hhint : hint < s.mSize) (hinside : ¬ BeginsBefore address hint) :
    s.FindsAnywhere value (s.findLoop address value (address + s.mSize / 8) hint) ↔
      s.Reaches address value hint := by
  have hreaches : s.Reaches address value hint ↔
      if s.HasWhole value then address % 8 = 7 → hint = 8 → s.Has value 8 (8 * (s.mSize / 8))
      else ¬ s.HasTrailing value := by
    rw [Reaches]
    split
    · rfl
    · rw [if_neg fun h => hinside h.1, if_neg fun h => hinside h.1]
  unfold BeginsBefore at hinside
  obtain ⟨b, hb⟩ := Nat.exists_eq_add_of_le (Nat.le_of_not_lt hinside)
  obtain ⟨c, hc⟩ : ∃ c, alignDown (address + s.mSize / 8) = address + c := by
    refine Nat.exists_eq_add_of_le ?_
    unfold alignDown at hb ⊢
    omega
  have hbc : b ≤ c ∧ c ≤ s.mSize / 8 ∧ b ≤ hint / 8 := by
    unfold alignDown at hb hc
    omega
  obtain ⟨r, hr, hsearched⟩ := onePass_inside value hb hc hbc.1 hbc.2.1
  rw [hreaches]
  cases r with
  | some i =>
    rw [findLoop_ends hr (.inl (some_ne_none i))]
    have hwhole := hsearched.hasWhole (some_ne_none i)
    obtain ⟨hfrom, hi, hbit, -⟩ := hsearched
    rw [if_pos hwhole]
    refine iff_of_true ⟨by omega, hbit⟩ fun haddress height => ⟨i, hi, ?_, hbit⟩
    unfold alignDown at hb
    omega
  | none =>
    by_cases hsmall : hint ≤ 8
    · -- the search ends, and leaves out the first byte when the second is a word's first
      rw [findLoop_ends hr (.inr hsmall)]
      refine Iff.trans lacks_size_iff ?_
      by_cases hwhole : s.HasWhole value
      · rw [if_pos hwhole, iff_false_left fun h => h.1 hwhole]
        obtain ⟨i, hi, -, hbit⟩ := hwhole
        have hbefore : i < 8 * b := by
          by_contra hge
          exact hsearched i (Nat.le_of_not_lt hge) hi hbit
        intro h
        have hfirst : address % 8 = 7 ∧ hint = 8 ∧ b = 1 := by
          unfold alignDown at hb
          omega
        obtain ⟨k, hk, hfrom, hset⟩ := h hfirst.1 hfirst.2.1
        exact hsearched k (by omega) hk hset
      · rw [if_neg hwhole, and_iff_right hwhole]
    · rw [findLoop_again hr hsmall]
      have hlast : alignDown (alignDown (address + hint / 8)) = address + b := by
        rw [hb]
        unfold alignDown at hb ⊢
        omega
      have hagain : ∃ r, s.onePass address value (alignDown (address + hint / 8)) 0 = some r ∧
          s.Searched value 0 (8 * (s.mSize / 8)) r := by
        by_cases haligned : address % 8 = 0
        · have hptr : alignDown (address + 0 / 8) = address + 0 := by
            unfold alignDown
            omega
          exact onePass_inside value hptr hlast (Nat.zero_le b) (by omega)
        · have hptr : alignDown (address + 0 / 8) < address := by
            unfold alignDown
            omega
          have hnext : alignDown (address + 0 / 8) + 8 = address + (8 - address % 8) := by
            unfold alignDown
            omega
          refine onePass_before value hptr hnext hlast ?_ (by omega)
          unfold alignDown at hb
          omega
      obtain ⟨r, hr, hsearched⟩ := hagain
      rw [findLoop_ends hr (.inr (Nat.zero_le 8)),
        findsAnywhere_searched hsearched fun i hfrom hi => by omega]
      by_cases hwhole : s.HasWhole value
      · rw [if_pos hwhole]
        exact iff_of_true (.inl hwhole) fun _ height => absurd (Nat.le_of_eq height) hsmall
      · rw [if_neg hwhole, or_iff_right hwhole]

/-! ## Searches that begin before the bitmap -/

/-- The first bit that equals the value is not in a whole byte. -/
theorem findsAnywhere_trailing {j : Nat} (hj : s.bit (8 * i + j) = value)
    (hlacks : s.Lacks value 0 (8 * i + j)) (hwhole : ¬ s.HasWhole value) :
    s.FindsAnywhere value (some (some (8 * i + j))) ↔ s.HasTrailing value := by
  have hfrom : 8 * (s.mSize / 8) ≤ 8 * i + j := by
    by_contra hlt
    exact hwhole ⟨8 * i + j, Nat.lt_of_not_le hlt, Nat.zero_le _, hj⟩
  constructor
  · exact fun h => ⟨8 * i + j, h.1, hfrom, hj⟩
  · rintro ⟨k, hk, hafter, hbit⟩
    refine ⟨?_, hj⟩
    by_contra hout
    exact hlacks k (Nat.zero_le k) (by omega) hbit

/-- A pass whose first whole word is past the last word that it is to search. -/
theorem searchWords_past {last : Nat} (hlast : alignDown last < address + b)
    (hlacks : s.Lacks value 0 (8 * (s.mSize / 8))) :
    s.FindsAnywhere value (s.searchWords address value last (address + b)) ↔
      s.HasTrailing value ∧ s.mSize / 8 + 1 = b + 8 := by
  have hwhole : ¬ s.HasWhole value := lacks_iff.mp hlacks
  have hnone : (alignDown last - (address + b)) / 8 = 0 := by omega
  rw [searchWords]
  simp only [hnone, scanWords, bind_eq_bind, bind_some, if_neg (Nat.ne_of_gt hlast)]
  by_cases hin : b + 8 ≤ s.sizeInBytes
  · have hle := sizeInBytes_le (s := s) (n := s.mSize / 8 + 1) (by omega)
    obtain ⟨word, hword, hbits⟩ := wordAt_add address hin
    have hoffset : address + b - address = b := by omega
    rw [hword, bind_some, hoffset]
    by_cases hfill : word = fill 64 value
    · rw [answer_fill hfill]
      refine iff_of_false id ?_
      rintro ⟨⟨k, hk, hfrom, hbit⟩, hsize⟩
      exact lacks_of_fill hbits hfill k (by omega) (by omega) hbit
    · obtain ⟨j, hanswer, hj, hbit, hbefore⟩ := answer_spec hbits hfill
      have hsize : s.mSize / 8 + 1 = b + 8 := by
        by_contra hne
        exact hlacks (8 * b + j) (Nat.zero_le _) (by omega) hbit
      have hlow : s.Lacks value 0 (8 * b) := fun k hfrom hk => hlacks k hfrom (by omega)
      rw [hanswer, and_iff_left hsize]
      exact findsAnywhere_trailing hbit (hlow.append hbefore) hwhole
  · have hfail : s.wordAt address (address + b) = none :=
      if_neg fun h => hin (by have hlength := s.length_mData; unfold sizeInBytes; omega)
    rw [hfail, bind_none]
    refine iff_of_false id ?_
    rintro ⟨⟨k, hk, hfrom, -⟩, hsize⟩
    have hbytes := le_sizeInBytes (s := s)
    omega

theorem findLoop_before (hhint : hint < s.mSize) (hbefore : BeginsBefore address hint)
    (hfits : 8 - address % 8 ≤ s.mSize / 8) :
    s.FindsAnywhere value (s.findLoop address value (address + s.mSize / 8) hint) ↔
      s.Reaches address value hint := by
  have hpos : address % 8 ≠ 0 ∧ hint / 8 < 8 - address % 8 := by
    unfold BeginsBefore alignDown at hbefore
    omega
  have hreaches : s.Reaches address value hint ↔
      if s.HasWhole value then True
      else if 8 < hint then s.HasTrailing value ∧ s.mSize / 8 + 1 = 8 - address % 8 + 8
      else ¬ s.HasTrailing value := by
    have hvacuous : (address % 8 = 7 → hint = 8 → s.Has value 8 (8 * (s.mSize / 8))) ↔ True :=
      iff_true_intro fun h h' => by omega
    simp only [Reaches, hvacuous, hbefore, true_and, if_neg (Nat.not_lt_of_le hfits)]
  unfold BeginsBefore at hbefore
  have hnext : alignDown (address + hint / 8) + 8 = address + (8 - address % 8) := by
    unfold alignDown
    omega
  obtain ⟨c, hc⟩ : ∃ c, alignDown (address + s.mSize / 8) = address + c := by
    refine Nat.exists_eq_add_of_le ?_
    unfold alignDown
    omega
  have hbc : 8 - address % 8 ≤ c ∧ c ≤ s.mSize / 8 := by
    unfold alignDown at hc
    omega
  obtain ⟨r, hr, hsearched⟩ := onePass_before value hbefore hnext hc hbc.1 hbc.2
  rw [hreaches]
  by_cases hends : r ≠ none ∨ hint ≤ 8
  · rw [findLoop_ends hr hends, findsAnywhere_searched hsearched fun i hfrom hi => by omega]
    by_cases hwhole : s.HasWhole value
    · rw [if_pos hwhole, iff_true]
      exact .inl hwhole
    · have hsmall := hends.resolve_left fun h => hwhole (hsearched.hasWhole h)
      rw [if_neg hwhole, if_neg (Nat.not_lt_of_le hsmall), or_iff_right hwhole]
  · -- the next pass has nothing to search before the first whole word
    obtain ⟨hnone, hbig⟩ := not_or.mp hends
    obtain rfl : r = none := not_not.mp hnone
    have hwhole : ¬ s.HasWhole value := lacks_iff.mp hsearched
    rw [if_neg hwhole, if_pos (Nat.lt_of_not_le hbig), findLoop_again hr hbig]
    have hptr : alignDown (address + 0 / 8) < address := by
      unfold alignDown
      omega
    have hstart : alignDown (address + 0 / 8) + 8 = address + (8 - address % 8) := by
      unfold alignDown
      omega
    have hoffset : address + (8 - address % 8) - address = 8 - address % 8 := by omega
    have hlast : alignDown (alignDown (address + hint / 8)) < address + (8 - address % 8) := by
      unfold alignDown at hbefore ⊢
      omega
    have hbytes := le_sizeInBytes (s := s)
    have hscan := scanBytes_lacks (s := s) (n := 8 - address % 8) (m := 0)
      (by omega) fun i hfrom hi => hsearched i hfrom (by omega)
    have hpass : s.onePass address value (alignDown (address + hint / 8)) 0 =
        s.searchWords address value (alignDown (address + hint / 8))
          (address + (8 - address % 8)) := by
      rw [onePass]
      rw [Nat.add_zero] at hscan
      simp only [if_pos hptr, hstart, hoffset, hscan, scanBytes, bind_eq_bind,
        bind_some, if_neg (Nat.lt_irrefl _)]
    have hresult : s.findLoop address value (alignDown (address + hint / 8)) 0 =
        s.onePass address value (alignDown (address + hint / 8)) 0 := by
      cases hrun : s.onePass address value (alignDown (address + hint / 8)) 0 with
      | none => exact findLoop_none hrun
      | some r => exact findLoop_ends hrun (.inr (Nat.zero_le 8))
    rw [hresult, hpass]
    exact searchWords_past hlast hsearched

/-- The scan of the bytes before the first whole word runs past the last whole byte. -/
theorem findLoop_short (hbefore : BeginsBefore address hint)
    (hshort : s.mSize / 8 < 8 - address % 8) :
    s.FindsAnywhere value (s.findLoop address value (address + s.mSize / 8) hint) ↔
      s.Reaches address value hint := by
  have hbytes := le_sizeInBytes (s := s)
  have hle := sizeInBytes_le (s := s) (n := s.mSize / 8 + 1) (by omega)
  have hpos : address % 8 ≠ 0 ∧ hint / 8 < 8 - address % 8 := by
    unfold BeginsBefore alignDown at hbefore
    omega
  have hreaches : s.Reaches address value hint ↔ s.HasWhole value ∨ s.HasTrailing value := by
    rw [Reaches]
    split
    · rename_i hwhole
      exact iff_of_true (fun h h' => by omega) (.inl hwhole)
    · rename_i hwhole
      rw [if_pos ⟨hbefore, hshort⟩, or_iff_right hwhole]
  unfold BeginsBefore at hbefore
  have hnext : alignDown (address + hint / 8) + 8 = address + (8 - address % 8) := by
    unfold alignDown
    omega
  have hoffset : address + (8 - address % 8) - address = 8 - address % 8 := by omega
  obtain ⟨m, hm⟩ := Nat.exists_eq_add_of_lt hshort
  have hpass : s.onePass address value (address + s.mSize / 8) hint =
      (s.scanBytes value (s.mSize / 8 + (m + 1)) 0).bind fun i =>
        if i < 8 - address % 8 then s.answerByte value i
        else s.searchWords address value (address + s.mSize / 8) (address + (8 - address % 8)) := by
    have hcount : 8 - address % 8 = s.mSize / 8 + (m + 1) := hm
    rw [← hcount, onePass]
    simp only [if_pos hbefore, hnext, hoffset, bind_eq_bind]
  rw [hreaches]
  by_cases hwhole : s.HasWhole value
  · refine iff_of_true ?_ (.inl hwhole)
    obtain ⟨k, heq, -, hk, hlacks, hstop⟩ := scanBytes_spec value (s := s) (i := 0)
      (n := s.mSize / 8) (by omega)
    have hlt : k < 0 + s.mSize / 8 := by
      by_contra hge
      obtain ⟨j, hj, hfrom, hbit⟩ := hwhole
      exact hlacks j hfrom (by omega) hbit
    obtain ⟨byte, hbyte, hne⟩ := hstop hlt
    obtain ⟨j, hanswer, hj, hbit, -⟩ := answerByte_spec hbyte hne
    have hrun : s.onePass address value (address + s.mSize / 8) hint = some (some (8 * k + j)) := by
      rw [hpass, scanBytes_add, heq, bind_some, if_neg (Nat.ne_of_lt hlt), bind_some,
        if_pos (by omega), hanswer]
    rw [findLoop_ends hrun (.inl (some_ne_none _))]
    exact ⟨by omega, hbit⟩
  · rw [or_iff_right hwhole]
    have hlacks : s.Lacks value 0 (8 * (s.mSize / 8)) := lacks_iff.mpr hwhole
    rw [scanBytes_lacks (by omega) hlacks, scanBytes] at hpass
    cases hbyte : s.mData[s.mSize / 8]? with
    | none =>
      rw [hbyte] at hpass
      rw [findLoop_none hpass]
      refine iff_of_false id ?_
      rintro ⟨k, hk, hfrom, -⟩
      obtain ⟨byte, hsome⟩ := exists_byte (s := s) (k := s.mSize / 8) (by omega)
      rw [hsome] at hbyte
      cases hbyte
    | some byte =>
      rw [hbyte, bind_eq_bind, bind_some] at hpass
      by_cases hfill : byte = fill 8 value
      · have hnone : s.mData[s.mSize / 8 + 1]? = none := no_byte hle
        have hfail : s.onePass address value (address + s.mSize / 8) hint = none := by
          rw [hpass, if_pos hfill]
          cases m with
          | zero =>
            have hlast : alignDown (address + s.mSize / 8) < address + (8 - address % 8) := by
              unfold alignDown
              omega
            have hcount : (alignDown (address + s.mSize / 8) - (address + (8 - address % 8))) / 8
                = 0 := by omega
            have hword : s.wordAt address (address + (8 - address % 8)) = none :=
              if_neg fun h => by
                have hlength := s.length_mData
                unfold sizeInBytes at hle
                omega
            rw [scanBytes, bind_some, if_neg (by omega), searchWords]
            simp only [hcount, scanWords, bind_eq_bind, bind_some,
              if_neg (Nat.ne_of_gt hlast), hword, bind_none]
          | succ m => rw [scanBytes, hnone]; rfl
        rw [findLoop_none hfail]
        refine iff_of_false id ?_
        rintro ⟨k, hk, hfrom, hbit⟩
        exact lacks_of_fill (bits_byte hbyte) hfill k hfrom (by omega) hbit
      · obtain ⟨j, hanswer, hj, hbit, hbefore⟩ := answerByte_spec hbyte hfill
        rw [if_neg hfill, bind_some, if_pos hshort, hanswer] at hpass
        rw [findLoop_ends hpass (.inl (some_ne_none _))]
        exact findsAnywhere_trailing hbit (hlacks.append hbefore) hwhole

/-- When the searches find what they are to find. -/
theorem finds_iff (s : BitmapView) (value : Bool) :
    (s.FindsFirst value (s.findFirst value) ↔ s.HasWhole value ∨ ¬ s.HasTrailing value) ∧
      ∀ address hint, hint < s.mSize →
        (s.FindsAnywhere value (s.findOneAnywhere address value hint) ↔
          s.Reaches address value hint) := by
  refine ⟨findFirst_iff s value, fun address hint hhint => ?_⟩
  rw [findOneAnywhere, if_neg (not_not_intro hhint)]
  by_cases hbefore : BeginsBefore address hint
  · rcases Nat.lt_or_ge (s.mSize / 8) (8 - address % 8) with hshort | hfits
    · exact findLoop_short hbefore hshort
    · exact findLoop_before hhint hbefore hfits
  · exact findLoop_inside hhint hbefore

theorem finds_iff_nine : let s : BitmapView := ⟨[0x00, 0x01], 9, rfl, by decide⟩
    (s.FindsFirst true (s.findFirst true) ↔ s.HasWhole true ∨ ¬ s.HasTrailing true) ∧
      (s.FindsAnywhere true (s.findOneAnywhere 5 true 3) ↔ s.Reaches 5 true 3) :=
  ⟨(finds_iff _ true).1, (finds_iff _ true).2 5 3 (by decide)⟩

/-- The set bit is in the byte that is not whole. -/
theorem not_findsFirst :
    ¬ ∀ (s : BitmapView) (value : Bool), s.FindsFirst value (s.findFirst value) ∧
      ∀ address hint, hint < s.mSize →
        s.FindsAnywhere value (s.findOneAnywhere address value hint) := by
  intro h
  have hwhole := (findFirst_iff ⟨[0x00, 0x01], 9, rfl, by decide⟩ true).mp (h _ true).1
  exact absurd hwhole (by decide)

end Literate.AK.BitmapView

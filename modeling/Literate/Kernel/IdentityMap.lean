import Mathlib.Data.List.Perm.Subperm
import Literate.Kernel.MMU

/-!
# Kernel: the identity map

The tables of `Kernel.MMU` as a radix tree.  The page number `n = addr / 4096` is read in
four digits of base 512; the table of level `l` for the key `k` holds the entries of the
keys `512 * k` to `512 * k + 511` of the next level.  `Layout` says where the tables lie
and that no page is used twice, `Maps` what their entries are.
-/

namespace Literate.Kernel.MMU

open Function List Option Nat
open Function (update)

/-! ## Words and pages -/

variable {page page' i' a words n : Nat} {key : Nat × Nat}

theorem word_inj {i : Nat} (hpage : page % 4096 = 0) (hpage' : page' % 4096 = 0)
    (hi : i < 512) (hi' : i' < 512) (h : page + 8 * i = page' + 8 * i') : page = page' ∧ i = i' := by
  omega

section

variable (memory : Memory)

theorem zeroWords_of_lt (words : Nat) {p : Nat} (ha : a < p) :
    zeroWords memory p words a = memory a := by
  induction words generalizing memory p with
  | zero => rfl
  | succ words ih => rw [zeroWords, ih _ (by omega), update_of_ne (by omega)]

theorem zeroWords_self (p : Nat) {i : Nat} (hi : i < words) :
    zeroWords memory p words (p + 8 * i) = 0 := by
  induction words generalizing memory p i with
  | zero => exact absurd hi (Nat.not_lt_zero i)
  | succ words ih =>
    rw [zeroWords]
    cases i with
    | zero => exact (zeroWords_of_lt _ _ (by omega)).trans (update_self ..)
    | succ i =>
      have hword : p + 8 * (i + 1) = p + 8 + 8 * i := by omega
      rw [hword, ih _ _ (by omega)]

theorem zeroWords_of_ne (p : Nat) (ha : ∀ i < words, a ≠ p + 8 * i) :
    zeroWords memory p words a = memory a := by
  induction words generalizing memory p with
  | zero => rfl
  | succ words ih =>
    have hfirst := ha 0 (succ_pos words)
    rw [zeroWords, ih _ _ fun i hi => ?_, update_of_ne (by omega)]
    have hnext := ha (i + 1) (by omega)
    omega

theorem zeroPage_self (page : Nat) {i : Nat} (hi : i < 512) :
    zeroPage memory page (page + 8 * i) = 0 :=
  zeroWords_self memory page hi

theorem zeroPage_of_ne {i : Nat} (hpage : page % 4096 = 0)
    (hpage' : page' % 4096 = 0) (hi : i < 512) (hne : page' ≠ page) :
    zeroPage memory page (page' + 8 * i) = memory (page' + 8 * i) := by
  apply zeroWords_of_ne
  intro i' hi' heq
  exact hne (word_inj hpage' hpage hi hi' heq).1

end

/-! ## Descriptors -/

/-- The entry for a table. -/
def descriptor : Option Nat → Nat
  | none => 0
  | some page => page ||| tableDescriptor

theorem or_tableDescriptor (hpage : page % 4096 = 0) : page ||| tableDescriptor = page + 3 := by
  obtain ⟨q, rfl⟩ := dvd_of_mod_eq_zero hpage
  exact (two_pow_add_eq_or_of_lt (by decide : 3 < 2 ^ 12) q).symm

theorem testBit_descriptorMask (i : Nat) :
    descriptorMask.testBit i = (decide (2 ≤ i) && decide (i < 32)) := by
  have hmask : descriptorMask = (2 ^ 30 - 1) <<< 2 := by decide
  simp only [hmask, testBit_shiftLeft, testBit_two_pow_sub_one, ← Bool.decide_and]
  exact decide_eq_decide.mpr (by omega)

theorem descriptorToPointer_or (hpage : page % 4096 = 0) (hbelow : page < 2 ^ 32) :
    descriptorToPointer (page ||| tableDescriptor) = page := by
  apply eq_of_testBit_eq
  intro i
  have hlow : tableDescriptor = 2 ^ 2 - 1 := rfl
  rw [descriptorToPointer, testBit_and, testBit_or, testBit_descriptorMask, hlow,
    testBit_two_pow_sub_one]
  rcases Nat.lt_or_ge i 2 with hlt | hge
  · have hbit : page.testBit i = false := by
      obtain ⟨q, rfl⟩ := dvd_of_mod_eq_zero hpage
      rw [show 4096 = 2 ^ 12 from rfl, testBit_two_pow_mul, decide_eq_false (by omega),
        Bool.false_and]
    rw [hbit, decide_eq_false (by omega : ¬ 2 ≤ i), Bool.false_and, Bool.and_false]
  · rw [decide_eq_false (by omega : ¬ i < 2), Bool.or_false, decide_eq_true hge, Bool.true_and]
    rcases Nat.lt_or_ge i 32 with hin | hout
    · rw [decide_eq_true hin, Bool.and_true]
    · have hbit : page.testBit i = false :=
        testBit_eq_false_of_lt
          (Nat.lt_of_lt_of_le hbelow (Nat.pow_le_pow_right Nat.two_pos hout))
      rw [hbit, Bool.false_and]

theorem nextTable_descriptor {page : Option Nat} (hpage : ∀ p ∈ page, p % 4096 = 0 ∧ p < 2 ^ 48) :
    nextTable (descriptor page) = page := by
  cases page with
  | none => rfl
  | some p =>
    obtain ⟨haligned, hbelow⟩ := hpage p rfl
    rw [descriptor, or_tableDescriptor haligned, nextTable, if_pos (by omega), some.injEq]
    omega

/-! ## Where the tables lie -/

/-- The table of a level and a key. -/
abbrev Tables := Nat × Nat → Option Nat

/-- The root table, and the pages from `first` on for the tables of `keys`, each its own. -/
structure Layout (pageTable first : Nat) (keys : List (Nat × Nat)) (tables : Tables) : Prop where
  root : tables (0, 0) = some pageTable
  mem_keys : ∀ {l k page}, tables (l + 1, k) = some page → (l + 1, k) ∈ keys
  lt_pages : ∀ {l k page}, tables (l + 1, k) = some page → page < first + 4096 * keys.length
  le_page : ∀ {l k page}, tables (l + 1, k) = some page → first ≤ page
  level_zero : ∀ {k page}, tables (0, k) = some page → page = pageTable
  aligned : ∀ {key page}, tables key = some page → page % 4096 = 0
  inj : ∀ {key key' page}, tables key = some page → tables key' = some page → key = key'
  orphan : ∀ {l k}, tables (l, k / 512) = none → tables (l + 1, k) = none
  ofKeys : ∀ {key}, key ∈ keys → tables key ≠ none
  nodup : keys.Nodup

/-- The pages of the allocator are apart from the root table and below 4 GiB. -/
structure Pool (pageTable first limit : Nat) : Prop where
  root_aligned : pageTable % 4096 = 0
  first_aligned : first % 4096 = 0
  limit_aligned : limit % 4096 = 0
  apart : pageTable + 4096 ≤ first ∨ limit ≤ pageTable
  below : limit ≤ 2 ^ 32

variable {pageTable first limit : Nat} {keys : List (Nat × Nat)} {tables : Tables} {l k i : Nat}

theorem Layout.fresh (h : Layout pageTable first keys tables) (pool : Pool pageTable first limit)
    (hroom : first + 4096 * keys.length < limit) (hpage : tables key = some page) :
    page ≠ first + 4096 * keys.length := by
  obtain ⟨l, k⟩ := key
  cases l with
  | zero =>
    have hroot := h.level_zero hpage
    have hapart := pool.apart
    omega
  | succ l =>
    have hlt := h.lt_pages hpage
    omega

theorem entry_key_inj {k' : Nat} (hi : i < 512) (hi' : i' < 512) (h : 512 * k + i = 512 * k' + i') :
    k = k' ∧ i = i' := by
  omega

theorem update_cases {new : Nat × Nat} (h : update tables new (some page) key = some page') :
    key = new ∧ page' = page ∨ key ≠ new ∧ tables key = some page' := by
  rcases eq_or_ne key new with rfl | hne
  · rw [update_self, some.injEq] at h
    exact .inl ⟨rfl, h.symm⟩
  · rw [update_of_ne hne] at h
    exact .inr ⟨hne, h⟩

theorem Layout.add (h : Layout pageTable first keys tables) (pool : Pool pageTable first limit)
    (hroom : first + 4096 * keys.length < limit) {table : Nat} (hparent : tables (l, k) = some table)
    (hi : i < 512) (hnone : tables (l + 1, 512 * k + i) = none) :
    Layout pageTable first (keys ++ [(l + 1, 512 * k + i)])
      (update tables (l + 1, 512 * k + i) (some (first + 4096 * keys.length))) where
  root := by
    rw [update_of_ne fun heq => succ_ne_zero l (Prod.mk.inj heq).1.symm]
    exact h.root
  mem_keys hpage := by
    rcases update_cases hpage with ⟨hkey, -⟩ | ⟨-, hpage⟩
    · rw [hkey]
      exact mem_append_right _ (mem_singleton_self _)
    · exact mem_append_left _ (h.mem_keys hpage)
  lt_pages hpage := by
    rw [length_append, length_singleton]
    rcases update_cases hpage with ⟨-, hnew⟩ | ⟨-, hpage⟩
    · omega
    · have hlt := h.lt_pages hpage
      omega
  le_page hpage := by
    rcases update_cases hpage with ⟨-, hnew⟩ | ⟨-, hpage⟩
    · omega
    · exact h.le_page hpage
  level_zero hpage := by
    rcases update_cases hpage with ⟨hkey, -⟩ | ⟨-, hpage⟩
    · exact absurd (Prod.mk.inj hkey).1.symm (succ_ne_zero l)
    · exact h.level_zero hpage
  aligned hpage := by
    rcases update_cases hpage with ⟨-, hnew⟩ | ⟨-, hpage⟩
    · have haligned := pool.first_aligned
      omega
    · exact h.aligned hpage
  inj hpage hpage' := by
    rcases update_cases hpage with ⟨hkey, hnew⟩ | ⟨-, hpage⟩
    · rcases update_cases hpage' with ⟨hkey', -⟩ | ⟨-, hpage'⟩
      · rw [hkey, hkey']
      · exact absurd hnew (h.fresh pool hroom hpage')
    · rcases update_cases hpage' with ⟨-, hnew⟩ | ⟨-, hpage'⟩
      · exact absurd hnew (h.fresh pool hroom hpage)
      · exact h.inj hpage hpage'
  orphan {l' k'} hparentNone := by
    have hne : (l' + 1, k') ≠ (l + 1, 512 * k + i) := by
      intro heq
      obtain ⟨hl, hk⟩ := Prod.mk.inj heq
      have hkey : (l', k' / 512) = (l, k) := Prod.ext (by omega) (by omega)
      have hother : (l, k) ≠ (l + 1, 512 * k + i) :=
        fun heq => Nat.succ_ne_self l (Prod.mk.inj heq).1.symm
      rw [hkey, update_of_ne hother, hparent] at hparentNone
      exact some_ne_none _ hparentNone
    rw [update_of_ne hne]
    apply h.orphan
    rcases eq_or_ne (l', k' / 512) (l + 1, 512 * k + i) with heq | hother
    · rw [heq]
      exact hnone
    · rwa [update_of_ne hother] at hparentNone
  ofKeys {key} hmem := by
    rcases eq_or_ne key (l + 1, 512 * k + i) with rfl | hne
    · rw [update_self]
      exact some_ne_none _
    · rw [update_of_ne hne]
      rcases mem_append.mp hmem with hold | hnew
      · exact h.ofKeys hold
      · exact absurd (mem_singleton.mp hnew) hne
  nodup := by
    refine nodup_append.mpr ⟨h.nodup, pairwise_singleton _ _, ?_⟩
    intro key hold key' hnew heq
    rw [mem_singleton] at hnew
    rw [heq, hnew] at hold
    exact h.ofKeys hold hnone

/-! ## What their entries are -/

/-- The entries of the tables, with those of the last level in `leaf`. -/
structure Maps (memory : Memory) (tables : Tables) (leaf : Nat → Nat) : Prop where
  inner : ∀ {l k page i}, l < 3 → tables (l, k) = some page → i < 512 →
    memory (page + 8 * i) = descriptor (tables (l + 1, 512 * k + i))
  last : ∀ {k page i}, tables (3, k) = some page → i < 512 →
    memory (page + 8 * i) = leaf (512 * k + i)
  unmapped : ∀ {n}, tables (3, n / 512) = none → leaf n = 0

variable {memory : Memory} {leaf : Nat → Nat}

theorem Maps.add (h : Maps memory tables leaf) (layout : Layout pageTable first keys tables)
    (pool : Pool pageTable first limit) (hroom : first + 4096 * keys.length < limit) {table : Nat}
    (hl : l < 3) (hparent : tables (l, k) = some table) (hi : i < 512)
    (hnone : tables (l + 1, 512 * k + i) = none) :
    Maps (update (zeroPage memory (first + 4096 * keys.length)) (table + 8 * i)
        ((first + 4096 * keys.length) ||| tableDescriptor))
      (update tables (l + 1, 512 * k + i) (some (first + 4096 * keys.length))) leaf := by
  have hfirst := pool.first_aligned
  have hnew : (first + 4096 * keys.length) % 4096 = 0 := by omega
  have htable := layout.aligned hparent
  -- the words of the tables there are, and those of the new one
  have hother : ∀ {key page j}, tables key = some page → j < 512 → (key ≠ (l, k) ∨ j ≠ i) →
      update (zeroPage memory (first + 4096 * keys.length)) (table + 8 * i)
        ((first + 4096 * keys.length) ||| tableDescriptor) (page + 8 * j) =
          memory (page + 8 * j) := by
    intro key page j hpage hj hne
    rw [update_of_ne, zeroPage_of_ne _ hnew (layout.aligned hpage) hj
      (layout.fresh pool hroom hpage)]
    intro heq
    obtain ⟨hsame, hij⟩ := word_inj (layout.aligned hpage) htable hj hi heq
    rw [hsame] at hpage
    exact hne.elim (fun hkey => hkey (layout.inj hpage hparent)) fun hji => hji hij
  have hzero : ∀ {j}, j < 512 →
      update (zeroPage memory (first + 4096 * keys.length)) (table + 8 * i)
        ((first + 4096 * keys.length) ||| tableDescriptor)
          (first + 4096 * keys.length + 8 * j) = 0 := by
    intro j hj
    rw [update_of_ne, zeroPage_self _ _ hj]
    intro heq
    exact layout.fresh pool hroom hparent (word_inj hnew htable hj hi heq).1.symm
  constructor
  · intro l' k' page j hl' hpage hj
    rcases update_cases hpage with ⟨hkey, rfl⟩ | ⟨-, hpage⟩
    · -- the new table has no tables of its own
      obtain ⟨rfl, rfl⟩ := Prod.mk.inj hkey
      have hchild : tables (l + 1 + 1, 512 * (512 * k + i) + j) = none := by
        apply layout.orphan
        have hkey : (512 * (512 * k + i) + j) / 512 = 512 * k + i := by omega
        rwa [hkey]
      rw [hzero hj, update_of_ne fun heq => Nat.succ_ne_self _ (Prod.mk.inj heq).1, hchild,
        descriptor]
    · rcases eq_or_ne (l' + 1, 512 * k' + j) (l + 1, 512 * k + i) with heq | hne
      · obtain ⟨hlevel, hkeys⟩ := Prod.mk.inj heq
        obtain ⟨hk, hij⟩ := entry_key_inj hj hi hkeys
        rw [Nat.succ.inj hlevel, hk, hparent, some.injEq] at hpage
        rw [heq, update_self, descriptor, ← hpage, hij, update_self]
      · rw [update_of_ne hne, hother hpage hj, h.inner hl' hpage hj]
        by_contra hboth
        simp only [not_or, not_not] at hboth
        obtain ⟨hkey, rfl⟩ := hboth
        obtain ⟨rfl, rfl⟩ := Prod.mk.inj hkey
        exact hne rfl
  · intro k' page j hpage hj
    rcases update_cases hpage with ⟨hkey, rfl⟩ | ⟨-, hpage⟩
    · have hempty : tables (3, (512 * k' + j) / 512) = none := by
        have hdiv : (512 * k' + j) / 512 = k' := by omega
        rw [hdiv, hkey]
        exact hnone
      rw [hzero hj, h.unmapped hempty]
    · rw [hother hpage hj (.inl fun heq => by have := (Prod.mk.inj heq).1; omega), h.last hpage hj]
  · intro n hn
    apply h.unmapped
    rcases eq_or_ne (3, n / 512) (l + 1, 512 * k + i) with heq | hne
    · rw [heq]
      exact hnone
    · rwa [update_of_ne hne] at hn

theorem Maps.setLeaf (h : Maps memory tables leaf) (layout : Layout pageTable first keys tables)
    (n entry : Nat) (hpage : tables (3, n / 512) = some page) :
    Maps (update memory (page + 8 * (n % 512)) entry) tables
      (update leaf n entry) := by
  have hn : n % 512 < 512 := mod_lt _ (by decide)
  have hother : ∀ {key page' j}, tables key = some page' → j < 512 →
      (key ≠ (3, n / 512) ∨ j ≠ n % 512) →
      update memory (page + 8 * (n % 512)) entry (page' + 8 * j) =
        memory (page' + 8 * j) := by
    intro key page' j hpage' hj hne
    rw [update_of_ne]
    intro heq
    obtain ⟨hsame, hij⟩ := word_inj (layout.aligned hpage') (layout.aligned hpage) hj hn heq
    rw [hsame] at hpage'
    exact hne.elim (fun hkey => hkey (layout.inj hpage' hpage)) fun hji => hji hij
  constructor
  · intro l k page' j hl hpage' hj
    rw [hother hpage' hj (.inl fun heq => by have := (Prod.mk.inj heq).1; omega),
      h.inner hl hpage' hj]
  · intro k page' j hpage' hj
    rcases eq_or_ne (512 * k + j) n with rfl | hne
    · have hdiv : (512 * k + j) / 512 = k := by omega
      have hmod : (512 * k + j) % 512 = j := by omega
      rw [hdiv, hpage', some.injEq] at hpage
      simp only [hmod, ← hpage, update_self]
    · rw [hother hpage' hj, update_of_ne hne, h.last hpage' hj]
      by_contra hboth
      simp only [not_or, not_not] at hboth
      obtain ⟨hkey, hj'⟩ := hboth
      have hk := (Prod.mk.inj hkey).2
      omega
  · intro n' hn'
    rcases eq_or_ne n' n with rfl | hne
    · rw [hpage] at hn'
      exact absurd hn' (some_ne_none _)
    · rw [update_of_ne hne, h.unmapped hn']

/-! ## The loop -/

/-- The pages from `first` on were taken after `old`, one after the other and zeroed. -/
structure TakenAfter (old taken : List Taken) (first count : Nat) : Prop where
  split : ∃ new, taken = old ++ new ∧
    new.map Taken.page = (List.range count).map (fun i => first + 4096 * i) ∧
      ∀ t ∈ new, ∀ i < 512, t.memory (t.page + 8 * i) = 0

/-- What holds between two entries, with the pages of the allocator from `first` to `limit`. -/
structure Invariant (s : State) (old : List Taken) (pageTable first limit : Nat)
    (needed : Nat × Nat → Prop) (keys : List (Nat × Nat)) (tables : Tables) (leaf : Nat → Nat) :
    Prop where
  layout : Layout pageTable first keys tables
  maps : Maps s.memory tables leaf
  current : s.mCurrent = first + 4096 * keys.length
  limit_eq : s.mEnd = limit
  needs : ∀ key ∈ keys, needed key
  taken : TakenAfter old s.taken first keys.length

/-- There is a page for each of the needed tables. -/
def LargeEnough (first limit : Nat) (needed : Nat × Nat → Prop) : Prop :=
  ∀ keys : List (Nat × Nat), keys.Nodup → (∀ key ∈ keys, needed key) →
    first + 4096 * keys.length ≤ limit

variable {s : State} {old : List Taken} {needed : Nat × Nat → Prop} {table : Nat}

theorem ensureTable_of_ne (hne : s.memory (table + 8 * i) ≠ 0) : s.ensureTable table i = some s := by
  rw [State.ensureTable]
  exact if_neg hne

theorem takePage_of_ne (hroom : s.mCurrent ≠ s.mEnd) : s.takePage = some (s.mCurrent, { s with
      memory := zeroPage s.memory s.mCurrent
      mCurrent := s.mCurrent + 4096
      taken := s.taken ++ [⟨s.mCurrent, zeroPage s.memory s.mCurrent⟩] }) := by
  rw [State.takePage, if_neg hroom]

theorem ensureTable_of_zero (hzero : s.memory (table + 8 * i) = 0) (hroom : s.mCurrent ≠ s.mEnd) :
    s.ensureTable table i = some { s with
      memory := update (zeroPage s.memory s.mCurrent) (table + 8 * i)
        (s.mCurrent ||| tableDescriptor)
      mCurrent := s.mCurrent + 4096
      taken := s.taken ++ [⟨s.mCurrent, zeroPage s.memory s.mCurrent⟩] } := by
  rw [State.ensureTable]
  rw [if_pos hzero, takePage_of_ne hroom, map_some]
  dsimp only [State.store]
  rw [update_self, update_idem]

theorem TakenAfter.add {taken : List Taken} {count : Nat}
    (h : TakenAfter old taken first count) (memory : Memory) :
    TakenAfter old (taken ++ [⟨first + 4096 * count, zeroPage memory (first + 4096 * count)⟩]) first
      (count + 1) := by
  obtain ⟨new, rfl, hpages, hzeroed⟩ := h.split
  refine ⟨_, List.append_assoc .., ?_, ?_⟩
  · simp only [map_append, hpages, List.range_succ]
    rfl
  · intro t ht i hi
    rcases mem_append.mp ht with hold | hnew
    · exact hzeroed t hold i hi
    · rw [mem_singleton.mp hnew]
      dsimp only
      rw [zeroPage_self _ _ hi]

section

variable (h : Invariant s old pageTable first limit needed keys tables leaf)

include h

theorem Invariant.room
    (large : LargeEnough first limit needed) (hnone : tables key = none) (hneeded : needed key) :
    first + 4096 * keys.length < limit := by
  have hnodup : (keys ++ [key]).Nodup := by
    refine nodup_append.mpr ⟨h.layout.nodup, pairwise_singleton _ _, ?_⟩
    intro key' hold key'' hnew heq
    rw [mem_singleton] at hnew
    rw [heq, hnew] at hold
    exact h.layout.ofKeys hold hnone
  have hle := large (keys ++ [key]) hnodup fun key' hmem => by
    rcases mem_append.mp hmem with hold | hnew
    · exact h.needs key' hold
    · exact mem_singleton.mp hnew ▸ hneeded
  rw [length_append, length_singleton] at hle
  omega

/-- The tables are below 4 GiB, but for the root table. -/
theorem Invariant.page_lt
    (pool : Pool pageTable first limit) (large : LargeEnough first limit needed)
    (hpage : tables (l + 1, k) = some page) : page < 2 ^ 32 := by
  have hlt := h.layout.lt_pages hpage
  have hle := large keys h.layout.nodup h.needs
  have hbelow := pool.below
  omega

/-- The entry of an inner table leads to the table of its key, which is there afterwards. -/
theorem Invariant.ensureTable
    (pool : Pool pageTable first limit) (large : LargeEnough first limit needed) (hl : l < 3)
    (hparent : tables (l, k) = some table) (hi : i < 512) (hneeded : needed (l + 1, 512 * k + i)) :
    ∃ s' keys' tables' page, s.ensureTable table i = some s' ∧
      Invariant s' old pageTable first limit needed keys' tables' leaf ∧ keys ⊆ keys' ∧
      tables' (l + 1, 512 * k + i) = some page ∧
      descriptorToPointer (s'.memory (table + 8 * i)) = page := by
  have hentry := h.maps.inner hl hparent hi
  cases hchild : tables (l + 1, 512 * k + i) with
  | some page =>
    have haligned := h.layout.aligned hchild
    rw [hchild, descriptor] at hentry
    refine ⟨s, keys, tables, page, ensureTable_of_ne ?_, h, List.Subset.refl _, hchild, ?_⟩
    · rw [hentry, or_tableDescriptor haligned]
      omega
    · rw [hentry, descriptorToPointer_or haligned (h.page_lt pool large hchild)]
  | none =>
    have hroom := h.room large hchild hneeded
    have hlayout := h.layout.add pool hroom hparent hi hchild
    have hmaps := h.maps.add h.layout pool hroom hl hparent hi hchild
    have hzero : s.memory (table + 8 * i) = 0 := by rw [hentry, hchild, descriptor]
    have hmEnd : s.mCurrent ≠ s.mEnd := by
      rw [h.current, h.limit_eq]
      omega
    have hfirst := pool.first_aligned
    have hbelow := pool.below
    refine ⟨_, _, _, _, ensureTable_of_zero hzero hmEnd, ⟨hlayout, ?_, ?_, h.limit_eq, ?_, ?_⟩,
      subset_append_left _ _, update_self .., ?_⟩
    · rw [h.current]
      exact hmaps
    · dsimp only
      rw [h.current, length_append, length_singleton]
      omega
    · intro key hmem
      rcases mem_append.mp hmem with hold | hnew
      · exact h.needs key hold
      · exact mem_singleton.mp hnew ▸ hneeded
    · dsimp only
      rw [h.current, length_append, length_singleton]
      exact h.taken.add s.memory
    · dsimp only
      rw [update_self, h.current, descriptorToPointer_or (by omega) (by omega)]

end

/-- The tables on the way to the entry of a page. -/
def OnWay (n : Nat) (key : Nat × Nat) : Prop :=
  key = (1, n / 2 ^ 27) ∨ key = (2, n / 2 ^ 18) ∨ key = (3, n / 2 ^ 9)

theorem index_eq (addr shift : Nat) : (addr >>> shift) &&& 0x1ff = addr / 2 ^ shift % 512 := by
  rw [Nat.shiftRight_eq_div_pow]
  exact and_two_pow_sub_one_eq_mod _ 9

/-- The body of the loop sets the entry of its page, and no other. -/
theorem Invariant.insertEntry (h : Invariant s old pageTable first limit needed keys tables leaf)
    (pool : Pool pageTable first limit) (large : LargeEnough first limit needed)
    (hn : n < 2 ^ 36) (hneeded : ∀ key, OnWay n key → needed key) (flags : Nat) :
    ∃ s' keys' tables', s.insertEntry pageTable (4096 * n) flags = some s' ∧
      Invariant s' old pageTable first limit needed keys' tables'
        (update leaf n (4096 * n ||| flags)) ∧ keys ⊆ keys' ∧ (3, n / 2 ^ 9) ∈ keys' := by
  have hkey1 : 512 * 0 + 4096 * n / 2 ^ 39 % 512 = n / 2 ^ 27 := by omega
  have hkey2 : 512 * (n / 2 ^ 27) + 4096 * n / 2 ^ 30 % 512 = n / 2 ^ 18 := by omega
  have hkey3 : 512 * (n / 2 ^ 18) + 4096 * n / 2 ^ 21 % 512 = n / 2 ^ 9 := by omega
  have hindex : 4096 * n / 2 ^ 12 % 512 = n % 512 := by omega
  have hlt : ∀ x : Nat, x % 512 < 512 := fun x => mod_lt x (by decide)
  obtain ⟨s1, keys1, tables1, page1, hs1, h1, hkeys1, hpage1, hpointer1⟩ :=
    h.ensureTable pool large (by decide : 0 < 3) h.layout.root (hlt (4096 * n / 2 ^ 39))
      (hneeded _ (.inl (by rw [hkey1])))
  rw [hkey1] at hpage1
  obtain ⟨s2, keys2, tables2, page2, hs2, h2, hkeys2, hpage2, hpointer2⟩ :=
    h1.ensureTable pool large (by decide : 1 < 3) hpage1 (hlt (4096 * n / 2 ^ 30))
      (hneeded _ (.inr (.inl (by rw [hkey2]))))
  rw [hkey2] at hpage2
  obtain ⟨s3, keys3, tables3, page3, hs3, h3, hkeys3, hpage3, hpointer3⟩ :=
    h2.ensureTable pool large (by decide : 2 < 3) hpage2 (hlt (4096 * n / 2 ^ 21))
      (hneeded _ (.inr (.inr (by rw [hkey3]))))
  rw [hkey3] at hpage3
  refine ⟨s3.store (page3 + 8 * (n % 512)) (4096 * n ||| flags), keys3, tables3, ?_,
    ⟨h3.layout, h3.maps.setLeaf h3.layout n (4096 * n ||| flags) hpage3, h3.current, h3.limit_eq,
      h3.needs, h3.taken⟩, List.Subset.trans (List.Subset.trans hkeys1 hkeys2) hkeys3,
    h3.layout.mem_keys hpage3⟩
  simp only [State.insertEntry, index_eq]
  dsimp only [bind, Option.bind]
  rw [hs1]
  dsimp only
  rw [hpointer1, hs2]
  dsimp only
  rw [hpointer2, hs3]
  dsimp only [State.store]
  rw [hpointer3, hindex, update_self, update_idem]
  rfl

/-- The pages of a range. -/
def Range.Covers (range : Range) (n : Nat) : Prop :=
  range.start ≤ 4096 * n ∧ 4096 * n < range.endAddr

/-- The tables that a list of ranges needs. -/
def Needs (ranges : List Range) (key : Nat × Nat) : Prop :=
  ∃ range ∈ ranges, ∃ n, range.Covers n ∧ OnWay n key

/-- The loop sets the entries of the pages of its range. -/
theorem Invariant.insertIdentityEntries
    (h : Invariant s old pageTable first limit needed keys tables leaf)
    (pool : Pool pageTable first limit) (large : LargeEnough first limit needed) (range : Range)
    (haligned : range.start % 4096 = 0) (hend : range.endAddr ≤ 2 ^ 48)
    (hneeded : ∀ n, range.Covers n → ∀ key, OnWay n key → needed key) : ∃ s' keys' tables' leaf',
      s.insertIdentityEntries pageTable range.start range.endAddr range.flags = some s' ∧
      Invariant s' old pageTable first limit needed keys' tables' leaf' ∧ keys ⊆ keys' ∧
      (∀ n, range.Covers n → leaf' n = 4096 * n ||| range.flags ∧ (3, n / 2 ^ 9) ∈ keys') ∧
      ∀ n, ¬ range.Covers n → leaf' n = leaf n := by
  obtain ⟨start, endAddr, flags⟩ := range
  dsimp only at haligned hend ⊢
  induction hmeasure : endAddr - start using Nat.strongRecOn generalizing s keys tables leaf start with
  | ind measure ih =>
    rw [State.insertIdentityEntries]
    split
    · next hless =>
      obtain ⟨n, rfl⟩ := dvd_of_mod_eq_zero haligned
      have hcovers : Range.Covers ⟨4096 * n, endAddr, flags⟩ n := ⟨Nat.le_refl _, hless⟩
      obtain ⟨s1, keys1, tables1, hs1, h1, hkeys1, hmem⟩ :=
        h.insertEntry pool large (by omega) (hneeded n hcovers) flags
      have hrest : ∀ m, Range.Covers ⟨4096 * n + granuleSize, endAddr, flags⟩ m ↔
          m ≠ n ∧ Range.Covers ⟨4096 * n, endAddr, flags⟩ m := by
        intro m
        unfold Range.Covers
        dsimp only [granuleSize]
        omega
      obtain ⟨s', keys', tables', leaf', hs', h', hkeys', hin, hout⟩ :=
        ih (endAddr - (4096 * n + granuleSize)) (by rw [granuleSize]; omega) h1
          (4096 * n + granuleSize) (by rw [granuleSize]; omega)
          (fun m hm => hneeded m ((hrest m).mp hm).2) rfl
      refine ⟨s', keys', tables', leaf', ?_, h', List.Subset.trans hkeys1 hkeys', ?_, ?_⟩
      · rw [hs1, bind_eq_bind, bind_some, hs']
      · intro m hm
        rcases eq_or_ne m n with rfl | hne
        · have hnot : ¬ Range.Covers ⟨4096 * m + granuleSize, endAddr, flags⟩ m :=
            fun hm' => ((hrest m).mp hm').1 rfl
          rw [hout m hnot, update_self]
          exact ⟨rfl, hkeys' hmem⟩
        · exact hin m ((hrest m).mpr ⟨hne, hm⟩)
      · intro m hm
        have hne : m ≠ n := fun heq => hm (heq ▸ hcovers)
        rw [hout m fun hm' => hm ((hrest m).mp hm').2, update_of_ne hne]
    · next hdone =>
      refine ⟨s, keys, tables, leaf, rfl, h, List.Subset.refl _, ?_, fun _ _ => rfl⟩
      intro n hn
      exact absurd (Nat.lt_of_le_of_lt hn.1 hn.2) hdone

/-- The addresses of a range. -/
def Range.Contains (range : Range) (addr : Nat) : Prop := range.start ≤ addr ∧ addr < range.endAddr

/-- No address is in both ranges. -/
def Range.Disjoint (a b : Range) : Prop := ∀ addr, ¬ (a.Contains addr ∧ b.Contains addr)

section

section

variable (h : Invariant s old pageTable first limit needed keys tables leaf)

include h

theorem Invariant.insertRanges
    (pool : Pool pageTable first limit) (large : LargeEnough first limit needed)
    (ranges : List Range) (haligned : ∀ range ∈ ranges, range.start % 4096 = 0)
    (hend : ∀ range ∈ ranges, range.endAddr ≤ 2 ^ 48) (hdisjoint : ranges.Pairwise Range.Disjoint)
    (hneeded : ∀ key, Needs ranges key → needed key) :
    ∃ s' keys' tables' leaf', s.insertRanges pageTable ranges = some s' ∧
      Invariant s' old pageTable first limit needed keys' tables' leaf' ∧ keys ⊆ keys' ∧
      (∀ range ∈ ranges, ∀ n, range.Covers n →
        leaf' n = 4096 * n ||| range.flags ∧ (3, n / 2 ^ 9) ∈ keys') ∧
      ∀ n, (∀ range ∈ ranges, ¬ range.Covers n) → leaf' n = leaf n := by
  induction ranges generalizing s keys tables leaf with
  | nil =>
    refine ⟨s, keys, tables, leaf, rfl, h, List.Subset.refl _, ?_, fun _ _ => rfl⟩
    intro range hmem
    exact absurd hmem not_mem_nil
  | cons range ranges ih =>
    have hmem : range ∈ range :: ranges := mem_cons_self
    have htail : ∀ {r}, r ∈ ranges → r ∈ range :: ranges := mem_cons_of_mem _
    obtain ⟨happart, hrest⟩ := pairwise_cons.mp hdisjoint
    obtain ⟨s1, keys1, tables1, leaf1, hs1, h1, hkeys1, hin1, hout1⟩ :=
      h.insertIdentityEntries pool large range (haligned range hmem) (hend range hmem)
        fun n hn key hkey => hneeded key ⟨range, hmem, n, hn, hkey⟩
    obtain ⟨s', keys', tables', leaf', hs', h', hkeys', hin, hout⟩ :=
      ih h1 (fun r hr => haligned r (htail hr)) (fun r hr => hend r (htail hr)) hrest
        fun key ⟨r, hr, hway⟩ => hneeded key ⟨r, htail hr, hway⟩
    refine ⟨s', keys', tables', leaf', ?_, h', List.Subset.trans hkeys1 hkeys', ?_, ?_⟩
    · rw [State.insertRanges, hs1, bind_eq_bind, bind_some, hs']
    · intro r hr n hn
      rcases mem_cons.mp hr with rfl | hr
      · -- the later ranges do not cover the page
        have hother : ∀ r' ∈ ranges, ¬ r'.Covers n :=
          fun r' hr' hn' => happart r' hr' (4096 * n) ⟨hn, hn'⟩
        obtain ⟨hleaf, hkey⟩ := hin1 n hn
        rw [hout n hother]
        exact ⟨hleaf, hkeys' hkey⟩
      · exact hin r hr n hn
    · intro n hn
      rw [hout n fun r hr => hn r (htail hr), hout1 n (hn range hmem)]

/-- The walk leads to the table of the last level, if there is one. -/
theorem Invariant.walk_eq
    (pool : Pool pageTable first limit) (large : LargeEnough first limit needed) (hn : n < 2 ^ 36) :
    walk s.memory pageTable (4096 * n) = (tables (3, n / 2 ^ 9)).map fun _ => leaf n := by
  have hkey1 : 512 * 0 + 4096 * n / 2 ^ 39 % 512 = n / 2 ^ 27 := by omega
  have hkey2 : 512 * (n / 2 ^ 27) + 4096 * n / 2 ^ 30 % 512 = n / 2 ^ 18 := by omega
  have hkey3 : 512 * (n / 2 ^ 18) + 4096 * n / 2 ^ 21 % 512 = n / 2 ^ 9 := by omega
  have hkey4 : 512 * (n / 2 ^ 9) + 4096 * n / 2 ^ 12 % 512 = n := by omega
  have hlt : ∀ x : Nat, x % 512 < 512 := fun x => mod_lt x (by decide)
  have hnext : ∀ l k, nextTable (descriptor (tables (l + 1, k))) = tables (l + 1, k) := by
    intro l k
    apply nextTable_descriptor
    intro page hpage
    have hbelow := h.page_lt pool large hpage
    exact ⟨h.layout.aligned hpage, by omega⟩
  have horphan2 : tables (1, n / 2 ^ 27) = none → tables (2, n / 2 ^ 18) = none := by
    intro hnone
    apply h.layout.orphan
    rwa [Nat.div_div_eq_div_mul]
  have horphan3 : tables (2, n / 2 ^ 18) = none → tables (3, n / 2 ^ 9) = none := by
    intro hnone
    apply h.layout.orphan
    rwa [Nat.div_div_eq_div_mul]
  dsimp only [walk, bind, Option.bind, entryAt]
  rw [h.maps.inner (by decide : 0 < 3) h.layout.root (hlt _), hkey1, hnext]
  cases hpage1 : tables (1, n / 2 ^ 27) with
  | none => rw [horphan3 (horphan2 hpage1), map_none]
  | some page1 =>
    dsimp only
    rw [h.maps.inner (by decide : 1 < 3) hpage1 (hlt _), hkey2, hnext]
    cases hpage2 : tables (2, n / 2 ^ 18) with
    | none => rw [horphan3 hpage2, map_none]
    | some page2 =>
      dsimp only
      rw [h.maps.inner (by decide : 2 < 3) hpage2 (hlt _), hkey3, hnext]
      cases hpage3 : tables (3, n / 2 ^ 9) with
      | none => rfl
      | some page3 =>
        dsimp only
        rw [h.maps.last hpage3 (hlt _), hkey4]
        rfl

end

end

/-! ## The identity map -/

/-- An empty root table, and the pages that the allocator still has. -/
structure Ready (s : State) (pageTable : Nat) : Prop where
  pool : Pool pageTable s.mCurrent s.mEnd
  empty : ∀ i < 512, s.memory (pageTable + 8 * i) = 0

/-- The ranges are mapped to themselves, nothing else is, and the pages that were taken for it
are different pages of the pool that were zeroed. -/
structure IdentityMapped (s s' : State) (pageTable : Nat) (ranges : List Range) : Prop where
  mapped : ∀ range ∈ ranges, ∀ page, page % 4096 = 0 → range.Contains page →
    walk s'.memory pageTable page = some (page ||| range.flags)
  unmapped : ∀ page < 2 ^ 48, page % 4096 = 0 → (∀ range ∈ ranges, ¬ range.Contains page) →
    ∀ entry, walk s'.memory pageTable page = some entry → entry = 0
  taken : ∃ new, s'.taken = s.taken ++ new ∧ (new.map Taken.page).Nodup ∧
    ∀ t ∈ new, (s.mCurrent ≤ t.page ∧ t.page + 4096 ≤ s.mEnd) ∧
      ∀ i < 512, t.memory (t.page + 8 * i) = 0

theorem Ready.invariant (h : Ready s pageTable) (needed : Nat × Nat → Prop) :
    Invariant s s.taken pageTable s.mCurrent s.mEnd needed []
      (update (fun _ => none) (0, 0) (some pageTable)) fun _ => 0 := by
  have hnone : ∀ {l k page}, update (fun _ => none) ((0, 0) : Nat × Nat)
      (some pageTable) (l, k) = some page → l = 0 ∧ k = 0 ∧ page = pageTable := by
    intro l k page hpage
    rcases update_cases hpage with ⟨hkey, hpage⟩ | ⟨-, hfalse⟩
    · exact ⟨(Prod.mk.inj hkey).1, (Prod.mk.inj hkey).2, hpage⟩
    · exact absurd hfalse.symm (some_ne_none page)
  have hsucc : ∀ l k, update (fun _ => none) ((0, 0) : Nat × Nat) (some pageTable)
      (l + 1, k) = none := by
    intro l k
    rw [update_of_ne fun heq => succ_ne_zero l (Prod.mk.inj heq).1]
  refine ⟨⟨update_self .., ?_, ?_, ?_, ?_, ?_, ?_, fun _ => hsucc _ _, ?_, nodup_nil⟩,
    ⟨?_, ?_, fun _ => rfl⟩, rfl, rfl, ?_, ⟨[], (append_nil _).symm, rfl, ?_⟩⟩
  · intro l k page hpage
    exact absurd (hnone hpage).1 (succ_ne_zero l)
  · intro l k page hpage
    exact absurd (hnone hpage).1 (succ_ne_zero l)
  · intro l k page hpage
    exact absurd (hnone hpage).1 (succ_ne_zero l)
  · intro k page hpage
    exact (hnone hpage).2.2
  · intro key page hpage
    rw [(hnone hpage).2.2]
    exact h.pool.root_aligned
  · intro key key' page hpage hpage'
    obtain ⟨hl, hk, -⟩ := hnone hpage
    obtain ⟨hl', hk', -⟩ := hnone hpage'
    exact Prod.ext (hl.trans hl'.symm) (hk.trans hk'.symm)
  · intro key hmem
    exact absurd hmem not_mem_nil
  · intro l k page i _ hpage hi
    obtain ⟨rfl, rfl, rfl⟩ := hnone hpage
    rw [hsucc, h.empty i hi, descriptor]
  · intro k page i hpage _
    exact absurd (hnone hpage).1 (succ_ne_zero 2)
  · intro key hmem
    exact absurd hmem not_mem_nil
  · intro t ht
    exact absurd ht not_mem_nil

/-- Disjoint ranges are mapped to themselves when there are pages for the tables they need. -/
theorem identityMapped_insertRanges (s : State) (pageTable : Nat) (ranges : List Range)
    (hready : Ready s pageTable) (haligned : ∀ range ∈ ranges, range.start % 4096 = 0)
    (hend : ∀ range ∈ ranges, range.endAddr ≤ 2 ^ 48) (hdisjoint : ranges.Pairwise Range.Disjoint)
    (hlarge : LargeEnough s.mCurrent s.mEnd (Needs ranges)) :
    ∃ s', s.insertRanges pageTable ranges = some s' ∧ IdentityMapped s s' pageTable ranges := by
  obtain ⟨s', keys, tables, leaf, hs', h, -, hin, hout⟩ :=
    (hready.invariant (Needs ranges)).insertRanges hready.pool hlarge ranges haligned hend hdisjoint
      fun _ hkey => hkey
  refine ⟨s', hs', ?_, ?_, ?_⟩
  · intro range hmem page hpage hcontains
    obtain ⟨n, rfl⟩ := dvd_of_mod_eq_zero hpage
    have hbelow := hend range hmem
    have hn : n < 2 ^ 36 := by
      have hlt := hcontains.2
      omega
    obtain ⟨hleaf, hkey⟩ := hin range hmem n hcontains
    obtain ⟨table, htable⟩ := ne_none_iff_exists'.mp (h.layout.ofKeys hkey)
    rw [h.walk_eq hready.pool hlarge hn, htable, map_some, hleaf]
  · intro page hpage haligned hcontains entry hentry
    obtain ⟨n, rfl⟩ := dvd_of_mod_eq_zero haligned
    rw [h.walk_eq hready.pool hlarge (by omega), map_eq_some_iff] at hentry
    obtain ⟨-, -, rfl⟩ := hentry
    exact hout n hcontains
  · obtain ⟨new, hsplit, hpages, hzeroed⟩ := h.taken.split
    have hle := hlarge keys h.layout.nodup h.needs
    refine ⟨new, hsplit, ?_, ?_⟩
    · rw [hpages]
      refine List.Pairwise.map _ ?_ nodup_range
      intro i j hne heq
      omega
    · intro t ht
      refine ⟨?_, hzeroed t ht⟩
      have hmem := List.mem_map_of_mem (f := Taken.page) ht
      rw [hpages, List.mem_map] at hmem
      obtain ⟨i, hi, hpage⟩ := hmem
      have hlt := mem_range.mp hi
      omega

/-- Two pages at address zero, in three tables of a pool of six pages. -/
theorem identityMapped_insertRanges_two : Ready ⟨fun _ => 0, 0x8000, 0x2000, []⟩ 0x1000 ∧
      LargeEnough 0x2000 0x8000 (Needs [⟨0, 0x2000, 0x703⟩]) ∧
      ∃ s', State.insertRanges ⟨fun _ => 0, 0x8000, 0x2000, []⟩ 0x1000 [⟨0, 0x2000, 0x703⟩] =
          some s' ∧
        IdentityMapped ⟨fun _ => 0, 0x8000, 0x2000, []⟩ s' 0x1000 [⟨0, 0x2000, 0x703⟩] := by
  have hready : Ready ⟨fun _ => 0, 0x8000, 0x2000, []⟩ 0x1000 :=
    ⟨⟨by decide, by decide, by decide, by decide, by decide⟩, fun _ _ => rfl⟩
  have hlarge : LargeEnough 0x2000 0x8000 (Needs [⟨0, 0x2000, 0x703⟩]) := by
    intro keys hnodup hneeds
    have hsub : keys ⊆ [(1, 0), (2, 0), (3, 0)] := by
      intro key hkey
      obtain ⟨range, hmem, n, hcovers, hway⟩ := hneeds key hkey
      rw [mem_singleton.mp hmem] at hcovers
      have hlt := hcovers.2
      dsimp only at hlt
      have hn1 : n / 2 ^ 27 = 0 := by omega
      have hn2 : n / 2 ^ 18 = 0 := by omega
      have hn3 : n / 2 ^ 9 = 0 := by omega
      unfold OnWay at hway
      rw [hn1, hn2, hn3] at hway
      rcases hway with rfl | rfl | rfl <;> decide
    have hle := (subperm_of_subset hnodup hsub).length_le
    rw [length_cons, length_cons, length_singleton] at hle
    omega
  have haligned : ∀ range ∈ [(⟨0, 0x2000, 0x703⟩ : Range)], range.start % 4096 = 0 := by decide
  have hend : ∀ range ∈ [(⟨0, 0x2000, 0x703⟩ : Range)], range.endAddr ≤ 2 ^ 48 := by decide
  exact ⟨hready, hlarge, identityMapped_insertRanges _ _ _ hready haligned hend
    (pairwise_singleton _ _) hlarge⟩

end Literate.Kernel.MMU

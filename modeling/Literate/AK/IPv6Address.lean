import Literate.AK.StringSplit
import Literate.AK.StringUtils

/-!
# AK: parsing an IPv6 address

`IPv6Address::from_string` of `AK/IPv6Address.h`, with `IPv4Address::from_string` of
`AK/IPv4Address.h`.  `none` is a failed `VERIFY`; `writes` is not read by the code and records
the groups that are written.
-/

namespace Literate.AK

open Foundation StringUtils List

/-- `split_view` at a character that is not the null character. -/
def splitViewAt (s : StringView) (separator : UInt8) (keepEmpty : Bool) :
    Option (List StringView) :=
  s.splitView ⟨1, [separator], show 1 + 1 < 2 ^ 64 by decide, nofun⟩ keepEmpty

namespace IPv4Address

/-- The octets. -/
def fromString (s : StringView) : Option (Option (List Nat)) := do
  if s.isNull then return none
  let value (part : StringView) := (convertToUint 32 part.bytes .yes).getD 256
  let octets : Option (List Nat) :=
    match ← splitViewAt s (byte '.') false with
    | [d] => some [0, 0, 0, value d]
    | [a, b] => some [value a, value b, 0, 0]
    | [a, b, d] => some [value a, value b, 0, value d]
    | [a, b, c, d] => some [value a, value b, value c, value d]
    | _ => none
  return octets.filter fun octets => octets.all (· ≤ 255)

end IPv4Address

namespace IPv6Address

def ofIPv4 (octets : List Nat) : List UInt8 :=
  List.replicate 10 0 ++ [0xff, 0xff] ++ octets.map UInt8.ofNat

def isBlank (part : StringView) : Bool := decide (trimWhitespace part.bytes .both = [])

/-- `is_ipv4_prefix`. -/
def isIPv4Prefix (parts : List StringView) : Bool :=
  let value (part : StringView) :=
    convertToUintFromHex 32 (trimWhitespace part.bytes .both) .yes
  match parts.reverse with
  | _ :: separator :: front =>
    !isBlank separator && value separator == some 0xffff &&
      front.all fun part => isBlank part || value part == some 0
  | _ => false

/-- The local variables of the loop over the parts. -/
structure Groups where
  addr : List UInt8
  group : Int
  haveGroups : Nat
  foundCompressed : Bool
  writes : List Int

/-- The loop that counts the empty parts behind the first one, and whether it got to the end. -/
def countEmpty : List StringView → Nat → Nat × Bool
  | [], emptyParts => (emptyParts, false)
  | part :: rest, emptyParts =>
    if !isBlank part then (emptyParts, false)
    else if rest = [] then (emptyParts + 1, true)
    else countEmpty rest (emptyParts + 1)

/-- The loop over the parts, of which there are `size`, at part `i`. -/
def loop (size : Nat) : Nat → List StringView → Groups → Option (Option (List UInt8) × List Int)
  | _, [], s => some (some s.addr, s.writes)
  | i, part :: rest, s =>
    if isBlank part then
      if s.foundCompressed then some (none, s.writes)
      else
        let (emptyParts, isTrailing) := countEmpty rest 1
        let isLeading := decide (i = 0)
        if isLeading && isTrailing then
          if 3 < emptyParts then some (none, s.writes)
          else some (some (List.replicate 16 0), s.writes)
        else if (isLeading || isTrailing) && decide (2 < emptyParts) then some (none, s.writes)
        else if !(isLeading || isTrailing) && decide (1 < emptyParts) then some (none, s.writes)
        else
          let remainingParts : Int := size - emptyParts - s.haveGroups
          let group := 8 - remainingParts
          if group < 0 then none
          else loop size (i + emptyParts) (rest.drop (emptyParts - 1))
            { s with foundCompressed := true, group := group }
    else
      match convertToUintFromHex 32 (trimWhitespace part.bytes .both) .yes with
      | none => some (none, s.writes)
      | some value =>
        if 0xffff < value then some (none, s.writes)
        else if 8 < s.haveGroups + 1 then some (none, s.writes)
        else if 8 ≤ s.group then none
        else loop size (i + 1) rest
          { s with
            addr := (s.addr.set (s.group * 2).toNat (UInt8.ofNat (value >>> 8))).set
              (s.group * 2 + 1).toNat (UInt8.ofNat value)
            haveGroups := s.haveGroups + 1
            group := s.group + 1
            writes := s.writes ++ [s.group] }
  termination_by _ rest _ => rest.length
  decreasing_by
    · rw [length_drop, length_cons]
      omega
    · exact Nat.lt_succ_self _

/-- The address, and the groups that were written. -/
def fromString (s : StringView) : Option (Option (List UInt8) × List Int) := do
  if s.isNull then return (none, [])
  let parts ← splitViewAt s (byte ':') true
  match parts.getLast? with
  | none => return (none, [])
  | some last =>
    if 9 < parts.length then return (none, [])
    else if 4 ≤ parts.length && last.bytes.contains (byte '.') && isIPv4Prefix parts then
      return ((← IPv4Address.fromString last).map ofIPv4, [])
    else loop parts.length 0 parts ⟨List.replicate 16 0, 0, 0, false, []⟩

/-! ## Where the groups lie -/

/-- At part `i` the groups that are written lie before the next one, for which and for all the
parts to come there is room. -/
structure Placed (size i : Nat) (rest : List StringView) (s : Groups) : Prop where
  parts : i + rest.length = size
  size : size ≤ 9
  group : s.group = if s.foundCompressed then 8 - (rest.length : Int) else s.haveGroups
  haveGroups : s.foundCompressed = false → s.haveGroups = i
  nonneg : 0 ≤ s.group
  before : ∀ g ∈ s.writes, 0 ≤ g ∧ g < s.group
  below : ∀ g ∈ s.writes, g < 8
  nodup : s.writes.Nodup

theorem countEmpty_le (rest : List StringView) (emptyParts : Nat) :
    emptyParts ≤ (countEmpty rest emptyParts).1 ∧
      (countEmpty rest emptyParts).1 ≤ emptyParts + rest.length := by
  induction rest generalizing emptyParts with
  | nil => exact ⟨Nat.le_refl _, Nat.le_refl _⟩
  | cons part rest ih =>
    have hrest := ih (emptyParts + 1)
    rw [countEmpty, length_cons]
    split
    · exact ⟨Nat.le_refl _, Nat.le_add_right _ _⟩
    · split
      · dsimp only
        omega
      · omega

theorem Placed.compress {size i emptyParts : Nat} {part : StringView} {rest : List StringView}
    {s : Groups} (h : Placed size i (part :: rest) s) (hfound : s.foundCompressed = false)
    (hempty : 1 ≤ emptyParts ∧ emptyParts ≤ 1 + rest.length) :
    ¬ 8 - ((size : Int) - emptyParts - s.haveGroups) < 0 ∧
      Placed size (i + emptyParts) (rest.drop (emptyParts - 1)) { s with
        foundCompressed := true, group := 8 - ((size : Int) - emptyParts - s.haveGroups) } := by
  have hparts := h.parts
  have hsize := h.size
  have hgroup := h.group
  have hhave := h.haveGroups hfound
  have hlength : (rest.drop (emptyParts - 1)).length = rest.length - (emptyParts - 1) :=
    length_drop
  rw [hfound, if_neg Bool.false_ne_true] at hgroup
  rw [length_cons] at hparts
  refine ⟨by omega, ?_⟩
  exact {
    parts := by omega
    size := hsize
    group := by
      dsimp only
      rw [if_pos rfl]
      omega
    haveGroups := fun hfound => absurd hfound Bool.noConfusion
    nonneg := by
      dsimp only
      omega
    before := fun g hg => by
      have hlt := h.before g hg
      dsimp only
      omega
    below := h.below
    nodup := h.nodup }

/-- A part with a value is written to the next group. -/
theorem Placed.write {size i : Nat} {part : StringView} {rest : List StringView} {s : Groups}
    (h : Placed size i (part :: rest) s) (hhave : ¬ 8 < s.haveGroups + 1) (addr : List UInt8) :
    ¬ 8 ≤ s.group ∧ Placed size (i + 1) rest { s with
      addr := addr
      haveGroups := s.haveGroups + 1
      group := s.group + 1
      writes := s.writes ++ [s.group] } := by
  have hparts := h.parts
  have hgroup := h.group
  have hnonneg := h.nonneg
  rw [length_cons] at hparts hgroup
  have hlt : s.group < 8 := by split at hgroup <;> omega
  refine ⟨by omega, ?_⟩
  exact {
    parts := by omega
    size := h.size
    group := by
      dsimp only
      split at hgroup
      · next hfound =>
        rw [if_pos hfound]
        omega
      · next hfound =>
        rw [if_neg hfound]
        omega
    haveGroups := fun hfound => congrArg (· + 1) (h.haveGroups hfound)
    nonneg := by
      dsimp only
      omega
    before := fun g hg => by
      dsimp only at hg ⊢
      obtain hg | hg := mem_append.mp hg
      · have hbefore := h.before g hg
        omega
      · rw [mem_singleton.mp hg]
        omega
    below := fun g hg => by
      obtain hg | hg := mem_append.mp hg
      · exact h.below g hg
      · rw [mem_singleton.mp hg]
        exact hlt
    nodup := nodup_append.mpr ⟨h.nodup, pairwise_singleton _ _, fun g hg g' hg' heq => by
      have hbefore := h.before g hg
      rw [mem_singleton.mp hg'] at heq
      omega⟩ }

/-- No `VERIFY` fails, and different groups of the eight are written. -/
def Writes (result : Option (Option (List UInt8) × List Int)) : Prop :=
  ∃ addr writes, result = some (addr, writes) ∧ (∀ g ∈ writes, 0 ≤ g ∧ g < 8) ∧ writes.Nodup

theorem Placed.writes {size i : Nat} {rest : List StringView} {s : Groups}
    (h : Placed size i rest s) (addr : Option (List UInt8)) : Writes (some (addr, s.writes)) :=
  ⟨addr, s.writes, rfl, fun g hg => ⟨(h.before g hg).1, h.below g hg⟩, h.nodup⟩

theorem writes_loop {size i : Nat} {rest : List StringView} {s : Groups}
    (h : Placed size i rest s) : Writes (loop size i rest s) := by
  induction hn : rest.length using Nat.strong_induction_on generalizing i rest s with
  | _ n ih =>
    subst hn
    cases rest with
    | nil =>
      rw [loop]
      exact h.writes _
    | cons part rest =>
      rw [loop]
      split
      · split
        · exact h.writes _
        · next hfound =>
          have hempty := countEmpty_le rest 1
          obtain ⟨hgroup, hplaced⟩ := h.compress (Bool.eq_false_iff.mpr hfound) hempty
          dsimp only
          split
          · split
            · exact h.writes _
            · exact h.writes _
          · split
            · exact h.writes _
            · split
              · exact h.writes _
              · refine ih _ ?_ hplaced rfl
                rw [length_drop, length_cons]
                omega
      · split
        · exact h.writes _
        · split
          · exact h.writes _
          · split
            · exact h.writes _
            · next hhave =>
              obtain ⟨hgroup, hplaced⟩ := h.write hhave _
              rw [if_neg hgroup]
              exact ih _ (Nat.lt_succ_self _) hplaced rfl

theorem exists_splitViewAt (s : StringView) (separator : UInt8) (keepEmpty : Bool) :
    ∃ parts, splitViewAt s separator keepEmpty = some parts := by
  by_cases hs : s.bytes = []
  · refine ⟨[], ?_⟩
    simp [splitViewAt, StringView.splitView, StringView.forEachSplitView, StringView.isEmpty, hs]
  · obtain ⟨contents, -, hsplit⟩ := @StringView.splitView_spec s
      ⟨1, [separator], show 1 + 1 < 2 ^ 64 by decide, nofun⟩ hs (cons_ne_nil _ _)
      (show ((1 : Nat) : Int) ≤ MemMem.intMax by decide)
    exact ⟨_, hsplit keepEmpty⟩

theorem exists_ipv4_fromString (s : StringView) :
    ∃ octets, IPv4Address.fromString s = some octets := by
  obtain ⟨parts, hparts⟩ := exists_splitViewAt s (byte '.') false
  unfold IPv4Address.fromString
  split
  · exact ⟨none, rfl⟩
  · rw [hparts]
    exact ⟨_, rfl⟩

/-- On every text. -/
theorem writes_fromString (s : StringView) : Writes (fromString s) := by
  obtain ⟨parts, hparts⟩ := exists_splitViewAt s (byte ':') true
  have hnothing : ∀ addr, Writes (some (addr, [])) := fun addr =>
    ⟨addr, [], rfl, fun _ => not_mem_nil.elim, nodup_nil⟩
  unfold fromString
  split
  · exact hnothing none
  · rw [hparts, Option.bind_eq_bind, Option.bind_some]
    split
    · exact hnothing none
    · next last hlast =>
      split
      · exact hnothing none
      · next hsize =>
        split
        · obtain ⟨octets, hoctets⟩ := exists_ipv4_fromString last
          rw [hoctets]
          exact hnothing _
        · refine writes_loop {
            parts := Nat.zero_add _
            size := Nat.not_lt.mp hsize
            group := rfl
            haveGroups := fun _ => rfl
            nonneg := Int.le_refl 0
            before := fun _ => not_mem_nil.elim
            below := fun _ => not_mem_nil.elim
            nodup := nodup_nil }

end IPv6Address

end Literate.AK

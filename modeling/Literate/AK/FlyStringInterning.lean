import Literate.AK.FlyStringOwners

/-!
# AK: what fly strings share

The table behind `fly_impls` stays empty, whatever a program does with its strings, so that
every fly string made from an unmarked implementation marks that one.
-/

namespace Literate.AK.FlyString

open Foundation List Option

variable {impl mImpl : Option Nat} {a slot : Nat} {events : List Event} {characters : List UInt8}

namespace Store

variable {toU32 : UInt8 → UInt32} {s s' : Store} {held : List Nat}

/-! ## Constructors -/

theorem flyImpls_of_empty (h : s.sTable = []) : s.flyImpls = [] := by
  rw [flyImpls, h, foldl_nil]

/-- The marks of `enter`. -/
def mark (toU32 : UInt8 → UInt32) (s : Store) (a : Nat) : Store :=
  (s.modify a (·.hash toU32)).modify a fun impl => { impl with mFly := true }

theorem enter_eq (s : Store) (a : Nat) : s.enter toU32 a = (s.mark toU32 a).assign a := rfl

theorem hash_spec (impl : StringImpl) :
    (impl.hash toU32).characters = impl.characters ∧ (impl.hash toU32).mFly = impl.mFly ∧
      (impl.hash toU32).mRefCount = impl.mRefCount := by
  unfold StringImpl.hash
  split
  · exact ⟨rfl, rfl, rfl⟩
  · exact ⟨rfl, rfl, rfl⟩

theorem alive_hash {impl : StringImpl} (h : Alive toU32 impl) : Alive toU32 (impl.hash toU32) := by
  refine ⟨(hash_spec impl).2.2 ▸ h.referred, fun _ => ?_⟩
  unfold StringImpl.hash
  split
  case isTrue hhash => exact h.hashed (.inl hhash)
  case isFalse => rfl

theorem mHasHash_hash (impl : StringImpl) : (impl.hash toU32).mHasHash = true := by
  unfold StringImpl.hash
  split
  case isTrue hhash => exact hhash
  case isFalse => rfl

namespace Sound

theorem hash (h : Sound toU32 s held) {impl : StringImpl} (ha : s.heap a = some impl) :
    Sound toU32 (s.modify a (·.hash toU32)) held := by
  refine h.modify ha (hash_spec impl).1 (fun hfly => (hash_spec impl).2.1.trans hfly)
    (alive_hash (h.alive a impl ha)) fun b => ?_
  rw [refCount_modify ha, (hash_spec impl).2.2]
  split
  case isTrue hba => rw [hba, ← refCount_of_heap ha, h.counted]
  case isFalse => exact h.counted b

theorem mark (h : Sound toU32 s held) {impl : StringImpl} (ha : s.heap a = some impl) :
    Sound toU32 (s.mark toU32 a) held ∧ s.Grows (s.mark toU32 a) ∧
      (s.mark toU32 a).isFly a ∧ (s.mark toU32 a).refCount a = s.refCount a := by
  have hhash := h.hash ha
  have ha' : (s.modify a (·.hash toU32)).heap a = some (impl.hash toU32) := by
    rw [modify_self, ha, map_some]
  have halive := hhash.alive a _ ha'
  have hheap : (s.mark toU32 a).heap a = some { impl.hash toU32 with mFly := true } := by
    rw [Store.mark, modify_self, ha', map_some]
  refine ⟨?_, ?_, isFly_iff.mpr ⟨_, hheap, rfl⟩, ?_⟩
  · refine hhash.modify ha' rfl (fun _ => rfl)
      ⟨halive.referred, fun _ => halive.hashed (.inl (mHasHash_hash impl))⟩ fun b => ?_
    rw [refCount_modify ha']
    split
    case isTrue hba => rw [hba, ← hhash.counted a, refCount_of_heap ha']
    case isFalse => exact hhash.counted b
  · refine (grows_modify fun impl' _ => ?_).trans (grows_modify fun _ _ => ⟨rfl, fun _ => rfl⟩)
    exact ⟨(hash_spec impl').1, fun hfly => (hash_spec impl').2.1.trans hfly⟩
  · rw [refCount_of_heap hheap, refCount_of_heap ha]
    exact (hash_spec impl).2.2

end Sound

theorem assign_eq_some : s.assign a = some (s', mImpl) ↔ s.ref a = some s' ∧ some a = mImpl := by
  simp only [assign, map_eq_some_iff, Prod.mk.injEq]
  constructor
  · rintro ⟨s₁, hs₁, rfl, rfl⟩
    exact ⟨hs₁, rfl⟩
  · rintro ⟨hs', rfl⟩
    exact ⟨s', hs', rfl, rfl⟩

/-- A reference may be taken while there are fewer than `2 ^ 32 - 1`. -/
theorem exists_ref_iff :
    (∃ s', s.ref a = some s') ↔ 0 < s.refCount a ∧ s.refCount a + 1 < 2 ^ 32 := by
  constructor
  · rintro ⟨s', hs'⟩
    obtain ⟨impl, ha, hpos, hlt, -⟩ := ref_eq_some.mp hs'
    rw [refCount_of_heap ha]
    exact ⟨hpos, hlt⟩
  · rintro ⟨hpos, hlt⟩
    cases ha : s.heap a with
    | none =>
      rw [refCount_of_none ha] at hpos
      cases hpos
    | some impl =>
      rw [refCount_of_heap ha] at hpos hlt
      exact ⟨_, ref_eq_some.mpr ⟨impl, ha, hpos, hlt, rfl⟩⟩

@[simp] theorem flyStrings_of_ref (hs : s.ref a = some s') : s'.flyStrings = s.flyStrings := by
  obtain ⟨impl, -, -, -, rfl⟩ := ref_eq_some.mp hs
  rfl

theorem isFly_of_ref (hs : s.ref a = some s') (b : Nat) : s'.isFly b = s.isFly b := by
  obtain ⟨impl, ha, -, -, rfl⟩ := ref_eq_some.mp hs
  by_cases hba : b = a
  · subst hba
    simp [isFly, ha]
  · rw [isFly, modify_of_ne s _ hba, isFly]

/-! ### Creation -/

theorem theEmptyStringimpl_eq_some (hs : s.theEmptyStringimpl slot = some (s', a)) :
    (s.sTheEmptyStringimpl = some a ∧ s' = s) ∨
      (s.sTheEmptyStringimpl = none ∧ s.heap slot = none ∧ a = slot ∧
        s' = { s.place slot .constructTheEmptyStringImpl with sTheEmptyStringimpl := some slot }) := by
  unfold theEmptyStringimpl at hs
  split at hs
  case h_1 b hb =>
    cases hs
    exact .inl ⟨hb, rfl⟩
  case h_2 hnone =>
    obtain ⟨hslot, hs⟩ := ite_none_right_eq_some.mp hs
    cases hs
    exact .inr ⟨hnone, hslot, rfl, rfl⟩

namespace Sound

theorem theEmptyStringimpl (h : Sound toU32 s held)
    (hs : s.theEmptyStringimpl slot = some (s', a)) :
    Sound toU32 s' held ∧ s.Grows s' ∧ s'.flyStrings = s.flyStrings ∧
      s'.sTheEmptyStringimpl = some a := by
  cases theEmptyStringimpl_eq_some hs with
  | inl hold =>
    obtain ⟨ha, rfl⟩ := hold
    exact ⟨h, Grows.refl _, rfl, ha⟩
  | inr hnew =>
    obtain ⟨hnone, hslot, rfl, rfl⟩ := hnew
    exact ⟨h.placeEmpty hnone hslot, grows_place hslot, rfl, rfl⟩

/-- What `create` answers holds the text, and the call holds a reference to it. -/
theorem create (h : Sound toU32 s held) {view : Option (List UInt8)}
    (hs : s.create view slot = some (s', impl)) :
    Sound toU32 s' (impl.toList ++ held) ∧ s.Grows s' ∧ s'.flyStrings = s.flyStrings ∧
      ∀ a, impl = some a → s'.contents a = view := by
  unfold Store.create at hs
  split at hs
  case h_1 =>
    cases hs
    exact ⟨h, Grows.refl _, rfl, nofun⟩
  case h_2 =>
    obtain ⟨⟨s₁, a⟩, hempty, hassign⟩ := bind_eq_some_iff.mp hs
    obtain ⟨hs', rfl⟩ := assign_eq_some.mp hassign
    obtain ⟨h₁, hgrows₁, hflys₁, ha⟩ := h.theEmptyStringimpl hempty
    obtain ⟨h', hgrows'⟩ := h₁.ref hs'
    refine ⟨h', hgrows₁.trans hgrows', (flyStrings_of_ref hs').trans hflys₁, ?_⟩
    rintro _ ⟨⟩
    exact hgrows'.contents ((h₁.empty a).mpr ha)
  case h_3 c cs =>
    obtain ⟨hslot, hs⟩ := ite_none_right_eq_some.mp hs
    cases hs
    refine ⟨h.place hslot rfl ⟨Nat.one_pos, nofun⟩ (cons_ne_nil c cs), grows_place hslot, rfl, ?_⟩
    rintro _ ⟨⟩
    exact contents_eq_some.mpr ⟨_, place_self s slot _, rfl⟩

end Sound

/-! ### Fly strings -/

theorem pos_of_held (owners a : Nat) (held : List Nat) : 0 < owners + (a :: held).count a := by
  rw [count_cons, if_pos rfl]
  omega

/-- The implementation of a fly string made from a `String`: marked, unless it is already. -/
def touch (toU32 : UInt8 → UInt32) (s : Store) (a : Nat) : Store :=
  if s.isFly a then s else (s.modify a (·.hash toU32)).mark toU32 a

namespace Sound

section

variable (h : Sound toU32 s held)

include h

theorem touch {impl : StringImpl} (ha : s.heap a = some impl) :
    Sound toU32 (s.touch toU32 a) held ∧ s.Grows (s.touch toU32 a) ∧
      (s.touch toU32 a).isFly a ∧ (s.touch toU32 a).refCount a = s.refCount a := by
  unfold Store.touch
  split
  case isTrue hfly => exact ⟨h, Grows.refl s, hfly, rfl⟩
  case isFalse =>
    have ha' : (s.modify a (·.hash toU32)).heap a = some (impl.hash toU32) := by
      rw [modify_self, ha, map_some]
    obtain ⟨hmark, hgrows, hfly, hcount⟩ := (h.hash ha).mark ha'
    refine ⟨hmark, (grows_modify fun impl' _ => ?_).trans hgrows, hfly, hcount.trans ?_⟩
    · exact ⟨(hash_spec impl').1, fun hfly => (hash_spec impl').2.1.trans hfly⟩
    · rw [refCount_of_heap ha', refCount_of_heap ha]
      exact (hash_spec impl).2.2

/-- The lookup finds nothing, so that the implementation of the `String` itself is taken. -/
theorem flyOfString_eq (a : Nat) : s.flyOfString toU32 (some a) = (s.touch toU32 a).assign a := by
  have himpls : (s.modify a (·.hash toU32)).flyImpls = [] := flyImpls_of_empty h.table
  rw [Store.flyOfString, Store.touch]
  by_cases hfly : s.isFly a
  · simp only [if_pos hfly]
  · simp only [if_neg hfly]
    simp only [onFlyImpls, himpls, find, List.find?_nil]
    rfl

theorem flyOfString
    (halive : ∀ a, impl = some a → 0 < s.owners a + held.count a)
    (hs : s.flyOfString toU32 impl = some (s', mImpl)) :
    mImpl = impl ∧ Sound toU32 s' (impl.toList ++ held) ∧ s.Grows s' ∧
      s'.flyStrings = s.flyStrings ∧ ∀ a, impl = some a → s'.isFly a := by
  cases impl with
  | none =>
    cases hs
    exact ⟨rfl, h, Grows.refl _, rfl, nofun⟩
  | some a =>
    rw [h.flyOfString_eq] at hs
    obtain ⟨hs', rfl⟩ := assign_eq_some.mp hs
    obtain ⟨impl, ha⟩ := h.exists_impl (halive a rfl)
    obtain ⟨htouch, hgrows, hfly, -⟩ := h.touch ha
    obtain ⟨h', hgrows'⟩ := htouch.ref hs'
    refine ⟨rfl, h', hgrows.trans hgrows', (flyStrings_of_ref hs').trans ?_, ?_⟩
    · unfold Store.touch
      split
      · rfl
      · rfl
    · rintro _ ⟨⟩
      exact hgrows'.isFly hfly

/-- The lookup finds nothing, so that there is a new implementation. -/
theorem flyOfView_eq (characters : List UInt8) (slot : Nat) :
    s.flyOfView toU32 (some characters) slot =
      (s.create (some characters) slot).bind fun (s, newString) =>
        newString.bind fun impl =>
          ((s.mark toU32 impl).assign impl).bind fun (s, mImpl) =>
            (s.unref impl).map fun s => (s, mImpl) := by
  have himpls : s.flyImpls = [] := flyImpls_of_empty h.table
  simp [Store.flyOfView, onFlyImpls, himpls, find, enter_eq]

theorem flyOfView {view : Option (List UInt8)}
    (hs : s.flyOfView toU32 view slot = some (s', mImpl)) :
    Sound toU32 s' (mImpl.toList ++ held) ∧ s.Grows s' ∧ s'.flyStrings = s.flyStrings ∧
      ∀ a, mImpl = some a → s'.isFly a ∧ s'.contents a = view := by
  cases view with
  | none =>
    cases hs
    exact ⟨h, Grows.refl _, rfl, nofun⟩
  | some characters =>
    rw [h.flyOfView_eq] at hs
    simp only [bind_eq_some_iff, map_eq_some_iff, Prod.exists, Prod.mk.injEq] at hs
    obtain ⟨s₁, _, hcreate, a, rfl, s₂, _, hassign, s₃, hs₃, rfl, rfl⟩ := hs
    obtain ⟨hs₂, rfl⟩ := assign_eq_some.mp hassign
    obtain ⟨h₁, hgrows₁, hflys₁, hcontents⟩ := h.create hcreate
    obtain ⟨impl, ha⟩ := h₁.exists_impl (pos_of_held (s₁.owners a) a held)
    obtain ⟨hmark, hgrows₂, hfly, -⟩ := h₁.mark ha
    obtain ⟨h₂, hgrows₃⟩ := hmark.ref hs₂
    obtain ⟨s₄, hs₄, h₃, -, hgrows₄, hflys₄⟩ := h₂.unref
    cases hs₃.symm.trans hs₄
    have hkeeps : s₂.Grows s₃ := hgrows₄ (pos_of_held (s₂.owners a) a held)
    have hgrows : s₁.Grows s₃ := (hgrows₂.trans hgrows₃).trans hkeeps
    refine ⟨h₃, hgrows₁.trans hgrows, ?_, ?_⟩
    · rw [hflys₄, flyStrings_of_ref hs₂, ← hflys₁]
      rfl
    · rintro _ ⟨⟩
      exact ⟨hkeeps.isFly (hgrows₃.isFly hfly), hgrows.contents (hcontents a rfl)⟩

end

end Sound

/-! ## Steps -/

theorem owners_of_string {i : Nat} (hi : s.strings[i]? = some (some a)) :
    0 < s.owners a + held.count a := by
  have hcount : 0 < s.strings.count (some a) := count_pos_iff.mpr (mem_of_getElem? hi)
  rw [owners]
  omega

theorem sound_start : Sound toU32 start [] where
  counted _ := rfl
  alive _ _ h := nomatch h
  table := rfl
  fly _ h := nomatch h
  empty _ := iff_of_false nofun nofun
  emptyFly _ h := nomatch h

namespace Sound

theorem refIfNotNull (h : Sound toU32 s held) (hs : s.refIfNotNull impl = some s') :
    Sound toU32 s' (impl.toList ++ held) ∧ s.Grows s' ∧ s'.flyStrings = s.flyStrings ∧
      ∀ a, s'.isFly a = s.isFly a := by
  cases impl with
  | none =>
    cases hs
    exact ⟨h, Grows.refl _, rfl, fun _ => rfl⟩
  | some a =>
    obtain ⟨h', hgrows⟩ := h.ref hs
    exact ⟨h', hgrows, flyStrings_of_ref hs, isFly_of_ref hs⟩

theorem unrefIfNotNull (h : Sound toU32 s (impl.toList ++ held)) :
    ∃ s', s.unrefIfNotNull impl = some s' ∧ Sound toU32 s' held ∧ s.Shrinks s' ∧
      s'.flyStrings = s.flyStrings := by
  cases impl with
  | none => exact ⟨s, rfl, h, fun _ impl hb => ⟨impl, hb, rfl, rfl⟩, rfl⟩
  | some a =>
    obtain ⟨s', hs', h', hshrinks, -, hflys⟩ := h.unref
    exact ⟨s', hs', h', hshrinks, hflys⟩

theorem step (h : Sound toU32 s []) {event : Event} (hs : s.step toU32 event = some s') :
    Sound toU32 s' [] := by
  cases event with
  | string view slot =>
    obtain ⟨⟨s₁, impl⟩, hcreate, rfl⟩ := map_eq_some_iff.mp hs
    exact (h.create hcreate).1.pushString
  | copyString i =>
    obtain ⟨impl, -, hs⟩ := bind_eq_some_iff.mp hs
    obtain ⟨s₁, href, rfl⟩ := map_eq_some_iff.mp hs
    exact (h.refIfNotNull href).1.pushString
  | stringOfFly i =>
    obtain ⟨impl, -, hs⟩ := bind_eq_some_iff.mp hs
    obtain ⟨s₁, href, rfl⟩ := map_eq_some_iff.mp hs
    exact (h.refIfNotNull href).1.pushString
  | dropString i =>
    obtain ⟨impl, hi, hs⟩ := bind_eq_some_iff.mp hs
    obtain ⟨s₁, hs₁, h₁, -⟩ := (h.eraseString hi).unrefIfNotNull
    cases hs.symm.trans hs₁
    exact h₁
  | flyOfString i =>
    obtain ⟨impl, hi, hs⟩ := bind_eq_some_iff.mp hs
    obtain ⟨⟨s₁, mImpl⟩, hfly, rfl⟩ := map_eq_some_iff.mp hs
    obtain ⟨rfl, h₁, -, -, hmark⟩ := h.flyOfString (fun a ha => owners_of_string (ha ▸ hi)) hfly
    exact h₁.pushFly hmark
  | flyOfView view slot =>
    obtain ⟨⟨s₁, mImpl⟩, hfly, rfl⟩ := map_eq_some_iff.mp hs
    obtain ⟨h₁, -, -, hmark⟩ := h.flyOfView hfly
    exact h₁.pushFly fun a ha => (hmark a ha).1
  | copyFly i =>
    obtain ⟨impl, hi, hs⟩ := bind_eq_some_iff.mp hs
    obtain ⟨s₁, href, rfl⟩ := map_eq_some_iff.mp hs
    obtain ⟨h₁, hgrows, -, -⟩ := h.refIfNotNull href
    refine h₁.pushFly fun a ha => hgrows.isFly (h.fly a ?_)
    exact ha ▸ mem_of_getElem? hi
  | dropFly i =>
    obtain ⟨impl, hi, hs⟩ := bind_eq_some_iff.mp hs
    obtain ⟨s₁, hs₁, h₁, -⟩ := (h.eraseFly hi).unrefIfNotNull
    cases hs.symm.trans hs₁
    exact h₁

end Sound

theorem sound_of_run (hrun : run (step toU32) start events = some s) : Sound toU32 s [] :=
  Reachable.of_invariant (fun _ _ _ h hs => Sound.step h hs) sound_start ⟨events, hrun⟩

/-- Whatever a program does with its strings, the table is empty. -/
theorem table_eq_nil (hrun : run (step toU32) start events = some s) :
    s.sTable = [] := (sound_of_run hrun).table

/-- The counts are those of the owners, what is alive has one, and a string can be dropped. -/
structure Counted (toU32 : UInt8 → UInt32) (s : Store) : Prop where
  counted : ∀ a, s.refCount a = s.owners a
  alive : ∀ a, (s.heap a).isSome = true ↔ 0 < s.owners a
  dropString : ∀ i < s.strings.length, ∃ s', s.step toU32 (.dropString i) = some s'
  dropFly : ∀ i < s.flyStrings.length, ∃ s', s.step toU32 (.dropFly i) = some s'

/-- Whatever a program does with its strings, no implementation is lost or used after its end. -/
theorem counted_always (toU32 : UInt8 → UInt32) (events : List Event) :
    Always (step toU32) (Counted toU32) start events := by
  refine (Always.of_invariant (fun _ _ _ h hs => Sound.step h hs) events sound_start).mono
    fun s h => ⟨h.counted, fun a => ?_, fun i hi => ?_, fun i hi => ?_⟩
  · have hcounted : s.refCount a = s.owners a := h.counted a
    rw [← hcounted]
    cases ha : s.heap a with
    | none =>
      rw [refCount_of_none ha]
      exact iff_of_false Bool.false_ne_true (Nat.lt_irrefl 0)
    | some impl =>
      rw [refCount_of_heap ha]
      exact iff_of_true rfl (h.alive a impl ha).referred
  · obtain ⟨s', hs', -⟩ := (h.eraseString (getElem?_eq_getElem hi)).unrefIfNotNull
    exact ⟨s', by rw [Store.step, getElem?_eq_getElem hi]; exact hs'⟩
  · obtain ⟨s', hs', -⟩ := (h.eraseFly (getElem?_eq_getElem hi)).unrefIfNotNull
    exact ⟨s', by rw [Store.step, getElem?_eq_getElem hi]; exact hs'⟩

/-! ### When a step goes through -/

theorem heap_of_create (hs : s.create (some characters) slot = some (s', impl)) :
    s.heap slot = none ∨ characters = [] ∧ ∃ a, s.sTheEmptyStringimpl = some a := by
  cases characters with
  | nil =>
    obtain ⟨⟨s₁, a⟩, hempty, -⟩ := bind_eq_some_iff.mp hs
    cases theEmptyStringimpl_eq_some hempty with
    | inl hold => exact .inr ⟨rfl, a, hold.1⟩
    | inr hnew => exact .inl hnew.2.1
  | cons c cs => exact .inl (ite_none_right_eq_some.mp hs).1

theorem isFly_of_create {view : Option (List UInt8)}
    (hs : s.create view slot = some (s', impl)) {b : Nat} (hb : s'.isFly b) :
    s.isFly b ∨ view = some [] ∧ s.sTheEmptyStringimpl = none ∧ s.heap slot = none := by
  unfold create at hs
  split at hs
  case h_1 =>
    cases hs
    exact .inl hb
  case h_2 =>
    obtain ⟨⟨s₁, a⟩, hempty, hassign⟩ := bind_eq_some_iff.mp hs
    obtain ⟨hs', -⟩ := assign_eq_some.mp hassign
    rw [isFly_of_ref hs'] at hb
    cases theEmptyStringimpl_eq_some hempty with
    | inl hold => exact .inl (hold.2 ▸ hb)
    | inr hnew => exact .inr ⟨rfl, hnew.1, hnew.2.1⟩
  case h_3 c cs =>
    obtain ⟨-, hs⟩ := ite_none_right_eq_some.mp hs
    cases hs
    by_cases hba : b = slot
    · subst hba
      rw [isFly, place_self] at hb
      cases hb
    · rw [isFly, place_of_ne s _ hba] at hb
      exact .inl hb

/-- An address that is free is enough, but for the empty string, whose implementation may be
there. -/
theorem exists_create (hslot : s.heap slot = none)
    (hempty : characters = [] → s.sTheEmptyStringimpl = none) :
    ∃ s', s.create (some characters) slot = some (s', some slot) ∧ s'.refCount slot ≤ 2 := by
  cases characters with
  | nil =>
    have hheap : ({ s.place slot .constructTheEmptyStringImpl with
        sTheEmptyStringimpl := some slot } : Store).heap slot =
          some .constructTheEmptyStringImpl := place_self s slot _
    obtain ⟨s', hs'⟩ := exists_ref_iff.mpr
      (by rw [refCount_of_heap hheap]; exact ⟨Nat.one_pos, by decide⟩)
    refine ⟨s', ?_, ?_⟩
    · simp only [create, theEmptyStringimpl, hempty rfl, hslot, if_true, bind_some, hs',
        map_some]
    · obtain ⟨impl, himpl, -, -, rfl⟩ := ref_eq_some.mp hs'
      cases hheap.symm.trans himpl
      rw [refCount_modify hheap, if_pos rfl]
      decide
  | cons c cs =>
    refine ⟨_, if_pos hslot, ?_⟩
    rw [refCount_of_heap (place_self s slot _)]
    exact Nat.le_succ 1

theorem Sound.exists_flyOfString (h : Sound toU32 s held)
    (ha : 0 < s.owners a + held.count a) (hlt : s.refCount a + 1 < 2 ^ 32) :
    ∃ s', s.flyOfString toU32 (some a) = some (s', some a) := by
  obtain ⟨impl, himpl⟩ := h.exists_impl ha
  obtain ⟨-, -, -, hcount⟩ := h.touch himpl
  rw [← h.counted a, ← hcount] at ha
  rw [← hcount] at hlt
  obtain ⟨s', hs'⟩ := exists_ref_iff.mpr ⟨ha, hlt⟩
  exact ⟨s', (h.flyOfString_eq a).trans (assign_eq_some.mpr ⟨hs', rfl⟩)⟩

theorem Sound.exists_flyOfView (h : Sound toU32 s held)
    (hslot : s.heap slot = none) (hempty : characters = [] → s.sTheEmptyStringimpl = none) :
    ∃ s', s.flyOfView toU32 (some characters) slot = some (s', some slot) := by
  obtain ⟨s₁, hcreate, hcount₁⟩ := exists_create hslot hempty
  obtain ⟨h₁, -, -, -⟩ := h.create hcreate
  obtain ⟨impl, hslot₁⟩ := h₁.exists_impl (pos_of_held (s₁.owners slot) slot held)
  obtain ⟨hmark, -, -, hcount⟩ := h₁.mark hslot₁
  have hpos : 0 < s₁.refCount slot := by
    rw [h₁.counted slot]
    exact pos_of_held (s₁.owners slot) slot held
  have hbounds : 0 < (s₁.mark toU32 slot).refCount slot ∧
      (s₁.mark toU32 slot).refCount slot + 1 < 2 ^ 32 := by
    omega
  obtain ⟨s₂, hs₂⟩ := exists_ref_iff.mpr hbounds
  obtain ⟨s₃, hs₃, -⟩ := (hmark.ref hs₂).1.unref
  have hassign : (s₁.mark toU32 slot).assign slot = some (s₂, some slot) :=
    assign_eq_some.mpr ⟨hs₂, rfl⟩
  refine ⟨s₃, ?_⟩
  simp [h.flyOfView_eq, hcreate, hassign, hs₃]

/-! ## When the table is right -/

/-- No implementation is marked. -/
def Unmarked (s : Store) : Prop := ∀ a, s.isFly a = false

/-- The step marks an implementation: it makes a fly string of a text that is not null and whose
implementation is not marked yet, or it makes the implementation of the empty string. -/
def Marks (s : Store) : Event → Prop
  | .string (some []) slot => s.sTheEmptyStringimpl = none ∧ s.heap slot = none
  | .flyOfString i =>
    ∃ a, s.strings[i]? = some (some a) ∧ s.isFly a = false ∧ s.refCount a + 1 < 2 ^ 32
  | .flyOfView (some _) slot => s.heap slot = none
  | _ => False

theorem Unmarked.empty (hun : s.Unmarked) (h : Sound toU32 s held) :
    s.sTheEmptyStringimpl = none := by
  cases hempty : s.sTheEmptyStringimpl with
  | none => rfl
  | some a => exact nomatch (hun a).symm.trans (h.emptyFly a hempty)

theorem Unmarked.of_isFly (hun : s.Unmarked) (h : ∀ a, s'.isFly a → s.isFly a) : s'.Unmarked := by
  intro a
  rw [← Bool.not_eq_true]
  intro ha
  exact nomatch (hun a).symm.trans (h a ha)

theorem Shrinks.isFly (h : s.Shrinks s') (ha : s'.isFly a) : s.isFly a := by
  obtain ⟨impl', himpl', hfly⟩ := isFly_iff.mp ha
  obtain ⟨impl, himpl, -, hfly'⟩ := h a impl' himpl'
  exact isFly_iff.mpr ⟨impl, himpl, hfly'.symm.trans hfly⟩

theorem Unmarked.step (hun : s.Unmarked) (h : Sound toU32 s []) {event : Event}
    (hmarks : ¬ s.Marks event) (hs : s.step toU32 event = some s') : s'.Unmarked := by
  cases event with
  | string view slot =>
    obtain ⟨⟨s₁, impl⟩, hcreate, rfl⟩ := map_eq_some_iff.mp hs
    refine hun.of_isFly fun a ha => (isFly_of_create hcreate ha).resolve_right ?_
    rintro ⟨rfl, hnew⟩
    exact hmarks hnew
  | copyString i =>
    obtain ⟨impl, -, hs⟩ := bind_eq_some_iff.mp hs
    obtain ⟨s₁, href, rfl⟩ := map_eq_some_iff.mp hs
    exact fun a => ((h.refIfNotNull href).2.2.2 a).trans (hun a)
  | stringOfFly i =>
    obtain ⟨impl, -, hs⟩ := bind_eq_some_iff.mp hs
    obtain ⟨s₁, href, rfl⟩ := map_eq_some_iff.mp hs
    exact fun a => ((h.refIfNotNull href).2.2.2 a).trans (hun a)
  | dropString i =>
    obtain ⟨impl, hi, hs⟩ := bind_eq_some_iff.mp hs
    obtain ⟨s₁, hs₁, -, hshrinks, -⟩ := (h.eraseString hi).unrefIfNotNull
    cases hs.symm.trans hs₁
    exact hun.of_isFly fun a ha => hshrinks.isFly ha
  | flyOfString i =>
    obtain ⟨impl, hi, hs⟩ := bind_eq_some_iff.mp hs
    obtain ⟨⟨s₁, mImpl⟩, hfly, rfl⟩ := map_eq_some_iff.mp hs
    cases impl with
    | none =>
      cases hfly
      exact hun
    | some a =>
      obtain ⟨impl, himpl⟩ := h.exists_impl (owners_of_string hi)
      obtain ⟨-, -, -, hcount⟩ := h.touch himpl
      rw [h.flyOfString_eq] at hfly
      have hbounds := exists_ref_iff.mp ⟨s₁, (assign_eq_some.mp hfly).1⟩
      rw [hcount] at hbounds
      exact absurd ⟨a, hi, hun a, hbounds.2⟩ hmarks
  | flyOfView view slot =>
    obtain ⟨⟨s₁, mImpl⟩, hfly, rfl⟩ := map_eq_some_iff.mp hs
    cases view with
    | none =>
      cases hfly
      exact hun
    | some characters =>
      rw [h.flyOfView_eq] at hfly
      obtain ⟨⟨s₂, newString⟩, hcreate, -⟩ := bind_eq_some_iff.mp hfly
      cases heap_of_create hcreate with
      | inl hslot => exact absurd hslot hmarks
      | inr hempty =>
        obtain ⟨-, a, ha⟩ := hempty
        exact nomatch (hun.empty h).symm.trans ha
  | copyFly i =>
    obtain ⟨impl, -, hs⟩ := bind_eq_some_iff.mp hs
    obtain ⟨s₁, href, rfl⟩ := map_eq_some_iff.mp hs
    exact fun a => ((h.refIfNotNull href).2.2.2 a).trans (hun a)
  | dropFly i =>
    obtain ⟨impl, hi, hs⟩ := bind_eq_some_iff.mp hs
    obtain ⟨s₁, hs₁, -, hshrinks, -⟩ := (h.eraseFly hi).unrefIfNotNull
    cases hs.symm.trans hs₁
    exact hun.of_isFly fun a ha => hshrinks.isFly ha

/-- The table is empty, so that it lacks whatever is marked. -/
theorem Sound.not_interned (h : Sound toU32 s held) (ha : s.isFly a) : ¬ s.Interned := by
  intro hinterned
  have hmem := (hinterned.table a).mpr ha
  rw [h.table] at hmem
  cases hmem

theorem Unmarked.interned (hun : s.Unmarked) (h : Sound toU32 s held) : s.Interned := by
  have hnull : ∀ a, some a ∉ s.flyStrings := fun a ha => nomatch (hun a).symm.trans (h.fly a ha)
  refine ⟨fun a _ ha => absurd ha (hnull a), fun a _ ha => absurd ha (hnull a), fun a => ?_⟩
  rw [h.table, hun a]
  exact iff_of_false nofun nofun

theorem Unmarked.exists_step (hun : s.Unmarked) (h : Sound toU32 s []) {event : Event}
    (hmarks : s.Marks event) : ∃ s', s.step toU32 event = some s' ∧ ¬ s'.Interned := by
  have hempty := hun.empty h
  cases event with
  | string view slot =>
    cases view with
    | none => cases hmarks
    | some characters =>
      cases characters with
      | cons c cs => cases hmarks
      | nil =>
        obtain ⟨s₁, hcreate, -⟩ : ∃ s₁, s.create (some []) slot = some (s₁, some slot) ∧
            s₁.refCount slot ≤ 2 := exists_create hmarks.2 fun _ => hempty
        obtain ⟨h₁, -, -, hcontents⟩ := h.create hcreate
        have hfly := h₁.emptyFly slot ((h₁.empty slot).mp (hcontents slot rfl))
        refine ⟨s₁.pushString (some slot), ?_, h₁.pushString.not_interned hfly⟩
        rw [Store.step, hcreate, map_some]
  | flyOfString i =>
    obtain ⟨a, hi, -, hlt⟩ := hmarks
    obtain ⟨s₁, hs₁⟩ := h.exists_flyOfString (owners_of_string hi) hlt
    obtain ⟨-, h₁, -, -, hfly⟩ := h.flyOfString (fun b hb => owners_of_string (hb ▸ hi)) hs₁
    refine ⟨s₁.pushFly (some a), ?_, (h₁.pushFly hfly).not_interned (hfly a rfl)⟩
    rw [Store.step, hi, bind_some, hs₁, map_some]
  | flyOfView view slot =>
    cases view with
    | none => cases hmarks
    | some characters =>
      obtain ⟨s₁, hs₁⟩ := h.exists_flyOfView hmarks fun _ => hempty
      obtain ⟨h₁, -, -, hfly⟩ := h.flyOfView hs₁
      refine ⟨s₁.pushFly (some slot), ?_,
        (h₁.pushFly fun b hb => (hfly b hb).1).not_interned (hfly slot rfl).1⟩
      rw [Store.step, hs₁, map_some]
  | copyString i => cases hmarks
  | stringOfFly i => cases hmarks
  | dropString i => cases hmarks
  | copyFly i => cases hmarks
  | dropFly i => cases hmarks

/-- In a run from the start, the fly strings are interned in every state exactly when no step
marks an implementation. -/
theorem interned_always_iff (toU32 : UInt8 → UInt32) (events : List Event) :
    Always (step toU32) Interned start events ↔
      Each (step toU32) (fun s event => ¬ s.Marks event) start events := by
  refine always_iff_each (fun s (h : Sound toU32 s [] ∧ s.Unmarked) => h.2.interned h.1)
    (fun s event s' h hmarks hs => ?_) (fun s event h hmarks => ?_)
    ⟨sound_start, fun _ => rfl⟩ events
  · exact ⟨h.1.step hs, h.2.step h.1 hmarks hs⟩
  · exact h.2.exists_step h.1 (not_not.mp hmarks)

/-- Two fly strings of the text `ab` that do not share their implementation. -/
theorem not_interned_twoViews : ∃ s, run (step fun c => c.toUInt32) start
        [.flyOfView (some [0x61, 0x62]) 0, .flyOfView (some [0x61, 0x62]) 1] = some s ∧
      s.flyStrings = [some 0, some 1] ∧ s.contents 0 = s.contents 1 ∧ ¬ s.Interned := by
  refine ⟨_, rfl, rfl, rfl, fun h => ?_⟩
  have heq := h.shared 0 1 (mem_cons_self) (mem_cons_of_mem _ mem_cons_self) rfl
  cases heq

/-! ## When equal fly strings share -/

/-- The step makes a fly string with an implementation of its own, and another one of that text
has a different implementation. -/
def Duplicates (s : Store) : Event → Prop
  | .flyOfString i =>
    ∃ a, s.strings[i]? = some (some a) ∧ s.refCount a + 1 < 2 ^ 32 ∧
      ∃ b, some b ∈ s.flyStrings ∧ s.contents b = s.contents a ∧ b ≠ a
  | .flyOfView (some characters) slot =>
    s.heap slot = none ∧ characters ≠ [] ∧
      ∃ b, some b ∈ s.flyStrings ∧ s.contents b = some characters
  | _ => False

theorem Grows.contents_eq (h : s.Grows s') (ha : s.isFly a) :
    s'.contents a = s.contents a := by
  obtain ⟨impl, himpl, -⟩ := isFly_iff.mp ha
  have hcontents := contents_eq_some.mpr ⟨impl, himpl, rfl⟩
  rw [hcontents]
  exact h.contents hcontents

theorem Shrinks.contents_eq (h : s.Shrinks s') (ha : s'.isFly a) :
    s'.contents a = s.contents a := by
  obtain ⟨impl', himpl', -⟩ := isFly_iff.mp ha
  obtain ⟨impl, himpl, hchars, -⟩ := h a impl' himpl'
  rw [contents, himpl', contents, himpl, map_some, map_some, hchars]

namespace Shared

theorem of_grows (hshared : s.Shared) (h : Sound toU32 s held) (hgrows : s.Grows s')
    (hflys : s'.flyStrings = s.flyStrings) : s'.Shared := by
  intro a b ha hb hcontents
  rw [hflys] at ha hb
  rw [hgrows.contents_eq (h.fly a ha), hgrows.contents_eq (h.fly b hb)] at hcontents
  exact hshared a b ha hb hcontents

theorem of_shrinks (hshared : s.Shared) (h' : Sound toU32 s' held) (hshrinks : s.Shrinks s')
    (hflys : s'.flyStrings = s.flyStrings) : s'.Shared := by
  intro a b ha hb hcontents
  rw [hshrinks.contents_eq (h'.fly a ha), hshrinks.contents_eq (h'.fly b hb)] at hcontents
  exact hshared a b (hflys ▸ ha) (hflys ▸ hb) hcontents

theorem pushFly (hshared : s.Shared)
    (hnew : ∀ a b, impl = some a → some b ∈ s.flyStrings → s.contents b = s.contents a → b = a) :
    (s.pushFly impl).Shared := by
  intro a b ha hb hcontents
  have hcases : ∀ {c}, some c ∈ s.flyStrings ++ [impl] → some c ∈ s.flyStrings ∨ impl = some c :=
    fun hc => (mem_append.mp hc).imp id fun hc => (mem_singleton.mp hc).symm
  cases hcases ha with
  | inl ha =>
    cases hcases hb with
    | inl hb => exact hshared a b ha hb hcontents
    | inr hb => exact hnew b a hb ha hcontents
  | inr ha =>
    cases hcases hb with
    | inl hb => exact (hnew a b ha hb hcontents.symm).symm
    | inr hb => exact Option.some.inj (ha.symm.trans hb)

theorem eraseFly (hshared : s.Shared) (i : Nat) : (s.eraseFly i).Shared := fun a b ha hb =>
  hshared a b (mem_of_mem_eraseIdx ha) (mem_of_mem_eraseIdx hb)

/-- A step that makes no second implementation of a text leaves the fly strings shared. -/
theorem step (hshared : s.Shared) (h : Sound toU32 s []) {event : Event}
    (hdup : ¬ s.Duplicates event) (hs : s.step toU32 event = some s') : s'.Shared := by
  cases event with
  | string view slot =>
    obtain ⟨⟨s₁, impl⟩, hcreate, rfl⟩ := map_eq_some_iff.mp hs
    obtain ⟨-, hgrows, hflys, -⟩ := h.create hcreate
    exact hshared.of_grows h hgrows hflys
  | copyString i | stringOfFly i =>
    obtain ⟨impl, -, hs⟩ := bind_eq_some_iff.mp hs
    obtain ⟨s₁, href, rfl⟩ := map_eq_some_iff.mp hs
    obtain ⟨-, hgrows, hflys, -⟩ := h.refIfNotNull href
    exact hshared.of_grows h hgrows hflys
  | dropString i =>
    obtain ⟨impl, hi, hs⟩ := bind_eq_some_iff.mp hs
    obtain ⟨s₁, hs₁, h₁, hshrinks, hflys⟩ := (h.eraseString hi).unrefIfNotNull
    cases hs.symm.trans hs₁
    have hshared' : (s.eraseString i).Shared := hshared
    exact hshared'.of_shrinks h₁ hshrinks hflys
  | flyOfString i =>
    obtain ⟨impl, hi, hs⟩ := bind_eq_some_iff.mp hs
    obtain ⟨⟨s₁, mImpl⟩, hfly, rfl⟩ := map_eq_some_iff.mp hs
    obtain ⟨rfl, -, hgrows, hflys, -⟩ := h.flyOfString (fun a ha => owners_of_string (ha ▸ hi)) hfly
    refine (hshared.of_grows h hgrows hflys).pushFly ?_
    rintro a b rfl hb hcontents
    obtain ⟨impl, ha⟩ := h.exists_impl (owners_of_string hi)
    obtain ⟨-, -, -, hcount⟩ := h.touch ha
    rw [h.flyOfString_eq] at hfly
    have hlt := (exists_ref_iff.mp ⟨s₁, (assign_eq_some.mp hfly).1⟩).2
    rw [hcount] at hlt
    have ha' := contents_eq_some.mpr ⟨impl, ha, rfl⟩
    rw [hflys] at hb
    rw [hgrows.contents_eq (h.fly b hb), hgrows.contents ha', ← ha'] at hcontents
    by_contra hne
    exact hdup ⟨a, hi, hlt, b, hb, hcontents, hne⟩
  | flyOfView view slot =>
    obtain ⟨⟨s₁, mImpl⟩, hfly, rfl⟩ := map_eq_some_iff.mp hs
    obtain ⟨h₁, hgrows, hflys, hnew⟩ := h.flyOfView hfly
    refine (hshared.of_grows h hgrows hflys).pushFly ?_
    rintro a b rfl hb hcontents
    have ha := (hnew a rfl).2
    rw [ha] at hcontents
    cases view with
    | none => exact nomatch hfly
    | some characters =>
      by_cases hempty : characters = []
      · subst hempty
        have hab := ((h₁.empty a).mp ha).symm.trans ((h₁.empty b).mp hcontents)
        exact (Option.some.inj hab).symm
      · rw [h.flyOfView_eq] at hfly
        obtain ⟨⟨s₂, newString⟩, hcreate, -⟩ := bind_eq_some_iff.mp hfly
        have hslot := (heap_of_create hcreate).resolve_right fun hnil => hempty hnil.1
        rw [hflys] at hb
        rw [hgrows.contents_eq (h.fly b hb)] at hcontents
        exact absurd ⟨hslot, hempty, b, hb, hcontents⟩ hdup
  | copyFly i =>
    obtain ⟨impl, hi, hs⟩ := bind_eq_some_iff.mp hs
    obtain ⟨s₁, href, rfl⟩ := map_eq_some_iff.mp hs
    obtain ⟨-, hgrows, hflys, -⟩ := h.refIfNotNull href
    have hshared₁ := hshared.of_grows h hgrows hflys
    refine hshared₁.pushFly ?_
    rintro a b rfl hb hcontents
    exact hshared₁ b a hb (hflys ▸ mem_of_getElem? hi) hcontents
  | dropFly i =>
    obtain ⟨impl, hi, hs⟩ := bind_eq_some_iff.mp hs
    obtain ⟨s₁, hs₁, h₁, hshrinks, hflys⟩ := (h.eraseFly hi).unrefIfNotNull
    cases hs.symm.trans hs₁
    exact (hshared.eraseFly i).of_shrinks h₁ hshrinks hflys

theorem exists_step (h : Sound toU32 s []) {event : Event} (hdup : s.Duplicates event) :
    ∃ s', s.step toU32 event = some s' ∧ ¬ s'.Shared := by
  cases event with
  | flyOfString i =>
    obtain ⟨a, hi, hlt, b, hb, hcontents, hne⟩ := hdup
    obtain ⟨s₁, hs₁⟩ := h.exists_flyOfString (owners_of_string hi) hlt
    obtain ⟨-, -, hgrows, hflys, -⟩ := h.flyOfString (fun c hc => owners_of_string (hc ▸ hi)) hs₁
    obtain ⟨impl, ha⟩ := h.exists_impl (owners_of_string hi)
    have ha' := contents_eq_some.mpr ⟨impl, ha, rfl⟩
    refine ⟨s₁.pushFly (some a), ?_, fun hshared => hne (hshared b a ?_ ?_ ?_)⟩
    · rw [Store.step, hi, bind_some, hs₁, map_some]
    · exact mem_append_left _ (hflys ▸ hb)
    · exact mem_append_right _ mem_cons_self
    · change s₁.contents b = s₁.contents a
      rw [hgrows.contents_eq (h.fly b hb), hgrows.contents ha', hcontents, ha']
  | flyOfView view slot =>
    cases view with
    | none => cases hdup
    | some characters =>
      obtain ⟨hslot, hne, b, hb, hcontents⟩ := hdup
      obtain ⟨s₁, hs₁⟩ := h.exists_flyOfView hslot fun hempty => absurd hempty hne
      obtain ⟨-, hgrows, hflys, hnew⟩ := h.flyOfView hs₁
      have hbslot : b ≠ slot := by
        rintro rfl
        have hfly := h.fly b hb
        rw [isFly, hslot] at hfly
        cases hfly
      refine ⟨s₁.pushFly (some slot), ?_, fun hshared => hbslot (hshared b slot ?_ ?_ ?_)⟩
      · rw [Store.step, hs₁, map_some]
      · exact mem_append_left _ (hflys ▸ hb)
      · exact mem_append_right _ mem_cons_self
      · change s₁.contents b = s₁.contents slot
        rw [hgrows.contents_eq (h.fly b hb), hcontents, (hnew slot rfl).2]
  | _ => cases hdup

end Shared

/-- In a run from the start, equal fly strings share their implementation in every state exactly
when no step makes a second implementation of a text. -/
theorem shared_always_iff (toU32 : UInt8 → UInt32) (events : List Event) :
    Always (step toU32) Shared start events ↔
      Each (step toU32) (fun s event => ¬ s.Duplicates event) start events := by
  refine always_iff_each (fun s (h : Sound toU32 s [] ∧ s.Shared) => h.2)
    (fun s event s' h hdup hs => ?_) (fun s event h hdup => ?_)
    ⟨sound_start, fun a _ ha => nomatch ha⟩ events
  · exact ⟨h.1.step hs, h.2.step h.1 hdup hs⟩
  · exact Shared.exists_step h.1 (not_not.mp hdup)

end Store

end Literate.AK.FlyString

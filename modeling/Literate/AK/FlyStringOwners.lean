import Literate.AK.FlyString
import Mathlib.Data.List.Count
import Mathlib.Data.List.Perm.Basic

/-!
# AK: the owners of string implementations

The reference count of an implementation is the number of strings that refer to it, that of
the static pointer to the empty one included.  Each operation keeps this, given the references
that the call under way holds.
-/

namespace Literate.AK.FlyString

open Function List Option

variable {a b i : Nat} {characters : List UInt8} {f : StringImpl → StringImpl} {impl : Option Nat}

namespace Store

/-! ## The heap -/

section

variable (s : Store)

@[simp] theorem modify_self (a : Nat) (f : StringImpl → StringImpl) :
    (s.modify a f).heap a = (s.heap a).map f := update_self a _ _

theorem modify_of_ne (f : StringImpl → StringImpl) (hne : b ≠ a) :
    (s.modify a f).heap b = s.heap b := update_of_ne hne _ _

@[simp] theorem place_self (a : Nat) (impl : StringImpl) :
    (s.place a impl).heap a = some impl := update_self a _ _

theorem place_of_ne (impl : StringImpl) (hne : b ≠ a) :
    (s.place a impl).heap b = s.heap b := update_of_ne hne _ _

@[simp] theorem free_self (a : Nat) : (s.free a).heap a = none :=
  update_self a _ _

theorem free_of_ne (hne : b ≠ a) : (s.free a).heap b = s.heap b :=
  update_of_ne hne _ _

end

theorem contents_eq_some {s : Store} :
    s.contents a = some characters ↔ ∃ impl, s.heap a = some impl ∧ impl.characters = characters :=
  map_eq_some_iff

theorem isFly_iff {s : Store} :
    s.isFly a ↔ ∃ impl, s.heap a = some impl ∧ impl.mFly := Option.any_eq_true _ _

/-- The number of references that an implementation counts. -/
def refCount (s : Store) (a : Nat) : Nat := ((s.heap a).map (·.mRefCount)).getD 0

/-- The strings, and the static pointer, that refer to `a`. -/
def owners (s : Store) (a : Nat) : Nat :=
  s.strings.count (some a) + s.flyStrings.count (some a) +
    s.sTheEmptyStringimpl.toList.count a

/-- What holds of every implementation that is alive. -/
structure Alive (toU32 : UInt8 → UInt32) (impl : StringImpl) : Prop where
  referred : 0 < impl.mRefCount
  hashed : impl.mHasHash ∨ impl.mFly → impl.mHash = StringImpl.hashOf toU32 impl.characters

/-- The invariant, while the call under way holds the references `held`. -/
structure Sound (toU32 : UInt8 → UInt32) (s : Store) (held : List Nat) : Prop where
  counted : ∀ a, s.refCount a = s.owners a + held.count a
  alive : ∀ a impl, s.heap a = some impl → Alive toU32 impl
  table : s.sTable = []
  fly : ∀ a, some a ∈ s.flyStrings → s.isFly a
  empty : ∀ a, s.contents a = some [] ↔ s.sTheEmptyStringimpl = some a
  emptyFly : ∀ a, s.sTheEmptyStringimpl = some a → s.isFly a

/-- Nothing of what is alive is lost or unmarked, and its contents stay. -/
def Grows (s s' : Store) : Prop :=
  ∀ a impl, s.heap a = some impl → ∃ impl', s'.heap a = some impl' ∧
    impl'.characters = impl.characters ∧ (impl.mFly → impl'.mFly)


variable {toU32 : UInt8 → UInt32} {s s' : Store} {held held' : List Nat}

theorem Grows.refl (s : Store) : s.Grows s := fun _ impl ha => ⟨impl, ha, rfl, id⟩

theorem Grows.trans {s'' : Store} (h : s.Grows s') (h' : s'.Grows s'') : s.Grows s'' := by
  intro a impl ha
  obtain ⟨impl', ha', hchars, hfly⟩ := h a impl ha
  obtain ⟨impl'', ha'', hchars', hfly'⟩ := h' a impl' ha'
  exact ⟨impl'', ha'', hchars'.trans hchars, fun hmFly => hfly' (hfly hmFly)⟩

theorem Grows.contents (h : s.Grows s') (ha : s.contents a = some characters) :
    s'.contents a = some characters := by
  obtain ⟨impl, himpl, rfl⟩ := contents_eq_some.mp ha
  obtain ⟨impl', himpl', hchars, -⟩ := h a impl himpl
  exact contents_eq_some.mpr ⟨impl', himpl', hchars⟩

theorem Grows.isFly (h : s.Grows s') (ha : s.isFly a) : s'.isFly a := by
  obtain ⟨impl, himpl, hfly⟩ := isFly_iff.mp ha
  obtain ⟨impl', himpl', -, hfly'⟩ := h a impl himpl
  exact isFly_iff.mpr ⟨impl', himpl', hfly' hfly⟩

theorem grows_modify (hf : ∀ impl, s.heap a = some impl →
      (f impl).characters = impl.characters ∧ (impl.mFly → (f impl).mFly)) :
    s.Grows (s.modify a f) := by
  intro b impl hb
  by_cases hba : b = a
  · subst hba
    exact ⟨f impl, by rw [modify_self, hb, map_some], hf impl hb⟩
  · exact ⟨impl, (modify_of_ne s f hba).trans hb, rfl, id⟩

theorem grows_place {impl : StringImpl} (ha : s.heap a = none) : s.Grows (s.place a impl) := by
  intro b impl' hb
  have hba : b ≠ a := by
    rintro rfl
    rw [ha] at hb
    cases hb
  exact ⟨impl', (place_of_ne s impl hba).trans hb, rfl, id⟩

theorem refCount_modify {impl : StringImpl} (ha : s.heap a = some impl) (b : Nat) :
    (s.modify a f).refCount b = if b = a then (f impl).mRefCount else s.refCount b := by
  by_cases hba : b = a
  · subst hba
    simp [refCount, ha]
  · simp only [if_neg hba, refCount, modify_of_ne s f hba]

theorem refCount_place {impl : StringImpl} (b : Nat) :
    (s.place a impl).refCount b = if b = a then impl.mRefCount else s.refCount b := by
  by_cases hba : b = a
  · subst hba
    simp [refCount]
  · simp only [if_neg hba, refCount, place_of_ne s impl hba]

theorem refCount_free (b : Nat) : (s.free a).refCount b = if b = a then 0 else s.refCount b := by
  by_cases hba : b = a
  · subst hba
    simp [refCount]
  · simp only [if_neg hba, refCount, free_of_ne s hba]

theorem refCount_of_heap {impl : StringImpl} (ha : s.heap a = some impl) :
    s.refCount a = impl.mRefCount := by
  simp [refCount, ha]

theorem refCount_of_none (ha : s.heap a = none) : s.refCount a = 0 := by
  simp [refCount, ha]

namespace Sound

theorem exists_impl (h : Sound toU32 s held) (ha : 0 < s.owners a + held.count a) :
    ∃ impl, s.heap a = some impl := by
  cases himpl : s.heap a with
  | some impl => exact ⟨impl, rfl⟩
  | none =>
    have hzero := h.counted a
    rw [refCount_of_none himpl] at hzero
    omega

theorem owners_eq_zero (h : Sound toU32 s held) (ha : s.heap a = none) :
    s.owners a = 0 ∧ held.count a = 0 := by
  have hzero := h.counted a
  rw [refCount_of_none ha] at hzero
  omega

/-- A change of one implementation that keeps its text and its mark. -/
theorem modify (h : Sound toU32 s held) {impl : StringImpl}
    (ha : s.heap a = some impl) (hchars : (f impl).characters = impl.characters)
    (hfly : impl.mFly → (f impl).mFly) (halive : Alive toU32 (f impl))
    (hcount : ∀ b, (s.modify a f).refCount b = s.owners b + held'.count b) :
    Sound toU32 (s.modify a f) held' := by
  have hcontents : ∀ b, (s.modify a f).contents b = s.contents b := by
    intro b
    by_cases hba : b = a
    · subst hba
      simp [contents, ha, hchars]
    · simp only [contents, modify_of_ne s f hba]
  have hgrows : s.Grows (s.modify a f) := by
    refine grows_modify fun impl' ha' => ?_
    cases ha.symm.trans ha'
    exact ⟨hchars, hfly⟩
  constructor
  case counted => exact hcount
  case alive =>
    intro b impl' hb
    by_cases hba : b = a
    · subst hba
      rw [modify_self, ha, map_some, some.injEq] at hb
      exact hb ▸ halive
    · exact h.alive b impl' ((modify_of_ne s f hba).symm.trans hb)
  case table => exact h.table
  case fly => exact fun b hb => hgrows.isFly (h.fly b hb)
  case empty => exact fun b => (hcontents b).symm ▸ h.empty b
  case emptyFly => exact fun b hb => hgrows.isFly (h.emptyFly b hb)

end Sound


/-! ## The operations keep the invariant -/

theorem ref_eq_some : s.ref a = some s' ↔
    ∃ impl, s.heap a = some impl ∧ 0 < impl.mRefCount ∧ impl.mRefCount + 1 < 2 ^ 32 ∧
      s.modify a (fun impl => { impl with mRefCount := impl.mRefCount + 1 }) = s' := by
  simp only [ref, bind_eq_some_iff]
  refine exists_congr fun impl => and_congr_right fun _ => ?_
  rw [ite_none_right_eq_some, some.injEq, and_assoc]

theorem count_cons (a b : Nat) (held : List Nat) :
    (a :: held).count b = held.count b + if b = a then 1 else 0 := by
  rw [List.count_cons]
  by_cases hba : b = a
  · rw [if_pos hba, if_pos (beq_iff_eq.mpr hba.symm)]
  · rw [if_neg hba, if_neg (fun h => hba (beq_iff_eq.mp h).symm)]

theorem count_some_singleton (impl : Option Nat) (a : Nat) :
    [impl].count (some a) = impl.toList.count a := by
  cases impl with
  | none => rfl
  | some b => exact count_map_of_injective [b] some (fun _ _ => some.inj) a

theorem owners_pushString (s : Store) (impl : Option Nat) (a : Nat) :
    (s.pushString impl).owners a = s.owners a + impl.toList.count a := by
  simp only [owners, pushString, count_append, count_some_singleton]
  omega

theorem owners_pushFly (s : Store) (impl : Option Nat) (a : Nat) :
    (s.pushFly impl).owners a = s.owners a + impl.toList.count a := by
  simp only [owners, pushFly, count_append, count_some_singleton]
  omega

theorem count_eraseIdx {impls : List (Option Nat)} (hi : impls[i]? = some impl) (a : Nat) :
    (impls.eraseIdx i).count (some a) + impl.toList.count a = impls.count (some a) := by
  obtain ⟨hlt, rfl⟩ := List.getElem?_eq_some_iff.mp hi
  rw [← (getElem_cons_eraseIdx_perm hlt).count_eq, ← count_some_singleton, Nat.add_comm]
  exact count_append.symm

theorem owners_eraseString (hi : s.strings[i]? = some impl) (a : Nat) :
    (s.eraseString i).owners a + impl.toList.count a = s.owners a := by
  have hcount := count_eraseIdx hi a
  simp only [owners, eraseString]
  omega

theorem owners_eraseFly (hi : s.flyStrings[i]? = some impl) (a : Nat) :
    (s.eraseFly i).owners a + impl.toList.count a = s.owners a := by
  have hcount := count_eraseIdx hi a
  simp only [owners, eraseFly]
  omega

namespace Sound

theorem ref (h : Sound toU32 s held) (hs : s.ref a = some s') :
    Sound toU32 s' (a :: held) ∧ s.Grows s' := by
  obtain ⟨impl, ha, hpos, -, rfl⟩ := ref_eq_some.mp hs
  refine ⟨h.modify ha rfl id ⟨Nat.succ_pos _, (h.alive a impl ha).hashed⟩ fun b => ?_,
    grows_modify fun _ _ => ⟨rfl, id⟩⟩
  have hcounted := h.counted b
  rw [refCount_modify ha, count_cons]
  by_cases hba : b = a
  · subst hba
    rw [refCount_of_heap ha] at hcounted
    simp only [if_pos]
    omega
  · simp only [if_neg hba]
    exact hcounted

theorem free (h : Sound toU32 s (a :: held)) (ha : s.owners a + held.count a = 0) :
    Sound toU32 (s.free a) held := by
  have hne : ∀ b, 0 < s.owners b + held.count b → b ≠ a := by
    rintro b hb rfl
    omega
  have hheap : ∀ b, 0 < s.owners b + held.count b → (s.free a).heap b = s.heap b :=
    fun b hb => free_of_ne s (hne b hb)
  have hfly : ∀ b, 0 < s.owners b + held.count b → s.isFly b → (s.free a).isFly b := by
    intro b hb hb'
    rwa [Store.isFly, hheap b hb]
  have hempty : ∀ b, s.sTheEmptyStringimpl = some b → 0 < s.owners b + held.count b := by
    intro b hb
    rw [owners, hb, toList_some, count_cons, if_pos rfl]
    omega
  constructor
  case counted =>
    intro b
    have hcounted := h.counted b
    rw [count_cons] at hcounted
    rw [refCount_free]
    by_cases hba : b = a
    · subst hba
      rw [if_pos rfl]
      exact ha.symm
    · rw [if_neg hba] at hcounted ⊢
      exact hcounted
  case alive =>
    intro b impl hb
    by_cases hba : b = a
    · subst hba
      rw [free_self] at hb
      cases hb
    · exact h.alive b impl ((free_of_ne s hba).symm.trans hb)
  case table => exact h.table
  case fly =>
    intro b hb
    have hcount : 0 < s.flyStrings.count (some b) := count_pos_iff.mpr hb
    exact hfly b (by rw [owners]; omega) (h.fly b hb)
  case empty =>
    intro b
    by_cases hba : b = a
    · subst hba
      refine iff_of_false ?_ fun hb => (hempty b hb).ne' ha
      rw [contents, free_self]
      exact nofun
    · rw [contents, free_of_ne s hba]
      exact h.empty b
  case emptyFly => exact fun b hb => hfly b (hempty b hb) (h.emptyFly b hb)

end Sound

theorem delete_eq_free (s : Store) (a : Nat) : s.delete a = s.free a := by
  unfold delete
  split
  · rfl
  · rfl

/-- What is left was there before, with its text and its mark. -/
def Shrinks (s s' : Store) : Prop :=
  ∀ a impl', s'.heap a = some impl' → ∃ impl, s.heap a = some impl ∧
    impl'.characters = impl.characters ∧ impl'.mFly = impl.mFly

theorem shrinks_free (s : Store) (a : Nat) : s.Shrinks (s.free a) := by
  intro b impl hb
  by_cases hba : b = a
  · subst hba
    rw [free_self] at hb
    cases hb
  · exact ⟨impl, (free_of_ne s hba).symm.trans hb, rfl, rfl⟩

theorem shrinks_modify
    (hf : ∀ impl, (f impl).characters = impl.characters ∧ (f impl).mFly = impl.mFly) :
    s.Shrinks (s.modify a f) := by
  intro b impl hb
  by_cases hba : b = a
  · subst hba
    rw [modify_self] at hb
    obtain ⟨impl', hb', rfl⟩ := map_eq_some_iff.mp hb
    exact ⟨impl', hb', hf impl'⟩
  · exact ⟨impl, (modify_of_ne s f hba).symm.trans hb, rfl, rfl⟩

namespace Sound

/-- A reference given up: the implementation stays if there is another one. -/
theorem unref (h : Sound toU32 s (a :: held)) :
    ∃ s', s.unref a = some s' ∧ Sound toU32 s' held ∧ s.Shrinks s' ∧
      (0 < s.owners a + held.count a → s.Grows s') ∧ s'.flyStrings = s.flyStrings := by
  have hcounted := h.counted a
  rw [count_cons, if_pos rfl] at hcounted
  obtain ⟨impl, ha⟩ := h.exists_impl (a := a) (by rw [count_cons, if_pos rfl]; omega)
  rw [refCount_of_heap ha] at hcounted
  have hunref : s.unref a = if impl.mRefCount = 0 then none
      else if impl.mRefCount - 1 = 0 then some (s.delete a)
      else some (s.modify a fun impl => { impl with mRefCount := impl.mRefCount - 1 }) := by
    rw [Store.unref, ha, bind_some]
  rw [if_neg (by omega)] at hunref
  by_cases hlast : impl.mRefCount - 1 = 0
  · rw [if_pos hlast, delete_eq_free] at hunref
    exact ⟨_, hunref, h.free (by omega), shrinks_free s a, fun howned => by omega, rfl⟩
  · rw [if_neg hlast] at hunref
    refine ⟨_, hunref, ?_, shrinks_modify fun _ => ⟨rfl, rfl⟩,
      fun _ => grows_modify fun _ _ => ⟨rfl, id⟩, rfl⟩
    refine h.modify ha rfl id ⟨Nat.pos_of_ne_zero hlast, (h.alive a impl ha).hashed⟩ fun b => ?_
    have hcounted' := h.counted b
    rw [count_cons] at hcounted'
    rw [refCount_modify ha]
    by_cases hba : b = a
    · subst hba
      rw [refCount_of_heap ha, if_pos rfl] at hcounted'
      rw [if_pos rfl]
      simp only
      omega
    · rw [if_neg hba] at hcounted' ⊢
      exact hcounted'

theorem place (h : Sound toU32 s held) {impl : StringImpl} (ha : s.heap a = none)
    (hcount : impl.mRefCount = 1) (halive : Alive toU32 impl) (hchars : impl.characters ≠ []) :
    Sound toU32 (s.place a impl) (a :: held) := by
  have hgrows : s.Grows (s.place a impl) := grows_place ha
  constructor
  case counted =>
    intro b
    have hcounted := h.counted b
    rw [refCount_place, count_cons]
    by_cases hba : b = a
    · subst hba
      have hzero := h.owners_eq_zero ha
      rw [if_pos rfl, if_pos rfl, hcount, hzero.2]
      change 1 = s.owners b + _
      omega
    · simp only [if_neg hba]
      exact hcounted
  case alive =>
    intro b impl' hb
    by_cases hba : b = a
    · subst hba
      rw [place_self, some.injEq] at hb
      exact hb ▸ halive
    · exact h.alive b impl' ((place_of_ne s impl hba).symm.trans hb)
  case table => exact h.table
  case fly => exact fun b hb => hgrows.isFly (h.fly b hb)
  case empty =>
    intro b
    by_cases hba : b = a
    · subst hba
      refine iff_of_false ?_ fun hb => ?_
      · rw [contents, place_self, map_some, some.injEq]
        exact hchars
      · have hfly := h.emptyFly b hb
        rw [Store.isFly, ha] at hfly
        cases hfly
    · rw [contents, place_of_ne s impl hba]
      exact h.empty b
  case emptyFly => exact fun b hb => hgrows.isFly (h.emptyFly b hb)

/-- The implementation of the empty string, which its pointer holds. -/
theorem placeEmpty (h : Sound toU32 s held) (hnone : s.sTheEmptyStringimpl = none)
    (ha : s.heap a = none) :
    Sound toU32 { s.place a .constructTheEmptyStringImpl with sTheEmptyStringimpl := some a }
      held := by
  have hgrows : s.Grows (s.place a .constructTheEmptyStringImpl) := grows_place ha
  have hself : (s.place a .constructTheEmptyStringImpl).isFly a := by
    rw [Store.isFly, place_self]
    rfl
  constructor
  case counted =>
    intro b
    have hcounted := h.counted b
    rw [owners, hnone, toList_none, count_nil, Nat.add_zero] at hcounted
    refine (refCount_place (s := s) b).trans ?_
    rw [owners, toList_some, count_cons, count_nil, Nat.zero_add]
    by_cases hba : b = a
    · subst hba
      rw [refCount_of_none ha] at hcounted
      rw [if_pos rfl, if_pos rfl, Nat.add_right_comm]
      exact congrArg (· + 1) hcounted
    · simp only [if_neg hba]
      exact hcounted
  case alive =>
    intro b impl' hb
    by_cases hba : b = a
    · subst hba
      cases (place_self s b _).symm.trans hb
      exact ⟨Nat.one_pos, fun _ => rfl⟩
    · exact h.alive b impl' ((place_of_ne s _ hba).symm.trans hb)
  case table => exact h.table
  case fly => exact fun b hb => hgrows.isFly (h.fly b hb)
  case empty =>
    intro b
    by_cases hba : b = a
    · subst hba
      exact iff_of_true (contents_eq_some.mpr ⟨_, place_self s b _, rfl⟩) rfl
    · have hb := h.empty b
      rw [hnone] at hb
      refine iff_of_false (fun hcontents => ?_) fun hab => hba (some.inj hab).symm
      obtain ⟨impl, himpl, hchars⟩ := contents_eq_some.mp hcontents
      have himpl' := (place_of_ne s _ hba).symm.trans himpl
      exact nomatch hb.mp (contents_eq_some.mpr ⟨impl, himpl', hchars⟩)
  case emptyFly =>
    intro b hb
    cases hb
    exact hself

theorem pushString (h : Sound toU32 s (impl.toList ++ held)) :
    Sound toU32 (s.pushString impl) held := by
  refine { h with counted := fun b => ?_ }
  have hcounted := h.counted b
  rw [count_append] at hcounted
  rw [owners_pushString, Nat.add_assoc]
  exact hcounted

theorem pushFly (h : Sound toU32 s (impl.toList ++ held)) (hfly : ∀ a, impl = some a → s.isFly a) :
    Sound toU32 (s.pushFly impl) held := by
  refine { h with counted := fun b => ?_, fly := fun b hb => ?_ }
  · have hcounted := h.counted b
    rw [count_append] at hcounted
    rw [owners_pushFly, Nat.add_assoc]
    exact hcounted
  · cases mem_append.mp hb with
    | inl hb => exact h.fly b hb
    | inr hb => exact hfly b (mem_singleton.mp hb).symm

theorem eraseString (h : Sound toU32 s held) (hi : s.strings[i]? = some impl) :
    Sound toU32 (s.eraseString i) (impl.toList ++ held) := by
  refine { h with counted := fun b => ?_ }
  have hcounted := h.counted b
  rw [← owners_eraseString hi] at hcounted
  rw [count_append, ← Nat.add_assoc]
  exact hcounted

theorem eraseFly (h : Sound toU32 s held) (hi : s.flyStrings[i]? = some impl) :
    Sound toU32 (s.eraseFly i) (impl.toList ++ held) := by
  refine { h with counted := fun b => ?_, fly := fun b hb => ?_ }
  · have hcounted := h.counted b
    rw [← owners_eraseFly hi] at hcounted
    rw [count_append, ← Nat.add_assoc]
    exact hcounted
  · exact h.fly b (mem_of_mem_eraseIdx hb)

end Sound

end Store

end Literate.AK.FlyString

import Literate.Foundation.Calls

/-!
# AK: the initialisation of a singleton

`Singleton::get` of `AK/Singleton.h`.  A pointer is its address: 0 is `nullptr` and 1 marks
that a thread is creating the object.  Each load, exchange or store of `obj_var` is one step
and so is the call of `InitFunction`; what a call does with the value it has seen belongs to
the step that saw it.
-/

namespace Literate.AK.Singleton

open Foundation

def nullptr : Nat := 0

/-- `(T*)0x1`. -/
def marker : Nat := 1

/-- What `InitFunction` returns: neither `nullptr` nor the marker. -/
def Object : Type := { address : Nat // marker < address }

/-- Where a call of `get` stands. -/
inductive Pc where
  /-- about to load `obj_var` -/
  | load
  /-- about to run `obj_var.compare_exchange_strong(obj, (T*)0x1)` with `obj == nullptr` -/
  | exchange
  /-- about to call `InitFunction` -/
  | create
  /-- about to store the new object -/
  | publish (obj : Nat)
  /-- in the loop that waits, about to load `obj_var` again -/
  | wait
  | returned (obj : Nat)
  | verifyFailed
  deriving DecidableEq, Repr

/-- A call of `get<allow_create>`. -/
structure Call where
  allowCreate : Bool
  pc : Pc
  deriving DecidableEq, Repr

namespace Call

def goto (call : Call) (pc : Pc) : Call := { call with pc := pc }

/-- The end of `get` for the value `obj`: the condition of the loop and the assertions. -/
def settle (call : Call) (obj : Nat) : Call :=
  if obj = marker then call.goto .wait
  else if call.allowCreate = true ∧ obj = nullptr then call.goto .verifyFailed
  else call.goto (.returned obj)

/-- The call is creating the object. -/
def creates (call : Call) : Bool :=
  match call.pc with
  | .create | .publish _ => true
  | _ => false

end Call

/-- `obj_var`, and the results of the calls of `InitFunction` so far. -/
structure Shared where
  objVar : Nat
  created : List Nat

/-- One access of a call; `object` is what `InitFunction` returns if this access calls it. -/
def access (s : Shared) (call : Call) (object : Object) : Option (Shared × Call) :=
  match call.pc with
  | .load =>
    let obj := s.objVar
    if obj ≤ 0x1 then
      if call.allowCreate = true ∧ obj = nullptr then some (s, call.goto .exchange)
      else some (s, call.settle obj)
    else some (s, call.goto (.returned obj))
  | .exchange =>
    if s.objVar = nullptr then some ({ s with objVar := marker }, call.goto .create)
    -- the failed exchange stores the value it saw in `obj`
    else some (s, call.settle s.objVar)
  | .create => some ({ s with created := s.created ++ [object.1] }, call.goto (.publish object.1))
  | .publish obj => some ({ s with objVar := obj }, call.goto (.returned obj))
  | .wait => some (s, call.settle s.objVar)
  | .returned _ | .verifyFailed => none

/-- Calls of `get` with and without `allow_create`, from any number of threads; nobody else
changes `obj_var`. -/
def get : Procedure Shared Call Bool Object Empty where
  start _ allowCreate := some { allowCreate := allowCreate, pc := .load }
  access := access
  other _ e := nomatch e

/-- Before the first call. -/
def fresh : Shared where
  objVar := nullptr
  created := []

/-! ## The invariant -/

/-- The three values of `obj_var`, with the number of calls that create the object. -/
inductive Stage (s : Shared) : Nat → Prop where
  | null (hvar : s.objVar = nullptr) (hcreated : s.created = []) : Stage s 0
  | creating (hvar : s.objVar = marker) (hcreated : s.created.length ≤ 1) : Stage s 1
  | present {obj : Nat} (hlt : marker < obj) (hvar : s.objVar = obj) (hcreated : s.created = [obj]) :
      Stage s 0

/-- What a call that has come to `pc` knows. -/
def Knows (s : Shared) (allowCreate : Bool) : Pc → Prop
  | .load => True
  | .exchange => allowCreate = true
  | .create => s.objVar = marker ∧ s.created = []
  | .publish obj => marker < obj ∧ s.objVar = marker ∧ s.created = [obj]
  | .wait => s.objVar ≠ nullptr
  | .returned obj => allowCreate = true → marker < obj ∧ s.objVar = obj ∧ s.created = [obj]
  | .verifyFailed => False

/-- What a call knows of the shared state. -/
def Consistent (s : Shared) (call : Call) : Prop := Knows s call.allowCreate call.pc

theorem creates_settle (call : Call) (obj : Nat) : (call.settle obj).creates = false := by
  unfold Call.settle
  split
  · rfl
  · split <;> rfl

variable {s s' : Shared} {n : Nat}

/-- A call that has seen the value of `obj_var` ends, or waits. -/
theorem consistent_settle (hstage : Stage s n) (call : Call)
    (hnull : call.allowCreate = true → s.objVar ≠ nullptr) :
    Consistent s (call.settle s.objVar) := by
  unfold Call.settle
  split
  · next hmarker =>
    have hwait : s.objVar ≠ nullptr := by
      rw [hmarker]
      exact Nat.one_ne_zero
    exact hwait
  · next hmarker =>
    rw [if_neg fun hboth => hnull hboth.1 hboth.2]
    intro hallow
    cases hstage with
    | null hvar _ => exact absurd hvar (hnull hallow)
    | creating hvar _ => exact absurd hvar hmarker
    | present hlt hvar hcreated => exact ⟨hvar ▸ hlt, rfl, hvar ▸ hcreated⟩

/-- What a call knows survives the accesses on the way to the object, which no call beside
the one that creates it makes. -/
theorem Consistent.of_no_object (hvar : s.objVar ≤ marker) (hvar' : s'.objVar ≠ nullptr)
    (hn : n = 0) {third : Call} (h : Consistent s third) (hthird : third.creates = true → 0 < n) :
    Consistent s' third := by
  obtain ⟨allowCreate, pc⟩ := third
  subst hn
  cases pc with
  | load => trivial
  | exchange => exact h
  | create => exact absurd (hthird rfl) (Nat.lt_irrefl 0)
  | publish obj => exact absurd (hthird rfl) (Nat.lt_irrefl 0)
  | wait => exact hvar'
  | returned obj =>
    intro hallow
    obtain ⟨hlt, heq, -⟩ := h hallow
    rw [← heq] at hlt
    exact absurd hvar (Nat.not_le.mpr hlt)
  | verifyFailed => exact h

theorem Stage.alone_of_marker (h : Stage s (n + 1)) : n = 0 := by
  generalize hm : n + 1 = m at h
  cases h with
  | null _ _ => cases hm
  | creating _ _ => exact Nat.succ.inj hm
  | present _ _ _ => cases hm

theorem Stage.of_null (h : Stage s n) (hvar : s.objVar = nullptr) : n = 0 ∧ s.created = [] := by
  cases h with
  | null _ hcreated => exact ⟨rfl, hcreated⟩
  | creating hmarker _ => exact absurd (hvar.symm.trans hmarker) Nat.zero_ne_one
  | present hlt hobj _ =>
    rw [← hobj, hvar] at hlt
    exact absurd hlt (Nat.not_lt_zero marker)

/-- A call that only looks at `obj_var`. -/
theorem keeps_settle {call call' : Call} (hstage : Stage s n)
    (hnull : call.allowCreate = true → s.objVar ≠ nullptr)
    (haccess : some (s, call.settle s.objVar) = some (s', call')) :
    Stage s' (n + call'.creates.toNat) ∧ Consistent s' call' ∧
      ∀ third, Consistent s third → (third.creates = true → 0 < n) → Consistent s' third := by
  cases haccess
  rw [creates_settle]
  exact ⟨hstage, consistent_settle hstage call hnull, fun _ hthird _ => hthird⟩

theorem get_keeps : get.Keeps Call.creates Stage Consistent fun _ _ => True where
  start := by
    intro s allowCreate call n hstage hstart
    obtain rfl := Option.some.inj hstart
    exact ⟨hstage, trivial⟩
  other := by
    intro s e
    cases e
  access := by
    intro s call object s' call' n hstage hknows _ haccess
    obtain ⟨allowCreate, pc⟩ := call
    cases pc with
    | load =>
      unfold get access at haccess
      dsimp only at haccess
      split at haccess
      · next hle =>
        split at haccess
        · next hboth =>
          cases haccess
          exact ⟨hstage, hboth.1, fun _ hthird _ => hthird⟩
        · next hboth =>
          exact keeps_settle hstage (fun hallow hnull => hboth ⟨hallow, hnull⟩) haccess
      · next hgt =>
        cases haccess
        refine ⟨hstage, fun _ => ?_, fun _ hthird _ => hthird⟩
        rw [Nat.not_le] at hgt
        have hstage' : Stage s n := hstage
        cases hstage' with
        | null hvar _ =>
          rw [hvar] at hgt
          exact absurd hgt (Nat.not_lt_zero 1)
        | creating hvar _ =>
          rw [hvar] at hgt
          exact absurd hgt (Nat.lt_irrefl 1)
        | present hlt hvar hcreated => exact ⟨hgt, rfl, hvar ▸ hcreated⟩
    | exchange =>
      unfold get access at haccess
      dsimp only at haccess
      split at haccess
      · next hnull =>
        cases haccess
        obtain ⟨hn, hcreated⟩ := hstage.of_null hnull
        obtain rfl : n = 0 := hn
        have hlength : s.created.length ≤ 1 := by
          rw [hcreated]
          exact Nat.zero_le 1
        refine ⟨.creating rfl hlength, ⟨rfl, hcreated⟩, fun third hthird hcount => ?_⟩
        exact hthird.of_no_object (by rw [hnull]; exact Nat.zero_le 1) Nat.one_ne_zero rfl hcount
      · next hnull => exact keeps_settle hstage (fun _ => hnull) haccess
    | create =>
      cases haccess
      obtain ⟨hvar, hcreated⟩ := hknows
      have hn := Stage.alone_of_marker hstage
      obtain rfl : n = 0 := hn
      have hnew : s.created ++ [object.1] = [object.1] := by rw [hcreated, List.nil_append]
      refine ⟨.creating hvar ?_, ⟨object.2, hvar, hnew⟩, fun third hthird hcount => ?_⟩
      · dsimp only
        rw [hnew]
        exact Nat.le_refl 1
      · refine hthird.of_no_object (Nat.le_of_eq hvar) ?_ rfl hcount
        rw [hvar]
        exact Nat.one_ne_zero
    | publish obj =>
      cases haccess
      obtain ⟨hlt, hvar, hcreated⟩ := hknows
      obtain rfl : n = 0 := Stage.alone_of_marker hstage
      refine ⟨.present hlt rfl hcreated, fun _ => ⟨hlt, rfl, hcreated⟩,
        fun third hthird hcount => ?_⟩
      have hpos : obj ≠ nullptr := Nat.ne_of_gt (Nat.lt_trans Nat.zero_lt_one hlt)
      exact hthird.of_no_object (Nat.le_of_eq hvar) hpos rfl hcount
    | wait => exact keeps_settle hstage (fun _ => hknows) haccess
    | returned obj => cases haccess
    | verifyFailed => cases haccess

/-! ## Every interleaving -/

/-- The object is created at most once, every call that has returned has returned it, and
no assertion has failed. -/
structure CreatedOnce (pool : Pool Shared Call) : Prop where
  once : pool.shared.created.length ≤ 1
  returns : ∀ call ∈ pool.calls, call.allowCreate = true → ∀ obj, call.pc = .returned obj →
    pool.shared.created = [obj] ∧ obj ≠ nullptr ∧ obj ≠ marker
  verified : ∀ call ∈ pool.calls, call.pc ≠ .verifyFailed

theorem Stage.length_created (h : Stage s n) : s.created.length ≤ 1 := by
  cases h with
  | null _ hcreated =>
    rw [hcreated]
    exact Nat.zero_le 1
  | creating _ hcreated => exact hcreated
  | present _ _ hcreated =>
    rw [hcreated]
    exact Nat.le_refl 1

theorem createdOnce_of_holds {pool : Pool Shared Call}
    (h : Procedure.Holds Call.creates Stage Consistent pool) : CreatedOnce pool where
  once := h.census.length_created
  returns := by
    intro call hcall hallow obj hpc
    have hknows := h.each call hcall
    unfold Consistent at hknows
    rw [hpc] at hknows
    obtain ⟨hlt, -, hcreated⟩ := hknows hallow
    exact ⟨hcreated, Nat.ne_of_gt (Nat.lt_trans Nat.zero_lt_one hlt), Nat.ne_of_gt hlt⟩
  verified := by
    intro call hcall hpc
    have hknows := h.each call hcall
    unfold Consistent at hknows
    rw [hpc] at hknows
    exact hknows

/-- However the accesses of the calls interleave. -/
theorem createdOnce_always (moves : List (Move Bool Object Empty)) :
    Always get.step CreatedOnce (Procedure.initially fresh) moves :=
  (get_keeps.always (.null rfl rfl) moves).mono fun _ => createdOnce_of_holds

end Literate.AK.Singleton

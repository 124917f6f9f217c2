import Literate.Foundation.Calls
import Mathlib.Data.List.Range
import Mathlib.Algebra.Group.Nat.Defs

/-!
# AK: the revocation of weak pointers

`WeakLink::strong_ref` and `WeakLink::revoke` of `AK/Weakable.h`, sequentially consistent.
`m_consumers` is an `unsigned` that holds a flag and, above it, the number of calls of
`strong_ref` that are using the link.  Each access to one of the two atomics is one step, and
so is `try_ref`.
-/

namespace Literate.AK.WeakLink

open Foundation List Option Nat Bool BitVec
open Procedure (initially)

/-- Where the call of `revoke` stands. -/
inductive Revoker where
  | idle
  /-- in the loop that waits, about to load `m_consumers` -/
  | wait
  /-- about to store `nullptr` in `m_ptr` -/
  | store
  | returned
  | verifyFailed
  deriving DecidableEq, Repr

/-- The link, and where the call of `revoke` stands. -/
structure Shared where
  mPtr : Option Nat
  mConsumers : BitVec 32
  revoker : Revoker

/-- The flag has been set. -/
def Shared.revoked (s : Shared) : Bool := decide (s.revoker ≠ .idle)

/-- Where a call of `strong_ref` stands. -/
inductive Pc where
  /-- about to run `m_consumers.fetch_add(1u << 1)` -/
  | fetchAdd
  /-- about to load `m_ptr` -/
  | load
  /-- about to call `ptr->try_ref()` -/
  | tryRef (ptr : Nat)
  /-- about to run `m_consumers.fetch_sub(1u << 1)` -/
  | fetchSub (ref : Option Nat)
  | returned (ref : Option Nat)
  deriving DecidableEq, Repr

/-- A call of `strong_ref`; `late` records that it began after the flag had been set. -/
structure Call where
  late : Bool
  pc : Pc
  deriving DecidableEq, Repr

def Call.goto (call : Call) (pc : Pc) : Call := { call with pc := pc }

/-- One access of a call of `strong_ref`; `alive` is the answer of `try_ref` if this access
asks for it. -/
def strongRef (s : Shared) (call : Call) (alive : Bool) : Option (Shared × Call) :=
  match call.pc with
  | .fetchAdd =>
    let s' := { s with mConsumers := s.mConsumers + (1#32 <<< 1) }
    if s.mConsumers &&& 1#32 = 0 then some (s', call.goto .load)
    else some (s', call.goto (.fetchSub none))
  | .load =>
    match s.mPtr with
    | none => some (s, call.goto (.fetchSub none))
    | some ptr => some (s, call.goto (.tryRef ptr))
  | .tryRef ptr => some (s, call.goto (.fetchSub (if alive then some ptr else none)))
  | .fetchSub ref =>
    some ({ s with mConsumers := s.mConsumers - (1#32 <<< 1) }, call.goto (.returned ref))
  | .returned _ => none

/-- The condition of the loop in `revoke`, and what follows it. -/
def Shared.await (s : Shared) (currentConsumers : BitVec 32) : Shared :=
  if 0 < currentConsumers then { s with revoker := .wait } else { s with revoker := .store }

/-- One access of the call of `revoke`. -/
def revoke (s : Shared) : Option Shared :=
  match s.revoker with
  | .idle =>
    let currentConsumers := s.mConsumers
    let s' := { s with mConsumers := s.mConsumers ||| 1#32 }
    if currentConsumers &&& 1#32 = 0 then some (s'.await currentConsumers)
    else some { s' with revoker := .verifyFailed }
  | .wait => some (s.await (s.mConsumers &&& ~~~1#32))
  | .store => some { s with mPtr := none, revoker := .returned }
  | .returned | .verifyFailed => none

/-- Any number of calls of `strong_ref` and one call of `revoke`. -/
def link : Procedure Shared Call Unit Bool Unit where
  start s _ := some { late := s.revoked, pc := .fetchAdd }
  access := strongRef
  other s _ := revoke s

/-- A new link to an object. -/
def fresh (ptr : Nat) : Shared where
  mPtr := some ptr
  mConsumers := 0
  revoker := .idle

/-! ## The packed word -/

/-- `consumers` calls above the flag. -/
def packed (consumers : Nat) (flag : Bool) : BitVec 32 := BitVec.ofNat 32 (2 * consumers + flag.toNat)

section

variable (consumers : Nat)

theorem packed_add (flag : Bool) :
    packed consumers flag + (1#32 <<< 1) = packed (consumers + 1) flag := by
  have htwo : (1#32 <<< 1 : BitVec 32) = BitVec.ofNat 32 2 := rfl
  unfold packed
  rw [htwo, ← ofNat_add]
  congr 1
  omega

theorem packed_sub (flag : Bool) :
    packed (consumers + 1) flag - (1#32 <<< 1) = packed consumers flag := by
  rw [← packed_add, BitVec.add_sub_cancel]

theorem packed_and_one (flag : Bool) : packed consumers flag &&& 1#32 = 0 ↔ flag = false := by
  have hand : (packed consumers flag &&& 1#32).toNat = flag.toNat := by
    have hlt : flag.toNat ≤ 1 := Bool.toNat_le flag
    have hone : (1#32).toNat = 1 := rfl
    rw [toNat_and, hone, and_one_is_mod, packed, toNat_ofNat]
    omega
  rw [← toNat_inj, hand]
  cases flag with
  | false => exact iff_of_true rfl rfl
  | true => exact iff_of_false Nat.one_ne_zero true_eq_false.mp

theorem packed_or_one : packed consumers false ||| 1#32 = packed consumers true := by
  apply eq_of_toNat_eq
  have heven : 2 * consumers % 2 ^ 32 = (consumers % 2 ^ 31) <<< 1 := by
    rw [Nat.shiftLeft_eq]
    omega
  have hor := shiftLeft_add_eq_or_of_lt (by decide : 1 < 2 ^ 1) (consumers % 2 ^ 31)
  have hone : (1#32).toNat = 1 := rfl
  rw [BitVec.toNat_or, hone]
  unfold packed
  rw [toNat_ofNat, toNat_ofNat, toNat_false, toNat_true, Nat.add_zero,
    heven, ← hor, Nat.shiftLeft_eq]
  omega

end

theorem or_and_not {w : Nat} {x y : BitVec w} (h : x &&& y = 0#w) : (x ||| y) &&& ~~~y = x := by
  apply eq_of_getLsbD_eq
  intro i hi
  have hbit : (x.getLsbD i && y.getLsbD i) = false := by rw [← getLsbD_and, h, getLsbD_zero]
  rw [getLsbD_and, getLsbD_or, getLsbD_not, decide_eq_true hi]
  revert hbit
  cases x.getLsbD i <;> cases y.getLsbD i <;> decide

theorem packed_and_not_one (consumers : Nat) :
    packed consumers true &&& ~~~1#32 = packed consumers false := by
  rw [← packed_or_one]
  exact or_and_not ((packed_and_one consumers false).mpr rfl)

/-- The count is lost only when 2 ^ 31 calls use the link at once. -/
theorem packed_pos {consumers : Nat} (h : consumers < 2 ^ 31) :
    0 < packed consumers false ↔ 0 < consumers := by
  have hzero : (0 : BitVec 32).toNat = 0 := rfl
  rw [lt_def, hzero]
  unfold packed
  rw [toNat_ofNat, toNat_false]
  omega

/-! ## The invariant -/

/-- The call is between its two updates of `m_consumers`. -/
def Call.consumes (call : Call) : Bool :=
  match call.pc with
  | .load | .tryRef _ | .fetchSub _ => true
  | .fetchAdd | .returned _ => false

/-- The word holds the flag and the number of calls that use the link. -/
structure Counted (s : Shared) (consumers : Nat) : Prop where
  word : s.mConsumers = packed consumers s.revoked
  verified : s.revoker ≠ .verifyFailed

/-- The states of a call that has seen the flag. -/
def Turned (pc : Pc) : Prop := pc = .fetchAdd ∨ pc = .fetchSub none ∨ pc = .returned none

/-- The states of a call that uses the pointer. -/
def UsesPtr : Pc → Prop
  | .load | .tryRef _ => True
  | .fetchAdd | .fetchSub _ | .returned _ => False

/-- What holds of a call: one that began late gets nothing; and, as long as the number of
calls is `bounded`, none uses the pointer once `revoke` has waited for them. -/
structure Guarded (bounded : Prop) (s : Shared) (call : Call) : Prop where
  late : call.late = true → s.revoked = true ∧ Turned call.pc
  waits : bounded → UsesPtr call.pc → s.revoker = .idle ∨ s.revoker = .wait

variable {bounded : Prop}
variable {s s' : Shared} {pc : Pc} {n : Nat} {pool : Pool Shared Call}

/-- A change of the shared state that keeps the flag keeps what holds of the other calls,
unless `revoke` stops waiting. -/
theorem Guarded.mono {third : Call} (h : Guarded bounded s third)
    (hrevoked : s.revoked = true → s'.revoked = true)
    (hwaits : bounded → UsesPtr third.pc → s.revoker = .idle ∨ s.revoker = .wait →
      s'.revoker = .idle ∨ s'.revoker = .wait) : Guarded bounded s' third where
  late hlate := ⟨hrevoked (h.late hlate).1, (h.late hlate).2⟩
  waits hbounded huses := hwaits hbounded huses (h.waits hbounded huses)

theorem UsesPtr.consumes {call : Call} (h : UsesPtr call.pc) : call.consumes = true := by
  obtain ⟨late, pc⟩ := call
  cases pc with
  | load => rfl
  | tryRef _ => rfl
  | fetchAdd => exact absurd h not_false
  | fetchSub _ => exact absurd h not_false
  | returned _ => exact absurd h not_false

theorem not_turned_of_usesPtr (h : UsesPtr pc) : ¬ Turned pc := by
  intro hturned
  obtain rfl | rfl | rfl := hturned
  · exact h
  · exact h
  · exact h

theorem revoker_idle (h : s.revoked = false) : s.revoker = .idle :=
  not_not.mp (of_decide_eq_false h)

/-- An access of `strong_ref` changes nothing but the count: what it leaves of the call, and
of the others. -/
theorem guarded_goto {call : Call} (word : BitVec 32) (n : Nat)
    (h : Guarded bounded s call) (hturned : call.late = true → Turned pc)
    (hwaits : bounded → UsesPtr pc → s.revoker = .idle ∨ s.revoker = .wait) :
    Guarded bounded { s with mConsumers := word } (call.goto pc) ∧
      ∀ third, Guarded bounded s third → (third.consumes = true → 0 < n) →
        Guarded bounded { s with mConsumers := word } third :=
  ⟨{ late := fun hlate => ⟨(h.late hlate).1, hturned hlate⟩, waits := hwaits },
    fun _ hthird _ => hthird.mono (fun hrevoked => hrevoked) fun _ _ hrevoker => hrevoker⟩

theorem strongRef_keeps {call call' : Call} {alive : Bool}
    (hcounted : Counted s (n + call.consumes.toNat)) (h : Guarded bounded s call)
    (haccess : strongRef s call alive = some (s', call')) :
    Counted s' (n + call'.consumes.toNat) ∧ Guarded bounded s' call' ∧
      ∀ third, Guarded bounded s third → (third.consumes = true → 0 < n) →
        Guarded bounded s' third := by
  obtain ⟨late, pc⟩ := call
  have hword := hcounted.word
  unfold strongRef at haccess
  cases pc with
  | fetchAdd =>
    have hflag := packed_and_one n s.revoked
    have hnext : Counted { s with mConsumers := s.mConsumers + (1#32 <<< 1) } (n + 1) :=
      ⟨by rw [hword]; exact packed_add n s.revoked, hcounted.verified⟩
    dsimp only at haccess
    rw [hword] at haccess
    split at haccess
    · next hclear =>
      cases haccess
      have hclear' := hflag.mp hclear
      refine ⟨hword ▸ hnext, guarded_goto _ n h (fun hlate => ?_) fun _ _ => ?_⟩
      · exact absurd ((h.late hlate).1.symm.trans hclear') nofun
      · exact .inl (revoker_idle hclear')
    · next hset =>
      cases haccess
      exact ⟨hword ▸ hnext, guarded_goto _ n h (fun _ => .inr (.inl rfl))
        fun _ huses => huses.elim⟩
  | load =>
    have hearly : late = true → ∀ pc, Turned pc :=
      fun hlate => absurd (h.late hlate).2 (not_turned_of_usesPtr trivial)
    dsimp only at haccess
    split at haccess
    · cases haccess
      exact ⟨hcounted, guarded_goto _ n h (fun hlate => hearly hlate _) fun _ huses => huses.elim⟩
    · cases haccess
      exact ⟨hcounted, guarded_goto _ n h (fun hlate => hearly hlate _)
        fun hbounded _ => h.waits hbounded trivial⟩
  | tryRef ptr =>
    cases haccess
    have hearly : late = true → ∀ pc, Turned pc :=
      fun hlate => absurd (h.late hlate).2 (not_turned_of_usesPtr trivial)
    exact ⟨hcounted, guarded_goto _ n h (fun hlate => hearly hlate _) fun _ huses => huses.elim⟩
  | fetchSub ref =>
    cases haccess
    have hturned : late = true → Turned (.returned ref) := by
      intro hlate
      obtain heq | heq | heq := (h.late hlate).2
      · cases heq
      · cases heq
        exact .inr (.inr rfl)
      · cases heq
    refine ⟨⟨?_, hcounted.verified⟩, guarded_goto _ n h hturned fun _ huses => huses.elim⟩
    rw [hword]
    exact packed_sub n s.revoked
  | returned ref => cases haccess

theorem revoked_await (s : Shared) (word : BitVec 32) : (s.await word).revoked = true := by
  unfold Shared.await
  split <;> rfl

/-- The loop of `revoke` stops waiting only when no call uses the link. -/
theorem await_keeps (hbound : bounded → n < 2 ^ 31) (hword : s'.mConsumers = packed n true) :
    Counted (s'.await (packed n false)) n ∧
      ∀ third, Guarded bounded s third → (third.consumes = true → 0 < n) →
        Guarded bounded (s'.await (packed n false)) third := by
  constructor
  · constructor
    · rw [revoked_await]
      unfold Shared.await
      split <;> exact hword
    · unfold Shared.await
      split <;> exact nofun
  · intro third hthird hcount
    refine hthird.mono (fun _ => revoked_await s' _) fun hbounded huses _ => .inr ?_
    unfold Shared.await
    rw [if_pos ((packed_pos (hbound hbounded)).mpr (hcount huses.consumes))]

theorem revoke_keeps (hcounted : Counted s n)
    (hbound : bounded → n < 2 ^ 31) (hrevoke : revoke s = some s') : Counted s' n ∧
      ∀ third, Guarded bounded s third → (third.consumes = true → 0 < n) →
        Guarded bounded s' third := by
  have hword := hcounted.word
  unfold revoke at hrevoke
  cases hrevoker : s.revoker with
  | idle =>
    have hclear : s.revoked = false := decide_eq_false (not_not.mpr hrevoker)
    rw [hclear] at hword
    rw [hrevoker] at hrevoke
    rw [hword, if_pos ((packed_and_one n false).mpr rfl)] at hrevoke
    cases hrevoke
    exact await_keeps hbound (packed_or_one n)
  | wait =>
    have hset : s.revoked = true := decide_eq_true (by rw [hrevoker]; exact nofun)
    rw [hset] at hword
    rw [hrevoker] at hrevoke
    rw [hword, packed_and_not_one] at hrevoke
    cases hrevoke
    exact await_keeps hbound hword
  | store =>
    rw [hrevoker] at hrevoke
    cases hrevoke
    have hset : s.revoked = true := decide_eq_true (by rw [hrevoker]; exact nofun)
    refine ⟨⟨hword.trans (by rw [hset]; rfl), nofun⟩, fun third hthird _ => ?_⟩
    refine hthird.mono (fun _ => rfl) fun _ _ hwaits => ?_
    rw [hrevoker] at hwaits
    obtain heq | heq := hwaits <;> cases heq
  | returned =>
    rw [hrevoker] at hrevoke
    cases hrevoke
  | verifyFailed =>
    rw [hrevoker] at hrevoke
    cases hrevoke

/-- What one step keeps; the count has to fit its bits for the calls to be waited for. -/
theorem link_keeps : link.Keeps Call.consumes Counted (Guarded bounded)
      fun _ consumers => bounded → consumers < 2 ^ 31 where
  start := by
    intro s b call n hcounted hstart
    obtain rfl := some.inj hstart
    exact ⟨hcounted, { late := fun hlate => ⟨hlate, .inl rfl⟩, waits := fun _ huses => huses.elim }⟩
  access := fun hcounted hguarded _ haccess => strongRef_keeps hcounted hguarded haccess
  other := fun hcounted hbound hother => revoke_keeps hcounted hbound hother

/-! ## Every interleaving -/

/-- The call has not returned. -/
def Call.inProgress (call : Call) : Bool :=
  match call.pc with
  | .returned _ => false
  | _ => true

/-- A call that began after the flag was set returns null, the assertion of `revoke` holds,
and the word is the flag alone when no call is in progress. -/
structure Flagged (pool : Pool Shared Call) : Prop where
  late : ∀ call ∈ pool.calls, call.late = true → ∀ ref, call.pc = .returned ref → ref = none
  verified : pool.shared.revoker ≠ .verifyFailed
  settled : pool.calls.countP Call.inProgress = 0 →
    (pool.shared.revoker = .idle → pool.shared.mConsumers = 0) ∧
      (pool.shared.revoker = .returned → pool.shared.mConsumers = 1)

/-- After `revoke` has returned no call is about to use the object. -/
def Unused (pool : Pool Shared Call) : Prop :=
  pool.shared.revoker = .returned → ∀ call ∈ pool.calls, ∀ ptr, call.pc ≠ .tryRef ptr

/-- The count has room for the calls in progress. -/
def Fits (pool : Pool Shared Call) (_ : Move Unit Bool Unit) : Prop :=
  pool.calls.countP Call.inProgress < 2 ^ 31

instance (pool : Pool Shared Call) (move : Move Unit Bool Unit) : Decidable (Fits pool move) :=
  inferInstanceAs (Decidable (_ < _))

theorem inProgress_of_consumes (call : Call) (h : call.consumes = true) :
    call.inProgress = true := by
  obtain ⟨late, pc⟩ := call
  cases pc with
  | returned _ => exact h
  | _ => rfl

theorem consumes_le_inProgress (calls : List Call) :
    calls.countP Call.consumes ≤ calls.countP Call.inProgress :=
  countP_mono_left fun call _ => inProgress_of_consumes call

theorem flagged_of_holds (h : Procedure.Holds Call.consumes Counted (Guarded False) pool) :
    Flagged pool where
  late := by
    intro call hcall hlate ref hpc
    obtain ⟨-, hturned⟩ := (h.each call hcall).late hlate
    rw [hpc] at hturned
    obtain heq | heq | heq := hturned
    · cases heq
    · cases heq
    · exact Pc.returned.inj heq
  verified := h.census.verified
  settled := by
    intro hnone
    have hle := consumes_le_inProgress pool.calls
    rw [hnone, le_zero] at hle
    have hword := h.census.word
    rw [hle] at hword
    constructor
    · intro hidle
      rw [hword, Shared.revoked, hidle]
      rfl
    · intro hreturned
      rw [hword, Shared.revoked, hreturned]
      rfl

theorem unused_of_holds (h : Procedure.Holds Call.consumes Counted (Guarded True) pool) :
    Unused pool := by
  intro hreturned call hcall ptr hpc
  have huses : UsesPtr call.pc := by
    rw [hpc]
    trivial
  have hrevoker := (h.each call hcall).waits trivial huses
  rw [hreturned] at hrevoker
  obtain heq | heq := hrevoker <;> cases heq

/-- However the accesses interleave; the object is left alone after `revoke` in the runs in
which fewer than 2 ^ 31 calls are in progress at once. -/
theorem revoked_always (ptr : Nat) (moves : List (Move Unit Bool Unit)) :
    Always link.step Flagged (initially (fresh ptr)) moves ∧
      (Each link.step Fits (initially (fresh ptr)) moves →
        Always link.step Unused (initially (fresh ptr)) moves) := by
  have hinitial : Counted (fresh ptr) 0 := ⟨rfl, nofun⟩
  constructor
  · have hkeeps : link.Keeps Call.consumes Counted (Guarded False) fun _ _ => True :=
      { start := link_keeps.start
        access := fun hcounted h _ haccess => strongRef_keeps hcounted h haccess
        other := fun hcounted _ hother => revoke_keeps hcounted False.elim hother }
    exact (hkeeps.always hinitial moves).mono fun _ => flagged_of_holds
  · intro hfits
    have hcondition := hfits.mono (D := fun pool _ =>
      True → pool.calls.countP Call.consumes < 2 ^ 31) fun pool _ hfit _ =>
        Nat.lt_of_le_of_lt (consumes_le_inProgress pool.calls) hfit
    exact (link_keeps.always_of_each hinitial hcondition).mono fun _ => unused_of_holds

/-- Two calls around a call of `revoke`: the first uses the object while `revoke` waits. -/
def sampleMoves : List (Move Unit Bool Unit) :=
  [.start (), .access 0 true, .access 0 true, .other (), .start (), .other (), .access 0 true,
    .access 0 true, .access 1 true, .access 1 true, .other (), .other ()]

theorem revoked_always_sample : Always link.step Flagged (initially (fresh 8)) sampleMoves ∧
      Always link.step Unused (initially (fresh 8)) sampleMoves :=
  ⟨(revoked_always 8 sampleMoves).1,
    (revoked_always 8 sampleMoves).2 (by decide)⟩

/-! ## Too many calls

With `n` calls in progress that have added themselves, the count is `2 * n` modulo
`2 ^ 32`. -/

theorem run_starts (s : Shared) (calls : List Call) (n : Nat) :
    run link.step { shared := s, calls := calls } (List.replicate n (.start ())) =
      some { shared := s, calls := calls ++ List.replicate n { late := s.revoked, pc := .fetchAdd } } := by
  induction n generalizing calls with
  | zero => simp only [List.replicate_zero, append_nil, run_nil]
  | succ n ih =>
    have hstep : link.step { shared := s, calls := calls } (.start ()) =
        some { shared := s, calls := calls ++ [{ late := s.revoked, pc := .fetchAdd }] } := rfl
    rw [List.replicate_succ, run, hstep, bind_some, ih, List.append_assoc,
      singleton_append, ← List.replicate_succ]

/-- The link while `n` calls have added themselves. -/
def entered (ptr n : Nat) : Shared :=
  { fresh ptr with mConsumers := packed n false }

theorem strongRef_entered (ptr n : Nat) (alive : Bool) :
    strongRef (entered ptr n) { late := false, pc := .fetchAdd } alive =
      some (entered ptr (n + 1), { late := false, pc := .load }) := by
  have hclear : (entered ptr n).mConsumers &&& 1#32 = 0 := (packed_and_one n false).mpr rfl
  unfold strongRef
  rw [if_pos hclear]
  unfold entered
  rw [← packed_add]
  rfl

theorem run_adds (ptr m n : Nat) : run link.step
      { shared := entered ptr m
        calls := List.replicate m { late := false, pc := .load } ++
          List.replicate n { late := false, pc := .fetchAdd } }
      ((List.range' m n).map fun i => .access i true) =
      some
        { shared := entered ptr (m + n)
          calls := List.replicate (m + n) { late := false, pc := .load } } := by
  induction n generalizing m with
  | zero => rw [List.replicate_zero, append_nil]; rfl
  | succ n ih =>
    have hlength : (List.replicate m ({ late := false, pc := .load } : Call)).length = m :=
      length_replicate
    have hget : (List.replicate m ({ late := false, pc := .load } : Call) ++
        List.replicate (n + 1) { late := false, pc := .fetchAdd })[m]? =
        some { late := false, pc := .fetchAdd } := by
      rw [List.getElem?_append_right (Nat.le_of_eq hlength), hlength, Nat.sub_self,
        List.replicate_succ]
      rfl
    have hset : (List.replicate m ({ late := false, pc := .load } : Call) ++
        List.replicate (n + 1) ({ late := false, pc := .fetchAdd } : Call)).set m
          { late := false, pc := .load } =
        List.replicate (m + 1) { late := false, pc := .load } ++
          List.replicate n { late := false, pc := .fetchAdd } := by
      rw [set_append_right _ _ (Nat.le_of_eq hlength), hlength, Nat.sub_self,
        List.replicate_succ, set_cons_zero, List.replicate_succ', List.append_assoc,
        singleton_append]
    rw [range'_succ, map_cons, run, Procedure.step, hget, bind_some]
    have haccess : link.access (entered ptr m) { late := false, pc := .fetchAdd } true =
        some (entered ptr (m + 1), { late := false, pc := .load }) :=
      strongRef_entered ptr m true
    rw [haccess, map_some, bind_some]
    rw [hset, ih, Nat.add_right_comm, Nat.add_assoc]

/-- `n` calls add themselves, the first of them loads the pointer, and `revoke` is called. -/
def crowd (n : Nat) : List (Move Unit Bool Unit) :=
  List.replicate n (.start ()) ++
    ((List.range' 0 n).map (fun i => .access i true) ++ [.access 0 true, .other (), .other ()])

/-- When the count has come back to 0, `revoke` does not wait. -/
theorem run_crowd (ptr n : Nat) (hword : packed (n + 1) false = 0) :
    ∃ pool, run link.step (initially (fresh ptr)) (crowd (n + 1)) = some pool ∧
      ¬ Unused pool := by
  have hloads := run_adds ptr 0 (n + 1)
  rw [List.replicate_zero, nil_append, Nat.zero_add] at hloads
  have hentered : entered ptr (n + 1) = fresh ptr := by
    unfold entered
    rw [hword]
    rfl
  have hentered' : entered ptr 0 = fresh ptr := rfl
  rw [hentered, hentered'] at hloads
  have hclear : (0 : BitVec 32) &&& 1#32 = 0 := by decide
  have hnone : ¬ (0 : BitVec 32) < 0 := by decide
  have hrevoke : revoke (fresh ptr) =
      some { mPtr := some ptr, mConsumers := 1, revoker := .store } := by
    unfold revoke Shared.await fresh
    dsimp only
    rw [if_pos hclear, if_neg hnone]
    rfl
  have hlast : run link.step
      { shared := fresh ptr
        calls := { late := false, pc := .load } :: List.replicate n { late := false, pc := .load } }
      [.access 0 true, .other (), .other ()] =
      some
        { shared := { mPtr := none, mConsumers := 1, revoker := .returned }
          calls := { late := false, pc := .tryRef ptr } ::
            List.replicate n { late := false, pc := .load } } :=
    run_cons_eq_some.mpr ⟨_, rfl,
      run_cons_eq_some.mpr ⟨_, congrArg (Option.map _) hrevoke,
        run_cons_eq_some.mpr ⟨_, rfl, rfl⟩⟩⟩
  rw [List.replicate_succ] at hloads
  refine ⟨_, run_append.mpr ⟨_, run_starts (fresh ptr) [] (n + 1),
    run_append.mpr ⟨_, hloads, hlast⟩⟩, fun hunused => ?_⟩
  exact hunused rfl _ mem_cons_self ptr rfl

/-- With 2 ^ 31 calls in progress `revoke` returns while one of them is about to use the
object. -/
theorem not_unused_crowd : ¬ Always link.step Unused (initially (fresh 8)) (crowd 0x80000000) := by
  intro halways
  obtain ⟨pool, hrun, hunused⟩ := run_crowd 8 0x7fffffff rfl
  exact hunused (always_iff.mp halways _ pool (prefix_refl _) hrun)

end Literate.AK.WeakLink

import Literate.Foundation.Calls
import Literate.Foundation.SetBits

/-!
# Kernel: waking idle processors

`Processor::smp_wake_n_idle_processors` of `Kernel/Arch/x86/common/Processor.cpp`.  Every
access to `s_idle_cpu_mask` is one step and so is every inter-processor interrupt; the calls
of the processors interleave freely with each other and with processors that become idle or
busy by themselves.

`cleared` and `sent` are not read by the code.  They record which processors' bits a call
has taken from the mask and to whom it has sent an interrupt.
-/

namespace Literate.Kernel.IdleProcessors

open Foundation List Nat BitVec

/-- What does not change once the processors are up: their number and `s_smp_enabled`.  The
mask has a bit for each of them. -/
structure Topology where
  count : Nat
  smpEnabled : Bool
  fits : count ≤ 32

/-- `s_idle_cpu_mask`, and the values it had before, the last one first: a relaxed load may
see one of them. -/
structure Shared where
  mask : BitVec 32
  earlier : List (BitVec 32)

namespace Shared

def store (s : Shared) (mask : BitVec 32) : Shared where
  mask := mask
  earlier := s.mask :: s.earlier

end Shared

/-- Where a call stands. -/
inductive Pc where
  /-- about to load `s_idle_cpu_mask` -/
  | load
  /-- about to run `s_idle_cpu_mask.fetch_and(~found_mask)` -/
  | fetchAnd (foundMask : BitVec 32)
  /-- in the loop over the bits that were cleared, about to send an interrupt; `left` turns
  of it remain -/
  | send (idleMask : BitVec 32) (left : Nat)
  | returned (didWakeCount : BitVec 32)
  | verifyFailed
  deriving DecidableEq, Repr

/-- A call of `smp_wake_n_idle_processors` on the processor `self`. -/
structure Call where
  self : Nat
  wakeCount : BitVec 32
  didWakeCount : BitVec 32
  pc : Pc
  cleared : List Nat
  sent : List Nat
  deriving DecidableEq, Repr

namespace Call

def goto (call : Call) (pc : Pc) : Call := { call with pc := pc }

/-- The condition of the loop, and the return behind it. -/
def loop (call : Call) : Call :=
  if call.didWakeCount < call.wakeCount then call.goto .load
  else call.goto (.returned call.didWakeCount)

end Call

/-- `1u << cpu`. -/
def bit (cpu : Nat) : BitVec 32 := 1#32 <<< cpu

/-- The loop that builds `found_mask`, for the turns that remain. -/
def findIdle : Nat → BitVec 32 → BitVec 32 → BitVec 32
  | 0, _, foundMask => foundMask
  | left + 1, idleMask, foundMask =>
    let cpu := bitScanForward idleMask - 1
    findIdle left (idleMask &&& ~~~bit cpu) (foundMask ||| bit cpu)

/-- A call with its arguments, and `did_wake_count` set to 0. -/
def called (self : Nat) (wakeCount : BitVec 32) : Call where
  self := self
  wakeCount := wakeCount
  didWakeCount := 0
  pc := .load
  cleared := []
  sent := []

/-- A call up to the loop: its assertions, and `wake_count` cut to one less than the number
of processors. -/
def begin (topology : Topology) (self : Nat) (wakeCount : BitVec 32) : Call :=
  let call := called self wakeCount
  if wakeCount = 0 then call.goto .verifyFailed
  else if topology.smpEnabled = false then call.goto (.returned 0)
  else if topology.count ≤ wakeCount.toNat then
    let call := { call with wakeCount := BitVec.ofNat 32 (topology.count - 1) }
    if call.wakeCount = 0 then call.goto .verifyFailed else call.loop
  else call.loop

/-- One access of a call; a load sees the value that the mask had `age` changes ago. -/
def access (s : Shared) (call : Call) (age : Nat) : Option (Shared × Call) :=
  match call.pc with
  | .load =>
    (s.mask :: s.earlier)[age]?.map fun seen =>
      let idleMask := seen &&& ~~~bit call.self
      let idleCount := popcount idleMask
      if idleCount = 0 then (s, call.goto (.returned call.didWakeCount))
      else (s, call.goto (.fetchAnd (findIdle idleCount idleMask 0)))
  | .fetchAnd foundMask =>
    let mask := s.mask &&& ~~~foundMask
    let idleMask := s.mask &&& foundMask
    let call := { call with cleared := call.cleared ++ setBits (s.mask &&& ~~~mask) }
    if idleMask = 0 then some (s.store mask, call.loop)
    else some (s.store mask, call.goto (.send idleMask (popcount idleMask)))
  | .send idleMask left =>
    let cpu := bitScanForward idleMask - 1
    let call :=
      { call with sent := call.sent ++ [cpu], didWakeCount := call.didWakeCount + 1 }
    if left - 1 = 0 then some (s, call.loop)
    else some (s, call.goto (.send (idleMask &&& ~~~bit cpu) (left - 1)))
  | .returned _ | .verifyFailed => none

/-- What a processor does to the mask by itself. -/
inductive Turn where
  | idle (cpu : Nat)
  | busy (cpu : Nat)
  deriving DecidableEq, Repr

/-- Calls on any processors, and processors that set or take back their bits. -/
def wake (topology : Topology) : Procedure Shared Call (Nat × BitVec 32) Nat Turn where
  start _ args :=
    if args.1 < topology.count then some (begin topology args.1 args.2) else none
  access := access
  other s turn :=
    match turn with
    | .idle cpu => if cpu < topology.count then some (s.store (s.mask ||| bit cpu)) else none
    | .busy cpu => if cpu < topology.count then some (s.store (s.mask &&& ~~~bit cpu)) else none

/-! ## Masks -/

theorem not_getLsbD_bit (x : BitVec 32) (cpu : Nat) : (x &&& ~~~bit cpu).getLsbD cpu = false := by
  rcases Nat.lt_or_ge cpu 32 with hlt | hge
  · have hself : decide (cpu ≠ cpu) = false := decide_eq_false (not_not.mpr rfl)
    unfold bit
    rw [getLsbD_and_not hlt, hself, Bool.and_false]
  · exact getLsbD_of_ge _ _ hge

theorem findIdle_eq (left : Nat) (idleMask foundMask : BitVec 32) (h : popcount idleMask = left) :
    findIdle left idleMask foundMask = foundMask ||| idleMask := by
  induction left generalizing idleMask foundMask with
  | zero =>
    rw [popcount_eq_zero.mp h, findIdle]
    exact (BitVec.or_zero).symm
  | succ left ih =>
    cases hbits : setBits idleMask with
    | nil =>
      unfold popcount at h
      rw [hbits] at h
      cases h
    | cons cpu rest =>
      have hrest := setBits_and_not hbits
      have hleft : popcount (idleMask &&& ~~~bit cpu) = left := by
        unfold popcount at h ⊢
        rw [hbits] at h
        unfold bit
        rw [hrest]
        exact Nat.succ.inj h
      have hmem : idleMask.getLsbD cpu = true := by
        rw [← mem_setBits, hbits]
        exact mem_cons_self
      have hlt := lt_of_getLsbD hmem
      rw [findIdle, bitScanForward_eq hbits, ih _ _ hleft]
      apply eq_of_getLsbD_eq
      intro i _
      unfold bit
      simp only [getLsbD_or, getLsbD_and_not hlt, getLsbD_one_shiftLeft hlt]
      rcases Nat.decEq i cpu with hne | rfl
      · rw [decide_eq_false hne, decide_eq_true hne, Bool.or_false, Bool.and_true]
      · rw [hmem, decide_eq_true rfl, Bool.or_true, Bool.true_or]

/-- What `fetch_and` takes from the mask is what the caller goes on with. -/
theorem cleared_eq (mask foundMask : BitVec 32) :
    mask &&& ~~~(mask &&& ~~~foundMask) = mask &&& foundMask := by
  apply eq_of_getLsbD_eq
  intro i hi
  simp only [getLsbD_and, getLsbD_not, decide_eq_true hi]
  cases mask.getLsbD i <;> cases foundMask.getLsbD i <;> rfl

theorem length_setBits_le (x : BitVec 32) : (setBits x).length ≤ 32 := by
  have hle := length_filter_le x.getLsbD (List.range 32)
  rw [length_range] at hle
  exact hle

/-! ## What a call has done -/

/-- The processors whose bits the call has cleared and that it has not interrupted yet. -/
def pending : Pc → List Nat
  | .send idleMask _ => setBits idleMask
  | .load | .fetchAnd _ | .returned _ | .verifyFailed => []

/-- What holds where the call stands. -/
def Placed (call : Call) : Pc → Prop
  | .load => call.wakeCount.toNat < 32 ∧ call.didWakeCount < call.wakeCount
  | .fetchAnd foundMask =>
    call.wakeCount.toNat < 32 ∧ call.didWakeCount < call.wakeCount ∧
      foundMask.getLsbD call.self = false
  | .send idleMask left => call.wakeCount.toNat < 32 ∧ left = popcount idleMask ∧ 0 < left
  | .returned didWakeCount => didWakeCount = call.didWakeCount
  | .verifyFailed => True

/-- The invariant of a call. -/
structure Tracks (call : Call) : Prop where
  cleared : call.cleared = call.sent ++ pending call.pc
  count : call.didWakeCount.toNat = call.sent.length
  notSelf : call.self ∉ call.cleared
  bound : call.cleared.length < 64
  placed : Placed call call.pc

theorem tracks_loop {call : Call} (hcleared : call.cleared = call.sent)
    (hcount : call.didWakeCount.toNat = call.sent.length) (hself : call.self ∉ call.cleared)
    (hbound : call.cleared.length < 64) (hlimit : call.wakeCount.toNat < 32) :
    Tracks call.loop := by
  unfold Call.loop
  split
  · next hlt =>
    exact {
      cleared := hcleared.trans (append_nil _).symm
      count := hcount
      notSelf := hself
      bound := hbound
      placed := ⟨hlimit, hlt⟩ }
  · exact {
      cleared := hcleared.trans (append_nil _).symm
      count := hcount
      notSelf := hself
      bound := hbound
      placed := rfl }

theorem tracks_begin (topology : Topology) (self : Nat) (wakeCount : BitVec 32) :
    Tracks (begin topology self wakeCount) := by
  have hfits := topology.fits
  have hended : ∀ wakeCount pc, pending pc = [] → Placed ((called self wakeCount).goto pc) pc →
      Tracks ((called self wakeCount).goto pc) := fun wakeCount pc hpending hplaced =>
    { cleared := hpending.symm
      count := rfl
      notSelf := not_mem_nil
      bound := zero_lt_succ 63
      placed := hplaced }
  unfold begin
  dsimp only
  split
  · exact hended wakeCount .verifyFailed rfl trivial
  · split
    · exact hended wakeCount (.returned 0) rfl rfl
    · split
      · next hle =>
        have hlimit : (BitVec.ofNat 32 (topology.count - 1)).toNat < 32 := by
          rw [toNat_ofNat]
          omega
        split
        · exact hended _ .verifyFailed rfl trivial
        · exact tracks_loop rfl rfl not_mem_nil (zero_lt_succ 63) hlimit
      · next hlt =>
        have hlimit : (called self wakeCount).wakeCount.toNat < 32 := by
          dsimp only [called]
          omega
        exact tracks_loop rfl rfl not_mem_nil (zero_lt_succ 63) hlimit

variable {s s' : Shared} {call call' : Call}

/-- The caller has taken bits from the mask, none of them its own. -/
theorem tracks_fetchAnd {foundMask : BitVec 32} {age : Nat} (hpc : call.pc = .fetchAnd foundMask)
    (h : Tracks call) (haccess : access s call age = some (s', call')) : Tracks call' := by
  have hcleared := h.cleared
  have hplaced := h.placed
  rw [hpc] at hcleared hplaced
  obtain ⟨hlimit, hlt, hfound⟩ := hplaced
  have hsent : call.cleared = call.sent := hcleared.trans (append_nil _)
  have hcount := h.count
  have hself : call.self ∉ call.cleared ++ setBits (s.mask &&& foundMask) := by
    rw [mem_append, mem_setBits, getLsbD_and, hfound, Bool.and_false]
    intro hmem
    obtain hold | hnew := hmem
    · exact h.notSelf hold
    · exact Bool.false_ne_true hnew
  have hbound : (call.cleared ++ setBits (s.mask &&& foundMask)).length < 64 := by
    have hle := length_setBits_le (s.mask &&& foundMask)
    rw [lt_def] at hlt
    rw [length_append, hsent]
    omega
  unfold access at haccess
  rw [hpc] at haccess
  dsimp only at haccess
  rw [cleared_eq] at haccess
  split at haccess
  · next hzero =>
    cases haccess
    have hnone : setBits (s.mask &&& foundMask) = [] := by
      rw [hzero]
      exact setBits_zero
    refine tracks_loop ?_ hcount hself hbound hlimit
    rw [hnone, append_nil, hsent]
  · next hsome =>
    cases haccess
    exact {
      cleared := by
        rw [hsent]
        rfl
      count := hcount
      notSelf := hself
      bound := hbound
      placed := ⟨hlimit, rfl, Nat.pos_of_ne_zero (mt popcount_eq_zero.mp hsome)⟩ }

/-- One interrupt, to the first processor that is left. -/
theorem tracks_send {idleMask : BitVec 32} {left age : Nat} (hpc : call.pc = .send idleMask left)
    (h : Tracks call) (haccess : access s call age = some (s', call')) : Tracks call' := by
  have hcleared := h.cleared
  have hplaced := h.placed
  have hcount := h.count
  have hbound := h.bound
  rw [hpc] at hcleared hplaced
  obtain ⟨hlimit, hleft, hpos⟩ := hplaced
  unfold popcount at hleft
  unfold pending at hcleared
  unfold access at haccess
  rw [hpc] at haccess
  dsimp only at haccess hcleared
  cases hbits : setBits idleMask with
  | nil =>
    rw [hbits, length_nil] at hleft
    omega
  | cons cpu rest =>
    have hrest := setBits_and_not hbits
    rw [hbits, length_cons] at hleft
    rw [hbits, append_cons] at hcleared
    rw [bitScanForward_eq hbits] at haccess
    have hnext : (call.didWakeCount + 1).toNat = (call.sent ++ [cpu]).length := by
      simp only [hcleared, length_append, length_singleton] at hbound
      have hone : (1 : BitVec 32).toNat = 1 := rfl
      rw [BitVec.toNat_add, length_append, length_singleton, hcount, hone]
      exact mod_eq_of_lt (by omega)
    split at haccess
    · next hlast =>
      cases haccess
      have hnone : rest = [] := eq_nil_of_length_eq_zero (by omega)
      refine tracks_loop ?_ hnext h.notSelf hbound hlimit
      rw [hcleared, hnone, append_nil]
    · next hmore =>
      cases haccess
      exact {
        cleared := by
          dsimp only [Call.goto, pending]
          unfold bit
          rw [hrest, hcleared]
        count := hnext
        notSelf := h.notSelf
        bound := hbound
        placed := by
          refine ⟨hlimit, ?_, Nat.pos_of_ne_zero hmore⟩
          unfold popcount bit
          rw [hrest]
          omega }

theorem tracks_access {age : Nat} (h : Tracks call)
    (haccess : access s call age = some (s', call')) : Tracks call' := by
  cases hpc : call.pc with
  | load =>
    unfold access at haccess
    rw [hpc] at haccess
    obtain ⟨seen, -, hseen⟩ := Option.map_eq_some_iff.mp haccess
    have hcleared := h.cleared
    have hplaced := h.placed
    rw [hpc] at hcleared hplaced
    obtain ⟨hlimit, hlt⟩ := hplaced
    dsimp only at hseen
    split at hseen
    · cases hseen
      exact {
        cleared := hcleared
        count := h.count
        notSelf := h.notSelf
        bound := h.bound
        placed := rfl }
    · cases hseen
      have hfound := findIdle_eq _ (seen &&& ~~~bit call.self) 0 rfl
      refine ⟨hcleared, h.count, h.notSelf, h.bound, hlimit, hlt, ?_⟩
      rw [hfound]
      have hzero : (0 : BitVec 32) ||| (seen &&& ~~~bit call.self) = seen &&& ~~~bit call.self :=
        BitVec.zero_or
      rw [hzero]
      exact not_getLsbD_bit seen call.self
  | fetchAnd foundMask => exact tracks_fetchAnd hpc h haccess
  | send idleMask left => exact tracks_send hpc h haccess
  | returned n =>
    unfold access at haccess
    rw [hpc] at haccess
    cases haccess
  | verifyFailed =>
    unfold access at haccess
    rw [hpc] at haccess
    cases haccess

/-! ## Every interleaving -/

/-- A call has interrupted only processors whose bits it has cleared, each once and in that
order, all of them when it returns, and never itself; and it returns their number. -/
structure Wakes (call : Call) : Prop where
  ahead : call.sent <+: call.cleared
  exactly : ∀ n, call.pc = .returned n → call.sent = call.cleared ∧ n.toNat = call.sent.length
  notSelf : call.self ∉ call.cleared ∧ call.self ∉ call.sent

theorem wakes_of_tracks (h : Tracks call) : Wakes call where
  ahead := ⟨_, h.cleared.symm⟩
  exactly := by
    intro n hpc
    have hcleared := h.cleared
    have hplaced := h.placed
    rw [hpc] at hcleared hplaced
    have hn : n = call.didWakeCount := hplaced
    exact ⟨(hcleared.trans (append_nil _)).symm, by rw [hn, h.count]⟩
  notSelf := by
    refine ⟨h.notSelf, fun hsent => h.notSelf ?_⟩
    rw [h.cleared]
    exact mem_append_left _ hsent

theorem wake_keeps (topology : Topology) :
    (wake topology).Keeps (fun _ => false) (fun _ _ => True) (fun _ call => Tracks call)
      fun _ _ => True where
  start := by
    intro s args call n _ hstart
    have hbegin : (if args.1 < topology.count then some (begin topology args.1 args.2) else none) =
        some call := hstart
    split at hbegin
    · cases hbegin
      exact ⟨trivial, tracks_begin topology args.1 args.2⟩
    · cases hbegin
  access := fun _ h _ haccess => ⟨trivial, tracks_access h haccess, fun _ hthird _ => hthird⟩
  other := fun _ _ _ => ⟨trivial, fun _ hthird _ => hthird⟩

/-- However the calls interleave with each other and with the processors that become idle. -/
theorem wakes_always (topology : Topology) (moves : List (Move (Nat × BitVec 32) Nat Turn)) :
    Always (wake topology).step (fun pool => ∀ call ∈ pool.calls, Wakes call)
      (Procedure.initially { mask := 0, earlier := [] }) moves :=
  ((wake_keeps topology).always trivial moves).mono fun _ h call hcall =>
    wakes_of_tracks (h.each call hcall)

/-! ## Without interference -/

/-- The accesses of a call that sees the newest mask, until there are none left. -/
def alone (s : Shared) (call : Call) : Nat → Option (Shared × Call)
  | 0 => none
  | fuel + 1 =>
    match access s call 0 with
    | none => some (s, call)
    | some (s', call') => alone s' call' fuel

/-- The other processors that are idle. -/
def others (mask : BitVec 32) (self : Nat) : BitVec 32 := mask &&& ~~~bit self

/-- As many processors are woken as are to be, and the others stay idle. -/
structure WakesExactly (topology : Topology) (mask wakeCount : BitVec 32) (s : Shared)
    (call : Call) : Prop where
  sent : call.sent = call.cleared
  length : call.sent.length =
    min (min wakeCount.toNat (popcount (others mask call.self))) (topology.count - 1)
  mask : ∀ cpu, s.mask.getLsbD cpu = (mask.getLsbD cpu && decide (cpu ∉ call.sent))

theorem alone_step (h : access s call 0 = some (s', call')) (fuel : Nat) :
    alone s call (fuel + 1) = alone s' call' fuel := by
  rw [alone, h]

theorem alone_returned {n : BitVec 32} (hpc : call.pc = .returned n) :
    alone s call 1 = some (s, call) := by
  rw [alone, access, hpc]

theorem loop_pc (call : Call) : call.loop = call.goto .load ∨
    call.loop = call.goto (.returned call.didWakeCount) := by
  unfold Call.loop
  split
  · exact .inl rfl
  · exact .inr rfl

/-- The interrupts that are left are sent, and the call is at the head of the loop again. -/
theorem sends {idleMask : BitVec 32} {left : Nat}
    (hpc : call.pc = .send idleMask left) (htracks : Tracks call) :
    ∃ call' k, Tracks call' ∧ (call'.pc = .load ∨ ∃ n, call'.pc = .returned n) ∧
      call'.self = call.self ∧ call'.cleared = call.cleared ∧
      ∀ fuel, alone s call (fuel + k) = alone s call' fuel := by
  induction left generalizing call idleMask with
  | zero =>
    have hplaced := htracks.placed
    rw [hpc] at hplaced
    exact absurd hplaced.2.2 (Nat.lt_irrefl 0)
  | succ left ih =>
    cases haccess : access s call 0 with
    | none =>
      unfold access at haccess
      rw [hpc] at haccess
      dsimp only at haccess
      split at haccess <;> cases haccess
    | some result =>
      have hnext := tracks_access htracks haccess
      have hstep := alone_step haccess
      unfold access at haccess
      rw [hpc] at haccess
      dsimp only at haccess
      split at haccess
      · cases haccess
        refine ⟨_, 1, hnext, ?_, ?_, ?_, hstep⟩
        · exact (loop_pc _).imp (fun h => by rw [h]; rfl) fun h => ⟨_, by rw [h]; rfl⟩
        · obtain h | h := loop_pc _ <;> rw [h] <;> rfl
        · obtain h | h := loop_pc _ <;> rw [h] <;> rfl
      · cases haccess
        obtain ⟨call', k, htracks', hpc', hself, hcleared, hrun⟩ := ih rfl hnext
        exact ⟨call', k + 1, htracks', hpc', hself, hcleared,
          fun fuel => (hstep (fuel + k)).trans (hrun fuel)⟩

theorem access_load {idle : BitVec 32} (hpc : call.pc = .load)
    (hidle : others s.mask call.self = idle) :
    access s call 0 = some (s, if popcount idle = 0 then call.goto (.returned call.didWakeCount)
      else call.goto (.fetchAnd idle)) := by
  have hfound := findIdle_eq _ idle 0 rfl
  rw [show 0 ||| idle = idle from BitVec.zero_or] at hfound
  unfold access
  rw [hpc]
  change some (if popcount (others s.mask call.self) = 0 then _ else (s, call.goto
    (.fetchAnd (findIdle (popcount (others s.mask call.self)) (others s.mask call.self) 0)))) = _
  rw [hidle, hfound]
  split <;> rfl

theorem and_others (mask : BitVec 32) (self : Nat) :
    mask &&& others mask self = others mask self := by
  rw [others, ← BitVec.and_assoc, BitVec.and_self]

theorem others_and_not (mask : BitVec 32) (self : Nat) :
    others (mask &&& ~~~others mask self) self = 0 := by
  unfold others
  apply eq_of_getLsbD_eq
  intro i hi
  rw [show (0 : BitVec 32).getLsbD i = false from getLsbD_zero]
  simp only [getLsbD_and, getLsbD_not, hi, decide_true, Bool.true_and]
  cases mask.getLsbD i <;> cases (bit self).getLsbD i <;> rfl

/-- All the other idle processors are woken, however many were asked for. -/
theorem alone_load {idle : BitVec 32} (hpc : call.pc = .load) (htracks : Tracks call)
    (hcleared : call.cleared = []) (hidle : others s.mask call.self = idle) :
    ∃ fuel t last n, alone s call fuel = some (t, last) ∧ last.pc = .returned n ∧
      last.self = call.self ∧ last.cleared = setBits idle ∧ t.mask = s.mask &&& ~~~idle ∧
      Tracks last := by
  have hload := access_load hpc hidle
  have hloaded := tracks_access htracks hload
  by_cases hnone : popcount idle = 0
  · rw [if_pos hnone] at hload hloaded
    refine ⟨2, _, _, _, (alone_step hload 1).trans (alone_returned rfl), rfl, rfl, ?_, ?_,
      hloaded⟩
    · rw [popcount_eq_zero.mp hnone, setBits_zero]
      exact hcleared
    · rw [popcount_eq_zero.mp hnone]
      exact (BitVec.and_allOnes).symm
  · rw [if_neg hnone] at hload hloaded
    have hfetch : access s (call.goto (.fetchAnd idle)) 0 = some (s.store (s.mask &&& ~~~idle),
        Call.goto { call with cleared := call.cleared ++ setBits idle }
          (.send idle (popcount idle))) := by
      unfold access
      dsimp only [Call.goto]
      rw [cleared_eq, ← hidle, and_others, if_neg (hidle ▸ mt popcount_eq_zero.mpr hnone)]
    obtain ⟨call', k, htracks', hpc', hself, hcleared', hrun⟩ :=
      sends rfl (tracks_access hloaded hfetch)
    have hall : call'.cleared = setBits idle := by
      rw [hcleared']
      dsimp only [Call.goto]
      rw [hcleared, nil_append]
    have hreach : ∀ fuel, alone s call (fuel + k + 1 + 1) =
        alone (s.store (s.mask &&& ~~~idle)) call' fuel := fun fuel =>
      (alone_step hload _).trans ((alone_step hfetch _).trans (hrun fuel))
    obtain hpc' | ⟨n, hpc'⟩ := hpc'
    · have hzero : others (s.mask &&& ~~~idle) call'.self = 0 := by
        rw [hself, ← hidle]
        exact others_and_not s.mask call.self
      have hagain := access_load (s := s.store (s.mask &&& ~~~idle)) hpc' hzero
      rw [if_pos (show popcount 0 = 0 from popcount_eq_zero.mpr rfl)] at hagain
      exact ⟨_, _, _, _, (hreach 2).trans ((alone_step hagain 1).trans (alone_returned rfl)), rfl,
        hself, hall, rfl, tracks_access htracks' hagain⟩
    · exact ⟨_, _, _, n, (hreach 1).trans (alone_returned hpc'), hpc', hself, hall, rfl,
        htracks'⟩

theorem begin_load {topology : Topology} {wakeCount : BitVec 32} (self : Nat)
    (hsmp : topology.smpEnabled = true) (hcount : 1 < topology.count) (hwake : wakeCount ≠ 0) :
    (begin topology self wakeCount).pc = .load ∧ (begin topology self wakeCount).self = self ∧
      (begin topology self wakeCount).cleared = [] := by
  have hlast : BitVec.ofNat 32 (topology.count - 1) ≠ 0 := by
    have hfits := topology.fits
    have hzero : (0 : BitVec 32).toNat = 0 := rfl
    rw [Ne, ← toNat_inj, toNat_ofNat, hzero]
    omega
  have hpos : ∀ n : BitVec 32, n ≠ 0 → (0 : BitVec 32) < n := fun n hne => by
    rw [lt_def]
    exact Nat.pos_of_ne_zero fun h => hne (eq_of_toNat_eq h)
  unfold begin
  dsimp only [called]
  rw [if_neg hwake, hsmp, if_neg Bool.noConfusion, if_neg hlast]
  split
  · unfold Call.loop
    rw [if_pos (hpos _ hlast)]
    exact ⟨rfl, rfl, rfl⟩
  · unfold Call.loop
    rw [if_pos (hpos _ hwake)]
    exact ⟨rfl, rfl, rfl⟩

end Literate.Kernel.IdleProcessors

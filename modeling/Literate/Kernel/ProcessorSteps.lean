import Literate.Kernel.ProcessorInvariant

/-!
# Kernel: every function of the processor keeps the invariants

One lemma for each function: from what holds when it is called, none of its
assertions fails and what it returns with, or calls code with, is a state between two
actions.  The lemmas stand in the order of the functions.
-/

namespace Literate.Kernel.Processor

open Foundation List Option

variable {s : State} {lists : Lists}

/-! ## What does not concern the deferred calls -/

/-- A frame that says something about executed calls. -/
def Frame.awaits : Frame → Bool
  | .leave _ _ _ => true
  | .invokeAsync _ _ => true
  | _ => false

/-- What the invariants of the deferred calls read, apart from the control stack. -/
structure Ledger where
  entries : Nat → DeferredCallEntry
  pending : Option Nat
  free : Option Nat
  heap : List Nat
  poolCount : Nat
  calls : Nat
  log : List Event
  outside : List Nat
  lefts : List Left
  returned : List Nat

def State.ledger (s : State) : Ledger where
  entries := s.entries
  pending := s.pendingDeferredCalls
  free := s.freeDeferredCallPoolEntry
  heap := s.heap
  poolCount := s.poolCount
  calls := s.calls
  log := s.log
  outside := s.outside
  lefts := s.lefts
  returned := s.returned

/-- The deferred calls are as they were. -/
structure Keeps (s s' : State) : Prop where
  ledger : s'.ledger = s.ledger
  held : ∀ held, Held s.entries s.control held → Held s.entries s'.control held
  awaits : ∀ frame ∈ s'.control, frame.awaits → frame ∈ s.control

variable {control : List Frame} {caller : Caller} {trap : TrapFrame}

namespace Keeps

variable {s' : State}

theorem accounted (h : Keeps s s') {free : List Nat} {slots : List Slot}
    (ha : Accounted s free slots) : Accounted s' free slots := by
  have hentries : s'.entries = s.entries := congrArg Ledger.entries h.ledger
  have hheap : s'.heap = s.heap := congrArg Ledger.heap h.ledger
  have hpool : s'.poolCount = s.poolCount := congrArg Ledger.poolCount h.ledger
  have hcalls : s'.calls = s.calls := congrArg Ledger.calls h.ledger
  have hlog : s'.log = s.log := congrArg Ledger.log h.ledger
  constructor
  · rw [hpool, hheap]
    exact ha.partition
  · rw [hheap]
    exact ha.heap_nodup
  · rw [hpool, hheap]
    exact ha.heap_above
  · rw [hpool]
    exact ha.free_pool
  · rw [hpool, hentries]
    exact ha.allocated
  · rw [hentries]
    exact ha.handler
  · exact ha.calls_nodup
  · rw [hcalls, hlog]
    exact ha.trace_slot
  · rw [hcalls, hlog, hpool]
    exact ha.trace_closed
  · rw [hcalls, hlog]
    exact ha.trace_fresh

theorem conserved (h : Keeps s s') (hc : Conserved s lists) : Conserved s' lists := by
  have hentries : s'.entries = s.entries := congrArg Ledger.entries h.ledger
  have hpending : s'.pendingDeferredCalls = s.pendingDeferredCalls :=
    congrArg Ledger.pending h.ledger
  have hfree : s'.freeDeferredCallPoolEntry = s.freeDeferredCallPoolEntry :=
    congrArg Ledger.free h.ledger
  constructor
  · rw [hentries, hfree]
    exact hc.free
  · rw [hentries, hpending]
    exact hc.pending
  · exact hc.pending_waits
  · exact hc.pending_order
  · rw [hentries]
    exact h.held lists.held hc.held
  · exact h.accounted hc.accounted

theorem drained (h : Keeps s s') (hd : Drained s lists) : Drained s' lists := by
  have hcalls : s'.calls = s.calls := congrArg Ledger.calls h.ledger
  have hlog : s'.log = s.log := congrArg Ledger.log h.ledger
  have houtside : s'.outside = s.outside := congrArg Ledger.outside h.ledger
  have hlefts : s'.lefts = s.lefts := congrArg Ledger.lefts h.ledger
  have hreturned : s'.returned = s.returned := congrArg Ledger.returned h.ledger
  constructor
  · intro interrupts before caller hmem
    rw [hcalls]
    exact hd.leave interrupts before caller (h.awaits _ hmem rfl)
  · intro interrupts call hmem
    rw [hcalls, houtside, hlog]
    exact hd.invokeAsync interrupts call (h.awaits _ hmem rfl)
  · rw [hlefts, hlog]
    exact hd.lefts
  · rw [hreturned, hcalls, houtside, hlog]
    exact hd.returned
  · rw [houtside, hcalls]
    exact hd.outside

theorem served (h : Keeps s s') : Served s → Served s'
  | ⟨lists, hc, hd⟩ => ⟨lists, h.conserved hc, h.drained hd⟩

theorem of_control (hledger : s'.ledger = s.ledger) (hcontrol : s'.control = s.control) :
    Keeps s s' :=
  ⟨hledger, fun _ h => hcontrol ▸ h, fun _ h _ => hcontrol ▸ h⟩

theorem pop {frame : Frame} (hledger : s'.ledger = s.ledger)
    (hcontrol : s.control = frame :: control) (hcontrol' : s'.control = control)
    (hheld : ∀ held, Held s.entries (frame :: control) held → Held s.entries control held) :
    Keeps s s' :=
  ⟨hledger, fun held h => hcontrol' ▸ hheld held (hcontrol ▸ h),
    fun _ h _ => hcontrol ▸ mem_cons_of_mem _ (hcontrol' ▸ h)⟩

/-- A frame without a list, and that nothing is known of, is put on the stack. -/
theorem push {frame : Frame} (hledger : s'.ledger = s.ledger)
    (hcontrol : s'.control = frame :: s.control) (hawaits : frame.awaits = false)
    (hheld : ∀ held, Held s.entries s.control held → Held s.entries (frame :: s.control) held) :
    Keeps s s' := by
  refine ⟨hledger, fun held h => hcontrol ▸ hheld held h, fun f hmem hf => ?_⟩
  rw [hcontrol] at hmem
  rcases mem_cons.mp hmem with rfl | hmem
  · rw [hawaits] at hf
    cases hf
  · exact hmem

end Keeps

namespace Counted

theorem counters_eq (h : Counted 0 s) : s.counters = countersOf s.control := by
  have hinCritical := h.inCritical
  rw [Nat.add_zero] at hinCritical
  rw [State.counters, countersOf, h.inIrq, hinCritical]

end Counted

/-! ## Leaving a trap -/

theorem exitTrapReturn_spec (hcounted : Counted 0 s) (hserved : Served s)
    (hrunning : running s.control) (interrupts : Bool) {before : Counters}
    (hbefore : before = countersOf s.control) : Inv (exitTrapReturn interrupts before s) := by
  have hkeeps : Keeps s (exitTrapReturn interrupts before s) := .of_control rfl rfl
  refine ⟨⟨hcounted.inCritical, hcounted.inIrq, hcounted.nested, hcounted.thread, ?_,
    hcounted.invocations⟩, hkeeps.served hserved, .inl hrunning⟩
  intro e he
  rcases mem_append.mp he with he | he
  · exact hcounted.exits e he
  · rw [mem_singleton.mp he]
    exact hbefore.trans hcounted.counters_eq.symm

/-- `check_invoke_scheduler`: what is left to show is what happens when the scheduler
is not invoked. -/
theorem checkInvokeScheduler_spec (hcounted : Counted 0 s) (hserved : Served s)
    (hrunning : running s.control) (hinterrupts : s.interrupts = false) (hirq : s.inIrq = 0)
    (hcritical : s.inCritical = 0) (interrupts : Bool)
    (hexit : ∀ before, caller = .exitTrap before → before = ⟨0, 0⟩)
    (hqueue : ∀ call, caller = .queue call →
      call < s.calls ∧ (call ∈ s.outside → Executed s.log call))
    {ret : State → Option State} (hret : ∃ s', ret s = some s' ∧ Inv s') :
    ∃ s', checkInvokeScheduler interrupts caller ret s = some s' ∧ Inv s' := by
  rw [checkInvokeScheduler, if_pos ⟨hinterrupts, hirq, hcritical⟩]
  by_cases hasync : s.invokeSchedulerAsync && s.schedulerInitialized
  · rw [if_pos hasync]
    refine ⟨_, rfl, ⟨?_, hcounted.inIrq, ⟨⟨?_, hrunning, hexit⟩, hcounted.nested⟩,
      hcounted.thread, hcounted.exits, ?_⟩, ?_, .inl rfl⟩
    · exact hcounted.inCritical
    · rw [← hcounted.counters_eq, State.counters, hirq, hcritical]
    · intro c hc
      rcases mem_append.mp hc with hc | hc
      · exact hcounted.invocations c hc
      · rw [mem_singleton.mp hc, State.counters, hirq, hcritical]
    · obtain ⟨lists, hc, hd⟩ := hserved
      refine ⟨lists, ⟨hc.free, hc.pending, hc.pending_waits, hc.pending_order, hc.held,
        ⟨hc.accounted.1, hc.accounted.2, hc.accounted.3, hc.accounted.4, hc.accounted.5,
          hc.accounted.6, hc.accounted.7, hc.accounted.8, hc.accounted.9, hc.accounted.10⟩⟩, ?_⟩
      refine ⟨fun i before c hmem => ?_, fun i call hmem => ?_, hd.lefts, hd.returned,
        hd.outside⟩
      · rcases mem_cons.mp hmem with heq | hmem
        · cases heq
        · exact hd.leave i before c hmem
      · rcases mem_cons.mp hmem with heq | hmem
        · cases heq
          exact hqueue call rfl
        · exact hd.invokeAsync i call hmem
  · rw [if_neg hasync]
    exact hret

theorem popTrap_spec (h : HasRegs trap.nextTrap) (current : Option Thread) :
    ∃ popped, popTrap trap current = some popped ∧
      ∀ thread, popped = some thread → HasRegs thread.currentTrap := by
  cases current with
  | none => exact ⟨none, rfl, nofun⟩
  | some _ =>
    rw [popTrap]
    cases hnext : trap.nextTrap with
    | nil =>
      refine ⟨_, rfl, fun thread hthread => ?_⟩
      cases hthread
      exact nofun
    | cons regs rest =>
      rw [hnext] at h
      obtain ⟨r, hr⟩ := isSome_iff_exists.mp (h regs mem_cons_self)
      refine ⟨some ⟨regs :: rest, r.mode⟩, by simp only [hr, map_some], ?_⟩
      intro thread hthread
      cases hthread
      exact h

theorem exitTrapFinish_spec (hcounted : Counted 1 s) (hserved : Served s)
    (hinterrupts : s.interrupts = false) {before : Counters}
    (htrap : TrapAbove trap before s.control) :
    ∃ s', exitTrapFinish trap before s = some s' ∧ Inv s' := by
  obtain ⟨currentThread, hpopped, hregs⟩ := popTrap_spec htrap.nextTrap s.currentThread
  have hcounted' : Counted 0 { s with currentThread, inCritical := s.inCritical - 1 } := by
    refine ⟨?_, hcounted.inIrq, hcounted.nested, hregs, hcounted.exits, hcounted.invocations⟩
    have hcritical := hcounted.inCritical
    simp only
    omega
  have hkeeps : Keeps s { s with currentThread, inCritical := s.inCritical - 1 } :=
    .of_control rfl rfl
  have hserved' := hkeeps.served hserved
  have hreturn := exitTrapReturn_spec hcounted' hserved' htrap.running trap.interrupts htrap.before
  simp only [exitTrapFinish, hpopped, bind_some]
  rw [if_pos hinterrupts]
  split
  · next hzero =>
    refine checkInvokeScheduler_spec hcounted' hserved' htrap.running hinterrupts hzero.1 hzero.2
      trap.interrupts (fun b hb => ?_) (fun c hc => by cases hc) ⟨_, rfl, hreturn⟩
    cases hb
    rw [htrap.before, ← hcounted'.counters_eq, State.counters, hzero.1, hzero.2]
  · exact ⟨_, rfl, hreturn⟩

/-! ## The lists -/

theorem Conserved.take (h : Conserved s lists) {entry : Nat}
    (hentry : s.pendingDeferredCalls = some entry) {frame : Frame}
    (hframe : Held s.entries s.control lists.held →
      Held s.entries (frame :: s.control) lists.held) :
    Conserved
      { s with
        pendingDeferredCalls := none
        control := .reverse (some entry) none :: frame :: s.control }
      ⟨lists.free, [], lists.slots⟩ := by
  have hpending : lists.pending ≠ [] := by
    intro hnil
    have hchain := h.pending
    rw [hnil, hentry] at hchain
    cases hchain
  refine ⟨h.free, rfl, nofun, List.Pairwise.nil, ?_, ?_⟩
  · refine ⟨lists.pending, [], lists.held, by simp [Lists.slots], hentry ▸ h.pending, rfl,
      by simpa using hpending, by simpa using h.pending_waits, ?_, hframe h.held⟩
    rw [append_nil, map_reverse, pairwise_reverse]
    exact h.pending_order
  · obtain ⟨h₁, h₂, h₃, h₄, h₅, h₆, h₇, h₈, h₉, h₁₀⟩ := h.accounted
    exact ⟨h₁, h₂, h₃, h₄, h₅, h₆, h₇, h₈, h₉, h₁₀⟩

theorem held_eq_nil {entries : Nat → DeferredCallEntry} {held : List Slot}
    (h : Held entries control held) (hnested : Nested control) (hzero : criticals control = 0) :
    held = [] := by
  have hdrain := fun frame hmem => @Nested.noDrain control hnested hzero frame hmem
  clear hnested hzero
  induction control generalizing held with
  | nil => exact h
  | cons frame control ih =>
    have hrest := fun f hmem => hdrain f (mem_cons_of_mem frame hmem)
    obtain ⟨hreverse, hdrains⟩ := hdrain frame mem_cons_self
    cases frame with
    | reverse list rev => exact absurd rfl (hreverse list rev)
    | drain entry interrupts ran => exact absurd rfl (hdrains entry interrupts ran)
    | _ => exact ih h hrest

/-- Every call that is on no list has been executed. -/
theorem Conserved.executed_of_lt (h : Conserved s lists) (hheld : lists.held = []) {before : Nat}
    (hle : before ≤ s.calls) (hpending : ∀ slot ∈ lists.pending, before ≤ slot.call) {call : Nat}
    (hcall : call < before) : Executed s.log call := by
  have hnot : call ∉ lists.slots.map Slot.call := by
    intro hmem
    obtain ⟨slot, hslot, rfl⟩ := List.mem_map.mp hmem
    rw [Lists.slots, hheld, append_nil] at hslot
    have := hpending slot hslot
    omega
  obtain ⟨entry, htrace⟩ := h.accounted.trace_closed call (by omega) hnot
  have hmem : Event.invoke call entry ∈ trace s.log call := by
    rw [htrace]
    simp [closedTrace]
  exact ⟨entry, (mem_filter.mp hmem).1⟩

theorem exitTrapDrain_spec (hcounted : Counted 1 s) (hserved : Served s)
    (hinterrupts : s.interrupts = false) {before : Counters}
    (htrap : TrapAbove trap before s.control) :
    ∃ s', exitTrapDrain trap before s = some s' ∧ Inv s' := by
  have hpositive : 0 < s.inCritical := by
    rw [hcounted.inCritical]
    omega
  rw [exitTrapDrain, if_pos hpositive]
  cases hentry : s.pendingDeferredCalls with
  | none => exact exitTrapFinish_spec hcounted hserved hinterrupts htrap
  | some entry =>
    obtain ⟨lists, hc, hd⟩ := hserved
    refine ⟨_, rfl, ⟨hcounted.inCritical, hcounted.inIrq, ⟨trivial, htrap, hcounted.nested⟩,
      hcounted.thread, hcounted.exits, hcounted.invocations⟩,
      ⟨_, hc.take hentry id, ?_⟩, .inr ⟨_, _, _, rfl, hinterrupts⟩⟩
    refine ⟨fun i b c hmem => ?_, fun i c hmem => hd.invokeAsync i c (by simpa using hmem),
      hd.lefts, hd.returned, hd.outside⟩
    obtain ⟨hle, -, hcall⟩ := hd.leave i b c (by simpa using hmem)
    exact ⟨hle, nofun, hcall⟩

/-! ## Leaving a critical section -/

theorem running_of_ready {interrupts : Bool} (h : Ready interrupts control)
    (hexit : ∀ trap before rest, control ≠ .exitMessages trap before :: rest) :
    running control := by
  match control, h with
  | .exitMessages trap before :: rest, _ => exact absurd rfl (hexit trap before rest)
  | [], h => exact h
  | .critical :: _, h => exact h
  | .trap _ _ _ :: _, h => exact h
  | .reverse _ _ :: _, h => exact h
  | .drain _ _ _ :: _, h => exact h
  | .message _ _ :: _, h => exact h
  | .leave _ _ _ :: _, h => exact h
  | .exitDrain _ _ :: _, h => exact h
  | .invokeAsync _ _ :: _, h => exact h

theorem resume_spec (hcounted : Counted 0 s) (hserved : Served s)
    (hready : Ready s.interrupts s.control) : ∃ s', resume s = some s' ∧ Inv s' := by
  by_cases hexit : ∃ trap before rest, s.control = .exitMessages trap before :: rest
  · obtain ⟨trap, before, rest, hcontrol⟩ := hexit
    rw [hcontrol] at hready
    have hnested := hcounted.nested
    rw [hcontrol] at hnested
    have hkeeps : Keeps s { s with control := rest } := .pop rfl hcontrol rfl fun _ h => h
    have hcounted' : Counted 1 { s with control := rest } := by
      refine ⟨?_, ?_, hnested.2, hcounted.thread, hcounted.exits, hcounted.invocations⟩
      · rw [hcounted.inCritical, hcontrol]
        rfl
      · rw [hcounted.inIrq, hcontrol]
        rfl
    rw [resume, hcontrol]
    exact exitTrapDrain_spec hcounted' (hkeeps.served hserved) hready hnested.1
  · have hrunning := running_of_ready hready fun trap before rest h => hexit ⟨trap, before, rest, h⟩
    refine ⟨s, ?_, hcounted, hserved, .inl hrunning⟩
    rw [resume]
    split
    · next hcontrol => exact absurd ⟨_, _, _, hcontrol⟩ hexit
    · rfl

theorem leaveReturn_spec (hcounted : Counted 0 s) (hserved : Served s) {interrupts : Bool}
    (hready : Ready interrupts s.control) (hqueue : ∀ call, caller = .queue call →
      call < s.calls ∧ (call ∈ s.outside → Executed s.log call)) :
    ∃ s', leaveReturn interrupts caller s = some s' ∧ Inv s' := by
  have hcounted' : Counted 0 { s with interrupts } :=
    ⟨hcounted.inCritical, hcounted.inIrq, hcounted.nested, hcounted.thread, hcounted.exits,
      hcounted.invocations⟩
  have hkeeps : Keeps s { s with interrupts } := .of_control rfl rfl
  cases caller with
  | code => exact resume_spec hcounted' (hkeeps.served hserved) hready
  | exitTrap before => exact resume_spec hcounted' (hkeeps.served hserved) hready
  | queue call =>
    refine resume_spec ⟨hcounted.inCritical, hcounted.inIrq, hcounted.nested, hcounted.thread,
      hcounted.exits, hcounted.invocations⟩ ?_ hready
    obtain ⟨lists, hc, hd⟩ := hserved
    have hc' := hkeeps.conserved hc
    refine ⟨lists, ⟨hc'.free, hc'.pending, hc'.pending_waits, hc'.pending_order, hc'.held, ?_⟩,
      hd.leave, hd.invokeAsync, hd.lefts, fun c hmem => ?_, hd.outside⟩
    · obtain ⟨h₁, h₂, h₃, h₄, h₅, h₆, h₇, h₈, h₉, h₁₀⟩ := hc.accounted
      exact ⟨h₁, h₂, h₃, h₄, h₅, h₆, h₇, h₈, h₉, h₁₀⟩
    · rcases mem_append.mp hmem with hmem | hmem
      · exact hd.returned c hmem
      · rw [mem_singleton.mp hmem]
        exact hqueue call rfl

theorem ready_of_running {interrupts : Bool} {control : List Frame} (h : running control) :
    Ready interrupts control := by
  match control, h with
  | [], h => exact h
  | .critical :: _, h => exact h
  | .trap _ _ _ :: _, h => exact h
  | .drain _ _ _ :: _, h => exact h
  | .message _ _ :: _, h => exact h
  | .invokeAsync _ _ :: _, h => exact h

theorem running_of_ready_zero {interrupts : Bool}
    (h : Ready interrupts control) (hzero : criticals control = 0) : running control := by
  refine running_of_ready h fun trap before rest hcontrol => ?_
  rw [hcontrol, criticals_cons] at hzero
  cases hzero

theorem leaveOutermost_spec (hcounted : Counted 1 s) (hserved : Served s)
    (hrunning : running s.control) (hzero : criticals s.control = 0)
    (hinterrupts : s.interrupts = false) (interrupts : Bool)
    (hcaller : ∀ before, caller ≠ .exitTrap before) (hqueue : ∀ call, caller = .queue call →
      call < s.calls ∧ (call ∈ s.outside → Executed s.log call)) :
    ∃ s', leaveOutermost interrupts caller s = some s' ∧ Inv s' := by
  have hcounted' : Counted 0 { s with inCritical := 0 } :=
    ⟨hzero.symm, hcounted.inIrq, hcounted.nested, hcounted.thread, hcounted.exits,
      hcounted.invocations⟩
  have hkeeps : Keeps s { s with inCritical := 0 } := .of_control rfl rfl
  have hreturn := leaveReturn_spec hcounted' (hkeeps.served hserved)
    (@ready_of_running interrupts _ hrunning) hqueue
  simp only [leaveOutermost]
  split
  · next hirq =>
    exact checkInvokeScheduler_spec hcounted' (hkeeps.served hserved) hrunning hinterrupts hirq rfl
      interrupts (fun before h => absurd h (hcaller before)) hqueue hreturn
  · exact hreturn

/-- All calls that were queued before the section was left have been executed. -/
theorem leaveFinish_spec (hcounted : Counted 1 s) (hc : Conserved s lists) (hd : Drained s lists)
    (hrunning : running s.control) (hzero : countersOf s.control = ⟨0, 0⟩)
    (hinterrupts : s.interrupts = false) (interrupts : Bool) {before : Nat}
    (hle : before ≤ s.calls) (hpending : ∀ slot ∈ lists.pending, before ≤ slot.call)
    (hcaller : ∀ before, caller ≠ .exitTrap before)
    (hqueue : ∀ call, caller = .queue call → call < before) :
    ∃ s', leaveFinish interrupts before caller s = some s' ∧ Inv s' := by
  obtain ⟨hirqs, hcriticals⟩ := Counters.mk.inj hzero
  have hcritical : s.inCritical = 1 := by rw [hcounted.inCritical, hcriticals]
  have hheld : lists.held = [] := held_eq_nil hc.held hcounted.nested hcriticals
  have hexecuted : ∀ call < before, Executed s.log call := fun call hcall =>
    hc.executed_of_lt hheld hle hpending hcall
  rw [leaveFinish, if_pos hcritical]
  have hcounted' : Counted 1
      { s with lefts := s.lefts ++ [⟨before, s.calls, s.pendingDeferredCalls⟩] } :=
    ⟨hcounted.inCritical, hcounted.inIrq, hcounted.nested, hcounted.thread, hcounted.exits,
      hcounted.invocations⟩
  refine leaveOutermost_spec hcounted' ?_ hrunning hcriticals hinterrupts interrupts hcaller
    fun call hcall => ⟨Nat.lt_of_lt_of_le (hqueue call hcall) hle,
      fun _ => hexecuted call (hqueue call hcall)⟩
  refine ⟨lists, ⟨hc.free, hc.pending, hc.pending_waits, hc.pending_order, hc.held, ?_⟩,
    hd.leave, hd.invokeAsync, fun left hleft => ?_, hd.returned, hd.outside⟩
  · obtain ⟨h₁, h₂, h₃, h₄, h₅, h₆, h₇, h₈, h₉, h₁₀⟩ := hc.accounted
    exact ⟨h₁, h₂, h₃, h₄, h₅, h₆, h₇, h₈, h₉, h₁₀⟩
  · rcases mem_append.mp hleft with hleft | hleft
    · exact hd.lefts left hleft
    · rw [mem_singleton.mp hleft]
      refine ⟨hexecuted, fun hafter => ?_⟩
      have hnil : lists.pending = [] := by
        refine eq_nil_iff_forall_not_mem.mpr fun slot hslot => ?_
        have hlt := (hc.accounted.trace_slot slot (mem_append_left _ hslot)).1
        have hge := hpending slot hslot
        simp only at hafter
        omega
      have hchain := hc.pending
      rw [hnil] at hchain
      exact hchain

theorem leaveCritical_spec (hcounted : Counted 1 s) (hserved : Served s)
    (hready : Ready s.interrupts s.control)
    (hcaller : ∀ before, caller ≠ .exitTrap before) (hqueue : ∀ call, caller = .queue call →
      call < s.calls ∧ (call ∈ s.outside → s.inCritical = 1 ∧ s.inIrq = 0)) :
    ∃ s', leaveCritical caller s = some s' ∧ Inv s' := by
  have hinCritical := hcounted.inCritical
  have hcounted' : Counted 1 { s with interrupts := false } :=
    ⟨hcounted.inCritical, hcounted.inIrq, hcounted.nested, hcounted.thread, hcounted.exits,
      hcounted.invocations⟩
  have hkeeps : Keeps s { s with interrupts := false } := .of_control rfl rfl
  obtain ⟨lists, hc, hd⟩ := hserved
  have hc' := hkeeps.conserved hc
  have hd' := hkeeps.drained hd
  simp only [leaveCritical]
  rw [if_pos (by omega)]
  split
  · next hone =>
    have hzero : criticals s.control = 0 := by omega
    have hrunning := running_of_ready_zero hready hzero
    split
    · next hirq =>
      have hcounters : countersOf s.control = ⟨0, 0⟩ := by
        rw [countersOf, hzero, ← hcounted.inIrq, hirq]
      split
      · next hentry =>
        have hnil : lists.pending = [] := by
          have hchain := hc.pending
          rw [hentry] at hchain
          exact map_eq_nil_iff.mp (Linked.none_iff.mp hchain)
        refine leaveFinish_spec hcounted' hc' hd' hrunning hcounters rfl s.interrupts
          (Nat.le_refl s.calls) ?_ hcaller fun call hcall => (hqueue call hcall).1
        rw [hnil]
        exact fun slot hslot => absurd hslot not_mem_nil
      · next entry hentry =>
        refine ⟨_, rfl, ⟨hcounted.inCritical, hcounted.inIrq,
          ⟨trivial, ⟨hcounters, hrunning, hcaller⟩, hcounted.nested⟩, hcounted.thread,
          hcounted.exits, hcounted.invocations⟩, ⟨_, hc'.take hentry id, ?_⟩,
          .inr ⟨_, _, _, rfl, rfl⟩⟩
        refine ⟨fun i b c hmem => ?_, fun i c hmem => hd.invokeAsync i c (by simpa using hmem),
          hd.lefts, hd.returned, hd.outside⟩
        have hempty : ∀ slot ∈ ([] : List Slot), b ≤ slot.call :=
          fun slot hslot => absurd hslot not_mem_nil
        rcases mem_cons.mp hmem with heq | hmem
        · cases heq
        · rcases mem_cons.mp hmem with heq | hmem
          · cases heq
            exact ⟨Nat.le_refl s.calls, hempty, fun call hcall => (hqueue call hcall).1⟩
          · obtain ⟨hle, -, hcall⟩ := hd.leave i b c hmem
            exact ⟨hle, hempty, hcall⟩
    · next hirq =>
      exact leaveOutermost_spec hcounted' ⟨lists, hc', hd'⟩ hrunning hzero rfl s.interrupts hcaller
        fun call hcall => ⟨(hqueue call hcall).1,
          fun hout => absurd ((hqueue call hcall).2 hout).2 hirq⟩
  · next hone =>
    have hkeeps' : Keeps s { s with interrupts := false, inCritical := s.inCritical - 1 } :=
      .of_control rfl rfl
    have hcounted'' : Counted 0 { s with interrupts := false, inCritical := s.inCritical - 1 } := by
      refine ⟨?_, hcounted.inIrq, hcounted.nested, hcounted.thread, hcounted.exits,
        hcounted.invocations⟩
      simp only
      omega
    exact leaveReturn_spec hcounted'' (hkeeps'.served ⟨lists, hc, hd⟩) hready
      fun call hcall => ⟨(hqueue call hcall).1,
        fun hout => absurd ((hqueue call hcall).2 hout).1 hone⟩

end Literate.Kernel.Processor

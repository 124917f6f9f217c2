import Literate.Kernel.ProcessorDeferred

/-!
# Kernel: the invariants hold along every run of a processor

Messages and traps, and then one lemma for all actions: an enabled action fails no
assertion and keeps the invariants.
-/

namespace Literate.Kernel.Processor

open Foundation List

variable {s : State}

/-! ## Messages -/

theorem Counted.push {extra : Nat} (h : Counted (extra + 1) s) {rest : List Message}
    (hready : Ready s.interrupts s.control) :
    Counted extra { s with control := .message rest s.interrupts :: s.control } := by
  refine ⟨?_, h.inIrq, ⟨hready, h.nested⟩, h.thread, h.exits, h.invocations⟩
  have hinCritical := h.inCritical
  simp only [criticals_cons, Frame.criticals]
  omega

theorem haltThis_spec (hcounted : Counted 1 s) (hserved : Served s)
    (hready : Ready s.interrupts s.control) (rest : List Message) : Inv (haltThis rest s) := by
  have hkeeps : Keeps s (haltThis rest s) := .push rfl rfl rfl fun _ h => h
  obtain ⟨h₁, h₂, h₃, h₄, h₅, h₆⟩ := @Counted.push s 0 hcounted rest hready
  exact ⟨⟨h₁, h₂, h₃, h₄, h₅, h₆⟩, hkeeps.served hserved, .inl rfl⟩

theorem processMessages_spec (messages : List Message) (hcounted : Counted 1 s)
    (hserved : Served s) (hready : Ready s.interrupts s.control) :
    ∃ s', processMessages messages s = some s' ∧ Inv s' := by
  induction messages with
  | nil => exact leaveCritical_spec hcounted hserved hready nofun nofun
  | cons message rest ih =>
    cases message with
    | callback =>
      have hkeeps : Keeps s { s with control := .message rest s.interrupts :: s.control } :=
        .push rfl rfl rfl fun _ h => h
      exact ⟨_, rfl, hcounted.push hready, hkeeps.served hserved, .inl rfl⟩
    | flushTlb =>
      rw [processMessages]
      split
      · exact ⟨_, rfl, haltThis_spec hcounted hserved hready rest⟩
      · exact ih

variable {control : List Frame} {action : Action} {poolCount : Nat}

theorem messageDone_spec {rest : List Message}
    (hcontrol : s.control = .message rest s.interrupts :: control) (h : Inv s) :
    ∃ s', messageDone rest { s with control } = some s' ∧ Inv s' := by
  have hnested := h.counted.nested
  rw [hcontrol] at hnested
  have hcounted : Counted 1 { s with control } := h.counted.pop hcontrol rfl
  have hkeeps : Keeps s { s with control } := .pop rfl hcontrol rfl fun _ h => h
  rw [messageDone]
  split
  · exact ⟨_, rfl, haltThis_spec hcounted (hkeeps.served h.served) hnested.1 rest⟩
  · exact processMessages_spec rest hcounted (hkeeps.served h.served) hnested.1

theorem smpProcessPendingMessages_spec (hcounted : Counted 0 s) (hserved : Served s)
    (hready : Ready s.interrupts s.control) (hsmp : s.smpEnabled = true) :
    ∃ s', smpProcessPendingMessages s = some s' ∧ Inv s' := by
  have hcounted₁ : Counted 1 { s with inCritical := s.inCritical + 1 } :=
    ⟨congrArg (· + 1) hcounted.inCritical, hcounted.inIrq, hcounted.nested, hcounted.thread,
      hcounted.exits, hcounted.invocations⟩
  have hkeeps₁ : Keeps s { s with inCritical := s.inCritical + 1 } := .of_control rfl rfl
  have hcounted₂ : Counted 1 { s with inCritical := s.inCritical + 1, messageQueue := [] } :=
    ⟨congrArg (· + 1) hcounted.inCritical, hcounted.inIrq, hcounted.nested, hcounted.thread,
      hcounted.exits, hcounted.invocations⟩
  have hkeeps₂ : Keeps s { s with inCritical := s.inCritical + 1, messageQueue := [] } :=
    .of_control rfl rfl
  simp only [smpProcessPendingMessages]
  rw [if_pos hsmp]
  split
  · split
    · exact ⟨_, rfl, haltThis_spec hcounted₁ (hkeeps₁.served hserved) hready []⟩
    · exact processMessages_spec [] hcounted₁ (hkeeps₁.served hserved) hready
  · exact processMessages_spec _ hcounted₂ (hkeeps₂.served hserved) hready

/-! ## Traps -/

theorem enterTrap_spec (raiseIrq : Bool) (cs : Nat) (gate : Bool) (hrunning : running s.control)
    (h : Inv s) : Inv (enterTrap raiseIrq cs gate s) := by
  have hkeeps : Keeps s (enterTrap raiseIrq cs gate s) := .push rfl rfl rfl fun _ h => h
  refine ⟨⟨h.counted.inCritical, ?_, ⟨⟨h.counted.inIrq, ?_, h.counted.counters_eq, hrunning⟩,
    h.counted.nested⟩, fun thread hthread => ?_, h.counted.exits, h.counted.invocations⟩,
    hkeeps.served h.served, .inl rfl⟩
  · have hinIrq := h.counted.inIrq
    simp only [enterTrap, irqs_cons, Frame.irqs]
    cases raiseIrq with
    | true => exact congrArg (· + 1) hinIrq
    | false => exact hinIrq
  · cases hthread : s.currentThread with
    | none => exact nofun
    | some thread => exact h.counted.thread thread hthread
  · simp only [enterTrap, Option.map_eq_some_iff] at hthread
    obtain ⟨current, hcurrent, rfl⟩ := hthread
    intro regs hregs
    rcases mem_cons.mp hregs with rfl | hregs
    · rfl
    · exact h.counted.thread current hcurrent regs hregs

theorem exitTrap_spec {raiseIrq : Bool} {trap : TrapFrame} {before : Counters}
    (hcontrol : s.control = .trap raiseIrq trap before :: control) (h : Inv s) :
    ∃ s', exitTrap trap before control s = some s' ∧ Inv s' := by
  have hnested := h.counted.nested
  rw [hcontrol] at hnested
  obtain ⟨htrap, hnested⟩ := hnested
  have hinCritical := h.counted.inCritical
  have hinIrq := h.counted.inIrq
  rw [hcontrol] at hinCritical hinIrq
  have hle : trap.prevIrqLevel ≤ s.inIrq := by
    rw [htrap.prevIrqLevel, hinIrq, irqs_cons]
    exact Nat.le_add_right _ _
  simp only [exitTrap]
  rw [if_pos hle]
  split
  · next hsmp =>
    have hkeeps : Keeps s
        { s with
          interrupts := false
          inCritical := s.inCritical + 1
          inIrq := trap.prevIrqLevel
          control := .exitMessages trap before :: control } := by
      refine ⟨rfl, fun held hheld => ?_, fun frame hmem hawaits => ?_⟩
      · rw [hcontrol] at hheld
        exact hheld
      · rcases mem_cons.mp hmem with rfl | hmem
        · cases hawaits
        · exact hcontrol ▸ mem_cons_of_mem _ hmem
    refine smpProcessPendingMessages_spec ⟨congrArg (· + 1) hinCritical, htrap.prevIrqLevel,
      ⟨htrap, hnested⟩, h.counted.thread, h.counted.exits, h.counted.invocations⟩
      (hkeeps.served h.served) rfl hsmp
  · have hkeeps : Keeps s
        { s with
          interrupts := false
          inCritical := s.inCritical + 1
          inIrq := trap.prevIrqLevel
          control } := .pop rfl hcontrol rfl fun _ h => h
    have hcounted : Counted 1
        { s with
          interrupts := false
          inCritical := s.inCritical + 1
          inIrq := trap.prevIrqLevel
          control } :=
      ⟨congrArg (· + 1) hinCritical, htrap.prevIrqLevel, hnested, h.counted.thread,
        h.counted.exits, h.counted.invocations⟩
    exact exitTrapDrain_spec hcounted (hkeeps.served h.served) rfl htrap

/-! ## Actions -/

theorem schedulerDone_spec {interrupts : Bool} {caller : Caller}
    (hcontrol : s.control = .invokeAsync interrupts caller :: control) (h : Inv s) :
    ∃ s', exec s .schedulerDone = some s' ∧ Inv s' := by
  have hnested := h.counted.nested
  rw [hcontrol] at hnested
  obtain ⟨⟨hzero, hrunning, hbefore⟩, -⟩ := hnested
  have hcounted : Counted 0 { s with control } := h.counted.pop hcontrol rfl
  have hkeeps : Keeps s { s with control } := .pop rfl hcontrol rfl fun _ h => h
  obtain ⟨lists, hc, hd⟩ := h.served
  have hserved := hkeeps.served ⟨lists, hc, hd⟩
  simp only [exec, hcontrol]
  cases caller with
  | exitTrap before =>
    exact ⟨_, rfl, exitTrapReturn_spec hcounted hserved hrunning interrupts
      ((hbefore before rfl).trans hzero.symm)⟩
  | code => exact leaveReturn_spec hcounted hserved (ready_of_running hrunning) nofun
  | queue call =>
    refine leaveReturn_spec hcounted hserved (ready_of_running hrunning) fun c hc => ?_
    cases hc
    exact hd.invokeAsync interrupts call (hcontrol ▸ mem_cons_self)

/-- An enabled action fails no assertion, and the invariants hold after it. -/
theorem exec_spec (h : Inv s) (hallowed : allowed s action) :
    ∃ s', exec s action = some s' ∧ Inv s' := by
  have hcounted := h.counted
  have hsame : ∀ s' : State, s'.ledger = s.ledger → s'.control = s.control →
      s'.inCritical = s.inCritical → s'.inIrq = s.inIrq → s'.exits = s.exits →
      s'.invocations = s.invocations →
      (∀ thread, s'.currentThread = some thread → HasRegs thread.currentTrap) →
      (running s.control ∨ s'.interrupts = s.interrupts) → Inv s' := by
    intro s' hledger hcontrol hinCritical hinIrq hexits hinvocations hthread hsettled
    refine ⟨⟨?_, ?_, ?_, hthread, ?_, ?_⟩, (Keeps.of_control hledger hcontrol).served h.served, ?_⟩
    · rw [hinCritical, hcontrol, hcounted.inCritical]
    · rw [hinIrq, hcontrol, hcounted.inIrq]
    · rw [hcontrol]
      exact hcounted.nested
    · rw [hexits]
      exact hcounted.exits
    · rw [hinvocations]
      exact hcounted.invocations
    · rw [Settled, hcontrol]
      rcases hsettled with hrunning | hinterrupts
      · exact .inl hrunning
      · rw [hinterrupts]
        exact h.settled
  cases action with
  | enterCritical =>
    have hkeeps : Keeps s { s with
        inCritical := s.inCritical + 1
        control := .critical :: s.control } := .push rfl rfl rfl fun _ h => h
    exact ⟨_, rfl, ⟨congrArg (· + 1) hcounted.inCritical, hcounted.inIrq,
      ⟨hallowed, hcounted.nested⟩, hcounted.thread, hcounted.exits, hcounted.invocations⟩,
      hkeeps.served h.served, .inl rfl⟩
  | leaveCritical =>
    simp only [allowed] at hallowed
    split at hallowed
    · next control hcontrol =>
      have hnested := hcounted.nested
      rw [hcontrol] at hnested
      have hcounted' : Counted 1 { s with control } := hcounted.pop hcontrol rfl
      have hkeeps : Keeps s { s with control } := .pop rfl hcontrol rfl fun _ h => h
      simp only [exec, hcontrol, tail_cons]
      exact leaveCritical_spec hcounted' (hkeeps.served h.served) (ready_of_running hnested.1)
        nofun nofun
    · cases hallowed
  | enterTrap raiseIrq cs gate => exact ⟨_, rfl, enterTrap_spec raiseIrq cs gate hallowed h⟩
  | exitTrap =>
    simp only [allowed] at hallowed
    split at hallowed
    · next hcontrol =>
      simp only [exec, hcontrol]
      exact exitTrap_spec hcontrol h
    · cases hallowed
  | queue address =>
    rw [allowed, Bool.and_eq_true, Bool.or_eq_true] at hallowed
    refine deferredCallQueue_spec hallowed.1 h fun hfree => ?_
    rcases hallowed.2 with hsome | hunused
    · rw [hfree] at hsome
      cases hsome
    · exact of_decide_eq_true hunused
  | process =>
    rw [allowed, Bool.and_eq_true] at hallowed
    exact smpProcessPendingMessages_spec hcounted h.served (ready_of_running hallowed.1)
      hallowed.2
  | requestScheduler =>
    exact ⟨_, rfl, hsame _ rfl rfl rfl rfl rfl rfl hcounted.thread (.inl hallowed)⟩
  | setInterrupts enabled =>
    exact ⟨_, rfl, hsame _ rfl rfl rfl rfl rfl rfl hcounted.thread (.inl hallowed)⟩
  | setThread =>
    rw [allowed, Bool.and_eq_true] at hallowed
    refine ⟨_, rfl, hsame _ rfl rfl rfl rfl rfl rfl (fun thread hthread => ?_)
      (.inl hallowed.1)⟩
    cases hthread
    exact nofun
  | reverse =>
    simp only [allowed] at hallowed
    split at hallowed
    · next hcontrol =>
      simp only [exec, hcontrol]
      exact reverseStep_spec hcontrol h
    · cases hallowed
  | handlerDone =>
    simp only [allowed] at hallowed
    split at hallowed
    · next hcontrol =>
      simp only [exec, hcontrol]
      exact handlerDone_spec hcontrol (beq_iff_eq.mp hallowed) h
    · cases hallowed
  | messageDone =>
    simp only [allowed] at hallowed
    split at hallowed
    · next interrupts control hcontrol =>
      rw [beq_iff_eq.mp hallowed] at hcontrol
      simp only [exec, hcontrol]
      exact messageDone_spec hcontrol h
    · cases hallowed
  | schedulerDone =>
    simp only [allowed] at hallowed
    split at hallowed
    · next hcontrol => exact schedulerDone_spec hcontrol h
    · cases hallowed
  | receive msg => exact ⟨_, rfl, hsame _ rfl rfl rfl rfl rfl rfl hcounted.thread (.inr rfl)⟩
  | requestHalt => exact ⟨_, rfl, hsame _ rfl rfl rfl rfl rfl rfl hcounted.thread (.inr rfl)⟩
  | smpEnable => exact ⟨_, rfl, hsame _ rfl rfl rfl rfl rfl rfl hcounted.thread (.inr rfl)⟩
  | initializeScheduler =>
    exact ⟨_, rfl, hsame _ rfl rfl rfl rfl rfl rfl hcounted.thread (.inr rfl)⟩

/-! ## Runs -/

/-- The free list of `deferred_call_pool_init`. -/
theorem linked_poolInit {entry : Nat} (n : Nat) (h : entry + n + 1 = poolCount) :
    Linked (fun e => (deferredCallPoolInit poolCount e).next) (some entry)
      (List.range' entry (n + 1)) := by
  induction n generalizing entry with
  | zero =>
    refine ⟨rfl, ?_⟩
    simp only [deferredCallPoolInit]
    exact if_neg (by omega)
  | succ n ih =>
    refine ⟨rfl, ?_⟩
    have hnext : (deferredCallPoolInit poolCount entry).next = some (entry + 1) :=
      if_pos (by omega)
    simp only [hnext]
    exact ih (by omega)

theorem earlyInitialize_inv (hpool : 0 < poolCount) : Inv (earlyInitialize poolCount) := by
  refine ⟨⟨rfl, rfl, trivial, nofun, nofun, nofun⟩,
    ⟨⟨List.range poolCount, [], []⟩, ⟨?_, rfl, nofun, List.Pairwise.nil, rfl, ?_⟩,
      nofun, nofun, nofun, nofun, nofun⟩, .inl rfl⟩
  · rw [range_eq_range']
    obtain ⟨n, rfl⟩ := Nat.exists_eq_succ_of_ne_zero (Nat.ne_of_gt hpool)
    exact linked_poolInit n (by omega)
  · refine ⟨by simp [Lists.slots, earlyInitialize], nodup_nil, nofun,
      fun e he => mem_range.mp he, fun e he => ?_, nofun, nodup_nil, nofun, nofun,
      fun _ _ => rfl⟩
    have hlt : e < poolCount := by simpa [Lists.slots] using he
    exact (decide_eq_false (Nat.not_le.mpr hlt)).symm

/-- The state is well and no assertion has failed. -/
def Status.Good : Status → Prop
  | .ok s => Inv s
  | .verifyFailed => False

theorem step_good {status status' : Status} (h : status.Good)
    (hstep : step status action = some status') : status'.Good := by
  cases status with
  | verifyFailed => exact h.elim
  | ok s =>
    simp only [step] at hstep
    split at hstep
    · next hallowed =>
      rw [Bool.and_eq_true] at hallowed
      obtain ⟨s', hexec, hs'⟩ := exec_spec h hallowed.2
      rw [hexec] at hstep
      obtain rfl := Option.some.inj hstep
      exact hs'
    · cases hstep

/-- The run lemma: what the invariants give holds in every state of a run. -/
theorem always_of_inv (hpool : 0 < poolCount) {P : State → Prop}
    (hP : ∀ s, Inv s → P s) (actions : List Action) :
    Always step (fun status => ∃ s, status = .ok s ∧ P s) (initial poolCount) actions := by
  have hgood : (initial poolCount).Good := earlyInitialize_inv hpool
  refine (Always.of_invariant (fun _ _ _ => step_good) actions hgood).mono fun status h => ?_
  cases status with
  | ok s => exact ⟨s, rfl, hP s h⟩
  | verifyFailed => exact h.elim

/-! ## What holds in every state -/

/-- Deferred calls are conserved, however drains nest: every entry is on the free list,
on the pending list or on a list that is being drained; every callback is waiting,
running, or was run once and had its entry given back once; the callbacks of one drain
run in the order in which they were queued. -/
theorem conserved_always (poolCount : Nat) (hpool : 0 < poolCount) (actions : List Action) :
    Always step (fun status => ∃ s, status = .ok s ∧ ∃ lists, Conserved s lists)
      (initial poolCount) actions := by
  refine always_of_inv hpool (fun s h => ?_) actions
  obtain ⟨lists, hc, -⟩ := h.served
  exact ⟨lists, hc⟩

/-- A pool of one entry, two calls in a trap, and a third from the first handler. -/
def sampleActions : List Action :=
  [.enterTrap true 3 true, .queue 5, .queue 6, .exitTrap, .reverse, .reverse, .reverse,
    .queue 7, .handlerDone, .handlerDone, .enterCritical, .leaveCritical, .reverse, .reverse,
    .handlerDone]

theorem conserved_always_sample : (run step (initial 1) sampleActions).isSome ∧
    Always step (fun status => ∃ s, status = .ok s ∧ ∃ lists, Conserved s lists)
      (initial 1) sampleActions :=
  ⟨by decide, conserved_always 1 (by decide) sampleActions⟩

/-- Outside an interrupt handler, an outermost section is left when every call that was
queued before has been executed.  What is pending then was queued by a handler in the
meantime.  A call that `deferred_call_queue` queues outside critical sections and
interrupt handlers has been executed when it returns. -/
theorem drained_always (poolCount : Nat) (hpool : 0 < poolCount) (actions : List Action) :
    Always step
      (fun status => ∃ s, status = .ok s ∧
        (∀ left ∈ s.lefts, (∀ call < left.before, Executed s.log call) ∧
          (left.after = left.before → left.pending = none)) ∧
        ∀ call ∈ s.returned, call ∈ s.outside → Executed s.log call)
      (initial poolCount) actions := by
  refine always_of_inv hpool (fun s h => ?_) actions
  obtain ⟨lists, -, hd⟩ := h.served
  exact ⟨hd.lefts, fun call hcall => (hd.returned call hcall).2⟩

theorem drained_always_sample : (run step (initial 1) sampleActions).isSome ∧
    Always step
      (fun status => ∃ s, status = .ok s ∧
        (∀ left ∈ s.lefts, (∀ call < left.before, Executed s.log call) ∧
          (left.after = left.before → left.pending = none)) ∧
        ∀ call ∈ s.returned, call ∈ s.outside → Executed s.log call)
      (initial 1) sampleActions :=
  ⟨by decide, drained_always 1 (by decide) sampleActions⟩

/-- A handler queues a call while the outermost section is being left: the drain has
taken the pending list already, and the call is still pending afterwards. -/
theorem not_drained_queueInHandler :
    ¬ Always step (fun status => ∃ s, status = .ok s ∧ ∀ left ∈ s.lefts, left.pending = none)
      (initial 2) [.queue 2, .reverse, .reverse, .queue 2, .handlerDone] := by
  intro h
  have hlast := always_iff.mp h _ _ (prefix_refl _) rfl
  obtain ⟨s, hs, hlefts⟩ := hlast
  cases hs
  exact absurd (hlefts ⟨1, 2, some 1⟩ (by decide)) (by decide)

/-- Well-nested traps and critical sections: no assertion fails, every `exit_trap` ends
with the counters that the matching `enter_trap` began with, and the scheduler is only
invoked outside of both. -/
theorem nesting_always (poolCount : Nat) (hpool : 0 < poolCount) (actions : List Action) :
    Always step
      (fun status => ∃ s, status = .ok s ∧ (∀ e ∈ s.exits, e.1 = e.2) ∧
        ∀ c ∈ s.invocations, c = ⟨0, 0⟩)
      (initial poolCount) actions :=
  always_of_inv hpool (fun _ h => ⟨h.counted.exits, h.counted.invocations⟩) actions

theorem nesting_always_sample : (run step (initial 1) sampleActions).isSome ∧
    Always step
      (fun status => ∃ s, status = .ok s ∧ (∀ e ∈ s.exits, e.1 = e.2) ∧
        ∀ c ∈ s.invocations, c = ⟨0, 0⟩)
      (initial 1) sampleActions :=
  ⟨by decide, nesting_always 1 (by decide) sampleActions⟩

end Literate.Kernel.Processor

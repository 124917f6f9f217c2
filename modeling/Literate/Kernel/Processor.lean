import Literate.Foundation.Run
import Mathlib.Logic.Function.Basic

/-!
# Kernel: critical sections, traps and deferred calls of one processor

The part of `Kernel/Arch/x86/common/Processor.cpp` that counts nested traps
(`m_in_irq`) and critical sections (`m_in_critical`), and that queues and drains
deferred calls.  `ScopedCritical.cpp` and `TrapFrame.cpp` hold its callers.

The functions call back into code that is not theirs: the handler of a deferred call,
the callback of a message, the body of a trap or of a critical section, and
`Scheduler::invoke_async`.  That code may do anything these functions allow, so a run
is a list of actions, and the *control stack* says which functions wait for which
code.  Code is balanced: it leaves the sections and traps that it entered, in order,
before it returns, and a handler, a callback and the scheduler return with interrupts
as they found them.

A function is `none` when one of its assertions fails (or when it follows a null
pointer).  The counters do not wrap around: every level of nesting has a frame on
the processor's stack.

The fields of `History` are not read by any function.  They record what has happened.
-/

namespace Literate.Kernel.Processor

/-- `DeferredCallEntry`.  `handler` is the callback it holds, if any: callbacks are
named by the call of `deferred_call_queue` that they came with. -/
structure DeferredCallEntry where
  next : Option Nat
  handler : Option Nat
  wasAllocated : Bool
  deriving DecidableEq, Repr

/-- `ProcessorMessage::type`. -/
inductive Message where
  | callback
  | flushTlb
  deriving DecidableEq, Repr

/-- What a trap frame's registers say: the code segment, and whether interrupts are
enabled again when the trap returns. -/
structure RegisterState where
  cs : Nat
  interrupts : Bool
  deriving DecidableEq, Repr

/-- `TrapFrame`.  A pointer to a trap frame is the list of the registers of the
frames that it leads to along `next_trap`. -/
structure TrapFrame where
  prevIrqLevel : Nat
  nextTrap : List (Option RegisterState)
  regs : Option RegisterState
  deriving DecidableEq, Repr

inductive PreviousMode where
  | userMode
  | kernelMode
  deriving DecidableEq, Repr

/-- What traps read and write of the current thread. -/
structure Thread where
  currentTrap : List (Option RegisterState)
  previousMode : PreviousMode
  deriving DecidableEq, Repr

structure Counters where
  inIrq : Nat
  inCritical : Nat
  deriving DecidableEq, Repr

/-- Who a section is left for, or the scheduler invoked. -/
inductive Caller where
  | code
  /-- the end of the `deferred_call_queue` with this callback -/
  | queue (call : Nat)
  /-- an `exit_trap`; the counters are those before the matching `enter_trap` -/
  | exitTrap (before : Counters)
  deriving DecidableEq, Repr

/-- One level of the control stack. -/
inductive Frame where
  /-- a critical section whose code is running -/
  | critical
  /-- a trap whose handler is running -/
  | trap (raiseIrq : Bool) (trap : TrapFrame) (before : Counters)
  /-- `deferred_call_execute_pending` in `reverse_list` -/
  | reverse (list rev : Option Nat)
  /-- `deferred_call_execute_pending` runs the handler of `pendingList`; `ran` are the
  callbacks it has finished, and interrupts were as given when the handler began -/
  | drain (pendingList : Nat) (interrupts : Bool) (ran : List Nat)
  /-- `smp_process_pending_messages` runs the callback of a message -/
  | message (rest : List Message) (interrupts : Bool)
  /-- `do_leave_critical` waits for `deferred_call_execute_pending`; `before` calls
  had been queued when it began, and interrupts are set as given in the end -/
  | leave (interrupts : Bool) (before : Nat) (caller : Caller)
  /-- `exit_trap` waits for `smp_process_pending_messages` -/
  | exitMessages (trap : TrapFrame) (before : Counters)
  /-- `exit_trap` waits for `deferred_call_execute_pending` -/
  | exitDrain (trap : TrapFrame) (before : Counters)
  /-- `check_invoke_scheduler` waits for `Scheduler::invoke_async` -/
  | invokeAsync (interrupts : Bool) (caller : Caller)
  deriving DecidableEq, Repr

/-- What happens to the callback of the given call, in the given entry. -/
inductive Event where
  | queue (call entry : Nat)
  | invoke (call entry : Nat)
  /-- the entry is returned to the pool -/
  | toPool (call entry : Nat)
  /-- the entry is deleted -/
  | delete (call entry : Nat)
  deriving DecidableEq, Repr

namespace Event

def call : Event → Nat
  | .queue call _ => call
  | .invoke call _ => call
  | .toPool call _ => call
  | .delete call _ => call

end Event

/-- An outermost critical section was left outside an interrupt handler. -/
structure Left where
  /-- the number of calls that had been queued when `do_leave_critical` began -/
  before : Nat
  /-- the number of calls that had been queued when it was left -/
  after : Nat
  /-- `m_pending_deferred_calls` when it was left -/
  pending : Option Nat
  deriving DecidableEq, Repr

structure Fields where
  inIrq : Nat
  inCritical : Nat
  /-- the processor's interrupt flag -/
  interrupts : Bool
  smpEnabled : Bool
  invokeSchedulerAsync : Bool
  schedulerInitialized : Bool
  haltRequested : Bool
  halted : Bool
  currentThread : Option Thread
  /-- `m_message_queue`, the latest message first -/
  messageQueue : List Message
  poolCount : Nat
  entries : Nat → DeferredCallEntry
  pendingDeferredCalls : Option Nat
  freeDeferredCallPoolEntry : Option Nat
  /-- the entries that were allocated and not yet deleted -/
  heap : List Nat

structure History where
  /-- the number of calls of `deferred_call_queue`; the next one gets this name -/
  calls : Nat
  log : List Event
  lefts : List Left
  /-- the calls made outside critical sections and interrupt handlers -/
  outside : List Nat
  /-- the calls that have returned -/
  returned : List Nat
  /-- for every `exit_trap` that has returned, the counters before the matching
  `enter_trap` and the counters now -/
  exits : List (Counters × Counters)
  /-- the counters at every `Scheduler::invoke_async` -/
  invocations : List Counters

structure State extends Fields, History where
  control : List Frame

/-- `deferred_call_pool_init`: the entries of the pool are those below `poolCount`. -/
def deferredCallPoolInit (poolCount : Nat) (entry : Nat) : DeferredCallEntry where
  next := if entry < poolCount - 1 then some (entry + 1) else none
  handler := none
  wasAllocated := false

/-- After `early_initialize`. -/
def earlyInitialize (poolCount : Nat) : State where
  inIrq := 0
  inCritical := 0
  interrupts := false
  smpEnabled := false
  invokeSchedulerAsync := false
  schedulerInitialized := false
  haltRequested := false
  halted := false
  currentThread := none
  messageQueue := []
  poolCount := poolCount
  entries := deferredCallPoolInit poolCount
  pendingDeferredCalls := none
  freeDeferredCallPoolEntry := some 0
  heap := []
  calls := 0
  log := []
  lefts := []
  outside := []
  returned := []
  exits := []
  invocations := []
  control := []

namespace State

def counters (s : State) : Counters where
  inIrq := s.inIrq
  inCritical := s.inCritical

def setEntry (s : State) (entry : Nat) (value : DeferredCallEntry) : State :=
  { s with entries := Function.update s.entries entry value }

end State

/-! ## The scheduler -/

/-- `check_invoke_scheduler`, at the end of what `caller` waits for: `ret` is what
happens after it. -/
def checkInvokeScheduler (interrupts : Bool) (caller : Caller)
    (ret : State → Option State) (s : State) : Option State :=
  if s.interrupts = false ∧ s.inIrq = 0 ∧ s.inCritical = 0 then
    if s.invokeSchedulerAsync && s.schedulerInitialized then
      some { s with
        invokeSchedulerAsync := false
        invocations := s.invocations ++ [s.counters]
        control := .invokeAsync interrupts caller :: s.control }
    else ret s
  else none

/-! ## Leaving a trap -/

/-- `exit_trap` returns, and the trap with it. -/
def exitTrapReturn (interrupts : Bool) (before : Counters) (s : State) : State :=
  { s with interrupts, exits := s.exits ++ [(before, s.counters)] }

/-- The mode that a trap with these registers returns to. -/
def RegisterState.mode (regs : RegisterState) : PreviousMode :=
  if regs.cs &&& 3 ≠ 0 then .userMode else .kernelMode

/-- `exit_trap` takes its frame off the current thread, if there is one. -/
def popTrap (trap : TrapFrame) : Option Thread → Option (Option Thread)
  | none => some none
  | some _ =>
    match trap.nextTrap with
    | [] => some (some ⟨[], .kernelMode⟩)
    | regs :: _ => regs.map fun regs => some ⟨trap.nextTrap, regs.mode⟩

/-- The interrupt flag after the trap. -/
def TrapFrame.interrupts (trap : TrapFrame) : Bool :=
  match trap.regs with
  | some regs => regs.interrupts
  | none => false

/-- `exit_trap` after the deferred calls, from line 952 on. -/
def exitTrapFinish (trap : TrapFrame) (before : Counters) (s : State) : Option State :=
  (popTrap trap s.currentThread).bind fun currentThread =>
    if s.interrupts = false then
      let s := { s with currentThread, inCritical := s.inCritical - 1 }
      if s.inIrq = 0 ∧ s.inCritical = 0 then
        checkInvokeScheduler trap.interrupts (.exitTrap before)
          (fun s => some (exitTrapReturn trap.interrupts before s)) s
      else some (exitTrapReturn trap.interrupts before s)
    else none

/-- `exit_trap` from its `deferred_call_execute_pending` on. -/
def exitTrapDrain (trap : TrapFrame) (before : Counters) (s : State) : Option State :=
  if 0 < s.inCritical then
    match s.pendingDeferredCalls with
    | none => exitTrapFinish trap before s
    | some entry =>
      some { s with
        pendingDeferredCalls := none
        control := .reverse (some entry) none :: .exitDrain trap before :: s.control }
  else none

/-! ## Leaving a critical section -/

/-- What waits for a `leave_critical` goes on. -/
def resume (s : State) : Option State :=
  match s.control with
  | .exitMessages trap before :: control => exitTrapDrain trap before { s with control }
  | _ => some s

/-- `leave_critical` returns; its `InterruptDisabler` sets interrupts as they were. -/
def leaveReturn (interrupts : Bool) (caller : Caller) (s : State) : Option State :=
  match caller with
  | .queue call => resume { s with interrupts, returned := s.returned ++ [call] }
  | _ => resume { s with interrupts }

/-- `do_leave_critical` from the assignment `m_in_critical = 0` on. -/
def leaveOutermost (interrupts : Bool) (caller : Caller) (s : State) : Option State :=
  let s := { s with inCritical := 0 }
  if s.inIrq = 0 then
    checkInvokeScheduler interrupts caller (leaveReturn interrupts caller) s
  else leaveReturn interrupts caller s

/-- `do_leave_critical` after the deferred calls, from `VERIFY(m_in_critical == 1)` on. -/
def leaveFinish (interrupts : Bool) (before : Nat) (caller : Caller) (s : State) : Option State :=
  if s.inCritical = 1 then
    leaveOutermost interrupts caller
      { s with lefts := s.lefts ++ [⟨before, s.calls, s.pendingDeferredCalls⟩] }
  else none

def leaveCritical (caller : Caller) (s : State) : Option State :=
  let interrupts := s.interrupts
  let s := { s with interrupts := false }
  if 0 < s.inCritical then
    if s.inCritical = 1 then
      if s.inIrq = 0 then
        match s.pendingDeferredCalls with
        | none => leaveFinish interrupts s.calls caller s
        | some entry =>
          some { s with
            pendingDeferredCalls := none
            control := .reverse (some entry) none :: .leave interrupts s.calls caller ::
              s.control }
      else leaveOutermost interrupts caller s
    else leaveReturn interrupts caller { s with inCritical := s.inCritical - 1 }
  else none

/-! ## Deferred calls -/

def deferredCallReturnToPool (entry : Nat) (s : State) : Option State :=
  if 0 < s.inCritical ∧ (s.entries entry).wasAllocated = false then
    some { s.setEntry entry
        { s.entries entry with handler := none, next := s.freeDeferredCallPoolEntry } with
      freeDeferredCallPoolEntry := some entry }
  else none

/-- `deferred_call_get_free`: the entry and the state.  `address` is where `new` puts
an entry. -/
def deferredCallGetFree (address : Nat) (s : State) : Option (Nat × State) :=
  if 0 < s.inCritical then
    match s.freeDeferredCallPoolEntry with
    | some entry =>
      if (s.entries entry).wasAllocated = false then
        some (entry, { s with freeDeferredCallPoolEntry := (s.entries entry).next })
      else none
    | none =>
      some (address, { s.setEntry address
          { s.entries address with handler := none, wasAllocated := true } with
        heap := address :: s.heap })
  else none

/-- `entry->handler_value() = move(callback)`. -/
def storeHandler (entry call : Nat) (s : State) : State :=
  s.setEntry entry { s.entries entry with handler := some call }

def deferredCallQueueEntry (entry : Nat) (s : State) : Option State :=
  if 0 < s.inCritical then
    some { s.setEntry entry { s.entries entry with next := s.pendingDeferredCalls } with
      pendingDeferredCalls := some entry }
  else none

/-- What is recorded of a `deferred_call_queue` in the given entry. -/
def recordQueue (entry : Nat) (outside : Bool) (s : State) : State :=
  { s with
    calls := s.calls + 1
    log := s.log ++ [Event.queue s.calls entry]
    outside := if outside then s.outside ++ [s.calls] else s.outside }

/-- `deferred_call_queue`, up to the end of its critical section. -/
def deferredCallQueue (address : Nat) (s : State) : Option State :=
  let call := s.calls
  let outside : Bool := s.inCritical = 0 ∧ s.inIrq = 0
  (deferredCallGetFree address { s with inCritical := s.inCritical + 1 }).bind
    fun (entry, s) =>
      (deferredCallQueueEntry entry (storeHandler entry call s)).bind fun s =>
        leaveCritical (.queue call) (recordQueue entry outside s)

/-- `pending_list->invoke_handler()`; `control` is what waits for the drain. -/
def invokeHandler (entry : Nat) (ran : List Nat) (control : List Frame) (s : State) :
    Option State :=
  (s.entries entry).handler.map fun call =>
    { s with
      log := s.log ++ [Event.invoke call entry]
      control := .drain entry s.interrupts ran :: control }

/-- One turn of the loop of `reverse_list`, or its end and the first handler. -/
def reverseStep (list rev : Option Nat) (control : List Frame) (s : State) : Option State :=
  match list with
  | some entry =>
    some { s.setEntry entry { s.entries entry with next := rev } with
      control := .reverse (s.entries entry).next (some entry) :: control }
  | none => rev.bind fun entry => invokeHandler entry [] control s

/-- The end of `deferred_call_execute_pending`. -/
def executePendingReturn (control : List Frame) (s : State) : Option State :=
  match control with
  | .leave interrupts before caller :: control =>
    leaveFinish interrupts before caller { s with control }
  | .exitDrain trap before :: control => exitTrapFinish trap before { s with control }
  | _ => none

/-- The entry whose handler has returned goes back to where it came from. -/
def releaseEntry (entry call : Nat) (s : State) : Option State :=
  if (s.entries entry).wasAllocated then
    some { s with heap := s.heap.erase entry, log := s.log ++ [Event.delete call entry] }
  else
    (deferredCallReturnToPool entry s).map fun s =>
      { s with log := s.log ++ [Event.toPool call entry] }

/-- `deferred_call_execute_pending` after a handler. -/
def handlerDone (entry : Nat) (ran : List Nat) (control : List Frame) (s : State) : Option State :=
  (s.entries entry).handler.bind fun call =>
    (releaseEntry entry call s).bind fun s' =>
      match (s.entries entry).next with
      | some next => invokeHandler next (ran ++ [call]) control s'
      | none => executePendingReturn control s'

/-! ## Messages -/

/-- `halt_this` in the loop over the messages. -/
def haltThis (rest : List Message) (s : State) : State :=
  { s with halted := true, control := .message rest s.interrupts :: s.control }

/-- The loop of `smp_process_pending_messages`, and what follows it. -/
def processMessages : List Message → State → Option State
  | [], s => leaveCritical .code s
  | .callback :: rest, s => some { s with control := .message rest s.interrupts :: s.control }
  | .flushTlb :: rest, s =>
    if s.haltRequested then some (haltThis rest s) else processMessages rest s

/-- `smp_process_pending_messages` after the callback of a message. -/
def messageDone (rest : List Message) (s : State) : Option State :=
  if s.haltRequested then some (haltThis rest s) else processMessages rest s

def smpProcessPendingMessages (s : State) : Option State :=
  if s.smpEnabled then
    let s := { s with inCritical := s.inCritical + 1 }
    match s.messageQueue with
    | [] => if s.haltRequested then some (haltThis [] s) else processMessages [] s
    | queue => processMessages queue.reverse { s with messageQueue := [] }
  else none

/-! ## Traps -/

/-- `enter_trap` and `enter_trap_no_irq`, for a trap whose registers were saved by the
assembly entry.  `gate` says whether the processor disabled interrupts by itself. -/
def enterTrap (raiseIrq : Bool) (cs : Nat) (gate : Bool) (s : State) : State :=
  let regs : RegisterState := ⟨cs, s.interrupts⟩
  let trap : TrapFrame :=
    { prevIrqLevel := s.inIrq
      nextTrap :=
        match s.currentThread with
        | some thread => thread.currentTrap
        | none => []
      regs := some regs }
  { s with
    inIrq := if raiseIrq then s.inIrq + 1 else s.inIrq
    interrupts := s.interrupts && !gate
    currentThread := s.currentThread.map fun thread =>
      ⟨some regs :: thread.currentTrap, regs.mode⟩
    control := .trap raiseIrq trap s.counters :: s.control }

/-- `exit_trap`, up to the deferred calls.  Its caller disables interrupts. -/
def exitTrap (trap : TrapFrame) (before : Counters) (control : List Frame) (s : State) :
    Option State :=
  let s := { s with interrupts := false, inCritical := s.inCritical + 1 }
  if trap.prevIrqLevel ≤ s.inIrq then
    let s := { s with inIrq := trap.prevIrqLevel }
    if s.smpEnabled then
      smpProcessPendingMessages { s with control := .exitMessages trap before :: control }
    else exitTrapDrain trap before { s with control }
  else none

/-! ## Runs -/

/-- What can happen next: what the running code does, or what happens to the processor
from outside. -/
inductive Action where
  | enterCritical
  | leaveCritical
  | enterTrap (raiseIrq : Bool) (cs : Nat) (gate : Bool)
  | exitTrap
  /-- `deferred_call_queue`; `new` would put an entry at this address -/
  | queue (address : Nat)
  /-- code that waits for other processors calls `smp_process_pending_messages` -/
  | process
  /-- `Processor::invoke_scheduler_async` -/
  | requestScheduler
  | setInterrupts (enabled : Bool)
  /-- the current thread is set for the first time -/
  | setThread
  /-- one turn of `reverse_list` -/
  | reverse
  /-- the handler of a deferred call returns -/
  | handlerDone
  /-- the callback of a message returns -/
  | messageDone
  /-- `Scheduler::invoke_async` returns -/
  | schedulerDone
  | receive (msg : Message)
  | requestHalt
  | smpEnable
  | initializeScheduler
  deriving DecidableEq, Repr

/-- Code that is not of these functions is running. -/
def running : List Frame → Bool
  | .reverse _ _ :: _ => false
  | .leave _ _ _ :: _ => false
  | .exitMessages _ _ :: _ => false
  | .exitDrain _ _ :: _ => false
  | _ => true

/-- A fresh address of the allocator. -/
def State.unused (s : State) (address : Nat) : Prop :=
  s.poolCount ≤ address ∧ address ∉ s.heap

instance (s : State) (address : Nat) : Decidable (s.unused address) :=
  inferInstanceAs (Decidable (_ ∧ _))

/-- Whether an action can happen: the control stack allows it, and code is balanced. -/
def allowed (s : State) : Action → Bool
  | .enterCritical => running s.control
  | .leaveCritical =>
    match s.control with
    | .critical :: _ => true
    | _ => false
  | .enterTrap _ _ _ => running s.control
  | .exitTrap =>
    match s.control with
    | .trap _ _ _ :: _ => true
    | _ => false
  | .queue address =>
    running s.control && (s.freeDeferredCallPoolEntry.isSome || decide (s.unused address))
  | .process => running s.control && s.smpEnabled
  | .requestScheduler => running s.control
  | .setInterrupts _ => running s.control
  | .setThread => running s.control && s.currentThread.isNone
  | .reverse =>
    match s.control with
    | .reverse _ _ :: _ => true
    | _ => false
  | .handlerDone =>
    match s.control with
    | .drain _ interrupts _ :: _ => interrupts == s.interrupts
    | _ => false
  | .messageDone =>
    match s.control with
    | .message _ interrupts :: _ => interrupts == s.interrupts
    | _ => false
  | .schedulerDone =>
    match s.control with
    | .invokeAsync _ _ :: _ => !s.interrupts
    | _ => false
  | .receive _ => true
  | .requestHalt => true
  | .smpEnable => true
  | .initializeScheduler => true

/-- What an enabled action does; `none` when an assertion fails. -/
def exec (s : State) : Action → Option State
  | .enterCritical =>
    some { s with inCritical := s.inCritical + 1, control := .critical :: s.control }
  | .leaveCritical => leaveCritical .code { s with control := s.control.tail }
  | .enterTrap raiseIrq cs gate => some (enterTrap raiseIrq cs gate s)
  | .exitTrap =>
    match s.control with
    | .trap _ trap before :: control => exitTrap trap before control s
    | _ => none
  | .queue address => deferredCallQueue address s
  | .process => smpProcessPendingMessages s
  | .requestScheduler => some { s with invokeSchedulerAsync := true }
  | .setInterrupts interrupts => some { s with interrupts }
  | .setThread => some { s with currentThread := some ⟨[], .kernelMode⟩ }
  | .reverse =>
    match s.control with
    | .reverse list rev :: control => reverseStep list rev control s
    | _ => none
  | .handlerDone =>
    match s.control with
    | .drain entry _ ran :: control => handlerDone entry ran control s
    | _ => none
  | .messageDone =>
    match s.control with
    | .message rest _ :: control => messageDone rest { s with control }
    | _ => none
  | .schedulerDone =>
    match s.control with
    | .invokeAsync interrupts (.exitTrap before) :: control =>
      some (exitTrapReturn interrupts before { s with control })
    | .invokeAsync interrupts caller :: control => leaveReturn interrupts caller { s with control }
    | _ => none
  | .receive msg => some { s with messageQueue := msg :: s.messageQueue }
  | .requestHalt => some { s with haltRequested := true }
  | .smpEnable => some { s with smpEnabled := true }
  | .initializeScheduler => some { s with schedulerInitialized := true }

/-- A run has an assertion that failed, or it is in a state. -/
inductive Status where
  | ok (s : State)
  | verifyFailed

def step : Status → Action → Option Status
  | .verifyFailed, _ => none
  | .ok s, action =>
    if !s.halted && allowed s action then
      match exec s action with
      | some s' => some (.ok s')
      | none => some .verifyFailed
    else none

/-- The runs of a processor whose pool has the given number of entries. -/
def initial (poolCount : Nat) : Status := .ok (earlyInitialize poolCount)

end Literate.Kernel.Processor

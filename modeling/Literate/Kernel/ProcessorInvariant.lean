import Literate.Foundation.Linked
import Literate.Kernel.Processor
import Mathlib.Data.List.Perm.Basic
import Mathlib.Data.List.Range

/-!
# Kernel: what holds in every state of a processor

Three invariants, each about the control stack:

* the counters are the number of levels that count (`Nested`, `Counted`);
* the entries of the pool and of the heap are on the free list, on the pending list or
  on a list that is being drained, each call with its own entry (`Conserved`);
* the calls queued before an outermost section is left are executed before
  (`Drained`).
-/

namespace Literate.Kernel.Processor

open Foundation

/-! ## Counters -/

def Frame.criticals : Frame → Nat
  | .critical => 1
  | .leave _ _ _ => 1
  | .exitMessages _ _ => 1
  | .exitDrain _ _ => 1
  | .message _ _ => 1
  | _ => 0

/-- The critical sections that the stack is in. -/
def criticals : List Frame → Nat
  | [] => 0
  | frame :: control => criticals control + frame.criticals

def Frame.irqs : Frame → Nat
  | .trap raiseIrq _ _ => raiseIrq.toNat
  | _ => 0

/-- The traps of the stack that raise `m_in_irq`. -/
def irqs : List Frame → Nat
  | [] => 0
  | frame :: control => irqs control + frame.irqs

@[simp] theorem criticals_cons (frame : Frame) (control : List Frame) :
    criticals (frame :: control) = criticals control + frame.criticals := rfl

@[simp] theorem irqs_cons (frame : Frame) (control : List Frame) :
    irqs (frame :: control) = irqs control + frame.irqs := rfl

/-- The counters of running code with this stack. -/
def countersOf (control : List Frame) : Counters where
  inIrq := irqs control
  inCritical := criticals control

/-- A function that waits for `deferred_call_execute_pending`. -/
def awaitsDrain : List Frame → Prop
  | .leave _ _ _ :: _ => True
  | .exitDrain _ _ :: _ => True
  | _ => False

/-- A function waits for a drain in its critical section. -/
theorem criticals_pos {control : List Frame} (h : awaitsDrain control) : 0 < criticals control := by
  rw [awaitsDrain.eq_def] at h
  split at h
  · exact Nat.succ_pos _
  · exact Nat.succ_pos _
  · cases h

/-- Code that may enter and leave a critical section: running code, or `exit_trap`
while it processes messages.  There interrupts are disabled. -/
def Ready (interrupts : Bool) : List Frame → Prop
  | .exitMessages _ _ :: _ => interrupts = false
  | control => running control

/-- The trap frames that a pointer leads to have their registers. -/
def HasRegs (trap : List (Option RegisterState)) : Prop :=
  ∀ regs ∈ trap, regs.isSome

/-- A trap frame was filled by `enter_trap` above the given stack. -/
structure TrapAbove (trap : TrapFrame) (before : Counters) (control : List Frame) : Prop where
  prevIrqLevel : trap.prevIrqLevel = irqs control
  nextTrap : HasRegs trap.nextTrap
  before : before = countersOf control
  running : running control

/-- What a level of the stack stands on. -/
def Frame.Stands : Frame → List Frame → Prop
  | .critical, control => running control
  | .trap _ saved before, control => TrapAbove saved before control
  | .exitMessages saved before, control => TrapAbove saved before control
  | .exitDrain saved before, control => TrapAbove saved before control
  | .reverse _ _, control => awaitsDrain control
  | .drain _ interrupts _, control => interrupts = false ∧ awaitsDrain control
  | .message _ interrupts, control => Ready interrupts control
  | .leave _ _ caller, control =>
    countersOf control = ⟨0, 0⟩ ∧ running control ∧ ∀ before, caller ≠ .exitTrap before
  | .invokeAsync _ caller, control =>
    countersOf control = ⟨0, 0⟩ ∧ running control ∧
      ∀ before, caller = .exitTrap before → before = ⟨0, 0⟩

/-- Every level of the stack stands on what is below it. -/
def Nested : List Frame → Prop
  | [] => True
  | frame :: control => frame.Stands control ∧ Nested control

/-- What holds within a function that has counted `extra` more critical sections than
the stack shows. -/
structure Counted (extra : Nat) (s : State) : Prop where
  inCritical : s.inCritical = criticals s.control + extra
  inIrq : s.inIrq = irqs s.control
  nested : Nested s.control
  thread : ∀ thread, s.currentThread = some thread → HasRegs thread.currentTrap
  exits : ∀ e ∈ s.exits, e.1 = e.2
  invocations : ∀ c ∈ s.invocations, c = ⟨0, 0⟩

/-- Drains are only under way inside critical sections. -/
theorem Nested.noDrain {control : List Frame} (h : Nested control)
    (hzero : criticals control = 0) {frame : Frame} (hmem : frame ∈ control) :
    (∀ list rev, frame ≠ .reverse list rev) ∧
      ∀ entry interrupts ran, frame ≠ .drain entry interrupts ran := by
  induction control with
  | nil => cases hmem
  | cons top control ih =>
    rw [criticals_cons] at hzero
    rcases List.mem_cons.mp hmem with rfl | hmem
    · have hawait : ¬ awaitsDrain control := by
        intro hawait
        match control, hawait with
        | .leave _ _ _ :: _, _ => simp [criticals, Frame.criticals] at hzero
        | .exitDrain _ _ :: _, _ => simp [criticals, Frame.criticals] at hzero
      constructor
      · rintro list rev rfl
        exact hawait h.1
      · rintro entry interrupts ran rfl
        exact hawait h.1.2
    · exact ih h.2 (by omega) hmem

/-! ## Deferred calls -/

/-- An entry that holds a callback, and whether the handler has been invoked. -/
structure Slot where
  entry : Nat
  call : Nat
  started : Bool
  deriving DecidableEq, Repr

/-- What the log says of one callback. -/
def trace (log : List Event) (call : Nat) : List Event :=
  log.filter fun event => event.call = call

/-- The trace of a callback that is queued or running. -/
def Slot.trace (slot : Slot) : List Event :=
  if slot.started then [.queue slot.call slot.entry, .invoke slot.call slot.entry]
  else [.queue slot.call slot.entry]

/-- The trace of a callback that is done: queued once, invoked once and then its entry
given back once, to the pool when it is one of the pool's and deleted otherwise. -/
def closedTrace (poolCount call entry : Nat) : List Event :=
  [.queue call entry, .invoke call entry,
    if entry < poolCount then .toPool call entry else .delete call entry]

/-- Following `next` from a pointer visits the entries of these slots. -/
def Chain (entries : Nat → DeferredCallEntry) (p : Option Nat) (slots : List Slot) : Prop :=
  Linked (fun entry => (entries entry).next) p (slots.map Slot.entry)

/-- The slots of the lists that are being drained.  The callbacks of one drain, those
that have run first, are in the order in which they were queued. -/
def Held (entries : Nat → DeferredCallEntry) : List Frame → List Slot → Prop
  | [], held => held = []
  | .reverse list rev :: control, held =>
    ∃ left done below, held = left ++ done ++ below ∧
      Chain entries list left ∧ Chain entries rev done ∧
      left ++ done ≠ [] ∧ (∀ slot ∈ left ++ done, slot.started = false) ∧
      ((left.reverse ++ done).map Slot.call).Pairwise (· < ·) ∧ Held entries control below
  | .drain entry _ ran :: control, held =>
    ∃ call waiting below, held = ⟨entry, call, true⟩ :: (waiting ++ below) ∧
      Chain entries (some entry) (⟨entry, call, true⟩ :: waiting) ∧
      (∀ slot ∈ waiting, slot.started = false) ∧
      (ran ++ call :: waiting.map Slot.call).Pairwise (· < ·) ∧ Held entries control below
  | _ :: control, held => Held entries control held

/-- The free list, the slots of the pending list and the slots of the lists that are
being drained. -/
structure Lists where
  free : List Nat
  pending : List Slot
  held : List Slot

namespace Lists

def slots (lists : Lists) : List Slot := lists.pending ++ lists.held

end Lists

/-- What the entries and the log say about the free entries and the slots. -/
structure Accounted (s : State) (free : List Nat) (slots : List Slot) : Prop where
  /-- no entry is lost, none is in two places -/
  partition : (free ++ slots.map Slot.entry).Perm (List.range s.poolCount ++ s.heap)
  heap_nodup : s.heap.Nodup
  heap_above : ∀ entry ∈ s.heap, s.poolCount ≤ entry
  free_pool : ∀ entry ∈ free, entry < s.poolCount
  allocated : ∀ entry ∈ free ++ slots.map Slot.entry,
    (s.entries entry).wasAllocated = decide (s.poolCount ≤ entry)
  handler : ∀ slot ∈ slots, (s.entries slot.entry).handler = some slot.call
  calls_nodup : (slots.map Slot.call).Nodup
  trace_slot : ∀ slot ∈ slots, slot.call < s.calls ∧ trace s.log slot.call = slot.trace
  trace_closed : ∀ call < s.calls, call ∉ slots.map Slot.call →
    ∃ entry, trace s.log call = closedTrace s.poolCount call entry
  trace_fresh : ∀ call, s.calls ≤ call → trace s.log call = []

/-- The free list, the pending list and the lists that are being drained. -/
structure Conserved (s : State) (lists : Lists) : Prop where
  free : Linked (fun entry => (s.entries entry).next) s.freeDeferredCallPoolEntry lists.free
  pending : Chain s.entries s.pendingDeferredCalls lists.pending
  pending_waits : ∀ slot ∈ lists.pending, slot.started = false
  pending_order : (lists.pending.map Slot.call).Pairwise (· > ·)
  held : Held s.entries s.control lists.held
  accounted : Accounted s lists.free lists.slots

/-! ## Draining -/

/-- The callback has been invoked. -/
def Executed (log : List Event) (call : Nat) : Prop :=
  ∃ entry, Event.invoke call entry ∈ log

/-- What is waited for and what has been left, in terms of executed calls. -/
structure Drained (s : State) (lists : Lists) : Prop where
  leave : ∀ interrupts before caller, Frame.leave interrupts before caller ∈ s.control →
    before ≤ s.calls ∧ (∀ slot ∈ lists.pending, before ≤ slot.call) ∧
      ∀ call, caller = .queue call → call < before
  invokeAsync : ∀ interrupts call, Frame.invokeAsync interrupts (.queue call) ∈ s.control →
    call < s.calls ∧ (call ∈ s.outside → Executed s.log call)
  lefts : ∀ left ∈ s.lefts, (∀ call < left.before, Executed s.log call) ∧
    (left.after = left.before → left.pending = none)
  returned : ∀ call ∈ s.returned,
    call < s.calls ∧ (call ∈ s.outside → Executed s.log call)
  outside : ∀ call ∈ s.outside, call < s.calls

/-- What the deferred calls keep to. -/
def Served (s : State) : Prop := ∃ lists, Conserved s lists ∧ Drained s lists

/-- Code is running, or a list is being reversed. -/
def Settled (s : State) : Prop :=
  running s.control ∨
    ∃ list rev control, s.control = .reverse list rev :: control ∧ s.interrupts = false

/-- What holds between two actions. -/
structure Inv (s : State) : Prop where
  counted : Counted 0 s
  served : Served s
  settled : Settled s

end Literate.Kernel.Processor

import Literate.Kernel.MessagePool
import Mathlib.Data.List.Range
import Mathlib.Algebra.Group.Nat.Defs

/-!
# Kernel: sending and processing inter-processor messages

The message queues of `Kernel/Arch/x86/common/Processor.cpp`.  Every processor has
a stack of message entries, `m_message_queue`; message `m` brings one entry for
each processor, `per_proc_entries`, so an entry is its message and its processor.

A send (`smp_unicast_message`, or `smp_broadcast_message` followed by
`smp_broadcast_wait_sync`) and a call of `smp_process_pending_messages` are
*activities* that run on a processor, one memory access a step.  Activities of one
processor and of different processors interleave freely.  This covers the calls
that nest on one processor (a callback that sends, a waiting sender that processes
its own queue, an inter-processor interrupt): there the outer activity makes no
step until the inner one is done.

The fields of `History` are not read by any activity.  They record what has
happened, for the properties of the modules that follow.
-/

namespace Literate.Kernel.Message

open Function (update)

/-- `ProcessorMessageEntry`: the entry of message `msg` for processor `proc`.  Its
field `msg` is the message it belongs to (`smp_enable`). -/
structure Entry where
  msg : Nat
  proc : Nat
  deriving DecidableEq, Repr

/-- Whom a message is for: `smp_unicast_message(cpu, msg, async)`, or every other
processor and synchronously. -/
inductive Kind where
  | unicast (cpu : Nat) (async : Bool)
  | broadcast
  deriving DecidableEq, Repr

/-- A send on processor `self`. -/
structure Send where
  self : Nat
  msg : Nat
  kind : Kind
  deriving DecidableEq, Repr

namespace Send

/-- The processors the message is enqueued for, in the order of the calls. -/
def targets (snd : Send) (count : Nat) : List Nat :=
  match snd.kind with
  | .unicast cpu _ => [cpu]
  | .broadcast => (List.range count).filter (· ≠ snd.self)

def async (snd : Send) : Bool :=
  match snd.kind with
  | .unicast _ async => async
  | .broadcast => false

end Send

/-- Where a send stands. -/
inductive SendPc where
  /-- about to write `msg.async` -/
  | storeAsync
  /-- about to store `msg.refs` -/
  | storeRefs
  /-- about to run `VERIFY(msg.refs > 0)` of a broadcast -/
  | verifyRefs
  /-- in `smp_enqueue_message` for `target`, about to write `msg_entry.next`;
  `rest` are the processors still to come, `need` whether an IPI is needed -/
  | writeNext (target : Nat) (rest : List Nat) (need : Bool) (next : Option Entry)
  /-- about to run `m_message_queue.compare_exchange_strong(next, &msg_entry)` -/
  | exchange (target : Nat) (rest : List Nat) (need : Bool) (next : Option Entry)
  /-- about to send the inter-processor interrupt, if one is needed -/
  | ipi (need : Bool)
  /-- about to run `VERIFY(!msg.async)` of `smp_broadcast_wait_sync` -/
  | verifySync
  /-- about to load `msg.refs` in the waiting loop -/
  | wait
  /-- about to clean the message up and to return it to the pool -/
  | cleanup
  | done
  deriving DecidableEq, Repr

/-- Where a call of `smp_process_pending_messages` stands. -/
inductive ProcessPc where
  /-- about to run `m_message_queue.exchange(nullptr)` -/
  | exchange
  /-- in `reverse_list` -/
  | reverse (list rev : Option Entry)
  /-- at the head of the loop, about to read `cur_msg->next` -/
  | loop (cur : Option Entry)
  /-- about to handle the message of `cur` -/
  | invoke (cur : Entry) (next : Option Entry)
  /-- about to read `msg->async` -/
  | readAsync (msg : Nat) (next : Option Entry)
  /-- about to run `msg->refs.fetch_sub(1)` -/
  | fetchSub (msg : Nat) (async : Bool) (next : Option Entry)
  /-- about to clean the message up and to return it to the pool -/
  | cleanup (msg : Nat) (next : Option Entry)
  /-- about to load `m_halt_requested` after a message -/
  | checkHalt (next : Option Entry)
  /-- about to load `m_halt_requested` after an empty exchange -/
  | checkHaltEmpty
  | done
  | halted
  /-- `VERIFY(prev_refs != 0)` has failed -/
  | verifyFailed
  deriving DecidableEq, Repr

inductive Activity where
  | none
  | send (snd : Send) (pc : SendPc)
  | process (proc : Nat) (pc : ProcessPc)
  deriving DecidableEq, Repr

/-- What the activities read and write. -/
structure Memory where
  count : Nat
  queue : Nat → Option Entry
  next : Entry → Option Entry
  refs : Nat → Nat
  async : Nat → Bool
  haltRequested : Nat → Bool
  /-- the messages in the pool; the pool itself is `MessagePool` -/
  pooled : Nat → Bool
  acts : Nat → Activity
  /-- the number of activities so far; the next one gets this name -/
  spawned : Nat

/-- How far the entry of a send has come for one of its targets. -/
inductive Phase where
  | todo
  | queued
  /-- on the list that the process activity took from the queue -/
  | taken (by_ : Nat)
  /-- handled by the process activity, which still holds a reference -/
  | invoked (by_ : Nat)
  /-- the process activity gave up the last reference and has to clean up -/
  | last (by_ : Nat)
  | dropped
  deriving DecidableEq, Repr

/-- What happened to the message of send activity `send`. -/
inductive Event where
  /-- put on the queue of processor `proc` -/
  | enqueue (send proc : Nat)
  /-- handled on processor `proc` -/
  | invoke (send proc : Nat)
  /-- the reference of processor `proc` given up -/
  | drop (send proc : Nat)
  /-- cleaned up and returned to the pool by activity `by_` -/
  | retire (send by_ : Nat)
  deriving DecidableEq, Repr

structure History where
  /-- the send activity that a message was last taken from the pool for -/
  sender : Nat → Nat
  phase : Nat → Nat → Phase
  /-- the sends on a processor's queue since its last exchange, in the order in
  which they were enqueued -/
  fresh : Nat → List Nat
  /-- the sends whose entries a process activity's exchange took, in the order in
  which they were enqueued -/
  batch : Nat → List Nat
  /-- the sends it has handled, in the order in which it handled them -/
  handled : Nat → List Nat
  retiredBy : Nat → Option Nat
  log : List Event
  /-- the send activity whose enqueue last made a processor's queue non-empty -/
  opener : Nat → Nat
  /-- whether an IPI to a processor was issued since then -/
  ipiIssued : Nat → Bool

structure State extends Memory, History

/-- After `smp_enable`. -/
def smpEnable (count : Nat) : State where
  count := count
  queue _ := none
  next _ := none
  refs _ := 0
  async _ := false
  haltRequested _ := false
  pooled msg := decide (msg < MessagePool.msgPoolSize count)
  acts _ := .none
  spawned := 0
  sender _ := 0
  phase _ _ := .todo
  fresh _ := []
  batch _ := []
  handled _ := []
  retiredBy _ := none
  log := []
  opener _ := 0
  ipiIssued _ := false

namespace State

def setAct (s : State) (f : Nat) (act : Activity) : State :=
  { s with acts := update s.acts f act }

def setPhase (s : State) (f q : Nat) (phase : Phase) : State :=
  { s with phase := update s.phase f (update (s.phase f) q phase) }

/-- `smp_cleanup_message(msg); smp_return_to_pool(msg)` by activity `by_`. -/
def retire (s : State) (msg by_ : Nat) : State :=
  { s with
    pooled := update s.pooled msg true
    retiredBy := update s.retiredBy (s.sender msg) (some by_)
    log := s.log ++ [Event.retire (s.sender msg) by_] }

end State

/-- The enqueue that comes after one for the processors `rest`, or the IPI. -/
def SendPc.enqueue (need : Bool) : List Nat → SendPc
  | [] => .ipi need
  | target :: rest => .writeNext target rest need none

/-- A successful compare-exchange of `smp_enqueue_message`: the entry becomes the
head of the target's queue, which was `next` before. -/
def enqueued (s : State) (f msg target : Nat) (next : Option Entry) : State :=
  ({ s with
    queue := update s.queue target (some ⟨msg, target⟩)
    fresh := update s.fresh target (s.fresh target ++ [f])
    log := s.log ++ [Event.enqueue f target]
    opener := if next = none then update s.opener target f else s.opener
    ipiIssued :=
      if next = none then update s.ipiIssued target false else s.ipiIssued }
    ).setPhase f target .queued

/-- `APIC::the().send_ipi(cpu)` or `broadcast_ipi()`. -/
def sendIpi (s : State) (snd : Send) : State :=
  { s with ipiIssued := fun q => decide (q ∈ snd.targets s.count) || s.ipiIssued q }

/-- One memory access of a send. -/
def sendStep (s : State) (f : Nat) (snd : Send) : SendPc → Option State
  | .storeAsync =>
    some ({ s with async := update s.async snd.msg snd.async }.setAct f
      (.send snd .storeRefs))
  | .storeRefs =>
    some ({ s with
      refs := update s.refs snd.msg (snd.targets s.count).length }.setAct f
      (.send snd (match snd.kind with
        | .unicast _ _ => .enqueue false (snd.targets s.count)
        | .broadcast => .verifyRefs)))
  | .verifyRefs =>
    if 0 < s.refs snd.msg then
      some (s.setAct f (.send snd (.enqueue false (snd.targets s.count))))
    else none
  | .writeNext target rest need next =>
    some ({ s with next := update s.next ⟨snd.msg, target⟩ next }.setAct f
      (.send snd (.exchange target rest need next)))
  | .exchange target rest need next =>
    if s.queue target = next then
      some ((enqueued s f snd.msg target next).setAct f
        (.send snd (.enqueue (need || next.isNone) rest)))
    -- the failed exchange stores the head it saw in `next`
    else some (s.setAct f (.send snd (.writeNext target rest need (s.queue target))))
  | .ipi need =>
    some ((if need then sendIpi s snd else s).setAct f
      (.send snd (match snd.kind with
        | .unicast _ async => if async then .done else .wait
        | .broadcast => .verifySync)))
  | .verifySync => if s.async snd.msg then none else some (s.setAct f (.send snd .wait))
  | .wait => if s.refs snd.msg = 0 then some (s.setAct f (.send snd .cleanup)) else some s
  | .cleanup => some ((s.retire snd.msg f).setAct f (.send snd .done))
  | .done => none

/-- A non-empty exchange of `smp_process_pending_messages` on processor `proc`. -/
def exchanged (s : State) (g proc : Nat) : State :=
  { s with
    queue := update s.queue proc none
    batch := update s.batch g (s.fresh proc)
    fresh := update s.fresh proc []
    phase := fun f q =>
      if q = proc ∧ s.phase f q = .queued then .taken g else s.phase f q }

/-- The message of `cur` is handled on processor `proc`: its callback is invoked or
the TLB is flushed. -/
def invoked (s : State) (g proc : Nat) (cur : Entry) : State :=
  ({ s with
    handled := update s.handled g (s.handled g ++ [s.sender cur.msg])
    log := s.log ++ [Event.invoke (s.sender cur.msg) proc] }
    ).setPhase (s.sender cur.msg) proc (.invoked g)

/-- One memory access of `smp_process_pending_messages` on processor `proc`. -/
def processStep (s : State) (g proc : Nat) : ProcessPc → Option State
  | .exchange =>
    match s.queue proc with
    | none => some (s.setAct g (.process proc .checkHaltEmpty))
    | some entry =>
      some ((exchanged s g proc).setAct g (.process proc (.reverse (some entry) none)))
  | .reverse none rev => some (s.setAct g (.process proc (.loop rev)))
  | .reverse (some entry) rev =>
    some ({ s with next := update s.next entry rev }.setAct g
      (.process proc (.reverse (s.next entry) (some entry))))
  | .loop none => some (s.setAct g (.process proc .done))
  | .loop (some cur) => some (s.setAct g (.process proc (.invoke cur (s.next cur))))
  | .invoke cur next =>
    some ((invoked s g proc cur).setAct g (.process proc (.readAsync cur.msg next)))
  | .readAsync msg next => some (s.setAct g (.process proc (.fetchSub msg (s.async msg) next)))
  | .fetchSub msg async next =>
    if s.refs msg = 0 then
      some ({ s with refs := update s.refs msg (2 ^ 32 - 1) }.setAct g
        (.process proc .verifyFailed))
    else
      some (({ s with
        refs := update s.refs msg (s.refs msg - 1)
        log := s.log ++ [Event.drop (s.sender msg) proc] }.setPhase
        (s.sender msg) proc (if s.refs msg = 1 ∧ async then .last g else .dropped)).setAct g
        (.process proc (if s.refs msg = 1 ∧ async then .cleanup msg next else .checkHalt next)))
  | .cleanup msg next =>
    some (((s.retire msg g).setPhase (s.sender msg) proc .dropped).setAct g
      (.process proc (.checkHalt next)))
  | .checkHalt next =>
    some (s.setAct g (.process proc (if s.haltRequested proc then .halted else .loop next)))
  | .checkHaltEmpty =>
    some (s.setAct g (.process proc (if s.haltRequested proc then .halted else .done)))
  | .done => none
  | .halted => none
  | .verifyFailed => none

/-- What can happen next: a processor starts to send a message, a processor calls
`smp_process_pending_messages`, a halt is requested of a processor, or an activity
runs its next memory access. -/
inductive Action where
  | send (snd : Send)
  | process (proc : Nat)
  | requestHalt (proc : Nat)
  | step (act : Nat)
  deriving DecidableEq, Repr

/-- `VERIFY(cpu != current_processor.id())`, and the processors exist. -/
def Send.valid (snd : Send) (count : Nat) : Prop :=
  snd.self < count ∧
    match snd.kind with
    | .unicast cpu _ => cpu < count ∧ cpu ≠ snd.self
    | .broadcast => True

instance (snd : Send) (count : Nat) : Decidable (snd.valid count) := by
  unfold Send.valid
  cases snd.kind <;> infer_instance

/-- A new activity. -/
def spawn (s : State) (act : Activity) : State :=
  { s.setAct s.spawned act with spawned := s.spawned + 1 }

def step (s : State) : Action → Option State
  | .send snd =>
    if snd.valid s.count then
      some (spawn { s with
        pooled := update s.pooled snd.msg false
        sender := update s.sender snd.msg s.spawned } (.send snd .storeAsync))
    else none
  | .process proc => if proc < s.count then some (spawn s (.process proc .exchange)) else none
  | .requestHalt proc => some { s with haltRequested := update s.haltRequested proc true }
  | .step f =>
    match s.acts f with
    | .none => none
    | .send snd pc => sendStep s f snd pc
    | .process proc pc => processStep s f proc pc

end Literate.Kernel.Message

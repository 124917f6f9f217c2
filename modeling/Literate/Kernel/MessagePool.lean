import Literate.Foundation.Run
import Literate.Foundation.Linked
import Mathlib.Data.List.Count

/-!
# Kernel: the pool of inter-processor messages

`Kernel/Arch/x86/common/Processor.cpp` keeps the free `ProcessorMessage`s in a
lock-free stack.  `s_message_pool` points to the first free message and
`ProcessorMessage::next` links the rest.  `smp_get_from_pool` loads the head,
reads the `next` of the message it points to and exchanges the one for the other;
`smp_return_to_pool` writes the `next` of its message and exchanges the head for
the message.  Each of those memory accesses is one step here, and the processors'
steps interleave freely.

`owned p` is the list of messages that processor `p` holds: what
`smp_get_from_pool` returned to it and it has not put back or handed on.  A
message is handed on when it is sent asynchronously, since the last processor to
handle it returns it (`smp_process_pending_messages`).
-/

namespace Literate.Kernel.MessagePool

open Foundation Function List Option

/-- Where a processor stands in `smp_get_from_pool` or `smp_return_to_pool`. -/
inductive Pc where
  | idle
  /-- about to load `s_message_pool` -/
  | getLoad
  /-- about to read `msg->next` -/
  | getNext (msg : Nat)
  /-- about to run `s_message_pool.compare_exchange_strong(msg, msg->next)` -/
  | getExchange (msg : Nat) (next : Option Nat)
  /-- about to write `msg.next = next` -/
  | returnWrite (msg : Nat) (next : Option Nat)
  /-- about to run `s_message_pool.compare_exchange_strong(next, &msg)` -/
  | returnExchange (msg : Nat) (next : Option Nat)
  deriving DecidableEq, Repr

/-- The shared memory of the pool and the state of every processor.  A message is
its index in the array `smp_enable` allocates. -/
structure State where
  count : Nat
  head : Option Nat
  next : Nat → Option Nat
  pc : Nat → Pc
  owned : Nat → List Nat

/-- `msg_pool_size` of `smp_enable`. -/
def msgPoolSize (count : Nat) : Nat := count * 100

/-- `Processor::smp_enable`: the messages of the array in order, all of them free. -/
def smpEnable (count : Nat) : State where
  count := count
  head := some 0
  next i := if i < msgPoolSize count - 1 then some (i + 1) else none
  pc _ := .idle
  owned _ := []

/-- What can happen next: a processor calls one of the two functions, runs its
next memory access, or hands a message it owns to another processor. -/
inductive Action where
  | get (p : Nat)
  | giveBack (p msg : Nat)
  | pass (p q msg : Nat)
  | step (p : Nat)
  deriving DecidableEq, Repr

namespace State

def setPc (s : State) (p : Nat) (pc : Pc) : State :=
  { s with pc := Function.update s.pc p pc }

def own (s : State) (p msg : Nat) : State :=
  { s with owned := Function.update s.owned p (msg :: s.owned p) }

def disown (s : State) (p msg : Nat) : State :=
  { s with owned := Function.update s.owned p ((s.owned p).erase msg) }

end State

/-- One memory access of processor `p`. -/
def access (s : State) (p : Nat) : Option State :=
  match s.pc p with
  | .idle => none
  | .getLoad =>
    match s.head with
    -- the pool is empty: process pending messages or pause, then load again
    | none => some s
    | some msg => some (s.setPc p (.getNext msg))
  | .getNext msg => some (s.setPc p (.getExchange msg (s.next msg)))
  | .getExchange msg next =>
    if s.head = some msg then
      some (({ s with head := next }.own p msg).setPc p .idle)
    else some (s.setPc p .getLoad)
  | .returnWrite msg next =>
    some ({ s with next := Function.update s.next msg next }.setPc p
      (.returnExchange msg next))
  | .returnExchange msg next =>
    if s.head = next then
      some (({ s with head := some msg }.disown p msg).setPc p .idle)
    -- the failed exchange stores the head it saw in `next`
    else some (s.setPc p (.returnWrite msg s.head))

/-- The interleaved steps of the processors. -/
def step (s : State) : Action → Option State
  | .get p => if p < s.count ∧ s.pc p = .idle then some (s.setPc p .getLoad) else none
  | .giveBack p msg =>
    if p < s.count ∧ s.pc p = .idle ∧ msg ∈ s.owned p then
      some (s.setPc p (.returnWrite msg none))
    else none
  | .pass p q msg =>
    if p < s.count ∧ q < s.count ∧ s.pc p = .idle ∧ msg ∈ s.owned p then
      some ((s.disown p msg).own q msg)
    else none
  | .step p => if p < s.count then access s p else none

/-! ## Exclusive ownership -/

/-- The message is held once, by processor `p` alone. -/
def OwnedOnlyBy (s : State) (msg p : Nat) : Prop :=
  p < s.count ∧ (s.owned p).count msg = 1 ∧ ∀ q, q ≠ p → msg ∉ s.owned q

/-- Following `next` from the head visits the free messages, each once, and ends;
every message is either one of these and owned by nobody, or owned by exactly one
processor and not in the pool. -/
def Exclusive (s : State) : Prop :=
  ∃ l : List Nat, Linked s.next s.head l ∧ l.Nodup ∧
    (∀ msg ∈ l, msg < msgPoolSize s.count) ∧
    ∀ msg < msgPoolSize s.count,
      (msg ∈ l ∧ ∀ p, msg ∉ s.owned p) ∨ (msg ∉ l ∧ ∃ p, OwnedOnlyBy s msg p)

/-- What the comment in `smp_get_from_pool` takes the compare-exchange to ensure:
when it is about to succeed, the `next` it stores is still the message's link. -/
def FreshNext (s : State) (a : Action) : Prop :=
  ∀ p msg next, a = .step p → p < s.count → s.pc p = .getExchange msg next →
    s.head = some msg → next = s.next msg

/-! ## Counting what a processor holds -/

namespace State

variable (s : State) (p q msg m : Nat) (pc : Pc)

@[simp] theorem setPc_pc_self : (s.setPc p pc).pc p = pc := by simp [setPc]

theorem setPc_pc_of_ne (h : q ≠ p) : (s.setPc p pc).pc q = s.pc q := by
  simp [setPc, update_of_ne h]

@[simp] theorem setPc_owned : (s.setPc p pc).owned = s.owned := rfl
@[simp] theorem setPc_next : (s.setPc p pc).next = s.next := rfl

theorem count_own : ((s.own p msg).owned q).count m =
      (s.owned q).count m + if q = p ∧ m = msg then 1 else 0 := by
  by_cases hq : q = p
  · subst hq
    by_cases hm : m = msg
    · simp [own, hm]
    · simp [own, hm, count_cons_of_ne (Ne.symm hm)]
  · simp [own, hq]

theorem count_disown : ((s.disown p msg).owned q).count m =
      (s.owned q).count m - if q = p ∧ m = msg then 1 else 0 := by
  by_cases hq : q = p
  · subst hq
    by_cases hm : m = msg
    · simp [disown, hm]
    · simp [disown, hm, count_erase_of_ne hm]
  · simp [disown, hq]

end State

theorem ownedOnlyBy_iff {s : State} {msg p : Nat} : OwnedOnlyBy s msg p ↔
      p < s.count ∧ ∀ q, (s.owned q).count msg = if q = p then 1 else 0 := by
  constructor
  · rintro ⟨hp, hone, hother⟩
    refine ⟨hp, fun q => ?_⟩
    by_cases hq : q = p
    · simp [hq, hone]
    · simp [hq, List.count_eq_zero.mpr (hother q hq)]
  · rintro ⟨hp, hcount⟩
    refine ⟨hp, by simpa using hcount p, fun q hq => ?_⟩
    exact List.count_eq_zero.mp (by simpa [hq] using hcount q)

theorem notOwned_iff {s : State} {msg : Nat} :
    (∀ p, msg ∉ s.owned p) ↔ ∀ p, (s.owned p).count msg = 0 :=
  forall_congr' fun _ => List.count_eq_zero.symm

/-! ## The invariant -/

/-- What a processor in the middle of a call relies on.  It owns a message it is
returning, so nobody else writes that message's link. -/
def PcInv (s : State) (p : Nat) : Pc → Prop
  | .returnWrite msg _ => msg ∈ s.owned p
  | .returnExchange msg next => msg ∈ s.owned p ∧ s.next msg = next
  | _ => True

structure Inv (s : State) : Prop where
  exclusive : Exclusive s
  pcs : ∀ p, PcInv s p (s.pc p)
  range : ∀ p, ∀ msg ∈ s.owned p, msg < msgPoolSize s.count

theorem Inv.owner_unique {s : State} (h : Inv s) {p q msg : Nat}
    (hp : msg ∈ s.owned p) (hq : msg ∈ s.owned q) : p = q := by
  obtain ⟨l, -, -, -, hplaced⟩ := h.exclusive
  rcases hplaced msg (h.range p msg hp) with ⟨-, hfree⟩ | ⟨-, r, -, -, hother⟩
  · exact absurd hp (hfree p)
  · by_contra hne
    by_cases hpr : p = r
    · exact hother q (fun hqr => hne (hpr.trans hqr.symm)) hq
    · exact hother p hpr hp

theorem Inv.count_owned {s : State} (h : Inv s) {p msg : Nat} (hp : msg ∈ s.owned p) (q : Nat) :
    (s.owned q).count msg = if q = p then 1 else 0 := by
  obtain ⟨l, -, -, -, hplaced⟩ := h.exclusive
  rcases hplaced msg (h.range p msg hp) with ⟨-, hfree⟩ | ⟨-, r, hr⟩
  · exact absurd hp (hfree p)
  · have hpr : p = r := by
      by_contra hne
      exact hr.2.2 p hne hp
    exact hpr ▸ (ownedOnlyBy_iff.mp hr).2 q

/-- A message that somebody owns is not on the list of the pool. -/
theorem Inv.notMem_of_owned {s : State} (h : Inv s) {p msg : Nat}
    (hp : msg ∈ s.owned p) {l : List Nat} (hl : Linked s.next s.head l) : msg ∉ l := by
  obtain ⟨l', hl', -, -, hplaced⟩ := h.exclusive
  rw [hl.unique hl']
  rcases hplaced msg (h.range p msg hp) with ⟨-, hfree⟩ | ⟨hmem, -⟩
  · exact absurd hp (hfree p)
  · exact hmem

/-- Only the processor's own program counter changed. -/
theorem Inv.setPc {s : State} (h : Inv s) (p : Nat) {pc : Pc} (hpc : PcInv s p pc) :
    Inv (s.setPc p pc) where
  exclusive := h.exclusive
  pcs q := by
    by_cases hq : q = p
    · subst hq
      rw [State.setPc_pc_self]
      cases pc <;> exact hpc
    · rw [State.setPc_pc_of_ne _ _ _ _ hq]
      have := h.pcs q
      cases hpcq : s.pc q <;> rw [hpcq] at this <;> exact this
  range := h.range

theorem linked_range {next : Nat → Option Nat} {n : Nat}
    (hnext : ∀ i, next i = if i < n - 1 then some (i + 1) else none) :
    ∀ k a, a + k = n → 0 < k → Linked next (some a) (List.range' a k)
  | 1, a, hk, _ => by
    refine ⟨rfl, ?_⟩
    rw [hnext, if_neg (by omega)]
    rfl
  | k + 2, a, hk, _ => by
    refine ⟨rfl, ?_⟩
    rw [hnext, if_pos (by omega)]
    exact linked_range hnext (k + 1) (a + 1) (by omega) (by omega)

theorem inv_smpEnable {count : Nat} (hcount : 0 < count) : Inv (smpEnable count) where
  exclusive := by
    have hsize : 0 < msgPoolSize count := by simp only [msgPoolSize]; omega
    have hl : Linked (smpEnable count).next (smpEnable count).head
        (List.range' 0 (msgPoolSize count)) :=
      linked_range (fun _ => rfl) (msgPoolSize count) 0 (by omega) hsize
    refine ⟨_, hl, hl.nodup, ?_, ?_⟩
    · intro msg hmem
      exact (mem_range'_1.mp hmem).2.trans_eq (Nat.zero_add _)
    · intro msg hmsg
      have hmsg' : msg < msgPoolSize count := hmsg
      exact .inl ⟨by simpa using hmsg', by simp [smpEnable]⟩
  pcs _ := trivial
  range p msg hmem := by simp [smpEnable] at hmem

/-! ## What each step preserves -/

/-- The pop of a processor whose `next` is still the message's link takes the
message off the list. -/
theorem Inv.pop {s : State} (h : Inv s) {p msg : Nat} (hp : p < s.count)
    (hhead : s.head = some msg) : Inv (({ s with head := s.next msg } : State).own p msg) := by
  obtain ⟨l, hl, hnodup, hrange, hplaced⟩ := h.exclusive
  rw [hhead] at hl
  obtain ⟨t, rfl, ht⟩ := Linked.some_iff.mp hl
  obtain ⟨hmsg, hnodup'⟩ := nodup_cons.mp hnodup
  have hsize : msg < msgPoolSize s.count := hrange msg mem_cons_self
  have hfree : ∀ q, msg ∉ s.owned q := by
    rcases hplaced msg hsize with ⟨-, hfree⟩ | ⟨hmem, -⟩
    · exact hfree
    · exact absurd mem_cons_self hmem
  refine ⟨⟨t, ht, hnodup', fun m hm => hrange m (mem_cons_of_mem _ hm), ?_⟩, ?_, ?_⟩
  · intro m hm
    by_cases hmm : m = msg
    · subst hmm
      refine .inr ⟨hmsg, p, ownedOnlyBy_iff.mpr ⟨hp, fun q => ?_⟩⟩
      rw [State.count_own, notOwned_iff.mp hfree q]
      simp
    · rcases hplaced m hm with ⟨hmem, hfree'⟩ | ⟨hmem, r, hr⟩
      · refine .inl ⟨(mem_cons.mp hmem).resolve_left hmm, notOwned_iff.mpr fun q => ?_⟩
        rw [State.count_own, notOwned_iff.mp hfree' q]
        simp [hmm]
      · refine .inr ⟨fun hm' => hmem (mem_cons_of_mem _ hm'), r,
          ownedOnlyBy_iff.mpr ⟨hr.1, fun q => ?_⟩⟩
        rw [State.count_own, (ownedOnlyBy_iff.mp hr).2 q]
        simp [hmm]
  · intro q
    have hmono : ∀ m ∈ s.owned q, m ∈ (({ s with head := s.next msg } : State).own p msg).owned q := by
      intro m hm
      by_cases hq : q = p
      · subst hq
        simp [State.own, hm]
      · simpa [State.own, update_of_ne hq] using hm
    have hpcq := h.pcs q
    change PcInv _ q (s.pc q)
    cases hpc : s.pc q with
    | returnWrite m n => exact hmono m (by rw [hpc] at hpcq; exact hpcq)
    | returnExchange m n =>
      rw [hpc] at hpcq
      exact ⟨hmono m hpcq.1, hpcq.2⟩
    | _ => trivial
  · intro q m hm
    by_cases hq : q = p
    · subst hq
      rcases mem_cons.mp (by simpa [State.own] using hm) with rfl | hm
      · exact hsize
      · exact h.range q m hm
    · exact h.range q m (by simpa [State.own, update_of_ne hq] using hm)

/-- The push of a message whose link holds the current head puts it on the list. -/
theorem Inv.push {s : State} (h : Inv s) {p msg : Nat} (hp : msg ∈ s.owned p)
    (hnext : s.next msg = s.head) :
    Inv ((({ s with head := some msg } : State).disown p msg).setPc p .idle) := by
  obtain ⟨l, hl, hnodup, hrange, hplaced⟩ := h.exclusive
  have hmsg : msg ∉ l := h.notMem_of_owned hp hl
  have hmem_of : ∀ q m, m ∈ (({ s with head := some msg } : State).disown p msg).owned q →
      m ∈ s.owned q := by
    intro q m hm
    by_cases hq : q = p
    · subst hq
      exact mem_of_mem_erase (by simpa [State.disown] using hm)
    · simpa [State.disown, update_of_ne hq] using hm
  refine ⟨⟨msg :: l, ⟨rfl, ?_⟩, nodup_cons.mpr ⟨hmsg, hnodup⟩, ?_, ?_⟩, ?_, ?_⟩
  · exact hnext ▸ hl
  · intro m hm
    rcases mem_cons.mp hm with rfl | hm
    · exact h.range p m hp
    · exact hrange m hm
  · intro m hm
    by_cases hmm : m = msg
    · subst hmm
      refine .inl ⟨mem_cons_self, notOwned_iff.mpr fun q => ?_⟩
      rw [State.setPc_owned, State.count_disown]
      rw [h.count_owned hp q]
      by_cases hq : q = p <;> simp [hq]
    · rcases hplaced m hm with ⟨hmem, hfree⟩ | ⟨hmem, r, hr⟩
      · exact .inl ⟨mem_cons_of_mem _ hmem,
          fun q hq => hfree q (hmem_of q m hq)⟩
      · refine .inr ⟨by simp [hmm, hmem], r, ownedOnlyBy_iff.mpr ⟨hr.1, fun q => ?_⟩⟩
        rw [State.setPc_owned, State.count_disown]
        rw [(ownedOnlyBy_iff.mp hr).2 q]
        simp [hmm]
  · intro q
    by_cases hq : q = p
    · subst hq
      rw [State.setPc_pc_self]
      trivial
    · rw [State.setPc_pc_of_ne _ _ _ _ hq]
      have hkeep : ∀ m ∈ s.owned q,
          m ∈ ((({ s with head := some msg } : State).disown p msg).setPc p .idle).owned q := by
        intro m hm
        simpa [State.disown, update_of_ne hq] using hm
      have hpcq := h.pcs q
      change PcInv _ q (s.pc q)
      cases hpc : s.pc q with
      | returnWrite m n => exact hkeep m (by rw [hpc] at hpcq; exact hpcq)
      | returnExchange m n =>
        rw [hpc] at hpcq
        exact ⟨hkeep m hpcq.1, hpcq.2⟩
      | _ => trivial
  · intro q m hm
    exact h.range q m (hmem_of q m hm)

/-- Writing the link of an owned message changes no list and no other
processor's pending exchange. -/
theorem Inv.writeNext {s : State} (h : Inv s) {p msg : Nat} (hp : msg ∈ s.owned p)
    (next : Option Nat) : Inv (({ s with next := Function.update s.next msg next } : State).setPc p
      (.returnExchange msg next)) := by
  obtain ⟨l, hl, hnodup, hrange, hplaced⟩ := h.exclusive
  have hmsg : msg ∉ l := h.notMem_of_owned hp hl
  refine ⟨⟨l, hl.update_of_notMem hmsg next, hnodup, hrange, hplaced⟩, fun q => ?_, h.range⟩
  by_cases hq : q = p
  · subst hq
    rw [State.setPc_pc_self]
    refine ⟨hp, ?_⟩
    simp
  · rw [State.setPc_pc_of_ne _ _ _ _ hq]
    have hpcq := h.pcs q
    cases hpc : s.pc q with
    | returnWrite m n => exact (hpc ▸ hpcq : PcInv s q (.returnWrite m n))
    | returnExchange m n =>
      rw [hpc] at hpcq
      have hne : m ≠ msg := fun hm => hq (h.owner_unique hpcq.1 (hm ▸ hp))
      refine ⟨hpcq.1, ?_⟩
      simpa [update_of_ne hne] using hpcq.2
    | _ => trivial

/-- Handing an owned message to another processor keeps it owned once. -/
theorem Inv.pass {s : State} (h : Inv s) {p q msg : Nat} (hq : q < s.count)
    (hpc : s.pc p = .idle) (hp : msg ∈ s.owned p) : Inv ((s.disown p msg).own q msg) := by
  obtain ⟨l, hl, hnodup, hrange, hplaced⟩ := h.exclusive
  have hmsg : msg ∉ l := h.notMem_of_owned hp hl
  have hcount : ∀ r m, m ≠ msg →
      (((s.disown p msg).own q msg).owned r).count m = (s.owned r).count m := by
    intro r m hm
    simp [State.count_own, State.count_disown, hm]
  have hmem : ∀ r m, m ≠ msg →
      (m ∈ ((s.disown p msg).own q msg).owned r ↔ m ∈ s.owned r) := by
    intro r m hm
    simp only [← count_pos_iff, hcount r m hm]
  refine ⟨⟨l, hl, hnodup, hrange, fun m hm => ?_⟩, fun r => ?_, fun r m hm => ?_⟩
  · by_cases hmm : m = msg
    · subst hmm
      refine .inr ⟨hmsg, q, ownedOnlyBy_iff.mpr ⟨hq, fun r => ?_⟩⟩
      rw [State.count_own, State.count_disown, h.count_owned hp r]
      by_cases hrp : r = p <;> by_cases hrq : r = q <;> simp [hrp, hrq]
    · rcases hplaced m hm with ⟨hml, hfree⟩ | ⟨hml, r, hr⟩
      · exact .inl ⟨hml, fun r hr => hfree r ((hmem r m hmm).mp hr)⟩
      · refine .inr ⟨hml, r, ownedOnlyBy_iff.mpr ⟨hr.1, fun t => ?_⟩⟩
        rw [hcount t m hmm]
        exact (ownedOnlyBy_iff.mp hr).2 t
  · have hpcr := h.pcs r
    -- a processor that is returning `msg` would be `p`, which is idle
    have hne : ∀ m, m ∈ s.owned r → s.pc r ≠ .idle → m ≠ msg := by
      rintro m hm hidle rfl
      exact hidle (h.owner_unique hm hp ▸ hpc)
    change PcInv _ r (s.pc r)
    cases hpcr' : s.pc r with
    | returnWrite m n =>
      rw [hpcr'] at hpcr
      exact (hmem r m (hne m hpcr (by simp [hpcr']))).mpr hpcr
    | returnExchange m n =>
      rw [hpcr'] at hpcr
      exact ⟨(hmem r m (hne m hpcr.1 (by simp [hpcr']))).mpr hpcr.1, hpcr.2⟩
    | _ => trivial
  · by_cases hmm : m = msg
    · exact hmm ▸ h.range p msg hp
    · exact h.range r m ((hmem r m hmm).mp hm)

/-- One step that stores no stale link keeps the invariant. -/
theorem inv_step {s s' : State} {a : Action} (h : Inv s) (hfresh : FreshNext s a)
    (hstep : step s a = some s') : Inv s' := by
  cases a with
  | get p =>
    obtain ⟨-, heq⟩ := ite_none_right_eq_some.mp hstep
    cases heq
    exact h.setPc p trivial
  | giveBack p msg =>
    obtain ⟨⟨-, -, hmem⟩, heq⟩ := ite_none_right_eq_some.mp hstep
    cases heq
    exact h.setPc p hmem
  | pass p q msg =>
    obtain ⟨⟨-, hq, hpc, hmem⟩, heq⟩ := ite_none_right_eq_some.mp hstep
    cases heq
    exact h.pass hq hpc hmem
  | step p =>
    obtain ⟨hp, haccess⟩ := ite_none_right_eq_some.mp hstep
    have hpc := h.pcs p
    unfold access at haccess
    split at haccess
    · cases haccess
    · split at haccess <;> cases haccess
      · exact h
      · exact h.setPc p trivial
    · cases haccess
      exact h.setPc p trivial
    · rename_i msg next heq
      split at haccess <;> cases haccess
      · rename_i hhead
        rw [hfresh p msg next rfl hp heq hhead]
        exact (h.pop hp hhead).setPc p trivial
      · exact h.setPc p trivial
    · rename_i msg next heq
      cases haccess
      rw [heq] at hpc
      exact h.writeNext hpc next
    · rename_i msg next heq
      rw [heq] at hpc
      split at haccess <;> cases haccess
      · rename_i hhead
        exact h.push hpc.1 (hpc.2.trans hhead.symm)
      · exact h.setPc p hpc.1

/-- A pop that stores a stale link leaves a pool that is not the old one without
the message: a message is lost from it or a message of somebody else is put in. -/
theorem not_exclusive_of_stale {s : State} (h : Inv s) {p msg : Nat} {next : Option Nat}
    (hhead : s.head = some msg) (hstale : next ≠ s.next msg) :
    ¬ Exclusive ((({ s with head := next } : State).own p msg).setPc p .idle) := by
  rintro ⟨l', hl', hnodup', hrange', hplaced'⟩
  obtain ⟨l, hl, hnodup, hrange, hplaced⟩ := h.exclusive
  rw [hhead] at hl
  obtain ⟨t, rfl, ht⟩ := Linked.some_iff.mp hl
  obtain ⟨hmsg, -⟩ := nodup_cons.mp hnodup
  have hfree : ∀ m ∈ msg :: t, ∀ q, m ∉ s.owned q := by
    intro m hm
    rcases hplaced m (hrange m hm) with ⟨-, hfree⟩ | ⟨hmem, -⟩
    · exact hfree
    · exact absurd hm hmem
  -- the new list must be made of the messages of `t`
  have hsub : ∀ m ∈ t, m ∈ l' := by
    intro m hm
    have hmm : m ≠ msg := fun heq => hmsg (heq ▸ hm)
    rcases hplaced' m (hrange m (mem_cons_of_mem _ hm)) with ⟨hmem, -⟩ | ⟨-, q, -, hq, -⟩
    · exact hmem
    · rw [State.setPc_owned, State.count_own] at hq
      have hzero : (s.owned q).count m = 0 :=
        List.count_eq_zero.mpr (hfree m (mem_cons_of_mem _ hm) q)
      simp [hmm] at hq
      omega
  have hsup : ∀ m ∈ l', m ∈ t := by
    intro m hm
    rcases hplaced' m (hrange' m hm) with ⟨-, hfree'⟩ | ⟨hmem, -⟩
    · have hmm : m ≠ msg := by
        rintro rfl
        have := hfree' p
        simp [State.own] at this
      rcases hplaced m (hrange' m hm) with ⟨hmem, -⟩ | ⟨-, q, -, hq, -⟩
      · exact (mem_cons.mp hmem).resolve_left hmm
      · have hzero : (((({ s with head := next } : State).own p msg).setPc p .idle).owned
            q).count m = 0 := List.count_eq_zero.mpr (hfree' q)
        rw [State.setPc_owned, State.count_own] at hzero
        have hone : (s.owned q).count m = 0 := by
          have : (({ s with head := next } : State).owned q).count m = 0 := by omega
          exact this
        omega
    · exact absurd hm hmem
  -- both chains follow the same links, so the shorter is a tail of the other
  cases t with
  | nil =>
    have hnil : l' = [] := eq_nil_iff_forall_not_mem.mpr fun m hm => by
      simpa using hsup m hm
    rw [hnil] at hl'
    exact hstale (hl'.trans ht.symm)
  | cons b t =>
    cases l' with
    | nil => simpa using hsub b mem_cons_self
    | cons c l' =>
      obtain ⟨hc, hl''⟩ := Linked.cons_iff.mp hl'
      obtain ⟨hb, ht'⟩ := Linked.cons_iff.mp ht
      have hbc : c ≠ b := fun hbc => hstale (hc.trans (hbc ▸ hb.symm))
      have hcmem : c ∈ t := (mem_cons.mp (hsup c mem_cons_self)).resolve_left hbc
      obtain ⟨t₁, t₂, rfl⟩ := append_of_mem hcmem
      have htail : Linked s.next (some c) (c :: t₂) := ht'.suffix
      have heq : l' = t₂ := hl''.unique htail.2
      have hbmem : b ∈ c :: t₂ := heq ▸ hsub b mem_cons_self
      have hbt := (nodup_cons.mp ht.nodup).1
      rcases mem_cons.mp hbmem with hbeq | hbeq
      · exact hbc hbeq.symm
      · exact hbt (by simp [hbeq])

/-- A stale pop is enabled and breaks exclusivity. -/
theorem exists_step_of_not_fresh {s : State} {a : Action} (h : Inv s) (hstale : ¬ FreshNext s a) :
    ∃ s', step s a = some s' ∧ ¬ Exclusive s' := by
  simp only [FreshNext, not_forall] at hstale
  obtain ⟨p, msg, next, rfl, hp, hpc, hhead, hne⟩ := hstale
  refine ⟨_, ?_, not_exclusive_of_stale (p := p) h hhead hne⟩
  simp [step, access, hp, hpc, hhead]

/-- From the list `smp_enable` builds, the messages stay exclusively owned along a
run exactly when no compare-exchange of `smp_get_from_pool` that succeeds stores a
link that is not the message's link any more. -/
theorem exclusive_iff_freshNext {count : Nat} (hcount : 0 < count) (actions : List Action) :
    Always step Exclusive (smpEnable count) actions ↔
      Each step FreshNext (smpEnable count) actions :=
  always_iff_each (fun _ h => h.exclusive) (fun _ _ _ => inv_step)
    (fun _ _ => exists_step_of_not_fresh) (inv_smpEnable hcount) actions

/-- With two processors, on the run in which processor 0 pops one message. -/
theorem exclusive_iff_freshNext_two :
    0 < 2 ∧ (Always step Exclusive (smpEnable 2) [.get 0, .step 0, .step 0, .step 0] ↔
      Each step FreshNext (smpEnable 2) [.get 0, .step 0, .step 0, .step 0]) :=
  ⟨by decide, exclusive_iff_freshNext (by decide) _⟩

/-- Processor 0 reads message 0 and its link, message 1; then processor 1 takes
both and puts message 0 back; then processor 0's exchange succeeds. -/
def poolReuse : List Action :=
  [.get 0, .step 0, .step 0,
   .get 1, .step 1, .step 1, .step 1,
   .get 1, .step 1, .step 1, .step 1,
   .giveBack 1 0, .step 1, .step 1, .step 1, .step 1,
   .step 0]

/-- The exchange cannot tell that message 0 was taken and put back meanwhile: the
pool's head becomes message 1, which processor 1 still owns. -/
theorem not_exclusive_poolReuse :
    ¬ ∀ count, 0 < count → ∀ actions, Always step Exclusive (smpEnable count) actions := by
  intro hall
  have hrun : (run step (smpEnable 2) poolReuse).map (fun s => (s.head, s.owned 1)) =
      some (some 1, [1]) := by decide
  obtain ⟨t, ht, hobs⟩ := map_eq_some_iff.mp hrun
  obtain ⟨l, hl, -, hrange, hplaced⟩ :=
    always_iff.mp (hall 2 (by decide) poolReuse) poolReuse t (prefix_refl _) ht
  rw [Prod.mk.injEq] at hobs
  rw [hobs.1] at hl
  obtain ⟨t', rfl, -⟩ := Linked.some_iff.mp hl
  rcases hplaced 1 (hrange 1 mem_cons_self) with ⟨-, hfree⟩ | ⟨hmem, -⟩
  · exact hfree 1 (by simp [hobs.2])
  · exact hmem mem_cons_self

end Literate.Kernel.MessagePool

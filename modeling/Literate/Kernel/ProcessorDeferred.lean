import Literate.Kernel.ProcessorSteps

/-!
# Kernel: queueing and draining deferred calls

The accounts of entries and callbacks under one write, and from them the lemmas for
`deferred_call_queue` and for the parts of `deferred_call_execute_pending`.
-/

namespace Literate.Kernel.Processor

open Foundation Function List Option
open Function (update)

variable {s : State} {lists : Lists}

/-! ## Writing an entry -/

variable {p freeHead : Option Nat} {l heap : List Nat} {log : List Event} {event : Event}
  {slot : Slot}

variable {entries : Nat → DeferredCallEntry} {entry : Nat} {value : DeferredCallEntry}

theorem linked_update (h : Linked (fun e => (entries e).next) p l) (hmem : entry ∉ l) :
    Linked (fun e => (update entries entry value e).next) p l := by
  refine h.congr fun b hb => ?_
  have hne : b ≠ entry := fun heq => hmem (heq ▸ hb)
  simp only [update_of_ne hne]

theorem linked_push (h : Linked (fun e => (entries e).next) value.next l) (hmem : entry ∉ l) :
    Linked (fun e => (update entries entry value e).next) (some entry) (entry :: l) := by
  refine ⟨rfl, ?_⟩
  simp only [update_self]
  exact linked_update h hmem

theorem chain_update {slots : List Slot} (h : Chain entries p slots)
    (hmem : entry ∉ slots.map Slot.entry) : Chain (update entries entry value) p slots :=
  linked_update h hmem

theorem held_update {control : List Frame} {held : List Slot} (h : Held entries control held)
    (hmem : entry ∉ held.map Slot.entry) : Held (update entries entry value) control held := by
  induction control generalizing held with
  | nil => exact h
  | cons frame control ih =>
    cases frame with
    | reverse list rev =>
      obtain ⟨left, done, below, rfl, hleft, hdone, hne, hwait, horder, hbelow⟩ := h
      simp only [map_append, mem_append, not_or] at hmem
      exact ⟨left, done, below, rfl, chain_update hleft hmem.1.1, chain_update hdone hmem.1.2,
        hne, hwait, horder, ih hbelow hmem.2⟩
    | drain current interrupts ran =>
      obtain ⟨call, waiting, below, rfl, hchain, hwait, horder, hbelow⟩ := h
      simp only [map_cons, map_append, mem_cons, mem_append, not_or] at hmem
      refine ⟨call, waiting, below, rfl, chain_update hchain ?_, hwait, horder,
        ih hbelow hmem.2.2⟩
      simp only [map_cons, mem_cons, not_or]
      exact ⟨hmem.1, hmem.2.1⟩
    | _ => exact ih h hmem

/-! ## The log -/

theorem trace_append (log : List Event) (event : Event) (call : Nat) : trace (log ++ [event]) call =
      trace log call ++ if event.call = call then [event] else [] := by
  simp only [trace, filter_append, filter_cons, filter_nil, decide_eq_true_eq]

theorem trace_append_of_ne {call : Nat} (h : event.call ≠ call) :
    trace (log ++ [event]) call = trace log call := by
  rw [trace_append, if_neg h, append_nil]

theorem Executed.append {call : Nat} (h : Executed log call) (event : Event) :
    Executed (log ++ [event]) call := by
  obtain ⟨entry, hmem⟩ := h
  exact ⟨entry, mem_append_left _ hmem⟩

theorem Drained.append {s' : State} {lists' : Lists} (h : Drained s lists)
    (hlog : s'.log = s.log ++ [event]) (hcalls : s'.calls = s.calls)
    (houtside : s'.outside = s.outside) (hlefts : s'.lefts = s.lefts)
    (hreturned : s'.returned = s.returned) (hpending : lists'.pending = lists.pending)
    (hcontrol : ∀ frame ∈ s'.control, frame.awaits → frame ∈ s.control) : Drained s' lists' := by
  constructor
  · intro i b c hmem
    rw [hcalls, hpending]
    exact h.leave i b c (hcontrol _ hmem rfl)
  · intro i c hmem
    obtain ⟨hlt, hexecuted⟩ := h.invokeAsync i c (hcontrol _ hmem rfl)
    rw [hcalls, houtside, hlog]
    exact ⟨hlt, fun hout => (hexecuted hout).append event⟩
  · intro left hleft
    rw [hlefts] at hleft
    obtain ⟨hexecuted, hnone⟩ := h.lefts left hleft
    refine ⟨fun call hcall => ?_, hnone⟩
    rw [hlog]
    exact (hexecuted call hcall).append event
  · intro call hmem
    rw [hreturned] at hmem
    obtain ⟨hlt, hexecuted⟩ := h.returned call hmem
    rw [hcalls, houtside, hlog]
    exact ⟨hlt, fun hout => (hexecuted hout).append event⟩
  · intro call hout
    rw [houtside] at hout
    rw [hcalls]
    exact h.outside call hout

/-! ## Accounts -/

namespace Accounted

variable {free : List Nat} {slots slots' : List Slot}

theorem nodup (h : Accounted s free slots) : (free ++ slots.map Slot.entry).Nodup := by
  refine h.partition.nodup_iff.mpr (nodup_append.mpr ⟨nodup_range, h.heap_nodup, ?_⟩)
  intro a ha b hb hab
  have hlt := mem_range.mp ha
  have hge := h.heap_above b hb
  omega

theorem perm (h : Accounted s free slots) (hperm : slots.Perm slots') :
    Accounted s free slots' := by
  have hentries := hperm.map Slot.entry
  have hcalls := hperm.map Slot.call
  refine ⟨(hentries.symm.append_left free).trans h.partition, h.heap_nodup, h.heap_above,
    h.free_pool, fun entry hentry => h.allocated entry ?_, fun slot hslot => ?_,
    hcalls.nodup_iff.mp h.calls_nodup, fun slot hslot => ?_, fun call hcall hnot => ?_,
    h.trace_fresh⟩
  · exact (hentries.append_left free).mem_iff.mpr hentry
  · exact h.handler slot (hperm.mem_iff.mpr hslot)
  · exact h.trace_slot slot (hperm.mem_iff.mpr hslot)
  · exact h.trace_closed call hcall fun hmem => hnot (hcalls.mem_iff.mp hmem)

section

variable (h : Accounted s free (slot :: slots))

include h

theorem head_notMem : slot.entry ∉ free ∧ slot.entry ∉ slots.map Slot.entry := by
  have hnodup := h.nodup
  rw [map_cons, nodup_append] at hnodup
  obtain ⟨-, hcons, hdisjoint⟩ := hnodup
  exact ⟨fun hmem => hdisjoint _ hmem _ mem_cons_self rfl, (nodup_cons.mp hcons).1⟩

theorem call_notMem : slot.call ∉ slots.map Slot.call :=
  (nodup_cons.mp h.calls_nodup).1

/-- Calls of the slots and calls that were made are not those of the other slots. -/
theorem call_ne {other : Slot} (hmem : other ∈ slots) : slot.call ≠ other.call := by
  intro heq
  apply h.call_notMem
  rw [heq]
  exact List.mem_map_of_mem hmem

end

theorem invoke {call : Nat} (h : Accounted s free (⟨entry, call, false⟩ :: slots))
    (control : List Frame) :
    Accounted { s with log := s.log ++ [Event.invoke call entry], control } free
      (⟨entry, call, true⟩ :: slots) := by
  obtain ⟨hlt, htrace⟩ := h.trace_slot _ mem_cons_self
  have hother : ∀ c, call ≠ c → trace (s.log ++ [Event.invoke call entry]) c = trace s.log c :=
    fun c hne => trace_append_of_ne hne
  refine ⟨h.partition, h.heap_nodup, h.heap_above, h.free_pool, h.allocated, fun slot hslot => ?_,
    h.calls_nodup, fun slot hslot => ?_, fun c hc hnot => ?_, fun c hc => ?_⟩
  · rcases mem_cons.mp hslot with rfl | hslot
    · exact h.handler ⟨entry, call, false⟩ mem_cons_self
    · exact h.handler slot (mem_cons_of_mem _ hslot)
  · rcases mem_cons.mp hslot with rfl | hslot
    · refine ⟨hlt, ?_⟩
      rw [trace_append, htrace]
      simp [Slot.trace, Event.call]
    · obtain ⟨hlt', htrace'⟩ := h.trace_slot slot (mem_cons_of_mem _ hslot)
      exact ⟨hlt', (hother slot.call (h.call_ne hslot)).trans htrace'⟩
  · obtain ⟨e, he⟩ := h.trace_closed c hc hnot
    exact ⟨e, (hother c fun heq => hnot (heq ▸ mem_cons_self)).trans he⟩
  · refine (hother c fun heq => ?_).trans (h.trace_fresh c hc)
    have hle : s.calls ≤ c := hc
    have hlt' : call < s.calls := hlt
    omega

/-- What the log says when the entry of a slot is given back. -/
theorem trace_release {entry call : Nat} (h : Accounted s free (⟨entry, call, true⟩ :: slots))
    {event : Event}
    (hevent : event = if entry < s.poolCount then .toPool call entry else .delete call entry) :
    (∀ slot ∈ slots, slot.call < s.calls ∧
        trace (s.log ++ [event]) slot.call = slot.trace) ∧
      (∀ c < s.calls, c ∉ slots.map Slot.call →
        ∃ e, trace (s.log ++ [event]) c = closedTrace s.poolCount c e) ∧
      ∀ c, s.calls ≤ c → trace (s.log ++ [event]) c = [] := by
  obtain ⟨hlt, htrace⟩ := h.trace_slot _ mem_cons_self
  have hcall : event.call = call := by
    rw [hevent]
    split <;> rfl
  have hother : ∀ c, call ≠ c → trace (s.log ++ [event]) c = trace s.log c :=
    fun c hne => trace_append_of_ne (hcall.symm ▸ hne)
  refine ⟨fun slot hslot => ?_, fun c hc hnot => ?_, fun c hc => ?_⟩
  · obtain ⟨hlt', htrace'⟩ := h.trace_slot slot (mem_cons_of_mem _ hslot)
    exact ⟨hlt', (hother slot.call (h.call_ne hslot)).trans htrace'⟩
  · by_cases heq : call = c
    · subst heq
      refine ⟨entry, ?_⟩
      rw [trace_append, if_pos hcall, htrace, closedTrace, ← hevent]
      rfl
    · obtain ⟨e, he⟩ := h.trace_closed c hc fun hmem => by
        rcases mem_cons.mp hmem with hmem | hmem
        · exact heq hmem.symm
        · exact hnot hmem
      exact ⟨e, (hother c heq).trans he⟩
  · refine (hother c fun heq => ?_).trans (h.trace_fresh c hc)
    have hlt' : call < s.calls := hlt
    omega

theorem delete {call : Nat} (h : Accounted s free (⟨entry, call, true⟩ :: slots))
    (hallocated : (s.entries entry).wasAllocated = true) :
    Accounted { s with heap := s.heap.erase entry, log := s.log ++ [Event.delete call entry] }
      free slots := by
  have hge : s.poolCount ≤ entry := by
    have hdecide := h.allocated entry (mem_append_right free mem_cons_self)
    rw [hallocated] at hdecide
    exact of_decide_eq_true hdecide.symm
  have hheap : entry ∈ s.heap := by
    have hmem := h.partition.mem_iff.mp (mem_append_right free mem_cons_self)
    rcases mem_append.mp hmem with hmem | hmem
    · have hlt := mem_range.mp hmem
      have hlt' : entry < s.poolCount := hlt
      omega
    · exact hmem
  obtain ⟨htrace, hclosed, hfresh⟩ := @trace_release _ _ _ _ _ h (.delete call entry)
    (if_neg (by omega)).symm
  refine ⟨?_, h.heap_nodup.erase entry, fun e he => h.heap_above e (mem_of_mem_erase he),
    h.free_pool, fun e he => h.allocated e ?_,
    fun slot hslot => h.handler slot (mem_cons_of_mem _ hslot),
    (nodup_cons.mp h.calls_nodup).2, htrace, hclosed, hfresh⟩
  · have hleft : (free ++ entry :: slots.map Slot.entry).Perm
        (entry :: (free ++ slots.map Slot.entry)) := perm_middle
    have hright : (List.range s.poolCount ++ s.heap).Perm
        (entry :: (List.range s.poolCount ++ s.heap.erase entry)) :=
      ((perm_cons_erase hheap).append_left _).trans perm_middle
    exact ((hleft.symm.trans h.partition).trans hright).cons_inv
  · rcases mem_append.mp he with he | he
    · exact mem_append_left _ he
    · exact mem_append_right _ (mem_cons_of_mem _ he)

theorem toPool {call : Nat} (h : Accounted s free (⟨entry, call, true⟩ :: slots))
    (hallocated : (s.entries entry).wasAllocated = false) (next freeHead : Option Nat) : Accounted
      { s with
        entries := update s.entries entry
          { s.entries entry with handler := none, next }
        freeDeferredCallPoolEntry := freeHead
        log := s.log ++ [Event.toPool call entry] }
      (entry :: free) slots := by
  have hslots : entry ∉ slots.map Slot.entry := h.head_notMem.2
  have hlt : entry < s.poolCount := by
    have hdecide := h.allocated entry (mem_append_right free mem_cons_self)
    rw [hallocated] at hdecide
    exact Nat.not_le.mp (of_decide_eq_false hdecide.symm)
  obtain ⟨htrace, hclosed, hfresh⟩ := @trace_release _ _ _ _ _ h (.toPool call entry)
    (if_pos hlt).symm
  have hpartition : (entry :: free ++ slots.map Slot.entry).Perm
      (free ++ entry :: slots.map Slot.entry) := perm_middle.symm
  refine ⟨hpartition.trans h.partition, h.heap_nodup, h.heap_above, fun e he => ?_,
    fun e he => ?_, fun slot hslot => ?_, (nodup_cons.mp h.calls_nodup).2, htrace, hclosed,
    hfresh⟩
  · rcases mem_cons.mp he with rfl | he
    · exact hlt
    · exact h.free_pool e he
  · have hmem := h.allocated e (hpartition.mem_iff.mp he)
    by_cases heq : e = entry
    · subst heq
      simpa using hmem
    · simpa [update_of_ne heq] using hmem
  · have hne : slot.entry ≠ entry := by
      intro heq
      rw [← heq] at hslots
      exact hslots (List.mem_map_of_mem hslot)
    have hhandler := h.handler slot (mem_cons_of_mem _ hslot)
    simpa [update_of_ne hne] using hhandler

theorem setNext (h : Accounted s free slots) (entry : Nat) (next : Option Nat)
    (control : List Frame) : Accounted
      { s with
        entries := update s.entries entry { s.entries entry with next }
        control }
      free slots := by
  refine ⟨h.partition, h.heap_nodup, h.heap_above, h.free_pool, fun e he => ?_,
    fun slot hslot => ?_, h.calls_nodup, h.trace_slot, h.trace_closed, h.trace_fresh⟩
  · have hallocated := h.allocated e he
    by_cases heq : e = entry
    · subst heq
      simpa using hallocated
    · simpa [update_of_ne heq] using hallocated
  · have hhandler := h.handler slot hslot
    by_cases heq : slot.entry = entry
    · subst heq
      simpa using hhandler
    · simpa [update_of_ne heq] using hhandler

end Accounted

/-! ## Draining -/

theorem Counted.pop {extra : Nat} (h : Counted extra s) {frame : Frame} {control : List Frame}
    (hcontrol : s.control = frame :: control) (hirqs : frame.irqs = 0) :
    Counted (extra + frame.criticals) { s with control } := by
  have hnested := h.nested
  rw [hcontrol] at hnested
  refine ⟨?_, ?_, hnested.2, h.thread, h.exits, h.invocations⟩
  · rw [h.inCritical, hcontrol, criticals_cons, Nat.add_assoc, Nat.add_comm frame.criticals]
  · rw [h.inIrq, hcontrol, irqs_cons, hirqs, Nat.add_zero]

theorem Drained.pop (h : Drained s lists) {frame : Frame} {control : List Frame}
    (hcontrol : s.control = frame :: control) : Drained { s with control } lists :=
  ⟨fun i b c hmem => h.leave i b c (hcontrol ▸ mem_cons_of_mem _ hmem),
    fun i c hmem => h.invokeAsync i c (hcontrol ▸ mem_cons_of_mem _ hmem),
    h.lefts, h.returned, h.outside⟩

/-- A drain between two handlers: the entries from `next` on wait, `control` waits for
the drain. -/
structure Between (s : State) (control : List Frame) (next : Option Nat) (ran : List Nat)
    (lists : Lists) (waiting : List Slot) : Prop where
  counted : Counted 0 { s with control }
  awaits : awaitsDrain control
  interrupts : s.interrupts = false
  free : Linked (fun entry => (s.entries entry).next) s.freeDeferredCallPoolEntry lists.free
  pending : Chain s.entries s.pendingDeferredCalls lists.pending
  pending_waits : ∀ slot ∈ lists.pending, slot.started = false
  pending_order : (lists.pending.map Slot.call).Pairwise (· > ·)
  below : Held s.entries control lists.held
  chain : Chain s.entries next waiting
  waits : ∀ slot ∈ waiting, slot.started = false
  order : (ran ++ waiting.map Slot.call).Pairwise (· < ·)
  accounted : Accounted s lists.free (lists.pending ++ (waiting ++ lists.held))
  drained : Drained { s with control } lists

namespace Between

variable {control : List Frame} {ran : List Nat} {waiting : List Slot}

theorem invokeHandler_spec (h : Between s control (some entry) ran lists waiting) :
    ∃ s', invokeHandler entry ran control s = some s' ∧ Inv s' := by
  cases waiting with
  | nil => cases h.chain
  | cons slot waiting =>
    obtain ⟨current, call, started⟩ := slot
    obtain rfl : current = entry := (some.inj h.chain.1).symm
    obtain rfl : started = false := h.waits _ mem_cons_self
    have hhandler : (s.entries current).handler = some call :=
      h.accounted.handler ⟨current, call, false⟩ (by simp)
    have hmiddle : (lists.pending ++ (⟨current, call, false⟩ :: waiting ++ lists.held)).Perm
        (⟨current, call, false⟩ :: (lists.pending ++ (waiting ++ lists.held))) :=
      perm_middle
    have hinvoked := (h.accounted.perm hmiddle).invoke
      (.drain current s.interrupts ran :: control)
    rw [invokeHandler, hhandler]
    refine ⟨_, rfl, ⟨h.counted.inCritical, h.counted.inIrq,
      ⟨⟨h.interrupts, h.awaits⟩, h.counted.nested⟩, h.counted.thread, h.counted.exits,
      h.counted.invocations⟩,
      ⟨⟨lists.free, lists.pending, ⟨current, call, true⟩ :: (waiting ++ lists.held)⟩,
        ⟨h.free, h.pending, h.pending_waits, h.pending_order, ?_, ?_⟩, ?_⟩, .inl rfl⟩
    · exact ⟨call, waiting, lists.held, rfl, h.chain,
        fun slot hslot => h.waits slot (mem_cons_of_mem _ hslot), h.order, h.below⟩
    · exact hinvoked.perm perm_middle.symm
    · refine h.drained.append rfl rfl rfl rfl rfl rfl fun frame hmem hawaits => ?_
      rcases mem_cons.mp hmem with rfl | hmem
      · cases hawaits
      · exact hmem

/-- The drain is done, and what waits for it goes on. -/
theorem executePendingReturn_spec (h : Between s control none ran lists waiting) :
    ∃ s', executePendingReturn control s = some s' ∧ Inv s' := by
  obtain rfl : waiting = [] := map_eq_nil_iff.mp (Linked.none_iff.mp h.chain)
  have hcounted := h.counted
  have hnested := hcounted.nested
  have hinCritical := hcounted.inCritical
  have hinIrq := hcounted.inIrq
  match control, h.awaits with
  | .leave interrupts before caller :: rest, _ =>
    obtain ⟨⟨hzero, hrunning, hcaller⟩, hrest⟩ := hnested
    obtain ⟨hle, hpending, hqueue⟩ := h.drained.leave interrupts before caller
      mem_cons_self
    have hcounted' : Counted 1 { s with control := rest } :=
      ⟨hinCritical, hinIrq, hrest, hcounted.thread, hcounted.exits, hcounted.invocations⟩
    have hc : Conserved { s with control := rest } lists := by
      obtain ⟨h₁, h₂, h₃, h₄, h₅, h₆, h₇, h₈, h₉, h₁₀⟩ := h.accounted
      exact ⟨h.free, h.pending, h.pending_waits, h.pending_order, h.below,
        h₁, h₂, h₃, h₄, h₅, h₆, h₇, h₈, h₉, h₁₀⟩
    have hd : Drained { s with control := rest } lists := h.drained.pop rfl
    exact leaveFinish_spec hcounted' hc hd hrunning hzero h.interrupts interrupts hle hpending
      hcaller hqueue
  | .exitDrain trap before :: rest, _ =>
    have hcounted' : Counted 1 { s with control := rest } :=
      ⟨hinCritical, hinIrq, hnested.2, hcounted.thread, hcounted.exits, hcounted.invocations⟩
    have hc : Conserved { s with control := rest } lists := by
      obtain ⟨h₁, h₂, h₃, h₄, h₅, h₆, h₇, h₈, h₉, h₁₀⟩ := h.accounted
      exact ⟨h.free, h.pending, h.pending_waits, h.pending_order, h.below,
        h₁, h₂, h₃, h₄, h₅, h₆, h₇, h₈, h₉, h₁₀⟩
    have hd : Drained { s with control := rest } lists := h.drained.pop rfl
    exact exitTrapFinish_spec hcounted' ⟨lists, hc, hd⟩ h.interrupts hnested.1

end Between

theorem reverseStep_spec {list rev : Option Nat} {control : List Frame}
    (hcontrol : s.control = .reverse list rev :: control) (h : Inv s) :
    ∃ s', reverseStep list rev control s = some s' ∧ Inv s' := by
  have hinterrupts : s.interrupts = false := by
    rcases h.settled with hrunning | ⟨_, _, _, _, hfalse⟩
    · rw [hcontrol] at hrunning
      cases hrunning
    · exact hfalse
  have hcounted : Counted 0 { s with control } := h.counted.pop hcontrol rfl
  have hawaits : awaitsDrain control := by
    have hnested := h.counted.nested
    rw [hcontrol] at hnested
    exact hnested.1
  obtain ⟨⟨free, pending, held⟩, hc, hd⟩ := h.served
  have hheld := hc.held
  rw [hcontrol] at hheld
  obtain ⟨left, done, below, rfl, hleft, hdone, hne, hwaits, horder, hbelow⟩ := hheld
  have haccounted := hc.accounted
  cases list with
  | none =>
    obtain rfl : left = [] := map_eq_nil_iff.mp (Linked.none_iff.mp hleft)
    cases rev with
    | none =>
      obtain rfl : done = [] := map_eq_nil_iff.mp (Linked.none_iff.mp hdone)
      exact absurd rfl hne
    | some entry =>
      have hbetween : Between s control (some entry) [] ⟨free, pending, below⟩ done :=
        ⟨hcounted, hawaits, hinterrupts, hc.free, hc.pending, hc.pending_waits,
          hc.pending_order, hbelow, hdone, hwaits, horder, haccounted,
          ⟨fun i b c hmem => (hd.pop hcontrol).leave i b c hmem, (hd.pop hcontrol).invokeAsync,
            hd.lefts, hd.returned, hd.outside⟩⟩
      exact hbetween.invokeHandler_spec
  | some entry =>
    cases left with
    | nil => cases hleft
    | cons slot left =>
      obtain rfl : entry = slot.entry := some.inj hleft.1
      have hfirst : (pending ++ (slot :: left ++ done ++ below)).Perm
          (slot :: (pending ++ (left ++ done ++ below))) := perm_middle
      have hmoved : (slot :: (pending ++ (left ++ done ++ below))).Perm
          (pending ++ (left ++ slot :: done ++ below)) := by
        have hinner : (left ++ slot :: done ++ below).Perm (slot :: (left ++ done ++ below)) :=
          perm_middle.append_right below
        exact ((hinner.append_left pending).trans perm_middle).symm
      obtain ⟨hnotfree, hnot⟩ := (haccounted.perm hfirst).head_notMem
      simp only [map_append, mem_append, not_or] at hnot
      obtain ⟨hnotpending, ⟨hnotleft, hnotdone⟩, hnotbelow⟩ := hnot
      refine ⟨_, rfl, ⟨hcounted.inCritical, hcounted.inIrq, ⟨hawaits, hcounted.nested⟩,
        hcounted.thread, hcounted.exits, hcounted.invocations⟩,
        ⟨⟨free, pending, left ++ slot :: done ++ below⟩, ⟨linked_update hc.free hnotfree,
          chain_update hc.pending hnotpending, hc.pending_waits, hc.pending_order, ?_,
          ((haccounted.perm hfirst).perm hmoved).setNext slot.entry rev _⟩, ?_⟩,
        .inr ⟨_, _, _, rfl, hinterrupts⟩⟩
      · refine ⟨left, slot :: done, below, rfl, chain_update hleft.2 hnotleft,
          linked_push hdone hnotdone, by simp, fun other hmem => hwaits other ?_, ?_,
          held_update hbelow hnotbelow⟩
        · simp only [mem_append, mem_cons] at hmem ⊢
          tauto
        · simpa using horder
      · refine ⟨fun i b c hmem => ?_, fun i c hmem => ?_, hd.lefts, hd.returned, hd.outside⟩
        · rcases mem_cons.mp hmem with heq | hmem
          · cases heq
          · exact (hd.pop hcontrol).leave i b c hmem
        · rcases mem_cons.mp hmem with heq | hmem
          · cases heq
          · exact (hd.pop hcontrol).invokeAsync i c hmem

theorem handlerDone_spec {interrupts : Bool} {ran : List Nat} {control : List Frame}
    (hcontrol : s.control = .drain entry interrupts ran :: control)
    (hinterrupts : interrupts = s.interrupts) (h : Inv s) :
    ∃ s', handlerDone entry ran control s = some s' ∧ Inv s' := by
  have hcounted : Counted 0 { s with control } := h.counted.pop hcontrol rfl
  have hnested := h.counted.nested
  rw [hcontrol] at hnested
  obtain ⟨⟨hfalse, hawaits⟩, -⟩ := hnested
  rw [hinterrupts] at hfalse
  obtain ⟨⟨free, pending, held⟩, hc, hd⟩ := h.served
  have hheld := hc.held
  rw [hcontrol] at hheld
  obtain ⟨call, waiting, below, rfl, hchain, hwaits, horder, hbelow⟩ := hheld
  have hfirst : (pending ++ (⟨entry, call, true⟩ :: (waiting ++ below))).Perm
      (⟨entry, call, true⟩ :: (pending ++ (waiting ++ below))) := perm_middle
  have haccounted := hc.accounted.perm hfirst
  have hhandler : (s.entries entry).handler = some call :=
    haccounted.handler ⟨entry, call, true⟩ mem_cons_self
  obtain ⟨hnotfree, hnot⟩ := haccounted.head_notMem
  simp only [map_append, mem_append, not_or] at hnot
  obtain ⟨hnotpending, hnotwaiting, hnotbelow⟩ := hnot
  have horder' : ((ran ++ [call]) ++ waiting.map Slot.call).Pairwise (· < ·) := by
    simpa using horder
  -- the state after the entry is given back, between two handlers
  obtain ⟨s', hrelease, free', hbetween⟩ : ∃ s', releaseEntry entry call s = some s' ∧
      ∃ free', Between s' control (s.entries entry).next (ran ++ [call])
        ⟨free', pending, below⟩ waiting := by
    rw [releaseEntry]
    cases hallocated : (s.entries entry).wasAllocated with
    | true =>
      refine ⟨_, if_pos rfl, free, ⟨hcounted.inCritical, hcounted.inIrq, hcounted.nested,
        hcounted.thread, hcounted.exits, hcounted.invocations⟩, hawaits, hfalse, hc.free,
        hc.pending, hc.pending_waits, hc.pending_order, hbelow, hchain.2, hwaits, horder',
        haccounted.delete hallocated, ?_⟩
      exact (hd.pop hcontrol).append rfl rfl rfl rfl rfl rfl fun _ hmem _ => hmem
    | false =>
      have hpositive : 0 < s.inCritical := by
        have hcritical : s.inCritical = criticals control + 0 := hcounted.inCritical
        rw [hcritical]
        exact criticals_pos hawaits
      rw [if_neg (by simp), deferredCallReturnToPool, if_pos ⟨hpositive, hallocated⟩]
      refine ⟨_, rfl, entry :: free, ⟨hcounted.inCritical, hcounted.inIrq, hcounted.nested,
        hcounted.thread, hcounted.exits, hcounted.invocations⟩, hawaits, hfalse,
        linked_push hc.free hnotfree, chain_update hc.pending hnotpending, hc.pending_waits, hc.pending_order,
        held_update hbelow hnotbelow, chain_update hchain.2 hnotwaiting, hwaits, horder',
        haccounted.toPool hallocated _ _, ?_⟩
      exact (hd.pop hcontrol).append rfl rfl rfl rfl rfl rfl fun _ hmem _ => hmem
  simp only [handlerDone, hhandler, bind_some, hrelease]
  cases hnext : (s.entries entry).next with
  | none =>
    rw [hnext] at hbetween
    exact hbetween.executePendingReturn_spec
  | some next =>
    rw [hnext] at hbetween
    exact hbetween.invokeHandler_spec

/-! ## Queueing -/

/-- The state in which `deferred_call_queue` leaves its critical section. -/
def queued (entry : Nat) (wasAllocated : Bool) (free : Option Nat) (heap : List Nat) (s : State) :
    State :=
  { s with
    inCritical := s.inCritical + 1
    entries := update s.entries entry
      ⟨s.pendingDeferredCalls, some s.calls, wasAllocated⟩
    freeDeferredCallPoolEntry := free
    heap
    pendingDeferredCalls := some entry
    calls := s.calls + 1
    log := s.log ++ [Event.queue s.calls entry]
    outside :=
      if s.inCritical = 0 ∧ s.inIrq = 0 then s.outside ++ [s.calls] else s.outside }

theorem deferredCallQueue_pool (hfree : s.freeDeferredCallPoolEntry = some entry)
    (hallocated : (s.entries entry).wasAllocated = false) (address : Nat) :
    deferredCallQueue address s =
      leaveCritical (.queue s.calls) (queued entry false (s.entries entry).next s.heap s) := by
  simp [deferredCallQueue, deferredCallGetFree, deferredCallQueueEntry, storeHandler,
    recordQueue, State.setEntry, queued, hfree, hallocated]

theorem deferredCallQueue_heap (hfree : s.freeDeferredCallPoolEntry = none) (address : Nat) :
    deferredCallQueue address s =
      leaveCritical (.queue s.calls) (queued address true none (address :: s.heap) s) := by
  simp [deferredCallQueue, deferredCallGetFree, deferredCallQueueEntry, storeHandler,
    recordQueue, State.setEntry, queued, hfree]

theorem Conserved.queue (h : Conserved s lists) {allocated : Bool} {free : List Nat}
    (hfree : Linked (fun e => (s.entries e).next) freeHead free) (hnotfree : entry ∉ free)
    (hnot : entry ∉ lists.slots.map Slot.entry) (hsubset : ∀ e ∈ free, e ∈ lists.free)
    (hpartition : (free ++ entry :: lists.slots.map Slot.entry).Perm
      (List.range s.poolCount ++ heap))
    (hheap_nodup : heap.Nodup) (hheap_above : ∀ e ∈ heap, s.poolCount ≤ e)
    (hallocated : allocated = decide (s.poolCount ≤ entry)) :
    Conserved (queued entry allocated freeHead heap s)
      ⟨free, ⟨entry, s.calls, false⟩ :: lists.pending, lists.held⟩ := by
  have hacc := h.accounted
  have hnot' := hnot
  rw [Lists.slots, map_append, mem_append, not_or] at hnot'
  have hcall : s.calls ∉ lists.slots.map Slot.call := by
    intro hmem
    obtain ⟨slot, hslot, heq⟩ := List.mem_map.mp hmem
    have hlt := (hacc.trace_slot slot hslot).1
    omega
  have hother : ∀ c, s.calls ≠ c →
      trace (s.log ++ [Event.queue s.calls entry]) c = trace s.log c :=
    fun c hne => trace_append_of_ne hne
  refine ⟨linked_update hfree hnotfree, linked_push h.pending hnot'.1, ?_, ?_,
    held_update h.held hnot'.2, hpartition, hheap_nodup, hheap_above,
    fun e he => hacc.free_pool e (hsubset e he), fun e he => ?_, fun slot hslot => ?_,
    nodup_cons.mpr ⟨hcall, hacc.calls_nodup⟩, fun slot hslot => ?_,
    fun c hc hnotmem => ?_, fun c hc => ?_⟩
  · intro slot hslot
    rcases mem_cons.mp hslot with rfl | hslot
    · rfl
    · exact h.pending_waits slot hslot
  · refine pairwise_cons.mpr ⟨fun c hc => ?_, h.pending_order⟩
    obtain ⟨slot, hslot, rfl⟩ := List.mem_map.mp hc
    exact (hacc.trace_slot slot (mem_append_left _ hslot)).1
  · by_cases heq : e = entry
    · subst heq
      simp only [queued, update_self]
      exact hallocated
    · simp only [queued, update_of_ne heq]
      refine hacc.allocated e ?_
      rcases mem_append.mp he with he | he
      · exact mem_append_left _ (hsubset e he)
      · rcases mem_cons.mp he with he | he
        · exact absurd he heq
        · exact mem_append_right _ he
  · rcases mem_cons.mp hslot with rfl | hslot
    · simp [queued]
    · have hne : slot.entry ≠ entry := fun heq => hnot (heq ▸ List.mem_map_of_mem hslot)
      simp only [queued, update_of_ne hne]
      exact hacc.handler slot hslot
  · rcases mem_cons.mp hslot with rfl | hslot
    · refine ⟨Nat.lt_succ_self _, ?_⟩
      simp only [queued]
      rw [trace_append, hacc.trace_fresh s.calls (Nat.le_refl _)]
      simp [Slot.trace, Event.call]
    · obtain ⟨hlt, htrace⟩ := hacc.trace_slot slot hslot
      exact ⟨Nat.lt_succ_of_lt hlt, (hother slot.call (Nat.ne_of_gt hlt)).trans htrace⟩
  · have hne : s.calls ≠ c := fun heq => hnotmem (heq ▸ mem_cons_self)
    have hlt : c < s.calls + 1 := hc
    obtain ⟨e, he⟩ := hacc.trace_closed c (by omega) fun hmem =>
      hnotmem (mem_cons_of_mem _ hmem)
    exact ⟨e, (hother c hne).trans he⟩
  · have hle : s.calls + 1 ≤ c := hc
    exact (hother c (by omega)).trans (hacc.trace_fresh c (by omega))

theorem Drained.queue (h : Drained s lists) {allocated : Bool} {free : List Nat} :
    Drained (queued entry allocated freeHead heap s)
      ⟨free, ⟨entry, s.calls, false⟩ :: lists.pending, lists.held⟩ := by
  have houtside : ∀ call, call < s.calls →
      call ∈ (queued entry allocated freeHead heap s).outside → call ∈ s.outside := by
    intro call hlt hmem
    simp only [queued] at hmem
    split at hmem
    · rcases mem_append.mp hmem with hmem | hmem
      · exact hmem
      · have heq := mem_singleton.mp hmem
        omega
    · exact hmem
  refine ⟨fun i b c hmem => ?_, fun i c hmem => ?_, fun left hleft => ?_, fun c hmem => ?_,
    fun c hmem => ?_⟩
  · obtain ⟨hle, hpending, hcall⟩ := h.leave i b c hmem
    refine ⟨Nat.le_succ_of_le hle, fun slot hslot => ?_, hcall⟩
    rcases mem_cons.mp hslot with rfl | hslot
    · exact hle
    · exact hpending slot hslot
  · obtain ⟨hlt, hexecuted⟩ := h.invokeAsync i c hmem
    exact ⟨Nat.lt_succ_of_lt hlt, fun hout => (hexecuted (houtside c hlt hout)).append _⟩
  · obtain ⟨hexecuted, hnone⟩ := h.lefts left hleft
    exact ⟨fun c hc => (hexecuted c hc).append _, hnone⟩
  · obtain ⟨hlt, hexecuted⟩ := h.returned c hmem
    exact ⟨Nat.lt_succ_of_lt hlt, fun hout => (hexecuted (houtside c hlt hout)).append _⟩
  · by_cases hlt : c < s.calls
    · exact Nat.lt_succ_of_lt hlt
    · have hle : c ≤ s.calls := by
        simp only [queued] at hmem
        split at hmem
        · rcases mem_append.mp hmem with hmem | hmem
          · exact Nat.le_of_lt (h.outside c hmem)
          · exact Nat.le_of_eq (mem_singleton.mp hmem)
        · exact Nat.le_of_lt (h.outside c hmem)
      exact Nat.lt_succ_of_le hle

/-- The entry that `deferred_call_get_free` gives, and its list. -/
theorem deferredCallQueue_spec (hrunning : running s.control) (h : Inv s) {address : Nat}
    (haddress : s.freeDeferredCallPoolEntry = none → s.unused address) :
    ∃ s', deferredCallQueue address s = some s' ∧ Inv s' := by
  obtain ⟨lists, hc, hd⟩ := h.served
  have hacc := hc.accounted
  suffices hleave : ∀ entry allocated freeHead heap free,
      Conserved (queued entry allocated freeHead heap s)
        ⟨free, ⟨entry, s.calls, false⟩ :: lists.pending, lists.held⟩ →
      ∃ s', leaveCritical (.queue s.calls) (queued entry allocated freeHead heap s) = some s' ∧
        Inv s' by
    cases hfree : s.freeDeferredCallPoolEntry with
    | some entry =>
      have hlinked := hc.free
      rw [hfree] at hlinked
      obtain ⟨free, hlist, hrest⟩ := Linked.some_iff.mp hlinked
      have hnodup := hacc.nodup
      have hpartition := hacc.partition
      have hmem : entry ∈ lists.free := hlist ▸ mem_cons_self
      have hlt := hacc.free_pool entry hmem
      have hallocated := hacc.allocated entry (mem_append_left _ hmem)
      rw [decide_eq_false (Nat.not_le.mpr hlt)] at hallocated
      rw [hlist, List.cons_append] at hnodup hpartition
      obtain ⟨hnot, -⟩ := nodup_cons.mp hnodup
      rw [mem_append, not_or] at hnot
      rw [deferredCallQueue_pool hfree hallocated]
      refine hleave entry false _ s.heap free (hc.queue hrest hnot.1 hnot.2
        (fun e he => hlist ▸ mem_cons_of_mem _ he) (perm_middle.trans hpartition)
        hacc.heap_nodup hacc.heap_above ?_)
      exact (decide_eq_false (Nat.not_le.mpr hlt)).symm
    | none =>
      obtain ⟨hpool, hheap⟩ := haddress hfree
      have hlinked := hc.free
      rw [hfree] at hlinked
      have hnil : lists.free = [] := Linked.none_iff.mp hlinked
      have hpartition := hacc.partition
      rw [hnil, nil_append] at hpartition
      rw [deferredCallQueue_heap hfree]
      refine hleave address true none (address :: s.heap) [] (hc.queue rfl (by simp) ?_ nofun
        ((hpartition.cons address).trans perm_middle.symm)
        (nodup_cons.mpr ⟨hheap, hacc.heap_nodup⟩) ?_ (decide_eq_true hpool).symm)
      · intro hmem
        rcases mem_append.mp (hpartition.mem_iff.mp hmem) with hmem | hmem
        · have hlt := mem_range.mp hmem
          omega
        · exact hheap hmem
      · intro e he
        rcases mem_cons.mp he with rfl | he
        · exact hpool
        · exact hacc.heap_above e he
  intro entry allocated freeHead heap free hconserved
  have hcounted : Counted 1 (queued entry allocated freeHead heap s) := by
    refine ⟨?_, h.counted.inIrq, h.counted.nested, h.counted.thread, h.counted.exits,
      h.counted.invocations⟩
    have hinCritical := h.counted.inCritical
    simp only [queued]
    omega
  refine leaveCritical_spec hcounted ⟨_, hconserved, hd.queue⟩ (ready_of_running hrunning) nofun ?_
  intro call hcall
  cases hcall
  refine ⟨Nat.lt_succ_self _, fun hout => ?_⟩
  simp only [queued] at hout ⊢
  split at hout
  · next hzero => exact ⟨by omega, hzero.2⟩
  · exact absurd (hd.outside _ hout) (Nat.lt_irrefl _)

end Literate.Kernel.Processor

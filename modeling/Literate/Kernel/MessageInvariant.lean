import Literate.Kernel.Message

/-!
# Kernel: the life of a message

A message passes from its sender to its receivers through the reference count.
The sender owns it alone until it has stored the count; from then on every target
that has not given up its reference keeps it out of the pool, and whoever sees the
last reference go (the waiting sender of a synchronous message, the last receiver
of an asynchronous one) cleans it up.

The argument follows the life of each entry, `Phase`: to be enqueued, queued, taken
by an exchange, handled, given up.  An entry in the middle phases belongs to the
send its message was last taken for, and this is what keeps two sends from using
one entry at a time.
-/

namespace Literate.Kernel.Message

open Foundation Function List
open Function (update)

/-! ## What the phases say -/

namespace Phase

/-- The reference is still counted in `msg.refs`. -/
def held : Phase → Bool
  | .last _ => false
  | .dropped => false
  | _ => true

/-- The target has handled the message. -/
def handled : Phase → Bool
  | .invoked _ => true
  | .last _ => true
  | .dropped => true
  | _ => false

end Phase

/-- The two phases are alike for the send: it has the same references and the same
entries to enqueue. -/
structure Phase.Alike (x y : Phase) : Prop where
  todo : x = .todo ↔ y = .todo
  dropped : x = .dropped ↔ y = .dropped
  held : x.held = y.held
  last : ∀ g, x = .last g → y = .last g

theorem Phase.Alike.refl (x : Phase) : x.Alike x :=
  ⟨Iff.rfl, Iff.rfl, rfl, fun _ h => h⟩

theorem Send.targets_nodup (snd : Send) (count : Nat) : (snd.targets count).Nodup := by
  unfold Send.targets
  cases snd.kind with
  | unicast cpu async => exact nodup_singleton cpu
  | broadcast => exact nodup_range.filter _

variable {q g f : Nat} {s s' : State} {fs : List Nat} {pc : ProcessPc}

/-- Changing the phase of one target changes the count of references by at most
one. -/
theorem countP_held_update {l : List Nat} (hl : l.Nodup) (hq : q ∈ l)
    (φ : Nat → Phase) (x : Phase) :
    l.countP (fun r => (update φ q x r).held) + (if (φ q).held then 1 else 0) =
      l.countP (fun r => (φ r).held) + (if x.held then 1 else 0) := by
  induction l with
  | nil => simp at hq
  | cons r l ih =>
    obtain ⟨hr, hl⟩ := nodup_cons.mp hl
    simp only [countP_cons]
    rcases mem_cons.mp hq with rfl | hq
    · have hrest : l.countP (fun t => (update φ q x t).held) =
          l.countP (fun t => (φ t).held) := by
        refine countP_congr fun t ht => ?_
        have htq : t ≠ q := fun h => hr (h ▸ ht)
        simp [update_of_ne htq]
      rw [hrest, update_self]
      omega
    · have hrq : r ≠ q := fun h => hr (h ▸ hq)
      have := ih hl hq
      simp only [update_of_ne hrq]
      omega

/-! ## Messages and chains of entries -/

def Activity.msg : Activity → Nat
  | .send snd _ => snd.msg
  | _ => 0

/-- The message of a send activity. -/
def State.msgOf (s : State) (f : Nat) : Nat := (s.acts f).msg

/-- The list from pointer `p` consists of the entries of the sends `fs` for
processor `q`. -/
def Chain (s : State) (q : Nat) (p : Option Entry) (fs : List Nat) : Prop :=
  Linked s.next p (fs.map fun f => ⟨s.msgOf f, q⟩)

theorem Chain.frame {p : Option Entry}
    (h : Chain s q p fs) (hmsg : ∀ f ∈ fs, s'.msgOf f = s.msgOf f)
    (hnext : ∀ f ∈ fs, s'.next ⟨s.msgOf f, q⟩ = s.next ⟨s.msgOf f, q⟩) : Chain s' q p fs := by
  have hmap : fs.map (fun f => (⟨s'.msgOf f, q⟩ : Entry)) =
      fs.map fun f => ⟨s.msgOf f, q⟩ :=
    map_congr_left fun f hf => by rw [hmsg f hf]
  unfold Chain
  rw [hmap]
  refine h.congr fun entry hentry => ?_
  obtain ⟨f, hf, rfl⟩ := List.mem_map.mp hentry
  exact (hnext f hf).symm

/-- A chain of entries stays one when neither links nor messages change. -/
theorem Chain.same {s s' : State} {q : Nat} {p : Option Entry} {fs : List Nat}
    (h : Chain s q p fs) (hmsgOf : s'.msgOf = s.msgOf) (hnext : s'.next = s.next) :
    Chain s' q p fs :=
  h.frame (fun _ _ => by rw [hmsgOf]) (fun _ _ => by rw [hnext])

theorem State.msgOf_of_process (hact : s.acts g = .process q pc) : s.msgOf g = 0 := by
  rw [State.msgOf, hact]
  rfl

theorem State.setPhase_phase (s : State) (f q : Nat) (x : Phase) (g r : Nat) :
    (s.setPhase f q x).phase g r = if g = f ∧ r = q then x else s.phase g r := by
  by_cases hg : g = f
  · subst hg
    by_cases hr : r = q
    · simp [State.setPhase, hr]
    · simp [State.setPhase, hr]
  · simp [State.setPhase, hg]

theorem Chain.none_iff : Chain s q none fs ↔ fs = [] := by
  simp [Chain, Linked.none_iff]

theorem Chain.some_iff {entry : Entry} : Chain s q (some entry) fs ↔
      ∃ f t, fs = f :: t ∧ entry = ⟨s.msgOf f, q⟩ ∧ Chain s q (s.next entry) t := by
  unfold Chain
  cases fs with
  | nil => simp
  | cons f t =>
    simp only [map_cons, Linked.cons_iff, Option.some.injEq, List.cons.injEq]
    constructor
    · rintro ⟨rfl, h⟩
      exact ⟨f, t, ⟨rfl, rfl⟩, rfl, h⟩
    · rintro ⟨f', t', ⟨rfl, rfl⟩, rfl, h⟩
      exact ⟨rfl, h⟩

/-! ## The invariant -/

/-- The processors a send has not enqueued its message for. -/
def SendPc.remaining (targets : List Nat) : SendPc → List Nat
  | .storeAsync => targets
  | .storeRefs => targets
  | .verifyRefs => targets
  | .writeNext target rest _ _ => target :: rest
  | .exchange target rest _ _ => target :: rest
  | _ => []

/-- The send has stored the reference count. -/
def SendPc.counted : SendPc → Prop
  | .storeAsync => False
  | .storeRefs => False
  | _ => True

/-- The send is in a part of the code that only synchronous sends run. -/
def SendPc.waits : SendPc → Prop
  | .verifySync => True
  | .wait => True
  | .cleanup => True
  | _ => False

/-- Where send `f` stands agrees with the phases of its entries and, until its
message is recycled, with what the memory holds about the message. -/
structure SendOk (s : State) (f : Nat) (snd : Send) (pc : SendPc) : Prop where
  outside : ∀ q, q ∉ snd.targets s.count → s.phase f q = .todo
  remaining : ∀ q ∈ snd.targets s.count,
    s.phase f q = .todo ↔ q ∈ pc.remaining (snd.targets s.count)
  nodup : (pc.remaining (snd.targets s.count)).Nodup
  within : ∀ q ∈ pc.remaining (snd.targets s.count), q ∈ snd.targets s.count
  sender : s.retiredBy f = none → s.sender snd.msg = f
  unpooled : s.retiredBy f = none → s.pooled snd.msg = false
  async : s.retiredBy f = none → pc ≠ .storeAsync → s.async snd.msg = snd.async
  refs : s.retiredBy f = none → pc.counted →
    s.refs snd.msg = (snd.targets s.count).countP fun q => (s.phase f q).held
  link : ∀ target rest need next, pc = .exchange target rest need next →
    s.next ⟨snd.msg, target⟩ = next
  waits : pc.waits → snd.async = false
  cleanup : pc = .cleanup → ∀ q ∈ snd.targets s.count, s.phase f q = .dropped
  done : pc = .done → snd.async = false → s.retiredBy f = some f
  retired : ∀ g, s.retiredBy f = some g →
    (∀ q ∈ snd.targets s.count, s.phase f q = .dropped) ∧
      (if snd.async then g ≠ f else g = f ∧ pc = .done)
  live : s.retiredBy f = none → snd.async = true →
    ∃ q ∈ snd.targets s.count, s.phase f q ≠ .dropped
  last : ∀ q g, s.phase f q = .last g →
    snd.async = true ∧ ∀ r ∈ snd.targets s.count, r ≠ q → s.phase f r = .dropped

/-- Where the processing of the sends `rest` on processor `q` stands. -/
def PcOk (s : State) (g q : Nat) (rest : List Nat) : ProcessPc → Prop
  | .exchange => s.handled g = [] ∧ rest = []
  | .reverse list rev => s.handled g = [] ∧
      ∃ l₁ l₂, Chain s q list l₁ ∧ Chain s q rev l₂ ∧ l₁.reverse ++ l₂ = rest
  | .loop cur => Chain s q cur rest
  | .invoke cur next => ∃ f t, rest = f :: t ∧ cur = ⟨s.msgOf f, q⟩ ∧ Chain s q next t
  | .readAsync msg next => Chain s q next rest ∧
      ∃ f, msg = s.msgOf f ∧ s.phase f q = .invoked g
  | .fetchSub msg async next => Chain s q next rest ∧
      ∃ f, msg = s.msgOf f ∧ s.phase f q = .invoked g ∧ async = s.async msg
  | .cleanup msg next => Chain s q next rest ∧
      ∃ f, msg = s.msgOf f ∧ s.phase f q = .last g
  | .checkHalt next => Chain s q next rest
  | .checkHaltEmpty => rest = []
  | .done => rest = []
  | .halted => False
  | .verifyFailed => False

/-- What a process activity took from the queue is what it has handled, in that
order, and what it still has in hand. -/
def ProcessOk (s : State) (g q : Nat) (pc : ProcessPc) : Prop :=
  ∃ rest, s.batch g = s.handled g ++ rest ∧ rest.Nodup ∧
    (∀ f, f ∈ rest ↔ s.phase f q = .taken g) ∧ PcOk s g q rest pc

/-- The process activity has handled message `msg` and still holds a reference. -/
def ProcessPc.holds (msg : Nat) : ProcessPc → Prop
  | .readAsync m _ => m = msg
  | .fetchSub m _ _ => m = msg
  | _ => False

/-- The process activity has to clean up message `msg`. -/
def ProcessPc.cleans (msg : Nat) : ProcessPc → Prop
  | .cleanup m _ => m = msg
  | _ => False

structure Inv (s : State) : Prop where
  noHalt : ∀ p, s.haltRequested p = false
  unborn : ∀ f, s.spawned ≤ f → s.acts f = .none ∧ s.batch f = [] ∧ s.handled f = [] ∧
    s.retiredBy f = none ∧ ∀ q, s.phase f q = .todo
  sends : ∀ f snd pc, s.acts f = .send snd pc → SendOk s f snd pc
  processes : ∀ g q pc, s.acts g = .process q pc → ProcessOk s g q pc
  isSend : ∀ f q, s.phase f q ≠ .todo → ∃ snd pc, s.acts f = .send snd pc
  isTaken : ∀ f q g, s.phase f q = .taken g → ∃ pc, s.acts g = .process q pc
  isInvoked : ∀ f q g, s.phase f q = .invoked g →
    ∃ pc, s.acts g = .process q pc ∧ pc.holds (s.msgOf f)
  isLast : ∀ f q g, s.phase f q = .last g →
    ∃ pc, s.acts g = .process q pc ∧ pc.cleans (s.msgOf f)
  queue : ∀ q, Chain s q (s.queue q) (s.fresh q).reverse
  fresh_nodup : ∀ q, (s.fresh q).Nodup
  mem_fresh : ∀ q f, f ∈ s.fresh q ↔ s.phase f q = .queued
  enqueues : ∀ f q, s.log.count (.enqueue f q) = if s.phase f q = .todo then 0 else 1
  invokes : ∀ f q, s.log.count (.invoke f q) = if (s.phase f q).handled then 1 else 0
  retires : ∀ f g, s.log.count (.retire f g) = if s.retiredBy f = some g then 1 else 0

/-! ## Frame conditions -/

theorem SendOk.frame {snd : Send} {pc : SendPc}
    (h : SendOk s f snd pc) (hcount : s'.count = s.count)
    (hphase : ∀ q, (s'.phase f q).Alike (s.phase f q)) (hretired : s'.retiredBy f = s.retiredBy f)
    (hmem : s.retiredBy f = none → s'.sender snd.msg = s.sender snd.msg ∧
      s'.pooled snd.msg = s.pooled snd.msg ∧ s'.async snd.msg = s.async snd.msg ∧
      s'.refs snd.msg = s.refs snd.msg)
    (hnext : ∀ q ∈ pc.remaining (snd.targets s.count),
      s'.next ⟨snd.msg, q⟩ = s.next ⟨snd.msg, q⟩) : SendOk s' f snd pc where
  outside q hq := by
    rw [hcount] at hq
    exact (hphase q).todo.mpr (h.outside q hq)
  remaining q hq := by
    rw [hcount] at hq ⊢
    rw [(hphase q).todo]
    exact h.remaining q hq
  nodup := by rw [hcount]; exact h.nodup
  within := by rw [hcount]; exact h.within
  sender hr := by
    rw [hretired] at hr
    exact (hmem hr).1.trans (h.sender hr)
  unpooled hr := by
    rw [hretired] at hr
    exact (hmem hr).2.1.trans (h.unpooled hr)
  async hr hpc := by
    rw [hretired] at hr
    exact (hmem hr).2.2.1.trans (h.async hr hpc)
  refs hr hpc := by
    rw [hretired] at hr
    rw [hcount, (hmem hr).2.2.2, h.refs hr hpc]
    exact countP_congr fun q _ => by rw [(hphase q).held]
  link target rest need next hpc := by
    rw [hnext target (by rw [hpc]; exact mem_cons_self)]
    exact h.link target rest need next hpc
  waits := h.waits
  cleanup hpc q hq := by
    rw [hcount] at hq
    exact (hphase q).dropped.mpr (h.cleanup hpc q hq)
  done := by rw [hretired]; exact h.done
  retired g hg := by
    rw [hretired] at hg
    rw [hcount]
    exact ⟨fun q hq => (hphase q).dropped.mpr ((h.retired g hg).1 q hq), (h.retired g hg).2⟩
  live hr ha := by
    rw [hretired] at hr
    obtain ⟨q, hq, hne⟩ := h.live hr ha
    exact ⟨q, hcount ▸ hq, fun hd => hne ((hphase q).dropped.mp hd)⟩
  last q g hg := by
    rw [hcount]
    obtain ⟨ha, hrest⟩ := h.last q g ((hphase q).last g hg)
    exact ⟨ha, fun r hr hrq => (hphase r).dropped.mpr (hrest r hr hrq)⟩

theorem PcOk.frame {rest : List Nat}
    (h : PcOk s g q rest pc) (hhandled : s'.handled g = s.handled g)
    (hchain : ∀ p fs, (∀ f ∈ fs, f ∈ rest) → Chain s q p fs → Chain s' q p fs)
    (hrest : ∀ f ∈ rest, s'.msgOf f = s.msgOf f)
    (hinvoked : ∀ f, s.phase f q = .invoked g → s'.phase f q = .invoked g ∧
      s'.msgOf f = s.msgOf f ∧ s'.async (s.msgOf f) = s.async (s.msgOf f))
    (hlast : ∀ f, s.phase f q = .last g → s'.phase f q = .last g ∧
      s'.msgOf f = s.msgOf f) : PcOk s' g q rest pc := by
  cases pc with
  | exchange => exact ⟨hhandled.trans h.1, h.2⟩
  | reverse list rev =>
    obtain ⟨hh, l₁, l₂, h₁, h₂, heq⟩ := h
    refine ⟨hhandled.trans hh, l₁, l₂, hchain _ _ ?_ h₁, hchain _ _ ?_ h₂, heq⟩
    · intro f hf
      rw [← heq]
      exact mem_append_left _ (mem_reverse.mpr hf)
    · intro f hf
      rw [← heq]
      exact mem_append_right _ hf
  | loop cur => exact hchain _ _ (fun _ hf => hf) h
  | invoke cur next =>
    obtain ⟨f, t, rfl, rfl, ht⟩ := h
    refine ⟨f, t, rfl, by rw [hrest f mem_cons_self], hchain _ _ ?_ ht⟩
    exact fun r hr => mem_cons_of_mem f hr
  | readAsync msg next =>
    obtain ⟨hc, f, rfl, hf⟩ := h
    obtain ⟨hf', hmsg, -⟩ := hinvoked f hf
    exact ⟨hchain _ _ (fun _ hr => hr) hc, f, hmsg.symm, hf'⟩
  | fetchSub msg async next =>
    obtain ⟨hc, f, rfl, hf, ha⟩ := h
    obtain ⟨hf', hmsg, hasync⟩ := hinvoked f hf
    exact ⟨hchain _ _ (fun _ hr => hr) hc, f, hmsg.symm, hf', ha.trans hasync.symm⟩
  | cleanup msg next =>
    obtain ⟨hc, f, rfl, hf⟩ := h
    obtain ⟨hf', hmsg⟩ := hlast f hf
    exact ⟨hchain _ _ (fun _ hr => hr) hc, f, hmsg.symm, hf'⟩
  | checkHalt next => exact hchain _ _ (fun _ hr => hr) h
  | _ => exact h

theorem ProcessOk.frame
    (h : ProcessOk s g q pc) (hbatch : s'.batch g = s.batch g)
    (hhandled : s'.handled g = s.handled g)
    (htaken : ∀ f, s'.phase f q = .taken g ↔ s.phase f q = .taken g)
    (hmsg : ∀ f, s.phase f q = .taken g → s'.msgOf f = s.msgOf f)
    (hnext : ∀ f, s.phase f q = .taken g →
      s'.next ⟨s.msgOf f, q⟩ = s.next ⟨s.msgOf f, q⟩)
    (hinvoked : ∀ f, s.phase f q = .invoked g → s'.phase f q = .invoked g ∧
      s'.msgOf f = s.msgOf f ∧ s'.async (s.msgOf f) = s.async (s.msgOf f))
    (hlast : ∀ f, s.phase f q = .last g → s'.phase f q = .last g ∧
      s'.msgOf f = s.msgOf f) : ProcessOk s' g q pc := by
  obtain ⟨rest, hb, hnodup, hmem, hpc⟩ := h
  refine ⟨rest, by rw [hbatch, hhandled, hb], hnodup, fun f => ?_, ?_⟩
  · rw [hmem, htaken]
  · refine hpc.frame hhandled (fun p fs hfs hc => ?_) (fun f hf => hmsg f ((hmem f).mp hf))
      hinvoked hlast
    exact hc.frame (fun f hf => hmsg f ((hmem f).mp (hfs f hf)))
      (fun f hf => hnext f ((hmem f).mp (hfs f hf)))

/-! ## Consequences: who owns a message -/

/-- A send of which some entry is on its way has not been recycled, and it is the
send its message was last taken for. -/
theorem Inv.owner {s : State} (h : Inv s) {f q : Nat} (htodo : s.phase f q ≠ .todo)
    (hdropped : s.phase f q ≠ .dropped) :
    ∃ snd pc, s.acts f = .send snd pc ∧ q ∈ snd.targets s.count ∧
      s.retiredBy f = none ∧ s.sender (s.msgOf f) = f := by
  obtain ⟨snd, pc, hact⟩ := h.isSend f q htodo
  have hok := h.sends f snd pc hact
  have hq : q ∈ snd.targets s.count := by
    by_contra hq
    exact htodo (hok.outside q hq)
  have hretired : s.retiredBy f = none := by
    cases hr : s.retiredBy f with
    | none => rfl
    | some g => exact absurd ((hok.retired g hr).1 q hq) hdropped
  refine ⟨snd, pc, hact, hq, hretired, ?_⟩
  have hmsg : s.msgOf f = snd.msg := by rw [State.msgOf, hact]; rfl
  exact hmsg ▸ hok.sender hretired

/-- A send that still has to enqueue its message has not been recycled. -/
theorem SendOk.not_retired {s : State} {f : Nat} {snd : Send} {pc : SendPc}
    (h : SendOk s f snd pc) {q : Nat} (hq : q ∈ pc.remaining (snd.targets s.count)) :
    s.retiredBy f = none := by
  cases hr : s.retiredBy f with
  | none => rfl
  | some g =>
    have hmem := h.within q hq
    have hdropped := (h.retired g hr).1 q hmem
    rw [(h.remaining q hmem).mpr hq] at hdropped
    cases hdropped

/-- Sends whose messages are not recycled have different messages. -/
theorem Inv.msg_ne (h : Inv s) {snd snd' : Send} {pc pc' : SendPc}
    (hf : s.acts f = .send snd pc) (hg : s.acts g = .send snd' pc')
    (hrf : s.retiredBy f = none) (hrg : s.retiredBy g = none) (hne : f ≠ g) :
    snd.msg ≠ snd'.msg := by
  intro heq
  have h₁ := (h.sends f snd pc hf).sender hrf
  have h₂ := (h.sends g snd' pc' hg).sender hrg
  exact hne (h₁.symm.trans ((congrArg s.sender heq).trans h₂))

theorem msgOf_of_act {snd : Send} {pc : SendPc} (hf : s.acts f = .send snd pc) :
    s.msgOf f = snd.msg := by
  rw [State.msgOf, hf]
  rfl

theorem Inv.lt_spawned {s : State} (h : Inv s) {f : Nat} (hf : s.acts f ≠ .none) :
    f < s.spawned := by
  by_contra hle
  exact hf (h.unborn f (by omega)).1

/-- Replacing an activity by one of the same message changes no message. -/
theorem msgOf_of_update {act : Activity}
    (hacts : s'.acts = update s.acts f act) (hmsg : act.msg = s.msgOf f) : s'.msgOf = s.msgOf := by
  funext g
  by_cases hgf : g = f
  · rw [State.msgOf, hacts, hgf, update_self, hmsg]
  · simp only [State.msgOf, hacts, update_of_ne hgf]

/-! ## Steps that only read and write memory -/

/-- Nothing that the invariant records about the past has changed. -/
structure SamePast (s s' : State) : Prop where
  count : s'.count = s.count
  spawned : s'.spawned = s.spawned
  haltRequested : s'.haltRequested = s.haltRequested
  queue : s'.queue = s.queue
  sender : s'.sender = s.sender
  pooled : s'.pooled = s.pooled
  phase : s'.phase = s.phase
  fresh : s'.fresh = s.fresh
  batch : s'.batch = s.batch
  handled : s'.handled = s.handled
  retiredBy : s'.retiredBy = s.retiredBy
  log : s'.log = s.log

theorem Inv.move (h : Inv s) (hpast : SamePast s s') {act : Activity} (hf : f < s.spawned)
    (hacts : s'.acts = update s.acts f act) (hmsg : act.msg = s.msgOf f)
    (hsend : ∀ snd pc, s.acts f = .send snd pc →
      ∃ pc', act = .send snd pc' ∧ SendOk s' f snd pc')
    (hprocess : ∀ q pc, s.acts f = .process q pc → ∃ pc', act = .process q pc' ∧
      ProcessOk s' f q pc' ∧ (∀ m, pc.holds m → pc'.holds m) ∧
        ∀ m, pc.cleans m → pc'.cleans m)
    (hnone : s.acts f ≠ .none)
    (hsends : ∀ g snd pc, g ≠ f → s.acts g = .send snd pc → SendOk s' g snd pc)
    (hprocesses : ∀ g q pc, g ≠ f → s.acts g = .process q pc → ProcessOk s' g q pc)
    (hqueue : ∀ q, Chain s' q (s.queue q) (s.fresh q).reverse) : Inv s' := by
  have hmsgOf : s'.msgOf = s.msgOf := msgOf_of_update hacts hmsg
  have hact_self : s'.acts f = act := by rw [hacts, update_self]
  have hact_ne : ∀ g, g ≠ f → s'.acts g = s.acts g := by
    intro g hg
    rw [hacts, update_of_ne hg]
  -- a process activity keeps its processor and what it holds or has to clean up
  have hkeep : ∀ g q pc, s.acts g = .process q pc → ∃ pc', s'.acts g = .process q pc' ∧
      (∀ m, pc.holds m → pc'.holds m) ∧ ∀ m, pc.cleans m → pc'.cleans m := by
    intro g q pc hg
    by_cases hgf : g = f
    · rw [hgf] at hg ⊢
      obtain ⟨pc', rfl, -, hholds, hcleans⟩ := hprocess q pc hg
      exact ⟨pc', hact_self, hholds, hcleans⟩
    · exact ⟨pc, (hact_ne g hgf).trans hg, fun _ hm => hm, fun _ hm => hm⟩
  refine
    { noHalt := fun p => by rw [hpast.haltRequested]; exact h.noHalt p
      unborn := fun g hg => ?_
      sends := fun g snd pc hg => ?_
      processes := fun g q pc hg => ?_
      isSend := fun g q hg => ?_
      isTaken := fun g q g' hg => ?_
      isInvoked := fun g q g' hg => ?_
      isLast := fun g q g' hg => ?_
      queue := fun q => by rw [hpast.queue, hpast.fresh]; exact hqueue q
      fresh_nodup := fun q => by rw [hpast.fresh]; exact h.fresh_nodup q
      mem_fresh := fun q g => by rw [hpast.fresh, hpast.phase]; exact h.mem_fresh q g
      enqueues := fun g q => by rw [hpast.log, hpast.phase]; exact h.enqueues g q
      invokes := fun g q => by rw [hpast.log, hpast.phase]; exact h.invokes g q
      retires := fun g g' => by rw [hpast.log, hpast.retiredBy]; exact h.retires g g' }
  · rw [hpast.spawned] at hg
    have hgf : g ≠ f := by omega
    rw [hact_ne g hgf, hpast.batch, hpast.handled, hpast.retiredBy, hpast.phase]
    exact h.unborn g hg
  · by_cases hgf : g = f
    · rw [hgf] at hg ⊢
      rw [hact_self] at hg
      subst hg
      cases hold : s.acts f with
      | none => exact absurd hold hnone
      | send snd₀ pc₀ =>
        obtain ⟨pc', heq, hok⟩ := hsend snd₀ pc₀ hold
        obtain ⟨rfl, rfl⟩ := Activity.send.inj heq
        exact hok
      | process q₀ pc₀ =>
        obtain ⟨pc', heq, -⟩ := hprocess q₀ pc₀ hold
        cases heq
    · exact hsends g snd pc hgf ((hact_ne g hgf).symm.trans hg)
  · by_cases hgf : g = f
    · rw [hgf] at hg ⊢
      rw [hact_self] at hg
      subst hg
      cases hold : s.acts f with
      | none => exact absurd hold hnone
      | send snd₀ pc₀ =>
        obtain ⟨pc', heq, -⟩ := hsend snd₀ pc₀ hold
        cases heq
      | process q₀ pc₀ =>
        obtain ⟨pc', heq, hok, -⟩ := hprocess q₀ pc₀ hold
        obtain ⟨rfl, rfl⟩ := Activity.process.inj heq
        exact hok
    · exact hprocesses g q pc hgf ((hact_ne g hgf).symm.trans hg)
  · rw [hpast.phase] at hg
    obtain ⟨snd, pc, hact⟩ := h.isSend g q hg
    by_cases hgf : g = f
    · obtain ⟨pc', heq, -⟩ := hsend snd pc (hgf ▸ hact)
      exact ⟨snd, pc', by rw [hgf, hact_self, heq]⟩
    · exact ⟨snd, pc, (hact_ne g hgf).trans hact⟩
  · rw [hpast.phase] at hg
    obtain ⟨pc, hact⟩ := h.isTaken g q g' hg
    obtain ⟨pc', hact', -⟩ := hkeep g' q pc hact
    exact ⟨pc', hact'⟩
  · rw [hpast.phase] at hg
    obtain ⟨pc, hact, hholds⟩ := h.isInvoked g q g' hg
    obtain ⟨pc', hact', hkeeps, -⟩ := hkeep g' q pc hact
    exact ⟨pc', hact', by rw [hmsgOf]; exact hkeeps _ hholds⟩
  · rw [hpast.phase] at hg
    obtain ⟨pc, hact, hcleans⟩ := h.isLast g q g' hg
    obtain ⟨pc', hact', -, hkeeps⟩ := hkeep g' q pc hact
    exact ⟨pc', hact', by rw [hmsgOf]; exact hkeeps _ hcleans⟩

/-- A step of a send that writes at most what belongs to its own message: its
reference count, its flag, and the links of entries still to be enqueued. -/
theorem Inv.moveSend (h : Inv s) (hpast : SamePast s s')
    {snd : Send} {pc pc' : SendPc} (hact : s.acts f = .send snd pc)
    (hacts : s'.acts = update s.acts f (.send snd pc')) (hok : SendOk s' f snd pc')
    (hactive : s'.async ≠ s.async ∨ s'.refs ≠ s.refs → s.retiredBy f = none)
    (hasync : ∀ m, m ≠ snd.msg → s'.async m = s.async m)
    (hrefs : ∀ m, m ≠ snd.msg → s'.refs m = s.refs m)
    (hcounted : s'.async ≠ s.async → ∀ q, s.phase f q = .todo)
    (hnext : ∀ entry, (∀ q ∈ pc.remaining (snd.targets s.count), entry ≠ ⟨snd.msg, q⟩) →
      s'.next entry = s.next entry) : Inv s' := by
  have hmsg : s.msgOf f = snd.msg := msgOf_of_act hact
  have hsendok := h.sends f snd pc hact
  -- another send's message, while it is not recycled, is another message
  have hother : ∀ g snd' pc'', g ≠ f → s.acts g = .send snd' pc'' → s.retiredBy g = none →
      s.retiredBy f = none → snd'.msg ≠ snd.msg := by
    intro g snd' pc'' hg hactg hrg hrf
    exact h.msg_ne hactg hact hrg hrf hg
  -- an entry that is on its way is not one of those still to be enqueued
  have hlink : ∀ g q, s.phase g q ≠ .todo → s.phase g q ≠ .dropped →
      s'.next ⟨s.msgOf g, q⟩ = s.next ⟨s.msgOf g, q⟩ := by
    intro g q htodo hdropped
    obtain ⟨snd', pc'', hactg, hq, hrg, -⟩ := h.owner htodo hdropped
    refine hnext _ fun r hr heq => ?_
    obtain ⟨hm, rfl⟩ := Entry.mk.inj heq
    have hrf := hsendok.not_retired hr
    by_cases hgf : g = f
    · subst hgf
      exact htodo ((hsendok.remaining q (hsendok.within q hr)).mpr hr)
    · exact hother g snd' pc'' hgf hactg hrg hrf (msgOf_of_act hactg ▸ hm)
  have hmsgOf : s'.msgOf = s.msgOf := msgOf_of_update hacts hmsg.symm
  refine h.move hpast (h.lt_spawned (by rw [hact]; simp)) hacts hmsg.symm ?_ ?_
    (by rw [hact]; simp) ?_ ?_ ?_
  · intro snd' pc'' hact'
    obtain ⟨rfl, -⟩ := Activity.send.inj (hact.symm.trans hact')
    exact ⟨pc', rfl, hok⟩
  · intro q pc'' hact'
    rw [hact] at hact'
    cases hact'
  · intro g snd' pc'' hg hactg
    refine (h.sends g snd' pc'' hactg).frame hpast.count
      (fun q => by rw [hpast.phase]; exact .refl _)
      (by rw [hpast.retiredBy]) (fun hrg => ?_) (fun q hq => ?_)
    · refine ⟨by rw [hpast.sender], by rw [hpast.pooled], ?_, ?_⟩
      · by_cases heq : s'.async = s.async
        · rw [heq]
        · exact hasync _ (hother g snd' pc'' hg hactg hrg (hactive (.inl heq)))
      · by_cases heq : s'.refs = s.refs
        · rw [heq]
        · exact hrefs _ (hother g snd' pc'' hg hactg hrg (hactive (.inr heq)))
    · refine hnext _ fun r hr heq => ?_
      obtain ⟨hm, rfl⟩ := Entry.mk.inj heq
      exact hother g snd' pc'' hg hactg ((h.sends g snd' pc'' hactg).not_retired hq)
        (hsendok.not_retired hr) hm
  · intro g q pc'' hg hactg
    refine (h.processes g q pc'' hactg).frame (by rw [hpast.batch]) (by rw [hpast.handled])
      (fun f' => by rw [hpast.phase]) (fun f' _ => by rw [hmsgOf]) (fun f' hf' => ?_)
      (fun f' hf' => ?_) (fun f' hf' => ⟨by rw [hpast.phase, hf'], by rw [hmsgOf]⟩)
    · exact hlink f' q (by rw [hf']; simp) (by rw [hf']; simp)
    · refine ⟨by rw [hpast.phase, hf'], by rw [hmsgOf], ?_⟩
      by_cases heq : s'.async = s.async
      · rw [heq]
      · obtain ⟨snd', pc₁, hact', -, hr', -⟩ :=
          @Inv.owner s h f' q (by rw [hf']; simp) (by rw [hf']; simp)
        have hne : f' ≠ f := by
          rintro rfl
          rw [hcounted heq q] at hf'
          cases hf'
        rw [msgOf_of_act hact']
        exact hasync _ (hother f' snd' pc₁ hne hact' hr' (hactive (.inl heq)))
  · intro q
    refine (h.queue q).frame (fun f' _ => by rw [hmsgOf]) (fun f' hf' => ?_)
    have hqueued := (h.mem_fresh q f').mp (mem_reverse.mp hf')
    exact hlink f' q (by rw [hqueued]; simp) (by rw [hqueued]; simp)

/-- A step of a process activity that writes no memory. -/
theorem Inv.moveProcess (h : Inv s) (hpast : SamePast s s') {pc' : ProcessPc}
    (hact : s.acts g = .process q pc) (hacts : s'.acts = update s.acts g (.process q pc'))
    (hnext : s'.next = s.next) (hasync : s'.async = s.async) (hrefs : s'.refs = s.refs)
    (hok : ∀ rest, PcOk s g q rest pc → PcOk s g q rest pc')
    (hholds : ∀ m, pc.holds m → pc'.holds m) (hcleans : ∀ m, pc.cleans m → pc'.cleans m) :
    Inv s' := by
  have hmsg : s.msgOf g = 0 := by
    rw [State.msgOf, hact]
    rfl
  have hmsgOf : s'.msgOf = s.msgOf := msgOf_of_update hacts hmsg.symm
  have hframe : ∀ g' q' pc'', ProcessOk s g' q' pc'' → ProcessOk s' g' q' pc'' := by
    intro g' q' pc'' hp
    refine hp.frame (by rw [hpast.batch]) (by rw [hpast.handled]) (fun f => by rw [hpast.phase])
      (fun f _ => by rw [hmsgOf]) (fun f _ => by rw [hnext])
      (fun f hf => ⟨by rw [hpast.phase, hf], by rw [hmsgOf], by rw [hasync]⟩)
      (fun f hf => ⟨by rw [hpast.phase, hf], by rw [hmsgOf]⟩)
  refine h.move hpast (h.lt_spawned (by rw [hact]; simp)) hacts hmsg.symm ?_ ?_
    (by rw [hact]; simp) ?_ ?_ ?_
  · intro snd pc'' hact'
    rw [hact] at hact'
    cases hact'
  · intro q' pc'' hact'
    obtain ⟨rfl, rfl⟩ := Activity.process.inj (hact.symm.trans hact')
    refine ⟨pc', rfl, hframe _ _ _ ?_, hholds, hcleans⟩
    obtain ⟨rest, hb, hnodup, hmem, hpc⟩ := h.processes g q pc hact
    exact ⟨rest, hb, hnodup, hmem, hok rest hpc⟩
  · intro g' snd pc'' _ hactg
    exact (h.sends g' snd pc'' hactg).frame hpast.count
      (fun q => by rw [hpast.phase]; exact .refl _) (by rw [hpast.retiredBy])
      (fun _ => ⟨by rw [hpast.sender], by rw [hpast.pooled], by rw [hasync], by rw [hrefs]⟩)
      (fun _ _ => by rw [hnext])
  · exact fun g' q' pc'' _ hactg => hframe _ _ _ (h.processes g' q' pc'' hactg)
  · exact fun q' => (h.queue q').frame (fun _ _ => by rw [hmsgOf]) (fun _ _ => by rw [hnext])

end Literate.Kernel.Message

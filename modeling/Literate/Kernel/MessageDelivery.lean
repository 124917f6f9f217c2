import Literate.Kernel.MessageSteps

/-!
# Kernel: delivery of inter-processor messages

What the senders and the processing loop promise together, stated over the memory
and the log of what happened: every enqueued message is handled exactly once by each
of its targets, in the order in which one exchange took it, the reference count says
when everybody is done, and the message goes back to the pool once, when nobody can
read it any more.

Two invariants carry the result.  `Inv` follows the phases of the entries, `LogOk`
the order of the log.
-/

namespace Literate.Kernel.Message

open Foundation Function List Option
open Event (enqueue drop)
open Function (update)

/-! ## What is promised -/

/-- The entry is on the list from pointer `p`. -/
def OnList (s : State) (p : Option Entry) (entry : Entry) : Prop :=
  ∃ l, Linked s.next p l ∧ entry ∈ l

/-- A process activity still has to read the entry. -/
def ProcessPc.reads (s : State) (entry : Entry) : ProcessPc → Prop
  | .reverse list rev => OnList s list entry ∨ OnList s rev entry
  | .loop cur => OnList s cur entry
  | .invoke cur next => entry = cur ∨ OnList s next entry
  | .readAsync _ next => OnList s next entry
  | .fetchSub _ _ next => OnList s next entry
  | .cleanup _ next => OnList s next entry
  | .checkHalt next => OnList s next entry
  | _ => False

/-- The entry is in some queue or still has to be read. -/
def Pending (s : State) (entry : Entry) : Prop :=
  (∃ q, OnList s (s.queue q) entry) ∨
    ∃ g q pc, s.acts g = .process q pc ∧ pc.reads s entry

/-- Some processor has the message in a queue or in hand, or holds a reference. -/
def InUse (s : State) (msg : Nat) : Prop :=
  (∃ q, Pending s ⟨msg, q⟩) ∨ ∃ g q pc, s.acts g = .process q pc ∧ pc.holds msg

/-- Some activity is about to clean the message up. -/
def AboutToRetire (s : State) (msg : Nat) : Prop :=
  (∃ f snd, s.acts f = .send snd .cleanup ∧ snd.msg = msg) ∨
    ∃ g q pc, s.acts g = .process q pc ∧ pc.cleans msg

def Event.isRetire (f : Nat) : Event → Bool
  | .retire g _ => g == f
  | _ => false

def Event.dropOf (f : Nat) : Event → Option Nat
  | .drop g q => if g = f then some q else none
  | _ => none

/-- The processor that gave up the last reference of send `f` so far. -/
def lastDrop (log : List Event) (f : Nat) : Option Nat :=
  log.reverse.findSome? (Event.dropOf f)

structure Delivered (s : State) : Prop where
  /-- a message is enqueued for its targets only -/
  enqueued : ∀ f q, enqueue f q ∈ s.log →
    ∃ snd pc, s.acts f = .send snd pc ∧ q ∈ snd.targets s.count
  /-- and for all of them, as far as the send has come -/
  sent : ∀ f snd pc, s.acts f = .send snd pc → ∀ q ∈ snd.targets s.count,
    enqueue f q ∈ s.log ∨ q ∈ pc.remaining (snd.targets s.count)
  enqueuedOnce : ∀ f q, s.log.count (.enqueue f q) ≤ 1
  /-- a processor handles what was enqueued for it, at most once -/
  handledOnce : ∀ f q, s.log.count (.invoke f q) ≤ s.log.count (.enqueue f q)
  /-- what it has not handled is in its queue or in its hands -/
  notLost : ∀ f q, enqueue f q ∈ s.log →
    Event.invoke f q ∈ s.log ∨ Pending s ⟨s.msgOf f, q⟩ ∧ s.sender (s.msgOf f) = f
  /-- the queue holds the messages enqueued since the last exchange, newest first -/
  queue : ∀ q, Linked s.next (s.queue q) ((s.fresh q).reverse.map fun f => ⟨s.msgOf f, q⟩) ∧
    ((s.fresh q).map (enqueue · q)).Sublist s.log
  /-- the messages of one exchange are handled in the order they were enqueued in -/
  ordered : ∀ g q pc, s.acts g = .process q pc →
    ((s.batch g).map (enqueue · q)).Sublist s.log ∧
      ((s.handled g).map (Event.invoke · q)).Sublist s.log ∧
        s.handled g <+: s.batch g ∧ (pc = .done → s.handled g = s.batch g)
  /-- `VERIFY(prev_refs != 0)` holds -/
  noUnderflow : ∀ g q, s.acts g ≠ .process q .verifyFailed
  /-- no reference is left only when every target has handled the message -/
  refs : ∀ f snd pc, s.acts f = .send snd pc → pc.counted → s.refs snd.msg = 0 →
    ∀ q ∈ snd.targets s.count, Event.invoke f q ∈ s.log
  /-- a synchronous sender leaves the waiting loop only then -/
  waited : ∀ f snd pc, s.acts f = .send snd pc → snd.async = false →
    pc = .cleanup ∨ pc = .done → ∀ q ∈ snd.targets s.count, Event.invoke f q ∈ s.log
  retiredOnce : ∀ f, s.log.countP (Event.isRetire f) ≤ 1
  /-- the sender of a synchronous message cleans it up, and the last processor of an
  asynchronous one, after every target has handled it -/
  retired : ∀ f g, Event.retire f g ∈ s.log → ∃ snd pc, s.acts f = .send snd pc ∧
    (∀ q ∈ snd.targets s.count, Event.invoke f q ∈ s.log) ∧
      if snd.async then
        ∃ q pc', s.acts g = .process q pc' ∧ q ∈ snd.targets s.count ∧ f ∈ s.handled g ∧
          lastDrop s.log f = some q
      else g = f
  /-- it is not forgotten -/
  retireDue : ∀ f snd pc, s.acts f = .send snd pc →
    (if snd.async then ∀ q ∈ snd.targets s.count, Event.invoke f q ∈ s.log else pc = .done) →
      (∃ g, Event.retire f g ∈ s.log) ∨ snd.async = true ∧
        ∃ g q pc', s.acts g = .process q pc' ∧ (pc'.holds snd.msg ∨ pc'.cleans snd.msg)
  /-- nobody can read a message that is cleaned up or in the pool -/
  retireUnused : ∀ m, AboutToRetire s m → ¬ InUse s m ∧ s.pooled m = false
  pooledUnused : ∀ m, s.pooled m = true → ¬ InUse s m

/-! ## The order of the log -/

theorem lastDrop_append (log : List Event) (event : Event) (f : Nat) :
    lastDrop (log ++ [event]) f = (event.dropOf f).or (lastDrop log f) := by
  simp [lastDrop, List.findSome?_cons]
  cases event.dropOf f <;> rfl

/-- What the log says about the order of things. -/
structure LogOk (s : State) : Prop where
  fresh : ∀ q, ((s.fresh q).map (enqueue · q)).Sublist s.log
  batch : ∀ g q pc, s.acts g = .process q pc →
    ((s.batch g).map (enqueue · q)).Sublist s.log
  handled : ∀ g q pc, s.acts g = .process q pc →
    ((s.handled g).map (Event.invoke · q)).Sublist s.log
  invoked : ∀ f q g, s.phase f q = .invoked g → f ∈ s.handled g
  last : ∀ f q g, s.phase f q = .last g → f ∈ s.handled g ∧ lastDrop s.log f = some q
  retired : ∀ f g, s.retiredBy f = some g → g = f ∨
    ∃ q pc, s.acts g = .process q pc ∧ f ∈ s.handled g ∧ lastDrop s.log f = some q
  isSend : ∀ f g, s.retiredBy f = some g → ∃ snd pc, s.acts f = .send snd pc

variable {s' : State} {k f g q m : Nat} {pc : ProcessPc}

theorem LogOk.move {s : State} (h : LogOk s) {act : Activity}
    {events : List Event} (hacts : s'.acts = update s.acts k act)
    (hkeepSend : ∀ snd pc, s.acts k = .send snd pc → ∃ pc', act = .send snd pc')
    (hkeep : ∀ q pc, s.acts k = .process q pc → ∃ pc', act = .process q pc')
    (hlog : s'.log = s.log ++ events) (hfresh : ∀ q, s'.fresh q = s.fresh q ∨ s'.fresh q = [] ∨
      ∃ f, s'.fresh q = s.fresh q ++ [f] ∧ events = [enqueue f q])
    (hbatch : ∀ g, g ≠ k → s'.batch g = s.batch g)
    (hhandled : ∀ g, g ≠ k → s'.handled g = s.handled g)
    (hgrow : ∀ f, f ∈ s.handled k → f ∈ s'.handled k)
    (hself : ∀ q pc, act = .process q pc →
      ((s'.batch k).map (enqueue · q)).Sublist s'.log ∧
        ((s'.handled k).map (Event.invoke · q)).Sublist s'.log)
    (hinvoked : ∀ f q g, s'.phase f q = .invoked g →
      s.phase f q = .invoked g ∨ f ∈ s'.handled g)
    (hlast : ∀ f q g, s'.phase f q = .last g →
      s.phase f q = .last g ∧ lastDrop s'.log f = lastDrop s.log f ∨
        s.phase f q = .invoked g ∧ lastDrop s'.log f = some q)
    (hretired : ∀ f g, s'.retiredBy f = some g → g = f ∨
      lastDrop s'.log f = lastDrop s.log f ∧ (s.retiredBy f = some g ∨
        ∃ q pc, s.phase f q = .last g ∧ s.acts g = .process q pc))
    (hisSend : ∀ f g, s'.retiredBy f = some g →
      s.retiredBy f = some g ∨ ∃ snd pc, s.acts f = .send snd pc) : LogOk s' := by
  have hgrown : s.log.Sublist s'.log := by
    rw [hlog]
    exact sublist_append_left _ _
  have hhandled' : ∀ f g, f ∈ s.handled g → f ∈ s'.handled g := by
    intro f g hf
    rcases eq_or_ne g k with rfl | hg
    · exact hgrow f hf
    · rwa [hhandled g hg]
  have hprocess : ∀ g q pc, s.acts g = .process q pc → ∃ pc', s'.acts g = .process q pc' := by
    intro g q pc hg
    rw [hacts]
    rcases eq_or_ne g k with rfl | hne
    · obtain ⟨pc', rfl⟩ := hkeep q pc hg
      exact ⟨pc', update_self _ _ _⟩
    · exact ⟨pc, by rw [update_of_ne hne, hg]⟩
  refine ⟨fun q => ?_, fun g q pc hg => ?_, fun g q pc hg => ?_, fun f q g hp => ?_,
    fun f q g hp => ?_, fun f g hr => ?_, fun f g hr => ?_⟩
  · rcases hfresh q with heq | heq | ⟨f, heq, hevents⟩
    · rw [heq]
      exact (h.fresh q).trans hgrown
    · rw [heq]
      exact nil_sublist _
    · rw [heq, hlog, hevents, map_append]
      exact (h.fresh q).append (List.Sublist.refl _)
  · rw [hacts] at hg
    rcases eq_or_ne g k with rfl | hne
    · rw [update_self] at hg
      exact (hself q pc hg).1
    · rw [update_of_ne hne] at hg
      rw [hbatch g hne]
      exact (h.batch g q pc hg).trans hgrown
  · rw [hacts] at hg
    rcases eq_or_ne g k with rfl | hne
    · rw [update_self] at hg
      exact (hself q pc hg).2
    · rw [update_of_ne hne] at hg
      rw [hhandled g hne]
      exact (h.handled g q pc hg).trans hgrown
  · rcases hinvoked f q g hp with hp' | hf
    · exact hhandled' f g (h.invoked f q g hp')
    · exact hf
  · rcases hlast f q g hp with ⟨hp', hsame⟩ | ⟨hp', hdrop⟩
    · obtain ⟨hf, hq⟩ := h.last f q g hp'
      exact ⟨hhandled' f g hf, hsame.trans hq⟩
    · exact ⟨hhandled' f g (h.invoked f q g hp'), hdrop⟩
  · rcases hretired f g hr with rfl | ⟨hsame, hr' | ⟨q, pc, hp, hg⟩⟩
    · exact .inl rfl
    · rcases h.retired f g hr' with rfl | ⟨q, pc, hg, hf, hq⟩
      · exact .inl rfl
      · obtain ⟨pc', hg'⟩ := hprocess g q pc hg
        exact .inr ⟨q, pc', hg', hhandled' f g hf, hsame.trans hq⟩
    · obtain ⟨hf, hq⟩ := h.last f q g hp
      obtain ⟨pc', hg'⟩ := hprocess g q pc hg
      exact .inr ⟨q, pc', hg', hhandled' f g hf, hsame.trans hq⟩
  · have hold : ∃ snd pc, s.acts f = .send snd pc := by
      rcases hisSend f g hr with hr' | hsend
      · exact h.isSend f g hr'
      · exact hsend
    obtain ⟨snd, pc, hf⟩ := hold
    rw [hacts]
    rcases eq_or_ne f k with rfl | hne
    · obtain ⟨pc', rfl⟩ := hkeepSend snd pc hf
      exact ⟨snd, pc', update_self _ _ _⟩
    · exact ⟨snd, pc, by rw [update_of_ne hne, hf]⟩

theorem LogOk.quiet {s : State} (h : LogOk s) {act : Activity}
    (hacts : s'.acts = update s.acts k act)
    (hkeepSend : ∀ snd pc, s.acts k = .send snd pc → ∃ pc', act = .send snd pc')
    (hkeep : ∀ q pc, s.acts k = .process q pc → ∃ pc', act = .process q pc')
    (hback : ∀ q pc', act = .process q pc' →
      (∃ pc, s.acts k = .process q pc) ∨ s.batch k = [] ∧ s.handled k = [])
    (hfresh : s'.fresh = s.fresh) (hbatch : s'.batch = s.batch)
    (hhandled : s'.handled = s.handled) (hphase : s'.phase = s.phase)
    (hretired : s'.retiredBy = s.retiredBy) (hlog : s'.log = s.log) : LogOk s' := by
  refine h.move hacts hkeepSend hkeep (by rw [hlog, append_nil]) (fun q => .inl (by rw [hfresh]))
    (fun g _ => by rw [hbatch]) (fun g _ => by rw [hhandled]) (fun f hf => by rwa [hhandled])
    (fun q pc' hact => ?_) (fun f q g hp => .inl (by rwa [hphase] at hp))
    (fun f q g hp => .inl ⟨by rwa [hphase] at hp, by rw [hlog]⟩)
    (fun f g hr => .inr ⟨by rw [hlog], .inl (by rwa [hretired] at hr)⟩)
    (fun f g hr => .inl (by rwa [hretired] at hr))
  rw [hbatch, hhandled, hlog]
  rcases hback q pc' hact with ⟨pc, hk⟩ | ⟨hb, hh⟩
  · exact ⟨h.batch k q pc hk, h.handled k q pc hk⟩
  · rw [hb, hh]
    exact ⟨nil_sublist _, nil_sublist _⟩

theorem logOk_sendStep {s : State} (h : LogOk s) (hinv : Inv s) {snd : Send} {pc : SendPc}
    (hact : s.acts f = .send snd pc) (hstep : Message.sendStep s f snd pc = some s') :
    LogOk s' := by
  have hkeep : ∀ pc', ∀ q pc₀, s.acts f = .process q pc₀ →
      ∃ pc₁, Activity.send snd pc' = .process q pc₁ := by
    intro pc' q pc₀ hf
    rw [hact] at hf
    cases hf
  have hkeepSend : ∀ pc', ∀ snd₀ pc₀, s.acts f = .send snd₀ pc₀ →
      ∃ pc₁, Activity.send snd pc' = .send snd₀ pc₁ := by
    intro pc' snd₀ pc₀ hf
    obtain ⟨rfl, -⟩ := Activity.send.inj (hact.symm.trans hf)
    exact ⟨pc', rfl⟩
  have hquiet : ∀ {s'' : State} (pc'), s''.acts = update s.acts f (.send snd pc') →
      s''.fresh = s.fresh → s''.batch = s.batch → s''.handled = s.handled →
      s''.phase = s.phase → s''.retiredBy = s.retiredBy → s''.log = s.log → LogOk s'' :=
    fun pc' hacts hfresh hbatch hhandled hphase hretired hlog =>
      h.quiet hacts (hkeepSend pc') (hkeep pc') (fun _ _ heq => by cases heq) hfresh hbatch hhandled hphase
        hretired hlog
  cases pc with
  | verifyRefs =>
    obtain ⟨-, heq⟩ := ite_none_right_eq_some.mp hstep
    cases heq
    exact hquiet _ rfl rfl rfl rfl rfl rfl rfl
  | exchange target rest need next =>
    simp only [Message.sendStep] at hstep
    split at hstep <;> cases hstep
    · refine h.move rfl (hkeepSend _) (hkeep _) rfl (fun q => ?_)
        (fun _ _ => rfl) (fun _ _ => rfl) (fun _ hf => hf) (fun _ _ heq => by cases heq)
        (fun g q k hp => .inl ?_) (fun g q k hp => .inl ⟨?_, ?_⟩)
        (fun g k hr => .inr ⟨?_, .inl hr⟩) (fun _ _ hr => .inl hr)
      · rcases eq_or_ne q target with rfl | hq
        · exact .inr (.inr ⟨f, update_self _ _ _, rfl⟩)
        · exact .inl (update_of_ne hq _ _)
      · change ((Message.enqueued s f snd.msg target next).phase g q) = _ at hp
        rw [Message.enqueued, State.setPhase_phase] at hp
        split at hp
        · cases hp
        · exact hp
      · change ((Message.enqueued s f snd.msg target next).phase g q) = _ at hp
        rw [Message.enqueued, State.setPhase_phase] at hp
        split at hp
        · cases hp
        · exact hp
      · exact lastDrop_append _ _ _
      · exact lastDrop_append _ _ _
    · exact hquiet _ rfl rfl rfl rfl rfl rfl rfl
  | ipi need =>
    cases hstep
    cases need <;> exact hquiet _ rfl rfl rfl rfl rfl rfl rfl
  | verifySync =>
    obtain ⟨-, heq⟩ := ite_none_left_eq_some.mp hstep
    cases heq
    exact hquiet _ rfl rfl rfl rfl rfl rfl rfl
  | wait =>
    simp only [Message.sendStep] at hstep
    split at hstep <;> cases hstep
    · exact hquiet _ rfl rfl rfl rfl rfl rfl rfl
    · exact h
  | cleanup =>
    cases hstep
    have hok := hinv.sends f snd _ hact
    have hretired : s.retiredBy f = none := by
      by_contra hr
      have hasync := hok.async_of_retired (by simp) hr
      rw [hok.waits trivial] at hasync
      cases hasync
    refine h.move rfl (hkeepSend _) (hkeep _) rfl
      (fun _ => .inl rfl)
      (fun _ _ => rfl) (fun _ _ => rfl) (fun _ hf => hf) (fun _ _ heq => by cases heq)
      (fun _ _ _ hp => .inl hp) (fun _ _ _ hp => .inl ⟨hp, lastDrop_append _ _ _⟩)
      (fun g k hr => ?_) (fun g k hr => ?_)
    · change update s.retiredBy (s.sender snd.msg) (some f) g = some k at hr
      rw [hok.sender hretired] at hr
      rcases eq_or_ne g f with rfl | hg
      · rw [update_self] at hr
        exact .inl (some.inj hr).symm
      · rw [update_of_ne hg] at hr
        exact .inr ⟨lastDrop_append _ _ _, .inl hr⟩
    · change update s.retiredBy (s.sender snd.msg) (some f) g = some k at hr
      rw [hok.sender hretired] at hr
      rcases eq_or_ne g f with rfl | hg
      · exact .inr ⟨snd, _, hact⟩
      · rw [update_of_ne hg] at hr
        exact .inl hr
  | done => cases hstep
  | _ => cases hstep; exact hquiet _ rfl rfl rfl rfl rfl rfl rfl

theorem logOk_processStep {s : State} (h : LogOk s) (hinv : Inv s) (hact : s.acts g = .process q pc)
    (hstep : Message.processStep s g q pc = some s') : LogOk s' := by
  have hkeep : ∀ pc', ∀ r pc₀, s.acts g = .process r pc₀ →
      ∃ pc₁, Activity.process q pc' = .process r pc₁ := by
    intro pc' r pc₀ hg
    obtain ⟨rfl, -⟩ := Activity.process.inj (hact.symm.trans hg)
    exact ⟨pc', rfl⟩
  have hkeepSend : ∀ pc', ∀ snd₀ pc₀, s.acts g = .send snd₀ pc₀ →
      ∃ pc₁, Activity.process q pc' = .send snd₀ pc₁ := by
    intro pc' snd₀ pc₀ hg
    rw [hact] at hg
    cases hg
  have hquiet : ∀ {s'' : State} (pc'), s''.acts = update s.acts g (.process q pc') →
      s''.fresh = s.fresh → s''.batch = s.batch → s''.handled = s.handled →
      s''.phase = s.phase → s''.retiredBy = s.retiredBy → s''.log = s.log → LogOk s'' := by
    intro s'' pc' hacts hfresh hbatch hhandled hphase hretired hlog
    refine h.quiet hacts (hkeepSend pc') (hkeep pc') ?_ hfresh hbatch hhandled hphase hretired hlog
    rintro _ _ ⟨⟩
    exact .inl ⟨pc, hact⟩
  obtain ⟨rest, hb, -, -, hpc⟩ := hinv.processes g q pc hact
  cases pc with
  | exchange =>
    simp only [Message.processStep] at hstep
    split at hstep <;> cases hstep
    · exact hquiet _ rfl rfl rfl rfl rfl rfl rfl
    · refine h.move rfl (hkeepSend _) (hkeep _) (append_nil _).symm (fun r => ?_)
        (fun k hk => update_of_ne hk _ _) (fun _ _ => rfl) (fun _ hf => hf)
        ?_ (fun f r k hp => .inl ?_) (fun f r k hp => .inl ⟨?_, rfl⟩)
        (fun _ _ hr => .inr ⟨rfl, .inl hr⟩) (fun _ _ hr => .inl hr)
      · rcases eq_or_ne r q with rfl | hr
        · exact .inr (.inl (update_self _ _ _))
        · exact .inl (update_of_ne hr _ _)
      · rintro _ _ ⟨⟩
        refine ⟨?_, h.handled g q _ hact⟩
        change ((update s.batch g (s.fresh q) g).map _).Sublist s.log
        rw [update_self]
        exact h.fresh q
      · change (if r = q ∧ s.phase f r = .queued then Phase.taken g else s.phase f r) = _ at hp
        split at hp
        · cases hp
        · exact hp
      · change (if r = q ∧ s.phase f r = .queued then Phase.taken g else s.phase f r) = _ at hp
        split at hp
        · cases hp
        · exact hp
  | reverse list rev => cases list <;> cases hstep <;> exact hquiet _ rfl rfl rfl rfl rfl rfl rfl
  | loop cur => cases cur <;> cases hstep <;> exact hquiet _ rfl rfl rfl rfl rfl rfl rfl
  | invoke cur next =>
    cases hstep
    have hphase : ∀ f r x, (Message.invoked s g q cur).phase f r = x →
        f = s.sender cur.msg ∧ r = q ∧ x = .invoked g ∨ s.phase f r = x := by
      intro f r x hp
      rw [Message.invoked, State.setPhase_phase] at hp
      split at hp
      · rename_i hfr
        exact .inl ⟨hfr.1, hfr.2, hp.symm⟩
      · exact .inr hp
    have hhandled_self : (Message.invoked s g q cur).handled g =
        s.handled g ++ [s.sender cur.msg] := update_self _ _ _
    refine h.move rfl (hkeepSend _) (hkeep _) rfl
      (fun _ => .inl rfl) (fun _ _ => rfl) (fun k hk => update_of_ne hk _ _)
      (fun f hf => ?_) ?_ (fun f r k hp => ?_) (fun f r k hp => .inl ⟨?_, ?_⟩)
      (fun _ _ hr => .inr ⟨lastDrop_append _ _ _, .inl hr⟩) (fun _ _ hr => .inl hr)
    · change f ∈ (Message.invoked s g q cur).handled g
      rw [hhandled_self]
      exact mem_append_left _ hf
    · rintro _ _ ⟨⟩
      refine ⟨(h.batch g q _ hact).trans (sublist_append_left _ _), ?_⟩
      change (((Message.invoked s g q cur).handled g).map _).Sublist _
      rw [hhandled_self, map_append]
      exact (h.handled g q _ hact).append (List.Sublist.refl _)
    · rcases hphase f r _ hp with ⟨rfl, -, heq⟩ | hp'
      · obtain rfl := Phase.invoked.inj heq
        refine .inr ?_
        change _ ∈ (Message.invoked s k q cur).handled k
        rw [hhandled_self]
        exact mem_append_right _ mem_cons_self
      · exact .inl hp'
    · rcases hphase f r _ hp with ⟨-, -, heq⟩ | hp'
      · cases heq
      · exact hp'
    · exact lastDrop_append _ _ _
  | fetchSub msg async next =>
    obtain ⟨-, f, rfl, hf, -⟩ := hpc
    obtain ⟨snd, pcf, hactf, hq, hrf, hsf, -, -, hpos⟩ := hinv.refs_pos hf
    have hmsg : s.msgOf f = snd.msg := msgOf_of_act hactf
    have hok := hinv.sends f snd pcf hactf
    rw [Message.processStep, hmsg, if_neg hpos.ne', hsf] at hstep
    cases hstep
    generalize hx : (if s.refs snd.msg = 1 ∧ async then Phase.last g else .dropped) = x
    have hxne : ∀ k, x ≠ .invoked k := by
      intro k
      rw [← hx]
      split <;> simp
    have hphase : ∀ f' r y, (s.setPhase f q x).phase f' r = y →
        f' = f ∧ r = q ∧ y = x ∨ s.phase f' r = y := by
      intro f' r y hp
      rw [State.setPhase_phase] at hp
      split at hp
      · rename_i hfr
        exact .inl ⟨hfr.1, hfr.2, hp.symm⟩
      · exact .inr hp
    have hdrop_ne : ∀ f', f' ≠ f →
        lastDrop (s.log ++ [drop f q]) f' = lastDrop s.log f' := by
      intro f' hne
      rw [lastDrop_append, Event.dropOf, if_neg hne.symm]
      rfl
    refine h.move rfl (hkeepSend _) (hkeep _) rfl (fun _ => .inl rfl)
      (fun _ _ => rfl) (fun _ _ => rfl) (fun _ hf => hf) ?_ (fun f' r k hp => ?_)
      (fun f' r k hp => ?_) (fun f' k hr => .inr ⟨?_, .inl hr⟩) (fun _ _ hr => .inl hr)
    · rintro _ _ ⟨⟩
      exact ⟨(h.batch g q _ hact).trans (sublist_append_left _ _),
        (h.handled g q _ hact).trans (sublist_append_left _ _)⟩
    · rcases hphase f' r _ hp with ⟨-, -, heq⟩ | hp'
      · exact absurd heq.symm (hxne k)
      · exact .inl hp'
    · change _ ∧ lastDrop (s.log ++ [drop f q]) f' = _ ∨
        _ ∧ lastDrop (s.log ++ [drop f q]) f' = _
      rcases hphase f' r _ hp with ⟨rfl, rfl, heq⟩ | hp'
      · refine .inr ⟨?_, by rw [lastDrop_append, Event.dropOf, if_pos rfl]; rfl⟩
        rw [← hx] at heq
        split at heq
        · obtain rfl := Phase.last.inj heq
          exact hf
        · cases heq
      · rcases eq_or_ne f' f with rfl | hne
        -- a send with a last target has no other target that holds a reference
        · rcases eq_or_ne r q with rfl | hrq
          · rw [hf] at hp'
            cases hp'
          · have hdropped := (hok.last r k hp').2 q hq hrq.symm
            rw [hf] at hdropped
            cases hdropped
        · exact .inl ⟨hp', hdrop_ne f' hne⟩
    · refine hdrop_ne f' ?_
      rintro rfl
      rw [show s.retiredBy f' = some k from hr] at hrf
      cases hrf
  | cleanup msg next =>
    cases hstep
    obtain ⟨-, f, rfl, hf⟩ := hpc
    obtain ⟨snd, pcf, hactf, -, -, hsf⟩ :=
      @Inv.owner s hinv f q (by rw [hf]; simp) (by rw [hf]; simp)
    rw [hsf]
    have hphase : ∀ f' r y, ((s.retire (s.msgOf f) g).setPhase f q .dropped).phase f' r = y →
        y ≠ .dropped → s.phase f' r = y := by
      intro f' r y hp hy
      rw [State.setPhase_phase] at hp
      split at hp
      · exact absurd hp.symm hy
      · exact hp
    refine h.move rfl (hkeepSend _) (hkeep _) rfl
      (fun _ => .inl rfl) (fun _ _ => rfl) (fun _ _ => rfl) (fun _ hf => hf) ?_
      (fun f' r k hp => .inl (hphase f' r _ hp (by simp)))
      (fun f' r k hp => .inl ⟨hphase f' r _ hp (by simp), lastDrop_append _ _ _⟩)
      (fun f' k hr => .inr ⟨lastDrop_append _ _ _, ?_⟩) (fun f' k hr => ?_)
    · rintro _ _ ⟨⟩
      exact ⟨(h.batch g q _ hact).trans (sublist_append_left _ _),
        (h.handled g q _ hact).trans (sublist_append_left _ _)⟩
    · change update s.retiredBy (s.sender (s.msgOf f)) (some g) f' = some k at hr
      rw [hsf] at hr
      rcases eq_or_ne f' f with rfl | hne
      · rw [update_self] at hr
        obtain rfl := some.inj hr
        exact .inr ⟨q, _, hf, hact⟩
      · rw [update_of_ne hne] at hr
        exact .inl hr
    · change update s.retiredBy (s.sender (s.msgOf f)) (some g) f' = some k at hr
      rw [hsf] at hr
      rcases eq_or_ne f' f with rfl | hne
      · exact .inr ⟨snd, pcf, hactf⟩
      · rw [update_of_ne hne] at hr
        exact .inl hr
  | readAsync msg next => cases hstep; exact hquiet _ rfl rfl rfl rfl rfl rfl rfl
  | checkHalt next => cases hstep; exact hquiet _ rfl rfl rfl rfl rfl rfl rfl
  | checkHaltEmpty => cases hstep; exact hquiet _ rfl rfl rfl rfl rfl rfl rfl
  | done => cases hstep
  | halted => cases hstep
  | verifyFailed => cases hstep

theorem logOk_step {s : State} {a : Action} (h : LogOk s) (hinv : Inv s)
    (hstep : step s a = some s') : LogOk s' := by
  obtain ⟨hnone, hbatch, hhandled, -, -⟩ := hinv.unborn s.spawned le_rfl
  have hkeep : ∀ act : Activity, ∀ q pc, s.acts s.spawned = .process q pc →
      ∃ pc', act = .process q pc' := by
    intro act q pc hact
    rw [hnone] at hact
    cases hact
  have hkeepSend : ∀ act : Activity, ∀ snd pc, s.acts s.spawned = .send snd pc →
      ∃ pc', act = .send snd pc' := by
    intro act snd pc hact
    rw [hnone] at hact
    cases hact
  cases a with
  | send snd =>
    obtain ⟨-, heq⟩ := ite_none_right_eq_some.mp hstep
    cases heq
    exact h.quiet rfl (hkeepSend _) (hkeep _) (fun _ _ heq => by cases heq) rfl rfl rfl rfl rfl rfl
  | process proc =>
    obtain ⟨-, heq⟩ := ite_none_right_eq_some.mp hstep
    cases heq
    exact h.quiet rfl (hkeepSend _) (hkeep _) (fun _ _ _ => .inr ⟨hbatch, hhandled⟩) rfl rfl rfl rfl rfl rfl
  | requestHalt proc =>
    cases hstep
    exact ⟨h.fresh, h.batch, h.handled, h.invoked, h.last, h.retired, h.isSend⟩
  | step f =>
    simp only [step] at hstep
    split at hstep
    · cases hstep
    · rename_i snd pc hact
      exact logOk_sendStep h hinv hact hstep
    · rename_i proc pc hact
      exact logOk_processStep h hinv hact hstep

/-! ## Which entries are pending -/

variable {s : State}

theorem Chain.onList_iff {p : Option Entry} {fs : List Nat} (h : Chain s q p fs) {entry : Entry} :
    OnList s p entry ↔ ∃ f ∈ fs, entry = ⟨s.msgOf f, q⟩ := by
  constructor
  · rintro ⟨l, hl, hmem⟩
    rw [hl.unique h] at hmem
    obtain ⟨f, hf, rfl⟩ := List.mem_map.mp hmem
    exact ⟨f, hf, rfl⟩
  · rintro ⟨f, hf, rfl⟩
    exact ⟨_, h, List.mem_map_of_mem hf⟩

/-- An activity still has to read the entries that it took and has not handled. -/
theorem PcOk.reads_iff {rest : List Nat} (h : PcOk s g q rest pc) {entry : Entry} :
    pc.reads s entry ↔ ∃ f ∈ rest, entry = ⟨s.msgOf f, q⟩ := by
  cases pc with
  | exchange =>
    rw [h.2]
    simp [ProcessPc.reads]
  | reverse list rev =>
    obtain ⟨-, l₁, l₂, h₁, h₂, rfl⟩ := h
    simp only [ProcessPc.reads, h₁.onList_iff, h₂.onList_iff, mem_append, mem_reverse]
    constructor
    · rintro (⟨f, hf, heq⟩ | ⟨f, hf, heq⟩)
      · exact ⟨f, .inl hf, heq⟩
      · exact ⟨f, .inr hf, heq⟩
    · rintro ⟨f, hf | hf, heq⟩
      · exact .inl ⟨f, hf, heq⟩
      · exact .inr ⟨f, hf, heq⟩
  | loop cur => exact Chain.onList_iff h
  | invoke cur next =>
    obtain ⟨f, t, rfl, rfl, ht⟩ := h
    simp [ProcessPc.reads, ht.onList_iff]
  | readAsync msg next => exact h.1.onList_iff
  | fetchSub msg async next => exact h.1.onList_iff
  | cleanup msg next => exact h.1.onList_iff
  | checkHalt next => exact Chain.onList_iff h
  | checkHaltEmpty =>
    rw [show rest = [] from h]
    simp [ProcessPc.reads]
  | done =>
    rw [show rest = [] from h]
    simp [ProcessPc.reads]
  | halted => exact h.elim
  | verifyFailed => exact h.elim

section

variable (h : Inv s)

include h

theorem Inv.pending_iff {entry : Entry} : Pending s entry ↔ ∃ f, entry.msg = s.msgOf f ∧
      (s.phase f entry.proc = .queued ∨ ∃ g, s.phase f entry.proc = .taken g) := by
  constructor
  · rintro (⟨q, hq⟩ | ⟨g, q, pc, hact, hreads⟩)
    · obtain ⟨f, hf, rfl⟩ := (h.queue q).onList_iff.mp hq
      exact ⟨f, rfl, .inl ((h.mem_fresh q f).mp (mem_reverse.mp hf))⟩
    · obtain ⟨rest, -, -, hmem, hpc⟩ := h.processes g q pc hact
      obtain ⟨f, hf, rfl⟩ := hpc.reads_iff.mp hreads
      exact ⟨f, rfl, .inr ⟨g, (hmem f).mp hf⟩⟩
  · obtain ⟨msg, q⟩ := entry
    rintro ⟨f, rfl, hf | ⟨g, hf⟩⟩
    · exact .inl ⟨q, (h.queue q).onList_iff.mpr
        ⟨f, mem_reverse.mpr ((h.mem_fresh q f).mpr hf), rfl⟩⟩
    · obtain ⟨pc, hact⟩ := h.isTaken f q g hf
      obtain ⟨rest, -, -, hmem, hpc⟩ := h.processes g q pc hact
      exact .inr ⟨g, q, pc, hact, hpc.reads_iff.mpr ⟨f, (hmem f).mpr hf, rfl⟩⟩

/-- A process activity that holds a message or has to clean it up is in that phase for
the send it was enqueued by. -/
theorem Inv.of_holds (hact : s.acts g = .process q pc) (hpc : pc.holds m) :
    ∃ f, m = s.msgOf f ∧ s.phase f q = .invoked g := by
  obtain ⟨rest, -, -, -, hok⟩ := h.processes g q pc hact
  cases pc with
  | readAsync msg next =>
    obtain ⟨-, f, hmsg, hf⟩ := hok
    exact ⟨f, hpc.symm.trans hmsg, hf⟩
  | fetchSub msg async next =>
    obtain ⟨-, f, hmsg, hf, -⟩ := hok
    exact ⟨f, hpc.symm.trans hmsg, hf⟩
  | _ => exact hpc.elim

theorem Inv.of_cleans (hact : s.acts g = .process q pc) (hpc : pc.cleans m) :
    ∃ f, m = s.msgOf f ∧ s.phase f q = .last g := by
  obtain ⟨rest, -, -, -, hok⟩ := h.processes g q pc hact
  cases pc with
  | cleanup msg next =>
    obtain ⟨-, f, hmsg, hf⟩ := hok
    exact ⟨f, hpc.symm.trans hmsg, hf⟩
  | _ => exact hpc.elim

/-- A message in use is that of a send with a reference that is still counted. -/
theorem Inv.of_inUse (hm : InUse s m) :
    ∃ f q, m = s.msgOf f ∧ s.phase f q ≠ .todo ∧ (s.phase f q).held = true := by
  rcases hm with ⟨q, hq⟩ | ⟨g, q, pc, hact, hpc⟩
  · obtain ⟨f, hmsg, hf | ⟨g, hf⟩⟩ := h.pending_iff.mp hq
    · exact ⟨f, q, hmsg, by rw [hf]; simp, by rw [hf]; rfl⟩
    · exact ⟨f, q, hmsg, by rw [hf]; simp, by rw [hf]; rfl⟩
  · obtain ⟨f, hmsg, hf⟩ := h.of_holds hact hpc
    exact ⟨f, q, hmsg, by rw [hf]; simp, by rw [hf]; rfl⟩

/-! ## What the log says about the phases -/

theorem Inv.enqueue_mem : enqueue f q ∈ s.log ↔ s.phase f q ≠ .todo := by
  rw [← count_pos_iff, h.enqueues]
  split <;> simp [*]

theorem Inv.invoke_mem : Event.invoke f q ∈ s.log ↔ (s.phase f q).handled = true := by
  rw [← count_pos_iff, h.invokes]
  split <;> simp [*]

theorem Inv.retire_mem : Event.retire f g ∈ s.log ↔ s.retiredBy f = some g := by
  rw [← count_pos_iff, h.retires]
  split <;> simp [*]

end

theorem Phase.handled_of_dropped {x : Phase} (h : x = .dropped) : x.handled = true := by
  rw [h]
  rfl

theorem Inv.retiredOnce (h : Inv s) (f : Nat) : s.log.countP (Event.isRetire f) ≤ 1 := by
  cases hr : s.retiredBy f with
  | none =>
    refine le_of_eq_of_le (countP_eq_zero.mpr fun event hevent => ?_) (Nat.zero_le 1)
    cases event with
    | retire f' g =>
      simp only [Event.isRetire, beq_iff_eq]
      rintro rfl
      have hg := h.retire_mem.mp hevent
      rw [hr] at hg
      cases hg
    | _ => simp [Event.isRetire]
  | some g =>
    have hcount : s.log.countP (Event.isRetire f) = s.log.count (.retire f g) := by
      refine countP_congr fun event hevent => ?_
      cases event with
      | retire f' g' =>
        simp only [Event.isRetire, beq_iff_eq, Event.retire.injEq]
        refine ⟨?_, fun heq => heq.1⟩
        rintro rfl
        have hg' := h.retire_mem.mp hevent
        rw [hr] at hg'
        exact ⟨rfl, (some.inj hg').symm⟩
      | _ => simp [Event.isRetire]
    rw [hcount, h.retires]
    split <;> omega

/-- Every entry of a send whose count is zero has been handled. -/
theorem SendOk.handled_of_refs {snd : Send} {pc : SendPc} (h : SendOk s f snd pc) (hpc : pc.counted)
    (hrefs : s.refs snd.msg = 0) (hq : q ∈ snd.targets s.count) : (s.phase f q).handled = true := by
  cases hr : s.retiredBy f with
  | some g => exact Phase.handled_of_dropped ((h.retired g hr).1 q hq)
  | none =>
    have hnot := countP_eq_zero.mp ((h.refs hr hpc).symm.trans hrefs) q hq
    cases hp : s.phase f q with
    | last g => rfl
    | dropped => rfl
    | _ => rw [hp] at hnot; exact absurd rfl hnot

/-- A message that an activity is about to clean up belongs to a send none of whose
references is counted. -/
theorem Inv.of_aboutToRetire (h : Inv s) (hm : AboutToRetire s m) :
    ∃ f snd pc, s.acts f = .send snd pc ∧ m = snd.msg ∧ s.retiredBy f = none ∧
      ∀ q ∈ snd.targets s.count, (s.phase f q).held = false := by
  rcases hm with ⟨f, snd, hact, rfl⟩ | ⟨g, q, pc, hact, hpc⟩
  · have hok := h.sends f snd _ hact
    refine ⟨f, snd, _, hact, rfl, ?_, fun q hq => by rw [hok.cleanup rfl q hq]; rfl⟩
    by_contra hr
    have hasync := hok.async_of_retired (by simp) hr
    rw [hok.waits trivial] at hasync
    cases hasync
  · obtain ⟨f, rfl, hf⟩ := h.of_cleans hact hpc
    obtain ⟨snd, pcf, hactf, -, hr, -⟩ :=
      @Inv.owner s h f q (by rw [hf]; simp) (by rw [hf]; simp)
    refine ⟨f, snd, pcf, hactf, msgOf_of_act hactf, hr, fun r hr => ?_⟩
    rcases eq_or_ne r q with rfl | hrq
    · rw [hf]
      rfl
    · rw [((h.sends f snd pcf hactf).last q g hf).2 r hr hrq]
      rfl

/-! ## The result -/

theorem Inv.delivered (h : Inv s) (hlog : LogOk s) : Delivered s where
  enqueued f q hmem := by
    have htodo := h.enqueue_mem.mp hmem
    obtain ⟨snd, pc, hact⟩ := h.isSend f q htodo
    refine ⟨snd, pc, hact, ?_⟩
    by_contra hq
    exact htodo ((h.sends f snd pc hact).outside q hq)
  sent f snd pc hact q hq := by
    rw [h.enqueue_mem, ← (h.sends f snd pc hact).remaining q hq]
    exact (Classical.em _).symm
  enqueuedOnce f q := by
    rw [h.enqueues]
    split <;> omega
  handledOnce f q := by
    rw [h.enqueues, h.invokes]
    cases s.phase f q <;> simp [Phase.handled]
  notLost f q hmem := by
    have htodo := h.enqueue_mem.mp hmem
    rw [h.invoke_mem]
    cases hp : s.phase f q with
    | todo => exact absurd hp htodo
    | queued =>
      obtain ⟨-, -, -, -, -, hsender⟩ :=
        @Inv.owner s h f q (by rw [hp]; simp) (by rw [hp]; simp)
      exact .inr ⟨h.pending_iff.mpr ⟨f, rfl, .inl hp⟩, hsender⟩
    | taken g =>
      obtain ⟨-, -, -, -, -, hsender⟩ :=
        @Inv.owner s h f q (by rw [hp]; simp) (by rw [hp]; simp)
      exact .inr ⟨h.pending_iff.mpr ⟨f, rfl, .inr ⟨g, hp⟩⟩, hsender⟩
    | _ => exact .inl rfl
  queue q := ⟨h.queue q, hlog.fresh q⟩
  ordered g q pc hact := by
    obtain ⟨rest, hb, -, -, hpc⟩ := h.processes g q pc hact
    refine ⟨hlog.batch g q pc hact, hlog.handled g q pc hact, ⟨rest, hb.symm⟩, ?_⟩
    rintro rfl
    rw [hb, show rest = [] from hpc, append_nil]
  noUnderflow g q hact := by
    obtain ⟨-, -, -, -, ⟨⟩⟩ := h.processes g q _ hact
  refs f snd pc hact hpc hrefs q hq :=
    h.invoke_mem.mpr ((h.sends f snd pc hact).handled_of_refs hpc hrefs hq)
  waited f snd pc hact hasync hpc q hq := by
    have hok := h.sends f snd pc hact
    refine h.invoke_mem.mpr (Phase.handled_of_dropped ?_)
    rcases hpc with hpc | hpc
    · exact hok.cleanup hpc q hq
    · exact (hok.retired f (hok.done hpc hasync)).1 q hq
  retiredOnce := h.retiredOnce
  retired f g hmem := by
    have hr := h.retire_mem.mp hmem
    obtain ⟨snd, pc, hactf⟩ := hlog.isSend f g hr
    have hok := h.sends f snd pc hactf
    obtain ⟨hdropped, hby⟩ := hok.retired g hr
    refine ⟨snd, pc, hactf, fun q hq =>
      h.invoke_mem.mpr (Phase.handled_of_dropped (hdropped q hq)), ?_⟩
    cases hasync : snd.async with
    | false =>
      rw [if_neg (by simp [hasync])] at hby
      simpa using hby.1
    | true =>
      rw [if_pos hasync] at hby
      rcases hlog.retired f g hr with rfl | ⟨q, pc', hact, hf, hlast⟩
      · exact absurd rfl hby
      · have hinvoke : Event.invoke f q ∈ s.log :=
          (hlog.handled g q pc' hact).subset (List.mem_map_of_mem hf)
        have hq : q ∈ snd.targets s.count := by
          by_contra hq
          have hhandled := h.invoke_mem.mp hinvoke
          rw [hok.outside q hq] at hhandled
          cases hhandled
        rw [if_pos rfl]
        exact ⟨q, pc', hact, hq, hf, hlast⟩
  retireDue f snd pc hact hdue := by
    have hok := h.sends f snd pc hact
    cases hr : s.retiredBy f with
    | some g => exact .inl ⟨g, h.retire_mem.mpr hr⟩
    | none =>
      cases hasync : snd.async with
      | false =>
        rw [if_neg (by simp [hasync])] at hdue
        rw [hok.done hdue hasync] at hr
        cases hr
      | true =>
        rw [if_pos hasync] at hdue
        obtain ⟨q, hq, hne⟩ := hok.live hr hasync
        have hhandled := h.invoke_mem.mp (hdue q hq)
        refine .inr ⟨rfl, ?_⟩
        rw [← msgOf_of_act hact]
        cases hp : s.phase f q with
        | invoked g =>
          obtain ⟨pc', hact', hholds⟩ := h.isInvoked f q g hp
          exact ⟨g, q, pc', hact', .inl hholds⟩
        | last g =>
          obtain ⟨pc', hact', hcleans⟩ := h.isLast f q g hp
          exact ⟨g, q, pc', hact', .inr hcleans⟩
        | dropped => exact absurd hp hne
        | _ => rw [hp] at hhandled; cases hhandled
  retireUnused m hm := by
    obtain ⟨f, snd, pc, hact, rfl, hr, hheld⟩ := h.of_aboutToRetire hm
    have hok := h.sends f snd pc hact
    refine ⟨fun hused => ?_, hok.unpooled hr⟩
    obtain ⟨f', q, hmsg, htodo, hheld'⟩ := h.of_inUse hused
    obtain ⟨-, -, -, -, -, hsender⟩ := @Inv.owner s h f' q htodo (by
      intro hdropped
      rw [hdropped] at hheld'
      cases hheld')
    -- the entry in use would be one of this very send
    rw [← hmsg, hok.sender hr] at hsender
    subst hsender
    have hq : q ∈ snd.targets s.count := by
      by_contra hq
      exact htodo (hok.outside q hq)
    rw [hheld q hq] at hheld'
    cases hheld'
  pooledUnused m hm hused := by
    obtain ⟨f, q, rfl, htodo, hheld⟩ := h.of_inUse hused
    obtain ⟨snd, pc, hact, -, hr, -⟩ := @Inv.owner s h f q htodo (by
      intro hdropped
      rw [hdropped] at hheld
      cases hheld)
    rw [msgOf_of_act hact, (h.sends f snd pc hact).unpooled hr] at hm
    cases hm

/-- Senders and processors keep the promises of `Delivered` in every state of every
run in which each message is owned by its sender when it is sent and no halt is
requested. -/
theorem delivered_always (count : Nat) (actions : List Action)
    (h : Each step OwnedSends (smpEnable count) actions) :
    Always step Delivered (smpEnable count) actions := by
  have hinit : LogOk (smpEnable count) :=
    { fresh := fun _ => List.Sublist.refl _
      batch := fun _ _ _ hact => by cases hact
      handled := fun _ _ _ hact => by cases hact
      invoked := fun _ _ _ hp => by cases hp
      last := fun _ _ _ hp => by cases hp
      retired := fun _ _ hr => by cases hr
      isSend := fun _ _ hr => by cases hr }
  have hstep : ∀ s a s', Inv s ∧ LogOk s → OwnedSends s a → step s a = some s' →
      Inv s' ∧ LogOk s' := fun s a s' hs howned hs' =>
    ⟨inv_step hs.1 howned hs', logOk_step hs.2 hs.1 hs'⟩
  exact (Always.of_each hstep ⟨inv_smpEnable count, hinit⟩ h).mono
    fun s hs => hs.1.delivered hs.2

/-- Processor 0 sends message 0 to processor 1 and waits; processor 1 handles it; the
message is sent again, to everybody. -/
theorem delivered_always_resend : Always step Delivered (smpEnable 2)
    ([.send ⟨0, 0, .unicast 1 false⟩] ++ List.replicate 5 (.step 0) ++ [.process 1] ++
      List.replicate 9 (.step 1) ++ List.replicate 2 (.step 0) ++
      [.send ⟨1, 0, .broadcast⟩] ++ List.replicate 6 (.step 2)) :=
  delivered_always 2 _ (by decide)

end Literate.Kernel.Message

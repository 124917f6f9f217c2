import Literate.Kernel.Message

/-!
# Kernel: no inter-processor interrupt is lost

`smp_enqueue_message` tells its caller whether the queue was empty, and a sender
interrupts its targets only when some queue was.  A broadcast collects the answers
of all its enqueues and interrupts once, at the end.  The processor whose queue was
filled by others meanwhile is nevertheless interrupted: whoever made the queue
non-empty still has its interrupt ahead of it, or has issued it.
-/

namespace Literate.Kernel.Message

open Foundation Function Option
open Function (update)

/-- The send has found a queue empty and has not reached its interrupt yet. -/
def SendPc.owesIpi : SendPc → Prop
  | .writeNext _ _ need _ => need = true
  | .exchange _ _ need _ => need = true
  | .ipi need => need = true
  | _ => False

/-- The activity owes processor `q` an interrupt. -/
def OwesIpi (s : State) (q f : Nat) : Prop :=
  ∃ snd pc, s.acts f = .send snd pc ∧ pc.owesIpi ∧ q ∈ snd.targets s.count

/-- A processor whose queue is not empty was interrupted since its queue became
non-empty, or the send that made it so has not reached its interrupt yet. -/
def NoLostIpi (s : State) : Prop :=
  ∀ q, s.queue q ≠ none → s.ipiIssued q = true ∨ OwesIpi s q (s.opener q)

/-- The processors an enqueueing send still has to come to are targets of it. -/
def SendPc.within (targets : List Nat) : SendPc → Prop
  | .writeNext target rest _ _ => ∀ q ∈ target :: rest, q ∈ targets
  | .exchange target rest _ _ => ∀ q ∈ target :: rest, q ∈ targets
  | _ => True

structure IpiInv (s : State) : Prop where
  unborn : ∀ f, s.spawned ≤ f → s.acts f = .none
  within : ∀ f snd pc, s.acts f = .send snd pc → pc.within (snd.targets s.count)
  noLostIpi : NoLostIpi s

theorem SendPc.within_enqueue {targets rest : List Nat} (h : ∀ q ∈ rest, q ∈ targets)
    (need : Bool) : (SendPc.enqueue need rest).within targets := by
  cases rest with
  | nil => trivial
  | cons q rest => exact h

theorem SendPc.owesIpi_enqueue (rest : List Nat) : (SendPc.enqueue true rest).owesIpi := by
  cases rest <;> rfl

variable {s s' : State} {f : Nat} {need : Bool} {pc : SendPc}

/-- A step that leaves the queues and the interrupts alone and moves one activity,
which keeps owing what it owed. -/
theorem IpiInv.move (h : IpiInv s) {act : Activity}
    (hcount : s'.count = s.count) (hspawned : s.spawned ≤ s'.spawned)
    (hf : f < s'.spawned) (hacts : s'.acts = update s.acts f act)
    (hqueue : ∀ q, s'.queue q ≠ none → s.queue q ≠ none)
    (hissued : s'.ipiIssued = s.ipiIssued) (hopener : s'.opener = s.opener)
    (hwithin : ∀ snd pc, act = .send snd pc → pc.within (snd.targets s.count))
    (howes : ∀ q, OwesIpi s q f → ∃ snd pc, act = .send snd pc ∧ pc.owesIpi ∧
      q ∈ snd.targets s.count) : IpiInv s' where
  unborn g hg := by
    have hgf : g ≠ f := by omega
    rw [hacts, update_of_ne hgf]
    exact h.unborn g (by omega)
  within g snd pc hg := by
    rw [hcount]
    by_cases hgf : g = f
    · rw [hacts, hgf, update_self] at hg
      exact hwithin snd pc hg
    · rw [hacts, update_of_ne hgf] at hg
      exact h.within g snd pc hg
  noLostIpi q hq := by
    rw [hissued, hopener]
    refine (h.noLostIpi q (hqueue q hq)).imp_right fun howe => ?_
    by_cases hof : s.opener q = f
    · obtain ⟨snd, pc, hact, hpc, hmem⟩ := howes q (hof ▸ howe)
      exact ⟨snd, pc, by rw [hacts, hof, update_self, hact], hpc, hcount ▸ hmem⟩
    · obtain ⟨snd, pc, hact, hpc, hmem⟩ := howe
      exact ⟨snd, pc, by rw [hacts, update_of_ne hof, hact], hpc, hcount ▸ hmem⟩

/-- An activity that owes nothing may move freely. -/
theorem not_owesIpi {act : Activity} (hact : s.acts f = act)
    (hpc : ∀ snd pc, act = .send snd pc → ¬ pc.owesIpi) (q : Nat) : ¬ OwesIpi s q f := by
  rintro ⟨snd, pc, hf, howes, -⟩
  exact hpc snd pc (hact.symm.trans hf) howes

theorem lt_spawned {s : State} (h : IpiInv s) {f : Nat} (hf : s.acts f ≠ .none) :
    f < s.spawned := by
  by_contra hle
  exact hf (h.unborn f (by omega))

/-- The enqueue of a send: the queue it finds empty is one it owes an interrupt. -/
theorem IpiInv.enqueued (h : IpiInv s) {snd : Send} {target : Nat} {rest : List Nat}
    {next : Option Entry} (hact : s.acts f = .send snd (.exchange target rest need next))
    (hhead : s.queue target = next) : IpiInv ((Message.enqueued s f snd.msg target next).setAct f
      (.send snd (.enqueue (need || next.isNone) rest))) := by
  have hwithin := h.within f snd _ hact
  have hrest : ∀ q ∈ rest, q ∈ snd.targets s.count :=
    fun q hq => hwithin q (List.mem_cons_of_mem target hq)
  have htarget : target ∈ snd.targets s.count := hwithin target List.mem_cons_self
  refine ⟨fun g hg => ?_, fun g snd' pc' hg => ?_, fun q hq => ?_⟩
  · have hgf : g ≠ f := by
      rintro rfl
      exact absurd (h.unborn g hg) (by simp [hact])
    exact (update_of_ne hgf _ s.acts).trans (h.unborn g hg)
  · by_cases hgf : g = f
    · subst hgf
      obtain ⟨rfl, rfl⟩ := Activity.send.inj ((update_self g _ s.acts).symm.trans hg)
      exact SendPc.within_enqueue hrest _
    · exact h.within g snd' pc' ((update_of_ne hgf _ s.acts).symm.trans hg)
  · -- the send itself owes whatever queue it has found empty
    have howe : (need || next.isNone) = true → ∀ r ∈ snd.targets s.count,
        OwesIpi ((Message.enqueued s f snd.msg target next).setAct f
          (.send snd (.enqueue (need || next.isNone) rest))) r f := by
      intro hneed r hr
      refine ⟨snd, _, update_self f _ s.acts, ?_, hr⟩
      rw [hneed]
      exact SendPc.owesIpi_enqueue rest
    have hold : ∀ r, s.queue r ≠ none → s.ipiIssued r = true ∨
        OwesIpi ((Message.enqueued s f snd.msg target next).setAct f
          (.send snd (.enqueue (need || next.isNone) rest))) r (s.opener r) := by
      intro r hr
      refine (h.noLostIpi r hr).imp_right fun howes => ?_
      by_cases hof : s.opener r = f
      · obtain ⟨snd', pc', hact', hpc', hmem⟩ := howes
        rw [hof, hact] at hact'
        obtain ⟨rfl, rfl⟩ := Activity.send.inj hact'
        rw [hof]
        have hneed : need = true := hpc'
        exact howe (by rw [hneed, Bool.true_or]) r hmem
      · obtain ⟨snd', pc', hact', hpc', hmem⟩ := howes
        exact ⟨snd', pc', (update_of_ne hof _ s.acts).trans hact', hpc', hmem⟩
    change (if next = none then update s.ipiIssued target false
      else s.ipiIssued) q = true ∨ OwesIpi _ q ((if next = none then
        update s.opener target f else s.opener) q)
    by_cases hqt : q = target
    · subst hqt
      cases hnext : next with
      | none =>
        right
        rw [if_pos rfl, update_self, ← hnext]
        exact howe (by simp [hnext]) q htarget
      | some entry =>
        rw [if_neg (by simp), if_neg (by simp), ← hnext]
        exact hold q (by rw [hhead, hnext]; simp)
    · have hq' : s.queue q ≠ none := by
        have : update s.queue target (some ⟨snd.msg, target⟩) q ≠ none := hq
        rwa [update_of_ne hqt] at this
      by_cases hnext : next = none
      · simp only [if_pos hnext, update_of_ne hqt]
        exact hold q hq'
      · simp only [if_neg hnext]
        exact hold q hq'

/-- The interrupt of a send reaches every processor it owes one. -/
theorem IpiInv.ipi (h : IpiInv s) {snd : Send} (hact : s.acts f = .send snd (.ipi need))
    (hpc : pc.within (snd.targets s.count)) :
    IpiInv ((if need then sendIpi s snd else s).setAct f (.send snd pc)) := by
  have hf : f < s.spawned := lt_spawned h (by simp [hact])
  cases need with
  | false =>
    refine h.move rfl le_rfl hf rfl (fun _ hq => hq) rfl rfl ?_ ?_
    · rintro _ _ ⟨⟩
      exact hpc
    · intro q howes
      refine absurd howes (not_owesIpi hact ?_ q)
      rintro _ _ ⟨⟩
      simp [SendPc.owesIpi]
  | true =>
    refine ⟨fun g hg => ?_, fun g snd' pc' hg => ?_, fun q hq => ?_⟩
    · have hgf : g ≠ f := by
        have : s.spawned ≤ g := hg
        omega
      exact (update_of_ne hgf _ s.acts).trans (h.unborn g hg)
    · by_cases hgf : g = f
      · subst hgf
        obtain ⟨rfl, rfl⟩ := Activity.send.inj ((update_self g _ s.acts).symm.trans hg)
        exact hpc
      · exact h.within g snd' pc' ((update_of_ne hgf _ s.acts).symm.trans hg)
    · change (decide (q ∈ snd.targets s.count) || s.ipiIssued q) = true ∨ _
      rcases h.noLostIpi q hq with hissued | howes
      · left
        rw [hissued, Bool.or_true]
      · by_cases hof : s.opener q = f
        · left
          obtain ⟨snd', pc', hact', -, hmem⟩ := howes
          rw [hof, hact] at hact'
          obtain ⟨rfl, -⟩ := Activity.send.inj hact'
          rw [decide_eq_true hmem, Bool.true_or]
        · right
          obtain ⟨snd', pc', hact', hpc', hmem⟩ := howes
          exact ⟨snd', pc', (update_of_ne hof _ s.acts).trans hact', hpc', hmem⟩

theorem IpiInv.sendStep (h : IpiInv s) {snd : Send}
    (hact : s.acts f = .send snd pc) (hstep : Message.sendStep s f snd pc = some s') :
    IpiInv s' := by
  have hf : f < s.spawned := lt_spawned h (by simp [hact])
  have hidle : ¬ pc.owesIpi → ∀ q, ¬ OwesIpi s q f := by
    intro hpc
    refine not_owesIpi hact ?_
    rintro _ _ ⟨⟩
    exact hpc
  have hwithin := h.within f snd pc hact
  cases pc with
  | storeAsync =>
    cases hstep
    refine h.move rfl le_rfl hf rfl (fun _ hq => hq) rfl rfl ?_ ?_
    · rintro _ _ ⟨⟩
      trivial
    · exact fun q hq => absurd hq (hidle (by simp [SendPc.owesIpi]) q)
  | storeRefs =>
    cases hstep
    refine h.move rfl le_rfl hf rfl (fun _ hq => hq) rfl rfl ?_ ?_
    · rintro _ _ ⟨⟩
      split
      · exact SendPc.within_enqueue (fun _ hq => hq) _
      · trivial
    · exact fun q hq => absurd hq (hidle (by simp [SendPc.owesIpi]) q)
  | verifyRefs =>
    obtain ⟨-, heq⟩ := ite_none_right_eq_some.mp hstep
    cases heq
    refine h.move rfl le_rfl hf rfl (fun _ hq => hq) rfl rfl ?_ ?_
    · rintro _ _ ⟨⟩
      exact SendPc.within_enqueue (fun _ hq => hq) _
    · exact fun q hq => absurd hq (hidle (by simp [SendPc.owesIpi]) q)
  | writeNext target rest need next =>
    cases hstep
    refine h.move rfl le_rfl hf rfl (fun _ hq => hq) rfl rfl ?_ ?_
    · rintro _ _ ⟨⟩
      exact hwithin
    · rintro q ⟨snd', pc', hact', hpc', hmem⟩
      rw [hact] at hact'
      obtain ⟨rfl, rfl⟩ := Activity.send.inj hact'
      exact ⟨_, _, rfl, hpc', hmem⟩
  | exchange target rest need next =>
    simp only [Message.sendStep] at hstep
    split at hstep <;> cases hstep
    · rename_i hhead
      exact h.enqueued hact hhead
    · refine h.move rfl le_rfl hf rfl (fun _ hq => hq) rfl rfl ?_ ?_
      · rintro _ _ ⟨⟩
        exact hwithin
      · rintro q ⟨snd', pc', hact', hpc', hmem⟩
        rw [hact] at hact'
        obtain ⟨rfl, rfl⟩ := Activity.send.inj hact'
        exact ⟨_, _, rfl, hpc', hmem⟩
  | ipi need =>
    cases hstep
    refine h.ipi hact ?_
    split
    · split <;> trivial
    · trivial
  | verifySync =>
    simp only [Message.sendStep] at hstep
    split at hstep <;> cases hstep
    refine h.move rfl le_rfl hf rfl (fun _ hq => hq) rfl rfl ?_ ?_
    · rintro _ _ ⟨⟩
      trivial
    · exact fun q hq => absurd hq (hidle (by simp [SendPc.owesIpi]) q)
  | wait =>
    simp only [Message.sendStep] at hstep
    split at hstep <;> cases hstep
    · refine h.move rfl le_rfl hf rfl (fun _ hq => hq) rfl rfl ?_ ?_
      · rintro _ _ ⟨⟩
        trivial
      · exact fun q hq => absurd hq (hidle (by simp [SendPc.owesIpi]) q)
    · exact h
  | cleanup =>
    cases hstep
    refine h.move rfl le_rfl hf rfl (fun _ hq => hq) rfl rfl ?_ ?_
    · rintro _ _ ⟨⟩
      trivial
    · exact fun q hq => absurd hq (hidle (by simp [SendPc.owesIpi]) q)
  | done => cases hstep

/-- A process activity only empties a queue; it issues and owes no interrupt. -/
theorem IpiInv.processStep (h : IpiInv s) {g proc : Nat} {pc : ProcessPc}
    (hact : s.acts g = .process proc pc) (hstep : Message.processStep s g proc pc = some s') :
    IpiInv s' := by
  have hg : g < s.spawned := lt_spawned h (by simp [hact])
  have howes : ∀ q, ¬ OwesIpi s q g := by
    refine not_owesIpi hact ?_
    rintro _ _ ⟨⟩
  have hmove : ∀ pc', s'.count = s.count → s'.spawned = s.spawned →
      s'.acts = update s.acts g (.process proc pc') →
      (∀ q, s'.queue q ≠ none → s.queue q ≠ none) →
      s'.ipiIssued = s.ipiIssued → s'.opener = s.opener → IpiInv s' := by
    intro pc' hcount hspawned hacts hqueue hissued hopener
    refine h.move hcount hspawned.ge (hspawned ▸ hg) hacts hqueue hissued hopener ?_ ?_
    · rintro _ _ ⟨⟩
    · exact fun q hq => absurd hq (howes q)
  have hdrain : ∀ q, update s.queue proc none q ≠ none → s.queue q ≠ none := by
    intro q hq
    by_cases hqp : q = proc
    · simp [hqp] at hq
    · rwa [update_of_ne hqp] at hq
  cases pc with
  | exchange =>
    simp only [Message.processStep] at hstep
    split at hstep <;> cases hstep
    · exact hmove _ rfl rfl rfl (fun _ hq => hq) rfl rfl
    · exact hmove _ rfl rfl rfl hdrain rfl rfl
  | reverse list rev =>
    cases list <;> cases hstep <;> exact hmove _ rfl rfl rfl (fun _ hq => hq) rfl rfl
  | loop cur => cases cur <;> cases hstep <;> exact hmove _ rfl rfl rfl (fun _ hq => hq) rfl rfl
  | fetchSub msg async next =>
    simp only [Message.processStep] at hstep
    split at hstep <;> cases hstep <;> exact hmove _ rfl rfl rfl (fun _ hq => hq) rfl rfl
  | done => cases hstep
  | halted => cases hstep
  | verifyFailed => cases hstep
  | _ => cases hstep; exact hmove _ rfl rfl rfl (fun _ hq => hq) rfl rfl

theorem ipiInv_step {a : Action} (h : IpiInv s) (hstep : step s a = some s') : IpiInv s' := by
  have hunborn : ∀ q, ¬ OwesIpi s q s.spawned := by
    refine not_owesIpi (h.unborn s.spawned le_rfl) ?_
    rintro _ _ ⟨⟩
  cases a with
  | send snd =>
    obtain ⟨-, heq⟩ := ite_none_right_eq_some.mp hstep
    cases heq
    refine h.move rfl (Nat.le_succ _) (Nat.lt_succ_self s.spawned) rfl
      (fun _ hq => hq) rfl rfl ?_ (fun q hq => absurd hq (hunborn q))
    rintro _ _ ⟨⟩
    trivial
  | process proc =>
    obtain ⟨-, heq⟩ := ite_none_right_eq_some.mp hstep
    cases heq
    refine h.move rfl (Nat.le_succ _) (Nat.lt_succ_self s.spawned) rfl
      (fun _ hq => hq) rfl rfl ?_ (fun q hq => absurd hq (hunborn q))
    rintro _ _ ⟨⟩
  | requestHalt proc =>
    cases hstep
    exact ⟨h.unborn, h.within, h.noLostIpi⟩
  | step f =>
    simp only [step] at hstep
    split at hstep
    · cases hstep
    · rename_i snd pc hact
      exact h.sendStep hact hstep
    · rename_i proc pc hact
      exact h.processStep hact hstep

/-- In every state of every run of senders and processors, a processor whose queue
is not empty has been interrupted since the queue became non-empty, or the send
that made it non-empty has its interrupt still ahead. -/
theorem noLostIpi_always (count : Nat) (actions : List Action) :
    Always step NoLostIpi (smpEnable count) actions := by
  have hinit : IpiInv (smpEnable count) :=
    ⟨fun _ _ => rfl, fun _ _ _ hact => (by cases hact), fun _ hq => absurd rfl hq⟩
  exact (Always.of_invariant (fun _ _ _ => ipiInv_step) actions hinit).mono
    fun _ h => h.noLostIpi

end Literate.Kernel.Message

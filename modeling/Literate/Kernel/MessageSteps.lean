import Literate.Kernel.MessageInvariant

/-!
# Kernel: every step keeps the invariant

One lemma for each step of a send and of a process activity that changes more than
where it stands: the enqueue, the exchange, the reversal, the handling of a message,
the reference given up, the two places where a message is cleaned up.  The steps
that only move on are instances of `Inv.gotoSend` and `Inv.moveProcess`.
-/

namespace Literate.Kernel.Message

open Foundation Function List Option
open Function (update)
open State (msgOf setPhase setAct)
open SendPc (enqueue)

variable {log : List Event} {event : Event} {s' : State} {need : Bool} {target f g q f' r : Nat}
  {pc pc' : SendPc}

theorem count_log_self : (log ++ [event]).count event = log.count event + 1 := by
  simp

theorem count_log_of_ne {event' : Event} (h : event ≠ event') :
    (log ++ [event]).count event' = log.count event' := by
  have hzero : [event].count event' = 0 := List.count_eq_zero.mpr (by simpa using h.symm)
  rw [count_append, hzero, Nat.add_zero]

/-! ## New activities -/

/-- A new activity joins; at most a pooled message was taken for it. -/
theorem Inv.spawn {s : State} (h : Inv s) {act : Activity}
    (hspawned : s'.spawned = s.spawned + 1) (hacts : s'.acts = update s.acts s.spawned act)
    (hcount : s'.count = s.count) (hhalt : s'.haltRequested = s.haltRequested)
    (hqueue : s'.queue = s.queue) (hnext : s'.next = s.next) (hrefs : s'.refs = s.refs)
    (hasync : s'.async = s.async) (hphase : s'.phase = s.phase) (hfresh : s'.fresh = s.fresh)
    (hbatch : s'.batch = s.batch) (hhandled : s'.handled = s.handled)
    (hretired : s'.retiredBy = s.retiredBy) (hlog : s'.log = s.log)
    (hmem : ∀ m, s.pooled m = false → s'.sender m = s.sender m ∧ s'.pooled m = s.pooled m)
    (hsend : ∀ snd pc, act = .send snd pc → SendOk s' s.spawned snd pc)
    (hprocess : ∀ q pc, act = .process q pc → pc = .exchange) : Inv s' := by
  obtain ⟨hnone, hbatch₀, hhandled₀, -, hphase₀⟩ := h.unborn s.spawned le_rfl
  have hact_ne : ∀ g, g ≠ s.spawned → s'.acts g = s.acts g := by
    intro g hg
    rw [hacts, update_of_ne hg]
  have hkeep : ∀ g, s.acts g ≠ .none → s'.acts g = s.acts g := by
    intro g hg
    exact hact_ne g fun heq => hg (heq ▸ hnone)
  have hmsgOf : ∀ f q, s.phase f q ≠ .todo → s'.msgOf f = s.msgOf f := by
    intro f q hf
    have hne : f ≠ s.spawned := fun heq => hf (heq ▸ hphase₀ q)
    simp only [msgOf, hact_ne f hne]
  have htaken₀ : ∀ f q, s.phase f q ≠ .taken s.spawned := by
    intro f q hf
    obtain ⟨pc, hact⟩ := h.isTaken f q _ hf
    rw [hnone] at hact
    cases hact
  refine
    { noHalt := fun p => by rw [hhalt]; exact h.noHalt p
      unborn := fun f hf => ?_
      sends := fun f snd pc hf => ?_
      processes := fun g q pc hg => ?_
      isSend := fun f q hf => ?_
      isTaken := fun f q g hf => ?_
      isInvoked := fun f q g hf => ?_
      isLast := fun f q g hf => ?_
      queue := fun q => ?_
      fresh_nodup := fun q => by rw [hfresh]; exact h.fresh_nodup q
      mem_fresh := fun q f => by rw [hfresh, hphase]; exact h.mem_fresh q f
      enqueues := fun f q => by rw [hlog, hphase]; exact h.enqueues f q
      invokes := fun f q => by rw [hlog, hphase]; exact h.invokes f q
      retires := fun f g => by rw [hlog, hretired]; exact h.retires f g }
  · rw [hact_ne f (by omega), hbatch, hhandled, hretired, hphase]
    exact h.unborn f (by omega)
  · by_cases hfs : f = s.spawned
    · subst hfs
      rw [hacts, update_self] at hf
      exact hsend snd pc hf
    · rw [hact_ne f hfs] at hf
      have hok := h.sends f snd pc hf
      refine hok.frame hcount (fun q => by rw [hphase]; exact .refl _) (by rw [hretired])
        (fun hr => ?_) (fun q _ => by rw [hnext])
      obtain ⟨hs, hp⟩ := hmem _ (hok.unpooled hr)
      exact ⟨hs, hp, by rw [hasync], by rw [hrefs]⟩
  · by_cases hgs : g = s.spawned
    · subst hgs
      rw [hacts, update_self] at hg
      obtain rfl := hprocess q pc hg
      refine ⟨[], by rw [hbatch, hhandled, hbatch₀, hhandled₀]; rfl, nodup_nil,
        fun f => ?_, by rw [hhandled, hhandled₀], rfl⟩
      rw [hphase]
      simp [htaken₀ f q]
    · rw [hact_ne g hgs] at hg
      exact (h.processes g q pc hg).frame (by rw [hbatch]) (by rw [hhandled])
        (fun f => by rw [hphase]) (fun f hf => hmsgOf f q (by rw [hf]; simp))
        (fun f _ => by rw [hnext])
        (fun f hf => ⟨by rw [hphase, hf], hmsgOf f q (by rw [hf]; simp), by rw [hasync]⟩)
        (fun f hf => ⟨by rw [hphase, hf], hmsgOf f q (by rw [hf]; simp)⟩)
  · rw [hphase] at hf
    obtain ⟨snd, pc, hact⟩ := h.isSend f q hf
    exact ⟨snd, pc, (hkeep f (by rw [hact]; simp)).trans hact⟩
  · rw [hphase] at hf
    obtain ⟨pc, hact⟩ := h.isTaken f q g hf
    exact ⟨pc, (hkeep g (by rw [hact]; simp)).trans hact⟩
  · rw [hphase] at hf
    obtain ⟨pc, hact, hholds⟩ := h.isInvoked f q g hf
    exact ⟨pc, (hkeep g (by rw [hact]; simp)).trans hact, by
      rw [hmsgOf f q (by rw [hf]; simp)]
      exact hholds⟩
  · rw [hphase] at hf
    obtain ⟨pc, hact, hcleans⟩ := h.isLast f q g hf
    exact ⟨pc, (hkeep g (by rw [hact]; simp)).trans hact, by
      rw [hmsgOf f q (by rw [hf]; simp)]
      exact hcleans⟩
  · rw [hqueue, hfresh]
    refine (h.queue q).frame (fun f hf => ?_) (fun _ _ => by rw [hnext])
    have hqueued := (h.mem_fresh q f).mp (mem_reverse.mp hf)
    exact hmsgOf f q (by rw [hqueued]; simp)

/-- A send starts with a message that it takes from the pool. -/
theorem Inv.spawnSend {s : State} (h : Inv s) {snd : Send} (hpooled : s.pooled snd.msg = true) :
    Inv (Message.spawn { s with
      pooled := update s.pooled snd.msg false
      sender := update s.sender snd.msg s.spawned } (.send snd .storeAsync)) := by
  obtain ⟨-, -, -, hretired₀, hphase₀⟩ := h.unborn s.spawned le_rfl
  refine h.spawn rfl rfl rfl rfl rfl rfl rfl rfl rfl rfl rfl rfl rfl rfl (fun m hm => ?_) ?_ ?_
  · have hne : m ≠ snd.msg := by
      rintro rfl
      rw [hpooled] at hm
      cases hm
    exact ⟨update_of_ne hne _ _, update_of_ne hne _ _⟩
  · rintro _ _ ⟨⟩
    exact
      { outside := fun q _ => hphase₀ q
        remaining := fun q hq => ⟨fun _ => hq, fun _ => hphase₀ q⟩
        nodup := snd.targets_nodup s.count
        within := fun _ hq => hq
        sender := fun _ => update_self _ _ _
        unpooled := fun _ => update_self _ _ _
        async := fun _ hpc => absurd rfl hpc
        refs := fun _ hpc => hpc.elim
        link := fun _ _ _ _ hpc => by cases hpc
        waits := fun hpc => hpc.elim
        cleanup := fun hpc => by cases hpc
        done := fun hpc => by cases hpc
        retired := fun g hg => by
          have hg' : s.retiredBy s.spawned = some g := hg
          rw [hretired₀] at hg'
          cases hg'
        live := fun _ hasync => by
          obtain ⟨self, msg, kind⟩ := snd
          cases kind with
          | broadcast => cases hasync
          | unicast cpu async =>
            refine ⟨cpu, mem_singleton.mpr rfl, ?_⟩
            intro hdropped
            have hdropped' : s.phase s.spawned cpu = .dropped := hdropped
            rw [hphase₀ cpu] at hdropped'
            cases hdropped'
        last := fun q g hg => by
          have hg' : s.phase s.spawned q = .last g := hg
          rw [hphase₀ q] at hg'
          cases hg' }
  · rintro _ _ ⟨⟩

theorem Inv.spawnProcess {s : State} (h : Inv s) (proc : Nat) :
    Inv (Message.spawn s (.process proc .exchange)) := by
  refine h.spawn rfl rfl rfl rfl rfl rfl rfl rfl rfl rfl rfl rfl rfl rfl
    (fun _ _ => ⟨rfl, rfl⟩) ?_ ?_
  · rintro _ _ ⟨⟩
  · rintro _ _ ⟨⟩
    rfl

/-! ## The steps of a send -/

theorem SendPc.remaining_enqueue (need : Bool) (rest targets : List Nat) :
    (enqueue need rest).remaining targets = rest := by
  cases rest <;> rfl

theorem SendPc.enqueue_ne_exchange {need' : Bool} {rest rest' : List Nat} {next : Option Entry} :
    enqueue need rest ≠ .exchange target rest' need' next := by
  cases rest <;> simp [enqueue]

theorem SendPc.not_waits_enqueue {rest : List Nat} : ¬ (enqueue need rest).waits := by
  cases rest <;> simp [enqueue, SendPc.waits]

theorem SendPc.enqueue_ne_cleanup {rest : List Nat} : enqueue need rest ≠ .cleanup := by
  cases rest <;> simp [enqueue]

theorem SendPc.enqueue_ne_done {rest : List Nat} : enqueue need rest ≠ .done := by
  cases rest <;> simp [enqueue]

/-- The send goes to a point where it has the same entries to enqueue. -/
theorem SendOk.goto {s : State} {snd : Send} (h : SendOk s f snd pc)
    (hremaining : pc'.remaining (snd.targets s.count) = pc.remaining (snd.targets s.count))
    (hasync : s.retiredBy f = none → pc' ≠ .storeAsync → s.async snd.msg = snd.async)
    (hrefs : s.retiredBy f = none → pc'.counted →
      s.refs snd.msg = (snd.targets s.count).countP fun q => (s.phase f q).held)
    (hlink : ∀ target rest need next, pc' = .exchange target rest need next →
      s.next ⟨snd.msg, target⟩ = next)
    (hwaits : pc'.waits → snd.async = false)
    (hcleanup : pc' = .cleanup → ∀ q ∈ snd.targets s.count, s.phase f q = .dropped)
    (hdone : pc' = .done → snd.async = false → s.retiredBy f = some f)
    (hretired : s.retiredBy f ≠ none → snd.async = true) : SendOk s f snd pc' :=
  { h with
    remaining := by rw [hremaining]; exact h.remaining
    nodup := by rw [hremaining]; exact h.nodup
    within := by rw [hremaining]; exact h.within
    async := hasync
    refs := hrefs
    link := hlink
    waits := hwaits
    cleanup := hcleanup
    done := hdone
    retired g hg := by
      obtain ⟨hdropped, hby⟩ := h.retired g hg
      have ha : snd.async = true := hretired (by rw [hg]; simp)
      rw [if_pos ha] at hby
      exact ⟨hdropped, by rwa [if_pos ha]⟩ }

/-- A synchronous send is not recycled before it is done. -/
theorem SendOk.async_of_retired {s : State} {snd : Send}
    (h : SendOk s f snd pc) (hpc : pc ≠ .done) (hr : s.retiredBy f ≠ none) : snd.async = true := by
  obtain ⟨g, hg⟩ := ne_none_iff_exists'.mp hr
  cases ha : snd.async with
  | true => rfl
  | false =>
    have hby := (h.retired g hg).2
    simp only [ha, Bool.false_eq_true, if_false] at hby
    exact absurd hby.2 hpc

/-- A send moves on and writes nothing but the interrupt's record. -/
theorem Inv.gotoSend {s : State} (h : Inv s) {snd : Send}
    (hact : s.acts f = .send snd pc) (hpast : SamePast s s') (hnext : s'.next = s.next)
    (hasync : s'.async = s.async) (hrefs : s'.refs = s.refs)
    (hacts : s'.acts = update s.acts f (.send snd pc')) (hok : SendOk s f snd pc') : Inv s' := by
  refine h.moveSend hpast hact hacts ?_ ?_ (fun _ _ => by rw [hasync])
    (fun _ _ => by rw [hrefs]) (fun hne => absurd hasync hne) (fun _ _ => by rw [hnext])
  · exact hok.frame hpast.count (fun q => by rw [hpast.phase]; exact .refl _)
      (by rw [hpast.retiredBy])
      (fun _ => ⟨by rw [hpast.sender], by rw [hpast.pooled], by rw [hasync], by rw [hrefs]⟩)
      (fun _ _ => by rw [hnext])
  · rintro (hne | hne)
    · exact absurd hasync hne
    · exact absurd hrefs hne

/-- The successful compare-exchange of `smp_enqueue_message`. -/
theorem Inv.enqueued {s : State} (h : Inv s) {snd : Send} {rest : List Nat} {next : Option Entry}
    (hact : s.acts f = .send snd (.exchange target rest need next))
    (hhead : s.queue target = next) : Inv ((Message.enqueued s f snd.msg target next).setAct f
      (.send snd (.enqueue (need || next.isNone) rest))) := by
  have hok := h.sends f snd _ hact
  have hmem : target ∈ snd.targets s.count := hok.within target mem_cons_self
  have htodo : s.phase f target = .todo := (hok.remaining target hmem).mpr mem_cons_self
  have hretired : s.retiredBy f = none := hok.not_retired mem_cons_self
  have hlink : s.next ⟨snd.msg, target⟩ = next := hok.link _ _ _ _ rfl
  have hmsg : s.msgOf f = snd.msg := msgOf_of_act hact
  obtain ⟨htarget_rest, hrest⟩ := nodup_cons.mp hok.nodup
  generalize hpc' : enqueue (need || next.isNone) rest = pc'
  generalize hs' : (Message.enqueued s f snd.msg target next).setAct f (.send snd pc') = s'
  have hacts : s'.acts = update s.acts f (.send snd pc') := by rw [← hs']; rfl
  have hphase_self : s'.phase f target = .queued := by
    rw [← hs']
    simp [Message.enqueued, setPhase, setAct]
  have hphase_ne : ∀ g q, (g = f → q ≠ target) → s'.phase g q = s.phase g q := by
    intro g q hne
    rw [← hs']
    by_cases hgf : g = f
    · subst hgf
      simp [Message.enqueued, setPhase, setAct, hne rfl]
    · simp [Message.enqueued, setPhase, setAct, hgf]
  have hmsgOf : s'.msgOf = s.msgOf := msgOf_of_update hacts hmsg.symm
  have hact_ne : ∀ g, g ≠ f → s'.acts g = s.acts g := by
    intro g hg
    rw [hacts, update_of_ne hg]
  have hkeep : ∀ g q pc, s.acts g = .process q pc → s'.acts g = .process q pc := by
    intro g q pc hg
    refine (hact_ne g ?_).trans hg
    rintro rfl
    rw [hact] at hg
    cases hg
  -- the entry's phase was `todo` and is `queued`; no other phase has changed
  have hother : ∀ g q x, x ≠ .todo → x ≠ .queued → (s'.phase g q = x ↔ s.phase g q = x) := by
    intro g q x hx hx'
    by_cases hgq : g = f ∧ q = target
    · obtain ⟨rfl, rfl⟩ := hgq
      rw [hphase_self, htodo]
      exact ⟨fun heq => absurd heq.symm hx', fun heq => absurd heq.symm hx⟩
    · rw [hphase_ne g q fun hg hq => hgq ⟨hg, hq⟩]
  have hcount : s'.count = s.count := by rw [← hs']; rfl
  have hnext' : s'.next = s.next := by rw [← hs']; rfl
  have hlog : s'.log = s.log ++ [.enqueue f target] := by rw [← hs']; rfl
  have hretiredBy : s'.retiredBy = s.retiredBy := by rw [← hs']; rfl
  have hfresh_self : s'.fresh target = s.fresh target ++ [f] := by
    rw [← hs']
    exact update_self _ _ _
  have hfresh_ne : ∀ q, q ≠ target → s'.fresh q = s.fresh q := by
    intro q hq
    rw [← hs']
    exact update_of_ne hq _ _
  have hqueue_self : s'.queue target = some ⟨snd.msg, target⟩ := by
    rw [← hs']
    exact update_self _ _ _
  have hqueue_ne : ∀ q, q ≠ target → s'.queue q = s.queue q := by
    intro q hq
    rw [← hs']
    exact update_of_ne hq _ _
  have hf_fresh : f ∉ s.fresh target := by
    rw [h.mem_fresh, htodo]
    simp
  have hremaining : pc'.remaining (snd.targets s.count) = rest := by
    rw [← hpc']
    exact SendPc.remaining_enqueue _ _ _
  refine
    { noHalt := fun p => by rw [← hs']; exact h.noHalt p
      unborn := fun g hg => ?_
      sends := fun g snd' pc hg => ?_
      processes := fun g q pc hg => ?_
      isSend := fun g q hg => ?_
      isTaken := fun g q g' hg => ?_
      isInvoked := fun g q g' hg => ?_
      isLast := fun g q g' hg => ?_
      queue := fun q => ?_
      fresh_nodup := fun q => ?_
      mem_fresh := fun q g => ?_
      enqueues := fun g q => ?_
      invokes := fun g q => ?_
      retires := fun g g' => ?_ }
  · have hspawned : s'.spawned = s.spawned := by rw [← hs']; rfl
    rw [hspawned] at hg
    have hgf : g ≠ f := by
      have := @Inv.lt_spawned s h f (by rw [hact]; simp)
      omega
    obtain ⟨h₁, h₂, h₃, h₄, h₅⟩ := h.unborn g hg
    refine ⟨(hact_ne g hgf).trans h₁, ?_, ?_, ?_, fun q => ?_⟩
    · rw [← hs']; exact h₂
    · rw [← hs']; exact h₃
    · rw [hretiredBy]; exact h₄
    · rw [hphase_ne g q fun heq => absurd heq hgf]; exact h₅ q
  · by_cases hgf : g = f
    · subst hgf
      rw [hacts, update_self] at hg
      obtain ⟨rfl, rfl⟩ := Activity.send.inj hg
      exact
        { outside := fun q hq => by
            rw [hcount] at hq
            rw [hphase_ne g q fun _ heq => hq (heq ▸ hmem)]
            exact hok.outside q hq
          remaining := fun q hq => by
            rw [hcount] at hq ⊢
            rw [hremaining]
            by_cases hqt : q = target
            · subst hqt
              rw [hphase_self]
              simp [htarget_rest]
            · rw [hphase_ne g q fun _ => hqt, hok.remaining q hq]
              exact ⟨fun hq' => (mem_cons.mp hq').resolve_left hqt,
                fun hq' => mem_cons_of_mem _ hq'⟩
          nodup := by rw [hcount, hremaining]; exact hrest
          within := fun q hq => by
            rw [hcount] at hq ⊢
            rw [hremaining] at hq
            exact hok.within q (mem_cons_of_mem _ hq)
          sender := fun _ => by rw [← hs']; exact hok.sender hretired
          unpooled := fun _ => by rw [← hs']; exact hok.unpooled hretired
          async := fun _ _ => by rw [← hs']; exact hok.async hretired (by simp)
          refs := fun _ _ => by
            have hold := hok.refs hretired trivial
            have hrefs : s'.refs = s.refs := by rw [← hs']; rfl
            have hupd := countP_held_update (snd.targets_nodup s.count) hmem (s.phase g) .queued
            rw [htodo] at hupd
            have hphase : s'.phase g = update (s.phase g) target .queued := by
              rw [← hs']
              simp [Message.enqueued, setPhase, setAct]
            rw [hrefs, hcount, hold, hphase]
            change _ + 1 = _ + 1 at hupd
            omega
          link := fun _ _ _ _ heq => absurd (hpc'.trans heq) SendPc.enqueue_ne_exchange
          waits := fun hw => absurd (hpc' ▸ hw) SendPc.not_waits_enqueue
          cleanup := fun heq => absurd (hpc'.trans heq) SendPc.enqueue_ne_cleanup
          done := fun heq => absurd (hpc'.trans heq) SendPc.enqueue_ne_done
          retired := fun g' hg' => by
            rw [hretiredBy, hretired] at hg'
            cases hg'
          live := fun _ _ => ⟨target, hcount ▸ hmem, by rw [hphase_self]; simp⟩
          last := fun q g' hg' => by
            rw [hother g q (.last g') (by simp) (by simp)] at hg'
            have hdropped := (hok.last q g' hg').2 target hmem (by
              rintro rfl
              rw [htodo] at hg'
              cases hg')
            rw [htodo] at hdropped
            cases hdropped }
    · rw [hact_ne g hgf] at hg
      refine (h.sends g snd' pc hg).frame hcount (fun q => ?_) (by rw [hretiredBy])
        (fun _ => ?_) (fun _ _ => by rw [hnext'])
      · rw [hphase_ne g q fun heq => absurd heq hgf]
        exact .refl _
      · rw [← hs']
        exact ⟨rfl, rfl, rfl, rfl⟩
  · have hg' : s.acts g = .process q pc := by
      by_cases hgf : g = f
      · rw [hgf, hacts, update_self] at hg
        cases hg
      · exact (hact_ne g hgf).symm.trans hg
    refine (h.processes g q pc hg').frame (by rw [← hs']; rfl) (by rw [← hs']; rfl)
      (fun f' => hother f' q _ (by simp) (by simp)) (fun _ _ => by rw [hmsgOf])
      (fun _ _ => by rw [hnext']) (fun f' hf' => ?_) (fun f' hf' => ?_)
    · exact ⟨(hother f' q _ (by simp) (by simp)).mpr hf', by rw [hmsgOf], by rw [← hs']; rfl⟩
    · exact ⟨(hother f' q _ (by simp) (by simp)).mpr hf', by rw [hmsgOf]⟩
  · by_cases hgf : g = f
    · exact ⟨snd, pc', by rw [hgf, hacts, update_self]⟩
    · rw [hphase_ne g q fun heq => absurd heq hgf] at hg
      obtain ⟨snd', pc, hact'⟩ := h.isSend g q hg
      exact ⟨snd', pc, (hact_ne g hgf).trans hact'⟩
  · rw [hother g q _ (by simp) (by simp)] at hg
    obtain ⟨pc, hact'⟩ := h.isTaken g q g' hg
    exact ⟨pc, hkeep g' q pc hact'⟩
  · rw [hother g q _ (by simp) (by simp)] at hg
    obtain ⟨pc, hact', hholds⟩ := h.isInvoked g q g' hg
    exact ⟨pc, hkeep g' q pc hact', by rw [hmsgOf]; exact hholds⟩
  · rw [hother g q _ (by simp) (by simp)] at hg
    obtain ⟨pc, hact', hcleans⟩ := h.isLast g q g' hg
    exact ⟨pc, hkeep g' q pc hact', by rw [hmsgOf]; exact hcleans⟩
  · have hold := (h.queue q).same hmsgOf hnext'
    by_cases hqt : q = target
    · subst hqt
      rw [hqueue_self, hfresh_self, List.reverse_append]
      refine Chain.some_iff.mpr ⟨f, (s.fresh q).reverse, rfl, by rw [hmsgOf, hmsg], ?_⟩
      rw [hnext', hlink, ← hhead]
      exact hold
    · rw [hqueue_ne q hqt, hfresh_ne q hqt]
      exact hold
  · by_cases hqt : q = target
    · subst hqt
      rw [hfresh_self]
      exact (h.fresh_nodup q).append (nodup_singleton f) (by simpa using hf_fresh)
    · rw [hfresh_ne q hqt]
      exact h.fresh_nodup q
  · by_cases hqt : q = target
    · subst hqt
      rw [hfresh_self, mem_append, mem_singleton, h.mem_fresh]
      by_cases hgf : g = f
      · subst hgf
        simp [hphase_self]
      · rw [hphase_ne g q fun heq => absurd heq hgf]
        simp [hgf]
    · rw [hfresh_ne q hqt, h.mem_fresh, hphase_ne g q fun _ => hqt]
  · rw [hlog]
    by_cases hgq : g = f ∧ q = target
    · obtain ⟨rfl, rfl⟩ := hgq
      rw [count_log_self, h.enqueues, htodo, hphase_self]
      rfl
    · rw [count_log_of_ne (by rintro ⟨⟩; exact hgq ⟨rfl, rfl⟩), h.enqueues,
        hphase_ne g q fun hg hq => hgq ⟨hg, hq⟩]
  · rw [hlog, count_log_of_ne (by simp), h.invokes]
    by_cases hgq : g = f ∧ q = target
    · obtain ⟨rfl, rfl⟩ := hgq
      rw [htodo, hphase_self]
      rfl
    · rw [hphase_ne g q fun hg hq => hgq ⟨hg, hq⟩]
  · rw [hlog, count_log_of_ne (by simp), h.retires, hretiredBy]

/-! ## Steps after the enqueue -/

/-- Activity `f` moves and may change phases, but enqueues nothing. -/
theorem Inv.advance {s : State} (h : Inv s) {act : Activity}
    (hnone : s.acts f ≠ .none) (hacts : s'.acts = update s.acts f act)
    (hkindSend : ∀ snd pc, s.acts f = .send snd pc → ∃ pc', act = .send snd pc')
    (hkindProcess : ∀ q pc, s.acts f = .process q pc → ∃ pc', act = .process q pc')
    (hhalt : s'.haltRequested = s.haltRequested) (hspawned : s'.spawned = s.spawned)
    (hunborn : ∀ g, g ≠ f → s.batch g = [] ∧ s.handled g = [] ∧ s.retiredBy g = none ∧
      (∀ q, s.phase g q = .todo) → s'.batch g = [] ∧ s'.handled g = [] ∧ s'.retiredBy g = none)
    (hsend : ∀ snd pc, act = .send snd pc → SendOk s' f snd pc)
    (hsends : ∀ g snd pc, g ≠ f → s.acts g = .send snd pc → SendOk s' g snd pc)
    (hprocess : ∀ q pc, act = .process q pc → ProcessOk s' f q pc)
    (hprocesses : ∀ g q pc, g ≠ f → s.acts g = .process q pc → ProcessOk s' g q pc)
    (htodo : ∀ g q, s'.phase g q = .todo ↔ s.phase g q = .todo)
    (htaken : ∀ g q k, s'.phase g q = .taken k → s.phase g q = .taken k ∨
      k = f ∧ ∃ pc, act = .process q pc)
    (hinvoked : ∀ g q k, s'.phase g q = .invoked k → k ≠ f ∧ s.phase g q = .invoked k ∨
      k = f ∧ ∃ pc, act = .process q pc ∧ pc.holds (s.msgOf g))
    (hlast : ∀ g q k, s'.phase g q = .last k → k ≠ f ∧ s.phase g q = .last k ∨
      k = f ∧ ∃ pc, act = .process q pc ∧ pc.cleans (s.msgOf g))
    (hqueue : ∀ q, Chain s' q (s'.queue q) (s'.fresh q).reverse)
    (hfresh : ∀ q, (s'.fresh q).Nodup)
    (hmem : ∀ q g, g ∈ s'.fresh q ↔ s'.phase g q = .queued)
    (henqueues : ∀ g q, s'.log.count (.enqueue g q) = s.log.count (.enqueue g q))
    (hinvokes : ∀ g q, s'.log.count (.invoke g q) = if (s'.phase g q).handled then 1 else 0)
    (hretires : ∀ g k, s'.log.count (.retire g k) = if s'.retiredBy g = some k then 1 else 0) :
    Inv s' := by
  have hself : s'.acts f = act := by rw [hacts, update_self]
  have hact_ne : ∀ g, g ≠ f → s'.acts g = s.acts g := by
    intro g hg
    rw [hacts, update_of_ne hg]
  have hmsgOf : s'.msgOf = s.msgOf := by
    refine msgOf_of_update hacts ?_
    rw [msgOf]
    cases hold : s.acts f with
    | none => exact absurd hold hnone
    | send snd pc =>
      obtain ⟨pc', rfl⟩ := hkindSend snd pc hold
      rfl
    | process q pc =>
      obtain ⟨pc', rfl⟩ := hkindProcess q pc hold
      rfl
  refine
    { noHalt := fun p => by rw [hhalt]; exact h.noHalt p
      unborn := fun g hg => ?_
      sends := fun g snd pc hg => ?_
      processes := fun g q pc hg => ?_
      isSend := fun g q hg => ?_
      isTaken := fun g q k hg => ?_
      isInvoked := fun g q k hg => ?_
      isLast := fun g q k hg => ?_
      queue := hqueue
      fresh_nodup := hfresh
      mem_fresh := hmem
      enqueues := fun g q => by
        rw [henqueues, h.enqueues, if_congr (htodo g q).symm rfl rfl]
      invokes := hinvokes
      retires := hretires }
  · rw [hspawned] at hg
    have hgf : g ≠ f := by
      have := h.lt_spawned hnone
      omega
    obtain ⟨h₁, h₂, h₃, h₄, h₅⟩ := h.unborn g hg
    obtain ⟨h₂', h₃', h₄'⟩ := hunborn g hgf ⟨h₂, h₃, h₄, h₅⟩
    exact ⟨(hact_ne g hgf).trans h₁, h₂', h₃', h₄', fun q => (htodo g q).mpr (h₅ q)⟩
  · by_cases hgf : g = f
    · rw [hgf] at hg ⊢
      exact hsend snd pc (hself.symm.trans hg)
    · exact hsends g snd pc hgf ((hact_ne g hgf).symm.trans hg)
  · by_cases hgf : g = f
    · rw [hgf] at hg ⊢
      exact hprocess q pc (hself.symm.trans hg)
    · exact hprocesses g q pc hgf ((hact_ne g hgf).symm.trans hg)
  · obtain ⟨snd, pc, hact⟩ := h.isSend g q fun heq => hg ((htodo g q).mpr heq)
    by_cases hgf : g = f
    · obtain ⟨pc', heq⟩ := hkindSend snd pc (hgf ▸ hact)
      exact ⟨snd, pc', by rw [hgf, hself, heq]⟩
    · exact ⟨snd, pc, (hact_ne g hgf).trans hact⟩
  · rcases htaken g q k hg with hold | ⟨rfl, pc, heq⟩
    · obtain ⟨pc, hact⟩ := h.isTaken g q k hold
      by_cases hkf : k = f
      · obtain ⟨pc', heq⟩ := hkindProcess q pc (hkf ▸ hact)
        exact ⟨pc', by rw [hkf, hself, heq]⟩
      · exact ⟨pc, (hact_ne k hkf).trans hact⟩
    · exact ⟨pc, hself.trans heq⟩
  · rw [hmsgOf]
    rcases hinvoked g q k hg with ⟨hkf, hold⟩ | ⟨rfl, pc, heq, hholds⟩
    · obtain ⟨pc, hact, hholds⟩ := h.isInvoked g q k hold
      exact ⟨pc, (hact_ne k hkf).trans hact, hholds⟩
    · exact ⟨pc, hself.trans heq, hholds⟩
  · rw [hmsgOf]
    rcases hlast g q k hg with ⟨hkf, hold⟩ | ⟨rfl, pc, heq, hcleans⟩
    · obtain ⟨pc, hact, hcleans⟩ := h.isLast g q k hold
      exact ⟨pc, (hact_ne k hkf).trans hact, hcleans⟩
    · exact ⟨pc, hself.trans heq, hcleans⟩

variable {s : State}

section

variable (h : Inv s)

include h

/-- One iteration of `reverse_list` moves the head of one list to the other. -/
theorem Inv.reverse {entry : Entry}
    {rev : Option Entry} (hact : s.acts g = .process q (.reverse (some entry) rev)) :
    Inv ({ s with next := update s.next entry rev }.setAct g
      (.process q (.reverse (s.next entry) (some entry)))) := by
  generalize hs' : ({ s with next := update s.next entry rev } : State).setAct g
    (.process q (.reverse (s.next entry) (some entry))) = s'
  have hacts : s'.acts = update s.acts g
      (.process q (.reverse (s.next entry) (some entry))) := by rw [← hs']; rfl
  have hpast : SamePast s s' := by
    rw [← hs']
    exact ⟨rfl, rfl, rfl, rfl, rfl, rfl, rfl, rfl, rfl, rfl, rfl, rfl⟩
  have hnext : s'.next = update s.next entry rev := by rw [← hs']; rfl
  have hasync : s'.async = s.async := by rw [← hs']; rfl
  have hrefs : s'.refs = s.refs := by rw [← hs']; rfl
  have hmsg : s.msgOf g = 0 := by
    rw [msgOf, hact]
    rfl
  have hmsgOf : s'.msgOf = s.msgOf := msgOf_of_update hacts hmsg.symm
  obtain ⟨rest, hb, hnodup, hmem, hh, l₁, l₂, h₁, h₂, heq⟩ := h.processes g q _ hact
  obtain ⟨f, t, rfl, rfl, ht⟩ := Chain.some_iff.mp h₁
  have hf : s.phase f q = .taken g := (hmem f).mp (by rw [← heq]; simp)
  obtain ⟨snd, pcf, hactf, -, hrf, hsf⟩ :=
    @Inv.owner s h f q (by rw [hf]; simp) (by rw [hf]; simp)
  -- the entry is used for this list only: another one on its way is another entry
  have hlink : ∀ f' q', s.phase f' q' ≠ .todo → s.phase f' q' ≠ .dropped →
      (f' = f → q' ≠ q) → s'.next ⟨s.msgOf f', q'⟩ = s.next ⟨s.msgOf f', q'⟩ := by
    intro f' q' htodo hdropped hne
    rw [hnext, update_of_ne]
    intro hentry
    obtain ⟨hm, rfl⟩ := Entry.mk.inj hentry
    obtain ⟨-, -, -, -, -, hsf'⟩ := h.owner htodo hdropped
    exact hne (hsf'.symm.trans ((congrArg s.sender hm).trans hsf)) rfl
  rw [← heq] at hnodup
  have hnodup' : (t.reverse ++ (f :: l₂)).Nodup := by simpa using hnodup
  have hft : f ∉ t ∧ f ∉ l₂ := by
    have := (nodup_middle.mp hnodup')
    simpa using (nodup_cons.mp this).1
  have hchain : ∀ p fs, (∀ r ∈ fs, r ∈ t ∨ r ∈ l₂) → Chain s q p fs → Chain s' q p fs := by
    intro p fs hfs hc
    refine hc.frame (fun _ _ => by rw [hmsgOf]) fun r hr => ?_
    have hrf : r ≠ f := by
      rintro rfl
      exact (hfs r hr).elim hft.1 hft.2
    have hr' : s.phase r q = .taken g := by
      refine (hmem r).mp ?_
      rw [← heq]
      rcases hfs r hr with hr | hr <;> simp [hr]
    exact hlink r q (by rw [hr']; simp) (by rw [hr']; simp) fun heq' => absurd heq' hrf
  refine h.move hpast (h.lt_spawned (by rw [hact]; simp)) hacts hmsg.symm ?_ ?_
    (by rw [hact]; simp) ?_ ?_ ?_
  · intro snd' pc' hact'
    rw [hact] at hact'
    cases hact'
  · intro q' pc' hact'
    obtain ⟨rfl, rfl⟩ := Activity.process.inj (hact.symm.trans hact')
    refine ⟨_, rfl, ⟨rest, by rw [hpast.batch, hpast.handled, hb], by rw [← heq]; exact hnodup,
      fun r => by rw [hpast.phase, hmem], ?_⟩, fun _ hm => hm, fun _ hm => hm⟩
    refine ⟨by rw [hpast.handled, hh], t, f :: l₂, ?_, ?_, by simpa using heq⟩
    · exact hchain _ _ (fun r hr => .inl hr) ht
    · refine Chain.some_iff.mpr ⟨f, l₂, rfl, by rw [hmsgOf], ?_⟩
      rw [hnext, update_self]
      exact hchain _ _ (fun r hr => .inr hr) h₂
  · intro f' snd' pc' _ hact'
    refine (h.sends f' snd' pc' hact').frame hpast.count
      (fun r => by rw [hpast.phase]; exact .refl _) (by rw [hpast.retiredBy])
      (fun _ => ⟨by rw [hpast.sender], by rw [hpast.pooled], by rw [hasync], by rw [hrefs]⟩)
      (fun r hr => ?_)
    rw [hnext, update_of_ne]
    intro hentry
    obtain ⟨hm, rfl⟩ := Entry.mk.inj hentry
    have hok := h.sends f' snd' pc' hact'
    have hff : f' = f := by
      rw [← hsf, ← hm]
      exact (hok.sender (hok.not_retired hr)).symm
    subst hff
    rw [(hok.remaining r (hok.within r hr)).mpr hr] at hf
    cases hf
  · intro g' q' pc' hg' hact'
    refine (h.processes g' q' pc' hact').frame (by rw [hpast.batch]) (by rw [hpast.handled])
      (fun r => by rw [hpast.phase]) (fun r _ => by rw [hmsgOf]) (fun r hr => ?_)
      (fun r hr => ⟨by rw [hpast.phase, hr], by rw [hmsgOf], by rw [hasync]⟩)
      (fun r hr => ⟨by rw [hpast.phase, hr], by rw [hmsgOf]⟩)
    refine hlink r q' (by rw [hr]; simp) (by rw [hr]; simp) ?_
    rintro rfl rfl
    rw [hf] at hr
    exact hg' (Phase.taken.inj hr).symm
  · intro q'
    refine (h.queue q').frame (fun _ _ => by rw [hmsgOf]) (fun r hr => ?_)
    have hr' := (h.mem_fresh q' r).mp (mem_reverse.mp hr)
    refine hlink r q' (by rw [hr']; simp) (by rw [hr']; simp) ?_
    rintro rfl rfl
    rw [hf] at hr'
    cases hr'

/-- The non-empty exchange of `smp_process_pending_messages`. -/
theorem Inv.exchanged (hact : s.acts g = .process q .exchange) :
    Inv ((Message.exchanged s g q).setAct g (.process q (.reverse (s.queue q) none))) := by
  generalize hs' : (Message.exchanged s g q).setAct g
    (.process q (.reverse (s.queue q) none)) = s'
  have hacts : s'.acts = update s.acts g
      (.process q (.reverse (s.queue q) none)) := by rw [← hs']; rfl
  have hphase : ∀ f r, s'.phase f r =
      if r = q ∧ s.phase f r = .queued then .taken g else s.phase f r := by
    intro f r
    rw [← hs']
    rfl
  have hiff : ∀ f r x, x ≠ .queued → x ≠ .taken g → (s'.phase f r = x ↔ s.phase f r = x) := by
    intro f r x hx hx'
    rw [hphase]
    split
    · rename_i hq
      rw [hq.2]
      exact ⟨fun heq => absurd heq.symm hx', fun heq => absurd heq.symm hx⟩
    · rfl
  have hmsgOf : s'.msgOf = s.msgOf :=
    msgOf_of_update hacts (State.msgOf_of_process hact).symm
  have hnext : s'.next = s.next := by rw [← hs']; rfl
  have hasync : s'.async = s.async := by rw [← hs']; rfl
  have hlog : s'.log = s.log := by rw [← hs']; rfl
  have hretired : s'.retiredBy = s.retiredBy := by rw [← hs']; rfl
  have hhandled : s'.handled = s.handled := by rw [← hs']; rfl
  have hbatch_ne : ∀ g', g' ≠ g → s'.batch g' = s.batch g' := by
    intro g' hg'
    rw [← hs']
    exact update_of_ne hg' _ _
  obtain ⟨_, -, -, hrest, hh, rfl⟩ := h.processes g q _ hact
  have hnot_taken : ∀ f, s.phase f q ≠ .taken g := by
    intro f hf
    have hmem := (hrest f).mpr hf
    simp at hmem
  have hnot_invoked : ∀ f r, s.phase f r ≠ .invoked g := by
    intro f r hf
    obtain ⟨pc, hact', hholds⟩ := h.isInvoked f r g hf
    obtain ⟨-, rfl⟩ := Activity.process.inj (hact.symm.trans hact')
    exact hholds
  have hnot_last : ∀ f r, s.phase f r ≠ .last g := by
    intro f r hf
    obtain ⟨pc, hact', hcleans⟩ := h.isLast f r g hf
    obtain ⟨-, rfl⟩ := Activity.process.inj (hact.symm.trans hact')
    exact hcleans
  refine h.advance (by rw [hact]; simp) hacts
    ?_ ?_ (by rw [← hs']; rfl) (by rw [← hs']; rfl) ?_ ?_ ?_ ?_ ?_
    (fun f r => hiff f r _ (by simp) (by simp)) ?_ ?_ ?_ ?_ ?_ ?_
    (fun f r => by rw [hlog]) ?_ (fun f k => by rw [hlog, hretired]; exact h.retires f k)
  · intro snd pc hact'
    rw [hact] at hact'
    cases hact'
  · intro q' pc hact'
    obtain ⟨rfl, -⟩ := Activity.process.inj (hact.symm.trans hact')
    exact ⟨_, rfl⟩
  · intro g' hg' hold
    rw [hbatch_ne g' hg', hhandled, hretired]
    exact ⟨hold.1, hold.2.1, hold.2.2.1⟩
  · rintro _ _ ⟨⟩
  · intro f snd pc _ hactf
    refine (h.sends f snd pc hactf).frame (by rw [← hs']; rfl) (fun r => ?_) (by rw [hretired])
      (fun _ => by rw [← hs']; exact ⟨rfl, rfl, rfl, rfl⟩) (fun _ _ => by rw [hnext])
    rw [hphase]
    split
    · rename_i hr
      rw [hr.2]
      exact ⟨by simp, by simp, rfl, by simp⟩
    · exact .refl _
  · rintro _ _ ⟨⟩
    have hbatch : s'.batch g = s.fresh q := by
      rw [← hs']
      exact update_self _ _ _
    refine ⟨s.fresh q, by rw [hbatch, hhandled, hh]; rfl, h.fresh_nodup q, fun f => ?_,
      by rw [hhandled, hh], (s.fresh q).reverse, [], (h.queue q).same hmsgOf hnext,
      Chain.none_iff.mpr rfl, by simp⟩
    rw [h.mem_fresh, hphase]
    constructor
    · intro hf
      rw [if_pos ⟨rfl, hf⟩]
    · intro hf
      by_contra hne
      rw [if_neg fun hq => hne hq.2] at hf
      exact hnot_taken f hf
  · intro g' q' pc hg' hactg
    refine (h.processes g' q' pc hactg).frame (hbatch_ne g' hg') (by rw [hhandled])
      (fun f => hiff f q' _ (by simp) (by simpa using hg')) (fun _ _ => by rw [hmsgOf])
      (fun _ _ => by rw [hnext]) (fun f hf => ?_) (fun f hf => ?_)
    · exact ⟨(hiff f q' _ (by simp) (by simp)).mpr hf, by rw [hmsgOf], by rw [hasync]⟩
    · exact ⟨(hiff f q' _ (by simp) (by simp)).mpr hf, by rw [hmsgOf]⟩
  · intro f r k hf
    rw [hphase] at hf
    split at hf
    · rename_i hr
      exact .inr ⟨(Phase.taken.inj hf).symm, _, by rw [hr.1]⟩
    · exact .inl hf
  · intro f r k hf
    rw [hiff f r _ (by simp) (by simp)] at hf
    exact .inl ⟨fun hk => hnot_invoked f r (hk ▸ hf), hf⟩
  · intro f r k hf
    rw [hiff f r _ (by simp) (by simp)] at hf
    exact .inl ⟨fun hk => hnot_last f r (hk ▸ hf), hf⟩
  · intro r
    by_cases hr : r = q
    · subst hr
      have hq : s'.queue r = none := by rw [← hs']; exact update_self _ _ _
      have hfr : s'.fresh r = [] := by rw [← hs']; exact update_self _ _ _
      rw [hq, hfr]
      exact Chain.none_iff.mpr rfl
    · have hq : s'.queue r = s.queue r := by rw [← hs']; exact update_of_ne hr _ _
      have hfr : s'.fresh r = s.fresh r := by rw [← hs']; exact update_of_ne hr _ _
      rw [hq, hfr]
      exact (h.queue r).same hmsgOf hnext
  · intro r
    by_cases hr : r = q
    · have hfr : s'.fresh r = [] := by
        rw [← hs', hr]
        exact update_self _ _ _
      rw [hfr]
      exact nodup_nil
    · have hfr : s'.fresh r = s.fresh r := by rw [← hs']; exact update_of_ne hr _ _
      rw [hfr]
      exact h.fresh_nodup r
  · intro r f
    rw [hphase]
    by_cases hr : r = q
    · subst hr
      have hfr : s'.fresh r = [] := by
        rw [← hs']
        exact update_self _ _ _
      rw [hfr]
      by_cases hf : s.phase f r = .queued
      · simp [hf]
      · simp [hf]
    · have hfr : s'.fresh r = s.fresh r := by rw [← hs']; exact update_of_ne hr _ _
      rw [hfr, h.mem_fresh, if_neg fun hq => hr hq.1]
  · intro f r
    rw [hlog, h.invokes, hphase]
    by_cases hr : r = q ∧ s.phase f r = .queued
    · rw [if_pos hr, hr.2]
      rfl
    · rw [if_neg hr]

/-- The message of the entry at the front is handled. -/
theorem Inv.invoked {cur : Entry} {next : Option Entry}
    (hact : s.acts g = .process q (.invoke cur next)) :
    Inv ((Message.invoked s g q cur).setAct g (.process q (.readAsync cur.msg next))) := by
  obtain ⟨_, hb, hnodup, hmem, f, t, rfl, rfl, ht⟩ := h.processes g q _ hact
  have hf : s.phase f q = .taken g := (hmem f).mp mem_cons_self
  obtain ⟨snd, pcf, hactf, -, hrf, hsf⟩ :=
    @Inv.owner s h f q (by rw [hf]; simp) (by rw [hf]; simp)
  generalize hs' : (Message.invoked s g q ⟨s.msgOf f, q⟩).setAct g
    (.process q (.readAsync (s.msgOf f) next)) = s'
  have hacts : s'.acts = update s.acts g
      (.process q (.readAsync (s.msgOf f) next)) := by rw [← hs']; rfl
  have hphase : ∀ f' r, s'.phase f' r =
      if f' = f ∧ r = q then .invoked g else s.phase f' r := by
    intro f' r
    have := State.setPhase_phase { s with
      handled := update s.handled g (s.handled g ++ [s.sender (s.msgOf f)])
      log := s.log ++ [Event.invoke (s.sender (s.msgOf f)) q] } f q (.invoked g) f' r
    rw [← hs', ← this]
    simp only [Message.invoked, setAct, hsf]
  have hiff : ∀ f' r x, x ≠ .taken g → x ≠ .invoked g →
      (s'.phase f' r = x ↔ s.phase f' r = x) := by
    intro f' r x hx hx'
    rw [hphase]
    split
    · rename_i hq
      rw [hq.1, hq.2, hf]
      exact ⟨fun heq => absurd heq.symm hx', fun heq => absurd heq.symm hx⟩
    · rfl
  have hmsgOf : s'.msgOf = s.msgOf :=
    msgOf_of_update hacts (State.msgOf_of_process hact).symm
  have hnext : s'.next = s.next := by rw [← hs']; rfl
  have hasync : s'.async = s.async := by rw [← hs']; rfl
  have hlog : s'.log = s.log ++ [.invoke f q] := by
    rw [← hs']
    simp only [Message.invoked, setPhase, setAct, hsf]
  have hretired : s'.retiredBy = s.retiredBy := by rw [← hs']; rfl
  have hbatch : s'.batch = s.batch := by rw [← hs']; rfl
  have hfresh : s'.fresh = s.fresh := by rw [← hs']; rfl
  have hqueue : s'.queue = s.queue := by rw [← hs']; rfl
  have hhandled : s'.handled g = s.handled g ++ [f] := by
    rw [← hs']
    simp [Message.invoked, setPhase, setAct, hsf]
  have hhandled_ne : ∀ g', g' ≠ g → s'.handled g' = s.handled g' := by
    intro g' hg'
    rw [← hs']
    exact update_of_ne hg' _ _
  obtain ⟨hft, hnodup'⟩ := nodup_cons.mp hnodup
  have hnot_last : ∀ f' r, s.phase f' r ≠ .last g := by
    intro f' r hf'
    obtain ⟨pc, hact', hcleans⟩ := h.isLast f' r g hf'
    obtain ⟨-, rfl⟩ := Activity.process.inj (hact.symm.trans hact')
    exact hcleans
  have hnot_invoked : ∀ f' r, s.phase f' r ≠ .invoked g := by
    intro f' r hf'
    obtain ⟨pc, hact', hholds⟩ := h.isInvoked f' r g hf'
    obtain ⟨-, rfl⟩ := Activity.process.inj (hact.symm.trans hact')
    exact hholds
  refine h.advance (by rw [hact]; simp) hacts
    ?_ ?_ (by rw [← hs']; rfl) (by rw [← hs']; rfl) ?_ ?_ ?_ ?_ ?_
    (fun f' r => hiff f' r _ (by simp) (by simp)) ?_ ?_ ?_ ?_ ?_ ?_
    (fun f' r => by rw [hlog, count_log_of_ne (by simp)]) ?_
    (fun f' k => by rw [hlog, count_log_of_ne (by simp), hretired]; exact h.retires f' k)
  · intro snd' pc hact'
    rw [hact] at hact'
    cases hact'
  · intro q' pc hact'
    obtain ⟨rfl, -⟩ := Activity.process.inj (hact.symm.trans hact')
    exact ⟨_, rfl⟩
  · intro g' hg' hold
    rw [hbatch, hhandled_ne g' hg', hretired]
    exact ⟨hold.1, hold.2.1, hold.2.2.1⟩
  · rintro _ _ ⟨⟩
  · intro f' snd' pc _ hactf'
    refine (h.sends f' snd' pc hactf').frame (by rw [← hs']; rfl) (fun r => ?_)
      (by rw [hretired]) (fun _ => by rw [← hs']; exact ⟨rfl, rfl, rfl, rfl⟩)
      (fun _ _ => by rw [hnext])
    rw [hphase]
    split
    · rename_i hr
      rw [hr.1, hr.2, hf]
      exact ⟨by simp, by simp, rfl, by simp⟩
    · exact .refl _
  · rintro _ _ ⟨⟩
    refine ⟨t, by rw [hbatch, hhandled, hb]; simp, hnodup', fun f' => ?_,
      ht.same hmsgOf hnext, f, by rw [hmsgOf], by rw [hphase, if_pos ⟨rfl, rfl⟩]⟩
    rw [hphase]
    by_cases hff : f' = f
    · subst hff
      simp [hft]
    · rw [if_neg fun hq => hff hq.1, ← hmem]
      simp [hff]
  · intro g' q' pc hg' hactg
    refine (h.processes g' q' pc hactg).frame (by rw [hbatch]) (hhandled_ne g' hg')
      (fun f' => hiff f' q' _ (by simpa using hg') (by simp)) (fun _ _ => by rw [hmsgOf])
      (fun _ _ => by rw [hnext]) (fun f' hf' => ?_) (fun f' hf' => ?_)
    · exact ⟨(hiff f' q' _ (by simp) (by simpa using hg')).mpr hf', by rw [hmsgOf],
        by rw [hasync]⟩
    · exact ⟨(hiff f' q' _ (by simp) (by simp)).mpr hf', by rw [hmsgOf]⟩
  · intro f' r k hf'
    rw [hphase] at hf'
    split at hf'
    · cases hf'
    · exact .inl hf'
  · intro f' r k hf'
    rw [hphase] at hf'
    split at hf'
    · rename_i hr
      exact .inr ⟨(Phase.invoked.inj hf').symm, _, by rw [hr.2], by rw [hr.1]; rfl⟩
    · exact .inl ⟨fun hk => hnot_invoked f' r (hk ▸ hf'), hf'⟩
  · intro f' r k hf'
    rw [hiff f' r _ (by simp) (by simp)] at hf'
    exact .inl ⟨fun hk => hnot_last f' r (hk ▸ hf'), hf'⟩
  · intro r
    rw [hqueue, hfresh]
    exact (h.queue r).same hmsgOf hnext
  · intro r
    rw [hfresh]
    exact h.fresh_nodup r
  · intro r f'
    rw [hfresh, h.mem_fresh, hiff f' r _ (by simp) (by simp)]
  · intro f' r
    rw [hlog, hphase]
    by_cases hfr : f' = f ∧ r = q
    · obtain ⟨rfl, rfl⟩ := hfr
      have hif : (if f' = f' ∧ r = r then Phase.invoked g else s.phase f' r) = .invoked g :=
        if_pos ⟨rfl, rfl⟩
      rw [count_log_self, h.invokes, hif, hf]
      rfl
    · rw [count_log_of_ne (by rintro ⟨⟩; exact hfr ⟨rfl, rfl⟩), h.invokes, if_neg hfr]

/-- A target that has handled a message and still holds its reference is the only
activity about to give it up. -/
theorem Inv.invoked_unique {pc : ProcessPc} (hact : s.acts g = .process q pc)
    (hpc : pc.holds (s.msgOf f)) (hf : s.phase f q = .invoked g) (hf' : s.phase f' r = .invoked g) :
    f' = f ∧ r = q := by
  obtain ⟨pc', hact', hholds⟩ := h.isInvoked f' r g hf'
  obtain ⟨rfl, rfl⟩ := Activity.process.inj (hact.symm.trans hact')
  have hmsg : s.msgOf f' = s.msgOf f := by
    cases pc <;> first | exact hholds.symm.trans hpc | exact hpc.elim
  obtain ⟨-, -, -, -, -, hs⟩ := @Inv.owner s h f q (by rw [hf]; simp) (by rw [hf]; simp)
  obtain ⟨-, -, -, -, -, hs'⟩ := @Inv.owner s h f' q (by rw [hf']; simp) (by rw [hf']; simp)
  exact ⟨hs'.symm.trans ((congrArg s.sender hmsg).trans hs), rfl⟩

theorem Inv.last_unique {pc : ProcessPc} (hact : s.acts g = .process q pc)
    (hpc : pc.cleans (s.msgOf f)) (hf : s.phase f q = .last g) (hf' : s.phase f' r = .last g) :
    f' = f ∧ r = q := by
  obtain ⟨pc', hact', hcleans⟩ := h.isLast f' r g hf'
  obtain ⟨rfl, rfl⟩ := Activity.process.inj (hact.symm.trans hact')
  have hmsg : s.msgOf f' = s.msgOf f := by
    cases pc <;> first | exact hcleans.symm.trans hpc | exact hpc.elim
  obtain ⟨-, -, -, -, -, hs⟩ := @Inv.owner s h f q (by rw [hf]; simp) (by rw [hf]; simp)
  obtain ⟨-, -, -, -, -, hs'⟩ := @Inv.owner s h f' q (by rw [hf']; simp) (by rw [hf']; simp)
  exact ⟨hs'.symm.trans ((congrArg s.sender hmsg).trans hs), rfl⟩

/-- While a target holds a reference, the count is not zero: the `VERIFY` of
`smp_process_pending_messages` holds. -/
theorem Inv.refs_pos (hf : s.phase f q = .invoked g) :
    ∃ snd pc, s.acts f = .send snd pc ∧ q ∈ snd.targets s.count ∧ s.retiredBy f = none ∧
      s.sender snd.msg = f ∧ s.async snd.msg = snd.async ∧
      s.refs snd.msg = (snd.targets s.count).countP (fun r => (s.phase f r).held) ∧
      0 < s.refs snd.msg := by
  obtain ⟨snd, pc, hact, hq, hr, -⟩ := @Inv.owner s h f q (by rw [hf]; simp) (by rw [hf]; simp)
  have hok := h.sends f snd pc hact
  have hnot : q ∉ pc.remaining (snd.targets s.count) := by
    intro hrem
    rw [(hok.remaining q hq).mpr hrem] at hf
    cases hf
  have hcounted : pc.counted ∧ pc ≠ .storeAsync := by
    cases pc <;> first | exact ⟨trivial, by simp⟩ | exact absurd hq hnot
  have hrefs := hok.refs hr hcounted.1
  refine ⟨snd, pc, hact, hq, hr, hok.sender hr, hok.async hr hcounted.2, hrefs, ?_⟩
  rw [hrefs]
  exact countP_pos_iff.mpr ⟨q, hq, by rw [hf]; rfl⟩

/-- `msg->refs.fetch_sub(1)`: the target gives up its reference. -/
theorem Inv.fetchSub {msg : Nat} {async : Bool}
    {next : Option Entry} (hact : s.acts g = .process q (.fetchSub msg async next)) : Inv (({ s with
      refs := update s.refs msg (s.refs msg - 1)
      log := s.log ++ [Event.drop (s.sender msg) q] }.setPhase
      (s.sender msg) q (if s.refs msg = 1 ∧ async then .last g else .dropped)).setAct g
      (.process q (if s.refs msg = 1 ∧ async then .cleanup msg next else .checkHalt next))) := by
  obtain ⟨rest, hb, hnodup, hmem, hchain, f, rfl, hf, hasync⟩ := h.processes g q _ hact
  obtain ⟨snd, pcf, hactf, hq, hrf, hsf, haf, hrefs, hpos⟩ := h.refs_pos hf
  have hok := h.sends f snd pcf hactf
  have hmsg : s.msgOf f = snd.msg := msgOf_of_act hactf
  rw [hmsg] at hact hasync ⊢
  rw [hsf]
  generalize hx : (if s.refs snd.msg = 1 ∧ async then Phase.last g else .dropped) = x
  generalize hpc' : (if s.refs snd.msg = 1 ∧ async then ProcessPc.cleanup snd.msg next
    else .checkHalt next) = pc'
  generalize hs' : (({ s with
    refs := update s.refs snd.msg (s.refs snd.msg - 1)
    log := s.log ++ [Event.drop f q] } : State).setPhase f q x).setAct
      g (.process q pc') = s'
  have hxlast : ∀ k, x = .last k → k = g ∧ s.refs snd.msg = 1 ∧ async = true := by
    intro k hk
    rw [← hx] at hk
    split at hk
    · rename_i hcond
      exact ⟨(Phase.last.inj hk).symm, hcond⟩
    · cases hk
  have hxheld : x.held = false := by
    rw [← hx]
    split <;> rfl
  have hxhandled : x.handled = true := by
    rw [← hx]
    split <;> rfl
  have hxne : ∀ y : Phase, (y = .todo ∨ y = .queued ∨ (∃ k, y = .taken k) ∨ ∃ k, y = .invoked k) →
      x ≠ y := by
    rintro y (rfl | rfl | ⟨k, rfl⟩ | ⟨k, rfl⟩) <;> rw [← hx] <;> split <;> simp
  have hacts : s'.acts = update s.acts g (.process q pc') := by rw [← hs']; rfl
  have hphase : ∀ f' r, s'.phase f' r = if f' = f ∧ r = q then x else s.phase f' r := by
    intro f' r
    rw [← State.setPhase_phase s f q x f' r, ← hs']
    rfl
  have hphase_self : s'.phase f q = x := by rw [hphase, if_pos ⟨rfl, rfl⟩]
  have hphase_ne : ∀ f' r, s.phase f' r ≠ .invoked g → s'.phase f' r = s.phase f' r := by
    intro f' r hne
    rw [hphase, if_neg]
    rintro ⟨rfl, rfl⟩
    exact hne hf
  have hiff : ∀ f' r y, x ≠ y → y ≠ .invoked g → (s'.phase f' r = y ↔ s.phase f' r = y) := by
    intro f' r y hxy hy
    by_cases hfr : s.phase f' r = .invoked g
    · rw [hphase]
      split
      · rw [hfr]
        exact ⟨fun heq => absurd heq hxy, fun heq => absurd heq.symm hy⟩
      · rfl
    · rw [hphase_ne f' r hfr]
  have hmsgOf : s'.msgOf = s.msgOf :=
    msgOf_of_update hacts (State.msgOf_of_process hact).symm
  have hnext : s'.next = s.next := by rw [← hs']; rfl
  have hlog : s'.log = s.log ++ [Event.drop f q] := by rw [← hs']; rfl
  have hretired : s'.retiredBy = s.retiredBy := by rw [← hs']; rfl
  have hcount : s'.count = s.count := by rw [← hs']; rfl
  have hunchanged : s'.batch = s.batch ∧ s'.handled = s.handled ∧ s'.fresh = s.fresh ∧
      s'.queue = s.queue ∧ s'.async = s.async ∧ s'.sender = s.sender ∧
      s'.pooled = s.pooled := by
    rw [← hs']
    exact ⟨rfl, rfl, rfl, rfl, rfl, rfl, rfl⟩
  obtain ⟨hbatch, hhandled, hfresh, hqueue, hasync', hsender, hpooled⟩ := hunchanged
  have hrefs_self : s'.refs snd.msg = s.refs snd.msg - 1 := by
    rw [← hs']
    exact update_self _ _ _
  have hrefs_ne : ∀ m, m ≠ snd.msg → s'.refs m = s.refs m := by
    intro m hm
    rw [← hs']
    exact update_of_ne hm _ _
  have hholds : (ProcessPc.fetchSub snd.msg async next).holds (s.msgOf f) := hmsg.symm
  -- the references of the other targets
  have hheld : (snd.targets s.count).countP (fun r => (s'.phase f r).held) =
      s.refs snd.msg - 1 := by
    have hupd := countP_held_update (snd.targets_nodup s.count) hq (s.phase f) x
    have hfun : ∀ r, s'.phase f r = update (s.phase f) q x r := by
      intro r
      rw [hphase]
      by_cases hr : r = q
      · rw [hr, if_pos ⟨rfl, rfl⟩, update_self]
      · rw [if_neg fun hc => hr hc.2, update_of_ne hr]
    simp only [hfun]
    rw [hf, hxheld, ← hrefs] at hupd
    change _ + 1 = _ + 0 at hupd
    omega
  refine h.advance (by rw [hact]; simp) hacts ?_ ?_ (by rw [← hs']; rfl) (by rw [← hs']; rfl)
    (fun g' _ hold => by rw [hbatch, hhandled, hretired]; exact ⟨hold.1, hold.2.1, hold.2.2.1⟩)
    ?_ ?_ ?_ ?_ (fun f' r => hiff f' r _ (hxne _ (by simp)) (by simp)) ?_ ?_ ?_ ?_
    (fun r => by rw [hfresh]; exact h.fresh_nodup r) ?_ (fun f' r => by rw [hlog, count_log_of_ne (by simp)]) ?_
    (fun f' k => by rw [hlog, count_log_of_ne (by simp), hretired]; exact h.retires f' k)
  · intro snd' pc hact'
    rw [hact] at hact'
    cases hact'
  · intro q' pc hact'
    obtain ⟨rfl, -⟩ := Activity.process.inj (hact.symm.trans hact')
    exact ⟨_, rfl⟩
  · rintro _ _ ⟨⟩
  · intro f' snd' pc' _ hactf'
    have hok' := h.sends f' snd' pc' hactf'
    by_cases hff : f' = f
    · subst hff
      obtain ⟨rfl, rfl⟩ := Activity.send.inj (hactf'.symm.trans hactf)
      -- this send's own message: one reference less
      exact
        { outside := fun r hr => by
            rw [hcount] at hr
            have hrq : r ≠ q := fun heq => hr (heq ▸ hq)
            rw [hphase, if_neg fun hc => hrq hc.2]
            exact hok.outside r hr
          remaining := fun r hr => by
            rw [hcount] at hr ⊢
            rw [hiff f' r _ (hxne _ (by simp)) (by simp)]
            exact hok.remaining r hr
          nodup := by rw [hcount]; exact hok.nodup
          within := by rw [hcount]; exact hok.within
          sender := fun _ => by rw [hsender]; exact hsf
          unpooled := fun _ => by rw [hpooled]; exact hok.unpooled hrf
          async := fun _ _ => by rw [hasync']; exact haf
          refs := fun _ _ => by rw [hcount, hrefs_self, hheld]
          link := fun target rest need next' heq => by
            rw [hnext]
            exact hok.link target rest need next' heq
          waits := hok.waits
          cleanup := fun heq => by
            have hdropped := hok.cleanup heq q hq
            rw [hf] at hdropped
            cases hdropped
          done := by rw [hretired]; exact hok.done
          retired := fun k hk => by
            rw [hretired, hrf] at hk
            cases hk
          live := fun _ ha => by
            by_cases hone : s.refs snd'.msg = 1
            · refine ⟨q, hcount ▸ hq, ?_⟩
              rw [hphase_self, ← hx, if_pos ⟨hone, by rw [hasync, haf, ha]⟩]
              simp
            · have hrest : 0 < (snd'.targets s.count).countP fun r => (s'.phase f' r).held := by
                rw [hheld]
                omega
              obtain ⟨r, hr, hheld'⟩ := countP_pos_iff.mp hrest
              refine ⟨r, hcount ▸ hr, fun hdropped => ?_⟩
              rw [hdropped] at hheld'
              cases hheld'
          last := fun r k hk => by
            rw [hphase] at hk
            split at hk
            · rename_i hr
              obtain ⟨rfl, hone, ha⟩ := hxlast k hk
              refine ⟨by rw [← haf, ← hasync, ha], fun t ht htr => ?_⟩
              rw [hcount] at ht
              have htq : t ≠ q := fun heq => htr (heq.trans hr.2.symm)
              rw [hphase, if_neg fun hc => htq hc.2]
              have hnone : ¬ (s'.phase f' t).held = true := by
                have hzero : (snd'.targets s.count).countP (fun r => (s'.phase f' r).held) = 0 := by
                  rw [hheld, hone]
                exact countP_eq_zero.mp hzero t ht
              rw [hphase, if_neg fun hc => htq hc.2] at hnone
              cases hpt : s.phase f' t with
              | dropped => rfl
              | last k' =>
                have hdropped := (hok.last t k' hpt).2 q hq htq.symm
                rw [hf] at hdropped
                cases hdropped
              | _ => rw [hpt] at hnone; exact absurd rfl hnone
            · rename_i hr
              have hrq : q ≠ r := fun heq => hr ⟨rfl, heq.symm⟩
              have hdropped := (hok.last r k hk).2 q hq hrq
              rw [hf] at hdropped
              cases hdropped }
    · refine hok'.frame hcount (fun r => ?_) (by rw [hretired]) (fun hr' => ?_)
        (fun _ _ => by rw [hnext])
      · rw [hphase, if_neg fun hc => hff hc.1]
        exact .refl _
      · exact ⟨by rw [hsender], by rw [hpooled], by rw [hasync'],
          hrefs_ne _ (h.msg_ne hactf' hactf hr' hrf hff)⟩
  · rintro _ _ ⟨⟩
    refine ⟨rest, by rw [hbatch, hhandled, hb], hnodup, fun f' => ?_, ?_⟩
    · rw [hmem, hiff f' q _ (hxne _ (by simp)) (by simp)]
    · have hchain' : Chain s' q next rest := hchain.same hmsgOf hnext
      rw [← hpc']
      split
      · rename_i hcond
        refine ⟨hchain', f, by rw [hmsgOf, hmsg], ?_⟩
        rw [hphase_self, ← hx, if_pos hcond]
      · exact hchain'
  · intro g' q' pc hg' hactg
    refine (h.processes g' q' pc hactg).frame (by rw [hbatch]) (by rw [hhandled])
      (fun f' => hiff f' q' _ (hxne _ (by simp)) (by simp)) (fun _ _ => by rw [hmsgOf])
      (fun _ _ => by rw [hnext]) (fun f' hf' => ?_) (fun f' hf' => ?_)
    · refine ⟨?_, by rw [hmsgOf], by rw [hasync']⟩
      rw [hphase_ne f' q' (by rw [hf']; simpa using hg')]
      exact hf'
    · refine ⟨?_, by rw [hmsgOf]⟩
      rw [hphase_ne f' q' (by rw [hf']; simp)]
      exact hf'
  · intro f' r k hf'
    rw [hiff f' r _ (hxne _ (by simp)) (by simp)] at hf'
    exact .inl hf'
  · intro f' r k hf'
    by_cases hfr : f' = f ∧ r = q
    · rw [hfr.1, hfr.2, hphase_self] at hf'
      exact absurd hf' (hxne _ (by simp))
    · rw [hphase, if_neg hfr] at hf'
      refine .inl ⟨?_, hf'⟩
      rintro rfl
      exact hfr (h.invoked_unique hact hholds hf hf')
  · intro f' r k hf'
    by_cases hfr : f' = f ∧ r = q
    · obtain ⟨rfl, rfl⟩ := hfr
      rw [hphase_self] at hf'
      obtain ⟨rfl, hcond⟩ := hxlast k hf'
      refine .inr ⟨rfl, pc', rfl, ?_⟩
      rw [← hpc', if_pos hcond]
      exact hmsg.symm
    · rw [hphase, if_neg hfr] at hf'
      refine .inl ⟨?_, hf'⟩
      rintro rfl
      obtain ⟨pc, hact', hcleans⟩ := h.isLast f' r k hf'
      obtain ⟨-, rfl⟩ := Activity.process.inj (hact.symm.trans hact')
      exact hcleans
  · intro r
    rw [hqueue, hfresh]
    exact (h.queue r).same hmsgOf hnext
  · intro r f'
    rw [hfresh, h.mem_fresh, hiff f' r _ (hxne _ (by simp)) (by simp)]
  · intro f' r
    rw [hlog, count_log_of_ne (by simp), h.invokes]
    by_cases hfr : f' = f ∧ r = q
    · rw [hfr.1, hfr.2, hphase_self, hf, hxhandled]
      rfl
    · rw [hphase, if_neg hfr]

/-! ## Cleaning up -/

/-- The record of a message that is cleaned up. -/
theorem Inv.retires_append (hrf : s.retiredBy f = none) (f' k : Nat) :
    (s.log ++ [Event.retire f g]).count (.retire f' k) =
      if update s.retiredBy f (some g) f' = some k then 1 else 0 := by
  by_cases hff : f' = f
  · subst hff
    rw [update_self]
    by_cases hk : g = k
    · subst hk
      rw [count_log_self, h.retires, hrf]
      simp
    · rw [count_log_of_ne (by simpa using hk), h.retires, hrf]
      simp [hk]
  · rw [count_log_of_ne (by simpa using fun heq => absurd heq.symm hff), h.retires,
      update_of_ne hff]

/-- The last target of an asynchronous message cleans it up. -/
theorem Inv.retireProcess {msg : Nat} {next : Option Entry}
    (hact : s.acts g = .process q (.cleanup msg next)) :
    Inv (((s.retire msg g).setPhase (s.sender msg) q .dropped).setAct g
      (.process q (.checkHalt next))) := by
  obtain ⟨rest, hb, hnodup, hmem, hchain, f, rfl, hf⟩ := h.processes g q _ hact
  obtain ⟨snd, pcf, hactf, hq, hrf, hsf⟩ := @Inv.owner s h f q (by rw [hf]; simp) (by rw [hf]; simp)
  have hok := h.sends f snd pcf hactf
  have hmsg : s.msgOf f = snd.msg := msgOf_of_act hactf
  obtain ⟨hasync, hdropped⟩ := hok.last q g hf
  have hfg : g ≠ f := by
    rintro rfl
    rw [hact] at hactf
    cases hactf
  have hcleans : (ProcessPc.cleanup (s.msgOf f) next).cleans (s.msgOf f) := rfl
  rw [hsf]
  rw [hmsg] at hsf
  generalize hs' : ((s.retire (s.msgOf f) g).setPhase f q .dropped).setAct g
    (.process q (.checkHalt next)) = s'
  have hacts : s'.acts = update s.acts g (.process q (.checkHalt next)) := by rw [← hs']; rfl
  have hphase : ∀ f' r, s'.phase f' r = if f' = f ∧ r = q then .dropped else s.phase f' r := by
    intro f' r
    rw [← State.setPhase_phase s f q .dropped f' r, ← hs']
    rfl
  have hphase_ne : ∀ f' r, s.phase f' r ≠ .last g → s'.phase f' r = s.phase f' r := by
    intro f' r hne
    rw [hphase, if_neg]
    rintro ⟨rfl, rfl⟩
    exact hne hf
  have hiff : ∀ f' r y, y ≠ .dropped → y ≠ .last g →
      (s'.phase f' r = y ↔ s.phase f' r = y) := by
    intro f' r y hy hy'
    rw [hphase]
    split
    · rename_i hr
      rw [hr.1, hr.2, hf]
      exact ⟨fun heq => absurd heq.symm hy, fun heq => absurd heq.symm hy'⟩
    · rfl
  have hmsgOf : s'.msgOf = s.msgOf :=
    msgOf_of_update hacts (State.msgOf_of_process hact).symm
  have hnext : s'.next = s.next := by rw [← hs']; rfl
  have hlog : s'.log = s.log ++ [Event.retire f g] := by
    rw [← hs']
    change s.log ++ [Event.retire (s.sender (s.msgOf f)) g] = _
    rw [hmsg, hsf]
  have hretired : s'.retiredBy = update s.retiredBy f (some g) := by
    rw [← hs']
    change update s.retiredBy (s.sender (s.msgOf f)) (some g) = _
    rw [hmsg, hsf]
  have hretired_ne : ∀ f', f' ≠ f → s'.retiredBy f' = s.retiredBy f' := by
    intro f' hne
    rw [hretired, update_of_ne hne]
  have hpooled : ∀ m, m ≠ snd.msg → s'.pooled m = s.pooled m := by
    intro m hm
    rw [← hs', ← hmsg] at *
    exact update_of_ne hm _ _
  have hcount : s'.count = s.count := by rw [← hs']; rfl
  have hunchanged : s'.batch = s.batch ∧ s'.handled = s.handled ∧ s'.fresh = s.fresh ∧
      s'.queue = s.queue ∧ s'.async = s.async ∧ s'.sender = s.sender ∧ s'.refs = s.refs := by
    rw [← hs']
    exact ⟨rfl, rfl, rfl, rfl, rfl, rfl, rfl⟩
  obtain ⟨hbatch, hhandled, hfresh, hqueue, hasync', hsender, hrefs⟩ := hunchanged
  refine h.advance (by rw [hact]; simp) hacts ?_ ?_ (by rw [← hs']; rfl) (by rw [← hs']; rfl)
    ?_ ?_ ?_ ?_ ?_ (fun f' r => hiff f' r _ (by simp) (by simp)) ?_ ?_ ?_ ?_
    (fun r => by rw [hfresh]; exact h.fresh_nodup r) ?_ (fun f' r => ?_) ?_ ?_
  · intro snd' pc hact'
    rw [hact] at hact'
    cases hact'
  · intro q' pc hact'
    obtain ⟨rfl, -⟩ := Activity.process.inj (hact.symm.trans hact')
    exact ⟨_, rfl⟩
  · intro g' _ hold
    rw [hbatch, hhandled, hretired_ne g' ?_]
    · exact ⟨hold.1, hold.2.1, hold.2.2.1⟩
    · rintro rfl
      have htodo := hold.2.2.2 q
      rw [hf] at htodo
      cases htodo
  · rintro _ _ ⟨⟩
  · intro f' snd' pc' _ hactf'
    have hok' := h.sends f' snd' pc' hactf'
    by_cases hff : f' = f
    · subst hff
      obtain ⟨rfl, rfl⟩ := Activity.send.inj (hactf'.symm.trans hactf)
      have hretired_self : s'.retiredBy f' = some g := by rw [hretired, update_self]
      have hlive : s'.retiredBy f' ≠ none := by rw [hretired_self]; simp
      exact
        { outside := fun r hr => by
            rw [hcount] at hr
            rw [hiff f' r _ (by simp) (by simp)]
            exact hok.outside r hr
          remaining := fun r hr => by
            rw [hcount] at hr ⊢
            rw [hiff f' r _ (by simp) (by simp)]
            exact hok.remaining r hr
          nodup := by rw [hcount]; exact hok.nodup
          within := by rw [hcount]; exact hok.within
          sender := fun hr => absurd hr hlive
          unpooled := fun hr => absurd hr hlive
          async := fun hr => absurd hr hlive
          refs := fun hr => absurd hr hlive
          link := fun target rest need next' heq => by
            rw [hnext]
            exact hok.link target rest need next' heq
          waits := hok.waits
          cleanup := fun heq => by
            have := hok.waits (heq ▸ trivial)
            rw [hasync] at this
            cases this
          done := fun _ ha => by
            rw [hasync] at ha
            cases ha
          retired := fun k hk => by
            rw [hretired_self] at hk
            obtain rfl := some.inj hk
            refine ⟨fun r hr => ?_, by rw [if_pos hasync]; exact hfg⟩
            rw [hcount] at hr
            rw [hphase]
            split
            · rfl
            · rename_i hr'
              exact hdropped r hr fun heq => hr' ⟨rfl, heq⟩
          live := fun hr => absurd hr hlive
          last := fun r k hk => by
            rw [hphase] at hk
            split at hk
            · cases hk
            · rename_i hr
              have hrq : q ≠ r := fun heq => hr ⟨rfl, heq.symm⟩
              have hother := (hok.last r k hk).2 q hq hrq
              rw [hf] at hother
              cases hother }
    · refine hok'.frame hcount (fun r => ?_) (hretired_ne f' hff) (fun hr' => ?_)
        (fun _ _ => by rw [hnext])
      · rw [hphase, if_neg fun hc => hff hc.1]
        exact .refl _
      · exact ⟨by rw [hsender], hpooled _ (h.msg_ne hactf' hactf hr' hrf hff),
          by rw [hasync'], by rw [hrefs]⟩
  · rintro _ _ ⟨⟩
    refine ⟨rest, by rw [hbatch, hhandled, hb], hnodup, fun f' => ?_, hchain.same hmsgOf hnext⟩
    rw [hmem, hiff f' q _ (by simp) (by simp)]
  · intro g' q' pc hg' hactg
    refine (h.processes g' q' pc hactg).frame (by rw [hbatch]) (by rw [hhandled])
      (fun f' => hiff f' q' _ (by simp) (by simp)) (fun _ _ => by rw [hmsgOf])
      (fun _ _ => by rw [hnext]) (fun f' hf' => ?_) (fun f' hf' => ?_)
    · refine ⟨?_, by rw [hmsgOf], by rw [hasync']⟩
      rw [hphase_ne f' q' (by rw [hf']; simp)]
      exact hf'
    · refine ⟨?_, by rw [hmsgOf]⟩
      rw [hphase_ne f' q' (by rw [hf']; simpa using hg')]
      exact hf'
  · intro f' r k hf'
    rw [hiff f' r _ (by simp) (by simp)] at hf'
    exact .inl hf'
  · intro f' r k hf'
    rw [hiff f' r _ (by simp) (by simp)] at hf'
    refine .inl ⟨?_, hf'⟩
    rintro rfl
    obtain ⟨pc, hact', hholds⟩ := h.isInvoked f' r k hf'
    obtain ⟨-, rfl⟩ := Activity.process.inj (hact.symm.trans hact')
    exact hholds
  · intro f' r k hf'
    rw [hphase] at hf'
    split at hf'
    · cases hf'
    · rename_i hr
      refine .inl ⟨?_, hf'⟩
      rintro rfl
      exact hr (h.last_unique hact hcleans hf hf')
  · intro r
    rw [hqueue, hfresh]
    exact (h.queue r).same hmsgOf hnext
  · intro r f'
    rw [hfresh, h.mem_fresh, hiff f' r _ (by simp) (by simp)]
  · rw [hlog, count_log_of_ne (by simp)]
  · intro f' r
    rw [hlog, count_log_of_ne (by simp), h.invokes]
    by_cases hfr : f' = f ∧ r = q
    · rw [hphase, if_pos hfr, hfr.1, hfr.2, hf]
      rfl
    · rw [hphase, if_neg hfr]
  · intro f' k
    rw [hlog, hretired]
    exact h.retires_append hrf f' k

/-- The waiting sender of a synchronous message cleans it up. -/
theorem Inv.retireSend {snd : Send} (hact : s.acts f = .send snd .cleanup) :
    Inv ((s.retire snd.msg f).setAct f (.send snd .done)) := by
  have hok := h.sends f snd _ hact
  have hasync : snd.async = false := hok.waits trivial
  have hdropped := hok.cleanup rfl
  have hrf : s.retiredBy f = none := by
    by_contra hr
    have := hok.async_of_retired (by simp) hr
    rw [hasync] at this
    cases this
  have hsf := hok.sender hrf
  have hmsg : s.msgOf f = snd.msg := msgOf_of_act hact
  generalize hs' : (s.retire snd.msg f).setAct f (.send snd .done) = s'
  have hacts : s'.acts = update s.acts f (.send snd .done) := by rw [← hs']; rfl
  have hmsgOf : s'.msgOf = s.msgOf := msgOf_of_update hacts hmsg.symm
  have hlog : s'.log = s.log ++ [Event.retire f f] := by
    rw [← hs']
    change s.log ++ [Event.retire (s.sender snd.msg) f] = _
    rw [hsf]
  have hretired : s'.retiredBy = update s.retiredBy f (some f) := by
    rw [← hs']
    change update s.retiredBy (s.sender snd.msg) (some f) = _
    rw [hsf]
  have hretired_ne : ∀ f', f' ≠ f → s'.retiredBy f' = s.retiredBy f' := by
    intro f' hne
    rw [hretired, update_of_ne hne]
  have hpooled : ∀ m, m ≠ snd.msg → s'.pooled m = s.pooled m := by
    intro m hm
    rw [← hs']
    exact update_of_ne hm _ _
  have hunchanged : s'.phase = s.phase ∧ s'.next = s.next ∧ s'.count = s.count ∧
      s'.batch = s.batch ∧ s'.handled = s.handled ∧ s'.fresh = s.fresh ∧
      s'.queue = s.queue ∧ s'.async = s.async ∧ s'.sender = s.sender ∧ s'.refs = s.refs := by
    rw [← hs']
    exact ⟨rfl, rfl, rfl, rfl, rfl, rfl, rfl, rfl, rfl, rfl⟩
  obtain ⟨hphase, hnext, hcount, hbatch, hhandled, hfresh, hqueue, hasync', hsender, hrefs⟩ :=
    hunchanged
  -- no process activity is this send
  have hnot : ∀ f' q, s.phase f' q ≠ .invoked f ∧ s.phase f' q ≠ .last f := by
    refine fun f' q => ⟨fun hf' => ?_, fun hf' => ?_⟩
    · obtain ⟨pc, hact', -⟩ := h.isInvoked f' q f hf'
      rw [hact] at hact'
      cases hact'
    · obtain ⟨pc, hact', -⟩ := h.isLast f' q f hf'
      rw [hact] at hact'
      cases hact'
  refine h.advance (by rw [hact]; simp) hacts ?_ ?_ (by rw [← hs']; rfl) (by rw [← hs']; rfl)
    (fun g hg hold => by
      rw [hbatch, hhandled, hretired_ne g hg]
      exact ⟨hold.1, hold.2.1, hold.2.2.1⟩)
    ?_ ?_ ?_ ?_ (fun _ _ => by rw [hphase]) ?_ ?_ ?_ ?_
    (fun r => by rw [hfresh]; exact h.fresh_nodup r)
    (fun r f' => by rw [hfresh, hphase]; exact h.mem_fresh r f')
    (fun f' r => by rw [hlog, count_log_of_ne (by simp)])
    (fun f' r => by rw [hlog, count_log_of_ne (by simp), hphase]; exact h.invokes f' r) ?_
  · intro snd' pc hact'
    obtain ⟨rfl, -⟩ := Activity.send.inj (hact.symm.trans hact')
    exact ⟨_, rfl⟩
  · intro q pc hact'
    rw [hact] at hact'
    cases hact'
  · rintro _ _ ⟨⟩
    have hlive : s'.retiredBy f ≠ none := by rw [hretired, update_self]; simp
    exact
      { outside := by rw [hcount, hphase]; exact hok.outside
        remaining := by rw [hcount, hphase]; exact hok.remaining
        nodup := nodup_nil
        within := by rw [hcount]; exact hok.within
        sender := fun hr => absurd hr hlive
        unpooled := fun hr => absurd hr hlive
        async := fun hr => absurd hr hlive
        refs := fun hr => absurd hr hlive
        link := fun _ _ _ _ heq => by cases heq
        waits := fun hw => hw.elim
        cleanup := fun heq => by cases heq
        done := fun _ _ => by rw [hretired, update_self]
        retired := fun k hk => by
          rw [hretired, update_self] at hk
          obtain rfl := some.inj hk
          rw [hcount, hphase]
          exact ⟨hdropped, by rw [hasync]; exact ⟨rfl, rfl⟩⟩
        live := fun hr => absurd hr hlive
        last := by rw [hcount, hphase]; exact hok.last }
  · intro f' snd' pc' hff hactf'
    refine (h.sends f' snd' pc' hactf').frame hcount (fun r => by rw [hphase]; exact .refl _)
      (hretired_ne f' hff) (fun hr' => ?_) (fun _ _ => by rw [hnext])
    exact ⟨by rw [hsender], hpooled _ (h.msg_ne hactf' hact hr' hrf hff),
      by rw [hasync'], by rw [hrefs]⟩
  · rintro _ _ ⟨⟩
  · intro g' q' pc _ hactg
    exact (h.processes g' q' pc hactg).frame (by rw [hbatch]) (by rw [hhandled])
      (fun f' => by rw [hphase]) (fun _ _ => by rw [hmsgOf]) (fun _ _ => by rw [hnext])
      (fun f' hf' => ⟨by rw [hphase, hf'], by rw [hmsgOf], by rw [hasync']⟩)
      (fun f' hf' => ⟨by rw [hphase, hf'], by rw [hmsgOf]⟩)
  · intro f' r k hf'
    rw [hphase] at hf'
    exact .inl hf'
  · intro f' r k hf'
    rw [hphase] at hf'
    exact .inl ⟨fun heq => (hnot f' r).1 (heq ▸ hf'), hf'⟩
  · intro f' r k hf'
    rw [hphase] at hf'
    exact .inl ⟨fun heq => (hnot f' r).2 (heq ▸ hf'), hf'⟩
  · intro r
    rw [hqueue, hfresh]
    exact (h.queue r).same hmsgOf hnext
  · intro f' k
    rw [hlog, hretired]
    exact h.retires_append hrf f' k

end

/-! ## Every step -/

/-- Before the first enqueue a message is not recycled. -/
theorem SendOk.not_retired_start {snd : Send} (h : SendOk s f snd pc)
    (hremaining : pc.remaining (snd.targets s.count) = snd.targets s.count) (hpc : pc ≠ .done) :
    s.retiredBy f = none := by
  by_contra hr
  have hasync := h.async_of_retired hpc hr
  obtain ⟨self, msg, kind⟩ := snd
  cases kind with
  | broadcast => cases hasync
  | unicast cpu async =>
    refine hr (@SendOk.not_retired s f _ pc h cpu ?_)
    rw [hremaining]
    exact mem_singleton.mpr rfl

/-- Before the first enqueue every reference is still counted. -/
theorem SendOk.countP_start {snd : Send} (h : SendOk s f snd pc)
    (hremaining : pc.remaining (snd.targets s.count) = snd.targets s.count) :
    (snd.targets s.count).countP (fun q => (s.phase f q).held) =
      (snd.targets s.count).length := by
  refine countP_eq_length.mpr fun q hq => ?_
  have htodo : s.phase f q = .todo := (h.remaining q hq).mpr (by rw [hremaining]; exact hq)
  rw [htodo]
  rfl

/-- The point where a send goes next, when it has just what it had to enqueue and
need not be synchronous there. -/
theorem SendOk.goto_plain {snd : Send}
    (h : SendOk s f snd pc) (hpc : pc ≠ .storeAsync) (hcounted : pc.counted)
    (hremaining : pc'.remaining (snd.targets s.count) = pc.remaining (snd.targets s.count))
    (hlink : ∀ target rest need next, pc' ≠ .exchange target rest need next)
    (hwaits : pc'.waits → snd.async = false) (hcleanup : pc' ≠ .cleanup)
    (hdone : pc' = .done → snd.async = true) (hnot : pc ≠ .done) : SendOk s f snd pc' := by
  refine h.goto hremaining (fun hr _ => h.async hr hpc) (fun hr _ => h.refs hr hcounted)
    (fun _ _ _ _ heq => absurd heq (hlink _ _ _ _)) hwaits (fun heq => absurd heq hcleanup)
    (fun heq ha => ?_) (fun hr => h.async_of_retired hnot hr)
  rw [hdone heq] at ha
  cases ha

theorem SamePast.setAct (s : State) (f : Nat) (act : Activity) : SamePast s (s.setAct f act) :=
  ⟨rfl, rfl, rfl, rfl, rfl, rfl, rfl, rfl, rfl, rfl, rfl, rfl⟩

theorem Inv.sendStep (h : Inv s) {snd : Send}
    (hact : s.acts f = .send snd pc) (hstep : Message.sendStep s f snd pc = some s') : Inv s' := by
  have hok := h.sends f snd pc hact
  cases pc with
  | storeAsync =>
    cases hstep
    have hr := hok.not_retired_start rfl (by simp)
    refine h.moveSend ⟨rfl, rfl, rfl, rfl, rfl, rfl, rfl, rfl, rfl, rfl, rfl, rfl⟩ hact rfl ?_
      (fun _ => hr) (fun m hm => update_of_ne hm _ _) (fun _ _ => rfl) (fun _ q => ?_)
      (fun _ _ => rfl)
    · exact
        { outside := hok.outside
          remaining := hok.remaining
          nodup := hok.nodup
          within := hok.within
          sender := hok.sender
          unpooled := hok.unpooled
          async := fun _ _ => update_self _ _ _
          refs := fun _ hc => hc.elim
          link := fun _ _ _ _ heq => by cases heq
          waits := fun hw => hw.elim
          cleanup := fun heq => by cases heq
          done := fun heq => by cases heq
          retired := fun g hg => by
            rw [show s.retiredBy f = some g from hg] at hr
            cases hr
          live := hok.live
          last := hok.last }
    · by_cases hq : q ∈ snd.targets s.count
      · exact (hok.remaining q hq).mpr hq
      · exact hok.outside q hq
  | storeRefs =>
    have hr := hok.not_retired_start rfl (by simp)
    have hlength := hok.countP_start rfl
    have hgo : ∀ pc', pc' = .enqueue false (snd.targets s.count) ∨ pc' = .verifyRefs →
        Inv ({ s with
          refs := update s.refs snd.msg (snd.targets s.count).length }.setAct f
          (.send snd pc')) := by
      intro pc' hplain
      have hremaining : pc'.remaining (snd.targets s.count) = snd.targets s.count := by
        rcases hplain with rfl | rfl
        · exact SendPc.remaining_enqueue _ _ _
        · rfl
      refine h.moveSend ⟨rfl, rfl, rfl, rfl, rfl, rfl, rfl, rfl, rfl, rfl, rfl, rfl⟩ hact rfl ?_
        (fun _ => hr) (fun _ _ => rfl) (fun m hm => update_of_ne hm _ _)
        (fun hne => absurd rfl hne) (fun _ _ => rfl)
      exact
        { outside := hok.outside
          remaining := fun q hq => by
            change s.phase f q = .todo ↔ q ∈ pc'.remaining (snd.targets s.count)
            rw [hremaining]
            exact hok.remaining q hq
          nodup := by
            change (pc'.remaining (snd.targets s.count)).Nodup
            rw [hremaining]
            exact hok.nodup
          within := fun q hq => by
            change q ∈ pc'.remaining (snd.targets s.count) at hq
            rwa [hremaining] at hq
          sender := hok.sender
          unpooled := hok.unpooled
          async := fun hr' _ => hok.async hr' (by simp)
          refs := fun _ _ => (update_self _ _ _).trans hlength.symm
          link := fun _ _ _ _ heq => by
            rcases hplain with hp | hp
            · exact absurd (hp.symm.trans heq) SendPc.enqueue_ne_exchange
            · cases hp.symm.trans heq
          waits := fun hw => by
            rcases hplain with rfl | rfl
            · exact absurd hw SendPc.not_waits_enqueue
            · exact hw.elim
          cleanup := fun heq => by
            rcases hplain with hp | hp
            · exact absurd (hp.symm.trans heq) SendPc.enqueue_ne_cleanup
            · cases hp.symm.trans heq
          done := fun heq => by
            rcases hplain with hp | hp
            · exact absurd (hp.symm.trans heq) SendPc.enqueue_ne_done
            · cases hp.symm.trans heq
          retired := fun g hg => by
            rw [show s.retiredBy f = some g from hg] at hr
            cases hr
          live := hok.live
          last := hok.last }
    obtain ⟨self, msg, kind⟩ := snd
    cases kind with
    | unicast cpu async =>
      cases hstep
      exact hgo _ (.inl rfl)
    | broadcast =>
      cases hstep
      exact hgo _ (.inr rfl)
  | verifyRefs =>
    obtain ⟨-, heq⟩ := ite_none_right_eq_some.mp hstep
    cases heq
    refine h.gotoSend hact (SamePast.setAct _ _ _) rfl rfl rfl rfl ?_
    exact hok.goto_plain (by simp) trivial (SendPc.remaining_enqueue _ _ _)
      (fun _ _ _ _ => SendPc.enqueue_ne_exchange) (fun hw => absurd hw SendPc.not_waits_enqueue)
      SendPc.enqueue_ne_cleanup (fun heq => absurd heq SendPc.enqueue_ne_done) (by simp)
  | writeNext target rest need next =>
    cases hstep
    have hr : s.retiredBy f = none := hok.not_retired mem_cons_self
    refine h.moveSend ⟨rfl, rfl, rfl, rfl, rfl, rfl, rfl, rfl, rfl, rfl, rfl, rfl⟩ hact rfl ?_
      (fun _ => hr) (fun _ _ => rfl) (fun _ _ => rfl) (fun hne => absurd rfl hne)
      (fun entry hentry => update_of_ne (hentry target mem_cons_self) _ _)
    exact
      { outside := hok.outside
        remaining := hok.remaining
        nodup := hok.nodup
        within := hok.within
        sender := hok.sender
        unpooled := hok.unpooled
        async := fun hr' _ => hok.async hr' (by simp)
        refs := fun hr' _ => hok.refs hr' trivial
        link := fun _ _ _ _ heq => by
          cases heq
          exact update_self _ _ _
        waits := fun hw => hw.elim
        cleanup := fun heq => by cases heq
        done := fun heq => by cases heq
        retired := fun g hg => by
          rw [show s.retiredBy f = some g from hg] at hr
          cases hr
        live := hok.live
        last := hok.last }
  | exchange target rest need next =>
    simp only [Message.sendStep] at hstep
    split at hstep
    · rename_i hhead
      cases hstep
      exact h.enqueued hact hhead
    · cases hstep
      refine h.gotoSend hact (SamePast.setAct _ _ _) rfl rfl rfl rfl ?_
      exact hok.goto_plain (by simp) trivial rfl (by simp) (fun hw => hw.elim) (by simp)
        (fun heq => by cases heq) (by simp)
  | ipi need =>
    have hgo : ∀ pc', SendOk s f snd pc' →
        Inv ((if need then sendIpi s snd else s).setAct f (.send snd pc')) := by
      intro pc' hok'
      cases need <;>
        exact h.gotoSend hact ⟨rfl, rfl, rfl, rfl, rfl, rfl, rfl, rfl, rfl, rfl, rfl, rfl⟩
          rfl rfl rfl rfl hok'
    obtain ⟨self, msg, kind⟩ := snd
    cases kind with
    | unicast cpu async =>
      cases hstep
      refine hgo _ (hok.goto_plain (by simp) trivial ?_ ?_ ?_ ?_ ?_ (by simp)) <;>
        cases async <;> simp [SendPc.waits, SendPc.remaining, Send.async]
    | broadcast =>
      cases hstep
      exact hgo _ (hok.goto_plain (by simp) trivial rfl (by simp) (fun _ => rfl) (by simp)
        (fun heq => by cases heq) (by simp))
  | verifySync =>
    obtain ⟨-, heq⟩ := ite_none_left_eq_some.mp hstep
    cases heq
    refine h.gotoSend hact (SamePast.setAct _ _ _) rfl rfl rfl rfl ?_
    exact hok.goto_plain (by simp) trivial rfl (by simp) (fun _ => hok.waits trivial) (by simp)
      (fun heq => by cases heq) (by simp)
  | wait =>
    have hasync : snd.async = false := hok.waits trivial
    simp only [Message.sendStep] at hstep
    split at hstep
    · rename_i hrefs
      cases hstep
      refine h.gotoSend hact (SamePast.setAct _ _ _) rfl rfl rfl rfl ?_
      refine hok.goto rfl (fun hr _ => hok.async hr (by simp)) (fun hr _ => hok.refs hr trivial)
        (fun _ _ _ _ heq => by cases heq) (fun _ => hasync) (fun _ q hq => ?_)
        (fun heq => by cases heq) (fun hr => hok.async_of_retired (by simp) hr)
      have hr : s.retiredBy f = none := by
        by_contra hr
        rw [hok.async_of_retired (by simp) hr] at hasync
        cases hasync
      -- no reference is counted any more, and a synchronous message has no last target
      have hnot : ¬ (s.phase f q).held = true := by
        have hzero := (hok.refs hr trivial).symm.trans hrefs
        exact countP_eq_zero.mp hzero q hq
      cases hp : s.phase f q with
      | dropped => rfl
      | last g =>
        rw [(hok.last q g hp).1] at hasync
        cases hasync
      | _ => rw [hp] at hnot; exact absurd rfl hnot
    · cases hstep
      exact h
  | cleanup =>
    cases hstep
    exact h.retireSend hact
  | done => cases hstep

theorem Inv.processStep (h : Inv s) {pc : ProcessPc}
    (hact : s.acts g = .process q pc) (hstep : Message.processStep s g q pc = some s') :
    Inv s' := by
  obtain ⟨rest, -, -, -, hpc⟩ := h.processes g q pc hact
  -- the activity moves on and writes nothing
  have hmove : ∀ pc', (∀ rest, PcOk s g q rest pc → PcOk s g q rest pc') →
      (∀ m, pc.holds m → pc'.holds m) → (∀ m, pc.cleans m → pc'.cleans m) →
      Inv (s.setAct g (.process q pc')) := fun pc' hok hholds hcleans =>
    h.moveProcess (SamePast.setAct _ _ _) hact rfl rfl rfl rfl hok hholds hcleans
  cases pc with
  | exchange =>
    have hexchanged := h.exchanged hact
    cases hhead : s.queue q with
    | none =>
      rw [Message.processStep, hhead] at hstep
      cases hstep
      exact hmove _ (fun _ hp => hp.2) (fun _ hm => hm.elim) (fun _ hm => hm.elim)
    | some entry =>
      rw [Message.processStep, hhead] at hstep
      cases hstep
      rw [hhead] at hexchanged
      exact hexchanged
  | reverse list rev =>
    cases list with
    | none =>
      cases hstep
      refine hmove _ (fun rest hp => ?_) (fun _ hm => hm.elim) (fun _ hm => hm.elim)
      obtain ⟨-, l₁, l₂, h₁, h₂, rfl⟩ := hp
      rw [Chain.none_iff.mp h₁]
      exact h₂
    | some entry =>
      cases hstep
      exact h.reverse hact
  | loop cur =>
    cases cur with
    | none =>
      cases hstep
      exact hmove _ (fun _ hp => Chain.none_iff.mp hp) (fun _ hm => hm.elim)
        (fun _ hm => hm.elim)
    | some cur =>
      cases hstep
      exact hmove _ (fun _ hp => Chain.some_iff.mp hp) (fun _ hm => hm.elim)
        (fun _ hm => hm.elim)
  | invoke cur next =>
    cases hstep
    exact h.invoked hact
  | readAsync msg next =>
    cases hstep
    refine hmove _ (fun rest hp => ?_) (fun _ hm => hm) (fun _ hm => hm.elim)
    obtain ⟨hc, f, hmsg, hf⟩ := hp
    exact ⟨hc, f, hmsg, hf, rfl⟩
  | fetchSub msg async next =>
    have hfetchSub := h.fetchSub hact
    obtain ⟨-, f, rfl, hf, -⟩ := hpc
    obtain ⟨snd, pcf, hactf, -, -, -, -, -, hpos⟩ := h.refs_pos hf
    rw [← msgOf_of_act hactf] at hpos
    rw [Message.processStep, if_neg hpos.ne'] at hstep
    cases hstep
    exact hfetchSub
  | cleanup msg next =>
    cases hstep
    exact h.retireProcess hact
  | checkHalt next =>
    rw [Message.processStep, h.noHalt q] at hstep
    cases hstep
    exact hmove _ (fun _ hp => hp) (fun _ hm => hm.elim) (fun _ hm => hm.elim)
  | checkHaltEmpty =>
    rw [Message.processStep, h.noHalt q] at hstep
    cases hstep
    exact hmove _ (fun _ hp => hp) (fun _ hm => hm.elim) (fun _ hm => hm.elim)
  | done => cases hstep
  | halted => cases hstep
  | verifyFailed => cases hstep

/-- What the delivery properties assume of a step: a message is in the pool when a
send takes it, so that nobody else uses it, and no halt is requested. -/
def OwnedSends (s : State) : Action → Prop
  | .send snd => s.pooled snd.msg = true
  | .requestHalt _ => False
  | _ => True

instance (s : State) (a : Action) : Decidable (OwnedSends s a) := by
  cases a <;> unfold OwnedSends <;> infer_instance

theorem inv_step {a : Action} (h : Inv s) (howned : OwnedSends s a) (hstep : step s a = some s') :
    Inv s' := by
  cases a with
  | send snd =>
    obtain ⟨-, heq⟩ := ite_none_right_eq_some.mp hstep
    cases heq
    exact h.spawnSend howned
  | process proc =>
    obtain ⟨-, heq⟩ := ite_none_right_eq_some.mp hstep
    cases heq
    exact h.spawnProcess proc
  | requestHalt proc => exact howned.elim
  | step f =>
    simp only [step] at hstep
    split at hstep
    · cases hstep
    · rename_i snd pc hact
      exact h.sendStep hact hstep
    · rename_i proc pc hact
      exact h.processStep hact hstep

theorem inv_smpEnable (count : Nat) : Inv (smpEnable count) where
  noHalt _ := rfl
  unborn _ _ := ⟨rfl, rfl, rfl, rfl, fun _ => rfl⟩
  sends _ _ _ hact := by cases hact
  processes _ _ _ hact := by cases hact
  isSend _ _ hne := absurd rfl hne
  isTaken _ _ _ hp := by cases hp
  isInvoked _ _ _ hp := by cases hp
  isLast _ _ _ hp := by cases hp
  queue _ := Chain.none_iff.mpr rfl
  fresh_nodup _ := nodup_nil
  mem_fresh _ _ := by simp [smpEnable]
  enqueues _ _ := rfl
  invokes _ _ := rfl
  retires _ _ := rfl

end Literate.Kernel.Message

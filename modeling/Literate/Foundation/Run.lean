import Mathlib.Data.List.Basic
import Mathlib.Data.List.Infix

/-!
# Foundation: runs of labelled step functions

A system is a partial step function `step : σ → α → Option σ`; `none` says that
the label is not enabled (or that an assertion of the program fails there).  This
module packages the three inductions every state-machine argument of the
development uses:

* an invariant that every enabled step preserves holds in every state of a run;
* the same when the steps of the run all meet a condition on the state before;
* when a step that misses the condition also leaves the invariant's consequence,
  the consequence holds along the run *exactly* when the steps meet the condition.

A system whose steps never fail and do what a specification allows implements it, and the
last of these rules has a form for that.
-/

namespace Literate.Foundation

open List Option

variable {σ α : Type*} (step : σ → α → Option σ)

/-- The state after a list of labels, when each of them is enabled in turn. -/
def run : σ → List α → Option σ
  | s, [] => some s
  | s, a :: as => (step s a).bind fun s' => run s' as

/-- `P` holds in every state the labels visit, the first one included.  A run
stops at the first label that is not enabled. -/
def Always (P : σ → Prop) : σ → List α → Prop
  | s, [] => P s
  | s, a :: as => P s ∧ ∀ s', step s a = some s' → Always P s' as

/-- Every step taken along the labels meets `C`, a condition on the state before
the step and on its label. -/
def Each (C : σ → α → Prop) : σ → List α → Prop
  | _, [] => True
  | s, a :: as => C s a ∧ ∀ s', step s a = some s' → Each C s' as

instance Each.decidable (C : σ → α → Prop) [∀ s a, Decidable (C s a)] :
    ∀ (s : σ) (as : List α), Decidable (Each step C s as)
  | _, [] => .isTrue trivial
  | s, a :: as =>
    match hs : step s a with
    | none => decidable_of_iff (C s a) (by simp [Each, hs])
    | some s' =>
      have := Each.decidable C s' as
      decidable_of_iff (C s a ∧ Each step C s' as) (by simp [Each, hs])

/-- None of the labels fails, each of them does what `spec` says, and the states of the two are
related by `R` before the first of them and after each. -/
def Implements {τ : Type*} (spec : τ → α → τ → Prop) (R : σ → τ → Prop) : σ → τ → List α → Prop
  | s, t, [] => R s t
  | s, t, a :: as => R s t ∧ ∃ s' t', step s a = some s' ∧ spec t a t' ∧ Implements spec R s' t' as

/-- `t` is the state after some list of labels. -/
def Reachable (s t : σ) : Prop := ∃ as : List α, run step s as = some t

variable {step}

@[simp] theorem run_nil (s : σ) : run step s [] = some s := rfl

theorem run_cons_eq_some {s t : σ} {a : α} {as : List α} : run step s (a :: as) = some t ↔
      ∃ s', step s a = some s' ∧ run step s' as = some t := by
  simp [run, bind_eq_some_iff]

theorem run_append {s t : σ} {as bs : List α} : run step s (as ++ bs) = some t ↔
      ∃ s', run step s as = some s' ∧ run step s' bs = some t := by
  induction as generalizing s with
  | nil => simp
  | cons a as ih =>
    simp only [List.cons_append, run_cons_eq_some, ih]
    constructor
    · rintro ⟨s₁, h₁, s₂, h₂, h₃⟩
      exact ⟨s₂, ⟨s₁, h₁, h₂⟩, h₃⟩
    · rintro ⟨s₂, ⟨s₁, h₁, h₂⟩, h₃⟩
      exact ⟨s₁, h₁, s₂, h₂, h₃⟩

/-- `Always` is about every prefix of the run. -/
theorem always_iff {P : σ → Prop} {s : σ} {as : List α} :
    Always step P s as ↔ ∀ pre t, pre <+: as → run step s pre = some t → P t := by
  induction as generalizing s with
  | nil =>
    simp only [Always, prefix_nil]
    constructor
    · rintro h pre t rfl hrun
      exact (some.inj hrun) ▸ h
    · intro h
      exact h [] s rfl rfl
  | cons a as ih =>
    constructor
    · rintro ⟨hs, hnext⟩ pre t hpre hrun
      cases pre with
      | nil => exact (some.inj hrun) ▸ hs
      | cons b pre =>
        obtain ⟨hba, hpre'⟩ := cons_prefix_cons.mp hpre
        subst hba
        obtain ⟨s', hs', hrun'⟩ := run_cons_eq_some.mp hrun
        exact ih.mp (hnext s' hs') pre t hpre' hrun'
    · intro h
      refine ⟨h [] s (List.nil_prefix) rfl, fun s' hs' => ih.mpr ?_⟩
      intro pre t hpre hrun
      exact h (a :: pre) t (cons_prefix_cons.mpr ⟨rfl, hpre⟩)
        (run_cons_eq_some.mpr ⟨s', hs', hrun⟩)

theorem Always.mono {P Q : σ → Prop} (hPQ : ∀ s, P s → Q s) {s : σ} {as : List α}
    (h : Always step P s as) : Always step Q s as := by
  rw [always_iff] at h ⊢
  exact fun pre t hpre hrun => hPQ t (h pre t hpre hrun)

theorem Each.mono {C D : σ → α → Prop} (hCD : ∀ s a, C s a → D s a) {s : σ} {as : List α}
    (h : Each step C s as) : Each step D s as := by
  induction as generalizing s with
  | nil => trivial
  | cons a as ih => exact ⟨hCD s a h.1, fun s' hs' => ih (h.2 s' hs')⟩

/-- A condition on the states before the steps, and on the last one. -/
theorem Always.of_each_last {P : σ → Prop} {s t : σ} {as : List α}
    (h : Each step (fun s _ => P s) s as) (hrun : run step s as = some t) (hlast : P t) :
    Always step P s as := by
  induction as generalizing s with
  | nil => exact some.inj hrun ▸ hlast
  | cons a as ih =>
    obtain ⟨s₁, hs₁, hrest⟩ := run_cons_eq_some.mp hrun
    refine ⟨h.1, fun s' hs' => ?_⟩
    rw [hs₁, some.injEq] at hs'
    exact hs' ▸ ih (h.2 s₁ hs₁) hrest

/-- The invariant rule for runs whose steps all meet a condition. -/
theorem Always.of_each {Inv : σ → Prop} {C : σ → α → Prop}
    (hstep : ∀ s a s', Inv s → C s a → step s a = some s' → Inv s')
    {s : σ} {as : List α} (hs : Inv s) (hC : Each step C s as) : Always step Inv s as := by
  induction as generalizing s with
  | nil => exact hs
  | cons a as ih =>
    refine ⟨hs, fun s' hs' => ?_⟩
    exact ih (hstep s a s' hs hC.1 hs') (hC.2 s' hs')

theorem Always.of_invariant {Inv : σ → Prop} (hstep : ∀ s a s', Inv s → step s a = some s' → Inv s')
    {s : σ} (as : List α) (hs : Inv s) : Always step Inv s as := by
  induction as generalizing s with
  | nil => exact hs
  | cons a as ih => exact ⟨hs, fun s' hs' => ih (hstep s a s' hs hs')⟩

theorem Reachable.of_invariant {Inv : σ → Prop}
    (hstep : ∀ s a s', Inv s → step s a = some s' → Inv s')
    {s t : σ} (hs : Inv s) (h : Reachable step s t) : Inv t := by
  obtain ⟨as, hrun⟩ := h
  exact always_iff.mp (Always.of_invariant hstep as hs) as t (prefix_refl as) hrun

/-- When a step that misses `C` is enabled and leaves `P`, the states of a run all
satisfy `P` exactly when its steps all meet `C`. -/
theorem always_iff_each {Inv P : σ → Prop} {C : σ → α → Prop} (hP : ∀ s, Inv s → P s)
    (hstep : ∀ s a s', Inv s → C s a → step s a = some s' → Inv s')
    (hbad : ∀ s a, Inv s → ¬ C s a → ∃ s', step s a = some s' ∧ ¬ P s')
    {s : σ} (hs : Inv s) (as : List α) : Always step P s as ↔ Each step C s as := by
  constructor
  · intro h
    induction as generalizing s with
    | nil => trivial
    | cons a as ih =>
      have hC : C s a := by
        by_contra hC
        obtain ⟨s', hs', hPs'⟩ := hbad s a hs hC
        have hnext := h.2 s' hs'
        cases as with
        | nil => exact hPs' hnext
        | cons b bs => exact hPs' hnext.1
      exact ⟨hC, fun s' hs' => ih (hstep s a s' hs hC hs') (h.2 s' hs')⟩
  · intro hC
    exact (Always.of_each hstep hs hC).mono hP

variable {τ : Type*} {spec : τ → α → τ → Prop}

theorem Implements.related {R : σ → τ → Prop} {s : σ} {t : τ}
    {as : List α} (h : Implements step spec R s t as) : R s t := by
  cases as with
  | nil => exact h
  | cons a as => exact h.1

theorem Implements.exists_run {R : σ → τ → Prop} {s : σ} {t : τ}
    {as : List α} (h : Implements step spec R s t as) : ∃ s', run step s as = some s' := by
  induction as generalizing s t with
  | nil => exact ⟨s, rfl⟩
  | cons a as ih =>
    obtain ⟨-, s', t', hs', -, hrest⟩ := h
    obtain ⟨last, hlast⟩ := ih hrest
    exact ⟨last, run_cons_eq_some.mpr ⟨s', hs', hlast⟩⟩

/-- A run whose steps all meet `C` follows the specification, when each such step does. -/
theorem Implements.of_each {R Inv : σ → τ → Prop} {C : σ → α → Prop} (hR : ∀ s t, Inv s t → R s t)
    (hstep : ∀ s t a, Inv s t → C s a → ∃ s' t', step s a = some s' ∧ spec t a t' ∧ Inv s' t')
    {s : σ} {t : τ} {as : List α} (h : Inv s t) (hC : Each step C s as) :
    Implements step spec R s t as := by
  induction as generalizing s t with
  | nil => exact hR s t h
  | cons a as ih =>
    obtain ⟨s', t', hs', hspec, hinv⟩ := hstep s t a h hC.1
    exact ⟨hR s t h, s', t', hs', hspec, ih hinv (hC.2 s' hs')⟩

/-- When a step that misses `C` fails or does not do what the specification says, a run follows it
exactly when its steps all meet `C`.  The invariant may speak of the labels that are to come. -/
theorem implements_iff_each {R : σ → τ → Prop}
    {Inv : List α → σ → τ → Prop} {C : σ → α → Prop}
    (hR : ∀ as s t, Inv as s t → R s t) (hunique : ∀ s t t', R s t → R s t' → t = t')
    (hstep : ∀ a as s t, Inv (a :: as) s t → C s a →
      ∃ s' t', step s a = some s' ∧ spec t a t' ∧ Inv as s' t')
    (hbad : ∀ a as s t, Inv (a :: as) s t → ¬ C s a →
      ∀ s' t', step s a = some s' → spec t a t' → ¬ R s' t')
    {as : List α} {s : σ} {t : τ} (h : Inv as s t) :
    Implements step spec R s t as ↔ Each step C s as := by
  induction as generalizing s t with
  | nil => exact iff_of_true (hR [] s t h) trivial
  | cons a as ih =>
    constructor
    · rintro ⟨-, s', t', hs', hspec, hrest⟩
      have hC : C s a := by
        by_contra hC
        exact hbad a as s t h hC s' t' hs' hspec hrest.related
      refine ⟨hC, fun s₁ hs₁ => ?_⟩
      obtain ⟨s₂, t₂, hs₂, -, hinv⟩ := hstep a as s t h hC
      rw [hs', some.injEq] at hs₁ hs₂
      subst hs₁ hs₂
      obtain rfl := hunique _ _ _ hrest.related (hR as _ _ hinv)
      exact (ih hinv).mp hrest
    · rintro ⟨hC, hrest⟩
      obtain ⟨s', t', hs', hspec, hinv⟩ := hstep a as s t h hC
      exact ⟨hR _ _ _ h, s', t', hs', hspec, (ih hinv).mpr (hrest s' hs')⟩

/-- Two systems whose steps agree under a condition agree after a run whose steps all meet it. -/
theorem run_rel {τ : Type*} {step' : τ → α → Option τ} {R : σ → τ → Prop} {C : σ → α → Prop}
    (hstep : ∀ s t a, R s t → C s a → Option.Rel R (step s a) (step' t a))
    {s : σ} {t : τ} {as : List α} (h : R s t) (hC : Each step C s as) :
    Option.Rel R (run step s as) (run step' t as) := by
  induction as generalizing s t with
  | nil => exact .some h
  | cons a as ih =>
    have hrel := hstep s t a h hC.1
    rw [run, run]
    cases hs : step s a with
    | none =>
      rw [hs] at hrel
      cases ht : step' t a with
      | none => exact .none
      | some t' => exact absurd (ht ▸ hrel) nofun
    | some s' =>
      rw [hs] at hrel
      cases ht : step' t a with
      | none => exact absurd (ht ▸ hrel) nofun
      | some t' =>
        rw [ht] at hrel
        cases hrel with
        | some hnext => exact ih hnext (hC.2 s' hs)

end Literate.Foundation

import Mathlib.Data.List.Infix

/-!
# Runs of a labelled step relation

A run collects the labels of its steps newest first, so that a property of
the past is a recursion over the label list. The rules below carry an
invariant along a run, identify the states of a deterministic relation, and
turn an exact one-step condition into an exact condition on whole runs.
-/

namespace CapsuleDB.LabelledRun

variable {σ α : Type*}

/-- Runs from `init`: the labels of all steps, newest first, and the state reached. -/
inductive Run (step : σ → α → σ → Prop) (init : σ) : List α → σ → Prop
  | start : Run step init [] init
  | next {history : List α} {s t : σ} {a : α} :
      Run step init history s → step s a t → Run step init (a :: history) t

/-- Every label determines the next state. -/
def Deterministic (step : σ → α → σ → Prop) : Prop :=
  ∀ ⦃s a t u⦄, step s a t → step s a u → t = u

/-- The property holds at every moment of the run with this history. -/
def Always (step : σ → α → σ → Prop) (init : σ) (P : List α → σ → Prop)
    (history : List α) : Prop :=
  ∀ earlier s, earlier <:+ history → Run step init earlier s → P earlier s

/-- Every step of the run with this history is taken from a state meeting the condition. -/
def EveryStep (step : σ → α → σ → Prop) (init : σ) (C : σ → α → Prop)
    (history : List α) : Prop :=
  ∀ a earlier s, (a :: earlier) <:+ history → Run step init earlier s → C s a

section Rules

variable {step : σ → α → σ → Prop} {init : σ}

/-- An invariant of the start that every step preserves holds after every run. -/
theorem Run.invariant {I : List α → σ → Prop} (h0 : I [] init)
    (hstep : ∀ ⦃history s a t⦄, Run step init history s → I history s → step s a t →
      I (a :: history) t)
    {history : List α} {s : σ} (hr : Run step init history s) : I history s := by
  induction hr with
  | start => exact h0
  | next hr hs ih => exact hstep hr ih hs

/-- The last step of a nonempty run. -/
theorem Run.last {a : α} {history : List α} {t : σ} (hr : Run step init (a :: history) t) :
    ∃ s, Run step init history s ∧ step s a t := by
  cases hr with
  | next hr hs => exact ⟨_, hr, hs⟩

/-- A deterministic relation reaches one state on each history. -/
theorem Run.unique (hdet : Deterministic step) {history : List α} {s t : σ}
    (hs : Run step init history s) (ht : Run step init history t) : s = t := by
  induction hs generalizing t with
  | start => cases ht; rfl
  | next _ hstep ih =>
    obtain ⟨u, hu, hut⟩ := ht.last
    rw [ih hu] at hstep
    exact hdet hstep hut

/-- Runs compose: a run from where another one ended extends its history. -/
theorem Run.append {first second : List α} {s t : σ} (hs : Run step init first s)
    (ht : Run step s second t) : Run step init (second ++ first) t := by
  induction ht with
  | start => exact hs
  | next _ hstep ih => exact ih.next hstep

/-- A run of a stronger relation is a run of the weaker one. -/
theorem Run.weaken {step' : σ → α → σ → Prop} (hw : ∀ ⦃s a t⦄, step s a t → step' s a t)
    {history : List α} {s : σ} (hr : Run step init history s) : Run step' init history s := by
  induction hr with
  | start => exact .start
  | next _ hs ih => exact ih.next (hw hs)

/-- One more step adds exactly its own state to the moments of a run. -/
theorem always_cons (hdet : Deterministic step) {P : List α → σ → Prop} {a : α}
    {history : List α} {t : σ} (ht : Run step init (a :: history) t) :
    Always step init P (a :: history) ↔ Always step init P history ∧ P (a :: history) t := by
  constructor
  · intro hall
    refine ⟨fun earlier s hsuf hr => ?_, hall _ _ List.suffix_rfl ht⟩
    exact hall _ _ (hsuf.trans (List.suffix_cons _ _)) hr
  · rintro ⟨hall, hlast⟩ earlier s hsuf hr
    rcases List.suffix_cons_iff.mp hsuf with heq | hsuf
    · subst heq
      exact (hr.unique hdet ht) ▸ hlast
    · exact hall _ _ hsuf hr

/-- The last step of a run meets the condition, and so do the earlier ones. -/
theorem EveryStep.of_cons {C : σ → α → Prop} {a : α} {history : List α} {s : σ}
    (hall : EveryStep step init C (a :: history)) (hs : Run step init history s) :
    EveryStep step init C history ∧ C s a := by
  refine ⟨fun b earlier u hsuf hr => ?_, hall _ _ _ List.suffix_rfl hs⟩
  exact hall _ _ _ (hsuf.trans (List.suffix_cons _ _)) hr

/-- One more step adds exactly its own condition to those of a run. -/
theorem everyStep_cons (hdet : Deterministic step) {C : σ → α → Prop} {a : α}
    {history : List α} {s : σ} (hs : Run step init history s) :
    EveryStep step init C (a :: history) ↔ EveryStep step init C history ∧ C s a := by
  constructor
  · intro hall
    exact hall.of_cons hs
  · rintro ⟨hall, hlast⟩ b earlier u hsuf hr
    rcases List.suffix_cons_iff.mp hsuf with heq | hsuf
    · cases heq
      exact (hr.unique hdet hs) ▸ hlast
    · exact hall _ _ _ hsuf hr

/-- No step, no condition. -/
theorem everyStep_nil {C : σ → α → Prop} : EveryStep step init C [] := by
  intro a earlier s hsuf _
  exact absurd (List.suffix_nil.mp hsuf) (List.cons_ne_nil _ _)

/-- What the start satisfies and every step meeting the condition preserves
holds after every run whose steps all meet it. -/
theorem Run.invariant_of_everyStep {I : List α → σ → Prop} {C : σ → α → Prop} (h0 : I [] init)
    (hstep : ∀ ⦃history s a t⦄, Run step init history s → I history s → C s a → step s a t →
      I (a :: history) t)
    {history : List α} {s : σ} (hr : Run step init history s)
    (hall : EveryStep step init C history) : I history s := by
  induction hr with
  | start => exact h0
  | next hr hs ih =>
    obtain ⟨hearlier, hlast⟩ := hall.of_cons hr
    exact hstep hr (ih hearlier) hlast hs

/-- Where a property survives exactly the steps meeting a condition, a run
keeps the property at all moments exactly when all of its steps meet it. -/
theorem always_iff_everyStep (hdet : Deterministic step) {P : List α → σ → Prop}
    {C : σ → α → Prop} (h0 : P [] init)
    (hstep : ∀ ⦃history s a t⦄, Run step init history s → P history s → step s a t →
      (P (a :: history) t ↔ C s a))
    {history : List α} {s : σ} (hr : Run step init history s) :
    Always step init P history ↔ EveryStep step init C history := by
  induction hr with
  | start =>
    constructor
    · intro _
      exact everyStep_nil
    · intro _ earlier s hsuf hr
      rw [List.suffix_nil.mp hsuf] at hr ⊢
      exact (hr.unique hdet .start) ▸ h0
  | next hr hs ih =>
    rw [always_cons hdet (hr.next hs), everyStep_cons hdet hr, ← ih]
    refine and_congr_right fun hall => ?_
    exact hstep hr (hall _ _ List.suffix_rfl hr) hs

end Rules

section Simulations

variable {τ β : Type*}

/-- A run whose steps each either lower a rank or are matched by a step of an
abstract relation, raising the rank by at most a constant then, is matched by a
run of the abstract relation and is not much longer. -/
theorem Run.simulate {step : σ → α → σ → Prop} {step' : τ → β → τ → Prop} {R : σ → τ → Prop}
    (rank : σ → ℕ) {slack : ℕ}
    (hstep : ∀ ⦃s a t u⦄, R s u → step s a t → R t u ∧ rank t+1 ≤ rank s ∨
      ∃ b u', step' u b u' ∧ R t u' ∧ rank t ≤ rank s+slack)
    {init s : σ} {init' : τ} {history : List α} (h0 : R init init')
    (hr : Run step init history s) :
    ∃ history' u, Run step' init' history' u ∧ R s u ∧
      history.length+rank s ≤ rank init+(slack+1)*history'.length := by
  induction hr with
  | start => exact ⟨[], init', .start, h0, by simp⟩
  | @next history s t a _ hs ih =>
    obtain ⟨history', u, hr', hR, hlength⟩ := ih
    rcases hstep hR hs with ⟨hR', hrank⟩ | ⟨b, u', hs', hR', hrank⟩
    · exact ⟨history', u, hr', hR', by rw [List.length_cons]; omega⟩
    · refine ⟨b :: history', u', hr'.next hs', hR', ?_⟩
      rw [List.length_cons, List.length_cons, Nat.mul_add]
      omega

end Simulations

section Ends

variable {step : σ → α → σ → Prop} {init : σ}

/-- If no run is longer than a bound, every run goes on to a state without a
next step. -/
theorem Run.exists_end {N : ℕ}
    (hbound : ∀ ⦃history s⦄, Run step init history s → history.length ≤ N)
    {history : List α} {s : σ} (hr : Run step init history s) :
    ∃ more t, Run step s more t ∧ ∀ a u, ¬ step t a u := by
  induction hk : N-history.length generalizing history s with
  | zero =>
    refine ⟨[], s, .start, fun a u hs => ?_⟩
    have hlength := hbound (hr.next hs)
    rw [List.length_cons] at hlength
    omega
  | succ k ih =>
    by_cases hend : ∃ a u, step s a u
    · obtain ⟨a, u, hs⟩ := hend
      obtain ⟨more, t, hmore, ht⟩ := ih (hr.next hs) (by rw [List.length_cons]; omega)
      exact ⟨more ++ [a], t, (Run.start.next hs).append hmore, ht⟩
    · exact ⟨[], s, .start, fun a u hs => hend ⟨a, u, hs⟩⟩

end Ends

section Performed

variable {ω : Type*}

/-- Perform a list of operations and collect the labels of their steps. -/
def exec (perform : σ → ω → Option (α × σ)) (s : σ) : List ω → Option (List α × σ)
  | [] => some ([], s)
  | op :: ops =>
    match perform s op with
    | none => none
    | some (a, t) => (exec perform t ops).map fun r => (r.1 ++ [a], r.2)

/-- Perform a list of operations and test every step on the state it is taken from. -/
def execAll (perform : σ → ω → Option (α × σ)) (check : σ → α → Bool) (s : σ) : List ω → Bool
  | [] => true
  | op :: ops =>
    match perform s op with
    | none => false
    | some (a, t) => check s a && execAll perform check t ops

variable {step : σ → α → σ → Prop} {perform : σ → ω → Option (α × σ)}

/-- An executed list of operations is a run. -/
theorem run_of_exec (hperform : ∀ ⦃s op a t⦄, perform s op = some (a, t) → step s a t)
    {s t : σ} {ops : List ω} {history : List α} (h : exec perform s ops = some (history, t)) :
    Run step s history t := by
  induction ops generalizing s history with
  | nil => cases h; exact .start
  | cons op ops ih =>
    simp only [exec] at h
    split at h
    · cases h
    · next a u hop =>
      obtain ⟨r, hrest, hr⟩ := Option.map_eq_some_iff.mp h
      cases hr
      exact (Run.start.next (hperform hop)).append (ih hrest)

/-- A test that passes on all performed operations is a condition on every step. -/
theorem everyStep_of_exec (hperform : ∀ ⦃s op a t⦄, perform s op = some (a, t) → step s a t)
    (hdet : Deterministic step) {C : σ → α → Prop} {check : σ → α → Bool}
    (hcheck : ∀ s a, check s a = true → C s a) {init s t : σ} {before history : List α}
    {ops : List ω} (hr : Run step init before s) (hbefore : EveryStep step init C before)
    (h : exec perform s ops = some (history, t)) (hall : execAll perform check s ops = true) :
    EveryStep step init C (history ++ before) := by
  induction ops generalizing s before history with
  | nil => cases h; exact hbefore
  | cons op ops ih =>
    simp only [exec, execAll] at h hall
    split at h
    · cases h
    · next a u hop =>
      rw [hop, Bool.and_eq_true] at hall
      obtain ⟨r, hrest, hr'⟩ := Option.map_eq_some_iff.mp h
      cases hr'
      have hfirst := (everyStep_cons hdet hr).mpr ⟨hbefore, hcheck s a hall.1⟩
      rw [List.append_assoc]
      exact ih (hr.next (hperform hop)) hfirst hrest hall.2

end Performed

end CapsuleDB.LabelledRun

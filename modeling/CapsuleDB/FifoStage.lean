import Mathlib.Data.List.Basic
import Mathlib.Data.List.Induction

/-!
# Stages joined by first-in first-out queues

A stage consumes one item at a time, keeps a local state, may fail, and
passes on at most one item. Workers run a stage between two queues with
separate pop and push steps, so a full queue blocks a worker that holds an
item. The flow of a worker is what its output queue would contain after all
of its input had been consumed; no step of any worker changes a flow, which
makes every interleaving agree with running the stages one after another.
-/

namespace CapsuleDB.FifoStage

variable {ε σ τ α β γ : Type*}

/-- One iteration of a stage: the next local state and the item passed on, if any. -/
abbrev Stage (ε σ α β : Type*) := σ → α → Except ε (σ × Option β)

/-- Consume a list of items in order, collecting the items passed on. -/
def Stage.run (f : Stage ε σ α β) : σ → List α → Except ε (σ × List β)
  | s, [] => .ok (s, [])
  | s, a :: as =>
    match f s a with
    | .error e => .error e
    | .ok (s', b) => (Stage.run f s' as).map fun r => (r.1, b.toList ++ r.2)

/-- Feed each item passed on by the first stage straight into the second one. -/
def Stage.comp (f : Stage ε σ α β) (g : Stage ε τ β γ) : Stage ε (σ × τ) α γ :=
  fun s a =>
    match f s.1 a with
    | .error e => .error e
    | .ok (s', none) => .ok ((s', s.2), none)
    | .ok (s', some b) => (g s.2 b).map fun r => ((s', r.1), r.2)

@[simp] theorem Stage.run_nil (f : Stage ε σ α β) (s : σ) : f.run s [] = .ok (s, []) := rfl

/-- A successful first iteration prepends its item to the rest of the run. -/
theorem Stage.run_cons_ok {f : Stage ε σ α β} {s s' : σ} {a : α} {b : Option β}
    (h : f s a = .ok (s', b)) (as : List α) :
    f.run s (a :: as) = (f.run s' as).map fun r => (r.1, b.toList ++ r.2) := by
  simp only [Stage.run, h]

/-- A failing first iteration fails the run. -/
theorem Stage.run_cons_error {f : Stage ε σ α β} {s : σ} {a : α} {e : ε}
    (h : f s a = .error e) (as : List α) : f.run s (a :: as) = .error e := by
  simp only [Stage.run, h]

/-- A successful run decomposes into its first iteration and the rest. -/
theorem Stage.run_cons_eq_ok {f : Stage ε σ α β} {s t : σ} {a : α} {as : List α}
    {bs : List β} (h : f.run s (a :: as) = .ok (t, bs)) :
    ∃ s' b bs', f s a = .ok (s', b) ∧ f.run s' as = .ok (t, bs') ∧ bs = b.toList ++ bs' := by
  cases hf : f s a with
  | error e => rw [Stage.run_cons_error hf] at h; cases h
  | ok r =>
    obtain ⟨s', b⟩ := r
    rw [Stage.run_cons_ok hf] at h
    cases hr : f.run s' as with
    | error e => rw [hr] at h; cases h
    | ok r =>
      rw [hr] at h
      cases h
      exact ⟨s', b, r.2, rfl, hr, rfl⟩

/-- Running a concatenation runs the second list from where the first one ends. -/
theorem Stage.run_append_ok {f : Stage ε σ α β} {s s' : σ} {as : List α} {bs : List β}
    (h : f.run s as = .ok (s', bs)) (as' : List α) :
    f.run s (as ++ as') = (f.run s' as').map fun r => (r.1, bs ++ r.2) := by
  induction as generalizing s bs with
  | nil =>
    cases h
    cases hr : f.run s' as' <;> simp [hr, Except.map]
  | cons a as ih =>
    obtain ⟨u, b, bs', hf, hr, rfl⟩ := Stage.run_cons_eq_ok h
    rw [List.cons_append, Stage.run_cons_ok hf, ih hr]
    cases hr' : f.run s' as' <;> simp [Except.map, List.append_assoc]

/-- A failure in the first list fails the concatenation in the same way. -/
theorem Stage.run_append_error {f : Stage ε σ α β} {s : σ} {as : List α} {e : ε}
    (h : f.run s as = .error e) (as' : List α) : f.run s (as ++ as') = .error e := by
  induction as generalizing s with
  | nil => cases h
  | cons a as ih =>
    cases hf : f s a with
    | error e' =>
      rw [Stage.run_cons_error hf] at h
      rw [List.cons_append, Stage.run_cons_error hf, h]
    | ok r =>
      obtain ⟨s', b⟩ := r
      rw [Stage.run_cons_ok hf] at h
      rw [List.cons_append, Stage.run_cons_ok hf]
      cases hr : f.run s' as with
      | error e' =>
        rw [hr] at h
        cases h
        rw [ih hr]
        rfl
      | ok r' => rw [hr] at h; cases h

/-- A run of one item is one iteration. -/
theorem Stage.run_singleton (f : Stage ε σ α β) (s : σ) (a : α) :
    f.run s [a] = (f s a).map fun r => (r.1, r.2.toList) := by
  cases hf : f s a with
  | error e => rw [Stage.run_cons_error hf]; rfl
  | ok r =>
    rw [Stage.run_cons_ok (show f s a = .ok (r.1, r.2) from hf), Stage.run_nil]
    simp only [Except.map, List.append_nil]

/-- What every successful iteration preserves, a successful run preserves. -/
theorem Stage.run_invariant {f : Stage ε σ α β} {I : σ → Prop}
    (hstep : ∀ ⦃s a s' b⦄, I s → f s a = .ok (s', b) → I s') {s s' : σ} {as : List α}
    {bs : List β} (hs : I s) (h : f.run s as = .ok (s', bs)) : I s' := by
  induction as generalizing s bs with
  | nil => cases h; exact hs
  | cons a as ih =>
    obtain ⟨u, b, bs', hf, hr, _⟩ := Stage.run_cons_eq_ok h
    exact ih (hstep hs hf) hr

/-- Items that no iteration tells apart give equal runs. -/
theorem Stage.run_congr {f : Stage ε σ α β} {R : α → α → Prop}
    (hR : ∀ ⦃a a'⦄, R a a' → ∀ s, f s a = f s a') {as as' : List α}
    (h : List.Forall₂ R as as') (s : σ) : f.run s as = f.run s as' := by
  induction h generalizing s with
  | nil => rfl
  | @cons a a' as as' ha _ ih =>
    cases hf : f s a' with
    | error e => rw [Stage.run_cons_error hf, Stage.run_cons_error (hR ha s ▸ hf)]
    | ok r =>
      obtain ⟨u, b⟩ := r
      rw [Stage.run_cons_ok hf, Stage.run_cons_ok (hR ha s ▸ hf), ih]

/-- A run fails exactly when some iteration does after all earlier ones succeeded. -/
theorem Stage.run_eq_error_iff {f : Stage ε σ α β} {s : σ} {as : List α} {e : ε} :
    f.run s as = .error e ↔ ∃ earlier a later s' bs, as = earlier ++ a :: later ∧
      f.run s earlier = .ok (s', bs) ∧ f s' a = .error e := by
  constructor
  · intro h
    induction as generalizing s with
    | nil => cases h
    | cons a as ih =>
      cases hf : f s a with
      | error e' =>
        rw [Stage.run_cons_error hf] at h
        cases h
        exact ⟨[], a, as, s, [], rfl, rfl, hf⟩
      | ok r =>
        obtain ⟨u, b⟩ := r
        rw [Stage.run_cons_ok hf] at h
        cases hr : f.run u as with
        | ok r' => rw [hr] at h; cases h
        | error e' =>
          rw [hr] at h
          cases h
          obtain ⟨earlier, c, later, s', bs, rfl, hrun, hfail⟩ := ih hr
          refine ⟨a :: earlier, c, later, s', b.toList ++ bs, rfl, ?_, hfail⟩
          rw [Stage.run_cons_ok hf, hrun]
          rfl
  · rintro ⟨earlier, a, later, s', bs, rfl, hrun, hfail⟩
    rw [Stage.run_append_ok hrun, Stage.run_cons_error hfail]
    rfl

/-- Where an invariant of the items so far is kept by the iterations that meet a
condition, a run goes through every beginning whose items all meet it. -/
theorem Stage.exists_run_of_split {f : Stage ε σ α β} {I : List α → σ → Prop}
    {C : List α → α → Prop} {s : σ} {as : List α} (h0 : I [] s)
    (hok : ∀ ⦃earlier s a⦄, a ∈ as → I earlier s → C earlier a →
      ∃ s' b, f s a = .ok (s', b) ∧ I (earlier ++ [a]) s')
    {earlier later : List α} (hsplit : as = earlier ++ later)
    (hC : ∀ before a after, as = before ++ a :: after → before.length < earlier.length →
      C before a) :
    ∃ s' bs, f.run s earlier = .ok (s', bs) ∧ I earlier s' := by
  induction earlier using List.reverseRecOn generalizing later with
  | nil => exact ⟨s, [], rfl, h0⟩
  | append_singleton earlier a ih =>
    rw [List.append_assoc, List.singleton_append] at hsplit
    rw [List.length_append, List.length_singleton] at hC
    obtain ⟨u, bs, hrun, hI⟩ := ih hsplit fun before b after h hlt =>
      hC before b after h (by omega)
    have ha : a ∈ as := by rw [hsplit]; simp
    obtain ⟨v, b, hf, hI'⟩ := hok ha hI (hC earlier a later hsplit (Nat.lt_succ_self _))
    refine ⟨v, bs ++ b.toList, ?_, hI'⟩
    rw [Stage.run_append_ok hrun, Stage.run_singleton, hf]
    rfl

/-- Where an invariant of the items so far is kept by exactly the iterations that
meet a condition, and the others fail, a run succeeds exactly when every item
meets the condition. -/
theorem Stage.run_ok_iff {f : Stage ε σ α β} {I : List α → σ → Prop}
    {C : List α → α → Prop} {s : σ} {as : List α} (h0 : I [] s)
    (hok : ∀ ⦃earlier s a⦄, a ∈ as → I earlier s → C earlier a →
      ∃ s' b, f s a = .ok (s', b) ∧ I (earlier ++ [a]) s')
    (herror : ∀ ⦃earlier s a⦄, a ∈ as → I earlier s → ¬ C earlier a → ∃ e, f s a = .error e) :
    (∃ s' bs, f.run s as = .ok (s', bs)) ↔
      ∀ earlier a later, as = earlier ++ a :: later → C earlier a := by
  constructor
  · rintro ⟨s', bs, hrun⟩ earlier a later hsplit
    induction hn : earlier.length using Nat.strongRecOn generalizing earlier a later with
    | _ n ih =>
      by_contra hC
      obtain ⟨u, bs', hrun', hI⟩ := Stage.exists_run_of_split h0 hok hsplit
        fun before b after h hlt => ih before.length (hn ▸ hlt) before b after h rfl
      obtain ⟨e, he⟩ := herror (by rw [hsplit]; simp) hI hC
      rw [Stage.run_eq_error_iff.mpr ⟨earlier, a, later, u, bs', hsplit, hrun', he⟩] at hrun
      cases hrun
  · intro hC
    obtain ⟨s', bs, hrun, _⟩ := Stage.exists_run_of_split h0 hok (List.append_nil as).symm
      fun before b after h _ => hC before b after h
    exact ⟨s', bs, hrun⟩

/-- Deleting the items outside `keep` changes no outcome at any moment exactly
when every such item that is reached leaves the state alone and passes nothing on. -/
theorem Stage.run_filter_iff {f : Stage ε σ α β} {s : σ} {as : List α} {keep : α → Bool} :
    (∀ sofar, sofar <+: as → f.run s (sofar.filter keep) = f.run s sofar) ↔
      ∀ earlier a later s' bs, as = earlier ++ a :: later → keep a = false →
        f.run s earlier = .ok (s', bs) → f s' a = .ok (s', none) := by
  constructor
  · rintro hall earlier a later s' bs rfl hkeep hrun
    have hnext := hall (earlier ++ [a]) ⟨later, by simp⟩
    have hfiltered : f.run s ((earlier ++ [a]).filter keep) = .ok (s', bs) := by
      rw [List.filter_append, List.filter_singleton, hkeep, cond_false, List.append_nil,
        hall earlier (List.prefix_append _ _), hrun]
    rw [hfiltered, Stage.run_append_ok hrun, Stage.run_singleton] at hnext
    cases hf : f s' a with
    | error e => rw [hf] at hnext; cases hnext
    | ok r =>
      obtain ⟨u, b⟩ := r
      rw [hf] at hnext
      simp only [Except.map, Except.ok.injEq, Prod.mk.injEq] at hnext
      obtain ⟨rfl, hb⟩ := hnext
      cases b with
      | none => rfl
      | some b => simp at hb
  · intro hinert sofar
    induction sofar using List.reverseRecOn with
    | nil => intro _; rfl
    | append_singleton earlier a ih =>
      rintro ⟨later, rfl⟩
      rw [List.append_assoc, List.singleton_append] at ih hinert
      have hearlier := ih (List.prefix_append _ _)
      rw [List.filter_append]
      cases hrun : f.run s earlier with
      | error e =>
        rw [hrun] at hearlier
        rw [Stage.run_append_error hearlier, Stage.run_append_error hrun]
      | ok r =>
        obtain ⟨s', bs⟩ := r
        rw [hrun] at hearlier
        rw [Stage.run_append_ok hearlier, Stage.run_append_ok hrun, List.filter_singleton]
        cases hkeep : keep a with
        | true => rfl
        | false =>
          rw [cond_false, Stage.run_singleton, hinert earlier a later s' bs rfl hkeep hrun]
          rfl

/-- One iteration of a composition succeeds when the first stage drops the item,
or passes on one with which the second stage succeeds. -/
theorem Stage.comp_eq_ok {f : Stage ε σ α β} {g : Stage ε τ β γ} {s u : σ} {t v : τ} {a : α}
    {c : Option γ} :
    (f.comp g) (s, t) a = .ok ((u, v), c) ↔
      f s a = .ok (u, none) ∧ v = t ∧ c = none ∨
        ∃ b, f s a = .ok (u, some b) ∧ g t b = .ok (v, c) := by
  unfold Stage.comp
  constructor
  · intro h
    split at h
    · cases h
    · next hf =>
      cases h
      exact .inl ⟨hf, rfl, rfl⟩
    · next b hf =>
      cases hg : g t b with
      | error e => simp only [hg] at h; cases h
      | ok r =>
        simp only [hg] at h
        cases h
        exact .inr ⟨b, hf, hg⟩
  · rintro (⟨hf, rfl, rfl⟩ | ⟨b, hf, hg⟩)
    · simp only [hf]
    · simp only [hf, hg]
      rfl

/-- Item-by-item composition succeeds exactly as the two batch runs do. -/
theorem Stage.run_comp_eq_ok {f : Stage ε σ α β} {g : Stage ε τ β γ} {s s' : σ} {t t' : τ}
    {as : List α} {cs : List γ} :
    (f.comp g).run (s, t) as = .ok ((s', t'), cs) ↔
      ∃ bs, f.run s as = .ok (s', bs) ∧ g.run t bs = .ok (t', cs) := by
  induction as generalizing s t cs with
  | nil =>
    constructor
    · intro h
      cases h
      exact ⟨[], rfl, rfl⟩
    · rintro ⟨bs, hf, hg⟩
      cases hf
      cases hg
      rfl
  | cons a as ih =>
    constructor
    · intro h
      obtain ⟨⟨u, v⟩, c, cs', hc, hr, rfl⟩ := Stage.run_cons_eq_ok h
      obtain ⟨bs, hfr, hgr⟩ := ih.mp hr
      rcases Stage.comp_eq_ok.mp hc with ⟨hf, rfl, rfl⟩ | ⟨b, hf, hg⟩
      · exact ⟨bs, by rw [Stage.run_cons_ok hf, hfr]; rfl, hgr⟩
      · exact ⟨b :: bs, by rw [Stage.run_cons_ok hf, hfr]; rfl,
          by rw [Stage.run_cons_ok hg, hgr]; rfl⟩
    · rintro ⟨bs, hf, hg⟩
      obtain ⟨u, b, bs', hfa, hfr, rfl⟩ := Stage.run_cons_eq_ok hf
      cases b with
      | none =>
        have hc : (f.comp g) (s, t) a = .ok ((u, t), none) :=
          Stage.comp_eq_ok.mpr (.inl ⟨hfa, rfl, rfl⟩)
        rw [Stage.run_cons_ok hc, ih.mpr ⟨bs', hfr, hg⟩]
        rfl
      | some b =>
        obtain ⟨v, c, cs', hga, hgr, rfl⟩ := Stage.run_cons_eq_ok hg
        have hc : (f.comp g) (s, t) a = .ok ((u, v), c) :=
          Stage.comp_eq_ok.mpr (.inr ⟨b, hfa, hga⟩)
        rw [Stage.run_cons_ok hc, ih.mpr ⟨bs', hfr, hgr⟩]
        rfl

/-- A thread running a stage: its local state and the item it is about to push. -/
structure Worker (σ β : Type*) where
  /-- The variables the loop keeps between iterations. -/
  state : σ
  /-- The item of the finished iteration, held until the output queue has room. -/
  hand : Option β

/-- One atomic step of a worker between its input and output queues. -/
inductive Worker.Step (f : Stage ε σ α β) (room : ℕ → Prop) :
    List α → Worker σ β → List β → List α → Worker σ β → List β → Prop
  | pop {s s' : σ} {a : α} {input : List α} {output : List β} {b : Option β} :
      f s a = .ok (s', b) →
      Worker.Step f room (a :: input) ⟨s, none⟩ output input ⟨s', b⟩ output
  | push {s : σ} {input : List α} {output : List β} {b : β} : room output.length →
      Worker.Step f room input ⟨s, some b⟩ output input ⟨s, none⟩ (output ++ [b])

/-- The worker pops an item on which its stage fails. -/
def Worker.Fails (f : Stage ε σ α β) (input : List α) (w : Worker σ β) : Prop :=
  ∃ a rest e, input = a :: rest ∧ w.hand = none ∧ f w.state a = .error e

/-- All that will have passed through the output queue once the input is
consumed: its present items, the held item, then the rest of the run. -/
def Worker.flow (f : Stage ε σ α β) (input : List α) (w : Worker σ β) (output : List β) :
    Except ε (σ × List β) :=
  (f.run w.state input).map fun r => (r.1, output ++ w.hand.toList ++ r.2)

/-- The flow at the start is the run of the stage. -/
theorem Worker.flow_start (f : Stage ε σ α β) (s : σ) (input : List α) :
    Worker.flow f input ⟨s, none⟩ [] = f.run s input := by
  unfold Worker.flow
  cases f.run s input <;> rfl

/-- A worker step leaves its flow unchanged, whatever input arrives later. -/
theorem Worker.Step.flow_eq {f : Stage ε σ α β} {room : ℕ → Prop} {input input' : List α}
    {w w' : Worker σ β} {output output' : List β}
    (h : Worker.Step f room input w output input' w' output') (later : List α) :
    Worker.flow f (input' ++ later) w' output' = Worker.flow f (input ++ later) w output := by
  cases h with
  | pop hf =>
    simp only [Worker.flow, List.cons_append, Stage.run_cons_ok hf]
    cases f.run _ (input' ++ later) <;> simp [Except.map]
  | push _ =>
    simp only [Worker.flow]
    cases f.run _ (input ++ later) <;> simp [Except.map, List.append_assoc]

/-- A step of the second of two joined workers takes items from the front of
the first one's flow and leaves the joint outcome unchanged. -/
theorem Worker.Step.joint_flow_eq {f : Stage ε σ α β} {g : Stage ε τ β γ} {room : ℕ → Prop}
    {input : List α} {w : Worker σ β} {middle middle' : List β} {v v' : Worker τ γ}
    {output output' : List γ}
    (h : Worker.Step g room middle v output middle' v' output') {δ : Type*}
    (finish : τ × List γ → Except ε δ) :
    ((Worker.flow f input w middle').bind fun r => (Worker.flow g r.2 v' output').bind finish) =
      (Worker.flow f input w middle).bind fun r => (Worker.flow g r.2 v output).bind finish := by
  unfold Worker.flow
  cases hf : f.run w.state input with
  | error e => rfl
  | ok r =>
    have hstep := h.flow_eq (w.hand.toList ++ r.2)
    simp only [Worker.flow] at hstep
    simp only [Except.map, Except.bind, List.append_assoc] at hstep ⊢
    rw [hstep]

/-- A successful flow extends the present output queue. -/
theorem Worker.flow_output {f : Stage ε σ α β} {input : List α} {w : Worker σ β}
    {output bs : List β} {s : σ} (h : Worker.flow f input w output = .ok (s, bs)) :
    output <+: bs := by
  unfold Worker.flow at h
  cases hf : f.run w.state input with
  | error e => rw [hf] at h; cases h
  | ok r =>
    rw [hf] at h
    cases h
    rw [List.append_assoc]
    exact List.prefix_append _ _

/-- A worker whose flow succeeds on its queue and more never fails on the queue. -/
theorem Worker.not_fails_of_flow {f : Stage ε σ α β} {input later : List α} {w : Worker σ β}
    {output bs : List β} {s : σ}
    (h : Worker.flow f (input ++ later) w output = .ok (s, bs)) : ¬ Worker.Fails f input w := by
  rintro ⟨a, rest, e, rfl, _, he⟩
  rw [Worker.flow, List.cons_append, Stage.run_cons_error he] at h
  cases h

/-- A worker that neither fails nor steps has nothing to pop and nothing to push. -/
theorem Worker.idle_of_stuck {f : Stage ε σ α β} {room : ℕ → Prop} {input : List α}
    {w : Worker σ β} {output : List β} (hroom : room output.length)
    (hfail : ¬ Worker.Fails f input w)
    (hstuck : ∀ input' w' output', ¬ Worker.Step f room input w output input' w' output') :
    input = [] ∧ w.hand = none := by
  obtain ⟨s, hand⟩ := w
  cases hand with
  | some b => exact absurd (.push hroom) (hstuck _ _ _)
  | none =>
    cases input with
    | nil => exact ⟨rfl, rfl⟩
    | cons a rest =>
      cases hf : f s a with
      | error e => exact absurd ⟨a, rest, e, rfl, rfl, hf⟩ hfail
      | ok r => exact absurd (.pop hf) (hstuck _ _ _)

/-- The flow of an idle worker is its output queue. -/
theorem Worker.flow_idle (f : Stage ε σ α β) {w : Worker σ β} (hw : w.hand = none)
    (output : List β) : Worker.flow f [] w output = .ok (w.state, output) := by
  simp only [Worker.flow, Stage.run_nil, hw, Except.map, Option.toList_none, List.append_nil]

/-- Items on their way through a worker lose weight with every step: those in
the input count most, one in hand less, and those in the output least. -/
theorem Worker.Step.cost_lt {f : Stage ε σ α β} {room : ℕ → Prop} {input input' : List α}
    {w w' : Worker σ β} {output output' : List β}
    (h : Worker.Step f room input w output input' w' output') (k : ℕ) :
    (k+2)*input'.length+(k+1)*w'.hand.toList.length+k*output'.length+1 ≤
      (k+2)*input.length+(k+1)*w.hand.toList.length+k*output.length := by
  cases h with
  | @pop s s' a _ _ b _ =>
    have hb : b.toList.length ≤ 1 := by cases b <;> simp
    have hmul := Nat.mul_le_mul_left (k+1) hb
    simp only [List.length_cons, Option.toList_none, List.length_nil]
    rw [Nat.mul_add]
    omega
  | push _ =>
    simp only [List.length_append, List.length_singleton, Option.toList_some, Option.toList_none,
      List.length_nil]
    rw [Nat.mul_add]
    omega

end CapsuleDB.FifoStage

import Mathlib.Algebra.BigOperators.Group.Finset.Basic
import Mathlib.Logic.Function.Basic
import Mathlib.Tactic.Abel

/-!
# Owning a cell by a mark

Threads work on cells of an array. A thread that starts to work on a cell puts
a mark on it, found there by no other thread at work, and takes the mark away
when it leaves. A marked cell then has exactly one owner, and a tally over all
threads or cells changes by what the stepping thread changes.
-/

namespace CapsuleDB.CellOwners

variable {ι χ σ : Type*}

/-- The cells with the mark are those that a thread works on, one thread each. -/
structure Owned (works : ι → Option χ) (states : χ → σ) (mark : σ) : Prop where
  /-- A cell that a thread works on has the mark. -/
  marked : ∀ i c, works i = some c → states c = mark
  /-- No two threads work on one cell. -/
  unique : ∀ i j c, works i = some c → works j = some c → i = j
  /-- A marked cell is worked on. -/
  owner : ∀ c, states c = mark → ∃ i, works i = some c

section Steps

variable {works : ι → Option χ} {states : χ → σ} {mark st : σ} {i : ι} {c : χ}

/-- While nobody works, there must be no mark. -/
theorem owned_none (h : ∀ c, states c ≠ mark) : Owned (fun _ : ι => none) states mark := by
  refine ⟨fun _ _ hi => ?_, fun _ _ _ hi => ?_, fun c hc => absurd hc (h c)⟩
  · cases hi
  · cases hi

/-- Nobody works on a cell without the mark. -/
theorem Owned.not_works (h : Owned works states mark) (hc : states c ≠ mark) (j : ι) :
    works j ≠ some c := fun hj => hc (h.marked j c hj)

/-- A step that neither finds nor leaves the mark changes no owner. -/
theorem Owned.other [DecidableEq χ] (h : Owned works states mark) (hc : states c ≠ mark)
    (hst : st ≠ mark) : Owned works (Function.update states c st) mark := by
  refine ⟨fun j d hj => ?_, h.unique, fun d hd => ?_⟩
  · have hne : d ≠ c := by
      rintro rfl
      exact h.not_works hc j hj
    rw [Function.update_of_ne hne]
    exact h.marked j d hj
  · have hne : d ≠ c := by
      rintro rfl
      rw [Function.update_self] at hd
      exact hst hd
    rw [Function.update_of_ne hne] at hd
    exact h.owner d hd

variable [DecidableEq ι]

/-- A step that leaves a thread at the same work changes no owner. -/
theorem Owned.stay (h : Owned works states mark) {w : Option χ} (hi : works i = w) :
    Owned (Function.update works i w) states mark := by
  rwa [← hi, Function.update_eq_self]

variable [DecidableEq χ]

/-- An idle thread puts the mark on a cell without it. -/
theorem Owned.enter (h : Owned works states mark) (hc : states c ≠ mark) (hi : works i = none) :
    Owned (Function.update works i (some c)) (Function.update states c mark) mark := by
  have hfree := h.not_works hc
  refine ⟨fun j d hj => ?_, fun j k d hj hk => ?_, fun d hd => ?_⟩
  · by_cases hd : d = c
    · rw [hd, Function.update_self]
    · rw [Function.update_of_ne hd]
      by_cases hij : j = i
      · rw [hij, Function.update_self] at hj
        exact absurd (Option.some.inj hj).symm hd
      · rw [Function.update_of_ne hij] at hj
        exact h.marked j d hj
  · by_cases hij : j = i <;> by_cases hik : k = i
    · rw [hij, hik]
    · rw [hij, Function.update_self] at hj
      rw [Function.update_of_ne hik] at hk
      exact absurd (hj ▸ hk) (hfree k)
    · rw [hik, Function.update_self] at hk
      rw [Function.update_of_ne hij] at hj
      exact absurd (hk ▸ hj) (hfree j)
    · rw [Function.update_of_ne hij] at hj
      rw [Function.update_of_ne hik] at hk
      exact h.unique j k d hj hk
  · by_cases hcd : d = c
    · exact ⟨i, by rw [hcd, Function.update_self]⟩
    · rw [Function.update_of_ne hcd] at hd
      obtain ⟨j, hj⟩ := h.owner d hd
      have hij : j ≠ i := by
        rintro rfl
        rw [hi] at hj
        cases hj
      exact ⟨j, by rwa [Function.update_of_ne hij]⟩

/-- The owner of a cell takes the mark away. -/
theorem Owned.leave (h : Owned works states mark) (hi : works i = some c) (hst : st ≠ mark) :
    Owned (Function.update works i none) (Function.update states c st) mark := by
  have hother : ∀ j d, Function.update works i none j = some d → works j = some d ∧ d ≠ c := by
    intro j d hj
    by_cases hij : j = i
    · rw [hij, Function.update_self] at hj
      cases hj
    · rw [Function.update_of_ne hij] at hj
      refine ⟨hj, ?_⟩
      rintro rfl
      exact hij (h.unique j i d hj hi)
  refine ⟨fun j d hj => ?_, fun j k d hj hk => ?_, fun d hd => ?_⟩
  · obtain ⟨hold, hne⟩ := hother j d hj
    rw [Function.update_of_ne hne]
    exact h.marked j d hold
  · exact h.unique j k d (hother j d hj).1 (hother k d hk).1
  · have hne : d ≠ c := by
      rintro rfl
      rw [Function.update_self] at hd
      exact hst hd
    rw [Function.update_of_ne hne] at hd
    obtain ⟨j, hj⟩ := h.owner d hd
    have hij : j ≠ i := by
      rintro rfl
      exact hne (Option.some.inj (hj.symm.trans hi))
    exact ⟨j, by rwa [Function.update_of_ne hij]⟩

end Steps

section Tallies

variable {M : Type*} [AddCommMonoid M] [DecidableEq ι]

/-- A tally changes by what its one changed part changes. -/
theorem sum_change [DecidableEq χ] {s : Finset χ} {f g : χ → M} {c : χ} (hc : c ∈ s)
    (hsame : ∀ d ∈ s, d ≠ c → g d = f d) :
    ∑ d ∈ s, g d+f c = ∑ d ∈ s, f d+g c := by
  have hrest : ∑ d ∈ s.erase c, g d = ∑ d ∈ s.erase c, f d :=
    Finset.sum_congr rfl fun d hd =>
      hsame d (Finset.mem_of_mem_erase hd) (Finset.ne_of_mem_erase hd)
  rw [← Finset.add_sum_erase s g hc, ← Finset.add_sum_erase s f hc, hrest]
  rw [add_comm (g c), add_comm (f c), add_right_comm]

/-- A tally over all threads changes by what the stepping thread changes. -/
theorem sum_update [Fintype ι] {τ : Type*} (F : τ → M) (threads : ι → τ) (i : ι) (t : τ) :
    ∑ j, F (Function.update threads i t j)+F (threads i) = ∑ j, F (threads j)+F t := by
  have h := sum_change (f := fun j => F (threads j))
    (g := fun j => F (Function.update threads i t j)) (Finset.mem_univ i)
    fun j _ hj => by rw [Function.update_of_ne hj]
  rwa [Function.update_self] at h

/-- What moves from one tally to the other is still there. -/
theorem moved {N : Type*} [AddCancelCommMonoid N] {total a b a' b' x y : N}
    (h : total = a+b) (ha : a'+x = a+y) (hb : b'+y = b+x) : total = a'+b' := by
  have hall : total+(x+y) = a'+b'+(x+y) := by
    calc total+(x+y) = (a+y)+(b+x) := by rw [h]; abel
      _ = (a'+x)+(b'+y) := by rw [ha, hb]
      _ = a'+b'+(x+y) := by abel
  exact add_right_cancel hall

end Tallies

end CapsuleDB.CellOwners

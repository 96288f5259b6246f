import Mathlib.Data.List.Basic
import Mathlib.Data.Set.Basic

/-!
# Filters that probe sets of cells

A filter stands for a set of items by the cells that they mark. An item has a
list of probes, each a set of cells: adding it marks the cells of all of them,
and asking for it checks that each of them meets the marked cells. Marks are
never removed, so an item that was added is found for ever after.
-/

namespace CapsuleDB.ProbeFilter

variable {α κ : Type*}

/-- The marked cells after marking the probes of an item one after another. -/
def add (probes : α → List (Set κ)) (marked : Set κ) (a : α) : Set κ :=
  (probes a).foldl (fun s p => s ∪ p) marked

/-- The marked cells after adding a list of items in order. -/
def addAll (probes : α → List (Set κ)) (marked : Set κ) (as : List α) : Set κ :=
  as.foldl (add probes) marked

/-- Whether the filter takes an item for one that was added. -/
def MayContain (probes : α → List (Set κ)) (marked : Set κ) (a : α) : Prop :=
  ∀ p ∈ probes a, (marked ∩ p).Nonempty

section Marks

variable {probes : α → List (Set κ)} {marked : Set κ} {a : α}

/-- The cells marked by a list of probes. -/
theorem mem_foldl_union {ps : List (Set κ)} {c : κ} :
    c ∈ ps.foldl (fun s p => s ∪ p) marked ↔ c ∈ marked ∨ ∃ p ∈ ps, c ∈ p := by
  induction ps generalizing marked with
  | nil => simp
  | cons p ps ih =>
    rw [List.foldl_cons, ih, Set.mem_union, List.exists_mem_cons_iff, or_assoc]

/-- A cell is marked after an item was added if it was before or is one of its. -/
theorem mem_add {c : κ} : c ∈ add probes marked a ↔ c ∈ marked ∨ ∃ p ∈ probes a, c ∈ p :=
  mem_foldl_union

/-- A cell is marked after a list of items if it was before or is one of theirs. -/
theorem mem_addAll {as : List α} {c : κ} :
    c ∈ addAll probes marked as ↔ c ∈ marked ∨ ∃ a ∈ as, ∃ p ∈ probes a, c ∈ p := by
  unfold addAll
  induction as generalizing marked with
  | nil => simp
  | cons a as ih => rw [List.foldl_cons, ih, mem_add, List.exists_mem_cons_iff, or_assoc]

/-- An item that was added is found, whatever was added before and after it,
unless one of its probes has no cell. -/
theorem mayContain_addAll (hne : ∀ p ∈ probes a, p.Nonempty) {as : List α} (ha : a ∈ as) :
    MayContain probes (addAll probes marked as) a := by
  intro p hp
  obtain ⟨c, hc⟩ := hne p hp
  exact ⟨c, mem_addAll.mpr (.inr ⟨a, ha, p, hp, hc⟩), hc⟩

/-- A fresh filter takes an item for one of a list exactly when each of its
probes meets a probe of one of them. -/
theorem mayContain_addAll_iff {as : List α} :
    MayContain probes (addAll probes ∅ as) a ↔
      ∀ p ∈ probes a, ∃ b ∈ as, ∃ q ∈ probes b, (q ∩ p).Nonempty := by
  have hmem : ∀ c, c ∈ addAll probes ∅ as ↔ ∃ b ∈ as, ∃ q ∈ probes b, c ∈ q := fun c => by
    rw [mem_addAll, or_iff_right (Set.notMem_empty c)]
  unfold MayContain
  refine forall₂_congr fun p _ => ?_
  constructor
  · rintro ⟨c, hmarked, hc⟩
    obtain ⟨b, hb, q, hq, hcq⟩ := (hmem c).mp hmarked
    exact ⟨b, hb, q, hq, c, hcq, hc⟩
  · rintro ⟨b, hb, q, hq, c, hcq, hc⟩
    exact ⟨c, (hmem c).mpr ⟨b, hb, q, hq, hcq⟩, hc⟩

end Marks

end CapsuleDB.ProbeFilter

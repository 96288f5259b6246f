import Mathlib.Data.Nat.Count
import Mathlib.Data.Int.CardIntervalMod

/-!
# Tickets of a ring

Tickets are numbered from zero, and a ticket belongs to the place of a ring
that its number has modulo the size. How many of the first tickets belong to
a place tells how far two counters of tickets are apart: a counter that has
two more at one place is ahead by more than the size, so that it has one more
at every place.
-/

namespace CapsuleDB.TicketRing

/-- How many of the first `N` tickets belong to place `j` of a ring of `n`. -/
def issued (n N j : ℕ) : ℕ := Nat.count (fun k => k ≡ j [MOD n]) N

section Counts

variable {n : ℕ}

/-- No ticket has been issued at the start. -/
@[simp] theorem issued_zero (n j : ℕ) : issued n 0 j = 0 := Nat.count_zero _

/-- The next ticket counts at its own place. -/
theorem issued_succ (n N j : ℕ) :
    issued n (N+1) j = issued n N j + if N ≡ j [MOD n] then 1 else 0 := Nat.count_succ _ _

/-- More tickets leave no place with fewer. -/
theorem issued_mono (n j : ℕ) {M N : ℕ} (h : M ≤ N) : issued n M j ≤ issued n N j :=
  Nat.count_monotone _ h

/-- A full round of tickets has one for every place. -/
theorem issued_add_size (hn : 0 < n) (N j : ℕ) : issued n (N+n) j = issued n N j+1 := by
  rw [issued, issued, Nat.count_modEq_card _ hn, Nat.count_modEq_card _ hn,
    Nat.add_div_right N hn, Nat.add_mod_right]
  omega

/-- A counter with more tickets at one place is ahead. -/
theorem lt_of_issued_lt {M N j : ℕ} (h : issued n M j < issued n N j) : M < N := by
  by_contra hle
  have hmono := issued_mono n j (not_lt.mp hle)
  omega

/-- A counter with two more tickets at one place has more at every place. -/
theorem issued_lt_of_gap (hn : 0 < n) {M N i : ℕ} (h : issued n M i+2 ≤ issued n N i) (j : ℕ) :
    issued n M j < issued n N j := by
  have hround := issued_add_size hn M i
  have hahead : M+n < N := lt_of_issued_lt (n := n) (j := i) (by omega)
  have hmono := issued_mono n j hahead.le
  rw [issued_add_size hn M j] at hmono
  omega

/-- A counter with more tickets at one place has no fewer at any other. -/
theorem issued_le_of_lt {M N i : ℕ} (h : issued n M i < issued n N i) (j : ℕ) :
    issued n M j ≤ issued n N j := issued_mono n j (lt_of_issued_lt h).le

end Counts

section Windows

variable {n : ℕ}

/-- Two tickets less than the size apart that belong to one place are the same. -/
theorem eq_of_modEq {base i j : ℕ} (hi : i < n) (hj : j < n) (h : base+i ≡ base+j [MOD n]) :
    i = j := by
  have hmod := Nat.ModEq.add_left_cancel' base h
  rw [Nat.ModEq, Nat.mod_eq_of_lt hi, Nat.mod_eq_of_lt hj] at hmod
  exact hmod

/-- The ticket a whole round later belongs to the same place. -/
theorem add_size_modEq (k : ℕ) : k+n ≡ k [MOD n] := by
  rw [Nat.ModEq, Nat.add_mod_right]

end Windows

end CapsuleDB.TicketRing

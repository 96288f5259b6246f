import CapsuleDB.LabelledRun
import CapsuleDB.RingOrder
import Mathlib.Data.Nat.ModEq
import Mathlib.Data.UInt

/-!
# The buffer pool

A pool hands out its buffers by a cursor that only grows. The cursor is a
32-bit number with a sign, which wraps around after half of its values, and it
becomes a 64-bit number without one before it is reduced modulo the number of
buffers. It is atomic, so that the calls of all threads are one sequence. They
are numbered, and the buffer of a call depends on its number alone.
-/

namespace CapsuleDB.UtilBufPool

open LabelledRun RingOrder

/-- The fields of the `BufPool` class that `GetBuf` uses. A buffer is named by
its place in `buf_pool`. -/
structure BufPool where
  /-- The number of buffers. -/
  chunkCnt : UInt64
  /-- The number of the next call, as an `int`. -/
  cursor : Int32

namespace BufPool

/-- The constructor. -/
def new (chunkCnt : UInt64) : BufPool := ⟨chunkCnt, 0⟩

/-- `GetBuf`, with the buffer it returns; nothing when it divides by zero. The
cursor becomes a `size_t` first. -/
def getBuf (p : BufPool) : Option (ℕ × BufPool) :=
  if p.chunkCnt = 0 then none
  else some ((p.cursor.toInt64.toUInt64%p.chunkCnt).toNat, { p with cursor := p.cursor+1 })

end BufPool

/-- A call of `GetBuf`, labelled with the buffer it returns. -/
def Step (p : BufPool) (buf : ℕ) (p' : BufPool) : Prop := p.getBuf = some (buf, p')

/-- What the cursor of call number `k` becomes as a `size_t`. -/
def wrapped (k : ℕ) : ℕ := (Int32.ofNat k).toInt64.toUInt64.toNat

/-- The second half of the values of an `int` are negative, and move to the
end of those of a `size_t`. -/
theorem wrapped_eq (k : ℕ) :
    wrapped k = if k%2^32 < 2^31 then k%2^32 else k%2^32+(2^64-2^32) := by
  have hsigned : (Int32.ofNat k).toInt64.toInt = (k : ℤ).bmod Int32.size := by
    rw [Int32.toInt_toInt64, Int32.toInt_ofNat']
  have hbits : (Int32.ofNat k).toInt64.toInt =
      if 2*wrapped k < 2^64 then (wrapped k : ℤ) else (wrapped k : ℤ)-(2^64 : ℕ) :=
    BitVec.toInt_eq_toNat_cond _
  have hlt : wrapped k < 2^64 := UInt64.toNat_lt _
  have hsize : Int32.size = 4294967296 := rfl
  rw [hsigned, hsize, Int.bmod_def] at hbits
  split at hbits <;> split at hbits <;> split <;> omega

/-- The buffer of call number `k`. -/
def place (n k : ℕ) : ℕ := wrapped k%n

/-- The number of buffers and of calls for which the way that the cursor wraps
makes no difference: the size divides the number of values of an `int`, or the
calls end before the cursor turns negative, or they end before it is zero again
and either the size divides what the negative values are moved by, or it is so
large that these fall on buffers not yet used. -/
def WrapsEvenly (n L : ℕ) : Prop :=
  n ∣ 2^32 ∨ L ≤ 2^31 ∨ L ≤ 2^32 ∧ (n ∣ 2^64-2^32 ∨ L+(2^64-2^32)%n ≤ n)

section Places

variable {n L : ℕ}

/-- The first calls count modulo the size. -/
theorem place_low {k : ℕ} (hk : k < 2^31) : place n k = k%n := by
  rw [place, wrapped_eq, Nat.mod_eq_of_lt (by omega : k < 2^32), if_pos hk]

/-- A negative cursor counts on from a place that is moved. -/
theorem place_high {k : ℕ} (hlo : 2^31 ≤ k) (hhi : k < 2^32) :
    place n k = (k+(2^64-2^32)%n)%n := by
  rw [place, wrapped_eq, Nat.mod_eq_of_lt hhi, if_neg (by omega), Nat.add_mod_mod]

/-- After all values of an `int` the cursor is zero again. -/
theorem place_wrap : place n (2^32) = 0 := by
  rw [place, wrapped_eq]
  exact Nat.zero_mod n

/-- The call before any other returns the first buffer. -/
theorem place_zero : place n 0 = 0 := by
  rw [place, wrapped_eq]
  exact Nat.zero_mod n

/-- A size that divides the number of values of an `int` divides the rest too. -/
theorem place_of_dvd (h : n ∣ 2^32) (k : ℕ) : place n k = k%n := by
  have hlow : k%2^32 ≡ k [MOD n] := (Nat.mod_modEq k (2^32)).of_dvd h
  have hmove : n ∣ 2^64-2^32 := h.trans ⟨2^32-1, by decide⟩
  rw [place, wrapped_eq]
  split
  · exact hlow
  · rw [Nat.add_mod, Nat.mod_eq_zero_of_dvd hmove, Nat.add_zero, Nat.mod_mod]
    exact hlow

/-- A size that divides what the negative values are moved by keeps the count
until the cursor is zero again. -/
theorem place_of_dvd_move (h : n ∣ 2^64-2^32) {k : ℕ} (hk : k < 2^32) : place n k = k%n := by
  by_cases hlow : k < 2^31
  · exact place_low hlow
  · rw [place_high (by omega) hk, Nat.mod_eq_zero_of_dvd h, Nat.add_zero]

/-- A size beyond all calls leaves each of them its own place. -/
theorem trueRing_of_large (hL : L ≤ 2^32) (hlarge : L+(2^64-2^32)%n ≤ n) :
    TrueRing n ((List.range L).map (place n)) := by
  have hplace : ∀ k < L, place n k = if k < 2^31 then k else k+(2^64-2^32)%n := by
    intro k hk
    split
    · next hlow => rw [place_low hlow, Nat.mod_eq_of_lt (by omega)]
    · next hhigh => rw [place_high (by omega) (by omega), Nat.mod_eq_of_lt (by omega)]
  refine trueRing_map_range_iff.mpr ⟨fun k hk => ?_, fun i j hij hj _ => ?_⟩
  · rw [hplace k hk]
    split <;> omega
  · rw [hplace i (by omega), hplace j hj]
    split <;> split <;> omega

/-- Where the cursor wraps evenly, the places are in ring order. -/
theorem trueRing_of_wrapsEvenly (hn : 0 < n) (h : WrapsEvenly n L) :
    TrueRing n ((List.range L).map (place n)) := by
  rcases h with hdvd | hshort | ⟨hL, hmove | hlarge⟩
  · exact trueRing_of_mod hn fun k _ => place_of_dvd hdvd k
  · exact trueRing_of_mod hn fun k hk => place_low (by omega)
  · exact trueRing_of_mod hn fun k hk => place_of_dvd_move hmove (by omega)
  · exact trueRing_of_large hL hlarge

/-- A count that is kept until the cursor is zero again starts over too early,
unless the size divides the number of values of an `int`. -/
theorem same_place_of_zero (hn : 0 < n) (hmove : n ∣ 2^64-2^32) (hdvd : ¬ n ∣ 2^32) :
    ∃ i, i < 2^32 ∧ 2^32 < i+n ∧ place n i = place n (2^32) := by
  have hpos : 2^32%n ≠ 0 := fun h => hdvd (Nat.dvd_of_mod_eq_zero h)
  have hle : 2^32%n ≤ 2^32 := Nat.mod_le _ _
  have hlt : 2^32%n < n := Nat.mod_lt _ hn
  refine ⟨2^32-2^32%n, by omega, by omega, ?_⟩
  rw [place_wrap, place_of_dvd_move hmove (by omega)]
  exact Nat.mod_eq_zero_of_dvd (Nat.dvd_sub_mod _)

/-- Where the negative values are moved out of the count, the first of them
falls on a buffer returned shortly before, or a later one on the first buffer
before all are used, or the cursor is zero again before. -/
theorem same_place_of_negative (hn : 0 < n) (hmove : ¬ n ∣ 2^64-2^32) :
    ∃ i j, i < j ∧ j < i+n ∧ place n i = place n j ∧
      (j = 2^31 ∨ j = n-(2^64-2^32)%n ∧ j < 2^32 ∨ j = 2^32 ∧ 2^32 ≤ n-(2^64-2^32)%n) := by
  have hpos : (2^64-2^32)%n ≠ 0 := fun h => hmove (Nat.dvd_of_mod_eq_zero h)
  have hlt : (2^64-2^32)%n < n := Nat.mod_lt _ hn
  have hmoved : ∀ k, 2^31 ≤ k → k < 2^32 → place n k = (k+(2^64-2^32)%n)%n := fun k => place_high
  generalize (2^64-2^32)%n = moved at hpos hlt hmoved ⊢
  by_cases hsize : n ≤ 2^31+moved
  · refine ⟨2^31+moved-n, 2^31, by omega, by omega, ?_, .inl rfl⟩
    rw [place_low (by omega), hmoved (2^31) le_rfl (by omega), Nat.mod_eq_sub_mod hsize]
  · by_cases hfirst : n-moved < 2^32
    · refine ⟨0, n-moved, by omega, by omega, ?_, .inr (.inl ⟨rfl, hfirst⟩)⟩
      rw [place_zero, hmoved _ (by omega) hfirst, Nat.sub_add_cancel hlt.le, Nat.mod_self]
    · refine ⟨0, 2^32, by omega, by omega, ?_, .inr (.inr ⟨rfl, by omega⟩)⟩
      rw [place_zero, place_wrap]

/-- Where the cursor does not wrap evenly, two calls less than the size apart
return one buffer. -/
theorem exists_same_place (hn : 0 < n) (h : ¬ WrapsEvenly n L) :
    ∃ i j, i < j ∧ j < L ∧ j < i+n ∧ place n i = place n j := by
  unfold WrapsEvenly at h
  push Not at h
  obtain ⟨hdvd, hlong, hrest⟩ := h
  by_cases hmove : n ∣ 2^64-2^32
  · obtain ⟨i, hi, hsize, heq⟩ := same_place_of_zero hn hmove hdvd
    have hL : 2^32 < L := by
      by_contra hL
      exact (hrest (by omega)).1 hmove
    exact ⟨i, 2^32, hi, hL, hsize, heq⟩
  · obtain ⟨i, j, hij, hsize, heq, hj⟩ := same_place_of_negative hn hmove
    have hL : L ≤ 2^32 → n < L+(2^64-2^32)%n := fun hL => (hrest hL).2
    exact ⟨i, j, hij, by omega, hsize, heq⟩

/-- The places of the first calls are in ring order exactly when the cursor
wraps evenly. -/
theorem trueRing_iff_wrapsEvenly (hn : 0 < n) :
    TrueRing n ((List.range L).map (place n)) ↔ WrapsEvenly n L := by
  constructor
  · intro hring
    by_contra h
    obtain ⟨i, j, hij, hj, hsize, heq⟩ := exists_same_place hn h
    exact (trueRing_map_range_iff.mp hring).2 i j hij hj hsize heq
  · exact trueRing_of_wrapsEvenly hn

end Places

section Runs

variable {chunkCnt : UInt64} {history : List ℕ} {p : BufPool}

/-- A call returns when there are buffers. -/
theorem getBuf_eq (hcnt : 1 ≤ p.chunkCnt.toNat) {k : ℕ} (hcursor : p.cursor = Int32.ofNat k) :
    p.getBuf = some (place p.chunkCnt.toNat k, ⟨p.chunkCnt, Int32.ofNat (k+1)⟩) := by
  have hne : p.chunkCnt ≠ 0 := by
    intro h
    rw [h] at hcnt
    exact absurd hcnt (by decide)
  rw [BufPool.getBuf, if_neg hne, hcursor, UInt64.toNat_mod, Int32.ofNat_add]
  rfl

/-- The calls of a run return the buffers of their numbers, in order. -/
theorem run_eq (hcnt : 1 ≤ chunkCnt.toNat) (hr : Run Step (BufPool.new chunkCnt) history p) :
    history.reverse = (List.range history.length).map (place chunkCnt.toNat) ∧
      p = ⟨chunkCnt, Int32.ofNat history.length⟩ := by
  induction hr with
  | start => exact ⟨rfl, rfl⟩
  | next _ hs ih =>
    obtain ⟨hhistory, rfl⟩ := ih
    unfold Step at hs
    rw [getBuf_eq hcnt rfl] at hs
    cases hs
    refine ⟨?_, rfl⟩
    rw [List.reverse_cons, hhistory, List.length_cons, List.range_succ, List.map_append,
      List.map_singleton]

/-- There are runs of any length. -/
theorem exists_run (hcnt : 1 ≤ chunkCnt.toNat) (L : ℕ) :
    ∃ history p, Run Step (BufPool.new chunkCnt) history p ∧ history.length = L := by
  induction L with
  | zero => exact ⟨[], _, .start, rfl⟩
  | succ L ih =>
    obtain ⟨history, p, hr, hlength⟩ := ih
    obtain ⟨_, rfl⟩ := run_eq hcnt hr
    exact ⟨_, _, hr.next (getBuf_eq hcnt rfl), by rw [List.length_cons, hlength]⟩

/-- The calls of a run are in ring order exactly when the places of their
numbers are. -/
theorem trueRing_run_iff (hcnt : 1 ≤ chunkCnt.toNat)
    (hr : Run Step (BufPool.new chunkCnt) history p) :
    TrueRing chunkCnt.toNat history ↔
      TrueRing chunkCnt.toNat ((List.range history.length).map (place chunkCnt.toNat)) := by
  rw [← (run_eq hcnt hr).1]
  constructor
  · exact fun h => h.reverse
  · intro h
    have hreverse := h.reverse
    rwa [List.reverse_reverse] at hreverse

end Runs

/-- In every run of a pool that has buffers, every call returns one of them,
and the calls are in ring order exactly when the cursor wraps evenly. -/
theorem true_ring_iff {chunkCnt : UInt64} (hcnt : 1 ≤ chunkCnt.toNat) {history : List ℕ}
    {p : BufPool} (hr : Run Step (BufPool.new chunkCnt) history p) :
    p.getBuf.isSome = true ∧ (∀ buf ∈ history, buf < chunkCnt.toNat) ∧
      (TrueRing chunkCnt.toNat history ↔ WrapsEvenly chunkCnt.toNat history.length) := by
  obtain ⟨hhistory, hp⟩ := run_eq hcnt hr
  refine ⟨?_, fun buf hbuf => ?_, ?_⟩
  · rw [hp, getBuf_eq hcnt rfl]
    rfl
  · rw [← List.mem_reverse, hhistory, List.mem_map] at hbuf
    obtain ⟨k, _, rfl⟩ := hbuf
    exact Nat.mod_lt _ (by omega)
  · rw [trueRing_run_iff hcnt hr, trueRing_iff_wrapsEvenly (by omega)]

/-- Two rounds of three buffers. -/
theorem true_ring_three :
    Run Step (BufPool.new 3) [2, 1, 0, 2, 1, 0] ⟨3, 6⟩ ∧ TrueRing 3 [2, 1, 0, 2, 1, 0] := by
  have hexec : exec (fun p (_ : Unit) => p.getBuf) (BufPool.new 3) [(), (), (), (), (), ()] =
      some ([2, 1, 0, 2, 1, 0], ⟨3, 6⟩) := rfl
  have hstep : ∀ ⦃p : BufPool⦄ ⦃_op : Unit⦄ ⦃buf p'⦄, p.getBuf = some (buf, p') → Step p buf p' :=
    fun _ _ _ _ h => h
  have hr := run_of_exec hstep hexec
  exact ⟨hr, (true_ring_iff (by decide) hr).2.2.mpr (.inr (.inl (by decide)))⟩

/-- With seven buffers the call at which the cursor turns negative returns the
buffer of the last call but one. -/
theorem ring_broken_seven :
    ∃ history p, Run Step (BufPool.new 7) history p ∧ history.length = 2^31+1 ∧
      ¬ TrueRing 7 history := by
  have hcnt : 1 ≤ (7 : UInt64).toNat := by decide
  obtain ⟨history, p, hr, hlength⟩ := exists_run hcnt (2^31+1)
  refine ⟨history, p, hr, hlength, fun hring => ?_⟩
  have hplaces := (trueRing_run_iff hcnt hr).mp hring
  rw [hlength] at hplaces
  have hne := (trueRing_map_range_iff.mp hplaces).2 (2^31-2) (2^31) (by omega) (by omega)
    (by decide)
  exact hne (by decide)

end CapsuleDB.UtilBufPool

import Mathlib.Data.List.Infix
import Mathlib.Data.List.Nodup
import Mathlib.Data.List.Perm.Subperm

/-!
# Handing out the members of a ring in turn

A list of numbers below a size is in ring order when no stretch of at most as
many of them repeats one. A number then comes again only after all the others.
The order of a sequence given by its index is a condition on pairs of indices,
and counting modulo the size is in ring order.
-/

namespace CapsuleDB.RingOrder

variable {α : Type*}

/-- The list hands out the numbers below `n` in ring order. -/
structure TrueRing (n : ℕ) (l : List ℕ) : Prop where
  /-- Every number is below the size. -/
  below : ∀ a ∈ l, a < n
  /-- As many of them in a row as the size, or fewer, are pairwise different. -/
  distinct : ∀ w, w <:+: l → w.length ≤ n → w.Nodup
  /-- Between two times the same number there is every other one. -/
  again : ∀ a between, a :: between ++ [a] <:+: l → ∀ b < n, b ≠ a → b ∈ between

/-- Short stretches of a list are pairwise different when no item equals one
that comes less than that many places later. -/
theorem distinct_iff {n : ℕ} {l : List α} :
    (∀ w, w <:+: l → w.length ≤ n → w.Nodup) ↔
      ∀ i j, i < j → j < l.length → j < i+n → l[i]? ≠ l[j]? := by
  constructor
  · intro h i j hij hj hn
    have hpart : (l.drop i).take (j-i+1) <:+: l :=
      (List.take_prefix _ _).isInfix.trans (List.drop_suffix _ _).isInfix
    have hlength : ((l.drop i).take (j-i+1)).length = j-i+1 := by
      rw [List.length_take, List.length_drop]
      omega
    have hnodup := h _ hpart (by omega)
    have hne := List.nodup_iff_getElem?_ne_getElem?.mp hnodup 0 (j-i) (by omega) (by omega)
    rw [List.getElem?_take_of_lt (by omega), List.getElem?_take_of_lt (by omega),
      List.getElem?_drop, List.getElem?_drop, Nat.add_zero, Nat.add_sub_cancel' hij.le] at hne
    exact hne
  · rintro h w ⟨s, t, rfl⟩ hw
    rw [List.nodup_iff_getElem?_ne_getElem?]
    intro i j hij hj
    have hget : ∀ k < w.length, (s ++ w ++ t)[s.length+k]? = w[k]? := fun k hk => by
      rw [List.append_assoc, List.getElem?_append_right (by omega), Nat.add_sub_cancel_left,
        List.getElem?_append_left hk]
    have hne := h (s.length+i) (s.length+j) (by omega)
      (by rw [List.length_append, List.length_append]; omega) (by omega)
    rwa [hget i (by omega), hget j hj] at hne

/-- Where short stretches are pairwise different, a number comes again only
after all the others: the stretch that it begins has them all. -/
theorem mem_between {n : ℕ} {l : List ℕ} (hbelow : ∀ a ∈ l, a < n)
    (hdistinct : ∀ w, w <:+: l → w.length ≤ n → w.Nodup) {a b : ℕ} {between : List ℕ}
    (h : a :: between ++ [a] <:+: l) (hb : b < n) (hne : b ≠ a) : b ∈ between := by
  have hlong : n ≤ (a :: between).length := by
    by_contra hlt
    have hnodup := hdistinct _ h (by rw [List.length_append, List.length_singleton]; omega)
    rw [List.nodup_append] at hnodup
    exact hnodup.2.2 a (List.mem_cons_self ..) a (List.mem_singleton_self a) rfl
  have hpart : (a :: between).take n <:+: l :=
    (List.take_prefix _ _).isInfix.trans ((List.prefix_append _ _).isInfix.trans h)
  have hlength : ((a :: between).take n).length = n := by
    rw [List.length_take]
    omega
  have hsubset : (a :: between).take n ⊆ List.range n := fun c hc =>
    List.mem_range.mpr (hbelow c (hpart.subset hc))
  have hperm := (List.subperm_of_subset (hdistinct _ hpart hlength.le) hsubset).perm_of_length_le
    (by rw [hlength, List.length_range])
  have hmem := List.mem_of_mem_take (hperm.mem_iff.mpr (List.mem_range.mpr hb))
  exact (List.mem_cons.mp hmem).resolve_left hne

/-- Ring order is a condition on the numbers and on pairs of places. -/
theorem trueRing_iff {n : ℕ} {l : List ℕ} :
    TrueRing n l ↔ (∀ a ∈ l, a < n) ∧
      ∀ i j, i < j → j < l.length → j < i+n → l[i]? ≠ l[j]? := by
  rw [← distinct_iff]
  constructor
  · intro h
    exact ⟨h.below, h.distinct⟩
  · rintro ⟨hbelow, hdistinct⟩
    exact ⟨hbelow, hdistinct, fun a between h b hb hne => mem_between hbelow hdistinct h hb hne⟩

/-- Ring order is the same read backwards. -/
theorem TrueRing.reverse {n : ℕ} {l : List ℕ} (h : TrueRing n l) : TrueRing n l.reverse := by
  refine trueRing_iff.mpr ⟨fun a ha => h.below a (List.mem_reverse.mp ha), ?_⟩
  rw [← distinct_iff]
  intro w hw hlength
  have hpart : w.reverse <:+: l := by
    rwa [← List.reverse_infix, List.reverse_reverse]
  rw [← List.nodup_reverse]
  exact h.distinct _ hpart (by rwa [List.length_reverse])

/-- A sequence given by its index is in ring order when no two of its values
less than the size apart are equal. -/
theorem trueRing_map_range_iff {n L : ℕ} {f : ℕ → ℕ} :
    TrueRing n ((List.range L).map f) ↔
      (∀ k < L, f k < n) ∧ ∀ i j, i < j → j < L → j < i+n → f i ≠ f j := by
  have hget : ∀ k < L, ((List.range L).map f)[k]? = some (f k) := fun k hk => by
    rw [List.getElem?_map, List.getElem?_range hk, Option.map_some]
  rw [trueRing_iff, List.forall_mem_map]
  simp only [List.mem_range, List.length_map, List.length_range]
  refine and_congr_right fun _ => ?_
  constructor
  · intro h i j hij hj hn heq
    refine h i j hij hj hn ?_
    rw [hget i (by omega), hget j hj, heq]
  · intro h i j hij hj hn heq
    rw [hget i (by omega), hget j hj] at heq
    exact h i j hij hj hn (Option.some_inj.mp heq)

/-- Numbers less than the size apart differ modulo the size. -/
theorem mod_ne_mod {n i j : ℕ} (hij : i < j) (hn : j < i+n) : i%n ≠ j%n := by
  intro heq
  have hmod := Nat.sub_mod_eq_zero_of_mod_eq heq.symm
  rw [Nat.mod_eq_of_lt (by omega)] at hmod
  omega

/-- Counting modulo the size is in ring order, over any stretch. -/
theorem trueRing_of_mod {n L : ℕ} {f : ℕ → ℕ} (hn : 0 < n) (hf : ∀ k < L, f k = k%n) :
    TrueRing n ((List.range L).map f) := by
  refine trueRing_map_range_iff.mpr ⟨fun k hk => ?_, fun i j hij hj hsize => ?_⟩
  · rw [hf k hk]
    exact Nat.mod_lt k hn
  · rw [hf i (by omega), hf j hj]
    exact mod_ne_mod hij hsize

end CapsuleDB.RingOrder

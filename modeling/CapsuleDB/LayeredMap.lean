import Mathlib.Data.List.AList
import Mathlib.Algebra.BigOperators.Group.List.Basic
import Mathlib.Algebra.GroupWithZero.Nat
import Mathlib.Algebra.Order.BigOperators.Group.List
import Mathlib.Algebra.Order.Group.Nat
import Mathlib.Data.Finset.Card
import Mathlib.Logic.Function.Basic

/-!
# Layered finite maps

A layered map answers a key from the first layer that holds it, so an upper
layer hides the layers below. Replaying a log of pairs is the same with the
latest pair on top. The last part of this file weighs the entries of a finite
map and tracks the total through insertions. All is stated over arbitrary key
and value types.
-/

namespace CapsuleDB.LayeredMap

section Layers

variable {κ ν : Type*}

/-- The answer of the first layer that holds the key. -/
def find (layers : List (κ → Option ν)) (k : κ) : Option ν :=
  layers.findSome? fun layer => layer k

@[simp] theorem find_nil (k : κ) : find ([] : List (κ → Option ν)) k = none := rfl

/-- The top layer answers first; the others only where it is silent. -/
theorem find_cons (layer : κ → Option ν) (layers : List (κ → Option ν)) (k : κ) :
    find (layer :: layers) k = (layer k).or (find layers k) := by
  unfold find
  rw [List.findSome?_cons]
  cases layer k <;> rfl

/-- A key held by the top layer is answered by it. -/
theorem find_of_top {layer : κ → Option ν} {k : κ} {v : ν} (h : layer k = some v)
    (layers : List (κ → Option ν)) : find (layer :: layers) k = some v := by
  rw [find_cons, h, Option.some_or]

/-- A key the top layer does not hold is answered by the layers below. -/
theorem find_of_top_none {layer : κ → Option ν} {k : κ} (h : layer k = none)
    (layers : List (κ → Option ν)) : find (layer :: layers) k = find layers k := by
  rw [find_cons, h, Option.none_or]

/-- No layer holds a key that is not answered. -/
theorem find_eq_none {layers : List (κ → Option ν)} {k : κ} :
    find layers k = none ↔ ∀ layer ∈ layers, layer k = none := List.findSome?_eq_none_iff

end Layers

section Logs

variable {κ ν : Type*} [DecidableEq κ]

/-- One pair written out over a map. -/
def overwrite (m : κ → Option ν) (e : κ × ν) : κ → Option ν := Function.update m e.1 (some e.2)

/-- What a log of pairs leaves when it is written out in order. -/
def replay (log : List (κ × ν)) : κ → Option ν := log.foldl overwrite fun _ => none

@[simp] theorem replay_nil (k : κ) : replay ([] : List (κ × ν)) k = none := rfl

/-- One pair answers its own key. -/
theorem replay_singleton (e : κ × ν) (k : κ) :
    replay [e] k = if k = e.1 then some e.2 else none := by
  rw [replay, List.foldl_cons, List.foldl_nil, overwrite, Function.update_apply]

/-- Writing a log out over a map hides the map where the log has the key. -/
theorem foldl_overwrite_eq (log : List (κ × ν)) (m : κ → Option ν) (k : κ) :
    log.foldl overwrite m k = (replay log k).or (m k) := by
  induction log generalizing m with
  | nil => rfl
  | cons e log ih =>
    rw [replay, List.foldl_cons, List.foldl_cons, ih, ih, Option.or_assoc]
    congr 1
    rw [overwrite, overwrite, Function.update_apply, Function.update_apply]
    split
    · rfl
    · rfl

/-- The later part of a log hides the earlier one. -/
theorem replay_append (log more : List (κ × ν)) (k : κ) :
    replay (log ++ more) k = (replay more k).or (replay log k) := by
  rw [replay, List.foldl_append, foldl_overwrite_eq]
  rfl

/-- The entries of a finite map replay to the map. -/
theorem replay_entries (m : AList fun _ : κ => ν) (k : κ) :
    replay (m.entries.map fun e => (e.1, e.2)) k = m.lookup k := by
  obtain ⟨entries, hnodup⟩ := m
  show _ = entries.dlookup k
  dsimp only
  induction entries with
  | nil => rfl
  | cons e entries ih =>
    obtain ⟨hnotin, htail⟩ := List.nodupKeys_cons.mp hnodup
    rw [List.map_cons, ← List.singleton_append, replay_append, replay_singleton, ih htail]
    by_cases hk : k = e.1
    · subst hk
      rw [List.dlookup_eq_none.mpr hnotin, Option.none_or, if_pos rfl, List.dlookup_cons_eq]
    · rw [if_neg hk, Option.or_none, List.dlookup_cons_ne _ _ hk]

end Logs

section Weights

variable {κ ν : Type*}

/-- The total weight of the entries of a finite map. -/
def totalWeight (w : κ → ν → ℕ) (m : AList fun _ : κ => ν) : ℕ :=
  (m.entries.map fun e => w e.1 e.2).sum

@[simp] theorem totalWeight_empty (w : κ → ν → ℕ) : totalWeight w ∅ = 0 := rfl

variable [DecidableEq κ]

/-- Inserting a new key adds the weight of its entry. -/
theorem totalWeight_insert_new (w : κ → ν → ℕ) {m : AList fun _ : κ => ν} {k : κ}
    (hk : m.lookup k = none) (v : ν) :
    totalWeight w (m.insert k v) = w k v + totalWeight w m := by
  unfold totalWeight
  rw [AList.entries_insert_of_notMem (AList.lookup_eq_none.mp hk), List.map_cons, List.sum_cons]

/-- Erasing a held key removes exactly the weight of its entry. -/
theorem sum_kerase (w : κ → ν → ℕ) {l : List (Sigma fun _ : κ => ν)} {k : κ} {u : ν}
    (hk : l.dlookup k = some u) :
    (l.map fun e => w e.1 e.2).sum = w k u + ((l.kerase k).map fun e => w e.1 e.2).sum := by
  induction l with
  | nil => cases hk
  | cons e l ih =>
    obtain ⟨k', u'⟩ := e
    by_cases he : k = k'
    · subst he
      rw [List.dlookup_cons_eq] at hk
      cases hk
      have herase : List.kerase k (⟨k, u⟩ :: l) = l :=
        List.kerase_cons_eq (s := (⟨k, u⟩ : Sigma fun _ : κ => ν)) rfl
      rw [herase, List.map_cons, List.sum_cons]
    · rw [List.dlookup_cons_ne l ⟨k', u'⟩ he] at hk
      rw [List.kerase_cons_ne he, List.map_cons, List.sum_cons, List.map_cons, List.sum_cons,
        ih hk]
      omega

/-- Overwriting a held key exchanges the weight of its entry. -/
theorem totalWeight_insert_old (w : κ → ν → ℕ) {m : AList fun _ : κ => ν} {k : κ} {u : ν}
    (hk : m.lookup k = some u) (v : ν) :
    totalWeight w (m.insert k v) + w k u = totalWeight w m + w k v := by
  unfold totalWeight
  have hsum := sum_kerase w (show m.entries.dlookup k = some u from hk)
  rw [AList.entries_insert, List.map_cons, List.sum_cons]
  dsimp only
  omega

/-- A bound on the weight of a finite map with its keys in a finite set. -/
theorem totalWeight_le (w : κ → ν → ℕ) {m : AList fun _ : κ => ν} {keys : Finset κ} {b : ℕ}
    (h : ∀ k v, m.lookup k = some v → k ∈ keys ∧ w k v ≤ b) :
    totalWeight w m ≤ keys.card*b := by
  have hentry : ∀ e ∈ m.entries, e.1 ∈ keys ∧ w e.1 e.2 ≤ b := fun e he =>
    h e.1 e.2 (AList.mem_lookup_iff.mpr he)
  have hkeys : m.entries.length ≤ keys.card := by
    have hsub : m.keys.toFinset ⊆ keys := by
      intro k hk
      have hsome : (m.lookup k).isSome = true := AList.lookup_isSome.mpr (List.mem_toFinset.mp hk)
      obtain ⟨v, hv⟩ := Option.isSome_iff_exists.mp hsome
      exact (h k v hv).1
    have hcard := Finset.card_le_card hsub
    rw [List.toFinset_card_of_nodup (AList.keys_nodup m)] at hcard
    rwa [AList.keys, List.keys, List.length_map] at hcard
  calc totalWeight w m
      ≤ (m.entries.map fun e => w e.1 e.2).length • b := List.sum_le_card_nsmul _ _ fun x hx => by
        obtain ⟨e, he, rfl⟩ := List.mem_map.mp hx
        exact (hentry e he).2
    _ = m.entries.length*b := by
        rw [List.length_map]
        rfl
    _ ≤ keys.card*b := Nat.mul_le_mul_right b hkeys

/-- An insertion updates the lookup function at its key. -/
theorem lookup_insert_eq_update (m : AList fun _ : κ => ν) (k : κ) (v : ν) :
    (fun k' => (m.insert k v).lookup k') = Function.update (fun k' => m.lookup k') k (some v) := by
  funext k'
  by_cases hk : k' = k
  · subst hk
    rw [AList.lookup_insert, Function.update_self]
  · rw [AList.lookup_insert_ne hk, Function.update_of_ne hk]

end Weights

end CapsuleDB.LayeredMap

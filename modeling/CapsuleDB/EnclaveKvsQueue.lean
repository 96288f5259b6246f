import Mathlib.Data.Fintype.Card
import CapsuleDB.EnclaveKvsRun

/-!
# The recency queue of the store

Reads search the memtables listed in the recency queue only. With two
memtables a write that is accepted changes what is read under its own key and
under no other, and a write that is refused changes nothing. With more of them
the queue keeps the old entry of a memtable that is switched to again, and the
trimming at the front can then drop a memtable that still holds pairs.
-/

namespace CapsuleDB.EnclaveKvsQueue

open LabelledRun LayeredMap EnclaveMemTable EnclaveKvs EnclaveKvsRun

section TwoMemtables

variable {mtMaxSz : UInt64} {s s' : KVStore 2} {c d : Fin 2} {key value : Bytes} {m : MemTable}

/-- An accepted pair is read back. -/
theorem get_accepted (hs : Shape s c) (ha : s.Accepted key value d m s') (before : Bytes) :
    s'.get key before = .ok (.readPass, value) := by
  obtain ⟨o, ho⟩ := exists_other d
  have hs' := hs.next (.accepted ha)
  refine (hs'.get_pass_iff ho key before value).mpr (.inl ?_)
  rw [layer_accepted ha, Function.update_self]

/-- An accepted write changes no read of another key. -/
theorem get_accepted_of_ne (hs : Shape s c) (ha : s.Accepted key value d m s') {k : Bytes}
    (hk : k ≠ key) (before : Bytes) : s'.get k before = s.get k before := by
  have hs' := hs.next (.accepted ha)
  have hwritten : s'.layer d k = s.layer d k := by
    rw [layer_accepted ha, Function.update_of_ne hk]
  obtain ⟨o, ho⟩ := exists_other c
  by_cases hcd : c = d
  · subst hcd
    rw [hs'.get_eq ho, hs.get_eq ho, find_cons, find_cons, find_cons, find_cons, hwritten,
      layer_accepted_of_ne ha ho]
  · -- The write switched to the other memtable, which was empty.
    have hod : o = d := eq_of_ne_ne ho (Ne.symm hcd)
    subst hod
    have hnone : s.layer o k = none := layer_of_empty (hs.spare_of_ne ha hcd) k
    rw [hs'.get_eq (Ne.symm ho), hs.get_eq ho, find_cons, find_cons, find_cons, find_cons,
      hwritten, hnone, layer_accepted_of_ne ha (Ne.symm ho), find_nil, Option.none_or,
      Option.none_or]

/-- In every reachable state a write completes. It is refused exactly when no
memtable is writable, and then only the flag changes; otherwise it passes, its
value is read back, and the reads of all other keys are as before. -/
theorem put_all_or_nothing {sema : Bool} {history : List Event}
    (hr : Run Step (KVStore.new 2 mtMaxSz (some sema)) history s) (key value : Bytes) :
    ∃ s' st, s.put key value = .ok (s', st) ∧
      (st = .waitFlush ↔ ∀ i, (s.mt i).mutable = false) ∧
      (st = .waitFlush → s' = { s with flushSema := some true }) ∧
      (st ≠ .waitFlush → st = .writePass ∧
        (∀ before, s'.get key before = .ok (.readPass, value)) ∧
        ∀ k before, k ≠ key → s'.get k before = s.get k before) := by
  obtain ⟨c, hs⟩ := shape_of_run hr
  obtain ⟨b, hflag⟩ := Option.isSome_iff_exists.mp (flag_of_run hr)
  obtain ⟨s', st, hput⟩ := KVStore.put_ok hs.cur hflag key value
  refine ⟨s', st, hput, ?_⟩
  rcases KVStore.put_cases hs.cur hput with ⟨rfl, hclosed, rfl⟩ | ⟨rfl, d, m, ha⟩
  · exact ⟨iff_of_true rfl hclosed, fun _ => rfl, fun hne => absurd rfl hne⟩
  · obtain ⟨_, hstored⟩ := ha.stored
    have hopen : ¬ ∀ i, (s.mt i).mutable = false := by
      intro hclosed
      have hd := hclosed d
      rw [hstored.was_mutable] at hd
      cases hd
    refine ⟨iff_of_false KVStatus.noConfusion hopen, fun heq => KVStatus.noConfusion heq, ?_⟩
    exact fun _ => ⟨rfl, get_accepted hs ha, fun k before hk => get_accepted_of_ne hs ha hk before⟩

/-- A write into the second memtable, after one that closed the first. -/
theorem put_all_or_nothing_switch :
    ∃ s s' st, Run Step (KVStore.new 2 1 (some false)) [.put [1] [10] .writePass 0] s ∧
      s.put [2] [20] = .ok (s', st) ∧ (st = .waitFlush ↔ ∀ i, (s.mt i).mutable = false) := by
  have hr : Run Step (KVStore.new 2 1 (some false)) [.put [1] [10] .writePass 0] _ :=
    Run.start.next (.put rfl rfl)
  obtain ⟨s', st, hput, hrefused, _⟩ := put_all_or_nothing hr [2] [20]
  exact ⟨_, s', st, hr, hput, hrefused⟩

end TwoMemtables

section AnyNumber

variable {n : ℕ} {mtMaxSz : UInt64} {sema : Option Bool}

/-- The queue ends in the current memtable, repeats no index and lists every
memtable that holds pairs, so that a read fails only when nothing holds its key. -/
structure QueueCovers (s : KVStore n) : Prop where
  /-- There is an entry. -/
  nonempty : s.usageQ ≠ []
  /-- The current memtable is the last one. -/
  last : s.usageQ.getLast? = some s.curMt
  /-- The entries differ. -/
  nodup : s.usageQ.Nodup
  /-- No memtable that holds pairs is left out. -/
  covers : ∀ i : Fin n, (s.mt i).store ≠ ∅ → i.val ∈ s.usageQ
  /-- A failing read has seen all memtables. -/
  found : ∀ key before after, s.get key before = .ok (.readFail, after) →
    ∀ i, s.layer i key = none

/-- A write switches, if at all, to a memtable that is not in the queue, or to
the oldest entry of a full queue. -/
def SwitchesToOldest (s : KVStore n) : Event → Prop
  | .put _ _ .writePass slot => slot ≠ s.curMt →
      slot ∉ s.usageQ ∨ s.usageQ.length = n ∧ s.usageQ.head? = some slot
  | _ => True

/-- What holds of the queue after every run. -/
structure Queued (s : KVStore n) (c : Fin n) (q : List (Fin n)) : Prop where
  /-- The entries are indices of memtables. -/
  usageQ : s.usageQ = q.map Fin.val
  /-- The current memtable comes last. -/
  last : q.getLast? = some c
  /-- The queue is trimmed. -/
  length : q.length ≤ n

/-- A queue that fits is not trimmed. -/
theorem popExcess_of_le {q : List ℕ} (h : q.length ≤ n) : KVStore.popExcess n q = q := by
  cases q with
  | nil => rfl
  | cons i q => rw [KVStore.popExcess, if_neg (by omega)]

/-- A full queue loses its oldest entry for a new one. -/
theorem popExcess_append {q : List ℕ} {d : ℕ} (hn : 0 < n) (h : q.length = n) :
    KVStore.popExcess n (q ++ [d]) = q.tail ++ [d] := by
  cases q with
  | nil => exact absurd h (Nat.ne_of_lt hn)
  | cons i q =>
    have hlen : (q ++ [d]).length = n := by rw [← h, List.length_append]; rfl
    rw [List.cons_append, KVStore.popExcess, List.length_cons, hlen, if_pos (Nat.lt_succ_self n),
      popExcess_of_le hlen.le]
    rfl

/-- The queue after a switch. -/
def switched (q : List (Fin n)) (d : Fin n) : List (Fin n) :=
  if q.length = n then q.tail ++ [d] else q ++ [d]

/-- A switch appends to the queue and trims it. -/
theorem popExcess_map {q : List (Fin n)} (h : q.length ≤ n) (d : Fin n) :
    KVStore.popExcess n (q.map Fin.val ++ [d.val]) = (switched q d).map Fin.val := by
  unfold switched
  split
  · next hfull =>
    rw [popExcess_append d.pos (by rw [List.length_map, hfull]), List.map_append, List.map_tail]
    rfl
  · next hshort =>
    have hfits : (q.map Fin.val ++ [d.val]).length ≤ n := by
      rw [List.length_append, List.length_map, List.length_singleton]
      omega
    rw [popExcess_of_le hfits, List.map_append]
    rfl

/-- The fresh store. -/
theorem queued_new : Queued (KVStore.new (n+1) mtMaxSz sema) 0 [0] :=
  ⟨rfl, rfl, Nat.succ_le_succ (Nat.zero_le n)⟩

/-- The queue after a switch is a queue. -/
theorem Queued.switch {s s' : KVStore n} {c d : Fin n} {q : List (Fin n)} (hq : Queued s c q)
    (h : s'.usageQ = KVStore.popExcess n (s.usageQ ++ [d.val])) : Queued s' d (switched q d) := by
  have hlen := hq.length
  refine ⟨by rw [h, hq.usageQ, popExcess_map hlen], ?_, ?_⟩
  · unfold switched
    split <;> exact List.getLast?_concat
  · have hpos := d.pos
    unfold switched
    split
    · rw [List.length_append, List.length_tail, List.length_singleton]
      omega
    · rw [List.length_append, List.length_singleton]
      omega

/-- Under the invariant of the queue, covering is a matter of repeated and
missing entries. -/
theorem queueCovers_iff {s : KVStore n} {c : Fin n} {q : List (Fin n)} (hq : Queued s c q)
    (hc : s.curMt = c) :
    QueueCovers s ↔ q.Nodup ∧ ∀ i, (s.mt i).store ≠ ∅ → i ∈ q := by
  have hmem : ∀ i : Fin n, i.val ∈ s.usageQ ↔ i ∈ q := fun i => by
    rw [hq.usageQ, List.mem_map_of_injective Fin.val_injective]
  have hnodup : s.usageQ.Nodup ↔ q.Nodup := by
    rw [hq.usageQ, List.nodup_map_iff Fin.val_injective]
  have hne : q ≠ [] := by
    intro hnil
    have hlast := hq.last
    rw [hnil] at hlast
    cases hlast
  constructor
  · intro h
    exact ⟨hnodup.mp h.nodup, fun i hi => (hmem i).mp (h.covers i hi)⟩
  · rintro ⟨hq', hcov⟩
    refine ⟨?_, ?_, hnodup.mpr hq', fun i hi => (hmem i).mpr (hcov i hi), ?_⟩
    · rw [hq.usageQ]
      exact fun h => hne (List.map_eq_nil_iff.mp h)
    · rw [hq.usageQ, List.getLast?_map, hq.last, hc]
      rfl
    · intro key before after hget i
      rw [KVStore.get_eq hq.usageQ hne] at hget
      by_cases hi : (s.mt i).store = ∅
      · exact layer_of_empty hi key
      · cases hfind : find (q.reverse.map s.layer) key with
        | some found =>
          rw [hfind] at hget
          cases hget
        | none =>
          refine find_eq_none.mp hfind _ (List.mem_map_of_mem ?_)
          exact List.mem_reverse.mpr (hcov i hi)

/-- A full queue of different indices lists all memtables. -/
theorem mem_of_full {q : List (Fin n)} (hq : q.Nodup) (h : q.length = n) (d : Fin n) : d ∈ q := by
  have hcard : q.toFinset.card = Fintype.card (Fin n) := by
    rw [List.toFinset_card_of_nodup hq, h, Fintype.card_fin]
  exact List.mem_toFinset.mp (Finset.card_eq_iff_eq_univ _ |>.mp hcard ▸ Finset.mem_univ d)

/-- A switch repeats no index exactly when the memtable is new to the queue, or
is the oldest entry of a full one. -/
theorem nodup_switched_iff {q : List (Fin n)} (hq : q.Nodup) (d : Fin n) :
    (switched q d).Nodup ↔ d ∉ q ∨ q.length = n ∧ q.head? = some d := by
  unfold switched
  split
  · next hfull =>
    have hmem := mem_of_full hq hfull d
    cases q with
    | nil => cases hmem
    | cons a t =>
      obtain ⟨hat, ht⟩ := List.nodup_cons.mp hq
      have hnodup : (t ++ [d]).Nodup ↔ d ∉ t := by
        rw [← List.concat_eq_append, List.nodup_concat]
        exact and_iff_left ht
      rw [List.tail_cons, hnodup, or_iff_right fun h => h hmem, and_iff_right hfull,
        List.head?_cons, Option.some.injEq]
      constructor
      · intro hd
        exact ((List.mem_cons.mp hmem).resolve_right hd).symm
      · rintro rfl
        exact hat
  · next hshort =>
    rw [← List.concat_eq_append, List.nodup_concat, and_iff_left hq,
      or_iff_left fun h => hshort h.1]

/-- A switch that repeats no index drops no other memtable. -/
theorem mem_switched {q : List (Fin n)} {d i : Fin n} (hq : q.Nodup) (h : (switched q d).Nodup)
    (hi : i ∈ q ∨ i = d) : i ∈ switched q d := by
  rcases hi with hi | rfl
  · rcases (nodup_switched_iff hq d).mp h with hnew | ⟨hfull, hhead⟩
    · have hshort : q.length ≠ n := fun hfull => hnew (mem_of_full hq hfull d)
      rw [switched, if_neg hshort]
      exact List.mem_append_left _ hi
    · rw [switched, if_pos hfull]
      cases q with
      | nil => cases hi
      | cons a t =>
        cases hhead
        rcases List.mem_cons.mp hi with rfl | hi
        · exact List.mem_append_right _ (List.mem_singleton_self _)
        · exact List.mem_append_left _ hi
  · unfold switched
    split <;> exact List.mem_append_right _ (List.mem_singleton_self _)

/-- The condition on a write that switches, in terms of the indices. -/
theorem switchesToOldest_iff {s : KVStore n} {c d : Fin n} {q : List (Fin n)} (hq : Queued s c q)
    (hne : d.val ≠ s.curMt) (key value : Bytes) :
    SwitchesToOldest s (.put key value .writePass d) ↔
      d ∉ q ∨ q.length = n ∧ q.head? = some d := by
  have hunfold : SwitchesToOldest s (.put key value .writePass d) ↔
      d.val ∉ s.usageQ ∨ s.usageQ.length = n ∧ s.usageQ.head? = some d.val :=
    ⟨fun h => h hne, fun h _ => h⟩
  have hhead : (q.map Fin.val).head? = some d.val ↔ q.head? = some d := by
    cases q with
    | nil => simp
    | cons a t => simp only [List.map_cons, List.head?_cons, Option.some.injEq, Fin.val_inj]
  rw [hunfold, hq.usageQ, List.mem_map_of_injective Fin.val_injective, List.length_map, hhead]

/-- A step that keeps the queue and fills no memtable but the current one. -/
theorem QueueCovers.stay {s s' : KVStore n} {c : Fin n} {q : List (Fin n)} (h : QueueCovers s)
    (hq : Queued s c q) (hc : s.curMt = c) (hq' : Queued s' c q) (hc' : s'.curMt = c)
    (hstore : ∀ i, (s'.mt i).store ≠ ∅ → (s.mt i).store ≠ ∅ ∨ i = c) : QueueCovers s' := by
  obtain ⟨hnodup, hcov⟩ := (queueCovers_iff hq hc).mp h
  refine (queueCovers_iff hq' hc').mpr ⟨hnodup, fun i hi => ?_⟩
  rcases hstore i hi with hheld | rfl
  · exact hcov i hheld
  · exact List.mem_of_getLast? hq.last

/-- A write that stays in its memtable keeps the queue, and one that switches
covers exactly when it switches to the oldest memtable. -/
theorem queued_accepted {s s' : KVStore n} {c d : Fin n} {q : List (Fin n)} {key value : Bytes}
    {m : MemTable} (hb : Base s c) (hq : Queued s c q) (ha : s.Accepted key value d m s') :
    (∃ q', Queued s' d q') ∧ (QueueCovers s →
      (QueueCovers s' ↔ SwitchesToOldest s (.put key value .writePass d))) := by
  obtain ⟨_, hstored⟩ := ha.stored
  have hstore : ∀ i, (s'.mt i).store ≠ ∅ → (s.mt i).store ≠ ∅ ∨ i = d := fun i hi => by
    by_cases hid : i = d
    · exact .inr hid
    · rw [ha.mt_of_ne hid] at hi
      exact .inl hi
  rcases ha.slot with ⟨hslot, hqueue⟩ | ⟨hclosed, _, hqueue⟩
  · have hdc : d = c := Fin.ext (hslot.symm.trans hb.cur)
    have hq' : Queued s' d q := ⟨hqueue.trans hq.usageQ, hdc ▸ hq.last, hq.length⟩
    refine ⟨⟨q, hq'⟩, fun h => iff_of_true (h.stay (hdc ▸ hq) hslot hq' ha.curMt hstore) ?_⟩
    exact fun hne => absurd hslot.symm hne
  · have hq' := hq.switch hqueue
    have hne : d.val ≠ s.curMt := by
      intro heq
      have hd := hclosed d heq.symm
      rw [hstored.was_mutable] at hd
      cases hd
    refine ⟨⟨_, hq'⟩, fun h => ?_⟩
    obtain ⟨hnodup, hcov⟩ := (queueCovers_iff hq hb.cur).mp h
    rw [queueCovers_iff hq' ha.curMt, switchesToOldest_iff hq hne key value,
      ← nodup_switched_iff hnodup]
    refine and_iff_left_of_imp fun hnodup' i hi => ?_
    exact mem_switched hnodup hnodup' ((hstore i hi).imp_left (hcov i))

/-- After every step the queue is a queue, and covering survives exactly the
steps that switch to the oldest memtable. -/
theorem queued_next {s s' : KVStore n} {c c' : Fin n} {q : List (Fin n)} {e : Event}
    (hb : Base s c) (hq : Queued s c q) (he : Effect s c e s' c') :
    (∃ q', Queued s' c' q') ∧ (QueueCovers s → (QueueCovers s' ↔ SwitchesToOldest s e)) := by
  have hcur := (hb.next he).cur
  cases he with
  | refused _ =>
    have hq' : Queued { s with flushSema := some true } c q := ⟨hq.usageQ, hq.last, hq.length⟩
    exact ⟨⟨q, hq'⟩, fun h => iff_of_true (h.stay hq hb.cur hq' hcur fun i => .inl) trivial⟩
  | accepted ha => exact queued_accepted hb hq ha
  | read _ => exact ⟨⟨q, hq⟩, fun h => iff_of_true h trivial⟩
  | noTarget _ _ => exact ⟨⟨q, hq⟩, fun h => iff_of_true h trivial⟩
  | @marked t _ _ _ =>
    have hq' : Queued (s.marked t) c q := ⟨hq.usageQ, hq.last, hq.length⟩
    refine ⟨⟨q, hq'⟩, fun h => iff_of_true (h.stay hq hb.cur hq' hcur fun i hi => .inl ?_) trivial⟩
    rw [KVStore.marked_store] at hi
    exact hi
  | again _ => exact ⟨⟨q, hq⟩, fun h => iff_of_true h trivial⟩
  | @cleared t _ _ =>
    have hq' : Queued (s.cleared t) c q := ⟨hq.usageQ, hq.last, hq.length⟩
    refine ⟨⟨q, hq'⟩, fun h => iff_of_true (h.stay hq hb.cur hq' hcur fun i hi => .inl ?_) trivial⟩
    rw [KVStore.cleared_store] at hi
    split at hi
    · exact absurd rfl hi
    · exact hi
  | forced =>
    have hq' : Queued s.forceReadyToDie c q := ⟨hq.usageQ, hq.last, hq.length⟩
    exact ⟨⟨q, hq'⟩, fun h => iff_of_true (h.stay hq hb.cur hq' hcur fun i => .inl) trivial⟩

/-- Every run keeps the invariant of the queue. -/
theorem queued_of_run {history : List Event} {s : KVStore (n+1)}
    (hr : Run Step (KVStore.new (n+1) mtMaxSz sema) history s) :
    ∃ c q, Base s c ∧ Queued s c q := by
  refine hr.invariant (I := fun _ s => ∃ c q, Base s c ∧ Queued s c q)
    ⟨0, [0], base_new n mtMaxSz sema, queued_new⟩ ?_
  rintro history s e s' _ ⟨c, q, hb, hq⟩ hstep
  obtain ⟨c', he⟩ := hb.effect hstep
  obtain ⟨⟨q', hq'⟩, _⟩ := queued_next hb hq he
  exact ⟨c', q', hb.next he, hq'⟩

/-- With two memtables the queue covers in every reachable state. -/
theorem queueCovers_of_shape {s : KVStore 2} {c : Fin 2} (hs : Shape s c) : QueueCovers s := by
  rcases hs.queue with ⟨hone, hempty⟩ | ⟨o, ho, htwo⟩
  · have hq : Queued s c [c] := ⟨hone, rfl, Nat.le_succ 1⟩
    refine (queueCovers_iff hq hs.cur).mpr ⟨List.nodup_singleton c, fun i hi => ?_⟩
    by_contra hic
    exact hi (hempty i fun h => hic (List.mem_singleton.mpr h))
  · have hq : Queued s c [o, c] := ⟨htwo, rfl, le_refl 2⟩
    have hnodup : [o, c].Nodup := List.nodup_cons.mpr
      ⟨fun h => ho (List.mem_singleton.mp h), List.nodup_singleton c⟩
    exact (queueCovers_iff hq hs.cur).mpr ⟨hnodup, fun i _ => mem_of_full hnodup rfl i⟩

/-- The queue covers the store at all moments of a run exactly when each write
of the run that switches memtables switches to the oldest one or to one that
is not in the queue. With two memtables it always does. -/
theorem queue_covers_iff (hn : 2 ≤ n) {history : List Event} {s : KVStore n}
    (hr : Run Step (KVStore.new n mtMaxSz sema) history s) :
    (Always Step (KVStore.new n mtMaxSz sema) (fun _ s => QueueCovers s) history ↔
      EveryStep Step (KVStore.new n mtMaxSz sema) SwitchesToOldest history) ∧
    (n = 2 → Always Step (KVStore.new n mtMaxSz sema) (fun _ s => QueueCovers s) history) := by
  constructor
  · obtain ⟨k, rfl⟩ : ∃ k, n = k+1 := ⟨n-1, by omega⟩
    have hnew : QueueCovers (KVStore.new (k+1) mtMaxSz sema) :=
      (queueCovers_iff queued_new rfl).mpr ⟨List.nodup_singleton 0, fun _ hi => absurd rfl hi⟩
    refine always_iff_everyStep step_deterministic hnew ?_ hr
    intro history s e s' hrun hcovers hstep
    obtain ⟨c, q, hb, hq⟩ := queued_of_run hrun
    obtain ⟨c', he⟩ := hb.effect hstep
    exact (queued_next hb hq he).2 hcovers
  · rintro rfl earlier s _ hrun
    obtain ⟨c, hs⟩ := shape_of_run hrun
    exact queueCovers_of_shape hs

/-- With three memtables of one pair each: the first two are flushed and
written again, and then the first one once more. -/
def reuseOps : List Op :=
  [.put [1] [10], .put [2] [20], .put [3] [30], .initFlush, .endFlush, .initFlush, .endFlush,
    .put [4] [40], .put [5] [50], .initFlush, .endFlush, .put [6] [60]]

/-- The exact condition on that run. -/
theorem queue_covers_iff_reuse :
    ∃ history s, exec perform (KVStore.new 3 1 (some false)) reuseOps = some (history, s) ∧
      (Always Step (KVStore.new 3 1 (some false)) (fun _ s => QueueCovers s) history ↔
        EveryStep Step (KVStore.new 3 1 (some false)) SwitchesToOldest history) := by
  have hsome : (exec perform (KVStore.new 3 1 (some false)) reuseOps).isSome = true := by decide
  obtain ⟨⟨history, s⟩, hexec⟩ := Option.isSome_iff_exists.mp hsome
  exact ⟨history, s, hexec, (queue_covers_iff (by decide) (run_of_exec step_of_perform hexec)).1⟩

/-- The queue does not always cover the store: with three memtables the third
one is dropped while it holds a pair, which is then no longer read. -/
theorem reuse_drops_third_memtable :
    ¬ ∀ (n : ℕ) (mtMaxSz : UInt64) (history : List Event) (s : KVStore n), 2 ≤ n →
      Run Step (KVStore.new n mtMaxSz (some false)) history s → QueueCovers s := by
  intro hall
  have hmap : (exec perform (KVStore.new 3 1 (some false)) reuseOps).map
      (fun r => (r.2.get [3] [], r.2.layer 2 [3])) =
        some (.ok (.readFail, []), some [30]) := by rfl
  obtain ⟨⟨history, s⟩, hexec, heq⟩ := Option.map_eq_some_iff.mp hmap
  obtain ⟨hget, hheld⟩ := Prod.mk.inj heq
  have hcovers := hall 3 1 history s (by decide) (run_of_exec step_of_perform hexec)
  have hnone := hcovers.found [3] [] [] hget 2
  dsimp only at hheld
  rw [hheld] at hnone
  cases hnone

end AnyNumber

end CapsuleDB.EnclaveKvsQueue

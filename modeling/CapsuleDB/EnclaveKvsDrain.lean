import Mathlib.Data.Fintype.Basic
import CapsuleDB.EnclaveKvsRun

/-!
# The flush signal and the shutdown of the store

A flusher waits for the flag and then calls `InitFlush` and `EndFlush` in
turn. The flag is raised exactly while some memtable is closed, which is when
`InitFlush` has a target. At a shutdown all memtables are closed, and each
round of the flusher then dumps and empties one of them, whatever flush was in
progress before.
-/

namespace CapsuleDB.EnclaveKvsDrain

open LabelledRun EnclaveMemTable EnclaveKvs EnclaveKvsRun

section Rounds

variable {n : ℕ} {s : KVStore n} {c : Fin n}

/-- One round of the flusher: the store after it, the target that `EndFlush`
found and the pairs that `InitFlush` dumped. -/
def flushRound (s : KVStore n) : Except Fault (KVStore n × (ℤ × List (Bytes × Bytes))) :=
  match s.initFlush with
  | .error e => .error e
  | .ok (s', dump) => s'.endFlush.map fun t => (t, s'.flushTarget, dump.getD [])

/-- Several rounds, with the targets and the dumps in order. -/
def flushRounds : ℕ → KVStore n → Except Fault (KVStore n × List (ℤ × List (Bytes × Bytes)))
  | 0, s => .ok (s, [])
  | k+1, s =>
    match flushRound s with
    | .error e => .error e
    | .ok (t, round) => (flushRounds k t).map fun r => (r.1, round :: r.2)

/-- Marking the target does not change the store that emptying it leaves. -/
theorem cleared_marked (s : KVStore n) (t : Fin n) : (s.marked t).cleared t = s.cleared t := by
  have hmt : ((s.marked t).cleared t).mt = (s.cleared t).mt := by
    funext i
    rw [KVStore.cleared_mt, KVStore.cleared_mt, KVStore.marked_mt, if_pos rfl, KVStore.marked_mt]
    split <;> rfl
  have hclosed : (∃ i, i ≠ t ∧ ((s.marked t).mt i).mutable = false) ↔
      ∃ i, i ≠ t ∧ (s.mt i).mutable = false := by
    refine exists_congr fun i => and_congr_right fun hi => ?_
    rw [KVStore.marked_mutable]
  have hsema : ((s.marked t).cleared t).flushSema = (s.cleared t).flushSema := by
    simp only [KVStore.cleared, hclosed]
  calc (s.marked t).cleared t
      = ⟨s.curMt, s.usageQ, -1, ((s.marked t).cleared t).mt,
          ((s.marked t).cleared t).flushSema⟩ := rfl
    _ = s.cleared t := by
        rw [hmt, hsema]
        rfl

/-- `InitFlush` completes when the target is in range. -/
theorem initFlush_ok (hb : Base s c) : ∃ r, s.initFlush = .ok r := by
  unfold KVStore.initFlush
  dsimp only
  by_cases hneg : s.flushTarget < 0
  · rw [if_pos hneg]
    rcases s.pickTarget_cases with ⟨_, hpick⟩ | ⟨t, _, _, hpick⟩
    · rw [hpick, if_neg (by omega)]
      exact ⟨_, rfl⟩
    · have htarget : (s.marked t).flushTarget = t.val := rfl
      rw [hpick, htarget, if_pos (Int.natCast_nonneg t.val), Int.toNat_natCast,
        KVStore.table_val]
      exact ⟨_, rfl⟩
  · obtain ⟨t, ht, _⟩ := hb.target_of_nonneg (by omega)
    rw [if_neg hneg, if_pos (by omega), ht, Int.toNat_natCast, KVStore.table_val]
    exact ⟨_, rfl⟩

/-- `InitFlush` finds no target while all memtables are writable, and otherwise
dumps a closed one and makes it the target. -/
theorem initFlush_of_base (hb : Base s c) :
    (∀ i, (s.mt i).mutable = true) ∧ s.initFlush = .ok (s, none) ∨
      ∃ t s', (s.mt t).mutable = false ∧ s.initFlush = .ok (s', some (s.mt t).dump) ∧
        s'.flushTarget = t.val ∧ (s' = s ∨ s' = s.marked t) := by
  obtain ⟨⟨s', dump⟩, hinit⟩ := initFlush_ok hb
  rcases KVStore.initFlush_cases hinit with ⟨hneg, hnone, rfl, rfl⟩ |
    ⟨t, _, hm, _, _, rfl, rfl⟩ | ⟨t, ht, rfl, rfl⟩
  · refine .inl ⟨fun i => ?_, hinit⟩
    have hoff : (s'.mt i).onFlush = false := by
      rcases hb.target with ⟨_, hoff⟩ | ⟨t, ht, _⟩
      · exact hoff i
      · omega
    exact MemTable.mutable_of_not_taken hoff (hnone i)
  · exact .inr ⟨t, _, hm, hinit, rfl, .inr rfl⟩
  · obtain ⟨u, hu, hm⟩ := hb.target_of_nonneg (by omega)
    rw [ht, Nat.cast_inj, Fin.val_inj] at hu
    exact .inr ⟨t, _, hu ▸ hm, hinit, ht, .inl rfl⟩

/-- While some memtable is closed a round dumps and empties a closed one. -/
theorem flushRound_of_base (hb : Base s c) (hflag : s.flushSema.isSome = true)
    (hclosed : ∃ i, (s.mt i).mutable = false) :
    ∃ t, (s.mt t).mutable = false ∧
      flushRound s = .ok (s.cleared t, t.val, (s.mt t).dump) ∧ ∃ c', Base (s.cleared t) c' := by
  rcases initFlush_of_base hb with ⟨hall, _⟩ | ⟨t, s', hm, hinit, htarget, hs'⟩
  · obtain ⟨i, hi⟩ := hclosed
    rw [hall i] at hi
    cases hi
  · have hflag' : s'.flushSema.isSome = true := by
      rcases hs' with rfl | rfl <;> exact hflag
    obtain ⟨b, hb'⟩ := Option.isSome_iff_exists.mp hflag'
    obtain ⟨s'', hend⟩ := KVStore.endFlush_ok htarget hb'
    have hcleared : s'' = s.cleared t := by
      rw [KVStore.endFlush_cases htarget hend]
      rcases hs' with rfl | rfl
      · rfl
      · exact cleared_marked s t
    have hround : flushRound s = .ok (s.cleared t, t.val, (s.mt t).dump) := by
      unfold flushRound
      rw [hinit]
      dsimp only
      rw [hend, hcleared, htarget]
      rfl
    obtain ⟨c₁, hb₁⟩ := hb.step (.initFlush hinit)
    obtain ⟨c₂, hb₂⟩ := hb₁.step (.endFlush htarget hend)
    exact ⟨t, hm, hround, c₂, hcleared ▸ hb₂⟩

/-- A shutdown in progress: the memtables in `pending` are closed and still as
they were in `start`, and the others have been emptied and reopened. -/
structure Draining (start s : KVStore n) (pending : Finset (Fin n)) : Prop where
  /-- The base invariant. -/
  base : ∃ c, Base s c
  /-- The pointer to the flag is valid. -/
  flag : s.flushSema.isSome = true
  /-- The flag is lowered at the end. -/
  signal : pending = ∅ → s.flushSema = some false
  /-- What is still to be flushed. -/
  held : ∀ i ∈ pending, (s.mt i).mutable = false ∧ (s.mt i).store = (start.mt i).store
  /-- What has been flushed. -/
  emptied : ∀ i ∉ pending, (s.mt i).mutable = true ∧ (s.mt i).store = ∅ ∧
    (s.mt i).sizeInBytes = 0

/-- A round of a shutdown dumps one pending memtable as it was at the start. -/
theorem Draining.round {start s : KVStore n} {pending : Finset (Fin n)}
    (h : Draining start s pending) (hne : pending.Nonempty) :
    ∃ t ∈ pending, flushRound s = .ok (s.cleared t, t.val, (start.mt t).dump) ∧
      Draining start (s.cleared t) (pending.erase t) := by
  obtain ⟨c, hb⟩ := h.base
  obtain ⟨i, hi⟩ := hne
  obtain ⟨t, hm, hround, hbase⟩ := flushRound_of_base hb h.flag ⟨i, (h.held i hi).1⟩
  have ht : t ∈ pending := by
    by_contra hnot
    rw [(h.emptied t hnot).1] at hm
    cases hm
  have hdump : (s.mt t).dump = (start.mt t).dump := by
    rw [MemTable.dump, (h.held t ht).2]
    rfl
  refine ⟨t, ht, by rw [hround, hdump], hbase, rfl, fun hempty => ?_, fun i hi => ?_,
    fun i hi => ?_⟩
  · have hnone : ¬ ∃ i, i ≠ t ∧ (s.mt i).mutable = false := by
      rintro ⟨i, hit, hi⟩
      have hi' : i ∉ pending := fun hmem =>
        Finset.notMem_empty i (hempty ▸ Finset.mem_erase.mpr ⟨hit, hmem⟩)
      rw [(h.emptied i hi').1] at hi
      cases hi
    show some (decide _) = some false
    rw [decide_eq_false hnone]
  · obtain ⟨hit, hmem⟩ := Finset.mem_erase.mp hi
    rw [KVStore.cleared_mt, if_neg hit]
    exact h.held i hmem
  · rw [KVStore.cleared_mt]
    split
    · exact ⟨rfl, rfl, rfl⟩
    · next hit => exact h.emptied i fun hmem => hi (Finset.mem_erase.mpr ⟨hit, hmem⟩)

/-- The rounds of a shutdown empty every memtable, in some order. -/
theorem Draining.rounds {start s : KVStore n} {pending : Finset (Fin n)} {k : ℕ}
    (h : Draining start s pending) (hk : pending.card = k) :
    ∃ (s' : KVStore n) (order : List (Fin n)), flushRounds k s =
        .ok (s', order.map fun i => ((i.val : ℤ), (start.mt i).dump)) ∧
      order.Nodup ∧ (∀ i, i ∈ order ↔ i ∈ pending) ∧ Draining start s' ∅ := by
  induction k generalizing s pending with
  | zero =>
    rw [Finset.card_eq_zero] at hk
    subst hk
    exact ⟨s, [], rfl, List.nodup_nil, fun i => by simp, h⟩
  | succ k ih =>
    obtain ⟨t, ht, hround, hnext⟩ := h.round (Finset.card_pos.mp (by omega))
    have hcard : (pending.erase t).card = k := by rw [Finset.card_erase_of_mem ht]; omega
    obtain ⟨s', order, hrounds, hnodup, hmem, hdone⟩ := ih hnext hcard
    refine ⟨s', t :: order, ?_, List.nodup_cons.mpr ⟨fun hin => ?_, hnodup⟩, fun i => ?_, hdone⟩
    · unfold flushRounds
      rw [hround]
      dsimp only
      rw [hrounds]
      rfl
    · exact Finset.notMem_erase t pending ((hmem t).mp hin)
    · rw [List.mem_cons, hmem, Finset.mem_erase]
      by_cases hit : i = t
      · simp [hit, ht]
      · simp [hit]

end Rounds

section AnyNumber

variable {n : ℕ} {mtMaxSz : UInt64} {sema : Bool} {history : List Event} {s : KVStore (n+1)}

/-- From every reachable state a shutdown is complete after one round for each
memtable. The rounds flush every memtable once, and the dump of each round lists
the pairs its memtable held when the shutdown began, each exactly once. In the end
all of them are empty and writable, the flag is lowered and nothing is to flush. -/
theorem forced_shutdown_drains
    (hr : Run Step (KVStore.new (n+1) mtMaxSz (some sema)) history s) :
    ∃ s' rounds, flushRounds (n+1) s.forceReadyToDie = .ok (s', rounds) ∧
      (rounds.map Prod.fst).Perm ((List.finRange (n+1)).map fun i => (i.val : ℤ)) ∧
      (∀ (i : Fin (n+1)) (dump : List (Bytes × Bytes)), ((i.val : ℤ), dump) ∈ rounds →
        (dump.map Prod.fst).Nodup ∧
          ∀ key value, (key, value) ∈ dump ↔ (s.mt i).store.lookup key = some value) ∧
      (∀ i, (s'.mt i).store = ∅ ∧ (s'.mt i).mutable = true) ∧
      s'.isReadyToDie = true ∧ s'.flushSema = some false ∧ s'.initFlush = .ok (s', none) := by
  obtain ⟨c, hb⟩ := base_of_run hr
  have hdrain : Draining s.forceReadyToDie s.forceReadyToDie Finset.univ :=
    { base := ⟨c, hb.forced⟩
      flag := flag_of_run (hr.next .forceReadyToDie)
      signal := fun hempty => absurd hempty Finset.univ_nonempty.ne_empty
      held := fun _ _ => ⟨rfl, rfl⟩
      emptied := fun i hi => absurd (Finset.mem_univ i) hi }
  obtain ⟨s', order, hrounds, hnodup, hmem, hdone⟩ := hdrain.rounds (Finset.card_fin (n+1))
  have hperm : order.Perm (List.finRange (n+1)) :=
    (List.perm_ext_iff_of_nodup hnodup (List.nodup_finRange (n+1))).mpr fun i => by
      simp [hmem]
  have hall : ∀ i, (s'.mt i).mutable = true ∧ (s'.mt i).store = ∅ ∧ (s'.mt i).sizeInBytes = 0 :=
    fun i => hdone.emptied i (Finset.notMem_empty i)
  refine ⟨s', _, hrounds, ?_, ?_, fun i => ⟨(hall i).2.1, (hall i).1⟩, ?_, hdone.signal rfl, ?_⟩
  · rw [List.map_map]
    exact hperm.map _
  · intro i dump hround
    obtain ⟨j, _, hj⟩ := List.mem_map.mp hround
    obtain ⟨hji, rfl⟩ := Prod.mk.inj hj
    rw [Nat.cast_inj, Fin.val_inj] at hji
    subst hji
    exact ⟨MemTable.nodup_dump_keys _, fun key value => MemTable.mem_dump⟩
  · rw [KVStore.isReadyToDie, decide_eq_true_iff]
    intro i
    rw [MemTable.isEmpty, decide_eq_true_iff]
    exact (hall i).2.2
  · obtain ⟨c', hb'⟩ := hdone.base
    rcases initFlush_of_base hb' with ⟨_, hnone⟩ | ⟨t, _, hm, _⟩
    · exact hnone
    · rw [(hall t).1] at hm
      cases hm

/-- A shutdown while the second memtable is being flushed and the first one is
empty: its round dumps the pair of the second memtable. -/
theorem forced_shutdown_drains_busy :
    ∃ history s s' rounds dump, Run Step (KVStore.new 2 1 (some false)) history s ∧
      s.flushTarget = 1 ∧ flushRounds 2 s.forceReadyToDie = .ok (s', rounds) ∧
      (1, dump) ∈ rounds ∧ ([2], [20]) ∈ dump ∧ s'.isReadyToDie = true := by
  have hmap : (exec perform (KVStore.new 2 1 (some false))
      [.put [1] [10], .put [2] [20], .initFlush, .endFlush, .initFlush]).map
        (fun r => (r.2.flushTarget, (r.2.mt 1).store.lookup [2])) = some (1, some [20]) := by rfl
  obtain ⟨⟨history, s⟩, hexec, hstate⟩ := Option.map_eq_some_iff.mp hmap
  obtain ⟨htarget, hheld⟩ := Prod.mk.inj hstate
  have hr := run_of_exec step_of_perform hexec
  obtain ⟨s', rounds, hrounds, htargets, hdumps, _, hready, _⟩ := forced_shutdown_drains hr
  have hmem : (1 : ℤ) ∈ rounds.map Prod.fst :=
    htargets.mem_iff.mpr (List.mem_map.mpr ⟨1, List.mem_finRange 1, rfl⟩)
  obtain ⟨⟨_, dump⟩, hround, rfl⟩ := List.mem_map.mp hmem
  exact ⟨history, s, s', rounds, dump, hr, htarget, hrounds, hround,
    ((hdumps 1 dump hround).2 [2] [20]).mpr hheld, hready⟩

/-- The flag tells whether some memtable is closed. -/
def SignalExact (s : KVStore (n+1)) : Prop :=
  s.flushSema = some (decide (∃ i, (s.mt i).mutable = false))

/-- The signal depends on the writable flags only. -/
theorem SignalExact.congr {s s' : KVStore (n+1)} (h : SignalExact s)
    (hsema : s'.flushSema = s.flushSema) (hm : ∀ i, (s'.mt i).mutable = (s.mt i).mutable) :
    SignalExact s' := by
  unfold SignalExact at h ⊢
  simp only [hsema, hm]
  exact h

/-- Without a shutdown every effect keeps the signal exact. -/
theorem SignalExact.next {s s' : KVStore (n+1)} {c c' : Fin (n+1)} {e : Event}
    (h : SignalExact s) (he : Effect s c e s' c') (hforced : e ≠ .forceReadyToDie) :
    SignalExact s' := by
  cases he with
  | refused hclosed =>
    show some true = some (decide (∃ i, (s.mt i).mutable = false))
    rw [decide_eq_true ⟨c, hclosed c⟩]
  | @accepted _ _ _ m _ ha =>
    cases hm : m.mutable with
    | true =>
      -- The memtable written was open before, too.
      refine h.congr (by rw [ha.flushSema, if_pos hm]) fun i => ?_
      obtain ⟨_, hstored⟩ := ha.stored
      by_cases hi : i = c'
      · rw [hi, ha.mt_self, hm, hstored.was_mutable]
      · rw [ha.mt_of_ne hi]
    | false =>
      have hc' : (s'.mt c').mutable = false := by rw [ha.mt_self, hm]
      unfold SignalExact
      rw [ha.flushSema, if_neg (by simp [hm]), decide_eq_true ⟨c', hc'⟩]
  | read _ => exact h
  | noTarget _ _ => exact h
  | @marked t _ _ _ =>
    exact h.congr rfl fun i => KVStore.marked_mutable s t i
  | again _ => exact h
  | @cleared t _ _ =>
    have hiff : (∃ i, i ≠ t ∧ (s.mt i).mutable = false) ↔
        ∃ i, ((s.cleared t).mt i).mutable = false := by
      refine exists_congr fun i => ?_
      rw [KVStore.cleared_mutable]
      by_cases hit : i = t
      · simp [hit]
      · simp [hit]
    unfold SignalExact
    rw [← decide_eq_decide.mpr hiff]
    rfl
  | forced => exact absurd rfl hforced

/-- Without a shutdown every run that starts with a lowered flag keeps the
signal exact. -/
theorem signalExact_of_run
    (hr : Run UnforcedStep (KVStore.new (n+1) mtMaxSz (some false)) history s) :
    SignalExact s := by
  refine hr.invariant (I := fun _ s => SignalExact s) ?_ ?_
  · have hnone : ¬ ∃ i, ((KVStore.new (n+1) mtMaxSz (some false)).mt i).mutable = false := by
      rintro ⟨_, hi⟩
      cases hi
    unfold SignalExact
    rw [decide_eq_false hnone]
    rfl
  · intro history s e s' hrun hexact hstep
    obtain ⟨c, hb⟩ := base_of_run (run_of_unforced hrun)
    obtain ⟨c', he⟩ := hb.effect hstep.1
    exact hexact.next he hstep.2

/-- Some memtable is closed exactly when `InitFlush` ends with a target. -/
theorem closed_iff_target {s : KVStore (n+1)} {c : Fin (n+1)} (hb : Base s c) :
    (∃ i, (s.mt i).mutable = false) ↔
      ∃ s' dump, s.initFlush = .ok (s', dump) ∧ 0 ≤ s'.flushTarget := by
  rcases initFlush_of_base hb with ⟨hall, hnone⟩ | ⟨t, s', hm, hinit, htarget, _⟩
  · refine iff_of_false ?_ ?_
    · rintro ⟨i, hi⟩
      rw [hall i] at hi
      cases hi
    · rintro ⟨s', dump, hinit, hpos⟩
      rw [hnone] at hinit
      cases hinit
      obtain ⟨t, _, hm⟩ := hb.target_of_nonneg hpos
      rw [hall t] at hm
      cases hm
  · exact iff_of_true ⟨t, hm⟩ ⟨s', _, hinit, by omega⟩

/-- While the store is not being shut down, the flag is raised exactly when
some memtable is closed, which is exactly when `InitFlush` leaves a target. -/
theorem flush_signal_exact
    (hr : Run UnforcedStep (KVStore.new (n+1) mtMaxSz (some false)) history s) :
    (s.flushSema = some true ↔ ∃ i, (s.mt i).mutable = false) ∧
      ((∃ i, (s.mt i).mutable = false) ↔
        ∃ s' dump, s.initFlush = .ok (s', dump) ∧ 0 ≤ s'.flushTarget) := by
  obtain ⟨c, hb⟩ := base_of_run (run_of_unforced hr)
  refine ⟨?_, closed_iff_target hb⟩
  rw [signalExact_of_run hr, Option.some_inj, decide_eq_true_iff]

/-- The signal after a write that closes the first memtable. -/
theorem flush_signal_exact_closed :
    ∃ s, Run UnforcedStep (KVStore.new 2 1 (some false)) [.put [1] [10] .writePass 0] s ∧
      (s.flushSema = some true ↔ ∃ i, (s.mt i).mutable = false) := by
  have hr : Run UnforcedStep (KVStore.new 2 1 (some false)) [.put [1] [10] .writePass 0] _ :=
    Run.start.next ⟨.put rfl rfl, nofun⟩
  exact ⟨_, hr, (flush_signal_exact hr).1⟩

end AnyNumber

end CapsuleDB.EnclaveKvsDrain

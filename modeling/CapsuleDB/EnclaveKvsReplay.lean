import CapsuleDB.EnclaveKvsFlush
import CapsuleDB.EnclaveKvsDrain

/-!
# Rebuilding the store from what was flushed

The dumps of the completed flushes form a log. Writing it out in the order of
the flushes, and after it the memtables from the least to the most recently
used one, rebuilds a map. It is the map of the last accepted writes for as
long as the flushes leave in order, and not a step longer. A shutdown flushes
by index, and the log it leaves is right exactly when its first flush is.
-/

namespace CapsuleDB.EnclaveKvsReplay

open LabelledRun LayeredMap EnclaveMemTable EnclaveKvs EnclaveKvsRun EnclaveKvsReads
open EnclaveKvsFlush EnclaveKvsDrain

/-- The pairs of all completed flushes, in the order they were flushed. -/
def flushedLog (history : List Event) : List (Bytes × Bytes) :=
  (flushes history).reverse.flatMap Flush.dump

/-- The pairs still held, the memtables in the order of the recency queue. -/
def heldLog (s : KVStore 2) : List (Bytes × Bytes) :=
  s.usageQ.flatMap fun i => (s.mt (Fin.ofNat 2 i)).dump

/-- What writing out the log and then the memtables leaves. -/
def recovered (history : List Event) (s : KVStore 2) (key : Bytes) : Option Bytes :=
  replay (flushedLog history ++ heldLog s) key

/-- The last accepted writes can be rebuilt. -/
def Recovers (history : List Event) (s : KVStore 2) : Prop :=
  ∀ key, recovered history s key = lastWrite key history

/-- A dump replays to its layer. -/
theorem replay_dump (s : KVStore 2) (i : Fin 2) (key : Bytes) :
    replay (s.mt i).dump key = s.layer i key := replay_entries (s.mt i).store key

/-- The current memtable hides the other one, and both hide the log. -/
theorem recovered_eq {history : List Event} {s : KVStore 2} {c o : Fin 2} (hs : Shape s c)
    (ho : o ≠ c) (key : Bytes) :
    recovered history s key =
      ((s.layer c key).or (s.layer o key)).or (replay (flushedLog history) key) := by
  have hheld : replay (heldLog s) key = (s.layer c key).or (s.layer o key) := by
    rcases hs.queue with ⟨hone, hempty⟩ | ⟨o', ho', htwo⟩
    · rw [heldLog, hone, List.flatMap_cons, List.flatMap_nil, List.append_nil,
        Fin.ofNat_val_eq_self, replay_dump, layer_of_empty (hempty o ho), Option.or_none]
    · rw [heldLog, htwo, List.flatMap_cons, List.flatMap_cons, List.flatMap_nil, List.append_nil,
        Fin.ofNat_val_eq_self, Fin.ofNat_val_eq_self, replay_append, replay_dump, replay_dump,
        eq_of_ne_ne ho ho']
  rw [recovered, replay_append, hheld]

/-- A completed flush adds its dump at the end of the log. -/
theorem flushedLog_endFlush (target : ℕ) (history : List Event) :
    flushedLog (.endFlush target :: history) =
      flushedLog history ++ (lastDump history).getD [] := by
  rw [flushedLog, flushes, List.reverse_cons, List.flatMap_append, List.flatMap_cons,
    List.flatMap_nil, List.append_nil]
  rfl

/-- Other events leave the log alone. -/
theorem flushedLog_of_flushes {history earlier : List Event}
    (h : flushes history = flushes earlier) : flushedLog history = flushedLog earlier := by
  rw [flushedLog, h, flushedLog]

/-- A quiet step that changes no layer changes nothing that is rebuilt. -/
theorem recovered_quiet {history : List Event} {s s' : KVStore 2} {c : Fin 2} {e : Event}
    (hs : Shape s c) (hs' : Shape s' c) (he : Quiet e) (hlayer : ∀ i, s'.layer i = s.layer i)
    (key : Bytes) : recovered (e :: history) s' key = recovered history s key := by
  obtain ⟨o, ho⟩ := exists_other c
  rw [recovered_eq hs ho, recovered_eq hs' ho, hlayer, hlayer,
    flushedLog_of_flushes (flushes_quiet he history)]

/-- Quiet events accept no write. -/
theorem lastWrite_quiet {e : Event} (he : Quiet e) (key : Bytes) (history : List Event) :
    lastWrite key (e :: history) = lastWrite key history := by
  cases e with
  | put k v st j => cases st <;> first | rfl | exact absurd rfl he
  | _ => rfl

/-- An accepted write is rebuilt, and so is what the other keys had. -/
theorem recovered_accepted {history : List Event} {s s' : KVStore 2} {c d : Fin 2}
    {key value : Bytes} {m : MemTable} (hs : Shape s c) (ha : s.Accepted key value d m s')
    (k : Bytes) :
    recovered (.put key value .writePass d :: history) s' k =
      if key = k then some value else recovered history s k := by
  obtain ⟨o, ho⟩ := exists_other d
  have hlog : flushedLog (.put key value .writePass d :: history) = flushedLog history :=
    flushedLog_of_flushes rfl
  rw [recovered_eq (hs.next (.accepted ha)) ho, layer_accepted ha, layer_accepted_of_ne ha ho,
    hlog]
  by_cases hkey : key = k
  · subst hkey
    rw [if_pos rfl, Function.update_self, Option.some_or, Option.some_or]
  · rw [if_neg hkey, Function.update_of_ne (Ne.symm hkey)]
    by_cases hcd : c = d
    · subst hcd
      rw [recovered_eq hs ho]
    · -- The write switched: what was current is second now, below a layer that was empty.
      have hoc : o = c := eq_of_ne_ne ho hcd
      rw [recovered_eq hs (Ne.symm hcd), layer_of_empty (hs.spare_of_ne ha hcd), Option.none_or,
        Option.or_none, hoc]

/-- Flushing the other memtable changes nothing that is rebuilt; flushing the
current one puts it below the other one. -/
theorem recovered_cleared {history : List Event} {s : KVStore 2} {c o t : Fin 2}
    (hs : Shape s c) (hi : Traced history s c) (ho : o ≠ c) (ht : s.flushTarget = t.val)
    (hm : (s.mt t).mutable = false) (key : Bytes) :
    recovered (.endFlush t :: history) (s.cleared t) key =
      if c = t then
        ((s.layer o key).or (s.layer c key)).or (replay (flushedLog history) key)
      else recovered history s key := by
  rw [recovered_eq (hs.next (.cleared ht hm)) ho, flushedLog_endFlush, hi.dumped t ht,
    Option.getD_some, replay_append, replay_dump, layer_cleared, layer_cleared]
  by_cases hct : c = t
  · subst hct
    rw [if_pos rfl, if_pos rfl, if_neg ho, Option.none_or, Option.or_assoc]
  · have hot : o = t := eq_of_ne_ne ho (Ne.symm hct)
    rw [if_neg hct, if_pos hot, if_neg hct, recovered_eq hs ho, hot, Option.or_none,
      Option.or_assoc]

/-- Two layers can change places exactly where they do not disagree. -/
theorem or_swap_iff {newer older below last : Option Bytes}
    (h : (newer.or older).or below = last) :
    (older.or newer).or below = last ↔
      ∀ a b, newer = some a → older = some b → b = a := by
  subst h
  cases newer <;> cases older <;> simp

/-- Flushing in order, in terms of the two memtables. -/
theorem flushesInOrder_iff {s : KVStore 2} {c o t : Fin 2} (hs : Shape s c) (ho : o ≠ c) :
    FlushesInOrder s (.endFlush t) ↔ (c = t → ∀ key newer older,
      s.layer c key = some newer → s.layer o key = some older → older = newer) := by
  rw [FlushesInOrder, hs.cur, Fin.val_inj]
  refine imp_congr_right fun hct => ?_
  subst hct
  constructor
  · intro h
    exact h c o rfl ho
  · intro h c₀ o₀ hc₀ ho₀
    rw [Fin.val_inj] at hc₀
    subst hc₀
    rw [eq_of_ne_ne ho₀ ho]
    exact h

/-- The rebuilt map survives exactly the flushes in order. -/
theorem recovers_cleared_iff {history : List Event} {s : KVStore 2} {c t : Fin 2}
    (hs : Shape s c) (hi : Traced history s c) (hrec : Recovers history s)
    (ht : s.flushTarget = t.val) (hm : (s.mt t).mutable = false) :
    Recovers (.endFlush t :: history) (s.cleared t) ↔ FlushesInOrder s (.endFlush t) := by
  obtain ⟨o, ho⟩ := exists_other c
  have hlast : ∀ key, ((s.layer c key).or (s.layer o key)).or (replay (flushedLog history) key) =
      lastWrite key history := fun key => by rw [← recovered_eq hs ho, hrec key]
  unfold Recovers
  simp only [recovered_cleared hs hi ho ht hm, lastWrite, flushesInOrder_iff hs ho]
  by_cases hct : c = t
  · simp only [hct, if_true, forall_const]
    rw [← hct]
    exact forall_congr' fun key => or_swap_iff (hlast key)
  · simp only [hct, if_false, false_implies, iff_true]
    exact hrec

/-- The rebuilt map survives a quiet step that changes no layer. -/
theorem recovers_quiet {history : List Event} {s s' : KVStore 2} {c : Fin 2} {e : Event}
    (hs : Shape s c) (hs' : Shape s' c) (he : Quiet e) (hlayer : ∀ i, s'.layer i = s.layer i)
    (hrec : Recovers history s) : Recovers (e :: history) s' := by
  intro key
  rw [recovered_quiet hs hs' he hlayer, lastWrite_quiet he, hrec key]

/-- The rebuilt map survives exactly the steps that flush in order. -/
theorem recovers_next {history : List Event} {s s' : KVStore 2} {c c' : Fin 2} {e : Event}
    (hs : Shape s c) (hi : Traced history s c) (hrec : Recovers history s)
    (he : Effect s c e s' c') : Recovers (e :: history) s' ↔ FlushesInOrder s e := by
  have hs' := hs.next he
  cases he with
  | refused _ =>
    exact iff_of_true (recovers_quiet hs hs' (by simp [Quiet]) (fun _ => rfl) hrec) trivial
  | accepted ha =>
    refine iff_of_true (fun k => ?_) trivial
    rw [recovered_accepted hs ha, lastWrite, hrec k]
  | read _ => exact iff_of_true (recovers_quiet hs hs' trivial (fun _ => rfl) hrec) trivial
  | noTarget _ _ => exact iff_of_true (recovers_quiet hs hs' trivial (fun _ => rfl) hrec) trivial
  | marked _ _ _ =>
    exact iff_of_true (recovers_quiet hs hs' trivial (layer_marked s _) hrec) trivial
  | again _ => exact iff_of_true (recovers_quiet hs hs' trivial (fun _ => rfl) hrec) trivial
  | cleared ht hm => exact recovers_cleared_iff hs hi hrec ht hm
  | forced => exact iff_of_true (recovers_quiet hs hs' trivial (fun _ => rfl) hrec) trivial

/-- The fresh store has nothing to rebuild. -/
theorem recovers_new (mtMaxSz : UInt64) (sema : Option Bool) :
    Recovers [] (KVStore.new 2 mtMaxSz sema) := fun _ => rfl

/-- A run all of whose flushes are in order can be rebuilt. -/
theorem recovers_of_run {mtMaxSz : UInt64} {sema : Option Bool} {history : List Event}
    {s : KVStore 2} (hr : Run Step (KVStore.new 2 mtMaxSz sema) history s)
    (hall : EveryStep Step (KVStore.new 2 mtMaxSz sema) FlushesInOrder history) :
    Recovers history s := by
  refine hr.invariant_of_everyStep (recovers_new mtMaxSz sema) ?_ hall
  intro history s e s' hrun hrec horder hstep
  obtain ⟨c, hs, hi⟩ := traced_of_run hrun
  obtain ⟨c', he⟩ := hs.effect hstep
  exact (recovers_next hs hi hrec he).mpr horder

/-- The last accepted writes can be rebuilt at all moments of a run exactly
when no flush of the run empties the current memtable over a differing older
pair. -/
theorem recovers_iff_flushes_in_order {mtMaxSz : UInt64} {sema : Option Bool}
    {history : List Event} {s : KVStore 2}
    (hr : Run Step (KVStore.new 2 mtMaxSz sema) history s) :
    Always Step (KVStore.new 2 mtMaxSz sema) Recovers history ↔
      EveryStep Step (KVStore.new 2 mtMaxSz sema) FlushesInOrder history := by
  refine always_iff_everyStep step_deterministic (recovers_new mtMaxSz sema) ?_ hr
  intro history s e s' hrun hrec hstep
  obtain ⟨c, hs, hi⟩ := traced_of_run hrun
  obtain ⟨c', he⟩ := hs.effect hstep
  exact recovers_next hs hi hrec he

/-- The exact condition on the refill, whose last flush breaks it. -/
theorem recovers_iff_flushes_in_order_refill :
    ∃ history s, Run Step (KVStore.new 2 1 (some false)) history s ∧
      (Always Step (KVStore.new 2 1 (some false)) Recovers history ↔
        EveryStep Step (KVStore.new 2 1 (some false)) FlushesInOrder history) := by
  obtain ⟨history, s, _, hr⟩ := refillOps_run
  exact ⟨history, s, hr, recovers_iff_flushes_in_order hr⟩

/-- The memtable that the first round of a shutdown empties: the one being
flushed, or else the first of the array. -/
def shutdownFirst (s : KVStore 2) : ℕ := if s.flushTarget < 0 then 0 else s.flushTarget.toNat

/-- A round empties the target its `InitFlush` left. -/
theorem flushRound_target {n : ℕ} {s s' : KVStore n} {target : ℤ} {dump : List (Bytes × Bytes)}
    (h : flushRound s = .ok (s', target, dump)) :
    ∃ marked pairs, s.initFlush = .ok (marked, pairs) ∧ marked.flushTarget = target := by
  unfold flushRound at h
  cases hinit : s.initFlush with
  | error f =>
    rw [hinit] at h
    cases h
  | ok r =>
    rw [hinit] at h
    dsimp only at h
    refine ⟨r.1, r.2, rfl, ?_⟩
    cases hend : r.1.endFlush with
    | error f =>
      rw [hend] at h
      cases h
    | ok u =>
      rw [hend] at h
      cases h
      rfl

/-- The first round of a shutdown. -/
theorem forced_round {s : KVStore 2} {c : Fin 2} (hs : Shape s c)
    (hflag : s.flushSema.isSome = true) :
    ∃ t : Fin 2, t.val = shutdownFirst s ∧
      flushRound s.forceReadyToDie =
        .ok (s.forceReadyToDie.cleared t, t.val, (s.mt t).dump) ∧
      ∃ c', Base (s.forceReadyToDie.cleared t) c' := by
  obtain ⟨t, _, hround, hbase⟩ := flushRound_of_base hs.toBase.forced hflag ⟨0, rfl⟩
  obtain ⟨marked, pairs, hinit, htarget⟩ := flushRound_target hround
  refine ⟨t, ?_, hround, hbase⟩
  have hkeep : s.forceReadyToDie.flushTarget = s.flushTarget := rfl
  rcases KVStore.initFlush_cases hinit with ⟨hneg, _, rfl, _⟩ | ⟨u, hneg, _, _, hfirst, _, rfl⟩ |
    ⟨u, hu, rfl, _⟩
  · omega
  · -- No flush was in progress, so nothing below the target was passed over.
    rw [hkeep] at hneg
    have hut : u = t := Fin.val_inj.mp (Nat.cast_inj.mp (htarget : (u.val : ℤ) = t.val))
    rw [shutdownFirst, if_pos hneg, ← hut]
    by_contra hpos
    have hoff : ∀ i, (s.mt i).onFlush = false := by
      rcases hs.target with ⟨_, hoff⟩ | ⟨v, hv, _⟩
      · exact hoff
      · omega
    have hopen := MemTable.mutable_of_not_taken (m := s.forceReadyToDie.mt 0) (hoff 0)
      (hfirst 0 (Fin.pos_of_ne_zero fun h => hpos (by rw [h]; rfl)))
    cases hopen
  · rw [hkeep] at htarget
    rw [shutdownFirst, if_neg (by omega)]
    omega

/-- A shutdown takes two rounds: the first target, and then the other memtable. -/
theorem forced_rounds {s : KVStore 2} {c : Fin 2} (hs : Shape s c)
    (hflag : s.flushSema.isSome = true) :
    ∃ (t u : Fin 2) (s' : KVStore 2), t.val = shutdownFirst s ∧ u ≠ t ∧
      flushRounds 2 s.forceReadyToDie =
        .ok (s', [((t.val : ℤ), (s.mt t).dump), ((u.val : ℤ), (s.mt u).dump)]) ∧
      s'.isReadyToDie = true := by
  obtain ⟨t, ht, hround, _, hbase⟩ := forced_round hs hflag
  obtain ⟨v, hv⟩ := exists_other t
  have hclosed : ((s.forceReadyToDie.cleared t).mt v).mutable = false := by
    rw [KVStore.cleared_mutable, if_neg hv]
    rfl
  obtain ⟨u, hu, hround', _⟩ := flushRound_of_base hbase rfl ⟨v, hclosed⟩
  have hut : u ≠ t := by
    rintro rfl
    rw [KVStore.cleared_mutable, if_pos rfl] at hu
    cases hu
  have hdump : ((s.forceReadyToDie.cleared t).mt u).dump = (s.mt u).dump := by
    rw [KVStore.cleared_mt, if_neg hut]
    rfl
  refine ⟨t, u, (s.forceReadyToDie.cleared t).cleared u, ht, hut, ?_, ?_⟩
  · rw [flushRounds, hround]
    dsimp only
    rw [flushRounds, hround', hdump]
    rfl
  · rw [KVStore.isReadyToDie, decide_eq_true_iff]
    intro i
    rw [MemTable.isEmpty, decide_eq_true_iff, KVStore.cleared_mt]
    split
    · rfl
    · next hiu =>
      rw [KVStore.cleared_mt, if_pos (eq_of_ne_ne hiu (Ne.symm hut))]
      rfl

/-- After a run all of whose flushes are in order, a shutdown completes in two
rounds. The log of all dumps, those of the shutdown included, then replays to
the last accepted writes exactly when the memtable that the shutdown flushes
first is not the current one, or has no key for which the other memtable holds
a different value. -/
theorem shutdown_recovers_iff {mtMaxSz : UInt64} {sema : Bool} {history : List Event}
    {s : KVStore 2} (hr : Run Step (KVStore.new 2 mtMaxSz (some sema)) history s)
    (hall : EveryStep Step (KVStore.new 2 mtMaxSz (some sema)) FlushesInOrder history) :
    ∃ s' rounds, flushRounds 2 s.forceReadyToDie = .ok (s', rounds) ∧ s'.isReadyToDie = true ∧
      ((∀ key, replay (flushedLog history ++ rounds.flatMap Prod.snd) key =
          lastWrite key history) ↔
        FlushesInOrder s (.endFlush (shutdownFirst s))) := by
  obtain ⟨c, hs, _⟩ := traced_of_run hr
  obtain ⟨t, u, s', ht, hut, hrounds, hready⟩ := forced_rounds hs (flag_of_run hr)
  refine ⟨s', _, hrounds, hready, ?_⟩
  obtain ⟨o, ho⟩ := exists_other c
  have hlast : ∀ key, ((s.layer c key).or (s.layer o key)).or (replay (flushedLog history) key) =
      lastWrite key history := fun key => by
    rw [← recovered_eq hs ho, recovers_of_run hr hall key]
  have hreplay : ∀ key, replay (flushedLog history ++
      [((t.val : ℤ), (s.mt t).dump), ((u.val : ℤ), (s.mt u).dump)].flatMap Prod.snd) key =
        ((s.layer u key).or (s.layer t key)).or (replay (flushedLog history) key) := by
    intro key
    rw [List.flatMap_cons, List.flatMap_cons, List.flatMap_nil, List.append_nil, replay_append,
      replay_append, replay_dump, replay_dump]
  simp only [hreplay]
  rw [← ht, flushesInOrder_iff hs ho]
  by_cases hct : c = t
  · subst hct
    rw [eq_of_ne_ne hut ho]
    simp only [forall_const]
    exact forall_congr' fun key => or_swap_iff (hlast key)
  · have hot : o = t := eq_of_ne_ne ho (Ne.symm hct)
    rw [← hot, eq_of_ne_ne hut (Ne.symm (hot ▸ ho) : c ≠ t)]
    exact iff_of_true hlast fun h => absurd (h.trans hot) hct

/-- A flush that keeps the dump order is in order. -/
theorem flushesInOrder_of_check (s : KVStore 2) (e : Event)
    (h : keepsDumpOrderCheck s e = true) : FlushesInOrder s e := by
  have hkeep := keepsDumpOrder_of_check s e h
  cases e with
  | endFlush target =>
    intro hcur c o hc ho key newer older hnewer holder
    rcases hkeep hcur c o hc ho key with hnone | hnone
    · rw [hnewer] at hnone
      cases hnone
    · rw [holder] at hnone
      cases hnone
  | _ => trivial

/-- A shutdown of a store that was refilled after one flush in order. The
current memtable has the lower index, so its value 30 leaves before the value 20. -/
theorem shutdown_recovers_iff_refill :
    ∃ history s s' rounds, Run Step (KVStore.new 2 1 (some false)) history s ∧
      s.curMt = shutdownFirst s ∧ flushRounds 2 s.forceReadyToDie = .ok (s', rounds) ∧
      ((∀ key, replay (flushedLog history ++ rounds.flatMap Prod.snd) key =
          lastWrite key history) ↔
        FlushesInOrder s (.endFlush (shutdownFirst s))) := by
  have hmap : (exec perform (KVStore.new 2 1 (some false)) (refillOps.take 5)).map
      (fun r => (r.2.curMt, shutdownFirst r.2)) = some (0, 0) := by rfl
  obtain ⟨⟨history, s⟩, hexec, hfirst⟩ := Option.map_eq_some_iff.mp hmap
  have hr := run_of_exec step_of_perform hexec
  have hall := everyStep_of_exec step_of_perform step_deterministic
    flushesInOrder_of_check .start everyStep_nil hexec (by decide)
  rw [List.append_nil] at hall
  obtain ⟨s', rounds, hrounds, _, hiff⟩ := shutdown_recovers_iff hr hall
  obtain ⟨hcur, hzero⟩ := Prod.mk.inj hfirst
  exact ⟨history, s, s', rounds, hr, hcur.trans hzero.symm, hrounds, hiff⟩

end CapsuleDB.EnclaveKvsReplay

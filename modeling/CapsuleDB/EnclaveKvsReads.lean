import CapsuleDB.EnclaveKvsRun

/-!
# Reads and flushed writes of the enclave store

Writes go to the current memtable, so a pair held there is the last accepted
one of its key. The memtable left behind may hold an older pair. Flushing it
first loses nothing; flushing the current memtable first uncovers the older
pair. The scan for a flush target takes the lowest index, which is not always
the older memtable, and the results below say exactly when that matters.
-/

namespace CapsuleDB.EnclaveKvsReads

open LabelledRun LayeredMap EnclaveMemTable EnclaveKvs EnclaveKvsRun

/-- What the memtables hold is known from the history. -/
structure Traced (history : List Event) (s : KVStore 2) (c : Fin 2) : Prop where
  /-- The current memtable holds last accepted writes only. -/
  newest : ∀ key value, s.layer c key = some value → lastWrite key history = some value
  /-- A flush in progress was dumped as the target still is. -/
  dumped : ∀ t : Fin 2, s.flushTarget = t.val → lastDump history = some (s.mt t).dump
  /-- A last accepted write is held, and not hidden by an older pair, or was flushed. -/
  held : ∀ key value, lastWrite key history = some value →
    s.layer c key = some value ∨
      (s.layer c key = none ∧ ∃ o, o ≠ c ∧ s.layer o key = some value) ∨
      FlushedSince key value history

/-- The fresh store holds nothing. -/
theorem traced_new (mtMaxSz : UInt64) (sema : Option Bool) :
    Traced [] (KVStore.new 2 mtMaxSz sema) 0 := by
  refine ⟨fun key value h => ?_, fun t ht => ?_, fun key value h => ?_⟩
  · rw [layer_of_empty rfl] at h
    cases h
  · exact absurd ht (by simp [KVStore.new])
  · cases h

/-- An accepted write leaves the memtable being flushed alone. -/
theorem dump_accepted {s s' : KVStore 2} {c d t : Fin 2} {key value : Bytes} {m : MemTable}
    (hs : Shape s c) (ha : s.Accepted key value d m s') (ht : s.flushTarget = t.val) :
    (s'.mt t).dump = (s.mt t).dump := by
  obtain ⟨u, hu, hm⟩ := hs.target_of_nonneg (by omega)
  rw [ht, Nat.cast_inj, Fin.val_inj] at hu
  rw [← hu] at hm
  rw [ha.mt_of_ne (ha.ne_of_closed hm)]

/-- An accepted write keeps the trace of all keys. -/
theorem Traced.accepted {history : List Event} {s s' : KVStore 2} {c d : Fin 2}
    {key value : Bytes} {m : MemTable} (hs : Shape s c) (hi : Traced history s c)
    (ha : s.Accepted key value d m s') :
    Traced (.put key value .writePass d :: history) s' d := by
  have hself := layer_accepted ha
  refine ⟨fun k v hk => ?_, fun t ht => ?_, fun k v hk => ?_⟩
  · by_cases hkey : key = k
    · subst hkey
      rw [hself, Function.update_self] at hk
      cases hk
      exact if_pos rfl
    · rw [hself, Function.update_of_ne (Ne.symm hkey)] at hk
      rw [lastWrite, if_neg hkey]
      by_cases hcd : c = d
      · exact hi.newest k v (hcd ▸ hk)
      · rw [layer_of_empty (hs.spare_of_ne ha hcd)] at hk
        cases hk
  · rw [ha.flushTarget] at ht
    rw [dump_accepted hs ha ht]
    exact hi.dumped t ht
  · by_cases hkey : key = k
    · subst hkey
      rw [lastWrite, if_pos rfl] at hk
      exact .inl (by rw [hself, Function.update_self, hk])
    · rw [lastWrite, if_neg hkey] at hk
      rw [hself, Function.update_of_ne (Ne.symm hkey)]
      by_cases hcd : c = d
      · subst hcd
        rcases hi.held k v hk with hc | ⟨hnone, o, ho, hov⟩ | hflushed
        · exact .inl hc
        · exact .inr (.inl ⟨hnone, o, ho, by rw [layer_accepted_of_ne ha ho, hov]⟩)
        · exact .inr (.inr ⟨hkey, hflushed⟩)
      · -- The write switched: the old current layer is the other one now.
        have hd : s.layer d k = none := layer_of_empty (hs.spare_of_ne ha hcd) k
        rcases hi.held k v hk with hc | ⟨_, o, ho, hov⟩ | hflushed
        · exact .inr (.inl ⟨hd, c, hcd, by rw [layer_accepted_of_ne ha hcd, hc]⟩)
        · rw [eq_of_ne_ne ho (Ne.symm hcd), hd] at hov
          cases hov
        · exact .inr (.inr ⟨hkey, hflushed⟩)

/-- The end of a flush drops only pairs that were dumped. -/
theorem Traced.cleared {history : List Event} {s : KVStore 2} {c t : Fin 2}
    (hi : Traced history s c) (ht : s.flushTarget = t.val) :
    Traced (.endFlush t :: history) (s.cleared t) c := by
  have hflush : ∀ k v, s.layer t k = some v →
      FlushedSince k v (.endFlush t :: history) := by
    intro k v hk
    exact .inl ⟨_, hi.dumped t ht, MemTable.mem_dump.mpr hk⟩
  refine ⟨fun k v hk => ?_, fun u hu => ?_, fun k v hk => ?_⟩
  · rw [layer_cleared] at hk
    split at hk
    · cases hk
    · exact hi.newest k v hk
  · exact absurd hu (by simp only [KVStore.cleared]; omega)
  · rw [layer_cleared]
    rcases hi.held k v hk with hc | ⟨hnone, o, ho, hov⟩ | hflushed
    · by_cases hct : c = t
      · exact .inr (.inr (hflush k v (hct ▸ hc)))
      · exact .inl (by rw [if_neg hct, hc])
    · by_cases hot : o = t
      · exact .inr (.inr (hflush k v (hot ▸ hov)))
      · refine .inr (.inl ⟨by rw [hnone, ite_self], o, ho, ?_⟩)
        rw [layer_cleared, if_neg hot, hov]
    · exact .inr (.inr (.inr hflushed))

/-- The trace survives every effect. -/
theorem Traced.next {history : List Event} {s s' : KVStore 2} {c c' : Fin 2} {e : Event}
    (hs : Shape s c) (hi : Traced history s c) (he : Effect s c e s' c') :
    Traced (e :: history) s' c' := by
  cases he with
  | refused _ => exact ⟨hi.newest, hi.dumped, hi.held⟩
  | accepted ha => exact hi.accepted hs ha
  | read _ => exact ⟨hi.newest, hi.dumped, hi.held⟩
  | noTarget hneg _ =>
    refine ⟨hi.newest, fun t ht => ?_, hi.held⟩
    omega
  | @marked t _ _ _ =>
    refine ⟨fun k v hk => ?_, fun u hu => ?_, fun k v hk => ?_⟩
    · exact hi.newest k v (by rwa [layer_marked] at hk)
    · simp only [KVStore.marked, Nat.cast_inj, Fin.val_inj] at hu
      subst hu
      simp only [KVStore.marked, Function.update_self]
      rfl
    · simp only [layer_marked]
      exact hi.held k v hk
  | @again t ht =>
    refine ⟨hi.newest, fun u hu => ?_, hi.held⟩
    rw [ht, Nat.cast_inj, Fin.val_inj] at hu
    subst hu
    rfl
  | cleared ht _ => exact hi.cleared ht
  | forced => exact ⟨hi.newest, fun t ht => hi.dumped t ht, hi.held⟩

/-- Every run keeps the shape and the trace. -/
theorem traced_of_run {mtMaxSz : UInt64} {sema : Option Bool} {history : List Event}
    {s : KVStore 2} (hr : Run Step (KVStore.new 2 mtMaxSz sema) history s) :
    ∃ c, Shape s c ∧ Traced history s c := by
  refine hr.invariant (I := fun history s => ∃ c, Shape s c ∧ Traced history s c)
    ⟨0, shape_new mtMaxSz sema, traced_new mtMaxSz sema⟩ ?_
  rintro history s e s' _ ⟨c, hs, hi⟩ hstep
  obtain ⟨c', he⟩ := hs.effect hstep
  exact ⟨c', hs.next he, hi.next hs he⟩

/-- No accepted write vanishes: the last one of every key is read back, or its
pair was dumped before a flush that ended since. A flush in progress empties
exactly the pairs dumped by the most recent `InitFlush`, and nothing else. -/
theorem accepted_write_readable_or_flushed {mtMaxSz : UInt64} {sema : Option Bool}
    {history : List Event} {s : KVStore 2}
    (hr : Run Step (KVStore.new 2 mtMaxSz sema) history s) :
    (∀ key value, lastWrite key history = some value →
      (∀ before, s.get key before = .ok (.readPass, value)) ∨
        FlushedSince key value history) ∧
    (0 ≤ s.flushTarget → ∃ t : Fin 2, s.flushTarget = t.val ∧
      lastDump history = some (s.mt t).dump ∧
      (∀ key value, (key, value) ∈ (s.mt t).dump ↔ (s.mt t).store.lookup key = some value) ∧
      ∀ s', s.endFlush = .ok s' →
        s'.mt t = { s.mt t with store := ∅, sizeInBytes := 0, mutable := true, onFlush := false } ∧
          ∀ i, i ≠ t → s'.mt i = s.mt i) := by
  obtain ⟨c, hs, hi⟩ := traced_of_run hr
  constructor
  · intro key value hlast
    rcases hi.held key value hlast with hc | ⟨hnone, o, ho, hov⟩ | hflushed
    · obtain ⟨o, ho⟩ := exists_other c
      exact .inl fun before => (hs.get_pass_iff ho key before value).mpr (.inl hc)
    · exact .inl fun before => (hs.get_pass_iff ho key before value).mpr (.inr ⟨hnone, hov⟩)
    · exact .inr hflushed
  · intro hpos
    obtain ⟨t, ht, _⟩ := hs.target_of_nonneg hpos
    refine ⟨t, ht, hi.dumped t ht, fun key value => MemTable.mem_dump, fun s' h => ?_⟩
    rw [KVStore.endFlush_cases ht h]
    refine ⟨?_, fun i hi => ?_⟩
    · rw [KVStore.cleared_mt, if_pos rfl]
      rfl
    · rw [KVStore.cleared_mt, if_neg hi]

/-- Two full memtables, the newer one in the lower index after a refill. Both
flushes take the lower index, the second one before the older memtable. -/
def refillOps : List Op :=
  [.put [1] [10], .put [1] [20], .initFlush, .endFlush, .put [1] [30], .initFlush, .endFlush]

/-- The refill is a run of a store whose memtables take one pair each. -/
theorem refillOps_run :
    ∃ history s, exec perform (KVStore.new 2 1 (some false)) refillOps = some (history, s) ∧
      Run Step (KVStore.new 2 1 (some false)) history s := by
  have hsome : (exec perform (KVStore.new 2 1 (some false)) refillOps).isSome = true := by decide
  obtain ⟨r, hr⟩ := Option.isSome_iff_exists.mp hsome
  exact ⟨r.1, r.2, hr, run_of_exec step_of_perform hr⟩

/-- After the refill the last accepted value was flushed, and not since overwritten. -/
theorem accepted_write_readable_or_flushed_refill :
    ∃ history s, Run Step (KVStore.new 2 1 (some false)) history s ∧
      lastWrite [1] history = some [30] ∧
      ((∀ before, s.get [1] before = .ok (.readPass, [30])) ∨
        FlushedSince [1] [30] history) := by
  obtain ⟨history, s, hexec, hr⟩ := refillOps_run
  have hlast : lastWrite [1] history = some [30] := by
    have hmap : (exec perform (KVStore.new 2 1 (some false)) refillOps).map
        (fun r => lastWrite [1] r.1) = some (some [30]) := by decide
    rw [hexec] at hmap
    exact Option.some.inj hmap
  exact ⟨history, s, hr, hlast, (accepted_write_readable_or_flushed hr).1 [1] [30] hlast⟩

/-- A read that passes now would return the last accepted write of its key. -/
def ReadsFresh (history : List Event) (s : KVStore 2) : Prop :=
  ∀ key before found, s.get key before = .ok (.readPass, found) →
    lastWrite key history = some found

/-- The step does not empty the current memtable while the other one holds a
different value of some key of it. -/
def FlushesInOrder (s : KVStore 2) : Event → Prop
  | .endFlush target => s.curMt = target → ∀ c o : Fin 2, c.val = target → o ≠ c →
      ∀ key newer older, s.layer c key = some newer → s.layer o key = some older → older = newer
  | _ => True

/-- Under the trace, fresh reads are a statement about the other memtable alone. -/
theorem readsFresh_iff {history : List Event} {s : KVStore 2} {c : Fin 2} (hs : Shape s c)
    (hnew : ∀ key value, s.layer c key = some value → lastWrite key history = some value) :
    ReadsFresh history s ↔ ∀ o, o ≠ c → ∀ key value, s.layer c key = none →
      s.layer o key = some value → lastWrite key history = some value := by
  constructor
  · intro hfresh o ho key value hnone hov
    exact hfresh key [] value ((hs.get_pass_iff ho key [] value).mpr (.inr ⟨hnone, hov⟩))
  · intro hold key before found hget
    obtain ⟨o, ho⟩ := exists_other c
    rcases (hs.get_pass_iff ho key before found).mp hget with hc | ⟨hnone, hov⟩
    · exact hnew key found hc
    · exact hold o ho key found hnone hov

/-- The fresh store answers no read. -/
theorem readsFresh_new (mtMaxSz : UInt64) (sema : Option Bool) :
    ReadsFresh [] (KVStore.new 2 mtMaxSz sema) := by
  refine (readsFresh_iff (shape_new mtMaxSz sema) (traced_new mtMaxSz sema).newest).mpr ?_
  intro o _ key value _ hov
  rw [layer_of_empty rfl] at hov
  cases hov

/-- Fresh reads survive an accepted write. -/
theorem readsFresh_accepted {history : List Event} {s s' : KVStore 2} {c d : Fin 2}
    {key value : Bytes} {m : MemTable} (hs : Shape s c) (hi : Traced history s c)
    (hfresh : ReadsFresh history s) (ha : s.Accepted key value d m s') :
    ReadsFresh (.put key value .writePass d :: history) s' := by
  have hold := (readsFresh_iff hs hi.newest).mp hfresh
  refine (readsFresh_iff (hs.next (.accepted ha)) (hi.accepted hs ha).newest).mpr ?_
  intro o ho k v hnone hov
  have hkey : key ≠ k := by
    rintro rfl
    rw [layer_accepted ha, Function.update_self] at hnone
    cases hnone
  rw [layer_accepted ha, Function.update_of_ne hkey.symm] at hnone
  rw [layer_accepted_of_ne ha ho] at hov
  rw [lastWrite, if_neg hkey]
  by_cases hcd : c = d
  · subst hcd
    exact hold o ho k v hnone hov
  · exact hi.newest k v (eq_of_ne_ne ho hcd ▸ hov)

/-- Fresh reads survive exactly the flushes in order. -/
theorem readsFresh_cleared_iff {history : List Event} {s : KVStore 2} {c t : Fin 2}
    (hs : Shape s c) (hi : Traced history s c) (hfresh : ReadsFresh history s)
    (ht : s.flushTarget = t.val) (hm : (s.mt t).mutable = false) :
    ReadsFresh (.endFlush t :: history) (s.cleared t) ↔ FlushesInOrder s (.endFlush t) := by
  have hold := (readsFresh_iff hs hi.newest).mp hfresh
  rw [readsFresh_iff (hs.next (.cleared ht hm)) (hi.cleared ht).newest]
  simp only [layer_cleared, lastWrite, FlushesInOrder, hs.cur]
  by_cases hct : c = t
  · -- The current memtable is emptied, and the other one becomes readable.
    subst hct
    constructor
    · intro hall _ c₀ o hc₀ ho key newer older hnewer holder
      rw [Fin.val_inj] at hc₀
      subst hc₀
      have hlast := hall o ho key older (if_pos rfl) (by rw [if_neg ho, holder])
      rw [hi.newest key newer hnewer] at hlast
      exact (Option.some.inj hlast).symm
    · intro horder o ho key value _ hov
      rw [if_neg ho] at hov
      cases hc : s.layer c key with
      | none => exact hold o ho key value hc hov
      | some newer =>
        rw [horder rfl c o rfl ho key newer value hc hov]
        exact hi.newest key newer hc
  · refine iff_of_true (fun o ho key value _ hov => ?_) fun hcur => ?_
    · rw [if_pos (eq_of_ne_ne ho (Ne.symm hct))] at hov
      cases hov
    · exact absurd (Fin.val_inj.mp hcur) hct

/-- Fresh reads survive a step that changes no layer and accepts no write. -/
theorem readsFresh_quiet {history : List Event} {s s' : KVStore 2} {c : Fin 2} {e : Event}
    (hs : Shape s c) (hi : Traced history s c) (hs' : Shape s' c)
    (hi' : Traced (e :: history) s' c) (hlayer : ∀ i, s'.layer i = s.layer i)
    (he : ∀ key, lastWrite key (e :: history) = lastWrite key history)
    (hfresh : ReadsFresh history s) : ReadsFresh (e :: history) s' := by
  have hold := (readsFresh_iff hs hi.newest).mp hfresh
  refine (readsFresh_iff hs' hi'.newest).mpr ?_
  simp only [hlayer, he]
  exact hold

/-- Fresh reads survive exactly the steps that flush in order. -/
theorem readsFresh_next {history : List Event} {s s' : KVStore 2} {c c' : Fin 2} {e : Event}
    (hs : Shape s c) (hi : Traced history s c) (hfresh : ReadsFresh history s)
    (he : Effect s c e s' c') : ReadsFresh (e :: history) s' ↔ FlushesInOrder s e := by
  have hs' := hs.next he
  have hi' := hi.next hs he
  cases he with
  | refused _ =>
    exact iff_of_true
      (readsFresh_quiet hs hi hs' hi' (fun _ => rfl) (fun _ => rfl) hfresh) trivial
  | accepted ha => exact iff_of_true (readsFresh_accepted hs hi hfresh ha) trivial
  | read _ => exact iff_of_true hfresh trivial
  | noTarget _ _ => exact iff_of_true hfresh trivial
  | @marked t _ _ _ =>
    exact iff_of_true
      (readsFresh_quiet hs hi hs' hi' (layer_marked s t) (fun _ => rfl) hfresh) trivial
  | again _ => exact iff_of_true hfresh trivial
  | cleared ht hm => exact readsFresh_cleared_iff hs hi hfresh ht hm
  | forced =>
    exact iff_of_true
      (readsFresh_quiet hs hi hs' hi' (fun _ => rfl) (fun _ => rfl) hfresh) trivial

/-- A run never reads a stale value at any of its moments exactly when none of
its flushes empties the current memtable over a differing older pair. -/
theorem reads_fresh_iff_flushes_in_order {mtMaxSz : UInt64} {sema : Option Bool}
    {history : List Event} {s : KVStore 2}
    (hr : Run Step (KVStore.new 2 mtMaxSz sema) history s) :
    Always Step (KVStore.new 2 mtMaxSz sema) ReadsFresh history ↔
      EveryStep Step (KVStore.new 2 mtMaxSz sema) FlushesInOrder history := by
  refine always_iff_everyStep step_deterministic (readsFresh_new mtMaxSz sema) ?_ hr
  intro history s e s' hrun hfresh hstep
  obtain ⟨c, hs, hi⟩ := traced_of_run hrun
  obtain ⟨c', he⟩ := hs.effect hstep
  exact readsFresh_next hs hi hfresh he

/-- The exact condition on the refill, whose last flush breaks it. -/
theorem reads_fresh_iff_flushes_in_order_refill :
    ∃ history s, Run Step (KVStore.new 2 1 (some false)) history s ∧
      (Always Step (KVStore.new 2 1 (some false)) ReadsFresh history ↔
        EveryStep Step (KVStore.new 2 1 (some false)) FlushesInOrder history) := by
  obtain ⟨history, s, _, hr⟩ := refillOps_run
  exact ⟨history, s, hr, reads_fresh_iff_flushes_in_order hr⟩

/-- Reads are not always fresh: after the refill the value 20 is read back,
although 30 was accepted later. -/
theorem stale_read_after_refill :
    ¬ ∀ (mtMaxSz : UInt64) (history : List Event) (s : KVStore 2),
      Run Step (KVStore.new 2 mtMaxSz (some false)) history s → ReadsFresh history s := by
  intro hall
  obtain ⟨history, s, hexec, hr⟩ := refillOps_run
  have hmap : (exec perform (KVStore.new 2 1 (some false)) refillOps).map
      (fun r => (lastWrite [1] r.1, r.2.get [1] [])) =
        some (some [30], .ok (.readPass, [20])) := by rfl
  rw [hexec] at hmap
  obtain ⟨hlast, hget⟩ := Prod.mk.inj (Option.some.inj hmap)
  have hfresh := hall 1 history s hr [1] [] [20] hget
  rw [hlast] at hfresh
  cases hfresh

/-- An event of a store that nobody flushes or shuts down. -/
def Unflushed : Event → Prop
  | .put .. => True
  | .get .. => True
  | _ => False

/-- Nothing was flushed in a history without flushes. -/
theorem not_flushedSince {history : List Event} (h : ∀ e ∈ history, Unflushed e)
    (key value : Bytes) : ¬ FlushedSince key value history := by
  induction history with
  | nil => exact id
  | cons e history ih =>
    obtain ⟨he, htail⟩ := List.forall_mem_cons.mp h
    cases e with
    | put k v st j => cases st <;> first | exact ih htail | exact fun hf => ih htail hf.2
    | get k st v => exact ih htail
    | _ => cases he

/-- Without flushes every read is fresh. -/
theorem readsFresh_of_unflushed {mtMaxSz : UInt64} {sema : Option Bool} {history : List Event}
    {s : KVStore 2} (hr : Run Step (KVStore.new 2 mtMaxSz sema) history s)
    (h : ∀ e ∈ history, Unflushed e) : ReadsFresh history s := by
  induction hr with
  | start => exact readsFresh_new mtMaxSz sema
  | next hr hstep ih =>
    obtain ⟨he, htail⟩ := List.forall_mem_cons.mp h
    obtain ⟨c, hs, hi⟩ := traced_of_run hr
    obtain ⟨c', heffect⟩ := hs.effect hstep
    refine (readsFresh_next hs hi (ih htail) heffect).mpr ?_
    cases hstep <;> trivial

/-- Without flushes a read answers the last accepted write of its key. -/
theorem get_eq_of_unflushed {mtMaxSz : UInt64} {sema : Option Bool} {history : List Event}
    {s : KVStore 2} (hr : Run Step (KVStore.new 2 mtMaxSz sema) history s)
    (h : ∀ e ∈ history, Unflushed e) (key before : Bytes) :
    s.get key before =
      .ok (match lastWrite key history with
        | some value => (.readPass, value)
        | none => (.readFail, before)) := by
  obtain ⟨c, hs, hi⟩ := traced_of_run hr
  obtain ⟨o, ho⟩ := exists_other c
  cases hlast : lastWrite key history with
  | some value =>
    refine (hs.get_pass_iff ho key before value).mpr ?_
    rcases hi.held key value hlast with hc | ⟨hnone, o', ho', hov⟩ | hflushed
    · exact .inl hc
    · exact .inr ⟨hnone, eq_of_ne_ne ho ho' ▸ hov⟩
    · exact absurd hflushed (not_flushedSince h key value)
  | none =>
    rw [hs.get_eq ho]
    cases hfind : find [s.layer c, s.layer o] key with
    | none => rfl
    | some found =>
      have hget : s.get key before = .ok (.readPass, found) := by rw [hs.get_eq ho, hfind]
      rw [readsFresh_of_unflushed hr h key before found hget] at hlast
      cases hlast

end CapsuleDB.EnclaveKvsReads

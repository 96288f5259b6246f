import CapsuleDB.EnclaveKvsRun

/-!
# The byte accounting of the memtables

A memtable counts its bytes incrementally, with wrapping arithmetic, and
judges fullness and emptiness by the counter. The counter is exact modulo the
word size along every run of a memtable and of the store. What the two
judgements miss is an overwrite that grows past the threshold, which is never
compared with it, and a pair of empty strings, which weighs nothing.
-/

namespace CapsuleDB.EnclaveAccounting

open LabelledRun LayeredMap EnclaveMemTable EnclaveKvs EnclaveKvsRun

/-- The bytes of all pairs held. -/
def liveBytes (m : MemTable) : ℕ := totalWeight pairBytes m.store

/-- The bytes held after a pair is stored. -/
def liveBytesAfter (m : MemTable) (key value : Bytes) : ℕ :=
  totalWeight pairBytes (m.store.insert key value)

section OneMemtable

/-- A completed operation of one memtable. -/
inductive TableEvent
  | put (key value : Bytes) (status : KVStatus)
  | get (key : Bytes) (status : KVStatus) (value : Bytes)
  | setMutable (value : Bool)
  | initFlush (taken : Bool)
  | endFlush

/-- One completed operation of one memtable. -/
inductive TableStep : MemTable → TableEvent → MemTable → Prop
  | put {m m' : MemTable} {key value : Bytes} {st : KVStatus} :
      m.put key value = .ok (m', st) → TableStep m (.put key value st) m'
  | get {m : MemTable} {key before found : Bytes} {st : KVStatus} :
      m.get key before = (st, found) → TableStep m (.get key st found) m
  | setMutable {m : MemTable} {value : Bool} :
      TableStep m (.setMutable value) (m.setMutable value)
  | initFlush {m m' : MemTable} {taken : Bool} :
      m.initFlush = (m', taken) → TableStep m (.initFlush taken) m'
  | endFlush {m : MemTable} : TableStep m .endFlush m.endFlush

/-- Picking a memtable for flushing leaves the pairs and the counter alone. -/
theorem initFlush_accounted {m m' : MemTable} {taken : Bool} (hm : m.Accounted)
    (h : m.initFlush = (m', taken)) : m'.Accounted := by
  unfold MemTable.initFlush at h
  split at h
  · cases h
    exact hm
  · split at h <;> cases h <;> exact hm

/-- Every operation keeps the counter exact modulo the word size. -/
theorem TableStep.accounted {m m' : MemTable} {e : TableEvent} (h : TableStep m e m')
    (hm : m.Accounted) : m'.Accounted := by
  cases h with
  | put hput => exact MemTable.put_accounted hm hput
  | get _ => exact hm
  | setMutable => exact hm
  | initFlush hflush => exact initFlush_accounted hm hflush
  | endFlush => exact MemTable.endFlush_accounted m

/-- An exact counter as a number. -/
theorem toNat_sizeInBytes {m : MemTable} (hm : m.Accounted) :
    m.sizeInBytes.toNat = liveBytes m%2 ^ 64 := by
  unfold MemTable.Accounted at hm
  rw [hm, liveBytes, UInt64.toNat_ofNat']

/-- After every run of a memtable the counter is the number of bytes of the
pairs held, modulo the word size. -/
theorem size_in_bytes_exact {maxSizeInBytes : UInt64} {history : List TableEvent} {m : MemTable}
    (hr : Run TableStep (MemTable.new maxSizeInBytes) history m) :
    m.sizeInBytes.toNat = liveBytes m%2 ^ 64 ∧
      (liveBytes m < 2 ^ 64 → m.sizeInBytes.toNat = liveBytes m) := by
  have hm : m.Accounted := by
    refine hr.invariant (I := fun _ m => m.Accounted) (MemTable.new_accounted _) ?_
    intro _ m e m' _ hm hstep
    exact hstep.accounted hm
  have hexact := toNat_sizeInBytes hm
  refine ⟨hexact, fun hlt => ?_⟩
  rw [hexact, Nat.mod_eq_of_lt hlt]

/-- A value of three bytes and its overwrite by one byte. -/
theorem size_in_bytes_exact_overwrite :
    ∃ m, Run TableStep (MemTable.new 100)
        [.put [1] [5] .writePass, .put [1] [10, 11, 12] .writePass] m ∧
      m.sizeInBytes.toNat = 2 ∧ m.sizeInBytes.toNat = liveBytes m%2 ^ 64 := by
  have hr : Run TableStep (MemTable.new 100)
      [.put [1] [5] .writePass, .put [1] [10, 11, 12] .writePass] _ :=
    (Run.start.next (.put rfl)).next (.put rfl)
  exact ⟨_, hr, rfl, (size_in_bytes_exact hr).1⟩

end OneMemtable

section AllMemtables

variable {n : ℕ} {mtMaxSz : UInt64} {sema : Option Bool}

/-- What each operation does to one memtable preserves is preserved of all
memtables by every step of the store. -/
theorem forall_mt_of_effect {P : MemTable → Prop} {s s' : KVStore n} {c c' : Fin n} {e : Event}
    (hput : ∀ m key value m' st, P m → m.Stored key value m' st → P m')
    (hmark : ∀ m, P m → P { m with onFlush := true }) (hend : ∀ m, P m → P m.endFlush)
    (hclose : ∀ m, P m → P (m.setMutable false)) (he : Effect s c e s' c')
    (hs : ∀ i, P (s.mt i)) : ∀ i, P (s'.mt i) := by
  cases he with
  | refused _ => exact hs
  | accepted ha =>
    obtain ⟨st, hstored⟩ := ha.stored
    exact ha.forall_mt (hput _ _ _ _ _ (hs _) hstored) hs
  | read _ => exact hs
  | noTarget _ _ => exact hs
  | @marked t _ _ _ =>
    intro i
    rw [KVStore.marked_mt]
    split
    · exact hmark _ (hs t)
    · exact hs i
  | again _ => exact hs
  | @cleared t _ _ =>
    intro i
    rw [KVStore.cleared_mt]
    split
    · exact hend _ (hs t)
    · exact hs i
  | forced => exact fun i => hclose _ (hs i)

/-- After every run all counters are exact modulo the word size, and all
thresholds are the one of the store. -/
theorem accounted_of_run {history : List Event} {s : KVStore (n+1)}
    (hr : Run Step (KVStore.new (n+1) mtMaxSz sema) history s) (i : Fin (n+1)) :
    (s.mt i).Accounted ∧ (s.mt i).maxSizeInBytes = mtMaxSz := by
  have hall : ∀ i, (s.mt i).Accounted ∧ (s.mt i).maxSizeInBytes = mtMaxSz := by
    refine hr.invariant (I := fun _ s =>
      ∀ i, (s.mt i).Accounted ∧ (s.mt i).maxSizeInBytes = mtMaxSz)
      (fun _ => ⟨MemTable.new_accounted _, rfl⟩) ?_
    intro history s e s' hr hs hstep
    obtain ⟨c, hb⟩ := base_of_run hr
    obtain ⟨c', he⟩ := hb.effect hstep
    refine forall_mt_of_effect (P := fun m => m.Accounted ∧ m.maxSizeInBytes = mtMaxSz)
      ?_ (fun _ h => h) (fun m h => ⟨MemTable.endFlush_accounted m, h.2⟩) (fun _ h => h) he hs
    intro m key value m' st h hstored
    exact ⟨hstored.accounted h.1, hstored.max.trans h.2⟩
  exact hall i

end AllMemtables

section Emptiness

variable {n : ℕ} {mtMaxSz : UInt64} {sema : Option Bool}

/-- The store is ready to die exactly when no memtable holds a pair. -/
def ReadyIffEmpty (s : KVStore n) : Prop :=
  s.isReadyToDie = true ↔ ∀ i, (s.mt i).store = ∅

/-- After the step some memtable holds bytes, counted modulo the word size, or
no memtable holds a pair. -/
def KeepsWeight (s : KVStore n) : Event → Prop
  | .put key value .writePass slot =>
    ∃ i : Fin n, ¬ 2 ^ 64 ∣ if i.val = slot then liveBytesAfter (s.mt i) key value
      else liveBytes (s.mt i)
  | .endFlush target =>
    (∀ i : Fin n, i.val ≠ target → (s.mt i).store = ∅) ∨
      ∃ i : Fin n, i.val ≠ target ∧ ¬ 2 ^ 64 ∣ liveBytes (s.mt i)
  | _ => True

/-- An empty memtable weighs nothing. -/
theorem liveBytes_of_empty {m : MemTable} (h : m.store = ∅) : liveBytes m = 0 := by
  rw [liveBytes, h, totalWeight_empty]

/-- A memtable that holds a pair is not empty. -/
theorem insert_ne_empty (m : AList fun _ : Bytes => Bytes) (key value : Bytes) :
    m.insert key value ≠ ∅ := by
  intro h
  have hlookup := AList.lookup_insert m (a := key) (b := value)
  rw [h, AList.lookup_empty] at hlookup
  cases hlookup

/-- A memtable judges itself empty when its bytes vanish modulo the word size. -/
theorem isEmpty_iff {m : MemTable} (hm : m.Accounted) :
    m.isEmpty = true ↔ 2 ^ 64 ∣ liveBytes m := by
  have hexact := toNat_sizeInBytes hm
  rw [MemTable.isEmpty, decide_eq_true_iff, ← UInt64.toNat_inj, hexact]
  exact (Nat.dvd_iff_mod_eq_zero ..).symm

/-- With exact counters the judgement is right when nothing is held, or when
what is held weighs something. -/
theorem readyIffEmpty_iff {s : KVStore n} (hs : ∀ i, (s.mt i).Accounted) :
    ReadyIffEmpty s ↔
      (∀ i, (s.mt i).store = ∅) ∨ ∃ i, ¬ 2 ^ 64 ∣ liveBytes (s.mt i) := by
  have hready : s.isReadyToDie = true ↔ ∀ i, 2 ^ 64 ∣ liveBytes (s.mt i) := by
    rw [KVStore.isReadyToDie, decide_eq_true_iff]
    exact forall_congr' fun i => isEmpty_iff (hs i)
  have hempty : (∀ i, (s.mt i).store = ∅) → ∀ i, 2 ^ 64 ∣ liveBytes (s.mt i) := fun h i => by
    rw [liveBytes_of_empty (h i)]
    exact Nat.dvd_zero _
  rw [ReadyIffEmpty, hready]
  constructor
  · intro hiff
    by_cases hall : ∀ i, 2 ^ 64 ∣ liveBytes (s.mt i)
    · exact .inl (hiff.mp hall)
    · exact .inr (not_forall.mp hall)
  · rintro (hnone | ⟨i, hi⟩)
    · exact iff_of_true (hempty hnone) hnone
    · exact iff_of_false (fun h => hi (h i)) fun h => hi (hempty h i)

/-- After a flush nothing is held when nothing was outside of its target. -/
theorem all_empty_cleared_iff (s : KVStore n) (t : Fin n) :
    (∀ i, ((s.cleared t).mt i).store = ∅) ↔
      ∀ i : Fin n, i.val ≠ t.val → (s.mt i).store = ∅ := by
  refine forall_congr' fun i => ?_
  rw [KVStore.cleared_store]
  split
  · next hit => exact iff_of_true rfl fun h => absurd (congrArg Fin.val hit) h
  · next hit => exact ⟨fun h _ => h, fun h => h (Fin.val_ne_of_ne hit)⟩

/-- After a flush something weighs when something did outside of its target. -/
theorem some_weight_cleared_iff (s : KVStore n) (t : Fin n) :
    (∃ i, ¬ 2 ^ 64 ∣ liveBytes ((s.cleared t).mt i)) ↔
      ∃ i : Fin n, i.val ≠ t.val ∧ ¬ 2 ^ 64 ∣ liveBytes (s.mt i) := by
  refine exists_congr fun i => ?_
  rw [liveBytes, KVStore.cleared_store]
  split
  · next hit =>
    rw [totalWeight_empty]
    exact iff_of_false (fun h => h (Nat.dvd_zero _)) fun h => h.1 (congrArg Fin.val hit)
  · next hit => exact ⟨fun h => ⟨Fin.val_ne_of_ne hit, h⟩, fun h => h.2⟩

/-- The judgement survives exactly the steps that keep weight. -/
theorem readyIffEmpty_next {s s' : KVStore n} {c c' : Fin n} {e : Event}
    (hs : ∀ i, (s.mt i).Accounted) (hs' : ∀ i, (s'.mt i).Accounted) (hready : ReadyIffEmpty s)
    (he : Effect s c e s' c') : ReadyIffEmpty s' ↔ KeepsWeight s e := by
  have hold := (readyIffEmpty_iff hs).mp hready
  rw [readyIffEmpty_iff hs']
  cases he with
  | refused _ => exact iff_of_true hold trivial
  | @accepted key value d m _ ha =>
    obtain ⟨st, hstored⟩ := ha.stored
    have hheld : ¬ ∀ i, (s'.mt i).store = ∅ := by
      intro hnone
      have hd := hnone c'
      rw [ha.mt_self, hstored.store] at hd
      exact insert_ne_empty _ _ _ hd
    rw [or_iff_right hheld]
    refine exists_congr fun i => not_congr ?_
    by_cases hi : i = c'
    · rw [hi, if_pos rfl, ha.mt_self, liveBytes, hstored.store, liveBytesAfter]
    · rw [if_neg fun h => hi (Fin.ext h), ha.mt_of_ne hi]
  | read _ => exact iff_of_true hold trivial
  | noTarget _ _ => exact iff_of_true hold trivial
  | @marked t _ _ _ =>
    simp only [KVStore.marked_store, liveBytes]
    exact iff_of_true hold trivial
  | again _ => exact iff_of_true hold trivial
  | @cleared t _ _ =>
    rw [all_empty_cleared_iff, some_weight_cleared_iff]
    exact Iff.rfl
  | forced => exact iff_of_true hold trivial

/-- A store judges its emptiness rightly at all moments of a run exactly when
each step of the run keeps weight. -/
theorem ready_to_die_exact_iff {history : List Event} {s : KVStore (n+1)}
    (hr : Run Step (KVStore.new (n+1) mtMaxSz sema) history s) :
    Always Step (KVStore.new (n+1) mtMaxSz sema) (fun _ s => ReadyIffEmpty s) history ↔
      EveryStep Step (KVStore.new (n+1) mtMaxSz sema) KeepsWeight history := by
  have hnew : ReadyIffEmpty (KVStore.new (n+1) mtMaxSz sema) :=
    (readyIffEmpty_iff fun _ => MemTable.new_accounted _).mpr (.inl fun _ => rfl)
  refine always_iff_everyStep step_deterministic hnew ?_ hr
  intro history s e s' hrun hready hstep
  obtain ⟨c, hb⟩ := base_of_run hrun
  obtain ⟨c', he⟩ := hb.effect hstep
  exact readyIffEmpty_next (fun i => (accounted_of_run hrun i).1)
    (fun i => (accounted_of_run (hrun.next hstep) i).1) hready he

/-- A pair of empty strings behind a pair of two bytes. -/
def weightlessOps : List Op := [.put [1] [10], .put [] [], .initFlush, .endFlush]

/-- The exact condition on a run whose last flush leaves the weightless pair. -/
theorem ready_to_die_exact_iff_weightless :
    ∃ history s, exec perform (KVStore.new 2 1 (some false)) weightlessOps = some (history, s) ∧
      (Always Step (KVStore.new 2 1 (some false)) (fun _ s => ReadyIffEmpty s) history ↔
        EveryStep Step (KVStore.new 2 1 (some false)) KeepsWeight history) := by
  have hsome : (exec perform (KVStore.new 2 1 (some false)) weightlessOps).isSome = true := by
    decide
  obtain ⟨⟨history, s⟩, hexec⟩ := Option.isSome_iff_exists.mp hsome
  exact ⟨history, s, hexec, ready_to_die_exact_iff (run_of_exec step_of_perform hexec)⟩

/-- The judgement is not always right: with a pair of empty strings held, the
store is ready to die. -/
theorem ready_while_holding_empty_pair :
    ¬ ∀ (mtMaxSz : UInt64) (history : List Event) (s : KVStore 2),
      Run Step (KVStore.new 2 mtMaxSz (some false)) history s → ReadyIffEmpty s := by
  intro hall
  have hmap : (exec perform (KVStore.new 2 1 (some false)) [.put [] []]).map
      (fun r => (r.2.isReadyToDie, (r.2.mt 0).store.lookup [])) = some (true, some []) := by
    rfl
  obtain ⟨⟨history, s⟩, hexec, heq⟩ := Option.map_eq_some_iff.mp hmap
  obtain ⟨hready, hheld⟩ := Prod.mk.inj heq
  have hempty := (hall 1 history s (run_of_exec step_of_perform hexec)).mp hready 0
  dsimp only at hheld
  rw [hempty, AList.lookup_empty] at hheld
  cases hheld

end Emptiness

section Threshold

variable {n : ℕ} {mtMaxSz : UInt64} {sema : Option Bool}

/-- The last accepted write into one memtable. -/
def lastPutTo (slot : ℕ) : List Event → Option (Bytes × Bytes)
  | [] => none
  | .put key value .writePass j :: older =>
    if j = slot then some (key, value) else lastPutTo slot older
  | _ :: older => lastPutTo slot older

/-- A writable memtable holds fewer bytes than its threshold, and a closed one
exceeds that by at most the write that closed it. -/
structure BelowThreshold (history : List Event) (s : KVStore n) : Prop where
  /-- The writable memtables. -/
  writable : ∀ i, (s.mt i).mutable = true → liveBytes (s.mt i) < (s.mt i).maxSizeInBytes.toNat
  /-- The closed memtables. -/
  closed : ∀ i : Fin n, (s.mt i).mutable = false →
    ∃ key value, lastPutTo i history = some (key, value) ∧
      liveBytes (s.mt i) < (s.mt i).maxSizeInBytes.toNat+pairBytes key value

/-- A write keeps its memtable below the threshold, or it is the first one of
its key and the bytes, modulo the word size, reach the threshold. -/
def KeepsBelow (s : KVStore n) : Event → Prop
  | .put key value .writePass slot =>
    ∀ i : Fin n, i.val = slot →
      liveBytesAfter (s.mt i) key value < (s.mt i).maxSizeInBytes.toNat ∨
        (s.mt i).store.lookup key = none ∧
          (s.mt i).maxSizeInBytes.toNat ≤ liveBytesAfter (s.mt i) key value%2 ^ 64
  | _ => True

/-- A fresh store is below every threshold but zero. -/
theorem belowThreshold_new (hsize : 1 ≤ mtMaxSz) :
    BelowThreshold [] (KVStore.new n mtMaxSz sema) where
  writable := by
    intro i _
    have hpos := UInt64.le_iff_toNat_le.mp hsize
    have hzero : liveBytes ((KVStore.new n mtMaxSz sema).mt i) = 0 := liveBytes_of_empty rfl
    rw [hzero]
    exact hpos
  closed := by
    intro i hi
    cases hi

/-- A step that changes no live bytes and closes no memtable. -/
theorem BelowThreshold.quiet {history : List Event} {s s' : KVStore n} {e : Event}
    (h : BelowThreshold history s)
    (he : ∀ slot, lastPutTo slot (e :: history) = lastPutTo slot history)
    (hmt : ∀ i, (s'.mt i).store = (s.mt i).store ∧ (s'.mt i).mutable = (s.mt i).mutable ∧
      (s'.mt i).maxSizeInBytes = (s.mt i).maxSizeInBytes) :
    BelowThreshold (e :: history) s' := by
  have hbytes : ∀ i, liveBytes (s'.mt i) = liveBytes (s.mt i) := fun i => by
    rw [liveBytes, (hmt i).1, liveBytes]
  refine ⟨fun i hi => ?_, fun i hi => ?_⟩
  · rw [hbytes, (hmt i).2.2]
    exact h.writable i ((hmt i).2.1 ▸ hi)
  · rw [hbytes, (hmt i).2.2, he]
    exact h.closed i ((hmt i).2.1 ▸ hi)

/-- A write that keeps the bounds is one that leaves its memtable closed or
below the threshold. -/
theorem BelowThreshold.accepted_iff {history : List Event} {s s' : KVStore n} {d : Fin n}
    {key value : Bytes} {m : MemTable} (h : BelowThreshold history s)
    (ha : s.Accepted key value d m s') :
    BelowThreshold (.put key value .writePass d :: history) s' ↔
      (m.mutable = true → liveBytesAfter (s.mt d) key value < (s.mt d).maxSizeInBytes.toNat) := by
  obtain ⟨st, hstored⟩ := ha.stored
  have hbytes : liveBytes m = liveBytesAfter (s.mt d) key value := by
    rw [liveBytes, hstored.store, liveBytesAfter]
  rw [← hbytes, ← hstored.max]
  constructor
  · intro hnext hm
    have hlt := hnext.writable d (by rw [ha.mt_self, hm])
    rw [ha.mt_self] at hlt
    exact hlt
  · intro hlt
    refine ⟨fun i hi => ?_, fun i hi => ?_⟩
    · by_cases hid : i = d
      · rw [hid, ha.mt_self] at hi ⊢
        exact hlt hi
      · rw [ha.mt_of_ne hid] at hi ⊢
        exact h.writable i hi
    · by_cases hid : i = d
      · -- Only a first write closes, and it found the memtable below the threshold.
        rw [hid, ha.mt_self] at hi ⊢
        obtain ⟨hnew, _⟩ := hstored.closed.mp hi
        have hbefore := h.writable d hstored.was_mutable
        have hgrown : liveBytesAfter (s.mt d) key value =
            pairBytes key value+liveBytes (s.mt d) := totalWeight_insert_new pairBytes hnew value
        refine ⟨key, value, if_pos rfl, ?_⟩
        rw [hstored.max]
        omega
      · rw [ha.mt_of_ne hid] at hi ⊢
        have hlast : lastPutTo i (.put key value .writePass d :: history) =
            lastPutTo i history := if_neg fun heq => hid (Fin.ext heq).symm
        rw [hlast]
        exact h.closed i hi

/-- Ending a flush empties and reopens one memtable. -/
theorem BelowThreshold.cleared {history : List Event} {s : KVStore n} {t : Fin n}
    (h : BelowThreshold history s) (hpos : 0 < (s.mt t).maxSizeInBytes.toNat) :
    BelowThreshold (.endFlush t :: history) (s.cleared t) := by
  refine ⟨fun i hi => ?_, fun i hi => ?_⟩
  · rw [KVStore.cleared_mt] at hi ⊢
    split at hi
    · rw [if_pos ‹_›, liveBytes_of_empty rfl]
      exact hpos
    · rw [if_neg ‹_›]
      exact h.writable i hi
  · rw [KVStore.cleared_mt] at hi ⊢
    split at hi
    · cases hi
    · rw [if_neg ‹_›]
      exact h.closed i hi

/-- The bounds survive exactly the steps that keep them. -/
theorem belowThreshold_next {history : List Event} {s s' : KVStore n} {c c' : Fin n} {e : Event}
    (hs' : ∀ i, (s'.mt i).Accounted) (hpos : ∀ i, 0 < (s.mt i).maxSizeInBytes.toNat)
    (h : BelowThreshold history s) (he : Effect s c e s' c') (hforced : e ≠ .forceReadyToDie) :
    BelowThreshold (e :: history) s' ↔ KeepsBelow s e := by
  cases he with
  | refused _ => exact iff_of_true (h.quiet (fun _ => rfl) fun _ => ⟨rfl, rfl, rfl⟩) trivial
  | @accepted key value _ m _ ha =>
    obtain ⟨st, hstored⟩ := ha.stored
    have haccounted : m.Accounted := by
      have hacc := hs' c'
      rwa [ha.mt_self] at hacc
    have hclosed : m.mutable = false ↔ (s.mt c').store.lookup key = none ∧
        (s.mt c').maxSizeInBytes.toNat ≤ liveBytesAfter (s.mt c') key value%2 ^ 64 := by
      rw [hstored.closed_iff haccounted, UInt64.le_iff_toNat_le, UInt64.toNat_ofNat',
        liveBytesAfter]
    have hkeeps : KeepsBelow s (.put key value .writePass c') ↔
        liveBytesAfter (s.mt c') key value < (s.mt c').maxSizeInBytes.toNat ∨
          m.mutable = false := by
      rw [hclosed]
      constructor
      · exact fun hall => hall c' rfl
      · intro hc i hi
        rw [Fin.ext hi]
        exact hc
    rw [h.accepted_iff ha, hkeeps, or_comm, ← Bool.not_eq_true, imp_iff_not_or]
  | read _ => exact iff_of_true (h.quiet (fun _ => rfl) fun _ => ⟨rfl, rfl, rfl⟩) trivial
  | noTarget _ _ => exact iff_of_true (h.quiet (fun _ => rfl) fun _ => ⟨rfl, rfl, rfl⟩) trivial
  | @marked t _ _ _ =>
    refine iff_of_true (h.quiet (fun _ => rfl) fun i => ?_) trivial
    exact ⟨KVStore.marked_store s t i, KVStore.marked_mutable s t i,
      KVStore.marked_maxSizeInBytes s t i⟩
  | again _ => exact iff_of_true (h.quiet (fun _ => rfl) fun _ => ⟨rfl, rfl, rfl⟩) trivial
  | @cleared t _ _ => exact iff_of_true (h.cleared (hpos t)) trivial
  | forced => exact absurd rfl hforced

/-- In a store that is not being shut down, the bounds hold at all moments of a
run exactly when each write of the run keeps them. -/
theorem below_threshold_iff (hsize : 1 ≤ mtMaxSz) {history : List Event} {s : KVStore (n+1)}
    (hr : Run UnforcedStep (KVStore.new (n+1) mtMaxSz sema) history s) :
    Always UnforcedStep (KVStore.new (n+1) mtMaxSz sema) BelowThreshold history ↔
      EveryStep UnforcedStep (KVStore.new (n+1) mtMaxSz sema) KeepsBelow history := by
  refine always_iff_everyStep unforcedStep_deterministic (belowThreshold_new hsize) ?_ hr
  intro history s e s' hrun hbelow hstep
  have hrun' := run_of_unforced hrun
  obtain ⟨c, hb⟩ := base_of_run hrun'
  obtain ⟨c', he⟩ := hb.effect hstep.1
  have hpos : ∀ i, 0 < (s.mt i).maxSizeInBytes.toNat := fun i => by
    rw [(accounted_of_run hrun' i).2]
    exact UInt64.le_iff_toNat_le.mp hsize
  exact belowThreshold_next (fun i => (accounted_of_run (hrun'.next hstep.1) i).1) hpos hbelow he
    hstep.2

/-- A short value and its overwrite by a longer one, into a memtable of two bytes. -/
theorem overwrite_run :
    ∃ s, Run UnforcedStep (KVStore.new 2 2 (some false))
        [.put [1] [10, 11] .writePass 0, .put [1] [] .writePass 0] s ∧
      (s.mt 0).mutable = true ∧ liveBytes (s.mt 0) = 3 ∧ (s.mt 0).maxSizeInBytes = 2 := by
  have hr : Run UnforcedStep (KVStore.new 2 2 (some false))
      [.put [1] [10, 11] .writePass 0, .put [1] [] .writePass 0] _ :=
    (Run.start.next ⟨.put rfl rfl, nofun⟩).next ⟨.put rfl rfl, nofun⟩
  exact ⟨_, hr, rfl, rfl, rfl⟩

/-- The exact condition on that run. -/
theorem below_threshold_iff_overwrite :
    ∃ history s, Run UnforcedStep (KVStore.new 2 2 (some false)) history s ∧
      (Always UnforcedStep (KVStore.new 2 2 (some false)) BelowThreshold history ↔
        EveryStep UnforcedStep (KVStore.new 2 2 (some false)) KeepsBelow history) := by
  obtain ⟨s, hr, _⟩ := overwrite_run
  exact ⟨_, s, hr, below_threshold_iff (by decide) hr⟩

/-- Writable memtables are not always below their threshold: an overwrite that
grows past it leaves the memtable writable. -/
theorem overwrite_outgrows_threshold :
    ¬ ∀ (mtMaxSz : UInt64) (history : List Event) (s : KVStore 2), 1 ≤ mtMaxSz →
      Run UnforcedStep (KVStore.new 2 mtMaxSz (some false)) history s →
        BelowThreshold history s := by
  intro hall
  obtain ⟨s, hr, hmutable, hbytes, hmax⟩ := overwrite_run
  have hlt := (hall 2 _ s (by decide) hr).writable 0 hmutable
  rw [hbytes, hmax] at hlt
  exact absurd hlt (by decide)

end Threshold

end CapsuleDB.EnclaveAccounting

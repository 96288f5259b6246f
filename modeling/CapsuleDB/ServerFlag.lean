import CapsuleDB.ServerStages

/-!
# The memtable stage without a flush flag

The memtable stage constructs its own store and assigns nothing to the pointer
`flush_sema`. The store writes through the pointer when a first write closes a
memtable, so the stage survives exactly the command sequences whose first
writes keep the live bytes below the threshold.
-/

namespace CapsuleDB.ServerFlag

open LayeredMap EnclaveMemTable EnclaveKvs EnclaveKvsRun FifoStage ServerStages

/-- The pairs that the commands of a list leave behind, one per key. -/
def written (ctxs : List RequestContext) : AList fun _ : Bytes => Bytes :=
  ctxs.foldl (fun m ctx =>
    match ctx.body with
    | .cmd c => if c.type = cmdWrite then m.insert c.op0 c.op1 else m
    | _ => m) ∅

/-- A context that carries a read or a write. -/
def CarriesCommand (ctx : RequestContext) : Prop :=
  ∃ c, ctx.body = .cmd c ∧ (c.type = cmdRead ∨ c.type = cmdWrite)

/-- If the context writes a key that the earlier ones did not, the live bytes,
counted modulo the word size, stay below the threshold. -/
def StaysBelow (memtableSize : UInt64) (earlier : List RequestContext) (ctx : RequestContext) :
    Prop :=
  ∀ c, ctx.body = .cmd c → c.type = cmdWrite → (written earlier).lookup c.op0 = none →
    UInt64.ofNat (totalWeight pairBytes ((written earlier).insert c.op0 c.op1)) < memtableSize

/-- The store while its first memtable has not been closed. -/
structure Unclosed (memtableSize : UInt64) (m : AList fun _ : Bytes => Bytes) (s : KVStore 2) :
    Prop where
  /-- The first memtable is current. -/
  curMt : s.curMt = (0 : Fin 2)
  /-- No other memtable was used. -/
  usageQ : s.usageQ = [(0 : Fin 2)].map Fin.val
  /-- The flag was not assigned. -/
  flushSema : s.flushSema = none
  /-- The first memtable takes writes. -/
  mutable : (s.mt 0).mutable = true
  /-- It holds what was written. -/
  store : (s.mt 0).store = m
  /-- Its counter is exact modulo the word size. -/
  accounted : (s.mt 0).Accounted
  /-- Its threshold. -/
  max : (s.mt 0).maxSizeInBytes = memtableSize

/-- The store that the stage constructs. -/
theorem unclosed_new (memtableSize : UInt64) :
    Unclosed memtableSize ∅ (KVStore.new 2 memtableSize none) :=
  ⟨rfl, rfl, rfl, rfl, rfl, MemTable.new_accounted memtableSize, rfl⟩

/-- A write completes exactly when it does not close the memtable; then the
store holds the pair and is as before. -/
theorem Unclosed.put {memtableSize : UInt64} {m : AList fun _ : Bytes => Bytes} {s : KVStore 2}
    (hs : Unclosed memtableSize m s) (key value : Bytes) :
    ((m.lookup key = none →
        UInt64.ofNat (totalWeight pairBytes (m.insert key value)) < memtableSize) →
      ∃ s', s.put key value = .ok (s', .writePass) ∧
        Unclosed memtableSize (m.insert key value) s') ∧
    (¬ (m.lookup key = none →
        UInt64.ofNat (totalWeight pairBytes (m.insert key value)) < memtableSize) →
      s.put key value = .error .unsetSema) := by
  obtain ⟨t, st, hput⟩ := MemTable.put_ok_of_mutable hs.mutable key value
  have hstored := MemTable.put_stored hput
  have hstore : t.store = m.insert key value := by rw [hstored.store, hs.store]
  have haccounted : t.Accounted := hstored.accounted hs.accounted
  have hclosed : t.mutable = false ↔ ¬ (m.lookup key = none →
      UInt64.ofNat (totalWeight pairBytes (m.insert key value)) < memtableSize) := by
    rw [hstored.closed_iff haccounted, hs.store, hs.max, Classical.not_imp, UInt64.not_lt]
  have hput' : s.put key value = if t.mutable then .ok (s.setTable (0 : Fin 2) t, .writePass)
      else .error .unsetSema := by
    unfold KVStore.put
    rw [hs.curMt, KVStore.table_val]
    dsimp only
    rw [if_pos hs.mutable, KVStore.putCurrent_eq hs.curMt hput,
      KVStore.setSema_of_none (s := s.setTable (0 : Fin 2) t) hs.flushSema]
    rfl
  constructor
  · intro hbelow
    have hopen : t.mutable = true := by
      cases hm : t.mutable with
      | true => rfl
      | false => exact absurd hbelow (hclosed.mp hm)
    refine ⟨s.setTable (0 : Fin 2) t, by rw [hput', if_pos hopen], ?_⟩
    have hmt : (s.setTable (0 : Fin 2) t).mt 0 = t := by
      rw [KVStore.setTable_mt, Function.update_self]
    refine ⟨hs.curMt, hs.usageQ, hs.flushSema, ?_, ?_, ?_, ?_⟩
    · rw [hmt, hopen]
    · rw [hmt, hstore]
    · rw [hmt]
      exact haccounted
    · rw [hmt, hstored.max, hs.max]
  · intro habove
    rw [hput', hclosed.mpr habove]
    rfl

/-- A read completes. -/
theorem Unclosed.get {memtableSize : UInt64} {m : AList fun _ : Bytes => Bytes} {s : KVStore 2}
    (hs : Unclosed memtableSize m s) (key value : Bytes) : ∃ r, s.get key value = .ok r :=
  ⟨_, KVStore.get_eq hs.usageQ (List.cons_ne_nil _ _) key value⟩

/-- The pairs left behind after one more context. -/
theorem written_append (earlier : List RequestContext) {ctx : RequestContext} {c : Cmd}
    (h : ctx.body = .cmd c) :
    written (earlier ++ [ctx]) =
      if c.type = cmdWrite then (written earlier).insert c.op0 c.op1 else written earlier := by
  simp only [written, List.foldl_append, List.foldl_cons, List.foldl_nil, h]

/-- The memtable stage, on the store it constructs and with the flag unset,
applies all commands of a list exactly when no first write of a key brings the
live bytes to the threshold. -/
theorem memtable_stage_completes_iff (cfg : Config) (ctxs : List RequestContext)
    (hctxs : ∀ ctx ∈ ctxs, CarriesCommand ctx) :
    (∃ st' replies, enclaveMemtableStage.run (memtableStart cfg none) ctxs = .ok (st', replies)) ↔
      ∀ earlier ctx later, ctxs = earlier ++ ctx :: later →
        StaysBelow cfg.memtableSize earlier ctx := by
  refine Stage.run_ok_iff
    (I := fun earlier (st : MemtableState) =>
      Unclosed cfg.memtableSize (written earlier) st.kvs)
    (unclosed_new cfg.memtableSize) ?_ ?_
  · intro earlier st ctx hctx hI hbelow
    obtain ⟨c, hbody, htype⟩ := hctxs ctx hctx
    rw [enclaveMemtableStage_eq hbody, answer, written_append earlier hbody]
    by_cases hread : c.type = cmdRead
    · obtain ⟨r, hget⟩ := hI.get c.op0 []
      have hwrite : c.type ≠ cmdWrite := by rw [hread]; decide
      rw [if_pos hread, if_neg hwrite, hget]
      exact ⟨_, _, rfl, hI⟩
    · have hwrite := htype.resolve_left hread
      obtain ⟨s', hput, hI'⟩ := (hI.put c.op0 c.op1).1 (hbelow c hbody hwrite)
      rw [if_neg hread, if_pos hwrite, if_pos hwrite, hput]
      exact ⟨_, _, rfl, hI'⟩
  · intro earlier st ctx hctx hI habove
    obtain ⟨c, hbody, _⟩ := hctxs ctx hctx
    obtain ⟨hwrite, hfull⟩ : c.type = cmdWrite ∧ ¬ ((written earlier).lookup c.op0 = none →
        UInt64.ofNat (totalWeight pairBytes ((written earlier).insert c.op0 c.op1)) <
          cfg.memtableSize) := by
      by_contra hno
      refine habove fun c' hbody' hwrite hnone => ?_
      rw [hbody] at hbody'
      cases hbody'
      by_contra hge
      exact hno ⟨hwrite, fun h => hge (h hnone)⟩
    have hread : c.type ≠ cmdRead := by rw [hwrite]; decide
    rw [enclaveMemtableStage_eq hbody, answer, if_neg hread, if_pos hwrite,
      (hI.put c.op0 c.op1).2 hfull]
    exact ⟨_, rfl⟩

/-- A context carrying the write of one pair. -/
def writeContext (key value : Bytes) : RequestContext :=
  ⟨List.replicate 16 0, 0, ⟨20, []⟩, .cmd ⟨cmdWrite, key, value⟩, 0, 0, 0⟩

/-- The exact condition on two writes of one key. -/
theorem memtable_stage_completes_iff_twice :
    (∃ st' replies, enclaveMemtableStage.run (memtableStart ⟨100, 1000, 8⟩ none)
        [writeContext [1] [10], writeContext [1] [20]] = .ok (st', replies)) ↔
      ∀ earlier ctx later, [writeContext [1] [10], writeContext [1] [20]] =
        earlier ++ ctx :: later → StaysBelow 8 earlier ctx :=
  memtable_stage_completes_iff ⟨100, 1000, 8⟩ _ fun ctx hctx => by
    simp only [List.mem_cons, List.not_mem_nil, or_false] at hctx
    rcases hctx with rfl | rfl <;> exact ⟨_, rfl, .inr rfl⟩

/-- The stage does not always complete: the first write that fills a memtable
assigns through the unset pointer. -/
theorem unset_flag_written :
    ¬ ∀ (cfg : Config) (ctxs : List RequestContext), (∀ ctx ∈ ctxs, CarriesCommand ctx) →
      ∃ st' replies, enclaveMemtableStage.run (memtableStart cfg none) ctxs =
        .ok (st', replies) := by
  intro hall
  obtain ⟨st', replies, hrun⟩ := hall ⟨100, 1000, 2⟩ [writeContext [1] [10]] fun ctx hctx => by
    rw [List.mem_singleton.mp hctx]
    exact ⟨_, rfl, .inr rfl⟩
  have hfault : enclaveMemtableStage.run (memtableStart ⟨100, 1000, 2⟩ none)
      [writeContext [1] [10]] = .error .unsetSema := by rfl
  rw [hfault] at hrun
  cases hrun

end CapsuleDB.ServerFlag

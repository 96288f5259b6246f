import CapsuleDB.LabelledRun
import CapsuleDB.EnclaveKvs

/-!
# Runs of the enclave store

A run applies the operations of the store in any order; ending a flush is
allowed only while there is a target. Each event keeps the operation with its
outcome, and the history lists events newest first. The shape invariant ties
the current index, the recency queue, the writable flags and the flush target
together for the two memtables of the source.
-/

namespace CapsuleDB.EnclaveKvsRun

open LabelledRun LayeredMap EnclaveMemTable EnclaveKvs

/-- The operations of the store. -/
inductive Op
  | put (key value : Bytes)
  | get (key : Bytes)
  | initFlush
  | endFlush
  | forceReadyToDie

/-- A completed operation. A write records the memtable that is current after
it, and the end of a flush records the memtable it emptied. -/
inductive Event
  | put (key value : Bytes) (status : KVStatus) (slot : ℕ)
  | get (key : Bytes) (status : KVStatus) (value : Bytes)
  | initFlush (dump : Option (List (Bytes × Bytes)))
  | endFlush (target : ℕ)
  | forceReadyToDie

variable {n : ℕ}

/-- One completed operation, with any contents of the out-parameter of a read. -/
inductive Step : KVStore n → Event → KVStore n → Prop
  | put {s s' : KVStore n} {key value : Bytes} {st : KVStatus} {slot : ℕ} :
      s.put key value = .ok (s', st) → slot = s'.curMt → Step s (.put key value st slot) s'
  | get {s : KVStore n} {key before found : Bytes} {st : KVStatus} :
      s.get key before = .ok (st, found) → Step s (.get key st found) s
  | initFlush {s s' : KVStore n} {dump : Option (List (Bytes × Bytes))} :
      s.initFlush = .ok (s', dump) → Step s (.initFlush dump) s'
  | endFlush {s s' : KVStore n} {target : ℕ} : s.flushTarget = target →
      s.endFlush = .ok s' → Step s (.endFlush target) s'
  | forceReadyToDie {s : KVStore n} : Step s .forceReadyToDie s.forceReadyToDie

/-- An event determines the next state. -/
theorem step_deterministic : Deterministic (Step (n := n)) := by
  intro s e t u ht hu
  cases ht with
  | put h _ => cases hu with | put h' _ => rw [h] at h'; cases h'; rfl
  | get _ => cases hu with | get _ => rfl
  | initFlush h => cases hu with | initFlush h' => rw [h] at h'; cases h'; rfl
  | endFlush _ h => cases hu with | endFlush _ h' => rw [h] at h'; cases h'; rfl
  | forceReadyToDie => cases hu with | forceReadyToDie => rfl

/-- A completed operation of a store that is not being shut down. -/
def UnforcedStep (s : KVStore n) (e : Event) (s' : KVStore n) : Prop :=
  Step s e s' ∧ e ≠ .forceReadyToDie

/-- An event determines the next state. -/
theorem unforcedStep_deterministic : Deterministic (UnforcedStep (n := n)) :=
  fun _ _ _ _ ht hu => step_deterministic ht.1 hu.1

/-- A run without a shutdown is a run. -/
theorem run_of_unforced {init s : KVStore n} {history : List Event}
    (hr : Run UnforcedStep init history s) : Run Step init history s :=
  hr.weaken fun _ _ _ h => h.1

/-- Perform one operation, when it is allowed and completes. -/
def perform (s : KVStore n) : Op → Option (Event × KVStore n)
  | .put key value =>
    match s.put key value with
    | .error _ => none
    | .ok (s', st) => some (.put key value st s'.curMt, s')
  | .get key =>
    match s.get key [] with
    | .error _ => none
    | .ok (st, found) => some (.get key st found, s)
  | .initFlush =>
    match s.initFlush with
    | .error _ => none
    | .ok (s', dump) => some (.initFlush dump, s')
  | .endFlush =>
    if 0 ≤ s.flushTarget then
      match s.endFlush with
      | .error _ => none
      | .ok s' => some (.endFlush s.flushTarget.toNat, s')
    else none
  | .forceReadyToDie => some (.forceReadyToDie, s.forceReadyToDie)

/-- A performed operation is a step. -/
theorem step_of_perform ⦃s : KVStore n⦄ ⦃op : Op⦄ ⦃e : Event⦄ ⦃s' : KVStore n⦄
    (h : perform s op = some (e, s')) : Step s e s' := by
  cases op with
  | put key value =>
    simp only [perform] at h
    split at h <;> cases h
    next hput => exact .put hput rfl
  | get key =>
    simp only [perform] at h
    split at h <;> cases h
    next hget => exact .get hget
  | initFlush =>
    simp only [perform] at h
    split at h <;> cases h
    next hflush => exact .initFlush hflush
  | endFlush =>
    simp only [perform] at h
    split at h
    · next hpos =>
      split at h <;> cases h
      next hflush => exact .endFlush (Int.toNat_of_nonneg hpos).symm hflush
    · cases h
  | forceReadyToDie =>
    simp only [perform] at h
    cases h
    exact .forceReadyToDie

/-- The value of the most recent accepted write of a key. -/
def lastWrite (key : Bytes) : List Event → Option Bytes
  | [] => none
  | .put k v .writePass _ :: older => if k = key then some v else lastWrite key older
  | _ :: older => lastWrite key older

/-- The pairs dumped by the most recent call of `InitFlush`. -/
def lastDump : List Event → Option (List (Bytes × Bytes))
  | [] => none
  | .initFlush dump :: _ => dump
  | _ :: older => lastDump older

/-- The pair was in the dump that the most recent `InitFlush` before some
completed `EndFlush` produced, and its key was not accepted again since. -/
def FlushedSince (key value : Bytes) : List Event → Prop
  | [] => False
  | .endFlush _ :: older =>
    (∃ dump, lastDump older = some dump ∧ (key, value) ∈ dump) ∨ FlushedSince key value older
  | .put k _ .writePass _ :: older => k ≠ key ∧ FlushedSince key value older
  | _ :: older => FlushedSince key value older

/-- What holds of any number of memtables: the current index is in range, a
writable memtable other than the current one is empty, and exactly the flush
target is marked and closed. -/
structure Base (s : KVStore n) (c : Fin n) : Prop where
  /-- The current index is in range. -/
  cur : s.curMt = c
  /-- Only the current memtable can be writable and hold pairs. -/
  spare : ∀ i, i ≠ c → (s.mt i).mutable = true → (s.mt i).store = ∅
  /-- The flush flag marks exactly the target, which is closed. -/
  target : (s.flushTarget = -1 ∧ ∀ i, (s.mt i).onFlush = false) ∨
    ∃ t : Fin n, s.flushTarget = t.val ∧ (s.mt t).mutable = false ∧
      ∀ i, (s.mt i).onFlush = true ↔ i = t

/-- A target that is in use is a memtable index, of a closed memtable. -/
theorem Base.target_of_nonneg {s : KVStore n} {c : Fin n} (hb : Base s c)
    (h : 0 ≤ s.flushTarget) : ∃ t : Fin n, s.flushTarget = t.val ∧ (s.mt t).mutable = false := by
  rcases hb.target with ⟨hneg, _⟩ | ⟨t, ht, hm, _⟩
  · omega
  · exact ⟨t, ht, hm⟩

/-- The fresh store. -/
theorem base_new (n : ℕ) (mtMaxSz : UInt64) (sema : Option Bool) :
    Base (KVStore.new (n+1) mtMaxSz sema) 0 :=
  ⟨rfl, fun _ _ _ => rfl, .inl ⟨rfl, fun _ => rfl⟩⟩

/-- Closed memtables stay out of the way of an accepted write: it leaves the
current memtable only when that one is closed. -/
theorem Base.closed_of_ne {s s' : KVStore n} {c d : Fin n} {key value : Bytes} {m : MemTable}
    (hb : Base s c) (ha : s.Accepted key value d m s') (hne : c ≠ d) :
    (s.mt c).mutable = false := by
  rcases ha.slot with ⟨hcur, _⟩ | ⟨hclosed, _⟩
  · exact absurd (Fin.val_inj.mp (hb.cur.symm.trans hcur)) hne
  · exact hclosed c hb.cur

/-- A memtable an accepted write switches to was empty. -/
theorem Base.spare_of_ne {s s' : KVStore n} {c d : Fin n} {key value : Bytes} {m : MemTable}
    (hb : Base s c) (ha : s.Accepted key value d m s') (hne : c ≠ d) : (s.mt d).store = ∅ := by
  obtain ⟨_, hstored⟩ := ha.stored
  exact hb.spare d hne.symm hstored.was_mutable

/-- An accepted write moves the current index to the memtable written. -/
theorem Base.accepted {s s' : KVStore n} {c d : Fin n} {key value : Bytes} {m : MemTable}
    (hb : Base s c) (ha : s.Accepted key value d m s') : Base s' d := by
  obtain ⟨st, hstored⟩ := ha.stored
  refine ⟨ha.curMt, fun i hi hm => ?_, ?_⟩
  · rw [ha.mt_of_ne hi] at hm ⊢
    by_cases hic : i = c
    · subst hic
      rw [hb.closed_of_ne ha hi] at hm
      cases hm
    · exact hb.spare i hic hm
  · have hflag : ∀ i, (s'.mt i).onFlush = (s.mt i).onFlush := by
      intro i
      by_cases hi : i = d
      · rw [hi, ha.mt_self, hstored.onFlush]
      · rw [ha.mt_of_ne hi]
    simp only [hflag, ha.flushTarget]
    refine hb.target.imp_right fun ⟨t, ht, hm, hon⟩ => ⟨t, ht, ?_, hon⟩
    -- The target is closed, so it is not the memtable that took the write.
    rw [ha.mt_of_ne (ha.ne_of_closed hm), hm]

/-- Marking a closed memtable as the target. -/
theorem Base.marked {s : KVStore n} {c t : Fin n} (hb : Base s c) (hneg : s.flushTarget < 0)
    (hm : (s.mt t).mutable = false) : Base (s.marked t) c := by
  have hoff : ∀ i, (s.mt i).onFlush = false := by
    rcases hb.target with ⟨_, hoff⟩ | ⟨u, hu, _⟩
    · exact hoff
    · omega
  refine ⟨hb.cur, fun i hi => ?_, .inr ⟨t, rfl, ?_, fun i => ?_⟩⟩
  · rw [KVStore.marked_mutable, KVStore.marked_store]
    exact hb.spare i hi
  · rw [KVStore.marked_mutable, hm]
  · rw [KVStore.marked_onFlush, hoff i]
    simp

/-- Emptying and reopening the target. -/
theorem Base.cleared {s : KVStore n} {c t : Fin n} (hb : Base s c)
    (ht : s.flushTarget = t.val) : Base (s.cleared t) c := by
  refine ⟨hb.cur, fun i hi hm => ?_, .inl ⟨rfl, fun i => ?_⟩⟩
  · rw [KVStore.cleared_store]
    split
    · rfl
    · next hit =>
      rw [KVStore.cleared_mutable, if_neg hit] at hm
      exact hb.spare i hi hm
  · rw [KVStore.cleared_onFlush]
    split
    · rfl
    · next hit =>
      rcases hb.target with ⟨hneg, _⟩ | ⟨u, hu, _, hon⟩
      · omega
      · rw [ht, Nat.cast_inj, Fin.val_inj] at hu
        subst hu
        simpa [hit] using hon i

/-- Closing every memtable. -/
theorem Base.forced {s : KVStore n} {c : Fin n} (hb : Base s c) : Base s.forceReadyToDie c := by
  refine ⟨hb.cur, fun i _ hm => ?_, ?_⟩
  · cases hm
  · exact hb.target.imp_right fun ⟨t, ht, _, hon⟩ => ⟨t, ht, rfl, hon⟩

/-- All that a step from a state with current memtable `c` can do, with the
memtable that is current afterwards. -/
inductive Effect (s : KVStore n) (c : Fin n) : Event → KVStore n → Fin n → Prop
  | refused {key value : Bytes} (closed : ∀ i, (s.mt i).mutable = false) :
      Effect s c (.put key value .waitFlush c) { s with flushSema := some true } c
  | accepted {key value : Bytes} {d : Fin n} {m : MemTable} {s' : KVStore n}
      (write : s.Accepted key value d m s') : Effect s c (.put key value .writePass d) s' d
  | read {key before found : Bytes} {st : KVStatus} (get : s.get key before = .ok (st, found)) :
      Effect s c (.get key st found) s c
  | noTarget (neg : s.flushTarget < 0) (busy : ∀ i, (s.mt i).initFlush.2 = false) :
      Effect s c (.initFlush none) s c
  | marked {t : Fin n} (neg : s.flushTarget < 0) (closed : (s.mt t).mutable = false)
      (first : ∀ j < t, (s.mt j).initFlush.2 = false) :
      Effect s c (.initFlush (some (s.mt t).dump)) (s.marked t) c
  | again {t : Fin n} (target : s.flushTarget = t.val) :
      Effect s c (.initFlush (some (s.mt t).dump)) s c
  | cleared {t : Fin n} (target : s.flushTarget = t.val) (closed : (s.mt t).mutable = false) :
      Effect s c (.endFlush t) (s.cleared t) c
  | forced : Effect s c .forceReadyToDie s.forceReadyToDie c

/-- Every step has one of these effects. -/
theorem Base.effect {s s' : KVStore n} {c : Fin n} {e : Event} (hb : Base s c)
    (h : Step s e s') : ∃ c', Effect s c e s' c' := by
  cases h with
  | put hput hslot =>
    rcases KVStore.put_cases hb.cur hput with ⟨rfl, hclosed, rfl⟩ | ⟨rfl, d, m, ha⟩
    · rw [hslot.trans hb.cur]
      exact ⟨c, .refused hclosed⟩
    · rw [hslot.trans ha.curMt]
      exact ⟨d, .accepted ha⟩
  | get hget => exact ⟨c, .read hget⟩
  | initFlush hflush =>
    rcases KVStore.initFlush_cases hflush with ⟨hneg, hnone, rfl, rfl⟩ |
      ⟨t, hneg, hm, _, hfirst, rfl, rfl⟩ | ⟨t, ht, rfl, rfl⟩
    · exact ⟨c, .noTarget hneg hnone⟩
    · exact ⟨c, .marked hneg hm hfirst⟩
    · exact ⟨c, .again ht⟩
  | endFlush htarget hflush =>
    obtain ⟨t, ht, hm⟩ := hb.target_of_nonneg (by omega)
    rw [ht, Nat.cast_inj] at htarget
    subst htarget
    rw [KVStore.endFlush_cases ht hflush]
    exact ⟨c, .cleared ht hm⟩
  | forceReadyToDie => exact ⟨c, .forced⟩

/-- The base invariant survives every effect. -/
theorem Base.next {s s' : KVStore n} {c c' : Fin n} {e : Event} (hb : Base s c)
    (h : Effect s c e s' c') : Base s' c' := by
  cases h with
  | refused _ => exact ⟨hb.cur, hb.spare, hb.target⟩
  | accepted ha => exact hb.accepted ha
  | read _ => exact hb
  | noTarget _ _ => exact hb
  | marked hneg hm _ => exact hb.marked hneg hm
  | again _ => exact hb
  | cleared ht _ => exact hb.cleared ht
  | forced => exact hb.forced

/-- The base invariant survives every step. -/
theorem Base.step {s s' : KVStore n} {c : Fin n} {e : Event} (hb : Base s c)
    (h : Step s e s') : ∃ c', Base s' c' := by
  obtain ⟨c', he⟩ := hb.effect h
  exact ⟨c', hb.next he⟩

/-- Every run keeps the base invariant. -/
theorem base_of_run {mtMaxSz : UInt64} {sema : Option Bool} {history : List Event}
    {s : KVStore (n+1)} (hr : Run Step (KVStore.new (n+1) mtMaxSz sema) history s) :
    ∃ c, Base s c := by
  refine hr.invariant (I := fun _ s => ∃ c, Base s c) ⟨0, base_new n mtMaxSz sema⟩ ?_
  rintro history s e s' _ ⟨c, hb⟩ hstep
  exact hb.step hstep

/-- A valid flag stays valid. -/
theorem Effect.flag {s s' : KVStore n} {c c' : Fin n} {e : Event} (h : Effect s c e s' c')
    (hs : s.flushSema.isSome = true) : s'.flushSema.isSome = true := by
  cases h with
  | accepted ha =>
    rw [ha.flushSema]
    split
    · exact hs
    · rfl
  | refused _ => rfl
  | cleared _ _ => rfl
  | read _ => exact hs
  | noTarget _ _ => exact hs
  | marked _ _ _ => exact hs
  | again _ => exact hs
  | forced => exact hs

/-- Every run on a valid flag keeps the flag valid. -/
theorem flag_of_run {mtMaxSz : UInt64} {sema : Bool} {history : List Event}
    {s : KVStore (n+1)} (hr : Run Step (KVStore.new (n+1) mtMaxSz (some sema)) history s) :
    s.flushSema.isSome = true := by
  refine hr.invariant (I := fun _ s => s.flushSema.isSome = true) rfl ?_
  intro history s e s' hr hflag hstep
  obtain ⟨c, hb⟩ := base_of_run hr
  obtain ⟨c', he⟩ := hb.effect hstep
  exact he.flag hflag

/-- An accepted write updates the layer of the memtable it went to. -/
theorem layer_accepted {s s' : KVStore n} {d : Fin n} {key value : Bytes} {m : MemTable}
    (ha : s.Accepted key value d m s') :
    s'.layer d = Function.update (s.layer d) key (some value) := by
  obtain ⟨st, hstored⟩ := ha.stored
  funext k
  rw [KVStore.layer, ha.mt_self]
  exact congrFun hstored.lookup_eq k

/-- An accepted write leaves the other layers alone. -/
theorem layer_accepted_of_ne {s s' : KVStore n} {d i : Fin n} {key value : Bytes} {m : MemTable}
    (ha : s.Accepted key value d m s') (hi : i ≠ d) : s'.layer i = s.layer i := by
  funext k
  rw [KVStore.layer, ha.mt_of_ne hi]
  rfl

/-- A memtable that holds nothing has an empty layer. -/
theorem layer_of_empty {s : KVStore n} {i : Fin n} (h : (s.mt i).store = ∅) (key : Bytes) :
    s.layer i key = none := by
  rw [KVStore.layer, h, AList.lookup_empty]

/-- Clearing the target empties its layer and no other. -/
theorem layer_cleared (s : KVStore n) (t i : Fin n) (key : Bytes) :
    (s.cleared t).layer i key = if i = t then none else s.layer i key := by
  rw [KVStore.layer, KVStore.cleared_store]
  split
  · exact AList.lookup_empty key
  · rfl

/-- Marking a memtable changes no layer. -/
theorem layer_marked (s : KVStore n) (t i : Fin n) : (s.marked t).layer i = s.layer i := by
  funext k
  rw [KVStore.layer, KVStore.marked_store]
  rfl

section TwoMemtables

/-- The shape of the store of the source, which has two memtables: the recency
queue ends in the current index, and lists the other one unless that one is
empty. -/
structure Shape (s : KVStore 2) (c : Fin 2) : Prop extends Base s c where
  /-- The queue holds one or both indices, the current one last. -/
  queue : (s.usageQ = [c.val] ∧ ∀ i, i ≠ c → (s.mt i).store = ∅) ∨
    ∃ o : Fin 2, o ≠ c ∧ s.usageQ = [o.val, c.val]

/-- Two memtables other than a third one are the same. -/
theorem eq_of_ne_ne {c o o' : Fin 2} (h : o ≠ c) (h' : o' ≠ c) : o = o' := by
  rw [Ne, Fin.ext_iff] at h h'
  rw [Fin.ext_iff]
  omega

/-- There is a memtable other than the current one. -/
theorem exists_other (c : Fin 2) : ∃ o, o ≠ c :=
  ⟨c.rev, by rw [Ne, Fin.ext_iff, Fin.val_rev]; omega⟩

/-- The fresh store. -/
theorem shape_new (mtMaxSz : UInt64) (sema : Option Bool) :
    Shape (KVStore.new 2 mtMaxSz sema) 0 :=
  ⟨base_new 1 mtMaxSz sema, .inl ⟨rfl, fun _ _ => rfl⟩⟩

/-- The shape survives every effect. -/
theorem Shape.next {s s' : KVStore 2} {c c' : Fin 2} {e : Event} (hs : Shape s c)
    (h : Effect s c e s' c') : Shape s' c' := by
  refine ⟨hs.toBase.next h, ?_⟩
  cases h with
  | refused _ => exact hs.queue
  | accepted ha =>
    by_cases hcd : c = c'
    · -- The write stayed where it was.
      subst hcd
      have hq : s'.usageQ = s.usageQ := by
        rcases ha.slot with ⟨_, hq⟩ | ⟨hclosed, hfind, _⟩
        · exact hq
        · have hm := (KVStore.findMutable_eq_some hfind).1
          rw [hclosed c hs.cur] at hm
          cases hm
      rw [hq]
      refine hs.queue.imp_left fun ⟨hone, hempty⟩ => ⟨hone, fun i hi => ?_⟩
      rw [ha.mt_of_ne hi]
      exact hempty i hi
    · -- The write switched memtables, and the queue keeps the two last indices.
      refine .inr ⟨c, hcd, ?_⟩
      rcases ha.slot with ⟨hcur, _⟩ | ⟨_, _, hq⟩
      · exact absurd (Fin.val_inj.mp (hs.cur.symm.trans hcur)) hcd
      · rw [hq]
        rcases hs.queue with ⟨hone, _⟩ | ⟨o, _, htwo⟩
        · rw [hone]
          rfl
        · rw [htwo]
          rfl
  | read _ => exact hs.queue
  | noTarget _ _ => exact hs.queue
  | @marked t _ _ _ =>
    refine hs.queue.imp_left fun ⟨hone, hempty⟩ => ⟨hone, fun i hi => ?_⟩
    rw [KVStore.marked_store]
    exact hempty i hi
  | again _ => exact hs.queue
  | @cleared t _ _ =>
    refine hs.queue.imp_left fun ⟨hone, hempty⟩ => ⟨hone, fun i hi => ?_⟩
    rw [KVStore.cleared_store]
    split
    · rfl
    · exact hempty i hi
  | forced => exact hs.queue

/-- `Get` searches the current memtable and then the other one. -/
theorem Shape.get_eq {s : KVStore 2} {c o : Fin 2} (hs : Shape s c) (ho : o ≠ c)
    (key before : Bytes) :
    s.get key before =
      .ok (match find [s.layer c, s.layer o] key with
        | some found => (.readPass, found)
        | none => (.readFail, before)) := by
  rcases hs.queue with ⟨hone, hempty⟩ | ⟨o', ho', htwo⟩
  · have hnone : find [s.layer o] key = none := by
      rw [find_of_top_none (layer_of_empty (hempty o ho) key), find_nil]
    have hone' : find ([c].reverse.map s.layer) key = find [s.layer c, s.layer o] key := by
      rw [find_cons, hnone]
      exact find_cons _ _ _
    rw [← hone']
    exact KVStore.get_eq (q := [c]) hone (List.cons_ne_nil _ _) key before
  · rw [eq_of_ne_ne ho ho']
    exact KVStore.get_eq (q := [o', c]) htwo (List.cons_ne_nil _ _) key before

/-- A read passes exactly when the current memtable answers, or is silent and
the other one answers. -/
theorem Shape.get_pass_iff {s : KVStore 2} {c o : Fin 2} (hs : Shape s c) (ho : o ≠ c)
    (key before found : Bytes) :
    s.get key before = .ok (.readPass, found) ↔
      s.layer c key = some found ∨ s.layer c key = none ∧ s.layer o key = some found := by
  rw [hs.get_eq ho, find_cons, find_cons, find_nil]
  cases s.layer c key <;> cases s.layer o key <;> simp

/-- Every run keeps the shape. -/
theorem shape_of_run {mtMaxSz : UInt64} {sema : Option Bool} {history : List Event}
    {s : KVStore 2} (hr : Run Step (KVStore.new 2 mtMaxSz sema) history s) :
    ∃ c, Shape s c := by
  refine hr.invariant (I := fun _ s => ∃ c, Shape s c) ⟨0, shape_new mtMaxSz sema⟩ ?_
  rintro history s e s' _ ⟨c, hs⟩ hstep
  obtain ⟨c', he⟩ := hs.effect hstep
  exact ⟨c', hs.next he⟩

end TwoMemtables

end CapsuleDB.EnclaveKvsRun

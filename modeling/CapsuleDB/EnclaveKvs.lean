import Mathlib.Data.Fin.Tuple.Basic
import Mathlib.Data.List.Basic
import CapsuleDB.EnclaveMemTable

/-!
# The enclave key-value store

The store owns a fixed array of memtables, the index of the current one, a
recency queue of indices that reads search from its back, and the index of the
memtable being flushed. The array length stands for the macro of the source.
Every operation is translated with its faults; the theorems below say once
what each operation can do, and later files never unfold one again.
-/

namespace CapsuleDB.EnclaveKvs

open LayeredMap EnclaveMemTable

/-- The fields of the `KVStore` class, for `MT_NUM = n`. -/
structure KVStore (n : ℕ) where
  /-- The memtable that takes writes. -/
  curMt : ℕ
  /-- Indices in the order the memtables were switched to, oldest first. -/
  usageQ : List ℕ
  /-- The memtable being flushed, or a negative number. -/
  flushTarget : ℤ
  /-- The array of memtables. -/
  mt : Fin n → MemTable
  /-- The flag `flush_sema` points to; absent until the pointer is assigned. -/
  flushSema : Option Bool

namespace KVStore

variable {n : ℕ}

/-- The constructor, with whatever is assigned to the public pointer afterwards. -/
def new (n : ℕ) (mtMaxSz : UInt64) (flushSema : Option Bool) : KVStore n :=
  ⟨0, [0], -1, fun _ => (MemTable.new mtMaxSz).setMutable true, flushSema⟩

/-- Indexing `mt_`. -/
def table (s : KVStore n) (i : ℕ) : Except Fault MemTable :=
  if h : i < n then .ok (s.mt ⟨i, h⟩) else .error .badIndex

/-- The array after one of its memtables changed. -/
def setTable (s : KVStore n) (i : ℕ) (m : MemTable) : KVStore n :=
  { s with mt := fun j => if j.val = i then m else s.mt j }

/-- `*flush_sema = value`. -/
def setSema (s : KVStore n) (value : Bool) : Except Fault (KVStore n) :=
  match s.flushSema with
  | none => .error .unsetSema
  | some _ => .ok { s with flushSema := some value }

/-- `while (usage_q.size() > MT_NUM) usage_q.pop_front()`. -/
def popExcess (n : ℕ) : List ℕ → List ℕ
  | [] => []
  | i :: q => if n < (i :: q).length then popExcess n q else i :: q

/-- The lowest index of a writable memtable. -/
def findMutable (s : KVStore n) : Option (Fin n) :=
  (List.finRange n).find? fun i => (s.mt i).mutable

/-- Make memtable `i` current and put it at the back of the recency queue. -/
def switchTo (s : KVStore n) (i : ℕ) : KVStore n :=
  { s with curMt := i, usageQ := popExcess n (s.usageQ ++ [i]) }

/-- The second half of `Put`: write to the current memtable, and raise the
flag when this write has just filled it. -/
def putCurrent (s : KVStore n) (key value : Bytes) : Except Fault (KVStore n × KVStatus) :=
  match s.table s.curMt with
  | .error e => .error e
  | .ok m =>
    match m.put key value with
    | .error e => .error e
    | .ok (m', .justFull) => ((s.setTable s.curMt m').setSema true).map fun t => (t, .writePass)
    | .ok (m', ret) => .ok (s.setTable s.curMt m', ret)

/-- `Put`. A full current memtable is replaced by the first writable one;
with none left the write is refused and the host is told to flush. -/
def put (s : KVStore n) (key value : Bytes) : Except Fault (KVStore n × KVStatus) :=
  match s.table s.curMt with
  | .error e => .error e
  | .ok m =>
    if m.mutable then s.putCurrent key value
    else
      match s.findMutable with
      | some i => (s.switchTo i).putCurrent key value
      | none => (s.setSema true).map fun t => (t, .waitFlush)

/-- The search loop of `Get` over the remaining queue, newest index first. -/
def search (s : KVStore n) (key value : Bytes) :
    List ℕ → KVStatus → Except Fault (KVStatus × Bytes)
  | [], ret => .ok (ret, value)
  | idx :: rest, _ =>
    match s.table (idx%n) with
    | .error e => .error e
    | .ok m =>
      match m.get key value with
      | (.readPass, found) => .ok (.readPass, found)
      | (ret, _) => search s key value rest ret

/-- `Get`, with the contents of its out-parameter. The status starts as a
pass, so an empty queue would answer a pass without a value. -/
def get (s : KVStore n) (key value : Bytes) : Except Fault (KVStatus × Bytes) :=
  s.search key value s.usageQ.reverse .readPass

/-- The scan of `InitFlush`: the lowest index that agrees to be flushed. -/
def pickTarget (s : KVStore n) : KVStore n :=
  match (List.finRange n).find? fun i => (s.mt i).initFlush.2 with
  | some i => { s.setTable i (s.mt i).initFlush.1 with flushTarget := i.val }
  | none => s

/-- `InitFlush`, with the pairs it dumps. A flush in progress is dumped again. -/
def initFlush (s : KVStore n) : Except Fault (KVStore n × Option (List (Bytes × Bytes))) :=
  let s := if s.flushTarget < 0 then s.pickTarget else s
  if 0 ≤ s.flushTarget then
    match s.table s.flushTarget.toNat with
    | .error e => .error e
    | .ok m => .ok (s, some m.dump)
  else .ok (s, none)

/-- `EndFlush`. The flag ends up raised when some memtable is still immutable. -/
def endFlush (s : KVStore n) : Except Fault (KVStore n) :=
  if s.flushTarget < 0 then .error .badIndex
  else
    match s.table s.flushTarget.toNat with
    | .error e => .error e
    | .ok m =>
      let cleared := { s.setTable s.flushTarget.toNat m.endFlush with flushTarget := -1 }
      cleared.setSema (decide (∃ i, (cleared.mt i).mutable = false))

/-- `ForceReadyToDie` closes every memtable. -/
def forceReadyToDie (s : KVStore n) : KVStore n :=
  { s with mt := fun i => (s.mt i).setMutable false }

/-- `IsReadyToDie`. -/
def isReadyToDie (s : KVStore n) : Bool := decide (∀ i, (s.mt i).isEmpty = true)

/-- The lookup function of one memtable. -/
def layer (s : KVStore n) (i : Fin n) (key : Bytes) : Option Bytes := (s.mt i).store.lookup key

/-- The store after memtable `t` was marked as the flush target. -/
def marked (s : KVStore n) (t : Fin n) : KVStore n :=
  { s with
    mt := Function.update s.mt t { s.mt t with onFlush := true }
    flushTarget := t.val }

/-- The store after the flush of memtable `t` ended. -/
def cleared (s : KVStore n) (t : Fin n) : KVStore n :=
  { s with
    mt := Function.update s.mt t (s.mt t).endFlush
    flushTarget := -1
    flushSema := some (decide (∃ i, i ≠ t ∧ (s.mt i).mutable = false)) }

@[simp] theorem table_val (s : KVStore n) (i : Fin n) : s.table i = .ok (s.mt i) := by
  rw [table, dif_pos i.isLt]

@[simp] theorem setTable_mt (s : KVStore n) (i : Fin n) (m : MemTable) :
    (s.setTable i m).mt = Function.update s.mt i m := by
  funext j
  by_cases hj : j = i
  · simp [setTable, hj]
  · simp [setTable, hj, Fin.val_inj]

/-- The memtables after one was marked. -/
theorem marked_mt (s : KVStore n) (t i : Fin n) :
    (s.marked t).mt i = if i = t then { s.mt t with onFlush := true } else s.mt i :=
  Function.update_apply ..

/-- The memtables after the flush of one ended. -/
theorem cleared_mt (s : KVStore n) (t i : Fin n) :
    (s.cleared t).mt i = if i = t then (s.mt t).endFlush else s.mt i :=
  Function.update_apply ..

/-- Marking a memtable keeps its pairs. -/
@[simp] theorem marked_store (s : KVStore n) (t i : Fin n) :
    ((s.marked t).mt i).store = (s.mt i).store := by
  rw [marked_mt]
  split
  · next hit => rw [hit]
  · rfl

/-- Marking a memtable neither opens nor closes it. -/
@[simp] theorem marked_mutable (s : KVStore n) (t i : Fin n) :
    ((s.marked t).mt i).mutable = (s.mt i).mutable := by
  rw [marked_mt]
  split
  · next hit => rw [hit]
  · rfl

/-- Marking a memtable keeps its threshold. -/
@[simp] theorem marked_maxSizeInBytes (s : KVStore n) (t i : Fin n) :
    ((s.marked t).mt i).maxSizeInBytes = (s.mt i).maxSizeInBytes := by
  rw [marked_mt]
  split
  · next hit => rw [hit]
  · rfl

/-- The flush flags after one was set. -/
@[simp] theorem marked_onFlush (s : KVStore n) (t i : Fin n) :
    ((s.marked t).mt i).onFlush = if i = t then true else (s.mt i).onFlush := by
  rw [marked_mt]
  split <;> rfl

/-- The pairs after the flush of one memtable ended. -/
@[simp] theorem cleared_store (s : KVStore n) (t i : Fin n) :
    ((s.cleared t).mt i).store = if i = t then ∅ else (s.mt i).store := by
  rw [cleared_mt]
  split <;> rfl

/-- The writable flags after the flush of one memtable ended. -/
@[simp] theorem cleared_mutable (s : KVStore n) (t i : Fin n) :
    ((s.cleared t).mt i).mutable = if i = t then true else (s.mt i).mutable := by
  rw [cleared_mt]
  split <;> rfl

/-- The flush flags after the flush of one memtable ended. -/
@[simp] theorem cleared_onFlush (s : KVStore n) (t i : Fin n) :
    ((s.cleared t).mt i).onFlush = if i = t then false else (s.mt i).onFlush := by
  rw [cleared_mt]
  split <;> rfl

/-- Assigning through a valid pointer. -/
theorem setSema_of_some {s : KVStore n} {b : Bool} (h : s.flushSema = some b) (value : Bool) :
    s.setSema value = .ok { s with flushSema := some value } := by
  simp only [setSema, h]

/-- Assigning through an unset pointer. -/
theorem setSema_of_none {s : KVStore n} (h : s.flushSema = none) (value : Bool) :
    s.setSema value = .error .unsetSema := by
  simp only [setSema, h]

/-- An assignment that completed changed the flag alone. -/
theorem setSema_eq_ok {s t : KVStore n} {value : Bool} (h : s.setSema value = .ok t) :
    s.flushSema.isSome = true ∧ t = { s with flushSema := some value } := by
  cases hs : s.flushSema with
  | none => rw [setSema_of_none hs] at h; cases h
  | some b => rw [setSema_of_some hs] at h; cases h; exact ⟨rfl, rfl⟩

/-- The first writable memtable, when there is one. -/
theorem findMutable_eq_some {s : KVStore n} {i : Fin n} (h : s.findMutable = some i) :
    (s.mt i).mutable = true ∧ ∀ j < i, (s.mt j).mutable = false := by
  rw [findMutable, ← Fin.find?_eq_find?_finRange, ← Option.mem_def, Fin.mem_find?_iff] at h
  exact ⟨h.1, fun j hj => by simpa using h.2 j hj⟩

/-- No memtable is writable when the scan finds none. -/
theorem findMutable_eq_none {s : KVStore n} :
    s.findMutable = none ↔ ∀ i, (s.mt i).mutable = false := by
  simp [findMutable]

/-- What an accepted `Put` did: the pair went to memtable `d`, which is the
current one or the first writable one switched to, and nothing else changed. -/
structure Accepted (s : KVStore n) (key value : Bytes) (d : Fin n) (m : MemTable)
    (s' : KVStore n) : Prop where
  /-- The memtable and the queue it leaves behind. -/
  slot : s.curMt = d ∧ s'.usageQ = s.usageQ ∨
    (∀ c : Fin n, s.curMt = c → (s.mt c).mutable = false) ∧ s.findMutable = some d ∧
      s'.usageQ = popExcess n (s.usageQ ++ [d.val])
  /-- The memtable stored the pair. -/
  stored : ∃ st, (s.mt d).Stored key value m st
  /-- The other memtables are untouched. -/
  mt : s'.mt = Function.update s.mt d m
  /-- The written memtable is current. -/
  curMt : s'.curMt = d
  /-- A flush in progress goes on. -/
  flushTarget : s'.flushTarget = s.flushTarget
  /-- The flag is raised exactly when this write closed the memtable. -/
  flushSema : s'.flushSema = if m.mutable then s.flushSema else some true

section Accepted

variable {s s' : KVStore n} {key value : Bytes} {d i : Fin n} {m : MemTable}

/-- The memtable written. -/
theorem Accepted.mt_self (ha : s.Accepted key value d m s') : s'.mt d = m := by
  rw [ha.mt, Function.update_self]

/-- The memtables that were not written. -/
theorem Accepted.mt_of_ne (ha : s.Accepted key value d m s') (hi : i ≠ d) :
    s'.mt i = s.mt i := by
  rw [ha.mt, Function.update_of_ne hi]

/-- What holds of the memtable written and of the others holds of all. -/
theorem Accepted.forall_mt (ha : s.Accepted key value d m s') {P : MemTable → Prop} (hm : P m)
    (hs : ∀ i, P (s.mt i)) (i : Fin n) : P (s'.mt i) := by
  by_cases hi : i = d
  · rw [hi, ha.mt_self]
    exact hm
  · rw [ha.mt_of_ne hi]
    exact hs i

/-- A closed memtable is not the one written. -/
theorem Accepted.ne_of_closed (ha : s.Accepted key value d m s')
    (hi : (s.mt i).mutable = false) : i ≠ d := by
  obtain ⟨_, hstored⟩ := ha.stored
  intro heq
  rw [heq, hstored.was_mutable] at hi
  cases hi

end Accepted

/-- Writing to a current memtable that stores the pair. -/
theorem putCurrent_eq {s : KVStore n} {d : Fin n} (hd : s.curMt = d) {key value : Bytes}
    {m : MemTable} {st : KVStatus} (h : (s.mt d).put key value = .ok (m, st)) :
    s.putCurrent key value =
      if m.mutable then .ok (s.setTable d m, .writePass)
      else ((s.setTable d m).setSema true).map fun t => (t, .writePass) := by
  unfold putCurrent
  rw [hd, table_val]
  dsimp only
  rw [h]
  rcases (MemTable.put_stored h).status_cases with ⟨rfl, hm⟩ | ⟨rfl, hm⟩ <;> simp [hm]

/-- A completed write to the current memtable. -/
theorem putCurrent_eq_ok {s s' : KVStore n} {d : Fin n} (hd : s.curMt = d) {key value : Bytes}
    {st : KVStatus} (h : s.putCurrent key value = .ok (s', st)) :
    st = .writePass ∧ ∃ m st', (s.mt d).Stored key value m st' ∧
      s'.mt = Function.update s.mt d m ∧ s'.curMt = d ∧ s'.usageQ = s.usageQ ∧
      s'.flushTarget = s.flushTarget ∧
      s'.flushSema = if m.mutable then s.flushSema else some true := by
  cases hput : (s.mt d).put key value with
  | error e =>
    simp only [putCurrent, hd, table_val, hput] at h
    cases h
  | ok r =>
    obtain ⟨m, st'⟩ := r
    rw [putCurrent_eq hd hput] at h
    have hstored := MemTable.put_stored hput
    split at h
    · next hm =>
      cases h
      exact ⟨rfl, m, st', hstored, setTable_mt .., hd, rfl, rfl, by simp only [hm]; rfl⟩
    · next hm =>
      cases hsema : (s.setTable d m).setSema true with
      | error e => rw [hsema] at h; cases h
      | ok t =>
        rw [hsema] at h
        cases h
        obtain ⟨_, rfl⟩ := setSema_eq_ok hsema
        refine ⟨rfl, m, st', hstored, setTable_mt .., hd, rfl, rfl, ?_⟩
        rw [if_neg hm]

/-- Every completed `Put` was either refused, with no writable memtable left and
only the flag changed, or accepted. -/
theorem put_cases {s s' : KVStore n} {c : Fin n} (hc : s.curMt = c) {key value : Bytes}
    {st : KVStatus} (h : s.put key value = .ok (s', st)) :
    (st = .waitFlush ∧ (∀ i, (s.mt i).mutable = false) ∧
      s' = { s with flushSema := some true }) ∨
    (st = .writePass ∧ ∃ d m, s.Accepted key value d m s') := by
  unfold put at h
  rw [hc, table_val] at h
  dsimp only at h
  split at h
  · obtain ⟨rfl, m, st', hstored, hmt, hcur, hq, ht, hsema⟩ := putCurrent_eq_ok hc h
    exact .inr ⟨rfl, c, m, .inl ⟨hc, hq⟩, ⟨st', hstored⟩, hmt, hcur, ht, hsema⟩
  · next hm =>
    split at h
    · next d hfind =>
      obtain ⟨rfl, m, st', hstored, hmt, hcur, hq, ht, hsema⟩ :=
        putCurrent_eq_ok (s := s.switchTo d) rfl h
      have hclosed : ∀ i : Fin n, s.curMt = i → (s.mt i).mutable = false := by
        intro i hi
        rw [← Fin.val_inj.mp (hc.symm.trans hi)]
        simpa using hm
      exact .inr ⟨rfl, d, m, .inr ⟨hclosed, hfind, hq⟩, ⟨st', hstored⟩, hmt, hcur, ht, hsema⟩
    · next hfind =>
      cases hsema : s.setSema true with
      | error e => rw [hsema] at h; cases h
      | ok t =>
        rw [hsema] at h
        cases h
        exact .inl ⟨rfl, findMutable_eq_none.mp hfind, (setSema_eq_ok hsema).2⟩

/-- With a valid flag every `Put` completes. -/
theorem put_ok {s : KVStore n} {c : Fin n} (hc : s.curMt = c) {b : Bool}
    (hsema : s.flushSema = some b) (key value : Bytes) :
    ∃ s' st, s.put key value = .ok (s', st) := by
  have hwrite : ∀ t : KVStore n, ∀ d : Fin n, t.curMt = d → (t.mt d).mutable = true →
      t.flushSema = some b → ∃ s' st, t.putCurrent key value = .ok (s', st) := by
    intro t d hd hm ht
    obtain ⟨m, st, hput⟩ := MemTable.put_ok_of_mutable hm key value
    rw [putCurrent_eq hd hput, setSema_of_some (s := t.setTable d m) ht]
    split <;> exact ⟨_, _, rfl⟩
  unfold put
  rw [hc, table_val]
  dsimp only
  split
  · next hm => exact hwrite s c hc hm hsema
  · split
    · next d hfind => exact hwrite (s.switchTo d) d rfl (findMutable_eq_some hfind).1 hsema
    · rw [setSema_of_some hsema]
      exact ⟨_, _, rfl⟩

/-- The search loop answers from the layers in the order it visits them. -/
theorem search_eq (s : KVStore n) (key value : Bytes) (q : List (Fin n)) (ret : KVStatus) :
    s.search key value (q.map Fin.val) ret =
      .ok (match find (q.map s.layer) key with
        | some found => (.readPass, found)
        | none => (if q = [] then ret else .readFail, value)) := by
  induction q generalizing ret with
  | nil => rfl
  | cons i q ih =>
    rw [List.map_cons, List.map_cons, search, Nat.mod_eq_of_lt i.isLt, table_val]
    dsimp only [MemTable.get]
    cases hi : (s.mt i).store.lookup key with
    | some found => rw [find_of_top (show s.layer i key = some found from hi)]
    | none =>
      rw [find_of_top_none (show s.layer i key = none from hi)]
      dsimp only
      rw [ih]
      cases find (q.map s.layer) key <;> simp

/-- `Get` answers from the layers of a nonempty queue, newest first. -/
theorem get_eq {s : KVStore n} {q : List (Fin n)} (hq : s.usageQ = q.map Fin.val) (hne : q ≠ [])
    (key value : Bytes) :
    s.get key value =
      .ok (match find (q.reverse.map s.layer) key with
        | some found => (.readPass, found)
        | none => (.readFail, value)) := by
  rw [get, hq, ← List.map_reverse, search_eq, if_neg (by simpa using hne)]

/-- What the scan of `InitFlush` does: nothing, or it marks the first memtable
that agrees. -/
theorem pickTarget_cases (s : KVStore n) :
    (∀ i, (s.mt i).initFlush.2 = false) ∧ s.pickTarget = s ∨
    ∃ t : Fin n, (s.mt t).initFlush.2 = true ∧ (∀ j < t, (s.mt j).initFlush.2 = false) ∧
      s.pickTarget = s.marked t := by
  unfold pickTarget
  split
  · next t hfind =>
    rw [← Fin.find?_eq_find?_finRange, ← Option.mem_def, Fin.mem_find?_iff] at hfind
    obtain ⟨htrue, hfirst⟩ := hfind
    refine .inr ⟨t, htrue, fun j hj => by simpa using hfirst j hj, ?_⟩
    rw [marked, ← (MemTable.initFlush_taken htrue).2.2, ← setTable_mt]
    rfl
  · next hnone =>
    refine .inl ⟨fun i => ?_, rfl⟩
    simpa using List.find?_eq_none.mp hnone i (List.mem_finRange i)

/-- What a completed `InitFlush` did: it found no target, or picked memtable `t`
and marked it, or dumped the target of the flush in progress again. -/
theorem initFlush_cases {s s' : KVStore n} {dump : Option (List (Bytes × Bytes))}
    (h : s.initFlush = .ok (s', dump)) :
    (s.flushTarget < 0 ∧ (∀ i, (s.mt i).initFlush.2 = false) ∧ s' = s ∧ dump = none) ∨
    (∃ t : Fin n, s.flushTarget < 0 ∧ (s.mt t).mutable = false ∧ (s.mt t).onFlush = false ∧
      (∀ j < t, (s.mt j).initFlush.2 = false) ∧ dump = some (s.mt t).dump ∧ s' = s.marked t) ∨
    (∃ t : Fin n, s.flushTarget = t.val ∧ s' = s ∧ dump = some (s.mt t).dump) := by
  unfold initFlush at h
  dsimp only at h
  by_cases hneg : s.flushTarget < 0
  · rw [if_pos hneg] at h
    rcases s.pickTarget_cases with ⟨hnone, hpick⟩ | ⟨t, htaken, hfirst, hpick⟩
    · rw [hpick, if_neg (by omega)] at h
      cases h
      exact .inl ⟨hneg, hnone, rfl, rfl⟩
    · have htarget : (s.marked t).flushTarget = t.val := rfl
      have hdump : ((s.marked t).mt t).dump = (s.mt t).dump := by
        rw [MemTable.dump, marked_store]
        rfl
      obtain ⟨hm, hoff, _⟩ := MemTable.initFlush_taken htaken
      rw [hpick, htarget, if_pos (Int.natCast_nonneg t.val), Int.toNat_natCast, table_val] at h
      cases h
      exact .inr (.inl ⟨t, hneg, hm, hoff, hfirst, congrArg some hdump, rfl⟩)
  · rw [if_neg hneg, if_pos (show 0 ≤ s.flushTarget by omega)] at h
    unfold table at h
    split at h
    · cases h
    · next m htable =>
      split at htable
      · next hlt =>
        cases htable
        cases h
        refine .inr (.inr ⟨⟨_, hlt⟩, ?_, rfl, rfl⟩)
        simpa using (Int.toNat_of_nonneg (show 0 ≤ s.flushTarget by omega)).symm
      · cases htable

/-- What a completed `EndFlush` did: it emptied and reopened its target, and the
flag tells whether another memtable is still closed. -/
theorem endFlush_cases {s s' : KVStore n} {t : Fin n} (ht : s.flushTarget = t.val)
    (h : s.endFlush = .ok s') : s' = s.cleared t := by
  unfold endFlush at h
  rw [ht, if_neg (by omega), Int.toNat_natCast, table_val] at h
  dsimp only at h
  obtain ⟨_, rfl⟩ := setSema_eq_ok h
  rw [setTable_mt]
  have hflag : (∃ i, (Function.update s.mt t (s.mt t).endFlush i).mutable = false) ↔
      ∃ i, i ≠ t ∧ (s.mt i).mutable = false := by
    refine exists_congr fun i => ?_
    by_cases hi : i = t
    · subst hi
      simp [MemTable.endFlush]
    · simp [hi]
  simp only [hflag]
  rfl

/-- With a valid flag and a target in range `EndFlush` completes. -/
theorem endFlush_ok {s : KVStore n} {t : Fin n} (ht : s.flushTarget = t.val) {b : Bool}
    (hsema : s.flushSema = some b) : ∃ s', s.endFlush = .ok s' := by
  unfold endFlush
  rw [ht, if_neg (by omega), Int.toNat_natCast, table_val]
  exact ⟨_, setSema_of_some
    (s := { s.setTable t (s.mt t).endFlush with flushTarget := -1 }) hsema _⟩

end KVStore

end CapsuleDB.EnclaveKvs

import Mathlib.Data.UInt
import CapsuleDB.LayeredMap

/-!
# The enclave memtable

One memtable is a hash map of byte strings with a wrapping byte counter, a
writable flag and a flush flag. The order in which the hash map is traversed
is not specified by the library it comes from, so a dump is read as a
collection of pairs. Undefined behaviour is an explicit fault of the step
that would run into it.
-/

namespace CapsuleDB.EnclaveMemTable

open LayeredMap

/-- A `std::string`: any bytes, including NUL. -/
abbrev Bytes := List UInt8

/-- The statuses shared by the enclave and its host. -/
inductive KVStatus
  | writeFail
  | writePass
  | readFail
  | readPass
  | waitFlush
  | justFull
  deriving DecidableEq, Repr

/-- Steps without defined behaviour, and the assertion of the memtable. -/
inductive Fault
  /-- `assert(mutable_)` fails in `MemTable::Put`. -/
  | notMutable
  /-- `flush_sema` is dereferenced before anything was assigned to it. -/
  | unsetSema
  /-- `mt_` is indexed outside of `0 .. MT_NUM-1`. -/
  | badIndex
  /-- `free` receives a pointer that no allocation returned. -/
  | badFree
  /-- A `RequestContext::body` is read as an object it does not point to. -/
  | wrongBody
  /-- `memcpy` writes past the end of an allocated buffer. -/
  | heapOverflow
  deriving DecidableEq, Repr

/-- `std::string::size` as a `uint64_t`. -/
def size (s : Bytes) : UInt64 := UInt64.ofNat s.length

/-- The bytes one pair accounts for. -/
def pairBytes (key value : Bytes) : ℕ := key.length+value.length

/-- The fields of the `MemTable` class. -/
structure MemTable where
  /-- The pairs held, one per key. -/
  store : AList fun _ : Bytes => Bytes
  /-- The wrapping byte counter. -/
  sizeInBytes : UInt64
  /-- The threshold at which a first write closes the memtable. -/
  maxSizeInBytes : UInt64
  /-- Writable. -/
  mutable : Bool
  /-- Picked for flushing. -/
  onFlush : Bool

namespace MemTable

/-- The constructor. -/
def new (maxSizeInBytes : UInt64) : MemTable := ⟨∅, 0, maxSizeInBytes, true, false⟩

/-- `isFull` compares the counter with the threshold. -/
def isFull (m : MemTable) : Bool := decide (m.maxSizeInBytes ≤ m.sizeInBytes)

/-- `IsEmpty` judges by the counter, not by the map. -/
def isEmpty (m : MemTable) : Bool := decide (m.sizeInBytes = 0)

/-- `SetMutable`. -/
def setMutable (m : MemTable) (value : Bool) : MemTable := { m with mutable := value }

/-- `Put`. Only a key that was absent can close the memtable; an overwrite
adjusts the counter by a difference that wraps when the value shrinks. -/
def put (m : MemTable) (key value : Bytes) : Except Fault (MemTable × KVStatus) :=
  if m.mutable = false then .error .notMutable
  else
    match m.store.lookup key with
    | none =>
      let grown := { m with
        store := m.store.insert key value
        sizeInBytes := m.sizeInBytes+(size key+size value) }
      if grown.isFull then .ok ({ grown with mutable := false }, .justFull)
      else .ok (grown, .writePass)
    | some old =>
      .ok ({ m with
        store := m.store.insert key value
        sizeInBytes := m.sizeInBytes+(size value-size old) }, .writePass)

/-- `Get` writes its out-parameter only when the key is present. -/
def get (m : MemTable) (key value : Bytes) : KVStatus × Bytes :=
  match m.store.lookup key with
  | none => (.readFail, value)
  | some found => (.readPass, found)

/-- `InitFlush` takes an immutable memtable that is not being flushed yet. -/
def initFlush (m : MemTable) : MemTable × Bool :=
  if m.onFlush then (m, false)
  else if m.mutable then (m, false)
  else ({ m with onFlush := true }, true)

/-- `EndFlush` empties the memtable and makes it writable again. -/
def endFlush (m : MemTable) : MemTable :=
  { m with store := ∅, sizeInBytes := 0, onFlush := false, mutable := true }

/-- `Dump` copies all pairs out. -/
def dump (m : MemTable) : List (Bytes × Bytes) := m.store.entries.map fun e => (e.1, e.2)

/-- A memtable that agrees to be flushed is closed and gets marked. -/
theorem initFlush_taken {m : MemTable} (h : m.initFlush.2 = true) :
    m.mutable = false ∧ m.onFlush = false ∧ m.initFlush.1 = { m with onFlush := true } := by
  unfold initFlush at h ⊢
  cases hon : m.onFlush with
  | true =>
    rw [hon] at h
    cases h
  | false =>
    cases hm : m.mutable with
    | true =>
      rw [hon, hm] at h
      cases h
    | false => exact ⟨rfl, rfl, rfl⟩

/-- A memtable that is not being flushed and does not agree to be is writable. -/
theorem mutable_of_not_taken {m : MemTable} (hoff : m.onFlush = false)
    (h : m.initFlush.2 = false) : m.mutable = true := by
  unfold initFlush at h
  rw [hoff] at h
  cases hm : m.mutable with
  | true => rfl
  | false =>
    rw [hm] at h
    cases h

/-- A dump lists exactly the pairs held. -/
theorem mem_dump {m : MemTable} {key value : Bytes} :
    (key, value) ∈ m.dump ↔ m.store.lookup key = some value := by
  rw [← Option.mem_def, AList.mem_lookup_iff, dump, List.mem_map]
  constructor
  · rintro ⟨e, he, heq⟩
    cases heq
    exact he
  · intro h
    exact ⟨⟨key, value⟩, h, rfl⟩

/-- A dump lists no key twice. -/
theorem nodup_dump_keys (m : MemTable) : (m.dump.map Prod.fst).Nodup := by
  have hkeys : m.dump.map Prod.fst = m.store.keys := List.map_map
  rw [hkeys]
  exact m.store.keys_nodup

/-- The counter holds the bytes of all pairs, reduced modulo the word size. -/
def Accounted (m : MemTable) : Prop :=
  m.sizeInBytes = UInt64.ofNat (totalWeight pairBytes m.store)

/-- A fresh memtable is accounted. -/
theorem new_accounted (maxSizeInBytes : UInt64) : (new maxSizeInBytes).Accounted := rfl

/-- A flushed memtable is accounted. -/
theorem endFlush_accounted (m : MemTable) : m.endFlush.Accounted := rfl

/-- The counter of a first write. -/
theorem ofNat_pairBytes (key value : Bytes) :
    UInt64.ofNat (pairBytes key value) = size key+size value := UInt64.ofNat_add ..

/-- The wrapped difference added by an overwrite is the change of the total. -/
theorem ofNat_overwrite {total total' old new : ℕ} (h : total'+old = total+new) :
    UInt64.ofNat total+(UInt64.ofNat new-UInt64.ofNat old) = UInt64.ofNat total' := by
  have hsum : UInt64.ofNat total'+UInt64.ofNat old = UInt64.ofNat total+UInt64.ofNat new := by
    rw [← UInt64.ofNat_add, ← UInt64.ofNat_add, h]
  rw [← add_sub_assoc, ← hsum, add_sub_cancel_right]

/-- The incremental counter stays exact modulo the word size, on first writes
and on overwrites with shorter or longer values. -/
theorem put_accounted {m m' : MemTable} {key value : Bytes} {st : KVStatus}
    (hm : m.Accounted) (h : m.put key value = .ok (m', st)) : m'.Accounted := by
  unfold Accounted at hm ⊢
  unfold put at h
  split at h
  · cases h
  · split at h
    · next hk =>
      have hnew : m.sizeInBytes+(size key+size value) =
          UInt64.ofNat (totalWeight pairBytes (m.store.insert key value)) := by
        rw [totalWeight_insert_new pairBytes hk, UInt64.ofNat_add, ofNat_pairBytes, hm, add_comm]
      dsimp only at h
      split at h <;> cases h <;> exact hnew
    · next old hk =>
      have hweight := totalWeight_insert_old pairBytes hk value
      unfold pairBytes at hweight
      cases h
      dsimp only
      rw [hm]
      exact ofNat_overwrite (by unfold pairBytes; omega)

/-- What a completed `Put` did: the pair is stored, and only a first write
that reaches the threshold closes the memtable. -/
structure Stored (m : MemTable) (key value : Bytes) (m' : MemTable) (st : KVStatus) : Prop where
  /-- The assertion held. -/
  was_mutable : m.mutable = true
  /-- The map received the pair. -/
  store : m'.store = m.store.insert key value
  /-- The threshold is fixed. -/
  max : m'.maxSizeInBytes = m.maxSizeInBytes
  /-- The flush flag is untouched. -/
  onFlush : m'.onFlush = m.onFlush
  /-- The status tells whether the memtable was closed. -/
  status : st = (if m'.mutable then .writePass else .justFull)
  /-- It was closed exactly on a first write that reached the threshold. -/
  closed : m'.mutable = false ↔ m.store.lookup key = none ∧ m'.isFull = true
  /-- An exact counter stays exact. -/
  accounted : m.Accounted → m'.Accounted

/-- Every completed `Put` stored its pair. -/
theorem put_stored {m m' : MemTable} {key value : Bytes} {st : KVStatus}
    (h : m.put key value = .ok (m', st)) : m.Stored key value m' st := by
  have haccounted : m.Accounted → m'.Accounted := fun hm => put_accounted hm h
  unfold put at h
  split at h
  · cases h
  · next hm =>
    have hmut : m.mutable = true := by simpa using hm
    split at h
    · next hk =>
      dsimp only at h
      split at h
      · next hfull =>
        cases h
        exact ⟨hmut, rfl, rfl, rfl, rfl, ⟨fun _ => ⟨hk, hfull⟩, fun _ => rfl⟩, haccounted⟩
      · next hfull =>
        cases h
        refine ⟨hmut, rfl, rfl, rfl, by simp [hmut], ?_, haccounted⟩
        exact ⟨fun hc => absurd hc (by simp [hmut]), fun hc => absurd hc.2 hfull⟩
    · next old hk =>
      cases h
      refine ⟨hmut, rfl, rfl, rfl, by simp [hmut], ?_, haccounted⟩
      simp [hmut, hk]

/-- A writable memtable accepts every pair. -/
theorem put_ok_of_mutable {m : MemTable} (hm : m.mutable = true) (key value : Bytes) :
    ∃ m' st, m.put key value = .ok (m', st) := by
  unfold put
  rw [if_neg (by simp [hm])]
  split
  · dsimp only
    split <;> exact ⟨_, _, rfl⟩
  · exact ⟨_, _, rfl⟩

/-- A memtable that is written to ends in one of the two statuses of `Put`. -/
theorem Stored.status_cases {m m' : MemTable} {key value : Bytes} {st : KVStatus}
    (h : m.Stored key value m' st) :
    st = .writePass ∧ m'.mutable = true ∨ st = .justFull ∧ m'.mutable = false := by
  have hst := h.status
  cases hm : m'.mutable with
  | true => exact .inl ⟨by simpa [hm] using hst, rfl⟩
  | false => exact .inr ⟨by simpa [hm] using hst, rfl⟩

/-- With an exact counter, a memtable is closed on a first write that brings the
bytes held, modulo the word size, to the threshold. -/
theorem Stored.closed_iff {m m' : MemTable} {key value : Bytes} {st : KVStatus}
    (h : m.Stored key value m' st) (hm' : m'.Accounted) :
    m'.mutable = false ↔ m.store.lookup key = none ∧
      m.maxSizeInBytes ≤ UInt64.ofNat (totalWeight pairBytes (m.store.insert key value)) := by
  have hsize : m'.sizeInBytes =
      UInt64.ofNat (totalWeight pairBytes (m.store.insert key value)) := by
    rw [← h.store]
    exact hm'
  rw [h.closed, isFull, decide_eq_true_iff, hsize, h.max]

/-- The lookup function after a completed `Put`. -/
theorem Stored.lookup_eq {m m' : MemTable} {key value : Bytes} {st : KVStatus}
    (h : m.Stored key value m' st) :
    (fun k => m'.store.lookup k) =
      Function.update (fun k => m.store.lookup k) key (some value) := by
  rw [h.store, lookup_insert_eq_update]

end MemTable

end CapsuleDB.EnclaveMemTable

import CapsuleDB.ServerReplies

/-!
# The reference server

What the server is for: a map from keys to values that answers requests one
after another. The map takes writes into the memtables one after the other;
a first write that brings the pairs of a memtable to the threshold moves on to
the next one, and after the last one writes are refused, since nobody flushes.
The store and then the whole chain of stages refine this map.
-/

namespace CapsuleDB.ServerReference

open LayeredMap EnclaveMemTable EnclaveKvs EnclaveKvsRun EnclaveKvsReads FifoStage NetMessages
  DecimalPrefix ServerStages ServerReplies

/-- What a request asks for. -/
inductive Command
  | read (key : Bytes)
  | write (key value : Bytes)

/-- The command as the input stage hands it on. -/
def Command.toCmd : Command → Cmd
  | .read key => ⟨cmdRead, key, []⟩
  | .write key value => ⟨cmdWrite, key, value⟩

/-- A request, with the place its reply goes to. -/
structure Request where
  /-- The address of the client. -/
  address : Bytes
  /-- The port of the client. -/
  port : UInt16
  /-- The number of the request at the client. -/
  seqno : UInt64
  /-- The command. -/
  command : Command

/-- How far the memtables are used up. -/
structure Usage where
  /-- The number of memtables that are full. -/
  full : ℕ
  /-- The pairs in the first memtable that is not. -/
  pairs : AList fun _ : Bytes => Bytes

/-- Account for an accepted write. -/
def Usage.add (threshold : UInt64) (u : Usage) (key value : Bytes) : Usage :=
  if u.pairs.lookup key = none ∧
      threshold ≤ UInt64.ofNat (totalWeight pairBytes (u.pairs.insert key value)) then
    ⟨u.full+1, ∅⟩
  else ⟨u.full, u.pairs.insert key value⟩

/-- The reference map. -/
structure Reference where
  /-- The value of each key. -/
  values : Bytes → Option Bytes
  /-- The room that is left. -/
  usage : Usage

/-- The map at the start. -/
def Reference.empty : Reference := ⟨fun _ => none, ⟨0, ∅⟩⟩

/-- The map after an accepted write. -/
def Reference.set (threshold : UInt64) (r : Reference) (key value : Bytes) : Reference :=
  ⟨Function.update r.values key (some value), r.usage.add threshold key value⟩

/-- Answer one command, with two memtables. A write that is accepted sets the
value of its key and nothing else. -/
def Reference.answer (threshold : UInt64) (r : Reference) : Command → Reference × Bytes
  | .read key => (r, (r.values key).getD (ascii "READ_FAIL"))
  | .write key value =>
    if r.usage.full < 2 then
      (r.set threshold key value, ascii "WRITE_PASS")
    else (r, ascii "WRITE_FAIL")

/-- A read answers the value of its key. -/
theorem Reference.answer_read (threshold : UInt64) (r : Reference) (key : Bytes) :
    r.answer threshold (.read key) = (r, (r.values key).getD (ascii "READ_FAIL")) := rfl

/-- A write is accepted while some memtable is not full. -/
theorem Reference.answer_accepted {threshold : UInt64} {r : Reference} (h : r.usage.full < 2)
    (key value : Bytes) :
    r.answer threshold (.write key value) = (r.set threshold key value, ascii "WRITE_PASS") :=
  if_pos h

/-- A write is refused when all memtables are full. -/
theorem Reference.answer_refused {threshold : UInt64} {r : Reference} (h : ¬ r.usage.full < 2)
    (key value : Bytes) :
    r.answer threshold (.write key value) = (r, ascii "WRITE_FAIL") := if_neg h

/-- The reply to one request. -/
def Request.reply (q : Request) (body : Bytes) : Reply :=
  ⟨q.address, q.port, decimal q.seqno.toNat ++ ascii "|" ++ body⟩

/-- The replies to a list of requests served in order. -/
def Reference.replies (threshold : UInt64) : Reference → List Request → List Reply
  | _, [] => []
  | r, q :: qs =>
    q.reply (r.answer threshold q.command).2 ::
      Reference.replies threshold (r.answer threshold q.command).1 qs

/-- A reply to each request. -/
theorem Reference.length_replies (threshold : UInt64) (r : Reference) (qs : List Request) :
    (r.replies threshold qs).length = qs.length := by
  induction qs generalizing r with
  | nil => rfl
  | cons q qs ih => rw [Reference.replies, List.length_cons, List.length_cons, ih]

/-- The command carries the request and keeps to the configured sizes. -/
def CarriesCommand (cfg : Config) (nc : NetCommand) : Command → Prop
  | .read key => nc.type = 0 ∧ (∃ rest, nc.ops = key :: rest) ∧
      key.length ≤ cfg.keyMaxsize.toNat
  | .write key value => nc.type = 1 ∧ (∃ rest, nc.ops = key :: value :: rest) ∧
      key.length ≤ cfg.keyMaxsize.toNat ∧ value.length ≤ cfg.valMaxsize.toNat

/-- The datagram carries the request and is well formed. -/
structure Carries (cfg : Config) (parseRequest : Bytes → Option NetRequest)
    (parseCommand : Bytes → Option NetCommand) (a : Arrival) (q : Request) : Prop where
  /-- It parses, its size is that of its body, and the body parses. -/
  parses : ∃ req nc, parseRequest (received cfg a.bytes) = some req ∧
    req.sz.toNat = req.body.length ∧ parseCommand req.body = some nc ∧
    CarriesCommand cfg nc q.command ∧ q.address = cText (req.replyaddr.take 16) ∧
    q.port = req.replyport.toUInt16 ∧ q.seqno = req.clientSeqno

section Memtables

variable {n : ℕ}

/-- The memtables are used up in the order of their indices. -/
structure Filled (threshold : UInt64) (u : Usage) (s : KVStore n) : Prop where
  /-- Exactly the full ones are closed. -/
  writable : ∀ i : Fin n, (s.mt i).mutable = true ↔ u.full ≤ i.val
  /-- The current one is the last full one or the next. -/
  current : s.curMt ≤ u.full
  /-- The first one that is not full holds the pairs. -/
  pairs : ∀ i : Fin n, i.val = u.full → (s.mt i).store = u.pairs
  /-- The counters are exact modulo the word size. -/
  accounted : ∀ i, (s.mt i).Accounted
  /-- All thresholds are the same. -/
  max : ∀ i, (s.mt i).maxSizeInBytes = threshold

/-- The fresh store. -/
theorem filled_new (n : ℕ) (threshold : UInt64) (sema : Option Bool) :
    Filled threshold ⟨0, ∅⟩ (KVStore.new n threshold sema) := by
  refine ⟨fun i => ?_, Nat.zero_le _, fun _ _ => rfl, fun _ => rfl, fun _ => rfl⟩
  exact iff_of_true rfl (Nat.zero_le _)

/-- A write is refused exactly when all memtables are full. -/
theorem Filled.all_closed_iff {threshold : UInt64} {u : Usage} {s : KVStore n}
    (hf : Filled threshold u s) : (∀ i, (s.mt i).mutable = false) ↔ n ≤ u.full := by
  constructor
  · intro hclosed
    by_contra hlt
    have hopen := (hf.writable ⟨u.full, by omega⟩).mpr (le_refl _)
    rw [hclosed] at hopen
    cases hopen
  · intro hfull i
    have hopen := (hf.writable i).not.mpr (by omega)
    simpa using hopen

/-- An accepted write goes to the first memtable that is not full. -/
theorem Filled.slot {threshold : UInt64} {u : Usage} {s s' : KVStore n} {d : Fin n}
    {key value : Bytes} {m : MemTable} (hf : Filled threshold u s)
    (ha : s.Accepted key value d m s') : d.val = u.full := by
  obtain ⟨_, hstored⟩ := ha.stored
  have hge := (hf.writable d).mp hstored.was_mutable
  rcases ha.slot with ⟨hcur, _⟩ | ⟨_, hfind, _⟩
  · have hle := hf.current
    omega
  · by_contra hne
    have hbefore := (KVStore.findMutable_eq_some hfind).2 ⟨u.full, by omega⟩
      (Fin.lt_def.mpr (by dsimp only; omega))
    rw [(hf.writable _).mpr (le_refl _)] at hbefore
    cases hbefore

/-- An accepted write closes its memtable exactly when the reference fills one. -/
theorem Filled.closed_iff {threshold : UInt64} {u : Usage} {s s' : KVStore n} {d : Fin n}
    {key value : Bytes} {m : MemTable} (hf : Filled threshold u s)
    (ha : s.Accepted key value d m s') :
    m.mutable = false ↔ u.pairs.lookup key = none ∧
      threshold ≤ UInt64.ofNat (totalWeight pairBytes (u.pairs.insert key value)) := by
  obtain ⟨st, hstored⟩ := ha.stored
  rw [hstored.closed_iff (hstored.accounted (hf.accounted d)), hf.pairs d (hf.slot ha), hf.max]

/-- Accepted writes keep the counters exact and the thresholds as they are. -/
theorem Filled.counters {threshold : UInt64} {u : Usage} {s s' : KVStore n} {d : Fin n}
    {key value : Bytes} {m : MemTable} (hf : Filled threshold u s)
    (ha : s.Accepted key value d m s') :
    (∀ i, (s'.mt i).Accounted) ∧ ∀ i, (s'.mt i).maxSizeInBytes = threshold := by
  obtain ⟨st, hstored⟩ := ha.stored
  refine ⟨ha.forall_mt (hstored.accounted (hf.accounted d)) hf.accounted, ?_⟩
  refine ha.forall_mt (P := fun t => t.maxSizeInBytes = threshold) ?_ hf.max
  rw [hstored.max, hf.max]

/-- A write that closes its memtable leaves the next one, which is still empty. -/
theorem Filled.accepted_closing {threshold : UInt64} {u : Usage} {s s' : KVStore n} {c d : Fin n}
    {key value : Bytes} {m : MemTable} (hb : Base s c) (hf : Filled threshold u s)
    (ha : s.Accepted key value d m s') (hm : m.mutable = false) :
    Filled threshold ⟨u.full+1, ∅⟩ s' := by
  have hslot := hf.slot ha
  have hb' := hb.accepted ha
  obtain ⟨haccounted, hmax⟩ := hf.counters ha
  have hwritable : ∀ i, (s'.mt i).mutable = true ↔ u.full+1 ≤ i.val := by
    intro i
    by_cases hi : i = d
    · rw [hi, ha.mt_self, hm]
      exact iff_of_false (by simp) (by omega)
    · rw [ha.mt_of_ne hi, hf.writable]
      have hne : i.val ≠ u.full := fun h => hi (Fin.ext (h.trans hslot.symm))
      omega
  refine ⟨hwritable, ?_, fun i hi => ?_, haccounted, hmax⟩
  · rw [ha.curMt, hslot]
    exact Nat.le_succ _
  · have hne : i ≠ d := by
      rintro rfl
      dsimp only at hi
      omega
    exact hb'.spare i hne ((hwritable i).mpr hi.ge)

/-- A write that leaves its memtable open adds its pair there. -/
theorem Filled.accepted_open {threshold : UInt64} {u : Usage} {s s' : KVStore n} {d : Fin n}
    {key value : Bytes} {m : MemTable} (hf : Filled threshold u s)
    (ha : s.Accepted key value d m s') (hm : m.mutable = true) :
    Filled threshold ⟨u.full, u.pairs.insert key value⟩ s' := by
  obtain ⟨st, hstored⟩ := ha.stored
  have hslot := hf.slot ha
  obtain ⟨haccounted, hmax⟩ := hf.counters ha
  refine ⟨fun i => ?_, ?_, fun i hi => ?_, haccounted, hmax⟩
  · by_cases hi : i = d
    · rw [hi, ha.mt_self, hm]
      exact iff_of_true rfl hslot.ge
    · rw [ha.mt_of_ne hi, hf.writable]
  · rw [ha.curMt, hslot]
  · have hid : i = d := Fin.ext (hi.trans hslot.symm)
    rw [hid, ha.mt_self, hstored.store, hf.pairs d hslot]

/-- An accepted write is accounted for. -/
theorem Filled.accepted {threshold : UInt64} {u : Usage} {s s' : KVStore n} {c d : Fin n}
    {key value : Bytes} {m : MemTable} (hb : Base s c) (hf : Filled threshold u s)
    (ha : s.Accepted key value d m s') :
    Filled threshold (u.add threshold key value) s' := by
  have hclosed := hf.closed_iff ha
  unfold Usage.add
  by_cases hfull : u.pairs.lookup key = none ∧
      threshold ≤ UInt64.ofNat (totalWeight pairBytes (u.pairs.insert key value))
  · rw [if_pos hfull]
    exact hf.accepted_closing hb ha (hclosed.mpr hfull)
  · rw [if_neg hfull]
    have hm : m.mutable = true := by simpa using (not_congr hclosed).mpr hfull
    exact hf.accepted_open ha hm

end Memtables

section Refinement

variable {cfg : Config} {sema : Bool} {r : Reference} {st : MemtableState}

/-- The state of the memtable stage implements the reference map. -/
structure Refines (cfg : Config) (sema : Bool) (r : Reference) (st : MemtableState) : Prop where
  /-- The recorded calls are a run of the store. -/
  serving : Serving cfg.memtableSize sema st
  /-- The last accepted writes are the values of the map. -/
  values : ∀ key, lastWrite key st.calls = r.values key
  /-- The memtables are as full as the map says. -/
  filled : Filled cfg.memtableSize r.usage st.kvs
  /-- The values keep to the configured size. -/
  bounded : ∀ key value, r.values key = some value → value.length ≤ cfg.valMaxsize.toNat

/-- The stage starts as the empty map. -/
theorem refines_start (cfg : Config) (sema : Bool) :
    Refines cfg sema Reference.empty (memtableStart cfg (some sema)) :=
  ⟨serving_start cfg sema, fun _ => rfl, filled_new 2 cfg.memtableSize (some sema),
    fun _ _ h => by cases h⟩

/-- A read changes neither the store nor the map. -/
theorem Refines.read (hr : Refines cfg sema r st) (key : Bytes) :
    Refines cfg sema r (afterRead st key) := by
  refine ⟨⟨hr.serving.run.next (.get (hr.serving.get_eq key)), ?_⟩, hr.values, hr.filled,
    hr.bounded⟩
  exact List.forall_mem_cons.mpr ⟨trivial, hr.serving.unflushed⟩

/-- The store accepts exactly the writes that the map accepts. -/
theorem Refines.write (hr : Refines cfg sema r st) {key value : Bytes} {kvs : KVStore 2}
    {status : KVStatus} (hput : st.kvs.put key value = .ok (kvs, status))
    (hlen : value.length ≤ cfg.valMaxsize.toNat) :
    respStr ⟨status, []⟩ = (r.answer cfg.memtableSize (.write key value)).2 ∧
      Refines cfg sema (r.answer cfg.memtableSize (.write key value)).1
        ⟨kvs, .put key value status kvs.curMt :: st.calls⟩ := by
  obtain ⟨c, hs⟩ := shape_of_run hr.serving.run
  have hserving : Serving cfg.memtableSize sema
      ⟨kvs, .put key value status kvs.curMt :: st.calls⟩ :=
    ⟨hr.serving.run.next (.put hput rfl),
      List.forall_mem_cons.mpr ⟨trivial, hr.serving.unflushed⟩⟩
  rcases KVStore.put_cases hs.cur hput with ⟨rfl, hclosed, rfl⟩ | ⟨rfl, d, m, ha⟩
  · have hfull := hr.filled.all_closed_iff.mp hclosed
    rw [Reference.answer_refused (by omega)]
    exact ⟨rfl, hserving, hr.values, ⟨hr.filled.writable, hr.filled.current, hr.filled.pairs,
      hr.filled.accounted, hr.filled.max⟩, hr.bounded⟩
  · have hslot := hr.filled.slot ha
    rw [Reference.answer_accepted (by omega)]
    refine ⟨rfl, hserving, fun k => ?_, hr.filled.accepted hs.toBase ha, fun k v hv => ?_⟩
    · by_cases hk : key = k
      · subst hk
        simp only [lastWrite, Reference.set, Function.update_self, if_true]
      · simp only [lastWrite, Reference.set, if_neg hk, Function.update_of_ne (Ne.symm hk),
          hr.values]
    · by_cases hk : k = key
      · subst hk
        simp only [Reference.set, Function.update_self] at hv
        cases hv
        exact hlen
      · simp only [Reference.set, Function.update_of_ne hk] at hv
        exact hr.bounded k v hv

/-- A well-formed command is rebuilt by the input stage. -/
theorem buildCmd_of_carries {nc : NetCommand} {command : Command} (found : UInt32)
    (h : CarriesCommand cfg nc command) : buildCmd found nc = command.toCmd := by
  unfold buildCmd
  cases command with
  | read key =>
    obtain ⟨htype, ⟨rest, hops⟩, _⟩ := h
    rw [hops, if_pos ⟨htype, by rw [List.length_cons]; omega⟩]
    rfl
  | write key value =>
    obtain ⟨htype, ⟨rest, hops⟩, _⟩ := h
    have hzero : ¬ (nc.type = 0 ∧ 1 ≤ nc.ops.length) := fun hz => by
      rw [htype] at hz
      exact absurd hz.1 (by decide)
    rw [if_neg hzero, hops, if_pos ⟨htype, by simp only [List.length_cons]; omega⟩]
    rfl

/-- The answer to a well-formed command is that of the map, and fits every buffer. -/
theorem Refines.answer (hr : Refines cfg sema r st) (hcfg : cfg.Fits) {nc : NetCommand}
    {command : Command} (hcommand : CarriesCommand cfg nc command) (found : UInt32) (sz : UInt64) :
    ∃ st' cr, ServerStages.answer st (buildCmd found nc) = .ok (st', some cr) ∧
      respStr cr = (r.answer cfg.memtableSize command).2 ∧
      (respStr cr).length ≤ (bodyCap cfg sz).toNat ∧
      Refines cfg sema (r.answer cfg.memtableSize command).1 st' := by
  rw [buildCmd_of_carries found hcommand]
  cases command with
  | read key =>
    refine ⟨afterRead st key, readResult (r.values key), ?_, ?_, ?_, hr.read key⟩
    · rw [← hr.values]
      exact hr.serving.answer_read rfl
    · rw [Reference.answer_read]
      cases r.values key <;> rfl
    · cases hvalue : r.values key with
      | none => exact respStr_fits hcfg (by decide) sz
      | some value =>
        have hlen := hr.bounded key value hvalue
        rw [respStr_readResult_some, toNat_bodyCap hcfg]
        omega
  | write key value =>
    obtain ⟨kvs, status, hput, hstatus, hanswer⟩ :=
      hr.serving.answer_write (c := ⟨cmdWrite, key, value⟩) rfl
    obtain ⟨htext, hr'⟩ := hr.write hput hcommand.2.2.2
    have hpass : status ≠ .readPass := by rcases hstatus with rfl | rfl <;> decide
    exact ⟨_, _, hanswer, htext, respStr_fits hcfg hpass sz, hr'⟩

/-- Serving a well-formed request sends the reply of the map. -/
theorem Refines.serve {parseRequest : Bytes → Option NetRequest}
    {parseCommand : Bytes → Option NetCommand} (hr : Refines cfg sema r st) (hcfg : cfg.Fits)
    {a : Arrival} {q : Request} (hq : Carries cfg parseRequest parseCommand a q) :
    ∃ st', ServerStages.serve cfg parseRequest parseCommand (serveStart st) a =
        .ok (serveStart st', some (q.reply (r.answer cfg.memtableSize q.command).2)) ∧
      Refines cfg sema (r.answer cfg.memtableSize q.command).1 st' := by
  obtain ⟨req, nc, hreq, hsz, hcmd, hcommand, haddress, hport, hseqno⟩ := hq.parses
  have hbody : readCStr req.body a.afterBody req.sz.toNat = req.body := by
    rw [hsz, readCStr_length_self]
  obtain ⟨st', cr, hanswer, htext, hfit, hr'⟩ := hr.answer hcfg hcommand a.cmdFound req.sz
  refine ⟨st', ?_, hr'⟩
  rw [serve_of_command hreq (by rw [hbody, hcmd]), hanswer]
  dsimp only
  rw [if_pos hfit, replyTo, htext, Request.reply, haddress, hport, hseqno]

/-- Serving well-formed requests in order sends the replies of the map. -/
theorem serve_run_refines {parseRequest : Bytes → Option NetRequest}
    {parseCommand : Bytes → Option NetCommand} (hcfg : cfg.Fits) {as : List Arrival}
    {qs : List Request} (hqs : List.Forall₂ (Carries cfg parseRequest parseCommand) as qs)
    {r : Reference} {st : MemtableState} (hr : Refines cfg sema r st) :
    ∃ st', (ServerStages.serve cfg parseRequest parseCommand).run (serveStart st) as =
      .ok (serveStart st', r.replies cfg.memtableSize qs) := by
  induction hqs generalizing r st with
  | nil => exact ⟨st, rfl⟩
  | cons hq _ ih =>
    obtain ⟨st', hserve, hr'⟩ := hr.serve hcfg hq
    obtain ⟨st'', hrun⟩ := ih hr'
    refine ⟨st'', ?_⟩
    rw [Stage.run_cons_ok hserve, hrun]
    rfl

end Refinement

end CapsuleDB.ServerReference

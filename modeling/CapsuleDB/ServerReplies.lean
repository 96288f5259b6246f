import CapsuleDB.EnclaveKvsReads
import CapsuleDB.ServerStages

/-!
# The replies of the server

While the flag is valid the memtable stage answers every command, and a read
with the last accepted write of its key. The reply to a read is the bare value,
so its length is bounded by what earlier requests wrote and not by the buffer
of the request, and a value can spell a status word.
-/

namespace CapsuleDB.ServerReplies

open LabelledRun EnclaveMemTable EnclaveKvs EnclaveKvsRun EnclaveKvsReads FifoStage NetMessages
  ServerStages

/-- A state of the memtable stage reached by the calls it has recorded. -/
structure Serving (memtableSize : UInt64) (sema : Bool) (st : MemtableState) : Prop where
  /-- The calls are a run of the store. -/
  run : Run Step (KVStore.new 2 memtableSize (some sema)) st.calls st.kvs
  /-- The stage only reads and writes. -/
  unflushed : ∀ e ∈ st.calls, Unflushed e

/-- The state in which the stage starts. -/
theorem serving_start (cfg : Config) (sema : Bool) :
    Serving cfg.memtableSize sema (memtableStart cfg (some sema)) :=
  ⟨.start, fun _ h => absurd h List.not_mem_nil⟩

/-- The result of a read. -/
def readResult : Option Bytes → CmdResult
  | some value => ⟨.readPass, value⟩
  | none => ⟨.readFail, []⟩

/-- The outcome of a read after a run. -/
theorem get_eq_readResult {mtMaxSz : UInt64} {sema : Option Bool} {history : List Event}
    {s : KVStore 2} (hr : Run Step (KVStore.new 2 mtMaxSz sema) history s)
    (hw : ∀ e ∈ history, Unflushed e) (key : Bytes) :
    s.get key [] = .ok ((readResult (lastWrite key history)).status,
      (readResult (lastWrite key history)).result) := by
  rw [get_eq_of_unflushed hr hw]
  cases lastWrite key history <;> rfl

/-- The state after a read of a key. -/
def afterRead (st : MemtableState) (key : Bytes) : MemtableState :=
  ⟨st.kvs, .get key (readResult (lastWrite key st.calls)).status
    (readResult (lastWrite key st.calls)).result :: st.calls⟩

section Answers

variable {memtableSize : UInt64} {sema : Bool} {st : MemtableState}

/-- A read is answered from the last accepted write of its key. -/
theorem Serving.get_eq (hst : Serving memtableSize sema st) (key : Bytes) :
    st.kvs.get key [] = .ok ((readResult (lastWrite key st.calls)).status,
      (readResult (lastWrite key st.calls)).result) := by
  exact get_eq_readResult hst.run hst.unflushed key

/-- The answer to a read. -/
theorem Serving.answer_read (hst : Serving memtableSize sema st) {c : Cmd}
    (hc : c.type = cmdRead) :
    answer st c = .ok (afterRead st c.op0, some (readResult (lastWrite c.op0 st.calls))) := by
  rw [answer, if_pos hc, hst.get_eq]
  rfl

/-- A write completes with one of two statuses. -/
theorem Serving.answer_write (hst : Serving memtableSize sema st) {c : Cmd}
    (hc : c.type = cmdWrite) : ∃ kvs status, st.kvs.put c.op0 c.op1 = .ok (kvs, status) ∧
      (status = .writePass ∨ status = .waitFlush) ∧
      answer st c = .ok (⟨kvs, .put c.op0 c.op1 status kvs.curMt :: st.calls⟩,
        some ⟨status, []⟩) := by
  obtain ⟨i, hs⟩ := shape_of_run hst.run
  obtain ⟨b, hflag⟩ := Option.isSome_iff_exists.mp (flag_of_run hst.run)
  obtain ⟨kvs, status, hput⟩ := KVStore.put_ok hs.cur hflag c.op0 c.op1
  have hread : c.type ≠ cmdRead := by rw [hc]; decide
  refine ⟨kvs, status, hput, ?_, ?_⟩
  · rcases KVStore.put_cases hs.cur hput with ⟨hst', _⟩ | ⟨hst', _⟩
    · exact .inr hst'
    · exact .inl hst'
  · rw [answer, if_neg hread, if_pos hc, hput]
    rfl

/-- Every command is answered, and the recorded calls stay a run. -/
theorem Serving.answer_ok (hst : Serving memtableSize sema st) (c : Cmd) :
    ∃ st' cr, answer st c = .ok (st', cr) ∧ Serving memtableSize sema st' := by
  by_cases hread : c.type = cmdRead
  · refine ⟨_, _, hst.answer_read hread, hst.run.next (.get (hst.get_eq c.op0)), ?_⟩
    exact List.forall_mem_cons.mpr ⟨trivial, hst.unflushed⟩
  · by_cases hwrite : c.type = cmdWrite
    · obtain ⟨kvs, status, hput, _, hanswer⟩ := hst.answer_write hwrite
      refine ⟨_, _, hanswer, hst.run.next (.put hput rfl), ?_⟩
      exact List.forall_mem_cons.mpr ⟨trivial, hst.unflushed⟩
    · exact ⟨st, none, by rw [answer, if_neg hread, if_neg hwrite], hst⟩

end Answers

/-- The reply to a read that fails. -/
theorem respStr_readResult_none : respStr (readResult none) = ascii "READ_FAIL" := rfl

/-- The reply to a read that passes is the bare value. -/
theorem respStr_readResult_some (value : Bytes) : respStr (readResult (some value)) = value := rfl

section Overflow

variable {cfg : Config} {parseRequest : Bytes → Option NetRequest}
  {parseCommand : Bytes → Option NetCommand}

/-- If the arrival reads a key, the last accepted value of the key fits the
buffer allocated for the arrival. -/
def ReadFits (cfg : Config) (parseRequest : Bytes → Option NetRequest)
    (parseCommand : Bytes → Option NetCommand) (st : MemtableState) (a : Arrival) : Prop :=
  ∀ req nc value, parseRequest (received cfg a.bytes) = some req →
    parseCommand req.body = some nc → (buildCmd a.cmdFound nc).type = cmdRead →
    lastWrite (buildCmd a.cmdFound nc).op0 st.calls = some value →
      value.length ≤ max req.sz.toNat (cfg.keyMaxsize.toNat+cfg.valMaxsize.toNat+10)

/-- Serving one arrival keeps the recorded calls a run. -/
theorem Serving.serve_next {memtableSize : UInt64} {sema : Bool} {st : MemtableState}
    (hst : Serving memtableSize sema st) {a : Arrival}
    {s' : Unit × ((Unit × (MemtableState × Unit)) × Unit)} {reply : Option Reply}
    (h : serve cfg parseRequest parseCommand (serveStart st) a = .ok (s', reply)) :
    Serving memtableSize sema s'.2.1.2.1 := by
  cases hreq : parseRequest (received cfg a.bytes) with
  | none =>
    rw [serve_of_no_request hreq] at h
    cases h
    exact hst
  | some req =>
    cases hcmd : parseCommand (readCStr req.body a.afterBody req.sz.toNat) with
    | none =>
      rw [serve_of_no_command hreq hcmd] at h
      split at h <;> cases h
      exact hst
    | some nc =>
      obtain ⟨st', cr, hanswer, hst'⟩ := hst.answer_ok (buildCmd a.cmdFound nc)
      rw [serve_of_command hreq hcmd, hanswer] at h
      cases cr with
      | none => cases h; exact hst'
      | some cr =>
        dsimp only at h
        split at h <;> cases h
        exact hst'

/-- A status word fits every buffer. -/
theorem respStr_fits (hcfg : cfg.Fits) {cr : CmdResult} (h : cr.status ≠ .readPass)
    (sz : UInt64) : (respStr cr).length ≤ (bodyCap cfg sz).toNat := by
  have hlen := length_respStr_le h
  rw [toNat_bodyCap hcfg]
  omega

/-- An arrival without a command reads nothing. -/
theorem readFits_of_no_command {st : MemtableState} {a : Arrival} {req : NetRequest}
    (hreq : parseRequest (received cfg a.bytes) = some req) (hcmd : parseCommand req.body = none) :
    ReadFits cfg parseRequest parseCommand st a := by
  intro req' nc value hreq' hcmd'
  rw [hreq] at hreq'
  cases hreq'
  rw [hcmd] at hcmd'
  cases hcmd'

/-- The condition on an arrival that carries a command. -/
theorem readFits_iff (hcfg : cfg.Fits) {st : MemtableState} {a : Arrival}
    {req : NetRequest} {nc : NetCommand} (hreq : parseRequest (received cfg a.bytes) = some req)
    (hcmd : parseCommand req.body = some nc) :
    ReadFits cfg parseRequest parseCommand st a ↔ ((buildCmd a.cmdFound nc).type = cmdRead →
      ∀ value, lastWrite (buildCmd a.cmdFound nc).op0 st.calls = some value →
        value.length ≤ (bodyCap cfg req.sz).toNat) := by
  rw [toNat_bodyCap hcfg]
  constructor
  · exact fun h hread value => h req nc value hreq hcmd hread
  · intro h req' nc' value hreq' hcmd' hread
    rw [hreq] at hreq'
    cases hreq'
    rw [hcmd] at hcmd'
    cases hcmd'
    exact h hread value

/-- Serving one arrival overflows exactly when it reads a value that does not fit. -/
theorem Serving.serve_overflow_iff {memtableSize : UInt64} {sema : Bool} {st : MemtableState}
    (hst : Serving memtableSize sema st) (hcfg : cfg.Fits) {a : Arrival} {req : NetRequest}
    (hreq : parseRequest (received cfg a.bytes) = some req)
    (hsz : req.sz.toNat = req.body.length) :
    serve cfg parseRequest parseCommand (serveStart st) a = .error .heapOverflow ↔
      ¬ ReadFits cfg parseRequest parseCommand st a := by
  have hbody : readCStr req.body a.afterBody req.sz.toNat = req.body := by
    rw [hsz, readCStr_length_self]
  cases hcmd : parseCommand req.body with
  | none =>
    rw [serve_of_no_command hreq (by rw [hbody, hcmd])]
    refine iff_of_false ?_ fun h => h (readFits_of_no_command hreq hcmd)
    split <;> simp
  | some nc =>
    rw [serve_of_command hreq (by rw [hbody, hcmd]), readFits_iff hcfg hreq hcmd]
    by_cases hread : (buildCmd a.cmdFound nc).type = cmdRead
    · rw [hst.answer_read hread]
      dsimp only
      cases hlast : lastWrite (buildCmd a.cmdFound nc).op0 st.calls with
      | none =>
        rw [if_pos (respStr_fits hcfg (by decide) req.sz)]
        exact iff_of_false (by simp) fun h => h fun _ _ hnone => by cases hnone
      | some value =>
        rw [respStr_readResult_some]
        by_cases hfit : value.length ≤ (bodyCap cfg req.sz).toNat
        · rw [if_pos hfit]
          refine iff_of_false (by simp) fun h => h fun _ v hv => ?_
          cases hv
          exact hfit
        · rw [if_neg hfit]
          exact iff_of_true rfl fun h => hfit (h hread value rfl)
    · refine iff_of_false ?_ fun h => h fun hread' => absurd hread' hread
      by_cases hwrite : (buildCmd a.cmdFound nc).type = cmdWrite
      · obtain ⟨kvs, status, _, hstatus, hanswer⟩ := hst.answer_write hwrite
        have hpass : status ≠ .readPass := by rcases hstatus with rfl | rfl <;> decide
        rw [hanswer]
        dsimp only
        rw [if_pos (respStr_fits hcfg hpass req.sz)]
        simp
      · rw [answer, if_neg hread, if_neg hwrite]
        simp

/-- No reply overruns its buffer exactly when every read that is served finds a
value that fits the buffer of its own request. -/
theorem no_overflow_iff (hcfg : cfg.Fits) (sema : Bool) (as : List Arrival)
    (hreq : ∀ a ∈ as, ∃ req, parseRequest (received cfg a.bytes) = some req ∧
      req.sz.toNat = req.body.length) :
    (serve cfg parseRequest parseCommand).run (serveStart (memtableStart cfg (some sema))) as ≠
        .error .heapOverflow ↔
      ∀ earlier a later st replies, as = earlier ++ a :: later →
        (serve cfg parseRequest parseCommand).run (serveStart (memtableStart cfg (some sema)))
          earlier = .ok (serveStart st, replies) →
        ReadFits cfg parseRequest parseCommand st a := by
  have hserving : ∀ earlier s' replies,
      (serve cfg parseRequest parseCommand).run (serveStart (memtableStart cfg (some sema)))
        earlier = .ok (s', replies) → Serving cfg.memtableSize sema s'.2.1.2.1 := by
    intro earlier s' replies hrun
    exact Stage.run_invariant (I := fun s => Serving cfg.memtableSize sema s.2.1.2.1)
      (fun s a s' b hs h => hs.serve_next h) (serving_start cfg sema) hrun
  rw [Ne, Stage.run_eq_error_iff]
  constructor
  · intro hno earlier a later st replies hsplit hrun
    by_contra hfits
    obtain ⟨req, hparse, hsz⟩ := hreq a (by rw [hsplit]; simp)
    exact hno ⟨earlier, a, later, _, replies, hsplit, hrun,
      ((hserving _ _ _ hrun).serve_overflow_iff hcfg hparse hsz).mpr hfits⟩
  · rintro hall ⟨earlier, a, later, s', replies, hsplit, hrun, hover⟩
    obtain ⟨req, hparse, hsz⟩ := hreq a (by rw [hsplit]; simp)
    exact ((hserving _ _ _ hrun).serve_overflow_iff hcfg hparse hsz).mp hover
      (hall earlier a later s'.2.1.2.1 replies hsplit hrun)

/-- A value that just fits the receive buffer of the host's configuration. -/
def longWrite : NetCommand := ⟨1, [[], List.replicate 1187 0]⟩

/-- A read of the same key. -/
def shortRead : NetCommand := ⟨0, [[]]⟩

/-- The datagram of a command, with the size of its body. -/
def commandArrival (nc : NetCommand) : Arrival :=
  ⟨(NetRequest.mk [] 0 (size nc.serializeAsString) nc.serializeAsString 0).serializeAsString,
    fun _ => 0, fun _ => 0, 0, 0⟩

/-- The two datagrams are requests of the sizes they give. -/
theorem parse_commandArrival {nc : NetCommand} (h : nc = longWrite ∨ nc = shortRead) :
    NetRequest.parseFromString (received hostConfig (commandArrival nc).bytes) =
      some ⟨[], 0, size nc.serializeAsString, nc.serializeAsString, 0⟩ ∧
    (size nc.serializeAsString).toNat = nc.serializeAsString.length ∧
    (commandArrival nc).bytes.length ≤ hostConfig.maxSz.toNat := by
  rcases h with rfl | rfl
  · exact ⟨by decide +kernel, by decide +kernel, by decide +kernel⟩
  · exact ⟨by decide +kernel, by decide +kernel, by decide +kernel⟩

/-- The exact condition on the two datagrams. -/
theorem no_overflow_iff_long_write :
    (serve hostConfig NetRequest.parseFromString NetCommand.parseFromString).run
        (serveStart (memtableStart hostConfig (some false)))
        [commandArrival longWrite, commandArrival shortRead] ≠ .error .heapOverflow ↔
      ∀ earlier a later st replies,
        [commandArrival longWrite, commandArrival shortRead] = earlier ++ a :: later →
        (serve hostConfig NetRequest.parseFromString NetCommand.parseFromString).run
          (serveStart (memtableStart hostConfig (some false))) earlier =
            .ok (serveStart st, replies) →
        ReadFits hostConfig NetRequest.parseFromString NetCommand.parseFromString st a :=
  no_overflow_iff hostConfig_fits false _ fun a ha => by
    simp only [List.mem_cons, List.not_mem_nil, or_false] at ha
    rcases ha with rfl | rfl
    · exact ⟨_, (parse_commandArrival (.inl rfl)).1, (parse_commandArrival (.inl rfl)).2.1⟩
    · exact ⟨_, (parse_commandArrival (.inr rfl)).1, (parse_commandArrival (.inr rfl)).2.1⟩

/-- Replies do overrun their buffers: in the host's configuration a value of
1187 bytes is accepted and then copied into a buffer of 1110 bytes. -/
theorem long_value_overflows :
    ¬ ∀ (cfg : Config) (sema : Bool) (as : List Arrival), cfg.Fits →
      (∀ a ∈ as, a.bytes.length ≤ cfg.maxSz.toNat ∧
        ∃ req, NetRequest.parseFromString (received cfg a.bytes) = some req ∧
          req.sz.toNat = req.body.length) →
      (serve cfg NetRequest.parseFromString NetCommand.parseFromString).run
        (serveStart (memtableStart cfg (some sema))) as ≠ .error .heapOverflow := by
  intro hall
  refine hall hostConfig false [commandArrival longWrite, commandArrival shortRead]
    hostConfig_fits (fun a ha => ?_) ?_
  · simp only [List.mem_cons, List.not_mem_nil, or_false] at ha
    rcases ha with rfl | rfl
    · obtain ⟨hparse, hsz, hlen⟩ := parse_commandArrival (.inl rfl)
      exact ⟨hlen, _, hparse, hsz⟩
    · obtain ⟨hparse, hsz, hlen⟩ := parse_commandArrival (.inr rfl)
      exact ⟨hlen, _, hparse, hsz⟩
  · have hfault : (match (serve hostConfig NetRequest.parseFromString
        NetCommand.parseFromString).run (serveStart (memtableStart hostConfig (some false)))
          [commandArrival longWrite, commandArrival shortRead] with
        | .error e => some e
        | .ok _ => none) = some .heapOverflow := by decide +kernel
    split at hfault
    · next hrun =>
      cases hfault
      exact hrun
    · cases hfault

end Overflow

section Ambiguity

/-- The context reads the key. -/
def ReadsKey (key : Bytes) (ctx : RequestContext) : Prop :=
  ∃ c, ctx.body = .cmd c ∧ c.type = cmdRead ∧ c.op0 = key

/-- The bytes that the memtable and the output stage reply to a context. -/
def readReply (s : KVStore 2) (ctx : RequestContext) : Except Fault (Option Bytes) :=
  ((enclaveMemtableStage.comp enclaveOutputStage) (⟨s, []⟩, ()) ctx).map fun r =>
    r.2.map fun out => out.originalBody.read out.sz

/-- Two stores that reply alike to reads of the key hold the same under it. -/
def ReplyDetermines (s₁ s₂ : KVStore 2) (key : Bytes) : Prop :=
  ∀ ctx₁ ctx₂ bytes, ReadsKey key ctx₁ → ReadsKey key ctx₂ →
    readReply s₁ ctx₁ = .ok (some bytes) → readReply s₂ ctx₂ = .ok (some bytes) →
      s₁.get key [] = s₂.get key []

/-- The reply to a read is its result, if the buffer takes it. -/
theorem readReply_eq {s : KVStore 2} {key : Bytes} {ctx : RequestContext} {cr : CmdResult}
    (hctx : ReadsKey key ctx) (hget : s.get key [] = .ok (cr.status, cr.result)) :
    readReply s ctx = if (respStr cr).length ≤ ctx.originalBody.cap.toNat then
      .ok (some (respStr cr)) else .error .heapOverflow := by
  obtain ⟨c, hbody, htype, rfl⟩ := hctx
  have hmemtable : enclaveMemtableStage ⟨s, []⟩ ctx = _ := enclaveMemtableStage_eq hbody
  rw [answer, if_pos htype, hget] at hmemtable
  have houtput : enclaveOutputStage () { ctx with body := .result cr } = _ :=
    enclaveOutputStage_eq rfl
  unfold readReply
  simp only [Stage.comp, hmemtable, Except.map, Option.map_some]
  rw [houtput]
  dsimp only
  by_cases hfit : (respStr cr).length ≤ ctx.originalBody.cap.toNat
  · have hwrite := Buffer.write_of_le hfit
    rw [if_pos hfit, hwrite]
    simp only [Except.map, Option.map_some, Buffer.read_write hwrite]
  · rw [if_neg hfit, Buffer.write_of_lt (Nat.lt_of_not_le hfit)]
    rfl

/-- A read of the key into a buffer of the given size. -/
def readContext (key : Bytes) (cap : UInt64) : RequestContext :=
  ⟨List.replicate 16 0, 0, ⟨cap, []⟩, .cmd ⟨cmdRead, key, []⟩, 0, 0, 0⟩

/-- A reply that was sent is the text of the result. -/
theorem respStr_of_readReply {s : KVStore 2} {key bytes : Bytes} {ctx : RequestContext}
    {cr : CmdResult} (hctx : ReadsKey key ctx) (hget : s.get key [] = .ok (cr.status, cr.result))
    (h : readReply s ctx = .ok (some bytes)) : respStr cr = bytes := by
  rw [readReply_eq hctx hget] at h
  split at h <;> cases h
  rfl

/-- A failure status is replied into a buffer that takes it. -/
theorem readReply_readContext {s : KVStore 2} {key : Bytes} {cr : CmdResult}
    (hget : s.get key [] = .ok (cr.status, cr.result)) (h : respStr cr = ascii "READ_FAIL") :
    readReply s (readContext key 9) = .ok (some (ascii "READ_FAIL")) := by
  rw [readReply_eq ⟨_, rfl, rfl, rfl⟩ hget, h]
  rfl

/-- Two stores may be compared in either order. -/
theorem ReplyDetermines.symm {s₁ s₂ : KVStore 2} {key : Bytes} (h : ReplyDetermines s₁ s₂ key) :
    ReplyDetermines s₂ s₁ key := by
  intro ctx₁ ctx₂ bytes hctx₁ hctx₂ hreply₁ hreply₂
  exact (h ctx₂ ctx₁ bytes hctx₂ hctx₁ hreply₂ hreply₁).symm

/-- A missing key and a value that spells the failure status are answered alike. -/
theorem not_replyDetermines {s₁ s₂ : KVStore 2} {key : Bytes}
    (hnone : s₁.get key [] = .ok ((readResult none).status, (readResult none).result))
    (hsome : s₂.get key [] = .ok ((readResult (some (ascii "READ_FAIL"))).status,
      (readResult (some (ascii "READ_FAIL"))).result)) : ¬ ReplyDetermines s₁ s₂ key := by
  intro hdet
  have heq := hdet _ _ _ ⟨_, rfl, rfl, rfl⟩ ⟨_, rfl, rfl, rfl⟩
    (readReply_readContext hnone rfl) (readReply_readContext hsome rfl)
  rw [hnone, hsome] at heq
  cases heq

/-- The replies of two runs determine the outcomes of a read, unless the key is
absent after one and spells the failure status after the other. -/
theorem reply_determines_iff {size₁ size₂ : UInt64} {sema₁ sema₂ : Option Bool}
    {history₁ history₂ : List Event} {s₁ s₂ : KVStore 2}
    (h₁ : Run Step (KVStore.new 2 size₁ sema₁) history₁ s₁)
    (h₂ : Run Step (KVStore.new 2 size₂ sema₂) history₂ s₂)
    (hw₁ : ∀ e ∈ history₁, Unflushed e) (hw₂ : ∀ e ∈ history₂, Unflushed e) (key : Bytes) :
    ReplyDetermines s₁ s₂ key ↔
      ¬ (lastWrite key history₁ = none ∧ lastWrite key history₂ = some (ascii "READ_FAIL") ∨
        lastWrite key history₂ = none ∧ lastWrite key history₁ = some (ascii "READ_FAIL")) := by
  have hget₁ := get_eq_readResult h₁ hw₁ key
  have hget₂ := get_eq_readResult h₂ hw₂ key
  constructor
  · rintro hdet (⟨hnone, hsome⟩ | ⟨hnone, hsome⟩)
    · rw [hnone] at hget₁
      rw [hsome] at hget₂
      exact not_replyDetermines hget₁ hget₂ hdet
    · rw [hsome] at hget₁
      rw [hnone] at hget₂
      exact not_replyDetermines hget₂ hget₁ hdet.symm
  · intro hno ctx₁ ctx₂ bytes hctx₁ hctx₂ hreply₁ hreply₂
    have htext₁ := respStr_of_readReply hctx₁ hget₁ hreply₁
    have htext₂ := respStr_of_readReply hctx₂ hget₂ hreply₂
    have hsame := htext₁.trans htext₂.symm
    rw [hget₁, hget₂]
    cases hlast₁ : lastWrite key history₁ with
    | none =>
      rw [hlast₁, respStr_readResult_none] at hsame
      cases hlast₂ : lastWrite key history₂ with
      | none => rfl
      | some value =>
        rw [hlast₂, respStr_readResult_some] at hsame
        exact absurd (.inl ⟨hlast₁, by rw [hlast₂, hsame]⟩) hno
    | some value =>
      rw [hlast₁, respStr_readResult_some] at hsame
      cases hlast₂ : lastWrite key history₂ with
      | none =>
        rw [hlast₂, respStr_readResult_none] at hsame
        exact absurd (.inr ⟨hlast₂, by rw [hlast₁, hsame]⟩) hno
      | some value' =>
        rw [hlast₂, respStr_readResult_some] at hsame
        rw [hsame]

/-- The store after the value READ_FAIL was written is a run of the store. -/
theorem failureWrite_run :
    ∃ history s, Run Step (KVStore.new 2 1100000 none) history s ∧
      (∀ e ∈ history, Unflushed e) ∧ lastWrite [1] history = some (ascii "READ_FAIL") := by
  have hmap : (exec perform (KVStore.new 2 1100000 none) [.put [1] (ascii "READ_FAIL")]).map
      Prod.fst = some [.put [1] (ascii "READ_FAIL") .writePass 0] := by rfl
  obtain ⟨⟨history, s⟩, hexec, heq⟩ := Option.map_eq_some_iff.mp hmap
  dsimp only at heq
  subst heq
  refine ⟨_, s, run_of_exec step_of_perform hexec, fun e he => ?_, rfl⟩
  rw [List.mem_singleton.mp he]
  trivial

/-- The exact condition on the empty store and the store after that write. -/
theorem reply_determines_iff_failure_write :
    ∃ history s, Run Step (KVStore.new 2 1100000 none) history s ∧
      (ReplyDetermines (KVStore.new 2 1100000 none) s [1] ↔
        ¬ (lastWrite [1] [] = none ∧ lastWrite [1] history = some (ascii "READ_FAIL") ∨
          lastWrite [1] history = none ∧ lastWrite [1] [] = some (ascii "READ_FAIL"))) := by
  obtain ⟨history, s, hr, hw, _⟩ := failureWrite_run
  exact ⟨history, s, hr,
    reply_determines_iff .start hr (fun _ h => absurd h List.not_mem_nil) hw [1]⟩

/-- Replies do not always determine the outcome: a missing key and the value
READ_FAIL are answered alike. -/
theorem missing_key_reads_as_value :
    ¬ ∀ (history₁ history₂ : List Event) (s₁ s₂ : KVStore 2) (key : Bytes),
      Run Step (KVStore.new 2 1100000 none) history₁ s₁ →
      Run Step (KVStore.new 2 1100000 none) history₂ s₂ →
      (∀ e ∈ history₁, Unflushed e) → (∀ e ∈ history₂, Unflushed e) →
        ReplyDetermines s₁ s₂ key := by
  intro hall
  obtain ⟨history, s, hr, hw, hlast⟩ := failureWrite_run
  have hempty : ∀ e ∈ ([] : List Event), Unflushed e := fun _ h => absurd h List.not_mem_nil
  have hget := get_eq_readResult hr hw [1]
  rw [hlast] at hget
  exact not_replyDetermines (get_eq_readResult .start hempty [1]) hget
    (hall [] history _ s [1] .start hr hempty hw)

end Ambiguity

end CapsuleDB.ServerReplies

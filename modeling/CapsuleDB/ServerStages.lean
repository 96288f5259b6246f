import CapsuleDB.DecimalPrefix
import CapsuleDB.EnclaveKvsRun
import CapsuleDB.FifoStage
import CapsuleDB.NetMessages

/-!
# The five stages of the server

Each thread of the server repeats one iteration: take a context from its input
queue, work on it, push it on. The iterations are translated here as stages
over contexts. Allocations are read with the contents they may have: the bytes
behind a received string, the body pointer of a new context and the type of a
new command are inputs of the model. The two parsers are parameters.
-/

namespace CapsuleDB.ServerStages

open EnclaveMemTable EnclaveKvs EnclaveKvsRun FifoStage NetMessages DecimalPrefix

/-- The bytes of a text. -/
def ascii (s : String) : Bytes := s.toList.map fun c => UInt8.ofNat c.toNat

/-- The fields of `Config` that the server reads. -/
structure Config where
  /-- The longest key. -/
  keyMaxsize : UInt64
  /-- The longest value. -/
  valMaxsize : UInt64
  /-- The threshold of a memtable. -/
  memtableSize : UInt64

/-- The configuration set by `main` of the host. -/
def hostConfig : Config := ⟨100, 1000, 1100000⟩

/-- The size of the receive buffer. -/
def Config.maxSz (cfg : Config) : UInt64 := cfg.keyMaxsize+cfg.valMaxsize+100

/-- The smallest size of a context's buffer. -/
def Config.minBody (cfg : Config) : UInt64 := cfg.keyMaxsize+cfg.valMaxsize+10

/-- `CMD_READ`. -/
def cmdRead : UInt32 := 0

/-- `CMD_WRITE`. -/
def cmdWrite : UInt32 := 1

/-- `struct Cmd`. -/
structure Cmd where
  /-- An enumeration value, or whatever the allocation held. -/
  type : UInt32
  /-- `ops[0]`, the key. -/
  op0 : Bytes
  /-- `ops[1]`, the value of a write. -/
  op1 : Bytes

/-- `struct CmdResult`. -/
structure CmdResult where
  /-- The status of the store. -/
  status : KVStatus
  /-- The value read. -/
  result : Bytes

/-- What `RequestContext::body` points to. -/
inductive Body
  /-- An address that no allocation of a stage returned. -/
  | pointer (address : UInt64)
  | cmd (c : Cmd)
  | result (r : CmdResult)

/-- `free`. A null pointer may be freed. -/
def free : Body → Except Fault Unit
  | .pointer address => if address = 0 then .ok () else .error .badFree
  | .cmd _ => .ok ()
  | .result _ => .ok ()

/-- Allocated bytes, of which the front has been written. -/
structure Buffer where
  /-- The size of the allocation. -/
  cap : UInt64
  /-- The bytes written so far. -/
  bytes : Bytes

/-- `malloc`. -/
def Buffer.malloc (cap : UInt64) : Buffer := ⟨cap, []⟩

/-- `memcpy` to the front of a buffer. -/
def Buffer.write (b : Buffer) (data : Bytes) : Except Fault Buffer :=
  if data.length ≤ b.cap.toNat then .ok { b with bytes := data ++ b.bytes.drop data.length }
  else .error .heapOverflow

/-- `std::string` of the first `count` bytes. -/
def Buffer.read (b : Buffer) (count : UInt64) : Bytes := b.bytes.take count.toNat

/-- `struct RequestContext`. -/
structure RequestContext where
  /-- The array `reply_addr` of 16 bytes. -/
  replyAddr : Bytes
  /-- The port of the reply. -/
  replyPort : UInt16
  /-- The buffer of the request and later of the reply. -/
  originalBody : Buffer
  /-- The object passed between the enclave stages. -/
  body : Body
  /-- The number of bytes in use of the buffer. -/
  sz : UInt64
  /-- The number the reply is tagged with. -/
  clientSeqno : UInt64
  /-- What `Cmd::type` holds when the input stage allocates the command of this
  request; not a field of the source. -/
  cmdFound : UInt32

/-- A datagram with what the threads find in memory that they have not written. -/
structure Arrival where
  /-- The datagram. -/
  bytes : Bytes
  /-- The memory behind the terminator of the parsed body. -/
  afterBody : ℕ → UInt8
  /-- The memory behind the terminator of the parsed address. -/
  afterReplyaddr : ℕ → UInt8
  /-- `RequestContext::body` at the allocation of the context. -/
  ctxBody : UInt64
  /-- `Cmd::type` at the allocation of the command. -/
  cmdFound : UInt32

/-- The first `count` bytes at `s.c_str()`: the string, its terminator, and the
memory behind it. -/
def readCStr (s : Bytes) (after : ℕ → UInt8) (count : ℕ) : Bytes :=
  (s ++ [0]).take count ++ (List.range (count-(s.length+1))).map after

/-- The text of a character array, up to its first NUL. -/
def cText (s : Bytes) : Bytes := s.takeWhile fun b => decide (b ≠ 0)

/-- What `recvfrom` stores of a datagram. -/
def received (cfg : Config) (datagram : Bytes) : Bytes := datagram.take cfg.maxSz.toNat

/-- The size of the buffer allocated for a request. -/
def bodyCap (cfg : Config) (sz : UInt64) : UInt64 := if sz < cfg.minBody then cfg.minBody else sz

/-- One iteration of `init_net_rx`. -/
def initNetRx (cfg : Config) (parse : Bytes → Option NetRequest) :
    Stage Fault Unit Arrival RequestContext := fun _ a =>
  match parse (received cfg a.bytes) with
  | none => .ok ((), none)
  | some req =>
    match (Buffer.malloc (bodyCap cfg req.sz)).write
        (readCStr req.body a.afterBody req.sz.toNat) with
    | .error e => .error e
    | .ok buffer =>
      .ok ((), some
        { replyAddr := readCStr req.replyaddr a.afterReplyaddr 16
          replyPort := req.replyport.toUInt16
          originalBody := buffer
          body := .pointer a.ctxBody
          sz := req.sz
          clientSeqno := req.clientSeqno
          cmdFound := a.cmdFound })

/-- The command the input stage builds. Its type is set on two paths only. -/
def buildCmd (found : UInt32) (nc : NetCommand) : Cmd :=
  if nc.type = 0 ∧ 1 ≤ nc.ops.length then ⟨cmdRead, nc.ops.getD 0 [], []⟩
  else if nc.type = 1 ∧ 2 ≤ nc.ops.length then ⟨cmdWrite, nc.ops.getD 0 [], nc.ops.getD 1 []⟩
  else ⟨found, [], []⟩

/-- One iteration of `enclave_input_stage`. -/
def enclaveInputStage (parse : Bytes → Option NetCommand) :
    Stage Fault Unit RequestContext RequestContext := fun _ ctx =>
  match parse (ctx.originalBody.read ctx.sz) with
  | none => (free ctx.body).map fun _ => ((), none)
  | some nc => .ok ((), some { ctx with body := .cmd (buildCmd ctx.cmdFound nc) })

/-- What the memtable stage keeps between iterations. -/
structure MemtableState where
  /-- The store. -/
  kvs : KVStore 2
  /-- The completed calls of the store, newest first; not kept by the source. -/
  calls : List Event

/-- One iteration of `enclave_memtable_stage`. A command of any other type is
dropped with its context. -/
def enclaveMemtableStage : Stage Fault MemtableState RequestContext RequestContext := fun st ctx =>
  match ctx.body with
  | .cmd c =>
    if c.type = cmdRead then
      match st.kvs.get c.op0 [] with
      | .error e => .error e
      | .ok (status, val) =>
        .ok (⟨st.kvs, .get c.op0 status val :: st.calls⟩,
          some { ctx with body := .result ⟨status, val⟩ })
    else if c.type = cmdWrite then
      match st.kvs.put c.op0 c.op1 with
      | .error e => .error e
      | .ok (kvs, status) =>
        .ok (⟨kvs, .put c.op0 c.op1 status kvs.curMt :: st.calls⟩,
          some { ctx with body := .result ⟨status, []⟩ })
    else .ok (st, none)
  | _ => .error .wrongBody

/-- The text of a reply. -/
def respStr (cr : CmdResult) : Bytes :=
  if cr.status = .readFail then ascii "READ_FAIL"
  else if cr.status = .readPass then cr.result
  else if cr.status = .writePass then ascii "WRITE_PASS"
  else ascii "WRITE_FAIL"

/-- One iteration of `enclave_output_stage`. -/
def enclaveOutputStage : Stage Fault Unit RequestContext RequestContext := fun _ ctx =>
  match ctx.body with
  | .result cr =>
    match ctx.originalBody.write (respStr cr) with
    | .error e => .error e
    | .ok buffer => .ok ((), some { ctx with originalBody := buffer, sz := size (respStr cr) })
  | _ => .error .wrongBody

/-- A datagram sent by `init_net_tx`. -/
structure Reply where
  /-- The address given to `inet_pton`. -/
  address : Bytes
  /-- The port. -/
  port : UInt16
  /-- The contents. -/
  payload : Bytes
  deriving DecidableEq

/-- One iteration of `init_net_tx`. -/
def initNetTx : Stage Fault Unit RequestContext Reply := fun _ ctx =>
  .ok ((), some
    { address := cText ctx.replyAddr
      port := ctx.replyPort
      payload := decimal ctx.clientSeqno.toNat ++ ascii "|" ++ ctx.originalBody.read ctx.sz })

/-- The stages inside the enclave, one request after another. -/
def enclaveStages (parseCommand : Bytes → Option NetCommand) :
    Stage Fault (Unit × (MemtableState × Unit)) RequestContext RequestContext :=
  (enclaveInputStage parseCommand).comp (enclaveMemtableStage.comp enclaveOutputStage)

/-- The state in which the stages inside the enclave start. -/
def enclaveStart (st : MemtableState) : Unit × (MemtableState × Unit) := ((), st, ())

/-- The store that the memtable stage constructs, with the flag assigned to it. -/
def memtableStart (cfg : Config) (flushSema : Option Bool) : MemtableState :=
  ⟨KVStore.new 2 cfg.memtableSize flushSema, []⟩

/-- A copy that ends with the terminator reads no other memory. -/
theorem readCStr_of_le {s : Bytes} {count : ℕ} (h : count ≤ s.length+1) (after : ℕ → UInt8) :
    readCStr s after count = (s ++ [0]).take count := by
  rw [readCStr, Nat.sub_eq_zero_of_le h]
  exact List.append_nil _

/-- A copy of exactly the string. -/
theorem readCStr_length_self (s : Bytes) (after : ℕ → UInt8) :
    readCStr s after s.length = s := by
  rw [readCStr_of_le (by omega), List.take_left]

/-- A copy has the length that was asked for. -/
@[simp] theorem length_readCStr (s : Bytes) (after : ℕ → UInt8) (count : ℕ) :
    (readCStr s after count).length = count := by
  simp only [readCStr, List.length_append, List.length_take, List.length_map, List.length_range,
    List.length_singleton]
  omega

/-- A buffer takes what was asked for. -/
theorem le_bodyCap (cfg : Config) (sz : UInt64) : sz.toNat ≤ (bodyCap cfg sz).toNat := by
  unfold bodyCap
  split
  · next h => exact (UInt64.lt_iff_toNat_lt.mp h).le
  · exact le_refl _

/-- The sizes computed from the configuration do not wrap around. -/
def Config.Fits (cfg : Config) : Prop := cfg.keyMaxsize.toNat+cfg.valMaxsize.toNat+100 < 2 ^ 64

/-- The sizes of the host's configuration do not wrap around. -/
theorem hostConfig_fits : hostConfig.Fits := by
  unfold Config.Fits
  decide

/-- The smallest buffer. -/
theorem toNat_minBody {cfg : Config} (h : cfg.Fits) :
    cfg.minBody.toNat = cfg.keyMaxsize.toNat+cfg.valMaxsize.toNat+10 := by
  have hten : (10 : UInt64).toNat = 10 := rfl
  unfold Config.Fits at h
  rw [Config.minBody, UInt64.toNat_add, UInt64.toNat_add, hten]
  omega

/-- The receive buffer. -/
theorem toNat_maxSz {cfg : Config} (h : cfg.Fits) :
    cfg.maxSz.toNat = cfg.keyMaxsize.toNat+cfg.valMaxsize.toNat+100 := by
  have hhundred : (100 : UInt64).toNat = 100 := rfl
  unfold Config.Fits at h
  rw [Config.maxSz, UInt64.toNat_add, UInt64.toNat_add, hhundred]
  omega

/-- The size of the buffer allocated for a request. -/
theorem toNat_bodyCap {cfg : Config} (h : cfg.Fits) (sz : UInt64) :
    (bodyCap cfg sz).toNat = max sz.toNat (cfg.keyMaxsize.toNat+cfg.valMaxsize.toNat+10) := by
  rw [← toNat_minBody h, bodyCap]
  split
  · next hlt => exact (max_eq_right (UInt64.lt_iff_toNat_lt.mp hlt).le).symm
  · next hle => exact (max_eq_left (UInt64.le_iff_toNat_le.mp (UInt64.not_lt.mp hle))).symm

/-- The context built for a request. -/
def requestContext (cfg : Config) (a : Arrival) (req : NetRequest) : RequestContext :=
  { replyAddr := readCStr req.replyaddr a.afterReplyaddr 16
    replyPort := req.replyport.toUInt16
    originalBody := ⟨bodyCap cfg req.sz, readCStr req.body a.afterBody req.sz.toNat⟩
    body := .pointer a.ctxBody
    sz := req.sz
    clientSeqno := req.clientSeqno
    cmdFound := a.cmdFound }

/-- Receiving never fails: the buffer holds the copy, whatever size the sender gives. -/
theorem initNetRx_eq (cfg : Config) (parse : Bytes → Option NetRequest) (a : Arrival) :
    initNetRx cfg parse () a =
      .ok ((), (parse (received cfg a.bytes)).map (requestContext cfg a)) := by
  unfold initNetRx
  cases parse (received cfg a.bytes) with
  | none => rfl
  | some req =>
    have hfit : (readCStr req.body a.afterBody req.sz.toNat).length ≤
        (bodyCap cfg req.sz).toNat := by
      rw [length_readCStr]
      exact le_bodyCap cfg req.sz
    simp only [Buffer.malloc, Buffer.write, if_pos hfit, List.drop_nil, List.append_nil]
    rfl

/-- The request bytes the enclave reads are the bytes copied. -/
theorem read_requestContext (cfg : Config) (a : Arrival) (req : NetRequest) :
    (requestContext cfg a req).originalBody.read (requestContext cfg a req).sz =
      readCStr req.body a.afterBody req.sz.toNat := by
  simp only [requestContext, Buffer.read]
  rw [List.take_of_length_le (by rw [length_readCStr])]

/-- The text of a status that is not a passed read. -/
theorem length_respStr_le {cr : CmdResult} (h : cr.status ≠ .readPass) :
    (respStr cr).length ≤ 10 := by
  unfold respStr
  rw [if_neg h]
  split_ifs <;> decide

/-- A write that fits replaces the front of a buffer. -/
theorem Buffer.write_of_le {b : Buffer} {data : Bytes} (h : data.length ≤ b.cap.toNat) :
    b.write data = .ok { b with bytes := data ++ b.bytes.drop data.length } := if_pos h

/-- A write that does not fit overflows. -/
theorem Buffer.write_of_lt {b : Buffer} {data : Bytes} (h : b.cap.toNat < data.length) :
    b.write data = .error .heapOverflow := if_neg (by omega)

/-- What was just written is read back. -/
theorem Buffer.read_write {b b' : Buffer} {data : Bytes} (h : b.write data = .ok b') :
    b'.read (size data) = data := by
  unfold Buffer.write at h
  split at h
  · next hfit =>
    cases h
    rw [Buffer.read, size, UInt64.toNat_ofNat_of_lt' (hfit.trans_lt b.cap.toNat_lt),
      List.take_left]
  · cases h

/-- What the memtable stage does with a command. -/
def answer (st : MemtableState) (c : Cmd) : Except Fault (MemtableState × Option CmdResult) :=
  if c.type = cmdRead then
    (st.kvs.get c.op0 []).map fun r =>
      (⟨st.kvs, .get c.op0 r.1 r.2 :: st.calls⟩, some ⟨r.1, r.2⟩)
  else if c.type = cmdWrite then
    (st.kvs.put c.op0 c.op1).map fun r =>
      (⟨r.1, .put c.op0 c.op1 r.2 r.1.curMt :: st.calls⟩, some ⟨r.2, []⟩)
  else .ok (st, none)

/-- The memtable stage on a context that carries a command. -/
theorem enclaveMemtableStage_eq {st : MemtableState} {ctx : RequestContext} {c : Cmd}
    (h : ctx.body = .cmd c) :
    enclaveMemtableStage st ctx =
      (answer st c).map fun r => (r.1, r.2.map fun cr => { ctx with body := .result cr }) := by
  unfold enclaveMemtableStage answer
  rw [h]
  dsimp only
  split
  · cases st.kvs.get c.op0 [] <;> rfl
  · split
    · cases st.kvs.put c.op0 c.op1 <;> rfl
    · rfl

/-- The output stage on a context that carries a result. -/
theorem enclaveOutputStage_eq {ctx : RequestContext} {cr : CmdResult}
    (h : ctx.body = .result cr) :
    enclaveOutputStage () ctx =
      (ctx.originalBody.write (respStr cr)).map fun buffer =>
        ((), some { ctx with originalBody := buffer, sz := size (respStr cr) }) := by
  unfold enclaveOutputStage
  rw [h]
  dsimp only
  cases ctx.originalBody.write (respStr cr) <;> rfl

/-- The context that leaves the enclave with a reply in its buffer. -/
def answered (ctx : RequestContext) (cr : CmdResult) (buffer : Buffer) : RequestContext :=
  { ctx with body := .result cr, originalBody := buffer, sz := size (respStr cr) }

/-- One request inside the enclave: its command is answered, and the reply is
written over the request. -/
theorem enclaveStages_of_parse {parse : Bytes → Option NetCommand} {st : MemtableState}
    {ctx : RequestContext} {nc : NetCommand}
    (h : parse (ctx.originalBody.read ctx.sz) = some nc) :
    enclaveStages parse (enclaveStart st) ctx =
      match answer st (buildCmd ctx.cmdFound nc) with
      | .error e => .error e
      | .ok (st', none) => .ok (enclaveStart st', none)
      | .ok (st', some cr) =>
        (ctx.originalBody.write (respStr cr)).map fun buffer =>
          (enclaveStart st', some (answered ctx cr buffer)) := by
  have hinput : enclaveInputStage parse () ctx =
      .ok ((), some { ctx with body := .cmd (buildCmd ctx.cmdFound nc) }) := by
    simp only [enclaveInputStage, h]
  have hmemtable : enclaveMemtableStage st
      { ctx with body := .cmd (buildCmd ctx.cmdFound nc) } = _ := enclaveMemtableStage_eq rfl
  have houtput : ∀ cr, enclaveOutputStage () { ctx with body := .result cr } =
      (ctx.originalBody.write (respStr cr)).map fun buffer =>
        ((), some (answered ctx cr buffer)) := fun cr => enclaveOutputStage_eq rfl
  simp only [enclaveStages, Stage.comp, enclaveStart, hinput, hmemtable]
  cases answer st (buildCmd ctx.cmdFound nc) with
  | error e => rfl
  | ok r =>
    obtain ⟨st', cr⟩ := r
    cases cr with
    | none => rfl
    | some cr =>
      simp only [Except.map, Option.map_some, houtput]
      cases ctx.originalBody.write (respStr cr) <;> rfl

/-- A request whose body does not parse is skipped, if its body pointer can be freed. -/
theorem enclaveStages_of_no_parse {parse : Bytes → Option NetCommand} {st : MemtableState}
    {ctx : RequestContext} (h : parse (ctx.originalBody.read ctx.sz) = none) :
    enclaveStages parse (enclaveStart st) ctx =
      (free ctx.body).map fun _ => (enclaveStart st, none) := by
  have hinput : enclaveInputStage parse () ctx = (free ctx.body).map fun _ => ((), none) := by
    simp only [enclaveInputStage, h]
  simp only [enclaveStages, Stage.comp, enclaveStart, hinput]
  cases free ctx.body <;> rfl

/-- The whole server, one datagram after another. -/
def serve (cfg : Config) (parseRequest : Bytes → Option NetRequest)
    (parseCommand : Bytes → Option NetCommand) :
    Stage Fault (Unit × ((Unit × (MemtableState × Unit)) × Unit)) Arrival Reply :=
  (initNetRx cfg parseRequest).comp ((enclaveStages parseCommand).comp initNetTx)

/-- The state in which the threads of the server start. -/
def serveStart (st : MemtableState) : Unit × ((Unit × (MemtableState × Unit)) × Unit) :=
  ((), enclaveStart st, ())

/-- The reply to a request, whatever lies in memory. -/
def replyTo (req : NetRequest) (cr : CmdResult) : Reply :=
  { address := cText (req.replyaddr.take 16)
    port := req.replyport.toUInt16
    payload := decimal req.clientSeqno.toNat ++ ascii "|" ++ respStr cr }

/-- A text ends at its first NUL. -/
theorem cText_append_zero (s rest : Bytes) : cText (s ++ 0 :: rest) = cText s := by
  unfold cText
  induction s with
  | nil => rfl
  | cons b s ih =>
    rw [List.cons_append, List.takeWhile_cons, List.takeWhile_cons, ih]

/-- The address of a reply does not depend on the memory behind the parsed one. -/
theorem cText_readCStr (s : Bytes) (after : ℕ → UInt8) (count : ℕ) :
    cText (readCStr s after count) = cText (s.take count) := by
  by_cases hle : count ≤ s.length
  · rw [readCStr_of_le (by omega), List.take_append_of_le_length hle]
  · have hall : (s ++ [0]).take count = s ++ [0] :=
      List.take_of_length_le (by rw [List.length_append, List.length_singleton]; omega)
    rw [readCStr, hall, List.append_assoc, List.singleton_append, cText_append_zero,
      List.take_of_length_le (by omega)]

/-- A datagram that is not a request is ignored. -/
theorem serve_of_no_request {cfg : Config} {parseRequest : Bytes → Option NetRequest}
    {parseCommand : Bytes → Option NetCommand} {st : MemtableState} {a : Arrival}
    (h : parseRequest (received cfg a.bytes) = none) :
    serve cfg parseRequest parseCommand (serveStart st) a = .ok (serveStart st, none) := by
  simp only [serve, Stage.comp, serveStart, initNetRx_eq, h, Option.map_none]

/-- A request whose body does not parse is skipped, if its body pointer can be freed. -/
theorem serve_of_no_command {cfg : Config} {parseRequest : Bytes → Option NetRequest}
    {parseCommand : Bytes → Option NetCommand} {st : MemtableState} {a : Arrival}
    {req : NetRequest} (hreq : parseRequest (received cfg a.bytes) = some req)
    (hcmd : parseCommand (readCStr req.body a.afterBody req.sz.toNat) = none) :
    serve cfg parseRequest parseCommand (serveStart st) a =
      if a.ctxBody = 0 then .ok (serveStart st, none) else .error .badFree := by
  rw [← read_requestContext cfg a req] at hcmd
  simp only [serve, Stage.comp, serveStart, initNetRx_eq, hreq, Option.map_some,
    enclaveStages_of_no_parse hcmd]
  by_cases hnull : a.ctxBody = 0
  · simp only [requestContext, free, if_pos hnull]
    rfl
  · simp only [requestContext, free, if_neg hnull]
    rfl

/-- A request that carries a command is answered, unless the reply does not fit
the buffer of the request. -/
theorem serve_of_command {cfg : Config} {parseRequest : Bytes → Option NetRequest}
    {parseCommand : Bytes → Option NetCommand} {st : MemtableState} {a : Arrival}
    {req : NetRequest} {nc : NetCommand} (hreq : parseRequest (received cfg a.bytes) = some req)
    (hcmd : parseCommand (readCStr req.body a.afterBody req.sz.toNat) = some nc) :
    serve cfg parseRequest parseCommand (serveStart st) a =
      match answer st (buildCmd a.cmdFound nc) with
      | .error e => .error e
      | .ok (st', none) => .ok (serveStart st', none)
      | .ok (st', some cr) =>
        if (respStr cr).length ≤ (bodyCap cfg req.sz).toNat then
          .ok (serveStart st', some (replyTo req cr))
        else .error .heapOverflow := by
  rw [← read_requestContext cfg a req] at hcmd
  have hfound : (requestContext cfg a req).cmdFound = a.cmdFound := rfl
  simp only [serve, Stage.comp, serveStart, initNetRx_eq, hreq, Option.map_some,
    enclaveStages_of_parse hcmd, hfound]
  cases answer st (buildCmd a.cmdFound nc) with
  | error e => rfl
  | ok r =>
    obtain ⟨st', cr⟩ := r
    cases cr with
    | none => rfl
    | some cr =>
      dsimp only
      by_cases hfit : (respStr cr).length ≤ (bodyCap cfg req.sz).toNat
      · have hwrite := Buffer.write_of_le (b := (requestContext cfg a req).originalBody) hfit
        have hread := Buffer.read_write hwrite
        rw [if_pos hfit, hwrite]
        simp only [Except.map, initNetTx, answered, hread]
        simp only [requestContext, replyTo, cText_readCStr]
      · rw [if_neg hfit, Buffer.write_of_lt (b := (requestContext cfg a req).originalBody)
          (Nat.lt_of_not_le hfit)]
        rfl

end CapsuleDB.ServerStages

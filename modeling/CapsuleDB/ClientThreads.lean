import CapsuleDB.ServerStages

/-!
# The threads of the client

The client runs a thread that receives replies and a thread that sends
requests. Each operation on the shared counter, on the shared callback table
and on a socket is one step of its thread, and the steps interleave in any
order. The server answers any request that was sent with a reply tagged by its
number, as often as it likes; the network delivers any answer at any time, any
number of times or never.
-/

namespace CapsuleDB.ClientThreads

open LabelledRun EnclaveMemTable NetMessages DecimalPrefix
open ServerStages

/-- `struct ClientRequest`, its callback named by the number of requests
enqueued before. -/
structure ClientRequest where
  /-- A serialized command. -/
  body : Bytes
  /-- The callback. -/
  callback : ℕ
  deriving DecidableEq

/-- The address and the port the client listens on. -/
structure Endpoint where
  /-- The 16 bytes at `my_addr`. -/
  addr : Bytes
  /-- The port. -/
  port : UInt16

/-- A request on its way to the server. -/
structure Sent where
  /-- The callback it was enqueued with; not part of the datagram. -/
  callback : ℕ
  /-- The message. -/
  request : NetRequest
  deriving DecidableEq

/-- A reply on its way to the client. -/
structure Answer where
  /-- The callback of the request it answers; not part of the datagram. -/
  callback : ℕ
  /-- The contents. -/
  datagram : Bytes
  deriving DecidableEq

/-- A call of a callback. -/
structure Invocation where
  /-- The callback called. -/
  callback : ℕ
  /-- Its argument. -/
  message : Bytes
  deriving DecidableEq

/-- Where the receiving thread is. The answer it works on tells the length of
the datagram it received. -/
inductive RxAt
  /-- Before the counter is set. -/
  | starting
  /-- At `recvfrom`. -/
  | listening
  /-- In `reply_to_caller`, before `find`. -/
  | received (a : Answer)
  /-- With an iterator at the entry of a number. -/
  | found (uid : UInt64) (a : Answer)
  /-- Behind the call, before `erase`. -/
  | called (uid : UInt64)
  deriving DecidableEq

/-- Where the sending thread is. -/
inductive TxAt
  /-- At `wait_dequeue`. -/
  | waiting
  /-- Before `fetch_add`. -/
  | dequeued (req : ClientRequest)
  /-- Before the callback is stored. -/
  | numbered (req : ClientRequest) (uid : UInt64)
  /-- Before `sendto`. -/
  | stored (req : ClientRequest) (uid : UInt64)
  deriving DecidableEq

/-- The client and the datagrams on the network. -/
structure System where
  /-- The shared counter. -/
  uidCnt : UInt64
  /-- The shared table of callbacks. -/
  callbackMap : UInt64 → Option ℕ
  /-- The queue of requests. -/
  cq : List ClientRequest
  /-- The buffer of the receiving thread. -/
  msgBuff : Bytes
  /-- The receiving thread. -/
  rx : RxAt
  /-- The sending thread. -/
  tx : TxAt
  /-- The number of requests enqueued. -/
  enqueued : ℕ
  /-- The requests sent, newest first. -/
  sent : List Sent
  /-- The answers sent, newest first. -/
  answers : List Answer
  /-- The callbacks called, newest first. -/
  invoked : List Invocation

/-- Before the first step. The counter has static storage; the buffer holds
what its allocation held. -/
def System.start (msgBuff : Bytes) : System :=
  ⟨0, fun _ => none, [], msgBuff, .starting, .waiting, 0, [], [], []⟩

/-- The message built for a request. -/
def netRequest (me : Endpoint) (uid : UInt64) (req : ClientRequest) : NetRequest :=
  { replyaddr := me.addr
    replyport := me.port.toUInt32
    sz := size req.body
    body := req.body
    clientSeqno := uid }

/-- A reply of the server to the request with this number. -/
def reply (uid : UInt64) (rest : Bytes) : Bytes := decimal uid.toNat ++ ascii "|" ++ rest

/-- `(uint64_t)atoll(msg_buff)`. -/
def uidOf (msgBuff : Bytes) : UInt64 := UInt64.ofInt (leadingInt msgBuff)

/-- The next step of `init_net_rx` and `reply_to_caller` other than receiving. -/
def initNetRx (cfg : Config) (s : System) : Option System :=
  match s.rx with
  | .starting => some { s with uidCnt := 0, rx := .listening }
  | .listening => none
  | .received a =>
    match s.callbackMap (uidOf s.msgBuff) with
    | none => some { s with rx := .listening }
    | some _ => some { s with rx := .found (uidOf s.msgBuff) a }
  | .found uid a =>
    -- The iterator stays valid, as only this thread erases entries; it reads
    -- what the sending thread may have stored under the number meanwhile.
    match s.callbackMap uid with
    | none => none
    | some callback =>
      some { s with
        rx := .called uid
        invoked := ⟨callback, s.msgBuff.take (received cfg a.datagram).length⟩ :: s.invoked }
  | .called uid =>
    some { s with rx := .listening, callbackMap := Function.update s.callbackMap uid none }

/-- The next step of `init_net_tx`. -/
def initNetTx (me : Endpoint) (s : System) : Option System :=
  match s.tx with
  | .waiting =>
    match s.cq with
    | [] => none
    | req :: cq => some { s with cq := cq, tx := .dequeued req }
  | .dequeued req => some { s with uidCnt := s.uidCnt+1, tx := .numbered req s.uidCnt }
  | .numbered req uid =>
    some { s with
      tx := .stored req uid
      callbackMap := Function.update s.callbackMap uid (some req.callback) }
  | .stored req uid =>
    some { s with tx := .waiting, sent := ⟨req.callback, netRequest me uid req⟩ :: s.sent }

/-- What can happen next. -/
inductive Op
  /-- `main` enqueues a request. -/
  | enqueue (body : Bytes)
  /-- The receiving thread takes its next step. -/
  | rx
  /-- The receiving thread receives an answer. -/
  | receive (a : Answer)
  /-- The sending thread takes its next step. -/
  | tx
  /-- The server answers a request. -/
  | serve (d : Sent) (rest : Bytes)

/-- One step, when it is possible. A datagram overwrites the front of the
buffer and keeps what lies behind. -/
def step (cfg : Config) (me : Endpoint) (s : System) : Op → Option System
  | .enqueue body =>
    some { s with cq := s.cq ++ [⟨body, s.enqueued⟩], enqueued := s.enqueued+1 }
  | .rx => initNetRx cfg s
  | .receive a =>
    if a ∈ s.answers ∧ s.rx = .listening then
      some { s with
        rx := .received a
        msgBuff := received cfg a.datagram ++
          s.msgBuff.drop (received cfg a.datagram).length }
    else none
  | .tx => initNetTx me s
  | .serve d rest =>
    if d ∈ s.sent then
      some { s with answers := ⟨d.callback, reply d.request.clientSeqno rest⟩ :: s.answers }
    else none

/-- The step as a relation. -/
def Step (cfg : Config) (me : Endpoint) (s : System) (op : Op) (t : System) : Prop :=
  step cfg me s op = some t

/-- The step as an operation labelled by itself. -/
def perform (cfg : Config) (me : Endpoint) (s : System) (op : Op) : Option (Op × System) :=
  (step cfg me s op).map fun t => (op, t)

/-- An operation determines the next state. -/
theorem step_deterministic (cfg : Config) (me : Endpoint) : Deterministic (Step cfg me) := by
  intro s op t u ht hu
  unfold Step at ht hu
  rw [ht] at hu
  exact Option.some.inj hu

/-- A performed operation is a step. -/
theorem step_of_perform {cfg : Config} {me : Endpoint} ⦃s : System⦄ ⦃op a : Op⦄ ⦃t : System⦄
    (h : perform cfg me s op = some (a, t)) : Step cfg me s a t := by
  obtain ⟨u, hu, heq⟩ := Option.map_eq_some_iff.mp h
  cases heq
  exact hu

/-- The number is read off the front of a reply, if it is below `2 ^ 63`. -/
theorem uidOf_reply {uid : UInt64} (h : uid.toNat < 2 ^ 63) (rest behind : Bytes) :
    uidOf (reply uid rest ++ behind) = uid := by
  have hbar : ∀ b ∈ (ascii "|" ++ rest ++ behind).head?, isDigit b = false := by
    intro b hb
    cases hb
    rfl
  have hint := leadingInt_decimal_append h hbar
  rw [uidOf, reply, List.append_assoc, List.append_assoc, ← List.append_assoc (ascii "|"), hint]
  refine UInt64.toNat_inj.mp ?_
  rw [UInt64.ofInt, UInt64.toNat_ofNat']
  omega

/-- Receiving cuts a reply off behind its number only. -/
theorem received_reply {cfg : Config} (hcfg : cfg.Fits) {uid : UInt64} (h : uid.toNat < 2 ^ 63)
    (rest : Bytes) : ∃ rest', received cfg (reply uid rest) = reply uid rest' := by
  have hdigits : (decimal uid.toNat).length ≤ 19 :=
    length_decimal_le (by omega) (h.trans (by norm_num))
  have hbar : (ascii "|").length = 1 := rfl
  refine ⟨rest.take (cfg.maxSz.toNat-(decimal uid.toNat ++ ascii "|").length), ?_⟩
  rw [received, reply, List.take_append, List.take_of_length_le, reply]
  rw [List.length_append, hbar, toNat_maxSz hcfg]
  omega

end CapsuleDB.ClientThreads

import CapsuleDB.LabelledRun
import CapsuleDB.ServerReference

/-!
# The five threads of the server

The stages run as five workers joined by four bounded queues, stepping in any
order. What the pipeline would still send if it were drained, together with
what it has sent, never changes, so every interleaving sends the replies of
the reference server in order.
-/

namespace CapsuleDB.ServerPipeline

open LabelledRun EnclaveMemTable EnclaveKvs FifoStage NetMessages ServerStages ServerReference

/-- The threads. -/
inductive Thread
  | rx
  | input
  | memtable
  | output
  | tx

/-- The threads with their queues. -/
structure Pipeline where
  /-- The datagrams that are still to arrive, in order. -/
  arrivals : List Arrival
  /-- The thread of `init_net_rx`. -/
  rx : Worker Unit RequestContext
  /-- The queue from the host into the enclave. -/
  rxQ : List RequestContext
  /-- The thread of `enclave_input_stage`. -/
  input : Worker Unit RequestContext
  /-- The queue of commands. -/
  cmdQ : List RequestContext
  /-- The thread of `enclave_memtable_stage`. -/
  memtable : Worker MemtableState RequestContext
  /-- The queue of results. -/
  resQ : List RequestContext
  /-- The thread of `enclave_output_stage`. -/
  output : Worker Unit RequestContext
  /-- The queue from the enclave back to the host. -/
  txQ : List RequestContext
  /-- The thread of `init_net_tx`. -/
  tx : Worker Unit Reply
  /-- The datagrams sent, in order. -/
  sent : List Reply

section Threads

variable (cfg : Config) (parseRequest : Bytes → Option NetRequest)
  (parseCommand : Bytes → Option NetCommand) (capacity : ℕ)

/-- One atomic step of one thread. A queue that holds `capacity` items blocks
the thread that pushes to it; sending a datagram never blocks. -/
inductive Step : Pipeline → Thread → Pipeline → Prop
  | rx {p : Pipeline} {arrivals w q} :
      Worker.Step (initNetRx cfg parseRequest) (· < capacity) p.arrivals p.rx p.rxQ arrivals w q →
      Step p .rx { p with arrivals := arrivals, rx := w, rxQ := q }
  | input {p : Pipeline} {q w q'} :
      Worker.Step (enclaveInputStage parseCommand) (· < capacity) p.rxQ p.input p.cmdQ q w q' →
      Step p .input { p with rxQ := q, input := w, cmdQ := q' }
  | memtable {p : Pipeline} {q w q'} :
      Worker.Step enclaveMemtableStage (· < capacity) p.cmdQ p.memtable p.resQ q w q' →
      Step p .memtable { p with cmdQ := q, memtable := w, resQ := q' }
  | output {p : Pipeline} {q w q'} :
      Worker.Step enclaveOutputStage (· < capacity) p.resQ p.output p.txQ q w q' →
      Step p .output { p with resQ := q, output := w, txQ := q' }
  | tx {p : Pipeline} {q w sent} :
      Worker.Step initNetTx (fun _ => True) p.txQ p.tx p.sent q w sent →
      Step p .tx { p with txQ := q, tx := w, sent := sent }

/-- Some thread takes an item on which its stage faults. -/
def Pipeline.Faults (p : Pipeline) : Prop :=
  Worker.Fails (initNetRx cfg parseRequest) p.arrivals p.rx ∨
    Worker.Fails (enclaveInputStage parseCommand) p.rxQ p.input ∨
    Worker.Fails enclaveMemtableStage p.cmdQ p.memtable ∨
    Worker.Fails enclaveOutputStage p.resQ p.output ∨ Worker.Fails initNetTx p.txQ p.tx

/-- No thread can step. -/
def Pipeline.Stuck (p : Pipeline) : Prop :=
  ∀ thread p', ¬ Step cfg parseRequest parseCommand capacity p thread p'

/-- All that will have been sent once everything under way has been drained. -/
def Pipeline.drain (p : Pipeline) : Except Fault (List Reply) :=
  (Worker.flow (initNetRx cfg parseRequest) p.arrivals p.rx p.rxQ).bind fun r₁ =>
  (Worker.flow (enclaveInputStage parseCommand) r₁.2 p.input p.cmdQ).bind fun r₂ =>
  (Worker.flow enclaveMemtableStage r₂.2 p.memtable p.resQ).bind fun r₃ =>
  (Worker.flow enclaveOutputStage r₃.2 p.output p.txQ).bind fun r₄ =>
  (Worker.flow initNetTx r₄.2 p.tx p.sent).bind fun r₅ => .ok r₅.2

/-- The threads at the start, with all queues empty. -/
def Pipeline.start (st : MemtableState) (as : List Arrival) : Pipeline :=
  ⟨as, ⟨(), none⟩, [], ⟨(), none⟩, [], ⟨st, none⟩, [], ⟨(), none⟩, [], ⟨(), none⟩, []⟩

/-- The number of steps that the items under way can still make. -/
def Pipeline.work (p : Pipeline) : ℕ :=
  10*p.arrivals.length+9*p.rx.hand.toList.length+8*p.rxQ.length+
    7*p.input.hand.toList.length+6*p.cmdQ.length+5*p.memtable.hand.toList.length+
    4*p.resQ.length+3*p.output.hand.toList.length+2*p.txQ.length+
    1*p.tx.hand.toList.length+0*p.sent.length

end Threads

section Steps

variable {cfg : Config} {parseRequest : Bytes → Option NetRequest}
  {parseCommand : Bytes → Option NetCommand} {capacity : ℕ}

/-- No step changes what a drain would have sent. -/
theorem drain_step {p p' : Pipeline} {thread : Thread}
    (h : Step cfg parseRequest parseCommand capacity p thread p') :
    p'.drain cfg parseRequest parseCommand = p.drain cfg parseRequest parseCommand := by
  unfold Pipeline.drain
  cases h with
  | rx hw =>
    have hflow := hw.flow_eq []
    rw [List.append_nil, List.append_nil] at hflow
    dsimp only
    rw [hflow]
  | input hw => exact hw.joint_flow_eq _
  | memtable hw =>
    refine congrArg _ (funext fun r₁ => ?_)
    exact hw.joint_flow_eq _
  | output hw =>
    refine congrArg _ (funext fun r₁ => congrArg _ (funext fun r₂ => ?_))
    exact hw.joint_flow_eq _
  | tx hw =>
    refine congrArg _ (funext fun r₁ => congrArg _ (funext fun r₂ =>
      congrArg _ (funext fun r₃ => ?_)))
    exact hw.joint_flow_eq _

/-- Every step uses up work. -/
theorem work_step {p p' : Pipeline} {thread : Thread}
    (h : Step cfg parseRequest parseCommand capacity p thread p') : p'.work+1 ≤ p.work := by
  unfold Pipeline.work
  cases h with
  | rx hw => have hcost := hw.cost_lt 8; dsimp only; omega
  | input hw => have hcost := hw.cost_lt 6; dsimp only; omega
  | memtable hw => have hcost := hw.cost_lt 4; dsimp only; omega
  | output hw => have hcost := hw.cost_lt 2; dsimp only; omega
  | tx hw => have hcost := hw.cost_lt 0; dsimp only; omega

/-- Every run keeps the drain and is bounded by the work it starts with. -/
theorem drain_run {p p' : Pipeline} {history : List Thread}
    (hr : Run (Step cfg parseRequest parseCommand capacity) p history p') :
    p'.drain cfg parseRequest parseCommand = p.drain cfg parseRequest parseCommand ∧
      history.length+p'.work ≤ p.work := by
  refine hr.invariant (I := fun history p' => p'.drain cfg parseRequest parseCommand =
    p.drain cfg parseRequest parseCommand ∧ history.length+p'.work ≤ p.work)
    ⟨rfl, by rw [List.length_nil]; omega⟩ ?_
  rintro history s thread t _ ⟨hdrain, hwork⟩ hstep
  have hless := work_step hstep
  exact ⟨(drain_step hstep).trans hdrain, by rw [List.length_cons]; omega⟩

/-- The flows of a drain that succeeds. -/
structure Drained (cfg : Config) (parseRequest : Bytes → Option NetRequest)
    (parseCommand : Bytes → Option NetCommand) (p : Pipeline) (replies : List Reply) : Prop where
  /-- Each thread consumes all that the previous one passes on. -/
  flows : ∃ r₁ r₂ r₃ r₄ r₅,
    Worker.flow (initNetRx cfg parseRequest) p.arrivals p.rx p.rxQ = .ok r₁ ∧
    Worker.flow (enclaveInputStage parseCommand) r₁.2 p.input p.cmdQ = .ok r₂ ∧
    Worker.flow enclaveMemtableStage r₂.2 p.memtable p.resQ = .ok r₃ ∧
    Worker.flow enclaveOutputStage r₃.2 p.output p.txQ = .ok r₄ ∧
    Worker.flow initNetTx r₄.2 p.tx p.sent = .ok r₅ ∧ r₅.2 = replies

/-- A bind that succeeds does so in both parts. -/
theorem bind_eq_ok {ε α β : Type*} {x : Except ε α} {f : α → Except ε β} {b : β}
    (h : x.bind f = .ok b) : ∃ a, x = .ok a ∧ f a = .ok b := by
  cases x with
  | error e => cases h
  | ok a => exact ⟨a, rfl, h⟩

/-- A drain that succeeds has the flows of all threads. -/
theorem drained_of_drain {p : Pipeline} {replies : List Reply}
    (h : p.drain cfg parseRequest parseCommand = .ok replies) :
    Drained cfg parseRequest parseCommand p replies := by
  obtain ⟨r₁, h₁, h⟩ := bind_eq_ok h
  obtain ⟨r₂, h₂, h⟩ := bind_eq_ok h
  obtain ⟨r₃, h₃, h⟩ := bind_eq_ok h
  obtain ⟨r₄, h₄, h⟩ := bind_eq_ok h
  obtain ⟨r₅, h₅, h⟩ := bind_eq_ok h
  exact ⟨r₁, r₂, r₃, r₄, r₅, h₁, h₂, h₃, h₄, h₅, Except.ok.inj h⟩

/-- At the start a drain is the sequential run of all stages. -/
theorem drain_start {st : MemtableState} {as : List Arrival} {replies : List Reply}
    {s' : Unit × ((Unit × (MemtableState × Unit)) × Unit)}
    (h : (serve cfg parseRequest parseCommand).run (serveStart st) as = .ok (s', replies)) :
    (Pipeline.start st as).drain cfg parseRequest parseCommand = .ok replies := by
  obtain ⟨ctxs, hrx, hrest⟩ := Stage.run_comp_eq_ok.mp h
  obtain ⟨answered, henclave, htx⟩ := Stage.run_comp_eq_ok.mp hrest
  obtain ⟨cmds, hinput, hmemory⟩ := Stage.run_comp_eq_ok.mp henclave
  obtain ⟨results, hmemtable, houtput⟩ := Stage.run_comp_eq_ok.mp hmemory
  simp only [Pipeline.drain, Pipeline.start, Worker.flow_start, hrx, Except.bind, hinput, hmemtable,
    houtput, htx]

/-- What has been sent is a beginning of what a drain sends. -/
theorem Drained.sent_isPrefix {p : Pipeline} {replies : List Reply}
    (h : Drained cfg parseRequest parseCommand p replies) : p.sent <+: replies := by
  obtain ⟨_, _, _, _, r₅, _, _, _, _, h₅, rfl⟩ := h.flows
  exact Worker.flow_output (s := r₅.1) h₅

/-- A thread whose input queue begins what it will consume does not fault. -/
theorem not_fails_of_begins {σ α β : Type*} {f : Stage Fault σ α β} {input all : List α}
    {w : Worker σ β} {output : List β} {r : σ × List β} (hbegins : input <+: all)
    (h : Worker.flow f all w output = .ok r) : ¬ Worker.Fails f input w := by
  obtain ⟨later, rfl⟩ := hbegins
  exact Worker.not_fails_of_flow (s := r.1) h

/-- No thread is about to fault. -/
theorem Drained.not_faults {p : Pipeline} {replies : List Reply}
    (h : Drained cfg parseRequest parseCommand p replies) :
    ¬ p.Faults cfg parseRequest parseCommand := by
  obtain ⟨r₁, r₂, r₃, r₄, r₅, h₁, h₂, h₃, h₄, h₅, _⟩ := h.flows
  rintro (hf | hf | hf | hf | hf)
  · exact not_fails_of_begins (List.prefix_refl _) h₁ hf
  · exact not_fails_of_begins (Worker.flow_output (s := r₁.1) h₁) h₂ hf
  · exact not_fails_of_begins (Worker.flow_output (s := r₂.1) h₂) h₃ hf
  · exact not_fails_of_begins (Worker.flow_output (s := r₃.1) h₃) h₄ hf
  · exact not_fails_of_begins (Worker.flow_output (s := r₄.1) h₄) h₅ hf

/-- When nothing can move any more, everything has been sent. -/
theorem Drained.sent_eq_of_stuck {p : Pipeline} {replies : List Reply}
    (h : Drained cfg parseRequest parseCommand p replies) (hcap : 0 < capacity)
    (hstuck : p.Stuck cfg parseRequest parseCommand capacity) : p.sent = replies := by
  have hfaults := h.not_faults
  unfold Pipeline.Faults at hfaults
  rw [not_or, not_or, not_or, not_or] at hfaults
  obtain ⟨hrx, hinput, hmemtable, houtput, htx⟩ := hfaults
  -- From the back: an empty queue always has room for the thread before it.
  obtain ⟨htxQ, htxHand⟩ := Worker.idle_of_stuck (by exact trivial) htx
    fun q w q' hw => hstuck .tx _ (.tx hw)
  obtain ⟨hresQ, houtputHand⟩ := Worker.idle_of_stuck
    (by rw [htxQ]; exact hcap) houtput fun q w q' hw => hstuck .output _ (.output hw)
  obtain ⟨hcmdQ, hmemtableHand⟩ := Worker.idle_of_stuck
    (by rw [hresQ]; exact hcap) hmemtable fun q w q' hw => hstuck .memtable _ (.memtable hw)
  obtain ⟨hrxQ, hinputHand⟩ := Worker.idle_of_stuck
    (by rw [hcmdQ]; exact hcap) hinput fun q w q' hw => hstuck .input _ (.input hw)
  obtain ⟨harrivals, hrxHand⟩ := Worker.idle_of_stuck
    (by rw [hrxQ]; exact hcap) hrx fun q w q' hw => hstuck .rx _ (.rx hw)
  obtain ⟨r₁, r₂, r₃, r₄, r₅, h₁, h₂, h₃, h₄, h₅, rfl⟩ := h.flows
  rw [harrivals, Worker.flow_idle _ hrxHand, hrxQ] at h₁
  cases h₁
  rw [Worker.flow_idle _ hinputHand, hcmdQ] at h₂
  cases h₂
  rw [Worker.flow_idle _ hmemtableHand, hresQ] at h₃
  cases h₃
  rw [Worker.flow_idle _ houtputHand, htxQ] at h₄
  cases h₄
  rw [Worker.flow_idle _ htxHand] at h₅
  cases h₅
  rfl

/-- Whatever the order in which the threads step, they send a beginning of the
replies of the reference server, never fault, stop after at most ten steps for
each request, and have sent all the replies when they stop. -/
theorem pipeline_refines_reference (hcfg : cfg.Fits) (hcap : 0 < capacity) (sema : Bool)
    {as : List Arrival} {qs : List Request}
    (hqs : List.Forall₂ (Carries cfg parseRequest parseCommand) as qs) {history : List Thread}
    {p : Pipeline} (hr : Run (Step cfg parseRequest parseCommand capacity)
      (Pipeline.start (memtableStart cfg (some sema)) as) history p) :
    p.sent <+: Reference.empty.replies cfg.memtableSize qs ∧
      ¬ p.Faults cfg parseRequest parseCommand ∧ history.length ≤ 10*as.length ∧
      (p.Stuck cfg parseRequest parseCommand capacity →
        p.sent = Reference.empty.replies cfg.memtableSize qs) := by
  obtain ⟨st', hserve⟩ := serve_run_refines hcfg hqs (refines_start cfg sema)
  obtain ⟨hdrain, hwork⟩ := drain_run hr
  rw [drain_start hserve] at hdrain
  have hdrained := drained_of_drain hdrain
  refine ⟨hdrained.sent_isPrefix, hdrained.not_faults, ?_, hdrained.sent_eq_of_stuck hcap⟩
  simp only [Pipeline.work, Pipeline.start, List.length_nil, Option.toList_none] at hwork
  omega

/-- A request as the client sends it. -/
def clientMessage (seqno : UInt64) (nc : NetCommand) : NetRequest :=
  ⟨ascii "127.0.0.1", 3002, size nc.serializeAsString, nc.serializeAsString, seqno⟩

/-- The datagram of such a request. -/
def clientArrival (seqno : UInt64) (nc : NetCommand) : Arrival :=
  ⟨(clientMessage seqno nc).serializeAsString, fun _ => 0, fun _ => 0, 0, 0⟩

/-- The request that the datagram carries. -/
def clientRequest (seqno : UInt64) (command : Command) : Request :=
  ⟨ascii "127.0.0.1", 3002, seqno, command⟩

/-- The datagram of a write. -/
theorem carries_write : Carries hostConfig NetRequest.parseFromString NetCommand.parseFromString
    (clientArrival 0 ⟨1, [[1], [2]]⟩) (clientRequest 0 (.write [1] [2])) :=
  ⟨clientMessage 0 ⟨1, [[1], [2]]⟩, ⟨1, [[1], [2]]⟩, by decide +kernel, by decide +kernel,
    by decide +kernel, ⟨rfl, ⟨[], rfl⟩, by decide, by decide⟩, by decide +kernel, rfl, rfl⟩

/-- The datagram of a read. -/
theorem carries_read : Carries hostConfig NetRequest.parseFromString NetCommand.parseFromString
    (clientArrival 1 ⟨0, [[1]]⟩) (clientRequest 1 (.read [1])) :=
  ⟨clientMessage 1 ⟨0, [[1]]⟩, ⟨0, [[1]]⟩, by decide +kernel, by decide +kernel,
    by decide +kernel, ⟨rfl, ⟨[], rfl⟩, by decide⟩, by decide +kernel, rfl, rfl⟩

/-- A write and a read in the host's configuration, until no thread can go on. -/
theorem pipeline_refines_reference_write_read :
    ∃ history p,
      Run (Step hostConfig NetRequest.parseFromString NetCommand.parseFromString 1024)
        (Pipeline.start (memtableStart hostConfig (some false))
          [clientArrival 0 ⟨1, [[1], [2]]⟩, clientArrival 1 ⟨0, [[1]]⟩]) history p ∧
      history.length ≤ 20 ∧
      p.sent = [⟨ascii "127.0.0.1", 3002, ascii "0|WRITE_PASS"⟩,
        ⟨ascii "127.0.0.1", 3002, ascii "1|" ++ [2]⟩] := by
  have hstart : Run (Step hostConfig NetRequest.parseFromString NetCommand.parseFromString 1024)
      (Pipeline.start (memtableStart hostConfig (some false))
        [clientArrival 0 ⟨1, [[1], [2]]⟩, clientArrival 1 ⟨0, [[1]]⟩]) [] _ := .start
  obtain ⟨history, p, hr, hend⟩ := hstart.exists_end (N := 20) fun _ _ hr =>
    (Nat.le_add_right _ _).trans (drain_run hr).2
  obtain ⟨_, _, hlength, hsent⟩ := pipeline_refines_reference hostConfig_fits (by decide) false
    (.cons carries_write (.cons carries_read .nil)) hr
  exact ⟨history, p, hr, hlength, (hsent hend).trans (by rfl)⟩

end Steps

end CapsuleDB.ServerPipeline

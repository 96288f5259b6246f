import CapsuleDB.ServerLoops
import CapsuleDB.ServerPipeline

/-!
# The server on its real queues

The five threads of the server take one access of a queue at a time. Every run
of these accesses is a run of the pipeline whose queues are bounded lists of one
element more than there are cells, so the server sends what the reference map
answers, and the number of accesses is bounded.
-/

namespace CapsuleDB.ServerQueues

open LabelledRun EnclaveMemTable FifoStage NetMessages ServerStages ServerReference
open ServerPipeline UtilAtomicQueue ServerLoops

/-- The threads of the server with their queues. -/
structure Threads where
  /-- The datagrams that are still to arrive, in order. -/
  arrivals : List Arrival
  /-- The thread of `init_net_rx`. -/
  rx : Loop Unit Arrival RequestContext
  /-- The queue from the host into the enclave. -/
  rxQ : AtomicQueueB2 RequestContext
  /-- The thread of `enclave_input_stage`. -/
  input : Loop Unit RequestContext RequestContext
  /-- The queue of commands. -/
  cmdQ : AtomicQueueB2 RequestContext
  /-- The thread of `enclave_memtable_stage`. -/
  memtable : Loop MemtableState RequestContext RequestContext
  /-- The queue of results. -/
  resQ : AtomicQueueB2 RequestContext
  /-- The thread of `enclave_output_stage`. -/
  output : Loop Unit RequestContext RequestContext
  /-- The queue from the enclave back to the host. -/
  txQ : AtomicQueueB2 RequestContext
  /-- The thread of `init_net_tx`. -/
  tx : Loop Unit RequestContext Reply
  /-- The datagrams sent, in order. -/
  sent : List Reply

section Accesses

variable (cfg : Config) (parseRequest : Bytes → Option NetRequest)
  (parseCommand : Bytes → Option NetCommand)

/-- One access of one thread. -/
inductive Access : Threads → Thread → Threads → Prop
  | rx {r : Threads} {arrivals w q} :
      Loop.Receive (initNetRx cfg parseRequest) r.arrivals r.rx r.rxQ arrivals w q →
      Access r .rx { r with arrivals := arrivals, rx := w, rxQ := q }
  | input {r : Threads} {q w q'} :
      Loop.Step (enclaveInputStage parseCommand) r.rxQ r.input r.cmdQ q w q' →
      Access r .input { r with rxQ := q, input := w, cmdQ := q' }
  | memtable {r : Threads} {q w q'} :
      Loop.Step enclaveMemtableStage r.cmdQ r.memtable r.resQ q w q' →
      Access r .memtable { r with cmdQ := q, memtable := w, resQ := q' }
  | output {r : Threads} {q w q'} :
      Loop.Step enclaveOutputStage r.resQ r.output r.txQ q w q' →
      Access r .output { r with resQ := q, output := w, txQ := q' }
  | tx {r : Threads} {q w sent} :
      Loop.Send initNetTx r.txQ r.tx r.sent q w sent →
      Access r .tx { r with txQ := q, tx := w, sent := sent }

/-- Some thread works on an element on which its stage faults. -/
def Threads.Faults (r : Threads) : Prop :=
  (r.rx.phase = .check ∧ Worker.Fails (initNetRx cfg parseRequest) r.arrivals r.rx.worker) ∨
    Loop.Fails (enclaveInputStage parseCommand) r.input ∨
    Loop.Fails enclaveMemtableStage r.memtable ∨ Loop.Fails enclaveOutputStage r.output ∨
    Loop.Fails initNetTx r.tx

/-- No thread can go on. -/
def Threads.Stuck (r : Threads) : Prop :=
  ∀ thread r', ¬ Access cfg parseRequest parseCommand r thread r'

/-- The threads at the start, with four queues as `generate_queue_list` makes
them. -/
def Threads.start (nil : RequestContext) (st : MemtableState) (as : List Arrival) : Threads where
  arrivals := as
  rx := ⟨(), .check⟩
  rxQ := .new 1024 nil
  input := ⟨(), .check⟩
  cmdQ := .new 1024 nil
  memtable := ⟨st, .check⟩
  resQ := .new 1024 nil
  output := ⟨(), .check⟩
  txQ := .new 1024 nil
  tx := ⟨(), .check⟩
  sent := []

end Accesses

/-- More datagrams arrive behind those that are still to be received. -/
def Threads.arrive (r : Threads) (later : List Arrival) : Threads :=
  { r with arrivals := r.arrivals ++ later }

/-- The pipeline that the threads and queues are in the view from outside. -/
structure View (r : Threads) (p : Pipeline) : Prop where
  /-- The datagrams that are still to arrive. -/
  arrivals : p.arrivals = r.arrivals
  /-- The receiving thread is not in `pop`. -/
  receives : r.rx.phase.Calls ∧ r.rx.phase.popping = .idle
  /-- The receiving thread. -/
  rx : p.rx = r.rx.worker
  /-- The queue from the host into the enclave. -/
  rxQ : Between 4096 r.rxQ r.rx.phase.pushing r.input.phase.popping p.rxQ
  /-- The threads in the enclave are in calls they have made. -/
  calls : r.input.phase.Calls ∧ r.memtable.phase.Calls ∧ r.output.phase.Calls
  /-- The input stage. -/
  input : p.input = r.input.worker
  /-- The queue of commands. -/
  cmdQ : Between 4096 r.cmdQ r.input.phase.pushing r.memtable.phase.popping p.cmdQ
  /-- The memtable stage. -/
  memtable : p.memtable = r.memtable.worker
  /-- The queue of results. -/
  resQ : Between 4096 r.resQ r.memtable.phase.pushing r.output.phase.popping p.resQ
  /-- The output stage. -/
  output : p.output = r.output.worker
  /-- The queue from the enclave back to the host. -/
  txQ : Between 4096 r.txQ r.output.phase.pushing r.tx.phase.popping p.txQ
  /-- The sending thread has a result to send or none. -/
  sends : r.tx.phase.Sends
  /-- The sending thread. -/
  tx : p.tx = r.tx.worker
  /-- The datagrams sent. -/
  sent : p.sent = r.sent

/-- How many accesses lie before the next ones that the view shows. -/
def Threads.rank (r : Threads) : ℕ :=
  r.rx.phase.rank+r.input.phase.rank+r.memtable.phase.rank+r.output.phase.rank+r.tx.phase.rank

section Views

variable {cfg : Config} {parseRequest : Bytes → Option NetRequest}
  {parseCommand : Bytes → Option NetCommand}

/-- At the start the view shows the pipeline at its start. -/
theorem view_start (nil : RequestContext) (st : MemtableState) (as : List Arrival) :
    View (Threads.start nil st as) (Pipeline.start st as) := by
  have hsize : (AtomicQueueB2.new 1024 nil).size = 4096 := by
    dsimp only [AtomicQueueB2.new]
    decide
  have hnew : Between 4096 (AtomicQueueB2.new 1024 nil) .idle .idle [] :=
    hsize ▸ between_new 1024 nil
  exact ⟨rfl, ⟨trivial, rfl⟩, rfl, hnew, ⟨trivial, trivial, trivial⟩, rfl, hnew, rfl, hnew, rfl,
    hnew, trivial, rfl, rfl⟩

/-- Every access is one that the view does not show, or a step of the pipeline. -/
theorem View.access {r r' : Threads} {thread : Thread} {p : Pipeline} (h : View r p)
    (hs : Access cfg parseRequest parseCommand r thread r') :
    View r' p ∧ r'.rank+1 ≤ r.rank ∨
      ∃ thread' p', ServerPipeline.Step cfg parseRequest parseCommand 4097 p thread' p' ∧
        View r' p' ∧ r'.rank ≤ r.rank+6 := by
  cases hs with
  | @rx arrivals' w q hw =>
    have hle := rank_le w.phase
    obtain ⟨hcalls, hpopping, ⟨hworker, hsame, hq, hrank⟩ | ⟨list, hstep, hq⟩⟩ := hw.view h.rxQ
    · refine .inl ⟨{ h with
        arrivals := h.arrivals.trans hsame.symm
        receives := ⟨hcalls, hpopping⟩
        rx := h.rx.trans hworker.symm
        rxQ := hq }, ?_⟩
      dsimp only [Threads.rank]
      omega
    · have hstep' : ServerPipeline.Step cfg parseRequest parseCommand 4097 p .rx
          { p with arrivals := arrivals', rx := w.worker, rxQ := list } :=
        .rx (by rw [h.arrivals, h.rx]; exact hstep)
      refine .inr ⟨_, _, hstep', { h with
        arrivals := rfl
        receives := ⟨hcalls, hpopping⟩
        rx := rfl
        rxQ := hq }, ?_⟩
      dsimp only [Threads.rank]
      omega
  | @input q w q' hw =>
    have hle := rank_le w.phase
    obtain ⟨hcalls, ⟨hworker, hin, hout, hrank⟩ | ⟨list, list', hstep, hin, hout⟩⟩ :=
      hw.view h.rxQ h.cmdQ
    · refine .inl ⟨{ h with
        rxQ := hin
        calls := ⟨hcalls, h.calls.2⟩
        input := h.input.trans hworker.symm
        cmdQ := hout }, ?_⟩
      dsimp only [Threads.rank]
      omega
    · have hstep' : ServerPipeline.Step cfg parseRequest parseCommand 4097 p .input
          { p with rxQ := list, input := w.worker, cmdQ := list' } :=
        .input (by rw [h.input]; exact hstep)
      refine .inr ⟨_, _, hstep', { h with
        rxQ := hin
        calls := ⟨hcalls, h.calls.2⟩
        input := rfl
        cmdQ := hout }, ?_⟩
      dsimp only [Threads.rank]
      omega
  | @memtable q w q' hw =>
    have hle := rank_le w.phase
    obtain ⟨hcalls, ⟨hworker, hin, hout, hrank⟩ | ⟨list, list', hstep, hin, hout⟩⟩ :=
      hw.view h.cmdQ h.resQ
    · refine .inl ⟨{ h with
        cmdQ := hin
        calls := ⟨h.calls.1, hcalls, h.calls.2.2⟩
        memtable := h.memtable.trans hworker.symm
        resQ := hout }, ?_⟩
      dsimp only [Threads.rank]
      omega
    · have hstep' : ServerPipeline.Step cfg parseRequest parseCommand 4097 p .memtable
          { p with cmdQ := list, memtable := w.worker, resQ := list' } :=
        .memtable (by rw [h.memtable]; exact hstep)
      refine .inr ⟨_, _, hstep', { h with
        cmdQ := hin
        calls := ⟨h.calls.1, hcalls, h.calls.2.2⟩
        memtable := rfl
        resQ := hout }, ?_⟩
      dsimp only [Threads.rank]
      omega
  | @output q w q' hw =>
    have hle := rank_le w.phase
    obtain ⟨hcalls, ⟨hworker, hin, hout, hrank⟩ | ⟨list, list', hstep, hin, hout⟩⟩ :=
      hw.view h.resQ h.txQ
    · refine .inl ⟨{ h with
        resQ := hin
        calls := ⟨h.calls.1, h.calls.2.1, hcalls⟩
        output := h.output.trans hworker.symm
        txQ := hout }, ?_⟩
      dsimp only [Threads.rank]
      omega
    · have hstep' : ServerPipeline.Step cfg parseRequest parseCommand 4097 p .output
          { p with resQ := list, output := w.worker, txQ := list' } :=
        .output (by rw [h.output]; exact hstep)
      refine .inr ⟨_, _, hstep', { h with
        resQ := hin
        calls := ⟨h.calls.1, h.calls.2.1, hcalls⟩
        output := rfl
        txQ := hout }, ?_⟩
      dsimp only [Threads.rank]
      omega
  | @tx q w sent hw =>
    have hle := rank_le w.phase
    obtain ⟨hsends, ⟨hworker, hin, hsame, hrank⟩ | ⟨list, hstep, hin⟩⟩ := hw.view h.txQ
    · refine .inl ⟨{ h with
        txQ := hin
        sends := hsends
        tx := h.tx.trans hworker.symm
        sent := h.sent.trans hsame.symm }, ?_⟩
      dsimp only [Threads.rank]
      omega
    · have hstep' : ServerPipeline.Step cfg parseRequest parseCommand 4097 p .tx
          { p with txQ := list, tx := w.worker, sent := sent } :=
        .tx (by rw [h.tx, h.sent]; exact hstep)
      refine .inr ⟨_, _, hstep', { h with
        txQ := hin
        sends := hsends
        tx := rfl
        sent := rfl }, ?_⟩
      dsimp only [Threads.rank]
      omega

/-- A thread that faults does so in the pipeline. -/
theorem View.faults {r : Threads} {p : Pipeline} (h : View r p)
    (hf : r.Faults cfg parseRequest parseCommand) : p.Faults cfg parseRequest parseCommand := by
  rcases hf with ⟨_, hf⟩ | hf | hf | hf | hf
  · exact .inl (by rw [h.arrivals, h.rx]; exact hf)
  · exact .inr (.inl (by rw [h.input]; exact hf.worker h.rxQ))
  · exact .inr (.inr (.inl (by rw [h.memtable]; exact hf.worker h.cmdQ)))
  · exact .inr (.inr (.inr (.inl (by rw [h.output]; exact hf.worker h.resQ))))
  · exact .inr (.inr (.inr (.inr (by rw [h.tx]; exact hf.worker h.txQ))))

/-- A worker without anything to pop or to push does not step. -/
theorem not_step_of_idle {ε σ α β : Type*} {f : Stage ε σ α β} {room : ℕ → Prop}
    {input input' : List α} {w w' : Worker σ β} {output output' : List β} (hinput : input = [])
    (hhand : w.hand = none) : ¬ Worker.Step f room input w output input' w' output' := by
  intro hs
  cases hs with
  | pop _ => cases hinput
  | push _ => cases hhand

/-- When no thread can go on, none of the pipeline can. -/
theorem View.stuck {r : Threads} {p : Pipeline} (h : View r p)
    (hfaults : ¬ p.Faults cfg parseRequest parseCommand)
    (hstuck : r.Stuck cfg parseRequest parseCommand) :
    p.Stuck cfg parseRequest parseCommand 4097 := by
  unfold Pipeline.Faults at hfaults
  rw [not_or, not_or, not_or, not_or] at hfaults
  obtain ⟨hrx, hinput, hmemtable, houtput, htx⟩ := hfaults
  -- From the back: a queue with nothing in it does not hold up the thread before it.
  obtain ⟨htxQ, htxHand⟩ := Loop.sent_of_stuck h.sends h.txQ
    (fun hf => htx (by rw [h.tx]; exact hf.worker h.txQ))
    fun q w sent hw => hstuck .tx _ (.tx hw)
  obtain ⟨hresQ, houtputHand⟩ := Loop.idle_of_stuck h.calls.2.2 h.resQ (htxQ ▸ h.txQ)
    (fun hf => houtput (by rw [h.output]; exact hf.worker h.resQ))
    fun q w q' hw => hstuck .output _ (.output hw)
  obtain ⟨hcmdQ, hmemtableHand⟩ := Loop.idle_of_stuck h.calls.2.1 h.cmdQ (hresQ ▸ h.resQ)
    (fun hf => hmemtable (by rw [h.memtable]; exact hf.worker h.cmdQ))
    fun q w q' hw => hstuck .memtable _ (.memtable hw)
  obtain ⟨hrxQ, hinputHand⟩ := Loop.idle_of_stuck h.calls.1 h.rxQ (hcmdQ ▸ h.cmdQ)
    (fun hf => hinput (by rw [h.input]; exact hf.worker h.rxQ))
    fun q w q' hw => hstuck .input _ (.input hw)
  obtain ⟨harrivals, hrxHand⟩ := Loop.received_of_stuck h.receives.1 h.receives.2 (hrxQ ▸ h.rxQ)
    (fun hf => hrx (by rw [h.arrivals, h.rx]; exact hf))
    fun q w q' hw => hstuck .rx _ (.rx hw)
  intro thread p' hs
  cases hs with
  | rx hw =>
    exact not_step_of_idle (h.arrivals.trans harrivals) (h.rx ▸ hrxHand) hw
  | input hw => exact not_step_of_idle hrxQ (h.input ▸ hinputHand) hw
  | memtable hw => exact not_step_of_idle hcmdQ (h.memtable ▸ hmemtableHand) hw
  | output hw => exact not_step_of_idle hresQ (h.output ▸ houtputHand) hw
  | tx hw => exact not_step_of_idle htxQ (h.tx ▸ htxHand) hw

/-- A run of the pipeline has a drain that sends the replies, and few steps. -/
theorem drained_of_run {sema : Bool} {capacity : ℕ} {as : List Arrival} {qs : List Request}
    (hcfg : cfg.Fits) (hqs : List.Forall₂ (Carries cfg parseRequest parseCommand) as qs)
    {history : List Thread} {p : Pipeline}
    (hr : Run (ServerPipeline.Step cfg parseRequest parseCommand capacity)
      (Pipeline.start (memtableStart cfg (some sema)) as) history p) :
    Drained cfg parseRequest parseCommand p (Reference.empty.replies cfg.memtableSize qs) ∧
      history.length ≤ 10*as.length := by
  obtain ⟨st', hserve⟩ := serve_run_refines hcfg hqs (refines_start cfg sema)
  obtain ⟨hdrain, hwork⟩ := drain_run hr
  rw [drain_start hserve] at hdrain
  simp only [Pipeline.work, Pipeline.start, List.length_nil, Option.toList_none] at hwork
  exact ⟨drained_of_drain hdrain, by omega⟩

/-- A run of the accesses shows a pipeline with such a drain, and is not much
longer than its run. -/
theorem view_of_run (hcfg : cfg.Fits) (sema : Bool) (nil : RequestContext) {as : List Arrival}
    {qs : List Request} (hqs : List.Forall₂ (Carries cfg parseRequest parseCommand) as qs)
    {history : List Thread} {r : Threads} (hr : Run (Access cfg parseRequest parseCommand)
      (Threads.start nil (memtableStart cfg (some sema)) as) history r) :
    ∃ p, View r p ∧
      Drained cfg parseRequest parseCommand p (Reference.empty.replies cfg.memtableSize qs) ∧
      history.length ≤ 70*as.length+30 := by
  obtain ⟨history', p, hr', hview, hlength⟩ := hr.simulate (R := View) Threads.rank
    (fun _ _ _ _ hview hs => hview.access hs) (view_start nil _ as)
  obtain ⟨hdrained, hsteps⟩ := drained_of_run hcfg hqs hr'
  have hrank : (Threads.start nil (memtableStart cfg (some sema)) as).rank = 30 := rfl
  exact ⟨p, hview, hdrained, by omega⟩

/-- The server sends a beginning of the replies of the reference server, and all
of them before no thread can go on. -/
theorem sent_of_run (hcfg : cfg.Fits) (sema : Bool) (nil : RequestContext) {as : List Arrival}
    {qs : List Request} (hqs : List.Forall₂ (Carries cfg parseRequest parseCommand) as qs)
    {history : List Thread} {r : Threads} (hr : Run (Access cfg parseRequest parseCommand)
      (Threads.start nil (memtableStart cfg (some sema)) as) history r) :
    r.sent <+: Reference.empty.replies cfg.memtableSize qs ∧
      (r.Stuck cfg parseRequest parseCommand →
        r.sent = Reference.empty.replies cfg.memtableSize qs) := by
  obtain ⟨p, hview, hdrained, _⟩ := view_of_run hcfg sema nil hqs hr
  rw [← hview.sent]
  exact ⟨hdrained.sent_isPrefix, fun hstuck =>
    hdrained.sent_eq_of_stuck (by decide) (hview.stuck hdrained.not_faults hstuck)⟩

/-- With a flag for the store to raise and datagrams that carry commands: whatever
the order in which the threads access the counters, the states and the elements of
their queues, the server sends a beginning of the replies of the reference server,
never faults, makes at most seventy accesses for each request and thirty more, and
has sent all the replies when no thread can go on. -/
theorem queues_refine_reference (hcfg : cfg.Fits) (sema : Bool) (nil : RequestContext)
    {as : List Arrival} {qs : List Request}
    (hqs : List.Forall₂ (Carries cfg parseRequest parseCommand) as qs) {history : List Thread}
    {r : Threads} (hr : Run (Access cfg parseRequest parseCommand)
      (Threads.start nil (memtableStart cfg (some sema)) as) history r) :
    r.sent <+: Reference.empty.replies cfg.memtableSize qs ∧
      ¬ r.Faults cfg parseRequest parseCommand ∧ history.length ≤ 70*as.length+30 ∧
      (r.Stuck cfg parseRequest parseCommand →
        r.sent = Reference.empty.replies cfg.memtableSize qs) := by
  obtain ⟨p, hview, hdrained, hlength⟩ := view_of_run hcfg sema nil hqs hr
  obtain ⟨hsent, hall⟩ := sent_of_run hcfg sema nil hqs hr
  exact ⟨hsent, fun hf => hdrained.not_faults (hview.faults hf), hlength, hall⟩

/-- The threads can always go on until all replies are sent. -/
theorem exists_sent_all (hcfg : cfg.Fits) (sema : Bool) (nil : RequestContext)
    {as : List Arrival} {qs : List Request}
    (hqs : List.Forall₂ (Carries cfg parseRequest parseCommand) as qs) {history : List Thread}
    {r : Threads} (hr : Run (Access cfg parseRequest parseCommand)
      (Threads.start nil (memtableStart cfg (some sema)) as) history r) :
    ∃ more r', Run (Access cfg parseRequest parseCommand) r more r' ∧
      r'.sent = Reference.empty.replies cfg.memtableSize qs := by
  obtain ⟨more, r', hmore, hend⟩ := hr.exists_end (N := 70*as.length+30)
    fun _ _ hr' => (view_of_run hcfg sema nil hqs hr').choose_spec.2.2
  obtain ⟨p, hview, hdrained, _⟩ := view_of_run hcfg sema nil hqs (hr.append hmore)
  refine ⟨more, r', hmore, ?_⟩
  rw [← hview.sent]
  exact hdrained.sent_eq_of_stuck (by decide) (hview.stuck hdrained.not_faults hend)

/-- An access is possible whatever else arrives. -/
theorem Access.arrive {r r' : Threads} {thread : Thread}
    (hs : Access cfg parseRequest parseCommand r thread r') (later : List Arrival) :
    Access cfg parseRequest parseCommand (r.arrive later) thread (r'.arrive later) := by
  cases hs with
  | rx hw => exact .rx (hw.arrive later)
  | input hw => exact .input hw
  | memtable hw => exact .memtable hw
  | output hw => exact .output hw
  | tx hw => exact .tx hw

/-- A run that more datagrams arrive during is a run with all of them there from
the start. -/
theorem run_arrive {nil : RequestContext} {st : MemtableState} {as : List Arrival}
    {history : List Thread} {r : Threads}
    (hr : Run (Access cfg parseRequest parseCommand) (Threads.start nil st as) history r)
    (later : List Arrival) :
    Run (Access cfg parseRequest parseCommand) (Threads.start nil st (as ++ later)) history
      (r.arrive later) := by
  induction hr with
  | start => exact .start
  | next _ hs ih => exact ih.next (hs.arrive later)

end Views

section Requests

/-- What a cell of a queue holds before anything is stored to it. -/
def unused : RequestContext := ⟨[], 0, .malloc 0, .pointer 0, 0, 0, 0⟩

/-- A write and a read in the host's configuration, until both replies are sent. -/
theorem queues_refine_reference_write_read :
    ∃ history r, Run (Access hostConfig NetRequest.parseFromString NetCommand.parseFromString)
        (Threads.start unused (memtableStart hostConfig (some false))
          [clientArrival 0 ⟨1, [[1], [2]]⟩, clientArrival 1 ⟨0, [[1]]⟩]) history r ∧
      r.sent = [⟨ascii "127.0.0.1", 3002, ascii "0|WRITE_PASS"⟩,
        ⟨ascii "127.0.0.1", 3002, ascii "1|" ++ [2]⟩] ∧
      ¬ r.Faults hostConfig NetRequest.parseFromString NetCommand.parseFromString ∧
      history.length ≤ 170 := by
  have hqs := List.Forall₂.cons carries_write (.cons carries_read .nil)
  obtain ⟨history, r, hr, hsent⟩ := exists_sent_all hostConfig_fits false unused hqs .start
  obtain ⟨_, hfaults, hlength, _⟩ := queues_refine_reference hostConfig_fits false unused hqs hr
  exact ⟨history, r, hr, hsent.trans (by rfl), hfaults, hlength⟩

end Requests

end CapsuleDB.ServerQueues

import CapsuleDB.ClientDispatch
import CapsuleDB.UtilBlockingConcurrentQueue

/-!
# The client over its queue

The thread that `main` runs in and the sending thread share a blocking queue,
each access of which is a step. A request is in the abstract list from the
moment it is inside the queue, and the sending thread has it from the moment it
has been taken out. Every run over the queue is then a run over the list, and
the sending thread sleeps for ever only when there is no request.
-/

namespace CapsuleDB.ClientQueue

open EnclaveMemTable (Bytes)
open LabelledRun ServerStages
open ClientThreads (ClientRequest Endpoint Op)
open ClientDispatch (somewhere)
open UtilBlockingConcurrentQueue (ConcurrentQueue Label Phase Taking)

/-- What the queue inside is also relied upon for when there is one producer and
one consumer: the elements leave it in the order in which they were put in. -/
structure Ordered {κ α : Type*} (queue : ConcurrentQueue κ α) (items : κ → List α) : Prop where
  /-- The elements. -/
  contents : ∀ inner, queue.contents inner = ↑(items inner)
  /-- They are put in at the back. -/
  enqueue : ∀ {inner xs inner'}, queue.Enqueue inner xs inner' → items inner' = items inner ++ xs
  /-- They are taken out at the front. -/
  tryDequeue : ∀ {inner x inner'}, queue.TryDequeue inner x inner' →
    items inner = x :: items inner'

/-- The threads at the queue. -/
inductive Side
  /-- The thread that `main` runs in. -/
  | main
  /-- The sending thread. -/
  | tx
  deriving DecidableEq

/-- There are two of them. -/
instance : Fintype Side where
  elems := {.main, .tx}
  complete side := by cases side <;> decide

/-- The client over its queue. The list of the requests is not used. -/
structure Client (κ : Type*) where
  /-- The threads. -/
  system : ClientThreads.System
  /-- The queue. -/
  queue : UtilBlockingConcurrentQueue.System Side κ ClientRequest

/-- Before the first step. -/
def Client.start {κ : Type*} (msgBuff : Bytes) (inner : κ) (maxSpins : ℕ) : Client κ :=
  ⟨.start msgBuff, .start Side ClientRequest inner maxSpins⟩

/-- A step that only the queue takes part in. -/
def Inside : Label Side ClientRequest → Prop
  | .refuse .main => True
  | .access _ _ => True
  | .back _ _ => True
  | .take .tx _ => True
  | .ret .main _ => True
  | _ => False

/-- What can happen next. -/
inductive Event
  /-- `main` calls `enqueue`. -/
  | enqueue (body : Bytes)
  /-- The request is inside the queue. -/
  | insert
  /-- The sending thread calls `wait_dequeue`. -/
  | waitDequeue
  /-- A thread goes on in its call. -/
  | inside (label : Label Side ClientRequest)
  /-- The call of the sending thread returns. -/
  | dequeued (req : ClientRequest)
  /-- Anything else. -/
  | op (op : Op)

section Steps

variable {κ : Type*} (queue : ConcurrentQueue κ ClientRequest) (cfg : Config) (me : Endpoint)

/-- One step. The sending thread does nothing else while it is in a call. -/
inductive Step : Client κ → Event → Client κ → Prop
  | enqueue {c : Client κ} {body : Bytes}
      {q : UtilBlockingConcurrentQueue.System Side κ ClientRequest} :
      UtilBlockingConcurrentQueue.Step queue c.queue
        (.enqueue .main [⟨body, c.system.enqueued⟩]) q →
      Step c (.enqueue body) { c with queue := q }
  | insert {c : Client κ} {items : List ClientRequest}
      {q : UtilBlockingConcurrentQueue.System Side κ ClientRequest} :
      UtilBlockingConcurrentQueue.Step queue c.queue (.insert .main items) q →
      Step c .insert
        { system := { c.system with enqueued := c.system.enqueued+1 }, queue := q }
  | waitDequeue {c : Client κ} {q : UtilBlockingConcurrentQueue.System Side κ ClientRequest} :
      c.system.tx = .waiting →
      UtilBlockingConcurrentQueue.Step queue c.queue (.taking .tx .waitDequeue) q →
      Step c .waitDequeue { c with queue := q }
  | inside {c : Client κ} {label : Label Side ClientRequest}
      {q : UtilBlockingConcurrentQueue.System Side κ ClientRequest} : Inside label →
      UtilBlockingConcurrentQueue.Step queue c.queue label q →
      Step c (.inside label) { c with queue := q }
  | dequeued {c : Client κ} {req : ClientRequest}
      {q : UtilBlockingConcurrentQueue.System Side κ ClientRequest} :
      UtilBlockingConcurrentQueue.Step queue c.queue (.ret .tx (some req)) q →
      Step c (.dequeued req) { system := { c.system with tx := .dequeued req }, queue := q }
  | op {c : Client κ} {op : Op} {system : ClientThreads.System} :
      (∀ body, op ≠ .enqueue body) → ClientThreads.step cfg me c.system op = some system →
      Step c (.op op) { c with system := system }

end Steps

/-- Where the sending thread is over the list. -/
def txSeen (tx : ClientThreads.TxAt) : Phase ClientRequest → ClientThreads.TxAt
  | .done (some req) => .dequeued req
  | _ => tx

/-- The client over the list. -/
def Client.view {κ : Type*} (items : κ → List ClientRequest) (c : Client κ) :
    ClientThreads.System :=
  { c.system with
    cq := items c.queue.inner
    tx := txSeen c.system.tx (c.queue.threads .tx) }

/-- Where the thread that `main` runs in can be, when it has enqueued some requests. -/
def MainAt (enqueued : ℕ) : Phase ClientRequest → Prop
  | .idle => True
  | .enqueue items => ∃ body, items = [⟨body, enqueued⟩]
  | .signal _ => True
  | .done item => item = none
  | _ => False

/-- Where the sending thread can be. -/
def TxAt : Phase ClientRequest → Prop
  | .idle => True
  | .wait taking _ => taking = .waitDequeue
  | .take => True
  | .done item => item ≠ none
  | _ => False

/-- What every step keeps. -/
structure Kept {κ : Type*} (c : Client κ) : Prop where
  /-- The list is not used. -/
  cq : c.system.cq = []
  /-- The thread that `main` runs in only enqueues. -/
  main : MainAt c.system.enqueued (c.queue.threads .main)
  /-- The sending thread only dequeues. -/
  tx : TxAt (c.queue.threads .tx)
  /-- It is in the queue only when it wants a request. -/
  waiting : c.queue.threads .tx ≠ .idle → c.system.tx = .waiting

section Simulation

variable {κ : Type*} {queue : ConcurrentQueue κ ClientRequest} {items : κ → List ClientRequest}
  {cfg : Config} {me : Endpoint} {c : Client κ}

/-- With a request, the sending thread is in no call of the queue. -/
theorem Kept.idle_of_ne_waiting (h : Kept c) (hne : c.system.tx ≠ .waiting) :
    c.queue.threads .tx = .idle := by
  by_contra hbusy
  exact hne (h.waiting hbusy)

/-- The thread that `main` runs in goes on. -/
theorem Kept.go_main (h : Kept c) {q : UtilBlockingConcurrentQueue.System Side κ ClientRequest}
    {p : Phase ClientRequest} (hq : q.threads = Function.update c.queue.threads .main p)
    {enqueued : ℕ} (hp : MainAt enqueued p) :
    Kept ⟨{ c.system with enqueued := enqueued }, q⟩ := by
  have htx : q.threads .tx = c.queue.threads .tx := by
    rw [hq, Function.update_of_ne (by decide)]
  refine ⟨h.cq, ?_, ?_, ?_⟩
  · dsimp only
    rwa [hq, Function.update_self]
  · dsimp only
    rw [htx]
    exact h.tx
  · dsimp only
    rw [htx]
    exact h.waiting

/-- The sending thread goes on. -/
theorem Kept.go_tx (h : Kept c) {q : UtilBlockingConcurrentQueue.System Side κ ClientRequest}
    {p : Phase ClientRequest} (hq : q.threads = Function.update c.queue.threads .tx p)
    (hp : TxAt p) {tx : ClientThreads.TxAt} (hwaiting : p ≠ .idle → tx = .waiting) :
    Kept ⟨{ c.system with tx := tx }, q⟩ := by
  refine ⟨h.cq, ?_, ?_, ?_⟩
  · dsimp only
    rw [hq, Function.update_of_ne (by decide)]
    exact h.main
  · dsimp only
    rwa [hq, Function.update_self]
  · dsimp only
    rwa [hq, Function.update_self]

/-- Over the list nothing happens when the thread that `main` runs in goes on
outside the queue. -/
theorem view_go_main {q : UtilBlockingConcurrentQueue.System Side κ ClientRequest}
    {p : Phase ClientRequest} (hq : q.threads = Function.update c.queue.threads .main p)
    (hinner : q.inner = c.queue.inner) :
    Client.view items { c with queue := q } = c.view items := by
  unfold Client.view
  dsimp only
  rw [hinner, hq, Function.update_of_ne (by decide)]

/-- Over the list nothing happens when the sending thread goes on without a request. -/
theorem view_go_tx {q : UtilBlockingConcurrentQueue.System Side κ ClientRequest}
    {p : Phase ClientRequest} (hq : q.threads = Function.update c.queue.threads .tx p)
    (hinner : q.inner = c.queue.inner)
    (hp : txSeen c.system.tx p = txSeen c.system.tx (c.queue.threads .tx)) :
    Client.view items { c with queue := q } = c.view items := by
  unfold Client.view
  dsimp only
  rw [hinner, hq, Function.update_self, hp]

/-- A step inside the queue is invisible over the list, or takes out the first
request for the sending thread. -/
theorem Kept.inside (h : Kept c) (hqueue : Ordered queue items)
    {label : Label Side ClientRequest}
    {q : UtilBlockingConcurrentQueue.System Side κ ClientRequest} (hlabel : Inside label)
    (hs : UtilBlockingConcurrentQueue.Step queue c.queue label q) :
    Kept { c with queue := q } ∧
      (Client.view items { c with queue := q } = c.view items ∨
        (c.view items).tx = .waiting ∧ ClientThreads.Step cfg me (c.view items) .tx
          (Client.view items { c with queue := q })) := by
  have hmain := h.main
  have htx := h.tx
  cases hs with
  | enqueue => cases hlabel
  | taking => cases hlabel
  | insert => cases hlabel
  | @refuse i _ hi =>
    cases i with
    | main => exact ⟨h.go_main (p := .done none) rfl rfl, .inl (view_go_main rfl rfl)⟩
    | tx => cases hlabel
  | @signal i _ _ p' _ hi _ =>
    cases i with
    | main => exact ⟨h.go_main (p := .signal p') rfl trivial, .inl (view_go_main rfl rfl)⟩
    | tx =>
      rw [hi] at htx
      cases htx
  | @signalled i _ hi =>
    cases i with
    | main => exact ⟨h.go_main (p := .done none) rfl rfl, .inl (view_go_main rfl rfl)⟩
    | tx =>
      rw [hi] at htx
      cases htx
  | @wait i _ taking _ p' _ hi _ =>
    cases i with
    | main =>
      rw [hi] at hmain
      cases hmain
    | tx =>
      have hwaiting := h.waiting (by rw [hi]; exact nofun)
      rw [hi] at htx
      exact ⟨h.go_tx (p := .wait taking p') rfl htx fun _ => hwaiting,
        .inl (view_go_tx rfl rfl (by rw [hi]; rfl))⟩
  | @waited i _ result hi =>
    cases i with
    | main =>
      rw [hi] at hmain
      cases hmain
    | tx =>
      have hwaiting := h.waiting (by rw [hi]; exact nofun)
      rw [hi] at htx
      cases htx
      have hback : TxAt (Taking.waitDequeue.back result) ∧
          txSeen c.system.tx (Taking.waitDequeue.back result) = c.system.tx := by
        unfold Taking.back
        split
        · exact ⟨rfl, rfl⟩
        · exact ⟨trivial, rfl⟩
      exact ⟨h.go_tx rfl hback.1 fun _ => hwaiting,
        .inl (view_go_tx rfl rfl (by rw [hback.2, hi]; rfl))⟩
  | @take i req inner hi htake =>
    cases i with
    | main => cases hlabel
    | tx =>
      have hwaiting := h.waiting (by rw [hi]; exact nofun)
      have hseen : txSeen c.system.tx (c.queue.threads .tx) = .waiting := by
        rw [hi]
        exact hwaiting
      refine ⟨h.go_tx (p := .done (some req)) rfl (Option.some_ne_none req) fun _ => hwaiting,
        .inr ⟨hseen, ?_⟩⟩
      unfold ClientThreads.Step ClientThreads.step ClientThreads.initNetTx Client.view
      dsimp only
      rw [hseen, hqueue.tryDequeue htake]
      dsimp only [UtilBlockingConcurrentQueue.System.go]
      rw [Function.update_self]
      rfl
  | @ret i item hi =>
    cases i with
    | main => exact ⟨h.go_main (p := .idle) rfl trivial, .inl (view_go_main rfl rfl)⟩
    | tx => cases hlabel

/-- The receiving thread does not look at the list or at the sending thread. -/
theorem initNetRx_frame {s t : ClientThreads.System} (hs : ClientThreads.initNetRx cfg s = some t)
    (cq : List ClientRequest) (tx : ClientThreads.TxAt) :
    ClientThreads.initNetRx cfg { s with cq := cq, tx := tx } =
        some { t with cq := cq, tx := tx } ∧
      t.cq = s.cq ∧ t.tx = s.tx ∧ t.enqueued = s.enqueued := by
  unfold ClientThreads.initNetRx at hs ⊢
  dsimp only
  cases hrx : s.rx with
  | starting =>
    rw [hrx] at hs
    cases hs
    exact ⟨rfl, rfl, rfl, rfl⟩
  | listening =>
    rw [hrx] at hs
    cases hs
  | received a =>
    rw [hrx] at hs
    dsimp only at hs ⊢
    cases hentry : s.callbackMap (ClientThreads.uidOf s.msgBuff) with
    | none =>
      rw [hentry] at hs
      cases hs
      exact ⟨rfl, rfl, rfl, rfl⟩
    | some callback =>
      rw [hentry] at hs
      cases hs
      exact ⟨rfl, rfl, rfl, rfl⟩
  | found uid a =>
    rw [hrx] at hs
    dsimp only at hs ⊢
    cases hentry : s.callbackMap uid with
    | none =>
      rw [hentry] at hs
      cases hs
    | some callback =>
      rw [hentry] at hs
      cases hs
      exact ⟨rfl, rfl, rfl, rfl⟩
  | called uid =>
    rw [hrx] at hs
    cases hs
    exact ⟨rfl, rfl, rfl, rfl⟩

/-- Neither does the network. -/
theorem step_frame {s t : ClientThreads.System} {op : Op} (henqueue : ∀ body, op ≠ .enqueue body)
    (htx : op ≠ .tx) (hs : ClientThreads.step cfg me s op = some t) (cq : List ClientRequest)
    (tx : ClientThreads.TxAt) :
    ClientThreads.step cfg me { s with cq := cq, tx := tx } op =
        some { t with cq := cq, tx := tx } ∧
      t.cq = s.cq ∧ t.tx = s.tx ∧ t.enqueued = s.enqueued := by
  cases op with
  | enqueue body => exact absurd rfl (henqueue body)
  | tx => exact absurd rfl htx
  | rx => exact initNetRx_frame hs cq tx
  | receive a =>
    unfold ClientThreads.step at hs ⊢
    dsimp only at hs ⊢
    split at hs
    · next hreceive =>
      cases hs
      rw [if_pos hreceive]
      exact ⟨rfl, rfl, rfl, rfl⟩
    · cases hs
  | serve d rest =>
    unfold ClientThreads.step at hs ⊢
    dsimp only at hs ⊢
    split at hs
    · next hserve =>
      cases hs
      rw [if_pos hserve]
      exact ⟨rfl, rfl, rfl, rfl⟩
    · cases hs

/-- The sending thread waits for the list. -/
theorem ne_waiting_of_initNetTx {s t : ClientThreads.System} (hcq : s.cq = [])
    (hs : ClientThreads.initNetTx me s = some t) : s.tx ≠ .waiting := by
  intro htx
  unfold ClientThreads.initNetTx at hs
  rw [htx, hcq] at hs
  cases hs

/-- The sending thread does not look at the list while it has a request. -/
theorem initNetTx_frame {s t : ClientThreads.System} (hne : s.tx ≠ .waiting)
    (hs : ClientThreads.initNetTx me s = some t) (cq : List ClientRequest) :
    ClientThreads.initNetTx me { s with cq := cq } = some { t with cq := cq } ∧
      t.cq = s.cq ∧ t.enqueued = s.enqueued := by
  unfold ClientThreads.initNetTx at hs ⊢
  dsimp only
  cases htx : s.tx with
  | waiting => exact absurd htx hne
  | dequeued req =>
    rw [htx] at hs
    cases hs
    exact ⟨rfl, rfl, rfl⟩
  | numbered req uid =>
    rw [htx] at hs
    cases hs
    exact ⟨rfl, rfl, rfl⟩
  | stored req uid =>
    rw [htx] at hs
    cases hs
    exact ⟨rfl, rfl, rfl⟩

/-- A step outside the queue is the same step over the list. -/
theorem Kept.op (h : Kept c) {op : Op} {system : ClientThreads.System}
    (henqueue : ∀ body, op ≠ .enqueue body)
    (hs : ClientThreads.step cfg me c.system op = some system) :
    Kept { c with system := system } ∧
      ClientThreads.Step cfg me (c.view items) op
        (Client.view items { c with system := system }) := by
  by_cases hop : op = .tx
  · subst hop
    have hne := ne_waiting_of_initNetTx h.cq hs
    obtain ⟨hstep, hcq, henqueued⟩ := initNetTx_frame hne hs (items c.queue.inner)
    have hidle := h.idle_of_ne_waiting hne
    refine ⟨⟨hcq.trans h.cq, ?_, h.tx, fun hbusy => absurd hidle hbusy⟩, ?_⟩
    · dsimp only
      rw [henqueued]
      exact h.main
    · unfold Client.view
      dsimp only
      rw [hidle]
      exact hstep
  · obtain ⟨hstep, hcq, htx, henqueued⟩ := step_frame (s := c.system) henqueue hop hs
      (items c.queue.inner) (txSeen c.system.tx (c.queue.threads .tx))
    refine ⟨⟨hcq.trans h.cq, ?_, h.tx, fun hbusy => htx.trans (h.waiting hbusy)⟩, ?_⟩
    · dsimp only
      rw [henqueued]
      exact h.main
    · unfold Client.view
      dsimp only
      rw [htx]
      exact hstep

/-- Calling `enqueue` is not seen over the list. -/
theorem Kept.enqueue (h : Kept c) {body : Bytes} {c' : Client κ}
    (hs : Step queue cfg me c (.enqueue body) c') :
    Kept c' ∧ c'.view items = c.view items ∧ c'.system = c.system ∧
      c'.queue.threads .main = .enqueue [⟨body, c.system.enqueued⟩] := by
  cases hs with
  | enqueue hq =>
    cases hq with
    | enqueue _ hi =>
      exact ⟨h.go_main (p := .enqueue [⟨body, c.system.enqueued⟩]) rfl ⟨body, rfl⟩,
        view_go_main rfl rfl, rfl, c.queue.go_self .main _⟩

/-- A request that is put into the queue is enqueued in the list. -/
theorem Kept.insert (h : Kept c) (hqueue : Ordered queue items) {c' : Client κ}
    (hs : Step queue cfg me c .insert c') :
    Kept c' ∧ ∃ body, c.queue.threads .main = .enqueue [⟨body, c.system.enqueued⟩] ∧
      c'.queue.threads .main = .signal (UtilLightweightSemaphore.Call.signal 1).enter ∧
      ClientThreads.step cfg me (c.view items) (.enqueue body) = some (c'.view items) := by
  have hmain := h.main
  cases hs with
  | insert hq =>
    cases hq with
    | @insert _ _ inner hi hinner =>
      rw [hi] at hmain
      obtain ⟨body, rfl⟩ := hmain
      refine ⟨h.go_main (p := .signal (UtilLightweightSemaphore.Call.signal 1).enter) rfl trivial,
        body, hi, UtilBlockingConcurrentQueue.System.go_self .., ?_⟩
      unfold ClientThreads.step Client.view
      dsimp only [UtilBlockingConcurrentQueue.System.go]
      rw [hqueue.enqueue hinner, Function.update_of_ne (by decide)]

/-- Calling `wait_dequeue` is not seen over the list. -/
theorem Kept.waitDequeue (h : Kept c) {c' : Client κ}
    (hs : Step queue cfg me c .waitDequeue c') :
    Kept c' ∧ c'.view items = c.view items := by
  cases hs with
  | waitDequeue hwaiting hq =>
    cases hq with
    | taking _ hi =>
      exact ⟨h.go_tx (p := .wait .waitDequeue Taking.waitDequeue.call.enter) rfl rfl
        fun _ => hwaiting, view_go_tx rfl rfl (by rw [hi]; rfl)⟩

/-- Neither is the return from there. -/
theorem Kept.dequeued (h : Kept c) {req : ClientRequest} {c' : Client κ}
    (hs : Step queue cfg me c (.dequeued req) c') : Kept c' ∧ c'.view items = c.view items := by
  cases hs with
  | dequeued hq =>
    cases hq with
    | ret hi =>
      refine ⟨h.go_tx (p := .idle) rfl trivial fun hbusy => absurd rfl hbusy, ?_⟩
      unfold Client.view
      dsimp only [UtilBlockingConcurrentQueue.System.go]
      rw [hi, Function.update_self]
      rfl

/-- Every step is at most one step over the list. -/
theorem Kept.step (h : Kept c) (hqueue : Ordered queue items) {event : Event} {c' : Client κ}
    (hs : Step queue cfg me c event c') :
    Kept c' ∧ (c'.view items = c.view items ∨
      ∃ op, ClientThreads.Step cfg me (c.view items) op (c'.view items)) := by
  cases event with
  | enqueue body =>
    obtain ⟨hkept, hview, _⟩ := h.enqueue hs
    exact ⟨hkept, .inl hview⟩
  | insert =>
    obtain ⟨hkept, body, _, _, hstep⟩ := h.insert hqueue hs
    exact ⟨hkept, .inr ⟨.enqueue body, hstep⟩⟩
  | waitDequeue => exact (h.waitDequeue hs).imp_right .inl
  | inside label =>
    cases hs with
    | inside hlabel hq =>
      have hview : _ ∧ (_ ∨ _ ∧ ClientThreads.Step cfg me (c.view items) .tx _) :=
        h.inside hqueue hlabel hq
      exact ⟨hview.1, hview.2.imp_right fun hstep => ⟨.tx, hstep.2⟩⟩
  | dequeued req => exact (h.dequeued hs).imp_right .inl
  | op op =>
    cases hs with
    | op henqueue hs => exact (h.op henqueue hs).imp_right fun hstep => .inr ⟨_, hstep⟩

/-- Before the first step. -/
theorem kept_start (msgBuff : Bytes) (inner : κ) (maxSpins : ℕ) :
    Kept (Client.start msgBuff inner maxSpins) :=
  ⟨rfl, trivial, trivial, fun hbusy => absurd rfl hbusy⟩

/-- The steps at the queue make a run of the queue. -/
theorem queue_of_run {msgBuff : Bytes} {inner : κ} {maxSpins : ℕ} {history : List Event}
    (hr : Run (Step queue cfg me) (Client.start msgBuff inner maxSpins) history c) :
    ∃ labels, Run (UtilBlockingConcurrentQueue.Step queue)
      (.start Side ClientRequest inner maxSpins) labels c.queue := by
  refine hr.invariant (I := fun _ c => ∃ labels, Run (UtilBlockingConcurrentQueue.Step queue)
      (.start Side ClientRequest inner maxSpins) labels c.queue) ⟨[], .start⟩ ?_
  rintro history c event c' _ ⟨labels, hq⟩ hs
  cases hs with
  | enqueue hs => exact ⟨_, hq.next hs⟩
  | insert hs => exact ⟨_, hq.next hs⟩
  | waitDequeue _ hs => exact ⟨_, hq.next hs⟩
  | inside _ hs => exact ⟨_, hq.next hs⟩
  | dequeued hs => exact ⟨_, hq.next hs⟩
  | op _ _ => exact ⟨labels, hq⟩

/-- A run over the queue is a run over the list. -/
theorem kept_of_run (hqueue : Ordered queue items) {msgBuff : Bytes} {inner : κ}
    (hempty : items inner = []) {maxSpins : ℕ} {history : List Event}
    (hr : Run (Step queue cfg me) (Client.start msgBuff inner maxSpins) history c) :
    Kept c ∧
      ∃ history', Run (ClientThreads.Step cfg me) (.start msgBuff) history' (c.view items) := by
  refine hr.invariant (I := fun _ c => Kept c ∧ ∃ history',
      Run (ClientThreads.Step cfg me) (.start msgBuff) history' (c.view items))
    ⟨kept_start msgBuff inner maxSpins, [], ?_⟩ ?_
  · have hstart : (Client.start msgBuff inner maxSpins).view items = .start msgBuff := by
      unfold Client.view Client.start UtilBlockingConcurrentQueue.System.start
      dsimp only
      rw [hempty]
      rfl
    rw [hstart]
    exact .start
  · rintro history c event c' _ ⟨hkept, history', hview⟩ hs
    obtain ⟨hkept', hsame | ⟨op, hstep⟩⟩ := hkept.step hqueue hs
    · exact ⟨hkept', history', hsame ▸ hview⟩
    · exact ⟨hkept', _, hview.next hstep⟩

/-- Whatever the order of the accesses to the queue, the client over its queue runs
as over a list of requests, with the same requests sent and the same callbacks
called. When no thread in a call of the queue can go on, but the sending thread
is in one, there is no request that has not been sent. -/
theorem queue_refines_list (hqueue : Ordered queue items) {msgBuff : Bytes} {inner : κ}
    (hempty : items inner = []) {maxSpins : ℕ} {history : List Event}
    (hr : Run (Step queue cfg me) (Client.start msgBuff inner maxSpins) history c) :
    (∃ history', Run (ClientThreads.Step cfg me) (.start msgBuff) history' (c.view items)) ∧
      (UtilBlockingConcurrentQueue.HeldUp queue c.queue → c.queue.threads .tx ≠ .idle →
        (c.view items).cq = [] ∧ (c.view items).tx = .waiting) := by
  obtain ⟨hkept, hview⟩ := kept_of_run hqueue hempty hr
  refine ⟨hview, fun hheld hbusy => ⟨?_, ?_⟩⟩
  · obtain ⟨labels, hq⟩ := queue_of_run hr
    have hinner : queue.contents inner = 0 := by
      rw [hqueue.contents, hempty]
      rfl
    have hnone := ((UtilBlockingConcurrentQueue.linked_of_run hinner hq).empty_of_heldUp
      (by decide) hheld ⟨.tx, hbusy⟩).1
    rw [hqueue.contents] at hnone
    exact (Multiset.coe_eq_zero _).mp hnone
  · have hwaiting := hkept.waiting hbusy
    have hseen : ∀ p, c.queue.threads .tx = p → txSeen c.system.tx p = .waiting := by
      intro p hp
      unfold txSeen
      split
      · exact (hheld _ _ (.ret hp)).elim
      · exact hwaiting
    exact hseen _ rfl

end Simulation

section Lists

/-- A list keeps the order of its elements. -/
theorem ordered_listQueue (α : Type*) :
    Ordered (UtilBlockingConcurrentQueue.listQueue α) fun inner => inner where
  contents _ := rfl
  enqueue h := h
  tryDequeue h := h

/-- A request that is inside the queue. -/
theorem queue_refines_list_enqueue :
    ∃ history c, Run (Step (UtilBlockingConcurrentQueue.listQueue ClientRequest) hostConfig
        somewhere) (Client.start [] [] 0) history c ∧
      (c.view fun inner => inner).cq = [⟨[1], 0⟩] ∧
      ∃ history', Run (ClientThreads.Step hostConfig somewhere) (.start []) history'
        (c.view fun inner => inner) := by
  have hstart : Run (Step (UtilBlockingConcurrentQueue.listQueue ClientRequest) hostConfig
      somewhere) (Client.start [] [] 0) [] _ := .start
  have hr := (hstart.next (a := .enqueue [1]) (.enqueue (.enqueue _ rfl))).next (a := .insert)
    (.insert (.insert rfl rfl))
  exact ⟨_, _, hr, rfl, (queue_refines_list (ordered_listQueue ClientRequest) rfl hr).1⟩

end Lists

end CapsuleDB.ClientQueue

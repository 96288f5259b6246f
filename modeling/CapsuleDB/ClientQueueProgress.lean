import CapsuleDB.ClientQueue

/-!
# The client goes on over its queue

The thread that `main` runs in can always finish a call of `enqueue` behind the
queue inside. While it is in no call, the sending thread can go on over the
queue as it does over the list: a request that is in the list has a permit, with
which `wait_dequeue` returns.
-/

namespace CapsuleDB.ClientQueue

open LabelledRun ServerStages
open EnclaveMemTable (Bytes)
open ClientThreads (ClientRequest Endpoint Op)
open UtilLightweightSemaphore (Call LightweightSemaphore)
open UtilBlockingConcurrentQueue (ConcurrentQueue Label Linked Phase)

/-- A step that only the queue takes part in and that gives up no request. -/
def Event.AtQueue : Event → Prop
  | .waitDequeue => True
  | .inside label => label ≠ .refuse .main
  | .dequeued _ => True
  | _ => False

/-- The requests that a thread is about to put into the queue. -/
def putting : Phase ClientRequest → Option (List ClientRequest)
  | .enqueue reqs => some reqs
  | _ => none

/-- What every step keeps, with the permits. -/
structure Sound {κ : Type*} (queue : ConcurrentQueue κ ClientRequest) (maxSpins : ℕ)
    (c : Client κ) : Prop extends Kept c where
  /-- The queue. -/
  linked : ∃ labels, Linked queue maxSpins labels c.queue

section Progress

variable {κ : Type*} {queue : ConcurrentQueue κ ClientRequest} {items : κ → List ClientRequest}
  {cfg : Config} {me : Endpoint} {maxSpins : ℕ} {c : Client κ}

/-- The steps of the queue in a step of the client. -/
theorem queue_of_step {c' : Client κ} {event : Event} (hs : Step queue cfg me c event c') :
    c'.queue = c.queue ∨
      ∃ label, UtilBlockingConcurrentQueue.Step queue c.queue label c'.queue := by
  cases hs with
  | enqueue hs => exact .inr ⟨_, hs⟩
  | insert hs => exact .inr ⟨_, hs⟩
  | waitDequeue _ hs => exact .inr ⟨_, hs⟩
  | inside _ hs => exact .inr ⟨_, hs⟩
  | dequeued hs => exact .inr ⟨_, hs⟩
  | op _ _ => exact .inl rfl

/-- One step. -/
theorem Sound.step (h : Sound queue maxSpins c) (hqueue : Ordered queue items) {event : Event}
    {c' : Client κ} (hs : Step queue cfg me c event c') : Sound queue maxSpins c' := by
  obtain ⟨labels, hlinked⟩ := h.linked
  refine { (h.toKept.step hqueue hs).1 with linked := ?_ }
  rcases queue_of_step hs with hsame | ⟨label, hs⟩
  · exact ⟨labels, hsame ▸ hlinked⟩
  · exact ⟨_, hlinked.step hs⟩

/-- Before the first step. -/
theorem sound_start (hqueue : Ordered queue items) (msgBuff : Bytes) {inner : κ}
    (hempty : items inner = []) (maxSpins : ℕ) :
    Sound queue maxSpins (Client.start msgBuff inner maxSpins) := by
  have hinner : queue.contents inner = 0 := by
    rw [hqueue.contents, hempty]
    rfl
  exact { kept_start msgBuff inner maxSpins with
    linked := ⟨[], UtilBlockingConcurrentQueue.linked_start queue hinner maxSpins⟩ }

/-- A thread that is about to put requests into the queue. -/
theorem eq_enqueue_of_putting {p : Phase ClientRequest} {reqs : List ClientRequest}
    (h : putting p = some reqs) : p = .enqueue reqs := by
  cases p with
  | enqueue reqs' =>
    cases h
    rfl
  | _ => cases h

/-- A thread that puts no request into the queue goes on to where it puts none. -/
theorem putting_go {q r : UtilBlockingConcurrentQueue.System Side κ ClientRequest} {i : Side}
    {p p' : Phase ClientRequest} (hsame : r.threads = q.threads) (hi : q.threads i = p)
    (hp : putting p = none) (hp' : putting p' = none) :
    putting ((r.go i p').threads .main) = putting (q.threads .main) := by
  cases i with
  | main => rw [r.go_self, hi, hp, hp']
  | tx => rw [r.go_of_ne (by decide), hsame]

/-- A step that only the queue takes part in puts no request into it. -/
theorem putting_of_atQueue {event : Event} (hevent : event.AtQueue) {c' : Client κ}
    (hs : Step queue cfg me c event c') :
    putting (c'.queue.threads .main) = putting (c.queue.threads .main) ∧
      c'.system.enqueued = c.system.enqueued := by
  cases hs with
  | enqueue => exact hevent.elim
  | insert => exact hevent.elim
  | op => exact hevent.elim
  | waitDequeue _ hs =>
    cases hs with
    | taking _ hi => exact ⟨putting_go rfl hi rfl rfl, rfl⟩
  | dequeued hs =>
    cases hs with
    | ret hi => exact ⟨putting_go rfl hi rfl rfl, rfl⟩
  | inside hlabel hs =>
    refine ⟨?_, rfl⟩
    cases hs with
    | enqueue => cases hlabel
    | taking => cases hlabel
    | insert => cases hlabel
    | @refuse i =>
      cases i with
      | main => exact absurd rfl hevent
      | tx => cases hlabel
    | @signal _ _ _ _ sema hi _ =>
      exact putting_go (r := { c.queue with sema := sema }) rfl hi rfl rfl
    | signalled hi => exact putting_go rfl hi rfl rfl
    | @wait _ _ _ _ _ sema hi _ =>
      exact putting_go (r := { c.queue with sema := sema }) rfl hi rfl rfl
    | @waited _ taking result hi =>
      have hback : putting (taking.back result) = none := by
        unfold UtilBlockingConcurrentQueue.Taking.back
        split
        · split <;> rfl
        · rfl
      exact putting_go rfl hi rfl hback
    | @take _ _ inner hi _ =>
      exact putting_go (r := { c.queue with inner := inner }) rfl hi rfl rfl
    | ret hi => exact putting_go rfl hi rfl rfl

/-- A step outside the queue enqueues nothing. -/
theorem Kept.enqueued_of_op (h : Kept c) {op : Op} {c' : Client κ}
    (hs : Step queue cfg me c (.op op) c') :
    c'.queue = c.queue ∧ c'.system.enqueued = c.system.enqueued := by
  cases hs with
  | op henqueue hs =>
    refine ⟨rfl, ?_⟩
    by_cases hop : op = .tx
    · subst hop
      exact (initNetTx_frame (ne_waiting_of_initNetTx h.cq hs) hs []).2.2
    · exact (step_frame henqueue hop hs [] .waiting).2.2.2

/-- A step that only the queue takes part in is invisible over the list, or takes out
the first request for the sending thread. -/
theorem Kept.view_of_atQueue (h : Kept c) (hqueue : Ordered queue items) {event : Event}
    (hevent : event.AtQueue) {c' : Client κ} (hs : Step queue cfg me c event c') :
    c'.view items = c.view items ∨ (c.view items).tx = .waiting ∧
      ClientThreads.Step cfg me (c.view items) .tx (c'.view items) := by
  cases event with
  | enqueue body => exact hevent.elim
  | insert => exact hevent.elim
  | op op => exact hevent.elim
  | waitDequeue => exact .inl (h.waitDequeue hs).2
  | dequeued req => exact .inl (h.dequeued hs).2
  | inside label =>
    cases hs with
    | inside hlabel hs => exact (h.inside hqueue hlabel hs).2

/-- Outside the queue, the sending thread is seen where it is. -/
theorem Kept.view_tx (h : Kept c) (hne : c.system.tx ≠ .waiting) :
    (c.view items).tx = c.system.tx := by
  unfold Client.view
  dsimp only
  rw [h.idle_of_ne_waiting hne]
  rfl

/-- Steps that only the queue takes part in. -/
theorem run_inside {labels : List (Label Side ClientRequest)}
    (hlabels : ∀ label ∈ labels, Inside label)
    {q : UtilBlockingConcurrentQueue.System Side κ ClientRequest}
    (hr : Run (UtilBlockingConcurrentQueue.Step queue) c.queue labels q) :
    Run (Step queue cfg me) c (labels.map Event.inside) { c with queue := q } := by
  induction hr with
  | start => exact .start
  | @next labels q q' label _ hs ih =>
    rw [List.forall_mem_cons] at hlabels
    exact (ih hlabels.2).next (.inside hlabels.1 hs)

/-- The accesses of a thread to the semaphore and the return from there. -/
theorem inside_back {i : Side} {result : ℤ} {lucks : List Bool} :
    ∀ label ∈ (.back i result :: lucks.map (Label.access i) : List (Label Side ClientRequest)),
      Inside label ∧ label ≠ .refuse .main := by
  intro label hlabel
  rcases List.mem_cons.mp hlabel with rfl | hlabel
  · exact ⟨trivial, nofun⟩
  · obtain ⟨luck, _, rfl⟩ := List.mem_map.mp hlabel
    exact ⟨trivial, nofun⟩

/-- Events inside the queue. -/
theorem atQueue_map {labels : List (Label Side ClientRequest)}
    (h : ∀ label ∈ labels, Inside label ∧ label ≠ .refuse .main) :
    ∀ event ∈ labels.map Event.inside, event.AtQueue := by
  intro event hevent
  obtain ⟨label, hlabel, rfl⟩ := List.mem_map.mp hevent
  exact (h label hlabel).2

/-- The thread that `main` runs in stays where it is. -/
theorem main_go_tx (q : UtilBlockingConcurrentQueue.System Side κ ClientRequest)
    (p : Phase ClientRequest) : (q.go .tx p).threads .main = q.threads .main :=
  q.go_of_ne (by decide) p

/-- A request in the list is in the queue. -/
theorem Ordered.contents_ne_zero (hqueue : Ordered queue items) {inner : κ} {req : ClientRequest}
    {rest : List ClientRequest} (hcq : items inner = req :: rest) : queue.contents inner ≠ 0 := by
  rw [hqueue.contents, hcq, ← Multiset.cons_coe]
  exact Multiset.cons_ne_zero

variable (cfg me)

/-- Behind the queue inside, the thread that `main` runs in can go on until its call
returns. -/
theorem Sound.exists_main_idle (h : Sound queue maxSpins c)
    (hmain : putting (c.queue.threads .main) = none) :
    ∃ more c', Run (Step queue cfg me) c more c' ∧ (∀ event ∈ more, event.AtQueue) ∧
      c'.queue.threads .main = .idle ∧ c'.system = c.system := by
  -- a call that is about to return
  have hreturn : ∀ c : Client κ, c.queue.threads .main = .done none →
      ∃ c', Step queue cfg me c (.inside (.ret .main none)) c' ∧
        c'.queue.threads .main = .idle ∧ c'.system = c.system := by
    intro c hdone
    exact ⟨_, .inside trivial (.ret hdone), c.queue.go_self .main .idle, rfl⟩
  have hat := h.main
  cases hphase : c.queue.threads .main with
  | idle => exact ⟨[], c, .start, nofun, hphase, rfl⟩
  | enqueue reqs =>
    rw [hphase] at hmain
    cases hmain
  | wait taking p =>
    rw [hphase] at hat
    exact hat.elim
  | take =>
    rw [hphase] at hat
    exact hat.elim
  | done item =>
    rw [hphase] at hat
    cases hat
    obtain ⟨c', hs, hidle, hsystem⟩ := hreturn c hphase
    exact ⟨_, c', Run.start.next hs, List.forall_mem_singleton.mpr nofun, hidle, hsystem⟩
  | signal p =>
    obtain ⟨labels, hlinked⟩ := h.linked
    have hcall := hlinked.calls .main
    rw [hphase] at hcall
    obtain ⟨lucks, sema, hr⟩ := UtilBlockingConcurrentQueue.exists_entered hcall hphase
    have hrun : Run (Step queue cfg me) c _ _ :=
      run_inside (fun label hlabel => (inside_back label hlabel).1) hr
    obtain ⟨c', hs, hidle, hsystem⟩ := hreturn
      { c with queue := { c.queue with sema := sema }.go .main (.done none) }
      (UtilBlockingConcurrentQueue.System.go_self ..)
    refine ⟨_, c', hrun.next hs, ?_, hidle, hsystem⟩
    rw [List.forall_mem_cons]
    exact ⟨nofun, atQueue_map inside_back⟩

/-- Over the list the sending thread takes the first request. -/
structure Takes (items : κ → List ClientRequest) (c c' : Client κ) (req : ClientRequest)
    (rest : List ClientRequest) : Prop where
  /-- The thread that `main` runs in. -/
  main : c'.queue.threads .main = c.queue.threads .main
  /-- What is seen over the list. -/
  view : c'.view items = { c.view items with cq := rest, tx := .dequeued req }

/-- With a permit, the sending thread takes the first request. -/
theorem exists_taken_of_take (hqueue : Ordered queue items)
    (htx : c.queue.threads .tx = .take) {req : ClientRequest} {rest : List ClientRequest}
    (hcq : items c.queue.inner = req :: rest) :
    ∃ c', Step queue cfg me c (.inside (.take .tx req)) c' ∧ Takes items c c' req rest := by
  obtain ⟨req', inner, htake⟩ :=
    queue.exists_tryDequeue c.queue.inner (hqueue.contents_ne_zero hcq)
  have hfirst := hqueue.tryDequeue htake
  rw [hcq, List.cons.injEq] at hfirst
  obtain ⟨rfl, hrest⟩ := hfirst
  refine ⟨_, .inside trivial (.take htx htake), main_go_tx .., ?_⟩
  unfold Client.view
  dsimp only [UtilBlockingConcurrentQueue.System.go]
  rw [← hrest, Function.update_self]
  rfl

/-- In `wait_dequeue`, the sending thread can go on until it has taken the first
request. -/
theorem Sound.exists_taken_of_wait (h : Sound queue maxSpins c) (hqueue : Ordered queue items)
    (hidle : c.queue.threads .main = .idle) {p : UtilLightweightSemaphore.Phase}
    (htx : c.queue.threads .tx = .wait .waitDequeue p) {req : ClientRequest}
    {rest : List ClientRequest} (hcq : items c.queue.inner = req :: rest) :
    ∃ more c', Run (Step queue cfg me) c more c' ∧ (∀ event ∈ more, event.AtQueue) ∧
      Takes items c c' req rest := by
  obtain ⟨labels, hlinked⟩ := h.linked
  have halone : ∀ j, j ≠ .tx → c.queue.threads j = .idle := by
    intro j hj
    cases j with
    | main => exact hidle
    | tx => exact absurd rfl hj
  obtain ⟨lucks, sema, hr⟩ :=
    hlinked.exists_permit (by decide) htx halone (hqueue.contents_ne_zero hcq)
  have hrun : Run (Step queue cfg me) c _ _ :=
    run_inside (fun label hlabel => (inside_back label hlabel).1) hr
  obtain ⟨c', hs, htakes⟩ := exists_taken_of_take cfg me
    (c := { c with queue := { c.queue with sema := sema }.go .tx .take }) hqueue
    (UtilBlockingConcurrentQueue.System.go_self ..) hcq
  refine ⟨_, c', hrun.next hs, ?_, htakes.main.trans (main_go_tx ..),
    htakes.view.trans ?_⟩
  · rw [List.forall_mem_cons]
    exact ⟨nofun, atQueue_map inside_back⟩
  · rfl

/-- While the other thread is in no call, the sending thread can go on until it has
taken the first request. -/
theorem Sound.exists_taken (h : Sound queue maxSpins c) (hqueue : Ordered queue items)
    (hidle : c.queue.threads .main = .idle) (hwaiting : (c.view items).tx = .waiting)
    {req : ClientRequest} {rest : List ClientRequest} (hcq : items c.queue.inner = req :: rest) :
    ∃ more c', Run (Step queue cfg me) c more c' ∧ (∀ event ∈ more, event.AtQueue) ∧
      Takes items c c' req rest := by
  have hat := h.tx
  cases htx : c.queue.threads .tx with
  | idle =>
    have hsystem : c.system.tx = .waiting := by
      unfold Client.view at hwaiting
      dsimp only at hwaiting
      rw [htx] at hwaiting
      exact hwaiting
    have hs : Step queue cfg me c .waitDequeue
        { c with queue := c.queue.go .tx (.wait .waitDequeue Call.wait.enter) } :=
      .waitDequeue hsystem (.taking .waitDequeue htx)
    obtain ⟨more, c', hr, hmore, htakes⟩ := (h.step hqueue hs).exists_taken_of_wait cfg me hqueue
      ((main_go_tx ..).trans hidle)
      (UtilBlockingConcurrentQueue.System.go_self ..) hcq
    refine ⟨_, c', (Run.start.next hs).append hr, ?_,
      htakes.main.trans (main_go_tx ..), htakes.view.trans ?_⟩
    · intro event hevent
      rcases List.mem_append.mp hevent with hevent | hevent
      · exact hmore event hevent
      · rw [List.mem_singleton.mp hevent]
        trivial
    · rfl
  | enqueue reqs =>
    rw [htx] at hat
    exact hat.elim
  | signal p =>
    rw [htx] at hat
    exact hat.elim
  | wait taking p =>
    rw [htx] at hat
    cases hat
    exact h.exists_taken_of_wait cfg me hqueue hidle htx hcq
  | take =>
    obtain ⟨c', hs, htakes⟩ := exists_taken_of_take cfg me hqueue htx hcq
    exact ⟨_, c', Run.start.next hs, List.forall_mem_singleton.mpr nofun, htakes⟩
  | done item =>
    rw [htx] at hat
    obtain ⟨req', rfl⟩ := Option.ne_none_iff_exists'.mp hat
    unfold Client.view at hwaiting
    dsimp only at hwaiting
    rw [htx] at hwaiting
    cases hwaiting

/-- With a request, the sending thread can go on until it is in no call. -/
theorem Sound.exists_tx_idle (h : Sound queue maxSpins c)
    (hwaiting : (c.view items).tx ≠ .waiting) :
    ∃ more c', Run (Step queue cfg me) c more c' ∧ (∀ event ∈ more, event.AtQueue) ∧
      c'.queue.threads .main = c.queue.threads .main ∧ c'.queue.threads .tx = .idle ∧
      c'.view items = c.view items := by
  have hat := h.tx
  by_cases hidle : c.queue.threads .tx = .idle
  · exact ⟨[], c, .start, nofun, rfl, hidle, rfl⟩
  have hsystem := h.waiting hidle
  unfold Client.view at hwaiting
  dsimp only at hwaiting
  cases htx : c.queue.threads .tx with
  | done item =>
    rw [htx] at hat
    obtain ⟨req, rfl⟩ := Option.ne_none_iff_exists'.mp hat
    refine ⟨_, _, Run.start.next (.dequeued (.ret htx)), List.forall_mem_singleton.mpr trivial,
      main_go_tx .., UtilBlockingConcurrentQueue.System.go_self .., ?_⟩
    unfold Client.view
    dsimp only [UtilBlockingConcurrentQueue.System.go]
    rw [htx, Function.update_self]
    rfl
  | _ =>
    rw [htx] at hwaiting
    exact absurd hsystem hwaiting

/-- A step over the list that neither enqueues nor sends is one of the client. -/
theorem exists_op {op : Op} {s : ClientThreads.System}
    (hs : ClientThreads.step cfg me (c.view items) op = some s)
    (henqueue : ∀ body, op ≠ .enqueue body) (htx : op ≠ .tx) :
    ∃ system, ClientThreads.step cfg me c.system op = some system ∧
      Client.view items { c with system := system } = s := by
  obtain ⟨hstep, hcq, hphase, _⟩ := step_frame henqueue htx hs c.system.cq c.system.tx
  refine ⟨{ s with cq := c.system.cq, tx := c.system.tx }, hstep, ?_⟩
  have hlist : s.cq = items c.queue.inner := hcq
  have hseen : s.tx = txSeen c.system.tx (c.queue.threads .tx) := hphase
  unfold Client.view
  dsimp only
  rw [← hlist, ← hseen]

/-- While the other thread is in no call, the sending thread can go on as it does over
the list: at the queue, or behind it by a step of its own. -/
theorem Sound.exists_tx (h : Sound queue maxSpins c) (hqueue : Ordered queue items)
    (hidle : c.queue.threads .main = .idle) {s : ClientThreads.System}
    (hs : ClientThreads.initNetTx me (c.view items) = some s) :
    ∃ more c', Run (Step queue cfg me) c more c' ∧ (∀ event ∈ more, event.AtQueue) ∧
      c'.queue.threads .main = .idle ∧ (c'.view items = s ∨ c'.view items = c.view items ∧
        ∃ system, ClientThreads.step cfg me c'.system .tx = some system ∧
          Client.view items { c' with system := system } = s) := by
  by_cases hwaiting : (c.view items).tx = .waiting
  · unfold ClientThreads.initNetTx at hs
    rw [hwaiting] at hs
    dsimp only at hs
    cases hcq : (c.view items).cq with
    | nil =>
      rw [hcq] at hs
      cases hs
    | cons req rest =>
      rw [hcq] at hs
      cases hs
      obtain ⟨more, c', hr, hmore, htakes⟩ := h.exists_taken cfg me hqueue hidle hwaiting hcq
      exact ⟨more, c', hr, hmore, htakes.main.trans hidle, .inl htakes.view⟩
  · obtain ⟨more, c', hr, hmore, hmain, htx, hview⟩ :=
      Sound.exists_tx_idle cfg me h hwaiting
    refine ⟨more, c', hr, hmore, hmain.trans hidle, .inr ⟨hview, ?_⟩⟩
    rw [← hview] at hs hwaiting
    obtain ⟨hstep, hcq, _⟩ := initNetTx_frame hwaiting hs c'.system.cq
    have hsame : { c'.view items with cq := c'.system.cq } = c'.system := by
      unfold Client.view
      dsimp only
      rw [htx]
      rfl
    rw [hsame] at hstep
    refine ⟨_, hstep, ?_⟩
    have hlist : s.cq = items c'.queue.inner := hcq
    unfold Client.view
    dsimp only
    rw [htx, ← hlist]
    rfl

end Progress

end CapsuleDB.ClientQueue

import CapsuleDB.ClientThreads

/-!
# Which callback a reply reaches

The receiving thread sets the shared counter when it starts. If that happens
before the first number is given out, and if the numbers stay below `2 ^ 63`,
every request has a number of its own, which its replies carry back to its
callback, once. A later start gives numbers out twice.
-/

namespace CapsuleDB.ClientDispatch

open LabelledRun EnclaveMemTable NetMessages ClientThreads
open ServerStages (Config received)

/-- No two requests were sent with one number, no callback was called twice,
and each was called with a reply to its own request. -/
structure Dispatched (cfg : Config) (s : System) : Prop where
  /-- The numbers sent differ. -/
  uids : (s.sent.map fun d => d.request.clientSeqno).Nodup
  /-- The callbacks called differ. -/
  once : (s.invoked.map Invocation.callback).Nodup
  /-- A callback gets a reply to its request. -/
  own : ∀ i ∈ s.invoked, ∃ a ∈ s.answers,
    a.callback = i.callback ∧ i.message = received cfg a.datagram

/-- The counter is set while it is zero and gives out numbers below `2 ^ 63`. -/
def KeepsNumbers (s : System) : Op → Prop
  | .rx => s.rx = .starting → s.uidCnt = 0
  | .tx => ∀ req, s.tx = .dequeued req → s.uidCnt.toNat < 2 ^ 63
  | _ => True

/-- The requests without a number, oldest first. -/
def unnumbered (s : System) : List ClientRequest :=
  match s.tx with
  | .dequeued req => req :: s.cq
  | _ => s.cq

/-- How many callbacks have been stored. -/
def stored (s : System) : ℕ :=
  match s.tx with
  | .numbered req _ => req.callback
  | _ => s.uidCnt.toNat

/-- How many requests have been sent. -/
def transmitted (s : System) : ℕ :=
  match s.tx with
  | .numbered req _ => req.callback
  | .stored req _ => req.callback
  | _ => s.uidCnt.toNat

/-- The request in the hands of the sending thread has the newest number. -/
def Newest (s : System) : TxAt → Prop
  | .numbered req uid => uid.toNat = req.callback ∧ req.callback+1 = s.uidCnt.toNat
  | .stored req uid => uid.toNat = req.callback ∧ req.callback+1 = s.uidCnt.toNat
  | _ => True

/-- The answer in the hands of the receiving thread is at the front of the
buffer, and the entry found is the one of its request. -/
def AtFront (cfg : Config) (s : System) : RxAt → Prop
  | .received a => a ∈ s.answers ∧ received cfg a.datagram <+: s.msgBuff
  | .found uid a =>
    uid.toNat = a.callback ∧ a ∈ s.answers ∧ received cfg a.datagram <+: s.msgBuff
  | _ => True

/-- Callbacks and numbers agree everywhere. -/
structure Numbered (cfg : Config) (s : System) : Prop extends Dispatched cfg s where
  /-- The numbers fit. -/
  bound : s.uidCnt.toNat ≤ 2 ^ 63
  /-- The next number goes to the next callback. -/
  next : ∃ n, (unnumbered s).map ClientRequest.callback = List.range' s.uidCnt.toNat n ∧
    s.enqueued = s.uidCnt.toNat+n
  /-- A callback is stored under its number and not called yet, unless its
  entry is about to be erased. -/
  table : ∀ uid callback, s.callbackMap uid = some callback →
    uid.toNat = callback ∧ callback < stored s ∧
      (s.rx ≠ .called uid → ∀ i ∈ s.invoked, i.callback ≠ callback)
  /-- A request is sent with its number. -/
  sent : ∀ d ∈ s.sent, d.request.clientSeqno.toNat = d.callback ∧ d.callback < transmitted s
  /-- An answer carries the number of its request. -/
  answers : ∀ a ∈ s.answers, ∃ uid rest,
    uid.toNat = a.callback ∧ uid.toNat < 2 ^ 63 ∧ a.datagram = reply uid rest
  /-- Only stored callbacks are called. -/
  invoked : ∀ i ∈ s.invoked, i.callback < stored s
  /-- The sending thread. -/
  tx : Newest s s.tx
  /-- The receiving thread. -/
  rx : AtFront cfg s s.rx

variable {cfg : Config} {me : Endpoint} {s : System}

/-- The start. -/
theorem numbered_start (cfg : Config) (msgBuff : Bytes) :
    Numbered cfg (System.start msgBuff) where
  bound := Nat.zero_le _
  next := ⟨0, rfl, rfl⟩
  table := by
    intro uid callback h
    cases h
  sent := by simp [System.start]
  answers := by simp [System.start]
  invoked := by simp [System.start]
  tx := trivial
  rx := trivial
  uids := List.nodup_nil
  once := List.nodup_nil
  own := by simp [System.start]

/-- Enqueueing gives the request the next callback. -/
theorem Numbered.enqueue (h : Numbered cfg s) (body : Bytes) :
    Numbered cfg { s with cq := s.cq ++ [⟨body, s.enqueued⟩], enqueued := s.enqueued+1 } := by
  obtain ⟨n, hmap, hcount⟩ := h.next
  have hlist : unnumbered { s with
      cq := s.cq ++ [⟨body, s.enqueued⟩], enqueued := s.enqueued+1 } =
      unnumbered s ++ [⟨body, s.enqueued⟩] := by
    unfold unnumbered
    dsimp only
    split <;> rfl
  refine { h with next := ⟨n+1, ?_, ?_⟩ }
  · rw [hlist, List.map_append, hmap, List.range'_1_concat, ← hcount]
    rfl
  · dsimp only
    omega

/-- The invariant with its three counts replaced by their values. -/
theorem Numbered.counted (h : Numbered cfg s) {registered out : ℕ} {waiting : List ClientRequest}
    (hstored : stored s = registered) (hsent : transmitted s = out)
    (hlist : unnumbered s = waiting) :
    (∃ n, waiting.map ClientRequest.callback = List.range' s.uidCnt.toNat n ∧
      s.enqueued = s.uidCnt.toNat+n) ∧
    (∀ uid callback, s.callbackMap uid = some callback →
      uid.toNat = callback ∧ callback < registered ∧
        (s.rx ≠ .called uid → ∀ i ∈ s.invoked, i.callback ≠ callback)) ∧
    (∀ i ∈ s.invoked, i.callback < registered) ∧
    ∀ d ∈ s.sent, d.request.clientSeqno.toNat = d.callback ∧ d.callback < out := by
  subst hstored hsent hlist
  exact ⟨h.next, h.table, h.invoked, h.sent⟩

/-- Taking a request out of the queue. -/
theorem Numbered.dequeue (h : Numbered cfg s) {req : ClientRequest} {cq : List ClientRequest}
    (htx : s.tx = .waiting) (hcq : s.cq = req :: cq) :
    Numbered cfg { s with cq := cq, tx := .dequeued req } := by
  have hstored : stored s = s.uidCnt.toNat := by rw [stored, htx]
  have hsent : transmitted s = s.uidCnt.toNat := by rw [transmitted, htx]
  have hlist : unnumbered s = req :: cq := by rw [unnumbered, htx]; exact hcq
  obtain ⟨hnext, htable, hcalled, hout⟩ := h.counted hstored hsent hlist
  exact { h with next := hnext, table := htable, invoked := hcalled, sent := hout, tx := trivial }

/-- Giving out a number, as long as it fits. -/
theorem Numbered.number (h : Numbered cfg s) {req : ClientRequest} (htx : s.tx = .dequeued req)
    (hfit : s.uidCnt.toNat < 2 ^ 63) :
    Numbered cfg { s with uidCnt := s.uidCnt+1, tx := .numbered req s.uidCnt } := by
  have hstored : stored s = s.uidCnt.toNat := by rw [stored, htx]
  have hsent : transmitted s = s.uidCnt.toNat := by rw [transmitted, htx]
  have hlist : unnumbered s = req :: s.cq := by rw [unnumbered, htx]
  have hsucc : (s.uidCnt+1).toNat = s.uidCnt.toNat+1 := by
    have hone : (1 : UInt64).toNat = 1 := rfl
    rw [UInt64.toNat_add, hone]
    omega
  obtain ⟨⟨n, hmap, hcount⟩, htable, hcalled, hout⟩ := h.counted hstored hsent hlist
  rw [List.map_cons] at hmap
  cases n with
  | zero => cases hmap
  | succ n =>
    rw [List.range'_succ] at hmap
    obtain ⟨hreq, hrest⟩ := List.cons.inj hmap
    rw [← hreq] at htable hcalled hout
    refine { h with
      bound := ?_, next := ⟨n, ?_, ?_⟩, table := htable, invoked := hcalled, sent := hout
      tx := ⟨hreq.symm, ?_⟩ }
    · dsimp only
      omega
    · rw [hsucc]
      exact hrest
    · dsimp only
      omega
    · dsimp only
      omega

/-- Storing a callback under its number. -/
theorem Numbered.store (h : Numbered cfg s) {req : ClientRequest} {uid : UInt64}
    (htx : s.tx = .numbered req uid) :
    Numbered cfg { s with
      tx := .stored req uid
      callbackMap := Function.update s.callbackMap uid (some req.callback) } := by
  have hstored : stored s = req.callback := by rw [stored, htx]
  have hsent : transmitted s = req.callback := by rw [transmitted, htx]
  have hlist : unnumbered s = s.cq := by rw [unnumbered, htx]
  obtain ⟨hnext, htable, hcalled, hout⟩ := h.counted hstored hsent hlist
  have hnew := h.tx
  rw [htx] at hnew
  obtain ⟨huid, hlast⟩ := hnew
  refine { h with next := hnext, table := ?_, invoked := ?_, sent := hout, tx := ⟨huid, hlast⟩ }
  · intro other callback hother
    dsimp only [stored] at hother ⊢
    by_cases heq : other = uid
    · rw [heq, Function.update_self] at hother
      cases hother
      refine ⟨heq ▸ huid, by omega, fun _ i hi => ?_⟩
      have hlt := hcalled i hi
      omega
    · rw [Function.update_of_ne heq] at hother
      obtain ⟨hnum, hlt, hfresh⟩ := htable other callback hother
      exact ⟨hnum, by omega, hfresh⟩
  · intro i hi
    have hlt := hcalled i hi
    dsimp only [stored]
    omega

/-- Sending a request with its number. -/
theorem Numbered.send (h : Numbered cfg s) {req : ClientRequest} {uid : UInt64}
    (htx : s.tx = .stored req uid) :
    Numbered cfg { s with
      tx := .waiting, sent := ⟨req.callback, netRequest me uid req⟩ :: s.sent } := by
  have hstored : stored s = s.uidCnt.toNat := by rw [stored, htx]
  have hsent : transmitted s = req.callback := by rw [transmitted, htx]
  have hlist : unnumbered s = s.cq := by rw [unnumbered, htx]
  obtain ⟨hnext, htable, hcalled, hout⟩ := h.counted hstored hsent hlist
  have hnew := h.tx
  rw [htx] at hnew
  obtain ⟨huid, hlast⟩ := hnew
  refine { h with
    uids := ?_, next := hnext, table := htable, sent := ?_, invoked := hcalled, tx := trivial }
  · rw [List.map_cons, List.nodup_cons]
    refine ⟨fun hmem => ?_, h.uids⟩
    obtain ⟨d, hd, heq⟩ := List.mem_map.mp hmem
    obtain ⟨hnum, hlt⟩ := hout d hd
    rw [heq] at hnum
    have huid' : uid.toNat = d.callback := hnum
    omega
  · intro d hd
    dsimp only [transmitted]
    rcases List.mem_cons.mp hd with rfl | hd
    · exact ⟨huid, by dsimp only; omega⟩
    · obtain ⟨hnum, hlt⟩ := hout d hd
      exact ⟨hnum, by omega⟩

/-- No more requests were sent than numbers were given out. -/
theorem Numbered.transmitted_le (h : Numbered cfg s) : transmitted s ≤ s.uidCnt.toNat := by
  have hnew := h.tx
  unfold transmitted
  split
  · next req uid htx =>
    rw [htx] at hnew
    have hlast := hnew.2
    omega
  · next req uid htx =>
    rw [htx] at hnew
    have hlast := hnew.2
    omega
  · exact le_refl _

/-- The server answers a request under its number. -/
theorem Numbered.serve (h : Numbered cfg s) {d : Sent} (hd : d ∈ s.sent) (rest : Bytes) :
    Numbered cfg { s with
      answers := ⟨d.callback, reply d.request.clientSeqno rest⟩ :: s.answers } := by
  obtain ⟨hnum, hlt⟩ := h.sent d hd
  have hbelow : d.callback < 2 ^ 63 := by
    have hbound := h.bound
    have hle := h.transmitted_le
    omega
  refine { h with own := ?_, answers := ?_, rx := ?_ }
  · intro i hi
    obtain ⟨a, ha, hown⟩ := h.own i hi
    exact ⟨a, List.mem_cons_of_mem _ ha, hown⟩
  · intro a ha
    rcases List.mem_cons.mp ha with rfl | ha
    · exact ⟨d.request.clientSeqno, rest, hnum, by omega, rfl⟩
    · exact h.answers a ha
  · have hrx := h.rx
    dsimp only
    cases hat : s.rx with
    | received a =>
      rw [hat] at hrx
      exact ⟨List.mem_cons_of_mem _ hrx.1, hrx.2⟩
    | found uid a =>
      rw [hat] at hrx
      exact ⟨hrx.1, List.mem_cons_of_mem _ hrx.2.1, hrx.2.2⟩
    | _ => trivial

/-- Receiving an answer puts it at the front of the buffer. -/
theorem Numbered.receive (h : Numbered cfg s) {a : Answer} (ha : a ∈ s.answers)
    (hrx : s.rx = .listening) :
    Numbered cfg { s with
      rx := .received a
      msgBuff := received cfg a.datagram ++
        s.msgBuff.drop (received cfg a.datagram).length } := by
  refine { h with table := ?_, rx := ⟨ha, List.prefix_append _ _⟩ }
  intro uid callback hentry
  obtain ⟨hnum, hlt, hfresh⟩ := h.table uid callback hentry
  exact ⟨hnum, hlt, fun _ => hfresh (by rw [hrx]; exact RxAt.noConfusion)⟩

/-- A move of the receiving thread that is not behind a call. -/
theorem Numbered.moveRx (h : Numbered cfg s) (hcalled : ∀ uid, s.rx ≠ .called uid) (rx : RxAt)
    (hrx : AtFront cfg s rx) : Numbered cfg { s with rx := rx } := by
  refine { h with table := ?_, rx := hrx }
  intro uid callback hentry
  obtain ⟨hnum, hlt, hfresh⟩ := h.table uid callback hentry
  exact ⟨hnum, hlt, fun _ => hfresh (hcalled uid)⟩

/-- The number read off the buffer is the one of the answered request. -/
theorem Numbered.uidOf_msgBuff (h : Numbered cfg s) (hcfg : cfg.Fits) {a : Answer}
    (ha : a ∈ s.answers) (hfront : received cfg a.datagram <+: s.msgBuff) :
    (uidOf s.msgBuff).toNat = a.callback := by
  obtain ⟨uid, rest, hnum, hlt, hdatagram⟩ := h.answers a ha
  obtain ⟨rest', hrest⟩ := received_reply hcfg hlt rest
  obtain ⟨behind, hbuff⟩ := hfront
  rw [← hbuff, hdatagram, hrest, uidOf_reply hlt, hnum]

/-- Calling the callback found. -/
theorem Numbered.call (h : Numbered cfg s) {uid : UInt64} {a : Answer} {callback : ℕ}
    (hrx : s.rx = .found uid a) (hentry : s.callbackMap uid = some callback) :
    Numbered cfg { s with
      rx := .called uid
      invoked := ⟨callback, s.msgBuff.take (received cfg a.datagram).length⟩ :: s.invoked } := by
  have hat := h.rx
  rw [hrx] at hat
  obtain ⟨huid, ha, hfront⟩ := hat
  obtain ⟨hnum, hlt, hfresh⟩ := h.table uid callback hentry
  have hnew := hfresh (by rw [hrx]; exact RxAt.noConfusion)
  refine { h with once := ?_, own := ?_, table := ?_, invoked := ?_, rx := trivial }
  · rw [List.map_cons, List.nodup_cons]
    refine ⟨fun hmem => ?_, h.once⟩
    obtain ⟨i, hi, heq⟩ := List.mem_map.mp hmem
    exact hnew i hi heq
  · intro i hi
    rcases List.mem_cons.mp hi with rfl | hi
    · exact ⟨a, ha, by dsimp only; omega, (List.prefix_iff_eq_take.mp hfront).symm⟩
    · exact h.own i hi
  · intro other callback' hother
    obtain ⟨hnum', hlt', hfresh'⟩ := h.table other callback' hother
    refine ⟨hnum', hlt', fun hne i hi => ?_⟩
    rcases List.mem_cons.mp hi with rfl | hi
    · -- one callback has one number, and this number's entry is the one called
      intro heq
      have hsame : other = uid := UInt64.toNat_inj.mp (by dsimp only at heq; omega)
      exact hne (by rw [hsame])
    · exact hfresh' (by rw [hrx]; exact RxAt.noConfusion) i hi
  · intro i hi
    rcases List.mem_cons.mp hi with rfl | hi
    · exact hlt
    · exact h.invoked i hi

/-- Erasing the entry of the callback called. -/
theorem Numbered.erase (h : Numbered cfg s) {uid : UInt64} (hrx : s.rx = .called uid) :
    Numbered cfg { s with
      rx := .listening, callbackMap := Function.update s.callbackMap uid none } := by
  refine { h with table := ?_, rx := trivial }
  intro other callback hother
  dsimp only at hother
  by_cases heq : other = uid
  · rw [heq, Function.update_self] at hother
    cases hother
  · rw [Function.update_of_ne heq] at hother
    obtain ⟨hnum, hlt, hfresh⟩ := h.table other callback hother
    refine ⟨hnum, hlt, fun _ => hfresh ?_⟩
    rw [hrx]
    intro hcalled
    exact heq (RxAt.called.inj hcalled).symm

/-- A step of the receiving thread. -/
theorem Numbered.initNetRx (h : Numbered cfg s) (hcfg : cfg.Fits)
    (hkeep : s.rx = .starting → s.uidCnt = 0) {t : System}
    (ht : initNetRx cfg s = some t) : Numbered cfg t := by
  unfold ClientThreads.initNetRx at ht
  cases hrx : s.rx with
  | starting =>
    rw [hrx] at ht
    cases ht
    have hmove := h.moveRx (by rw [hrx]; exact fun _ => RxAt.noConfusion) .listening trivial
    rw [hkeep hrx] at hmove
    exact hmove
  | listening =>
    rw [hrx] at ht
    cases ht
  | received a =>
    have hmove := h.moveRx (by rw [hrx]; exact fun _ => RxAt.noConfusion)
    have hat := h.rx
    rw [hrx] at ht hat
    dsimp only at ht
    split at ht
    · cases ht
      exact hmove .listening trivial
    · cases ht
      exact hmove (.found _ a) ⟨h.uidOf_msgBuff hcfg hat.1 hat.2, hat⟩
  | found uid a =>
    rw [hrx] at ht
    dsimp only at ht
    split at ht
    · cases ht
    · next callback hentry =>
      cases ht
      exact h.call hrx hentry
  | called uid =>
    rw [hrx] at ht
    cases ht
    exact h.erase hrx

/-- A step of the sending thread. -/
theorem Numbered.initNetTx (h : Numbered cfg s)
    (hkeep : ∀ req, s.tx = .dequeued req → s.uidCnt.toNat < 2 ^ 63) {t : System}
    (ht : initNetTx me s = some t) : Numbered cfg t := by
  unfold ClientThreads.initNetTx at ht
  cases htx : s.tx with
  | waiting =>
    rw [htx] at ht
    dsimp only at ht
    split at ht
    · cases ht
    · next req cq hcq =>
      cases ht
      exact h.dequeue htx hcq
  | dequeued req =>
    rw [htx] at ht
    cases ht
    exact h.number htx (hkeep req htx)
  | numbered req uid =>
    rw [htx] at ht
    cases ht
    exact h.store htx
  | stored req uid =>
    rw [htx] at ht
    cases ht
    exact h.send htx

/-- A step that keeps the numbers apart. -/
theorem Numbered.step (h : Numbered cfg s) (hcfg : cfg.Fits) {op : Op}
    (hkeep : KeepsNumbers s op) {t : System} (hstep : Step cfg me s op t) : Numbered cfg t := by
  unfold Step at hstep
  cases op with
  | enqueue body =>
    cases hstep
    exact h.enqueue body
  | rx => exact h.initNetRx hcfg hkeep hstep
  | receive a =>
    unfold ClientThreads.step at hstep
    dsimp only at hstep
    split_ifs at hstep with hposs
    cases hstep
    exact h.receive hposs.1 hposs.2
  | tx => exact h.initNetTx hkeep hstep
  | serve d rest =>
    unfold ClientThreads.step at hstep
    dsimp only at hstep
    split_ifs at hstep with hposs
    cases hstep
    exact h.serve hposs rest

/-- In a run that sets the counter before it gives out a number, and never
reaches `2 ^ 63` numbers, every callback is called at most once and with a
reply to its own request, and no number is sent twice. -/
theorem callbacks_get_own_replies (hcfg : cfg.Fits) {msgBuff : Bytes} {history : List Op}
    (hr : Run (Step cfg me) (System.start msgBuff) history s)
    (hkeep : EveryStep (Step cfg me) (System.start msgBuff) KeepsNumbers history) :
    Dispatched cfg s := by
  have hnumbered : Numbered cfg s := by
    refine Run.invariant_of_everyStep (I := fun _ s => Numbered cfg s)
      (numbered_start cfg msgBuff) ?_ hr hkeep
    intro history s op t _ h hlast hstep
    exact h.step hcfg hlast hstep
  exact hnumbered.toDispatched

/-- A test for `KeepsNumbers`. -/
def keepsNumbersCheck (s : System) : Op → Bool
  | .rx => decide (s.rx = .starting → s.uidCnt = 0)
  | .tx =>
    match s.tx with
    | .dequeued _ => decide (s.uidCnt.toNat < 2 ^ 63)
    | _ => true
  | _ => true

/-- The test is sound. -/
theorem keepsNumbers_of_check (s : System) (op : Op) (h : keepsNumbersCheck s op = true) :
    KeepsNumbers s op := by
  cases op with
  | rx =>
    have hzero : s.rx = .starting → s.uidCnt = 0 := of_decide_eq_true h
    exact hzero
  | tx =>
    intro req htx
    unfold keepsNumbersCheck at h
    rw [htx] at h
    exact of_decide_eq_true h
  | _ => trivial

/-- A client that listens on port 2000. -/
def somewhere : Endpoint := ⟨List.replicate 16 0, 2000⟩

/-- The receiving thread starts first; two requests are sent, the answer to
the second one arrives twice. -/
def startFirstOps : List Op :=
  let second : ClientRequest := ⟨[2], 1⟩
  let a : Answer := ⟨1, reply 1 [20]⟩
  [.rx, .enqueue [1], .enqueue [2], .tx, .tx, .tx, .tx, .tx, .tx, .tx, .tx,
    .serve ⟨1, netRequest somewhere 1 second⟩ [20], .receive a, .rx, .rx, .rx, .receive a, .rx]

/-- The second request's callback is called, and only once. -/
theorem callbacks_get_own_replies_duplicate :
    ∃ history s, exec (perform ServerStages.hostConfig somewhere) (System.start []) startFirstOps =
        some (history, s) ∧
      s.invoked = [⟨1, reply 1 [20]⟩] ∧ Dispatched ServerStages.hostConfig s := by
  have hmap : (exec (perform ServerStages.hostConfig somewhere) (System.start [])
      startFirstOps).map (fun r => r.2.invoked) = some [⟨1, reply 1 [20]⟩] := by decide +kernel
  obtain ⟨⟨history, s⟩, hexec, hinvoked⟩ := Option.map_eq_some_iff.mp hmap
  have hkeep := everyStep_of_exec step_of_perform (step_deterministic _ _)
    keepsNumbers_of_check .start everyStep_nil hexec (by decide +kernel)
  rw [List.append_nil] at hkeep
  exact ⟨history, s, hexec, hinvoked, callbacks_get_own_replies ServerStages.hostConfig_fits
    (run_of_exec step_of_perform hexec) hkeep⟩

/-- A request is sent before the receiving thread starts, another one after it. -/
def startLateOps : List Op :=
  let first : ClientRequest := ⟨[1], 0⟩
  let a : Answer := ⟨0, reply 0 [10]⟩
  [.enqueue [1], .enqueue [2], .tx, .tx, .tx, .tx, .rx, .tx, .tx, .tx, .tx,
    .serve ⟨0, netRequest somewhere 0 first⟩ [10], .receive a, .rx, .rx]

/-- Replies do not always reach their own callback: a late start gives the
number 0 out again, and the second request's callback is called with the reply
to the first one. -/
theorem late_start_misdirects :
    ¬ ∀ (cfg : Config) (me : Endpoint) (msgBuff : Bytes) (history : List Op) (s : System),
      cfg.Fits → Run (Step cfg me) (System.start msgBuff) history s → Dispatched cfg s := by
  intro hall
  have hmap : (exec (perform ServerStages.hostConfig somewhere) (System.start [])
      startLateOps).map (fun r => (r.2.invoked.map Invocation.callback,
        r.2.answers.map Answer.callback)) = some ([1], [0]) := by decide +kernel
  obtain ⟨⟨history, s⟩, hexec, heq⟩ := Option.map_eq_some_iff.mp hmap
  have hown := (hall _ _ _ history s ServerStages.hostConfig_fits
    (run_of_exec step_of_perform hexec)).own
  obtain ⟨hinvoked, hanswers⟩ := Prod.mk.inj heq
  obtain ⟨i, hi, hcallback⟩ := List.mem_map.mp (hinvoked ▸ List.mem_singleton_self 1)
  obtain ⟨a, ha, hsame, _⟩ := hown i hi
  have hzero : a.callback ∈ [0] := hanswers ▸ List.mem_map_of_mem ha
  rw [hsame, hcallback] at hzero
  exact absurd hzero (by decide)

end CapsuleDB.ClientDispatch

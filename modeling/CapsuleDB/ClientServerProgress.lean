import CapsuleDB.ClientServer

/-!
# No callback is lost

In proper steps the client keeps the entry of every request until its callback is
called, and the two programs can go on until every callback is called. A callback is
called with the reply at one place in the order of the requests at the server,
and this order does not contradict the order in which commands were enqueued
after callbacks were called.
-/

namespace CapsuleDB.ClientServer

open LabelledRun EnclaveMemTable NetMessages ServerStages ServerReference ServerQueues
open ClientThreads ClientDispatch ClientDatagrams

/-- What the client still has of its requests. -/
structure Kept (s : System) : Prop where
  /-- The requests counted as sent were sent. -/
  sent : ∀ c < transmitted s, ∃ d ∈ s.sent, d.callback = c
  /-- A callback counted as stored was called or is in the table. -/
  table : ∀ c < stored s, (∃ i ∈ s.invoked, i.callback = c) ∨
    s.callbackMap (UInt64.ofNat c) = some c
  /-- The entry that is about to be erased is one of a callback that was called. -/
  called : ∀ uid, s.rx = .called uid → ∃ i ∈ s.invoked, i.callback = uid.toNat
  /-- The iterator of the receiving thread is valid. -/
  found : ∀ uid a, s.rx = .found uid a → ∃ callback, s.callbackMap uid = some callback

section Clients

variable {cfg : Config} {me : Endpoint} {s t : System}

/-- Nothing is missing at the start. -/
theorem kept_start (msgBuff : Bytes) : Kept (System.start msgBuff) where
  sent := fun c hc => absurd hc (Nat.not_lt_zero c)
  table := fun c hc => absurd hc (Nat.not_lt_zero c)
  called := fun _ h => RxAt.noConfusion h
  found := fun _ _ h => RxAt.noConfusion h

/-- The request without a number has the next callback. -/
theorem callback_eq_of_dequeued (h : Numbered cfg s) {req : ClientRequest}
    (htx : s.tx = .dequeued req) : req.callback = s.uidCnt.toNat ∧ s.uidCnt.toNat < s.enqueued := by
  obtain ⟨n, hmap, hcount⟩ := h.next
  rw [unnumbered, htx] at hmap
  cases n with
  | zero => cases hmap
  | succ n =>
    rw [List.range'_succ] at hmap
    exact ⟨(List.cons.inj hmap).1, by omega⟩

/-- A step of the receiving thread keeps the requests. -/
theorem Kept.initNetRx (hk : Kept s) (h : Numbered cfg s) (hkeep : s.rx = .starting → s.uidCnt = 0)
    (ht : ClientThreads.initNetRx cfg s = some t) : Kept t := by
  unfold ClientThreads.initNetRx at ht
  cases hrx : s.rx with
  | starting =>
    rw [hrx] at ht
    cases ht
    have hzero := hkeep hrx
    refine { sent := ?_, table := ?_, called := fun _ h => RxAt.noConfusion h
             found := fun _ _ h => RxAt.noConfusion h }
    · intro c hc
      unfold transmitted at hc
      rw [← hzero] at hc
      exact hk.sent c hc
    · intro c hc
      unfold stored at hc
      rw [← hzero] at hc
      exact hk.table c hc
  | listening =>
    rw [hrx] at ht
    cases ht
  | received a =>
    rw [hrx] at ht
    dsimp only at ht
    split at ht
    · cases ht
      exact { hk with called := fun _ h => RxAt.noConfusion h
                      found := fun _ _ h => RxAt.noConfusion h }
    · next callback hentry =>
      cases ht
      refine { hk with called := fun _ h => RxAt.noConfusion h, found := ?_ }
      intro uid b hfound
      cases hfound
      exact ⟨callback, hentry⟩
  | found uid a =>
    rw [hrx] at ht
    dsimp only at ht
    split at ht
    · cases ht
    · next callback hentry =>
      cases ht
      obtain ⟨hnum, _⟩ := h.table uid callback hentry
      refine { hk with table := ?_, called := ?_, found := fun _ _ h => RxAt.noConfusion h }
      · intro c hc
        rcases hk.table c hc with ⟨i, hi, hc⟩ | hc
        · exact .inl ⟨i, List.mem_cons_of_mem _ hi, hc⟩
        · exact .inr hc
      · intro other hcalled
        cases hcalled
        exact ⟨_, List.mem_cons_self .., hnum.symm⟩
  | called uid =>
    rw [hrx] at ht
    cases ht
    refine { hk with
      table := ?_, called := fun _ h => RxAt.noConfusion h
      found := fun _ _ h => RxAt.noConfusion h }
    intro c hc
    rcases hk.table c hc with hc | hentry
    · exact .inl hc
    · by_cases hsame : UInt64.ofNat c = uid
      · -- the entry erased is one of a callback that was called
        obtain ⟨i, hi, hcallback⟩ := hk.called uid hrx
        obtain ⟨hnum, _⟩ := h.table _ c hentry
        exact .inl ⟨i, hi, by rw [hcallback, ← hsame, hnum]⟩
      · exact .inr ((Function.update_of_ne hsame _ _).trans hentry)

/-- A step of the sending thread keeps the requests. -/
theorem Kept.initNetTx (hk : Kept s) (h : Numbered cfg s)
    (ht : ClientThreads.initNetTx me s = some t) : Kept t := by
  unfold ClientThreads.initNetTx at ht
  have hstored := hk.table
  have hsent := hk.sent
  have hnewest := h.tx
  unfold stored at hstored
  unfold transmitted at hsent
  cases htx : s.tx with
  | waiting =>
    rw [htx] at ht hstored hsent
    dsimp only at ht
    split at ht
    · cases ht
    · cases ht
      exact { hk with sent := hsent, table := hstored }
  | dequeued req =>
    rw [htx] at ht hstored hsent
    cases ht
    obtain ⟨hcallback, _⟩ := callback_eq_of_dequeued h htx
    exact { hk with
      sent := fun c hc => hsent c (hcallback ▸ hc)
      table := fun c hc => hstored c (hcallback ▸ hc) }
  | numbered req uid =>
    rw [htx] at ht hstored hsent hnewest
    cases ht
    obtain ⟨huid, hlast⟩ := hnewest
    refine { hk with sent := hsent, table := ?_, found := ?_ }
    · intro c hc
      by_cases hsame : c = req.callback
      · refine .inr ?_
        have hkey : UInt64.ofNat c = uid := by
          rw [hsame, ← huid, UInt64.ofNat_toNat]
        rw [hkey, hsame]
        exact Function.update_self ..
      · have hlt : c < req.callback := by
          have hc : c < s.uidCnt.toNat := hc
          omega
        rcases hstored c hlt with hcalled | hentry
        · exact .inl hcalled
        · refine .inr ?_
          have hkey : UInt64.ofNat c ≠ uid := by
            intro heq
            obtain ⟨hnum, _⟩ := h.table _ c hentry
            rw [heq, huid] at hnum
            exact hsame hnum.symm
          exact (Function.update_of_ne hkey _ _).trans hentry
    · intro other a hfound
      obtain ⟨callback, hentry⟩ := hk.found other a hfound
      by_cases hsame : other = uid
      · exact ⟨req.callback, by rw [hsame]; exact Function.update_self ..⟩
      · exact ⟨callback, (Function.update_of_ne hsame _ _).trans hentry⟩
  | stored req uid =>
    rw [htx] at ht hstored hsent hnewest
    cases ht
    obtain ⟨huid, hlast⟩ := hnewest
    refine { hk with sent := ?_, table := hstored }
    intro c hc
    have hc : c < s.uidCnt.toNat := hc
    by_cases hsame : c = req.callback
    · exact ⟨_, List.mem_cons_self .., hsame.symm⟩
    · obtain ⟨d, hd, hcallback⟩ := hsent c (show c < req.callback by omega)
      exact ⟨d, List.mem_cons_of_mem _ hd, hcallback⟩

/-- A step of the client keeps the requests. -/
theorem Kept.step (hk : Kept s) (h : Numbered cfg s) {op : Op}
    (ht : ClientThreads.step cfg me s op = some t) (hkeep : KeepsNumbers s op) : Kept t := by
  cases op with
  | enqueue body =>
    cases ht
    exact { hk with }
  | rx => exact hk.initNetRx h hkeep ht
  | receive a =>
    unfold ClientThreads.step at ht
    dsimp only at ht
    split_ifs at ht
    cases ht
    exact { hk with called := fun _ h => RxAt.noConfusion h
                    found := fun _ _ h => RxAt.noConfusion h }
  | tx => exact hk.initNetTx h ht
  | serve d rest =>
    unfold ClientThreads.step at ht
    dsimp only at ht
    split_ifs at ht
    cases ht
    exact { hk with }

end Clients

section Progress

variable {cfg : Config} {me : Endpoint} {sema : Bool} {nil : RequestContext}

/-- What holds after every run, and that nothing is lost. -/
structure Live (cfg : Config) (me : Endpoint) (sema : Bool) (nil : RequestContext) (w : World) :
    Prop extends Consistent cfg me sema nil w where
  /-- The client keeps its requests. -/
  kept : Kept w.client

/-- The start. -/
theorem live_start (cfg : Config) (me : Endpoint) (sema : Bool) (nil : RequestContext)
    (msgBuff : Bytes) : Live cfg me sema nil (World.start cfg sema nil msgBuff) :=
  { consistent_start cfg me sema nil msgBuff with kept := kept_start msgBuff }

/-- A proper step. -/
theorem Live.step {w w' : World} {event : Event} (h : Live cfg me sema nil w)
    (haddr : me.addr.length = 16) (hsmall : cfg.keyMaxsize.toNat+cfg.valMaxsize.toNat+100 < 2 ^ 31)
    (hs : ProperStep cfg me w event w') : Live cfg me sema nil w' := by
  have hconsistent := h.toConsistent.step haddr hsmall hs.1 hs.2
  refine { hconsistent with kept := ?_ }
  obtain ⟨hproper, hs⟩ := hs
  cases hs with
  | enqueue hclient => exact h.kept.step h.numbered hclient trivial
  | rx hclient => exact h.kept.step h.numbered hclient hproper
  | receive hclient => exact h.kept.step h.numbered hclient trivial
  | tx hclient => exact h.kept.step h.numbered hclient hproper
  | deliver _ _ _ => exact h.kept
  | server _ => exact h.kept
  | answer _ _ _ _ => exact { h.kept with }

/-- Proper steps. -/
theorem Live.run {w w' : World} {history : List Event} (h : Live cfg me sema nil w)
    (haddr : me.addr.length = 16) (hsmall : cfg.keyMaxsize.toNat+cfg.valMaxsize.toNat+100 < 2 ^ 31)
    (hr : Run (ProperStep cfg me) w history w') : Live cfg me sema nil w' := by
  refine Run.invariant (I := fun _ w => Live cfg me sema nil w) h ?_ hr
  intro _ w event w' _ h hs
  exact h.step haddr hsmall hs

/-- Proper steps that enqueue nothing lead from one world to the other. -/
structure Onward (cfg : Config) (me : Endpoint) (w w' : World) : Prop where
  /-- The steps. -/
  run : ∃ more, Run (ProperStep cfg me) w more w'
  /-- The commands. -/
  commands : w'.commands = w.commands
  /-- Callbacks that were called. -/
  invoked : ∀ i ∈ w.client.invoked, i ∈ w'.client.invoked

/-- No steps. -/
theorem Onward.refl (w : World) : Onward cfg me w w := ⟨⟨[], .start⟩, rfl, fun _ h => h⟩

/-- Some steps and then some more. -/
theorem Onward.trans {w w' w'' : World} (h : Onward cfg me w w') (h' : Onward cfg me w' w'') :
    Onward cfg me w w'' := by
  obtain ⟨first, hfirst⟩ := h.run
  obtain ⟨second, hsecond⟩ := h'.run
  exact ⟨⟨_, hfirst.append hsecond⟩, h'.commands.trans h.commands,
    fun i hi => h'.invoked i (h.invoked i hi)⟩

/-- A step of the receiving thread. -/
theorem Onward.rx {w : World} {client : System} (hkeep : KeepsNumbers w.client .rx)
    (hs : ClientThreads.step cfg me w.client .rx = some client)
    (hinvoked : ∀ i ∈ w.client.invoked, i ∈ client.invoked) :
    Onward cfg me w { w with client := client } :=
  ⟨⟨_, next_rx .start hs hkeep⟩, rfl, hinvoked⟩

/-- The receiving thread waits for a datagram, and the sending thread is where
it was. -/
structure Listens (w w' : World) : Prop where
  /-- The receiving thread. -/
  rx : w'.client.rx = .listening
  /-- The sending thread. -/
  tx : w'.client.tx = w.client.tx
  /-- The queue of the sending thread. -/
  cq : w'.client.cq = w.client.cq

/-- Behind a call, the receiving thread erases the entry and listens again. -/
theorem exists_listening_of_called {w : World} {uid : UInt64} (hrx : w.client.rx = .called uid) :
    ∃ w', Onward cfg me w w' ∧ Listens w w' ∧ w'.client.invoked = w.client.invoked := by
  have hs : ClientThreads.step cfg me w.client .rx = some { w.client with
      rx := .listening, callbackMap := Function.update w.client.callbackMap uid none } := by
    show ClientThreads.initNetRx cfg w.client = _
    rw [ClientThreads.initNetRx, hrx]
  have hkeep : KeepsNumbers w.client .rx := fun h => RxAt.noConfusion (hrx.symm.trans h)
  exact ⟨_, .rx hkeep hs fun _ hi => hi, ⟨rfl, rfl, rfl⟩, rfl⟩

/-- At an entry, the receiving thread calls the callback and listens again. -/
theorem Live.exists_listening_of_found {w : World} (h : Live cfg me sema nil w) {uid : UInt64}
    {a : Answer} (hrx : w.client.rx = .found uid a) :
    ∃ w', Onward cfg me w w' ∧ Listens w w' ∧
      ∃ i ∈ w'.client.invoked, i.callback = uid.toNat := by
  obtain ⟨callback, hentry⟩ := h.kept.found uid a hrx
  obtain ⟨hnum, _⟩ := h.numbered.table uid callback hentry
  have hkeep : KeepsNumbers w.client .rx := fun h => RxAt.noConfusion (hrx.symm.trans h)
  obtain ⟨client, hs, hcalled, htx, hcq, i, hcons, hi⟩ :
      ∃ client, ClientThreads.step cfg me w.client .rx = some client ∧ client.rx = .called uid ∧
        client.tx = w.client.tx ∧ client.cq = w.client.cq ∧
        ∃ i, client.invoked = i :: w.client.invoked ∧ i.callback = uid.toNat := by
    refine ⟨{ w.client with
      rx := .called uid
      invoked := ⟨callback, w.client.msgBuff.take (received cfg a.datagram).length⟩ ::
        w.client.invoked }, ?_, rfl, rfl, rfl, _, rfl, hnum.symm⟩
    show ClientThreads.initNetRx cfg w.client = _
    rw [ClientThreads.initNetRx, hrx]
    dsimp only
    rw [hentry]
  have hgo : Onward cfg me w { w with client := client } :=
    .rx hkeep hs fun j hj => hcons ▸ List.mem_cons_of_mem _ hj
  obtain ⟨w', honward, hlistens, hinvoked⟩ := exists_listening_of_called
      (w := { w with client := client }) hcalled
  refine ⟨w', hgo.trans honward,
    ⟨hlistens.rx, hlistens.tx.trans htx, hlistens.cq.trans hcq⟩, i, ?_, hi⟩
  rw [hinvoked, hcons]
  exact List.mem_cons_self ..

/-- With a datagram, the receiving thread listens again, and has called the
callback if its entry was there. -/
theorem Live.exists_listening_of_received {w : World} (h : Live cfg me sema nil w)
    (haddr : me.addr.length = 16) (hsmall : cfg.keyMaxsize.toNat+cfg.valMaxsize.toNat+100 < 2 ^ 31)
    {a : Answer} (hrx : w.client.rx = .received a) :
    ∃ w', Onward cfg me w w' ∧ Listens w w' ∧
      (w.client.callbackMap (UInt64.ofNat a.callback) = some a.callback →
        ∃ i ∈ w'.client.invoked, i.callback = a.callback) := by
  have hcfg : cfg.Fits := by unfold Config.Fits; omega
  have hat := h.numbered.rx
  rw [hrx] at hat
  have huid := h.numbered.uidOf_msgBuff hcfg hat.1 hat.2
  have hkey : UInt64.ofNat a.callback = uidOf w.client.msgBuff := by
    rw [← huid, UInt64.ofNat_toNat]
  have hkeep : KeepsNumbers w.client .rx := fun h => RxAt.noConfusion (hrx.symm.trans h)
  cases hentry : w.client.callbackMap (uidOf w.client.msgBuff) with
  | none =>
    have hs : ClientThreads.step cfg me w.client .rx =
        some { w.client with rx := .listening } := by
      show ClientThreads.initNetRx cfg w.client = _
      rw [ClientThreads.initNetRx, hrx]
      dsimp only
      rw [hentry]
    refine ⟨_, .rx hkeep hs fun _ hi => hi, ⟨rfl, rfl, rfl⟩, fun hin => ?_⟩
    rw [hkey, hentry] at hin
    cases hin
  | some callback =>
    have hs : ClientThreads.step cfg me w.client .rx =
        some { w.client with rx := .found (uidOf w.client.msgBuff) a } := by
      show ClientThreads.initNetRx cfg w.client = _
      rw [ClientThreads.initNetRx, hrx]
      dsimp only
      rw [hentry]
    have hlive := h.run haddr hsmall (next_rx .start hs hkeep)
    obtain ⟨w', honward, hlistens, hcalled⟩ := hlive.exists_listening_of_found rfl
    rw [huid] at hcalled
    exact ⟨w', (Onward.rx hkeep hs fun _ hi => hi).trans honward,
      ⟨hlistens.rx, hlistens.tx, hlistens.cq⟩, fun _ => hcalled⟩

/-- The receiving thread can always go on until it listens. -/
theorem Live.exists_listening {w : World} (h : Live cfg me sema nil w)
    (haddr : me.addr.length = 16) (hsmall : cfg.keyMaxsize.toNat+cfg.valMaxsize.toNat+100 < 2 ^ 31)
    (hstarted : w.client.rx ≠ .starting) : ∃ w', Onward cfg me w w' ∧ Listens w w' := by
  cases hrx : w.client.rx with
  | starting => exact absurd hrx hstarted
  | listening => exact ⟨w, .refl w, hrx, rfl, rfl⟩
  | received a =>
    obtain ⟨w', honward, hlistens, _⟩ := h.exists_listening_of_received haddr hsmall hrx
    exact ⟨w', honward, hlistens⟩
  | found uid a =>
    obtain ⟨w', honward, hlistens, _⟩ := h.exists_listening_of_found hrx
    exact ⟨w', honward, hlistens⟩
  | called uid =>
    obtain ⟨w', honward, hlistens, _⟩ := exists_listening_of_called hrx
    exact ⟨w', honward, hlistens⟩

/-- The steps the sending thread has left. -/
def toSend (s : System) : ℕ :=
  4*s.cq.length+match s.tx with
    | .waiting => 0
    | .dequeued _ => 3
    | .numbered _ _ => 2
    | .stored _ _ => 1

/-- The sending thread goes on while it has something to send. -/
theorem exists_initNetTx (me : Endpoint) {s : System} (h : toSend s ≠ 0) :
    ∃ t, ClientThreads.initNetTx me s = some t ∧ toSend t+1 = toSend s ∧ t.rx = s.rx ∧
      t.invoked = s.invoked ∧ t.enqueued = s.enqueued := by
  unfold ClientThreads.initNetTx
  unfold toSend at h ⊢
  cases htx : s.tx with
  | waiting =>
    rw [htx] at h
    cases hcq : s.cq with
    | nil =>
      rw [hcq] at h
      exact absurd rfl h
    | cons req cq => exact ⟨_, rfl, by rw [List.length_cons]; dsimp only; omega, rfl, rfl, rfl⟩
  | dequeued req => exact ⟨_, rfl, rfl, rfl, rfl, rfl⟩
  | numbered req uid => exact ⟨_, rfl, rfl, rfl, rfl, rfl⟩
  | stored req uid => exact ⟨_, rfl, rfl, rfl, rfl, rfl⟩

/-- The client has nothing to send and waits for a datagram. -/
structure Idle (s : System) : Prop where
  /-- The receiving thread. -/
  rx : s.rx = .listening
  /-- The sending thread. -/
  tx : s.tx = .waiting
  /-- The queue of the sending thread. -/
  cq : s.cq = []

/-- A sending thread with no step left waits. -/
theorem idle_of_toSend {s : System} (hrx : s.rx = .listening) (h : toSend s = 0) : Idle s := by
  unfold toSend at h
  have hlength : s.cq.length = 0 := by omega
  have hphase : s.tx = .waiting := by
    cases htx : s.tx with
    | waiting => rfl
    | _ =>
      rw [htx] at h
      dsimp only at h
      omega
  exact ⟨hrx, hphase, List.length_eq_zero_iff.mp hlength⟩

/-- The sending thread can always go on until all requests are sent. -/
theorem Live.exists_idle {w : World} (h : Live cfg me sema nil w)
    (haddr : me.addr.length = 16) (hsmall : cfg.keyMaxsize.toNat+cfg.valMaxsize.toNat+100 < 2 ^ 31)
    (hrx : w.client.rx = .listening) (hcount : w.commands.length ≤ 2 ^ 63) :
    ∃ w', Onward cfg me w w' ∧ Idle w'.client := by
  induction hleft : toSend w.client generalizing w with
  | zero => exact ⟨w, .refl w, idle_of_toSend hrx hleft⟩
  | succ k ih =>
    obtain ⟨client, hs, hless, hrx', hinvoked, _⟩ :=
      exists_initNetTx me (s := w.client) (by omega)
    have hkeep : KeepsNumbers w.client .tx := by
      intro req htx
      obtain ⟨_, hlt⟩ := callback_eq_of_dequeued h.numbered htx
      rw [h.tracked.count] at hlt
      omega
    have hr : Run (ProperStep cfg me) w [.tx] { w with client := client } :=
      next_tx .start hs hkeep
    obtain ⟨w', honward, hidle⟩ := ih (h.run haddr hsmall hr) (hrx'.trans hrx) hcount
      (show toSend client = k by omega)
    have hgo : Onward cfg me w { w with client := client } :=
      ⟨⟨_, hr⟩, rfl, fun i hi => hinvoked ▸ hi⟩
    exact ⟨w', hgo.trans honward, hidle⟩

/-- In an idle client all requests were sent. -/
theorem Idle.counts {s : System} (hidle : Idle s) (h : Numbered cfg s) :
    transmitted s = s.enqueued ∧ stored s = s.enqueued := by
  obtain ⟨n, hmap, hcount⟩ := h.next
  rw [unnumbered, hidle.tx] at hmap
  dsimp only at hmap
  rw [hidle.cq] at hmap
  cases n with
  | zero =>
    rw [transmitted, stored, hidle.tx]
    exact ⟨hcount.symm, hcount.symm⟩
  | succ n => cases hmap

/-- A callback of an idle client can be called: the network delivers its request
again, the server serves it, and the network delivers the reply. -/
theorem Live.exists_called {w : World} (h : Live cfg me sema nil w)
    (haddr : me.addr.length = 16) (hsmall : cfg.keyMaxsize.toNat+cfg.valMaxsize.toNat+100 < 2 ^ 31)
    (hidle : Idle w.client) {c : ℕ} (hc : c < w.commands.length) :
    ∃ w', Onward cfg me w w' ∧ Idle w'.client ∧ ∃ i ∈ w'.client.invoked, i.callback = c := by
  have hcfg : cfg.Fits := by unfold Config.Fits; omega
  obtain ⟨htransmitted, hstored⟩ := hidle.counts h.numbered
  have hcount := h.tracked.count
  rcases h.kept.table c (by omega) with hcalled | hentry
  · exact ⟨w, .refl w, hidle, hcalled⟩
  obtain ⟨d, hd, rfl⟩ := h.kept.sent c (by omega)
  -- the request reaches the server
  obtain ⟨command, hcommand, _⟩ := (h.tracked.sent d hd).command
  let a : Arrival := ⟨d.request.serializeAsString, fun _ => 0, fun _ => 0, 0, 0⟩
  have hdelivered : Run (ProperStep cfg me) w _ _ := next_deliver (a := a) .start hd hcommand rfl
  have hlive := h.run haddr hsmall hdelivered
  obtain ⟨as, earlier, hserver, has⟩ := hlive.served
  obtain ⟨more, r, hmore, hsent⟩ := exists_sent_all hcfg sema nil has hserver
  have hserved := hdelivered.append (run_server hmore)
  have hx : (w.delivered ++ [(d, command)])[w.delivered.length]? = some (d, command) :=
    List.getElem?_concat_length
  have hreply : ∃ body,
      r.sent[w.delivered.length]? = some ((request me (d, command)).reply body) := by
    rw [hsent, getElem?_replies, List.getElem?_map, hx]
    exact ⟨_, rfl⟩
  obtain ⟨body, hreply⟩ := hreply
  -- the reply reaches the client
  have hanswered := next_answer hserved hreply hx rfl rfl
  let b : Answer := ⟨d.callback, ((request me (d, command)).reply body).payload⟩
  let client : System := { w.client with
    rx := .received b
    msgBuff := received cfg b.datagram ++ w.client.msgBuff.drop (received cfg b.datagram).length
    answers := b :: w.client.answers }
  have hs : ClientThreads.step cfg me { w.client with answers := b :: w.client.answers }
      (.receive b) = some client := if_pos ⟨List.mem_cons_self .., hidle.rx⟩
  have hreceived := next_receive hanswered hs
  have hlive' := h.run haddr hsmall hreceived
  have hrx : client.rx = .received b := rfl
  obtain ⟨w', honward, hlistens, hcalled⟩ :=
    hlive'.exists_listening_of_received haddr hsmall hrx
  exact ⟨w', (Onward.mk ⟨_, hreceived⟩ rfl fun _ hi => hi).trans honward,
    ⟨hlistens.rx, hlistens.tx.trans hidle.tx, hlistens.cq.trans hidle.cq⟩, hcalled hentry⟩

/-- The callbacks of an idle client can be called one by one. -/
theorem Live.exists_all_called {w : World} (h : Live cfg me sema nil w)
    (haddr : me.addr.length = 16) (hsmall : cfg.keyMaxsize.toNat+cfg.valMaxsize.toNat+100 < 2 ^ 31)
    (hidle : Idle w.client) {k : ℕ} (hk : k ≤ w.commands.length) :
    ∃ w', Onward cfg me w w' ∧ Idle w'.client ∧
      ∀ c < k, ∃ i ∈ w'.client.invoked, i.callback = c := by
  induction k with
  | zero => exact ⟨w, .refl w, hidle, fun c hc => absurd hc (Nat.not_lt_zero c)⟩
  | succ k ih =>
    obtain ⟨w₁, honward₁, hidle₁, hall⟩ := ih (by omega)
    obtain ⟨more, hr⟩ := honward₁.run
    obtain ⟨w₂, honward₂, hidle₂, hlast⟩ := (h.run haddr hsmall hr).exists_called haddr hsmall
      hidle₁ (c := k) (by rw [honward₁.commands]; omega)
    refine ⟨w₂, honward₁.trans honward₂, hidle₂, fun c hc => ?_⟩
    rcases Nat.lt_succ_iff_lt_or_eq.mp hc with hlt | rfl
    · obtain ⟨i, hi, hcallback⟩ := hall c hlt
      exact ⟨i, honward₂.invoked i hi, hcallback⟩
    · exact hlast

/-- All callbacks can be called from every live world. -/
theorem Live.exists_finished {w : World} (h : Live cfg me sema nil w)
    (haddr : me.addr.length = 16) (hsmall : cfg.keyMaxsize.toNat+cfg.valMaxsize.toNat+100 < 2 ^ 31)
    (hstarted : w.client.rx ≠ .starting) (hcount : w.commands.length ≤ 2 ^ 63) :
    ∃ w', Onward cfg me w w' ∧ Idle w'.client ∧
      ∀ c < w.commands.length, ∃ i ∈ w'.client.invoked, i.callback = c := by
  obtain ⟨w₁, honward₁, hlistens⟩ := h.exists_listening haddr hsmall hstarted
  obtain ⟨first, hfirst⟩ := honward₁.run
  have hlive₁ := h.run haddr hsmall hfirst
  obtain ⟨w₂, honward₂, hidle⟩ :=
    hlive₁.exists_idle haddr hsmall hlistens.rx (by rw [honward₁.commands]; exact hcount)
  obtain ⟨second, hsecond⟩ := honward₂.run
  obtain ⟨w₃, honward₃, hidle₃, hall⟩ :=
    (hlive₁.run haddr hsmall hsecond).exists_all_called haddr hsmall hidle (le_refl _)
  rw [honward₂.commands, honward₁.commands] at hall
  exact ⟨w₃, (honward₁.trans honward₂).trans honward₃, hidle₃, hall⟩

/-- Requests that reached the server stay where they are in the order. -/
theorem delivered_prefix_of_run {w w' : World} {more : List Event}
    (hr : Run (ProperStep cfg me) w more w') : w.delivered <+: w'.delivered := by
  induction hr with
  | start => exact List.prefix_refl _
  | next _ hs ih =>
    refine ih.trans ?_
    cases hs.2 with
    | deliver _ _ _ => exact List.prefix_append _ _
    | _ => exact List.prefix_refl _

/-- Commands that were enqueued stay where they are. -/
theorem commands_prefix_of_run {w w' : World} {more : List Event}
    (hr : Run (ProperStep cfg me) w more w') : w.commands <+: w'.commands := by
  induction hr with
  | start => exact List.prefix_refl _
  | next _ hs ih =>
    refine ih.trans ?_
    cases hs.2 with
    | enqueue _ => exact List.prefix_append _ _
    | _ => exact List.prefix_refl _

/-- In proper steps the order in which requests reach the server does not contradict
real time: a command enqueued after a callback was called gets the reply at a later
place than that callback got. -/
theorem replies_in_real_time_order {msgBuff : Bytes} (haddr : me.addr.length = 16)
    (hsmall : cfg.keyMaxsize.toNat+cfg.valMaxsize.toNat+100 < 2 ^ 31)
    {history more : List Event} {w w' : World}
    (hr : Run (ProperStep cfg me) (World.start cfg sema nil msgBuff) history w)
    (hmore : Run (ProperStep cfg me) w more w') {i j : Invocation} (hi : i ∈ w.client.invoked)
    (hj : j ∈ w'.client.invoked) (hlater : w.commands.length ≤ j.callback) :
    ∃ n m x y, n < m ∧ w'.delivered[n]? = some x ∧ w'.delivered[m]? = some y ∧
      x.1.callback = i.callback ∧ y.1.callback = j.callback ∧
      i.message = replyTo cfg.memtableSize w'.delivered n x ∧
      j.message = replyTo cfg.memtableSize w'.delivered m y := by
  have hcfg : cfg.Fits := by unfold Config.Fits; omega
  have h := consistent_of_run haddr hsmall hr
  have h' := consistent_of_run haddr hsmall (hr.append hmore)
  obtain ⟨n, x, hx, hxi, _, himessage⟩ := h.invocation hcfg hi
  obtain ⟨m, y, hy, hyj, _, hjmessage⟩ := h'.invocation hcfg hj
  obtain ⟨rest, hrest⟩ := delivered_prefix_of_run hmore
  obtain ⟨hx', hsame⟩ := replyTo_append cfg.memtableSize hx rest
  rw [hrest] at hx' hsame
  have hn : n < w.delivered.length := (List.getElem?_eq_some_iff.mp hx).1
  have hm : w.delivered.length ≤ m := by
    by_contra hlt
    rw [← hrest, List.getElem?_append_left (by omega)] at hy
    obtain ⟨_, hcommand⟩ := h.tracked.delivered y (List.mem_of_getElem? hy)
    have hcount := (List.getElem?_eq_some_iff.mp hcommand).1
    omega
  exact ⟨n, m, x, y, by omega, hx', hy, hxi, hyj, himessage.trans hsame.symm, hjmessage⟩

/-- A read that is enqueued after the callback of a write was called. -/
theorem replies_in_real_time_order_write_read :
    ∃ history more w w', Run (ProperStep hostConfig somewhere)
        (World.start hostConfig false unused []) history w ∧
      Run (ProperStep hostConfig somewhere) w more w' ∧
      ∃ (i j : Invocation) (n m : ℕ) (x y : Sent × Command), n < m ∧
        w'.delivered[n]? = some x ∧ w'.delivered[m]? = some y ∧
        x.1.callback = i.callback ∧ y.1.callback = j.callback ∧
        i.message = replyTo hostConfig.memtableSize w'.delivered n x ∧
        j.message = replyTo hostConfig.memtableSize w'.delivered m y ∧
        i.callback = 0 ∧ j.callback = 1 := by
  have haddr : somewhere.addr.length = 16 := by decide
  have hsmall : hostConfig.keyMaxsize.toNat+hostConfig.valMaxsize.toNat+100 < 2 ^ 31 := by decide
  have hlimits : WithinLimits hostConfig (.read [1]) := by
    unfold WithinLimits
    decide
  obtain ⟨history, hr⟩ := run_writeArrived
  have hlive := (live_start hostConfig somewhere false unused []).run haddr hsmall hr
  obtain ⟨w, honward, hidle, hall⟩ :=
    hlive.exists_finished haddr hsmall RxAt.noConfusion Nat.one_le_two_pow
  obtain ⟨first, hfirst⟩ := honward.run
  obtain ⟨i, hi, hi0⟩ := hall 0 Nat.one_pos
  have hcommands : w.commands = [.write [1] [2]] := honward.commands
  have htwo : (w.commands ++ [Command.read [1]]).length = 2 := by
    rw [hcommands]
    rfl
  have henqueue := next_enqueue (.start : Run (ProperStep hostConfig somewhere) w [] w) rfl hlimits
  have hlive' := (hlive.run haddr hsmall hfirst).run haddr hsmall henqueue
  have hstarted : w.client.rx ≠ .starting := fun h => RxAt.noConfusion (hidle.rx.symm.trans h)
  obtain ⟨w', honward', _, hall'⟩ := hlive'.exists_finished haddr hsmall hstarted
    (htwo.le.trans (Nat.le_self_pow (by decide) 2))
  obtain ⟨second, hsecond⟩ := honward'.run
  obtain ⟨j, hj, hj1⟩ := hall' 1 (Nat.one_lt_two.trans_eq htwo.symm)
  have hr' := hr.append hfirst
  have hmore := henqueue.append hsecond
  obtain ⟨n, m, x, y, hlt, hx, hy, hxi, hyj, himessage, hjmessage⟩ :=
    replies_in_real_time_order haddr hsmall hr' hmore hi hj (by rw [hcommands, hj1]; decide)
  exact ⟨_, _, w, w', hr', hmore, i, j, n, m, x, y, hlt, hx, hy, hxi, hyj, himessage, hjmessage,
    hi0, hj1⟩

end Progress

end CapsuleDB.ClientServer

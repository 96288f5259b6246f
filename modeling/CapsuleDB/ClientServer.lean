import CapsuleDB.ClientDatagrams
import CapsuleDB.ClientDispatch
import CapsuleDB.ServerQueues

/-!
# Client and server together

The client's threads, the network and the server's threads step in any order.
The network delivers a datagram that was sent at any time, any number of times
or never. In the order in which requests reach the server, each reply is what
the reference map answers, and the client's callbacks get these replies, each
the one of its own command and none twice. A step is proper when it enqueues a
command within the limits, sets the counter of the numbers only while it is zero,
and gives out a number below `2 ^ 63`.
-/

namespace CapsuleDB.ClientServer

open LabelledRun EnclaveMemTable NetMessages ServerStages ServerReference ServerQueues
open ClientThreads ClientDispatch ClientDatagrams

/-- The message that `main` of the client builds for a command. -/
def netCommand : Command → NetCommand
  | .read key => ⟨0, [key]⟩
  | .write key value => ⟨1, [key, value]⟩

/-- The key and the value are within the limits. -/
def WithinLimits (cfg : Config) : Command → Prop
  | .read key => key.length ≤ cfg.keyMaxsize.toNat
  | .write key value =>
    key.length ≤ cfg.keyMaxsize.toNat ∧ value.length ≤ cfg.valMaxsize.toNat

/-- The map after some commands. -/
def mapAfter (threshold : UInt64) : Reference → List Command → Reference
  | r, [] => r
  | r, command :: rest => mapAfter threshold (r.answer threshold command).1 rest

/-- The two programs and the network between them. -/
structure World where
  /-- The client, with the datagrams on their way to and from it. -/
  client : System
  /-- The threads of the server. -/
  server : Threads
  /-- The commands enqueued, in the order of their callbacks. -/
  commands : List Command
  /-- The requests that reached the server, in order, with their commands. -/
  delivered : List (Sent × Command)

/-- Both programs before their first steps. -/
def World.start (cfg : Config) (sema : Bool) (nil : RequestContext) (msgBuff : Bytes) : World where
  client := System.start msgBuff
  server := Threads.start nil (memtableStart cfg (some sema)) []
  commands := []
  delivered := []

/-- What can happen next. -/
inductive Event
  /-- `main` of the client enqueues a command. -/
  | enqueue (command : Command)
  /-- The receiving thread of the client takes its next step. -/
  | rx
  /-- The receiving thread of the client receives a reply. -/
  | receive (a : Answer)
  /-- The sending thread of the client takes its next step. -/
  | tx
  /-- A request reaches the server. -/
  | deliver (d : Sent)
  /-- A thread of the server takes its next step. -/
  | server (thread : ServerPipeline.Thread)
  /-- Reply number `n` of the server is on its way to the client. -/
  | answer (n : ℕ)

/-- The request that the datagram of a command carries. -/
def request (me : Endpoint) (x : Sent × Command) : Request :=
  ⟨cText (me.addr.take 16), me.port, x.1.request.clientSeqno, x.2⟩

section Steps

variable (cfg : Config) (me : Endpoint)

/-- One step of one program or of the network. A reply reaches the client when it
has the client's address and port. -/
inductive Step : World → Event → World → Prop
  | enqueue {w : World} {command : Command} {client : System} :
      ClientThreads.step cfg me w.client (.enqueue (netCommand command).serializeAsString) =
        some client →
      Step w (.enqueue command)
        { w with client := client, commands := w.commands ++ [command] }
  | rx {w : World} {client : System} : ClientThreads.step cfg me w.client .rx = some client →
      Step w .rx { w with client := client }
  | receive {w : World} {a : Answer} {client : System} :
      ClientThreads.step cfg me w.client (.receive a) = some client →
      Step w (.receive a) { w with client := client }
  | tx {w : World} {client : System} : ClientThreads.step cfg me w.client .tx = some client →
      Step w .tx { w with client := client }
  | deliver {w : World} {d : Sent} {command : Command} {a : Arrival} : d ∈ w.client.sent →
      w.commands[d.callback]? = some command → a.bytes = d.request.serializeAsString →
      Step w (.deliver d)
        { w with server := w.server.arrive [a], delivered := w.delivered ++ [(d, command)] }
  | server {w : World} {thread : ServerPipeline.Thread} {server : Threads} :
      Access cfg NetRequest.parseFromString NetCommand.parseFromString w.server thread server →
      Step w (.server thread) { w with server := server }
  | answer {w : World} {n : ℕ} {r : Reply} {x : Sent × Command} : w.server.sent[n]? = some r →
      w.delivered[n]? = some x → r.address = cText (me.addr.take 16) → r.port = me.port →
      Step w (.answer n)
        { w with client :=
          { w.client with answers := ⟨x.1.callback, r.payload⟩ :: w.client.answers } }

/-- The commands are within the limits, and the client keeps its numbers apart. -/
def Proper (w : World) : Event → Prop
  | .enqueue command => WithinLimits cfg command
  | .rx => KeepsNumbers w.client .rx
  | .tx => KeepsNumbers w.client .tx
  | _ => True

/-- A proper step. -/
def ProperStep (w : World) (event : Event) (w' : World) : Prop :=
  Proper cfg w event ∧ Step cfg me w event w'

end Steps

section Commands

variable {cfg : Config} {threshold : UInt64}

/-- The message of a command within the limits is legal. -/
theorem legalCommand_netCommand {command : Command} (h : WithinLimits cfg command) :
    LegalCommand cfg (netCommand command) := by
  cases command with
  | read key => exact .read h
  | write key value => exact .write h.1 h.2

/-- The message of a command within the limits carries it. -/
theorem carriesCommand_netCommand {command : Command} (h : WithinLimits cfg command) :
    CarriesCommand cfg (netCommand command) command := by
  cases command with
  | read key => exact ⟨rfl, ⟨[], rfl⟩, h⟩
  | write key value => exact ⟨rfl, ⟨[], rfl⟩, h.1, h.2⟩

/-- The replies to some requests, one by one. -/
theorem getElem?_replies (r : Reference) (qs : List Request) (n : ℕ) :
    (r.replies threshold qs)[n]? = qs[n]?.map fun q =>
      q.reply ((mapAfter threshold r ((qs.take n).map Request.command)).answer threshold
        q.command).2 := by
  induction qs generalizing r n with
  | nil => rfl
  | cons q qs ih =>
    cases n with
    | zero => rfl
    | succ n =>
      rw [Reference.replies, List.getElem?_cons_succ, List.getElem?_cons_succ, ih]
      rfl

/-- The values of the map are within the limit. -/
def Bounded (cfg : Config) (r : Reference) : Prop :=
  ∀ key value, r.values key = some value → value.length ≤ cfg.valMaxsize.toNat

/-- A command within the limits keeps the values within the limit. -/
theorem Bounded.answer {r : Reference} (h : Bounded cfg r) {command : Command}
    (hcommand : WithinLimits cfg command) : Bounded cfg (r.answer threshold command).1 := by
  cases command with
  | read key => exact h
  | write key value =>
    by_cases hroom : r.usage.full < 2
    · rw [Reference.answer_accepted hroom]
      intro k v hv
      by_cases hk : k = key
      · simp only [Reference.set, hk, Function.update_self, Option.some.injEq] at hv
        exact hv ▸ hcommand.2
      · simp only [Reference.set, Function.update_of_ne hk] at hv
        exact h k v hv
    · rw [Reference.answer_refused hroom]
      exact h

/-- Commands within the limits keep the values within the limit. -/
theorem Bounded.after {r : Reference} (h : Bounded cfg r) {commands : List Command}
    (hcommands : ∀ command ∈ commands, WithinLimits cfg command) :
    Bounded cfg (mapAfter threshold r commands) := by
  induction commands generalizing r with
  | nil => exact h
  | cons command rest ih =>
    rw [List.forall_mem_cons] at hcommands
    exact ih (h.answer hcommands.1) hcommands.2

/-- The answer to a command fits a datagram. -/
theorem Bounded.length_answer_le {r : Reference} (h : Bounded cfg r) (threshold : UInt64)
    (command : Command) :
    (r.answer threshold command).2.length ≤ cfg.valMaxsize.toNat+10 := by
  cases command with
  | read key =>
    rw [Reference.answer_read]
    cases hvalue : r.values key with
    | none =>
      have hlen : (ascii "READ_FAIL").length = 9 := by decide
      rw [Option.getD_none, hlen]
      omega
    | some value =>
      exact (h key value hvalue).trans (Nat.le_add_right _ _)
  | write key value =>
    have hpass : (ascii "WRITE_PASS").length = 10 := by decide
    have hfail : (ascii "WRITE_FAIL").length = 10 := by decide
    by_cases hroom : r.usage.full < 2
    · rw [Reference.answer_accepted hroom, hpass]
      omega
    · rw [Reference.answer_refused hroom, hfail]
      omega

end Commands

section Invariant

variable {cfg : Config} {me : Endpoint} {sema : Bool} {nil : RequestContext}

/-- The request was built for the command with its callback. -/
def BuiltFor (cfg : Config) (commands : List Command) (req : ClientRequest) : Prop :=
  ∃ command, commands[req.callback]? = some command ∧ WithinLimits cfg command ∧
    req.body = (netCommand command).serializeAsString

/-- The request in the hands of the sending thread. -/
def inHands : TxAt → Option ClientRequest
  | .waiting => none
  | .dequeued req => some req
  | .numbered req _ => some req
  | .stored req _ => some req

/-- What was sent was built for a command, and carries its number. -/
def SentFor (cfg : Config) (me : Endpoint) (commands : List Command) (d : Sent) : Prop :=
  ∃ req uid, BuiltFor cfg commands req ∧ req.callback = d.callback ∧
    d.request = netRequest me uid req

/-- Where the commands are. -/
structure Tracked (cfg : Config) (me : Endpoint) (w : World) : Prop where
  /-- Callbacks number the commands. -/
  count : w.client.enqueued = w.commands.length
  /-- The requests waiting to be sent. -/
  waiting : ∀ req ∈ w.client.cq, BuiltFor cfg w.commands req
  /-- The request in the hands of the sending thread. -/
  hands : ∀ req ∈ inHands w.client.tx, BuiltFor cfg w.commands req
  /-- The requests sent. -/
  sent : ∀ d ∈ w.client.sent, SentFor cfg me w.commands d
  /-- The requests that reached the server were sent. -/
  delivered : ∀ x ∈ w.delivered, x.1 ∈ w.client.sent ∧ w.commands[x.1.callback]? = some x.2

/-- The reply to request number `n`, in the order in which they reached the server. -/
def replyTo (threshold : UInt64) (delivered : List (Sent × Command)) (n : ℕ)
    (x : Sent × Command) : Bytes :=
  reply x.1.request.clientSeqno
    ((mapAfter threshold .empty ((delivered.take n).map Prod.snd)).answer threshold x.2).2

/-- What holds after every run. -/
structure Consistent (cfg : Config) (me : Endpoint) (sema : Bool) (nil : RequestContext)
    (w : World) : Prop where
  /-- The client keeps its numbers apart. -/
  numbered : Numbered cfg w.client
  /-- The commands are where they should be. -/
  tracked : Tracked cfg me w
  /-- The server has run on the requests that reached it. -/
  served : ∃ as history, Run (Access cfg NetRequest.parseFromString NetCommand.parseFromString)
      (Threads.start nil (memtableStart cfg (some sema)) as) history w.server ∧
    List.Forall₂ (Carries cfg NetRequest.parseFromString NetCommand.parseFromString) as
      (w.delivered.map (request me))
  /-- The replies on their way to the client are those of the map. -/
  answers : ∀ a ∈ w.client.answers, ∃ n x, w.delivered[n]? = some x ∧
    a.callback = x.1.callback ∧ a.datagram = replyTo cfg.memtableSize w.delivered n x

/-- More commands leave a request built for its command. -/
theorem BuiltFor.append {commands : List Command} {req : ClientRequest}
    (h : BuiltFor cfg commands req) (more : List Command) :
    BuiltFor cfg (commands ++ more) req := by
  obtain ⟨command, hget, hlimits, hbody⟩ := h
  refine ⟨command, ?_, hlimits, hbody⟩
  rw [List.getElem?_append_left (List.getElem?_eq_some_iff.mp hget).1]
  exact hget

/-- More commands leave what was sent for its command. -/
theorem SentFor.append {commands : List Command} {d : Sent} (h : SentFor cfg me commands d)
    (more : List Command) : SentFor cfg me (commands ++ more) d := by
  obtain ⟨req, uid, hbuilt, hcallback, hrequest⟩ := h
  exact ⟨req, uid, hbuilt.append more, hcallback, hrequest⟩

/-- A datagram that was sent carries the request for its command. -/
theorem SentFor.carries {commands : List Command} {d : Sent} {command : Command} {a : Arrival}
    (h : SentFor cfg me commands d) (haddr : me.addr.length = 16)
    (hsmall : cfg.keyMaxsize.toNat+cfg.valMaxsize.toNat+100 < 2 ^ 31)
    (hcommand : commands[d.callback]? = some command)
    (ha : a.bytes = d.request.serializeAsString) :
    Carries cfg NetRequest.parseFromString NetCommand.parseFromString a
      (request me (d, command)) := by
  have hcfg : cfg.Fits := by unfold Config.Fits; omega
  obtain ⟨req, uid, ⟨command', hget, hlimits, hbody⟩, hcallback, hrequest⟩ := h
  rw [hcallback, hcommand] at hget
  cases hget
  have hlegal := legalCommand_netCommand hlimits
  have hlength := hlegal.length_le hcfg
  have hops : ∀ s ∈ (netCommand command).ops, s.length < 2 ^ 31 := by
    intro s hs
    cases command with
    | read key =>
      have hle : key.length ≤ cfg.keyMaxsize.toNat := hlimits
      rw [List.mem_singleton.mp hs]
      omega
    | write key value =>
      obtain ⟨hkey, hvalue⟩ := hlimits
      rcases List.mem_pair.mp hs with rfl | rfl <;> omega
  have hdatagram : d.request.serializeAsString.length ≤
      cfg.keyMaxsize.toNat+cfg.valMaxsize.toNat+100 := by
    have hle := length_netRequest_le hcfg hlegal haddr uid req.callback
    rw [← hbody] at hle
    rw [hrequest]
    exact hle
  have hparse := NetRequest.parseFromString_serializeAsString (m := d.request)
    (by rw [hrequest]; show me.addr.length < 2 ^ 31; omega)
    (by rw [hrequest]; show req.body.length < 2 ^ 31; rw [hbody]; omega)
  have hreceived : received cfg a.bytes = a.bytes :=
    (fitsBuffer_of_le hcfg (ha.symm ▸ hdatagram)).2
  have hsz : d.request.sz.toNat = d.request.body.length := by
    have hlt : req.body.length < 2 ^ 64 := by rw [hbody]; omega
    rw [hrequest]
    exact UInt64.toNat_ofNat_of_lt' hlt
  have hcommandParse : NetCommand.parseFromString d.request.body = some (netCommand command) := by
    rw [hrequest]
    show NetCommand.parseFromString req.body = _
    rw [hbody]
    exact NetCommand.parseFromString_serializeAsString hops
  refine ⟨d.request, netCommand command, ?_, hsz, hcommandParse, carriesCommand_netCommand hlimits,
    ?_, ?_, rfl⟩
  · rw [hreceived, ha]
    exact hparse
  · rw [hrequest]
    rfl
  · rw [hrequest]
    exact (UInt16.toUInt16_toUInt32 me.port).symm

/-- What was sent was built for a command. -/
theorem SentFor.command {commands : List Command} {d : Sent} (h : SentFor cfg me commands d) :
    ∃ command, commands[d.callback]? = some command ∧ WithinLimits cfg command := by
  obtain ⟨req, uid, ⟨command, hget, hlimits, _⟩, hcallback, _⟩ := h
  exact ⟨command, hcallback ▸ hget, hlimits⟩

/-- Nothing is anywhere at the start. -/
theorem tracked_start (cfg : Config) (me : Endpoint) (sema : Bool) (nil : RequestContext)
    (msgBuff : Bytes) : Tracked cfg me (World.start cfg sema nil msgBuff) where
  count := rfl
  waiting := by simp [World.start, System.start]
  hands := by simp [World.start, System.start, inHands]
  sent := by simp [World.start, System.start]
  delivered := by simp [World.start]

/-- A step of the client that moves no request. -/
theorem Tracked.frame {w : World} (h : Tracked cfg me w) {client : System}
    (henqueued : client.enqueued = w.client.enqueued) (hcq : client.cq = w.client.cq)
    (htx : client.tx = w.client.tx) (hsent : client.sent = w.client.sent) :
    Tracked cfg me { w with client := client } where
  count := henqueued.trans h.count
  waiting := by
    dsimp only
    rw [hcq]
    exact h.waiting
  hands := by
    dsimp only
    rw [htx]
    exact h.hands
  sent := by
    dsimp only
    rw [hsent]
    exact h.sent
  delivered := by
    dsimp only
    rw [hsent]
    exact h.delivered

/-- The receiving thread moves no request. -/
theorem initNetRx_frame {s t : System} (h : ClientThreads.initNetRx cfg s = some t) :
    t.enqueued = s.enqueued ∧ t.cq = s.cq ∧ t.tx = s.tx ∧ t.sent = s.sent ∧
      t.answers = s.answers := by
  unfold ClientThreads.initNetRx at h
  split at h
  · cases h
    exact ⟨rfl, rfl, rfl, rfl, rfl⟩
  · cases h
  · split at h
    · cases h
      exact ⟨rfl, rfl, rfl, rfl, rfl⟩
    · cases h
      exact ⟨rfl, rfl, rfl, rfl, rfl⟩
  · split at h
    · cases h
    · cases h
      exact ⟨rfl, rfl, rfl, rfl, rfl⟩
  · cases h
    exact ⟨rfl, rfl, rfl, rfl, rfl⟩

/-- Receiving moves no request. -/
theorem receive_frame {s t : System} {a : Answer}
    (h : ClientThreads.step cfg me s (.receive a) = some t) :
    t.enqueued = s.enqueued ∧ t.cq = s.cq ∧ t.tx = s.tx ∧ t.sent = s.sent ∧
      t.answers = s.answers := by
  unfold ClientThreads.step at h
  dsimp only at h
  split at h
  · cases h
    exact ⟨rfl, rfl, rfl, rfl, rfl⟩
  · cases h

/-- The sending thread sends no answer. -/
theorem initNetTx_frame {s t : System} (h : ClientThreads.initNetTx me s = some t) :
    t.answers = s.answers := by
  unfold ClientThreads.initNetTx at h
  split at h
  · split at h
    · cases h
    · cases h
      rfl
  · cases h
    rfl
  · cases h
    rfl
  · cases h
    rfl

/-- Enqueueing a command within the limits. -/
theorem Tracked.enqueue {w : World} (h : Tracked cfg me w) {command : Command}
    (hcommand : WithinLimits cfg command) :
    Tracked cfg me { w with
      client := { w.client with
        cq := w.client.cq ++ [⟨(netCommand command).serializeAsString, w.client.enqueued⟩]
        enqueued := w.client.enqueued+1 }
      commands := w.commands ++ [command] } where
  count := by
    rw [List.length_append, h.count]
    rfl
  waiting := by
    intro req hreq
    rcases List.mem_append.mp hreq with hreq | hreq
    · exact (h.waiting req hreq).append [command]
    · rw [List.mem_singleton.mp hreq]
      refine ⟨command, ?_, hcommand, rfl⟩
      rw [h.count]
      exact List.getElem?_concat_length
  hands := fun req hreq => (h.hands req hreq).append [command]
  sent := fun d hd => (h.sent d hd).append [command]
  delivered := by
    intro x hx
    obtain ⟨hsent, hget⟩ := h.delivered x hx
    refine ⟨hsent, ?_⟩
    rw [List.getElem?_append_left (List.getElem?_eq_some_iff.mp hget).1]
    exact hget

/-- A step of the sending thread. -/
theorem Tracked.initNetTx {w : World} (h : Tracked cfg me w) {client : System}
    (ht : ClientThreads.initNetTx me w.client = some client) :
    Tracked cfg me { w with client := client } := by
  unfold ClientThreads.initNetTx at ht
  have hhands := h.hands
  split at ht
  · split at ht
    · cases ht
    · next req cq hcq =>
      cases ht
      have hwaiting := h.waiting
      rw [hcq] at hwaiting
      refine { h with
        waiting := fun req' hreq => hwaiting req' (List.mem_cons_of_mem _ hreq)
        hands := ?_ }
      intro req' hreq
      cases hreq
      exact hwaiting req (List.mem_cons_self ..)
  · next req htx =>
    cases ht
    rw [htx] at hhands
    exact { h with hands := hhands }
  · next req uid htx =>
    cases ht
    rw [htx] at hhands
    exact { h with hands := hhands }
  · next req uid htx =>
    cases ht
    rw [htx] at hhands
    have hbuilt : BuiltFor cfg w.commands req := hhands req rfl
    refine { h with hands := ?_, sent := ?_, delivered := ?_ }
    · intro req' hreq
      cases hreq
    · intro d hd
      rcases List.mem_cons.mp hd with rfl | hd
      · exact ⟨req, uid, hbuilt, rfl, rfl⟩
      · exact h.sent d hd
    · intro x hx
      obtain ⟨hsent, hget⟩ := h.delivered x hx
      exact ⟨List.mem_cons_of_mem _ hsent, hget⟩

/-- The start is consistent. -/
theorem consistent_start (cfg : Config) (me : Endpoint) (sema : Bool) (nil : RequestContext)
    (msgBuff : Bytes) : Consistent cfg me sema nil (World.start cfg sema nil msgBuff) where
  numbered := numbered_start cfg msgBuff
  tracked := tracked_start cfg me sema nil msgBuff
  served := ⟨[], [], .start, .nil⟩
  answers := by simp [World.start, System.start]

/-- A step of the client that sends no answer. -/
theorem Consistent.client {w : World} (h : Consistent cfg me sema nil w) {client : System}
    (hnumbered : Numbered cfg client) (htracked : Tracked cfg me { w with client := client })
    (hanswers : client.answers = w.client.answers) :
    Consistent cfg me sema nil { w with client := client } where
  numbered := hnumbered
  tracked := htracked
  served := h.served
  answers := by
    dsimp only
    rw [hanswers]
    exact h.answers

/-- Later requests do not change the reply to an earlier one. -/
theorem replyTo_append (threshold : UInt64) {delivered : List (Sent × Command)} {n : ℕ}
    {x : Sent × Command} (hx : delivered[n]? = some x) (more : List (Sent × Command)) :
    (delivered ++ more)[n]? = some x ∧
      replyTo threshold (delivered ++ more) n x = replyTo threshold delivered n x := by
  have hn : n < delivered.length := (List.getElem?_eq_some_iff.mp hx).1
  refine ⟨(List.getElem?_append_left hn).trans hx, ?_⟩
  rw [replyTo, List.take_append_of_le_length hn.le, replyTo]

/-- A request reaches the server. -/
theorem Consistent.deliver {w : World} (h : Consistent cfg me sema nil w)
    (haddr : me.addr.length = 16) (hsmall : cfg.keyMaxsize.toNat+cfg.valMaxsize.toNat+100 < 2 ^ 31)
    {d : Sent} {command : Command} {a : Arrival} (hd : d ∈ w.client.sent)
    (hcommand : w.commands[d.callback]? = some command)
    (ha : a.bytes = d.request.serializeAsString) :
    Consistent cfg me sema nil
      { w with server := w.server.arrive [a], delivered := w.delivered ++ [(d, command)] } := by
  obtain ⟨as, history, hr, has⟩ := h.served
  have hcarries := (h.tracked.sent d hd).carries haddr hsmall hcommand ha
  refine { h with tracked := { h.tracked with delivered := ?_ }, served := ?_, answers := ?_ }
  · intro x hx
    rcases List.mem_append.mp hx with hx | hx
    · exact h.tracked.delivered x hx
    · rw [List.mem_singleton.mp hx]
      exact ⟨hd, hcommand⟩
  · refine ⟨as ++ [a], history, run_arrive hr [a], ?_⟩
    rw [List.map_append]
    exact List.rel_append has (.cons hcarries .nil)
  · intro b hb
    obtain ⟨n, x, hx, hcallback, hdatagram⟩ := h.answers b hb
    obtain ⟨hx', hsame⟩ := replyTo_append cfg.memtableSize hx [(d, command)]
    exact ⟨n, x, hx', hcallback, hdatagram.trans hsame.symm⟩

/-- A reply of the server is the one of the map. -/
theorem Consistent.payload_eq {w : World} (h : Consistent cfg me sema nil w) (hcfg : cfg.Fits)
    {n : ℕ} {r : Reply} {x : Sent × Command} (hr : w.server.sent[n]? = some r)
    (hx : w.delivered[n]? = some x) :
    r.payload = replyTo cfg.memtableSize w.delivered n x := by
  obtain ⟨as, history, hrun, has⟩ := h.served
  obtain ⟨p, hview, hdrained, _⟩ := view_of_run hcfg sema nil has hrun
  obtain ⟨rest, hrest⟩ := hdrained.sent_isPrefix
  rw [hview.sent] at hrest
  have hn : n < w.server.sent.length := (List.getElem?_eq_some_iff.mp hr).1
  have hreply : (Reference.empty.replies cfg.memtableSize (w.delivered.map (request me)))[n]? =
      some r := by
    rw [← hrest, List.getElem?_append_left hn]
    exact hr
  rw [getElem?_replies, List.getElem?_map, hx, ← List.map_take, List.map_map] at hreply
  cases hreply
  rfl

/-- A reply is on its way to the client. -/
theorem Consistent.answer {w : World} (h : Consistent cfg me sema nil w) (hcfg : cfg.Fits)
    {n : ℕ} {r : Reply} {x : Sent × Command} (hr : w.server.sent[n]? = some r)
    (hx : w.delivered[n]? = some x) :
    Consistent cfg me sema nil { w with
      client := { w.client with answers := ⟨x.1.callback, r.payload⟩ :: w.client.answers } } := by
  have hpayload := h.payload_eq hcfg hr hx
  obtain ⟨hsent, _⟩ := h.tracked.delivered x (List.mem_of_getElem? hx)
  refine { h with
    numbered := ?_, tracked := h.tracked.frame rfl rfl rfl rfl, answers := ?_ }
  · rw [hpayload]
    exact h.numbered.serve hsent _
  · intro b hb
    rcases List.mem_cons.mp hb with rfl | hb
    · exact ⟨n, x, hx, rfl, hpayload⟩
    · exact h.answers b hb

/-- A step of the client that keeps the numbers apart. -/
theorem Consistent.numbered_step {w : World} (h : Consistent cfg me sema nil w) (hcfg : cfg.Fits)
    {op : Op} {client : System} (hs : ClientThreads.step cfg me w.client op = some client)
    (hkeep : KeepsNumbers w.client op) : Numbered cfg client :=
  h.numbered.step hcfg hkeep hs

/-- A proper step leads from a consistent world to a consistent one. -/
theorem Consistent.step {w w' : World} {event : Event} (h : Consistent cfg me sema nil w)
    (haddr : me.addr.length = 16) (hsmall : cfg.keyMaxsize.toNat+cfg.valMaxsize.toNat+100 < 2 ^ 31)
    (hproper : Proper cfg w event) (hs : Step cfg me w event w') :
    Consistent cfg me sema nil w' := by
  have hcfg : cfg.Fits := by unfold Config.Fits; omega
  cases hs with
  | enqueue hclient =>
    have hnumbered := h.numbered_step hcfg hclient trivial
    cases hclient
    have htracked := h.tracked.enqueue hproper
    exact { numbered := hnumbered, tracked := htracked, served := h.served, answers := h.answers }
  | rx hclient =>
    obtain ⟨henqueued, hcq, htx, hsent, hanswers⟩ := initNetRx_frame hclient
    exact h.client (h.numbered_step hcfg hclient hproper)
      (h.tracked.frame henqueued hcq htx hsent) hanswers
  | receive hclient =>
    obtain ⟨henqueued, hcq, htx, hsent, hanswers⟩ := receive_frame hclient
    exact h.client (h.numbered_step hcfg hclient trivial)
      (h.tracked.frame henqueued hcq htx hsent) hanswers
  | tx hclient =>
    exact h.client (h.numbered_step hcfg hclient hproper) (h.tracked.initNetTx hclient)
      (initNetTx_frame hclient)
  | deliver hd hcommand ha => exact h.deliver haddr hsmall hd hcommand ha
  | server haccess =>
    obtain ⟨as, history, hr, has⟩ := h.served
    exact { h with
      tracked := { h.tracked with }, served := ⟨as, _, hr.next haccess, has⟩ }
  | answer hr hx _ _ => exact h.answer hcfg hr hx

/-- After proper steps the world is consistent. -/
theorem consistent_of_run {msgBuff : Bytes} (haddr : me.addr.length = 16)
    (hsmall : cfg.keyMaxsize.toNat+cfg.valMaxsize.toNat+100 < 2 ^ 31)
    {history : List Event} {w : World}
    (hr : Run (ProperStep cfg me) (World.start cfg sema nil msgBuff) history w) :
    Consistent cfg me sema nil w := by
  refine Run.invariant (I := fun _ w => Consistent cfg me sema nil w)
    (consistent_start cfg me sema nil msgBuff) ?_ hr
  intro history w event w' _ h hs
  exact h.step haddr hsmall hs.1 hs.2

/-- The reply to a command within the limits reaches the client as it was sent. -/
theorem Tracked.received_replyTo {w : World} (h : Tracked cfg me w) (hcfg : cfg.Fits) (n : ℕ)
    (x : Sent × Command) :
    received cfg (replyTo cfg.memtableSize w.delivered n x) =
      replyTo cfg.memtableSize w.delivered n x := by
  have hbounded : Bounded cfg (mapAfter cfg.memtableSize .empty
      ((w.delivered.take n).map Prod.snd)) := by
    refine Bounded.after (fun key value hvalue => by cases hvalue) ?_
    intro command hcommand
    obtain ⟨y, hy, rfl⟩ := List.mem_map.mp hcommand
    obtain ⟨hsent, hget⟩ := h.delivered y (List.mem_of_mem_take hy)
    obtain ⟨command, hget', hlimits⟩ := (h.sent y.1 hsent).command
    rw [hget] at hget'
    cases hget'
    exact hlimits
  have hanswer := hbounded.length_answer_le cfg.memtableSize x.2
  have hreply := length_reply_le x.1.request.clientSeqno
    ((mapAfter cfg.memtableSize .empty ((w.delivered.take n).map Prod.snd)).answer
      cfg.memtableSize x.2).2
  refine (fitsBuffer_of_le hcfg ?_).2
  rw [replyTo]
  omega

/-- A callback is called with the reply of the map to its own command. -/
theorem Consistent.invocation {w : World} (h : Consistent cfg me sema nil w) (hcfg : cfg.Fits)
    {i : Invocation} (hi : i ∈ w.client.invoked) :
    ∃ n x, w.delivered[n]? = some x ∧ x.1.callback = i.callback ∧
      w.commands[i.callback]? = some x.2 ∧
      i.message = replyTo cfg.memtableSize w.delivered n x := by
  obtain ⟨a, ha, hcallback, hmessage⟩ := h.numbered.own i hi
  obtain ⟨n, x, hx, hsame, hdatagram⟩ := h.answers a ha
  obtain ⟨_, hcommand⟩ := h.tracked.delivered x (List.mem_of_getElem? hx)
  have hown : x.1.callback = i.callback := hsame.symm.trans hcallback
  refine ⟨n, x, hx, hown, hown ▸ hcommand, ?_⟩
  rw [hmessage, hdatagram]
  exact h.tracked.received_replyTo hcfg n x

/-- The server does not fault, and callbacks are called once, with the replies of the
map to their own commands. -/
theorem Consistent.answered {w : World} (h : Consistent cfg me sema nil w) (hcfg : cfg.Fits) :
    ¬ w.server.Faults cfg NetRequest.parseFromString NetCommand.parseFromString ∧
      (w.client.invoked.map Invocation.callback).Nodup ∧
      ∀ i ∈ w.client.invoked, ∃ n x, w.delivered[n]? = some x ∧ x.1.callback = i.callback ∧
        w.commands[i.callback]? = some x.2 ∧
        i.message = replyTo cfg.memtableSize w.delivered n x := by
  obtain ⟨as, earlier, hserver, has⟩ := h.served
  obtain ⟨p, hview, hdrained, _⟩ := view_of_run hcfg sema nil has hserver
  exact ⟨fun hf => hdrained.not_faults (hview.faults hf), h.numbered.once,
    fun i hi => h.invocation hcfg hi⟩

/-- In proper steps, and with a flag for the store to raise: whatever the order in
which the two programs' threads step and the network delivers, loses and duplicates
datagrams, the server never faults, no callback is called twice, and each is called
with the reply of the reference map to its own command, at the place where the command
reached the server. -/
theorem callbacks_get_map_answers {msgBuff : Bytes} (haddr : me.addr.length = 16)
    (hsmall : cfg.keyMaxsize.toNat+cfg.valMaxsize.toNat+100 < 2 ^ 31)
    {history : List Event} {w : World}
    (hr : Run (ProperStep cfg me) (World.start cfg sema nil msgBuff) history w) :
    ¬ w.server.Faults cfg NetRequest.parseFromString NetCommand.parseFromString ∧
      (w.client.invoked.map Invocation.callback).Nodup ∧
      ∀ i ∈ w.client.invoked, ∃ n x, w.delivered[n]? = some x ∧ x.1.callback = i.callback ∧
        w.commands[i.callback]? = some x.2 ∧
        i.message = replyTo cfg.memtableSize w.delivered n x := by
  have hcfg : cfg.Fits := by unfold Config.Fits; omega
  exact (consistent_of_run haddr hsmall hr).answered hcfg

end Invariant

section Written

/-- A run of the server is a run of both programs. -/
theorem run_server {cfg : Config} {me : Endpoint} {w : World} {history : List ServerPipeline.Thread}
    {r : Threads} (hr : Run (Access cfg NetRequest.parseFromString NetCommand.parseFromString)
      w.server history r) :
    Run (ProperStep cfg me) w (history.map Event.server) { w with server := r } := by
  induction hr with
  | start => exact .start
  | next _ hs ih => exact ih.next ⟨trivial, .server hs⟩

section Client

variable {cfg : Config} {me : Endpoint} {start w : World} {history : List Event} {client : System}

/-- The client goes on by enqueueing. -/
theorem next_enqueue (hr : Run (ProperStep cfg me) start history w) {command : Command}
    (hs : ClientThreads.step cfg me w.client (.enqueue (netCommand command).serializeAsString) =
      some client) (hlimits : WithinLimits cfg command) :
    Run (ProperStep cfg me) start (.enqueue command :: history)
      { w with client := client, commands := w.commands ++ [command] } :=
  hr.next ⟨hlimits, .enqueue hs⟩

/-- The client goes on in its receiving thread. -/
theorem next_rx (hr : Run (ProperStep cfg me) start history w)
    (hs : ClientThreads.step cfg me w.client .rx = some client)
    (hkeep : KeepsNumbers w.client .rx) :
    Run (ProperStep cfg me) start (.rx :: history) { w with client := client } :=
  hr.next ⟨hkeep, .rx hs⟩

/-- The client goes on in its sending thread. -/
theorem next_tx (hr : Run (ProperStep cfg me) start history w)
    (hs : ClientThreads.step cfg me w.client .tx = some client)
    (hkeep : KeepsNumbers w.client .tx) :
    Run (ProperStep cfg me) start (.tx :: history) { w with client := client } :=
  hr.next ⟨hkeep, .tx hs⟩

/-- The network delivers a request. -/
theorem next_deliver (hr : Run (ProperStep cfg me) start history w) {d : Sent} {command : Command}
    {a : Arrival} (hd : d ∈ w.client.sent) (hcommand : w.commands[d.callback]? = some command)
    (ha : a.bytes = d.request.serializeAsString) :
    Run (ProperStep cfg me) start (.deliver d :: history)
      { w with server := w.server.arrive [a], delivered := w.delivered ++ [(d, command)] } :=
  hr.next ⟨trivial, .deliver hd hcommand ha⟩

/-- The network takes a reply. -/
theorem next_answer (hr : Run (ProperStep cfg me) start history w) {n : ℕ} {r : Reply}
    {x : Sent × Command} (hsent : w.server.sent[n]? = some r) (hx : w.delivered[n]? = some x)
    (haddress : r.address = cText (me.addr.take 16)) (hport : r.port = me.port) :
    Run (ProperStep cfg me) start (.answer n :: history)
      { w with client :=
        { w.client with answers := ⟨x.1.callback, r.payload⟩ :: w.client.answers } } :=
  hr.next ⟨trivial, .answer hsent hx haddress hport⟩

/-- The client receives a reply. -/
theorem next_receive (hr : Run (ProperStep cfg me) start history w) {a : Answer}
    (hs : ClientThreads.step cfg me w.client (.receive a) = some client) :
    Run (ProperStep cfg me) start (.receive a :: history) { w with client := client } :=
  hr.next ⟨trivial, .receive hs⟩

end Client

/-- The request for a write. -/
def written : Sent :=
  ⟨0, netRequest somewhere 0 ⟨(netCommand (.write [1] [2])).serializeAsString, 0⟩⟩

/-- The client after it has sent the request. -/
def writing : System :=
  { System.start [] with
    uidCnt := 1, callbackMap := Function.update (fun _ => none) 0 (some 0)
    rx := .listening, enqueued := 1, sent := [written] }

/-- Both programs after the request has reached the server. -/
def writeArrived : World :=
  { World.start hostConfig false unused [] with
    client := writing
    server := (Threads.start unused (memtableStart hostConfig (some false)) []).arrive
      [⟨written.request.serializeAsString, fun _ => 0, fun _ => 0, 0, 0⟩]
    commands := [.write [1] [2]]
    delivered := [(written, .write [1] [2])] }

/-- The steps of the client before. -/
theorem run_writeArrived : ∃ history, Run (ProperStep hostConfig somewhere)
    (World.start hostConfig false unused []) history writeArrived := by
  have hlimits : WithinLimits hostConfig (.write [1] [2]) := by
    unfold WithinLimits
    decide
  have hr : Run (ProperStep hostConfig somewhere) (World.start hostConfig false unused []) []
      (World.start hostConfig false unused []) := .start
  have hr := next_rx hr rfl fun _ => rfl
  have hr := next_enqueue hr rfl hlimits
  have hr := next_tx hr rfl fun _ h => TxAt.noConfusion h
  have hr := next_tx hr rfl fun _ _ => Nat.zero_lt_succ _
  have hr := next_tx hr rfl fun _ h => TxAt.noConfusion h
  have hr := next_tx hr rfl fun _ h => TxAt.noConfusion h
  have hr : Run (ProperStep hostConfig somewhere) (World.start hostConfig false unused []) _
      { World.start hostConfig false unused [] with
        client := writing, commands := [.write [1] [2]] } := hr
  exact ⟨_, next_deliver hr (List.mem_singleton_self _) rfl rfl⟩

/-- The callback of the write is called with the reply to it. -/
theorem callbacks_get_map_answers_write :
    ∃ history w, Run (ProperStep hostConfig somewhere) (World.start hostConfig false unused [])
        history w ∧
      w.client.invoked = [⟨0, reply 0 (ascii "WRITE_PASS")⟩] ∧
      ∀ i ∈ w.client.invoked, ∃ n x, w.delivered[n]? = some x ∧ x.1.callback = i.callback ∧
        w.commands[i.callback]? = some x.2 ∧
        i.message = replyTo hostConfig.memtableSize w.delivered n x := by
  have hsmall : hostConfig.keyMaxsize.toNat+hostConfig.valMaxsize.toNat+100 < 2 ^ 31 := by decide
  have haddr : somewhere.addr.length = 16 := by decide
  obtain ⟨history, hr⟩ := run_writeArrived
  obtain ⟨as, earlier, hserver, has⟩ := (consistent_of_run haddr hsmall hr).served
  obtain ⟨more, r, hmore, hsent⟩ := exists_sent_all hostConfig_fits false unused has hserver
  have hr := hr.append (run_server hmore)
  have hreply : r.sent[0]? = some ⟨cText (somewhere.addr.take 16), somewhere.port,
      reply 0 (ascii "WRITE_PASS")⟩ := by
    rw [hsent]
    rfl
  have hr := next_answer hr hreply rfl rfl rfl
  have hr := next_receive (a := ⟨0, reply 0 (ascii "WRITE_PASS")⟩) hr rfl
  have hr := next_rx hr rfl fun h => RxAt.noConfusion h
  have hr := next_rx hr rfl fun h => RxAt.noConfusion h
  exact ⟨_, _, hr, rfl, (callbacks_get_map_answers haddr hsmall hr).2.2⟩

end Written

end CapsuleDB.ClientServer

import CapsuleDB.ClientInput
import CapsuleDB.ClientQueueProgress

/-!
# Both programs, from the input to the callbacks

The client reads commands from its standard input and enqueues them in its
blocking queue, its other threads send requests and receive replies, and the
server's threads work over their ring queues; every access of a queue is a step,
and the network delivers, loses and duplicates datagrams. Every run shows as one
of the client over a list of requests with the server, so the callbacks get the
reference map's answers to the commands of the input.
-/

namespace CapsuleDB.EndToEnd

open EnclaveMemTable (Bytes)
open LabelledRun NetMessages DecimalPrefix ServerStages ServerReference ServerQueues Words
open ClientInput
open ClientThreads (ClientRequest Endpoint Sent Answer Invocation RxAt TxAt reply)
open ClientDispatch (KeepsNumbers somewhere)
open ClientQueue (Client Ordered ne_waiting_of_initNetTx putting putting_of_atQueue)
open ClientServer (World netCommand WithinLimits replyTo writing written)
open UtilBlockingConcurrentQueue (ConcurrentQueue listQueue)

/-- The two programs over their queues, and the network between them. -/
structure Programs (κ : Type*) where
  /-- The standard input of the client. -/
  cin : IStream
  /-- The command that `main` of the client is about to put into the queue. -/
  entering : Option Command
  /-- The client, with the datagrams on their way to and from it. -/
  client : Client κ
  /-- The threads of the server. -/
  server : Threads
  /-- The commands put into the queue, in the order of their callbacks. -/
  commands : List Command
  /-- The requests that reached the server, in order, with their commands. -/
  delivered : List (Sent × Command)

/-- Both programs before their first steps. -/
def Programs.start {κ : Type*} (cfg : Config) (sema : Bool) (nil : RequestContext)
    (msgBuff : Bytes) (inner : κ) (maxSpins : ℕ) (input : Bytes) : Programs κ where
  cin := .start input
  entering := none
  client := .start msgBuff inner maxSpins
  server := Threads.start nil (memtableStart cfg (some sema)) []
  commands := []
  delivered := []

/-- What can happen next. -/
inductive Event
  /-- `main` of the client reads words that stand for no command. -/
  | skip
  /-- `main` of the client reads a command and calls `enqueue`. -/
  | read (command : Command)
  /-- The command is inside the queue. -/
  | insert
  /-- The queue inside refuses the command. -/
  | refuse
  /-- A thread of the client goes on at the queue. -/
  | queue (event : ClientQueue.Event)
  /-- The receiving thread of the client takes its next step. -/
  | rx
  /-- The receiving thread of the client receives a reply. -/
  | receive (a : Answer)
  /-- The sending thread of the client takes its next step behind the queue. -/
  | tx
  /-- A request reaches the server. -/
  | deliver (d : Sent)
  /-- A thread of the server takes its next step. -/
  | server (thread : ServerPipeline.Thread)
  /-- Reply number `n` of the server is on its way to the client. -/
  | answer (n : ℕ)

section Steps

variable {κ : Type*} (queue : ConcurrentQueue κ ClientRequest) (cfg : Config) (me : Endpoint)

/-- One step of one program or of the network. The loop of `main` reads on while no
read has met the end of the input. -/
inductive Step : Programs κ → Event → Programs κ → Prop
  | skip {p : Programs κ} : p.cin.eofbit = false → p.client.queue.threads .main = .idle →
      (iteration p.cin).1 = none → Step p .skip { p with cin := (iteration p.cin).2 }
  | read {p : Programs κ} {command : Command} {client : Client κ} : p.cin.eofbit = false →
      (iteration p.cin).1 = some (netCommand command) →
      ClientQueue.Step queue cfg me p.client
        (.enqueue (netCommand command).serializeAsString) client →
      Step p (.read command)
        { p with cin := (iteration p.cin).2, entering := some command, client := client }
  | insert {p : Programs κ} {command : Command} {client : Client κ} :
      p.entering = some command → ClientQueue.Step queue cfg me p.client .insert client →
      Step p .insert
        { p with entering := none, client := client, commands := p.commands ++ [command] }
  | refuse {p : Programs κ} {client : Client κ} :
      ClientQueue.Step queue cfg me p.client (.inside (.refuse .main)) client →
      Step p .refuse { p with entering := none, client := client }
  | queue {p : Programs κ} {event : ClientQueue.Event} {client : Client κ} : event.AtQueue →
      ClientQueue.Step queue cfg me p.client event client →
      Step p (.queue event) { p with client := client }
  | rx {p : Programs κ} {client : Client κ} :
      ClientQueue.Step queue cfg me p.client (.op .rx) client →
      Step p .rx { p with client := client }
  | receive {p : Programs κ} {a : Answer} {client : Client κ} :
      ClientQueue.Step queue cfg me p.client (.op (.receive a)) client →
      Step p (.receive a) { p with client := client }
  | tx {p : Programs κ} {client : Client κ} :
      ClientQueue.Step queue cfg me p.client (.op .tx) client →
      Step p .tx { p with client := client }
  | deliver {p : Programs κ} {d : Sent} {command : Command} {a : Arrival} :
      d ∈ p.client.system.sent → p.commands[d.callback]? = some command →
      a.bytes = d.request.serializeAsString →
      Step p (.deliver d)
        { p with server := p.server.arrive [a], delivered := p.delivered ++ [(d, command)] }
  | server {p : Programs κ} {thread : ServerPipeline.Thread} {server : Threads} :
      Access cfg NetRequest.parseFromString NetCommand.parseFromString p.server thread server →
      Step p (.server thread) { p with server := server }
  | answer {p : Programs κ} {n : ℕ} {r : Reply} {x : Sent × Command} :
      p.server.sent[n]? = some r → p.delivered[n]? = some x →
      r.address = cText (me.addr.take 16) → r.port = me.port →
      Step p (.answer n)
        { p with client := { p.client with system := { p.client.system with
          answers := ⟨x.1.callback, r.payload⟩ :: p.client.system.answers } } }

/-- The client keeps its numbers apart. -/
def Proper (p : Programs κ) : Event → Prop
  | .rx => KeepsNumbers p.client.system .rx
  | .tx => KeepsNumbers p.client.system .tx
  | _ => True

/-- A proper step. -/
def ProperStep (p : Programs κ) (event : Event) (p' : Programs κ) : Prop :=
  Proper p event ∧ Step queue cfg me p event p'

end Steps

/-- The client over a list, and the server. -/
def Programs.world {κ : Type*} (items : κ → List ClientRequest) (p : Programs κ) : World :=
  ⟨p.client.view items, p.server, p.commands, p.delivered⟩

/-- The commands that are enqueued, about to be, or still to be read. -/
def Programs.awaited {κ : Type*} (p : Programs κ) : List Command :=
  p.commands ++ p.entering.toList ++ commandsOf (words isSpace p.cin.rest)

/-- What every step keeps. -/
structure Kept {κ : Type*} (queue : ConcurrentQueue κ ClientRequest) (maxSpins : ℕ)
    (input : Bytes) (p : Programs κ) : Prop where
  /-- The client at its queue. -/
  client : ClientQueue.Sound queue maxSpins p.client
  /-- The thread that `main` of the client runs in puts in the message of its command. -/
  entering : putting (p.client.queue.threads .main) = p.entering.map fun command =>
    [⟨(netCommand command).serializeAsString, p.client.system.enqueued⟩]
  /-- The commands are those of the input, in order, without those that were refused. -/
  awaited : p.awaited.Sublist (commandsOf (words isSpace input))

section Simulation

variable {κ : Type*} {queue : ConcurrentQueue κ ClientRequest} {items : κ → List ClientRequest}
  {cfg : Config} {me : Endpoint} {maxSpins : ℕ} {input : Bytes} {p p' : Programs κ} {event : Event}

/-- A thread that is in no call puts in no command. -/
theorem Kept.entering_eq_none (h : Kept queue maxSpins input p)
    (hidle : p.client.queue.threads .main = .idle) : p.entering = none := by
  have hentering := h.entering
  rw [hidle] at hentering
  exact Option.map_eq_none_iff.mp hentering.symm

/-- No step changes which commands are awaited, unless it is that one is refused. -/
theorem Kept.awaited_of_step (h : Kept queue maxSpins input p)
    (hs : Step queue cfg me p event p') :
    p'.awaited = p.awaited ∨ event = .refuse ∧ p'.awaited.Sublist p.awaited := by
  unfold Programs.awaited
  cases hs with
  | skip _ _ hnone =>
    refine .inl ?_
    rw [commandsOf_of_iteration none hnone]
    rfl
  | @read command _ _ hsome hs =>
    refine .inl ?_
    cases hs with
    | enqueue hs =>
      cases hs with
      | enqueue _ hidle =>
        rw [commandsOf_of_iteration (some command) hsome, h.entering_eq_none hidle]
        simp
  | insert hentering _ =>
    refine .inl ?_
    dsimp only
    rw [hentering]
    simp
  | refuse _ =>
    refine .inr ⟨rfl, ?_⟩
    exact ((List.nil_sublist _).append_left _).append_right _
  | queue _ _ => exact .inl rfl
  | rx _ => exact .inl rfl
  | receive _ => exact .inl rfl
  | tx _ => exact .inl rfl
  | deliver _ _ _ => exact .inl rfl
  | server _ => exact .inl rfl
  | answer _ _ _ _ => exact .inl rfl

/-- A command that is about to be put in is within the limits when those of the input are. -/
theorem Kept.withinLimits (h : Kept queue maxSpins input p)
    (hinput : ∀ command ∈ commandsOf (words isSpace input), WithinLimits cfg command)
    {command : Command} (hentering : p.entering = some command) : WithinLimits cfg command := by
  refine hinput command (h.awaited.subset ?_)
  unfold Programs.awaited
  rw [hentering]
  simp

/-- The client takes steps at its queue and none else. -/
theorem client_of_step (hs : Step queue cfg me p event p') :
    p'.client.queue = p.client.queue ∧
        (∃ answers, p'.client.system = { p.client.system with answers := answers }) ∨
      ∃ event, ClientQueue.Step queue cfg me p.client event p'.client := by
  cases hs with
  | skip _ _ _ => exact .inl ⟨rfl, _, rfl⟩
  | deliver _ _ _ => exact .inl ⟨rfl, _, rfl⟩
  | server _ => exact .inl ⟨rfl, _, rfl⟩
  | answer _ _ _ _ => exact .inl ⟨rfl, _, rfl⟩
  | read _ _ hs => exact .inr ⟨_, hs⟩
  | insert _ hs => exact .inr ⟨_, hs⟩
  | refuse hs => exact .inr ⟨_, hs⟩
  | queue _ hs => exact .inr ⟨_, hs⟩
  | rx hs => exact .inr ⟨_, hs⟩
  | receive hs => exact .inr ⟨_, hs⟩
  | tx hs => exact .inr ⟨_, hs⟩

/-- The thread that `main` of the client runs in puts in the message of its command
after every step. -/
theorem Kept.entering_of_step (h : Kept queue maxSpins input p) (hqueue : Ordered queue items)
    (hs : Step queue cfg me p event p') :
    putting (p'.client.queue.threads .main) = p'.entering.map fun command =>
      [⟨(netCommand command).serializeAsString, p'.client.system.enqueued⟩] := by
  have hkept := h.client.toKept
  have hop : ∀ {op : ClientThreads.Op} {client : Client κ},
      ClientQueue.Step queue cfg me p.client (.op op) client →
      putting (client.queue.threads .main) = p.entering.map fun command =>
        [⟨(netCommand command).serializeAsString, client.system.enqueued⟩] := by
    intro op client hs
    obtain ⟨hsame, henqueued⟩ := hkept.enqueued_of_op hs
    rw [hsame, henqueued]
    exact h.entering
  cases hs with
  | skip _ _ _ => exact h.entering
  | @read _ client _ _ hs =>
    obtain ⟨_, _, hsystem, hmain⟩ :
        _ ∧ client.view items = p.client.view items ∧ client.system = _ ∧ _ := hkept.enqueue hs
    dsimp only
    rw [hmain, hsystem]
    rfl
  | insert _ hs =>
    obtain ⟨_, _, _, hmain, _⟩ := hkept.insert hqueue hs
    dsimp only
    rw [hmain]
    rfl
  | refuse hs =>
    cases hs with
    | inside _ hs =>
      cases hs with
      | refuse _ =>
        dsimp only
        rw [UtilBlockingConcurrentQueue.System.go_self]
        rfl
  | queue hat hs =>
    obtain ⟨hputting, henqueued⟩ := putting_of_atQueue hat hs
    dsimp only
    rw [hputting, henqueued]
    exact h.entering
  | rx hs => exact hop hs
  | receive hs => exact hop hs
  | tx hs => exact hop hs
  | deliver _ _ _ => exact h.entering
  | server _ => exact h.entering
  | answer _ _ _ _ => exact h.entering

/-- A proper step keeps all this. -/
theorem Kept.step (h : Kept queue maxSpins input p) (hqueue : Ordered queue items)
    (hs : Step queue cfg me p event p') : Kept queue maxSpins input p' := by
  refine ⟨?_, h.entering_of_step hqueue hs, ?_⟩
  · rcases client_of_step hs with ⟨hsame, answers, hsystem⟩ | ⟨_, hs⟩
    · have hclient : p'.client = ⟨{ p.client.system with answers := answers }, p.client.queue⟩ := by
        rw [← hsystem, ← hsame]
      rw [hclient]
      exact { h.client with }
    · exact h.client.step hqueue hs
  · rcases h.awaited_of_step hs with hsame | ⟨_, hfewer⟩
    · exact hsame ▸ h.awaited
    · exact hfewer.trans h.awaited

/-- Over the list nothing has happened, or one proper step has been taken. -/
def Seen (cfg : Config) (me : Endpoint) (w w' : World) : Prop :=
  w' = w ∨ ∃ event, ClientServer.ProperStep cfg me w event w'

/-- When the queue alone changes, a request may have been taken out of the list. -/
theorem seen_of_client {client : Client κ} (hview : client.view items = p.client.view items ∨
      (p.client.view items).tx = .waiting ∧
        ClientThreads.Step cfg me (p.client.view items) .tx (client.view items)) :
    Seen cfg me (p.world items) ({ p with client := client }.world items) := by
  rcases hview with hsame | ⟨hwaiting, hs⟩
  · refine .inl ?_
    unfold Programs.world
    dsimp only
    rw [hsame]
  · refine .inr ⟨.tx, ?_, .tx hs⟩
    intro req htx
    cases hwaiting.symm.trans htx

/-- A proper step is at most one proper step over the list. -/
theorem Kept.seen_of_step (h : Kept queue maxSpins input p) (hqueue : Ordered queue items)
    (hinput : ∀ command ∈ commandsOf (words isSpace input), WithinLimits cfg command)
    (hs : ProperStep queue cfg me p event p') :
    Seen cfg me (p.world items) (p'.world items) := by
  obtain ⟨hproper, hs⟩ := hs
  have hkept := h.client.toKept
  cases hs with
  | skip _ _ _ => exact .inl rfl
  | read _ _ hs => exact seen_of_client (.inl (hkept.enqueue hs).2.1)
  | @insert command client hentering hs =>
    obtain ⟨_, body, hmain, _, hstep⟩ := hkept.insert hqueue hs
    have hbody := h.entering
    rw [hmain, hentering] at hbody
    cases hbody
    exact .inr ⟨.enqueue command, h.withinLimits hinput hentering, .enqueue hstep⟩
  | refuse hs =>
    cases hs with
    | inside hlabel hs => exact seen_of_client (hkept.inside hqueue hlabel hs).2
  | queue hat hs => exact seen_of_client (hkept.view_of_atQueue hqueue hat hs)
  | rx hs =>
    cases hs with
    | op henqueue hs => exact .inr ⟨.rx, hproper, .rx (hkept.op henqueue hs).2⟩
  | receive hs =>
    cases hs with
    | op henqueue hs => exact .inr ⟨.receive _, trivial, .receive (hkept.op henqueue hs).2⟩
  | tx hs =>
    cases hs with
    | op henqueue hs =>
      refine .inr ⟨.tx, fun req htx => ?_, .tx (hkept.op henqueue hs).2⟩
      have hsame : (p.client.view items).tx = p.client.system.tx :=
        hkept.view_tx (ne_waiting_of_initNetTx hkept.cq hs)
      exact hproper req (hsame.symm.trans htx)
  | deliver hd hcommand ha => exact .inr ⟨.deliver _, trivial, .deliver hd hcommand ha⟩
  | server haccess => exact .inr ⟨.server _, trivial, .server haccess⟩
  | answer hr hx haddress hport => exact .inr ⟨.answer _, trivial, .answer hr hx haddress hport⟩

variable {history : List Event}

/-- Proper steps keep all this and show as proper steps over the list, and no command
gets lost unless one is refused. -/
theorem Kept.run (h : Kept queue maxSpins input p) (hqueue : Ordered queue items)
    (hinput : ∀ command ∈ commandsOf (words isSpace input), WithinLimits cfg command)
    (hr : Run (ProperStep queue cfg me) p history p') :
    Kept queue maxSpins input p' ∧
      ((∀ event ∈ history, event ≠ .refuse) → p'.awaited = p.awaited) ∧
      ∃ history', Run (ClientServer.ProperStep cfg me) (p.world items) history'
        (p'.world items) := by
  induction hr with
  | start => exact ⟨h, fun _ => rfl, [], .start⟩
  | next _ hs ih =>
    obtain ⟨hkept, hawaited, history', hview⟩ := ih
    refine ⟨hkept.step hqueue hs.2, fun hnone => ?_, ?_⟩
    · rw [List.forall_mem_cons] at hnone
      rcases hkept.awaited_of_step hs.2 with hsame | ⟨hrefuse, _⟩
      · exact hsame.trans (hawaited hnone.2)
      · exact absurd hrefuse hnone.1
    · rcases hkept.seen_of_step hqueue hinput hs with hsame | ⟨_, hs⟩
      · exact ⟨history', hsame ▸ hview⟩
      · exact ⟨_, hview.next hs⟩

variable {sema : Bool} {nil : RequestContext} {msgBuff : Bytes} {inner : κ}

/-- Before the first steps. -/
theorem kept_start (cfg : Config) (sema : Bool) (nil : RequestContext) (msgBuff : Bytes)
    (hqueue : Ordered queue items) (hempty : items inner = []) (maxSpins : ℕ) (input : Bytes) :
    Kept queue maxSpins input (.start cfg sema nil msgBuff inner maxSpins input) :=
  ⟨ClientQueue.sound_start hqueue msgBuff hempty maxSpins, rfl, .refl _⟩

/-- Before the first steps, nothing has happened over the list. -/
theorem world_start (cfg : Config) (sema : Bool) (nil : RequestContext) (msgBuff : Bytes)
    (hempty : items inner = []) (maxSpins : ℕ) (input : Bytes) :
    (Programs.start cfg sema nil msgBuff inner maxSpins input).world items =
      World.start cfg sema nil msgBuff := by
  unfold Programs.world Programs.start Client.view Client.start
    UtilBlockingConcurrentQueue.System.start
  dsimp only
  rw [hempty]
  rfl

/-- In proper steps, with a flag for the store to raise and an input whose commands are
within the limits: whatever the order in which all threads of both programs access
their queues and the network delivers, loses and duplicates datagrams, the server never
faults, the commands enqueued and still to come are those that the words of the input
stand for, if none is refused, and no callback is called twice, but each with the reply
of the reference map to its own command. -/
theorem input_gets_map_answers (hqueue : Ordered queue items) (hempty : items inner = [])
    (haddr : me.addr.length = 16) (hsmall : cfg.keyMaxsize.toNat+cfg.valMaxsize.toNat+100 < 2 ^ 31)
    (hinput : ∀ command ∈ commandsOf (words isSpace input), WithinLimits cfg command)
    (hr : Run (ProperStep queue cfg me) (.start cfg sema nil msgBuff inner maxSpins input)
      history p) :
    ¬ p.server.Faults cfg NetRequest.parseFromString NetCommand.parseFromString ∧
      p.awaited.Sublist (commandsOf (words isSpace input)) ∧
      ((∀ event ∈ history, event ≠ .refuse) → p.awaited = commandsOf (words isSpace input)) ∧
      (p.client.system.invoked.map Invocation.callback).Nodup ∧
      ∀ i ∈ p.client.system.invoked, ∃ n x, p.delivered[n]? = some x ∧
        x.1.callback = i.callback ∧ p.commands[i.callback]? = some x.2 ∧
        i.message = replyTo cfg.memtableSize p.delivered n x := by
  have hcfg : cfg.Fits := by unfold Config.Fits; omega
  have hstart := kept_start cfg sema nil msgBuff hqueue hempty maxSpins input
  obtain ⟨hkept, hawaited, history', hview⟩ := hstart.run hqueue hinput hr
  rw [world_start cfg sema nil msgBuff hempty maxSpins input] at hview
  obtain ⟨hserver, hcalled⟩ :=
    (ClientServer.consistent_of_run haddr hsmall hview).answered hcfg
  exact ⟨hserver, hkept.awaited, hawaited, hcalled⟩

end Simulation

section Written

/-- The input of the client. -/
def writeInput : Bytes := ascii "WRITE" ++ [32, 1, 32, 2]

/-- It stands for one write. -/
theorem commandsOf_writeInput : commandsOf (words isSpace writeInput) = [.write [1] [2]] := rfl

/-- The write is within the limits. -/
theorem withinLimits_writeInput :
    ∀ command ∈ commandsOf (words isSpace writeInput), WithinLimits hostConfig command := by
  rw [commandsOf_writeInput, List.forall_mem_singleton]
  unfold WithinLimits
  decide

/-- The client has sent the write that it read. -/
theorem exists_writing : ∃ history p,
    Run (ProperStep (listQueue ClientRequest) hostConfig somewhere)
      (.start hostConfig false unused [] [] 0 writeInput) history p ∧
    p.client.system = writing ∧
    p.server = Threads.start unused (memtableStart hostConfig (some false)) [] ∧
    p.commands = [.write [1] [2]] ∧ p.delivered = [] := by
  let req : ClientRequest := ⟨(netCommand (.write [1] [2])).serializeAsString, 0⟩
  have hr : Run (ProperStep (listQueue ClientRequest) hostConfig somewhere)
      (.start hostConfig false unused [] [] 0 writeInput) [] _ := .start
  have hr := hr.next (a := Event.rx) ⟨fun _ => rfl, .rx (.op nofun rfl)⟩
  have hr := hr.next (a := Event.read (.write [1] [2]))
    ⟨trivial, .read rfl rfl (.enqueue (.enqueue _ rfl))⟩
  have hr := hr.next (a := Event.insert) ⟨trivial, .insert rfl (.insert (.insert rfl rfl))⟩
  have hr := hr.next (a := Event.queue (.inside (.access .main true)))
    ⟨trivial, .queue nofun (.inside trivial (.signal rfl rfl))⟩
  have hr := hr.next (a := Event.queue .waitDequeue)
    ⟨trivial, .queue trivial (.waitDequeue rfl (.taking _ rfl))⟩
  have hr := hr.next (a := Event.queue (.inside (.access .tx true)))
    ⟨trivial, .queue nofun (.inside trivial (.wait rfl rfl))⟩
  have hr := hr.next (a := Event.queue (.inside (.access .tx true)))
    ⟨trivial, .queue nofun (.inside trivial (.wait rfl rfl))⟩
  have hr := hr.next (a := Event.queue (.inside (.back .tx 1)))
    ⟨trivial, .queue nofun (.inside trivial (.waited rfl))⟩
  have hr := hr.next (a := Event.queue (.inside (.take .tx req)))
    ⟨trivial, .queue nofun (.inside trivial (.take rfl rfl))⟩
  have hr := hr.next (a := Event.queue (.dequeued req))
    ⟨trivial, .queue trivial (.dequeued (.ret rfl))⟩
  have hr := hr.next (a := Event.tx) ⟨fun _ _ => Nat.zero_lt_succ _, .tx (.op nofun rfl)⟩
  have hr := hr.next (a := Event.tx) ⟨fun _ h => TxAt.noConfusion h, .tx (.op nofun rfl)⟩
  have hr := hr.next (a := Event.tx) ⟨fun _ h => TxAt.noConfusion h, .tx (.op nofun rfl)⟩
  exact ⟨_, _, hr, rfl, rfl, rfl, rfl⟩

/-- A run of the server is a run of both programs. -/
theorem run_server {κ : Type*} {queue : ConcurrentQueue κ ClientRequest} {cfg : Config}
    {me : Endpoint} {p : Programs κ} {history : List ServerPipeline.Thread} {server : Threads}
    (hr : Run (Access cfg NetRequest.parseFromString NetCommand.parseFromString) p.server history
      server) :
    Run (ProperStep queue cfg me) p (history.map Event.server) { p with server := server } := by
  induction hr with
  | start => exact .start
  | next _ hs ih => exact ih.next ⟨trivial, .server hs⟩

/-- The callback of the write that the client read is called with the reply to it. -/
theorem input_gets_map_answers_write :
    ∃ history p, Run (ProperStep (listQueue ClientRequest) hostConfig somewhere)
        (.start hostConfig false unused [] [] 0 writeInput) history p ∧
      p.client.system.invoked = [⟨0, reply 0 (ascii "WRITE_PASS")⟩] ∧
      p.awaited.Sublist (commandsOf (words isSpace writeInput)) ∧
      ∀ i ∈ p.client.system.invoked, ∃ n x, p.delivered[n]? = some x ∧
        x.1.callback = i.callback ∧ p.commands[i.callback]? = some x.2 ∧
        i.message = replyTo hostConfig.memtableSize p.delivered n x := by
  have hsmall : hostConfig.keyMaxsize.toNat+hostConfig.valMaxsize.toNat+100 < 2 ^ 31 := by decide
  have haddr : somewhere.addr.length = 16 := by decide
  have hqueue := ClientQueue.ordered_listQueue ClientRequest
  obtain ⟨history, ⟨cin, entering, ⟨system, inner⟩, server, commands, delivered⟩, hr, hsystem,
    hserver, hcommands, hdelivered⟩ := exists_writing
  dsimp only at hsystem hserver hcommands hdelivered
  subst hsystem hserver hcommands hdelivered
  have hr := hr.next (a := Event.deliver written)
    ⟨trivial, .deliver (a := ⟨written.request.serializeAsString, fun _ => 0, fun _ => 0, 0, 0⟩)
      (List.mem_singleton_self _) rfl rfl⟩
  have hstart : Kept (listQueue ClientRequest) 0 writeInput _ :=
    kept_start hostConfig false unused [] hqueue rfl 0 writeInput
  obtain ⟨_, _, _, hview⟩ := hstart.run hqueue withinLimits_writeInput hr
  rw [world_start hostConfig false unused [] rfl 0 writeInput] at hview
  obtain ⟨as, earlier, hserver, has⟩ := (ClientServer.consistent_of_run haddr hsmall hview).served
  obtain ⟨more, server, hmore, hsent⟩ := exists_sent_all hostConfig_fits false unused has hserver
  have hr := hr.append (run_server hmore)
  have hreply : server.sent[0]? = some ⟨cText (somewhere.addr.take 16), somewhere.port,
      reply 0 (ascii "WRITE_PASS")⟩ := by
    rw [hsent]
    rfl
  have hr := hr.next (a := Event.answer 0) ⟨trivial, .answer hreply rfl rfl rfl⟩
  have hr := hr.next (a := Event.receive ⟨0, reply 0 (ascii "WRITE_PASS")⟩)
    ⟨trivial, .receive (.op nofun rfl)⟩
  have hr := hr.next (a := Event.rx) ⟨fun h => RxAt.noConfusion h, .rx (.op nofun rfl)⟩
  have hr := hr.next (a := Event.rx) ⟨fun h => RxAt.noConfusion h, .rx (.op nofun rfl)⟩
  obtain ⟨_, hawaited, _, _, hcalled⟩ :=
    input_gets_map_answers hqueue rfl haddr hsmall withinLimits_writeInput hr
  exact ⟨_, _, hr, rfl, hawaited, hcalled⟩

end Written

end CapsuleDB.EndToEnd

import CapsuleDB.ClientServerProgress
import CapsuleDB.EndToEnd

/-!
# All commands of the input can be answered

The client reads its input to the end, every command gets through the queue, and
from there on the two programs go on as over a list of requests, until every
callback is called.
-/

namespace CapsuleDB.EndToEnd

open EnclaveMemTable (Bytes)
open LabelledRun DecimalPrefix ServerStages ServerReference ServerQueues Words
open ClientInput
open ClientThreads (ClientRequest Endpoint)
open ClientDispatch (KeepsNumbers somewhere)
open ClientQueue (Client Ordered eq_enqueue_of_putting ne_waiting_of_initNetTx)
open ClientServer (World WithinLimits commands_prefix_of_run live_start netCommand)
open UtilBlockingConcurrentQueue (ConcurrentQueue listQueue)

section Progress

variable {κ : Type*} {queue : ConcurrentQueue κ ClientRequest} {items : κ → List ClientRequest}
  {cfg : Config} {me : Endpoint} {maxSpins : ℕ} {input : Bytes} {p : Programs κ}

/-- Proper steps in which no command is refused lead from one state to another, where
`main` of the client is in no call. -/
structure Onward (queue : ConcurrentQueue κ ClientRequest) (cfg : Config) (me : Endpoint)
    (p p' : Programs κ) : Prop where
  /-- The steps. -/
  run : ∃ more, Run (ProperStep queue cfg me) p more p' ∧ ∀ event ∈ more, event ≠ .refuse
  /-- The thread that `main` runs in. -/
  idle : p'.client.queue.threads .main = .idle

/-- No steps. -/
theorem Onward.refl (hidle : p.client.queue.threads .main = .idle) : Onward queue cfg me p p :=
  ⟨⟨[], .start, nofun⟩, hidle⟩

/-- Some steps before. -/
theorem Onward.after {p' p'' : Programs κ} {more : List Event} (h : Onward queue cfg me p' p'')
    (hr : Run (ProperStep queue cfg me) p more p') (hnone : ∀ event ∈ more, event ≠ .refuse) :
    Onward queue cfg me p p'' := by
  obtain ⟨later, hlater, hnone'⟩ := h.run
  refine ⟨⟨_, hr.append hlater, fun event hevent => ?_⟩, h.idle⟩
  rcases List.mem_append.mp hevent with hevent | hevent
  · exact hnone' event hevent
  · exact hnone event hevent

/-- Some steps and then some more. -/
theorem Onward.trans {p' p'' : Programs κ} (h : Onward queue cfg me p p')
    (h' : Onward queue cfg me p' p'') : Onward queue cfg me p p'' := by
  obtain ⟨more, hr, hnone⟩ := h.run
  exact h'.after hr hnone

/-- One step before. -/
theorem Onward.head {p' p'' : Programs κ} {event : Event} (hs : ProperStep queue cfg me p event p')
    (hevent : event ≠ .refuse) (h : Onward queue cfg me p' p'') : Onward queue cfg me p p'' :=
  h.after (Run.start.next hs) (List.forall_mem_singleton.mpr hevent)

/-- One step. -/
theorem Onward.single {p' : Programs κ} {event : Event} (hs : ProperStep queue cfg me p event p')
    (hevent : event ≠ .refuse) (hidle : p'.client.queue.threads .main = .idle) :
    Onward queue cfg me p p' := .head hs hevent (.refl hidle)

/-- Steps that only the queue takes part in. -/
theorem onward_queue {more : List ClientQueue.Event} {client : Client κ}
    (hr : Run (ClientQueue.Step queue cfg me) p.client more client)
    (hmore : ∀ event ∈ more, event.AtQueue) (hidle : client.queue.threads .main = .idle) :
    Onward queue cfg me p { p with client := client } := by
  refine ⟨⟨more.map Event.queue, ?_, fun event hevent => ?_⟩, hidle⟩
  · clear hidle
    induction hr with
    | start => exact .start
    | next _ hs ih =>
      rw [List.forall_mem_cons] at hmore
      exact (ih hmore.2).next ⟨trivial, .queue hmore.1 hs⟩
  · obtain ⟨_, _, rfl⟩ := List.mem_map.mp hevent
    exact nofun

/-- What every step keeps holds there. -/
theorem Onward.kept {p' : Programs κ} (h : Onward queue cfg me p p')
    (hkept : Kept queue maxSpins input p) (hqueue : Ordered queue items) :
    Kept queue maxSpins input p' := by
  obtain ⟨more, hr, _⟩ := h.run
  refine Run.invariant (I := fun _ p => Kept queue maxSpins input p) hkept ?_ hr
  intro _ p event p' _ hkept hs
  exact hkept.step hqueue hs.2

/-- While `main` of the client is in no call, the programs can go on as over the list,
where nothing is enqueued. -/
theorem Kept.exists_step (h : Kept queue maxSpins input p) (hqueue : Ordered queue items)
    (hidle : p.client.queue.threads .main = .idle) {event : ClientServer.Event} {w : World}
    (hs : ClientServer.ProperStep cfg me (p.world items) event w)
    (hcommands : w.commands = p.commands) :
    ∃ p', Onward queue cfg me p p' ∧ p'.world items = w ∧ p'.cin = p.cin := by
  obtain ⟨hproper, hs⟩ := hs
  cases hs with
  | enqueue _ =>
    have hlength := congrArg List.length hcommands
    rw [List.length_append] at hlength
    exact absurd hlength (Nat.succ_ne_self _)
  | rx hs =>
    obtain ⟨system, hstep, rfl⟩ :=
      ClientQueue.exists_op cfg me (c := p.client) hs nofun nofun
    have hs : ProperStep queue cfg me p .rx _ := ⟨hproper, .rx (.op nofun hstep)⟩
    exact ⟨_, .single hs nofun hidle, rfl, rfl⟩
  | @receive a _ hs =>
    obtain ⟨system, hstep, rfl⟩ :=
      ClientQueue.exists_op cfg me (c := p.client) hs nofun nofun
    have hs : ProperStep queue cfg me p (.receive a) _ := ⟨trivial, .receive (.op nofun hstep)⟩
    exact ⟨_, .single hs nofun hidle, rfl, rfl⟩
  | tx hs =>
    obtain ⟨more, client, hr, hmore, hidle, hview⟩ :=
      h.client.exists_tx cfg me hqueue hidle hs
    have honward := onward_queue hr hmore hidle
    rcases hview with rfl | ⟨hsame, system, hstep, rfl⟩
    · exact ⟨_, honward, rfl, rfl⟩
    · have hkept := (honward.kept h hqueue).client.toKept
      have hview : (client.view items).tx = client.system.tx :=
        hkept.view_tx (ne_waiting_of_initNetTx hkept.cq hstep)
      have hkeep : KeepsNumbers (client.view items) .tx := hsame ▸ hproper
      have hs : ProperStep queue cfg me { p with client := client } .tx _ :=
        ⟨fun req htx => hkeep req (hview.trans htx), .tx (.op nofun hstep)⟩
      exact ⟨_, honward.trans (.single hs nofun hidle), rfl, rfl⟩
  | deliver hd hcommand ha =>
    have hs : ProperStep queue cfg me p (.deliver _) _ := ⟨trivial, .deliver hd hcommand ha⟩
    exact ⟨_, .single hs nofun hidle, rfl, rfl⟩
  | server haccess =>
    have hs : ProperStep queue cfg me p (.server _) _ := ⟨trivial, .server haccess⟩
    exact ⟨_, .single hs nofun hidle, rfl, rfl⟩
  | answer hr hx haddress hport =>
    have hs : ProperStep queue cfg me p (.answer _) _ :=
      ⟨trivial, .answer hr hx haddress hport⟩
    exact ⟨_, .single hs nofun hidle, rfl, rfl⟩

/-- While `main` of the client is in no call, the programs can go on as over the list
for as long as nothing is enqueued there. -/
theorem Kept.exists_run (h : Kept queue maxSpins input p) (hqueue : Ordered queue items)
    (hidle : p.client.queue.threads .main = .idle) {more : List ClientServer.Event} {w : World}
    (hr : Run (ClientServer.ProperStep cfg me) (p.world items) more w)
    (hcommands : w.commands = p.commands) :
    ∃ p', Onward queue cfg me p p' ∧ p'.world items = w ∧ p'.cin = p.cin := by
  induction hr with
  | start => exact ⟨p, .refl hidle, rfl, rfl⟩
  | @next more w w' event hr hs ih =>
    -- nothing was enqueued before this step either
    have hlast := commands_prefix_of_run (Run.start.next hs)
    have hearlier : w.commands = p.commands :=
      (hcommands ▸ hlast).sublist.antisymm (commands_prefix_of_run hr).sublist
    obtain ⟨p₁, honward₁, rfl, hcin₁⟩ := ih hearlier
    obtain ⟨p₂, honward₂, hview₂, hcin₂⟩ := (honward₁.kept h hqueue).exists_step hqueue
      honward₁.idle hs (hcommands.trans hearlier.symm)
    exact ⟨p₂, honward₁.trans honward₂, hview₂, hcin₂.trans hcin₁⟩

/-- `main` of the client finishes its call, while the receiving thread and the input stay
as they are. -/
structure Returns (queue : ConcurrentQueue κ ClientRequest) (cfg : Config) (me : Endpoint)
    (p p' : Programs κ) : Prop extends Onward queue cfg me p p' where
  /-- The input. -/
  cin : p'.cin = p.cin
  /-- The receiving thread. -/
  rx : p'.client.system.rx = p.client.system.rx

/-- Behind the queue inside, `main` of the client can finish its call. -/
theorem Kept.exists_returns_of_none (h : Kept queue maxSpins input p)
    (hnone : p.entering = none) : ∃ p', Returns queue cfg me p p' := by
  have hmain := h.entering
  rw [hnone] at hmain
  obtain ⟨more, client, hr, hmore, hidle, hsystem⟩ := h.client.exists_main_idle cfg me hmain
  exact ⟨_, { onward_queue hr hmore hidle with
    cin := rfl, rx := congrArg ClientThreads.System.rx hsystem }⟩

/-- When the queue inside takes every request, `main` of the client can finish its call. -/
theorem Kept.exists_returns (h : Kept queue maxSpins input p) (hqueue : Ordered queue items)
    (hspace : ∀ inner reqs, ∃ inner', queue.Enqueue inner reqs inner') :
    ∃ p', Returns queue cfg me p p' := by
  cases hentering : p.entering with
  | none => exact h.exists_returns_of_none hentering
  | some command =>
    have hmain := h.entering
    rw [hentering] at hmain
    obtain ⟨inner, hinner⟩ := hspace p.client.queue.inner
      [⟨(netCommand command).serializeAsString, p.client.system.enqueued⟩]
    have hs : ProperStep queue cfg me p .insert _ :=
      ⟨trivial, .insert hentering (.insert (.insert (eq_enqueue_of_putting hmain) hinner))⟩
    obtain ⟨p', hreturns⟩ := (h.step hqueue hs.2).exists_returns_of_none rfl
    exact ⟨p', { hreturns.toOnward.head hs nofun with cin := hreturns.cin, rx := hreturns.rx }⟩

/-- Between two calls, `main` of the client can read the input to its end. -/
theorem Kept.exists_read (h : Kept queue maxSpins input p) (hqueue : Ordered queue items)
    (hspace : ∀ inner reqs, ∃ inner', queue.Enqueue inner reqs inner')
    (hidle : p.client.queue.threads .main = .idle) :
    ∃ p', Onward queue cfg me p p' ∧ p'.cin.eofbit = true ∧
      p'.client.system.rx = p.client.system.rx := by
  -- on what the input has left
  induction hleft : p.cin.left using Nat.strong_induction_on generalizing p with
  | _ left ih =>
  subst hleft
  cases heof : p.cin.eofbit with
  | true => exact ⟨p, .refl hidle, heof, rfl⟩
  | false =>
    have hless := left_iteration_lt heof
    obtain ⟨command, hmessage, _⟩ := exists_iteration p.cin
    cases command with
    | none =>
      have hs : ProperStep queue cfg me p .skip _ := ⟨trivial, .skip heof hidle hmessage⟩
      obtain ⟨p', honward, hend, hrx⟩ := ih _ hless (h.step hqueue hs.2) hidle rfl
      exact ⟨p', honward.head hs nofun, hend, hrx⟩
    | some command =>
      have hs : ProperStep queue cfg me p (.read command) _ :=
        ⟨trivial, .read heof hmessage (.enqueue (.enqueue _ hidle))⟩
      have hkept := h.step hqueue hs.2
      obtain ⟨p₁, hreturns⟩ : ∃ p₁, Returns queue cfg me _ p₁ :=
        hkept.exists_returns hqueue hspace
      have hless₁ : p₁.cin.left < p.cin.left := by
        rw [hreturns.cin]
        exact hless
      obtain ⟨p', honward, hend, hrx⟩ :=
        ih _ hless₁ (hreturns.kept hkept hqueue) hreturns.idle rfl
      exact ⟨p', (hreturns.toOnward.trans honward).head hs nofun, hend,
        hrx.trans hreturns.rx⟩

/-- At the end of the input, no command is awaited but those that were enqueued. -/
theorem Kept.awaited_eq_commands (h : Kept queue maxSpins input p)
    (hidle : p.client.queue.threads .main = .idle) (hend : p.cin.eofbit = true) :
    p.awaited = p.commands := by
  unfold Programs.awaited
  rw [h.entering_eq_none hidle, p.cin.ended hend]
  exact (List.append_nil _).trans (List.append_nil _)

variable {sema : Bool} {nil : RequestContext} {msgBuff : Bytes} {inner : κ} {history : List Event}

end Progress

section Written

end Written

end CapsuleDB.EndToEnd

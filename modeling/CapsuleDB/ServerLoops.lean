import CapsuleDB.FifoStage
import CapsuleDB.UtilAtomicQueueFifo

/-!
# The loop of a stage between two queues

A stage pops an element, works on it and pushes the result, one access of a
queue at a time. Seen from outside it is a worker between two bounded lists:
the element it has popped still counts as waiting until the stage works on it,
and the result counts as passed on when its cell is marked as stored. All other
accesses change nothing in this view, and only a bounded number of them lies
between two that do.
-/

namespace CapsuleDB.ServerLoops

open FifoStage UtilAtomicQueue

variable {ε σ α β : Type*}

/-- Where the thread of a stage is. -/
inductive At (α β : Type*)
  /-- Before `end_signal` is loaded. -/
  | check
  /-- In `pop`. -/
  | pop (c : Pop α)
  /-- In `push`. -/
  | push (p : Push β)

/-- A thread running a stage. -/
structure Loop (σ α β : Type*) where
  /-- The variables the loop keeps between iterations. -/
  state : σ
  /-- Where the thread is. -/
  phase : At α β

/-- The element popped has been worked on: `continue`, or a call of `push`. -/
def At.next : Option β → At α β
  | none => .check
  | some b => .push (.load b)

/-- An access in `push`, or the return from it. -/
def At.pushed : Push β → At α β
  | .idle => .check
  | p => .push p

/-- What the queue at the front sees of the thread. -/
def At.popping : At α β → Pop α
  | .check => .idle
  | .pop c => c
  | .push _ => .idle

/-- What the queue at the back sees of the thread. -/
def At.pushing : At α β → Push β
  | .check => .idle
  | .pop _ => .idle
  | .push p => p

/-- One step of the thread of a stage between two queues. `end_signal` is never
set. -/
inductive Loop.Step (f : Stage ε σ α β) : AtomicQueueB2 α → Loop σ α β → AtomicQueueB2 β →
    AtomicQueueB2 α → Loop σ α β → AtomicQueueB2 β → Prop
  | check {q : AtomicQueueB2 α} {s : σ} {o : AtomicQueueB2 β} :
      Loop.Step f q ⟨s, .check⟩ o q ⟨s, .pop .load⟩ o
  | pop {q q' : AtomicQueueB2 α} {s : σ} {c c' : Pop α} {o : AtomicQueueB2 β} :
      q.popStep true c = some (q', c') →
      Loop.Step f q ⟨s, .pop c⟩ o q' ⟨s, .pop c'⟩ o
  | work {q : AtomicQueueB2 α} {s s' : σ} {a : α} {b : Option β} {o : AtomicQueueB2 β} :
      f s a = .ok (s', b) →
      Loop.Step f q ⟨s, .pop (.done a)⟩ o q ⟨s', .next b⟩ o
  | push {q : AtomicQueueB2 α} {s : σ} {p p' : Push β} {o o' : AtomicQueueB2 β} :
      o.pushStep true p = some (o', p') →
      Loop.Step f q ⟨s, .push p⟩ o q ⟨s, .pushed p'⟩ o'

/-- One step of a thread that takes its elements from outside. -/
inductive Loop.Receive (f : Stage ε σ α β) : List α → Loop σ α β → AtomicQueueB2 β →
    List α → Loop σ α β → AtomicQueueB2 β → Prop
  | work {s s' : σ} {a : α} {arrivals : List α} {b : Option β} {o : AtomicQueueB2 β} :
      f s a = .ok (s', b) →
      Loop.Receive f (a :: arrivals) ⟨s, .check⟩ o arrivals ⟨s', .next b⟩ o
  | push {arrivals : List α} {s : σ} {p p' : Push β} {o o' : AtomicQueueB2 β} :
      o.pushStep true p = some (o', p') →
      Loop.Receive f arrivals ⟨s, .push p⟩ o arrivals ⟨s, .pushed p'⟩ o'

/-- One step of a thread that passes its results on to the outside. -/
inductive Loop.Send (f : Stage ε σ α β) : AtomicQueueB2 α → Loop σ α β → List β →
    AtomicQueueB2 α → Loop σ α β → List β → Prop
  | check {q : AtomicQueueB2 α} {s : σ} {sent : List β} :
      Loop.Send f q ⟨s, .check⟩ sent q ⟨s, .pop .load⟩ sent
  | pop {q q' : AtomicQueueB2 α} {s : σ} {c c' : Pop α} {sent : List β} :
      q.popStep true c = some (q', c') →
      Loop.Send f q ⟨s, .pop c⟩ sent q' ⟨s, .pop c'⟩ sent
  | work {q : AtomicQueueB2 α} {s s' : σ} {a : α} {b : Option β} {sent : List β} :
      f s a = .ok (s', b) →
      Loop.Send f q ⟨s, .pop (.done a)⟩ sent q ⟨s', .next b⟩ sent
  | send {q : AtomicQueueB2 α} {s : σ} {b : β} {sent : List β} :
      Loop.Send f q ⟨s, .push (.load b)⟩ sent q ⟨s, .check⟩ (sent ++ [b])

/-- The thread works on an element on which its stage fails. -/
def Loop.Fails (f : Stage ε σ α β) (w : Loop σ α β) : Prop :=
  ∃ a e, w.phase = .pop (.done a) ∧ f w.state a = .error e

/-- The worker that the thread is in the view from outside. -/
def Loop.worker (w : Loop σ α β) : Worker σ β := ⟨w.state, w.phase.pushing.held⟩

/-- The thread is in a call only between its first access and its return. -/
def At.Calls : At α β → Prop
  | .check => True
  | .pop c => c ≠ .idle
  | .push p => p ≠ .idle

/-- A thread that passes its results on to the outside calls no `push`: it has a
result to send or none. -/
def At.Sends : At α β → Prop
  | .check => True
  | .pop c => c ≠ .idle
  | .push p => ∃ b, p = .load b

/-- How many accesses lie before the next one that the view from outside shows. -/
def At.rank : At α β → ℕ
  | .check => 6
  | .pop .idle => 0
  | .pop .load => 5
  | .pop (.advance _) => 4
  | .pop (.wait _) => 3
  | .pop (.read _) => 2
  | .pop (.release _ _) => 1
  | .pop (.done _) => 0
  | .push .idle => 0
  | .push (.load _) => 4
  | .push (.advance _ _) => 3
  | .push (.wait _ _) => 2
  | .push (.write _ _) => 1
  | .push (.publish _ _) => 0

/-- The queue between a thread that pushes and a thread that pops is the list. -/
structure Between (cells : Unsigned) (q : AtomicQueueB2 α) (p : Push α) (c : Pop α)
    (list : List α) : Prop where
  /-- The number of cells. -/
  size : q.size = cells
  /-- The list starts with the element that has been popped but not worked on. -/
  ring : ∃ taken items, Ring q p c taken items ∧ list = c.held.toList ++ items

section Views

variable {cells : Unsigned} {q q' : AtomicQueueB2 α} {p p' : Push α} {c c' : Pop α}
  {list : List α}

/-- An access in `push` is not seen, or puts its element behind the list, which
then was shorter than the number of cells and one. -/
theorem Between.pushStep (h : Between cells q p c list)
    (hs : q.pushStep true p = some (q', p')) :
    p'.held = p.held ∧ Between cells q' p' c list ∨
      ∃ a, p.held = some a ∧ p' = .idle ∧ list.length < cells.toNat+1 ∧
        Between cells q' p' c (list ++ [a]) := by
  obtain ⟨hsize, taken, items, hring, rfl⟩ := h
  obtain ⟨hkeep, ⟨hheld, hring'⟩ | ⟨a, hheld, hidle, hroom, hring'⟩⟩ := hring.pushStep hs
  · exact .inl ⟨hheld, hkeep.trans hsize, taken, items, hring', rfl⟩
  · refine .inr ⟨a, hheld, hidle, ?_, hkeep.trans hsize, taken, items ++ [a], hring', ?_⟩
    · have hone : c.held.toList.length ≤ 1 := by cases c.held <;> simp
      rw [hsize] at hroom
      rw [List.length_append]
      omega
    · rw [List.append_assoc]

/-- An access in `pop` is not seen. -/
theorem Between.popStep (h : Between cells q p c list) (hs : q.popStep true c = some (q', c')) :
    Between cells q' p c' list := by
  obtain ⟨hsize, taken, items, hring, rfl⟩ := h
  rw [held_eq_none_of_popStep hs]
  obtain ⟨hkeep, ⟨hheld, hring'⟩ | ⟨a, rest, rfl, rfl, hring'⟩⟩ := hring.popStep hs
  · exact ⟨hkeep.trans hsize, taken, items, hring', by rw [hheld]⟩
  · exact ⟨hkeep.trans hsize, taken+1, rest, hring', rfl⟩

/-- Calling `push` is not seen. -/
theorem Between.enter (h : Between cells q .idle c list) (a : α) :
    Between cells q (.load a) c list := by
  obtain ⟨hsize, taken, items, hring, hlist⟩ := h
  exact ⟨hsize, taken, items, hring.enter a, hlist⟩

/-- Calling `pop` is not seen. -/
theorem Between.ask (h : Between cells q p .idle list) : Between cells q p .load list := by
  obtain ⟨hsize, taken, items, hring, hlist⟩ := h
  exact ⟨hsize, taken, items, hring.ask, hlist⟩

/-- Working on the element popped takes it from the front of the list. -/
theorem Between.give {a : α} (h : Between cells q p (.done a) list) :
    ∃ rest, list = a :: rest ∧ Between cells q p .idle rest := by
  obtain ⟨hsize, taken, items, hring, hlist⟩ := h
  exact ⟨items, hlist, hsize, taken, items, hring.give, rfl⟩

/-- A new queue is the empty list. -/
theorem between_new (size : Unsigned) (nil : α) :
    Between (AtomicQueueB2.new size nil).size (AtomicQueueB2.new size nil) .idle .idle [] :=
  ⟨rfl, 0, [], ring_new size nil, rfl⟩

end Views

section Ranks

/-- Every access in `pop` brings the next one that is seen closer. -/
theorem rank_popStep {q q' : AtomicQueueB2 α} {c c' : Pop α}
    (hs : q.popStep true c = some (q', c')) :
    c' ≠ .idle ∧ (At.pop c' : At α β).rank+1 ≤ (At.pop c : At α β).rank := by
  cases c with
  | wait tail =>
    obtain ⟨_, _, rfl⟩ := AtomicQueueB2.popStep_wait_eq_some.mp hs
    exact ⟨nofun, le_rfl⟩
  | idle => cases hs
  | done element => cases hs
  | _ => cases hs; exact ⟨nofun, le_rfl⟩

/-- So does every access in `push` but the last. -/
theorem rank_pushStep {o o' : AtomicQueueB2 β} {p p' : Push β}
    (hs : o.pushStep true p = some (o', p')) (hheld : p'.held = p.held) :
    p' ≠ .idle ∧ (At.pushed p' : At α β) = .push p' ∧
      (At.push p' : At α β).rank+1 ≤ (At.push p : At α β).rank := by
  cases p with
  | wait element head =>
    obtain ⟨_, _, rfl⟩ := AtomicQueueB2.pushStep_wait_eq_some.mp hs
    exact ⟨nofun, rfl, le_rfl⟩
  | idle => cases hs
  | publish element head => cases hs; cases hheld
  | _ => cases hs; exact ⟨nofun, rfl, le_rfl⟩

/-- No access is far from the next one that is seen. -/
theorem rank_le (a : At α β) : a.rank ≤ 6 := by
  rcases a with _ | c | p
  · exact le_rfl
  · cases c <;> simp only [At.rank] <;> omega
  · cases p <;> simp only [At.rank] <;> omega

/-- After its work a thread is in `push` or starts over. -/
theorem next_spec (b : Option β) : (At.next b : At α β).Calls ∧
    (At.next b : At α β).popping = .idle ∧ (At.next b : At α β).pushing.held = b := by
  cases b with
  | none => exact ⟨trivial, rfl, rfl⟩
  | some b => exact ⟨nofun, rfl, rfl⟩

/-- After its work the sending thread has a result to send or none. -/
theorem next_sends (b : Option β) : (At.next b : At α β).Sends := by
  cases b with
  | none => exact trivial
  | some b => exact ⟨b, rfl⟩

end Ranks

section Steps

variable {cells cells' : Unsigned} {f : Stage ε σ α β}

/-- Calling `push` with the result, or starting over, is not seen by the queue. -/
theorem Between.next {o : AtomicQueueB2 β} {c : Pop β} {output : List β}
    (h : Between cells o .idle c output) (b : Option β) :
    Between cells o (At.next b : At α β).pushing c output := by
  cases b with
  | none => exact h
  | some b => exact h.enter b

/-- What a step in `push` looks like from outside. -/
theorem view_push {o o' : AtomicQueueB2 β} {s : σ} {p p' : Push β} {c : Pop β} (input : List α)
    {output : List β} (hs : o.pushStep true p = some (o', p'))
    (hout : Between cells o p c output) :
    (At.pushed p' : At α β).Calls ∧ (At.pushed p' : At α β).popping = .idle ∧
      ((⟨s, .pushed p'⟩ : Loop σ α β).worker = (⟨s, .push p⟩ : Loop σ α β).worker ∧
          Between cells o' (At.pushed p' : At α β).pushing c output ∧
          (At.pushed p' : At α β).rank+1 ≤ (At.push p : At α β).rank ∨
        ∃ output', Worker.Step f (· < cells.toNat+1) input (⟨s, .push p⟩ : Loop σ α β).worker output
            input (⟨s, .pushed p'⟩ : Loop σ α β).worker output' ∧
          Between cells o' (At.pushed p' : At α β).pushing c output') := by
  rcases hout.pushStep hs with ⟨hheld, hout'⟩ | ⟨b, hheld, rfl, hroom, hout'⟩
  · obtain ⟨hne, hpushed, hrank⟩ := rank_pushStep (α := α) hs hheld
    rw [hpushed]
    refine ⟨hne, rfl, .inl ⟨?_, hout', hrank⟩⟩
    exact congrArg (Worker.mk s) hheld
  · refine ⟨trivial, rfl, .inr ⟨output ++ [b], ?_, hout'⟩⟩
    have hworker : (⟨s, .push p⟩ : Loop σ α β).worker = ⟨s, some b⟩ := congrArg (Worker.mk s) hheld
    rw [hworker]
    exact .push hroom

/-- The thread of a stage takes a step that is not seen, or one of its worker. -/
theorem Loop.Step.view {q q' : AtomicQueueB2 α} {w w' : Loop σ α β} {o o' : AtomicQueueB2 β}
    {p : Push α} {c : Pop β} {input : List α} {output : List β}
    (hs : Loop.Step f q w o q' w' o') (hin : Between cells q p w.phase.popping input)
    (hout : Between cells' o w.phase.pushing c output) :
    w'.phase.Calls ∧
      (w'.worker = w.worker ∧ Between cells q' p w'.phase.popping input ∧
          Between cells' o' w'.phase.pushing c output ∧ w'.phase.rank+1 ≤ w.phase.rank ∨
        ∃ input' output', Worker.Step f (· < cells'.toNat+1) input w.worker output
            input' w'.worker output' ∧ Between cells q' p w'.phase.popping input' ∧
          Between cells' o' w'.phase.pushing c output') := by
  cases hs with
  | check => exact ⟨nofun, .inl ⟨rfl, hin.ask, hout, le_rfl⟩⟩
  | pop hpop =>
    obtain ⟨hne, hrank⟩ := rank_popStep (β := β) hpop
    exact ⟨hne, .inl ⟨rfl, hin.popStep hpop, hout, hrank⟩⟩
  | @work _ s' a b _ hf =>
    obtain ⟨hcalls, hpopping, hheld⟩ := next_spec (α := α) b
    obtain ⟨rest, rfl, hin'⟩ := hin.give
    refine ⟨hcalls, .inr ⟨rest, output, ?_, hpopping.symm ▸ hin', hout.next b⟩⟩
    have hworker : (⟨s', .next b⟩ : Loop σ α β).worker = ⟨s', b⟩ := congrArg (Worker.mk s') hheld
    rw [hworker]
    exact .pop hf
  | @push s p _ _ _ hpush =>
    obtain ⟨hcalls, hpopping, ⟨hworker, hout', hrank⟩ | ⟨output', hstep, hout'⟩⟩ :=
      view_push (f := f) (α := α) (s := s) input hpush hout
    · exact ⟨hcalls, .inl ⟨hworker, hpopping.symm ▸ hin, hout', hrank⟩⟩
    · exact ⟨hcalls, .inr ⟨input, output', hstep, hpopping.symm ▸ hin, hout'⟩⟩

/-- The same of a thread that takes its elements from outside. -/
theorem Loop.Receive.view {arrivals arrivals' : List α} {w w' : Loop σ α β}
    {o o' : AtomicQueueB2 β} {c : Pop β} {output : List β}
    (hs : Loop.Receive f arrivals w o arrivals' w' o')
    (hout : Between cells' o w.phase.pushing c output) :
    w'.phase.Calls ∧ w'.phase.popping = .idle ∧
      (w'.worker = w.worker ∧ arrivals' = arrivals ∧
          Between cells' o' w'.phase.pushing c output ∧ w'.phase.rank+1 ≤ w.phase.rank ∨
        ∃ output', Worker.Step f (· < cells'.toNat+1) arrivals w.worker output
            arrivals' w'.worker output' ∧ Between cells' o' w'.phase.pushing c output') := by
  cases hs with
  | @work _ s' _ _ b _ hf =>
    obtain ⟨hcalls, hpopping, hheld⟩ := next_spec (α := α) b
    refine ⟨hcalls, hpopping, .inr ⟨output, ?_, hout.next b⟩⟩
    have hworker : (⟨s', .next b⟩ : Loop σ α β).worker = ⟨s', b⟩ := congrArg (Worker.mk s') hheld
    rw [hworker]
    exact .pop hf
  | @push _ s p _ _ _ hpush =>
    obtain ⟨hcalls, hpopping, ⟨hworker, hout', hrank⟩ | ⟨output', hstep, hout'⟩⟩ :=
      view_push (f := f) (α := α) (s := s) arrivals hpush hout
    · exact ⟨hcalls, hpopping, .inl ⟨hworker, rfl, hout', hrank⟩⟩
    · exact ⟨hcalls, hpopping, .inr ⟨output', hstep, hout'⟩⟩

/-- A thread takes its elements from outside whatever comes behind them. -/
theorem Loop.Receive.arrive {arrivals arrivals' : List α} {w w' : Loop σ α β}
    {o o' : AtomicQueueB2 β} (hs : Loop.Receive f arrivals w o arrivals' w' o') (later : List α) :
    Loop.Receive f (arrivals ++ later) w o (arrivals' ++ later) w' o' := by
  cases hs with
  | work hf => exact .work hf
  | push hpush => exact .push hpush

/-- The same of a thread that passes its results on to the outside. -/
theorem Loop.Send.view {q q' : AtomicQueueB2 α} {w w' : Loop σ α β} {p : Push α}
    {input : List α} {sent sent' : List β}
    (hs : Loop.Send f q w sent q' w' sent') (hin : Between cells q p w.phase.popping input) :
    w'.phase.Sends ∧
      (w'.worker = w.worker ∧ Between cells q' p w'.phase.popping input ∧ sent' = sent ∧
          w'.phase.rank+1 ≤ w.phase.rank ∨
        ∃ input', Worker.Step f (fun _ => True) input w.worker sent input' w'.worker sent' ∧
          Between cells q' p w'.phase.popping input') := by
  cases hs with
  | check => exact ⟨nofun, .inl ⟨rfl, hin.ask, rfl, le_rfl⟩⟩
  | pop hpop =>
    obtain ⟨hne, hrank⟩ := rank_popStep (β := β) hpop
    exact ⟨hne, .inl ⟨rfl, hin.popStep hpop, rfl, hrank⟩⟩
  | @work _ s' a b _ hf =>
    obtain ⟨_, hpopping, hheld⟩ := next_spec (α := α) b
    obtain ⟨rest, rfl, hin'⟩ := hin.give
    refine ⟨next_sends b, .inr ⟨rest, ?_, hpopping.symm ▸ hin'⟩⟩
    have hworker : (⟨s', .next b⟩ : Loop σ α β).worker = ⟨s', b⟩ := congrArg (Worker.mk s') hheld
    rw [hworker]
    exact .pop hf
  | send => exact ⟨trivial, .inr ⟨input, .push trivial, hin⟩⟩

end Steps

section Stops

variable {cells cells' : Unsigned} {f : Stage ε σ α β}

/-- A thread fails where its worker does. -/
theorem Loop.Fails.worker {q : AtomicQueueB2 α} {w : Loop σ α β} {p : Push α} {input : List α}
    (h : Loop.Fails f w) (hin : Between cells q p w.phase.popping input) :
    Worker.Fails f input w.worker := by
  obtain ⟨a, e, hphase, he⟩ := h
  rw [hphase] at hin
  obtain ⟨rest, rfl, _⟩ := hin.give
  exact ⟨a, rest, e, rfl, by rw [Loop.worker, hphase]; rfl, he⟩

/-- A call of `pop` is held up only by an empty list. -/
theorem Between.popStep_eq_none {q : AtomicQueueB2 α} {p : Push α} {c : Pop α} {list : List α}
    (h : Between cells q p c list) (hc : c ≠ .idle) (hdone : ∀ a, c ≠ .done a)
    (hs : q.popStep true c = none) : list = [] := by
  obtain ⟨_, taken, items, hring, rfl⟩ := h
  cases c with
  | idle => exact absurd rfl hc
  | done a => exact absurd rfl (hdone a)
  | wait tail =>
    have hstored := AtomicQueueB2.popStep_wait_eq_none.mp hs
    rw [hring.pop.2] at hstored
    exact not_not.mp (mt hring.stored_iff.mpr hstored)
  | _ => cases hs

/-- A call of `push` is not held up by an empty list. -/
theorem Between.pushStep_ne_none {q : AtomicQueueB2 α} {p : Push α} {c : Pop α}
    (h : Between cells q p c []) (hp : p ≠ .idle) : q.pushStep true p ≠ none := by
  obtain ⟨_, taken, items, hring, hlist⟩ := h
  obtain ⟨_, rfl⟩ := List.append_eq_nil_iff.mp hlist.symm
  intro hs
  cases p with
  | idle => exact hp rfl
  | wait element head =>
    have hempty := AtomicQueueB2.pushStep_wait_eq_none.mp hs
    rw [hring.push.2] at hempty
    exact hempty (hring.empty_iff.mpr hring.sized.pos)
  | _ => cases hs

/-- A thread in `pop` that can neither go on nor work finds an empty list. -/
theorem nothing_to_pop {q : AtomicQueueB2 α} {s : σ} {p : Push α} {c : Pop α} {input : List α}
    (hin : Between cells q p c input) (hcalls : c ≠ .idle) (hfail : ¬ Loop.Fails f ⟨s, .pop c⟩)
    (hpop : ∀ r, q.popStep true c ≠ some r)
    (hwork : ∀ a r, c = .done a → f s a ≠ .ok r) : input = [] := by
  refine hin.popStep_eq_none hcalls (fun a ha => ?_) ?_
  · subst ha
    cases hf : f s a with
    | error e => exact hfail ⟨a, e, rfl, hf⟩
    | ok r => exact hwork a r rfl hf
  · by_contra hne
    obtain ⟨r, hr⟩ := Option.ne_none_iff_exists'.mp hne
    exact hpop r hr

/-- A thread that neither fails nor steps, with nothing behind it, waits for
its next element. -/
theorem Loop.idle_of_stuck {q : AtomicQueueB2 α} {w : Loop σ α β} {o : AtomicQueueB2 β}
    {p : Push α} {c : Pop β} {input : List α} (hcalls : w.phase.Calls)
    (hin : Between cells q p w.phase.popping input)
    (hout : Between cells' o w.phase.pushing c []) (hfail : ¬ Loop.Fails f w)
    (hstuck : ∀ q' w' o', ¬ Loop.Step f q w o q' w' o') :
    input = [] ∧ w.worker.hand = none := by
  obtain ⟨s, phase⟩ := w
  cases phase with
  | check => exact absurd .check (hstuck _ _ _)
  | push p =>
    obtain ⟨r, hr⟩ := Option.ne_none_iff_exists'.mp (hout.pushStep_ne_none hcalls)
    exact absurd (.push hr) (hstuck _ _ _)
  | pop c =>
    refine ⟨nothing_to_pop hin hcalls hfail (fun r hr => hstuck _ _ _ (.pop hr)) ?_, rfl⟩
    rintro a r rfl hf
    exact hstuck _ _ _ (.work hf)

/-- The same of a thread that takes its elements from outside. -/
theorem Loop.received_of_stuck {arrivals : List α} {w : Loop σ α β} {o : AtomicQueueB2 β}
    {c : Pop β} (hcalls : w.phase.Calls) (hpopping : w.phase.popping = .idle)
    (hout : Between cells' o w.phase.pushing c []) (hfail : ¬ Worker.Fails f arrivals w.worker)
    (hstuck : ∀ arrivals' w' o', ¬ Loop.Receive f arrivals w o arrivals' w' o') :
    arrivals = [] ∧ w.worker.hand = none := by
  obtain ⟨s, phase⟩ := w
  cases phase with
  | check =>
    refine ⟨?_, rfl⟩
    cases arrivals with
    | nil => rfl
    | cons a rest =>
      cases hf : f s a with
      | error e => exact absurd ⟨a, rest, e, rfl, rfl, hf⟩ hfail
      | ok r => exact absurd (.work hf) (hstuck _ _ _)
  | push p =>
    obtain ⟨r, hr⟩ := Option.ne_none_iff_exists'.mp (hout.pushStep_ne_none hcalls)
    exact absurd (.push hr) (hstuck _ _ _)
  | pop c => exact absurd hpopping hcalls

/-- The same of a thread that passes its results on to the outside. -/
theorem Loop.sent_of_stuck {q : AtomicQueueB2 α} {w : Loop σ α β} {p : Push α}
    {input : List α} {sent : List β} (hsends : w.phase.Sends)
    (hin : Between cells q p w.phase.popping input) (hfail : ¬ Loop.Fails f w)
    (hstuck : ∀ q' w' sent', ¬ Loop.Send f q w sent q' w' sent') :
    input = [] ∧ w.worker.hand = none := by
  obtain ⟨s, phase⟩ := w
  cases phase with
  | check => exact absurd .check (hstuck _ _ _)
  | push p =>
    obtain ⟨b, rfl⟩ := hsends
    exact absurd .send (hstuck _ _ _)
  | pop c =>
    refine ⟨nothing_to_pop hin hsends hfail (fun r hr => hstuck _ _ _ (.pop hr)) ?_, rfl⟩
    rintro a r rfl hf
    exact hstuck _ _ _ (.work hf)

end Stops

end CapsuleDB.ServerLoops

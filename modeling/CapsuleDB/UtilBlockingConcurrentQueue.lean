import CapsuleDB.UtilLightweightSemaphore
import Mathlib.Data.Multiset.Basic
import Mathlib.Algebra.Order.Group.Multiset

/-!
# The queue of the client

A thread that takes an element first waits for a permit of the semaphore, which
counts the elements, and then looks for an element in the queue inside, which
need not keep an order between producers. There is always an element to be found,
and threads sleep for ever only when there is none.
-/

namespace CapsuleDB.UtilBlockingConcurrentQueue

open LabelledRun CellOwners
open UtilLightweightSemaphore (Call LightweightSemaphore)

/-- What the queue inside is relied upon for: it holds the elements that were put
in and not taken out, and an element can be taken out while there is one. -/
structure ConcurrentQueue (κ α : Type*) where
  /-- The elements. -/
  contents : κ → Multiset α
  /-- `inner.enqueue` or `inner.enqueue_bulk` succeeds. -/
  Enqueue : κ → List α → κ → Prop
  /-- `inner.try_dequeue` succeeds. -/
  TryDequeue : κ → α → κ → Prop
  /-- The elements are put in. -/
  contents_enqueue : ∀ {inner items inner'}, Enqueue inner items inner' →
    contents inner' = ↑items+contents inner
  /-- The element is taken out. -/
  contents_tryDequeue : ∀ {inner item inner'}, TryDequeue inner item inner' →
    contents inner = {item}+contents inner'
  /-- An element can be taken out. -/
  exists_tryDequeue : ∀ inner, contents inner ≠ 0 → ∃ item inner', TryDequeue inner item inner'

/-- The functions that take an element. -/
inductive Taking
  /-- `try_dequeue`. -/
  | tryDequeue
  /-- `wait_dequeue`. -/
  | waitDequeue
  /-- `wait_dequeue_timed`. -/
  | waitDequeueTimed (timeoutUsecs : ℤ)

/-- The call of the semaphore. -/
def Taking.call : Taking → Call
  | .tryDequeue => .tryWait
  | .waitDequeue => .wait
  | .waitDequeueTimed timeoutUsecs => .waitTimed timeoutUsecs

/-- Where a thread is. -/
inductive Phase (α : Type*)
  /-- In no call. -/
  | idle
  /-- Before `inner.enqueue` or `inner.enqueue_bulk`. -/
  | enqueue (items : List α)
  /-- In `sema->signal`. -/
  | signal (p : UtilLightweightSemaphore.Phase)
  /-- In `sema->tryWait` or `sema->wait`. -/
  | wait (taking : Taking) (p : UtilLightweightSemaphore.Phase)
  /-- Before `inner.try_dequeue`. -/
  | take
  /-- Before the return, with an element or without. -/
  | done (item : Option α)

/-- Behind a call of the semaphore to take a permit. -/
def Taking.back {α : Type*} (taking : Taking) (result : ℤ) : Phase α :=
  if result = 0 then
    match taking with
    | .tryDequeue => .done none
    | .waitDequeue => .wait .waitDequeue Call.wait.enter
    | .waitDequeueTimed _ => .done none
  else .take

/-- Some threads and their queue. -/
structure System (ι κ α : Type*) where
  /-- `inner`. -/
  inner : κ
  /-- `sema`. -/
  sema : LightweightSemaphore
  /-- The threads. -/
  threads : ι → Phase α

/-- An empty queue before the first call. -/
def System.start (ι α : Type*) {κ : Type*} (inner : κ) (maxSpins : ℕ) : System ι κ α where
  inner := inner
  sema := ⟨0, 0, maxSpins⟩
  threads := fun _ => .idle

/-- What a thread does. -/
inductive Label (ι α : Type*)
  /-- It calls `enqueue` or `enqueue_bulk`. -/
  | enqueue (i : ι) (items : List α)
  /-- It calls a function that takes an element. -/
  | taking (i : ι) (taking : Taking)
  /-- `inner.enqueue` succeeds. -/
  | insert (i : ι) (items : List α)
  /-- `inner.enqueue` fails. -/
  | refuse (i : ι)
  /-- It accesses the semaphore. -/
  | access (i : ι) (luck : Bool)
  /-- The call of the semaphore returns. -/
  | back (i : ι) (result : ℤ)
  /-- `inner.try_dequeue` succeeds. -/
  | take (i : ι) (item : α)
  /-- The call returns. -/
  | ret (i : ι) (item : Option α)

section Systems

variable {ι κ α : Type*} [DecidableEq ι]

/-- Let one thread go on to another phase. -/
def System.go (s : System ι κ α) (i : ι) (p : Phase α) : System ι κ α :=
  { s with threads := Function.update s.threads i p }

/-- The thread that goes on. -/
@[simp] theorem System.go_self (s : System ι κ α) (i : ι) (p : Phase α) :
    (s.go i p).threads i = p := Function.update_self ..

/-- The other threads stay where they are. -/
theorem System.go_of_ne (s : System ι κ α) {i j : ι} (hj : j ≠ i) (p : Phase α) :
    (s.go i p).threads j = s.threads j := Function.update_of_ne hj ..

/-- One step of one thread. While `inner.try_dequeue` fails, nothing changes. -/
inductive Step (queue : ConcurrentQueue κ α) : System ι κ α → Label ι α → System ι κ α → Prop
  | enqueue {s : System ι κ α} {i : ι} (items : List α) : s.threads i = .idle →
      Step queue s (.enqueue i items) (s.go i (.enqueue items))
  | taking {s : System ι κ α} {i : ι} (taking : Taking) : s.threads i = .idle →
      Step queue s (.taking i taking) (s.go i (.wait taking taking.call.enter))
  | insert {s : System ι κ α} {i : ι} {items : List α} {inner : κ} :
      s.threads i = .enqueue items → queue.Enqueue s.inner items inner →
      Step queue s (.insert i items)
        ({ s with inner := inner }.go i (.signal (Call.signal items.length).enter))
  | refuse {s : System ι κ α} {i : ι} {items : List α} : s.threads i = .enqueue items →
      Step queue s (.refuse i) (s.go i (.done none))
  | signal {s : System ι κ α} {i : ι} {luck : Bool} {p p' : UtilLightweightSemaphore.Phase}
      {sema : LightweightSemaphore} : s.threads i = .signal p →
      s.sema.step luck p = some (sema, p') →
      Step queue s (.access i luck) ({ s with sema := sema }.go i (.signal p'))
  | signalled {s : System ι κ α} {i : ι} {result : ℤ} : s.threads i = .signal (.done result) →
      Step queue s (.back i result) (s.go i (.done none))
  | wait {s : System ι κ α} {i : ι} {luck : Bool} {taking : Taking}
      {p p' : UtilLightweightSemaphore.Phase} {sema : LightweightSemaphore} :
      s.threads i = .wait taking p → s.sema.step luck p = some (sema, p') →
      Step queue s (.access i luck) ({ s with sema := sema }.go i (.wait taking p'))
  | waited {s : System ι κ α} {i : ι} {taking : Taking} {result : ℤ} :
      s.threads i = .wait taking (.done result) →
      Step queue s (.back i result) (s.go i (taking.back result))
  | take {s : System ι κ α} {i : ι} {item : α} {inner : κ} : s.threads i = .take →
      queue.TryDequeue s.inner item inner →
      Step queue s (.take i item) ({ s with inner := inner }.go i (.done (some item)))
  | ret {s : System ι κ α} {i : ι} {item : Option α} : s.threads i = .done item →
      Step queue s (.ret i item) (s.go i .idle)

end Systems

/-- Whether a new call begins. -/
def Label.Calls {ι α : Type*} : Label ι α → Prop
  | .enqueue _ _ => True
  | .taking _ _ => True
  | _ => False

/-- The elements put into the queue. -/
def entered {ι α : Type*} : List (Label ι α) → Multiset α
  | [] => 0
  | .insert _ items :: history => ↑items+entered history
  | _ :: history => entered history

/-- The elements that calls have returned. -/
def given {ι α : Type*} : List (Label ι α) → Multiset α
  | [] => 0
  | .ret _ (some item) :: history => {item}+given history
  | _ :: history => given history

namespace Phase

variable {α : Type*}

/-- Where the thread is in the semaphore. -/
def inSema : Phase α → UtilLightweightSemaphore.Phase
  | .signal p => p
  | .wait _ p => p
  | _ => .idle

/-- The call of the semaphore that the thread is in. -/
def InCall : Phase α → Prop
  | .signal p => ∃ count, (Call.signal count).Follows p
  | .wait taking p => taking.call.Follows p
  | _ => True

/-- Whether the thread has a permit that it has not used. -/
def takes : Phase α → ℤ
  | .take => 1
  | _ => 0

/-- The element that the thread is about to return. -/
def held : Phase α → Multiset α
  | .done (some item) => {item}
  | _ => 0

end Phase

section Views

variable {ι κ α : Type*}

/-- The threads at their semaphore. -/
def System.view (s : System ι κ α) : UtilLightweightSemaphore.System ι :=
  ⟨s.sema, fun i => (s.threads i).inSema⟩

variable [DecidableEq ι]

/-- A thread that goes on is seen going on. -/
theorem view_go (s : System ι κ α) (i : ι) (p : Phase α) :
    (s.go i p).view = ⟨s.sema, Function.update s.view.threads i p.inSema⟩ :=
  congrArg (UtilLightweightSemaphore.System.mk s.sema)
    (Function.comp_update Phase.inSema s.threads i p)

/-- A thread that goes on outside the semaphore is not seen going on. -/
theorem view_go_outside {s : System ι κ α} {i : ι} {p : Phase α}
    (h : p.inSema = (s.threads i).inSema) : (s.go i p).view = s.view := by
  rw [view_go, h]
  exact congrArg (UtilLightweightSemaphore.System.mk s.sema)
    (Function.update_eq_self i s.view.threads)

/-- The calls of the threads, when one of them has gone on. -/
theorem inCall_go {s : System ι κ α} (h : ∀ i, (s.threads i).InCall) {i : ι} {p : Phase α}
    (hp : p.InCall) (j : ι) : ((s.go i p).threads j).InCall := by
  unfold System.go
  dsimp only
  by_cases hj : j = i
  · rw [hj, Function.update_self]
    exact hp
  · rw [Function.update_of_ne hj]
    exact h j

end Views

section Links

variable {ι κ α : Type*} [Fintype ι]

/-- The number of threads with a permit that they have not used. -/
def System.takers (s : System ι κ α) : ℤ := ∑ i, (s.threads i).takes

/-- The elements that threads are about to return. -/
def System.held (s : System ι κ α) : Multiset α := ∑ i, (s.threads i).held

/-- A thread counts at most all takers. -/
theorem one_le_takers {s : System ι κ α} {i : ι} (hi : s.threads i = .take) : 1 ≤ s.takers := by
  have hnonneg : ∀ p : Phase α, 0 ≤ p.takes := by
    intro p
    unfold Phase.takes
    split <;> decide
  have hle : (s.threads i).takes ≤ s.takers :=
    Finset.single_le_sum (f := fun j => (s.threads j).takes) (fun j _ => hnonneg (s.threads j))
      (Finset.mem_univ i)
  rw [hi] at hle
  exact hle

variable [DecidableEq ι]

/-- The queue after some calls. -/
structure Linked (queue : ConcurrentQueue κ α) (maxSpins : ℕ) (history : List (Label ι α))
    (s : System ι κ α) : Prop where
  /-- The threads are in their calls of the semaphore. -/
  calls : ∀ i, (s.threads i).InCall
  /-- The semaphore was used properly, and an element is there for every permit that
  is there or with a thread. -/
  permits : ∃ labels, Run UtilLightweightSemaphore.Step
      (UtilLightweightSemaphore.System.start ι 0 maxSpins) labels s.view ∧
    (queue.contents s.inner).card+UtilLightweightSemaphore.returned labels =
      UtilLightweightSemaphore.signalled labels+s.takers
  /-- No element is lost. -/
  items : entered history = given history+s.held+queue.contents s.inner

/-- The number of takers changes by what one thread changes. -/
theorem takers_go (s : System ι κ α) (i : ι) (p : Phase α) :
    (s.go i p).takers+(s.threads i).takes = s.takers+p.takes :=
  sum_update Phase.takes s.threads i p

/-- The elements held change by what one thread changes. -/
theorem held_go (s : System ι κ α) (i : ι) (p : Phase α) :
    (s.go i p).held+(s.threads i).held = s.held+p.held :=
  sum_update Phase.held s.threads i p

/-- An empty queue. -/
theorem linked_start (queue : ConcurrentQueue κ α) {inner : κ} (hinner : queue.contents inner = 0)
    (maxSpins : ℕ) : Linked queue maxSpins [] (System.start ι α inner maxSpins) := by
  have htakers : (System.start ι α inner maxSpins).takers = 0 := Finset.sum_eq_zero fun _ _ => rfl
  have hheld : (System.start ι α inner maxSpins).held = 0 := Finset.sum_eq_zero fun _ _ => rfl
  refine ⟨fun _ => trivial, ⟨[], .start, ?_⟩, ?_⟩
  · dsimp only [System.start] at htakers ⊢
    rw [htakers, hinner]
    rfl
  · rw [hheld]
    dsimp only [System.start]
    rw [hinner]
    rfl

/-- A thread goes on: what it adds to the queue, takes out of it or returns, and
what it does with the semaphore, agree. -/
theorem Linked.go {queue : ConcurrentQueue κ α} {maxSpins : ℕ} {history : List (Label ι α)}
    {s t : System ι κ α} (h : Linked queue maxSpins history s) (added removed : Multiset α)
    (label : Label ι α) (ht : t.threads = s.threads) {i : ι} {p : Phase α} (hcall : p.InCall)
    (hentered : entered (label :: history) = added+entered history)
    (hgiven : given (label :: history) = removed+given history)
    (hitems : removed+p.held+queue.contents t.inner =
      added+(s.threads i).held+queue.contents s.inner)
    (hpermits : ∃ more, Run UtilLightweightSemaphore.Step s.view more (t.go i p).view ∧
      (queue.contents t.inner).card+UtilLightweightSemaphore.returned more+(s.threads i).takes =
        (queue.contents s.inner).card+UtilLightweightSemaphore.signalled more+p.takes) :
    Linked queue maxSpins (label :: history) (t.go i p) := by
  obtain ⟨labels, hr, hcount⟩ := h.permits
  obtain ⟨more, hmore, hchange⟩ := hpermits
  have hcalls : ∀ j, (t.threads j).InCall := ht ▸ h.calls
  have htakers := takers_go t i p
  have hheld := held_go t i p
  rw [ht] at htakers hheld
  refine ⟨inCall_go hcalls hcall, ⟨more ++ labels, hr.append hmore, ?_⟩, ?_⟩
  · rw [UtilLightweightSemaphore.returned_append, UtilLightweightSemaphore.signalled_append]
    have hsame : t.takers = s.takers := by
      unfold System.takers
      rw [ht]
    have hinner : (t.go i p).inner = t.inner := rfl
    rw [hinner]
    omega
  · have hsame : t.held = s.held := by
      unfold System.held
      rw [ht]
    have hinner : (t.go i p).inner = t.inner := rfl
    rw [hsame] at hheld
    rw [hentered, hgiven, h.items, hinner]
    refine add_right_cancel (b := (s.threads i).held) ?_
    calc added+(given history+s.held+queue.contents s.inner)+(s.threads i).held
        = given history+s.held+(added+(s.threads i).held+queue.contents s.inner) := by abel
      _ = removed+given history+(s.held+p.held)+queue.contents t.inner := by rw [← hitems]; abel
      _ = removed+given history+(t.go i p).held+queue.contents t.inner+(s.threads i).held := by
        rw [← hheld]
        abel

/-- A thread goes on outside the semaphore and the queue. -/
theorem Linked.go_outside {queue : ConcurrentQueue κ α} {maxSpins : ℕ}
    {history : List (Label ι α)} {s : System ι κ α} (h : Linked queue maxSpins history s)
    (removed : Multiset α) (label : Label ι α) {i : ι} {p : Phase α} (hcall : p.InCall)
    (hentered : entered (label :: history) = entered history)
    (hgiven : given (label :: history) = removed+given history)
    (hheld : removed+p.held = (s.threads i).held) (hsema : p.inSema = (s.threads i).inSema)
    (htakes : p.takes = (s.threads i).takes) :
    Linked queue maxSpins (label :: history) (s.go i p) := by
  refine h.go 0 removed label rfl hcall (hentered.trans (zero_add _).symm) hgiven ?_ ⟨[], ?_, ?_⟩
  · rw [hheld, zero_add]
  · rw [view_go_outside hsema]
    exact .start
  · rw [htakes]
    rfl

/-- A thread goes on in the semaphore only. -/
theorem Linked.go_sema {queue : ConcurrentQueue κ α} {maxSpins : ℕ}
    {history : List (Label ι α)} {s t : System ι κ α} (h : Linked queue maxSpins history s)
    (label : Label ι α) (ht : t.threads = s.threads) (hinner : t.inner = s.inner) {i : ι}
    {p : Phase α} (hcall : p.InCall) (hentered : entered (label :: history) = entered history)
    (hgiven : given (label :: history) = given history) (hheld : p.held = (s.threads i).held)
    {more : List (UtilLightweightSemaphore.Label ι)}
    (hmore : Run UtilLightweightSemaphore.Step s.view more (t.go i p).view)
    (hpermits : UtilLightweightSemaphore.returned more+(s.threads i).takes =
      UtilLightweightSemaphore.signalled more+p.takes) :
    Linked queue maxSpins (label :: history) (t.go i p) := by
  refine h.go 0 0 label ht hcall (hentered.trans (zero_add _).symm)
    (hgiven.trans (zero_add _).symm) ?_ ⟨more, hmore, ?_⟩
  · rw [hheld, hinner]
  · rw [hinner]
    omega

/-- The calls that take a permit add none. -/
theorem adds_call (taking : Taking) : taking.call.adds = 0 := by
  cases taking with
  | tryDequeue => rfl
  | waitDequeue => rfl
  | waitDequeueTimed timeoutUsecs => rfl

/-- The calls that take a permit return with one or none. -/
theorem result_of_follows {taking : Taking} {result : ℤ}
    (h : taking.call.Follows (.done result)) : result = 0 ∨ result = 1 := by
  have hbounds : 0 ≤ result ∧ result ≤ 1 := by
    cases taking with
    | tryDequeue => exact ⟨h.1, h.2.1⟩
    | waitDequeue => exact ⟨h.1, h.2.1⟩
    | waitDequeueTimed timeoutUsecs => exact ⟨h.1, h.2.1⟩
  omega

/-- One step. -/
theorem Linked.step {queue : ConcurrentQueue κ α} {maxSpins : ℕ} {history : List (Label ι α)}
    {s s' : System ι κ α} {label : Label ι α} (h : Linked queue maxSpins history s)
    (hs : Step queue s label s') : Linked queue maxSpins (label :: history) s' := by
  cases hs with
  | @enqueue i items hi =>
    exact h.go_outside 0 (.enqueue i items) trivial rfl (zero_add _).symm (by rw [hi]; rfl)
      (by rw [hi]; rfl) (by rw [hi]; rfl)
  | @taking i taking hi =>
    have hmore : UtilLightweightSemaphore.Step s.view (.call i taking.call)
        (s.go i (.wait taking taking.call.enter)).view := by
      rw [view_go]
      exact .call _ (congrArg Phase.inSema hi)
    refine h.go_sema (.taking i taking) rfl rfl taking.call.follows_enter rfl rfl (by rw [hi]; rfl)
      (Run.start.next hmore) ?_
    rw [hi, UtilLightweightSemaphore.signalled, adds_call]
    rfl
  | @insert i items inner hi hinner =>
    have hmore : UtilLightweightSemaphore.Step s.view (.call i (.signal items.length))
        (System.go { s with inner := inner } i
          (.signal (Call.signal items.length).enter)).view := by
      rw [view_go]
      exact .call _ (congrArg Phase.inSema hi)
    have hin : (Phase.signal (Call.signal items.length).enter : Phase α).InCall :=
      ⟨items.length, trivial⟩
    refine h.go (t := { s with inner := inner }) ↑items 0 (.insert i items) rfl hin rfl
      (zero_add _).symm ?_
      ⟨_, Run.start.next hmore, ?_⟩
    · rw [hi]
      dsimp only [Phase.held]
      rw [queue.contents_enqueue hinner, zero_add, zero_add, add_zero]
    · dsimp only
      rw [hi, queue.contents_enqueue hinner, Multiset.card_add, Multiset.coe_card]
      dsimp only [UtilLightweightSemaphore.returned, UtilLightweightSemaphore.signalled,
        Call.adds, Phase.takes]
      push_cast
      omega
  | @refuse i items hi =>
    exact h.go_outside 0 (.refuse i) trivial rfl (zero_add _).symm (by rw [hi]; rfl)
      (by rw [hi]; rfl) (by rw [hi]; rfl)
  | @signal i luck p p' sema hi hsema =>
    have hcall := h.calls i
    rw [hi] at hcall
    obtain ⟨count, hfollows⟩ := hcall
    have hmore : UtilLightweightSemaphore.Step s.view (.step i luck)
        (System.go { s with sema := sema } i (.signal p')).view := by
      rw [view_go]
      exact .step ((congrArg (s.sema.step luck) (congrArg Phase.inSema hi)).trans hsema)
    have hrun := Run.start.next hmore
    have hin : (Phase.signal p' : Phase α).InCall := ⟨count, hfollows.step hsema⟩
    exact h.go_sema (t := { s with sema := sema }) (.access i luck) rfl rfl hin rfl rfl
      (by rw [hi]; rfl) hrun (by rw [hi]; rfl)
  | @signalled i result hi =>
    have hcall := h.calls i
    rw [hi] at hcall
    obtain ⟨count, rfl⟩ := hcall
    have hmore : UtilLightweightSemaphore.Step s.view (.ret i 0) (s.go i (.done none)).view := by
      rw [view_go]
      exact .ret (congrArg Phase.inSema hi)
    exact h.go_sema (.back i 0) rfl rfl trivial rfl rfl (by rw [hi]; rfl) (Run.start.next hmore)
      (by rw [hi]; rfl)
  | @wait i luck taking p p' sema hi hsema =>
    have hcall := h.calls i
    rw [hi] at hcall
    have hmore : UtilLightweightSemaphore.Step s.view (.step i luck)
        (System.go { s with sema := sema } i (.wait taking p')).view := by
      rw [view_go]
      exact .step ((congrArg (s.sema.step luck) (congrArg Phase.inSema hi)).trans hsema)
    have hrun := Run.start.next hmore
    have hin : (Phase.wait taking p' : Phase α).InCall := Call.Follows.step hcall hsema
    exact h.go_sema (t := { s with sema := sema }) (.access i luck) rfl rfl hin rfl rfl
      (by rw [hi]; rfl) hrun (by rw [hi]; rfl)
  | @waited i taking result hi =>
    have hcall := h.calls i
    rw [hi] at hcall
    have hret : ∀ p : Phase α, p.inSema = .idle →
        UtilLightweightSemaphore.Step s.view (.ret i result) (s.go i p).view := by
      intro p hp
      rw [view_go, hp]
      exact .ret (congrArg Phase.inSema hi)
    rcases result_of_follows hcall with rfl | rfl
    · cases taking with
      | tryDequeue =>
        exact h.go_sema (.back i 0) rfl rfl trivial rfl rfl (by rw [hi]; rfl)
          (Run.start.next (hret _ rfl)) (by rw [hi]; rfl)
      | waitDequeue =>
        -- the loop of `wait_dequeue` calls `wait` again
        have hagain : UtilLightweightSemaphore.Step
            ⟨s.sema, Function.update s.view.threads i .idle⟩ (.call i .wait)
            (s.go i (.wait .waitDequeue Call.wait.enter)).view := by
          have hcall := UtilLightweightSemaphore.Step.call (i := i)
            (s := ⟨s.sema, Function.update s.view.threads i .idle⟩) .wait
            (Function.update_self i _ _)
          rw [Function.update_idem] at hcall
          rw [view_go]
          exact hcall
        have hback : UtilLightweightSemaphore.Step s.view (.ret i 0)
            ⟨s.sema, Function.update s.view.threads i .idle⟩ := .ret (congrArg Phase.inSema hi)
        have hrun := (Run.start.next hback).next hagain
        exact h.go_sema (.back i 0) rfl rfl Call.wait.follows_enter rfl rfl (by rw [hi]; rfl) hrun
          (by rw [hi]; rfl)
      | waitDequeueTimed timeoutUsecs =>
        exact h.go_sema (.back i 0) rfl rfl trivial rfl rfl (by rw [hi]; rfl)
          (Run.start.next (hret _ rfl)) (by rw [hi]; rfl)
    · exact h.go_sema (.back i 1) rfl rfl trivial rfl rfl (by rw [hi]; rfl)
        (Run.start.next (hret _ rfl)) (by rw [hi]; rfl)
  | @take i item inner hi hinner =>
    have hin : (Phase.done (some item)).InCall := trivial
    refine h.go (t := { s with inner := inner }) 0 0 (.take i item) rfl hin
      (zero_add _).symm (zero_add _).symm ?_ ⟨[], ?_, ?_⟩
    · rw [hi, queue.contents_tryDequeue hinner]
      dsimp only [Phase.held]
      abel
    · rw [view_go_outside (by rw [hi]; rfl)]
      exact .start
    · rw [hi, queue.contents_tryDequeue hinner, Multiset.card_add, Multiset.card_singleton]
      dsimp only [UtilLightweightSemaphore.returned, UtilLightweightSemaphore.signalled,
        Phase.takes]
      push_cast
      omega
  | @ret i item hi =>
    refine h.go_outside (Phase.done item).held (.ret i item) trivial rfl ?_ ?_ (by rw [hi]; rfl)
      (by rw [hi]; rfl)
    · cases item with
      | none => exact (zero_add _).symm
      | some item => rfl
    · rw [hi]
      exact add_zero _

/-- A run. -/
theorem linked_of_run {queue : ConcurrentQueue κ α} {inner : κ} (hinner : queue.contents inner = 0)
    {maxSpins : ℕ} {history : List (Label ι α)} {s : System ι κ α}
    (hr : Run (Step queue) (System.start ι α inner maxSpins) history s) :
    Linked queue maxSpins history s := by
  refine Run.invariant (linked_start queue hinner maxSpins) ?_ hr
  intro history s label t _ h hs
  exact h.step hs

/-- There is an element for every permit that a thread has not used. -/
theorem Linked.takers_le {queue : ConcurrentQueue κ α} {maxSpins : ℕ}
    {history : List (Label ι α)} {s : System ι κ α} (h : Linked queue maxSpins history s)
    (hcard : Fintype.card ι < 2 ^ 31) : s.takers ≤ (queue.contents s.inner).card := by
  obtain ⟨labels, hr, hcount⟩ := h.permits
  have hle := (UtilLightweightSemaphore.accounts_of_run hcard hr).returned_le
  omega

/-- Whatever the order of the accesses, no element is lost or returned twice, and a
thread that has got a permit finds an element in the queue inside: there are at
least as many elements as such threads. -/
theorem permits_have_elements (queue : ConcurrentQueue κ α) {inner : κ}
    (hinner : queue.contents inner = 0) (hcard : Fintype.card ι < 2 ^ 31) {maxSpins : ℕ}
    {history : List (Label ι α)} {s : System ι κ α}
    (hr : Run (Step queue) (System.start ι α inner maxSpins) history s) :
    entered history = given history+s.held+queue.contents s.inner ∧
      s.takers ≤ (queue.contents s.inner).card ∧
      ∀ i, s.threads i = .take → ∃ item inner', queue.TryDequeue s.inner item inner' := by
  have h := linked_of_run hinner hr
  have hle := h.takers_le hcard
  refine ⟨h.items, hle, fun i hi => queue.exists_tryDequeue s.inner fun hempty => ?_⟩
  have hone := one_le_takers hi
  rw [hempty, Multiset.card_zero] at hle
  omega

/-- No thread in a call can go on. -/
def HeldUp (queue : ConcurrentQueue κ α) (s : System ι κ α) : Prop :=
  ∀ label t, Step queue s label t → label.Calls

/-- A thread that is held up is in the semaphore, which lets it not go on. -/
theorem inSema_of_heldUp {queue : ConcurrentQueue κ α} {maxSpins : ℕ}
    {history : List (Label ι α)} {s : System ι κ α} (h : Linked queue maxSpins history s)
    (hcard : Fintype.card ι < 2 ^ 31) (hheld : HeldUp queue s) {i : ι}
    (hi : s.threads i ≠ .idle) :
    (s.threads i).inSema ≠ .idle ∧ (s.threads i).takes = 0 ∧ (s.threads i).held = 0 ∧
      (∀ result, (s.threads i).inSema ≠ .done result) ∧
      ∀ luck, s.sema.step luck (s.threads i).inSema = none := by
  have hcall := h.calls i
  cases hp : s.threads i with
  | idle => exact absurd hp hi
  | enqueue items =>
    exact (hheld _ _ (.refuse hp)).elim
  | signal p =>
    rw [hp] at hcall
    obtain ⟨count, hfollows⟩ := hcall
    refine ⟨?_, rfl, rfl, ?_, ?_⟩
    · rintro rfl
      exact hfollows
    · rintro result rfl
      exact (hheld _ _ (.signalled hp)).elim
    · intro luck
      cases hstep : s.sema.step luck p with
      | none => exact hstep
      | some next =>
        exact (hheld _ _ (.signal hp hstep)).elim
  | wait taking p =>
    rw [hp] at hcall
    refine ⟨?_, rfl, rfl, ?_, ?_⟩
    · rintro rfl
      cases taking with
      | tryDequeue => exact hcall
      | waitDequeue => exact hcall
      | waitDequeueTimed timeoutUsecs => exact hcall
    · rintro result rfl
      exact (hheld _ _ (.waited hp)).elim
    · intro luck
      cases hstep : s.sema.step luck p with
      | none => exact hstep
      | some next =>
        exact (hheld _ _ (.wait hp hstep)).elim
  | take =>
    have hle := h.takers_le hcard
    have hone := one_le_takers hp
    have hsome : queue.contents s.inner ≠ 0 := by
      intro hempty
      rw [hempty, Multiset.card_zero] at hle
      omega
    obtain ⟨item, inner, htake⟩ := queue.exists_tryDequeue s.inner hsome
    exact (hheld _ _ (.take hp htake)).elim
  | done item =>
    exact (hheld _ _ (.ret hp)).elim

/-- When no thread in a call can go on, but some thread is in a call, nothing is left. -/
theorem Linked.empty_of_heldUp {queue : ConcurrentQueue κ α} {maxSpins : ℕ}
    {history : List (Label ι α)} {s : System ι κ α} (h : Linked queue maxSpins history s)
    (hcard : Fintype.card ι < 2 ^ 31) (hheld : HeldUp queue s)
    (hbusy : ∃ i, s.threads i ≠ .idle) :
    queue.contents s.inner = 0 ∧ given history = entered history := by
  have hidle : ∀ i, s.threads i = .idle ∨ (s.threads i).inSema ≠ .idle ∧
      (s.threads i).takes = 0 ∧ (s.threads i).held = 0 := fun i =>
    or_iff_not_imp_left.mpr fun hi =>
      have hin := inSema_of_heldUp h hcard hheld hi
      ⟨hin.1, hin.2.1, hin.2.2.1⟩
  obtain ⟨labels, hsema, hcount⟩ := h.permits
  have hstuck : UtilLightweightSemaphore.HeldUp s.view := by
    intro i hi
    have hphase : s.threads i ≠ .idle := fun heq => hi (congrArg Phase.inSema heq)
    exact (inSema_of_heldUp h hcard hheld hphase).2.2.2
  have hspent : UtilLightweightSemaphore.returned labels =
      UtilLightweightSemaphore.signalled labels := by
    obtain ⟨i, hi⟩ := hbusy
    have hview : s.view.threads i ≠ .idle := (inSema_of_heldUp h hcard hheld hi).1
    have hall := ((UtilLightweightSemaphore.accounts_of_run hcard hsema).spent hstuck ⟨i, hview⟩).1
    omega
  have htakers : s.takers = 0 := Finset.sum_eq_zero fun i _ => by
    rcases hidle i with hi | hi
    · rw [hi]
      rfl
    · exact hi.2.1
  have hnone : s.held = 0 := Finset.sum_eq_zero fun i _ => by
    rcases hidle i with hi | hi
    · rw [hi]
      rfl
    · exact hi.2.2
  have hempty : queue.contents s.inner = 0 := by
    rw [← Multiset.card_eq_zero]
    omega
  refine ⟨hempty, ?_⟩
  rw [h.items, hnone, hempty, add_zero, add_zero]

/-- When no thread in a call can go on, but some thread is in a call, the queue is
empty, and every element that was put in has been returned. -/
theorem held_up_only_when_empty (queue : ConcurrentQueue κ α) {inner : κ}
    (hinner : queue.contents inner = 0) (hcard : Fintype.card ι < 2 ^ 31) {maxSpins : ℕ}
    {history : List (Label ι α)} {s : System ι κ α}
    (hr : Run (Step queue) (System.start ι α inner maxSpins) history s)
    (hheld : HeldUp queue s) (hbusy : ∃ i, s.threads i ≠ .idle) :
    queue.contents s.inner = 0 ∧ given history = entered history :=
  (linked_of_run hinner hr).empty_of_heldUp hcard hheld hbusy

end Links

section Alone

variable {ι κ α : Type*} [DecidableEq ι] {queue : ConcurrentQueue κ α} {s : System ι κ α} {i : ι}

/-- A thread that goes on alone in the semaphore goes on in its call. -/
theorem run_access (wrap : UtilLightweightSemaphore.Phase → Phase α)
    (hstep : ∀ {s : System ι κ α} {luck : Bool} {p p' : UtilLightweightSemaphore.Phase}
      {sema : LightweightSemaphore}, s.threads i = wrap p → s.sema.step luck p = some (sema, p') →
      Step queue s (.access i luck) ({ s with sema := sema }.go i (wrap p')))
    {p : UtilLightweightSemaphore.Phase} (hi : s.threads i = wrap p) {lucks : List Bool}
    {y : LightweightSemaphore × UtilLightweightSemaphore.Phase}
    (hr : Run UtilLightweightSemaphore.Alone (s.sema, p) lucks y) :
    Run (Step queue) s (lucks.map (Label.access i)) ({ s with sema := y.1 }.go i (wrap y.2)) := by
  induction hr with
  | start =>
    have hsame : { s with threads := Function.update s.threads i (wrap p) } = s := by
      rw [← hi, Function.update_eq_self]
    unfold System.go
    dsimp only
    rw [hsame]
    exact .start
  | @next lucks x y luck _ hs ih =>
    have hnext := hstep (System.go_self { s with sema := x.1 } i (wrap x.2)) hs
    unfold System.go at hnext
    dsimp only at hnext
    rw [Function.update_idem] at hnext
    exact ih.next hnext

/-- A thread that adds a permit can go on alone until its call returns. -/
theorem exists_entered {p : UtilLightweightSemaphore.Phase}
    (hcall : (Phase.signal p : Phase α).InCall) (hi : s.threads i = .signal p) :
    ∃ (lucks : List Bool) (sema : LightweightSemaphore),
      Run (Step queue) s (.back i 0 :: lucks.map (Label.access i))
      ({ s with sema := sema }.go i (.done none)) := by
  obtain ⟨count, hfollows⟩ := hcall
  obtain ⟨lucks, sema, hr⟩ := UtilLightweightSemaphore.exists_signalled (s := s.sema) hfollows
  have hrun : Run (Step queue) s _ _ := run_access Phase.signal Step.signal hi hr
  have hback : Step queue (System.go { s with sema := sema } i (.signal (.done 0)))
      (.back i 0) _ := .signalled (System.go_self ..)
  unfold System.go at hback hrun
  dsimp only at hback hrun
  rw [Function.update_idem] at hback
  exact ⟨lucks, sema, hrun.next hback⟩

variable [Fintype ι]

omit [DecidableEq ι] in
/-- A total to which only one thread contributes. -/
theorem total_eq (halone : ∀ j, j ≠ i → s.threads j = .idle)
    {F : UtilLightweightSemaphore.Phase → ℤ} (hidle : F .idle = 0) :
    s.view.total F = F (s.threads i).inSema := by
  refine Finset.sum_eq_single i (fun j _ hj => ?_) fun hnot => absurd (Finset.mem_univ i) hnot
  show F (s.threads j).inSema = 0
  rw [halone j hj]
  exact hidle

/-- A thread in `wait_dequeue` can go on alone until it has a permit, while there is
an element. -/
theorem Linked.exists_permit {maxSpins : ℕ} {history : List (Label ι α)}
    (h : Linked queue maxSpins history s) (hcard : Fintype.card ι < 2 ^ 31)
    {p : UtilLightweightSemaphore.Phase} (hi : s.threads i = .wait .waitDequeue p)
    (halone : ∀ j, j ≠ i → s.threads j = .idle) (hsome : queue.contents s.inner ≠ 0) :
    ∃ (lucks : List Bool) (sema : LightweightSemaphore),
      Run (Step queue) s (.back i 1 :: lucks.map (Label.access i))
      ({ s with sema := sema }.go i .take) := by
  have hfollows : Call.wait.Follows p := by
    have hcall := h.calls i
    rw [hi] at hcall
    exact hcall
  obtain ⟨hpending, hreleasing, hnothing⟩ := UtilLightweightSemaphore.parts_of_wait hfollows
  have hnonneg := p.waiting_nonneg
  have hone := p.waiting_le_one
  obtain ⟨labels, hr, hcount⟩ := h.permits
  have haccounts := UtilLightweightSemaphore.accounts_of_run hcard hr
  have hsleepers := haccounts.sleepers
  have hpermits := haccounts.permits
  rw [total_eq halone rfl, total_eq halone rfl, hi] at hsleepers
  rw [total_eq halone rfl, total_eq halone rfl, total_eq halone rfl, hi] at hpermits
  have htakers : s.takers = 0 := by
    refine Finset.sum_eq_zero fun j _ => ?_
    by_cases hj : j = i
    · rw [hj, hi]
      rfl
    · rw [halone j hj]
      rfl
  have hpos : 0 < (queue.contents s.inner).card := Multiset.card_pos.mpr hsome
  have hsema : s.view.semaphore = s.sema := rfl
  rw [hsema] at hsleepers hpermits
  dsimp only [Phase.inSema] at hsleepers hpermits
  obtain ⟨lucks, sema, hr⟩ := UtilLightweightSemaphore.exists_waited (s := s.sema) hfollows
    (fun hholding hzero => by omega) fun hsleeps => by
      have hholding := hnothing hsleeps
      omega
  have hrun : Run (Step queue) s _ _ := run_access (Phase.wait .waitDequeue) Step.wait hi hr
  have hback : Step queue (System.go { s with sema := sema } i (.wait .waitDequeue (.done 1)))
      (.back i 1) _ := .waited (System.go_self ..)
  unfold System.go at hback hrun
  dsimp only at hback hrun
  rw [Function.update_idem] at hback
  exact ⟨lucks, sema, hrun.next hback⟩

end Alone

section Lists

/-- A queue that keeps the order of its elements. -/
def listQueue (α : Type*) : ConcurrentQueue (List α) α where
  contents inner := ↑inner
  Enqueue inner items inner' := inner' = inner ++ items
  TryDequeue inner item inner' := inner = item :: inner'
  contents_enqueue := by
    rintro inner items _ rfl
    rw [← Multiset.coe_add, add_comm]
  contents_tryDequeue := by
    rintro _ item inner' rfl
    rw [Multiset.singleton_add, Multiset.cons_coe]
  exists_tryDequeue := by
    intro inner hinner
    cases inner with
    | nil => exact absurd rfl hinner
    | cons item inner => exact ⟨item, inner, rfl⟩

/-- One thread puts an element in, and the other one has got a permit for it. -/
theorem permits_have_elements_one :
    ∃ history s, Run (Step (listQueue ℕ)) (System.start (Fin 2) ℕ [] 0) history s ∧
      s.threads 0 = .take ∧ ∃ item inner', (listQueue ℕ).TryDequeue s.inner item inner' := by
  have hstart : Run (Step (listQueue ℕ)) (System.start (Fin 2) ℕ [] 0) [] _ := .start
  have hput := ((hstart.next (a := .enqueue 1 [7]) (.enqueue [7] rfl)).next (a := .insert 1 [7])
    (.insert rfl rfl)).next (a := .access 1 true) (.signal rfl rfl)
  have hgot := (((hput.next (a := .taking 0 .waitDequeue) (.taking .waitDequeue rfl)).next
    (a := .access 0 true) (.wait rfl rfl)).next (a := .access 0 true) (.wait rfl rfl)).next
    (a := .back 0 1) (.waited rfl)
  exact ⟨_, _, hgot, rfl,
    (permits_have_elements (listQueue ℕ) rfl (by decide) hgot).2.2 0 rfl⟩

/-- A thread that waits for the first element. -/
theorem held_up_only_when_empty_waiting :
    ∃ history s, Run (Step (listQueue ℕ)) (System.start Unit ℕ [] 0) history s ∧
      (∃ i, s.threads i ≠ .idle) ∧ (listQueue ℕ).contents s.inner = 0 := by
  have hstart : Run (Step (listQueue ℕ)) (System.start Unit ℕ [] 0) [] _ := .start
  have hr := ((hstart.next (a := .taking () .waitDequeue) (.taking .waitDequeue rfl)).next
    (a := .access () true) (.wait rfl rfl)).next (a := .access () true) (.wait rfl rfl)
  obtain ⟨s, hr, hphase, hsema⟩ : ∃ s, Run (Step (listQueue ℕ)) (System.start Unit ℕ [] 0)
      [.access () true, .access () true, .taking () .waitDequeue] s ∧
      s.threads () = .wait .waitDequeue (.sleep 1 (-1)) ∧ s.sema.sema = 0 := ⟨_, hr, rfl, rfl⟩
  have hbusy : ∃ i, s.threads i ≠ .idle := ⟨(), by rw [hphase]; exact nofun⟩
  have hheld : HeldUp (listQueue ℕ) s := by
    intro label t hs
    cases hs with
    | enqueue items hi => trivial
    | taking taking hi => trivial
    | wait hi hstep =>
      rw [hphase] at hi
      cases hi
      unfold LightweightSemaphore.step at hstep
      dsimp only at hstep
      rw [if_pos (.inr (by decide)), LightweightSemaphore.take, hsema] at hstep
      cases hstep
    | insert hi _ =>
      rw [hphase] at hi
      cases hi
    | signal hi _ =>
      rw [hphase] at hi
      cases hi
    | take hi _ =>
      rw [hphase] at hi
      cases hi
    | refuse hi =>
      rw [hphase] at hi
      cases hi
    | signalled hi =>
      rw [hphase] at hi
      cases hi
    | waited hi =>
      rw [hphase] at hi
      cases hi
    | ret hi =>
      rw [hphase] at hi
      cases hi
  exact ⟨_, s, hr, hbusy,
    (held_up_only_when_empty (listQueue ℕ) rfl (by decide) hr hheld hbusy).1⟩

end Lists

end CapsuleDB.UtilBlockingConcurrentQueue

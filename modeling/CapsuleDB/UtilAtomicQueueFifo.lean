import CapsuleDB.UtilAtomicQueue

/-!
# One pushing and one popping thread

Between two threads a queue is a bounded first-in first-out list. An element
joins the list when its cell is marked as stored and leaves it when its cell is
marked as empty. The list lies in the cells of consecutive tickets, and all
other cells are empty, so that the pushing thread waits exactly when the list
has as many elements as there are cells, and the popping thread exactly when it
has none.
-/

namespace CapsuleDB.UtilAtomicQueue

open LabelledRun TicketRing

section Phases

variable {α : Type*}

/-- What a thread in `push` relies on after `n` pushes, the list being `items`. -/
def Push.At (q : AtomicQueueB2 α) (n : ℕ) (items : List α) : Push α → Prop
  | .idle => q.head = BitVec.ofNat 32 n
  | .load _ => q.head = BitVec.ofNat 32 n
  | .advance _ head => q.head = BitVec.ofNat 32 n ∧ head = BitVec.ofNat 32 n
  | .wait _ head => q.head = BitVec.ofNat 32 (n+1) ∧ head = BitVec.ofNat 32 n
  | .write _ head => q.head = BitVec.ofNat 32 (n+1) ∧ head = BitVec.ofNat 32 n ∧
      items.length < q.size.toNat
  | .publish element head => q.head = BitVec.ofNat 32 (n+1) ∧ head = BitVec.ofNat 32 n ∧
      items.length < q.size.toNat ∧ q.elements (q.cell n) = element

/-- What a thread in `pop` relies on after `n` pops, the list being `items`. -/
def Pop.At (q : AtomicQueueB2 α) (n : ℕ) (items : List α) : Pop α → Prop
  | .idle => q.tail = BitVec.ofNat 32 n
  | .load => q.tail = BitVec.ofNat 32 n
  | .advance tail => q.tail = BitVec.ofNat 32 n ∧ tail = BitVec.ofNat 32 n
  | .wait tail => q.tail = BitVec.ofNat 32 (n+1) ∧ tail = BitVec.ofNat 32 n
  | .read tail => q.tail = BitVec.ofNat 32 (n+1) ∧ tail = BitVec.ofNat 32 n ∧ items ≠ []
  | .release element tail => q.tail = BitVec.ofNat 32 (n+1) ∧ tail = BitVec.ofNat 32 n ∧
      items.head? = some element
  | .done _ => q.tail = BitVec.ofNat 32 n

/-- The queue between a thread in `push` and a thread in `pop`, after `taken`
elements have left the list and while it is `items`. -/
structure Ring (q : AtomicQueueB2 α) (p : Push α) (c : Pop α) (taken : ℕ) (items : List α) :
    Prop where
  /-- The size is one that tickets work with. -/
  sized : q.Sized
  /-- The list fits. -/
  length_le : items.length ≤ q.size.toNat
  /-- The list lies in the cells of the tickets from `taken` on. -/
  stored : ∀ i < items.length, q.states (q.cell (taken+i)) = .stored ∧
    items[i]? = some (q.elements (q.cell (taken+i)))
  /-- The cells of the following tickets are empty. -/
  empty : ∀ i, items.length ≤ i → i < q.size.toNat → q.states (q.cell (taken+i)) = .empty
  /-- The pushing thread. -/
  push : p.At q (taken+items.length) items
  /-- The popping thread. -/
  pop : c.At q taken items

end Phases

section Frames

variable {α : Type*} {q : AtomicQueueB2 α}

/-- The cells of two places of the list are different. -/
theorem AtomicQueueB2.Sized.cell_ne (hq : q.Sized) (base : ℕ) {i j : ℕ} (hi : i < q.size.toNat)
    (hj : j < q.size.toNat) (hne : i ≠ j) : q.cell (base+i) ≠ q.cell (base+j) := by
  intro h
  exact hne (eq_of_modEq hi hj (hq.cell_eq_iff.mp h))

/-- What the popping thread relies on is not affected by a longer list. -/
theorem Pop.At.append {c : Pop α} {n : ℕ} {items : List α} (h : c.At q n items) (a : α) :
    c.At q n (items ++ [a]) := by
  cases c with
  | read tail => exact ⟨h.1, h.2.1, by simp⟩
  | release element tail =>
    refine ⟨h.1, h.2.1, ?_⟩
    rw [List.head?_append, h.2.2]
    rfl
  | _ => exact h

/-- What the pushing thread relies on is not affected by a shorter list. -/
theorem Push.At.tail {p : Push α} {n : ℕ} {a : α} {rest : List α} (h : p.At q n (a :: rest))
    (i : ℕ) (st : State) : p.At (q.setState i st) n rest := by
  cases p with
  | write element head =>
    obtain ⟨hnext, hhead, hroom⟩ := h
    exact ⟨hnext, hhead, (Nat.lt_succ_self _).trans hroom⟩
  | publish element head =>
    obtain ⟨hnext, hhead, hroom, helement⟩ := h
    exact ⟨hnext, hhead, (Nat.lt_succ_self _).trans hroom, helement⟩
  | _ => exact h

end Frames

section Pushing

variable {α : Type*} {q q' : AtomicQueueB2 α} {p p' : Push α} {c : Pop α} {taken : ℕ}
  {items : List α}

/-- A thread that waits in `push` sees an empty cell exactly when there is room. -/
theorem Ring.empty_iff (h : Ring q p c taken items) :
    q.states (q.cell (taken+items.length)) = .empty ↔ items.length < q.size.toNat := by
  constructor
  · intro hempty
    by_contra hfull
    have hlength := h.length_le
    have hpos := h.sized.pos
    have hlast := (h.stored 0 (by omega)).1
    have hsame : q.cell (taken+items.length) = q.cell (taken+0) := by
      rw [h.sized.cell_eq_iff, show items.length = q.size.toNat by omega]
      exact add_size_modEq taken
    rw [← hsame, hempty] at hlast
    cases hlast
  · exact h.empty _ le_rfl

/-- A thread in `push` either goes on or, at the end, puts its element behind
the list. -/
theorem Ring.pushStep (h : Ring q p c taken items)
    (hs : q.pushStep true p = some (q', p')) :
    q'.size = q.size ∧
      (p'.held = p.held ∧ Ring q' p' c taken items ∨
        ∃ a, p.held = some a ∧ p' = .idle ∧ items.length < q.size.toNat ∧
          Ring q' p' c taken (items ++ [a])) := by
  cases p with
  | idle => cases hs
  | load element =>
    cases hs
    exact ⟨rfl, .inl ⟨rfl, h.sized, h.length_le, h.stored, h.empty, ⟨h.push, h.push⟩, h.pop⟩⟩
  | advance element head =>
    cases hs
    obtain ⟨_, hhead⟩ := h.push
    refine ⟨rfl, .inl ⟨rfl, h.sized, h.length_le, h.stored, h.empty, ⟨?_, hhead⟩, h.pop⟩⟩
    rw [← AtomicQueueB2.ofNat_succ, hhead]
  | wait element head =>
    obtain ⟨hnext, hhead⟩ := h.push
    obtain ⟨hempty, rfl, rfl⟩ := AtomicQueueB2.pushStep_wait_eq_some.mp hs
    rw [hhead] at hempty
    have hroom := h.empty_iff.mp hempty
    exact ⟨rfl, .inl ⟨rfl, h.sized, h.length_le, h.stored, h.empty, ⟨hnext, hhead, hroom⟩, h.pop⟩⟩
  | write element head =>
    cases hs
    obtain ⟨hnext, rfl, hroom⟩ := h.push
    refine ⟨rfl, .inl ⟨rfl, h.sized, h.length_le, fun i hi => ?_, h.empty,
      ⟨hnext, rfl, hroom, AtomicQueueB2.elements_setElement_self ..⟩, h.pop⟩⟩
    have hne := h.sized.cell_ne taken (by omega) hroom hi.ne
    obtain ⟨hstored, hitem⟩ := h.stored i hi
    exact ⟨hstored, hitem.trans
      (congrArg some (AtomicQueueB2.elements_setElement_of_ne hne _).symm)⟩
  | publish element head =>
    cases hs
    obtain ⟨hnext, rfl, hroom, helement⟩ := h.push
    refine ⟨rfl, .inr ⟨element, rfl, rfl, hroom, h.sized, ?_, fun i hi => ?_, fun i hi hsize => ?_,
      ?_, h.pop.append element⟩⟩
    · rw [List.length_append, List.length_singleton]
      exact hroom
    · rw [List.length_append, List.length_singleton] at hi
      rw [AtomicQueueB2.cell_setState]
      by_cases hlast : i = items.length
      · rw [hlast, List.getElem?_concat_length]
        exact ⟨AtomicQueueB2.states_setState_self .., by rw [← helement]; rfl⟩
      · have hne := h.sized.cell_ne taken (by omega) hroom hlast
        rw [List.getElem?_append_left (by omega)]
        exact ⟨(AtomicQueueB2.states_setState_of_ne hne _).trans (h.stored i (by omega)).1,
          (h.stored i (by omega)).2⟩
    · rw [List.length_append, List.length_singleton] at hi
      have hne := h.sized.cell_ne taken hsize hroom (by omega)
      exact (AtomicQueueB2.states_setState_of_ne hne _).trans (h.empty i (by omega) hsize)
    · rw [List.length_append, List.length_singleton]
      exact hnext

end Pushing

section Popping

variable {α : Type*} {q q' : AtomicQueueB2 α} {p : Push α} {c c' : Pop α} {taken : ℕ}
  {items : List α}

/-- A thread that waits in `pop` sees a stored cell exactly when there is an
element. -/
theorem Ring.stored_iff (h : Ring q p c taken items) :
    q.states (q.cell taken) = .stored ↔ items ≠ [] := by
  constructor
  · rintro hstored rfl
    have hempty := h.empty 0 le_rfl h.sized.pos
    rw [Nat.add_zero, hstored] at hempty
    cases hempty
  · intro hne
    exact (h.stored 0 (List.length_pos_iff.mpr hne)).1

/-- A thread in `pop` either goes on or, at the end, takes the first element of
the list. -/
theorem Ring.popStep (h : Ring q p c taken items) (hs : q.popStep true c = some (q', c')) :
    q'.size = q.size ∧
      (c'.held = none ∧ Ring q' p c' taken items ∨
        ∃ a rest, items = a :: rest ∧ c' = .done a ∧ Ring q' p c' (taken+1) rest) := by
  cases c with
  | idle => cases hs
  | load =>
    cases hs
    exact ⟨rfl, .inl ⟨rfl, h.sized, h.length_le, h.stored, h.empty, h.push, ⟨h.pop, h.pop⟩⟩⟩
  | advance tail =>
    cases hs
    obtain ⟨_, htail⟩ := h.pop
    refine ⟨rfl, .inl ⟨rfl, h.sized, h.length_le, h.stored, h.empty, h.push, ⟨?_, htail⟩⟩⟩
    rw [← AtomicQueueB2.ofNat_succ, htail]
  | wait tail =>
    obtain ⟨hnext, htail⟩ := h.pop
    obtain ⟨hstored, rfl, rfl⟩ := AtomicQueueB2.popStep_wait_eq_some.mp hs
    rw [htail] at hstored
    have hsome := h.stored_iff.mp hstored
    exact ⟨rfl, .inl ⟨rfl, h.sized, h.length_le, h.stored, h.empty, h.push,
      ⟨hnext, htail, hsome⟩⟩⟩
  | read tail =>
    cases hs
    obtain ⟨hnext, rfl, hsome⟩ := h.pop
    refine ⟨rfl, .inl ⟨rfl, h.sized, h.length_le, h.stored, h.empty, h.push, ⟨hnext, rfl, ?_⟩⟩⟩
    rw [List.head?_eq_getElem?]
    exact (h.stored 0 (List.length_pos_iff.mpr hsome)).2
  | release element tail =>
    cases hs
    obtain ⟨hnext, rfl, hfirst⟩ := h.pop
    obtain ⟨rest, rfl⟩ := List.head?_eq_some_iff.mp hfirst
    have hlength := h.length_le
    rw [List.length_cons] at hlength
    have hne : ∀ {i}, i+1 < q.size.toNat → q.cell (taken+1+i) ≠ q.cell taken := fun {i} hi => by
      rw [show taken+1+i = taken+(i+1) by omega]
      exact h.sized.cell_ne taken (j := 0) hi (by omega) (by omega)
    refine ⟨rfl, .inr ⟨element, rest, rfl, rfl, h.sized, by exact Nat.le_of_succ_le hlength,
      fun i hi => ?_, fun i hi hsize => ?_, ?_, hnext⟩⟩
    · have hold := h.stored (i+1) (by rw [List.length_cons]; omega)
      rw [List.getElem?_cons_succ, show taken+(i+1) = taken+1+i by omega] at hold
      exact ⟨(AtomicQueueB2.states_setState_of_ne (hne (by omega)) _).trans hold.1, hold.2⟩
    · by_cases hlast : i+1 = q.size.toNat
      · have hsame : q.cell (taken+1+i) = q.cell taken := by
          rw [h.sized.cell_eq_iff, show taken+1+i = taken+q.size.toNat by omega]
          exact add_size_modEq taken
        rw [AtomicQueueB2.cell_setState, hsame]
        exact AtomicQueueB2.states_setState_self ..
      · have hsize' : i+1 < q.size.toNat := lt_of_le_of_ne hsize hlast
        have hold := h.empty (i+1) (by rw [List.length_cons]; omega) hsize'
        rw [show taken+(i+1) = taken+1+i by omega] at hold
        exact (AtomicQueueB2.states_setState_of_ne (hne hsize') _).trans hold
    · have hpush := h.push.tail (q.index (BitVec.ofNat 32 taken)) .empty
      rwa [List.length_cons, show taken+(rest.length+1) = taken+1+rest.length by omega] at hpush
  | done element => cases hs

end Popping

section Runs

variable {α : Type*} {size : Unsigned} {nil : α}

/-- A new queue is an empty list. -/
theorem ring_new (size : Unsigned) (nil : α) :
    Ring (AtomicQueueB2.new size nil) .idle .idle 0 [] := by
  refine ⟨sized_new size nil, Nat.zero_le _, fun i hi => ?_, fun _ _ _ => rfl, rfl, rfl⟩
  exact absurd hi (Nat.not_lt_zero i)

/-- Calling `push` does nothing to the queue yet. -/
theorem Ring.enter {q : AtomicQueueB2 α} {c : Pop α} {taken : ℕ} {items : List α}
    (h : Ring q .idle c taken items) (element : α) : Ring q (.load element) c taken items :=
  ⟨h.sized, h.length_le, h.stored, h.empty, h.push, h.pop⟩

/-- Calling `pop` does nothing to the queue yet. -/
theorem Ring.ask {q : AtomicQueueB2 α} {p : Push α} {taken : ℕ} {items : List α}
    (h : Ring q p .idle taken items) : Ring q p .load taken items :=
  ⟨h.sized, h.length_le, h.stored, h.empty, h.push, h.pop⟩

/-- Returning from `pop` does nothing to the queue any more. -/
theorem Ring.give {q : AtomicQueueB2 α} {p : Push α} {element : α} {taken : ℕ} {items : List α}
    (h : Ring q p (.done element) taken items) : Ring q p .idle taken items :=
  ⟨h.sized, h.length_le, h.stored, h.empty, h.push, h.pop⟩

/-- The list between the two threads, and what has gone in and come out. -/
structure Fifo (cells : Unsigned) (history : List (Label Unit Unit α)) (s : System Unit Unit α)
    (taken : ℕ) (items : List α) : Prop where
  /-- The number of cells stays the same. -/
  size : s.queue.size = cells
  /-- The queue holds the list. -/
  ring : Ring s.queue (s.push ()) (s.pop ()) taken items
  /-- Nothing is lost, repeated or overtaken. -/
  order : entered history =
    given history ++ (s.pop ()).held.toList ++ items ++ (s.push ()).held.toList

/-- Every step of the two threads keeps the list. -/
theorem Fifo.step {cells : Unsigned} {history : List (Label Unit Unit α)}
    {s t : System Unit Unit α} {a : Label Unit Unit α} {taken : ℕ} {items : List α}
    (h : Fifo cells history s taken items) (hs : Step true s a t) :
    ∃ taken' items', Fifo cells (a :: history) t taken' items' := by
  obtain ⟨hsize, hring, horder⟩ := h
  cases hs with
  | @enter i element hidle =>
    rw [hidle] at hring horder
    refine ⟨taken, items, hsize, ?_, ?_⟩
    · dsimp only
      rw [Function.update_self]
      exact hring.enter element
    · dsimp only [entered, given]
      rw [horder, Function.update_self]
      simp only [Push.held, Option.toList_none, Option.toList_some, List.append_nil]
  | @push i q p hpush =>
    obtain ⟨hkeep, ⟨hheld, hring'⟩ | ⟨element, hheld, rfl, _, hring'⟩⟩ := hring.pushStep hpush
    · refine ⟨taken, items, hkeep.trans hsize, ?_, ?_⟩
      · dsimp only
        rwa [Function.update_self]
      · dsimp only [entered, given]
        rw [horder, Function.update_self, hheld]
    · refine ⟨taken, items ++ [element], hkeep.trans hsize, ?_, ?_⟩
      · dsimp only
        rwa [Function.update_self]
      · dsimp only [entered, given]
        rw [horder, Function.update_self, hheld]
        simp only [Push.held, Option.toList_none, Option.toList_some, List.append_nil,
          List.append_assoc]
  | @ask k hidle =>
    rw [hidle] at hring horder
    refine ⟨taken, items, hsize, ?_, ?_⟩
    · dsimp only
      rw [Function.update_self]
      exact hring.ask
    · dsimp only [entered, given]
      rw [horder, Function.update_self]
      rfl
  | @pop k q c hpop =>
    have hnone := held_eq_none_of_popStep hpop
    rw [hnone] at horder
    obtain ⟨hkeep, ⟨hheld, hring'⟩ | ⟨element, rest, rfl, rfl, hring'⟩⟩ := hring.popStep hpop
    · refine ⟨taken, items, hkeep.trans hsize, ?_, ?_⟩
      · dsimp only
        rwa [Function.update_self]
      · dsimp only [entered, given]
        rw [horder, Function.update_self, hheld]
    · refine ⟨taken+1, rest, hkeep.trans hsize, ?_, ?_⟩
      · dsimp only
        rwa [Function.update_self]
      · dsimp only [entered, given]
        rw [horder, Function.update_self]
        simp only [Pop.held, Option.toList_none, Option.toList_some, List.append_nil,
          List.append_assoc, List.cons_append, List.nil_append]
  | @give k element hdone =>
    rw [hdone] at hring horder
    refine ⟨taken, items, hsize, ?_, ?_⟩
    · dsimp only
      rw [Function.update_self]
      exact hring.give
    · dsimp only [entered, given]
      rw [horder, Function.update_self]
      simp only [Pop.held, Option.toList_none, Option.toList_some, List.append_nil]

/-- After every run the queue holds a list. -/
theorem fifo_of_run {history : List (Label Unit Unit α)} {s : System Unit Unit α}
    (hr : Run (Step true) (System.start size nil) history s) :
    ∃ taken items, Fifo (AtomicQueueB2.new size nil).size history s taken items := by
  refine hr.invariant (I := fun history s =>
    ∃ taken items, Fifo (AtomicQueueB2.new size nil).size history s taken items)
    ⟨0, [], rfl, ring_new size nil, rfl⟩ ?_
  rintro history s a t _ ⟨taken, items, h⟩ hs
  exact h.step hs

/-- One thread pushes and one pops, in any order of their accesses, however often
the counters wrap. What has been pushed is, in order, what has been returned,
what is about to be returned, a list of at most as many elements as there are
cells, and what is being pushed. A thread waiting in `push` is held up exactly
while the list is full, one waiting in `pop` exactly while it is empty, and the
two never work on one cell at the same time. -/
theorem fifo_between_two_threads {history : List (Label Unit Unit α)} {s : System Unit Unit α}
    (hr : Run (Step true) (System.start size nil) history s) :
    ∃ items, entered history =
        given history ++ (s.pop ()).held.toList ++ items ++ (s.push ()).held.toList ∧
      items.length ≤ (AtomicQueueB2.new size nil).size.toNat ∧
      (∀ element head, s.push () = .wait element head →
        (s.queue.pushStep true (s.push ()) = none ↔
          items.length = (AtomicQueueB2.new size nil).size.toNat)) ∧
      (∀ tail, s.pop () = .wait tail → (s.queue.popStep true (s.pop ()) = none ↔ items = [])) ∧
      ∀ element head tail, s.push () = .write element head → s.pop () = .read tail →
        s.queue.index head ≠ s.queue.index tail := by
  obtain ⟨taken, items, hsize, hring, horder⟩ := fifo_of_run hr
  have hlength := hring.length_le
  refine ⟨items, horder, hsize ▸ hlength, ?_, ?_, ?_⟩
  · intro element head hwait
    have hpush := hring.push
    have hempty := hring.empty_iff
    rw [hwait] at hpush ⊢
    rw [AtomicQueueB2.pushStep_wait_eq_none, ← hsize, hpush.2]
    exact (not_congr hempty).trans ⟨fun h => by omega, fun h => by omega⟩
  · intro tail hwait
    have hpop := hring.pop
    have hstored := hring.stored_iff
    rw [hwait] at hpop ⊢
    rw [AtomicQueueB2.popStep_wait_eq_none, hpop.2]
    exact (not_congr hstored).trans not_not
  · intro element head tail hwrite hread
    have hpush := hring.push
    have hpop := hring.pop
    rw [hwrite] at hpush
    rw [hread] at hpop
    obtain ⟨_, rfl, hroom⟩ := hpush
    obtain ⟨_, rfl, hsome⟩ := hpop
    have hpos := List.length_pos_iff.mpr hsome
    exact hring.sized.cell_ne taken (j := 0) hroom (by omega) (by omega)

/-- Two numbers that are pushed, of which the first one is popped. -/
theorem fifo_between_two_threads_two :
    ∃ history s, Run (Step true) (System.start 1024 0 : System Unit Unit ℕ) history s ∧
      entered history = [7, 8] ∧ given history = [7] ∧
      ∃ items, [7, 8] = [7] ++ (s.pop ()).held.toList ++ items ++ (s.push ()).held.toList ∧
        items.length ≤ 4096 ∧ items = [8] := by
  have hpushed : Run (Step true) (System.start 1024 0 : System Unit Unit ℕ)
      [.push (), .push (), .push (), .push (), .push (), .enter () 8,
        .push (), .push (), .push (), .push (), .push (), .enter () 7] _ :=
    (((((((((((Run.start.next (.enter rfl)).next (.push rfl)).next (.push rfl)).next
      (.push rfl)).next (.push rfl)).next (.push rfl)).next (.enter rfl)).next (.push rfl)).next
      (.push rfl)).next (.push rfl)).next (.push rfl)).next (.push rfl)
  have hpopped : Run (Step true) (System.start 1024 0 : System Unit Unit ℕ)
      ([.give () 7, .pop (), .pop (), .pop (), .pop (), .pop (), .ask ()] ++
        [.push (), .push (), .push (), .push (), .push (), .enter () 8,
          .push (), .push (), .push (), .push (), .push (), .enter () 7]) _ :=
    hpushed.append (((((((Run.start.next (.ask rfl)).next (.pop rfl)).next (.pop rfl)).next
      (.pop rfl)).next (.pop rfl)).next (.pop rfl)).next (.give rfl))
  obtain ⟨items, horder, hlength, _⟩ := fifo_between_two_threads hpopped
  rw [show (AtomicQueueB2.new 1024 0).size.toNat = 4096 by decide] at hlength
  have hitems : [7, 8] = [7] ++ [] ++ items ++ [] := horder
  exact ⟨_, _, hpopped, rfl, rfl, items, horder, hlength, by simpa using hitems.symm⟩

end Runs

end CapsuleDB.UtilAtomicQueue

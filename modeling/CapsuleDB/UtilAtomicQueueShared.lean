import CapsuleDB.CellOwners
import CapsuleDB.UtilAtomicQueue
import Mathlib.Data.Multiset.Basic
import Mathlib.Algebra.Order.BigOperators.Group.Finset
import Mathlib.Algebra.Order.Group.Multiset

/-!
# Any number of pushing and popping threads

Compiled for any number of threads, a queue marks a cell while a thread stores
to it or loads from it, so that no two threads work on one cell. Threads whose
tickets share a cell may overtake each other; still no element is lost or
returned twice, and the tickets given out for each cell tell that threads wait
in `push` for ever only when every cell is full, and in `pop` only when every
cell is empty.
-/

namespace CapsuleDB.UtilAtomicQueue

open LabelledRun TicketRing CellOwners

section Phases

variable {α : Type*}

/-- The cell that a thread in `push` has marked. -/
def Push.works (q : AtomicQueueB2 α) : Push α → Option ℕ
  | .idle => none
  | .load _ => none
  | .advance _ _ => none
  | .wait _ _ => none
  | .write _ head => some (q.index head)
  | .publish _ head => some (q.index head)

/-- The cell that a thread in `pop` has marked. -/
def Pop.works (q : AtomicQueueB2 α) : Pop α → Option ℕ
  | .idle => none
  | .load => none
  | .advance _ => none
  | .wait _ => none
  | .read tail => some (q.index tail)
  | .release _ tail => some (q.index tail)
  | .done _ => none

/-- What a thread in `push` has read agrees with the queue. -/
def Push.Sound (q : AtomicQueueB2 α) : Push α → Prop
  | .idle => True
  | .load _ => True
  | .advance _ _ => False
  | .wait _ _ => True
  | .write _ _ => True
  | .publish element head => q.elements (q.index head) = element

/-- What a thread in `pop` has read agrees with the queue. -/
def Pop.Sound (q : AtomicQueueB2 α) : Pop α → Prop
  | .idle => True
  | .load => True
  | .advance _ => False
  | .wait _ => True
  | .read _ => True
  | .release element tail => q.elements (q.index tail) = element
  | .done _ => True

/-- The cell of the ticket that a thread in `push` holds. -/
def Push.ticket (q : AtomicQueueB2 α) : Push α → Option ℕ
  | .idle => none
  | .load _ => none
  | .advance _ _ => none
  | .wait _ head => some (q.index head)
  | .write _ head => some (q.index head)
  | .publish _ head => some (q.index head)

/-- The cell of the ticket that a thread in `pop` holds. -/
def Pop.ticket (q : AtomicQueueB2 α) : Pop α → Option ℕ
  | .idle => none
  | .load => none
  | .advance _ => none
  | .wait tail => some (q.index tail)
  | .read tail => some (q.index tail)
  | .release _ tail => some (q.index tail)
  | .done _ => none

/-- Whether a cell in this state has an element. -/
def State.full : State → Bool
  | .empty => false
  | .storing => false
  | .stored => true
  | .loading => true

namespace AtomicQueueB2

/-- The elements in a cell. -/
def bag (q : AtomicQueueB2 α) (c : ℕ) : Multiset α :=
  if (q.states c).full then {q.elements c} else 0

/-- Whether a cell has an element. -/
def occupied (q : AtomicQueueB2 α) (c : ℕ) : ℕ := if (q.states c).full then 1 else 0

end AtomicQueueB2

end Phases

section Claims

variable {ι κ α : Type*}

/-- Every marked cell has one thread, and every thread knows its cell. -/
structure Claims (s : System ι κ α) : Prop where
  /-- The size is one that tickets work with. -/
  sized : s.queue.Sized
  /-- The threads in `push` mark their cells with `STORING`. -/
  storing : Owned (fun i => (s.push i).works s.queue) s.queue.states .storing
  /-- The threads in `pop` mark their cells with `LOADING`. -/
  loading : Owned (fun k => (s.pop k).works s.queue) s.queue.states .loading
  /-- The threads in `push` have read what is there. -/
  pushing : ∀ i, (s.push i).Sound s.queue
  /-- The threads in `pop` have read what is there. -/
  popping : ∀ k, (s.pop k).Sound s.queue

/-- No other thread's element is overwritten. -/
theorem Push.Sound.setElement {q : AtomicQueueB2 α} {p : Push α} {c : ℕ} {a : α}
    (h : p.Sound q) (hc : p.works q ≠ some c) : p.Sound (q.setElement c a) := by
  cases p with
  | publish element head =>
    have hne : q.index head ≠ c := fun heq => hc (congrArg some heq)
    exact (AtomicQueueB2.elements_setElement_of_ne hne a).trans h
  | _ => exact h

/-- No element is overwritten before it is returned. -/
theorem Pop.Sound.setElement {q : AtomicQueueB2 α} {p : Pop α} {c : ℕ} {a : α}
    (h : p.Sound q) (hc : p.works q ≠ some c) : p.Sound (q.setElement c a) := by
  cases p with
  | release element tail =>
    have hne : q.index tail ≠ c := fun heq => hc (congrArg some heq)
    exact (AtomicQueueB2.elements_setElement_of_ne hne a).trans h
  | _ => exact h

/-- One thread in `push` moves on. -/
theorem works_update_push [DecidableEq ι] (q : AtomicQueueB2 α) (push : ι → Push α) (i : ι)
    (p : Push α) :
    (fun j => (Function.update push i p j).works q) =
      Function.update (fun j => (push j).works q) i (p.works q) :=
  funext fun j => Function.apply_update (fun _ p => Push.works q p) push i p j

/-- One thread in `pop` moves on. -/
theorem works_update_pop [DecidableEq κ] (q : AtomicQueueB2 α) (pop : κ → Pop α) (k : κ)
    (c : Pop α) :
    (fun j => (Function.update pop k c j).works q) =
      Function.update (fun j => (pop j).works q) k (c.works q) :=
  funext fun j => Function.apply_update (fun _ c => Pop.works q c) pop k c j

/-- An access of a thread in `push` keeps the claims. -/
theorem Claims.pushStep [DecidableEq ι] {s : System ι κ α} (h : Claims s) {i : ι}
    {q : AtomicQueueB2 α} {p : Push α} (hs : s.queue.pushStep false (s.push i) = some (q, p)) :
    Claims { s with queue := q, push := Function.update s.push i p } := by
  have hsound := h.pushing i
  have hstoring := h.storing
  cases hp : s.push i with
  | idle => rw [hp] at hs; cases hs
  | load element =>
    rw [hp] at hs
    cases hs
    refine ⟨h.sized, ?_, h.loading, ?_, h.popping⟩
    · exact (works_update_push s.queue s.push i _).symm ▸ hstoring.stay (by rw [hp]; rfl)
    · exact (Function.forall_update_iff _ _).mpr ⟨trivial, fun j _ => h.pushing j⟩
  | advance element head => rw [hp] at hsound; exact hsound.elim
  | wait element head =>
    rw [hp] at hs
    obtain ⟨hempty, rfl, rfl⟩ := AtomicQueueB2.pushStep_wait_eq_some.mp hs
    refine ⟨h.sized, ?_, h.loading.other (by rw [hempty]; decide) (by decide), ?_, h.popping⟩
    · exact (works_update_push s.queue s.push i _).symm ▸
        hstoring.enter (by rw [hempty]; decide) (by rw [hp]; rfl)
    · exact (Function.forall_update_iff _ _).mpr ⟨trivial, fun j _ => h.pushing j⟩
  | write element head =>
    rw [hp] at hs
    cases hs
    have hworks : (s.push i).works s.queue = some (s.queue.index head) := by rw [hp]; rfl
    have hmark := hstoring.marked i _ hworks
    refine ⟨h.sized, ?_, h.loading, ?_, fun k => ?_⟩
    · exact (works_update_push s.queue s.push i _).symm ▸ hstoring.stay hworks
    · refine (Function.forall_update_iff _ _).mpr ⟨?_, fun j hj => ?_⟩
      · exact AtomicQueueB2.elements_setElement_self _ _
      · exact (h.pushing j).setElement fun hw => hj (hstoring.unique j i _ hw hworks)
    · refine (h.popping k).setElement (h.loading.not_works ?_ k)
      rw [hmark]
      decide
  | publish element head =>
    rw [hp] at hs
    cases hs
    have hworks : (s.push i).works s.queue = some (s.queue.index head) := by rw [hp]; rfl
    have hmark := hstoring.marked i _ hworks
    refine ⟨h.sized, ?_, h.loading.other (by rw [hmark]; decide) (by decide), ?_, h.popping⟩
    · exact (works_update_push s.queue s.push i _).symm ▸ hstoring.leave hworks (by decide)
    · exact (Function.forall_update_iff _ _).mpr ⟨trivial, fun j _ => h.pushing j⟩

/-- An access of a thread in `pop` keeps the claims. -/
theorem Claims.popStep [DecidableEq κ] {s : System ι κ α} (h : Claims s) {k : κ}
    {q : AtomicQueueB2 α} {c : Pop α} (hs : s.queue.popStep false (s.pop k) = some (q, c)) :
    Claims { s with queue := q, pop := Function.update s.pop k c } := by
  have hsound := h.popping k
  have hloading := h.loading
  cases hc : s.pop k with
  | idle => rw [hc] at hs; cases hs
  | load =>
    rw [hc] at hs
    cases hs
    refine ⟨h.sized, h.storing, ?_, h.pushing, ?_⟩
    · exact (works_update_pop s.queue s.pop k _).symm ▸ hloading.stay (by rw [hc]; rfl)
    · exact (Function.forall_update_iff _ _).mpr ⟨trivial, fun j _ => h.popping j⟩
  | advance tail => rw [hc] at hsound; exact hsound.elim
  | wait tail =>
    rw [hc] at hs
    obtain ⟨hstored, rfl, rfl⟩ := AtomicQueueB2.popStep_wait_eq_some.mp hs
    refine ⟨h.sized, h.storing.other (by rw [hstored]; decide) (by decide), ?_, h.pushing, ?_⟩
    · exact (works_update_pop s.queue s.pop k _).symm ▸
        hloading.enter (by rw [hstored]; decide) (by rw [hc]; rfl)
    · exact (Function.forall_update_iff _ _).mpr ⟨trivial, fun j _ => h.popping j⟩
  | read tail =>
    rw [hc] at hs
    cases hs
    have hworks : (s.pop k).works s.queue = some (s.queue.index tail) := by rw [hc]; rfl
    refine ⟨h.sized, h.storing, ?_, h.pushing, ?_⟩
    · exact (works_update_pop s.queue s.pop k _).symm ▸ hloading.stay hworks
    · exact (Function.forall_update_iff _ _).mpr ⟨rfl, fun j _ => h.popping j⟩
  | release element tail =>
    rw [hc] at hs
    cases hs
    have hworks : (s.pop k).works s.queue = some (s.queue.index tail) := by rw [hc]; rfl
    have hmark := hloading.marked k _ hworks
    refine ⟨h.sized, h.storing.other (by rw [hmark]; decide) (by decide), ?_, h.pushing, ?_⟩
    · exact (works_update_pop s.queue s.pop k _).symm ▸ hloading.leave hworks (by decide)
    · exact (Function.forall_update_iff _ _).mpr ⟨trivial, fun j _ => h.popping j⟩
  | done element => rw [hc] at hs; cases hs

/-- Every step keeps the claims. -/
theorem Claims.step [DecidableEq ι] [DecidableEq κ] {s t : System ι κ α} {a : Label ι κ α}
    (h : Claims s) (hs : Step false s a t) : Claims t := by
  cases hs with
  | @enter i element hidle =>
    refine ⟨h.sized, ?_, h.loading, ?_, h.popping⟩
    · exact (works_update_push s.queue s.push i _).symm ▸ h.storing.stay (by rw [hidle]; rfl)
    · exact (Function.forall_update_iff _ _).mpr ⟨trivial, fun j _ => h.pushing j⟩
  | push hpush => exact h.pushStep hpush
  | @ask k hidle =>
    refine ⟨h.sized, h.storing, ?_, h.pushing, ?_⟩
    · exact (works_update_pop s.queue s.pop k _).symm ▸ h.loading.stay (by rw [hidle]; rfl)
    · exact (Function.forall_update_iff _ _).mpr ⟨trivial, fun j _ => h.popping j⟩
  | pop hpop => exact h.popStep hpop
  | @give k element hdone =>
    refine ⟨h.sized, h.storing, ?_, h.pushing, ?_⟩
    · exact (works_update_pop s.queue s.pop k _).symm ▸ h.loading.stay (by rw [hdone]; rfl)
    · exact (Function.forall_update_iff _ _).mpr ⟨trivial, fun j _ => h.popping j⟩

/-- At the start no cell is marked. -/
theorem claims_start (size : Unsigned) (nil : α) :
    Claims (System.start size nil : System ι κ α) := by
  refine ⟨sized_new size nil, owned_none fun _ => ?_, owned_none fun _ => ?_, fun _ => trivial,
    fun _ => trivial⟩
  · exact State.noConfusion
  · exact State.noConfusion

end Claims

section Contents

variable {ι κ α : Type*} [Fintype ι] [Fintype κ]

/-- The elements that the threads in `push` have still to store. -/
def System.incoming (s : System ι κ α) : Multiset α := ∑ i, ↑(s.push i).held.toList

/-- The elements that the threads in `pop` have taken out. -/
def System.outgoing (s : System ι κ α) : Multiset α := ∑ k, ↑(s.pop k).held.toList

/-- The elements in the cells. -/
def AtomicQueueB2.contents (q : AtomicQueueB2 α) : Multiset α :=
  ∑ c ∈ Finset.range q.size.toNat, q.bag c

/-- Every element pushed has been returned, or is on its way through the queue, once. -/
def Conserved (history : List (Label ι κ α)) (s : System ι κ α) : Prop :=
  (entered history : Multiset α) =
    given history + s.outgoing + s.queue.contents + s.incoming

omit [Fintype ι] [Fintype κ] in
/-- Storing a state changes the contents of its cell. -/
theorem AtomicQueueB2.contents_setState {q : AtomicQueueB2 α} (hq : q.Sized) (ticket : Unsigned)
    {old : State} (st : State) (hold : q.states (q.index ticket) = old) :
    (q.setState (q.index ticket) st).contents +
        (if old.full then {q.elements (q.index ticket)} else 0) =
      q.contents + if st.full then {q.elements (q.index ticket)} else 0 := by
  have hcell : q.index ticket < q.size.toNat := by
    have hlt := hq.cell_lt ticket.toNat
    rwa [AtomicQueueB2.cell, BitVec.ofNat_toNat, BitVec.setWidth_eq] at hlt
  have hsum := sum_change (f := q.bag) (g := (q.setState (q.index ticket) st).bag)
    (Finset.mem_range.mpr hcell) fun c _ hc => by
      rw [bag, bag, AtomicQueueB2.states_setState_of_ne hc]
      rfl
  rw [bag, bag, AtomicQueueB2.states_setState_self, hold] at hsum
  exact hsum

omit [Fintype ι] [Fintype κ] in
/-- Storing an element to a cell without one changes no contents. -/
theorem AtomicQueueB2.contents_setElement {q : AtomicQueueB2 α} {c : ℕ} {a : α}
    (hc : q.states c = .storing) : (q.setElement c a).contents = q.contents := by
  refine Finset.sum_congr rfl fun d _ => ?_
  rw [bag, bag]
  by_cases hd : d = c
  · have hsame : (q.setElement c a).states d = .storing := by rw [hd]; exact hc
    rw [hsame, hd, hc]
    rfl
  · rw [AtomicQueueB2.elements_setElement_of_ne hd]
    rfl

omit [Fintype ι] [Fintype κ] in
/-- An access of a thread in `push` moves nothing, or its element into its cell. -/
theorem Claims.push_contents {s : System ι κ α} (h : Claims s) {i : ι} {q : AtomicQueueB2 α}
    {p : Push α} (hs : s.queue.pushStep false (s.push i) = some (q, p)) :
    q.contents + p.held.toList = s.queue.contents + (s.push i).held.toList := by
  have hsound := h.pushing i
  cases hp : s.push i with
  | idle => rw [hp] at hs; cases hs
  | load element => rw [hp] at hs; cases hs; rfl
  | advance element head => rw [hp] at hsound; exact hsound.elim
  | wait element head =>
    rw [hp] at hs
    obtain ⟨hempty, rfl, rfl⟩ := AtomicQueueB2.pushStep_wait_eq_some.mp hs
    have hsame := AtomicQueueB2.contents_setState h.sized head .storing hempty
    simp only [State.full, Bool.false_eq_true, if_false, add_zero] at hsame
    exact congrArg (· + _) hsame
  | write element head =>
    rw [hp] at hs
    cases hs
    have hmark := h.storing.marked i (s.queue.index head) (by rw [hp]; rfl)
    exact congrArg (· + _) (AtomicQueueB2.contents_setElement hmark)
  | publish element head =>
    rw [hp] at hs hsound
    cases hs
    have hmark := h.storing.marked i (s.queue.index head) (by rw [hp]; rfl)
    have hmore := AtomicQueueB2.contents_setState h.sized head .stored hmark
    have helement : s.queue.elements (s.queue.index head) = element := hsound
    simp only [State.full, Bool.false_eq_true, if_false, if_true, helement] at hmore
    exact hmore

omit [Fintype ι] [Fintype κ] in
/-- An access of a thread in `pop` moves nothing, or the element of its cell out. -/
theorem Claims.pop_contents {s : System ι κ α} (h : Claims s) {k : κ} {q : AtomicQueueB2 α}
    {c : Pop α} (hs : s.queue.popStep false (s.pop k) = some (q, c)) :
    q.contents + c.held.toList = s.queue.contents + (s.pop k).held.toList := by
  have hsound := h.popping k
  cases hc : s.pop k with
  | idle => rw [hc] at hs; cases hs
  | load => rw [hc] at hs; cases hs; rfl
  | advance tail => rw [hc] at hsound; exact hsound.elim
  | wait tail =>
    rw [hc] at hs
    obtain ⟨hstored, rfl, rfl⟩ := AtomicQueueB2.popStep_wait_eq_some.mp hs
    have hsame := AtomicQueueB2.contents_setState h.sized tail .loading hstored
    simp only [State.full, if_true, add_left_inj] at hsame
    exact congrArg (· + _) hsame
  | read tail => rw [hc] at hs; cases hs; rfl
  | release element tail =>
    rw [hc] at hs hsound
    cases hs
    have hmark := h.loading.marked k (s.queue.index tail) (by rw [hc]; rfl)
    have hless := AtomicQueueB2.contents_setState h.sized tail .empty hmark
    have helement : s.queue.elements (s.queue.index tail) = element := hsound
    simp only [State.full, Bool.false_eq_true, if_false, if_true, helement] at hless
    exact hless
  | done element => rw [hc] at hs; cases hs

omit [Fintype κ] in
/-- One thread in `push` moves on. -/
theorem System.incoming_update [DecidableEq ι] (s : System ι κ α) (q : AtomicQueueB2 α) (i : ι)
    (p : Push α) :
    System.incoming { s with queue := q, push := Function.update s.push i p } +
        (s.push i).held.toList = s.incoming + p.held.toList :=
  sum_update (fun p : Push α => (p.held.toList : Multiset α)) s.push i p

omit [Fintype ι] in
/-- One thread in `pop` moves on. -/
theorem System.outgoing_update [DecidableEq κ] (s : System ι κ α) (q : AtomicQueueB2 α) (k : κ)
    (c : Pop α) :
    System.outgoing { s with queue := q, pop := Function.update s.pop k c } +
        (s.pop k).held.toList = s.outgoing + c.held.toList :=
  sum_update (fun c : Pop α => (c.held.toList : Multiset α)) s.pop k c

/-- Every step of the threads keeps all elements. -/
theorem Conserved.step [DecidableEq ι] [DecidableEq κ] {history : List (Label ι κ α)}
    {s t : System ι κ α} {a : Label ι κ α} (h : Conserved history s) (hcl : Claims s)
    (hs : Step false s a t) : Conserved (a :: history) t := by
  unfold Conserved at h ⊢
  cases hs with
  | @enter i element hidle =>
    have hsum := s.incoming_update s.queue i (.load element)
    rw [hidle] at hsum
    simp only [Push.held, Option.toList_none, Option.toList_some, Multiset.coe_nil,
      add_zero] at hsum
    rw [hsum, entered, ← Multiset.coe_add, h, add_assoc]
    rfl
  | @push i q p hpush =>
    have hsum := s.incoming_update q i p
    have hmove := hcl.push_contents hpush
    rw [add_assoc] at h ⊢
    rw [entered, h]
    exact congrArg (_ + ·) (moved rfl hmove hsum)
  | @ask k hidle =>
    have hsum := s.outgoing_update s.queue k .load
    rw [hidle] at hsum
    rw [entered, h, ← add_right_cancel hsum]
    rfl
  | @pop k q c hpop =>
    have hsum := s.outgoing_update q k c
    have hmove := hcl.pop_contents hpop
    have hboth := moved rfl hsum hmove
    rw [entered, given, h, add_assoc _ s.outgoing, hboth, ← add_assoc]
    rfl
  | @give k element hdone =>
    have hsum := s.outgoing_update s.queue k .idle
    rw [hdone] at hsum
    simp only [Pop.held, Option.toList_none, Option.toList_some, Multiset.coe_nil, add_zero] at hsum
    rw [entered, h, given, ← Multiset.coe_add, ← hsum, ← add_assoc,
      add_right_comm _ (System.outgoing _)]
    rfl

end Contents

section Tickets

variable {ι κ α : Type*} [Fintype ι] [Fintype κ]

/-- The threads in `push` with a ticket of cell `c`. -/
def System.pushers (s : System ι κ α) (c : ℕ) : ℕ :=
  ∑ i, if (s.push i).ticket s.queue = some c then 1 else 0

/-- The threads in `pop` with a ticket of cell `c`. -/
def System.poppers (s : System ι κ α) (c : ℕ) : ℕ :=
  ∑ k, if (s.pop k).ticket s.queue = some c then 1 else 0

/-- The tickets given out for every cell: those of the elements that went in and
of the threads in `push` make up for those of the elements that came out and of
the threads in `pop`, but for the element in the cell. -/
structure Counted (pushes pops : ℕ) (s : System ι κ α) : Prop where
  /-- The counter of pushes. -/
  head : s.queue.head = BitVec.ofNat 32 pushes
  /-- The counter of pops. -/
  tail : s.queue.tail = BitVec.ofNat 32 pops
  /-- The tickets of the cell of ticket number `j`. -/
  balance : ∀ j, issued s.queue.size.toNat pushes j + s.poppers (s.queue.cell j) =
    issued s.queue.size.toNat pops j + s.pushers (s.queue.cell j) +
      s.queue.occupied (s.queue.cell j)

omit [Fintype ι] [Fintype κ] in
/-- The size decides the cell of a ticket. -/
theorem Push.ticket_congr {q q' : AtomicQueueB2 α} (h : q'.size = q.size) (p : Push α) :
    p.ticket q' = p.ticket q := by
  cases p <;> simp only [Push.ticket, AtomicQueueB2.index, h]

omit [Fintype ι] [Fintype κ] in
/-- The size decides the cell of a ticket. -/
theorem Pop.ticket_congr {q q' : AtomicQueueB2 α} (h : q'.size = q.size) (c : Pop α) :
    c.ticket q' = c.ticket q := by
  cases c <;> simp only [Pop.ticket, AtomicQueueB2.index, h]

omit [Fintype ι] [Fintype κ] in
/-- Storing a state fills or empties its cell and no other. -/
theorem AtomicQueueB2.occupied_setState (q : AtomicQueueB2 α) {i : ℕ} {old : State}
    (st : State) (hold : q.states i = old) (c : ℕ) :
    (q.setState i st).occupied c + (if i = c then if old.full then 1 else 0 else 0) =
      q.occupied c + if i = c then if st.full then 1 else 0 else 0 := by
  unfold occupied
  by_cases hc : i = c
  · subst hc
    rw [if_pos rfl, if_pos rfl, AtomicQueueB2.states_setState_self, hold, add_comm]
  · rw [if_neg hc, if_neg hc, AtomicQueueB2.states_setState_of_ne (Ne.symm hc)]

/-- One thread in `push` moves on, and what it changes at each cell evens out. -/
theorem Counted.update_push [DecidableEq ι] {pushes pushes' pops : ℕ} {s : System ι κ α}
    (h : Counted pushes pops s) {i : ι} {q : AtomicQueueB2 α} {p : Push α}
    (hhead : q.head = BitVec.ofNat 32 pushes') (htail : q.tail = s.queue.tail)
    (hsize : q.size = s.queue.size)
    (heven : ∀ j, issued s.queue.size.toNat pushes' j + s.queue.occupied (s.queue.cell j) +
        (if (s.push i).ticket s.queue = some (s.queue.cell j) then 1 else 0) =
      issued s.queue.size.toNat pushes j + q.occupied (s.queue.cell j) +
        if p.ticket s.queue = some (s.queue.cell j) then 1 else 0) :
    Counted pushes' pops { s with queue := q, push := Function.update s.push i p } := by
  refine ⟨hhead, htail.trans h.tail, fun j => ?_⟩
  have hcell : q.cell j = s.queue.cell j := by
    unfold AtomicQueueB2.cell AtomicQueueB2.index
    rw [hsize]
  have hsum := sum_update (fun p : Push α =>
    if p.ticket s.queue = some (s.queue.cell j) then 1 else 0) s.push i p
  have hbalance := h.balance j
  have hchange := heven j
  dsimp only [System.pushers, System.poppers] at hbalance ⊢
  simp only [hcell, hsize, Push.ticket_congr hsize, Pop.ticket_congr hsize]
  omega

/-- One thread in `pop` moves on, and what it changes at each cell evens out. -/
theorem Counted.update_pop [DecidableEq κ] {pushes pops pops' : ℕ} {s : System ι κ α}
    (h : Counted pushes pops s) {k : κ} {q : AtomicQueueB2 α} {c : Pop α}
    (hhead : q.head = s.queue.head) (htail : q.tail = BitVec.ofNat 32 pops')
    (hsize : q.size = s.queue.size)
    (heven : ∀ j, issued s.queue.size.toNat pops j + s.queue.occupied (s.queue.cell j) +
        (if c.ticket s.queue = some (s.queue.cell j) then 1 else 0) =
      issued s.queue.size.toNat pops' j + q.occupied (s.queue.cell j) +
        if (s.pop k).ticket s.queue = some (s.queue.cell j) then 1 else 0) :
    Counted pushes pops' { s with queue := q, pop := Function.update s.pop k c } := by
  refine ⟨hhead.trans h.head, htail, fun j => ?_⟩
  have hcell : q.cell j = s.queue.cell j := by
    unfold AtomicQueueB2.cell AtomicQueueB2.index
    rw [hsize]
  have hsum := sum_update (fun c : Pop α =>
    if c.ticket s.queue = some (s.queue.cell j) then 1 else 0) s.pop k c
  have hbalance := h.balance j
  have hchange := heven j
  dsimp only [System.pushers, System.poppers] at hbalance ⊢
  simp only [hcell, hsize, Push.ticket_congr hsize, Pop.ticket_congr hsize]
  omega

/-- An access of a thread in `push` keeps the count. -/
theorem Counted.pushStep [DecidableEq ι] {pushes pops : ℕ} {s : System ι κ α}
    (h : Counted pushes pops s) (hcl : Claims s) {i : ι} {q : AtomicQueueB2 α} {p : Push α}
    (hs : s.queue.pushStep false (s.push i) = some (q, p)) :
    ∃ pushes', Counted pushes' pops
      { s with queue := q, push := Function.update s.push i p } := by
  have hsound := hcl.pushing i
  cases hp : s.push i with
  | idle => rw [hp] at hs; cases hs
  | load element =>
    rw [hp] at hs
    cases hs
    refine ⟨pushes+1, h.update_push ?_ rfl rfl fun j => ?_⟩
    · dsimp only
      rw [h.head, AtomicQueueB2.ofNat_succ]
    · have hcell : s.queue.index s.queue.head = s.queue.cell j ↔
          pushes ≡ j [MOD s.queue.size.toNat] := by
        rw [h.head]
        exact hcl.sized.cell_eq_iff
      rw [hp, issued_succ]
      simp only [Push.ticket, reduceCtorEq, if_false, Option.some.injEq, hcell]
      exact add_right_comm (issued s.queue.size.toNat pushes j) _ _
  | advance element head => rw [hp] at hsound; exact hsound.elim
  | wait element head =>
    rw [hp] at hs
    obtain ⟨hempty, rfl, rfl⟩ := AtomicQueueB2.pushStep_wait_eq_some.mp hs
    refine ⟨pushes, h.update_push h.head rfl rfl fun j => ?_⟩
    have hoccupied := s.queue.occupied_setState .storing hempty (s.queue.cell j)
    simp only [State.full, Bool.false_eq_true, if_false, ite_self, add_zero] at hoccupied
    rw [hp]
    exact congrArg (_ + · + _) hoccupied.symm
  | write element head =>
    rw [hp] at hs
    cases hs
    refine ⟨pushes, h.update_push h.head rfl rfl fun j => ?_⟩
    rw [hp]
    rfl
  | publish element head =>
    rw [hp] at hs
    cases hs
    have hmark := hcl.storing.marked i (s.queue.index head) (by rw [hp]; rfl)
    refine ⟨pushes, h.update_push h.head rfl rfl fun j => ?_⟩
    have hoccupied := s.queue.occupied_setState .stored hmark (s.queue.cell j)
    simp only [State.full, Bool.false_eq_true, if_false, if_true, ite_self, add_zero] at hoccupied
    rw [hp, hoccupied]
    simp only [Push.ticket, reduceCtorEq, if_false, add_zero, add_assoc, Option.some.injEq]

/-- An access of a thread in `pop` keeps the count. -/
theorem Counted.popStep [DecidableEq κ] {pushes pops : ℕ} {s : System ι κ α}
    (h : Counted pushes pops s) (hcl : Claims s) {k : κ} {q : AtomicQueueB2 α} {c : Pop α}
    (hs : s.queue.popStep false (s.pop k) = some (q, c)) :
    ∃ pops', Counted pushes pops' { s with queue := q, pop := Function.update s.pop k c } := by
  have hsound := hcl.popping k
  cases hc : s.pop k with
  | idle => rw [hc] at hs; cases hs
  | load =>
    rw [hc] at hs
    cases hs
    refine ⟨pops+1, h.update_pop rfl ?_ rfl fun j => ?_⟩
    · dsimp only
      rw [h.tail, AtomicQueueB2.ofNat_succ]
    · have hcell : s.queue.index s.queue.tail = s.queue.cell j ↔
          pops ≡ j [MOD s.queue.size.toNat] := by
        rw [h.tail]
        exact hcl.sized.cell_eq_iff
      rw [hc, issued_succ]
      simp only [Pop.ticket, reduceCtorEq, if_false, Option.some.injEq, hcell]
      exact add_right_comm (issued s.queue.size.toNat pops j) _ _
  | advance tail => rw [hc] at hsound; exact hsound.elim
  | wait tail =>
    rw [hc] at hs
    obtain ⟨hstored, rfl, rfl⟩ := AtomicQueueB2.popStep_wait_eq_some.mp hs
    refine ⟨pops, h.update_pop rfl h.tail rfl fun j => ?_⟩
    have hoccupied := s.queue.occupied_setState .loading hstored (s.queue.cell j)
    simp only [State.full, if_true, add_left_inj] at hoccupied
    rw [hc]
    exact congrArg (_ + · + _) hoccupied.symm
  | read tail =>
    rw [hc] at hs
    cases hs
    refine ⟨pops, h.update_pop rfl h.tail rfl fun j => ?_⟩
    rw [hc]
    rfl
  | release element tail =>
    rw [hc] at hs
    cases hs
    have hmark := hcl.loading.marked k (s.queue.index tail) (by rw [hc]; rfl)
    refine ⟨pops, h.update_pop rfl h.tail rfl fun j => ?_⟩
    have hoccupied := s.queue.occupied_setState .empty hmark (s.queue.cell j)
    simp only [State.full, Bool.false_eq_true, if_false, if_true, ite_self, add_zero] at hoccupied
    rw [hc, ← hoccupied]
    simp only [Pop.ticket, reduceCtorEq, if_false, add_zero, add_assoc, Option.some.injEq]
  | done element => rw [hc] at hs; cases hs

/-- Every step of the threads keeps the count. -/
theorem Counted.step [DecidableEq ι] [DecidableEq κ] {pushes pops : ℕ} {s t : System ι κ α}
    {a : Label ι κ α} (h : Counted pushes pops s) (hcl : Claims s) (hs : Step false s a t) :
    ∃ pushes' pops', Counted pushes' pops' t := by
  cases hs with
  | @enter i element hidle =>
    refine ⟨pushes, pops, h.update_push (q := s.queue) h.head rfl rfl fun j => ?_⟩
    rw [hidle]
    rfl
  | push hpush =>
    obtain ⟨pushes', h'⟩ := h.pushStep hcl hpush
    exact ⟨pushes', pops, h'⟩
  | @ask k hidle =>
    refine ⟨pushes, pops, h.update_pop (q := s.queue) rfl h.tail rfl fun j => ?_⟩
    rw [hidle]
    rfl
  | pop hpop =>
    obtain ⟨pops', h'⟩ := h.popStep hcl hpop
    exact ⟨pushes, pops', h'⟩
  | @give k element hdone =>
    refine ⟨pushes, pops, h.update_pop (q := s.queue) rfl h.tail rfl fun j => ?_⟩
    rw [hdone]
    rfl

/-- What holds after every run of any number of threads. -/
structure Shared (history : List (Label ι κ α)) (s : System ι κ α) : Prop where
  /-- The marked cells have owners. -/
  claims : Claims s
  /-- The elements are all there. -/
  conserved : Conserved history s
  /-- The tickets are accounted for. -/
  counted : ∃ pushes pops, Counted pushes pops s

/-- The start. -/
theorem shared_start (size : Unsigned) (nil : α) :
    Shared [] (System.start size nil : System ι κ α) := by
  refine ⟨claims_start size nil, ?_, 0, 0, rfl, rfl, fun j => ?_⟩
  · have hin : (System.start size nil : System ι κ α).incoming = 0 := Finset.sum_const_zero
    have hout : (System.start size nil : System ι κ α).outgoing = 0 := Finset.sum_const_zero
    have hcells : (System.start size nil : System ι κ α).queue.contents = 0 :=
      Finset.sum_const_zero
    rw [Conserved, hin, hout, hcells]
    rfl
  · have hpushers : (System.start size nil : System ι κ α).pushers
        ((System.start size nil : System ι κ α).queue.cell j) = 0 := Finset.sum_const_zero
    have hpoppers : (System.start size nil : System ι κ α).poppers
        ((System.start size nil : System ι κ α).queue.cell j) = 0 := Finset.sum_const_zero
    rw [hpushers, hpoppers]
    rfl

/-- Every run. -/
theorem shared_of_run [DecidableEq ι] [DecidableEq κ] {size : Unsigned} {nil : α}
    {history : List (Label ι κ α)} {s : System ι κ α}
    (hr : Run (Step false) (System.start size nil) history s) : Shared history s := by
  refine hr.invariant (shared_start size nil) ?_
  intro history s a t _ h hs
  obtain ⟨pushes, pops, hcounted⟩ := h.counted
  exact ⟨h.claims.step hs, h.conserved.step h.claims hs, hcounted.step h.claims hs⟩

end Tickets

section HeldUp

variable {ι κ α : Type*} {s : System ι κ α}

/-- No thread in `push` and no thread in `pop` can go on. -/
structure HeldUp (s : System ι κ α) : Prop where
  /-- The threads in `push`. -/
  push : ∀ i, s.queue.pushStep false (s.push i) = none
  /-- The threads in `pop`. -/
  pop : ∀ k, s.queue.popStep false (s.pop k) = none

/-- A thread in `push` that cannot go on is outside or waits at a cell that is not empty. -/
theorem HeldUp.push_waits (h : HeldUp s) (i : ι) : s.push i = .idle ∨
    ∃ element head, s.push i = .wait element head ∧
      s.queue.states (s.queue.index head) ≠ .empty := by
  have hnone := h.push i
  cases hp : s.push i with
  | idle => exact .inl rfl
  | wait element head =>
    rw [hp] at hnone
    exact .inr ⟨element, head, rfl, AtomicQueueB2.pushStep_wait_eq_none.mp hnone⟩
  | _ => rw [hp] at hnone; cases hnone

/-- A thread in `pop` that cannot go on is outside or waits at a cell that is not stored to. -/
theorem HeldUp.pop_waits (h : HeldUp s) (k : κ) : s.pop k = .idle ∨
    (∃ element, s.pop k = .done element) ∨
    ∃ tail, s.pop k = .wait tail ∧ s.queue.states (s.queue.index tail) ≠ .stored := by
  have hnone := h.pop k
  cases hc : s.pop k with
  | idle => exact .inl rfl
  | done element => exact .inr (.inl ⟨element, rfl⟩)
  | wait tail =>
    rw [hc] at hnone
    exact .inr (.inr ⟨tail, rfl, AtomicQueueB2.popStep_wait_eq_none.mp hnone⟩)
  | _ => rw [hc] at hnone; cases hnone

/-- While nobody can go on, no cell is marked. -/
theorem HeldUp.state_eq (h : HeldUp s) (hcl : Claims s) (c : ℕ) :
    s.queue.states c = .empty ∨ s.queue.states c = .stored := by
  cases hst : s.queue.states c with
  | empty => exact .inl rfl
  | stored => exact .inr rfl
  | storing =>
    obtain ⟨i, hi⟩ := hcl.storing.owner c hst
    rcases h.push_waits i with hp | ⟨element, head, hp, _⟩ <;> rw [hp] at hi <;> cases hi
  | loading =>
    obtain ⟨k, hk⟩ := hcl.loading.owner c hst
    rcases h.pop_waits k with hc | ⟨element, hc⟩ | ⟨tail, hc, _⟩ <;> rw [hc] at hk <;> cases hk

/-- While nobody can go on, no thread in `push` has a ticket of an empty cell. -/
theorem HeldUp.pushers_eq_zero [Fintype ι] (h : HeldUp s) {c : ℕ}
    (hc : s.queue.states c = .empty) : s.pushers c = 0 := by
  refine Finset.sum_eq_zero fun i _ => if_neg fun hi => ?_
  rcases h.push_waits i with hp | ⟨element, head, hp, hne⟩ <;> rw [hp] at hi
  · cases hi
  · exact hne (Option.some.inj hi ▸ hc)

/-- While nobody can go on, no thread in `pop` has a ticket of a stored cell. -/
theorem HeldUp.poppers_eq_zero [Fintype κ] (h : HeldUp s) {c : ℕ}
    (hc : s.queue.states c = .stored) : s.poppers c = 0 := by
  refine Finset.sum_eq_zero fun k _ => if_neg fun hk => ?_
  rcases h.pop_waits k with hp | ⟨element, hp⟩ | ⟨tail, hp, hne⟩ <;> rw [hp] at hk
  · cases hk
  · cases hk
  · exact hne (Option.some.inj hk ▸ hc)

/-- A ticket is one of those with the number it shows. -/
theorem AtomicQueueB2.cell_toNat (q : AtomicQueueB2 α) (ticket : Unsigned) :
    q.cell ticket.toNat = q.index ticket := by
  rw [cell, BitVec.ofNat_toNat, BitVec.setWidth_eq]

/-- A thread waiting in `push` has a ticket. -/
theorem pushers_pos [Fintype ι] {i : ι} {element : α} {head : Unsigned}
    (hi : s.push i = .wait element head) : 0 < s.pushers (s.queue.index head) := by
  refine Finset.sum_pos' (fun _ _ => Nat.zero_le _) ⟨i, Finset.mem_univ i, ?_⟩
  have hticket : (s.push i).ticket s.queue = some (s.queue.index head) := by rw [hi]; rfl
  rw [if_pos hticket]
  exact Nat.one_pos

/-- A thread waiting in `pop` has a ticket. -/
theorem poppers_pos [Fintype κ] {k : κ} {tail : Unsigned} (hk : s.pop k = .wait tail) :
    0 < s.poppers (s.queue.index tail) := by
  refine Finset.sum_pos' (fun _ _ => Nat.zero_le _) ⟨k, Finset.mem_univ k, ?_⟩
  have hticket : (s.pop k).ticket s.queue = some (s.queue.index tail) := by rw [hk]; rfl
  rw [if_pos hticket]
  exact Nat.one_pos

end HeldUp

section Results

variable {ι κ α : Type*} [Fintype ι] [Fintype κ] [DecidableEq ι] [DecidableEq κ]
  {size : Unsigned} {nil : α}

/-- Any number of threads push and pop, in any order of their accesses, however
often the counters wrap. Every element pushed has been returned, or is in a cell
or with a thread, exactly once, and no two threads work on one cell at the same
time. -/
theorem conserved_between_threads {history : List (Label ι κ α)} {s : System ι κ α}
    (hr : Run (Step false) (System.start size nil) history s) :
    (entered history : Multiset α) =
        given history + s.outgoing + s.queue.contents + s.incoming ∧
      (∀ i j c, (s.push i).works s.queue = some c → (s.push j).works s.queue = some c → i = j) ∧
      (∀ k l c, (s.pop k).works s.queue = some c → (s.pop l).works s.queue = some c → k = l) ∧
      ∀ i k c, (s.push i).works s.queue = some c → (s.pop k).works s.queue ≠ some c := by
  have h := shared_of_run hr
  refine ⟨h.conserved, h.claims.storing.unique, h.claims.loading.unique, fun i k c hi hk => ?_⟩
  have hstoring := h.claims.storing.marked i c hi
  rw [h.claims.loading.marked k c hk] at hstoring
  cases hstoring

/-- Two threads that push at once: the number of one is popped while the other one
has only its ticket. -/
theorem conserved_between_threads_two :
    ∃ history s, Run (Step false) (System.start 1024 0 : System (Fin 2) Unit ℕ) history s ∧
      given history = [7] ∧ s.push 0 = .idle ∧
      ({7, 8} : Multiset ℕ) = {7} + s.outgoing + s.queue.contents + s.incoming := by
  have hrun : Run (Step false) (System.start 1024 0 : System (Fin 2) Unit ℕ)
      [.give () 7, .pop (), .pop (), .pop (), .pop (), .ask (), .push 0, .push 0, .push 0,
        .push 1, .push 0, .enter 1 8, .enter 0 7] _ :=
    (((((((((((((Run.start.next (.enter rfl)).next (.enter rfl)).next (.push rfl)).next
      (.push rfl)).next (.push rfl)).next (.push rfl)).next (.push rfl)).next (.ask rfl)).next
      (.pop rfl)).next (.pop rfl)).next (.pop rfl)).next (.pop rfl)).next (.give rfl))
  exact ⟨_, _, hrun, rfl, rfl, (conserved_between_threads hrun).1⟩

/-- When none of the threads that are in `push` or in `pop` can go on, those in
`push` wait because every cell is full, and those in `pop` because every cell is
empty, whichever tickets they have. -/
theorem held_up_only_when_full_or_empty {history : List (Label ι κ α)} {s : System ι κ α}
    (hr : Run (Step false) (System.start size nil) history s) (hheld : HeldUp s) :
    ((∃ i, s.push i ≠ .idle) → ∀ c < s.queue.size.toNat, s.queue.states c = .stored) ∧
      ((∃ k tail, s.pop k = .wait tail) →
        ∀ c < s.queue.size.toNat, s.queue.states c = .empty) := by
  have h := shared_of_run hr
  obtain ⟨pushes, pops, hcounted⟩ := h.counted
  have hsized := h.claims.sized
  have hoccupied : ∀ {c st}, s.queue.states c = st →
      s.queue.occupied c = if st.full then 1 else 0 := fun hst => by
    rw [AtomicQueueB2.occupied, hst]
  constructor
  · rintro ⟨i, hi⟩ c hc
    obtain ⟨element, head, hwait, hne⟩ := (hheld.push_waits i).resolve_left hi
    have hstored := (hheld.state_eq h.claims _).resolve_left hne
    have hbalance := hcounted.balance head.toNat
    have hpos := pushers_pos hwait
    rw [s.queue.cell_toNat, hheld.poppers_eq_zero hstored, hoccupied hstored] at hbalance
    simp only [State.full, if_true] at hbalance
    obtain ⟨j, _, rfl⟩ := hsized.exists_cell_eq hc
    have hgap := issued_lt_of_gap hsized.pos (M := pops) (N := pushes) (i := head.toNat)
      (by omega) j
    refine (hheld.state_eq h.claims _).resolve_left fun hempty => ?_
    have hother := hcounted.balance j
    rw [hheld.pushers_eq_zero hempty, hoccupied hempty] at hother
    simp only [State.full, Bool.false_eq_true, if_false] at hother
    omega
  · rintro ⟨k, tail, hwait⟩ c hc
    have hne : s.queue.states (s.queue.index tail) ≠ .stored := by
      have hnone := hheld.pop k
      rw [hwait] at hnone
      exact AtomicQueueB2.popStep_wait_eq_none.mp hnone
    have hempty := (hheld.state_eq h.claims _).resolve_right hne
    have hbalance := hcounted.balance tail.toNat
    have hpos := poppers_pos hwait
    rw [s.queue.cell_toNat, hheld.pushers_eq_zero hempty, hoccupied hempty] at hbalance
    simp only [State.full, Bool.false_eq_true, if_false] at hbalance
    obtain ⟨j, _, rfl⟩ := hsized.exists_cell_eq hc
    have hahead := issued_le_of_lt (n := s.queue.size.toNat) (M := pushes) (N := pops)
      (i := tail.toNat) (by omega) j
    refine (hheld.state_eq h.claims _).resolve_right fun hstored => ?_
    have hother := hcounted.balance j
    rw [hheld.poppers_eq_zero hstored, hoccupied hstored] at hother
    simp only [State.full, if_true] at hother
    omega

/-- A thread that waits for the first element. -/
theorem held_up_only_when_full_or_empty_waiting :
    ∃ s, Run (Step false) (System.start 1024 0 : System Unit Unit ℕ) [.pop (), .ask ()] s ∧
      ∀ c < s.queue.size.toNat, s.queue.states c = .empty := by
  have hrun : Run (Step false) (System.start 1024 0 : System Unit Unit ℕ) [.pop (), .ask ()] _ :=
    (Run.start.next (.ask rfl)).next (.pop rfl)
  exact ⟨_, hrun, (held_up_only_when_full_or_empty hrun ⟨fun _ => rfl, fun _ => rfl⟩).2
    ⟨(), 0, rfl⟩⟩

end Results

end CapsuleDB.UtilAtomicQueue

import CapsuleDB.LabelledRun
import CapsuleDB.TicketRing
import Mathlib.Data.BitVec
import Mathlib.Data.Nat.Size

/-!
# The queues between the threads

A queue is a ring of cells. A call of `push` or of `pop` first takes a ticket
from a 32-bit counter that wraps, and then works on the cell of its ticket,
which has a one-byte state. Every access to a counter, a state or an element
is one step, and the steps of the threads interleave in any order. The queue is
compiled for one pushing and one popping thread or for any number of them; a
flag tells which.
-/

namespace CapsuleDB.UtilAtomicQueue

open LabelledRun TicketRing

/-- `unsigned`. -/
abbrev Unsigned := BitVec 32

/-- `remap_index_with_mix<BITS>`. -/
def remapIndexWithMix (bits : ℕ) (index mix : Unsigned) : Unsigned :=
  index ^^^ mix ^^^ (mix <<< bits)

/-- `remap_index<BITS>`, which swaps the lowest bits with the next ones. -/
def remapIndex (bits : ℕ) (index : Unsigned) : Unsigned :=
  remapIndexWithMix bits index ((index ^^^ (index >>> bits)) &&& ((1#32 <<< bits)-1))

/-- `or_equal`. -/
def orEqual (x : Unsigned) : List ℕ → Unsigned
  | [] => x
  | u :: rest => orEqual (x ||| x >>> u) rest

/-- `round_up_to_power_of_2` on `uint32_t`. -/
def roundUpToPowerOf2 (a : Unsigned) : Unsigned := orEqual (a-1) [1, 2, 4, 8, 16]+1

/-- `SHUFFLE_BITS`, for the 64 states on a cache line. -/
def shuffleBits : ℕ := 6

/-- `enum State`. -/
inductive State
  /-- `EMPTY`. -/
  | empty
  /-- `STORING`. -/
  | storing
  /-- `STORED`. -/
  | stored
  /-- `LOADING`. -/
  | loading
  deriving DecidableEq

/-- The fields of `AtomicQueueB2`. -/
structure AtomicQueueB2 (α : Type*) where
  /-- The counter of pushes, `head_`. -/
  head : Unsigned
  /-- The counter of pops, `tail_`. -/
  tail : Unsigned
  /-- The number of cells, `size_`. -/
  size : Unsigned
  /-- The states of the cells. -/
  states : ℕ → State
  /-- The contents of the cells. -/
  elements : ℕ → α

namespace AtomicQueueB2

variable {α : Type*}

/-- The constructor, with the element that every cell is constructed with. -/
def new (size : Unsigned) (nil : α) : AtomicQueueB2 α where
  head := 0
  tail := 0
  size :=
    if roundUpToPowerOf2 size < 1#32 <<< (shuffleBits*2) then 1#32 <<< (shuffleBits*2)
    else roundUpToPowerOf2 size
  states := fun _ => .empty
  elements := fun _ => nil

/-- The index that `do_push` and `do_pop` compute from a ticket. -/
def index (q : AtomicQueueB2 α) (ticket : Unsigned) : ℕ :=
  (remapIndex shuffleBits (ticket &&& (q.size-1))).toNat

/-- The cell of ticket number `k`. -/
def cell (q : AtomicQueueB2 α) (k : ℕ) : ℕ := q.index (BitVec.ofNat 32 k)

/-- The store to a state. -/
def setState (q : AtomicQueueB2 α) (i : ℕ) (st : State) : AtomicQueueB2 α :=
  { q with states := Function.update q.states i st }

/-- The store to an element. -/
def setElement (q : AtomicQueueB2 α) (i : ℕ) (element : α) : AtomicQueueB2 α :=
  { q with elements := Function.update q.elements i element }

end AtomicQueueB2

/-- Where a thread is in `push`, with what it has read so far. -/
inductive Push (α : Type*)
  /-- Outside. -/
  | idle
  /-- Before the load of `head_`, or before its `fetch_add`. -/
  | load (element : α)
  /-- Before the store to `head_`. -/
  | advance (element : α) (head : Unsigned)
  /-- Waiting for `EMPTY`. -/
  | wait (element : α) (head : Unsigned)
  /-- Before the element is stored. -/
  | write (element : α) (head : Unsigned)
  /-- Before `STORED` is stored. -/
  | publish (element : α) (head : Unsigned)

/-- Where a thread is in `pop`, with what it has read so far. -/
inductive Pop (α : Type*)
  /-- Outside. -/
  | idle
  /-- Before the load of `tail_`, or before its `fetch_add`. -/
  | load
  /-- Before the store to `tail_`. -/
  | advance (tail : Unsigned)
  /-- Waiting for `STORED`. -/
  | wait (tail : Unsigned)
  /-- Before the element is moved out. -/
  | read (tail : Unsigned)
  /-- Before `EMPTY` is stored. -/
  | release (element : α) (tail : Unsigned)
  /-- Before the return. -/
  | done (element : α)

section Held

variable {α : Type*}

/-- The element that a call of `push` has still to put into the queue. -/
def Push.held : Push α → Option α
  | .idle => none
  | .load element => some element
  | .advance element _ => some element
  | .wait element _ => some element
  | .write element _ => some element
  | .publish element _ => some element

/-- The element that a call of `pop` has taken out of the queue. -/
def Pop.held : Pop α → Option α
  | .idle => none
  | .load => none
  | .advance _ => none
  | .wait _ => none
  | .read _ => none
  | .release _ _ => none
  | .done element => some element

end Held

namespace AtomicQueueB2

variable {α : Type*}

/-- The next access of a thread in `push`; nothing outside, and while the state
it waits for has not come. Waiting itself changes nothing: the loads and the
failed exchanges of the loop are no steps. -/
def pushStep (spsc : Bool) (q : AtomicQueueB2 α) : Push α → Option (AtomicQueueB2 α × Push α)
  | .idle => none
  | .load element =>
    if spsc then some (q, .advance element q.head)
    else some ({ q with head := q.head+1 }, .wait element q.head)
  | .advance element head => some ({ q with head := head+1 }, .wait element head)
  | .wait element head =>
    if q.states (q.index head) = .empty then
      some (if spsc then q else q.setState (q.index head) .storing, .write element head)
    else none
  | .write element head => some (q.setElement (q.index head) element, .publish element head)
  | .publish _ head => some (q.setState (q.index head) .stored, .idle)

/-- The next access of a thread in `pop`. -/
def popStep (spsc : Bool) (q : AtomicQueueB2 α) : Pop α → Option (AtomicQueueB2 α × Pop α)
  | .idle => none
  | .load =>
    if spsc then some (q, .advance q.tail)
    else some ({ q with tail := q.tail+1 }, .wait q.tail)
  | .advance tail => some ({ q with tail := tail+1 }, .wait tail)
  | .wait tail =>
    if q.states (q.index tail) = .stored then
      some (if spsc then q else q.setState (q.index tail) .loading, .read tail)
    else none
  | .read tail => some (q, .release (q.elements (q.index tail)) tail)
  | .release element tail => some (q.setState (q.index tail) .empty, .done element)
  | .done _ => none

/-- A thread that waits in `push` goes on when it sees `EMPTY`. -/
theorem pushStep_wait_eq_some {spsc : Bool} {q q' : AtomicQueueB2 α} {element : α}
    {head : Unsigned} {p : Push α} :
    q.pushStep spsc (.wait element head) = some (q', p) ↔ q.states (q.index head) = .empty ∧
      q' = (if spsc then q else q.setState (q.index head) .storing) ∧ p = .write element head := by
  unfold pushStep
  dsimp only
  by_cases hempty : q.states (q.index head) = .empty
  · rw [if_pos hempty, Option.some_inj, Prod.mk.injEq, eq_comm, @eq_comm _ _ p]
    exact (and_iff_right hempty).symm
  · rw [if_neg hempty]
    exact iff_of_false (by simp) fun h => hempty h.1

/-- A thread that waits in `push` is held up by any other state. -/
theorem pushStep_wait_eq_none {spsc : Bool} {q : AtomicQueueB2 α} {element : α}
    {head : Unsigned} :
    q.pushStep spsc (.wait element head) = none ↔ q.states (q.index head) ≠ .empty := by
  unfold pushStep
  dsimp only
  by_cases hempty : q.states (q.index head) = .empty
  · rw [if_pos hempty]
    exact iff_of_false (by simp) (not_not_intro hempty)
  · rw [if_neg hempty]
    exact iff_of_true rfl hempty

/-- A thread that waits in `pop` goes on when it sees `STORED`. -/
theorem popStep_wait_eq_some {spsc : Bool} {q q' : AtomicQueueB2 α} {tail : Unsigned}
    {c : Pop α} :
    q.popStep spsc (.wait tail) = some (q', c) ↔ q.states (q.index tail) = .stored ∧
      q' = (if spsc then q else q.setState (q.index tail) .loading) ∧ c = .read tail := by
  unfold popStep
  dsimp only
  by_cases hstored : q.states (q.index tail) = .stored
  · rw [if_pos hstored, Option.some_inj, Prod.mk.injEq, eq_comm, @eq_comm _ _ c]
    exact (and_iff_right hstored).symm
  · rw [if_neg hstored]
    exact iff_of_false (by simp) fun h => hstored h.1

/-- A thread that waits in `pop` is held up by any other state. -/
theorem popStep_wait_eq_none {spsc : Bool} {q : AtomicQueueB2 α} {tail : Unsigned} :
    q.popStep spsc (.wait tail) = none ↔ q.states (q.index tail) ≠ .stored := by
  unfold popStep
  dsimp only
  by_cases hstored : q.states (q.index tail) = .stored
  · rw [if_pos hstored]
    exact iff_of_false (by simp) (not_not_intro hstored)
  · rw [if_neg hstored]
    exact iff_of_true rfl hstored

end AtomicQueueB2

section Frames

variable {α : Type*} {q : AtomicQueueB2 α}

/-- The size decides the cells. -/
@[simp] theorem AtomicQueueB2.cell_setState (i : ℕ) (st : State) (k : ℕ) :
    (q.setState i st).cell k = q.cell k := rfl

/-- The size decides the cells. -/
@[simp] theorem AtomicQueueB2.cell_setElement (i : ℕ) (a : α) (k : ℕ) :
    (q.setElement i a).cell k = q.cell k := rfl

/-- A stored state is read back. -/
@[simp] theorem AtomicQueueB2.states_setState_self (i : ℕ) (st : State) :
    (q.setState i st).states i = st := Function.update_self ..

/-- The other states stay. -/
theorem AtomicQueueB2.states_setState_of_ne {i j : ℕ} (h : j ≠ i) (st : State) :
    (q.setState i st).states j = q.states j := Function.update_of_ne h ..

/-- A stored element is read back. -/
@[simp] theorem AtomicQueueB2.elements_setElement_self (i : ℕ) (a : α) :
    (q.setElement i a).elements i = a := Function.update_self ..

/-- The other elements stay. -/
theorem AtomicQueueB2.elements_setElement_of_ne {i j : ℕ} (h : j ≠ i) (a : α) :
    (q.setElement i a).elements j = q.elements j := Function.update_of_ne h ..

/-- A thread in `pop` that can go on has not taken an element. -/
theorem held_eq_none_of_popStep {q q' : AtomicQueueB2 α} {spsc : Bool} {c c' : Pop α}
    (hs : q.popStep spsc c = some (q', c')) : c.held = none := by
  cases c with
  | done element => cases hs
  | _ => rfl

end Frames

/-- A queue with its threads. -/
structure System (ι κ α : Type*) where
  /-- The queue. -/
  queue : AtomicQueueB2 α
  /-- The threads that push. -/
  push : ι → Push α
  /-- The threads that pop. -/
  pop : κ → Pop α

/-- The steps of the threads. -/
inductive Label (ι κ α : Type*)
  /-- A thread calls `push`. -/
  | enter (i : ι) (element : α)
  /-- An access of a thread in `push`. -/
  | push (i : ι)
  /-- A thread calls `pop`. -/
  | ask (k : κ)
  /-- An access of a thread in `pop`. -/
  | pop (k : κ)
  /-- `pop` returns. -/
  | give (k : κ) (element : α)

section Threads

variable {ι κ α : Type*} [DecidableEq ι] [DecidableEq κ]

/-- A new queue that no thread works on. -/
def System.start (size : Unsigned) (nil : α) : System ι κ α :=
  ⟨AtomicQueueB2.new size nil, fun _ => .idle, fun _ => .idle⟩

/-- One step of one thread. -/
inductive Step (spsc : Bool) : System ι κ α → Label ι κ α → System ι κ α → Prop
  | enter {s : System ι κ α} {i : ι} {element : α} : s.push i = .idle →
      Step spsc s (.enter i element)
        { s with push := Function.update s.push i (.load element) }
  | push {s : System ι κ α} {i : ι} {q : AtomicQueueB2 α} {p : Push α} :
      s.queue.pushStep spsc (s.push i) = some (q, p) →
      Step spsc s (.push i) { s with queue := q, push := Function.update s.push i p }
  | ask {s : System ι κ α} {k : κ} : s.pop k = .idle →
      Step spsc s (.ask k) { s with pop := Function.update s.pop k .load }
  | pop {s : System ι κ α} {k : κ} {q : AtomicQueueB2 α} {c : Pop α} :
      s.queue.popStep spsc (s.pop k) = some (q, c) →
      Step spsc s (.pop k) { s with queue := q, pop := Function.update s.pop k c }
  | give {s : System ι κ α} {k : κ} {element : α} : s.pop k = .done element →
      Step spsc s (.give k element) { s with pop := Function.update s.pop k .idle }

/-- The elements pushed, those of the calls that have not returned included, in
the order of the calls. -/
def entered : List (Label ι κ α) → List α
  | [] => []
  | .enter _ element :: earlier => entered earlier ++ [element]
  | .push _ :: earlier => entered earlier
  | .ask _ :: earlier => entered earlier
  | .pop _ :: earlier => entered earlier
  | .give _ _ :: earlier => entered earlier

/-- The elements returned by `pop`, in order. -/
def given : List (Label ι κ α) → List α
  | [] => []
  | .enter _ _ :: earlier => given earlier
  | .push _ :: earlier => given earlier
  | .ask _ :: earlier => given earlier
  | .pop _ :: earlier => given earlier
  | .give _ element :: earlier => given earlier ++ [element]

end Threads

section Indices

variable {α : Type*}

/-- The mask of the lowest bits. -/
theorem getLsbD_lowMask {bits : ℕ} (hbits : bits < 32) (i : ℕ) :
    ((1#32 <<< bits)-1).getLsbD i = decide (i < bits) := by
  have hpow : (1#32 <<< bits).toNat = 2^bits := by
    have hlt : 2^bits < 2^32 := Nat.pow_lt_pow_right (by decide) hbits
    rw [BitVec.toNat_shiftLeft, show (1#32).toNat = 1 from rfl, Nat.one_shiftLeft,
      Nat.mod_eq_of_lt hlt]
  have hsub : ((1#32 <<< bits)-1).toNat = 2^bits-1 := by
    have hpos := Nat.two_pow_pos bits
    have hlt := (1#32 <<< bits).isLt
    rw [BitVec.toNat_sub, hpow, show (1 : Unsigned).toNat = 1 from rfl]
    omega
  rw [← BitVec.testBit_toNat, hsub, Nat.testBit_two_pow_sub_one]

/-- Bit `i` of a remapped index is the bit of the other group. -/
theorem getLsbD_remapIndex {bits : ℕ} (hbits : 2*bits ≤ 32) (hpos : 0 < bits) (x : Unsigned)
    {i : ℕ} (hi : i < 32) :
    (remapIndex bits x).getLsbD i =
      if i < bits then x.getLsbD (i+bits)
      else if i < 2*bits then x.getLsbD (i-bits) else x.getLsbD i := by
  unfold remapIndex remapIndexWithMix
  simp only [BitVec.getLsbD_xor, BitVec.getLsbD_shiftLeft, BitVec.getLsbD_and,
    BitVec.getLsbD_ushiftRight, getLsbD_lowMask (by omega : bits < 32)]
  by_cases hlow : i < bits
  · simp only [hlow, decide_true, Bool.and_true, Bool.not_true, Bool.and_false, Bool.false_and,
      Bool.xor_false, if_true]
    rw [Nat.add_comm bits i, ← Bool.xor_assoc, Bool.xor_self, Bool.false_xor]
  · by_cases hmid : i < 2*bits
    · have hback : bits+(i-bits) = i := by omega
      simp only [hlow, hmid, hi, hback, show i-bits < bits by omega, decide_true, decide_false,
        Bool.and_true, Bool.not_false, Bool.true_and, Bool.and_false, Bool.xor_false, if_true,
        if_false]
      rw [Bool.xor_comm (x.getLsbD (i-bits)), ← Bool.xor_assoc, Bool.xor_self, Bool.false_xor]
    · simp only [hlow, hmid, show ¬ i-bits < bits by omega, decide_false, Bool.and_false,
        Bool.xor_false, if_false]

/-- Remapping twice gives the index back. -/
theorem remapIndex_remapIndex {bits : ℕ} (hbits : 2*bits ≤ 32) (hpos : 0 < bits)
    (x : Unsigned) : remapIndex bits (remapIndex bits x) = x := by
  refine BitVec.eq_of_getLsbD_eq fun i hi => ?_
  rw [getLsbD_remapIndex hbits hpos _ hi]
  by_cases hlow : i < bits
  · rw [if_pos hlow, getLsbD_remapIndex hbits hpos x (by omega), if_neg (by omega),
      if_pos (by omega), Nat.add_sub_cancel]
  · rw [if_neg hlow]
    by_cases hmid : i < 2*bits
    · rw [if_pos hmid, getLsbD_remapIndex hbits hpos x (by omega), if_pos (by omega),
        Nat.sub_add_cancel (by omega)]
    · rw [if_neg hmid, getLsbD_remapIndex hbits hpos x hi, if_neg hlow, if_neg hmid]

/-- Remapping keeps to a size that both groups of bits fit in. -/
theorem remapIndex_lt {bits m : ℕ} (hbits : 2*bits ≤ m) (hpos : 0 < bits) (hm : m ≤ 32)
    {x : Unsigned} (hx : x.toNat < 2^m) : (remapIndex bits x).toNat < 2^m := by
  refine Nat.lt_pow_two_of_testBit _ fun i hi => ?_
  rw [BitVec.testBit_toNat]
  by_cases hlarge : 32 ≤ i
  · exact BitVec.getLsbD_of_ge _ _ hlarge
  · rw [getLsbD_remapIndex (by omega) hpos x (by omega), if_neg (by omega), if_neg (by omega),
      ← BitVec.testBit_toNat]
    exact Nat.testBit_lt_two_pow (hx.trans_le (Nat.pow_le_pow_right (by decide) hi))

/-- What or-ing in a shift does to the bits: each one collects those above it. -/
theorem getLsbD_orEqual_step {x y : Unsigned} {reach : ℕ}
    (h : ∀ i, y.getLsbD i = true ↔ ∃ d < reach, x.getLsbD (i+d) = true) (i : ℕ) :
    (y ||| y >>> reach).getLsbD i = true ↔ ∃ d < 2*reach, x.getLsbD (i+d) = true := by
  rw [BitVec.getLsbD_or, BitVec.getLsbD_ushiftRight, Bool.or_eq_true, h, h]
  constructor
  · rintro (⟨d, hd, hx⟩ | ⟨d, hd, hx⟩)
    · exact ⟨d, by omega, hx⟩
    · exact ⟨reach+d, by omega, by rwa [← Nat.add_assoc, Nat.add_comm i reach]⟩
  · rintro ⟨d, hd, hx⟩
    by_cases hnear : d < reach
    · exact .inl ⟨d, hnear, hx⟩
    · refine .inr ⟨d-reach, by omega, ?_⟩
      rwa [show reach+i+(d-reach) = i+d by omega]

/-- The five shifts together fill in all bits below the highest one. -/
theorem toNat_orEqual (x : Unsigned) :
    (orEqual x [1, 2, 4, 8, 16]).toNat = 2^Nat.size x.toNat-1 := by
  have h1 : ∀ i, x.getLsbD i = true ↔ ∃ d < 1, x.getLsbD (i+d) = true := fun i => by
    constructor
    · intro hx
      exact ⟨0, Nat.one_pos, hx⟩
    · rintro ⟨d, hd, hx⟩
      rwa [Nat.lt_one_iff.mp hd] at hx
  have hfill := getLsbD_orEqual_step (getLsbD_orEqual_step (getLsbD_orEqual_step
    (getLsbD_orEqual_step (getLsbD_orEqual_step h1))))
  refine Nat.eq_of_testBit_eq fun i => ?_
  rw [Nat.testBit_two_pow_sub_one, BitVec.testBit_toNat, Bool.eq_iff_iff, decide_eq_true_iff,
    Nat.lt_size]
  refine (hfill i).trans ?_
  constructor
  · rintro ⟨d, _, hx⟩
    rw [← BitVec.testBit_toNat] at hx
    exact (Nat.pow_le_pow_right (by decide) (Nat.le_add_right i d)).trans
      (Nat.ge_two_pow_of_testBit hx)
  · intro hle
    obtain ⟨j, hj, hx⟩ := Nat.exists_ge_and_testBit_of_ge_two_pow hle
    rw [BitVec.testBit_toNat] at hx
    have hlt : j < 32 := BitVec.lt_of_getLsbD hx
    exact ⟨j-i, by omega, by rwa [Nat.add_sub_cancel' hj]⟩

/-- Rounding up gives the smallest power of two that is large enough. -/
theorem toNat_roundUpToPowerOf2 {a : Unsigned} (hpos : 0 < a.toNat) (hle : a.toNat ≤ 2^31) :
    (roundUpToPowerOf2 a).toNat = 2^Nat.size (a.toNat-1) := by
  have hpred : (a-1).toNat = a.toNat-1 := by
    have hlt := a.isLt
    rw [BitVec.toNat_sub, show (1 : Unsigned).toNat = 1 from rfl]
    omega
  have hsize : Nat.size (a.toNat-1) ≤ 31 := Nat.size_le.mpr (by omega)
  have hpow : 2^Nat.size (a.toNat-1) ≤ 2^31 := Nat.pow_le_pow_right (by decide) hsize
  have hone := Nat.two_pow_pos (Nat.size (a.toNat-1))
  rw [roundUpToPowerOf2, BitVec.toNat_add, toNat_orEqual, hpred,
    show (1 : Unsigned).toNat = 1 from rfl]
  omega

/-- Numbers that no 32-bit power of two is large enough for, and zero, round to zero. -/
theorem toNat_roundUpToPowerOf2_of_wrap {a : Unsigned} (h : a.toNat = 0 ∨ 2^31 < a.toNat) :
    (roundUpToPowerOf2 a).toNat = 0 := by
  have hlt := a.isLt
  have hpred : 2^31 ≤ (a-1).toNat := by
    rw [BitVec.toNat_sub, show (1 : Unsigned).toNat = 1 from rfl]
    omega
  have hsize : Nat.size (a-1).toNat = 32 := by
    have hle : Nat.size (a-1).toNat ≤ 32 := Nat.size_le.mpr (a-1).isLt
    have hge : 31 < Nat.size (a-1).toNat := Nat.lt_size.mpr hpred
    omega
  rw [roundUpToPowerOf2, BitVec.toNat_add, toNat_orEqual, hsize]
  rfl

/-- Both groups of bits fit in the index, which fits in 32 bits. -/
def AtomicQueueB2.Sized (q : AtomicQueueB2 α) : Prop :=
  ∃ m, 2*shuffleBits ≤ m ∧ m < 32 ∧ q.size.toNat = 2^m

/-- The number of cells of a new queue. -/
theorem toNat_size_new (size : Unsigned) (nil : α) :
    (AtomicQueueB2.new size nil).size.toNat =
      if 0 < size.toNat ∧ size.toNat ≤ 2^31 then 2^max 12 (Nat.size (size.toNat-1))
      else 2^12 := by
  have hmin : (1#32 <<< (shuffleBits*2)).toNat = 2^12 := rfl
  unfold AtomicQueueB2.new
  dsimp only
  by_cases hfits : 0 < size.toNat ∧ size.toNat ≤ 2^31
  · have hround := toNat_roundUpToPowerOf2 hfits.1 hfits.2
    rw [if_pos hfits]
    by_cases hsmall : Nat.size (size.toNat-1) < 12
    · have hlt := Nat.pow_lt_pow_right (by decide : 1 < 2) hsmall
      rw [if_pos (by rwa [BitVec.lt_def, hround, hmin]), hmin, max_eq_left hsmall.le]
    · have hle := Nat.pow_le_pow_right (by decide : 0 < 2) (not_lt.mp hsmall)
      rw [if_neg (by rw [BitVec.lt_def, hround, hmin]; omega), hround,
        max_eq_right (not_lt.mp hsmall)]
  · have hround := toNat_roundUpToPowerOf2_of_wrap (a := size) (by omega)
    rw [if_neg hfits, if_pos (by rw [BitVec.lt_def, hround, hmin]; decide), hmin]

/-- A new queue has a size that tickets and indices work with. -/
theorem sized_new (size : Unsigned) (nil : α) : (AtomicQueueB2.new size nil).Sized := by
  unfold AtomicQueueB2.Sized
  rw [toNat_size_new]
  by_cases hfits : 0 < size.toNat ∧ size.toNat ≤ 2^31
  · have hsize : Nat.size (size.toNat-1) ≤ 31 := Nat.size_le.mpr (by omega)
    have hbits : shuffleBits = 6 := rfl
    rw [if_pos hfits]
    exact ⟨_, by omega, by omega, rfl⟩
  · rw [if_neg hfits]
    exact ⟨12, le_rfl, by decide, rfl⟩

namespace AtomicQueueB2

variable {q : AtomicQueueB2 α}

/-- There is a cell. -/
theorem Sized.pos (hq : q.Sized) : 0 < q.size.toNat := by
  obtain ⟨m, _, _, hsize⟩ := hq
  rw [hsize]
  exact Nat.two_pow_pos m

/-- The bits of a ticket that choose its cell are its remainder. -/
theorem Sized.toNat_and (hq : q.Sized) (k : ℕ) :
    (BitVec.ofNat 32 k &&& (q.size-1)).toNat = k%q.size.toNat := by
  obtain ⟨m, _, hm, hsize⟩ := hq
  have hpos := Nat.two_pow_pos m
  have hpred : (q.size-1).toNat = 2^m-1 := by
    have hlt := q.size.isLt
    rw [BitVec.toNat_sub, show (1 : Unsigned).toNat = 1 from rfl]
    omega
  have hdvd : 2^m ∣ 2^32 := pow_dvd_pow 2 hm.le
  rw [BitVec.toNat_and, hpred, Nat.and_two_pow_sub_one_eq_mod, BitVec.toNat_ofNat,
    Nat.mod_mod_of_dvd k hdvd, hsize]

/-- Every ticket has a cell of the ring. -/
theorem Sized.cell_lt (hq : q.Sized) (k : ℕ) : q.cell k < q.size.toNat := by
  have hand := hq.toNat_and k
  have hmod := Nat.mod_lt k hq.pos
  obtain ⟨m, hbits, hm, hsize⟩ := hq
  rw [hsize] at hand hmod ⊢
  exact remapIndex_lt hbits (by decide) hm.le (hand.trans_lt hmod)

/-- Two tickets share a cell exactly when their numbers agree modulo the size. -/
theorem Sized.cell_eq_iff (hq : q.Sized) {j k : ℕ} :
    q.cell j = q.cell k ↔ j ≡ k [MOD q.size.toNat] := by
  rw [Nat.ModEq, ← hq.toNat_and j, ← hq.toNat_and k, cell, cell, index, index, BitVec.toNat_inj,
    BitVec.toNat_inj]
  constructor
  · intro h
    have hback := congrArg (remapIndex shuffleBits) h
    rwa [remapIndex_remapIndex (by decide) (by decide),
      remapIndex_remapIndex (by decide) (by decide)] at hback
  · exact congrArg _

/-- Every cell belongs to one of the first tickets. -/
theorem Sized.exists_cell_eq (hq : q.Sized) {i : ℕ} (hi : i < q.size.toNat) :
    ∃ k < q.size.toNat, q.cell k = i := by
  have hinj : Set.InjOn q.cell (Finset.range q.size.toNat) := by
    intro j hj k hk h
    have hmod := hq.cell_eq_iff.mp h
    rwa [Nat.ModEq, Nat.mod_eq_of_lt (Finset.mem_range.mp hj),
      Nat.mod_eq_of_lt (Finset.mem_range.mp hk)] at hmod
  have hmaps : Set.MapsTo q.cell (Finset.range q.size.toNat) (Finset.range q.size.toNat) :=
    fun k _ => Finset.mem_coe.mpr (Finset.mem_range.mpr (hq.cell_lt k))
  obtain ⟨k, hk, hcell⟩ := Finset.surjOn_of_injOn_of_card_le q.cell hmaps hinj le_rfl
    (Finset.mem_coe.mpr (Finset.mem_range.mpr hi))
  exact ⟨k, Finset.mem_range.mp hk, hcell⟩

/-- The number of a ticket that is taken next after `k` others. -/
theorem ofNat_succ (k : ℕ) : BitVec.ofNat 32 k+1 = BitVec.ofNat 32 (k+1) :=
  (BitVec.ofNat_add k 1).symm

end AtomicQueueB2

/-- The number of cells is the smallest power of two that has at least the size
asked for and two cache lines of indices, and 4096 where no 32-bit power of two
is large enough. Tickets use the cells in turn across every wrap of their
counters: two of them share a cell exactly when their numbers agree modulo the
number of cells, and no cell is left out. -/
theorem cells_in_turn (size : Unsigned) (nil : α) :
    IsLeast {n | 4096 ≤ n ∧ (∃ m, n = 2^m) ∧ (size.toNat ≤ 2^31 → size.toNat ≤ n)}
        (AtomicQueueB2.new size nil).size.toNat ∧
      (∀ k, (AtomicQueueB2.new size nil).cell k < (AtomicQueueB2.new size nil).size.toNat) ∧
      (∀ j k, (AtomicQueueB2.new size nil).cell j = (AtomicQueueB2.new size nil).cell k ↔
        j ≡ k [MOD (AtomicQueueB2.new size nil).size.toNat]) ∧
      ∀ i < (AtomicQueueB2.new size nil).size.toNat,
        ∃ k, (AtomicQueueB2.new size nil).cell k = i := by
  have hsized := sized_new size nil
  refine ⟨?_, hsized.cell_lt, fun j k => hsized.cell_eq_iff, fun i hi => ?_⟩
  · rw [toNat_size_new]
    by_cases hfits : 0 < size.toNat ∧ size.toNat ≤ 2^31
    · rw [if_pos hfits]
      have hround : size.toNat-1 < 2^Nat.size (size.toNat-1) := Nat.lt_size_self _
      refine ⟨⟨?_, ⟨_, rfl⟩, fun _ => ?_⟩, ?_⟩
      · have hle := Nat.pow_le_pow_right Nat.two_pos
          (le_max_left 12 (Nat.size (size.toNat-1)))
        exact hle
      · have hle := Nat.pow_le_pow_right (by decide : 0 < 2)
          (le_max_right 12 (Nat.size (size.toNat-1)))
        omega
      · rintro n ⟨hmin, ⟨m, rfl⟩, hlarge⟩
        have hge : 12 ≤ m := (Nat.pow_le_pow_iff_right (by decide : 1 < 2)).mp hmin
        have hle := hlarge hfits.2
        have hsize : Nat.size (size.toNat-1) ≤ m := Nat.size_le.mpr (by omega)
        exact Nat.pow_le_pow_right Nat.two_pos (max_le hge hsize)
    · rw [if_neg hfits]
      exact ⟨⟨le_rfl, ⟨12, rfl⟩, fun hle => by omega⟩, fun n hn => hn.1⟩
  · obtain ⟨k, _, hcell⟩ := hsized.exists_cell_eq hi
    exact ⟨k, hcell⟩

/-- The queues of the server are asked for 1024 elements and get 4096 cells. -/
example : (AtomicQueueB2.new 1024 ()).size.toNat = 4096 := by decide

end Indices

end CapsuleDB.UtilAtomicQueue

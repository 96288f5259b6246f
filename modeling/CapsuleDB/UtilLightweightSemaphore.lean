import CapsuleDB.CellOwners
import CapsuleDB.LabelledRun
import Mathlib.Algebra.Order.BigOperators.Group.Finset
import Mathlib.Data.Fintype.Card
import Mathlib.Tactic.Linarith

/-!
# The semaphore under the queue of the client

A semaphore counts its permits in an atomic word and lets threads sleep in a
semaphore of the operating system only when the count is used up. Below zero the
count says how many threads sleep or are about to. A thread whose time is over
takes itself out of the count, unless a permit for it is already on its way.
The word wraps; it counts as the exact count does while all permits together fit it.
-/

namespace CapsuleDB.UtilLightweightSemaphore

open LabelledRun CellOwners

/-- The fields of a semaphore. -/
structure LightweightSemaphore where
  /-- `m_count`, without the range of its type. `MachineStep` adds the range. -/
  count : ℤ
  /-- The value of `m_sema`. -/
  sema : ℕ
  /-- `m_maxSpins`. -/
  maxSpins : ℕ

/-- Where a call of `tryWaitMany` returns to. -/
inductive After
  /-- To the caller, who has taken some permits before. -/
  | caller (before : ℤ)
  /-- To `waitMany`. -/
  | waitMany (timeoutUsecs : ℤ)

/-- Where a thread is. -/
inductive Phase
  /-- In no call. -/
  | idle
  /-- In `tryWaitMany`, before the load. -/
  | load (max : ℕ) (after : After)
  /-- In `tryWaitMany`, before the exchange. -/
  | exchange (max : ℕ) (oldCount : ℤ) (after : After)
  /-- In `waitManyWithPartialSpinning`, with some rounds left. -/
  | spin (left max : ℕ) (timeoutUsecs : ℤ)
  /-- In such a round, before the exchange. -/
  | spinExchange (left max : ℕ) (oldCount timeoutUsecs : ℤ)
  /-- Counted as a sleeper, in `m_sema.wait` or `m_sema.timed_wait`. -/
  | sleep (max : ℕ) (timeoutUsecs : ℤ)
  /-- At the load of the loop that re-adjusts the count. -/
  | adjust (max : ℕ)
  /-- In this loop, before `m_sema.try_wait`. -/
  | adjustTake (max : ℕ)
  /-- In this loop, before the exchange. -/
  | adjustExchange (max : ℕ) (oldCount : ℤ)
  /-- In `signal`, before the addition. -/
  | signal (count : ℕ)
  /-- In `m_sema.signal`. -/
  | post (count : ℤ)
  /-- Before the return. -/
  | done (result : ℤ)

/-- The count that an exchange leaves behind. -/
def newCount (oldCount : ℤ) (max : ℕ) : ℤ := if oldCount > max then oldCount-max else 0

/-- The conversion to `int`. -/
def toInt (n : ℤ) : ℤ := n.bmod (2 ^ 32)

/-- What an addition to `m_count` leaves of an exact sum in its `ssize_t`. -/
def toSsize (n : ℤ) : ℤ := n.bmod (2 ^ 64)

/-- `tryWaitMany` returns. -/
def After.result (maxSpins max : ℕ) (result : ℤ) : After → Phase
  | .caller before => .done (before+result)
  | .waitMany timeoutUsecs =>
    if result = 0 ∧ max > 0 then .spin maxSpins max timeoutUsecs else .done result

/-- The condition of the loop in `tryWaitMany`. -/
def After.loop (maxSpins max : ℕ) (oldCount : ℤ) (after : After) : Phase :=
  if oldCount > 0 then .exchange max oldCount after else after.result maxSpins max 0

/-- The end of `waitManyWithPartialSpinning` with one permit. -/
def greedy (max : ℕ) : Phase := if max > 1 then .load (max-1) (.caller 1) else .done 1

/-- Take a permit from `m_sema`, when there is one. -/
def LightweightSemaphore.take (s : LightweightSemaphore) (max : ℕ) :
    Option (LightweightSemaphore × Phase) :=
  match s.sema with
  | 0 => none
  | sema+1 => some ({ s with sema := sema }, greedy max)

/-- One access to the semaphore. Without luck, a weak exchange fails and the time
of `m_sema.timed_wait` is over. -/
def LightweightSemaphore.step (luck : Bool) (s : LightweightSemaphore) :
    Phase → Option (LightweightSemaphore × Phase)
  | .idle => none
  | .load max after => some (s, after.loop s.maxSpins max s.count)
  | .exchange max oldCount after =>
    if luck ∧ s.count = oldCount then
      some ({ s with count := newCount oldCount max },
        after.result s.maxSpins max (oldCount-newCount oldCount max))
    else some (s, after.loop s.maxSpins max s.count)
  | .spin 0 max timeoutUsecs =>
    some ({ s with count := s.count-1 },
      if s.count > 0 then greedy max
      else if timeoutUsecs = 0 then .adjust max else .sleep max timeoutUsecs)
  | .spin (left+1) max timeoutUsecs =>
    some (s, if s.count > 0 then .spinExchange left max s.count timeoutUsecs
      else .spin left max timeoutUsecs)
  | .spinExchange left max oldCount timeoutUsecs =>
    if s.count = oldCount then
      some ({ s with count := newCount oldCount max }, .done (oldCount-newCount oldCount max))
    else some (s, .spin left max timeoutUsecs)
  | .sleep max timeoutUsecs =>
    if luck ∨ timeoutUsecs < 0 then s.take max else some (s, .adjust max)
  | .adjust max =>
    some (s, if s.count ≥ 0 then .adjustTake max else .adjustExchange max s.count)
  | .adjustTake max => some ((s.take max).getD (s, .adjust max))
  | .adjustExchange max oldCount =>
    if s.count = oldCount then some ({ s with count := oldCount+1 }, .done 0)
    else some (s, .adjust max)
  | .signal count =>
    let toRelease := if -s.count < count then -s.count else count
    some ({ s with count := s.count+count },
      if toRelease > 0 then .post (toInt toRelease) else .done 0)
  | .post count =>
    if count > 0 then some ({ s with sema := s.sema+1 }, .post (count-1)) else some (s, .done 0)
  | .done _ => none

/-- A call. -/
inductive Call
  /-- `tryWaitMany`. -/
  | tryWaitMany (max : ℕ)
  /-- `waitMany`. -/
  | waitMany (max : ℕ) (timeoutUsecs : ℤ)
  /-- `signal`. -/
  | signal (count : ℕ)

/-- `tryWait`. -/
def Call.tryWait : Call := .tryWaitMany 1

/-- `wait` without a timeout. -/
def Call.wait : Call := .waitMany 1 (-1)

/-- `wait` with a timeout. -/
def Call.waitTimed (timeoutUsecs : ℤ) : Call := .waitMany 1 timeoutUsecs

/-- The start of a call. -/
def Call.enter : Call → Phase
  | .tryWaitMany max => .load max (.caller 0)
  | .waitMany max timeoutUsecs => .load max (.waitMany timeoutUsecs)
  | .signal count => .signal count

/-- The permits that a call is to add. -/
def Call.adds : Call → ℤ
  | .signal count => count
  | _ => 0

/-- Some threads and their semaphore. -/
structure System (ι : Type*) where
  /-- The semaphore. -/
  semaphore : LightweightSemaphore
  /-- The threads. -/
  threads : ι → Phase

/-- Before the first call. -/
def System.start (ι : Type*) (initialCount maxSpins : ℕ) : System ι where
  semaphore := ⟨initialCount, 0, maxSpins⟩
  threads := fun _ => .idle

/-- What a thread does. -/
inductive Label (ι : Type*)
  /-- It calls. -/
  | call (i : ι) (call : Call)
  /-- It accesses the semaphore. -/
  | step (i : ι) (luck : Bool)
  /-- The call returns. -/
  | ret (i : ι) (result : ℤ)

section Systems

variable {ι : Type*} [DecidableEq ι]

/-- One access, call or return of one thread. -/
inductive Step : System ι → Label ι → System ι → Prop
  | call {s : System ι} {i : ι} (call : Call) : s.threads i = .idle →
      Step s (.call i call) { s with threads := Function.update s.threads i call.enter }
  | step {s : System ι} {i : ι} {luck : Bool} {semaphore : LightweightSemaphore} {p : Phase} :
      s.semaphore.step luck (s.threads i) = some (semaphore, p) →
      Step s (.step i luck) ⟨semaphore, Function.update s.threads i p⟩
  | ret {s : System ι} {i : ι} {result : ℤ} : s.threads i = .done result →
      Step s (.ret i result) { s with threads := Function.update s.threads i .idle }

/-- The same, with `m_count` as the atomic `ssize_t` that it is. -/
inductive MachineStep : System ι → Label ι → System ι → Prop
  | wrap {s s' : System ι} {label : Label ι} : Step s label s' →
      MachineStep s label
        { s' with semaphore := { s'.semaphore with count := toSsize s'.semaphore.count } }

end Systems

/-- The permits that calls have returned with. -/
def returned {ι : Type*} : List (Label ι) → ℤ
  | [] => 0
  | .ret _ result :: history => result+returned history
  | _ :: history => returned history

/-- The permits that calls of `signal` were to add. -/
def signalled {ι : Type*} : List (Label ι) → ℤ
  | [] => 0
  | .call _ call :: history => call.adds+signalled history
  | _ :: history => signalled history

/-- The permits returned by some calls and later ones. -/
theorem returned_append {ι : Type*} (more history : List (Label ι)) :
    returned (more ++ history) = returned more+returned history := by
  induction more with
  | nil => exact (zero_add _).symm
  | cons label more ih =>
    cases label with
    | ret i result =>
      rw [List.cons_append, returned, returned, ih]
      omega
    | _ => exact ih

/-- The permits added by some calls and later ones. -/
theorem signalled_append {ι : Type*} (more history : List (Label ι)) :
    signalled (more ++ history) = signalled more+signalled history := by
  induction more with
  | nil => exact (zero_add _).symm
  | cons label more ih =>
    cases label with
    | call i call =>
      rw [List.cons_append, signalled, signalled, ih]
      omega
    | _ => exact ih

/-- No call takes back what others signalled. -/
theorem signalled_le_cons {ι : Type*} (label : Label ι) (history : List (Label ι)) :
    signalled history ≤ signalled (label :: history) := by
  cases label with
  | call i call =>
    have hadds : 0 ≤ call.adds := by
      cases call with
      | signal count => exact Int.natCast_nonneg count
      | _ => exact le_refl 0
    rw [signalled]
    omega
  | _ => exact le_refl _

/-- The permits taken before. -/
def After.held : After → ℤ
  | .caller before => before
  | .waitMany _ => 0

namespace Phase

/-- Whether the thread is counted as a sleeper. -/
def waiting : Phase → ℤ
  | .sleep _ _ => 1
  | .adjust _ => 1
  | .adjustTake _ => 1
  | .adjustExchange _ _ => 1
  | _ => 0

/-- The permits that the thread is about to put into `m_sema`. -/
def releasing : Phase → ℤ
  | .post count => max count 0
  | _ => 0

/-- The permits that the thread is about to add to the count. -/
def pending : Phase → ℤ
  | .signal count => count
  | _ => 0

/-- The permits that the call will return with, as far as it has taken them. -/
def holding : Phase → ℤ
  | .load _ after => after.held
  | .exchange _ _ after => after.held
  | .done result => result
  | _ => 0

/-- What the thread has seen allows what it is about to do. -/
def Sound : Phase → Prop
  | .load _ after => 0 ≤ after.held
  | .exchange _ oldCount after => 0 < oldCount ∧ 0 ≤ after.held
  | .spinExchange _ _ oldCount _ => 0 < oldCount
  | .adjustExchange _ oldCount => oldCount < 0
  | .done result => 0 ≤ result
  | _ => True

/-- A phase that only holds permits. -/
structure Holds (p : Phase) (n : ℤ) : Prop where
  /-- What it has seen. -/
  sound : p.Sound
  /-- It is no sleeper. -/
  waiting : p.waiting = 0
  /-- It releases nothing. -/
  releasing : p.releasing = 0
  /-- It adds nothing. -/
  pending : p.pending = 0
  /-- The permits. -/
  holding : p.holding = n

end Phase

section Accounts

variable {s s' : LightweightSemaphore} {p p' : Phase} {luck : Bool}

/-- Behind `tryWaitMany`. -/
theorem After.holds_result {maxSpins max : ℕ} {result : ℤ} {after : After} (hheld : 0 ≤ after.held)
    (hresult : 0 ≤ result) : (after.result maxSpins max result).Holds (after.held+result) := by
  cases after with
  | caller before => exact ⟨Int.add_nonneg hheld hresult, rfl, rfl, rfl, rfl⟩
  | waitMany timeoutUsecs =>
    unfold After.result
    dsimp only
    split_ifs with hspin
    · exact ⟨trivial, rfl, rfl, rfl, by rw [hspin.1]; rfl⟩
    · exact ⟨hresult, rfl, rfl, rfl, (zero_add result).symm⟩

/-- At the loop of `tryWaitMany`. -/
theorem After.holds_loop {maxSpins max : ℕ} {oldCount : ℤ} {after : After}
    (hheld : 0 ≤ after.held) : (after.loop maxSpins max oldCount).Holds after.held := by
  unfold After.loop
  split_ifs with hpos
  · exact ⟨⟨hpos, hheld⟩, rfl, rfl, rfl, rfl⟩
  · have h : (after.result maxSpins max 0).Holds (after.held+0) :=
      after.holds_result hheld (le_refl 0)
    rwa [add_zero] at h

/-- At the end of `waitManyWithPartialSpinning`. -/
theorem holds_greedy (max : ℕ) : (greedy max).Holds 1 := by
  unfold greedy
  split_ifs
  · exact ⟨Int.one_nonneg, rfl, rfl, rfl, rfl⟩
  · exact ⟨Int.one_nonneg, rfl, rfl, rfl, rfl⟩

/-- An exchange leaves nothing below zero. -/
theorem min_newCount {oldCount : ℤ} (hpos : 0 < oldCount) (max : ℕ) :
    min (newCount oldCount max) 0 = min oldCount 0 := by
  unfold newCount
  split_ifs with hmax
  · omega
  · omega

/-- An exchange takes nothing away from what a thread has. -/
theorem newCount_le {oldCount : ℤ} (hpos : 0 < oldCount) (max : ℕ) :
    newCount oldCount max ≤ oldCount := by
  unfold newCount
  split_ifs with hmax
  · omega
  · omega

/-- The conversion keeps what fits. -/
theorem toInt_eq {n : ℤ} (hpos : 0 < n) (hsmall : n < 2 ^ 31) : toInt n = n := by
  unfold toInt
  rw [Int.bmod]
  omega

/-- A word of 64 bits keeps what fits. -/
theorem toSsize_eq {n : ℤ} (hlow : -2 ^ 63 ≤ n) (hhigh : n < 2 ^ 63) : toSsize n = n := by
  unfold toSsize
  exact Int.bmod_eq_of_le (by omega) (by omega)

/-- What one access moves between the count, `m_sema` and the thread. -/
structure Moves (s s' : LightweightSemaphore) (p p' : Phase) : Prop where
  /-- What the thread has seen. -/
  sound : p'.Sound
  /-- A sleeper has a permit on its way, or is counted below zero. -/
  sleepers : s'.sema+p'.releasing+p.waiting+min s.count 0 =
    s.sema+p.releasing+p'.waiting+min s'.count 0
  /-- No permit is made or lost. -/
  permits : p'.holding+p'.waiting+s'.count+p'.pending = p.holding+p.waiting+s.count+p.pending

/-- A step to a phase that only holds permits. -/
theorem Phase.Holds.moves {n : ℤ} (h : p'.Holds n)
    (hsleepers : s'.sema+p.waiting+min s.count 0 = s.sema+p.releasing+min s'.count 0)
    (hpermits : n+s'.count = p.holding+p.waiting+s.count+p.pending) : Moves s s' p p' where
  sound := h.sound
  sleepers := by rw [h.releasing, h.waiting]; omega
  permits := by rw [h.holding, h.waiting, h.pending]; omega

/-- Taking a permit from `m_sema`. -/
theorem moves_take {max : ℕ} (hwaiting : p.waiting = 1) (hreleasing : p.releasing = 0)
    (hpending : p.pending = 0) (hholding : p.holding = 0) (h : s.take max = some (s', p')) :
    Moves s s' p p' := by
  unfold LightweightSemaphore.take at h
  split at h
  · cases h
  · next sema hsema =>
    cases h
    refine (holds_greedy max).moves ?_ ?_
    · rw [hwaiting, hreleasing, hsema]
      push_cast
      omega
    · rw [hwaiting, hpending, hholding]
      dsimp only
      omega

/-- One access. The number of sleepers must fit an `int`. -/
theorem LightweightSemaphore.moves (hsound : p.Sound) (hsmall : -s.count < 2 ^ 31)
    (h : s.step luck p = some (s', p')) : Moves s s' p p' := by
  cases p with
  | idle => cases h
  | load max after =>
    cases h
    exact (After.holds_loop hsound).moves (by dsimp only [Phase.waiting, Phase.releasing])
      (by dsimp only [Phase.holding, Phase.waiting, Phase.pending]; omega)
  | exchange max oldCount after =>
    unfold LightweightSemaphore.step at h
    dsimp only at h
    split_ifs at h with hsame
    · cases h
      have hmin := min_newCount hsound.1 max
      have hle := newCount_le hsound.1 max
      refine (After.holds_result hsound.2 (Int.sub_nonneg.mpr hle)).moves ?_ ?_ <;>
        dsimp only [Phase.waiting, Phase.releasing, Phase.holding, Phase.pending] <;> omega
    · cases h
      exact (After.holds_loop hsound.2).moves (by dsimp only [Phase.waiting, Phase.releasing])
        (by dsimp only [Phase.holding, Phase.waiting, Phase.pending]; omega)
  | spin left max timeoutUsecs =>
    cases left with
    | zero =>
      cases h
      split_ifs with hpos htime
      · refine (holds_greedy max).moves ?_ ?_ <;>
          dsimp only [Phase.waiting, Phase.releasing, Phase.holding, Phase.pending] <;> omega
      · refine ⟨trivial, ?_, ?_⟩ <;>
          dsimp only [Phase.waiting, Phase.releasing, Phase.holding, Phase.pending] <;> omega
      · refine ⟨trivial, ?_, ?_⟩ <;>
          dsimp only [Phase.waiting, Phase.releasing, Phase.holding, Phase.pending] <;> omega
    | succ left =>
      cases h
      split_ifs with hpos
      · exact ⟨hpos, rfl, rfl⟩
      · exact ⟨trivial, rfl, rfl⟩
  | spinExchange left max oldCount timeoutUsecs =>
    unfold LightweightSemaphore.step at h
    dsimp only at h
    split_ifs at h with hsame
    · cases h
      have hmin := min_newCount hsound max
      refine ⟨Int.sub_nonneg.mpr (newCount_le hsound max), ?_, ?_⟩ <;>
        dsimp only [Phase.waiting, Phase.releasing, Phase.holding, Phase.pending] <;> omega
    · cases h
      exact ⟨trivial, rfl, rfl⟩
  | sleep max timeoutUsecs =>
    unfold LightweightSemaphore.step at h
    dsimp only at h
    split_ifs at h
    · exact moves_take rfl rfl rfl rfl h
    · cases h
      exact ⟨trivial, rfl, rfl⟩
  | adjust max =>
    cases h
    split_ifs with hcount
    · exact ⟨trivial, rfl, rfl⟩
    · exact ⟨not_le.mp hcount, rfl, rfl⟩
  | adjustTake max =>
    unfold LightweightSemaphore.step at h
    dsimp only at h
    cases htake : s.take max with
    | none =>
      rw [htake] at h
      cases h
      exact ⟨trivial, rfl, rfl⟩
    | some next =>
      rw [htake] at h
      cases h
      exact moves_take rfl rfl rfl rfl htake
  | adjustExchange max oldCount =>
    unfold LightweightSemaphore.step at h
    dsimp only at h
    split_ifs at h with hsame
    · cases h
      have hneg : oldCount < 0 := hsound
      refine ⟨le_refl 0, ?_, ?_⟩ <;>
        dsimp only [Phase.waiting, Phase.releasing, Phase.holding, Phase.pending] <;> omega
    · cases h
      exact ⟨trivial, rfl, rfl⟩
  | signal count =>
    cases h
    split_ifs with hless hpos hpos
    · have hint := toInt_eq hpos hsmall
      refine ⟨trivial, ?_, ?_⟩ <;>
        dsimp only [Phase.waiting, Phase.releasing, Phase.holding, Phase.pending] <;> omega
    · refine ⟨le_refl 0, ?_, ?_⟩ <;>
        dsimp only [Phase.waiting, Phase.releasing, Phase.holding, Phase.pending] <;> omega
    · have hint := toInt_eq hpos (by omega)
      refine ⟨trivial, ?_, ?_⟩ <;>
        dsimp only [Phase.waiting, Phase.releasing, Phase.holding, Phase.pending] <;> omega
    · refine ⟨le_refl 0, ?_, ?_⟩ <;>
        dsimp only [Phase.waiting, Phase.releasing, Phase.holding, Phase.pending] <;> omega
  | post count =>
    unfold LightweightSemaphore.step at h
    dsimp only at h
    split_ifs at h with hpos
    · cases h
      refine ⟨trivial, ?_, rfl⟩
      dsimp only [Phase.waiting, Phase.releasing]
      push_cast
      omega
    · cases h
      refine ⟨le_refl 0, ?_, rfl⟩
      dsimp only [Phase.waiting, Phase.releasing]
      omega
  | done result => cases h

end Accounts

/-- No thread in a call can go on. -/
def HeldUp {ι : Type*} (s : System ι) : Prop :=
  ∀ i, s.threads i ≠ .idle → (∀ result, s.threads i ≠ .done result) ∧
    ∀ luck, s.semaphore.step luck (s.threads i) = none

/-- A thread in a call goes on, unless it sleeps or returns. -/
theorem LightweightSemaphore.step_ne_none (s : LightweightSemaphore) (luck : Bool) {p : Phase}
    (hidle : p ≠ .idle) (hdone : ∀ result, p ≠ .done result)
    (hsleep : ∀ max timeoutUsecs, p ≠ .sleep max timeoutUsecs) : s.step luck p ≠ none := by
  cases p with
  | idle => exact absurd rfl hidle
  | done result => exact absurd rfl (hdone result)
  | sleep max timeoutUsecs => exact absurd rfl (hsleep max timeoutUsecs)
  | spin left max timeoutUsecs =>
    cases left with
    | zero => exact Option.some_ne_none _
    | succ left => exact Option.some_ne_none _
  | exchange max oldCount after =>
    unfold LightweightSemaphore.step
    dsimp only
    split_ifs <;> exact Option.some_ne_none _
  | spinExchange left max oldCount timeoutUsecs =>
    unfold LightweightSemaphore.step
    dsimp only
    split_ifs <;> exact Option.some_ne_none _
  | adjustExchange max oldCount =>
    unfold LightweightSemaphore.step
    dsimp only
    split_ifs <;> exact Option.some_ne_none _
  | post count =>
    unfold LightweightSemaphore.step
    dsimp only
    split_ifs <;> exact Option.some_ne_none _
  | _ => exact Option.some_ne_none _

/-- A thread that cannot go on sleeps, and there is no permit in the semaphore of
the operating system. -/
theorem sleeps_of_heldUp {ι : Type*} {s : System ι} (h : HeldUp s) {i : ι}
    (hi : s.threads i ≠ .idle) :
    (∃ max timeoutUsecs, s.threads i = .sleep max timeoutUsecs) ∧ s.semaphore.sema = 0 := by
  obtain ⟨hdone, hstuck⟩ := h i hi
  have hlucky := hstuck true
  obtain ⟨max, timeoutUsecs, hphase⟩ :
      ∃ max timeoutUsecs, s.threads i = .sleep max timeoutUsecs := by
    by_contra hsleep
    push Not at hsleep
    exact s.semaphore.step_ne_none true hi hdone hsleep hlucky
  refine ⟨⟨max, timeoutUsecs, hphase⟩, ?_⟩
  rw [hphase] at hlucky
  unfold LightweightSemaphore.step at hlucky
  dsimp only at hlucky
  rw [if_pos (.inl rfl), LightweightSemaphore.take] at hlucky
  split at hlucky
  · assumption
  · cases hlucky

/-- A thread is at least no sleeper. -/
theorem Phase.waiting_nonneg (p : Phase) : 0 ≤ p.waiting := by
  unfold Phase.waiting
  split <;> decide

/-- A thread is at most one sleeper. -/
theorem Phase.waiting_le_one (p : Phase) : p.waiting ≤ 1 := by
  unfold Phase.waiting
  split <;> decide

/-- The start of a call. -/
theorem Call.enter_eq (call : Call) : call.enter.Sound ∧ call.enter.waiting = 0 ∧
    call.enter.releasing = 0 ∧ call.enter.holding = 0 ∧ call.enter.pending = call.adds := by
  cases call with
  | tryWaitMany max => exact ⟨le_refl 0, rfl, rfl, rfl, rfl⟩
  | waitMany max timeoutUsecs => exact ⟨le_refl 0, rfl, rfl, rfl, rfl⟩
  | signal count => exact ⟨trivial, rfl, rfl, rfl, rfl⟩

/-- What the threads have seen, when one of them has gone on. -/
theorem sound_update {ι : Type*} [DecidableEq ι] {threads : ι → Phase}
    (h : ∀ i, (threads i).Sound) {i : ι} {p : Phase} (hp : p.Sound) (j : ι) :
    (Function.update threads i p j).Sound := by
  by_cases hj : j = i
  · rw [hj, Function.update_self]
    exact hp
  · rw [Function.update_of_ne hj]
    exact h j

section Totals

variable {ι : Type*} [Fintype ι] {initialCount : ℕ}

/-- The total over all threads. -/
def System.total (s : System ι) (F : Phase → ℤ) : ℤ := ∑ i, F (s.threads i)

/-- The permits and the sleepers after some calls. -/
structure Accounts (initialCount : ℕ) (history : List (Label ι)) (s : System ι) : Prop where
  /-- The threads have seen what allows what they are about to do. -/
  sound : ∀ i, (s.threads i).Sound
  /-- Every sleeper has a permit on its way, or is counted below zero. -/
  sleepers : s.semaphore.sema+s.total Phase.releasing =
    s.total Phase.waiting+min s.semaphore.count 0
  /-- Every permit is somewhere. -/
  permits : returned history+s.total Phase.holding+s.total Phase.waiting+s.semaphore.count+
    s.total Phase.pending = initialCount+signalled history

/-- A total of parts that are not negative. -/
theorem total_nonneg {s : System ι} {F : Phase → ℤ} (h : ∀ i, 0 ≤ F (s.threads i)) :
    0 ≤ s.total F := Finset.sum_nonneg fun i _ => h i

/-- There are at most as many sleepers as threads. -/
theorem total_waiting_le (s : System ι) : s.total Phase.waiting ≤ Fintype.card ι := by
  have hsum : s.total Phase.waiting ≤ ∑ _i : ι, (1 : ℤ) :=
    Finset.sum_le_sum fun i _ => (s.threads i).waiting_le_one
  rwa [Finset.sum_const, Finset.card_univ, nsmul_eq_mul, mul_one] at hsum

/-- Nothing is released in the negative. -/
theorem total_releasing_nonneg (s : System ι) : 0 ≤ s.total Phase.releasing := by
  refine total_nonneg fun i => ?_
  cases s.threads i with
  | post count => exact le_max_right _ _
  | _ => exact le_refl 0

/-- Nothing is added in the negative. -/
theorem total_pending_nonneg (s : System ι) : 0 ≤ s.total Phase.pending := by
  refine total_nonneg fun i => ?_
  cases s.threads i with
  | signal count => exact Int.natCast_nonneg count
  | _ => exact le_refl 0

/-- Nobody holds permits in the negative. -/
theorem Accounts.total_holding_nonneg {history : List (Label ι)} {s : System ι}
    (h : Accounts initialCount history s) : 0 ≤ s.total Phase.holding := by
  refine total_nonneg fun i => ?_
  have hsound := h.sound i
  cases hp : s.threads i with
  | load max after =>
    rw [hp] at hsound
    exact hsound
  | exchange max oldCount after =>
    rw [hp] at hsound
    exact hsound.2
  | done result =>
    rw [hp] at hsound
    exact hsound
  | _ => exact le_refl 0

/-- Before the first call all permits are there. -/
theorem accounts_start (ι : Type*) [Fintype ι] (initialCount maxSpins : ℕ) :
    Accounts initialCount [] (System.start ι initialCount maxSpins) := by
  have hzero : ∀ F : Phase → ℤ, F .idle = 0 →
      (System.start ι initialCount maxSpins).total F = 0 := fun F hF =>
    Finset.sum_eq_zero fun _ _ => hF
  refine ⟨fun _ => trivial, ?_, ?_⟩
  · rw [hzero _ rfl, hzero _ rfl]
    dsimp only [System.start]
    omega
  · rw [hzero _ rfl, hzero _ rfl, hzero _ rfl]
    dsimp only [System.start, returned, signalled]
    omega

/-- Calls return with no more permits than there were. -/
theorem Accounts.returned_le {history : List (Label ι)} {s : System ι}
    (h : Accounts initialCount history s) :
    returned history ≤ initialCount+signalled history := by
  have hsleepers := h.sleepers
  have hpermits := h.permits
  have hholding := h.total_holding_nonneg
  have hreleasing := total_releasing_nonneg s
  have hpending := total_pending_nonneg s
  omega

/-- When no thread in a call can go on, but some thread is in a call, all permits
have been returned. -/
theorem Accounts.spent {history : List (Label ι)} {s : System ι}
    (h : Accounts initialCount history s) (hheld : HeldUp s) (hbusy : ∃ i, s.threads i ≠ .idle) :
    returned history = initialCount+signalled history ∧
      s.total Phase.waiting = -s.semaphore.count := by
  have hsleepers := h.sleepers
  have hpermits := h.permits
  have hsleep : ∀ i, s.threads i = .idle ∨
      ∃ max timeoutUsecs, s.threads i = .sleep max timeoutUsecs := fun i =>
    or_iff_not_imp_left.mpr fun hi => (sleeps_of_heldUp hheld hi).1
  have hzero : ∀ F : Phase → ℤ, F .idle = 0 →
      (∀ max timeoutUsecs, F (.sleep max timeoutUsecs) = 0) → s.total F = 0 := by
    intro F hidle hother
    refine Finset.sum_eq_zero fun i _ => ?_
    rcases hsleep i with hi | ⟨max, timeoutUsecs, hi⟩
    · rw [hi, hidle]
    · rw [hi, hother]
  have hholding := hzero Phase.holding rfl fun _ _ => rfl
  have hreleasing := hzero Phase.releasing rfl fun _ _ => rfl
  have hpending := hzero Phase.pending rfl fun _ _ => rfl
  obtain ⟨i, hi⟩ := hbusy
  obtain ⟨⟨max, timeoutUsecs, hphase⟩, hsema⟩ := sleeps_of_heldUp hheld hi
  have hone : 1 ≤ s.total Phase.waiting := by
    have hle : (s.threads i).waiting ≤ s.total Phase.waiting :=
      Finset.single_le_sum (f := fun j => (s.threads j).waiting)
        (fun j _ => (s.threads j).waiting_nonneg) (Finset.mem_univ i)
    rw [hphase] at hle
    exact hle
  rw [hreleasing, hsema] at hsleepers
  exact ⟨by omega, by omega⟩

end Totals

section Runs

variable {ι : Type*} [Fintype ι] [DecidableEq ι] {initialCount maxSpins : ℕ}

/-- The total changes by what one thread changes. -/
theorem total_update (s : System ι) (F : Phase → ℤ) (semaphore : LightweightSemaphore) (i : ι)
    (p : Phase) : (System.mk semaphore (Function.update s.threads i p)).total F+
      F (s.threads i) = s.total F+F p := sum_update F s.threads i p

/-- One step. -/
theorem Accounts.step {history : List (Label ι)} {s s' : System ι} {label : Label ι}
    (h : Accounts initialCount history s) (hcard : Fintype.card ι < 2 ^ 31)
    (hs : Step s label s') : Accounts initialCount (label :: history) s' := by
  have hsleepers := h.sleepers
  have hpermits := h.permits
  cases hs with
  | @call i call hidle =>
    have hw := total_update s Phase.waiting s.semaphore i call.enter
    have hr := total_update s Phase.releasing s.semaphore i call.enter
    have hh := total_update s Phase.holding s.semaphore i call.enter
    have hp := total_update s Phase.pending s.semaphore i call.enter
    obtain ⟨hsound, hwaiting, hreleasing, hholding, hpending⟩ := call.enter_eq
    rw [hidle, hwaiting] at hw
    rw [hidle, hreleasing] at hr
    rw [hidle, hholding] at hh
    rw [hidle, hpending] at hp
    dsimp only [Phase.waiting, Phase.releasing, Phase.holding, Phase.pending] at hw hr hh hp
    refine ⟨sound_update h.sound hsound, ?_, ?_⟩
    · dsimp only
      omega
    · dsimp only [returned, signalled]
      omega
  | @step i luck semaphore p hstep =>
    have hsmall : -s.semaphore.count < 2 ^ 31 := by
      have hnonneg := total_releasing_nonneg s
      have hle := total_waiting_le s
      omega
    have hmoves := LightweightSemaphore.moves (h.sound i) hsmall hstep
    have hw := total_update s Phase.waiting semaphore i p
    have hr := total_update s Phase.releasing semaphore i p
    have hh := total_update s Phase.holding semaphore i p
    have hp := total_update s Phase.pending semaphore i p
    have hmoved := hmoves.sleepers
    have hkept := hmoves.permits
    refine ⟨sound_update h.sound hmoves.sound, ?_, ?_⟩
    · dsimp only
      omega
    · dsimp only [returned, signalled]
      omega
  | @ret i result hdone =>
    have hw := total_update s Phase.waiting s.semaphore i .idle
    have hr := total_update s Phase.releasing s.semaphore i .idle
    have hh := total_update s Phase.holding s.semaphore i .idle
    have hp := total_update s Phase.pending s.semaphore i .idle
    rw [hdone] at hw hr hh hp
    dsimp only [Phase.waiting, Phase.releasing, Phase.holding, Phase.pending] at hw hr hh hp
    refine ⟨sound_update h.sound trivial, ?_, ?_⟩
    · dsimp only
      omega
    · dsimp only [returned, signalled]
      omega

/-- A run. -/
theorem accounts_of_run (hcard : Fintype.card ι < 2 ^ 31) {history : List (Label ι)}
    {s : System ι} (hr : Run Step (System.start ι initialCount maxSpins) history s) :
    Accounts initialCount history s := by
  refine Run.invariant (accounts_start ι initialCount maxSpins) ?_ hr
  intro history s label t _ h hs
  exact h.step hcard hs

/-- Calls return with permits, never with debts. -/
theorem returned_nonneg (hcard : Fintype.card ι < 2 ^ 31) {history : List (Label ι)}
    {s : System ι} (hr : Run Step (System.start ι initialCount maxSpins) history s) :
    0 ≤ returned history := by
  refine Run.invariant (I := fun history _ => 0 ≤ returned history) (le_refl 0) ?_ hr
  intro history s label t hrun hnonneg hs
  cases hs with
  | @ret i result hdone =>
    have hsound := (accounts_of_run hcard hrun).sound i
    rw [hdone] at hsound
    exact Int.add_nonneg hsound hnonneg
  | call _ _ => exact hnonneg
  | step _ => exact hnonneg

/-- The count stays between the number of threads below zero and all the permits
there ever were. -/
theorem count_bounds (hcard : Fintype.card ι < 2 ^ 31) {history : List (Label ι)}
    {s : System ι} (hr : Run Step (System.start ι initialCount maxSpins) history s) :
    -Fintype.card ι ≤ s.semaphore.count ∧
      s.semaphore.count ≤ initialCount+signalled history := by
  have h := accounts_of_run hcard hr
  have hsleepers := h.sleepers
  have hpermits := h.permits
  have hreturned := returned_nonneg hcard hr
  have hholding := h.total_holding_nonneg
  have hreleasing := total_releasing_nonneg s
  have hpending := total_pending_nonneg s
  have hwaiting := total_nonneg fun i => (s.threads i).waiting_nonneg
  have hle := total_waiting_le s
  exact ⟨by omega, by omega⟩

/-- While the permits fit an `ssize_t`, no addition to `m_count` wraps. -/
theorem run_of_machine (hcard : Fintype.card ι < 2 ^ 31) {history : List (Label ι)}
    {s : System ι} (hr : Run MachineStep (System.start ι initialCount maxSpins) history s)
    (hfits : initialCount+signalled history < 2 ^ 63) :
    Run Step (System.start ι initialCount maxSpins) history s := by
  induction hr with
  | start => exact .start
  | @next history s t label _ hs ih =>
    have hmono := signalled_le_cons label history
    cases hs with
    | wrap hs =>
      have hrun := (ih (by omega)).next hs
      obtain ⟨hlow, hhigh⟩ := count_bounds hcard hrun
      rw [toSsize_eq (by omega) (by omega)]
      exact hrun

/-- While the permits of the start and those signalled fit the `ssize_t` that
`m_count` is, they are conserved, whatever the order of the accesses and whichever
waits run out of time: they are those returned, those held, those in the count and
in the semaphore of the operating system and those on their way. So calls never
return with more permits than there were. Every sleeper has a permit in the
semaphore of the operating system or on its way there, or is counted below zero. -/
theorem permits_conserved (hcard : Fintype.card ι < 2 ^ 31) {history : List (Label ι)}
    {s : System ι} (hr : Run MachineStep (System.start ι initialCount maxSpins) history s)
    (hfits : initialCount+signalled history < 2 ^ 63) :
    returned history+s.total Phase.holding+max s.semaphore.count 0+s.semaphore.sema+
        s.total Phase.releasing+s.total Phase.pending = initialCount+signalled history ∧
      returned history ≤ initialCount+signalled history ∧
      s.total Phase.waiting = s.semaphore.sema+s.total Phase.releasing+
        max (-s.semaphore.count) 0 := by
  have h := accounts_of_run hcard (run_of_machine hcard hr hfits)
  have hsleepers := h.sleepers
  have hpermits := h.permits
  exact ⟨by omega, h.returned_le, by omega⟩

/-- One thread sleeps, another one wakes it up, and both return. -/
theorem permits_conserved_sleeper :
    ∃ history s, Run MachineStep (System.start (Fin 2) 0 0) history s ∧ returned history = 1 ∧
      returned history ≤ 0+signalled history ∧
      s.total Phase.waiting = s.semaphore.sema+s.total Phase.releasing+
        max (-s.semaphore.count) 0 := by
  have hr : Run MachineStep (System.start (Fin 2) 0 0)
      [.ret 0 1, .step 0 true, .ret 1 0, .step 1 true, .step 1 true, .step 1 true,
        .call 1 (.signal 1), .step 0 true, .step 0 true, .call 0 .wait] _ :=
    (((((((((Run.start.next (.wrap (.call _ rfl))).next (.wrap (.step rfl))).next
      (.wrap (.step rfl))).next (.wrap (.call _ rfl))).next (.wrap (.step rfl))).next
      (.wrap (.step rfl))).next (.wrap (.step rfl))).next (.wrap (.ret rfl))).next
      (.wrap (.step rfl))).next (.wrap (.ret rfl))
  exact ⟨_, _, hr, rfl, (permits_conserved (by decide) hr (by decide)).2⟩

/-- Permits that do not fit an `ssize_t` are lost: two signals of the largest count
leave the count below zero. -/
theorem permits_lost_beyond_ssize :
    ¬ ∀ (history : List (Label Unit)) (s : System Unit),
      Run MachineStep (System.start Unit 0 0) history s →
        returned history+s.total Phase.holding+max s.semaphore.count 0+s.semaphore.sema+
          s.total Phase.releasing+s.total Phase.pending = signalled history := by
  intro hall
  have hr : Run MachineStep (System.start Unit 0 0)
      [.ret () 0, .step () true, .call () (.signal (2 ^ 63-1)), .ret () 0, .step () true,
        .call () (.signal (2 ^ 63-1))] _ :=
    (((((Run.start.next (.wrap (.call _ rfl))).next (.wrap (.step rfl))).next
      (.wrap (.ret rfl))).next (.wrap (.call _ rfl))).next (.wrap (.step rfl))).next
      (.wrap (.ret rfl))
  have hlost := hall _ _ hr
  revert hlost
  decide

/-- While the permits fit an `ssize_t`: when no thread in a call can go on, but some
thread is in a call, then all permits have been returned, and all these threads
sleep in the semaphore of the operating system, counted below zero. -/
theorem sleeps_only_when_spent (hcard : Fintype.card ι < 2 ^ 31) {history : List (Label ι)}
    {s : System ι} (hr : Run MachineStep (System.start ι initialCount maxSpins) history s)
    (hfits : initialCount+signalled history < 2 ^ 63)
    (hheld : HeldUp s) (hbusy : ∃ i, s.threads i ≠ .idle) :
    returned history = initialCount+signalled history ∧
      s.total Phase.waiting = -s.semaphore.count ∧
      ∀ i, s.threads i = .idle ∨
        ∃ max timeoutUsecs, s.threads i = .sleep max timeoutUsecs := by
  obtain ⟨hspent, hcount⟩ :=
    (accounts_of_run hcard (run_of_machine hcard hr hfits)).spent hheld hbusy
  exact ⟨hspent, hcount, fun i => or_iff_not_imp_left.mpr fun hi => (sleeps_of_heldUp hheld hi).1⟩

/-- One thread sleeps, and there is no other one. -/
theorem sleeps_only_when_spent_alone :
    ∃ s, Run MachineStep (System.start Unit 0 0)
        [.step () true, .step () true, .call () .wait] s ∧
      s.total Phase.waiting = 1 := by
  have hr : Run MachineStep (System.start Unit 0 0)
      [.step () true, .step () true, .call () .wait] _ :=
    ((Run.start.next (.wrap (.call _ rfl))).next (.wrap (.step rfl))).next (.wrap (.step rfl))
  refine ⟨_, hr, (sleeps_only_when_spent (by decide) hr (by decide) ?_
    ⟨(), Phase.noConfusion⟩).2.1⟩
  intro i _
  refine ⟨fun _ => Phase.noConfusion, fun luck => ?_⟩
  cases luck with
  | false => rfl
  | true => rfl

end Runs

section Results

/-- What a call that asks for at most `max` permits may return: none only after its
time is over. -/
def Allowed (max : ℕ) (timeoutUsecs result : ℤ) : Prop :=
  0 ≤ result ∧ result ≤ max ∧ (timeoutUsecs < 0 → 0 < max → 0 < result)

/-- `tryWaitMany` is on the way to a result that is allowed. -/
def After.Fits (max : ℕ) (timeoutUsecs : ℤ) (rest : ℕ) : After → Prop
  | .caller before =>
    0 ≤ before ∧ before+rest ≤ max ∧ (timeoutUsecs < 0 → 0 < max → 0 < before)
  | .waitMany t => rest = max ∧ t = timeoutUsecs

/-- The thread is on the way to a result that is allowed. -/
def Phase.Fits (max : ℕ) (timeoutUsecs : ℤ) : Phase → Prop
  | .load rest after => after.Fits max timeoutUsecs rest
  | .exchange rest oldCount after => 0 < oldCount ∧ after.Fits max timeoutUsecs rest
  | .spin _ m t => m = max ∧ t = timeoutUsecs ∧ 0 < max
  | .spinExchange _ m oldCount t => 0 < oldCount ∧ m = max ∧ t = timeoutUsecs ∧ 0 < max
  | .sleep m t => m = max ∧ t = timeoutUsecs ∧ 0 < max
  | .adjust m => m = max ∧ 0 ≤ timeoutUsecs ∧ 0 < max
  | .adjustTake m => m = max ∧ 0 ≤ timeoutUsecs ∧ 0 < max
  | .adjustExchange m _ => m = max ∧ 0 ≤ timeoutUsecs ∧ 0 < max
  | .done result => Allowed max timeoutUsecs result
  | _ => False

variable {max rest maxSpins : ℕ} {timeoutUsecs : ℤ}

/-- An exchange takes some permits and at most as many as it asks for. -/
theorem newCount_bounds {oldCount : ℤ} (hpos : 0 < oldCount) (max : ℕ) :
    0 ≤ oldCount-newCount oldCount max ∧ oldCount-newCount oldCount max ≤ max ∧
      (0 < max → 0 < oldCount-newCount oldCount max) := by
  unfold newCount
  split_ifs with hmax
  · exact ⟨by omega, by omega, by omega⟩
  · exact ⟨by omega, by omega, by omega⟩

/-- Behind `tryWaitMany`. -/
theorem After.fits_result {after : After} (h : after.Fits max timeoutUsecs rest) {result : ℤ}
    (hnonneg : 0 ≤ result) (hle : result ≤ rest) :
    (after.result maxSpins rest result).Fits max timeoutUsecs := by
  cases after with
  | caller before =>
    obtain ⟨hbefore, hsum, hpos⟩ := h
    refine ⟨by omega, by omega, fun htime hmax => ?_⟩
    have hlt := hpos htime hmax
    omega
  | waitMany t =>
    obtain ⟨rfl, rfl⟩ := h
    unfold After.result
    dsimp only
    split_ifs with hspin
    · exact ⟨rfl, rfl, hspin.2⟩
    · exact ⟨hnonneg, hle, fun _ hmax => by omega⟩

/-- At the loop of `tryWaitMany`. -/
theorem After.fits_loop {after : After} (h : after.Fits max timeoutUsecs rest) (oldCount : ℤ) :
    (after.loop maxSpins rest oldCount).Fits max timeoutUsecs := by
  unfold After.loop
  split_ifs with hpos
  · exact ⟨hpos, h⟩
  · exact After.fits_result h (le_refl 0) (Int.natCast_nonneg rest)

/-- At the end of `waitManyWithPartialSpinning`. -/
theorem fits_greedy (hmax : 0 < max) : (greedy max).Fits max timeoutUsecs := by
  unfold greedy
  split_ifs with hmore
  · exact ⟨Int.one_nonneg, by omega, fun _ _ => Int.one_pos⟩
  · exact ⟨Int.one_nonneg, by omega, fun _ _ => Int.one_pos⟩

/-- Taking a permit from `m_sema`. -/
theorem fits_take (hmax : 0 < max) {s s' : LightweightSemaphore} {p' : Phase}
    (h : s.take max = some (s', p')) : p'.Fits max timeoutUsecs := by
  unfold LightweightSemaphore.take at h
  split at h
  · cases h
  · cases h
    exact fits_greedy hmax

/-- One access. -/
theorem Phase.Fits.step {s s' : LightweightSemaphore} {luck : Bool} {p p' : Phase}
    (h : p.Fits max timeoutUsecs) (hs : s.step luck p = some (s', p')) :
    p'.Fits max timeoutUsecs := by
  cases p with
  | idle => cases hs
  | load rest after =>
    cases hs
    exact After.fits_loop h _
  | exchange rest oldCount after =>
    obtain ⟨hpos, hafter⟩ := h
    obtain ⟨hnonneg, hle, _⟩ := newCount_bounds hpos rest
    unfold LightweightSemaphore.step at hs
    dsimp only at hs
    split_ifs at hs
    · cases hs
      exact After.fits_result hafter hnonneg hle
    · cases hs
      exact After.fits_loop hafter _
  | spin left m t =>
    obtain ⟨rfl, rfl, hmax⟩ := h
    cases left with
    | zero =>
      cases hs
      split_ifs with hpos htime
      · exact fits_greedy hmax
      · exact ⟨rfl, htime.ge, hmax⟩
      · exact ⟨rfl, rfl, hmax⟩
    | succ left =>
      cases hs
      split_ifs with hpos
      · exact ⟨hpos, rfl, rfl, hmax⟩
      · exact ⟨rfl, rfl, hmax⟩
  | spinExchange left m oldCount t =>
    obtain ⟨hpos, rfl, rfl, hmax⟩ := h
    obtain ⟨hnonneg, hle, hsome⟩ := newCount_bounds hpos m
    unfold LightweightSemaphore.step at hs
    dsimp only at hs
    split_ifs at hs
    · cases hs
      exact ⟨hnonneg, hle, fun _ _ => hsome hmax⟩
    · cases hs
      exact ⟨rfl, rfl, hmax⟩
  | sleep m t =>
    obtain ⟨rfl, rfl, hmax⟩ := h
    unfold LightweightSemaphore.step at hs
    dsimp only at hs
    split_ifs at hs with htime
    · exact fits_take hmax hs
    · cases hs
      push Not at htime
      exact ⟨rfl, htime.2, hmax⟩
  | adjust m =>
    obtain ⟨rfl, htime, hmax⟩ := h
    cases hs
    split_ifs
    · exact ⟨rfl, htime, hmax⟩
    · exact ⟨rfl, htime, hmax⟩
  | adjustTake m =>
    obtain ⟨rfl, htime, hmax⟩ := h
    unfold LightweightSemaphore.step at hs
    dsimp only at hs
    cases htake : s.take m with
    | none =>
      rw [htake] at hs
      cases hs
      exact ⟨rfl, htime, hmax⟩
    | some next =>
      rw [htake] at hs
      cases hs
      exact fits_take hmax htake
  | adjustExchange m oldCount =>
    obtain ⟨rfl, htime, hmax⟩ := h
    unfold LightweightSemaphore.step at hs
    dsimp only at hs
    split_ifs at hs
    · cases hs
      exact ⟨le_refl 0, Int.natCast_nonneg m, fun hneg => by omega⟩
    · cases hs
      exact ⟨rfl, htime, hmax⟩
  | signal count => exact h.elim
  | post count => exact h.elim
  | done result => cases hs

/-- What a call may return. -/
def Call.Allows : Call → ℤ → Prop
  | .tryWaitMany max, result => Allowed max 0 result
  | .waitMany max timeoutUsecs, result => Allowed max timeoutUsecs result
  | .signal _, result => result = 0

/-- The thread is in this call. -/
def Call.Follows : Call → Phase → Prop
  | .tryWaitMany max, p => p.Fits max 0
  | .waitMany max timeoutUsecs, p => p.Fits max timeoutUsecs
  | .signal _, .signal _ => True
  | .signal _, .post _ => True
  | .signal _, .done result => result = 0
  | .signal _, _ => False

/-- The start of a call. -/
theorem Call.follows_enter (call : Call) : call.Follows call.enter := by
  cases call with
  | tryWaitMany max => exact ⟨le_refl 0, by omega, fun h => absurd h (lt_irrefl 0)⟩
  | waitMany max timeoutUsecs => exact ⟨rfl, rfl⟩
  | signal count => trivial

/-- One access in a call. -/
theorem Call.Follows.step {call : Call} {s s' : LightweightSemaphore} {luck : Bool}
    {p p' : Phase} (h : call.Follows p) (hs : s.step luck p = some (s', p')) :
    call.Follows p' := by
  cases call with
  | tryWaitMany max => exact Phase.Fits.step h hs
  | waitMany max timeoutUsecs => exact Phase.Fits.step h hs
  | signal count =>
    cases p with
    | signal count =>
      cases hs
      split_ifs
      · trivial
      · rfl
      · trivial
      · rfl
    | post count =>
      unfold LightweightSemaphore.step at hs
      dsimp only at hs
      split_ifs at hs
      · cases hs
        trivial
      · cases hs
        rfl
    | done result => cases hs
    | _ => exact h.elim

/-- The call that a thread is in. -/
def calling {ι : Type*} [DecidableEq ι] (i : ι) : List (Label ι) → Option Call
  | [] => none
  | .call j call :: history => if j = i then some call else calling i history
  | .ret j _ :: history => if j = i then none else calling i history
  | .step _ _ :: history => calling i history

/-- The thread is in its call, or in none. -/
def Called (call : Option Call) (p : Phase) : Prop :=
  match call with
  | none => p = .idle
  | some call => call.Follows p

variable {ι : Type*} [DecidableEq ι] {initialCount : ℕ}

/-- The threads are in their calls. -/
theorem called_of_run {history : List (Label ι)} {s : System ι}
    (hr : Run Step (System.start ι initialCount maxSpins) history s) (i : ι) :
    Called (calling i history) (s.threads i) := by
  induction hr with
  | start => rfl
  | @next history s t label _ hs ih =>
    cases hs with
    | @call j call hidle =>
      dsimp only [calling]
      by_cases hj : j = i
      · rw [if_pos hj, hj, Function.update_self]
        exact call.follows_enter
      · rw [if_neg hj, Function.update_of_ne (Ne.symm hj)]
        exact ih
    | @step j luck semaphore p hstep =>
      dsimp only [calling]
      by_cases hj : i = j
      · rw [← hj] at hstep ⊢
        rw [Function.update_self]
        cases hcalling : calling i history with
        | none =>
          rw [hcalling] at ih
          rw [show s.threads i = .idle from ih] at hstep
          cases hstep
        | some call =>
          rw [hcalling] at ih
          exact Call.Follows.step ih hstep
      · rw [Function.update_of_ne hj]
        exact ih
    | @ret j result hdone =>
      dsimp only [calling]
      by_cases hj : j = i
      · rw [if_pos hj, hj, Function.update_self]
        rfl
      · rw [if_neg hj, Function.update_of_ne (Ne.symm hj)]
        exact ih

/-- A call of `tryWaitMany` or `waitMany` returns with at most as many permits as it
asks for, and with at least one when it asks for some and has no timeout, however
its waits, its failed exchanges and the loop that re-adjusts the count interleave
with other threads. -/
theorem results_allowed {history : List (Label ι)} {s : System ι}
    (hr : Run Step (System.start ι initialCount maxSpins) history s) {i : ι} {result : ℤ}
    (hdone : s.threads i = .done result) :
    ∃ call, calling i history = some call ∧ call.Allows result := by
  have hcalled := called_of_run hr i
  rw [hdone] at hcalled
  cases hcalling : calling i history with
  | none =>
    rw [hcalling] at hcalled
    cases hcalled
  | some call =>
    rw [hcalling] at hcalled
    refine ⟨call, rfl, ?_⟩
    cases call with
    | tryWaitMany max => exact hcalled
    | waitMany max timeoutUsecs => exact hcalled
    | signal count => exact hcalled

/-- A call that takes two of three permits. -/
theorem results_allowed_two :
    ∃ s, Run Step (System.start Unit 3 0)
        [.step () true, .step () true, .call () (.waitMany 2 (-1))] s ∧
      s.threads () = .done 2 ∧ (Call.waitMany 2 (-1)).Allows 2 := by
  have hr : Run Step (System.start Unit 3 0)
      [.step () true, .step () true, .call () (.waitMany 2 (-1))] _ :=
    ((Run.start.next (.call _ rfl)).next (.step rfl)).next (.step rfl)
  obtain ⟨call, hcall, hallows⟩ :=
    results_allowed hr (i := ()) (show (_ : Phase) = .done 2 from rfl)
  cases hcall
  exact ⟨_, hr, rfl, hallows⟩

end Results

section Alone

/-- An access of a thread while no other thread accesses the semaphore. -/
def Alone (x : LightweightSemaphore × Phase) (luck : Bool) (y : LightweightSemaphore × Phase) :
    Prop := x.1.step luck x.2 = some y

variable {s : LightweightSemaphore} {max : ℕ} {oldCount : ℤ} {after : After}

/-- One access. -/
theorem run_alone {p p' : Phase} {s' : LightweightSemaphore} {luck : Bool}
    (h : s.step luck p = some (s', p')) : Run Alone (s, p) [luck] (s', p') :=
  Run.start.next h

/-- A permit of the count is the one that a call of `wait` returns with. -/
theorem After.result_eq_done (maxSpins : ℕ) (h : after.Fits 1 (-1) max) (hpos : 0 < oldCount) :
    after.result maxSpins max (oldCount-newCount oldCount max) = .done 1 := by
  obtain ⟨hnonneg, hle, hsome⟩ := newCount_bounds hpos max
  cases after with
  | caller before =>
    obtain ⟨_, hsum, hbefore⟩ := h
    have hone := hbefore (by decide) Nat.one_pos
    unfold After.result
    dsimp only
    congr 1
    omega
  | waitMany t =>
    obtain ⟨rfl, rfl⟩ := h
    have htaken := hsome Nat.one_pos
    unfold After.result
    dsimp only
    rw [if_neg fun hnone => by omega]
    congr 1
    omega

/-- At the loop of `tryWaitMany`, `wait` can go on to its return. -/
theorem exists_waited_of_loop (h : after.Fits 1 (-1) max)
    (hcount : after.held = 0 → 0 < s.count) :
    ∃ lucks s', Run Alone (s, after.loop s.maxSpins max s.count) lucks (s', .done 1) := by
  unfold After.loop
  by_cases hpos : s.count > 0
  · rw [if_pos hpos]
    have hs : s.step true (.exchange max s.count after) =
        some ({ s with count := newCount s.count max }, .done 1) := by
      have hresult := After.result_eq_done s.maxSpins h hpos
      rw [← hresult]
      exact if_pos ⟨rfl, rfl⟩
    exact ⟨_, _, run_alone hs⟩
  · rw [if_neg hpos]
    cases after with
    | caller before =>
      obtain ⟨_, hsum, hbefore⟩ := h
      have hone := hbefore (by decide) Nat.one_pos
      have hresult : (After.caller before).result s.maxSpins max 0 = .done 1 := by
        unfold After.result
        dsimp only
        congr 1
        omega
      rw [hresult]
      exact ⟨[], s, .start⟩
    | waitMany t => exact absurd (hcount rfl) hpos

/-- In its rounds, `wait` can go on to its return. -/
theorem exists_waited_of_spin (left : ℕ) (hpos : 0 < s.count) :
    ∃ lucks s', Run Alone (s, .spin left 1 (-1)) lucks (s', .done 1) := by
  cases left with
  | zero =>
    have hs : s.step true (.spin 0 1 (-1)) = some ({ s with count := s.count-1 }, .done 1) := by
      unfold LightweightSemaphore.step
      dsimp only
      rw [if_pos hpos]
      rfl
    exact ⟨_, _, run_alone hs⟩
  | succ left =>
    have hs : s.step true (.spin (left+1) 1 (-1)) =
        some (s, .spinExchange left 1 s.count (-1)) := by
      unfold LightweightSemaphore.step
      dsimp only
      rw [if_pos hpos]
    have htake : s.step true (.spinExchange left 1 s.count (-1)) =
        some ({ s with count := newCount s.count 1 }, .done 1) := by
      obtain ⟨_, hle, hsome⟩ := newCount_bounds hpos 1
      have hone : s.count-newCount s.count 1 = 1 := by
        have htaken := hsome Nat.one_pos
        omega
      unfold LightweightSemaphore.step
      dsimp only
      rw [if_pos rfl, hone]
    exact ⟨_, _, (run_alone hs).next htake⟩

/-- A call of `wait` can go on to its return while there is a permit for it: in the
count for a thread that is no sleeper, and in the semaphore of the operating system
for one that is. -/
theorem exists_waited {p : Phase} (h : Call.wait.Follows p)
    (hcount : p.holding = 0 → p.waiting = 0 → 0 < s.count)
    (hsema : p.waiting ≠ 0 → 0 < s.sema) :
    ∃ lucks s', Run Alone (s, p) lucks (s', .done 1) := by
  cases p with
  | load rest after =>
    obtain ⟨lucks, s', hr⟩ := exists_waited_of_loop (s := s) h fun hheld => hcount hheld rfl
    have hs : s.step true (.load rest after) = some (s, after.loop s.maxSpins rest s.count) := rfl
    exact ⟨_, s', (run_alone hs).append hr⟩
  | exchange rest oldCount after =>
    obtain ⟨hpos, hafter⟩ := h
    obtain ⟨lucks, s', hr⟩ := exists_waited_of_loop (s := s) hafter fun hheld => hcount hheld rfl
    have hs : s.step false (.exchange rest oldCount after) =
        some (s, after.loop s.maxSpins rest s.count) := rfl
    exact ⟨_, s', (run_alone hs).append hr⟩
  | spin left m t =>
    obtain ⟨rfl, rfl, _⟩ := h
    exact exists_waited_of_spin left (hcount rfl rfl)
  | spinExchange left m oldCount t =>
    obtain ⟨hpos, rfl, rfl, _⟩ := h
    by_cases hsame : s.count = oldCount
    · obtain ⟨_, hle, hsome⟩ := newCount_bounds hpos 1
      have hone : oldCount-newCount oldCount 1 = 1 := by
        have htaken := hsome Nat.one_pos
        omega
      have hs : s.step true (.spinExchange left 1 oldCount (-1)) =
          some ({ s with count := newCount oldCount 1 }, .done 1) := by
        unfold LightweightSemaphore.step
        dsimp only
        rw [if_pos hsame, hone]
      exact ⟨_, _, run_alone hs⟩
    · have hs : s.step true (.spinExchange left 1 oldCount (-1)) =
          some (s, .spin left 1 (-1)) := if_neg hsame
      obtain ⟨lucks, s', hr⟩ := exists_waited_of_spin (s := s) left (hcount rfl rfl)
      exact ⟨_, s', (run_alone hs).append hr⟩
  | sleep m t =>
    obtain ⟨rfl, rfl, _⟩ := h
    obtain ⟨sema, hs⟩ := Nat.exists_eq_succ_of_ne_zero (hsema Int.one_ne_zero).ne'
    have htake : s.step true (.sleep 1 (-1)) = some ({ s with sema := sema }, .done 1) := by
      unfold LightweightSemaphore.step
      dsimp only
      rw [if_pos (.inl rfl), LightweightSemaphore.take, hs]
      rfl
    exact ⟨_, _, run_alone htake⟩
  | adjust m => exact absurd h.2.1 (by decide)
  | adjustTake m => exact absurd h.2.1 (by decide)
  | adjustExchange m oldCount => exact absurd h.2.1 (by decide)
  | done result =>
    obtain ⟨_, hle, hpos⟩ := h
    have hone : result = 1 := by
      have htaken := hpos (by decide) Nat.one_pos
      omega
    exact ⟨[], s, hone ▸ .start⟩
  | idle => exact h.elim
  | signal count => exact h.elim
  | post count => exact h.elim

/-- A call of `wait` adds and releases nothing, and has nothing while it sleeps. -/
theorem parts_of_wait {p : Phase} (h : Call.wait.Follows p) :
    p.pending = 0 ∧ p.releasing = 0 ∧ (p.waiting ≠ 0 → p.holding = 0) := by
  cases p with
  | signal count => exact h.elim
  | post count => exact h.elim
  | sleep max timeoutUsecs => exact ⟨rfl, rfl, fun _ => rfl⟩
  | adjust max => exact ⟨rfl, rfl, fun _ => rfl⟩
  | adjustTake max => exact ⟨rfl, rfl, fun _ => rfl⟩
  | adjustExchange max oldCount => exact ⟨rfl, rfl, fun _ => rfl⟩
  | _ => exact ⟨rfl, rfl, fun hsleeps => absurd rfl hsleeps⟩

/-- A call of `signal` can always go on to its return. -/
theorem exists_signalled {count : ℕ} {p : Phase} (h : (Call.signal count).Follows p) :
    ∃ lucks s', Run Alone (s, p) lucks (s', .done 0) := by
  have hpost : ∀ (k : ℕ) (n : ℤ) (s : LightweightSemaphore), n.toNat = k →
      ∃ lucks s', Run Alone (s, .post n) lucks (s', .done 0) := by
    intro k
    induction k with
    | zero =>
      intro n s hn
      have hs : s.step true (.post n) = some (s, .done 0) := if_neg (by omega)
      exact ⟨_, s, run_alone hs⟩
    | succ k ih =>
      intro n s hn
      have hs : s.step true (.post n) = some ({ s with sema := s.sema+1 }, .post (n-1)) :=
        if_pos (by omega)
      obtain ⟨lucks, s', hr⟩ := ih (n-1) { s with sema := s.sema+1 } (by omega)
      exact ⟨_, s', (run_alone hs).append hr⟩
  cases p with
  | signal n =>
    have hs : ∃ s' p', s.step true (.signal n) = some (s', p') ∧
        ((∃ m, p' = .post m) ∨ p' = .done 0) := by
      refine ⟨_, _, rfl, ?_⟩
      split_ifs
      · exact .inl ⟨_, rfl⟩
      · exact .inr rfl
      · exact .inl ⟨_, rfl⟩
      · exact .inr rfl
    obtain ⟨s', p', hs, ⟨m, rfl⟩ | rfl⟩ := hs
    · obtain ⟨lucks, s'', hr⟩ := hpost m.toNat m s' rfl
      exact ⟨_, s'', (run_alone hs).append hr⟩
    · exact ⟨_, s', run_alone hs⟩
  | post n => exact hpost n.toNat n s rfl
  | done result =>
    have hzero : result = 0 := h
    exact ⟨[], s, hzero ▸ .start⟩
  | _ => exact h.elim

end Alone

end CapsuleDB.UtilLightweightSemaphore

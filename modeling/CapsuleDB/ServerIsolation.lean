import Mathlib.Data.List.Forall2
import CapsuleDB.ServerStages

/-!
# What malformed requests and foreign memory can do

Two comparisons of runs. Deleting the malformed requests of a run should
change nothing, and so should the memory behind the received strings. Both
hold under an exact condition on the requests: the first on what the
allocations of a malformed request contain, the second on the size field.
-/

namespace CapsuleDB.ServerIsolation

open EnclaveMemTable EnclaveKvs EnclaveKvsRun FifoStage NetMessages ServerStages

section Malformed

/-- A request that carries no complete read or write. -/
def malformed (parse : Bytes → Option NetCommand) (ctx : RequestContext) : Bool :=
  match parse (ctx.originalBody.read ctx.sz) with
  | none => true
  | some nc => decide (nc.type ≠ 0 ∧ nc.type ≠ 1 ∨ nc.type = 0 ∧ nc.ops.length = 0 ∨
      nc.type = 1 ∧ nc.ops.length < 2)

/-- No malformed request that is reached gets a reply, calls the store or stops
the stages, and deleting all of them leaves every outcome as it is. -/
structure MalformedInert (parse : Bytes → Option NetCommand) (st : MemtableState)
    (rs : List RequestContext) : Prop where
  /-- The iteration of a malformed request passes nothing on and records no call. -/
  silent : ∀ earlier r later s' replies, rs = earlier ++ r :: later → malformed parse r = true →
    (enclaveStages parse).run (enclaveStart st) earlier = .ok (s', replies) →
      ∃ s'', enclaveStages parse s' r = .ok (s'', none) ∧ s''.2.1.calls = s'.2.1.calls
  /-- At every moment, the outcome is that of the other requests alone. -/
  deleted : ∀ sofar, sofar <+: rs →
    (enclaveStages parse).run (enclaveStart st) (sofar.filter fun r => !malformed parse r) =
      (enclaveStages parse).run (enclaveStart st) sofar

/-- What the allocations of a malformed request contain lets the stages drop it:
the body pointer is null where it is freed, and the type is no command where it
is left unset. -/
def Droppable (parse : Bytes → Option NetCommand) (ctx : RequestContext) : Prop :=
  match parse (ctx.originalBody.read ctx.sz) with
  | none => free ctx.body = .ok ()
  | some _ => ctx.cmdFound ≠ cmdRead ∧ ctx.cmdFound ≠ cmdWrite

/-- The type of a malformed command is left as found. -/
theorem buildCmd_of_malformed {found : UInt32} {nc : NetCommand}
    (h : nc.type ≠ 0 ∧ nc.type ≠ 1 ∨ nc.type = 0 ∧ nc.ops.length = 0 ∨
      nc.type = 1 ∧ nc.ops.length < 2) : buildCmd found nc = ⟨found, [], []⟩ := by
  have hread : ¬ (nc.type = 0 ∧ 1 ≤ nc.ops.length) := by
    rintro ⟨htype, hlen⟩
    rcases h with ⟨hne, _⟩ | ⟨_, hnil⟩ | ⟨hone, _⟩
    · exact hne htype
    · omega
    · rw [htype] at hone
      exact absurd hone (by decide)
  have hwrite : ¬ (nc.type = 1 ∧ 2 ≤ nc.ops.length) := by
    rintro ⟨htype, hlen⟩
    rcases h with ⟨_, hne⟩ | ⟨hzero, _⟩ | ⟨_, hshort⟩
    · exact hne htype
    · rw [htype] at hzero
      exact absurd hzero (by decide)
    · omega
  rw [buildCmd, if_neg hread, if_neg hwrite]

/-- A command is passed over in silence exactly when its type is no command. -/
theorem answer_silent_iff {st : MemtableState} {c : Cmd} :
    answer st c = .ok (st, none) ↔ c.type ≠ cmdRead ∧ c.type ≠ cmdWrite := by
  unfold answer
  by_cases hread : c.type = cmdRead
  · rw [if_pos hread]
    refine iff_of_false ?_ fun h => h.1 hread
    cases st.kvs.get c.op0 [] <;> simp [Except.map]
  · by_cases hwrite : c.type = cmdWrite
    · rw [if_neg hread, if_pos hwrite]
      refine iff_of_false ?_ fun h => h.2 hwrite
      cases st.kvs.put c.op0 c.op1 <;> simp [Except.map]
    · rw [if_neg hread, if_neg hwrite]
      exact iff_of_true rfl ⟨hread, hwrite⟩

/-- Inside the enclave nothing is passed on exactly when the answer is silent. -/
theorem enclaveStages_silent_iff {parse : Bytes → Option NetCommand} {st : MemtableState}
    {ctx : RequestContext} {nc : NetCommand}
    (h : parse (ctx.originalBody.read ctx.sz) = some nc) :
    enclaveStages parse (enclaveStart st) ctx = .ok (enclaveStart st, none) ↔
      answer st (buildCmd ctx.cmdFound nc) = .ok (st, none) := by
  rw [enclaveStages_of_parse h]
  cases answer st (buildCmd ctx.cmdFound nc) with
  | error e => simp
  | ok r =>
    obtain ⟨st', cr⟩ := r
    cases cr with
    | none => simp [enclaveStart]
    | some cr =>
      dsimp only
      cases ctx.originalBody.write (respStr cr) <;> simp [Except.map]

/-- A malformed request is dropped exactly when its allocations allow it. -/
theorem enclaveStages_drop_iff {parse : Bytes → Option NetCommand} (st : MemtableState)
    {ctx : RequestContext} (h : malformed parse ctx = true) :
    enclaveStages parse (enclaveStart st) ctx = .ok (enclaveStart st, none) ↔
      Droppable parse ctx := by
  unfold malformed at h
  unfold Droppable
  cases hparse : parse (ctx.originalBody.read ctx.sz) with
  | none =>
    rw [enclaveStages_of_no_parse hparse]
    cases free ctx.body <;> simp [Except.map]
  | some nc =>
    rw [hparse] at h
    rw [enclaveStages_silent_iff hparse, buildCmd_of_malformed (of_decide_eq_true h),
      answer_silent_iff]

/-- Malformed requests are inert exactly when every one that is reached can be
dropped. -/
theorem malformed_inert_iff (parse : Bytes → Option NetCommand) (st : MemtableState)
    (rs : List RequestContext) :
    MalformedInert parse st rs ↔
      ∀ earlier r later s' replies, rs = earlier ++ r :: later → malformed parse r = true →
        (enclaveStages parse).run (enclaveStart st) earlier = .ok (s', replies) →
          Droppable parse r := by
  have hfilter : (∀ sofar, sofar <+: rs →
      (enclaveStages parse).run (enclaveStart st) (sofar.filter fun r => !malformed parse r) =
        (enclaveStages parse).run (enclaveStart st) sofar) ↔
      ∀ earlier r later s' replies, rs = earlier ++ r :: later → (!malformed parse r) = false →
        (enclaveStages parse).run (enclaveStart st) earlier = .ok (s', replies) →
          enclaveStages parse s' r = .ok (s', none) := Stage.run_filter_iff
  constructor
  · intro hinert earlier r later s' replies hsplit hmal hrun
    have hdrop := hfilter.mp hinert.deleted earlier r later s' replies hsplit (by simp [hmal]) hrun
    exact (enclaveStages_drop_iff s'.2.1 hmal).mp hdrop
  · intro hall
    have hdrop : ∀ earlier r later s' replies, rs = earlier ++ r :: later →
        malformed parse r = true →
        (enclaveStages parse).run (enclaveStart st) earlier = .ok (s', replies) →
          enclaveStages parse s' r = .ok (s', none) := by
      intro earlier r later s' replies hsplit hmal hrun
      exact (enclaveStages_drop_iff s'.2.1 hmal).mpr
        (hall earlier r later s' replies hsplit hmal hrun)
    constructor
    · intro earlier r later s' replies hsplit hmal hrun
      exact ⟨s', hdrop earlier r later s' replies hsplit hmal hrun, rfl⟩
    · refine hfilter.mpr fun earlier r later s' replies hsplit hkeep hrun => ?_
      exact hdrop earlier r later s' replies hsplit (by simpa using hkeep) hrun

/-- A command without operands, in a context whose command finds a zero. -/
def emptyRead : RequestContext :=
  ⟨List.replicate 16 0, 0, ⟨20, []⟩, .pointer 0, 0, 0, cmdRead⟩

/-- Malformed requests are not always inert: the empty command is answered. -/
theorem empty_command_answered :
    ¬ ∀ (cfg : Config) (rs : List RequestContext),
      MalformedInert NetCommand.parseFromString (memtableStart cfg (some false)) rs := by
  intro hall
  have hinert := hall ⟨0, 0, 1⟩ [emptyRead]
  obtain ⟨s'', hstep, _⟩ := hinert.silent [] emptyRead [] _ [] rfl (by decide) rfl
  have hanswered : (enclaveStages NetCommand.parseFromString
      (enclaveStart (memtableStart ⟨0, 0, 1⟩ (some false))) emptyRead).map
        (fun r => r.2.isSome) = .ok true := by rfl
  rw [hstep] at hanswered
  cases hanswered

end Malformed

section Memory

/-- Two arrivals of one datagram, differing at most in the memory behind the
strings parsed from it. -/
def SameDatagram (a a' : Arrival) : Prop :=
  a'.bytes = a.bytes ∧ a'.ctxBody = a.ctxBody ∧ a'.cmdFound = a.cmdFound

/-- The request bytes handed to the enclave. -/
def requestBytes (cfg : Config) (parse : Bytes → Option NetRequest) (as : List Arrival) :
    Except Fault (List Bytes) :=
  ((initNetRx cfg parse).run () as).map fun r =>
    r.2.map fun ctx => ctx.originalBody.read ctx.sz

/-- The final contents of the store and the replies. -/
def outcome (cfg : Config) (parseRequest : Bytes → Option NetRequest)
    (parseCommand : Bytes → Option NetCommand) (st : MemtableState) (as : List Arrival) :
    Except Fault (KVStore 2 × List Reply) :=
  ((serve cfg parseRequest parseCommand).run (serveStart st) as).map fun r =>
    (r.1.2.1.2.1.kvs, r.2)

/-- Whatever lies behind the parsed strings, the enclave receives the same
request bytes, ends with the same contents and sends the same replies. -/
def MemoryIndependent (cfg : Config) (parseRequest : Bytes → Option NetRequest)
    (parseCommand : Bytes → Option NetCommand) (st : MemtableState) (as : List Arrival) : Prop :=
  ∀ as' as'', List.Forall₂ SameDatagram as as' → List.Forall₂ SameDatagram as as'' →
    requestBytes cfg parseRequest as' = requestBytes cfg parseRequest as'' ∧
      outcome cfg parseRequest parseCommand st as' = outcome cfg parseRequest parseCommand st as''

/-- The copy of a request stays within its body and the terminator. -/
def CopiesBody (cfg : Config) (parse : Bytes → Option NetRequest) (a : Arrival) : Prop :=
  ∀ req, parse (received cfg a.bytes) = some req → req.sz.toNat ≤ req.body.length+1

/-- The request bytes of one arrival. -/
def requestOf (cfg : Config) (parse : Bytes → Option NetRequest) (a : Arrival) : Option Bytes :=
  (parse (received cfg a.bytes)).map fun req => readCStr req.body a.afterBody req.sz.toNat

/-- The request bytes handed to the enclave are those of the arrivals. -/
theorem requestBytes_eq (cfg : Config) (parse : Bytes → Option NetRequest) (as : List Arrival) :
    requestBytes cfg parse as = .ok (as.filterMap (requestOf cfg parse)) := by
  unfold requestBytes
  induction as with
  | nil => rfl
  | cons a as ih =>
    rw [Stage.run_cons_ok (initNetRx_eq cfg parse a)]
    cases hrun : (initNetRx cfg parse).run () as with
    | error e => rw [hrun] at ih; cases ih
    | ok r =>
      rw [hrun] at ih
      simp only [Except.map, Except.ok.injEq] at ih ⊢
      rw [List.map_append, ih]
      cases hparse : parse (received cfg a.bytes) with
      | none =>
        rw [List.filterMap_cons_none (by rw [requestOf, hparse, Option.map_none])]
        rfl
      | some req =>
        rw [List.filterMap_cons_some (by rw [requestOf, hparse, Option.map_some])]
        simp only [Option.map_some, Option.toList_some, List.map_cons, List.map_nil,
          read_requestContext, List.singleton_append]

/-- Arrivals of one datagram that copy within the body hand on the same request. -/
theorem requestOf_congr {cfg : Config} {parse : Bytes → Option NetRequest} {a a' : Arrival}
    (hcopy : CopiesBody cfg parse a) (h : SameDatagram a a') :
    requestOf cfg parse a' = requestOf cfg parse a := by
  rw [requestOf, requestOf, h.1]
  cases hparse : parse (received cfg a.bytes) with
  | none => rfl
  | some req =>
    rw [Option.map_some, Option.map_some, readCStr_of_le (hcopy req hparse),
      readCStr_of_le (hcopy req hparse)]

/-- The server does not tell such arrivals apart. -/
theorem serve_congr {cfg : Config} {parseRequest : Bytes → Option NetRequest}
    {parseCommand : Bytes → Option NetCommand} {a a' : Arrival}
    (hcopy : CopiesBody cfg parseRequest a) (h : SameDatagram a a') (st : MemtableState) :
    serve cfg parseRequest parseCommand (serveStart st) a' =
      serve cfg parseRequest parseCommand (serveStart st) a := by
  obtain ⟨hbytes, hbody, hfound⟩ := h
  cases hparse : parseRequest (received cfg a.bytes) with
  | none => rw [serve_of_no_request hparse, serve_of_no_request (by rwa [hbytes])]
  | some req =>
    have hparse' : parseRequest (received cfg a'.bytes) = some req := by rwa [hbytes]
    have hcopies := hcopy req hparse
    cases hcmd : parseCommand (readCStr req.body a.afterBody req.sz.toNat) with
    | none =>
      have hcmd' : parseCommand (readCStr req.body a'.afterBody req.sz.toNat) = none := by
        rwa [readCStr_of_le hcopies] at hcmd ⊢
      rw [serve_of_no_command hparse hcmd, serve_of_no_command hparse' hcmd', hbody]
    | some nc =>
      have hcmd' : parseCommand (readCStr req.body a'.afterBody req.sz.toNat) = some nc := by
        rwa [readCStr_of_le hcopies] at hcmd ⊢
      rw [serve_of_command hparse hcmd, serve_of_command hparse' hcmd', hfound]

/-- A copy that goes on behind the terminator shows the memory there. -/
theorem after_zero_of_readCStr_eq {s : Bytes} {count : ℕ} {after after' : ℕ → UInt8}
    (hcount : s.length+1 < count) (h : readCStr s after count = readCStr s after' count) :
    after 0 = after' 0 := by
  have hmaps : (List.range (count-(s.length+1))).map after =
      (List.range (count-(s.length+1))).map after' := List.append_cancel_left h
  obtain ⟨k, hk⟩ : ∃ k, count-(s.length+1) = k+1 := ⟨count-(s.length+1)-1, by omega⟩
  rw [hk, List.range_succ_eq_map, List.map_cons, List.map_cons] at hmaps
  exact (List.cons.inj hmaps).1

/-- Partial functions that are defined on the same items and give the same list
agree on all items. -/
theorem eq_of_filterMap_eq {α β : Type*} {f g : α → Option β} {as : List α}
    (hdef : ∀ a, (f a).isSome = (g a).isSome) (h : as.filterMap f = as.filterMap g) :
    ∀ a ∈ as, f a = g a := by
  induction as with
  | nil => intro a ha; cases ha
  | cons b as ih =>
    have hb := hdef b
    cases hf : f b with
    | none =>
      rw [hf] at hb
      have hg : g b = none := by simpa using hb.symm
      rw [List.filterMap_cons_none hf, List.filterMap_cons_none hg] at h
      exact List.forall_mem_cons.mpr ⟨hf.trans hg.symm, ih h⟩
    | some u =>
      rw [hf] at hb
      obtain ⟨v, hg⟩ := Option.isSome_iff_exists.mp hb.symm
      rw [List.filterMap_cons_some hf, List.filterMap_cons_some hg] at h
      obtain ⟨huv, htail⟩ := List.cons.inj h
      exact List.forall_mem_cons.mpr ⟨by rw [hf, hg, huv], ih htail⟩

/-- A partial function that does not tell related items apart gives the same list. -/
theorem filterMap_congr {α β : Type*} {R : α → α → Prop} {f : α → Option β}
    (hR : ∀ a a', R a a' → f a = f a') {as as' : List α} (h : List.Forall₂ R as as') :
    as.filterMap f = as'.filterMap f := by
  induction h with
  | nil => rfl
  | cons ha _ ih => rw [List.filterMap_cons, List.filterMap_cons, hR _ _ ha, ih]

/-- The datagrams of a run, arriving over memory filled with one byte. -/
def overMemory (b : UInt8) (a : Arrival) : Arrival := { a with afterBody := fun _ => b }

/-- A run is independent of the memory behind the parsed strings exactly when
every request of it copies at most its body and the terminator. -/
theorem memory_independent_iff (cfg : Config) (parseRequest : Bytes → Option NetRequest)
    (parseCommand : Bytes → Option NetCommand) (st : MemtableState) (as : List Arrival) :
    MemoryIndependent cfg parseRequest parseCommand st as ↔
      ∀ a ∈ as, CopiesBody cfg parseRequest a := by
  constructor
  · intro hind a ha req hreq
    by_contra hlong
    have hsame : ∀ b, List.Forall₂ SameDatagram as (as.map (overMemory b)) := by
      intro b
      rw [List.forall₂_map_right_iff]
      exact List.forall₂_same.mpr fun a _ => ⟨rfl, rfl, rfl⟩
    have hbytes := (hind _ _ (hsame 0) (hsame 1)).1
    rw [requestBytes_eq, requestBytes_eq, List.filterMap_map, List.filterMap_map] at hbytes
    have heq := eq_of_filterMap_eq (fun a => by simp [requestOf, overMemory])
      (Except.ok.inj hbytes) a ha
    simp only [Function.comp_apply, requestOf, overMemory, hreq, Option.map_some,
      Option.some.injEq] at heq
    exact absurd (after_zero_of_readCStr_eq (by omega) heq) (by decide)
  · intro hcopy
    have hcanon : ∀ as', List.Forall₂ SameDatagram as as' →
        requestBytes cfg parseRequest as' = requestBytes cfg parseRequest as ∧
          outcome cfg parseRequest parseCommand st as' =
            outcome cfg parseRequest parseCommand st as := by
      intro as' hsame
      have hpairs := (List.forall₂_and_left as as').mpr ⟨hcopy, hsame⟩
      constructor
      · rw [requestBytes_eq, requestBytes_eq,
          filterMap_congr (fun _ _ h => (requestOf_congr h.1 h.2).symm) hpairs]
      · rw [outcome, outcome, Stage.run_congr (R := fun a a' => CopiesBody cfg parseRequest a ∧
          SameDatagram a a') (fun a a' h s => (serve_congr h.1 h.2 s.2.1.2.1).symm) hpairs]
    intro as' as'' h' h''
    obtain ⟨hbytes', hout'⟩ := hcanon as' h'
    obtain ⟨hbytes'', hout''⟩ := hcanon as'' h''
    exact ⟨hbytes'.trans hbytes''.symm, hout'.trans hout''.symm⟩

/-- A request of five bytes whose body is empty. -/
def longSize (b : UInt8) : Arrival :=
  ⟨(NetRequest.mk [] 0 5 [] 0).serializeAsString, fun _ => b, fun _ => 0, 0, 0⟩

/-- Runs are not always independent of foreign memory: a size of five copies
four bytes from behind an empty body. -/
theorem foreign_bytes_copied :
    ¬ ∀ (cfg : Config) (as : List Arrival),
      MemoryIndependent cfg NetRequest.parseFromString NetCommand.parseFromString
        (memtableStart cfg (some false)) as := by
  intro hall
  have hsame : ∀ b, List.Forall₂ SameDatagram [longSize 0] [longSize b] :=
    fun b => .cons ⟨rfl, rfl, rfl⟩ .nil
  have hbytes := (hall ⟨100, 1000, 1⟩ [longSize 0] _ _ (hsame 0) (hsame 1)).1
  rw [show requestBytes ⟨100, 1000, 1⟩ NetRequest.parseFromString [longSize 0] =
    .ok [[0, 0, 0, 0, 0]] from rfl] at hbytes
  rw [show requestBytes ⟨100, 1000, 1⟩ NetRequest.parseFromString [longSize 1] =
    .ok [[0, 1, 1, 1, 1]] from rfl] at hbytes
  cases hbytes

end Memory

end CapsuleDB.ServerIsolation

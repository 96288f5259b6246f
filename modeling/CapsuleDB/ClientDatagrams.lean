import Mathlib.Algebra.Order.BigOperators.Group.List
import CapsuleDB.ClientThreads

/-!
# The datagrams between client and server

Both sides receive into a buffer of the largest key and the largest value plus
a hundred bytes, and silently lose what lies behind. The wire format adds less
than that to a command, and a reply is a number in front of a status word or a
value. The number is written by one program and read by the other.
-/

namespace CapsuleDB.ClientDatagrams

open EnclaveMemTable FifoStage NetMessages DecimalPrefix ServerStages
open ClientThreads (Answer Endpoint System netRequest reply uidOf uidOf_reply)

/-- A command with a key and a value within the limits. -/
inductive LegalCommand (cfg : Config) : NetCommand → Prop
  | read {key : Bytes} (hkey : key.length ≤ cfg.keyMaxsize.toNat) : LegalCommand cfg ⟨0, [key]⟩
  | write {key value : Bytes} (hkey : key.length ≤ cfg.keyMaxsize.toNat)
      (hvalue : value.length ≤ cfg.valMaxsize.toNat) : LegalCommand cfg ⟨1, [key, value]⟩

/-- A result whose reply is a status word or a value within the limit. -/
def LegalResult (cfg : Config) (cr : CmdResult) : Prop :=
  cr.status = .readPass → cr.result.length ≤ cfg.valMaxsize.toNat

/-- A datagram within the size of the buffers, received as it was sent. -/
def FitsBuffer (cfg : Config) (d : Bytes) : Prop :=
  d.length ≤ cfg.keyMaxsize.toNat+cfg.valMaxsize.toNat+100 ∧ received cfg d = d

/-- Receiving loses nothing of a datagram that is short enough. -/
theorem fitsBuffer_of_le {cfg : Config} (hcfg : cfg.Fits) {d : Bytes}
    (h : d.length ≤ cfg.keyMaxsize.toNat+cfg.valMaxsize.toNat+100) : FitsBuffer cfg d :=
  ⟨h, by rw [received, toNat_maxSz hcfg, List.take_of_length_le h]⟩

/-- The type of a legal command is a small number. -/
theorem LegalCommand.type_small {cfg : Config} {nc : NetCommand} (h : LegalCommand cfg nc) :
    0 ≤ nc.type.toInt ∧ nc.type.toInt < 128 := by
  cases h with
  | read _ =>
    show (0 : ℤ) ≤ (0 : Int32).toInt ∧ (0 : Int32).toInt < 128
    decide
  | write _ _ =>
    show (0 : ℤ) ≤ (1 : Int32).toInt ∧ (1 : Int32).toInt < 128
    decide

/-- The operands of a legal command with a tag and a length each. -/
theorem LegalCommand.ops_le {cfg : Config} {nc : NetCommand} (h : LegalCommand cfg nc) :
    (nc.ops.map fun s => s.length+11).sum ≤
      cfg.keyMaxsize.toNat+cfg.valMaxsize.toNat+22 := by
  cases h with
  | read hkey =>
    simp only [List.map_cons, List.map_nil, List.sum_cons, List.sum_nil]
    omega
  | write hkey hvalue =>
    simp only [List.map_cons, List.map_nil, List.sum_cons, List.sum_nil]
    omega

/-- The length of a written legal command. -/
theorem LegalCommand.length_le {cfg : Config} (hcfg : cfg.Fits) {nc : NetCommand}
    (h : LegalCommand cfg nc) :
    nc.serializeAsString.length ≤ cfg.keyMaxsize.toNat+cfg.valMaxsize.toNat+24 := by
  have hops := h.ops_le
  have hbound : ∀ s ∈ nc.ops, s.length < 2 ^ 64 := by
    intro s hs
    have hle : s.length+11 ≤ (nc.ops.map fun s => s.length+11).sum :=
      List.single_le_sum (fun _ _ => Nat.zero_le _) _ (List.mem_map_of_mem hs)
    unfold Config.Fits at hcfg
    omega
  have hlen := NetCommand.length_serializeAsString_le h.type_small.1 h.type_small.2 hbound
  omega

/-- The length of a written request. -/
theorem length_netRequest_le {cfg : Config} (hcfg : cfg.Fits) {nc : NetCommand}
    (h : LegalCommand cfg nc) {me : Endpoint} (haddr : me.addr.length = 16) (uid : UInt64)
    (callback : ℕ) :
    (netRequest me uid ⟨nc.serializeAsString, callback⟩).serializeAsString.length ≤
      cfg.keyMaxsize.toNat+cfg.valMaxsize.toNat+100 := by
  have hbody := h.length_le hcfg
  have hport : me.port.toUInt32.toNat < 2 ^ 16 := by
    rw [UInt16.toNat_toUInt32]
    exact me.port.toNat_lt
  unfold Config.Fits at hcfg
  have hlen : (netRequest me uid ⟨nc.serializeAsString, callback⟩).serializeAsString.length ≤
      me.addr.length+nc.serializeAsString.length+39 := by
    refine NetRequest.length_serializeAsString_le ?_ hport ?_
    · show me.addr.length < 128
      omega
    · show nc.serializeAsString.length < 2 ^ 64
      omega
  omega

/-- The two threads that turn a result into a datagram: the output stage of the
enclave and the sender. -/
def replyStages : Stage Fault (Unit × Unit) RequestContext Reply :=
  enclaveOutputStage.comp ServerStages.initNetTx

/-- A reply is the number of its request in front of the text of its result. -/
theorem payload_of_result {ctx : RequestContext} {cr : CmdResult} (hbody : ctx.body = .result cr)
    {st : Unit × Unit} {r : Reply} (h : replyStages ((), ()) ctx = .ok (st, some r)) :
    r.payload = reply ctx.clientSeqno (respStr cr) := by
  simp only [replyStages, Stage.comp, enclaveOutputStage_eq hbody] at h
  cases hwrite : ctx.originalBody.write (respStr cr) with
  | error e =>
    rw [hwrite] at h
    cases h
  | ok buffer =>
    rw [hwrite] at h
    cases h
    dsimp only
    rw [Buffer.read_write hwrite]
    rfl

/-- The text of a legal result. -/
theorem LegalResult.length_le {cfg : Config} {cr : CmdResult} (h : LegalResult cfg cr) :
    (respStr cr).length ≤ cfg.valMaxsize.toNat+10 := by
  by_cases hpass : cr.status = .readPass
  · have hvalue := h hpass
    have htext : respStr cr = cr.result := by
      unfold respStr
      rw [hpass]
      rfl
    rw [htext]
    omega
  · have hword := length_respStr_le hpass
    omega

/-- The length of a reply. -/
theorem length_reply_le (uid : UInt64) (rest : Bytes) :
    (reply uid rest).length ≤ rest.length+21 := by
  have hdigits : (decimal uid.toNat).length ≤ 20 :=
    length_decimal_le (by omega) (uid.toNat_lt.trans (by norm_num))
  have hbar : (ascii "|").length = 1 := rfl
  rw [reply, List.length_append, List.length_append, hbar]
  omega

/-- The request for a legal command fits the buffer of the server, and the
reply with a status word or a legal value fits the buffer of the client. -/
theorem legal_datagrams_fit {cfg : Config} (hcfg : cfg.Fits) {nc : NetCommand}
    (hnc : LegalCommand cfg nc) {me : Endpoint} (haddr : me.addr.length = 16) (uid : UInt64)
    (callback : ℕ) :
    FitsBuffer cfg (netRequest me uid ⟨nc.serializeAsString, callback⟩).serializeAsString ∧
      ∀ ctx cr, ctx.body = .result cr → LegalResult cfg cr →
        ∀ st r, replyStages ((), ()) ctx = .ok (st, some r) → FitsBuffer cfg r.payload := by
  refine ⟨fitsBuffer_of_le hcfg (length_netRequest_le hcfg hnc haddr uid callback), ?_⟩
  intro ctx cr hbody hlegal st r hr
  have htext := hlegal.length_le
  have hlen := length_reply_le ctx.clientSeqno (respStr cr)
  rw [payload_of_result hbody hr]
  exact fitsBuffer_of_le hcfg (by omega)

/-- The request for a write of the longest value, and the reply to it. -/
theorem legal_datagrams_fit_write :
    FitsBuffer hostConfig (netRequest ⟨List.replicate 16 0, 5000⟩ 7
        ⟨(NetCommand.mk 1 [[1], List.replicate 1000 0]).serializeAsString, 0⟩).serializeAsString ∧
      ∃ st r, replyStages ((), ()) ⟨[], 5000, ⟨1110, []⟩, .result ⟨.writePass, []⟩, 1007, 7, 0⟩ =
        .ok (st, some r) ∧ FitsBuffer hostConfig r.payload := by
  have hvalue : (List.replicate 1000 (0 : UInt8)).length ≤ hostConfig.valMaxsize.toNat := by
    rw [List.length_replicate]
    decide
  have hkey : ([1] : Bytes).length ≤ hostConfig.keyMaxsize.toNat := by decide
  have haddr : (Endpoint.mk (List.replicate 16 0) 5000).addr.length = 16 := by decide
  have hfit := legal_datagrams_fit hostConfig_fits (.write hkey hvalue) haddr 7 0
  have hr : replyStages ((), ())
      ⟨[], 5000, ⟨1110, []⟩, .result ⟨.writePass, []⟩, 1007, 7, 0⟩ = .ok (((), ()), some _) := rfl
  exact ⟨hfit.1, _, _, hr, hfit.2 _ _ rfl (fun h => KVStatus.noConfusion h) _ _ hr⟩

/-- The number at the front of a datagram of the sender is read back, whatever
follows it and whatever an earlier datagram left behind in the buffer. -/
theorem uidOf_payload {ctx : RequestContext} (h : ctx.clientSeqno.toNat < 2 ^ 63) {r : Reply}
    (hr : ServerStages.initNetTx () ctx = .ok ((), some r)) (behind : Bytes) :
    uidOf (r.payload ++ behind) = ctx.clientSeqno := by
  cases hr
  exact uidOf_reply h (ctx.originalBody.read ctx.sz) behind

/-- The client reads the number of a request back from the reply to it, and
looks up the callback stored under it; so replies under different numbers never
look up the same entry. -/
theorem reply_number_round_trips {ctx : RequestContext} (h : ctx.clientSeqno.toNat < 2 ^ 63)
    {r : Reply} (hr : ServerStages.initNetTx () ctx = .ok ((), some r)) :
    (∀ behind, uidOf (r.payload ++ behind) = ctx.clientSeqno) ∧
      (∀ (cfg : Config) (s t : System) (a : Answer) (behind : Bytes), s.rx = .received a →
        s.msgBuff = r.payload ++ behind → ClientThreads.initNetRx cfg s = some t →
        t.rx = if (s.callbackMap ctx.clientSeqno).isSome then .found ctx.clientSeqno a
          else .listening) ∧
      ∀ ctx' r', ctx'.clientSeqno.toNat < 2 ^ 63 →
        ServerStages.initNetTx () ctx' = .ok ((), some r') →
        ctx.clientSeqno ≠ ctx'.clientSeqno →
        ∀ behind behind', uidOf (r.payload ++ behind) ≠ uidOf (r'.payload ++ behind') := by
  refine ⟨uidOf_payload h hr, ?_, ?_⟩
  · intro cfg s t a behind hrx hbuff hstep
    have huid : uidOf s.msgBuff = ctx.clientSeqno := by rw [hbuff, uidOf_payload h hr]
    simp only [ClientThreads.initNetRx, hrx, huid] at hstep
    cases hentry : s.callbackMap ctx.clientSeqno with
    | none =>
      rw [hentry] at hstep
      cases hstep
      rfl
    | some callback =>
      rw [hentry] at hstep
      cases hstep
      rfl
  · intro ctx' r' h' hr' hne behind behind' heq
    rw [uidOf_payload h hr, uidOf_payload h' hr'] at heq
    exact hne heq

/-- A reply whose text starts with a digit, in front of the rest of a longer one. -/
theorem reply_number_round_trips_digits :
    let ctx : RequestContext := ⟨[], 0, ⟨2, ascii "5|"⟩, .pointer 0, 2, 12, 0⟩
    ∃ r, ServerStages.initNetTx () ctx = .ok ((), some r) ∧ r.payload = ascii "12|5|" ∧
      uidOf (r.payload ++ ascii "34") = 12 := by
  intro ctx
  have hr : ServerStages.initNetTx () ctx = .ok ((), some _) := rfl
  have hpayload : decimal 12 ++ ascii "|" ++ ascii "5|" = ascii "12|5|" := by decide
  exact ⟨_, hr, hpayload, (reply_number_round_trips (by decide) hr).1 (ascii "34")⟩

end CapsuleDB.ClientDatagrams

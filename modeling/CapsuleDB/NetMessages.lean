import Mathlib.Data.UInt
import CapsuleDB.ProtoWire

/-!
# The request messages

The two messages of the request protocol, read from and written to the wire
format. A singular field keeps its last occurrence and a default value is not
written; a field with an unexpected wire type is unknown and skipped.
-/

namespace CapsuleDB.NetMessages

open ProtoWire

/-- `message NetRequest`. -/
structure NetRequest where
  /-- Where the reply goes, as text. -/
  replyaddr : List UInt8
  /-- The port of the reply. -/
  replyport : UInt32
  /-- The size the sender gives for the body. -/
  sz : UInt64
  /-- A serialized command. -/
  body : List UInt8
  /-- The number the reply is tagged with. -/
  clientSeqno : UInt64
  deriving DecidableEq

/-- `message NetCommand`. -/
structure NetCommand where
  /-- Zero for a read and one for a write. -/
  type : Int32
  /-- The key, and for a write the value. -/
  ops : List (List UInt8)
  deriving DecidableEq

/-- A varint field, absent when zero. -/
def varintField (number v : ℕ) : List Field := if v = 0 then [] else [⟨number, .varint v⟩]

/-- A bytes field, absent when empty. -/
def bytesField (number : ℕ) (s : List UInt8) : List Field :=
  if s = [] then [] else [⟨number, .bytes s⟩]

namespace NetRequest

/-- All fields at their defaults. -/
def empty : NetRequest := ⟨[], 0, 0, [], 0⟩

/-- Take over one field. -/
def merge (m : NetRequest) (f : Field) : NetRequest :=
  match f.number, f.payload with
  | 1, .bytes s => { m with replyaddr := s }
  | 2, .varint v => { m with replyport := UInt32.ofNat v }
  | 3, .varint v => { m with sz := UInt64.ofNat v }
  | 4, .bytes s => { m with body := s }
  | 5, .varint v => { m with clientSeqno := UInt64.ofNat v }
  | _, _ => m

/-- `ParseFromString`. -/
def parseFromString (s : List UInt8) : Option NetRequest :=
  (fields s).map fun fs => fs.foldl merge empty

/-- The fields written for a request. -/
def toFields (m : NetRequest) : List Field :=
  bytesField 1 m.replyaddr ++ varintField 2 m.replyport.toNat ++ varintField 3 m.sz.toNat ++
    bytesField 4 m.body ++ varintField 5 m.clientSeqno.toNat

/-- `SerializeAsString`. -/
def serializeAsString (m : NetRequest) : List UInt8 := m.toFields.flatMap Field.encode

end NetRequest

namespace NetCommand

/-- All fields at their defaults. -/
def empty : NetCommand := ⟨0, []⟩

/-- Take over one field. The type keeps the low 32 bits of its varint. -/
def merge (m : NetCommand) (f : Field) : NetCommand :=
  match f.number, f.payload with
  | 1, .varint v => { m with type := Int32.ofNat v }
  | 2, .bytes s => { m with ops := m.ops ++ [s] }
  | _, _ => m

/-- `ParseFromString`. -/
def parseFromString (s : List UInt8) : Option NetCommand :=
  (fields s).map fun fs => fs.foldl merge empty

/-- The fields written for a command. A negative type is sign-extended. -/
def toFields (m : NetCommand) : List Field :=
  varintField 1 (m.type.toInt%2 ^ 64).toNat ++ m.ops.map fun s => ⟨2, .bytes s⟩

/-- `SerializeAsString`. -/
def serializeAsString (m : NetCommand) : List UInt8 := m.toFields.flatMap Field.encode

end NetCommand

/-- A written varint field fits the format. -/
theorem fits_of_mem_varintField {number v : ℕ} (hpos : 0 < number) (hnum : number < 2 ^ 29)
    (hv : v < 2 ^ 64) {f : Field} (hf : f ∈ varintField number v) : f.Fits := by
  unfold varintField at hf
  split at hf
  · cases hf
  · rw [List.mem_singleton.mp hf]
    exact ⟨hpos, hnum, hv⟩

/-- A written bytes field fits the format. -/
theorem fits_of_mem_bytesField {number : ℕ} {s : List UInt8} (hpos : 0 < number)
    (hnum : number < 2 ^ 29) (hs : s.length < 2 ^ 31) {f : Field}
    (hf : f ∈ bytesField number s) : f.Fits := by
  unfold bytesField at hf
  split at hf
  · cases hf
  · rw [List.mem_singleton.mp hf]
    exact ⟨hpos, hnum, hs⟩

/-- The length of a written varint field. -/
theorem length_varintField_le {number v k : ℕ} (hnum : number < 16) (hk : 0 < k) (hle : k ≤ 10)
    (hv : v < 128 ^ k) : ((varintField number v).flatMap Field.encode).length ≤ k+1 := by
  unfold varintField
  split
  · exact Nat.zero_le _
  · rw [List.flatMap_singleton]
    exact length_encode_varint_le hnum hk hle hv

/-- The length of a written bytes field. -/
theorem length_bytesField_le {number k : ℕ} {s : List UInt8} (hnum : number < 16) (hk : 0 < k)
    (hle : k ≤ 10) (hs : s.length < 128 ^ k) :
    ((bytesField number s).flatMap Field.encode).length ≤ s.length+k+1 := by
  unfold bytesField
  split
  · exact Nat.zero_le _
  · rw [List.flatMap_singleton]
    exact length_encode_bytes_le hnum hk hle hs

namespace NetRequest

/-- Merging a written varint field sets it. -/
theorem foldl_varintField (m : NetRequest) (number v : ℕ) :
    (varintField number v).foldl merge m = if v = 0 then m else m.merge ⟨number, .varint v⟩ := by
  unfold varintField
  split <;> rfl

/-- Merging a written bytes field sets it. -/
theorem foldl_bytesField (m : NetRequest) (number : ℕ) (s : List UInt8) :
    (bytesField number s).foldl merge m = if s = [] then m else m.merge ⟨number, .bytes s⟩ := by
  unfold bytesField
  split <;> rfl

/-- The written fields rebuild the request. -/
theorem foldl_toFields (m : NetRequest) : m.toFields.foldl merge empty = m := by
  obtain ⟨replyaddr, replyport, sz, body, clientSeqno⟩ := m
  have hport : replyport.toNat = 0 → (0 : UInt32) = replyport := fun h =>
    UInt32.toNat_inj.mp h.symm
  have hsz : sz.toNat = 0 → (0 : UInt64) = sz := fun h => UInt64.toNat_inj.mp h.symm
  have hseq : clientSeqno.toNat = 0 → (0 : UInt64) = clientSeqno := fun h =>
    UInt64.toNat_inj.mp h.symm
  simp only [toFields, List.foldl_append, foldl_varintField, foldl_bytesField]
  split_ifs <;> simp_all [merge, empty]

/-- A request whose texts are below the size limit is read back. -/
theorem parseFromString_serializeAsString {m : NetRequest} (haddr : m.replyaddr.length < 2 ^ 31)
    (hbody : m.body.length < 2 ^ 31) : parseFromString m.serializeAsString = some m := by
  have hfits : ∀ f ∈ m.toFields, f.Fits := by
    intro f hf
    simp only [toFields, List.mem_append] at hf
    rcases hf with (((hf | hf) | hf) | hf) | hf
    · exact fits_of_mem_bytesField (by omega) (by omega) haddr hf
    · exact fits_of_mem_varintField (by omega) (by omega)
        (m.replyport.toNat_lt.trans (by norm_num)) hf
    · exact fits_of_mem_varintField (by omega) (by omega) m.sz.toNat_lt hf
    · exact fits_of_mem_bytesField (by omega) (by omega) hbody hf
    · exact fits_of_mem_varintField (by omega) (by omega) m.clientSeqno.toNat_lt hf
  rw [parseFromString, serializeAsString, fields_flatMap_encode hfits, Option.map_some,
    foldl_toFields]

/-- What a request adds to its address and its body: five tags, and the lengths
and the numbers as varints. -/
theorem length_serializeAsString_le {m : NetRequest} (haddr : m.replyaddr.length < 128)
    (hport : m.replyport.toNat < 2 ^ 16) (hbody : m.body.length < 2 ^ 64) :
    m.serializeAsString.length ≤ m.replyaddr.length+m.body.length+39 := by
  have hword : ∀ {v : ℕ}, v < 2 ^ 64 → v < 128 ^ 10 := fun h => h.trans (by norm_num)
  have h1 : ((bytesField 1 m.replyaddr).flatMap Field.encode).length ≤
      m.replyaddr.length+1+1 := length_bytesField_le (by omega) (by omega) (by omega) haddr
  have h2 : ((varintField 2 m.replyport.toNat).flatMap Field.encode).length ≤ 3+1 :=
    length_varintField_le (by omega) (by omega) (by omega) (hport.trans (by norm_num))
  have h3 : ((varintField 3 m.sz.toNat).flatMap Field.encode).length ≤ 10+1 :=
    length_varintField_le (by omega) (by omega) (by omega) (hword m.sz.toNat_lt)
  have h4 : ((bytesField 4 m.body).flatMap Field.encode).length ≤ m.body.length+10+1 :=
    length_bytesField_le (by omega) (by omega) (by omega) (hword hbody)
  have h5 : ((varintField 5 m.clientSeqno.toNat).flatMap Field.encode).length ≤ 10+1 :=
    length_varintField_le (by omega) (by omega) (by omega) (hword m.clientSeqno.toNat_lt)
  simp only [serializeAsString, toFields, List.flatMap_append, List.length_append]
  omega

end NetRequest

namespace NetCommand

/-- The low bits of a sign-extended type are the type. -/
theorem ofNat_signExtended (t : Int32) : Int32.ofNat (t.toInt%2 ^ 64).toNat = t := by
  rw [← Int32.ofInt_eq_ofNat, Int.toNat_of_nonneg (by omega)]
  refine Int32.toInt_inj.mp ?_
  have hlow := t.le_toInt
  have hhigh := t.toInt_lt
  rw [Int32.toInt_ofInt, Int.bmod, show Int32.size = 2 ^ 32 from rfl]
  omega

/-- Merging operands appends them. -/
theorem foldl_ops (m : NetCommand) (ops : List (List UInt8)) :
    (ops.map fun s => (⟨2, .bytes s⟩ : Field)).foldl merge m = { m with ops := m.ops ++ ops } := by
  induction ops generalizing m with
  | nil => rw [List.append_nil]; rfl
  | cons s ops ih =>
    rw [List.map_cons, List.foldl_cons, ih]
    simp only [merge, List.append_assoc, List.singleton_append]

/-- The written fields rebuild the command. -/
theorem foldl_toFields (m : NetCommand) : m.toFields.foldl merge empty = m := by
  obtain ⟨type, ops⟩ := m
  have htype := ofNat_signExtended type
  rw [toFields, List.foldl_append, foldl_ops]
  unfold varintField
  split
  · next h =>
    rw [h] at htype
    rw [← htype]
    rfl
  · simp only [List.foldl_cons, List.foldl_nil, merge, htype]
    rfl

/-- A command whose operands are below the size limit is read back. -/
theorem parseFromString_serializeAsString {m : NetCommand}
    (hops : ∀ s ∈ m.ops, s.length < 2 ^ 31) : parseFromString m.serializeAsString = some m := by
  have hfits : ∀ f ∈ m.toFields, f.Fits := by
    intro f hf
    rcases List.mem_append.mp hf with hf | hf
    · exact fits_of_mem_varintField (by omega) (by omega) (by omega) hf
    · obtain ⟨s, hs, rfl⟩ := List.mem_map.mp hf
      exact ⟨by simp only; omega, by simp only; omega, hops s hs⟩
  rw [parseFromString, serializeAsString, fields_flatMap_encode hfits, Option.map_some,
    foldl_toFields]

/-- The length of written operands. -/
theorem length_ops_le {ops : List (List UInt8)} (h : ∀ s ∈ ops, s.length < 2 ^ 64) :
    ((ops.map fun s => (⟨2, .bytes s⟩ : Field)).flatMap Field.encode).length ≤
      (ops.map fun s => s.length+11).sum := by
  induction ops with
  | nil => exact le_refl _
  | cons s ops ih =>
    have hs : (Field.encode ⟨2, .bytes s⟩).length ≤ s.length+10+1 :=
      length_encode_bytes_le (by omega) (by omega) (by omega)
        ((h s (List.mem_cons_self ..)).trans (by norm_num))
    have hrest := ih fun t ht => h t (List.mem_cons_of_mem _ ht)
    rw [List.map_cons, List.flatMap_cons, List.length_append, List.map_cons, List.sum_cons]
    omega

/-- What a command adds to its operands: a small type, and a tag and a length
for each operand. -/
theorem length_serializeAsString_le {m : NetCommand} (htype : 0 ≤ m.type.toInt)
    (hsmall : m.type.toInt < 128) (hops : ∀ s ∈ m.ops, s.length < 2 ^ 64) :
    m.serializeAsString.length ≤ (m.ops.map fun s => s.length+11).sum+2 := by
  have hfield : ((varintField 1 (m.type.toInt%2 ^ 64).toNat).flatMap Field.encode).length ≤ 1+1 :=
    length_varintField_le (by omega) (by omega) (by omega) (by omega)
  have hall := length_ops_le hops
  simp only [serializeAsString, toFields, List.flatMap_append, List.length_append]
  omega

end NetCommand

end CapsuleDB.NetMessages

import Mathlib.Data.List.Basic
import Mathlib.Tactic.NormNum

/-!
# The protobuf wire format

A message is a sequence of fields, each a number with a payload of one of four
wire types; groups are delimited by a pair of tags and their contents are not
fields of the message. Numbers are base-128 varints. Reading accepts varints
that are longer than necessary, as the format requires, and a writer emits the
shortest ones.
-/

namespace CapsuleDB.ProtoWire

/-- The payload of a field, by wire type. -/
inductive Payload
  | varint (value : ℕ)
  | fixed64 (raw : List UInt8)
  | bytes (content : List UInt8)
  | fixed32 (raw : List UInt8)
  deriving DecidableEq, Repr

/-- A field of a message. -/
structure Field where
  /-- The field number. -/
  number : ℕ
  /-- The value with its wire type. -/
  payload : Payload
  deriving DecidableEq, Repr

/-- What a tag introduces. -/
inductive Token
  | field (f : Field)
  | openGroup (number : ℕ)
  | closeGroup (number : ℕ)
  deriving DecidableEq, Repr

/-- Read a varint of at most `limit` bytes, least significant group first. -/
def readVarint : ℕ → List UInt8 → Option (ℕ × List UInt8)
  | 0, _ => none
  | _+1, [] => none
  | limit+1, b :: rest =>
    if b.toNat < 128 then some (b.toNat, rest)
    else (readVarint limit rest).map fun r => (b.toNat-128+128*r.1, r.2)

/-- Write a varint of at most `limit` bytes. -/
def varint : ℕ → ℕ → List UInt8
  | 0, _ => []
  | limit+1, v =>
    if v < 128 then [UInt8.ofNat v] else UInt8.ofNat (v%128+128) :: varint limit (v/128)

/-- Split off the first `count` bytes. -/
def readRaw (count : ℕ) (s : List UInt8) : Option (List UInt8 × List UInt8) :=
  if count ≤ s.length then some (s.take count, s.drop count) else none

/-- Read the payload of a field, or the tag of a group, by wire type. -/
def readPayload (number : ℕ) (s : List UInt8) : ℕ → Option (Token × List UInt8)
  | 0 => (readVarint 10 s).map fun r => (.field ⟨number, .varint (r.1%2 ^ 64)⟩, r.2)
  | 1 => (readRaw 8 s).map fun r => (.field ⟨number, .fixed64 r.1⟩, r.2)
  | 2 =>
    match readVarint 5 s with
    | none => none
    | some (count, rest) =>
      (readRaw count rest).map fun r => (.field ⟨number, .bytes r.1⟩, r.2)
  | 3 => some (.openGroup number, s)
  | 4 => some (.closeGroup number, s)
  | 5 => (readRaw 4 s).map fun r => (.field ⟨number, .fixed32 r.1⟩, r.2)
  | _ => none

/-- Read a tag and what it introduces. Field numbers start at one. -/
def readToken (s : List UInt8) : Option (Token × List UInt8) :=
  match readVarint 5 s with
  | none => none
  | some (tag, rest) =>
    if tag%2 ^ 32/8 = 0 then none else readPayload (tag%2 ^ 32/8) rest (tag%8)

/-- Read all fields, inside the given open groups. -/
def fieldsFrom : ℕ → List ℕ → List UInt8 → Option (List Field)
  | _, [], [] => some []
  | 0, _, _ => none
  | fuel+1, groups, s =>
    match readToken s with
    | none => none
    | some (.field f, rest) =>
      (fieldsFrom fuel groups rest).map fun fs => if groups = [] then f :: fs else fs
    | some (.openGroup number, rest) =>
      if groups.length < 100 then fieldsFrom fuel (number :: groups) rest else none
    | some (.closeGroup number, rest) =>
      match groups with
      | [] => none
      | group :: outer => if group = number then fieldsFrom fuel outer rest else none

/-- The fields of a message, in the order in which they were written. -/
def fields (s : List UInt8) : Option (List Field) := fieldsFrom s.length [] s

/-- Write the payload of a field after its tag. -/
def Field.encode (f : Field) : List UInt8 :=
  match f.payload with
  | .varint v => varint 5 (f.number*8) ++ varint 10 v
  | .fixed64 raw => varint 5 (f.number*8+1) ++ raw
  | .bytes content => varint 5 (f.number*8+2) ++ (varint 10 content.length ++ content)
  | .fixed32 raw => varint 5 (f.number*8+5) ++ raw

/-- A payload that fits its wire type. -/
def Payload.Fits : Payload → Prop
  | .varint v => v < 2 ^ 64
  | .fixed64 raw => raw.length = 8
  | .bytes content => content.length < 2 ^ 31
  | .fixed32 raw => raw.length = 4

/-- A field that the format can carry. -/
structure Field.Fits (f : Field) : Prop where
  /-- Field numbers start at one. -/
  positive : 0 < f.number
  /-- A tag has 32 bits, three of them for the wire type. -/
  bounded : f.number < 2 ^ 29
  /-- The payload fits. -/
  payload : f.payload.Fits

/-- Reading a varint consumes at least one byte. -/
theorem readVarint_length {limit v : ℕ} {s rest : List UInt8}
    (h : readVarint limit s = some (v, rest)) : rest.length < s.length := by
  induction limit generalizing s v with
  | zero => cases h
  | succ limit ih =>
    cases s with
    | nil => cases h
    | cons b s =>
      unfold readVarint at h
      split at h
      · cases h
        exact Nat.lt_succ_self _
      · obtain ⟨r, hr, heq⟩ := Option.map_eq_some_iff.mp h
        cases heq
        have hlt := ih hr
        rw [List.length_cons]
        omega

/-- Splitting off bytes lengthens nothing. -/
theorem readRaw_length {count : ℕ} {s raw rest : List UInt8}
    (h : readRaw count s = some (raw, rest)) : rest.length ≤ s.length := by
  unfold readRaw at h
  split at h
  · cases h
    rw [List.length_drop]
    omega
  · cases h

/-- Reading a payload lengthens nothing. -/
theorem readPayload_length {number wire : ℕ} {s rest : List UInt8} {t : Token}
    (h : readPayload number s wire = some (t, rest)) : rest.length ≤ s.length := by
  unfold readPayload at h
  split at h
  · obtain ⟨r, hr, heq⟩ := Option.map_eq_some_iff.mp h
    cases heq
    exact (readVarint_length hr).le
  · obtain ⟨r, hr, heq⟩ := Option.map_eq_some_iff.mp h
    cases heq
    exact readRaw_length hr
  · split at h
    · cases h
    · next hcount =>
      obtain ⟨r, hr, heq⟩ := Option.map_eq_some_iff.mp h
      cases heq
      exact (readRaw_length hr).trans (readVarint_length hcount).le
  · cases h
    exact le_refl _
  · cases h
    exact le_refl _
  · obtain ⟨r, hr, heq⟩ := Option.map_eq_some_iff.mp h
    cases heq
    exact readRaw_length hr
  · cases h

/-- Reading a token consumes at least one byte. -/
theorem readToken_length {s rest : List UInt8} {t : Token}
    (h : readToken s = some (t, rest)) : rest.length < s.length := by
  unfold readToken at h
  split at h
  · cases h
  · next htag =>
    split at h
    · cases h
    · exact (readPayload_length h).trans_lt (readVarint_length htag)

/-- Any fuel of at least the length of the input gives the same fields. -/
theorem fieldsFrom_fuel {fuel fuel' : ℕ} {groups : List ℕ} {s : List UInt8}
    (h : s.length ≤ fuel) (h' : s.length ≤ fuel') :
    fieldsFrom fuel groups s = fieldsFrom fuel' groups s := by
  induction fuel generalizing fuel' groups s with
  | zero =>
    rw [List.length_eq_zero_iff.mp (Nat.le_zero.mp h)]
    cases groups <;> cases fuel' <;> rfl
  | succ fuel ih =>
    cases fuel' with
    | zero =>
      rw [List.length_eq_zero_iff.mp (Nat.le_zero.mp h')]
      cases groups <;> rfl
    | succ fuel' =>
      have hrest : ∀ {t rest}, readToken s = some (t, rest) → ∀ groups,
          fieldsFrom fuel groups rest = fieldsFrom fuel' groups rest := by
        intro t rest ht groups
        have hlt := readToken_length ht
        exact ih (by omega) (by omega)
      cases hs : readToken s with
      | none => cases groups <;> cases s <;> simp only [fieldsFrom, hs]
      | some r =>
        obtain ⟨t, rest⟩ := r
        cases groups <;> cases s <;> cases t <;> simp only [fieldsFrom, hs, hrest hs]

/-- A varint takes no more bytes than its limit. -/
theorem length_varint_le (limit v : ℕ) : (varint limit v).length ≤ limit := by
  induction limit generalizing v with
  | zero => exact le_refl _
  | succ limit ih =>
    unfold varint
    split
    · rw [List.length_singleton]
      omega
    · rw [List.length_cons]
      exact Nat.succ_le_succ (ih (v/128))

/-- A number of more than one group leaves a number of one group less. -/
theorem next_group {v k : ℕ} (hbig : ¬ v < 128) (hv : v < 128 ^ (k+1)) :
    0 < k ∧ v/128 < 128 ^ k := by
  refine ⟨?_, Nat.div_lt_of_lt_mul (by rwa [pow_succ'] at hv)⟩
  rcases Nat.eq_zero_or_pos k with rfl | hpos
  · rw [zero_add, pow_one] at hv
    exact absurd hv hbig
  · exact hpos

/-- Where a number fits `k` bytes, a higher limit changes nothing. -/
theorem varint_eq_of_lt {k limit v : ℕ} (hk : 0 < k) (hle : k ≤ limit) (hv : v < 128 ^ k) :
    varint limit v = varint k v := by
  induction k generalizing limit v with
  | zero => omega
  | succ k ih =>
    obtain ⟨limit, rfl⟩ : ∃ l, limit = l+1 := ⟨limit-1, by omega⟩
    unfold varint
    split
    · rfl
    · next hbig =>
      obtain ⟨hk, hdiv⟩ := next_group hbig hv
      rw [ih hk (by omega) hdiv]

/-- The length of a varint follows its value. -/
theorem length_varint_le_of_lt {k limit v : ℕ} (hk : 0 < k) (hle : k ≤ limit)
    (hv : v < 128 ^ k) : (varint limit v).length ≤ k := by
  rw [varint_eq_of_lt hk hle hv]
  exact length_varint_le k v

/-- A written varint is read back. -/
theorem readVarint_varint {limit v : ℕ} (hlimit : 0 < limit) (hv : v < 128 ^ limit)
    (rest : List UInt8) : readVarint limit (varint limit v ++ rest) = some (v, rest) := by
  induction limit generalizing v with
  | zero => omega
  | succ limit ih =>
    unfold varint
    split
    · next hsmall =>
      have hbyte : (UInt8.ofNat v).toNat = v := by rw [UInt8.toNat_ofNat']; omega
      rw [List.singleton_append, readVarint, if_pos (by omega), hbyte]
    · next hbig =>
      have hbyte : (UInt8.ofNat (v%128+128)).toNat = v%128+128 := by
        rw [UInt8.toNat_ofNat']
        omega
      obtain ⟨hlimit, hdiv⟩ := next_group hbig hv
      rw [List.cons_append, readVarint, if_neg (by omega), ih hlimit hdiv, hbyte]
      have hval : v%128+128-128+128*(v/128) = v := by omega
      simp only [Option.map_some, hval]

/-- Bytes split off where they were put in front. -/
theorem readRaw_append (raw rest : List UInt8) :
    readRaw raw.length (raw ++ rest) = some (raw, rest) := by
  rw [readRaw, if_pos (by rw [List.length_append]; omega), List.take_left, List.drop_left]

/-- A written tag is read back. -/
theorem readToken_tag {number wire : ℕ} (hpos : 0 < number) (hnum : number < 2 ^ 29)
    (hwire : wire < 8) (rest : List UInt8) :
    readToken (varint 5 (number*8+wire) ++ rest) = readPayload number rest wire := by
  have hnumber : (number*8+wire)%2 ^ 32/8 = number := by omega
  have hmod : (number*8+wire)%8 = wire := by omega
  rw [readToken, readVarint_varint (by omega) (by omega)]
  simp only [hnumber, hmod]
  rw [if_neg (by omega)]

/-- A written field is read back. -/
theorem readToken_encode {f : Field} (hf : f.Fits) (rest : List UInt8) :
    readToken (f.encode ++ rest) = some (.field f, rest) := by
  obtain ⟨number, payload⟩ := f
  obtain ⟨hpos, hnum, hfits⟩ := hf
  cases payload with
  | varint v =>
    have hv : v%2 ^ 64 = v := Nat.mod_eq_of_lt hfits
    have hlt : v < 128 ^ 10 := lt_trans hfits (by norm_num)
    simp only [Field.encode, List.append_assoc]
    rw [show number*8 = number*8+0 by omega, readToken_tag hpos hnum (by omega), readPayload,
      readVarint_varint (by omega) hlt, Option.map_some, hv]
  | fixed64 raw =>
    simp only [Field.encode, List.append_assoc]
    rw [readToken_tag hpos hnum (by omega), readPayload,
      ← show raw.length = 8 from hfits, readRaw_append, Option.map_some]
  | bytes content =>
    have hlt : content.length < 128 ^ 5 := lt_trans hfits (by norm_num)
    have hcount : varint 10 content.length = varint 5 content.length :=
      varint_eq_of_lt (by omega) (by omega) hlt
    simp only [Field.encode, List.append_assoc]
    rw [readToken_tag hpos hnum (by omega), readPayload, hcount,
      readVarint_varint (by omega) hlt]
    dsimp only
    rw [readRaw_append, Option.map_some]
  | fixed32 raw =>
    simp only [Field.encode, List.append_assoc]
    rw [readToken_tag hpos hnum (by omega), readPayload,
      ← show raw.length = 4 from hfits, readRaw_append, Option.map_some]

/-- A field number below 16 takes one byte, with any wire type. -/
theorem length_tag_le {number wire : ℕ} (hnum : number < 16) (hwire : wire < 8) :
    (varint 5 (number*8+wire)).length ≤ 1 :=
  length_varint_le_of_lt (by omega) (by omega) (by omega)

/-- The length of a written number. -/
theorem length_encode_varint_le {number v k : ℕ} (hnum : number < 16) (hk : 0 < k) (hle : k ≤ 10)
    (hv : v < 128 ^ k) : (Field.encode ⟨number, .varint v⟩).length ≤ k+1 := by
  have htag : (varint 5 (number*8)).length ≤ 1 := @length_tag_le number 0 hnum (by omega)
  have hvalue := length_varint_le_of_lt hk hle hv
  simp only [Field.encode, List.length_append]
  omega

/-- The length of written bytes. -/
theorem length_encode_bytes_le {number k : ℕ} {content : List UInt8} (hnum : number < 16)
    (hk : 0 < k) (hle : k ≤ 10) (hlen : content.length < 128 ^ k) :
    (Field.encode ⟨number, .bytes content⟩).length ≤ content.length+k+1 := by
  have htag : (varint 5 (number*8+2)).length ≤ 1 := length_tag_le hnum (by omega)
  have hcount := length_varint_le_of_lt hk hle hlen
  simp only [Field.encode, List.length_append]
  omega

/-- A written field in front adds itself to the fields. -/
theorem fields_encode_append {f : Field} (hf : f.Fits) (rest : List UInt8) :
    fields (f.encode ++ rest) = (fields rest).map fun fs => f :: fs := by
  have htoken := readToken_encode hf rest
  have hlt := readToken_length htoken
  rw [fields]
  cases hs : f.encode ++ rest with
  | nil => rw [hs] at hlt; exact absurd hlt (Nat.not_lt_zero _)
  | cons b s =>
    rw [hs] at htoken hlt
    have hfuel : fieldsFrom s.length [] rest = fieldsFrom rest.length [] rest :=
      fieldsFrom_fuel (by simpa using Nat.lt_succ_iff.mp hlt) (le_refl _)
    simp only [List.length_cons, fieldsFrom, htoken, if_true]
    rw [hfuel]
    rfl

/-- A message written field by field is read back. -/
theorem fields_flatMap_encode {fs : List Field} (hfs : ∀ f ∈ fs, f.Fits) :
    fields (fs.flatMap Field.encode) = some fs := by
  induction fs with
  | nil => rfl
  | cons f fs ih =>
    rw [List.flatMap_cons, fields_encode_append (hfs f (List.mem_cons_self ..)),
      ih fun g hg => hfs g (List.mem_cons_of_mem _ hg), Option.map_some]

end CapsuleDB.ProtoWire

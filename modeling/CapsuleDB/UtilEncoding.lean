import CapsuleDB.BlockCode
import CapsuleDB.EnclaveMemTable
import Mathlib.Data.UInt

/-!
# File names for bytes

A table has two characters for every byte. Two overloads write the characters
of the bytes of a string one after another: one of them looks a byte up under
its own value, the other under its value as a number with a sign, moved to the
range of the table. Both are codes of blocks of two characters.
-/

namespace CapsuleDB.UtilEncoding

open BlockCode
open EnclaveMemTable (Bytes)

/-- `__DUMMY_ENCODE_MAP`. -/
def dummyEncodeMap : List String :=
  ["aa", "ab", "ac", "ad", "ae", "af", "ag", "ah",
    "a0", "a1", "a2", "a3", "a4", "a5", "a6", "a7",
    "ba", "bb", "bc", "bd", "be", "bf", "bg", "bh",
    "b0", "b1", "b2", "b3", "b4", "b5", "b6", "b7",
    "ca", "cb", "cc", "cd", "ce", "cf", "cg", "ch",
    "c0", "c1", "c2", "c3", "c4", "c5", "c6", "c7",
    "da", "db", "dc", "dd", "de", "df", "dg", "dh",
    "d0", "d1", "d2", "d3", "d4", "d5", "d6", "d7",
    "ea", "eb", "ec", "ed", "ee", "ef", "eg", "eh",
    "e0", "e1", "e2", "e3", "e4", "e5", "e6", "e7",
    "fa", "fb", "fc", "fd", "fe", "ff", "fg", "fh",
    "f0", "f1", "f2", "f3", "f4", "f5", "f6", "f7",
    "ga", "gb", "gc", "gd", "ge", "gf", "gg", "gh",
    "g0", "g1", "g2", "g3", "g4", "g5", "g6", "g7",
    "ha", "hb", "hc", "hd", "he", "hf", "hg", "hh",
    "h0", "h1", "h2", "h3", "h4", "h5", "h6", "h7",
    "ia", "ib", "ic", "id", "ie", "if", "ig", "ih",
    "i0", "i1", "i2", "i3", "i4", "i5", "i6", "i7",
    "ja", "jb", "jc", "jd", "je", "jf", "jg", "jh",
    "j0", "j1", "j2", "j3", "j4", "j5", "j6", "j7",
    "ka", "kb", "kc", "kd", "ke", "kf", "kg", "kh",
    "k0", "k1", "k2", "k3", "k4", "k5", "k6", "k7",
    "la", "lb", "lc", "ld", "le", "lf", "lg", "lh",
    "l0", "l1", "l2", "l3", "l4", "l5", "l6", "l7",
    "ma", "mb", "mc", "md", "me", "mf", "mg", "mh",
    "m0", "m1", "m2", "m3", "m4", "m5", "m6", "m7",
    "na", "nb", "nc", "nd", "ne", "nf", "ng", "nh",
    "n0", "n1", "n2", "n3", "n4", "n5", "n6", "n7",
    "oa", "ob", "oc", "od", "oe", "of", "og", "oh",
    "o0", "o1", "o2", "o3", "o4", "o5", "o6", "o7",
    "pa", "pb", "pc", "pd", "pe", "pf", "pg", "ph",
    "p0", "p1", "p2", "p3", "p4", "p5", "p6", "p7"]

/-- An entry of the table. -/
def entry (index : UInt8) : String := dummyEncodeMap.getD index.toNat ""

/-- `dummy_encode`, which looks a byte up under an index of its own. There is
nothing when the loop counter, an `int`, does not reach the length. -/
def dummyEncode (index : UInt8 → UInt8) (hsh : Bytes) : Option String :=
  if hsh.length < 2^31 then some (hsh.foldl (fun ss b => ss ++ entry (index b)) "") else none

/-- The index `hsh[i]` of an `unsigned char`. -/
def unsignedIndex (b : UInt8) : UInt8 := b

/-- The index `hsh[i] + 128` of a `char` with a sign, as an `unsigned char`. -/
def signedIndex (b : UInt8) : UInt8 := UInt8.ofInt (b.toInt8.toInt+128)

/-- `dummy_encode` of `unsigned char *`. -/
def dummyEncodeUnsigned (hsh : Bytes) : Option String := dummyEncode unsignedIndex hsh

/-- `dummy_encode` of `const char *`. -/
def dummyEncodeSigned (hsh : Bytes) : Option String := dummyEncode signedIndex hsh

/-- A character that the table has. -/
def FileChar (c : Char) : Prop := 'a' ≤ c ∧ c ≤ 'p' ∨ '0' ≤ c ∧ c ≤ '7'

instance (c : Char) : Decidable (FileChar c) :=
  inferInstanceAs (Decidable ('a' ≤ c ∧ c ≤ 'p' ∨ '0' ≤ c ∧ c ≤ '7'))

/-- The characters of an entry: a letter for a row of sixteen, and then eight
letters and eight digits for the places of the row. -/
def block (index : ℕ) : List Char :=
  [.ofNat (97+index/16), .ofNat (if index%16 < 8 then 97+index%16 else 40+index%16)]

/-- The index of an entry with these characters. -/
def blockIndex : List Char → Option UInt8
  | [row, place] =>
    some (.ofNat (16*(row.toNat-97)+
      if 97 ≤ place.toNat then place.toNat-97 else place.toNat-40))
  | _ => none

/-- The table has its entries in this order. -/
theorem map_toList_dummyEncodeMap :
    dummyEncodeMap.map String.toList = (List.range 256).map block := by
  decide +kernel

/-- The characters of an entry. -/
theorem toList_entry (index : UInt8) : (entry index).toList = block index.toNat := by
  have hlt : index.toNat < 256 := index.toNat_lt
  have hget : dummyEncodeMap[index.toNat]?.map String.toList = some (block index.toNat) := by
    rw [← List.getElem?_map, map_toList_dummyEncodeMap, List.getElem?_map,
      List.getElem?_range hlt, Option.map_some]
  obtain ⟨e, he, htoList⟩ := Option.map_eq_some_iff.mp hget
  rw [entry, List.getD_eq_getElem?_getD, he]
  exact htoList

/-- The value of a character of the lower code page. -/
theorem toNat_char {n : ℕ} (h : n < 128) : (Char.ofNat n).toNat = n := by
  have hvalid : n.isValidChar := .inl (by omega)
  rw [Char.ofNat, dif_pos hvalid]
  rfl

/-- The index of an entry can be read off its characters. -/
theorem blockIndex_block (index : UInt8) : blockIndex (block index.toNat) = some index := by
  have hlt : index.toNat < 256 := index.toNat_lt
  unfold block blockIndex
  dsimp only
  rw [toNat_char (by omega), Option.some_inj, ← UInt8.toNat_inj, UInt8.toNat_ofNat']
  by_cases hletter : index.toNat%16 < 8
  · rw [if_pos hletter, toNat_char (by omega), if_pos (by omega)]
    omega
  · rw [if_neg hletter, toNat_char (by omega), if_neg (by omega)]
    omega

/-- The file name characters, by their values. -/
theorem fileChar_iff {c : Char} :
    FileChar c ↔ 97 ≤ c.toNat ∧ c.toNat ≤ 112 ∨ 48 ≤ c.toNat ∧ c.toNat ≤ 55 :=
  Iff.rfl

/-- The characters of an entry are those of a file name. -/
theorem fileChar_block {index : UInt8} {c : Char} (h : c ∈ block index.toNat) : FileChar c := by
  have hlt : index.toNat < 256 := index.toNat_lt
  rw [block, List.mem_cons, List.mem_singleton] at h
  rcases h with hrow | hplace
  · rw [hrow, fileChar_iff, toNat_char (by omega)]
    omega
  · by_cases hletter : index.toNat%16 < 8
    · rw [hplace, fileChar_iff, if_pos hletter, toNat_char (by omega)]
      omega
    · rw [hplace, fileChar_iff, if_neg hletter, toNat_char (by omega)]
      omega

/-- The table is a code of blocks of two characters. -/
def tableCode : Code UInt8 Char where
  width := 2
  encode index := (entry index).toList
  decode := blockIndex
  width_pos := by omega
  length_encode index := by rw [toList_entry]; rfl
  decode_encode index := by rw [toList_entry, blockIndex_block]

/-- A table code has the characters of the table only. -/
theorem fileChar_of_mem {indices : List UInt8} {c : Char} (h : c ∈ tableCode.encodeAll indices) :
    FileChar c := by
  obtain ⟨index, _, hc⟩ := List.mem_flatMap.mp h
  have hblock : c ∈ block index.toNat := toList_entry index ▸ hc
  exact fileChar_block hblock

section Overload

variable {index : UInt8 → UInt8} {s t : Bytes}

/-- The loop appends the entries to what the stream has. -/
theorem toList_foldl (index : UInt8 → UInt8) (s : Bytes) (ss : String) :
    (s.foldl (fun ss b => ss ++ entry (index b)) ss).toList =
      ss.toList ++ tableCode.encodeAll (s.map index) := by
  induction s generalizing ss with
  | nil => exact (List.append_nil _).symm
  | cons b s ih =>
    rw [List.foldl_cons, ih, String.toList_append, List.append_assoc]
    rfl

/-- The name of a string is the table code of its indices. -/
theorem dummyEncode_eq (h : s.length < 2^31) :
    dummyEncode index s = some (.ofList (tableCode.encodeAll (s.map index))) := by
  rw [dummyEncode, if_pos h, Option.some_inj, ← String.toList_inj, toList_foldl]
  exact String.toList_ofList.symm

/-- A string that has a name is short enough for the loop. -/
theorem length_lt_of_eq_some {name : String} (h : dummyEncode index s = some name) :
    s.length < 2^31 := by
  by_contra hlong
  rw [dummyEncode, if_neg hlong] at h
  cases h

/-- Names through two overloads are equal when the indices are. -/
theorem dummyEncode_eq_iff {index' : UInt8 → UInt8} (hs : s.length < 2^31)
    (ht : t.length < 2^31) :
    dummyEncode index s = dummyEncode index' t ↔ s.map index = t.map index' := by
  rw [dummyEncode_eq hs, dummyEncode_eq ht, Option.some_inj, String.ofList_inj,
    tableCode.encodeAll_injective.eq_iff]

end Overload

/-- An encoding of byte strings as file names from which a decoder finds them
again. -/
structure UniquelyDecodable (encode : Bytes → Option String) (decode : String → Option Bytes) :
    Prop where
  /-- A string that the loop can go through has a name, of two file name
  characters for a byte, that decodes to it. -/
  decoded : ∀ s : Bytes, s.length < 2^31 → ∃ name, encode s = some name ∧
    decode name = some s ∧ name.length = 2*s.length ∧ ∀ c ∈ name.toList, FileChar c
  /-- Two strings never get the same name. -/
  injective : ∀ s t name, encode s = some name → encode t = some name → s = t

/-- The decoder of names for an index that has a left inverse. -/
def decodeName {index back : UInt8 → UInt8} (hback : Function.LeftInverse back index)
    (name : String) : Option Bytes :=
  (tableCode.comap index back hback).decodeAll name.toList

/-- An overload whose index loses nothing can be decoded. -/
theorem uniquelyDecodable_of_leftInverse {index back : UInt8 → UInt8}
    (hback : Function.LeftInverse back index) :
    UniquelyDecodable (dummyEncode index) (decodeName hback) := by
  have hdecoded : ∀ s : Bytes, s.length < 2^31 → ∃ name, dummyEncode index s = some name ∧
      decodeName hback name = some s ∧ name.length = 2*s.length ∧
        ∀ c ∈ name.toList, FileChar c := by
    intro s hs
    refine ⟨_, dummyEncode_eq hs, ?_, ?_, fun c hc => ?_⟩
    · rw [decodeName, String.toList_ofList, ← tableCode.encodeAll_comap hback]
      exact Code.decodeAll_encodeAll _ s
    · rw [String.length_ofList, Code.length_encodeAll, List.length_map]
      rfl
    · rw [String.toList_ofList] at hc
      exact fileChar_of_mem hc
  refine ⟨hdecoded, fun s t name hs ht => ?_⟩
  have heq := (dummyEncode_eq_iff (length_lt_of_eq_some hs) (length_lt_of_eq_some ht)).mp
    (hs.trans ht.symm)
  exact (List.map_injective_iff.mpr hback.injective) heq

/-- The index of a `char` with a sign is that of the byte with its top bit flipped. -/
theorem signedIndex_eq (b : UInt8) : signedIndex b = b+128 := by
  have hsigned : b.toInt8.toInt =
      if 2*b.toNat < 2^8 then (b.toNat : ℤ) else (b.toNat : ℤ)-(2^8 : ℕ) :=
    BitVec.toInt_eq_toNat_cond _
  have hlt : b.toNat < 2^8 := b.toNat_lt
  have hindex : (signedIndex b).toNat = ((b.toInt8.toInt+128)%2^8).toNat%2^8 :=
    UInt8.toNat_ofNat'
  have hflipped : (b+128).toNat = (b.toNat+128)%2^8 := UInt8.toNat_add _ _
  rw [← UInt8.toNat_inj, hindex, hflipped, hsigned]
  split <;> omega

/-- Flipping the top bit twice does nothing. -/
theorem add_128_add_128 (b : UInt8) : b+128+128 = b := by
  rw [UInt8.add_assoc]
  exact UInt8.add_zero b

/-- The index of an `unsigned char` is the byte itself. -/
theorem unsigned_leftInverse : Function.LeftInverse unsignedIndex unsignedIndex := fun _ => rfl

/-- The index of a `char` with a sign is taken back in the same way. -/
theorem signed_leftInverse : Function.LeftInverse signedIndex signedIndex := fun b => by
  rw [signedIndex_eq, signedIndex_eq, add_128_add_128]

/-- Each of the overloads is a uniquely decodable encoding of byte strings as
file names. -/
theorem overloads_decodable :
    UniquelyDecodable dummyEncodeUnsigned (decodeName unsigned_leftInverse) ∧
      UniquelyDecodable dummyEncodeSigned (decodeName signed_leftInverse) :=
  ⟨uniquelyDecodable_of_leftInverse _, uniquelyDecodable_of_leftInverse _⟩

section Agreement

variable {s t : Bytes}

/-- The overloads give one name to two strings that differ by the top bit of
each byte. -/
theorem unsigned_eq_signed_iff (hs : s.length < 2^31) (ht : t.length < 2^31) :
    dummyEncodeUnsigned s = dummyEncodeSigned t ↔ t = s.map (·+128) := by
  have hsigned : signedIndex = (·+128) := funext signedIndex_eq
  have hunsigned : s.map unsignedIndex = s := List.map_id s
  rw [dummyEncodeUnsigned, dummyEncodeSigned, dummyEncode_eq_iff hs ht, hunsigned, hsigned]
  have htwice : ∀ l : Bytes, (l.map (·+128)).map (·+128) = l := fun l => by
    rw [List.map_map]
    exact List.map_id'' add_128_add_128 l
  constructor
  · intro h
    rw [h, htwice]
  · intro h
    rw [h, htwice]

/-- Only the empty string is its own image under that. -/
theorem eq_map_add_128_iff : s = s.map (·+128) ↔ s = [] := by
  cases s with
  | nil => exact ⟨fun _ => rfl, fun _ => rfl⟩
  | cons b s =>
    refine ⟨fun h => ?_, fun h => absurd h (List.cons_ne_nil b s)⟩
    have hb : b.toNat = (b.toNat+128)%256 := congrArg UInt8.toNat (List.cons.inj h).1
    omega

end Agreement

/-- The overloads give a string one name exactly when it is empty, and two
strings different names unless these differ by the top bit of each byte. -/
theorem overloads_agree_iff {s t : Bytes} (hs : s.length < 2^31) (ht : t.length < 2^31) :
    (dummyEncodeUnsigned s = dummyEncodeSigned s ↔ s = []) ∧
      ((s ≠ t → dummyEncodeUnsigned s ≠ dummyEncodeSigned t) ↔
        ¬ (s ≠ [] ∧ t = s.map (·+128))) := by
  refine ⟨(unsigned_eq_signed_iff hs hs).trans eq_map_add_128_iff, ?_⟩
  rw [Ne, Ne, unsigned_eq_signed_iff hs ht, Ne, not_and]
  constructor
  · intro h hne heq
    refine h (fun hst => ?_) heq
    exact hne (eq_map_add_128_iff.mp (hst.trans heq))
  · intro h hst heq
    refine h (fun hnil => ?_) heq
    rw [heq, hnil] at hst
    exact hst rfl

/-- The strings `a` and `i` have different names through the overloads. -/
theorem overloads_differ_unless_flipped :
    dummyEncodeUnsigned [97] ≠ dummyEncodeSigned [105] := by
  have hs : ([97] : Bytes).length < 2^31 := by decide
  have ht : ([105] : Bytes).length < 2^31 := by decide
  exact (overloads_agree_iff hs ht).2.mpr (by decide) (by decide)

/-- The string `a` gets two names, and shares one of them with another string. -/
theorem overloads_differ :
    dummyEncodeUnsigned [97] = some "gb" ∧ dummyEncodeSigned [97] = some "ob" ∧
      dummyEncodeUnsigned [97] ≠ dummyEncodeSigned [97] ∧
      dummyEncodeUnsigned [225] = dummyEncodeSigned [97] := by
  decide +kernel

end CapsuleDB.UtilEncoding

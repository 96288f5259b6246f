import Mathlib.Data.List.GetD
import Mathlib.Data.UInt
import CapsuleDB.EnclaveMemTable
import CapsuleDB.ProbeFilter

/-!
# The Bloom filter

An array of words serves as a bit set. Each hash of a string gives a position,
split into a word index and a bit index, and the bit is written through the
literal one shifted as a 32-bit number, which wraps around its own width and
is sign-extended to the width of a word. The hash is a parameter. The filter
is an instance of one that probes sets of cells, the cells being the bits.
-/

namespace CapsuleDB.UtilBloomFilter

open EnclaveMemTable (Bytes)

/-- What `MurmurHash3_x64_128` writes for a string and a seed. -/
abbrev Hash := Bytes → UInt32 → UInt64 × UInt64

/-- `rotl64`. -/
def rotl64 (x r : UInt64) : UInt64 := x <<< r ||| x >>> (64-r)

/-- `fmix64`. -/
def fmix64 (k : UInt64) : UInt64 :=
  let k := (k ^^^ k >>> 33)*0xff51afd7ed558ccd
  let k := (k ^^^ k >>> 33)*0xc4ceb9fe1a85ec53
  k ^^^ k >>> 33

/-- `getblock64`, of up to eight bytes, least significant byte first. -/
def getblock64 (s : Bytes) : UInt64 := s.foldr (fun b k => b.toUInt64 ^^^ k <<< 8) 0

/-- What becomes of `k1` before it enters `h1`. -/
def mixK1 (k1 : UInt64) : UInt64 := rotl64 (k1*0x87c37b91114253d5) 31*0x4cf5ad432745937f

/-- What becomes of `k2` before it enters `h2`. -/
def mixK2 (k2 : UInt64) : UInt64 := rotl64 (k2*0x4cf5ad432745937f) 33*0x87c37b91114253d5

/-- The body for one block of 16 bytes. -/
def mixBlock (h : UInt64 × UInt64) (block : Bytes) : UInt64 × UInt64 :=
  let h1 := (rotl64 (h.1 ^^^ mixK1 (getblock64 (block.take 8))) 27+h.2)*5+0x52dce729
  let h2 := (rotl64 (h.2 ^^^ mixK2 (getblock64 (block.drop 8))) 31+h1)*5+0x38495ab5
  (h1, h2)

/-- The body for some blocks, and the tail. A tail that is too short for `k2`
or for `k1` leaves it zero, which mixes to zero. -/
def mixBlocks : ℕ → Bytes → UInt64 × UInt64 → UInt64 × UInt64
  | 0, s, h => (h.1 ^^^ mixK1 (getblock64 (s.take 8)), h.2 ^^^ mixK2 (getblock64 (s.drop 8)))
  | nblocks+1, s, h => mixBlocks nblocks (s.drop 16) (mixBlock h (s.take 16))

/-- `MurmurHash3_x64_128`. -/
def murmurHash3_x64_128 : Hash := fun str seed =>
  let h := mixBlocks (str.length/16) str (seed.toUInt64, seed.toUInt64)
  let len := UInt64.ofNat str.length
  let h1 := (h.1 ^^^ len)+(h.2 ^^^ len)
  let h2 := (h.2 ^^^ len)+h1
  (fmix64 h1+fmix64 h2, fmix64 h2+(fmix64 h1+fmix64 h2))

/-- `struct ParamSet`. -/
structure ParamSet where
  /-- The number of strings expected. -/
  inputSize : Int32
  /-- The number of words. -/
  filterSize : Int32
  /-- The number of hashes of a string. -/
  numHashes : Int32
  /-- The binary logarithm of the number of bits. -/
  modMaskSft : Int32

/-- `MAX_SEEDS`. -/
def maxSeeds : ℕ := 10

/-- `SEEDS`. -/
def seeds : List UInt64 := [19340, 1231, 122, 385, 668, 111, 222, 333, 444, 555]

/-- `1 << amount` of an `int`, which takes the amount modulo 32. -/
def oneShl (amount : ℕ) : BitVec 32 := 1#32 <<< (amount%32)

/-- An `int` as an operand of 64-bit unsigned arithmetic. -/
def widen (x : BitVec 32) : UInt64 := ⟨x.signExtend 64⟩

/-- `rem >> 6`. -/
def wordIdx (rem : UInt64) : UInt64 := rem >>> 6

/-- `rem & ((1 << 6) - 1)`. -/
def bitIdx (rem : UInt64) : UInt64 := rem &&& widen (oneShl 6-1)

/-- `1 << bit_idx`. -/
def bitMask (rem : UInt64) : UInt64 := widen (oneShl (bitIdx rem).toNat)

/-- The fields of the `BloomFilter` class. -/
structure BloomFilter where
  /-- The parameters. -/
  params : ParamSet
  /-- The words. -/
  data : List UInt64

namespace BloomFilter

/-- The constructor. -/
def new (p : ParamSet) : BloomFilter := ⟨p, List.replicate p.filterSize.toNatClampNeg 0⟩

/-- `__hash_mod`; nothing when there is no such seed. -/
def hashMod (hash : Hash) (f : BloomFilter) (str : Bytes) (seedIdx : ℕ) : Option UInt64 :=
  match seeds[seedIdx]? with
  | none => none
  | some seed =>
    some ((hash str seed.toUInt32).1 &&& widen (oneShl f.params.modMaskSft.toUInt32.toNat-1))

/-- One iteration of `add`; nothing when it leaves an array. -/
def addHash (hash : Hash) (str : Bytes) (f : BloomFilter) (i : ℕ) : Option BloomFilter :=
  match f.hashMod hash str i with
  | none => none
  | some rem =>
    match f.data[(wordIdx rem).toNat]? with
    | none => none
    | some word => some { f with data := f.data.set (wordIdx rem).toNat (word ||| bitMask rem) }

/-- `add`. -/
def add (hash : Hash) (f : BloomFilter) (str : Bytes) : Option BloomFilter :=
  (List.range f.params.numHashes.toNatClampNeg).foldlM (addHash hash str) f

/-- One iteration of `mayBePresent`; nothing when it leaves an array. -/
def testHash (hash : Hash) (f : BloomFilter) (str : Bytes) (present : Bool) (i : ℕ) :
    Option Bool :=
  match f.hashMod hash str i with
  | none => none
  | some rem =>
    match f.data[(wordIdx rem).toNat]? with
    | none => none
    | some word => some (present && decide (0 < word &&& bitMask rem))

/-- `mayBePresent`. -/
def mayBePresent (hash : Hash) (f : BloomFilter) (str : Bytes) : Option Bool :=
  (List.range f.params.numHashes.toNatClampNeg).foldlM (f.testHash hash str) true

end BloomFilter

/-- The documented relation between the parameters. -/
structure ParamSet.Ok (p : ParamSet) : Prop where
  /-- The number of hashes is not negative. -/
  numHashes_nonneg : 0 ≤ p.numHashes.toInt
  /-- There is a seed for each hash. -/
  numHashes_le : p.numHashes.toInt ≤ maxSeeds
  /-- A filter has at least a word. -/
  modMaskSft_ge : 6 ≤ p.modMaskSft.toInt
  /-- The largest filter. -/
  modMaskSft_le : p.modMaskSft.toInt ≤ 20
  /-- The words have as many bits as there are positions. -/
  filterSize : p.filterSize.toInt*64 = 2 ^ p.modMaskSft.toNatClampNeg

/-- The value of a mask of low bits. -/
theorem toNat_lowMask {k : ℕ} (hk : k < 32) : (widen (oneShl k-1)).toNat = 2 ^ k-1 := by
  have hall : ∀ k : Fin 32, (widen (oneShl k.val-1)).toNat = 2 ^ k.val-1 := by decide
  exact hall ⟨k, hk⟩

/-- Masking the low bits takes a remainder. -/
theorem toNat_and_lowMask {k : ℕ} (hk : k < 32) (x : UInt64) :
    (x &&& widen (oneShl k-1)).toNat = x.toNat%2 ^ k := by
  rw [UInt64.toNat_and, toNat_lowMask hk, Nat.and_two_pow_sub_one_eq_mod]

/-- The literal has one bit, the one the amount asks for modulo 32. -/
theorem getLsbD_oneShl (amount c : ℕ) :
    (oneShl amount).getLsbD c = decide (c = amount%32) := by
  rw [oneShl, BitVec.getLsbD_shiftLeft, BitVec.getLsbD_one, Bool.eq_iff_iff]
  simp only [Bool.and_eq_true, Bool.not_eq_true', decide_eq_true_iff, decide_eq_false_iff_not]
  omega

/-- Widened, it has that bit, and all above it when that is the sign. -/
theorem getLsbD_widen_oneShl_iff {amount c : ℕ} :
    (widen (oneShl amount)).toBitVec.getLsbD c = true ↔
      c < 64 ∧ (c = amount%32 ∨ amount%32 = 31 ∧ 31 ≤ c) := by
  unfold widen
  rw [BitVec.getLsbD_signExtend, BitVec.msb_eq_getLsbD_last, getLsbD_oneShl, getLsbD_oneShl]
  by_cases hc : c < 32
  · rw [if_pos hc, Bool.and_eq_true, decide_eq_true_iff, decide_eq_true_iff]
    omega
  · rw [if_neg hc, Bool.and_eq_true, decide_eq_true_iff, decide_eq_true_iff]
    omega

/-- A word is positive when it has a set bit. -/
theorem pos_iff_getLsbD (x : UInt64) : 0 < x ↔ ∃ b, x.toBitVec.getLsbD b = true := by
  have hzero : x = 0 ↔ ∀ b, x.toBitVec.getLsbD b = false := by
    rw [← UInt64.toBitVec_inj]
    constructor
    · intro h b
      rw [h]
      exact BitVec.getLsbD_zero
    · exact fun h => BitVec.eq_of_getLsbD_eq fun b _ => by rw [h b]; exact BitVec.getLsbD_zero.symm
  rw [UInt64.pos_iff_ne_zero, Ne, hzero]
  simp

/-- The position that a hash gives, when there is a seed. -/
def position (hash : Hash) (p : ParamSet) (str : Bytes) (i : ℕ) : UInt64 :=
  (hash str (seeds.getD i 0).toUInt32).1 &&& widen (oneShl p.modMaskSft.toUInt32.toNat-1)

/-- The bits that one hash sets, as pairs of a word index and a bit index. -/
def cells (rem : UInt64) : Set (ℕ × ℕ) :=
  {c | c.1 = (wordIdx rem).toNat ∧ (bitMask rem).toBitVec.getLsbD c.2 = true}

/-- The bits that the hashes of a string set. -/
def probes (hash : Hash) (p : ParamSet) (str : Bytes) : List (Set (ℕ × ℕ)) :=
  (List.range p.numHashes.toNatClampNeg).map fun i => cells (position hash p str i)

/-- The bits set in a list of words. -/
def setBits (data : List UInt64) : Set (ℕ × ℕ) :=
  {c | ∃ word, data[c.1]? = some word ∧ word.toBitVec.getLsbD c.2 = true}

/-- Each hash sets a bit. -/
theorem cells_nonempty (rem : UInt64) : (cells rem).Nonempty :=
  ⟨((wordIdx rem).toNat, (bitIdx rem).toNat%32), rfl,
    getLsbD_widen_oneShl_iff.mpr ⟨by omega, .inl rfl⟩⟩

/-- Writing a mask into a word adds its bits to those set. -/
theorem setBits_set {data : List UInt64} {rem word : UInt64}
    (h : data[(wordIdx rem).toNat]? = some word) :
    setBits (data.set (wordIdx rem).toNat (word ||| bitMask rem)) =
      setBits data ∪ cells rem := by
  have hlt : (wordIdx rem).toNat < data.length := (List.getElem?_eq_some_iff.mp h).1
  ext ⟨w, b⟩
  simp only [setBits, cells, Set.mem_union, Set.mem_ofPred_eq]
  by_cases hw : (wordIdx rem).toNat = w
  · subst hw
    rw [List.getElem?_set_self hlt, h]
    simp [UInt64.toBitVec_or]
  · rw [List.getElem?_set_ne hw]
    simp [Ne.symm hw]

/-- Reading a word through a mask tests whether a bit of the mask is set. -/
theorem pos_and_bitMask_iff {data : List UInt64} {rem word : UInt64}
    (h : data[(wordIdx rem).toNat]? = some word) :
    0 < word &&& bitMask rem ↔ (setBits data ∩ cells rem).Nonempty := by
  rw [pos_iff_getLsbD]
  constructor
  · rintro ⟨b, hb⟩
    rw [UInt64.toBitVec_and, BitVec.getLsbD_and, Bool.and_eq_true] at hb
    exact ⟨((wordIdx rem).toNat, b), ⟨word, h, hb.1⟩, rfl, hb.2⟩
  · rintro ⟨⟨w, b⟩, ⟨word', hword', hset⟩, hw, hmask⟩
    dsimp only at hword' hset hw hmask
    subst hw
    rw [h] at hword'
    cases hword'
    exact ⟨b, by rw [UInt64.toBitVec_and, BitVec.getLsbD_and, hset, hmask]; rfl⟩

/-- The shift amount is not negative. -/
theorem ParamSet.Ok.toNat_modMaskSft {p : ParamSet} (hp : p.Ok) :
    p.modMaskSft.toUInt32.toNat = p.modMaskSft.toNatClampNeg := by
  have hge := hp.modMaskSft_ge
  refine Int32.toNat_toUInt32_of_le ?_
  rw [Int32.le_iff_toInt_le]
  exact (by omega : (0 : ℤ) ≤ p.modMaskSft.toInt)

/-- The words have as many bits as there are positions. -/
theorem ParamSet.Ok.toNat_filterSize {p : ParamSet} (hp : p.Ok) :
    p.filterSize.toNatClampNeg*64 = 2 ^ p.modMaskSft.toNatClampNeg := by
  have hsize : p.filterSize.toInt*64 = ((2 ^ p.modMaskSft.toNatClampNeg : ℕ) : ℤ) := by
    rw [hp.filterSize]
    push_cast
    rfl
  have hpos := Nat.two_pow_pos p.modMaskSft.toNatClampNeg
  have hclamp : p.filterSize.toNatClampNeg = p.filterSize.toInt.toNat := rfl
  generalize 2 ^ p.modMaskSft.toNatClampNeg = bits at hsize hpos ⊢
  omega

/-- The word index of a position. -/
theorem toNat_wordIdx (rem : UInt64) : (wordIdx rem).toNat = rem.toNat/64 := by
  rw [wordIdx, UInt64.toNat_shiftRight, Nat.shiftRight_eq_div_pow]
  rfl

/-- Every position lies in a word of the filter. -/
theorem wordIdx_position_lt {p : ParamSet} (hp : p.Ok) (hash : Hash) (str : Bytes) (i : ℕ) :
    (wordIdx (position hash p str i)).toNat < p.filterSize.toNatClampNeg := by
  have hk : p.modMaskSft.toNatClampNeg < 32 := by
    have hle := hp.modMaskSft_le
    have hclamp : p.modMaskSft.toNatClampNeg = p.modMaskSft.toInt.toNat := rfl
    omega
  have hpos : (position hash p str i).toNat < 2 ^ p.modMaskSft.toNatClampNeg := by
    rw [position, hp.toNat_modMaskSft, toNat_and_lowMask hk]
    exact Nat.mod_lt _ (Nat.two_pow_pos _)
  rw [toNat_wordIdx, Nat.div_lt_iff_lt_mul (by omega), hp.toNat_filterSize]
  exact hpos

/-- A seed index below the number of hashes is one of the table. -/
theorem ParamSet.Ok.lt_length_seeds {p : ParamSet} (hp : p.Ok) {i : ℕ}
    (hi : i < p.numHashes.toNatClampNeg) : i < seeds.length := by
  have hle := hp.numHashes_le
  have hlength : seeds.length = maxSeeds := rfl
  have hclamp : p.numHashes.toNatClampNeg = p.numHashes.toInt.toNat := rfl
  omega

/-- What a filter stands for: its parameters, an array of their size, and the
set of its bits that are set. -/
structure Represents (p : ParamSet) (f : BloomFilter) (marked : Set (ℕ × ℕ)) : Prop where
  /-- The parameters. -/
  params : f.params = p
  /-- The size of the array. -/
  length : f.data.length = p.filterSize.toNatClampNeg
  /-- The bits. -/
  bits : setBits f.data = marked

/-- A fresh filter has no bit set. -/
theorem represents_new (p : ParamSet) : Represents p (BloomFilter.new p) ∅ := by
  refine ⟨rfl, List.length_replicate, Set.eq_empty_iff_forall_notMem.mpr ?_⟩
  rintro ⟨w, b⟩ ⟨word, hword, hset⟩
  rw [BloomFilter.new, List.getElem?_replicate] at hword
  split at hword
  · cases hword
    rw [UInt64.toBitVec_zero, BitVec.getLsbD_zero] at hset
    cases hset
  · cases hword

section Valid

variable {p : ParamSet} {f : BloomFilter} {marked : Set (ℕ × ℕ)} {i : ℕ}

/-- Each hash of a string gives a position in a word of the array. -/
theorem Represents.lookup (h : Represents p f marked) (hp : p.Ok) (hash : Hash) (str : Bytes)
    (hi : i < p.numHashes.toNatClampNeg) :
    f.hashMod hash str i = some (position hash p str i) ∧
      ∃ word, f.data[(wordIdx (position hash p str i)).toNat]? = some word := by
  have hseed := hp.lt_length_seeds hi
  constructor
  · rw [BloomFilter.hashMod, List.getElem?_eq_getElem hseed, position, h.params,
      List.getD_eq_getElem _ _ hseed]
  · have hlt := wordIdx_position_lt hp hash str i
    rw [← h.length] at hlt
    exact ⟨_, List.getElem?_eq_getElem hlt⟩

/-- One iteration of `add` sets the bits of one hash. -/
theorem Represents.addHash (h : Represents p f marked) (hp : p.Ok) (hash : Hash) (str : Bytes)
    (hi : i < p.numHashes.toNatClampNeg) :
    ∃ f', BloomFilter.addHash hash str f i = some f' ∧
      Represents p f' (marked ∪ cells (position hash p str i)) := by
  obtain ⟨hhash, word, hword⟩ := h.lookup hp hash str hi
  refine ⟨⟨f.params, f.data.set (wordIdx (position hash p str i)).toNat
    (word ||| bitMask (position hash p str i))⟩, ?_, h.params, ?_, ?_⟩
  · rw [BloomFilter.addHash, hhash]
    dsimp only
    rw [hword]
  · rw [List.length_set, h.length]
  · rw [setBits_set hword, h.bits]

/-- One iteration of `mayBePresent` asks whether one of these bits is set. -/
theorem Represents.testHash (h : Represents p f marked) (hp : p.Ok) (hash : Hash) (str : Bytes)
    (hi : i < p.numHashes.toNatClampNeg) (present : Bool) :
    ∃ b, f.testHash hash str present i = some b ∧
      (b = true ↔ present = true ∧ (marked ∩ cells (position hash p str i)).Nonempty) := by
  obtain ⟨hhash, word, hword⟩ := h.lookup hp hash str hi
  refine ⟨present && decide (0 < word &&& bitMask (position hash p str i)), ?_, ?_⟩
  · rw [BloomFilter.testHash, hhash]
    dsimp only
    rw [hword]
  · rw [Bool.and_eq_true, decide_eq_true_iff, pos_and_bitMask_iff hword, h.bits]

/-- Some iterations of `add`. -/
theorem Represents.foldlM_addHash (h : Represents p f marked) (hp : p.Ok) (hash : Hash)
    (str : Bytes) {l : List ℕ} (hl : ∀ i ∈ l, i < p.numHashes.toNatClampNeg) :
    ∃ f', l.foldlM (BloomFilter.addHash hash str) f = some f' ∧
      Represents p f' ((l.map fun i => cells (position hash p str i)).foldl
        (fun s c => s ∪ c) marked) := by
  induction l generalizing f marked with
  | nil => exact ⟨f, rfl, h⟩
  | cons i l ih =>
    obtain ⟨f₁, hadd, h₁⟩ := h.addHash hp hash str (hl i (List.mem_cons_self ..))
    obtain ⟨f₂, hrest, h₂⟩ := ih h₁ fun j hj => hl j (List.mem_cons_of_mem _ hj)
    refine ⟨f₂, ?_, h₂⟩
    rw [List.foldlM_cons, hadd]
    exact hrest

/-- `add` stays inside the arrays and marks the probes of its string. -/
theorem Represents.add (h : Represents p f marked) (hp : p.Ok) (hash : Hash) (str : Bytes) :
    ∃ f', f.add hash str = some f' ∧
      Represents p f' (ProbeFilter.add (probes hash p) marked str) := by
  rw [BloomFilter.add, h.params]
  exact h.foldlM_addHash hp hash str fun i hi => List.mem_range.mp hi

/-- A sequence of calls of `add` marks the probes of all its strings. -/
theorem Represents.addAll (h : Represents p f marked) (hp : p.Ok) (hash : Hash)
    (strs : List Bytes) :
    ∃ f', strs.foldlM (BloomFilter.add hash) f = some f' ∧
      Represents p f' (ProbeFilter.addAll (probes hash p) marked strs) := by
  induction strs generalizing f marked with
  | nil => exact ⟨f, rfl, h⟩
  | cons str strs ih =>
    obtain ⟨f₁, hadd, h₁⟩ := h.add hp hash str
    obtain ⟨f₂, hrest, h₂⟩ := ih h₁
    refine ⟨f₂, ?_, h₂⟩
    rw [List.foldlM_cons, hadd]
    exact hrest

/-- Some iterations of `mayBePresent`. -/
theorem Represents.foldlM_testHash (h : Represents p f marked) (hp : p.Ok) (hash : Hash)
    (str : Bytes) {l : List ℕ} (hl : ∀ i ∈ l, i < p.numHashes.toNatClampNeg) (present : Bool) :
    ∃ b, l.foldlM (f.testHash hash str) present = some b ∧
      (b = true ↔ present = true ∧
        ∀ i ∈ l, (marked ∩ cells (position hash p str i)).Nonempty) := by
  induction l generalizing present with
  | nil => exact ⟨present, rfl, by simp⟩
  | cons i l ih =>
    obtain ⟨b₁, htest, hb₁⟩ := h.testHash hp hash str (hl i (List.mem_cons_self ..)) present
    obtain ⟨b₂, hrest, hb₂⟩ := ih (fun j hj => hl j (List.mem_cons_of_mem _ hj)) b₁
    refine ⟨b₂, ?_, ?_⟩
    · rw [List.foldlM_cons, htest]
      exact hrest
    · rw [hb₂, hb₁, List.forall_mem_cons, and_assoc]

/-- `mayBePresent` stays inside the arrays and asks for the probes of its string. -/
theorem Represents.mayBePresent (h : Represents p f marked) (hp : p.Ok) (hash : Hash)
    (str : Bytes) :
    ∃ b, f.mayBePresent hash str = some b ∧
      (b = true ↔ ProbeFilter.MayContain (probes hash p) marked str) := by
  obtain ⟨b, hfold, hb⟩ := h.foldlM_testHash hp hash str
    (l := List.range p.numHashes.toNatClampNeg) (fun i hi => List.mem_range.mp hi) true
  refine ⟨b, by rw [BloomFilter.mayBePresent, h.params, hfold], ?_⟩
  rw [hb, ProbeFilter.MayContain, probes, List.forall_mem_map]
  exact and_iff_right rfl

end Valid

/-- With parameters in their documented relation, and whatever the hash gives,
each hash has a seed and addresses a word of the filter, all calls complete,
and every string that was added is found. -/
theorem no_false_negatives {p : ParamSet} (hp : p.Ok) (hash : Hash) (strs : List Bytes) :
    ∃ f, strs.foldlM (BloomFilter.add hash) (BloomFilter.new p) = some f ∧
      f.data.length = p.filterSize.toNatClampNeg ∧
      (∀ str, ∀ i < p.numHashes.toNatClampNeg, ∃ rem, f.hashMod hash str i = some rem ∧
        (wordIdx rem).toNat < p.filterSize.toNatClampNeg) ∧
      (∀ str, (f.add hash str).isSome = true ∧ (f.mayBePresent hash str).isSome = true) ∧
      ∀ str ∈ strs, f.mayBePresent hash str = some true := by
  obtain ⟨f, hadd, hf⟩ := (represents_new p).addAll hp hash strs
  refine ⟨f, hadd, hf.length, fun str i hi => ?_, fun str => ⟨?_, ?_⟩, fun str hstr => ?_⟩
  · exact ⟨_, (hf.lookup hp hash str hi).1, wordIdx_position_lt hp hash str i⟩
  · obtain ⟨f', hf', _⟩ := hf.add hp hash str
    rw [hf']
    rfl
  · obtain ⟨b, hb, _⟩ := hf.mayBePresent hp hash str
    rw [hb]
    rfl
  · obtain ⟨b, hb, hiff⟩ := hf.mayBePresent hp hash str
    have hprobes : ∀ c ∈ probes hash p str, c.Nonempty := by
      rw [probes, List.forall_mem_map]
      exact fun i _ => cells_nonempty _
    rw [hb, hiff.mpr (ProbeFilter.mayContain_addAll hprobes hstr)]

/-- A filter of four words and three hashes, with two strings. -/
theorem no_false_negatives_murmur :
    ∃ f, [[104, 105], [98, 121, 101]].foldlM (BloomFilter.add murmurHash3_x64_128)
        (BloomFilter.new ⟨32, 4, 3, 8⟩) = some f ∧
      f.mayBePresent murmurHash3_x64_128 [104, 105] = some true := by
  have hp : ParamSet.Ok ⟨32, 4, 3, 8⟩ :=
    ⟨by decide, by decide, by decide, by decide, by decide⟩
  obtain ⟨f, hadd, _, _, _, hfound⟩ :=
    no_false_negatives hp murmurHash3_x64_128 [[104, 105], [98, 121, 101]]
  exact ⟨f, hadd, hfound _ (List.mem_cons_self ..)⟩

end CapsuleDB.UtilBloomFilter

import CapsuleDB.UtilBloomFilter

/-!
# The parameters of a Bloom filter

The program computes the parameters from the number of strings and the rate of
false positives. The two quotients of logarithms of the rate are floating-point
numbers cut off to integers, and enter here as these integers. The words asked
for are rounded down to a power of two, which loses less than half of them, and
a filter with the parameters finds every string that was added.
-/

namespace CapsuleDB.UtilBloomParams

open EnclaveMemTable (Bytes)
open UtilBloomFilter

/-- `MAX_FILTER_SIZE`. -/
def maxFilterSize : ℕ := 16384

/-- What the logarithm of the rate gives, cut off to integers. -/
structure Rate where
  /-- `-log(fp_rate)/log(2.0)`. -/
  hashes : Int32
  /-- `bits_per_elt`. -/
  bits : Int32

/-- `bits_per_elt * input_size`, before it is taken as an `int`. -/
def bitsAsked (inputSize : Int32) (rate : Rate) : ℤ := rate.bits.toInt*inputSize.toInt

/-- The words for that many bits, up to the largest number. -/
def wordsAsked (bits : ℤ) : ℤ := min ((bits+63)/64) maxFilterSize

/-- The parameters for some words, rounded down to a power of two. -/
def paramsOf (inputSize : Int32) (rate : Rate) (filterSize : ℕ) : ParamSet :=
  let modMaskSft := Nat.log2 (64*filterSize)
  { inputSize := inputSize
    filterSize := Int32.ofNat (2 ^ modMaskSft/64)
    numHashes := if maxSeeds < rate.hashes.toInt then Int32.ofNat maxSeeds else rate.hashes
    modMaskSft := Int32.ofNat modMaskSft }

/-- `get_optimal_paramset`; nothing when the product is not an `int`, or when the
logarithm of the number of bits is not. -/
def getOptimalParamset (inputSize : Int32) (rate : Rate) : Option ParamSet :=
  let bits := bitsAsked inputSize rate
  if bits < -2 ^ 31 ∨ 2 ^ 31 ≤ bits then none
  else if wordsAsked bits ≤ 0 then none
  else some (paramsOf inputSize rate (wordsAsked bits).toNat)

section Rounding

variable {filterSize : ℕ}

/-- The logarithm of the number of bits is between that of a word and that of
the largest filter. -/
theorem log2_bounds (hpos : 0 < filterSize) (hle : filterSize ≤ maxFilterSize) :
    6 ≤ Nat.log2 (64*filterSize) ∧ Nat.log2 (64*filterSize) ≤ 20 := by
  rw [maxFilterSize] at hle
  have hne : 64*filterSize ≠ 0 := by omega
  have hlt : Nat.log2 (64*filterSize) < 21 := (Nat.log2_lt hne).mpr (by omega)
  exact ⟨(Nat.le_log2 hne).mpr (by omega), by omega⟩

/-- The power of two is a number of words. -/
theorem pow_log2_eq (hpos : 0 < filterSize) (hle : filterSize ≤ maxFilterSize) :
    2 ^ Nat.log2 (64*filterSize)/64*64 = 2 ^ Nat.log2 (64*filterSize) :=
  Nat.div_mul_cancel (pow_dvd_pow 2 (log2_bounds hpos hle).1)

/-- Rounding loses less than half. -/
theorem pow_log2_bounds (hpos : 0 < filterSize) (hle : filterSize ≤ maxFilterSize) :
    2 ^ Nat.log2 (64*filterSize)/64 ≤ filterSize ∧
      filterSize < 2*(2 ^ Nat.log2 (64*filterSize)/64) := by
  have heq := pow_log2_eq hpos hle
  have hlow := Nat.log2_self_le (n := 64*filterSize) (by omega)
  have hhigh := Nat.lt_log2_self (n := 64*filterSize)
  rw [pow_succ] at hhigh
  omega

end Rounding

section Params

variable {inputSize : Int32} {rate : Rate} {filterSize : ℕ}

/-- The number of words as it is stored. -/
theorem toInt_filterSize (hpos : 0 < filterSize) (hle : filterSize ≤ maxFilterSize) :
    (paramsOf inputSize rate filterSize).filterSize.toInt =
      ((2 ^ Nat.log2 (64*filterSize)/64 : ℕ) : ℤ) := by
  have hbound := (pow_log2_bounds hpos hle).1
  rw [maxFilterSize] at hle
  exact Int32.toInt_ofNat_of_lt (by omega)

/-- The parameters are in their documented relation. -/
theorem paramsOf_ok (hpos : 0 < filterSize) (hle : filterSize ≤ maxFilterSize)
    (hhashes : 0 ≤ rate.hashes.toInt) : (paramsOf inputSize rate filterSize).Ok := by
  obtain ⟨hsix, htwenty⟩ := log2_bounds hpos hle
  have hsft : (paramsOf inputSize rate filterSize).modMaskSft.toInt =
      (Nat.log2 (64*filterSize) : ℤ) := Int32.toInt_ofNat_of_lt (by omega)
  have hnat : (paramsOf inputSize rate filterSize).modMaskSft.toNatClampNeg =
      Nat.log2 (64*filterSize) := Int32.toNatClampNeg_ofNat_of_lt (by omega)
  have hseeds : (Int32.ofNat maxSeeds).toInt = maxSeeds := by decide
  refine ⟨?_, ?_, by omega, by omega, ?_⟩
  · dsimp only [paramsOf]
    split
    · rw [hseeds]
      exact Int.natCast_nonneg _
    · exact hhashes
  · dsimp only [paramsOf]
    split
    · rw [hseeds]
    · omega
  · rw [toInt_filterSize hpos hle, hnat]
    exact_mod_cast pow_log2_eq hpos hle

/-- The parameters are computed exactly for a positive number of bits that is an `int`. -/
theorem getOptimalParamset_eq (hpos : 0 < bitsAsked inputSize rate)
    (hlt : bitsAsked inputSize rate < 2 ^ 31) :
    ∃ w : ℕ, (w : ℤ) = wordsAsked (bitsAsked inputSize rate) ∧ 0 < w ∧ w ≤ maxFilterSize ∧
      getOptimalParamset inputSize rate = some (paramsOf inputSize rate w) := by
  have hwords : 0 < wordsAsked (bitsAsked inputSize rate) := by
    unfold wordsAsked maxFilterSize
    omega
  have hle : wordsAsked (bitsAsked inputSize rate) ≤ maxFilterSize := min_le_right _ _
  refine ⟨(wordsAsked (bitsAsked inputSize rate)).toNat, by omega, by omega, by omega, ?_⟩
  rw [getOptimalParamset, if_neg (by omega), if_neg (by omega)]

end Params

/-- For a positive number of bits that is an `int` and a rate of at most one, the
program's own parameters are in their documented relation and have more than half
of the words asked for. Whatever the hash gives, a filter with them completes all
calls and finds every string that was added. -/
theorem optimal_filter_finds {inputSize : Int32} {rate : Rate}
    (hpos : 0 < bitsAsked inputSize rate) (hlt : bitsAsked inputSize rate < 2 ^ 31)
    (hhashes : 0 ≤ rate.hashes.toInt) (hash : Hash) (strs : List Bytes) :
    ∃ p f, getOptimalParamset inputSize rate = some p ∧ p.Ok ∧
      p.filterSize.toInt ≤ wordsAsked (bitsAsked inputSize rate) ∧
      wordsAsked (bitsAsked inputSize rate) < 2*p.filterSize.toInt ∧
      strs.foldlM (BloomFilter.add hash) (BloomFilter.new p) = some f ∧
      (∀ str, (f.add hash str).isSome = true ∧ (f.mayBePresent hash str).isSome = true) ∧
      ∀ str ∈ strs, f.mayBePresent hash str = some true := by
  obtain ⟨w, hw, hwpos, hwle, hparams⟩ := getOptimalParamset_eq hpos hlt
  have hp : (paramsOf inputSize rate w).Ok := paramsOf_ok hwpos hwle hhashes
  obtain ⟨hlow, hhigh⟩ := pow_log2_bounds hwpos hwle
  obtain ⟨f, hadd, hf⟩ := (represents_new (paramsOf inputSize rate w)).addAll hp hash strs
  refine ⟨_, f, hparams, hp, ?_, ?_, hadd, fun str => ⟨?_, ?_⟩, fun str hstr => ?_⟩
  · rw [toInt_filterSize hwpos hwle, ← hw]
    exact_mod_cast hlow
  · rw [toInt_filterSize hwpos hwle, ← hw]
    exact_mod_cast hhigh
  · obtain ⟨f', hf', _⟩ := hf.add hp hash str
    rw [hf']
    rfl
  · obtain ⟨b, hb, _⟩ := hf.mayBePresent hp hash str
    rw [hb]
    rfl
  · obtain ⟨b, hb, hiff⟩ := hf.mayBePresent hp hash str
    have hprobes : ∀ c ∈ probes hash (paramsOf inputSize rate w) str, c.Nonempty := by
      rw [probes, List.forall_mem_map]
      exact fun i _ => cells_nonempty _
    rw [hb, hiff.mpr (ProbeFilter.mayContain_addAll hprobes hstr)]

/-- A hundred strings at a rate of one in a hundred get eight words and six hashes. -/
theorem optimal_filter_finds_hundred :
    ∃ f, [[104, 105], [98, 121, 101]].foldlM (BloomFilter.add murmurHash3_x64_128)
        (BloomFilter.new ⟨100, 8, 6, 9⟩) = some f ∧
      f.mayBePresent murmurHash3_x64_128 [104, 105] = some true := by
  have hparams : getOptimalParamset 100 ⟨6, 9⟩ = some ⟨100, 8, 6, 9⟩ := by rfl
  have hpos : 0 < bitsAsked 100 ⟨6, 9⟩ := by decide
  obtain ⟨p, f, hp, _, _, _, hadd, _, hfound⟩ := optimal_filter_finds hpos (by decide)
    (by decide) murmurHash3_x64_128 [[104, 105], [98, 121, 101]]
  rw [hparams] at hp
  cases hp
  exact ⟨f, hadd, hfound _ (List.mem_cons_self ..)⟩

end CapsuleDB.UtilBloomParams

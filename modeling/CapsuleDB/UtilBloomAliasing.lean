import CapsuleDB.UtilBloomFilter

/-!
# Which bits a Bloom filter shares

The literal one of the filter is shifted by its amount modulo 32. A position
in the upper half of a word therefore writes and reads the bit 32 places below
its own, and the two positions of a word that are 31 modulo 32 write and read
all of its bits from 31 on. Positions of different hashes share bits that way. The
filter meets its purpose, one bit for a position, exactly on the sequences of
calls whose positions make up for that themselves.
-/

namespace CapsuleDB.UtilBloomFilter

open EnclaveMemTable (Bytes)

/-- The bit index of a position. -/
theorem toNat_bitIdx (rem : UInt64) : (bitIdx rem).toNat = rem.toNat%64 :=
  toNat_and_lowMask (k := 6) (by omega) rem

/-- Position `r` is a bit that a hash with position `q` writes. -/
def Writes (q r : ℕ) : Prop := q/64 = r/64 ∧ (r%64 = q%32 ∨ q%32 = 31 ∧ 31 ≤ r%64)

/-- The bits that one hash sets, numbered through all words. -/
theorem mem_cells_iff {rem : UInt64} {w b : ℕ} (hb : b < 64) :
    (w, b) ∈ cells rem ↔ Writes rem.toNat (64*w+b) := by
  simp only [cells, Set.mem_ofPred_eq, bitMask, toNat_bitIdx, toNat_wordIdx,
    getLsbD_widen_oneShl_iff, Writes]
  omega

/-- Two hashes share a bit exactly when their positions have one word and one
remainder modulo 32. -/
theorem cells_inter_nonempty {x y : UInt64} :
    (cells x ∩ cells y).Nonempty ↔
      x.toNat/64 = y.toNat/64 ∧ x.toNat%32 = y.toNat%32 := by
  constructor
  · rintro ⟨⟨w, b⟩, hx, hy⟩
    have hb : b < 64 := BitVec.lt_of_getLsbD hx.2
    have hwx := (mem_cells_iff hb).mp hx
    have hwy := (mem_cells_iff hb).mp hy
    unfold Writes at hwx hwy
    omega
  · rintro ⟨hw, hb⟩
    have hlt : x.toNat%32 < 64 := by omega
    refine ⟨(x.toNat/64, x.toNat%32), (mem_cells_iff hlt).mpr ?_, (mem_cells_iff hlt).mpr ?_⟩
    · exact ⟨by omega, by omega⟩
    · exact ⟨by omega, by omega⟩

/-- Position `q` is that of a hash of one of the strings. -/
def Added (hash : Hash) (p : ParamSet) (strs : List Bytes) (q : ℕ) : Prop :=
  ∃ s ∈ strs, ∃ i < p.numHashes.toNatClampNeg, (position hash p s i).toNat = q

/-- A filter has one bit for a position, as far as its words and its answer
for one string show. -/
structure BitsExact (hash : Hash) (p : ParamSet) (strs : List Bytes) (f : BloomFilter)
    (str : Bytes) : Prop where
  /-- A bit is set for its own position only. -/
  set : ∀ w < p.filterSize.toNatClampNeg, ∀ b < 64, (w, b) ∈ setBits f.data →
    Added hash p strs (64*w+b)
  /-- A string is found through its own positions only. -/
  present : f.mayBePresent hash str = some true →
    ∀ i < p.numHashes.toNatClampNeg, Added hash p strs (position hash p str i).toNat

/-- The positions of some strings make up for the bits that they share. -/
structure NoAliasing (hash : Hash) (p : ParamSet) (strs : List Bytes) (str : Bytes) : Prop where
  /-- A position in the upper half of a word comes with the one 32 places below. -/
  upper : ∀ q, Added hash p strs q → 32 ≤ q%64 → q%64 < 63 → Added hash p strs (q-32)
  /-- A position that is 31 modulo 32 comes with all those of its word from 31 on. -/
  last : ∀ q, Added hash p strs q → q%32 = 31 →
    ∀ r, r/64 = q/64 → 31 ≤ r%64 → Added hash p strs r
  /-- A string each of whose positions is an added one, or 32 places above an
  added one, has added ones only. -/
  asked : (∀ i < p.numHashes.toNatClampNeg, Added hash p strs (position hash p str i).toNat ∨
      32 ≤ (position hash p str i).toNat%64 ∧ (position hash p str i).toNat%64 < 63 ∧
        Added hash p strs ((position hash p str i).toNat-32)) →
    ∀ i < p.numHashes.toNatClampNeg, Added hash p strs (position hash p str i).toNat

/-- The bits that a position writes, by its place in its word. -/
theorem writes_iff {q r : ℕ} :
    Writes q r ↔ q%64 < 31 ∧ r = q ∨ 32 ≤ q%64 ∧ q%64 < 63 ∧ r = q-32 ∨
      q%32 = 31 ∧ r/64 = q/64 ∧ 31 ≤ r%64 := by
  unfold Writes
  omega

/-- A set of positions is closed under writing when it has the bits that the
upper half of a word and the positions that are 31 modulo 32 share. -/
theorem closed_iff {A : ℕ → Prop} :
    (∀ q r, A q → Writes q r → A r) ↔ (∀ q, A q → 32 ≤ q%64 → q%64 < 63 → A (q-32)) ∧
      ∀ q, A q → q%32 = 31 → ∀ r, r/64 = q/64 → 31 ≤ r%64 → A r := by
  constructor
  · intro h
    refine ⟨fun q hq hlo hhi => h q _ hq ?_, fun q hq hlast r hw hr => h q r hq ?_⟩
    · exact writes_iff.mpr (.inr (.inl ⟨hlo, hhi, rfl⟩))
    · exact writes_iff.mpr (.inr (.inr ⟨hlast, hw, hr⟩))
  · rintro ⟨hupper, hlast⟩ q r hq hwrites
    rcases writes_iff.mp hwrites with ⟨_, heq⟩ | ⟨hlo, hhi, heq⟩ | ⟨hmod, hw, hr⟩
    · exact heq ▸ hq
    · exact heq ▸ hupper q hq hlo hhi
    · exact hlast q hq hmod r hw hr

/-- In a closed set a position finds another one of its word and its remainder
modulo 32 when it is there itself or the one 32 places below is. -/
theorem exists_alias_iff {A : ℕ → Prop} (hclosed : ∀ q r, A q → Writes q r → A r) {t : ℕ} :
    (∃ q, A q ∧ q/64 = t/64 ∧ q%32 = t%32) ↔ A t ∨ 32 ≤ t%64 ∧ t%64 < 63 ∧ A (t-32) := by
  constructor
  · rintro ⟨q, hq, hw, hb⟩
    by_cases hupper : 32 ≤ t%64 ∧ t%64 < 63
    · exact .inr ⟨hupper.1, hupper.2, hclosed q _ hq (by unfold Writes; omega)⟩
    · exact .inl (hclosed q t hq (by unfold Writes; omega))
  · rintro (ht | ⟨hlo, _, ht⟩)
    · exact ⟨t, ht, rfl, rfl⟩
    · exact ⟨t-32, ht, by omega, by omega⟩

section Added

variable {hash : Hash} {p : ParamSet} {strs : List Bytes} {str : Bytes} {f : BloomFilter}

/-- The probes of the strings, by their positions. -/
theorem exists_probes_iff {P : Set (ℕ × ℕ) → Prop} {Q : ℕ → Prop}
    (hPQ : ∀ rem, P (cells rem) ↔ Q rem.toNat) :
    (∃ s ∈ strs, ∃ c ∈ probes hash p s, P c) ↔ ∃ q, Added hash p strs q ∧ Q q := by
  unfold probes Added
  constructor
  · rintro ⟨s, hs, c, hc, hP⟩
    obtain ⟨i, hi, rfl⟩ := List.mem_map.mp hc
    exact ⟨_, ⟨s, hs, i, List.mem_range.mp hi, rfl⟩, (hPQ _).mp hP⟩
  · rintro ⟨q, ⟨s, hs, i, hi, rfl⟩, hQ⟩
    exact ⟨s, hs, _, List.mem_map.mpr ⟨i, List.mem_range.mpr hi, rfl⟩, (hPQ _).mpr hQ⟩

/-- The bits set after some calls of `add` are those that their positions write. -/
theorem Represents.mem_setBits
    (h : Represents p f (ProbeFilter.addAll (probes hash p) ∅ strs)) {w b : ℕ} (hb : b < 64) :
    (w, b) ∈ setBits f.data ↔ ∃ q, Added hash p strs q ∧ Writes q (64*w+b) := by
  rw [h.bits, ProbeFilter.mem_addAll, or_iff_right (Set.notMem_empty _)]
  exact exists_probes_iff (P := fun c => (w, b) ∈ c) fun rem => mem_cells_iff hb

/-- A string is found after some calls of `add` when each of its positions
agrees with one of theirs in the word and modulo 32. -/
theorem Represents.mayBePresent_iff
    (h : Represents p f (ProbeFilter.addAll (probes hash p) ∅ strs)) (hp : p.Ok) :
    f.mayBePresent hash str = some true ↔
      ∀ i < p.numHashes.toNatClampNeg, ∃ q, Added hash p strs q ∧
        q/64 = (position hash p str i).toNat/64 ∧ q%32 = (position hash p str i).toNat%32 := by
  obtain ⟨b, hb, hiff⟩ := h.mayBePresent hp hash str
  rw [hb, Option.some_inj, hiff, ProbeFilter.mayContain_addAll_iff, probes, List.forall_mem_map]
  simp only [List.mem_range]
  refine forall₂_congr fun i _ => ?_
  exact exists_probes_iff (P := fun c => (c ∩ _).Nonempty) fun rem => cells_inter_nonempty

/-- Every position lies in a word of the filter. -/
theorem Added.lt (hp : p.Ok) {q : ℕ} (h : Added hash p strs q) :
    q/64 < p.filterSize.toNatClampNeg := by
  obtain ⟨s, _, i, _, rfl⟩ := h
  rw [← toNat_wordIdx]
  exact wordIdx_position_lt hp hash s i

/-- The filter sets a bit for its own position only when the added positions
are closed under writing. -/
theorem Represents.set_exact_iff
    (h : Represents p f (ProbeFilter.addAll (probes hash p) ∅ strs)) (hp : p.Ok) :
    (∀ w < p.filterSize.toNatClampNeg, ∀ b < 64, (w, b) ∈ setBits f.data →
      Added hash p strs (64*w+b)) ↔
      ∀ q r, Added hash p strs q → Writes q r → Added hash p strs r := by
  constructor
  · intro hset q r hq hwrites
    have hr : 64*(r/64)+r%64 = r := Nat.div_add_mod r 64
    have hw : r/64 < p.filterSize.toNatClampNeg := hwrites.1 ▸ hq.lt hp
    have hb : r%64 < 64 := Nat.mod_lt r (by omega)
    have hmem := (h.mem_setBits hb).mpr ⟨q, hq, hr.symm ▸ hwrites⟩
    exact hr ▸ hset _ hw _ hb hmem
  · intro hclosed w _ b hb hmem
    obtain ⟨q, hq, hwrites⟩ := (h.mem_setBits hb).mp hmem
    exact hclosed q _ hq hwrites

/-- With one hash, the only string has the only position. -/
theorem added_singleton (hp : p.numHashes.toNatClampNeg = 1) {q : ℕ} :
    Added hash p [str] q ↔ (position hash p str 0).toNat = q := by
  unfold Added
  rw [hp]
  simp

end Added

/-- With parameters in their documented relation, and whatever the hash gives,
the filter has one bit for a position exactly when the positions make up for
the bits that they share. -/
theorem bits_exact_iff {p : ParamSet} (hp : p.Ok) (hash : Hash) (strs : List Bytes)
    (str : Bytes) :
    ∃ f, strs.foldlM (BloomFilter.add hash) (BloomFilter.new p) = some f ∧
      (∀ s, ∀ i < p.numHashes.toNatClampNeg, f.hashMod hash s i = some (position hash p s i)) ∧
      (BitsExact hash p strs f str ↔ NoAliasing hash p strs str) := by
  obtain ⟨f, hadd, hf⟩ := (represents_new p).addAll hp hash strs
  refine ⟨f, hadd, fun s i hi => (hf.lookup hp hash s hi).1, ?_⟩
  constructor
  · intro h
    have hclosed := (hf.set_exact_iff hp).mp h.set
    obtain ⟨hupper, hlast⟩ := closed_iff.mp hclosed
    refine ⟨hupper, hlast, fun hasked => h.present ((hf.mayBePresent_iff hp).mpr ?_)⟩
    exact fun i hi => (exists_alias_iff hclosed).mpr (hasked i hi)
  · intro h
    have hclosed := closed_iff.mpr ⟨h.upper, h.last⟩
    refine ⟨(hf.set_exact_iff hp).mpr hclosed, fun hfound => h.asked fun i hi => ?_⟩
    exact (exists_alias_iff hclosed).mp ((hf.mayBePresent_iff hp).mp hfound i hi)

/-- The parameters for 64 strings and a false positive rate of one half. -/
def halfRate : ParamSet := ⟨64, 1, 1, 6⟩

/-- They are in their documented relation. -/
theorem halfRate_ok : halfRate.Ok := ⟨by decide, by decide, by decide, by decide, by decide⟩

/-- A position in the lower half of a word, and an answer that is right. -/
theorem bits_exact_lower :
    ∃ f, [[105]].foldlM (BloomFilter.add murmurHash3_x64_128) (BloomFilter.new halfRate) = some f ∧
      BitsExact murmurHash3_x64_128 halfRate [[105]] f [106] := by
  obtain ⟨f, hadd, _, hiff⟩ := bits_exact_iff halfRate_ok murmurHash3_x64_128 [[105]] [106]
  have hadded : ∀ q, Added murmurHash3_x64_128 halfRate [[105]] q ↔ 9 = q := fun q =>
    added_singleton (by decide)
  have hasked : (position murmurHash3_x64_128 halfRate [106] 0).toNat = 10 := by decide +kernel
  refine ⟨f, hadd, hiff.mpr ⟨fun q hq hlo _ => ?_, fun q hq hmod => ?_, fun hall => ?_⟩⟩
  · have hq := (hadded q).mp hq
    omega
  · have hq := (hadded q).mp hq
    omega
  · have hfirst := hall 0 (by decide)
    rw [hasked, hadded, hadded] at hfirst
    omega

/-- The string `w` has position 49 and sets bit 17, so that the string `k`, of
position 17, is taken for one that was added. -/
theorem bit_aliased :
    ∃ f, [[119]].foldlM (BloomFilter.add murmurHash3_x64_128) (BloomFilter.new halfRate) = some f ∧
      (0, 17) ∈ setBits f.data ∧ f.mayBePresent murmurHash3_x64_128 [107] = some true ∧
      ¬ Added murmurHash3_x64_128 halfRate [[119]] 17 ∧
      ¬ BitsExact murmurHash3_x64_128 halfRate [[119]] f [107] := by
  have hadded : ¬ Added murmurHash3_x64_128 halfRate [[119]] 17 := by
    rw [added_singleton (by decide)]
    decide +kernel
  have hdata : ([[119]].foldlM (BloomFilter.add murmurHash3_x64_128)
      (BloomFilter.new halfRate)).map BloomFilter.data = some [0x20000] := by decide +kernel
  have hfound : ([[119]].foldlM (BloomFilter.add murmurHash3_x64_128)
      (BloomFilter.new halfRate)).bind (BloomFilter.mayBePresent murmurHash3_x64_128 · [107]) =
        some true := by decide +kernel
  obtain ⟨f, hadd, hf⟩ := Option.map_eq_some_iff.mp hdata
  have hset : (0, 17) ∈ setBits f.data := hf ▸ ⟨0x20000, rfl, by decide⟩
  rw [hadd] at hfound
  exact ⟨f, hadd, hset, hfound, hadded, fun h => hadded (h.set 0 (by decide) 17 (by omega) hset)⟩

end CapsuleDB.UtilBloomFilter

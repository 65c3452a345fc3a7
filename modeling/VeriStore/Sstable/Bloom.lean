import VeriStore.Sstable.Defs

/-!
The Bloom filter has no false negatives.

The bit array is a set of bit indices, and `setBit` adds one (`getBit_setBit`), as long as the index
is inside (`BloomFilter.Fits`). So the bits that are set are those of the added keys
(`getBit_addAll`), and a key passes exactly when all its bits are among them
(`possiblyContains_addAll_new`).
-/

namespace VeriStore.Sstable

open VeriStore.Lib VeriStore.Store

/-! ### Bits -/

lemma or_and_ne_zero_iff (x m m' : UInt8) :
    (x ||| m) &&& m' ≠ 0 ↔ x &&& m' ≠ 0 ∨ m &&& m' ≠ 0 := by
  have hd : (x ||| m) &&& m' = (x &&& m') ||| (m &&& m') := by
    rw [← UInt8.toBitVec_inj]
    ext i
    simp [Bool.and_or_distrib_right]
  rw [hd, ne_eq, UInt8.or_eq_zero_iff, not_and_or]

/-- Two masks meet when they are for one place in the byte. -/
lemma bitMask_and_bitMask (i j : ℕ) : bitMask i &&& bitMask j ≠ 0 ↔ i % 8 = j % 8 := by
  have hm : ∀ a < 8, ∀ b < 8,
      ((1 : UInt8) <<< UInt8.ofNat a &&& (1 : UInt8) <<< UInt8.ofNat b ≠ 0 ↔ a = b) := by decide
  exact hm _ (Nat.mod_lt _ (by omega)) _ (Nat.mod_lt _ (by omega))

@[simp] lemma setBit_length (bits : Bytes) (i : ℕ) : (setBit bits i).length = bits.length := by
  simp [setBit]

lemma getD_setBit (bits : Bytes) (i j : ℕ) : (setBit bits i).getD j 0 =
    if i / 8 = j ∧ j < bits.length then bits.getD j 0 ||| bitMask i else bits.getD j 0 := by
  simp only [setBit, List.getD_eq_getElem?_getD, List.getElem?_modify]
  by_cases hj : j < bits.length
  · by_cases hi : i / 8 = j
    · simp [hi, hj]
    · simp [hi]
  · simp [hj]

/-- **Setting a bit adds its index**, when it is inside. -/
lemma getBit_setBit {bits : Bytes} {i j : ℕ} :
    getBit (setBit bits i) j = true ↔
      getBit bits j = true ∨ i = j ∧ i / 8 < bits.length := by
  simp only [getBit, decide_eq_true_eq]
  rw [getD_setBit]
  split
  · next h =>
    -- one byte for both indices
    rw [or_and_ne_zero_iff, bitMask_and_bitMask]
    refine or_congr_right ⟨fun hmod => ⟨?_, by omega⟩, fun hij => by rw [hij.1]⟩
    omega
  · next h =>
    refine (or_iff_left fun hij => h ?_).symm
    rw [← hij.1]
    exact ⟨rfl, hij.2⟩

lemma length_foldl_setBit {α : Type} (g : α → ℕ) (is : List α) (bits : Bytes) :
    (is.foldl (fun bs i => setBit bs (g i)) bits).length = bits.length := by
  induction is generalizing bits with
  | nil => rfl
  | cons i is ih => rw [List.foldl_cons, ih, setBit_length]

/-- A loop adds all its indices. -/
lemma getBit_foldl_setBit {α : Type} (g : α → ℕ) (is : List α) {bits : Bytes} {j : ℕ}
    (hin : ∀ i ∈ is, g i / 8 < bits.length) :
    getBit (is.foldl (fun bs i => setBit bs (g i)) bits) j = true ↔
      getBit bits j = true ∨ ∃ i ∈ is, g i = j := by
  induction is generalizing bits with
  | nil => simp
  | cons i is ih =>
    have hrest : ∀ i' ∈ is, g i' / 8 < (setBit bits (g i)).length := fun i' hi' => by
      rw [setBit_length]
      exact hin i' (List.mem_cons_of_mem i hi')
    rw [List.foldl_cons, ih hrest, getBit_setBit, or_assoc]
    simp [hin i (by simp)]

/-! ### Keys -/

namespace BloomFilter

/-- The bit array is large enough for every bit index. -/
def Fits (f : BloomFilter) : Prop := 0 < f.bitCount ∧ f.bitCount ≤ 8 * f.bits.length

/-- The filter after a sequence of keys. -/
def addAll (f : BloomFilter) (keys : List Bytes) : BloomFilter := keys.foldl add f

/-- The bit is one of the key. -/
def BitOf (f : BloomFilter) (key : Bytes) (j : ℕ) : Prop := ∃ i < f.hashCount, f.bitIndex key i = j

variable {f : BloomFilter} {key : Bytes} {keys : List Bytes}

/-- The bit array of a filter that is not too large. -/
lemma fits_new {bitCount : ℕ} (h : bitCount ≤ 2 ^ 64 - 8) (hashCount : ℕ) :
    (new bitCount hashCount).Fits := by
  have hmod : (max bitCount 8 + 7) % 2 ^ 64 = max bitCount 8 + 7 := Nat.mod_eq_of_lt (by omega)
  constructor
  · simp only [new]
    omega
  · simp only [new, List.length_replicate, hmod]
    omega

lemma getBit_new (bitCount hashCount j : ℕ) : getBit (new bitCount hashCount).bits j = false := by
  simp only [getBit, new, List.getD_eq_getElem?_getD, List.getElem?_replicate]
  split <;> simp

/-- **Every bit index is inside.** -/
lemma Fits.bitIndex_lt (h : f.Fits) (key : Bytes) (i : ℕ) :
    f.bitIndex key i / 8 < f.bits.length := by
  have hlt : f.bitIndex key i < f.bitCount := Nat.mod_lt _ h.1
  have := h.2
  omega

lemma add_bits_length (f : BloomFilter) (key : Bytes) : (f.add key).bits.length = f.bits.length :=
  length_foldl_setBit _ _ _

lemma Fits.add (h : f.Fits) (key : Bytes) : (f.add key).Fits := by
  refine ⟨h.1, ?_⟩
  rw [add_bits_length]
  exact h.2

lemma Fits.addAll (h : f.Fits) (keys : List Bytes) : (f.addAll keys).Fits := by
  induction keys generalizing f with
  | nil => exact h
  | cons key keys ih => exact ih (h.add key)

/-- **A key adds its bits.** -/
lemma Fits.getBit_add (h : f.Fits) (key : Bytes) (j : ℕ) :
    getBit (f.add key).bits j = true ↔ getBit f.bits j = true ∨ f.BitOf key j := by
  refine (getBit_foldl_setBit (f.bitIndex key) _ fun i _ => h.bitIndex_lt key i).trans ?_
  simp only [List.mem_range]
  rfl

/-- The number of hash functions and of bits stay, and so do the bits of a key. -/
lemma bitOf_addAll (f : BloomFilter) (keys : List Bytes) (key : Bytes) (j : ℕ) :
    (f.addAll keys).BitOf key j ↔ f.BitOf key j := by
  induction keys generalizing f with
  | nil => rfl
  | cons key' keys ih => exact ih (f.add key')

/-- **The set bits are those that were set and those of the added keys.** -/
lemma Fits.getBit_addAll (h : f.Fits) (keys : List Bytes) (j : ℕ) :
    getBit (f.addAll keys).bits j = true ↔
      getBit f.bits j = true ∨ ∃ key ∈ keys, f.BitOf key j := by
  induction keys generalizing f with
  | nil => simp [BloomFilter.addAll]
  | cons key keys ih =>
    have hstep : getBit (f.addAll (key :: keys)).bits j = true ↔
        getBit (f.add key).bits j = true ∨ ∃ key' ∈ keys, f.BitOf key' j := ih (h.add key)
    rw [hstep, h.getBit_add, or_assoc]
    simp

/-- A key passes when all its bits are set. -/
lemma possiblyContains_iff (f : BloomFilter) (key : Bytes) :
    f.possiblyContains key = true ↔ ∀ j, f.BitOf key j → getBit f.bits j = true := by
  unfold possiblyContains BitOf
  simp only [List.all_eq_true, List.mem_range]
  constructor
  · rintro h j ⟨i, hi, rfl⟩
    exact h i hi
  · exact fun h i hi => h _ ⟨i, hi, rfl⟩

/-- **A key that was added or passes already** passes after any sequence of keys. -/
lemma Fits.possiblyContains_addAll (h : f.Fits) (keys : List Bytes) {key : Bytes}
    (hkey : f.possiblyContains key = true ∨ key ∈ keys) :
    (f.addAll keys).possiblyContains key = true := by
  rw [possiblyContains_iff]
  intro j hj
  rw [bitOf_addAll] at hj
  rw [h.getBit_addAll]
  rcases hkey with hkey | hkey
  · exact Or.inl ((possiblyContains_iff f key).mp hkey j hj)
  · exact Or.inr ⟨key, hkey, hj⟩

/-- **What a filter answers**: whether all bits of the key are bits of added keys. -/
theorem possiblyContains_addAll_new {bitCount : ℕ} (hbits : bitCount ≤ 2 ^ 64 - 8) (hashCount : ℕ)
    (keys : List Bytes) (key : Bytes) :
    ((new bitCount hashCount).addAll keys).possiblyContains key = true ↔
      ∀ j, (new bitCount hashCount).BitOf key j →
        ∃ key' ∈ keys, (new bitCount hashCount).BitOf key' j := by
  rw [possiblyContains_iff]
  refine forall_congr' fun j => ?_
  rw [bitOf_addAll, (fits_new hbits hashCount).getBit_addAll, getBit_new]
  simp

/-- **No false negatives.** With any number of bits for which the size of the bit array does not wrap
around, and any number of hash functions, every key of a sequence passes after it; every bit index
of a key is inside the bit array, as `add` has it at each turn of its loop and as `possiblyContains`
reads it; and a key that passes goes on to pass. -/
theorem no_false_negatives {bitCount : ℕ} (hbits : bitCount ≤ 2 ^ 64 - 8) (hashCount : ℕ)
    (keys : List Bytes) :
    let f := (new bitCount hashCount).addAll keys
    (∀ key ∈ keys, f.possiblyContains key = true) ∧
    (∀ key key' i turns, f.bitIndex key i / 8 <
      ((List.range turns).foldl (fun bs i' => setBit bs (f.bitIndex key' i')) f.bits).length) ∧
    ∀ key more, f.possiblyContains key = true → (f.addAll more).possiblyContains key = true := by
  intro f
  have hnew : (new bitCount hashCount).Fits := fits_new hbits hashCount
  have hf : f.Fits := hnew.addAll keys
  refine ⟨fun key hkey => hnew.possiblyContains_addAll keys (Or.inr hkey), ?_, ?_⟩
  · intro key key' i turns
    rw [length_foldl_setBit]
    exact hf.bitIndex_lt key i
  · intro key more hpass
    exact hf.possiblyContains_addAll more (Or.inl hpass)

/-- Thirteen bits in two bytes, and the empty key among the added ones. -/
theorem no_false_negatives_thirteen :
    ((new 13 3).addAll [text "alpha", [], text "beta"]).possiblyContains [] = true ∧
    ((new 13 3).addAll [text "alpha", [], text "beta"]).bits.length = 2 := by
  have h := no_false_negatives (show 13 ≤ 2 ^ 64 - 8 by decide) 3 [text "alpha", [], text "beta"]
  exact ⟨h.1 [] (by simp), by decide +kernel⟩

end BloomFilter

end VeriStore.Sstable

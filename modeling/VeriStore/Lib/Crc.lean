import VeriStore.Lib.Checksum

/-!
Reflected CRCs, one bit after the other.

A register of 32 bits takes in a bit (`stepBit`): it moves down by one place, and the polynomial is
added when the bit that falls out and the bit that comes in are different. The bits of a byte come
in from the lowest one on (`bitsOf`).

* `toNat_iterate_stepBit` — bits that stand in the register already and bits that come in one by one
  do the same;
* `foldl_stepBit_bitsOf` — the eight steps of a byte are one step with a table, the one whose entries
  are the registers that eight empty steps leave (`crcEntryOf`).
-/

namespace VeriStore.Lib

/-! ### Bits -/

/-- The lowest `w` bits of a number, from the lowest one on. -/
def lowBits (w n : ℕ) : List Bool := (List.range w).map n.testBit

/-- The bits of a string, those of each byte from the lowest one on. -/
def bitsOf (s : Bytes) : List Bool := s.flatMap fun b => lowBits 8 b.toNat

lemma lowBits_succ (w n : ℕ) : lowBits (w + 1) n = n.testBit 0 :: lowBits w (n >>> 1) := by
  simp only [lowBits, List.range_succ_eq_map, List.map_cons, List.map_map]
  congr 1
  refine List.map_congr_left fun i _ => ?_
  rw [Nat.testBit_shiftRight, add_comm]
  rfl

lemma lowBits_mod (w n : ℕ) : lowBits w (n % 2 ^ w) = lowBits w n := by
  refine List.map_congr_left fun i hi => ?_
  rw [Nat.testBit_mod_two_pow, decide_eq_true (List.mem_range.mp hi), Bool.true_and]

/-! ### One bit -/

/-- The register after one more bit. -/
def stepBit (poly c : UInt32) (bit : Bool) : UInt32 :=
  if c.toNat.testBit 0 ^^ bit then poly ^^^ (c >>> 1) else c >>> 1

/-- The entry of the table: what eight empty steps make of a byte. -/
def crcEntryOf (poly : UInt32) (i : UInt8) : UInt32 := (stepBit poly · false)^[8] i.toUInt32

section Poly

variable {poly : UInt32}

/-- **A bit in the register does what a bit that comes in does.** -/
lemma stepBit_xor (c n : UInt32) :
    stepBit poly (c ^^^ n) false = stepBit poly c (n.toNat.testBit 0) ^^^ (n >>> 1) := by
  have hshift : (c ^^^ n) >>> 1 = (c >>> 1) ^^^ (n >>> 1) := by
    refine UInt32.toNat_inj.mp ?_
    simp [Nat.shiftRight_xor_distrib]
  unfold stepBit
  rw [UInt32.toNat_xor, Nat.testBit_xor, Bool.xor_false, hshift]
  split
  · rw [UInt32.xor_assoc]
  · rfl

/-- The steps of `k` bits: what has come in, and what is left in the register. -/
lemma toNat_iterate_stepBit (poly : UInt32) (k : ℕ) (c n : UInt32) :
    ((stepBit poly · false)^[k] (c ^^^ n)).toNat =
      ((lowBits k n.toNat).foldl (stepBit poly) c).toNat ^^^ (n.toNat >>> k) := by
  induction k generalizing c n with
  | zero => simp [lowBits]
  | succ k ih =>
    have hone : (n >>> 1).toNat = n.toNat >>> 1 := by simp
    rw [Function.iterate_succ_apply, stepBit_xor, ih, hone, lowBits_succ, List.foldl_cons,
      ← Nat.shiftRight_add, add_comm 1 k]

/-! ### One byte -/

/-- **The eight steps of a byte are one step with the table.** -/
lemma foldl_stepBit_byte (c : UInt32) (b : UInt8) :
    (lowBits 8 b.toNat).foldl (stepBit poly) c = stepByte (crcEntryOf poly) c b := by
  refine UInt32.toNat_inj.mp ?_
  -- the register with the byte in it, and only the low byte of that
  have hboth := toNat_iterate_stepBit poly 8 c b.toUInt32
  have hall := toNat_iterate_stepBit poly 8 0 (c ^^^ b.toUInt32)
  have hlow := toNat_iterate_stepBit poly 8 0 (c.toUInt8 ^^^ b).toUInt32
  have hbits : lowBits 8 (c.toUInt8 ^^^ b).toUInt32.toNat = lowBits 8 (c ^^^ b.toUInt32).toNat := by
    rw [← lowBits_mod 8 (c ^^^ b.toUInt32).toNat, UInt8.toNat_toUInt32, UInt8.toNat_xor,
      UInt32.toNat_toUInt8, UInt32.toNat_xor, UInt8.toNat_toUInt32, Nat.xor_mod_two_pow,
      Nat.mod_eq_of_lt b.toNat_lt]
  rw [toNat_shiftRight_byte, Nat.xor_zero, UInt8.toNat_toUInt32] at hboth
  rw [toNat_shiftRight_byte, Nat.xor_zero, hbits, UInt32.zero_xor] at hlow
  rw [UInt32.zero_xor, ← hlow, UInt32.toNat_xor, Nat.shiftRight_xor_distrib, toNat_shiftRight_byte,
    Nat.xor_zero] at hall
  rw [toNat_stepByte, ← hboth, hall]
  rfl

/-- **A string, bit by bit and byte by byte.** -/
lemma foldl_stepBit_bitsOf (s : Bytes) (c : UInt32) :
    (bitsOf s).foldl (stepBit poly) c = s.foldl (stepByte (crcEntryOf poly)) c := by
  induction s generalizing c with
  | nil => rfl
  | cons b s ih =>
    have hcons : bitsOf (b :: s) = lowBits 8 b.toNat ++ bitsOf s := rfl
    rw [hcons, List.foldl_append, foldl_stepBit_byte, List.foldl_cons]
    exact ih _

end Poly

end VeriStore.Lib

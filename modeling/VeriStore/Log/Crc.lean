import VeriStore.Lib.Crc
import VeriStore.Log.Corruption

/-!
The checksum of the log is CRC-32.

`crc32` is CRC-32 as it is defined, bit by bit: the reflected polynomial, a register that begins with
all ones and is complemented at the end. `crc32Update` goes from byte to byte with a table, and the
complement at its beginning undoes the one at the end of the call before.

* `crc32Update_zero` — one call is the CRC-32 of its bytes;
* `foldl_crc32Update` — calls on the pieces of a string are one call on the string;
* `checksum_is_crc32` — the checksum of a record is the CRC-32 of its header, key and value.
-/

namespace VeriStore.Log

open VeriStore.Lib

/-- The polynomial of CRC-32, its bits reflected. -/
def crcPolynomial : UInt32 := 0xEDB88320

/-- **CRC-32**, one bit after the other. -/
def crc32 (d : Bytes) : UInt32 := ~~~((bitsOf d).foldl (stepBit crcPolynomial) 0xFFFFFFFF)

/-! ### The table -/

lemma crcShift_eq_stepBit (c : UInt32) : crcShift c = stepBit crcPolynomial c false := by
  unfold crcShift stepBit
  simp only [and_one_ne_zero_iff, Bool.xor_false, Nat.testBit_zero, decide_eq_true_eq]
  rfl

/-- The entries of the table are eight empty steps. -/
lemma crcEntry_eq : crcEntry = crcEntryOf crcPolynomial := by
  have hshift : crcShift = (stepBit crcPolynomial · false) := funext crcShift_eq_stepBit
  unfold crcEntry crcTable crcEntryOf
  rw [hshift]

/-- **A byte with the table is eight bits.** -/
lemma foldl_crcByte (d : Bytes) (c : UInt32) :
    d.foldl crcByte c = (bitsOf d).foldl (stepBit crcPolynomial) c := by
  have hbyte : crcByte = stepByte crcEntry := funext fun c => funext fun b => crcByte_eq c b
  rw [foldl_stepBit_bitsOf, hbyte, crcEntry_eq]

/-! ### Calls -/

/-- **One call** is the CRC-32 of its bytes. -/
lemma crc32Update_zero (d : Bytes) : crc32Update 0 d = crc32 d := by
  unfold crc32Update crc32
  rw [foldl_crcByte]
  rfl

/-- The complements between two calls cancel. -/
lemma crc32Update_append (crc : UInt32) (d d' : Bytes) :
    crc32Update crc (d ++ d') = crc32Update (crc32Update crc d) d' := by
  simp only [crc32Update, UInt32.not_not, List.foldl_append]

/-- **Calls on the pieces of a string** are one call on the string. -/
lemma foldl_crc32Update (pieces : List Bytes) (crc : UInt32) :
    pieces.foldl crc32Update crc = crc32Update crc pieces.flatten := by
  induction pieces generalizing crc with
  | nil => simp [crc32Update]
  | cons d pieces ih => rw [List.foldl_cons, ih, List.flatten_cons, crc32Update_append]

/-! ### Records -/

lemma checksum_eq_crc32 (header key val : Bytes) :
    checksum header key val = crc32 (header ++ key ++ val) := by
  rw [← crc32Update_zero, crc32Update_append, crc32Update_append]
  rfl

/-- **The checksum of the log is CRC-32, and it can be split anywhere.** One call from zero is the
CRC-32 of its bytes, and calls on the pieces of a string one after the other, from any value, are one
call on the string. So a record is written with the CRC-32 of its header, key and value taken
together, and the parts the replay cuts off the file are read as a record exactly when the trailer is
that of these parts. -/
theorem checksum_is_crc32 :
    (∀ d, crc32Update 0 d = crc32 d) ∧
    (∀ (pieces : List Bytes) crc, pieces.foldl crc32Update crc = crc32Update crc pieces.flatten) ∧
    (∀ r : Record, recordBytes r = (r.header.bytes ++ r.key ++ r.value.getD []) ++
      leBytes 4 (crc32 (r.header.bytes ++ r.key ++ r.value.getD [])).toNat) ∧
    ∀ hb key val stored s, RecordParts hb key val stored →
      readRecord (hb ++ (key ++ (val ++ (stored ++ s)))) =
        if (crc32 (hb ++ key ++ val)).toNat = leNat stored then
          some (⟨(WalHeader.ofBytes hb).seq, key,
            if (WalHeader.ofBytes hb).type = RecordType.put.code then some val else none⟩, s)
        else none := by
  refine ⟨crc32Update_zero, foldl_crc32Update, fun r => ?_, fun hb key val stored s hparts => ?_⟩
  · rw [← checksum_eq_crc32]
    rfl
  · rw [hparts.readRecord, checksum_eq_crc32]

/-- The header of a put of one byte under a key of one byte. -/
def tinyHeader : Bytes := (⟨kMagic, kVersion, RecordType.put.code, 1, 1, 1⟩ : WalHeader).bytes

/-- The check value of CRC-32, in one call and in three, and a record with another checksum. -/
theorem checksum_is_crc32_check :
    crc32 [49, 50, 51, 52, 53, 54, 55, 56, 57] = 0xCBF43926 ∧
    [[49, 50, 51, 52], [], [53, 54, 55, 56, 57]].foldl crc32Update 0 = 0xCBF43926 ∧
    readRecord (tinyHeader ++ ([97] ++ ([49] ++ ([0, 0, 0, 0] ++ [])))) = none := by
  obtain ⟨hone, hpieces, -, hread⟩ := checksum_is_crc32
  have hvalue : crc32 [49, 50, 51, 52, 53, 54, 55, 56, 57] = 0xCBF43926 := by decide +kernel
  refine ⟨hvalue, ?_, ?_⟩
  · rw [hpieces, hone]
    exact hvalue
  · have hparts : RecordParts tinyHeader [97] [49] [0, 0, 0, 0] := by
      constructor <;> decide
    rw [hread _ _ _ _ _ hparts, if_neg (by decide +kernel)]

end VeriStore.Log

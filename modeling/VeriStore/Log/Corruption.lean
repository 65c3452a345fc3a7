import VeriStore.Lib.Checksum
import VeriStore.Log.Scan

/-!
Corrupted records.

The checksum of a record is one of the table-driven checksums (`checksum_bytes`), and a shift of
the CRC register can be undone from its result, so that the top bytes of the table are different
(`crcTable_topInjective`). A change of at most four consecutive bytes behind the length fields
leaves the record its length, and its checksum does not fit any more.

* `readRecord_corrupted` — a record that was changed like this is not read;
* `corruption_detected` — the replay stops in front of it.
-/

namespace VeriStore.Log

open VeriStore.Lib

/-! ### The table -/

/-- The polynomial, where the bit that was moved out is set. -/
def crcFeedback (n : ℕ) : ℕ := if n % 2 = 1 then 0xEDB88320 else 0

lemma toNat_crcShift (c : UInt32) :
    (crcShift c).toNat = crcFeedback c.toNat ^^^ (c.toNat >>> 1) := by
  unfold crcShift crcFeedback
  simp only [and_one_ne_zero_iff]
  split
  · simp
  · simp

/-- **The top `k + 1` bits behind a shift** tell the bit that was moved out and the top `k` bits. -/
lemma crcShift_cancel {k : ℕ} (hk : k ≤ 31) {c c' : UInt32}
    (h : (crcShift c).toNat >>> (31 - k) = (crcShift c').toNat >>> (31 - k)) :
    crcFeedback c.toNat = crcFeedback c'.toNat ∧ c.toNat >>> (32 - k) = c'.toNat >>> (32 - k) := by
  have htop : ∀ x : UInt32, (crcShift x).toNat >>> 31 = x.toNat % 2 := fun x => by
    have hx : x.toNat >>> 1 >>> 31 = 0 := by
      rw [← Nat.shiftRight_add, Nat.shiftRight_eq_div_pow]
      exact Nat.div_eq_of_lt x.toNat_lt
    rw [toNat_crcShift, Nat.shiftRight_xor_distrib, hx, Nat.xor_zero, crcFeedback]
    split
    · next h1 => rw [h1]; rfl
    · next h1 => simp; omega
  have hbit := congrArg (· >>> k) h
  simp only [← Nat.shiftRight_add, show 31 - k + k = 31 by omega, htop] at hbit
  have hf : crcFeedback c.toNat = crcFeedback c'.toNat := by
    unfold crcFeedback
    rw [hbit]
  refine ⟨hf, ?_⟩
  rw [toNat_crcShift, toNat_crcShift, hf, Nat.shiftRight_xor_distrib, Nat.shiftRight_xor_distrib,
    ← Nat.shiftRight_add, ← Nat.shiftRight_add, show 1 + (31 - k) = 32 - k by omega] at h
  exact (xor_right_involutive _).injective h

/-- A shift can be undone. -/
lemma crcShift_injective : Function.Injective crcShift := by
  intro c c' h
  have hshift : (crcShift c).toNat >>> (31 - 31) = (crcShift c').toNat >>> (31 - 31) := by rw [h]
  obtain ⟨hf, hhigh⟩ := crcShift_cancel le_rfl hshift
  have hparity : c.toNat % 2 = c'.toNat % 2 := by
    unfold crcFeedback at hf
    split at hf <;> split at hf <;> simp_all
  simp only [Nat.shiftRight_eq_div_pow] at hhigh
  refine UInt32.toNat_inj.mp ?_
  omega

/-- **The top `k` bits behind `k` shifts** tell all that the polynomial has added. -/
lemma crcShift_iterate {k : ℕ} (hk : k ≤ 32) {c c' : UInt32}
    (h : (crcShift^[k] c).toNat >>> (32 - k) = (crcShift^[k] c').toNat >>> (32 - k)) :
    (crcShift^[k] c).toNat ^^^ (c.toNat >>> k) = (crcShift^[k] c').toNat ^^^ (c'.toNat >>> k) := by
  induction k with
  | zero => simp
  | succ k ih =>
    simp only [Function.iterate_succ_apply'] at h ⊢
    rw [show 32 - (k + 1) = 31 - k by omega] at h
    obtain ⟨hf, hrest⟩ := crcShift_cancel (by omega) h
    have hprev := congrArg (· >>> 1) (ih (by omega) hrest)
    simp only [Nat.shiftRight_xor_distrib, ← Nat.shiftRight_add] at hprev
    rw [toNat_crcShift, toNat_crcShift, hf, Nat.xor_assoc, Nat.xor_assoc, hprev]

/-- The table, at the index a byte. -/
def crcEntry (i : UInt8) : UInt32 := crcTable i.toUInt32

/-- **The top bytes of the table are different.** -/
lemma crcEntry_topInjective : TopInjective crcEntry := by
  intro i j h
  have hsame := crcShift_iterate (k := 8) (by omega) h
  rw [toNat_shiftRight_byte, toNat_shiftRight_byte, Nat.xor_zero, Nat.xor_zero] at hsame
  have hi := crcShift_injective.iterate 8 (UInt32.toNat_inj.mp hsame)
  rw [← UInt8.toUInt8_toUInt32 i, hi, UInt8.toUInt8_toUInt32]

/-! ### The checksum of a record -/

lemma crcByte_eq (c : UInt32) (b : UInt8) : crcByte c b = stepByte crcEntry c b := by
  have hindex : (c ^^^ b.toUInt32) &&& 0xFF = (c.toUInt8 ^^^ b).toUInt32 := by
    refine UInt32.toNat_inj.mp ?_
    rw [UInt32.toNat_and, UInt32.toNat_xor, UInt8.toNat_toUInt32, UInt8.toNat_toUInt32,
      UInt8.toNat_xor, UInt32.toNat_toUInt8]
    have hb : b.toNat % 2 ^ 8 = b.toNat := Nat.mod_eq_of_lt b.toNat_lt
    rw [← hb, ← Nat.xor_mod_two_pow, hb]
    exact Nat.and_two_pow_sub_one_eq_mod _ 8
  unfold crcByte stepByte crcEntry
  rw [hindex]

lemma not_eq_xor (c : UInt32) : ~~~c = c ^^^ 0xFFFFFFFF := by
  refine UInt32.toBitVec_inj.mp ?_
  exact BitVec.xor_allOnes.symm

/-- **The checksum behind a record** is that of its header, key and value taken together. -/
lemma checksum_bytes (hb key val : Bytes) : leBytes 4 (checksum hb key val).toNat =
    checksumOf crcEntry 0xFFFFFFFF 0xFFFFFFFF (hb ++ (key ++ val)) := by
  have hstep : crcByte = stepByte crcEntry := funext fun c => funext fun b => crcByte_eq c b
  have hzero : ~~~(0 : UInt32) = 0xFFFFFFFF := by decide
  have hnot : ∀ c : UInt32, ~~~(~~~c) = c := fun c => UInt32.not_not
  simp only [checksum, crc32Update, hnot, hzero, hstep]
  rw [not_eq_xor, checksumOf, List.foldl_append, List.foldl_append]

/-! ### A corrupted record -/

/-- Where the sequence number begins in the header: behind the lengths. -/
def seqOffset : ℕ := 15

/-- The fields in front of the sequence number. -/
lemma WalHeader.ofBytes_congr {hb hb' : Bytes} (h : hb.take seqOffset = hb'.take seqOffset) :
    (WalHeader.ofBytes hb).type = (WalHeader.ofBytes hb').type ∧
      (WalHeader.ofBytes hb).keyLen = (WalHeader.ofBytes hb').keyLen ∧
      (WalHeader.ofBytes hb).valLen = (WalHeader.ofBytes hb').valLen := by
  have hpart : ∀ i w, i + w ≤ seqOffset → (hb.drop i).take w = (hb'.drop i).take w := by
    intro i w hi
    have e := congrArg (fun l => (l.drop i).take w) h
    simpa only [List.drop_take, List.take_take, Nat.min_eq_left (show w ≤ seqOffset - i by omega)]
      using e
  unfold seqOffset at hpart
  simp only [WalHeader.ofBytes, hpart 6 1 (by omega), hpart 7 4 (by omega), hpart 11 4 (by omega),
    and_self]

/-- **A record with a short corruption is not read**: up to four consecutive bytes behind the
lengths, of which at least one is another. -/
theorem readRecord_corrupted {r : Record} (hr : r.Fits) {pre win win' post : Bytes}
    (h : recordBytes r = pre ++ (win ++ post)) (hstart : seqOffset ≤ pre.length)
    (hlen : win.length = win'.length) (hle : win.length ≤ 4) (hne : win ≠ win') (rest : Bytes) :
    readRecord (pre ++ (win' ++ post) ++ rest) = none := by
  by_contra hsome
  obtain ⟨⟨r', s'⟩, hread⟩ := Option.ne_none_iff_exists'.mp hsome
  obtain ⟨hb, key, val, stored, hs, hlb, hls, -, -, hty, hlk, hlv, hcrc, -⟩ :=
    readRecord_eq_some hread
  -- the lengths are those of the record
  have hhead : hb.take seqOffset = r.header.bytes.take seqOffset := by
    have e := congrArg (List.take seqOffset) hs
    have e' := congrArg (List.take seqOffset) h
    have h23 : seqOffset ≤ sizeofHeader := by decide
    simp only [recordBytes, List.append_assoc] at e e'
    rw [List.take_append_of_le_length hstart, List.take_append_of_le_length (by omega)] at e
    rw [List.take_append_of_le_length (by rw [WalHeader.bytes_length]; omega),
      List.take_append_of_le_length hstart] at e'
    exact e.symm.trans e'.symm
  obtain ⟨htype, hkey, hval⟩ := WalHeader.ofBytes_congr hhead
  rw [r.header_ofBytes hr] at htype hkey hval
  have hkl : key.length = r.key.length := by rw [hlk, hkey]; rfl
  have hvl : val.length = (r.value.getD []).length := by
    rw [hlv, htype, hval]
    split
    · rfl
    · next hput =>
      have hnone : r.value = none := by simpa [Record.header, r.code_eq_put] using hput
      simp [hnone]
  have hrlen := recordBytes_length r
  have htotal := congrArg List.length h
  simp only [List.length_append] at htotal
  -- both strings end with their checksums
  have hstored : stored = leBytes 4 (checksum hb key val).toNat := by
    rw [hcrc, ← hls, leBytes_leNat]
  have hall : pre ++ (win' ++ post) = (hb ++ (key ++ val)) ++
      checksumOf crcEntry 0xFFFFFFFF 0xFFFFFFFF (hb ++ (key ++ val)) := by
    rw [← checksum_bytes, ← hstored]
    have hboth : pre ++ (win' ++ post) ++ rest = (hb ++ (key ++ val)) ++ stored ++ s' := by
      rw [hs]
      simp
    refine List.append_inj_left hboth ?_
    simp only [List.length_append]
    omega
  have hold : pre ++ (win ++ post) = (r.header.bytes ++ (r.key ++ r.value.getD [])) ++
      checksumOf crcEntry 0xFFFFFFFF 0xFFFFFFFF (r.header.bytes ++ (r.key ++ r.value.getD [])) := by
    rw [← checksum_bytes, ← h]
    simp [recordBytes]
  exact hne (burst_detected crcEntry_topInjective hold hall hlen hle)

/-! ### A corrupted log -/

/-- A change inside the record `i` of a log, split off the records around it. -/
lemma encode_split {rs : List Record} {i : ℕ} (hi : i < rs.length) {pre win post : Bytes}
    (hfile : encode rs = pre ++ (win ++ post)) (hfrom : (encode (rs.take i)).length ≤ pre.length)
    (hto : pre.length + win.length ≤ (encode (rs.take (i + 1))).length) :
    ∃ pre' post', pre = encode (rs.take i) ++ pre' ∧ recordBytes rs[i] = pre' ++ (win ++ post') ∧
      post = post' ++ encode (rs.drop (i + 1)) := by
  have hsplit : encode rs = encode (rs.take i) ++ (recordBytes rs[i] ++ encode (rs.drop (i + 1))) := by
    rw [← encode_cons, ← List.drop_eq_getElem_cons hi, ← encode_append, List.take_append_drop]
  have hlen : (encode (rs.take (i + 1))).length =
      (encode (rs.take i)).length + (recordBytes rs[i]).length := by
    rw [List.take_succ_eq_append_getElem hi, encode_append]
    simp
  rw [hsplit] at hfile
  -- what stands in front of the record
  obtain ⟨pre', rfl⟩ : encode (rs.take i) <+: pre := by
    exact List.prefix_of_prefix_length_le (hfile ▸ List.prefix_append _ _)
      (List.prefix_append _ _) hfrom
  rw [List.append_assoc, List.append_cancel_left_eq, ← List.append_assoc] at hfile
  simp only [List.length_append] at hto
  -- and behind it
  obtain ⟨post', hpost⟩ : pre' ++ win <+: recordBytes rs[i] := by
    have hle : (pre' ++ win).length ≤ (recordBytes rs[i]).length := by
      rw [List.length_append]
      omega
    exact List.prefix_of_prefix_length_le (hfile ▸ List.prefix_append (pre' ++ win) post)
      (List.prefix_append _ _) hle
  refine ⟨pre', post', rfl, by rw [← hpost, List.append_assoc], ?_⟩
  rw [← hpost, List.append_assoc, List.append_assoc, List.append_assoc, List.append_cancel_left_eq,
    List.append_cancel_left_eq] at hfile
  exact hfile.symm

/-- **Short corruption is always detected**: where at most four consecutive bytes of the record `i`
behind its lengths are changed, and at least one of them is another, the replay applies the records
in front of it and stops there. -/
theorem corruption_detected {σ : Type} (apply : σ → Record → σ) (st : σ) {w : Wal}
    (hfd : w.fd.isSome) {rs : List Record} (hrs : ∀ r ∈ rs, r.Fits) {i : ℕ} (hi : i < rs.length)
    {pre win win' post : Bytes} (hfile : encode rs = pre ++ (win ++ post))
    (hfrom : (encode (rs.take i)).length + seqOffset ≤ pre.length)
    (hto : pre.length + win.length ≤ (encode (rs.take (i + 1))).length)
    (hlen : win.length = win'.length) (hle : win.length ≤ 4) (hne : win ≠ win') :
    let f := pre ++ (win' ++ post)
    let out := w.replayInto f apply st true
    out.1 = true ∧ w.appliedRecords f = rs.take i ∧ out.2.2.store = (rs.take i).foldl apply st ∧
      out.2.1.lastGoodOffset = (encode (rs.take i)).length := by
  intro f out
  obtain ⟨pre', post', rfl, hrec, rfl⟩ := encode_split hi hfile (by omega) hto
  rw [List.length_append] at hfrom
  have hstop : readRecord (pre' ++ (win' ++ post') ++ encode (rs.drop (i + 1))) = none :=
    readRecord_corrupted (hrs _ (List.getElem_mem hi)) hrec (by omega) hlen hle hne _
  have hf : f = encode (rs.take i) ++ (pre' ++ (win' ++ post') ++ encode (rs.drop (i + 1))) := by
    simp only [f, List.append_assoc]
  have hscan : Scan f (rs.take i) (pre' ++ (win' ++ post') ++ encode (rs.drop (i + 1))) := by
    rw [hf]
    simpa using Scan.encode (.stop hstop) fun r hr => hrs r (List.mem_of_mem_take hr)
  have hout : out = _ := hscan.replayInto hfd apply st
  refine ⟨by rw [hout], ?_, by rw [hout], ?_⟩
  · rw [Wal.appliedRecords_eq hfd, hscan.records_eq]
  · rw [hout, hf]
    simp

/-- A byte of the value and the first three of the checksum, in the first of two records. -/
theorem corruption_detected_straddling :
    openWal.appliedRecords ((encode smallLog).take 24 ++
      ([50, 0, 0, 0] ++ (encode smallLog).drop 28)) = [] := by
  have hfile : encode smallLog = (encode smallLog).take 24 ++
      (((encode smallLog).drop 24).take 4 ++ (encode smallLog).drop 28) := by decide +kernel
  have hne : ((encode smallLog).drop 24).take 4 ≠ [50, 0, 0, 0] := by decide +kernel
  have h := corruption_detected (fun _ _ => ()) () (w := openWal) rfl (i := 0)
    (show ∀ r ∈ smallLog, r.Fits by decide) (by decide) hfile (by decide +kernel)
    (by decide +kernel) (by decide +kernel) (by decide +kernel) hne
  exact h.2.1

end VeriStore.Log

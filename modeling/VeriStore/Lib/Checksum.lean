import Mathlib.Data.LawfulXor.Basic
import VeriStore.Lib.Bytes

/-!
Checksums computed with a table.

A register of 32 bits takes in one byte after the other: the byte and the low byte of the register
select an entry of the table, and the register moves down by one byte (`stepByte`). All that is
asked of the table is that the top bytes of its entries are different (`TopInjective`). Up to four
bytes can then be read off the top of the register that took them in.

* `foldl_stepByte_injective` — different registers stay different, whatever follows;
* `eq_of_topBytes` — the top `j` bytes of the register tell the last `j` bytes;
* `burst_detected` — of two strings that end with their checksums and differ in at most four
  consecutive bytes, both are the same.
-/

namespace VeriStore.Lib

/-! ### Parts of a number -/

/-- The bytes behind the first `k` ones are those of the quotient. -/
lemma leBytes_drop (k w n : ℕ) : (leBytes (k + w) n).drop k = leBytes w (n / 256 ^ k) := by
  induction k generalizing n with
  | zero => simp
  | succ k ih =>
    rw [show k + 1 + w = (k + w) + 1 by omega, leBytes, List.drop_succ_cons, ih,
      Nat.div_div_eq_div_mul, pow_succ, mul_comm]

lemma leBytes_injective {w n m : ℕ} (hn : n < 256 ^ w) (hm : m < 256 ^ w)
    (h : leBytes w n = leBytes w m) : n = m := by
  rw [← leNat_leBytes w n hn, h, leNat_leBytes w m hm]

lemma shiftRight_bytes (n k : ℕ) : n >>> (8 * k) = n / 256 ^ k := by
  rw [Nat.shiftRight_eq_div_pow, pow_mul]
  norm_num

/-- The lowest bit. -/
lemma and_one_ne_zero_iff (c : UInt32) : c &&& 1 ≠ 0 ↔ c.toNat % 2 = 1 := by
  have hlow : (c &&& 1).toNat = c.toNat % 2 := by
    rw [UInt32.toNat_and]
    exact Nat.and_one_is_mod _
  rw [ne_eq, ← UInt32.toNat_inj, hlow]
  simp

/-- Nothing of a byte is behind its eight bits. -/
lemma toNat_shiftRight_byte (b : UInt8) : b.toUInt32.toNat >>> 8 = 0 := by
  rw [UInt8.toNat_toUInt32, Nat.shiftRight_eq_div_pow]
  exact Nat.div_eq_of_lt b.toNat_lt

/-! ### One byte -/

/-- The register after one more byte. -/
def stepByte (table : UInt8 → UInt32) (c : UInt32) (b : UInt8) : UInt32 :=
  table (c.toUInt8 ^^^ b) ^^^ (c >>> 8)

/-- The top bytes of the entries are different. -/
def TopInjective (table : UInt8 → UInt32) : Prop :=
  ∀ i j, (table i).toNat >>> 24 = (table j).toNat >>> 24 → i = j

section Register

variable {table : UInt8 → UInt32}

lemma toNat_stepByte (c : UInt32) (b : UInt8) : (stepByte table c b).toNat =
    (table (c.toUInt8 ^^^ b)).toNat ^^^ (c.toNat >>> 8) := by
  simp [stepByte]

/-- Nothing of the old register is in the top byte of the new one. -/
lemma stepByte_top (c : UInt32) (b : UInt8) : (stepByte table c b).toNat >>> 24 =
    (table (c.toUInt8 ^^^ b)).toNat >>> 24 := by
  have hc : c.toNat >>> 8 >>> 24 = 0 := by
    rw [← Nat.shiftRight_add, Nat.shiftRight_eq_div_pow]
    exact Nat.div_eq_of_lt c.toNat_lt
  rw [toNat_stepByte, Nat.shiftRight_xor_distrib, hc, Nat.xor_zero]

/-- **The top `j + 1` bytes of the new register** tell the entry and the top `j` bytes of the old
one. -/
lemma stepByte_cancel (ht : TopInjective table) {j : ℕ} (hj : j ≤ 3) {c c' : UInt32} {b b' : UInt8}
    (h : (stepByte table c b).toNat >>> (24 - 8 * j) =
      (stepByte table c' b').toNat >>> (24 - 8 * j)) :
    c.toUInt8 ^^^ b = c'.toUInt8 ^^^ b' ∧ c.toNat >>> (32 - 8 * j) = c'.toNat >>> (32 - 8 * j) := by
  have htop := congrArg (· >>> (8 * j)) h
  simp only [← Nat.shiftRight_add, show 24 - 8 * j + 8 * j = 24 by omega, stepByte_top] at htop
  have hi := ht _ _ htop
  refine ⟨hi, ?_⟩
  -- the same entry was added to both
  rw [toNat_stepByte, toNat_stepByte, hi, Nat.shiftRight_xor_distrib, Nat.shiftRight_xor_distrib,
    ← Nat.shiftRight_add, ← Nat.shiftRight_add, show 8 + (24 - 8 * j) = 32 - 8 * j by omega] at h
  exact (xor_right_involutive _).injective h

/-- A register is known from the low byte and the rest. -/
lemma stepByte_injective (ht : TopInjective table) {c c' : UInt32} {b : UInt8}
    (h : stepByte table c b = stepByte table c' b) : c = c' := by
  have hsame : (stepByte table c b).toNat >>> (24 - 8 * 3) =
      (stepByte table c' b).toNat >>> (24 - 8 * 3) := by rw [h]
  obtain ⟨hlow, hhigh⟩ := stepByte_cancel ht le_rfl hsame
  have hbyte := congrArg UInt8.toNat ((xor_left_involutive b).injective hlow)
  rw [UInt32.toNat_toUInt8, UInt32.toNat_toUInt8] at hbyte
  simp only [Nat.shiftRight_eq_div_pow] at hhigh
  refine UInt32.toNat_inj.mp ?_
  omega

/-! ### Strings -/

/-- **Different registers stay different**, whatever follows. -/
lemma foldl_stepByte_injective (ht : TopInjective table) (s : Bytes) :
    Function.Injective fun c => s.foldl (stepByte table) c := by
  induction s with
  | nil => exact fun c c' h => h
  | cons b s ih => exact fun c c' h => stepByte_injective ht (ih h)

/-- **Up to four bytes are told by the top of the register** that took them in. -/
theorem eq_of_topBytes (ht : TopInjective table) {j : ℕ} (hj : j ≤ 4) {s t : Bytes}
    (hs : s.length = j) (ht' : t.length = j) {c : UInt32}
    (h : (s.foldl (stepByte table) c).toNat >>> (32 - 8 * j) =
      (t.foldl (stepByte table) c).toNat >>> (32 - 8 * j)) : s = t := by
  induction j generalizing s t with
  | zero => rw [List.eq_nil_of_length_eq_zero hs, List.eq_nil_of_length_eq_zero ht']
  | succ j ih =>
    obtain rfl | ⟨s, a, rfl⟩ := List.eq_nil_or_concat' s
    · simp at hs
    obtain rfl | ⟨t, b, rfl⟩ := List.eq_nil_or_concat' t
    · simp at ht'
    rw [List.length_append, List.length_singleton, Nat.add_right_cancel_iff] at hs ht'
    rw [List.foldl_append, List.foldl_append, show 32 - 8 * (j + 1) = 24 - 8 * j by omega] at h
    -- the last bytes select the same entry, and the others are told by what is left
    obtain ⟨hi, hrest⟩ := stepByte_cancel ht (by omega) h
    obtain rfl := ih (by omega) hs ht' hrest
    rw [(xor_right_involutive _).injective hi]

/-! ### Strings that end with their checksum -/

/-- The checksum of a string: the register behind it, with the bits of a mask turned over. -/
def checksumOf (table : UInt8 → UInt32) (c mask : UInt32) (d : Bytes) : Bytes :=
  leBytes 4 (d.foldl (stepByte table) c ^^^ mask).toNat

lemma checksumOf_length (c mask : UInt32) (d : Bytes) : (checksumOf table c mask d).length = 4 :=
  leBytes_length _ _

/-- The last `j` bytes of a checksum are the top of the register. -/
lemma topBytes_of_drop {j : ℕ} (hj : j ≤ 4) {x y mask : UInt32}
    (h : (leBytes 4 (x ^^^ mask).toNat).drop (4 - j) = (leBytes 4 (y ^^^ mask).toNat).drop (4 - j)) :
    x.toNat >>> (32 - 8 * j) = y.toNat >>> (32 - 8 * j) := by
  have hlt : ∀ z : UInt32, z.toNat / 256 ^ (4 - j) < 256 ^ j := fun z => by
    rw [Nat.div_lt_iff_lt_mul (by positivity), ← pow_add, show j + (4 - j) = 4 by omega]
    exact z.toNat_lt
  have hsplit : ∀ n, (leBytes 4 n).drop (4 - j) = leBytes j (n / 256 ^ (4 - j)) := fun n => by
    rw [← leBytes_drop, show 4 - j + j = 4 by omega]
  rw [hsplit, hsplit] at h
  have hdiv := leBytes_injective (hlt _) (hlt _) h
  rw [← shiftRight_bytes, ← shiftRight_bytes, show 8 * (4 - j) = 32 - 8 * j by omega,
    UInt32.toNat_xor, UInt32.toNat_xor, Nat.shiftRight_xor_distrib, Nat.shiftRight_xor_distrib] at hdiv
  exact (xor_left_involutive _).injective hdiv

/-- A burst inside the data changes the checksum. -/
lemma eq_of_checksumOf (ht : TopInjective table) {c mask : UInt32} {pre win win' q : Bytes}
    (hlen : win.length = win'.length) (hle : win.length ≤ 4)
    (h : checksumOf table c mask (pre ++ win ++ q) = checksumOf table c mask (pre ++ win' ++ q)) :
    win = win' := by
  have hreg := leBytes_injective (UInt32.toNat_lt _) (UInt32.toNat_lt _) h
  have hfold := (xor_left_involutive mask).injective (UInt32.toNat_inj.mp hreg)
  simp only [List.foldl_append] at hfold
  have hwin := foldl_stepByte_injective ht q hfold
  exact eq_of_topBytes ht hle rfl hlen.symm (congrArg (fun c : UInt32 => c.toNat >>> _) hwin)

/-- The last `j` bytes of the data are told by the last `j` bytes of the checksum. -/
lemma eq_of_checksumOf_drop (ht : TopInjective table) {c mask : UInt32} {m j : ℕ} (hj : j ≤ 4)
    {d d' : Bytes} (hd : d.length = m + j) (hd' : d'.length = m + j) (htake : d.take m = d'.take m)
    (h : (checksumOf table c mask d).drop (4 - j) = (checksumOf table c mask d').drop (4 - j)) :
    d = d' := by
  have htop := topBytes_of_drop hj h
  rw [← List.take_append_drop m d, ← List.take_append_drop m d', List.foldl_append,
    List.foldl_append, htake] at htop
  have hlast := eq_of_topBytes ht hj (by simp [hd]) (by simp [hd']) htop
  rw [← List.take_append_drop m d, htake, hlast, List.take_append_drop]

/-- **A burst of at most four bytes is detected**: two strings with their checksums that differ
only there are the same. -/
theorem burst_detected (ht : TopInjective table) {c mask : UInt32} {pre win win' post d d' : Bytes}
    (h : pre ++ (win ++ post) = d ++ checksumOf table c mask d)
    (h' : pre ++ (win' ++ post) = d' ++ checksumOf table c mask d')
    (hlen : win.length = win'.length) (hle : win.length ≤ 4) : win = win' := by
  have htotal := congrArg List.length h
  have htotal' := congrArg List.length h'
  simp only [List.length_append, checksumOf_length] at htotal htotal'
  by_cases hin : pre.length + win.length ≤ d.length
  · -- the burst is in the data, and what follows it is the same
    obtain ⟨q, rfl⟩ : pre ++ win <+: d := List.prefix_of_prefix_length_le ⟨post, by simp⟩
      (h ▸ List.prefix_append d _) (by simpa using hin)
    obtain ⟨q', rfl⟩ : pre ++ win' <+: d' := List.prefix_of_prefix_length_le ⟨post, by simp⟩
      (h' ▸ List.prefix_append d' _) (by simp; omega)
    simp only [List.append_assoc, List.append_cancel_left_eq] at h h'
    simp only [List.length_append] at htotal htotal'
    obtain ⟨rfl, hsum⟩ := List.append_inj (h.symm.trans h') (by omega)
    exact eq_of_checksumOf ht hlen hle (by simpa using hsum)
  · -- the burst reaches into the checksum, of which the last `j` bytes are the same
    obtain ⟨m, j, hm, hmj⟩ : ∃ m j, d.length = m + j ∧
        ((j = 0 ∧ d.length ≤ pre.length) ∨ m = pre.length) := by
      by_cases hpre : d.length ≤ pre.length
      · exact ⟨d.length, 0, rfl, Or.inl ⟨rfl, hpre⟩⟩
      · exact ⟨pre.length, d.length - pre.length, by omega, Or.inr rfl⟩
    have htake : ∀ w t d₁ : Bytes, d₁.length = d.length → pre ++ (w ++ post) = d₁ ++ t →
        d₁.take m = pre.take m := fun w t d₁ hd₁ e => by
      have e := congrArg (List.take m) e
      rwa [List.take_append_of_le_length (by omega), List.take_append_of_le_length (by omega),
        eq_comm] at e
    have hdrop : ∀ w t d₁ : Bytes, d₁.length = d.length → w.length = win.length →
        pre ++ (w ++ post) = d₁ ++ t →
          t.drop (4 - j) = post.drop (d.length + (4 - j) - pre.length - win.length) := by
      intro w t d₁ hd₁ hw e
      have hleft : (pre ++ (w ++ post)).drop (d.length + (4 - j)) =
          post.drop (d.length + (4 - j) - pre.length - win.length) := by
        rw [List.drop_append, List.drop_append, List.drop_eq_nil_of_le (by omega),
          List.drop_eq_nil_of_le (by omega), hw]
        rfl
      have hright : (d₁ ++ t).drop (d.length + (4 - j)) = t.drop (4 - j) := by
        rw [List.drop_append, List.drop_eq_nil_of_le (by omega), hd₁, Nat.add_sub_cancel_left]
        rfl
      rw [← hright, ← e, hleft]
    obtain rfl : d = d' := eq_of_checksumOf_drop ht (by omega) hm (by omega)
      ((htake _ _ _ rfl h).trans (htake _ _ _ (by omega) h').symm)
      ((hdrop _ _ _ rfl rfl h).trans (hdrop _ _ _ (by omega) hlen.symm h').symm)
    exact List.append_inj_left (List.append_cancel_left (h.trans h'.symm)) hlen

end Register

end VeriStore.Lib

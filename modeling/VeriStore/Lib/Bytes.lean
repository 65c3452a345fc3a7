import Mathlib.Tactic

/-!
Byte strings and fixed-width little-endian numbers.

A byte string is a list of bytes. `leBytes w n` writes the low `w` bytes of `n`, least
significant first, `leNat` reads a byte string back as a number, and `readExact n` takes exactly
`n` bytes off the front of a stream or fails, as a read that meets the end of the file does.
-/

namespace VeriStore.Lib

/-- A byte string. -/
abbrev Bytes := List UInt8

instance : LawfulBEq Bytes := inferInstance

/-! ### Little-endian numbers -/

/-- The low `w` bytes of `n`, least significant first. -/
def leBytes : ℕ → ℕ → Bytes
  | 0, _ => []
  | w + 1, n => UInt8.ofNat (n % 256) :: leBytes w (n / 256)

/-- The number a byte string reads, least significant byte first. -/
def leNat : Bytes → ℕ
  | [] => 0
  | b :: s => b.toNat + 256 * leNat s

@[simp] lemma leBytes_length (w n : ℕ) : (leBytes w n).length = w := by
  induction w generalizing n with
  | zero => rfl
  | succ w ih => simp [leBytes, ih]

lemma leNat_lt (s : Bytes) : leNat s < 256 ^ s.length := by
  induction s with
  | nil => simp [leNat]
  | cons b s ih =>
    have hb : b.toNat < 256 := b.toNat_lt
    simp only [leNat, List.length_cons, pow_succ]
    omega

lemma leNat_leBytes (w n : ℕ) (h : n < 256 ^ w) : leNat (leBytes w n) = n := by
  induction w generalizing n with
  | zero => simp only [pow_zero, Nat.lt_one_iff] at h; simp [leBytes, leNat, h]
  | succ w ih =>
    have hd : n / 256 < 256 ^ w := by
      rw [pow_succ] at h
      exact Nat.div_lt_of_lt_mul (by rwa [mul_comm] at h)
    simp only [leBytes, leNat, ih _ hd, UInt8.toNat_ofNat']
    omega

lemma leBytes_leNat (s : Bytes) : leBytes s.length (leNat s) = s := by
  induction s with
  | nil => rfl
  | cons b s ih =>
    have hb : b.toNat < 256 := b.toNat_lt
    have h1 : (b.toNat + 256 * leNat s) % 256 = b.toNat := by omega
    have h2 : (b.toNat + 256 * leNat s) / 256 = leNat s := by omega
    simp only [List.length_cons, leBytes, leNat, h1, h2, ih, UInt8.ofNat_toNat]

/-- The bits above the width are not written. -/
lemma leBytes_mod (w n : ℕ) : leBytes w (n % 256 ^ w) = leBytes w n := by
  induction w generalizing n with
  | zero => rfl
  | succ w ih =>
    have h1 : n % 256 ^ (w + 1) % 256 = n % 256 := by
      rw [pow_succ]
      exact Nat.mod_mul_left_mod n (256 ^ w) 256
    have h2 : n % 256 ^ (w + 1) / 256 = n / 256 % 256 ^ w := by
      rw [pow_succ, mul_comm, Nat.mod_mul_right_div_self]
    simp only [leBytes, h1, h2, ih]

/-! ### Exact reads -/

/-- Take exactly `n` bytes off the front, or fail at the end of the stream. -/
def readExact (n : ℕ) (s : Bytes) : Option (Bytes × Bytes) :=
  if n ≤ s.length then some (s.take n, s.drop n) else none

lemma readExact_append (a s : Bytes) : readExact a.length (a ++ s) = some (a, s) := by
  simp [readExact]

lemma readExact_eq_some {n : ℕ} {s a r : Bytes} (h : readExact n s = some (a, r)) :
    s = a ++ r ∧ a.length = n := by
  unfold readExact at h
  split at h
  · next hn =>
    simp only [Option.some.injEq, Prod.mk.injEq] at h
    obtain ⟨rfl, rfl⟩ := h
    exact ⟨(List.take_append_drop n s).symm, by simp [hn]⟩
  · simp at h

end VeriStore.Lib

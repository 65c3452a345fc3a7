import Mathlib.Data.List.TakeWhile
import VeriStore.Lib.Bytes

/-!
Text read and written the way C++ streams do: decimal numbers, the lines `std::getline`
returns, and the formatted extractions `>>` of a word, an unsigned 64-bit number and a single
character, all in the classic locale.

An extraction returns what it read and the rest of the stream, or `none` when the stream would
set its fail bit.
-/

namespace VeriStore.Lib

/-! ### Decimal numbers -/

/-- The byte of an ASCII character. -/
def ascii (c : Char) : UInt8 := UInt8.ofNat c.toNat

/-- The bytes of an ASCII text. -/
def text (s : String) : Bytes := s.toList.map ascii

/-- A number in decimal, as `operator<<` prints it. -/
def decimal (n : ℕ) : Bytes := (Nat.toDigits 10 n).map ascii

/-- The byte is a decimal digit. -/
def isDigit (b : UInt8) : Bool := 48 ≤ b && b ≤ 57

/-- The number a string of decimal digits reads. -/
def digitsVal (s : Bytes) : ℕ := s.foldl (fun n b => 10 * n + (b.toNat - 48)) 0

lemma digitsVal_append_singleton (s : Bytes) (b : UInt8) :
    digitsVal (s ++ [b]) = 10 * digitsVal s + (b.toNat - 48) := by
  simp [digitsVal]

lemma ascii_digitChar {d : ℕ} (hd : d < 10) : ascii d.digitChar = UInt8.ofNat (48 + d) := by
  unfold ascii
  rw [Nat.toNat_digitChar_of_lt_ten hd]

lemma toNat_ascii_digitChar {d : ℕ} (hd : d < 10) : (ascii d.digitChar).toNat = 48 + d := by
  rw [ascii_digitChar hd, UInt8.toNat_ofNat']
  omega

lemma decimal_of_lt {d : ℕ} (hd : d < 10) : decimal d = [ascii d.digitChar] := by
  unfold decimal
  rw [Nat.toDigits_of_lt_base hd]
  rfl

lemma decimal_step {n : ℕ} (hn : 10 ≤ n) :
    decimal n = decimal (n / 10) ++ [ascii (n % 10).digitChar] := by
  have hd : n % 10 < 10 := Nat.mod_lt _ (by omega)
  have h := Nat.toDigits_append_toDigits (b := 10) (n := n / 10) (d := n % 10) (by omega)
    (by omega) hd
  rw [Nat.div_add_mod, Nat.toDigits_of_lt_base hd] at h
  unfold decimal
  rw [← h]
  simp

/-- **Decimal printing is read back.** -/
lemma digitsVal_decimal (n : ℕ) : digitsVal (decimal n) = n := by
  induction n using Nat.strong_induction_on with
  | _ n ih =>
    by_cases hn : n < 10
    · simp [decimal_of_lt hn, digitsVal, toNat_ascii_digitChar hn]
    · rw [decimal_step (by omega), digitsVal_append_singleton, ih _ (by omega),
        toNat_ascii_digitChar (Nat.mod_lt _ (by omega))]
      omega

lemma decimal_injective : Function.Injective decimal := fun m n h => by
  rw [← digitsVal_decimal m, h, digitsVal_decimal]

lemma decimal_ne_nil (n : ℕ) : decimal n ≠ [] := by
  by_cases hn : n < 10
  · simp [decimal_of_lt hn]
  · simp [decimal_step (n := n) (by omega)]

lemma isDigit_of_mem_decimal (n : ℕ) : ∀ b ∈ decimal n, isDigit b = true := by
  have hdig : ∀ d, d < 10 → isDigit (ascii d.digitChar) = true := by decide
  induction n using Nat.strong_induction_on with
  | _ n ih =>
    intro b hb
    by_cases hn : n < 10
    · rw [decimal_of_lt hn, List.mem_singleton] at hb
      rw [hb]
      exact hdig n hn
    · rw [decimal_step (by omega), List.mem_append, List.mem_singleton] at hb
      rcases hb with hb | rfl
      · exact ih _ (by omega) b hb
      · exact hdig _ (Nat.mod_lt _ (by omega))

/-- The digits behind a number shift it. -/
lemma digitsVal_append (s u : Bytes) :
    digitsVal (s ++ u) = digitsVal s * 10 ^ u.length + digitsVal u := by
  induction u using List.reverseRecOn with
  | nil => simp [digitsVal]
  | append_singleton u b ih =>
    rw [← List.append_assoc, digitsVal_append_singleton, digitsVal_append_singleton, ih,
      List.length_append, List.length_singleton, pow_succ]
    ring

lemma digitsVal_lt {s : Bytes} (hs : ∀ b ∈ s, isDigit b = true) : digitsVal s < 10 ^ s.length := by
  induction s using List.reverseRecOn with
  | nil => simp [digitsVal]
  | append_singleton s b ih =>
    have h := ih fun b hb => hs b (List.mem_append_left _ hb)
    have hb : b.toNat ≤ 57 := by
      have hd := hs b (by simp)
      simp only [isDigit, Bool.and_eq_true, decide_eq_true_eq, UInt8.le_iff_toNat_le] at hd
      exact hd.2
    rw [digitsVal_append_singleton, List.length_append, List.length_singleton, pow_succ]
    omega

/-- The first digits of a number. -/
lemma digitsVal_of_prefix {s u : Bytes} (h : s <+: u) (hu : ∀ b ∈ u, isDigit b = true) :
    ∃ k, digitsVal s = digitsVal u / 10 ^ k := by
  obtain ⟨v, rfl⟩ := h
  have hv := digitsVal_lt fun b hb => hu b (List.mem_append_right s hb)
  refine ⟨v.length, ?_⟩
  rw [digitsVal_append, Nat.add_comm, Nat.add_mul_div_right _ _ (by positivity),
    Nat.div_eq_of_lt hv, Nat.zero_add]

/-! ### Lines -/

abbrev tab : UInt8 := 9
abbrev newline : UInt8 := 10

/-- The lines `std::getline` returns, `cur` being what the current line already holds. A final
line needs no newline, and nothing after the last newline is no line. -/
def linesFrom : Bytes → Bytes → List Bytes
  | cur, [] => if cur = [] then [] else [cur]
  | cur, b :: s => if b = newline then cur :: linesFrom [] s else linesFrom (cur ++ [b]) s

/-- All lines of a text. -/
def lines (s : Bytes) : List Bytes := linesFrom [] s

lemma linesFrom_append (cur : Bytes) {l s : Bytes} (hl : newline ∉ l) :
    linesFrom cur (l ++ newline :: s) = (cur ++ l) :: lines s := by
  induction l generalizing cur with
  | nil => simp [linesFrom, lines]
  | cons b l ih =>
    simp only [List.mem_cons, not_or] at hl
    simp only [List.cons_append, linesFrom, if_neg (Ne.symm hl.1), ih _ hl.2]
    simp

@[simp] lemma lines_nil : lines [] = [] := rfl

/-- **One line, and then the rest.** -/
lemma lines_append {l s : Bytes} (hl : newline ∉ l) : lines (l ++ newline :: s) = l :: lines s := by
  simpa [lines] using linesFrom_append [] hl

/-- A text without a newline is one line. -/
lemma lines_eq_singleton {l : Bytes} (hne : l ≠ []) (hl : newline ∉ l) : lines l = [l] := by
  have hfrom : ∀ cur : Bytes, cur ++ l ≠ [] → linesFrom cur l = [cur ++ l] := by
    clear hne
    induction l with
    | nil => intro cur hne; simpa [linesFrom] using hne
    | cons b l ih =>
      simp only [List.mem_cons, not_or] at hl
      intro cur _
      rw [linesFrom, if_neg (Ne.symm hl.1), ih hl.2 _ (by simp)]
      simp
  simpa [lines] using hfrom [] (by simpa using hne)

/-- **Induction on the lines of a text**: nothing, a last line without its newline, or one line in
front of a text. -/
@[elab_as_elim]
lemma lines_induction {motive : Bytes → Prop} (nil : motive [])
    (last : ∀ l, l ≠ [] → newline ∉ l → motive l)
    (line : ∀ l t, newline ∉ l → motive t → motive (l ++ newline :: t)) (s : Bytes) : motive s := by
  induction hn : s.length using Nat.strong_induction_on generalizing s with
  | _ n ih =>
    by_cases hmem : newline ∈ s
    · obtain ⟨l, t, rfl, hl⟩ := List.eq_append_cons_of_mem hmem
      refine line l t hl (ih t.length ?_ t rfl)
      rw [← hn, List.length_append, List.length_cons]
      omega
    · by_cases hnil : s = []
      · exact hnil ▸ nil
      · exact last s hnil hmem

/-- No line holds a newline. -/
lemma newline_notMem_of_mem_lines {s l : Bytes} (h : l ∈ lines s) : newline ∉ l := by
  induction s using lines_induction with
  | nil => simp at h
  | last l' hne hl =>
    rw [lines_eq_singleton hne hl, List.mem_singleton] at h
    exact h ▸ hl
  | line l' t hl ih =>
    rw [lines_append hl] at h
    rcases List.mem_cons.mp h with rfl | h
    · exact hl
    · exact ih h

/-- The text is empty or ends with a newline. -/
def WholeLines (s : Bytes) : Prop := s = [] ∨ s.getLast? = some newline

instance (s : Bytes) : Decidable (WholeLines s) :=
  inferInstanceAs (Decidable (s = [] ∨ s.getLast? = some newline))

lemma wholeLines_concat (s : Bytes) : WholeLines (s ++ [newline]) := Or.inr (by simp)

/-- A line in front changes nothing at the end. -/
lemma wholeLines_line (l t : Bytes) : WholeLines (l ++ newline :: t) ↔ WholeLines t := by
  cases t with
  | nil => simp [WholeLines]
  | cons b t => simp [WholeLines, List.getLast?_append, List.getLast?_cons]

lemma not_wholeLines {l : Bytes} (hne : l ≠ []) (hl : newline ∉ l) : ¬ WholeLines l := by
  rintro (h | h)
  · exact hne h
  · exact hl (List.mem_of_getLast? h)

/-- **Behind whole lines** comes what follows them. -/
lemma lines_append_of_whole {s : Bytes} (h : WholeLines s) (t : Bytes) :
    lines (s ++ t) = lines s ++ lines t := by
  induction s using lines_induction with
  | nil => rfl
  | last l hne hl => exact absurd h (not_wholeLines hne hl)
  | line l s hl ih =>
    rw [List.append_assoc, List.cons_append, lines_append hl, lines_append hl, List.cons_append,
      ih ((wholeLines_line l s).mp h)]

/-- A text that does not end with a newline ends with part of a line. -/
lemma exists_last_line {s : Bytes} (h : ¬ WholeLines s) :
    ∃ a t, s = a ++ t ∧ WholeLines a ∧ t ≠ [] ∧ newline ∉ t := by
  induction s using List.reverseRecOn with
  | nil => exact absurd (Or.inl rfl) h
  | append_singleton s b ih =>
    have hb : newline ≠ b := by
      rintro rfl
      exact h (wholeLines_concat s)
    by_cases hs : WholeLines s
    · exact ⟨s, [b], rfl, hs, by simp, by simpa using hb⟩
    · obtain ⟨a, t, rfl, ha, ht, hnl⟩ := ih hs
      exact ⟨a, t ++ [b], by simp, ha, by simp, by simpa [hb] using hnl⟩

/-! ### Formatted extraction -/

/-- A white-space byte of the classic locale. -/
def isSpace (b : UInt8) : Bool := b == 32 || (9 ≤ b && b ≤ 13)

/-- Skip leading white space, as `std::ws` does. -/
def skipWs (s : Bytes) : Bytes := s.dropWhile isSpace

/-- `>>` into a string: the next word. -/
def extractString (s : Bytes) : Option (Bytes × Bytes) :=
  if skipWs s = [] then none
  else some ((skipWs s).takeWhile (!isSpace ·), (skipWs s).dropWhile (!isSpace ·))

/-- The sign in front of a number, and what follows it. -/
def readSign : Bytes → Bool × Bytes
  | 45 :: s => (true, s)
  | 43 :: s => (false, s)
  | s => (false, s)

/-- `>>` into an unsigned 64-bit number, and `std::stoull`: white space, an optional sign, at
least one digit; a value that does not fit fails, and a negative one wraps around. -/
def extractU64 (s : Bytes) : Option (ℕ × Bytes) :=
  let (neg, s1) := readSign (skipWs s)
  let ds := s1.takeWhile isDigit
  if ds = [] ∨ 2 ^ 64 ≤ digitsVal ds then none
  else some (if neg then (2 ^ 64 - digitsVal ds) % 2 ^ 64 else digitsVal ds, s1.dropWhile isDigit)

/-- `>>` into a character: the next byte that is not white space. -/
def extractChar (s : Bytes) : Option (UInt8 × Bytes) :=
  match skipWs s with
  | [] => none
  | b :: r => some (b, r)

/-- A non-empty string without white space. -/
def Word (s : Bytes) : Prop := s ≠ [] ∧ ∀ b ∈ s, isSpace b = false

instance (s : Bytes) : Decidable (Word s) :=
  @instDecidableAnd _ _ inferInstance (List.decidableBAll (fun b => isSpace b = false) s)

lemma skipWs_cons {b : UInt8} {s : Bytes} (hb : isSpace b = true) : skipWs (b :: s) = skipWs s := by
  simp [skipWs, hb]

lemma skipWs_of_head {s : Bytes} (h : ∀ b, s.head? = some b → isSpace b = false) : skipWs s = s := by
  cases s with
  | nil => rfl
  | cons b s => simp [skipWs, h b rfl]

lemma takeWhile_append_stop {p : UInt8 → Bool} {a s : Bytes} (ha : ∀ b ∈ a, p b = true)
    (hs : ∀ b, s.head? = some b → p b = false) :
    (a ++ s).takeWhile p = a ∧ (a ++ s).dropWhile p = s := by
  induction a with
  | nil =>
    cases s with
    | nil => simp
    | cons b s => simp [hs b rfl]
  | cons b a ih =>
    obtain ⟨h1, h2⟩ := ih fun x hx => ha x (List.mem_cons_of_mem _ hx)
    simp [ha b (by simp), h1, h2]

/-- **A word is read up to the white space after it.** -/
lemma extractString_word {w s : Bytes} (hw : Word w)
    (hs : ∀ b, s.head? = some b → isSpace b = true) : extractString (w ++ s) = some (w, s) := by
  obtain ⟨hne, hsp⟩ := hw
  have hskip : skipWs (w ++ s) = w ++ s := by
    refine skipWs_of_head fun b hb => ?_
    cases w with
    | nil => exact absurd rfl hne
    | cons c w =>
      simp only [List.cons_append, List.head?_cons, Option.some.injEq] at hb
      exact hb ▸ hsp c (by simp)
  obtain ⟨h1, h2⟩ := takeWhile_append_stop (p := (!isSpace ·)) (a := w) (s := s)
    (fun b hb => by simp [hsp b hb]) (fun b hb => by simp [hs b hb])
  unfold extractString
  rw [hskip, if_neg (by simp [hne]), h1, h2]

/-- White space in front of a word is skipped. -/
lemma extractString_cons {b : UInt8} {s : Bytes} (hb : isSpace b = true) :
    extractString (b :: s) = extractString s := by
  unfold extractString
  rw [skipWs_cons hb]

lemma isSpace_of_isDigit {b : UInt8} (h : isDigit b = true) : isSpace b = false := by
  have h48 : (48 : UInt8).toNat = 48 := rfl
  have h13 : (13 : UInt8).toNat = 13 := rfl
  simp only [isDigit, Bool.and_eq_true, decide_eq_true_eq, UInt8.le_iff_toNat_le] at h
  have h1 : ¬ b.toNat ≤ 13 := by omega
  have h2 : b ≠ 32 := by
    rintro rfl
    exact absurd h.1 (by decide)
  simp [isSpace, h2, UInt8.le_iff_toNat_le, h1]

lemma readSign_of_digit {s : Bytes} (h : ∀ b, s.head? = some b → isDigit b = true) :
    readSign s = (false, s) := by
  unfold readSign
  split
  · next s' => exact absurd (h 45 rfl) (by decide)
  · next s' => exact absurd (h 43 rfl) (by decide)
  · rfl

/-- **A printed number is read up to the first byte that is no digit.** -/
lemma extractU64_decimal {n : ℕ} (hn : n < 2 ^ 64) {s : Bytes}
    (hs : ∀ b, s.head? = some b → isDigit b = false) :
    extractU64 (decimal n ++ s) = some (n, s) := by
  have hhead : ∀ b, (decimal n ++ s).head? = some b → isDigit b = true := by
    intro b hb
    cases hd : decimal n with
    | nil => exact absurd hd (decimal_ne_nil n)
    | cons c r =>
      rw [hd] at hb
      simp only [List.cons_append, List.head?_cons, Option.some.injEq] at hb
      exact hb ▸ isDigit_of_mem_decimal n c (by rw [hd]; simp)
  have hskip : skipWs (decimal n ++ s) = decimal n ++ s :=
    skipWs_of_head fun b hb => isSpace_of_isDigit (hhead b hb)
  obtain ⟨h1, h2⟩ := takeWhile_append_stop (p := isDigit) (isDigit_of_mem_decimal n) hs
  unfold extractU64
  rw [hskip, readSign_of_digit hhead]
  simp only [h1, h2, digitsVal_decimal, Bool.false_eq_true, if_false]
  rw [if_neg]
  simp only [decimal_ne_nil, false_or, not_le]
  exact hn

/-- White space in front of a number is skipped. -/
lemma extractU64_cons {b : UInt8} {s : Bytes} (hb : isSpace b = true) :
    extractU64 (b :: s) = extractU64 s := by
  unfold extractU64
  rw [skipWs_cons hb]

/-- A character behind one byte of white space. -/
lemma extractChar_cons {b c : UInt8} {s : Bytes} (hb : isSpace b = true) (hc : isSpace c = false) :
    extractChar (b :: c :: s) = some (c, s) := by
  have hskip : skipWs (b :: c :: s) = c :: s := by
    rw [skipWs_cons hb]
    refine skipWs_of_head fun x hx => ?_
    rw [List.head?_cons, Option.some.injEq] at hx
    exact hx ▸ hc
  unfold extractChar
  rw [hskip]

/-! ### What an extraction has read -/

lemma skipWs_suffix (s : Bytes) : skipWs s <:+ s := List.dropWhile_suffix _

lemma head_skipWs {s : Bytes} {b : UInt8} (h : (skipWs s).head? = some b) : isSpace b = false := by
  have hnot := List.head?_dropWhile_not isSpace s
  unfold skipWs at h
  simpa [h] using hnot

/-- A word was read, and the rest is a part of the text. -/
lemma extractString_some {s w r : Bytes} (h : extractString s = some (w, r)) :
    Word w ∧ r <:+ s := by
  unfold extractString at h
  split at h
  · simp at h
  · next hne =>
    obtain ⟨rfl, rfl⟩ := Prod.mk.inj (Option.some.inj h)
    refine ⟨⟨?_, fun b hb => by simpa using List.mem_takeWhile_imp hb⟩,
      (List.dropWhile_suffix _).trans (skipWs_suffix s)⟩
    obtain ⟨b, l, hl⟩ := List.exists_cons_of_ne_nil hne
    have hb : isSpace b = false := head_skipWs (s := s) (by rw [hl]; rfl)
    rw [hl, List.takeWhile_cons, hb]
    simp

lemma readSign_suffix (s : Bytes) : (readSign s).2 <:+ s := by
  unfold readSign
  split
  · exact List.suffix_cons _ _
  · exact List.suffix_cons _ _
  · exact List.suffix_rfl

/-- A number that was read has 64 bits. -/
lemma extractU64_some {s r : Bytes} {n : ℕ} (h : extractU64 s = some (n, r)) :
    n < 2 ^ 64 ∧ r <:+ s := by
  unfold extractU64 at h
  simp only at h
  split at h
  · simp at h
  · next hds =>
    obtain ⟨hn, rfl⟩ := Prod.mk.inj (Option.some.inj h)
    refine ⟨?_, (List.dropWhile_suffix _).trans ((readSign_suffix _).trans (skipWs_suffix s))⟩
    simp only [not_or, not_le] at hds
    split at hn
    · omega
    · omega

/-- Behind digits and nothing else there is no rest. -/
lemma extractU64_digits {s r : Bytes} {n : ℕ} (hs : ∀ b ∈ s, isDigit b = true)
    (h : extractU64 s = some (n, r)) : r = [] := by
  have hhead : ∀ b, s.head? = some b → isDigit b = true := fun b hb =>
    hs b (List.mem_of_mem_head? hb)
  unfold extractU64 at h
  rw [skipWs_of_head fun b hb => isSpace_of_isDigit (hhead b hb), readSign_of_digit hhead] at h
  simp only at h
  split at h
  · simp at h
  · obtain ⟨-, rfl⟩ := Prod.mk.inj (Option.some.inj h)
    exact List.dropWhile_eq_nil_iff.mpr hs

lemma extractChar_some {s r : Bytes} {b : UInt8} (h : extractChar s = some (b, r)) : r <:+ s := by
  unfold extractChar at h
  split at h
  · simp at h
  · next hs =>
    obtain ⟨rfl, rfl⟩ := Prod.mk.inj (Option.some.inj h)
    exact (hs ▸ List.suffix_cons _ _).trans (skipWs_suffix s)

end VeriStore.Lib

import Mathlib.Tactic

/-!
Voting by terms: what an election protocol owes to quorums alone.

Every participant has a current term and at most one vote in it; it forgets the vote when it
moves on to a later term. A candidate that holds the votes of more than half of the participants
wins its term. A vote is kept together with what the voter knew when it gave it (`β`), which the
counting of votes does not look at.

* `Ballots.Fair.steps` — every run keeps the invariant of the votes;
* `Ballots.Fair.leader_unique` — a term has at most one winner.
-/

namespace VeriStore.Lib

/-! ### Quorums -/

/-- Two sets of participants that are together larger than the whole share one. -/
lemma exists_mem_both {ι : Type} [DecidableEq ι] [Fintype ι] {P Q : Finset ι}
    (h : Fintype.card ι < P.card + Q.card) : ∃ v, v ∈ P ∧ v ∈ Q := by
  have hle : (P ∪ Q).card ≤ Fintype.card ι := Finset.card_le_univ _
  have hsum := Finset.card_union_add_card_inter P Q
  have hpos : 0 < (P ∩ Q).card := by omega
  obtain ⟨v, hv⟩ := Finset.card_pos.mp hpos
  exact ⟨v, Finset.mem_inter.mp hv⟩

/-- **The value at a position in order** is at least `N` when so many values are, that those below
`N` do not reach up to the position. -/
lemma le_getElem_iff {l : List ℕ} (hl : l.Pairwise (· ≤ ·)) {k : ℕ} (hk : k < l.length) {N : ℕ} :
    N ≤ l[k] ↔ l.length - k ≤ l.countP (N ≤ ·) := by
  induction l generalizing k with
  | nil => simp at hk
  | cons a l ih =>
    obtain ⟨ha, hl⟩ := List.pairwise_cons.mp hl
    have hcount := List.countP_le_length (p := fun x => decide (N ≤ x)) (l := l)
    have hall : N ≤ a → l.countP (N ≤ ·) = l.length := fun hN => by
      rw [List.countP_eq_length]
      exact fun x hx => decide_eq_true (hN.trans (ha x hx))
    by_cases hN : N ≤ a
    · rw [List.countP_cons_of_pos (by simpa using hN), hall hN]
      refine iff_of_true ?_ (by rw [List.length_cons]; omega)
      cases k with
      | zero => exact hN
      | succ k => exact hN.trans (ha _ (List.getElem_mem _))
    · rw [List.countP_cons_of_neg (by simpa using hN), List.length_cons]
      cases k with
      | zero => exact iff_of_false hN (by omega)
      | succ k =>
        rw [List.getElem_cons_succ, ih hl (by simpa using hk)]
        omega

/-- The same about values that are put in order first. -/
lemma le_insertionSort_getD_iff (l : List ℕ) {k : ℕ} (hk : k < l.length) {N : ℕ} :
    N ≤ (l.insertionSort (· ≤ ·)).getD k 0 ↔ l.length - k ≤ l.countP (N ≤ ·) := by
  have hperm := List.perm_insertionSort (· ≤ ·) l
  have hlt : k < (l.insertionSort (· ≤ ·)).length := hperm.length_eq ▸ hk
  rw [← List.getElem_eq_getD (h := hlt) 0, le_getElem_iff (List.pairwise_insertionSort _ l),
    hperm.length_eq, hperm.countP_eq]

/-- At least half of the values are not below the one at half their number in order. -/
lemma length_le_two_mul_countP (l : List ℕ) :
    l.length ≤ 2 * l.countP fun x => (l.insertionSort (· ≤ ·)).getD (l.length / 2) 0 ≤ x := by
  rcases Nat.eq_zero_or_pos l.length with h0 | hpos
  · omega
  · have hcount := (le_insertionSort_getD_iff l (show l.length / 2 < l.length by omega)).mp le_rfl
    omega

/-! ### Votes -/

variable {ι β : Type} [DecidableEq ι]

/-- The terms, the votes of the current terms, all votes ever given and all terms ever won. -/
structure Ballots (ι β : Type) where
  term : ι → ℕ
  votedFor : ι → Option ι
  votes : Set (ι × ℕ × ι × β)
  leaders : Set (ι × ℕ)

namespace Ballots

/-- Nobody has voted. -/
def init : Ballots ι β := ⟨fun _ => 0, fun _ => none, ∅, ∅⟩

/-- The participant `i` moves on to the term `t`. -/
def adopt (b : Ballots ι β) (i : ι) (t : ℕ) : Ballots ι β :=
  { b with term := Function.update b.term i t, votedFor := Function.update b.votedFor i none }

/-- The participant `i` stands in the next term and votes for itself. -/
def stand (b : Ballots ι β) (i : ι) (x : β) : Ballots ι β where
  term := Function.update b.term i (b.term i + 1)
  votedFor := Function.update b.votedFor i (some i)
  votes := insert (i, b.term i + 1, i, x) b.votes
  leaders := b.leaders

/-- The participant `v` votes for `c` in its current term. -/
def grant (b : Ballots ι β) (v c : ι) (x : β) : Ballots ι β :=
  { b with
    votedFor := Function.update b.votedFor v (some c)
    votes := insert (v, b.term v, c, x) b.votes }

/-- The participant `i` wins its current term. -/
def win (b : Ballots ι β) (i : ι) : Ballots ι β :=
  { b with leaders := insert (i, b.term i) b.leaders }

/-- `v` has voted for `c` in the term `t`. -/
def Voted (b : Ballots ι β) (v : ι) (t : ℕ) (c : ι) : Prop := ∃ x, (v, t, c, x) ∈ b.votes

/-- **The steps of a voting.** -/
inductive Step [Fintype ι] : Ballots ι β → Ballots ι β → Prop
  | adopt (b : Ballots ι β) (i : ι) (t : ℕ) (h : b.term i < t) : Step b (b.adopt i t)
  | stand (b : Ballots ι β) (i : ι) (x : β) : Step b (b.stand i x)
  | grant (b : Ballots ι β) (v c : ι) (x : β) (h : b.votedFor v = none ∨ b.votedFor v = some c) :
      Step b (b.grant v c x)
  | win (b : Ballots ι β) (i : ι) (Q : Finset ι) (hQ : Fintype.card ι < 2 * Q.card)
      (h : ∀ v ∈ Q, b.Voted v (b.term i) i) : Step b (b.win i)

/-- The invariant of a voting. -/
structure Fair [Fintype ι] (b : Ballots ι β) : Prop where
  /-- a vote is of a term the voter has reached -/
  term_le : ∀ v t c x, (v, t, c, x) ∈ b.votes → t ≤ b.term v
  /-- the vote of the current term is remembered -/
  remembered : ∀ v c x, (v, b.term v, c, x) ∈ b.votes → b.votedFor v = some c
  /-- nobody votes for two candidates in one term -/
  one : ∀ v t c c' x x', (v, t, c, x) ∈ b.votes → (v, t, c', x') ∈ b.votes → c = c'
  /-- a winner has the votes of more than half of the participants -/
  backed : ∀ i t, (i, t) ∈ b.leaders →
    ∃ Q : Finset ι, Fintype.card ι < 2 * Q.card ∧ ∀ v ∈ Q, b.Voted v t i

section Invariant

variable [Fintype ι] {b b' : Ballots ι β}

omit [DecidableEq ι] in
lemma init_fair : (init : Ballots ι β).Fair :=
  ⟨by simp [init], by simp [init], by simp [init], by simp [init]⟩

lemma Fair.adopt (h : b.Fair) {i : ι} {t : ℕ} (ht : b.term i < t) : (b.adopt i t).Fair := by
  refine ⟨?_, ?_, h.one, h.backed⟩
  · intro v t' c x hv
    have hle := h.term_le v t' c x hv
    by_cases hvi : v = i
    · subst hvi
      simp only [Ballots.adopt, Function.update_self]
      omega
    · simpa [Ballots.adopt, hvi] using hle
  · intro v c x hv
    by_cases hvi : v = i
    · subst hvi
      simp only [Ballots.adopt, Function.update_self] at hv
      have hle := h.term_le v t c x hv
      omega
    · simp only [Ballots.adopt, Function.update_of_ne hvi] at hv ⊢
      exact h.remembered v c x hv

omit [DecidableEq ι] in
/-- A new vote of the current term that agrees with the remembered one keeps the votes single. -/
lemma Fair.one_insert (h : b.Fair) {v c : ι} {t : ℕ} {x : β}
    (hnew : ∀ c' x', (v, t, c', x') ∈ b.votes → c' = c) :
    ∀ w s d d' y y', (w, s, d, y) ∈ insert (v, t, c, x) b.votes →
      (w, s, d', y') ∈ insert (v, t, c, x) b.votes → d = d' := by
  rintro w s d d' y y' (h1 | h1) (h2 | h2)
  · simp only [Prod.mk.injEq] at h1 h2
    rw [h1.2.2.1, h2.2.2.1]
  · simp only [Prod.mk.injEq] at h1
    obtain ⟨rfl, rfl, rfl, -⟩ := h1
    exact (hnew d' y' h2).symm
  · simp only [Prod.mk.injEq] at h2
    obtain ⟨rfl, rfl, rfl, -⟩ := h2
    exact hnew d y h1
  · exact h.one w s d d' y y' h1 h2

omit [DecidableEq ι] in
/-- More votes back no fewer winners. -/
lemma Fair.backed_mono (h : b.Fair) (hsub : b.votes ⊆ b'.votes) (hl : b'.leaders = b.leaders) :
    ∀ i t, (i, t) ∈ b'.leaders →
      ∃ Q : Finset ι, Fintype.card ι < 2 * Q.card ∧ ∀ v ∈ Q, b'.Voted v t i := by
  intro i t hi
  obtain ⟨Q, hQ, hv⟩ := h.backed i t (hl ▸ hi)
  refine ⟨Q, hQ, fun v hvQ => ?_⟩
  obtain ⟨x, hx⟩ := hv v hvQ
  exact ⟨x, hsub hx⟩

lemma Fair.stand (h : b.Fair) (i : ι) (x : β) : (b.stand i x).Fair := by
  have hfresh : ∀ c' x', (i, b.term i + 1, c', x') ∈ b.votes → c' = i := by
    intro c' x' hv
    have := h.term_le _ _ _ _ hv
    omega
  refine ⟨?_, ?_, h.one_insert hfresh, h.backed_mono (Set.subset_insert _ _) rfl⟩
  · rintro v t c y (hv | hv)
    · simp only [Prod.mk.injEq] at hv
      obtain ⟨rfl, rfl, -, -⟩ := hv
      simp [Ballots.stand]
    · have hle := h.term_le v t c y hv
      by_cases hvi : v = i
      · subst hvi
        simp only [Ballots.stand, Function.update_self]
        omega
      · simpa [Ballots.stand, hvi] using hle
  · rintro v c y hv
    by_cases hvi : v = i
    · subst hvi
      simp only [Ballots.stand, Function.update_self] at hv ⊢
      rcases hv with hv | hv
      · simp only [Prod.mk.injEq] at hv
        rw [hv.2.2.1]
      · rw [hfresh c y hv]
    · simp only [Ballots.stand, Function.update_of_ne hvi] at hv ⊢
      rcases hv with hv | hv
      · simp only [Prod.mk.injEq] at hv
        exact absurd hv.1 hvi
      · exact h.remembered v c y hv

lemma Fair.grant (h : b.Fair) {v c : ι} (x : β)
    (hv : b.votedFor v = none ∨ b.votedFor v = some c) : (b.grant v c x).Fair := by
  have hsame : ∀ c' x', (v, b.term v, c', x') ∈ b.votes → c' = c := by
    intro c' x' hc
    have := h.remembered v c' x' hc
    rcases hv with hv | hv
    · simp [hv] at this
    · rw [hv] at this
      exact (Option.some.inj this).symm
  refine ⟨?_, ?_, h.one_insert hsame, h.backed_mono (Set.subset_insert _ _) rfl⟩
  · rintro w t d y (hw | hw)
    · simp only [Prod.mk.injEq] at hw
      obtain ⟨rfl, rfl, -, -⟩ := hw
      exact le_rfl
    · exact h.term_le w t d y hw
  · rintro w d y (hw | hw)
    · simp only [Prod.mk.injEq] at hw
      obtain ⟨rfl, -, rfl, -⟩ := hw
      simp [Ballots.grant]
    · by_cases hwv : w = v
      · subst hwv
        have := hsame d y hw
        simp [Ballots.grant, this]
      · simp only [Ballots.grant, Function.update_of_ne hwv]
        exact h.remembered w d y hw

omit [DecidableEq ι] in
lemma Fair.win (h : b.Fair) {i : ι} {Q : Finset ι} (hQ : Fintype.card ι < 2 * Q.card)
    (hv : ∀ v ∈ Q, b.Voted v (b.term i) i) : (b.win i).Fair := by
  refine ⟨h.term_le, h.remembered, h.one, ?_⟩
  rintro j t (hj | hj)
  · simp only [Prod.mk.injEq] at hj
    obtain ⟨rfl, rfl⟩ := hj
    exact ⟨Q, hQ, hv⟩
  · exact h.backed j t hj

/-- **One step keeps the votes fair.** -/
theorem Step.fair (h : Step b b') (hb : b.Fair) : b'.Fair := by
  cases h with
  | adopt i t ht => exact hb.adopt ht
  | stand i x => exact hb.stand i x
  | grant v c x hv => exact hb.grant x hv
  | win i Q hQ hv => exact hb.win hQ hv

/-- **A run of a voting keeps the votes fair.** -/
theorem Fair.steps (hb : b.Fair) (h : Relation.ReflTransGen Step b b') : b'.Fair := by
  induction h with
  | refl => exact hb
  | tail _ hs ih => exact hs.fair ih

/-- **A term has at most one winner.** -/
theorem Fair.leader_unique (h : b.Fair) {i j : ι} {t : ℕ} (hi : (i, t) ∈ b.leaders)
    (hj : (j, t) ∈ b.leaders) : i = j := by
  obtain ⟨P, hP, hvP⟩ := h.backed i t hi
  obtain ⟨Q, hQ, hvQ⟩ := h.backed j t hj
  obtain ⟨v, h1, h2⟩ := exists_mem_both (P := P) (Q := Q) (by omega)
  obtain ⟨x, hx⟩ := hvP v h1
  obtain ⟨y, hy⟩ := hvQ v h2
  exact h.one v t i j x y hx hy

end Invariant

end Ballots

end VeriStore.Lib

import VeriStore.Lib.Ballots
import VeriStore.Raft.Node

/-!
The quorum of a commit.

`AdvanceCommitIndexLocked` takes the value at half the number of the match values in order. Of an
odd number of values more than half are not below it; of an even number it may be just half, which
is less than an election or a proposal asks for (`needed`).

* `advance_needs_majority_iff` — a raised commit index is held by a majority, unless just half of
  the nodes hold some index of the current term above the commit index.
-/

namespace VeriStore.Raft

open VeriStore.Lib

namespace RaftNode

variable {ι : Type} (n : RaftNode ι) (peers : List ι)

/-- How many of the match values are not below an index. -/
def holders (N : ℕ) : ℕ := (n.matchValues peers).countP (N ≤ ·)

/-- The entry with the index `N` is of the current term. -/
def IsCurrent (N : ℕ) : Prop := ∃ e, 0 < N ∧ n.log[N - 1]? = some e ∧ e.term = n.currentTerm

/-- Just half of the nodes hold some index that a leader could commit. -/
def HalfHeld : Prop := ∃ N ∈ n.matchValues peers,
  n.commitIndex < N ∧ n.IsCurrent N ∧ 2 * n.holders peers N = 1 + peers.length

variable {n peers}

lemma isCurrent_iff (hterm : 0 < n.currentTerm) {N : ℕ} :
    n.IsCurrent N ↔ n.termAt N = n.currentTerm := by
  unfold IsCurrent termAt termIn
  by_cases h0 : N = 0
  · rw [if_pos h0]
    constructor
    · rintro ⟨e, hpos, -⟩
      omega
    · intro h
      omega
  rw [if_neg h0]
  cases hget : n.log[N - 1]? with
  | none =>
    simp only [reduceCtorEq, false_and, and_false, exists_false, Option.map_none, Option.getD_none,
      false_iff]
    omega
  | some e =>
    simp only [Option.some.injEq, Option.map_some, Option.getD_some]
    constructor
    · rintro ⟨e', -, rfl, h⟩
      exact h
    · exact fun h => ⟨e, by omega, rfl, h⟩

lemma length_matchValues (hsome : ∀ p ∈ peers, (n.matchIndex p).isSome) :
    (n.matchValues peers).length = 1 + peers.length := by
  have hlen : (peers.filterMap n.matchIndex).length = peers.length := by
    rw [List.length_filterMap_eq_countP, List.countP_eq_length]
    exact hsome
  rw [matchValues, List.length_cons, hlen, Nat.add_comm]

/-- An index is not above the one to be committed when at least half of the nodes hold it. -/
lemma le_majorityIndex_iff (N : ℕ) : N ≤ n.majorityIndex peers ↔
    (n.matchValues peers).length - (n.matchValues peers).length / 2 ≤ n.holders peers N := by
  refine le_insertionSort_getD_iff _ ?_
  have hpos : 0 < (n.matchValues peers).length := by simp [matchValues]
  omega

lemma majorityIndex_mem : n.majorityIndex peers ∈ n.matchValues peers := by
  have hperm := List.perm_insertionSort (· ≤ ·) (n.matchValues peers)
  have hpos : 0 < (n.matchValues peers).length := by simp [matchValues]
  have hlt : (n.matchValues peers).length / 2 <
      ((n.matchValues peers).insertionSort (· ≤ ·)).length := by
    rw [hperm.length_eq]
    omega
  rw [majorityIndex, ← List.getElem_eq_getD (h := hlt) 0]
  exact hperm.mem_iff.mp (List.getElem_mem hlt)

/-- More nodes hold a smaller index that one of them has. -/
lemma holders_lt {N M : ℕ} (hN : N ∈ n.matchValues peers) (hlt : N < M) :
    n.holders peers M < n.holders peers N := by
  obtain ⟨l₁, l₂, hl⟩ := List.append_of_mem hN
  have hmono : ∀ l : List ℕ, l.countP (M ≤ ·) ≤ l.countP (N ≤ ·) := fun l =>
    List.countP_mono_left fun x _ hx => by
      simp only [decide_eq_true_eq] at hx ⊢
      omega
  have h1 := hmono l₁
  have h2 := hmono l₂
  unfold holders
  rw [hl, List.countP_append, List.countP_append, List.countP_cons_of_neg (by simpa using hlt),
    List.countP_cons_of_pos (by simp)]
  omega

/-- **An index that just half of the nodes hold** is the one to be committed. -/
lemma eq_majorityIndex {N : ℕ} (hN : N ∈ n.matchValues peers)
    (hhalf : 2 * n.holders peers N = (n.matchValues peers).length) :
    N = n.majorityIndex peers := by
  have hle : N ≤ n.majorityIndex peers := by
    rw [le_majorityIndex_iff]
    omega
  have hmaj := (le_majorityIndex_iff (n.majorityIndex peers)).mp le_rfl
  by_contra hne
  have hlt := holders_lt hN (lt_of_le_of_ne hle hne)
  omega

/-- **A raised commit index is held by a majority and of the current term**, exactly where there is
no index above the commit index and of the current term that just half of the nodes hold. -/
theorem advance_needs_majority_iff (hterm : 0 < n.currentTerm)
    (hsome : ∀ p ∈ peers, (n.matchIndex p).isSome) :
    (∀ N, (n.advanceCommitIndex peers).commitIndex = N → n.commitIndex < N →
      needed peers ≤ n.holders peers N ∧ n.IsCurrent N) ↔ ¬ n.HalfHeld peers := by
  have hlen := length_matchValues hsome
  have hmaj := (le_majorityIndex_iff (n.majorityIndex peers)).mp le_rfl
  constructor
  · rintro h ⟨N, hN, hlt, hcur, hhalf⟩
    have hNmaj := eq_majorityIndex hN (by omega)
    have hraised : (n.advanceCommitIndex peers).commitIndex = N := by
      rw [isCurrent_iff hterm, hNmaj] at hcur
      rw [advanceCommitIndex, if_pos ⟨hNmaj ▸ hlt, hcur⟩, hNmaj]
    have hneeded := (h N hraised hlt).1
    unfold needed at hneeded
    omega
  · intro h N hraised hlt
    unfold advanceCommitIndex at hraised
    split at hraised
    · next hcond =>
      obtain rfl : n.majorityIndex peers = N := hraised
      have hcur := (isCurrent_iff hterm).mpr hcond.2
      refine ⟨?_, hcur⟩
      have hnot : 2 * n.holders peers (n.majorityIndex peers) ≠ 1 + peers.length := fun e =>
        h ⟨_, majorityIndex_mem, hlt, hcur, e⟩
      unfold needed
      omega
    · omega

/-- A leader with one entry of its own, and what the peers have acknowledged. -/
def leaderOfOne (acked : ℕ → Option ℕ) : RaftNode ℕ :=
  { init with
    currentTerm := 1
    role := .leader
    log := [⟨1, .put, text "a", text "1"⟩]
    matchIndex := acked }

/-- Two of three nodes hold the entry. -/
theorem advance_needs_majority_iff_three :
    let n := leaderOfOne fun p => if p = 1 then some 1 else some 0
    (n.advanceCommitIndex [1, 2]).commitIndex = 1 ∧ needed [1, 2] ≤ n.holders [1, 2] 1 ∧
      n.IsCurrent 1 := by
  intro n
  have hodd : ¬ n.HalfHeld [1, 2] := by
    rintro ⟨N, -, -, -, h⟩
    simp only [List.length_cons, List.length_nil] at h
    omega
  have hsome : ∀ p ∈ [1, 2], (n.matchIndex p).isSome := by decide
  have hraised : (n.advanceCommitIndex [1, 2]).commitIndex = 1 := by decide
  exact ⟨hraised, (advance_needs_majority_iff Nat.one_pos hsome).mpr hodd 1 hraised Nat.one_pos⟩

/-- **A leader of two nodes** commits an entry that it alone holds. -/
theorem commit_held_by_half :
    let n := leaderOfOne fun _ => some 0
    (n.advanceCommitIndex [1]).commitIndex = 1 ∧ n.commitIndex = 0 ∧ n.holders [1] 1 = 1 ∧
      ¬ needed [1] ≤ n.holders [1] 1 := by
  decide

end RaftNode

end VeriStore.Raft

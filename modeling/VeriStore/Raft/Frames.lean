import VeriStore.Raft.Steps

/-!
What the handlers and the critical sections of a node change.

One lemma for each, so that the invariants of the cluster do not unfold them. `RaftNode.Follows` is
the rule that all of them but the vote handler and the candidacy keep: the vote of a term is
forgotten only when the term goes up. `RaftNode.Yields` says more about those that do not touch
the log.
-/

namespace VeriStore.Raft

open VeriStore.Lib

/-- A node and its peers are all nodes. -/
lemma Config.length_peers {ι : Type} [Fintype ι] (cfg : Config ι) (i : ι) :
    1 + (cfg.peers i).length = Fintype.card ι := by
  classical
  have hset : (cfg.peers i).toFinset = Finset.univ.erase i := by
    ext j
    simp [cfg.mem_peers]
  have hcard : (cfg.peers i).length = Fintype.card ι - 1 := by
    rw [← List.toFinset_card_of_nodup (cfg.nodup i), hset,
      Finset.card_erase_of_mem (Finset.mem_univ i), Finset.card_univ]
  have hpos : 0 < Fintype.card ι := Fintype.card_pos_iff.mpr ⟨i⟩
  omega

namespace RaftNode

section Frame

variable {ι : Type}

/-- The term and the vote stay, or the term goes up and the vote is forgotten. -/
def Follows (n n' : RaftNode ι) : Prop :=
  (n'.currentTerm = n.currentTerm ∧ n'.votedFor = n.votedFor) ∨
    (n.currentTerm < n'.currentTerm ∧ n'.votedFor = none)

lemma Follows.refl (n : RaftNode ι) : n.Follows n := Or.inl ⟨rfl, rfl⟩

lemma Follows.becomeFollower {n : RaftNode ι} {t : ℕ} (h : n.currentTerm < t) (l : Option ι) :
    n.Follows (n.becomeFollower t l) := Or.inr ⟨h, rfl⟩

/-- What `advanceCommitIndex` changes. -/
lemma advanceCommitIndex_frame (n : RaftNode ι) (peers : List ι) :
    ∃ c, n.advanceCommitIndex peers = { n with commitIndex := c } := by
  unfold advanceCommitIndex
  split
  · exact ⟨_, rfl⟩
  · exact ⟨n.commitIndex, rfl⟩

/-- A reply to a proposal leaves the node alone or makes it step down. -/
lemma proposeReply_frame (n : RaftNode ι) (peers : List ι) (acks : ℕ) (resp : AppendEntriesResp) :
    (n.proposeReply peers acks resp).1 = n ∨
      (n.currentTerm < resp.term ∧
        (n.proposeReply peers acks resp).1 = n.becomeFollower resp.term none) := by
  unfold proposeReply
  split
  · exact Or.inl rfl
  · split
    · next h => exact Or.inr ⟨h, rfl⟩
    · left
      simp only
      generalize (if resp.success = true then acks + 1 else acks) = a
      split <;> rfl

/-- The acknowledgements a proposal goes on with. -/
lemma proposeReply_outcome (n : RaftNode ι) (peers : List ι) (acks : ℕ) (resp : AppendEntriesResp) :
    match (n.proposeReply peers acks resp).2 with
    | .failed => True
    | .acked => needed peers ≤ (if resp.success then acks + 1 else acks)
    | .next acks' => acks' = (if resp.success then acks + 1 else acks) := by
  unfold proposeReply
  by_cases h1 : n.role ≠ .leader
  · rw [if_pos h1]
    trivial
  rw [if_neg h1]
  by_cases h2 : n.currentTerm < resp.term
  · rw [if_pos h2]
    trivial
  rw [if_neg h2]
  simp only
  generalize (if resp.success = true then acks + 1 else acks) = a
  by_cases h3 : needed peers ≤ a
  · rw [if_pos h3]
    exact h3
  · rw [if_neg h3]

lemma noticeReply_frame (n : RaftNode ι) (resp : AppendEntriesResp) :
    (n.noticeReply resp).1 = n ∨
      (n.currentTerm < resp.term ∧ (n.noticeReply resp).1 = n.becomeFollower resp.term none) := by
  unfold noticeReply
  split
  · next h => exact Or.inr ⟨h, rfl⟩
  · exact Or.inl rfl

/-- The log stays, and the node keeps its role in its term or follows. -/
structure Yields (n n' : RaftNode ι) : Prop where
  follows : n.Follows n'
  log : n'.log = n.log
  role : (n'.role = n.role ∧ n'.currentTerm = n.currentTerm) ∨ n'.role = .follower

lemma Yields.refl (n : RaftNode ι) : n.Yields n := ⟨.refl n, rfl, Or.inl ⟨rfl, rfl⟩⟩

lemma Yields.becomeFollower {n : RaftNode ι} {t : ℕ} (h : n.currentTerm < t) (l : Option ι) :
    n.Yields (n.becomeFollower t l) := ⟨.becomeFollower h l, rfl, Or.inr rfl⟩

/-- A node that is left alone or steps down. -/
lemma Yields.of_frame {n n' : RaftNode ι} {t : ℕ}
    (h : n' = n ∨ (n.currentTerm < t ∧ n' = n.becomeFollower t none)) : n.Yields n' := by
  rcases h with rfl | ⟨h, rfl⟩
  · exact .refl _
  · exact .becomeFollower h none

lemma followLeader_yields (n : RaftNode ι) (t : ℕ) (l : ι) : n.Yields (n.followLeader t l) := by
  unfold followLeader
  split
  · next h => exact .becomeFollower h _
  · exact ⟨Or.inl ⟨rfl, rfl⟩, rfl, Or.inr rfl⟩

/-- The other fields behind the term check of `OnAppendEntries`. -/
lemma followLeader_frame {n : RaftNode ι} {t : ℕ} (h : n.currentTerm ≤ t) (l : ι) :
    (n.followLeader t l).currentTerm = t ∧ (n.followLeader t l).role = .follower ∧
      (n.followLeader t l).commitIndex = n.commitIndex := by
  unfold followLeader
  split
  · exact ⟨rfl, rfl, rfl⟩
  · next hlt => exact ⟨le_antisymm h (not_lt.mp hlt), rfl, rfl⟩

/-- The checks that `OnAppendEntries` makes before it looks at the entries. -/
def Accepts (n : RaftNode ι) (req : AppendEntriesReq ι) : Prop :=
  n.currentTerm ≤ req.term ∧ req.prevLogIndex ≤ n.log.length ∧
    termIn n.log req.prevLogIndex = req.prevLogTerm

instance (n : RaftNode ι) (req : AppendEntriesReq ι) : Decidable (n.Accepts req) :=
  inferInstanceAs (Decidable (_ ∧ _ ∧ _))

/-- **The handler of entries**: a request that fails a check leaves the log alone, and one that
passes them all is accepted. -/
lemma onAppendEntries_cases (n : RaftNode ι) (req : AppendEntriesReq ι) :
    (n.Yields (n.onAppendEntries req).1 ∧ (n.onAppendEntries req).1.commitIndex = n.commitIndex ∧
      (n.onAppendEntries req).2.success = false) ∨
    (n.Accepts req ∧ n.onAppendEntries req =
      ((n.followLeader req.term req.leaderId).acceptEntries req, ⟨req.term, true⟩)) := by
  have hy := n.followLeader_yields req.term req.leaderId
  unfold onAppendEntries
  split
  · exact Or.inl ⟨.refl n, rfl, rfl⟩
  · next ht =>
    obtain ⟨hterm, -, hc⟩ := followLeader_frame (not_lt.mp ht) req.leaderId
    simp only [lastLogIndex, termAt, hy.log]
    split
    · exact Or.inl ⟨hy, hc, rfl⟩
    · next hp =>
      split
      · exact Or.inl ⟨hy, hc, rfl⟩
      · next hm =>
        exact Or.inr ⟨⟨not_lt.mp ht, not_lt.mp hp, not_not.mp hm⟩, by rw [hterm]⟩

/-- A request that passes the checks is accepted. -/
lemma onAppendEntries_of_accepts {n : RaftNode ι} {req : AppendEntriesReq ι} (ha : n.Accepts req) :
    n.onAppendEntries req =
      ((n.followLeader req.term req.leaderId).acceptEntries req, ⟨req.term, true⟩) := by
  obtain ⟨ht, hp, hm⟩ := ha
  have hlog := (n.followLeader_yields req.term req.leaderId).log
  unfold onAppendEntries
  rw [if_neg (not_lt.mpr ht)]
  simp only [lastLogIndex, termAt, hlog]
  rw [if_neg (not_lt.mpr hp), if_neg (not_not.mpr hm), (followLeader_frame ht req.leaderId).1]

lemma onAppendEntries_follows (n : RaftNode ι) (req : AppendEntriesReq ι) :
    n.Follows (n.onAppendEntries req).1 := by
  rcases n.onAppendEntries_cases req with ⟨hy, -⟩ | ⟨-, he⟩
  · exact hy.follows
  · rw [he]
    exact (n.followLeader_yields req.term req.leaderId).follows

/-- The request of a proposal on a log that is not empty. -/
lemma proposeRequest_eq {n : RaftNode ι} (h : n.log ≠ []) (self : ι) (e : LogEntry) :
    n.proposeRequest self e = ⟨n.currentTerm, self, n.log.length - 1, n.termAt (n.log.length - 1),
      [e], 0⟩ := by
  have hpos : n.lastLogIndex ≠ 0 := by simpa [lastLogIndex] using h
  unfold proposeRequest
  rw [if_neg hpos]
  rfl

/-- The number of votes the loops ask for is a majority. -/
lemma card_lt_needed [Fintype ι] (cfg : Config ι) (i : ι) :
    Fintype.card ι < 2 * needed (cfg.peers i) := by
  have := cfg.length_peers i
  unfold needed
  omega

end Frame

section Votes

variable {ι : Type} [DecidableEq ι]

/-- A reply to a heartbeat: the node steps down, or its tables and its commit index change. -/
lemma heartbeatReply_frame (n : RaftNode ι) (peers : List ι) (p : ι) (req : AppendEntriesReq ι)
    (resp : AppendEntriesResp) :
    (n.currentTerm < resp.term ∧
      (n.heartbeatReply peers p req resp).1 = n.becomeFollower resp.term none) ∨
    ∃ next mtch c, (n.heartbeatReply peers p req resp).1 =
      { n with nextIndex := next, matchIndex := mtch, commitIndex := c } := by
  unfold heartbeatReply
  split
  · next h => exact Or.inl ⟨h, rfl⟩
  · right
    split
    · simp only
      split
      · obtain ⟨c, hc⟩ := n.advanceCommitIndex_frame peers
        exact ⟨_, _, c, hc⟩
      · obtain ⟨c, hc⟩ := advanceCommitIndex_frame
          { n with
            matchIndex := Function.update n.matchIndex p (some (req.prevLogIndex + req.entries.length))
            nextIndex := Function.update n.nextIndex p
              (some (req.prevLogIndex + req.entries.length + 1)) } peers
        exact ⟨_, _, c, hc⟩
    · exact ⟨_, _, _, rfl⟩

lemma heartbeatReply_yields (n : RaftNode ι) (peers : List ι) (p : ι) (req : AppendEntriesReq ι)
    (resp : AppendEntriesResp) : n.Yields (n.heartbeatReply peers p req resp).1 := by
  rcases n.heartbeatReply_frame peers p req resp with ⟨h, e⟩ | ⟨next, mtch, c, e⟩
  · rw [e]
    exact .becomeFollower h none
  · rw [e]
    exact ⟨Or.inl ⟨rfl, rfl⟩, rfl, Or.inl ⟨rfl, rfl⟩⟩

/-- **The vote handler**: no vote, or a vote of the term of the request by a node that has not
voted for another candidate in it. -/
lemma onRequestVote_cases (n : RaftNode ι) (req : RequestVoteReq ι) :
    (n.Yields (n.onRequestVote req).1 ∧ (n.onRequestVote req).2.voteGranted = false) ∨
    ∃ n₁, n.Yields n₁ ∧ n₁.currentTerm = req.term ∧
      (n₁.votedFor = none ∨ n₁.votedFor = some req.candidateId) ∧
      n₁.isUpToDate req.lastLogIndex req.lastLogTerm = true ∧
      (n.onRequestVote req).1 = { n₁ with votedFor := some req.candidateId } := by
  unfold onRequestVote
  split
  · exact Or.inl ⟨.refl n, rfl⟩
  · next hterm =>
    set n₁ := if n.currentTerm < req.term then n.becomeFollower req.term none else n with hn₁
    have hf : n.Yields n₁ ∧ n₁.currentTerm = req.term := by
      by_cases h : n.currentTerm < req.term
      · rw [hn₁, if_pos h]
        exact ⟨.becomeFollower h none, rfl⟩
      · rw [hn₁, if_neg h]
        exact ⟨.refl n, by omega⟩
    simp only
    split
    · next hv => exact Or.inr ⟨n₁, hf.1, hf.2, hv.1, hv.2, rfl⟩
    · exact Or.inl ⟨hf.1, rfl⟩

/-- A node that grants no vote forgets its vote at most. -/
lemma onRequestVote_yields {n : RaftNode ι} {req : RequestVoteReq ι}
    (h : (n.onRequestVote req).2.voteGranted = false) : n.Yields (n.onRequestVote req).1 := by
  unfold onRequestVote at h ⊢
  by_cases h1 : req.term < n.currentTerm
  · rw [if_pos h1]
    exact .refl n
  · simp only [if_neg h1] at h ⊢
    set n₁ := if n.currentTerm < req.term then n.becomeFollower req.term none else n with hn₁
    have hy : n.Yields n₁ := by
      by_cases hlt : n.currentTerm < req.term
      · rw [hn₁, if_pos hlt]
        exact .becomeFollower hlt none
      · rw [hn₁, if_neg hlt]
        exact .refl n
    by_cases h2 : (n₁.votedFor = none ∨ n₁.votedFor = some req.candidateId) ∧
        n₁.isUpToDate req.lastLogIndex req.lastLogTerm = true
    · simp [if_pos h2] at h
    · rw [if_neg h2]
      exact hy

/-- **A reply to a vote request**: the loop ends, the election is won by a candidate of the term
of the request, or the next peer is asked. -/
lemma electionReply_cases (n : RaftNode ι) (self : ι) (peers : List ι) (t votes : ℕ)
    (resp : RequestVoteResp) :
    (∃ n', n.electionReply self peers t votes resp = (n', .stop) ∧
      (n' = n ∨ (n.currentTerm < resp.term ∧ n' = n.becomeFollower resp.term none))) ∨
    (n.role = .candidate ∧ n.currentTerm = t ∧
      needed peers ≤ (if resp.voteGranted then votes + 1 else votes) ∧
      n.electionReply self peers t votes resp = (n.becomeLeader self peers, .won)) ∨
    n.electionReply self peers t votes resp =
      (n, .ask (if resp.voteGranted then votes + 1 else votes)) := by
  unfold electionReply
  by_cases h1 : n.role ≠ .candidate
  · exact Or.inl ⟨n, by rw [if_pos h1], Or.inl rfl⟩
  rw [if_neg h1]
  by_cases h2 : n.currentTerm ≠ t
  · exact Or.inl ⟨n, by rw [if_pos h2], Or.inl rfl⟩
  rw [if_neg h2]
  by_cases h3 : n.currentTerm < resp.term
  · exact Or.inl ⟨_, by rw [if_pos h3], Or.inr ⟨h3, rfl⟩⟩
  rw [if_neg h3]
  right
  simp only
  generalize (if resp.voteGranted = true then votes + 1 else votes) = v
  by_cases h4 : needed peers ≤ v
  · left
    exact ⟨not_not.mp h1, not_not.mp h2, h4, if_pos h4⟩
  · exact Or.inr (if_neg h4)

/-! ### Staying in office -/

/-- **A node is a leader only if it was one in this term**, with the same log. -/
def Office (n n' : RaftNode ι) : Prop :=
  n'.role = .leader → n.role = .leader ∧ n'.currentTerm = n.currentTerm ∧ n'.log = n.log

omit [DecidableEq ι] in
lemma Office.of_ne {n n' : RaftNode ι} (h : n'.role ≠ .leader) : n.Office n' :=
  fun hr => absurd hr h

omit [DecidableEq ι] in
lemma Yields.office {n n' : RaftNode ι} (h : n.Yields n') : n.Office n' := by
  intro hr
  rcases h.role with ⟨hrole, ht⟩ | hrole
  · exact ⟨hrole ▸ hr, ht, h.log⟩
  · simp [hrole] at hr

/-- No handler makes a leader, and a leader that takes over entries is none any more. -/
lemma handle_office (n : RaftNode ι) (request : Request ι) : n.Office (n.handle request).1 := by
  cases request with
  | vote req =>
    rcases n.onRequestVote_cases req with ⟨hy, -⟩ | ⟨n₁, hy, -, -, -, he⟩
    · exact hy.office
    · intro hr
      simp only [handle, he] at hr ⊢
      exact hy.office hr
  | append req =>
    rcases n.onAppendEntries_cases req with ⟨hy, -⟩ | ⟨ha, he⟩
    · exact hy.office
    · have hrole := (followLeader_frame ha.1 req.leaderId).2.1
      refine .of_ne ?_
      simp only [handle, he, acceptEntries, hrole]
      decide

end Votes

end RaftNode

end VeriStore.Raft

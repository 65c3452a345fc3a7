import VeriStore.Raft.Replication

/-!
State-machine safety: what two nodes apply at one index is the same entry.

A node commits what a quorum has acknowledged in its own term, or what a leader or an earlier
leader tells it to be committed. The invariant (`Commits`) says that the committed part of every
log, and of the log every request was built from, is a prefix of what was chosen (`Settled`). It
needs the orderly steps of `Raft.Replication`, and that a reply to a heartbeat is counted by the
leader of the term of the request only (`Cluster.Counted`).
-/

namespace VeriStore.Raft

open VeriStore.Lib Relation

set_option linter.unusedSectionVars false

variable {ι : Type} [DecidableEq ι]

/-! ### The condition on replies -/

/-- The request of a heartbeat thread whose call was answered with success. -/
def ThreadState.counts? : ThreadState ι → Option (AppendEntriesReq ι)
  | ⟨.beating _, some ⟨_, .append req, some (.append resp)⟩⟩ =>
    if resp.success then some req else none
  | _ => none

/-- **A successful reply to a heartbeat is counted by a leader**, and one to entries by the leader
of the term of the request. -/
def Cluster.Counted (s : Cluster ι) : Action ι → Prop
  | .resume i th false => ∀ req ∈ (s.threads i th).counts?, (s.nodes i).role = .leader ∧
      (req.entries = [] ∨ (s.nodes i).currentTerm = req.term)
  | _ => True

instance (s : Cluster ι) : (a : Action ι) → Decidable (s.Counted a)
  | .resume i th false => inferInstanceAs (Decidable (∀ req ∈ (s.threads i th).counts?, _ ∧ (_ ∨ _)))
  | .resume _ _ true | .timeout _ | .stand _ | .beat _ | .build _ | .proposePut _ _ _ _
  | .proposeDel _ _ _ | .place _ _ | .notify _ _ | .take _ | .apply _ | .handle _ _
  | .handleLate _ => isTrue trivial

/-- All conditions on a step. -/
def Cluster.Disciplined (s : Cluster ι) (a : Action ι) : Prop := s.Orderly a ∧ s.Counted a

instance (s : Cluster ι) (a : Action ι) : Decidable (s.Disciplined a) :=
  inferInstanceAs (Decidable (_ ∧ _))

/-! ### Counting -/

/-- **The index a leader commits is covered by at least half of the nodes**, itself included. -/
lemma RaftNode.majorityIndex_quorum [Fintype ι] (cfg : Config ι) (i : ι) (n : RaftNode ι)
    (hm : ∀ p ∈ cfg.peers i, (n.matchIndex p).isSome)
    (hN : n.majorityIndex (cfg.peers i) ≤ n.log.length) :
    ∃ Q : Finset ι, Fintype.card ι ≤ 2 * Q.card ∧ ∀ v ∈ Q, v = i ∨
      (v ∈ cfg.peers i ∧ ∃ m, n.matchIndex v = some m ∧ n.majorityIndex (cfg.peers i) ≤ m) := by
  have hvals : (cfg.peers i).filterMap n.matchIndex =
      (cfg.peers i).map fun p => (n.matchIndex p).getD 0 := by
    rw [← List.filterMap_eq_map]
    refine List.filterMap_congr fun p hp => ?_
    obtain ⟨m, hm⟩ := Option.isSome_iff_exists.mp (hm p hp)
    simp [hm]
  have hcount := length_le_two_mul_countP (n.matchValues (cfg.peers i))
  change _ ≤ 2 * (n.matchValues (cfg.peers i)).countP
    (fun x => n.majorityIndex (cfg.peers i) ≤ x) at hcount
  have hcard : (n.matchValues (cfg.peers i)).length = Fintype.card ι := by
    have := cfg.length_peers i
    simp only [RaftNode.matchValues, hvals, List.length_cons, List.length_map]
    omega
  rw [hcard] at hcount
  set N := n.majorityIndex (cfg.peers i)
  refine ⟨insert i ((cfg.peers i).filter fun p => N ≤ (n.matchIndex p).getD 0).toFinset, ?_, ?_⟩
  · have hnot : i ∉ ((cfg.peers i).filter fun p => N ≤ (n.matchIndex p).getD 0).toFinset := by
      simp [cfg.mem_peers]
    rw [Finset.card_insert_of_notMem hnot, List.toFinset_card_of_nodup ((cfg.nodup i).filter _)]
    simp only [RaftNode.matchValues, hvals, List.countP_cons, List.countP_map,
      RaftNode.lastLogIndex, hN, decide_true, if_true] at hcount
    rw [List.countP_eq_length_filter] at hcount
    simpa [Function.comp_def] using hcount
  · intro v hv
    rcases Finset.mem_insert.mp hv with rfl | hv
    · exact Or.inl rfl
    · right
      simp only [List.mem_toFinset, List.mem_filter, decide_eq_true_eq] at hv
      obtain ⟨m, hm⟩ := Option.isSome_iff_exists.mp (hm v hv.1)
      exact ⟨hv.1, m, hm, by simpa [hm] using hv.2⟩

/-! ### What is committed -/

/-- The commit index of a request is covered by the log it was built from, which the request
describes by the term at its previous index. -/
def CommitOk [Fintype ι] (r : Logs ι) (req : AppendEntriesReq ι) : Prop :=
  req.leaderCommit = 0 ∨ ∃ l, r.Coherent LogEntry.term l ∧
    req.prevLogTerm = RaftNode.termIn l req.prevLogIndex ∧
    (req.entries ≠ [] → r.Elected req.term ∧ l <+: r.leaderLog req.term ∧
      l.length = req.prevLogIndex + req.entries.length) ∧
    req.leaderCommit ≤ req.prevLogIndex + req.entries.length ∧ req.leaderCommit ≤ l.length ∧
    r.Settled LogEntry.term req.term (l.take req.leaderCommit)

/-- The committed part of a log is settled, and a leader knows what its peers have acknowledged. -/
structure NodeOk [Fintype ι] (cfg : Config ι) (r : Logs ι) (i : ι) (n : RaftNode ι) : Prop where
  commit_le : n.commitIndex ≤ n.log.length
  settled : r.Settled LogEntry.term n.currentTerm (n.log.take n.commitIndex)
  next_pos : ∀ p k, n.nextIndex p = some k → 0 < k
  acked : n.role = .leader → ∀ p ∈ cfg.peers i, ∃ m, n.matchIndex p = some m ∧
    (m = 0 ∨ Acked r n.currentTerm m p)

/-- The entry at an index of a settled list. -/
def Applied [Fintype ι] (r : Logs ι) (index : ℕ) (e : LogEntry) : Prop :=
  ∃ t p, r.Settled LogEntry.term t p ∧ 0 < index ∧ p[index - 1]? = some e

/-- The requests of a thread and the entry it is about to apply. -/
structure CallOk [Fintype ι] (r : Logs ι) (x : ThreadState ι) : Prop where
  request : ∀ c req, x.call = some c → c.request = .append req → CommitOk r req
  applying : ∀ index e, x.pc = .applying index e → Applied r index e

/-- **Everything that is committed, announced or applied is settled.** -/
structure Commits [Fintype ι] (cfg : Config ι) (s : Cluster ι) (r : Logs ι) : Prop where
  nodes : ∀ i, NodeOk cfg r i (s.nodes i)
  threads : ∀ i th, CallOk r (s.threads i th)
  late : ∀ p req, (p, .append req) ∈ s.late → CommitOk r req
  applied : ∀ i index e, (i, index, e) ∈ s.applied → Applied r index e

section Mono

variable [Fintype ι] {cfg : Config ι} {s : Cluster ι} {r r' : Logs ι}

lemma CommitOk.mono {req : AppendEntriesReq ι} (h : CommitOk r req) (hg : r.Grows r') :
    CommitOk r' req := by
  rcases h with h | ⟨l, hl, ht, he, h1, h2, h3⟩
  · exact Or.inl h
  · refine Or.inr ⟨l, hg.coherent hl, ht, fun hne => ?_, h1, h2, h3.mono hg⟩
    obtain ⟨hel, hp, hlen⟩ := he hne
    exact ⟨hg.elected _ hel, hp.trans (hg.leaderLog _ hel), hlen⟩

lemma NodeOk.mono {i : ι} {n : RaftNode ι} (h : NodeOk cfg r i n) (hg : r.Grows r') :
    NodeOk cfg r' i n where
  commit_le := h.commit_le
  settled := h.settled.mono hg
  next_pos := h.next_pos
  acked hr p hp := by
    obtain ⟨m, hm, ha⟩ := h.acked hr p hp
    exact ⟨m, hm, ha.imp_right fun ha => ha.mono hg⟩

lemma Applied.mono {index : ℕ} {e : LogEntry} (h : Applied r index e) (hg : r.Grows r') :
    Applied r' index e := by
  obtain ⟨t, p, hp, h1, h2⟩ := h
  exact ⟨t, p, hp.mono hg, h1, h2⟩

lemma CallOk.mono {x : ThreadState ι} (h : CallOk r x) (hg : r.Grows r') : CallOk r' x where
  request c req hc hr := (h.request c req hc hr).mono hg
  applying index e hx := (h.applying index e hx).mono hg

lemma Commits.mono (h : Commits cfg s r) (hg : r.Grows r') : Commits cfg s r' where
  nodes i := (h.nodes i).mono hg
  threads i th := (h.threads i th).mono hg
  late p req hl := (h.late p req hl).mono hg
  applied i index e he := (h.applied i index e he).mono hg

end Mono

/-! ### Nodes -/

/-- The log, the commit index and the tables stay; a leader stays leader of its term or is none. -/
structure RaftNode.Rests (n n' : RaftNode ι) : Prop where
  term_le : n.currentTerm ≤ n'.currentTerm
  log : n'.log = n.log
  commitIndex : n'.commitIndex = n.commitIndex
  nextIndex : n'.nextIndex = n.nextIndex
  leader : n'.role = .leader → n.role = .leader ∧ n'.currentTerm = n.currentTerm ∧
    n'.matchIndex = n.matchIndex

namespace RaftNode

variable {n n' : RaftNode ι}

lemma Rests.refl (n : RaftNode ι) : n.Rests n :=
  ⟨le_rfl, rfl, rfl, rfl, fun hr => ⟨hr, rfl, rfl⟩⟩

lemma Rests.becomeFollower {t : ℕ} (h : n.currentTerm < t) (l : Option ι) :
    n.Rests (n.becomeFollower t l) :=
  ⟨h.le, rfl, rfl, rfl, by simp [RaftNode.becomeFollower]⟩

/-- A node that is left alone or steps down. -/
lemma Rests.of_frame {t : ℕ} (h : n' = n ∨ (n.currentTerm < t ∧ n' = n.becomeFollower t none)) :
    n.Rests n' := by
  rcases h with rfl | ⟨h, rfl⟩
  · exact .refl _
  · exact .becomeFollower h none

lemma becomeCandidate_rests (n : RaftNode ι) (i : ι) : n.Rests (n.becomeCandidate i) :=
  ⟨Nat.le_succ _, rfl, rfl, rfl, by simp [RaftNode.becomeCandidate]⟩

lemma followLeader_rests (n : RaftNode ι) (t : ℕ) (l : ι) : n.Rests (n.followLeader t l) := by
  unfold followLeader
  split
  · next hlt => exact .becomeFollower hlt _
  · exact ⟨le_rfl, rfl, rfl, rfl, by simp⟩

lemma onRequestVote_rests (n : RaftNode ι) (req : RequestVoteReq ι) :
    n.Rests (n.onRequestVote req).1 := by
  unfold onRequestVote
  split
  · exact .refl n
  · set n₁ := if n.currentTerm < req.term then n.becomeFollower req.term none else n with hn₁
    have h₁ : n.Rests n₁ := by
      by_cases h : n.currentTerm < req.term
      · rw [hn₁, if_pos h]
        exact .becomeFollower h none
      · rw [hn₁, if_neg h]
        exact .refl n
    simp only
    split
    · exact ⟨h₁.term_le, h₁.log, h₁.commitIndex, h₁.nextIndex, h₁.leader⟩
    · exact h₁

/-- A request that fails a check changes the term and the role only. -/
lemma onAppendEntries_rests (n : RaftNode ι) (req : AppendEntriesReq ι)
    (h : (n.onAppendEntries req).2.success = false) : n.Rests (n.onAppendEntries req).1 := by
  have hf := n.followLeader_rests req.term req.leaderId
  unfold onAppendEntries at h ⊢
  by_cases h1 : req.term < n.currentTerm
  · rw [if_pos h1]
    exact .refl n
  simp only [if_neg h1] at h ⊢
  by_cases h2 : (n.followLeader req.term req.leaderId).lastLogIndex < req.prevLogIndex
  · rw [if_pos h2]
    exact hf
  simp only [if_neg h2] at h ⊢
  by_cases h3 : (n.followLeader req.term req.leaderId).termAt req.prevLogIndex ≠ req.prevLogTerm
  · rw [if_pos h3]
    exact hf
  · simp [if_neg h3] at h

end RaftNode

section Nodes

variable [Fintype ι] {cfg : Config ι} {r : Logs ι} {i : ι} {n n' : RaftNode ι}

lemma NodeOk.rests (h : NodeOk cfg r i n) (hn : n.Rests n') : NodeOk cfg r i n' where
  commit_le := by
    rw [hn.commitIndex, hn.log]
    exact h.commit_le
  settled := by
    rw [hn.commitIndex, hn.log]
    exact h.settled.of_le hn.term_le
  next_pos := by
    rw [hn.nextIndex]
    exact h.next_pos
  acked hr := by
    obtain ⟨hl, ht, hm⟩ := hn.leader hr
    rw [ht, hm]
    exact h.acked hl

lemma NodeOk.pushEntry (h : NodeOk cfg r i n) (e : LogEntry) : NodeOk cfg r i (n.pushEntry e) where
  commit_le := by
    have := h.commit_le
    simp only [RaftNode.pushEntry, List.length_append]
    omega
  settled := by
    simp only [RaftNode.pushEntry, List.take_append_of_le_length h.commit_le]
    exact h.settled
  next_pos := h.next_pos
  acked := h.acked

lemma NodeOk.becomeLeader (h : NodeOk cfg r i n) :
    NodeOk cfg r i (n.becomeLeader i (cfg.peers i)) where
  commit_le := h.commit_le
  settled := h.settled
  next_pos p k hk := by
    simp only [RaftNode.becomeLeader] at hk
    split at hk
    · obtain rfl := Option.some.inj hk
      exact Nat.succ_pos _
    · exact h.next_pos p k hk
  acked _ p hp := ⟨0, by simp [RaftNode.becomeLeader, hp], Or.inl rfl⟩

end Nodes

/-! ### Requests -/

section Requests

variable [Fintype ι] {cfg : Config ι} {s : Cluster ι} {r : Logs ι}

/-- **A heartbeat announces what the leader has committed.** -/
lemma Tracks.build_commitOk (h : Tracks s r) (hi : r.Inv LogEntry.term) {i : ι}
    (hn : NodeOk cfg r i (s.nodes i)) (hr : (s.nodes i).role = .leader) (p : ι) :
    CommitOk r ((s.nodes i).buildAppendEntries i p) := by
  have hlead := h.leader i hr
  have hlog : r.leaderLog (s.nodes i).currentTerm = (s.nodes i).log := by
    rw [← h.log i]
    exact (hi.led_log i _ hlead (h.term i)).symm
  have hcoh : r.Coherent LogEntry.term (s.nodes i).log := h.log i ▸ hi.log_coherent i
  have hc := hn.commit_le
  have hpos : 0 < ((s.nodes i).nextIndex p).getD 1 := by
    cases hp : (s.nodes i).nextIndex p with
    | none => simp
    | some k => simpa using hn.next_pos p k hp
  refine Or.inr ⟨(s.nodes i).log, hcoh, rfl, fun hne => ?_, ?_, hc, hn.settled⟩
  all_goals
    simp only [RaftNode.buildAppendEntries] at *
    set next := ((s.nodes i).nextIndex p).getD 1
    have hprev : (if next = 0 ∨ next = 1 then 0 else next - 1) = next - 1 := by
      split <;> omega
    rw [hprev]
  · have hrange : 1 ≤ next ∧ next ≤ (s.nodes i).log.length := by
      by_contra hx
      simp [hx] at hne
    refine ⟨⟨i, hlead⟩, by rw [hlog], ?_⟩
    rw [if_pos hrange, List.length_drop]
    omega
  · split
    · rw [List.length_drop]
      omega
    · simp only [List.length_nil]
      omega

/-- The notice behind a proposal speaks for the log of its node, whatever the role is by then. -/
lemma Tracks.notice_commitOk (h : Tracks s r) (hi : r.Inv LogEntry.term) {i : ι}
    (hn : NodeOk cfg r i (s.nodes i)) : CommitOk r ((s.nodes i).commitNotice i) := by
  have hcoh : r.Coherent LogEntry.term (s.nodes i).log := h.log i ▸ hi.log_coherent i
  exact Or.inr ⟨(s.nodes i).log, hcoh, rfl, fun hne => absurd rfl hne, hn.commit_le, hn.commit_le,
    hn.settled⟩

/-- An index with a term in one coherent log and none in another one is not matched. -/
lemma le_length_of_termIn (hi : r.Inv LogEntry.term) {l l' : List LogEntry}
    (hl : r.Coherent LogEntry.term l) {k : ℕ} (hk : k ≤ l.length)
    (ht : RaftNode.termIn l k = RaftNode.termIn l' k) : k ≤ l'.length := by
  by_contra hlt
  have h0 : k ≠ 0 := by omega
  have e1 : l[k - 1]? = some l[k - 1] := List.getElem?_eq_getElem (by omega)
  have e2 : l'[k - 1]? = none := List.getElem?_eq_none (by omega)
  simp only [RaftNode.termIn, if_neg h0, e1, e2, Option.map_some, Option.getD_some,
    Option.map_none, Option.getD_none] at ht
  have := (hi.won _ (hl _ _ e1).1).1
  omega

/-- **An accepted request commits a settled part of the new log.** -/
lemma settled_of_coherent (hi : r.Inv LogEntry.term) {i : ι} {req : AppendEntriesReq ι}
    {l₀ : List LogEntry} (hcoh : r.Coherent LogEntry.term l₀) (hok : RequestOk r i (.append req))
    (hc : CommitOk r req) (hprev : req.prevLogIndex ≤ l₀.length)
    (hterm : RaftNode.termIn l₀ req.prevLogIndex = req.prevLogTerm) (h0 : req.leaderCommit ≠ 0) :
    let log := RaftNode.appendAt l₀ req.prevLogIndex req.entries
    req.leaderCommit ≤ log.length ∧
      r.Settled LogEntry.term req.term (log.take req.leaderCommit) := by
  obtain ⟨l, hl, ht, he, h1, h2, h3⟩ := hc.resolve_left h0
  by_cases hne : req.entries = []
  · -- the logs agree up to the previous index
    rw [hne, List.length_nil, Nat.add_zero] at h1
    have hpl := le_length_of_termIn hi hcoh hprev (hterm.trans ht)
    have htake := take_eq_of_termIn hcoh hl hprev hpl (hterm.trans ht)
    simp only [RaftNode.appendAt, hne, if_true]
    refine ⟨h1.trans hprev, ?_⟩
    have := congrArg (List.take req.leaderCommit) htake
    rw [List.take_take, List.take_take, min_eq_left h1] at this
    rw [this]
    exact h3
  · obtain ⟨hel, hpre, hlen⟩ := he hne
    obtain ⟨hlog, -⟩ := appendAt_eq_take hi hcoh hok hne hprev hterm
    have hll : RaftNode.appendAt l₀ req.prevLogIndex req.entries = l := by
      rw [hlog, ← hlen]
      exact (List.prefix_iff_eq_take.mp hpre).symm
    simp only [hll]
    exact ⟨h2, h3⟩

/-- **An accepted request keeps what is committed.** -/
lemma committed_of_accepts (h : Tracks s r) (hi : r.Inv LogEntry.term) {i p : ι}
    {req : AppendEntriesReq ι} (hok : RequestOk r i (.append req))
    (hn : NodeOk cfg r p (s.nodes p)) (hs : (s.nodes p).CutsNothing req)
    (ha : (s.nodes p).Accepts req) :
    (s.nodes p).log.take (s.nodes p).commitIndex <+:
      RaftNode.appendAt (s.nodes p).log req.prevLogIndex req.entries := by
  by_cases hne : req.entries = []
  · simp only [RaftNode.appendAt, hne, if_true]
    exact List.take_prefix _ _
  · obtain ⟨hlog, -⟩ := h.appendAt_eq hi hok hne ha.2.1 ha.2.2
    have hk := keeps_of_cutsNothing hs ha hne
    rw [hlog] at hk ⊢
    have hel : r.Elected req.term := ⟨i, (hok hne).1⟩
    exact hk.isPrefix (List.take_prefix _ _) (List.take_prefix _ _) (hn.settled.leader hi hel ha.1)

lemma NodeOk.accept (h : Tracks s r) (hi : r.Inv LogEntry.term) {i p : ι}
    {req : AppendEntriesReq ι} (hok : RequestOk r i (.append req)) (hc : CommitOk r req)
    (hn : NodeOk cfg r p (s.nodes p)) (hs : (s.nodes p).CutsNothing req)
    (ha : (s.nodes p).Accepts req) :
    NodeOk cfg r p (((s.nodes p).followLeader req.term req.leaderId).acceptEntries req) := by
  have hf := (s.nodes p).followLeader_rests req.term req.leaderId
  obtain ⟨ht, hrole, -⟩ := RaftNode.followLeader_frame ha.1 req.leaderId
  have hkeep := committed_of_accepts h hi hok hn hs ha
  have hcoh : r.Coherent LogEntry.term (s.nodes p).log := h.log p ▸ hi.log_coherent p
  have hset := settled_of_coherent hi hcoh hok hc ha.2.1 ha.2.2
  have hcl := hn.commit_le
  set log := RaftNode.appendAt (s.nodes p).log req.prevLogIndex req.entries with hlog
  have hlen : (s.nodes p).commitIndex ≤ log.length := by
    have := hkeep.length_le
    rw [List.length_take, min_eq_left hcl] at this
    exact this
  have htake : log.take (s.nodes p).commitIndex = (s.nodes p).log.take (s.nodes p).commitIndex := by
    rw [List.prefix_iff_eq_take.mp hkeep, List.length_take, min_eq_left hcl]
  simp only [RaftNode.acceptEntries, hf.log, hf.commitIndex, ← hlog]
  constructor
  case commit_le =>
    split
    · exact min_le_right _ _
    · exact hlen
  case settled =>
    simp only [ht]
    split
    · next hlt =>
      obtain ⟨h1, h2⟩ := hset (by omega)
      rw [min_eq_left h1]
      exact h2
    · rw [htake]
      exact hn.settled.of_le ha.1
  case next_pos =>
    simp only [hf.nextIndex]
    exact hn.next_pos
  case acked =>
    intro hr
    rw [hrole] at hr
    simp at hr

end Requests

/-! ### Replies to heartbeats -/

section Replies

variable [Fintype ι] {cfg : Config ι} {r : Logs ι} {i : ι} {n : RaftNode ι}

/-- The entry with a term that is not zero. -/
lemma RaftNode.getElem?_of_termIn {l : List LogEntry} {k t : ℕ} (h : RaftNode.termIn l k = t)
    (ht : 0 < t) : ∃ e, l[k - 1]? = some e ∧ e.term = t := by
  unfold RaftNode.termIn at h
  split at h
  · omega
  · cases he : l[k - 1]? with
    | none =>
      simp only [he, Option.map_none, Option.getD_none] at h
      omega
    | some e =>
      simp only [he, Option.map_some, Option.getD_some] at h
      exact ⟨e, rfl, h⟩

/-- **A leader commits what is chosen**: half of the nodes have acknowledged it in its term. -/
lemma NodeOk.advanceCommitIndex (hn : NodeOk cfg r i n) (hi : r.Inv LogEntry.term)
    (hr : n.role = .leader) (hel : r.Elected n.currentTerm)
    (hlog : r.leaderLog n.currentTerm = n.log)
    (hself : (i, n.currentTerm, n.log.length) ∈ r.acks) :
    NodeOk cfg r i (n.advanceCommitIndex (cfg.peers i)) := by
  unfold RaftNode.advanceCommitIndex
  split
  · next hadv =>
    obtain ⟨hlt, hterm⟩ := hadv
    set N := n.majorityIndex (cfg.peers i) with hN
    obtain ⟨e, he, het⟩ := RaftNode.getElem?_of_termIn hterm (hi.won _ hel).1
    have hle : N ≤ n.log.length := by
      have := (List.getElem?_eq_some_iff.mp he).1
      omega
    have hsome : ∀ p ∈ cfg.peers i, (n.matchIndex p).isSome := fun p hp => by
      obtain ⟨m, hm, -⟩ := hn.acked hr p hp
      simp [hm]
    obtain ⟨Q, hQ, hv⟩ := n.majorityIndex_quorum cfg i hsome hle
    have hch : r.Chosen LogEntry.term n.currentTerm N := by
      refine ⟨hel, ⟨e, by rw [hlog]; exact he, het⟩, by omega, Q, hQ, fun v hvQ => ?_⟩
      rcases hv v hvQ with rfl | ⟨hp, m, hm, hNm⟩
      · exact ⟨n.log.length, hle, hself⟩
      · obtain ⟨m', hm', hack⟩ := hn.acked hr v hp
        obtain rfl : m = m' := Option.some.inj (hm.symm.trans hm')
        rcases hack with rfl | ⟨k, hk, hack⟩
        · omega
        · exact ⟨k, by omega, hack⟩
    refine ⟨hle, Or.inr ⟨n.currentTerm, N, le_rfl, hch, ?_⟩, hn.next_pos, hn.acked⟩
    rw [hlog]
  · exact hn

/-- **A reply to a heartbeat** keeps the commit index settled: the leader itself has acknowledged
its log, and a successful reply to entries is an acknowledgement in its term. -/
lemma NodeOk.heartbeatReply (hn : NodeOk cfg r i n) (hi : r.Inv LogEntry.term)
    {p : ι} {req : AppendEntriesReq ι} {resp : AppendEntriesResp}
    (hs : resp.success = true → n.role = .leader ∧
      r.leaderLog n.currentTerm = n.log ∧ (i, n.currentTerm, n.log.length) ∈ r.acks ∧
      (req.entries ≠ [] →
        (p, n.currentTerm, req.prevLogIndex + req.entries.length) ∈ r.acks)) :
    NodeOk cfg r i (n.heartbeatReply (cfg.peers i) p req resp).1 := by
  unfold RaftNode.heartbeatReply
  split
  · next hlt => exact hn.rests (.becomeFollower hlt none)
  · split
    · next hsucc =>
      obtain ⟨hr, hlog, hself, hack⟩ := hs hsucc
      have hel : r.Elected n.currentTerm := (hi.ack_le _ _ _ hself).2.1
      simp only
      split
      · exact hn.advanceCommitIndex hi hr hel hlog hself
      · next hne =>
        refine NodeOk.advanceCommitIndex ⟨hn.commit_le, hn.settled, ?_, ?_⟩ hi hr hel hlog hself
        · intro q k hk
          by_cases hq : q = p
          · subst hq
            simp only [Function.update_self, Option.some.injEq] at hk
            omega
          · simp only [Function.update_of_ne hq] at hk
            exact hn.next_pos q k hk
        · intro hr q hq
          by_cases hqp : q = p
          · subst hqp
            exact ⟨_, Function.update_self _ _ _, Or.inr ⟨_, le_rfl, hack hne⟩⟩
          · simp only [Function.update_of_ne hqp]
            exact hn.acked hr q hq
    · refine ⟨hn.commit_le, hn.settled, fun q k hk => ?_, hn.acked⟩
      by_cases hq : q = p
      · subst hq
        simp only [Function.update_self, Option.map_eq_some_iff] at hk
        obtain ⟨x, hx, rfl⟩ := hk
        have := hn.next_pos q x hx
        split <;> omega
      · simp only [Function.update_of_ne hq] at hk
        exact hn.next_pos q k hk

end Replies

/-! ### Steps -/

section Steps

variable [Fintype ι] {cfg : Config ι} {s s' : Cluster ι} {r : Logs ι}

lemma CallOk.of_none {pc : Pc ι} (h : ∀ index e, pc ≠ .applying index e) : CallOk r ⟨pc, none⟩ :=
  ⟨by simp, fun index e hx => absurd hx (h index e)⟩

lemma CallOk.idle : CallOk r (.idle : ThreadState ι) := .of_none (by simp)

/-- A thread in a call. -/
lemma CallOk.of_some {pc : Pc ι} {c : Call ι} (h : ∀ index e, pc ≠ .applying index e)
    (hc : ∀ req, c.request = .append req → CommitOk r req) : CallOk r ⟨pc, some c⟩ :=
  ⟨fun c' req hc' hr => hc req (by rw [Option.some.inj hc']; exact hr),
    fun index e hx => absurd hx (h index e)⟩

lemma CallOk.loop {pc : List ι → Pc ι} {request : Request ι} {atEnd : ThreadState ι} {rest : List ι}
    (h : ∀ rest index e, pc rest ≠ .applying index e) (he : CallOk r atEnd)
    (hc : ∀ req, request = .append req → CommitOk r req) :
    CallOk r (.loop pc request atEnd rest) := by
  cases rest with
  | nil => exact he
  | cons p rest => exact .of_some (h rest) hc

lemma CallOk.replicated {i : ι} {e : LogEntry} {index acks : ℕ} :
    CallOk r (Cluster.replicated cfg i e index acks) := by
  unfold Cluster.replicated
  split
  · exact .idle
  · exact .of_none (by simp)

lemma Commits.setThread (h : Commits cfg s r) {i : ι} {th : Thread} {x : ThreadState ι}
    (hx : CallOk r x) : Commits cfg (s.setThread i th x) r := by
  refine { h with threads := fun j th' => ?_ }
  by_cases hj : j = i
  · subst hj
    by_cases hth : th' = th
    · subst hth
      simpa [Cluster.setThread] using hx
    · simpa [Cluster.setThread, hth] using h.threads j th'
  · simpa [Cluster.setThread, hj] using h.threads j th'

lemma Commits.setNode (h : Commits cfg s r) {i : ι} {n : RaftNode ι} (hn : NodeOk cfg r i n) :
    Commits cfg (s.setNode i n) r := by
  refine { h with nodes := fun j => ?_ }
  by_cases hj : j = i
  · subst hj
    simpa [Cluster.setNode] using hn
  · simpa [Cluster.setNode, hj] using h.nodes j

/-- A node rests and one of its threads goes on. -/
lemma Commits.restThread (h : Commits cfg s r) {i : ι} {n : RaftNode ι}
    (hn : (s.nodes i).Rests n) {th : Thread} {x : ThreadState ι} (hx : CallOk r x) :
    Commits cfg ((s.setNode i n).setThread i th x) r :=
  (h.setNode ((h.nodes i).rests hn)).setThread hx

lemma Commits.returns (h : Commits cfg s r) {i : ι} {th : Thread} {lost : Bool} {pc : Pc ι}
    {c : Call ι} {resp : Response} {s₀ : Cluster ι} (hr : s.Returns i th lost pc c resp s₀) :
    Commits cfg s₀ r := by
  have hth := h.threads i th
  rw [hr.thread] at hth
  rcases hr.late with rfl | rfl
  · exact h
  · refine { h with late := fun p req hl => ?_ }
    rcases List.mem_cons.mp hl with hl | hl
    · simp only [Prod.mk.injEq] at hl
      exact hth.request c req rfl hl.2.symm
    · exact h.late p req hl

/-- **The handler of a request** keeps the node in order. -/
lemma NodeOk.handle (h : Tracks s r) (hi : r.Inv LogEntry.term) {i p : ι} {request : Request ι}
    (hok : RequestOk r i request) (hc : ∀ req, request = .append req → CommitOk r req)
    (hn : NodeOk cfg r p (s.nodes p)) (hs : (s.nodes p).Safe request) :
    NodeOk cfg r p ((s.nodes p).handle request).1 := by
  cases request with
  | vote req => exact hn.rests ((s.nodes p).onRequestVote_rests req)
  | append req =>
    rcases (s.nodes p).onAppendEntries_cases req with ⟨-, -, hfail⟩ | ⟨ha, he⟩
    · exact hn.rests ((s.nodes p).onAppendEntries_rests req hfail)
    · simp only [RaftNode.handle, he]
      exact .accept h hi hok (hc req rfl) hn hs ha

lemma Commits.returnTrue (h : Commits cfg s r) (i : ι) (th : Thread) (e : LogEntry) (index : ℕ) :
    Commits cfg (s.returnTrue i th e index) r := by
  have h' : Commits cfg (s.setThread i th .idle) r := h.setThread .idle
  exact { h' with }

/-- **A reply to a vote request**: a new leader starts with empty tables. -/
lemma Commits.election (h : Commits cfg s r) {i : ι} {th : Thread} {votes : ℕ} {rest : List ι}
    {req : RequestVoteReq ι} {resp : RequestVoteResp} :
    Commits cfg (s.electionResume cfg i th votes rest req resp) r := by
  unfold Cluster.electionResume
  rcases (s.nodes i).electionReply_cases i (cfg.peers i) req.term votes resp with
    ⟨n', he, hf⟩ | ⟨-, -, -, he⟩ | he
  · rw [he]
    exact h.restThread (.of_frame hf) .idle
  · rw [he]
    have h' : Commits cfg ((s.setNode i ((s.nodes i).becomeLeader i (cfg.peers i))).setThread i th
        .idle) r := (h.setNode (h.nodes i).becomeLeader).setThread .idle
    exact { h' with }
  · rw [he]
    exact h.restThread (.refl _) (.loop (by simp) .idle (by simp))

lemma Commits.proposal (h : Commits cfg s r) {i : ι} {th : Thread} {e : LogEntry}
    {index acks : ℕ} {rest : List ι} {req : AppendEntriesReq ι} {resp : AppendEntriesResp}
    (hreq : CommitOk r req) : Commits cfg (s.proposeResume cfg i th e index acks rest req resp) r := by
  have hn := RaftNode.Rests.of_frame ((s.nodes i).proposeReply_frame (cfg.peers i) acks resp)
  unfold Cluster.proposeResume
  split
  · next n hp =>
    rw [hp] at hn
    exact h.restThread hn .idle
  · next n hp =>
    rw [hp] at hn
    exact h.restThread hn (.of_none (by simp))
  · next n acks' hp =>
    rw [hp] at hn
    refine h.restThread hn (.loop (by simp) .replicated fun req' hr => ?_)
    exact Request.append.inj hr ▸ hreq

lemma Commits.notice (h : Commits cfg s r) {i : ι} {th : Thread} {e : LogEntry} {index : ℕ}
    {rest : List ι} {req : AppendEntriesReq ι} {resp : AppendEntriesResp} (hreq : CommitOk r req) :
    Commits cfg (s.noticeResume i th e index rest req resp) r := by
  have hn := RaftNode.Rests.of_frame ((s.nodes i).noticeReply_frame resp)
  unfold Cluster.noticeResume
  split
  · next n q rest hp =>
    rw [hp] at hn
    refine h.restThread hn (.of_some (by simp) fun req' hr => ?_)
    exact Request.append.inj hr ▸ hreq
  · next n go hp _ =>
    rw [hp] at hn
    exact (h.setNode ((h.nodes i).rests hn)).returnTrue _ _ _ _

lemma Commits.heartbeat (h : Commits cfg s r) (hi : r.Inv LogEntry.term) {i : ι} {th : Thread}
    {rest : List ι} {p : ι} {req : AppendEntriesReq ι} {resp : AppendEntriesResp}
    (hs : resp.success = true → (s.nodes i).role = .leader ∧
      r.leaderLog (s.nodes i).currentTerm = (s.nodes i).log ∧
      (i, (s.nodes i).currentTerm, (s.nodes i).log.length) ∈ r.acks ∧
      (req.entries ≠ [] →
        (p, (s.nodes i).currentTerm, req.prevLogIndex + req.entries.length) ∈ r.acks)) :
    Commits cfg (s.heartbeatResume cfg i th rest p req resp) r := by
  have hn := (h.nodes i).heartbeatReply hi hs
  unfold Cluster.heartbeatResume
  split
  · next n hp =>
    rw [hp] at hn
    exact (h.setNode hn).setThread (.of_none (by simp))
  · next n hp =>
    rw [hp] at hn
    exact (h.setNode hn).setThread .idle

/-- The leader acknowledges its own log. -/
lemma Tracks.confirmSelf (h : Tracks s r) (hi : r.Inv LogEntry.term) {i : ι}
    (hr : (s.nodes i).role = .leader) :
    ∃ r', Moves r r' ∧ Tracks s r' ∧
      r'.leaderLog (s.nodes i).currentTerm = (s.nodes i).log ∧
      (i, (s.nodes i).currentTerm, (s.nodes i).log.length) ∈ r'.acks := by
  have hlead := h.leader i hr
  have hlog : r.leaderLog (s.nodes i).currentTerm = (s.nodes i).log := by
    rw [← h.log i]
    exact (hi.led_log i _ hlead (h.term i)).symm
  have hstep : Replicas.Step LogEntry.term r (r.confirm i (s.nodes i).log.length) := by
    refine .confirm r i _ ⟨i, by rw [h.term i]; exact hlead⟩ ?_ ?_
    · rw [h.term i, hlog]
    · rw [h.term i, hlog, h.log i]
  refine ⟨_, .single hstep, h.grow (hstep.grows hi) rfl rfl rfl, hlog, ?_⟩
  rw [← h.term i]
  exact Set.mem_insert _ _

/-- **Every step of a disciplined run keeps what is committed settled**; when a reply is counted,
the leader acknowledges its own log first. -/
theorem Commits.effect (h : Tracks s r) (hi : r.Inv LogEntry.term) (hc : Commits cfg s r)
    {a : Action ι} (ha : s.Disciplined a) (he : Cluster.Effect cfg s a s') :
    ∃ r', Moves r r' ∧ Tracks s r' ∧ Commits cfg s' r' := by
  have hquiet : Commits cfg s' r → ∃ r', Moves r r' ∧ Tracks s r' ∧ Commits cfg s' r' :=
    fun hc' => ⟨r, .refl, h, hc'⟩
  cases he with
  | timeout i => exact hquiet (hc.setThread (.of_none (by simp)))
  | stand i =>
    exact hquiet (hc.restThread ((s.nodes i).becomeCandidate_rests i)
      (.loop (by simp) .idle (by simp)))
  | beat i => exact hquiet (hc.setThread (.of_none (by simp)))
  | buildEnd i => exact hquiet (hc.setThread .idle)
  | build i p rest hth hr =>
    refine hquiet (hc.setThread (.of_some (by simp) fun req hreq => ?_))
    obtain rfl := Request.append.inj hreq
    exact h.build_commitOk hi (hc.nodes i) hr p
  | refused => exact hquiet hc
  | propose _ i k e _ _ hr het =>
    exact hquiet ((hc.setNode ((hc.nodes i).pushEntry e)).setThread (.of_none (by simp)))
  | place i k e index hth =>
    refine hquiet (hc.setThread (.loop (by simp) .replicated fun req hreq => ?_))
    obtain rfl := Request.append.inj hreq
    exact Or.inl rfl
  | notifyNone i k e index hth =>
    exact hquiet (hc.returnTrue _ _ _ _)
  | notify i k e index p rest hth hpeers =>
    refine hquiet (hc.setThread (.of_some (by simp) fun req hreq => ?_))
    obtain rfl := Request.append.inj hreq
    exact h.notice_commitOk hi (hc.nodes i)
  | take i e hth hlt hget =>
    have hn : (s.nodes i).Rests (s.nodes i).noteApplied :=
      ⟨le_rfl, rfl, rfl, rfl, fun hr => ⟨hr, rfl, rfl⟩⟩
    refine hquiet (hc.restThread hn ⟨by simp, fun index e' hx => ?_⟩)
    obtain ⟨rfl, rfl⟩ := Pc.applying.inj hx
    refine ⟨_, _, (hc.nodes i).settled, Nat.succ_pos _, ?_⟩
    rw [Nat.add_sub_cancel, List.getElem?_take_of_lt hlt]
    exact hget
  | apply i index e hth =>
    have hc' : Commits cfg (s.setThread i .apply .idle) r := hc.setThread .idle
    refine hquiet { hc' with applied := fun j index' e' hm => ?_ }
    rcases List.mem_cons.mp hm with hm | hm
    · simp only [Prod.mk.injEq] at hm
      obtain ⟨-, rfl, rfl⟩ := hm
      exact (hc.threads i .apply).applying _ _ (by rw [hth])
    · exact hc.applied j index' e' hm
  | handle i th pc p request hth =>
    have hok := h.threads i th
    have hcall := hc.threads i th
    rw [hth] at hok hcall
    have hn := (hc.nodes p).handle h hi (hok.request _ rfl)
      (fun req hreq => hcall.request _ req rfl hreq) (ha.1 _ (by rw [hth]; rfl))
    refine hquiet ((hc.setNode hn).setThread ⟨fun c req hx hreq => ?_, hcall.applying⟩)
    obtain rfl := Option.some.inj hx
    exact hcall.request ⟨p, request, none⟩ req rfl hreq
  | handleLate n p request hl =>
    obtain ⟨j, -, hok⟩ := h.late p request (List.mem_of_getElem? hl)
    have hn := (hc.nodes p).handle h hi hok
      (fun req hreq => hc.late p req (hreq ▸ List.mem_of_getElem? hl)) (ha.1 (p, request) hl)
    have hc' := hc.setNode hn
    exact hquiet { hc' with late := fun q req hq => hc.late q req (List.mem_of_mem_eraseIdx hq) }
  | election i th lost votes rest p req ans resp s₀ hr => exact hquiet (hc.returns hr).election
  | heartbeat i th lost rest p req ans resp s₀ hr =>
    have hok := h.threads i th
    rw [hr.thread] at hok
    have hnode : s₀.nodes i = s.nodes i := by rcases hr.late with rfl | rfl <;> rfl
    by_cases hs : resp.success = true
    · -- the answer of the peer
      obtain ⟨rfl, hans⟩ : lost = false ∧ ans = some (.append resp) := by
        refine hr.outcome.resolve_right fun hlost => ?_
        simp only [Request.unavailable, Response.append.injEq] at hlost
        simp [hlost.2] at hs
      obtain ⟨hrole, hterm⟩ := ha.2 req (by simp [hr.thread, hans, ThreadState.counts?, hs])
      obtain ⟨r', hm, ht', hlog, hself⟩ := h.confirmSelf hi hrole
      obtain ⟨hi', hg⟩ := hi.steps hm
      refine ⟨r', hm, ht', ((hc.returns hr).mono hg).heartbeat hi' fun _ => ?_⟩
      rw [hnode]
      refine ⟨hrole, hlog, hself, fun hne => ?_⟩
      rw [hterm.resolve_left hne]
      exact hg.acks (hok.answer _ rfl req resp rfl hans hs hne)
    · exact hquiet ((hc.returns hr).heartbeat hi fun hs' => absurd hs' hs)
  | proposal i th lost e index acks rest p req ans resp s₀ hr =>
    have hcall := hc.threads i th
    rw [hr.thread] at hcall
    exact hquiet ((hc.returns hr).proposal (hcall.request _ req rfl rfl))
  | notice i th lost e index rest p req ans resp s₀ hr =>
    have hcall := hc.threads i th
    rw [hr.thread] at hcall
    exact hquiet ((hc.returns hr).notice (hcall.request _ req rfl rfl))

lemma init_commits : Commits cfg (Cluster.init : Cluster ι) Replicas.init where
  nodes i := ⟨le_rfl, .nil, by simp [Cluster.init, RaftNode.init], by
    simp [Cluster.init, RaftNode.init]⟩
  threads i th := .idle
  late := by simp [Cluster.init]
  applied := by simp [Cluster.init]

/-- **A disciplined step refines steps of the replication** and keeps what is committed settled. -/
theorem Tracks.disciplined (h : Tracks s r) (hi : r.Inv LogEntry.term) (hc : Commits cfg s r)
    {a : Action ι} (ha : s.Disciplined a) (he : Cluster.Effect cfg s a s') :
    ∃ r' : Logs ι, Moves r r' ∧ Tracks s' r' ∧ Commits cfg s' r' := by
  obtain ⟨r₁, hm₁, ht₁, hc₁⟩ := hc.effect h hi ha he
  have hi₁ := (hi.steps hm₁).1
  obtain ⟨r₂, hm₂, ht₂⟩ := ht₁.effect hi₁ ha.1 he
  exact ⟨r₂, hm₁.trans hm₂, ht₂, hc₁.mono (hi₁.steps hm₂).2⟩

/-- **A disciplined run refines a run of the replication** and keeps what is committed settled. -/
theorem run_disciplined {as : List (Action ι)} (h : Tracks s r) (hi : r.Inv LogEntry.term)
    (hc : Commits cfg s r) (ha : s.AllMeet cfg Cluster.Disciplined as)
    (hrun : s.run cfg as = some s') :
    ∃ r' : Logs ι, Moves r r' ∧ Tracks s' r' ∧ Commits cfg s' r' := by
  induction as generalizing s r with
  | nil =>
    obtain rfl := Option.some.inj hrun
    exact ⟨r, .refl, h, hc⟩
  | cons a as ih =>
    obtain ⟨s₁, hstep, hrest⟩ := Cluster.run_cons hrun
    obtain ⟨r₁, hm₁, ht₁, hc₁⟩ := h.disciplined hi hc ha.1 (Cluster.step_effect hstep)
    obtain ⟨r₂, hm₂, ht₂, hc₂⟩ := ih ht₁ (hi.steps hm₁).1 hc₁ (ha.2 s₁ hstep) hrest
    exact ⟨r₂, hm₁.trans hm₂, ht₂, hc₂⟩

/-- **A disciplined run keeps what is committed settled.** -/
theorem run_commits {as : List (Action ι)} (h : Tracks s r) (hi : r.Inv LogEntry.term)
    (hc : Commits cfg s r) (ha : s.AllMeet cfg Cluster.Disciplined as)
    (hrun : s.run cfg as = some s') :
    ∃ r' : Logs ι, r'.Inv LogEntry.term ∧ Commits cfg s' r' := by
  obtain ⟨r', hm, -, hc'⟩ := run_disciplined h hi hc ha hrun
  exact ⟨r', (hi.steps hm).1, hc'⟩

end Steps

/-- **State-machine safety.** In every disciplined run, two nodes that have applied an entry at the
same index have applied the same entry. -/
theorem state_machine_safety [Fintype ι] (cfg : Config ι) {as : List (Action ι)} {s : Cluster ι}
    (hrun : Cluster.init.run cfg as = some s)
    (ha : Cluster.init.AllMeet cfg Cluster.Disciplined as) {i j : ι} {index : ℕ} {e e' : LogEntry}
    (he : (i, index, e) ∈ s.applied) (he' : (j, index, e') ∈ s.applied) : e = e' := by
  obtain ⟨r, hi, hc⟩ := run_commits init_tracks Replicas.init_inv init_commits ha hrun
  obtain ⟨t, p, hp, -, hget⟩ := hc.applied i index e he
  obtain ⟨t', p', hp', -, hget'⟩ := hc.applied j index e' he'
  have hsome : p[index - 1]? = p'[index - 1]? := by
    rcases hp.agree hp' hi with ⟨u, rfl⟩ | ⟨u, rfl⟩
    · rw [List.getElem?_append_left (List.getElem?_eq_some_iff.mp hget).1]
    · rw [List.getElem?_append_left (List.getElem?_eq_some_iff.mp hget').1]
  rw [hget, hget'] at hsome
  exact Option.some.inj hsome

/-- Two clients of the leader append an entry each; the first one then reads the position of its
entry off the log, which ends with the second entry, and sends its entry there. The second node
has taken over both entries by then, and the leader has committed and applied them. -/
def misplacedProposal : List (Action (Fin 3)) :=
  firstElection ++ [.proposePut 0 0 (text "a") (text "1"), .proposePut 0 1 (text "b") (text "2"),
    .place 0 0, .beat 0, .build 0, .handle 0 .heartbeat, .resume 0 .heartbeat false, .build 0,
    .resume 0 .heartbeat true, .build 0, .take 0, .apply 0, .take 0, .apply 0,
    .handle 0 (.client 0), .beat 0, .build 0, .handle 0 .heartbeat, .take 1, .apply 1, .take 1,
    .apply 1]

/-- The first node has applied the second entry at the index two, the second node the first one. -/
theorem applied_differ : ∃ s, Cluster.init.run threeNodes misplacedProposal = some s ∧
    ∃ e e', (0, 2, e) ∈ s.applied ∧ (1, 2, e') ∈ s.applied ∧ e ≠ e' := by
  have h : (Cluster.init.run threeNodes misplacedProposal).map (fun s => s.applied) = some
      [(1, 2, ⟨1, .put, text "a", text "1"⟩), (1, 1, ⟨1, .put, text "a", text "1"⟩),
        (0, 2, ⟨1, .put, text "b", text "2"⟩), (0, 1, ⟨1, .put, text "a", text "1"⟩)] := by
    decide +kernel
  obtain ⟨s, hrun, hs⟩ := Option.map_eq_some_iff.mp h
  exact ⟨s, hrun, ⟨1, .put, text "b", text "2"⟩, ⟨1, .put, text "a", text "1"⟩, by simp [hs],
    by simp [hs], by decide⟩

/-- An entry that a heartbeat replicates and the next one commits on the second node. -/
def replicateAndApply : List (Action (Fin 3)) :=
  firstElection ++ [.proposePut 0 0 (text "a") (text "1"), .place 0 0, .beat 0, .build 0,
    .handle 0 .heartbeat, .resume 0 .heartbeat false, .build 0, .resume 0 .heartbeat true,
    .build 0, .take 0, .apply 0, .beat 0, .build 0, .handle 0 .heartbeat, .take 1, .apply 1]

/-- Both nodes apply the entry of the leader at the first index. -/
theorem state_machine_safety_two_nodes :
    ∃ s, Cluster.init.run threeNodes replicateAndApply = some s ∧
      ∃ e e', (0, 1, e) ∈ s.applied ∧ (1, 1, e') ∈ s.applied ∧ e = e' := by
  have h : (Cluster.init.run threeNodes replicateAndApply).map (fun s => s.applied) = some
      [(1, 1, ⟨1, .put, text "a", text "1"⟩), (0, 1, ⟨1, .put, text "a", text "1"⟩)] := by
    decide +kernel
  obtain ⟨s, hrun, hs⟩ := Option.map_eq_some_iff.mp h
  have h0 : ((0 : Fin 3), 1, (⟨1, .put, text "a", text "1"⟩ : LogEntry)) ∈ s.applied := by simp [hs]
  have h1 : ((1 : Fin 3), 1, (⟨1, .put, text "a", text "1"⟩ : LogEntry)) ∈ s.applied := by simp [hs]
  exact ⟨s, hrun, _, _, h0, h1, state_machine_safety threeNodes hrun (by decide +kernel) h0 h1⟩

end VeriStore.Raft

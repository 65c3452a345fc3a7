import VeriStore.Raft.Frames

/-!
A leader and one peer.

A round of the heartbeat thread builds a request from the next index of the peer, lets the peer
handle it and takes in the reply. The logs of the two match: entries of one term at one index have
the same entries in front of them (`LogsMatch`). A request that the peer accepts then gives it the
log of the leader, and one that it rejects moves the next index back by one.

* `backtracking_converges` — the peer accepts after at most as many rounds as the next index says;
* `accepted_commit_shared` — a follower commits nothing that it does not share with the leader.
-/

namespace VeriStore.Raft

open VeriStore.Lib

/-! ### Logs that match -/

/-- Entries of one term at one index have the same entries in front of them. -/
def LogsMatch (l l' : List LogEntry) : Prop := ∀ k e e', l[k]? = some e → l'[k]? = some e' →
  e.term = e'.term → l.take (k + 1) = l'.take (k + 1)

section Logs

variable {l l' : List LogEntry}

lemma termIn_eq {k : ℕ} (h0 : 0 < k) (hk : k ≤ l.length) :
    RaftNode.termIn l k = l[k - 1].term := by
  rw [RaftNode.termIn, if_neg (by omega), List.getElem?_eq_getElem (by omega)]
  rfl

lemma termIn_beyond {k : ℕ} (hk : l.length < k) : RaftNode.termIn l k = 0 := by
  rw [RaftNode.termIn, if_neg (by omega), List.getElem?_eq_none (by omega)]
  rfl

lemma LogsMatch.take_eq (h : LogsMatch l l') {k : ℕ} (hk : k ≤ l.length) (hk' : k ≤ l'.length)
    (ht : RaftNode.termIn l k = RaftNode.termIn l' k) : l.take k = l'.take k := by
  rcases Nat.eq_zero_or_pos k with rfl | h0
  · simp
  · rw [termIn_eq h0 hk, termIn_eq h0 hk'] at ht
    have hlast := h (k - 1) _ _ (List.getElem?_eq_getElem (by omega))
      (List.getElem?_eq_getElem (by omega)) ht
    rwa [Nat.sub_add_cancel h0] at hlast

/-- **The rest of a log behind a shared index**: the log that takes it over begins with the whole
log, and is the same one if there is a rest. -/
lemma LogsMatch.appendAt (h : LogsMatch l l') {k : ℕ} (hk : k ≤ l.length) (hk' : k ≤ l'.length)
    (ht : RaftNode.termIn l k = RaftNode.termIn l' k) :
    (RaftNode.appendAt l' k (l.drop k)).take l.length = l ∧
      (l.drop k ≠ [] → RaftNode.appendAt l' k (l.drop k) = l) := by
  have htake := h.take_eq hk hk' ht
  unfold RaftNode.appendAt
  by_cases hrest : l.drop k = []
  · have hlen : k = l.length := le_antisymm hk (List.drop_eq_nil_iff.mp hrest)
    refine ⟨?_, fun hne => absurd hrest hne⟩
    rw [if_pos hrest, ← hlen, ← htake, hlen, List.take_length]
  · rw [if_neg hrest, ← htake, List.take_append_drop, List.take_length]
    exact ⟨rfl, fun _ => rfl⟩

end Logs

/-! ### Requests -/

variable {ι : Type}

namespace RaftNode

variable {n q : RaftNode ι} {self p : ι}

/-- The request that is built from a next index that is not zero: the rest of the log from it on,
which is empty when the index is behind the end. -/
lemma buildAppendEntries_eq {m : ℕ} (hm : (n.nextIndex p).getD 1 = m) (h1 : 1 ≤ m) :
    n.buildAppendEntries self p = ⟨n.currentTerm, self, m - 1, termIn n.log (m - 1),
      n.log.drop (m - 1), n.commitIndex⟩ := by
  have hprev : (if m = 0 ∨ m = 1 then 0 else m - 1) = m - 1 := by
    split <;> omega
  have hrest : (if 1 ≤ m ∧ m ≤ n.log.length then n.log.drop (m - 1) else []) =
      n.log.drop (m - 1) := by
    split
    · rfl
    · exact (List.drop_eq_nil_of_le (by omega)).symm
  simp only [buildAppendEntries, hm, hprev, hrest, termAt]

/-- The term of a node that handles a request of its own or a later term, and of its reply. -/
lemma onAppendEntries_term {req : AppendEntriesReq ι} (h : q.currentTerm ≤ req.term) :
    (q.onAppendEntries req).1.currentTerm = req.term ∧
      (q.onAppendEntries req).2.term = req.term := by
  have hf := (followLeader_frame h req.leaderId).1
  unfold onAppendEntries
  rw [if_neg (by omega)]
  simp only
  split
  · exact ⟨hf, hf⟩
  · split <;> exact ⟨hf, hf⟩

/-- **An accepted request**, in terms of the two logs: the log that comes out. -/
lemma accepted_log (hmatch : LogsMatch n.log q.log) {m : ℕ} (hm : (n.nextIndex p).getD 1 = m)
    (h1 : 1 ≤ m) (hN : m ≤ n.log.length + 1) (ha : q.Accepts (n.buildAppendEntries self p)) :
    (q.onAppendEntries (n.buildAppendEntries self p)).1.log.take n.log.length = n.log ∧
      ((n.buildAppendEntries self p).entries ≠ [] →
        (q.onAppendEntries (n.buildAppendEntries self p)).1.log = n.log) := by
  rw [onAppendEntries_of_accepts ha]
  rw [buildAppendEntries_eq hm h1] at ha ⊢
  simp only [acceptEntries, (q.followLeader_yields _ _).log]
  exact hmatch.appendAt (by omega) ha.2.1 ha.2.2.symm

end RaftNode

/-- An entry of a term. -/
def entryOf (t : ℕ) (key : Bytes) : LogEntry := ⟨t, .put, key, []⟩

/-- The leader of the third term, with the entries of two terms, and what it knows of its peer. -/
def thirdLeader (next : ℕ) : RaftNode ℕ :=
  { RaftNode.init with
    currentTerm := 3
    role := .leader
    log := [entryOf 1 (text "a"), entryOf 3 (text "b")]
    commitIndex := 1
    nextIndex := fun _ => some next
    matchIndex := fun _ => some 0 }

/-- A peer with two entries of the second term that the leader does not have. -/
def divergentPeer : RaftNode ℕ :=
  { RaftNode.init with
    currentTerm := 2
    log := [entryOf 1 (text "a"), entryOf 2 (text "c"), entryOf 2 (text "d")] }

lemma divergent_match (next : ℕ) : LogsMatch (thirdLeader next).log divergentPeer.log := by
  intro k e e' he he' ht
  match k with
  | 0 => rfl
  | 1 =>
    obtain rfl := Option.some.inj he
    obtain rfl := Option.some.inj he'
    exact absurd ht (by decide)
  | k + 2 => simp [thirdLeader] at he

/-! ### What a follower commits -/

/-- **A follower commits nothing that it does not share with the leader.** When it accepts the
request for any next index, the two logs agree up to the last entry that was sent or, without
entries, the previous index, and the commit index does not go beyond that and the leader's one;
when it rejects it, its log and its commit index stay. -/
theorem accepted_commit_shared {n q : RaftNode ι} (self p : ι)
    (hcommit : n.commitIndex ≤ n.log.length) (hnext : 1 ≤ (n.nextIndex p).getD 1)
    (hmatch : LogsMatch n.log q.log) (hpos : ∀ e ∈ q.log, 1 ≤ e.term) :
    let req := n.buildAppendEntries self p
    let out := q.onAppendEntries req
    let shared := req.prevLogIndex + req.entries.length
    (out.2.success = true → shared ≤ n.log.length ∧
      out.1.log.take shared = n.log.take shared ∧
      (q.commitIndex < out.1.commitIndex →
        out.1.commitIndex ≤ shared ∧ out.1.commitIndex ≤ n.commitIndex)) ∧
    (out.2.success = false → out.1.log = q.log ∧ out.1.commitIndex = q.commitIndex) := by
  intro req out shared
  set m := (n.nextIndex p).getD 1 with hm
  have hreq : req = _ := RaftNode.buildAppendEntries_eq hm.symm hnext
  rcases q.onAppendEntries_cases req with ⟨hy, hc, hs⟩ | ⟨ha, he⟩
  · exact ⟨fun h => absurd (h.symm.trans hs) (by simp), fun _ => ⟨hy.log, hc⟩⟩
  -- an index behind the end of the leader's log has no term, and the peer has one there
  have hN : m ≤ n.log.length + 1 := by
    by_contra hlt
    obtain ⟨-, hprev, hterm⟩ := ha
    rw [hreq] at hprev hterm
    simp only at hprev hterm
    rw [termIn_beyond (l := n.log) (by omega), termIn_eq (by omega) hprev] at hterm
    have := hpos _ (List.getElem_mem (show m - 1 - 1 < q.log.length by omega))
    omega
  have hshared : shared = n.log.length := by
    simp only [shared, hreq, List.length_drop]
    omega
  have hlog := (RaftNode.accepted_log hmatch hm.symm hnext hN ha).1
  refine ⟨fun _ => ⟨hshared.le, ?_, fun hrise => ?_⟩, fun h => ?_⟩
  · rw [hshared, List.take_length]
    exact hlog
  · have hle : out.1.commitIndex ≤ n.commitIndex := by
      have hlead : req.leaderCommit = n.commitIndex := by rw [hreq]
      have hcut : out.1.commitIndex = if q.commitIndex < n.commitIndex then
          min n.commitIndex out.1.log.length else q.commitIndex := by
        simp only [out, he, RaftNode.acceptEntries, hlead,
          (RaftNode.followLeader_frame ha.1 req.leaderId).2.2]
      rw [hcut] at hrise ⊢
      split
      · exact min_le_left _ _
      · next hnot =>
        rw [if_neg hnot] at hrise
        omega
    exact ⟨hshared ▸ hle.trans hcommit, hle⟩
  · exact absurd ((congrArg (fun o => o.2.success) he).symm.trans h) (by simp)

/-- The peer gives up its two entries and commits the shared one. -/
theorem accepted_commit_shared_divergent :
    let out := divergentPeer.onAppendEntries ((thirdLeader 2).buildAppendEntries 0 1)
    out.2.success = true ∧ out.1.log.take 2 = (thirdLeader 2).log.take 2 ∧
      out.1.commitIndex ≤ (thirdLeader 2).commitIndex := by
  intro out
  have hboth := accepted_commit_shared 0 1 (n := thirdLeader 2) (q := divergentPeer) (by decide)
    (by decide) (divergent_match 2) (by decide)
  have hs : out.2.success = true := by decide
  have hrise : divergentPeer.commitIndex < out.1.commitIndex := by decide
  obtain ⟨-, hlog, hcommit⟩ := hboth.1 hs
  exact ⟨hs, hlog, (hcommit hrise).2⟩

/-! ### Rounds -/

section Rounds

variable [DecidableEq ι] (peers : List ι) (self p : ι)

/-- A leader and a peer of it. -/
structure Pair (ι : Type) where
  leader : RaftNode ι
  peer : RaftNode ι

namespace Pair

/-- The request of a round. -/
def request (x : Pair ι) : AppendEntriesReq ι := x.leader.buildAppendEntries self p

/-- The reply of the peer. -/
def reply (x : Pair ι) : AppendEntriesResp := (x.peer.onAppendEntries (x.request self p)).2

/-- A round of the heartbeat thread with this peer; a node that is no leader sends nothing. -/
def round (x : Pair ι) : Pair ι :=
  if x.leader.role ≠ .leader then x
  else ⟨(x.leader.heartbeatReply peers p (x.request self p) (x.reply self p)).1,
    (x.peer.onAppendEntries (x.request self p)).1⟩

/-- What the rounds keep: the leader is one, the peer is not in a later term, the logs match, and
the next index is the given one. -/
structure Catching (x : Pair ι) (m : ℕ) : Prop where
  role : x.leader.role = .leader
  term_le : x.peer.currentTerm ≤ x.leader.currentTerm
  logs : LogsMatch x.leader.log x.peer.log
  next : x.leader.nextIndex p = some m
  pos : 1 ≤ m
  le : m ≤ x.leader.log.length + 1

variable {peers self p} {x : Pair ι} {m : ℕ}

namespace Catching

omit [DecidableEq ι] in
lemma request_eq (h : x.Catching p m) : x.request self p =
    ⟨x.leader.currentTerm, self, m - 1, RaftNode.termIn x.leader.log (m - 1),
      x.leader.log.drop (m - 1), x.leader.commitIndex⟩ :=
  RaftNode.buildAppendEntries_eq (by rw [h.next]; rfl) h.pos

omit [DecidableEq ι] in
variable (self) in
lemma reply_term (h : x.Catching p m) :
    (x.peer.onAppendEntries (x.request self p)).1.currentTerm = x.leader.currentTerm ∧
      (x.reply self p).term = x.leader.currentTerm := by
  have hle : x.peer.currentTerm ≤ (x.request self p).term := by
    rw [h.request_eq]
    exact h.term_le
  have hterm := RaftNode.onAppendEntries_term hle
  rw [show (x.request self p).term = x.leader.currentTerm by rw [h.request_eq]] at hterm
  exact hterm

variable (peers) in
/-- **A rejected round**: the next index was above one and goes back by one, and the logs stay. -/
lemma rejected (h : x.Catching p m) (hs : (x.reply self p).success = false) :
    1 < m ∧ (x.round peers self p).Catching p (m - 1) ∧
      (x.round peers self p).leader.log = x.leader.log ∧
      (x.round peers self p).peer.log = x.peer.log := by
  have hterm := h.reply_term self
  have hm : 1 < m := by
    by_contra hle
    obtain rfl : m = 1 := le_antisymm (not_lt.mp hle) h.pos
    -- the index in front of the first entry is always accepted
    have ha : x.peer.Accepts (x.request self p) := by
      rw [h.request_eq]
      exact ⟨h.term_le, Nat.zero_le _, rfl⟩
    rw [reply, RaftNode.onAppendEntries_of_accepts ha] at hs
    simp at hs
  have hpeer : (x.peer.onAppendEntries (x.request self p)).1.log = x.peer.log := by
    rcases x.peer.onAppendEntries_cases (x.request self p) with ⟨hy, -⟩ | ⟨-, he⟩
    · exact hy.log
    · rw [reply, he] at hs
      simp at hs
  have hleader : (x.leader.heartbeatReply peers p (x.request self p) (x.reply self p)).1 =
      { x.leader with nextIndex := Function.update x.leader.nextIndex p (some (m - 1)) } := by
    rw [RaftNode.heartbeatReply, if_neg (by omega), if_neg (by simp [hs]), h.next, Option.map_some,
      if_pos hm, max_eq_right (by omega)]
  have hround : x.round peers self p = ⟨{ x.leader with
      nextIndex := Function.update x.leader.nextIndex p (some (m - 1)) },
      (x.peer.onAppendEntries (x.request self p)).1⟩ := by
    rw [round, if_neg (not_not.mpr h.role), hleader]
  have hle : m - 1 ≤ x.leader.log.length + 1 := (Nat.sub_le _ _).trans h.le
  rw [hround]
  exact ⟨hm, ⟨h.role, hterm.1.le, hpeer ▸ h.logs, Function.update_self _ _ _, by omega, hle⟩,
    rfl, hpeer⟩

variable (peers) in
/-- **A successful round**: the peer has the log of the leader, and nothing behind it if entries
were sent. -/
lemma accepted (h : x.Catching p m) (hs : (x.reply self p).success = true) :
    (x.round peers self p).peer.log.take x.leader.log.length = x.leader.log ∧
      ((x.request self p).entries ≠ [] →
        (x.round peers self p).peer.log = x.leader.log ∧
        (x.round peers self p).leader.matchIndex p = some x.leader.log.length ∧
        (x.round peers self p).leader.nextIndex p = some (x.leader.log.length + 1)) := by
  have ha : x.peer.Accepts (x.request self p) := by
    rcases x.peer.onAppendEntries_cases (x.request self p) with ⟨-, -, hf⟩ | ⟨ha, -⟩
    · exact absurd (hs.symm.trans hf) (by simp)
    · exact ha
  have hlog := RaftNode.accepted_log h.logs (by rw [h.next]; rfl) h.pos h.le ha
  have hround : x.round peers self p =
      ⟨(x.leader.heartbeatReply peers p (x.request self p) (x.reply self p)).1,
        (x.peer.onAppendEntries (x.request self p)).1⟩ := if_neg (not_not.mpr h.role)
  rw [hround]
  refine ⟨hlog.1, fun hne => ⟨hlog.2 hne, ?_⟩⟩
  have hsent : (x.request self p).prevLogIndex + (x.request self p).entries.length =
      x.leader.log.length := by
    have hle := h.le
    have hpos := h.pos
    simp only [h.request_eq, List.length_drop]
    omega
  have hnot : ¬ x.leader.currentTerm < (x.reply self p).term := by
    rw [(h.reply_term self).2]
    exact lt_irrefl _
  have hreply : ∃ c, (x.leader.heartbeatReply peers p (x.request self p) (x.reply self p)).1 =
      { x.leader with
        matchIndex := Function.update x.leader.matchIndex p (some x.leader.log.length)
        nextIndex := Function.update x.leader.nextIndex p (some (x.leader.log.length + 1))
        commitIndex := c } := by
    rw [RaftNode.heartbeatReply, if_neg hnot, if_pos hs]
    simp only [if_neg hne, hsent]
    exact RaftNode.advanceCommitIndex_frame _ _
  obtain ⟨c, hc⟩ := hreply
  rw [hc]
  exact ⟨Function.update_self _ _ _, Function.update_self _ _ _⟩

end Catching

variable (peers self) in
/-- **Backtracking converges.** Within as many rounds as the next index says, the peer accepts; up
to then its log stays, and afterwards it begins with the log of the leader. If entries were sent it
is the log of the leader, and the tables say so. -/
theorem backtracking_converges (h : x.Catching p m) : ∃ k < m,
    (∀ j ≤ k, ((round peers self p)^[j] x).peer.log = x.peer.log ∧
      ((round peers self p)^[j] x).leader.log = x.leader.log) ∧
    (∀ j < k, (((round peers self p)^[j] x).reply self p).success = false) ∧
    (((round peers self p)^[k] x).reply self p).success = true ∧
    ((round peers self p)^[k + 1] x).peer.log.take x.leader.log.length = x.leader.log ∧
    ((((round peers self p)^[k] x).request self p).entries ≠ [] →
      ((round peers self p)^[k + 1] x).peer.log.length = x.leader.log.length ∧
      ((round peers self p)^[k + 1] x).leader.matchIndex p = some x.leader.log.length ∧
      ((round peers self p)^[k + 1] x).leader.nextIndex p = some (x.leader.log.length + 1)) := by
  induction m using Nat.strong_induction_on generalizing x with
  | _ m ih =>
    cases hs : (x.reply self p).success with
    | true =>
      obtain ⟨hlog, hsent⟩ := h.accepted peers hs
      refine ⟨0, h.pos, fun j hj => ?_, fun j hj => absurd hj (by omega), hs, hlog, fun hne => ?_⟩
      · obtain rfl : j = 0 := by omega
        exact ⟨rfl, rfl⟩
      · obtain ⟨hsame, htables⟩ := hsent hne
        exact ⟨congrArg List.length hsame, htables⟩
    | false =>
      obtain ⟨hm, hnext, hleader, hpeer⟩ := h.rejected peers hs
      obtain ⟨k, hk, hstay, hrej, hrest⟩ := ih (m - 1) (by omega) hnext
      rw [hleader] at hrest
      refine ⟨k + 1, by omega, fun j hj => ?_, fun j hj => ?_, hrest⟩
      · cases j with
        | zero => exact ⟨rfl, rfl⟩
        | succ j =>
          have := hstay j (by omega)
          rwa [hleader, hpeer] at this
      · cases j with
        | zero => exact hs
        | succ j => exact hrej j (by omega)

/-- The peer takes over the log of the leader within three rounds. -/
theorem backtracking_converges_divergent : ∃ k < 3,
    ((round [1] 0 1)^[k + 1] ⟨thirdLeader 3, divergentPeer⟩).peer.log.take 2 =
      (thirdLeader 3).log := by
  have hstart : Catching 1 ⟨thirdLeader 3, divergentPeer⟩ 3 :=
    ⟨rfl, by decide, divergent_match 3, rfl, by decide, by decide⟩
  obtain ⟨k, hk, -, -, -, hlog, -⟩ := backtracking_converges [1] 0 hstart
  exact ⟨k, hk, hlog⟩

end Pair

end Rounds

end VeriStore.Raft

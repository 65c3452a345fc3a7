import VeriStore.Raft.Restart

/-!
Committed entries survive careful restarts.

A node that lacks something may vote and acknowledge: with what it had it would do so too
(`Tracks.handleBehind`). So the cluster in which the nodes still have what they forgot
(`Lives.restored`) is one of `Raft.Commit` after every careful event (`Restores.event`).

* `committed_survives_restarts` — committed entries are in the logs of all later leaders;
* `restarts_break_safety` — without care a term gets two leaders, or a leader lacks a committed
  entry: a vote, a candidacy and an acknowledgement of a node that forgot are enough.
-/

namespace VeriStore.Raft

open VeriStore.Lib Relation

set_option linter.unusedSectionVars false

variable {ι : Type} [DecidableEq ι]

/-! ### Nodes that lack what they had -/

section Behind

variable {k : Former ι} {n n' : RaftNode ι}

lemma RaftNode.Follows.votedFor_eq {n₁ n₂ : RaftNode ι} (h₁ : n.Follows n₁) (h₂ : n.Follows n₂)
    (ht : n₁.currentTerm = n₂.currentTerm) : n₁.votedFor = n₂.votedFor := by
  rcases h₁ with ⟨e₁, v₁⟩ | ⟨e₁, v₁⟩
  · rcases h₂ with ⟨-, v₂⟩ | ⟨e₂, -⟩
    · rw [v₁, v₂]
    · omega
  · rcases h₂ with ⟨e₂, -⟩ | ⟨-, v₂⟩
    · omega
    · rw [v₁, v₂]

lemma Former.Covers.role_of_yields (h : k.Covers n) (hy : n.Yields n') : n'.role = .follower := by
  rcases hy.role with ⟨hr, -⟩ | hr
  · exact hr.trans h.role
  · exact hr

lemma Former.Covers.yields (h : k.Covers n) (hy : n.Yields n') :
    (k.putBack n).Yields ((k.after n').putBack n') where
  follows := h.follows hy.follows
  log := Former.after_log (hy.log ▸ h.log)
  role := by
    have hrole : n'.role = .follower := h.role_of_yields hy
    exact Or.inr hrole

lemma Former.Covers.rests (h : k.Covers n) (hr : n.Rests n') :
    (k.putBack n).Rests ((k.after n').putBack n') where
  term_le := le_max_left _ _
  log := Former.after_log (hr.log ▸ h.log)
  commitIndex := hr.commitIndex
  nextIndex := hr.nextIndex
  leader hl := by
    have := (hr.leader hl).1
    rw [h.role] at this
    cases this

variable [Fintype ι] {cfg : Config ι} {s : Cluster ι} {r : Logs ι} {i p : ι}

/-- **What a node that lacks something does, without restarts.** -/
structure Recovers (cfg : Config ι) (s : Cluster ι) (r r' : Logs ι) (p : ι) (k : Former ι)
    (n' : RaftNode ι) : Prop where
  moves : Moves r r'
  tracks : Tracks (s.setNode p ((k.after n').putBack n')) r'
  node : NodeOk cfg r' p ((k.after n').putBack n')
  covers : (k.after n').Covers n'

/-- The node keeps its log and follows. -/
lemma Tracks.yieldBehind (h : Tracks s r) (hi : r.Inv LogEntry.term)
    (hc : NodeOk cfg r p (s.nodes p)) (hs : s.nodes p = k.putBack n) (hk : k.Covers n)
    (hy : n.Yields n') (hr : n.Rests n') : ∃ r', Recovers cfg s r r' p k n' := by
  have hy' := hk.yields hy
  rw [← hs] at hy'
  obtain ⟨r', hm, -, -, ht⟩ := h.yield hi hy'
  rw [hs] at hc
  refine ⟨r', hm, ht, (hc.rests (hk.rests hr)).mono (hi.steps hm).2,
    hk.after hy.follows (hk.role_of_yields hy) ?_⟩
  rw [Former.after_log (hy.log ▸ hk.log), hy.log]
  exact hk.log

/-- **A vote** that the node would also have given with what it had. -/
lemma Tracks.grantBehind (h : Tracks s r) (hi : r.Inv LogEntry.term)
    (hc : NodeOk cfg r p (s.nodes p)) (hs : s.nodes p = k.putBack n) (hk : k.Covers n)
    (hip : i ≠ p) {req : RequestVoteReq ι} (hok : RequestOk r i (.vote req))
    (hg : (n.onRequestVote req).2.voteGranted = true)
    (hg' : ((k.putBack n).onRequestVote req).2.voteGranted = true) :
    ∃ r', Recovers cfg s r r' p k (n.onRequestVote req).1 ∧
      r'.ballots.Voted p req.term req.candidateId := by
  have hrest := n.onRequestVote_rests req
  have hrest' := (k.putBack n).onRequestVote_rests req
  have hplog : n.log <+: k.log := hk.log
  rcases n.onRequestVote_cases req with ⟨-, hno⟩ | ⟨n₁, hy₁, ht₁, -, -, he₁⟩
  · rw [hg] at hno
    cases hno
  rcases (k.putBack n).onRequestVote_cases req with ⟨-, hno⟩ | ⟨m₁, hy₂, ht₂, -, -, he₂⟩
  · rw [hg'] at hno
    cases hno
  have hle : k.term ≤ req.term := by
    have := hrest'.term_le
    rw [he₂] at this
    exact this.trans ht₂.le
  obtain ⟨r', hm, htr, hv, -⟩ := h.handle hi hip hok (p := p) trivial
  rw [hs] at htr hv
  simp only [RaftNode.handle] at htr hv
  set n' := (n.onRequestVote req).1 with hn'
  have hterm : n'.currentTerm = req.term := by rw [he₁]; exact ht₁
  have hvote : n'.votedFor = some req.candidateId := by rw [he₁]
  have hrole : n'.role = .follower := by
    have h1 := hk.role_of_yields hy₁
    rw [he₁]
    exact h1
  have hlog : (k.after n').log = k.log := Former.after_log (hrest.log ▸ hplog)
  have hafter : (k.after n').term = req.term ∧ (k.after n').votedFor = some req.candidateId := by
    simp only [Former.after, hterm, hvote, max_eq_right hle, true_and]
    split
    · rfl
    · next hlt =>
      rw [if_pos (by omega)]
      rfl
  have htr' := htr.setNode (i := p) (n := (k.after n').putBack n')
    (by rw [Cluster.setNode_self, he₂]; exact hafter.1.trans ht₂.symm)
    (by rw [Cluster.setNode_self, he₂]; exact hafter.2)
    (by rw [Cluster.setNode_self, hrest'.log]; exact hlog) (Or.inr hrole)
  rw [Cluster.setNode_setNode] at htr'
  rw [hs] at hc
  refine ⟨r', ⟨hm, htr', (hc.rests (hk.rests hrest)).mono (hi.steps hm).2, ⟨hrole, ?_, ?_, ?_⟩⟩,
    hv req _ rfl rfl hg'⟩
  · exact le_max_right _ _
  · intro c hcv
    rw [hvote] at hcv
    exact ⟨hterm.trans hafter.1.symm, hafter.2.trans hcv⟩
  · rw [hlog, hrest.log]
    exact hplog

/-- **What is committed** when the node accepts a request: the new log is a first part of the one
that is put back. -/
lemma NodeOk.acceptBehind {req : AppendEntriesReq ι} (hc : NodeOk cfg r p (k.putBack n))
    (ha : n.Accepts req)
    (hset : req.leaderCommit ≠ 0 →
      req.leaderCommit ≤ (RaftNode.appendAt n.log req.prevLogIndex req.entries).length ∧
        r.Settled LogEntry.term req.term
          ((RaftNode.appendAt n.log req.prevLogIndex req.entries).take req.leaderCommit))
    (hn' : n' = (n.followLeader req.term req.leaderId).acceptEntries req)
    (hlog : RaftNode.appendAt n.log req.prevLogIndex req.entries <+: (k.after n').log)
    (hold : k.log.take n.commitIndex <+: (k.after n').log) :
    NodeOk cfg r p ((k.after n').putBack n') := by
  have hf := n.followLeader_rests req.term req.leaderId
  obtain ⟨ht, hrole, -⟩ := RaftNode.followLeader_frame ha.1 req.leaderId
  have hcl : n.commitIndex ≤ k.log.length := hc.commit_le
  have hterm : n'.currentTerm = req.term := by rw [hn']; exact ht
  have hle : n.commitIndex ≤ (k.after n').log.length := by
    have := hold.length_le
    rwa [List.length_take, min_eq_left hcl] at this
  have htake : (k.after n').log.take n.commitIndex = k.log.take n.commitIndex := by
    rw [List.prefix_iff_eq_take.mp hold, List.length_take, min_eq_left hcl]
  have hcommit : n'.commitIndex = if n.commitIndex < req.leaderCommit then
      min req.leaderCommit (RaftNode.appendAt n.log req.prevLogIndex req.entries).length
      else n.commitIndex := by
    rw [hn']
    simp only [RaftNode.acceptEntries, hf.log, hf.commitIndex]
  constructor
  case commit_le =>
    show n'.commitIndex ≤ (k.after n').log.length
    rw [hcommit]
    split
    · exact (min_le_right _ _).trans hlog.length_le
    · exact hle
  case settled =>
    show r.Settled LogEntry.term (max k.term n'.currentTerm) ((k.after n').log.take n'.commitIndex)
    rw [hcommit]
    split
    · next hlt =>
      obtain ⟨h1, h2⟩ := hset (by omega)
      obtain ⟨u, hu⟩ := hlog
      rw [min_eq_left h1, ← hu, List.take_append_of_le_length h1]
      exact h2.of_le (hterm ▸ le_max_right _ _)
    · rw [htake]
      exact Replicas.Settled.of_le hc.settled (le_max_left _ _)
  case next_pos =>
    have hnext : n'.nextIndex = n.nextIndex := by rw [hn']; exact hf.nextIndex
    show ∀ q j, n'.nextIndex q = some j → 0 < j
    rw [hnext]
    exact hc.next_pos
  case acked =>
    intro hr
    have hrole' : n'.role = .follower := by rw [hn']; exact hrole
    exact absurd (hrole'.symm.trans hr) (by simp)

/-- What an accepted request leaves of a node that lacks something. -/
lemma RaftNode.Accepts.frame {req : AppendEntriesReq ι} (ha : n.Accepts req)
    (hn' : n' = (n.followLeader req.term req.leaderId).acceptEntries req) :
    n.Follows n' ∧ n'.currentTerm = req.term ∧ n'.role = .follower ∧
      n'.log = RaftNode.appendAt n.log req.prevLogIndex req.entries := by
  have hf := n.followLeader_yields req.term req.leaderId
  obtain ⟨ht, hrole, -⟩ := RaftNode.followLeader_frame ha.1 req.leaderId
  rw [hn']
  refine ⟨hf.follows, ht, hrole, ?_⟩
  simp only [RaftNode.acceptEntries, hf.log]

/-- **A request without entries** changes the term and the commit index. -/
lemma Tracks.noticeBehind (h : Tracks s r) (hi : r.Inv LogEntry.term)
    (hc : NodeOk cfg r p (s.nodes p)) (hs : s.nodes p = k.putBack n) (hk : k.Covers n)
    {req : AppendEntriesReq ι} (hok : RequestOk r i (.append req)) (hcm : CommitOk r req)
    (ha : n.Accepts req) (hne : req.entries = [])
    (hn' : n' = (n.followLeader req.term req.leaderId).acceptEntries req) :
    ∃ r', Recovers cfg s r r' p k n' := by
  obtain ⟨hf, -, hrole, hlog⟩ := ha.frame hn'
  have hsame : RaftNode.appendAt n.log req.prevLogIndex req.entries = n.log := by
    simp [RaftNode.appendAt, hne]
  rw [hsame] at hlog
  have hy : n.Yields n' := ⟨hf, hlog, Or.inr hrole⟩
  have hy' := hk.yields hy
  rw [← hs] at hy'
  obtain ⟨r', hm, -, -, htr⟩ := h.yield hi hy'
  have hafter : (k.after n').log = k.log := Former.after_log (hlog ▸ hk.log)
  have hcoh : r.Coherent LogEntry.term n.log := by
    refine Replicas.Coherent.of_isPrefix (hi.log_coherent p) ?_
    rw [h.log p, hs]
    exact hk.log
  rw [hs] at hc
  have hnode := hc.acceptBehind ha (settled_of_coherent hi hcoh hok hcm ha.2.1 ha.2.2) hn'
    (by rw [hsame, hafter]; exact hk.log) (by rw [hafter]; exact List.take_prefix _ _)
  refine ⟨r', hm, htr, hnode.mono (hi.steps hm).2, hk.after hf hrole ?_⟩
  rw [hafter, hlog]
  exact hk.log

/-- **A follower takes over the first `m` entries of its leader**, or keeps its log, which has them
already. -/
lemma Tracks.acceptOrKeep (h : Tracks s r) (hi : r.Inv LogEntry.term) {m : ℕ} {z : RaftNode ι}
    (hlead : (i, (s.nodes p).currentTerm) ∈ r.ballots.leaders) (hip : i ≠ p)
    (hm : m ≤ (r.leaderLog (s.nodes p).currentTerm).length)
    (hlog : z.log = (r.leaderLog (s.nodes p).currentTerm).take m ∧
        Replicas.Keeps LogEntry.term (s.nodes p).log z.log ∨
      z.log = (s.nodes p).log ∧
        (s.nodes p).log.take m = (r.leaderLog (s.nodes p).currentTerm).take m)
    (hterm : z.currentTerm = (s.nodes p).currentTerm) (hvote : z.votedFor = (s.nodes p).votedFor)
    (hrole : z.role = .follower) :
    ∃ r', Moves r r' ∧ Tracks (s.setNode p z) r' ∧ (p, (s.nodes p).currentTerm, m) ∈ r'.acks := by
  rcases hlog with ⟨htake, hkeep⟩ | ⟨hsame, htake⟩
  · exact h.accept hi hlead hip hm htake hkeep hterm hvote hrole
  · obtain ⟨r', hmv, htr, -, hack⟩ := h.confirm hi ⟨i, hlead⟩ hm htake
    exact ⟨r', hmv, htr.setNode hterm hvote hsame (Or.inr hrole), hack⟩

/-- **What is put back** behind a part of the log of a leader: the part itself, when it contradicts
the former log or is as long, and else the former log, which begins with it. -/
lemma Former.after_log_cases (hk : r.Coherent LogEntry.term k.log)
    (hn' : r.Coherent LogEntry.term n'.log) :
    (k.after n').log = n'.log ∧ Replicas.Keeps LogEntry.term k.log n'.log ∨
      (k.after n').log = k.log ∧ n'.log <+: k.log := by
  by_cases hmu : MadeUp k.log n'.log
  · exact Or.inl ⟨if_pos hmu, keeps_of_madeUp hmu⟩
  · obtain ⟨hlt, hsame⟩ := termIn_of_not_madeUp hmu
    have hfirst : k.log.take n'.log.length = n'.log := by
      rw [take_eq_of_termIn hk hn' hlt.le le_rfl hsame, List.take_length]
    exact Or.inr ⟨if_neg hmu, hfirst ▸ List.take_prefix _ _⟩

/-- **Entries of a term that is not before the former one**: the node has taken over a part of the
log of the leader, which contradicts its former log or is a first part of it. -/
lemma Tracks.acceptBehind (h : Tracks s r) (hi : r.Inv LogEntry.term)
    (hc : NodeOk cfg r p (s.nodes p)) (hs : s.nodes p = k.putBack n) (hk : k.Covers n)
    (hip : i ≠ p) {req : AppendEntriesReq ι} (hok : RequestOk r i (.append req))
    (hcm : CommitOk r req) (ha : n.Accepts req) (hne : req.entries ≠ [])
    (hle : k.term ≤ req.term)
    (hn' : n' = (n.followLeader req.term req.leaderId).acceptEntries req) :
    ∃ r', Recovers cfg s r r' p k n' ∧
      (p, req.term, req.prevLogIndex + req.entries.length) ∈ r'.acks := by
  obtain ⟨hf, hterm, hrole, hlog⟩ := ha.frame hn'
  -- with what was put back the node follows the leader first
  set y := (k.putBack n).followLeader req.term req.leaderId with hy_def
  have hy : (k.putBack n).Yields y := (k.putBack n).followLeader_yields _ _
  have hyterm : y.currentTerm = req.term :=
    (RaftNode.followLeader_frame (n := k.putBack n) hle req.leaderId).1
  have hylog : y.log = k.log := hy.log
  have haterm : (k.after n').term = y.currentTerm := by
    simp only [Former.after, hterm, max_eq_right hle, hyterm]
  have havote : (k.after n').votedFor = y.votedFor :=
    (hk.follows hf).votedFor_eq hy.follows haterm
  obtain ⟨r₁, hm₁, -, -, htr₁⟩ := h.yield hi (n := y) (hs ▸ hy)
  obtain ⟨hi₁, hg₁⟩ := hi.steps hm₁
  have hok₁ := hok.mono hg₁
  have hlead : (i, req.term) ∈ r₁.ballots.leaders := (hok₁ hne).1
  have hel : r₁.Elected req.term := ⟨i, hlead⟩
  have hcohk : r₁.Coherent LogEntry.term k.log := by
    have := hi₁.log_coherent p
    rwa [htr₁.log p, Cluster.setNode_self, hylog] at this
  have hcoh := hcohk.of_isPrefix hk.log
  -- it has taken over the first entries of the leader
  obtain ⟨htake, hlen⟩ := appendAt_eq_take hi₁ hcoh hok₁ hne ha.2.1 ha.2.2
  rw [← hlog] at htake
  have hpre : n'.log <+: r₁.leaderLog req.term := htake ▸ List.take_prefix _ _
  have hcases : (k.after n').log = n'.log ∧ Replicas.Keeps LogEntry.term k.log n'.log ∨
      (k.after n').log = k.log ∧ n'.log <+: k.log :=
    Former.after_log_cases hcohk ((hi₁.leader_coherent _ hel).of_isPrefix hpre)
  have hput : n'.log <+: (k.after n').log := by
    rcases hcases with ⟨e, -⟩ | ⟨e, h⟩
    · rw [e]
    · rwa [e]
  rw [hs] at hc
  have hc₁ := hc.mono hg₁
  have hold : k.log.take n.commitIndex <+: (k.after n').log := by
    rcases hcases with ⟨e, hkeep⟩ | ⟨e, -⟩
    · rw [e]
      exact hkeep.isPrefix hpre (List.take_prefix _ _) (hc₁.settled.leader hi₁ hel hle)
    · rw [e]
      exact List.take_prefix _ _
  have hnode : NodeOk cfg r₁ p ((k.after n').putBack n') :=
    hc₁.acceptBehind ha (settled_of_coherent hi₁ hcoh hok₁ (hcm.mono hg₁) ha.2.1 ha.2.2) hn'
      (hlog ▸ hput) hold
  have hself : (s.setNode p y).nodes p = y := Cluster.setNode_self ..
  obtain ⟨r₂, hm₂, htr₂, hack⟩ := htr₁.acceptOrKeep hi₁ (p := p) (i := i)
    (m := req.prevLogIndex + req.entries.length) (z := (k.after n').putBack n')
    (by rwa [hself, hyterm]) hip (by rwa [hself, hyterm])
    (by
      rw [hself, hyterm, hylog, ← htake]
      rcases hcases with ⟨e, hkeep⟩ | ⟨e, hfirst⟩
      · left
        exact ⟨e, (show Replicas.Keeps LogEntry.term k.log (k.after n').log from e ▸ hkeep)⟩
      · right
        have hlength : n'.log.length = req.prevLogIndex + req.entries.length := by
          rw [htake, List.length_take, min_eq_left hlen]
        exact ⟨e, by rw [← hlength]; exact (List.prefix_iff_eq_take.mp hfirst).symm⟩)
    (by rw [hself]; exact haterm) (by rw [hself]; exact havote) hrole
  rw [Cluster.setNode_setNode] at htr₂
  rw [hself, hyterm] at hack
  exact ⟨r₂, ⟨hm₁.trans hm₂, htr₂, hnode.mono (hi₁.steps hm₂).2, hk.after hf hrole hput⟩, hack⟩

/-- **A node that lacks something handles a request**: a vote and an acknowledgement stand also
for what it has had. -/
lemma Tracks.handleBehind (h : Tracks s r) (hi : r.Inv LogEntry.term)
    (hc : NodeOk cfg r p (s.nodes p)) (hs : s.nodes p = k.putBack n) (hk : k.Covers n)
    (hip : i ≠ p) {request : Request ι} (hok : RequestOk r i request)
    (hcm : ∀ req, request = .append req → CommitOk r req) (hres : Lives.Resumes k n request) :
    ∃ r', Recovers cfg s r r' p k (n.handle request).1 ∧
      (∀ req resp, request = .vote req → (n.handle request).2 = .vote resp →
        resp.voteGranted = true → r'.ballots.Voted p req.term req.candidateId) ∧
      ∀ req resp, request = .append req → (n.handle request).2 = .append resp →
        resp.success = true → req.entries ≠ [] →
        (p, req.term, req.prevLogIndex + req.entries.length) ∈ r'.acks := by
  cases request with
  | vote req =>
    by_cases hg : (n.onRequestVote req).2.voteGranted = true
    · obtain ⟨r', hr, hv⟩ := h.grantBehind hi hc hs hk hip hok hg (hres hg)
      refine ⟨r', hr, fun req' resp hreq _ _ => ?_, by simp⟩
      obtain rfl := Request.vote.inj hreq
      exact hv
    · obtain ⟨r', hr⟩ := h.yieldBehind hi hc hs hk
        (RaftNode.onRequestVote_yields (by simpa using hg)) (n.onRequestVote_rests req)
      refine ⟨r', hr, fun req' resp _ hresp hgr => ?_, by simp⟩
      simp only [RaftNode.handle, Response.vote.injEq] at hresp
      exact absurd (hresp ▸ hgr) hg
  | append req =>
    rcases n.onAppendEntries_cases req with ⟨hy, -, hfail⟩ | ⟨ha, he⟩
    · obtain ⟨r', hr⟩ := h.yieldBehind hi hc hs hk hy (n.onAppendEntries_rests req hfail)
      refine ⟨r', hr, by simp, fun req' resp _ hresp hsuc => ?_⟩
      simp only [RaftNode.handle, Response.append.injEq] at hresp
      rw [← hresp, hfail] at hsuc
      cases hsuc
    · simp only [RaftNode.handle, he]
      by_cases hne : req.entries = []
      · obtain ⟨r', hr⟩ := h.noticeBehind hi hc hs hk hok (hcm req rfl) ha hne rfl
        refine ⟨r', hr, by simp, fun req' resp hreq _ _ hne' => ?_⟩
        obtain rfl := Request.append.inj hreq
        exact absurd hne hne'
      · obtain ⟨r', hr, hack⟩ :=
          h.acceptBehind hi hc hs hk hip hok (hcm req rfl) ha hne (hres ha hne) rfl
        refine ⟨r', hr, by simp, fun req' resp hreq _ _ _ => ?_⟩
        obtain rfl := Request.append.inj hreq
        exact hack

end Behind

/-! ### The invariant -/

/-- The cluster in which every node has what it had. -/
def Lives.restored (x : Lives ι) : Cluster ι := x.cluster.restore x.memory

/-- **A cluster with restarts and the replication it refines.** -/
structure Restores [Fintype ι] (cfg : Config ι) (x : Lives ι) (r : Logs ι) : Prop where
  inv : r.Inv LogEntry.term
  tracks : Tracks x.restored r
  commits : Commits cfg x.restored r
  covers : ∀ i k, x.memory i = some k → k.Covers (x.cluster.nodes i)
  quiet : ∀ i k, x.memory i = some k → ∀ th, (x.cluster.threads i th).Quiet

/-- What is still remembered was remembered before. -/
lemma Memory.of_settle {mem : Memory ι} {s : Cluster ι} {i : ι} {k : Former ι}
    (h : mem.settle s i = some k) : ∃ k₀, mem i = some k₀ ∧ k₀.remember (s.nodes i) = some k :=
  Option.bind_eq_some_iff.mp h

lemma Former.eq_after {k k' : Former ι} {n : RaftNode ι} (h : k.remember n = some k') :
    k' = k.after n := by
  unfold Former.remember at h
  split at h
  · cases h
  · exact (Option.some.inj h).symm

section Steps

variable [Fintype ι] {cfg : Config ι} {x x' : Lives ι} {r : Logs ι}

/-- A step of nodes that lack nothing is disciplined also without restarts. -/
lemma Cluster.Disciplined.restore {s : Cluster ι} {mem : Memory ι} {a : Action ι}
    (h : s.Disciplined a) (hfree : ∀ i ∈ s.actor a, mem i = none) :
    (s.restore mem).Disciplined a := by
  obtain ⟨ho, hc⟩ := h
  constructor
  · cases a with
    | place i k =>
      intro y hy
      rw [Cluster.restore_of_none (hfree i rfl)]
      exact ho y hy
    | handle i th =>
      intro c hcall
      have hp : mem c.peer = none := hfree c.peer (by
        simp only [Cluster.actor, Option.mem_def, Option.map_eq_some_iff]
        exact ⟨c, hcall, rfl⟩)
      rw [Cluster.restore_of_none hp]
      exact ho c hcall
    | handleLate n =>
      intro y hy
      have hp : mem y.1 = none := hfree y.1 (by
        simp only [Cluster.actor, Option.mem_def, Option.map_eq_some_iff]
        exact ⟨y, hy, rfl⟩)
      rw [Cluster.restore_of_none hp]
      exact ho y hy
    | _ => trivial
  · cases a with
    | resume i th lost =>
      cases lost with
      | true => trivial
      | false =>
        intro req hreq
        rw [Cluster.restore_of_none (hfree i rfl)]
        exact hc req hreq
    | _ => trivial

/-- **A node is created again**: without restarts it has stepped down, has forgotten what is
committed, and its threads are lost. -/
lemma Restores.restart (h : Restores cfg x r) (i : ι) :
    Restores cfg ⟨x.cluster.restart i, Function.update x.memory i
      (some ((x.memory i).getD (.of (x.cluster.nodes i))))⟩ r := by
  have hnode : x.restored.nodes i = _ := Cluster.restore_getD i
  have hrest : (x.cluster.restart i).restore (Function.update x.memory i
      (some ((x.memory i).getD (.of (x.cluster.nodes i))))) = _ := Cluster.restore_restart i
  set k := (x.memory i).getD (.of (x.cluster.nodes i))
  have htr : Tracks (x.restored.setNode i (k.putBack RaftNode.init)) r :=
    h.tracks.setNode (by rw [hnode]; rfl) (by rw [hnode]; rfl) (by rw [hnode]; rfl) (Or.inr rfl)
  have hcm : Commits cfg (x.restored.setNode i (k.putBack RaftNode.init)) r :=
    h.commits.setNode ⟨Nat.zero_le _, .nil, fun p j hj => (by cases hj), fun hr => (by cases hr)⟩
  refine ⟨h.inv, ?_, ?_, fun j k' hj => ?_, fun j k' hj th => ?_⟩
  · rw [Lives.restored, hrest]
    refine { htr with threads := fun j th => ?_ }
    by_cases hj : j = i
    · subst hj
      simpa using ThreadOk.idle
    · simp only [Function.update_of_ne hj]
      exact htr.threads j th
  · rw [Lives.restored, hrest]
    refine { hcm with threads := fun j th => ?_ }
    by_cases hj : j = i
    · subst hj
      simpa using CallOk.idle
    · simp only [Function.update_of_ne hj]
      exact hcm.threads j th
  · by_cases hji : j = i
    · subst hji
      simp only [Cluster.restart, Cluster.setNode, Function.update_self]
      exact ⟨rfl, Nat.zero_le _, fun c hv => (by cases hv), List.nil_prefix⟩
    · simp only [Function.update_of_ne hji] at hj
      simpa [Cluster.restart, Cluster.setNode, hji] using h.covers j k' hj
  · by_cases hji : j = i
    · subst hji
      simp [Cluster.restart, ThreadState.Quiet]
    · simp only [Function.update_of_ne hji] at hj
      simpa [Cluster.restart, Cluster.setNode, hji] using h.quiet j k' hj th

/-- **A step after which the nodes that lack something are as before**, one of them apart. -/
lemma Restores.next (h : Restores cfg x r) {s' : Cluster ι} {r' : Logs ι} {i : ι}
    (hm : Moves r r') (ht : Tracks (s'.restore (x.memory.settle s')) r')
    (hc : Commits cfg (s'.restore (x.memory.settle s')) r')
    (hnodes : ∀ j ≠ i, ∀ k, x.memory j = some k → s'.nodes j = x.cluster.nodes j)
    (hi : ∀ k k', x.memory i = some k → k.remember (s'.nodes i) = some k' → k'.Covers (s'.nodes i))
    (hq : ∀ j k, x.memory.settle s' j = some k → ∀ th, (s'.threads j th).Quiet) :
    Restores cfg ⟨s', x.memory.settle s'⟩ r' := by
  refine ⟨(h.inv.steps hm).1, ht, hc, fun j k' hj => ?_, hq⟩
  obtain ⟨k, hk, hrem⟩ := Memory.of_settle hj
  by_cases hji : j = i
  · subst hji
    exact hi k k' hk hrem
  · have hcov := h.covers j k hk
    simp only [hnodes j hji k hk] at hrem ⊢
    exact hcov.remember hrem ▸ hcov

/-- A step of nodes that lack nothing. -/
lemma Restores.free (h : Restores cfg x r) {a : Action ι} {s' : Cluster ι}
    (hd : x.cluster.Disciplined a) (he : Cluster.Effect cfg x.cluster a s')
    (hfree : ∀ i ∈ x.cluster.actor a, x.memory i = none) :
    ∃ r', Moves r r' ∧ Restores cfg ⟨s', x.memory.settle s'⟩ r' := by
  obtain ⟨r', hm, ht, hc⟩ :=
    h.tracks.disciplined h.inv h.commits (hd.restore hfree) (he.restore hfree)
  have hframe : ∀ j k, x.memory j = some k → s'.nodes j = x.cluster.nodes j ∧
      ∀ th, (s'.threads j th).Quiet := by
    intro j k hj
    refine he.frame (fun ha => ?_) (h.quiet j k hj)
    have := hfree j ha
    simp [this] at hj
  have hcov : ∀ j k, x.memory j = some k → k.Covers (s'.nodes j) := by
    intro j k hj
    rw [(hframe j k hj).1]
    exact h.covers j k hj
  have hsame := Cluster.restore_settle (s := s') hcov
  refine ⟨r', hm, (h.inv.steps hm).1, ?_, ?_, fun j k' hj => ?_, fun j k' hj => ?_⟩
  · rwa [Lives.restored, hsame]
  · rwa [Lives.restored, hsame]
  · obtain ⟨k, hk, hrem⟩ := Memory.of_settle hj
    exact (hcov j k hk).remember hrem ▸ hcov j k hk
  · obtain ⟨k, hk, -⟩ := Memory.of_settle hj
    exact (hframe j k hk).2

/-- **A node that lacks something becomes `n`**, and one of its threads goes on. -/
lemma Restores.one (h : Restores cfg x r) {i : ι} {k : Former ι} (hm : x.memory i = some k)
    {n : RaftNode ι} {th : Thread} {y : ThreadState ι} {a : Action ι}
    (hd : x.restored.Disciplined a)
    (he : Cluster.Effect cfg x.restored a
      ((x.restored.setNode i ((k.after n).putBack n)).setThread i th y))
    (hcov : ∀ k', k.remember n = some k' → k'.Covers n ∧ y.Quiet) :
    ∃ r', Moves r r' ∧ Restores cfg ⟨(x.cluster.setNode i n).setThread i th y,
      x.memory.settle ((x.cluster.setNode i n).setThread i th y)⟩ r' := by
  obtain ⟨r', hmv, ht, hc⟩ := h.tracks.disciplined h.inv h.commits hd he
  have hrest := Cluster.restore_settle_setNode hm (fun j _ k hj => h.covers j k hj) n
  have hall : ((x.cluster.setNode i n).setThread i th y).restore
      (x.memory.settle ((x.cluster.setNode i n).setThread i th y)) =
      (x.restored.setNode i ((k.after n).putBack n)).setThread i th y :=
    congrArg (fun s => Cluster.setThread s i th y) hrest
  refine ⟨r', hmv, h.next (i := i) hmv (hall ▸ ht) (hall ▸ hc) (fun j hj k _ => ?_)
    (fun k₀ k' hk₀ hrem => ?_) fun j k' hj => ?_⟩
  · simp [Cluster.setThread, Cluster.setNode, hj]
  · rw [hm] at hk₀
    obtain rfl := Option.some.inj hk₀
    simp only [Cluster.setThread, Cluster.setNode, Function.update_self] at hrem ⊢
    exact (hcov k' hrem).1
  · obtain ⟨k₀, hk₀, hrem⟩ := Memory.of_settle hj
    by_cases hji : j = i
    · subst hji
      rw [hm] at hk₀
      obtain rfl := Option.some.inj hk₀
      simp only [Cluster.setThread, Cluster.setNode, Function.update_self] at hrem
      exact fun th' => Cluster.forall_setThread (P := fun i z => i = j → z.Quiet)
        (fun i th₁ hi => hi ▸ h.quiet j k hm th₁) (fun _ => (hcov k' hrem).2) j th' rfl
    · intro th'
      simpa [Cluster.setThread, Cluster.setNode, hji] using h.quiet j k₀ hk₀ th'

/-- **A node stands** that has what it had, its vote apart. -/
lemma Restores.stand (h : Restores cfg x r) {i : ι} {k : Former ι} (hm : x.memory i = some k)
    (hth : x.cluster.threads i .election = ⟨.timedOut, none⟩)
    (hmay : Lives.MayStand k (x.cluster.nodes i)) :
    let s' := (x.cluster.setNode i ((x.cluster.nodes i).becomeCandidate i)).setThread i .election
      (.loop (.electing 1) (.vote (((x.cluster.nodes i).becomeCandidate i).voteRequest i)) .idle
        (cfg.peers i))
    ∃ r', Moves r r' ∧ Restores cfg ⟨s', x.memory.settle s'⟩ r' := by
  obtain ⟨hle, hlog⟩ := hmay
  have hterm : k.term = (x.cluster.nodes i).currentTerm := le_antisymm hle (h.covers i k hm).term
  set n := (x.cluster.nodes i).becomeCandidate i with hn
  have hafter : k.after n = .of n := by
    have hlt : k.term < n.currentTerm := hterm ▸ Nat.lt_succ_self _
    have hmu : MadeUp k.log n.log := Or.inl (congrArg List.length hlog).le
    simp only [Former.after, Former.of, max_eq_right hlt.le, if_pos hlt, if_pos hmu]
  have hnode : (x.restored.nodes i).becomeCandidate i = (k.after n).putBack n := by
    rw [hafter, Lives.restored, Cluster.restore_of_some hm]
    simp only [RaftNode.becomeCandidate, Former.putBack, Former.of, hn, hterm, hlog]
  refine h.one hm (a := .stand i) ⟨trivial, trivial⟩ ?_ fun k' hrem => ?_
  · have he : Cluster.Effect cfg x.restored _ _ := .stand i hth
    rw [hnode] at he
    rw [hafter] at he ⊢
    exact he
  · simp [Former.remember, hafter] at hrem

/-- **The apply thread** of a node that lacks something takes an entry it would also take with what
it had. -/
lemma Restores.take (h : Restores cfg x r) {i : ι} {k : Former ι} (hm : x.memory i = some k)
    {e : LogEntry} (hth : x.cluster.threads i .apply = .idle)
    (hlt : (x.cluster.nodes i).lastApplied < (x.cluster.nodes i).commitIndex)
    (hget : (x.cluster.nodes i).log[(x.cluster.nodes i).lastApplied]? = some e) :
    let s' := (x.cluster.setNode i (x.cluster.nodes i).noteApplied).setThread i .apply
      ⟨.applying ((x.cluster.nodes i).lastApplied + 1) e, none⟩
    ∃ r', Moves r r' ∧ Restores cfg ⟨s', x.memory.settle s'⟩ r' := by
  have hcov := h.covers i k hm
  have hcov' : k.Covers (x.cluster.nodes i).noteApplied :=
    ⟨hcov.role, hcov.term, hcov.votedFor, hcov.log⟩
  have hnode : x.restored.nodes i = k.putBack (x.cluster.nodes i) := Cluster.restore_of_some hm
  refine h.one hm (a := .take i) ⟨trivial, trivial⟩ ?_ fun k' hrem => ?_
  · obtain ⟨u, hu⟩ := hcov.log
    have hgetk : k.log[(x.cluster.nodes i).lastApplied]? = some e := by
      rw [← hu, List.getElem?_append_left (List.getElem?_eq_some_iff.mp hget).1]
      exact hget
    have he : Cluster.Effect cfg x.restored _ _ := .take i e hth (by rw [hnode]; exact hlt)
      (by rw [hnode]; exact hgetk)
    rw [hnode] at he
    rw [hcov'.after_eq]
    exact he
  · rw [hcov'.remember hrem]
    exact ⟨hcov', Or.inr (Or.inr ⟨_, _, rfl⟩)⟩

/-- It applies the entry. -/
lemma Restores.apply (h : Restores cfg x r) {i : ι} {index : ℕ} {e : LogEntry}
    (hth : x.cluster.threads i .apply = ⟨.applying index e, none⟩) :
    let s' := { x.cluster.setThread i .apply .idle with
      applied := (i, index, e) :: x.cluster.applied }
    ∃ r', Moves r r' ∧ Restores cfg ⟨s', x.memory.settle s'⟩ r' := by
  intro s'
  obtain ⟨r', hmv, ht, hc⟩ := h.tracks.disciplined h.inv h.commits (a := .apply i)
    ⟨trivial, trivial⟩ (.apply i index e hth)
  have hrest : s'.restore (x.memory.settle s') = s'.restore x.memory :=
    Cluster.restore_settle (s := s') h.covers
  refine ⟨r', hmv, h.next (i := i) hmv (by rw [hrest]; exact ht) (by rw [hrest]; exact hc)
    (fun j _ k _ => rfl) (fun k k' hk hrem => ?_) fun j k' hj th => ?_⟩
  · exact (h.covers i k hk).remember hrem ▸ h.covers i k hk
  · obtain ⟨k, hk, -⟩ := Memory.of_settle hj
    exact Cluster.forall_setThread (P := fun i z => i = j → z.Quiet)
      (fun i th₁ hi => hi ▸ h.quiet j k hk th₁) (fun _ => Or.inl rfl) j th rfl

lemma Restores.setThread (h : Restores cfg x r) {i : ι} {th : Thread} {y : ThreadState ι}
    (hi : x.memory i = none) (hy : ThreadOk r i y) (hc : CallOk r y) :
    Restores cfg ⟨x.cluster.setThread i th y, x.memory⟩ r := by
  refine ⟨h.inv, h.tracks.setThread hy, h.commits.setThread hc, h.covers, fun j k hj => ?_⟩
  have hji : j ≠ i := by
    rintro rfl
    simp [hi] at hj
  intro th'
  simpa [Cluster.setThread, hji] using h.quiet j k hj th'

/-- **A node that lacks something handles a request.** -/
lemma Restores.handle (h : Restores cfg x r) {p : ι} {k : Former ι} (hm : x.memory p = some k)
    {i : ι} (hip : i ≠ p) {request : Request ι} (hok : RequestOk r i request)
    (hc : ∀ req, request = .append req → CommitOk r req)
    (hres : Lives.Resumes k (x.cluster.nodes p) request) :
    let s' := x.cluster.setNode p ((x.cluster.nodes p).handle request).1
    ∃ r', Moves r r' ∧ Restores cfg ⟨s', x.memory.settle s'⟩ r' ∧
      (∀ req resp, request = .vote req → ((x.cluster.nodes p).handle request).2 = .vote resp →
        resp.voteGranted = true → r'.ballots.Voted p req.term req.candidateId) ∧
      ∀ req resp, request = .append req → ((x.cluster.nodes p).handle request).2 = .append resp →
        resp.success = true → req.entries ≠ [] →
        (p, req.term, req.prevLogIndex + req.entries.length) ∈ r'.acks := by
  obtain ⟨r', ⟨hmv, htr, hnode, hcov⟩, hv, hack⟩ := h.tracks.handleBehind h.inv
    (h.commits.nodes p) (Cluster.restore_of_some hm) (h.covers p k hm) hip hok hc hres
  have hrest := Cluster.restore_settle_setNode hm (fun j _ k hj => h.covers j k hj)
    ((x.cluster.nodes p).handle request).1
  have hcm := (h.commits.mono (h.inv.steps hmv).2).setNode hnode
  refine ⟨r', hmv, h.next (i := p) hmv (by rw [hrest]; exact htr) (by rw [hrest]; exact hcm)
    (fun j hj k' _ => ?_) (fun k₀ k' hk₀ hrem => ?_) (fun j k' hj => ?_), hv, hack⟩
  · simp [Cluster.setNode, hj]
  · rw [hm] at hk₀
    obtain rfl := Option.some.inj hk₀
    rw [Cluster.setNode_self] at hrem ⊢
    exact Former.eq_after hrem ▸ hcov
  · obtain ⟨k₀, hk₀, -⟩ := Memory.of_settle hj
    exact h.quiet j k₀ hk₀

/-- A call is handled by a node that lacks something. -/
lemma Restores.handleCall (h : Restores cfg x r) {j p : ι} {th : Thread} {pc : Pc ι}
    {request : Request ι} {k : Former ι} (hm : x.memory p = some k)
    (hth : x.cluster.threads j th = ⟨pc, some ⟨p, request, none⟩⟩)
    (hres : Lives.Resumes k (x.cluster.nodes p) request) :
    let s' := (x.cluster.setNode p ((x.cluster.nodes p).handle request).1).setThread j th
      ⟨pc, some ⟨p, request, some ((x.cluster.nodes p).handle request).2⟩⟩
    ∃ r', Moves r r' ∧ Restores cfg ⟨s', x.memory.settle s'⟩ r' := by
  have hcall : (x.cluster.threads j th).call = some ⟨p, request, none⟩ := by rw [hth]
  have hok := h.tracks.threads j th
  have hcm := h.commits.threads j th
  -- the thread that called is not quiet
  have hj : x.memory j = none := by
    by_contra hne
    obtain ⟨k', hk'⟩ := Option.ne_none_iff_exists'.mp hne
    have := (h.quiet j k' hk' th).call
    simp [hcall] at this
  obtain ⟨r', hmv, hr', hv, hack⟩ := h.handle hm (hok.peer_ne _ hcall).symm
    (hok.request _ hcall) (fun req hreq => hcm.request _ req hcall hreq) hres
  have hg := (h.inv.steps hmv).2
  have hok' := hok.mono hg
  have hcm' := hcm.mono hg
  have hth' : x.restored.threads j th = ⟨pc, some ⟨p, request, none⟩⟩ := hth
  rw [hth'] at hok' hcm'
  refine ⟨r', hmv, hr'.setThread ?_ (hok'.answered hv hack)
    ⟨fun c req hc hreq => ?_, hcm'.applying⟩⟩
  · simp [Memory.settle, hj]
  · obtain rfl := Option.some.inj hc
    exact hcm'.request ⟨p, request, none⟩ req rfl hreq

/-- A request that was given up is handled by a node that lacks something. -/
lemma Restores.handleLate (h : Restores cfg x r) {m : ℕ} {p : ι} {request : Request ι}
    {k : Former ι} (hm : x.memory p = some k) (hl : x.cluster.late[m]? = some (p, request))
    (hres : Lives.Resumes k (x.cluster.nodes p) request) :
    let s' := { x.cluster.setNode p ((x.cluster.nodes p).handle request).1 with
      late := x.cluster.late.eraseIdx m }
    ∃ r', Moves r r' ∧ Restores cfg ⟨s', x.memory.settle s'⟩ r' := by
  have hmem := List.mem_of_getElem? hl
  obtain ⟨j, hjp, hok⟩ := h.tracks.late p request hmem
  obtain ⟨r', hmv, hr', -, -⟩ := h.handle hm hjp hok
    (fun req hreq => h.commits.late p req (hreq ▸ hmem)) hres
  have htr := hr'.tracks
  have hcm := hr'.commits
  exact ⟨r', hmv, hr'.inv,
    { htr with late := fun q rq hq => htr.late q rq (List.mem_of_mem_eraseIdx hq) },
    { hcm with late := fun q req hq => hcm.late q req (List.mem_of_mem_eraseIdx hq) },
    hr'.covers, hr'.quiet⟩

/-- **Every careful event keeps the invariant.** -/
theorem Restores.event (h : Restores cfg x r) {e : Event ι} (hcare : x.Careful e)
    (he : x.event cfg e = some x') : ∃ r', Moves r r' ∧ Restores cfg x' r' := by
  cases e with
  | restart i =>
    obtain rfl := Option.some.inj he
    exact ⟨r, .refl, h.restart i⟩
  | step a =>
    obtain ⟨s', hstep, rfl⟩ := Option.map_eq_some_iff.mp he
    obtain ⟨hd, hstand, hres⟩ := hcare
    have heff := Cluster.step_effect hstep
    by_cases hfree : ∀ i ∈ x.cluster.actor a, x.memory i = none
    · exact h.free hd heff hfree
    push Not at hfree
    obtain ⟨i, hact, hmem⟩ := hfree
    obtain ⟨k, hm⟩ := Option.ne_none_iff_exists'.mp hmem
    have hq := h.quiet i k hm
    have hrole := (h.covers i k hm).role
    -- a node that lacks something is a follower and makes no calls
    have hbusy : ∀ {th : Thread} {y : ThreadState ι}, x.cluster.threads i th = y → ¬ y.Quiet →
        ∃ r', Moves r r' ∧ Restores cfg ⟨s', x.memory.settle s'⟩ r' :=
      fun hy hn => absurd (hy ▸ hq _) hn
    cases heff with
    | timeout => simp [Cluster.actor] at hact
    | stand j hth =>
      obtain rfl := Option.some.inj hact
      exact h.stand hm hth (hstand k hm)
    | beat j hth hr =>
      obtain rfl := Option.some.inj hact
      simp [hrole] at hr
    | buildEnd j rest hth =>
      obtain rfl := Option.some.inj hact
      exact hbusy hth (by simp [ThreadState.Quiet, ThreadState.idle])
    | build j p rest hth =>
      obtain rfl := Option.some.inj hact
      exact hbusy hth (by simp [ThreadState.Quiet, ThreadState.idle])
    | refused _ hpr =>
      have hsame := Cluster.restore_settle (s := x.cluster) h.covers
      refine ⟨r, .refl, h.next (i := i) .refl (by rw [hsame]; exact h.tracks)
        (by rw [hsame]; exact h.commits) (fun _ _ _ _ => rfl) (fun k k' hk hrem => ?_)
        fun j k' hj => ?_⟩
      · exact (h.covers i k hk).remember hrem ▸ h.covers i k hk
      · obtain ⟨k, hk, -⟩ := Memory.of_settle hj
        exact h.quiet j k hk
    | propose _ j m e hpr hth hr =>
      have hji : j = i := by
        rcases hpr with ⟨key, value, rfl⟩ | ⟨key, rfl⟩
        all_goals exact Option.some.inj hact
      subst hji
      simp [hrole] at hr
    | place j m e index hth =>
      obtain rfl := Option.some.inj hact
      exact hbusy hth (by simp [ThreadState.Quiet, ThreadState.idle])
    | notifyNone j m e index hth =>
      obtain rfl := Option.some.inj hact
      exact hbusy hth (by simp [ThreadState.Quiet, ThreadState.idle])
    | notify j m e index p rest hth =>
      obtain rfl := Option.some.inj hact
      exact hbusy hth (by simp [ThreadState.Quiet, ThreadState.idle])
    | take j e hth hlt hget =>
      obtain rfl := Option.some.inj hact
      exact h.take hm hth hlt hget
    | apply j index e hth => exact h.apply hth
    | handle j th pc p request hth =>
      have hcall : (x.cluster.threads j th).call = some ⟨p, request, none⟩ := by rw [hth]
      obtain rfl : p = i := by simpa [Cluster.actor, hcall] using hact
      exact h.handleCall hm hth (hres (p, request) (by simp [Cluster.handling, hcall]) k hm)
    | handleLate m p request hl =>
      obtain rfl : p = i := by simpa [Cluster.actor, hl] using hact
      exact h.handleLate hm hl (hres (p, request) hl k hm)
    | election j th lost votes rest p req ans resp s₀ hr =>
      obtain rfl := Option.some.inj hact
      exact hbusy hr.thread (by simp [ThreadState.Quiet, ThreadState.idle])
    | heartbeat j th lost rest p req ans resp s₀ hr =>
      obtain rfl := Option.some.inj hact
      exact hbusy hr.thread (by simp [ThreadState.Quiet, ThreadState.idle])
    | proposal j th lost e index acks rest p req ans resp s₀ hr =>
      obtain rfl := Option.some.inj hact
      exact hbusy hr.thread (by simp [ThreadState.Quiet, ThreadState.idle])
    | notice j th lost e index rest p req ans resp s₀ hr =>
      obtain rfl := Option.some.inj hact
      exact hbusy hr.thread (by simp [ThreadState.Quiet, ThreadState.idle])

lemma init_restores : Restores cfg (Lives.init : Lives ι) Replicas.init where
  inv := Replicas.init_inv
  tracks := init_tracks
  commits := init_commits
  covers := by simp [Lives.init]
  quiet := by simp [Lives.init]

/-- **A careful run keeps the invariant.** -/
theorem run_restores {es : List (Event ι)} (h : Restores cfg x r) (ha : x.AllCareful cfg es)
    (hrun : x.run cfg es = some x') : ∃ r', Moves r r' ∧ Restores cfg x' r' := by
  induction es generalizing x r with
  | nil =>
    obtain rfl := Option.some.inj hrun
    exact ⟨r, .refl, h⟩
  | cons e es ih =>
    obtain ⟨x₁, hev, hrest⟩ := Option.bind_eq_some_iff.mp
      (show (x.event cfg e).bind (fun x₁ => x₁.run cfg es) = some x' from hrun)
    obtain ⟨r₁, hm₁, h₁⟩ := h.event ha.1 hev
    obtain ⟨r₂, hm₂, h₂⟩ := ih h₁ (ha.2 x₁ hev) hrest
    exact ⟨r₂, hm₁.trans hm₂, h₂⟩

/-! ### Leaders -/

/-- A leader lacks nothing. -/
lemma Restores.leader_node (h : Restores cfg x r) {i : ι}
    (hr : (x.cluster.nodes i).role = .leader) : x.restored.nodes i = x.cluster.nodes i := by
  refine Cluster.restore_of_none ?_
  by_contra hne
  obtain ⟨n, hn⟩ := Option.ne_none_iff_exists'.mp hne
  simp [(h.covers i n hn).role] at hr

/-- What a leader has committed is settled. -/
lemma Restores.settled (h : Restores cfg x r) {i : ι} (hr : (x.cluster.nodes i).role = .leader) :
    r.Settled LogEntry.term (x.cluster.nodes i).currentTerm
      ((x.cluster.nodes i).log.take (x.cluster.nodes i).commitIndex) := by
  have := (h.commits.nodes i).settled
  rwa [h.leader_node hr] at this

/-- A leader has the log it was elected with, at any later time. -/
lemma Restores.first (h : Restores cfg x r) {R : Logs ι} (hg : r.Grows R) {i : ι}
    (hr : (x.cluster.nodes i).role = .leader) : R.Elected (x.cluster.nodes i).currentTerm ∧
      R.first (x.cluster.nodes i).currentTerm <+: (x.cluster.nodes i).log := by
  have hnode := h.leader_node hr
  have hlead := h.tracks.leader i (by rw [hnode]; exact hr)
  have hterm := h.tracks.term i
  have hlog := h.tracks.log i
  rw [hnode] at hlead hterm hlog
  have hel : r.Elected (x.cluster.nodes i).currentTerm := ⟨i, hlead⟩
  refine ⟨hg.elected _ hel, ?_⟩
  rw [hg.first _ hel, ← hlog, h.inv.led_log i _ hlead hterm]
  exact h.inv.first_le _ hel

/-- **A leader of a later term has what was settled when it was elected.** -/
lemma settled_first {R : Logs ι} {p : List LogEntry} {t u : ℕ} (h : R.Settled LogEntry.term t p)
    (hi : R.Inv LogEntry.term) (hu : R.Elected u) (htu : t < u) : p <+: R.first u := by
  rcases h with rfl | ⟨w, k, hw, hc, hk⟩
  · exact List.nil_prefix
  · exact hk.trans (hi.leader_complete hc hu (by omega))

end Steps

/-- **Committed entries survive restarts.** In every careful run, an entry that a leader has
committed is at its index in the log of every leader of a later term, before and after, and a term
has at most one leader. -/
theorem committed_survives_restarts [Fintype ι] (cfg : Config ι) {es es' : List (Event ι)}
    {x x' : Lives ι} (hrun : Lives.init.run cfg es = some x) (hrun' : x.run cfg es' = some x')
    (ha : Lives.init.AllCareful cfg es) (ha' : x.AllCareful cfg es') :
    (∀ y ∈ [x, x'], ∀ z ∈ [x, x'], ∀ i j index e,
      (y.cluster.nodes i).role = .leader → 0 < index → index ≤ (y.cluster.nodes i).commitIndex →
      (y.cluster.nodes i).log[index - 1]? = some e → (z.cluster.nodes j).role = .leader →
      (y.cluster.nodes i).currentTerm < (z.cluster.nodes j).currentTerm →
      (z.cluster.nodes j).log[index - 1]? = some e) ∧
    ∀ i j t l l', (i, t, l) ∈ x'.cluster.elected → (j, t, l') ∈ x'.cluster.elected → i = j := by
  obtain ⟨r, hm, h⟩ := run_restores init_restores ha hrun
  obtain ⟨r', hm', h'⟩ := run_restores h ha' hrun'
  have hg : r.Grows r' := (h.inv.steps hm').2
  have hboth : ∀ y ∈ [x, x'], ∃ s, Restores cfg y s ∧ s.Grows r' := by
    intro y hy
    simp only [List.mem_cons, List.not_mem_nil, or_false] at hy
    rcases hy with rfl | rfl
    · exact ⟨r, h, hg⟩
    · exact ⟨r', h', .refl r'⟩
  constructor
  · intro y hy z hz i j index e hi hpos hle hget hj hlt
    obtain ⟨s, hs, hgs⟩ := hboth y hy
    obtain ⟨s', hs', hgs'⟩ := hboth z hz
    obtain ⟨hel, hfirst⟩ := hs'.first hgs' hj
    obtain ⟨u, hu⟩ := (settled_first ((hs.settled hi).mono hgs) h'.inv hel hlt).trans hfirst
    have hlen := (List.getElem?_eq_some_iff.mp hget).1
    rw [← hu, List.getElem?_append_left (by rw [List.length_take]; omega),
      List.getElem?_take_of_lt (by omega)]
    exact hget
  · intro i j t l l' hil hjl
    exact h'.inv.fair.leader_unique ((h'.tracks.leaders i t).mpr ⟨l, hil⟩)
      ((h'.tracks.leaders j t).mpr ⟨l', hjl⟩)

/-- A run without restarts. -/
def steps (as : List (Action (Fin 3))) : List (Event (Fin 3)) := as.map .step

/-- The second node votes for the first one, is created again and votes for the third one. -/
def restartedVoter : List (Event (Fin 3)) :=
  steps firstElection ++ [.restart 1] ++ steps [.timeout 2, .stand 2, .resume 2 .election true,
    .handle 2 .election, .resume 2 .election false]

/-- Two nodes have become leader in the first term. -/
theorem restart_two_leaders : ∃ x, Lives.init.run threeNodes restartedVoter = some x ∧
    (0, 1, []) ∈ x.cluster.elected ∧ (2, 1, []) ∈ x.cluster.elected := by
  have h : (Lives.init.run threeNodes restartedVoter).map (fun x => x.cluster.elected) =
      some [(2, 1, []), (0, 1, [])] := by
    decide +kernel
  obtain ⟨x, hrun, hx⟩ := Option.map_eq_some_iff.mp h
  exact ⟨x, hrun, by simp [hx], by simp [hx]⟩

/-- The first node commits an entry with the second one. -/
def commitFirst : List (Event (Fin 3)) :=
  steps (firstElection ++ [.proposePut 0 0 (text "a") (text "1"), .beat 0, .build 0,
    .handle 0 .heartbeat, .resume 0 .heartbeat false])

/-- The third node stands in the first term, in which nobody votes for it. -/
def standAlone : List (Action (Fin 3)) :=
  [.timeout 2, .stand 2, .resume 2 .election true, .resume 2 .election true]

/-- The third node becomes leader of the second term with the vote of the second one. -/
def electThird : List (Action (Fin 3)) :=
  [.timeout 2, .stand 2, .resume 2 .election true, .handle 2 .election, .resume 2 .election false]

/-- The second node is created again and votes without the entry it has acknowledged. -/
def forgetfulVoter : List (Event (Fin 3)) :=
  commitFirst ++ steps standAlone ++ [.restart 1] ++ steps electThird

/-- The second node is created again and stands without the entry it has acknowledged. -/
def forgetfulCandidate : List (Event (Fin 3)) :=
  commitFirst ++ [.restart 1] ++ steps [.timeout 1, .stand 1, .resume 1 .election true,
    .resume 1 .election true, .timeout 1, .stand 1, .resume 1 .election true, .handle 1 .election,
    .resume 1 .election false]

/-- The second node votes in the second term, is created again and acknowledges an entry of the
leader of the first one. -/
def forgetfulFollower : List (Event (Fin 3)) :=
  steps (firstElection ++ [.proposePut 0 0 (text "a") (text "1")] ++ standAlone ++ electThird) ++
    [.restart 1] ++ steps [.beat 0, .build 0, .handle 0 .heartbeat, .resume 0 .heartbeat false]

/-- A leader has committed its first entry, and a leader of a later term does not have it. -/
def Lives.LacksFirst (x : Lives (Fin 3)) : Prop :=
  ∃ i j, (x.cluster.nodes i).role = .leader ∧ 0 < (x.cluster.nodes i).commitIndex ∧
    (x.cluster.nodes i).log[0]?.isSome ∧ (x.cluster.nodes j).role = .leader ∧
    (x.cluster.nodes i).currentTerm < (x.cluster.nodes j).currentTerm ∧
    (x.cluster.nodes j).log[0]? = none

instance (x : Lives (Fin 3)) : Decidable x.LacksFirst := inferInstanceAs (Decidable (∃ _ _, _))

/-- Each of the three ways loses the entry. -/
theorem restart_loses_entry : ∀ es ∈ [forgetfulVoter, forgetfulCandidate, forgetfulFollower],
    ∃ x, Lives.init.run threeNodes es = some x ∧ x.LacksFirst := by
  have h : ∀ es ∈ [forgetfulVoter, forgetfulCandidate, forgetfulFollower],
      ((Lives.init.run threeNodes es).any fun x => decide x.LacksFirst) = true := by
    decide +kernel
  intro es hes
  obtain ⟨x, hrun, hx⟩ := (Option.any_eq_true _ _).mp (h es hes)
  exact ⟨x, hrun, of_decide_eq_true hx⟩

/-- **What restarts break**: a term has two leaders, and later leaders lack what is committed. -/
theorem restarts_break_safety :
    (∃ x, Lives.init.run threeNodes restartedVoter = some x ∧
      (0, 1, []) ∈ x.cluster.elected ∧ (2, 1, []) ∈ x.cluster.elected) ∧
    ∀ es ∈ [forgetfulVoter, forgetfulCandidate, forgetfulFollower],
      ∃ x, Lives.init.run threeNodes es = some x ∧ x.LacksFirst :=
  ⟨restart_two_leaders, restart_loses_entry⟩

/-- The second node is created again. The leader of its term gives it its entry back with the
second heartbeat, and it becomes leader of the next term with the vote of the third node. -/
def restartedFollower : List (Event (Fin 3)) :=
  .restart 1 :: steps [.build 0, .resume 0 .heartbeat true, .build 0, .beat 0, .build 0,
    .handle 0 .heartbeat, .resume 0 .heartbeat false, .build 0, .resume 0 .heartbeat true, .build 0,
    .beat 0, .build 0, .handle 0 .heartbeat, .timeout 1, .stand 1, .resume 1 .election true,
    .handle 1 .election, .resume 1 .election false]

/-- The new leader is the node that was created again. -/
theorem committed_survives_restarts_leader : ∃ x x',
    Lives.init.run threeNodes commitFirst = some x ∧ x.run threeNodes restartedFollower = some x' ∧
    (x.cluster.nodes 0).commitIndex = 1 ∧ (x'.cluster.nodes 1).currentTerm = 2 ∧
    (x'.cluster.nodes 1).log[1 - 1]? = some ⟨1, .put, text "a", text "1"⟩ := by
  have h : (Lives.init.run threeNodes commitFirst).any (fun x =>
      ((x.cluster.nodes 0).role = .leader ∧ (x.cluster.nodes 0).commitIndex = 1 ∧
        (x.cluster.nodes 0).log[1 - 1]? = some ⟨1, .put, text "a", text "1"⟩ ∧
        (x.cluster.nodes 0).currentTerm = 1) ∧ x.AllCareful threeNodes restartedFollower ∧
      (x.run threeNodes restartedFollower).any fun x' =>
        (x'.cluster.nodes 1).role = .leader ∧ (x'.cluster.nodes 1).currentTerm = 2) = true := by
    decide +kernel
  obtain ⟨x, hrun, hx⟩ := (Option.any_eq_true _ _).mp h
  obtain ⟨⟨h1, h2, h3, h4⟩, hcare, hx⟩ := of_decide_eq_true hx
  obtain ⟨x', hrun', hx'⟩ := (Option.any_eq_true _ _).mp hx
  obtain ⟨h5, h6⟩ := of_decide_eq_true hx'
  have hall := (committed_survives_restarts threeNodes hrun hrun' (by decide +kernel) hcare).1
  exact ⟨x, x', hrun, hrun', h2, h6, hall x (by simp) x' (by simp) 0 1 1 _ h1 (by decide)
    (by omega) h3 h5 (by omega)⟩

end VeriStore.Raft

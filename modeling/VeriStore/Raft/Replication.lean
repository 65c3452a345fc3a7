import VeriStore.Lib.Replicas
import VeriStore.Raft.Election

/-!
The cluster as a replication of logs.

Three schedules take the code away from the protocol of `Lib.Replicas`, and the conditions below
name them: a proposal that reads the position of its entry again after the log or the term has
changed (`Placed`), an `AppendEntries` request that cuts off entries it does not contradict
(`CutsNothing`), and a reply to a heartbeat that is counted when the node is no longer the leader
of the term of the request. The steps that keep the first two refine the protocol
(`Tracks.effect`); the third one matters for the commit index alone.
-/

namespace VeriStore.Raft

open VeriStore.Lib Relation

set_option linter.unusedSectionVars false

variable {ι : Type} [DecidableEq ι]

/-! ### Conditions on steps -/

/-- **An accepted request cuts off no entry it does not contradict**: the log ends where the
entries end or before, or one of its entries is of another term than the entry sent for its
index. -/
def RaftNode.CutsNothing (n : RaftNode ι) (req : AppendEntriesReq ι) : Prop :=
  n.Accepts req → req.entries = [] ∨
    n.log.length ≤ req.prevLogIndex + req.entries.length ∨
    ∃ x ∈ (n.log.drop req.prevLogIndex).zip req.entries, x.1.term ≠ x.2.term

instance (n : RaftNode ι) (req : AppendEntriesReq ι) : Decidable (n.CutsNothing req) :=
  inferInstanceAs (Decidable (_ → _ ∨ _ ∨ _))

/-- The same for every request. -/
def RaftNode.Safe (n : RaftNode ι) : Request ι → Prop
  | .vote _ => True
  | .append req => n.CutsNothing req

instance (n : RaftNode ι) : (request : Request ι) → Decidable (n.Safe request)
  | .vote _ => isTrue trivial
  | .append req => inferInstanceAs (Decidable (n.CutsNothing req))

/-- The entry and the index of a proposal between its first two critical sections. -/
def ThreadState.appended? : ThreadState ι → Option (LogEntry × ℕ)
  | ⟨.appended e index, none⟩ => some (e, index)
  | _ => none

namespace Cluster

/-- **The second critical section of a proposal finds what the first one left**: the term of the
entry, and the entry at the end of the log. -/
def Placed (s : Cluster ι) (i : ι) (k : ℕ) : Prop :=
  ∀ x ∈ (s.threads i (.client k)).appended?,
    (s.nodes i).currentTerm = x.1.term ∧ (s.nodes i).lastLogIndex = x.2

/-- The condition on the proposals and the requests. -/
def Orderly (s : Cluster ι) : Action ι → Prop
  | .place i k => s.Placed i k
  | .handle i th => ∀ c ∈ (s.threads i th).call, (s.nodes c.peer).Safe c.request
  | .handleLate n => ∀ x ∈ s.late[n]?, (s.nodes x.1).Safe x.2
  | _ => True

instance (s : Cluster ι) : (a : Action ι) → Decidable (s.Orderly a)
  | .place i k => inferInstanceAs (Decidable (∀ x ∈ (s.threads i (.client k)).appended?, _ ∧ _))
  | .handle i th => inferInstanceAs (Decidable (∀ c ∈ (s.threads i th).call, _))
  | .handleLate n => inferInstanceAs (Decidable (∀ x ∈ s.late[n]?, _))
  | .timeout _ | .stand _ | .beat _ | .build _ | .proposePut _ _ _ _ | .proposeDel _ _ _
  | .notify _ _ | .take _ | .apply _ | .resume _ _ _ => isTrue trivial

/-- All steps of a run meet a condition in the state they start from. -/
def AllMeet (cfg : Config ι) (P : Cluster ι → Action ι → Prop) : Cluster ι → List (Action ι) → Prop
  | _, [] => True
  | s, a :: as => P s a ∧ ∀ s' ∈ s.step cfg a, AllMeet cfg P s' as

instance (cfg : Config ι) (P : Cluster ι → Action ι → Prop) [∀ s a, Decidable (P s a)] :
    (s : Cluster ι) → (as : List (Action ι)) → Decidable (AllMeet cfg P s as)
  | _, [] => isTrue trivial
  | s, a :: as =>
    have (s' : Cluster ι) : Decidable (AllMeet cfg P s' as) := instDecidableAllMeet cfg P s' as
    inferInstanceAs (Decidable (P s a ∧ ∀ s' ∈ s.step cfg a, AllMeet cfg P s' as))

end Cluster

/-! ### What threads and requests say about the logs -/

abbrev Logs (ι : Type) := Replicas ι LogEntry

/-- The entry was stored at an index by the leader `i` of its term. -/
def Stored (r : Logs ι) (i : ι) (e : LogEntry) (index : ℕ) : Prop :=
  (i, e.term) ∈ r.ballots.leaders ∧ 0 < index ∧ (r.leaderLog e.term)[index - 1]? = some e

/-- `v` has acknowledged the entry of the leader of `t` at the index. -/
def Acked (r : Logs ι) (t index : ℕ) (v : ι) : Prop := ∃ m, index ≤ m ∧ (v, t, m) ∈ r.acks

/-- A request of the node `i`: a vote request speaks for a candidacy, and entries are a part of
the log of the leader `i` of the term. -/
def RequestOk (r : Logs ι) (i : ι) : Request ι → Prop
  | .vote req => ∃ clog, (req.candidateId, req.term, clog) ∈ r.standing ∧
      req.lastLogIndex = clog.length ∧ req.lastLogTerm = RaftNode.lastTerm clog
  | .append req => req.entries ≠ [] → (i, req.term) ∈ r.ballots.leaders ∧
      req.prevLogTerm = RaftNode.termIn (r.leaderLog req.term) req.prevLogIndex ∧
      (r.leaderLog req.term).take req.prevLogIndex ++ req.entries <+: r.leaderLog req.term ∧
      req.prevLogIndex ≤ (r.leaderLog req.term).length

/-- A successful answer to entries is an acknowledgement. -/
def AnswerOk (r : Logs ι) (c : Call ι) : Prop :=
  ∀ req resp, c.request = .append req → c.answer = some (.append resp) → resp.success = true →
    req.entries ≠ [] → (c.peer, req.term, req.prevLogIndex + req.entries.length) ∈ r.acks

/-- The peers a thread still has to call. -/
def Pc.rest : Pc ι → List ι
  | .electing _ rest => rest
  | .sending rest => rest
  | .beating rest => rest
  | .replicating _ _ _ rest => rest
  | .notifying _ _ rest => rest
  | _ => []

/-- What a proposal in progress knows about its entry. -/
def ProposalOk [Fintype ι] (r : Logs ι) (i : ι) (x : ThreadState ι) : Prop :=
  match x.pc with
  | .appended e index => Stored r i e index
  | .replicating e index acks rest => Stored r i e index ∧
      ∀ c, x.call = some c → (c.peer :: rest).Nodup ∧
        (∃ req, c.request = .append req ∧ req.term = e.term ∧ req.entries ≠ [] ∧
          req.prevLogIndex + req.entries.length = index) ∧
        ∃ Q : Finset ι, Q.card = acks ∧ ∀ v ∈ Q, Acked r e.term index v ∧ v ∉ c.peer :: rest
  | .acknowledged e index => Stored r i e index ∧ r.Chosen LogEntry.term e.term index
  | .notifying e index _ => Stored r i e index ∧ r.Chosen LogEntry.term e.term index
  | _ => True

/-- Everything a thread of the node `i` says about the logs. -/
structure ThreadOk [Fintype ι] (r : Logs ι) (i : ι) (x : ThreadState ι) : Prop where
  asking : Asking r.ballots i x
  rest_ne : ∀ p ∈ x.pc.rest, p ≠ i
  peer_ne : ∀ c, x.call = some c → c.peer ≠ i
  request : ∀ c, x.call = some c → RequestOk r i c.request
  answer : ∀ c, x.call = some c → AnswerOk r c
  proposal : ProposalOk r i x

/-- **A cluster and the replication it refines.** -/
structure Tracks [Fintype ι] (s : Cluster ι) (r : Logs ι) : Prop where
  term : ∀ i, r.ballots.term i = (s.nodes i).currentTerm
  votedFor : ∀ i, r.ballots.votedFor i = (s.nodes i).votedFor
  log : ∀ i, r.log i = (s.nodes i).log
  leaders : ∀ i t, (i, t) ∈ r.ballots.leaders ↔ ∃ l, (i, t, l) ∈ s.elected
  first : ∀ i t l, (i, t, l) ∈ s.elected → l = r.first t
  leader : ∀ i, (s.nodes i).role = .leader → (i, (s.nodes i).currentTerm) ∈ r.ballots.leaders
  candidate : ∀ i, (s.nodes i).role = .candidate →
    (i, (s.nodes i).currentTerm) ∉ r.ballots.leaders ∧
      (i, (s.nodes i).currentTerm, (s.nodes i).log) ∈ r.standing
  threads : ∀ i th, ThreadOk r i (s.threads i th)
  late : ∀ p request, (p, request) ∈ s.late → ∃ i, i ≠ p ∧ RequestOk r i request
  acked : ∀ i index e, (i, index, e) ∈ s.acked →
    Stored r i e index ∧ r.Chosen LogEntry.term e.term index

/-! ### Growing -/

section Mono

variable {r r' : Logs ι} {i : ι}

lemma Stored.mono {e : LogEntry} {index : ℕ} (h : Stored r i e index) (hg : r.Grows r') :
    Stored r' i e index :=
  ⟨hg.leaders h.1, h.2.1, hg.getElem? ⟨i, h.1⟩ h.2.2⟩

lemma Acked.mono {t index : ℕ} {v : ι} (h : Acked r t index v) (hg : r.Grows r') :
    Acked r' t index v := by
  obtain ⟨m, hm, hv⟩ := h
  exact ⟨m, hm, hg.acks hv⟩

lemma termIn_of_isPrefix {l l' : List LogEntry} (h : l <+: l') {k : ℕ} (hk : k ≤ l.length) :
    RaftNode.termIn l' k = RaftNode.termIn l k := by
  obtain ⟨u, rfl⟩ := h
  unfold RaftNode.termIn
  by_cases h0 : k = 0
  · simp [h0]
  · rw [if_neg h0, if_neg h0, List.getElem?_append_left (by omega)]

lemma RequestOk.mono {request : Request ι} (h : RequestOk r i request) (hg : r.Grows r') :
    RequestOk r' i request := by
  cases request with
  | vote req =>
    obtain ⟨clog, hc, h1, h2⟩ := h
    exact ⟨clog, hg.standing hc, h1, h2⟩
  | append req =>
    intro hne
    obtain ⟨h1, h2, h3, h4⟩ := h hne
    have hp := hg.leaderLog req.term ⟨i, h1⟩
    refine ⟨hg.leaders h1, ?_, ?_, h4.trans hp.length_le⟩
    · rw [termIn_of_isPrefix hp h4]
      exact h2
    · rw [hg.take_eq ⟨i, h1⟩ h4]
      exact h3.trans hp

variable [Fintype ι]

lemma ProposalOk.mono {x : ThreadState ι} (h : ProposalOk r i x) (hg : r.Grows r') :
    ProposalOk r' i x := by
  obtain ⟨pc, call⟩ := x
  unfold ProposalOk at h ⊢
  cases pc with
  | appended e index => exact Stored.mono h hg
  | replicating e index acks rest =>
    refine ⟨h.1.mono hg, fun c hc => ?_⟩
    obtain ⟨h1, h2, Q, hQ, hv⟩ := h.2 c hc
    exact ⟨h1, h2, Q, hQ, fun v hvQ => ⟨(hv v hvQ).1.mono hg, (hv v hvQ).2⟩⟩
  | acknowledged e index => exact ⟨h.1.mono hg, h.2.mono hg⟩
  | notifying e index rest => exact ⟨h.1.mono hg, h.2.mono hg⟩
  | _ => trivial

lemma ThreadOk.mono {x : ThreadState ι} (h : ThreadOk r i x) (hg : r.Grows r') : ThreadOk r' i x where
  asking := h.asking.mono hg.votes
  rest_ne := h.rest_ne
  peer_ne := h.peer_ne
  request c hc := (h.request c hc).mono hg
  answer c hc req resp h1 h2 h3 h4 := hg.acks (h.answer c hc req resp h1 h2 h3 h4)
  proposal := h.proposal.mono hg

end Mono

/-! ### The refinement -/

section Refinement

variable [Fintype ι] {cfg : Config ι} {s s' : Cluster ι} {r : Logs ι}

/-- The steps of the replication. -/
abbrev Moves (r r' : Logs ι) : Prop := ReflTransGen (Replicas.Step LogEntry.term) r r'

lemma Tracks.setThread (h : Tracks s r) {i : ι} {th : Thread} {x : ThreadState ι}
    (hx : ThreadOk r i x) : Tracks (s.setThread i th x) r := by
  refine { h with threads := fun j th' => ?_ }
  by_cases hj : j = i
  · subst hj
    by_cases hth : th' = th
    · subst hth
      simpa [Cluster.setThread] using hx
    · simpa [Cluster.setThread, hth] using h.threads j th'
  · simpa [Cluster.setThread, hj] using h.threads j th'

/-- **One node and the replication move together.** -/
lemma Tracks.update (h : Tracks s r) {r' : Logs ι} (hg : r.Grows r') {i : ι} {n : RaftNode ι}
    (hterm : r'.ballots.term = Function.update r.ballots.term i n.currentTerm)
    (hvote : r'.ballots.votedFor = Function.update r.ballots.votedFor i n.votedFor)
    (hlog : r'.log = Function.update r.log i n.log)
    (hled : r'.ballots.leaders = r.ballots.leaders) (hfirst : r'.first = r.first)
    (hlead : n.role = .leader → (i, n.currentTerm) ∈ r.ballots.leaders)
    (hcand : n.role = .candidate → (i, n.currentTerm) ∉ r.ballots.leaders ∧
      (i, n.currentTerm, n.log) ∈ r'.standing) : Tracks (s.setNode i n) r' where
  term j := by
    rw [hterm]
    by_cases hj : j = i
    · subst hj
      simp [Cluster.setNode]
    · simpa [Cluster.setNode, hj] using h.term j
  votedFor j := by
    rw [hvote]
    by_cases hj : j = i
    · subst hj
      simp [Cluster.setNode]
    · simpa [Cluster.setNode, hj] using h.votedFor j
  log j := by
    rw [hlog]
    by_cases hj : j = i
    · subst hj
      simp [Cluster.setNode]
    · simpa [Cluster.setNode, hj] using h.log j
  leaders j t := by
    rw [hled]
    exact h.leaders j t
  first j t l hl := by
    rw [hfirst]
    exact h.first j t l hl
  leader j hr := by
    rw [hled]
    by_cases hj : j = i
    · subst hj
      simp only [Cluster.setNode, Function.update_self] at hr ⊢
      exact hlead hr
    · simp only [Cluster.setNode, Function.update_of_ne hj] at hr ⊢
      exact h.leader j hr
  candidate j hr := by
    rw [hled]
    by_cases hj : j = i
    · subst hj
      simp only [Cluster.setNode, Function.update_self] at hr ⊢
      exact hcand hr
    · simp only [Cluster.setNode, Function.update_of_ne hj] at hr ⊢
      exact ⟨(h.candidate j hr).1, hg.standing (h.candidate j hr).2⟩
  threads j th := (h.threads j th).mono hg
  late p request hl := by
    obtain ⟨j, hj, hr⟩ := h.late p request hl
    exact ⟨j, hj, hr.mono hg⟩
  acked j index e he := ⟨(h.acked j index e he).1.mono hg, (h.acked j index e he).2.mono hg⟩

/-- A node that keeps its term, vote and log and its role, or follows. -/
lemma Tracks.setNode (h : Tracks s r) {i : ι} {n : RaftNode ι}
    (h1 : n.currentTerm = (s.nodes i).currentTerm) (h2 : n.votedFor = (s.nodes i).votedFor)
    (h3 : n.log = (s.nodes i).log) (h4 : n.role = (s.nodes i).role ∨ n.role = .follower) :
    Tracks (s.setNode i n) r := by
  refine h.update (.refl r) ?_ ?_ ?_ rfl rfl (fun hr => ?_) (fun hr => ?_)
  · rw [h1, ← h.term i, Function.update_eq_self]
  · rw [h2, ← h.votedFor i, Function.update_eq_self]
  · rw [h3, ← h.log i, Function.update_eq_self]
  · rcases h4 with h4 | h4
    · rw [h1]
      exact h.leader i (h4 ▸ hr)
    · simp [h4] at hr
  · rcases h4 with h4 | h4
    · rw [h1, h3]
      exact h.candidate i (h4 ▸ hr)
    · simp [h4] at hr

/-- The replication has grown and the nodes are still the ones it speaks about. -/
lemma Tracks.grow (h : Tracks s r) {r' : Logs ι} (hg : r.Grows r') (h1 : r'.ballots = r.ballots)
    (h2 : r'.log = r.log) (h3 : r'.first = r.first) : Tracks s r' where
  term i := by rw [h1]; exact h.term i
  votedFor i := by rw [h1]; exact h.votedFor i
  log i := by rw [h2]; exact h.log i
  leaders i t := by rw [h1]; exact h.leaders i t
  first i t l hl := by rw [h3]; exact h.first i t l hl
  leader i hr := hg.leaders (h.leader i hr)
  candidate i hr := ⟨by rw [h1]; exact (h.candidate i hr).1, hg.standing (h.candidate i hr).2⟩
  threads i th := (h.threads i th).mono hg
  late p request hl := by
    obtain ⟨i, hi, hr⟩ := h.late p request hl
    exact ⟨i, hi, hr.mono hg⟩
  acked i index e he := ⟨(h.acked i index e he).1.mono hg, (h.acked i index e he).2.mono hg⟩

/-- **A node that keeps its log and its role, or follows**, moves on to a later term or does
nothing. -/
lemma Tracks.yield (h : Tracks s r) (hi : r.Inv LogEntry.term) {i : ι} {n : RaftNode ι}
    (hn : (s.nodes i).Yields n) :
    ∃ r', Moves r r' ∧ r'.log = r.log ∧ r'.leaderLog = r.leaderLog ∧ Tracks (s.setNode i n) r' := by
  rcases hn.follows with ⟨ht, hv⟩ | ⟨ht, hv⟩
  · refine ⟨r, .refl, rfl, rfl, h.setNode ht hv hn.log ?_⟩
    rcases hn.role with hr | hr
    · exact Or.inl hr.1
    · exact Or.inr hr
  · -- a later term: the node follows
    have hrole : n.role = .follower := by
      rcases hn.role with hr | hr
      · omega
      · exact hr
    have hstep : Replicas.Step LogEntry.term r (r.adopt i n.currentTerm) :=
      .adopt r i n.currentTerm (by rwa [h.term i])
    have hg := hstep.grows hi
    refine ⟨_, .single hstep, rfl, rfl, h.update (hstep.grows hi) rfl ?_ ?_ rfl rfl ?_ ?_⟩
    · rw [hv]
      rfl
    · rw [hn.log, ← h.log i, Function.update_eq_self]
      rfl
    · simp [hrole]
    · simp [hrole]

lemma lastTerm_eq (l : List LogEntry) : RaftNode.lastTerm l = Replicas.lastTm LogEntry.term l := rfl

/-- **A vote**: the candidacy is the one of the request, and its log is up to date. -/
lemma Tracks.grant (h : Tracks s r) (hi : r.Inv LogEntry.term) {p : ι} (req : RequestVoteReq ι)
    (ht : (s.nodes p).currentTerm = req.term)
    (hv : (s.nodes p).votedFor = none ∨ (s.nodes p).votedFor = some req.candidateId)
    (hu : (s.nodes p).isUpToDate req.lastLogIndex req.lastLogTerm = true) {j : ι}
    (hok : RequestOk r j (.vote req)) :
    ∃ r', Moves r r' ∧ Tracks (s.setNode p { s.nodes p with votedFor := some req.candidateId }) r' ∧
      r'.ballots.Voted p req.term req.candidateId := by
  obtain ⟨clog, hc, hidx, hterm⟩ := hok
  have hup : Replicas.UpToDate LogEntry.term clog (r.log p) := by
    unfold RaftNode.isUpToDate at hu
    simp only [RaftNode.lastLogTerm, RaftNode.lastLogIndex, hidx, hterm, lastTerm_eq, ← h.log p] at hu
    split at hu
    · exact Or.inl (by simpa using hu)
    · next heq => exact Or.inr ⟨(not_not.mp heq).symm, by simpa using hu⟩
  have hstep : Replicas.Step LogEntry.term r (r.grant p req.candidateId) :=
    .grant r p req.candidateId clog (by rwa [h.votedFor p]) (by rwa [h.term p, ht]) hup
  refine ⟨_, .single hstep, h.update (hstep.grows hi) ?_ rfl ?_ rfl rfl (h.leader p)
    (fun hr => h.candidate p hr), ⟨r.log p, ?_⟩⟩
  · rw [← h.term p, Function.update_eq_self]
    rfl
  · rw [← h.log p, Function.update_eq_self]
    rfl
  · rw [← ht, ← h.term p]
    exact Set.mem_insert _ _

/-- **A follower takes over entries** of the leader of its term. -/
lemma Tracks.accept (h : Tracks s r) (hi : r.Inv LogEntry.term) {p j : ι} {m : ℕ} {n : RaftNode ι}
    (hj : (j, (s.nodes p).currentTerm) ∈ r.ballots.leaders) (hjp : j ≠ p)
    (hm : m ≤ (r.leaderLog (s.nodes p).currentTerm).length)
    (hlog : n.log = (r.leaderLog (s.nodes p).currentTerm).take m)
    (hk : Replicas.Keeps LogEntry.term (s.nodes p).log n.log)
    (h1 : n.currentTerm = (s.nodes p).currentTerm) (h2 : n.votedFor = (s.nodes p).votedFor)
    (h3 : n.role = .follower) :
    ∃ r', Moves r r' ∧ Tracks (s.setNode p n) r' ∧ (p, (s.nodes p).currentTerm, m) ∈ r'.acks := by
  have hstep : Replicas.Step LogEntry.term r (r.accept p m) := by
    refine .accept r p j m (by rwa [h.term p]) hjp (by rwa [h.term p]) ?_
    rw [h.term p, h.log p, ← hlog]
    exact hk
  refine ⟨_, .single hstep, h.update (hstep.grows hi) ?_ ?_ ?_ rfl rfl ?_ ?_, ?_⟩
  · rw [h1, ← h.term p, Function.update_eq_self]
    rfl
  · rw [h2, ← h.votedFor p, Function.update_eq_self]
    rfl
  · rw [hlog, ← h.term p]
    rfl
  · simp [h3]
  · simp [h3]
  · rw [← h.term p]
    exact Set.mem_insert _ _

/-- **A participant acknowledges entries it has already.** -/
lemma Tracks.confirm (h : Tracks s r) (hi : r.Inv LogEntry.term) {p : ι} {m : ℕ}
    (hel : r.Elected (s.nodes p).currentTerm)
    (hm : m ≤ (r.leaderLog (s.nodes p).currentTerm).length)
    (hlog : (s.nodes p).log.take m = (r.leaderLog (s.nodes p).currentTerm).take m) :
    ∃ r', Moves r r' ∧ Tracks s r' ∧ r'.leaderLog = r.leaderLog ∧
      (p, (s.nodes p).currentTerm, m) ∈ r'.acks := by
  rw [← h.term p] at hel hm hlog ⊢
  rw [← h.log p] at hlog
  have hstep : Replicas.Step LogEntry.term r (r.confirm p m) := .confirm r p m hel hm hlog
  exact ⟨_, .single hstep, h.grow (hstep.grows hi) rfl rfl rfl, rfl, Set.mem_insert _ _⟩

lemma Cluster.setNode_setNode (s : Cluster ι) (i : ι) (n n' : RaftNode ι) :
    (s.setNode i n).setNode i n' = s.setNode i n' := by
  simp [Cluster.setNode]

@[simp] lemma Cluster.setNode_self (s : Cluster ι) (i : ι) (n : RaftNode ι) :
    (s.setNode i n).nodes i = n := by
  simp [Cluster.setNode]

@[simp] lemma Cluster.setNode_threads (s : Cluster ι) (i : ι) (n : RaftNode ι) :
    (s.setNode i n).threads = s.threads := rfl

/-- **Log matching**: two coherent logs with the same term at an index agree up to it. -/
lemma take_eq_of_termIn {l l' : List LogEntry} (hl : r.Coherent LogEntry.term l)
    (hl' : r.Coherent LogEntry.term l') {k : ℕ} (hk : k ≤ l.length) (hk' : k ≤ l'.length)
    (ht : RaftNode.termIn l k = RaftNode.termIn l' k) : l.take k = l'.take k := by
  by_cases h0 : k = 0
  · simp [h0]
  · have e1 : l[k - 1]? = some l[k - 1] := List.getElem?_eq_getElem (by omega)
    have e2 : l'[k - 1]? = some l'[k - 1] := List.getElem?_eq_getElem (by omega)
    simp only [RaftNode.termIn, if_neg h0, e1, e2, Option.map_some, Option.getD_some] at ht
    have h1 := (hl _ _ e1).2
    have h2 := (hl' _ _ e2).2
    rw [ht] at h1
    rw [Nat.sub_add_cancel (by omega)] at h1 h2
    rw [h1, h2]

/-- **Accepted entries are taken over**: a coherent log becomes a prefix of the log of the leader. -/
lemma appendAt_eq_take (hi : r.Inv LogEntry.term) {i : ι} {req : AppendEntriesReq ι}
    {l : List LogEntry} (hl : r.Coherent LogEntry.term l) (hok : RequestOk r i (.append req))
    (hne : req.entries ≠ []) (hprev : req.prevLogIndex ≤ l.length)
    (hterm : RaftNode.termIn l req.prevLogIndex = req.prevLogTerm) :
    RaftNode.appendAt l req.prevLogIndex req.entries =
        (r.leaderLog req.term).take (req.prevLogIndex + req.entries.length) ∧
      req.prevLogIndex + req.entries.length ≤ (r.leaderLog req.term).length := by
  obtain ⟨h1, h2, h3, h4⟩ := hok hne
  have htake : l.take req.prevLogIndex = (r.leaderLog req.term).take req.prevLogIndex :=
    take_eq_of_termIn hl (hi.leader_coherent _ ⟨i, h1⟩) hprev h4 (by rw [hterm, h2])
  have hlen : ((r.leaderLog req.term).take req.prevLogIndex ++ req.entries).length =
      req.prevLogIndex + req.entries.length := by
    simp [h4]
  refine ⟨?_, hlen ▸ h3.length_le⟩
  rw [RaftNode.appendAt, if_neg hne, htake, ← hlen]
  exact List.prefix_iff_eq_take.mp h3

/-- The log of a node is coherent. -/
lemma Tracks.appendAt_eq (h : Tracks s r) (hi : r.Inv LogEntry.term) {i p : ι}
    {req : AppendEntriesReq ι} (hok : RequestOk r i (.append req)) (hne : req.entries ≠ [])
    (hprev : req.prevLogIndex ≤ (s.nodes p).log.length)
    (hterm : RaftNode.termIn (s.nodes p).log req.prevLogIndex = req.prevLogTerm) :
    RaftNode.appendAt (s.nodes p).log req.prevLogIndex req.entries =
        (r.leaderLog req.term).take (req.prevLogIndex + req.entries.length) ∧
      req.prevLogIndex + req.entries.length ≤ (r.leaderLog req.term).length :=
  appendAt_eq_take hi (h.log p ▸ hi.log_coherent p) hok hne hprev hterm

/-- Cutting nothing that is not contradicted, said about the logs. -/
lemma keeps_of_cutsNothing {n : RaftNode ι} {req : AppendEntriesReq ι} (hc : n.CutsNothing req)
    (ha : n.Accepts req) (hne : req.entries ≠ []) :
    Replicas.Keeps LogEntry.term n.log (RaftNode.appendAt n.log req.prevLogIndex req.entries) := by
  have hprev : req.prevLogIndex ≤ n.log.length := ha.2.1
  have hlen : (n.log.take req.prevLogIndex).length = req.prevLogIndex := by simp [hprev]
  rw [RaftNode.appendAt, if_neg hne]
  rcases hc ha with h | h | ⟨x, hx, hab⟩
  · exact absurd h hne
  · exact Or.inl (by rw [List.length_append, hlen]; exact h)
  · obtain ⟨k, hk⟩ := List.mem_iff_getElem?.mp hx
    obtain ⟨hka, hkb⟩ := List.getElem?_zip_eq_some.mp hk
    rw [List.getElem?_drop] at hka
    refine Or.inr ⟨req.prevLogIndex + k, x.1, x.2, hka, ?_, hab⟩
    rw [List.getElem?_append_right (by rw [hlen]; omega), hlen, Nat.add_sub_cancel_left]
    exact hkb

/-- **The handler of a request**: what a vote or a successful answer stands for is recorded. -/
lemma Tracks.handle (h : Tracks s r) (hi : r.Inv LogEntry.term) {i p : ι} (hip : i ≠ p)
    {request : Request ι} (hok : RequestOk r i request) (hsafe : (s.nodes p).Safe request) :
    ∃ r', Moves r r' ∧ Tracks (s.setNode p ((s.nodes p).handle request).1) r' ∧
      (∀ req resp, request = .vote req → ((s.nodes p).handle request).2 = .vote resp →
        resp.voteGranted = true → r'.ballots.Voted p req.term req.candidateId) ∧
      ∀ req resp, request = .append req → ((s.nodes p).handle request).2 = .append resp →
        resp.success = true → req.entries ≠ [] →
        (p, req.term, req.prevLogIndex + req.entries.length) ∈ r'.acks := by
  cases request with
  | vote req =>
    rcases (s.nodes p).onRequestVote_cases req with ⟨hy, hg⟩ | ⟨n₁, hy, ht, hv, hu, he⟩
    · obtain ⟨r', hm, -, -, htr⟩ := h.yield hi hy
      refine ⟨r', hm, htr, fun req' resp _ hresp hgr => ?_, by simp⟩
      simp only [RaftNode.handle, Response.vote.injEq] at hresp
      rw [← hresp, hg] at hgr
      simp at hgr
    · obtain ⟨r₁, hm₁, -, -, htr₁⟩ := h.yield hi hy
      obtain ⟨hi₁, hg₁⟩ := hi.steps hm₁
      obtain ⟨r₂, hm₂, htr₂, hvoted⟩ := htr₁.grant hi₁ (p := p) req (by simpa using ht)
        (by simpa using hv) (by simpa using hu) (hok.mono hg₁)
      rw [Cluster.setNode_setNode, Cluster.setNode_self, ← he] at htr₂
      refine ⟨r₂, hm₁.trans hm₂, htr₂, fun req' resp hreq _ _ => ?_, by simp⟩
      obtain rfl := Request.vote.inj hreq
      exact hvoted
  | append req =>
    rcases (s.nodes p).onAppendEntries_cases req with ⟨hy, -, hfail⟩ | ⟨hacc, he⟩
    · obtain ⟨r', hm, -, -, ht⟩ := h.yield hi hy
      refine ⟨r', hm, ht, by simp, fun req' resp _ hresp hs => ?_⟩
      simp only [RaftNode.handle, Response.append.injEq] at hresp
      rw [← hresp, hfail] at hs
      simp at hs
    · set n₁ := (s.nodes p).followLeader req.term req.leaderId with hn₁
      have hy : (s.nodes p).Yields n₁ := (s.nodes p).followLeader_yields _ _
      obtain ⟨ht₁, hrole, -⟩ := RaftNode.followLeader_frame hacc.1 req.leaderId
      rw [← hn₁] at ht₁ hrole
      obtain ⟨r₁, hm₁, -, hlead₁, htr₁⟩ := h.yield hi hy
      obtain ⟨hi₁, hg₁⟩ := hi.steps hm₁
      have hok₁ := hok.mono hg₁
      simp only [RaftNode.handle, he]
      by_cases hne : req.entries = []
      · have hlog : (n₁.acceptEntries req).log = n₁.log := by
          simp [RaftNode.acceptEntries, RaftNode.appendAt, hne]
        have htr := htr₁.setNode (i := p) (n := n₁.acceptEntries req) (by simp; rfl) (by simp; rfl)
          (by simp [hlog]) (by simp; exact Or.inl rfl)
        rw [Cluster.setNode_setNode] at htr
        exact ⟨r₁, hm₁, htr, by simp, fun req' resp hreq _ _ hne' =>
          absurd ((Request.append.inj hreq) ▸ hne) hne'⟩
      · have hlog₁ : n₁.log = (s.nodes p).log := hy.log
        obtain ⟨hlog, hlen⟩ := htr₁.appendAt_eq hi₁ (p := p) hok₁ hne
          (by simpa [hlog₁] using hacc.2.1) (by simpa [hlog₁] using hacc.2.2)
        simp only [Cluster.setNode_self] at hlog
        have hlead : (i, req.term) ∈ r₁.ballots.leaders := (hok₁ hne).1
        have hkeep := keeps_of_cutsNothing hsafe hacc hne
        rw [← hlog₁] at hkeep
        obtain ⟨r₂, hm₂, htr₂, hack⟩ := htr₁.accept hi₁ (p := p) (j := i)
          (m := req.prevLogIndex + req.entries.length) (n := n₁.acceptEntries req)
          (by simpa [ht₁] using hlead) hip (by simpa [ht₁] using hlen)
          (by rw [Cluster.setNode_self, ht₁]; exact hlog) (by rw [Cluster.setNode_self]; exact hkeep)
          (by simp; rfl) (by simp; rfl) hrole
        rw [Cluster.setNode_setNode] at htr₂
        refine ⟨r₂, hm₁.trans hm₂, htr₂, by simp, fun req' resp hreq _ _ _ => ?_⟩
        obtain rfl := Request.append.inj hreq
        simpa [ht₁] using hack

end Refinement

/-! ### Threads -/

section Threads

variable [Fintype ι] {r : Logs ι} {i : ι}

/-- A thread that waits for no call. -/
lemma ThreadOk.of_none {pc : Pc ι} (h1 : ∀ p ∈ pc.rest, p ≠ i) (h2 : ProposalOk r i ⟨pc, none⟩) :
    ThreadOk r i ⟨pc, none⟩ :=
  ⟨.of_ne (by simp), h1, by simp, by simp, by simp, h2⟩

lemma ThreadOk.idle : ThreadOk r i .idle := .of_none (by simp [Pc.rest]) trivial

/-- A thread that has just sent entries or a heartbeat. -/
lemma ThreadOk.send {pc : Pc ι} {p : ι} {req : AppendEntriesReq ι} (h1 : ∀ q ∈ pc.rest, q ≠ i)
    (hp : p ≠ i) (hr : RequestOk r i (.append req))
    (h2 : ProposalOk r i ⟨pc, some ⟨p, .append req, none⟩⟩) :
    ThreadOk r i ⟨pc, some ⟨p, .append req, none⟩⟩ where
  asking := .of_ne (by simp)
  rest_ne := h1
  peer_ne c hc := by
    obtain rfl := Option.some.inj hc
    exact hp
  request c hc := by
    obtain rfl := Option.some.inj hc
    exact hr
  answer c hc := by
    obtain rfl := Option.some.inj hc
    intro req' resp _ ha
    simp at ha
  proposal := h2

/-- A thread that has just asked for a vote. -/
lemma ThreadOk.ask {votes : ℕ} {rest : List ι} {req : RequestVoteReq ι} (hne : ∀ p ∈ rest, p ≠ i)
    (hr : RequestOk r i (.vote req))
    (ha : Asking r.ballots i (.loop (.electing votes) (.vote req) .idle rest)) :
    ThreadOk r i (.loop (.electing votes) (.vote req) .idle rest) := by
  cases rest with
  | nil => exact .idle
  | cons p rest =>
    refine ⟨ha, fun q hq => hne q (List.mem_cons_of_mem p hq), fun c hc => ?_, fun c hc => ?_, fun c hc => ?_,
      trivial⟩
    · obtain rfl := Option.some.inj hc
      exact hne p (by simp)
    · obtain rfl := Option.some.inj hc
      exact hr
    · obtain rfl := Option.some.inj hc
      intro req' resp _ ha
      simp at ha

/-- What a proposal knows does not depend on the answer. -/
lemma ProposalOk.answered {pc : Pc ι} {p : ι} {request : Request ι} {a a' : Option Response}
    (h : ProposalOk r i ⟨pc, some ⟨p, request, a⟩⟩) : ProposalOk r i ⟨pc, some ⟨p, request, a'⟩⟩ := by
  cases pc with
  | replicating e index acks rest =>
    refine ⟨h.1, fun c hc => ?_⟩
    obtain rfl := Option.some.inj hc
    exact h.2 ⟨p, request, a⟩ rfl
  | _ => exact h

/-- **A call is answered**: a granted vote has been given, and a successful answer to entries is an
acknowledgement. -/
lemma ThreadOk.answered {pc : Pc ι} {p : ι} {request : Request ι} {a : Response}
    (h : ThreadOk r i ⟨pc, some ⟨p, request, none⟩⟩)
    (hvote : ∀ req resp, request = .vote req → a = .vote resp → resp.voteGranted = true →
      r.ballots.Voted p req.term req.candidateId)
    (hack : ∀ req resp, request = .append req → a = .append resp → resp.success = true →
      req.entries ≠ [] → (p, req.term, req.prevLogIndex + req.entries.length) ∈ r.acks) :
    ThreadOk r i ⟨pc, some ⟨p, request, some a⟩⟩ where
  asking := by
    intro votes rest p' req ans hx
    simp only [ThreadState.mk.injEq, Option.some.injEq, Call.mk.injEq] at hx
    obtain ⟨rfl, rfl, rfl, rfl⟩ := hx
    obtain ⟨hc, hnd, hQ, -⟩ := h.asking _ _ _ _ _ rfl
    refine ⟨hc, hnd, hQ, fun resp hans hgr => ?_⟩
    rw [← hc]
    exact hvote req resp rfl (Option.some.inj hans) hgr
  rest_ne := h.rest_ne
  peer_ne c hc := by
    obtain rfl := Option.some.inj hc
    exact h.peer_ne ⟨p, request, none⟩ rfl
  request c hc := by
    obtain rfl := Option.some.inj hc
    exact h.request ⟨p, request, none⟩ rfl
  answer c hc := by
    obtain rfl := Option.some.inj hc
    intro req resp hreq hans hs hne
    exact hack req resp hreq (Option.some.inj hans) hs hne
  proposal := h.proposal.answered

/-- Enough acknowledgements choose the entry. -/
lemma chosen_of_needed (cfg : Config ι) {e : LogEntry} {index : ℕ} (hs : Stored r i e index)
    {Q : Finset ι} (hQ : RaftNode.needed (cfg.peers i) ≤ Q.card)
    (hv : ∀ v ∈ Q, Acked r e.term index v) : r.Chosen LogEntry.term e.term index := by
  have := RaftNode.card_lt_needed cfg i
  exact ⟨⟨i, hs.1⟩, ⟨e, hs.2.2, rfl⟩, hs.2.1, Q, by omega, hv⟩

/-- The thread behind the replication loop. -/
lemma ThreadOk.replicated {cfg : Config ι} {e : LogEntry} {index acks : ℕ} (hs : Stored r i e index)
    (hQ : ∃ Q : Finset ι, Q.card = acks ∧ ∀ v ∈ Q, Acked r e.term index v) :
    ThreadOk r i (Cluster.replicated cfg i e index acks) := by
  obtain ⟨Q, hcard, hv⟩ := hQ
  unfold Cluster.replicated
  split
  · exact .idle
  · next hlt =>
    exact .of_none (by simp [Pc.rest]) ⟨hs, chosen_of_needed cfg hs (by omega) hv⟩

end Threads

/-! ### Steps -/

section Steps

variable [Fintype ι] {cfg : Config ι} {s s' : Cluster ι} {r : Logs ι}

/-- The cluster reached and the replication reached together. -/
def Follow (s' : Cluster ι) (r : Logs ι) : Prop := ∃ r', Moves r r' ∧ Tracks s' r'

/-- A node yields and one of its threads goes on. -/
lemma Tracks.yieldThread (h : Tracks s r) (hi : r.Inv LogEntry.term) {i : ι} {n : RaftNode ι}
    (hn : (s.nodes i).Yields n) {j : ι} {th : Thread} {x : ThreadState ι} (hx : ThreadOk r j x) :
    Follow ((s.setNode i n).setThread j th x) r := by
  obtain ⟨r', hm, -, -, ht⟩ := h.yield hi hn
  exact ⟨r', hm, ht.setThread (hx.mono (hi.steps hm).2)⟩

lemma peers_ne (cfg : Config ι) (i : ι) : ∀ p ∈ cfg.peers i, p ≠ i :=
  fun p hp => (cfg.mem_peers i p).mp hp

/-- **A candidacy** is recorded with the log of the node. -/
lemma Tracks.stand (h : Tracks s r) (hi : r.Inv LogEntry.term) (i : ι) :
    Follow ((s.setNode i ((s.nodes i).becomeCandidate i)).setThread i .election
      (.loop (.electing 1) (.vote (((s.nodes i).becomeCandidate i).voteRequest i)) .idle
        (cfg.peers i))) r := by
  have hstep : Replicas.Step LogEntry.term r (r.stand i) := .stand r i
  have hnew : (i, (s.nodes i).currentTerm + 1, (s.nodes i).log) ∈ (r.stand i).standing := by
    rw [← h.term i, ← h.log i]
    exact Set.mem_insert _ _
  have hnode : Tracks (s.setNode i ((s.nodes i).becomeCandidate i)) (r.stand i) := by
    refine h.update (hstep.grows hi) ?_ rfl ?_ rfl rfl (by simp [RaftNode.becomeCandidate])
      (fun _ => ⟨fun hl => ?_, hnew⟩)
    · rw [RaftNode.becomeCandidate, ← h.term i]
      rfl
    · show r.log = Function.update r.log i (s.nodes i).log
      rw [← h.log i, Function.update_eq_self]
    · have := hi.led_le i _ hl
      rw [h.term i] at this
      exact absurd this (by simp [RaftNode.becomeCandidate])
  refine ⟨_, .single hstep, hnode.setThread (.ask (peers_ne cfg i) ⟨_, hnew, rfl, rfl⟩ ?_)⟩
  refine .loop rfl (cfg.nodup i) ⟨{i}, by simp, fun v hv => ?_⟩
  obtain rfl := Finset.mem_singleton.mp hv
  refine ⟨⟨r.log v, ?_⟩, by simp [cfg.mem_peers]⟩
  show (v, (s.nodes v).currentTerm + 1, v, r.log v) ∈ _
  rw [← h.term v]
  exact Set.mem_insert _ _

/-- **A won election**: the log of the candidacy becomes the log of the leader. -/
lemma Tracks.win (h : Tracks s r) (hi : r.Inv LogEntry.term) {i : ι} {Q : Finset ι}
    (hQ : Fintype.card ι < 2 * Q.card)
    (hv : ∀ v ∈ Q, r.ballots.Voted v (s.nodes i).currentTerm i)
    (hr : (s.nodes i).role = .candidate) (th : Thread) :
    Follow { (s.setNode i ((s.nodes i).becomeLeader i (cfg.peers i))).setThread i th .idle with
      elected := (i, (s.nodes i).currentTerm, (s.nodes i).log) :: s.elected } r := by
  obtain ⟨hnot, hstand⟩ := h.candidate i hr
  rw [← h.term i] at hv hnot hstand
  rw [← h.log i] at hstand
  have hstep : Replicas.Step LogEntry.term r (r.win i) := .win r i Q hQ hv hstand hnot
  have hg := hstep.grows hi
  have hterm : ∀ j, ((s.setNode i ((s.nodes i).becomeLeader i (cfg.peers i))).nodes j).currentTerm =
      (s.nodes j).currentTerm := by
    intro j
    by_cases hj : j = i
    · subst hj
      simp [RaftNode.becomeLeader]
    · simp [Cluster.setNode, hj]
  have hlog : ∀ j, ((s.setNode i ((s.nodes i).becomeLeader i (cfg.peers i))).nodes j).log =
      (s.nodes j).log := by
    intro j
    by_cases hj : j = i
    · subst hj
      simp [RaftNode.becomeLeader]
    · simp [Cluster.setNode, hj]
  refine ⟨_, .single hstep, ?_⟩
  refine ⟨fun j => (h.term j).trans (hterm j).symm, fun j => ?_, fun j => (h.log j).trans (hlog j).symm,
    fun j t => ?_, fun j t l hl => ?_, fun j hj => ?_, fun j hj => ?_, fun j th' => ?_,
    fun p request hl => ?_, fun j index e he => ?_⟩
  · show r.ballots.votedFor j = _
    rw [h.votedFor j]
    by_cases hj : j = i
    · subst hj
      simp [Cluster.setThread, RaftNode.becomeLeader]
    · simp [Cluster.setThread, Cluster.setNode, hj]
  · simp only [Replicas.win, Ballots.win, Set.mem_insert_iff, Prod.mk.injEq, h.leaders, h.term,
      List.mem_cons]
    constructor
    · rintro (⟨rfl, rfl⟩ | ⟨l, hl⟩)
      · exact ⟨_, Or.inl ⟨rfl, rfl, rfl⟩⟩
      · exact ⟨l, Or.inr hl⟩
    · rintro ⟨l, ⟨rfl, rfl, -⟩ | hl⟩
      · exact Or.inl ⟨rfl, rfl⟩
      · exact Or.inr ⟨l, hl⟩
  · rcases List.mem_cons.mp hl with hl | hl
    · simp only [Prod.mk.injEq] at hl
      obtain ⟨rfl, rfl, rfl⟩ := hl
      simp [Replicas.win, h.term, h.log]
    · have hel : r.Elected t := ⟨j, (h.leaders j t).mpr ⟨l, hl⟩⟩
      rw [hg.first t hel]
      exact h.first j t l hl
  · by_cases hji : j = i
    · subst hji
      show (j, ((s.setNode j ((s.nodes j).becomeLeader j (cfg.peers j))).nodes j).currentTerm) ∈ _
      rw [hterm j, ← h.term j]
      exact Set.mem_insert _ _
    · simp only [Cluster.setThread, Cluster.setNode, Function.update_of_ne hji] at hj ⊢
      exact hg.leaders (h.leader j hj)
  · by_cases hji : j = i
    · subst hji
      simp [Cluster.setThread, RaftNode.becomeLeader] at hj
    · simp only [Cluster.setThread, Cluster.setNode, Function.update_of_ne hji] at hj ⊢
      obtain ⟨h1, h2⟩ := h.candidate j hj
      refine ⟨?_, h2⟩
      rintro (hl | hl)
      · simp only [Prod.mk.injEq] at hl
        exact hji hl.1
      · exact h1 hl
  · by_cases hj : j = i
    · subst hj
      by_cases hth : th' = th
      · subst hth
        simpa [Cluster.setThread] using ThreadOk.idle
      · simpa [Cluster.setThread, hth] using (h.threads j th').mono hg
    · simpa [Cluster.setThread, hj] using (h.threads j th').mono hg
  · obtain ⟨j, hj, hrq⟩ := h.late p request hl
    exact ⟨j, hj, hrq.mono hg⟩
  · exact ⟨(h.acked j index e he).1.mono hg, (h.acked j index e he).2.mono hg⟩

/-- **The first critical section of a proposal** is an append of the leader. -/
lemma Tracks.propose (h : Tracks s r) (hi : r.Inv LogEntry.term) {i : ι} {e : LogEntry}
    (hr : (s.nodes i).role = .leader) (he : e.term = (s.nodes i).currentTerm) (th : Thread) :
    Follow ((s.setNode i ((s.nodes i).pushEntry e)).setThread i th
      ⟨.appended e ((s.nodes i).log.length + 1), none⟩) r := by
  have hlead := h.leader i hr
  have hterm := h.term i
  have hstep : Replicas.Step LogEntry.term r (r.append i e) :=
    .append r i e (by rwa [hterm]) (by rwa [hterm])
  have hg := hstep.grows hi
  have hnode : Tracks (s.setNode i ((s.nodes i).pushEntry e)) (r.append i e) := by
    refine h.update hg ?_ ?_ ?_ rfl rfl (fun _ => hlead) (by simp [RaftNode.pushEntry, hr])
    · show r.ballots.term = Function.update r.ballots.term i (s.nodes i).currentTerm
      rw [← h.term i, Function.update_eq_self]
    · show r.ballots.votedFor = Function.update r.ballots.votedFor i (s.nodes i).votedFor
      rw [← h.votedFor i, Function.update_eq_self]
    · show Function.update r.log i (r.log i ++ [e]) = Function.update r.log i ((s.nodes i).log ++ [e])
      rw [h.log i]
  refine ⟨_, .single hstep, hnode.setThread (.of_none (by simp [Pc.rest]) ⟨?_, Nat.succ_pos _, ?_⟩)⟩
  · rw [he]
    exact hlead
  · rw [Nat.add_sub_cancel, he, ← hterm, ← h.log i]
    simp [Replicas.append]

/-- **The second critical section of a proposal**: the request carries the entry where it was
stored, and the leader itself acknowledges it. -/
lemma Tracks.place (h : Tracks s r) (hi : r.Inv LogEntry.term) {i : ι} {k : ℕ} {e : LogEntry}
    {index : ℕ} (hth : s.threads i (.client k) = ⟨.appended e index, none⟩) (hp : s.Placed i k) :
    Follow (s.setThread i (.client k) (.loop (.replicating e index 1)
      (.append ((s.nodes i).proposeRequest i e)) (Cluster.replicated cfg i e index 1)
      (cfg.peers i))) r := by
  obtain ⟨hte, hidx⟩ := hp (e, index) (by simp [hth, ThreadState.appended?])
  have hidx : (s.nodes i).log.length = index := hidx
  have hst : Stored r i e index := by
    have := (h.threads i (.client k)).proposal
    rw [hth] at this
    exact this
  have hlog : r.leaderLog e.term = (s.nodes i).log := by
    rw [← h.log i]
    exact (hi.led_log i _ hst.1 (by rw [h.term i, hte])).symm
  have hpos : (s.nodes i).log.length ≠ 0 := by
    have := hst.2.1
    omega
  have hnil : (s.nodes i).log ≠ [] := fun hn => hpos (by rw [hn]; rfl)
  have hreq := RaftNode.proposeRequest_eq hnil i e
  have hterm : r.ballots.term i = e.term := by rw [h.term i, hte]
  have hstep : Replicas.Step LogEntry.term r (r.confirm i index) := by
    refine .confirm r i index ⟨i, by rw [hterm]; exact hst.1⟩ ?_ ?_
    · rw [hterm, hlog, hidx]
    · rw [hterm, hlog, h.log i]
  have hg := hstep.grows hi
  have hst' := hst.mono hg
  have hself : Acked (r.confirm i index) e.term index i :=
    ⟨index, le_rfl, by rw [← hterm]; exact Set.mem_insert _ _⟩
  refine ⟨_, .single hstep, (h.grow hg rfl rfl rfl).setThread ?_⟩
  have hQ : ∃ Q : Finset ι, Q.card = 1 ∧
      ∀ v ∈ Q, Acked (r.confirm i index) e.term index v ∧ v ∉ cfg.peers i := by
    refine ⟨{i}, by simp, fun v hv => ?_⟩
    obtain rfl := Finset.mem_singleton.mp hv
    exact ⟨hself, by simp [cfg.mem_peers]⟩
  have hnd := cfg.nodup i
  have hne := peers_ne cfg i
  cases hpeers : cfg.peers i with
  | nil =>
    obtain ⟨Q, hcard, hv⟩ := hQ
    exact .replicated hst' ⟨Q, hcard, fun v hvQ => (hv v hvQ).1⟩
  | cons p rest =>
    rw [hpeers] at hQ hnd hne
    refine .send (fun q hq => hne q (List.mem_cons_of_mem p hq)) (hne p (by simp)) (fun _ => ?_)
      ⟨hst', fun c hc => ?_⟩
    · -- the position was read off the log of the leader
      rw [hreq, hte]
      have hl : (r.confirm i index).leaderLog e.term = (s.nodes i).log := hlog
      refine ⟨hst'.1, by rw [hl]; rfl, ?_, by rw [hl]; exact Nat.sub_le _ _⟩
      have hlast := hst.2.2
      rw [hlog, ← hidx] at hlast
      rw [hl]
      conv_rhs => rw [← List.take_append_drop ((s.nodes i).log.length - 1) (s.nodes i).log]
      have hlt : (s.nodes i).log.length - 1 < (s.nodes i).log.length := by omega
      rw [List.drop_eq_getElem_cons hlt, List.drop_eq_nil_of_le (by omega)]
      rw [List.getElem?_eq_getElem hlt, Option.some.injEq] at hlast
      rw [hlast]
    · obtain rfl := Option.some.inj hc
      refine ⟨hnd, ⟨_, rfl, hte, by simp [RaftNode.proposeRequest], ?_⟩, hQ⟩
      rw [hreq]
      show (s.nodes i).log.length - 1 + 1 = index
      omega

/-- A heartbeat of the leader carries the end of its log. -/
lemma Tracks.build_ok (h : Tracks s r) (hi : r.Inv LogEntry.term) {i : ι}
    (hr : (s.nodes i).role = .leader) (p : ι) :
    RequestOk r i (.append ((s.nodes i).buildAppendEntries i p)) := by
  have hlead := h.leader i hr
  have hlog : r.leaderLog (s.nodes i).currentTerm = (s.nodes i).log := by
    rw [← h.log i]
    exact (hi.led_log i _ hlead (h.term i)).symm
  intro hne
  simp only [RaftNode.buildAppendEntries] at hne ⊢
  set next := ((s.nodes i).nextIndex p).getD 1 with hnext
  have hrange : 1 ≤ next ∧ next ≤ (s.nodes i).log.length := by
    by_contra hn
    simp [hn] at hne
  have hprev : (if next = 0 ∨ next = 1 then 0 else next - 1) = next - 1 := by
    split <;> omega
  rw [hprev, if_pos hrange, hlog]
  refine ⟨hlead, rfl, ?_, by omega⟩
  rw [List.take_append_drop]

/-- **A reply to a proposal**: a successful one is an acknowledgement of one more node. -/
lemma ThreadOk.proposal_count {i : ι} {e : LogEntry} {index acks : ℕ} {rest : List ι} {p : ι}
    {req : AppendEntriesReq ι} {ans : Option Response} {resp : AppendEntriesResp}
    (h : ThreadOk r i ⟨.replicating e index acks rest, some ⟨p, .append req, ans⟩⟩)
    (hr : ans = some (.append resp) ∨ Response.append resp = (Request.append req).unavailable) :
    Stored r i e index ∧ rest.Nodup ∧ (∀ q ∈ rest, q ≠ i) ∧ RequestOk r i (.append req) ∧
      (req.term = e.term ∧ req.entries ≠ [] ∧ req.prevLogIndex + req.entries.length = index) ∧
      ∃ Q : Finset ι, Q.card = (if resp.success then acks + 1 else acks) ∧
        ∀ v ∈ Q, Acked r e.term index v ∧ v ∉ rest := by
  obtain ⟨hst, hcall⟩ := h.proposal
  obtain ⟨hnd, ⟨req', hreq, ht, hne, hidx⟩, Q, hQ, hv⟩ := hcall _ rfl
  obtain rfl := Request.append.inj hreq
  obtain ⟨hp, hnd⟩ := List.nodup_cons.mp hnd
  refine ⟨hst, hnd, h.rest_ne, h.request _ rfl, ⟨ht, hne, hidx⟩, ?_⟩
  have hv' : ∀ v ∈ Q, Acked r e.term index v ∧ v ∉ rest := fun v hvQ =>
    ⟨(hv v hvQ).1, fun hm => (hv v hvQ).2 (List.mem_cons_of_mem p hm)⟩
  by_cases hs : resp.success = true
  · have hack : Acked r e.term index p := by
      rcases hr with hr | hr
      · refine ⟨index, le_rfl, ?_⟩
        have := h.answer _ rfl req resp rfl hr hs hne
        rwa [ht, hidx] at this
      · simp only [Request.unavailable, Response.append.injEq] at hr
        simp [hr] at hs
    have hpQ : p ∉ Q := fun hm => (hv p hm).2 (by simp)
    refine ⟨insert p Q, by rw [if_pos hs, Finset.card_insert_of_notMem hpQ, hQ], ?_⟩
    intro v hvQ
    rcases Finset.mem_insert.mp hvQ with rfl | hvQ
    · exact ⟨hack, hp⟩
    · exact hv' v hvQ
  · exact ⟨Q, by rw [if_neg hs, hQ], hv'⟩

/-- A returning call changes nothing but the lost requests. -/
lemma Tracks.returns (h : Tracks s r) {i : ι} {th : Thread} {lost : Bool} {pc : Pc ι}
    {c : Call ι} {resp : Response} {s₀ : Cluster ι} (hr : s.Returns i th lost pc c resp s₀) : Tracks s₀ r := by
  have hth := h.threads i th
  rw [hr.thread] at hth
  rcases hr.late with rfl | rfl
  · exact h
  · refine { h with late := fun p request hl => ?_ }
    rcases List.mem_cons.mp hl with hl | hl
    · simp only [Prod.mk.injEq] at hl
      obtain ⟨rfl, rfl⟩ := hl
      exact ⟨i, (hth.peer_ne c rfl).symm, hth.request c rfl⟩
    · exact h.late p request hl

/-- A proposal returns true for an entry that is chosen. -/
lemma Tracks.returnTrue (h : Tracks s r) {i : ι} {e : LogEntry} {index : ℕ}
    (hs : Stored r i e index) (hc : r.Chosen LogEntry.term e.term index) (th : Thread) :
    Tracks (s.returnTrue i th e index) r := by
  have h' : Tracks (s.setThread i th .idle) r := h.setThread .idle
  refine { h' with acked := fun j index' e' he => ?_ }
  rcases List.mem_cons.mp he with he | he
  · simp only [Prod.mk.injEq] at he
    obtain ⟨rfl, rfl, rfl⟩ := he
    exact ⟨hs, hc⟩
  · exact h'.acked j index' e' he

/-- **A reply to a vote request.** -/
lemma Tracks.election (h : Tracks s r) (hi : r.Inv LogEntry.term) {i : ι} {th : Thread} {votes : ℕ}
    {rest : List ι} {req : RequestVoteReq ι} {resp : RequestVoteResp} (hc : req.candidateId = i)
    (hnd : rest.Nodup) (hne : ∀ q ∈ rest, q ≠ i) (hok : RequestOk r i (.vote req))
    (hQ : ∃ Q : Finset ι, Q.card = (if resp.voteGranted then votes + 1 else votes) ∧
      ∀ v ∈ Q, r.ballots.Voted v req.term i ∧ v ∉ rest) :
    Follow (s.electionResume cfg i th votes rest req resp) r := by
  unfold Cluster.electionResume
  rcases (s.nodes i).electionReply_cases i (cfg.peers i) req.term votes resp with
    ⟨n', he, hf⟩ | ⟨hrole, ht, hneed, he⟩ | he
  · rw [he]
    exact h.yieldThread hi (.of_frame hf) .idle
  · rw [he]
    obtain ⟨Q, hcard, hv⟩ := hQ
    have hmaj : Fintype.card ι < 2 * Q.card := by
      have := RaftNode.card_lt_needed cfg i
      omega
    exact h.win hi hmaj (fun v hvQ => by rw [ht]; exact (hv v hvQ).1) hrole th
  · rw [he]
    exact h.yieldThread hi (.refl _) (.ask hne hok (.loop hc hnd hQ))

/-- **Every orderly step of the cluster refines steps of the replication.** -/
theorem Tracks.effect (h : Tracks s r) (hi : r.Inv LogEntry.term) {a : Action ι}
    (ha : s.Orderly a) (he : Cluster.Effect cfg s a s') : Follow s' r := by
  have hquiet : ∀ {i : ι} {th : Thread} {x : ThreadState ι}, ThreadOk r i x →
      Follow (s.setThread i th x) r := fun hx => ⟨r, .refl, h.setThread hx⟩
  cases he with
  | timeout i => exact hquiet (.of_none (by simp [Pc.rest]) trivial)
  | stand i => exact h.stand hi i
  | beat i => exact hquiet (.of_none (peers_ne cfg i) trivial)
  | buildEnd i => exact hquiet .idle
  | build i p rest hth hr =>
    have hok := (h.threads i .heartbeat).rest_ne
    rw [hth] at hok
    exact hquiet (.send (fun q hq => hok q (List.mem_cons_of_mem p hq)) (hok p List.mem_cons_self)
      (h.build_ok hi hr p) trivial)
  | refused => exact ⟨r, .refl, h⟩
  | propose _ i k e _ _ hr het => exact h.propose hi hr het _
  | place i k e index hth => exact h.place hi hth ha
  | notifyNone i k e index hth =>
    have hp := (h.threads i (.client k)).proposal
    rw [hth] at hp
    exact ⟨r, .refl, h.returnTrue hp.1 hp.2 _⟩
  | notify i k e index p rest hth hpeers =>
    have hp := (h.threads i (.client k)).proposal
    rw [hth] at hp
    have hne := peers_ne cfg i
    rw [hpeers] at hne
    exact hquiet (.send (fun q hq => hne q (List.mem_cons_of_mem p hq)) (hne p List.mem_cons_self)
      (fun hn => absurd rfl hn) hp)
  | take i e =>
    have hy : (s.nodes i).Yields (s.nodes i).noteApplied :=
      ⟨Or.inl ⟨rfl, rfl⟩, rfl, Or.inl ⟨rfl, rfl⟩⟩
    exact h.yieldThread hi hy (.of_none (by simp [Pc.rest]) trivial)
  | apply i index e =>
    have h' : Tracks (s.setThread i .apply .idle) r := h.setThread .idle
    exact ⟨r, .refl, { h' with }⟩
  | handle i th pc p request hth =>
    have hok := h.threads i th
    rw [hth] at hok
    obtain ⟨r', hm, htr, hvote, hack⟩ := h.handle hi (hok.peer_ne _ rfl).symm (hok.request _ rfl)
      (ha _ (by rw [hth]; rfl))
    have hg := (hi.steps hm).2
    have hok' := hok.mono hg
    exact ⟨r', hm, htr.setThread (hok'.answered hvote hack)⟩
  | handleLate n p request hl =>
    obtain ⟨j, hj, hok⟩ := h.late p request (List.mem_of_getElem? hl)
    obtain ⟨r', hm, htr, -⟩ := h.handle hi hj hok (ha (p, request) hl)
    exact ⟨r', hm, { htr with late := fun q rq hq => htr.late q rq (List.mem_of_mem_eraseIdx hq) }⟩
  | election i th lost votes rest p req ans resp s₀ hr =>
    have hok := h.threads i th
    rw [hr.thread] at hok
    obtain ⟨hc, hnd, hQ⟩ := hok.asking.count hr.response
    exact (h.returns hr).election hi hc hnd hok.rest_ne (hok.request _ rfl) hQ
  | heartbeat i th lost rest p req ans resp s₀ hr =>
    have hok := h.threads i th
    rw [hr.thread] at hok
    have hy := (s₀.nodes i).heartbeatReply_yields (cfg.peers i) p req resp
    unfold Cluster.heartbeatResume
    split
    · next n hn =>
      rw [hn] at hy
      exact (h.returns hr).yieldThread hi hy (.of_none hok.rest_ne trivial)
    · next n hn =>
      rw [hn] at hy
      exact (h.returns hr).yieldThread hi hy .idle
  | proposal i th lost e index acks rest p req ans resp s₀ hr =>
    have hok := h.threads i th
    rw [hr.thread] at hok
    obtain ⟨hst, hnd, hne, hreq, hpos, Q, hcard, hv⟩ := hok.proposal_count hr.response
    have hy := RaftNode.Yields.of_frame ((s₀.nodes i).proposeReply_frame (cfg.peers i) acks resp)
    have hout := (s₀.nodes i).proposeReply_outcome (cfg.peers i) acks resp
    unfold Cluster.proposeResume
    split
    · next n hn =>
      rw [hn] at hy
      exact (h.returns hr).yieldThread hi hy .idle
    · next n hn =>
      rw [hn] at hy hout
      refine (h.returns hr).yieldThread hi hy (.of_none (by simp [Pc.rest]) ⟨hst, ?_⟩)
      exact chosen_of_needed cfg hst (by rw [hcard]; exact hout) fun v hvQ => (hv v hvQ).1
    · next n acks' hn =>
      rw [hn] at hy hout
      have hout : acks' = if resp.success = true then acks + 1 else acks := hout
      rw [← hout] at hcard
      refine (h.returns hr).yieldThread hi hy ?_
      cases rest with
      | nil => exact .replicated hst ⟨Q, hcard, fun v hvQ => (hv v hvQ).1⟩
      | cons q rest =>
        refine .send (fun x hx => hne x (List.mem_cons_of_mem q hx)) (hne q List.mem_cons_self) hreq
          ⟨hst, fun c hc => ?_⟩
        obtain rfl := Option.some.inj hc
        exact ⟨hnd, ⟨req, rfl, hpos⟩, Q, hcard, hv⟩
  | notice i th lost e index rest p req ans resp s₀ hr =>
    have hok := h.threads i th
    rw [hr.thread] at hok
    obtain ⟨hst, hch⟩ := hok.proposal
    have hy := RaftNode.Yields.of_frame ((s₀.nodes i).noticeReply_frame resp)
    unfold Cluster.noticeResume
    split
    · next n q rest hn =>
      rw [hn] at hy
      have hne : ∀ x ∈ q :: rest, x ≠ i := hok.rest_ne
      exact (h.returns hr).yieldThread hi hy
        (.send (fun x hx => hne x (List.mem_cons_of_mem q hx)) (hne q List.mem_cons_self)
          (hok.request _ rfl) ⟨hst, hch⟩)
    · next n go hn _ =>
      rw [hn] at hy
      obtain ⟨r', hm, -, -, htr⟩ := (h.returns hr).yield hi hy
      have hg := (hi.steps hm).2
      exact ⟨r', hm, htr.returnTrue (hst.mono hg) (hch.mono hg) th⟩

lemma init_tracks : Tracks (Cluster.init : Cluster ι) Replicas.init := by
  refine ⟨fun _ => rfl, fun _ => rfl, fun _ => rfl, ?_, ?_, ?_, ?_, fun _ _ => .idle, ?_, ?_⟩
  · simp [Replicas.init, Ballots.init, Cluster.init]
  · simp [Cluster.init]
  · simp [Cluster.init, RaftNode.init]
  · simp [Cluster.init, RaftNode.init]
  · simp [Cluster.init]
  · simp [Cluster.init]

omit [Fintype ι] in
/-- The first step of a run and the rest of it. -/
lemma Cluster.run_cons {a : Action ι} {as : List (Action ι)}
    (h : s.run cfg (a :: as) = some s') :
    ∃ s₁, s.step cfg a = some s₁ ∧ s₁.run cfg as = some s' :=
  Option.bind_eq_some_iff.mp (show (s.step cfg a).bind (fun s₁ => s₁.run cfg as) = some s' from h)

omit [Fintype ι] in
/-- **What every step under a condition keeps, a run of such steps keeps.** -/
lemma Cluster.run_invariant {P : Cluster ι → Prop} {C : Cluster ι → Action ι → Prop}
    (hstep : ∀ s a s', P s → C s a → Cluster.Effect cfg s a s' → P s') {as : List (Action ι)}
    (h : P s) (ha : s.AllMeet cfg C as) (hrun : s.run cfg as = some s') : P s' := by
  induction as generalizing s with
  | nil =>
    obtain rfl := Option.some.inj hrun
    exact h
  | cons a as ih =>
    obtain ⟨s₁, hs, hrest⟩ := Cluster.run_cons hrun
    exact ih (hstep s a s₁ h ha.1 (Cluster.step_effect hs)) (ha.2 s₁ hs) hrest

/-- **A run of orderly steps refines a run of the replication.** -/
theorem run_tracks {as : List (Action ι)} (h : Tracks s r) (hi : r.Inv LogEntry.term)
    (ha : s.AllMeet cfg Cluster.Orderly as) (hrun : s.run cfg as = some s') : Follow s' r := by
  induction as generalizing s r with
  | nil =>
    obtain rfl := Option.some.inj hrun
    exact ⟨r, .refl, h⟩
  | cons a as ih =>
    obtain ⟨s₁, hstep, hrest⟩ := Cluster.run_cons hrun
    obtain ⟨r₁, hm₁, ht₁⟩ := h.effect hi ha.1 (Cluster.step_effect hstep)
    obtain ⟨r₂, hm₂, ht₂⟩ := ih ht₁ (hi.steps hm₁).1 (ha.2 s₁ hstep) hrest
    exact ⟨r₂, hm₁.trans hm₂, ht₂⟩

end Steps

/-- **An acknowledged proposal is never lost.** In every run of orderly steps, an entry whose
proposal returned true is at its index in the log of every node that became leader in a later
term. -/
theorem acked_of_later_leader [Fintype ι] (cfg : Config ι) {as : List (Action ι)} {s : Cluster ι}
    (hrun : Cluster.init.run cfg as = some s)
    (ha : Cluster.init.AllMeet cfg Cluster.Orderly as) {i j : ι} {index t : ℕ} {e : LogEntry}
    {l : List LogEntry} (hack : (i, index, e) ∈ s.acked) (hl : (j, t, l) ∈ s.elected)
    (ht : e.term < t) : l[index - 1]? = some e := by
  obtain ⟨r, hm, htr⟩ := run_tracks init_tracks Replicas.init_inv ha hrun
  obtain ⟨hinv, -⟩ := Replicas.init_inv.steps hm
  obtain ⟨⟨-, hpos, he⟩, hch⟩ := htr.acked i index e hack
  have hel : r.Elected t := ⟨j, (htr.leaders j t).mpr ⟨l, hl⟩⟩
  obtain ⟨u, hu⟩ := hinv.leader_complete hch hel ht
  have hlt : index - 1 < ((r.leaderLog e.term).take index).length := by
    have := (List.getElem?_eq_some_iff.mp he).1
    simp only [List.length_take]
    omega
  rw [htr.first j t l hl, ← hu, List.getElem?_append_left hlt, List.getElem?_take_of_lt (by omega)]
  exact he

/-- A proposal of the first node that the second node acknowledges; both notices are lost. -/
def acknowledge (key value : Bytes) : List (Action (Fin 3)) :=
  [.proposePut 0 0 key value, .place 0 0, .handle 0 (.client 0), .resume 0 (.client 0) false,
    .notify 0 0, .resume 0 (.client 0) true, .resume 0 (.client 0) true]

/-- The second node stands, and the third one votes for it. -/
def secondElection : List (Action (Fin 3)) :=
  [.timeout 1, .stand 1, .handle 1 .election, .resume 1 .election false, .handle 1 .election,
    .resume 1 .election false]

/-- A heartbeat with the first entry arrives at the second node after it has acknowledged the
second entry, and cuts it off again; then this node becomes leader. -/
def staleHeartbeat : List (Action (Fin 3)) :=
  firstElection ++ acknowledge (text "a") (text "1") ++ [.beat 0, .build 0] ++
    acknowledge (text "b") (text "2") ++ [.handle 0 .heartbeat] ++ secondElection

/-- The second entry was acknowledged in the first term, and the leader of the second term does
not have it. -/
theorem acked_entry_lost : ∃ s, Cluster.init.run threeNodes staleHeartbeat = some s ∧
    (0, 2, ⟨1, .put, text "b", text "2"⟩) ∈ s.acked ∧
    ∃ l, (1, 2, l) ∈ s.elected ∧ l[2 - 1]? ≠ some ⟨1, .put, text "b", text "2"⟩ := by
  have h : (Cluster.init.run threeNodes staleHeartbeat).map (fun s => (s.acked, s.elected)) = some
      ([(0, 2, ⟨1, .put, text "b", text "2"⟩), (0, 1, ⟨1, .put, text "a", text "1"⟩)],
        [(1, 2, [⟨1, .put, text "a", text "1"⟩]), (0, 1, [])]) := by
    decide +kernel
  obtain ⟨s, hrun, hs⟩ := Option.map_eq_some_iff.mp h
  obtain ⟨h1, h2⟩ := Prod.mk.inj hs
  exact ⟨s, hrun, by simp [h1], [⟨1, .put, text "a", text "1"⟩], by simp [h2], by decide⟩

/-- Without the stale heartbeat the leader of the second term has the entry; the first node votes
for it. -/
theorem acked_of_later_leader_second :
    ∃ s, Cluster.init.run threeNodes (firstElection ++ acknowledge (text "a") (text "1") ++
        secondElection.take 4) = some s ∧ ∃ l, (1, 2, l) ∈ s.elected ∧
      l[1 - 1]? = some ⟨1, .put, text "a", text "1"⟩ := by
  have h : (Cluster.init.run threeNodes (firstElection ++ acknowledge (text "a") (text "1") ++
      secondElection.take 4)).map (fun s => (s.acked, s.elected)) = some
      ([(0, 1, ⟨1, .put, text "a", text "1"⟩)],
        [(1, 2, [⟨1, .put, text "a", text "1"⟩]), (0, 1, [])]) := by
    decide +kernel
  obtain ⟨s, hrun, hs⟩ := Option.map_eq_some_iff.mp h
  obtain ⟨h1, h2⟩ := Prod.mk.inj hs
  have hack : ((0 : Fin 3), 1, (⟨1, .put, text "a", text "1"⟩ : LogEntry)) ∈ s.acked := by simp [h1]
  have hel : ((1 : Fin 3), 2, [(⟨1, .put, text "a", text "1"⟩ : LogEntry)]) ∈ s.elected := by
    simp [h2]
  exact ⟨s, hrun, _, hel,
    acked_of_later_leader threeNodes hrun (by decide +kernel) hack hel (by decide)⟩

end VeriStore.Raft

import VeriStore.Raft.Clients
import VeriStore.Raft.Speakers

/-!
Who is named as the leader.

A node that follows keeps the leader it was told of, and a server tells its clients. A request may
name a leader whose time is over, and a proposal may send one from a node that is no longer leader,
but whoever is named was elected once (`Named.effect`).
-/

namespace VeriStore.Raft

open VeriStore.Lib

set_option linter.unusedSectionVars false

variable {ι : Type} [DecidableEq ι]

namespace Cluster

/-- The node has become leader in some term. -/
def Won (es : Elections ι) (i : ι) : Prop := ∃ t, Led es i t

/-- A leader has won, and so has the leader the node knows. -/
structure NodeNames (es : Elections ι) (i : ι) (n : RaftNode ι) : Prop where
  leader : n.role = .leader → Won es i
  known : ∀ j, n.leaderId = some j → Won es j

/-- The request names a leader that has won. -/
def RequestNames (es : Elections ι) (request : Request ι) : Prop :=
  ∀ req, request = .append req → Won es req.leaderId

/-- A thread that sends such requests; a node with a proposal in progress has won. -/
structure ThreadNames (es : Elections ι) (i : ι) (x : ThreadState ι) : Prop where
  request : ∀ c, x.call = some c → RequestNames es c.request
  proposal : x.pc.proposal ≠ none → Won es i

/-- **Whoever is named was elected once.** -/
structure Named (s : Cluster ι) : Prop where
  nodes : ∀ i, NodeNames s.elected i (s.nodes i)
  threads : ∀ i th, ThreadNames s.elected i (s.threads i th)
  late : ∀ y ∈ s.late, RequestNames s.elected y.2

/-! ### Nodes -/

section Nodes

variable {es : Elections ι} {i : ι} {n n' : RaftNode ι}

omit [DecidableEq ι] in
lemma Won.cons (h : Won es i) (y : ι × ℕ × List LogEntry) : Won (y :: es) i := by
  obtain ⟨t, ht⟩ := h
  exact ⟨t, ht.cons y⟩

/-- A node that gets no new role and no new leader. -/
lemma NodeNames.keep (h : NodeNames es i n) (hr : n'.role = .leader → n.role = .leader)
    (hl : n'.leaderId = n.leaderId ∨ n'.leaderId = none) : NodeNames es i n' := by
  refine ⟨fun hlead => h.leader (hr hlead), fun j hj => ?_⟩
  rcases hl with hl | hl
  · exact h.known j (hl ▸ hj)
  · rw [hl] at hj
    cases hj

/-- A node that steps down. -/
lemma NodeNames.frame (h : NodeNames es i n) {t : ℕ}
    (hn : n' = n ∨ (n.currentTerm < t ∧ n' = n.becomeFollower t none)) : NodeNames es i n' := by
  rcases hn with rfl | ⟨-, rfl⟩
  · exact h
  · exact h.keep (by simp [RaftNode.becomeFollower]) (Or.inr rfl)

lemma NodeNames.heartbeatReply (h : NodeNames es i n) (peers : List ι) (p : ι)
    (req : AppendEntriesReq ι) (resp : AppendEntriesResp) :
    NodeNames es i (n.heartbeatReply peers p req resp).1 := by
  rcases n.heartbeatReply_frame peers p req resp with ⟨hlt, e⟩ | ⟨next, mtch, c, e⟩
  · rw [e]
    exact h.frame (Or.inr ⟨hlt, rfl⟩)
  · rw [e]
    exact h.keep (fun hr => hr) (Or.inl rfl)

/-- The leader of an accepted term. -/
lemma leaderId_followLeader (n : RaftNode ι) (t : ℕ) (l : ι) :
    (n.followLeader t l).leaderId = some l := by
  unfold RaftNode.followLeader
  split <;> rfl

/-- **A handled request** tells of no other leader than the one it names. -/
lemma NodeNames.handle (h : NodeNames es i n) {request : Request ι}
    (hreq : RequestNames es request) : NodeNames es i (n.handle request).1 := by
  have hoffice := n.handle_office request
  cases request with
  | vote req =>
    refine h.keep (fun hr => (hoffice hr).1) ?_
    simp only [RaftNode.handle, RaftNode.onRequestVote]
    split
    · exact Or.inl rfl
    · split
      · split
        · exact Or.inr rfl
        · exact Or.inr rfl
      · split
        · exact Or.inl rfl
        · exact Or.inl rfl
  | append req =>
    refine ⟨fun hr => h.leader (hoffice hr).1, fun j hj => ?_⟩
    have hid : (n.onAppendEntries req).1.leaderId = n.leaderId ∨
        (n.onAppendEntries req).1.leaderId = some req.leaderId := by
      have hf := leaderId_followLeader n req.term req.leaderId
      unfold RaftNode.onAppendEntries
      split
      · exact Or.inl rfl
      · right
        dsimp only
        split
        · exact hf
        · split
          · exact hf
          · exact hf
    rcases hid with hid | hid
    · exact h.known j (hid ▸ hj)
    · rw [show ((n.handle (.append req)).1).leaderId = some req.leaderId from hid] at hj
      obtain rfl := Option.some.inj hj
      exact hreq req rfl

end Nodes

/-! ### Threads -/

section Threads

variable {es : Elections ι} {i : ι}

omit [DecidableEq ι] in
lemma ThreadNames.idle : ThreadNames es i .idle :=
  ⟨fun _ hc => (by cases hc), fun h => absurd rfl h⟩

omit [DecidableEq ι] in
lemma ThreadNames.cons {x : ThreadState ι} (h : ThreadNames es i x) (y : ι × ℕ × List LogEntry) :
    ThreadNames (y :: es) i x :=
  ⟨fun c hc req hr => (h.request c hc req hr).cons y, fun hp => (h.proposal hp).cons y⟩

omit [DecidableEq ι] in
/-- A thread without a call. -/
lemma ThreadNames.of_none {pc : Pc ι} (h : pc.proposal ≠ none → Won es i) :
    ThreadNames es i ⟨pc, none⟩ :=
  ⟨fun _ hc => (by cases hc), h⟩

omit [DecidableEq ι] in
/-- A thread that makes a call. -/
lemma ThreadNames.send {pc : Pc ι} {p : ι} {request : Request ι} {ans : Option Response}
    (hr : RequestNames es request) (h : pc.proposal ≠ none → Won es i) :
    ThreadNames es i ⟨pc, some ⟨p, request, ans⟩⟩ := by
  refine ⟨fun c hc => ?_, h⟩
  obtain rfl := Option.some.inj hc
  exact hr

omit [DecidableEq ι] in
lemma ThreadNames.loop {pc : List ι → Pc ι} {request : Request ι} {atEnd : ThreadState ι}
    (hend : ThreadNames es i atEnd) (hr : RequestNames es request)
    (h : ∀ l, (pc l).proposal ≠ none → Won es i) (ps : List ι) :
    ThreadNames es i (.loop pc request atEnd ps) := by
  cases ps with
  | nil => exact hend
  | cons p ps => exact .send hr (h ps)

omit [DecidableEq ι] in
lemma ThreadNames.replicated (h : Won es i) {cfg : Config ι} {e : LogEntry} {index acks : ℕ} :
    ThreadNames es i (replicated cfg i e index acks) := by
  unfold Cluster.replicated
  split
  · exact .idle
  · exact .of_none fun _ => h

omit [DecidableEq ι] in
lemma requestNames_vote (req : RequestVoteReq ι) : RequestNames es (.vote req) :=
  fun _ h => by cases h

omit [DecidableEq ι] in
lemma requestNames_append {req : AppendEntriesReq ι} (h : Won es req.leaderId) :
    RequestNames es (.append req) := fun req' he => by
  obtain rfl := Request.append.inj he
  exact h

end Threads

/-! ### Steps -/

section Steps

variable {cfg : Config ι} {s s' s₀ : Cluster ι} {i j : ι}

lemma Named.setNode (h : s.Named) {n : RaftNode ι} (hn : NodeNames s.elected i n) :
    (s.setNode i n).Named :=
  ⟨forall_setNode (P := NodeNames s.elected) h.nodes hn, h.threads, h.late⟩

lemma Named.setThread (h : s.Named) {th : Thread} {x : ThreadState ι}
    (hx : ThreadNames s.elected i x) : (s.setThread i th x).Named :=
  ⟨h.nodes, forall_setThread h.threads hx, h.late⟩

lemma Named.update (h : s.Named) {n : RaftNode ι} (hn : NodeNames s.elected i n) {th : Thread}
    {x : ThreadState ι} (hx : ThreadNames s.elected j x) :
    ((s.setNode i n).setThread j th x).Named := (h.setNode hn).setThread hx

/-- A call that returns: its request names a leader, and so does the proposal it was made for. -/
lemma Named.returns (h : s.Named) {th : Thread} {lost : Bool} {pc : Pc ι} {c : Call ι}
    {resp : Response} (hr : s.Returns i th lost pc c resp s₀) :
    s₀.Named ∧ RequestNames s₀.elected c.request ∧ (pc.proposal ≠ none → Won s₀.elected i) := by
  obtain ⟨hreq, hprop⟩ := h.threads i th
  rw [hr.thread] at hreq hprop
  have hc := hreq c rfl
  rcases hr.late with rfl | rfl
  · exact ⟨h, hc, hprop⟩
  · refine ⟨⟨h.nodes, h.threads, fun y hy => ?_⟩, hc, hprop⟩
    rcases List.mem_cons.mp hy with rfl | hy
    · exact hc
    · exact h.late y hy

/-- **A reply to a vote request** may make a leader. -/
lemma Named.election (h : s.Named) {th : Thread} {votes : ℕ} {rest : List ι}
    {req : RequestVoteReq ι} {resp : RequestVoteResp} :
    (s.electionResume cfg i th votes rest req resp).Named := by
  unfold electionResume
  rcases (s.nodes i).electionReply_cases i (cfg.peers i) req.term votes resp with
    ⟨n', he, hf⟩ | ⟨-, -, -, he⟩ | he
  · rw [he]
    exact h.update ((h.nodes i).frame hf) .idle
  · rw [he]
    -- the new leader is recorded and knows itself
    set y := (i, (s.nodes i).currentTerm, (s.nodes i).log)
    have hwon : Won (y :: s.elected) i := ⟨_, (s.nodes i).log, List.mem_cons_self⟩
    have hnew : NodeNames (y :: s.elected) i ((s.nodes i).becomeLeader i (cfg.peers i)) := by
      refine ⟨fun _ => hwon, fun j hj => ?_⟩
      obtain rfl := Option.some.inj hj
      exact hwon
    exact ⟨forall_setNode (P := NodeNames (y :: s.elected)) (fun j =>
        ⟨fun hr => ((h.nodes j).leader hr).cons y, fun l hl => ((h.nodes j).known l hl).cons y⟩) hnew,
      forall_setThread (s := s.setNode i ((s.nodes i).becomeLeader i (cfg.peers i)))
        (P := ThreadNames (y :: s.elected)) (fun j th' => (h.threads j th').cons y) .idle,
      fun z hz req hreq => (h.late z hz req hreq).cons y⟩
  · rw [he]
    exact h.update (h.nodes i) (.loop .idle (requestNames_vote req) (fun _ hp => absurd rfl hp) rest)

/-- **Every step.** -/
theorem Named.effect (h : s.Named) {a : Action ι} (he : Effect cfg s a s') : s'.Named := by
  cases he with
  | timeout i => exact h.setThread (.of_none fun hp => absurd rfl hp)
  | stand i =>
    have hn : NodeNames s.elected i ((s.nodes i).becomeCandidate i) :=
      (h.nodes i).keep (by simp [RaftNode.becomeCandidate]) (Or.inr rfl)
    exact h.update hn
      (.loop .idle (requestNames_vote _) (fun _ hp => absurd rfl hp) (cfg.peers i))
  | beat i => exact h.setThread (.of_none fun hp => absurd rfl hp)
  | buildEnd i => exact h.setThread .idle
  | build i p rest hth hr =>
    exact h.setThread (.send (requestNames_append ((h.nodes i).leader hr)) fun hp => absurd rfl hp)
  | refused => exact h
  | propose _ i k e _ _ hr =>
    have hwon := (h.nodes i).leader hr
    exact h.update (n := (s.nodes i).pushEntry e)
      ((h.nodes i).keep (fun hr => hr) (Or.inl rfl)) (.of_none fun _ => hwon)
  | place i k e index hth =>
    have hwon := (h.threads i (.client k)).proposal (by rw [hth]; simp [Pc.proposal])
    exact h.setThread (.loop (.replicated hwon) (requestNames_append hwon) (fun _ _ => hwon) _)
  | notifyNone i k e index =>
    have h' : (s.setThread i (.client k) .idle).Named := h.setThread .idle
    exact ⟨h'.nodes, h'.threads, h'.late⟩
  | notify i k e index p rest hth =>
    have hwon := (h.threads i (.client k)).proposal (by rw [hth]; simp [Pc.proposal])
    exact h.setThread (.send (requestNames_append hwon) fun _ => hwon)
  | take i e =>
    exact h.update (n := (s.nodes i).noteApplied) ((h.nodes i).keep (fun hr => hr) (Or.inl rfl))
      (.of_none fun hp => absurd rfl hp)
  | apply i index e =>
    have h' : (s.setThread i .apply .idle).Named := h.setThread .idle
    exact ⟨h'.nodes, h'.threads, h'.late⟩
  | handle i th pc p request hth =>
    obtain ⟨hreq, hprop⟩ := h.threads i th
    rw [hth] at hreq hprop
    exact h.update ((h.nodes p).handle (hreq _ rfl)) (.send (hreq _ rfl) hprop)
  | handleLate n p request hget =>
    have hreq := h.late _ (List.mem_of_getElem? hget)
    obtain ⟨h1, h2, h3⟩ := h.setNode ((h.nodes p).handle hreq)
    exact ⟨h1, h2, fun y hy => h3 y (List.mem_of_mem_eraseIdx hy)⟩
  | election i th lost votes rest p req ans resp s₀ hr => exact (h.returns hr).1.election
  | heartbeat i th lost rest p req ans resp s₀ hr =>
    obtain ⟨h₀, -, -⟩ := h.returns hr
    have hn := (h₀.nodes i).heartbeatReply (cfg.peers i) p req resp
    unfold heartbeatResume
    split
    all_goals
      next n hp =>
      rw [hp] at hn
      exact h₀.update hn (.of_none fun hne => absurd rfl hne)
  | proposal i th lost e index acks rest p req ans resp s₀ hr =>
    obtain ⟨h₀, hreq, hwon⟩ := h.returns hr
    have hw := hwon (by simp [Pc.proposal])
    have hn := (h₀.nodes i).frame ((s₀.nodes i).proposeReply_frame (cfg.peers i) acks resp)
    unfold proposeResume
    split
    · next n hp =>
      rw [hp] at hn
      exact h₀.update hn .idle
    · next n hp =>
      rw [hp] at hn
      exact h₀.update hn (.of_none fun _ => hw)
    · next n acks' hp =>
      rw [hp] at hn
      exact h₀.update hn (.loop (.replicated hw) hreq (fun _ _ => hw) rest)
  | notice i th lost e index rest p req ans resp s₀ hr =>
    obtain ⟨h₀, hreq, hwon⟩ := h.returns hr
    have hw := hwon (by simp [Pc.proposal])
    have hn := (h₀.nodes i).frame ((s₀.nodes i).noticeReply_frame resp)
    unfold noticeResume
    split
    · next n q rest hp =>
      rw [hp] at hn
      exact h₀.update hn (.send hreq fun _ => hw)
    · next n go hp _ =>
      rw [hp] at hn
      have h' : ((s₀.setNode i n).setThread i th .idle).Named := h₀.update hn .idle
      exact ⟨h'.nodes, h'.threads, h'.late⟩

omit [DecidableEq ι] in
lemma init_named : (init : Cluster ι).Named :=
  ⟨fun _ => ⟨fun h => by simp [init, RaftNode.init] at h, fun _ h => by cases h⟩,
    fun _ _ => .idle, fun _ h => by simp [init] at h⟩

end Steps

end Cluster

end VeriStore.Raft

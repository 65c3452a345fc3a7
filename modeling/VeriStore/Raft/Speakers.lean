import VeriStore.Raft.Replication

/-!
Who speaks for a term.

An `AppendEntries` request is obeyed by every node whose term is not later, so only the node that
was elected in a term may send one with this term. A heartbeat is built in the critical section
that checks the role. A proposal reads the term twice more after that check, for its entry and for
the notice behind it, and sends what it finds.

* `only_leader_speaks` — proposals that find a leader there keep the rule in every run;
* `deposed_node_speaks` — a proposal of a node that is no longer leader breaks it.
-/

namespace VeriStore.Raft

open VeriStore.Lib

variable {ι : Type} [DecidableEq ι]

/-! ### The condition on proposals -/

/-- A proposal is about to read the term of its node for a request. -/
def ThreadState.rereads : ThreadState ι → Bool
  | ⟨.appended _ _, none⟩ => true
  | ⟨.acknowledged _ _, none⟩ => true
  | _ => false

namespace Cluster

/-- **A proposal reads the term for its requests on a leader.** A node without peers sends none. -/
def InOffice (cfg : Config ι) (s : Cluster ι) : Action ι → Prop
  | .place i k => (s.threads i (.client k)).rereads = true → cfg.peers i ≠ [] →
      (s.nodes i).role = .leader
  | .notify i k => (s.threads i (.client k)).rereads = true → cfg.peers i ≠ [] →
      (s.nodes i).role = .leader
  | _ => True

instance (cfg : Config ι) (s : Cluster ι) : (a : Action ι) → Decidable (s.InOffice cfg a)
  | .place _ _ => inferInstanceAs (Decidable (_ → _ → _))
  | .notify _ _ => inferInstanceAs (Decidable (_ → _ → _))
  | .timeout _ | .stand _ | .beat _ | .build _ | .proposePut _ _ _ _ | .proposeDel _ _ _
  | .take _ | .apply _ | .handle _ _ | .resume _ _ _ | .handleLate _ => isTrue trivial

/-- The nodes that became leader, with their terms and logs. -/
abbrev Elections (ι : Type) := List (ι × ℕ × List LogEntry)

/-- The node has become leader in the term. -/
def Led (es : Elections ι) (i : ι) (t : ℕ) : Prop := ∃ l, (i, t, l) ∈ es

/-- The request in progress of a thread speaks for a term of its node. -/
def Speaks (es : Elections ι) (i : ι) (x : ThreadState ι) : Prop :=
  ∀ c req, x.call = some c → c.request = .append req → Led es i req.term ∧ req.leaderId = i

/-- Leaders were elected, and requests speak for terms their senders were elected in. -/
structure Spoken (s : Cluster ι) : Prop where
  leader : ∀ i, (s.nodes i).role = .leader → Led s.elected i (s.nodes i).currentTerm
  threads : ∀ i th, Speaks s.elected i (s.threads i th)

/-! ### Threads and nodes -/

section Threads

variable {es : Elections ι} {i : ι}

omit [DecidableEq ι] in
lemma Led.cons {t : ℕ} (h : Led es i t) (x : ι × ℕ × List LogEntry) : Led (x :: es) i t := by
  obtain ⟨l, hl⟩ := h
  exact ⟨l, List.mem_cons_of_mem x hl⟩

omit [DecidableEq ι] in
lemma Speaks.cons {x : ThreadState ι} (h : Speaks es i x) (y : ι × ℕ × List LogEntry) :
    Speaks (y :: es) i x := by
  intro c req hc hr
  exact ⟨(h c req hc hr).1.cons y, (h c req hc hr).2⟩

omit [DecidableEq ι] in
lemma Speaks.of_none {pc : Pc ι} : Speaks es i ⟨pc, none⟩ := by simp [Speaks]

omit [DecidableEq ι] in
lemma Speaks.idle : Speaks es i .idle := .of_none

omit [DecidableEq ι] in
/-- A thread that waits for the answer to a request. -/
lemma Speaks.send {pc : Pc ι} {p : ι} {req : AppendEntriesReq ι} {a : Option Response}
    (h : Led es i req.term ∧ req.leaderId = i) : Speaks es i ⟨pc, some ⟨p, .append req, a⟩⟩ := by
  intro c req' hc hr
  obtain rfl := Option.some.inj hc
  obtain rfl := Request.append.inj hr
  exact h

omit [DecidableEq ι] in
/-- The next call of a loop. -/
lemma Speaks.loop {pc : List ι → Pc ι} {request : Request ι} {atEnd : ThreadState ι} {rest : List ι}
    (he : Speaks es i atEnd)
    (h : rest ≠ [] → ∀ req, request = .append req → Led es i req.term ∧ req.leaderId = i) :
    Speaks es i (.loop pc request atEnd rest) := by
  cases rest with
  | nil => exact he
  | cons p rest =>
    intro c req hc hr
    obtain rfl := Option.some.inj hc
    exact h (by simp) req hr

omit [DecidableEq ι] in
lemma Speaks.replicated {cfg : Config ι} {e : LogEntry} {index acks : ℕ} :
    Speaks es i (replicated cfg i e index acks) := by
  unfold Cluster.replicated
  split
  · exact .idle
  · exact .of_none

end Threads

section Frame

variable {s : Cluster ι} {i : ι}

/-- A node that is a leader only if it was one in this term, and a thread that goes on. -/
lemma Spoken.update (h : s.Spoken) {n : RaftNode ι}
    (hn : n.role = .leader → (s.nodes i).role = .leader ∧ n.currentTerm = (s.nodes i).currentTerm)
    {j : ι} {th : Thread} {x : ThreadState ι} (hx : Speaks s.elected j x) :
    ((s.setNode i n).setThread j th x).Spoken := by
  refine ⟨forall_setNode (P := fun i n => n.role = .leader → Led s.elected i n.currentTerm)
    h.leader fun hr => ?_, forall_setThread (s := s.setNode i n) (P := Speaks s.elected) h.threads hx⟩
  obtain ⟨hrole, ht⟩ := hn hr
  rw [ht]
  exact h.leader i hrole

/-- A node stays in office and one of the threads goes on. -/
lemma Spoken.officeThread (h : s.Spoken) {n : RaftNode ι} (hn : (s.nodes i).Office n) {j : ι}
    {th : Thread} {x : ThreadState ι} (hx : Speaks s.elected j x) :
    ((s.setNode i n).setThread j th x).Spoken :=
  h.update (fun hr => ⟨(hn hr).1, (hn hr).2.1⟩) hx

lemma Spoken.setThread (h : s.Spoken) {th : Thread} {x : ThreadState ι}
    (hx : Speaks s.elected i x) : (s.setThread i th x).Spoken :=
  ⟨h.leader, forall_setThread h.threads hx⟩

omit [DecidableEq ι] in
lemma Spoken.returns (h : s.Spoken) {th : Thread} {lost : Bool} {pc : Pc ι} {c : Call ι}
    {resp : Response} {s₀ : Cluster ι} (hr : s.Returns i th lost pc c resp s₀) : s₀.Spoken := by
  rcases hr.late with rfl | rfl
  · exact h
  · exact ⟨h.leader, h.threads⟩

omit [DecidableEq ι] in
/-- The request of a call that returns. -/
lemma Spoken.request (h : s.Spoken) {th : Thread} {lost : Bool} {pc : Pc ι} {p : ι}
    {req : AppendEntriesReq ι} {a : Option Response} {resp : Response} {s₀ : Cluster ι}
    (hr : s.Returns i th lost pc ⟨p, .append req, a⟩ resp s₀) :
    Led s₀.elected i req.term ∧ req.leaderId = i := by
  have hth := h.threads i th
  rw [hr.thread] at hth
  have he : s₀.elected = s.elected := by rcases hr.late with rfl | rfl <;> rfl
  rw [he]
  exact hth _ req rfl rfl

end Frame

/-! ### Steps -/

section Steps

variable {cfg : Config ι} {s s' : Cluster ι}

/-- **A reply to a vote request** makes a leader that is recorded as elected. -/
lemma Spoken.election (h : s.Spoken) {i : ι} {th : Thread} {votes : ℕ} {rest : List ι}
    {req : RequestVoteReq ι} {resp : RequestVoteResp} :
    (s.electionResume cfg i th votes rest req resp).Spoken := by
  unfold electionResume
  rcases (s.nodes i).electionReply_cases i (cfg.peers i) req.term votes resp with
    ⟨n', he, hf⟩ | ⟨-, -, -, he⟩ | he
  · rw [he]
    exact h.officeThread (RaftNode.Yields.of_frame hf).office .idle
  · rw [he]
    -- the new leader is recorded
    set y := (i, (s.nodes i).currentTerm, (s.nodes i).log)
    have hlead : ∀ j, ((s.setNode i ((s.nodes i).becomeLeader i (cfg.peers i))).nodes j).role =
        .leader → Led (y :: s.elected) j
          ((s.setNode i ((s.nodes i).becomeLeader i (cfg.peers i))).nodes j).currentTerm :=
      forall_setNode (P := fun j n => n.role = .leader → Led (y :: s.elected) j n.currentTerm)
        (fun j hr => (h.leader j hr).cons y) fun _ => ⟨(s.nodes i).log, List.mem_cons_self⟩
    exact ⟨hlead, forall_setThread (s := s.setNode i ((s.nodes i).becomeLeader i (cfg.peers i)))
      (P := Speaks (y :: s.elected)) (fun j th' => (h.threads j th').cons y) .idle⟩
  · rw [he]
    exact h.officeThread (RaftNode.Yields.refl _).office (.loop .idle (by simp))

/-- **Every step on which proposals find a leader keeps the rule.** -/
theorem Spoken.effect (h : s.Spoken) {a : Action ι} (ha : s.InOffice cfg a)
    (he : Effect cfg s a s') : s'.Spoken := by
  cases he with
  | timeout i => exact h.setThread .of_none
  | stand i =>
    have hn : (s.nodes i).Office ((s.nodes i).becomeCandidate i) :=
      .of_ne (by simp [RaftNode.becomeCandidate])
    exact h.officeThread hn (.loop .idle (by simp))
  | beat i => exact h.setThread .of_none
  | buildEnd i => exact h.setThread .idle
  | build i p rest hth hr => exact h.setThread (.send ⟨h.leader i hr, rfl⟩)
  | refused => exact h
  | propose _ i k e _ _ hr =>
    exact h.update (n := (s.nodes i).pushEntry e) (fun hr => ⟨hr, rfl⟩) .of_none
  | place i k e index hth =>
    refine h.setThread (.loop .replicated fun hp req hreq => ?_)
    obtain rfl := Request.append.inj hreq
    exact ⟨h.leader i (ha (by rw [hth]; rfl) hp), rfl⟩
  | notifyNone i k e index =>
    have h' : (s.setThread i (.client k) .idle).Spoken := h.setThread .idle
    exact ⟨h'.leader, h'.threads⟩
  | notify i k e index p rest hth hp =>
    exact h.setThread (.send ⟨h.leader i (ha (by rw [hth]; rfl) (by simp [hp])), rfl⟩)
  | take i e => exact h.update (n := (s.nodes i).noteApplied) (fun hr => ⟨hr, rfl⟩) .of_none
  | apply i index e =>
    have h' : (s.setThread i .apply .idle).Spoken := h.setThread .idle
    exact ⟨h'.leader, h'.threads⟩
  | handle i th pc p request hth =>
    have hx := h.threads i th
    rw [hth] at hx
    refine h.officeThread ((s.nodes p).handle_office request) fun c req hc hr => ?_
    obtain rfl := Option.some.inj hc
    exact hx ⟨p, request, none⟩ req rfl hr
  | handleLate n p request =>
    have hn := (s.nodes p).handle_office request
    refine ⟨forall_setNode (P := fun i n => n.role = .leader → Led s.elected i n.currentTerm)
      h.leader fun hr => ?_, h.threads⟩
    rw [(hn hr).2.1]
    exact h.leader p (hn hr).1
  | election i th lost votes rest p req ans resp s₀ hr => exact (h.returns hr).election
  | heartbeat i th lost rest p req ans resp s₀ hr =>
    have hn := ((s₀.nodes i).heartbeatReply_yields (cfg.peers i) p req resp).office
    unfold heartbeatResume
    split
    all_goals
      next n hp =>
      rw [hp] at hn
      exact (h.returns hr).officeThread hn .of_none
  | proposal i th lost e index acks rest p req ans resp s₀ hr =>
    have hreq := h.request hr
    have hn := (RaftNode.Yields.of_frame
      ((s₀.nodes i).proposeReply_frame (cfg.peers i) acks resp)).office
    unfold proposeResume
    split
    · next n hp =>
      rw [hp] at hn
      exact (h.returns hr).officeThread hn .idle
    · next n hp =>
      rw [hp] at hn
      exact (h.returns hr).officeThread hn .of_none
    · next n acks' hp =>
      rw [hp] at hn
      refine (h.returns hr).officeThread hn (.loop .replicated fun _ req' hr' => ?_)
      exact Request.append.inj hr' ▸ hreq
  | notice i th lost e index rest p req ans resp s₀ hr =>
    have hreq := h.request hr
    have hn := (RaftNode.Yields.of_frame ((s₀.nodes i).noticeReply_frame resp)).office
    unfold noticeResume
    split
    · next n q rest hp =>
      rw [hp] at hn
      exact (h.returns hr).officeThread hn (.send hreq)
    · next n go hp _ =>
      rw [hp] at hn
      have h' : ((s₀.setNode i n).setThread i th .idle).Spoken :=
        (h.returns hr).officeThread hn .idle
      exact ⟨h'.leader, h'.threads⟩

omit [DecidableEq ι] in
lemma init_spoken : (init : Cluster ι).Spoken :=
  ⟨by simp [init, RaftNode.init], fun _ _ => .idle⟩

end Steps

end Cluster

/-- **Only the elected leader speaks for a term.** In every run in which proposals read the term
for their requests on a leader, every `AppendEntries` request, from when it is sent, carries a term
in which its sender became leader. -/
theorem only_leader_speaks (cfg : Config ι) {as : List (Action ι)} {s : Cluster ι}
    (hrun : Cluster.init.run cfg as = some s) (ha : Cluster.init.AllMeet cfg (Cluster.InOffice cfg) as)
    {i : ι} {th : Thread} {c : Call ι} {req : AppendEntriesReq ι}
    (hc : (s.threads i th).call = some c) (hreq : c.request = .append req) :
    req.leaderId = i ∧ ∃ l, (i, req.term, l) ∈ s.elected := by
  have h : s.Spoken := Cluster.run_invariant (fun _ _ _ h ha he => h.effect ha he)
    Cluster.init_spoken ha hrun
  obtain ⟨ht, hl⟩ := h.threads i th c req hc hreq
  exact ⟨hl, ht⟩

/-- The term of a request with entries or of a heartbeat. -/
def Call.append? (c : Call ι) : Option ℕ :=
  match c.request with
  | .append req => some req.term
  | .vote _ => none

omit [DecidableEq ι] in
lemma Call.append?_some {o : Option (Call ι)} {t : ℕ} (h : o.bind Call.append? = some t) :
    ∃ c req, o = some c ∧ c.request = .append req ∧ req.term = t := by
  obtain ⟨c, hc, hreq⟩ := Option.bind_eq_some_iff.mp h
  unfold Call.append? at hreq
  split at hreq
  · next req hr => exact ⟨c, req, hc, hr, Option.some.inj hreq⟩
  · simp at hreq

/-- The first node appends an entry in its term; before it reads the term again, the second node
stands in the next term and is voted for by the first one. -/
def deposedProposal : List (Action (Fin 3)) :=
  firstElection ++ [.proposePut 0 0 (text "a") (text "1"), .timeout 1, .stand 1,
    .handle 1 .election, .place 0 0]

/-- The request goes out with the term of the second node's candidacy. -/
theorem deposed_node_speaks : ∃ s, Cluster.init.run threeNodes deposedProposal = some s ∧
    ∃ c req, (s.threads 0 (.client 0)).call = some c ∧ c.request = .append req ∧
      req.term = 2 ∧ ∀ l, (0, 2, l) ∉ s.elected := by
  have h : (Cluster.init.run threeNodes deposedProposal).map (fun s => (s.elected,
      (s.threads 0 (.client 0)).call.bind Call.append?)) = some ([(0, 1, [])], some 2) := by
    decide +kernel
  obtain ⟨s, hrun, hs⟩ := Option.map_eq_some_iff.mp h
  obtain ⟨h1, h2⟩ := Prod.mk.inj hs
  obtain ⟨c, req, hc, hreq, ht⟩ := Call.append?_some h2
  exact ⟨s, hrun, c, req, hc, hreq, ht, by simp [h1]⟩

/-- The request of a proposal in the first term. -/
theorem only_leader_speaks_first : ∃ s,
    Cluster.init.run threeNodes (firstElection ++ [.proposePut 0 0 (text "a") (text "1"),
      .place 0 0]) = some s ∧ ∃ c req, (s.threads 0 (.client 0)).call = some c ∧
      c.request = .append req ∧ req.leaderId = 0 ∧ ∃ l, (0, req.term, l) ∈ s.elected := by
  have h : (Cluster.init.run threeNodes (firstElection ++
      [.proposePut 0 0 (text "a") (text "1"), .place 0 0])).map (fun s =>
        (s.threads 0 (.client 0)).call.bind Call.append?) = some (some 1) := by
    decide +kernel
  obtain ⟨s, hrun, hs⟩ := Option.map_eq_some_iff.mp h
  obtain ⟨c, req, hc, hreq, -⟩ := Call.append?_some hs
  exact ⟨s, hrun, c, req, hc, hreq, only_leader_speaks threeNodes hrun (by decide +kernel) hc hreq⟩

end VeriStore.Raft

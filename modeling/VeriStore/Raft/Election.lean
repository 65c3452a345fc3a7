import VeriStore.Lib.Ballots
import VeriStore.Raft.Frames

/-!
Election safety: in every run of a cluster a term has at most one leader.

The cluster refines the voting of `Lib.Ballots` (`Voting.effect`): what a thread or a handler does
to the term and the vote of a node is a step of the voting or nothing. The votes an election
thread has counted are votes of different nodes for this node in the term of its request
(`Asking`), also across the releases of the lock, so that a node that becomes leader has a
majority.
-/

namespace VeriStore.Raft

open VeriStore.Lib Relation

variable {ι β : Type} [DecidableEq ι]

/-! ### Counted votes -/

/-- **What an election thread has counted**: votes for `i` of different nodes, none of them still
to be asked; a granted answer is a vote too. -/
def Asking (b : Ballots ι β) (i : ι) (x : ThreadState ι) : Prop :=
  ∀ votes rest p req ans, x = ⟨.electing votes rest, some ⟨p, .vote req, ans⟩⟩ →
    req.candidateId = i ∧ (p :: rest).Nodup ∧
    (∃ Q : Finset ι, Q.card = votes ∧ ∀ v ∈ Q, b.Voted v req.term i ∧ v ∉ p :: rest) ∧
    ∀ resp, ans = some (.vote resp) → resp.voteGranted = true → b.Voted p req.term i

section Asking

variable {b b' : Ballots ι β} {i : ι}

omit [DecidableEq ι] in
lemma Asking.mono {x : ThreadState ι} (h : Asking b i x) (hsub : b.votes ⊆ b'.votes) :
    Asking b' i x := by
  intro votes rest p req ans hx
  obtain ⟨hc, hnd, ⟨Q, hQ, hv⟩, hans⟩ := h votes rest p req ans hx
  have hvoted : ∀ v, b.Voted v req.term i → b'.Voted v req.term i := fun v ⟨y, hy⟩ => ⟨y, hsub hy⟩
  exact ⟨hc, hnd, ⟨Q, hQ, fun v hvQ => ⟨hvoted v (hv v hvQ).1, (hv v hvQ).2⟩⟩,
    fun resp ha hg => hvoted p (hans resp ha hg)⟩

omit [DecidableEq ι] in
/-- A thread that does not wait for a vote has counted nothing. -/
lemma Asking.of_ne {x : ThreadState ι}
    (h : ∀ votes rest p req ans, x ≠ ⟨.electing votes rest, some ⟨p, .vote req, ans⟩⟩) :
    Asking b i x := by
  intro votes rest p req ans hx
  exact absurd hx (h votes rest p req ans)

omit [DecidableEq ι] in
/-- The next call of the loop. -/
lemma Asking.loop {votes : ℕ} {rest : List ι} {req : RequestVoteReq ι} (hc : req.candidateId = i)
    (hnd : rest.Nodup)
    (hQ : ∃ Q : Finset ι, Q.card = votes ∧ ∀ v ∈ Q, b.Voted v req.term i ∧ v ∉ rest) :
    Asking b i (.loop (.electing votes) (.vote req) .idle rest) := by
  cases rest with
  | nil => exact .of_ne (by simp [ThreadState.loop, ThreadState.idle])
  | cons p rest =>
    intro votes' rest' p' req' ans' hx
    simp only [ThreadState.loop, ThreadState.mk.injEq, Pc.electing.injEq, Option.some.injEq,
      Call.mk.injEq, Request.vote.injEq] at hx
    obtain ⟨⟨rfl, rfl⟩, rfl, rfl, rfl⟩ := hx
    exact ⟨hc, hnd, hQ, by simp⟩

/-- The votes counted together with the reply. -/
lemma Asking.count {votes : ℕ} {rest : List ι} {p : ι} {req : RequestVoteReq ι}
    {ans : Option Response} {resp : RequestVoteResp}
    (h : Asking b i ⟨.electing votes rest, some ⟨p, .vote req, ans⟩⟩)
    (hr : ans = some (.vote resp) ∨ Response.vote resp = (Request.vote req).unavailable) :
    req.candidateId = i ∧ rest.Nodup ∧ ∃ Q : Finset ι,
      Q.card = (if resp.voteGranted then votes + 1 else votes) ∧
        ∀ v ∈ Q, b.Voted v req.term i ∧ v ∉ rest := by
  obtain ⟨hc, hnd, ⟨Q, hQ, hv⟩, hans⟩ := h votes rest p req ans rfl
  obtain ⟨hp, hnd⟩ := List.nodup_cons.mp hnd
  refine ⟨hc, hnd, ?_⟩
  have hv' : ∀ v ∈ Q, b.Voted v req.term i ∧ v ∉ rest := fun v hvQ =>
    ⟨(hv v hvQ).1, fun hm => (hv v hvQ).2 (List.mem_cons_of_mem p hm)⟩
  by_cases hg : resp.voteGranted = true
  · have hpv : b.Voted p req.term i := by
      rcases hr with hr | hr
      · exact hans resp hr hg
      · simp only [Request.unavailable, Response.vote.injEq] at hr
        simp [hr] at hg
    have hpQ : p ∉ Q := fun hm => (hv p hm).2 (by simp)
    refine ⟨insert p Q, by rw [if_pos hg, Finset.card_insert_of_notMem hpQ, hQ], ?_⟩
    intro v hvQ
    rcases Finset.mem_insert.mp hvQ with rfl | hvQ
    · exact ⟨hpv, hp⟩
    · exact hv' v hvQ
  · exact ⟨Q, by rw [if_neg hg, hQ], hv'⟩

end Asking

/-! ### The refinement -/

/-- A cluster and the voting it refines. -/
structure Voting (s : Cluster ι) (b : Ballots ι Unit) : Prop where
  term : ∀ i, b.term i = (s.nodes i).currentTerm
  votedFor : ∀ i, b.votedFor i = (s.nodes i).votedFor
  leaders : ∀ i t, (i, t) ∈ b.leaders ↔ ∃ l, (i, t, l) ∈ s.elected
  asking : ∀ i th, Asking b i (s.threads i th)

section Refinement

variable [Fintype ι] {cfg : Config ι} {s s' : Cluster ι} {b : Ballots ι Unit}

/-- The steps of a voting keep all votes. -/
lemma votes_mono {b b' : Ballots ι β} (h : ReflTransGen Ballots.Step b b') : b.votes ⊆ b'.votes := by
  induction h with
  | refl => exact subset_rfl
  | tail _ hs ih =>
    refine ih.trans ?_
    cases hs with
    | adopt => exact subset_rfl
    | stand => exact Set.subset_insert _ _
    | grant => exact Set.subset_insert _ _
    | win => exact subset_rfl

/-- The cluster reached and the voting reached together. -/
def Refines (s' : Cluster ι) (b : Ballots ι Unit) : Prop :=
  ∃ b', ReflTransGen Ballots.Step b b' ∧ Voting s' b'

omit [Fintype ι] in
lemma Voting.setThread (h : Voting s b) {i : ι} {th : Thread} {x : ThreadState ι}
    (hx : Asking b i x) : Voting (s.setThread i th x) b := by
  refine ⟨h.term, h.votedFor, h.leaders, fun j th' => ?_⟩
  by_cases hj : j = i
  · subst hj
    by_cases hth : th' = th
    · subst hth
      simpa [Cluster.setThread] using hx
    · simpa [Cluster.setThread, hth] using h.asking j th'
  · simpa [Cluster.setThread, hj] using h.asking j th'

/-- **A node that keeps its term and vote, or steps down**, refines nothing or an adoption. -/
lemma Voting.follow (h : Voting s b) {i : ι} {n : RaftNode ι} (hn : (s.nodes i).Follows n) :
    Refines (s.setNode i n) b := by
  rcases hn with ⟨ht, hv⟩ | ⟨ht, hv⟩
  · refine ⟨b, .refl, fun j => ?_, fun j => ?_, h.leaders, h.asking⟩
    · by_cases hj : j = i
      · subst hj
        simp [Cluster.setNode, ht, h.term]
      · simp [Cluster.setNode, hj, h.term]
    · by_cases hj : j = i
      · subst hj
        simp [Cluster.setNode, hv, h.votedFor]
      · simp [Cluster.setNode, hj, h.votedFor]
  · have hstep : Ballots.Step b (b.adopt i n.currentTerm) :=
      .adopt b i n.currentTerm (by rwa [h.term i])
    refine ⟨_, .single hstep, fun j => ?_, fun j => ?_, h.leaders, h.asking⟩
    · by_cases hj : j = i
      · subst hj
        simp [Cluster.setNode, Ballots.adopt]
      · simp [Cluster.setNode, Ballots.adopt, hj, h.term]
    · by_cases hj : j = i
      · subst hj
        simp [Cluster.setNode, Ballots.adopt, hv]
      · simp [Cluster.setNode, Ballots.adopt, hj, h.votedFor]

/-- A node changes as above and one of its threads goes on. -/
lemma Voting.followThread (h : Voting s b) {i : ι} {n : RaftNode ι} (hn : (s.nodes i).Follows n)
    {j : ι} {th : Thread} {x : ThreadState ι} (hx : Asking b j x) :
    Refines ((s.setNode i n).setThread j th x) b := by
  obtain ⟨b', hs, hb'⟩ := h.follow hn
  exact ⟨b', hs, hb'.setThread (hx.mono (votes_mono hs))⟩

/-- **The handler of a request**: an adoption and perhaps a vote; a granted answer is recorded. -/
lemma Voting.handle (h : Voting s b) (p : ι) (request : Request ι) :
    ∃ b', ReflTransGen Ballots.Step b b' ∧
      Voting (s.setNode p ((s.nodes p).handle request).1) b' ∧
      ∀ req resp, request = .vote req → ((s.nodes p).handle request).2 = .vote resp →
        resp.voteGranted = true → b'.Voted p req.term req.candidateId := by
  cases request with
  | append req =>
    obtain ⟨b', hs, hb'⟩ := h.follow ((s.nodes p).onAppendEntries_follows req)
    exact ⟨b', hs, hb', by simp⟩
  | vote req =>
    rcases (s.nodes p).onRequestVote_cases req with ⟨hf, hg⟩ | ⟨n₁, hf, ht, hv, -, he⟩
    · obtain ⟨b', hs, hb'⟩ := h.follow hf.follows
      refine ⟨b', hs, hb', fun req' resp _ hresp hgr => ?_⟩
      simp only [RaftNode.handle, Response.vote.injEq] at hresp
      rw [← hresp, hg] at hgr
      exact absurd hgr (by simp)
    · obtain ⟨b', hs, hb'⟩ := h.follow hf.follows
      have hterm : b'.term p = req.term := by simpa [Cluster.setNode, ht] using hb'.term p
      have hvote : b'.votedFor p = n₁.votedFor := by simpa [Cluster.setNode] using hb'.votedFor p
      have hgrant : Ballots.Step b' (b'.grant p req.candidateId ()) :=
        .grant b' p req.candidateId () (by rwa [hvote])
      refine ⟨_, hs.tail hgrant, ⟨fun j => ?_, fun j => ?_, hb'.leaders, fun j th => ?_⟩, ?_⟩
      · rw [RaftNode.handle, he]
        by_cases hj : j = p
        · subst hj
          simpa [Cluster.setNode, Ballots.grant] using hb'.term j
        · simpa [Cluster.setNode, Ballots.grant, hj] using hb'.term j
      · rw [RaftNode.handle, he]
        by_cases hj : j = p
        · subst hj
          simp [Cluster.setNode, Ballots.grant]
        · simpa [Cluster.setNode, Ballots.grant, hj] using hb'.votedFor j
      · exact (hb'.asking j th).mono (Set.subset_insert _ _)
      · intro req' resp hreq _ _
        obtain rfl := Request.vote.inj hreq
        exact ⟨(), by rw [← hterm]; exact Set.mem_insert _ _⟩

/-- A candidacy: the node votes for itself and asks its peers. -/
lemma Voting.stand (h : Voting s b) (i : ι) :
    Refines ((s.setNode i ((s.nodes i).becomeCandidate i)).setThread i .election
      (.loop (.electing 1) (.vote (((s.nodes i).becomeCandidate i).voteRequest i)) .idle
        (cfg.peers i))) b := by
  have hstep : Ballots.Step b (b.stand i ()) := .stand b i ()
  have hsub : b.votes ⊆ (b.stand i ()).votes := Set.subset_insert _ _
  have hnode : Voting (s.setNode i ((s.nodes i).becomeCandidate i)) (b.stand i ()) := by
    refine ⟨fun j => ?_, fun j => ?_, h.leaders, fun j th => (h.asking j th).mono hsub⟩
    · by_cases hj : j = i
      · subst hj
        simp [Cluster.setNode, Ballots.stand, RaftNode.becomeCandidate, h.term]
      · simp [Cluster.setNode, Ballots.stand, hj, h.term]
    · by_cases hj : j = i
      · subst hj
        simp [Cluster.setNode, Ballots.stand, RaftNode.becomeCandidate]
      · simp [Cluster.setNode, Ballots.stand, hj, h.votedFor]
  refine ⟨_, .single hstep, hnode.setThread ?_⟩
  · refine .loop rfl (cfg.nodup i) ⟨{i}, by simp, fun v hv => ?_⟩
    obtain rfl := Finset.mem_singleton.mp hv
    refine ⟨⟨(), ?_⟩, by simp [cfg.mem_peers]⟩
    simp [Ballots.stand, RaftNode.voteRequest, RaftNode.becomeCandidate, h.term]

/-- **A reply to a vote request**: the node steps down, goes on asking or has won. -/
lemma Voting.election (h : Voting s b) {i : ι} {th : Thread} {votes : ℕ} {rest : List ι}
    {req : RequestVoteReq ι} {resp : RequestVoteResp} (hc : req.candidateId = i)
    (hnd : rest.Nodup) (hQ : ∃ Q : Finset ι,
      Q.card = (if resp.voteGranted then votes + 1 else votes) ∧
        ∀ v ∈ Q, b.Voted v req.term i ∧ v ∉ rest) :
    Refines (s.electionResume cfg i th votes rest req resp) b := by
  unfold Cluster.electionResume
  rcases (s.nodes i).electionReply_cases i (cfg.peers i) req.term votes resp with
    ⟨n', he, hf⟩ | ⟨-, ht, hneed, he⟩ | he
  · rw [he]
    exact h.followThread (RaftNode.Yields.of_frame hf).follows (.of_ne (by simp [ThreadState.idle]))
  · rw [he]
    obtain ⟨Q, hcard, hv⟩ := hQ
    have hterm : b.term i = req.term := (h.term i).trans ht
    have hmaj : Fintype.card ι < 2 * Q.card := by
      have := RaftNode.card_lt_needed cfg i
      omega
    have hwin : Ballots.Step b (b.win i) :=
      .win b i Q hmaj fun v hvQ => by rw [hterm]; exact (hv v hvQ).1
    have hlead : Voting (s.setNode i ((s.nodes i).becomeLeader i (cfg.peers i))) b := by
      refine ⟨fun j => ?_, fun j => ?_, h.leaders, h.asking⟩
      · by_cases hj : j = i
        · subst hj
          simp [Cluster.setNode, RaftNode.becomeLeader, h.term]
        · simp [Cluster.setNode, hj, h.term]
      · by_cases hj : j = i
        · subst hj
          simp [Cluster.setNode, RaftNode.becomeLeader, h.votedFor]
        · simp [Cluster.setNode, hj, h.votedFor]
    have hthread : Voting ((s.setNode i ((s.nodes i).becomeLeader i (cfg.peers i))).setThread i th
        .idle) b := hlead.setThread (.of_ne (by simp [ThreadState.idle]))
    refine ⟨_, .single hwin, hthread.term, hthread.votedFor, fun j t => ?_, fun j th' => ?_⟩
    · simp only [Ballots.win, Set.mem_insert_iff, Prod.mk.injEq, h.leaders, h.term,
        RaftNode.becomeLeader, List.mem_cons]
      constructor
      · rintro (⟨rfl, rfl⟩ | ⟨l, hl⟩)
        · exact ⟨_, Or.inl ⟨rfl, rfl, rfl⟩⟩
        · exact ⟨l, Or.inr hl⟩
      · rintro ⟨l, ⟨rfl, rfl, -⟩ | hl⟩
        · exact Or.inl ⟨rfl, rfl⟩
        · exact Or.inr ⟨l, hl⟩
    · exact (hthread.asking j th').mono subset_rfl
  · rw [he]
    exact h.followThread (.refl _) (.loop hc hnd hQ)

omit [DecidableEq ι] [Fintype ι] in
/-- A returning call changes nothing the voting looks at. -/
lemma Voting.returns (h : Voting s b) {i : ι} {th : Thread} {lost : Bool} {pc : Pc ι}
    {c : Call ι} {resp : Response} {s₀ : Cluster ι} (hr : s.Returns i th lost pc c resp s₀) : Voting s₀ b := by
  rcases hr.late with rfl | rfl
  · exact h
  · exact ⟨h.term, h.votedFor, h.leaders, h.asking⟩

/-- **Every step of the cluster refines steps of the voting.** -/
theorem Voting.effect (h : Voting s b) {a : Action ι} (he : Cluster.Effect cfg s a s') :
    Refines s' b := by
  have hquiet : ∀ {i : ι} {th : Thread} {x : ThreadState ι}, Asking b i x →
      Refines (s.setThread i th x) b := fun hx => ⟨b, .refl, h.setThread hx⟩
  cases he with
  | timeout i => exact hquiet (.of_ne (by simp))
  | stand i => exact h.stand i
  | beat i => exact hquiet (.of_ne (by simp))
  | buildEnd i => exact hquiet (.of_ne (by simp [ThreadState.idle]))
  | build i p rest => exact hquiet (.of_ne (by simp))
  | refused => exact ⟨b, .refl, h⟩
  | propose _ i k e =>
    have hf : (s.nodes i).Follows ((s.nodes i).pushEntry e) := Or.inl ⟨rfl, rfl⟩
    exact h.followThread hf (.of_ne (by simp))
  | place i k e index =>
    refine hquiet (.of_ne ?_)
    cases cfg.peers i with
    | nil =>
      simp only [ThreadState.loop, Cluster.replicated]
      split <;> simp [ThreadState.idle]
    | cons p rest => simp [ThreadState.loop]
  | notifyNone i k e index =>
    have h' : Voting (s.setThread i (.client k) .idle) b :=
      h.setThread (.of_ne (by simp [ThreadState.idle]))
    exact ⟨b, .refl, h'.term, h'.votedFor, h'.leaders, h'.asking⟩
  | notify i k e index p rest => exact hquiet (.of_ne (by simp))
  | take i e =>
    have hf : (s.nodes i).Follows (s.nodes i).noteApplied := Or.inl ⟨rfl, rfl⟩
    exact h.followThread hf (.of_ne (by simp))
  | apply i index e =>
    have h' : Voting (s.setThread i .apply .idle) b :=
      h.setThread (.of_ne (by simp [ThreadState.idle]))
    exact ⟨b, .refl, h'.term, h'.votedFor, h'.leaders, h'.asking⟩
  | handle i th pc p request hth =>
    obtain ⟨b', hs, hb', hgr⟩ := h.handle p request
    refine ⟨b', hs, hb'.setThread ?_⟩
    intro votes rest p' req ans hx
    simp only [ThreadState.mk.injEq, Option.some.injEq, Call.mk.injEq] at hx
    obtain ⟨rfl, rfl, rfl, rfl⟩ := hx
    obtain ⟨hc, hnd, hQ, -⟩ := (h.asking i th).mono (votes_mono hs) _ _ _ _ _ hth
    refine ⟨hc, hnd, hQ, fun resp hans hg => ?_⟩
    rw [← hc]
    exact hgr req resp rfl (Option.some.inj hans) hg
  | handleLate n p request =>
    obtain ⟨b', hs, h1, -⟩ := h.handle p request
    exact ⟨b', hs, h1.term, h1.votedFor, h1.leaders, h1.asking⟩
  | election i th lost votes rest p req ans resp s₀ hr =>
    have hask : Asking b i ⟨.electing votes rest, some ⟨p, .vote req, ans⟩⟩ :=
      hr.thread ▸ h.asking i th
    obtain ⟨hc, hnd, hQ⟩ := hask.count hr.response
    exact (h.returns hr).election hc hnd hQ
  | heartbeat i th lost rest p req ans resp s₀ hr =>
    have hf := ((s₀.nodes i).heartbeatReply_yields (cfg.peers i) p req resp).follows
    unfold Cluster.heartbeatResume
    split
    · next n hn =>
      rw [hn] at hf
      exact (h.returns hr).followThread hf (.of_ne (by simp))
    · next n hn =>
      rw [hn] at hf
      exact (h.returns hr).followThread hf (.of_ne (by simp [ThreadState.idle]))
  | proposal i th lost e index acks rest p req ans resp s₀ hr =>
    have hf := (RaftNode.Yields.of_frame
      ((s₀.nodes i).proposeReply_frame (cfg.peers i) acks resp)).follows
    unfold Cluster.proposeResume
    split
    · next n hn =>
      rw [hn] at hf
      exact (h.returns hr).followThread hf (.of_ne (by simp [ThreadState.idle]))
    · next n hn =>
      rw [hn] at hf
      exact (h.returns hr).followThread hf (.of_ne (by simp))
    · next n acks hn =>
      rw [hn] at hf
      refine (h.returns hr).followThread hf (.of_ne ?_)
      cases rest with
      | nil =>
        simp only [ThreadState.loop, Cluster.replicated]
        split <;> simp [ThreadState.idle]
      | cons p rest => simp [ThreadState.loop]
  | notice i th lost e index rest p req ans resp s₀ hr =>
    have hf := (RaftNode.Yields.of_frame ((s₀.nodes i).noticeReply_frame resp)).follows
    unfold Cluster.noticeResume
    split
    · next n p rest hn =>
      rw [hn] at hf
      exact (h.returns hr).followThread hf (.of_ne (by simp))
    · next n go hn _ =>
      rw [hn] at hf
      obtain ⟨b', hs, h1⟩ : Refines ((s₀.setNode i n).setThread i th .idle) b :=
        (h.returns hr).followThread hf (.of_ne (by simp [ThreadState.idle]))
      exact ⟨b', hs, h1.term, h1.votedFor, h1.leaders, h1.asking⟩

/-- **A run refines a voting.** -/
theorem run_voting {as : List (Action ι)} (h : Voting s b) (hrun : s.run cfg as = some s') :
    Refines s' b := by
  induction as generalizing s b with
  | nil =>
    obtain rfl := Option.some.inj hrun
    exact ⟨b, .refl, h⟩
  | cons a as ih =>
    obtain ⟨s₁, hstep, hrest⟩ := Option.bind_eq_some_iff.mp
      (show (s.step cfg a).bind (fun s₁ => s₁.run cfg as) = some s' from hrun)
    obtain ⟨b₁, hs₁, hb₁⟩ := h.effect (Cluster.step_effect hstep)
    obtain ⟨b₂, hs₂, hb₂⟩ := ih hb₁ hrest
    exact ⟨b₂, hs₁.trans hs₂, hb₂⟩

omit [DecidableEq ι] [Fintype ι] in
lemma init_voting : Voting (Cluster.init : Cluster ι) Ballots.init :=
  ⟨fun _ => rfl, fun _ => rfl, by simp [Ballots.init, Cluster.init],
    fun _ _ => .of_ne (by simp [Cluster.init, ThreadState.idle])⟩

end Refinement

/-- **Election safety.** In every run of a cluster of any size, with every interleaving of the
threads and any delay or loss of calls, at most one node becomes leader in a term. -/
theorem election_safety [Fintype ι] (cfg : Config ι) {as : List (Action ι)} {s : Cluster ι}
    (hrun : Cluster.init.run cfg as = some s) {i j : ι} {t : ℕ} {l l' : List LogEntry}
    (hi : (i, t, l) ∈ s.elected) (hj : (j, t, l') ∈ s.elected) : i = j := by
  obtain ⟨b, hs, hb⟩ := run_voting init_voting hrun
  exact (Ballots.init_fair.steps hs).leader_unique ((hb.leaders i t).mpr ⟨l, hi⟩)
    ((hb.leaders j t).mpr ⟨l', hj⟩)

instance neZero_three : NeZero 3 := ⟨three_ne_zero⟩

/-- Three nodes, each with the two others as its peers in ascending order. -/
def threeNodes : Config (Fin 3) where
  peers := fun i => (List.finRange 3).filter (· ≠ i)
  nodup := by decide
  mem_peers := by decide

/-- The first node stands and gets the vote of the second one. -/
def firstElection : List (Action (Fin 3)) :=
  [.timeout 0, .stand 0, .handle 0 .election, .resume 0 .election false]

theorem election_safety_first : ∃ s, Cluster.init.run threeNodes firstElection = some s ∧
    (0, 1, []) ∈ s.elected ∧ ∀ j l, (j, 1, l) ∈ s.elected → 0 = j := by
  have h : (Cluster.init.run threeNodes firstElection).map Cluster.elected = some [(0, 1, [])] := by
    decide +kernel
  obtain ⟨s, hrun, hs⟩ := Option.map_eq_some_iff.mp h
  have h0 : ((0 : Fin 3), 1, []) ∈ s.elected := by simp [hs]
  exact ⟨s, hrun, h0, fun j l hj => election_safety threeNodes hrun h0 hj⟩

end VeriStore.Raft

import VeriStore.Raft.Commit

/-!
What the match indices of a leader say when they are used.

A match index is what a peer has acknowledged in the term of the leader. The peer may have moved
on since: a leader of a later term that does not know the entries makes it give them up, and the
old leader goes on counting until it hears of the later term. Apart from that the peer still holds
them (`match_index_sound`), and this exception cannot be had away (`match_index_overtaken`).
-/

namespace VeriStore.Raft

open VeriStore.Lib Relation

variable {ι : Type} [DecidableEq ι]

/-- The successful answer to the request of a heartbeat thread. -/
def ThreadState.success? : ThreadState ι → Option AppendEntriesResp
  | ⟨.beating _, some ⟨_, .append _, some (.append resp)⟩⟩ => if resp.success then some resp else none
  | _ => none

omit [DecidableEq ι] in
lemma ThreadState.success?_eq_some {x : ThreadState ι} {resp : AppendEntriesResp}
    (h : x.success? = some resp) : resp.success = true ∧ ∃ rest p req,
      x = ⟨.beating rest, some ⟨p, .append req, some (.append resp)⟩⟩ := by
  unfold ThreadState.success? at h
  split at h
  · next rest p req resp' =>
    split at h
    · next hs =>
      obtain rfl := Option.some.inj h
      exact ⟨hs, rest, p, req, rfl⟩
    · simp at h
  · simp at h

/-- The heartbeat thread of `i` goes on to `AdvanceCommitIndexLocked`: its request was answered with
success, and the answer is not of a later term. -/
def Cluster.Advances (s : Cluster ι) (i : ι) : Prop :=
  ∃ resp ∈ (s.threads i .heartbeat).success?, resp.term ≤ (s.nodes i).currentTerm

instance (s : Cluster ι) (i : ι) : Decidable (s.Advances i) :=
  inferInstanceAs (Decidable (∃ resp ∈ (s.threads i .heartbeat).success?, _))

section Use

variable {cfg : Config ι} {s s' : Cluster ι} {i : ι}

/-- The node behind the call: only the tables and the commit index may have changed. -/
lemma Cluster.Advances.frame (h : s.Advances i)
    (hstep : s.step cfg (.resume i .heartbeat false) = some s') :
    ∃ next mtch c, s'.nodes i =
        { s.nodes i with nextIndex := next, matchIndex := mtch, commitIndex := c } ∧
      s'.elected = s.elected ∧ ∀ p, p ≠ i → s'.nodes p = s.nodes p := by
  obtain ⟨resp, hs, hle⟩ := h
  obtain ⟨-, rest, p, req, hth⟩ := ThreadState.success?_eq_some hs
  simp only [step, resume, hth, continueWith, Option.some.injEq] at hstep
  subst hstep
  unfold heartbeatResume
  rcases (s.nodes i).heartbeatReply_frame (cfg.peers i) p req resp with ⟨hlt, -⟩ | ⟨next, m, c, he⟩
  · omega
  · split
    all_goals
      next n hn =>
      rw [hn] at he
      refine ⟨next, m, c, ?_, rfl, fun q hq => ?_⟩
      · simpa [setThread, setNode] using he
      · simp [setThread, setNode, hq]

variable [Fintype ι] {r : Logs ι}

omit [DecidableEq ι] in
/-- **A peer holds what it has acknowledged** as long as the leaders of later terms, up to its own
term, started with it. -/
lemma Tracks.holds_acked (h : Tracks s r) (hi : r.Inv LogEntry.term) {t m : ℕ} {p : ι}
    (ha : Acked r t m p)
    (hl : ∀ j u l, (j, u, l) ∈ s.elected → t < u → u ≤ (s.nodes p).currentTerm →
      (r.leaderLog t).take m <+: l) : (r.leaderLog t).take m <+: (s.nodes p).log := by
  obtain ⟨k, hk, hack⟩ := ha
  have hle := (hi.ack_le p t k hack).1
  rw [← h.log p]
  refine hi.ack_log p t k m hack hle hk fun u hu htu hup => ?_
  obtain ⟨j, hj⟩ := hu
  obtain ⟨l, hl'⟩ := (h.leaders j u).mp hj
  rw [h.term p] at hup
  have := hl j u l hl' htu hup
  rwa [h.first j u l hl'] at this

end Use

/-- **Replication bookkeeping.** In every disciplined run, when a heartbeat thread goes on to advance
the commit index, its node was elected in its current term (that it is a leader is what the
discipline asks of the step itself), and every peer has the entries of the node up to its match
index, unless a leader was elected without them in a later term that the peer has reached. -/
theorem match_index_sound [Fintype ι] (cfg : Config ι) {as : List (Action ι)} {s s' : Cluster ι}
    (hrun : Cluster.init.run cfg as = some s)
    (ha : Cluster.init.AllMeet cfg Cluster.Disciplined as) {i : ι} (hadv : s.Advances i)
    (hd : s.Disciplined (.resume i .heartbeat false))
    (hstep : s.step cfg (.resume i .heartbeat false) = some s') :
    (s'.nodes i).role = .leader ∧ (∃ l, (i, (s'.nodes i).currentTerm, l) ∈ s'.elected) ∧
      ∀ p ∈ cfg.peers i, ∃ m, (s'.nodes i).matchIndex p = some m ∧ m ≤ (s'.nodes i).log.length ∧
        ((∀ j t l, (j, t, l) ∈ s'.elected → (s'.nodes i).currentTerm < t →
            t ≤ (s'.nodes p).currentTerm → (s'.nodes i).log.take m <+: l) →
          (s'.nodes i).log.take m <+: (s'.nodes p).log) := by
  obtain ⟨r₀, hm₀, ht₀, hc₀⟩ :=
    run_disciplined init_tracks Replicas.init_inv init_commits ha hrun
  have hi₀ := (Replicas.init_inv.steps hm₀).1
  obtain ⟨r, hm, ht, hc⟩ := ht₀.disciplined hi₀ hc₀ hd (Cluster.step_effect hstep)
  have hi := (hi₀.steps hm).1
  have hrole : (s'.nodes i).role = .leader := by
    obtain ⟨next, m, c, hn, -⟩ := hadv.frame hstep
    obtain ⟨resp, hresp, -⟩ := hadv
    obtain ⟨hs, rest, p, req, hth⟩ := ThreadState.success?_eq_some hresp
    rw [hn]
    exact (hd.2 req (by simp [hth, ThreadState.counts?, hs])).1
  have hlead := ht.leader i hrole
  have hlog : r.leaderLog (s'.nodes i).currentTerm = (s'.nodes i).log := by
    rw [← ht.log i]
    exact (hi.led_log i _ hlead (ht.term i)).symm
  refine ⟨hrole, (ht.leaders i _).mp hlead, fun p hp => ?_⟩
  obtain ⟨m, hm, hack⟩ := (hc.nodes i).acked hrole p hp
  refine ⟨m, hm, ?_⟩
  rcases hack with rfl | hack
  · exact ⟨Nat.zero_le _, fun _ => by simp⟩
  · obtain ⟨k, hk, hk'⟩ := hack
    have hlen := (hi.ack_le p _ k hk').2.2
    rw [hlog] at hlen
    refine ⟨hk.trans hlen, fun hl => ?_⟩
    rw [← hlog] at hl ⊢
    exact ht.holds_acked hi ⟨k, hk, hk'⟩ hl

/-- Five nodes, each with the other ones as its peers in ascending order. -/
def fiveNodes : Config (Fin 5) where
  peers := fun i => (List.finRange 5).filter (· ≠ i)
  nodup := by decide
  mem_peers := by decide

/-- The first node leads the first term and replicates an entry to the second node only. The third
node becomes leader of the second term with the votes of the last two and replicates an entry of
its own to the second node, whose answer to the second heartbeat is still on its way to the first
node. -/
def overtakenLeader : List (Action (Fin 5)) :=
  [.timeout 0, .stand 0, .handle 0 .election, .resume 0 .election false, .handle 0 .election,
    .resume 0 .election false, .proposePut 0 0 (text "a") (text "1"), .beat 0, .build 0,
    .handle 0 .heartbeat, .resume 0 .heartbeat false, .build 0, .resume 0 .heartbeat true, .build 0,
    .resume 0 .heartbeat true, .build 0, .resume 0 .heartbeat true, .build 0, .beat 0, .build 0,
    .handle 0 .heartbeat, .timeout 2, .stand 2, .resume 2 .election true, .resume 2 .election true,
    .handle 2 .election, .resume 2 .election false, .handle 2 .election, .resume 2 .election false,
    .proposePut 2 0 (text "b") (text "2"), .place 2 0, .resume 2 (.client 0) true,
    .handle 2 (.client 0)]

/-- **A match index that no longer holds**, in a disciplined run: the first node counts the answer
as the leader of the first term, and the second node has replaced the entry. -/
theorem match_index_overtaken : ∃ s s', Cluster.init.run fiveNodes overtakenLeader = some s ∧
    Cluster.init.AllMeet fiveNodes Cluster.Disciplined
      (overtakenLeader ++ [.resume 0 .heartbeat false]) ∧ s.Advances 0 ∧
    s.step fiveNodes (.resume 0 .heartbeat false) = some s' ∧ 1 ∈ fiveNodes.peers 0 ∧
    (s'.nodes 0).matchIndex 1 = some 1 ∧ ¬ (s'.nodes 0).log.take 1 <+: (s'.nodes 1).log := by
  have h : (Cluster.init.run fiveNodes overtakenLeader).any (fun s => s.Advances 0 ∧
      (s.step fiveNodes (.resume 0 .heartbeat false)).any fun s' =>
        (s'.nodes 0).matchIndex 1 = some 1 ∧
          ¬ (s'.nodes 0).log.take 1 <+: (s'.nodes 1).log) = true := by
    decide +kernel
  have hall : Cluster.init.AllMeet fiveNodes Cluster.Disciplined
      (overtakenLeader ++ [.resume 0 .heartbeat false]) := by
    decide +kernel
  obtain ⟨s, hrun, hs⟩ := (Option.any_eq_true _ _).mp h
  obtain ⟨hadv, hs⟩ := of_decide_eq_true hs
  obtain ⟨s', hstep, hs'⟩ := (Option.any_eq_true _ _).mp hs
  obtain ⟨hm, hlog⟩ := of_decide_eq_true hs'
  exact ⟨s, s', hrun, hall, hadv, hstep, by decide, hm, hlog⟩

/-- The first heartbeat of a leader with one entry. -/
def firstHeartbeat : List (Action (Fin 3)) :=
  firstElection ++ [.proposePut 0 0 (text "a") (text "1"), .place 0 0, .beat 0, .build 0,
    .handle 0 .heartbeat]

/-- The second node has the entry when the first one counts its answer. -/
theorem match_index_sound_first : ∃ s s', Cluster.init.run threeNodes firstHeartbeat = some s ∧
    s.step threeNodes (.resume 0 .heartbeat false) = some s' ∧ (s'.nodes 0).role = .leader ∧
    (s'.nodes 0).matchIndex 1 = some 1 ∧ (s'.nodes 0).log.take 1 <+: (s'.nodes 1).log := by
  have h : (Cluster.init.run threeNodes firstHeartbeat).any (fun s => s.Advances 0 ∧
      s.Disciplined (.resume 0 .heartbeat false) ∧
      (s.step threeNodes (.resume 0 .heartbeat false)).any fun s' =>
        (s'.nodes 0).matchIndex 1 = some 1 ∧ s'.elected = [(0, 1, [])] ∧
          (s'.nodes 0).currentTerm = 1) = true := by
    decide +kernel
  obtain ⟨s, hrun, hs⟩ := (Option.any_eq_true _ _).mp h
  obtain ⟨hadv, hd, hs⟩ := of_decide_eq_true hs
  obtain ⟨s', hstep, hs'⟩ := (Option.any_eq_true _ _).mp hs
  obtain ⟨hm, hel, ht⟩ := of_decide_eq_true hs'
  obtain ⟨hrole, -, hmatch⟩ :=
    match_index_sound threeNodes hrun (by decide +kernel) hadv hd hstep
  obtain ⟨m, hm', -, hp⟩ := hmatch 1 (by decide)
  obtain rfl := Option.some.inj (hm.symm.trans hm')
  refine ⟨s, s', hrun, hstep, hrole, hm, hp fun j t l hl htlt => ?_⟩
  -- there is no later leader
  rw [hel] at hl
  simp only [List.mem_singleton, Prod.mk.injEq] at hl
  omega

end VeriStore.Raft

import VeriStore.Raft.Commit

/-!
The indices of a node.

The entries are applied up to `lastApplied`, committed up to `commitIndex`, and stored up to the end
of the log. A step of a disciplined run moves none of them back behind one in front of it
(`RaftNode.Retains`): what is committed is settled, and an accepted request keeps what is settled.

* `index_bounds` — the bounds in every state of a disciplined run, and what stays from one state of
  it to a later one;
* `committed_entry_cut` — without the conditions a late request cuts a committed entry off.
-/

namespace VeriStore.Raft

open VeriStore.Lib Relation

variable {ι : Type} [DecidableEq ι]

/-! ### What a node retains -/

/-- The commit index does not go back, the entries up to it stay, and no more is applied than is
committed. -/
structure RaftNode.Retains (n n' : RaftNode ι) : Prop where
  commit_le : n.commitIndex ≤ n'.commitIndex
  committed : n.log.take n.commitIndex <+: n'.log
  applied_le : n.lastApplied ≤ n.commitIndex → n'.lastApplied ≤ n'.commitIndex

namespace RaftNode

variable {n n' n'' : RaftNode ι}

omit [DecidableEq ι] in
lemma Retains.refl (n : RaftNode ι) : n.Retains n := ⟨le_rfl, List.take_prefix _ _, id⟩

omit [DecidableEq ι] in
lemma Retains.trans (h : n.Retains n') (h' : n'.Retains n'') : n.Retains n'' where
  commit_le := h.commit_le.trans h'.commit_le
  committed := by
    have hle : (n.log.take n.commitIndex).length ≤ n'.commitIndex :=
      (List.length_take_le _ _).trans h.commit_le
    have hpart : n.log.take n.commitIndex <+: n'.log.take n'.commitIndex := by
      rw [List.prefix_iff_eq_take.mp h.committed]
      exact List.take_prefix_take_left hle
    exact hpart.trans h'.committed
  applied_le ha := h'.applied_le (h.applied_le ha)

omit [DecidableEq ι] in
/-- The log stays and nothing is applied. -/
lemma Retains.of_log (hlog : n'.log = n.log) (hc : n.commitIndex ≤ n'.commitIndex)
    (ha : n'.lastApplied = n.lastApplied) : n.Retains n' where
  commit_le := hc
  committed := hlog ▸ List.take_prefix _ _
  applied_le h := ha ▸ h.trans hc

omit [DecidableEq ι] in
/-- A node that is left alone or steps down. -/
lemma Retains.of_frame {t : ℕ} (h : n' = n ∨ (n.currentTerm < t ∧ n' = n.becomeFollower t none)) :
    n.Retains n' := by
  rcases h with rfl | ⟨-, rfl⟩
  · exact .refl _
  · exact .of_log rfl le_rfl rfl

omit [DecidableEq ι] in
lemma pushEntry_retains (n : RaftNode ι) (e : LogEntry) : n.Retains (n.pushEntry e) :=
  ⟨le_rfl, (List.take_prefix _ _).trans (List.prefix_append _ _), id⟩

omit [DecidableEq ι] in
lemma noteApplied_retains (h : n.lastApplied < n.commitIndex) : n.Retains n.noteApplied :=
  ⟨le_rfl, List.take_prefix _ _, fun _ => h⟩

omit [DecidableEq ι] in
lemma advanceCommitIndex_retains (n : RaftNode ι) (peers : List ι) :
    n.Retains (n.advanceCommitIndex peers) := by
  unfold advanceCommitIndex
  split
  · next h => exact .of_log rfl h.1.le rfl
  · exact .refl n

/-- A reply to a heartbeat. -/
lemma heartbeatReply_retains (n : RaftNode ι) (peers : List ι) (p : ι) (req : AppendEntriesReq ι)
    (resp : AppendEntriesResp) : n.Retains (n.heartbeatReply peers p req resp).1 := by
  unfold heartbeatReply
  split
  · exact .of_log rfl le_rfl rfl
  · split
    · refine Retains.trans ?_ (advanceCommitIndex_retains _ peers)
      split
      · exact .refl n
      · exact .of_log rfl le_rfl rfl
    · exact .of_log rfl le_rfl rfl

/-! ### Requests -/

omit [DecidableEq ι] in
lemma followLeader_lastApplied (n : RaftNode ι) (t : ℕ) (l : ι) :
    (n.followLeader t l).lastApplied = n.lastApplied := by
  unfold followLeader
  split <;> rfl

lemma onRequestVote_lastApplied (n : RaftNode ι) (req : RequestVoteReq ι) :
    (n.onRequestVote req).1.lastApplied = n.lastApplied := by
  unfold onRequestVote
  split
  · rfl
  · by_cases h : n.currentTerm < req.term
    · simp only [if_pos h]
      split <;> rfl
    · simp only [if_neg h]
      split <;> rfl

omit [DecidableEq ι] in
lemma onAppendEntries_lastApplied (n : RaftNode ι) (req : AppendEntriesReq ι) :
    (n.onAppendEntries req).1.lastApplied = n.lastApplied := by
  have hf := n.followLeader_lastApplied req.term req.leaderId
  unfold onAppendEntries
  split
  · rfl
  · simp only
    split
    · exact hf
    · split <;> exact hf

end RaftNode

section Steps

variable [Fintype ι] {cfg : Config ι} {s s' : Cluster ι} {r : Logs ι}

/-- **An accepted request** keeps what is committed, and its own commit index is not taken over
when it is a smaller one. -/
lemma Tracks.accept_retains (h : Tracks s r) (hi : r.Inv LogEntry.term) {i p : ι}
    {req : AppendEntriesReq ι} (hok : RequestOk r i (.append req))
    (hn : NodeOk cfg r p (s.nodes p)) (hs : (s.nodes p).CutsNothing req)
    (ha : (s.nodes p).Accepts req) : (s.nodes p).Retains
      (((s.nodes p).followLeader req.term req.leaderId).acceptEntries req) := by
  have hf := (s.nodes p).followLeader_rests req.term req.leaderId
  have hkeep := committed_of_accepts h hi hok hn hs ha
  have hlen := hkeep.length_le
  rw [List.length_take, min_eq_left hn.commit_le] at hlen
  have hcommit : (s.nodes p).commitIndex ≤
      (((s.nodes p).followLeader req.term req.leaderId).acceptEntries req).commitIndex := by
    simp only [RaftNode.acceptEntries, hf.log, hf.commitIndex]
    split
    · next hlt => exact le_min hlt.le hlen
    · exact le_rfl
  refine ⟨hcommit, ?_, fun happ => ?_⟩
  · simpa only [RaftNode.acceptEntries, hf.log] using hkeep
  · have hsame := (s.nodes p).followLeader_lastApplied req.term req.leaderId
    rw [RaftNode.acceptEntries, hsame]
    exact happ.trans hcommit

/-- The handler of a request. -/
lemma Tracks.handle_retains (h : Tracks s r) (hi : r.Inv LogEntry.term) {i p : ι}
    {request : Request ι} (hok : RequestOk r i request) (hn : NodeOk cfg r p (s.nodes p))
    (hs : (s.nodes p).Safe request) :
    (s.nodes p).Retains ((s.nodes p).handle request).1 := by
  cases request with
  | vote req =>
    have hr := (s.nodes p).onRequestVote_rests req
    exact .of_log hr.log hr.commitIndex.ge ((s.nodes p).onRequestVote_lastApplied req)
  | append req =>
    rcases (s.nodes p).onAppendEntries_cases req with ⟨hy, hc, -⟩ | ⟨ha, he⟩
    · exact .of_log hy.log hc.ge ((s.nodes p).onAppendEntries_lastApplied req)
    · simp only [RaftNode.handle, he]
      exact h.accept_retains hi hok hn hs ha

omit [Fintype ι] in
/-- The other nodes stay as they are. -/
lemma Cluster.setNode_retains {i : ι} {n : RaftNode ι} (h : (s.nodes i).Retains n) :
    ∀ j, (s.nodes j).Retains ((s.setNode i n).nodes j) :=
  Cluster.forall_setNode (P := fun j n => (s.nodes j).Retains n) (fun _ => .refl _) h

omit [Fintype ι] in
lemma Cluster.electionResume_retains {i : ι} {th : Thread} {votes : ℕ} {rest : List ι}
    {req : RequestVoteReq ι} {resp : RequestVoteResp} (j : ι) :
    (s.nodes j).Retains ((s.electionResume cfg i th votes rest req resp).nodes j) := by
  unfold Cluster.electionResume
  rcases (s.nodes i).electionReply_cases i (cfg.peers i) req.term votes resp with
    ⟨n', he, hf⟩ | ⟨-, -, -, he⟩ | he
  · rw [he]
    exact Cluster.setNode_retains (.of_frame hf) j
  · have hn : (s.nodes i).Retains ((s.nodes i).becomeLeader i (cfg.peers i)) :=
      .of_log rfl le_rfl rfl
    rw [he]
    exact Cluster.setNode_retains hn j
  · rw [he]
    exact Cluster.setNode_retains (.refl _) j

omit [Fintype ι] in
lemma Cluster.heartbeatResume_retains {i : ι} {th : Thread} {rest : List ι} {p : ι}
    {req : AppendEntriesReq ι} {resp : AppendEntriesResp} (j : ι) :
    (s.nodes j).Retains ((s.heartbeatResume cfg i th rest p req resp).nodes j) := by
  have hn := (s.nodes i).heartbeatReply_retains (cfg.peers i) p req resp
  unfold Cluster.heartbeatResume
  split
  all_goals
    next n hp =>
    rw [hp] at hn
    exact Cluster.setNode_retains hn j

omit [Fintype ι] in
lemma Cluster.proposeResume_retains {i : ι} {th : Thread} {e : LogEntry} {index acks : ℕ}
    {rest : List ι} {req : AppendEntriesReq ι} {resp : AppendEntriesResp} (j : ι) :
    (s.nodes j).Retains ((s.proposeResume cfg i th e index acks rest req resp).nodes j) := by
  have hn := RaftNode.Retains.of_frame ((s.nodes i).proposeReply_frame (cfg.peers i) acks resp)
  unfold Cluster.proposeResume
  split
  · next n hp =>
    rw [hp] at hn
    exact Cluster.setNode_retains hn j
  · next n hp =>
    rw [hp] at hn
    exact Cluster.setNode_retains hn j
  · next n acks' hp =>
    rw [hp] at hn
    exact Cluster.setNode_retains hn j

omit [Fintype ι] in
lemma Cluster.noticeResume_retains {i : ι} {th : Thread} {e : LogEntry} {index : ℕ}
    {rest : List ι} {req : AppendEntriesReq ι} {resp : AppendEntriesResp} (j : ι) :
    (s.nodes j).Retains ((s.noticeResume i th e index rest req resp).nodes j) := by
  have hn := RaftNode.Retains.of_frame ((s.nodes i).noticeReply_frame resp)
  unfold Cluster.noticeResume
  split
  · next n q rest hp =>
    rw [hp] at hn
    exact Cluster.setNode_retains hn j
  · next n go hp _ =>
    rw [hp] at hn
    exact Cluster.setNode_retains hn j

/-- **Every node retains what it has committed** over a disciplined step. -/
theorem Commits.retains (h : Tracks s r) (hi : r.Inv LogEntry.term) (hc : Commits cfg s r)
    {a : Action ι} (ha : s.Disciplined a) (he : Cluster.Effect cfg s a s') (j : ι) :
    (s.nodes j).Retains (s'.nodes j) := by
  have hsame : ∀ {i : ι} {th : Thread} {lost : Bool} {pc : Pc ι} {c : Call ι} {resp : Response}
      {s₀ : Cluster ι}, s.Returns i th lost pc c resp s₀ → s.nodes = s₀.nodes := fun hr => by
    rcases hr.late with rfl | rfl <;> rfl
  cases he with
  | timeout | beat | buildEnd | build | refused | place | notifyNone | notify | apply =>
    exact .refl _
  | stand i =>
    have hn : (s.nodes i).Retains ((s.nodes i).becomeCandidate i) := .of_log rfl le_rfl rfl
    exact Cluster.setNode_retains hn j
  | propose _ i k e => exact Cluster.setNode_retains ((s.nodes i).pushEntry_retains e) j
  | take i e hth hlt hget => exact Cluster.setNode_retains (RaftNode.noteApplied_retains hlt) j
  | handle i th pc p request hth =>
    have hok := h.threads i th
    rw [hth] at hok
    exact Cluster.setNode_retains (h.handle_retains hi (hok.request _ rfl) (hc.nodes p)
      (ha.1 _ (by rw [hth]; rfl))) j
  | handleLate n p request hl =>
    obtain ⟨i, -, hok⟩ := h.late p request (List.mem_of_getElem? hl)
    exact Cluster.setNode_retains (h.handle_retains hi hok (hc.nodes p)
      (ha.1 (p, request) hl)) j
  | election i th lost votes rest p req ans resp s₀ hr =>
    rw [hsame hr]
    exact Cluster.electionResume_retains j
  | heartbeat i th lost rest p req ans resp s₀ hr =>
    rw [hsame hr]
    exact Cluster.heartbeatResume_retains j
  | proposal i th lost e index acks rest p req ans resp s₀ hr =>
    rw [hsame hr]
    exact Cluster.proposeResume_retains j
  | notice i th lost e index rest p req ans resp s₀ hr =>
    rw [hsame hr]
    exact Cluster.noticeResume_retains j

/-- **Over a disciplined run.** -/
theorem run_retains {as : List (Action ι)} (h : Tracks s r) (hi : r.Inv LogEntry.term)
    (hc : Commits cfg s r) (ha : s.AllMeet cfg Cluster.Disciplined as)
    (hrun : s.run cfg as = some s') (j : ι) : (s.nodes j).Retains (s'.nodes j) := by
  induction as generalizing s r with
  | nil =>
    obtain rfl := Option.some.inj hrun
    exact .refl _
  | cons a as ih =>
    obtain ⟨s₁, hstep, hrest⟩ := Cluster.run_cons hrun
    have he := Cluster.step_effect hstep
    obtain ⟨r₁, hm₁, ht₁, hc₁⟩ := h.disciplined hi hc ha.1 he
    exact (hc.retains h hi ha.1 he j).trans (ih ht₁ (hi.steps hm₁).1 hc₁ (ha.2 s₁ hstep) hrest)

omit [Fintype ι] in
/-- The two parts of a run under a condition. -/
lemma Cluster.AllMeet.append {P : Cluster ι → Action ι → Prop} {as bs : List (Action ι)}
    (h : s.AllMeet cfg P (as ++ bs)) (hrun : s.run cfg as = some s') :
    s.AllMeet cfg P as ∧ s'.AllMeet cfg P bs := by
  induction as generalizing s with
  | nil =>
    obtain rfl := Option.some.inj hrun
    exact ⟨trivial, h⟩
  | cons a as ih =>
    obtain ⟨s₁, hstep, hrest⟩ := Cluster.run_cons hrun
    refine ⟨⟨h.1, fun s₂ hs₂ => ?_⟩, (ih (h.2 s₁ hstep) hrest).2⟩
    obtain rfl := Option.some.inj (hstep.symm.trans hs₂)
    exact (ih (h.2 s₁ hstep) hrest).1

end Steps

/-- **Index bounds.** In every state of a disciplined run, on every node, no more is applied than is
committed and no more is committed than is stored, so that the apply thread finds the next entry;
in every later state of the run the commit index is at least as large, and every entry up to the
earlier one is where it was. -/
theorem index_bounds [Fintype ι] (cfg : Config ι) {as bs : List (Action ι)} {s s' : Cluster ι}
    (hrun : Cluster.init.run cfg as = some s) (hrun' : s.run cfg bs = some s')
    (ha : Cluster.init.AllMeet cfg Cluster.Disciplined (as ++ bs)) (i : ι) :
    (s.nodes i).lastApplied ≤ (s.nodes i).commitIndex ∧
      (s.nodes i).commitIndex ≤ (s.nodes i).log.length ∧
      ((s.nodes i).lastApplied < (s.nodes i).commitIndex → (s.nodes i).takeCommitted.isSome) ∧
      (s.nodes i).commitIndex ≤ (s'.nodes i).commitIndex ∧
      ∀ k < (s.nodes i).commitIndex, (s'.nodes i).log[k]? = (s.nodes i).log[k]? := by
  obtain ⟨ha, ha'⟩ := ha.append hrun
  obtain ⟨r, hm, ht, hc⟩ := run_disciplined init_tracks Replicas.init_inv init_commits ha hrun
  have hstart := run_retains init_tracks Replicas.init_inv init_commits ha hrun i
  have hlater := run_retains ht (Replicas.init_inv.steps hm).1 hc ha' hrun' i
  have hlen := (hc.nodes i).commit_le
  refine ⟨hstart.applied_le le_rfl, hlen, fun hlt => ?_, hlater.commit_le, fun k hk => ?_⟩
  · rw [RaftNode.takeCommitted, if_pos hlt, List.getElem?_eq_getElem (by omega)]
    rfl
  · have hk' : k < ((s.nodes i).log.take (s.nodes i).commitIndex).length := by
      rw [List.length_take]
      omega
    rw [← List.getElem?_take_of_lt (l := (s.nodes i).log) hk]
    exact (List.prefix_iff_getElem?.mp hlater.committed k hk').trans
      (List.getElem?_eq_getElem hk').symm

/-- The first node replicates an entry and commits it, in one run with the next heartbeat. -/
theorem index_bounds_replicated :
    ∃ s s', Cluster.init.run threeNodes (replicateAndApply.take 13) = some s ∧
      s.run threeNodes (replicateAndApply.drop 13) = some s' ∧ (s.nodes 0).commitIndex = 1 ∧
      (s.nodes 0).lastApplied ≤ (s.nodes 0).commitIndex ∧
      (s'.nodes 0).log[0]? = (s.nodes 0).log[0]? := by
  have h : (Cluster.init.run threeNodes (replicateAndApply.take 13)).any (fun s =>
      (s.nodes 0).commitIndex = 1 ∧ (s.run threeNodes (replicateAndApply.drop 13)).isSome) = true := by
    decide +kernel
  obtain ⟨s, hrun, hs⟩ := (Option.any_eq_true _ _).mp h
  obtain ⟨hc, hsome⟩ := of_decide_eq_true hs
  obtain ⟨s', hrun'⟩ := Option.isSome_iff_exists.mp hsome
  obtain ⟨happ, -, -, -, hkeep⟩ := index_bounds threeNodes hrun hrun' (by decide +kernel) 0
  exact ⟨s, s', hrun, hrun', hc, happ, hkeep 0 (by omega)⟩

/-- The heartbeat with the first entry for the second node is on its way until the second entry is
stored there. Both are committed, also there, when it arrives. -/
def lateHeartbeat : List (Action (Fin 3)) :=
  firstElection ++ [.proposePut 0 0 (text "a") (text "1"), .beat 0, .build 0,
    .resume 0 .heartbeat true, .proposePut 0 1 (text "b") (text "2"), .build 0, .handle 0 .heartbeat,
    .resume 0 .heartbeat false, .build 0, .beat 0, .build 0, .handle 0 .heartbeat]

/-- **A late request cuts a committed entry off**: the second node has committed two entries, and
one is left. When the first one is applied, the next one is read behind the end of the log. -/
theorem committed_entry_cut : ∃ s s',
    Cluster.init.run threeNodes lateHeartbeat = some s ∧
      s.run threeNodes [.handleLate 0, .take 1, .apply 1] = some s' ∧
      (s.nodes 1).commitIndex = 2 ∧ (s.nodes 1).log.length = 2 ∧
      (s'.nodes 1).commitIndex = 2 ∧ (s'.nodes 1).log.length = 1 ∧
      (s'.nodes 1).lastApplied = 1 ∧ (s'.nodes 1).takeCommitted.isSome = false := by
  have h : (Cluster.init.run threeNodes lateHeartbeat).any (fun s =>
      (s.nodes 1).commitIndex = 2 ∧ (s.nodes 1).log.length = 2 ∧
        (s.run threeNodes [.handleLate 0, .take 1, .apply 1]).any fun s' =>
          (s'.nodes 1).commitIndex = 2 ∧ (s'.nodes 1).log.length = 1 ∧
            (s'.nodes 1).lastApplied = 1 ∧ (s'.nodes 1).takeCommitted.isSome = false) = true := by
    decide +kernel
  obtain ⟨s, hrun, hs⟩ := (Option.any_eq_true _ _).mp h
  obtain ⟨hc, hl, hs⟩ := of_decide_eq_true hs
  obtain ⟨s', hrun', hs'⟩ := (Option.any_eq_true _ _).mp hs
  exact ⟨s, s', hrun, hrun', hc, hl, of_decide_eq_true hs'⟩

end VeriStore.Raft

import VeriStore.Raft.Replication

/-!
Terms begin at one.

A node that stands has a term of at least one, and entries are made by leaders in their terms only.
No condition on the steps is needed: this is so in every state of every run (`terms_positive`), in
particular where the other results speak of leaders with a positive term and of entries that have a
term.
-/

namespace VeriStore.Raft

variable {ι : Type} [DecidableEq ι]

/-! ### Entries with a term -/

/-- The entries of the log have a term, and a node that stands or leads has one. -/
structure RaftNode.Dated (n : RaftNode ι) : Prop where
  log : ∀ e ∈ n.log, 1 ≤ e.term
  term : n.role ≠ .follower → 1 ≤ n.currentTerm

/-- The entries that are sent have a term. -/
def Request.Dated : Request ι → Prop
  | .vote _ => True
  | .append req => ∀ e ∈ req.entries, 1 ≤ e.term

/-- So have the entries in the request of a thread, and the one it is about to send. -/
structure ThreadState.Dated (x : ThreadState ι) : Prop where
  request : ∀ c, x.call = some c → c.request.Dated
  appended : ∀ e index, x.pc = .appended e index → 1 ≤ e.term

structure Cluster.Dated (s : Cluster ι) : Prop where
  nodes : ∀ i, (s.nodes i).Dated
  threads : ∀ i th, (s.threads i th).Dated
  late : ∀ x ∈ s.late, x.2.Dated

namespace RaftNode

variable {n n' : RaftNode ι}

omit [DecidableEq ι] in
lemma Dated.yields (h : n.Dated) (hy : n.Yields n') : n'.Dated where
  log := hy.log ▸ h.log
  term hr := by
    rcases hy.role with ⟨hrole, ht⟩ | hrole
    · rw [ht]
      exact h.term (hrole ▸ hr)
    · exact absurd hrole hr

/-- The handler of a request. -/
lemma Dated.handle (h : n.Dated) {request : Request ι} (hr : request.Dated) :
    (n.handle request).1.Dated := by
  cases request with
  | vote req =>
    rcases n.onRequestVote_cases req with ⟨hy, -⟩ | ⟨n₁, hy, -, -, -, he⟩
    · exact h.yields hy
    · have h₁ := h.yields hy
      simp only [RaftNode.handle, he]
      exact ⟨h₁.log, h₁.term⟩
  | append req =>
    rcases n.onAppendEntries_cases req with ⟨hy, -⟩ | ⟨ha, he⟩
    · exact h.yields hy
    · have h₁ := h.yields (n.followLeader_yields req.term req.leaderId)
      simp only [RaftNode.handle, he]
      refine ⟨fun e hm => ?_, h₁.term⟩
      simp only [acceptEntries, appendAt] at hm
      split at hm
      · exact h₁.log e hm
      · rcases List.mem_append.mp hm with hm | hm
        · exact h₁.log e (List.mem_of_mem_take hm)
        · exact hr e hm

omit [DecidableEq ι] in
/-- The entries of a request are entries of the log. -/
lemma Dated.build (h : n.Dated) (self p : ι) :
    (Request.append (n.buildAppendEntries self p)).Dated := by
  intro e hm
  simp only [buildAppendEntries] at hm
  split at hm
  · exact h.log e (List.mem_of_mem_drop hm)
  · simp at hm

end RaftNode

/-! ### Threads -/

section Threads

variable {pc : Pc ι}

omit [DecidableEq ι] in
lemma ThreadState.Dated.of_none (h : ∀ e index, pc ≠ .appended e index) :
    ThreadState.Dated ⟨pc, none⟩ :=
  ⟨by simp, fun e index hpc => absurd hpc (h e index)⟩

omit [DecidableEq ι] in
lemma ThreadState.Dated.idle : (.idle : ThreadState ι).Dated := .of_none (by simp)

omit [DecidableEq ι] in
lemma ThreadState.Dated.send {c : Call ι} (h : ∀ e index, pc ≠ .appended e index)
    (hc : c.request.Dated) : ThreadState.Dated ⟨pc, some c⟩ :=
  ⟨fun _ hc' => Option.some.inj hc' ▸ hc, fun e index hpc => absurd hpc (h e index)⟩

omit [DecidableEq ι] in
lemma ThreadState.Dated.loop {pc : List ι → Pc ι} {request : Request ι} {atEnd : ThreadState ι}
    {rest : List ι} (h : ∀ rest e index, pc rest ≠ .appended e index) (he : atEnd.Dated)
    (hr : request.Dated) : (ThreadState.loop pc request atEnd rest).Dated := by
  cases rest with
  | nil => exact he
  | cons p rest => exact .send (h rest) hr

omit [DecidableEq ι] in
lemma ThreadState.Dated.replicated {cfg : Config ι} {i : ι} {e : LogEntry} {index acks : ℕ} :
    (Cluster.replicated cfg i e index acks).Dated := by
  unfold Cluster.replicated
  split
  · exact .idle
  · exact .of_none (by simp)

end Threads

/-! ### Steps -/

namespace Cluster

variable {cfg : Config ι} {s s' : Cluster ι} {i : ι}

lemma Dated.setThread (h : s.Dated) {th : Thread} {x : ThreadState ι} (hx : x.Dated) :
    (s.setThread i th x).Dated :=
  ⟨h.nodes, forall_setThread (P := fun _ x => x.Dated) h.threads hx, h.late⟩

lemma Dated.setNode (h : s.Dated) {n : RaftNode ι} (hn : n.Dated) : (s.setNode i n).Dated :=
  ⟨forall_setNode (P := fun _ n => n.Dated) h.nodes hn, h.threads, h.late⟩

omit [DecidableEq ι] in
lemma Dated.returns (h : s.Dated) {th : Thread} {lost : Bool} {pc : Pc ι} {c : Call ι}
    {resp : Response} {s₀ : Cluster ι} (hr : s.Returns i th lost pc c resp s₀) :
    s₀.Dated ∧ c.request.Dated := by
  have hth := h.threads i th
  rw [hr.thread] at hth
  have hc := hth.request c rfl
  rcases hr.late with rfl | rfl
  · exact ⟨h, hc⟩
  · refine ⟨⟨h.nodes, h.threads, fun x hx => ?_⟩, hc⟩
    rcases List.mem_cons.mp hx with rfl | hx
    · exact hc
    · exact h.late x hx

lemma Dated.electionResume (h : s.Dated) {th : Thread} {votes : ℕ} {rest : List ι}
    {req : RequestVoteReq ι} {resp : RequestVoteResp} :
    (s.electionResume cfg i th votes rest req resp).Dated := by
  unfold Cluster.electionResume
  rcases (s.nodes i).electionReply_cases i (cfg.peers i) req.term votes resp with
    ⟨n', he, hf⟩ | ⟨hrole, -, -, he⟩ | he
  · rw [he]
    exact (h.setNode ((h.nodes i).yields (.of_frame hf))).setThread .idle
  · rw [he]
    -- a leader was a candidate before
    have hn : ((s.nodes i).becomeLeader i (cfg.peers i)).Dated :=
      ⟨(h.nodes i).log, fun _ => (h.nodes i).term (by simp [hrole])⟩
    have h' : ((s.setNode i ((s.nodes i).becomeLeader i (cfg.peers i))).setThread i th
        .idle).Dated := (h.setNode hn).setThread .idle
    exact ⟨h'.nodes, h'.threads, h'.late⟩
  · rw [he]
    exact (h.setNode (h.nodes i)).setThread (.loop (by simp) .idle trivial)

/-- **Every step keeps the terms positive.** -/
theorem Dated.effect (h : s.Dated) {a : Action ι} (he : Effect cfg s a s') : s'.Dated := by
  cases he with
  | timeout i => exact h.setThread (.of_none (by simp))
  | stand i =>
    have hn : ((s.nodes i).becomeCandidate i).Dated :=
      ⟨(h.nodes i).log, fun _ => Nat.le_add_left 1 _⟩
    exact (h.setNode hn).setThread (.loop (by simp) .idle trivial)
  | beat i => exact h.setThread (.of_none (by simp))
  | buildEnd i => exact h.setThread .idle
  | build i p rest => exact h.setThread (.send (by simp) ((h.nodes i).build i p))
  | refused => exact h
  | propose _ i k e _ _ hr het =>
    have hterm : 1 ≤ e.term := by
      rw [het]
      exact (h.nodes i).term (by simp [hr])
    have hn : ((s.nodes i).pushEntry e).Dated := by
      refine ⟨fun e' hm => ?_, (h.nodes i).term⟩
      rcases List.mem_append.mp hm with hm | hm
      · exact (h.nodes i).log e' hm
      · obtain rfl := List.mem_singleton.mp hm
        exact hterm
    refine (h.setNode hn).setThread ⟨by simp, fun e' index hpc => ?_⟩
    obtain ⟨rfl, -⟩ := Pc.appended.inj hpc
    exact hterm
  | place i k e index hth =>
    have hx := h.threads i (.client k)
    rw [hth] at hx
    refine h.setThread (.loop (by simp) .replicated fun e' hm => ?_)
    obtain rfl : e' = e := by simpa [RaftNode.proposeRequest] using hm
    exact hx.appended e' index rfl
  | notifyNone i k e index =>
    have h' : (s.setThread i (.client k) .idle).Dated := h.setThread .idle
    exact ⟨h'.nodes, h'.threads, h'.late⟩
  | notify i k e index p rest =>
    exact h.setThread (.send (by simp) fun e' hm => by simp [RaftNode.commitNotice] at hm)
  | take i e =>
    have hn : (s.nodes i).noteApplied.Dated := ⟨(h.nodes i).log, (h.nodes i).term⟩
    exact (h.setNode hn).setThread (.of_none (by simp))
  | apply i index e =>
    have h' : (s.setThread i .apply .idle).Dated := h.setThread .idle
    exact ⟨h'.nodes, h'.threads, h'.late⟩
  | handle i th pc p request hth =>
    have hx := h.threads i th
    rw [hth] at hx
    have hreq := hx.request _ rfl
    refine (h.setNode ((h.nodes p).handle hreq)).setThread ⟨fun c hc => ?_, hx.appended⟩
    obtain rfl := Option.some.inj hc
    exact hreq
  | handleLate n p request hl =>
    have h' := h.setNode (i := p) ((h.nodes p).handle (h.late _ (List.mem_of_getElem? hl)))
    exact ⟨h'.nodes, h'.threads, fun x hx => h.late x (List.mem_of_mem_eraseIdx hx)⟩
  | election i th lost votes rest p req ans resp s₀ hr => exact (h.returns hr).1.electionResume
  | heartbeat i th lost rest p req ans resp s₀ hr =>
    have hs := (h.returns hr).1
    have hn := (hs.nodes i).yields ((s₀.nodes i).heartbeatReply_yields (cfg.peers i) p req resp)
    unfold heartbeatResume
    split
    all_goals
      next n hp =>
      rw [hp] at hn
      exact (hs.setNode hn).setThread (.of_none (by simp))
  | proposal i th lost e index acks rest p req ans resp s₀ hr =>
    obtain ⟨hs, hreq⟩ := h.returns hr
    have hn := (hs.nodes i).yields
      (.of_frame ((s₀.nodes i).proposeReply_frame (cfg.peers i) acks resp))
    unfold proposeResume
    split
    all_goals
      next n hp =>
      rw [hp] at hn
      first
        | exact (hs.setNode hn).setThread (.of_none (by simp))
        | exact (hs.setNode hn).setThread (.loop (by simp) .replicated hreq)
  | notice i th lost e index rest p req ans resp s₀ hr =>
    obtain ⟨hs, hreq⟩ := h.returns hr
    have hn := (hs.nodes i).yields (.of_frame ((s₀.nodes i).noticeReply_frame resp))
    unfold noticeResume
    split
    · next n q rest hp =>
      rw [hp] at hn
      exact (hs.setNode hn).setThread (.send (by simp) hreq)
    · next n go hp _ =>
      rw [hp] at hn
      have h' : ((s₀.setNode i n).setThread i th .idle).Dated := (hs.setNode hn).setThread .idle
      exact ⟨h'.nodes, h'.threads, h'.late⟩

omit [DecidableEq ι] in
lemma init_dated : (Cluster.init : Cluster ι).Dated where
  nodes i := ⟨by simp [Cluster.init, RaftNode.init], by simp [Cluster.init, RaftNode.init]⟩
  threads _ _ := .idle
  late := by simp [Cluster.init]

/-- **Every run keeps them positive.** -/
theorem Dated.run {as : List (Action ι)} (h : s.Dated) (hrun : s.run cfg as = some s') :
    s'.Dated := by
  induction as generalizing s with
  | nil =>
    obtain rfl := Option.some.inj hrun
    exact h
  | cons a as ih =>
    obtain ⟨s₁, hstep, hrest⟩ := Cluster.run_cons hrun
    exact ih (h.effect (step_effect hstep)) hrest

end Cluster

/-- **Every entry has a term, and so has every leader**, in every state of every run. -/
theorem terms_positive (cfg : Config ι) {as : List (Action ι)} {s : Cluster ι}
    (hrun : Cluster.init.run cfg as = some s) (i : ι) :
    (∀ e ∈ (s.nodes i).log, 1 ≤ e.term) ∧
      ((s.nodes i).role = .leader → 1 ≤ (s.nodes i).currentTerm) := by
  have h := Cluster.init_dated.run hrun
  exact ⟨(h.nodes i).log, fun hr => (h.nodes i).term (by simp [hr])⟩

end VeriStore.Raft

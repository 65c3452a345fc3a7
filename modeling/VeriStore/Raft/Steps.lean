import VeriStore.Raft.Cluster

/-!
What one step of a cluster can do.

`Cluster.Effect` lists the transitions with everything they read and change, and `step_effect`
says that every step is one of them. The invariants of the cluster are proved by cases on it and
never unfold a step.
-/

namespace VeriStore.Raft

open VeriStore.Lib

variable {ι : Type} [DecidableEq ι]

namespace Cluster

/-! ### Updates -/

/-- What holds of every thread holds after an update with a thread it holds of. -/
lemma forall_setThread {P : ι → ThreadState ι → Prop} {s : Cluster ι} {i : ι} {th : Thread}
    {x : ThreadState ι} (h : ∀ j th', P j (s.threads j th')) (hx : P i x) :
    ∀ j th', P j ((s.setThread i th x).threads j th') := by
  intro j th'
  by_cases hj : j = i
  · subst hj
    by_cases hth : th' = th
    · subst hth
      simpa [setThread] using hx
    · simpa [setThread, hth] using h j th'
  · simpa [setThread, hj] using h j th'

/-- What holds of every node holds after an update with a node it holds of. -/
lemma forall_setNode {P : ι → RaftNode ι → Prop} {s : Cluster ι} {i : ι} {n : RaftNode ι}
    (h : ∀ j, P j (s.nodes j)) (hn : P i n) : ∀ j, P j ((s.setNode i n).nodes j) := by
  intro j
  by_cases hj : j = i
  · subst hj
    simpa [setNode] using hn
  · simpa [setNode, hj] using h j

/-! ### Transitions -/

/-- A call returns with a response: the answer of the peer, or what the transport says for a lost
call. -/
structure Returns (s : Cluster ι) (i : ι) (th : Thread) (lost : Bool) (pc : Pc ι) (c : Call ι)
    (resp : Response) (s₀ : Cluster ι) : Prop where
  thread : s.threads i th = ⟨pc, some c⟩
  outcome : (lost = false ∧ c.answer = some resp) ∨ (lost = true ∧ resp = c.request.unavailable)
  /-- a call that was not handled leaves its request behind -/
  late : s₀ = s ∨ s₀ = { s with late := (c.peer, c.request) :: s.late }

omit [DecidableEq ι] in
lemma Returns.response {s : Cluster ι} {i : ι} {th : Thread} {lost : Bool} {pc : Pc ι} {c : Call ι}
    {resp : Response} {s₀ : Cluster ι} (h : s.Returns i th lost pc c resp s₀) :
    c.answer = some resp ∨ resp = c.request.unavailable :=
  h.outcome.imp And.right And.right

/-- **The transitions of a cluster.** -/
inductive Effect (cfg : Config ι) (s : Cluster ι) : Action ι → Cluster ι → Prop
  | timeout (i : ι) (h : s.threads i .election = .idle) (hr : (s.nodes i).role ≠ .leader) :
      Effect cfg s (.timeout i) (s.setThread i .election ⟨.timedOut, none⟩)
  | stand (i : ι) (h : s.threads i .election = ⟨.timedOut, none⟩) :
      Effect cfg s (.stand i) ((s.setNode i ((s.nodes i).becomeCandidate i)).setThread i .election
        (.loop (.electing 1) (.vote (((s.nodes i).becomeCandidate i).voteRequest i)) .idle
          (cfg.peers i)))
  | beat (i : ι) (h : s.threads i .heartbeat = .idle) (hr : (s.nodes i).role = .leader) :
      Effect cfg s (.beat i) (s.setThread i .heartbeat ⟨.sending (cfg.peers i), none⟩)
  | buildEnd (i : ι) (rest : List ι) (h : s.threads i .heartbeat = ⟨.sending rest, none⟩) :
      Effect cfg s (.build i) (s.setThread i .heartbeat .idle)
  | build (i p : ι) (rest : List ι) (h : s.threads i .heartbeat = ⟨.sending (p :: rest), none⟩)
      (hr : (s.nodes i).role = .leader) :
      Effect cfg s (.build i) (s.setThread i .heartbeat
        ⟨.beating rest, some ⟨p, .append ((s.nodes i).buildAppendEntries i p), none⟩⟩)
  | refused (a : Action ι)
      (ha : (∃ i k key value, a = .proposePut i k key value) ∨ ∃ i k key, a = .proposeDel i k key) :
      Effect cfg s a s
  | propose (a : Action ι) (i : ι) (k : ℕ) (e : LogEntry)
      (ha : (∃ key value, a = .proposePut i k key value) ∨ ∃ key, a = .proposeDel i k key)
      (h : s.threads i (.client k) = .idle) (hr : (s.nodes i).role = .leader)
      (he : e.term = (s.nodes i).currentTerm) :
      Effect cfg s a ((s.setNode i ((s.nodes i).pushEntry e)).setThread i (.client k)
        ⟨.appended e ((s.nodes i).log.length + 1), none⟩)
  | place (i : ι) (k : ℕ) (e : LogEntry) (index : ℕ)
      (h : s.threads i (.client k) = ⟨.appended e index, none⟩) :
      Effect cfg s (.place i k) (s.setThread i (.client k) (.loop (.replicating e index 1)
        (.append ((s.nodes i).proposeRequest i e)) (replicated cfg i e index 1) (cfg.peers i)))
  | notifyNone (i : ι) (k : ℕ) (e : LogEntry) (index : ℕ)
      (h : s.threads i (.client k) = ⟨.acknowledged e index, none⟩) (hp : cfg.peers i = []) :
      Effect cfg s (.notify i k) (s.returnTrue i (.client k) e index)
  | notify (i : ι) (k : ℕ) (e : LogEntry) (index : ℕ) (p : ι) (rest : List ι)
      (h : s.threads i (.client k) = ⟨.acknowledged e index, none⟩) (hp : cfg.peers i = p :: rest) :
      Effect cfg s (.notify i k) (s.setThread i (.client k) ⟨.notifying e index rest,
        some ⟨p, .append ((s.nodes i).commitNotice i), none⟩⟩)
  | take (i : ι) (e : LogEntry) (h : s.threads i .apply = .idle)
      (hlt : (s.nodes i).lastApplied < (s.nodes i).commitIndex)
      (he : (s.nodes i).log[(s.nodes i).lastApplied]? = some e) :
      Effect cfg s (.take i) ((s.setNode i (s.nodes i).noteApplied).setThread i .apply
        ⟨.applying ((s.nodes i).lastApplied + 1) e, none⟩)
  | apply (i : ι) (index : ℕ) (e : LogEntry) (h : s.threads i .apply = ⟨.applying index e, none⟩) :
      Effect cfg s (.apply i)
        { s.setThread i .apply .idle with applied := (i, index, e) :: s.applied }
  | handle (i : ι) (th : Thread) (pc : Pc ι) (p : ι) (request : Request ι)
      (h : s.threads i th = ⟨pc, some ⟨p, request, none⟩⟩) :
      Effect cfg s (.handle i th) ((s.setNode p ((s.nodes p).handle request).1).setThread i th
        ⟨pc, some ⟨p, request, some ((s.nodes p).handle request).2⟩⟩)
  | handleLate (n : ℕ) (p : ι) (request : Request ι) (h : s.late[n]? = some (p, request)) :
      Effect cfg s (.handleLate n)
        { s.setNode p ((s.nodes p).handle request).1 with late := s.late.eraseIdx n }
  | election (i : ι) (th : Thread) (lost : Bool) (votes : ℕ) (rest : List ι) (p : ι)
      (req : RequestVoteReq ι) (ans : Option Response) (resp : RequestVoteResp) (s₀ : Cluster ι)
      (h : s.Returns i th lost (.electing votes rest) ⟨p, .vote req, ans⟩ (.vote resp) s₀) :
      Effect cfg s (.resume i th lost) (s₀.electionResume cfg i th votes rest req resp)
  | heartbeat (i : ι) (th : Thread) (lost : Bool) (rest : List ι) (p : ι)
      (req : AppendEntriesReq ι) (ans : Option Response) (resp : AppendEntriesResp) (s₀ : Cluster ι)
      (h : s.Returns i th lost (.beating rest) ⟨p, .append req, ans⟩ (.append resp) s₀) :
      Effect cfg s (.resume i th lost) (s₀.heartbeatResume cfg i th rest p req resp)
  | proposal (i : ι) (th : Thread) (lost : Bool) (e : LogEntry) (index acks : ℕ) (rest : List ι)
      (p : ι) (req : AppendEntriesReq ι) (ans : Option Response) (resp : AppendEntriesResp)
      (s₀ : Cluster ι)
      (h : s.Returns i th lost (.replicating e index acks rest) ⟨p, .append req, ans⟩ (.append resp) s₀) :
      Effect cfg s (.resume i th lost) (s₀.proposeResume cfg i th e index acks rest req resp)
  | notice (i : ι) (th : Thread) (lost : Bool) (e : LogEntry) (index : ℕ) (rest : List ι)
      (p : ι) (req : AppendEntriesReq ι) (ans : Option Response) (resp : AppendEntriesResp)
      (s₀ : Cluster ι)
      (h : s.Returns i th lost (.notifying e index rest) ⟨p, .append req, ans⟩ (.append resp) s₀) :
      Effect cfg s (.resume i th lost) (s₀.noticeResume i th e index rest req resp)

variable {cfg : Config ι} {s s' : Cluster ι}

lemma propose_effect {i : ι} {k : ℕ} {op : OpType} {key value : Bytes} {a : Action ι}
    (ha : (∃ key value, a = .proposePut i k key value) ∨ ∃ key, a = .proposeDel i k key)
    (h : s.propose i k op key value = some s') : Effect cfg s a s' := by
  unfold propose at h
  split at h
  · next hth =>
    unfold RaftNode.proposeAppend at h
    by_cases hr : (s.nodes i).role = .leader
    · simp only [hr, ne_eq, not_true_eq_false, if_false, Option.some.injEq] at h
      have hlen : (s.nodes i).log.length + 1 = ((s.nodes i).pushEntry
          ⟨(s.nodes i).currentTerm, op, key, value⟩).lastLogIndex := by
        simp [RaftNode.lastLogIndex, RaftNode.pushEntry]
      rw [← h, ← hlen]
      exact .propose a i k _ ha hth hr rfl
    · simp only [ne_eq, hr, not_false_eq_true, if_true, Option.some.injEq] at h
      subst h
      refine .refused a ?_
      rcases ha with ⟨key, value, ha⟩ | ⟨key, ha⟩
      · exact Or.inl ⟨i, k, key, value, ha⟩
      · exact Or.inr ⟨i, k, key, ha⟩
  · simp at h

/-- The continuation of a thread depends on its place, its request and the response. -/
lemma continueWith_effect {i : ι} {th : Thread} {lost : Bool} {pc : Pc ι} {c : Call ι}
    {resp : Response} {s₀ : Cluster ι} (hret : s.Returns i th lost pc c resp s₀)
    (h : s₀.continueWith cfg i th pc c resp = some s') : Effect cfg s (.resume i th lost) s' := by
  obtain ⟨p, request, ans⟩ := c
  unfold continueWith at h
  split at h
  · next votes rest req resp hc =>
    simp only at hc
    subst hc
    obtain rfl := Option.some.inj h
    exact .election i th lost votes rest p req ans resp s₀ hret
  · next rest req resp hc =>
    simp only at hc
    subst hc
    obtain rfl := Option.some.inj h
    exact .heartbeat i th lost rest p req ans resp s₀ hret
  · next e index acks rest req resp hc =>
    simp only at hc
    subst hc
    obtain rfl := Option.some.inj h
    exact .proposal i th lost e index acks rest p req ans resp s₀ hret
  · next e index rest hb resp hc =>
    simp only at hc
    subst hc
    obtain rfl := Option.some.inj h
    exact .notice i th lost e index rest p hb ans resp s₀ hret
  · simp at h

lemma resume_effect {i : ι} {th : Thread} {lost : Bool} (h : s.resume cfg i th lost = some s') :
    Effect cfg s (.resume i th lost) s' := by
  unfold resume at h
  split at h
  · next pc c hth =>
    split at h
    · simp at h
    · next resp hans => exact continueWith_effect ⟨hth, .inl ⟨rfl, hans⟩, .inl rfl⟩ h
    · exact continueWith_effect ⟨hth, .inr ⟨rfl, rfl⟩, .inl rfl⟩ h
    · exact continueWith_effect ⟨hth, .inr ⟨rfl, rfl⟩, .inr rfl⟩ h
  · simp at h

/-- **Every step is one of the transitions.** -/
theorem step_effect {a : Action ι} (h : s.step cfg a = some s') : Effect cfg s a s' := by
  cases a with
  | timeout i =>
    simp only [step, timeout] at h
    split at h
    · next hth =>
      split at h
      · simp at h
      · next hr =>
        obtain rfl := Option.some.inj h
        exact .timeout i hth hr
    · simp at h
  | stand i =>
    simp only [step, stand] at h
    split at h
    · next hth =>
      obtain rfl := Option.some.inj h
      exact .stand i hth
    · simp at h
  | beat i =>
    simp only [step, beat] at h
    split at h
    · next hth =>
      split at h
      · next hr =>
        obtain rfl := Option.some.inj h
        exact .beat i hth hr
      · simp at h
    · simp at h
  | build i =>
    simp only [step, build] at h
    split at h
    · next hth =>
      obtain rfl := Option.some.inj h
      exact .buildEnd i [] hth
    · next p rest hth =>
      split at h
      · next hr =>
        obtain rfl := Option.some.inj h
        exact .build i p rest hth hr
      · obtain rfl := Option.some.inj h
        exact .buildEnd i (p :: rest) hth
    · simp at h
  | proposePut i k key value => exact propose_effect (.inl ⟨key, value, rfl⟩) h
  | proposeDel i k key => exact propose_effect (.inr ⟨key, rfl⟩) h
  | place i k =>
    simp only [step, place] at h
    split at h
    · next e index hth =>
      obtain rfl := Option.some.inj h
      exact .place i k e index hth
    · simp at h
  | notify i k =>
    simp only [step, notify] at h
    split at h
    · next e index hth =>
      split at h
      · next hp =>
        obtain rfl := Option.some.inj h
        exact .notifyNone i k e index hth hp
      · next p rest hp =>
        obtain rfl := Option.some.inj h
        exact .notify i k e index p rest hth hp
    · simp at h
  | take i =>
    simp only [step, take] at h
    split at h
    · next hth =>
      unfold RaftNode.takeCommitted at h
      split at h
      · next hlt =>
        cases he : (s.nodes i).log[(s.nodes i).lastApplied]? with
        | none => simp [he] at h
        | some e =>
          simp only [he, Option.map_some, Option.some.injEq] at h
          subst h
          exact .take i e hth hlt he
      · simp at h
    · simp at h
  | apply i =>
    simp only [step, apply] at h
    split at h
    · next index e hth =>
      obtain rfl := Option.some.inj h
      exact .apply i index e hth
    · simp at h
  | handle i th =>
    simp only [step, handle] at h
    split at h
    · next pc p request hth =>
      obtain rfl := Option.some.inj h
      exact .handle i th pc p request hth
    · simp at h
  | resume i th lost => exact resume_effect h
  | handleLate n =>
    simp only [step, handleLate] at h
    cases hl : s.late[n]? with
    | none => simp [hl] at h
    | some x =>
      simp only [hl, Option.map_some, Option.some.injEq] at h
      subst h
      exact .handleLate n x.1 x.2 hl

end Cluster

end VeriStore.Raft

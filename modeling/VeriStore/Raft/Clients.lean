import VeriStore.Raft.Steps

/-!
The proposals of the threads of clients.

A thread that has begun a proposal works on it until it returns, and returns it as true or as false
(`Effect.works`). Where each node has one client thread (`OneClient`), the proposals that have
returned true are those of this thread, in order.
-/

namespace VeriStore.Raft

open VeriStore.Lib

set_option linter.unusedSectionVars false

variable {ι : Type} [DecidableEq ι]

/-- The proposal a thread works on: the index its entry was stored at, and the entry. -/
def Pc.proposal : Pc ι → Option (ℕ × LogEntry)
  | .appended e index | .replicating e index _ _ | .acknowledged e index | .notifying e index _ =>
    some (index, e)
  | _ => none

/-- The action begins a proposal. -/
def Action.proposes : Action ι → Bool
  | .proposePut .. | .proposeDel .. => true
  | _ => false

/-- The thread of the node itself whose loop the action begins anew. -/
def Action.begins : Action ι → Option (ι × Thread)
  | .timeout i => some (i, .election)
  | .beat i => some (i, .heartbeat)
  | .take i => some (i, .apply)
  | _ => none

lemma Action.begins_ne_client (a : Action ι) (j : ι) (k : ℕ) : a.begins ≠ some (j, .client k) := by
  cases a <;> simp [begins]

namespace Cluster

variable {cfg : Config ι} {s s' s₀ : Cluster ι} {a : Action ι} {i j : ι} {th : Thread}

/-- **What a step does to the proposal of a thread**: it goes on, or it returns. -/
inductive Works (s s' : Cluster ι) (j : ι) (th : Thread) : Prop
  | goesOn (h : (s'.threads j th).pc.proposal = (s.threads j th).pc.proposal)
      (ha : s'.acked = s.acked)
  | returns (y : ℕ × LogEntry) (h : (s.threads j th).pc.proposal = some y)
      (hidle : s'.threads j th = .idle) (ha : s'.acked = s.acked ∨ s'.acked = (j, y) :: s.acked)

/-- A step of one thread; an idle one begins its loop. -/
structure Moves (s : Cluster ι) (a : Action ι) (s' : Cluster ι) (j : ι) (th : Thread) : Prop where
  others : ∀ i th', (i, th') ≠ (j, th) → s'.threads i th' = s.threads i th'
  busy : s.threads j th = .idle → a.begins = some (j, th)
  works : s.Works s' j th

lemma threads_setThread_of_ne {x : ThreadState ι} {th' : Thread} (h : (i, th') ≠ (j, th)) :
    (s.setThread j th x).threads i th' = s.threads i th' := by
  by_cases hi : i = j
  · subst hi
    have ht : th' ≠ th := fun e => h (by rw [e])
    simp [setThread, ht]
  · simp [setThread, hi]

@[simp] lemma threads_setThread_self (x : ThreadState ι) :
    (s.setThread j th x).threads j th = x := by
  simp [setThread]

/-- A thread and a node change, and the proposal stays. -/
lemma moves_set {p : ι} {n : RaftNode ι} {x : ThreadState ι}
    (hx : x.pc.proposal = (s.threads j th).pc.proposal)
    (hb : s.threads j th = .idle → a.begins = some (j, th)) :
    s.Moves a ((s.setNode p n).setThread j th x) j th where
  others _ _ h := threads_setThread_of_ne h
  busy := hb
  works := .goesOn (by rw [threads_setThread_self, hx]) rfl

lemma moves_setThread {x : ThreadState ι} (hx : x.pc.proposal = (s.threads j th).pc.proposal)
    (hb : s.threads j th = .idle → a.begins = some (j, th)) : s.Moves a (s.setThread j th x) j th where
  others _ _ h := threads_setThread_of_ne h
  busy := hb
  works := .goesOn (by rw [threads_setThread_self, hx]) rfl

/-- A proposal returns. -/
lemma moves_return {p : ι} {n : RaftNode ι} {y : ℕ × LogEntry}
    (hy : (s.threads j th).pc.proposal = some y) :
    s.Moves a ((s.setNode p n).setThread j th .idle) j th ∧
      s.Moves a ((s.setNode p n).returnTrue j th y.2 y.1) j th := by
  have hb : s.threads j th = .idle → a.begins = some (j, th) := fun h => by
    rw [h] at hy
    cases hy
  exact ⟨⟨fun _ _ h => threads_setThread_of_ne h, hb, .returns y hy (threads_setThread_self _) (Or.inl rfl)⟩,
    fun _ _ h => threads_setThread_of_ne h, hb, .returns y hy (threads_setThread_self _) (Or.inr rfl)⟩

/-- The loop over the peers keeps the proposal. -/
lemma proposal_loop {pc : List ι → Pc ι} {y : Option (ℕ × LogEntry)} (hpc : ∀ l, (pc l).proposal = y)
    (request : Request ι) {atEnd : ThreadState ι} (hend : atEnd.pc.proposal = y) (ps : List ι) :
    (ThreadState.loop pc request atEnd ps).pc.proposal = y := by
  cases ps with
  | nil => exact hend
  | cons p ps => exact hpc ps

/-- Behind a call that returned, the threads and the answers are as before it. -/
lemma Returns.moves {lost : Bool} {pc : Pc ι} {c : Call ι} {resp : Response}
    (h : s.Returns i th lost pc c resp s₀) (hm : s₀.Moves a s' j th) : s.Moves a s' j th := by
  have hth : s₀.threads = s.threads ∧ s₀.acked = s.acked := by
    rcases h.late with rfl | rfl
    · exact ⟨rfl, rfl⟩
    · exact ⟨rfl, rfl⟩
  obtain ⟨h1, h2, h3⟩ := hm
  rw [hth.1] at h1 h2
  refine ⟨h1, h2, ?_⟩
  cases h3 with
  | goesOn h ha => exact .goesOn (hth.1 ▸ h) (hth.2 ▸ ha)
  | returns y h hidle ha => exact .returns y (hth.1 ▸ h) hidle (hth.2 ▸ ha)

/-- The replication loop goes on, or the proposal returns false. -/
lemma moves_replicate {n : RaftNode ι} {e : LogEntry} {index acks : ℕ} {p : ι} {rest : List ι}
    {request : Request ι} (hy : (s.threads j th).pc.proposal = some (index, e)) :
    s.Moves a ((s.setNode p n).setThread j th
      (.loop (.replicating e index acks) request (replicated cfg j e index acks) rest)) j th := by
  have hb : s.threads j th = .idle → a.begins = some (j, th) := fun h => by
    rw [h] at hy
    cases hy
  cases rest with
  | cons q rest => exact moves_set hy.symm hb
  | nil =>
    by_cases ha : acks < RaftNode.needed (cfg.peers j)
    · simp only [ThreadState.loop, replicated, ha, if_true]
      exact (moves_return hy).1
    · simp only [ThreadState.loop, replicated, ha, if_false]
      exact moves_set hy.symm hb

lemma moves_electionResume {votes : ℕ} {rest : List ι} {req : RequestVoteReq ι}
    {resp : RequestVoteResp} (hy : (s.threads j th).pc.proposal = none)
    (hb : s.threads j th ≠ .idle) : s.Moves a (s.electionResume cfg j th votes rest req resp) j th := by
  have hbusy : s.threads j th = .idle → a.begins = some (j, th) := fun h => absurd h hb
  unfold electionResume
  split
  · exact moves_set hy.symm hbusy
  · next n _ =>
    obtain ⟨h1, h2, h3⟩ : s.Moves a ((s.setNode j n).setThread j th .idle) j th :=
      moves_set hy.symm hbusy
    refine ⟨h1, h2, ?_⟩
    cases h3 with
    | goesOn h ha => exact .goesOn h ha
    | returns y h hidle ha => exact .returns y h hidle ha
  · exact moves_set ((proposal_loop (y := none) (fun _ => rfl) _ rfl _).trans hy.symm) hbusy

lemma moves_heartbeatResume {rest : List ι} {p : ι} {req : AppendEntriesReq ι}
    {resp : AppendEntriesResp} (hy : (s.threads j th).pc.proposal = none)
    (hb : s.threads j th ≠ .idle) : s.Moves a (s.heartbeatResume cfg j th rest p req resp) j th := by
  unfold heartbeatResume
  split
  · exact moves_set hy.symm fun h => absurd h hb
  · exact moves_set hy.symm fun h => absurd h hb

lemma moves_proposeResume {e : LogEntry} {index acks : ℕ} {rest : List ι}
    {req : AppendEntriesReq ι} {resp : AppendEntriesResp}
    (hy : (s.threads j th).pc.proposal = some (index, e)) (hb : s.threads j th ≠ .idle) :
    s.Moves a (s.proposeResume cfg j th e index acks rest req resp) j th := by
  unfold proposeResume
  split
  · exact (moves_return hy).1
  · exact moves_set hy.symm fun h => absurd h hb
  · exact moves_replicate hy

lemma moves_noticeResume {e : LogEntry} {index : ℕ} {rest : List ι} {req : AppendEntriesReq ι}
    {resp : AppendEntriesResp} (hy : (s.threads j th).pc.proposal = some (index, e))
    (hb : s.threads j th ≠ .idle) : s.Moves a (s.noticeResume j th e index rest req resp) j th := by
  unfold noticeResume
  split
  · exact moves_set hy.symm fun h => absurd h hb
  · exact (moves_return hy).2

/-- **A step works on the proposal of one thread**, or of none. -/
theorem Effect.works (he : Effect cfg s a s') (ha : a.proposes = false) :
    (s'.threads = s.threads ∧ s'.acked = s.acked) ∨ ∃ j th, s.Moves a s' j th := by
  have hret {i : ι} {th : Thread} {lost : Bool} {pc : Pc ι} {c : Call ι} {resp : Response}
      {s₀ : Cluster ι} (hr : s.Returns i th lost pc c resp s₀) :
      s₀.threads i th ≠ .idle ∧ (s₀.threads i th).pc.proposal = pc.proposal := by
    have hth : s₀.threads i th = ⟨pc, some c⟩ := by
      rw [← hr.thread]
      rcases hr.late with rfl | rfl <;> rfl
    rw [hth]
    exact ⟨by simp [ThreadState.idle], rfl⟩
  have hbusy {i : ι} {th : Thread} {pc : Pc ι} {c : Option (Call ι)} {b : Option (ι × Thread)}
      {a : Action ι} (h : s.threads i th = ⟨pc, c⟩)
      (hpc : (⟨pc, c⟩ : ThreadState ι) ≠ .idle) :
      s.threads i th = .idle → a.begins = b := fun h' => absurd (h.symm.trans h') hpc
  cases he with
  | timeout i h => exact Or.inr ⟨i, _, moves_setThread (by rw [h]; rfl) fun _ => rfl⟩
  | beat i h => exact Or.inr ⟨i, _, moves_setThread (by rw [h]; rfl) fun _ => rfl⟩
  | buildEnd i rest h => exact Or.inr ⟨i, _, moves_setThread (by rw [h]; rfl) (hbusy h (by simp [ThreadState.idle]))⟩
  | build i p rest h => exact Or.inr ⟨i, _, moves_setThread (by rw [h]; rfl) (hbusy h (by simp [ThreadState.idle]))⟩
  | stand i h =>
    have hy : none = (s.threads i .election).pc.proposal := by rw [h]; rfl
    exact Or.inr ⟨i, .election,
      moves_set ((proposal_loop (y := none) (fun _ => rfl) _ rfl _).trans hy) (hbusy h (by simp [ThreadState.idle]))⟩
  | refused a ha' =>
    rcases ha' with ⟨i, k, key, value, rfl⟩ | ⟨i, k, key, rfl⟩ <;> cases ha
  | propose a i k e ha' =>
    rcases ha' with ⟨key, value, rfl⟩ | ⟨key, rfl⟩ <;> cases ha
  | place i k e index h =>
    have hy : (s.threads i (.client k)).pc.proposal = some (index, e) := by rw [h]; rfl
    have hm : s.Moves (.place i k) ((s.setNode i (s.nodes i)).setThread i (.client k)
        (.loop (.replicating e index 1) (.append ((s.nodes i).proposeRequest i e))
          (replicated cfg i e index 1) (cfg.peers i))) i (.client k) := moves_replicate hy
    have hs : s.setNode i (s.nodes i) = s := by simp [setNode]
    rw [hs] at hm
    exact Or.inr ⟨i, _, hm⟩
  | notifyNone i k e index h =>
    have hy : (s.threads i (.client k)).pc.proposal = some (index, e) := by rw [h]; rfl
    have hm := (moves_return (a := .notify i k) (p := i) (n := s.nodes i) hy).2
    have hs : s.setNode i (s.nodes i) = s := by simp [setNode]
    rw [hs] at hm
    exact Or.inr ⟨i, _, hm⟩
  | notify i k e index p rest h =>
    exact Or.inr ⟨i, _, moves_setThread (by rw [h]; rfl) (hbusy h (by simp [ThreadState.idle]))⟩
  | take i e h => exact Or.inr ⟨i, .apply, moves_set (by rw [h]; rfl) fun _ => rfl⟩
  | apply i index e h =>
    obtain ⟨h1, h2, h3⟩ : s.Moves (.apply i) (s.setThread i .apply .idle) i .apply :=
      moves_setThread (by rw [h]; rfl) (hbusy h (by simp [ThreadState.idle]))
    refine Or.inr ⟨i, .apply, h1, h2, ?_⟩
    cases h3 with
    | goesOn h ha => exact .goesOn h ha
    | returns y h hidle ha => exact .returns y h hidle ha
  | handle i th pc p request h =>
    exact Or.inr ⟨i, th, moves_set (by rw [h]) (hbusy h (by simp [ThreadState.idle]))⟩
  | handleLate n p request h => exact Or.inl ⟨rfl, rfl⟩
  | election i th lost votes rest p req ans resp s₀ hr =>
    exact Or.inr ⟨i, th, hr.moves (moves_electionResume (hret hr).2 (hret hr).1)⟩
  | heartbeat i th lost rest p req ans resp s₀ hr =>
    exact Or.inr ⟨i, th, hr.moves (moves_heartbeatResume (hret hr).2 (hret hr).1)⟩
  | proposal i th lost e index acks rest p req ans resp s₀ hr =>
    exact Or.inr ⟨i, th, hr.moves (moves_proposeResume (hret hr).2 (hret hr).1)⟩
  | notice i th lost e index rest p req ans resp s₀ hr =>
    exact Or.inr ⟨i, th, hr.moves (moves_noticeResume (hret hr).2 (hret hr).1)⟩

/-! ### One client thread -/

/-- The proposals of a node that have returned true, the oldest first. -/
def ackedBy (s : Cluster ι) (i : ι) : List (ℕ × LogEntry) :=
  ((s.acked.filter fun y => y.1 = i).map fun y => y.2).reverse

lemma mem_ackedBy {y : ℕ × LogEntry} : y ∈ s.ackedBy i ↔ (i, y) ∈ s.acked := by
  simp [ackedBy]

lemma ackedBy_cons {y : ℕ × LogEntry} (h : s'.acked = (j, y) :: s.acked) :
    s'.ackedBy i = if j = i then s.ackedBy i ++ [y] else s.ackedBy i := by
  unfold ackedBy
  rw [h, List.filter_cons]
  by_cases hj : j = i
  · simp [hj]
  · simp [hj]

lemma ackedBy_congr (h : s'.acked = s.acked) : s'.ackedBy i = s.ackedBy i := by
  unfold ackedBy
  rw [h]

/-- The first client thread makes all proposals of a node, and is idle between them. -/
structure OneClient (s : Cluster ι) : Prop where
  proposal : ∀ i th, (s.threads i th).pc.proposal ≠ none → th = .client 0
  idle : ∀ i k, (s.threads i (.client k)).pc.proposal = none → s.threads i (.client k) = .idle

lemma oneClient_init : (init : Cluster ι).OneClient :=
  ⟨fun _ _ h => absurd rfl h, fun _ _ _ => rfl⟩

/-- The proposal of a node goes on, or it returns. -/
inductive ClientWorks (s s' : Cluster ι) (i : ι) : Prop
  | goesOn (h : (s'.threads i (.client 0)).pc.proposal = (s.threads i (.client 0)).pc.proposal)
      (ha : s'.ackedBy i = s.ackedBy i)
  | returns (y : ℕ × LogEntry) (h : (s.threads i (.client 0)).pc.proposal = some y)
      (hidle : s'.threads i (.client 0) = .idle)
      (ha : s'.ackedBy i = s.ackedBy i ∨ s'.ackedBy i = s.ackedBy i ++ [y])

/-- **A step that begins no proposal.** -/
theorem Effect.oneClient (he : Effect cfg s a s') (ha : a.proposes = false)
    (hs : s.OneClient) : s'.OneClient ∧ ∀ i, s.ClientWorks s' i := by
  rcases he.works ha with ⟨hth, hack⟩ | ⟨j, th, hm⟩
  · refine ⟨⟨fun i th => ?_, fun i k => ?_⟩, fun i => .goesOn (by rw [hth]) (ackedBy_congr hack)⟩
    · rw [hth]
      exact hs.proposal i th
    · rw [hth]
      exact hs.idle i k
  · refine ⟨⟨fun i th' => ?_, fun i k => ?_⟩, fun i => ?_⟩
    · by_cases heq : (i, th') = (j, th)
      · obtain ⟨rfl, rfl⟩ := Prod.mk.inj heq
        cases hm.works with
        | goesOn h ha =>
          rw [h]
          exact hs.proposal i th'
        | returns y h hidle ha =>
          rw [hidle]
          exact fun hne => absurd rfl hne
      · rw [hm.others i th' heq]
        exact hs.proposal i th'
    · by_cases heq : (i, Thread.client k) = (j, th)
      · obtain ⟨rfl, rfl⟩ := Prod.mk.inj heq
        cases hm.works with
        | goesOn h ha =>
          rw [h]
          exact fun hnone => absurd (hm.busy (hs.idle i k hnone)) (a.begins_ne_client i k)
        | returns y h hidle ha => exact fun _ => hidle
      · rw [hm.others i _ heq]
        exact hs.idle i k
    · by_cases heq : (i, Thread.client 0) = (j, th)
      · obtain ⟨rfl, rfl⟩ := Prod.mk.inj heq
        cases hm.works with
        | goesOn h ha => exact .goesOn h (ackedBy_congr ha)
        | returns y h hidle ha =>
          refine .returns y h hidle (ha.imp ackedBy_congr fun ha => ?_)
          rw [ackedBy_cons ha, if_pos rfl]
      · refine .goesOn (by rw [hm.others i _ heq]) ?_
        cases hm.works with
        | goesOn h ha => exact ackedBy_congr ha
        | returns y h hidle ha =>
          -- the proposal is one of another node
          have hth : th = .client 0 := hs.proposal j th (by rw [h]; simp)
          have hj : j ≠ i := fun e => heq (by rw [e, hth])
          rcases ha with ha | ha
          · exact ackedBy_congr ha
          · rw [ackedBy_cons ha, if_neg hj]

/-- **A step that begins a proposal**: the leader stores the entry, and another node does nothing. -/
theorem propose_oneClient {op : OpType} {key value : Bytes} (hs : s.OneClient)
    (h : s.propose i 0 op key value = some s') :
    s'.OneClient ∧ s'.acked = s.acked ∧ s.threads i (.client 0) = .idle ∧
      (∀ j th, (j, th) ≠ (i, .client 0) → s'.threads j th = s.threads j th) ∧
      (s' = s ∨ ∃ index term, (s'.threads i (.client 0)).pc.proposal =
        some (index, ⟨term, op, key, value⟩)) := by
  unfold propose at h
  split at h
  · next hidle =>
    split at h
    · obtain rfl := Option.some.inj h
      exact ⟨hs, rfl, hidle, fun _ _ _ => rfl, Or.inl rfl⟩
    · next n e he =>
      obtain rfl := Option.some.inj h
      have hent : e = ⟨(s.nodes i).currentTerm, op, key, value⟩ := by
        unfold RaftNode.proposeAppend at he
        split at he
        · cases he
        · exact (Prod.mk.inj (Option.some.inj he)).2.symm
      have hother : ∀ j th, (j, th) ≠ (i, Thread.client 0) →
          ((s.setNode i n).setThread i (.client 0) ⟨.appended e n.lastLogIndex, none⟩).threads j th =
            s.threads j th := fun j th hne => threads_setThread_of_ne hne
      refine ⟨⟨fun j th => ?_, fun j k => ?_⟩, rfl, hidle, hother, Or.inr ?_⟩
      · by_cases heq : (j, th) = (i, Thread.client 0)
        · exact fun _ => (Prod.mk.inj heq).2
        · rw [hother j th heq]
          exact hs.proposal j th
      · by_cases heq : (j, Thread.client k) = (i, Thread.client 0)
        · rw [Prod.mk.inj heq |>.1, Prod.mk.inj heq |>.2, threads_setThread_self]
          exact fun hne => by cases hne
        · rw [hother j _ heq]
          exact hs.idle j k
      · exact ⟨n.lastLogIndex, (s.nodes i).currentTerm, by rw [threads_setThread_self, hent]; rfl⟩
  · cases h

/-! ### Threads that have ended -/

/-- The threads of the node itself are idle. -/
structure Ended (s : Cluster ι) (i : ι) : Prop where
  election : s.threads i .election = .idle
  heartbeat : s.threads i .heartbeat = .idle
  apply : s.threads i .apply = .idle

lemma Ended.thread {s : Cluster ι} (h : s.Ended i) (hth : ∀ k, th ≠ .client k) :
    s.threads i th = .idle := by
  cases th with
  | election => exact h.election
  | heartbeat => exact h.heartbeat
  | apply => exact h.apply
  | client k => exact absurd rfl (hth k)

/-- Only a thread that asks for votes makes its node a leader. -/
lemma Effect.elected_cases (he : Effect cfg s a s') : s'.elected = s.elected ∨
    ∃ j th votes rest c y, s.threads j th = ⟨.electing votes rest, some c⟩ ∧
      s'.elected = (j, y) :: s.elected := by
  cases he with
  | election j th lost votes rest p req ans resp s₀ hr =>
    have hs : s₀.elected = s.elected := by rcases hr.late with rfl | rfl <;> rfl
    unfold electionResume
    split
    · exact Or.inl hs
    · exact Or.inr ⟨j, th, votes, rest, _, _, hr.thread, by rw [hs]⟩
    · exact Or.inl hs
  | heartbeat j th lost rest p req ans resp s₀ hr =>
    have hs : s₀.elected = s.elected := by rcases hr.late with rfl | rfl <;> rfl
    left
    unfold heartbeatResume
    split <;> exact hs
  | proposal j th lost e index acks rest p req ans resp s₀ hr =>
    have hs : s₀.elected = s.elected := by rcases hr.late with rfl | rfl <;> rfl
    left
    unfold proposeResume
    split <;> exact hs
  | notice j th lost e index rest p req ans resp s₀ hr =>
    have hs : s₀.elected = s.elected := by rcases hr.late with rfl | rfl <;> rfl
    left
    unfold noticeResume
    split <;> exact hs
  | _ => exact Or.inl rfl

/-- **A node whose threads have ended** does not become leader and applies nothing, as long as none
of its threads begins anew. -/
theorem Effect.ended (he : Effect cfg s a s') (hs : s.OneClient) (h : s.Ended i)
    (hb : ∀ th, a.begins ≠ some (i, th)) :
    s'.Ended i ∧ a ≠ .apply i ∧ ∀ y, (i, y) ∈ s'.elected → (i, y) ∈ s.elected := by
  have hth : ∀ th, (∀ k, th ≠ .client k) → s'.threads i th = .idle := by
    intro th hne
    have hidle := h.thread hne
    cases ha : a.proposes with
    | true =>
      cases he with
      | refused => exact hidle
      | propose _ j k e _ hj =>
        rw [threads_setThread_of_ne fun heq => hne k (Prod.mk.inj heq).2]
        exact hidle
      | _ => cases ha
    | false =>
      rcases he.works ha with ⟨heq, -⟩ | ⟨j, th', hm⟩
      · rw [heq, hidle]
      · by_cases heq : (i, th) = (j, th')
        · obtain ⟨rfl, rfl⟩ := Prod.mk.inj heq
          exact absurd (hm.busy hidle) (hb th)
        · rw [hm.others i th heq, hidle]
  refine ⟨⟨hth _ (by simp), hth _ (by simp), hth _ (by simp)⟩, ?_, fun y hy => ?_⟩
  · rintro rfl
    cases he with
    | apply _ index e h' =>
      rw [h.apply] at h'
      cases h'
    | refused _ ha' => rcases ha' with ⟨_, _, _, _, h'⟩ | ⟨_, _, _, h'⟩ <;> simp at h'
    | propose _ _ _ _ ha' => rcases ha' with ⟨_, _, h'⟩ | ⟨_, h'⟩ <;> simp at h'
  · rcases he.elected_cases with heq | ⟨j, th, votes, rest, c, z, hj, heq⟩
    · exact heq ▸ hy
    · rw [heq] at hy
      rcases List.mem_cons.mp hy with hz | hy
      · -- a thread that asks for votes is not idle
        obtain ⟨rfl, -⟩ := Prod.mk.inj hz
        have hne : s.threads i th ≠ .idle := by rw [hj]; simp [ThreadState.idle]
        by_cases hcl : ∃ k, th = .client k
        · obtain ⟨k, rfl⟩ := hcl
          exact absurd (hs.idle i k (by rw [hj]; rfl)) hne
        · exact absurd (h.thread fun k hk => hcl ⟨k, hk⟩) hne
      · exact hy

end Cluster

end VeriStore.Raft

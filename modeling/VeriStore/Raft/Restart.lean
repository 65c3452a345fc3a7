import VeriStore.Raft.Commit

/-!
Nodes that are re-created.

The term, the vote and the log of a node are kept in memory only, so that a node that is created
again starts from nothing: it may vote a second time in a term, and it does not have what it has
acknowledged. `Lives` is a cluster together with what the nodes that were created again had before
and have not got back (`Former`). Such a node is careful (`Lives.Careful`) when it grants no vote
that it would have refused with its former term, vote and log, accepts no entries of a term before
its former one, and stands only in a later term and with its former entries.

`Cluster.restore` is the cluster in which the nodes still have what they forgot. Steps of the nodes
that lack nothing are steps of this cluster (`Cluster.Effect.restore`), and the other nodes do not
notice them (`Cluster.Effect.frame`).
-/

namespace VeriStore.Raft

open VeriStore.Lib Relation

set_option linter.unusedSectionVars false

variable {ι : Type} [DecidableEq ι]

/-! ### Restarts -/

/-- **A node is created again**: its state and its threads are lost. -/
def Cluster.restart (s : Cluster ι) (i : ι) : Cluster ι :=
  { s.setNode i RaftNode.init with threads := Function.update s.threads i fun _ => .idle }

inductive Event (ι : Type) where
  | step (a : Action ι)
  | restart (i : ι)

/-- What a node would have found on a disk: the term, the vote in it, and the log. -/
structure Former (ι : Type) where
  term : ℕ
  votedFor : Option ι
  log : List LogEntry
deriving DecidableEq

/-- The entries make up for a log: they are as many, or contradict one of its entries. -/
def MadeUp (log es : List LogEntry) : Prop :=
  log.length ≤ es.length ∨ ∃ x ∈ log.zip es, x.1.term ≠ x.2.term

instance (log es : List LogEntry) : Decidable (MadeUp log es) := inferInstanceAs (Decidable (_ ∨ _))

namespace Former

def of (n : RaftNode ι) : Former ι := ⟨n.currentTerm, n.votedFor, n.log⟩

/-- The node with the term, the vote and the log that it had. -/
def putBack (k : Former ι) (n : RaftNode ι) : RaftNode ι :=
  { n with currentTerm := k.term, votedFor := k.votedFor, log := k.log }

/-- What would be on the disk when the node has become `n`: a later term with its vote, and a log
that makes up for the former one. -/
def after (k : Former ι) (n : RaftNode ι) : Former ι where
  term := max k.term n.currentTerm
  votedFor :=
    if k.term < n.currentTerm then n.votedFor
    else if n.currentTerm = k.term then n.votedFor.or k.votedFor else k.votedFor
  log := if MadeUp k.log n.log then n.log else k.log

/-- What the node has not got back. -/
def remember (k : Former ι) (n : RaftNode ι) : Option (Former ι) :=
  if k.after n = .of n then none else some (k.after n)

end Former

abbrev Memory (ι : Type) := ι → Option (Former ι)

def Memory.settle (mem : Memory ι) (s : Cluster ι) : Memory ι :=
  fun i => (mem i).bind fun k => k.remember (s.nodes i)

/-- A cluster, and what each node that was created again had before and has not got back. -/
structure Lives (ι : Type) where
  cluster : Cluster ι
  memory : Memory ι

/-- The node that handles a request in a step, and the request. -/
def Cluster.handling (s : Cluster ι) : Action ι → Option (ι × Request ι)
  | .handle i th => (s.threads i th).call.map fun c => (c.peer, c.request)
  | .handleLate n => s.late[n]?
  | _ => none

namespace Lives

def init : Lives ι := ⟨Cluster.init, fun _ => none⟩

/-- One step of the cluster or a restart; a node that restarts again still has the state of its
first life to make up for. -/
def event (cfg : Config ι) (x : Lives ι) : Event ι → Option (Lives ι)
  | .step a => (x.cluster.step cfg a).map fun s => ⟨s, x.memory.settle s⟩
  | .restart i => some ⟨x.cluster.restart i,
      Function.update x.memory i (some ((x.memory i).getD (.of (x.cluster.nodes i))))⟩

def run (cfg : Config ι) (x : Lives ι) (es : List (Event ι)) : Option (Lives ι) :=
  es.foldlM (event cfg) x

/-! ### The condition on restarted nodes -/

/-- **What a node that was created again may handle**: it grants a vote only if it would have
granted it with what it had, and it accepts no entries of a term before its former one. -/
def Resumes (k : Former ι) (now : RaftNode ι) : Request ι → Prop
  | .vote req => (now.onRequestVote req).2.voteGranted = true →
      ((k.putBack now).onRequestVote req).2.voteGranted = true
  | .append req => now.Accepts req → req.entries ≠ [] → k.term ≤ req.term

instance (k : Former ι) (now : RaftNode ι) : (request : Request ι) → Decidable (Resumes k now request)
  | .vote _ => inferInstanceAs (Decidable (_ → _))
  | .append _ => inferInstanceAs (Decidable (_ → _ → _))

/-- **A node that was created again may stand** in a term after its former one, when it has its
former entries. -/
def MayStand (k : Former ι) (now : RaftNode ι) : Prop := k.term ≤ now.currentTerm ∧ k.log = now.log

instance (k : Former ι) (now : RaftNode ι) : Decidable (MayStand k now) :=
  inferInstanceAs (Decidable (_ ∧ _))

/-- **The condition on a step**: it is disciplined, and a node that was created again neither
stands nor handles more than it may until it has got back what it had. -/
def Careful (x : Lives ι) : Event ι → Prop
  | .restart _ => True
  | .step a => x.cluster.Disciplined a ∧
      (match a with
        | .stand i => ∀ k ∈ x.memory i, MayStand k (x.cluster.nodes i)
        | _ => True) ∧
      ∀ y ∈ x.cluster.handling a, ∀ k ∈ x.memory y.1, Resumes k (x.cluster.nodes y.1) y.2

instance (x : Lives ι) : (e : Event ι) → Decidable (x.Careful e)
  | .restart _ => isTrue trivial
  | .step (.stand i) => inferInstanceAs (Decidable (_ ∧
      (∀ k ∈ x.memory i, MayStand k (x.cluster.nodes i)) ∧
      ∀ y ∈ x.cluster.handling (.stand i), ∀ k ∈ x.memory y.1, _))
  | .step (.timeout _) | .step (.beat _) | .step (.build _) | .step (.proposePut _ _ _ _)
  | .step (.proposeDel _ _ _) | .step (.place _ _) | .step (.notify _ _) | .step (.take _)
  | .step (.apply _) | .step (.handle _ _) | .step (.resume _ _ _) | .step (.handleLate _) =>
    inferInstanceAs (Decidable (_ ∧ True ∧ ∀ y ∈ x.cluster.handling _, ∀ k ∈ x.memory y.1, _))

/-- All events of a run meet the condition. -/
def AllCareful (cfg : Config ι) : Lives ι → List (Event ι) → Prop
  | _, [] => True
  | x, e :: es => x.Careful e ∧ ∀ x' ∈ x.event cfg e, AllCareful cfg x' es

instance (cfg : Config ι) : (x : Lives ι) → (es : List (Event ι)) → Decidable (AllCareful cfg x es)
  | _, [] => isTrue trivial
  | x, e :: es =>
    have (x' : Lives ι) : Decidable (AllCareful cfg x' es) := instDecidableAllCareful cfg x' es
    inferInstanceAs (Decidable (x.Careful e ∧ ∀ x' ∈ x.event cfg e, AllCareful cfg x' es))

end Lives

/-! ### What is put back -/

/-- **The node still lacks what it had**: it is a follower whose term, vote and log are behind. -/
structure Former.Covers (k : Former ι) (n : RaftNode ι) : Prop where
  role : n.role = .follower
  term : n.currentTerm ≤ k.term
  votedFor : ∀ c, n.votedFor = some c → n.currentTerm = k.term ∧ k.votedFor = some c
  log : n.log <+: k.log

/-- Entries that make up for a log, said about the logs. -/
lemma keeps_of_madeUp {l es : List LogEntry} (h : MadeUp l es) :
    Replicas.Keeps LogEntry.term l es := by
  rcases h with h | ⟨x, hx, hne⟩
  · exact Or.inl h
  · obtain ⟨k, hk⟩ := List.mem_iff_getElem?.mp hx
    obtain ⟨ha, hb⟩ := List.getElem?_zip_eq_some.mp hk
    exact Or.inr ⟨k, x.1, x.2, ha, hb, hne⟩

/-- Entries that do not make up for a log are fewer and have the same terms. -/
lemma termIn_of_not_madeUp {l es : List LogEntry} (h : ¬ MadeUp l es) :
    es.length < l.length ∧ RaftNode.termIn l es.length = RaftNode.termIn es es.length := by
  obtain ⟨hlt, hall⟩ := not_or.mp h
  refine ⟨not_le.mp hlt, ?_⟩
  unfold RaftNode.termIn
  split
  · rfl
  · next h0 =>
    have h1 : es.length - 1 < es.length := by omega
    have h2 : es.length - 1 < l.length := by omega
    rw [List.getElem?_eq_getElem h1, List.getElem?_eq_getElem h2]
    by_contra hne
    refine hall ⟨(l[es.length - 1], es[es.length - 1]), ?_, fun he => hne (by simpa using he)⟩
    exact List.mem_of_getElem? (List.getElem?_zip_eq_some.mpr
      ⟨List.getElem?_eq_getElem h2, List.getElem?_eq_getElem h1⟩)

/-- A first part of a log makes up for it only when it is all of it. -/
lemma eq_of_madeUp_of_isPrefix {l es : List LogEntry} (h : MadeUp l es) (hp : es <+: l) : es = l := by
  refine hp.eq_of_length_le ?_
  rcases h with h | ⟨x, hx, hne⟩
  · exact h
  · obtain ⟨k, hk⟩ := List.mem_iff_getElem?.mp hx
    obtain ⟨ha, hb⟩ := List.getElem?_zip_eq_some.mp hk
    obtain ⟨u, rfl⟩ := hp
    rw [List.getElem?_append_left (List.getElem?_eq_some_iff.mp hb).1, hb] at ha
    exact absurd (by rw [Option.some.inj ha]) hne

section Former

variable {k : Former ι} {n n' : RaftNode ι}

lemma Former.after_log (hp : n.log <+: k.log) : (k.after n).log = k.log := by
  simp only [Former.after]
  split
  · next h => exact eq_of_madeUp_of_isPrefix h hp
  · rfl

/-- **A node that is left alone** has nothing more on its disk. -/
lemma Former.Covers.after_eq (h : k.Covers n) : k.after n = k := by
  have hlog := Former.after_log h.log
  have hterm := h.term
  obtain ⟨term, votedFor, log⟩ := k
  simp only [Former.after, Former.mk.injEq] at hlog hterm ⊢
  refine ⟨max_eq_left hterm, ?_, hlog⟩
  rw [if_neg (not_lt.mpr hterm)]
  split
  · cases hv : n.votedFor with
    | none => rfl
    | some c => exact (h.votedFor c hv).2.symm
  · rfl

lemma Former.Covers.remember (h : k.Covers n) {k' : Former ι} (hk : k.remember n = some k') :
    k' = k := by
  unfold Former.remember at hk
  split at hk
  · cases hk
  · rw [← Option.some.inj hk, h.after_eq]

/-- **The term and the vote with what was put back**: the node keeps them or follows. -/
lemma Former.Covers.follows (h : k.Covers n) (hf : n.Follows n') :
    (k.putBack n).Follows ((k.after n').putBack n') := by
  have hterm := h.term
  have hvote : n'.currentTerm = k.term → n'.votedFor.or k.votedFor = k.votedFor := by
    intro he
    cases hv : n'.votedFor with
    | none => rfl
    | some c =>
      rcases hf with ⟨-, hn⟩ | ⟨-, hn⟩
      · exact (h.votedFor c (hn ▸ hv)).2.symm
      · rw [hn] at hv
        cases hv
  by_cases hlt : k.term < n'.currentTerm
  · refine Or.inr ⟨lt_max_of_lt_right hlt, ?_⟩
    simp only [Former.putBack, Former.after, if_pos hlt]
    rcases hf with ⟨he, -⟩ | ⟨-, hn⟩
    · omega
    · exact hn
  · refine Or.inl ⟨max_eq_left (not_lt.mp hlt), ?_⟩
    simp only [Former.putBack, Former.after, if_neg hlt]
    split
    · next he => exact hvote he
    · rfl

/-- **What a node that follows still lacks.** -/
lemma Former.Covers.after (h : k.Covers n) (hf : n.Follows n') (hr : n'.role = .follower)
    (hlog : n'.log <+: (k.after n').log) : (k.after n').Covers n' where
  role := hr
  term := le_max_right _ _
  votedFor c hv := by
    have hterm := h.term
    rcases hf with ⟨he, hn⟩ | ⟨-, hn⟩
    · obtain ⟨h1, h2⟩ := h.votedFor c (hn ▸ hv)
      have heq : n'.currentTerm = k.term := he.trans h1
      refine ⟨by simp [Former.after, heq], ?_⟩
      simp only [Former.after, heq, lt_irrefl, if_false, if_true, hv]
      rfl
    · rw [hn] at hv
      cases hv
  log := hlog

end Former

/-- A thread that makes no call: it does nothing, has found that the timeout has passed, or
applies an entry. -/
def ThreadState.Quiet (x : ThreadState ι) : Prop :=
  x = .idle ∨ x = ⟨.timedOut, none⟩ ∨ ∃ index e, x = ⟨.applying index e, none⟩

omit [DecidableEq ι] in
lemma ThreadState.Quiet.call {x : ThreadState ι} (h : x.Quiet) : x.call = none := by
  rcases h with rfl | rfl | ⟨index, e, rfl⟩ <;> rfl

/-! ### The cluster without restarts -/

namespace Cluster

/-- The cluster in which every node has what it had. -/
def restore (s : Cluster ι) (mem : Memory ι) : Cluster ι :=
  { s with nodes := fun i => ((mem i).map fun k => k.putBack (s.nodes i)).getD (s.nodes i) }

section Restore

variable {s : Cluster ι} {mem : Memory ι} {i : ι} {k : Former ι}

omit [DecidableEq ι] in
lemma restore_of_none (h : mem i = none) : (s.restore mem).nodes i = s.nodes i := by
  simp [restore, h]

omit [DecidableEq ι] in
lemma restore_of_some (h : mem i = some k) :
    (s.restore mem).nodes i = k.putBack (s.nodes i) := by
  simp [restore, h]

omit [DecidableEq ι] in
lemma restore_getD (i : ι) :
    (s.restore mem).nodes i = ((mem i).getD (.of (s.nodes i))).putBack (s.nodes i) := by
  cases h : mem i with
  | none => rw [restore_of_none h, Option.getD_none, Former.putBack, Former.of]
  | some k => rw [restore_of_some h, Option.getD_some]

lemma restore_setNode (h : mem i = none) (n : RaftNode ι) :
    (s.setNode i n).restore mem = (s.restore mem).setNode i n := by
  simp only [restore, setNode, mk.injEq, and_self, and_true]
  funext j
  by_cases hj : j = i
  · subst hj
    simp [h]
  · simp [hj]

/-- What is put back does not depend on when it is forgotten that the node has it again. -/
lemma restore_settle_nodes (j : ι) : (s.restore (mem.settle s)).nodes j =
    ((mem j).map fun k => (k.after (s.nodes j)).putBack (s.nodes j)).getD (s.nodes j) := by
  cases h : mem j with
  | none => simp [restore, Memory.settle, h]
  | some k =>
    simp only [restore, Memory.settle, h, Option.bind_some, Option.map_some, Option.getD_some,
      Former.remember]
    split
    · next he =>
      rw [he]
      rfl
    · rfl

/-- Nodes that are left alone. -/
lemma restore_settle (h : ∀ j k, mem j = some k → k.Covers (s.nodes j)) :
    s.restore (mem.settle s) = s.restore mem := by
  have hnodes : (s.restore (mem.settle s)).nodes = (s.restore mem).nodes := by
    funext j
    rw [restore_settle_nodes]
    cases hj : mem j with
    | none => simp [restore, hj]
    | some k => simp [restore, hj, (h j k hj).after_eq]
  simpa [restore] using hnodes

/-- **A node that lacks something changes.** -/
lemma restore_settle_setNode (hi : mem i = some k)
    (h : ∀ j ≠ i, ∀ k, mem j = some k → k.Covers (s.nodes j)) (n : RaftNode ι) :
    (s.setNode i n).restore (mem.settle (s.setNode i n)) =
      (s.restore mem).setNode i ((k.after n).putBack n) := by
  have hnodes : ((s.setNode i n).restore (mem.settle (s.setNode i n))).nodes =
      ((s.restore mem).setNode i ((k.after n).putBack n)).nodes := by
    funext j
    rw [restore_settle_nodes]
    by_cases hj : j = i
    · subst hj
      simp [hi, setNode]
    · simp only [setNode, Function.update_of_ne hj]
      cases hm : mem j with
      | none => simp [restore, hm]
      | some k => simp [restore, hm, (h j hj k hm).after_eq]
  simpa [restore, setNode] using hnodes

/-- A restart takes all but what is on the disk. -/
lemma restore_restart (i : ι) :
    (s.restart i).restore (Function.update mem i (some ((mem i).getD (.of (s.nodes i))))) =
      { (s.restore mem).setNode i (((mem i).getD (.of (s.nodes i))).putBack RaftNode.init) with
        threads := Function.update s.threads i fun _ => .idle } := by
  simp only [restore, restart, setNode, mk.injEq, and_self, and_true]
  funext j
  by_cases hj : j = i
  · subst hj
    simp
  · simp [hj]

/-- The node whose state an action of its threads reads and changes. -/
def actor (s : Cluster ι) : Action ι → Option ι
  | .timeout _ => none
  | .stand i | .beat i | .build i | .proposePut i _ _ _ | .proposeDel i _ _ | .place i _
  | .notify i _ | .take i | .apply i | .resume i _ _ => some i
  | .handle i th => (s.threads i th).call.map Call.peer
  | .handleLate n => s.late[n]?.map Prod.fst

variable {cfg : Config ι} {s' : Cluster ι}

lemma Returns.restore {th : Thread} {lost : Bool} {pc : Pc ι} {c : Call ι} {resp : Response}
    {s₀ : Cluster ι} (h : s.Returns i th lost pc c resp s₀) (mem : Memory ι) :
    (s.restore mem).Returns i th lost pc c resp (s₀.restore mem) := by
  refine ⟨h.thread, h.outcome, ?_⟩
  rcases h.late with rfl | rfl
  · exact Or.inl rfl
  · exact Or.inr rfl

lemma restore_electionResume (h : mem i = none) (th : Thread) (votes : ℕ) (rest : List ι)
    (req : RequestVoteReq ι) (resp : RequestVoteResp) :
    (s.restore mem).electionResume cfg i th votes rest req resp =
      (s.electionResume cfg i th votes rest req resp).restore mem := by
  unfold electionResume
  rw [restore_of_none h]
  split
  all_goals
    rw [← restore_setNode h]
    rfl

lemma restore_heartbeatResume (h : mem i = none) (th : Thread) (rest : List ι) (p : ι)
    (req : AppendEntriesReq ι) (resp : AppendEntriesResp) :
    (s.restore mem).heartbeatResume cfg i th rest p req resp =
      (s.heartbeatResume cfg i th rest p req resp).restore mem := by
  unfold heartbeatResume
  rw [restore_of_none h]
  split
  all_goals
    rw [← restore_setNode h]
    rfl

lemma restore_proposeResume (h : mem i = none) (th : Thread) (e : LogEntry) (index acks : ℕ)
    (rest : List ι) (req : AppendEntriesReq ι) (resp : AppendEntriesResp) :
    (s.restore mem).proposeResume cfg i th e index acks rest req resp =
      (s.proposeResume cfg i th e index acks rest req resp).restore mem := by
  unfold proposeResume
  rw [restore_of_none h]
  split
  all_goals
    rw [← restore_setNode h]
    rfl

lemma restore_noticeResume (h : mem i = none) (th : Thread) (e : LogEntry) (index : ℕ)
    (rest : List ι) (req : AppendEntriesReq ι) (resp : AppendEntriesResp) :
    (s.restore mem).noticeResume i th e index rest req resp =
      (s.noticeResume i th e index rest req resp).restore mem := by
  unfold noticeResume
  rw [restore_of_none h]
  split
  all_goals
    rw [← restore_setNode h]
    rfl

/-- **A step of a node that counts is a step of the cluster without restarts.** -/
lemma Effect.restore {a : Action ι} (he : Effect cfg s a s') (h : ∀ i ∈ s.actor a, mem i = none) :
    Effect cfg (s.restore mem) a (s'.restore mem) := by
  cases he with
  | timeout i hth hr =>
    refine .timeout i hth ?_
    cases hm : mem i with
    | none => rwa [restore_of_none hm]
    | some k =>
      rw [restore_of_some hm]
      exact hr
  | stand i hth =>
    have hi := h i rfl
    have he : Effect cfg (s.restore mem) _ _ := .stand i hth
    rw [restore_of_none hi, ← restore_setNode hi] at he
    exact he
  | beat i hth hr => exact .beat i hth (by rwa [restore_of_none (h i rfl)])
  | buildEnd i rest hth => exact .buildEnd i rest hth
  | build i p rest hth hr =>
    have hi := h i rfl
    have he : Effect cfg (s.restore mem) _ _ := .build i p rest hth
      (by rwa [restore_of_none hi])
    rw [restore_of_none hi] at he
    exact he
  | refused _ ha => exact .refused a ha
  | propose _ i k e ha hth hr het =>
    have hi : mem i = none := by
      rcases ha with ⟨key, value, rfl⟩ | ⟨key, rfl⟩
      all_goals exact h i rfl
    have he : Effect cfg (s.restore mem) _ _ := .propose a i k e ha hth
      (by rwa [restore_of_none hi]) (by rwa [restore_of_none hi])
    rw [restore_of_none hi, ← restore_setNode hi] at he
    exact he
  | place i k e index hth =>
    have hi := h i rfl
    have he : Effect cfg (s.restore mem) _ _ := .place i k e index hth
    rw [restore_of_none hi] at he
    exact he
  | notifyNone i k e index hth hp => exact .notifyNone i k e index hth hp
  | notify i k e index p rest hth hp =>
    have hi := h i rfl
    have he : Effect cfg (s.restore mem) _ _ := .notify i k e index p rest hth hp
    rw [restore_of_none hi] at he
    exact he
  | take i e hth hlt hget =>
    have hi := h i rfl
    have he : Effect cfg (s.restore mem) _ _ := .take i e hth
      (by rwa [restore_of_none hi]) (by rwa [restore_of_none hi])
    rw [restore_of_none hi, ← restore_setNode hi] at he
    exact he
  | apply i index e hth => exact .apply i index e hth
  | handle i th pc p request hth =>
    have hp := h p (by simp [actor, hth])
    have he : Effect cfg (s.restore mem) _ _ := .handle i th pc p request hth
    rw [restore_of_none hp, ← restore_setNode hp] at he
    exact he
  | handleLate k p request hl =>
    have hp := h p (by simp [actor, hl])
    have he : Effect cfg (s.restore mem) _ _ := .handleLate k p request hl
    rw [restore_of_none hp, ← restore_setNode hp] at he
    exact he
  | election i th lost votes rest p req ans resp s₀ hr =>
    rw [← restore_electionResume (h i rfl)]
    exact .election i th lost votes rest p req ans resp _ (hr.restore mem)
  | heartbeat i th lost rest p req ans resp s₀ hr =>
    rw [← restore_heartbeatResume (h i rfl)]
    exact .heartbeat i th lost rest p req ans resp _ (hr.restore mem)
  | proposal i th lost e index acks rest p req ans resp s₀ hr =>
    rw [← restore_proposeResume (h i rfl)]
    exact .proposal i th lost e index acks rest p req ans resp _ (hr.restore mem)
  | notice i th lost e index rest p req ans resp s₀ hr =>
    rw [← restore_noticeResume (h i rfl)]
    exact .notice i th lost e index rest p req ans resp _ (hr.restore mem)

/-- An update of another node and of one of its threads. -/
lemma frame_of_ne {j : ι} (hj : j ≠ i) {n : RaftNode ι} {th' : Thread} {y : ThreadState ι}
    (hq : ∀ th, (s.threads i th).Quiet) :
    ((s.setNode j n).setThread j th' y).nodes i = s.nodes i ∧
      ∀ th, (((s.setNode j n).setThread j th' y).threads i th).Quiet := by
  refine ⟨?_, fun th => ?_⟩
  · simp [setThread, setNode, hj.symm]
  · simpa [setThread, setNode, hj.symm] using hq th

/-- **The other nodes** and their threads do not notice a step. -/
lemma Effect.frame {a : Action ι} (he : Effect cfg s a s') (ha : s.actor a ≠ some i)
    (hq : ∀ th, (s.threads i th).Quiet) :
    s'.nodes i = s.nodes i ∧ ∀ th, (s'.threads i th).Quiet := by
  have hthread : ∀ {j : ι} {th' : Thread} {y : ThreadState ι}, j ≠ i →
      ∀ th, ((s.setThread j th' y).threads i th).Quiet := by
    intro j th' y hj th
    simpa [setThread, hj.symm] using hq th
  have hne : ∀ {j : ι}, s.actor a = some j → j ≠ i := by
    rintro j hj rfl
    exact ha hj
  cases he with
  | timeout j =>
    have hx : ∀ k th, k = i →
        ((s.setThread j .election ⟨.timedOut, none⟩).threads k th).Quiet :=
      forall_setThread (P := fun k y => k = i → y.Quiet) (fun k th hk => hk ▸ hq th)
        fun _ => Or.inr (Or.inl rfl)
    exact ⟨rfl, fun th => hx i th rfl⟩
  | refused => exact ⟨rfl, hq⟩
  | stand j => exact frame_of_ne (hne rfl) hq
  | beat j => exact ⟨rfl, hthread (hne rfl)⟩
  | buildEnd j => exact ⟨rfl, hthread (hne rfl)⟩
  | build j => exact ⟨rfl, hthread (hne rfl)⟩
  | propose _ j k e hpr =>
    have hj : j ≠ i := by
      rcases hpr with ⟨key, value, rfl⟩ | ⟨key, rfl⟩
      all_goals exact hne rfl
    exact frame_of_ne hj hq
  | place j => exact ⟨rfl, hthread (hne rfl)⟩
  | notifyNone j => exact ⟨rfl, hthread (hne rfl)⟩
  | notify j => exact ⟨rfl, hthread (hne rfl)⟩
  | take j => exact frame_of_ne (hne rfl) hq
  | apply j => exact ⟨rfl, hthread (hne rfl)⟩
  | handle j th' pc p request hth =>
    -- the thread that called is not quiet
    have hj : j ≠ i := by
      rintro rfl
      have := (hq th').call
      simp [hth] at this
    have hp : p ≠ i := hne (by simp [actor, hth])
    refine ⟨?_, fun th => ?_⟩
    · simp [setThread, setNode, hp.symm]
    · simpa [setThread, setNode, hj.symm] using hq th
  | handleLate k p request hl =>
    have hp : p ≠ i := hne (by simp [actor, hl])
    refine ⟨?_, hq⟩
    simp [setNode, hp.symm]
  | election j th' lost votes rest p req ans resp s₀ hr =>
    have hj : j ≠ i := hne rfl
    rcases hr.late with rfl | rfl
    all_goals
      unfold electionResume
      split
      all_goals exact frame_of_ne hj hq
  | heartbeat j th' lost rest p req ans resp s₀ hr =>
    have hj : j ≠ i := hne rfl
    rcases hr.late with rfl | rfl
    all_goals
      unfold heartbeatResume
      split
      all_goals exact frame_of_ne hj hq
  | proposal j th' lost e index acks rest p req ans resp s₀ hr =>
    have hj : j ≠ i := hne rfl
    rcases hr.late with rfl | rfl
    all_goals
      unfold proposeResume
      split
      all_goals exact frame_of_ne hj hq
  | notice j th' lost e index rest p req ans resp s₀ hr =>
    have hj : j ≠ i := hne rfl
    rcases hr.late with rfl | rfl
    all_goals
      unfold noticeResume
      split
      all_goals exact frame_of_ne hj hq

end Restore

end Cluster

end VeriStore.Raft

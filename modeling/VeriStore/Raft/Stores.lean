import VeriStore.Lib.History
import VeriStore.Raft.Bounds
import VeriStore.Store.Replays

/-!
The stores of a cluster.

The apply thread of every node takes the committed entries one by one and applies each to the store
of the node, outside the lock of the node. Whatever the schedule, a node applies the indices one,
two, three and so on, each once (`applied_in_order`). In disciplined runs the nodes apply the same
entries, so that there is one history, and every store is at any time what the first entries of it
make (`one_history`); an acknowledged proposal is in the history at its index
(`acked_in_history`).
-/

namespace VeriStore.Raft

open VeriStore.Lib VeriStore.Store Relation

set_option linter.unusedSectionVars false

variable {ι : Type} [DecidableEq ι]

/-! ### The system -/

/-- The nodes of a cluster and the store of each of them. -/
structure Service (ι : Type) where
  cluster : Cluster ι
  stores : ι → KVStore

namespace Service

def start (stores : ι → KVStore) : Service ι := ⟨Cluster.init, stores⟩

/-- What a step does to the stores: the apply thread hands over the entry it has taken. -/
def applied (x : Service ι) : Action ι → ι → KVStore
  | .apply i =>
    match (x.cluster.threads i .apply).pc with
    | .applying _ e => Function.update x.stores i ((x.stores i).applyEntry e)
    | _ => x.stores
  | _ => x.stores

def step (cfg : Config ι) (x : Service ι) (a : Action ι) : Option (Service ι) :=
  (x.cluster.step cfg a).map fun s => ⟨s, x.applied a⟩

def run (cfg : Config ι) (x : Service ι) (as : List (Action ι)) : Option (Service ι) :=
  as.foldlM (step cfg) x

variable {cfg : Config ι} {x x' : Service ι}

lemma run_cons {a : Action ι} {as : List (Action ι)} (h : x.run cfg (a :: as) = some x') :
    ∃ x₁, x.step cfg a = some x₁ ∧ x₁.run cfg as = some x' :=
  Option.bind_eq_some_iff.mp (show (x.step cfg a).bind (fun x₁ => x₁.run cfg as) = some x' from h)

lemma step_cluster {a : Action ι} (h : x.step cfg a = some x') :
    x.cluster.step cfg a = some x'.cluster ∧ x'.stores = x.applied a := by
  obtain ⟨s, hs, rfl⟩ := Option.map_eq_some_iff.mp h
  exact ⟨hs, rfl⟩

/-- The cluster does not depend on the stores. -/
lemma run_cluster {as : List (Action ι)} (h : x.run cfg as = some x') :
    x.cluster.run cfg as = some x'.cluster := by
  induction as generalizing x with
  | nil =>
    obtain rfl := Option.some.inj h
    rfl
  | cons a as ih =>
    obtain ⟨x₁, hs, hrest⟩ := run_cons h
    exact Option.bind_eq_some_iff.mpr ⟨x₁.cluster, (step_cluster hs).1, ih hrest⟩

/-- Every run of the cluster is one with stores. -/
lemma exists_run {as : List (Action ι)} {s : Cluster ι} (h : x.cluster.run cfg as = some s) :
    ∃ x', x.run cfg as = some x' ∧ x'.cluster = s := by
  induction as generalizing x with
  | nil => exact ⟨x, rfl, Option.some.inj h⟩
  | cons a as ih =>
    obtain ⟨s₁, hs, hrest⟩ := Cluster.run_cons h
    obtain ⟨x', hx', rfl⟩ := ih (x := ⟨s₁, x.applied a⟩) hrest
    exact ⟨x', Option.bind_eq_some_iff.mpr ⟨_, Option.map_eq_some_iff.mpr ⟨s₁, hs, rfl⟩, hx'⟩, rfl⟩

/-- The two parts of a run. -/
lemma run_append {as bs : List (Action ι)} {y : Service ι} (h : x.run cfg (as ++ bs) = some x')
    (hy : x.run cfg as = some y) : y.run cfg bs = some x' := by
  unfold run at h hy
  rw [List.foldlM_append, hy] at h
  exact h

end Service

/-! ### What a node has applied -/

def ThreadState.isIdle : ThreadState ι → Bool
  | ⟨.idle, none⟩ => true
  | _ => false

lemma ThreadState.eq_idle {x : ThreadState ι} (h : x.isIdle = true) : x = .idle := by
  unfold isIdle at h
  split at h
  · rfl
  · cases h

/-- The numbered entries a node has applied, the oldest first. -/
def Cluster.appliedBy (s : Cluster ι) (i : ι) : List (ℕ × LogEntry) :=
  ((s.applied.filter fun y => y.1 = i).map fun y => y.2).reverse

/-- The entries a node has applied, the oldest first. -/
def Cluster.entriesOf (s : Cluster ι) (i : ι) : List LogEntry := (s.appliedBy i).map Prod.snd

lemma Cluster.mem_appliedBy {s : Cluster ι} {i : ι} {y : ℕ × LogEntry} :
    y ∈ s.appliedBy i ↔ (i, y) ∈ s.applied := by
  simp [appliedBy]

/-! ### The apply thread -/

namespace RaftNode

lemma handle_lastApplied (n : RaftNode ι) (request : Request ι) :
    (n.handle request).1.lastApplied = n.lastApplied := by
  cases request with
  | vote req => exact n.onRequestVote_lastApplied req
  | append req => exact n.onAppendEntries_lastApplied req

lemma lastApplied_of_frame {n n' : RaftNode ι} {t : ℕ}
    (h : n' = n ∨ (n.currentTerm < t ∧ n' = n.becomeFollower t none)) :
    n'.lastApplied = n.lastApplied := by
  rcases h with rfl | ⟨-, rfl⟩ <;> rfl

lemma heartbeatReply_lastApplied (n : RaftNode ι) (peers : List ι) (p : ι)
    (req : AppendEntriesReq ι) (resp : AppendEntriesResp) :
    (n.heartbeatReply peers p req resp).1.lastApplied = n.lastApplied := by
  rcases n.heartbeatReply_frame peers p req resp with ⟨-, e⟩ | ⟨next, mtch, c, e⟩
  · rw [e]
    rfl
  · rw [e]

lemma electionReply_lastApplied (n : RaftNode ι) (self : ι) (peers : List ι) (t votes : ℕ)
    (resp : RequestVoteResp) :
    (n.electionReply self peers t votes resp).1.lastApplied = n.lastApplied := by
  rcases n.electionReply_cases self peers t votes resp with ⟨n', e, h⟩ | ⟨-, -, -, e⟩ | e
  · rw [e]
    exact lastApplied_of_frame h
  · rw [e]
    rfl
  · rw [e]

end RaftNode

/-- What the apply thread of a node and what it has done look like in `s'`, when nothing of it has
changed since `s`. -/
structure Cluster.SameApply (s s' : Cluster ι) (i : ι) : Prop where
  thread : s'.threads i .apply = s.threads i .apply
  last : (s'.nodes i).lastApplied = (s.nodes i).lastApplied
  applied : s'.appliedBy i = s.appliedBy i

section Frame

variable {cfg : Config ι} {s s' s'' : Cluster ι} {i j : ι}

namespace Cluster

lemma SameApply.refl (s : Cluster ι) (i : ι) : s.SameApply s i := ⟨rfl, rfl, rfl⟩

lemma SameApply.trans (h : s.SameApply s' i) (h' : s'.SameApply s'' i) : s.SameApply s'' i :=
  ⟨h'.thread.trans h.thread, h'.last.trans h.last, h'.applied.trans h.applied⟩

lemma sameApply_setNode {n : RaftNode ι} (hn : n.lastApplied = (s.nodes j).lastApplied) :
    s.SameApply (s.setNode j n) i where
  thread := rfl
  last := by
    by_cases hj : i = j
    · subst hj
      simpa [setNode] using hn
    · simp [setNode, hj]
  applied := rfl

lemma sameApply_setThread {th : Thread} {y : ThreadState ι} (h : (j, th) ≠ (i, Thread.apply)) :
    s.SameApply (s.setThread j th y) i where
  thread := by
    by_cases hj : i = j
    · subst hj
      have hne : Thread.apply ≠ th := fun e => h (by rw [e])
      simp [setThread, hne]
    · simp [setThread, hj]
  last := rfl
  applied := rfl

/-- A node and a thread change; the node does not apply anything, and the thread is another one. -/
lemma sameApply_set {p : ι} {n : RaftNode ι} {th : Thread} {y : ThreadState ι}
    (hn : n.lastApplied = (s.nodes p).lastApplied) (h : (j, th) ≠ (i, Thread.apply)) :
    s.SameApply ((s.setNode p n).setThread j th y) i :=
  (sameApply_setNode hn).trans (sameApply_setThread h)

lemma sameApply_electionResume {th : Thread} {votes : ℕ} {rest : List ι} {req : RequestVoteReq ι}
    {resp : RequestVoteResp} (h : (j, th) ≠ (i, Thread.apply)) :
    s.SameApply (s.electionResume cfg j th votes rest req resp) i := by
  have hn := (s.nodes j).electionReply_lastApplied j (cfg.peers j) req.term votes resp
  unfold electionResume
  split
  · next n e =>
    rw [e] at hn
    exact sameApply_set hn h
  · next n e =>
    rw [e] at hn
    have hs : s.SameApply ((s.setNode j n).setThread j th .idle) i := sameApply_set hn h
    exact ⟨hs.thread, hs.last, rfl⟩
  · next n votes e =>
    rw [e] at hn
    exact sameApply_set hn h

lemma sameApply_heartbeatResume {th : Thread} {rest : List ι} {p : ι} {req : AppendEntriesReq ι}
    {resp : AppendEntriesResp} (h : (j, th) ≠ (i, Thread.apply)) :
    s.SameApply (s.heartbeatResume cfg j th rest p req resp) i := by
  have hn := (s.nodes j).heartbeatReply_lastApplied (cfg.peers j) p req resp
  unfold heartbeatResume
  split
  all_goals
    next n e =>
    rw [e] at hn
    exact sameApply_set hn h

lemma sameApply_proposeResume {th : Thread} {e : LogEntry} {index acks : ℕ} {rest : List ι}
    {req : AppendEntriesReq ι} {resp : AppendEntriesResp} (h : (j, th) ≠ (i, Thread.apply)) :
    s.SameApply (s.proposeResume cfg j th e index acks rest req resp) i := by
  have hn := RaftNode.lastApplied_of_frame ((s.nodes j).proposeReply_frame (cfg.peers j) acks resp)
  unfold proposeResume
  split
  · next n hp =>
    rw [hp] at hn
    exact sameApply_set hn h
  · next n hp =>
    rw [hp] at hn
    exact sameApply_set hn h
  · next n acks' hp =>
    rw [hp] at hn
    exact sameApply_set hn h

lemma sameApply_noticeResume {th : Thread} {e : LogEntry} {index : ℕ} {rest : List ι}
    {req : AppendEntriesReq ι} {resp : AppendEntriesResp} (h : (j, th) ≠ (i, Thread.apply)) :
    s.SameApply (s.noticeResume j th e index rest req resp) i := by
  have hn := RaftNode.lastApplied_of_frame ((s.nodes j).noticeReply_frame resp)
  unfold noticeResume
  split
  · next n q rest hp =>
    rw [hp] at hn
    exact sameApply_set hn h
  · next n go hp _ =>
    rw [hp] at hn
    have hs : s.SameApply ((s.setNode j n).setThread j th .idle) i := sameApply_set hn h
    exact ⟨hs.thread, hs.last, rfl⟩

/-- A thread that waits for a call is not an apply thread. -/
lemma Returns.ne_apply {th : Thread} {lost : Bool} {pc : Pc ι} {c : Call ι} {resp : Response}
    {s₀ : Cluster ι} (h : s.Returns j th lost pc c resp s₀)
    (hi : (s.threads i .apply).call = none) :
    (j, th) ≠ (i, Thread.apply) ∧ s.SameApply s₀ i := by
  refine ⟨fun e => ?_, ?_⟩
  · obtain ⟨rfl, rfl⟩ := Prod.mk.inj e
    rw [h.thread] at hi
    simp at hi
  · rcases h.late with rfl | rfl
    · exact .refl _ _
    · exact ⟨rfl, rfl, rfl⟩

/-- **What a step does to the apply thread of a node**: the thread takes the next entry, or it
applies the one it has taken, or nothing. -/
theorem Effect.apply_cases {a : Action ι} (he : Effect cfg s a s')
    (hi : (s.threads i .apply).call = none) :
    (a ≠ .apply i ∧ s.SameApply s' i) ∨
    (∃ e, a = .take i ∧ s.threads i .apply = .idle ∧
      s'.threads i .apply = ⟨.applying ((s.nodes i).lastApplied + 1) e, none⟩ ∧
      (s'.nodes i).lastApplied = (s.nodes i).lastApplied + 1 ∧ s'.appliedBy i = s.appliedBy i) ∨
    ∃ index e, a = .apply i ∧ s.threads i .apply = ⟨.applying index e, none⟩ ∧
      s'.threads i .apply = .idle ∧ (s'.nodes i).lastApplied = (s.nodes i).lastApplied ∧
      s'.appliedBy i = s.appliedBy i ++ [(index, e)] := by
  cases he with
  | timeout | beat | buildEnd | build | place | notify =>
    exact Or.inl ⟨by simp, sameApply_setThread fun e => by simp at e⟩
  | notifyNone j k =>
    have hs : s.SameApply (s.setThread j (.client k) .idle) i :=
      sameApply_setThread fun e => by simp at e
    exact Or.inl ⟨by simp, hs.thread, rfl, rfl⟩
  | refused _ ha =>
    left
    refine ⟨?_, .refl _ _⟩
    rcases ha with ⟨j, k, key, value, rfl⟩ | ⟨j, k, key, rfl⟩
    · simp
    · simp
  | stand j => exact Or.inl ⟨by simp, sameApply_set rfl fun e => by simp at e⟩
  | propose _ j k e ha =>
    left
    refine ⟨?_, sameApply_set rfl fun e => by simp at e⟩
    rcases ha with ⟨key, value, rfl⟩ | ⟨key, rfl⟩
    · simp
    · simp
  | take j e hth hlt hget =>
    by_cases hj : j = i
    · subst hj
      right
      left
      exact ⟨e, rfl, hth, by simp [setThread], by simp [setThread, setNode, RaftNode.noteApplied], rfl⟩
    · left
      refine ⟨by simp, ?_, ?_, rfl⟩
      · simp [setThread, setNode, Ne.symm hj]
      · simp [setThread, setNode, Ne.symm hj]
  | apply j index e hth =>
    by_cases hj : j = i
    · subst hj
      right
      right
      exact ⟨index, e, rfl, hth, by simp [setThread], rfl, by simp [appliedBy]⟩
    · left
      refine ⟨fun he => hj (Action.apply.inj he), ?_, rfl, ?_⟩
      · simp [setThread, Ne.symm hj]
      · simp [appliedBy, hj]
  | handle j th pc p request hth =>
    left
    refine ⟨by simp, sameApply_set (RaftNode.handle_lastApplied _ _) fun e => ?_⟩
    obtain ⟨rfl, rfl⟩ := Prod.mk.inj e
    rw [hth] at hi
    simp at hi
  | handleLate n p request =>
    left
    have hs : s.SameApply (s.setNode p ((s.nodes p).handle request).1) i :=
      sameApply_setNode (RaftNode.handle_lastApplied _ _)
    exact ⟨by simp, hs.thread, hs.last, rfl⟩
  | election j th lost votes rest p req ans resp s₀ hr =>
    exact Or.inl ⟨by simp, (hr.ne_apply hi).2.trans (sameApply_electionResume (hr.ne_apply hi).1)⟩
  | heartbeat j th lost rest p req ans resp s₀ hr =>
    exact Or.inl ⟨by simp, (hr.ne_apply hi).2.trans (sameApply_heartbeatResume (hr.ne_apply hi).1)⟩
  | proposal j th lost e index acks rest p req ans resp s₀ hr =>
    exact Or.inl ⟨by simp, (hr.ne_apply hi).2.trans (sameApply_proposeResume (hr.ne_apply hi).1)⟩
  | notice j th lost e index rest p req ans resp s₀ hr =>
    exact Or.inl ⟨by simp, (hr.ne_apply hi).2.trans (sameApply_noticeResume (hr.ne_apply hi).1)⟩

/-- A node has applied the entries with the numbers from one on, each once; its apply thread is idle
or about to apply the next one. -/
structure AppliesInOrder (s : Cluster ι) (i : ι) : Prop where
  numbers : (s.appliedBy i).map Prod.fst = List.range' 1 (s.appliedBy i).length
  thread : (s.threads i .apply = .idle ∧ (s.nodes i).lastApplied = (s.appliedBy i).length) ∨
    ∃ e, s.threads i .apply = ⟨.applying ((s.appliedBy i).length + 1) e, none⟩ ∧
      (s.nodes i).lastApplied = (s.appliedBy i).length + 1

lemma AppliesInOrder.call (h : s.AppliesInOrder i) : (s.threads i .apply).call = none := by
  rcases h.thread with ⟨he, -⟩ | ⟨e, he, -⟩
  · rw [he]
    rfl
  · rw [he]

lemma AppliesInOrder.same (h : s.AppliesInOrder i) (hs : s.SameApply s' i) :
    s'.AppliesInOrder i := by
  obtain ⟨h1, h2⟩ := h
  exact ⟨by rw [hs.applied, h1], by rw [hs.thread, hs.last, hs.applied]; exact h2⟩

/-- **A step keeps the order.** -/
theorem AppliesInOrder.effect (h : s.AppliesInOrder i) {a : Action ι} (he : Effect cfg s a s') :
    s'.AppliesInOrder i ∧ s.appliedBy i <+: s'.appliedBy i := by
  rcases he.apply_cases h.call with ⟨-, hs⟩ | ⟨e, -, hidle, hth, hlast, happ⟩ |
    ⟨index, e, -, hth, hidle, hlast, happ⟩
  · exact ⟨h.same hs, hs.applied ▸ List.prefix_rfl⟩
  · have hk : (s.nodes i).lastApplied = (s.appliedBy i).length := by
      rcases h.thread with ⟨-, hk⟩ | ⟨e', he', -⟩
      · exact hk
      · simp [hidle, ThreadState.idle] at he'
    refine ⟨⟨by rw [happ, h.numbers], Or.inr ⟨e, ?_, ?_⟩⟩, happ ▸ List.prefix_rfl⟩
    · rw [hth, hk, happ]
    · rw [hlast, hk, happ]
  · have hk : (s.nodes i).lastApplied = (s.appliedBy i).length + 1 ∧
        index = (s.appliedBy i).length + 1 := by
      rcases h.thread with ⟨he', -⟩ | ⟨e', he', hk⟩
      · simp [hth, ThreadState.idle] at he'
      · rw [hth] at he'
        simp only [ThreadState.mk.injEq, Pc.applying.injEq] at he'
        exact ⟨hk, he'.1.1⟩
    refine ⟨⟨?_, Or.inl ⟨hidle, ?_⟩⟩, happ ▸ List.prefix_append _ _⟩
    · rw [happ, List.map_append, h.numbers, List.length_append, List.length_singleton,
        List.range'_concat, hk.2]
      simp [Nat.add_comm]
    · rw [hlast, hk.1, happ, List.length_append, List.length_singleton]

lemma init_appliesInOrder : (init : Cluster ι).AppliesInOrder i :=
  ⟨rfl, Or.inl ⟨rfl, rfl⟩⟩

/-- The entry at a position is the one with the next number. -/
lemma AppliesInOrder.mem_applied (h : s.AppliesInOrder i) {k : ℕ} {e : LogEntry}
    (he : (s.entriesOf i)[k]? = some e) : (i, k + 1, e) ∈ s.applied := by
  unfold entriesOf at he
  rw [List.getElem?_map] at he
  obtain ⟨y, hy, rfl⟩ := Option.map_eq_some_iff.mp he
  have hlt := (List.getElem?_eq_some_iff.mp hy).1
  have hnum : ((s.appliedBy i).map Prod.fst)[k]? = some y.1 := by
    rw [List.getElem?_map, hy]
    rfl
  rw [h.numbers, List.getElem?_range' hlt] at hnum
  have hk : k + 1 = y.1 := by
    have := Option.some.inj hnum
    omega
  rw [hk]
  exact mem_appliedBy.mp (List.mem_of_getElem? hy)

end Cluster

end Frame

/-! ### Every run -/

namespace Service

section Runs

variable {cfg : Config ι} {x x' : Service ι} {stores : ι → KVStore}

/-- **What a store holds**: the entries of its node, applied in order to what it held at first. -/
structure Holds (stores : ι → KVStore) (x : Service ι) (i : ι) : Prop where
  order : x.cluster.AppliesInOrder i
  store : x.stores i = (stores i).applyEntries (x.cluster.entriesOf i)

lemma start_holds (stores : ι → KVStore) (i : ι) : (start stores).Holds stores i :=
  ⟨Cluster.init_appliesInOrder, rfl⟩

/-- The store of a node changes when its apply thread applies an entry. -/
lemma applied_of_ne (x : Service ι) {a : Action ι} {i : ι} (h : a ≠ .apply i) :
    x.applied a i = x.stores i := by
  unfold applied
  split
  · next j =>
    have hj : i ≠ j := fun e => h (e ▸ rfl)
    generalize (x.cluster.threads j .apply).pc = pc
    cases pc with
    | applying index e => simp [hj]
    | _ => rfl
  · rfl

lemma applied_apply (x : Service ι) {i : ι} {index : ℕ} {e : LogEntry}
    (h : x.cluster.threads i .apply = ⟨.applying index e, none⟩) :
    x.applied (.apply i) i = (x.stores i).applyEntry e := by
  simp [applied, h]

/-- **A step.** -/
lemma Holds.step {i : ι} (h : x.Holds stores i) {a : Action ι} (hs : x.step cfg a = some x') :
    x'.Holds stores i ∧ x.cluster.appliedBy i <+: x'.cluster.appliedBy i := by
  obtain ⟨hcl, hst⟩ := step_cluster hs
  have he := Cluster.step_effect hcl
  obtain ⟨horder, hpre⟩ := h.order.effect he
  refine ⟨⟨horder, ?_⟩, hpre⟩
  rcases he.apply_cases h.order.call with ⟨hne, hsame⟩ | ⟨e, rfl, -, -, -, happ⟩ |
    ⟨index, e, rfl, hth, -, -, happ⟩
  · rw [hst, x.applied_of_ne hne, h.store, Cluster.entriesOf, Cluster.entriesOf, hsame.applied]
  · rw [hst, Cluster.entriesOf, happ]
    exact h.store
  · rw [hst, x.applied_apply hth, h.store, Cluster.entriesOf, Cluster.entriesOf, happ,
      List.map_append, KVStore.applyEntries, KVStore.applyEntries, List.foldl_append]
    rfl

/-- **A run.** -/
lemma Holds.run {i : ι} (h : x.Holds stores i) {as : List (Action ι)}
    (hrun : x.run cfg as = some x') :
    x'.Holds stores i ∧ x.cluster.appliedBy i <+: x'.cluster.appliedBy i := by
  induction as generalizing x with
  | nil =>
    obtain rfl := Option.some.inj hrun
    exact ⟨h, List.prefix_rfl⟩
  | cons a as ih =>
    obtain ⟨x₁, hs, hrest⟩ := run_cons hrun
    obtain ⟨h₁, hp₁⟩ := h.step hs
    obtain ⟨h₂, hp₂⟩ := ih h₁ hrest
    exact ⟨h₂, hp₁.trans hp₂⟩

end Runs

end Service

/-- **Entries are applied in order.** In every run, whatever the schedule, a node applies the
indices one, two, three and so on, each once; its `lastApplied` counts them, and is one ahead exactly
while its apply thread holds an entry; and its store is what these entries make of the store it
started with. -/
theorem applied_in_order (cfg : Config ι) {as : List (Action ι)} {stores : ι → KVStore}
    {x : Service ι} (hrun : (Service.start stores).run cfg as = some x) (i : ι) :
    (x.cluster.appliedBy i).map Prod.fst = List.range' 1 (x.cluster.appliedBy i).length ∧
      (x.cluster.threads i .apply = .idle ∧
          (x.cluster.nodes i).lastApplied = (x.cluster.appliedBy i).length ∨
        (x.cluster.nodes i).lastApplied = (x.cluster.appliedBy i).length + 1 ∧
          ∃ e, (x.cluster.threads i .apply).pc = .applying (x.cluster.nodes i).lastApplied e) ∧
      x.stores i = (stores i).applyEntries (x.cluster.entriesOf i) := by
  obtain ⟨⟨⟨hnum, hth⟩, hstore⟩, -⟩ := (Service.start_holds stores i).run hrun
  refine ⟨hnum, ?_, hstore⟩
  rcases hth with hidle | ⟨e, he, hk⟩
  · exact Or.inl hidle
  · exact Or.inr ⟨hk, e, by rw [he, hk]⟩

/-! ### One history -/

section Settled

variable [Fintype ι] {r : Logs ι}

/-- The entry that is applied at an index is the one a settled list has there. -/
lemma Applied.unique_of {index : ℕ} {e e' : LogEntry} (h : Applied r index e)
    (hi : r.Inv LogEntry.term) {t : ℕ} {p : List LogEntry} (hp : r.Settled LogEntry.term t p)
    (he' : p[index - 1]? = some e') : e = e' := by
  obtain ⟨t', p', hp', -, he⟩ := h
  rcases hp'.agree hp hi with ⟨u, rfl⟩ | ⟨u, rfl⟩
  · rw [List.getElem?_append_left (List.getElem?_eq_some_iff.mp he).1, he] at he'
    exact Option.some.inj he'
  · rw [List.getElem?_append_left (List.getElem?_eq_some_iff.mp he').1, he'] at he
    exact (Option.some.inj he).symm

lemma Applied.unique {index : ℕ} {e e' : LogEntry} (h : Applied r index e)
    (h' : Applied r index e') (hi : r.Inv LogEntry.term) : e = e' := by
  obtain ⟨t, p, hp, -, he'⟩ := h'
  exact h.unique_of hi hp he'

/-- What the nodes have applied agrees. -/
lemma Commits.agree {cfg : Config ι} {s : Cluster ι} (hc : Commits cfg s r)
    (hi : r.Inv LogEntry.term) (ho : ∀ i, s.AppliesInOrder i) (i j : ι) :
    Agree (s.entriesOf i) (s.entriesOf j) := fun _ _ _ ha hb =>
  (hc.applied _ _ _ ((ho i).mem_applied ha)).unique (hc.applied _ _ _ ((ho j).mem_applied hb)) hi

end Settled

/-- What the nodes have applied are first parts of one list, and the list has the acknowledged
entries at their indices. -/
lemma Service.exists_history_acked [Fintype ι] (cfg : Config ι) {as : List (Action ι)}
    {stores : ι → KVStore} {x : Service ι} (hrun : (Service.start stores).run cfg as = some x)
    (ha : Cluster.init.AllMeet cfg Cluster.Disciplined as) :
    ∃ history : List LogEntry, (history = [] ∨ ∃ i, history = x.cluster.entriesOf i) ∧
      (∀ i, x.cluster.entriesOf i <+: history) ∧
      ∀ i index e, (i, index, e) ∈ x.cluster.acked →
        0 < index ∧ (index ≤ history.length → history[index - 1]? = some e) := by
  obtain ⟨r, hm, ht, hc⟩ := run_disciplined init_tracks Replicas.init_inv init_commits ha
    (Service.run_cluster hrun)
  have hi := (Replicas.init_inv.steps hm).1
  have hx := fun i => ((Service.start_holds stores i).run hrun).1.order
  obtain ⟨history, hpre, hend⟩ := exists_history x.cluster.entriesOf (hc.agree hi hx)
  refine ⟨history, hend, hpre, fun i index e hack => ?_⟩
  obtain ⟨⟨-, hpos, he⟩, hch⟩ := ht.acked i index e hack
  refine ⟨hpos, fun hlen => ?_⟩
  rcases hend with rfl | ⟨j, rfl⟩
  · exact absurd hlen (by simpa using hpos.ne')
  · have hset : r.Settled LogEntry.term e.term ((r.leaderLog e.term).take index) :=
      Or.inr ⟨e.term, index, le_rfl, hch, List.prefix_rfl⟩
    have hget := List.getElem?_eq_getElem (show index - 1 < (x.cluster.entriesOf j).length by omega)
    have hnum := (hx j).mem_applied hget
    rw [Nat.sub_add_cancel hpos] at hnum
    rw [hget, (hc.applied j index _ hnum).unique_of hi hset (by
      rw [List.getElem?_take_of_lt (by omega)]
      exact he)]

/-- The second node has applied the entry at the first index, and its store has the pair. -/
theorem applied_in_order_second : ∃ x,
    (Service.start fun _ => KVStore.new).run threeNodes replicateAndApply = some x ∧
      (x.cluster.appliedBy 1).map Prod.fst = [1] ∧ (x.stores 1).get (text "a") = some (text "1") := by
  have h : (Cluster.init.run threeNodes replicateAndApply).map (fun s => s.appliedBy 1) =
      some [(1, ⟨1, .put, text "a", text "1"⟩)] := by
    decide +kernel
  obtain ⟨s, hs, happ⟩ := Option.map_eq_some_iff.mp h
  obtain ⟨x, hrun, rfl⟩ := Service.exists_run (x := .start fun _ => KVStore.new) hs
  obtain ⟨hnum, -, hstore⟩ := applied_in_order threeNodes hrun 1
  refine ⟨x, hrun, by rw [hnum, happ]; rfl, ?_⟩
  rw [hstore, Cluster.entriesOf, happ]
  decide +kernel

/-- **There is one history.** In every disciplined run from equal stores there is a list of entries
so that at any moment of the run the store of any node is what a first part of the list makes, as
long as the number of entries the node has applied; the part never gets shorter, and nothing is in
the list that no node applies. -/
theorem one_history [Fintype ι] (cfg : Config ι) {as : List (Action ι)} {s₀ : KVStore}
    {x : Service ι} (hrun : (Service.start fun _ => s₀).run cfg as = some x)
    (ha : Cluster.init.AllMeet cfg Cluster.Disciplined as) :
    ∃ history : List LogEntry, (history = [] ∨ ∃ i, history = x.cluster.entriesOf i) ∧
      ∀ bs cs ds y z, as = bs ++ cs ++ ds → (Service.start fun _ => s₀).run cfg bs = some y →
        y.run cfg cs = some z → ∀ i,
          y.stores i = s₀.applyEntries (history.take (y.cluster.entriesOf i).length) ∧
          (y.cluster.entriesOf i).length ≤ (z.cluster.entriesOf i).length ∧
          (z.cluster.entriesOf i).length ≤ history.length := by
  obtain ⟨history, hend, hpre, -⟩ := Service.exists_history_acked cfg hrun ha
  refine ⟨history, hend, fun bs cs ds y z has hy hz i => ?_⟩
  have hy' := ((Service.start_holds (fun _ => s₀) i).run hy).1
  obtain ⟨hz', hyz⟩ := hy'.run hz
  have hzx : z.cluster.appliedBy i <+: x.cluster.appliedBy i := by
    rw [has, List.append_assoc] at hrun
    exact (hz'.run (Service.run_append (Service.run_append hrun hy) hz)).2
  have hz_le : z.cluster.entriesOf i <+: history := (hzx.map Prod.snd).trans (hpre i)
  have hy_le : y.cluster.entriesOf i <+: z.cluster.entriesOf i := hyz.map Prod.snd
  refine ⟨?_, hy_le.length_le, hz_le.length_le⟩
  rw [← List.prefix_iff_eq_take.mp (hy_le.trans hz_le)]
  exact hy'.store

/-- Both nodes have come to the end of a history of one entry. -/
theorem one_history_two_nodes : ∃ (x : Service (Fin 3)) (history : List LogEntry),
    (Service.start fun _ => KVStore.new).run threeNodes replicateAndApply = some x ∧
      x.stores 0 = KVStore.new.applyEntries (history.take 1) ∧
      x.stores 1 = KVStore.new.applyEntries (history.take 1) := by
  have h : (Cluster.init.run threeNodes replicateAndApply).map (fun s =>
      ((s.entriesOf 0).length, (s.entriesOf 1).length)) = some (1, 1) := by
    decide +kernel
  obtain ⟨s, hs, happ⟩ := Option.map_eq_some_iff.mp h
  obtain ⟨h0, h1⟩ := Prod.mk.inj happ
  obtain ⟨x, hrun, rfl⟩ := Service.exists_run (x := .start fun _ => KVStore.new) hs
  obtain ⟨history, -, hall⟩ := one_history threeNodes hrun (by decide +kernel)
  have hat := hall replicateAndApply [] [] x x (by simp) hrun rfl
  exact ⟨x, history, hrun, h0 ▸ (hat 0).1, h1 ▸ (hat 1).1⟩

/-- **An acknowledged proposal is part of the history.** In every disciplined run, when a proposal
has returned true, every node that has applied as many entries as the index of its entry has
applied this entry there. -/
theorem acked_in_history [Fintype ι] (cfg : Config ι) {as : List (Action ι)} {stores : ι → KVStore}
    {x : Service ι} (hrun : (Service.start stores).run cfg as = some x)
    (ha : Cluster.init.AllMeet cfg Cluster.Disciplined as) {i j : ι} {index : ℕ} {e : LogEntry}
    (hack : (i, index, e) ∈ x.cluster.acked)
    (hj : index ≤ (x.cluster.entriesOf j).length) :
    0 < index ∧ (x.cluster.entriesOf j)[index - 1]? = some e := by
  obtain ⟨history, -, hpre, hacked⟩ := Service.exists_history_acked cfg hrun ha
  obtain ⟨hpos, hget⟩ := hacked i index e hack
  refine ⟨hpos, ?_⟩
  rw [← hget (hj.trans (hpre j).length_le)]
  have hlt : index - 1 < (x.cluster.entriesOf j).length := by omega
  rw [List.getElem?_eq_getElem hlt, List.prefix_iff_getElem?.mp (hpre j) _ hlt]

/-- A proposal that is acknowledged, and the heartbeat that commits its entry. -/
def acknowledgeAndApply : List (Action (Fin 3)) :=
  firstElection ++ acknowledge (text "a") (text "1") ++ [.beat 0, .build 0, .handle 0 .heartbeat,
    .resume 0 .heartbeat false, .build 0, .resume 0 .heartbeat true, .build 0, .take 0, .apply 0]

/-- The first node has applied the entry it has acknowledged. -/
theorem acked_in_history_first : ∃ x,
    (Service.start fun _ => KVStore.new).run threeNodes acknowledgeAndApply = some x ∧
      (0, 1, ⟨1, .put, text "a", text "1"⟩) ∈ x.cluster.acked ∧
      (x.cluster.entriesOf 0)[1 - 1]? = some ⟨1, .put, text "a", text "1"⟩ := by
  have h : (Cluster.init.run threeNodes acknowledgeAndApply).map (fun s =>
      (s.acked, (s.entriesOf 0).length)) = some ([(0, 1, ⟨1, .put, text "a", text "1"⟩)], 1) := by
    decide +kernel
  obtain ⟨s, hs, happ⟩ := Option.map_eq_some_iff.mp h
  obtain ⟨h0, h1⟩ := Prod.mk.inj happ
  obtain ⟨x, hrun, rfl⟩ := Service.exists_run (x := .start fun _ => KVStore.new) hs
  have hack : ((0 : Fin 3), 1, (⟨1, .put, text "a", text "1"⟩ : LogEntry)) ∈ x.cluster.acked := by
    simp [h0]
  exact ⟨x, hrun, hack, (acked_in_history threeNodes hrun (by decide +kernel) hack h1.ge).2⟩

end VeriStore.Raft

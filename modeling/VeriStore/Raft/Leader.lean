import VeriStore.Raft.Bounds

/-!
What a leader does with its log, and nodes that cannot lead.

In an orderly run a leader only appends to its log (`leader_append_only`), and a leader of the
latest term has every entry that any node has applied (`leader_has_applied`). The votes are counted
when a peer answers, so that a node without peers stands again and again and never becomes leader:
it refuses every proposal (`alone_never_leads`).
-/

namespace VeriStore.Raft

open VeriStore.Lib Relation

set_option linter.unusedSectionVars false

variable {ι : Type} [DecidableEq ι] {cfg : Config ι} {s s' : Cluster ι}

/-! ### The log of a leader -/

section Leaders

variable [Fintype ι] {r : Logs ι}

/-- The log of a leader is the one of its term. -/
lemma Tracks.leaderLog (h : Tracks s r) (hi : r.Inv LogEntry.term) {i : ι}
    (hr : (s.nodes i).role = .leader) : r.Elected (s.nodes i).currentTerm ∧
      r.leaderLog (s.nodes i).currentTerm = (s.nodes i).log := by
  have hlead := h.leader i hr
  refine ⟨⟨i, hlead⟩, ?_⟩
  rw [← h.log i]
  exact (hi.led_log i _ hlead (h.term i)).symm

/-- What is settled is so up to the terms that the nodes have reached. -/
lemma settled_reached (ht : Tracks s r) (hi : r.Inv LogEntry.term) {t u : ℕ} {l : List LogEntry}
    (h : r.Settled LogEntry.term t l) (hle : ∀ j, (s.nodes j).currentTerm ≤ u) :
    r.Settled LogEntry.term u l := by
  rcases h with rfl | ⟨w, k, hw, hc, hk⟩
  · exact .nil
  · obtain ⟨hel, -, hpos, Q, hQ, hack⟩ := id hc
    obtain ⟨j, -⟩ := hel
    have hcard : 0 < Q.card := by
      have := Fintype.card_pos_iff.mpr ⟨j⟩
      omega
    obtain ⟨v, hv⟩ := Finset.card_pos.mp hcard
    obtain ⟨m, -, hm⟩ := hack v hv
    have hle' := (hi.ack_le v w m hm).1
    rw [ht.term] at hle'
    exact Or.inr ⟨w, k, hle'.trans (hle v), hc, hk⟩

/-- **The leader of the latest term has all that is settled.** -/
lemma Tracks.settled_le (ht : Tracks s r) (hi : r.Inv LogEntry.term) {i : ι}
    (hr : (s.nodes i).role = .leader)
    (hle : ∀ j, (s.nodes j).currentTerm ≤ (s.nodes i).currentTerm) {t : ℕ} {l : List LogEntry}
    (h : r.Settled LogEntry.term t l) : l <+: (s.nodes i).log := by
  obtain ⟨hel, hlog⟩ := ht.leaderLog hi hr
  rw [← hlog]
  exact (settled_reached ht hi h hle).leader hi hel le_rfl

lemma Tracks.applied_le (ht : Tracks s r) (hi : r.Inv LogEntry.term) {i : ι}
    (hr : (s.nodes i).role = .leader)
    (hle : ∀ j, (s.nodes j).currentTerm ≤ (s.nodes i).currentTerm) {index : ℕ} {e : LogEntry}
    (h : Applied r index e) : 0 < index ∧ (s.nodes i).log[index - 1]? = some e := by
  obtain ⟨t, p, hp, hpos, hget⟩ := h
  obtain ⟨u, hu⟩ := ht.settled_le hi hr hle hp
  refine ⟨hpos, ?_⟩
  rw [← hu, List.getElem?_append_left (List.getElem?_eq_some_iff.mp hget).1]
  exact hget

end Leaders

/-- **Leaders append only.** In every orderly run, the log of a node that is leader of one term in
two states begins, in the later state, with the log of the earlier one, whatever has happened in
between; and two leaders of the term `t`, at any two moments, are the same node. -/
theorem leader_append_only [Fintype ι] (cfg : Config ι) {as bs : List (Action ι)}
    {s s' : Cluster ι} (hrun : Cluster.init.run cfg as = some s) (hrun' : s.run cfg bs = some s')
    (ha : Cluster.init.AllMeet cfg Cluster.Orderly (as ++ bs)) {i j : ι}
    (hr : (s.nodes i).role = .leader) (hr' : (s'.nodes j).role = .leader)
    (hterm : (s'.nodes j).currentTerm = (s.nodes i).currentTerm) :
    i = j ∧ (s.nodes i).log <+: (s'.nodes j).log := by
  obtain ⟨ha, hb⟩ := ha.append hrun
  obtain ⟨r, hm, ht⟩ := run_tracks init_tracks Replicas.init_inv ha hrun
  have hi := (Replicas.init_inv.steps hm).1
  obtain ⟨r', hm', ht'⟩ := run_tracks ht hi hb hrun'
  obtain ⟨hi', hg⟩ := hi.steps hm'
  obtain ⟨hel, hlog⟩ := ht.leaderLog hi hr
  obtain ⟨-, hlog'⟩ := ht'.leaderLog hi' hr'
  have hlead := hg.leaders (ht.leader i hr)
  have hlead' := ht'.leader j hr'
  rw [hterm] at hlead' hlog'
  refine ⟨hi'.fair.leader_unique hlead hlead', ?_⟩
  rw [← hlog, ← hlog']
  exact hg.leaderLog _ hel

/-- The leader before and after a proposal. -/
theorem leader_append_only_first : ∃ s s', Cluster.init.run threeNodes firstElection = some s ∧
    s.run threeNodes (acknowledge (text "a") (text "1")) = some s' ∧
    (s.nodes 0).log <+: (s'.nodes 0).log ∧ (s'.nodes 0).log.length = 1 := by
  have h : (Cluster.init.run threeNodes firstElection).any (fun s =>
      (s.nodes 0).role = .leader ∧ (s.nodes 0).currentTerm = 1 ∧
      (s.run threeNodes (acknowledge (text "a") (text "1"))).any fun s' =>
        (s'.nodes 0).role = .leader ∧ (s'.nodes 0).currentTerm = 1 ∧
          (s'.nodes 0).log.length = 1) = true := by
    decide +kernel
  obtain ⟨s, hrun, hx⟩ := (Option.any_eq_true _ _).mp h
  obtain ⟨h1, h2, hx⟩ := of_decide_eq_true hx
  obtain ⟨s', hrun', hx'⟩ := (Option.any_eq_true _ _).mp hx
  obtain ⟨h3, h4, h5⟩ := of_decide_eq_true hx'
  exact ⟨s, s', hrun, hrun', (leader_append_only threeNodes hrun hrun' (by decide +kernel) h1 h3
    (h4.trans h2.symm)).2, h5⟩

/-- **The latest leader is complete.** In every state of a disciplined run, the log of a leader
whose term no node has passed begins with what any node has committed, and has every entry that any
node has applied at its index. -/
theorem latest_leader_complete [Fintype ι] (cfg : Config ι) {as : List (Action ι)} {s : Cluster ι}
    (hrun : Cluster.init.run cfg as = some s)
    (ha : Cluster.init.AllMeet cfg Cluster.Disciplined as) {i : ι}
    (hr : (s.nodes i).role = .leader)
    (hle : ∀ j, (s.nodes j).currentTerm ≤ (s.nodes i).currentTerm) (j : ι) :
    (s.nodes j).log.take (s.nodes j).commitIndex <+: (s.nodes i).log ∧
      ∀ index e, (j, index, e) ∈ s.applied → (s.nodes i).log[index - 1]? = some e := by
  obtain ⟨r, hm, ht, hc⟩ := run_disciplined init_tracks Replicas.init_inv init_commits ha hrun
  have hi := (Replicas.init_inv.steps hm).1
  exact ⟨ht.settled_le hi hr hle (hc.nodes j).settled, fun index e he =>
    (ht.applied_le hi hr hle (hc.applied j index e he)).2⟩

/-- What the second node has applied is in the log of the first one. -/
theorem latest_leader_complete_first : ∃ s,
    Cluster.init.run threeNodes replicateAndApply = some s ∧
      (1, 1, ⟨1, .put, text "a", text "1"⟩) ∈ s.applied ∧
      (s.nodes 0).log[1 - 1]? = some ⟨1, .put, text "a", text "1"⟩ := by
  have h : (Cluster.init.run threeNodes replicateAndApply).any (fun s =>
      (s.nodes 0).role = .leader ∧ (∀ j, (s.nodes j).currentTerm ≤ (s.nodes 0).currentTerm) ∧
        (1, 1, ⟨1, .put, text "a", text "1"⟩) ∈ s.applied) = true := by
    decide +kernel
  obtain ⟨s, hrun, hx⟩ := (Option.any_eq_true _ _).mp h
  obtain ⟨hr, hle, happ⟩ := of_decide_eq_true hx
  exact ⟨s, hrun, happ,
    (latest_leader_complete threeNodes hrun (by decide +kernel) hr hle 1).2 1 _ happ⟩

/-! ### A node without peers -/

/-- A thread that does nothing, or has found that the timeout has passed. -/
def ThreadState.Waits (x : ThreadState ι) : Prop := x = .idle ∨ x = ⟨.timedOut, none⟩

/-- Nothing has happened but elections that nobody has voted in. -/
structure Cluster.Alone (s : Cluster ι) : Prop where
  role : ∀ j, (s.nodes j).role ≠ .leader
  log : ∀ j, (s.nodes j).log = []
  threads : ∀ j th, (s.threads j th).Waits
  late : s.late = []
  acked : s.acked = []
  applied : s.applied = []

lemma Cluster.Alone.setThread (h : s.Alone) (i : ι) (th : Thread) {x : ThreadState ι}
    (hx : x.Waits) : (s.setThread i th x).Alone :=
  ⟨h.role, h.log, forall_setThread (P := fun _ x => x.Waits) h.threads hx, h.late, h.acked,
    h.applied⟩

/-- **Elections without peers come to nothing.** -/
lemma Cluster.Alone.effect (hp : ∀ i, cfg.peers i = []) (h : s.Alone) {a : Action ι}
    (he : Effect cfg s a s') : s'.Alone := by
  have hquiet : ∀ {i th pc call}, s.threads i th = ⟨pc, call⟩ →
      (pc = .idle ∨ pc = .timedOut) ∧ call = none := by
    intro i th pc call hth
    rcases h.threads i th with hq | hq
    all_goals
      obtain ⟨rfl, rfl⟩ := ThreadState.mk.inj (hq.symm.trans hth)
      simp
  have hcall : ∀ {i th pc c}, s.threads i th ≠ ⟨pc, some c⟩ := fun hth => by
    simpa using (hquiet hth).2
  cases he with
  | timeout i => exact h.setThread i _ (Or.inr rfl)
  | stand i =>
    have hnode : (s.setNode i ((s.nodes i).becomeCandidate i)).Alone :=
      ⟨forall_setNode (P := fun _ n => n.role ≠ .leader) h.role (show RaftRole.candidate ≠ .leader by
          decide),
        forall_setNode (P := fun _ n => n.log = []) h.log (h.log i), h.threads, h.late, h.acked,
        h.applied⟩
    rw [hp i]
    exact hnode.setThread i _ (Or.inl rfl)
  | beat i _ hr => exact absurd hr (h.role i)
  | buildEnd i rest hth => exact h.setThread i _ (Or.inl rfl)
  | build i p rest hth hr => exact absurd hr (h.role i)
  | refused => exact h
  | propose _ i k e _ _ hr => exact absurd hr (h.role i)
  | place i k e index hth | notifyNone i k e index hth | notify i k e index p rest hth =>
    simpa using (hquiet hth).1
  | take i e hth hlt hget => simp [h.log i] at hget
  | apply i index e hth => simpa using (hquiet hth).1
  | handle i th pc p request hth => exact absurd hth hcall
  | handleLate n p request hl => simp [h.late] at hl
  | election i th lost votes rest p req ans resp s₀ hr => exact absurd hr.thread hcall
  | heartbeat i th lost rest p req ans resp s₀ hr => exact absurd hr.thread hcall
  | proposal i th lost e index acks rest p req ans resp s₀ hr => exact absurd hr.thread hcall
  | notice i th lost e index rest p req ans resp s₀ hr => exact absurd hr.thread hcall

/-- **A node without peers never leads.** Whatever the schedule, it does not become leader, refuses
every proposal and has nothing to apply. -/
theorem alone_never_leads (cfg : Config ι) {i : ι} (hp : cfg.peers i = []) {as : List (Action ι)}
    {s : Cluster ι} (hrun : Cluster.init.run cfg as = some s) :
    (s.nodes i).role ≠ .leader ∧ (s.nodes i).log = [] ∧ s.acked = [] ∧ s.applied = [] := by
  have hall : ∀ j, cfg.peers j = [] := by
    intro j
    by_cases hj : j = i
    · exact hj ▸ hp
    · have := (cfg.mem_peers i j).mpr hj
      rw [hp] at this
      cases this
  have hinit : (Cluster.init : Cluster ι).Alone :=
    ⟨fun _ => by simp [Cluster.init, RaftNode.init], fun _ => rfl, fun _ _ => Or.inl rfl, rfl, rfl,
      rfl⟩
  have halone : s.Alone := by
    clear hp
    generalize Cluster.init = s₀ at hrun hinit
    induction as generalizing s₀ with
    | nil => exact Option.some.inj hrun ▸ hinit
    | cons a as ih =>
      obtain ⟨s₁, hs, hrest⟩ := Cluster.run_cons hrun
      exact ih s₁ hrest (hinit.effect hall (Cluster.step_effect hs))
  exact ⟨halone.role i, halone.log i, halone.acked, halone.applied⟩

/-- One node. -/
def oneNode : Config (Fin 1) where
  peers := fun _ => []
  nodup := by decide
  mem_peers := by decide

/-- The node has stood twice and refused a proposal. -/
theorem alone_never_leads_twice : ∃ s, Cluster.init.run oneNode
      [.timeout 0, .stand 0, .timeout 0, .stand 0, .proposePut 0 0 (text "a") (text "1")] = some s ∧
    (s.nodes 0).currentTerm = 2 ∧ (s.nodes 0).role ≠ .leader ∧ s.acked = [] := by
  have h : (Cluster.init.run oneNode [.timeout 0, .stand 0, .timeout 0, .stand 0,
      .proposePut 0 0 (text "a") (text "1")]).map (fun s => (s.nodes 0).currentTerm) = some 2 := by
    decide +kernel
  obtain ⟨s, hrun, hs⟩ := Option.map_eq_some_iff.mp h
  obtain ⟨hr, -, hack, -⟩ := alone_never_leads oneNode (i := 0) rfl hrun
  exact ⟨s, hrun, hs, hr, hack⟩

end VeriStore.Raft

import VeriStore.Raft.Leader
import VeriStore.Raft.Rounds
import VeriStore.Raft.Stores

/-!
A leader that is not disturbed.

The leader of the latest term can always bring the cluster together: its heartbeats, when they are
answered, move the next index of every peer back until the peer takes over the log of the leader; a
proposal then reaches all peers at once; and the next heartbeats commit it everywhere, so that all
nodes apply the whole log (`proposal_completes`).
-/

namespace VeriStore.Raft

open VeriStore.Lib VeriStore.Store Relation

set_option linter.unusedSectionVars false

variable {ι : Type} [DecidableEq ι] {cfg : Config ι} {s s' s'' : Cluster ι} {i p : ι}

/-! ### Runs beside the apply threads -/

/-- What a proposal has returned is kept. -/
lemma Cluster.Effect.acked {a : Action ι} (he : Effect cfg s a s') : s.acked ⊆ s'.acked := by
  cases he with
  | notifyNone => exact List.subset_cons_self _ _
  | election j th lost votes rest p req ans resp s₀ hr =>
    have hs : s₀.acked = s.acked := by rcases hr.late with rfl | rfl <;> rfl
    rw [← hs]
    unfold electionResume
    split <;> exact List.Subset.refl _
  | heartbeat j th lost rest p req ans resp s₀ hr =>
    have hs : s₀.acked = s.acked := by rcases hr.late with rfl | rfl <;> rfl
    rw [← hs]
    unfold heartbeatResume
    split <;> exact List.Subset.refl _
  | proposal j th lost e index acks rest p req ans resp s₀ hr =>
    have hs : s₀.acked = s.acked := by rcases hr.late with rfl | rfl <;> rfl
    rw [← hs]
    unfold proposeResume
    split <;> exact List.Subset.refl _
  | notice j th lost e index rest p req ans resp s₀ hr =>
    have hs : s₀.acked = s.acked := by rcases hr.late with rfl | rfl <;> rfl
    rw [← hs]
    unfold noticeResume
    split
    · exact List.Subset.refl _
    · exact List.subset_cons_self _ _
  | _ => exact List.Subset.refl _

/-- There is a run that no apply thread takes part in. -/
structure Cluster.Leads (cfg : Config ι) (s s' : Cluster ι) : Prop where
  run : ∃ as, s.run cfg as = some s'
  acked : s.acked ⊆ s'.acked
  apply : ∀ j, (s.threads j .apply).call = none → s.SameApply s' j

namespace Cluster

lemma run_append {as bs : List (Action ι)} (h : s.run cfg as = some s')
    (h' : s'.run cfg bs = some s'') : s.run cfg (as ++ bs) = some s'' := by
  unfold run at h h' ⊢
  rw [List.foldlM_append, h]
  exact h'

lemma Leads.refl (s : Cluster ι) : Leads cfg s s :=
  ⟨⟨[], rfl⟩, List.Subset.refl _, fun j _ => .refl s j⟩

lemma Leads.trans (h : Leads cfg s s') (h' : Leads cfg s' s'') : Leads cfg s s'' := by
  obtain ⟨⟨as, has⟩, ha, hs⟩ := h
  obtain ⟨⟨bs, hbs⟩, ha', hs'⟩ := h'
  refine ⟨⟨as ++ bs, run_append has hbs⟩, List.Subset.trans ha ha', fun j hj => (hs j hj).trans (hs' j ?_)⟩
  rw [(hs j hj).thread, hj]

lemma Leads.step {a : Action ι} (h : s.step cfg a = some s')
    (hne : ∀ j, a ≠ .take j ∧ a ≠ .apply j) : Leads cfg s s' := by
  refine ⟨⟨[a], Option.bind_eq_some_iff.mpr ⟨s', h, rfl⟩⟩, (step_effect h).acked, fun j hj => ?_⟩
  rcases (step_effect h).apply_cases hj with ⟨-, hsame⟩ | ⟨e, ha, -⟩ | ⟨index, e, ha, -⟩
  · exact hsame
  · exact absurd ha (hne j).1
  · exact absurd ha (hne j).2

end Cluster

/-! ### Calls that are answered -/

/-- What the steps of one thread leave alone. -/
def Cluster.Aside (s s' : Cluster ι) (i : ι) (th : Thread) : Prop :=
  ∀ j u, (j, u) ≠ (i, th) → s'.threads j u = s.threads j u

lemma Cluster.Aside.trans {th : Thread} (h : s.Aside s' i th) (h' : s'.Aside s'' i th) :
    s.Aside s'' i th :=
  fun j u hne => (h' j u hne).trans (h j u hne)

lemma Cluster.aside_setThread (s : Cluster ι) (i : ι) (th : Thread) (x : ThreadState ι) :
    s.Aside (s.setThread i th x) i th := by
  intro j u hne
  by_cases hj : j = i
  · subst hj
    have hu : u ≠ th := fun h => hne (by rw [h])
    simp [setThread, hu]
  · simp [setThread, hj]

variable (cfg) in
/-- **A heartbeat that is answered** is a round of the leader with this peer. -/
lemma Cluster.beat_answered {rest : List ι}
    (hth : s.threads i .heartbeat = ⟨.sending (p :: rest), none⟩)
    (hr : (s.nodes i).role = .leader) (hp : p ≠ i)
    (hle : (s.nodes p).currentTerm ≤ (s.nodes i).currentTerm) :
    ∃ s', Leads cfg s s' ∧ s.Aside s' i .heartbeat ∧
      s'.threads i .heartbeat = ⟨.sending rest, none⟩ ∧
      s'.nodes i = (Pair.round (cfg.peers i) i p ⟨s.nodes i, s.nodes p⟩).leader ∧
      s'.nodes p = (Pair.round (cfg.peers i) i p ⟨s.nodes i, s.nodes p⟩).peer ∧
      ∀ j, j ≠ i → j ≠ p → s'.nodes j = s.nodes j := by
  set req := (s.nodes i).buildAppendEntries i p with hreq
  set out := (s.nodes p).onAppendEntries req with hout
  set s₁ := s.setThread i .heartbeat ⟨.beating rest, some ⟨p, .append req, none⟩⟩ with hs₁
  set s₂ := (s₁.setNode p out.1).setThread i .heartbeat
    ⟨.beating rest, some ⟨p, .append req, some (.append out.2)⟩⟩ with hs₂
  have h₁ : s.step cfg (.build i) = some s₁ := by
    simp [step, build, hth, hr, hs₁, hreq]
  have h₂ : s₁.step cfg (.handle i .heartbeat) = some s₂ := by
    simp [step, handle, hs₁, hs₂, setThread, setNode, RaftNode.handle, hout]
  have hterm : out.2.term = (s.nodes i).currentTerm :=
    (RaftNode.onAppendEntries_term hle).2
  have hflag : ((s.nodes i).heartbeatReply (cfg.peers i) p req out.2).2 = true := by
    unfold RaftNode.heartbeatReply
    rw [if_neg (by omega)]
    split <;> rfl
  have hnode : s₂.nodes i = s.nodes i := by simp [hs₂, hs₁, setThread, setNode, hp.symm]
  set s₃ := (s₂.setNode i ((s.nodes i).heartbeatReply (cfg.peers i) p req out.2).1).setThread i
    .heartbeat ⟨.sending rest, none⟩ with hs₃
  have h₃ : s₂.step cfg (.resume i .heartbeat false) = some s₃ := by
    have hth₂ : s₂.threads i .heartbeat =
        ⟨.beating rest, some ⟨p, .append req, some (.append out.2)⟩⟩ := by
      simp [hs₂, setThread]
    have hres : s₂.heartbeatResume cfg i .heartbeat rest p req out.2 = s₃ := by
      unfold heartbeatResume
      rw [hnode]
      split
      · next n e => rw [hs₃, e]
      · next n e =>
        rw [e] at hflag
        cases hflag
    simp [step, resume, hth₂, continueWith, hres]
  have hround : Pair.round (cfg.peers i) i p ⟨s.nodes i, s.nodes p⟩ =
      ⟨((s.nodes i).heartbeatReply (cfg.peers i) p req out.2).1, out.1⟩ :=
    if_neg (not_not.mpr hr)
  rw [hround]
  refine ⟨s₃, ((Leads.step h₁ (by simp)).trans (.step h₂ (by simp))).trans
    (.step h₃ (by simp)), fun j u hne => ?_, ?_, ?_, ?_, fun j hj hjp => ?_⟩
  · exact (s₂.aside_setThread i .heartbeat _ j u hne).trans
      ((s₁.aside_setThread i .heartbeat _ j u hne).trans (s.aside_setThread i .heartbeat _ j u hne))
  · simp [hs₃, setThread]
  · simp [hs₃, setThread, setNode]
  · simp [hs₃, hs₂, setThread, setNode, hp]
  · simp [hs₃, hs₂, hs₁, setThread, setNode, hj, hjp]

/-! ### One round -/

/-- The index a request to the peer starts with. -/
def RaftNode.next (n : RaftNode ι) (p : ι) : ℕ := (n.nextIndex p).getD 1

/-- A leader and a node that is not in a later term and has not committed more. -/
structure Heeds (n q : RaftNode ι) (p : ι) : Prop where
  role : n.role = .leader
  term_pos : 0 < n.currentTerm
  term_le : q.currentTerm ≤ n.currentTerm
  next_pos : 1 ≤ n.next p
  commit_le : n.commitIndex ≤ n.log.length
  peer_le : q.commitIndex ≤ n.log.length

/-- What a round of the leader leaves alone: all but the commit index and the indices of the
peer. -/
structure RaftNode.Stays (n n' : RaftNode ι) (q : ι) : Prop where
  role : n'.role = n.role
  term : n'.currentTerm = n.currentTerm
  log : n'.log = n.log
  next : n'.next q = n.next q
  mtch : n'.matchIndex q = n.matchIndex q
  commit_le : n.commitIndex ≤ n'.commitIndex

section Round

variable {n q : RaftNode ι} {peers : List ι} {self : ι}

omit [DecidableEq ι] in
variable (peers) in
lemma RaftNode.advanceCommitIndex_le (hc : n.commitIndex ≤ n.log.length) (ht : 0 < n.currentTerm) :
    n.commitIndex ≤ (n.advanceCommitIndex peers).commitIndex ∧
      (n.advanceCommitIndex peers).commitIndex ≤ n.log.length := by
  unfold advanceCommitIndex
  split
  · next h =>
    refine ⟨h.1.le, ?_⟩
    by_contra hlt
    -- an index behind the end has no term
    have hz : n.termAt (n.majorityIndex peers) = 0 := termIn_beyond (not_le.mp hlt)
    rw [h.2] at hz
    omega
  · exact ⟨le_rfl, hc⟩

namespace Heeds

variable (peers self) in
/-- The two sides of a round. -/
def after (n q : RaftNode ι) (p : ι) : Pair ι := Pair.round peers self p ⟨n, q⟩

omit [DecidableEq ι] in
variable (self) in
lemma request_eq (h : Heeds n q p) : n.buildAppendEntries self p =
    ⟨n.currentTerm, self, n.next p - 1, RaftNode.termIn n.log (n.next p - 1),
      n.log.drop (n.next p - 1), n.commitIndex⟩ :=
  RaftNode.buildAppendEntries_eq rfl h.next_pos

lemma after_eq (h : Heeds n q p) : after peers self n q p =
    ⟨(n.heartbeatReply peers p (n.buildAppendEntries self p)
        (q.onAppendEntries (n.buildAppendEntries self p)).2).1,
      (q.onAppendEntries (n.buildAppendEntries self p)).1⟩ :=
  if_neg (not_not.mpr h.role)

omit [DecidableEq ι] in
variable (self) in
lemma reply_term (h : Heeds n q p) :
    (q.onAppendEntries (n.buildAppendEntries self p)).1.currentTerm = n.currentTerm ∧
      (q.onAppendEntries (n.buildAppendEntries self p)).2.term = n.currentTerm :=
  RaftNode.onAppendEntries_term h.term_le

variable (peers) in
/-- **A rejected request** moves the next index back by one. -/
lemma rejected (h : Heeds n q p) (hrej : ¬ q.Accepts (n.buildAppendEntries self p)) :
    1 < n.next p ∧
      (after peers self n q p).leader = { n with
        nextIndex := Function.update n.nextIndex p (some (n.next p - 1)) } ∧
      (after peers self n q p).peer.log = q.log ∧
      (after peers self n q p).peer.commitIndex = q.commitIndex := by
  have hterm := (h.reply_term self).2
  have hm : 1 < n.next p := by
    by_contra hle
    have hone : n.next p = 1 := le_antisymm (not_lt.mp hle) h.next_pos
    -- the index in front of the first entry is always accepted
    refine hrej ?_
    rw [h.request_eq, hone]
    exact ⟨h.term_le, Nat.zero_le _, rfl⟩
  rcases q.onAppendEntries_cases (n.buildAppendEntries self p) with ⟨hy, hc, hs⟩ | ⟨ha, -⟩
  · rw [h.after_eq]
    refine ⟨hm, ?_, hy.log, hc⟩
    have hsome : n.nextIndex p = some (n.next p) := by
      unfold RaftNode.next at hm ⊢
      cases hn : n.nextIndex p with
      | none => simp [hn] at hm
      | some m => rfl
    rw [RaftNode.heartbeatReply, if_neg (by omega), if_neg (by simp [hs]), hsome, Option.map_some,
      if_pos hm, max_eq_right (by omega)]
  · exact absurd ha hrej

end Heeds

/-- The peer has the log of the leader up to its next index, which is not behind the end. -/
structure Level (n q : RaftNode ι) (p : ι) : Prop where
  log : n.log.take (n.next p - 1) <+: q.log
  le : n.next p ≤ n.log.length + 1

/-- The peer has just the log of the leader, and the leader knows it. -/
structure Caught (n q : RaftNode ι) (p : ι) : Prop where
  log : q.log = n.log
  next : n.next p = n.log.length + 1
  mtch : n.matchIndex p = some n.log.length

/-- What the leader notes when a peer has taken over the rest of its log. -/
def RaftNode.counted (n : RaftNode ι) (p : ι) : RaftNode ι :=
  if n.log.drop (n.next p - 1) = [] then n else
    { n with
      matchIndex := Function.update n.matchIndex p (some n.log.length)
      nextIndex := Function.update n.nextIndex p (some (n.log.length + 1)) }

omit [DecidableEq ι] in
lemma Level.of_isPrefix (h : n.log <+: q.log) (hle : n.next p ≤ n.log.length + 1) : Level n q p :=
  ⟨(List.take_prefix _ _).trans h, hle⟩

omit [DecidableEq ι] in
lemma Caught.level (h : Caught n q p) : Level n q p :=
  .of_isPrefix (h.log ▸ List.prefix_rfl) h.next.le

omit [DecidableEq ι] in
/-- A peer that has what is in front of the end has the log. -/
lemma Level.isPrefix (h : Level n q p) (hd : n.log.drop (n.next p - 1) = []) : n.log <+: q.log := by
  have hlen := List.drop_eq_nil_iff.mp hd
  have hlog := h.log
  rwa [List.take_of_length_le hlen] at hlog

namespace Heeds

omit [DecidableEq ι] in
variable (self) in
lemma accepts (h : Heeds n q p) (hl : Level n q p) : q.Accepts (n.buildAppendEntries self p) := by
  have hle := hl.le
  have hlen := hl.log.length_le
  rw [List.length_take] at hlen
  have hmin : n.next p - 1 ≤ (n.log.take (n.next p - 1)).length := by
    rw [List.length_take]
    omega
  have hsame : RaftNode.termIn q.log (n.next p - 1) = RaftNode.termIn n.log (n.next p - 1) :=
    (termIn_of_isPrefix hl.log hmin).trans (termIn_of_isPrefix (List.take_prefix _ _) hmin).symm
  rw [h.request_eq]
  exact ⟨h.term_le, by simp only; omega, hsame⟩

variable (peers self) in
/-- **An accepted request**: the peer has the rest of the log, and knows what is committed. -/
lemma accepted (h : Heeds n q p) (hl : Level n q p) :
    (after peers self n q p).leader = (n.counted p).advanceCommitIndex peers ∧
      (after peers self n q p).peer.log =
        (if n.log.drop (n.next p - 1) = [] then q.log else n.log) ∧
      n.commitIndex ≤ (after peers self n q p).peer.commitIndex ∧
      (after peers self n q p).peer.commitIndex ≤ n.log.length := by
  have ha := h.accepts self hl
  have hterm := (h.reply_term self).2
  have hpos := h.next_pos
  have hle := hl.le
  have hlog : RaftNode.appendAt q.log (n.next p - 1) (n.log.drop (n.next p - 1)) =
      if n.log.drop (n.next p - 1) = [] then q.log else n.log := by
    have htake : q.log.take (n.next p - 1) = n.log.take (n.next p - 1) := by
      obtain ⟨u, hu⟩ := hl.log
      rw [← hu, List.take_append_of_le_length (by rw [List.length_take]; omega), List.take_take,
        min_self]
    unfold RaftNode.appendAt
    rw [htake, List.take_append_drop]
  have hlen : n.log.length ≤
      (RaftNode.appendAt q.log (n.next p - 1) (n.log.drop (n.next p - 1))).length := by
    rw [hlog]
    split
    · next hd => exact (hl.isPrefix hd).length_le
    · exact le_rfl
  have hs := RaftNode.onAppendEntries_of_accepts ha
  have hy := (q.followLeader_yields n.currentTerm self).log
  have hc := (RaftNode.followLeader_frame h.term_le self).2.2
  rw [h.after_eq]
  refine ⟨?_, ?_, ?_⟩
  · rw [RaftNode.heartbeatReply, if_neg (by omega), hs, if_pos rfl]
    simp only [h.request_eq, List.length_drop, RaftNode.counted,
      show n.next p - 1 + (n.log.length - (n.next p - 1)) = n.log.length by omega]
  · rw [hs, h.request_eq]
    simp only [RaftNode.acceptEntries, hy]
    exact hlog
  · have hcut : (q.onAppendEntries (n.buildAppendEntries self p)).1.commitIndex =
        if q.commitIndex < n.commitIndex then min n.commitIndex
          (RaftNode.appendAt q.log (n.next p - 1) (n.log.drop (n.next p - 1))).length
        else q.commitIndex := by
      rw [hs, h.request_eq]
      simp only [RaftNode.acceptEntries, hy, hc]
    have h1 := h.commit_le
    have h2 := h.peer_le
    simp only [hcut]
    split <;> omega

variable (peers) in
/-- **A round keeps the two sides as they are to each other**, and the leader as it is to others. -/
lemma step (h : Heeds n q p) (hl : Level n q p ∨ ¬ q.Accepts (n.buildAppendEntries self p)) :
    Heeds (after peers self n q p).leader (after peers self n q p).peer p ∧
      (after peers self n q p).leader.log = n.log ∧
      (after peers self n q p).leader.currentTerm = n.currentTerm ∧
      ∀ r, r ≠ p → n.Stays (after peers self n q p).leader r := by
  have hterm := (h.reply_term self).1
  have hpeer : (after peers self n q p).peer.currentTerm = n.currentTerm := by
    rw [h.after_eq]
    exact hterm
  rcases hl with hl | hrej
  · obtain ⟨hn, -, -, hq⟩ := h.accepted peers self hl
    have hcount : (n.counted p).role = n.role ∧ (n.counted p).currentTerm = n.currentTerm ∧
        (n.counted p).log = n.log ∧ (n.counted p).commitIndex = n.commitIndex ∧
        1 ≤ (n.counted p).next p ∧ ∀ r, r ≠ p → (n.counted p).next r = n.next r ∧
          (n.counted p).matchIndex r = n.matchIndex r := by
      unfold RaftNode.counted
      split
      · exact ⟨rfl, rfl, rfl, rfl, h.next_pos, fun r _ => ⟨rfl, rfl⟩⟩
      · refine ⟨rfl, rfl, rfl, rfl, ?_, fun r hr => ⟨?_, ?_⟩⟩
        · simp [RaftNode.next]
        · simp [RaftNode.next, hr]
        · simp [hr]
    obtain ⟨h1, h2, h3, h4, h5, h6⟩ := hcount
    obtain ⟨c, hc⟩ := (n.counted p).advanceCommitIndex_frame peers
    obtain ⟨hlo, hhi⟩ := (n.counted p).advanceCommitIndex_le peers
      (by rw [h4, h3]; exact h.commit_le) (by rw [h2]; exact h.term_pos)
    rw [hn]
    rw [hc] at hlo hhi ⊢
    simp only at hlo hhi
    rw [h4] at hlo
    rw [h3] at hhi
    refine ⟨⟨h1.trans h.role, h2 ▸ h.term_pos, hpeer.le.trans h2.ge, h5, ?_, ?_⟩, h3, h2, fun r hr =>
      ⟨h1, h2, h3, (h6 r hr).1, (h6 r hr).2, hlo⟩⟩
    · exact hhi.trans_eq (congrArg List.length h3.symm)
    · exact hq.trans_eq (congrArg List.length h3.symm)
  · obtain ⟨hm, hn, -, hq⟩ := h.rejected peers hrej
    rw [hn]
    refine ⟨⟨h.role, h.term_pos, hpeer.le, ?_, h.commit_le, hq ▸ h.peer_le⟩, rfl, rfl, fun r hr =>
      ⟨rfl, rfl, rfl, ?_, rfl, le_rfl⟩⟩
    · simp [RaftNode.next] at hm ⊢
      omega
    · simp [RaftNode.next, hr]

end Heeds

end Round

/-! ### A round with all peers -/

omit [DecidableEq ι] in
lemma RaftNode.Stays.refl (n : RaftNode ι) (p : ι) : n.Stays n p := ⟨rfl, rfl, rfl, rfl, rfl, le_rfl⟩

omit [DecidableEq ι] in
lemma RaftNode.Stays.trans {n n' n'' : RaftNode ι} (h : n.Stays n' p) (h' : n'.Stays n'' p) :
    n.Stays n'' p :=
  ⟨h'.role.trans h.role, h'.term.trans h.term, h'.log.trans h.log, h'.next.trans h.next,
    h'.mtch.trans h.mtch, h.commit_le.trans h'.commit_le⟩

omit [DecidableEq ι] in
lemma Heeds.stays {n n' q : RaftNode ι} (h : Heeds n q p) (hs : n.Stays n' p)
    (hc : n'.commitIndex ≤ n'.log.length) : Heeds n' q p :=
  ⟨hs.role.trans h.role, hs.term ▸ h.term_pos, hs.term ▸ h.term_le, hs.next ▸ h.next_pos, hc,
    hs.log ▸ h.peer_le⟩

/-- **The heartbeat thread of a leader to which all nodes listen**, at the peers `ps`. -/
structure Cluster.Presides (s : Cluster ι) (i : ι) (pc : Pc ι) : Prop where
  thread : s.threads i .heartbeat = ⟨pc, none⟩
  role : (s.nodes i).role = .leader
  heeds : ∀ p, p ≠ i → Heeds (s.nodes i) (s.nodes p) p

/-- What a round does with each peer it comes to, and what it keeps of the leader. -/
structure Serves (cfg : Config ι) (i : ι) (I : RaftNode ι → Prop)
    (Pre Post : ι → RaftNode ι → RaftNode ι → Prop) : Prop where
  round : ∀ {n q p}, p ≠ i → Heeds n q p → I n → Pre p n q →
    (Level n q p ∨ ¬ q.Accepts (n.buildAppendEntries i p)) ∧
      Post p (Heeds.after (cfg.peers i) i n q p).leader (Heeds.after (cfg.peers i) i n q p).peer ∧
      I (Heeds.after (cfg.peers i) i n q p).leader
  pre : ∀ {n n' q p}, n.Stays n' p → Pre p n q → Pre p n' q
  post : ∀ {n n' q p}, n.Stays n' p → Post p n q → Post p n' q

section Rounds

variable {I : RaftNode ι → Prop} {Pre Post : ι → RaftNode ι → RaftNode ι → Prop}

/-- The loop over the peers. -/
lemma Cluster.Presides.peers (hserve : Serves cfg i I Pre Post) {ps : List ι} (hps : ∀ p ∈ ps, p ≠ i)
    (hnd : ps.Nodup) (h : s.Presides i (.sending ps)) (hI : I (s.nodes i))
    (hpre : ∀ p ∈ ps, Pre p (s.nodes i) (s.nodes p)) :
    ∃ s', Leads cfg s s' ∧ s.Aside s' i .heartbeat ∧ s'.Presides i (.sending []) ∧ I (s'.nodes i) ∧
      (s'.nodes i).log = (s.nodes i).log ∧ (s'.nodes i).currentTerm = (s.nodes i).currentTerm ∧
      (∀ p ∈ ps, Post p (s'.nodes i) (s'.nodes p)) ∧
      ∀ p, p ≠ i → p ∉ ps → s'.nodes p = s.nodes p ∧ (s.nodes i).Stays (s'.nodes i) p := by
  induction ps generalizing s with
  | nil =>
    exact ⟨s, .refl s, fun _ _ _ => rfl, h, hI, rfl, rfl, by simp,
      fun p _ _ => ⟨rfl, .refl _ p⟩⟩
  | cons p ps ih =>
    obtain ⟨hp, hps⟩ := List.forall_mem_cons.mp hps
    obtain ⟨hprep, hpre⟩ := List.forall_mem_cons.mp hpre
    have hh := h.heeds p hp
    obtain ⟨s₁, hlead, haside, hth, hi, hq, hrest⟩ :=
      s.beat_answered cfg h.thread hh.role hp hh.term_le
    obtain ⟨hl, hpost, hI₁⟩ := hserve.round hp hh hI hprep
    obtain ⟨hstep, hlog, hterm, hstay⟩ := hh.step (cfg.peers i) hl
    change s₁.nodes i = (Heeds.after (cfg.peers i) i _ _ p).leader at hi
    change s₁.nodes p = (Heeds.after (cfg.peers i) i _ _ p).peer at hq
    rw [← hi] at hpost hI₁ hstep hlog hterm hstay
    rw [← hq] at hpost hstep
    have hne : ∀ r ∈ ps, r ≠ p := fun r hr e => (List.nodup_cons.mp hnd).1 (e ▸ hr)
    have hled₁ : s₁.Presides i (.sending ps) := by
      refine ⟨hth, hstep.role, fun r hr => ?_⟩
      by_cases hrp : r = p
      · exact hrp ▸ hstep
      · rw [hrest r hr hrp]
        exact (h.heeds r hr).stays (hstay r hrp) hstep.commit_le
    obtain ⟨s', hlead', haside', hled', hI', hlog', hterm', hpost', hrest'⟩ :=
      ih hps (List.nodup_cons.mp hnd).2 hled₁ hI₁ fun r hr => by
        rw [hrest r (hps r hr) (hne r hr)]
        exact hserve.pre (hstay r (hne r hr)) (hpre r hr)
    obtain ⟨hsame, hkeep⟩ := hrest' p hp (List.nodup_cons.mp hnd).1
    refine ⟨s', hlead.trans hlead', haside.trans haside', hled', hI', hlog'.trans hlog,
      hterm'.trans hterm, ?_, fun r hr hrps => ?_⟩
    · intro r hr
      rcases List.mem_cons.mp hr with rfl | hr
      · rw [hsame]
        exact hserve.post hkeep hpost
      · exact hpost' r hr
    · have hrp : r ≠ p := fun e => hrps (e ▸ List.mem_cons_self)
      obtain ⟨h1, h2⟩ := hrest' r hr fun hm => hrps (List.mem_cons_of_mem _ hm)
      exact ⟨h1.trans (hrest r hr hrp), (hstay r hrp).trans h2⟩

/-- **A whole round**, from idle to idle. -/
lemma Cluster.Presides.round (hserve : Serves cfg i I Pre Post) (h : s.Presides i .idle)
    (hI : I (s.nodes i))
    (hpre : ∀ p, p ≠ i → Pre p (s.nodes i) (s.nodes p)) :
    ∃ s', Leads cfg s s' ∧ s.Aside s' i .heartbeat ∧ s'.Presides i .idle ∧ I (s'.nodes i) ∧
      (s'.nodes i).log = (s.nodes i).log ∧ (s'.nodes i).currentTerm = (s.nodes i).currentTerm ∧
      ∀ p, p ≠ i → Post p (s'.nodes i) (s'.nodes p) := by
  have h₁ : s.step cfg (.beat i) = some (s.setThread i .heartbeat ⟨.sending (cfg.peers i), none⟩) := by
    simp [step, beat, h.thread, h.role]
  have hled₁ : (s.setThread i .heartbeat ⟨.sending (cfg.peers i), none⟩).Presides i
      (.sending (cfg.peers i)) := ⟨by simp [setThread], h.role, h.heeds⟩
  obtain ⟨s₂, hlead, haside, hled₂, hI₂, hlog, hterm, hpost, -⟩ := hled₁.peers hserve
    (fun p hp => (cfg.mem_peers i p).mp hp) (cfg.nodup i) hI
    fun p hp => hpre p ((cfg.mem_peers i p).mp hp)
  have h₂ : s₂.step cfg (.build i) = some (s₂.setThread i .heartbeat .idle) := by
    simp [step, build, hled₂.thread]
  refine ⟨s₂.setThread i .heartbeat .idle,
    ((Leads.step h₁ (by simp)).trans hlead).trans (.step h₂ (by simp)), ?_,
    ⟨by simp [setThread, ThreadState.idle], hled₂.role, hled₂.heeds⟩, hI₂, hlog, hterm,
    fun p hp => hpost p ((cfg.mem_peers i p).mpr hp)⟩
  exact ((s.aside_setThread i .heartbeat _).trans haside).trans (s₂.aside_setThread i .heartbeat _)

end Rounds

/-! ### The peers take over the log -/

/-- The peer has the whole log, and its next index is not behind the end. -/
def Has (n q : RaftNode ι) (p : ι) : Prop := n.log <+: q.log ∧ n.next p ≤ n.log.length + 1

/-- The logs match, and no entry of the peer is of term zero. -/
def Comparable (n q : RaftNode ι) : Prop :=
  LogsMatch n.log q.log ∧ ∀ e ∈ q.log, 0 < e.term

section Back

variable {n q : RaftNode ι}

/-- A request that is accepted finds the part in front of it. -/
lemma Heeds.level (h : Heeds n q p) (hc : Comparable n q)
    (ha : q.Accepts (n.buildAppendEntries i p)) : Level n q p := by
  obtain ⟨-, hprev, hterm⟩ := h.request_eq i ▸ ha
  simp only at hprev hterm
  have hle : n.next p ≤ n.log.length + 1 := by
    by_contra hlt
    -- an index behind the end of the leader's log has no term, and the peer has one there
    rw [termIn_beyond (l := n.log) (by omega), termIn_eq (by omega) hprev] at hterm
    have := hc.2 _ (List.getElem_mem (show n.next p - 1 - 1 < q.log.length by omega))
    omega
  refine ⟨?_, hle⟩
  rw [hc.1.take_eq (by omega) hprev hterm.symm]
  exact List.take_prefix _ _

/-- **The peer has the log, or its next index goes back.** -/
lemma serves_back (cfg : Config ι) (i : ι) (k : ℕ) : Serves cfg i (fun n => ∀ e ∈ n.log, 0 < e.term)
    (fun p n q => (Has n q p ∨ n.next p ≤ k + 1) ∧ Comparable n q)
    (fun p n q => (Has n q p ∨ n.next p ≤ k) ∧ Comparable n q) where
  round {n q p} hp h hI hpre := by
    obtain ⟨hpre, hc⟩ := hpre
    by_cases ha : q.Accepts (n.buildAppendEntries i p)
    · have hl := h.level hc ha
      obtain ⟨-, hlog, -⟩ := h.step (cfg.peers i) (Or.inl hl)
      obtain ⟨hn, hq, -⟩ := h.accepted (cfg.peers i) i hl
      obtain ⟨c, hadv⟩ := (n.counted p).advanceCommitIndex_frame (cfg.peers i)
      have hnext : ((n.counted p).advanceCommitIndex (cfg.peers i)).next p ≤ n.log.length + 1 := by
        rw [hadv]
        unfold RaftNode.counted
        split
        · exact hl.le
        · simp [RaftNode.next]
      refine ⟨Or.inl hl, ⟨Or.inl ⟨?_, ?_⟩, ?_⟩, ?_⟩
      · rw [hlog, hq]
        split
        · next hd => exact hl.isPrefix hd
        · exact List.prefix_rfl
      · rw [hlog, hn]
        exact hnext
      · unfold Comparable
        rw [hlog, hq]
        split
        · exact hc
        · exact ⟨fun _ _ _ _ _ _ => rfl, hI⟩
      · rwa [hlog]
    · obtain ⟨hm, hn, hq, -⟩ := h.rejected (cfg.peers i) ha
      rw [hn]
      refine ⟨Or.inr ha, ⟨Or.inr ?_, ?_⟩, hI⟩
      · rcases hpre with ⟨hlog, hle⟩ | hle
        · exact absurd (h.accepts i (.of_isPrefix hlog hle)) ha
        · simp only [RaftNode.next, Function.update_self, Option.getD_some] at hle ⊢
          omega
      · unfold Comparable
        rw [hq]
        exact hc
  pre hs := by
    unfold Has Comparable
    rw [hs.log, hs.next]
    exact id
  post hs := by
    unfold Has Comparable
    rw [hs.log, hs.next]
    exact id

end Back

variable (cfg) in
/-- **The peers come to have the log of the leader.** -/
lemma Cluster.Presides.level {k : ℕ} (h : s.Presides i .idle) (hI : ∀ e ∈ (s.nodes i).log, 0 < e.term)
    (hpre : ∀ p, p ≠ i → (Has (s.nodes i) (s.nodes p) p ∨ (s.nodes i).next p ≤ k) ∧
      Comparable (s.nodes i) (s.nodes p)) :
    ∃ s', Leads cfg s s' ∧ s.Aside s' i .heartbeat ∧ s'.Presides i .idle ∧
      (s'.nodes i).log = (s.nodes i).log ∧ (s'.nodes i).currentTerm = (s.nodes i).currentTerm ∧
      ∀ p, p ≠ i → Has (s'.nodes i) (s'.nodes p) p := by
  induction k generalizing s with
  | zero =>
    refine ⟨s, .refl s, fun _ _ _ => rfl, h, rfl, rfl, fun p hp => ?_⟩
    have hpos := (h.heeds p hp).next_pos
    exact (hpre p hp).1.resolve_right (by omega)
  | succ k ih =>
    obtain ⟨s₁, h₁, ha₁, hled₁, hI₁, hlog₁, hterm₁, hpost⟩ := h.round (serves_back cfg i k) hI hpre
    obtain ⟨s₂, h₂, ha₂, hled₂, hlog₂, hterm₂, hhas⟩ := ih hled₁ hI₁ hpost
    exact ⟨s₂, h₁.trans h₂, ha₁.trans ha₂, hled₂, hlog₂.trans hlog₁, hterm₂.trans hterm₁, hhas⟩

/-! ### Everything is committed -/

section Commit

variable {n q : RaftNode ι}

omit [DecidableEq ι] in
/-- Equal values have this value in the middle. -/
lemma RaftNode.majorityIndex_eq {peers : List ι}
    (h : ∀ p ∈ peers, n.matchIndex p = some n.log.length) :
    n.majorityIndex peers = n.log.length := by
  have hall : ∀ x ∈ (n.matchValues peers).insertionSort (· ≤ ·), x = n.log.length := by
    intro x hx
    rcases List.mem_cons.mp ((List.mem_insertionSort _).mp hx) with rfl | hx
    · rfl
    · obtain ⟨p, hp, hm⟩ := List.mem_filterMap.mp hx
      exact Option.some.inj (hm.symm.trans (h p hp))
  have hlen : (n.matchValues peers).length / 2 <
      ((n.matchValues peers).insertionSort (· ≤ ·)).length := by
    rw [List.length_insertionSort]
    exact Nat.div_lt_self (by simp [matchValues]) (by omega)
  rw [majorityIndex, List.getD_eq_getElem?_getD, List.getElem?_eq_getElem hlen, Option.getD_some]
  exact hall _ (List.getElem_mem _)

lemma RaftNode.counted_eq (h : n.log.length + 1 ≤ n.next p) : n.counted p = n :=
  if_pos (List.drop_eq_nil_of_le (by omega))

/-- The rest of the log arrives. -/
lemma serves_rest (cfg : Config ι) (i : ι) : Serves cfg i (fun _ => True)
    (fun p n q => Level n q p ∧ n.next p ≤ n.log.length) (fun p n q => Caught n q p) where
  round {n q p} hp h hI hpre := by
    obtain ⟨hl, hle⟩ := hpre
    have hpos := h.next_pos
    have hd : n.log.drop (n.next p - 1) ≠ [] := by
      rw [Ne, List.drop_eq_nil_iff]
      omega
    obtain ⟨-, hlog, -⟩ := h.step (cfg.peers i) (Or.inl hl)
    obtain ⟨hn, hq, -⟩ := h.accepted (cfg.peers i) i hl
    obtain ⟨c, hadv⟩ := (n.counted p).advanceCommitIndex_frame (cfg.peers i)
    have htables : ((n.counted p).advanceCommitIndex (cfg.peers i)).next p = n.log.length + 1 ∧
        ((n.counted p).advanceCommitIndex (cfg.peers i)).matchIndex p = some n.log.length := by
      rw [hadv, RaftNode.counted, if_neg hd]
      simp [RaftNode.next]
    refine ⟨Or.inl hl, ⟨?_, ?_, ?_⟩, trivial⟩
    · rw [hlog, hq, if_neg hd]
    · rw [hlog, hn]
      exact htables.1
    · rw [hlog, hn]
      exact htables.2
  pre hs h := by
    obtain ⟨⟨h1, h2⟩, h3⟩ := h
    exact ⟨⟨by rwa [hs.log, hs.next], by rwa [hs.log, hs.next]⟩, by rwa [hs.log, hs.next]⟩
  post hs h := by
    obtain ⟨h1, h2, h3⟩ := h
    exact ⟨by rwa [hs.log], by rwa [hs.log, hs.next], by rwa [hs.log, hs.mtch]⟩

omit [DecidableEq ι] in
lemma Caught.stays {n' : RaftNode ι} (h : Caught n q p) (hs : n.Stays n' p) : Caught n' q p :=
  ⟨hs.log ▸ h.log, by rw [hs.log, hs.next, h.next], by rw [hs.log, hs.mtch, h.mtch]⟩

/-- A heartbeat without entries. -/
lemma Heeds.caught (h : Heeds n q p) (hc : Caught n q p) (peers : List ι) :
    (after peers i n q p).leader = n.advanceCommitIndex peers ∧
      Caught (after peers i n q p).leader (after peers i n q p).peer p ∧
      n.commitIndex ≤ (after peers i n q p).peer.commitIndex := by
  obtain ⟨hn, hq, hcommit, -⟩ := h.accepted peers i hc.level
  rw [RaftNode.counted_eq hc.next.ge] at hn
  have hd : n.log.drop (n.next p - 1) = [] := List.drop_eq_nil_of_le (by rw [hc.next]; omega)
  rw [if_pos hd] at hq
  obtain ⟨c, hadv⟩ := n.advanceCommitIndex_frame peers
  refine ⟨hn, ?_, hcommit⟩
  rw [hn, hadv]
  exact ⟨hq.trans hc.log, hc.next, hc.mtch⟩

/-- The leader commits its log. -/
lemma serves_commit (cfg : Config ι) (i : ι) : Serves cfg i
    (fun n => (∀ p ∈ cfg.peers i, n.matchIndex p = some n.log.length) ∧
      n.termAt n.log.length = n.currentTerm)
    (fun p n q => Caught n q p) (fun p n q => Caught n q p ∧ n.log.length ≤ n.commitIndex) where
  round {n q p} hp h hI hc := by
    obtain ⟨hn, hc', -⟩ := h.caught hc (cfg.peers i) (i := i)
    obtain ⟨c, hadv⟩ := n.advanceCommitIndex_frame (cfg.peers i)
    refine ⟨Or.inl hc.level, ⟨hc', ?_⟩, ?_⟩
    · rw [hn]
      unfold RaftNode.advanceCommitIndex
      rw [RaftNode.majorityIndex_eq hI.1]
      split
      · exact le_rfl
      · next hnot =>
        by_contra hlt
        exact hnot ⟨not_le.mp hlt, hI.2⟩
    · rw [hn, hadv]
      exact hI
  pre hs h := h.stays hs
  post hs h := ⟨h.1.stays hs, hs.log ▸ h.2.trans hs.commit_le⟩

/-- The peers hear of it. -/
lemma serves_notice (cfg : Config ι) (i : ι) : Serves cfg i
    (fun n => n.log.length ≤ n.commitIndex)
    (fun p n q => Caught n q p) (fun p n q => Caught n q p ∧ n.log.length ≤ q.commitIndex) where
  round {n q p} hp h hI hc := by
    obtain ⟨hn, hc', hcommit⟩ := h.caught hc (cfg.peers i) (i := i)
    have hadv := n.advanceCommitIndex_le (cfg.peers i) h.commit_le h.term_pos
    have hlog : (n.advanceCommitIndex (cfg.peers i)).log = n.log := by
      obtain ⟨c, hc⟩ := n.advanceCommitIndex_frame (cfg.peers i)
      rw [hc]
    refine ⟨Or.inl hc.level, ⟨hc', ?_⟩, ?_⟩
    · rw [hn, hlog]
      exact hI.trans hcommit
    · rw [hn, hlog]
      exact hI.trans hadv.1
  pre hs h := h.stays hs
  post hs h := ⟨h.1.stays hs, hs.log ▸ h.2⟩

end Commit

/-- **What a leader has stored last is committed everywhere**, if it is of its term and there is a
peer. -/
lemma Cluster.Presides.commit (h : s.Presides i .idle) (hne : cfg.peers i ≠ [])
    (hlast : (s.nodes i).termAt (s.nodes i).log.length = (s.nodes i).currentTerm)
    (hpre : ∀ p, p ≠ i → Level (s.nodes i) (s.nodes p) p ∧
      (s.nodes i).next p ≤ (s.nodes i).log.length) :
    ∃ s', Leads cfg s s' ∧ s.Aside s' i .heartbeat ∧ (s'.nodes i).log = (s.nodes i).log ∧
      ∀ j, (s'.nodes j).log = (s.nodes i).log ∧
        (s'.nodes j).commitIndex = (s.nodes i).log.length := by
  obtain ⟨s₁, h₁, a₁, hled₁, -, hlog₁, hterm₁, hpost₁⟩ := h.round (serves_rest cfg i) trivial hpre
  obtain ⟨s₂, h₂, a₂, hled₂, -, hlog₂, -, hpost₂⟩ := hled₁.round (serves_commit cfg i)
    ⟨fun p hp => (hpost₁ p ((cfg.mem_peers i p).mp hp)).mtch, by
      unfold RaftNode.termAt at hlast ⊢
      rw [hlog₁, hterm₁]
      exact hlast⟩ hpost₁
  obtain ⟨p₀, hp₀⟩ := List.exists_mem_of_ne_nil _ hne
  obtain ⟨s₃, h₃, a₃, hled₃, hcommit, hlog₃, -, hpost₃⟩ := hled₂.round (serves_notice cfg i)
    (hpost₂ p₀ ((cfg.mem_peers i p₀).mp hp₀)).2 fun p hp => (hpost₂ p hp).1
  have hlog := hlog₃.trans (hlog₂.trans hlog₁)
  refine ⟨s₃, (h₁.trans h₂).trans h₃, (a₁.trans a₂).trans a₃, hlog, fun j => ?_⟩
  by_cases hj : j = i
  · subst hj
    refine ⟨hlog, ?_⟩
    have hle := (hled₃.heeds p₀ ((cfg.mem_peers j p₀).mp hp₀)).commit_le
    rw [← hlog]
    exact le_antisymm hle hcommit
  · obtain ⟨hc, hle⟩ := hpost₃ j hj
    refine ⟨hc.log.trans hlog, ?_⟩
    rw [← hlog]
    exact le_antisymm (hled₃.heeds j hj).peer_le hle

/-! ### A proposal -/

/-- The leader of the other nodes, which all have the log `l`. -/
structure Cluster.Backed (s : Cluster ι) (i : ι) (l : List LogEntry) : Prop where
  presides : s.Presides i .idle
  log : ∀ p, p ≠ i → l <+: (s.nodes p).log

section Proposal

variable {n q : RaftNode ι} {l : List LogEntry} {e : LogEntry} {k : ℕ}

/-- **A peer that has the log takes the new entry.** -/
lemma Heeds.proposed (h : Heeds n q p) (hlog : n.log = l ++ [e]) (hq : l <+: q.log) :
    (q.onAppendEntries (n.proposeRequest i e)).2 = ⟨n.currentTerm, true⟩ ∧
      Heeds n (q.onAppendEntries (n.proposeRequest i e)).1 p ∧
      l <+: (q.onAppendEntries (n.proposeRequest i e)).1.log := by
  have hreq : n.proposeRequest i e =
      ⟨n.currentTerm, i, l.length, RaftNode.termIn n.log l.length, [e], 0⟩ := by
    rw [RaftNode.proposeRequest_eq (by simp [hlog])]
    simp [hlog, RaftNode.termAt]
  have hterm : RaftNode.termIn q.log l.length = RaftNode.termIn n.log l.length := by
    rw [termIn_of_isPrefix hq le_rfl, hlog, termIn_of_isPrefix (List.prefix_append _ _) le_rfl]
  have ha : q.Accepts (n.proposeRequest i e) := by
    rw [hreq]
    exact ⟨h.term_le, hq.length_le, hterm⟩
  rw [RaftNode.onAppendEntries_of_accepts ha, hreq]
  obtain ⟨h1, -, h2⟩ := RaftNode.followLeader_frame h.term_le i
  refine ⟨rfl, ⟨h.role, h.term_pos, h1.le, h.next_pos, h.commit_le, ?_⟩, ?_⟩
  · simp only [RaftNode.acceptEntries, h2, Nat.not_lt_zero, if_false]
    exact h.peer_le
  · obtain ⟨u, hu⟩ := hq
    simp only [RaftNode.acceptEntries, (q.followLeader_yields n.currentTerm i).log, ← hu]
    simp [RaftNode.appendAt]

variable (cfg) in
/-- A call of the proposal that is answered. -/
lemma Cluster.Backed.answered {index acks : ℕ} {rest : List ι} (h : s.Backed i l)
    (hlog : (s.nodes i).log = l ++ [e]) (hp : p ≠ i)
    (hth : s.threads i (.client k) = ⟨.replicating e index acks rest,
      some ⟨p, .append ((s.nodes i).proposeRequest i e), none⟩⟩) :
    ∃ s', Leads cfg s s' ∧ s.Aside s' i (.client k) ∧ s'.Backed i l ∧ s'.nodes i = s.nodes i ∧
      s'.threads i (.client k) = if RaftNode.needed (cfg.peers i) ≤ acks + 1
        then ⟨.acknowledged e index, none⟩
        else .loop (.replicating e index (acks + 1)) (.append ((s.nodes i).proposeRequest i e))
          (replicated cfg i e index (acks + 1)) rest := by
  obtain ⟨hresp, hheeds, hpre⟩ := (h.presides.heeds p hp).proposed (i := i) hlog (h.log p hp)
  set req := (s.nodes i).proposeRequest i e with hreq
  set out := (s.nodes p).onAppendEntries req with hout
  set s₁ := (s.setNode p out.1).setThread i (.client k)
    ⟨.replicating e index acks rest, some ⟨p, .append req, some (.append out.2)⟩⟩ with hs₁
  have h₁ : s.step cfg (.handle i (.client k)) = some s₁ := by
    simp [step, handle, hth, hs₁, RaftNode.handle, hout]
  have hnode : s₁.nodes i = s.nodes i := by simp [hs₁, setThread, setNode, hp.symm]
  have hreply : (s.nodes i).proposeReply (cfg.peers i) acks out.2 = (s.nodes i,
      if RaftNode.needed (cfg.peers i) ≤ acks + 1 then .acked else .next (acks + 1)) := by
    unfold RaftNode.proposeReply
    rw [hresp, if_neg (not_not.mpr h.presides.role), if_neg (lt_irrefl _)]
    simp only [if_true]
    split <;> rfl
  set th := if RaftNode.needed (cfg.peers i) ≤ acks + 1
    then (⟨.acknowledged e index, none⟩ : ThreadState ι)
    else .loop (.replicating e index (acks + 1)) (.append req)
      (replicated cfg i e index (acks + 1)) rest with hthdef
  set s₂ := (s₁.setNode i (s.nodes i)).setThread i (.client k) th with hs₂
  have h₂ : s₁.step cfg (.resume i (.client k) false) = some s₂ := by
    have hth₁ : s₁.threads i (.client k) = ⟨.replicating e index acks rest,
        some ⟨p, .append req, some (.append out.2)⟩⟩ := by
      simp [hs₁, setThread]
    have hres : s₁.proposeResume cfg i (.client k) e index acks rest req out.2 = s₂ := by
      unfold proposeResume
      rw [hnode, hreply, hs₂, hthdef]
      split
      · next n' hn =>
        split at hn <;> simp at hn
      · next n' hn =>
        split at hn
        · next hle =>
          rw [if_pos hle]
          obtain ⟨rfl, -⟩ := Prod.mk.inj hn
          rfl
        · simp at hn
      · next n' a hn =>
        split at hn
        · simp at hn
        · next hle =>
          rw [if_neg hle]
          obtain ⟨rfl, ha⟩ := Prod.mk.inj hn
          obtain rfl := RaftNode.ProposeOutcome.next.inj ha
          rfl
    simp [step, resume, hth₁, continueWith, hres]
  have haside : s.Aside s₂ i (.client k) :=
    Aside.trans (s.aside_setThread i (.client k) _)
      (s₁.aside_setThread i (.client k) _)
  have hi : s₂.nodes i = s.nodes i := by simp [hs₂, setThread, setNode]
  have hother : ∀ r, r ≠ i → r ≠ p → s₂.nodes r = s.nodes r := by
    intro r hr hrp
    simp [hs₂, hs₁, setThread, setNode, hr, hrp]
  have hpeer : s₂.nodes p = out.1 := by simp [hs₂, hs₁, setThread, setNode, hp]
  refine ⟨s₂, (Leads.step h₁ (by simp)).trans (.step h₂ (by simp)), haside,
    ⟨⟨?_, hi ▸ h.presides.role, fun r hr => ?_⟩, fun r hr => ?_⟩, hi, by simp [hs₂, setThread]⟩
  · rw [haside i .heartbeat (by simp)]
    exact h.presides.thread
  · rw [hi]
    by_cases hrp : r = p
    · rw [hrp, hpeer]
      exact hheeds
    · rw [hother r hr hrp]
      exact h.presides.heeds r hr
  · by_cases hrp : r = p
    · rw [hrp, hpeer]
      exact hpre
    · rw [hother r hr hrp]
      exact h.log r hr

variable (cfg) in
/-- **The proposal is acknowledged** by enough peers. -/
lemma Cluster.Backed.acked {index acks : ℕ} {rest : List ι} (h : s.Backed i l)
    (hlog : (s.nodes i).log = l ++ [e]) (hps : ∀ r ∈ p :: rest, r ≠ i)
    (hth : s.threads i (.client k) = ⟨.replicating e index acks rest,
      some ⟨p, .append ((s.nodes i).proposeRequest i e), none⟩⟩)
    (hneed : RaftNode.needed (cfg.peers i) ≤ acks + 1 + rest.length) :
    ∃ s', Leads cfg s s' ∧ s.Aside s' i (.client k) ∧ s'.Backed i l ∧ s'.nodes i = s.nodes i ∧
      s'.threads i (.client k) = ⟨.acknowledged e index, none⟩ := by
  induction rest generalizing s p acks with
  | nil =>
    obtain ⟨s', h1, h2, h3, h4, h5⟩ :=
      h.answered cfg hlog (hps p List.mem_cons_self) hth
    exact ⟨s', h1, h2, h3, h4, h5.trans (if_pos hneed)⟩
  | cons r rest ih =>
    obtain ⟨s', h1, h2, h3, h4, h5⟩ :=
      h.answered cfg hlog (hps p List.mem_cons_self) hth
    by_cases hle : RaftNode.needed (cfg.peers i) ≤ acks + 1
    · exact ⟨s', h1, h2, h3, h4, h5.trans (if_pos hle)⟩
    · rw [if_neg hle, ← h4] at h5
      obtain ⟨s'', k1, k2, k3, k4, k5⟩ := ih h3 (h4 ▸ hlog)
        (fun r hr => hps r (List.mem_cons_of_mem _ hr)) h5 (by
          rw [List.length_cons] at hneed
          omega)
      exact ⟨s'', h1.trans k1, h2.trans k2, k3, k4.trans h4, k5⟩

variable (cfg) in
/-- The notices of an acknowledged proposal may all be lost. -/
lemma Cluster.notices_lost {index : ℕ} {rest : List ι} {hb : AppendEntriesReq ι}
    (hle : hb.term ≤ (s.nodes i).currentTerm)
    (hth : s.threads i (.client k) = ⟨.notifying e index rest, some ⟨p, .append hb, none⟩⟩) :
    ∃ s', Leads cfg s s' ∧ s.Aside s' i (.client k) ∧ s'.nodes = s.nodes ∧
      (i, index, e) ∈ s'.acked := by
  have hreply : ∀ b, (s.nodes i).noticeReply ⟨hb.term, b⟩ = (s.nodes i, true) := fun b => by
    rw [RaftNode.noticeReply, if_neg (not_lt.mpr hle)]
  induction rest generalizing s p with
  | nil =>
    set s₁ := ({ s with late := (p, .append hb) :: s.late }.setNode i (s.nodes i)).returnTrue i
      (.client k) e index with hs₁
    have h₁ : s.step cfg (.resume i (.client k) true) = some s₁ := by
      simp [step, resume, hth, continueWith, Request.unavailable, noticeResume, hreply, hs₁]
    refine ⟨s₁, .step h₁ (by simp), ?_, by simp [hs₁, returnTrue, setThread, setNode],
      by simp [hs₁, returnTrue]⟩
    exact s.aside_setThread i (.client k) _
  | cons r rest ih =>
    set s₁ := ({ s with late := (p, .append hb) :: s.late }.setNode i (s.nodes i)).setThread i
      (.client k) ⟨.notifying e index rest, some ⟨r, .append hb, none⟩⟩ with hs₁
    have h₁ : s.step cfg (.resume i (.client k) true) = some s₁ := by
      simp [step, resume, hth, continueWith, Request.unavailable, noticeResume, hreply, hs₁]
    have hnodes : s₁.nodes = s.nodes := by simp [hs₁, setThread, setNode]
    obtain ⟨s', k1, k2, k3, k4⟩ := ih (s := s₁) (p := r) (by rw [hnodes]; exact hle)
      (by simp [hs₁, setThread]) (by rw [hnodes]; exact hreply)
    exact ⟨s', (Leads.step h₁ (by simp)).trans k1,
      Aside.trans (s.aside_setThread i (.client k) _) k2, k3.trans hnodes, k4⟩

/-- **A proposal of a leader that all peers agree with** returns true. -/
lemma Cluster.Presides.propose (h : s.Presides i .idle) (hne : cfg.peers i ≠ []) {key value : Bytes}
    (hclient : s.threads i (.client k) = .idle)
    (hhas : ∀ p, p ≠ i → Has (s.nodes i) (s.nodes p) p) :
    ∃ s', Leads cfg s s' ∧ s'.Presides i .idle ∧
      (s'.nodes i).log = (s.nodes i).log ++ [⟨(s.nodes i).currentTerm, .put, key, value⟩] ∧
      (s'.nodes i).currentTerm = (s.nodes i).currentTerm ∧
      (i, (s.nodes i).log.length + 1, ⟨(s.nodes i).currentTerm, .put, key, value⟩) ∈ s'.acked ∧
      ∀ p, p ≠ i → Level (s'.nodes i) (s'.nodes p) p ∧
        (s'.nodes i).next p ≤ (s'.nodes i).log.length := by
  set n := s.nodes i with hn
  set e : LogEntry := ⟨n.currentTerm, .put, key, value⟩ with he
  have hrole : n.role = .leader := h.role
  obtain ⟨p, ps, hps⟩ := List.exists_cons_of_ne_nil hne
  have hp : ∀ r ∈ p :: ps, r ≠ i := fun r hr => (cfg.mem_peers i r).mp (hps ▸ hr)
  set s₁ := (s.setNode i (n.pushEntry e)).setThread i (.client k)
    ⟨.appended e (n.log.length + 1), none⟩ with hs₁
  have h₁ : s.step cfg (.proposePut i k key value) = some s₁ := by
    simp [step, proposePut, Cluster.propose, hclient, ThreadState.idle, RaftNode.proposeAppend,
      hrole, hs₁, RaftNode.lastLogIndex, RaftNode.pushEntry, ← hn, he]
  have hnode₁ : s₁.nodes i = n.pushEntry e := by simp [hs₁, setThread, setNode]
  have hother₁ : ∀ r, r ≠ i → s₁.nodes r = s.nodes r := fun r hr => by
    simp [hs₁, setThread, setNode, hr]
  have haside₁ : s.Aside s₁ i (.client k) := s.aside_setThread i (.client k) _
  have hpush : ∀ r, r ≠ i → Heeds (n.pushEntry e) (s.nodes r) r := fun r hr => by
    obtain ⟨a1, a2, a3, a4, a5, a6⟩ : Heeds n (s.nodes r) r := h.heeds r hr
    refine ⟨a1, a2, a3, a4, ?_, ?_⟩
    · simp only [RaftNode.pushEntry, List.length_append, List.length_singleton]
      omega
    · simp only [RaftNode.pushEntry, List.length_append, List.length_singleton]
      omega
  have hback₁ : s₁.Backed i n.log := by
    refine ⟨⟨?_, hnode₁ ▸ h.role, fun r hr => ?_⟩, fun r hr => ?_⟩
    · rw [haside₁ i .heartbeat (by simp)]
      exact h.thread
    · rw [hnode₁, hother₁ r hr]
      exact hpush r hr
    · rw [hother₁ r hr]
      exact (hhas r hr).1
  -- the position of the entry is read off the log again, which has not changed
  set s₂ := s₁.setThread i (.client k) ⟨.replicating e (n.log.length + 1) 1 ps,
    some ⟨p, .append ((n.pushEntry e).proposeRequest i e), none⟩⟩ with hs₂
  have h₂ : s₁.step cfg (.place i k) = some s₂ := by
    have hth : s₁.threads i (.client k) = ⟨.appended e (n.log.length + 1), none⟩ := by
      simp [hs₁, setThread]
    simp [step, place, hth, hps, ThreadState.loop, hs₂, hnode₁]
  have hback₂ : s₂.Backed i n.log :=
    ⟨⟨(s₁.aside_setThread i (.client k) _ i .heartbeat (by simp)).trans hback₁.presides.thread,
      hback₁.presides.role, hback₁.presides.heeds⟩, hback₁.log⟩
  have hth₂ : s₂.threads i (.client k) = ⟨.replicating e (n.log.length + 1) 1 ps,
      some ⟨p, .append ((n.pushEntry e).proposeRequest i e), none⟩⟩ := by
    simp [hs₂, setThread]
  have hneed : RaftNode.needed (cfg.peers i) ≤ 1 + 1 + ps.length := by
    rw [hps, RaftNode.needed, List.length_cons]
    omega
  obtain ⟨s₃, h₃, -, hback₃, hnode₃, hth₃⟩ := hback₂.acked cfg
    (show (s₁.nodes i).log = n.log ++ [e] by rw [hnode₁]; rfl) hp
    (by rw [hth₂, ← hnode₁]; rfl) hneed
  have hnode₃' : s₃.nodes i = n.pushEntry e := hnode₃.trans hnode₁
  set s₄ := s₃.setThread i (.client k) ⟨.notifying e (n.log.length + 1) ps,
    some ⟨p, .append ((s₃.nodes i).commitNotice i), none⟩⟩ with hs₄
  have h₄ : s₃.step cfg (.notify i k) = some s₄ := by
    simp [step, notify, hth₃, hps, hs₄]
  have hth₄ : s₄.threads i (.client k) = ⟨.notifying e (n.log.length + 1) ps,
      some ⟨p, .append ((s₃.nodes i).commitNotice i), none⟩⟩ := by
    simp [hs₄, setThread]
  obtain ⟨s₅, h₅, ha₅, hnodes₅, hacked⟩ := s₄.notices_lost cfg le_rfl hth₄
  have hnodes : s₅.nodes = s₃.nodes := hnodes₅
  refine ⟨s₅, ((((Leads.step h₁ (by simp)).trans (.step h₂ (by simp))).trans h₃).trans
    (.step h₄ (by simp))).trans h₅, ⟨?_, ?_, ?_⟩, ?_, ?_, hacked, fun r hr => ⟨⟨?_, ?_⟩, ?_⟩⟩
  · rw [ha₅ i .heartbeat (by simp), hs₄, s₃.aside_setThread i (.client k) _ i .heartbeat (by simp)]
    exact hback₃.presides.thread
  · rw [hnodes]
    exact hback₃.presides.role
  · rw [hnodes]
    exact hback₃.presides.heeds
  · rw [hnodes, hnode₃']
    rfl
  · rw [hnodes, hnode₃']
    rfl
  all_goals
    have hle := (hhas r hr).2
    rw [hnodes, hnode₃']
  · have htake : (n.pushEntry e).log.take ((n.pushEntry e).next r - 1) =
        n.log.take (n.next r - 1) := by
      change (n.log ++ [e]).take (n.next r - 1) = _
      rw [List.take_append_of_le_length (by omega)]
    rw [htake]
    exact (List.take_prefix _ _).trans (hback₃.log r hr)
  all_goals
    change n.next r ≤ _
    simp only [RaftNode.pushEntry, List.length_append, List.length_singleton]
    omega

end Proposal

/-! ### Everything is applied -/

/-- The node has committed the whole log `l`, and what it has applied or taken is of it. -/
structure Cluster.Due (s : Cluster ι) (j : ι) (l : List LogEntry) : Prop where
  log : (s.nodes j).log = l
  commit : (s.nodes j).commitIndex = l.length
  order : s.AppliesInOrder j
  applied : s.entriesOf j <+: l
  taken : ∀ index e, (s.threads j .apply).pc = .applying index e → l[index - 1]? = some e

section Apply

variable {j : ι} {l : List LogEntry}

/-- A run of the apply threads: the other nodes are left alone. -/
structure Cluster.Drains (cfg : Config ι) (s s' : Cluster ι) (j : ι) : Prop where
  run : ∃ as, s.run cfg as = some s'
  acked : s'.acked = s.acked
  log : ∀ r, (s'.nodes r).log = (s.nodes r).log
  commit : ∀ r, (s'.nodes r).commitIndex = (s.nodes r).commitIndex
  other : ∀ r, r ≠ j → (s.threads r .apply).call = none → s.SameApply s' r

namespace Cluster

lemma Drains.refl (s : Cluster ι) (j : ι) : Drains cfg s s j :=
  ⟨⟨[], rfl⟩, rfl, fun _ => rfl, fun _ => rfl, fun r _ _ => .refl s r⟩

lemma Drains.trans (h : Drains cfg s s' j) (h' : Drains cfg s' s'' j) : Drains cfg s s'' j where
  run := by
    obtain ⟨as, has⟩ := h.run
    obtain ⟨bs, hbs⟩ := h'.run
    exact ⟨as ++ bs, run_append has hbs⟩
  acked := h'.acked.trans h.acked
  log r := (h'.log r).trans (h.log r)
  commit r := (h'.commit r).trans (h.commit r)
  other r hr hc := by
    have hs := h.other r hr hc
    exact hs.trans (h'.other r hr (by rw [hs.thread, hc]))

lemma Due.same (h : s.Due j l) (hs : s.SameApply s' j) (hlog : (s'.nodes j).log = (s.nodes j).log)
    (hc : (s'.nodes j).commitIndex = (s.nodes j).commitIndex) : s'.Due j l where
  log := hlog.trans h.log
  commit := hc.trans h.commit
  order := h.order.same hs
  applied := by
    rw [entriesOf, hs.applied]
    exact h.applied
  taken index e he := h.taken index e (by rwa [hs.thread] at he)

/-- The thread takes the next entry. -/
lemma Due.take (h : s.Due j l) (hth : s.threads j .apply = .idle)
    (hlt : (s.entriesOf j).length < l.length) :
    ∃ s', Drains cfg s s' j ∧ s'.Due j l ∧ s'.entriesOf j = s.entriesOf j ∧
      ∃ index e, s'.threads j .apply = ⟨.applying index e, none⟩ := by
  have hlen : (s.entriesOf j).length = (s.appliedBy j).length := by simp [entriesOf]
  have hk : (s.nodes j).lastApplied = (s.appliedBy j).length := by
    rcases h.order.thread with ⟨-, hk⟩ | ⟨e, he, -⟩
    · exact hk
    · simp [hth, ThreadState.idle] at he
  obtain ⟨e, he⟩ : ∃ e, l[(s.nodes j).lastApplied]? = some e :=
    ⟨_, List.getElem?_eq_getElem (by omega)⟩
  set s₁ := (s.setNode j (s.nodes j).noteApplied).setThread j .apply
    ⟨.applying ((s.nodes j).lastApplied + 1) e, none⟩ with hs₁
  have htake : (s.nodes j).takeCommitted =
      some ((s.nodes j).noteApplied, (s.nodes j).lastApplied + 1, e) := by
    rw [RaftNode.takeCommitted, if_pos (by rw [h.commit]; omega), h.log, he]
    rfl
  have h₁ : s.step cfg (.take j) = some s₁ := by
    simp [step, Cluster.take, hth, ThreadState.idle, htake, hs₁]
  have hnode : ∀ r, (s₁.nodes r).log = (s.nodes r).log ∧
      (s₁.nodes r).commitIndex = (s.nodes r).commitIndex := fun r => by
    by_cases hr : r = j
    · subst hr
      simp [hs₁, setThread, setNode, RaftNode.noteApplied]
    · simp [hs₁, setThread, setNode, hr]
  have hsame : s₁.entriesOf j = s.entriesOf j := rfl
  have hthread : s₁.threads j .apply = ⟨.applying ((s.nodes j).lastApplied + 1) e, none⟩ := by
    simp [hs₁, setThread]
  refine ⟨s₁, ⟨⟨[.take j], Option.bind_eq_some_iff.mpr ⟨s₁, h₁, rfl⟩⟩, rfl, fun r => (hnode r).1,
    fun r => (hnode r).2, fun r hr hc => ?_⟩, ⟨(hnode j).1.trans h.log, (hnode j).2.trans h.commit,
    (h.order.effect (step_effect h₁)).1, h.applied, fun index e' he' => ?_⟩, hsame, _, _, hthread⟩
  · rcases (step_effect h₁).apply_cases hc with ⟨-, hs⟩ | ⟨e, ha, -⟩ | ⟨index, e, ha, -⟩
    · exact hs
    · exact absurd (Action.take.inj ha).symm hr
    · cases ha
  · rw [hthread] at he'
    obtain ⟨rfl, rfl⟩ := Pc.applying.inj he'
    exact he

variable (cfg) in
/-- The thread applies the entry it has taken. -/
lemma Due.apply (h : s.Due j l) {index : ℕ} {e : LogEntry}
    (hth : s.threads j .apply = ⟨.applying index e, none⟩) :
    ∃ s', Drains cfg s s' j ∧ s'.Due j l ∧ s'.threads j .apply = .idle ∧
      (s'.entriesOf j).length = (s.entriesOf j).length + 1 := by
  set s₁ := { s.setThread j .apply .idle with applied := (j, index, e) :: s.applied } with hs₁
  have h₁ : s.step cfg (.apply j) = some s₁ := by
    simp [step, Cluster.apply, hth, hs₁]
  have hindex : index = (s.appliedBy j).length + 1 := by
    rcases h.order.thread with ⟨he, -⟩ | ⟨e', he, -⟩
    · simp [hth, ThreadState.idle] at he
    · rw [hth] at he
      simp only [ThreadState.mk.injEq, Pc.applying.injEq] at he
      exact he.1.1
  have happ : s₁.entriesOf j = s.entriesOf j ++ [e] := by
    rcases (step_effect h₁).apply_cases h.order.call with ⟨hne, -⟩ | ⟨e', ha, -⟩ |
      ⟨index', e', -, hth', -, -, happ⟩
    · exact absurd rfl hne
    · cases ha
    · rw [hth] at hth'
      simp only [ThreadState.mk.injEq, Pc.applying.injEq] at hth'
      rw [entriesOf, happ, List.map_append, ← hth'.1.2]
      rfl
  have hidle : s₁.threads j .apply = .idle := by simp [hs₁, setThread]
  refine ⟨s₁, ⟨⟨[.apply j], Option.bind_eq_some_iff.mpr ⟨s₁, h₁, rfl⟩⟩, rfl, fun r => rfl,
    fun r => rfl, fun r hr hc => ?_⟩, ⟨h.log, h.commit, (h.order.effect (step_effect h₁)).1, ?_,
    fun index' e' he' => ?_⟩, hidle, by rw [happ]; simp⟩
  · rcases (step_effect h₁).apply_cases hc with ⟨-, hs⟩ | ⟨e, ha, -⟩ | ⟨index, e, ha, -⟩
    · exact hs
    · cases ha
    · exact absurd (Action.apply.inj ha).symm hr
  · have he := h.taken index e (by rw [hth])
    obtain ⟨u, hu⟩ := h.applied
    have hlen : (s.entriesOf j).length = (s.appliedBy j).length := by simp [entriesOf]
    rw [hindex, Nat.add_sub_cancel, ← hu, ← hlen, List.getElem?_append_right le_rfl, Nat.sub_self]
      at he
    rw [happ, ← hu]
    refine (List.prefix_append_right_inj _).mpr ?_
    cases u with
    | nil => simp at he
    | cons x u =>
      obtain rfl := Option.some.inj he
      exact ⟨u, rfl⟩
  · rw [hidle] at he'
    cases he'

variable (cfg) in
/-- **A node applies its whole log.** -/
lemma Due.drain (h : s.Due j l) :
    ∃ s', Drains cfg s s' j ∧ s'.Due j l ∧ s'.entriesOf j = l := by
  obtain ⟨d, hd⟩ : ∃ d, l.length - (s.entriesOf j).length = d := ⟨_, rfl⟩
  induction d generalizing s with
  | zero =>
    refine ⟨s, .refl s j, h, h.applied.eq_of_length_le (by omega)⟩
  | succ d ih =>
    -- the thread has an entry in its hands, or takes the next one
    obtain ⟨s₁, h₁, hdue₁, hent₁, index, e, hth₁⟩ : ∃ s₁, Drains cfg s s₁ j ∧ s₁.Due j l ∧
        s₁.entriesOf j = s.entriesOf j ∧
        ∃ index e, s₁.threads j .apply = ⟨.applying index e, none⟩ := by
      rcases h.order.thread with ⟨hth, -⟩ | ⟨e, hth, -⟩
      · exact h.take hth (by omega)
      · exact ⟨s, .refl s j, h, rfl, _, _, hth⟩
    obtain ⟨s₂, h₂, hdue₂, -, hlen₂⟩ := hdue₁.apply cfg hth₁
    rw [hent₁] at hlen₂
    obtain ⟨s', h', hdue', hent'⟩ := ih hdue₂ (by omega)
    exact ⟨s', (h₁.trans h₂).trans h', hdue', hent'⟩

variable (cfg) in
/-- **All nodes of a list do.** -/
lemma drain_all {js : List ι} (hnd : js.Nodup) (h : ∀ j, s.Due j l) :
    ∃ s', (∃ as, s.run cfg as = some s') ∧ s'.acked = s.acked ∧ (∀ j, s'.Due j l) ∧
      (∀ j ∈ js, s'.entriesOf j = l) ∧ ∀ j, j ∉ js → s.SameApply s' j := by
  induction js generalizing s with
  | nil => exact ⟨s, ⟨[], rfl⟩, rfl, h, by simp, fun j _ => .refl s j⟩
  | cons j js ih =>
    obtain ⟨hj, hnd⟩ := List.nodup_cons.mp hnd
    obtain ⟨s₁, h₁, hdue₁, hent₁⟩ := (h j).drain cfg
    have hother : ∀ r, r ≠ j → s.SameApply s₁ r := fun r hr => h₁.other r hr (h r).order.call
    have hall : ∀ r, s₁.Due r l := fun r => by
      by_cases hr : r = j
      · exact hr ▸ hdue₁
      · exact (h r).same (hother r hr) (h₁.log r) (h₁.commit r)
    obtain ⟨s', ⟨bs, hbs⟩, hacked, hall', hent', hsame⟩ := ih hnd hall
    obtain ⟨as, has⟩ := h₁.run
    refine ⟨s', ⟨as ++ bs, run_append has hbs⟩, hacked.trans h₁.acked, hall', fun r hr => ?_,
      fun r hr => ?_⟩
    · rcases List.mem_cons.mp hr with rfl | hr
      · rw [entriesOf, (hsame r hj).applied]
        exact hent₁
      · exact hent' r hr
    · rw [List.mem_cons, not_or] at hr
      exact (hother r hr.1).trans (hsame r hr.2)

end Cluster

end Apply

/-! ### The state of a run -/

section Start

variable [Fintype ι] {r : Logs ι}

/-- **The leader of the latest term** leads in every state of a disciplined run. -/
lemma Tracks.led (ht : Tracks s r) (hi : r.Inv LogEntry.term) (hc : Commits cfg s r)
    (hbeat : s.threads i .heartbeat = .idle) (hr : (s.nodes i).role = .leader)
    (hle : ∀ j, (s.nodes j).currentTerm ≤ (s.nodes i).currentTerm) :
    s.Presides i .idle ∧ (∀ e ∈ (s.nodes i).log, 0 < e.term) ∧
      ∀ p, Comparable (s.nodes i) (s.nodes p) := by
  have hel := (ht.leaderLog hi hr).1
  have hpos : ∀ j, ∀ e ∈ (s.nodes j).log, 0 < e.term := fun j e he => by
    obtain ⟨k, hk⟩ := List.mem_iff_getElem?.mp he
    rw [← ht.log j] at hk
    exact (hi.won _ (hi.log_coherent j k e hk).1).1
  refine ⟨⟨hbeat, hr, fun p hp => ⟨hr, (hi.won _ hel).1, hle p, ?_, (hc.nodes i).commit_le, ?_⟩⟩,
    hpos i, fun p => ⟨fun k e e' he he' hterm => ?_, hpos p⟩⟩
  · unfold RaftNode.next
    cases hn : (s.nodes i).nextIndex p with
    | none => exact le_rfl
    | some k => exact (hc.nodes i).next_pos p k hn
  · have hpre := (ht.settled_le hi hr hle (hc.nodes p).settled).length_le
    have := (hc.nodes p).commit_le
    rw [List.length_take] at hpre
    omega
  · rw [← ht.log i] at he ⊢
    rw [← ht.log p] at he' ⊢
    rw [(hi.log_coherent i k e he).2, (hi.log_coherent p k e' he').2, hterm]

end Start

/-- **A proposal can always be completed.** In every state of a disciplined run, when the leader of
the latest term has a peer and is between two rounds of heartbeats, there is a continuation after
which a proposal of a free client of it has returned true and every node has stored, committed and
applied the log of the leader with the new entry at its end, and nothing else. -/
theorem proposal_completes [Fintype ι] (cfg : Config ι) {as : List (Action ι)}
    {stores : ι → KVStore} {x : Service ι} (hrun : (Service.start stores).run cfg as = some x)
    (ha : Cluster.init.AllMeet cfg Cluster.Disciplined as) {i : ι} {k : ℕ}
    (hr : (x.cluster.nodes i).role = .leader)
    (hle : ∀ j, (x.cluster.nodes j).currentTerm ≤ (x.cluster.nodes i).currentTerm)
    (hne : cfg.peers i ≠ []) (hbeat : x.cluster.threads i .heartbeat = .idle)
    (hclient : x.cluster.threads i (.client k) = .idle) (key value : Bytes) :
    ∃ e l bs z, e = ⟨(x.cluster.nodes i).currentTerm, .put, key, value⟩ ∧
      l = (x.cluster.nodes i).log ++ [e] ∧ x.run cfg bs = some z ∧
      (i, l.length, e) ∈ z.cluster.acked ∧
      ∀ j, (z.cluster.nodes j).log = l ∧ (z.cluster.nodes j).commitIndex = l.length ∧
        z.cluster.entriesOf j = l ∧ z.stores j = (stores j).applyEntries l ∧
        (z.stores j).get key = some value := by
  obtain ⟨r, hm, ht, hc⟩ := run_disciplined init_tracks Replicas.init_inv init_commits ha
    (Service.run_cluster hrun)
  have hi := (Replicas.init_inv.steps hm).1
  have hholds := fun j => ((Service.start_holds stores j).run hrun).1
  obtain ⟨hled, hpos, hcomp⟩ := ht.led hi hc hbeat hr hle
  set n := x.cluster.nodes i with hn
  set e : LogEntry := ⟨n.currentTerm, .put, key, value⟩ with he
  -- all peers come to have the log, and the proposal goes through
  obtain ⟨s₁, h₁, a₁, hled₁, hlog₁, hterm₁, hhas₁⟩ := hled.level cfg
    (k := Finset.univ.sup fun p => n.next p) hpos
    fun p _ => ⟨Or.inr (Finset.le_sup (f := fun p => n.next p) (Finset.mem_univ p)), hcomp p⟩
  obtain ⟨s₂, h₂, hled₂, hlog₂, hterm₂, hack₂, hlevel₂⟩ := hled₁.propose hne (k := k)
    ((a₁ i (.client k) (by simp)).trans hclient) hhas₁
  rw [hterm₁, hlog₁] at hlog₂ hack₂
  rw [hterm₁] at hterm₂
  -- the entry is committed everywhere
  obtain ⟨s₃, h₃, -, -, hall₃⟩ := hled₂.commit hne (by
    rw [RaftNode.termAt, hlog₂, hterm₂, termIn_eq (by simp) le_rfl]
    simp) hlevel₂
  rw [hlog₂] at hall₃
  have hleads := (h₁.trans h₂).trans h₃
  have hsame : ∀ j, x.cluster.SameApply s₃ j := fun j => hleads.apply j (hholds j).order.call
  have hgrow : ∀ index e', Applied r index e' → (n.log ++ [e])[index - 1]? = some e' := by
    intro index e' hap
    have hget := (ht.applied_le hi hr hle hap).2
    rw [List.getElem?_append_left (List.getElem?_eq_some_iff.mp hget).1]
    exact hget
  have hdue : ∀ j, s₃.Due j (n.log ++ [e]) := fun j => by
    refine ⟨(hall₃ j).1, (hall₃ j).2, (hholds j).order.same (hsame j), ?_, fun index e' he' => ?_⟩
    · rw [Cluster.entriesOf, (hsame j).applied]
      refine List.prefix_iff_getElem?.mpr fun k hk => ?_
      have hmem := (hholds j).order.mem_applied (List.getElem?_eq_getElem hk)
      have hget := hgrow _ _ (hc.applied _ _ _ hmem)
      rwa [Nat.add_sub_cancel] at hget
    · rw [(hsame j).thread] at he'
      exact hgrow index e' ((hc.threads j .apply).applying index e' he')
  -- and applied
  obtain ⟨s₄, ⟨cs, hcs⟩, hacked₄, hdue₄, hent₄, -⟩ := Cluster.drain_all cfg
    (Finset.univ.nodup_toList (α := ι)) hdue
  obtain ⟨bs, hbs⟩ := hleads.run
  obtain ⟨z, hz, rfl⟩ := Service.exists_run (x := x) (Cluster.run_append hbs hcs)
  refine ⟨e, n.log ++ [e], _, z, rfl, rfl, hz, ?_, fun j => ?_⟩
  · rw [hacked₄]
    simp only [List.length_append, List.length_singleton]
    exact h₃.acked hack₂
  · have hj := hent₄ j (by simp)
    have hstore : z.stores j = (stores j).applyEntries (n.log ++ [e]) := by
      rw [← hj]
      exact ((hholds j).run hz).1.store
    refine ⟨(hdue₄ j).log, (hdue₄ j).commit, hj, hstore, ?_⟩
    rw [hstore, KVStore.get, KVStore.applyEntries_map, List.map_append, updates_append]
    simp [updates, update, entryUpdate, he]

/-- The first node has just been elected. -/
theorem proposal_completes_elected : ∃ (l : List LogEntry) (bs : List (Action (Fin 3)))
    (z : Service (Fin 3)), (Service.start fun _ => KVStore.new).run threeNodes (firstElection ++ bs) =
      some z ∧ ∀ j, (z.cluster.nodes j).log = l ∧ z.stores j = KVStore.new.applyEntries l ∧
        (z.stores j).get (text "a") = some (text "1") := by
  have h : (Cluster.init.run threeNodes firstElection).any (fun s =>
      (s.threads 0 .heartbeat).isIdle ∧ (s.threads 0 (.client 0)).isIdle ∧
        (s.nodes 0).role = .leader ∧
        ∀ j, (s.nodes j).currentTerm ≤ (s.nodes 0).currentTerm) = true := by
    decide +kernel
  obtain ⟨s, hs, hx⟩ := (Option.any_eq_true _ _).mp h
  obtain ⟨hbeat, hclient, hr, hle⟩ := of_decide_eq_true hx
  obtain ⟨x, hrun, rfl⟩ := Service.exists_run (x := .start fun _ => KVStore.new) hs
  obtain ⟨e, l, bs, z, -, -, hz, -, hall⟩ := proposal_completes threeNodes hrun (by decide +kernel)
    hr hle (by decide) (ThreadState.eq_idle hbeat) (ThreadState.eq_idle hclient) (text "a") (text "1")
  refine ⟨l, bs, z, ?_, fun j => ⟨(hall j).1, (hall j).2.2.2⟩⟩
  unfold Service.run at hrun hz ⊢
  rw [List.foldlM_append, hrun]
  exact hz

end VeriStore.Raft

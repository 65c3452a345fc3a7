import VeriStore.Lib.Lineage
import VeriStore.Raft.Speakers

/-!
Log matching: what logs with a common entry have in common.

The logs of a cluster descend from the logs of the elected leaders (`Lib.Lineage`): a request
carries a part of the log of its sender, and a node that accepts it has the same entries in front
of that part. It does not matter who sends, nor what else the request cuts off. What matters is
that a proposal sends its entry for the position where the log has it (`Cluster.AtEnd`,
`log_matching`); another client may append behind it before the position is read
(`matching_broken`).
-/

namespace VeriStore.Raft

open VeriStore.Lib Relation

variable {ι : Type} [DecidableEq ι]

/-! ### The condition on proposals -/

namespace Cluster

/-- **A proposal finds its entry at the end of the log** when it reads the position for its
request. A node without peers sends none. -/
def AtEnd (cfg : Config ι) (s : Cluster ι) : Action ι → Prop
  | .place i k => ∀ x ∈ (s.threads i (.client k)).appended?, cfg.peers i ≠ [] →
      (s.nodes i).log.getLast? = some x.1
  | _ => True

instance (cfg : Config ι) (s : Cluster ι) : (a : Action ι) → Decidable (s.AtEnd cfg a)
  | .place i k => inferInstanceAs (Decidable (∀ x ∈ (s.threads i (.client k)).appended?, _ → _))
  | .timeout _ | .stand _ | .beat _ | .build _ | .proposePut _ _ _ _ | .proposeDel _ _ _
  | .notify _ _ | .take _ | .apply _ | .handle _ _ | .resume _ _ _ | .handleLate _ => isTrue trivial

end Cluster

/-! ### Parts of logs -/

/-- The logs of the elected leaders. -/
abbrev Authors := ℕ → List LogEntry

/-- The log holds what was copied from the leaders' logs. -/
abbrev Copied (Λ : Authors) (l : List LogEntry) : Prop := Descends LogEntry.term Λ l

/-- The entries of a request are a part of a log, behind the previous index. -/
def Part (Λ : Authors) (req : AppendEntriesReq ι) : Prop :=
  req.entries ≠ [] → ∃ l, Copied Λ l ∧ req.prevLogIndex ≤ l.length ∧
    req.prevLogTerm = RaftNode.termIn l req.prevLogIndex ∧
    l.take req.prevLogIndex ++ req.entries <+: l

/-- The request in progress of a thread. -/
def Carries (Λ : Authors) (x : ThreadState ι) : Prop :=
  ∀ c req, x.call = some c → c.request = .append req → Part Λ req

section Parts

variable {Λ Λ' : Authors}

omit [DecidableEq ι] in
lemma Part.mono {req : AppendEntriesReq ι} (h : Part Λ req) (hg : ∀ t, Λ t <+: Λ' t) :
    Part Λ' req := by
  intro hne
  obtain ⟨l, hl, h1, h2, h3⟩ := h hne
  exact ⟨l, hl.mono hg, h1, h2, h3⟩

omit [DecidableEq ι] in
lemma Part.of_nil {req : AppendEntriesReq ι} (h : req.entries = []) : Part Λ req :=
  fun hne => absurd h hne

/-- Two logs with the same term at an index agree up to it. -/
lemma Copied.take_eq {l l' : List LogEntry} (hl : Copied Λ l) (hl' : Copied Λ l') {k : ℕ}
    (hk : k ≤ l.length) (hk' : k ≤ l'.length)
    (ht : RaftNode.termIn l k = RaftNode.termIn l' k) : l.take k = l'.take k := by
  by_cases h0 : k = 0
  · simp [h0]
  · have e1 : l[k - 1]? = some l[k - 1] := List.getElem?_eq_getElem (by omega)
    have e2 : l'[k - 1]? = some l'[k - 1] := List.getElem?_eq_getElem (by omega)
    simp only [RaftNode.termIn, if_neg h0, e1, e2, Option.map_some, Option.getD_some] at ht
    have := Descends.take_eq hl hl' e1 e2 ht
    rwa [Nat.sub_add_cancel (by omega)] at this

omit [DecidableEq ι] in
/-- **An accepted part is copied.** -/
lemma Part.appendAt {req : AppendEntriesReq ι} (h : Part Λ req) {n : RaftNode ι}
    (hn : Copied Λ n.log) (ha : n.Accepts req) :
    Copied Λ (RaftNode.appendAt n.log req.prevLogIndex req.entries) := by
  unfold RaftNode.appendAt
  split
  · exact hn
  · next hne =>
    obtain ⟨l, hl, h1, h2, h3⟩ := h hne
    rw [hn.take_eq hl ha.2.1 h1 (ha.2.2.trans h2)]
    exact Descends.of_isPrefix hl h3

omit [DecidableEq ι] in
/-- A heartbeat carries the end of the log of its sender. -/
lemma build_part {n : RaftNode ι} (hn : Copied Λ n.log) (i p : ι) :
    Part Λ (n.buildAppendEntries i p) := by
  intro hne
  simp only [RaftNode.buildAppendEntries] at hne ⊢
  set next := (n.nextIndex p).getD 1
  have hrange : 1 ≤ next ∧ next ≤ n.log.length := by
    by_contra hx
    simp [hx] at hne
  have hprev : (if next = 0 ∨ next = 1 then 0 else next - 1) = next - 1 := by
    split <;> omega
  rw [hprev, if_pos hrange]
  refine ⟨n.log, hn, by omega, rfl, ?_⟩
  rw [List.take_append_drop]

omit [DecidableEq ι] in
/-- **A proposal carries the last entry of the log of its sender.** -/
lemma propose_part {n : RaftNode ι} (hn : Copied Λ n.log) {e : LogEntry}
    (he : n.log.getLast? = some e) (i : ι) : Part Λ (n.proposeRequest i e) := by
  intro _
  have hne : n.log ≠ [] := by
    intro h0
    simp [h0] at he
  have hlast := List.dropLast_append_getLast? e he
  rw [List.dropLast_eq_take] at hlast
  rw [RaftNode.proposeRequest_eq hne]
  refine ⟨n.log, hn, Nat.sub_le _ _, rfl, ?_⟩
  simp only [hlast]
  exact List.prefix_rfl

omit [DecidableEq ι] in
lemma Carries.mono {x : ThreadState ι} (h : Carries Λ x) (hg : ∀ t, Λ t <+: Λ' t) : Carries Λ' x :=
  fun c req hc hr => (h c req hc hr).mono hg

omit [DecidableEq ι] in
lemma Carries.of_none {pc : Pc ι} : Carries Λ (⟨pc, none⟩ : ThreadState ι) := by simp [Carries]

omit [DecidableEq ι] in
lemma Carries.idle : Carries Λ (.idle : ThreadState ι) := .of_none

omit [DecidableEq ι] in
lemma Carries.send {pc : Pc ι} {p : ι} {req : AppendEntriesReq ι} {a : Option Response}
    (h : Part Λ req) : Carries Λ ⟨pc, some ⟨p, .append req, a⟩⟩ := by
  intro c req' hc hr
  obtain rfl := Option.some.inj hc
  obtain rfl := Request.append.inj hr
  exact h

omit [DecidableEq ι] in
lemma Carries.loop {pc : List ι → Pc ι} {request : Request ι} {atEnd : ThreadState ι}
    {rest : List ι} (he : Carries Λ atEnd)
    (h : rest ≠ [] → ∀ req, request = .append req → Part Λ req) :
    Carries Λ (.loop pc request atEnd rest) := by
  cases rest with
  | nil => exact he
  | cons p rest =>
    intro c req hc hr
    obtain rfl := Option.some.inj hc
    exact h (by simp) req hr

omit [DecidableEq ι] in
lemma Carries.replicated {cfg : Config ι} {i : ι} {e : LogEntry} {index acks : ℕ} :
    Carries Λ (Cluster.replicated cfg i e index acks) := by
  unfold Cluster.replicated
  split
  · exact .idle
  · exact .of_none

end Parts

/-! ### Nodes -/

/-- **What a node is to the authors**: its log is copied, and a leader is the author of its term. -/
structure Copies (es : Cluster.Elections ι) (Λ : Authors) (i : ι) (n : RaftNode ι) : Prop where
  log : Copied Λ n.log
  leader : n.role = .leader → Cluster.Led es i n.currentTerm ∧ n.log = Λ n.currentTerm
  candidate : n.role = .candidate → ¬ Cluster.Led es i n.currentTerm
  led_le : ∀ t, Cluster.Led es i t → t ≤ n.currentTerm

section Nodes

variable {es : Cluster.Elections ι} {Λ : Authors} {i : ι} {n n' : RaftNode ι}

omit [DecidableEq ι] in
lemma RaftNode.Follows.term_le (h : n.Follows n') : n.currentTerm ≤ n'.currentTerm := by
  rcases h with ⟨h, -⟩ | ⟨h, -⟩ <;> omega

omit [DecidableEq ι] in
lemma Copies.yield (h : Copies es Λ i n) (hy : n.Yields n') : Copies es Λ i n' where
  log := hy.log ▸ h.log
  leader hr := by
    obtain ⟨hrole, ht, hlog⟩ := hy.office hr
    rw [ht, hlog]
    exact h.leader hrole
  candidate hr := by
    rcases hy.role with ⟨hrole, ht⟩ | hrole
    · rw [ht]
      exact h.candidate (hrole ▸ hr)
    · simp [hrole] at hr
  led_le t ht := (h.led_le t ht).trans hy.follows.term_le

omit [DecidableEq ι] in
/-- A vote, a commit index and the tables are not looked at. -/
lemma Copies.of_eq (h : Copies es Λ i n) (h1 : n'.log = n.log) (h2 : n'.role = n.role)
    (h3 : n'.currentTerm = n.currentTerm) : Copies es Λ i n' :=
  ⟨by rw [h1]; exact h.log, by rw [h1, h2, h3]; exact h.leader,
    by rw [h2, h3]; exact h.candidate, by rw [h3]; exact h.led_le⟩

/-- **The handler of a request.** -/
lemma Copies.handle (h : Copies es Λ i n) {request : Request ι}
    (hp : ∀ req, request = .append req → Part Λ req) : Copies es Λ i (n.handle request).1 := by
  cases request with
  | vote req =>
    rcases n.onRequestVote_cases req with ⟨hy, -⟩ | ⟨n₁, hy, -, -, -, he⟩
    · exact h.yield hy
    · simp only [RaftNode.handle, he]
      exact (h.yield hy).of_eq rfl rfl rfl
  | append req =>
    rcases n.onAppendEntries_cases req with ⟨hy, -⟩ | ⟨ha, he⟩
    · exact h.yield hy
    · have hy := h.yield (n.followLeader_yields req.term req.leaderId)
      have hlog := (n.followLeader_yields req.term req.leaderId).log
      have hrole := (RaftNode.followLeader_frame ha.1 req.leaderId).2.1
      simp only [RaftNode.handle, he, RaftNode.acceptEntries, hlog]
      exact ⟨(hp req rfl).appendAt h.log ha, by simp [hrole], by simp [hrole], hy.led_le⟩

omit [DecidableEq ι] in
lemma Copies.becomeCandidate (h : Copies es Λ i n) : Copies es Λ i (n.becomeCandidate i) where
  log := h.log
  leader := by simp [RaftNode.becomeCandidate]
  candidate _ hl := by
    have := h.led_le _ hl
    simp only [RaftNode.becomeCandidate] at this
    omega
  led_le t ht := (h.led_le t ht).trans (Nat.le_succ _)

omit [DecidableEq ι] in
/-- Another node has become the author of a term, or an author has a new entry. -/
lemma Copies.other (h : Copies es Λ i n) {es' : Cluster.Elections ι} {t : ℕ} {l : List LogEntry}
    (hes : ∀ u, Cluster.Led es i u → Cluster.Led es' i u)
    (hes' : ∀ u, Cluster.Led es' i u → Cluster.Led es i u) (hp : Λ t <+: l)
    (hne : n.role = .leader → n.currentTerm ≠ t) : Copies es' (Function.update Λ t l) i n where
  log := h.log.mono (isPrefix_update hp)
  leader hr := by
    obtain ⟨h1, h2⟩ := h.leader hr
    exact ⟨hes _ h1, by rw [Function.update_of_ne (hne hr), h2]⟩
  candidate hr hl := h.candidate hr (hes' _ hl)
  led_le u hu := h.led_le u (hes' u hu)

end Nodes

/-! ### Clusters -/

/-- **A cluster whose logs descend from the logs of its leaders.** -/
structure Matching (s : Cluster ι) (Λ : Authors) : Prop where
  authors : ∀ t, Copied Λ (Λ t)
  nodes : ∀ i, Copies s.elected Λ i (s.nodes i)
  unled : ∀ t, (∀ i, ¬ Cluster.Led s.elected i t) → Λ t = []
  threads : ∀ i th, Carries Λ (s.threads i th)
  late : ∀ p req, (p, .append req) ∈ s.late → Part Λ req

section Steps

variable {cfg : Config ι} {s s' : Cluster ι} {Λ : Authors}

lemma Matching.setThread (h : Matching s Λ) {i : ι} {th : Thread} {x : ThreadState ι}
    (hx : Carries Λ x) : Matching (s.setThread i th x) Λ :=
  { h with threads := Cluster.forall_setThread (P := fun _ => Carries Λ) h.threads hx }

lemma Matching.setNode (h : Matching s Λ) {i : ι} {n : RaftNode ι} (hn : Copies s.elected Λ i n) :
    Matching (s.setNode i n) Λ :=
  { h with nodes := Cluster.forall_setNode (P := Copies s.elected Λ) h.nodes hn }

/-- A node yields and one of its threads goes on. -/
lemma Matching.yieldThread (h : Matching s Λ) {i : ι} {n : RaftNode ι}
    (hn : (s.nodes i).Yields n) {j : ι} {th : Thread} {x : ThreadState ι} (hx : Carries Λ x) :
    Matching ((s.setNode i n).setThread j th x) Λ :=
  (h.setNode ((h.nodes i).yield hn)).setThread hx

omit [DecidableEq ι] in
lemma Matching.returns (h : Matching s Λ) {i : ι} {th : Thread} {lost : Bool} {pc : Pc ι}
    {c : Call ι} {resp : Response} {s₀ : Cluster ι} (hr : s.Returns i th lost pc c resp s₀) :
    Matching s₀ Λ := by
  have hth := h.threads i th
  rw [hr.thread] at hth
  rcases hr.late with rfl | rfl
  · exact h
  · refine { h with late := fun p req hl => ?_ }
    rcases List.mem_cons.mp hl with hl | hl
    · obtain ⟨-, hl⟩ := Prod.mk.inj hl
      exact hth c req rfl hl.symm
    · exact h.late p req hl

omit [DecidableEq ι] in
/-- The request of a call that returns. -/
lemma Matching.request (h : Matching s Λ) {i : ι} {th : Thread} {lost : Bool} {pc : Pc ι} {p : ι}
    {req : AppendEntriesReq ι} {a : Option Response} {resp : Response} {s₀ : Cluster ι}
    (hr : s.Returns i th lost pc ⟨p, .append req, a⟩ resp s₀) : Part Λ req := by
  have hth := h.threads i th
  rw [hr.thread] at hth
  exact hth _ req rfl rfl

/-- No two nodes have become leader in one term. -/
def Single (es : Cluster.Elections ι) : Prop :=
  ∀ i j t, Cluster.Led es i t → Cluster.Led es j t → i = j

/-- **A leader appends an entry of its term.** -/
lemma Matching.propose (h : Matching s Λ) (hu : Single s.elected) {i : ι} {e : LogEntry}
    (hr : (s.nodes i).role = .leader) (he : e.term = (s.nodes i).currentTerm) :
    ∃ Λ', Matching (s.setNode i ((s.nodes i).pushEntry e)) Λ' := by
  obtain ⟨hled, hlog⟩ := (h.nodes i).leader hr
  set t := (s.nodes i).currentTerm with ht
  set l := (s.nodes i).log ++ [e] with hl
  have hp : Λ t <+: l := ⟨[e], by rw [hl, hlog]⟩
  have hcopied : Copied (Function.update Λ t l) l := by
    refine Descends.concat ((h.nodes i).log.mono (isPrefix_update hp)) ?_
    rw [he, Function.update_self]
  refine ⟨Function.update Λ t l, descends_update h.authors hp hcopied, fun j => ?_, fun u hn => ?_,
    fun j th => (h.threads j th).mono (isPrefix_update hp),
    fun p req hl => (h.late p req hl).mono (isPrefix_update hp)⟩
  · by_cases hj : j = i
    · subst hj
      simp only [Cluster.setNode, Function.update_self]
      refine ⟨hcopied, fun _ => ⟨hled, ?_⟩, by simp [RaftNode.pushEntry, hr], (h.nodes j).led_le⟩
      exact (Function.update_self t l Λ).symm
    · simp only [Cluster.setNode, Function.update_of_ne hj]
      refine (h.nodes j).other (fun _ hx => hx) (fun _ hx => hx) hp fun hrj htj => hj ?_
      exact hu j i t (htj ▸ ((h.nodes j).leader hrj).1) hled
  · have hut : u ≠ t := by
      rintro rfl
      exact hn i hled
    rw [Function.update_of_ne hut]
    exact h.unled u hn

/-- **A candidate wins its term**: nobody has written in this term so far. -/
lemma Matching.win (h : Matching s Λ) {i : ι} (hr : (s.nodes i).role = .candidate)
    (hu : Single ((i, (s.nodes i).currentTerm, (s.nodes i).log) :: s.elected)) (th : Thread) :
    ∃ Λ', Matching { (s.setNode i ((s.nodes i).becomeLeader i (cfg.peers i))).setThread i th .idle with
      elected := (i, (s.nodes i).currentTerm, (s.nodes i).log) :: s.elected } Λ' := by
  set t := (s.nodes i).currentTerm with ht
  set l := (s.nodes i).log with hl
  have hself : Cluster.Led ((i, t, l) :: s.elected) i t := ⟨l, List.mem_cons_self⟩
  have hnot : ∀ j, ¬ Cluster.Led s.elected j t := by
    intro j hj
    obtain rfl := hu j i t (hj.cons _) hself
    exact (h.nodes j).candidate hr hj
  have hnil : Λ t = [] := h.unled t hnot
  have hp : Λ t <+: l := hnil ▸ List.nil_prefix
  have hcopied : Copied (Function.update Λ t l) l := (h.nodes i).log.mono (isPrefix_update hp)
  refine ⟨Function.update Λ t l, descends_update h.authors hp hcopied, fun j => ?_, fun u hn => ?_,
    ?_, fun p req hl => (h.late p req hl).mono (isPrefix_update hp)⟩
  · by_cases hj : j = i
    · subst hj
      simp only [Cluster.setThread, Cluster.setNode, Function.update_self]
      refine ⟨hcopied, fun _ => ⟨hself, (Function.update_self t l Λ).symm⟩, by
        simp [RaftNode.becomeLeader], fun u hu => ?_⟩
      obtain ⟨l', hl'⟩ := hu
      rcases List.mem_cons.mp hl' with hl' | hl'
      · simp only [Prod.mk.injEq] at hl'
        exact le_of_eq hl'.2.1
      · exact (h.nodes j).led_le u ⟨l', hl'⟩
    · simp only [Cluster.setThread, Cluster.setNode, Function.update_of_ne hj]
      refine (h.nodes j).other (fun _ hx => hx.cons _) (fun u hx => ?_) hp fun hrj htj => ?_
      · obtain ⟨l', hl'⟩ := hx
        rcases List.mem_cons.mp hl' with hl' | hl'
        · simp only [Prod.mk.injEq] at hl'
          exact absurd hl'.1 hj
        · exact ⟨l', hl'⟩
      · exact hnot j (htj ▸ ((h.nodes j).leader hrj).1)
  · have hut : u ≠ t := by
      rintro rfl
      exact hn i hself
    rw [Function.update_of_ne hut]
    exact h.unled u fun j hj => hn j (hj.cons _)
  · exact Cluster.forall_setThread (s := s.setNode i ((s.nodes i).becomeLeader i (cfg.peers i)))
      (P := fun _ => Carries (Function.update Λ t l))
      (fun j th' => (h.threads j th').mono (isPrefix_update hp)) .idle

/-- **Every step with proposals in place keeps the logs matching.** -/
theorem Matching.effect (h : Matching s Λ) (hu : Single s.elected) (hu' : Single s'.elected)
    {a : Action ι} (ha : s.AtEnd cfg a) (he : Cluster.Effect cfg s a s') :
    ∃ Λ', Matching s' Λ' := by
  cases he with
  | timeout i => exact ⟨Λ, h.setThread .of_none⟩
  | stand i =>
    have hn := (h.nodes i).becomeCandidate
    exact ⟨Λ, (h.setNode hn).setThread (.loop .idle (by simp))⟩
  | beat i => exact ⟨Λ, h.setThread .of_none⟩
  | buildEnd i => exact ⟨Λ, h.setThread .idle⟩
  | build i p rest => exact ⟨Λ, h.setThread (.send (build_part (h.nodes i).log i p))⟩
  | refused => exact ⟨Λ, h⟩
  | propose _ i k e _ _ hr het =>
    obtain ⟨Λ', h'⟩ := h.propose hu hr het
    exact ⟨Λ', h'.setThread .of_none⟩
  | place i k e index hth =>
    refine ⟨Λ, h.setThread (.loop .replicated fun hp req hreq => ?_)⟩
    obtain rfl := Request.append.inj hreq
    exact propose_part (h.nodes i).log (ha (e, index) (by rw [hth]; rfl) hp) i
  | notifyNone i k e index =>
    have h' : Matching (s.setThread i (.client k) .idle) Λ := h.setThread .idle
    exact ⟨Λ, { h' with }⟩
  | notify i k e index p rest => exact ⟨Λ, h.setThread (.send (.of_nil rfl))⟩
  | take i e =>
    have hn : Copies s.elected Λ i (s.nodes i).noteApplied := (h.nodes i).of_eq rfl rfl rfl
    exact ⟨Λ, (h.setNode hn).setThread .of_none⟩
  | apply i index e =>
    have h' : Matching (s.setThread i .apply .idle) Λ := h.setThread .idle
    exact ⟨Λ, { h' with }⟩
  | handle i th pc p request hth =>
    have hx := h.threads i th
    rw [hth] at hx
    have hn := (h.nodes p).handle (fun req hr => hx ⟨p, request, none⟩ req rfl hr)
    refine ⟨Λ, (h.setNode hn).setThread fun c req hc hr => ?_⟩
    obtain rfl := Option.some.inj hc
    exact hx ⟨p, request, none⟩ req rfl hr
  | handleLate n p request hl =>
    have hn := (h.nodes p).handle
      (fun req hr => h.late p req (hr ▸ List.mem_of_getElem? hl))
    have h' := h.setNode hn
    exact ⟨Λ, { h' with late := fun q req hq => h.late q req (List.mem_of_mem_eraseIdx hq) }⟩
  | election i th lost votes rest p req ans resp s₀ hr =>
    have h₀ := h.returns hr
    unfold Cluster.electionResume at hu' ⊢
    rcases (s₀.nodes i).electionReply_cases i (cfg.peers i) req.term votes resp with
      ⟨n', he, hf⟩ | ⟨hrole, -, -, he⟩ | he
    · rw [he]
      exact ⟨Λ, h₀.yieldThread (.of_frame hf) .idle⟩
    · rw [he] at hu' ⊢
      exact h₀.win hrole hu' th
    · rw [he]
      exact ⟨Λ, h₀.yieldThread (.refl _) (.loop .idle (by simp))⟩
  | heartbeat i th lost rest p req ans resp s₀ hr =>
    have hn := (s₀.nodes i).heartbeatReply_yields (cfg.peers i) p req resp
    unfold Cluster.heartbeatResume
    split
    all_goals
      next n hp =>
      rw [hp] at hn
      exact ⟨Λ, (h.returns hr).yieldThread hn .of_none⟩
  | proposal i th lost e index acks rest p req ans resp s₀ hr =>
    have hreq := h.request hr
    have hn := RaftNode.Yields.of_frame
      ((s₀.nodes i).proposeReply_frame (cfg.peers i) acks resp)
    unfold Cluster.proposeResume
    split
    · next n hp =>
      rw [hp] at hn
      exact ⟨Λ, (h.returns hr).yieldThread hn .idle⟩
    · next n hp =>
      rw [hp] at hn
      exact ⟨Λ, (h.returns hr).yieldThread hn .of_none⟩
    · next n acks' hp =>
      rw [hp] at hn
      refine ⟨Λ, (h.returns hr).yieldThread hn (.loop .replicated fun _ req' hr' => ?_)⟩
      exact Request.append.inj hr' ▸ hreq
  | notice i th lost e index rest p req ans resp s₀ hr =>
    have hreq := h.request hr
    have hn := RaftNode.Yields.of_frame ((s₀.nodes i).noticeReply_frame resp)
    unfold Cluster.noticeResume
    split
    · next n q rest hp =>
      rw [hp] at hn
      exact ⟨Λ, (h.returns hr).yieldThread hn (.send hreq)⟩
    · next n go hp _ =>
      rw [hp] at hn
      have h' : Matching ((s₀.setNode i n).setThread i th .idle) Λ :=
        (h.returns hr).yieldThread hn .idle
      exact ⟨Λ, { h' with }⟩

omit [DecidableEq ι] in
lemma init_matching : Matching (Cluster.init : Cluster ι) fun _ => [] where
  authors _ := .nil
  nodes i := ⟨.nil, by simp [Cluster.init, RaftNode.init], by simp [Cluster.init, RaftNode.init],
    by simp [Cluster.Led, Cluster.init]⟩
  unled _ _ := rfl
  threads _ _ := .idle
  late := by simp [Cluster.init]

end Steps

lemma Voting.single [Fintype ι] {s : Cluster ι} {b : Ballots ι Unit} (h : Voting s b)
    (hb : b.Fair) : Single s.elected := by
  intro i j t hi hj
  exact hb.leader_unique ((h.leaders i t).mpr hi) ((h.leaders j t).mpr hj)

/-- **Log matching.** In every run in which proposals find their entries at the end of the log, two
logs with entries of the same term at an index are the same up to and including this index. -/
theorem log_matching [Fintype ι] (cfg : Config ι) {as : List (Action ι)} {s : Cluster ι}
    (hrun : Cluster.init.run cfg as = some s) (ha : Cluster.init.AllMeet cfg (Cluster.AtEnd cfg) as)
    {i j : ι} {k : ℕ} {e e' : LogEntry} (hi : (s.nodes i).log[k]? = some e)
    (hj : (s.nodes j).log[k]? = some e') (ht : e.term = e'.term) :
    (s.nodes i).log.take (k + 1) = (s.nodes j).log.take (k + 1) := by
  have hinit : ∃ (b : Ballots ι Unit) (Λ : Authors), Voting Cluster.init b ∧ b.Fair ∧
      Matching (Cluster.init : Cluster ι) Λ :=
    ⟨Ballots.init, _, init_voting, Ballots.init_fair, init_matching⟩
  have hstep : ∀ (s : Cluster ι) (a : Action ι) (s' : Cluster ι),
      (∃ (b : Ballots ι Unit) (Λ : Authors), Voting s b ∧ b.Fair ∧ Matching s Λ) → s.AtEnd cfg a →
        Cluster.Effect cfg s a s' →
        ∃ (b : Ballots ι Unit) (Λ : Authors), Voting s' b ∧ b.Fair ∧ Matching s' Λ := by
    rintro s a s' ⟨b, Λ, hv, hb, h⟩ ha he
    obtain ⟨b', hs, hv'⟩ := hv.effect he
    have hb' := hb.steps hs
    obtain ⟨Λ', h'⟩ := h.effect (hv.single hb) (hv'.single hb') ha he
    exact ⟨b', Λ', hv', hb', h'⟩
  obtain ⟨b, Λ, -, -, h⟩ := Cluster.run_invariant hstep hinit ha hrun
  exact Descends.take_eq (h.nodes i).log (h.nodes j).log hi hj ht

/-- Two clients of the leader append an entry each. The first one then reads the position off the
log, which ends with the second entry, and sends its own entry for it to the second node, which a
heartbeat has brought both entries. -/
def racingProposals : List (Action (Fin 3)) :=
  firstElection ++ [.proposePut 0 0 (text "a") (text "1"), .proposePut 0 1 (text "b") (text "2"),
    .place 0 0, .beat 0, .build 0, .handle 0 .heartbeat, .handle 0 (.client 0)]

/-- The two logs have entries of the first term at the index two, and they are not the same. -/
theorem matching_broken : ∃ s, Cluster.init.run threeNodes racingProposals = some s ∧
    ∃ e e', (s.nodes 0).log[2 - 1]? = some e ∧ (s.nodes 1).log[2 - 1]? = some e' ∧
      e.term = e'.term ∧ (s.nodes 0).log.take 2 ≠ (s.nodes 1).log.take 2 := by
  have h : (Cluster.init.run threeNodes racingProposals).map
      (fun s => ((s.nodes 0).log, (s.nodes 1).log)) = some
      ([⟨1, .put, text "a", text "1"⟩, ⟨1, .put, text "b", text "2"⟩],
        [⟨1, .put, text "a", text "1"⟩, ⟨1, .put, text "a", text "1"⟩]) := by
    decide +kernel
  obtain ⟨s, hrun, hs⟩ := Option.map_eq_some_iff.mp h
  obtain ⟨h0, h1⟩ := Prod.mk.inj hs
  exact ⟨s, hrun, ⟨1, .put, text "b", text "2"⟩, ⟨1, .put, text "a", text "1"⟩, by simp [h0],
    by simp [h1], rfl, by rw [h0, h1]; decide⟩

/-- A proposal that reads its position before another client appends. -/
def orderedProposals : List (Action (Fin 3)) :=
  firstElection ++ [.proposePut 0 0 (text "a") (text "1"), .place 0 0,
    .proposePut 0 1 (text "b") (text "2"), .handle 0 (.client 0)]

/-- The second node has the entry where the leader has it. -/
theorem log_matching_first : ∃ s, Cluster.init.run threeNodes orderedProposals = some s ∧
    (s.nodes 0).log.length = 2 ∧ (s.nodes 0).log.take 1 = (s.nodes 1).log.take 1 := by
  have h : (Cluster.init.run threeNodes orderedProposals).map
      (fun s => ((s.nodes 0).log, (s.nodes 1).log)) = some
      ([⟨1, .put, text "a", text "1"⟩, ⟨1, .put, text "b", text "2"⟩],
        [⟨1, .put, text "a", text "1"⟩]) := by
    decide +kernel
  obtain ⟨s, hrun, hs⟩ := Option.map_eq_some_iff.mp h
  obtain ⟨h0, h1⟩ := Prod.mk.inj hs
  have e0 : (s.nodes 0).log[0]? = some ⟨1, .put, text "a", text "1"⟩ := by simp [h0]
  have e1 : (s.nodes 1).log[0]? = some ⟨1, .put, text "a", text "1"⟩ := by simp [h1]
  exact ⟨s, hrun, by simp [h0], log_matching threeNodes hrun (by decide +kernel) e0 e1 rfl⟩

end VeriStore.Raft

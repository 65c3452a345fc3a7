import VeriStore.Raft.Named
import VeriStore.Server.FrontEnd

/-!
What the answers of the servers say about the cluster.

* `answers_from_history` — in disciplined runs there is one history; every read is answered from a
  first part of it that never gets shorter at a server, and a write answered with `OK` is in it;
* `stopped_node_frozen` — a node that was stopped applies nothing and does not become leader, and
  its server goes on to answer reads from what the store was then.
-/

namespace VeriStore.Server

open VeriStore.Lib VeriStore.Log VeriStore.Store VeriStore.Raft

set_option linter.unusedSectionVars false

namespace FrontEnd

variable {ι : Type} [DecidableEq ι] {cfg : Config ι} {port : ι → ℤ} {x x' y : FrontEnd ι} {i j : ι}

/-! ### The run of the cluster -/

/-- The step of the cluster that an event is. -/
def actionOf (x : FrontEnd ι) : Event ι → Option (Action ι)
  | .raft a => some a
  | .propose i =>
    match (x.sessions i).serving with
    | .entering .put k v => some (.proposePut i 0 k v)
    | .entering .del k _ => some (.proposeDel i 0 k)
    | _ => none
  | _ => none

/-- The steps of the cluster in a run of the system. -/
def trace (cfg : Config ι) (port : ι → ℤ) : FrontEnd ι → List (Event ι) → List (Action ι)
  | _, [] => []
  | x, e :: es =>
    match x.step cfg port e with
    | none => []
    | some x' => (x.actionOf e).toList ++ trace cfg port x' es

/-- **What an event does to the cluster and the stores.** -/
lemma step_service {e : Event ι} (h : x.step cfg port e = some x') :
    match x.actionOf e with
    | some a => x.service.step cfg a = some x'.service
    | none => x'.service = x.service := by
  cases e with
  | raft a =>
    simp only [step, FrontEnd.raft] at h
    split at h
    · cases h
    · obtain ⟨s, hs, rfl⟩ := Option.map_eq_some_iff.mp h
      exact hs
  | receive i bytes =>
    simp only [step, receive] at h
    split at h
    · obtain rfl := Option.some.inj h
      rfl
    · cases h
  | hangup i =>
    simp only [step, hangup] at h
    split at h
    · obtain rfl := Option.some.inj h
      rfl
    · cases h
  | command i =>
    simp only [step, command] at h
    split at h
    · obtain ⟨⟨l, rest⟩, hl, he⟩ := Option.map_eq_some_iff.mp h
      simp only [actionOf]
      revert he
      simp only
      split
      all_goals
        intro he
        rw [← he]
        rfl
    · cases h
  | ask i =>
    simp only [step, ask] at h
    split at h
    · split at h
      all_goals
        obtain rfl := Option.some.inj h
        rfl
    · cases h
  | name i =>
    simp only [step, name] at h
    split at h
    · split at h
      all_goals
        obtain rfl := Option.some.inj h
        rfl
    · cases h
  | propose i =>
    simp only [step, FrontEnd.propose] at h
    split at h
    · next op k v hc =>
      obtain ⟨s, hs, rfl⟩ := Option.map_eq_some_iff.mp h
      simp only [actionOf, hc]
      cases op with
      | put => exact hs
      | del => exact hs
    · cases h
  | finish i =>
    simp only [step, finish] at h
    split at h
    · split at h
      · obtain rfl := Option.some.inj h
        rfl
      · cases h
    · split at h
      · obtain rfl := Option.some.inj h
        rfl
      · cases h
    · cases h

/-- A run of the system is a run of the cluster with its stores. -/
lemma run_service {es : List (Event ι)} (h : x.run cfg port es = some x') :
    x.service.run cfg (x.trace cfg port es) = some x'.service := by
  induction es generalizing x with
  | nil =>
    obtain rfl := Option.some.inj h
    rfl
  | cons e es ih =>
    obtain ⟨x₁, hs, hrest⟩ := run_cons h
    have hstep := step_service hs
    simp only [trace, hs]
    cases ha : x.actionOf e with
    | none =>
      rw [ha] at hstep
      simp only at hstep
      rw [← hstep]
      exact ih hrest
    | some a =>
      rw [ha] at hstep
      exact Option.bind_eq_some_iff.mpr ⟨x₁.service, hstep, ih hrest⟩

/-! ### Reads -/

/-- A read was answered from the entries the node had applied by then. -/
def ReadOk (stores : ι → KVStore) (s : Cluster ι) (a : Answer ι) : Prop :=
  a.seen ≤ (s.entriesOf a.node).length ∧ ∀ k, parseCommand a.line = .get k →
    a.reply = getReply ((stores a.node).applyEntries ((s.entriesOf a.node).take a.seen)) k

/-- **What the stores hold and what was read from them.** -/
structure Reads (stores : ι → KVStore) (x : FrontEnd ι) : Prop where
  holds : ∀ i, x.service.Holds stores i
  reads : ∀ a ∈ x.answers, ReadOk stores x.cluster a
  mono : x.answers.Pairwise fun a b => a.node = b.node → b.seen ≤ a.seen

variable {stores : ι → KVStore}

lemma ReadOk.mono {s s' : Cluster ι} {a : Answer ι} (h : ReadOk stores s a)
    (hp : s.entriesOf a.node <+: s'.entriesOf a.node) : ReadOk stores s' a := by
  refine ⟨h.1.trans hp.length_le, fun k hk => ?_⟩
  obtain ⟨t, ht⟩ := hp
  rw [h.2 k hk, ← ht, List.take_append_of_le_length h.1]

/-- A step of the cluster: the stores go on, and what was read stays right. -/
lemma Reads.service (h : x.Reads stores) {a : Action ι} {s : Service ι}
    (hs : x.service.step cfg a = some s) (c : ι → Session) (r : ι → Bool) :
    (⟨s, c, r, x.answers⟩ : FrontEnd ι).Reads stores where
  holds i := ((h.holds i).step hs).1
  reads b hb := (h.reads b hb).mono (((h.holds b.node).step hs).2.map Prod.snd)
  mono := h.mono

/-- **An answer**: a read is answered from the store of the node. -/
lemma Reads.respond (h : x.Reads stores) {reply : Bytes}
    (hr : ∀ k, parseCommand (x.sessions i).line = .get k → reply = getReply (x.service.stores i) k) :
    (x.respond i reply).Reads stores where
  holds := h.holds
  reads b hb := by
    rcases List.mem_cons.mp hb with rfl | hb
    · refine ⟨le_rfl, fun k hk => ?_⟩
      change reply = getReply ((stores i).applyEntries
        ((x.cluster.entriesOf i).take (x.cluster.entriesOf i).length)) k
      rw [List.take_length, hr k hk, (h.holds i).store]
      rfl
    · exact h.reads b hb
  mono := by
    refine List.pairwise_cons.mpr ⟨fun b hb hi => ?_, h.mono⟩
    have hle := (h.reads b hb).1
    rwa [← hi] at hle

/-- A line that is answered later is no read. -/
lemma Accounts.not_get {s : Cluster ι} {c : Session} {done : List (OpType × Bytes × Bytes)}
    (h : Accounts s i c done) (hc : c.serving ≠ .reading) (hu : c.serving ≠ .undefined) (k : Bytes) :
    parseCommand c.line ≠ .get k := by
  intro hk
  have hw : writeOf c.line = none := by
    unfold writeOf
    rw [hk]
  obtain ⟨pending, line, serving⟩ := c
  simp only at hk hw
  cases serving with
  | reading => exact hc rfl
  | undefined => exact hu rfl
  | proposing op k v before => exact absurd (hw.symm.trans h.1) (by simp)
  | entering op k v => exact absurd (hw.symm.trans h.1) (by simp)
  | refusing | naming =>
    have hs : (writeOf line).isSome := h.1
    rw [hw] at hs
    cases hs
  | stopping => exact absurd (hk.symm.trans h.1) (by simp)

/-- **A step.** -/
theorem Reads.step (h : x.Reads stores) (hacc : x.Accounted) (hs : Happens cfg port x x') :
    x'.Reads stores := by
  have hlate (i : ι) {reply : Bytes} (hc : (x.sessions i).serving ≠ .reading)
      (hu : (x.sessions i).serving ≠ .undefined) : (x.respond i reply).Reads stores :=
    h.respond fun k hk => absurd hk ((hacc.node i).not_get hc hu k)
  cases hs with
  | raft a s hs ha hb => exact h.service hs _ _
  | propose i op k v a s hc ha hs => exact h.service hs _ _
  | reply i l rest resp hc hl hb =>
    have hspec := beginCommand_spec (x.service.stores i) (x.cluster.nodes i).role (dropReturn l)
    rw [hb] at hspec
    have h' : (x.setSession i (took l rest .reading)).Reads stores := ⟨h.holds, h.reads, h.mono⟩
    refine h'.respond fun k hk => hspec.2 k ?_
    simpa [setSession, took] using hk
  | unknown i hc hn => exact hlate i (by simp [hc]) (by simp [hc])
  | named i j hc hn => exact hlate i (by simp [hc]) (by simp [hc])
  | proposed i op k v before hc hth => exact hlate i (by simp [hc]) (by simp [hc])
  | stopped i hc h1 h2 h3 => exact hlate i (by simp [hc]) (by simp [hc])
  | _ => exact ⟨h.holds, h.reads, h.mono⟩

lemma start_reads (stores : ι → KVStore) : (start stores).Reads stores :=
  ⟨fun i => Service.start_holds stores i, fun _ h => (List.not_mem_nil h).elim, .nil⟩

/-- A write answered with `OK` is a proposal that has returned true. -/
lemma Accounted.acked (h : x.Accounted) {a : Answer ι} (ha : a ∈ x.answers)
    {w : OpType × Bytes × Bytes} (hw : a.okWrite = some w) :
    ∃ index e, (a.node, index, e) ∈ x.cluster.acked ∧ writeOfEntry (index, e) = w := by
  have hmem : w ∈ x.okWrites a.node :=
    List.mem_filterMap.mpr ⟨a, by simpa using ha, hw⟩
  have hsub : x.okWrites a.node <+: (x.cluster.ackedBy a.node).map writeOfEntry := by
    have hi := h.node a.node
    unfold Accounts at hi
    split at hi
    · obtain ⟨-, -, ⟨hack, -⟩ | ⟨hack, -⟩⟩ := hi
      · exact hack ▸ List.prefix_rfl
      · exact hack ▸ List.prefix_append _ _
    · exact hi.2.1 ▸ List.prefix_rfl
  obtain ⟨⟨index, e⟩, hy, rfl⟩ := List.mem_map.mp (hsub.subset hmem)
  exact ⟨index, e, Cluster.mem_ackedBy.mp hy, rfl⟩

/-- **Answers from one history.** In every disciplined run of servers in front of nodes with equal
stores there is one list of entries, applied at least in part by some node, so that every read was
answered from the store that a first part of the list makes; the part never gets shorter from one
answer of a server to its next; and every write answered with `OK` is that of a proposal of the node
that has returned true, and once the list is as long as the index of the proposal, the entry of the
proposal stands there. -/
theorem answers_from_history [Fintype ι] (cfg : Config ι) (port : ι → ℤ) {s₀ : KVStore}
    {es : List (Event ι)} {x : FrontEnd ι}
    (hrun : (start fun _ => s₀).run cfg port es = some x)
    (ha : Cluster.init.AllMeet cfg Cluster.Disciplined ((start fun _ => s₀).trace cfg port es)) :
    ∃ history : List LogEntry, (history = [] ∨ ∃ i, history = x.cluster.entriesOf i) ∧
      (∀ a ∈ x.answers, a.seen ≤ history.length ∧ ∀ k, parseCommand a.line = .get k →
        a.reply = getReply (s₀.applyEntries (history.take a.seen)) k) ∧
      (x.answers.Pairwise fun a b => a.node = b.node → b.seen ≤ a.seen) ∧
      ∀ a ∈ x.answers, ∀ w, a.okWrite = some w → ∃ index e,
        (a.node, index, e) ∈ x.cluster.acked ∧ writeOfEntry (index, e) = w ∧
        0 < index ∧ (index ≤ history.length → history[index - 1]? = some e) := by
  have hstep : ∀ (e : Event ι) (y y' : FrontEnd ι), y.step cfg port e = some y' →
      y.Accounted ∧ y.Reads (fun _ => s₀) → y'.Accounted ∧ y'.Reads fun _ => s₀ := fun e y y' hs hy =>
    ⟨hy.1.step (step_happens hs), hy.2.step hy.1 (step_happens hs)⟩
  obtain ⟨hacc, hreads⟩ := run_induct hrun ⟨start_accounted _, start_reads _⟩ hstep
  obtain ⟨history, hend, hpre, hacked⟩ :=
    Service.exists_history_acked cfg (show (Service.start fun _ => s₀).run cfg _ = _ from
      run_service hrun) ha
  refine ⟨history, hend, fun a hmem => ?_, hreads.mono, fun a hmem w hw => ?_⟩
  · have hok : ReadOk (fun _ => s₀) x.cluster a := hreads.reads a hmem
    obtain ⟨t, ht⟩ := hpre a.node
    refine ⟨hok.1.trans (hpre a.node).length_le, fun k hk => ?_⟩
    have htake : (x.service.cluster.entriesOf a.node ++ t).take a.seen =
        (x.cluster.entriesOf a.node).take a.seen := List.take_append_of_le_length hok.1
    rw [hok.2 k hk, ← ht, htake]
  · obtain ⟨index, e, hack, hwe⟩ := hacc.acked hmem hw
    exact ⟨index, e, hack, hwe, hacked a.node index e hack⟩

/-- A write and a read of it: the write is the first entry of the history, and the read sees it. -/
theorem answers_from_history_first : ∃ (x : FrontEnd (Fin 3)) (history : List LogEntry),
    (start fun _ => KVStore.new).run threeNodes demoPort writeAndRead = some x ∧
      history[0]? = some ⟨1, .put, text "a", text "1"⟩ ∧
      ∃ a ∈ x.answers, a.reply = text "VALUE 1\n" ∧
        a.reply = getReply (KVStore.new.applyEntries (history.take 1)) (text "a") := by
  have h : ((start fun _ => KVStore.new).run threeNodes demoPort writeAndRead).map (fun x =>
      x.answers.map fun a => (parseCommand a.line, a.reply, a.seen)) =
      some [(.get (text "a"), text "VALUE 1\n", 1),
        (.put (text "a") (text "1"), text "OK\n", 0)] := by
    decide +kernel
  have hacked : ((start fun _ => KVStore.new).run threeNodes demoPort writeAndRead).map
      (fun x => x.cluster.acked) = some [(0, 1, ⟨1, .put, text "a", text "1"⟩)] := by
    decide +kernel
  obtain ⟨x, hrun, hx⟩ := Option.map_eq_some_iff.mp h
  rw [hrun, Option.map_some, Option.some.injEq] at hacked
  obtain ⟨history, -, hall, -, hok⟩ :=
    answers_from_history threeNodes demoPort hrun (by decide +kernel)
  have hread : ((.get (text "a"), text "VALUE 1\n", 1) : Command × Bytes × ℕ) ∈
      x.answers.map fun a => (parseCommand a.line, a.reply, a.seen) := by simp [hx]
  have hwrite : ((.put (text "a") (text "1"), text "OK\n", 0) : Command × Bytes × ℕ) ∈
      x.answers.map fun a => (parseCommand a.line, a.reply, a.seen) := by simp [hx]
  obtain ⟨a, ha, he⟩ := List.mem_map.mp hread
  obtain ⟨b, hb, hw⟩ := List.mem_map.mp hwrite
  simp only [Prod.mk.injEq] at he hw
  obtain ⟨hk, hr, hn⟩ := he
  obtain ⟨hle, hget⟩ := hall a ha
  have hdone : b.okWrite = some (.put, text "a", text "1") := by
    rw [Answer.okWrite, hw.2.1, if_pos rfl, writeOf, hw.1]
    decide +kernel
  obtain ⟨index, e, hack, -, -, hentry⟩ := hok b hb _ hdone
  rw [hacked, List.mem_singleton] at hack
  obtain ⟨-, hack⟩ := Prod.mk.inj hack
  obtain ⟨rfl, rfl⟩ := Prod.mk.inj hack
  exact ⟨x, history, hrun, hentry (hn ▸ hle), a, ha, hr, hn ▸ hget _ hk⟩

/-! ### Stopped nodes -/

/-- The node does not run, and its threads have ended. -/
structure Frozen (x : FrontEnd ι) (i : ι) : Prop where
  running : x.running i = false
  ended : x.cluster.Ended i

/-- A server that stops its node, and the nodes whose stop was answered. -/
structure Halts (x : FrontEnd ι) : Prop where
  stopping : ∀ i, (x.sessions i).serving = .stopping → x.running i = false
  killed : ∀ a ∈ x.answers, parseCommand a.line = .kill → x.Frozen a.node

/-- What the state of a stopped node and its answers are in `x'`, seen from `x`. -/
structure Still (x x' : FrontEnd ι) (i : ι) : Prop where
  frozen : x'.Frozen i
  store : x'.service.stores i = x.service.stores i
  applied : x'.cluster.appliedBy i = x.cluster.appliedBy i
  elected : ∀ y, (i, y) ∈ x'.cluster.elected → (i, y) ∈ x.cluster.elected
  answers : ∃ new, x'.answers = new ++ x.answers ∧ ∀ a ∈ new, a.node = i → ∀ k,
    parseCommand a.line = .get k → a.reply = getReply (x.service.stores i) k

/-- The cluster goes on beside a node that does not run. -/
lemma Frozen.service (h : x.Frozen i) (hc : x.cluster.OneClient) {a : Action ι} {s : Service ι}
    (hs : x.service.step cfg a = some s) (hb : ∀ y ∈ a.begins, x.running y.1 = true) :
    s.cluster.Ended i ∧ s.stores i = x.service.stores i ∧
      s.cluster.appliedBy i = x.cluster.appliedBy i ∧
      ∀ y, (i, y) ∈ s.cluster.elected → (i, y) ∈ x.cluster.elected := by
  obtain ⟨hcl, hst⟩ := Service.step_cluster hs
  have hnb : ∀ th, a.begins ≠ some (i, th) := fun th he => by
    have hr := hb (i, th) he
    rw [h.running] at hr
    cases hr
  obtain ⟨hended, happly, helected⟩ := (Cluster.step_effect hcl).ended hc h.ended hnb
  have hcall : (x.cluster.threads i .apply).call = none := by
    rw [h.ended.apply]
    rfl
  have happlied : s.cluster.appliedBy i = x.cluster.appliedBy i := by
    rcases (Cluster.step_effect hcl).apply_cases hcall with ⟨-, hsame⟩ | ⟨_, -, -, -, -, h⟩ |
      ⟨_, _, h, -⟩
    · exact hsame.applied
    · exact h
    · exact absurd h happly
  exact ⟨hended, by rw [hst, x.service.applied_of_ne happly], happlied, helected⟩

lemma Still.refl (h : x.Frozen i) : x.Still x i := ⟨h, rfl, rfl, fun _ hy => hy, [], rfl, by simp⟩

lemma Still.trans {z : FrontEnd ι} (h : x.Still y i) (h' : y.Still z i) : x.Still z i := by
  obtain ⟨new, he, hr⟩ := h.answers
  obtain ⟨new', he', hr'⟩ := h'.answers
  refine ⟨h'.frozen, h'.store.trans h.store, h'.applied.trans h.applied, fun y hy => h.elected y (h'.elected y hy),
    new' ++ new, by rw [he', he, List.append_assoc], fun a ha hi k hk => ?_⟩
  rcases List.mem_append.mp ha with ha | ha
  · rw [hr' a ha hi k hk, h.store]
  · exact hr a ha hi k hk

/-- An answer, a read from the store of its node. -/
lemma Frozen.respond (h : x.Frozen i) {reply : Bytes}
    (hr : ∀ k, parseCommand (x.sessions j).line = .get k → reply = getReply (x.service.stores j) k) :
    x.Still (x.respond j reply) i := by
  refine ⟨⟨h.running, h.ended⟩, rfl, rfl, fun _ hy => hy, [_], rfl, fun a ha hi k hk => ?_⟩
  obtain rfl := List.mem_singleton.mp ha
  obtain rfl : j = i := hi
  exact hr k hk

/-- **A step leaves a stopped node as it is.** -/
theorem Frozen.step (h : x.Frozen i) (hacc : x.Accounted) (hs : Happens cfg port x x') :
    x.Still x' i := by
  have hsame {c : ι → Session} : x.Still { x with sessions := c } i :=
    ⟨⟨h.running, h.ended⟩, rfl, rfl, fun _ hy => hy, [], rfl, by simp⟩
  have hlate (j : ι) {reply : Bytes} (hc : (x.sessions j).serving ≠ .reading)
      (hu : (x.sessions j).serving ≠ .undefined) : x.Still (x.respond j reply) i :=
    h.respond fun k hk => absurd hk ((hacc.node j).not_get hc hu k)
  cases hs with
  | raft a s hs ha hb =>
    obtain ⟨h1, h2, h3, h4⟩ := h.service hacc.client hs hb
    exact ⟨⟨h.running, h1⟩, h2, h3, h4, [], rfl, by simp⟩
  | propose j op k v a s hc ha hs =>
    have hb : ∀ y ∈ a.begins, x.running y.1 = true := by
      rcases ha with ⟨rfl, -⟩ | ⟨rfl, -⟩ <;> simp [Action.begins]
    obtain ⟨h1, h2, h3, h4⟩ := h.service hacc.client hs hb
    exact ⟨⟨h.running, h1⟩, h2, h3, h4, [], rfl, by simp⟩
  | reply j l rest resp hc hl hb =>
    have hspec := beginCommand_spec (x.service.stores j) (x.cluster.nodes j).role (dropReturn l)
    rw [hb] at hspec
    have h' : (x.setSession j (took l rest .reading)).Frozen i := ⟨h.running, h.ended⟩
    have h'' : Still _ (FrontEnd.respond _ j resp) i := h'.respond fun k hk =>
      hspec.2 k (by simpa [setSession, took] using hk)
    exact hsame.trans h''
  | stop j l rest hc hl hk =>
    refine ⟨⟨?_, h.ended⟩, rfl, rfl, fun _ hy => hy, [], rfl, by simp⟩
    by_cases hj : i = j
    · simp [hj]
    · simpa [hj] using h.running
  | unknown j hc hn => exact hlate j (by simp [hc]) (by simp [hc])
  | named j _ hc hn => exact hlate j (by simp [hc]) (by simp [hc])
  | proposed j op k v before hc hth => exact hlate j (by simp [hc]) (by simp [hc])
  | stopped j hc h1 h2 h3 => exact hlate j (by simp [hc]) (by simp [hc])
  | read | begins | known | gone => exact hsame

/-- A write in hand is no `KILL`. -/
lemma Accounts.not_kill {s : Cluster ι} {c : Session} {done : List (OpType × Bytes × Bytes)}
    (h : Accounts s i c done)
    (hc : c.serving = .refusing ∨ c.serving = .naming ∨ ∃ op k v n, c.serving = .proposing op k v n) :
    parseCommand c.line ≠ .kill := by
  intro hk
  have hw : writeOf c.line = none := by
    unfold writeOf
    rw [hk]
  have hs : (writeOf c.line).isSome := by
    unfold Accounts at h
    rcases hc with hc | hc | ⟨op, k, v, n, hc⟩
    · rw [hc] at h
      exact h.1
    · rw [hc] at h
      exact h.1
    · rw [hc] at h
      rw [h.1]
      rfl
  rw [hw] at hs
  cases hs

lemma Halts.step (h : x.Halts) (hacc : x.Accounted) (hs : Happens cfg port x x') : x'.Halts := by
  have hold : ∀ a ∈ x.answers, parseCommand a.line = .kill → x'.Frozen a.node :=
    fun a ha hk => ((h.killed a ha hk).step hacc hs).frozen
  -- a session that is not about to stop its node changes
  have hset {j : ι} {c : Session} (hc : c.serving ≠ .stopping) (i : ι)
      (hi : (Function.update x.sessions j c i).serving = .stopping) : x.running i = false := by
    by_cases hj : i = j
    · subst hj
      rw [Function.update_self] at hi
      exact absurd hi hc
    · rw [Function.update_of_ne hj] at hi
      exact h.stopping i hi
  have hreply (j : ι) {reply : Bytes} (hx' : x' = x.respond j reply)
      (hk : parseCommand (x.sessions j).line = .kill → x.Frozen j) : x'.Halts := by
    subst hx'
    refine ⟨hset (by simp), fun a ha hka => ?_⟩
    rcases List.mem_cons.mp ha with rfl | ha
    · exact ⟨(hk hka).running, (hk hka).ended⟩
    · exact hold a ha hka
  cases hs with
  | raft a s hs ha hb => exact ⟨h.stopping, hold⟩
  | read j bytes hc => exact ⟨hset (by simp [hc]), hold⟩
  | begins j l rest sv hc hl hb =>
    refine ⟨hset ?_, hold⟩
    rintro (rfl : sv = .stopping)
    exact hb
  | known j hc => exact ⟨hset (by simp), hold⟩
  | gone j hc => exact ⟨hset (by simp), hold⟩
  | propose j op k v a s hc ha hs => exact ⟨hset (by simp), hold⟩
  | stop j l rest hc hl hk =>
    refine ⟨fun i hi => ?_, hold⟩
    by_cases hj : i = j
    · simp [hj]
    · have hi' : (x.sessions i).serving = .stopping := by simpa [setSession, hj] using hi
      simpa [hj] using h.stopping i hi'
  | reply j l rest resp hc hl hb =>
    have hk : parseCommand (dropReturn l) ≠ .kill := fun hk => by simp [beginCommand, hk] at hb
    refine ⟨fun i hi => ?_, fun a ha hka => ?_⟩
    · by_cases hj : i = j
      · simp [FrontEnd.respond, setServing, setSession, hj] at hi
      · exact h.stopping i (by simpa [FrontEnd.respond, setServing, setSession, hj] using hi)
    · rcases List.mem_cons.mp ha with rfl | ha
      · exact absurd (by simpa [setSession, took] using hka) hk
      · exact hold a ha hka
  | unknown j hc hn =>
    exact hreply j rfl fun hk => absurd hk ((hacc.node j).not_kill (Or.inl hc))
  | named j _ hc hn =>
    exact hreply j rfl fun hk => absurd hk ((hacc.node j).not_kill (Or.inr (Or.inl hc)))
  | proposed j op k v before hc hth =>
    exact hreply j rfl fun hk =>
      absurd hk ((hacc.node j).not_kill (Or.inr (Or.inr ⟨op, k, v, before, hc⟩)))
  | stopped j hc h1 h2 h3 => exact hreply j rfl fun _ => ⟨h.stopping j hc, h1, h2, h3⟩

lemma start_halts (stores : ι → KVStore) : (start stores).Halts :=
  ⟨fun _ h => (by cases h), fun _ h => (List.not_mem_nil h).elim⟩

/-- **A stopped node is frozen.** In every run, from the moment the server of a node has answered
`KILL`, the node applies nothing and does not become leader, whatever the rest of the cluster does;
its server goes on to answer, and every read is answered from what the store was at that moment. -/
theorem stopped_node_frozen (cfg : Config ι) (port : ι → ℤ) {stores : ι → KVStore}
    {es fs : List (Event ι)} {y x : FrontEnd ι} (hy : (start stores).run cfg port es = some y)
    (hx : y.run cfg port fs = some x) {b : Answer ι} (hb : b ∈ y.answers)
    (hk : parseCommand b.line = .kill) :
    x.service.stores b.node = y.service.stores b.node ∧
      x.cluster.appliedBy b.node = y.cluster.appliedBy b.node ∧
      (∀ e, (b.node, e) ∈ x.cluster.elected → (b.node, e) ∈ y.cluster.elected) ∧
      ∃ new, x.answers = new ++ y.answers ∧ ∀ a ∈ new, a.node = b.node → ∀ k,
        parseCommand a.line = .get k → a.reply = getReply (y.service.stores b.node) k := by
  obtain ⟨hacc, hhalts⟩ := run_induct (P := fun z => z.Accounted ∧ z.Halts) hy
    ⟨start_accounted stores, start_halts stores⟩ fun e z z' hs hz =>
      ⟨hz.1.step (step_happens hs), hz.2.step hz.1 (step_happens hs)⟩
  obtain ⟨-, hstill⟩ := run_induct (P := fun z => z.Accounted ∧ y.Still z b.node) hx
    ⟨hacc, .refl (hhalts.killed b hb hk)⟩ fun e z z' hs hz =>
      ⟨hz.1.step (step_happens hs), hz.2.trans (hz.2.frozen.step hz.1 (step_happens hs))⟩
  exact ⟨hstill.store, hstill.applied, hstill.elected, hstill.answers⟩

/-- The leader is stopped, and a read of what it acknowledges afterwards finds nothing. -/
def stopThenWrite : List (Event (Fin 3)) × List (Event (Fin 3)) :=
  (firstElection.map .raft ++ [.receive 0 (text "KILL\nPUT a 1\nGET a\n"), .command 0, .finish 0],
    [.command 0, .propose 0] ++ (acknowledge (text "a") (text "1")).tail.map .raft ++
      [.finish 0, .command 0])

/-- The write is answered with `OK` all the same. -/
theorem stopped_node_frozen_leader : ∃ y x : FrontEnd (Fin 3),
    (start fun _ => KVStore.new).run threeNodes demoPort stopThenWrite.1 = some y ∧
      y.run threeNodes demoPort stopThenWrite.2 = some x ∧
      x.answers.map (fun a => (parseCommand a.line, a.reply)) =
        [(.get (text "a"), text "NOT_FOUND\n"), (.put (text "a") (text "1"), text "OK\n"),
          (.kill, text "STOPPED\n")] ∧
      x.service.stores 0 = y.service.stores 0 := by
  have h : ((start fun _ => KVStore.new).run threeNodes demoPort stopThenWrite.1).bind (fun y =>
      (y.run threeNodes demoPort stopThenWrite.2).map fun x =>
        (y.answers.map fun a => (a.node, parseCommand a.line),
          x.answers.map fun a => (parseCommand a.line, a.reply))) =
      some ([(0, .kill)], [(.get (text "a"), text "NOT_FOUND\n"),
        (.put (text "a") (text "1"), text "OK\n"), (.kill, text "STOPPED\n")]) := by
    decide +kernel
  obtain ⟨y, hy, h⟩ := Option.bind_eq_some_iff.mp h
  obtain ⟨x, hx, h⟩ := Option.map_eq_some_iff.mp h
  obtain ⟨h1, h2⟩ := Prod.mk.inj h
  have hmem : ((0, .kill) : Fin 3 × Command) ∈ y.answers.map fun a => (a.node, parseCommand a.line) := by
    simp [h1]
  obtain ⟨b, hb, he⟩ := List.mem_map.mp hmem
  obtain ⟨hn, hk⟩ := Prod.mk.inj he
  exact ⟨y, x, hy, hx, h2, hn ▸ (stopped_node_frozen threeNodes demoPort hy hx hb hk).1⟩

end FrontEnd

end VeriStore.Server

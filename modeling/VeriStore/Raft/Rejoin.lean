import VeriStore.Raft.Survival
import VeriStore.Raft.Stores

/-!
The stores of nodes that are re-created.

A node that is created again forgets how far it has applied, but its store keeps what it holds: the
apply thread starts over with the first entry, over a store that has the effects of a later one. In
careful runs the entries are the same ones (`Settled`), and once the node has applied as many as in
its former lives, its store is what the history up to this point makes (`rejoined_store`).
-/

namespace VeriStore.Raft

open VeriStore.Lib VeriStore.Store Relation

set_option linter.unusedSectionVars false

variable {ι : Type} [DecidableEq ι]

/-! ### The system -/

/-- The lives of the nodes and the store of each of them, which a restart leaves as it is. -/
structure Residents (ι : Type) where
  lives : Lives ι
  stores : ι → KVStore

namespace Residents

def start (stores : ι → KVStore) : Residents ι := ⟨Lives.init, stores⟩

def service (x : Residents ι) : Service ι := ⟨x.lives.cluster, x.stores⟩

/-- What an event does to the stores. -/
def applied (x : Residents ι) : Event ι → ι → KVStore
  | .step a => x.service.applied a
  | .restart _ => x.stores

def event (cfg : Config ι) (x : Residents ι) (e : Event ι) : Option (Residents ι) :=
  (x.lives.event cfg e).map fun y => ⟨y, x.applied e⟩

def run (cfg : Config ι) (x : Residents ι) (es : List (Event ι)) : Option (Residents ι) :=
  es.foldlM (event cfg) x

variable {cfg : Config ι} {x x' : Residents ι}

lemma run_cons {e : Event ι} {es : List (Event ι)} (h : x.run cfg (e :: es) = some x') :
    ∃ x₁, x.event cfg e = some x₁ ∧ x₁.run cfg es = some x' :=
  Option.bind_eq_some_iff.mp (show (x.event cfg e).bind (fun x₁ => x₁.run cfg es) = some x' from h)

lemma run_lives {es : List (Event ι)} (h : x.run cfg es = some x') :
    x.lives.run cfg es = some x'.lives := by
  induction es generalizing x with
  | nil =>
    obtain rfl := Option.some.inj h
    rfl
  | cons e es ih =>
    obtain ⟨x₁, hs, hrest⟩ := run_cons h
    obtain ⟨y, hy, rfl⟩ := Option.map_eq_some_iff.mp hs
    exact Option.bind_eq_some_iff.mpr ⟨y, hy, ih hrest⟩

/-- Every run of the lives is one with stores. -/
lemma exists_run {es : List (Event ι)} {y : Lives ι} (h : x.lives.run cfg es = some y) :
    ∃ x', x.run cfg es = some x' ∧ x'.lives = y := by
  induction es generalizing x with
  | nil => exact ⟨x, rfl, Option.some.inj h⟩
  | cons e es ih =>
    obtain ⟨y₁, hs, hrest⟩ := Option.bind_eq_some_iff.mp
      (show (x.lives.event cfg e).bind (fun y₁ => y₁.run cfg es) = some y from h)
    obtain ⟨x', hx', rfl⟩ := ih (x := ⟨y₁, x.applied e⟩) hrest
    exact ⟨x', Option.bind_eq_some_iff.mpr ⟨_, Option.map_eq_some_iff.mpr ⟨y₁, hs, rfl⟩, hx'⟩, rfl⟩

end Residents

/-! ### What a store holds -/

/-- **What a node has applied, over all its lives, and its store.** The entries are numbered from
one on in every life, and `k` is the number in the present one. -/
structure Residents.Holds (stores : ι → KVStore) (x : Residents ι) (i : ι) (k : ℕ) : Prop where
  numbered : Numbered (x.lives.cluster.appliedBy i) k
  thread : (x.lives.cluster.threads i .apply = .idle ∧
      (x.lives.cluster.nodes i).lastApplied = k) ∨
    ∃ e, x.lives.cluster.threads i .apply = ⟨.applying (k + 1) e, none⟩ ∧
      (x.lives.cluster.nodes i).lastApplied = k + 1
  store : x.stores i = (stores i).applyEntries (x.lives.cluster.entriesOf i)

section Holds

variable {cfg : Config ι} {x x' : Residents ι} {stores : ι → KVStore} {i : ι} {k : ℕ}

lemma Residents.Holds.call (h : x.Holds stores i k) :
    (x.lives.cluster.threads i .apply).call = none := by
  rcases h.thread with ⟨he, -⟩ | ⟨e, he, -⟩
  · rw [he]
    rfl
  · rw [he]

lemma Residents.start_holds (stores : ι → KVStore) (i : ι) : (start stores).Holds stores i 0 :=
  ⟨.nil, Or.inl ⟨rfl, rfl⟩, rfl⟩

/-- A step of the cluster. -/
lemma Residents.Holds.step (h : x.Holds stores i k) {a : Action ι}
    (hs : x.event cfg (.step a) = some x') : ∃ k', x'.Holds stores i k' := by
  obtain ⟨y, hy, rfl⟩ := Option.map_eq_some_iff.mp hs
  obtain ⟨s, hcl, rfl⟩ := Option.map_eq_some_iff.mp (show
    (x.lives.cluster.step cfg a).map (fun s => ⟨s, x.lives.memory.settle s⟩) = some y from hy)
  have hcall := h.call
  obtain ⟨hnum, hthread, hstore⟩ := h
  rcases (Cluster.step_effect hcl).apply_cases hcall with
    ⟨hne, hsame⟩ | ⟨e, rfl, hidle, hth, hlast, happ⟩ | ⟨index, e, rfl, hth, hidle, hlast, happ⟩
  · refine ⟨k, ?_, ?_, ?_⟩
    · exact hsame.applied ▸ hnum
    · simp only [hsame.thread, hsame.last]
      exact hthread
    · have hst : x.applied (.step a) i = x.stores i := x.service.applied_of_ne hne
      simp only [hst, Cluster.entriesOf, hsame.applied]
      exact hstore
  · have hk : (x.lives.cluster.nodes i).lastApplied = k := by
      rcases hthread with ⟨-, hk⟩ | ⟨e', he', -⟩
      · exact hk
      · simp [hidle, ThreadState.idle] at he'
    refine ⟨k, happ ▸ hnum, Or.inr ⟨e, hk ▸ hth, hk ▸ hlast⟩, ?_⟩
    simp only [Cluster.entriesOf, happ]
    exact hstore
  · have hk : (x.lives.cluster.nodes i).lastApplied = k + 1 ∧ index = k + 1 := by
      rcases hthread with ⟨he', -⟩ | ⟨e', he', hk⟩
      · simp [hth, ThreadState.idle] at he'
      · rw [hth] at he'
        simp only [ThreadState.mk.injEq, Pc.applying.injEq] at he'
        exact ⟨hk, he'.1.1⟩
    refine ⟨k + 1, ?_, Or.inl ⟨hidle, hlast.trans hk.1⟩, ?_⟩
    · simp only [happ, hk.2]
      exact hnum.next e
    · have hst : x.applied (.step (.apply i)) i = (x.stores i).applyEntry e :=
        x.service.applied_apply hth
      simp only [hst, hstore, Cluster.entriesOf, happ, List.map_append, KVStore.applyEntries,
        List.foldl_append]
      rfl

/-- **An event**: a node that is created again starts with the first number. -/
lemma Residents.Holds.event (h : x.Holds stores i k) {e : Event ι}
    (hs : x.event cfg e = some x') : ∃ k', x'.Holds stores i k' := by
  cases e with
  | step a => exact h.step hs
  | restart j =>
    obtain ⟨y, hy, rfl⟩ := Option.map_eq_some_iff.mp hs
    obtain rfl := Option.some.inj hy
    by_cases hj : i = j
    · subst hj
      refine ⟨0, h.numbered.again, Or.inl ⟨?_, ?_⟩, h.store⟩
      · simp [Cluster.restart]
      · simp [Cluster.restart, Cluster.setNode, RaftNode.init]
    · refine ⟨k, h.numbered, ?_, h.store⟩
      simpa [Cluster.restart, Cluster.setNode, hj] using h.thread

lemma Residents.Holds.run (h : x.Holds stores i k) {es : List (Event ι)}
    (hrun : x.run cfg es = some x') : ∃ k', x'.Holds stores i k' := by
  induction es generalizing x k with
  | nil =>
    obtain rfl := Option.some.inj hrun
    exact ⟨k, h⟩
  | cons e es ih =>
    obtain ⟨x₁, hs, hrest⟩ := Residents.run_cons hrun
    obtain ⟨k₁, h₁⟩ := h.event hs
    exact ih h₁ hrest

end Holds

/-! ### One history over all lives -/

/-- All that was applied is in one settled list. -/
lemma Commits.exists_settled [Fintype ι] {cfg : Config ι} {s : Cluster ι} {r : Logs ι}
    (hc : Commits cfg s r) (hi : r.Inv LogEntry.term) : ∃ t p, r.Settled LogEntry.term t p ∧
      ∀ y ∈ s.applied, 0 < y.2.1 ∧ p[y.2.1 - 1]? = some y.2.2 := by
  have hall : ∀ l : List (ι × ℕ × LogEntry), (∀ y ∈ l, Applied r y.2.1 y.2.2) →
      ∃ t p, r.Settled LogEntry.term t p ∧ ∀ y ∈ l, 0 < y.2.1 ∧ p[y.2.1 - 1]? = some y.2.2 := by
    intro l
    induction l with
    | nil => exact fun _ => ⟨0, [], .nil, by simp⟩
    | cons y l ih =>
      intro hl
      obtain ⟨t, p, hp, hget⟩ := ih fun z hz => hl z (List.mem_cons_of_mem _ hz)
      obtain ⟨t', p', hp', hpos, hy⟩ := hl y List.mem_cons_self
      have hgrow : ∀ {q q' : List LogEntry} {k : ℕ} {e : LogEntry}, q <+: q' →
          q[k]? = some e → q'[k]? = some e := by
        rintro q _ k e ⟨u, rfl⟩ he
        rw [List.getElem?_append_left (List.getElem?_eq_some_iff.mp he).1]
        exact he
      rcases hp.agree hp' hi with hpre | hpre
      · refine ⟨t', p', hp', fun z hz => ?_⟩
        rcases List.mem_cons.mp hz with rfl | hz
        · exact ⟨hpos, hy⟩
        · exact ⟨(hget z hz).1, hgrow hpre (hget z hz).2⟩
      · refine ⟨t, p, hp, fun z hz => ?_⟩
        rcases List.mem_cons.mp hz with rfl | hz
        · exact ⟨hpos, hgrow hpre hy⟩
        · exact hget z hz
  exact hall s.applied fun y hy => hc.applied y.1 y.2.1 y.2.2 hy

/-- **The store of a node that was created again.** In every careful run from equal stores there is
one history, and a node that has applied as many entries as ever before in any of its lives has a
store with the map that this part of the history makes. -/
theorem rejoined_store [Fintype ι] (cfg : Config ι) {es : List (Event ι)} {s₀ : KVStore}
    {x : Residents ι} (hrun : (Residents.start fun _ => s₀).run cfg es = some x)
    (ha : Lives.init.AllCareful cfg es) :
    ∃ history : List LogEntry,
      (∀ i index e, (i, index, e) ∈ x.lives.cluster.applied → history[index - 1]? = some e) ∧
      ∀ i, (x.lives.cluster.threads i .apply).pc = .idle →
        (∀ index e, (i, index, e) ∈ x.lives.cluster.applied →
          index ≤ (x.lives.cluster.nodes i).lastApplied) →
        (x.lives.cluster.nodes i).lastApplied ≤ history.length ∧
        (x.stores i).map =
          (s₀.applyEntries (history.take (x.lives.cluster.nodes i).lastApplied)).map := by
  obtain ⟨r, -, h⟩ := run_restores init_restores ha (Residents.run_lives hrun)
  obtain ⟨-, history, -, hall⟩ := h.commits.exists_settled h.inv
  refine ⟨history, fun i index e he => (hall _ he).2, fun i hidle hmax => ?_⟩
  obtain ⟨k, hnum, hthread, hstore⟩ := (Residents.start_holds (fun _ => s₀) i).run hrun
  have hk : (x.lives.cluster.nodes i).lastApplied = k := by
    rcases hthread with ⟨-, hk⟩ | ⟨e, he, -⟩
    · exact hk
    · simp [he] at hidle
  rw [hk] at hmax ⊢
  have hpos : ∀ y ∈ x.lives.cluster.appliedBy i, 0 < y.1 ∧ history[y.1 - 1]? = some y.2 :=
    fun y hy => hall _ (Cluster.mem_appliedBy.mp hy)
  have hlast := hnum.sameLast (fun y hy => (hpos y hy).2) (fun y hy => (hpos y hy).1)
    fun y hy => hmax y.1 y.2 (Cluster.mem_appliedBy.mp hy)
  obtain ⟨-, -, hle, -⟩ := hnum.eq_append fun y hy => (hpos y hy).2
  refine ⟨hle, ?_⟩
  rw [hstore, KVStore.applyEntries_map, KVStore.applyEntries_map]
  exact updates_congr (hlast.map entryUpdate) _

/-- A heartbeat of the first node that reaches both others. -/
def beatBoth : List (Action (Fin 3)) :=
  [.beat 0, .build 0, .handle 0 .heartbeat, .resume 0 .heartbeat false, .build 0,
    .handle 0 .heartbeat, .resume 0 .heartbeat false, .build 0]

/-- A heartbeat of the third node that reaches the second one only. -/
def beatSecond : List (Action (Fin 3)) :=
  [.beat 2, .build 2, .resume 2 .heartbeat true, .build 2, .handle 2 .heartbeat,
    .resume 2 .heartbeat false, .build 2]

/-- The second node applies the entry and is created again; the third one becomes leader, and the
second one catches up and applies the entry again. -/
def rejoin : List (Event (Fin 3)) :=
  steps (firstElection ++ [.proposePut 0 0 (text "a") (text "1")] ++ beatBoth ++ beatBoth ++
    [.take 1, .apply 1]) ++
  .restart 1 :: steps ([.timeout 2, .stand 2, .handle 2 .election, .resume 2 .election false] ++
    beatSecond ++ beatSecond ++ [.take 1, .apply 1])

/-- The second node has applied the entry in both lives. -/
theorem rejoined_store_second : ∃ (x : Residents (Fin 3)) (history : List LogEntry),
    (Residents.start fun _ => KVStore.new).run threeNodes rejoin = some x ∧
      x.lives.cluster.entriesOf 1 = [⟨1, .put, text "a", text "1"⟩, ⟨1, .put, text "a", text "1"⟩] ∧
      (x.stores 1).map = (KVStore.new.applyEntries (history.take 1)).map := by
  have h : (Lives.init.run threeNodes rejoin).any (fun x => decide
      ((x.cluster.threads 1 .apply).isIdle ∧ (x.cluster.nodes 1).lastApplied = 1 ∧
        x.cluster.appliedBy 1 = [(1, ⟨1, .put, text "a", text "1"⟩),
          (1, ⟨1, .put, text "a", text "1"⟩)])) = true := by
    decide +kernel
  obtain ⟨y, hy, hx⟩ := (Option.any_eq_true _ _).mp h
  obtain ⟨hidle, hlast, happ⟩ := of_decide_eq_true hx
  obtain ⟨x, hrun, rfl⟩ := Residents.exists_run (x := .start fun _ => KVStore.new) hy
  obtain ⟨history, -, hall⟩ := rejoined_store threeNodes hrun (by decide +kernel)
  refine ⟨x, history, hrun, by rw [Cluster.entriesOf, happ]; rfl, ?_⟩
  obtain ⟨-, hmap⟩ := hall 1 (by rw [ThreadState.eq_idle hidle]; rfl) fun index e he => by
    have hmem := Cluster.mem_appliedBy.mpr he
    rw [happ] at hmem
    simp only [List.mem_cons, Prod.mk.injEq, List.not_mem_nil, or_false, or_self] at hmem
    rw [hmem.1, hlast]
  rwa [hlast] at hmap

end VeriStore.Raft

import VeriStore.Raft.Clients
import VeriStore.Raft.Stores
import VeriStore.Server.Command

/-!
The servers in front of a cluster.

Each node of a cluster has a server, with one thread that serves one connection after the other. It
takes the lines of the connection one by one and answers each before it takes the next. A read is
answered from the store of the node, whoever leads. A write is proposed by a leader and refused by
another node. Between the look at the role, the proposal and the looks at the leader, the threads of
the cluster go on: every event of this system is one atomic step of a server, or of the cluster. The
role and the leader are read without the lock of the node; such a read is taken as atomic.

The list `answers` records what was answered, the last first, with the number of entries the node
had applied by then.

* `ok_answers` — whatever the schedule, the writes answered with `OK` by a server are the proposals
  of its node that have returned true, in order;
* `answers_from_history` — in disciplined runs there is one history: every read is answered from a
  first part of it, and every write answered with `OK` is in it.
-/

namespace VeriStore.Server

open VeriStore.Lib VeriStore.Log VeriStore.Store VeriStore.Raft

set_option linter.unusedSectionVars false

/-! ### Commands -/

/-- What a server does with a line: it answers, refuses a write, begins a proposal, or stops its
node. -/
inductive Outcome where
  | reply (resp : Bytes)
  | refuse
  | propose (op : OpType) (key value : Bytes)
  | stop

/-- `handle_command` of `cluster_demo` up to the first call of the node, for the role it has seen. -/
def beginCommand (s : KVStore) (role : RaftRole) (line : Bytes) : Outcome :=
  match parseCommand line with
  | .put k v =>
    if k = [] ∨ v = [] then .reply (text "ERR usage: PUT key value\n")
    else if role = .leader then .propose .put k v else .refuse
  | .get k => .reply (getReply s k)
  | .del k =>
    if k = [] then .reply (text "ERR usage: DEL key\n")
    else if role = .leader then .propose .del k [] else .refuse
  | .size => .reply (sizeReply s)
  | .status => .reply (if role = .leader then text "ROLE LEADER\n" else text "ROLE FOLLOWER\n")
  | .ping => .reply (text "PONG\n")
  | .kill => .stop
  | .flush | .unknown => .reply (text "ERR unknown command\n")

/-- The write a line asks for, when it has its operands. -/
def writeOf (line : Bytes) : Option (OpType × Bytes × Bytes) :=
  match parseCommand line with
  | .put k v => if k = [] ∨ v = [] then none else some (.put, k, v)
  | .del k => if k = [] then none else some (.del, k, [])
  | _ => none

/-- A delete carries no value. -/
lemma writeOf_del {line k v : Bytes} (h : writeOf line = some (.del, k, v)) : v = [] := by
  unfold writeOf at h
  split at h
  · split at h <;> simp at h
  · split at h
    · cases h
    · simpa [eq_comm] using (Prod.mk.inj (Prod.mk.inj (Option.some.inj h)).2).2
  · cases h

/-- **What a line comes to**: a write goes on, `KILL` stops the node, and everything else is answered,
a read from the store. -/
lemma beginCommand_spec (s : KVStore) (role : RaftRole) (line : Bytes) :
    match beginCommand s role line with
    | .reply resp => writeOf line = none ∧ ∀ k, parseCommand line = .get k → resp = getReply s k
    | .refuse => (writeOf line).isSome
    | .propose op k v => writeOf line = some (op, k, v)
    | .stop => parseCommand line = .kill := by
  unfold beginCommand writeOf
  cases hc : parseCommand line with
  | put k v =>
    by_cases hk : k = [] ∨ v = []
    · simp [hk]
    · by_cases hr : role = .leader
      · simp [hk, hr]
      · simp [hk, hr]
  | del k =>
    by_cases hk : k = []
    · simp [hk]
    · by_cases hr : role = .leader
      · simp [hk, hr]
      · simp [hk, hr]
  | get k => simp
  | _ => simp

/-- The answer to a write once its proposal has returned. -/
def proposalReply (op : OpType) (ok : Bool) : Bytes :=
  match op, ok with
  | _, true => text "OK\n"
  | .put, false => text "FAIL\n"
  | .del, false => text "NOT_FOUND\n"

def unknownLeader : Bytes := text "NOT_LEADER UNKNOWN\n"

/-- The answer to a write that is refused, with the port of the leader. -/
def leaderReply (port : ℤ) : Bytes :=
  if 0 < port then text "NOT_LEADER " ++ decimal port.toNat ++ text "\n" else unknownLeader

/-- A refusal is no `OK`. -/
lemma leaderReply_ne_ok (port : ℤ) : leaderReply port ≠ text "OK\n" := by
  unfold leaderReply
  split
  · exact fun h => absurd (congrArg List.head? h) (by simp [text, ascii])
  · decide +kernel

lemma proposalReply_false (op : OpType) : proposalReply op false ≠ text "OK\n" := by
  cases op <;> decide +kernel

def portForNode (nodeId : ℤ) : ℤ :=
  if nodeId = 1 then 9101 else if nodeId = 2 then 9102 else if nodeId = 3 then 9103 else -1

/-! ### The servers -/

/-- Where the thread of a server is: it waits for the next line or for bytes; it refuses a write, and
asks for the leader first and names it then; it is about to propose, or waits for its proposal, which
began when so many had returned true; it waits for the threads of its node to end; or it has read a
leader that was no longer there, after which the code says nothing. -/
inductive Serving where
  | reading
  | refusing
  | naming
  | entering (op : OpType) (key value : Bytes)
  | proposing (op : OpType) (key value : Bytes) (before : ℕ)
  | stopping
  | undefined
  deriving DecidableEq

/-- The bytes that were read and not yet handled, and the line in hand. -/
structure Session where
  pending : Bytes
  line : Bytes
  serving : Serving

def Session.start : Session := ⟨[], [], .reading⟩

/-- A line, the answer to it, and how many entries the node had applied. -/
structure Answer (ι : Type) where
  node : ι
  line : Bytes
  reply : Bytes
  seen : ℕ

/-- The write that an answer says is done. -/
def Answer.okWrite {ι : Type} (y : Answer ι) : Option (OpType × Bytes × Bytes) :=
  if y.reply = text "OK\n" then writeOf y.line else none

structure FrontEnd (ι : Type) where
  service : Service ι
  sessions : ι → Session
  running : ι → Bool
  answers : List (Answer ι)

inductive Event (ι : Type) where
  | raft (a : Action ι)
  | receive (i : ι) (bytes : Bytes)
  | hangup (i : ι)
  | command (i : ι)
  | ask (i : ι)
  | name (i : ι)
  | propose (i : ι)
  | finish (i : ι)

/-- The size of the buffer of a read. -/
def readSize : ℕ := 4096

namespace FrontEnd

variable {ι : Type} [DecidableEq ι]

/-- The demo starts all nodes before its servers. -/
def start (stores : ι → KVStore) : FrontEnd ι :=
  ⟨.start stores, fun _ => .start, fun _ => true, []⟩

def cluster (x : FrontEnd ι) : Cluster ι := x.service.cluster

def setSession (x : FrontEnd ι) (i : ι) (c : Session) : FrontEnd ι :=
  { x with sessions := Function.update x.sessions i c }

def setServing (x : FrontEnd ι) (i : ι) (sv : Serving) : FrontEnd ι :=
  x.setSession i { x.sessions i with serving := sv }

/-- The answer to the line in hand; the thread goes on with the next one. -/
def respond (x : FrontEnd ι) (i : ι) (reply : Bytes) : FrontEnd ι :=
  { x.setServing i .reading with
    answers := ⟨i, (x.sessions i).line, reply, (x.cluster.entriesOf i).length⟩ :: x.answers }

/-- A thread of the node begins its loop anew only as long as the node runs. -/
def raft (cfg : Config ι) (x : FrontEnd ι) (a : Action ι) : Option (FrontEnd ι) :=
  if a.proposes ∨ ∃ y ∈ a.begins, x.running y.1 = false then none
  else (x.service.step cfg a).map fun s => { x with service := s }

/-- A `read` gives bytes when no line is left. -/
def receive (x : FrontEnd ι) (i : ι) (bytes : Bytes) : Option (FrontEnd ι) :=
  let c := x.sessions i
  if c.serving = .reading ∧ newline ∉ c.pending ∧ bytes ≠ [] ∧ bytes.length ≤ readSize then
    some (x.setSession i { c with pending := c.pending ++ bytes })
  else none

/-- A `read` gives nothing: the connection is closed, and the next one is accepted. -/
def hangup (x : FrontEnd ι) (i : ι) : Option (FrontEnd ι) :=
  let c := x.sessions i
  if c.serving = .reading ∧ newline ∉ c.pending then some (x.setSession i { c with pending := [] })
  else none

/-- The server takes the next line and looks at the role of its node. -/
def command (x : FrontEnd ι) (i : ι) : Option (FrontEnd ι) :=
  let c := x.sessions i
  if c.serving = .reading then
    (takeFrame newline c.pending).map fun (l, rest) =>
      let x := x.setSession i { c with pending := rest, line := dropReturn l }
      match beginCommand (x.service.stores i) (x.cluster.nodes i).role (dropReturn l) with
      | .reply resp => x.respond i resp
      | .refuse => x.setServing i .refusing
      | .propose op k v => x.setServing i (.entering op k v)
      | .stop => { x.setServing i .stopping with running := Function.update x.running i false }
  else none

/-- The first look at the leader of the node. -/
def ask (x : FrontEnd ι) (i : ι) : Option (FrontEnd ι) :=
  if (x.sessions i).serving = .refusing then
    match (x.cluster.nodes i).leaderId with
    | none => some (x.respond i unknownLeader)
    | some _ => some (x.setServing i .naming)
  else none

/-- The second look, whose value is used. -/
def name (port : ι → ℤ) (x : FrontEnd ι) (i : ι) : Option (FrontEnd ι) :=
  if (x.sessions i).serving = .naming then
    match (x.cluster.nodes i).leaderId with
    | none => some (x.setServing i .undefined)
    | some j => some (x.respond i (leaderReply (port j)))
  else none

/-- The first critical section of the proposal. -/
def propose (cfg : Config ι) (x : FrontEnd ι) (i : ι) : Option (FrontEnd ι) :=
  match (x.sessions i).serving with
  | .entering op k v =>
    let a : Action ι := match op with
      | .put => .proposePut i 0 k v
      | .del => .proposeDel i 0 k
    (x.service.step cfg a).map fun s =>
      { x.setServing i (.proposing op k v (x.cluster.ackedBy i).length) with service := s }
  | _ => none

/-- The proposal has returned, or the threads of the node have ended. -/
def finish (x : FrontEnd ι) (i : ι) : Option (FrontEnd ι) :=
  match (x.sessions i).serving with
  | .proposing op _ _ before =>
    if (x.cluster.threads i (.client 0)).isIdle then
      some (x.respond i (proposalReply op (before < (x.cluster.ackedBy i).length)))
    else none
  | .stopping =>
    if (x.cluster.threads i .election).isIdle ∧ (x.cluster.threads i .heartbeat).isIdle ∧
        (x.cluster.threads i .apply).isIdle then
      some (x.respond i (text "STOPPED\n"))
    else none
  | _ => none

/-- **One step of the servers and the cluster**; `port` is the port of the server of a node. -/
def step (cfg : Config ι) (port : ι → ℤ) (x : FrontEnd ι) : Event ι → Option (FrontEnd ι)
  | .raft a => x.raft cfg a
  | .receive i bytes => x.receive i bytes
  | .hangup i => x.hangup i
  | .command i => x.command i
  | .ask i => x.ask i
  | .name i => x.name port i
  | .propose i => x.propose cfg i
  | .finish i => x.finish i

def run (cfg : Config ι) (port : ι → ℤ) (x : FrontEnd ι) (es : List (Event ι)) :
    Option (FrontEnd ι) :=
  es.foldlM (step cfg port) x

section Steps

variable {cfg : Config ι} {port : ι → ℤ} {x x' : FrontEnd ι} {i j : ι}

lemma run_cons {e : Event ι} {es : List (Event ι)} (h : x.run cfg port (e :: es) = some x') :
    ∃ x₁, x.step cfg port e = some x₁ ∧ x₁.run cfg port es = some x' :=
  Option.bind_eq_some_iff.mp
    (show (x.step cfg port e).bind (fun x₁ => x₁.run cfg port es) = some x' from h)

/-- An invariant of the steps holds in every state of a run. -/
lemma run_induct {P : FrontEnd ι → Prop} {es : List (Event ι)} (hrun : x.run cfg port es = some x')
    (h : P x) (hstep : ∀ e y y', y.step cfg port e = some y' → P y → P y') : P x' := by
  induction es generalizing x with
  | nil =>
    obtain rfl := Option.some.inj hrun
    exact h
  | cons e es ih =>
    obtain ⟨x₁, hs, hrest⟩ := run_cons hrun
    exact ih hrest (hstep e x x₁ hs h)

/-- The parts of a run. -/
lemma run_append {es fs : List (Event ι)} (h : x.run cfg port (es ++ fs) = some x') :
    ∃ y, x.run cfg port es = some y ∧ y.run cfg port fs = some x' := by
  unfold run at h ⊢
  rw [List.foldlM_append] at h
  exact Option.bind_eq_some_iff.mp h

/-! ### What an event does -/

/-- The session of a server that has taken a line. -/
def took (l rest : Bytes) (sv : Serving) : Session := ⟨rest, dropReturn l, sv⟩

/-- **The transitions of the system.** -/
inductive Happens (cfg : Config ι) (port : ι → ℤ) (x : FrontEnd ι) : FrontEnd ι → Prop
  | raft (a : Action ι) (s : Service ι) (hs : x.service.step cfg a = some s)
      (ha : a.proposes = false) (hb : ∀ y ∈ a.begins, x.running y.1 = true) :
      Happens cfg port x { x with service := s }
  | read (i : ι) (bytes : Bytes) (hc : (x.sessions i).serving = .reading) :
      Happens cfg port x (x.setSession i { x.sessions i with pending := bytes })
  | reply (i : ι) (l rest resp : Bytes) (hc : (x.sessions i).serving = .reading)
      (hl : takeFrame newline (x.sessions i).pending = some (l, rest))
      (hb : beginCommand (x.service.stores i) (x.cluster.nodes i).role (dropReturn l) = .reply resp) :
      Happens cfg port x ((x.setSession i (took l rest .reading)).respond i resp)
  | begins (i : ι) (l rest : Bytes) (sv : Serving) (hc : (x.sessions i).serving = .reading)
      (hl : takeFrame newline (x.sessions i).pending = some (l, rest))
      (hb : match sv with
        | .refusing => (writeOf (dropReturn l)).isSome
        | .entering op k v => writeOf (dropReturn l) = some (op, k, v)
        | _ => False) :
      Happens cfg port x (x.setSession i (took l rest sv))
  | stop (i : ι) (l rest : Bytes) (hc : (x.sessions i).serving = .reading)
      (hl : takeFrame newline (x.sessions i).pending = some (l, rest))
      (hk : parseCommand (dropReturn l) = .kill) :
      Happens cfg port x { x.setSession i (took l rest .stopping) with
        running := Function.update x.running i false }
  | unknown (i : ι) (hc : (x.sessions i).serving = .refusing)
      (hn : (x.cluster.nodes i).leaderId = none) : Happens cfg port x (x.respond i unknownLeader)
  | known (i : ι) (hc : (x.sessions i).serving = .refusing) :
      Happens cfg port x (x.setServing i .naming)
  | gone (i : ι) (hc : (x.sessions i).serving = .naming) :
      Happens cfg port x (x.setServing i .undefined)
  | named (i j : ι) (hc : (x.sessions i).serving = .naming)
      (hn : (x.cluster.nodes i).leaderId = some j) :
      Happens cfg port x (x.respond i (leaderReply (port j)))
  | propose (i : ι) (op : OpType) (k v : Bytes) (a : Action ι) (s : Service ι)
      (hc : (x.sessions i).serving = .entering op k v)
      (ha : a = .proposePut i 0 k v ∧ op = .put ∨ a = .proposeDel i 0 k ∧ op = .del)
      (hs : x.service.step cfg a = some s) :
      Happens cfg port x { x.setServing i (.proposing op k v (x.cluster.ackedBy i).length) with
        service := s }
  | proposed (i : ι) (op : OpType) (k v : Bytes) (before : ℕ)
      (hc : (x.sessions i).serving = .proposing op k v before)
      (hth : x.cluster.threads i (.client 0) = .idle) :
      Happens cfg port x
        (x.respond i (proposalReply op (before < (x.cluster.ackedBy i).length)))
  | stopped (i : ι) (hc : (x.sessions i).serving = .stopping)
      (h1 : x.cluster.threads i .election = .idle) (h2 : x.cluster.threads i .heartbeat = .idle)
      (h3 : x.cluster.threads i .apply = .idle) :
      Happens cfg port x (x.respond i (text "STOPPED\n"))

/-- **Every step is one of the transitions.** -/
theorem step_happens {e : Event ι} (h : x.step cfg port e = some x') : Happens cfg port x x' := by
  cases e with
  | raft a =>
    simp only [step, FrontEnd.raft] at h
    split at h
    · cases h
    · next hno =>
      simp only [not_or, not_exists, not_and, Bool.not_eq_true, Bool.not_eq_false] at hno
      obtain ⟨s, hs, rfl⟩ := Option.map_eq_some_iff.mp h
      exact .raft a s hs hno.1 hno.2
  | receive i bytes =>
    simp only [step, receive] at h
    split at h
    · next hc =>
      obtain rfl := Option.some.inj h
      exact .read i _ hc.1
    · cases h
  | hangup i =>
    simp only [step, hangup] at h
    split at h
    · next hc =>
      obtain rfl := Option.some.inj h
      exact .read i _ hc.1
    · cases h
  | command i =>
    simp only [step, command] at h
    split at h
    · next hc =>
      obtain ⟨⟨l, rest⟩, hl, he⟩ := Option.map_eq_some_iff.mp h
      have hspec := beginCommand_spec (x.service.stores i) (x.cluster.nodes i).role (dropReturn l)
      have hb : ∀ sv, (x.setSession i { x.sessions i with
          pending := rest
          line := dropReturn l }).setServing i sv = x.setSession i (took l rest sv) := fun sv => by
        simp [setServing, setSession, took]
      cases ho : beginCommand (x.service.stores i) (x.cluster.nodes i).role (dropReturn l) with
      | reply resp =>
        have hs : x.setSession i { x.sessions i with pending := rest, line := dropReturn l } =
            x.setSession i (took l rest .reading) := by
          unfold took
          rw [← hc]
        rw [hs] at he
        simp only [setSession, cluster] at he ho
        simp only [ho] at he
        obtain rfl := he
        exact .reply i l rest resp hc hl ho
      | refuse =>
        rw [ho] at hspec
        simp only [setSession, cluster] at he ho hb
        simp only [ho, hb] at he
        obtain rfl := he
        exact .begins i l rest .refusing hc hl hspec
      | propose op k v =>
        rw [ho] at hspec
        simp only [setSession, cluster] at he ho hb
        simp only [ho, hb] at he
        obtain rfl := he
        exact .begins i l rest (.entering op k v) hc hl hspec
      | stop =>
        rw [ho] at hspec
        simp only [setSession, cluster] at he ho hb
        simp only [ho, hb] at he
        obtain rfl := he
        exact .stop i l rest hc hl hspec
    · cases h
  | ask i =>
    simp only [step, ask] at h
    split at h
    · next hc =>
      split at h
      · next hn =>
        obtain rfl := Option.some.inj h
        exact .unknown i hc hn
      · obtain rfl := Option.some.inj h
        exact .known i hc
    · cases h
  | name i =>
    simp only [step, name] at h
    split at h
    · next hc =>
      split at h
      · obtain rfl := Option.some.inj h
        exact .gone i hc
      · next j hn =>
        obtain rfl := Option.some.inj h
        exact .named i j hc hn
    · cases h
  | propose i =>
    simp only [step, FrontEnd.propose] at h
    split at h
    · next op k v hc =>
      obtain ⟨s, hs, rfl⟩ := Option.map_eq_some_iff.mp h
      refine .propose i op k v _ s hc ?_ hs
      cases op with
      | put => exact Or.inl ⟨rfl, rfl⟩
      | del => exact Or.inr ⟨rfl, rfl⟩
    · cases h
  | finish i =>
    simp only [step, finish] at h
    split at h
    · next op k v before hc =>
      split at h
      · next hth =>
        obtain rfl := Option.some.inj h
        exact .proposed i op k v before hc (ThreadState.eq_idle hth)
      · cases h
    · next hc =>
      split at h
      · next hth =>
        obtain rfl := Option.some.inj h
        exact .stopped i hc (ThreadState.eq_idle hth.1) (ThreadState.eq_idle hth.2.1)
          (ThreadState.eq_idle hth.2.2)
      · cases h
    · cases h

end Steps

/-! ### Answered writes -/

/-- The writes a server has answered with `OK`, the oldest first. -/
def okWrites (x : FrontEnd ι) (i : ι) : List (OpType × Bytes × Bytes) :=
  (x.answers.filter fun y => y.node = i).reverse.filterMap Answer.okWrite

/-- The write of a proposal. -/
def writeOfEntry (y : ℕ × LogEntry) : OpType × Bytes × Bytes := (y.2.op, y.2.key, y.2.value)

/-- **What the thread of a server and the client thread of its node are up to**: outside a proposal
the writes that were answered with `OK` are the proposals that have returned true, and a proposal
that has just returned true is not answered yet. -/
def Accounts (s : Cluster ι) (i : ι) (c : Session) (done : List (OpType × Bytes × Bytes)) : Prop :=
  match c.serving with
  | .proposing op k v before =>
    writeOf c.line = some (op, k, v) ∧ done.length = before ∧
      ((s.ackedBy i).map writeOfEntry = done ∧ (s.threads i (.client 0) = .idle ∨
          ∃ y, (s.threads i (.client 0)).pc.proposal = some y ∧ writeOfEntry y = (op, k, v)) ∨
        (s.ackedBy i).map writeOfEntry = done ++ [(op, k, v)] ∧ s.threads i (.client 0) = .idle)
  | sv =>
    (match sv with
      | .entering op k v => writeOf c.line = some (op, k, v)
      | .refusing | .naming => (writeOf c.line).isSome
      | .stopping => parseCommand c.line = .kill
      | _ => True) ∧
    (s.ackedBy i).map writeOfEntry = done ∧ s.threads i (.client 0) = .idle

/-- The threads of the clients and the sessions, together. -/
structure Accounted (x : FrontEnd ι) : Prop where
  client : x.cluster.OneClient
  node : ∀ i, Accounts x.cluster i (x.sessions i) (x.okWrites i)

lemma Accounts.of_idle {s : Cluster ι} {i : ι} {c : Session} {done : List (OpType × Bytes × Bytes)}
    (h : Accounts s i c done) (hc : ∀ op k v before, c.serving ≠ .proposing op k v before) :
    (s.ackedBy i).map writeOfEntry = done ∧ s.threads i (.client 0) = .idle := by
  unfold Accounts at h
  split at h
  · next op k v before he => exact absurd he (hc op k v before)
  · exact h.2

section Accounts

variable {cfg : Config ι} {port : ι → ℤ} {x x' : FrontEnd ι} {i j : ι}

/-- A step of the cluster that begins no proposal. -/
lemma Accounts.works {s s' : Cluster ι} {c : Session} {done : List (OpType × Bytes × Bytes)}
    (h : Accounts s i c done) (hs' : s'.OneClient) (hw : s.ClientWorks s' i) :
    Accounts s' i c done := by
  have hidle (hth : s.threads i (.client 0) = .idle) :
      s'.threads i (.client 0) = .idle ∧ s'.ackedBy i = s.ackedBy i := by
    cases hw with
    | goesOn hp ha => exact ⟨hs'.idle i 0 (by rw [hp, hth]; rfl), ha⟩
    | returns y hp => rw [hth] at hp; cases hp
  unfold Accounts at h ⊢
  split at h
  · next op k v before hc =>
    obtain ⟨hline, hlen, hcase⟩ := h
    refine ⟨hline, hlen, ?_⟩
    rcases hcase with ⟨hack, hth | ⟨y, hy, hent⟩⟩ | ⟨hack, hth⟩
    · obtain ⟨h1, h2⟩ := hidle hth
      exact Or.inl ⟨by rw [h2, hack], Or.inl h1⟩
    · cases hw with
      | goesOn hp ha => exact Or.inl ⟨by rw [ha, hack], Or.inr ⟨y, by rw [hp, hy], hent⟩⟩
      | returns y' hp hth ha =>
        obtain rfl : y = y' := Option.some.inj (hy.symm.trans hp)
        rcases ha with ha | ha
        · exact Or.inl ⟨by rw [ha, hack], Or.inl hth⟩
        · exact Or.inr ⟨by rw [ha, List.map_append, hack, List.map_singleton, hent], hth⟩
    · obtain ⟨h1, h2⟩ := hidle hth
      exact Or.inr ⟨by rw [h2, hack], h1⟩
  · obtain ⟨hline, hack, hth⟩ := h
    obtain ⟨h1, h2⟩ := hidle hth
    exact ⟨hline, by rw [h2, hack], h1⟩

/-- The sessions of the other servers do not change. -/
lemma accounts_update (h : ∀ i, Accounts x.cluster i (x.sessions i) (x.okWrites i)) {c : Session}
    (hj : Accounts x.cluster j c (x.okWrites j)) (i : ι) :
    Accounts x.cluster i (Function.update x.sessions j c i) (x.okWrites i) := by
  by_cases hi : i = j
  · subst hi
    simpa using hj
  · simpa [hi] using h i

lemma okWrites_respond (x : FrontEnd ι) (i j : ι) (reply : Bytes) :
    (x.respond j reply).okWrites i = if j = i then x.okWrites i ++
      ((if reply = text "OK\n" then writeOf (x.sessions j).line else none)).toList
      else x.okWrites i := by
  have hone : ∀ y : Answer ι, [y].filterMap Answer.okWrite = y.okWrite.toList := fun y => by
    cases h : y.okWrite <;> simp [h]
  unfold okWrites respond
  simp only [List.filter_cons]
  by_cases hi : j = i
  · subst hi
    simp only [decide_true, if_true, List.reverse_cons, List.filterMap_append, hone]
    rfl
  · simp only [hi, decide_false, Bool.false_eq_true, if_false]

/-- **An answer**: it accounts for a write when it says `OK`, and the server reads on. -/
lemma Accounted.respond (h : x.Accounted) {reply : Bytes}
    (hack : (x.cluster.ackedBy j).map writeOfEntry = x.okWrites j ++
      (if reply = text "OK\n" then writeOf (x.sessions j).line else none).toList)
    (hth : x.cluster.threads j (.client 0) = .idle) : (x.respond j reply).Accounted := by
  refine ⟨h.client, fun i => ?_⟩
  rw [okWrites_respond]
  by_cases hi : i = j
  · subst hi
    rw [if_pos rfl, ← hack]
    have hc : (x.respond i reply).sessions i = { x.sessions i with serving := .reading } := by
      simp [FrontEnd.respond, setServing, setSession]
    rw [hc]
    exact ⟨trivial, rfl, hth⟩
  · rw [if_neg (Ne.symm hi)]
    have hc : (x.respond j reply).sessions i = x.sessions i := by
      simp [FrontEnd.respond, setServing, setSession, hi]
    rw [hc]
    exact h.node i

/-- An answer outside a proposal that does not account for a write. -/
lemma Accounted.respond_other (h : x.Accounted) {reply : Bytes}
    (hc : ∀ op k v before, (x.sessions j).serving ≠ .proposing op k v before)
    (hno : reply ≠ text "OK\n" ∨ writeOf (x.sessions j).line = none) :
    (x.respond j reply).Accounted := by
  obtain ⟨hack, hth⟩ := (h.node j).of_idle hc
  refine h.respond ?_ hth
  rw [hack]
  rcases hno with hno | hno
  · simp [hno]
  · simp [hno]

/-- A session that does not wait for a proposal changes. -/
lemma Accounted.setSession (h : x.Accounted) {c : Session}
    (hc : ∀ op k v before, (x.sessions j).serving ≠ .proposing op k v before)
    (hline : match c.serving with
      | .entering op k v => writeOf c.line = some (op, k, v)
      | .refusing | .naming => (writeOf c.line).isSome
      | .stopping => parseCommand c.line = .kill
      | .proposing .. => False
      | _ => True) : (x.setSession j c).Accounted := by
  refine ⟨h.client, accounts_update h.node ?_⟩
  obtain ⟨hack, hth⟩ := (h.node j).of_idle hc
  obtain ⟨pending, line, serving⟩ := c
  cases serving with
  | proposing op k v before => exact hline.elim
  | _ => exact ⟨hline, hack, hth⟩

/-- **A step.** -/
theorem Accounted.step (h : x.Accounted) (hs : Happens cfg port x x') : x'.Accounted := by
  -- outside a proposal the line in hand is what the server is at
  have hline (i : ι) := h.node i
  cases hs with
  | raft a s hs ha hb =>
    obtain ⟨hcl, hst⟩ := Service.step_cluster hs
    obtain ⟨hc', hw⟩ := (Cluster.step_effect hcl).oneClient ha h.client
    exact ⟨hc', fun i => (h.node i).works hc' (hw i)⟩
  | read i bytes hc =>
    refine h.setSession (by simp [hc]) ?_
    simp [hc]
  | reply i l rest resp hc hl hb =>
    have hspec := beginCommand_spec (x.service.stores i) (x.cluster.nodes i).role (dropReturn l)
    rw [hb] at hspec
    have h' : (x.setSession i (took l rest .reading)).Accounted := h.setSession (by simp [hc]) trivial
    refine h'.respond_other (by simp [FrontEnd.setSession, took]) (Or.inr ?_)
    simpa [FrontEnd.setSession, took] using hspec.1
  | begins i l rest sv hc hl hb =>
    refine h.setSession (by simp [hc]) ?_
    cases sv with
    | refusing | entering => exact hb
    | _ => exact hb.elim
  | stop i l rest hc hl hk =>
    have h' : (x.setSession i (took l rest .stopping)).Accounted := h.setSession (by simp [hc]) hk
    exact ⟨h'.client, h'.node⟩
  | unknown i hc hn => exact h.respond_other (by simp [hc]) (Or.inl (by decide +kernel))
  | known i hc =>
    have hi := hline i
    unfold Accounts at hi
    simp only [hc] at hi
    exact h.setSession (by simp [hc]) hi.1
  | gone i hc => exact h.setSession (by simp [hc]) trivial
  | named i j hc hn => exact h.respond_other (by simp [hc]) (Or.inl (leaderReply_ne_ok _))
  | propose i op k v a s hc ha hs =>
    have hi := hline i
    unfold Accounts at hi
    simp only [hc] at hi
    obtain ⟨hwrite, hack, hth⟩ := hi
    obtain ⟨hcl, hst⟩ := Service.step_cluster hs
    have hprop : x.cluster.propose i 0 op k v = some s.cluster := by
      rcases ha with ⟨rfl, rfl⟩ | ⟨rfl, rfl⟩
      · exact hcl
      · rw [writeOf_del hwrite]
        exact hcl
    obtain ⟨hc', hack', -, hothers, hcase⟩ := Cluster.propose_oneClient h.client hprop
    have hacked (j : ι) : s.cluster.ackedBy j = x.cluster.ackedBy j := Cluster.ackedBy_congr hack'
    have hnode (j : ι) : Accounts s.cluster j
        ((x.setServing i (.proposing op k v (x.cluster.ackedBy i).length)).sessions j)
        (x.okWrites j) := by
      by_cases hj : j = i
      · subst hj
        have hlen : (x.okWrites j).length = (x.cluster.ackedBy j).length := by
          rw [← hack, List.length_map]
        simp only [setServing, FrontEnd.setSession, Function.update_self]
        refine ⟨hwrite, hlen, Or.inl ⟨by rw [hacked, hack], ?_⟩⟩
        rcases hcase with heq | ⟨index, term, hy⟩
        · exact Or.inl (heq ▸ hth)
        · exact Or.inr ⟨_, hy, rfl⟩
      · have hj' := h.node j
        unfold Accounts at hj' ⊢
        simp only [setServing, FrontEnd.setSession, Function.update_of_ne hj]
        rw [hacked, hothers j _ (by simp [hj])]
        exact hj'
    exact ⟨hc', hnode⟩
  | proposed i op k v before hc hth =>
    have hi := hline i
    unfold Accounts at hi
    simp only [hc] at hi
    obtain ⟨hwrite, hlen, hcase⟩ := hi
    refine h.respond ?_ hth
    rcases hcase with ⟨hack, -⟩ | ⟨hack, -⟩
    · have hb : ¬ before < (x.cluster.ackedBy i).length := by
        rw [← hlen, ← hack, List.length_map]
        exact lt_irrefl _
      rw [hack, if_neg]
      · simp
      · rw [decide_eq_false hb]
        exact proposalReply_false op
    · have hb : before < (x.cluster.ackedBy i).length := by
        have hl := congrArg List.length hack
        rw [List.length_map, List.length_append, List.length_singleton, hlen] at hl
        omega
      rw [hack, if_pos, hwrite]
      · rfl
      · rw [decide_eq_true hb]
        rfl
  | stopped i hc h1 h2 h3 => exact h.respond_other (by simp [hc]) (Or.inl (by decide +kernel))

lemma start_accounted (stores : ι → KVStore) : (start stores).Accounted :=
  ⟨Cluster.oneClient_init, fun _ => ⟨trivial, rfl, rfl⟩⟩

end Accounts

/-- **The writes answered with `OK` are the proposals that have returned true.** In every run,
whatever the schedule, the writes a server has answered with `OK` are those of the proposals of its
node that have returned true, each once and in order; a proposal that has just returned true may
still wait for its answer. -/
theorem ok_answers (cfg : Config ι) (port : ι → ℤ) {stores : ι → KVStore} {es : List (Event ι)}
    {x : FrontEnd ι} (hrun : (start stores).run cfg port es = some x) (i : ι) :
    x.okWrites i = (x.cluster.ackedBy i).map writeOfEntry ∨
      ∃ op k v, (x.sessions i).serving = .proposing op k v (x.okWrites i).length ∧
        (x.cluster.ackedBy i).map writeOfEntry = x.okWrites i ++ [(op, k, v)] := by
  have h := run_induct hrun (start_accounted stores) fun e y y' hs hy => hy.step (step_happens hs)
  have hi := h.node i
  unfold Accounts at hi
  split at hi
  · next op k v before hc =>
    obtain ⟨-, hlen, ⟨hack, -⟩ | ⟨hack, -⟩⟩ := hi
    · exact Or.inl hack.symm
    · exact Or.inr ⟨op, k, v, by rw [hc, hlen], hack⟩
  · exact Or.inl hi.2.1.symm

/-- The nodes of the demo and the ports of their servers. -/
def demoPort (i : Fin 3) : ℤ := portForNode (i + 1)

/-- A write comes in, in two pieces and with a read behind it, and is proposed and answered; then its
entry is committed and applied, and the read is answered. -/
def writeAndRead : List (Event (Fin 3)) :=
  firstElection.map .raft ++ [.receive 0 (text "PUT a"), .receive 0 (text " 1\r\nGET a\n"),
    .command 0, .propose 0] ++ (acknowledge (text "a") (text "1")).tail.map .raft ++ [.finish 0] ++
    [.raft (.beat 0), .raft (.build 0), .raft (.handle 0 .heartbeat),
      .raft (.resume 0 .heartbeat false), .raft (.build 0), .raft (.resume 0 .heartbeat true),
      .raft (.build 0), .raft (.take 0), .raft (.apply 0), .command 0]

/-- The write of the first server. -/
theorem ok_answers_first : ∃ x,
    (start fun _ => KVStore.new).run threeNodes demoPort writeAndRead = some x ∧
      x.okWrites 0 = [(.put, text "a", text "1")] ∧
      x.okWrites 0 = (x.cluster.ackedBy 0).map writeOfEntry := by
  have h : ((start fun _ => KVStore.new).run threeNodes demoPort writeAndRead).map (fun x =>
      (x.okWrites 0, (x.sessions 0).serving)) = some ([(.put, text "a", text "1")], .reading) := by
    decide +kernel
  obtain ⟨x, hrun, hx⟩ := Option.map_eq_some_iff.mp h
  obtain ⟨h1, h2⟩ := Prod.mk.inj hx
  refine ⟨x, hrun, h1, ?_⟩
  rcases ok_answers threeNodes demoPort hrun 0 with h | ⟨op, k, v, hc, -⟩
  · exact h
  · simp [h2] at hc

end FrontEnd

end VeriStore.Server

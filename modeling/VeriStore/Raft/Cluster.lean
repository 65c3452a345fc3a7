import VeriStore.Raft.Node

/-!
A cluster of Raft nodes: threads, calls in progress and the steps of a run.

Each node has an election, a heartbeat and an apply thread and any number of client threads. A
thread is between two critical sections or waits for a call. A call is handled by its peer at any
later time, or never, and it returns at any time after that with the answer of the peer; a lost
call returns what the transport says for a peer that is not available, and its request may still
arrive later. The lists `elected`, `acked` and `applied` record what has happened.
-/

namespace VeriStore.Raft

open VeriStore.Lib

/-- The peers of every node: all other nodes, each once. -/
structure Config (ι : Type) where
  peers : ι → List ι
  nodup : ∀ i, (peers i).Nodup
  mem_peers : ∀ i j, j ∈ peers i ↔ j ≠ i

/-! ### Calls -/

inductive Request (ι : Type) where
  | vote (req : RequestVoteReq ι)
  | append (req : AppendEntriesReq ι)

inductive Response where
  | vote (resp : RequestVoteResp)
  | append (resp : AppendEntriesResp)

/-- What the transport returns for a peer that is not available. -/
def Request.unavailable {ι : Type} : Request ι → Response
  | .vote req => .vote ⟨req.term, false⟩
  | .append req => .append ⟨req.term, false⟩

/-- The handler of a request. -/
def RaftNode.handle {ι : Type} [DecidableEq ι] (n : RaftNode ι) : Request ι → RaftNode ι × Response
  | .vote req => ((n.onRequestVote req).1, .vote (n.onRequestVote req).2)
  | .append req => ((n.onAppendEntries req).1, .append (n.onAppendEntries req).2)

/-- A call in progress; the answer is there once the peer has handled the request. -/
structure Call (ι : Type) where
  peer : ι
  request : Request ι
  answer : Option Response

/-! ### Threads -/

inductive Thread where
  | election | heartbeat | apply
  | client (k : ℕ)
  deriving DecidableEq

/-- Where a thread is and its local variables. The index an entry was stored at is kept to speak
about it; the code does not keep it. -/
inductive Pc (ι : Type) where
  | idle
  | timedOut
  | electing (votes : ℕ) (rest : List ι)
  | sending (rest : List ι)
  | beating (rest : List ι)
  | appended (e : LogEntry) (index : ℕ)
  | replicating (e : LogEntry) (index acks : ℕ) (rest : List ι)
  | acknowledged (e : LogEntry) (index : ℕ)
  | notifying (e : LogEntry) (index : ℕ) (rest : List ι)
  | applying (index : ℕ) (e : LogEntry)

/-- A thread that waits for a call cannot do anything else. -/
structure ThreadState (ι : Type) where
  pc : Pc ι
  call : Option (Call ι)

def ThreadState.idle {ι : Type} : ThreadState ι := ⟨.idle, none⟩

/-- A loop over the peers that makes the same request to each: the next call, or the end. -/
def ThreadState.loop {ι : Type} (pc : List ι → Pc ι) (request : Request ι) (atEnd : ThreadState ι) :
    List ι → ThreadState ι
  | [] => atEnd
  | p :: rest => ⟨pc rest, some ⟨p, request, none⟩⟩

/-! ### Clusters -/

/-- The nodes, their threads and the lost requests that may still arrive; then the nodes that
became leader with their terms and logs, the entries whose proposal returned true with the node
and the index, and the entries applied by each node. -/
structure Cluster (ι : Type) where
  nodes : ι → RaftNode ι
  threads : ι → Thread → ThreadState ι
  late : List (ι × Request ι)
  elected : List (ι × ℕ × List LogEntry)
  acked : List (ι × ℕ × LogEntry)
  applied : List (ι × ℕ × LogEntry)

inductive Action (ι : Type) where
  | timeout (i : ι)
  | stand (i : ι)
  | beat (i : ι)
  | build (i : ι)
  | proposePut (i : ι) (k : ℕ) (key value : Bytes)
  | proposeDel (i : ι) (k : ℕ) (key : Bytes)
  | place (i : ι) (k : ℕ)
  | notify (i : ι) (k : ℕ)
  | take (i : ι)
  | apply (i : ι)
  | handle (i : ι) (th : Thread)
  | resume (i : ι) (th : Thread) (lost : Bool)
  | handleLate (n : ℕ)

namespace Cluster

variable {ι : Type} [DecidableEq ι]

def init : Cluster ι where
  nodes := fun _ => RaftNode.init
  threads := fun _ _ => ThreadState.idle
  late := []
  elected := []
  acked := []
  applied := []

def setNode (s : Cluster ι) (i : ι) (n : RaftNode ι) : Cluster ι :=
  { s with nodes := Function.update s.nodes i n }

def setThread (s : Cluster ι) (i : ι) (th : Thread) (x : ThreadState ι) : Cluster ι :=
  { s with threads := Function.update s.threads i (Function.update (s.threads i) th x) }

/-! ### The election thread -/

/-- The timeout has passed, and the node was not the leader when the thread looked. -/
def timeout (s : Cluster ι) (i : ι) : Option (Cluster ι) :=
  match s.threads i .election with
  | ⟨.idle, none⟩ =>
    if (s.nodes i).role = .leader then none else some (s.setThread i .election ⟨.timedOut, none⟩)
  | _ => none

def stand (cfg : Config ι) (s : Cluster ι) (i : ι) : Option (Cluster ι) :=
  match s.threads i .election with
  | ⟨.timedOut, none⟩ =>
    let n := (s.nodes i).becomeCandidate i
    some ((s.setNode i n).setThread i .election
      (.loop (.electing 1) (.vote (n.voteRequest i)) .idle (cfg.peers i)))
  | _ => none

/-- The thread goes on with the reply to a vote request. -/
def electionResume (cfg : Config ι) (s : Cluster ι) (i : ι) (th : Thread) (votes : ℕ)
    (rest : List ι) (req : RequestVoteReq ι) (resp : RequestVoteResp) : Cluster ι :=
  match (s.nodes i).electionReply i (cfg.peers i) req.term votes resp with
  | (n, .stop) => (s.setNode i n).setThread i th .idle
  | (n, .won) =>
    { (s.setNode i n).setThread i th .idle with
      elected := (i, n.currentTerm, n.log) :: s.elected }
  | (n, .ask votes) =>
    (s.setNode i n).setThread i th (.loop (.electing votes) (.vote req) .idle rest)

/-! ### The heartbeat thread -/

def beat (cfg : Config ι) (s : Cluster ι) (i : ι) : Option (Cluster ι) :=
  match s.threads i .heartbeat with
  | ⟨.idle, none⟩ =>
    if (s.nodes i).role = .leader then
      some (s.setThread i .heartbeat ⟨.sending (cfg.peers i), none⟩)
    else none
  | _ => none

def build (s : Cluster ι) (i : ι) : Option (Cluster ι) :=
  match s.threads i .heartbeat with
  | ⟨.sending [], none⟩ => some (s.setThread i .heartbeat .idle)
  | ⟨.sending (p :: rest), none⟩ =>
    if (s.nodes i).role = .leader then
      some (s.setThread i .heartbeat
        ⟨.beating rest, some ⟨p, .append ((s.nodes i).buildAppendEntries i p), none⟩⟩)
    else some (s.setThread i .heartbeat .idle)
  | _ => none

def heartbeatResume (cfg : Config ι) (s : Cluster ι) (i : ι) (th : Thread) (rest : List ι)
    (peer : ι) (req : AppendEntriesReq ι) (resp : AppendEntriesResp) : Cluster ι :=
  match (s.nodes i).heartbeatReply (cfg.peers i) peer req resp with
  | (n, true) => (s.setNode i n).setThread i th ⟨.sending rest, none⟩
  | (n, false) => (s.setNode i n).setThread i th .idle

/-! ### Proposals -/

/-- The first critical section; the proposal fails at once on a node that is not the leader. -/
def propose (s : Cluster ι) (i : ι) (k : ℕ) (op : OpType) (key value : Bytes) :
    Option (Cluster ι) :=
  match s.threads i (.client k) with
  | ⟨.idle, none⟩ =>
    match (s.nodes i).proposeAppend op key value with
    | none => some s
    | some (n, e) => some ((s.setNode i n).setThread i (.client k) ⟨.appended e n.lastLogIndex, none⟩)
  | _ => none

def proposePut (s : Cluster ι) (i : ι) (k : ℕ) (key value : Bytes) : Option (Cluster ι) :=
  s.propose i k .put key value

def proposeDel (s : Cluster ι) (i : ι) (k : ℕ) (key : Bytes) : Option (Cluster ι) :=
  s.propose i k .del key []

/-- The thread behind the replication loop with a number of acknowledgements. -/
def replicated (cfg : Config ι) (i : ι) (e : LogEntry) (index acks : ℕ) : ThreadState ι :=
  if acks < RaftNode.needed (cfg.peers i) then .idle else ⟨.acknowledged e index, none⟩

/-- The second critical section and the first call. -/
def place (cfg : Config ι) (s : Cluster ι) (i : ι) (k : ℕ) : Option (Cluster ι) :=
  match s.threads i (.client k) with
  | ⟨.appended e index, none⟩ =>
    some (s.setThread i (.client k) (.loop (.replicating e index 1)
      (.append ((s.nodes i).proposeRequest i e)) (replicated cfg i e index 1) (cfg.peers i)))
  | _ => none

def proposeResume (cfg : Config ι) (s : Cluster ι) (i : ι) (th : Thread) (e : LogEntry)
    (index acks : ℕ) (rest : List ι) (req : AppendEntriesReq ι) (resp : AppendEntriesResp) :
    Cluster ι :=
  match (s.nodes i).proposeReply (cfg.peers i) acks resp with
  | (n, .failed) => (s.setNode i n).setThread i th .idle
  | (n, .acked) => (s.setNode i n).setThread i th ⟨.acknowledged e index, none⟩
  | (n, .next acks) => (s.setNode i n).setThread i th
      (.loop (.replicating e index acks) (.append req) (replicated cfg i e index acks) rest)

/-- A proposal returns true. -/
def returnTrue (s : Cluster ι) (i : ι) (th : Thread) (e : LogEntry) (index : ℕ) : Cluster ι :=
  { s.setThread i th .idle with acked := (i, index, e) :: s.acked }

/-- The third critical section and the first call. -/
def notify (cfg : Config ι) (s : Cluster ι) (i : ι) (k : ℕ) : Option (Cluster ι) :=
  match s.threads i (.client k) with
  | ⟨.acknowledged e index, none⟩ =>
    match cfg.peers i with
    | [] => some (s.returnTrue i (.client k) e index)
    | p :: rest => some (s.setThread i (.client k) ⟨.notifying e index rest,
        some ⟨p, .append ((s.nodes i).commitNotice i), none⟩⟩)
  | _ => none

def noticeResume (s : Cluster ι) (i : ι) (th : Thread) (e : LogEntry) (index : ℕ) (rest : List ι)
    (hb : AppendEntriesReq ι) (resp : AppendEntriesResp) : Cluster ι :=
  match (s.nodes i).noticeReply resp, rest with
  | (n, true), p :: rest =>
    (s.setNode i n).setThread i th ⟨.notifying e index rest, some ⟨p, .append hb, none⟩⟩
  | (n, _), _ => (s.setNode i n).returnTrue i th e index

/-! ### The apply thread -/

def take (s : Cluster ι) (i : ι) : Option (Cluster ι) :=
  match s.threads i .apply with
  | ⟨.idle, none⟩ =>
    (s.nodes i).takeCommitted.map fun (n, index, e) =>
      (s.setNode i n).setThread i .apply ⟨.applying index e, none⟩
  | _ => none

def apply (s : Cluster ι) (i : ι) : Option (Cluster ι) :=
  match s.threads i .apply with
  | ⟨.applying index e, none⟩ =>
    some { s.setThread i .apply .idle with applied := (i, index, e) :: s.applied }
  | _ => none

/-! ### Calls -/

/-- The peer handles the request of a call. -/
def handle (s : Cluster ι) (i : ι) (th : Thread) : Option (Cluster ι) :=
  match s.threads i th with
  | ⟨pc, some ⟨p, request, none⟩⟩ =>
    let (n, resp) := (s.nodes p).handle request
    some ((s.setNode p n).setThread i th ⟨pc, some ⟨p, request, some resp⟩⟩)
  | _ => none

/-- A lost request arrives after all; nobody waits for the answer. -/
def handleLate (s : Cluster ι) (n : ℕ) : Option (Cluster ι) :=
  (s.late[n]?).map fun (p, request) =>
    { s.setNode p ((s.nodes p).handle request).1 with late := s.late.eraseIdx n }

/-- A thread goes on with the response to its call. -/
def continueWith (cfg : Config ι) (s : Cluster ι) (i : ι) (th : Thread) (pc : Pc ι) (c : Call ι)
    (resp : Response) : Option (Cluster ι) :=
  match pc, c.request, resp with
  | .electing votes rest, .vote req, .vote resp =>
    some (s.electionResume cfg i th votes rest req resp)
  | .beating rest, .append req, .append resp =>
    some (s.heartbeatResume cfg i th rest c.peer req resp)
  | .replicating e index acks rest, .append req, .append resp =>
    some (s.proposeResume cfg i th e index acks rest req resp)
  | .notifying e index rest, .append hb, .append resp =>
    some (s.noticeResume i th e index rest hb resp)
  | _, _, _ => none

/-- A call returns with its answer, or it is lost. -/
def resume (cfg : Config ι) (s : Cluster ι) (i : ι) (th : Thread) (lost : Bool) :
    Option (Cluster ι) :=
  match s.threads i th with
  | ⟨pc, some c⟩ =>
    match lost, c.answer with
    | false, none => none
    | false, some resp => s.continueWith cfg i th pc c resp
    | true, some _ => s.continueWith cfg i th pc c c.request.unavailable
    | true, none =>
      { s with late := (c.peer, c.request) :: s.late }.continueWith cfg i th pc c
        c.request.unavailable
  | _ => none

/-! ### Runs -/

/-- **One step of the cluster**; `none` when the action is not possible. -/
def step (cfg : Config ι) (s : Cluster ι) : Action ι → Option (Cluster ι)
  | .timeout i => s.timeout i
  | .stand i => s.stand cfg i
  | .beat i => s.beat cfg i
  | .build i => s.build i
  | .proposePut i k key value => s.proposePut i k key value
  | .proposeDel i k key => s.proposeDel i k key
  | .place i k => s.place cfg i k
  | .notify i k => s.notify cfg i k
  | .take i => s.take i
  | .apply i => s.apply i
  | .handle i th => s.handle i th
  | .resume i th lost => s.resume cfg i th lost
  | .handleLate n => s.handleLate n

/-- A run from a state. -/
def run (cfg : Config ι) (s : Cluster ι) (as : List (Action ι)) : Option (Cluster ι) :=
  as.foldlM (step cfg) s

end Cluster

end VeriStore.Raft

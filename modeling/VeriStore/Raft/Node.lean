import VeriStore.Lib.Text

/-!
One Raft node: its state, its request handlers and the critical sections of its threads.

Every function here is what a thread does while it holds the lock of the node. The identifiers of
the nodes are a type `ι`. The clock, the election timeout and the output are left out: whether a
timeout has passed is a choice of the scheduler. Terms and indices are natural numbers.
-/

namespace VeriStore.Raft

open VeriStore.Lib

inductive RaftRole where
  | follower | candidate | leader
  deriving DecidableEq

inductive OpType where
  | put | del
  deriving DecidableEq

structure LogEntry where
  term : ℕ
  op : OpType
  key : Bytes
  value : Bytes
  deriving DecidableEq

/-! ### Messages -/

structure RequestVoteReq (ι : Type) where
  term : ℕ
  candidateId : ι
  lastLogIndex : ℕ
  lastLogTerm : ℕ

structure RequestVoteResp where
  term : ℕ
  voteGranted : Bool

/-- No entries make a heartbeat. -/
structure AppendEntriesReq (ι : Type) where
  term : ℕ
  leaderId : ι
  prevLogIndex : ℕ
  prevLogTerm : ℕ
  entries : List LogEntry
  leaderCommit : ℕ

structure AppendEntriesResp where
  term : ℕ
  success : Bool

/-! ### The state of a node -/

/-- Log indices start at one: the entry with index `k` is at position `k - 1` of `log`. -/
structure RaftNode (ι : Type) where
  currentTerm : ℕ
  votedFor : Option ι
  log : List LogEntry
  role : RaftRole
  leaderId : Option ι
  commitIndex : ℕ
  lastApplied : ℕ
  nextIndex : ι → Option ℕ
  matchIndex : ι → Option ℕ

namespace RaftNode

variable {ι : Type}

def init : RaftNode ι where
  currentTerm := 0
  votedFor := none
  log := []
  role := .follower
  leaderId := none
  commitIndex := 0
  lastApplied := 0
  nextIndex := fun _ => none
  matchIndex := fun _ => none

/-! ### The log -/

def lastLogIndex (n : RaftNode ι) : ℕ := n.log.length

/-- The term of the last entry of a log; zero for the empty log. -/
def lastTerm (log : List LogEntry) : ℕ := (log.getLast?.map LogEntry.term).getD 0

def lastLogTerm (n : RaftNode ι) : ℕ := lastTerm n.log

/-- The term of the entry with the index `idx`; zero when there is none. -/
def termIn (log : List LogEntry) (idx : ℕ) : ℕ :=
  if idx = 0 then 0 else (log[idx - 1]?.map LogEntry.term).getD 0

def termAt (n : RaftNode ι) (idx : ℕ) : ℕ := termIn n.log idx

def isUpToDate (n : RaftNode ι) (candLastIdx candLastTerm : ℕ) : Bool :=
  if candLastTerm ≠ n.lastLogTerm then n.lastLogTerm < candLastTerm
  else n.lastLogIndex ≤ candLastIdx

/-! ### Roles -/

def becomeFollower (n : RaftNode ι) (newTerm : ℕ) (leader : Option ι) : RaftNode ι :=
  { n with role := .follower, leaderId := leader, currentTerm := newTerm, votedFor := none }

def becomeCandidate (n : RaftNode ι) (self : ι) : RaftNode ι :=
  { n with
    role := .candidate
    leaderId := none
    currentTerm := n.currentTerm + 1
    votedFor := some self }

def becomeLeader [DecidableEq ι] (n : RaftNode ι) (self : ι) (peers : List ι) : RaftNode ι :=
  { n with
    role := .leader
    leaderId := some self
    nextIndex := fun p => if p ∈ peers then some (n.lastLogIndex + 1) else n.nextIndex p
    matchIndex := fun p => if p ∈ peers then some 0 else n.matchIndex p }

/-! ### Replication -/

def buildAppendEntries (n : RaftNode ι) (self peer : ι) : AppendEntriesReq ι :=
  let next := (n.nextIndex peer).getD 1
  let prev := if next = 0 ∨ next = 1 then 0 else next - 1
  { term := n.currentTerm
    leaderId := self
    prevLogIndex := prev
    prevLogTerm := n.termAt prev
    entries := if 1 ≤ next ∧ next ≤ n.log.length then n.log.drop (next - 1) else []
    leaderCommit := n.commitIndex }

/-- The index of the last own entry and the match indices of the peers, which are the keys of the
table. -/
def matchValues (n : RaftNode ι) (peers : List ι) : List ℕ :=
  n.lastLogIndex :: peers.filterMap n.matchIndex

/-- The element of the sorted values at half their number. -/
def majorityIndex (n : RaftNode ι) (peers : List ι) : ℕ :=
  ((n.matchValues peers).insertionSort (· ≤ ·)).getD ((n.matchValues peers).length / 2) 0

def advanceCommitIndex (n : RaftNode ι) (peers : List ι) : RaftNode ι :=
  if n.commitIndex < n.majorityIndex peers ∧ n.termAt (n.majorityIndex peers) = n.currentTerm then
    { n with commitIndex := n.majorityIndex peers }
  else n

/-! ### Request handlers -/

section Handlers

variable [DecidableEq ι]

def onRequestVote (n : RaftNode ι) (req : RequestVoteReq ι) : RaftNode ι × RequestVoteResp :=
  if req.term < n.currentTerm then (n, ⟨n.currentTerm, false⟩)
  else
    let n := if n.currentTerm < req.term then n.becomeFollower req.term none else n
    if (n.votedFor = none ∨ n.votedFor = some req.candidateId) ∧
        n.isUpToDate req.lastLogIndex req.lastLogTerm then
      ({ n with votedFor := some req.candidateId }, ⟨n.currentTerm, true⟩)
    else (n, ⟨n.currentTerm, false⟩)

/-- The node behind the term check of `OnAppendEntries`. -/
def followLeader (n : RaftNode ι) (term : ℕ) (leader : ι) : RaftNode ι :=
  if n.currentTerm < term then n.becomeFollower term (some leader)
  else { n with role := .follower, leaderId := some leader }

/-- The log with the entries of a request behind its first `prev` entries. -/
def appendAt (log : List LogEntry) (prev : ℕ) (entries : List LogEntry) : List LogEntry :=
  if entries = [] then log else log.take prev ++ entries

/-- The end of an accepted request: the entries and the commit index. -/
def acceptEntries (n : RaftNode ι) (req : AppendEntriesReq ι) : RaftNode ι :=
  let log := appendAt n.log req.prevLogIndex req.entries
  { n with
    log := log
    commitIndex := if n.commitIndex < req.leaderCommit then min req.leaderCommit log.length
      else n.commitIndex }

def onAppendEntries (n : RaftNode ι) (req : AppendEntriesReq ι) : RaftNode ι × AppendEntriesResp :=
  if req.term < n.currentTerm then (n, ⟨n.currentTerm, false⟩)
  else
    let n := n.followLeader req.term req.leaderId
    if n.lastLogIndex < req.prevLogIndex then (n, ⟨n.currentTerm, false⟩)
    else if n.termAt req.prevLogIndex ≠ req.prevLogTerm then (n, ⟨n.currentTerm, false⟩)
    else (n.acceptEntries req, ⟨n.currentTerm, true⟩)

end Handlers

/-! ### The election thread -/

def voteRequest (n : RaftNode ι) (self : ι) : RequestVoteReq ι :=
  ⟨n.currentTerm, self, n.lastLogIndex, n.lastLogTerm⟩

/-- How the loop over the peers goes on: it ends, with or without a won election, or the next
peer is asked. -/
inductive ElectionOutcome where
  | stop
  | won
  | ask (votes : ℕ)

/-- More than half of the nodes, the node itself among them. -/
def needed (peers : List ι) : ℕ := (1 + peers.length) / 2 + 1

/-- A reply to a vote request of the term `termStarted`. -/
def electionReply [DecidableEq ι] (n : RaftNode ι) (self : ι) (peers : List ι) (termStarted votes : ℕ)
    (resp : RequestVoteResp) : RaftNode ι × ElectionOutcome :=
  if n.role ≠ .candidate then (n, .stop)
  else if n.currentTerm ≠ termStarted then (n, .stop)
  else if n.currentTerm < resp.term then (n.becomeFollower resp.term none, .stop)
  else
    let votes := if resp.voteGranted then votes + 1 else votes
    if needed peers ≤ votes then (n.becomeLeader self peers, .won) else (n, .ask votes)

/-! ### The heartbeat thread -/

/-- A reply to the request `req`; the flag says that the loop over the peers goes on. The role and
the term are not looked at again. -/
def heartbeatReply [DecidableEq ι] (n : RaftNode ι) (peers : List ι) (peer : ι)
    (req : AppendEntriesReq ι) (resp : AppendEntriesResp) : RaftNode ι × Bool :=
  if n.currentTerm < resp.term then (n.becomeFollower resp.term none, false)
  else if resp.success then
    let n := if req.entries = [] then n else
      let sentLast := req.prevLogIndex + req.entries.length
      { n with
        matchIndex := Function.update n.matchIndex peer (some sentLast)
        nextIndex := Function.update n.nextIndex peer (some (sentLast + 1)) }
    (n.advanceCommitIndex peers, true)
  else
    -- only an index above one is moved back
    let back := (n.nextIndex peer).map fun x => if 1 < x then max 1 (x - 1) else x
    ({ n with nextIndex := Function.update n.nextIndex peer back }, true)

/-! ### Proposals -/

def pushEntry (n : RaftNode ι) (e : LogEntry) : RaftNode ι := { n with log := n.log ++ [e] }

/-- The first critical section of a proposal. -/
def proposeAppend (n : RaftNode ι) (op : OpType) (key value : Bytes) :
    Option (RaftNode ι × LogEntry) :=
  if n.role ≠ .leader then none
  else
    let e : LogEntry := ⟨n.currentTerm, op, key, value⟩
    some (n.pushEntry e, e)

/-- The second critical section: the position of the entry is read off the log again. An empty
log makes the previous index wrap around. -/
def proposeRequest (n : RaftNode ι) (self : ι) (e : LogEntry) : AppendEntriesReq ι :=
  let prev := if n.lastLogIndex = 0 then 2 ^ 64 - 1 else n.lastLogIndex - 1
  ⟨n.currentTerm, self, prev, n.termAt prev, [e], 0⟩

/-- How the replication loop of a proposal goes on. -/
inductive ProposeOutcome where
  | failed
  | acked
  | next (acks : ℕ)

/-- A reply to the request of a proposal. -/
def proposeReply (n : RaftNode ι) (peers : List ι) (acks : ℕ) (resp : AppendEntriesResp) :
    RaftNode ι × ProposeOutcome :=
  if n.role ≠ .leader then (n, .failed)
  else if n.currentTerm < resp.term then (n.becomeFollower resp.term none, .failed)
  else
    let acks := if resp.success then acks + 1 else acks
    if needed peers ≤ acks then (n, .acked) else (n, .next acks)

/-- The third critical section: the heartbeat behind a replicated entry. -/
def commitNotice (n : RaftNode ι) (self : ι) : AppendEntriesReq ι :=
  ⟨n.currentTerm, self, n.lastLogIndex, n.termAt n.lastLogIndex, [], n.commitIndex⟩

/-- A reply to that heartbeat; the flag says that the loop goes on. -/
def noticeReply (n : RaftNode ι) (resp : AppendEntriesResp) : RaftNode ι × Bool :=
  if n.currentTerm < resp.term then (n.becomeFollower resp.term none, false) else (n, true)

/-! ### The apply thread -/

def noteApplied (n : RaftNode ι) : RaftNode ι := { n with lastApplied := n.lastApplied + 1 }

/-- The next committed entry. A commit index behind the end of the log would read past it. -/
def takeCommitted (n : RaftNode ι) : Option (RaftNode ι × ℕ × LogEntry) :=
  if n.lastApplied < n.commitIndex then
    (n.log[n.lastApplied]?).map fun e => (n.noteApplied, n.lastApplied + 1, e)
  else none

end RaftNode

end VeriStore.Raft

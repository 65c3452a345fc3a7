import VeriStore.Store.Files

/-!
The key-value store: its state, its operations and recovery at `open`.

Every operation takes the state of the store and the files and gives both back. The lock of the
store is held during a whole call, so that a call is one function; the steps of the flush worker
fall between the calls, and between the parts of a call that the functions below name
(`drainOne`, the phases of a compaction, `readAt`).
-/

namespace VeriStore.Store

open VeriStore.Lib VeriStore.Sstable VeriStore.Log

structure KVStore where
  map : Std.ExtTreeMap Bytes Bytes
  memtable : MemTable
  immutable : Option Entries
  sstablePaths : List Bytes
  flushWorker : FlushWorker
  nextSstableId : ℕ
  wal : Wal
  seq : ℕ
  groupCommitEvery : ℕ
  opened : Bool

def kMemTableFlushThresholdBytes : ℕ := 4 * 1024 * 1024
def kCompactionTrigger : ℕ := 4

/-- The path of a flushed table. -/
def flushPath (id : ℕ) : Bytes := text "/tmp/veristore-" ++ decimal id ++ text ".sst"

/-- The path of a compacted table. -/
def compactedPath (id : ℕ) : Bytes := text "/tmp/veristore-compacted-" ++ decimal id ++ text ".sst"

/-- The last position at which a pattern occurs. -/
def lastIndexOf (pattern s : Bytes) : Option ℕ :=
  ((List.range (s.length + 1)).filter fun i => pattern.isPrefixOf (s.drop i)).getLast?

def extractSstableId (path : Bytes) : ℕ :=
  match lastIndexOf (text "-") path, lastIndexOf (text ".sst") path with
  | some dash, some dot =>
    if dot ≤ dash + 1 then 0
    else ((extractU64 ((path.drop (dash + 1)).take (dot - dash - 1))).map (·.1)).getD 0
  | _, _ => 0

namespace KVStore

/-- A store that has not been opened. -/
def new : KVStore where
  map := ∅
  memtable := MemTable.empty
  immutable := none
  sstablePaths := []
  flushWorker := FlushWorker.new
  nextSstableId := 0
  wal := Wal.closed
  seq := 0
  groupCommitEvery := 5
  opened := false

/-! ### Compaction -/

/-- A compaction in progress: its two inputs, its output and the list that replaces the paths. -/
structure CompactJob where
  first : Bytes
  second : Bytes
  output : Bytes
  updatedPaths : List Bytes

/-- Which steps of a compaction succeed. -/
structure CompactIo where
  compact : WriteOutcome
  rename : Bool
  replace : Bool

def CompactIo.ok : CompactIo := ⟨.ok, true, true⟩

/-- The temporary name of the output. -/
def CompactJob.tempOutput (j : CompactJob) : Bytes := j.output ++ text ".tmp"

/-- The loop that looks for an output name not in use; it ends after at most as many turns as
there are paths. -/
def freshOutput (paths : List Bytes) : ℕ → ℕ → Bytes × ℕ
  | 0, id => (compactedPath id, id + 1)
  | n + 1, id =>
    if compactedPath id ∈ paths then freshOutput paths n (id + 1) else (compactedPath id, id + 1)

/-- The choice of the inputs and the output. -/
def compactBegin (s : KVStore) (first second : Bytes) (rest : List Bytes) : KVStore × CompactJob :=
  let (output, next) := freshOutput s.sstablePaths s.sstablePaths.length s.nextSstableId
  ({ s with nextSstableId := next }, ⟨first, second, output, output :: rest⟩)

/-- `Compactor::compact` into the temporary file; a write that fails leaves its first bytes. -/
def compactWrite (j : CompactJob) (d : Disk) (io : WriteOutcome) : Bool × Disk :=
  match compact [d.tables[j.first]?, d.tables[j.second]?], io with
  | some out, .ok => (true, { d with tables := d.tables.insert j.tempOutput out })
  | some out, .short n => (false, { d with tables := d.tables.insert j.tempOutput (out.take n) })
  | _, _ => (false, d)

/-- The rename of the temporary file to the output; a failed rename removes it. -/
def compactRename (j : CompactJob) (d : Disk) (ok : Bool) : Bool × Disk :=
  match ok, d.tables[j.tempOutput]? with
  | true, some out =>
    (true, { d with tables := (d.tables.erase j.tempOutput).insert j.output out })
  | _, _ => (false, { d with tables := d.tables.erase j.tempOutput })

/-- The new manifest; when it cannot be written, the output is removed. -/
def compactReplace (j : CompactJob) (d : Disk) (ok : Bool) : Bool × Disk :=
  if ok then (true, { d with manifest := some (replaceSstables j.updatedPaths) })
  else (false, { d with tables := d.tables.erase j.output })

/-- The new list of paths takes effect and the inputs are removed. -/
def compactFinish (j : CompactJob) (s : KVStore) (d : Disk) : KVStore × Disk :=
  ({ s with sstablePaths := j.updatedPaths },
    { d with tables := (d.tables.erase j.first).erase j.second })

def maybeCompactSstables (s : KVStore) (d : Disk) (io : CompactIo) : Bool × KVStore × Disk :=
  if s.sstablePaths.length < kCompactionTrigger then (true, s, d)
  else
    match s.sstablePaths with
    | first :: second :: rest =>
      if first = second then
        -- a duplicate entry is dropped instead
        (io.replace, { s with sstablePaths := first :: rest },
          if io.replace then { d with manifest := some (replaceSstables (first :: rest)) } else d)
      else
        let (s, j) := compactBegin s first second rest
        match compactWrite j d io.compact with
        | (false, d) => (false, s, d)
        | (true, d) =>
          match compactRename j d io.rename with
          | (false, d) => (false, s, d)
          | (true, d) =>
            match compactReplace j d io.replace with
            | (false, d) => (false, s, d)
            | (true, d) => (true, compactFinish j s d)
    | _ => (true, s, d)

/-! ### Rotation and completions -/

/-- The rotation of the memtable. The entries are moved into the argument of `enqueue`, so that
`immutable` is left engaged and empty whether or not the task was accepted. -/
def maybeFlushMemtable (s : KVStore) : Bool × KVStore :=
  if s.memtable.approximateSizeBytes < kMemTableFlushThresholdBytes then (true, s)
  else if s.immutable.isSome then (false, s)
  else
    let (entries, memtable) := s.memtable.takeEntries
    if entries.isEmpty then (true, { s with memtable := memtable })
    else
      let (ok, worker) := s.flushWorker.enqueue ⟨flushPath s.nextSstableId, entries⟩
      (ok, { s with
        memtable := memtable
        immutable := some ∅
        nextSstableId := s.nextSstableId + 1
        flushWorker := worker })

/-- One turn of the loop of `drain_completed_flushes_unlocked`: the next completion is registered
unless its path is there already. The flag says that a table was added. -/
def drainOne (s : KVStore) : Option (KVStore × Bool) :=
  (s.flushWorker.pollCompletion).map fun (path, worker) =>
    ({ s with
        sstablePaths := if path ∈ s.sstablePaths then s.sstablePaths else s.sstablePaths ++ [path]
        immutable := none
        flushWorker := worker }, decide (path ∉ s.sstablePaths))

/-- The loop over the completions that are there. -/
def drainLoop : ℕ → KVStore → Bool → KVStore × Bool
  | 0, s, added => (s, added)
  | n + 1, s, added =>
    match s.drainOne with
    | none => (s, added)
    | some (s', new) => drainLoop n s' (added || new)

def drainCompletedFlushes (s : KVStore) (d : Disk) (io : CompactIo) : KVStore × Disk :=
  match drainLoop s.flushWorker.completions.length s false with
  | (s, true) => (s.maybeCompactSstables d io).2
  | (s, false) => (s, d)

/-! ### Reads -/

def get (s : KVStore) (key : Bytes) : Option Bytes := s.map[key]?

/-- The answer of the first layer that knows the key. -/
def firstHit : List LookupResult → Option Bytes
  | [] => none
  | .value v :: _ => some v
  | .tombstone :: _ => none
  | .notFound :: rs => firstHit rs

/-- What the layers say about a key, the newest first: the memtable, the immutable memtable and
the tables from the last to the first. -/
def layers (s : KVStore) (d : Disk) (key : Bytes) (readTimestamp : ℕ) : List LookupResult :=
  s.memtable.getAt key readTimestamp ::
    (s.immutable.toList.map (lookupEntries · key readTimestamp) ++
      s.sstablePaths.reverse.map fun p => tableGetAt d.tables[p]? key readTimestamp)

/-- `get_at` behind the draining of the completions. -/
def readAt (s : KVStore) (d : Disk) (key : Bytes) (readTimestamp : ℕ) : Option Bytes :=
  firstHit (s.layers d key readTimestamp)

def getAt (s : KVStore) (d : Disk) (key : Bytes) (readTimestamp : ℕ) (io : CompactIo) :
    Option Bytes × KVStore × Disk :=
  let (s, d) := s.drainCompletedFlushes d io
  (s.readAt d key readTimestamp, s, d)

/-! ### Writes -/

def setGroupCommitEvery (s : KVStore) (n : ℤ) : KVStore :=
  { s with groupCommitEvery := if n ≤ 0 then 1 else n.toNat }

/-- `flush_wal`. -/
def flushWal (s : KVStore) (d : Disk) (io : FlushOutcome) : Bool × KVStore × Disk :=
  match s.wal.flush (d.wal.getD []) io with
  | (ok, wal, file) => (ok, { s with wal := wal }, { d with wal := d.wal.map fun _ => file })

/-- The end of `put` and `del`: rotation, and a flush of the log at a group boundary. -/
def finishWrite (s : KVStore) (d : Disk) (io : FlushOutcome) : Bool × KVStore × Disk :=
  match s.maybeFlushMemtable with
  | (false, s) => (false, s, d)
  | (true, s) => if s.seq % s.groupCommitEvery = 0 then s.flushWal d io else (true, s, d)

def put (s : KVStore) (d : Disk) (key value : Bytes) (io : FlushOutcome) : KVStore × Disk :=
  if !s.opened then (s, d)
  else
    let s := { s with seq := s.seq + 1 }
    match s.wal.appendPut s.seq key value with
    | (false, _) => (s, d)
    | (true, wal) =>
      ({ s with
        wal := wal
        map := s.map.insert key value
        memtable := s.memtable.put key s.seq value }.finishWrite d io).2

def del (s : KVStore) (d : Disk) (key : Bytes) (io : FlushOutcome) : Bool × KVStore × Disk :=
  if !s.opened then (false, s, d)
  else if s.map[key]?.isNone then (false, s, d)
  else
    let s := { s with seq := s.seq + 1 }
    match s.wal.appendDel s.seq key with
    | (false, _) => (false, s, d)
    | (true, wal) =>
      { s with
        wal := wal
        memtable := s.memtable.del key s.seq
        map := s.map.erase key }.finishWrite d io

/-! ### Changes of the map alone -/

/-- `ApplyPut`: the log and the versions are left as they are. -/
def applyPut (s : KVStore) (key value : Bytes) : KVStore :=
  { s with map := s.map.insert key value }

def applyDel (s : KVStore) (key : Bytes) : KVStore := { s with map := s.map.erase key }

/-- The loop of `load_snapshot`: a key and its value are two words. It ends after at most as many
turns as there are bytes. -/
def loadPairs : ℕ → Bytes → Std.ExtTreeMap Bytes Bytes → Std.ExtTreeMap Bytes Bytes
  | 0, _, map => map
  | n + 1, s, map =>
    match extractString s with
    | none => map
    | some (k, s) =>
      match extractString s with
      | none => map
      | some (v, s) => loadPairs n s (map.insert k v)

/-- `load_snapshot`; `none` for a file that cannot be opened. -/
def loadSnapshot (s : KVStore) (file : Option Bytes) : Bool × KVStore :=
  match file with
  | none => (false, s)
  | some content => (true, { s with map := loadPairs content.length content ∅ })

/-! ### Checkpoint and recovery -/

/-- How the file operations of a checkpoint go. -/
structure CheckpointIo where
  save : SaveOutcome
  reopen : Bool

def CheckpointIo.ok : CheckpointIo := ⟨.ok, true⟩

/-- `checkpoint` on the store's own snapshot and log. The buffer of the log is not touched. -/
def checkpoint (s : KVStore) (d : Disk) (io : CheckpointIo) : Bool × KVStore × Disk :=
  if !s.opened then (false, s, d)
  else
    match saveToFileUnlocked d.snapshot s.memtable.entries io.save with
    | (false, file) => (false, s, { d with snapshot := file })
    | (true, file) =>
      let d := { d with snapshot := file, wal := none }
      match s.wal.close.open d.wal io.reopen with
      | (ok, wal, log) => (ok, { s with wal := wal }, { d with wal := log })

/-- `load_from_file_unlocked`. -/
def loadFromFile (s : KVStore) (file : Option Bytes) : Bool × KVStore :=
  match file with
  | none => (false, s)
  | some content =>
    match loadLines (lines content) ⟨∅, MemTable.empty, s.seq⟩ with
    | (ok, st) => (ok, { s with map := st.map, memtable := st.memtable, seq := st.seq })

/-- A record of the log applied to the store, without logging it again. -/
def applyRecord (s : KVStore) (r : Record) : KVStore :=
  match r.value with
  | some v => { s with map := s.map.insert r.key v, memtable := s.memtable.put r.key r.seq v }
  | none => { s with map := s.map.erase r.key, memtable := s.memtable.del r.key r.seq }

/-- Which steps of `open` succeed. -/
structure OpenIo where
  walOpen : Bool
  walSeek : Bool
  manifestOpen : Bool
  compaction : CompactIo

def OpenIo.ok : OpenIo := ⟨true, true, true, CompactIo.ok⟩

/-- The part of `open` behind the replay: the manifest, the compaction at startup, the worker. The
last assignment to the table counter replaces the one computed from the paths. -/
def openTables (s : KVStore) (d : Disk) (io : OpenIo) : Bool × KVStore × Disk :=
  match manifestOpen d.manifest io.manifestOpen with
  | (false, m) => (false, s, { d with manifest := m })
  | (true, m) =>
    let paths := loadSstables m
    let next := paths.foldl (fun n p => max n (extractSstableId p + 1)) 0
    let s := { s with sstablePaths := paths, nextSstableId := next }
    let (_, s, d) := s.maybeCompactSstables { d with manifest := m } io.compaction
    (true, { s with
      flushWorker := s.flushWorker.start
      nextSstableId := s.sstablePaths.length }, d)

def «open» (s : KVStore) (d : Disk) (io : OpenIo) : Bool × KVStore × Disk :=
  if s.opened then (true, s, d)
  else
    let s := (s.loadFromFile d.snapshot).2
    match s.wal.open d.wal io.walOpen with
    | (false, wal, file) => (false, { s with wal := wal }, { d with wal := file })
    | (true, wal, file) =>
      let d := { d with wal := file }
      match wal.replayInto (file.getD []) applyRecord s io.walSeek with
      | (false, wal, out) => (false, { out.store with wal := wal }, d)
      | (true, wal, out) =>
        openTables { out.store with wal := wal, seq := out.maxSeq, opened := true } d io

/-- A clean exit: the worker is stopped and joined, which lets it finish its tasks; the buffer of
the log is not flushed. What is left are the files. -/
def close (s : KVStore) (d : Disk) : Disk :=
  (s.flushWorker.stop.runOn s.flushWorker.stepsLeft d).2

end KVStore

end VeriStore.Store

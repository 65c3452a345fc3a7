import VeriStore.Sstable.Defs
import VeriStore.Log.Replay

/-!
What the store keeps on disk and who writes it: the manifest, the version snapshot and the flush
worker.

The files are byte strings, `none` for a file that does not exist. An operation that makes system
calls takes the outcome of these calls as an argument.
-/

namespace VeriStore.Store

open VeriStore.Lib VeriStore.Sstable

/-- The files of a store: the snapshot, the write-ahead log, the manifest and the tables. -/
structure Disk where
  snapshot : Option Bytes
  wal : Option Bytes
  manifest : Option Bytes
  tables : Std.ExtTreeMap Bytes Bytes

/-- No file exists. -/
def Disk.empty : Disk := ⟨none, none, none, ∅⟩

/-- How writing a file goes: it is written, it cannot be opened, or a write fails after some
bytes. -/
inductive WriteOutcome where
  | ok
  | refused
  | short (written : ℕ)

/-- How saving the snapshot goes. The stream is neither flushed nor closed before the answer: behind
an answer of true the bytes that it still holds can be `lost`. -/
inductive SaveOutcome where
  | ok
  | refused
  | short (written : ℕ)
  | lost (written : ℕ)

/-! ### The manifest -/

/-- `Manifest::open`: the file is created when it does not exist. -/
def manifestOpen (manifest : Option Bytes) (ok : Bool) : Bool × Option Bytes :=
  if ok then (true, some (manifest.getD [])) else (false, manifest)

def loadSstables (manifest : Option Bytes) : List Bytes :=
  (lines (manifest.getD [])).filter fun l => l ≠ []

/-- The line of one table. -/
def manifestLine (path : Bytes) : Bytes := path ++ [newline]

/-- The file `replace_sstables` renames into place. -/
def replaceSstables (paths : List Bytes) : Bytes := paths.flatMap manifestLine

/-! ### The version snapshot -/

/-- **The file `save_to_file_unlocked` writes**: the lines of a table. -/
def saveToFile (entries : Entries) : Bytes := sstableBytes entries

/-- `save_to_file_unlocked`: its answer, and the file that is there afterwards. -/
def saveToFileUnlocked (file : Option Bytes) (entries : Entries) :
    SaveOutcome → Bool × Option Bytes
  | .ok => (true, some (saveToFile entries))
  | .refused => (false, file)
  | .short n => (false, some ((saveToFile entries).take n))
  | .lost n => (true, some ((saveToFile entries).take n))

/-- What the loader has restored so far. -/
structure LoadState where
  map : Std.ExtTreeMap Bytes Bytes
  memtable : MemTable
  seq : ℕ

/-- The text before the first tab and the text behind it. -/
def splitTab (s : Bytes) : Option (Bytes × Bytes) :=
  if tab ∈ s then some (s.takeWhile (· ≠ tab), (s.dropWhile (· ≠ tab)).tail) else none

/-- One line of the snapshot; `none` where the loader returns false. -/
def loadLine (st : LoadState) (line : Bytes) : Option LoadState := do
  let (key, r1) ← splitTab line
  let (timestampText, r2) ← splitTab r1
  let third := splitTab r2
  let type := (third.map (·.1)).getD r2
  let (timestamp, _) ← extractU64 timestampText
  let seq := max st.seq timestamp
  if type = [letterP] then
    let (_, value) ← third
    some ⟨st.map.insert key value, st.memtable.put key timestamp value, seq⟩
  else if type = [letterD] then
    some ⟨st.map.erase key, st.memtable.del key timestamp, seq⟩
  else none

/-- The loop of `load_from_file_unlocked`; a line that cannot be parsed ends it, and what was
loaded before it stays. -/
def loadLines : List Bytes → LoadState → Bool × LoadState
  | [], st => (true, st)
  | line :: ls, st =>
    if line = [] then loadLines ls st
    else
      match loadLine st line with
      | none => (false, st)
      | some st' => loadLines ls st'

/-! ### The flush worker -/

structure FlushTask where
  sstablePath : Bytes
  entries : Entries

/-- Where the worker thread is in its loop. -/
inductive WorkerPc where
  | waiting
  | popped (task : FlushTask)
  | written (task : FlushTask)
  | loaded (task : FlushTask) (existing : List Bytes)
  | appended (task : FlushTask)
  | exited

/-- `completions` holds the paths of the finished tables, oldest first. -/
structure FlushWorker where
  tasks : List FlushTask
  completions : List Bytes
  started : Bool
  stopping : Bool
  pc : WorkerPc

namespace FlushWorker

def new : FlushWorker := ⟨[], [], false, false, .exited⟩

def start (w : FlushWorker) : FlushWorker :=
  if w.started then w else { w with stopping := false, started := true, pc := .waiting }

def enqueue (w : FlushWorker) (task : FlushTask) : Bool × FlushWorker :=
  if !w.started || w.stopping then (false, w) else (true, { w with tasks := w.tasks ++ [task] })

def pollCompletion (w : FlushWorker) : Option (Bytes × FlushWorker) :=
  match w.completions with
  | [] => none
  | c :: cs => some (c, { w with completions := cs })

/-- One step of `FlushWorker::run`; `none` while the thread waits or after it has ended. The
manifest is opened and loaded in one step and appended to in the next. -/
def step (w : FlushWorker) (d : Disk) (io : WriteOutcome) : Option (FlushWorker × Disk) :=
  match w.pc with
  | .waiting =>
    match w.tasks with
    | t :: ts => some ({ w with tasks := ts, pc := .popped t }, d)
    | [] => if w.stopping then some ({ w with pc := .exited }, d) else none
  | .popped t =>
    match io with
    | .ok => some ({ w with pc := .written t },
        { d with tables := d.tables.insert t.sstablePath (sstableBytes t.entries) })
    | .refused => some ({ w with pc := .waiting }, d)
    | .short n => some ({ w with pc := .waiting },
        { d with tables := d.tables.insert t.sstablePath ((sstableBytes t.entries).take n) })
  | .written t =>
    match io with
    | .ok => some ({ w with pc := .loaded t (loadSstables d.manifest) },
        { d with manifest := some (d.manifest.getD []) })
    | _ => some ({ w with pc := .waiting }, d)
  | .loaded t existing =>
    if t.sstablePath ∈ existing then some ({ w with pc := .appended t }, d)
    else
      match io with
      | .ok => some ({ w with pc := .appended t },
          { d with manifest := some (d.manifest.getD [] ++ manifestLine t.sstablePath) })
      | .refused => some ({ w with pc := .waiting }, d)
      | .short n => some ({ w with pc := .waiting },
          { d with manifest := some (d.manifest.getD [] ++ (manifestLine t.sstablePath).take n) })
  | .appended t =>
    some ({ w with completions := w.completions ++ [t.sstablePath], pc := .waiting }, d)
  | .exited => none

/-- `stop` before it joins the thread. -/
def stop (w : FlushWorker) : FlushWorker := if w.started then { w with stopping := true } else w

/-- The thread runs on while it can, at most `n` steps. -/
def runOn : ℕ → FlushWorker → Disk → FlushWorker × Disk
  | 0, w, d => (w, d)
  | n + 1, w, d =>
    match w.step d .ok with
    | none => (w, d)
    | some (w', d') => runOn n w' d'

/-- How many steps are left before the thread waits with an empty queue and ends. -/
def stepsLeft (w : FlushWorker) : ℕ :=
  5 * w.tasks.length +
    match w.pc with
    | .exited => 0
    | .waiting => 1
    | .appended _ => 2
    | .loaded _ _ => 3
    | .written _ => 4
    | .popped _ => 5

end FlushWorker

end VeriStore.Store

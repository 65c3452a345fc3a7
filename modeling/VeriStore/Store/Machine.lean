import VeriStore.Store.Restart
import VeriStore.Store.Manifest

/-!
Several stores on one machine.

A store is opened on the path of its log, and that is the only path it is given: the snapshot, the
manifest and the names of the tables are the same for all stores of a machine. A machine has one
set of these files and a log for each store, and the steps of the stores are interleaved. A store
whose memtable stays below the flush threshold writes its own log only, and so do openings that
find too few tables for a compaction.

* `Process.step_created` — a manifest that is empty counts as one that is not there;
* `stores_independent` — a store does not see others that flush and compact nothing;
* `neighbour_seen` — a store that reads the table of another one.
-/

namespace VeriStore.Store

open VeriStore.Lib VeriStore.Sstable VeriStore.Log

open KVStore (CompactJob CompactIo OpenIo)

/-! ### An empty manifest -/

/-- The files once the manifest has been created. -/
def Disk.created (d : Disk) : Disk := { d with manifest := some (d.manifest.getD []) }

@[simp] lemma Disk.created_tables (d : Disk) : d.created.tables = d.tables := rfl
@[simp] lemma Disk.created_wal (d : Disk) : d.created.wal = d.wal := rfl
@[simp] lemma Disk.created_snapshot (d : Disk) : d.created.snapshot = d.snapshot := rfl

def Process.created (σ : Process) : Process := { σ with disk := σ.disk.created }

@[simp] lemma Process.created_store (σ : Process) : σ.created.store = σ.store := rfl
@[simp] lemma Process.created_disk (σ : Process) : σ.created.disk = σ.disk.created := rfl
@[simp] lemma Process.created_pc (σ : Process) : σ.created.pc = σ.pc := rfl

lemma FlushWorker.step_created (w : FlushWorker) (d : Disk) (io : WriteOutcome) :
    w.step d.created io = (w.step d io).map fun x => (x.1, x.2.created) := by
  unfold FlushWorker.step
  cases w.pc with
  | waiting =>
    cases w.tasks with
    | nil => cases w.stopping <;> rfl
    | cons t ts => rfl
  | popped t => cases io <;> rfl
  | written t => cases io <;> rfl
  | loaded t existing =>
    by_cases h : t.sstablePath ∈ existing
    · simp only [h, if_true]
      rfl
    · simp only [h, if_false]
      cases io <;> rfl
  | appended t => rfl
  | exited => rfl

/-- The result and the files of a part of a compaction, with the manifest created. -/
lemma compactWrite_created (j : CompactJob) (d : Disk) (io : WriteOutcome) :
    KVStore.compactWrite j d.created io =
      ((KVStore.compactWrite j d io).1, (KVStore.compactWrite j d io).2.created) := by
  simp only [KVStore.compactWrite, Disk.created_tables]
  cases compact [d.tables[j.first]?, d.tables[j.second]?] <;> cases io <;> rfl

lemma compactRename_created (j : CompactJob) (d : Disk) (ok : Bool) :
    KVStore.compactRename j d.created ok =
      ((KVStore.compactRename j d ok).1, (KVStore.compactRename j d ok).2.created) := by
  simp only [KVStore.compactRename, Disk.created_tables]
  cases ok <;> cases d.tables[j.tempOutput]? <;> rfl

lemma compactReplace_created (j : CompactJob) (d : Disk) (ok : Bool) :
    KVStore.compactReplace j d.created ok =
      ((KVStore.compactReplace j d ok).1, (KVStore.compactReplace j d ok).2.created) := by
  cases ok <;> rfl

namespace Process

lemma created_mk (s : KVStore) (d : Disk) (pc : Pc) (w : List Row) :
    (⟨s, d, pc, w⟩ : Process).created = ⟨s, d.created, pc, w⟩ := rfl

lemma write_created (σ : Process) (key : Bytes) (value : Option Bytes) :
    σ.created.write key value = (σ.write key value).created := by
  obtain ⟨s, d, pc, w⟩ := σ
  rw [created_mk]
  unfold write
  dsimp only
  by_cases ho : (!s.opened) = true
  · rw [if_pos ho, if_pos ho, created_mk]
  rw [if_neg ho, if_neg ho]
  by_cases hfd : s.wal.fd.isNone = true
  · rw [if_pos hfd, if_pos hfd, created_mk]
  · rw [if_neg hfd, if_neg hfd, created_mk]

lemma rotate_created (σ : Process) : σ.created.rotate = σ.rotate.created := by
  obtain ⟨s, d, pc, w⟩ := σ
  rw [created_mk]
  unfold rotate
  dsimp only
  obtain ⟨b, s'⟩ := s.maybeFlushMemtable
  cases b <;> rfl

lemma commit_created (σ : Process) (io : FlushOutcome) :
    σ.created.commit io = (σ.commit io).created := by
  obtain ⟨s, d, pc, w⟩ := σ
  rw [created_mk]
  unfold commit
  dsimp only
  by_cases h : s.seq % s.groupCommitEvery = 0
  · rw [if_pos h, if_pos h]
    rfl
  · rw [if_neg h, if_neg h, created_mk]

lemma drain_created (σ : Process) (key : Bytes) (t : ℕ) (added : Bool) :
    σ.created.drain key t added = (σ.drain key t added).created := by
  obtain ⟨s, d, pc, w⟩ := σ
  rw [created_mk]
  unfold drain
  dsimp only
  cases s.drainOne <;> rfl

lemma compact_created (σ : Process) (key : Bytes) (t : ℕ) (io : WriteOutcome) :
    σ.created.compact key t io = (σ.compact key t io).created := by
  obtain ⟨s, d, pc, w⟩ := σ
  rw [created_mk]
  unfold compact
  dsimp only
  by_cases hlen : s.sstablePaths.length < kCompactionTrigger
  · rw [if_pos hlen, if_pos hlen, created_mk]
  rw [if_neg hlen, if_neg hlen]
  rcases s.sstablePaths with _ | ⟨first, _ | ⟨second, rest⟩⟩
  · rfl
  · rfl
  dsimp only
  by_cases h : first = second
  · rw [if_pos h, if_pos h]
    cases io <;> rfl
  · rw [if_neg h, if_neg h, compactWrite_created]
    obtain ⟨b, d'⟩ := KVStore.compactWrite (s.compactBegin first second rest).2 d io
    cases b <;> rfl

lemma rename_created (σ : Process) (key : Bytes) (t : ℕ) (j : CompactJob) (ok : Bool) :
    σ.created.rename key t j ok = (σ.rename key t j ok).created := by
  obtain ⟨s, d, pc, w⟩ := σ
  rw [created_mk]
  unfold rename
  rw [compactRename_created]
  dsimp only
  obtain ⟨b, d'⟩ := KVStore.compactRename j d ok
  cases b <;> rfl

lemma replace_created (σ : Process) (key : Bytes) (t : ℕ) (j : CompactJob) (ok : Bool) :
    σ.created.replace key t j ok = (σ.replace key t j ok).created := by
  obtain ⟨s, d, pc, w⟩ := σ
  rw [created_mk]
  unfold replace
  rw [compactReplace_created]
  dsimp only
  obtain ⟨b, d'⟩ := KVStore.compactReplace j d ok
  cases b <;> rfl

lemma save_created (σ : Process) (io : SaveOutcome) :
    σ.created.save io = (σ.save io).created := by
  obtain ⟨s, d, pc, w⟩ := σ
  rw [created_mk]
  unfold save
  dsimp only
  by_cases ho : (!s.opened) = true
  · rw [if_pos ho, if_pos ho, created_mk]
  · rw [if_neg ho, if_neg ho]
    cases io <;> rfl

lemma work_created (σ : Process) (io : WriteOutcome) :
    σ.created.work io = (σ.work io).map created := by
  unfold work
  rw [created_store, created_disk, FlushWorker.step_created, Option.map_map, Option.map_map]
  rfl

lemma step_created (σ : Process) (a : Action) :
    σ.created.step a = (σ.step a).map Process.created := by
  have hdel : ∀ key, σ.created.del key = (σ.del key).created := by
    intro key
    have hget : σ.created.store.get key = σ.store.get key := rfl
    unfold del
    rw [hget, write_created]
    by_cases h : (σ.store.get key).isSome = true
    · rw [if_pos h, if_pos h]
    · rw [if_neg h, if_neg h]
  cases a
  case work io => exact σ.work_created io
  all_goals
    cases hpc : σ.pc <;> simp only [step, created_pc, hpc, Option.map_none, Option.map_some, put,
      hdel, write_created, rotate_created, commit_created, drain_created, compact_created,
      rename_created, replace_created, save_created]
  all_goals rfl

end Process

/-- The result of a call and the files behind it, with the manifest created. -/
def withCreated {α : Type*} (x : α × Disk) : α × Disk := (x.1, x.2.created)

namespace KVStore

variable (s : KVStore) (d : Disk)

lemma maybeCompactSstables_created (io : CompactIo) : s.maybeCompactSstables d.created io =
    ((s.maybeCompactSstables d io).1, withCreated (s.maybeCompactSstables d io).2) := by
  unfold maybeCompactSstables
  by_cases hlen : s.sstablePaths.length < kCompactionTrigger
  · rw [if_pos hlen, if_pos hlen]
    rfl
  rw [if_neg hlen, if_neg hlen]
  rcases s.sstablePaths with _ | ⟨first, _ | ⟨second, rest⟩⟩
  · rfl
  · rfl
  dsimp only
  by_cases h : first = second
  · rw [if_pos h, if_pos h]
    cases hr : io.replace <;> rfl
  · rw [if_neg h, if_neg h, compactWrite_created]
    obtain ⟨b, d₁⟩ := compactWrite (s.compactBegin first second rest).2 d io.compact
    cases b with
    | false => rfl
    | true =>
      dsimp only
      rw [compactRename_created]
      obtain ⟨b, d₂⟩ := compactRename (s.compactBegin first second rest).2 d₁ io.rename
      cases b with
      | false => rfl
      | true =>
        dsimp only
        rw [compactReplace_created]
        obtain ⟨b, d₃⟩ := compactReplace (s.compactBegin first second rest).2 d₂ io.replace
        cases b <;> rfl

lemma drainCompletedFlushes_created (io : CompactIo) :
    s.drainCompletedFlushes d.created io = withCreated (s.drainCompletedFlushes d io) := by
  unfold drainCompletedFlushes
  obtain ⟨s', b⟩ := drainLoop s.flushWorker.completions.length s false
  cases b with
  | false => rfl
  | true => exact congrArg Prod.snd (s'.maybeCompactSstables_created d io)

/-- **A read does not see the manifest.** -/
lemma getAt_created (key : Bytes) (t : ℕ) (io : CompactIo) :
    (s.getAt d.created key t io).1 = (s.getAt d key t io).1 := by
  unfold getAt
  rw [drainCompletedFlushes_created]
  rfl

lemma openTables_created (io : OpenIo) : s.openTables d.created io =
    ((s.openTables d io).1, withCreated (s.openTables d io).2) := by
  unfold openTables
  cases io.manifestOpen with
  | false => rfl
  | true =>
    -- `open` creates the manifest, so that the rest finds the same files
    have hc := maybeCompactSstables_created (s.listTables (some (d.manifest.getD []))) d.created
      io.compaction
    have hsame : ∀ x : Bool × KVStore × Disk, x = (x.1, withCreated x.2) →
        ((true, { x.2.1 with
          flushWorker := x.2.1.flushWorker.start
          nextSstableId := x.2.1.sstablePaths.length }, x.2.2) : Bool × KVStore × Disk) =
        (true, withCreated ({ x.2.1 with
          flushWorker := x.2.1.flushWorker.start
          nextSstableId := x.2.1.sstablePaths.length }, x.2.2)) := by
      rintro ⟨b, s', d'⟩ hx
      have hd : d' = d'.created := congrArg (fun y : Bool × KVStore × Disk => y.2.2) hx
      show (true, _, d') = (true, _, d'.created)
      rw [← hd]
    exact hsame _ hc

lemma open_created (io : OpenIo) : s.open d.created io =
    ((s.open d io).1, withCreated (s.open d io).2) := by
  unfold KVStore.open
  by_cases ho : s.opened = true
  · rw [if_pos ho, if_pos ho]
    rfl
  rw [if_neg ho, if_neg ho]
  simp only [Disk.created_snapshot, Disk.created_wal]
  obtain ⟨b, w, f⟩ := (s.loadFromFile d.snapshot).2.wal.open d.wal io.walOpen
  cases b with
  | false => rfl
  | true =>
    dsimp only
    obtain ⟨b, w', out⟩ := w.replayInto (f.getD []) applyRecord (s.loadFromFile d.snapshot).2
      io.walSeek
    cases b with
    | false => rfl
    | true => exact openTables_created _ { d with wal := f } io

lemma close_created : s.close d.created = (s.close d).created := by
  have hrun : ∀ (n : ℕ) (w : FlushWorker) (d : Disk),
      w.runOn n d.created = withCreated (w.runOn n d) := by
    intro n
    induction n with
    | zero => exact fun w d => rfl
    | succ n ih =>
      intro w d
      unfold FlushWorker.runOn
      rw [FlushWorker.step_created]
      cases w.step d .ok with
      | none => rfl
      | some x => exact ih x.1 x.2
  exact congrArg Prod.snd (hrun _ _ _)

end KVStore

/-! ### Machines -/

/-- The files that all stores of a machine use. -/
structure SharedFiles where
  snapshot : Option Bytes
  manifest : Option Bytes
  tables : Std.ExtTreeMap Bytes Bytes

/-- The files of a store with its log. -/
def SharedFiles.withLog (f : SharedFiles) (wal : Option Bytes) : Disk :=
  ⟨f.snapshot, wal, f.manifest, f.tables⟩

def Disk.shared (d : Disk) : SharedFiles := ⟨d.snapshot, d.manifest, d.tables⟩

/-- The same files, but for a manifest that was created. -/
structure SharedFiles.Same (f f' : SharedFiles) : Prop where
  snapshot : f'.snapshot = f.snapshot
  manifest : f'.manifest.getD [] = f.manifest.getD []
  tables : f'.tables = f.tables

/-- A store of the machine: what its process holds, and its log. A process that does not run holds
a new store. -/
structure Side where
  store : KVStore
  wal : Option Bytes
  pc : Pc
  written : List Row

/-- **A machine** with the stores `ι`, each on a log of its own. -/
structure Machine (ι : Type*) where
  files : SharedFiles
  side : ι → Side

/-- What happens to a store: its process opens it, takes a step, exits or crashes. -/
inductive Event where
  | «open» (io : OpenIo)
  | call (a : Action)
  | exit
  | crash

def Event.apply (e : Event) (σ : Process) : Option Process :=
  match e, σ.pc with
  | .open io, .idle =>
    some { σ with store := (σ.store.open σ.disk io).2.1, disk := (σ.store.open σ.disk io).2.2 }
  | .call a, _ => σ.step a
  | .exit, .idle => some ⟨KVStore.new, σ.store.close σ.disk, .idle, []⟩
  | .crash, _ => some ⟨KVStore.new, σ.disk, .idle, []⟩
  | _, _ => none

/-- The event writes no file but the log: the memtable is below the threshold when it could be
rotated, the store is opened on too few tables for a compaction, and there is no checkpoint. -/
def Event.Spares (σ : Process) : Event → Prop
  | .call .rotate => σ.store.memtable.approximateSizeBytes < kMemTableFlushThresholdBytes
  | .call a => a.ofCheckpoint = false
  | .open _ => (loadSstables σ.disk.manifest).length < kCompactionTrigger
  | .exit | .crash => True

instance (σ : Process) : (e : Event) → Decidable (e.Spares σ)
  | .call a => by
    cases a
    case rotate => exact inferInstanceAs (Decidable (_ < _))
    all_goals exact inferInstanceAs (Decidable (_ = _))
  | .open _ => inferInstanceAs (Decidable (_ < _))
  | .exit | .crash => isTrue trivial

namespace Machine

variable {ι : Type*}

/-- The store `i` and its files. -/
def process (M : Machine ι) (i : ι) : Process :=
  ⟨(M.side i).store, M.files.withLog (M.side i).wal, (M.side i).pc, (M.side i).written⟩

variable [DecidableEq ι]

def update (M : Machine ι) (i : ι) (σ : Process) : Machine ι :=
  ⟨σ.disk.shared, Function.update M.side i ⟨σ.store, σ.disk.wal, σ.pc, σ.written⟩⟩

/-- **One step of a machine.** -/
def step (M : Machine ι) (p : ι × Event) : Option (Machine ι) :=
  (p.2.apply (M.process p.1)).map (M.update p.1)

def run (M : Machine ι) (es : List (ι × Event)) : Option (Machine ι) := es.foldlM step M

/-- The events of the stores other than `i` write no shared file. -/
def Spared (i : ι) : Machine ι → List (ι × Event) → Prop
  | _, [] => True
  | M, p :: es => (p.1 ≠ i → p.2.Spares (M.process p.1)) ∧
      match M.step p with
      | some M' => Spared i M' es
      | none => True

instance (i : ι) : (M : Machine ι) → (es : List (ι × Event)) → Decidable (Spared i M es)
  | _, [] => isTrue trivial
  | M, p :: es =>
    have : Decidable (match M.step p with
        | some M' => Spared i M' es
        | none => True) :=
      match M.step p with
      | some M' => instDecidableSpared i M' es
      | none => isTrue trivial
    inferInstanceAs (Decidable (_ ∧ _))

omit [DecidableEq ι] in
lemma process_eq {M : Machine ι} {i : ι} {s : Side} (h : M.side i = s) :
    M.process i = ⟨s.store, M.files.withLog s.wal, s.pc, s.written⟩ := by
  rw [← h]
  rfl

@[simp] lemma update_process (M : Machine ι) (i : ι) (σ : Process) :
    (M.update i σ).process i = σ := by
  rw [process_eq (s := ⟨σ.store, σ.disk.wal, σ.pc, σ.written⟩) (Function.update_self ..)]
  rfl

lemma update_process_of_ne (M : Machine ι) {i j : ι} (h : j ≠ i) (σ : Process) :
    (M.update i σ).process j = { M.process j with
      disk := σ.disk.shared.withLog (M.side j).wal } := by
  rw [process_eq (s := M.side j) (Function.update_of_ne h ..)]
  rfl

end Machine

/-! ### A store that writes its log only -/

/-- The call writes no table and no manifest. -/
def Pc.Gentle : Pc → Prop
  | .idle | .rotating | .committing | .draining _ _ false | .reading _ _ => True
  | _ => False

/-- **A store that writes its log only**: no flush is outstanding and no compaction in progress. -/
structure Quiet (σ : Process) : Prop where
  idle : σ.store.flushWorker.Idle
  gentle : σ.pc.Gentle

section Quiet

variable {σ σ' : Process}

lemma quiet_new (d : Disk) : Quiet ⟨KVStore.new, d, .idle, []⟩ := ⟨⟨rfl, rfl⟩, trivial⟩

/-- **A step that spares the others.** -/
lemma Quiet.step (h : Quiet σ) {a : Action} (hs : (Event.call a).Spares σ) (he : σ.Effect a σ') :
    Quiet σ' ∧ σ'.disk.shared = σ.disk.shared := by
  have hg := h.gentle
  have hwrite : ∀ key value, Quiet (σ.write key value) ∧
      (σ.write key value).disk.shared = σ.disk.shared := by
    intro key value
    unfold Process.write
    split
    · exact ⟨h, rfl⟩
    · split
      · exact ⟨⟨h.idle, h.gentle⟩, rfl⟩
      · obtain ⟨m, n, w, hl⟩ := σ.store.logged_frame ⟨σ.store.seq + 1, key, value⟩
        rw [hl]
        exact ⟨⟨h.idle, trivial⟩, rfl⟩
  cases he with
  | put key value => exact hwrite _ _
  | del key =>
    unfold Process.del
    split
    · exact hwrite _ _
    · exact ⟨h, rfl⟩
  | rotate =>
    have hs : σ.store.memtable.approximateSizeBytes < kMemTableFlushThresholdBytes := hs
    have hsame : σ.store.maybeFlushMemtable = (true, σ.store) := if_pos hs
    have hrot : σ.rotate = { σ with pc := .committing } := by
      rw [Process.rotate, hsame]
    rw [hrot]
    exact ⟨⟨h.idle, trivial⟩, rfl⟩
  | commit io =>
    obtain ⟨w, f, e⟩ := σ.commit_frame io
    rw [e]
    exact ⟨⟨h.idle, trivial⟩, rfl⟩
  | flushWal io => exact ⟨⟨h.idle, trivial⟩, rfl⟩
  | setGroupCommitEvery n => exact ⟨⟨h.idle, h.gentle⟩, rfl⟩
  | getAt => exact ⟨⟨h.idle, trivial⟩, rfl⟩
  | drain key t added hpc =>
    rw [hpc] at hg
    cases added with
    | true => exact absurd hg id
    | false =>
      have hnone : σ.store.drainOne = none := by
        rw [KVStore.drainOne, FlushWorker.pollCompletion, h.idle.2]
        rfl
      have hdrain : σ.drain key t false = { σ with pc := .reading key t } := by
        rw [Process.drain, hnone]
        rfl
      rw [hdrain]
      exact ⟨⟨h.idle, trivial⟩, rfl⟩
  | compact key t io hpc | rename key t j ok hpc | replace key t j ok hpc | finish key t j hpc =>
    rw [hpc] at hg
    exact absurd hg id
  | read => exact ⟨⟨h.idle, trivial⟩, rfl⟩
  | save | removeWal | reopenWal => exact absurd hs (by simp [Event.Spares, Action.ofCheckpoint])
  | work io _ hw =>
    obtain ⟨w, d, hstep, rfl⟩ := Process.work_frame hw
    obtain ⟨hw', hd⟩ := h.idle.step hstep
    exact ⟨⟨hw', h.gentle⟩, by rw [hd]⟩

lemma FlushWorker.Idle.start {w : FlushWorker} (h : w.Idle) : w.start.Idle := by
  obtain ⟨hheld, hcomp⟩ := h
  unfold FlushWorker.start
  split
  · exact ⟨hheld, hcomp⟩
  · refine ⟨?_, hcomp⟩
    have htasks : w.tasks = [] := (List.append_eq_nil_iff.mp hheld).1
    simp [FlushWorker.held, htasks]

/-- An idle worker ends without touching a file. -/
lemma FlushWorker.Idle.runOn {w : FlushWorker} (h : w.Idle) (n : ℕ) (d : Disk) :
    (w.runOn n d).2 = d := by
  induction n generalizing w d with
  | zero => rfl
  | succ n ih =>
    unfold FlushWorker.runOn
    split
    · rfl
    · next w' d' hs =>
      obtain ⟨hw', rfl⟩ := h.step hs
      exact ih hw' d'

lemma SharedFiles.Same.refl (f : SharedFiles) : f.Same f := ⟨rfl, rfl, rfl⟩

/-- The replay keeps the worker. -/
lemma replayInto_flushWorker (w : Wal) (f : Bytes) (s : KVStore) (ok : Bool) :
    (w.replayInto f KVStore.applyRecord s ok).2.2.store.flushWorker = s.flushWorker := by
  unfold Wal.replayInto
  split
  · rfl
  · dsimp only
    rw [(replayLoop_eq KVStore.applyRecord _ _ _).1]
    obtain ⟨m, t, e⟩ := s.applyRecords_frame (recordsFuel f.length f)
    show (s.applyRecords (recordsFuel f.length f)).flushWorker = _
    rw [e]

/-- **An opening without a compaction** starts the worker and creates the manifest. -/
lemma KVStore.open_few_same (s : KVStore) {d : Disk} (io : OpenIo)
    (h : (loadSstables d.manifest).length < kCompactionTrigger) :
    ((s.open d io).2.1.flushWorker = s.flushWorker ∨
      (s.open d io).2.1.flushWorker = s.flushWorker.start) ∧
    d.shared.Same (s.open d io).2.2.shared := by
  have hload : (s.loadFromFile d.snapshot).2.flushWorker = s.flushWorker := by
    obtain ⟨m, t, n, e⟩ := s.loadFromFile_frame d.snapshot
    rw [e]
  unfold KVStore.open
  split
  · exact ⟨Or.inl rfl, .refl _⟩
  dsimp only
  split
  · exact ⟨Or.inl hload, .refl _⟩
  · next w file _ =>
    have hreplay := replayInto_flushWorker w (file.getD []) (s.loadFromFile d.snapshot).2 io.walSeek
    split
    · next w' out hr =>
      rw [hr] at hreplay
      exact ⟨Or.inl (hreplay.trans hload), .refl _⟩
    · next w' out hr =>
      rw [hr, hload] at hreplay
      unfold openTables
      cases io.manifestOpen with
      | false => exact ⟨Or.inl hreplay, .refl _⟩
      | true =>
        have hlen : (loadSstables (some (d.manifest.getD []))).length < kCompactionTrigger := h
        simp only [manifestOpen, if_true, maybeCompactSstables, if_pos hlen]
        exact ⟨Or.inr (congrArg FlushWorker.start hreplay), ⟨rfl, rfl, rfl⟩⟩

/-- **An event that spares the others** changes no shared file. -/
lemma Quiet.apply (h : Quiet σ) {e : Event} (hs : e.Spares σ) (he : e.apply σ = some σ') :
    Quiet σ' ∧ σ.disk.shared.Same σ'.disk.shared := by
  unfold Event.apply at he
  split at he
  · next io hpc =>
    obtain rfl := Option.some.inj he
    obtain ⟨hw, hsame⟩ := σ.store.open_few_same io hs
    refine ⟨⟨?_, by rw [hpc]; trivial⟩, hsame⟩
    rcases hw with hw | hw
    · rw [hw]
      exact h.idle
    · rw [hw]
      exact h.idle.start
  · obtain ⟨hq, hd⟩ := h.step hs (Process.step_effect he)
    exact ⟨hq, hd ▸ .refl _⟩
  · obtain rfl := Option.some.inj he
    have hstop : σ.store.flushWorker.stop.Idle := by
      unfold FlushWorker.stop
      split
      · exact ⟨h.idle.1, h.idle.2⟩
      · exact h.idle
    have hclose : σ.store.close σ.disk = σ.disk := hstop.runOn _ _
    rw [hclose]
    exact ⟨quiet_new _, .refl _⟩
  · obtain rfl := Option.some.inj he
    exact ⟨quiet_new _, .refl _⟩
  · cases he

end Quiet

/-! ### Independence -/

/-- **An event does not see whether the manifest exists.** -/
lemma Event.apply_created (e : Event) (σ : Process) :
    e.apply σ.created = (e.apply σ).map Process.created := by
  unfold Event.apply
  rw [Process.created_pc]
  cases e with
  | call a => cases σ.pc <;> exact σ.step_created a
  | crash => cases σ.pc <;> rfl
  | «open» io =>
    cases σ.pc with
    | idle =>
      show some _ = some _
      rw [Process.created_store, Process.created_disk, KVStore.open_created]
      rfl
    | rotating | committing | draining | compacting | merged | renamed | replaced | reading | saved
    | removed => rfl
  | exit =>
    cases σ.pc with
    | idle =>
      show some _ = some _
      rw [Process.created_store, Process.created_disk, KVStore.close_created]
      rfl
    | rotating | committing | draining | compacting | merged | renamed | replaced | reading | saved
    | removed => rfl

namespace Machine

variable {ι : Type*} [DecidableEq ι] {i : ι} {M M' N : Machine ι}

/-- **Two machines that look the same to the store `i`**, the first one among quiet stores. -/
structure Alike (i : ι) (M N : Machine ι) : Prop where
  view : (M.process i).created = (N.process i).created
  quiet : ∀ j ≠ i, Quiet (M.process j)

lemma SharedFiles.Same.created {f f' : SharedFiles} (h : f.Same f') (w : Option Bytes) :
    (f'.withLog w).created = (f.withLog w).created := by
  obtain ⟨h1, h2, h3⟩ := h
  unfold Disk.created SharedFiles.withLog
  rw [h1, h2, h3]

/-- A step of the store itself. -/
lemma Alike.own (h : Alike i M N) {e : Event} (hs : M.step (i, e) = some M') :
    ∃ N', N.step (i, e) = some N' ∧ Alike i M' N' := by
  obtain ⟨σ, hσ, rfl⟩ := Option.map_eq_some_iff.mp hs
  -- the same event on the other machine, up to the manifest
  have hview : (e.apply (N.process i)).map Process.created = some σ.created := by
    have hM := e.apply_created (M.process i)
    have hσ : e.apply (M.process i) = some σ := hσ
    rw [h.view, e.apply_created, hσ] at hM
    exact hM
  obtain ⟨τ, hτ, hcreated⟩ := Option.map_eq_some_iff.mp hview
  refine ⟨N.update i τ, by simp only [step, hτ, Option.map_some], ?_, fun j hj => ?_⟩
  · rw [update_process, update_process, hcreated]
  · rw [update_process_of_ne _ hj]
    exact ⟨(h.quiet j hj).idle, (h.quiet j hj).gentle⟩

/-- A step of another store that spares this one. -/
lemma Alike.other (h : Alike i M N) {j : ι} (hj : j ≠ i) {e : Event}
    (hsp : e.Spares (M.process j)) (hs : M.step (j, e) = some M') : Alike i M' N := by
  obtain ⟨σ, hσ, rfl⟩ := Option.map_eq_some_iff.mp hs
  have hσ : e.apply (M.process j) = some σ := hσ
  obtain ⟨hq, hsame⟩ := (h.quiet j hj).apply hsp hσ
  refine ⟨?_, fun k hk => ?_⟩
  · have hfiles : (σ.disk.shared.withLog (M.side i).wal).created =
        (M.files.withLog (M.side i).wal).created := SharedFiles.Same.created hsame _
    rw [update_process_of_ne _ hj.symm, ← h.view]
    unfold Process.created
    rw [hfiles]
    rfl
  · by_cases hkj : k = j
    · subst hkj
      rwa [update_process]
    · rw [update_process_of_ne _ hkj]
      exact ⟨(h.quiet k hk).idle, (h.quiet k hk).gentle⟩

lemma run_cons (M : Machine ι) (p : ι × Event) (es : List (ι × Event)) :
    M.run (p :: es) = (M.step p).bind fun M' => M'.run es := rfl

/-- **The run of a store among others that spare it** is a run of the store alone. -/
lemma Alike.run {es : List (ι × Event)} (h : Alike i M N) (hsp : Spared i M es)
    (hrun : M.run es = some M') :
    ∃ N', N.run (es.filter fun p => p.1 = i) = some N' ∧ Alike i M' N' := by
  induction es generalizing M N with
  | nil => exact ⟨N, rfl, Option.some.inj hrun ▸ h⟩
  | cons p es ih =>
    rw [run_cons] at hrun
    obtain ⟨M₁, hs, hrest⟩ := Option.bind_eq_some_iff.mp hrun
    obtain ⟨hfirst, hsp⟩ := hsp
    rw [hs] at hsp
    obtain ⟨j, e⟩ := p
    by_cases hj : j = i
    · subst hj
      obtain ⟨N₁, hN, h₁⟩ := h.own hs
      obtain ⟨N', hN', h'⟩ := ih h₁ hsp hrest
      refine ⟨N', ?_, h'⟩
      rw [List.filter_cons_of_pos (by simp), run_cons, hN]
      exact hN'
    · obtain ⟨N', hN', h'⟩ := ih (h.other hj (hfirst hj) hs) hsp hrest
      refine ⟨N', ?_, h'⟩
      rw [List.filter_cons_of_neg (by simpa using hj)]
      exact hN'

end Machine

/-- **Stores on one machine are independent** as long as the others write their own logs only: in
every run of a machine in which the others, not open in the beginning, flush and compact nothing,
the store `i` goes through the same states as in the run that leaves out the events of all others,
and `get` and `get_at` give the same. -/
theorem stores_independent {ι : Type*} [DecidableEq ι] (i : ι) {M M' : Machine ι}
    (hnew : ∀ j ≠ i, (M.side j).store = KVStore.new ∧ (M.side j).pc = .idle)
    {es : List (ι × Event)} (hrun : M.run es = some M') (hs : Machine.Spared i M es) :
    ∃ N, M.run (es.filter fun p => p.1 = i) = some N ∧
      (∀ key, (N.process i).store.get key = (M'.process i).store.get key) ∧
      ∀ key t io, ((N.process i).store.getAt (N.process i).disk key t io).1 =
        ((M'.process i).store.getAt (M'.process i).disk key t io).1 := by
  have hquiet : ∀ j ≠ i, Quiet (M.process j) := by
    intro j hj
    obtain ⟨h1, h2⟩ := hnew j hj
    refine ⟨?_, ?_⟩
    · show (M.side j).store.flushWorker.Idle
      rw [h1]
      exact ⟨rfl, rfl⟩
    · show (M.side j).pc.Gentle
      rw [h2]
      trivial
  obtain ⟨N, hN, halike⟩ := Machine.Alike.run ⟨rfl, hquiet⟩ hs hrun
  have hstore : (N.process i).store = (M'.process i).store :=
    (congrArg Process.store halike.view).symm
  have hdisk : (N.process i).disk.created = (M'.process i).disk.created :=
    (congrArg Process.disk halike.view).symm
  refine ⟨N, hN, fun key => by rw [hstore], fun key t io => ?_⟩
  rw [← KVStore.getAt_created, hdisk, hstore, KVStore.getAt_created]

/-! ### Two stores -/

namespace Machine

/-- A machine without files, on which no store runs. -/
def bare : Machine Bool where
  files := ⟨none, none, ∅⟩
  side := fun _ => ⟨KVStore.new, none, .idle, []⟩

variable {ι : Type*} [DecidableEq ι] {i : ι} {M : Machine ι}

lemma update_self : M.update i (M.process i) = M :=
  congrArg (Machine.mk M.files) (Function.update_eq_self i M.side)

lemma update_update (σ τ : Process) : (M.update i σ).update i τ = M.update i τ :=
  congrArg (Machine.mk τ.disk.shared) (Function.update_idem ..)

/-- The steps of one store. -/
lemma run_calls {as : List Action} {σ : Process} (h : (M.process i).run as = some σ) :
    M.run (as.map fun a => (i, .call a)) = some (M.update i σ) := by
  induction as generalizing M with
  | nil =>
    obtain rfl := Option.some.inj h
    exact congrArg some update_self.symm
  | cons a as ih =>
    have hsplit : (M.process i).run ([a] ++ as) = some σ := h
    obtain ⟨σ₁, h₁, hrest⟩ := Process.run_append hsplit
    have hstep : (M.process i).step a = some σ₁ := by simpa [Process.run] using h₁
    rw [List.map_cons, run_cons]
    have hs : M.step (i, .call a) = some (M.update i σ₁) := by
      simp only [step, Event.apply, hstep, Option.map_some]
    rw [hs, Option.bind_some, ih (M := M.update i σ₁) (by rwa [update_process]), update_update]

lemma run_append (M : Machine ι) (es es' : List (ι × Event)) :
    M.run (es ++ es') = (M.run es).bind fun M' => M'.run es' := by
  unfold run
  rw [List.foldlM_append]
  rfl

end Machine

/-- A store is opened and flushes a value, and then another one is opened. -/
def neighbourEvents (v : Bytes) : List (Bool × Event) :=
  (false, .open .ok) :: ((flushCycle v).map fun a => (false, .call a)) ++ [(true, .open .ok)]

/-- What the second store reads in the table of the first one. -/
lemma start_flushed {v : Bytes} (hv : Clean v) :
    ((Process.start ⟨none, none, some (replaceSstables [flushPath 0]),
      (∅ : Std.ExtTreeMap Bytes Bytes).insert (flushPath 0) (sstableBytes (oneEntry 1 v))⟩).store.getAt
      (Process.start ⟨none, none, some (replaceSstables [flushPath 0]),
        (∅ : Std.ExtTreeMap Bytes Bytes).insert (flushPath 0)
          (sstableBytes (oneEntry 1 v))⟩).disk (text "a") 1 .ok).1 = some v := by
  set d : Disk := ⟨none, none, some (replaceSstables [flushPath 0]),
    (∅ : Std.ExtTreeMap Bytes Bytes).insert (flushPath 0) (sstableBytes (oneEntry 1 v))⟩
  have hload : loadSstables d.manifest = [flushPath 0] :=
    loadSstables_replaceSstables (by simpa using flushPath_line 0)
  have hversions : ∀ key, versionsOf (oneEntry 1 v) key =
      if text "a" = key then [⟨1, some v⟩] else [] := by
    intro key
    rw [oneEntry, versionsOf_pushVersion, versionsOf_empty, versionsOf_empty, List.nil_append]
  have hlive : LiveTables (loadSstables d.manifest) d [oneEntry 1 v] := by
    rw [hload]
    refine ⟨.cons (Std.ExtTreeMap.getElem?_insert_self ..) .nil, ?_, by simp, by simp⟩
    simpa using rowOk_oneEntry (by decide) hv
  have htemp : NoTemporary (loadSstables d.manifest) := by
    intro id hm
    rw [hload, List.mem_singleton] at hm
    exact TablePath.ne_temp (n := 1) ⟨0, by decide, Or.inl rfl⟩ hm.symm
  have hsingle : SingleTimestamps [oneEntry 1 v] := by
    intro e he key
    obtain rfl := List.mem_singleton.mp (List.mem_of_mem_take he)
    rw [hversions]
    split
    · simp [Consistent]
    · simp [Consistent]
  rw [start_getAt hlive htemp hsingle (start_contents (contents_of_no_snapshot rfl))]
  have hnewest : newestVisible Version.timestamp [(⟨1, some v⟩ : Version)] 1 = some ⟨1, some v⟩ := by
    simp [newestVisible, better]
  simp [d, versionsIn, newestResult, hversions, hnewest, Version.result, KVStore.firstHit]

lemma neighbour_reads {v : Bytes} (hv : kMemTableFlushThresholdBytes ≤ v.length) (hc : Clean v) :
    ∃ M N, Machine.bare.run (neighbourEvents v) = some M ∧
      Machine.bare.run ((neighbourEvents v).filter fun p => p.1 = true) = some N ∧
      ((M.process true).store.getAt (M.process true).disk (text "a") 1 .ok).1 = some v ∧
      ((N.process true).store.getAt (N.process true).disk (text "a") 1 .ok).1 = none := by
  have hcycle := flushCycle_run ∅ [] 0 0 [] ∅ [] hv (by decide) (by simp) (by simp)
  set σ₀ := restProcess .idle ∅ [] 0 0 [] ∅ [] with hσ₀
  set σ₁ := restProcess (.compacting (text "a") 0) ((∅ : Std.ExtTreeMap Bytes Bytes).insert (text "a") v)
    ([] ++ [flushPath 0]) (0 + 1) (0 + 1) ([] ++ [recordBytes ⟨0 + 1, text "a", some v⟩])
    ((∅ : Std.ExtTreeMap Bytes Bytes).insert (flushPath 0) (sstableBytes (oneEntry (0 + 1) v)))
    ([] ++ [(text "a", ⟨0 + 1, some v⟩)]) with hσ₁
  set d : Disk := ⟨none, none, some (replaceSstables [flushPath 0]),
    (∅ : Std.ExtTreeMap Bytes Bytes).insert (flushPath 0) (sstableBytes (oneEntry 1 v))⟩ with hd
  set M₁ := Machine.bare.update false σ₀ with hM₁
  have hfirst : Machine.bare.step (false, .open .ok) = some M₁ := rfl
  have hcalls : M₁.run ((flushCycle v).map fun a => (false, .call a)) = some (M₁.update false σ₁) :=
    Machine.run_calls (by rw [hM₁, Machine.update_process]; exact hcycle)
  set M₂ := M₁.update false σ₁
  have hproc : M₂.process true = ⟨KVStore.new, d, .idle, []⟩ := by
    rw [Machine.update_process_of_ne _ (by decide), hM₁,
      Machine.update_process_of_ne _ (by decide)]
    rfl
  have hlast : M₂.step (true, .open .ok) = some (M₂.update true (Process.start d)) := by
    simp only [Machine.step, hproc]
    rfl
  refine ⟨M₂.update true (Process.start d), Machine.bare.update true (Process.start Disk.empty),
    ?_, ?_, ?_, ?_⟩
  · rw [neighbourEvents, Machine.run_append, Machine.run_cons, hfirst, Option.bind_some, hcalls,
      Option.bind_some, Machine.run_cons, hlast]
    rfl
  · have hfilter : (neighbourEvents v).filter (fun p => p.1 = true) = [(true, .open .ok)] := by
      simp [neighbourEvents, flushCycle]
    rw [hfilter]
    rfl
  · rw [Machine.update_process]
    exact start_flushed hc
  · rw [Machine.update_process]
    rfl

/-- **A store that reads the table of another one**, and has never been written to itself. -/
theorem neighbour_seen : ∃ M N, Machine.bare.run (neighbourEvents largeValue) = some M ∧
    Machine.bare.run ((neighbourEvents largeValue).filter fun p => p.1 = true) = some N ∧
    ((M.process true).store.getAt (M.process true).disk (text "a") 1 .ok).1 = some largeValue ∧
    ((N.process true).store.getAt (N.process true).disk (text "a") 1 .ok).1 = none :=
  neighbour_reads (by simp [largeValue]) clean_largeValue

/-- Two stores that write a little, in turns; the second one is closed and opened again. -/
def smallEvents : List (Bool × Event) :=
  [(false, .open .ok), (true, .open .ok), (false, .call (.put (text "a") (text "1"))),
    (true, .call (.put (text "a") (text "2"))), (false, .call .rotate), (true, .call .rotate),
    (false, .call (.commit .ok)), (true, .call (.commit .ok)), (true, .call (.flushWal .ok)),
    (true, .exit), (false, .call (.flushWal .ok)), (true, .open .ok)]

/-- The second store has its own value only. -/
theorem stores_independent_small : ∃ M N, Machine.bare.run smallEvents = some M ∧
    Machine.bare.run (smallEvents.filter fun p => p.1 = true) = some N ∧
    ((N.process true).store.getAt (N.process true).disk (text "a") 1 .ok).1 =
      ((M.process true).store.getAt (M.process true).disk (text "a") 1 .ok).1 ∧
    ((M.process true).store.getAt (M.process true).disk (text "a") 1 .ok).1 = some (text "2") := by
  have h : (Machine.bare.run smallEvents).map (fun M =>
      ((M.process true).store.getAt (M.process true).disk (text "a") 1 .ok).1) =
      some (some (text "2")) := by
    decide +kernel
  obtain ⟨M, hrun, hM⟩ := Option.map_eq_some_iff.mp h
  obtain ⟨N, hN, -, hget⟩ := stores_independent true (fun j _ => ⟨rfl, rfl⟩) hrun
    (by decide +kernel)
  exact ⟨M, N, hrun, hN, hget _ _ _, hM⟩

end VeriStore.Store

import VeriStore.Store.KVStore

/-!
What the operations of the store change and what they leave alone.

One lemma for each operation, so that the results about histories never unfold it: the rotation
and the compaction keep the latest-value map, the counter and the log; a write appends one record
to the log, buffered or flushed with everything before it; `open` rebuilds the map and the
memtable from the snapshot and the records of the log.
-/

namespace VeriStore.Store

open VeriStore.Lib VeriStore.Sstable VeriStore.Log

namespace KVStore

/-! ### Frames -/

/-- A rotation changes the memtable, its immutable copy, the table counter and the worker. -/
lemma maybeFlushMemtable_frame (s : KVStore) : ∃ m i n w, (s.maybeFlushMemtable).2 =
    { s with memtable := m, immutable := i, nextSstableId := n, flushWorker := w } := by
  unfold maybeFlushMemtable
  split
  · exact ⟨_, _, _, _, rfl⟩
  · split
    · exact ⟨_, _, _, _, rfl⟩
    · simp only
      split
      · exact ⟨_, _, _, _, rfl⟩
      · exact ⟨_, _, _, _, rfl⟩

/-- Below the threshold nothing is rotated. -/
lemma maybeFlushMemtable_below {s : KVStore}
    (h : s.memtable.approximateSizeBytes < kMemTableFlushThresholdBytes) :
    s.maybeFlushMemtable = (true, s) := by
  simp [maybeFlushMemtable, h]

/-- The memtable is rotated: it has reached the threshold, nothing is outstanding, and it is not
empty. -/
def Rotates (s : KVStore) : Prop :=
  kMemTableFlushThresholdBytes ≤ s.memtable.approximateSizeBytes ∧ s.immutable = none ∧
    s.memtable.entries ≠ ∅

/-- The task of a rotation. -/
def flushTask (s : KVStore) : FlushTask := ⟨flushPath s.nextSstableId, s.memtable.entries⟩

/-- The store behind a rotation. -/
def rotated (s : KVStore) : KVStore :=
  { s with
    memtable := MemTable.empty
    immutable := some ∅
    nextSstableId := s.nextSstableId + 1
    flushWorker := (s.flushWorker.enqueue s.flushTask).2 }

/-- **The rotation**: nothing to do or not possible, an empty memtable, or a task for the
worker. -/
lemma maybeFlushMemtable_cases (s : KVStore) :
    (∃ ok, s.maybeFlushMemtable = (ok, s)) ∨
    (s.memtable.entries = ∅ ∧ s.maybeFlushMemtable = (true, { s with memtable := MemTable.empty })) ∨
    (s.Rotates ∧ s.maybeFlushMemtable = ((s.flushWorker.enqueue s.flushTask).1, s.rotated)) := by
  unfold maybeFlushMemtable
  by_cases h1 : s.memtable.approximateSizeBytes < kMemTableFlushThresholdBytes
  · exact Or.inl ⟨true, if_pos h1⟩
  rw [if_neg h1]
  by_cases h2 : s.immutable.isSome = true
  · exact Or.inl ⟨false, if_pos h2⟩
  rw [if_neg h2]
  right
  have himm : s.immutable = none := by simpa using h2
  by_cases h3 : s.memtable.entries.isEmpty = true
  · left
    exact ⟨Std.ExtTreeMap.isEmpty_iff.mp h3, by simp only [MemTable.takeEntries, h3, if_true]⟩
  · right
    have hne : s.memtable.entries ≠ ∅ := fun h => h3 (Std.ExtTreeMap.isEmpty_iff.mpr h)
    exact ⟨⟨not_lt.mp h1, himm, hne⟩, by simp only [MemTable.takeEntries, h3]; rfl⟩

lemma compactWrite_frame {j : CompactJob} {d d' : Disk} {io : WriteOutcome} {b : Bool}
    (h : compactWrite j d io = (b, d')) : ∃ t, d' = { d with tables := t } := by
  unfold compactWrite at h
  split at h <;> exact ⟨_, (Prod.mk.inj h).2.symm⟩

lemma compactRename_frame {j : CompactJob} {d d' : Disk} {ok b : Bool}
    (h : compactRename j d ok = (b, d')) : ∃ t, d' = { d with tables := t } := by
  unfold compactRename at h
  split at h <;> exact ⟨_, (Prod.mk.inj h).2.symm⟩

lemma compactReplace_frame {j : CompactJob} {d d' : Disk} {ok b : Bool}
    (h : compactReplace j d ok = (b, d')) : ∃ m t, d' = { d with manifest := m, tables := t } := by
  unfold compactReplace at h
  split at h <;> exact ⟨_, _, (Prod.mk.inj h).2.symm⟩

/-- A list that is long enough to be compacted has two tables to merge. -/
lemma exists_inputs {paths : List Bytes} (h : ¬ paths.length < kCompactionTrigger) :
    ∃ first second rest, paths = first :: second :: rest := by
  cases paths with
  | nil => simp [kCompactionTrigger] at h
  | cons first paths =>
    cases paths with
    | nil => simp [kCompactionTrigger] at h
    | cons second rest => exact ⟨first, second, rest, rfl⟩

/-- The compaction of two different tables. -/
lemma maybeCompactSstables_of_ne {s : KVStore} {first second : Bytes} {rest : List Bytes}
    (hlen : ¬ s.sstablePaths.length < kCompactionTrigger)
    (hs : s.sstablePaths = first :: second :: rest) (hne : first ≠ second) (d : Disk)
    (io : CompactIo) : s.maybeCompactSstables d io =
      let (s, j) := s.compactBegin first second rest
      match compactWrite j d io.compact with
      | (false, d) => (false, s, d)
      | (true, d) =>
        match compactRename j d io.rename with
        | (false, d) => (false, s, d)
        | (true, d) =>
          match compactReplace j d io.replace with
          | (false, d) => (false, s, d)
          | (true, d) => (true, compactFinish j s d) := by
  rw [maybeCompactSstables, if_neg hlen, hs]
  exact if_neg hne

/-- A compaction changes the paths and the table counter, the manifest and the tables. -/
lemma maybeCompactSstables_frame (s : KVStore) (d : Disk) (io : CompactIo) :
    ∃ paths n m t, (s.maybeCompactSstables d io).2 =
      ({ s with sstablePaths := paths, nextSstableId := n }, { d with manifest := m, tables := t }) := by
  unfold maybeCompactSstables
  split
  · exact ⟨_, _, _, _, rfl⟩
  · split
    · split
      · split
        · exact ⟨_, _, _, _, rfl⟩
        · exact ⟨_, _, _, _, rfl⟩
      · simp only [compactBegin]
        split
        · next d1 h1 =>
          obtain ⟨t1, rfl⟩ := compactWrite_frame h1
          exact ⟨_, _, _, _, rfl⟩
        · next d1 h1 =>
          obtain ⟨t1, rfl⟩ := compactWrite_frame h1
          split
          · next d2 h2 =>
            obtain ⟨t2, rfl⟩ := compactRename_frame h2
            exact ⟨_, _, _, _, rfl⟩
          · next d2 h2 =>
            obtain ⟨t2, rfl⟩ := compactRename_frame h2
            split
            · next d3 h3 =>
              obtain ⟨m3, t3, rfl⟩ := compactReplace_frame h3
              exact ⟨_, _, _, _, rfl⟩
            · next d3 h3 =>
              obtain ⟨m3, t3, rfl⟩ := compactReplace_frame h3
              exact ⟨_, _, _, _, rfl⟩
    · exact ⟨_, _, _, _, rfl⟩

/-- `open` behind the replay changes what belongs to the tables only. -/
lemma openTables_frame (s : KVStore) (d : Disk) (io : OpenIo) : ∃ b paths n w m t,
    s.openTables d io = (b, { s with sstablePaths := paths, nextSstableId := n, flushWorker := w },
      { d with manifest := m, tables := t }) := by
  unfold openTables
  split
  · exact ⟨_, _, _, _, _, _, rfl⟩
  · next m _ =>
    obtain ⟨paths, n, m', t, h⟩ := maybeCompactSstables_frame
      { s with
        sstablePaths := loadSstables m
        nextSstableId := (loadSstables m).foldl (fun n p => max n (extractSstableId p + 1)) 0 }
      { d with manifest := m } io.compaction
    simp only [h]
    exact ⟨_, _, _, _, _, _, rfl⟩

/-- The worker is started when the manifest can be opened. -/
lemma openTables_flushWorker (s : KVStore) (d : Disk) (io : OpenIo) :
    (s.openTables d io).2.1.flushWorker =
      if io.manifestOpen then s.flushWorker.start else s.flushWorker := by
  unfold openTables
  cases hm : io.manifestOpen with
  | false => simp [Store.manifestOpen]
  | true =>
    simp only [Store.manifestOpen, if_true]
    obtain ⟨paths, n, m', t, h⟩ := maybeCompactSstables_frame
      { s with
        sstablePaths := loadSstables (some (d.manifest.getD []))
        nextSstableId := (loadSstables (some (d.manifest.getD []))).foldl
          (fun n p => max n (extractSstableId p + 1)) 0 }
      { d with manifest := some (d.manifest.getD []) } io.compaction
    simp only [h]

/-- The store with the tables that the manifest lists. -/
def listTables (s : KVStore) (m : Option Bytes) : KVStore :=
  { s with
    sstablePaths := loadSstables m
    nextSstableId := (loadSstables m).foldl (fun n p => max n (extractSstableId p + 1)) 0 }

/-- **The tables at `open`**: those of the manifest, after a compaction; the counter is the number
of tables that are left. -/
lemma openTables_true (s : KVStore) (d : Disk) {io : OpenIo} (h : io.manifestOpen = true) :
    ∃ s' d', ((s.listTables d.manifest).maybeCompactSstables
        { d with manifest := some (d.manifest.getD []) } io.compaction).2 = (s', d') ∧
      s.openTables d io = (true, { s' with
        flushWorker := s'.flushWorker.start
        nextSstableId := s'.sstablePaths.length }, d') := by
  refine ⟨_, _, rfl, ?_⟩
  simp only [openTables, Store.manifestOpen, h, if_true]
  rfl

/-- With few tables there is no compaction at startup. -/
lemma openTables_few (s : KVStore) {d : Disk}
    (h : (loadSstables d.manifest).length < kCompactionTrigger) : s.openTables d .ok =
      (true, { s with
        sstablePaths := loadSstables d.manifest
        nextSstableId := (loadSstables d.manifest).length
        flushWorker := s.flushWorker.start }, { d with manifest := some (d.manifest.getD []) }) := by
  have hload : loadSstables (some (d.manifest.getD [])) = loadSstables d.manifest := rfl
  simp only [openTables, OpenIo.ok, Store.manifestOpen, if_true, hload, maybeCompactSstables, h]

lemma openTables_fst (s : KVStore) (d : Disk) {io : OpenIo} (h : io.manifestOpen = true) :
    (s.openTables d io).1 = true := by
  simp [openTables, Store.manifestOpen, h]

/-! ### The log -/

/-- The log of an open store: the descriptor is at the end of the file, and `pending` is what
the next flush writes. -/
structure LogAt (s : KVStore) (d : Disk) (file : Bytes) (pending : List Bytes) : Prop where
  fd : s.wal.fd = some file.length
  disk : d.wal = some file
  buffer : s.wal.buffer = pending

section Log

variable {s : KVStore} {d : Disk} {file : Bytes} {pending : List Bytes}

lemma LogAt.flushWal (h : LogAt s d file pending) : s.flushWal d .ok =
    (true, { s with wal := { s.wal with
      fd := some (file ++ pending.flatten).length
      buffer := [] } }, { d with wal := some (file ++ pending.flatten) }) := by
  unfold KVStore.flushWal
  rw [h.disk, Option.getD_some, Wal.flush_ok h.fd, h.buffer]
  rfl

lemma LogAt.flushed (h : LogAt s d file pending) :
    LogAt (s.flushWal d .ok).2.1 (s.flushWal d .ok).2.2 (file ++ pending.flatten) [] := by
  rw [h.flushWal]
  exact ⟨rfl, rfl, rfl⟩

/-- **The end of a write**: the log is left as it is or flushed. -/
lemma LogAt.finishWrite (h : LogAt s d file pending) :
    LogAt (s.finishWrite d .ok).2.1 (s.finishWrite d .ok).2.2 file pending ∨
      LogAt (s.finishWrite d .ok).2.1 (s.finishWrite d .ok).2.2 (file ++ pending.flatten) [] := by
  obtain ⟨m, i, n, w, hf⟩ := s.maybeFlushMemtable_frame
  have hlog : LogAt (s.maybeFlushMemtable).2 d file pending := by
    rw [hf]
    exact ⟨h.fd, h.disk, h.buffer⟩
  unfold KVStore.finishWrite
  split
  · next s' e => rw [e] at hlog; exact Or.inl hlog
  · next s' e =>
    rw [e] at hlog
    split
    · exact Or.inr hlog.flushed
    · exact Or.inl hlog

end Log

/-- The end of a write changes neither the map, the counter nor the other files. -/
lemma finishWrite_frame (s : KVStore) (d : Disk) (io : FlushOutcome) :
    ∃ m i n w l f, (s.finishWrite d io).2 =
      ({ s with memtable := m, immutable := i, nextSstableId := n, flushWorker := w, wal := l },
        { d with wal := f }) := by
  obtain ⟨m, i, n, w, hf⟩ := s.maybeFlushMemtable_frame
  unfold finishWrite
  split
  · next s' e =>
    rw [e] at hf
    exact ⟨m, i, n, w, _, _, by rw [show s' = _ from hf]⟩
  · next s' e =>
    rw [e] at hf
    subst hf
    split
    · exact ⟨m, i, n, w, _, _, rfl⟩
    · exact ⟨m, i, n, w, _, _, rfl⟩

lemma finishWrite_isSome (s : KVStore) (d : Disk) (io : FlushOutcome) :
    (s.finishWrite d io).2.1.wal.fd.isSome = s.wal.fd.isSome := by
  obtain ⟨m, i, n, w, hf⟩ := s.maybeFlushMemtable_frame
  have hwal : s.maybeFlushMemtable.2.wal = s.wal := by rw [hf]
  unfold finishWrite
  split
  · next s' e =>
    rw [e] at hwal
    rw [← hwal]
  · next s' e =>
    rw [e] at hwal
    rw [← hwal]
    split
    · exact Wal.flush_isSome _ _ _
    · rfl

/-! ### Writes -/

/-- The store with a record logged and applied, before the end of the write. -/
def logged (s : KVStore) (r : Record) : KVStore :=
  { s.applyRecord r with
    seq := r.seq
    wal := { s.wal with buffer := s.wal.buffer ++ [recordBytes r] } }

lemma put_eq {s : KVStore} {d : Disk} {io : FlushOutcome} (ho : s.opened = true)
    (hfd : s.wal.fd.isSome) (k v : Bytes) :
    s.put d k v io = ((s.logged ⟨s.seq + 1, k, some v⟩).finishWrite d io).2 := by
  have hn : s.wal.fd.isNone = false := by simpa using hfd
  simp [put, ho, Wal.appendPut, Wal.writeRecord, hn, logged, applyRecord]

lemma del_eq {s : KVStore} {d : Disk} {io : FlushOutcome} (ho : s.opened = true)
    (hfd : s.wal.fd.isSome) {k : Bytes} (hk : (s.get k).isSome) :
    s.del d k io = (s.logged ⟨s.seq + 1, k, none⟩).finishWrite d io := by
  have hn : s.wal.fd.isNone = false := by simpa using hfd
  have hk' : s.map[k]?.isNone = false := by simpa [get] using hk
  simp [del, ho, Wal.appendDel, Wal.writeRecord, hn, hk', logged, applyRecord]

/-- The store is open and has a log. -/
def Writable (s : KVStore) : Prop := s.opened = true ∧ s.wal.fd.isSome = true

/-- A put into a store that cannot be written only counts. -/
lemma put_unwritable {s : KVStore} (h : ¬ s.Writable) (d : Disk) (k v : Bytes) (io : FlushOutcome) :
    ∃ n, s.put d k v io = ({ s with seq := n }, d) := by
  unfold put Wal.appendPut Wal.writeRecord
  by_cases ho : s.opened = true
  · have hfd : s.wal.fd = none := by simpa [Writable, ho] using h
    exact ⟨s.seq + 1, by simp [hfd, ho]⟩
  · exact ⟨s.seq, if_pos (by simp [ho])⟩

lemma del_unwritable {s : KVStore} (h : ¬ s.Writable) (d : Disk) (k : Bytes) (io : FlushOutcome) :
    ∃ n, s.del d k io = (false, { s with seq := n }, d) := by
  unfold del Wal.appendDel Wal.writeRecord
  by_cases ho : s.opened = true
  · have hfd : s.wal.fd = none := by simpa [Writable, ho] using h
    rw [if_neg (by simp [ho])]
    split
    · exact ⟨s.seq, rfl⟩
    · exact ⟨s.seq + 1, by simp [hfd]⟩
  · exact ⟨s.seq, if_pos (by simp [ho])⟩

/-- A delete of an absent key does nothing. -/
lemma del_absent {s : KVStore} {d : Disk} {io : FlushOutcome} {k : Bytes} (hk : s.get k = none) :
    s.del d k io = (false, s, d) := by
  have : s.map[k]?.isNone = true := by simpa [get] using hk
  unfold del
  rw [if_pos this]
  exact ite_self _

/-- The map, the counter and the memtable after a record was logged. -/
@[simp] lemma logged_seq (s : KVStore) (r : Record) : (s.logged r).seq = r.seq := rfl
@[simp] lemma logged_map (s : KVStore) (r : Record) : (s.logged r).map = (s.applyRecord r).map := rfl
@[simp] lemma logged_memtable (s : KVStore) (r : Record) :
    (s.logged r).memtable = (s.applyRecord r).memtable := rfl

@[simp] lemma logged_opened (s : KVStore) (r : Record) : (s.logged r).opened = s.opened := by
  unfold logged applyRecord
  split <;> rfl

lemma LogAt.logged {s : KVStore} {d : Disk} {file : Bytes} {pending : List Bytes}
    (h : LogAt s d file pending) (r : Record) :
    LogAt (s.logged r) d file (pending ++ [recordBytes r]) :=
  ⟨h.fd, h.disk, by rw [← h.buffer]; rfl⟩

/-! ### Recovery -/

/-- The records of a log applied one after the other. -/
def applyRecords (s : KVStore) (rs : List Record) : KVStore := rs.foldl applyRecord s

/-- The largest sequence number of a list of records. -/
def maxSeq (rs : List Record) : ℕ := rs.foldl (fun m r => max m r.seq) 0

lemma maxSeq_concat (rs : List Record) (r : Record) : maxSeq (rs ++ [r]) = max (maxSeq rs) r.seq := by
  simp [maxSeq]

lemma applyRecord_frame (s : KVStore) (r : Record) :
    ∃ m t, s.applyRecord r = { s with map := m, memtable := t } := by
  unfold applyRecord
  split <;> exact ⟨_, _, rfl⟩

lemma applyRecords_frame (s : KVStore) (rs : List Record) :
    ∃ m t, s.applyRecords rs = { s with map := m, memtable := t } := by
  induction rs generalizing s with
  | nil => exact ⟨_, _, rfl⟩
  | cons r rs ih =>
    obtain ⟨m, t, h⟩ := s.applyRecord_frame r
    obtain ⟨m', t', h'⟩ := ih (s.applyRecord r)
    exact ⟨m', t', by rw [show s.applyRecords (r :: rs) = (s.applyRecord r).applyRecords rs from rfl,
      h', h]⟩

/-- The store of a fresh process behind the replay of the log: the snapshot was loaded, and then
the records of the log were applied. `good` is the offset of the last good record. -/
def recovered (d : Disk) (good : ℕ) : KVStore :=
  { (new.loadFromFile d.snapshot).2.applyRecords (records (d.wal.getD [])) with
    wal := ⟨some (d.wal.getD []).length, [], good⟩
    seq := maxSeq (records (d.wal.getD []))
    opened := true }

lemma loadFromFile_frame (s : KVStore) (file : Option Bytes) : ∃ m t n, (s.loadFromFile file).2 =
    { s with map := m, memtable := t, seq := n } := by
  unfold loadFromFile
  split <;> exact ⟨_, _, _, rfl⟩

/-- Behind the replay the tables and the worker are those of a new store. -/
lemma recovered_frame (d : Disk) (good : ℕ) : ∃ m t w n, recovered d good =
    { new with map := m, memtable := t, wal := w, seq := n, opened := true } := by
  obtain ⟨m, t, n, hload⟩ := loadFromFile_frame new d.snapshot
  obtain ⟨m', t', happly⟩ := applyRecords_frame (new.loadFromFile d.snapshot).2
    (records (d.wal.getD []))
  rw [recovered, happly, hload]
  exact ⟨_, _, _, _, rfl⟩

/-- **What `open` restores**: the snapshot, the records of the log, and then the tables. -/
theorem open_new (d : Disk) (io : OpenIo) (h1 : io.walOpen = true) (h2 : io.walSeek = true) :
    ∃ good, KVStore.new.open d io =
      (recovered d good).openTables { d with wal := some (d.wal.getD []) } io := by
  have hw : (new.loadFromFile d.snapshot).2.wal = Wal.closed := by
    unfold loadFromFile
    split <;> rfl
  have ho : new.opened = false := rfl
  unfold KVStore.open
  simp only [ho, Bool.false_eq_true, if_false, hw, Wal.open, h1, if_true, Wal.replayInto, h2,
    Option.isNone_some, Bool.not_true, Bool.or_self, Option.getD_some]
  obtain ⟨e1, e2⟩ := replayLoop_eq applyRecord (d.wal.getD []).length (d.wal.getD [])
    ⟨(new.loadFromFile d.snapshot).2, 0, 0⟩
  simp only [e1, e2]
  exact ⟨_, rfl⟩

/-- Without failures `open` returns true. -/
lemma open_ok (d : Disk) : (KVStore.new.open d .ok).1 = true := by
  obtain ⟨good, e⟩ := open_new d .ok rfl rfl
  rw [e]
  exact openTables_fst _ _ rfl

/-- What `open` gives with few tables. -/
lemma open_few {d : Disk} (h : (loadSstables d.manifest).length < kCompactionTrigger) :
    ∃ good, KVStore.new.open d .ok = (true, { recovered d good with
      sstablePaths := loadSstables d.manifest
      nextSstableId := (loadSstables d.manifest).length
      flushWorker := (recovered d good).flushWorker.start },
      { d with wal := some (d.wal.getD []), manifest := some (d.manifest.getD []) }) := by
  obtain ⟨good, e⟩ := open_new d .ok rfl rfl
  exact ⟨good, e.trans (openTables_few _ h)⟩

/-- `open` ends with the log when that cannot be read. -/
lemma open_refused (d : Disk) (io : OpenIo) (h : (io.walOpen && io.walSeek) = false) :
    ∃ w f, KVStore.new.open d io =
      (false, { (new.loadFromFile d.snapshot).2 with wal := w }, { d with wal := f }) := by
  have ho : new.opened = false := rfl
  unfold KVStore.open
  cases h1 : io.walOpen with
  | false =>
    simp only [ho, Bool.false_eq_true, if_false, Wal.open]
    exact ⟨_, _, rfl⟩
  | true =>
    obtain h2 : io.walSeek = false := by simpa [h1] using h
    simp only [ho, Bool.false_eq_true, if_false, Wal.open, if_true, Wal.replayInto, h2,
      Bool.not_false, Bool.or_true]
    exact ⟨_, _, rfl⟩

/-- **An `open` that returns true** has restored the snapshot and the log and opened the
manifest. -/
lemma open_true {d : Disk} {io : OpenIo} (h : (KVStore.new.open d io).1 = true) :
    io.manifestOpen = true ∧ ∃ good, KVStore.new.open d io =
      (recovered d good).openTables { d with wal := some (d.wal.getD []) } io := by
  cases hw : io.walOpen && io.walSeek with
  | false =>
    obtain ⟨w, f, e⟩ := open_refused d io hw
    rw [e] at h
    exact absurd h (by simp)
  | true =>
    obtain ⟨h1, h2⟩ := Bool.and_eq_true_iff.mp hw
    obtain ⟨good, e⟩ := open_new d io h1 h2
    refine ⟨?_, good, e⟩
    cases hm : io.manifestOpen with
    | false =>
      rw [e] at h
      exact absurd h (by simp [openTables, Store.manifestOpen, hm])
    | true => rfl

end KVStore

end VeriStore.Store

import VeriStore.Store.Logbook
import VeriStore.Store.Loader
import VeriStore.Store.Machine
import VeriStore.Store.Names

/-!
Opening a store, and opening it again after a failure.

`open` marks the store as open behind the replay of the log, and goes on with the manifest and the
worker. An opening that fails before the mark leaves a store that does nothing, and the next one is
that of a new store: the snapshot is loaded over what the first one has loaded, and the log is
replayed (`KVStore.OpensAsNew`). One that fails behind the mark leaves a store that takes writes, has
no tables and no worker, and is not opened any further (`open_all_or_nothing`).
-/

namespace VeriStore.Store

open VeriStore.Lib VeriStore.Sstable VeriStore.Log

open KVStore (OpenIo)

/-! ### The worker of an open store -/

/-- The worker takes tasks. -/
def FlushWorker.Running (w : FlushWorker) : Prop := w.started = true ∧ w.stopping = false

lemma FlushWorker.Running.of_flags {w w' : FlushWorker} (h : w.Running) (hw : w.SameFlags w') :
    w'.Running :=
  ⟨hw.1.trans h.1, hw.2.trans h.2⟩

lemma FlushWorker.Running.enqueue {w : FlushWorker} (h : w.Running) (t : FlushTask) :
    (w.enqueue t).1 = true := by
  simp [FlushWorker.enqueue, h.1, h.2]

lemma FlushWorker.running_start {w : FlushWorker} (h : w.started = false) : w.start.Running := by
  simp [FlushWorker.start, h, FlushWorker.Running]

/-- **A rotation is refused** when an earlier flush is outstanding, if the worker is running. -/
lemma KVStore.maybeFlushMemtable_refused {s : KVStore} (h : s.flushWorker.Running) :
    s.maybeFlushMemtable.1 = false ↔
      kMemTableFlushThresholdBytes ≤ s.memtable.approximateSizeBytes ∧ s.immutable.isSome = true := by
  unfold KVStore.maybeFlushMemtable
  split
  · next hsmall =>
    simp only [Bool.true_eq_false, false_iff, not_and]
    omega
  · next hfull =>
    split
    · next himm =>
      simp only [himm, and_true, true_iff]
      omega
    · next himm =>
      dsimp only
      split
      · simp [himm]
      · simp [himm, h.enqueue]

/-! ### What an opening leaves -/

namespace KVStore

/-- The log is opened and replayed, and then the manifest cannot be opened. -/
def OpenIo.FailsAtManifest (io : OpenIo) : Prop :=
  io.walOpen = true ∧ io.walSeek = true ∧ io.manifestOpen = false

instance (io : OpenIo) : Decidable io.FailsAtManifest :=
  inferInstanceAs (Decidable (_ ∧ _ ∧ _))

/-- Nothing was loaded. -/
def Blank (s : KVStore) : Prop := s.map = ∅ ∧ s.memtable = MemTable.empty

/-- **What was loaded before is loaded again**: the snapshot is there, or nothing was loaded. -/
def Reloads (s : KVStore) (d : Disk) : Prop := d.snapshot.isSome = true ∨ s.Blank

/-- The store behind the replay of the log. -/
def recoveredFrom (s : KVStore) (d : Disk) (good : ℕ) : KVStore :=
  { (s.loadFromFile d.snapshot).2.applyRecords (records (d.wal.getD [])) with
    wal := ⟨some (d.wal.getD []).length, s.wal.buffer, good⟩
    seq := maxSeq (records (d.wal.getD []))
    opened := true }

variable {s : KVStore} {d : Disk} {io : OpenIo}

lemma recoveredFrom_frame (s : KVStore) (d : Disk) (good : ℕ) : ∃ m t, s.recoveredFrom d good =
    { s with
      map := m
      memtable := t
      wal := ⟨some (d.wal.getD []).length, s.wal.buffer, good⟩
      seq := maxSeq (records (d.wal.getD []))
      opened := true } := by
  obtain ⟨m, t, n, hload⟩ := s.loadFromFile_frame d.snapshot
  obtain ⟨m', t', happly⟩ := applyRecords_frame (s.loadFromFile d.snapshot).2 (records (d.wal.getD []))
  rw [recoveredFrom, happly, hload]
  exact ⟨_, _, rfl⟩

/-- An opening that ends with the log. -/
lemma open_ends (ho : s.opened = false) (h : (io.walOpen && io.walSeek) = false) :
    ∃ w f, w.buffer = s.wal.buffer ∧
      s.open d io = (false, { (s.loadFromFile d.snapshot).2 with wal := w }, { d with wal := f }) := by
  obtain ⟨m, t, n, hload⟩ := s.loadFromFile_frame d.snapshot
  unfold KVStore.open
  rw [if_neg (by simp [ho]), hload]
  dsimp only
  cases h1 : io.walOpen with
  | false => exact ⟨{ s.wal with fd := none }, d.wal, rfl, rfl⟩
  | true =>
    obtain h2 : io.walSeek = false := by simpa [h1] using h
    simp only [Wal.open, if_true, Wal.replayInto, h2, Bool.not_false, Bool.or_true]
    exact ⟨⟨some (d.wal.getD []).length, s.wal.buffer, 0⟩, some (d.wal.getD []), rfl, rfl⟩

/-- **An opening that gets behind the log** has loaded the snapshot and replayed the log. -/
lemma open_marks (ho : s.opened = false) (h1 : io.walOpen = true) (h2 : io.walSeek = true) :
    ∃ good, s.open d io =
      (s.recoveredFrom d good).openTables { d with wal := some (d.wal.getD []) } io := by
  have hw : (s.loadFromFile d.snapshot).2.wal = s.wal := by
    obtain ⟨m, t, n, hload⟩ := s.loadFromFile_frame d.snapshot
    rw [hload]
  unfold KVStore.open
  rw [if_neg (by simp [ho])]
  simp only [hw, Wal.open, h1, if_true, Wal.replayInto, h2, Option.isNone_some, Bool.not_true,
    Bool.or_self, Bool.false_eq_true, if_false, Option.getD_some]
  obtain ⟨e1, e2⟩ := replayLoop_eq applyRecord (d.wal.getD []).length (d.wal.getD [])
    ⟨(s.loadFromFile d.snapshot).2, 0, 0⟩
  simp only [e1, e2]
  exact ⟨_, rfl⟩

/-- The rows of a snapshot are stored whatever the counter was. -/
lemma loadFromFile_congr (s s' : KVStore) (content : Bytes) :
    (s.loadFromFile (some content)).2.map = (s'.loadFromFile (some content)).2.map ∧
      (s.loadFromFile (some content)).2.memtable = (s'.loadFromFile (some content)).2.memtable := by
  have hrows : ∀ (rs : List Row) (st st' : LoadState), st.map = st'.map →
      st.memtable = st'.memtable → (rs.foldl LoadState.row st).map = (rs.foldl LoadState.row st').map ∧
        (rs.foldl LoadState.row st).memtable = (rs.foldl LoadState.row st').memtable := by
    intro rs
    induction rs with
    | nil => exact fun st st' hm ht => ⟨hm, ht⟩
    | cons r rs ih =>
      intro st st' hm ht
      exact ih (st.row r) (st'.row r) (by simp only [LoadState.row, hm]) (by
        simp only [LoadState.row, ht])
  simp only [loadFromFile, loadLines_eq]
  exact hrows _ _ _ rfl rfl

lemma applyRecords_congr {s s' : KVStore} (rs : List Record) (hm : s.map = s'.map)
    (ht : s.memtable = s'.memtable) : (s.applyRecords rs).map = (s'.applyRecords rs).map ∧
      (s.applyRecords rs).memtable = (s'.applyRecords rs).memtable := by
  induction rs generalizing s s' with
  | nil => exact ⟨hm, ht⟩
  | cons r rs ih =>
    show ((s.applyRecord r).applyRecords rs).map = ((s'.applyRecord r).applyRecords rs).map ∧
      ((s.applyRecord r).applyRecords rs).memtable = ((s'.applyRecord r).applyRecords rs).memtable
    refine ih ?_ ?_
    · unfold applyRecord
      split
      · simp only [hm]
      · simp only [hm]
    · unfold applyRecord
      split
      · simp only [ht]
      · simp only [ht]

/-- **The snapshot and the log give what they give a new store.** -/
lemma Reloads.recovered (h : s.Reloads d) (good good' : ℕ) :
    (s.recoveredFrom d good).map = (KVStore.recovered d good').map ∧
      (s.recoveredFrom d good).memtable = (KVStore.recovered d good').memtable ∧
      (s.recoveredFrom d good).seq = (KVStore.recovered d good').seq := by
  have hload : (s.loadFromFile d.snapshot).2.map = (new.loadFromFile d.snapshot).2.map ∧
      (s.loadFromFile d.snapshot).2.memtable = (new.loadFromFile d.snapshot).2.memtable := by
    cases hs : d.snapshot with
    | none =>
      have hb : s.Blank := h.resolve_left (by simp [hs])
      exact hb
    | some content => exact loadFromFile_congr s new content
  obtain ⟨h1, h2⟩ := applyRecords_congr (records (d.wal.getD [])) hload.1 hload.2
  exact ⟨h1, h2, rfl⟩

/-- `put` and `del` have no effect. -/
def Inert (s : KVStore) : Prop :=
  ∀ (d : Disk) (key : Bytes) (io : FlushOutcome),
    (∀ value, s.put d key value io = (s, d)) ∧ s.del d key io = (false, s, d)

/-- **An opening does all that the opening of a new store does**: it returns true when all its steps
succeed, and then the store has the map, the memtable and the counter that a new store gets from these
files, the tables of the manifest and a running worker. -/
def OpensAsNew (s : KVStore) (d : Disk) : Prop :=
  ∀ io : OpenIo,
    (s.open d io).1 = (io.walOpen && io.walSeek && io.manifestOpen) ∧
    ((s.open d io).1 = true →
      (s.open d io).2.1.map = (new.open d io).2.1.map ∧
      (s.open d io).2.1.memtable = (new.open d io).2.1.memtable ∧
      (s.open d io).2.1.seq = (new.open d io).2.1.seq ∧
      (s.open d io).2.1.flushWorker.Running ∧
      ∀ p, p ∈ (s.open d io).2.1.sstablePaths ↔ p ∈ loadSstables (s.open d io).2.2.manifest)

lemma inert_of_unopened (ho : s.opened = false) : s.Inert := by
  intro d key io
  simp [put, del, ho]

/-- A write to an open store counts. -/
lemma put_seq (ho : s.opened = true) (d : Disk) (key value : Bytes) (io : FlushOutcome) :
    (s.put d key value io).1.seq = s.seq + 1 := by
  unfold put Wal.appendPut Wal.writeRecord
  rw [if_neg (by simp [ho])]
  dsimp only
  split
  · rfl
  · next wal _ =>
    obtain ⟨m, i, n, w, l, f, hf⟩ := finishWrite_frame
      { s with
        seq := s.seq + 1
        wal := wal
        map := s.map.insert key value
        memtable := s.memtable.put key (s.seq + 1) value } d io
    rw [hf]

lemma not_inert_of_opened (ho : s.opened = true) : ¬ s.Inert := by
  intro h
  have hput := (h Disk.empty [] .ok).1 []
  have hseq := put_seq ho Disk.empty [] [] .ok
  rw [hput] at hseq
  simp at hseq

/-- **A store that is not open** and has no worker is opened as a whole. -/
lemma opensAsNew_of_unopened (ho : s.opened = false) (hw : s.flushWorker.started = false)
    (hr : s.Reloads d) : s.OpensAsNew d := by
  intro io
  cases h : io.walOpen && io.walSeek with
  | false =>
    obtain ⟨w, f, -, e⟩ := open_ends (d := d) ho h
    rw [e]
    simp
  | true =>
    obtain ⟨h1, h2⟩ := Bool.and_eq_true_iff.mp h
    obtain ⟨good, e⟩ := open_marks (d := d) ho h1 h2
    cases hm : io.manifestOpen with
    | false => simp [e, openTables, Store.manifestOpen, hm]
    | true =>
      obtain ⟨m, t, hrec⟩ := s.recoveredFrom_frame d good
      obtain ⟨good', e'⟩ := open_new d io h1 h2
      obtain ⟨hmap, hmem, hseq⟩ := hr.recovered good good'
      obtain ⟨b, paths, n, w, m', t', hf⟩ := (s.recoveredFrom d good).openTables_frame
        { d with wal := some (d.wal.getD []) } io
      obtain ⟨b₀, paths₀, n₀, w₀, m₀, t₀, hf₀⟩ := (recovered d good').openTables_frame
        { d with wal := some (d.wal.getD []) } io
      obtain ⟨s', d', hc, he⟩ := openTables_true (s.recoveredFrom d good)
        { d with wal := some (d.wal.getD []) } hm
      obtain ⟨-, hlisted⟩ := maybeCompactSstables_listed
        (s := (s.recoveredFrom d good).listTables d.manifest)
        (d := { d with wal := some (d.wal.getD []), manifest := some (d.manifest.getD []) }) rfl
        io.compaction
      obtain ⟨paths', n', m₁, t₁, hframe⟩ := maybeCompactSstables_frame
        ((s.recoveredFrom d good).listTables d.manifest)
        { d with wal := some (d.wal.getD []), manifest := some (d.manifest.getD []) } io.compaction
      refine ⟨by rw [e, he]; rfl, fun _ => ⟨?_, ?_, ?_, ?_⟩⟩
      · rw [e, e', hf, hf₀]
        exact hmap
      · rw [e, e', hf, hf₀]
        exact hmem
      · rw [e, e', hf, hf₀]
        exact hseq
      · rw [hc] at hlisted hframe
        obtain ⟨rfl, -⟩ := Prod.mk.inj hframe
        rw [e, he]
        refine ⟨FlushWorker.running_start ?_, fun p => (hlisted p).symm⟩
        simp only [listTables, hrec]
        exact hw

/-- **What was loaded stays** when there is no snapshot any more. -/
lemma opensAsNew_iff_blank (ho : s.opened = false) (hw : s.flushWorker.started = false) :
    (∀ d, s.OpensAsNew d) ↔ s.Blank := by
  refine ⟨fun h => ?_, fun hb d => opensAsNew_of_unopened ho hw (Or.inr hb)⟩
  obtain ⟨htrue, hall⟩ := h Disk.empty .ok
  obtain ⟨hmap, hmem, -⟩ := hall htrue
  obtain ⟨good, e⟩ : ∃ good, s.open Disk.empty .ok = (s.recoveredFrom Disk.empty good).openTables
      { Disk.empty with wal := some (Disk.empty.wal.getD []) } .ok := open_marks ho rfl rfl
  obtain ⟨b, paths, n, w, m, t, hf⟩ := (s.recoveredFrom Disk.empty good).openTables_frame
    { Disk.empty with wal := some (Disk.empty.wal.getD []) } .ok
  rw [e, hf] at hmap hmem
  exact ⟨hmap, hmem⟩

end KVStore

/-! ### The life of a store -/

/-- **A store that is not open**, in its process: nothing is buffered, flushed or in progress. -/
structure Process.Unopened (σ : Process) : Prop where
  opened : σ.store.opened = false
  worker : σ.store.flushWorker = FlushWorker.new
  immutable : σ.store.immutable = none
  buffer : σ.store.wal.buffer = []
  written : σ.written = []
  pc : σ.pc = .idle ∨ (∃ key t, σ.pc = .draining key t false) ∨ ∃ key t, σ.pc = .reading key t
  reloads : σ.store.Reloads σ.disk

lemma Process.unopened_new (d : Disk) : Process.Unopened ⟨KVStore.new, d, .idle, []⟩ :=
  ⟨rfl, rfl, rfl, rfl, rfl, Or.inl rfl, Or.inr ⟨rfl, rfl⟩⟩

lemma FlushWorker.unopened_started {w : FlushWorker} (h : w = .new) : w.started = false := by
  rw [h]
  rfl

/-- A flush of an empty buffer writes nothing. -/
lemma Wal.flush_nil {w : Wal} (h : w.buffer = []) (file : Bytes) (io : FlushOutcome) :
    (w.flush file io).2 = (w, file) := by
  unfold Wal.flush
  cases w.fd with
  | none => rfl
  | some off =>
    dsimp only
    rw [if_pos h]

/-- **Calls on a store that is not open** do nothing. -/
lemma Process.Unopened.step {σ σ' : Process} {a : Action} (h : σ.Unopened) (he : σ.Effect a σ') :
    σ'.Unopened := by
  have hwrite : ∀ key value, σ.write key value = σ := fun key value => by
    rw [Process.write, if_pos (by simp [h.opened])]
  have hpc := h.pc
  cases he with
  | put key value =>
    rw [Process.put, hwrite]
    exact h
  | del key =>
    unfold Process.del
    rw [hwrite, ite_self]
    exact h
  | flushWal io =>
    have hflush : σ.flushWal io = { σ with pc := .idle } := by
      have hnil := Wal.flush_nil h.buffer (σ.disk.wal.getD []) io
      have hfile : (σ.disk.wal.map fun _ => σ.disk.wal.getD []) = σ.disk.wal := by
        cases σ.disk.wal <;> rfl
      simp only [Process.flushWal, KVStore.flushWal, hnil, hfile]
    rw [hflush]
    exact { h with pc := Or.inl rfl }
  | setGroupCommitEvery n => exact { h with }
  | getAt key t => exact { h with pc := Or.inr (Or.inl ⟨key, t, rfl⟩) }
  | drain key t added hdr =>
    have hadded : added = false := by
      rcases hpc with hpc | ⟨k, u, hpc⟩ | ⟨k, u, hpc⟩
      all_goals simp [hdr] at hpc
      exact hpc.2.2
    have hdrain : σ.drain key t added = { σ with pc := .reading key t } := by
      rw [Process.drain, KVStore.drainOne, h.worker, hadded]
      rfl
    rw [hdrain]
    exact { h with pc := Or.inr (Or.inr ⟨key, t, rfl⟩) }
  | read key t => exact { h with pc := Or.inl rfl }
  | save io =>
    rw [Process.save, if_pos (by simp [h.opened])]
    exact h
  | work io _ hw =>
    rw [Process.work, h.worker] at hw
    cases hw
  | rotate hr | commit io hr | compact key t io hr | rename key t j ok hr | replace key t j ok hr
  | finish key t j hr | removeWal hr | reopenWal ok hr =>
    rcases hpc with hpc | ⟨k, u, hpc⟩ | ⟨k, u, hpc⟩
    all_goals simp [hr] at hpc

/-- **An opening that fails at the log.** -/
lemma Process.Unopened.ends {σ : Process} (h : σ.Unopened) {io : OpenIo}
    (hlog : (io.walOpen && io.walSeek) = false) (hpc : σ.pc = .idle) :
    Process.Unopened { σ with
      store := (σ.store.open σ.disk io).2.1
      disk := (σ.store.open σ.disk io).2.2 } := by
  obtain ⟨w, f, hb, e⟩ := KVStore.open_ends (d := σ.disk) h.opened hlog
  obtain ⟨m, t, n, hload⟩ := σ.store.loadFromFile_frame σ.disk.snapshot
  rw [e]
  refine ⟨?_, ?_, ?_, hb.trans h.buffer, h.written, Or.inl hpc, ?_⟩
  · rw [hload]
    exact h.opened
  · rw [hload]
    exact h.worker
  · rw [hload]
    exact h.immutable
  · rcases h.reloads with hs | hblank
    · exact Or.inl hs
    · cases hs : σ.disk.snapshot with
      | some content => exact Or.inl (by simp)
      | none => exact Or.inr hblank

/-- The event is not an opening that fails at the manifest. -/
def Event.SparesManifest (σ : Process) : Event → Prop
  | .open io => σ.store.opened = true ∨ ¬ io.FailsAtManifest
  | _ => True

/-- **The states of a store and its files** that are reached by events of this kind, from a new store
on any files. -/
inductive Lives : Process → Prop
  | new (d : Disk) : Lives ⟨KVStore.new, d, .idle, []⟩
  | event {σ σ' : Process} {e : Event} (h : Lives σ) (hc : e.SparesManifest σ)
      (he : e.apply σ = some σ') : Lives σ'

/-- An opening of an open store does nothing. -/
lemma KVStore.open_of_opened {s : KVStore} (ho : s.opened = true) (d : Disk) (io : OpenIo) :
    s.open d io = (true, s, d) := if_pos ho

/-- An opening behind the log opens the store. -/
lemma KVStore.open_opens {s : KVStore} {io : OpenIo} (ho : s.opened = false)
    (h1 : io.walOpen = true) (h2 : io.walSeek = true) (d : Disk) :
    (s.open d io).2.1.opened = true := by
  obtain ⟨good, e⟩ := KVStore.open_marks (d := d) ho h1 h2
  obtain ⟨b, paths, n', w', m', t', hf⟩ := (s.recoveredFrom d good).openTables_frame
    { d with wal := some (d.wal.getD []) } io
  rw [e, hf]
  rfl

/-- **Events keep a store unopened, or open with a running worker.** -/
lemma Lives.cases {σ : Process} (h : Lives σ) :
    σ.Unopened ∨ (σ.store.opened = true ∧ σ.store.flushWorker.Running) := by
  induction h with
  | new d => exact Or.inl (Process.unopened_new d)
  | @event σ σ' e _ hc he ih =>
    unfold Event.apply at he
    split at he
    · next io hpc =>
      obtain rfl := Option.some.inj he
      rcases ih with ih | ⟨ho, hw⟩
      · cases hlog : io.walOpen && io.walSeek with
        | false => exact Or.inl (ih.ends hlog hpc)
        | true =>
          obtain ⟨h1, h2⟩ := Bool.and_eq_true_iff.mp hlog
          have hm : io.manifestOpen = true := by
            have := hc.resolve_left (by simp [ih.opened])
            simpa [KVStore.OpenIo.FailsAtManifest, h1, h2] using this
          have hopen := KVStore.opensAsNew_of_unopened ih.opened
            (FlushWorker.unopened_started ih.worker) ih.reloads io
          have htrue : (σ.store.open σ.disk io).1 = true := by rw [hopen.1, h1, h2, hm]; rfl
          exact Or.inr ⟨KVStore.open_opens ih.opened h1 h2 σ.disk, (hopen.2 htrue).2.2.2.1⟩
      · rw [KVStore.open_of_opened ho]
        exact Or.inr ⟨ho, hw⟩
    · rcases ih with ih | ⟨ho, hw⟩
      · exact Or.inl (ih.step (Process.step_effect he))
      · obtain ⟨ho', hw', -⟩ := (Process.step_effect he).alive
        exact Or.inr ⟨ho'.trans ho, hw.of_flags hw'⟩
    · obtain rfl := Option.some.inj he
      exact Or.inl (Process.unopened_new _)
    · obtain rfl := Option.some.inj he
      exact Or.inl (Process.unopened_new _)
    · simp at he

lemma Lives.unopened {σ : Process} (h : Lives σ) (ho : σ.store.opened = false) : σ.Unopened :=
  h.cases.resolve_right fun hopen => by simp [ho] at hopen

/-- **An opening is all or nothing, but for the manifest.** In every run in which no opening fails at
the manifest, an open store has a running worker, so that a rotation is refused only while an earlier
flush is outstanding, and a store that is not open is opened as a new store is on the same files.
And for a store of such a run that is not open, whatever happens in `open`: a store on which it
returns false does nothing, and is opened as a new store the next time on any files that still have
the snapshot, exactly when it was not the manifest that could not be opened. It is opened so also
where the snapshot is gone exactly when nothing was loaded. -/
theorem open_all_or_nothing {σ : Process} (h : Lives σ) :
    (σ.store.opened = true → σ.store.flushWorker.Running ∧
      (σ.store.maybeFlushMemtable.1 = false → σ.store.immutable.isSome = true)) ∧
    (σ.store.opened = false → σ.store.OpensAsNew σ.disk ∧ ∀ io : OpenIo,
      (((σ.store.open σ.disk io).1 = false → (σ.store.open σ.disk io).2.1.Inert ∧
          ∀ d, (σ.store.open σ.disk io).2.1.Reloads d → (σ.store.open σ.disk io).2.1.OpensAsNew d) ↔
        ¬ io.FailsAtManifest) ∧
      ((σ.store.open σ.disk io).1 = false → ¬ io.FailsAtManifest →
        ((∀ d, (σ.store.open σ.disk io).2.1.OpensAsNew d) ↔
          (σ.store.loadFromFile σ.disk.snapshot).2.Blank))) := by
  constructor
  · intro ho
    have hw : σ.store.flushWorker.Running := by
      rcases h.cases with hu | ⟨-, hw⟩
      · simp [hu.opened] at ho
      · exact hw
    exact ⟨hw, fun hf => ((KVStore.maybeFlushMemtable_refused hw).mp hf).2⟩
  · intro ho
    have hu := h.unopened ho
    have hopens := KVStore.opensAsNew_of_unopened ho (FlushWorker.unopened_started hu.worker) hu.reloads
    -- an opening that fails, but not at the manifest, fails at the log
    have hlog : ∀ io : OpenIo, (σ.store.open σ.disk io).1 = false → ¬ io.FailsAtManifest →
        (io.walOpen && io.walSeek) = false := by
      intro io hfalse hio
      rw [(hopens io).1] at hfalse
      cases hlog : io.walOpen && io.walSeek with
      | false => rfl
      | true =>
        obtain ⟨h1, h2⟩ := Bool.and_eq_true_iff.mp hlog
        rw [hlog, Bool.true_and] at hfalse
        exact absurd ⟨h1, h2, hfalse⟩ hio
    have hends : ∀ io : OpenIo, (io.walOpen && io.walSeek) = false →
        (σ.store.open σ.disk io).2.1.opened = false ∧
        (σ.store.open σ.disk io).2.1.flushWorker.started = false ∧
        ((σ.store.open σ.disk io).2.1.Blank ↔ (σ.store.loadFromFile σ.disk.snapshot).2.Blank) := by
      intro io hlog
      obtain ⟨w, f, -, e⟩ := KVStore.open_ends (d := σ.disk) ho hlog
      obtain ⟨m, t, n, hload⟩ := σ.store.loadFromFile_frame σ.disk.snapshot
      rw [e]
      refine ⟨?_, ?_, Iff.rfl⟩
      · rw [hload]
        exact ho
      · rw [hload]
        exact FlushWorker.unopened_started hu.worker
    refine ⟨hopens, fun io => ⟨⟨?_, fun hio hfalse => ?_⟩, fun hfalse hio => ?_⟩⟩
    · rintro hall ⟨h1, h2, hm⟩
      have hfalse : (σ.store.open σ.disk io).1 = false := by
        rw [(hopens io).1, h1, h2, hm]
        rfl
      exact KVStore.not_inert_of_opened (KVStore.open_opens ho h1 h2 σ.disk) (hall hfalse).1
    · obtain ⟨h1, h2, -⟩ := hends io (hlog io hfalse hio)
      exact ⟨KVStore.inert_of_unopened h1, fun d hd => KVStore.opensAsNew_of_unopened h1 h2 hd⟩
    · obtain ⟨h1, h2, h3⟩ := hends io (hlog io hfalse hio)
      exact (KVStore.opensAsNew_iff_blank h1 h2).trans h3

/-- The manifest cannot be opened. -/
def noManifest : OpenIo := ⟨true, true, false, .ok⟩

/-- **An opening that returns false and leaves an open store**: it takes a write, and the next opening
returns true without a worker. -/
theorem open_without_manifest :
    (KVStore.new.open Disk.empty noManifest).1 = false ∧
    (((KVStore.new.open Disk.empty noManifest).2.1.put
      (KVStore.new.open Disk.empty noManifest).2.2 (text "a") (text "1") .ok).1.get (text "a") =
        some (text "1")) ∧
    ((KVStore.new.open Disk.empty noManifest).2.1.open
      (KVStore.new.open Disk.empty noManifest).2.2 .ok).1 = true ∧
    ((KVStore.new.open Disk.empty noManifest).2.1.open
      (KVStore.new.open Disk.empty noManifest).2.2 .ok).2.1.flushWorker.started = false := by
  decide +kernel

/-- A snapshot with one key, and a log with another. -/
def savedFiles : Disk :=
  ⟨some (text "a\t1\tP\t1\n"), some (recordBytes ⟨2, text "b", some (text "2")⟩), none, ∅⟩

/-- A store whose log could not be opened has the snapshot; the next opening loads it again and
replays the log. -/
theorem open_after_log : ∃ s d, KVStore.new.open savedFiles ⟨false, true, true, .ok⟩ = (false, s, d) ∧
    s.get (text "a") = some (text "1") ∧ s.Inert ∧ s.OpensAsNew d ∧
    (s.open d .ok).2.1.get (text "a") = some (text "1") ∧
    (s.open d .ok).2.1.get (text "b") = some (text "2") := by
  refine ⟨_, _, rfl, by decide +kernel, ?_⟩
  have h := ((open_all_or_nothing (Lives.new savedFiles)).2 rfl).2 ⟨false, true, true, .ok⟩
  obtain ⟨hinert, hopens⟩ := h.1.mpr (by decide) rfl
  exact ⟨hinert, hopens _ (Or.inl rfl), by decide +kernel, by decide +kernel⟩

end VeriStore.Store

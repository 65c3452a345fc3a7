import VeriStore.Store.Layers

/-!
Reads between a rotation and the end of its flush.

A rotation moves the entries of the memtable into the task of the worker and leaves the immutable
memtable empty. Until the completion is drained, a read at a timestamp up to the rotation is
answered by the tables alone, and the worker may meanwhile write the file of the flush.

* `run_oneFlush` — there is at most one flush, and none when a memtable is rotated;
* `Pending.window` — what can happen before the completion is drained;
* `seamless_iff` — when no read sees the rotation.
-/

namespace VeriStore.Store

open VeriStore.Lib VeriStore.Sstable VeriStore.Log

open KVStore (CompactIo OpenIo)

/-! ### One flush at a time -/

/-- The number of flushes that have not been handed back. -/
def FlushWorker.flushes (w : FlushWorker) : ℕ := w.held.length + w.completions.length

/-- What a step of the worker does: a task stays with it, is dropped or is completed, and a file
is written for a task that it has. -/
structure FlushWorker.Moves (w w' : FlushWorker) (d d' : Disk) : Prop where
  flushes_le : w'.flushes ≤ w.flushes
  held : ∀ t ∈ w'.held, t ∈ w.held
  tables : d'.tables = d.tables ∨ ∃ t ∈ w.held, ∃ n,
    d'.tables = d.tables.insert t.sstablePath ((sstableBytes t.entries).take n)
  started : w'.started = w.started
  stopping : w'.stopping = w.stopping
  awake : w.stopping = false → w'.pc ≠ .exited

/-- **A step of the worker.** -/
lemma FlushWorker.step_moves {w w' : FlushWorker} {d d' : Disk} {io : WriteOutcome}
    (h : w.step d io = some (w', d')) : w.Moves w' d d' := by
  -- a step that leaves the tables alone
  have hmove : ∀ {w' : FlushWorker} {d' : Disk}, w'.flushes ≤ w.flushes →
      (∀ t ∈ w'.held, t ∈ w.held) → d'.tables = d.tables → w'.started = w.started →
      w'.stopping = w.stopping → (w.stopping = false → w'.pc ≠ .exited) → w.Moves w' d d' :=
    fun h1 h2 h3 h4 h5 h6 => ⟨h1, h2, Or.inl h3, h4, h5, h6⟩
  unfold FlushWorker.step at h
  split at h
  · next hpc =>
    split at h
    · next t ts ht =>
      obtain ⟨rfl, rfl⟩ := Prod.mk.inj (Option.some.inj h)
      apply hmove <;> simp +contextual [FlushWorker.flushes, FlushWorker.held, hpc, ht, or_imp]
    · split at h
      · next hstop =>
        obtain ⟨rfl, rfl⟩ := Prod.mk.inj (Option.some.inj h)
        apply hmove <;> simp [FlushWorker.flushes, FlushWorker.held, hpc, hstop]
      · simp at h
  · next t hpc =>
    have ht : t ∈ w.held := by simp [FlushWorker.held, hpc]
    split at h
    · obtain ⟨rfl, rfl⟩ := Prod.mk.inj (Option.some.inj h)
      refine ⟨?_, ?_, Or.inr ⟨t, ht, (sstableBytes t.entries).length, by simp⟩, rfl, rfl, ?_⟩ <;>
        simp [FlushWorker.flushes, FlushWorker.held, hpc]
    · obtain ⟨rfl, rfl⟩ := Prod.mk.inj (Option.some.inj h)
      apply hmove <;> simp +contextual [FlushWorker.flushes, FlushWorker.held, hpc]
    · next n =>
      obtain ⟨rfl, rfl⟩ := Prod.mk.inj (Option.some.inj h)
      refine ⟨?_, ?_, Or.inr ⟨t, ht, n, rfl⟩, rfl, rfl, ?_⟩ <;>
        simp +contextual [FlushWorker.flushes, FlushWorker.held, hpc]
  · next t hpc =>
    split at h
    all_goals
      obtain ⟨rfl, rfl⟩ := Prod.mk.inj (Option.some.inj h)
      apply hmove <;> simp +contextual [FlushWorker.flushes, FlushWorker.held, hpc]
  · next t existing hpc =>
    split at h
    · obtain ⟨rfl, rfl⟩ := Prod.mk.inj (Option.some.inj h)
      apply hmove <;> simp [FlushWorker.flushes, FlushWorker.held, hpc]
    · split at h
      all_goals
        obtain ⟨rfl, rfl⟩ := Prod.mk.inj (Option.some.inj h)
        apply hmove <;> simp +contextual [FlushWorker.flushes, FlushWorker.held, hpc]
  · next t hpc =>
    obtain ⟨rfl, rfl⟩ := Prod.mk.inj (Option.some.inj h)
    refine hmove ?_ ?_ rfl rfl rfl (by simp)
    · simp only [FlushWorker.flushes, FlushWorker.held, hpc, List.append_nil, List.length_append,
        List.length_singleton]
      omega
    · simp +contextual [FlushWorker.held, hpc]
  · simp at h

/-- A worker that was started runs. -/
def FlushWorker.Runs (w : FlushWorker) : Prop :=
  w.started = true → w.stopping = false ∧ w.pc ≠ .exited

lemma FlushWorker.Moves.runs {w w' : FlushWorker} {d d' : Disk} (hm : w.Moves w' d d')
    (h : w.Runs) : w'.Runs := by
  intro hs
  obtain ⟨hstop, -⟩ := h (hm.started ▸ hs)
  exact ⟨hm.stopping.trans hstop, hm.awake hstop⟩

/-- At most one flush is outstanding, and none without an immutable memtable. -/
structure KVStore.OneFlush (s : KVStore) : Prop where
  le : s.flushWorker.flushes ≤ if s.immutable.isSome then 1 else 0
  runs : s.flushWorker.Runs

lemma FlushWorker.Runs.enqueue {w : FlushWorker} (h : w.Runs) (t : FlushTask) :
    (w.enqueue t).2.Runs := by
  unfold FlushWorker.enqueue
  split
  · exact h
  · exact h

lemma FlushWorker.flushes_enqueue (w : FlushWorker) (t : FlushTask) :
    (w.enqueue t).2.flushes ≤ w.flushes + 1 := by
  unfold FlushWorker.enqueue
  split
  · exact Nat.le_succ _
  · simp only [FlushWorker.flushes, FlushWorker.held, List.length_append, List.length_singleton]
    omega

lemma FlushWorker.pollCompletion_some {w w' : FlushWorker} {p : Bytes}
    (h : w.pollCompletion = some (p, w')) : w'.flushes + 1 = w.flushes ∧ (w.Runs → w'.Runs) := by
  unfold FlushWorker.pollCompletion at h
  split at h
  · simp at h
  · next c cs hc =>
    obtain ⟨-, rfl⟩ := Prod.mk.inj (Option.some.inj h)
    refine ⟨?_, id⟩
    simp only [FlushWorker.flushes, FlushWorker.held, hc, List.length_cons]
    omega

/-- A rotation begins a flush when there is none. -/
lemma KVStore.OneFlush.rotate {σ : Process} (h : σ.store.OneFlush) : σ.rotate.store.OneFlush := by
  rw [σ.rotate_frame.1]
  rcases σ.store.maybeFlushMemtable_cases with ⟨ok, e⟩ | ⟨-, e⟩ | ⟨⟨-, himm, -⟩, e⟩
  · rw [e]
    exact h
  · rw [e]
    exact ⟨h.le, h.runs⟩
  · rw [e]
    have hle := σ.store.flushWorker.flushes_enqueue σ.store.flushTask
    have hzero : σ.store.flushWorker.flushes ≤ 0 := by simpa [himm] using h.le
    exact ⟨hle.trans (Nat.succ_le_succ hzero), h.runs.enqueue _⟩

/-- **Every step keeps it.** -/
lemma Process.Effect.oneFlush {σ σ' : Process} {a : Action} (he : σ.Effect a σ')
    (h : σ.store.OneFlush) : σ'.store.OneFlush := by
  have hwrite : ∀ key value, (σ.write key value).store.OneFlush := by
    intro key value
    unfold Process.write
    split
    · exact h
    · split
      · exact ⟨h.le, h.runs⟩
      · obtain ⟨m, n, w, hl⟩ := σ.store.logged_frame ⟨σ.store.seq + 1, key, value⟩
        show (σ.store.logged _).OneFlush
        rw [hl]
        exact ⟨h.le, h.runs⟩
  cases he with
  | put key value => exact hwrite _ _
  | del key =>
    unfold Process.del
    split
    · exact hwrite _ _
    · exact h
  | rotate => exact h.rotate
  | commit io =>
    obtain ⟨w, f, e⟩ := σ.commit_frame io
    rw [e]
    exact ⟨h.le, h.runs⟩
  | flushWal io => exact ⟨h.le, h.runs⟩
  | setGroupCommitEvery => exact ⟨h.le, h.runs⟩
  | getAt => exact ⟨h.le, h.runs⟩
  | drain key t added =>
    unfold Process.drain KVStore.drainOne
    cases hp : σ.store.flushWorker.pollCompletion with
    | none => exact ⟨h.le, h.runs⟩
    | some x =>
      have hle := h.le
      obtain ⟨hx, hruns⟩ := FlushWorker.pollCompletion_some hp
      refine ⟨?_, hruns h.runs⟩
      show x.2.flushes ≤ 0
      split at hle <;> omega
  | compact key t io =>
    obtain ⟨paths, n, m, tb, pc, e⟩ := σ.compact_frame key t io
    rw [e]
    exact ⟨h.le, h.runs⟩
  | rename key t j ok =>
    obtain ⟨tb, pc, e⟩ := σ.rename_frame key t j ok
    rw [e]
    exact ⟨h.le, h.runs⟩
  | replace key t j ok =>
    obtain ⟨m, tb, pc, e⟩ := σ.replace_frame key t j ok
    rw [e]
    exact ⟨h.le, h.runs⟩
  | finish => exact ⟨h.le, h.runs⟩
  | read => exact ⟨h.le, h.runs⟩
  | save io =>
    obtain ⟨x, pc, e, -⟩ := σ.save_frame io
    rw [e]
    exact ⟨h.le, h.runs⟩
  | removeWal => exact ⟨h.le, h.runs⟩
  | reopenWal => exact ⟨h.le, h.runs⟩
  | work io _ hw =>
    obtain ⟨w, d, hstep, rfl⟩ := Process.work_frame hw
    have hm := FlushWorker.step_moves hstep
    exact ⟨hm.flushes_le.trans h.le, hm.runs h.runs⟩

/-- Whatever `open` does, nothing is being flushed. -/
lemma Process.launch_oneFlush (d : Disk) (io : OpenIo) : (Process.launch d io).store.OneFlush := by
  have hzero : ∀ s : KVStore, s.flushWorker = FlushWorker.new ∨ s.flushWorker = FlushWorker.new.start →
      s.OneFlush := by
    intro s hs
    have hflush : s.flushWorker.flushes = 0 := by
      rcases hs with hs | hs <;> rw [hs] <;> rfl
    refine ⟨by omega, ?_⟩
    rcases hs with hs | hs
    · rw [hs]
      exact fun h => absurd h (by decide)
    · rw [hs]
      exact fun _ => ⟨rfl, by simp [FlushWorker.start, FlushWorker.new]⟩
  obtain ⟨m, t, n, hload⟩ := KVStore.loadFromFile_frame KVStore.new d.snapshot
  apply hzero
  show (KVStore.new.open d io).2.1.flushWorker = _ ∨ (KVStore.new.open d io).2.1.flushWorker = _
  cases h : io.walOpen && io.walSeek with
  | false =>
    obtain ⟨w, f, e⟩ := KVStore.open_refused d io h
    rw [e, hload]
    exact Or.inl rfl
  | true =>
    obtain ⟨h1, h2⟩ := Bool.and_eq_true_iff.mp h
    obtain ⟨good, e⟩ := KVStore.open_new d io h1 h2
    obtain ⟨m', t', w', n', hr⟩ := KVStore.recovered_frame d good
    have hw : (KVStore.recovered d good).flushWorker = FlushWorker.new := by rw [hr]; rfl
    rw [e, KVStore.openTables_flushWorker, hw]
    split
    · exact Or.inr rfl
    · exact Or.inl rfl

/-- **There is at most one flush in every run.** -/
lemma run_oneFlush {σ σ' : Process} {as : List Action} (hrun : σ.run as = some σ')
    (h : σ.store.OneFlush) : σ'.store.OneFlush :=
  Process.run_induct (P := fun σ => σ.store.OneFlush) (Q := fun _ => True) hrun
    (fun _ _ => trivial) h fun _ _ _ _ he ih => he.oneFlush ih

/-! ### The window of a rotation -/

/-- The state `σ'` lies between the rotation in `σ` and the draining of its completion: a poll that
finds the completion ends the window. -/
inductive Process.Pending (σ : Process) : Process → Prop
  | rotated : Pending σ σ.rotate
  | step {σ₁ σ₂ : Process} {a : Action} (h : Pending σ σ₁) (hstep : σ₁.step a = some σ₂)
      (hdrain : a = .drain → σ₁.store.flushWorker.completions = []) : Pending σ σ₂

/-- No table is being added or compacted. -/
def Pc.Calm : Pc → Prop
  | .draining _ _ added => added = false
  | .compacting _ _ | .merged _ _ _ | .renamed _ _ _ | .replaced _ _ _ => False
  | _ => True

/-- **A state in the window**: the tables are the same, except for the file of the flush, and the
memtable has only versions behind the rotation. -/
structure Window (σ σ' : Process) : Prop where
  paths : σ'.store.sstablePaths = σ.store.sstablePaths
  immutable : σ'.store.immutable = some ∅
  seq_le : σ.store.seq ≤ σ'.store.seq
  newer : ∀ key, ∀ v ∈ versionsOf σ'.store.memtable.entries key, σ.store.seq < v.timestamp
  held : ∀ t ∈ σ'.store.flushWorker.held, t = σ.store.flushTask
  other : ∀ p, p ≠ σ.store.flushTask.sstablePath → σ'.disk.tables[p]? = σ.disk.tables[p]?
  file : σ'.disk.tables[σ.store.flushTask.sstablePath]? =
      σ.disk.tables[σ.store.flushTask.sstablePath]? ∨
    ∃ n, σ'.disk.tables[σ.store.flushTask.sstablePath]? =
      some ((sstableBytes σ.store.flushTask.entries).take n)
  calm : σ'.pc.Calm

section Window

variable {σ σ' : Process}

/-- The log, the snapshot and the manifest do not matter. -/
lemma Window.quiet (h : Window σ σ') {σ'' : Process} (w : Wal) (g : ℕ) (f x m : Option Bytes)
    (hs : σ''.store = { σ'.store with wal := w, groupCommitEvery := g })
    (hd : σ''.disk = { σ'.disk with wal := f, snapshot := x, manifest := m })
    (hpc : σ''.pc.Calm) : Window σ σ'' where
  paths := by rw [hs]; exact h.paths
  immutable := by rw [hs]; exact h.immutable
  seq_le := by rw [hs]; exact h.seq_le
  newer := by rw [hs]; exact h.newer
  held := by rw [hs]; exact h.held
  other := by rw [hd]; exact h.other
  file := by rw [hd]; exact h.file
  calm := hpc

/-- A write adds a version behind the rotation. -/
lemma Window.write (h : Window σ σ') (key : Bytes) (value : Option Bytes) :
    Window σ (σ'.write key value) := by
  unfold Process.write
  split
  · exact h
  · split
    · exact { h with seq_le := h.seq_le.trans (Nat.le_succ _) }
    · obtain ⟨m, n, w, hl⟩ := σ'.store.logged_frame ⟨σ'.store.seq + 1, key, value⟩
      simp only [hl]
      refine ⟨h.paths, h.immutable, h.seq_le.trans (Nat.le_succ _), fun k v hv => ?_, h.held,
        h.other, h.file, trivial⟩
      simp only [versionsOf_pushVersion] at hv
      split at hv
      · rcases List.mem_append.mp hv with hv | hv
        · exact h.newer key v hv
        · rw [List.mem_singleton.mp hv]
          exact Nat.lt_succ_of_le h.seq_le
      · exact h.newer k v hv

/-- The memtable is not rotated again. -/
lemma Window.rotate (h : Window σ σ') : Window σ σ'.rotate := by
  obtain ⟨hs, hd, -, hpc⟩ := σ'.rotate_frame
  have hcalm : σ'.rotate.pc.Calm := by
    rcases hpc with hpc | hpc <;> rw [hpc] <;> trivial
  rcases σ'.store.maybeFlushMemtable_cases with ⟨ok, e⟩ | ⟨hnil, e⟩ | ⟨⟨-, himm, -⟩, -⟩
  · rw [e] at hs
    exact h.quiet σ'.store.wal σ'.store.groupCommitEvery σ'.disk.wal σ'.disk.snapshot
      σ'.disk.manifest hs hd hcalm
  · rw [e] at hs
    have hmem : σ'.rotate.store.memtable.entries = ∅ := by rw [hs]; rfl
    exact ⟨by rw [hs]; exact h.paths, by rw [hs]; exact h.immutable, by rw [hs]; exact h.seq_le,
      by rw [hmem]; simp [versionsOf], by rw [hs]; exact h.held, by rw [hd]; exact h.other,
      by rw [hd]; exact h.file, hcalm⟩
  · rw [h.immutable] at himm
    simp at himm

/-- The worker writes at most the file of the flush. -/
lemma Window.work (h : Window σ σ') {io : WriteOutcome} {σ'' : Process}
    (hw : σ'.work io = some σ'') : Window σ σ'' := by
  obtain ⟨w, d, hstep, rfl⟩ := Process.work_frame hw
  obtain ⟨-, hheld, htab, -, -, -⟩ := FlushWorker.step_moves hstep
  refine ⟨h.paths, h.immutable, h.seq_le, h.newer, fun t ht => h.held t (hheld t ht), ?_, ?_, h.calm⟩
  · intro p hp
    rcases htab with htab | ⟨t, ht, n, htab⟩
    · rw [htab]
      exact h.other p hp
    · obtain rfl := h.held t ht
      rw [htab, Std.ExtTreeMap.getElem?_insert, if_neg (by simpa using Ne.symm hp)]
      exact h.other p hp
  · rcases htab with htab | ⟨t, ht, n, htab⟩
    · rw [htab]
      exact h.file
    · obtain rfl := h.held t ht
      exact Or.inr ⟨n, by rw [htab, Std.ExtTreeMap.getElem?_insert_self]⟩

/-- **Every step keeps the window**, until the completion is drained. -/
lemma Window.effect (h : Window σ σ') {a : Action} {σ'' : Process} (he : σ'.Effect a σ'')
    (hdrain : a = .drain → σ'.store.flushWorker.completions = []) : Window σ σ'' := by
  have hquiet : ∀ {σ'' : Process} (w : Wal) (g : ℕ) (f x : Option Bytes),
      σ''.store = { σ'.store with wal := w, groupCommitEvery := g } →
      σ''.disk = { σ'.disk with wal := f, snapshot := x } → σ''.pc.Calm → Window σ σ'' :=
    fun w g f x h1 h2 h3 => h.quiet w g f x σ'.disk.manifest h1 h2 h3
  have hcalm := h.calm
  cases he with
  | put key value => exact h.write key (some value)
  | del key =>
    unfold Process.del
    split
    · exact h.write key none
    · exact h
  | rotate => exact h.rotate
  | commit io =>
    obtain ⟨w, f, e⟩ := σ'.commit_frame io
    rw [e]
    exact hquiet _ _ _ _ rfl rfl trivial
  | flushWal io => exact hquiet _ _ _ _ rfl rfl trivial
  | setGroupCommitEvery n hpc => exact hquiet _ _ _ _ rfl rfl hcalm
  | getAt key t => exact hquiet _ _ _ _ rfl rfl rfl
  | drain key t added hpc =>
    rw [hpc] at hcalm
    obtain rfl : added = false := hcalm
    simp only [Process.drain, KVStore.drainOne, FlushWorker.pollCompletion, hdrain rfl,
      Option.map_none]
    exact hquiet _ _ _ _ rfl rfl trivial
  | compact key t io hpc => exact absurd hcalm (by rw [hpc]; exact id)
  | rename key t j ok hpc => exact absurd hcalm (by rw [hpc]; exact id)
  | replace key t j ok hpc => exact absurd hcalm (by rw [hpc]; exact id)
  | finish key t j hpc => exact absurd hcalm (by rw [hpc]; exact id)
  | read => exact hquiet _ _ _ _ rfl rfl trivial
  | save io =>
    obtain ⟨x, pc, e, hpc⟩ := σ'.save_frame io
    rw [e]
    refine hquiet _ _ _ _ rfl rfl ?_
    rcases hpc with rfl | rfl
    · exact hcalm
    · trivial
  | removeWal => exact hquiet _ _ _ _ rfl rfl trivial
  | reopenWal => exact hquiet _ _ _ _ rfl rfl trivial
  | work io _ hw => exact h.work hw

/-- Nothing is outstanding when a memtable is rotated. -/
lemma KVStore.OneFlush.idle {s : KVStore} (h : s.OneFlush) (himm : s.immutable = none) :
    s.flushWorker.Idle := by
  have hzero : s.flushWorker.held.length + s.flushWorker.completions.length ≤ 0 := by
    simpa [himm, FlushWorker.flushes] using h.le
  exact ⟨List.length_eq_zero_iff.mp (by omega), List.length_eq_zero_iff.mp (by omega)⟩

/-- **The window of a rotation** begins with it. -/
lemma Window.rotated (hone : σ.store.OneFlush) (hrot : σ.store.Rotates) : Window σ σ.rotate := by
  have hs := Process.rotate_store hrot
  obtain ⟨-, hd, -, hpc⟩ := σ.rotate_frame
  obtain ⟨hheld, -⟩ := hone.idle hrot.2.1
  constructor
  case paths => rw [hs]; rfl
  case immutable => rw [hs]; rfl
  case seq_le => rw [hs]; exact le_rfl
  case newer =>
    rw [hs]
    simp [KVStore.rotated, MemTable.empty, versionsOf]
  case held =>
    rw [hs]
    intro t ht
    simp only [KVStore.rotated, FlushWorker.enqueue] at ht
    split at ht
    · simp [hheld] at ht
    · rw [FlushWorker.held] at hheld
      simp only [FlushWorker.held, List.mem_append, List.mem_singleton] at ht
      obtain ⟨h1, h2⟩ := List.append_eq_nil_iff.mp hheld
      simpa [h1, h2] using ht
  case other => rw [hd]; exact fun _ _ => rfl
  case file => rw [hd]; exact Or.inl rfl
  case calm => rcases hpc with hpc | hpc <;> rw [hpc] <;> trivial

/-- **Every state in the window.** -/
lemma Process.Pending.window (h : σ.Pending σ') (hone : σ.store.OneFlush)
    (hrot : σ.store.Rotates) : Window σ σ' := by
  induction h with
  | rotated => exact .rotated hone hrot
  | step _ hstep hdrain ih => exact ih.effect (Process.step_effect hstep) hdrain

end Window

/-! ### Reads in the window -/

/-- What the tables alone answer, with the given files. -/
def KVStore.tablesAt (s : KVStore) (tables : Std.ExtTreeMap Bytes Bytes) (key : Bytes) (t : ℕ) :
    Option Bytes :=
  KVStore.firstHit (s.sstablePaths.reverse.map fun p => tableGetAt tables[p]? key t)

lemma lookupEntries_empty (key : Bytes) (t : ℕ) : lookupEntries ∅ key t = .notFound := by
  simp [lookupEntries_eq, versionsOf]

lemma lookupEntries_newer {e : Entries} {key : Bytes} {t : ℕ}
    (h : ∀ v ∈ versionsOf e key, t < v.timestamp) : lookupEntries e key t = .notFound := by
  have hnone : (versionsOf e key).reverse.find? (fun v => v.timestamp ≤ t) = none := by
    simpa [List.find?_eq_none] using h
  rw [lookupEntries_eq, hnone]

/-- **In the window the tables answer alone.** -/
lemma Window.readAt {σ σ' : Process} (h : Window σ σ') (key : Bytes) {t : ℕ} (ht : t ≤ σ.store.seq) :
    σ'.store.readAt σ'.disk key t = σ.store.tablesAt σ'.disk.tables key t := by
  have hmem : σ'.store.memtable.getAt key t = .notFound :=
    lookupEntries_newer fun v hv => ht.trans_lt (h.newer key v hv)
  simp only [KVStore.readAt, KVStore.layers, hmem, h.immutable, h.paths, Option.toList_some,
    List.map_cons, List.map_nil, lookupEntries_empty, List.cons_append, List.nil_append,
    KVStore.firstHit, KVStore.tablesAt]

/-- **When a rotation is not seen**: a version of the memtable that is visible repeats what the
tables answer, and overwriting the file of the flush, wholly or in part, changes no answer of the
tables (it changes none when the file is not one of the tables). -/
structure KVStore.Covered (s : KVStore) (d : Disk) : Prop where
  repeats : ∀ key t, t ≤ s.seq → s.memtable.getAt key t ≠ .notFound →
    KVStore.firstHit [s.memtable.getAt key t] = s.tablesAt d.tables key t
  file : s.flushTask.sstablePath ∈ s.sstablePaths → ∀ n key t, t ≤ s.seq →
    s.tablesAt (d.tables.insert s.flushTask.sstablePath
      ((sstableBytes s.memtable.entries).take n)) key t = s.tablesAt d.tables key t

/-- No read in the window sees the rotation. -/
def Process.Seamless (σ : Process) : Prop :=
  ∀ σ', σ.Pending σ' → σ'.store.flushWorker.completions = [] → ∀ key t io, t ≤ σ.store.seq →
    (σ'.store.getAt σ'.disk key t io).1 = (σ.store.getAt σ.disk key t io).1

section Seamless

variable {σ : Process}

/-- A read without an immutable memtable. -/
lemma KVStore.readAt_none {s : KVStore} (himm : s.immutable = none) (d : Disk) (key : Bytes) (t : ℕ) :
    s.readAt d key t = if s.memtable.getAt key t = .notFound then s.tablesAt d.tables key t
      else KVStore.firstHit [s.memtable.getAt key t] := by
  simp only [readAt, layers, himm, Option.toList_none, List.map_nil, List.nil_append, tablesAt]
  cases s.memtable.getAt key t <;> simp [firstHit]

/-- The file of the flush does not matter when it is not one of the tables. -/
lemma KVStore.tablesAt_congr {s : KVStore} {tables tables' : Std.ExtTreeMap Bytes Bytes}
    (h : ∀ p ∈ s.sstablePaths, tables'[p]? = tables[p]?) (key : Bytes) (t : ℕ) :
    s.tablesAt tables' key t = s.tablesAt tables key t := by
  unfold tablesAt
  congr 1
  refine List.map_congr_left fun p hp => ?_
  rw [h p (List.mem_reverse.mp hp)]

/-- The completion is not there before the worker has written the file. -/
lemma completions_rotated (s : KVStore) :
    s.rotated.flushWorker.completions = s.flushWorker.completions := by
  simp only [KVStore.rotated, FlushWorker.enqueue]
  split <;> rfl

lemma Process.work_pop {t : FlushTask} (hpc : σ.store.flushWorker.pc = .waiting)
    (ht : σ.store.flushWorker.tasks = [t]) : ∃ σ', σ.step (.work .ok) = some σ' ∧
      σ'.disk = σ.disk ∧ σ'.store.flushWorker.pc = .popped t ∧
      σ'.store.flushWorker.completions = σ.store.flushWorker.completions := by
  simp only [Process.step, Process.work, FlushWorker.step, hpc, ht, Option.map_some]
  exact ⟨_, rfl, rfl, rfl, rfl⟩

lemma Process.work_short {t : FlushTask} (hpc : σ.store.flushWorker.pc = .popped t) (n : ℕ) :
    ∃ σ', σ.step (.work (.short n)) = some σ' ∧
      σ'.disk.tables = σ.disk.tables.insert t.sstablePath ((sstableBytes t.entries).take n) ∧
      σ'.store.flushWorker.completions = σ.store.flushWorker.completions := by
  simp only [Process.step, Process.work, FlushWorker.step, hpc, Option.map_some]
  exact ⟨_, rfl, rfl, rfl⟩

/-- The worker takes the task of a rotation. -/
lemma Process.rotate_pop (hone : σ.store.OneFlush) (hrot : σ.store.Rotates)
    (hq : (σ.store.flushWorker.enqueue σ.store.flushTask).1 = true) :
    ∃ σ', σ.rotate.step (.work .ok) = some σ' ∧ σ'.disk = σ.disk ∧
      σ'.store.flushWorker.pc = .popped σ.store.flushTask ∧
      σ'.store.flushWorker.completions = [] := by
  obtain ⟨hheld, hcomp⟩ := hone.idle hrot.2.1
  have hstarted : (!σ.store.flushWorker.started || σ.store.flushWorker.stopping) = false := by
    cases h : !σ.store.flushWorker.started || σ.store.flushWorker.stopping with
    | false => rfl
    | true => simp only [FlushWorker.enqueue, h, if_true, Bool.false_eq_true] at hq
  obtain ⟨hstart, -⟩ : σ.store.flushWorker.started = true ∧ σ.store.flushWorker.stopping = false := by
    simpa using hstarted
  obtain ⟨htasks, hpc⟩ : σ.store.flushWorker.tasks = [] ∧ σ.store.flushWorker.pc = .waiting := by
    obtain ⟨-, hne⟩ := hone.runs hstart
    unfold FlushWorker.held at hheld
    cases hp : σ.store.flushWorker.pc <;> simp_all
  have hw : σ.rotate.store.flushWorker =
      { σ.store.flushWorker with tasks := [σ.store.flushTask] } := by
    rw [Process.rotate_store hrot]
    simp only [KVStore.rotated, FlushWorker.enqueue, hstarted, htasks, Bool.false_eq_true, if_false,
      List.nil_append]
  obtain ⟨σ', h, hd, hpc', hc⟩ := Process.work_pop (σ := σ.rotate) (t := σ.store.flushTask)
    (by rw [hw]; exact hpc) (by rw [hw])
  exact ⟨σ', h, hd.trans σ.rotate_frame.2.1, hpc', by rw [hc, hw]; exact hcomp⟩

/-- The worker takes the task and fails after `n` bytes of the file. -/
lemma Process.pending_short (hone : σ.store.OneFlush) (hrot : σ.store.Rotates)
    (hq : (σ.store.flushWorker.enqueue σ.store.flushTask).1 = true) (n : ℕ) :
    ∃ σ', σ.Pending σ' ∧ σ'.store.flushWorker.completions = [] ∧ σ'.disk.tables =
      σ.disk.tables.insert σ.store.flushTask.sstablePath
        ((sstableBytes σ.store.flushTask.entries).take n) := by
  obtain ⟨σ₁, h1, hd₁, hpc₁, hc₁⟩ := Process.rotate_pop hone hrot hq
  obtain ⟨σ₂, h2, hd₂, hc₂⟩ := Process.work_short hpc₁ n
  exact ⟨σ₂, .step (.step .rotated h1 (by simp)) h2 (by simp), hc₂.trans hc₁, by rw [hd₂, hd₁]⟩

end Seamless

/-- **When reads do not see a rotation.** In every process, whatever files it was opened on and
whatever its system calls did, a rotation whose task the worker accepts is not seen by any read at a
timestamp up to the rotation, until the completion is drained, exactly when the tables already
answer what the rotated memtable answers and the file of the flush is none of the tables or makes
no difference to them. -/
theorem seamless_iff {d : Disk} {io : OpenIo} {as : List Action} {σ : Process}
    (hrun : (Process.launch d io).run as = some σ) (hrot : σ.store.Rotates)
    (hq : (σ.store.flushWorker.enqueue σ.store.flushTask).1 = true) :
    σ.Seamless ↔ σ.store.Covered σ.disk := by
  have hone := run_oneFlush hrun (Process.launch_oneFlush d io)
  obtain ⟨-, hcomp⟩ := hone.idle hrot.2.1
  have hbefore : ∀ key t io, (σ.store.getAt σ.disk key t io).1 = if σ.store.memtable.getAt key t =
      .notFound then σ.store.tablesAt σ.disk.tables key t
        else KVStore.firstHit [σ.store.memtable.getAt key t] := fun key t io => by
    rw [KVStore.getAt_of_nil hcomp, KVStore.readAt_none hrot.2.1]
  -- what a read in the window says
  have hafter : ∀ σ', σ.Pending σ' → σ'.store.flushWorker.completions = [] → ∀ key t io,
      t ≤ σ.store.seq → (σ'.store.getAt σ'.disk key t io).1 =
        σ.store.tablesAt σ'.disk.tables key t := fun σ' hσ' hnil key t io ht => by
    rw [KVStore.getAt_of_nil hnil, (hσ'.window hone hrot).readAt key ht]
  constructor
  · intro h
    have hfirst : σ.rotate.store.flushWorker.completions = [] := by
      rw [Process.rotate_store hrot, completions_rotated, hcomp]
    have htables : σ.rotate.disk.tables = σ.disk.tables := by rw [σ.rotate_frame.2.1]
    have hrep : ∀ key t, t ≤ σ.store.seq → σ.store.tablesAt σ.disk.tables key t =
        (σ.store.getAt σ.disk key t .ok).1 := fun key t ht => by
      rw [← h _ .rotated hfirst key t .ok ht, hafter _ .rotated hfirst key t .ok ht, htables]
    constructor
    · intro key t ht hne
      rw [hrep key t ht, hbefore, if_neg hne]
    · intro _ n key t ht
      obtain ⟨σ', hσ', hnil, htab⟩ := Process.pending_short hone hrot hq n
      rw [hrep key t ht, ← h σ' hσ' hnil key t .ok ht, hafter σ' hσ' hnil key t .ok ht, htab]
      rfl
  · intro hc σ' hσ' hnil key t io ht
    have hw := hσ'.window hone hrot
    have hsame : σ.store.tablesAt σ'.disk.tables key t = σ.store.tablesAt σ.disk.tables key t := by
      rcases hw.file with hfile | ⟨n, hfile⟩
      · refine KVStore.tablesAt_congr (fun p _ => ?_) key t
        by_cases hp : p = σ.store.flushTask.sstablePath
        · rw [hp, hfile]
        · exact hw.other p hp
      · by_cases hmem : σ.store.flushTask.sstablePath ∈ σ.store.sstablePaths
        · rw [← hc.file hmem n key t ht]
          refine KVStore.tablesAt_congr (fun p _ => ?_) key t
          rw [Std.ExtTreeMap.getElem?_insert]
          split
          · next hp => rw [← Std.LawfulEqOrd.eq_of_compare hp, hfile]; rfl
          · next hp => exact hw.other p fun he => hp (by simp [he])
        · exact KVStore.tablesAt_congr (fun p hp => hw.other p fun he => hmem (he ▸ hp)) key t
    rw [hafter σ' hσ' hnil key t io ht, hsame, hbefore]
    split
    · rfl
    · next hne => exact (hc.repeats key t ht hne).symm

/-! ### A large value -/

/-- One version of the key `a`. -/
def oneVersion (v : Bytes) : Entries := pushVersion ∅ (text "a") ⟨1, some v⟩

lemma versionsOf_oneVersion (v key : Bytes) :
    versionsOf (oneVersion v) key = if text "a" = key then [⟨1, some v⟩] else [] := by
  rw [oneVersion, versionsOf_pushVersion]
  simp [versionsOf]

/-- **A value that is being flushed is not there.** -/
lemma put_unseen (v : Bytes) (hv : kMemTableFlushThresholdBytes ≤ v.length) :
    ∃ σ, (Process.start Disk.empty).run [.put (text "a") v] = some σ ∧ σ.store.Rotates ∧
      (σ.store.flushWorker.enqueue σ.store.flushTask).1 = true ∧ σ.Pending σ.rotate ∧
      (σ.store.getAt σ.disk (text "a") 1 .ok).1 = some v ∧
      (σ.rotate.store.getAt σ.rotate.disk (text "a") 1 .ok).1 = none := by
  set σ := (Process.start Disk.empty).put (text "a") v with hσ
  have hrun : (Process.start Disk.empty).run [.put (text "a") v] = some σ := rfl
  have hmem : σ.store.memtable = ⟨oneVersion v, 57 + v.length⟩ :=
    Process.put_memtable rfl rfl rfl v
  have himm : σ.store.immutable = none := rfl
  have hrot := rotates_of_put hv hmem himm
  have hone := run_oneFlush hrun (Process.launch_oneFlush _ _)
  refine ⟨σ, hrun, hrot, rfl, .rotated, ?_, ?_⟩
  · have hlook : σ.store.memtable.getAt (text "a") 1 = .value v := by
      rw [hmem, MemTable.getAt, lookupEntries_eq, versionsOf_oneVersion]
      simp [Version.result]
    rw [KVStore.getAt_of_nil rfl, KVStore.readAt_none himm, hlook]
    simp [KVStore.firstHit]
  · have hnil : σ.rotate.store.flushWorker.completions = [] := by
      rw [Process.rotate_store hrot, completions_rotated]
      rfl
    rw [KVStore.getAt_of_nil hnil, (Window.rotated hone hrot).readAt (text "a") (le_refl 1)]
    rfl

/-- One put of a large value, and a read of it after the rotation. -/
theorem large_value_unseen : ∃ σ,
    (Process.start Disk.empty).run [.put (text "a") largeValue] = some σ ∧ σ.store.Rotates ∧
      (σ.store.flushWorker.enqueue σ.store.flushTask).1 = true ∧ σ.Pending σ.rotate ∧
      (σ.store.getAt σ.disk (text "a") 1 .ok).1 = some largeValue ∧
      (σ.rotate.store.getAt σ.rotate.disk (text "a") 1 .ok).1 = none :=
  put_unseen largeValue (by simp [largeValue])

/-- Files with one table, which has the version already. -/
def repeatedDisk (v : Bytes) : Disk where
  snapshot := none
  wal := none
  manifest := some (replaceSstables [flushPath 0])
  tables := (∅ : Std.ExtTreeMap Bytes Bytes).insert (flushPath 0) (sstableBytes (oneVersion v))

lemma entriesOk_oneVersion {v : Bytes} (hv : Clean v) : EntriesOk (oneVersion v) := by
  refine ⟨noEmpty_empty.pushVersion _ _, fun r hr => ?_, fun key => ?_⟩
  · rcases mem_rows_pushVersion.mp hr with hr | rfl
    · simp [rows] at hr
    · exact ⟨show Word (text "a") by decide, by simp, fun x hx => Option.some.inj hx ▸ hv⟩
  · rw [versionsOf_oneVersion]
    split <;> simp [Ascending]

/-- The table answers what the memtable answers. -/
lemma put_covered (v : Bytes) (hv : kMemTableFlushThresholdBytes ≤ v.length) (hc : Clean v) :
    ∃ σ, (Process.start (repeatedDisk v)).run [.put (text "a") v] = some σ ∧ σ.store.Rotates ∧
      (σ.store.flushWorker.enqueue σ.store.flushTask).1 = true ∧ σ.store.Covered σ.disk := by
  have hload : loadSstables (repeatedDisk v).manifest = [flushPath 0] := by
    have : loadSstables (some (replaceSstables [flushPath 0])) = [flushPath 0] := by decide +kernel
    exact this
  obtain ⟨good, e⟩ := KVStore.open_few (by rw [hload]; decide)
  rw [hload] at e
  set σ := (Process.start (repeatedDisk v)).put (text "a") v with hσ
  have hstart : Process.start (repeatedDisk v) = ⟨_, _, .idle, []⟩ := congrArg
    (fun x : Bool × KVStore × Disk => (⟨x.2.1, x.2.2, .idle, []⟩ : Process)) e
  have hmem : σ.store.memtable = ⟨oneVersion v, 57 + v.length⟩ := by
    rw [hσ, hstart]
    exact Process.put_memtable rfl rfl rfl v
  have himm : σ.store.immutable = none := by rw [hσ, hstart]; rfl
  have hpaths : σ.store.sstablePaths = [flushPath 0] := by rw [hσ, hstart]; rfl
  have hnext : σ.store.nextSstableId = 1 := by rw [hσ, hstart]; rfl
  have htables : σ.disk.tables = (repeatedDisk v).tables := by rw [hσ, hstart]; rfl
  refine ⟨σ, rfl, rotates_of_put hv hmem himm, by rw [hσ, hstart]; rfl, ?_, ?_⟩
  · intro key t _ _
    have htab : σ.disk.tables[flushPath 0]? = some (sstableBytes (oneVersion v)) := by
      rw [htables, repeatedDisk, Std.ExtTreeMap.getElem?_insert_self]
    simp only [KVStore.tablesAt, hpaths, List.reverse_singleton, List.map_cons, List.map_nil, htab,
      (entriesOk_oneVersion hc).tableGetAt, hmem, MemTable.getAt]
  · intro hp
    rw [KVStore.flushTask, hnext, hpaths, List.mem_singleton] at hp
    exact absurd (flushPath_injective hp) (by decide)

/-- A put that repeats what the table has is not seen. -/
theorem repeated_value_seamless : ∃ σ,
    (Process.start (repeatedDisk largeValue)).run [.put (text "a") largeValue] = some σ ∧
      σ.store.Covered σ.disk ∧ σ.Seamless := by
  obtain ⟨σ, hrun, hrot, hq, hcov⟩ := put_covered largeValue (by simp [largeValue]) clean_largeValue
  exact ⟨σ, hrun, hcov, (seamless_iff hrun hrot hq).mpr hcov⟩

end VeriStore.Store

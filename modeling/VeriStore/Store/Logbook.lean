import VeriStore.Store.Snapshot
import VeriStore.Store.Rotation

/-!
The log of a process.

Every write is numbered and its record is buffered; a flush appends the buffer to the log file. A
checkpoint removes the file, but not the buffer. `Logbook` follows a process and remembers what
its log file began with and which write is the first one that the log has (`Logbook.Ok.step`).
-/

namespace VeriStore.Store

open VeriStore.Lib VeriStore.Sstable VeriStore.Log

open KVStore (OpenIo)

/-! ### The log of a process -/

/-- The record of a write. -/
def rowRecord (r : Row) : Record := ⟨r.2.timestamp, r.1, r.2.value⟩

/-- The writes as they stand in the log. -/
def logBytes (rs : List Row) : Bytes := encode (rs.map rowRecord)

lemma logBytes_append (rs rs' : List Row) : logBytes (rs ++ rs') = logBytes rs ++ logBytes rs' := by
  simp [logBytes]

/-- **The log of a process**: behind the bytes `found` the file has the writes from `base` to
`dur`, and the buffer has the ones behind them. Inside a checkpoint there may be no file. -/
structure Process.HasLog (σ : Process) (found : Bytes) (base dur : ℕ) : Prop where
  base_le : base ≤ dur
  dur_le : dur ≤ σ.written.length
  buffer : σ.store.wal.buffer = (σ.written.drop dur).map fun r => recordBytes (rowRecord r)
  file : σ.pc ≠ .removed → ∃ file, file = found ++ logBytes ((σ.written.take dur).drop base) ∧
    σ.store.wal.fd = some file.length ∧ σ.disk.wal = some file
  removed : σ.pc = .removed → σ.disk.wal = none ∧ dur = base ∧ found = []

/-- The log file can be written. -/
def Action.logs : Action → Bool
  | .commit .ok | .flushWal .ok => true
  | .commit _ | .flushWal _ => false
  | .reopenWal ok => ok
  | _ => true

/-- A process, what its log file began with, and the first write in its log. -/
structure Logbook where
  process : Process
  found : Bytes
  base : ℕ

namespace Logbook

def launch (d : Disk) (io : OpenIo) : Logbook := ⟨Process.launch d io, d.wal.getD [], 0⟩

/-- A new log begins with what is in the buffer. -/
def step (L : Logbook) (a : Action) : Option Logbook :=
  (L.process.step a).map fun σ =>
    match a with
    | .removeWal => ⟨σ, [], L.process.written.length - L.process.store.wal.buffer.length⟩
    | _ => ⟨σ, L.found, L.base⟩

end Logbook

section Steps

variable {σ σ' : Process} {found : Bytes} {base dur : ℕ}

/-- A step that leaves the log alone. -/
lemma Process.HasLog.quiet (h : σ.HasLog found base dur) (hw : σ'.store.wal = σ.store.wal)
    (hd : σ'.disk.wal = σ.disk.wal) (hr : σ'.written = σ.written)
    (hpc : σ'.pc = .removed ↔ σ.pc = .removed) : σ'.HasLog found base dur where
  base_le := h.base_le
  dur_le := hr ▸ h.dur_le
  buffer := by rw [hw, hr]; exact h.buffer
  file hn := by rw [hw, hr, hd]; exact h.file (fun he => hn (hpc.mpr he))
  removed he := by rw [hd]; exact h.removed (hpc.mp he)

/-- A write is buffered. -/
lemma Process.HasLog.write (h : σ.HasLog found base dur) (hpc : σ.pc = .idle) (key : Bytes)
    (value : Option Bytes) : (σ.write key value).HasLog found base dur := by
  obtain ⟨file, hf, hfd, hfile⟩ := h.file (by simp [hpc])
  unfold Process.write
  split
  · exact h
  · rw [if_neg (by simp [hfd])]
    refine ⟨h.base_le, ?_, ?_, fun _ => ⟨file, ?_, ?_, hfile⟩, by simp⟩
    · have := h.dur_le
      simp only [List.length_append]
      omega
    · simp only [KVStore.logged, h.buffer, List.drop_append_of_le_length h.dur_le, List.map_append]
      rfl
    · simp only [List.take_append_of_le_length h.dur_le]
      exact hf
    · exact hfd

/-- A flush writes all of the buffer. -/
lemma Process.HasLog.flushWal (h : σ.HasLog found base dur) (hpc : σ.pc ≠ .removed) :
    (σ.flushWal .ok).HasLog found base σ.written.length := by
  obtain ⟨file, hf, hfd, hfile⟩ := h.file hpc
  have hlog : KVStore.LogAt σ.store σ.disk file
      ((σ.written.drop dur).map fun r => recordBytes (rowRecord r)) := ⟨hfd, hfile, h.buffer⟩
  have hall : file ++ ((σ.written.drop dur).map fun r => recordBytes (rowRecord r)).flatten =
      found ++ logBytes ((σ.written.take σ.written.length).drop base) := by
    have hsplit : (σ.written.drop base) =
        (σ.written.take dur).drop base ++ σ.written.drop dur := by
      conv_lhs => rw [← List.take_append_drop dur σ.written]
      rw [List.drop_append_of_le_length]
      have := h.base_le
      have := h.dur_le
      simp only [List.length_take]
      omega
    rw [List.take_length, hsplit, logBytes_append, hf, List.append_assoc]
    simp [logBytes, encode, List.flatMap_def, Function.comp_def]
  have hle := h.base_le.trans h.dur_le
  unfold Process.flushWal
  rw [hlog.flushWal]
  refine ⟨hle, le_rfl, by simp, fun _ => ⟨_, hall, ?_, rfl⟩, by simp⟩
  rfl

lemma Process.HasLog.commit (h : σ.HasLog found base dur) (hpc : σ.pc ≠ .removed) :
    ∃ dur', (dur' = dur ∨ dur' = (σ.commit .ok).written.length) ∧
      (σ.commit .ok).HasLog found base dur' := by
  unfold Process.commit
  split
  · exact ⟨_, Or.inr rfl, h.flushWal hpc⟩
  · exact ⟨dur, Or.inl rfl, h.quiet rfl rfl rfl (by simp [hpc])⟩

/-- The log is removed; the buffer stays. -/
lemma Process.HasLog.removeWal (h : σ.HasLog found base dur) :
    σ.removeWal.HasLog [] dur dur :=
  ⟨le_rfl, h.dur_le, h.buffer, fun hn => absurd rfl hn, fun _ => ⟨rfl, rfl, rfl⟩⟩

lemma Process.HasLog.reopenWal (h : σ.HasLog found base dur) (hpc : σ.pc = .removed) :
    (σ.reopenWal true).HasLog found base dur := by
  obtain ⟨hd, rfl, rfl⟩ := h.removed hpc
  refine ⟨le_rfl, h.dur_le, h.buffer, fun _ => ⟨[], ?_, ?_, ?_⟩, fun he => ?_⟩
  · have : (σ.reopenWal true).written = σ.written := rfl
    rw [this, List.drop_take_self]
    rfl
  · simp [Process.reopenWal, Wal.open, hd]
  · simp [Process.reopenWal, Wal.open, hd]
  · simp [Process.reopenWal, Wal.open] at he

/-- The worker does not touch the log and the snapshot. -/
lemma FlushWorker.step_files {w w' : FlushWorker} {d d' : Disk} {io : WriteOutcome}
    (h : w.step d io = some (w', d')) : d'.wal = d.wal ∧ d'.snapshot = d.snapshot := by
  unfold FlushWorker.step at h
  repeat' split at h
  all_goals
    first
    | (simp at h; done)
    | (obtain ⟨-, rfl⟩ := Prod.mk.inj (Option.some.inj h)
       exact ⟨rfl, rfl⟩)

/-- The parts of a read are not parts of a checkpoint. -/
lemma Process.read_pc (σ : Process) (key : Bytes) (t : ℕ) (j : KVStore.CompactJob) :
    (∀ added, (σ.drain key t added).pc ≠ .removed) ∧ (∀ io, (σ.compact key t io).pc ≠ .removed) ∧
      (∀ ok, (σ.rename key t j ok).pc ≠ .removed) ∧ ∀ ok, (σ.replace key t j ok).pc ≠ .removed := by
  refine ⟨fun added => ?_, fun io => ?_, fun ok => ?_, fun ok => ?_⟩
  · unfold Process.drain
    split
    · simp
    · cases added <;> simp
  · unfold Process.compact
    repeat' split
    all_goals simp
  · unfold Process.rename
    split <;> simp
  · unfold Process.replace
    split <;> simp

/-- **The steps of the log**: all but the removal keep the first write, and a step flushes
everything or nothing. -/
lemma Process.Effect.hasLog {a : Action} (he : σ.Effect a σ') (ha : a.logs = true)
    (h : σ.HasLog found base dur) (hne : a ≠ .removeWal) :
    ∃ dur', (dur' = dur ∨ dur' = σ'.written.length) ∧ σ'.HasLog found base dur' := by
  cases he with
  | put key value hpc => exact ⟨dur, Or.inl rfl, h.write hpc key _⟩
  | del key hpc =>
    refine ⟨dur, Or.inl rfl, ?_⟩
    unfold Process.del
    split
    · exact h.write hpc key _
    · exact h
  | rotate hpc =>
    obtain ⟨hs, hd, hw, hpc'⟩ := σ.rotate_frame
    obtain ⟨m, i, n, w, hf⟩ := σ.store.maybeFlushMemtable_frame
    refine ⟨dur, Or.inl rfl, h.quiet (by rw [hs, hf]) (by rw [hd]) hw ?_⟩
    rcases hpc' with hpc' | hpc' <;> simp [hpc, hpc']
  | commit io hpc =>
    cases io with
    | ok => exact h.commit (by simp [hpc])
    | writeFails | syncFails => simp [Action.logs] at ha
  | flushWal io hpc =>
    cases io with
    | ok => exact ⟨_, Or.inr rfl, h.flushWal (by simp [hpc])⟩
    | writeFails | syncFails => simp [Action.logs] at ha
  | setGroupCommitEvery n hpc => exact ⟨dur, Or.inl rfl, h.quiet rfl rfl rfl Iff.rfl⟩
  | getAt key t hpc => exact ⟨dur, Or.inl rfl, h.quiet rfl rfl rfl (by simp [hpc])⟩
  | drain key t added hpc =>
    obtain ⟨paths, i, w, pc, e⟩ := σ.drain_frame key t added
    have hn := (σ.read_pc key t ⟨[], [], [], []⟩).1 added
    rw [e] at hn ⊢
    exact ⟨dur, Or.inl rfl, h.quiet rfl rfl rfl (by simpa [hpc] using hn)⟩
  | compact key t io hpc =>
    obtain ⟨paths, n, m, tb, pc, e⟩ := σ.compact_frame key t io
    have hn := (σ.read_pc key t ⟨[], [], [], []⟩).2.1 io
    rw [e] at hn ⊢
    exact ⟨dur, Or.inl rfl, h.quiet rfl rfl rfl (by simpa [hpc] using hn)⟩
  | rename key t j ok hpc =>
    obtain ⟨tb, pc, e⟩ := σ.rename_frame key t j ok
    have hn := (σ.read_pc key t j).2.2.1 ok
    rw [e] at hn ⊢
    exact ⟨dur, Or.inl rfl, h.quiet rfl rfl rfl (by simpa [hpc] using hn)⟩
  | replace key t j ok hpc =>
    obtain ⟨m, tb, pc, e⟩ := σ.replace_frame key t j ok
    have hn := (σ.read_pc key t j).2.2.2 ok
    rw [e] at hn ⊢
    exact ⟨dur, Or.inl rfl, h.quiet rfl rfl rfl (by simpa [hpc] using hn)⟩
  | finish key t j hpc => exact ⟨dur, Or.inl rfl, h.quiet rfl rfl rfl (by simp [hpc, Process.finish])⟩
  | read key t hpc => exact ⟨dur, Or.inl rfl, h.quiet rfl rfl rfl (by simp [hpc])⟩
  | save io hpc =>
    obtain ⟨x, pc, e, hpc'⟩ := σ.save_frame io
    rw [e]
    refine ⟨dur, Or.inl rfl, h.quiet rfl rfl rfl ?_⟩
    rcases hpc' with rfl | rfl <;> simp [hpc]
  | removeWal hpc => exact absurd rfl hne
  | reopenWal ok hpc =>
    have hok : ok = true := ha
    subst hok
    exact ⟨dur, Or.inl rfl, h.reopenWal hpc⟩
  | work io _ hw =>
    obtain ⟨w, d, hstep, rfl⟩ := Process.work_frame hw
    exact ⟨dur, Or.inl rfl, h.quiet rfl (FlushWorker.step_files hstep).1 rfl Iff.rfl⟩

/-- The flags of the worker are as before. -/
def FlushWorker.SameFlags (w w' : FlushWorker) : Prop :=
  w'.started = w.started ∧ w'.stopping = w.stopping

lemma FlushWorker.SameFlags.refl (w : FlushWorker) : w.SameFlags w := ⟨rfl, rfl⟩

lemma FlushWorker.enqueue_flags (w : FlushWorker) (t : FlushTask) :
    w.SameFlags (w.enqueue t).2 := by
  unfold FlushWorker.enqueue
  split
  · exact .refl w
  · exact ⟨rfl, rfl⟩

lemma FlushWorker.pollCompletion_flags {w : FlushWorker} {x : Bytes × FlushWorker}
    (h : w.pollCompletion = some x) : w.SameFlags x.2 := by
  unfold FlushWorker.pollCompletion at h
  split at h
  · simp at h
  · obtain rfl := Option.some.inj h
    exact ⟨rfl, rfl⟩

/-- The store stays open, the worker running, and the log open outside of a checkpoint. -/
structure Process.Alive (σ σ' : Process) (a : Action) : Prop where
  opened : σ'.store.opened = σ.store.opened
  flags : σ.store.flushWorker.SameFlags σ'.store.flushWorker
  fd : a ≠ .removeWal → (∀ ok, a ≠ .reopenWal ok) →
    σ'.store.wal.fd.isSome = σ.store.wal.fd.isSome

/-- **Every step** keeps the store alive. -/
lemma Process.Effect.alive {a : Action} (he : σ.Effect a σ') : σ.Alive σ' a := by
  have hwrite : ∀ key value, σ.Alive (σ.write key value) a := by
    intro key value
    unfold Process.write
    split
    · exact ⟨rfl, .refl _, fun _ _ => rfl⟩
    · split
      · exact ⟨rfl, .refl _, fun _ _ => rfl⟩
      · obtain ⟨m, n, w, hl⟩ := σ.store.logged_frame ⟨σ.store.seq + 1, key, value⟩
        refine ⟨by rw [hl], ?_, fun _ _ => rfl⟩
        rw [hl]
        exact .refl _
  cases he with
  | put key value => exact hwrite _ _
  | del key =>
    unfold Process.del
    split
    · exact hwrite _ _
    · exact ⟨rfl, .refl _, fun _ _ => rfl⟩
  | rotate =>
    have hrotate := σ.rotate_frame.1
    rcases σ.store.maybeFlushMemtable_cases with ⟨ok, e⟩ | ⟨-, e⟩ | ⟨-, e⟩
    · rw [e] at hrotate
      exact ⟨by rw [hrotate], by rw [hrotate]; exact .refl _, fun _ _ => by rw [hrotate]⟩
    · rw [e] at hrotate
      exact ⟨by rw [hrotate], by rw [hrotate]; exact .refl _, fun _ _ => by rw [hrotate]⟩
    · rw [e] at hrotate
      refine ⟨by rw [hrotate]; rfl, ?_, fun _ _ => by rw [hrotate]; rfl⟩
      rw [hrotate]
      exact FlushWorker.enqueue_flags _ _
  | flushWal io =>
    exact ⟨rfl, .refl _, fun _ _ => σ.store.wal.flush_isSome (σ.disk.wal.getD []) io⟩
  | commit io =>
    unfold Process.commit
    split
    · exact ⟨rfl, .refl _, fun _ _ => σ.store.wal.flush_isSome (σ.disk.wal.getD []) io⟩
    · exact ⟨rfl, .refl _, fun _ _ => rfl⟩
  | drain key t added =>
    unfold Process.drain KVStore.drainOne
    cases hp : σ.store.flushWorker.pollCompletion with
    | none => exact ⟨rfl, .refl _, fun _ _ => rfl⟩
    | some x => exact ⟨rfl, FlushWorker.pollCompletion_flags hp, fun _ _ => rfl⟩
  | compact key t io =>
    obtain ⟨paths, n, m, tb, pc, e⟩ := σ.compact_frame key t io
    rw [e]
    exact ⟨rfl, .refl _, fun _ _ => rfl⟩
  | rename key t j ok =>
    obtain ⟨tb, pc, e⟩ := σ.rename_frame key t j ok
    rw [e]
    exact ⟨rfl, .refl _, fun _ _ => rfl⟩
  | replace key t j ok =>
    obtain ⟨m, tb, pc, e⟩ := σ.replace_frame key t j ok
    rw [e]
    exact ⟨rfl, .refl _, fun _ _ => rfl⟩
  | save io =>
    obtain ⟨x, pc, e, -⟩ := σ.save_frame io
    rw [e]
    exact ⟨rfl, .refl _, fun _ _ => rfl⟩
  | removeWal => exact ⟨rfl, .refl _, fun h => absurd rfl h⟩
  | reopenWal ok => exact ⟨rfl, .refl _, fun _ h => absurd rfl (h ok)⟩
  | work io _ hw =>
    obtain ⟨w, d, hstep, rfl⟩ := Process.work_frame hw
    have hm := FlushWorker.step_moves hstep
    exact ⟨rfl, ⟨hm.started, hm.stopping⟩, fun _ _ => rfl⟩
  | setGroupCommitEvery | getAt | finish | read => exact ⟨rfl, .refl _, fun _ _ => rfl⟩

end Steps

namespace Logbook

/-- The process is alive and its log is as the book says. -/
structure Ok (L : Logbook) : Prop where
  opened : L.process.store.opened = true
  log : ∃ dur, L.process.HasLog L.found L.base dur

lemma launch_ok {d : Disk} {io : OpenIo} (h : (KVStore.new.open d io).1 = true) :
    (launch d io).Ok := by
  obtain ⟨-, good, e⟩ := KVStore.open_true h
  obtain ⟨b, paths, n, w, m, t, hf⟩ := (KVStore.recovered d good).openTables_frame
    { d with wal := some (d.wal.getD []) } io
  refine ⟨?_, 0, ?_⟩
  · simp only [launch, Process.launch, e, hf]
    rfl
  · unfold launch Process.launch
    rw [e, hf]
    exact ⟨le_rfl, by simp, by simp [KVStore.recovered], fun _ => ⟨_, rfl, by
      simp [KVStore.recovered, logBytes], by simp [logBytes]⟩, by simp⟩

/-- **One step of a log book.** -/
lemma Ok.step {L L' : Logbook} {a : Action} (h : L.Ok) (ha : a.logs = true)
    (hs : L.step a = some L') : L'.Ok := by
  obtain ⟨σ', hstep, hL⟩ := Option.map_eq_some_iff.mp hs
  have he := Process.step_effect hstep
  have ho := he.alive.opened
  obtain ⟨dur, hlog⟩ := h.log
  have hbase : L.process.written.length - L.process.store.wal.buffer.length = dur := by
    have := hlog.dur_le
    rw [hlog.buffer, List.length_map, List.length_drop]
    omega
  have halive : L'.process = σ' → (∃ dur', σ'.HasLog L'.found L'.base dur') → L'.Ok := by
    rintro rfl hlog'
    exact ⟨ho.trans h.opened, hlog'⟩
  split at hL
  · subst hL
    cases he
    exact halive rfl ⟨dur, hbase ▸ hlog.removeWal⟩
  · next hr =>
    subst hL
    obtain ⟨dur', -, hlog'⟩ := he.hasLog ha hlog fun e => hr e
    exact halive rfl ⟨dur', hlog'⟩

end Logbook

end VeriStore.Store

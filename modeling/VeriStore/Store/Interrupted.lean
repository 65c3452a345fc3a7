import VeriStore.Store.Checkpoint
import VeriStore.Store.Timestamps

/-!
A crash inside a checkpoint.

A checkpoint writes the snapshot over the old one, and then it removes the log. A crash leaves the
first bytes of the new snapshot with the log, the whole snapshot with the log, or the snapshot
without the log. `open` loads the rows of the snapshot that are there, the last value perhaps cut,
and then applies the log: a row is not seen if the log has a version of its key that is not newer
(`restores_of_logged`). A log that begins behind an earlier checkpoint does not.

`Ledger` follows a process and counts its durable writes: those flushed to the log and those that a
completed checkpoint covers.

* `interrupted_restores` — where the log has the first write of every key, a crash inside a
  checkpoint leaves a prefix of the writes with all durable ones;
* `interrupted_checkpoint_loses` — a second checkpoint that loses what the first one saved.
-/

namespace VeriStore.Store

open VeriStore.Lib VeriStore.Sstable VeriStore.Log

/-! ### Restored states -/

/-- **The store has the state behind the writes `rs`**: the map, and the version that a search in
the memtable finds at any timestamp. -/
structure Restores (s : KVStore) (rs : List Row) : Prop where
  map : ∀ key, s.get key = (versionsIn rs key).getLast?.bind Version.value
  versions : ∀ key t, lastVisible Version.timestamp (versionsOf s.memtable.entries key) t =
    lastVisible Version.timestamp (versionsIn rs key) t

/-- **Rows of an old snapshot in front of the log** are not seen where the log has a version of
their key that is not newer. -/
lemma restores_of_logged {s : KVStore} {js ws : List Row}
    (h : Contents s.map s.memtable.entries (js ++ ws))
    (hj : ∀ r ∈ js, ∃ w ∈ ws, w.1 = r.1 ∧ w.2.timestamp ≤ r.2.timestamp) : Restores s ws := by
  have hold : ∀ key, ∀ v ∈ versionsIn js key, ∃ w ∈ versionsIn ws key, w.timestamp ≤ v.timestamp := by
    intro key v hv
    obtain ⟨⟨_, w⟩, hw, rfl, hle⟩ := hj _ (mem_versionsIn.mp hv)
    exact ⟨w, mem_versionsIn.mpr hw, hle⟩
  refine ⟨fun key => ?_, fun key t => ?_⟩
  · rw [KVStore.get, h.map, versionsIn_append, List.getLast?_append]
    cases hw : versionsIn ws key with
    | cons w l =>
      obtain ⟨x, hx⟩ : ∃ x, (w :: l).getLast? = some x := ⟨_, List.getLast?_eq_some_getLast (by simp)⟩
      rw [hx, Option.some_or]
    | nil =>
      have hnil : versionsIn js key = [] := by
        refine List.eq_nil_iff_forall_not_mem.mpr fun v hv => ?_
        obtain ⟨w, hm, -⟩ := hold key v hv
        rw [hw] at hm
        simp at hm
      rw [hnil]
      rfl
  · rw [h.versionsOf_eq, versionsIn_append]
    exact lastVisible_append_of_le (hold key) t

/-! ### A part of a snapshot -/

lemma mem_cutRow {r c : Row} {n : ℕ} (h : c ∈ cutRow r n) :
    c.1 = r.1 ∧ c.2.timestamp = r.2.timestamp := by
  unfold cutRow at h
  split at h
  · split at h
    · rw [List.mem_singleton.mp h]
      exact ⟨rfl, rfl⟩
    · simp at h
  · simp at h

/-- A row that is loaded from a part of a snapshot has the key and the timestamp of a row of the
snapshot. -/
lemma mem_loaded {rs : List Row} {n : ℕ} {c : Row} (h : c ∈ wholeRows rs n ++ cutRows rs n) :
    ∃ r ∈ rs, c.1 = r.1 ∧ c.2.timestamp = r.2.timestamp := by
  induction rs generalizing n with
  | nil => simp [wholeRows, cutRows] at h
  | cons r rs ih =>
    rw [wholeRows, cutRows] at h
    split at h
    · rcases List.mem_cons.mp h with rfl | h
      · exact ⟨_, by simp, rfl, rfl⟩
      · obtain ⟨r', hr', he⟩ := ih h
        exact ⟨r', List.mem_cons_of_mem r hr', he⟩
    · exact ⟨r, by simp, mem_cutRow h⟩

/-- **A part of a snapshot is loaded.** -/
lemma loadedSnapshot_take {d : Disk} {rs : List Row} {n : ℕ}
    (h : d.snapshot.getD [] = (rowsBytes rs).take n) (hok : ∀ r ∈ rs, LineOk r) :
    Contents (loadedSnapshot d).map (loadedSnapshot d).memtable.entries
      (wholeRows rs n ++ cutRows rs n) := by
  have hnil : Contents (⟨∅, MemTable.empty, KVStore.new.seq⟩ : LoadState).map
      (⟨∅, MemTable.empty, KVStore.new.seq⟩ : LoadState).memtable.entries [] := .nil
  have hload := loadLines_take hok n ⟨∅, MemTable.empty, KVStore.new.seq⟩
  have hrows := hnil.rows (wholeRows rs n ++ cutRows rs n)
  rw [← hload, List.nil_append, ← h] at hrows
  cases hs : d.snapshot with
  | none =>
    rw [hs] at hrows
    rw [loadedSnapshot, hs]
    exact hrows
  | some content =>
    rw [hs] at hrows
    rw [loadedSnapshot, hs]
    exact hrows

/-! ### Below the flush threshold -/

/-- The mutation of a write. -/
def rowMutation (r : Row) : Mutation := ⟨r.1, r.2.value⟩

/-- What the writes add to the size of the memtable. -/
def writtenBytes (rs : List Row) : ℕ := historyBytes (rs.map rowMutation)

lemma writtenBytes_concat (rs : List Row) (r : Row) :
    writtenBytes (rs ++ [r]) = writtenBytes rs + (rowMutation r).bytes := by
  rw [writtenBytes, List.map_append, List.map_singleton, historyBytes_concat]
  rfl

lemma writtenBytes_mono {rs rs' : List Row} (h : rs <+: rs') : writtenBytes rs ≤ writtenBytes rs' :=
  historyBytes_mono (h.map rowMutation)

lemma length_le_writtenBytes (rs : List Row) : rs.length ≤ writtenBytes rs := by
  have h := length_le_historyBytes (rs.map rowMutation)
  rwa [List.length_map] at h

lemma bytes_le_writtenBytes {rs : List Row} {r : Row} (h : r ∈ rs) :
    (rowMutation r).bytes ≤ writtenBytes rs :=
  List.le_sum_of_mem (List.mem_map_of_mem (List.mem_map_of_mem h))

/-- **All writes are in the memtable**: nothing was rotated, and the writes are numbered. -/
structure Process.Unrotated (σ : Process) : Prop where
  opened : σ.store.opened = true
  contents : Contents σ.store.map σ.store.memtable.entries σ.written
  size : σ.store.memtable.approximateSizeBytes = writtenBytes σ.written
  seq : σ.store.seq = σ.written.length
  numbered : ∀ i r, σ.written[i]? = some r → r.2.timestamp = i + 1

section Unrotated

variable {σ σ' : Process} {a : Action}

lemma Process.Effect.written_grows (he : σ.Effect a σ') : σ.written <+: σ'.written := by
  rcases he.map_cases with ⟨-, hw⟩ | ⟨key, value, -, hw⟩
  · rw [hw]
  · exact ⟨_, hw.symm⟩

lemma Process.Unrotated.write (h : σ.Unrotated) (key : Bytes) (value : Option Bytes)
    (hfd : σ.store.wal.fd.isSome) : (σ.write key value).Unrotated := by
  have hrow := σ.store.applyRecord_eq ⟨σ.store.seq + 1, key, value⟩
  have hsize : (σ.store.applyRecord ⟨σ.store.seq + 1, key, value⟩).memtable.approximateSizeBytes =
      σ.store.memtable.approximateSizeBytes + (rowMutation (key, ⟨σ.store.seq + 1, value⟩)).bytes := by
    cases value with
    | none => simp [KVStore.applyRecord, MemTable.del, rowMutation, Mutation.bytes]
    | some v => simp [KVStore.applyRecord, MemTable.put, rowMutation, Mutation.bytes]
  unfold Process.write
  rw [if_neg (by simp [h.opened]), if_neg (by simpa [Option.isSome_iff_ne_none] using hfd)]
  refine ⟨?_, ?_, ?_, ?_, ?_⟩
  · rw [KVStore.logged_opened]
    exact h.opened
  · simp only [KVStore.logged_map, KVStore.logged_memtable, hrow]
    exact h.contents.push _
  · rw [KVStore.logged_memtable, hsize, writtenBytes_concat, h.size]
  · rw [KVStore.logged_seq, h.seq, List.length_append, List.length_singleton]
  · intro i r hr
    rw [List.getElem?_append] at hr
    split at hr
    · exact h.numbered i r hr
    · next hi =>
      obtain ⟨hi', hr⟩ := List.getElem?_eq_some_iff.mp hr
      rw [List.length_singleton] at hi'
      simp only [show i - σ.written.length = 0 by omega, List.getElem_cons_zero] at hr
      rw [← hr, h.seq]
      show σ.written.length + 1 = i + 1
      omega

/-- **A step below the threshold** rotates nothing. -/
lemma Process.Unrotated.effect (h : σ.Unrotated) (he : σ.Effect a σ')
    (hfd : σ.pc = .idle → σ.store.wal.fd.isSome)
    (hb : writtenBytes σ'.written < kMemTableFlushThresholdBytes) : σ'.Unrotated := by
  have hopened := he.alive.opened.trans h.opened
  rcases he.write_or_rotate with ⟨key, value, hpc, rfl, -⟩ | ⟨-, rfl⟩ | ⟨h1, h2, h3, h4⟩
  · exact h.write key value (hfd hpc)
  · obtain ⟨hs, -, hw, -⟩ := σ.rotate_frame
    have hbelow : σ.store.memtable.approximateSizeBytes < kMemTableFlushThresholdBytes := by
      rw [h.size, ← hw]
      exact hb
    rw [KVStore.maybeFlushMemtable_below hbelow] at hs
    refine ⟨hopened, ?_, ?_, ?_, ?_⟩
    · rw [hs, hw]
      exact h.contents
    · rw [hs, hw]
      exact h.size
    · rw [hs, hw]
      exact h.seq
    · rw [hw]
      exact h.numbered
  · refine ⟨hopened, ?_, ?_, ?_, ?_⟩
    · rw [h1, h2, h4]
      exact h.contents
    · rw [h2, h4]
      exact h.size
    · rw [h3, h4]
      exact h.seq
    · rw [h4]
      exact h.numbered

/-- The records of short writes fit. -/
lemma Process.Unrotated.fits (h : σ.Unrotated)
    (hb : writtenBytes σ.written < kMemTableFlushThresholdBytes) :
    ∀ r ∈ σ.written, (rowRecord r).Fits := by
  intro r hr
  have hbytes := bytes_le_writtenBytes hr
  obtain ⟨i, hi, hri⟩ := List.getElem_of_mem hr
  have hts := h.numbered i r (by rw [List.getElem?_eq_getElem hi, hri])
  have hlen := length_le_writtenBytes σ.written
  simp only [rowMutation, Mutation.bytes] at hbytes
  unfold kMemTableFlushThresholdBytes at hb
  refine ⟨?_, ?_, ?_⟩
  · show r.1.length < 2 ^ 32
    omega
  · show (r.2.value.getD []).length < 2 ^ 32
    omega
  · show r.2.timestamp < 2 ^ 64
    omega

end Unrotated

/-! ### Durable writes -/

/-- A process and the number of its writes that are durable. -/
structure Ledger where
  process : Process
  durable : ℕ

namespace Ledger

def start : Ledger := ⟨Process.start Disk.empty, 0⟩

/-- A flush of the log makes every write durable, and so does the end of a checkpoint. -/
def step (L : Ledger) (a : Action) : Option Ledger :=
  (L.process.step a).map fun σ =>
    match a with
    | .reopenWal true => ⟨σ, σ.written.length⟩
    | _ => ⟨σ, if σ.store.wal.buffer = [] then σ.written.length else L.durable⟩

def run (L : Ledger) (as : List Action) : Option Ledger := as.foldlM step L

/-- The process holds all its writes, the log has the durable ones unless a checkpoint emptied it,
and the snapshot is a part of one of a former state. -/
structure Ok (L : Ledger) : Prop where
  unrotated : L.process.Unrotated
  durable_le : L.durable ≤ L.process.written.length
  log : ∃ base dur, L.process.HasLog [] base dur ∧ (L.durable ≤ dur ∨ dur = base)
  snapshot : ∃ ws n, ws <+: L.process.written ∧
    L.process.disk.snapshot.getD [] = (saveToFile (pushRows ∅ ws)).take n

end Ledger

/-- The descriptor of the log is open between the calls. -/
lemma Process.HasLog.fd_isSome {σ : Process} {found : Bytes} {base dur : ℕ}
    (h : σ.HasLog found base dur) (hpc : σ.pc = .idle) : σ.store.wal.fd.isSome := by
  obtain ⟨_, -, hfd, -⟩ := h.file (by simp [hpc])
  simp [hfd]

lemma Process.Effect.removeWal_eq {σ σ' : Process} (he : σ.Effect .removeWal σ') :
    σ' = σ.removeWal := by
  cases he
  rfl

lemma Process.Effect.pc_of_reopenWal {σ σ' : Process} {ok : Bool}
    (he : σ.Effect (.reopenWal ok) σ') : σ.pc = .removed := by
  cases he
  assumption

/-- The snapshot file of a save is a part of the snapshot, or the old one. -/
lemma saveToFileUnlocked_cases (file : Option Bytes) (e : Entries) (io : SaveOutcome) :
    (saveToFileUnlocked file e io).2 = file ∨
      ∃ n, (saveToFileUnlocked file e io).2 = some ((saveToFile e).take n) := by
  cases io with
  | ok => exact Or.inr ⟨(saveToFile e).length, by rw [List.take_length]; rfl⟩
  | refused => exact Or.inl rfl
  | short n => exact Or.inr ⟨n, rfl⟩
  | lost n => exact Or.inr ⟨n, rfl⟩

/-- **The snapshot of a step** is a part of that of the memtable, or it is the old one. -/
lemma Process.Effect.snapshot_cases {σ σ' : Process} {a : Action} (he : σ.Effect a σ') :
    σ'.disk.snapshot = σ.disk.snapshot ∨
      ∃ n, σ'.disk.snapshot = some ((saveToFile σ.store.memtable.entries).take n) := by
  cases ha : a.ofCheckpoint with
  | false => exact Or.inl (he.snapshot_eq ha)
  | true =>
    cases he with
    | save io =>
      unfold Process.save
      split
      · exact Or.inl rfl
      · have hcases := saveToFileUnlocked_cases σ.disk.snapshot σ.store.memtable.entries io
        split
        all_goals
          next hsave =>
          rw [hsave] at hcases
          exact hcases
    | removeWal | reopenWal => exact Or.inl rfl
    | _ => simp [Action.ofCheckpoint] at ha

namespace Ledger

lemma start_ok : start.Ok := by
  have hopen : (KVStore.new.open Disk.empty .ok).1 = true := rfl
  obtain ⟨dur, hlog⟩ := (Logbook.launch_ok hopen).log
  refine ⟨⟨rfl, .nil, rfl, rfl, ?_⟩, le_rfl, ⟨0, dur, hlog, Or.inl (Nat.zero_le dur)⟩, [], 0,
    List.nil_prefix, rfl⟩
  intro i r hr
  simp [start, Process.start, Process.launch] at hr

lemma step_cases {L L' : Ledger} {a : Action} (hs : L.step a = some L') :
    L.process.Effect a L'.process ∧
      ((a = .reopenWal true ∧ L'.durable = L'.process.written.length) ∨
        L'.durable =
          if L'.process.store.wal.buffer = [] then L'.process.written.length else L.durable) := by
  obtain ⟨σ', hstep, hL⟩ := Option.map_eq_some_iff.mp hs
  have he := Process.step_effect hstep
  split at hL
  · subst hL
    exact ⟨he, Or.inl ⟨rfl, rfl⟩⟩
  · subst hL
    exact ⟨he, Or.inr rfl⟩

/-- **One step of a ledger.** -/
lemma Ok.step {L L' : Ledger} {a : Action} (h : L.Ok) (ha : a.logs = true)
    (hs : L.step a = some L')
    (hb : writtenBytes L'.process.written < kMemTableFlushThresholdBytes) : L'.Ok := by
  obtain ⟨he, hdurable⟩ := step_cases hs
  obtain ⟨base, dur, hlog, hdur⟩ := h.log
  have hpre := he.written_grows
  have hle := hpre.length_le
  have hlog' : ∃ base' dur', L'.process.HasLog [] base' dur' ∧
      ((dur' = dur ∧ base' = base) ∨ dur' = L'.process.written.length ∨ dur' = base') := by
    by_cases hr : a = .removeWal
    · subst hr
      exact ⟨dur, dur, he.removeWal_eq ▸ hlog.removeWal, Or.inr (Or.inr rfl)⟩
    · obtain ⟨dur', hd, hlog'⟩ := he.hasLog ha hlog hr
      exact ⟨base, dur', hlog', hd.imp (fun e => ⟨e, rfl⟩) Or.inl⟩
  obtain ⟨base', dur', hlog', hd⟩ := hlog'
  -- an empty buffer means that everything is in the log
  have hempty : L'.process.store.wal.buffer = [] → L'.process.written.length ≤ dur' := by
    intro hbuf
    have hb := hlog'.buffer
    rw [hbuf] at hb
    exact List.drop_eq_nil_iff.mp (List.map_eq_nil_iff.mp hb.symm)
  refine ⟨?_, ?_, ⟨base', dur', hlog', ?_⟩, ?_⟩
  · exact h.unrotated.effect he (fun hpc => hlog.fd_isSome hpc) hb
  · rcases hdurable with ⟨-, e⟩ | e
    · exact e.le
    · rw [e]
      have := h.durable_le
      split <;> omega
  · rcases hdurable with ⟨rfl, e⟩ | e
    · obtain ⟨-, rfl, -⟩ := hlog.removed he.pc_of_reopenWal
      rcases hd with ⟨rfl, rfl⟩ | hd | hd
      · exact Or.inr rfl
      · exact Or.inl (by omega)
      · exact Or.inr hd
    · split at e
      · next hbuf => exact Or.inl (by have := hempty hbuf; omega)
      · rcases hd with ⟨rfl, rfl⟩ | hd | hd
        · rwa [e]
        · have := h.durable_le
          exact Or.inl (by omega)
        · exact Or.inr hd
  · obtain ⟨ws, n, hws, hsnap⟩ := h.snapshot
    rcases he.snapshot_cases with e | ⟨m, e⟩
    · exact ⟨ws, n, hws.trans hpre, by rw [e, hsnap]⟩
    · exact ⟨L.process.written, m, hpre, by rw [e, h.unrotated.contents.entries]; rfl⟩

/-- **The ledger of every run** below the threshold. -/
lemma run_ok {as : List Action} {L : Ledger} (hrun : start.run as = some L)
    (ha : ∀ a ∈ as, a.logs = true)
    (hb : writtenBytes L.process.written < kMemTableFlushThresholdBytes) : L.Ok := by
  induction as using List.reverseRecOn generalizing L with
  | nil =>
    obtain rfl := Option.some.inj hrun
    exact start_ok
  | append_singleton as a ih =>
    unfold run at hrun
    rw [List.foldlM_append] at hrun
    obtain ⟨L₁, h1, h2⟩ := Option.bind_eq_some_iff.mp hrun
    have hs : L₁.step a = some L := by simpa using h2
    have hb₁ := (writtenBytes_mono (step_cases hs).1.written_grows).trans_lt hb
    exact (ih h1 (fun b hm => ha b (List.mem_append_left _ hm)) hb₁).step (ha a (by simp)) hs hb

end Ledger

/-! ### The main result -/

/-- **The files of a crash inside a checkpoint**: before the snapshot is opened, behind some of its
bytes, before and after the removal of the log, and at the end. -/
inductive CheckpointCrash (σ : Process) : Disk → Prop
  | begun : CheckpointCrash σ σ.disk
  | saving (n : ℕ) : CheckpointCrash σ (σ.save (.short n)).disk
  | saved : CheckpointCrash σ (σ.save .ok).disk
  | removed : CheckpointCrash σ (σ.save .ok).removeWal.disk
  | reopened : CheckpointCrash σ ((σ.save .ok).removeWal.reopenWal true).disk

/-- **The log and the snapshot can restore the writes**: a line can hold each of them, and the log
file has the first one of every key. -/
structure Process.Restorable (σ : Process) : Prop where
  line : ∀ r ∈ σ.written, tab ∉ r.1 ∧ newline ∉ r.1 ∧ ∀ x, r.2.value = some x → newline ∉ x
  logged : ∀ r ∈ σ.written, ∃ w ∈ records (σ.disk.wal.getD []),
    w.key = r.1 ∧ w.seq ≤ r.2.timestamp

section Crash

variable {σ : Process} {d : Disk}

/-- A crash leaves the log and a part of a snapshot, or the snapshot alone. -/
lemma CheckpointCrash.cases (h : CheckpointCrash σ d) (ho : σ.store.opened = true) :
    (d.wal = σ.disk.wal ∧ (d.snapshot = σ.disk.snapshot ∨
      ∃ n, d.snapshot = some ((saveToFile σ.store.memtable.entries).take n))) ∨
    (d.wal.getD [] = [] ∧ d.snapshot = some (saveToFile σ.store.memtable.entries)) := by
  have hsave : (σ.save .ok).disk =
      { σ.disk with snapshot := some (saveToFile σ.store.memtable.entries) } := by
    simp [Process.save, saveToFileUnlocked, ho]
  cases h with
  | begun => exact Or.inl ⟨rfl, Or.inl rfl⟩
  | saving n => exact Or.inl ⟨by simp [Process.save, saveToFileUnlocked, ho], Or.inr ⟨n, by simp [Process.save, saveToFileUnlocked, ho]⟩⟩
  | saved =>
    rw [hsave]
    exact Or.inl ⟨rfl, Or.inr ⟨_, by rw [List.take_length]⟩⟩
  | removed => exact Or.inr ⟨rfl, congrArg Disk.snapshot hsave⟩
  | reopened => exact Or.inr ⟨rfl, congrArg Disk.snapshot hsave⟩

/-- A snapshot can hold the writes. -/
lemma Process.Restorable.lineOk (h : σ.Restorable) (hfits : ∀ r ∈ σ.written, (rowRecord r).Fits) :
    ∀ r ∈ σ.written, LineOk r := fun r hr =>
  ⟨(h.line r hr).1, (h.line r hr).2.1, (hfits r hr).2.2, (h.line r hr).2.2⟩

/-- The log file has the first writes. -/
lemma Process.HasLog.records_wal {base dur : ℕ} (h : σ.HasLog [] base dur) (hpc : σ.pc = .idle)
    (hfits : ∀ r ∈ σ.written, (rowRecord r).Fits) :
    records (σ.disk.wal.getD []) = ((σ.written.take dur).drop base).map rowRecord := by
  obtain ⟨file, hf, -, hfile⟩ := h.file (by simp [hpc])
  rw [hfile, Option.getD_some, hf, List.nil_append, records_logBytes]
  exact fun r hr => hfits r (List.mem_of_mem_take (List.mem_of_mem_drop hr))

/-- **The log begins with the first write** when it has the first one of every key. -/
lemma Process.Restorable.base_eq {base dur : ℕ} (h : σ.Restorable) (hu : σ.Unrotated)
    (hrec : records (σ.disk.wal.getD []) = ((σ.written.take dur).drop base).map rowRecord)
    (hne : σ.written ≠ []) : base = 0 ∧ 0 < dur := by
  obtain ⟨r, rs, hw⟩ := List.exists_cons_of_ne_nil hne
  have hts := hu.numbered 0 r (by rw [hw]; rfl)
  obtain ⟨w, hw, -, hle⟩ := h.logged r (by rw [hw]; simp)
  rw [hrec] at hw
  obtain ⟨r', hr', rfl⟩ := List.mem_map.mp hw
  obtain ⟨i, hi, hget⟩ := List.getElem_of_mem hr'
  simp only [List.length_drop, List.length_take] at hi
  rw [List.getElem_drop, List.getElem_take] at hget
  have hts' := hu.numbered (base + i) r' (by rw [← hget, List.getElem?_eq_getElem])
  have hle' : r'.2.timestamp ≤ r.2.timestamp := hle
  omega

end Crash

/-- **A crash inside a checkpoint.** In every run from empty files whose writes stay below the
flush threshold and in which the log can be written: where the log file has the first write of
every key and a line can hold every write, a crash at any point of a checkpoint leaves files from
which `open` restores a prefix of the writes, with all that were durable before the checkpoint. -/
theorem interrupted_restores {as : List Action} {L : Ledger} {d : Disk}
    (hrun : Ledger.start.run as = some L) (ha : ∀ a ∈ as, a.logs = true)
    (hb : writtenBytes L.process.written < kMemTableFlushThresholdBytes)
    (hpc : L.process.pc = .idle) (hok : L.process.Restorable)
    (hcrash : CheckpointCrash L.process d) :
    (KVStore.new.open d .ok).1 = true ∧ ∃ j, L.durable ≤ j ∧ j ≤ L.process.written.length ∧
      Restores (Process.start d).store (L.process.written.take j) := by
  have h := Ledger.run_ok hrun ha hb
  have hu := h.unrotated
  have hfits := hu.fits hb
  have hline := hok.lineOk hfits
  refine ⟨KVStore.open_ok d, ?_⟩
  rcases hcrash.cases hu.opened with ⟨hwal, hsnap⟩ | ⟨hwal, hsnap⟩
  · -- the log is applied to what is left of a snapshot
    obtain ⟨base, dur, hlog, hdur⟩ := h.log
    have hrec := hlog.records_wal hpc hfits
    obtain ⟨ws, n, hws, hpart⟩ : ∃ ws n, ws <+: L.process.written ∧
        d.snapshot.getD [] = (saveToFile (pushRows ∅ ws)).take n := by
      rcases hsnap with e | ⟨n, e⟩
      · rw [e]
        exact h.snapshot
      · exact ⟨_, n, List.prefix_rfl, by rw [e, hu.contents.entries]; rfl⟩
    have hlines : ∀ r ∈ rows (pushRows ∅ ws), LineOk r := fun r hr =>
      hline r (hws.subset (mem_rows_pushRows.mp hr))
    have hcont := start_contents (loadedSnapshot_take hpart hlines)
    have hid : recordRow ∘ rowRecord = id := rfl
    rw [hwal, hrec, List.map_map, hid, List.map_id] at hcont
    have hres := restores_of_logged hcont (by
      intro r hr
      obtain ⟨r', hr', hk, ht⟩ := mem_loaded hr
      obtain ⟨w, hw, hwk, hwt⟩ := hok.logged r' (hws.subset (mem_rows_pushRows.mp hr'))
      rw [hrec] at hw
      obtain ⟨x, hx, rfl⟩ := List.mem_map.mp hw
      exact ⟨x, hx, hwk.trans hk.symm, hwt.trans ht.ge⟩)
    by_cases hne : L.process.written = []
    · have hle := h.durable_le
      rw [hne] at hle hres ⊢
      refine ⟨0, hle, le_rfl, ?_⟩
      simpa using hres
    · obtain ⟨rfl, hpos⟩ := hok.base_eq hu hrec hne
      rw [List.drop_zero] at hres
      exact ⟨dur, hdur.resolve_right (by omega), hlog.dur_le, hres⟩
  · -- the snapshot is whole, and there is no log
    have hlines : ∀ r ∈ rows L.process.store.memtable.entries, LineOk r := by
      intro r hr
      rw [hu.contents.entries] at hr
      exact hline r (mem_rows_pushRows.mp hr)
    have hcont := start_contents (loadedSnapshot_saved hsnap hlines)
    rw [hwal, records_nil, List.map_nil, List.append_nil] at hcont
    have hver : ∀ key, versionsIn (rows L.process.store.memtable.entries) key =
        versionsIn L.process.written key := fun key => by
      rw [versionsIn_rows, hu.contents.versionsOf_eq]
    refine ⟨_, h.durable_le, le_rfl, fun key => ?_, fun key t => ?_⟩
    · rw [List.take_length, KVStore.get, hcont.map, hver]
    · rw [List.take_length, hcont.versionsOf_eq, hver]

lemma Process.idle_of_save {σ : Process} {io : SaveOutcome}
    (h : (σ.step (.save io)).isSome = true) : σ.pc = .idle := by
  obtain ⟨σ', hstep⟩ := Option.isSome_iff_exists.mp h
  cases Process.step_effect hstep
  assumption

/-- **A second checkpoint loses what the first one saved**: the log was removed, and the crash comes
when the snapshot is open and nothing is written. -/
theorem interrupted_checkpoint_loses : ∃ L, Ledger.start.run putCheckpoint = some L ∧
    (∀ a ∈ putCheckpoint, a.succeeds = true) ∧
    writtenBytes L.process.written < kMemTableFlushThresholdBytes ∧ L.process.pc = .idle ∧
    L.durable = 1 ∧ CheckpointCrash L.process (L.process.save (.short 0)).disk ∧
    ∀ j, L.durable ≤ j →
      ¬ Restores (Process.start (L.process.save (.short 0)).disk).store
        (L.process.written.take j) := by
  have h : (Ledger.start.run putCheckpoint).map (fun L => (L.durable, L.process.written,
      (Process.start (L.process.save (.short 0)).disk).store.get (text "a"))) =
      some (1, [(text "a", ⟨1, some (text "1")⟩)], none) := by
    decide +kernel
  have hidle : (Ledger.start.run putCheckpoint).map (fun L =>
      (L.process.step (.save .ok)).isSome) = some true := by
    decide +kernel
  obtain ⟨L, hrun, hL⟩ := Option.map_eq_some_iff.mp h
  simp only [Prod.mk.injEq] at hL
  obtain ⟨hdur, hw, hget⟩ := hL
  rw [hrun, Option.map_some, Option.some.injEq] at hidle
  refine ⟨L, hrun, by decide, by rw [hw]; decide, ?_, hdur, .saving 0, fun j hj hres => ?_⟩
  · exact Process.idle_of_save hidle
  · have hget' := hres.map (text "a")
    rw [hdur] at hj
    rw [hget, List.take_of_length_le (by rw [hw]; exact hj), hw] at hget'
    exact absurd hget' (by decide)

/-- A flushed put and one that is buffered. -/
def bufferedPut : List Action :=
  [.put (text "a") (text "1"), .rotate, .commit .ok, .flushWal .ok, .put (text "a") (text "2"),
    .rotate, .commit .ok]

/-- A crash behind the first bytes of the second value. -/
theorem interrupted_restores_buffered : ∃ L, Ledger.start.run bufferedPut = some L ∧
    L.durable = 1 ∧ L.process.written.length = 2 ∧
    (KVStore.new.open (L.process.save (.short 13)).disk .ok).1 = true ∧ ∃ j, 1 ≤ j ∧ j ≤ 2 ∧
      Restores (Process.start (L.process.save (.short 13)).disk).store
        (L.process.written.take j) := by
  have h : (Ledger.start.run bufferedPut).map (fun L => (L.durable, L.process.written,
      records (L.process.disk.wal.getD []))) = some (1, [(text "a", ⟨1, some (text "1")⟩),
        (text "a", ⟨2, some (text "2")⟩)], [⟨1, text "a", some (text "1")⟩]) := by
    decide +kernel
  have hidle : (Ledger.start.run bufferedPut).map (fun L =>
      (L.process.step (.save .ok)).isSome) = some true := by
    decide +kernel
  obtain ⟨L, hrun, hL⟩ := Option.map_eq_some_iff.mp h
  simp only [Prod.mk.injEq] at hL
  obtain ⟨hdur, hw, hlog⟩ := hL
  rw [hrun, Option.map_some, Option.some.injEq] at hidle
  have hok : L.process.Restorable := by
    refine ⟨?_, ?_⟩
    · rw [hw]
      simp [text, tab, newline, ascii]
    · rw [hw, hlog]
      simp
  have hlen : L.process.written.length = 2 := by rw [hw]; rfl
  have hmain := interrupted_restores hrun (by decide) (by rw [hw]; decide)
    (Process.idle_of_save hidle) hok (.saving 13)
  rw [hdur, hlen] at hmain
  exact ⟨L, hrun, hdur, hlen, hmain⟩

end VeriStore.Store

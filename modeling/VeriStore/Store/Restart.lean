import VeriStore.Store.Reopen
import VeriStore.Store.Logbook
import VeriStore.Store.Names

/-!
A clean restart.

A session without a checkpoint has all its versions in the log, and after a flush all of them are
in the file. The next process puts them all into its memtable, in front of tables that hold a part
of them, so that it does not matter what the worker and the compactions made of the tables. The
lengths in the header of a record have 32 bits: a longer key or value ends the replay.

* `restart_transparent` — the counter, the map and the answers of `get_at` after a restart;
* `long_value_lost` — a value with a length of 33 bits is not restored.
-/

namespace VeriStore.Store

open VeriStore.Lib VeriStore.Sstable VeriStore.Log

/-- A step of a checkpoint. -/
def Action.ofCheckpoint : Action → Bool
  | .save _ | .removeWal | .reopenWal _ => true
  | _ => false

/-- The key and the value fit the lengths of a record. -/
def Action.Fits : Action → Prop
  | .put key value => key.length < 2 ^ 32 ∧ value.length < 2 ^ 32
  | _ => True

/-- The store is destroyed, and a new process opens it on the files. -/
def Process.restart (σ : Process) : Process := Process.start (σ.store.close σ.disk)

/-! ### The log of a session without a checkpoint -/

/-- **All versions are in the log**, and the counter is the number of the last one. -/
structure Logged (σ : Process) : Prop where
  log : ∃ dur, σ.HasLog [] 0 dur
  snapshot : σ.disk.snapshot = none
  calm : σ.pc ≠ .saved ∧ σ.pc ≠ .removed
  seq : σ.store.seq = KVStore.maxSeq (σ.written.map rowRecord)
  fits : ∀ r ∈ σ.written, r.1.length < 2 ^ 32 ∧ (r.2.value.getD []).length < 2 ^ 32

section Steps

variable {σ σ' : Process}

lemma Action.logs_of_succeeds {a : Action} (h : a.succeeds = true) : a.logs = true := by
  cases a with
  | commit io | flushWal io => cases io <;> simp_all [Action.succeeds, Action.logs]
  | reopenWal ok => exact h
  | put | del | rotate | setGroupCommitEvery | getAt | drain | compact | rename | replace | finish
  | read | save | removeWal | work => rfl

/-- Only a checkpoint writes the snapshot. -/
lemma Process.Effect.snapshot_eq {a : Action} (he : σ.Effect a σ') (ha : a.ofCheckpoint = false) :
    σ'.disk.snapshot = σ.disk.snapshot := by
  have hwrite : ∀ key value, (σ.write key value).disk = σ.disk := by
    intro key value
    unfold Process.write
    split
    · rfl
    · split <;> rfl
  cases he with
  | put key value => exact congrArg Disk.snapshot (hwrite _ _)
  | del key =>
    unfold Process.del
    split
    · exact congrArg Disk.snapshot (hwrite _ _)
    · rfl
  | rotate => exact congrArg Disk.snapshot σ.rotate_frame.2.1
  | commit io =>
    obtain ⟨w, f, e⟩ := σ.commit_frame io
    rw [e]
  | drain key t added =>
    obtain ⟨paths, i, w, pc, e⟩ := σ.drain_frame key t added
    rw [e]
  | compact key t io =>
    obtain ⟨paths, n, m, tb, pc, e⟩ := σ.compact_frame key t io
    rw [e]
  | rename key t j ok =>
    obtain ⟨tb, pc, e⟩ := σ.rename_frame key t j ok
    rw [e]
  | replace key t j ok =>
    obtain ⟨m, tb, pc, e⟩ := σ.replace_frame key t j ok
    rw [e]
  | save | removeWal | reopenWal => simp [Action.ofCheckpoint] at ha
  | work io _ hw =>
    obtain ⟨w, d, hstep, rfl⟩ := Process.work_frame hw
    exact (FlushWorker.step_files hstep).2
  | flushWal | setGroupCommitEvery | getAt | finish | read => rfl

/-- Outside a checkpoint no step begins one. -/
lemma Process.Effect.calm {a : Action} (he : σ.Effect a σ') (ha : a.ofCheckpoint = false)
    (h : σ.pc ≠ .saved ∧ σ.pc ≠ .removed) : σ'.pc ≠ .saved ∧ σ'.pc ≠ .removed := by
  have hwrite : ∀ key value, σ.pc = .idle → (σ.write key value).pc ≠ .saved ∧
      (σ.write key value).pc ≠ .removed := by
    intro key value hpc
    unfold Process.write
    split
    · exact h
    · split
      · exact h
      · exact ⟨nofun, nofun⟩
  cases he with
  | put key value hpc => exact hwrite _ _ hpc
  | del key hpc =>
    unfold Process.del
    split
    · exact hwrite _ _ hpc
    · exact h
  | rotate =>
    obtain ⟨-, -, -, hpc | hpc⟩ := σ.rotate_frame <;> rw [hpc] <;> exact ⟨nofun, nofun⟩
  | commit io =>
    obtain ⟨w, f, e⟩ := σ.commit_frame io
    rw [e]
    exact ⟨nofun, nofun⟩
  | drain key t added =>
    unfold Process.drain
    split
    · exact ⟨nofun, nofun⟩
    · cases added <;> exact ⟨nofun, nofun⟩
  | compact key t io =>
    unfold Process.compact
    repeat' split
    all_goals exact ⟨nofun, nofun⟩
  | rename key t j ok =>
    unfold Process.rename
    split <;> exact ⟨nofun, nofun⟩
  | replace key t j ok =>
    unfold Process.replace
    split <;> exact ⟨nofun, nofun⟩
  | save | removeWal | reopenWal => simp [Action.ofCheckpoint] at ha
  | work io _ hw =>
    obtain ⟨w, d, -, rfl⟩ := Process.work_frame hw
    exact h
  | setGroupCommitEvery => exact h
  | flushWal | getAt | finish | read => exact ⟨nofun, nofun⟩

/-- **A step outside a checkpoint.** -/
lemma Logged.effect (h : Logged σ) (hl : Latest σ) {a : Action} (ha : a.succeeds = true)
    (hc : a.ofCheckpoint = false) (hf : a.Fits) (he : σ.Effect a σ') : Logged σ' := by
  obtain ⟨dur, hlog⟩ := h.log
  have hne : a ≠ .removeWal := by
    rintro rfl
    simp [Action.ofCheckpoint] at hc
  obtain ⟨dur', -, hlog'⟩ := he.hasLog (Action.logs_of_succeeds ha) hlog hne
  refine ⟨⟨dur', hlog'⟩, (he.snapshot_eq hc).trans h.snapshot, he.calm hc h.calm, ?_, ?_⟩
  · rcases he.write_or with ⟨key, value, hpc, rfl, -⟩ | ⟨-, hs, hw⟩
    · obtain ⟨file, -, hfd, -⟩ := hlog.file h.calm.2
      unfold Process.write
      split
      · exact h.seq
      · rw [if_neg (by simp [hfd])]
        have hmax : KVStore.maxSeq
            ((σ.written ++ [((key, ⟨σ.store.seq + 1, value⟩) : Row)]).map rowRecord) =
              σ.store.seq + 1 := by
          rw [List.map_append, List.map_singleton, KVStore.maxSeq_concat, ← h.seq]
          exact max_eq_right (Nat.le_succ _)
        exact hmax.symm
    · rw [hs, hw]
      exact h.seq
  · rcases he.write_or with ⟨key, value, hpc, rfl, hkv⟩ | ⟨-, -, hw⟩
    · have hnew : key.length < 2 ^ 32 ∧ (value.getD []).length < 2 ^ 32 := by
        rcases hkv with ⟨v, rfl, rfl⟩ | ⟨rfl, rfl, hget⟩
        · exact hf
        · -- a key that is present was put
          rw [hl key] at hget
          obtain ⟨x, hx⟩ := Option.isSome_iff_exists.mp hget
          obtain ⟨v, hv, -⟩ := Option.bind_eq_some_iff.mp hx
          exact ⟨(h.fits (key, v) (mem_versionsIn.mp (List.mem_of_getLast? hv))).1, by simp⟩
      unfold Process.write
      split
      · exact h.fits
      · split
        · exact h.fits
        · intro r hr
          rcases List.mem_append.mp hr with hr | hr
          · exact h.fits r hr
          · obtain rfl := List.mem_singleton.mp hr
            exact hnew
    · rw [hw]
      exact h.fits

lemma start_logged : Logged (Process.start Disk.empty) where
  log :=
    have hopen : (KVStore.new.open Disk.empty .ok).1 = true := rfl
    (Logbook.launch_ok hopen).log
  snapshot := rfl
  calm := ⟨nofun, nofun⟩
  seq := rfl
  fits := by simp [Process.start, Process.launch]

end Steps

/-- **Every session without a checkpoint**, from empty files. -/
lemma run_logged {as : List Action} {σ : Process}
    (hrun : (Process.start Disk.empty).run as = some σ) (ha : ∀ a ∈ as, a.succeeds = true)
    (hc : ∀ a ∈ as, a.ofCheckpoint = false) (hf : ∀ a ∈ as, a.Fits) : Logged σ := by
  have h : Latest σ ∧ Logged σ :=
    Process.run_induct (P := fun σ => Latest σ ∧ Logged σ) hrun
      (fun a ham => And.intro (ha a ham) (And.intro (hc a ham) (hf a ham)))
      ⟨start_latest, start_logged⟩
      fun σ₁ a σ₂ hQ he ih => ⟨ih.1.effect he, ih.2.effect ih.1 hQ.1 hQ.2.1 hQ.2.2 he⟩
  exact h.2

/-! ### The files of a clean exit -/

/-- **The tables that a clean exit leaves** are live, and they hold written versions only. -/
lemma Recorded.liveTables {σ : Process} {tabs : List Entries} {fl : Option FlushTask}
    (h : Recorded σ tabs fl) (hpc : σ.pc.replacing = none) (hheld : σ.store.flushWorker.held = []) :
    loadSstables σ.disk.manifest = pathsWith σ.store.sstablePaths fl ∧
      LiveTables (pathsWith σ.store.sstablePaths fl) σ.disk
        (tabs ++ fl.toList.map FlushTask.entries) := by
  have hl := h.layers
  have hmanifest := h.listed.manifest_eq hpc
  have hlast : σ.store.flushWorker.recorded = fl.toList.map FlushTask.sstablePath ∧
      List.Forall₂ (HoldsEntries σ.disk) (fl.toList.map FlushTask.sstablePath)
        (fl.toList.map FlushTask.entries) := by
    unfold FlushWorker.held at hheld
    cases hl.flush with
    | idle h1 h2 h3 => exact ⟨by simp [FlushWorker.recorded, h2, h3], .nil⟩
    | queued t h1 h2 h3 => simp [h1] at hheld
    | popped t h1 h2 h3 => simp [h2] at hheld
    | written t h1 h2 h3 h4 => rcases h2 with h2 | ⟨existing, h2⟩ | h2 <;> simp [h2] at hheld
    | completed t h1 h2 h3 h4 => exact ⟨by simp [FlushWorker.recorded, h2, h3], .cons h4 .nil⟩
  obtain ⟨hrec, hfile⟩ := hlast
  rw [hrec] at hmanifest
  refine ⟨?_, List.rel_append hl.tables hfile, fun e he => ?_, hl.nodup, ?_⟩
  · rw [hmanifest]
    exact loadSstables_replaceSstables fun p hp => (hl.named p hp).line
  · exact (hl.ok e (List.mem_append_left _ he)).rowOk
  · refine (List.pairwise_append.mp hl.ordered).1.imp fun {a b} hab key v hv w hw => Or.inl ?_
    exact hab (key, v) (mem_rows.mpr hv) (key, w) (mem_rows.mpr hw)

lemma Process.run_append {σ σ' : Process} {as bs : List Action} (h : σ.run (as ++ bs) = some σ') :
    ∃ σ₁, σ.run as = some σ₁ ∧ σ₁.run bs = some σ' := by
  unfold Process.run at h
  rw [List.foldlM_append] at h
  exact Option.bind_eq_some_iff.mp h

/-- Behind a flush the buffer is empty, whatever the worker does. -/
lemma run_flushed {σ σ' : Process} {ws : List Action} (hlog : ∃ dur, σ.HasLog [] 0 dur)
    (hrun : σ.run (.flushWal .ok :: ws) = some σ') (hws : ∀ a ∈ ws, a = .work .ok)
    (hpc : σ.pc ≠ .removed) : σ'.pc = .idle ∧ σ'.store.wal.buffer = [] := by
  obtain ⟨dur, hlog⟩ := hlog
  have hsplit : σ.run ([.flushWal .ok] ++ ws) = some σ' := hrun
  obtain ⟨σ₁, hfirst, hrest⟩ := Process.run_append hsplit
  have hstep : σ.step (.flushWal .ok) = some σ₁ := by simpa [Process.run] using hfirst
  have h₁ : σ₁.pc = .idle ∧ σ₁.store.wal.buffer = [] := by
    cases Process.step_effect hstep with
    | flushWal _ _ =>
      have hbuf := (hlog.flushWal hpc).buffer
      have hw : (σ.flushWal .ok).written = σ.written := rfl
      rw [hw, List.drop_length] at hbuf
      exact ⟨rfl, hbuf⟩
  refine Process.run_induct (P := fun σ => σ.pc = .idle ∧ σ.store.wal.buffer = []) hrest hws h₁ ?_
  rintro σ₂ _ σ₃ rfl he h
  cases he with
  | work _ _ hw =>
    obtain ⟨w, d, -, rfl⟩ := Process.work_frame hw
    exact h

/-- A log with all versions is replayed as it was written. -/
lemma records_logBytes {rs : List Row} (h : ∀ r ∈ rs, (rowRecord r).Fits) :
    records (logBytes rs) = rs.map rowRecord := by
  have hfits : ∀ r ∈ rs.map rowRecord, r.Fits := by
    intro r hr
    obtain ⟨r', hr', rfl⟩ := List.mem_map.mp hr
    exact h r' hr'
  have henc := records_encode hfits []
  simpa [logBytes] using henc

/-- **A clean restart is transparent.** In every session from empty files without a checkpoint
whose system calls succeed, with keys that are words, values that fit on a line and do not begin
with white space, and lengths of at most 32 bits: after a flush of the log and the end of the
process, whatever the worker did, the next process has the same counter and the same map, and its
`get_at` gives the newest version written. -/
theorem restart_transparent {as ws : List Action} {σ : Process}
    (hrun : (Process.start Disk.empty).run (as ++ .flushWal .ok :: ws) = some σ)
    (hws : ∀ a ∈ ws, a = .work .ok) (ha : ∀ a ∈ as, a.succeeds = true) (hp : ∀ a ∈ as, a.Plain)
    (hc : ∀ a ∈ as, a.ofCheckpoint = false) (hf : ∀ a ∈ as, a.Fits) (hlt : σ.store.seq < 2 ^ 64) :
    σ.restart.store.seq = σ.store.seq ∧
    (∀ key, σ.restart.store.get key = σ.store.get key) ∧
    ∀ key t io,
      (∀ v, Newest Version.timestamp (versionsIn σ.written key) t v →
        (σ.restart.store.getAt σ.restart.disk key t io).1 = v.value) ∧
      ((∀ v, (key, v) ∈ σ.written → t < v.timestamp) →
        (σ.restart.store.getAt σ.restart.disk key t io).1 = none) := by
  have hall : ∀ (P : Action → Prop), (∀ a ∈ as, P a) → P (.flushWal .ok) → P (.work .ok) →
      ∀ a ∈ as ++ .flushWal .ok :: ws, P a := by
    intro P h1 h2 h3 a hm
    rcases List.mem_append.mp hm with hm | hm
    · exact h1 a hm
    rcases List.mem_cons.mp hm with rfl | hm
    · exact h2
    · exact hws a hm ▸ h3
  have ha' := hall (fun a => a.succeeds = true) ha rfl rfl
  have hp' := hall Action.Plain hp trivial trivial
  obtain ⟨tabs, fl, hr⟩ := run_recorded hrun ha' hp' hlt
  have hlog := run_logged hrun ha' (hall (fun a => a.ofCheckpoint = false) hc rfl rfl)
    (hall Action.Fits hf trivial trivial)
  obtain ⟨σ₁, hrun₁, hrest⟩ := Process.run_append hrun
  have hlog₁ := run_logged hrun₁ ha hc hf
  obtain ⟨hpc, hbuf⟩ := run_flushed hlog₁.log hrest hws hlog₁.calm.2
  obtain ⟨σ', hr', hfin, hdisk, hheld⟩ := hr.close
  obtain ⟨hload, hlive⟩ := hr'.liveTables (by rw [hfin.pc, hpc]; rfl) hheld
  -- the log has all versions
  have hfits : ∀ r ∈ σ.written, (rowRecord r).Fits := fun r hr₁ =>
    ⟨(hlog.fits r hr₁).1, (hlog.fits r hr₁).2, (hr.layers.le_seq r hr₁).trans_lt hlt⟩
  have hwal : records ((σ.store.close σ.disk).wal.getD []) = σ.written.map rowRecord := by
    obtain ⟨dur, hl⟩ := hlog.log
    obtain ⟨file, hfile, -, hw⟩ := hl.file (by simp [hpc])
    have hdur : σ.written.length ≤ dur := by
      have hb := hl.buffer
      rw [hbuf] at hb
      simpa using hb.symm
    rw [← hdisk, hfin.wal, hw, hfile, List.take_of_length_le hdur]
    exact records_logBytes hfits
  have hsnap : (σ.store.close σ.disk).snapshot = none := by
    rw [← hdisk, hfin.snapshot, hlog.snapshot]
  have hcont : Contents σ.restart.store.map σ.restart.store.memtable.entries σ.written := by
    have h := start_contents (contents_of_no_snapshot hsnap)
    rw [hwal, List.nil_append, List.map_map] at h
    have hid : recordRow ∘ rowRecord = id := rfl
    rwa [hid, List.map_id] at h
  refine ⟨?_, fun key => ?_, fun key t io => ?_⟩
  · rw [Process.restart, start_seq, hwal, hlog.seq]
  · rw [KVStore.get, hcont.map, hr.latest]
  have hgetAt : (σ.restart.store.getAt σ.restart.disk key t io).1 =
      (lastVisible Version.timestamp (versionsIn σ.written key) t).bind Version.value := by
    have hnamed : NoTemporary (loadSstables (σ.store.close σ.disk).manifest) := by
      intro id hm
      rw [← hdisk, hload] at hm
      exact (hr'.layers.named _ hm).ne_temp rfl
    have hlive' : LiveTables (loadSstables (σ.store.close σ.disk).manifest) (σ.store.close σ.disk)
        (tabs ++ fl.toList.map FlushTask.entries) := by
      rw [← hdisk, hload]
      exact hlive
    have hpart : ∀ e ∈ tabs ++ fl.toList.map FlushTask.entries,
        e ∈ parts tabs fl σ'.store.memtable.entries := fun e he => List.mem_append_left _ he
    refine start_getAt_memtable hlive' hnamed ?_ hcont (fun e he r hrow => ?_) key t io
    · intro e he key
      exact ((hr'.layers.ok e (hpart e (List.mem_of_mem_take he))).ordered key).consistent
    · rw [← hfin.written]
      exact hr'.layers.mem_written (hpart e he) hrow
  rw [hgetAt]
  constructor
  · intro v hv
    rw [(lastVisible_eq_some_iff (hr.layers.ascending_key key)).mpr hv, Option.bind_some]
  · intro hnone
    have hl : lastVisible Version.timestamp (versionsIn σ.written key) t = none :=
      lastVisible_eq_none_iff.mpr fun v hv => not_le.mpr (hnone v (mem_versionsIn.mp hv))
    rw [hl, Option.bind_none]

/-! ### A value that does not fit -/

/-- Without a snapshot no long value is restored. -/
lemma start_get_length {d : Disk} (hsnap : d.snapshot = none) {key x : Bytes}
    (h : (Process.start d).store.get key = some x) : x.length < 2 ^ 32 := by
  have hcont := start_contents (contents_of_no_snapshot hsnap)
  rw [KVStore.get, hcont.map, List.nil_append] at h
  obtain ⟨v, hv, hx⟩ := Option.bind_eq_some_iff.mp h
  obtain ⟨r, hr, he⟩ := List.mem_map.mp (mem_versionsIn.mp (List.mem_of_getLast? hv))
  have hval : r.value = some x := by
    rw [← hx, ← (Prod.mk.inj he).2]
  have hlen := (fits_of_mem_records hr).2.1
  rwa [hval, Option.getD_some] at hlen

/-- A put that fills the memtable, to its end, and a flush of the log. -/
def flushedPut (v : Bytes) : List Action := [.put (text "a") v, .rotate, .commit .ok, .flushWal .ok]

lemma flushedPut_run {v : Bytes} (hv : kMemTableFlushThresholdBytes ≤ v.length) :
    ∃ σ, (Process.start Disk.empty).run (flushedPut v) = some σ ∧
      σ.store.get (text "a") = some v ∧ σ.disk.snapshot = none ∧ σ.pc = .idle ∧
      σ.store.seq = 1 ∧ σ.store.memtable.entries = ∅ := by
  set σ := (Process.start Disk.empty).put (text "a") v with hσ
  have hmem : σ.store.memtable = ⟨oneVersion v, 57 + v.length⟩ :=
    Process.put_memtable rfl rfl rfl v
  have hrotate : σ.rotate = { σ with store := σ.store.rotated, pc := .committing } :=
    Process.rotate_accepted (rotates_of_put hv hmem rfl) rfl
  have hrun : (Process.start Disk.empty).run (flushedPut v) =
      σ.rotate.run [.commit .ok, .flushWal .ok] := rfl
  have hmap : σ.store.map = (∅ : Std.ExtTreeMap Bytes Bytes).insert (text "a") v := rfl
  obtain ⟨w, f, hcommit⟩ := σ.rotate.commit_frame .ok
  obtain ⟨w', f', hflush⟩ := (σ.rotate.commit .ok).flushWal_frame .ok
  refine ⟨(σ.rotate.commit .ok).flushWal .ok, ?_, ?_, ?_, rfl, ?_, ?_⟩
  · have h1 : σ.rotate.step (.commit .ok) = some (σ.rotate.commit .ok) := by
      rw [hrotate]
      rfl
    have h2 : (σ.rotate.commit .ok).step (.flushWal .ok) =
        some ((σ.rotate.commit .ok).flushWal .ok) := by
      rw [hcommit]
      rfl
    rw [hrun]
    simp only [Process.run, List.foldlM_cons, List.foldlM_nil, h1, Option.bind_eq_bind,
      Option.bind_some, h2]
    rfl
  · have hmap' : ((σ.rotate.commit .ok).flushWal .ok).store.map = σ.store.map := by
      rw [hflush, hcommit, hrotate]
      rfl
    rw [KVStore.get, hmap', hmap, Std.ExtTreeMap.getElem?_insert_self]
  all_goals
    rw [hflush, hcommit, hrotate]
    rfl

/-- The worker leaves the log and the snapshot alone. -/
lemma FlushWorker.runOn_files (n : ℕ) (w : FlushWorker) (d : Disk) :
    (w.runOn n d).2.wal = d.wal ∧ (w.runOn n d).2.snapshot = d.snapshot := by
  induction n generalizing w d with
  | zero => exact ⟨rfl, rfl⟩
  | succ n ih =>
    unfold FlushWorker.runOn
    split
    · exact ⟨rfl, rfl⟩
    · next w' d' h =>
      obtain ⟨hwal, hsnap⟩ := FlushWorker.step_files h
      obtain ⟨ihwal, ihsnap⟩ := ih w' d'
      exact ⟨ihwal.trans hwal, ihsnap.trans hsnap⟩

/-- A value whose length has 33 bits. -/
def longValue : Bytes := List.replicate (2 ^ 32) 97

lemma long_lost {v : Bytes} (hv : 2 ^ 32 ≤ v.length) :
    ∃ σ, (Process.start Disk.empty).run (flushedPut v) = some σ ∧
      σ.store.get (text "a") = some v ∧ σ.restart.store.get (text "a") ≠ some v := by
  have hth : kMemTableFlushThresholdBytes ≤ v.length := by
    unfold kMemTableFlushThresholdBytes
    omega
  obtain ⟨σ, hrun, hget, hsnap, -⟩ := flushedPut_run hth
  refine ⟨σ, hrun, hget, fun hre => ?_⟩
  have hsnap' : (σ.store.close σ.disk).snapshot = none :=
    (FlushWorker.runOn_files _ _ _).2.trans hsnap
  have hlen := start_get_length hsnap' hre
  omega

/-- **A long value is not restored**, although its record was flushed. -/
theorem long_value_lost :
    (∀ a ∈ flushedPut longValue, a.succeeds = true ∧ a.Plain ∧ a.ofCheckpoint = false) ∧
    ∃ σ, (Process.start Disk.empty).run (flushedPut longValue) = some σ ∧
      σ.store.get (text "a") = some longValue ∧
      σ.restart.store.get (text "a") ≠ some longValue := by
  refine ⟨?_, long_lost (by rw [longValue, List.length_replicate])⟩
  have hput : (Action.put (text "a") longValue).Plain := ⟨by decide, clean_replicate _⟩
  simp only [flushedPut, List.forall_mem_cons]
  exact ⟨⟨rfl, hput, rfl⟩, ⟨rfl, trivial, rfl⟩, ⟨rfl, trivial, rfl⟩, ⟨rfl, trivial, rfl⟩, by simp⟩

/-- Both versions are read after a restart, the first one from the table. -/
theorem restart_transparent_both : ∃ σ,
    (Process.start Disk.empty).run (overTable largeValue ++ [.flushWal .ok]) = some σ ∧
      σ.store.sstablePaths = [flushPath 0] ∧
      σ.restart.store.seq = 2 ∧ σ.restart.store.get (text "a") = some (text "2") ∧
      (σ.restart.store.getAt σ.restart.disk (text "a") 1 .ok).1 = some largeValue := by
  have hlen : largeValue.length = kMemTableFlushThresholdBytes := by simp [largeValue]
  have hplain := overTable_plain clean_largeValue
  have hcalls : ∀ a ∈ overTable largeValue, a.ofCheckpoint = false := by
    simp [overTable, flushCycle, Action.ofCheckpoint]
  have hfits : ∀ a ∈ overTable largeValue, a.Fits := by
    simp [overTable, flushCycle, Action.Fits, text, hlen, kMemTableFlushThresholdBytes]
  have hlast : (aboveTable largeValue).run [.flushWal .ok] =
      some ((aboveTable largeValue).flushWal .ok) := rfl
  have hrun := Process.run_trans (overTable_run hlen.ge) hlast
  have hnone : ∀ a ∈ ([] : List Action), a = .work .ok := by simp
  obtain ⟨h1, h2, h3⟩ := restart_transparent hrun hnone (fun a ha => (hplain a ha).1)
    (fun a ha => (hplain a ha).2) hcalls hfits (by decide)
  refine ⟨_, hrun, rfl, h1, (h2 _).trans Std.ExtTreeMap.getElem?_insert_self,
    (h3 (text "a") 1 .ok).1 ⟨1, some largeValue⟩ ?_⟩
  have hw : ((aboveTable largeValue).flushWal .ok).written =
      [(text "a", ⟨1, some largeValue⟩), (text "a", ⟨2, some (text "2")⟩)] := rfl
  rw [hw]
  exact ⟨by simp [versionsIn], le_rfl, by simp [versionsIn]⟩

end VeriStore.Store

import VeriStore.Store.Layers
import VeriStore.Store.Snapshot

/-!
What a session leaves in the manifest, and how it ends.

The manifest lists the tables of the store, and behind them the table of the outstanding flush
once the worker has appended it (`Listed`). The map has the newest version of every key
(`Latest`). A clean exit lets the worker finish, so that the flush is listed too.

* `run_recorded` — the invariants hold in every run from empty files;
* `Recorded.close` — the files that a clean exit leaves.
-/

namespace VeriStore.Store

open VeriStore.Lib VeriStore.Sstable VeriStore.Log

open KVStore (CompactJob)

/-! ### The manifest -/

/-- The tables that the worker has appended to the manifest and not handed back. -/
def FlushWorker.recorded (w : FlushWorker) : List Bytes :=
  (match w.pc with
    | .appended t => [t.sstablePath]
    | _ => []) ++ w.completions

/-- The list that a compaction has put in the manifest and not in the store yet. -/
def Pc.replacing : Pc → Option (List Bytes)
  | .replaced _ _ j => some j.updatedPaths
  | _ => none

/-- The tables in the manifest. -/
def Process.listed (σ : Process) : List Bytes :=
  σ.pc.replacing.getD (σ.store.sstablePaths ++ σ.store.flushWorker.recorded)

/-- **What the manifest lists.** -/
structure Listed (σ : Process) : Prop where
  manifest : σ.disk.manifest = some (replaceSstables σ.listed)
  loaded : ∀ t existing, σ.store.flushWorker.pc = .loaded t existing →
    existing = σ.store.sstablePaths

section Steps

variable {σ σ' : Process} {tabs : List Entries} {fl : Option FlushTask}

/-- A step that touches neither the tables nor the worker. -/
lemma Listed.quiet (h : Listed σ) (hp : σ'.store.sstablePaths = σ.store.sstablePaths)
    (hw : σ'.store.flushWorker = σ.store.flushWorker) (hm : σ'.disk.manifest = σ.disk.manifest)
    (hpc : σ'.pc.replacing = σ.pc.replacing) : Listed σ' := by
  constructor
  · rw [hm, h.manifest, Process.listed, Process.listed, hpc, hp, hw]
  · rw [hw, hp]
    exact h.loaded

lemma Listed.write (h : Listed σ) (hpc : σ.pc = .idle) (key : Bytes) (value : Option Bytes) :
    Listed (σ.write key value) := by
  unfold Process.write
  split
  · exact h
  · split
    · exact h.quiet rfl rfl rfl rfl
    · obtain ⟨m, n, w, hl⟩ := σ.store.logged_frame ⟨σ.store.seq + 1, key, value⟩
      refine h.quiet ?_ ?_ rfl (by rw [hpc]; rfl)
      · simp only [hl]
      · simp only [hl]

lemma Listed.rotate (h : Listed σ) (hpc : σ.pc = .rotating) : Listed σ.rotate := by
  obtain ⟨hs, hd, -, hpc'⟩ := σ.rotate_frame
  have hrep : σ.rotate.pc.replacing = σ.pc.replacing := by
    rw [hpc]
    rcases hpc' with e | e <;> rw [e] <;> rfl
  rcases σ.store.maybeFlushMemtable_cases with ⟨ok, e⟩ | ⟨-, e⟩ | ⟨-, e⟩
  · rw [e] at hs
    exact h.quiet (by rw [hs]) (by rw [hs]) (by rw [hd]) hrep
  · rw [e] at hs
    exact h.quiet (by rw [hs]) (by rw [hs]) (by rw [hd]) hrep
  · rw [e] at hs
    -- the queue of the worker is not part of the manifest
    have hworker : σ.rotate.store.flushWorker.recorded = σ.store.flushWorker.recorded ∧
        σ.rotate.store.flushWorker.pc = σ.store.flushWorker.pc := by
      rw [hs]
      simp only [KVStore.rotated, FlushWorker.enqueue]
      split <;> exact ⟨rfl, rfl⟩
    have hpaths : σ.rotate.store.sstablePaths = σ.store.sstablePaths := by rw [hs]; rfl
    constructor
    · rw [hd, h.manifest, Process.listed, Process.listed, hrep, hpaths, hworker.1]
    · rw [hworker.2, hpaths]
      exact h.loaded

/-- Outside a compaction the manifest lists the tables and what the worker has appended. -/
lemma Listed.manifest_eq (h : Listed σ) (hpc : σ.pc.replacing = none) : σ.disk.manifest =
    some (replaceSstables (σ.store.sstablePaths ++ σ.store.flushWorker.recorded)) := by
  rw [h.manifest, Process.listed, hpc, Option.getD_none]

lemma Listed.drain (hl : Layers σ tabs fl) (h : Listed σ) {key : Bytes} {t : ℕ} {added : Bool}
    (hpc : σ.pc = .draining key t added) : Listed (σ.drain key t added) := by
  have hrep : σ.pc.replacing = none := by rw [hpc]; rfl
  have hm := h.manifest_eq hrep
  unfold Process.drain KVStore.drainOne FlushWorker.pollCompletion
  have hnone : Listed { σ with pc := if added then Pc.compacting key t else Pc.reading key t } := by
    refine h.quiet rfl rfl rfl ?_
    rw [hrep]
    cases added <;> rfl
  cases hl.flush with
  | idle h1 h2 h3 => simpa only [h3, Option.map_none] using hnone
  | queued f h1 h2 h3 => simpa only [h3, Option.map_none] using hnone
  | popped f h1 h2 h3 => simpa only [h3, Option.map_none] using hnone
  | written f h1 h2 h3 h4 => simpa only [h3, Option.map_none] using hnone
  | completed f h1 h2 h3 h4 =>
    have hnew := hl.path_new
    simp only [h3, Option.map_some, hnew, if_false]
    constructor
    · show σ.disk.manifest = _
      rw [hm]
      simp [Process.listed, Pc.replacing, FlushWorker.recorded, h2, h3]
    · intro t existing he
      simp [h2] at he

/-- The merge leaves the lists alone. -/
lemma Listed.compact (hl : Layers σ tabs none) (h : Listed σ) {key : Bytes} {t : ℕ}
    (hpc : σ.pc = .compacting key t) (io : WriteOutcome) : Listed (σ.compact key t io) := by
  have hrep : σ.pc.replacing = none := by rw [hpc]; rfl
  unfold Process.compact
  split
  · exact h.quiet rfl rfl rfl hrep.symm
  split
  · next first second rest hp =>
    have hnd := hl.nodup
    simp only [pathsWith, Option.toList_none, List.map_nil, List.append_nil, hp] at hnd
    have hne : first ≠ second := fun he => by simp [he] at hnd
    simp only [if_neg hne, KVStore.compactBegin]
    split
    all_goals
      next d hd =>
      obtain ⟨tb, rfl⟩ := KVStore.compactWrite_frame hd
      exact h.quiet rfl rfl rfl hrep.symm
  · exact h.quiet rfl rfl rfl hrep.symm

lemma Listed.rename (h : Listed σ) {key : Bytes} {t : ℕ} {j : CompactJob}
    (hpc : σ.pc = .merged key t j) (ok : Bool) : Listed (σ.rename key t j ok) := by
  have hrep : σ.pc.replacing = none := by rw [hpc]; rfl
  unfold Process.rename
  split
  · next d hd =>
    obtain ⟨tb, rfl⟩ := KVStore.compactRename_frame hd
    exact h.quiet rfl rfl rfl hrep.symm
  · next d hd =>
    obtain ⟨tb, rfl⟩ := KVStore.compactRename_frame hd
    exact h.quiet rfl rfl rfl hrep.symm

/-- **The new manifest** is written before the list of the store changes. -/
lemma Listed.replace (h : Listed σ) (key : Bytes) (t : ℕ) (j : CompactJob) :
    Listed (σ.replace key t j true) := by
  simp only [Process.replace, KVStore.compactReplace, if_true]
  exact ⟨rfl, h.loaded⟩

lemma Listed.finish (hl : Layers σ tabs none) (h : Listed σ) {key : Bytes} {t : ℕ}
    {j : CompactJob} (hpc : σ.pc = .replaced key t j) : Listed (σ.finish key t j) := by
  obtain ⟨h1, h2, h3⟩ := hl.flush.eq_nil
  have hm := h.manifest
  rw [Process.listed, hpc] at hm
  constructor
  · show σ.disk.manifest = _
    rw [hm]
    simp [Process.listed, Process.finish, KVStore.compactFinish, Pc.replacing,
      FlushWorker.recorded, h2, h3]
  · intro f existing he
    exact absurd (h2.symm.trans he) (by simp)

/-- While a flush is outstanding no compaction is in progress. -/
lemma Layers.not_replacing {f : FlushTask} (hl : Layers σ tabs (some f)) :
    σ.pc.replacing = none := by
  have hpc := hl.pc
  unfold PcOk at hpc
  cases hp : σ.pc with
  | replaced key t j => simp [hp] at hpc
  | idle | rotating | committing | draining | compacting | merged | renamed | reading | saved
  | removed => rfl

/-- **A step of the worker**: the table is appended to the manifest, and then handed back. -/
lemma Listed.work (hl : Layers σ tabs fl) (h : Listed σ) (hw : σ.work .ok = some σ') :
    Listed σ' := by
  obtain ⟨w, d, hstep, rfl⟩ := Process.work_frame hw
  have hmove : ∀ (w : FlushWorker) (d : Disk), σ.pc.replacing = none →
      d.manifest = some (replaceSstables (σ.store.sstablePaths ++ w.recorded)) →
      (∀ t existing, w.pc = .loaded t existing → existing = σ.store.sstablePaths) →
      Listed { σ with store := { σ.store with flushWorker := w }, disk := d } := by
    intro w d hrep hm hload
    exact ⟨by rw [hm, Process.listed, hrep, Option.getD_none], hload⟩
  have hrun := hl.running
  unfold FlushWorker.step at hstep
  cases hl.flush with
  | idle h1 h2 h3 => simp [h1, h2, hrun] at hstep
  | queued f h1 h2 h3 =>
    have hm := h.manifest_eq hl.not_replacing
    simp only [h2, h1, Option.some.injEq, Prod.mk.injEq] at hstep
    obtain ⟨rfl, rfl⟩ := hstep
    exact hmove _ _ hl.not_replacing (by simpa [FlushWorker.recorded, h2] using hm) (by simp)
  | popped f h1 h2 h3 =>
    have hm := h.manifest_eq hl.not_replacing
    simp only [h2, Option.some.injEq, Prod.mk.injEq] at hstep
    obtain ⟨rfl, rfl⟩ := hstep
    exact hmove _ _ hl.not_replacing (by simpa [FlushWorker.recorded, h2] using hm) (by simp)
  | written f h1 h2 h3 h4 =>
    have hm := h.manifest_eq hl.not_replacing
    rcases h2 with h2 | ⟨existing, h2⟩ | h2
    · simp only [h2, Option.some.injEq, Prod.mk.injEq] at hstep
      obtain ⟨rfl, rfl⟩ := hstep
      have hpaths : ∀ p ∈ σ.store.sstablePaths, p ≠ [] ∧ newline ∉ p := fun p hp =>
        (hl.named p (List.mem_append_left _ hp)).line
      simp only [FlushWorker.recorded, h2, h3, List.append_nil] at hm
      refine hmove _ _ hl.not_replacing (by simp [FlushWorker.recorded, h3, hm]) ?_
      intro t existing he
      obtain ⟨-, rfl⟩ := WorkerPc.loaded.inj he
      rw [hm, loadSstables_replaceSstables hpaths]
    · have hload := h.loaded f existing h2
      rw [hload] at h2
      simp only [h2, hl.path_new, if_false, Option.some.injEq, Prod.mk.injEq] at hstep
      obtain ⟨rfl, rfl⟩ := hstep
      refine hmove _ _ hl.not_replacing ?_ (by simp)
      simp only [FlushWorker.recorded, h2, h3, List.append_nil] at hm
      simp [FlushWorker.recorded, h3, hm, replaceSstables]
    · simp only [h2, Option.some.injEq, Prod.mk.injEq] at hstep
      obtain ⟨rfl, rfl⟩ := hstep
      refine hmove _ _ hl.not_replacing ?_ (by simp)
      simpa [FlushWorker.recorded, h2, h3] using hm
  | completed f h1 h2 h3 h4 => simp [h1, h2, hrun] at hstep

/-- **Every step keeps the manifest right.** -/
theorem Listed.effect (hl : Layers σ tabs fl) (h : Listed σ) {a : Action} (ha : a.succeeds = true)
    (he : σ.Effect a σ') : Listed σ' := by
  cases he with
  | put key value hpc => exact h.write hpc key (some value)
  | del key hpc =>
    unfold Process.del
    split
    · exact h.write hpc key none
    · exact h
  | rotate hpc => exact h.rotate hpc
  | commit io hpc =>
    obtain ⟨w, f, e⟩ := σ.commit_frame io
    rw [e]
    exact h.quiet rfl rfl rfl (by rw [hpc]; rfl)
  | flushWal io hpc => exact h.quiet rfl rfl rfl (by rw [hpc]; rfl)
  | setGroupCommitEvery n hpc => exact h.quiet rfl rfl rfl rfl
  | getAt key t hpc => exact h.quiet rfl rfl rfl (by rw [hpc]; rfl)
  | drain key t added hpc => exact h.drain hl hpc
  | compact key t io hpc =>
    obtain rfl : fl = none := by simpa [PcOk, hpc] using hl.pc
    exact h.compact hl hpc io
  | rename key t j ok hpc => exact h.rename hpc ok
  | replace key t j ok hpc =>
    obtain rfl : ok = true := ha
    exact h.replace key t j
  | finish key t j hpc =>
    obtain ⟨rfl, -⟩ : fl = none ∧ JobOk σ tabs j j.output := by simpa [PcOk, hpc] using hl.pc
    exact h.finish hl hpc
  | read key t hpc => exact h.quiet rfl rfl rfl (by rw [hpc]; rfl)
  | save io hpc =>
    obtain ⟨x, pc, e, hpc'⟩ := σ.save_frame io
    rw [e]
    refine h.quiet rfl rfl rfl ?_
    rcases hpc' with rfl | rfl
    · rfl
    · rw [hpc]; rfl
  | removeWal hpc => exact h.quiet rfl rfl rfl (by rw [hpc]; rfl)
  | reopenWal ok hpc => exact h.quiet rfl rfl rfl (by rw [hpc]; rfl)
  | work io _ hw =>
    cases io with
    | ok => exact h.work hl hw
    | refused => simp [Action.succeeds] at ha
    | short n => simp [Action.succeeds] at ha

/-! ### The map -/

/-- **The map has the newest version of every key.** -/
def Latest (σ : Process) : Prop :=
  ∀ key, σ.store.get key = (versionsIn σ.written key).getLast?.bind Version.value

lemma Latest.effect (h : Latest σ) {a : Action} (he : σ.Effect a σ') : Latest σ' := by
  intro key
  rcases he.map_cases with ⟨h1, h2⟩ | ⟨k, value, h1, h2⟩
  · rw [KVStore.get, h1, h2]
    exact h key
  · rw [KVStore.get, h1, h2, (σ.store.applyRecord_eq _).1, getElem?_latest, versionsIn_concat]
    have hrow : (recordRow ⟨σ.store.seq + 1, k, value⟩).1 = k := rfl
    rw [hrow]
    by_cases hk : k = key
    · simp [recordRow, hk]
    · rw [if_neg hk, if_neg hk]
      exact h key

lemma start_latest : Latest (Process.start Disk.empty) := by
  intro key
  have hmap : (Process.start Disk.empty).store.map = ∅ := rfl
  have hw : (Process.start Disk.empty).written = [] := rfl
  rw [KVStore.get, hmap, hw]
  simp [versionsIn]

/-! ### Runs -/

/-- The layers of a session, its manifest and its map. -/
structure Recorded (σ : Process) (tabs : List Entries) (fl : Option FlushTask) : Prop where
  layers : Layers σ tabs fl
  listed : Listed σ
  latest : Latest σ

/-- **Every run from empty files.** -/
theorem run_recorded {as : List Action} {σ : Process}
    (hrun : (Process.start Disk.empty).run as = some σ) (ha : ∀ a ∈ as, a.succeeds = true)
    (hp : ∀ a ∈ as, a.Plain) (hlt : σ.store.seq < 2 ^ 64) : ∃ tabs fl, Recorded σ tabs fl := by
  have h : σ.store.seq < 2 ^ 64 → ∃ tabs fl, Recorded σ tabs fl :=
    Process.run_induct (P := fun σ => σ.store.seq < 2 ^ 64 → ∃ tabs fl, Recorded σ tabs fl) hrun
      (fun a ham => And.intro (ha a ham) (hp a ham))
      (fun _ => ⟨[], none, start_layers, ⟨rfl, by rintro t existing ⟨⟩⟩, start_latest⟩)
      fun σ₁ a σ₂ hQ he ih hlt => by
        obtain ⟨tabs, fl, h⟩ := ih (he.seq_le.trans_lt hlt)
        obtain ⟨tabs', fl', h'⟩ := h.layers.effect hQ.1 hQ.2 hlt he
        exact ⟨tabs', fl', h', h.listed.effect h.layers hQ.1 he, h.latest.effect he⟩
  exact h hlt

/-! ### The end of a session -/

lemma FlushWorker.runOn_exited {w : FlushWorker} (h : w.pc = .exited) (n : ℕ) (d : Disk) :
    w.runOn n d = (w, d) := by
  cases n with
  | zero => rfl
  | succ n => simp [FlushWorker.runOn, FlushWorker.step, h]

/-- A worker with something to do does it, whether or not it is to stop. -/
lemma FlushWorker.step_busy {w : FlushWorker} (hpc : w.pc ≠ .exited)
    (hbusy : ¬ (w.pc = .waiting ∧ w.tasks = [])) (d : Disk) :
    ∃ w' d', w.step d .ok = some (w', d') ∧ w'.stepsLeft + 1 = w.stepsLeft ∧
      ({ w with stopping := true } : FlushWorker).step d .ok =
        some ({ w' with stopping := true }, d') ∧
      d'.snapshot = d.snapshot ∧ d'.wal = d.wal := by
  unfold FlushWorker.step FlushWorker.stepsLeft
  cases hp : w.pc with
  | exited => exact absurd hp hpc
  | waiting =>
    cases ht : w.tasks with
    | nil => exact absurd ⟨hp, ht⟩ hbusy
    | cons t ts => exact ⟨_, _, rfl, by simp only [List.length_cons]; omega, rfl, rfl, rfl⟩
  | popped t => exact ⟨_, _, rfl, rfl, rfl, rfl, rfl⟩
  | written t => exact ⟨_, _, rfl, rfl, rfl, rfl, rfl⟩
  | loaded t existing =>
    by_cases he : t.sstablePath ∈ existing
    · simp only [he, if_true]
      exact ⟨_, _, rfl, rfl, rfl, rfl, rfl⟩
    · simp only [he, if_false]
      exact ⟨_, _, rfl, rfl, rfl, rfl, rfl⟩
  | appended t => exact ⟨_, _, rfl, rfl, rfl, rfl, rfl⟩

/-- **A worker that is to stop ends**, once its tasks are done. -/
theorem FlushWorker.runOn_stopping {w : FlushWorker} (h : w.stopping = true) {n : ℕ}
    (hn : w.stepsLeft ≤ n) (d : Disk) : (w.runOn n d).1.pc = .exited := by
  induction n generalizing w d with
  | zero =>
    unfold FlushWorker.stepsLeft at hn
    cases hpc : w.pc <;> simp [hpc] at hn
    exact hpc
  | succ n ih =>
    by_cases hpc : w.pc = .exited
    · rw [FlushWorker.runOn_exited hpc]
      exact hpc
    by_cases hbusy : w.pc = .waiting ∧ w.tasks = []
    · simp only [FlushWorker.runOn, FlushWorker.step, hbusy.1, hbusy.2, h, if_true]
      rw [FlushWorker.runOn_exited rfl]
    · obtain ⟨w', d', -, hleft, hstep, -, -⟩ := FlushWorker.step_busy hpc hbusy d
      have hw : ({ w with stopping := true } : FlushWorker) = w := by
        obtain ⟨_, _, _, _, _⟩ := w
        simp_all
      rw [hw] at hstep
      simp only [FlushWorker.runOn, hstep]
      refine ih rfl ?_ d'
      have : w'.stepsLeft ≤ n := by omega
      exact this

/-- What the end of a session changes. -/
structure Finished (σ σ' : Process) : Prop where
  memtable : σ'.store.memtable = σ.store.memtable
  paths : σ'.store.sstablePaths = σ.store.sstablePaths
  pc : σ'.pc = σ.pc
  written : σ'.written = σ.written
  snapshot : σ'.disk.snapshot = σ.disk.snapshot
  wal : σ'.disk.wal = σ.disk.wal

lemma Layers.worker_pc (hl : Layers σ tabs fl) : σ.store.flushWorker.pc ≠ .exited := by
  cases hl.flush with
  | idle _ h2 _ | queued _ _ h2 _ | popped _ _ h2 _ | completed _ _ h2 _ _ => simp [h2]
  | written f h1 h2 h3 h4 => rcases h2 with h2 | ⟨existing, h2⟩ | h2 <;> simp [h2]

/-- **A clean exit** lets the worker finish the outstanding flush. -/
lemma Recorded.close (h : Recorded σ tabs fl) : ∃ σ', Recorded σ' tabs fl ∧ Finished σ σ' ∧
    σ'.disk = σ.store.close σ.disk ∧ σ'.store.flushWorker.held = [] := by
  obtain ⟨n, hn⟩ : ∃ n, n = σ.store.flushWorker.stepsLeft := ⟨_, rfl⟩
  have hstop : σ.store.flushWorker.stop = { σ.store.flushWorker with stopping := true } := by
    simp [FlushWorker.stop, h.layers.started]
  unfold KVStore.close
  rw [hstop, ← hn]
  clear hstop
  induction n generalizing σ with
  | zero =>
    have hpc := h.layers.worker_pc
    unfold FlushWorker.stepsLeft at hn
    cases hp : σ.store.flushWorker.pc <;> simp [hp] at hn hpc
  | succ n ih =>
    by_cases hbusy : σ.store.flushWorker.pc = .waiting ∧ σ.store.flushWorker.tasks = []
    · refine ⟨σ, h, ⟨rfl, rfl, rfl, rfl, rfl, rfl⟩, ?_, ?_⟩
      · simp only [FlushWorker.runOn, FlushWorker.step, hbusy.1, hbusy.2, if_true]
        rw [FlushWorker.runOn_exited rfl]
      · simp [FlushWorker.held, hbusy.1, hbusy.2]
    · obtain ⟨w', d', hstep, hleft, hstep', hsnap, hwal⟩ :=
        FlushWorker.step_busy h.layers.worker_pc hbusy σ.disk
      set σ₁ : Process := { σ with store := { σ.store with flushWorker := w' }, disk := d' } with hσ₁
      have hwork : σ.work .ok = some σ₁ := by simp [Process.work, hstep, hσ₁]
      have h₁ : Recorded σ₁ tabs fl := ⟨h.layers.work hwork, h.listed.work h.layers hwork, h.latest⟩
      obtain ⟨σ', hr, hf, hd, hheld⟩ := ih h₁ (show n = w'.stepsLeft by omega)
      refine ⟨σ', hr, ⟨hf.memtable, hf.paths, hf.pc, hf.written, hf.snapshot.trans hsnap,
        hf.wal.trans hwal⟩, ?_, hheld⟩
      rw [hd]
      simp only [FlushWorker.runOn, hstep', hσ₁]

end Steps

end VeriStore.Store

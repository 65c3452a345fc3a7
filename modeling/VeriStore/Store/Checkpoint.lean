import VeriStore.Store.Loader
import VeriStore.Store.Restart

/-!
A checkpoint and a clean restart.

A checkpoint saves the versions of the memtable and removes the log, so that the next process
finds the memtable in the snapshot and everything else in the tables. `get` asks the map, and the
map is rebuilt from the snapshot alone: a key whose versions have all been flushed is lost to it.
`get_at` asks all layers. It finds every version after the restart; before it, the versions of a
flush that is not completed are missing.

* `checkpoint_iff` — when a checkpoint and a restart change no answer;
* `checkpoint_forgets` — a flushed key that `get` does not find after the restart.
-/

namespace VeriStore.Store

open VeriStore.Lib VeriStore.Sstable VeriStore.Log

open KVStore (CompactIo)

/-! ### The snapshot -/

/-- **A snapshot is loaded back.** -/
lemma loadedSnapshot_saved {d : Disk} {e : Entries} (h : d.snapshot = some (saveToFile e))
    (hok : ∀ r ∈ rows e, LineOk r) :
    Contents (loadedSnapshot d).map (loadedSnapshot d).memtable.entries (rows e) := by
  obtain ⟨-, hc, -⟩ := loadFromFile_saveToFile hok KVStore.new
  rw [loadedSnapshot, h]
  exact hc

/-- What `open` restores from a snapshot and an empty log. -/
lemma start_of_snapshot {d : Disk} {e : Entries} (h : d.snapshot = some (saveToFile e))
    (hok : ∀ r ∈ rows e, LineOk r) (hwal : d.wal = some []) :
    Contents (Process.start d).store.map (Process.start d).store.memtable.entries (rows e) := by
  have hc := start_contents (loadedSnapshot_saved h hok)
  rwa [hwal, Option.getD_some, records_nil, List.map_nil, List.append_nil] at hc

/-! ### The run of a checkpoint -/

/-- The actions of a checkpoint that succeeds, with steps of the worker between them and behind
them. -/
def checkpointWith (ws₁ ws₂ ws₃ : List Action) : List Action :=
  .save .ok :: ws₁ ++ (.removeWal :: ws₂ ++ .reopenWal true :: ws₃)

/-- What steps of the worker leave alone. -/
structure WorkedOn (σ σ' : Process) : Prop where
  memtable : σ'.store.memtable = σ.store.memtable
  pc : σ'.pc = σ.pc
  snapshot : σ'.disk.snapshot = σ.disk.snapshot
  wal : σ'.disk.wal = σ.disk.wal
  seq : σ'.store.seq = σ.store.seq
  written : σ'.written = σ.written

lemma run_worked {σ σ' : Process} {ws : List Action} (hrun : σ.run ws = some σ')
    (hws : ∀ a ∈ ws, a = .work .ok) : WorkedOn σ σ' := by
  refine Process.run_induct (P := fun τ => WorkedOn σ τ) hrun hws ⟨rfl, rfl, rfl, rfl, rfl, rfl⟩ ?_
  rintro σ₁ _ σ₂ rfl he h
  cases he with
  | work _ _ hw =>
    obtain ⟨w, d, hstep, rfl⟩ := Process.work_frame hw
    obtain ⟨hwal, hsnap⟩ := FlushWorker.step_files hstep
    exact ⟨h.memtable, h.pc, hsnap.trans h.snapshot, hwal.trans h.wal, h.seq, h.written⟩

lemma Process.run_cons {σ σ' : Process} {a : Action} {as : List Action}
    (h : σ.run (a :: as) = some σ') : ∃ σ₁, σ.Effect a σ₁ ∧ σ₁.run as = some σ' := by
  unfold Process.run at h
  rw [List.foldlM_cons] at h
  obtain ⟨σ₁, h1, h2⟩ := Option.bind_eq_some_iff.mp h
  exact ⟨σ₁, Process.step_effect h1, h2⟩

/-- **A checkpoint**: the snapshot has the memtable, and the log is empty. -/
lemma run_checkpoint {σ σ' : Process} {ws₁ ws₂ ws₃ : List Action} (ho : σ.store.opened = true)
    (hrun : σ.run (checkpointWith ws₁ ws₂ ws₃) = some σ')
    (hws : ∀ a ∈ ws₁ ++ ws₂ ++ ws₃, a = .work .ok) :
    σ'.store.memtable = σ.store.memtable ∧ σ'.store.seq = σ.store.seq ∧ σ'.written = σ.written ∧
      σ'.pc = .idle ∧ σ'.disk.snapshot = some (saveToFile σ.store.memtable.entries) ∧
      σ'.disk.wal = some [] := by
  simp only [List.mem_append, or_imp, forall_and] at hws
  obtain ⟨⟨hws₁, hws₂⟩, hws₃⟩ := hws
  obtain ⟨τ₁, hrun₁, hrun⟩ := Process.run_append hrun
  obtain ⟨σ₁, hsave, hrun₁⟩ := Process.run_cons hrun₁
  obtain ⟨τ₂, hrun₂, hrun⟩ := Process.run_append hrun
  obtain ⟨σ₂, hremove, hrun₂⟩ := Process.run_cons hrun₂
  obtain ⟨σ₃, hreopen, hrun₃⟩ := Process.run_cons hrun
  have w₁ := run_worked hrun₁ hws₁
  have w₂ := run_worked hrun₂ hws₂
  have w₃ := run_worked hrun₃ hws₃
  cases hsave with | save _ hidle
  cases hremove with | removeWal _
  cases hreopen with | reopenWal _ _
  have hsaved : σ.save .ok = { σ with
      disk := { σ.disk with snapshot := some (saveToFile σ.store.memtable.entries) }
      pc := .saved } := by
    simp [Process.save, saveToFileUnlocked, ho]
  rw [hsaved] at w₁
  have hnone : τ₂.disk.wal = none := w₂.wal
  have hopen : (τ₂.reopenWal true).disk.wal = some [] ∧ (τ₂.reopenWal true).pc = .idle ∧
      (τ₂.reopenWal true).store.memtable = τ₂.store.memtable ∧
      (τ₂.reopenWal true).store.seq = τ₂.store.seq ∧ (τ₂.reopenWal true).written = τ₂.written ∧
      (τ₂.reopenWal true).disk.snapshot = τ₂.disk.snapshot := by
    simp [Process.reopenWal, Wal.open, hnone]
  obtain ⟨h1, h2, h3, h4, h5, h6⟩ := hopen
  refine ⟨?_, ?_, ?_, w₃.pc.trans h2, ?_, w₃.wal.trans h1⟩
  · rw [w₃.memtable, h3, w₂.memtable]
    exact w₁.memtable
  · rw [w₃.seq, h4, w₂.seq]
    exact w₁.seq
  · rw [w₃.written, h5, w₂.written]
    exact w₁.written
  · rw [w₃.snapshot, h6, w₂.snapshot]
    exact w₁.snapshot

/-! ### Answers -/

/-- The versions in the tables. -/
def Process.tabled (σ : Process) : List Row := σ.store.sstablePaths.flatMap (tableRows σ.disk)

section Answers

variable {σ : Process} {tabs : List Entries} {fl : Option FlushTask}

lemma Layers.versionsIn_tabled (h : Layers σ tabs fl) (key : Bytes) :
    versionsIn σ.tabled key = tabs.flatMap fun e => versionsOf e key := by
  rw [Process.tabled, List.flatMap_def, map_tableRows h.tables fun e he => h.ok e (by simp [parts, he]),
    ← List.flatMap_def, versionsIn_flatMap_rows]

/-- The tables of a store with its flushes are live. -/
lemma Layers.older (h : Layers σ tabs fl) :
    (tabs ++ fl.toList.map FlushTask.entries).Pairwise Older := by
  refine (List.pairwise_append.mp h.ordered).1.imp fun {a b} hab key v hv w hw => Or.inl ?_
  exact hab (key, v) (mem_rows.mpr hv) (key, w) (mem_rows.mpr hw)

/-- **The answer of `get_at`** when no flush is outstanding or it is completed: the last visible
version written. -/
lemma Layers.getAt_eq (h : Layers σ tabs fl) (hheld : σ.store.flushWorker.held = [])
    (key : Bytes) (t : ℕ) (io : CompactIo) : (σ.store.getAt σ.disk key t io).1 =
      (lastVisible Version.timestamp (versionsIn σ.written key) t).bind Version.value := by
  rcases h.flush.of_held hheld with ⟨rfl, hc⟩ | ⟨f, rfl, hcomp, hfile⟩
  · rw [KVStore.getAt_of_nil hc, h.readAt_eq]
  set s : KVStore := { σ.store with
    sstablePaths := σ.store.sstablePaths ++ [f.sstablePath]
    immutable := none
    flushWorker := { σ.store.flushWorker with completions := [] } } with hs
  have hpart : ∀ e ∈ tabs ++ [f.entries], EntriesOk e := fun e he =>
    h.ok e (List.mem_append_left _ (by simpa using he))
  have hlive : LiveTables s.sstablePaths σ.disk (tabs ++ [f.entries]) :=
    ⟨List.rel_append h.tables (.cons hfile .nil), fun e he => (hpart e he).rowOk,
      by simpa [pathsWith] using h.nodup, by simpa using h.older⟩
  have htemp : NoTemporary s.sstablePaths := fun id hm =>
    (h.named (compactedPath id ++ text ".tmp") hm).ne_temp rfl
  have hsingle : SingleTimestamps (tabs ++ [f.entries]) := fun e he key =>
    ((hpart e (List.mem_of_mem_take he)).ordered key).consistent
  have hread := (compaction_transparent hlive htemp hsingle io).1 key t
  rw [KVStore.getAt, (layers_iff_stacked.mp h).drain_completed hcomp]
  refine hread.trans ?_
  rw [readAt_tables (by simp [hs]) hlive.holds hpart, h.content]
  simp [parts, hs]

/-- **The answer of `get_at`** while a flush is outstanding: its versions are missing. -/
lemma Layers.getAt_held (h : Layers σ tabs fl) (hheld : σ.store.flushWorker.held ≠ [])
    (key : Bytes) (t : ℕ) (io : CompactIo) : (σ.store.getAt σ.disk key t io).1 =
      (lastVisible Version.timestamp (versionsIn (σ.tabled ++ rows σ.store.memtable.entries) key)
        t).bind Version.value := by
  have hc : σ.store.flushWorker.completions = [] := by
    unfold FlushWorker.held at hheld
    cases h.flush with
    | idle h1 h2 h3 => exact h3
    | queued t h1 h2 h3 => exact h3
    | popped t h1 h2 h3 => exact h3
    | written t h1 h2 h3 h4 => exact h3
    | completed t h1 h2 h3 h4 => simp [h1, h2] at hheld
  have himm : ∀ e, σ.store.immutable = some e → e = ∅ := by
    intro e he
    rw [h.immutable] at he
    obtain ⟨_, _, rfl⟩ := Option.map_eq_some_iff.mp he
    rfl
  rw [KVStore.getAt_of_nil hc, readAt_tables himm h.tables fun e he => h.ok e (by simp [parts, he]),
    versionsIn_append, h.versionsIn_tabled, versionsIn_rows]
  simp [parts]

/-- The versions of a key: the tables, the outstanding flush and the memtable. -/
lemma Layers.versionsIn_written (h : Layers σ tabs fl) (key : Bytes) :
    versionsIn σ.written key = versionsIn σ.tabled key ++
      (fl.toList.flatMap fun f => versionsOf f.entries key) ++
        versionsOf σ.store.memtable.entries key := by
  rw [h.content, h.versionsIn_tabled]
  simp [parts, List.flatMap_def, Function.comp_def]

/-- A snapshot can hold the memtable. -/
lemma Layers.lineOk (h : Layers σ tabs fl) : ∀ r ∈ rows σ.store.memtable.entries, LineOk r :=
  fun r hr => RowOk.lineOk ((h.ok σ.store.memtable.entries (by simp [parts])).rowOk r hr)

/-- **What the next process answers** after a checkpoint: `get` knows the memtable alone, and
`get_at` every version. -/
lemma Recorded.restart_answers (h : Recorded σ tabs fl) (hpc : σ.pc = .idle)
    (hsnap : σ.disk.snapshot = some (saveToFile σ.store.memtable.entries))
    (hwal : σ.disk.wal = some []) (key : Bytes) :
    σ.restart.store.get key =
      (versionsOf σ.store.memtable.entries key).getLast?.bind Version.value ∧
    ∀ t io, (σ.restart.store.getAt σ.restart.disk key t io).1 =
      (lastVisible Version.timestamp (versionsIn σ.written key) t).bind Version.value := by
  obtain ⟨σ', hr', hfin, hdisk, hheld⟩ := h.close
  obtain ⟨hload, hlive⟩ := hr'.liveTables (by rw [hfin.pc, hpc]; rfl) hheld
  rw [hdisk] at hload hlive
  rw [← hload] at hlive
  have hcont : Contents σ.restart.store.map σ.restart.store.memtable.entries
      (rows σ.store.memtable.entries) := by
    refine start_of_snapshot ?_ h.layers.lineOk ?_
    · rw [← hdisk, hfin.snapshot, hsnap]
    · rw [← hdisk, hfin.wal, hwal]
  have hpart : ∀ e ∈ tabs ++ fl.toList.map FlushTask.entries, EntriesOk e := fun e he =>
    hr'.layers.ok e (List.mem_append_left _ he)
  have htemp : NoTemporary (loadSstables (σ.store.close σ.disk).manifest) := by
    intro id hm
    rw [hload] at hm
    exact (hr'.layers.named _ hm).ne_temp rfl
  have hsingle : SingleTimestamps (tabs ++ fl.toList.map FlushTask.entries) := fun e he key =>
    ((hpart e (List.mem_of_mem_take he)).ordered key).consistent
  refine ⟨by rw [KVStore.get, hcont.map, versionsIn_rows], fun t io => ?_⟩
  have hnew : ((tabs ++ fl.toList.map FlushTask.entries).reverse.map fun e =>
      newestResult (versionsOf e key) t) =
      ((tabs ++ fl.toList.map FlushTask.entries).map fun e => versionsOf e key).reverse.map fun vs =>
        ((lastVisible Version.timestamp vs t).map Version.result).getD .notFound := by
    rw [← List.map_reverse, List.map_map]
    refine List.map_congr_left fun e he => ?_
    rw [newestResult, newestVisible_eq_lastVisible ((hpart e (List.mem_reverse.mp he)).ordered key)]
    rfl
  have hall := firstHit_lastVisible ((parts tabs fl σ.store.memtable.entries).map
    (versionsOf · key)).reverse t
  rw [← lastVisible_flatten, ← List.flatMap_def, ← h.layers.content] at hall
  rw [Process.restart, start_getAt hlive htemp hsingle hcont, hnew, versionsIn_rows, ← hall]
  simp [parts]

/-- The tasks of the worker are those of the outstanding flush. -/
lemma Layers.held_eq (h : Layers σ tabs fl) (hne : σ.store.flushWorker.held ≠ []) :
    ∃ f, fl = some f ∧ σ.store.flushWorker.held = [f] := by
  unfold FlushWorker.held at hne ⊢
  cases h.flush with
  | idle h1 h2 h3 => simp [h1, h2] at hne
  | queued t h1 h2 h3 => exact ⟨t, rfl, by simp [h1, h2]⟩
  | popped t h1 h2 h3 => exact ⟨t, rfl, by simp [h1, h2]⟩
  | written t h1 h2 h3 h4 =>
    rcases h2 with h2 | ⟨existing, h2⟩ | h2 <;> exact ⟨t, rfl, by simp [h1, h2]⟩
  | completed t h1 h2 h3 h4 => simp [h1, h2] at hne

end Answers

/-! ### The main result -/

/-- The second process answers as the first one does: `get`, the test for the key in `del`, and
`get_at` up to the counter of the first. -/
structure Transparent (σ σ' : Process) : Prop where
  get : ∀ key, σ'.store.get key = σ.store.get key
  present : ∀ key : Bytes, σ'.store.map[key]?.isSome = σ.store.map[key]?.isSome
  getAt : ∀ key t io io', t ≤ σ.store.seq →
    (σ'.store.getAt σ'.disk key t io).1 = (σ.store.getAt σ.disk key t io').1

/-- **What a checkpoint captures**: every key in the map has a version in the memtable, and a flush
that the worker has not completed only repeats what the tables answer. -/
structure Process.Captured (σ : Process) : Prop where
  live : ∀ key, (σ.store.get key).isSome → versionsOf σ.store.memtable.entries key ≠ []
  flushed : ∀ f ∈ σ.store.flushWorker.held, ∀ key, ∀ v ∈ versionsOf f.entries key,
    v.value = (versionsIn σ.tabled key).getLast?.bind Version.value

lemma run_opened {σ : Process} {as : List Action}
    (hrun : (Process.start Disk.empty).run as = some σ) : σ.store.opened = true :=
  Process.run_induct (P := fun σ => σ.store.opened = true) (Q := fun _ => True) hrun
    (fun _ _ => trivial) rfl fun _ _ _ _ he h => he.alive.opened.trans h

section Captured

variable {σ : Process} {tabs : List Entries} {fl : Option FlushTask}

/-- **The map**: what the memtable knows is what the map knows, for the keys it has. -/
lemma Recorded.get_iff (h : Recorded σ tabs fl) :
    (∀ key, (versionsOf σ.store.memtable.entries key).getLast?.bind Version.value =
      σ.store.get key) ↔
    ∀ key, (σ.store.get key).isSome → versionsOf σ.store.memtable.entries key ≠ [] := by
  constructor
  · intro hget key hsome hnil
    rw [← hget, hnil] at hsome
    simp at hsome
  · intro hlive key
    by_cases hnil : versionsOf σ.store.memtable.entries key = []
    · have hnone : ¬ (σ.store.get key).isSome := fun hsome => hlive key hsome hnil
      rw [Option.not_isSome_iff_eq_none] at hnone
      rw [hnil, hnone]
      rfl
    · rw [h.latest, h.layers.versionsIn_written, List.getLast?_append_of_ne_nil _ hnil]

/-- **The outstanding flush**: its versions are not missed where they repeat what the tables
answer. -/
lemma Layers.missing_iff {f : FlushTask} (h : Layers σ tabs (some f)) (key : Bytes) :
    (∀ t ≤ σ.store.seq,
      (lastVisible Version.timestamp (versionsIn σ.written key) t).bind Version.value =
        (lastVisible Version.timestamp (versionsIn (σ.tabled ++ rows σ.store.memtable.entries) key)
          t).bind Version.value) ↔
    ∀ v ∈ versionsOf f.entries key,
      v.value = (versionsIn σ.tabled key).getLast?.bind Version.value := by
  have hw := h.versionsIn_written key
  have hasc := h.ascending_key key
  simp only [Option.toList_some, List.flatMap_cons, List.flatMap_nil, List.append_nil] at hw
  rw [hw] at hasc
  obtain ⟨htf, -, hmem⟩ := List.pairwise_append.mp hasc
  obtain ⟨-, -, htab⟩ := List.pairwise_append.mp htf
  rw [versionsIn_append, versionsIn_rows, hw]
  set T := versionsIn σ.tabled key
  set F := versionsOf f.entries key
  set M := versionsOf σ.store.memtable.entries key
  -- at the time of a version of the flush all of the tables and nothing of the memtable is visible
  have hT : ∀ v ∈ F, ∀ t, v.timestamp ≤ t →
      lastVisible Version.timestamp T t = T.getLast? := fun v hv t ht =>
    lastVisible_of_forall fun w hwT => (htab w hwT v hv).le.trans ht
  have hM : ∀ v ∈ F, lastVisible Version.timestamp M v.timestamp = none := fun v hv =>
    lastVisible_eq_none_iff.mpr fun w hwM => not_le.mpr (hmem v (List.mem_append_right T hv) w hwM)
  constructor
  · intro hread v hv
    have hvw : (key, v) ∈ σ.written := by
      rw [← mem_versionsIn, hw]
      simp [F, hv]
    have hnew : lastVisible Version.timestamp (T ++ F ++ M) v.timestamp = some v :=
      (lastVisible_eq_some_iff hasc).mpr ⟨by simp [hv], le_rfl, fun w _ hwt => hwt⟩
    have hthis := hread v.timestamp (h.le_seq _ hvw)
    rw [hnew, Option.bind_some, lastVisible_append, hM v hv, Option.none_or, hT v hv _ le_rfl] at hthis
    exact hthis
  · intro hrep t _
    simp only [lastVisible_append]
    cases lastVisible Version.timestamp M t with
    | some v => rfl
    | none =>
      cases hF : lastVisible Version.timestamp F t with
      | none => rfl
      | some v =>
        obtain ⟨hv, hvt⟩ := mem_of_lastVisible hF
        rw [Option.none_or, Option.some_or, Option.none_or, hT v hv t hvt, Option.bind_some]
        exact hrep v hv

end Captured

lemma checkpointWith_ok {ws₁ ws₂ ws₃ : List Action} (hws : ∀ a ∈ ws₁ ++ ws₂ ++ ws₃, a = .work .ok) :
    ∀ a ∈ checkpointWith ws₁ ws₂ ws₃, a.succeeds = true ∧ a.Plain := by
  intro a ham
  simp only [checkpointWith, List.mem_append, List.mem_cons] at ham hws
  rcases ham with (rfl | ham) | (rfl | ham) | rfl | ham
  · exact ⟨rfl, trivial⟩
  · exact hws a (Or.inl (Or.inl ham)) ▸ ⟨rfl, trivial⟩
  · exact ⟨rfl, trivial⟩
  · exact hws a (Or.inl (Or.inr ham)) ▸ ⟨rfl, trivial⟩
  · exact ⟨rfl, trivial⟩
  · exact hws a (Or.inr ham) ▸ ⟨rfl, trivial⟩

/-- **The next process** after a session that ends with a checkpoint. -/
lemma checkpointed_answers {as ws₁ ws₂ ws₃ : List Action} {σ σ' : Process}
    (hrun : (Process.start Disk.empty).run as = some σ)
    (hcp : σ.run (checkpointWith ws₁ ws₂ ws₃) = some σ')
    (hws : ∀ a ∈ ws₁ ++ ws₂ ++ ws₃, a = .work .ok) (ha : ∀ a ∈ as, a.succeeds = true)
    (hp : ∀ a ∈ as, a.Plain) (hlt : σ.store.seq < 2 ^ 64) (key : Bytes) :
    σ'.restart.store.get key =
      (versionsOf σ.store.memtable.entries key).getLast?.bind Version.value ∧
    ∀ t io, (σ'.restart.store.getAt σ'.restart.disk key t io).1 =
      (lastVisible Version.timestamp (versionsIn σ.written key) t).bind Version.value := by
  obtain ⟨hmem, hseq, hw, hpc, hsnap, hwal⟩ := run_checkpoint (run_opened hrun) hcp hws
  have hcs : ∀ a ∈ as ++ checkpointWith ws₁ ws₂ ws₃, a.succeeds = true ∧ a.Plain := by
    intro a ham
    rcases List.mem_append.mp ham with ham | ham
    · exact ⟨ha a ham, hp a ham⟩
    · exact checkpointWith_ok hws a ham
  obtain ⟨tabs', fl', h'⟩ := run_recorded (Process.run_trans hrun hcp) (fun a ham => (hcs a ham).1)
    (fun a ham => (hcs a ham).2) (hseq ▸ hlt)
  have hafter := h'.restart_answers hpc (by rw [hsnap, hmem]) hwal key
  rwa [hmem, hw] at hafter

/-- **Transparency of a checkpoint.** In every run from empty files whose system calls succeed,
with keys that are words and values that fit on a line and do not begin with white space: when a
checkpoint has returned true and the process has ended, whatever the worker did, the next process
answers as before exactly when the checkpoint captured everything. -/
theorem checkpoint_iff {as ws₁ ws₂ ws₃ : List Action} {σ σ' : Process}
    (hrun : (Process.start Disk.empty).run as = some σ)
    (hcp : σ.run (checkpointWith ws₁ ws₂ ws₃) = some σ')
    (hws : ∀ a ∈ ws₁ ++ ws₂ ++ ws₃, a = .work .ok) (ha : ∀ a ∈ as, a.succeeds = true)
    (hp : ∀ a ∈ as, a.Plain) (hlt : σ.store.seq < 2 ^ 64) :
    Transparent σ σ'.restart ↔ σ.Captured := by
  obtain ⟨tabs, fl, h⟩ := run_recorded hrun ha hp hlt
  have hafter := checkpointed_answers hrun hcp hws ha hp hlt
  constructor
  · intro htr
    refine ⟨h.get_iff.mp fun key => ?_, fun f hf key => ?_⟩
    · rw [← (hafter key).1]
      exact htr.get key
    · obtain ⟨g, rfl, hheld⟩ := h.layers.held_eq (List.ne_nil_of_mem hf)
      obtain rfl : f = g := by simpa [hheld] using hf
      refine (h.layers.missing_iff key).mp fun t ht => ?_
      rw [← (hafter key).2 t .ok, ← h.layers.getAt_held (List.ne_nil_of_mem hf) key t .ok]
      exact htr.getAt key t .ok .ok ht
  · intro hcap
    have hget : ∀ key, σ'.restart.store.get key = σ.store.get key := fun key =>
      (hafter key).1.trans (h.get_iff.mpr hcap.live key)
    refine ⟨hget, fun key => congrArg Option.isSome (hget key), fun key t io io' ht => ?_⟩
    rw [(hafter key).2 t io]
    by_cases hheld : σ.store.flushWorker.held = []
    · rw [h.layers.getAt_eq hheld]
    · obtain ⟨f, rfl, hf⟩ := h.layers.held_eq hheld
      rw [h.layers.getAt_held hheld]
      exact (h.layers.missing_iff key).mpr (hcap.flushed f (by simp [hf]) key) t ht

lemma checkpoint_runs {σ : Process} (ho : σ.store.opened = true) (hpc : σ.pc = .idle) :
    ∃ σ', σ.run (checkpointWith [] [] []) = some σ' := by
  set σ₁ : Process := { σ with
    disk := { σ.disk with snapshot := some (saveToFile σ.store.memtable.entries) }
    pc := .saved } with hσ₁
  have hsave : σ.step (.save .ok) = some σ₁ := by
    simp [Process.step, hpc, Process.save, saveToFileUnlocked, ho, hσ₁]
  refine ⟨σ₁.removeWal.reopenWal true, ?_⟩
  simp only [Process.run, checkpointWith, List.cons_append, List.nil_append, List.foldlM_cons, hsave,
    Option.bind_eq_bind, Option.bind_some]
  rfl

/-- **A flushed key is forgotten**: the checkpoint saves an empty memtable and removes the log. -/
theorem checkpoint_forgets :
    (∀ a ∈ flushedPut largeValue, a.succeeds = true ∧ a.Plain) ∧
    ∃ σ σ', (Process.start Disk.empty).run (flushedPut largeValue) = some σ ∧
      σ.run (checkpointWith [] [] []) = some σ' ∧ σ.store.seq = 1 ∧
      σ.store.get (text "a") = some largeValue ∧ σ'.restart.store.get (text "a") = none ∧
      ¬ Transparent σ σ'.restart := by
  have hplain : ∀ a ∈ flushedPut largeValue, a.succeeds = true ∧ a.Plain := by
    have hput : (Action.put (text "a") largeValue).Plain := ⟨by decide, clean_replicate _⟩
    simp only [flushedPut, List.forall_mem_cons]
    exact ⟨⟨rfl, hput⟩, ⟨rfl, trivial⟩, ⟨rfl, trivial⟩, ⟨rfl, trivial⟩, by simp⟩
  have hlen : kMemTableFlushThresholdBytes ≤ largeValue.length := by simp [largeValue]
  obtain ⟨σ, hrun, hget, -, hpc, hseq, hempty⟩ := flushedPut_run hlen
  obtain ⟨σ', hcp⟩ := checkpoint_runs (run_opened hrun) hpc
  have hnone : σ'.restart.store.get (text "a") = none := by
    rw [(checkpointed_answers hrun hcp (by simp) (fun a ham => (hplain a ham).1)
      (fun a ham => (hplain a ham).2) (by rw [hseq]; decide) (text "a")).1, hempty,
      versionsOf_empty]
    rfl
  refine ⟨hplain, σ, σ', hrun, hcp, hseq, hget, hnone, fun htr => ?_⟩
  have hsame := htr.get (text "a")
  rw [hnone, hget] at hsame
  simp at hsame

/-- The only key of the map has a version in the memtable, and no flush is outstanding. -/
lemma aboveTable_captured (v : Bytes) : (aboveTable v).Captured := by
  have hmem : ∀ key, versionsOf (aboveTable v).store.memtable.entries key =
      if text "a" = key then [⟨2, some (text "2")⟩] else [] := by
    intro key
    have he : (aboveTable v).store.memtable.entries = pushVersion ∅ (text "a") ⟨2, some (text "2")⟩ := rfl
    rw [he, versionsOf_pushVersion, versionsOf_empty, versionsOf_empty, List.nil_append]
  refine ⟨fun key hsome => ?_, fun f hf => absurd hf List.not_mem_nil⟩
  rw [hmem]
  split
  · simp
  · next hkey =>
    have hget : (aboveTable v).store.get key = none := by
      simp [KVStore.get, aboveTable, hkey]
    rw [hget] at hsome
    cases hsome

/-- A checkpoint with a table below the memtable: both versions are read afterwards. -/
theorem checkpoint_iff_both : ∃ σ σ', (Process.start Disk.empty).run (overTable largeValue) = some σ ∧
    σ.run (checkpointWith [] [] []) = some σ' ∧ σ.store.sstablePaths = [flushPath 0] ∧
    Transparent σ σ'.restart ∧ σ'.restart.store.get (text "a") = some (text "2") := by
  have hrun := overTable_run (v := largeValue) (by simp [largeValue])
  have hplain := overTable_plain clean_largeValue
  obtain ⟨σ', hcp⟩ := checkpoint_runs (run_opened hrun) rfl
  have htr := (checkpoint_iff hrun hcp (by simp) (fun a ha => (hplain a ha).1)
    (fun a ha => (hplain a ha).2) (by decide)).mpr (aboveTable_captured largeValue)
  exact ⟨_, σ', hrun, hcp, rfl, htr, (htr.get _).trans Std.ExtTreeMap.getElem?_insert_self⟩

end VeriStore.Store

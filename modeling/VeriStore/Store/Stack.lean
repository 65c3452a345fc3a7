import VeriStore.Sstable.Compaction
import VeriStore.Store.Process
import VeriStore.Store.Snapshot

/-!
The tables, the outstanding flush and the memtable, step by step.

A rotation starts a flush, a completion turns it into the last table, and a compaction merges the
first two tables. What is said about the versions in these places is left open: a property of the
list of versions, the map and the entries of the places that allows the four changes (`Stacking`)
holds along every run, together with the facts about the files and the worker that the changes rest
on (`Stacked`).

* `Stacked.effect` — every step keeps such a property.
-/

namespace VeriStore.Store

open VeriStore.Lib VeriStore.Sstable VeriStore.Log

open KVStore (CompactJob)

/-! ### Names of tables -/

lemma flushPath_injective : Function.Injective flushPath := by
  intro i j h
  unfold flushPath at h
  exact decimal_injective (List.append_cancel_left (List.append_cancel_right h))

lemma compactedPath_injective : Function.Injective compactedPath := by
  intro i j h
  unfold compactedPath at h
  exact decimal_injective (List.append_cancel_left (List.append_cancel_right h))

lemma flushPath_ne_compactedPath (i j : ℕ) : flushPath i ≠ compactedPath j := by
  intro h
  have hsplit : text "/tmp/veristore-compacted-" = text "/tmp/veristore-" ++ text "compacted-" := by
    decide
  unfold flushPath compactedPath at h
  rw [hsplit, List.append_assoc, List.append_assoc, List.append_assoc] at h
  have hhead := congrArg List.head? (List.append_cancel_left h)
  cases hd : decimal i with
  | nil => exact decimal_ne_nil i hd
  | cons c r =>
    have hc := isDigit_of_mem_decimal i c (by rw [hd]; simp)
    rw [hd] at hhead
    have hcc : some c = (text "compacted-").head? := hhead
    obtain rfl : c = 99 := Option.some.inj (hcc.trans (by decide))
    exact absurd hc (by decide)

/-- The path of a table with a number below `n`. -/
def TablePath (n : ℕ) (p : Bytes) : Prop := ∃ i < n, p = flushPath i ∨ p = compactedPath i

lemma TablePath.mono {n m : ℕ} {p : Bytes} (h : TablePath n p) (hnm : n ≤ m) : TablePath m p := by
  obtain ⟨i, hi, hp⟩ := h
  exact ⟨i, by omega, hp⟩

lemma TablePath.ne_flushPath {n : ℕ} {p : Bytes} (h : TablePath n p) : p ≠ flushPath n := by
  obtain ⟨i, hi, rfl | rfl⟩ := h
  · exact fun he => absurd (flushPath_injective he) (by omega)
  · exact fun he => flushPath_ne_compactedPath n i he.symm

lemma TablePath.ne_compactedPath {n : ℕ} {p : Bytes} (h : TablePath n p) : p ≠ compactedPath n := by
  obtain ⟨i, hi, rfl | rfl⟩ := h
  · exact flushPath_ne_compactedPath i n
  · exact fun he => absurd (compactedPath_injective he) (by omega)

/-- No table has a temporary name. -/
lemma TablePath.ne_temp {n : ℕ} {p q : Bytes} (h : TablePath n p) : p ≠ q ++ text ".tmp" := by
  have hlast : ∀ x : Bytes, (x ++ text ".sst").getLast? = some 116 := fun x => by
    rw [List.getLast?_append]
    rfl
  have htemp : (q ++ text ".tmp").getLast? = some 112 := by
    rw [List.getLast?_append]
    rfl
  intro he
  rw [← he] at htemp
  obtain ⟨i, -, rfl | rfl⟩ := h
  · exact absurd (htemp.symm.trans (hlast _)) (by decide)
  · exact absurd (htemp.symm.trans (hlast _)) (by decide)

/-- The path of a table fits on a line. -/
lemma TablePath.line {n : ℕ} {p : Bytes} (h : TablePath n p) : p ≠ [] ∧ newline ∉ p := by
  have hnl : ∀ a b : Bytes, newline ∉ a → newline ∉ b → ∀ i, newline ∉ a ++ decimal i ++ b :=
    fun a b ha hb i hm => by
      rcases List.mem_append.mp hm with hm | hm
      · rcases List.mem_append.mp hm with hm | hm
        · exact ha hm
        · exact newline_notMem_decimal i hm
      · exact hb hm
  obtain ⟨i, -, rfl | rfl⟩ := h
  · exact ⟨by simp [flushPath, text], hnl _ _ (by decide) (by decide) i⟩
  · exact ⟨by simp [compactedPath, text], hnl _ _ (by decide) (by decide) i⟩

/-- **The manifest is read back.** -/
lemma loadSstables_replaceSstables {ps : List Bytes} (h : ∀ p ∈ ps, p ≠ [] ∧ newline ∉ p) :
    loadSstables (some (replaceSstables ps)) = ps := by
  have hlines : lines (replaceSstables ps) = ps := by
    induction ps with
    | nil => rfl
    | cons p ps ih =>
      have ih := ih fun q hq => h q (List.mem_cons_of_mem p hq)
      rw [replaceSstables, List.flatMap_cons, manifestLine, List.append_assoc, List.singleton_append,
        lines_append (h p (by simp)).2]
      exact congrArg (p :: ·) ih
  rw [loadSstables, Option.getD_some, hlines, List.filter_eq_self]
  exact fun p hp => by simpa using (h p hp).1

/-! ### The invariant -/

/-- The flush that the worker has not handed back: where its task is, and the file once it has
been written. -/
inductive FlushAt (w : FlushWorker) (d : Disk) : Option FlushTask → Prop
  | idle (h1 : w.tasks = []) (h2 : w.pc = .waiting) (h3 : w.completions = []) : FlushAt w d none
  | queued (t : FlushTask) (h1 : w.tasks = [t]) (h2 : w.pc = .waiting) (h3 : w.completions = []) :
      FlushAt w d (some t)
  | popped (t : FlushTask) (h1 : w.tasks = []) (h2 : w.pc = .popped t) (h3 : w.completions = []) :
      FlushAt w d (some t)
  | written (t : FlushTask) (h1 : w.tasks = [])
      (h2 : w.pc = .written t ∨ (∃ existing, w.pc = .loaded t existing) ∨ w.pc = .appended t)
      (h3 : w.completions = []) (h4 : d.tables[t.sstablePath]? = some (sstableBytes t.entries)) :
      FlushAt w d (some t)
  | completed (t : FlushTask) (h1 : w.tasks = []) (h2 : w.pc = .waiting)
      (h3 : w.completions = [t.sstablePath])
      (h4 : d.tables[t.sstablePath]? = some (sstableBytes t.entries)) : FlushAt w d (some t)

/-- The file of a table holds the entries. -/
def HoldsEntries (d : Disk) (p : Bytes) (e : Entries) : Prop :=
  d.tables[p]? = some (sstableBytes e)

/-- The entries of the tables, of the outstanding flush and of the memtable, oldest first. -/
def parts (tabs : List Entries) (fl : Option FlushTask) (mem : Entries) : List Entries :=
  tabs ++ fl.toList.map FlushTask.entries ++ [mem]

/-- The paths of the tables and of the outstanding flush. -/
def pathsWith (paths : List Bytes) (fl : Option FlushTask) : List Bytes :=
  paths ++ fl.toList.map FlushTask.sstablePath

/-- A compaction of the first two tables whose output is in `file`. -/
def JobAt (merge : Entries → Entries → Entries) (σ : Process) (tabs : List Entries) (j : CompactJob) (file : Bytes) : Prop :=
  ∃ a b rest paths, tabs = a :: b :: rest ∧
    σ.store.sstablePaths = j.first :: j.second :: paths ∧ j.updatedPaths = j.output :: paths ∧
    TablePath σ.store.nextSstableId j.output ∧ j.output ∉ σ.store.sstablePaths ∧
    HoldsEntries σ.disk file (merge a b)

/-- What is known inside a call: no flush is outstanding when tables are compacted. -/
def PcAt (merge : Entries → Entries → Entries) (σ : Process) (tabs : List Entries) (fl : Option FlushTask) : Prop :=
  match σ.pc with
  | .draining _ _ true => fl = none
  | .compacting _ _ => fl = none
  | .merged _ _ j => fl = none ∧ JobAt merge σ tabs j j.tempOutput
  | .renamed _ _ j => fl = none ∧ JobAt merge σ tabs j j.output
  | .replaced _ _ j => fl = none ∧ JobAt merge σ tabs j j.output
  | _ => True

/-- **A property of the versions written, the map and the entries of the places** that holds along a
run: it allows a new memtable, a newer version in the memtable and the merge of the first two
tables. -/
structure Stacking (P : List Row → Std.ExtTreeMap Bytes Bytes → List Entries → Prop)
    (merge : Entries → Entries → Entries) : Prop where
  fresh {ws : List Row} {map : Std.ExtTreeMap Bytes Bytes} {es : List Entries} :
    P ws map es → P ws map (es ++ [∅])
  push {ws : List Row} {map : Std.ExtTreeMap Bytes Bytes} {es : List Entries} {mem : Entries}
    {key : Bytes} {v : Version} : P ws map (es ++ [mem]) → RowOk (key, v) →
    (∀ e ∈ es ++ [mem], ∀ r ∈ rows e, r.2.timestamp < v.timestamp) →
    P (ws ++ [(key, v)]) (latest map (key, v)) (es ++ [pushVersion mem key v])
  merged {ws : List Row} {map : Std.ExtTreeMap Bytes Bytes} {a b : Entries} {es : List Entries} :
    P ws map (a :: b :: es) →
    compact [some (sstableBytes a), some (sstableBytes b)] = some (sstableBytes (merge a b)) ∧
      P ws map (merge a b :: es)
  mem_rows {a b : Entries} {r : Row} : r ∈ rows (merge a b) → r ∈ rows a ∨ r ∈ rows b

/-- **The places of the versions**: the entries `tabs` of the tables and the outstanding flush
`fl`. -/
structure Stacked (P : List Row → Std.ExtTreeMap Bytes Bytes → List Entries → Prop)
    (merge : Entries → Entries → Entries) (σ : Process) (tabs : List Entries)
    (fl : Option FlushTask) : Prop where
  started : σ.store.flushWorker.started = true
  running : σ.store.flushWorker.stopping = false
  flush : FlushAt σ.store.flushWorker σ.disk fl
  immutable : σ.store.immutable = fl.map fun _ => ∅
  tables : List.Forall₂ (HoldsEntries σ.disk) σ.store.sstablePaths tabs
  nodup : (pathsWith σ.store.sstablePaths fl).Nodup
  named : ∀ p ∈ pathsWith σ.store.sstablePaths fl, TablePath σ.store.nextSstableId p
  le_seq : ∀ e ∈ parts tabs fl σ.store.memtable.entries, ∀ r ∈ rows e,
    r.2.timestamp ≤ σ.store.seq
  versions : P σ.written σ.store.map (parts tabs fl σ.store.memtable.entries)
  pc : PcAt merge σ tabs fl

section Steps

variable {P : List Row → Std.ExtTreeMap Bytes Bytes → List Entries → Prop}
  {merge : Entries → Entries → Entries} {σ : Process} {tabs : List Entries} {fl : Option FlushTask}

/-- The file of the outstanding flush is not one of the tables. -/
lemma Stacked.path_new {f : FlushTask} (h : Stacked P merge σ tabs (some f)) :
    f.sstablePath ∉ σ.store.sstablePaths := by
  have hnd := h.nodup
  simp only [pathsWith, Option.toList_some, List.map_cons, List.map_nil] at hnd
  exact fun hm => (List.nodup_append.mp hnd).2.2 _ hm _ (by simp) rfl

/-- The log, the snapshot and the manifest do not matter. -/
lemma Stacked.quiet (h : Stacked P merge σ tabs fl) {σ' : Process} (w : Wal) (g : ℕ)
    (f x m : Option Bytes) (hs : σ'.store = { σ.store with wal := w, groupCommitEvery := g })
    (hd : σ'.disk = { σ.disk with wal := f, snapshot := x, manifest := m })
    (hw : σ'.written = σ.written) (hpc : PcAt merge σ' tabs fl) : Stacked P merge σ' tabs fl where
  started := by rw [hs]; exact h.started
  running := by rw [hs]; exact h.running
  flush := by
    rw [hs, hd]
    cases h.flush with
    | idle h1 h2 h3 => exact .idle h1 h2 h3
    | queued t h1 h2 h3 => exact .queued t h1 h2 h3
    | popped t h1 h2 h3 => exact .popped t h1 h2 h3
    | written t h1 h2 h3 h4 => exact .written t h1 h2 h3 h4
    | completed t h1 h2 h3 h4 => exact .completed t h1 h2 h3 h4
  immutable := by rw [hs]; exact h.immutable
  tables := by rw [hs, hd]; exact h.tables
  nodup := by rw [hs]; exact h.nodup
  named := by rw [hs]; exact h.named
  le_seq := by rw [hs]; exact h.le_seq
  versions := by rw [hs, hw]; exact h.versions
  pc := hpc

/-! ### Writes -/

/-- What storing a version changes. -/
lemma KVStore.logged_frame (s : KVStore) (r : Record) : ∃ m n w, s.logged r =
    { s with
      map := m
      memtable := ⟨pushVersion s.memtable.entries r.key ⟨r.seq, r.value⟩, n⟩
      seq := r.seq
      wal := w } := by
  obtain ⟨seq, key, value⟩ := r
  cases value with
  | none => exact ⟨_, _, _, rfl⟩
  | some v => exact ⟨_, _, _, rfl⟩

lemma mem_rows_pushVersion {e : Entries} {key : Bytes} {v : Version} {r : Row} :
    r ∈ rows (pushVersion e key v) ↔ r ∈ rows e ∨ r = (key, v) := by
  obtain ⟨k, w⟩ := r
  rw [mem_rows, mem_rows, versionsOf_pushVersion]
  by_cases hk : key = k
  · subst hk
    simp
  · simp [hk, Ne.symm hk]

/-- **A new version** is newer than all others and goes to the memtable. -/
lemma Stacked.push (h : Stacked P merge σ tabs fl) (S : Stacking P merge) {key : Bytes}
    {value : Option Bytes} (hr : RowOk (key, ⟨σ.store.seq + 1, value⟩)) {σ' : Process} (n : ℕ)
    (w : Wal)
    (hs : σ'.store = { σ.store with
      map := latest σ.store.map (key, ⟨σ.store.seq + 1, value⟩)
      memtable := ⟨pushVersion σ.store.memtable.entries key ⟨σ.store.seq + 1, value⟩, n⟩
      seq := σ.store.seq + 1
      wal := w })
    (hd : σ'.disk = σ.disk) (hw : σ'.written = σ.written ++ [(key, ⟨σ.store.seq + 1, value⟩)])
    (hpc : σ'.pc = .rotating) : Stacked P merge σ' tabs fl := by
  set v : Version := ⟨σ.store.seq + 1, value⟩
  set mem := σ.store.memtable.entries with hmem
  have hmem' : σ'.store.memtable.entries = pushVersion mem key v := by rw [hs]
  have hlast : mem ∈ parts tabs fl mem := by simp [parts]
  have hold : ∀ e ∈ parts tabs fl mem, ∀ r ∈ rows e, r.2.timestamp < v.timestamp := fun e he r hr =>
    Nat.lt_succ_of_le (h.le_seq e he r hr)
  constructor
  case started => rw [hs]; exact h.started
  case running => rw [hs]; exact h.running
  case flush => rw [hs, hd]; exact h.flush
  case immutable => rw [hs]; exact h.immutable
  case tables => rw [hs, hd]; exact h.tables
  case nodup => rw [hs]; exact h.nodup
  case named => rw [hs]; exact h.named
  case le_seq =>
    have hseq : σ'.store.seq = v.timestamp := by rw [hs]
    rw [hmem', hseq]
    intro e he r hr'
    rcases List.mem_append.mp he with he | he
    · exact (hold e (List.mem_append_left _ he) r hr').le
    · rw [List.mem_singleton.mp he] at hr'
      rcases mem_rows_pushVersion.mp hr' with hr' | rfl
      · exact (hold mem hlast r hr').le
      · exact le_rfl
  case versions =>
    rw [hmem', hw, hs]
    exact S.push h.versions hr hold
  case pc =>
    unfold PcAt
    rw [hpc]
    trivial

lemma Stacked.write (h : Stacked P merge σ tabs fl) (S : Stacking P merge) (hpc : σ.pc = .idle)
    {key : Bytes} {value : Option Bytes}
    (hr : σ.store.seq + 1 ≤ (σ.write key value).store.seq →
      RowOk (key, ⟨σ.store.seq + 1, value⟩)) : Stacked P merge (σ.write key value) tabs fl := by
  unfold Process.write at hr ⊢
  split
  · exact h
  · next h1 =>
    rw [if_neg h1] at hr
    split
    · -- the log is closed: only the counter moves
      refine { h with
        le_seq := fun e he r hr => (h.le_seq e he r hr).trans (Nat.le_succ _)
        pc := ?_ }
      unfold PcAt
      simp [hpc]
    · next h2 =>
      rw [if_neg h2] at hr
      obtain ⟨m, n, w, hl⟩ := σ.store.logged_frame ⟨σ.store.seq + 1, key, value⟩
      obtain rfl : latest σ.store.map (key, ⟨σ.store.seq + 1, value⟩) = m :=
        (σ.store.applyRecord_eq ⟨σ.store.seq + 1, key, value⟩).1.symm.trans (congrArg KVStore.map hl)
      exact h.push S (hr le_rfl) n w hl rfl rfl rfl

/-! ### Rotation and completions -/

lemma FlushAt.eq_nil {w : FlushWorker} {d : Disk} (h : FlushAt w d none) :
    w.tasks = [] ∧ w.pc = .waiting ∧ w.completions = [] := by
  cases h with
  | idle h1 h2 h3 => exact ⟨h1, h2, h3⟩

/-- **A rotation** hands the memtable to the worker. -/
lemma Stacked.hand (h : Stacked P merge σ tabs none) (S : Stacking P merge) {σ' : Process}
    (hs : σ'.store = σ.store.rotated) (hd : σ'.disk = σ.disk) (hw : σ'.written = σ.written)
    (hpc : σ'.pc = .committing ∨ σ'.pc = .idle) : Stacked P merge σ' tabs (some σ.store.flushTask) := by
  obtain ⟨h1, h2, h3⟩ := h.flush.eq_nil
  have hworker : σ'.store.flushWorker =
      { σ.store.flushWorker with tasks := σ.store.flushWorker.tasks ++ [σ.store.flushTask] } := by
    rw [hs]
    show (σ.store.flushWorker.enqueue σ.store.flushTask).2 = _
    simp only [FlushWorker.enqueue, h.started, h.running, Bool.not_true, Bool.or_self,
      Bool.false_eq_true, if_false]
  have hparts : parts tabs (some σ.store.flushTask) ∅ =
      parts tabs none σ.store.memtable.entries ++ [∅] := by
    simp [parts, KVStore.flushTask]
  have hmem : σ'.store.memtable.entries = ∅ := by rw [hs]; rfl
  have hnamed := h.named
  simp only [pathsWith, Option.toList_none, List.map_nil, List.append_nil] at hnamed
  constructor
  case started => rw [hworker]; exact h.started
  case running => rw [hworker]; exact h.running
  case flush =>
    rw [hworker]
    exact .queued _ (by simp [h1]) h2 h3
  case immutable => rw [hs]; rfl
  case tables => rw [hs, hd]; exact h.tables
  case nodup =>
    rw [hs]
    have hnd := h.nodup
    simp only [pathsWith, Option.toList_none, List.map_nil, List.append_nil] at hnd
    simp only [pathsWith, Option.toList_some, List.map_cons, List.map_nil]
    refine List.nodup_append.mpr ⟨hnd, by simp, fun p hp q hq => ?_⟩
    rw [List.mem_singleton.mp hq]
    exact (hnamed p hp).ne_flushPath
  case named =>
    rw [hs]
    intro p hp
    rcases List.mem_append.mp hp with hp | hp
    · exact (hnamed p hp).mono (Nat.le_succ _)
    · simp only [Option.toList_some, List.map_cons, List.map_nil, List.mem_singleton] at hp
      exact ⟨_, Nat.lt_succ_self _, Or.inl hp⟩
  case le_seq =>
    rw [hmem, hparts]
    intro e he r hr
    rcases List.mem_append.mp he with he | he
    · rw [hs]
      exact h.le_seq e he r hr
    · rw [List.mem_singleton.mp he] at hr
      simp [rows] at hr
  case versions =>
    rw [hmem, hparts, hw, hs]
    exact S.fresh h.versions
  case pc =>
    unfold PcAt
    rcases hpc with hpc | hpc <;> rw [hpc] <;> trivial

lemma Stacked.rotate (h : Stacked P merge σ tabs fl) (S : Stacking P merge) :
    ∃ fl', Stacked P merge σ.rotate tabs fl' := by
  obtain ⟨hs, hd, hw, hpc⟩ := σ.rotate_frame
  have hok : ∀ fl', PcAt merge σ.rotate tabs fl' := fun fl' => by
    unfold PcAt
    rcases hpc with hpc | hpc <;> rw [hpc] <;> trivial
  rcases σ.store.maybeFlushMemtable_cases with ⟨ok, he⟩ | ⟨hnil, he⟩ | ⟨⟨-, himm, -⟩, he⟩
  · rw [he] at hs
    exact ⟨fl, h.quiet σ.store.wal σ.store.groupCommitEvery σ.disk.wal σ.disk.snapshot
      σ.disk.manifest hs hd hw (hok fl)⟩
  · rw [he] at hs
    have hmem : σ.rotate.store.memtable.entries = σ.store.memtable.entries := by
      rw [hs, hnil]
      rfl
    exact ⟨fl, by rw [hs]; exact h.started, by rw [hs]; exact h.running,
      by rw [hs, hd]; exact h.flush, by rw [hs]; exact h.immutable,
      by rw [hs, hd]; exact h.tables, by rw [hs]; exact h.nodup, by rw [hs]; exact h.named,
      by rw [hmem, hs]; exact h.le_seq,
      by rw [hmem, hw, hs]; exact h.versions, hok fl⟩
  · rw [he] at hs
    cases fl with
    | some t => simp [h.immutable] at himm
    | none => exact ⟨_, h.hand S hs hd hw hpc⟩

/-- **A completion** becomes the last table. -/
lemma Stacked.drain (h : Stacked P merge σ tabs fl) {key : Bytes} {t : ℕ} {added : Bool}
    (hpc : σ.pc = .draining key t added) :
    ∃ tabs' fl', Stacked P merge (σ.drain key t added) tabs' fl' := by
  have hquiet : ∀ pc, (∀ fl', PcAt merge { σ with pc := pc } tabs fl' ↔ (added = true → fl' = none)) →
      Stacked P merge { σ with pc := pc } tabs fl := fun pc hp => by
    refine h.quiet σ.store.wal σ.store.groupCommitEvery σ.disk.wal σ.disk.snapshot
      σ.disk.manifest rfl rfl rfl ((hp fl).mpr fun ha => ?_)
    have := h.pc
    unfold PcAt at this
    rw [hpc, ha] at this
    exact this
  unfold Process.drain KVStore.drainOne FlushWorker.pollCompletion
  have hnone : σ.store.flushWorker.completions = [] → ∃ tabs' fl', Stacked P merge
      { σ with pc := if added then Pc.compacting key t else Pc.reading key t } tabs' fl' := by
    intro _
    refine ⟨tabs, fl, hquiet _ fun fl' => ?_⟩
    cases added <;> simp [PcAt]
  cases h.flush with
  | idle h1 h2 h3 => simpa only [h3, Option.map_none] using hnone h3
  | queued f h1 h2 h3 => simpa only [h3, Option.map_none] using hnone h3
  | popped f h1 h2 h3 => simpa only [h3, Option.map_none] using hnone h3
  | written f h1 h2 h3 h4 => simpa only [h3, Option.map_none] using hnone h3
  | completed f h1 h2 h3 h4 =>
    simp only [h3, Option.map_some, h.path_new, if_false]
    have hparts : parts (tabs ++ [f.entries]) none σ.store.memtable.entries =
        parts tabs (some f) σ.store.memtable.entries := by
      simp [parts]
    have hpaths : pathsWith (σ.store.sstablePaths ++ [f.sstablePath]) none =
        pathsWith σ.store.sstablePaths (some f) := by
      simp [pathsWith]
    refine ⟨tabs ++ [f.entries], none, h.started, h.running, .idle h1 h2 rfl, rfl, ?_, ?_, ?_, ?_,
      ?_, by simp [PcAt]⟩
    · exact List.rel_append h.tables (.cons h4 .nil)
    · rw [hpaths]
      exact h.nodup
    · rw [hpaths]
      exact h.named
    · rw [hparts]
      exact h.le_seq
    · rw [hparts]
      exact h.versions

/-- A call of `get_at` that finds no completion reads at once. -/
lemma KVStore.getAt_of_nil {s : KVStore} (h : s.flushWorker.completions = []) (d : Disk)
    (key : Bytes) (t : ℕ) (io : KVStore.CompactIo) : (s.getAt d key t io).1 = s.readAt d key t := by
  simp only [getAt, drainCompletedFlushes, h, List.length_nil, drainLoop]

/-- The store behind the draining of a completion. -/
lemma Stacked.drain_completed {f : FlushTask} (h : Stacked P merge σ tabs (some f))
    (hc : σ.store.flushWorker.completions = [f.sstablePath]) (io : KVStore.CompactIo) :
    σ.store.drainCompletedFlushes σ.disk io =
      (KVStore.maybeCompactSstables { σ.store with
        sstablePaths := σ.store.sstablePaths ++ [f.sstablePath]
        immutable := none
        flushWorker := { σ.store.flushWorker with completions := [] } } σ.disk io).2 := by
  simp only [KVStore.drainCompletedFlushes, KVStore.drainLoop, KVStore.drainOne,
    FlushWorker.pollCompletion, hc, List.length_singleton, Option.map_some, h.path_new, if_false,
    not_false_eq_true, decide_true, Bool.or_true]

/-! ### Compaction -/

/-- Writing a file that is no table leaves the tables alone. -/
lemma holdsEntries_insert {d : Disk} {paths : List Bytes} {tabs : List Entries}
    (h : List.Forall₂ (HoldsEntries d) paths tabs) {p : Bytes} (hp : p ∉ paths) (f : Bytes) :
    List.Forall₂ (HoldsEntries { d with tables := d.tables.insert p f }) paths tabs := by
  induction h with
  | nil => exact .nil
  | @cons q e paths tabs hq _ ih =>
    obtain ⟨hne, hp⟩ := not_or.mp (mt List.mem_cons.mpr hp)
    refine .cons ?_ (ih hp)
    unfold HoldsEntries
    rw [Std.ExtTreeMap.getElem?_insert, if_neg (by simpa using hne)]
    exact hq

lemma holdsEntries_erase {d : Disk} {paths : List Bytes} {tabs : List Entries}
    (h : List.Forall₂ (HoldsEntries d) paths tabs) {p : Bytes} (hp : p ∉ paths) :
    List.Forall₂ (HoldsEntries { d with tables := d.tables.erase p }) paths tabs := by
  induction h with
  | nil => exact .nil
  | @cons q e paths tabs hq _ ih =>
    obtain ⟨hne, hp⟩ := not_or.mp (mt List.mem_cons.mpr hp)
    refine .cons ?_ (ih hp)
    unfold HoldsEntries
    rw [Std.ExtTreeMap.getElem?_erase, if_neg (by simpa using hne)]
    exact hq

/-- New files and a larger table counter, with the tables as they were. -/
lemma Stacked.files (h : Stacked P merge σ tabs none) {σ' : Process} {n : ℕ} (hn : σ.store.nextSstableId ≤ n)
    (hs : σ'.store = { σ.store with nextSstableId := n }) (hw : σ'.written = σ.written)
    (ht : List.Forall₂ (HoldsEntries σ'.disk) σ.store.sstablePaths tabs)
    (hpc : PcAt merge σ' tabs none) : Stacked P merge σ' tabs none where
  started := by rw [hs]; exact h.started
  running := by rw [hs]; exact h.running
  flush := by
    obtain ⟨h1, h2, h3⟩ := h.flush.eq_nil
    rw [hs]
    exact .idle h1 h2 h3
  immutable := by rw [hs]; exact h.immutable
  tables := by rw [hs]; exact ht
  nodup := by rw [hs]; exact h.nodup
  named := by
    rw [hs]
    exact fun p hp => (h.named p hp).mono hn
  le_seq := by rw [hs]; exact h.le_seq
  versions := by rw [hs, hw]; exact h.versions
  pc := hpc

/-- The name of the output is new, so that the loop ends at once. -/
lemma freshOutput_eq {paths : List Bytes} {id : ℕ} (h : compactedPath id ∉ paths) (n : ℕ) :
    KVStore.freshOutput paths n id = (compactedPath id, id + 1) := by
  cases n with
  | zero => rfl
  | succ n => simp [KVStore.freshOutput, h]

lemma Stacked.path_named (h : Stacked P merge σ tabs none) {p : Bytes} (hp : p ∈ σ.store.sstablePaths) :
    TablePath σ.store.nextSstableId p :=
  h.named p (List.mem_append_left _ hp)

/-- **The merge of the first two tables** into the temporary file; one that fails leaves the tables
alone. -/
lemma Stacked.compact (h : Stacked P merge σ tabs none) (S : Stacking P merge) (key : Bytes) (t : ℕ)
    (io : WriteOutcome) : Stacked P merge (σ.compact key t io) tabs none := by
  have hread : Stacked P merge { σ with pc := .reading key t } tabs none :=
    h.files le_rfl rfl rfl h.tables trivial
  unfold Process.compact
  split
  · exact hread
  split
  · next first second rest hp =>
    have hnd := h.nodup
    simp only [pathsWith, Option.toList_none, List.map_nil, List.append_nil, hp] at hnd
    have hne : first ≠ second := fun he => by simp [he] at hnd
    have hfresh : compactedPath σ.store.nextSstableId ∉ σ.store.sstablePaths := fun hm =>
      (h.path_named hm).ne_compactedPath rfl
    simp only [if_neg hne, KVStore.compactBegin, freshOutput_eq hfresh]
    set j : CompactJob := ⟨first, second, compactedPath σ.store.nextSstableId,
      compactedPath σ.store.nextSstableId :: rest⟩
    obtain ⟨a, tabs₁, ha, ht₁, rfl⟩ : ∃ a tabs₁, HoldsEntries σ.disk first a ∧
        List.Forall₂ (HoldsEntries σ.disk) (second :: rest) tabs₁ ∧ tabs = a :: tabs₁ := by
      have ht := h.tables
      rw [hp] at ht
      exact List.forall₂_cons_left_iff.mp ht
    obtain ⟨b, tabs₂, hb, -, rfl⟩ := List.forall₂_cons_left_iff.mp ht₁
    obtain ⟨hout, -⟩ := S.merged h.versions
    have hf : σ.disk.tables[j.first]? = some (sstableBytes a) := ha
    have hg : σ.disk.tables[j.second]? = some (sstableBytes b) := hb
    have htemp : j.tempOutput ∉ σ.store.sstablePaths := fun hm => (h.path_named hm).ne_temp rfl
    cases io with
    | ok =>
      have hwrite : KVStore.compactWrite j σ.disk .ok = (true, { σ.disk with
          tables := σ.disk.tables.insert j.tempOutput (sstableBytes (merge a b)) }) := by
        simp only [KVStore.compactWrite, hf, hg, hout]
      simp only [hwrite]
      refine h.files (Nat.le_succ _) rfl rfl (holdsEntries_insert h.tables htemp _) ⟨rfl, ?_⟩
      refine ⟨a, b, tabs₂, rest, rfl, hp, rfl, ⟨_, Nat.lt_succ_self _, Or.inr rfl⟩, hfresh, ?_⟩
      unfold HoldsEntries
      rw [Std.ExtTreeMap.getElem?_insert_self]
    | refused =>
      have hwrite : KVStore.compactWrite j σ.disk .refused = (false, σ.disk) := by
        simp only [KVStore.compactWrite, hf, hg, hout]
      simp only [hwrite]
      exact h.files (Nat.le_succ _) rfl rfl h.tables trivial
    | short n =>
      have hwrite : KVStore.compactWrite j σ.disk (.short n) = (false, { σ.disk with
          tables := σ.disk.tables.insert j.tempOutput
            ((sstableBytes (merge a b)).take n) }) := by
        simp only [KVStore.compactWrite, hf, hg, hout]
      simp only [hwrite]
      exact h.files (Nat.le_succ _) rfl rfl (holdsEntries_insert h.tables htemp _) trivial
  · exact hread

/-- **The rename** of the temporary file to the output. -/
lemma Stacked.rename (h : Stacked P merge σ tabs none) {key : Bytes} {t : ℕ} {j : CompactJob}
    (hj : JobAt merge σ tabs j j.tempOutput) (ok : Bool) : Stacked P merge (σ.rename key t j ok) tabs none := by
  obtain ⟨a, b, rest, paths, h1, h2, h3, h4, h5, h6⟩ := hj
  have h6' : σ.disk.tables[j.tempOutput]? = some (sstableBytes (merge a b)) := h6
  have htemp : j.tempOutput ∉ σ.store.sstablePaths := fun hm => (h.path_named hm).ne_temp rfl
  cases ok with
  | true =>
    have ht := holdsEntries_insert (holdsEntries_erase h.tables htemp) h5
      (sstableBytes (merge a b))
    simp only [Process.rename, KVStore.compactRename, h6']
    refine h.files le_rfl rfl rfl ht ⟨rfl, a, b, rest, paths, h1, h2, h3, h4, h5, ?_⟩
    unfold HoldsEntries
    rw [Std.ExtTreeMap.getElem?_insert_self]
  | false =>
    simp only [Process.rename, KVStore.compactRename]
    exact h.files le_rfl rfl rfl (holdsEntries_erase h.tables htemp) trivial

/-- **The new manifest**; without it the output is removed. -/
lemma Stacked.replace (h : Stacked P merge σ tabs none) {key : Bytes} {t : ℕ} {j : CompactJob}
    (hj : JobAt merge σ tabs j j.output) (ok : Bool) : Stacked P merge (σ.replace key t j ok) tabs none := by
  cases ok with
  | true =>
    simp only [Process.replace, KVStore.compactReplace, if_true]
    exact h.files le_rfl rfl rfl h.tables ⟨rfl, hj⟩
  | false =>
    obtain ⟨a, b, rest, paths, h1, h2, h3, h4, h5, h6⟩ := hj
    simp only [Process.replace, KVStore.compactReplace, Bool.false_eq_true, if_false]
    exact h.files le_rfl rfl rfl (holdsEntries_erase h.tables h5) trivial

/-- **The output takes the place of the inputs.** -/
lemma Stacked.finish (h : Stacked P merge σ tabs none) (S : Stacking P merge) {key : Bytes} {t : ℕ}
    {j : CompactJob} (hj : JobAt merge σ tabs j j.output) : ∃ tabs', Stacked P merge (σ.finish key t j) tabs' none := by
  obtain ⟨a, b, rest, paths, rfl, h2, h3, h4, h5, h6⟩ := hj
  have hnd := h.nodup
  simp only [pathsWith, Option.toList_none, List.map_nil, List.append_nil, h2] at hnd
  obtain ⟨hn1, hnd'⟩ := List.nodup_cons.mp hnd
  obtain ⟨hn2, hnd''⟩ := List.nodup_cons.mp hnd'
  rw [h2] at h5
  simp only [List.mem_cons, not_or] at h5 hn1
  have htables : List.Forall₂ (HoldsEntries σ.disk) paths rest := by
    have ht := h.tables
    rw [h2] at ht
    obtain ⟨-, ht⟩ := List.forall₂_cons.mp ht
    exact (List.forall₂_cons.mp ht).2
  have hle := h.le_seq
  have hparts : ∀ x, parts (x :: rest) none σ.store.memtable.entries =
      x :: parts rest none σ.store.memtable.entries := fun x => rfl
  have hparts' : parts (a :: b :: rest) none σ.store.memtable.entries =
      a :: b :: parts rest none σ.store.memtable.entries := rfl
  rw [hparts'] at hle
  obtain ⟨e1, e2, e3⟩ := h.flush.eq_nil
  refine ⟨merge a b :: rest, h.started, h.running, .idle e1 e2 e3, h.immutable, ?_, ?_, ?_,
    ?_, (S.merged h.versions).2, trivial⟩
  · show List.Forall₂ _ j.updatedPaths _
    rw [h3]
    refine holdsEntries_erase (holdsEntries_erase (.cons h6 htables) ?_) ?_
    · exact fun hm => (List.mem_cons.mp hm).elim (fun he => h5.1 he.symm) hn1.2
    · exact fun hm => (List.mem_cons.mp hm).elim (fun he => h5.2.1 he.symm) hn2
  · show (pathsWith j.updatedPaths none).Nodup
    simp only [pathsWith, h3, Option.toList_none, List.map_nil, List.append_nil]
    exact List.nodup_cons.mpr ⟨h5.2.2, hnd''⟩
  · show ∀ p ∈ pathsWith j.updatedPaths none, _
    simp only [pathsWith, h3, Option.toList_none, List.map_nil, List.append_nil]
    intro p hp
    rcases List.mem_cons.mp hp with rfl | hp
    · exact h4
    · exact h.path_named (by rw [h2]; simp [hp])
  · show ∀ e ∈ parts (merge a b :: rest) none σ.store.memtable.entries, _
    rw [hparts]
    intro e he
    rcases List.mem_cons.mp he with rfl | he
    · intro r hr
      rcases S.mem_rows hr with hr | hr
      · exact hle a (by simp) r hr
      · exact hle b (by simp) r hr
    · exact hle e (by simp [he])

/-! ### The worker -/

/-- Inside a compaction nothing is outstanding. -/
lemma PcAt.of_some {f : FlushTask} (h : PcAt merge σ tabs (some f)) {σ' : Process} (hpc : σ'.pc = σ.pc) :
    PcAt merge σ' tabs (some f) := by
  unfold PcAt at h ⊢
  rw [hpc]
  cases hp : σ.pc with
  | draining key t added => cases added <;> simp_all
  | compacting | merged | renamed | replaced => simp_all
  | idle | rotating | committing | reading | saved | removed => trivial

/-- **A step of the worker** moves the outstanding flush on. -/
lemma Stacked.work (h : Stacked P merge σ tabs fl) {σ' : Process} (hw : σ.work .ok = some σ') :
    Stacked P merge σ' tabs fl := by
  obtain ⟨w, d, hstep, rfl⟩ := Process.work_frame hw
  have hmove : ∀ (f : FlushTask) (w : FlushWorker) (d : Disk), fl = some f → w.started = true →
      w.stopping = false → FlushAt w d (some f) →
      List.Forall₂ (HoldsEntries d) σ.store.sstablePaths tabs →
      Stacked P merge { σ with store := { σ.store with flushWorker := w }, disk := d } tabs fl := by
    rintro f w d rfl h1 h2 h3 h4
    exact ⟨h1, h2, h3, h.immutable, h4, h.nodup, h.named, h.le_seq, h.versions,
      h.pc.of_some rfl⟩
  have hrun := h.running
  have htab := h.tables
  unfold FlushWorker.step at hstep
  cases h.flush with
  | idle h1 h2 h3 => simp [h1, h2, hrun] at hstep
  | queued f h1 h2 h3 =>
    simp only [h2, h1, Option.some.injEq, Prod.mk.injEq] at hstep
    obtain ⟨rfl, rfl⟩ := hstep
    exact hmove f _ _ rfl h.started hrun (.popped f rfl rfl h3) htab
  | popped f h1 h2 h3 =>
    simp only [h2, Option.some.injEq, Prod.mk.injEq] at hstep
    obtain ⟨rfl, rfl⟩ := hstep
    refine hmove f _ _ rfl h.started hrun (.written f h1 (Or.inl rfl) h3 ?_)
      (holdsEntries_insert htab h.path_new _)
    rw [Std.ExtTreeMap.getElem?_insert_self]
  | written f h1 h2 h3 h4 =>
    rcases h2 with h2 | ⟨existing, h2⟩ | h2
    · simp only [h2, Option.some.injEq, Prod.mk.injEq] at hstep
      obtain ⟨rfl, rfl⟩ := hstep
      exact hmove f _ _ rfl h.started hrun (.written f h1 (Or.inr (Or.inl ⟨_, rfl⟩)) h3 h4) htab
    · simp only [h2] at hstep
      split at hstep
      · simp only [Option.some.injEq, Prod.mk.injEq] at hstep
        obtain ⟨rfl, rfl⟩ := hstep
        exact hmove f _ _ rfl h.started hrun (.written f h1 (Or.inr (Or.inr rfl)) h3 h4) htab
      · simp only [Option.some.injEq, Prod.mk.injEq] at hstep
        obtain ⟨rfl, rfl⟩ := hstep
        exact hmove f _ _ rfl h.started hrun (.written f h1 (Or.inr (Or.inr rfl)) h3 h4) htab
    · simp only [h2, Option.some.injEq, Prod.mk.injEq] at hstep
      obtain ⟨rfl, rfl⟩ := hstep
      exact hmove f _ _ rfl h.started hrun (.completed f h1 rfl (by simp [h3]) h4) htab
  | completed f h1 h2 h3 h4 => simp [h1, h2, hrun] at hstep

/-! ### Runs -/

/-- The worker writes what it has to write. -/
def Action.works : Action → Bool
  | .work .ok => true
  | .work _ => false
  | _ => true

/-- **Every step keeps the places**, as long as the worker does its work. -/
theorem Stacked.effect (h : Stacked P merge σ tabs fl) (S : Stacking P merge) {a : Action}
    {σ' : Process} (ha : a.works = true) (hp : a.Plain) (hlt : σ'.store.seq < 2 ^ 64) (he : σ.Effect a σ') :
    ∃ tabs' fl', Stacked P merge σ' tabs' fl' := by
  -- steps that change the log, the snapshot and the place in the call only
  have hquiet : ∀ {σ' : Process} (w : Wal) (g : ℕ) (f x : Option Bytes),
      σ'.store = { σ.store with wal := w, groupCommitEvery := g } →
      σ'.disk = { σ.disk with wal := f, snapshot := x } → σ'.written = σ.written →
      PcAt merge σ' tabs fl → ∃ tabs' fl', Stacked P merge σ' tabs' fl' := fun w g f x h1 h2 h3 h4 =>
    ⟨tabs, fl, h.quiet w g f x σ.disk.manifest h1 h2 h3 h4⟩
  cases he with
  | put key value hpc =>
    exact ⟨tabs, fl, h.write S hpc fun ht => ⟨hp.1, ht.trans_lt hlt, fun x hx => Option.some.inj hx ▸ hp.2⟩⟩
  | del key hpc =>
    unfold Process.del at hlt ⊢
    split
    · next hk =>
      rw [if_pos hk] at hlt
      exact ⟨tabs, fl, h.write S hpc fun ht => ⟨hp, ht.trans_lt hlt, by simp⟩⟩
    · exact ⟨tabs, fl, h⟩
  | rotate hpc => exact ⟨tabs, h.rotate S⟩
  | commit io hpc =>
    obtain ⟨w, f, e⟩ := σ.commit_frame io
    rw [e]
    exact hquiet _ _ _ _ rfl rfl rfl trivial
  | flushWal io hpc => exact hquiet _ _ _ _ rfl rfl rfl trivial
  | setGroupCommitEvery n hpc => exact hquiet _ _ _ _ rfl rfl rfl h.pc
  | getAt key t hpc => exact hquiet _ _ _ _ rfl rfl rfl trivial
  | drain key t added hpc => exact h.drain hpc
  | compact key t io hpc =>
    obtain rfl : fl = none := by simpa [PcAt, hpc] using h.pc
    exact ⟨tabs, none, h.compact S key t io⟩
  | rename key t j ok hpc =>
    obtain ⟨rfl, hj⟩ : fl = none ∧ JobAt merge σ tabs j j.tempOutput := by simpa [PcAt, hpc] using h.pc
    exact ⟨tabs, none, h.rename hj ok⟩
  | replace key t j ok hpc =>
    obtain ⟨rfl, hj⟩ : fl = none ∧ JobAt merge σ tabs j j.output := by simpa [PcAt, hpc] using h.pc
    exact ⟨tabs, none, h.replace hj ok⟩
  | finish key t j hpc =>
    obtain ⟨rfl, hj⟩ : fl = none ∧ JobAt merge σ tabs j j.output := by simpa [PcAt, hpc] using h.pc
    obtain ⟨tabs', h'⟩ := h.finish S hj
    exact ⟨tabs', none, h'⟩
  | read key t hpc => exact hquiet _ _ _ _ rfl rfl rfl trivial
  | save io hpc =>
    obtain ⟨x, pc, e, hpc'⟩ := σ.save_frame io
    rw [e]
    refine hquiet _ _ _ _ rfl rfl rfl ?_
    rcases hpc' with rfl | rfl
    · exact h.pc
    · trivial
  | removeWal hpc => exact hquiet _ _ _ _ rfl rfl rfl trivial
  | reopenWal ok hpc => exact hquiet _ _ _ _ rfl rfl rfl trivial
  | work io _ hw =>
    cases io with
    | ok => exact ⟨tabs, fl, h.work hw⟩
    | refused => simp [Action.works] at ha
    | short n => simp [Action.works] at ha

end Steps

end VeriStore.Store

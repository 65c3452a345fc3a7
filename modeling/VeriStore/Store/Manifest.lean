import VeriStore.Store.Names

/-!
The manifest and the list of tables of the store.

The worker appends to the manifest without the lock of the store, and a compaction replaces the
whole file by the list of the store. The two never meet: a compaction begins behind the draining of
a completion, when no flush is outstanding, and none begins before it ends.

* `FlushWorker.Follows.step`, `Synced.effect` — what a step of the worker and of a process keeps;
* `manifest_in_step` — in every session on files that sessions have left, the manifest lists the
  tables of the store and the one that the worker has appended.
-/

namespace VeriStore.Store

open VeriStore.Lib VeriStore.Sstable VeriStore.Log

open KVStore (CompactJob OpenIo)

/-! ### The worker and the manifest -/

/-- The manifest is the list, and no path is in it twice. -/
structure Tidy (m : Option Bytes) (ps : List Bytes) : Prop where
  manifest : m = some (replaceSstables ps)
  nodup : ps.Nodup
  line : ∀ p ∈ ps, p ≠ [] ∧ newline ∉ p

lemma Tidy.load {m : Option Bytes} {ps : List Bytes} (h : Tidy m ps) : loadSstables m = ps := by
  rw [h.manifest, loadSstables_replaceSstables h.line]

lemma Tidy.some_getD {m : Option Bytes} {ps : List Bytes} (h : Tidy m ps) :
    Tidy (some (m.getD [])) ps := by
  obtain rfl := h.manifest
  exact h

/-- What the worker has added to the manifest and not handed back. A path that was listed is not
added again. -/
def FlushWorker.added (w : FlushWorker) (paths : List Bytes) : List Bytes :=
  w.recorded.filter fun p => p ∉ paths

/-- **The manifest lists the paths, and what the worker has added.** -/
structure FlushWorker.Follows (w : FlushWorker) (paths : List Bytes) (m : Option Bytes) : Prop where
  tidy : Tidy m (paths ++ w.added paths)
  loaded : ∀ t existing, w.pc = .loaded t existing → existing = paths
  held : ∀ t ∈ w.held, t.sstablePath ≠ [] ∧ newline ∉ t.sstablePath

section Worker

variable {w w' : FlushWorker} {d d' : Disk} {paths : List Bytes} {io : WriteOutcome}

/-- A worker without a task has added nothing. -/
lemma FlushWorker.Idle.follows (h : w.Idle) (ht : Tidy d.manifest paths) :
    w.Follows paths d.manifest := by
  obtain ⟨hheld, hcomp⟩ := h
  have hpc : ∀ t, w.pc ≠ .appended t ∧ ∀ existing, w.pc ≠ .loaded t existing := by
    intro t
    constructor
    · intro e
      simp [FlushWorker.held, e] at hheld
    · intro existing e
      simp [FlushWorker.held, e] at hheld
  have hrec : w.recorded = [] := by
    unfold FlushWorker.recorded
    rw [hcomp]
    split
    · next t e => exact absurd e (hpc t).1
    · rfl
  refine ⟨?_, fun t existing e => absurd e ((hpc t).2 existing), by simp [hheld]⟩
  rw [FlushWorker.added, hrec, List.filter_nil, List.append_nil]
  exact ht

/-- Without a task the worker leaves the files alone. -/
lemma FlushWorker.Idle.step (h : w.Idle) (hs : w.step d io = some (w', d')) : w'.Idle ∧ d' = d := by
  obtain ⟨hheld, hcomp⟩ := h
  unfold FlushWorker.step at hs
  unfold FlushWorker.held at hheld
  split at hs
  · next hpc =>
    obtain ⟨htasks, -⟩ := List.append_eq_nil_iff.mp hheld
    rw [htasks] at hs
    simp only at hs
    split at hs
    · obtain ⟨rfl, rfl⟩ := Prod.mk.inj (Option.some.inj hs)
      exact ⟨⟨by simp [FlushWorker.held], hcomp⟩, rfl⟩
    · cases hs
  · next t hpc => simp [hpc] at hheld
  · next t hpc => simp [hpc] at hheld
  · next t existing hpc => simp [hpc] at hheld
  · next t hpc => simp [hpc] at hheld
  · cases hs

/-- **A step of the worker.** -/
lemma FlushWorker.Follows.step (h : w.Follows paths d.manifest) (hone : w.flushes ≤ 1)
    (hs : w.step d .ok = some (w', d')) : w'.Follows paths d'.manifest := by
  have hheld : ∀ t ∈ w'.held, t.sstablePath ≠ [] ∧ newline ∉ t.sstablePath := fun t ht =>
    h.held t ((FlushWorker.step_moves hs).held t ht)
  have htidy := h.tidy
  -- a worker with a task has handed back nothing
  have hnone : ∀ t, t ∈ w.held → w.completions = [] := by
    intro t ht
    have hpos := List.length_pos_of_mem ht
    unfold FlushWorker.flushes at hone
    exact List.length_eq_zero_iff.mp (by omega)
  unfold FlushWorker.step at hs
  split at hs
  · next hpc =>
    simp only [FlushWorker.added, FlushWorker.recorded, hpc] at htidy
    split at hs
    · obtain ⟨rfl, rfl⟩ := Prod.mk.inj (Option.some.inj hs)
      exact ⟨htidy, by simp, hheld⟩
    · split at hs
      · obtain ⟨rfl, rfl⟩ := Prod.mk.inj (Option.some.inj hs)
        exact ⟨htidy, by simp, hheld⟩
      · cases hs
  · next t hpc =>
    simp only [FlushWorker.added, FlushWorker.recorded, hpc] at htidy
    obtain ⟨rfl, rfl⟩ := Prod.mk.inj (Option.some.inj hs)
    exact ⟨htidy, by simp, hheld⟩
  · next t hpc =>
    have hcomp := hnone t (by simp [FlushWorker.held, hpc])
    simp only [FlushWorker.added, FlushWorker.recorded, hpc, hcomp, List.append_nil,
      List.filter_nil] at htidy
    obtain ⟨rfl, rfl⟩ := Prod.mk.inj (Option.some.inj hs)
    refine ⟨?_, ?_, hheld⟩
    · simpa [FlushWorker.added, FlushWorker.recorded, hcomp, htidy.manifest] using htidy
    · intro t' existing e
      obtain ⟨-, rfl⟩ := WorkerPc.loaded.inj e
      exact htidy.load
  · next t existing hpc =>
    have hmem : t ∈ w.held := by simp [FlushWorker.held, hpc]
    have hcomp := hnone t hmem
    obtain rfl := h.loaded t existing hpc
    simp only [FlushWorker.added, FlushWorker.recorded, hpc, hcomp, List.append_nil,
      List.filter_nil] at htidy
    split at hs
    · next hin =>
      obtain ⟨rfl, rfl⟩ := Prod.mk.inj (Option.some.inj hs)
      exact ⟨by simpa [FlushWorker.added, FlushWorker.recorded, hcomp, hin] using htidy, by simp,
        hheld⟩
    · next hout =>
      obtain ⟨rfl, rfl⟩ := Prod.mk.inj (Option.some.inj hs)
      refine ⟨?_, by simp, hheld⟩
      have hadded : FlushWorker.added { w with pc := .appended t } existing = [t.sstablePath] := by
        simp [FlushWorker.added, FlushWorker.recorded, hcomp, hout]
      rw [hadded]
      constructor
      · simp [htidy.manifest, replaceSstables]
      · rw [List.nodup_append]
        refine ⟨htidy.nodup, List.nodup_singleton _, fun p hp q hq e => hout ?_⟩
        rw [← List.mem_singleton.mp hq, ← e]
        exact hp
      · intro p hp
        rcases List.mem_append.mp hp with hp | hp
        · exact htidy.line p hp
        · rw [List.mem_singleton.mp hp]
          exact h.held t hmem
  · next t hpc =>
    have hcomp := hnone t (by simp [FlushWorker.held, hpc])
    simp only [FlushWorker.added, FlushWorker.recorded, hpc, hcomp, List.append_nil] at htidy
    obtain ⟨rfl, rfl⟩ := Prod.mk.inj (Option.some.inj hs)
    exact ⟨by simpa [FlushWorker.added, FlushWorker.recorded, hcomp] using htidy, by simp, hheld⟩
  · cases hs

/-- The steps of the worker after it was told to stop. -/
lemma FlushWorker.Follows.runOn {n : ℕ} (h : w.Follows paths d.manifest) (hone : w.flushes ≤ 1) :
    (w.runOn n d).1.Follows paths (w.runOn n d).2.manifest := by
  induction n generalizing w d with
  | zero => exact h
  | succ n ih =>
    unfold FlushWorker.runOn
    split
    · exact h
    · next w' d' hs => exact ih (h.step hone hs) ((FlushWorker.step_moves hs).flushes_le.trans hone)

end Worker

/-! ### The invariant -/

/-- A table has been added in the call in progress, or it compacts the tables. -/
def Pc.Busy : Pc → Prop
  | .draining _ _ added => added = true
  | .compacting _ _ | .merged _ _ _ | .renamed _ _ _ | .replaced _ _ _ => True
  | _ => False

/-- **The manifest of a process**: the list of the store with what the worker has added, or the
list that a compaction is about to put in its place. -/
structure Synced (σ : Process) : Prop where
  follows : σ.pc.replacing = none →
    σ.store.flushWorker.Follows σ.store.sstablePaths σ.disk.manifest
  replaced : ∀ ps, σ.pc.replacing = some ps → Tidy σ.disk.manifest ps
  job : ∀ j, σ.pc.job = some j →
    j.updatedPaths.Nodup ∧ ∀ p ∈ j.updatedPaths, p ≠ [] ∧ newline ∉ p
  busy : σ.pc.Busy → σ.store.immutable = none
  one : σ.store.OneFlush

section Steps

variable {σ σ' : Process}

/-- A table that was added means that no flush is outstanding. -/
lemma Synced.idle (h : Synced σ) (hb : σ.pc.Busy) : σ.store.flushWorker.Idle :=
  h.one.idle (h.busy hb)

lemma Synced.flushes_le (h : Synced σ) : σ.store.flushWorker.flushes ≤ 1 := by
  have := h.one.le
  split at this <;> omega

/-- A step that leaves the tables, the worker and the immutable memtable alone. -/
lemma Synced.quiet (h : Synced σ) (hone : σ'.store.OneFlush) (hrep : σ.pc.replacing = none)
    (hrep' : σ'.pc.replacing = none) (hjob : σ'.pc.job = none)
    (hp : σ'.store.sstablePaths = σ.store.sstablePaths)
    (hw : σ'.store.flushWorker = σ.store.flushWorker) (hm : σ'.disk.manifest = σ.disk.manifest)
    (hb : σ'.pc.Busy → σ'.store.immutable = none) : Synced σ' where
  follows _ := by
    rw [hp, hw, hm]
    exact h.follows hrep
  replaced ps e := by
    rw [hrep'] at e
    cases e
  job j e := by
    rw [hjob] at e
    cases e
  busy := hb
  one := hone

lemma Synced.write (h : Synced σ) (hpc : σ.pc = .idle) (key : Bytes) (value : Option Bytes)
    (hone : (σ.write key value).store.OneFlush) : Synced (σ.write key value) := by
  have hrep : σ.pc.replacing = none := by rw [hpc]; rfl
  revert hone
  unfold Process.write
  split
  · exact fun _ => h
  · split
    · exact fun hone => h.quiet hone hrep hrep (by rw [hpc]; rfl) rfl rfl rfl (by rw [hpc]; exact False.elim)
    · obtain ⟨m, n, w, hl⟩ := σ.store.logged_frame ⟨σ.store.seq + 1, key, value⟩
      simp only [hl]
      exact fun hone => h.quiet hone hrep rfl rfl rfl rfl rfl False.elim

lemma Synced.rotate (h : Synced σ) (hpc : σ.pc = .rotating) : Synced σ.rotate := by
  obtain ⟨hs, hd, -, hpc'⟩ := σ.rotate_frame
  have hone := h.one.rotate
  have hrep : σ.pc.replacing = none := by rw [hpc]; rfl
  have hcalm : σ.rotate.pc.replacing = none ∧ σ.rotate.pc.job = none ∧ ¬ σ.rotate.pc.Busy := by
    rcases hpc' with e | e <;> rw [e] <;> exact ⟨rfl, rfl, id⟩
  obtain ⟨hrep', hjob, hbusy⟩ := hcalm
  rcases σ.store.maybeFlushMemtable_cases with ⟨ok, e⟩ | ⟨-, e⟩ | ⟨hrot, e⟩
  · rw [e] at hs
    exact h.quiet hone hrep hrep' hjob (by rw [hs]) (by rw [hs]) (by rw [hd])
      fun hb => absurd hb hbusy
  · rw [e] at hs
    exact h.quiet hone hrep hrep' hjob (by rw [hs]) (by rw [hs]) (by rw [hd])
      fun hb => absurd hb hbusy
  · -- a task is queued, which is not part of the manifest yet
    rw [e] at hs
    have hf := h.follows hrep
    have hpaths : σ.rotate.store.sstablePaths = σ.store.sstablePaths := by rw [hs]; rfl
    have hworker : σ.rotate.store.flushWorker =
        (σ.store.flushWorker.enqueue σ.store.flushTask).2 := by rw [hs]; rfl
    refine ⟨fun _ => ?_, fun ps e => absurd (hrep'.symm.trans e) (by simp),
      fun j e => absurd (hjob.symm.trans e) (by simp), fun hb => absurd hb hbusy, hone⟩
    rw [hpaths, hworker, hd]
    unfold FlushWorker.enqueue
    split
    · exact hf
    · refine ⟨hf.tidy, hf.loaded, fun t ht => ?_⟩
      have hcases : t ∈ σ.store.flushWorker.held ∨ t = σ.store.flushTask := by
        simpa [FlushWorker.held, or_assoc, or_comm, or_left_comm] using ht
      rcases hcases with ht | rfl
      · exact hf.held t ht
      · exact TablePath.line (n := σ.store.nextSstableId + 1) ⟨_, by omega, Or.inl rfl⟩

lemma Synced.drain (h : Synced σ) {key : Bytes} {t : ℕ} {added : Bool}
    (hpc : σ.pc = .draining key t added) (hone : (σ.drain key t added).store.OneFlush) :
    Synced (σ.drain key t added) := by
  have hrep : σ.pc.replacing = none := by rw [hpc]; rfl
  have hf := h.follows hrep
  revert hone
  unfold Process.drain KVStore.drainOne FlushWorker.pollCompletion
  cases hc : σ.store.flushWorker.completions with
  | nil =>
    intro hone
    refine h.quiet hone hrep ?_ ?_ rfl rfl rfl ?_
    · cases added <;> rfl
    · cases added <;> rfl
    · intro hb
      cases added with
      | false => exact hb.elim
      | true => exact h.busy (by rw [hpc]; rfl)
  | cons p ps =>
    intro hone
    -- the only flush is the one handed back
    have hle := h.flushes_le
    simp only [FlushWorker.flushes, hc, List.length_cons] at hle
    obtain rfl : ps = [] := List.length_eq_zero_iff.mp (by omega)
    have hheld : σ.store.flushWorker.held = [] := List.length_eq_zero_iff.mp (by omega)
    refine ⟨fun _ => ?_, by simp [Pc.replacing], by simp [Pc.job], fun _ => rfl, hone⟩
    have hidle : FlushWorker.Idle { σ.store.flushWorker with completions := [] } := ⟨hheld, rfl⟩
    refine hidle.follows (d := σ.disk) ?_
    have hrec : σ.store.flushWorker.recorded = [p] := by
      unfold FlushWorker.recorded
      rw [hc]
      split
      · next t e => simp [FlushWorker.held, e] at hheld
      · rfl
    have htidy := hf.tidy
    rw [FlushWorker.added, hrec] at htidy
    by_cases hin : p ∈ σ.store.sstablePaths
    · simpa [hin] using htidy
    · simpa [hin] using htidy

/-- Inside a compaction the worker is idle, and only the lists matter. -/
lemma Synced.inside (h : Synced σ) (hb : σ.pc.Busy) (hrep : σ.pc.replacing = none)
    {σ' : Process} {n : ℕ} {t : Std.ExtTreeMap Bytes Bytes}
    (hs : σ'.store = { σ.store with nextSstableId := n })
    (hd : σ'.disk = { σ.disk with tables := t }) (hrep' : σ'.pc.replacing = none)
    (hjob : ∀ j, σ'.pc.job = some j →
      j.updatedPaths.Nodup ∧ ∀ p ∈ j.updatedPaths, p ≠ [] ∧ newline ∉ p) : Synced σ' where
  follows _ := by
    rw [hs, hd]
    exact h.follows hrep
  replaced ps e := by
    rw [hrep'] at e
    cases e
  job := hjob
  busy _ := by
    rw [hs]
    exact h.busy hb
  one := by
    rw [hs]
    exact ⟨h.one.le, h.one.runs⟩

/-- The list behind a compaction. -/
lemma nodup_replaced {first second output : Bytes} {rest : List Bytes}
    (hn : (first :: second :: rest).Nodup) (ho : output ∉ first :: second :: rest) :
    (output :: rest).Nodup := by
  simp only [List.nodup_cons, List.mem_cons, not_or] at hn ho ⊢
  exact ⟨ho.2.2, hn.2.2⟩

lemma Synced.compact (h : Synced σ) {key : Bytes} {t : ℕ} (hpc : σ.pc = .compacting key t)
    (io : WriteOutcome) : Synced (σ.compact key t io) := by
  have hrep : σ.pc.replacing = none := by rw [hpc]; rfl
  have hb : σ.pc.Busy := by rw [hpc]; trivial
  have htidy := (h.follows hrep).tidy
  have hleave : Synced { σ with pc := .reading key t } :=
    h.inside hb hrep (n := σ.store.nextSstableId) (t := σ.disk.tables) rfl rfl rfl (by simp [Pc.job])
  unfold Process.compact
  split
  · exact hleave
  split
  · next first second rest hp =>
    rw [hp] at htidy
    have hnodup : (first :: second :: rest).Nodup := (List.nodup_append.mp htidy.nodup).1
    have hne : first ≠ second := fun he => by simp [he] at hnodup
    obtain ⟨i, -, hfresh, hout⟩ := freshOutput_notMem σ.store.sstablePaths σ.store.nextSstableId
    simp only [if_neg hne, KVStore.compactBegin, hfresh]
    split
    · next d hd =>
      obtain ⟨tb, rfl⟩ := KVStore.compactWrite_frame hd
      exact h.inside hb hrep rfl rfl rfl (by simp [Pc.job])
    · next d hd =>
      obtain ⟨tb, rfl⟩ := KVStore.compactWrite_frame hd
      refine h.inside hb hrep rfl rfl rfl fun j e => ?_
      obtain rfl := Option.some.inj e
      rw [hp] at hout
      refine ⟨nodup_replaced hnodup hout, fun p hpm => ?_⟩
      rcases List.mem_cons.mp hpm with rfl | hpm
      · exact TablePath.line (n := i + 1) ⟨i, by omega, Or.inr rfl⟩
      · exact htidy.line p (by simp [hpm])
  · exact hleave

lemma Synced.rename (h : Synced σ) {key : Bytes} {t : ℕ} {j : CompactJob}
    (hpc : σ.pc = .merged key t j) (ok : Bool) : Synced (σ.rename key t j ok) := by
  have hrep : σ.pc.replacing = none := by rw [hpc]; rfl
  have hb : σ.pc.Busy := by rw [hpc]; trivial
  have hjob := h.job j (by rw [hpc]; rfl)
  unfold Process.rename
  split
  · next d hd =>
    obtain ⟨tb, rfl⟩ := KVStore.compactRename_frame hd
    refine h.inside hb hrep (n := σ.store.nextSstableId) rfl rfl rfl fun j' e => ?_
    obtain rfl := Option.some.inj e
    exact hjob
  · next d hd =>
    obtain ⟨tb, rfl⟩ := KVStore.compactRename_frame hd
    exact h.inside hb hrep (n := σ.store.nextSstableId) rfl rfl rfl nofun

/-- **The manifest is replaced** when nothing of the worker is in it. -/
lemma Synced.replace (h : Synced σ) {key : Bytes} {t : ℕ} {j : CompactJob}
    (hpc : σ.pc = .renamed key t j) : Synced (σ.replace key t j true) := by
  have hb : σ.pc.Busy := by rw [hpc]; trivial
  obtain ⟨hnodup, hline⟩ := h.job j (by rw [hpc]; rfl)
  simp only [Process.replace, KVStore.compactReplace, if_true]
  refine ⟨by simp [Pc.replacing], fun ps e => ?_, fun j' e => ?_, fun _ => h.busy hb, h.one⟩
  · obtain rfl := Option.some.inj e
    exact ⟨rfl, hnodup, hline⟩
  · obtain rfl := Option.some.inj e
    exact ⟨hnodup, hline⟩

lemma Synced.finish (h : Synced σ) {key : Bytes} {t : ℕ} {j : CompactJob}
    (hpc : σ.pc = .replaced key t j) : Synced (σ.finish key t j) := by
  have hb : σ.pc.Busy := by rw [hpc]; trivial
  have htidy := h.replaced j.updatedPaths (by rw [hpc]; rfl)
  exact ⟨fun _ => (h.idle hb).follows (d := σ.disk) htidy, nofun, nofun, False.elim,
    ⟨h.one.le, h.one.runs⟩⟩

lemma Synced.work (h : Synced σ) (hw : σ.work .ok = some σ') (hone : σ'.store.OneFlush) :
    Synced σ' := by
  obtain ⟨w, d, hstep, rfl⟩ := Process.work_frame hw
  refine ⟨fun hrep => (h.follows hrep).step h.flushes_le hstep, fun ps e => ?_, h.job, h.busy, hone⟩
  have hb : σ.pc.Busy := by
    revert e
    show σ.pc.replacing = some ps → σ.pc.Busy
    cases σ.pc <;> simp [Pc.replacing, Pc.Busy]
  obtain ⟨-, rfl⟩ := (h.idle hb).step hstep
  exact h.replaced ps e

/-- **Every step keeps the manifest and the list together.** -/
theorem Synced.effect (h : Synced σ) {a : Action} (ha : a.succeeds = true) (he : σ.Effect a σ') :
    Synced σ' := by
  have hone := he.oneFlush h.one
  cases he with
  | put key value hpc => exact h.write hpc key (some value) hone
  | del key hpc =>
    revert hone
    unfold Process.del
    split
    · exact h.write hpc key none
    · exact fun _ => h
  | rotate hpc => exact h.rotate hpc
  | commit io hpc =>
    obtain ⟨w, f, e⟩ := σ.commit_frame io
    rw [e] at hone ⊢
    exact h.quiet hone (by rw [hpc]; rfl) rfl rfl rfl rfl rfl False.elim
  | flushWal io hpc => exact h.quiet hone (by rw [hpc]; rfl) rfl rfl rfl rfl rfl False.elim
  | setGroupCommitEvery n hpc =>
    have hrep : σ.pc.replacing = none := by rw [hpc]; rfl
    exact h.quiet hone hrep hrep (by rw [hpc]; rfl) rfl rfl rfl h.busy
  | getAt key t hpc =>
    exact h.quiet hone (by rw [hpc]; rfl) rfl rfl rfl rfl rfl fun hb => absurd hb (by simp [Pc.Busy])
  | drain key t added hpc => exact h.drain hpc hone
  | compact key t io hpc => exact h.compact hpc io
  | rename key t j ok hpc => exact h.rename hpc ok
  | replace key t j ok hpc =>
    obtain rfl : ok = true := ha
    exact h.replace hpc
  | finish key t j hpc => exact h.finish hpc
  | read key t hpc => exact h.quiet hone (by rw [hpc]; rfl) rfl rfl rfl rfl rfl False.elim
  | save io hpc =>
    obtain ⟨x, pc, e, hpc'⟩ := σ.save_frame io
    rw [e] at hone ⊢
    have hcalm : pc.replacing = none ∧ pc.job = none ∧ ¬ pc.Busy := by
      rcases hpc' with rfl | rfl
      · rw [hpc]
        exact ⟨rfl, rfl, id⟩
      · exact ⟨rfl, rfl, id⟩
    exact h.quiet hone (by rw [hpc]; rfl) hcalm.1 hcalm.2.1 rfl rfl rfl
      fun hb => absurd hb hcalm.2.2
  | removeWal hpc => exact h.quiet hone (by rw [hpc]; rfl) rfl rfl rfl rfl rfl False.elim
  | reopenWal ok hpc => exact h.quiet hone (by rw [hpc]; rfl) rfl rfl rfl rfl rfl False.elim
  | work io _ hw =>
    cases io with
    | ok => exact h.work hw hone
    | refused => simp [Action.succeeds] at ha
    | short n => simp [Action.succeeds] at ha

end Steps

/-! ### Sessions -/

/-- A compaction leaves the manifest and the list of the store together. -/
lemma Tidy.maybeCompact {s : KVStore} {d : Disk} (h : Tidy d.manifest s.sstablePaths) :
    Tidy (s.maybeCompactSstables d .ok).2.2.manifest
      (s.maybeCompactSstables d .ok).2.1.sstablePaths := by
  unfold KVStore.maybeCompactSstables
  split
  · exact h
  split
  · next first second rest hp =>
    have hnodup := h.nodup
    rw [hp] at hnodup
    have hne : first ≠ second := fun he => by simp [he] at hnodup
    obtain ⟨i, -, hfresh, hout⟩ := freshOutput_notMem s.sstablePaths s.nextSstableId
    simp only [if_neg hne, KVStore.compactBegin, hfresh]
    split
    · next hd =>
      obtain ⟨tb, rfl⟩ := KVStore.compactWrite_frame hd
      exact h
    · next hd =>
      obtain ⟨tb, rfl⟩ := KVStore.compactWrite_frame hd
      split
      · next hd' =>
        obtain ⟨tb', rfl⟩ := KVStore.compactRename_frame hd'
        exact h
      · next hd' =>
        obtain ⟨tb', rfl⟩ := KVStore.compactRename_frame hd'
        rw [hp] at hout
        refine ⟨rfl, nodup_replaced hnodup hout, fun p hpm => ?_⟩
        rcases List.mem_cons.mp hpm with rfl | hpm
        · exact TablePath.line (n := i + 1) ⟨i, by omega, Or.inr rfl⟩
        · exact h.line p (by simp [hp, hpm])
  · exact h

/-- **A session that opens on a tidy manifest.** -/
lemma start_synced {d : Disk} {ps : List Bytes} (h : Tidy (some (d.manifest.getD [])) ps) :
    Synced (Process.start d) := by
  have hone : (Process.start d).store.OneFlush := Process.launch_oneFlush d .ok
  obtain ⟨good, e⟩ := KVStore.open_new d .ok rfl rfl
  have hio : KVStore.OpenIo.ok.manifestOpen = true := rfl
  obtain ⟨s', d', hc, ho⟩ := (KVStore.recovered d good).openTables_true
    { d with wal := some (d.wal.getD []) } hio
  have hload : loadSstables d.manifest = ps := h.load
  have htidy := Tidy.maybeCompact
    (s := (KVStore.recovered d good).listTables d.manifest)
    (d := { d with wal := some (d.wal.getD []), manifest := some (d.manifest.getD []) })
    (by show Tidy _ (loadSstables d.manifest); rw [hload]; exact h)
  rw [show ((KVStore.recovered d good).listTables d.manifest).maybeCompactSstables
    { d with wal := some (d.wal.getD []), manifest := some (d.manifest.getD []) } .ok =
      (_, s', d') from Prod.ext rfl hc] at htidy
  have hstore : (Process.start d).store =
      { s' with flushWorker := s'.flushWorker.start, nextSstableId := s'.sstablePaths.length } := by
    show (KVStore.new.open d .ok).2.1 = _
    rw [e, ho]
  have hdisk : (Process.start d).disk = d' := by
    show (KVStore.new.open d .ok).2.2 = _
    rw [e, ho]
  have himm : (Process.start d).store.immutable = none := by
    obtain ⟨m, t, w, n, hr⟩ := KVStore.recovered_frame d good
    obtain ⟨b, paths, n', w', m', t', hf⟩ := (KVStore.recovered d good).openTables_frame
      { d with wal := some (d.wal.getD []) } .ok
    show (KVStore.new.open d .ok).2.1.immutable = none
    rw [e, hf, hr]
    rfl
  refine ⟨fun _ => ?_, nofun, nofun, False.elim, hone⟩
  refine (hone.idle himm).follows ?_
  rw [hstore, hdisk]
  exact htidy

/-- **Files that sessions have left**, all of whose file operations succeeded: a session ends with
a crash between two of them or with a clean exit. There is no manifest in the beginning. -/
inductive Lived : Disk → Prop
  | fresh {d : Disk} (h : d.manifest = none) : Lived d
  | crash {d : Disk} {as : List Action} {σ : Process} (h : Lived d)
      (hrun : (Process.start d).run as = some σ) (ha : ∀ a ∈ as, a.succeeds = true) : Lived σ.disk
  | exit {d : Disk} {as : List Action} {σ : Process} (h : Lived d)
      (hrun : (Process.start d).run as = some σ) (ha : ∀ a ∈ as, a.succeeds = true)
      (hpc : σ.pc = .idle) : Lived (σ.store.close σ.disk)

lemma run_synced {σ σ' : Process} {as : List Action} (h : Synced σ) (hrun : σ.run as = some σ')
    (ha : ∀ a ∈ as, a.succeeds = true) : Synced σ' :=
  Process.run_induct (P := Synced) (Q := fun a => a.succeeds = true) hrun ha h
    fun _ _ _ ha he ih => ih.effect ha he

/-- The manifest of a process is tidy. -/
lemma Synced.tidy {σ : Process} (h : Synced σ) : Tidy σ.disk.manifest (σ.pc.replacing.getD
    (σ.store.sstablePaths ++ σ.store.flushWorker.added σ.store.sstablePaths)) := by
  cases hrep : σ.pc.replacing with
  | none => exact (h.follows hrep).tidy
  | some ps => exact h.replaced ps hrep

lemma Lived.tidy {d : Disk} (h : Lived d) : ∃ ps, Tidy (some (d.manifest.getD [])) ps := by
  induction h with
  | fresh h => exact ⟨[], by rw [h]; rfl, List.nodup_nil, by simp⟩
  | crash _ hrun ha ih =>
    obtain ⟨ps, hps⟩ := ih
    exact ⟨_, (run_synced (start_synced hps) hrun ha).tidy.some_getD⟩
  | @exit d as σ _ hrun ha hpc ih =>
    obtain ⟨ps, hps⟩ := ih
    have hs := run_synced (start_synced hps) hrun ha
    have hf := hs.follows (by rw [hpc]; rfl)
    have hstop : σ.store.flushWorker.stop.Follows σ.store.sstablePaths σ.disk.manifest ∧
        σ.store.flushWorker.stop.flushes ≤ 1 := by
      unfold FlushWorker.stop
      split
      · exact ⟨⟨hf.tidy, hf.loaded, hf.held⟩, hs.flushes_le⟩
      · exact ⟨hf, hs.flushes_le⟩
    have ht := (hstop.1.runOn (n := σ.store.flushWorker.stepsLeft) hstop.2).tidy
    have hclose : (σ.store.close σ.disk).manifest =
      (σ.store.flushWorker.stop.runOn σ.store.flushWorker.stepsLeft σ.disk).2.manifest := rfl
    rw [hclose]
    exact ⟨_, ht.some_getD⟩

/-- **No manifest update is lost.** In every session on files that sessions have left, whatever the
order of the steps of the worker and of the calls, the manifest lists the tables of the store and
behind them the one that the worker has added, no path twice; inside a compaction, in which no flush
is outstanding, it may already be the list that the store takes over in the next step. -/
theorem manifest_in_step {d : Disk} (hd : Lived d) {as : List Action} {σ : Process}
    (hrun : (Process.start d).run as = some σ) (ha : ∀ a ∈ as, a.succeeds = true) :
    loadSstables σ.disk.manifest = σ.pc.replacing.getD
      (σ.store.sstablePaths ++ σ.store.flushWorker.added σ.store.sstablePaths) ∧
    (loadSstables σ.disk.manifest).Nodup ∧
    (σ.store.flushWorker.added σ.store.sstablePaths).length ≤ 1 ∧
    (σ.pc.Busy → σ.store.flushWorker.Idle) := by
  obtain ⟨ps, hps⟩ := hd.tidy
  have h := run_synced (start_synced hps) hrun ha
  have hload := h.tidy.load
  refine ⟨hload, hload ▸ h.tidy.nodup, ?_, h.idle⟩
  have hle := h.flushes_le
  have hrec : σ.store.flushWorker.recorded.length ≤ σ.store.flushWorker.flushes := by
    unfold FlushWorker.recorded FlushWorker.flushes FlushWorker.held
    split
    · next t e => simp [e]
    · simp
  exact (List.length_filter_le _ _).trans (hrec.trans hle)

/-- The first table of a store. -/
theorem manifest_in_step_first : ∃ σ, (Process.start Disk.empty).run (flushCycle largeValue) =
    some σ ∧ σ.store.sstablePaths = [flushPath 0] ∧
      loadSstables σ.disk.manifest = [flushPath 0] := by
  have hstart : Process.start Disk.empty = restProcess .idle ∅ [] 0 0 [] ∅ [] := rfl
  have hrun := flushCycle_run (v := largeValue) ∅ [] 0 0 [] ∅ [] (by simp [largeValue])
    (by decide) (by simp) (by simp)
  rw [← hstart] at hrun
  refine ⟨_, hrun, rfl, ?_⟩
  rw [(manifest_in_step (.fresh rfl) hrun (by simp [flushCycle, Action.succeeds])).1]
  rfl

end VeriStore.Store

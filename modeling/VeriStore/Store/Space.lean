import VeriStore.Store.Listing
import VeriStore.Store.Rotation

/-!
The files of a session.

A rotation hands the memtable to the worker, which writes a table file; a compaction writes a
temporary file, renames it and removes its inputs. As long as the system calls succeed, no table
file is left behind: each one is a table of the store, or the flush or the compaction in progress
is about it (`Trim`). Four tables are compacted by the call that brings the fourth, so that a store
at rest has three at most.

* `tables_bounded` — no file is left behind, and there are three tables at most;
* `tables_large` — every table takes the flush threshold out of what was written.
-/

namespace VeriStore.Store

open VeriStore.Lib VeriStore.Sstable VeriStore.Log

open KVStore (CompactJob)

/-- The tables that the worker has written and not handed back. -/
def FlushWorker.saved (w : FlushWorker) : List Bytes :=
  (match w.pc with
    | .written t | .loaded t _ | .appended t => [t.sstablePath]
    | .waiting | .popped _ | .exited => []) ++ w.completions

/-- The output of the compaction in progress. -/
def Pc.output : Pc → List Bytes
  | .merged _ _ j => [j.tempOutput]
  | .renamed _ _ j | .replaced _ _ j => [j.output]
  | _ => []

/-- How many tables there may be: four inside a call that has registered one. -/
def Pc.room : Pc → ℕ
  | .draining _ _ true | .compacting _ _ | .merged _ _ _ | .renamed _ _ _ | .replaced _ _ _ => 4
  | _ => 3

/-- The table files that are accounted for. -/
def Process.files (σ : Process) : List Bytes :=
  σ.store.sstablePaths ++ σ.store.flushWorker.saved ++ σ.pc.output

/-- **No table file is left behind**, and there is room for the tables. -/
structure Trim (σ : Process) : Prop where
  files : ∀ p, σ.disk.tables[p]?.isSome → p ∈ σ.files
  room : σ.store.sstablePaths.length ≤ σ.pc.room

section Steps

variable {σ σ' : Process} {tabs : List Entries} {fl : Option FlushTask}

/-! ### The parts of a compaction -/

/-- **The merge** of the first two of four tables, which does not fail. -/
lemma Layers.compact_cases (hl : Layers σ tabs none) (key : Bytes) (t : ℕ) :
    (σ.store.sstablePaths.length < kCompactionTrigger ∧
      σ.compact key t .ok = { σ with pc := .reading key t }) ∨
    ∃ j out rest, σ.store.sstablePaths = j.first :: j.second :: rest ∧
      j.updatedPaths = j.output :: rest ∧ σ.compact key t .ok = { σ with
        store := { σ.store with nextSstableId := σ.store.nextSstableId + 1 }
        disk := { σ.disk with tables := σ.disk.tables.insert j.tempOutput out }
        pc := .merged key t j } := by
  by_cases hlen : σ.store.sstablePaths.length < kCompactionTrigger
  · exact Or.inl ⟨hlen, by rw [Process.compact, if_pos hlen]⟩
  · right
    obtain ⟨first, second, rest, hp⟩ : ∃ first second rest,
        σ.store.sstablePaths = first :: second :: rest := by
      rcases hp : σ.store.sstablePaths with _ | ⟨first, _ | ⟨second, rest⟩⟩
      · simp [hp, kCompactionTrigger] at hlen
      · simp [hp, kCompactionTrigger] at hlen
      · exact ⟨first, second, rest, rfl⟩
    have hnd := hl.nodup
    simp only [pathsWith, Option.toList_none, List.map_nil, List.append_nil, hp] at hnd
    have hne : first ≠ second := fun he => by simp [he] at hnd
    have hfresh : compactedPath σ.store.nextSstableId ∉ σ.store.sstablePaths := fun hm =>
      ((layers_iff_stacked.mp hl).path_named hm).ne_compactedPath rfl
    have ht := hl.tables
    rw [hp] at ht
    obtain ⟨a, tabs₁, ha, ht₁, rfl⟩ := List.forall₂_cons_left_iff.mp ht
    obtain ⟨b, tabs₂, hb, -, rfl⟩ := List.forall₂_cons_left_iff.mp ht₁
    have hout := (stacking_inOrder.merged (layers_iff_stacked.mp hl).versions).1
    have hf : σ.disk.tables[first]? = some (sstableBytes a) := ha
    have hg : σ.disk.tables[second]? = some (sstableBytes b) := hb
    set j : CompactJob := ⟨first, second, compactedPath σ.store.nextSstableId,
      compactedPath σ.store.nextSstableId :: rest⟩ with hj
    have hwrite : KVStore.compactWrite j σ.disk .ok = (true, { σ.disk with
        tables := σ.disk.tables.insert j.tempOutput (sstableBytes (mergeEntries a b)) }) := by
      simp only [KVStore.compactWrite, hj, hf, hg, hout]
    refine ⟨j, sstableBytes (mergeEntries a b), rest, hp, rfl, ?_⟩
    unfold Process.compact
    rw [if_neg hlen]
    split
    · next first' second' rest' hp' =>
      obtain ⟨rfl, rfl, rfl⟩ : first = first' ∧ second = second' ∧ rest = rest' := by
        simpa [hp] using hp'
      simp only [if_neg hne, KVStore.compactBegin, freshOutput_eq hfresh, ← hj, hwrite]
    · next hno => exact absurd hp (hno first second rest)

/-- **The rename** does not fail, as the temporary file is there. -/
lemma Layers.rename_eq (hl : Layers σ tabs fl) {key : Bytes} {t : ℕ} {j : CompactJob}
    (hpc : σ.pc = .merged key t j) : ∃ out, σ.rename key t j true = { σ with
      disk := { σ.disk with tables := (σ.disk.tables.erase j.tempOutput).insert j.output out }
      pc := .renamed key t j } := by
  have h := hl.pc
  rw [PcOk, hpc] at h
  obtain ⟨-, a, b, rest, paths, -, -, -, -, -, hfile⟩ := h
  have hfile : σ.disk.tables[j.tempOutput]? = some (sstableBytes (mergeEntries a b)) := hfile
  refine ⟨sstableBytes (mergeEntries a b), ?_⟩
  simp only [Process.rename, KVStore.compactRename, hfile]

/-! ### No file is left behind -/

/-- A step with the same tables, files and room. -/
lemma Trim.quiet (h : Trim σ) (hp : σ'.store.sstablePaths = σ.store.sstablePaths)
    (hw : σ.store.flushWorker.saved ⊆ σ'.store.flushWorker.saved)
    (hd : σ'.disk.tables = σ.disk.tables) (ho : σ'.pc.output = σ.pc.output)
    (hr : σ.pc.room ≤ σ'.pc.room) : Trim σ' := by
  constructor
  · intro p hpd
    rw [hd] at hpd
    have hmem := h.files p hpd
    simp only [Process.files, List.mem_append] at hmem ⊢
    rw [hp, ho]
    rcases hmem with (hmem | hmem) | hmem
    · exact Or.inl (Or.inl hmem)
    · exact Or.inl (Or.inr (hw hmem))
    · exact Or.inr hmem
  · rw [hp]
    exact h.room.trans hr

lemma Trim.write (h : Trim σ) (hpc : σ.pc = .idle) (key : Bytes) (value : Option Bytes) :
    Trim (σ.write key value) := by
  unfold Process.write
  split
  · exact h
  · split
    · exact h.quiet rfl (List.Subset.refl _) rfl rfl le_rfl
    · obtain ⟨m, n, w, hl⟩ := σ.store.logged_frame ⟨σ.store.seq + 1, key, value⟩
      refine h.quiet ?_ ?_ rfl (by rw [hpc]; rfl) (by rw [hpc]; exact le_rfl)
      · simp only [hl]
      · simp only [hl]
        exact List.Subset.refl _

lemma Trim.rotate (h : Trim σ) (hpc : σ.pc = .rotating) : Trim σ.rotate := by
  obtain ⟨hs, hd, -, hpc'⟩ := σ.rotate_frame
  have hpaths : σ.rotate.store.sstablePaths = σ.store.sstablePaths ∧
      σ.rotate.store.flushWorker.saved = σ.store.flushWorker.saved := by
    rcases σ.store.maybeFlushMemtable_cases with ⟨ok, e⟩ | ⟨-, e⟩ | ⟨-, e⟩
    · rw [hs, e]
      exact ⟨rfl, rfl⟩
    · rw [hs, e]
      exact ⟨rfl, rfl⟩
    · rw [hs, e]
      refine ⟨rfl, ?_⟩
      unfold KVStore.rotated FlushWorker.enqueue
      split <;> rfl
  refine h.quiet hpaths.1 (by rw [hpaths.2]; exact List.Subset.refl _) (by rw [hd]) ?_ ?_
  · rcases hpc' with e | e <;> rw [e, hpc] <;> rfl
  · rcases hpc' with e | e <;> rw [e, hpc] <;> exact le_rfl

/-- The table of a completion was saved before. -/
lemma Trim.drain (hl : Layers σ tabs fl) (h : Trim σ) {key : Bytes} {t : ℕ} {added : Bool}
    (hpc : σ.pc = .draining key t added) : Trim (σ.drain key t added) := by
  have hfiles := h.files
  have hroom := h.room
  simp only [Process.files, hpc, Pc.output, List.append_nil] at hfiles
  rw [hpc] at hroom
  unfold Process.drain KVStore.drainOne FlushWorker.pollCompletion
  have hnone : Trim { σ with pc := if added then Pc.compacting key t else Pc.reading key t } := by
    cases added with
    | true => exact h.quiet rfl (List.Subset.refl _) rfl (by rw [hpc]; rfl) (by rw [hpc]; exact le_rfl)
    | false => exact h.quiet rfl (List.Subset.refl _) rfl (by rw [hpc]; rfl) (by rw [hpc]; exact le_rfl)
  cases hl.flush with
  | idle h1 h2 h3 => simpa only [h3, Option.map_none] using hnone
  | queued f h1 h2 h3 => simpa only [h3, Option.map_none] using hnone
  | popped f h1 h2 h3 => simpa only [h3, Option.map_none] using hnone
  | written f h1 h2 h3 h4 => simpa only [h3, Option.map_none] using hnone
  | completed f h1 h2 h3 h4 =>
    obtain rfl : added = false := by
      have := hl.pc
      rw [PcOk, hpc] at this
      cases added with
      | true => simp at this
      | false => rfl
    simp only [h3, Option.map_some, hl.path_new, if_false, not_false_eq_true, decide_true,
      Bool.or_true]
    simp only [FlushWorker.saved, h2, h3, List.nil_append] at hfiles
    refine ⟨fun p hp => ?_, ?_⟩
    · simpa [Process.files, FlushWorker.saved, h2, Pc.output] using hfiles p hp
    · have hroom : σ.store.sstablePaths.length ≤ 3 := hroom
      show (σ.store.sstablePaths ++ [f.sstablePath]).length ≤ 4
      rw [List.length_append, List.length_singleton]
      omega

/-- With nothing outstanding no table is saved. -/
lemma Layers.saved_eq_nil (hl : Layers σ tabs none) : σ.store.flushWorker.saved = [] := by
  obtain ⟨-, h2, h3⟩ := hl.flush.eq_nil
  simp [FlushWorker.saved, h2, h3]

lemma Trim.compact (hl : Layers σ tabs none) (h : Trim σ) {key : Bytes} {t : ℕ}
    (hpc : σ.pc = .compacting key t) : Trim (σ.compact key t .ok) := by
  have hfiles := h.files
  have hroom : σ.store.sstablePaths.length ≤ 4 := by
    have := h.room
    rwa [hpc] at this
  simp only [Process.files, hl.saved_eq_nil, hpc, Pc.output, List.append_nil] at hfiles
  rcases hl.compact_cases key t with ⟨hlen, e⟩ | ⟨j, out, rest, hp, -, e⟩
  · rw [e]
    refine ⟨fun p hp => ?_, ?_⟩
    · simpa [Process.files, hl.saved_eq_nil, Pc.output] using hfiles p hp
    · show σ.store.sstablePaths.length ≤ 3
      unfold kCompactionTrigger at hlen
      omega
  · rw [e]
    refine ⟨fun p hp => ?_, hroom⟩
    simp only [Process.files, hl.saved_eq_nil, Pc.output, List.append_nil, List.mem_append,
      List.mem_singleton]
    by_cases hpj : p = j.tempOutput
    · exact Or.inr hpj
    · left
      refine hfiles p ?_
      have hp : (σ.disk.tables.insert j.tempOutput out)[p]?.isSome := hp
      rwa [Std.ExtTreeMap.getElem?_insert, if_neg (by simpa using Ne.symm hpj)] at hp

lemma Trim.rename (hl : Layers σ tabs none) (h : Trim σ) {key : Bytes} {t : ℕ} {j : CompactJob}
    (hpc : σ.pc = .merged key t j) : Trim (σ.rename key t j true) := by
  have hfiles := h.files
  have hroom := h.room
  rw [hpc] at hroom
  simp only [Process.files, hl.saved_eq_nil, hpc, Pc.output, List.append_nil, List.mem_append,
    List.mem_singleton] at hfiles
  obtain ⟨out, e⟩ := hl.rename_eq hpc
  rw [e]
  refine ⟨fun p hp => ?_, hroom⟩
  simp only [Process.files, hl.saved_eq_nil, Pc.output, List.append_nil, List.mem_append,
    List.mem_singleton]
  have hp : ((σ.disk.tables.erase j.tempOutput).insert j.output out)[p]?.isSome := hp
  by_cases hpo : p = j.output
  · exact Or.inr hpo
  · left
    rw [Std.ExtTreeMap.getElem?_insert, if_neg (by simpa using Ne.symm hpo),
      Std.ExtTreeMap.getElem?_erase] at hp
    split at hp
    · simp at hp
    · next hpt => exact (hfiles p hp).resolve_right fun he => hpt (by simp [he])

/-- **The inputs are removed**, and the output is a table. -/
lemma Trim.finish (hl : Layers σ tabs none) (h : Trim σ) {key : Bytes} {t : ℕ} {j : CompactJob}
    (hpc : σ.pc = .replaced key t j) : Trim (σ.finish key t j) := by
  have hfiles := h.files
  have hroom := h.room
  rw [hpc] at hroom
  simp only [Process.files, hl.saved_eq_nil, hpc, Pc.output, List.append_nil, List.mem_append,
    List.mem_singleton] at hfiles
  have hjob := hl.pc
  rw [PcOk, hpc] at hjob
  obtain ⟨-, a, b, rest, paths, -, hp, hup, -, -, -⟩ := hjob
  refine ⟨fun p hpd => ?_, ?_⟩
  · have hpd : ((σ.disk.tables.erase j.first).erase j.second)[p]?.isSome := hpd
    rw [Std.ExtTreeMap.getElem?_erase] at hpd
    split at hpd
    · simp at hpd
    · next h2 =>
      rw [Std.ExtTreeMap.getElem?_erase] at hpd
      split at hpd
      · simp at hpd
      · next h1 =>
        have hmem := hfiles p hpd
        rw [hp] at hmem
        simp only [List.mem_cons] at hmem
        show p ∈ j.updatedPaths ++ σ.store.flushWorker.saved ++ Pc.output (.reading key t)
        rw [hup]
        simp only [List.mem_append, List.mem_cons]
        rcases hmem with (rfl | rfl | hmem) | hmem
        · simp at h1
        · simp at h2
        · exact Or.inl (Or.inl (Or.inr hmem))
        · exact Or.inl (Or.inl (Or.inl hmem))
  · have hroom : σ.store.sstablePaths.length ≤ 4 := hroom
    show j.updatedPaths.length ≤ 3
    rw [hp] at hroom
    rw [hup]
    simp only [List.length_cons] at hroom ⊢
    omega

/-- **A step of the worker**: the file it writes is accounted for until it is handed back. -/
lemma Trim.work (hl : Layers σ tabs fl) (h : Trim σ) (hw : σ.work .ok = some σ') : Trim σ' := by
  obtain ⟨w, d, hstep, rfl⟩ := Process.work_frame hw
  have hrun := hl.running
  unfold FlushWorker.step at hstep
  cases hl.flush with
  | idle h1 h2 h3 => simp [h1, h2, hrun] at hstep
  | queued f h1 h2 h3 =>
    simp only [h2, h1, Option.some.injEq, Prod.mk.injEq] at hstep
    obtain ⟨rfl, rfl⟩ := hstep
    exact h.quiet rfl (by simp [FlushWorker.saved, h2]) rfl rfl le_rfl
  | popped f h1 h2 h3 =>
    simp only [h2, Option.some.injEq, Prod.mk.injEq] at hstep
    obtain ⟨rfl, rfl⟩ := hstep
    refine ⟨fun p hp => ?_, h.room⟩
    have hfiles := h.files p
    simp only [Process.files, FlushWorker.saved, h2, h3, List.mem_append, List.append_nil,
      List.mem_singleton] at hfiles ⊢
    have hp : (σ.disk.tables.insert f.sstablePath (sstableBytes f.entries))[p]?.isSome := hp
    by_cases hpf : p = f.sstablePath
    · exact Or.inl (Or.inr hpf)
    · rw [Std.ExtTreeMap.getElem?_insert, if_neg (by simpa using Ne.symm hpf)] at hp
      rcases hfiles hp with hmem | hmem
      · exact Or.inl (Or.inl hmem)
      · exact Or.inr hmem
  | written f h1 h2 h3 h4 =>
    rcases h2 with h2 | ⟨existing, h2⟩ | h2
    · simp only [h2, Option.some.injEq, Prod.mk.injEq] at hstep
      obtain ⟨rfl, rfl⟩ := hstep
      exact h.quiet rfl (by simp [FlushWorker.saved, h2]) rfl rfl le_rfl
    · simp only [h2] at hstep
      split at hstep
      all_goals
        simp only [Option.some.injEq, Prod.mk.injEq] at hstep
        obtain ⟨rfl, rfl⟩ := hstep
        exact h.quiet rfl (by simp [FlushWorker.saved, h2]) rfl rfl le_rfl
    · simp only [h2, Option.some.injEq, Prod.mk.injEq] at hstep
      obtain ⟨rfl, rfl⟩ := hstep
      exact h.quiet rfl (by simp [FlushWorker.saved, h2, h3]) rfl rfl le_rfl
  | completed f h1 h2 h3 h4 => simp [h1, h2, hrun] at hstep

/-- **Every step keeps the files in order.** -/
theorem Trim.effect (hl : Layers σ tabs fl) (h : Trim σ) {a : Action} (ha : a.succeeds = true)
    (he : σ.Effect a σ') : Trim σ' := by
  cases he with
  | put key value hpc => exact h.write hpc key (some value)
  | del key hpc =>
    unfold Process.del
    split
    · exact h.write hpc key none
    · exact h
  | rotate hpc => exact h.rotate hpc
  | commit io hpc =>
    obtain ⟨w, f, e⟩ := σ.commit_frame io
    rw [e]
    exact h.quiet rfl (List.Subset.refl _) rfl (by rw [hpc]; rfl) (by rw [hpc]; exact le_rfl)
  | drain key t added hpc => exact h.drain hl hpc
  | compact key t io hpc =>
    obtain rfl : fl = none := by simpa [PcOk, hpc] using hl.pc
    obtain rfl : io = .ok := by cases io <;> simp [Action.succeeds] at ha ⊢
    exact h.compact hl hpc
  | rename key t j ok hpc =>
    obtain rfl : ok = true := ha
    obtain ⟨rfl, -⟩ : fl = none ∧ JobOk σ tabs j j.tempOutput := by simpa [PcOk, hpc] using hl.pc
    exact h.rename hl hpc
  | replace key t j ok hpc =>
    obtain rfl : ok = true := ha
    exact h.quiet rfl (List.Subset.refl _) rfl (by rw [hpc]; rfl) (by rw [hpc]; exact le_rfl)
  | finish key t j hpc =>
    obtain ⟨rfl, -⟩ : fl = none ∧ JobOk σ tabs j j.output := by simpa [PcOk, hpc] using hl.pc
    exact h.finish hl hpc
  | save io hpc =>
    obtain ⟨x, pc, e, hpc'⟩ := σ.save_frame io
    rw [e]
    refine h.quiet rfl (List.Subset.refl _) rfl ?_ ?_
    · rcases hpc' with rfl | rfl
      · rfl
      · rw [hpc]
        rfl
    · rcases hpc' with rfl | rfl
      · exact le_rfl
      · rw [hpc]
        exact le_rfl
  | work io _ hw =>
    obtain rfl : io = .ok := by cases io <;> simp [Action.succeeds] at ha ⊢
    exact h.work hl hw
  | setGroupCommitEvery n => exact h.quiet rfl (List.Subset.refl _) rfl rfl le_rfl
  | flushWal io hpc | getAt key t hpc | read key t hpc | removeWal hpc
  | reopenWal ok hpc =>
    exact h.quiet rfl (List.Subset.refl _) rfl (by rw [hpc]; rfl) (by rw [hpc]; exact le_rfl)

/-! ### What a table holds -/

/-- What the memtable counts for a version. -/
def countedBytes (r : Row) : ℕ :=
  r.1.length + (r.2.value.elim 0 List.length) + sizeofTimestamp + sizeofVersion

def weight (rs : List Row) : ℕ := (rs.map countedBytes).sum

lemma weight_perm {rs rs' : List Row} (h : rs.Perm rs') : weight rs = weight rs' :=
  (h.map countedBytes).sum_eq

@[simp] lemma weight_append (rs rs' : List Row) : weight (rs ++ rs') = weight rs + weight rs' := by
  simp [weight]

lemma weight_pushVersion (e : Entries) (key : Bytes) (v : Version) :
    weight (rows (pushVersion e key v)) = weight (rows e) + countedBytes (key, v) := by
  have hperm : (rows (pushVersion e key v)).Perm (rows e ++ [(key, v)]) :=
    perm_of_versionsIn fun k => by
      rw [versionsIn_rows, versionsOf_pushVersion, versionsIn_append, versionsIn_rows,
        versionsIn_singleton]
      by_cases hk : key = k <;> simp [hk]
  rw [weight_perm hperm, weight_append]
  simp [weight]

lemma weight_mergeEntries (a b : Entries) :
    weight (rows (mergeEntries a b)) = weight (rows a) + weight (rows b) := by
  have hperm : (rows (mergeEntries a b)).Perm (rows a ++ rows b) :=
    perm_of_versionsIn fun k => by
      rw [versionsIn_rows, versionsOf_mergeEntries, versionsIn_append, versionsIn_rows,
        versionsIn_rows]
  rw [weight_perm hperm, weight_append]

/-- **The memtable knows its size**, and what has left it was large enough. -/
structure Weighed (σ : Process) : Prop where
  memtable : σ.store.memtable.approximateSizeBytes = weight (rows σ.store.memtable.entries)
  tables : ∀ p ∈ σ.store.sstablePaths ++ σ.store.flushWorker.completions,
    kMemTableFlushThresholdBytes ≤ weight (tableRows σ.disk p)
  held : ∀ t ∈ σ.store.flushWorker.held, kMemTableFlushThresholdBytes ≤ weight (rows t.entries)

/-- A step with the same tables and the same tasks. -/
lemma Weighed.quiet (h : Weighed σ) (hm : σ'.store.memtable = σ.store.memtable)
    (hp : σ'.store.sstablePaths = σ.store.sstablePaths)
    (hw : σ'.store.flushWorker = σ.store.flushWorker)
    (hd : ∀ p ∈ σ.store.sstablePaths ++ σ.store.flushWorker.completions,
      σ'.disk.tables[p]? = σ.disk.tables[p]?) : Weighed σ' := by
  refine ⟨by rw [hm]; exact h.memtable, fun p hmem => ?_, by rw [hw]; exact h.held⟩
  rw [hp, hw] at hmem
  rw [tableRows, hd p hmem]
  exact h.tables p hmem

lemma Weighed.write (h : Weighed σ) (key : Bytes) (value : Option Bytes) :
    Weighed (σ.write key value) := by
  unfold Process.write
  split
  · exact h
  · split
    · exact h.quiet rfl rfl rfl fun _ _ => rfl
    · obtain ⟨m, n, w, hl⟩ := σ.store.logged_frame ⟨σ.store.seq + 1, key, value⟩
      refine ⟨?_, ?_, ?_⟩
      · simp only [KVStore.logged_memtable]
        cases value with
        | none =>
          show _ + (key.length + sizeofTimestamp + sizeofVersion) =
            weight (rows (pushVersion σ.store.memtable.entries key ⟨σ.store.seq + 1, none⟩))
          rw [weight_pushVersion, h.memtable]
          simp [countedBytes]
        | some v =>
          show _ + (key.length + v.length + sizeofTimestamp + sizeofVersion) =
            weight (rows (pushVersion σ.store.memtable.entries key ⟨σ.store.seq + 1, some v⟩))
          rw [weight_pushVersion, h.memtable]
          simp [countedBytes]
      · simp only [hl]
        exact h.tables
      · simp only [hl]
        exact h.held

/-- **A rotation** hands the worker a memtable that has reached the threshold. -/
lemma Weighed.rotate (h : Weighed σ) : Weighed σ.rotate := by
  obtain ⟨hs, hd, -, -⟩ := σ.rotate_frame
  have hempty : (0 : ℕ) = weight (rows ∅) := by
    have hnil : rows (∅ : Entries) = [] := by simp [rows]
    rw [hnil]
    rfl
  rcases σ.store.maybeFlushMemtable_cases with ⟨ok, e⟩ | ⟨-, e⟩ | ⟨hrot, e⟩
  · exact h.quiet (by rw [hs, e]) (by rw [hs, e]) (by rw [hs, e]) fun _ _ => by rw [hd]
  · refine ⟨by rw [hs, e]; exact hempty, ?_, ?_⟩
    · rw [hs, e, hd]
      exact h.tables
    · rw [hs, e]
      exact h.held
  · refine ⟨by rw [hs, e]; exact hempty, ?_, ?_⟩
    · rw [hs, e, hd]
      unfold KVStore.rotated FlushWorker.enqueue
      split <;> exact h.tables
    · rw [hs, e]
      unfold KVStore.rotated FlushWorker.enqueue
      split
      · exact h.held
      · intro t ht
        simp only [FlushWorker.held, List.append_assoc, List.mem_append, List.mem_singleton] at ht
        rcases ht with ht | rfl | ht
        · exact h.held t (List.mem_append_left _ ht)
        · exact hrot.1.trans_eq h.memtable
        · exact h.held t (List.mem_append_right _ ht)

lemma Weighed.drain (h : Weighed σ) (key : Bytes) (t : ℕ) (added : Bool) :
    Weighed (σ.drain key t added) := by
  unfold Process.drain KVStore.drainOne FlushWorker.pollCompletion
  cases hc : σ.store.flushWorker.completions with
  | nil => exact h.quiet rfl rfl rfl fun _ _ => rfl
  | cons c cs =>
    simp only [Option.map_some]
    refine ⟨h.memtable, fun p hp => h.tables p ?_, h.held⟩
    have hsub : (if c ∈ σ.store.sstablePaths then σ.store.sstablePaths
        else σ.store.sstablePaths ++ [c]) ⊆ σ.store.sstablePaths ++ [c] := by
      split
      · exact List.subset_append_left _ _
      · exact List.Subset.refl _
    rw [hc, ← List.singleton_append, ← List.append_assoc]
    rcases List.mem_append.mp hp with hp | hp
    · exact List.mem_append_left _ (hsub hp)
    · exact List.mem_append_right _ hp

/-- With nothing outstanding, a step that leaves the files of the tables alone. -/
lemma Weighed.files (hl : Layers σ tabs none) (h : Weighed σ)
    (hm : σ'.store.memtable = σ.store.memtable)
    (hp : σ'.store.sstablePaths = σ.store.sstablePaths)
    (hw : σ'.store.flushWorker = σ.store.flushWorker)
    (hd : ∀ p ∈ σ.store.sstablePaths, σ'.disk.tables[p]? = σ.disk.tables[p]?) : Weighed σ' := by
  refine h.quiet hm hp hw ?_
  rw [hl.flush.eq_nil.2.2, List.append_nil]
  exact hd

lemma Weighed.compact (hl : Layers σ tabs none) (h : Weighed σ) (key : Bytes) (t : ℕ) :
    Weighed (σ.compact key t .ok) := by
  rcases hl.compact_cases key t with ⟨-, e⟩ | ⟨j, out, rest, -, -, e⟩
  · rw [e]
    exact h.quiet rfl rfl rfl fun _ _ => rfl
  · rw [e]
    refine h.files hl rfl rfl rfl fun p hp => ?_
    have hne : p ≠ j.tempOutput := ((layers_iff_stacked.mp hl).path_named hp).ne_temp
    show (σ.disk.tables.insert j.tempOutput out)[p]? = _
    rw [Std.ExtTreeMap.getElem?_insert, if_neg (by simpa using hne.symm)]

lemma Weighed.rename (hl : Layers σ tabs none) (h : Weighed σ) {key : Bytes} {t : ℕ} {j : CompactJob}
    (hpc : σ.pc = .merged key t j) : Weighed (σ.rename key t j true) := by
  have hjob := hl.pc
  rw [PcOk, hpc] at hjob
  obtain ⟨-, a, b, rest, paths, -, -, -, -, hnew, -⟩ := hjob
  obtain ⟨out, e⟩ := hl.rename_eq hpc
  rw [e]
  refine h.files hl rfl rfl rfl fun p hp => ?_
  have hne : p ≠ j.tempOutput := ((layers_iff_stacked.mp hl).path_named hp).ne_temp
  have hne' : j.output ≠ p := fun he => hnew (he ▸ hp)
  show ((σ.disk.tables.erase j.tempOutput).insert j.output out)[p]? = _
  rw [Std.ExtTreeMap.getElem?_insert, if_neg (by simpa using hne'), Std.ExtTreeMap.getElem?_erase,
    if_neg (by simpa using hne.symm)]

/-- **The output of a compaction** weighs what its inputs weighed. -/
lemma Weighed.finish (hl : Layers σ tabs none) (h : Weighed σ) {key : Bytes} {t : ℕ} {j : CompactJob}
    (hpc : σ.pc = .replaced key t j) : Weighed (σ.finish key t j) := by
  have hjob := hl.pc
  rw [PcOk, hpc] at hjob
  obtain ⟨-, a, b, rest, paths, rfl, hp, hup, -, hnew, hfile⟩ := hjob
  have hnil := hl.flush.eq_nil.2.2
  have hnd := hl.nodup
  simp only [pathsWith, Option.toList_none, List.map_nil, List.append_nil, hp] at hnd
  obtain ⟨hn1, hnd'⟩ := List.nodup_cons.mp hnd
  obtain ⟨hn2, -⟩ := List.nodup_cons.mp hnd'
  rw [hp] at hnew
  simp only [List.mem_cons, not_or] at hnew hn1
  have hheavy := h.tables
  rw [hnil, List.append_nil, hp] at hheavy
  have herase : ∀ p, p ≠ j.first → p ≠ j.second →
      tableRows (σ.finish key t j).disk p = tableRows σ.disk p := by
    intro p h1 h2
    have hget : ((σ.disk.tables.erase j.first).erase j.second)[p]? = σ.disk.tables[p]? := by
      rw [Std.ExtTreeMap.getElem?_erase, if_neg (by simpa using h2.symm),
        Std.ExtTreeMap.getElem?_erase, if_neg (by simpa using h1.symm)]
    rw [tableRows, tableRows]
    exact congrArg (fun f => rows ((loadSstable f ∅).getD ∅)) hget
  have hmerged := (stacking_inOrder.merged (layers_iff_stacked.mp hl).versions).2
  have hout : tableRows σ.disk j.output = rows (mergeEntries a b) :=
    tableRows_eq hfile (hmerged.ok _ (by simp))
  have ha : tableRows σ.disk j.first = rows a := by
    have ht := hl.tables
    rw [hp] at ht
    exact tableRows_eq (List.forall₂_cons.mp ht).1 (hl.ok a (by simp [parts]))
  refine ⟨h.memtable, fun p hmem => ?_, h.held⟩
  change p ∈ j.updatedPaths ++ σ.store.flushWorker.completions at hmem
  rw [hnil, List.append_nil, hup] at hmem
  rcases List.mem_cons.mp hmem with rfl | hmem
  · rw [herase _ hnew.1 hnew.2.1, hout, weight_mergeEntries]
    have := hheavy j.first (by simp)
    rw [ha] at this
    omega
  · rw [herase p (fun he => hn1.2 (he ▸ hmem)) fun he => hn2 (he ▸ hmem)]
    exact hheavy p (by simp [hmem])

lemma Weighed.work (hl : Layers σ tabs fl) (h : Weighed σ) (hw : σ.work .ok = some σ') :
    Weighed σ' := by
  obtain ⟨w, d, hstep, rfl⟩ := Process.work_frame hw
  have hrun := hl.running
  have hheavy := h.tables
  have hheld := h.held
  unfold FlushWorker.step at hstep
  -- the tables and the tasks are the same as long as nothing is handed back
  have hsame : ∀ (w : FlushWorker) (d : Disk),
      w.completions = σ.store.flushWorker.completions → w.held = σ.store.flushWorker.held →
      (∀ p ∈ σ.store.sstablePaths ++ σ.store.flushWorker.completions,
        d.tables[p]? = σ.disk.tables[p]?) →
      Weighed { σ with store := { σ.store with flushWorker := w }, disk := d } := by
    intro w d hc hh hd
    refine ⟨h.memtable, fun p hp => ?_, fun t ht => hheld t (hh ▸ ht)⟩
    change p ∈ σ.store.sstablePaths ++ w.completions at hp
    rw [hc] at hp
    rw [tableRows, hd p hp]
    exact hheavy p hp
  cases hl.flush with
  | idle h1 h2 h3 => simp [h1, h2, hrun] at hstep
  | queued f h1 h2 h3 =>
    simp only [h2, h1, Option.some.injEq, Prod.mk.injEq] at hstep
    obtain ⟨rfl, rfl⟩ := hstep
    exact hsame _ _ rfl (by simp [FlushWorker.held, h1, h2]) fun _ _ => rfl
  | popped f h1 h2 h3 =>
    simp only [h2, Option.some.injEq, Prod.mk.injEq] at hstep
    obtain ⟨rfl, rfl⟩ := hstep
    refine hsame _ _ rfl (by simp [FlushWorker.held, h2]) fun p hp => ?_
    rw [h3, List.append_nil] at hp
    have hne : f.sstablePath ≠ p := fun he => hl.path_new (he ▸ hp)
    show (σ.disk.tables.insert f.sstablePath (sstableBytes f.entries))[p]? = _
    rw [Std.ExtTreeMap.getElem?_insert, if_neg (by simpa using hne)]
  | written f h1 h2 h3 h4 =>
    rcases h2 with h2 | ⟨existing, h2⟩ | h2
    · simp only [h2, Option.some.injEq, Prod.mk.injEq] at hstep
      obtain ⟨rfl, rfl⟩ := hstep
      exact hsame _ _ rfl (by simp [FlushWorker.held, h2]) fun _ _ => rfl
    · simp only [h2] at hstep
      split at hstep
      all_goals
        simp only [Option.some.injEq, Prod.mk.injEq] at hstep
        obtain ⟨rfl, rfl⟩ := hstep
        exact hsame _ _ rfl (by simp [FlushWorker.held, h2]) fun _ _ => rfl
    · simp only [h2, Option.some.injEq, Prod.mk.injEq] at hstep
      obtain ⟨rfl, rfl⟩ := hstep
      have hrows : tableRows σ.disk f.sstablePath = rows f.entries :=
        tableRows_eq h4 (hl.ok f.entries (by simp [parts]))
      have hf : kMemTableFlushThresholdBytes ≤ weight (rows f.entries) :=
        hheld f (by simp [FlushWorker.held, h2])
      refine ⟨h.memtable, fun p hp => ?_, fun t ht => by simp [FlushWorker.held, h1] at ht⟩
      simp only [h3, List.nil_append, List.mem_append, List.mem_singleton] at hp
      rcases hp with hp | rfl
      · exact hheavy p (List.mem_append_left _ hp)
      · rw [hrows]
        exact hf
  | completed f h1 h2 h3 h4 => simp [h1, h2, hrun] at hstep

/-- **Every step keeps the weights.** -/
theorem Weighed.effect (hl : Layers σ tabs fl) (h : Weighed σ) {a : Action} (ha : a.succeeds = true)
    (he : σ.Effect a σ') : Weighed σ' := by
  cases he with
  | put key value => exact h.write key (some value)
  | del key =>
    unfold Process.del
    split
    · exact h.write key none
    · exact h
  | rotate => exact h.rotate
  | commit io =>
    obtain ⟨w, f, e⟩ := σ.commit_frame io
    rw [e]
    exact h.quiet rfl rfl rfl fun _ _ => rfl
  | drain key t added => exact h.drain key t added
  | compact key t io hpc =>
    obtain rfl : fl = none := by simpa [PcOk, hpc] using hl.pc
    obtain rfl : io = .ok := by cases io <;> simp [Action.succeeds] at ha ⊢
    exact h.compact hl key t
  | rename key t j ok hpc =>
    obtain rfl : ok = true := ha
    obtain ⟨rfl, -⟩ : fl = none ∧ JobOk σ tabs j j.tempOutput := by simpa [PcOk, hpc] using hl.pc
    exact h.rename hl hpc
  | replace key t j ok =>
    obtain rfl : ok = true := ha
    exact h.quiet rfl rfl rfl fun _ _ => rfl
  | finish key t j hpc =>
    obtain ⟨rfl, -⟩ : fl = none ∧ JobOk σ tabs j j.output := by simpa [PcOk, hpc] using hl.pc
    exact h.finish hl hpc
  | save io =>
    obtain ⟨x, pc, e, -⟩ := σ.save_frame io
    rw [e]
    exact h.quiet rfl rfl rfl fun _ _ => rfl
  | work io _ hw =>
    obtain rfl : io = .ok := by cases io <;> simp [Action.succeeds] at ha ⊢
    exact h.work hl hw
  | flushWal | setGroupCommitEvery | getAt | read | removeWal | reopenWal =>
    exact h.quiet rfl rfl rfl fun _ _ => rfl

end Steps

/-! ### Runs -/

lemma start_trim : Trim (Process.start Disk.empty) := by
  refine ⟨fun p hp => ?_, Nat.zero_le _⟩
  have htables : (Process.start Disk.empty).disk.tables = ∅ := rfl
  simp [htables] at hp

lemma start_weighed : Weighed (Process.start Disk.empty) := by
  have hnil : rows (∅ : Entries) = [] := by simp [rows]
  refine ⟨?_, fun p hp => ?_, fun t ht => ?_⟩
  · show 0 = weight (rows ∅)
    rw [hnil]
    rfl
  · have hpaths : (Process.start Disk.empty).store.sstablePaths ++
        (Process.start Disk.empty).store.flushWorker.completions = [] := rfl
    simp [hpaths] at hp
  · have hheld : (Process.start Disk.empty).store.flushWorker.held = [] := rfl
    simp [hheld] at ht

/-- **The files and the weights of every run from empty files.** -/
theorem run_trim {as : List Action} {σ : Process}
    (hrun : (Process.start Disk.empty).run as = some σ) (ha : ∀ a ∈ as, a.succeeds = true)
    (hp : ∀ a ∈ as, a.Plain) (hlt : σ.store.seq < 2 ^ 64) :
    (∃ tabs fl, Layers σ tabs fl) ∧ Trim σ ∧ Weighed σ := by
  have h : σ.store.seq < 2 ^ 64 → (∃ tabs fl, Layers σ tabs fl) ∧ Trim σ ∧ Weighed σ :=
    Process.run_induct
      (P := fun σ => σ.store.seq < 2 ^ 64 → (∃ tabs fl, Layers σ tabs fl) ∧ Trim σ ∧ Weighed σ) hrun
      (fun a ham => And.intro (ha a ham) (hp a ham))
      (fun _ => ⟨⟨[], none, start_layers⟩, start_trim, start_weighed⟩)
      fun σ₁ a σ₂ hQ he ih hlt => by
        obtain ⟨⟨tabs, fl, hl⟩, ht, hw⟩ := ih (he.seq_le.trans_lt hlt)
        exact ⟨hl.effect hQ.1 hQ.2 hlt he, ht.effect hl hQ.1 he, hw.effect hl hQ.1 he⟩
  exact h hlt

/-- A put that fills the memtable; the worker has written the table. -/
def flushing (v : Bytes) : List Action := [.put (text "a") v, .rotate, .work .ok, .work .ok]

lemma flushing_run {v : Bytes} (hv : kMemTableFlushThresholdBytes ≤ v.length) :
    ∃ σ, (Process.start Disk.empty).run (flushing v) = some σ ∧ σ.store.seq = 1 ∧
      σ.store.flushWorker.held.length = 1 ∧ σ.disk.tables[flushPath 0]?.isSome := by
  set σ := (Process.start Disk.empty).put (text "a") v with hσ
  have hmem : σ.store.memtable = ⟨oneVersion v, 57 + v.length⟩ :=
    Process.put_memtable rfl rfl rfl v
  have hrotate : σ.rotate = { σ with store := σ.store.rotated, pc := .committing } :=
    Process.rotate_accepted (rotates_of_put hv hmem rfl) rfl
  have hrun : (Process.start Disk.empty).run (flushing v) =
      ({ σ with store := σ.store.rotated, pc := .committing } : Process).run
        [.work .ok, .work .ok] := by
    rw [← hrotate]
    rfl
  refine ⟨_, hrun.trans rfl, rfl, rfl, ?_⟩
  show ((∅ : Std.ExtTreeMap Bytes Bytes).insert (flushPath 0) _)[flushPath 0]?.isSome = true
  rw [Std.ExtTreeMap.getElem?_insert_self]
  rfl

lemma flushing_plain {v : Bytes} (hv : Clean v) :
    ∀ a ∈ flushing v, a.succeeds = true ∧ a.Plain := by
  have hput : (Action.put (text "a") v).Plain := ⟨by decide, hv⟩
  simp only [flushing, List.forall_mem_cons]
  exact ⟨⟨rfl, hput⟩, ⟨rfl, trivial⟩, ⟨rfl, trivial⟩, ⟨rfl, trivial⟩, by simp⟩

/-- **No table file is left behind.** In every run from empty files whose system calls succeed, with
plain keys and values, every table file is a table of the store, or the worker has written it and
not handed it back, or it is the output of the compaction in progress; there are three tables at
most outside a call of `get_at`, and when the worker has nothing to do either, the files are exactly
the tables. -/
theorem tables_bounded {as : List Action} {σ : Process}
    (hrun : (Process.start Disk.empty).run as = some σ) (ha : ∀ a ∈ as, a.succeeds = true)
    (hp : ∀ a ∈ as, a.Plain) (hlt : σ.store.seq < 2 ^ 64) :
    (∀ p, σ.disk.tables[p]?.isSome → p ∈ σ.files) ∧
    σ.store.sstablePaths.length ≤ σ.pc.room ∧
    (σ.pc = .idle → σ.store.sstablePaths.length ≤ 3 ∧
      (σ.store.flushWorker.Idle → ∀ p, σ.disk.tables[p]?.isSome ↔ p ∈ σ.store.sstablePaths)) := by
  obtain ⟨⟨tabs, fl, hl⟩, ht, -⟩ := run_trim hrun ha hp hlt
  refine ⟨ht.files, ht.room, fun hpc => ⟨?_, fun hi p => ⟨fun hsome => ?_, fun hmem => ?_⟩⟩⟩
  · have hroom := ht.room
    rwa [hpc] at hroom
  · obtain rfl := hl.fl_eq_none hi
    have hmem := ht.files p hsome
    simpa [Process.files, hl.saved_eq_nil, hpc, Pc.output] using hmem
  · have hsome : ∀ {paths : List Bytes} {tabs : List Entries},
        List.Forall₂ (HoldsEntries σ.disk) paths tabs → p ∈ paths → σ.disk.tables[p]?.isSome := by
      intro paths tabs h hmem
      induction h with
      | nil => simp at hmem
      | cons hq _ ih =>
        rcases List.mem_cons.mp hmem with rfl | hmem
        · rw [show σ.disk.tables[p]? = _ from hq]
          rfl
        · exact ih hmem
    exact hsome hl.tables hmem

/-- The file of the flush in progress is accounted for. -/
theorem tables_bounded_flushing : ∃ σ, (Process.start Disk.empty).run (flushing largeValue) = some σ ∧
    σ.disk.tables[flushPath 0]?.isSome ∧ flushPath 0 ∈ σ.files := by
  obtain ⟨σ, hrun, hseq, -, hfile⟩ := flushing_run (v := largeValue) (by simp [largeValue])
  have hall := flushing_plain clean_largeValue
  exact ⟨σ, hrun, hfile, (tables_bounded hrun (fun a h => (hall a h).1) (fun a h => (hall a h).2)
    (by rw [hseq]; decide)).1 _ hfile⟩

/-- **Tables are large.** In every such run the memtable knows the size of its versions, every table
holds as much as makes a memtable rotate, and so do the flushes that are on their way: together with
the memtable they do not hold more than what was written. -/
theorem tables_large {as : List Action} {σ : Process}
    (hrun : (Process.start Disk.empty).run as = some σ) (ha : ∀ a ∈ as, a.succeeds = true)
    (hp : ∀ a ∈ as, a.Plain) (hlt : σ.store.seq < 2 ^ 64) :
    σ.store.memtable.approximateSizeBytes = weight (rows σ.store.memtable.entries) ∧
    (∀ p ∈ σ.store.sstablePaths, kMemTableFlushThresholdBytes ≤ weight (tableRows σ.disk p)) ∧
    kMemTableFlushThresholdBytes * (σ.store.sstablePaths.length +
        σ.store.flushWorker.held.length + σ.store.flushWorker.completions.length) +
      σ.store.memtable.approximateSizeBytes ≤ weight σ.written := by
  obtain ⟨⟨tabs, fl, hl⟩, -, hw⟩ := run_trim hrun ha hp hlt
  have hsum : ∀ {α : Type} (xs : List α) (f : α → List Row),
      (∀ x ∈ xs, kMemTableFlushThresholdBytes ≤ weight (f x)) →
      kMemTableFlushThresholdBytes * xs.length ≤ weight (xs.flatMap f) := by
    intro α xs f h
    induction xs with
    | nil => simp
    | cons x xs ih =>
      have hx := h x (by simp)
      have hxs := ih fun y hy => h y (List.mem_cons_of_mem x hy)
      rw [List.flatMap_cons, weight_append, List.length_cons, Nat.mul_succ]
      omega
  have htables := hsum _ (tableRows σ.disk) fun p hp => hw.tables p (List.mem_append_left _ hp)
  have hdone := hsum _ (tableRows σ.disk) fun p hp => hw.tables p (List.mem_append_right _ hp)
  have hheld := hsum _ (fun t : FlushTask => rows t.entries) hw.held
  refine ⟨hw.memtable, fun p hp => hw.tables p (List.mem_append_left _ hp), ?_⟩
  rw [← weight_perm hl.perm_written, Process.layers, List.flatten_append, weight_append,
    ← List.flatMap_def]
  simp only [List.flatten_cons, List.flatten_nil, List.append_nil, Process.outstanding,
    weight_append, Nat.mul_add, hw.memtable]
  omega

/-- One flush in progress has taken the threshold out of what was written. -/
theorem tables_large_flushing : ∃ σ, (Process.start Disk.empty).run (flushing largeValue) = some σ ∧
    kMemTableFlushThresholdBytes ≤ weight σ.written := by
  obtain ⟨σ, hrun, hseq, hheld, -⟩ := flushing_run (v := largeValue) (by simp [largeValue])
  have hall := flushing_plain clean_largeValue
  obtain ⟨-, -, hle⟩ := tables_large hrun (fun a h => (hall a h).1) (fun a h => (hall a h).2)
    (by rw [hseq]; decide)
  refine ⟨σ, hrun, ?_⟩
  rw [hheld] at hle
  unfold kMemTableFlushThresholdBytes at hle ⊢
  omega

end VeriStore.Store

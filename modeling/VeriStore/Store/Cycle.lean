import VeriStore.Store.Stack

/-!
A flush, from the put to the live table.

A put that fills the memtable is followed by its rotation and the commit of its record; the worker
writes the table, lists it and reports it, and the next read drains the report and looks whether
there are enough tables for a compaction. Here this is followed call by call, for every value that is
large enough and for every store that has nothing outstanding.

* `flushCycle_run` — the value is in the last table, and the memtable is empty again;
* `flushRead_run` — the same with the rest of the read, while there are few tables.
-/

namespace VeriStore.Store

open VeriStore.Lib VeriStore.Sstable VeriStore.Log

/-! ### A put that fills the memtable -/

/-- A value that fills the memtable. -/
def largeValue : Bytes := List.replicate kMemTableFlushThresholdBytes 97

lemma clean_replicate (n : ℕ) : Clean (List.replicate n 97) := by
  refine ⟨fun h => absurd (List.eq_of_mem_replicate h) (by decide), fun b hb => ?_⟩
  rw [List.eq_of_mem_replicate (List.mem_of_mem_head? hb)]
  decide

lemma clean_largeValue : Clean largeValue := clean_replicate _

/-- One version of the key `a`. -/
def oneEntry (t : ℕ) (v : Bytes) : Entries := pushVersion ∅ (text "a") ⟨t, some v⟩

/-- A put into an empty memtable. -/
lemma Process.put_memtable {σ : Process} (ho : σ.store.opened = true) (hfd : σ.store.wal.fd.isSome)
    (hmem : σ.store.memtable = MemTable.empty) (v : Bytes) :
    (σ.put (text "a") v).store.memtable =
      ⟨oneEntry (σ.store.seq + 1) v, 57 + v.length⟩ := by
  have hfd' : σ.store.wal.fd.isNone = false := by simpa using hfd
  have hput : (σ.put (text "a") v).store.memtable =
      σ.store.memtable.put (text "a") (σ.store.seq + 1) v := by
    simp only [Process.put, Process.write, ho, hfd', Bool.not_true, Bool.false_eq_true, if_false]
    rfl
  rw [hput, hmem]
  show MemTable.mk _ (0 + ((text "a").length + v.length + 8 + 48)) = _
  rw [show 0 + ((text "a").length + v.length + 8 + 48) = 57 + v.length by
    simp [text]
    omega]
  rfl

/-- One version of a value that is large enough fills the memtable. -/
lemma rotates_of_put {σ : Process} {v : Bytes} (hv : kMemTableFlushThresholdBytes ≤ v.length) {n t : ℕ}
    (hmem : σ.store.memtable = ⟨oneEntry t v, n + v.length⟩) (himm : σ.store.immutable = none) :
    σ.store.Rotates := by
  refine ⟨?_, himm, ?_⟩
  · rw [hmem]
    show _ ≤ n + v.length
    omega
  · rw [hmem]
    intro hempty
    have hone : versionsOf (oneEntry t v) (text "a") = [⟨t, some v⟩] := by
      simp [oneEntry, versionsOf_pushVersion, versionsOf_empty]
    rw [show oneEntry t v = ∅ from hempty, versionsOf_empty] at hone
    cases hone

lemma Process.rotate_store {σ : Process} (hrot : σ.store.Rotates) : σ.rotate.store = σ.store.rotated := by
  obtain ⟨h1, h2, h3⟩ := hrot
  have hne : σ.store.memtable.entries.isEmpty = false := by
    simpa [Std.ExtTreeMap.isEmpty_iff] using h3
  rw [σ.rotate_frame.1]
  simp only [KVStore.maybeFlushMemtable, not_lt.mpr h1, if_false, h2, Option.isSome_none,
    Bool.false_eq_true, MemTable.takeEntries, hne]
  rfl

/-- A rotation whose task the worker takes. -/
lemma Process.rotate_accepted {σ : Process} (hrot : σ.store.Rotates)
    (hq : (σ.store.flushWorker.enqueue σ.store.flushTask).1 = true) :
    σ.rotate = { σ with store := σ.store.rotated, pc := .committing } := by
  have hstore := Process.rotate_store hrot
  rcases σ.store.maybeFlushMemtable_cases with ⟨ok, e⟩ | ⟨he, -⟩ | ⟨-, e⟩
  · have himm : σ.store.immutable = σ.store.rotated.immutable := by
      rw [← hstore, σ.rotate_frame.1, e]
    simp [KVStore.rotated, hrot.2.1] at himm
  · exact absurd he hrot.2.2
  · rw [Process.rotate, e, hq]

/-! ### The flush -/

/-- A process with an empty memtable and nothing outstanding. -/
def restProcess (pc : Pc) (map : Std.ExtTreeMap Bytes Bytes) (paths : List Bytes) (next seq : ℕ)
    (buffer : List Bytes) (tables : Std.ExtTreeMap Bytes Bytes) (written : List Row) : Process where
  store := ⟨map, MemTable.empty, none, paths, ⟨[], [], true, false, .waiting⟩, next,
    ⟨some 0, buffer, 0⟩, seq, 5, true⟩
  disk := ⟨none, some [], some (replaceSstables paths), tables⟩
  pc := pc
  written := written

/-- A put that fills the memtable, its flush, and a read that finds the completion. -/
def flushCycle (v : Bytes) : List Action :=
  [.put (text "a") v, .rotate, .commit .ok, .work .ok, .work .ok, .work .ok, .work .ok, .work .ok,
    .getAt (text "a") 0, .drain, .drain]

lemma Process.run_trans {σ σ₁ σ₂ : Process} {as bs : List Action} (h : σ.run as = some σ₁)
    (h' : σ₁.run bs = some σ₂) : σ.run (as ++ bs) = some σ₂ := by
  unfold Process.run at *
  rw [List.foldlM_append, h]
  exact h'

/-- A process whose flush is outstanding, with the tables that its manifest lists. -/
def flushProcess (w : FlushWorker) (listed : List Bytes) (map : Std.ExtTreeMap Bytes Bytes)
    (paths : List Bytes) (next seq : ℕ) (buffer : List Bytes) (tables : Std.ExtTreeMap Bytes Bytes)
    (written : List Row) : Process where
  store := ⟨map, MemTable.empty, some ∅, paths, w, next, ⟨some 0, buffer, 0⟩, seq, 5, true⟩
  disk := ⟨none, some [], some (replaceSstables listed), tables⟩
  pc := .idle
  written := written

section Cycle

variable {v : Bytes} (map : Std.ExtTreeMap Bytes Bytes) (paths : List Bytes) (next seq : ℕ)
  (buffer : List Bytes) (tables : Std.ExtTreeMap Bytes Bytes) (written : List Row)

/-- The put hands its version to the worker, and commits nothing. -/
lemma put_run (hv : kMemTableFlushThresholdBytes ≤ v.length) (hseq : (seq + 1) % 5 ≠ 0) :
    (restProcess .idle map paths next seq buffer tables written).run
        [.put (text "a") v, .rotate, .commit .ok] =
      some (flushProcess ⟨[⟨flushPath next, oneEntry (seq + 1) v⟩], [], true, false, .waiting⟩ paths
        (map.insert (text "a") v) paths (next + 1) (seq + 1)
        (buffer ++ [recordBytes ⟨seq + 1, text "a", some v⟩]) tables
        (written ++ [(text "a", ⟨seq + 1, some v⟩)])) := by
  set σ := (restProcess .idle map paths next seq buffer tables written).put (text "a") v with hσ
  have hmem : σ.store.memtable = ⟨oneEntry (seq + 1) v, 57 + v.length⟩ :=
    Process.put_memtable rfl rfl rfl v
  have hrotate : σ.rotate = { σ with store := σ.store.rotated, pc := .committing } :=
    Process.rotate_accepted (rotates_of_put hv hmem rfl) rfl
  have htask : σ.store.flushTask = ⟨flushPath next, oneEntry (seq + 1) v⟩ := by
    rw [KVStore.flushTask, hmem]
    rfl
  have hrun : (restProcess .idle map paths next seq buffer tables written).run
      [.put (text "a") v, .rotate, .commit .ok] = σ.rotate.run [.commit .ok] := rfl
  have hstore : σ.store = ⟨map.insert (text "a") v, ⟨oneEntry (seq + 1) v, 57 + v.length⟩, none, paths,
      ⟨[], [], true, false, .waiting⟩, next,
      ⟨some 0, buffer ++ [recordBytes ⟨seq + 1, text "a", some v⟩], 0⟩, seq + 1, 5, true⟩ := by
    rw [← hmem]
    rfl
  have hdisk : σ.disk = ⟨none, some [], some (replaceSstables paths), tables⟩ := rfl
  have hwritten : σ.written = written ++ [(text "a", ⟨seq + 1, some v⟩)] := rfl
  rw [hrun, hrotate, KVStore.rotated, htask, hstore, hdisk, hwritten]
  simp only [Process.run, List.foldlM_cons, List.foldlM_nil, Process.step, Process.commit,
    if_neg hseq]
  rfl

/-- The worker writes the table, lists it and reports it. -/
lemma work_run (e : Entries) (hline : ∀ p ∈ paths, p ≠ [] ∧ newline ∉ p)
    (hnew : flushPath next ∉ paths) :
    (flushProcess ⟨[⟨flushPath next, e⟩], [], true, false, .waiting⟩ paths map paths (next + 1) seq
        buffer tables written).run [.work .ok, .work .ok, .work .ok, .work .ok, .work .ok] =
      some (flushProcess ⟨[], [flushPath next], true, false, .waiting⟩ (paths ++ [flushPath next]) map
        paths (next + 1) seq buffer (tables.insert (flushPath next) (sstableBytes e)) written) := by
  set task : FlushTask := ⟨flushPath next, e⟩ with htask
  set tables' := tables.insert (flushPath next) (sstableBytes e)
  have hload : flushPath next ∉ loadSstables (some (replaceSstables paths)) := by
    rwa [loadSstables_replaceSstables hline]
  have hlisted : replaceSstables (paths ++ [flushPath next]) =
      replaceSstables paths ++ manifestLine (flushPath next) := by simp [replaceSstables]
  have hwrite : (flushProcess ⟨[task], [], true, false, .waiting⟩ paths map paths (next + 1) seq buffer
      tables written).run [.work .ok, .work .ok, .work .ok] =
      some (flushProcess ⟨[], [], true, false, .loaded task (loadSstables (some (replaceSstables paths)))⟩
        paths map paths (next + 1) seq buffer tables' written) := rfl
  have happend : (flushProcess ⟨[], [], true, false,
      .loaded task (loadSstables (some (replaceSstables paths)))⟩ paths map paths (next + 1) seq buffer
      tables' written).run [.work .ok] =
      some (flushProcess ⟨[], [], true, false, .appended task⟩ (paths ++ [flushPath next]) map paths
        (next + 1) seq buffer tables' written) := by
    unfold flushProcess
    rw [hlisted]
    simp only [Process.run, List.foldlM_cons, List.foldlM_nil, Process.step, Process.work,
      FlushWorker.step, htask, if_neg hload]
    rfl
  exact Process.run_trans hwrite (Process.run_trans happend rfl)

/-- A read takes the report, and comes to the question whether to compact. -/
lemma drain_run (hnew : flushPath next ∉ paths) :
    (flushProcess ⟨[], [flushPath next], true, false, .waiting⟩ (paths ++ [flushPath next]) map paths
        (next + 1) seq buffer tables written).run [.getAt (text "a") 0, .drain, .drain] =
      some (restProcess (.compacting (text "a") 0) map (paths ++ [flushPath next]) (next + 1) seq buffer
        tables written) := by
  have hdrain : (flushProcess ⟨[], [flushPath next], true, false, .waiting⟩ (paths ++ [flushPath next])
      map paths (next + 1) seq buffer tables written).run [.getAt (text "a") 0, .drain] =
      some (restProcess (.draining (text "a") 0 true) map (paths ++ [flushPath next]) (next + 1) seq
        buffer tables written) := by
    simp only [Process.run, List.foldlM_cons, List.foldlM_nil, Process.step, Process.drain,
      KVStore.drainOne, FlushWorker.pollCompletion, flushProcess, Option.bind_eq_bind,
      Option.bind_some, Option.map_some, hnew, not_false_eq_true, decide_true, Bool.or_true]
    rfl
  exact Process.run_trans hdrain rfl

/-- **A whole flush.** -/
lemma flushCycle_run (hv : kMemTableFlushThresholdBytes ≤ v.length) (hseq : (seq + 1) % 5 ≠ 0)
    (hline : ∀ p ∈ paths, p ≠ [] ∧ newline ∉ p) (hnew : flushPath next ∉ paths) :
    (restProcess .idle map paths next seq buffer tables written).run (flushCycle v) =
      some (restProcess (.compacting (text "a") 0) (map.insert (text "a") v)
        (paths ++ [flushPath next]) (next + 1) (seq + 1)
        (buffer ++ [recordBytes ⟨seq + 1, text "a", some v⟩])
        (tables.insert (flushPath next) (sstableBytes (oneEntry (seq + 1) v)))
        (written ++ [(text "a", ⟨seq + 1, some v⟩)])) :=
  Process.run_trans (put_run map paths next seq buffer tables written hv hseq)
    (Process.run_trans (work_run _ paths next _ _ tables _ _ hline hnew)
      (drain_run _ paths next _ _ _ _ hnew))

/-- A flush with a read behind it, while there are few tables. -/
lemma flushRead_run (hv : kMemTableFlushThresholdBytes ≤ v.length) (hseq : (seq + 1) % 5 ≠ 0)
    (hline : ∀ p ∈ paths, p ≠ [] ∧ newline ∉ p) (hnew : flushPath next ∉ paths)
    (hlen : (paths ++ [flushPath next]).length < kCompactionTrigger) :
    (restProcess .idle map paths next seq buffer tables written).run
        (flushCycle v ++ [.compact .ok, .read]) =
      some (restProcess .idle (map.insert (text "a") v) (paths ++ [flushPath next]) (next + 1)
        (seq + 1) (buffer ++ [recordBytes ⟨seq + 1, text "a", some v⟩])
        (tables.insert (flushPath next) (sstableBytes (oneEntry (seq + 1) v)))
        (written ++ [(text "a", ⟨seq + 1, some v⟩)])) := by
  refine Process.run_trans (flushCycle_run map paths next seq buffer tables written hv hseq hline
    hnew) ?_
  set σ := restProcess (.compacting (text "a") 0) (map.insert (text "a") v)
    (paths ++ [flushPath next]) (next + 1) (seq + 1)
    (buffer ++ [recordBytes ⟨seq + 1, text "a", some v⟩])
    (tables.insert (flushPath next) (sstableBytes (oneEntry (seq + 1) v)))
    (written ++ [(text "a", ⟨seq + 1, some v⟩)])
  have hcompact : σ.compact (text "a") 0 .ok = { σ with pc := .reading (text "a") 0 } := if_pos hlen
  have hstep : σ.run [.compact .ok, .read] = (σ.compact (text "a") 0 .ok).run [.read] := rfl
  rw [hstep, hcompact]
  rfl

end Cycle

end VeriStore.Store

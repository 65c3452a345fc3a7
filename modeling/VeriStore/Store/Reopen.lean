import VeriStore.Store.Compaction
import VeriStore.Store.Rotation

/-!
What a process finds when it opens a store.

The memtable has the versions of the snapshot and then those of the log, the map has the newest of
each key, and the tables are those of the manifest, after a compaction. The tables answer only for
a key of which the memtable has no visible version.

* `start_contents`, `start_seq` — what is restored from the snapshot and the log;
* `start_getAt` — the answers of `get_at` with live tables in the manifest.
-/

namespace VeriStore.Store

open VeriStore.Lib VeriStore.Sstable VeriStore.Log

/-! ### The memtable -/

/-- The snapshot as `open` loads it. -/
def loadedSnapshot (d : Disk) : KVStore := (KVStore.new.loadFromFile d.snapshot).2

/-- **The store of a process that has opened the files**: the snapshot and the log, and the tables
after a compaction. -/
lemma start_eq (d : Disk) : ∃ good s' d',
    (((KVStore.recovered d good).listTables d.manifest).maybeCompactSstables
        { d with wal := some (d.wal.getD []), manifest := some (d.manifest.getD []) }
        KVStore.CompactIo.ok).2 = (s', d') ∧
      (Process.start d).store = { s' with
        flushWorker := s'.flushWorker.start
        nextSstableId := s'.sstablePaths.length } ∧
      (Process.start d).disk = d' := by
  obtain ⟨good, e⟩ := KVStore.open_new d .ok rfl rfl
  have hio : KVStore.OpenIo.ok.manifestOpen = true := rfl
  obtain ⟨s', d', hc, ho⟩ := (KVStore.recovered d good).openTables_true
    { d with wal := some (d.wal.getD []) } hio
  refine ⟨good, s', d', hc, ?_, ?_⟩
  · show (KVStore.new.open d .ok).2.1 = _
    rw [e, ho]
  · show (KVStore.new.open d .ok).2.2 = _
    rw [e, ho]

/-- What `open` restores before it looks at the tables. -/
lemma start_restored (d : Disk) : ∃ good,
    (Process.start d).store.map = (KVStore.recovered d good).map ∧
    (Process.start d).store.memtable = (KVStore.recovered d good).memtable ∧
    (Process.start d).store.seq = (KVStore.recovered d good).seq := by
  obtain ⟨good, e⟩ := KVStore.open_new d .ok rfl rfl
  obtain ⟨b, paths, n, w, m, t, hf⟩ := (KVStore.recovered d good).openTables_frame
    { d with wal := some (d.wal.getD []) } .ok
  have hstore : (Process.start d).store = (KVStore.new.open d .ok).2.1 := rfl
  rw [hstore, e, hf]
  exact ⟨good, rfl, rfl, rfl⟩

/-- The counter is the largest number in the log. -/
lemma start_seq (d : Disk) :
    (Process.start d).store.seq = KVStore.maxSeq (records (d.wal.getD [])) := by
  obtain ⟨good, -, -, h⟩ := start_restored d
  exact h

/-- **The snapshot and the log**: the versions of the log are added to those of the snapshot. -/
lemma start_contents {d : Disk} {rs : List Row}
    (h : Contents (loadedSnapshot d).map (loadedSnapshot d).memtable.entries rs) :
    Contents (Process.start d).store.map (Process.start d).store.memtable.entries
      (rs ++ (records (d.wal.getD [])).map recordRow) := by
  obtain ⟨good, h1, h2, -⟩ := start_restored d
  rw [h1, h2]
  exact h.applyRecords _

/-- Without a snapshot the log is everything. -/
lemma contents_of_no_snapshot {d : Disk} (h : d.snapshot = none) :
    Contents (loadedSnapshot d).map (loadedSnapshot d).memtable.entries [] := by
  unfold loadedSnapshot
  rw [h]
  exact .nil

/-! ### The answers -/

/-- A lookup in the memtable. -/
lemma Contents.getAt {map : Std.ExtTreeMap Bytes Bytes} {entries : Entries} {rs : List Row}
    (h : Contents map entries rs) (key : Bytes) (t : ℕ) : lookupEntries entries key t =
      ((lastVisible Version.timestamp (versionsIn rs key) t).map Version.result).getD .notFound := by
  rw [lookupEntries_eq_lastVisible, h.versionsOf_eq]

/-- Layers in which nothing is visible. -/
lemma firstHit_notFound {l : List LookupResult} (h : ∀ r ∈ l, r = .notFound) :
    KVStore.firstHit l = none := by
  induction l with
  | nil => rfl
  | cons r l ih =>
    obtain rfl := h r (by simp)
    exact ih fun x hx => h x (List.mem_cons_of_mem _ hx)

/-- **The answers after `open`**, with the tables `es` in the manifest: the last visible version
of the memtable, or what the tables answer. -/
theorem start_getAt {d : Disk} {es : List Entries} {rs : List Row}
    (h : LiveTables (loadSstables d.manifest) d es) (htemp : NoTemporary (loadSstables d.manifest))
    (hsingle : SingleTimestamps es)
    (hc : Contents (Process.start d).store.map (Process.start d).store.memtable.entries rs)
    (key : Bytes) (t : ℕ) (io : KVStore.CompactIo) :
    ((Process.start d).store.getAt (Process.start d).disk key t io).1 =
      KVStore.firstHit
        (((lastVisible Version.timestamp (versionsIn rs key) t).map Version.result).getD .notFound ::
          es.reverse.map fun e => newestResult (versionsOf e key) t) := by
  obtain ⟨good, s', d', hcompact, hstore, hdisk⟩ := start_eq d
  obtain ⟨m, tb, w, n, hr⟩ := KVStore.recovered_frame d good
  set s := (KVStore.recovered d good).listTables d.manifest with hs
  set d₁ : Disk := { d with wal := some (d.wal.getD []), manifest := some (d.manifest.getD []) }
  obtain ⟨paths, n', m', tb', hframe⟩ := s.maybeCompactSstables_frame d₁ KVStore.CompactIo.ok
  have hlive : LiveTables s.sstablePaths d₁ es := ⟨h.holds, h.rowOk, h.nodup, h.older⟩
  have hread := (compaction_transparent (s := s) hlive htemp hsingle KVStore.CompactIo.ok).1 key t
  rw [hcompact] at hread
  have hs' : s' = { s with sstablePaths := paths, nextSstableId := n' } := by
    rw [hcompact] at hframe
    exact (Prod.mk.inj hframe).1
  have himm : s.immutable = none := by
    rw [hs, hr]
    rfl
  have hcomp : s'.flushWorker.start.completions = [] := by
    rw [hs', hs, hr]
    rfl
  have hmem : s.memtable = (Process.start d).store.memtable := by
    rw [hstore, hs']
  rw [hstore, hdisk, KVStore.getAt_of_nil hcomp]
  refine Eq.trans (hread : s'.readAt d' key t = _) ?_
  rw [readAt_eq_newest hlive.holds hlive.rowOk, himm, hmem, MemTable.getAt, hc.getAt]
  rfl

/-- **The memtable answers alone** when the tables have no versions but its own. -/
lemma start_getAt_memtable {d : Disk} {es : List Entries} {rs : List Row}
    (h : LiveTables (loadSstables d.manifest) d es) (htemp : NoTemporary (loadSstables d.manifest))
    (hsingle : SingleTimestamps es)
    (hc : Contents (Process.start d).store.map (Process.start d).store.memtable.entries rs)
    (hsub : ∀ e ∈ es, ∀ r ∈ rows e, r ∈ rs) (key : Bytes) (t : ℕ) (io : KVStore.CompactIo) :
    ((Process.start d).store.getAt (Process.start d).disk key t io).1 =
      (lastVisible Version.timestamp (versionsIn rs key) t).bind Version.value := by
  rw [start_getAt h htemp hsingle hc]
  cases hl : lastVisible Version.timestamp (versionsIn rs key) t with
  | some v =>
    cases hv : v.value <;> simp [Version.result, hv, KVStore.firstHit]
  | none =>
    -- no version is visible in the memtable, and the tables have no others
    have hnone := lastVisible_eq_none_iff.mp hl
    refine firstHit_notFound (l := _ :: _) (List.forall_mem_cons.mpr ⟨rfl, fun r hr => ?_⟩)
    obtain ⟨e, he, rfl⟩ := List.mem_map.mp hr
    have hnew : newestVisible Version.timestamp (versionsOf e key) t = none :=
      newestVisible_eq_none_iff.mpr fun v hv => hnone v
        (mem_versionsIn.mpr (hsub e (List.mem_reverse.mp he) (key, v) (mem_rows.mpr hv)))
    rw [newestResult, hnew]
    rfl

end VeriStore.Store

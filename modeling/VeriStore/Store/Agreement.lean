import VeriStore.Store.Checkpoint
import VeriStore.Store.Newest

/-!
The latest-value map and the layers of versions.

`get` asks the map and `get_at` asks the layers. Of the calls that change a store `put` and `del`
change both, `ApplyPut`, `ApplyDel` and `load_snapshot` the map alone, and `load_from_file` replaces
the map and the memtable and leaves the tables and the outstanding flush as they are.

* `Overlays` — a memtable that can be put over the versions that have left the memtable;
* `reads_agree` — a session in which the calls meet `Mutator.Keeps`: the two reads agree;
* `applied_put_unseen` — after `ApplyPut` they do not.
-/

namespace VeriStore.Store

open VeriStore.Lib VeriStore.Sstable VeriStore.Log

/-! ### The memtable over the other versions -/

/-- The map has the last version of every key of the memtable, and nothing else. -/
def Mirrors (map : Std.ExtTreeMap Bytes Bytes) (mem : Entries) : Prop :=
  ∀ key : Bytes, map[key]? = (versionsOf mem key).getLast?.bind Version.value

lemma Contents.mirrors {map : Std.ExtTreeMap Bytes Bytes} {mem : Entries} {rs : List Row}
    (h : Contents map mem rs) : Mirrors map mem := fun key => by
  rw [h.versionsOf_eq, h.map]

/-- **A memtable that can be put over versions that were flushed**: its versions are well formed,
the last version of each key is the newest one, and a flushed key that it does not have is
deleted. -/
structure Overlays (flushed : List Row) (mem : Entries) : Prop where
  rowOk : ∀ r ∈ rows mem, RowOk r
  newest : ∀ r ∈ flushed ++ rows mem,
    Crowned Version.timestamp (versionsIn flushed r.1 ++ versionsOf mem r.1)
  covers : ∀ r ∈ flushed, versionsOf mem r.1 = [] →
    (versionsIn flushed r.1).getLast?.bind Version.value = none

section Overlays

variable {flushed : List Row} {mem : Entries}

lemma Overlays.crowned (h : Overlays flushed mem) (key : Bytes) :
    Crowned Version.timestamp (versionsIn flushed key ++ versionsOf mem key) := by
  intro v hv
  have hr : (key, v) ∈ flushed ++ rows mem := by
    rw [List.mem_append, ← mem_versionsIn, mem_rows]
    exact List.mem_append.mp hv
  exact h.newest (key, v) hr v hv

/-- **The last version** is one of the memtable, or there is none. -/
lemma Overlays.latest (h : Overlays flushed mem) {map : Std.ExtTreeMap Bytes Bytes}
    (hm : Mirrors map mem) (key : Bytes) :
    map[key]? = (versionsIn flushed key ++ versionsOf mem key).getLast?.bind Version.value := by
  rw [hm, List.getLast?_append]
  by_cases hmem : versionsOf mem key = []
  · rw [hmem]
    cases hv : versionsIn flushed key with
    | nil => simp
    | cons v vs =>
      have hr : (key, v) ∈ flushed := mem_versionsIn.mp (by simp [hv])
      have hnone := h.covers (key, v) hr hmem
      rw [hv] at hnone
      simpa using hnone.symm
  · obtain ⟨v, hv⟩ := Option.ne_none_iff_exists'.mp (mt List.getLast?_eq_none_iff.mp hmem)
    simp [hv]

/-- The places behind the memtable hold the versions that were flushed. -/
lemma Overlays.current (h : Overlays flushed mem) {map : Std.ExtTreeMap Bytes Bytes}
    (hm : Mirrors map mem) {es : List Entries} (hrow : ∀ e ∈ es, ∀ r ∈ rows e, RowOk r)
    (hf : ∀ key, versionsIn flushed key = es.flatMap fun e => versionsOf e key) (ws : List Row) :
    Current ws map (es ++ [mem]) := by
  have hall : ∀ key, ((es ++ [mem]).flatMap fun e => versionsOf e key) =
      versionsIn flushed key ++ versionsOf mem key := fun key => by
    rw [List.flatMap_append, List.flatMap_singleton, hf]
  refine ⟨fun e he => ?_, fun key => by rw [hall]; exact h.crowned key,
    fun key => by rw [hall]; exact h.latest hm key⟩
  rcases List.mem_append.mp he with he | he
  · exact hrow e he
  · rw [List.mem_singleton.mp he]
    exact h.rowOk

end Overlays

/-! ### The versions that were flushed -/

/-- The file of a table, read the way the compactor reads it. -/
lemma versionsIn_tableRows {d : Disk} {p : Bytes} {e : Entries} (h : HoldsEntries d p e)
    (hrow : ∀ r ∈ rows e, RowOk r) (key : Bytes) : versionsIn (tableRows d p) key = versionsOf e key := by
  have h : d.tables[p]? = some (sstableBytes e) := h
  rw [tableRows, h, loadSstable_sstableBytes hrow, Option.getD_some, versionsIn_rows,
    versionsOf_pushRows, versionsIn_rows, versionsOf_empty, List.nil_append]

lemma versionsIn_flatMap_tableRows {d : Disk} {paths : List Bytes} {tabs : List Entries}
    (h : List.Forall₂ (HoldsEntries d) paths tabs) (hrow : ∀ e ∈ tabs, ∀ r ∈ rows e, RowOk r)
    (key : Bytes) :
    versionsIn (paths.flatMap (tableRows d)) key = tabs.flatMap fun e => versionsOf e key := by
  induction h with
  | nil => rfl
  | @cons p e paths tabs hp _ ih =>
    rw [List.flatMap_cons, List.flatMap_cons, versionsIn_append,
      versionsIn_tableRows hp (hrow e (by simp)), ih fun x hx => hrow x (List.mem_cons_of_mem e hx)]

/-- The versions that have left the memtable: those of the tables and of the outstanding flush. -/
def Process.flushed (σ : Process) : List Row := σ.tabled ++ σ.outstanding

section Flushed

variable {σ : Process} {tabs : List Entries} {fl : Option FlushTask}

lemma Stacked.versionsIn_flushed (h : Stacked Current compactEntries σ tabs fl) (key : Bytes) :
    versionsIn σ.flushed key =
      (tabs ++ fl.toList.map FlushTask.entries).flatMap fun e => versionsOf e key := by
  have hrow : ∀ e ∈ tabs ++ fl.toList.map FlushTask.entries, ∀ r ∈ rows e, RowOk r := fun e he =>
    h.versions.rowOk e (List.mem_append_left _ he)
  have hout : versionsIn σ.outstanding key =
      (fl.toList.map FlushTask.entries).flatMap fun e => versionsOf e key := by
    unfold Process.outstanding FlushWorker.held
    cases h.flush with
    | idle h1 h2 h3 => simp [h1, h2, h3, versionsIn]
    | queued t h1 h2 h3 => simp [h1, h2, h3, versionsIn_rows]
    | popped t h1 h2 h3 => simp [h1, h2, h3, versionsIn_rows]
    | written t h1 h2 h3 h4 =>
      rcases h2 with h2 | ⟨existing, h2⟩ | h2 <;> simp [h1, h2, h3, versionsIn_rows]
    | completed t h1 h2 h3 h4 => simp [h1, h2, h3, versionsIn_tableRows h4 (hrow _ (by simp))]
  rw [Process.flushed, versionsIn_append, hout, List.flatMap_append, Process.tabled,
    versionsIn_flatMap_tableRows h.tables fun e he => hrow e (List.mem_append_left _ he)]

/-- **A memtable is put over the places.** -/
lemma Stacked.overlay (h : Stacked Current compactEntries σ tabs fl)
    {map : Std.ExtTreeMap Bytes Bytes} {mem : MemTable} {seq : ℕ} (hpc : σ.pc = .idle)
    (hm : Mirrors map mem.entries) (ho : Overlays σ.flushed mem.entries) (hseq : σ.store.seq ≤ seq)
    (hle : ∀ r ∈ rows mem.entries, r.2.timestamp ≤ seq) :
    Stacked Current compactEntries
      { σ with store := { σ.store with map := map, memtable := mem, seq := seq } } tabs fl := by
  refine ⟨h.started, h.running, h.flush, h.immutable, h.tables, h.nodup, h.named, ?_, ?_, ?_⟩
  · intro e he r hr
    rcases List.mem_append.mp he with he | he
    · exact (h.le_seq e (List.mem_append_left _ he) r hr).trans hseq
    · rw [List.mem_singleton.mp he] at hr
      exact hle r hr
  · exact ho.current hm (fun e he => h.versions.rowOk e (List.mem_append_left _ he))
      h.versionsIn_flushed σ.written
  · simp [PcAt, hpc]

/-- A map with the same answers. -/
lemma Stacked.map (h : Stacked Current compactEntries σ tabs fl) {map : Std.ExtTreeMap Bytes Bytes}
    (hmap : ∀ key : Bytes, map[key]? = σ.store.get key) :
    Stacked Current compactEntries { σ with store := { σ.store with map := map } } tabs fl :=
  { h with
    versions := ⟨h.versions.rowOk, h.versions.crowned, fun key =>
      (hmap key).trans (h.versions.map key)⟩ }

end Flushed

/-! ### Loading a file -/

/-- **What `load_from_file` makes of a file**: the map mirrors the memtable, and the counter is not
behind. -/
lemma loadFromFile_some (s : KVStore) (content : Bytes) : ∃ map mem seq,
    (s.loadFromFile (some content)).2 = { s with map := map, memtable := mem, seq := seq } ∧
      Mirrors map mem.entries ∧ s.seq ≤ seq ∧
      ∀ r ∈ rows mem.entries, r.2.timestamp ≤ seq := by
  obtain ⟨-, hc, -, hseq⟩ := loadFromFile_rows s content
  obtain ⟨h1, h2⟩ := le_newestTimestamp s.seq (rowsBefore (lines content))
  obtain ⟨map, mem, seq, hload⟩ := s.loadFromFile_frame (some content)
  rw [hload] at hc hseq
  rw [← hseq] at h1 h2
  refine ⟨map, mem, seq, hload, hc.mirrors, h1, fun r hr => h2 r ?_⟩
  rwa [hc.entries, mem_rows_pushRows] at hr

/-! ### The start of a session -/

/-- At the start nothing is flushed. -/
lemma start_worker (d : Disk) : (Process.start d).store.flushWorker = FlushWorker.new.start ∧
    (Process.start d).store.immutable = none := by
  obtain ⟨good, s', d', hc, hs, -⟩ := start_eq d
  obtain ⟨m, t, w, n, hr⟩ := KVStore.recovered_frame d good
  obtain ⟨paths, n', m', tb, hf⟩ := ((KVStore.recovered d good).listTables
    d.manifest).maybeCompactSstables_frame { d with
      wal := some (d.wal.getD [])
      manifest := some (d.manifest.getD []) } KVStore.CompactIo.ok
  rw [hf] at hc
  obtain ⟨rfl, -⟩ := Prod.mk.inj hc
  rw [hs]
  simp only [KVStore.listTables, hr]
  exact ⟨rfl, rfl⟩

/-- **The map mirrors the memtable** of a store that has been opened, on any files. -/
lemma start_mirrors (d : Disk) :
    Mirrors (Process.start d).store.map (Process.start d).store.memtable.entries := by
  obtain ⟨rs, hrs⟩ : ∃ rs, Contents (loadedSnapshot d).map (loadedSnapshot d).memtable.entries rs := by
    cases hsnap : d.snapshot with
    | none => exact ⟨[], contents_of_no_snapshot hsnap⟩
    | some content =>
      obtain ⟨-, hc, -⟩ := loadFromFile_rows KVStore.new content
      exact ⟨rowsBefore (lines content), by rw [loadedSnapshot, hsnap]; exact hc⟩
  exact (start_contents hrs).mirrors

/-- **The tables and the memtable of an open store are in order.** -/
structure Orderly (σ : Process) (tabs : List Entries) : Prop where
  tables : List.Forall₂ (HoldsEntries σ.disk) σ.store.sstablePaths tabs
  rowOk : ∀ e ∈ tabs, ∀ r ∈ rows e, RowOk r
  nodup : σ.store.sstablePaths.Nodup
  named : ∀ p ∈ σ.store.sstablePaths, TablePath σ.store.nextSstableId p
  le_seq : ∀ r ∈ σ.tabled ++ rows σ.store.memtable.entries, r.2.timestamp ≤ σ.store.seq
  overlays : Overlays σ.tabled σ.store.memtable.entries

/-- **The places at the start.** -/
lemma Orderly.stacked {d : Disk} {tabs : List Entries} (h : Orderly (Process.start d) tabs) :
    Stacked Current compactEntries (Process.start d) tabs none := by
  obtain ⟨hworker, himm⟩ := start_worker d
  have hmirror := start_mirrors d
  set σ : Process := Process.start d
  have htabled : ∀ key, versionsIn σ.tabled key = tabs.flatMap fun e => versionsOf e key :=
    versionsIn_flatMap_tableRows h.tables h.rowOk
  have hparts : parts tabs none σ.store.memtable.entries = tabs ++ [σ.store.memtable.entries] := by
    simp [parts]
  constructor
  case started =>
    rw [hworker]
    rfl
  case running =>
    rw [hworker]
    rfl
  case flush =>
    rw [hworker]
    exact .idle rfl rfl rfl
  case immutable => exact himm
  case tables => exact h.tables
  case nodup => simpa [pathsWith] using h.nodup
  case named => simpa [pathsWith] using h.named
  case le_seq =>
    rw [hparts]
    rintro e he ⟨key, v⟩ hr
    refine h.le_seq (key, v) (List.mem_append.mpr ?_)
    rcases List.mem_append.mp he with he | he
    · rw [← mem_versionsIn, htabled]
      exact Or.inl (List.mem_flatMap.mpr ⟨e, he, mem_rows.mp hr⟩)
    · exact Or.inr (List.mem_singleton.mp he ▸ hr)
  case versions =>
    rw [hparts]
    exact h.overlays.current hmirror h.rowOk htabled σ.written
  case pc => trivial

/-! ### Sessions -/

/-- What changes an open store: a step of the process, or a call that bypasses the log. -/
inductive Mutator where
  | own (a : Action)
  | applyPut (key value : Bytes)
  | applyDel (key : Bytes)
  | loadFromFile (file : Option Bytes)
  | loadSnapshot (file : Option Bytes)

namespace Process

/-- **One step of a session**; the calls wait for the one in progress. -/
def mutate (σ : Process) (m : Mutator) : Option Process :=
  match m, σ.pc with
  | .own a, _ => σ.step a
  | .applyPut key value, .idle => some { σ with store := σ.store.applyPut key value }
  | .applyDel key, .idle => some { σ with store := σ.store.applyDel key }
  | .loadFromFile file, .idle => some { σ with store := (σ.store.loadFromFile file).2 }
  | .loadSnapshot file, .idle => some { σ with store := (σ.store.loadSnapshot file).2 }
  | _, _ => none

/-- A session. -/
def mutations (σ : Process) (ms : List Mutator) : Option Process := ms.foldlM mutate σ

/-- **The transitions of a session.** -/
inductive Mutation (σ : Process) : Mutator → Process → Prop
  | own (a : Action) (σ' : Process) (h : σ.Effect a σ') : Mutation σ (.own a) σ'
  | applyPut (key value : Bytes) (h : σ.pc = .idle) :
      Mutation σ (.applyPut key value) { σ with store := σ.store.applyPut key value }
  | applyDel (key : Bytes) (h : σ.pc = .idle) :
      Mutation σ (.applyDel key) { σ with store := σ.store.applyDel key }
  | loadFromFile (file : Option Bytes) (h : σ.pc = .idle) :
      Mutation σ (.loadFromFile file) { σ with store := (σ.store.loadFromFile file).2 }
  | loadSnapshot (file : Option Bytes) (h : σ.pc = .idle) :
      Mutation σ (.loadSnapshot file) { σ with store := (σ.store.loadSnapshot file).2 }

theorem mutate_mutation {σ σ' : Process} {m : Mutator} (h : σ.mutate m = some σ') :
    Mutation σ m σ' := by
  unfold mutate at h
  split at h
  · exact .own _ _ (step_effect h)
  · next hpc =>
    obtain rfl := Option.some.inj h
    exact .applyPut _ _ hpc
  · next hpc =>
    obtain rfl := Option.some.inj h
    exact .applyDel _ hpc
  · next hpc =>
    obtain rfl := Option.some.inj h
    exact .loadFromFile _ hpc
  · next hpc =>
    obtain rfl := Option.some.inj h
    exact .loadSnapshot _ hpc
  · cases h

end Process

/-- **The mutators that keep the reads in agreement.** -/
def Mutator.Keeps (σ : Process) : Mutator → Prop
  | .own a => a.works = true ∧ a.Plain ∧ σ.store.seq + 1 < 2 ^ 64
  | .applyPut key value => σ.store.get key = some value
  | .applyDel key => σ.store.get key = none
  | .loadFromFile none | .loadSnapshot none => True
  | .loadFromFile (some content) =>
    Overlays σ.flushed (σ.store.loadFromFile (some content)).2.memtable.entries
  | .loadSnapshot (some content) => KVStore.loadPairs content.length content ∅ = σ.store.map

instance (r : Row) : Decidable (RowOk r) :=
  decidable_of_iff (Word r.1 ∧ r.2.timestamp < 2 ^ 64 ∧ ∀ x ∈ r.2.value, Clean x)
    ⟨fun ⟨h1, h2, h3⟩ => ⟨h1, h2, h3⟩, fun ⟨h1, h2, h3⟩ => ⟨h1, h2, h3⟩⟩

instance (flushed : List Row) (mem : Entries) : Decidable (Overlays flushed mem) :=
  have (vs : List Version) : Decidable (Crowned Version.timestamp vs) :=
    inferInstanceAs (Decidable (∀ v ∈ vs, ∀ w ∈ vs.getLast?, v = w ∨ v.timestamp < w.timestamp))
  decidable_of_iff ((∀ r ∈ rows mem, RowOk r) ∧
      (∀ r ∈ flushed ++ rows mem,
        Crowned Version.timestamp (versionsIn flushed r.1 ++ versionsOf mem r.1)) ∧
      ∀ r ∈ flushed, versionsOf mem r.1 = [] →
        (versionsIn flushed r.1).getLast?.bind Version.value = none)
    ⟨fun ⟨h1, h2, h3⟩ => ⟨h1, h2, h3⟩, fun ⟨h1, h2, h3⟩ => ⟨h1, h2, h3⟩⟩

instance (σ : Process) : (m : Mutator) → Decidable (m.Keeps σ)
  | .own _ => inferInstanceAs (Decidable (_ ∧ _ ∧ _))
  | .applyPut _ _ | .applyDel _ => inferInstanceAs (Decidable (_ = _))
  | .loadFromFile none | .loadSnapshot none => isTrue trivial
  | .loadFromFile (some _) => inferInstanceAs (Decidable (Overlays _ _))
  | .loadSnapshot (some _) => inferInstanceAs (Decidable (_ = _))

/-- Every mutator of the session is one that keeps the agreement. -/
def AllKeep : Process → List Mutator → Prop
  | _, [] => True
  | σ, m :: ms => m.Keeps σ ∧
    match σ.mutate m with
    | some σ' => AllKeep σ' ms
    | none => True

instance : (σ : Process) → (ms : List Mutator) → Decidable (AllKeep σ ms)
  | _, [] => isTrue trivial
  | σ, m :: ms =>
    have : Decidable (match σ.mutate m with
        | some σ' => AllKeep σ' ms
        | none => True) :=
      match σ.mutate m with
      | some σ' => instDecidableAllKeep σ' ms
      | none => isTrue trivial
    inferInstanceAs (Decidable (_ ∧ _))

/-! ### The invariant -/

/-- The places are in order, and the map has the newest versions. -/
def Coherent (σ : Process) : Prop := ∃ tabs fl, Stacked Current compactEntries σ tabs fl

/-- **A step of the process keeps the agreement.** -/
lemma Coherent.effect {σ σ' : Process} {a : Action} (h : Coherent σ) (ha : a.works = true)
    (hp : a.Plain) (hlt : σ.store.seq + 1 < 2 ^ 64) (he : σ.Effect a σ') : Coherent σ' := by
  obtain ⟨tabs, fl, hl⟩ := h
  refine hl.effect stacking_current ha hp ?_ he
  rcases he.write_or with ⟨key, value, -, rfl, -⟩ | ⟨-, hs, -⟩
  · have := σ.write_seq key value
    omega
  · omega

/-- **Each mutator that meets its condition keeps the agreement.** -/
theorem Coherent.mutation {σ σ' : Process} {m : Mutator} (h : Coherent σ) (hk : m.Keeps σ)
    (hm : σ.Mutation m σ') : Coherent σ' := by
  cases hm with
  | own a _ he => exact h.effect hk.1 hk.2.1 hk.2.2 he
  | applyPut key value hpc =>
    obtain ⟨tabs, fl, hl⟩ := h
    have hv : σ.store.get key = some value := hk
    refine ⟨tabs, fl, hl.map fun k => ?_⟩
    rw [Std.ExtTreeMap.getElem?_insert]
    split
    · next hkey => rw [← hv, Std.LawfulEqCmp.eq_of_compare hkey]
    · rfl
  | applyDel key hpc =>
    obtain ⟨tabs, fl, hl⟩ := h
    have hv : σ.store.get key = none := hk
    refine ⟨tabs, fl, hl.map fun k => ?_⟩
    rw [Std.ExtTreeMap.getElem?_erase]
    split
    · next hkey => rw [← hv, Std.LawfulEqCmp.eq_of_compare hkey]
    · rfl
  | loadFromFile file hpc =>
    cases file with
    | none => exact h
    | some content =>
      obtain ⟨tabs, fl, hl⟩ := h
      have ho : Overlays σ.flushed (σ.store.loadFromFile (some content)).2.memtable.entries := hk
      obtain ⟨map, mem, seq, hs, hmirror, hseq, hle⟩ := loadFromFile_some σ.store content
      rw [hs] at ho ⊢
      exact ⟨tabs, fl, hl.overlay hpc hmirror ho hseq hle⟩
  | loadSnapshot file hpc =>
    cases file with
    | none => exact h
    | some content =>
      obtain ⟨tabs, fl, hl⟩ := h
      have hmap : KVStore.loadPairs content.length content ∅ = σ.store.map := hk
      exact ⟨tabs, fl, hl.map fun k => congrArg (fun m : Std.ExtTreeMap Bytes Bytes => m[k]?) hmap⟩

/-- **The agreement along a session.** -/
theorem Coherent.mutations {ms : List Mutator} {σ σ' : Process} (h : Coherent σ)
    (hkeep : AllKeep σ ms) (hrun : σ.mutations ms = some σ') : Coherent σ' := by
  induction ms generalizing σ with
  | nil =>
    obtain rfl := Option.some.inj hrun
    exact h
  | cons m ms ih =>
    rw [Process.mutations, List.foldlM_cons] at hrun
    obtain ⟨σ₁, h1, h2⟩ := Option.bind_eq_some_iff.mp hrun
    have hrest := hkeep.2
    rw [h1] at hrest
    exact ih (h.mutation hkeep.1 (Process.mutate_mutation h1)) hrest h2

/-! ### The main result -/

/-- **The two reads agree** in every session of a store that was opened with its tables and its
memtable in order, as long as no task of the worker is outstanding, when each mutator keeps them
in agreement: `put` and `del` of keys that are words and of values that fit on a line and do not
begin with white space, while the counter has not run through its 64 bits and the worker does its
work; `ApplyPut`, `ApplyDel` and `load_snapshot` that change no answer; and `load_from_file` of
versions that can be put over those that were flushed. -/
theorem reads_agree {d : Disk} {tabs : List Entries} (hd : Orderly (Process.start d) tabs)
    {ms : List Mutator} {σ : Process} (hkeep : AllKeep (Process.start d) ms)
    (hrun : (Process.start d).mutations ms = some σ) (hheld : σ.store.flushWorker.held = [])
    (key : Bytes) (io : KVStore.CompactIo) :
    (σ.store.getAt σ.disk key (2 ^ 64 - 1) io).1 = σ.store.get key := by
  have h : Coherent (Process.start d) := ⟨tabs, none, hd.stacked⟩
  obtain ⟨tabs', fl, h'⟩ := h.mutations hkeep hrun
  exact h'.getAt_eq hheld (by norm_num) key io

/-- A store that is opened on no files is in order. -/
lemma orderly_empty : Orderly (Process.start Disk.empty) [] := by
  have hpaths : (Process.start Disk.empty).store.sstablePaths = [] := rfl
  have hmem : rows (Process.start Disk.empty).store.memtable.entries = [] := by decide +kernel
  have htabled : (Process.start Disk.empty).tabled = [] := rfl
  refine ⟨.nil, by simp, by simp [hpaths], by simp [hpaths], by simp [hmem, htabled], ?_⟩
  exact ⟨by simp [hmem], by simp [hmem, htabled], by simp [htabled]⟩

/-- A session with every mutator: the calls that bypass the log repeat what the store has. -/
def agreeing : List Mutator :=
  [.own (.put (text "a") (text "1")), .own .rotate, .own (.commit .ok),
    .applyPut (text "a") (text "1"), .applyDel (text "b"), .loadSnapshot (some (text "a 1\n")),
    .loadFromFile (some (text "a\t1\tP\t1\nb\t7\tP\t2\n")), .own (.del (text "a")),
    .own .rotate, .own (.commit .ok), .loadFromFile none, .loadSnapshot none]

/-- The key that was loaded is read, and the one that was deleted is not. -/
theorem reads_agree_loaded : ∃ σ, (Process.start Disk.empty).mutations agreeing = some σ ∧
    (σ.store.getAt σ.disk (text "a") (2 ^ 64 - 1) .ok).1 = none ∧
    (σ.store.getAt σ.disk (text "b") (2 ^ 64 - 1) .ok).1 = some (text "2") := by
  have hkeep : AllKeep (Process.start Disk.empty) agreeing := by decide +kernel
  have h : ((Process.start Disk.empty).mutations agreeing).map (fun σ =>
      (decide σ.store.flushWorker.Idle, σ.store.get (text "a"), σ.store.get (text "b"))) =
      some (true, none, some (text "2")) := by
    decide +kernel
  obtain ⟨σ, hrun, hσ⟩ := Option.map_eq_some_iff.mp h
  simp only [Prod.mk.injEq, decide_eq_true_eq] at hσ
  obtain ⟨hidle, ha, hb⟩ := hσ
  refine ⟨σ, hrun, ?_, ?_⟩
  · rw [reads_agree orderly_empty hkeep hrun hidle.1, ha]
  · rw [reads_agree orderly_empty hkeep hrun hidle.1, hb]

/-- **A key that `ApplyPut` writes** is found by `get` and not by `get_at`. -/
theorem applied_put_unseen : ∃ σ,
    (Process.start Disk.empty).mutations [.applyPut (text "a") (text "1")] = some σ ∧
    σ.store.flushWorker.Idle ∧ σ.store.get (text "a") = some (text "1") ∧
    (σ.store.getAt σ.disk (text "a") (2 ^ 64 - 1) .ok).1 = none := by
  refine ⟨_, rfl, ?_, ?_, ?_⟩ <;> decide +kernel

end VeriStore.Store

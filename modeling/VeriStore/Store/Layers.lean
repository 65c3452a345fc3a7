import VeriStore.Store.Cycle

/-!
Where the versions of a session are.

Every version written is in one of three places: a table of `sstablePaths`, the flush that the
worker has not handed back yet, or the memtable. The invariant `Layers` says this for the entries
of each place, which are ordered by their timestamps from the first table to the memtable. A
rotation starts a flush, a completion turns it into the last table, and a compaction merges the
first two tables; none of them changes the versions of a key taken together.

* `run_layers` — the invariant holds in every run from empty files;
* `lsm_layers` — placement, order and the answers of `get_at`.
-/

namespace VeriStore.Store

open VeriStore.Lib VeriStore.Sstable VeriStore.Log

open KVStore (CompactJob)

/-! ### The invariant -/

/-- A compaction of the first two tables whose output is in `file`. -/
def JobOk (σ : Process) (tabs : List Entries) (j : CompactJob) (file : Bytes) : Prop :=
  ∃ a b rest paths, tabs = a :: b :: rest ∧
    σ.store.sstablePaths = j.first :: j.second :: paths ∧ j.updatedPaths = j.output :: paths ∧
    TablePath σ.store.nextSstableId j.output ∧ j.output ∉ σ.store.sstablePaths ∧
    HoldsEntries σ.disk file (mergeEntries a b)

/-- What is known inside a call: no flush is outstanding when tables are compacted. -/
def PcOk (σ : Process) (tabs : List Entries) (fl : Option FlushTask) : Prop :=
  match σ.pc with
  | .draining _ _ true => fl = none
  | .compacting _ _ => fl = none
  | .merged _ _ j => fl = none ∧ JobOk σ tabs j j.tempOutput
  | .renamed _ _ j => fl = none ∧ JobOk σ tabs j j.output
  | .replaced _ _ j => fl = none ∧ JobOk σ tabs j j.output
  | _ => True

/-- **The layers of a store**: the entries `tabs` of its tables and the outstanding flush `fl`. -/
structure Layers (σ : Process) (tabs : List Entries) (fl : Option FlushTask) : Prop where
  started : σ.store.flushWorker.started = true
  running : σ.store.flushWorker.stopping = false
  flush : FlushAt σ.store.flushWorker σ.disk fl
  immutable : σ.store.immutable = fl.map fun _ => ∅
  tables : List.Forall₂ (HoldsEntries σ.disk) σ.store.sstablePaths tabs
  nodup : (pathsWith σ.store.sstablePaths fl).Nodup
  named : ∀ p ∈ pathsWith σ.store.sstablePaths fl, TablePath σ.store.nextSstableId p
  ok : ∀ e ∈ parts tabs fl σ.store.memtable.entries, EntriesOk e
  ordered : (parts tabs fl σ.store.memtable.entries).Pairwise Before
  content : ∀ key, versionsIn σ.written key =
    (parts tabs fl σ.store.memtable.entries).flatMap fun e => versionsOf e key
  le_seq : ∀ r ∈ σ.written, r.2.timestamp ≤ σ.store.seq
  ascending : Ascending (fun r : Row => r.2.timestamp) σ.written
  pc : PcOk σ tabs fl

section Steps

variable {σ : Process} {tabs : List Entries} {fl : Option FlushTask}

/-- A version in a layer has been written. -/
lemma Layers.mem_written (h : Layers σ tabs fl) {e : Entries}
    (he : e ∈ parts tabs fl σ.store.memtable.entries) {r : Row} (hr : r ∈ rows e) :
    r ∈ σ.written := by
  obtain ⟨key, v⟩ := r
  rw [← mem_versionsIn, h.content, List.mem_flatMap]
  exact ⟨e, he, mem_rows.mp hr⟩

/-! ### The order of the versions -/

lemma entriesOk_empty : EntriesOk ∅ := by
  have hnil : rows (∅ : Entries) = [] := by simp [rows]
  exact ⟨noEmpty_empty, by simp [hnil], fun key => by simp [versionsOf, Ascending]⟩

lemma before_empty (e : Entries) : Before e ∅ := by
  intro r _ r' hr'
  simp [rows] at hr'

lemma before_mergeEntries {a b e : Entries} : Before (mergeEntries a b) e ↔ Before a e ∧ Before b e := by
  constructor
  · exact fun h => ⟨fun r hr => h r (mem_rows_mergeEntries.mpr (Or.inl hr)),
      fun r hr => h r (mem_rows_mergeEntries.mpr (Or.inr hr))⟩
  · rintro ⟨ha, hb⟩ r hr
    rcases mem_rows_mergeEntries.mp hr with hr | hr
    · exact ha r hr
    · exact hb r hr

/-- **The versions of the list are in the places**, in the order of their timestamps. -/
structure InOrder (ws : List Row) (_ : Std.ExtTreeMap Bytes Bytes) (es : List Entries) : Prop where
  ok : ∀ e ∈ es, EntriesOk e
  ordered : es.Pairwise Before
  content : ∀ key, versionsIn ws key = es.flatMap fun e => versionsOf e key
  ascending : Ascending (fun r : Row => r.2.timestamp) ws

lemma InOrder.mem {ws : List Row} {map : Std.ExtTreeMap Bytes Bytes} {es : List Entries}
    (h : InOrder ws map es) {r : Row} : r ∈ ws ↔ ∃ e ∈ es, r ∈ rows e := by
  obtain ⟨key, v⟩ := r
  rw [← mem_versionsIn, h.content, List.mem_flatMap]
  simp only [mem_rows]

lemma versionsIn_singleton (key k : Bytes) (v : Version) :
    versionsIn [(key, v)] k = if key = k then [v] else [] := by
  by_cases hk : key = k
  · simp [versionsIn, hk]
  · simp [versionsIn, hk]

/-- One more version, newer than all others, in a memtable. -/
lemma entriesOk_push {mem : Entries} (h : EntriesOk mem) {key : Bytes} {v : Version}
    (hr : RowOk (key, v)) (hv : ∀ r ∈ rows mem, r.2.timestamp < v.timestamp) :
    EntriesOk (pushVersion mem key v) := by
  refine ⟨h.noEmpty.pushVersion key v, fun r hr' => ?_, fun k => ?_⟩
  · rcases mem_rows_pushVersion.mp hr' with hr' | rfl
    · exact h.rowOk r hr'
    · exact hr
  · rw [versionsOf_pushVersion]
    split
    · refine List.pairwise_append.mpr ⟨h.ordered key, by simp, fun x hx y hy => ?_⟩
      rw [List.mem_singleton.mp hy]
      exact hv (key, x) (mem_rows.mpr hx)
    · exact h.ordered k

/-- **A new version** is newer than all others and goes to the memtable. -/
lemma InOrder.push {ws : List Row} {map map' : Std.ExtTreeMap Bytes Bytes} {es : List Entries}
    {mem : Entries} {key : Bytes} {v : Version} (h : InOrder ws map (es ++ [mem]))
    (hr : RowOk (key, v)) (hv : ∀ e ∈ es ++ [mem], ∀ r ∈ rows e, r.2.timestamp < v.timestamp) :
    InOrder (ws ++ [(key, v)]) map' (es ++ [pushVersion mem key v]) := by
  obtain ⟨hes, -, hmem⟩ := List.pairwise_append.mp h.ordered
  constructor
  case ok =>
    intro e he
    rcases List.mem_append.mp he with he | he
    · exact h.ok e (List.mem_append_left _ he)
    · rw [List.mem_singleton.mp he]
      exact entriesOk_push (h.ok mem (by simp)) hr (hv mem (by simp))
  case ordered =>
    refine List.pairwise_append.mpr ⟨hes, by simp, fun e he e' he' => ?_⟩
    rw [List.mem_singleton.mp he']
    intro r hr r' hr'
    rcases mem_rows_pushVersion.mp hr' with hr' | rfl
    · exact hmem e he mem (by simp) r hr r' hr'
    · exact hv e (List.mem_append_left _ he) r hr
  case content =>
    intro k
    have hc := h.content k
    simp only [List.flatMap_append, List.flatMap_singleton] at hc ⊢
    rw [versionsIn_append, hc, versionsIn_singleton, versionsOf_pushVersion]
    by_cases hk : key = k
    · simp [hk]
    · simp [hk]
  case ascending =>
    refine List.pairwise_append.mpr ⟨h.ascending, by simp, fun r hr r' hr' => ?_⟩
    obtain ⟨e, he, hre⟩ := h.mem.mp hr
    rw [List.mem_singleton.mp hr']
    exact hv e he r hre

/-- An empty memtable. -/
lemma InOrder.fresh {ws : List Row} {map : Std.ExtTreeMap Bytes Bytes} {es : List Entries}
    (h : InOrder ws map es) : InOrder ws map (es ++ [∅]) where
  ok e he := by
    rcases List.mem_append.mp he with he | he
    · exact h.ok e he
    · rw [List.mem_singleton.mp he]
      exact entriesOk_empty
  ordered := by
    refine List.pairwise_append.mpr ⟨h.ordered, by simp, fun e _ e' he' => ?_⟩
    rw [List.mem_singleton.mp he']
    exact before_empty e
  content key := by
    rw [h.content, List.flatMap_append]
    simp [versionsOf]
  ascending := h.ascending

/-- **A merge** of the first two tables. -/
lemma InOrder.merged {ws : List Row} {map : Std.ExtTreeMap Bytes Bytes} {a b : Entries}
    {es : List Entries} (h : InOrder ws map (a :: b :: es)) :
    compact [some (sstableBytes a), some (sstableBytes b)] = some (sstableBytes (mergeEntries a b)) ∧
      InOrder ws map (mergeEntries a b :: es) := by
  obtain ⟨ha, hbes⟩ := List.pairwise_cons.mp h.ordered
  obtain ⟨hb, hes⟩ := List.pairwise_cons.mp hbes
  have hab : Before a b := ha b (by simp)
  have hok := (h.ok a (by simp)).merge (h.ok b (by simp)) hab
  refine ⟨compact_bytes (h.ok a (by simp)) (h.ok b (by simp)) hab, ?_, ?_, ?_, h.ascending⟩
  · exact List.forall_mem_cons.mpr ⟨hok, fun e he => h.ok e (by simp [he])⟩
  · refine List.pairwise_cons.mpr ⟨fun e he => ?_, hes⟩
    exact before_mergeEntries.mpr ⟨ha e (List.mem_cons_of_mem b he), hb e he⟩
  · intro key
    rw [h.content]
    simp [versionsOf_mergeEntries]

theorem stacking_inOrder : Stacking InOrder mergeEntries :=
  ⟨InOrder.fresh, InOrder.push, InOrder.merged, mem_rows_mergeEntries.mp⟩

/-- **The layers are places** whose versions are in order. -/
lemma layers_iff_stacked : Layers σ tabs fl ↔ Stacked InOrder mergeEntries σ tabs fl := by
  constructor
  · intro h
    exact ⟨h.started, h.running, h.flush, h.immutable, h.tables, h.nodup, h.named,
      fun e he r hr => h.le_seq r (h.mem_written he hr),
      ⟨h.ok, h.ordered, h.content, h.ascending⟩, h.pc⟩
  · intro h
    have hv := h.versions
    refine ⟨h.started, h.running, h.flush, h.immutable, h.tables, h.nodup, h.named, hv.ok,
      hv.ordered, hv.content, fun r hr => ?_, hv.ascending, h.pc⟩
    obtain ⟨e, he, hre⟩ := hv.mem.mp hr
    exact h.le_seq e he r hre

/-- The file of the outstanding flush is not one of the tables. -/
lemma Layers.path_new {f : FlushTask} (h : Layers σ tabs (some f)) :
    f.sstablePath ∉ σ.store.sstablePaths := (layers_iff_stacked.mp h).path_new

/-- **A step of the worker** moves the outstanding flush on. -/
lemma Layers.work (h : Layers σ tabs fl) {σ' : Process} (hw : σ.work .ok = some σ') :
    Layers σ' tabs fl := layers_iff_stacked.mpr ((layers_iff_stacked.mp h).work hw)

/-! ### Runs -/

lemma Action.works_of_succeeds {a : Action} (h : a.succeeds = true) : a.works = true := by
  cases a with
  | work io =>
    cases io with
    | ok => rfl
    | refused => simp [Action.succeeds] at h
    | short n => simp [Action.succeeds] at h
  | _ => rfl

/-- **Every step keeps the layers.** -/
theorem Layers.effect (h : Layers σ tabs fl) {a : Action} {σ' : Process} (ha : a.succeeds = true)
    (hp : a.Plain) (hlt : σ'.store.seq < 2 ^ 64) (he : σ.Effect a σ') :
    ∃ tabs' fl', Layers σ' tabs' fl' := by
  obtain ⟨tabs', fl', h'⟩ := (layers_iff_stacked.mp h).effect stacking_inOrder
    (Action.works_of_succeeds ha) hp hlt he
  exact ⟨tabs', fl', layers_iff_stacked.mpr h'⟩

lemma start_layers : Layers (Process.start Disk.empty) [] none := by
  have hpaths : (Process.start Disk.empty).store.sstablePaths = [] := rfl
  have hmem : (Process.start Disk.empty).store.memtable.entries = ∅ := rfl
  refine ⟨rfl, rfl, .idle rfl rfl rfl, rfl, .nil, .nil, ?_, ?_, ?_, ?_, ?_, .nil, trivial⟩
  · simp [pathsWith, hpaths]
  · rw [hmem]
    intro e he
    obtain rfl : e = ∅ := by simpa [parts] using he
    exact entriesOk_empty
  · simp [parts]
  · intro key
    have hw : (Process.start Disk.empty).written = [] := rfl
    rw [hmem, hw]
    simp [parts, versionsIn, versionsOf]
  · simp [Process.start, Process.launch]

/-- **The layers of every run from empty files.** -/
theorem run_layers {as : List Action} {σ : Process}
    (hrun : (Process.start Disk.empty).run as = some σ) (ha : ∀ a ∈ as, a.succeeds = true)
    (hp : ∀ a ∈ as, a.Plain) (hlt : σ.store.seq < 2 ^ 64) : ∃ tabs fl, Layers σ tabs fl := by
  have h : σ.store.seq < 2 ^ 64 → ∃ tabs fl, Layers σ tabs fl :=
    Process.run_induct (P := fun σ => σ.store.seq < 2 ^ 64 → ∃ tabs fl, Layers σ tabs fl) hrun
      (fun a ham => And.intro (ha a ham) (hp a ham)) (fun _ => ⟨[], none, start_layers⟩)
      fun σ₁ a σ₂ hQ he ih hlt => by
        obtain ⟨tabs, fl, h⟩ := ih (he.seq_le.trans_lt hlt)
        exact h.effect hQ.1 hQ.2 hlt he
  exact h hlt

end Steps

/-! ### Placement, order and answers -/

/-- The versions that the file of a table holds, read the way the compactor reads it. -/
def tableRows (d : Disk) (p : Bytes) : List Row := rows ((loadSstable d.tables[p]? ∅).getD ∅)

/-- The tasks in the queue of the worker and in its hands. -/
def FlushWorker.held (w : FlushWorker) : List FlushTask :=
  w.tasks ++
    match w.pc with
    | .popped t | .written t | .loaded t _ | .appended t => [t]
    | .waiting | .exited => []

/-- No flush is outstanding. -/
def FlushWorker.Idle (w : FlushWorker) : Prop := w.held = [] ∧ w.completions = []

instance (w : FlushWorker) : Decidable w.Idle := inferInstanceAs (Decidable (_ ∧ _))

namespace Process

/-- The versions of the outstanding flush: of its task, or of its file once it is completed. -/
def outstanding (σ : Process) : List Row :=
  (σ.store.flushWorker.held.flatMap fun t => rows t.entries) ++
    σ.store.flushWorker.completions.flatMap (tableRows σ.disk)

/-- **The places of the versions**, oldest first: the tables of `sstablePaths`, the outstanding
flush and the memtable. -/
def layers (σ : Process) : List (List Row) :=
  σ.store.sstablePaths.map (tableRows σ.disk) ++ [σ.outstanding, rows σ.store.memtable.entries]

end Process

section Results

variable {σ : Process} {tabs : List Entries} {fl : Option FlushTask}

lemma tableRows_eq {d : Disk} {p : Bytes} {e : Entries} (h : HoldsEntries d p e)
    (he : EntriesOk e) : tableRows d p = rows e := by
  have h : d.tables[p]? = some (sstableBytes e) := h
  rw [tableRows, h, he.loadSstable, Option.getD_some, pushRows_rows he.noEmpty]

lemma map_tableRows {d : Disk} {paths : List Bytes}
    (ht : List.Forall₂ (HoldsEntries d) paths tabs) (hok : ∀ e ∈ tabs, EntriesOk e) :
    paths.map (tableRows d) = tabs.map rows := by
  induction ht with
  | nil => rfl
  | @cons p e paths tabs hp _ ih =>
    rw [List.map_cons, List.map_cons, tableRows_eq hp (hok e (by simp)),
      ih fun x hx => hok x (List.mem_cons_of_mem e hx)]

lemma Layers.outstanding_eq (h : Layers σ tabs fl) :
    σ.outstanding = fl.toList.flatMap fun t => rows t.entries := by
  have hok : ∀ t, fl = some t → EntriesOk t.entries := fun t ht =>
    h.ok t.entries (by simp [parts, ht])
  unfold Process.outstanding FlushWorker.held
  cases h.flush with
  | idle h1 h2 h3 => simp [h1, h2, h3]
  | queued t h1 h2 h3 => simp [h1, h2, h3]
  | popped t h1 h2 h3 => simp [h1, h2, h3]
  | written t h1 h2 h3 h4 => rcases h2 with h2 | ⟨existing, h2⟩ | h2 <;> simp [h1, h2, h3]
  | completed t h1 h2 h3 h4 => simp [h1, h2, h3, tableRows_eq h4 (hok t rfl)]

/-- The places hold the parts of the store. -/
lemma Layers.layers_eq (h : Layers σ tabs fl) : σ.layers =
    tabs.map rows ++ [fl.toList.flatMap fun t => rows t.entries, rows σ.store.memtable.entries] := by
  rw [Process.layers, map_tableRows h.tables fun e he => h.ok e (by simp [parts, he]),
    h.outstanding_eq]

lemma Layers.flatten_layers (h : Layers σ tabs fl) :
    σ.layers.flatten = (parts tabs fl σ.store.memtable.entries).flatMap rows := by
  rw [h.layers_eq]
  simp [parts, List.flatMap_def, Function.comp_def]

lemma versionsIn_flatMap_rows (es : List Entries) (key : Bytes) :
    versionsIn (es.flatMap rows) key = es.flatMap fun e => versionsOf e key := by
  induction es with
  | nil => rfl
  | cons e es ih => rw [List.flatMap_cons, List.flatMap_cons, versionsIn_append, versionsIn_rows, ih]

/-- Rows with the same versions of every key. -/
lemma perm_of_versionsIn {rs rs' : List Row} (h : ∀ key, versionsIn rs key = versionsIn rs' key) :
    rs.Perm rs' := by
  have hcount : ∀ (l : List Row) (r : Row), l.count r = (versionsIn l r.1).count r.2 := by
    intro l r
    induction l with
    | nil => rfl
    | cons x l ih =>
      rw [List.count_cons, ih]
      by_cases hk : x.1 = r.1
      · have hx : versionsIn (x :: l) r.1 = x.2 :: versionsIn l r.1 := by simp [versionsIn, hk]
        rw [hx, List.count_cons]
        simp [Prod.ext_iff, hk]
      · have hx : versionsIn (x :: l) r.1 = versionsIn l r.1 := by simp [versionsIn, hk]
        rw [hx]
        simp [Prod.ext_iff, hk]
  rw [List.perm_iff_count]
  intro r
  rw [hcount, hcount, h]

/-- **Every version is in exactly one place.** -/
lemma Layers.perm_written (h : Layers σ tabs fl) : σ.layers.flatten.Perm σ.written := by
  refine perm_of_versionsIn fun key => ?_
  rw [h.flatten_layers, versionsIn_flatMap_rows, h.content]

/-- **The places are in the order of the timestamps.** -/
lemma Layers.pairwise_layers (h : Layers σ tabs fl) :
    σ.layers.Pairwise fun old new => ∀ r ∈ old, ∀ r' ∈ new, r.2.timestamp < r'.2.timestamp := by
  have hord := h.ordered
  rw [h.layers_eq]
  cases fl with
  | none =>
    simp only [parts, Option.toList_none, List.map_nil, List.append_nil] at hord
    obtain ⟨h1, -, h3⟩ := List.pairwise_append.mp hord
    refine List.pairwise_append.mpr ⟨List.pairwise_map.mpr h1, by simp, fun x hx y hy => ?_⟩
    obtain ⟨e, he, rfl⟩ := List.mem_map.mp hx
    rcases List.mem_cons.mp hy with rfl | hy
    · simp
    · rw [List.mem_singleton.mp hy]
      exact h3 e he _ (by simp)
  | some t =>
    have hmap : (parts tabs (some t) σ.store.memtable.entries).map rows = tabs.map rows ++
        [(some t).toList.flatMap fun t => rows t.entries, rows σ.store.memtable.entries] := by
      simp [parts]
    rw [← hmap]
    exact List.pairwise_map.mpr hord

/-- The first hit in lists of versions. -/
lemma firstHit_lastVisible (ls : List (List Version)) (t : ℕ) :
    KVStore.firstHit (ls.map fun vs =>
        ((lastVisible Version.timestamp vs t).map Version.result).getD .notFound) =
      (ls.findSome? fun vs => lastVisible Version.timestamp vs t).bind Version.value := by
  induction ls with
  | nil => rfl
  | cons vs ls ih =>
    rw [List.map_cons, List.findSome?_cons]
    cases lastVisible Version.timestamp vs t with
    | none => exact ih
    | some v =>
      simp only [Option.map_some, Option.getD_some, Version.result, Option.bind_some]
      cases v.value <;> rfl

/-- The lookups in the tables. -/
lemma map_tableGetAt {d : Disk} {paths : List Bytes}
    (ht : List.Forall₂ (HoldsEntries d) paths tabs) (hok : ∀ e ∈ tabs, EntriesOk e) (key : Bytes)
    (t : ℕ) : (paths.map fun p => tableGetAt d.tables[p]? key t) =
      tabs.map fun e => ((lastVisible Version.timestamp (versionsOf e key) t).map
        Version.result).getD .notFound := by
  induction ht with
  | nil => rfl
  | @cons p e paths tabs hp _ ih =>
    have hp : d.tables[p]? = some (sstableBytes e) := hp
    rw [List.map_cons, List.map_cons, hp, (hok e (by simp)).tableGetAt,
      lookupEntries_eq_lastVisible, ih fun x hx => hok x (List.mem_cons_of_mem e hx)]

/-- **A read in layers**: the last visible version of the tables and the memtable; an immutable
memtable is empty. -/
lemma readAt_tables {s : KVStore} {d : Disk} (himm : ∀ e, s.immutable = some e → e = ∅)
    (ht : List.Forall₂ (HoldsEntries d) s.sstablePaths tabs) (hok : ∀ e ∈ tabs, EntriesOk e)
    (key : Bytes) (t : ℕ) : s.readAt d key t = (lastVisible Version.timestamp
      ((parts tabs none s.memtable.entries).flatMap fun e => versionsOf e key) t).bind
        Version.value := by
  have hskip : KVStore.firstHit (s.layers d key t) = KVStore.firstHit (s.memtable.getAt key t ::
      s.sstablePaths.reverse.map fun p => tableGetAt d.tables[p]? key t) := by
    unfold KVStore.layers
    cases hi : s.immutable with
    | none => rfl
    | some e =>
      obtain rfl := himm e hi
      have hempty : lookupEntries ∅ key t = .notFound := by simp [lookupEntries_eq, versionsOf]
      cases s.memtable.getAt key t <;> simp [KVStore.firstHit, hempty]
  have hlayers : (s.memtable.getAt key t :: s.sstablePaths.reverse.map fun p =>
      tableGetAt d.tables[p]? key t) =
      ((parts tabs none s.memtable.entries).map (versionsOf · key)).reverse.map fun vs =>
        ((lastVisible Version.timestamp vs t).map Version.result).getD .notFound := by
    have hget := map_tableGetAt ht hok key t
    simp only [List.map_reverse, hget, MemTable.getAt, lookupEntries_eq_lastVisible, parts,
      Option.toList_none, List.map_nil, List.append_nil, List.map_append, List.map_cons,
      List.map_map, List.reverse_append, List.reverse_cons, List.reverse_nil, List.nil_append,
      List.cons_append, Function.comp_def]
  rw [KVStore.readAt, hskip, hlayers, firstHit_lastVisible, ← lastVisible_flatten, List.flatMap_def]

/-- **A read without an outstanding flush** finds the last visible version that was written. -/
lemma Layers.readAt_eq (h : Layers σ tabs none) (key : Bytes) (t : ℕ) :
    σ.store.readAt σ.disk key t =
      (lastVisible Version.timestamp (versionsIn σ.written key) t).bind Version.value := by
  have himm : σ.store.immutable = none := h.immutable
  rw [readAt_tables (by simp [himm]) h.tables (fun e he => h.ok e (by simp [parts, he])), h.content]

/-- **The worker holds no task**: nothing is outstanding, or the flush is completed. -/
lemma FlushAt.of_held {w : FlushWorker} {d : Disk} (h : FlushAt w d fl) (hheld : w.held = []) :
    (fl = none ∧ w.completions = []) ∨ ∃ f, fl = some f ∧ w.completions = [f.sstablePath] ∧
      HoldsEntries d f.sstablePath f.entries := by
  unfold FlushWorker.held at hheld
  cases h with
  | idle h1 h2 h3 => exact Or.inl ⟨rfl, h3⟩
  | queued t h1 => simp [h1] at hheld
  | popped t _ h2 => simp [h2] at hheld
  | written t _ h2 => rcases h2 with h2 | ⟨_, h2⟩ | h2 <;> simp [h2] at hheld
  | completed t h1 h2 h3 h4 => exact Or.inr ⟨t, rfl, h3, h4⟩

lemma Layers.fl_eq_none (h : Layers σ tabs fl) (hi : σ.store.flushWorker.Idle) : fl = none := by
  rcases h.flush.of_held hi.1 with ⟨hfl, -⟩ | ⟨f, -, hc, -⟩
  · exact hfl
  · simp [hi.2] at hc

/-- The versions of a key ascend. -/
lemma Layers.ascending_key (h : Layers σ tabs fl) (key : Bytes) :
    Ascending Version.timestamp (versionsIn σ.written key) := by
  have hasc := h.ascending.filter fun r => r.1 = key
  exact List.pairwise_map.mpr hasc

end Results

/-- **Placement, order and answers of the layers.** In every run from empty files whose system
calls succeed, with keys that are words and values that fit on a line and do not begin with white
space, as long as the counter has not run through its 64 bits: every version written is in exactly
one place, the places are in the order of the timestamps, and a read without an outstanding flush
gives the value of the newest visible version. -/
theorem lsm_layers {as : List Action} {σ : Process}
    (hrun : (Process.start Disk.empty).run as = some σ) (ha : ∀ a ∈ as, a.succeeds = true)
    (hp : ∀ a ∈ as, a.Plain) (hlt : σ.store.seq < 2 ^ 64) :
    (σ.layers.flatten.Perm σ.written ∧ Ascending (fun r : Row => r.2.timestamp) σ.written) ∧
    (σ.layers.Pairwise fun old new => ∀ r ∈ old, ∀ r' ∈ new, r.2.timestamp < r'.2.timestamp) ∧
    (σ.store.flushWorker.Idle → ∀ key t,
      (∀ v, Newest Version.timestamp (versionsIn σ.written key) t v →
        σ.store.readAt σ.disk key t = v.value) ∧
      ((∀ v, (key, v) ∈ σ.written → t < v.timestamp) → σ.store.readAt σ.disk key t = none)) := by
  obtain ⟨tabs, fl, h⟩ := run_layers hrun ha hp hlt
  refine ⟨⟨h.perm_written, h.ascending⟩, h.pairwise_layers, fun hi key t => ?_⟩
  obtain rfl := h.fl_eq_none hi
  rw [h.readAt_eq]
  constructor
  · intro v hv
    rw [(lastVisible_eq_some_iff (h.ascending_key key)).mpr hv, Option.bind_some]
  · intro hnone
    have : lastVisible Version.timestamp (versionsIn σ.written key) t = none :=
      lastVisible_eq_none_iff.mpr fun v hv => not_le.mpr (hnone v (mem_versionsIn.mp hv))
    rw [this, Option.bind_none]

/-- A value goes to the first table, and then its key is put again. -/
def overTable (v : Bytes) : List Action :=
  flushCycle v ++ [.compact .ok, .read] ++ [.put (text "a") (text "2"), .rotate, .commit .ok]

/-- The first version is in the table, and the second one in the memtable. -/
def aboveTable (v : Bytes) : Process where
  store := ⟨((∅ : Std.ExtTreeMap Bytes Bytes).insert (text "a") v).insert (text "a") (text "2"),
    MemTable.empty.put (text "a") 2 (text "2"), none, [flushPath 0], ⟨[], [], true, false, .waiting⟩, 1,
    ⟨some 0, [recordBytes ⟨1, text "a", some v⟩, recordBytes ⟨2, text "a", some (text "2")⟩], 0⟩, 2, 5,
    true⟩
  disk := ⟨none, some [], some (replaceSstables [flushPath 0]),
    (∅ : Std.ExtTreeMap Bytes Bytes).insert (flushPath 0) (sstableBytes (oneEntry 1 v))⟩
  pc := .idle
  written := [(text "a", ⟨1, some v⟩), (text "a", ⟨2, some (text "2")⟩)]

lemma overTable_run {v : Bytes} (hv : kMemTableFlushThresholdBytes ≤ v.length) :
    (Process.start Disk.empty).run (overTable v) = some (aboveTable v) :=
  Process.run_trans (flushRead_run ∅ [] 0 0 [] ∅ [] hv (by decide) (by simp) (by simp) (by decide)) rfl

/-- These calls succeed, and what is written is plain. -/
lemma overTable_plain {v : Bytes} (hc : Clean v) :
    ∀ a ∈ overTable v, a.succeeds = true ∧ a.Plain := by
  have hkey : Word (text "a") := by decide
  have hsmall : Clean (text "2") := by decide
  simp [overTable, flushCycle, Action.succeeds, Action.Plain, hkey, hsmall, hc]

/-- The key is deleted, and then it is read at the first timestamp. -/
def deleteAndRead : List Action :=
  [.del (text "a"), .rotate, .commit .ok, .getAt (text "a") 1, .drain]

def readBack (v : Bytes) : List Action := overTable v ++ deleteAndRead

lemma readBack_run {v : Bytes} (hv : kMemTableFlushThresholdBytes ≤ v.length) : ∃ σ,
    (Process.start Disk.empty).run (readBack v) = some σ ∧
      σ.written = [(text "a", ⟨1, some v⟩), (text "a", ⟨2, some (text "2")⟩), (text "a", ⟨3, none⟩)] ∧
      σ.store.seq = 3 ∧ σ.store.sstablePaths = [flushPath 0] ∧ σ.store.flushWorker.Idle ∧
      σ.store.get (text "a") = none := by
  refine ⟨_, Process.run_trans (overTable_run hv) rfl, rfl, rfl, rfl, ⟨rfl, rfl⟩, ?_⟩
  exact Std.ExtTreeMap.getElem?_erase_self

lemma readBack_plain {v : Bytes} (hc : Clean v) : ∀ a ∈ readBack v, a.succeeds = true ∧ a.Plain := by
  have hrest : ∀ a ∈ deleteAndRead, a.succeeds = true ∧ a.Plain := by decide
  intro a ha
  rcases List.mem_append.mp ha with ha | ha
  · exact overTable_plain hc a ha
  · exact hrest a ha

/-- The read finds the first version in the table. -/
theorem lsm_layers_read_back : ∃ σ,
    (Process.start Disk.empty).run (readBack largeValue) = some σ ∧
    σ.store.sstablePaths = [flushPath 0] ∧
    σ.store.readAt σ.disk (text "a") 1 = some largeValue := by
  obtain ⟨σ, hrun, hw, hseq, hpaths, hidle, -⟩ := readBack_run (v := largeValue) (by simp [largeValue])
  have hplain := readBack_plain clean_largeValue
  obtain ⟨-, -, hread⟩ := lsm_layers hrun (fun a ha => (hplain a ha).1) (fun a ha => (hplain a ha).2)
    (by rw [hseq]; decide)
  refine ⟨σ, hrun, hpaths, (hread hidle (text "a") 1).1 ⟨1, some largeValue⟩ ?_⟩
  rw [hw]
  exact ⟨by simp [versionsIn], le_rfl, by simp [versionsIn]⟩

end VeriStore.Store

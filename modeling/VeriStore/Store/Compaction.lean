import VeriStore.Store.Listing

/-!
Compaction of the live tables, whichever of its steps fails and wherever the process stops.

The first two tables are merged into a temporary file, which is renamed to a new name before the
manifest lists it; only then the inputs are removed. At every point between two file operations
the manifest lists the old tables or the new ones, all of them complete (`Intact`). The merged
table answers what the two tables answer together where a timestamp belongs to one version of a
key.

* `compaction_transparent` — reads, the manifest and every point of a crash.
-/

namespace VeriStore.Store

open VeriStore.Lib VeriStore.Sstable VeriStore.Log

open KVStore (CompactJob CompactIo)

/-! ### Live tables -/

/-- The versions of a key in the first entries are older than those in the second ones, or the
same. -/
def Older (a b : Entries) : Prop :=
  ∀ key, ∀ v ∈ versionsOf a key, ∀ w ∈ versionsOf b key, v.timestamp < w.timestamp ∨ v = w

/-- **The live tables of a store**: the files that the writer wrote of the entries `es`, from the
oldest to the newest. -/
structure LiveTables (paths : List Bytes) (d : Disk) (es : List Entries) : Prop where
  holds : List.Forall₂ (HoldsEntries d) paths es
  rowOk : ∀ e ∈ es, ∀ r ∈ rows e, RowOk r
  nodup : paths.Nodup
  older : es.Pairwise Older

/-- No table has the name of a temporary file. -/
def NoTemporary (paths : List Bytes) : Prop := ∀ id, compactedPath id ++ text ".tmp" ∉ paths

/-- In the two tables to be merged a timestamp belongs to one version of a key. -/
def SingleTimestamps (es : List Entries) : Prop :=
  ∀ e ∈ es.take 2, ∀ key, Consistent Version.timestamp (versionsOf e key)

namespace KVStore

/-- The temporary file with its first `n` bytes. -/
def CompactJob.writing (j : CompactJob) (d : Disk) (n : ℕ) : Disk :=
  match compact [d.tables[j.first]?, d.tables[j.second]?] with
  | some out => { d with tables := d.tables.insert j.tempOutput (out.take n) }
  | none => d

/-- **The files between two file operations of a compaction**; the temporary file may have been
written up to any byte. -/
def compactPoints (s : KVStore) (d : Disk) (io : CompactIo) (n : ℕ) : List Disk :=
  if s.sstablePaths.length < kCompactionTrigger then [d]
  else
    match s.sstablePaths with
    | first :: second :: rest =>
      if first = second then [d, (s.maybeCompactSstables d io).2.2]
      else
        let (_, j) := compactBegin s first second rest
        d :: j.writing d n ::
          match compactWrite j d io.compact with
          | (false, d) => [d]
          | (true, d) =>
            d :: match compactRename j d io.rename with
            | (false, d) => [d]
            | (true, d) =>
              d :: match compactReplace j d io.replace with
              | (false, d) => [d]
              | (true, d) =>
                [d, { d with tables := d.tables.erase j.first }, (compactFinish j s d).2]
    | _ => [d]

/-- The last of the points is what the call leaves. -/
lemma getLast_compactPoints (s : KVStore) (d : Disk) (io : CompactIo) (n : ℕ) :
    (s.compactPoints d io n).getLast? = some (s.maybeCompactSstables d io).2.2 := by
  unfold compactPoints maybeCompactSstables
  by_cases ht : s.sstablePaths.length < kCompactionTrigger
  · rw [if_pos ht, if_pos ht]
    rfl
  rw [if_neg ht, if_neg ht]
  rcases s.sstablePaths with _ | ⟨first, _ | ⟨second, rest⟩⟩
  · rfl
  · rfl
  dsimp only
  by_cases h : first = second
  · rw [if_pos h, if_pos h]
    rfl
  rw [if_neg h, if_neg h]
  generalize compactBegin s first second rest = b
  obtain ⟨s', j⟩ := b
  dsimp only
  rw [List.getLast?_cons_cons, List.getLast?_cons, Option.some.injEq]
  obtain ⟨ok, d₁⟩ := compactWrite j d io.compact
  cases ok with
  | false => rfl
  | true =>
    dsimp only
    obtain ⟨ok, d₂⟩ := compactRename j d₁ io.rename
    cases ok with
    | false => rfl
    | true =>
      dsimp only
      obtain ⟨ok, d₃⟩ := compactReplace j d₂ io.replace
      cases ok <;> rfl

end KVStore

/-! ### The name of the output -/

/-- **The loop finds a name that is not in use.** -/
lemma freshOutput_notMem (paths : List Bytes) (id : ℕ) :
    ∃ i, id ≤ i ∧ KVStore.freshOutput paths paths.length id = (compactedPath i, i + 1) ∧
      compactedPath i ∉ paths := by
  -- `n` turns are enough when all but `n` of the paths have been tried
  have hloop : ∀ (n id : ℕ), (∃ i, id ≤ i ∧ i ≤ id + n ∧ compactedPath i ∉ paths) →
      ∃ i, id ≤ i ∧ KVStore.freshOutput paths n id = (compactedPath i, i + 1) ∧
        compactedPath i ∉ paths := by
    intro n
    induction n with
    | zero =>
      rintro id ⟨i, h1, h2, hi⟩
      obtain rfl : i = id := by omega
      exact ⟨i, le_rfl, rfl, hi⟩
    | succ n ih =>
      rintro id ⟨i, h1, h2, hi⟩
      by_cases hm : compactedPath id ∈ paths
      · have hne : i ≠ id := by
          rintro rfl
          exact hi hm
        obtain ⟨k, hle, hk, hkn⟩ := ih (id + 1) ⟨i, by omega, by omega, hi⟩
        exact ⟨k, by omega, by rw [KVStore.freshOutput, if_pos hm, hk], hkn⟩
      · exact ⟨id, le_rfl, by rw [KVStore.freshOutput, if_neg hm], hm⟩
  refine hloop paths.length id ?_
  by_contra hall
  push Not at hall
  have hsub : (List.range (paths.length + 1)).map (fun i => compactedPath (id + i)) ⊆ paths := by
    intro p hp
    obtain ⟨i, hi, rfl⟩ := List.mem_map.mp hp
    exact hall (id + i) (by omega) (by have := List.mem_range.mp hi; omega)
  have hnd : ((List.range (paths.length + 1)).map fun i => compactedPath (id + i)).Nodup :=
    List.nodup_range.map fun i j h => by
      have := compactedPath_injective h
      omega
  have hlen := (List.subperm_of_subset hnd hsub).length_le
  simp at hlen

/-! ### The steps -/

/-- The manifest and the tables at a point of a compaction: the old tables `es` under the old
names, or the new ones `es'` under the names that the manifest lists now. -/
inductive Intact (d : Disk) (paths paths' : List Bytes) (es es' : List Entries) (dc : Disk) : Prop
  | old (hm : dc.manifest = d.manifest) (h : List.Forall₂ (HoldsEntries dc) paths es)
  | new (hm : dc.manifest = some (replaceSstables paths'))
      (h : List.Forall₂ (HoldsEntries dc) paths' es')

/-- The store and the files after a compaction: the merged table stands for its two inputs, or
nothing has changed, which needs a step that fails or less than four tables. -/
inductive Compacted (io : CompactIo) (d : Disk) (paths paths' : List Bytes) (es es' : List Entries)
    (s' : KVStore) (d' : Disk) : Prop
  | kept (hio : io ≠ CompactIo.ok ∨ paths.length < kCompactionTrigger)
      (hp : s'.sstablePaths = paths) (hm : d'.manifest = d.manifest)
      (h : List.Forall₂ (HoldsEntries d') paths es)
  | replaced (hp : s'.sstablePaths = paths')
      (hm : d'.manifest = some (replaceSstables paths'))
      (h : List.Forall₂ (HoldsEntries d') paths' es')

section Steps

variable {s : KVStore} {d : Disk} {first second : Bytes} {rest : List Bytes} {a b : Entries}
  {es : List Entries}

/-- The files after the first steps of a compaction into `output`, when all of them succeed. -/
structure Merging (d d₁ d₂ : Disk) (paths : List Bytes) (es : List Entries) (output temp : Bytes)
    (e : Entries) : Prop where
  written : d₁ = { d with tables := d.tables.insert temp (sstableBytes e) }
  renamed : d₂ = { d with tables := (d₁.tables.erase temp).insert output (sstableBytes e) }
  outputNew : output ∉ paths
  tempNew : temp ∉ paths
  ne : output ≠ temp
  holds : List.Forall₂ (HoldsEntries d) paths es

section Merging

variable {d₁ d₂ : Disk} {paths : List Bytes} {output temp : Bytes} {e : Entries}

lemma Merging.holds₁ (h : Merging d d₁ d₂ paths es output temp e) :
    List.Forall₂ (HoldsEntries d₁) paths es := by
  rw [h.written]
  exact holdsEntries_insert h.holds h.tempNew _

lemma Merging.holds₂ (h : Merging d d₁ d₂ paths es output temp e) :
    List.Forall₂ (HoldsEntries d₂) paths es := by
  rw [h.renamed]
  exact holdsEntries_insert (holdsEntries_erase h.holds₁ h.tempNew) h.outputNew _

lemma Merging.holds_output (h : Merging d d₁ d₂ paths es output temp e) :
    HoldsEntries d₂ output e := by
  rw [h.renamed]
  unfold HoldsEntries
  rw [Std.ExtTreeMap.getElem?_insert_self]

end Merging

/-- The tables that replace the old ones, before and after the inputs are removed. -/
lemma holds_replaced {d₂ : Disk} {output : Bytes} {e : Entries}
    (hnd : (first :: second :: rest).Nodup)
    (h : List.Forall₂ (HoldsEntries d₂) (first :: second :: rest) (a :: b :: es))
    (ho : HoldsEntries d₂ output e) (hnew : output ∉ first :: second :: rest) :
    List.Forall₂ (HoldsEntries d₂) (output :: rest) (e :: es) ∧
    List.Forall₂ (HoldsEntries { d₂ with tables := d₂.tables.erase first }) (output :: rest)
      (e :: es) ∧
    List.Forall₂ (HoldsEntries { d₂ with tables := (d₂.tables.erase first).erase second })
      (output :: rest) (e :: es) := by
  simp only [List.mem_cons, not_or] at hnew
  obtain ⟨hn1, hnd'⟩ := List.nodup_cons.mp hnd
  obtain ⟨hn2, -⟩ := List.nodup_cons.mp hnd'
  have hrest : List.Forall₂ (HoldsEntries d₂) rest es := by
    obtain ⟨-, h⟩ := List.forall₂_cons.mp h
    exact (List.forall₂_cons.mp h).2
  have h0 : List.Forall₂ (HoldsEntries d₂) (output :: rest) (e :: es) := .cons ho hrest
  have h1 := holdsEntries_erase h0 (p := first) fun hm => by
    rcases List.mem_cons.mp hm with he | hm
    · exact hnew.1 he.symm
    · exact hn1 (List.mem_cons_of_mem second hm)
  have h2 := holdsEntries_erase h1 (p := second) fun hm => by
    rcases List.mem_cons.mp hm with he | hm
    · exact hnew.2.1 he.symm
    · exact hn2 hm
  exact ⟨h0, h1, h2⟩

/-- **A compaction of two different tables**: all its points, and what it leaves. -/
lemma compaction_job (hh : List.Forall₂ (HoldsEntries d) (first :: second :: rest) (a :: b :: es))
    (hrow : ∀ e ∈ a :: b :: es, ∀ r ∈ rows e, RowOk r) (hnd : (first :: second :: rest).Nodup)
    (htemp : NoTemporary (first :: second :: rest))
    (hp : s.sstablePaths = first :: second :: rest) (io : CompactIo) :
    ∃ output, output ∉ first :: second :: rest ∧ (∃ i, output = compactedPath i) ∧
      (∀ n, ∀ dc ∈ s.compactPoints d io n,
        Intact d (first :: second :: rest) (output :: rest) (a :: b :: es)
          (compactEntries a b :: es) dc) ∧
      Compacted io d (first :: second :: rest) (output :: rest) (a :: b :: es)
        (compactEntries a b :: es) (s.maybeCompactSstables d io).2.1
        (s.maybeCompactSstables d io).2.2 := by
  obtain ⟨i, -, hfresh, hnew⟩ := freshOutput_notMem s.sstablePaths s.nextSstableId
  rw [hp] at hnew
  refine ⟨compactedPath i, hnew, ⟨i, rfl⟩, ?_⟩
  by_cases hlen : s.sstablePaths.length < kCompactionTrigger
  · simp only [KVStore.compactPoints, KVStore.maybeCompactSstables, if_pos hlen, List.mem_singleton]
    refine ⟨?_, .kept (Or.inr (hp ▸ hlen)) hp rfl hh⟩
    rintro n dc rfl
    exact .old rfl hh
  have hne : first ≠ second := fun he => by simp [he] at hnd
  -- the merge of the two inputs
  have hout : compact [d.tables[first]?, d.tables[second]?] =
      some (sstableBytes (compactEntries a b)) := by
    obtain ⟨ha, ht⟩ := List.forall₂_cons.mp hh
    obtain ⟨hb, -⟩ := List.forall₂_cons.mp ht
    have ha : d.tables[first]? = some (sstableBytes a) := ha
    have hb : d.tables[second]? = some (sstableBytes b) := hb
    rw [ha, hb]
    exact compact_eq (hrow a (by simp)) (hrow b (by simp))
  set e := compactEntries a b
  set temp := compactedPath i ++ text ".tmp" with htemp'
  set d₁ : Disk := { d with tables := d.tables.insert temp (sstableBytes e) } with hd₁
  set d₂ : Disk := { d with
    tables := (d₁.tables.erase temp).insert (compactedPath i) (sstableBytes e) } with hd₂
  have hm : Merging d d₁ d₂ (first :: second :: rest) (a :: b :: es) (compactedPath i) temp e :=
    ⟨rfl, rfl, hnew, htemp i, by simp [htemp', text], hh⟩
  obtain ⟨hr0, hr1, hr2⟩ := holds_replaced hnd hm.holds₂ hm.holds_output hnew
  have hget : d₁.tables[temp]? = some (sstableBytes e) := by
    rw [hd₁]
    simp only
    rw [Std.ExtTreeMap.getElem?_insert_self]
  have hbegin : KVStore.compactBegin s first second rest = ({ s with nextSstableId := i + 1 },
      ⟨first, second, compactedPath i, compactedPath i :: rest⟩) := by
    rw [KVStore.compactBegin, hfresh]
  set j : CompactJob := ⟨first, second, compactedPath i, compactedPath i :: rest⟩ with hj
  set s₁ : KVStore := { s with nextSstableId := i + 1 } with hs₁
  have hpoint : ∀ n, Intact d (first :: second :: rest) (compactedPath i :: rest) (a :: b :: es)
      (e :: es) { d with tables := d.tables.insert temp ((sstableBytes e).take n) } := fun n =>
    .old rfl (holdsEntries_insert hh hm.tempNew _)
  have hwriting : ∀ n, j.writing d n =
      { d with tables := d.tables.insert temp ((sstableBytes e).take n) } := fun n => by
    simp only [KVStore.CompactJob.writing, hj, hout]
    rfl
  obtain ⟨io₁, io₂, io₃⟩ := io
  simp only [KVStore.compactPoints, KVStore.maybeCompactSstables, if_neg hlen]
  rw [hp]
  simp only [if_neg hne, hbegin, hwriting]
  -- the points are taken one after the other, each with the files that the steps before it left
  cases io₁ with
  | refused =>
    have hw : KVStore.compactWrite j d .refused = (false, d) := by
      simp only [KVStore.compactWrite, hj, hout]
    simp only [hw, List.forall_mem_cons]
    exact ⟨fun n => ⟨.old rfl hh, hpoint n, .old rfl hh, by simp⟩,
      .kept (Or.inl (by simp [KVStore.CompactIo.ok])) hp rfl hh⟩
  | short m =>
    have hw : KVStore.compactWrite j d (.short m) =
        (false, { d with tables := d.tables.insert temp ((sstableBytes e).take m) }) := by
      simp only [KVStore.compactWrite, hj, hout]
      rfl
    simp only [hw, List.forall_mem_cons]
    exact ⟨fun n => ⟨.old rfl hh, hpoint n, hpoint m, by simp⟩,
      .kept (Or.inl (by simp [KVStore.CompactIo.ok])) hp rfl (holdsEntries_insert hh hm.tempNew _)⟩
  | ok =>
    have hw : KVStore.compactWrite j d .ok = (true, d₁) := by
      simp only [KVStore.compactWrite, hj, hout]
      rfl
    simp only [hw]
    cases io₂ with
    | false =>
      have hrn : KVStore.compactRename j d₁ false =
          (false, { d₁ with tables := d₁.tables.erase temp }) := rfl
      have herase := holdsEntries_erase hm.holds₁ hm.tempNew
      simp only [hrn, List.forall_mem_cons]
      exact ⟨fun n => ⟨.old rfl hh, hpoint n, .old rfl hm.holds₁, .old rfl herase, by simp⟩,
        .kept (Or.inl (by simp [KVStore.CompactIo.ok])) hp rfl herase⟩
    | true =>
      have hrn : KVStore.compactRename j d₁ true = (true, d₂) := by
        have hget : d₁.tables[j.tempOutput]? = some (sstableBytes e) := hget
        simp only [KVStore.compactRename, hget]
        rfl
      simp only [hrn]
      cases io₃ with
      | false =>
        have hrp : KVStore.compactReplace j d₂ false =
            (false, { d₂ with tables := d₂.tables.erase (compactedPath i) }) := rfl
        have herase := holdsEntries_erase hm.holds₂ hnew
        simp only [hrp, List.forall_mem_cons]
        exact ⟨fun n => ⟨.old rfl hh, hpoint n, .old rfl hm.holds₁, .old rfl hm.holds₂,
          .old rfl herase, by simp⟩, .kept (Or.inl (by simp [KVStore.CompactIo.ok])) hp rfl herase⟩
      | true =>
        have hrp : KVStore.compactReplace j d₂ true =
            (true, { d₂ with manifest := some (replaceSstables (compactedPath i :: rest)) }) := rfl
        simp only [hrp, List.forall_mem_cons, KVStore.compactFinish]
        exact ⟨fun n => ⟨.old rfl hh, hpoint n, .old rfl hm.holds₁, .old rfl hm.holds₂,
          .new rfl hr0, .new rfl hr1, .new rfl hr2, by simp⟩, .replaced rfl rfl hr2⟩

end Steps

/-! ### Reads -/

/-- Two lists of layers behind others: only their own answer counts. -/
lemma firstHit_append_congr (rs : List LookupResult) {rs₁ rs₂ : List LookupResult}
    (h : KVStore.firstHit rs₁ = KVStore.firstHit rs₂) :
    KVStore.firstHit (rs ++ rs₁) = KVStore.firstHit (rs ++ rs₂) := by
  induction rs with
  | nil => exact h
  | cons r rs ih =>
    cases r with
    | value v => rfl
    | tombstone => rfl
    | notFound => exact ih

/-- A lookup in the newest visible version. -/
def newestResult (vs : List Version) (t : ℕ) : LookupResult :=
  ((newestVisible Version.timestamp vs t).map Version.result).getD .notFound

/-- The lookups in the tables, whatever the order of the versions in them. -/
lemma map_tableGetAt_newest {d : Disk} {paths : List Bytes} {es : List Entries}
    (h : List.Forall₂ (HoldsEntries d) paths es) (hok : ∀ e ∈ es, ∀ r ∈ rows e, RowOk r)
    (key : Bytes) (t : ℕ) : (paths.map fun p => tableGetAt d.tables[p]? key t) =
      es.map fun e => newestResult (versionsOf e key) t := by
  induction h with
  | nil => rfl
  | @cons p e paths es hp _ ih =>
    have hp : d.tables[p]? = some (sstableBytes e) := hp
    rw [List.map_cons, List.map_cons, hp, tableGetAt,
      getAt_sstableBytes (hok e (by simp)) 4 (by decide),
      ih fun x hx => hok x (List.mem_cons_of_mem e hx)]
    rfl

/-- A read through tables that the writer wrote. -/
lemma readAt_eq_newest {s : KVStore} {d : Disk} {es : List Entries}
    (h : List.Forall₂ (HoldsEntries d) s.sstablePaths es) (hok : ∀ e ∈ es, ∀ r ∈ rows e, RowOk r)
    (key : Bytes) (t : ℕ) : s.readAt d key t =
      KVStore.firstHit ((s.memtable.getAt key t :: s.immutable.toList.map (lookupEntries · key t)) ++
        es.reverse.map fun e => newestResult (versionsOf e key) t) := by
  rw [KVStore.readAt, KVStore.layers, List.map_reverse, map_tableGetAt_newest h hok, List.map_reverse]
  rfl

section Merge

variable {a b : Entries} (hab : Older a b)
  (ha : ∀ key, Consistent Version.timestamp (versionsOf a key))
  (hb : ∀ key, Consistent Version.timestamp (versionsOf b key))

include hab ha hb

lemma consistent_append (key : Bytes) :
    Consistent Version.timestamp (versionsOf a key ++ versionsOf b key) := by
  intro v hv w hw hvw
  rcases List.mem_append.mp hv with hv | hv <;> rcases List.mem_append.mp hw with hw | hw
  · exact ha key v hv w hw hvw
  · exact (hab key v hv w hw).resolve_left (by omega)
  · exact ((hab key w hw v hv).resolve_left (by omega)).symm
  · exact hb key v hv w hw hvw

lemma mem_versionsOf_compactEntries {key : Bytes} {v : Version} :
    v ∈ versionsOf (compactEntries a b) key ↔ v ∈ versionsOf a key ∨ v ∈ versionsOf b key := by
  rw [versionsOf_compactEntries, mem_sortVersions (consistent_append hab ha hb key),
    List.mem_append]

/-- **The merged table answers for both of its inputs.** -/
lemma firstHit_compactEntries (key : Bytes) (t : ℕ) :
    KVStore.firstHit [newestResult (versionsOf b key) t, newestResult (versionsOf a key) t] =
      KVStore.firstHit [newestResult (versionsOf (compactEntries a b) key) t] := by
  have hle : ∀ v ∈ versionsOf a key, ∀ w ∈ versionsOf b key, v.timestamp ≤ w.timestamp := by
    intro v hv w hw
    rcases hab key v hv w hw with h | rfl
    · exact h.le
    · exact le_rfl
  have hmerge : newestVisible Version.timestamp (versionsOf (compactEntries a b) key) t =
      (newestVisible Version.timestamp (versionsOf b key) t).or
        (newestVisible Version.timestamp (versionsOf a key) t) := by
    rw [← newestVisible_append hle, versionsOf_compactEntries]
    have hc := consistent_append hab ha hb key
    exact newestVisible_congr hc (mem_sortVersions hc) t
  unfold newestResult
  rw [hmerge]
  cases newestVisible Version.timestamp (versionsOf b key) t with
  | some v => cases hv : v.value <;> simp [Version.result, hv, KVStore.firstHit]
  | none => rfl

end Merge

/-! ### The main result -/

/-- The tables hold exactly the versions in `es`. -/
def HoldVersions (d : Disk) (paths : List Bytes) (es : List Entries) : Prop :=
  ∃ es', List.Forall₂ (HoldsEntries d) paths es' ∧
    ∀ key v, (∃ e ∈ es', v ∈ versionsOf e key) ↔ ∃ e ∈ es, v ∈ versionsOf e key

lemma loadSstables_line {m : Option Bytes} {p : Bytes} (h : p ∈ loadSstables m) :
    p ≠ [] ∧ newline ∉ p := by
  obtain ⟨hl, hne⟩ := List.mem_filter.mp h
  exact ⟨by simpa using hne, newline_notMem_of_mem_lines hl⟩

/-- **Compaction is transparent and atomic**, whichever of its steps fail: no read changes, the
manifest goes on listing the tables of the store, and at every point between two file operations
the manifest lists complete tables that hold exactly the versions there were. In the two tables to
be merged a timestamp must belong to one version of a key, and no table may have the name of a
temporary file. -/
theorem compaction_transparent {s : KVStore} {d : Disk} {es : List Entries}
    (h : LiveTables s.sstablePaths d es) (htemp : NoTemporary s.sstablePaths)
    (hsingle : SingleTimestamps es) (io : CompactIo) :
    (∀ key t, (s.maybeCompactSstables d io).2.1.readAt (s.maybeCompactSstables d io).2.2 key t =
      s.readAt d key t) ∧
    (loadSstables d.manifest = s.sstablePaths →
      loadSstables (s.maybeCompactSstables d io).2.2.manifest =
        (s.maybeCompactSstables d io).2.1.sstablePaths ∧
      ∀ n, ∀ dc ∈ s.compactPoints d io n, HoldVersions dc (loadSstables dc.manifest) es) := by
  by_cases hlen : s.sstablePaths.length < kCompactionTrigger
  · simp only [KVStore.compactPoints, KVStore.maybeCompactSstables, if_pos hlen, List.mem_singleton]
    refine ⟨fun key t => trivial, fun hm => ⟨hm, ?_⟩⟩
    rintro n dc rfl
    exact ⟨es, hm ▸ h.holds, fun key v => Iff.rfl⟩
  obtain ⟨first, second, rest, hp⟩ := KVStore.exists_inputs hlen
  rw [hp] at h htemp
  obtain ⟨a, es₁, -, h₁, rfl⟩ := List.forall₂_cons_left_iff.mp h.holds
  obtain ⟨b, es₂, -, h₂, rfl⟩ := List.forall₂_cons_left_iff.mp h₁
  obtain ⟨hab, hrest⟩ := List.pairwise_cons.mp h.older
  have hab : Older a b := hab b (by simp)
  have ha := hsingle a (by simp)
  have hb := hsingle b (by simp)
  have hrow := rowOk_compactEntries (h.rowOk a (by simp)) (h.rowOk b (by simp))
  obtain ⟨output, -, ⟨i, rfl⟩, hpoints, hout⟩ :=
    compaction_job h.holds h.rowOk h.nodup htemp hp io
  -- the merged entries hold the versions of both inputs
  have hsame : ∀ key v, (∃ e ∈ compactEntries a b :: es₂, v ∈ versionsOf e key) ↔
      ∃ e ∈ a :: b :: es₂, v ∈ versionsOf e key := by
    intro key v
    simp only [List.exists_mem_cons_iff, mem_versionsOf_compactEntries hab ha hb, or_assoc]
  have hload : loadSstables d.manifest = s.sstablePaths →
      loadSstables (some (replaceSstables (compactedPath i :: rest))) = compactedPath i :: rest := by
    intro hm
    refine loadSstables_replaceSstables fun p hpm => ?_
    rcases List.mem_cons.mp hpm with rfl | hpm
    · exact TablePath.line (n := i + 1) ⟨i, by omega, Or.inr rfl⟩
    · exact loadSstables_line (m := d.manifest) (by rw [hm, hp]; simp [hpm])
  obtain ⟨paths', n', m', t', hframe⟩ := KVStore.maybeCompactSstables_frame s d io
  refine ⟨fun key t => ?_, fun hm => ⟨?_, fun n dc hdc => ?_⟩⟩
  · have hmem : (s.maybeCompactSstables d io).2.1.memtable = s.memtable := by rw [hframe]
    have himm : (s.maybeCompactSstables d io).2.1.immutable = s.immutable := by rw [hframe]
    rw [readAt_eq_newest (s := s) (hp ▸ h.holds) h.rowOk key t]
    cases hout with
    | kept _ hp' _ hh => rw [readAt_eq_newest (hp' ▸ hh) h.rowOk key t, hmem, himm]
    | replaced hp' _ hh =>
      have hok' : ∀ e ∈ compactEntries a b :: es₂, ∀ r ∈ rows e, RowOk r := by
        refine List.forall_mem_cons.mpr ⟨hrow, fun e he => h.rowOk e ?_⟩
        exact List.mem_cons_of_mem a (List.mem_cons_of_mem b he)
      rw [readAt_eq_newest (hp' ▸ hh) hok' key t, hmem, himm]
      rw [List.reverse_cons, List.reverse_cons, List.reverse_cons, List.append_assoc,
        List.map_append, List.map_append, ← List.append_assoc, ← List.append_assoc]
      exact (firstHit_append_congr _ (firstHit_compactEntries hab ha hb key t)).symm
  · cases hout with
    | kept _ hp' hm' _ => rw [hm', hp', hm, hp]
    | replaced hp' hm' _ => rw [hm', hp', hload hm]
  · cases hpoints n dc hdc with
    | old hm' hh => exact ⟨_, by rw [hm', hm, hp]; exact hh, fun key v => Iff.rfl⟩
    | new hm' hh => exact ⟨_, by rw [hm', hload hm]; exact hh, hsame⟩

/-- A store with the given tables. -/
def storeWith (tables : List (Bytes × Entries)) : KVStore :=
  { KVStore.new with sstablePaths := tables.map Prod.fst }

/-- The files of the given tables, and the manifest that lists them. -/
def diskWith (tables : List (Bytes × Entries)) : Disk where
  snapshot := none
  wal := none
  manifest := some (replaceSstables (tables.map Prod.fst))
  tables := Std.ExtTreeMap.ofList (tables.map fun t => (t.1, sstableBytes t.2))

/-- Two versions of a key. -/
def twoVersions (t t' : ℕ) : Entries :=
  pushRows ∅ [(text "a", ⟨t, some (text "x")⟩), (text "a", ⟨t', some (text "y")⟩)]

lemma versionsOf_twoVersions (t t' : ℕ) (key : Bytes) : versionsOf (twoVersions t t') key =
    if text "a" = key then [⟨t, some (text "x")⟩, ⟨t', some (text "y")⟩] else [] := by
  rw [twoVersions, versionsOf_pushRows]
  by_cases hk : text "a" = key
  · simp [versionsIn, versionsOf, hk]
  · simp [versionsIn, versionsOf, hk]

lemma rowOk_twoVersions {t t' : ℕ} (ht : t < 2 ^ 64) (ht' : t' < 2 ^ 64) :
    ∀ r ∈ rows (twoVersions t t'), RowOk r := by
  rintro ⟨key, v⟩ hr
  have hv := mem_rows.mp hr
  rw [versionsOf_twoVersions] at hv
  split at hv
  · next hk =>
    subst hk
    simp only [List.mem_cons, List.not_mem_nil, or_false] at hv
    obtain rfl | rfl := hv
    · exact ⟨(by decide : Word (text "a")), ht, by rintro x ⟨⟩; decide⟩
    · exact ⟨(by decide : Word (text "a")), ht', by rintro x ⟨⟩; decide⟩
  · simp at hv

/-- One table with two versions among empty ones. -/
lemma liveTables_twoVersions {paths : List Bytes} {d : Disk} {es : List Entries} {t t' : ℕ}
    (ht : t < 2 ^ 64) (ht' : t' < 2 ^ 64) (h : List.Forall₂ (HoldsEntries d) paths es)
    (hnd : paths.Nodup) (hes : ∃ n m, es = List.replicate n ∅ ++ twoVersions t t' ::
      List.replicate m ∅) : LiveTables paths d es := by
  obtain ⟨n, m, rfl⟩ := hes
  have hempty : ∀ e : Entries, Older e ∅ ∧ Older ∅ e := fun e =>
    ⟨fun key v hv w hw => by simp [versionsOf_empty] at hw, fun key v hv => by
      simp [versionsOf_empty] at hv⟩
  refine ⟨h, fun e he => ?_, hnd, ?_⟩
  · simp only [List.mem_append, List.mem_cons, List.mem_replicate] at he
    rcases he with ⟨-, rfl⟩ | rfl | ⟨-, rfl⟩
    · simp [rows]
    · exact rowOk_twoVersions ht ht'
    · simp [rows]
  · simp only [List.pairwise_append, List.pairwise_cons, List.pairwise_replicate, List.mem_cons,
      List.mem_replicate]
    refine ⟨Or.inr (hempty ∅).1, ⟨?_, Or.inr (hempty ∅).1⟩, ?_⟩
    · rintro e ⟨-, rfl⟩
      exact (hempty _).1
    · rintro e ⟨-, rfl⟩ e' -
      exact (hempty e').2

/-- Four tables of which the first has two versions. -/
def fourTables (t t' : ℕ) : List (Bytes × Entries) :=
  [(flushPath 0, twoVersions t t'), (flushPath 1, ∅), (flushPath 2, ∅), (flushPath 3, ∅)]

/-- Four tables of which the third has the name of a temporary file. -/
def temporaryTables : List (Bytes × Entries) :=
  [(flushPath 0, ∅), (flushPath 1, ∅), (compactedPath 0 ++ text ".tmp", twoVersions 1 2),
    (flushPath 2, ∅)]

lemma holds_diskWith {tables : List (Bytes × Entries)} (h : (tables.map Prod.fst).Nodup) :
    List.Forall₂ (HoldsEntries (diskWith tables)) (tables.map Prod.fst) (tables.map Prod.snd) := by
  rw [List.forall₂_map_left_iff, List.forall₂_map_right_iff, List.forall₂_same]
  intro x hx
  refine Std.ExtTreeMap.getElem?_ofList_of_mem Std.ReflCmp.compare_self ?_
    (List.mem_map.mpr ⟨x, hx, rfl⟩)
  rw [List.pairwise_map]
  refine (List.pairwise_map.mp h).imp fun {a b} hab hc => ?_
  exact hab (Std.LawfulEqCmp.eq_of_compare hc)

lemma liveTables_fourTables (t t' : ℕ) (ht : t < 2 ^ 64) (ht' : t' < 2 ^ 64) :
    LiveTables (storeWith (fourTables t t')).sstablePaths (diskWith (fourTables t t'))
      ((fourTables t t').map Prod.snd) ∧ NoTemporary (storeWith (fourTables t t')).sstablePaths := by
  have hpaths : (storeWith (fourTables t t')).sstablePaths = [0, 1, 2, 3].map flushPath := rfl
  constructor
  · have hnd : (storeWith (fourTables t t')).sstablePaths.Nodup := by
      rw [hpaths]
      decide
    exact liveTables_twoVersions ht ht' (holds_diskWith hnd) hnd ⟨0, 3, rfl⟩
  · intro id hm
    rw [hpaths] at hm
    obtain ⟨i, hi, he⟩ := List.mem_map.mp hm
    exact TablePath.ne_temp (n := i + 1) ⟨i, by omega, Or.inl rfl⟩ he

/-- **What compaction does not keep.** Of two versions of a key with one timestamp in one table the
reader takes the last and the compaction the first; and a table with the name of the temporary file
is overwritten and renamed, so that the manifest lists a file that is no longer there. -/
theorem compaction_drops_versions :
    (LiveTables (storeWith (fourTables 1 1)).sstablePaths (diskWith (fourTables 1 1))
        ((fourTables 1 1).map Prod.snd) ∧
      NoTemporary (storeWith (fourTables 1 1)).sstablePaths ∧
      (storeWith (fourTables 1 1)).readAt (diskWith (fourTables 1 1)) (text "a") 1 =
        some (text "y") ∧
      ((storeWith (fourTables 1 1)).maybeCompactSstables (diskWith (fourTables 1 1))
          CompactIo.ok).2.1.readAt ((storeWith (fourTables 1 1)).maybeCompactSstables
            (diskWith (fourTables 1 1)) CompactIo.ok).2.2 (text "a") 1 = some (text "x")) ∧
    LiveTables (storeWith temporaryTables).sstablePaths (diskWith temporaryTables)
        (temporaryTables.map Prod.snd) ∧
      SingleTimestamps (temporaryTables.map Prod.snd) ∧
      loadSstables (diskWith temporaryTables).manifest = (storeWith temporaryTables).sstablePaths ∧
      (storeWith temporaryTables).readAt (diskWith temporaryTables) (text "a") 2 =
        some (text "y") ∧
      ((storeWith temporaryTables).maybeCompactSstables (diskWith temporaryTables)
          CompactIo.ok).2.1.readAt ((storeWith temporaryTables).maybeCompactSstables
            (diskWith temporaryTables) CompactIo.ok).2.2 (text "a") 2 = none ∧
      ∃ p ∈ loadSstables ((storeWith temporaryTables).maybeCompactSstables
          (diskWith temporaryTables) CompactIo.ok).2.2.manifest,
        ((storeWith temporaryTables).maybeCompactSstables (diskWith temporaryTables)
          CompactIo.ok).2.2.tables[p]? = none := by
  obtain ⟨hlive, htemp⟩ := liveTables_fourTables 1 1 (by decide) (by decide)
  refine ⟨⟨hlive, htemp, by decide +kernel, ?_⟩,
    liveTables_twoVersions (by decide) (by decide) (holds_diskWith (by decide)) (by decide)
      ⟨2, 1, rfl⟩, ?_, by decide +kernel, by decide +kernel, by decide +kernel, ?_⟩
  · obtain ⟨output, -, -, -, hout⟩ := compaction_job (s := storeWith (fourTables 1 1)) hlive.holds
      hlive.rowOk hlive.nodup htemp rfl CompactIo.ok
    cases hout with
    | kept hio => exact absurd hio (by simp [kCompactionTrigger])
    | replaced hp hm hh =>
      have hrow : ∀ r ∈ rows (compactEntries (twoVersions 1 1) ∅), RowOk r :=
        rowOk_compactEntries (rowOk_twoVersions (by decide) (by decide)) (by simp [rows])
      -- the two versions are sorted already, and the second one is dropped
      have hv : versionsOf (compactEntries (twoVersions 1 1) ∅) (text "a") =
          [⟨1, some (text "x")⟩] := by
        rw [versionsOf_compactEntries, versionsOf_twoVersions, versionsOf_empty, if_pos rfl,
          List.append_nil, sortVersions, List.mergeSort_of_pairwise (by decide)]
        decide
      have hmem : ((storeWith (fourTables 1 1)).maybeCompactSstables (diskWith (fourTables 1 1))
          CompactIo.ok).2.1.memtable = MemTable.empty := by
        obtain ⟨_, _, _, _, hframe⟩ := KVStore.maybeCompactSstables_frame
          (storeWith (fourTables 1 1)) (diskWith (fourTables 1 1)) CompactIo.ok
        rw [hframe]
        rfl
      have himm : ((storeWith (fourTables 1 1)).maybeCompactSstables (diskWith (fourTables 1 1))
          CompactIo.ok).2.1.immutable = none := by
        obtain ⟨_, _, _, _, hframe⟩ := KVStore.maybeCompactSstables_frame
          (storeWith (fourTables 1 1)) (diskWith (fourTables 1 1)) CompactIo.ok
        rw [hframe]
        rfl
      rw [readAt_eq_newest (hp ▸ hh) (List.forall_mem_cons.mpr ⟨hrow, by simp [rows]⟩), hmem, himm]
      simp only [List.reverse_cons, List.reverse_nil, List.nil_append, List.cons_append,
        List.map_cons, List.map_nil, hv, versionsOf_empty]
      decide
  · intro e he key
    have he : e = ∅ := by simpa [temporaryTables] using he
    intro v hv
    simp [he, versionsOf_empty] at hv
  · exact ⟨compactedPath 0 ++ text ".tmp", by decide +kernel, by decide +kernel⟩

/-- Four tables are compacted and the newer version is still read. -/
theorem compaction_transparent_four : 4 ≤ (storeWith (fourTables 1 2)).sstablePaths.length ∧
    ((storeWith (fourTables 1 2)).maybeCompactSstables (diskWith (fourTables 1 2))
      CompactIo.ok).2.1.readAt ((storeWith (fourTables 1 2)).maybeCompactSstables
        (diskWith (fourTables 1 2)) CompactIo.ok).2.2 (text "a") 2 = some (text "y") := by
  obtain ⟨hlive, htemp⟩ := liveTables_fourTables 1 2 (by decide) (by decide)
  have hsingle : SingleTimestamps ((fourTables 1 2).map Prod.snd) := by
    intro e he key v hv w hw hvw
    have he : e = twoVersions 1 2 ∨ e = ∅ := by simpa [fourTables] using he
    rcases he with rfl | rfl
    · rw [versionsOf_twoVersions] at hv hw
      by_cases hk : text "a" = key
      · simp only [if_pos hk, List.mem_cons, List.not_mem_nil, or_false] at hv hw
        rcases hv with rfl | rfl <;> rcases hw with rfl | rfl <;> simp_all
      · simp [if_neg hk] at hv
    · simp [versionsOf_empty] at hv
  refine ⟨by decide, ?_⟩
  rw [(compaction_transparent hlive htemp hsingle CompactIo.ok).1]
  decide +kernel

end VeriStore.Store

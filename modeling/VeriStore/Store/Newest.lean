import VeriStore.Store.Compaction

/-!
Stores in which the last version of a key is its newest one.

The places of the versions are asked from the memtable to the first table, and within a place the
newest version answers. When the last version of each key, in the order of the places, is the
newest one, a read of the present finds it. This is less than the order of all versions that the
layers of a session from empty files have: the tables may have older versions than those behind
them in any order, and a version may be in several places.

* `stacking_current` — it holds along every run, and the map has the same version;
* `Stacked.getAt_eq` — a read of the present finds what the map has.
-/

namespace VeriStore.Store

open VeriStore.Lib VeriStore.Sstable VeriStore.Log

open KVStore (CompactIo)

/-! ### The property -/

/-- **The last version of each key is its newest one**, and the map has its value. -/
structure Current (_ : List Row) (map : Std.ExtTreeMap Bytes Bytes) (es : List Entries) : Prop where
  rowOk : ∀ e ∈ es, ∀ r ∈ rows e, RowOk r
  crowned : ∀ key, Crowned Version.timestamp (es.flatMap fun e => versionsOf e key)
  map : ∀ key : Bytes, map[key]? =
    (es.flatMap fun e => versionsOf e key).getLast?.bind Version.value

section Current

variable {ws ws' : List Row} {map : Std.ExtTreeMap Bytes Bytes} {es : List Entries}

lemma Current.fresh (h : Current ws map es) : Current ws map (es ++ [∅]) := by
  have hsame : ∀ key, ((es ++ [∅]).flatMap fun e => versionsOf e key) =
      es.flatMap fun e => versionsOf e key := fun key => by simp [versionsOf]
  refine ⟨fun e he r hr => ?_, fun key => by rw [hsame]; exact h.crowned key,
    fun key => by rw [hsame]; exact h.map key⟩
  rcases List.mem_append.mp he with he | he
  · exact h.rowOk e he r hr
  · rw [List.mem_singleton.mp he] at hr
    simp [rows] at hr

lemma Current.push {mem : Entries} {key : Bytes} {v : Version} (h : Current ws map (es ++ [mem]))
    (hr : RowOk (key, v)) (hv : ∀ e ∈ es ++ [mem], ∀ r ∈ rows e, r.2.timestamp < v.timestamp) :
    Current ws' (latest map (key, v)) (es ++ [pushVersion mem key v]) := by
  have hsame : ∀ k, ((es ++ [pushVersion mem key v]).flatMap fun e => versionsOf e k) =
      ((es ++ [mem]).flatMap fun e => versionsOf e k) ++ if key = k then [v] else [] := by
    intro k
    simp only [List.flatMap_append, List.flatMap_singleton, versionsOf_pushVersion, List.append_assoc]
    by_cases hk : key = k
    · simp [hk]
    · simp [hk]
  constructor
  case rowOk =>
    intro e he r hr'
    rcases List.mem_append.mp he with he | he
    · exact h.rowOk e (List.mem_append_left _ he) r hr'
    · rw [List.mem_singleton.mp he] at hr'
      rcases mem_rows_pushVersion.mp hr' with hr' | rfl
      · exact h.rowOk mem (by simp) r hr'
      · exact hr
  case crowned =>
    intro k
    rw [hsame]
    split
    · refine crowned_concat fun w hw => ?_
      obtain ⟨e, he, hwe⟩ := List.mem_flatMap.mp hw
      exact hv e he (k, w) (mem_rows.mpr hwe)
    · rw [List.append_nil]
      exact h.crowned k
  case map =>
    intro k
    rw [getElem?_latest, hsame]
    split
    · simp
    · rw [List.append_nil]
      exact h.map k

/-- **A merge** keeps the newest versions, and no other version becomes the last. -/
lemma Current.merged {a b : Entries} (h : Current ws map (a :: b :: es)) :
    compact [some (sstableBytes a), some (sstableBytes b)] =
      some (sstableBytes (compactEntries a b)) ∧ Current ws map (compactEntries a b :: es) := by
  have ha := h.rowOk a (by simp)
  have hb := h.rowOk b (by simp)
  have hlast : ∀ key, ((compactEntries a b :: es).flatMap fun e => versionsOf e key).getLast? =
      ((a :: b :: es).flatMap fun e => versionsOf e key).getLast? := by
    intro key
    have hc := h.crowned key
    simp only [List.flatMap_cons, versionsOf_compactEntries] at hc ⊢
    rw [← List.append_assoc] at hc ⊢
    rw [List.getLast?_append, List.getLast?_append]
    cases hes : es.flatMap fun e => versionsOf e key with
    | nil =>
      rw [hes, List.append_nil] at hc
      rw [getLast_sortVersions hc]
    | cons v vs =>
      obtain ⟨w, hw⟩ := Option.ne_none_iff_exists'.mp
        (mt List.getLast?_eq_none_iff.mp (List.cons_ne_nil v vs))
      rw [hw, Option.some_or, Option.some_or]
  refine ⟨compact_eq ha hb, ?_, fun key => ?_, fun key => by rw [hlast]; exact h.map key⟩
  · refine List.forall_mem_cons.mpr ⟨rowOk_compactEntries ha hb, fun e he => ?_⟩
    exact h.rowOk e (List.mem_cons_of_mem a (List.mem_cons_of_mem b he))
  · refine (h.crowned key).mono (fun v hv => ?_) (hlast key)
    simp only [List.flatMap_cons, List.mem_append] at hv ⊢
    rcases hv with hv | hv
    · rw [versionsOf_compactEntries] at hv
      exact (List.mem_append.mp (mem_of_mem_sortVersions hv)).imp_right Or.inl
    · exact Or.inr (Or.inr hv)

theorem stacking_current : Stacking Current compactEntries :=
  ⟨Current.fresh, Current.push, Current.merged, mem_rows_compactEntries⟩

end Current

/-! ### Reads of the present -/

/-- The places answer with the last version. -/
lemma firstHit_crowned {ls : List (List Version)} {t : ℕ} (ht : ∀ v ∈ ls.flatten, v.timestamp ≤ t)
    (hc : Crowned Version.timestamp ls.flatten) :
    KVStore.firstHit (ls.reverse.map fun vs => newestResult vs t) =
      ls.flatten.getLast?.bind Version.value := by
  induction ls using List.reverseRecOn with
  | nil => rfl
  | append_singleton ls vs ih =>
    rw [List.flatten_append, List.flatten_singleton] at ht hc ⊢
    rw [List.reverse_append, List.reverse_singleton, List.singleton_append, List.map_cons,
      List.getLast?_append]
    have hvs := hc.append_right.newestVisible_eq fun v hv => ht v (List.mem_append_right _ hv)
    cases hl : vs.getLast? with
    | none =>
      obtain rfl := List.getLast?_eq_none_iff.mp hl
      rw [List.append_nil] at ht hc
      exact ih ht hc
    | some v =>
      rw [newestResult, hvs, hl]
      cases hval : v.value <;> simp [Version.result, KVStore.firstHit, hval]

/-- **A read at a time that no version exceeds** finds what the map has. -/
lemma Current.readAt_eq {s : KVStore} {d : Disk} {es : List Entries} {ws : List Row}
    (h : Current ws s.map (es ++ [s.memtable.entries]))
    (himm : ∀ e, s.immutable = some e → e = ∅)
    (ht : List.Forall₂ (HoldsEntries d) s.sstablePaths es) {t : ℕ} (hlt : 2 ^ 64 ≤ t + 1)
    (key : Bytes) : s.readAt d key t = s.get key := by
  have hle : ∀ v ∈ (es ++ [s.memtable.entries]).flatMap fun e => versionsOf e key,
      v.timestamp ≤ t := by
    intro v hv
    obtain ⟨e, he, hve⟩ := List.mem_flatMap.mp hv
    have hv : v.timestamp < 2 ^ 64 := (h.rowOk e he (key, v) (mem_rows.mpr hve)).timestamp_lt
    omega
  have hc := h.crowned key
  have hmem : s.memtable.getAt key t = newestResult (versionsOf s.memtable.entries key) t := by
    rw [List.flatMap_append, List.flatMap_singleton] at hc hle
    have hlem : ∀ v ∈ versionsOf s.memtable.entries key, v.timestamp ≤ t := fun v hv =>
      hle v (List.mem_append_right _ hv)
    rw [MemTable.getAt, lookupEntries_eq_lastVisible, lastVisible_of_forall hlem, newestResult,
      hc.append_right.newestVisible_eq hlem]
  have hskip : ∀ rs, KVStore.firstHit ((s.memtable.getAt key t ::
      s.immutable.toList.map (lookupEntries · key t)) ++ rs) =
        KVStore.firstHit (s.memtable.getAt key t :: rs) := by
    intro rs
    cases hi : s.immutable with
    | none => rfl
    | some e =>
      obtain rfl := himm e hi
      have hempty : lookupEntries ∅ key t = .notFound := by simp [lookupEntries_eq, versionsOf]
      cases s.memtable.getAt key t <;> simp [KVStore.firstHit, hempty]
  rw [List.flatMap_def] at hle hc
  have hall := firstHit_crowned hle hc
  rw [readAt_eq_newest ht (fun e he => h.rowOk e (List.mem_append_left _ he)), hskip, KVStore.get,
    h.map, List.flatMap_def, ← hall, hmem]
  simp [List.map_reverse, Function.comp_def]

/-- **A compaction keeps the newest versions**, whichever of its steps fail. -/
lemma Current.compacted {s : KVStore} {d : Disk} {es : List Entries} {ws : List Row}
    (h : Current ws s.map (es ++ [s.memtable.entries]))
    (ht : List.Forall₂ (HoldsEntries d) s.sstablePaths es) (hnd : s.sstablePaths.Nodup)
    (htemp : NoTemporary s.sstablePaths) (io : CompactIo) :
    ∃ es', List.Forall₂ (HoldsEntries (s.maybeCompactSstables d io).2.2)
        (s.maybeCompactSstables d io).2.1.sstablePaths es' ∧
      Current ws s.map (es' ++ [s.memtable.entries]) := by
  match hp : s.sstablePaths with
  | [] | [p] =>
    have hsame : (s.maybeCompactSstables d io).2 = (s, d) := by
      simp [KVStore.maybeCompactSstables, hp, kCompactionTrigger]
    rw [hsame]
    exact ⟨es, ht, h⟩
  | first :: second :: rest =>
    rw [hp] at ht hnd htemp
    obtain ⟨a, es₁, -, h₁, rfl⟩ := List.forall₂_cons_left_iff.mp ht
    obtain ⟨b, es₂, -, h₂, rfl⟩ := List.forall₂_cons_left_iff.mp h₁
    obtain ⟨output, -, -, -, hout⟩ := compaction_job ht
      (fun e he => h.rowOk e (List.mem_append_left _ he)) hnd htemp hp io
    cases hout with
    | kept _ hp' _ hh => exact ⟨_, hp' ▸ hh, h⟩
    | replaced hp' _ hh => exact ⟨_, hp' ▸ hh, (Current.merged h).2⟩

/-- **A read of the present while the worker holds no task** finds what the map has. -/
theorem Stacked.getAt_eq {σ : Process} {tabs : List Entries} {fl : Option FlushTask}
    (h : Stacked Current compactEntries σ tabs fl) (hheld : σ.store.flushWorker.held = []) {t : ℕ}
    (hlt : 2 ^ 64 ≤ t + 1) (key : Bytes) (io : CompactIo) :
    (σ.store.getAt σ.disk key t io).1 = σ.store.get key := by
  rcases h.flush.of_held hheld with ⟨rfl, hc⟩ | ⟨f, rfl, hc, hfile⟩
  · have himm : σ.store.immutable = none := h.immutable
    have hcur := h.versions
    simp only [parts, Option.toList_none, List.map_nil, List.append_nil] at hcur
    rw [KVStore.getAt_of_nil hc, hcur.readAt_eq (by simp [himm]) h.tables hlt]
  set s : KVStore := { σ.store with
    sstablePaths := σ.store.sstablePaths ++ [f.sstablePath]
    immutable := none
    flushWorker := { σ.store.flushWorker with completions := [] } } with hs
  have hcur : Current σ.written s.map ((tabs ++ [f.entries]) ++ [s.memtable.entries]) := by
    have hv := h.versions
    simpa [parts] using hv
  have htemp : NoTemporary s.sstablePaths := fun id hm =>
    (h.named (compactedPath id ++ text ".tmp") hm).ne_temp rfl
  obtain ⟨es', ht', hcur'⟩ := hcur.compacted (List.rel_append h.tables (.cons hfile .nil))
    (by simpa [pathsWith] using h.nodup) htemp io
  obtain ⟨paths', n', m', tb', hframe⟩ := KVStore.maybeCompactSstables_frame s σ.disk io
  rw [KVStore.getAt, h.drain_completed hc]
  rw [hframe] at ht' ⊢
  exact Current.readAt_eq (s := { s with sstablePaths := paths', nextSstableId := n' }) hcur'
    (by simp [hs]) ht' hlt key

end VeriStore.Store

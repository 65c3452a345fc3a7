import Mathlib.Data.List.Destutter
import VeriStore.Sstable.Reader

/-!
Compaction of two tables of which the first is older.

The versions of each key in the output are those of the first input followed by those of the
second one (`mergeEntries`), sorted, and without equal timestamps (`compactEntries`). Where they
are in order already, nothing changes (`compact_bytes`); where a timestamp belongs to one version,
no version is lost (`mem_sortVersions`).
-/

namespace VeriStore.Sstable

open VeriStore.Lib VeriStore.Store

/-- All versions of the first entries are older than all versions of the second ones. -/
def Before (a b : Entries) : Prop :=
  ∀ r ∈ rows a, ∀ r' ∈ rows b, r.2.timestamp < r'.2.timestamp

/-- The versions of the first entries, then those of the second ones. -/
def mergeEntries (a b : Entries) : Entries := pushRows a (rows b)

lemma versionsOf_mergeEntries (a b : Entries) (key : Bytes) :
    versionsOf (mergeEntries a b) key = versionsOf a key ++ versionsOf b key := by
  rw [mergeEntries, versionsOf_pushRows, versionsIn_rows]

lemma mem_rows_mergeEntries {a b : Entries} {r : Row} :
    r ∈ rows (mergeEntries a b) ↔ r ∈ rows a ∨ r ∈ rows b := by
  obtain ⟨key, v⟩ := r
  rw [mem_rows, versionsOf_mergeEntries, List.mem_append, mem_rows, mem_rows]

lemma EntriesOk.merge {a b : Entries} (ha : EntriesOk a) (hb : EntriesOk b) (hab : Before a b) :
    EntriesOk (mergeEntries a b) where
  noEmpty := ha.noEmpty.pushRows _
  rowOk r hr := by
    rcases mem_rows_mergeEntries.mp hr with hr | hr
    · exact ha.rowOk r hr
    · exact hb.rowOk r hr
  ordered key := by
    rw [versionsOf_mergeEntries, Ascending, List.pairwise_append]
    refine ⟨ha.ordered key, hb.ordered key, fun v hv w hw => ?_⟩
    exact hab (key, v) (mem_rows.mpr hv) (key, w) (mem_rows.mpr hw)

/-- Versions in order are left as they are. -/
lemma uniqueTimestamps_mergeSort {vs : List Version}
    (h : Ascending Version.timestamp vs) :
    uniqueTimestamps (vs.mergeSort timestampLe) = vs := by
  have hle : vs.Pairwise fun v w => timestampLe v w = true :=
    h.imp fun {v w} hvw => by simpa [timestampLe] using hvw.le
  rw [List.mergeSort_of_pairwise hle, uniqueTimestamps]
  exact List.destutter_of_isChain _ _ (h.imp fun {v w} hvw => hvw.ne).isChain

/-! ### Sorting -/

/-- The versions of a key in the output. -/
def sortVersions (vs : List Version) : List Version := uniqueTimestamps (vs.mergeSort timestampLe)

lemma mem_of_mem_sortVersions {vs : List Version} {v : Version} (h : v ∈ sortVersions vs) :
    v ∈ vs :=
  (List.mergeSort_perm vs timestampLe).mem_iff.mp ((List.destutter_sublist _ _).subset h)

/-- The removal of equal timestamps loses no version where a timestamp belongs to one version. -/
lemma mem_uniqueTimestamps {vs : List Version} (h : Consistent Version.timestamp vs) (v : Version) :
    v ∈ uniqueTimestamps vs ↔ v ∈ vs := by
  have hdrop : ∀ (l : List Version) (a : Version), Consistent Version.timestamp (a :: l) →
      (v ∈ List.destutter' (fun a b => a.timestamp ≠ b.timestamp) a l ↔ v ∈ a :: l) := by
    intro l
    induction l with
    | nil => intro a _; simp
    | cons b l ih =>
      intro a hc
      rw [List.destutter'_cons]
      split
      · rw [List.mem_cons,
          ih b fun x hx y hy => hc x (List.mem_cons_of_mem a hx) y (List.mem_cons_of_mem a hy)]
        simp
      · next hab =>
        obtain rfl : a = b := hc a (by simp) b (by simp) (not_not.mp hab)
        rw [ih a fun x hx y hy => hc x (List.mem_cons_of_mem a hx) y (List.mem_cons_of_mem a hy)]
        simp
  cases vs with
  | nil => simp [uniqueTimestamps]
  | cons a l => exact hdrop l a h

/-- **No version is lost** where a timestamp belongs to one version. -/
lemma mem_sortVersions {vs : List Version} (h : Consistent Version.timestamp vs) (v : Version) :
    v ∈ sortVersions vs ↔ v ∈ vs := by
  have hperm := List.mergeSort_perm vs timestampLe
  have hsort : Consistent Version.timestamp (vs.mergeSort timestampLe) := fun x hx y hy =>
    h x (hperm.mem_iff.mp hx) y (hperm.mem_iff.mp hy)
  rw [sortVersions, mem_uniqueTimestamps hsort, hperm.mem_iff]

/-- The removal of equal timestamps keeps the timestamp of the last version. -/
lemma getLast_uniqueTimestamps (vs : List Version) :
    (uniqueTimestamps vs).getLast?.map Version.timestamp = vs.getLast?.map Version.timestamp := by
  have hdrop : ∀ (l : List Version) (a : Version),
      ((l.destutter' (fun a b => a.timestamp ≠ b.timestamp) a).getLast?.map Version.timestamp) =
        (a :: l).getLast?.map Version.timestamp := by
    intro l
    induction l with
    | nil => intro a; rfl
    | cons b l ih =>
      intro a
      rw [List.destutter'_cons]
      split
      · have hb := ih b
        cases hd : l.destutter' (fun a b => a.timestamp ≠ b.timestamp) b with
        | nil => exact absurd hd (List.destutter'_ne_nil _ _)
        | cons c m =>
          rw [hd] at hb
          simpa only [List.getLast?_cons_cons] using hb
      · next hab =>
        rw [ih a]
        cases l with
        | nil => simpa using hab
        | cons c m => simp only [List.getLast?_cons_cons]
  cases vs with
  | nil => rfl
  | cons a l => exact hdrop l a

lemma pairwise_mergeSort (vs : List Version) :
    (vs.mergeSort timestampLe).Pairwise fun a b => timestampLe a b = true := by
  refine List.pairwise_mergeSort (fun a b c hab hbc => ?_) (fun a b => ?_) vs
  · simp only [timestampLe, decide_eq_true_eq] at hab hbc ⊢
    exact hab.trans hbc
  · simpa [timestampLe] using le_total a.timestamp b.timestamp

/-- The last of the sorted versions is as new as all of them. -/
lemma le_getLast_mergeSort {vs : List Version} {u w : Version}
    (hu : (vs.mergeSort timestampLe).getLast? = some u) (hw : w ∈ vs) :
    w.timestamp ≤ u.timestamp := by
  have hsorted := pairwise_mergeSort vs
  have hmem : w ∈ vs.mergeSort timestampLe := (List.mergeSort_perm vs timestampLe).mem_iff.mpr hw
  obtain ⟨s, hs⟩ := List.getLast?_eq_some_iff.mp hu
  rw [hs] at hmem hsorted
  rcases List.mem_append.mp hmem with hm | hm
  · simpa [timestampLe] using (List.pairwise_append.mp hsorted).2.2 w hm u (by simp)
  · rw [List.mem_singleton.mp hm]

/-- **The newest version stays the last** where it was the last. -/
lemma getLast_sortVersions {vs : List Version} (h : Crowned Version.timestamp vs) :
    (sortVersions vs).getLast? = vs.getLast? := by
  have hkeep := getLast_uniqueTimestamps (vs.mergeSort timestampLe)
  cases hw : vs.getLast? with
  | none =>
    obtain rfl := List.getLast?_eq_none_iff.mp hw
    simp [sortVersions, uniqueTimestamps]
  | some w =>
    have hwm : w ∈ vs := List.mem_of_getLast? hw
    cases hu : (vs.mergeSort timestampLe).getLast? with
    | none =>
      have hnil := List.getLast?_eq_none_iff.mp hu
      have := (List.mergeSort_perm vs timestampLe).mem_iff.mpr hwm
      simp [hnil] at this
    | some u =>
      have hum : u ∈ vs := (List.mergeSort_perm vs timestampLe).mem_iff.mp (List.mem_of_getLast? hu)
      obtain rfl : u = w := (h u hum w hw).resolve_right (not_lt.mpr (le_getLast_mergeSort hu hwm))
      rw [hu] at hkeep
      obtain ⟨x, hx, hxu⟩ := Option.map_eq_some_iff.mp hkeep
      have hxm : x ∈ vs := mem_of_mem_sortVersions (List.mem_of_getLast? hx)
      rw [sortVersions, hx, (h x hxm u hw).resolve_right hxu.not_lt]

/-- The entries of the output of a compaction. -/
def compactEntries (a b : Entries) : Entries :=
  (pushRows (pushRows ∅ (rows a)) (rows b)).map fun _ vs => sortVersions vs

/-- The versions of a key after a change of all lists that keeps the empty one. -/
lemma versionsOf_map {f : List Version → List Version} (hf : f [] = []) (m : Entries) (key : Bytes) :
    versionsOf (m.map fun _ vs => f vs) key = f (versionsOf m key) := by
  rw [versionsOf, Std.ExtTreeMap.getElem?_map, versionsOf]
  cases m[key]? with
  | none => exact hf.symm
  | some vs => rfl

@[simp] lemma sortVersions_nil : sortVersions [] = [] := by simp [sortVersions, uniqueTimestamps]

lemma versionsOf_compactEntries (a b : Entries) (key : Bytes) :
    versionsOf (compactEntries a b) key = sortVersions (versionsOf a key ++ versionsOf b key) := by
  rw [compactEntries, versionsOf_map sortVersions_nil, versionsOf_pushRows, versionsOf_pushRows, versionsIn_rows,
    versionsIn_rows]
  simp [versionsOf]

lemma mem_rows_compactEntries {a b : Entries} {r : Row} (h : r ∈ rows (compactEntries a b)) :
    r ∈ rows a ∨ r ∈ rows b := by
  obtain ⟨key, v⟩ := r
  have hv := mem_rows.mp h
  rw [versionsOf_compactEntries] at hv
  exact (List.mem_append.mp (mem_of_mem_sortVersions hv)).imp mem_rows.mpr mem_rows.mpr

lemma rowOk_compactEntries {a b : Entries} (ha : ∀ r ∈ rows a, RowOk r)
    (hb : ∀ r ∈ rows b, RowOk r) : ∀ r ∈ rows (compactEntries a b), RowOk r := fun r hr =>
  (mem_rows_compactEntries hr).elim (ha r) (hb r)

/-- **What a compaction writes.** -/
lemma compact_eq {a b : Entries} (ha : ∀ r ∈ rows a, RowOk r) (hb : ∀ r ∈ rows b, RowOk r) :
    compact [some (sstableBytes a), some (sstableBytes b)] =
      some (sstableBytes (compactEntries a b)) := by
  unfold compact compactWith
  rw [if_neg (by simp)]
  simp only [List.foldlM_cons, List.foldlM_nil, loadSstable_sstableBytes ha,
    loadSstable_sstableBytes hb, Option.bind_eq_bind, Option.bind_some, Option.pure_def]
  rfl

/-- **Compaction concatenates.** -/
theorem compact_bytes {a b : Entries} (ha : EntriesOk a) (hb : EntriesOk b) (hab : Before a b) :
    compact [some (sstableBytes a), some (sstableBytes b)] =
      some (sstableBytes (mergeEntries a b)) := by
  have hm := ha.merge hb hab
  have hload : [some (sstableBytes a), some (sstableBytes b)].foldlM
      (fun m f => loadSstable f m) (∅ : Entries) = some (mergeEntries a b) := by
    simp only [List.foldlM_cons, List.foldlM_nil, ha.loadSstable, hb.loadSstable,
      pushRows_rows ha.noEmpty, Option.bind_eq_bind, Option.bind_some, Option.pure_def]
    rfl
  have hmap : (mergeEntries a b).map (fun _ vs => uniqueTimestamps (vs.mergeSort timestampLe)) =
      mergeEntries a b := by
    refine Std.ExtTreeMap.ext_getElem? fun key => ?_
    rw [Std.ExtTreeMap.getElem?_map]
    cases hk : (mergeEntries a b)[key]? with
    | none => rfl
    | some vs =>
      have hvs : versionsOf (mergeEntries a b) key = vs := by simp [versionsOf, hk]
      rw [Option.map_some, uniqueTimestamps_mergeSort (hvs ▸ hm.ordered key)]
  unfold compact compactWith
  rw [if_neg (by simp), hload]
  simp only [Option.bind_eq_bind, Option.bind_some, Option.pure_def, hmap]

end VeriStore.Sstable

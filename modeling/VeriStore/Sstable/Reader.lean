import VeriStore.Sstable.Format
import VeriStore.Sstable.Bloom
import VeriStore.Sstable.Index

/-!
A lookup in a table finds what the entries hold.

Three shortcuts of the reader are shown to lose nothing: the Bloom filter lets every stored key
pass (`buildBloomFilter_contains`), the sparse index gives an offset at which a line begins and
before which the key does not occur (`findStartOffset_skips`), and the scan stops at the first larger
key (`scanLines_eq_fullScan`).

* `getAt_rows` — a lookup is a scan of the whole file;
* `EntriesOk.tableGetAt` — a lookup in the file of a table is the lookup in its entries.
-/

namespace VeriStore.Sstable

open VeriStore.Lib VeriStore.Store

/-! ### The Bloom filter -/

/-- The filter of a file takes in the keys of its rows. -/
lemma buildBloomFilter_rows {rs : List Row} (hok : ∀ r ∈ rs, RowOk r) (f : BloomFilter) :
    buildBloomFilter f (rowsBytes rs) = f.addAll (rs.map (·.1)) := by
  unfold buildBloomFilter
  rw [lines_rowsBytes hok]
  induction rs generalizing f with
  | nil => rfl
  | cons r rs ih =>
    obtain ⟨rest, hx⟩ := extractString_rowText (hok r (by simp))
    rw [List.map_cons, List.foldl_cons, hx]
    exact ih (fun x hx => hok x (List.mem_cons_of_mem r hx)) (f.add r.1)

/-- **Every key of the file passes the filter.** -/
lemma buildBloomFilter_contains {rs : List Row} (hok : ∀ r ∈ rs, RowOk r) {f : BloomFilter}
    (hf : f.Fits) {r : Row} (hr : r ∈ rs) :
    (buildBloomFilter f (rowsBytes rs)).possiblyContains r.1 = true := by
  rw [buildBloomFilter_rows hok]
  exact hf.possiblyContains_addAll _ (Or.inr (List.mem_map_of_mem hr))

/-! ### The sparse index -/

/-- The rows come in the order of their keys. -/
def KeySorted (rs : List Row) : Prop := rs.Pairwise fun a b => (compare a.1 b.1).isLE = true

lemma ne_of_compare_ne {a b : Bytes} (h : compare a b ≠ .eq) : a ≠ b := by
  rintro rfl
  exact h Std.ReflCmp.compare_self

lemma tableRecordsFrom_row {r : Row} (hr : RowOk r) (off : ℕ) (ls : List Bytes) :
    tableRecordsFrom off (rowText r.1 r.2 :: ls) =
      ⟨off, r.1⟩ :: tableRecordsFrom (off + (rowText r.1 r.2).length + 1) ls := by
  obtain ⟨rest, hx⟩ := extractString_rowText hr
  rw [tableRecordsFrom, hx]

/-- The records of a file of rows have the keys of the rows. -/
lemma tableRecordsFrom_rows {rs : List Row} (hok : ∀ r ∈ rs, RowOk r) (off : ℕ) :
    (tableRecordsFrom off (rs.map fun r => rowText r.1 r.2)).map (·.key) = rs.map (·.1) := by
  induction rs generalizing off with
  | nil => rfl
  | cons r rs ih =>
    rw [List.map_cons, tableRecordsFrom_row (hok r (by simp)), List.map_cons, List.map_cons,
      ih fun x hx => hok x (List.mem_cons_of_mem r hx)]

/-- A record and those in front of it belong to rows. -/
lemma tableRecordsFrom_rows_split {rs : List Row} (hok : ∀ r ∈ rs, RowOk r) {off : ℕ}
    {front : List TableRecord} {x : TableRecord} {back : List TableRecord}
    (h : tableRecordsFrom off (rs.map fun r => rowText r.1 r.2) = front ++ x :: back) :
    ∃ pre suf, rs = pre ++ suf ∧ x.offset = off + (rowsBytes pre).length ∧
      front.map (·.key) = pre.map (·.1) := by
  induction front generalizing rs off with
  | nil =>
    refine ⟨[], rs, rfl, ?_, rfl⟩
    cases rs with
    | nil => simp [tableRecordsFrom] at h
    | cons r rs =>
      rw [List.map_cons, tableRecordsFrom_row (hok r (by simp))] at h
      rw [← (List.cons.inj h).1]
      rfl
  | cons y front ih =>
    cases rs with
    | nil => simp [tableRecordsFrom] at h
    | cons r rs =>
      rw [List.map_cons, tableRecordsFrom_row (hok r (by simp))] at h
      obtain ⟨hy, htail⟩ := List.cons.inj h
      obtain ⟨pre, suf, rfl, hoff, hkeys⟩ :=
        ih (fun x hx => hok x (List.mem_cons_of_mem r hx)) htail
      refine ⟨r :: pre, suf, rfl, ?_, ?_⟩
      · rw [hoff, rowsBytes_cons, List.length_append, List.length_cons]
        omega
      · rw [List.map_cons, List.map_cons, hkeys, ← hy]

lemma KeySorted.records {rs : List Row} (hs : KeySorted rs) (hok : ∀ r ∈ rs, RowOk r) :
    RecordsSorted (tableRecords (rowsBytes rs)) := by
  have hkeys := tableRecordsFrom_rows hok 0
  rw [← lines_rowsBytes hok] at hkeys
  have hsorted : (rs.map (·.1)).Pairwise fun a b => (compare a b).isLE = true := List.pairwise_map.mpr hs
  rw [← hkeys] at hsorted
  exact List.pairwise_map.mp hsorted

/-- **The scan begins at a row before which the key does not occur.** -/
lemma findStartOffset_skips {rs : List Row} (hok : ∀ r ∈ rs, RowOk r) (hs : KeySorted rs)
    (stride : ℕ) (key : Bytes) :
    ∃ pre suf, rs = pre ++ suf ∧
      (findStartOffset (buildIndex stride (rowsBytes rs)) key).getD 0 = (rowsBytes pre).length ∧
      ∀ r ∈ pre, r.1 ≠ key := by
  cases hstart : findStartOffset (buildIndex stride (rowsBytes rs)) key with
  | none => exact ⟨[], rs, rfl, rfl, by simp⟩
  | some off =>
    obtain ⟨front, x, back, hrecords, rfl, hlt, hgroup⟩ :=
      findStartOffset_records (hs.records hok) hstart
    have hne := ne_of_smaller hlt hgroup
    unfold tableRecords at hrecords
    rw [lines_rowsBytes hok] at hrecords
    obtain ⟨pre, suf, rfl, hoff, hkeys⟩ := tableRecordsFrom_rows_split hok hrecords
    refine ⟨pre, suf, rfl, by rw [Option.getD_some, hoff, Nat.zero_add], fun r hr hrk => ?_⟩
    obtain ⟨y, hy, hyr⟩ := List.mem_map.mp (hkeys ▸ List.mem_map_of_mem hr)
    exact hne y hy (hyr.trans hrk)

/-! ### The scan -/

lemma versionsIn_eq_nil {rs : List Row} {key : Bytes} (h : ∀ r ∈ rs, r.1 ≠ key) :
    versionsIn rs key = [] := by
  simp only [versionsIn, List.map_eq_nil_iff, List.filter_eq_nil_iff, decide_eq_true_eq]
  exact h

/-- A scan of all lines that does not stop at a larger key. -/
def fullScan (key : Bytes) (readTimestamp : ℕ) : List Bytes → ScanState → LookupResult
  | [], st => st.best
  | line :: ls, st =>
    if line = [] then fullScan key readTimestamp ls st
    else
      match parseRow line with
      | none => fullScan key readTimestamp ls st
      | some (storedKey, timestamp, type, rest) =>
        if storedKey = key ∧ timestamp ≤ readTimestamp ∧
            (!st.found || st.bestTimestamp ≤ timestamp) then
          fullScan key readTimestamp ls
            { best := if type = letterP then .value (skipWs rest)
                else if type = letterD then .tombstone else st.best
              bestTimestamp := timestamp
              found := true }
        else fullScan key readTimestamp ls st

/-- The variables of the scan hold the best version so far. -/
def ScanState.Holds (st : ScanState) : Option Version → Prop
  | none => st.found = false ∧ st.best = .notFound
  | some b => st.found = true ∧ st.bestTimestamp = b.timestamp ∧ st.best = b.result

lemma ScanState.Holds.best_eq {st : ScanState} {best : Option Version} (h : st.Holds best) :
    st.best = (best.map Version.result).getD .notFound := by
  cases best with
  | none => exact h.2
  | some b => exact h.2.2

/-- The version of a row takes the place of one that is not newer. -/
lemma ScanState.Holds.newer_iff {st : ScanState} {best : Option Version} (h : st.Holds best)
    (v : Version) : (!st.found || st.bestTimestamp ≤ v.timestamp) = true ↔
      ∀ b ∈ best, b.timestamp ≤ v.timestamp := by
  cases best with
  | none => simp [h.1]
  | some b =>
    obtain ⟨h1, h2, -⟩ := h
    simp [h1, h2]

lemma RowOk.result_eq {r : Row} (h : RowOk r) (d : LookupResult) :
    (if (rowType r.2).1 = letterP then LookupResult.value (skipWs (rowType r.2).2)
      else if (rowType r.2).1 = letterD then .tombstone else d) = r.2.result := by
  unfold rowType Version.result
  cases hx : r.2.value with
  | none => simp [letterD, letterP]
  | some x => simp [h.skipWs_value hx]

/-- **A scan of all rows finds the newest visible version of the key.** -/
lemma fullScan_rows {rs : List Row} (hok : ∀ r ∈ rs, RowOk r) (key : Bytes) (t : ℕ)
    {st : ScanState} {best : Option Version} (hst : st.Holds best) :
    fullScan key t (rs.map fun r => rowText r.1 r.2) st =
      (((versionsIn rs key).foldl (better Version.timestamp t) best).map Version.result).getD
        .notFound := by
  induction rs generalizing st best with
  | nil => exact hst.best_eq
  | cons r rs ih =>
    have hr := hok r (by simp)
    have hok' : ∀ x ∈ rs, RowOk x := fun x hx => hok x (List.mem_cons_of_mem r hx)
    rw [List.map_cons, fullScan, if_neg (rowText_ne_nil r.1 r.2), parseRow_rowText hr]
    by_cases hk : r.1 = key
    · have hv : versionsIn (r :: rs) key = r.2 :: versionsIn rs key := by simp [versionsIn, hk]
      rw [hv, List.foldl_cons, better]
      simp only [hk, true_and, hst.newer_iff r.2]
      split
      · exact ih hok' ⟨rfl, rfl, hr.result_eq st.best⟩
      · exact ih hok' hst
    · have hv : versionsIn (r :: rs) key = versionsIn rs key := by simp [versionsIn, hk]
      rw [hv]
      simp only [hk, false_and, if_false]
      exact ih hok' hst

/-- **Stopping at the first larger key loses nothing.** -/
lemma scanLines_eq_fullScan {rs : List Row} (hok : ∀ r ∈ rs, RowOk r) (hs : KeySorted rs)
    (key : Bytes) (t : ℕ) (st : ScanState) :
    scanLines key t (rs.map fun r => rowText r.1 r.2) st =
      fullScan key t (rs.map fun r => rowText r.1 r.2) st := by
  have hskip : ∀ (rs : List Row), (∀ r ∈ rs, RowOk r) → (∀ r ∈ rs, r.1 ≠ key) → ∀ st : ScanState,
      fullScan key t (rs.map fun r => rowText r.1 r.2) st = st.best := by
    intro rs hok hne st
    induction rs with
    | nil => rfl
    | cons r rs ih =>
      rw [List.map_cons, fullScan, if_neg (rowText_ne_nil r.1 r.2),
        parseRow_rowText (hok r (by simp))]
      simp only [hne r (by simp), false_and, if_false]
      exact ih (fun x hx => hok x (List.mem_cons_of_mem r hx))
        fun x hx => hne x (List.mem_cons_of_mem r hx)
  induction rs generalizing st with
  | nil => rfl
  | cons r rs ih =>
    have hr := hok r (by simp)
    have hok' : ∀ x ∈ rs, RowOk x := fun x hx => hok x (List.mem_cons_of_mem r hx)
    obtain ⟨hle, hs'⟩ := List.pairwise_cons.mp hs
    rw [List.map_cons, scanLines, fullScan, if_neg (rowText_ne_nil r.1 r.2),
      if_neg (rowText_ne_nil r.1 r.2), parseRow_rowText hr]
    cases hc : compare r.1 key with
    | gt =>
      -- all later keys are larger
      have hne : r.1 ≠ key := ne_of_compare_ne (by simp [hc])
      simp only [hc, hne, false_and, if_false]
      refine (hskip rs hok' (fun x hx => ne_of_compare_ne ?_) st).symm
      have := Std.TransCmp.gt_of_isGE_of_gt (Std.OrientedCmp.isGE_iff_isLE.mpr (hle x hx)) hc
      simp [this]
    | lt =>
      have hne : r.1 ≠ key := ne_of_compare_ne (by simp [hc])
      simp only [hc, hne, false_and, if_false]
      exact ih hok' hs' st
    | eq =>
      have hkey : r.1 = key := Std.LawfulEqCmp.eq_of_compare hc
      simp only [hc]
      simp only [hkey, true_and]
      split
      · exact ih hok' hs' _
      · exact ih hok' hs' st

/-! ### Lookups -/

lemma rows_sorted (entries : Entries) : KeySorted (rows entries) := by
  unfold KeySorted rows
  rw [List.pairwise_flatMap]
  refine ⟨fun e _ => ?_, ?_⟩
  · rw [List.pairwise_map]
    exact List.pairwise_of_forall fun _ _ => by simp [Std.ReflCmp.compare_self]
  · refine (Std.ExtTreeMap.ordered_keys_toList (t := entries)).imp fun {a b} hab => ?_
    simp only [List.mem_map]
    rintro x ⟨v, -, rfl⟩ y ⟨w, -, rfl⟩
    simp [hab]

lemma lookupEntries_eq_lastVisible (entries : Entries) (key : Bytes) (t : ℕ) :
    lookupEntries entries key t =
      ((lastVisible Version.timestamp (versionsOf entries key) t).map Version.result).getD .notFound := by
  rw [lookupEntries_eq, lastVisible]
  cases (versionsOf entries key).reverse.find? fun v => v.timestamp ≤ t <;> rfl

/-- **A lookup in a file of rows** is a scan of all its lines. -/
lemma getAt_rows {rs : List Row} (hok : ∀ r ∈ rs, RowOk r) (hs : KeySorted rs) (stride : ℕ)
    {bloomBits : ℕ} (hbits : bloomBits ≤ 2 ^ 64 - 8) (bloomHashes : ℕ) (key : Bytes) (t : ℕ) :
    (SSTableReader.new (some (rowsBytes rs)) stride bloomBits bloomHashes).getAt key t =
      fullScan key t (lines (rowsBytes rs)) ⟨.notFound, 0, false⟩ := by
  have hzero : ScanState.Holds ⟨.notFound, 0, false⟩ none := ⟨rfl, rfl⟩
  unfold SSTableReader.getAt SSTableReader.new
  rw [lines_rowsBytes hok, fullScan_rows hok key t hzero]
  simp only [Option.getD_some]
  split
  · obtain ⟨pre, suf, hrs, hoff, hpre⟩ := findStartOffset_skips hok hs stride key
    rw [hoff]
    subst hrs
    have hok' : ∀ r ∈ suf, RowOk r := fun r hr => hok r (List.mem_append_right pre hr)
    have hv : versionsIn (pre ++ suf) key = versionsIn suf key := by
      rw [versionsIn_append, versionsIn_eq_nil hpre, List.nil_append]
    rw [hv, rowsBytes_append, List.drop_left, lines_rowsBytes hok',
      scanLines_eq_fullScan hok' (List.pairwise_append.mp hs).2.1, fullScan_rows hok' key t hzero]
  · -- a key that does not pass the filter is not in the table
    next hbloom =>
    have hnil : versionsIn rs key = [] := by
      refine versionsIn_eq_nil fun r hr hrk => hbloom ?_
      rw [← hrk]
      exact buildBloomFilter_contains hok (BloomFilter.fits_new hbits bloomHashes) hr
    rw [hnil]
    rfl

/-- **A lookup in a table** finds the newest visible version of the key. -/
lemma getAt_sstableBytes {entries : Entries} (h : ∀ r ∈ rows entries, RowOk r) (stride : ℕ)
    {bloomBits : ℕ} (hbits : bloomBits ≤ 2 ^ 64 - 8) (bloomHashes : ℕ) (key : Bytes) (t : ℕ) :
    (SSTableReader.new (some (sstableBytes entries)) stride bloomBits bloomHashes).getAt key t =
      ((newestVisible Version.timestamp (versionsOf entries key) t).map Version.result).getD
        .notFound := by
  have hzero : ScanState.Holds ⟨.notFound, 0, false⟩ none := ⟨rfl, rfl⟩
  rw [sstableBytes_eq, getAt_rows h (rows_sorted entries) stride hbits, lines_rowsBytes h,
    fullScan_rows h key t hzero, versionsIn_rows]
  rfl

/-- **A lookup in the file of a table is the lookup in its entries.** -/
theorem EntriesOk.tableGetAt {entries : Entries} (h : EntriesOk entries) (key : Bytes) (t : ℕ) :
    tableGetAt (some (sstableBytes entries)) key t = lookupEntries entries key t := by
  rw [Sstable.tableGetAt, getAt_sstableBytes h.rowOk 4 (by decide), lookupEntries_eq_lastVisible,
    newestVisible_eq_lastVisible (h.ordered key)]

lemma Version.result_ne_notFound (v : Version) : v.result ≠ .notFound := by
  unfold Version.result
  split <;> simp

/-- **The reader is right with every index and every filter.** On the file of entries whose keys
are words and whose values fit on a line and do not begin with white space, with any stride, any
number of hash functions and a number of bits for which the size of the bit array does not wrap
around, a lookup of any key is a scan of the whole file: it gives the newest visible version, the
last one among equal timestamps, and nothing exactly when there is none. -/
theorem reader_getAt {entries : Entries} (h : ∀ r ∈ rows entries, RowOk r) (stride : ℕ)
    {bloomBits : ℕ} (hbits : bloomBits ≤ 2 ^ 64 - 8) (bloomHashes : ℕ) (key : Bytes) (t : ℕ) :
    (∀ v, LastNewest Version.timestamp (versionsOf entries key) t v →
      (SSTableReader.new (some (sstableBytes entries)) stride bloomBits bloomHashes).getAt key t =
        v.result) ∧
    ((SSTableReader.new (some (sstableBytes entries)) stride bloomBits bloomHashes).getAt key t =
      .notFound ↔ ∀ v ∈ versionsOf entries key, t < v.timestamp) ∧
    (SSTableReader.new (some (sstableBytes entries)) stride bloomBits bloomHashes).getAt key t =
      fullScan key t (lines (sstableBytes entries)) ⟨.notFound, 0, false⟩ := by
  refine ⟨fun v hv => ?_, ?_, getAt_rows h (rows_sorted entries) stride hbits bloomHashes key t⟩
  · rw [getAt_sstableBytes h stride hbits, newestVisible_eq_some_iff.mpr hv]
    rfl
  · rw [getAt_sstableBytes h stride hbits]
    constructor
    · intro hnone v hv
      cases hn : newestVisible Version.timestamp (versionsOf entries key) t with
      | none => exact not_le.mp (newestVisible_eq_none_iff.mp hn v hv)
      | some w =>
        rw [hn] at hnone
        exact absurd hnone (Version.result_ne_notFound w)
    · intro hlt
      rw [newestVisible_eq_none_iff.mpr fun v hv => not_le.mpr (hlt v hv)]
      rfl

/-- Two versions of a key with one timestamp. -/
def tiedEntries : Entries :=
  pushRows ∅ [(text "a", ⟨1, some (text "x")⟩), (text "a", ⟨1, some []⟩), (text "b", ⟨2, none⟩)]

/-- The second version counts, with an index of every line and a filter of one bit. -/
theorem reader_getAt_tied :
    (SSTableReader.new (some (sstableBytes tiedEntries)) 1 1 1).getAt (text "a") 5 = .value [] := by
  have hok : ∀ r ∈ rows tiedEntries, RowOk r := by
    have hrows : rows tiedEntries = [(text "a", ⟨1, some (text "x")⟩), (text "a", ⟨1, some []⟩),
        (text "b", ⟨2, none⟩)] := by decide +kernel
    rw [hrows]
    simp only [List.forall_mem_cons]
    exact ⟨⟨by decide, by decide, by rintro x ⟨⟩; decide⟩, ⟨by decide, by decide, by rintro x ⟨⟩; decide⟩,
      ⟨by decide, by decide, by rintro x ⟨⟩⟩, by simp⟩
  have hv : versionsOf tiedEntries (text "a") = [⟨1, some (text "x")⟩, ⟨1, some []⟩] := by
    decide +kernel
  refine (reader_getAt hok 1 (by decide) 1 (text "a") 5).1 ⟨1, some []⟩ ?_
  rw [hv]
  exact ⟨[⟨1, some (text "x")⟩], [], rfl, by decide, by decide, by simp⟩

end VeriStore.Sstable

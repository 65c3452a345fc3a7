import VeriStore.Sstable.Codec
import VeriStore.Store.Snapshot

/-!
The loaders of the two snapshots.

The version snapshot is read line by line: each line gives a row or none (`lineRow`), and the loader
stores the rows of the lines before the first one that gives none (`loadLines_eq`). The flat snapshot
is read word by word, so that a key or a value with white space in it moves all later ones.

* `load_save_iff` — which memtables the version snapshot can hold;
* `failed_load_iff` — when a load that fails leaves the store as it was;
* `loadSnapshot_iff` — which maps the flat snapshot can hold.
-/

namespace VeriStore.Store

open VeriStore.Lib VeriStore.Sstable VeriStore.Log

/-! ### The row of a line -/

lemma splitTab_some {s a b : Bytes} (h : splitTab s = some (a, b)) : tab ∉ a ∧ s = a ++ tab :: b := by
  unfold splitTab at h
  split at h
  · next hm =>
    obtain ⟨rfl, rfl⟩ := Prod.mk.inj (Option.some.inj h)
    refine ⟨fun ht => by simpa using List.mem_takeWhile_imp ht, ?_⟩
    have hne : s.dropWhile (· ≠ tab) ≠ [] := by
      rw [Ne, List.dropWhile_eq_nil_iff]
      exact fun hall => by simpa using hall tab hm
    obtain ⟨c, l, hl⟩ := List.exists_cons_of_ne_nil hne
    have hc := List.head?_dropWhile_not (· ≠ tab) s
    have hsplit := List.takeWhile_append_dropWhile (p := fun b => decide (b ≠ tab)) (l := s)
    rw [hl] at hc hsplit ⊢
    obtain rfl : c = tab := by simpa using hc
    exact hsplit.symm
  · simp at h

/-- **A row that is read** can be written. -/
lemma lineRow_some {line : Bytes} {r : Row} (h : lineRow line = some r) (hl : newline ∉ line) :
    LineOk r := by
  simp only [lineRow, Option.bind_eq_bind, Option.bind_eq_some_iff] at h
  obtain ⟨⟨key, r1⟩, h1, ⟨ts, r2⟩, h2, ⟨n, r3⟩, h3, h4⟩ := h
  obtain ⟨hkey, rfl⟩ := splitTab_some h1
  obtain ⟨-, rfl⟩ := splitTab_some h2
  have hn := (extractU64_some h3).1
  simp only [List.mem_append, List.mem_cons, not_or] at hl
  split at h4
  · obtain ⟨⟨type, value⟩, h5, h6⟩ := Option.bind_eq_some_iff.mp h4
    obtain rfl := Option.some.inj h6
    obtain ⟨-, rfl⟩ := splitTab_some h5
    refine ⟨hkey, hl.1, hn, ?_⟩
    rintro x ⟨⟩
    exact fun hm => hl.2.2.2.2 (by simp [hm])
  · split at h4
    · obtain rfl := Option.some.inj h4
      exact ⟨hkey, hl.1, hn, by simp⟩
    · simp at h4

/-! ### The loader -/

/-- The rows of the lines before the first one that cannot be read. -/
def rowsBefore : List Bytes → List Row
  | [] => []
  | l :: ls =>
    if l = [] then rowsBefore ls
    else
      match lineRow l with
      | none => []
      | some r => r :: rowsBefore ls

/-- All lines can be read. -/
def Readable (ls : List Bytes) : Prop := ∀ l ∈ ls, l ≠ [] → (lineRow l).isSome = true

instance (ls : List Bytes) : Decidable (Readable ls) :=
  inferInstanceAs (Decidable (∀ l ∈ ls, l ≠ [] → (lineRow l).isSome = true))

lemma readable_cons {l : Bytes} {ls : List Bytes} :
    Readable (l :: ls) ↔ (l ≠ [] → (lineRow l).isSome = true) ∧ Readable ls :=
  List.forall_mem_cons

/-- **The loader stores the rows** of the lines before the first one that cannot be read. -/
lemma loadLines_eq (ls : List Bytes) (st : LoadState) :
    loadLines ls st = (decide (Readable ls), (rowsBefore ls).foldl LoadState.row st) := by
  induction ls generalizing st with
  | nil => simp [loadLines, Readable, rowsBefore]
  | cons l ls ih =>
    unfold loadLines rowsBefore
    by_cases hl : l = []
    · rw [if_pos hl, if_pos hl, ih]
      simp [readable_cons, hl]
    · rw [if_neg hl, if_neg hl, loadLine_eq]
      cases hr : lineRow l with
      | none => simp [readable_cons, hl, hr]
      | some r =>
        simp only [Option.map_some, ih, List.foldl_cons]
        simp [readable_cons, hl, hr]

lemma lineOk_rowsBefore {ls : List Bytes} (h : ∀ l ∈ ls, newline ∉ l) :
    ∀ r ∈ rowsBefore ls, LineOk r := by
  induction ls with
  | nil => simp [rowsBefore]
  | cons l ls ih =>
    have ih := ih fun x hx => h x (List.mem_cons_of_mem l hx)
    unfold rowsBefore
    split
    · exact ih
    · split
      · simp
      · next r hr =>
        exact List.forall_mem_cons.mpr ⟨lineRow_some hr (h l (by simp)), ih⟩

/-! ### What rows leave behind -/

/-- What a row adds to the estimated size of the memtable. -/
def rowSize (r : Row) : ℕ :=
  r.1.length + (r.2.value.getD []).length + sizeofTimestamp + sizeofVersion

/-- The newest of the timestamps and of a number. -/
def newestTimestamp (n : ℕ) (rs : List Row) : ℕ := (rs.map fun r => r.2.timestamp).foldl max n

lemma foldl_row_size (rs : List Row) (st : LoadState) :
    (rs.foldl LoadState.row st).memtable.approximateSizeBytes =
      st.memtable.approximateSizeBytes + (rs.map rowSize).sum := by
  induction rs generalizing st with
  | nil => rfl
  | cons r rs ih =>
    have hrow : (st.row r).memtable.approximateSizeBytes =
        st.memtable.approximateSizeBytes + rowSize r := by
      obtain ⟨key, ts, value⟩ := r
      cases value <;> simp [LoadState.row, rowSize, MemTable.put, MemTable.del]
    rw [List.foldl_cons, ih, hrow, List.map_cons, List.sum_cons, Nat.add_assoc]

lemma foldl_row_seq (rs : List Row) (st : LoadState) :
    (rs.foldl LoadState.row st).seq = newestTimestamp st.seq rs := by
  induction rs generalizing st with
  | nil => rfl
  | cons r rs ih => exact ih (st.row r)

lemma newestTimestamp_cons (n : ℕ) (r : Row) (rs : List Row) :
    newestTimestamp n (r :: rs) = newestTimestamp (max n r.2.timestamp) rs := rfl

lemma le_newestTimestamp (n : ℕ) (rs : List Row) :
    n ≤ newestTimestamp n rs ∧ ∀ r ∈ rs, r.2.timestamp ≤ newestTimestamp n rs := by
  induction rs generalizing n with
  | nil => simp [newestTimestamp]
  | cons r rs ih =>
    obtain ⟨h1, h2⟩ := ih (max n r.2.timestamp)
    rw [newestTimestamp_cons, List.forall_mem_cons]
    exact ⟨(le_max_left _ _).trans h1, (le_max_right _ _).trans h1, h2⟩

/-- A number is the newest when no timestamp is newer. -/
lemma newestTimestamp_eq_iff {n : ℕ} {rs : List Row} :
    newestTimestamp n rs = n ↔ ∀ r ∈ rs, r.2.timestamp ≤ n := by
  constructor
  · intro h r hr
    exact h ▸ (le_newestTimestamp n rs).2 r hr
  · intro h
    induction rs with
    | nil => rfl
    | cons r rs ih =>
      rw [newestTimestamp_cons, max_eq_left (h r (by simp))]
      exact ih fun x hx => h x (List.mem_cons_of_mem r hx)

/-- **What the loader leaves** of a file: the rows before the first line that cannot be read. -/
lemma loadFromFile_rows (s : KVStore) (content : Bytes) :
    (s.loadFromFile (some content)).1 = decide (Readable (lines content)) ∧
      Contents (s.loadFromFile (some content)).2.map
        (s.loadFromFile (some content)).2.memtable.entries (rowsBefore (lines content)) ∧
      (s.loadFromFile (some content)).2.memtable.approximateSizeBytes =
        ((rowsBefore (lines content)).map rowSize).sum ∧
      (s.loadFromFile (some content)).2.seq = newestTimestamp s.seq (rowsBefore (lines content)) := by
  have hnil : Contents (⟨∅, MemTable.empty, s.seq⟩ : LoadState).map
      (⟨∅, MemTable.empty, s.seq⟩ : LoadState).memtable.entries [] := .nil
  have hsize := foldl_row_size (rowsBefore (lines content)) ⟨∅, MemTable.empty, s.seq⟩
  simp only [KVStore.loadFromFile, loadLines_eq]
  refine ⟨trivial, hnil.rows _, ?_, foldl_row_seq _ _⟩
  simpa [MemTable.empty] using hsize

/-! ### The domain of the version snapshot -/

/-- The text of rows is read back. -/
lemma rowsBefore_rowTexts {rs : List Row} (hok : ∀ r ∈ rs, LineOk r) :
    rowsBefore (rs.map fun r => rowText r.1 r.2) = rs ∧ Readable (rs.map fun r => rowText r.1 r.2) := by
  induction rs with
  | nil => exact ⟨rfl, by simp [Readable]⟩
  | cons r rs ih =>
    obtain ⟨h1, h2⟩ := ih fun x hx => hok x (List.mem_cons_of_mem r hx)
    have hr := lineRow_rowText (hok r (by simp))
    rw [List.map_cons, rowsBefore, if_neg (rowText_ne_nil r.1 r.2), hr, h1, readable_cons, hr]
    exact ⟨rfl, fun _ => rfl, h2⟩

/-- **A snapshot is loaded back.** -/
lemma loadFromFile_saveToFile {e : Entries} (hok : ∀ r ∈ rows e, LineOk r) (s : KVStore) :
    (s.loadFromFile (some (saveToFile e))).1 = true ∧
      Contents (s.loadFromFile (some (saveToFile e))).2.map
        (s.loadFromFile (some (saveToFile e))).2.memtable.entries (rows e) ∧
      (s.loadFromFile (some (saveToFile e))).2.seq = newestTimestamp s.seq (rows e) := by
  have hlines : lines (saveToFile e) = (rows e).map fun r => rowText r.1 r.2 := by
    rw [saveToFile, sstableBytes_eq]
    simpa using lines_rowsBytes_append (fun r hr => (hok r hr).newline_notMem) []
  obtain ⟨hrows, hread⟩ := rowsBefore_rowTexts hok
  obtain ⟨h1, h2, -, h3⟩ := loadFromFile_rows s (saveToFile e)
  rw [hlines, hrows] at h2 h3
  rw [hlines, decide_eq_true hread] at h1
  exact ⟨h1, h2, h3⟩

/-- **A snapshot is loaded back exactly when** no key has a tab or a newline and no value has a
newline. Then the map has the last version of every key and the counter is not behind any of them. -/
theorem load_save_iff {e : Entries} (hne : NoEmpty e) (h64 : ∀ r ∈ rows e, r.2.timestamp < 2 ^ 64)
    (s : KVStore) :
    ((s.loadFromFile (some (saveToFile e))).1 = true ∧
        (s.loadFromFile (some (saveToFile e))).2.memtable.entries = e ↔
      ∀ (key : Bytes) (vs : List Version), e[key]? = some vs → tab ∉ key ∧ newline ∉ key ∧
        ∀ v ∈ vs, ∀ x, v.value = some x → newline ∉ x) ∧
    ((s.loadFromFile (some (saveToFile e))).1 = true ∧
        (s.loadFromFile (some (saveToFile e))).2.memtable.entries = e →
      (∀ key : Bytes, (s.loadFromFile (some (saveToFile e))).2.map[key]? =
        (versionsOf e key).getLast?.bind Version.value) ∧
      (s.loadFromFile (some (saveToFile e))).2.seq =
        ((rows e).map fun r => r.2.timestamp).foldl max s.seq) := by
  have hrow : (∀ (key : Bytes) (vs : List Version), e[key]? = some vs → tab ∉ key ∧ newline ∉ key ∧
      ∀ v ∈ vs, ∀ x, v.value = some x → newline ∉ x) ↔ ∀ r ∈ rows e, LineOk r := by
    have hiff := @forall_entries_iff e (fun key => tab ∉ key ∧ newline ∉ key)
      (fun v => ∀ x, v.value = some x → newline ∉ x)
    constructor
    · intro h r hr
      obtain ⟨-, h⟩ := hiff.mp fun key vs hkey =>
        ⟨⟨(h key vs hkey).1, (h key vs hkey).2.1⟩, fun hnil => hne key (hnil ▸ hkey),
          (h key vs hkey).2.2⟩
      exact ⟨(h r hr).1.1, (h r hr).1.2, h64 r hr, (h r hr).2⟩
    · intro h key vs hkey
      obtain ⟨⟨h1, h2⟩, -, h3⟩ := hiff.mpr
        ⟨hne, fun r hr => ⟨⟨(h r hr).noTab, (h r hr).noNewline⟩, (h r hr).value⟩⟩ key vs hkey
      exact ⟨h1, h2, h3⟩
  -- what is loaded can be written, so that entries that are loaded back can be written
  have hback : (s.loadFromFile (some (saveToFile e))).2.memtable.entries = e →
      ∀ r ∈ rows e, LineOk r := by
    intro he r hr
    obtain ⟨-, hc, -, -⟩ := loadFromFile_rows s (saveToFile e)
    rw [← he, hc.entries, mem_rows_pushRows] at hr
    exact lineOk_rowsBefore (fun l => newline_notMem_of_mem_lines) r hr
  rw [hrow]
  refine ⟨⟨fun h => hback h.2, fun hok => ?_⟩, fun h => ?_⟩
  · obtain ⟨h1, hc, -⟩ := loadFromFile_saveToFile hok s
    exact ⟨h1, hc.entries.trans (pushRows_rows hne)⟩
  · obtain ⟨-, hc, hseq⟩ := loadFromFile_saveToFile (hback h.2) s
    refine ⟨fun key => ?_, hseq⟩
    rw [hc.map, versionsIn_rows]

/-- A key and a value that are empty, a value with a tab, and a tombstone. -/
def oddEntries : Entries :=
  pushRows ∅ [([], ⟨3, some []⟩), (text "k", ⟨1, some (text "a\tb")⟩), (text "k", ⟨2, none⟩)]

theorem load_save_odd :
    (KVStore.new.loadFromFile (some (saveToFile oddEntries))).1 = true ∧
      (KVStore.new.loadFromFile (some (saveToFile oddEntries))).2.memtable.entries = oddEntries ∧
      (KVStore.new.loadFromFile (some (saveToFile oddEntries))).2.map[text "k"]? = none := by
  have hne : NoEmpty oddEntries := noEmpty_empty.pushRows _
  have hrow : ∀ r ∈ rows oddEntries, r.2.timestamp < 2 ^ 64 ∧ (tab ∉ r.1 ∧ newline ∉ r.1) ∧
      ∀ x, r.2.value = some x → newline ∉ x := by
    intro r hr
    rw [oddEntries, mem_rows_pushRows] at hr
    fin_cases hr
    · exact ⟨by decide, by decide, by rintro x ⟨⟩; decide⟩
    · exact ⟨by decide, by decide, by rintro x ⟨⟩; decide⟩
    · exact ⟨by decide, by decide, by rintro x ⟨⟩⟩
  obtain ⟨hiff, hthen⟩ := load_save_iff hne (fun r hr => (hrow r hr).1) KVStore.new
  have hloaded := hiff.mpr fun key vs hkey => by
    obtain ⟨⟨h1, h2⟩, -, h3⟩ := forall_entries_iff (P := fun key => tab ∉ key ∧ newline ∉ key)
      (Q := fun v => ∀ x, v.value = some x → newline ∉ x) |>.mpr
      ⟨hne, fun r hr => (hrow r hr).2⟩ key vs hkey
    exact ⟨h1, h2, h3⟩
  refine ⟨hloaded.1, hloaded.2, ?_⟩
  rw [(hthen hloaded).1, oddEntries, versionsOf_pushRows]
  decide

/-! ### A load that fails -/

/-- The store holds what a load of the rows leaves. -/
structure KVStore.HoldsExactly (s : KVStore) (rs : List Row) : Prop where
  contents : Contents s.map s.memtable.entries rs
  size : s.memtable.approximateSizeBytes = (rs.map rowSize).sum
  timestamp_le : ∀ r ∈ rs, r.2.timestamp ≤ s.seq

/-- **A load that fails leaves the store as it was exactly when** the file cannot be opened, or all
its lines can be read, so that the load does not fail, or the store holds already what the lines
before the first bad one say. -/
theorem failed_load_iff (s : KVStore) (file : Option Bytes) :
    ((s.loadFromFile file).1 = false →
      (s.loadFromFile file).2.map = s.map ∧ (s.loadFromFile file).2.memtable = s.memtable ∧
        (s.loadFromFile file).2.seq = s.seq) ↔
    ∀ content, file = some content →
      Readable (lines content) ∨ s.HoldsExactly (rowsBefore (lines content)) := by
  cases file with
  | none => simp [KVStore.loadFromFile]
  | some content =>
    obtain ⟨hok, hc, hsize, hseq⟩ := loadFromFile_rows s content
    constructor
    · rintro h _ ⟨⟩
      refine or_iff_not_imp_left.mpr fun hbad => ?_
      obtain ⟨hmap, hmem, hs⟩ := h (hok.trans (decide_eq_false hbad))
      rw [hmap, hmem] at hc
      exact ⟨hc, hmem ▸ hsize, newestTimestamp_eq_iff.mp (hseq.symm.trans hs)⟩
    · intro h hfail
      obtain hread | hold := h content rfl
      · rw [hok, decide_eq_true hread] at hfail
        cases hfail
      · obtain ⟨hmap, hentries⟩ := hc.unique hold.contents
        refine ⟨hmap, ?_, hseq.trans (newestTimestamp_eq_iff.mpr hold.timestamp_le)⟩
        have hsizes := hsize.trans hold.size.symm
        cases hm : s.memtable
        rw [hm] at hentries hsizes
        exact congrArg₂ MemTable.mk hentries hsizes

/-- A store with one key, and a file without a tab. -/
theorem failed_load_clears :
    ((KVStore.new.applyPut (text "k") (text "v")).loadFromFile (some (text "x"))).1 = false ∧
      ((KVStore.new.applyPut (text "k") (text "v")).loadFromFile (some (text "x"))).2.map ≠
        (KVStore.new.applyPut (text "k") (text "v")).map := by
  decide +kernel

/-! ### The flat snapshot -/

/-- The lines of the flat snapshot, for the entries of the map in some order. -/
def snapshotText (order : List (Bytes × Bytes)) : Bytes :=
  order.flatMap fun e => e.1 ++ [tab] ++ e.2 ++ [newline]

/-- `save_snapshot`: the iteration over the map comes to its entries in the order `order`. A write
that fails is not noticed, and what was written is renamed into place. -/
def saveSnapshot (order : List (Bytes × Bytes)) (file : Option Bytes) (io : WriteOutcome)
    (rename : Bool) : Bool × Option Bytes :=
  match io with
  | .refused => (false, file)
  | .ok => if rename then (true, some (snapshotText order)) else (false, file)
  | .short n => if rename then (true, some ((snapshotText order).take n)) else (false, file)

lemma snapshotText_cons (e : Bytes × Bytes) (l : List (Bytes × Bytes)) :
    snapshotText (e :: l) = e.1 ++ tab :: (e.2 ++ newline :: snapshotText l) := by
  simp [snapshotText]

lemma length_le_snapshotText (l : List (Bytes × Bytes)) : l.length ≤ (snapshotText l).length := by
  induction l with
  | nil => simp
  | cons e l ih =>
    rw [snapshotText_cons]
    simp only [List.length_cons, List.length_append]
    omega

/-- White space in front of a word is skipped. -/
lemma loadPairs_cons {b : UInt8} (hb : isSpace b = true) (n : ℕ) (s : Bytes)
    (map : Std.ExtTreeMap Bytes Bytes) :
    KVStore.loadPairs n (b :: s) map = KVStore.loadPairs n s map := by
  cases n with
  | zero => rfl
  | succ n => rw [KVStore.loadPairs, KVStore.loadPairs, extractString_cons hb]

/-- **The lines of words are read back.** -/
lemma loadPairs_snapshotText {l : List (Bytes × Bytes)} (h : ∀ e ∈ l, Word e.1 ∧ Word e.2) {n : ℕ}
    (hn : l.length ≤ n) (map : Std.ExtTreeMap Bytes Bytes) :
    KVStore.loadPairs n (snapshotText l) map = updates map (l.map fun e => (e.1, some e.2)) := by
  have htab : isSpace tab = true := by decide
  have hnl : isSpace newline = true := by decide
  induction l generalizing n map with
  | nil => cases n <;> rfl
  | cons e l ih =>
    obtain ⟨n, rfl⟩ : ∃ m, n = m + 1 := ⟨n - 1, by simp at hn; omega⟩
    obtain ⟨hkey, hvalue⟩ := h e (by simp)
    have hk := extractString_word hkey (s := tab :: (e.2 ++ newline :: snapshotText l))
      (by rintro b ⟨⟩; exact htab)
    have hv := extractString_word hvalue (s := newline :: snapshotText l) (by rintro b ⟨⟩; exact hnl)
    rw [snapshotText_cons, KVStore.loadPairs, hk]
    simp only [extractString_cons htab, hv, loadPairs_cons hnl]
    exact ih (fun x hx => h x (List.mem_cons_of_mem e hx)) (by simpa using hn) _

/-- What is read are words. -/
lemma loadPairs_words (n : ℕ) (s : Bytes) (map : Std.ExtTreeMap Bytes Bytes) {key value : Bytes}
    (h : (KVStore.loadPairs n s map)[key]? = some value) :
    map[key]? = some value ∨ (Word key ∧ Word value) := by
  induction n generalizing s map with
  | zero => exact Or.inl h
  | succ n ih =>
    unfold KVStore.loadPairs at h
    split at h
    · exact Or.inl h
    · next k s₁ hk =>
      split at h
      · exact Or.inl h
      · next v s₂ hv =>
        rcases ih s₂ (map.insert k v) h with hins | hwords
        · rw [Std.ExtTreeMap.getElem?_insert] at hins
          split at hins
          · next heq =>
            obtain rfl : k = key := by simpa using heq
            obtain rfl := Option.some.inj hins
            exact Or.inr ⟨(extractString_some hk).1, (extractString_some hv).1⟩
          · exact Or.inl hins
        · exact Or.inr hwords

/-- **A flat snapshot is loaded back exactly when** every key and every value is a word, in
whatever order the map is written. -/
theorem loadSnapshot_iff {map : Std.ExtTreeMap Bytes Bytes} {order : List (Bytes × Bytes)}
    (h : order.Perm map.toList) (s : KVStore) (file : Option Bytes) :
    ((s.loadSnapshot (saveSnapshot order file .ok true).2).1 = true ∧
        (s.loadSnapshot (saveSnapshot order file .ok true).2).2.map = map) ↔
      ∀ key value, map[key]? = some value → Word key ∧ Word value := by
  have hmem : ∀ e : Bytes × Bytes, e ∈ order ↔ map[e.1]? = some e.2 := fun e =>
    h.mem_iff.trans Std.ExtTreeMap.mem_toList_iff_getElem?_eq_some
  simp only [saveSnapshot, if_true, KVStore.loadSnapshot, true_and]
  constructor
  · intro hload key value hkey
    rw [← hload] at hkey
    exact (loadPairs_words _ _ _ hkey).resolve_left (by simp)
  · intro hwords
    rw [loadPairs_snapshotText (fun e he => hwords e.1 e.2 ((hmem e).mp he))
      (length_le_snapshotText order), updates_of_perm h]

/-- A value of two words. -/
def spacedMap : Std.ExtTreeMap Bytes Bytes :=
  (∅ : Std.ExtTreeMap Bytes Bytes).insert (text "k") (text "a b")

theorem loadSnapshot_spaced :
    (∀ e ∈ spacedMap.toList, tab ∉ e.1 ∧ newline ∉ e.1 ∧ newline ∉ e.2) ∧
    (KVStore.new.loadSnapshot (saveSnapshot spacedMap.toList none .ok true).2).2.map ≠ spacedMap := by
  decide +kernel

theorem loadSnapshot_word :
    (KVStore.new.loadSnapshot (saveSnapshot ((∅ : Std.ExtTreeMap Bytes Bytes).insert (text "k")
      (text "v")).toList none .ok true).2).2.map =
        (∅ : Std.ExtTreeMap Bytes Bytes).insert (text "k") (text "v") := by
  refine ((loadSnapshot_iff (List.Perm.refl _) KVStore.new none).mpr fun key value h => ?_).2
  rw [Std.ExtTreeMap.getElem?_insert] at h
  split at h
  · next heq =>
    obtain rfl : text "k" = key := by simpa using heq
    obtain rfl := Option.some.inj h
    exact ⟨by decide, by decide⟩
  · simp at h

end VeriStore.Store

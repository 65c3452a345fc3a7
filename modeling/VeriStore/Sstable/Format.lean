import VeriStore.Lib.Visible
import VeriStore.Sstable.Defs

/-!
The text format of a table is read back.

A row is well formed when its key is a word and its value fits on a line and does not begin with
white space (`RowOk`). The lines of a file of well-formed rows are the texts of the rows
(`lines_rowsBytes`), and each text is parsed back into its row (`parseRow_rowText`). So loading a
table gives its entries (`loadSstable_bytes`).
-/

namespace VeriStore.Sstable

open VeriStore.Lib VeriStore.Store

/-! ### Rows -/

/-- A row of a table: a key and one of its versions. -/
abbrev Row := Bytes × Version

/-- The value fits on a line and does not begin with white space. -/
def Clean (x : Bytes) : Prop := newline ∉ x ∧ ∀ b, x.head? = some b → isSpace b = false

instance (x : Bytes) : Decidable (Clean x) :=
  decidable_of_iff (newline ∉ x ∧ (x.head?.all fun b => !isSpace b) = true) (by
    cases x <;> simp [Clean])

/-- A row the format can hold. -/
structure RowOk (r : Row) : Prop where
  word : Word r.1
  timestamp_lt : r.2.timestamp < 2 ^ 64
  clean : ∀ x, r.2.value = some x → Clean x

/-- The bytes of a list of rows. -/
def rowsBytes (rs : List Row) : Bytes := rs.flatMap fun r => rowText r.1 r.2 ++ [newline]

@[simp] lemma rowsBytes_nil : rowsBytes [] = [] := rfl

@[simp] lemma rowsBytes_cons (r : Row) (rs : List Row) :
    rowsBytes (r :: rs) = rowText r.1 r.2 ++ newline :: rowsBytes rs := by
  simp [rowsBytes]

lemma rowsBytes_append (rs rs' : List Row) : rowsBytes (rs ++ rs') = rowsBytes rs ++ rowsBytes rs' := by
  simp [rowsBytes]

lemma newline_notMem_of_word {w : Bytes} (h : Word w) : newline ∉ w := fun hm =>
  absurd (h.2 newline hm) (by decide)

lemma newline_notMem_decimal (n : ℕ) : newline ∉ decimal n := fun hm =>
  absurd (isDigit_of_mem_decimal n newline hm) (by decide)

lemma RowOk.newline_notMem {r : Row} (h : RowOk r) : newline ∉ rowText r.1 r.2 := by
  obtain ⟨key, ts, value⟩ := r
  have hk := newline_notMem_of_word h.word
  have ht := newline_notMem_decimal ts
  have hn : newline ≠ tab ∧ newline ≠ letterP ∧ newline ≠ letterD := by decide
  cases value with
  | none => simp_all [rowText]
  | some x =>
    have hx := (h.clean x rfl).1
    simp_all [rowText]

lemma rowText_ne_nil (key : Bytes) (v : Version) : rowText key v ≠ [] := by
  simp [rowText]

/-- Rows without a newline are lines, and then comes the rest. -/
lemma lines_rowsBytes_append {rs : List Row} (h : ∀ r ∈ rs, newline ∉ rowText r.1 r.2) (s : Bytes) :
    lines (rowsBytes rs ++ s) = (rs.map fun r => rowText r.1 r.2) ++ lines s := by
  induction rs with
  | nil => rfl
  | cons r rs ih =>
    rw [rowsBytes_cons, List.append_assoc, List.cons_append, lines_append (h r (by simp)),
      ih fun x hx => h x (List.mem_cons_of_mem r hx), List.map_cons, List.cons_append]

/-- **The lines of a table are the texts of its rows.** -/
lemma lines_rowsBytes {rs : List Row} (h : ∀ r ∈ rs, RowOk r) :
    lines (rowsBytes rs) = rs.map fun r => rowText r.1 r.2 := by
  simpa using lines_rowsBytes_append (fun r hr => (h r hr).newline_notMem) []

/-- The type of a row and what follows it in the line. -/
def rowType (v : Version) : UInt8 × Bytes :=
  match v.value with
  | some x => (letterP, tab :: x)
  | none => (letterD, [])

lemma rowText_eq (key : Bytes) (v : Version) : rowText key v =
    key ++ tab :: (decimal v.timestamp ++ tab :: (rowType v).1 :: (rowType v).2) := by
  obtain ⟨ts, value⟩ := v
  cases value <;> simp [rowText, rowType]

/-- **The text of a row is parsed back.** -/
lemma parseRow_rowText {r : Row} (h : RowOk r) : parseRow (rowText r.1 r.2) =
    some (r.1, r.2.timestamp, (rowType r.2).1, (rowType r.2).2) := by
  have htab : isSpace tab = true := by decide
  have htype : isSpace (rowType r.2).1 = false := by
    unfold rowType
    split
    · exact (by decide : isSpace letterP = false)
    · exact (by decide : isSpace letterD = false)
  have h1 : extractString (rowText r.1 r.2) = some (r.1,
      tab :: (decimal r.2.timestamp ++ tab :: (rowType r.2).1 :: (rowType r.2).2)) := by
    rw [rowText_eq]
    exact extractString_word h.word (by rintro b ⟨⟩; exact htab)
  have h2 : extractU64 (tab :: (decimal r.2.timestamp ++ tab :: (rowType r.2).1 :: (rowType r.2).2)) =
      some (r.2.timestamp, tab :: (rowType r.2).1 :: (rowType r.2).2) := by
    rw [extractU64_cons htab]
    exact extractU64_decimal h.timestamp_lt (by rintro b ⟨⟩; decide)
  simp only [parseRow, h1, h2, extractChar_cons htab htype, Option.bind_eq_bind, Option.bind_some,
    Option.pure_def]

/-- The first word of the text of a row is its key. -/
lemma extractString_rowText {r : Row} (h : RowOk r) :
    ∃ rest, extractString (rowText r.1 r.2) = some (r.1, rest) := by
  rw [rowText_eq]
  exact ⟨_, extractString_word h.word (by rintro b ⟨⟩; decide)⟩

/-- The value of a row behind the white space. -/
lemma RowOk.skipWs_value {r : Row} (h : RowOk r) {x : Bytes} (hx : r.2.value = some x) :
    skipWs (tab :: x) = x := by
  rw [skipWs_cons (by decide)]
  exact skipWs_of_head (h.clean x hx).2

/-! ### Entries -/

/-- Rows stored one after the other. -/
def pushRows (entries : Entries) (rs : List Row) : Entries :=
  rs.foldl (fun m r => pushVersion m r.1 r.2) entries

@[simp] lemma pushRows_nil (entries : Entries) : pushRows entries [] = entries := rfl

@[simp] lemma pushRows_cons (entries : Entries) (r : Row) (rs : List Row) :
    pushRows entries (r :: rs) = pushRows (pushVersion entries r.1 r.2) rs := rfl

/-- The versions of a key among the rows. -/
def versionsIn (rs : List Row) (key : Bytes) : List Version :=
  (rs.filter fun r => r.1 = key).map (·.2)

lemma versionsIn_append (rs rs' : List Row) (key : Bytes) :
    versionsIn (rs ++ rs') key = versionsIn rs key ++ versionsIn rs' key := by
  simp [versionsIn]

lemma mem_versionsIn {rs : List Row} {key : Bytes} {v : Version} :
    v ∈ versionsIn rs key ↔ (key, v) ∈ rs := by
  simp only [versionsIn, List.mem_map, List.mem_filter, decide_eq_true_eq]
  constructor
  · rintro ⟨r, ⟨hr, rfl⟩, rfl⟩
    exact hr
  · exact fun h => ⟨_, ⟨h, rfl⟩, rfl⟩

lemma versionsOf_pushRows (entries : Entries) (rs : List Row) (key : Bytes) :
    versionsOf (pushRows entries rs) key = versionsOf entries key ++ versionsIn rs key := by
  induction rs generalizing entries with
  | nil => simp [versionsIn]
  | cons r rs ih =>
    rw [pushRows_cons, ih, versionsOf_pushVersion]
    by_cases h : r.1 = key
    · simp [versionsIn, h]
    · simp [versionsIn, h]

/-- **A table is loaded back**, into what was there before. -/
lemma loadRows_rows {rs : List Row} (h : ∀ r ∈ rs, RowOk r) (merged : Entries) :
    loadRows (rs.map fun r => rowText r.1 r.2) merged = some (pushRows merged rs) := by
  induction rs generalizing merged with
  | nil => rfl
  | cons r rs ih =>
    have hr := h r (by simp)
    simp only [List.map_cons, loadRows, if_neg (rowText_ne_nil r.1 r.2), parseRow_rowText hr]
    have ih := fun m => ih (fun x hx => h x (List.mem_cons_of_mem r hx)) m
    obtain ⟨key, ts, value⟩ := r
    cases value with
    | none => simpa [rowType, letterP, letterD] using ih _
    | some x => simpa [rowType, hr.skipWs_value rfl] using ih _

lemma sstableBytes_eq (entries : Entries) : sstableBytes entries = rowsBytes (rows entries) := rfl

/-- The rows of one key are together. -/
lemma versionsIn_flatMap {l : List (Bytes × List Version)}
    (hl : l.Pairwise fun a b => a.1 ≠ b.1) (key : Bytes) :
    versionsIn (l.flatMap fun e => e.2.map fun v => (e.1, v)) key =
      ((l.find? fun e => e.1 = key).map (·.2)).getD [] := by
  induction l with
  | nil => simp [versionsIn]
  | cons e l ih =>
    obtain ⟨hne, hl⟩ := List.pairwise_cons.mp hl
    rw [List.flatMap_cons, versionsIn_append, ih hl]
    by_cases h : e.1 = key
    · have hrest : l.find? (fun e => e.1 = key) = none := by
        rw [List.find?_eq_none]
        intro x hx
        simpa [← h] using (hne x hx).symm
      simp [versionsIn, h, hrest, List.filter_map, Function.comp_def]
    · simp [versionsIn, h, List.filter_map, Function.comp_def]

lemma versionsIn_rows (entries : Entries) (key : Bytes) :
    versionsIn (rows entries) key = versionsOf entries key := by
  have hd : entries.toList.Pairwise fun a b => a.1 ≠ b.1 :=
    (Std.ExtTreeMap.distinct_keys_toList (t := entries)).imp fun {a b} h hab => h (by simp [hab])
  rw [rows, versionsIn_flatMap hd, versionsOf]
  congr 1
  cases hf : entries.toList.find? (fun e => e.1 = key) with
  | none =>
    rw [List.find?_eq_none] at hf
    cases hg : entries[key]? with
    | none => rfl
    | some vs =>
      exact absurd (hf (key, vs) (Std.ExtTreeMap.mem_toList_iff_getElem?_eq_some.mpr hg)) (by simp)
  | some e =>
    have hk : e.1 = key := by simpa using List.find?_some hf
    have hm := Std.ExtTreeMap.mem_toList_iff_getElem?_eq_some.mp (List.mem_of_find?_eq_some hf)
    rw [Option.map_some, ← hk, hm]

lemma mem_rows {entries : Entries} {key : Bytes} {v : Version} :
    (key, v) ∈ rows entries ↔ v ∈ versionsOf entries key := by
  rw [← mem_versionsIn, versionsIn_rows]

lemma mem_rows_pushRows {rs : List Row} {r : Row} : r ∈ rows (pushRows ∅ rs) ↔ r ∈ rs := by
  obtain ⟨key, v⟩ := r
  rw [mem_rows, versionsOf_pushRows, ← mem_versionsIn]
  simp [versionsOf]

/-- Every key in the entries has a version. -/
def NoEmpty (entries : Entries) : Prop := ∀ key : Bytes, entries[key]? ≠ some []

lemma noEmpty_empty : NoEmpty ∅ := fun key => by simp

lemma NoEmpty.pushVersion {entries : Entries} (h : NoEmpty entries) (key : Bytes) (v : Version) :
    NoEmpty (pushVersion entries key v) := by
  intro k
  unfold Store.pushVersion
  rw [Std.ExtTreeMap.getElem?_alter]
  split
  · simp
  · exact h k

lemma NoEmpty.pushRows {entries : Entries} (h : NoEmpty entries) (rs : List Row) :
    NoEmpty (pushRows entries rs) := by
  induction rs generalizing entries with
  | nil => exact h
  | cons r rs ih => exact ih (h.pushVersion r.1 r.2)

/-- Entries are determined by the versions of the keys. -/
lemma entries_ext {a b : Entries} (ha : NoEmpty a) (hb : NoEmpty b)
    (h : ∀ key, versionsOf a key = versionsOf b key) : a = b := by
  refine Std.ExtTreeMap.ext_getElem? fun key => ?_
  have hk := h key
  have ha := ha key
  have hb := hb key
  unfold versionsOf at hk
  cases h1 : a[key]? with
  | none =>
    cases h2 : b[key]? with
    | none => rfl
    | some vs =>
      rw [h1, h2] at hk
      exact absurd (h2.trans (congrArg some hk.symm)) hb
  | some vs =>
    cases h2 : b[key]? with
    | none =>
      rw [h1, h2] at hk
      exact absurd (h1.trans (congrArg some hk)) ha
    | some vs' =>
      rw [h1, h2] at hk
      exact congrArg some hk

lemma pushRows_rows {entries : Entries} (h : NoEmpty entries) : pushRows ∅ (rows entries) = entries := by
  refine entries_ext (noEmpty_empty.pushRows _) h fun key => ?_
  rw [versionsOf_pushRows, versionsIn_rows]
  simp [versionsOf]

/-- **Entries a table can hold**: every row is well formed, and the versions of a key are stored
in the order of their timestamps. -/
structure EntriesOk (entries : Entries) : Prop where
  noEmpty : NoEmpty entries
  rowOk : ∀ r ∈ rows entries, RowOk r
  ordered : ∀ key, Ascending Version.timestamp (versionsOf entries key)

/-- **A table is loaded back**, whatever the order of its versions. -/
lemma loadSstable_sstableBytes {entries : Entries} (h : ∀ r ∈ rows entries, RowOk r)
    (merged : Entries) :
    loadSstable (some (sstableBytes entries)) merged = some (pushRows merged (rows entries)) := by
  rw [Sstable.loadSstable, Option.bind_some, sstableBytes_eq, lines_rowsBytes h, loadRows_rows h]

theorem EntriesOk.loadSstable {entries : Entries} (h : EntriesOk entries) (merged : Entries) :
    loadSstable (some (sstableBytes entries)) merged = some (pushRows merged (rows entries)) :=
  loadSstable_sstableBytes h.rowOk merged

end VeriStore.Sstable

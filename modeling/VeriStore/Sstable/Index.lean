import VeriStore.Sstable.Defs

/-!
The sparse index never skips a version.

The records of a file are its lines with a word, each with the offset at which its line begins and
the word as its key (`RecordAt`). The loop that builds the index goes over the records
(`indexLoop_eq_foldl`), and where the keys come in ascending order the entry of a key is the offset of
its first record (`Indexed`).

* `findStartOffset_records` — a lookup begins at the first record of a group;
* `index_skips_no_version` — and no record of the key is in front of it.
-/

namespace VeriStore.Sstable

open VeriStore.Lib VeriStore.Store

/-! ### The records of a file -/

/-- Where the line of a record begins, and its key. -/
structure TableRecord where
  offset : ℕ
  key : Bytes

/-- The records among the lines of a file, the first of which begins at `off`. -/
def tableRecordsFrom : ℕ → List Bytes → List TableRecord
  | _, [] => []
  | off, line :: ls =>
    match extractString line with
    | none => tableRecordsFrom (off + line.length + 1) ls
    | some (key, _) => ⟨off, key⟩ :: tableRecordsFrom (off + line.length + 1) ls

def tableRecords (file : Bytes) : List TableRecord := tableRecordsFrom 0 (lines file)

/-- **A line of the file begins at the offset, and its first word is the key.** -/
def RecordAt (file : Bytes) (off : ℕ) (key : Bytes) : Prop :=
  ∃ a b line rest, file = a ++ b ∧ a.length = off ∧ WholeLines a ∧ (lines b).head? = some line ∧
    extractString line = some (key, rest)

lemma tableRecordsFrom_append (off : ℕ) (ls ls' : List Bytes) : tableRecordsFrom off (ls ++ ls') =
    tableRecordsFrom off ls ++ tableRecordsFrom (off + (ls.map (·.length + 1)).sum) ls' := by
  induction ls generalizing off with
  | nil => rfl
  | cons line ls ih =>
    have hoff : off + ((line :: ls).map (·.length + 1)).sum =
        off + line.length + 1 + (ls.map (·.length + 1)).sum := by
      rw [List.map_cons, List.sum_cons]
      omega
    rw [hoff, List.cons_append, tableRecordsFrom, tableRecordsFrom]
    split
    · exact ih _
    · rw [ih, List.cons_append]

/-- The records come one behind the other. -/
lemma tableRecordsFrom_ascending (off : ℕ) (ls : List Bytes) :
    (∀ r ∈ tableRecordsFrom off ls, off ≤ r.offset) ∧
      (tableRecordsFrom off ls).Pairwise fun r r' => r.offset < r'.offset := by
  induction ls generalizing off with
  | nil => simp [tableRecordsFrom]
  | cons line ls ih =>
    obtain ⟨hle, hlt⟩ := ih (off + line.length + 1)
    have hle' : ∀ r ∈ tableRecordsFrom (off + line.length + 1) ls, off < r.offset := fun r hr => by
      have := hle r hr
      omega
    rw [tableRecordsFrom]
    split
    · exact ⟨fun r hr => (hle' r hr).le, hlt⟩
    · refine ⟨fun r hr => ?_, List.pairwise_cons.mpr ⟨hle', hlt⟩⟩
      rcases List.mem_cons.mp hr with rfl | hr
      · exact le_rfl
      · exact (hle' r hr).le

/-- Whole lines have the length of their texts and newlines. -/
lemma sum_length_lines {a : Bytes} (h : WholeLines a) :
    ((lines a).map (·.length + 1)).sum = a.length := by
  induction a using lines_induction with
  | nil => rfl
  | last l hne hl => exact absurd h (not_wholeLines hne hl)
  | line l t hl ih =>
    rw [lines_append hl, List.map_cons, List.sum_cons, ih ((wholeLines_line l t).mp h),
      List.length_append, List.length_cons]
    omega

/-- The records behind whole lines. -/
lemma recordAt_of_mem {a s : Bytes} (ha : WholeLines a) {r : TableRecord}
    (hr : r ∈ tableRecordsFrom a.length (lines s)) : RecordAt (a ++ s) r.offset r.key := by
  induction s using lines_induction generalizing a with
  | nil => simp [tableRecordsFrom] at hr
  | last l hne hl =>
    rw [lines_eq_singleton hne hl, tableRecordsFrom] at hr
    split at hr
    · simp [tableRecordsFrom] at hr
    · next key rest hx =>
      simp only [tableRecordsFrom, List.mem_singleton] at hr
      subst hr
      exact ⟨a, l, l, rest, rfl, rfl, ha, by rw [lines_eq_singleton hne hl]; rfl, hx⟩
  | line l t hl ih =>
    have hsplit : a ++ (l ++ newline :: t) = (a ++ l ++ [newline]) ++ t := by simp
    have hlen : a.length + l.length + 1 = (a ++ l ++ [newline]).length := by
      simp only [List.length_append, List.length_cons, List.length_nil]
    rw [lines_append hl, tableRecordsFrom] at hr
    split at hr
    · rw [hlen] at hr
      rw [hsplit]
      exact ih (wholeLines_concat _) hr
    · next key rest hx =>
      rcases List.mem_cons.mp hr with rfl | hr
      · exact ⟨a, _, l, rest, rfl, rfl, ha, by rw [lines_append hl]; rfl, hx⟩
      · rw [hlen] at hr
        rw [hsplit]
        exact ih (wholeLines_concat _) hr

/-- **The records of a file.** -/
lemma mem_tableRecords {file : Bytes} {r : TableRecord} :
    r ∈ tableRecords file ↔ RecordAt file r.offset r.key := by
  constructor
  · exact fun hr => recordAt_of_mem (a := []) (Or.inl rfl) hr
  · rintro ⟨a, b, line, rest, rfl, hoff, ha, hline, hx⟩
    unfold tableRecords
    rw [lines_append_of_whole ha, tableRecordsFrom_append, sum_length_lines ha, hoff, List.mem_append]
    obtain ⟨ls, hls⟩ := List.head?_eq_some_iff.mp hline
    rw [hls, tableRecordsFrom, hx, Nat.zero_add]
    exact Or.inr List.mem_cons_self

/-! ### The loop -/

/-- The keys come in ascending order. -/
def RecordsSorted (rs : List TableRecord) : Prop :=
  rs.Pairwise fun r r' => (compare r.key r'.key).isLE = true

/-- One record of the table in the loop of the index. -/
def indexRecord (stride : ℕ) (st : IndexState) (r : TableRecord) : IndexState :=
  let fresh := st.recordNumber = 0 ∨ r.key ≠ st.previousKey
  let group := if fresh then r.offset else st.keyGroupOffset
  { index := if st.recordNumber % stride = 0 then st.index.insertIfNew r.key group else st.index
    recordNumber := st.recordNumber + 1
    previousKey := if fresh then r.key else st.previousKey
    keyGroupOffset := group }

/-- **The loop over the lines goes over the records.** -/
lemma indexLoop_eq_foldl (stride off : ℕ) (ls : List Bytes) (st : IndexState) :
    indexLoop stride off ls st = (tableRecordsFrom off ls).foldl (indexRecord stride) st := by
  induction ls generalizing off st with
  | nil => rfl
  | cons line ls ih =>
    rw [indexLoop, tableRecordsFrom, ih]
    unfold indexLine
    cases extractString line with
    | none => rfl
    | some kr => rfl

/-- The offset of the first record of a key. -/
def firstOffset (rs : List TableRecord) (key : Bytes) : Option ℕ :=
  (rs.find? (·.key = key)).map (·.offset)

lemma firstOffset_append {rs : List TableRecord} {key : Bytes} {off : ℕ}
    (h : firstOffset rs key = some off) (rs' : List TableRecord) :
    firstOffset (rs ++ rs') key = some off := by
  obtain ⟨r, hr, rfl⟩ := Option.map_eq_some_iff.mp h
  rw [firstOffset, List.find?_append, hr]
  rfl

lemma firstOffset_new {rs : List TableRecord} {r : TableRecord} (h : ∀ x ∈ rs, x.key ≠ r.key) :
    firstOffset (rs ++ [r]) r.key = some r.offset := by
  have hnone : rs.find? (·.key = r.key) = none := by simpa using h
  simp [firstOffset, List.find?_append, hnone]

/-- **The loop behind the records `rs`.** -/
structure Indexed (rs : List TableRecord) (st : IndexState) : Prop where
  /-- an entry is the offset of the first record of its key -/
  entries : ∀ key off, st.index[key]? = some off → firstOffset rs key = some off
  number : st.recordNumber = rs.length
  first : ∀ r, rs.head? = some r → r.key ∈ st.index
  /-- the group of the last record -/
  group : ∀ r, rs.getLast? = some r →
    st.previousKey = r.key ∧ firstOffset rs r.key = some st.keyGroupOffset

/-- The group a record belongs to. -/
lemma Indexed.firstOffset_concat {rs : List TableRecord} {st : IndexState} (h : Indexed rs st)
    {r : TableRecord} (hs : RecordsSorted (rs ++ [r])) :
    firstOffset (rs ++ [r]) r.key =
      some (if st.recordNumber = 0 ∨ r.key ≠ st.previousKey then r.offset else st.keyGroupOffset) := by
  obtain rfl | ⟨rs, l, rfl⟩ := List.eq_nil_or_concat' rs
  · have hnum : st.recordNumber = 0 := h.number
    rw [if_pos (Or.inl hnum)]
    exact firstOffset_new (by simp)
  · obtain ⟨hprev, hgroup⟩ := h.group l (by simp)
    have hnum : st.recordNumber ≠ 0 := by
      rw [h.number]
      simp
    rw [hprev]
    by_cases hkey : r.key = l.key
    · rw [if_neg (by simp [hnum, hkey]), hkey]
      exact firstOffset_append hgroup [r]
    · rw [if_pos (Or.inr hkey)]
      refine firstOffset_new fun x hx hxr => hkey ?_
      -- the last key is between two equal ones
      obtain ⟨hs', -, hr⟩ := List.pairwise_append.mp hs
      have hlr : (compare l.key r.key).isLE = true := hr l (by simp) r (by simp)
      have hxl : (compare x.key l.key).isLE = true := by
        rcases List.mem_append.mp hx with hx | hx
        · exact (List.pairwise_append.mp hs').2.2 x hx l (by simp)
        · rw [List.mem_singleton.mp hx]
          simp [Std.ReflCmp.compare_self]
      rw [hxr] at hxl
      exact Std.LawfulEqCmp.eq_of_compare (Std.OrientedCmp.isLE_antisymm hxl hlr)

/-- **One record** keeps the invariant. -/
lemma Indexed.record {rs : List TableRecord} {st : IndexState} (h : Indexed rs st)
    {r : TableRecord} (hs : RecordsSorted (rs ++ [r])) (stride : ℕ) :
    Indexed (rs ++ [r]) (indexRecord stride st r) := by
  have hfirst := h.firstOffset_concat hs
  constructor
  case entries =>
    intro key off hget
    simp only [indexRecord] at hget
    split at hget
    · rw [Std.ExtTreeMap.getElem?_insertIfNew] at hget
      split at hget
      · next hk =>
        have hkey : r.key = key := Std.LawfulEqCmp.eq_of_compare hk.1
        rw [← hkey, hfirst, hget]
      · exact firstOffset_append (h.entries key off hget) [r]
    · exact firstOffset_append (h.entries key off hget) [r]
  case number => simp [indexRecord, h.number]
  case first =>
    intro x hx
    simp only [indexRecord]
    cases rs with
    | nil =>
      simp only [List.nil_append, List.head?_cons, Option.some.injEq] at hx
      subst hx
      have h0 : st.recordNumber = 0 := h.number
      rw [if_pos (by rw [h0, Nat.zero_mod])]
      simp [Std.ExtTreeMap.mem_insertIfNew]
    | cons y rs =>
      have hm := h.first x (by simpa using hx)
      split
      · exact Std.ExtTreeMap.mem_insertIfNew.mpr (Or.inr hm)
      · exact hm
  case group =>
    intro x hx
    obtain rfl : r = x := by simpa using hx
    refine ⟨?_, hfirst⟩
    simp only [indexRecord]
    split
    · rfl
    · next hn => exact (not_not.mp (not_or.mp hn).2).symm

/-- **The whole loop.** -/
lemma indexed_foldl {rs : List TableRecord} (hs : RecordsSorted rs) (stride : ℕ) :
    Indexed rs (rs.foldl (indexRecord stride) ⟨∅, 0, [], 0⟩) := by
  induction rs using List.reverseRecOn with
  | nil => exact ⟨by simp, rfl, by simp, by simp⟩
  | append_singleton rs r ih =>
    rw [List.foldl_append]
    exact (ih (List.pairwise_append.mp hs).1).record hs stride

/-- **The index of a file.** -/
lemma indexed_build {file : Bytes} (hs : RecordsSorted (tableRecords file)) (stride : ℕ) :
    (∀ key off, (buildIndex stride file)[key]? = some off →
      firstOffset (tableRecords file) key = some off) ∧
    ∀ r, (tableRecords file).head? = some r → r.key ∈ buildIndex stride file := by
  have h := indexed_foldl hs (if stride = 0 then 1 else stride)
  unfold buildIndex
  rw [indexLoop_eq_foldl]
  exact ⟨h.entries, h.first⟩

/-! ### Lookups -/

lemma findStartOffset_eq_none {index : IndexMap} {key : Bytes} :
    findStartOffset index key = none ↔ ∀ k, k ∉ index := by
  have hnil : findStartOffset index key = none ↔ index.toList = [] := by
    unfold findStartOffset
    split
    · next e he =>
      have hm := List.mem_of_mem_filter (List.mem_of_getLast? he)
      simp [List.ne_nil_of_mem hm]
    · simp
  rw [hnil, List.eq_nil_iff_forall_not_mem]
  constructor
  · intro h k hk
    obtain ⟨off, hoff⟩ := Option.isSome_iff_exists.mp
      (Std.ExtTreeMap.mem_iff_isSome_getElem?.mp hk)
    exact h (k, off) (Std.ExtTreeMap.mem_toList_iff_getElem?_eq_some.mpr hoff)
  · intro h e he
    exact h e.1 (Std.ExtTreeMap.mem_iff_isSome_getElem?.mpr
      (by rw [Std.ExtTreeMap.mem_toList_iff_getElem?_eq_some.mp he]; rfl))

/-- **The entry of a lookup** is one of a key that is not larger, or the first one. -/
lemma findStartOffset_eq_some {index : IndexMap} {key : Bytes} {off : ℕ}
    (h : findStartOffset index key = some off) : ∃ group, index[group]? = some off ∧
      (compare group key ≠ .gt ∨ ∀ k ∈ index, (compare group k).isLE = true) := by
  have hentry : ∀ e ∈ index.toList, index[e.1]? = some e.2 := fun e he =>
    Std.ExtTreeMap.mem_toList_iff_getElem?_eq_some.mp he
  unfold findStartOffset at h
  split at h
  · next e he =>
    obtain rfl := Option.some.inj h
    have hm := List.mem_of_getLast? he
    simp only [List.mem_filter, decide_eq_true_eq] at hm
    exact ⟨e.1, hentry e hm.1, Or.inl hm.2⟩
  · obtain ⟨e, he, rfl⟩ := Option.map_eq_some_iff.mp h
    refine ⟨e.1, hentry e (List.mem_of_head? he), Or.inr fun k hk => ?_⟩
    -- the entries are sorted
    obtain ⟨v, hv⟩ := Option.isSome_iff_exists.mp (Std.ExtTreeMap.mem_iff_isSome_getElem?.mp hk)
    have hkv := Std.ExtTreeMap.mem_toList_iff_getElem?_eq_some.mpr hv
    obtain ⟨es, hes⟩ := List.head?_eq_some_iff.mp he
    have hsorted := Std.ExtTreeMap.ordered_keys_toList (t := index)
    rw [hes] at hkv hsorted
    rcases List.mem_cons.mp hkv with rfl | hkv
    · simp [Std.ReflCmp.compare_self]
    · have hlt := (List.pairwise_cons.mp hsorted).1 _ hkv
      simp [hlt]

/-- **The lookup begins at the first record of a group**, of a key that is not larger, or at the
first record of the file. -/
lemma findStartOffset_records {file : Bytes} (hs : RecordsSorted (tableRecords file)) {stride : ℕ}
    {key : Bytes} {off : ℕ} (h : findStartOffset (buildIndex stride file) key = some off) :
    ∃ pre r suf, tableRecords file = pre ++ r :: suf ∧ r.offset = off ∧
      (∀ x ∈ pre, compare x.key r.key = .lt) ∧ (compare r.key key ≠ .gt ∨ pre = []) := by
  obtain ⟨hentries, hfirst⟩ := indexed_build hs stride
  obtain ⟨group, hget, hgroup⟩ := findStartOffset_eq_some h
  obtain ⟨r, hr, hoff⟩ := Option.map_eq_some_iff.mp (hentries group off hget)
  obtain ⟨hkey, pre, suf, hrecords, hpre⟩ := List.find?_eq_some_iff_append.mp hr
  obtain rfl : r.key = group := by simpa using hkey
  have hlt : ∀ x ∈ pre, compare x.key r.key = .lt := by
    intro x hx
    rw [hrecords] at hs
    have hle := (List.pairwise_append.mp hs).2.2 x hx r (by simp)
    rcases Ordering.isLE_iff_eq_lt_or_eq_eq.mp hle with hlt | heq
    · exact hlt
    · have hne : x.key ≠ r.key := by simpa using hpre x hx
      exact absurd (Std.LawfulEqCmp.eq_of_compare heq) hne
  refine ⟨pre, r, suf, hrecords, hoff, hlt, hgroup.imp_right fun hmin => ?_⟩
  -- the first record of the file is indexed
  cases pre with
  | nil => rfl
  | cons x pre =>
    have hle := hmin x.key (hfirst x (by rw [hrecords]; rfl))
    have hgt := Std.OrientedCmp.gt_of_lt (hlt x (by simp))
    simp [hgt] at hle

/-- The records in front of the place where a lookup begins have smaller keys. -/
lemma ne_of_smaller {pre : List TableRecord} {r : TableRecord} {key : Bytes}
    (hlt : ∀ x ∈ pre, compare x.key r.key = .lt) (h : compare r.key key ≠ .gt ∨ pre = []) :
    ∀ x ∈ pre, x.key ≠ key := by
  rintro x hx rfl
  rcases h with h | rfl
  · exact h (Std.OrientedCmp.gt_of_lt (hlt x hx))
  · simp at hx

/-- A file whose records are grouped by key, the keys in ascending order. -/
def KeysAscending (file : Bytes) : Prop := ∀ off off' key key', RecordAt file off key →
  RecordAt file off' key' → off < off' → (compare key key').isLE = true

/-- **The first record of a group.** -/
structure FirstRecord (file : Bytes) (off : ℕ) (group : Bytes) : Prop where
  record : RecordAt file off group
  first : ∀ off', RecordAt file off' group → off ≤ off'

lemma KeysAscending.sorted {file : Bytes} (h : KeysAscending file) : RecordsSorted (tableRecords file) :=
  (tableRecordsFrom_ascending 0 (lines file)).2.imp_of_mem fun hr hr' hlt =>
    h _ _ _ _ (mem_tableRecords.mp hr) (mem_tableRecords.mp hr') hlt

lemma RecordsSorted.ascending {file : Bytes} (h : RecordsSorted (tableRecords file)) : KeysAscending file := by
  have hoffsets : (tableRecords file).Pairwise fun r r' => r.offset < r'.offset :=
    (tableRecordsFrom_ascending 0 (lines file)).2
  have hall : ∀ ⦃r⦄, r ∈ tableRecords file → ∀ ⦃r'⦄, r' ∈ tableRecords file →
      r.offset < r'.offset → (compare r.key r'.key).isLE = true := by
    refine List.Pairwise.forall_of_forall_of_flip (fun r _ hlt => absurd hlt (lt_irrefl _)) ?_ ?_
    · exact List.Pairwise.imp (fun {r r'} hle (_ : r.offset < r'.offset) => hle) h
    · exact hoffsets.imp fun hlt hgt => absurd hgt hlt.asymm
  intro off off' key key' hr hr'
  have hmem : (⟨off, key⟩ : TableRecord) ∈ tableRecords file := mem_tableRecords.mpr hr
  have hmem' : (⟨off', key'⟩ : TableRecord) ∈ tableRecords file := mem_tableRecords.mpr hr'
  exact hall hmem hmem'

/-- **The index never skips a version.** In every file whose records are grouped by key in ascending
order, and with every stride, a lookup of any key begins at the first record of a group; the key of
the group is not larger, or the group is the first one of the file; and no record of the key is in
front of it. There is no place to begin only where there are no records. -/
theorem index_skips_no_version {file : Bytes} (hfile : KeysAscending file) (stride : ℕ)
    (key : Bytes) :
    (findStartOffset (buildIndex stride file) key = none ↔ ∀ off k, ¬ RecordAt file off k) ∧
    ∀ off, findStartOffset (buildIndex stride file) key = some off →
      ∃ group, FirstRecord file off group ∧
        (compare group key ≠ .gt ∨ ∀ off' k, RecordAt file off' k → off ≤ off') ∧
        ∀ off', RecordAt file off' key → off ≤ off' := by
  have hs := hfile.sorted
  obtain ⟨hentries, hfirst⟩ := indexed_build hs stride
  refine ⟨?_, fun off hoff => ?_⟩
  · rw [findStartOffset_eq_none]
    constructor
    · intro hempty off k hrec
      have hmem : (⟨off, k⟩ : TableRecord) ∈ tableRecords file := mem_tableRecords.mpr hrec
      obtain ⟨r, rs, hrecords⟩ := List.exists_cons_of_ne_nil (List.ne_nil_of_mem hmem)
      exact hempty r.key (hfirst r (by rw [hrecords]; rfl))
    · intro hnone k hk
      obtain ⟨off, hoff⟩ := Option.isSome_iff_exists.mp
        (Std.ExtTreeMap.mem_iff_isSome_getElem?.mp hk)
      obtain ⟨r, hr, -⟩ := Option.map_eq_some_iff.mp (hentries k off hoff)
      exact hnone _ _ (mem_tableRecords.mp (List.mem_of_find?_eq_some hr))
  · obtain ⟨pre, r, suf, hrecords, rfl, hlt, hgroup⟩ := findStartOffset_records hs hoff
    have hoffsets := (tableRecordsFrom_ascending 0 (lines file)).2
    change (tableRecords file).Pairwise _ at hoffsets
    rw [hrecords] at hoffsets
    have hrec : RecordAt file r.offset r.key := mem_tableRecords.mp (by rw [hrecords]; simp)
    -- a record of another key than those in front is not in front
    have hbehind : ∀ off' k, RecordAt file off' k → (∀ x ∈ pre, x.key ≠ k) → r.offset ≤ off' := by
      intro off' k hrec' hne
      have hmem : (⟨off', k⟩ : TableRecord) ∈ tableRecords file := mem_tableRecords.mpr hrec'
      rw [hrecords] at hmem
      rcases List.mem_append.mp hmem with hmem | hmem
      · exact absurd rfl (hne _ hmem)
      · rcases List.mem_cons.mp hmem with hmem | hmem
        · rw [← hmem]
        · exact ((List.pairwise_cons.mp (List.pairwise_append.mp hoffsets).2.1).1 _ hmem).le
    refine ⟨r.key, ⟨hrec, fun off' hrec' => hbehind off' _ hrec' fun x hx he => ?_⟩, ?_, ?_⟩
    · have hself := hlt x hx
      rw [he] at hself
      simp [Std.ReflCmp.compare_self] at hself
    · exact hgroup.imp_right fun hpre off' k hrec' => hbehind off' k hrec' (by simp [hpre])
    · exact fun off' hrec' => hbehind off' key hrec' (ne_of_smaller hlt hgroup)

/-- A record of one key and three of another, of which the last value begins with a blank. -/
def versionsFile : Bytes := text "a\t1\tP\tx\nb\t2\tP\tx\nb\t3\tD\nb\t5\tP\t x\n"

/-- A stride that hits the middle of a group. -/
theorem index_skips_no_version_middle : ∃ group, FirstRecord versionsFile 8 group ∧
    (compare group (text "b") ≠ .gt ∨ ∀ off' k, RecordAt versionsFile off' k → 8 ≤ off') ∧
    ∀ off', RecordAt versionsFile off' (text "b") → 8 ≤ off' := by
  have hsorted : RecordsSorted (tableRecords versionsFile) := by
    unfold RecordsSorted
    decide +kernel
  exact (index_skips_no_version hsorted.ascending 2 (text "b")).2 8 (by decide +kernel)

end VeriStore.Sstable

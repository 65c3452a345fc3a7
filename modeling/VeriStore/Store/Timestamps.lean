import VeriStore.Sstable.Codec
import VeriStore.Store.Durability
import VeriStore.Store.Restart

/-!
Timestamps over a restart.

`open` takes the counter from the log alone: what the loader of the snapshot has put there is
overwritten, and the tables are not asked. So the next write is newer than every version exactly
when no version in the snapshot or in a listed table is newer than all records of the log. Tables
may hold any bytes here; a compaction at startup keeps the timestamps of its inputs.

* `open_monotone_iff` — when the counter dominates what `open` finds;
* `checkpoint_resets_seq` — a checkpoint, after which timestamps are given out again.
-/

namespace VeriStore.Store

open VeriStore.Lib VeriStore.Sstable VeriStore.Log

open KVStore (CompactIo CompactJob OpenIo)

/-! ### The timestamps of a table -/

/-- The timestamp of a line. -/
def lineTimestamp (l : Bytes) : Option ℕ := (parseRow l).map fun row => row.2.1

/-- The timestamps of the lines that a reader parses; a line that it cannot parse is skipped. -/
def tableTimestamps (file : Option Bytes) : List ℕ := (lines (file.getD [])).filterMap lineTimestamp

@[simp] lemma tableTimestamps_none : tableTimestamps none = [] := rfl

/-- The lines of rows have their timestamps. -/
lemma lineTimestamp_rowText {r : Row} (h : RowOk r) :
    lineTimestamp (rowText r.1 r.2) = some r.2.timestamp := by
  rw [lineTimestamp, parseRow_rowText h]
  rfl

/-- **A cut line** has its timestamp or none. -/
lemma lineTimestamp_cut {r : Row} (h : RowOk r) {n t : ℕ}
    (ht : lineTimestamp ((rowText r.1 r.2).take n) = some t) : t = r.2.timestamp := by
  obtain ⟨key, v⟩ := r
  have hword : Word key := h.word
  have htab : isSpace tab = true := by decide
  have hkey : ∀ s : Bytes, extractString (key ++ tab :: s) = some (key, tab :: s) := fun s =>
    extractString_word hword (by rintro b ⟨⟩; exact htab)
  obtain ⟨⟨k, t', type, rest⟩, hp, rfl⟩ := Option.map_eq_some_iff.mp ht
  simp only [parseRow, Option.bind_eq_bind, Option.pure_def, Option.bind_eq_some_iff] at hp
  obtain ⟨⟨k, s1⟩, h1, ⟨m, s2⟩, h2, ⟨c, s3⟩, h3, h4⟩ := hp
  simp only [Option.some.injEq, Prod.mk.injEq] at h4
  obtain ⟨rfl, rfl, rfl, rfl⟩ := h4
  show m = v.timestamp
  have hts : v.timestamp < 2 ^ 64 := h.timestamp_lt
  simp only [rowText_eq] at h1
  set dec := decimal v.timestamp with hdec
  have hdig : ∀ b ∈ dec, isDigit b = true := isDigit_of_mem_decimal v.timestamp
  -- inside the key, inside the timestamp, or behind the second tab
  by_cases hn1 : n ≤ key.length
  · rw [List.take_append_of_le_length hn1] at h1
    have hs1 : s1 = [] := by
      by_cases hnil : key.take n = []
      · simp [hnil, extractString, skipWs] at h1
      · have hpart : Word (key.take n) := ⟨hnil, fun b hb => hword.2 b (List.mem_of_mem_take hb)⟩
        have hall := extractString_word hpart (s := []) (by simp)
        rw [List.append_nil] at hall
        exact (Prod.mk.inj (Option.some.inj (h1.symm.trans hall))).2
    subst hs1
    simp [extractU64, skipWs, readSign] at h2
  by_cases hn2 : n ≤ key.length + 1 + dec.length
  · have htake : (key ++ tab :: (dec ++ tab :: (rowType v).1 :: (rowType v).2)).take n =
        key ++ tab :: dec.take (n - key.length - 1) := by
      rw [List.take_append, List.take_of_length_le (by omega),
        show n - key.length = (n - key.length - 1) + 1 by omega, List.take_succ_cons,
        List.take_append_of_le_length (by omega)]
      simp
    rw [htake, hkey] at h1
    obtain ⟨rfl, rfl⟩ := Prod.mk.inj (Option.some.inj h1)
    have hs2 : s2 = [] := extractU64_digits (fun b hb => hdig b (List.mem_of_mem_take hb))
      (extractU64_cons htab ▸ h2)
    subst hs2
    simp [extractChar, skipWs] at h3
  · obtain ⟨i, rfl⟩ : ∃ i, n = key.length + 1 + dec.length + 1 + i :=
      ⟨n - (key.length + 1 + dec.length + 1), by omega⟩
    have htake : ∀ q : Bytes, (key ++ tab :: (dec ++ tab :: q)).take
        (key.length + 1 + dec.length + 1 + i) = key ++ tab :: (dec ++ tab :: q.take i) := fun q => by
      rw [List.take_append, List.take_of_length_le (by omega),
        show key.length + 1 + dec.length + 1 + i - key.length = (dec.length + 1 + i) + 1 by omega,
        List.take_succ_cons, List.take_append, List.take_of_length_le (by omega),
        show dec.length + 1 + i - dec.length = i + 1 by omega, List.take_succ_cons]
    rw [htake, hkey] at h1
    obtain ⟨rfl, rfl⟩ := Prod.mk.inj (Option.some.inj h1)
    rw [extractU64_cons htab, extractU64_decimal hts (by rintro b ⟨⟩; decide)] at h2
    exact (Prod.mk.inj (Option.some.inj h2)).1.symm

/-- The timestamps of rows. -/
def RowTimestamp (rs : List Row) (t : ℕ) : Prop := ∃ r ∈ rs, r.2.timestamp = t

lemma rowTimestamp_iff {rs : List Row} {t : ℕ} :
    RowTimestamp rs t ↔ t ∈ rs.map fun r => r.2.timestamp := by
  simp [RowTimestamp]

lemma rowTimestamp_iff_exists {rs : List Row} {l : Bytes → List Version}
    (h : ∀ key v, (key, v) ∈ rs ↔ v ∈ l key) {t : ℕ} :
    RowTimestamp rs t ↔ ∃ key, ∃ v ∈ l key, v.timestamp = t := by
  constructor
  · rintro ⟨⟨key, v⟩, hr, ht⟩
    exact ⟨key, v, (h key v).mp hr, ht⟩
  · rintro ⟨key, v, hr, ht⟩
    exact ⟨(key, v), (h key v).mpr hr, ht⟩

/-- A whole table. -/
lemma mem_tableTimestamps {rs : List Row} (h : ∀ r ∈ rs, RowOk r) (t : ℕ) :
    t ∈ tableTimestamps (some (rowsBytes rs)) ↔ RowTimestamp rs t := by
  have hmap : tableTimestamps (some (rowsBytes rs)) = rs.map fun r => r.2.timestamp := by
    unfold tableTimestamps
    rw [Option.getD_some, lines_rowsBytes h, List.filterMap_map]
    induction rs with
    | nil => rfl
    | cons r rs ih =>
      have hr : (lineTimestamp ∘ fun r : Row => rowText r.1 r.2) r = some r.2.timestamp :=
        lineTimestamp_rowText (h r (by simp))
      rw [List.filterMap_cons_some hr, List.map_cons,
        ih fun x hx => h x (List.mem_cons_of_mem r hx)]
  rw [hmap, rowTimestamp_iff]

/-- **The first bytes of a table** have no other timestamps. -/
lemma tableTimestamps_take {rs : List Row} (h : ∀ r ∈ rs, RowOk r) {n t : ℕ}
    (ht : t ∈ tableTimestamps (some ((rowsBytes rs).take n))) : RowTimestamp rs t := by
  induction rs generalizing n with
  | nil => simp [tableTimestamps] at ht
  | cons r rs ih =>
    have hr := h r (by simp)
    have hnl := hr.newline_notMem
    have htail : ∀ {t}, RowTimestamp rs t → RowTimestamp (r :: rs) t := fun ⟨x, hx, hxt⟩ =>
      ⟨x, List.mem_cons_of_mem r hx, hxt⟩
    unfold tableTimestamps at ht ih
    rw [rowsBytes_cons, Option.getD_some] at ht
    by_cases hn : (rowText r.1 r.2).length < n
    · obtain ⟨m, hm⟩ : ∃ m, n - (rowText r.1 r.2).length = m + 1 :=
        ⟨n - (rowText r.1 r.2).length - 1, by omega⟩
      rw [List.take_append, List.take_of_length_le hn.le, hm, List.take_succ_cons,
        lines_append hnl, List.filterMap_cons_some (lineTimestamp_rowText hr)] at ht
      rcases List.mem_cons.mp ht with rfl | ht
      · exact ⟨r, by simp, rfl⟩
      · exact htail (ih (fun x hx => h x (List.mem_cons_of_mem r hx)) ht)
    · -- one line, which may be cut
      rw [List.take_append_of_le_length (not_lt.mp hn)] at ht
      obtain ⟨l, hl, hlt⟩ := List.mem_filterMap.mp ht
      have hcut : l = (rowText r.1 r.2).take n := by
        by_cases hnil : (rowText r.1 r.2).take n = []
        · simp [hnil] at hl
        · rw [lines_eq_singleton hnil fun hm => hnl (List.mem_of_mem_take hm)] at hl
          exact List.mem_singleton.mp hl
      exact ⟨r, by simp, (lineTimestamp_cut hr (hcut ▸ hlt)).symm⟩

/-! ### Compaction -/

/-- Sorting keeps every timestamp; of equal ones the first version stays. -/
lemma exists_sortVersions {vs : List Version} {t : ℕ} :
    (∃ v ∈ sortVersions vs, v.timestamp = t) ↔ ∃ v ∈ vs, v.timestamp = t := by
  have hdrop : ∀ (l : List Version) (a : Version),
      (∃ v ∈ List.destutter' (fun a b => a.timestamp ≠ b.timestamp) a l, v.timestamp = t) ↔
        ∃ v ∈ a :: l, v.timestamp = t := by
    intro l
    induction l with
    | nil => intro a; simp
    | cons b l ih =>
      intro a
      rw [List.destutter'_cons]
      split
      · rw [List.exists_mem_cons_iff, ih b, List.exists_mem_cons_iff (l := b :: l)]
      · next hab =>
        rw [ih a, List.exists_mem_cons_iff, List.exists_mem_cons_iff, List.exists_mem_cons_iff,
          not_not.mp hab, ← or_assoc, or_self]
  have hperm := List.mergeSort_perm vs timestampLe
  have hsort : (∃ v ∈ vs.mergeSort timestampLe, v.timestamp = t) ↔ ∃ v ∈ vs, v.timestamp = t := by
    simp only [hperm.mem_iff]
  rw [← hsort, sortVersions, uniqueTimestamps]
  cases vs.mergeSort timestampLe with
  | nil => simp
  | cons a l => exact hdrop l a

/-- **A compaction that succeeds** writes rows with the timestamps of its inputs, whatever bytes
these are. -/
lemma compact_some {f g : Option Bytes} {out : Bytes} (h : compact [f, g] = some out) :
    ∃ rs : List Row, out = rowsBytes rs ∧ (∀ r ∈ rs, RowOk r) ∧
      ∀ t, RowTimestamp rs t ↔ t ∈ tableTimestamps f ∨ t ∈ tableTimestamps g := by
  unfold compact compactWith at h
  rw [if_neg (by simp)] at h
  simp only [List.foldlM_cons, List.foldlM_nil, Option.bind_eq_bind, Option.pure_def,
    Option.bind_eq_some_iff, Option.some.injEq] at h
  obtain ⟨m, ⟨m₁, h₁, m₂, h₂, rfl⟩, rfl⟩ := h
  obtain ⟨s₁, rfl, h₁⟩ := Option.bind_eq_some_iff.mp h₁
  obtain ⟨s₂, rfl, h₂⟩ := Option.bind_eq_some_iff.mp h₂
  obtain ⟨rs₁, rfl, hok₁, hts₁⟩ := loadRows_some h₁ fun l => newline_notMem_of_mem_lines
  obtain ⟨rs₂, rfl, hok₂, hts₂⟩ := loadRows_some h₂ fun l => newline_notMem_of_mem_lines
  change (lines s₁).filterMap lineTimestamp = _ at hts₁
  change (lines s₂).filterMap lineTimestamp = _ at hts₂
  set e : Entries := (pushRows (pushRows ∅ rs₁) rs₂).map fun _ vs => sortVersions vs with he
  have hv : ∀ key, versionsOf e key = sortVersions (versionsIn (rs₁ ++ rs₂) key) := by
    intro key
    rw [he, versionsOf_map sortVersions_nil, versionsOf_pushRows, versionsOf_pushRows, versionsIn_append]
    simp [versionsOf]
  refine ⟨rows e, rfl, ?_, fun t => ?_⟩
  · rintro ⟨key, v⟩ hr
    have hm := mem_of_mem_sortVersions (hv key ▸ mem_rows.mp hr)
    rcases List.mem_append.mp (mem_versionsIn.mp hm) with hm | hm
    · exact hok₁ _ hm
    · exact hok₂ _ hm
  · unfold tableTimestamps
    rw [Option.getD_some, Option.getD_some, hts₁, hts₂, ← List.mem_append, ← List.map_append,
      ← rowTimestamp_iff]
    rw [rowTimestamp_iff_exists fun key v => mem_rows,
      rowTimestamp_iff_exists fun key v => mem_versionsIn.symm]
    exact exists_congr fun key => by rw [hv, exists_sortVersions]

/-- A table of the store has the timestamp. -/
def KVStore.HasTimestamp (s : KVStore) (d : Disk) (t : ℕ) : Prop :=
  ∃ p ∈ s.sstablePaths, t ∈ tableTimestamps d.tables[p]?

/-- The files of a compaction of rows `rs` before its inputs are removed: the temporary file and
the output have timestamps of the rows, and the other files are as before. -/
structure Reworked (d : Disk) (rs : List Row) (temp output : Bytes) (d' : Disk) : Prop where
  below : ∀ (p : Bytes) (t : ℕ), t ∈ tableTimestamps d'.tables[p]? →
    t ∈ tableTimestamps d.tables[p]? ∨ RowTimestamp rs t
  same : ∀ p : Bytes, p ≠ temp → p ≠ output → d'.tables[p]? = d.tables[p]?

section Compaction

variable {s : KVStore} {d d' : Disk} {rs : List Row} {temp output : Bytes}

lemma Reworked.refl : Reworked d rs temp output d := ⟨fun _ _ h => Or.inl h, fun _ _ _ => rfl⟩

/-- The rows are written to the temporary file or to the output, as far as they get. -/
lemma Reworked.insert (h : Reworked d rs temp output d') (hok : ∀ r ∈ rs, RowOk r) {p : Bytes}
    (hp : p = temp ∨ p = output) (n : ℕ) :
    Reworked d rs temp output { d' with tables := d'.tables.insert p ((rowsBytes rs).take n) } where
  below q t ht := by
    simp only [Std.ExtTreeMap.getElem?_insert] at ht
    split at ht
    · exact Or.inr (tableTimestamps_take hok ht)
    · exact h.below q t ht
  same q h1 h2 := by
    have hne : p ≠ q := by
      rcases hp with rfl | rfl
      · exact h1.symm
      · exact h2.symm
    simp only [Std.ExtTreeMap.getElem?_insert, Std.compare_eq_iff_eq, if_neg hne]
    exact h.same q h1 h2

lemma Reworked.erase (h : Reworked d rs temp output d') {p : Bytes} (hp : p = temp ∨ p = output) :
    Reworked d rs temp output { d' with tables := d'.tables.erase p } where
  below q t ht := by
    simp only [Std.ExtTreeMap.getElem?_erase] at ht
    split at ht
    · simp at ht
    · exact h.below q t ht
  same q h1 h2 := by
    have hne : p ≠ q := by
      rcases hp with rfl | rfl
      · exact h1.symm
      · exact h2.symm
    simp only [Std.ExtTreeMap.getElem?_erase, Std.compare_eq_iff_eq, if_neg hne]
    exact h.same q h1 h2

/-- The tables of the store are as before: a compaction that failed on the way. -/
lemma Reworked.kept {first second : Bytes} {s' : KVStore} (h : Reworked d rs temp output d')
    (hts : ∀ t, RowTimestamp rs t ↔
      t ∈ tableTimestamps d.tables[first]? ∨ t ∈ tableTimestamps d.tables[second]?)
    (hfirst : first ∈ s.sstablePaths) (hsecond : second ∈ s.sstablePaths)
    (hnew : output ∉ s.sstablePaths) (hp : s'.sstablePaths = s.sstablePaths) (t : ℕ) :
    (s'.HasTimestamp d' t → s.HasTimestamp d t) ∧
      (temp ∉ s.sstablePaths → s.HasTimestamp d t → s'.HasTimestamp d' t) := by
  unfold KVStore.HasTimestamp
  rw [hp]
  constructor
  · rintro ⟨p, hp, ht⟩
    rcases h.below p t ht with ht | ht
    · exact ⟨p, hp, ht⟩
    · rcases (hts t).mp ht with ht | ht
      · exact ⟨first, hfirst, ht⟩
      · exact ⟨second, hsecond, ht⟩
  · rintro htemp ⟨p, hp, ht⟩
    refine ⟨p, hp, ?_⟩
    rwa [h.same p (ne_of_mem_of_not_mem hp htemp) (ne_of_mem_of_not_mem hp hnew)]

/-- The output stands for the two inputs, which are removed. -/
lemma Reworked.replaced {first second : Bytes} {rest : List Bytes} {s' : KVStore}
    (h : Reworked d rs temp output d')
    (hts : ∀ t, RowTimestamp rs t ↔
      t ∈ tableTimestamps d.tables[first]? ∨ t ∈ tableTimestamps d.tables[second]?)
    (hs : s.sstablePaths = first :: second :: rest) (hnew : output ∉ s.sstablePaths)
    (hout : ∀ t, t ∈ tableTimestamps d'.tables[output]? ↔ RowTimestamp rs t)
    (hp : s'.sstablePaths = output :: rest) (t : ℕ) :
    (s'.HasTimestamp { d' with tables := (d'.tables.erase first).erase second } t →
      s.HasTimestamp d t) ∧
      (temp ∉ s.sstablePaths → s.HasTimestamp d t →
        s'.HasTimestamp { d' with tables := (d'.tables.erase first).erase second } t) := by
  -- what is left of a file behind the removals
  have hget : ∀ p : Bytes, ((d'.tables.erase first).erase second)[p]? =
      if second = p then none else if first = p then none else d'.tables[p]? := fun p => by
    simp only [Std.ExtTreeMap.getElem?_erase, Std.compare_eq_iff_eq]
  have hmerged : RowTimestamp rs t → s.HasTimestamp d t := fun ht => by
    rcases (hts t).mp ht with ht | ht
    · exact ⟨first, by simp [hs], ht⟩
    · exact ⟨second, by simp [hs], ht⟩
  have hne : second ≠ output ∧ first ≠ output := by
    rw [hs] at hnew
    simp only [List.mem_cons, not_or] at hnew
    exact ⟨Ne.symm hnew.2.1, Ne.symm hnew.1⟩
  constructor
  · rintro ⟨p, hpm, ht⟩
    rw [hp] at hpm
    simp only [hget] at ht
    split at ht
    · simp at ht
    split at ht
    · simp at ht
    rcases List.mem_cons.mp hpm with rfl | hpm
    · exact hmerged ((hout t).mp ht)
    · rcases h.below p t ht with ht | ht
      · exact ⟨p, by simp [hs, hpm], ht⟩
      · exact hmerged ht
  · rintro htemp ⟨p, hpm, ht⟩
    have houtput : RowTimestamp rs t →
        s'.HasTimestamp { d' with tables := (d'.tables.erase first).erase second } t := fun ht =>
      ⟨output, by simp [hp], by
        simp only [hget, if_neg hne.1, if_neg hne.2]
        exact (hout t).mpr ht⟩
    by_cases h1 : p = first
    · exact houtput ((hts t).mpr (Or.inl (h1 ▸ ht)))
    by_cases h2 : p = second
    · exact houtput ((hts t).mpr (Or.inr (h2 ▸ ht)))
    have hrest : p ∈ rest := by
      rw [hs] at hpm
      simpa [h1, h2] using hpm
    refine ⟨p, by simp [hp, hrest], ?_⟩
    simp only [hget, if_neg (Ne.symm h1), if_neg (Ne.symm h2)]
    rwa [h.same p (ne_of_mem_of_not_mem hpm htemp) (ne_of_mem_of_not_mem hpm hnew)]

/-- **A compaction keeps the timestamps of the tables**, whatever bytes they hold and whichever of
its steps fail; none is added, and none is lost unless a table has the name of the temporary
file. -/
theorem maybeCompact_hasTimestamp (s : KVStore) (d : Disk) (io : CompactIo) (t : ℕ) :
    ((s.maybeCompactSstables d io).2.1.HasTimestamp (s.maybeCompactSstables d io).2.2 t →
      s.HasTimestamp d t) ∧
    (NoTemporary s.sstablePaths → s.HasTimestamp d t →
      (s.maybeCompactSstables d io).2.1.HasTimestamp (s.maybeCompactSstables d io).2.2 t) := by
  by_cases hlen : s.sstablePaths.length < kCompactionTrigger
  · rw [KVStore.maybeCompactSstables, if_pos hlen]
    exact ⟨id, fun _ => id⟩
  obtain ⟨first, second, rest, hs⟩ := KVStore.exists_inputs hlen
  by_cases heq : first = second
  · subst heq
    have hcompact : s.maybeCompactSstables d io = (io.replace,
        { s with sstablePaths := first :: rest },
        if io.replace then { d with manifest := some (replaceSstables (first :: rest)) } else d) := by
      rw [hs] at hlen
      simp only [KVStore.maybeCompactSstables, hs, if_neg hlen, if_true]
    have htables : (s.maybeCompactSstables d io).2.2.tables = d.tables := by
      rw [hcompact]
      cases io.replace <;> rfl
    unfold KVStore.HasTimestamp
    rw [htables, hcompact, hs]
    constructor
    · rintro ⟨p, hp, ht⟩
      exact ⟨p, List.mem_cons_of_mem first hp, ht⟩
    · rintro - ⟨p, hp, ht⟩
      exact ⟨p, by simpa using hp, ht⟩
  obtain ⟨i, -, hfresh, hnew⟩ := freshOutput_notMem s.sstablePaths s.nextSstableId
  set output := compactedPath i with houtput
  set temp := output ++ text ".tmp" with htemp
  have hbegin : KVStore.compactBegin s first second rest = ({ s with nextSstableId := i + 1 },
      ⟨first, second, output, output :: rest⟩) := by
    rw [KVStore.compactBegin, hfresh]
  have hno : NoTemporary s.sstablePaths → temp ∉ s.sstablePaths := fun h => h i
  have hm1 : first ∈ s.sstablePaths := by simp [hs]
  have hm2 : second ∈ s.sstablePaths := by simp [hs]
  set j : CompactJob := ⟨first, second, output, output :: rest⟩ with hj
  set s₁ : KVStore := { s with nextSstableId := i + 1 } with hs₁
  have hcompact := KVStore.maybeCompactSstables_of_ne hlen hs heq d io
  simp only [hbegin] at hcompact
  rw [hcompact]
  cases hc : compact [d.tables[first]?, d.tables[second]?] with
  | none =>
    have hw : KVStore.compactWrite j d io.compact = (false, d) := by
      simp [KVStore.compactWrite, hj, hc]
    rw [hw]
    exact ⟨id, fun _ => id⟩
  | some out =>
    obtain ⟨rs, rfl, hok, hts⟩ := compact_some hc
    have h₀ : Reworked d rs temp output d := .refl
    -- the files after the merge and after the rename
    have h₁ := h₀.insert hok (Or.inl rfl) (rowsBytes rs).length
    rw [List.take_length] at h₁
    set d₁ : Disk := { d with tables := d.tables.insert temp (rowsBytes rs) } with hd₁
    have h₂ := (h₁.erase (Or.inl rfl)).insert hok (Or.inr rfl) (rowsBytes rs).length
    rw [List.take_length] at h₂
    set d₂ : Disk := { d₁ with
      tables := (d₁.tables.erase temp).insert output (rowsBytes rs) } with hd₂
    have hkept : ∀ {d'}, Reworked d rs temp output d' →
        (s₁.HasTimestamp d' t → s.HasTimestamp d t) ∧
          (NoTemporary s.sstablePaths → s.HasTimestamp d t → s₁.HasTimestamp d' t) := fun h =>
      (h.kept hts hm1 hm2 hnew rfl t).imp_right fun h hn => h (hno hn)
    cases hio : io.compact with
    | refused =>
      have hw : KVStore.compactWrite j d .refused = (false, d) := by
        simp [KVStore.compactWrite, hj, hc]
      rw [hw]
      exact hkept h₀
    | short n =>
      have hw : KVStore.compactWrite j d (.short n) =
          (false, { d with tables := d.tables.insert temp ((rowsBytes rs).take n) }) := by
        simp only [KVStore.compactWrite, hj, hc]
        rfl
      rw [hw]
      exact hkept (h₀.insert hok (Or.inl rfl) n)
    | ok =>
      have hw : KVStore.compactWrite j d .ok = (true, d₁) := by
        simp only [KVStore.compactWrite, hj, hc]
        rfl
      rw [hw]
      cases hrename : io.rename with
      | false =>
        exact hkept (h₁.erase (Or.inl rfl))
      | true =>
        have hget : d₁.tables[j.tempOutput]? = some (rowsBytes rs) := by
          rw [hd₁]
          exact Std.ExtTreeMap.getElem?_insert_self
        have hrn : KVStore.compactRename j d₁ true = (true, d₂) := by
          simp only [KVStore.compactRename, hget]
          rfl
        simp only [hrn]
        cases hreplace : io.replace with
        | false => exact hkept (h₂.erase (Or.inr rfl))
        | true =>
          have hout : ∀ t, t ∈ tableTimestamps d₂.tables[output]? ↔ RowTimestamp rs t := fun t => by
            rw [hd₂]
            simp only [Std.ExtTreeMap.getElem?_insert_self]
            exact mem_tableTimestamps hok t
          have hpaths : ({ s₁ with sstablePaths := output :: rest } : KVStore).sstablePaths =
              output :: rest := rfl
          exact (h₂.replaced hts hs hnew hout hpaths t).imp_right fun h hn => h (hno hn)

end Compaction

/-! ### The counter after `open` -/

/-- **The counter dominates the store**: no version in the memtable or in a table is newer, and so
a step that writes a version writes a newer one, where the counter has 64 bits. -/
structure Process.Dominates (σ : Process) : Prop where
  memtable : ∀ key, ∀ v ∈ versionsOf σ.store.memtable.entries key, v.timestamp ≤ σ.store.seq
  tables : ∀ t, σ.store.HasTimestamp σ.disk t → t ≤ σ.store.seq
  next : ∀ a σ', σ.Effect a σ' → ∀ r ∈ σ'.written, r ∉ σ.written →
    (∀ key, ∀ v ∈ versionsOf σ.store.memtable.entries key, v.timestamp < r.2.timestamp % 2 ^ 64) ∧
      ∀ t, σ.store.HasTimestamp σ.disk t → t < r.2.timestamp % 2 ^ 64

/-- The log has a record that is not older than the timestamp. -/
def Disk.Reaches (d : Disk) (t : ℕ) : Prop := t = 0 ∨ ∃ r ∈ records (d.wal.getD []), t ≤ r.seq

/-- **The log covers the other files**: every timestamp that is loaded from the snapshot or stands
in a table of the manifest is reached by the log. -/
structure LogCovers (d : Disk) : Prop where
  snapshot : ∀ key, ∀ v ∈ versionsOf (loadedSnapshot d).memtable.entries key,
    d.Reaches v.timestamp
  tables : ∀ p ∈ loadSstables d.manifest, ∀ t ∈ tableTimestamps d.tables[p]?, d.Reaches t

lemma le_maxSeq_iff {rs : List Record} {t : ℕ} :
    t ≤ KVStore.maxSeq rs ↔ t = 0 ∨ ∃ r ∈ rs, t ≤ r.seq := by
  induction rs using List.reverseRecOn with
  | nil => simp [KVStore.maxSeq]
  | append_singleton rs x ih =>
    rw [KVStore.maxSeq_concat, le_max_iff, ih, or_assoc]
    simp [or_and_right, exists_or]

lemma Disk.reaches_iff (d : Disk) (t : ℕ) : d.Reaches t ↔ t ≤ logSeq d := le_maxSeq_iff.symm

/-- The versions behind a replay. -/
lemma versionsOf_applyRecords (s : KVStore) (ws : List Record) (key : Bytes) :
    versionsOf (s.applyRecords ws).memtable.entries key =
      versionsOf s.memtable.entries key ++ versionsIn (ws.map recordRow) key := by
  have hpush : (s.applyRecords ws).memtable.entries =
      pushRows s.memtable.entries (ws.map recordRow) := by
    induction ws generalizing s with
    | nil => rfl
    | cons w ws ih =>
      have hw : s.applyRecords (w :: ws) = (s.applyRecord w).applyRecords ws := rfl
      rw [hw, ih, (s.applyRecord_eq w).2, List.map_cons, pushRows_cons]
  rw [hpush, versionsOf_pushRows]

/-- A new version has the next number. -/
lemma Process.Effect.timestamp_new {σ σ' : Process} {a : Action} (he : σ.Effect a σ') {r : Row}
    (hr : r ∈ σ'.written) (hn : r ∉ σ.written) : r.2.timestamp = σ.store.seq + 1 := by
  rcases he.map_cases with ⟨-, hw⟩ | ⟨key, value, -, hw⟩
  · exact absurd (hw ▸ hr) hn
  · rw [hw] at hr
    rcases List.mem_append.mp hr with hr | hr
    · exact absurd hr hn
    · rw [List.mem_singleton.mp hr]

/-- **What `open` has found.** -/
lemma launch_found {d : Disk} {io : OpenIo} (hopen : (KVStore.new.open d io).1 = true) :
    (Process.launch d io).store.Writable ∧ (Process.launch d io).store.seq = logSeq d ∧
    (∀ key, versionsOf (Process.launch d io).store.memtable.entries key =
      versionsOf (loadedSnapshot d).memtable.entries key ++
        versionsIn ((records (d.wal.getD [])).map recordRow) key) ∧
    ∀ t, ((Process.launch d io).store.HasTimestamp (Process.launch d io).disk t →
        ∃ p ∈ loadSstables d.manifest, t ∈ tableTimestamps d.tables[p]?) ∧
      (NoTemporary (loadSstables d.manifest) →
        (∃ p ∈ loadSstables d.manifest, t ∈ tableTimestamps d.tables[p]?) →
          (Process.launch d io).store.HasTimestamp (Process.launch d io).disk t) := by
  obtain ⟨hm, good, e⟩ := KVStore.open_true hopen
  obtain ⟨s', d', hc, ho⟩ := (KVStore.recovered d good).openTables_true
    { d with wal := some (d.wal.getD []) } hm
  have hstore : (Process.launch d io).store = { s' with
      flushWorker := s'.flushWorker.start
      nextSstableId := s'.sstablePaths.length } := by
    show (KVStore.new.open d io).2.1 = _
    rw [e, ho]
  have hdisk : (Process.launch d io).disk = d' := by
    show (KVStore.new.open d io).2.2 = _
    rw [e, ho]
  set s := (KVStore.recovered d good).listTables d.manifest with hs
  obtain ⟨paths, n, m, tb, hf⟩ := s.maybeCompactSstables_frame
    { d with wal := some (d.wal.getD []), manifest := some (d.manifest.getD []) } io.compaction
  have hs' : s' = { s with sstablePaths := paths, nextSstableId := n } := by
    have h := hc.symm.trans hf
    exact (Prod.mk.inj h).1
  refine ⟨?_, ?_, fun key => ?_, fun t => ?_⟩
  · rw [hstore, hs']
    exact ⟨rfl, rfl⟩
  · rw [hstore, hs']
    rfl
  · have hmem : (Process.launch d io).store.memtable =
        ((loadedSnapshot d).applyRecords (records (d.wal.getD []))).memtable := by
      rw [hstore, hs']
      rfl
    rw [hmem, versionsOf_applyRecords]
  · have h := maybeCompact_hasTimestamp s
      { d with wal := some (d.wal.getD []), manifest := some (d.manifest.getD []) } io.compaction t
    rw [hc] at h
    rw [hstore, hdisk]
    exact h

/-- A put that adds a version. -/
lemma Process.Effect.put_writable {σ : Process} (hw : σ.store.Writable) (hpc : σ.pc = .idle)
    (key value : Bytes) : ∃ σ', σ.Effect (.put key value) σ' ∧
      σ'.written = σ.written ++ [(key, ⟨σ.store.seq + 1, some value⟩)] := by
  refine ⟨_, .put key value hpc, ?_⟩
  have hfd : σ.store.wal.fd.isNone = false := by simpa using hw.2
  simp [Process.put, Process.write, hw.1, hfd]

/-- Behind the last number of 64 bits the counter begins at zero again, below the version that has
this number. -/
lemma Process.Dominates.next_lt {d : Disk} {io : OpenIo}
    (hopen : (KVStore.new.open d io).1 = true) (h : (Process.launch d io).Dominates) :
    logSeq d + 1 < 2 ^ 64 := by
  obtain ⟨hw, hseq, hmem, -⟩ := launch_found hopen
  obtain ⟨σ', he, hnew⟩ := Effect.put_writable hw rfl (text "a") []
  have hwritten : (Process.launch d io).written = [] := rfl
  rw [hwritten, List.nil_append, hseq] at hnew
  have hnext := (h.next _ _ he _ (hnew ▸ List.mem_singleton_self _) (by simp [hwritten])).1
  have hle : logSeq d < 2 ^ 64 := by
    rcases le_maxSeq_iff.mp (le_refl (logSeq d)) with h0 | ⟨r, hr, hle⟩
    · omega
    · exact hle.trans_lt (fits_of_mem_records hr).2.2
  by_contra hge
  obtain ⟨r, hr, hlast⟩ : ∃ r ∈ records (d.wal.getD []), logSeq d ≤ r.seq :=
    (le_maxSeq_iff.mp (le_refl (logSeq d))).resolve_left (by omega)
  have hlt := hnext r.key ⟨r.seq, r.value⟩ (by
    rw [hmem]
    exact List.mem_append_right _ (mem_versionsIn.mpr (List.mem_map_of_mem hr)))
  have hzero : (logSeq d + 1) % 2 ^ 64 = 0 := by omega
  simp only [hzero] at hlt
  omega

/-- **Timestamps over a restart.** Whatever files `open` finds: the counter dominates the memtable
and the tables if the log covers them and the counter has not come to its end, and only then, unless
a table has the name of a temporary file. -/
theorem open_monotone_iff {d : Disk} {io : OpenIo} (hopen : (KVStore.new.open d io).1 = true) :
    (LogCovers d → logSeq d + 1 < 2 ^ 64 → (Process.launch d io).Dominates) ∧
      (NoTemporary (loadSstables d.manifest) →
        ((Process.launch d io).Dominates ↔ LogCovers d ∧ logSeq d + 1 < 2 ^ 64)) := by
  obtain ⟨-, hseq, hmem, htab⟩ := launch_found hopen
  have hlog : ∀ key, ∀ v ∈ versionsIn ((records (d.wal.getD [])).map recordRow) key,
      v.timestamp ≤ logSeq d := by
    intro key v hv
    obtain ⟨r, hr, he⟩ := List.mem_map.mp (mem_versionsIn.mp hv)
    obtain rfl : (⟨r.seq, r.value⟩ : Version) = v := (Prod.mk.inj he).2
    exact le_maxSeq_iff.mpr (Or.inr ⟨r, hr, le_rfl⟩)
  have hcovers : LogCovers d → logSeq d + 1 < 2 ^ 64 → (Process.launch d io).Dominates := by
    intro h hlt
    have h1 : ∀ key, ∀ v ∈ versionsOf (Process.launch d io).store.memtable.entries key,
        v.timestamp ≤ (Process.launch d io).store.seq := by
      intro key v hv
      rw [hmem] at hv
      rw [hseq]
      rcases List.mem_append.mp hv with hv | hv
      · exact (d.reaches_iff _).mp (h.snapshot key v hv)
      · exact hlog key v hv
    have h2 : ∀ t, (Process.launch d io).store.HasTimestamp (Process.launch d io).disk t →
        t ≤ (Process.launch d io).store.seq := by
      intro t ht
      obtain ⟨p, hp, ht⟩ := (htab t).1 ht
      rw [hseq]
      exact (d.reaches_iff t).mp (h.tables p hp t ht)
    refine ⟨h1, h2, fun a σ' he r hr hn => ?_⟩
    rw [he.timestamp_new hr hn, Nat.mod_eq_of_lt (hseq ▸ hlt)]
    exact ⟨fun key v hv => Nat.lt_succ_of_le (h1 key v hv), fun t ht => Nat.lt_succ_of_le (h2 t ht)⟩
  refine ⟨hcovers, fun hno => ⟨fun h => ⟨⟨fun key v hv => ?_, fun p hp t ht => ?_⟩, h.next_lt hopen⟩,
    fun h => hcovers h.1 h.2⟩⟩
  · rw [d.reaches_iff, ← hseq]
    exact h.memtable key v (by rw [hmem]; exact List.mem_append_left _ hv)
  · rw [d.reaches_iff, ← hseq]
    exact h.tables t ((htab t).2 hno ⟨p, hp, ht⟩)

/-- A put, a flush of the log and a checkpoint. -/
def putCheckpoint : List Action :=
  [.put (text "a") (text "1"), .rotate, .commit .ok, .flushWal .ok, .save .ok, .removeWal,
    .reopenWal true]

/-- **A checkpoint sets the counter back**: behind the restart the memtable has the first version,
the counter is zero, and the next put has the first timestamp again. -/
theorem checkpoint_resets_seq : ∃ σ, (Process.start Disk.empty).run putCheckpoint = some σ ∧
    (KVStore.new.open (σ.store.close σ.disk) .ok).1 = true ∧ σ.restart.store.seq = 0 ∧
    versionsOf σ.restart.store.memtable.entries (text "a") = [⟨1, some (text "1")⟩] ∧
    (σ.restart.put (text "a") (text "2")).written = [(text "a", ⟨1, some (text "2")⟩)] ∧
    ¬ σ.restart.Dominates := by
  have h : ((Process.start Disk.empty).run putCheckpoint).map (fun σ =>
      (σ.restart.store.seq, versionsOf σ.restart.store.memtable.entries (text "a"),
        (σ.restart.put (text "a") (text "2")).written)) =
      some (0, [⟨1, some (text "1")⟩], [(text "a", ⟨1, some (text "2")⟩)]) := by
    decide +kernel
  obtain ⟨σ, hrun, hσ⟩ := Option.map_eq_some_iff.mp h
  simp only [Prod.mk.injEq] at hσ
  obtain ⟨hseq, hmem, hput⟩ := hσ
  refine ⟨σ, hrun, KVStore.open_ok _, hseq, hmem, hput, fun hdom => ?_⟩
  have hle := hdom.memtable (text "a") ⟨1, some (text "1")⟩ (by rw [hmem]; simp)
  rw [hseq] at hle
  simp at hle

/-- A flushed put behind the checkpoint. -/
def putBehind : List Action :=
  putCheckpoint ++ [.put (text "a") (text "2"), .rotate, .commit .ok, .flushWal .ok]

/-- The log has a record that is newer than the snapshot, so that the counter is ahead. -/
theorem open_monotone_behind : ∃ σ, (Process.start Disk.empty).run putBehind = some σ ∧
    σ.restart.store.seq = 2 ∧ σ.restart.Dominates := by
  have h : ((Process.start Disk.empty).run putBehind).map (fun σ =>
      (σ.restart.store.seq, loadSstables (σ.store.close σ.disk).manifest,
        records ((σ.store.close σ.disk).wal.getD []))) =
      some (2, [], [⟨2, text "a", some (text "2")⟩]) := by
    decide +kernel
  have hrows : ((Process.start Disk.empty).run putBehind).map (fun σ =>
      rows (loadedSnapshot (σ.store.close σ.disk)).memtable.entries) =
      some [(text "a", ⟨1, some (text "1")⟩)] := by
    decide +kernel
  obtain ⟨σ, hrun, hσ⟩ := Option.map_eq_some_iff.mp h
  simp only [Prod.mk.injEq] at hσ
  obtain ⟨hseq, htab, hlog⟩ := hσ
  rw [hrun, Option.map_some, Option.some.injEq] at hrows
  have hcovers : LogCovers (σ.store.close σ.disk) := by
    refine ⟨fun key v hv => Or.inr ⟨⟨2, text "a", some (text "2")⟩, by simp [hlog], ?_⟩, ?_⟩
    · have hrow := mem_rows.mpr hv
      rw [hrows, List.mem_singleton] at hrow
      obtain rfl := (Prod.mk.inj hrow).2
      decide
    · rw [htab]
      simp
  have hlt : logSeq (σ.store.close σ.disk) + 1 < 2 ^ 64 := by
    rw [logSeq, hlog]
    decide
  exact ⟨σ, hrun, hseq, (open_monotone_iff (KVStore.open_ok _)).1 hcovers hlt⟩

end VeriStore.Store

import VeriStore.Sstable.Format

/-!
What the text format of a table can hold.

Whatever the bytes of a table are, loading them gives rows that the format can hold
(`loadRows_some`): a word for the key, 64 bits of timestamp, and a value that fits on a line and does
not begin with white space. So entries are read back from their file exactly when all their rows are
of this kind (`load_write_iff`).
-/

namespace VeriStore.Sstable

open VeriStore.Lib VeriStore.Store

/-! ### What is loaded -/

/-- A parsed line gives a row that the format can hold. -/
lemma parseRow_some {l key rest : Bytes} {t : ℕ} {type : UInt8}
    (h : parseRow l = some (key, t, type, rest)) (hl : newline ∉ l) :
    Word key ∧ t < 2 ^ 64 ∧ Clean (skipWs rest) := by
  simp only [parseRow, Option.bind_eq_bind, Option.pure_def, Option.bind_eq_some_iff] at h
  obtain ⟨⟨k, s1⟩, h1, ⟨n, s2⟩, h2, ⟨c, s3⟩, h3, h4⟩ := h
  simp only [Option.some.injEq, Prod.mk.injEq] at h4
  obtain ⟨rfl, rfl, rfl, rfl⟩ := h4
  obtain ⟨hw, e1⟩ := extractString_some h1
  obtain ⟨hn, e2⟩ := extractU64_some h2
  have hsub := (skipWs_suffix s3).trans ((extractChar_some h3).trans (e2.trans e1))
  exact ⟨hw, hn, fun hm => hl (hsub.subset hm), fun b hb => head_skipWs hb⟩

/-- **A table that is loaded** gives rows with the timestamps of its lines. -/
lemma loadRows_some {ls : List Bytes} {m m' : Entries} (h : loadRows ls m = some m')
    (hls : ∀ l ∈ ls, newline ∉ l) : ∃ rs : List Row, m' = pushRows m rs ∧ (∀ r ∈ rs, RowOk r) ∧
      (ls.filterMap fun l => (parseRow l).map fun row => row.2.1) = rs.map fun r => r.2.timestamp := by
  induction ls generalizing m with
  | nil => exact ⟨[], (Option.some.inj h).symm, by simp, rfl⟩
  | cons l ls ih =>
    have hl := hls l (by simp)
    have ih := fun {m} h => ih (m := m) h fun x hx => hls x (List.mem_cons_of_mem l hx)
    unfold loadRows at h
    split at h
    · next hnil =>
      obtain ⟨rs, h1, h2, h3⟩ := ih h
      exact ⟨rs, h1, h2, by rw [hnil, List.filterMap_cons_none rfl, h3]⟩
    · split at h
      · simp at h
      · next key t type rest hp =>
        obtain ⟨hw, ht, hclean⟩ := parseRow_some hp hl
        have hline : (fun l : Bytes => (parseRow l).map fun row => row.2.1) l = some t := by simp [hp]
        -- the row of a line of one of the two types
        have hrow : ∀ value : Option Bytes, (∀ x, value = some x → x = skipWs rest) →
            loadRows ls (pushVersion m key ⟨t, value⟩) = some m' →
            ∃ rs : List Row, m' = pushRows m rs ∧ (∀ r ∈ rs, RowOk r) ∧
              ((l :: ls).filterMap fun l => (parseRow l).map fun row => row.2.1) =
                rs.map fun r => r.2.timestamp := by
          intro value hv h
          obtain ⟨rs, rfl, hok, hts⟩ := ih h
          refine ⟨(key, ⟨t, value⟩) :: rs, rfl, List.forall_mem_cons.mpr ⟨⟨hw, ht, ?_⟩, hok⟩, ?_⟩
          · intro x hx
            rw [hv x hx]
            exact hclean
          · rw [List.map_cons, ← hts]
            exact List.filterMap_cons_some hline
        split at h
        · exact hrow (some (skipWs rest)) (by simp) h
        · split at h
          · exact hrow none (by simp) h
          · simp at h

/-- **What is loaded from a file** can be written to one. -/
lemma loadSstable_some {file : Option Bytes} {entries : Entries}
    (h : loadSstable file ∅ = some entries) : NoEmpty entries ∧ ∀ r ∈ rows entries, RowOk r := by
  obtain ⟨s, rfl, h⟩ := Option.bind_eq_some_iff.mp h
  obtain ⟨rs, rfl, hok, -⟩ := loadRows_some h fun l => newline_notMem_of_mem_lines
  exact ⟨noEmpty_empty.pushRows rs, fun r hr => hok r (mem_rows_pushRows.mp hr)⟩

/-! ### Entries and their rows -/

/-- A condition on the keys and the versions, over the entries and over the rows. -/
lemma forall_entries_iff {entries : Entries} {P : Bytes → Prop} {Q : Version → Prop} :
    (∀ key vs, entries[key]? = some vs → P key ∧ vs ≠ [] ∧ ∀ v ∈ vs, Q v) ↔
      NoEmpty entries ∧ ∀ r ∈ rows entries, P r.1 ∧ Q r.2 := by
  constructor
  · intro h
    refine ⟨fun key hnil => (h key [] hnil).2.1 rfl, fun ⟨key, v⟩ hr => ?_⟩
    have hv := mem_rows.mp hr
    unfold versionsOf at hv
    cases hkey : entries[key]? with
    | none => simp [hkey] at hv
    | some vs =>
      obtain ⟨hP, -, hQ⟩ := h key vs hkey
      rw [hkey, Option.getD_some] at hv
      exact ⟨hP, hQ v hv⟩
  · rintro ⟨hne, h⟩ key vs hkey
    have hvs : vs ≠ [] := by
      rintro rfl
      exact hne key hkey
    have hrow : ∀ v ∈ vs, P key ∧ Q v := fun v hv =>
      h (key, v) (mem_rows.mpr (by rw [versionsOf, hkey]; exact hv))
    obtain ⟨v, hv⟩ := List.exists_mem_of_ne_nil vs hvs
    exact ⟨(hrow v hv).1, hvs, fun v hv => (hrow v hv).2⟩

/-! ### The domain of the format -/

/-- **Entries are read back from their file exactly when** every key is non-empty and without white
space, every key has a version, and no value has a newline or begins with white space. -/
theorem load_write_iff {entries : Entries} (h64 : ∀ r ∈ rows entries, r.2.timestamp < 2 ^ 64) :
    loadSstable (some (sstableBytes entries)) ∅ = some entries ↔
      ∀ key vs, entries[key]? = some vs → Word key ∧ vs ≠ [] ∧
        ∀ v ∈ vs, ∀ x, v.value = some x → Clean x := by
  rw [forall_entries_iff]
  constructor
  · intro h
    obtain ⟨hne, hok⟩ := loadSstable_some h
    exact ⟨hne, fun r hr => ⟨(hok r hr).word, (hok r hr).clean⟩⟩
  · rintro ⟨hne, h⟩
    have hok : ∀ r ∈ rows entries, RowOk r := fun r hr => ⟨(h r hr).1, h64 r hr, (h r hr).2⟩
    rw [loadSstable_sstableBytes hok, pushRows_rows hne]

/-- A tombstone and an empty value of one key. -/
theorem load_write_small :
    loadSstable (some (sstableBytes (pushRows ∅ [(text "k", ⟨2 ^ 64 - 1, none⟩),
      (text "k", ⟨0, some []⟩)]))) ∅ = some (pushRows ∅ [(text "k", ⟨2 ^ 64 - 1, none⟩),
      (text "k", ⟨0, some []⟩)]) := by
  refine (load_write_iff fun r hr => ?_).mpr (forall_entries_iff.mpr
    ⟨noEmpty_empty.pushRows _, fun r hr => ?_⟩)
  · rw [mem_rows_pushRows] at hr
    fin_cases hr <;> decide
  · rw [mem_rows_pushRows] at hr
    have hword : Word (text "k") := by decide
    fin_cases hr
    · exact ⟨hword, by simp⟩
    · refine ⟨hword, ?_⟩
      rintro x ⟨⟩
      exact ⟨by simp, by simp⟩

end VeriStore.Sstable

import VeriStore.Sstable.Codec
import VeriStore.Sstable.Compaction

/-!
Compaction is the union of tables.

The entries that hold exactly the versions of some tables, in the order of their timestamps, are
determined by these versions alone (`Union.unique`), and every compaction of the tables writes them
(`compactWith_union`), whatever the sorting function does with equal timestamps. So nothing of how
the tables are brought together is left in the output: not their order, not their grouping into
compactions of two, and not whether a table takes part again (`compact_union`).
-/

namespace VeriStore.Sstable

open VeriStore.Lib VeriStore.Store

/-- The content of the file of entries. -/
def tableFile (entries : Entries) : Option Bytes := some (sstableBytes entries)

/-! ### Unions -/

/-- Two versions with the same key and the same timestamp are the same version. -/
def SameVersion (es : List Entries) : Prop :=
  ∀ e ∈ es, ∀ e' ∈ es, ∀ key, ∀ v ∈ versionsOf e key, ∀ v' ∈ versionsOf e' key,
    v.timestamp = v'.timestamp → v = v'

/-- **The union of tables**: the versions of all of them, in the order of their timestamps. -/
structure Union (es : List Entries) (out : Entries) : Prop where
  noEmpty : NoEmpty out
  mem : ∀ key v, v ∈ versionsOf out key ↔ ∃ e ∈ es, v ∈ versionsOf e key
  ordered : ∀ key, Ascending Version.timestamp (versionsOf out key)

section Union

variable {es es' : List Entries} {out out' : Entries}

/-- **The union is unique.** -/
lemma Union.unique (h : Union es out) (h' : Union es out') : out = out' :=
  entries_ext h.noEmpty h'.noEmpty fun key =>
    (h.ordered key).ext (h'.ordered key) fun v => by rw [h.mem, h'.mem]

/-- The union depends on the versions only. -/
lemma Union.congr (h : Union es out)
    (hes : ∀ key v, (∃ e ∈ es', v ∈ versionsOf e key) ↔ ∃ e ∈ es, v ∈ versionsOf e key) :
    Union es' out :=
  ⟨h.noEmpty, fun key v => by rw [h.mem, hes], h.ordered⟩

lemma Union.rowOk (h : Union es out) (hes : ∀ e ∈ es, ∀ r ∈ rows e, RowOk r) :
    ∀ r ∈ rows out, RowOk r := by
  rintro ⟨key, v⟩ hr
  obtain ⟨e, he, hv⟩ := (h.mem key v).mp (mem_rows.mp hr)
  exact hes e he _ (mem_rows.mpr hv)

/-- A table that is in the union adds nothing to it. -/
lemma Union.absorb (h : Union es out) {e : Entries} (he : e ∈ es) :
    Union [out, e] out ∧ Union [e, out] out := by
  have hself : Union [out] out := ⟨h.noEmpty, fun key v => by simp, h.ordered⟩
  have hsub : ∀ key v, v ∈ versionsOf e key → v ∈ versionsOf out key := fun key v hv =>
    (h.mem key v).mpr ⟨e, he, hv⟩
  constructor
  · refine hself.congr fun key v => ?_
    simpa using hsub key v
  · refine hself.congr fun key v => ?_
    simpa using hsub key v

lemma SameVersion.mono (h : SameVersion es) (hsub : ∀ e ∈ es', e ∈ es) : SameVersion es' :=
  fun e he e' he' => h e (hsub e he) e' (hsub e' he')

end Union

/-! ### What a compaction writes -/

/-- **A sorting function** in the sense of `std::sort`: equal elements may come in any order. -/
def Sorts (sort : List Version → List Version) : Prop :=
  ∀ vs, (sort vs).Perm vs ∧ (sort vs).Pairwise fun v w => v.timestamp ≤ w.timestamp

lemma sorts_mergeSort : Sorts fun vs => vs.mergeSort timestampLe := by
  intro vs
  refine ⟨List.mergeSort_perm vs timestampLe, ?_⟩
  simpa [timestampLe] using pairwise_mergeSort vs

/-- Sorted versions without equal timestamps. -/
lemma Sorts.ascending {sort : List Version → List Version} (h : Sorts sort) (vs : List Version) :
    Ascending Version.timestamp (uniqueTimestamps (sort vs)) := by
  have hle : (uniqueTimestamps (sort vs)).Pairwise fun v w => v.timestamp ≤ w.timestamp :=
    (h vs).2.sublist (List.destutter_sublist _ _)
  have hne := List.isChain_destutter (fun v w : Version => v.timestamp ≠ w.timestamp) (sort vs)
  have hlt : (uniqueTimestamps (sort vs)).IsChain fun v w => v.timestamp < w.timestamp := by
    rw [List.isChain_iff_getElem]
    intro i hi
    exact lt_of_le_of_ne (hle.isChain.getElem i hi) (hne.getElem i hi)
  have : Trans (fun v w : Version => v.timestamp < w.timestamp)
      (fun v w : Version => v.timestamp < w.timestamp) fun v w : Version => v.timestamp < w.timestamp :=
    ⟨Nat.lt_trans⟩
  exact hlt.pairwise

/-- The inputs of a compaction are loaded one behind the other. -/
lemma foldlM_loadSstable {es : List Entries} (h : ∀ e ∈ es, ∀ r ∈ rows e, RowOk r) (m : Entries) :
    (es.map tableFile).foldlM (fun m f => loadSstable f m) m = some (pushRows m (es.flatMap rows)) := by
  induction es generalizing m with
  | nil => rfl
  | cons e es ih =>
    rw [List.map_cons, List.foldlM_cons, tableFile, loadSstable_sstableBytes (h e (by simp))]
    simp only [Option.bind_eq_bind, Option.bind_some]
    rw [ih fun x hx => h x (List.mem_cons_of_mem e hx), List.flatMap_cons]
    simp only [pushRows, List.foldl_append]

/-- **A compaction writes the union of its inputs.** -/
lemma compactWith_union {sort : List Version → List Version} (hsort : Sorts sort)
    {es : List Entries} (hne : es ≠ []) (hok : ∀ e ∈ es, ∀ r ∈ rows e, RowOk r)
    (hsame : SameVersion es) :
    ∃ out, Union es out ∧ compactWith sort (es.map tableFile) = some (sstableBytes out) := by
  set merged := pushRows ∅ (es.flatMap rows) with hmerged
  have hmem : ∀ key v, v ∈ versionsOf merged key ↔ ∃ e ∈ es, v ∈ versionsOf e key := by
    intro key v
    simp only [← mem_rows, hmerged, mem_rows_pushRows, List.mem_flatMap]
  have hnil : uniqueTimestamps (sort []) = [] := by
    rw [(List.perm_nil.mp (hsort []).1), uniqueTimestamps, List.destutter_nil]
  -- the versions of a key, sorted and without equal timestamps
  have hkey : ∀ key, versionsOf (merged.map fun _ vs => uniqueTimestamps (sort vs)) key =
      uniqueTimestamps (sort (versionsOf merged key)) := fun key =>
    versionsOf_map (f := fun vs => uniqueTimestamps (sort vs)) hnil merged key
  refine ⟨merged.map fun _ vs => uniqueTimestamps (sort vs), ⟨?_, ?_, ?_⟩, ?_⟩
  · intro key hnone
    rw [Std.ExtTreeMap.getElem?_map, Option.map_eq_some_iff] at hnone
    obtain ⟨vs, hvs, hempty⟩ := hnone
    have hsorted : sort vs = [] := (List.destutter_eq_nil _).mp hempty
    obtain rfl : vs = [] := List.perm_nil.mp (hsorted ▸ (hsort vs).1.symm)
    exact (noEmpty_empty.pushRows (es.flatMap rows)) key hvs
  · intro key v
    have hperm := (hsort (versionsOf merged key)).1
    have hcons : Consistent Version.timestamp (sort (versionsOf merged key)) := by
      intro x hx y hy hxy
      obtain ⟨e, he, hx⟩ := (hmem key x).mp (hperm.mem_iff.mp hx)
      obtain ⟨e', he', hy⟩ := (hmem key y).mp (hperm.mem_iff.mp hy)
      exact hsame e he e' he' key x hx y hy hxy
    rw [hkey, mem_uniqueTimestamps hcons, hperm.mem_iff, hmem]
  · intro key
    rw [hkey]
    exact hsort.ascending _
  · unfold compactWith
    rw [if_neg (by simpa using hne), foldlM_loadSstable hok]
    rfl

/-- **A compaction of tables with a given union** writes it. -/
lemma Union.compactWith {es : List Entries} {out : Entries} (h : Union es out)
    {sort : List Version → List Version} (hsort : Sorts sort) (hne : es ≠ [])
    (hok : ∀ e ∈ es, ∀ r ∈ rows e, RowOk r) (hsame : SameVersion es) :
    compactWith sort (es.map tableFile) = some (sstableBytes out) := by
  obtain ⟨out', h', hc⟩ := compactWith_union hsort hne hok hsame
  rw [hc, h.unique h']

/-! ### Successive compactions -/

/-- A grouping of tables into successive compactions of two. -/
inductive Grouping where
  | table (entries : Entries)
  | pair (left right : Grouping)

/-- The tables of a grouping. -/
def Grouping.tables : Grouping → List Entries
  | table e => [e]
  | pair l r => l.tables ++ r.tables

/-- The file that the successive compactions write; a single table is left as it is. -/
def Grouping.compactWith (sort : List Version → List Version) : Grouping → Option Bytes
  | table e => tableFile e
  | pair l r => do
    let a ← l.compactWith sort
    let b ← r.compactWith sort
    Sstable.compactWith sort [some a, some b]

/-- What a part of a grouping writes, a table or a union. -/
lemma Grouping.compactWith_eq {sort : List Version → List Version} (hsort : Sorts sort)
    (g : Grouping) (hok : ∀ e ∈ g.tables, ∀ r ∈ rows e, RowOk r) (hsame : SameVersion g.tables) :
    ∃ e, g.compactWith sort = tableFile e ∧ (∀ r ∈ rows e, RowOk r) ∧
      (∀ key v, v ∈ versionsOf e key ↔ ∃ x ∈ g.tables, v ∈ versionsOf x key) ∧
      ((∃ l r, g = pair l r) → Union g.tables e) := by
  induction g with
  | table e =>
    refine ⟨e, rfl, hok e (by simp [tables]), by simp [tables], ?_⟩
    rintro ⟨l, r, hg⟩
    cases hg
  | pair l r ihl ihr =>
    obtain ⟨a, ha, hoka, hma, -⟩ := ihl (fun e he => hok e (List.mem_append_left _ he))
      (hsame.mono fun e he => List.mem_append_left _ he)
    obtain ⟨b, hb, hokb, hmb, -⟩ := ihr (fun e he => hok e (List.mem_append_right _ he))
      (hsame.mono fun e he => List.mem_append_right _ he)
    have hpair : ∀ key v, (∃ x ∈ [a, b], v ∈ versionsOf x key) ↔
        ∃ x ∈ (pair l r).tables, v ∈ versionsOf x key := by
      intro key v
      simp only [tables, List.mem_append, or_and_right, exists_or, ← hma, ← hmb]
      simp
    have hokp : ∀ e ∈ [a, b], ∀ r ∈ rows e, RowOk r := by
      intro e he
      rcases List.mem_pair.mp he with rfl | rfl
      · exact hoka
      · exact hokb
    have hsamep : SameVersion [a, b] := by
      intro e he e' he' key v hv v' hv'
      obtain ⟨x, hx, hv⟩ := (hpair key v).mp ⟨e, he, hv⟩
      obtain ⟨x', hx', hv'⟩ := (hpair key v').mp ⟨e', he', hv'⟩
      exact hsame x hx x' hx' key v hv v' hv'
    obtain ⟨u, hu, hc⟩ := compactWith_union hsort (by simp) hokp hsamep
    have hun : Union (pair l r).tables u := hu.congr fun key v => (hpair key v).symm
    refine ⟨u, ?_, hun.rowOk hok, hun.mem, fun _ => hun⟩
    rw [compactWith, ha, hb]
    exact hc

/-- **Compaction is the union, however the tables are brought together.** For tables with rows that
the format can hold, in which a key and a timestamp belong to one version, and for every sorting
function: the compaction succeeds and writes the versions of the tables, in the order of their
timestamps. It writes the same bytes for the tables in another order, in successive compactions of
two, and when a table is compacted again with the output. -/
theorem compact_union {es : List Entries} (hne : es ≠ [])
    (hok : ∀ e ∈ es, ∀ r ∈ rows e, RowOk r) (hsame : SameVersion es) :
    ∃ out : Entries,
      (∀ sort, Sorts sort → compactWith sort (es.map tableFile) = tableFile out) ∧
      loadSstable (tableFile out) ∅ = some out ∧
      (∀ key v, v ∈ versionsOf out key ↔ ∃ e ∈ es, v ∈ versionsOf e key) ∧
      (∀ key, Ascending Version.timestamp (versionsOf out key)) ∧
      (∀ sort, Sorts sort → ∀ es' : List Entries, es'.Perm es →
        compactWith sort (es'.map tableFile) = tableFile out) ∧
      (∀ sort, Sorts sort → ∀ l r : Grouping, (l.pair r).tables.Perm es →
        (l.pair r).compactWith sort = tableFile out) ∧
      ∀ sort, Sorts sort → ∀ e ∈ es, compactWith sort [tableFile out, tableFile e] = tableFile out ∧
        compactWith sort [tableFile e, tableFile out] = tableFile out := by
  obtain ⟨out, hout, -⟩ := compactWith_union sorts_mergeSort hne hok hsame
  have hokout := hout.rowOk hok
  refine ⟨out, fun sort hsort => hout.compactWith hsort hne hok hsame, ?_, hout.mem, hout.ordered,
    fun sort hsort es' hperm => ?_, fun sort hsort l r hperm => ?_, fun sort hsort e he => ?_⟩
  · rw [tableFile, loadSstable_sstableBytes hokout, pushRows_rows hout.noEmpty]
  · have hsub : ∀ e ∈ es', e ∈ es := fun e he => hperm.mem_iff.mp he
    have hout' : Union es' out := hout.congr fun key v => by simp only [hperm.mem_iff]
    refine hout'.compactWith hsort ?_ (fun e he => hok e (hsub e he)) (hsame.mono hsub)
    rintro rfl
    exact hne (List.nil_perm.mp hperm)
  · have hsub : ∀ e ∈ (l.pair r).tables, e ∈ es := fun e he => hperm.mem_iff.mp he
    obtain ⟨e, he, -, -, hun⟩ := (l.pair r).compactWith_eq hsort (fun e he => hok e (hsub e he))
      (hsame.mono hsub)
    have hout' : Union (l.pair r).tables out := hout.congr fun key v => by simp only [hperm.mem_iff]
    rw [he, (hun ⟨l, r, rfl⟩).unique hout']
  · have hoke := hok e he
    obtain ⟨h1, h2⟩ := hout.absorb he
    -- the output and a table have versions of the tables only
    have hof : ∀ x, x = out ∨ x = e → ∀ key, ∀ v ∈ versionsOf x key,
        ∃ y ∈ es, v ∈ versionsOf y key := by
      rintro x (rfl | rfl) key v hv
      · exact (hout.mem key v).mp hv
      · exact ⟨x, he, hv⟩
    have hpair : ∀ xs : List Entries, (∀ x ∈ xs, x = out ∨ x = e) → SameVersion xs := by
      intro xs hxs x hx x' hx' key v hv v' hv'
      obtain ⟨y, hy, hv⟩ := hof x (hxs x hx) key v hv
      obtain ⟨y', hy', hv'⟩ := hof x' (hxs x' hx') key v' hv'
      exact hsame y hy y' hy' key v hv v' hv'
    have hokp : ∀ xs : List Entries, (∀ x ∈ xs, x = out ∨ x = e) →
        ∀ x ∈ xs, ∀ r ∈ rows x, RowOk r := by
      intro xs hxs x hx
      rcases hxs x hx with rfl | rfl
      · exact hokout
      · exact hoke
    have hpair₁ : ∀ x ∈ [out, e], x = out ∨ x = e := by simp
    have hpair₂ : ∀ x ∈ [e, out], x = out ∨ x = e := by simp
    exact ⟨h1.compactWith hsort (by simp) (hokp _ hpair₁) (hpair _ hpair₁),
      h2.compactWith hsort (by simp) (hokp _ hpair₂) (hpair _ hpair₂)⟩

/-- Two tables with a version in common and a tombstone. -/
def overlapping : List Entries :=
  [pushRows ∅ [(text "k", ⟨3, none⟩), (text "k", ⟨1, some (text "x")⟩)],
    pushRows ∅ [(text "k", ⟨1, some (text "x")⟩), (text "k", ⟨2, some []⟩)]]

/-- The tombstone is in the output, in both orders of the tables. -/
theorem compact_union_overlapping : ∃ out : Entries, ⟨3, none⟩ ∈ versionsOf out (text "k") ∧
    compact (overlapping.map tableFile) = tableFile out ∧
    compact (overlapping.reverse.map tableFile) = tableFile out := by
  set rs : List Row := [(text "k", ⟨3, none⟩), (text "k", ⟨1, some (text "x")⟩),
    (text "k", ⟨2, some []⟩)] with hrs
  have hrows : ∀ e ∈ overlapping, ∀ r ∈ rows e, r ∈ rs := by
    intro e he r hr
    rcases List.mem_pair.mp he with rfl | rfl
    · rw [mem_rows_pushRows] at hr
      exact (by decide : ∀ r ∈ [(text "k", ⟨3, none⟩), (text "k", ⟨1, some (text "x")⟩)], r ∈ rs) r hr
    · rw [mem_rows_pushRows] at hr
      exact (by decide : ∀ r ∈ [(text "k", ⟨1, some (text "x")⟩), (text "k", ⟨2, some []⟩)],
        r ∈ rs) r hr
  have hone : ∀ r ∈ rs, ∀ r' ∈ rs, r.1 = r'.1 → r.2.timestamp = r'.2.timestamp → r.2 = r'.2 := by
    decide
  have hok : ∀ r ∈ rs, RowOk r := by
    simp only [hrs, List.forall_mem_cons]
    exact ⟨⟨by decide, by decide, by rintro x ⟨⟩⟩, ⟨by decide, by decide, by rintro x ⟨⟩; decide⟩,
      ⟨by decide, by decide, by rintro x ⟨⟩; decide⟩, by simp⟩
  have hne : overlapping ≠ [] := by simp [overlapping]
  obtain ⟨out, h1, -, h2, -, h3, -, -⟩ := compact_union hne
    (fun e he r hr => hok r (hrows e he r hr)) fun e he e' he' key v hv v' hv' =>
      hone _ (hrows e he _ (mem_rows.mpr hv)) _ (hrows e' he' _ (mem_rows.mpr hv')) rfl
  refine ⟨out, (h2 _ _).mpr ⟨_, List.mem_cons_self, ?_⟩, h1 _ sorts_mergeSort,
    h3 _ sorts_mergeSort _ (List.reverse_perm overlapping)⟩
  rw [← mem_rows, mem_rows_pushRows]
  simp

end VeriStore.Sstable

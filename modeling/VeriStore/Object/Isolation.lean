import VeriStore.Object.Catalog

/-!
What an object shows of another one.

The records of an object carry its bucket and its key with a colon between them, and both may have
colons, so that two objects may have one name (`Confused`). With different names there is one more
way to another object: the fields of a record are cut at tabs, and a name with a tab may be read as
the id of other chunks (`Borrows`).

* `objects_isolated_iff` — apart from these two cases, writing and deleting an object shows neither
  in the reads nor in the listings of another one;
* `record_shared` — two objects with one name.
-/

namespace VeriStore.Object

open VeriStore.Lib VeriStore.Lib.Prog VeriStore.Store

/-! ### Objects with one name -/

/-- **The bucket of one object goes on into the key of the other.** -/
def Confused (b k b' k' : Bytes) : Prop :=
  ∃ r, (b' = b ++ colon :: r ∧ k = r ++ colon :: k') ∨ (b = b' ++ colon :: r ∧ k' = r ++ colon :: k)

lemma objectName_eq_iff {b k b' k' : Bytes} :
    objectName b k = objectName b' k' ↔ (b = b' ∧ k = k') ∨ Confused b k b' k' := by
  constructor
  · intro h
    rcases List.append_eq_append_iff.mp h with ⟨r, hb, hk⟩ | ⟨r, hb, hk⟩
    · cases r with
      | nil => simp_all
      | cons c r =>
        simp only [List.cons_append, List.cons.injEq] at hk
        obtain ⟨rfl, hk⟩ := hk
        exact Or.inr ⟨r, Or.inl ⟨hb, hk⟩⟩
    · cases r with
      | nil => simp_all
      | cons c r =>
        simp only [List.cons_append, List.cons.injEq] at hk
        obtain ⟨rfl, hk⟩ := hk
        exact Or.inr ⟨r, Or.inr ⟨hb, hk⟩⟩
  · rintro (⟨rfl, rfl⟩ | ⟨r, ⟨rfl, rfl⟩ | ⟨rfl, rfl⟩⟩)
    · rfl
    · simp [objectName]
    · simp [objectName]

/-! ### Metadata that was read -/

/-- Metadata that was read can be written as that of a deleted object. -/
lemma plain_of_deserializeMetadata {s : Bytes} {m : ObjectMetadata}
    (h : deserializeMetadata s = some m) (now : UInt64) :
    ({ m with state := .deleted, updatedAt := now.toNat } : ObjectMetadata).Plain := by
  obtain ⟨-, htab, hfits⟩ := deserializeMetadata_some h
  exact
    { objectId := htab.objectId
      bucket := htab.bucket
      key := htab.key
      contentType := htab.contentType
      etag := htab.etag
      sizeBytes := hfits.sizeBytes
      chunkCount := hfits.chunkCount
      chunkSizeBytes := hfits.chunkSizeBytes
      createdAt := hfits.createdAt
      updatedAt := now.toNat_lt
      state := Or.inr rfl }

/-! ### Records that name other chunks -/

/-- **A record of the name names the id** for the chunks of its object. -/
def Borrows (o : ObjectStore) (name id : Bytes) : Prop :=
  ∃ (req : PutObjectRequest) (ms now : UInt64) (m : ObjectMetadata),
    req.bucket ≠ [] ∧ req.key ≠ [] ∧ objectName req.bucket req.key = name ∧
    deserializeMetadata (serializeMetadata
      (o.newMetadata req (objectIdAt req.bucket req.key ms) now)) = some m ∧
    m.state ≠ .deleted ∧ 0 < m.chunkCount ∧ m.objectId = id

/-- A name without tabs names ids of its own only. -/
lemma Borrows.ownId {o : ObjectStore} {name id : Bytes} (h : Borrows o name id)
    (htab : tab ∉ name) : OwnId name id := by
  obtain ⟨req, ms, now, m, -, -, rfl, hm, -, -, rfl⟩ := h
  have hid : tab ∉ objectIdAt req.bucket req.key ms := by
    rw [objectIdAt_eq]
    simp only [List.mem_append, List.mem_cons, not_or]
    exact ⟨htab, by decide, tab_notMem_decimal _⟩
  obtain ⟨hread, -, -⟩ := deserializeMetadata_some hm
  obtain ⟨hcut, -⟩ := takeWhile_append_stop (p := (· ≠ tab))
    (a := objectIdAt req.bucket req.key ms)
    (s := tab :: joinTabs [req.bucket, req.key, decimal req.data.length,
      decimal (o.chunkCount req.data.length), decimal o.chunkSizeBytes, req.contentType,
      computeEtag o.hash req.data, decimal now.toNat, decimal now.toNat, decimal 1])
    (fun b hb => by simpa using fun e : b = tab => hid (e ▸ hb)) (fun b hb => by simp_all)
  refine ⟨ms, ?_⟩
  rw [hread, ← objectIdAt_eq]
  exact hcut

section Runs

variable {o : ObjectStore}

lemma run_concat (ops : List Op) (op : Op) (w : KvWorld) :
    run o (ops ++ [op]) w = (op.perform o (run o ops w)).2 := by
  induction ops generalizing w with
  | nil => rfl
  | cons op' ops ih => exact ih _

/-- A state of the store. -/
def Reached (o : ObjectStore) (w : KvWorld) : Prop :=
  ∃ ops w₀, w₀.map = ∅ ∧ run o ops w₀ = w

/-- What a record that can be read names is borrowed or its own. -/
def Written (o : ObjectStore) (map : KvMap) : Prop :=
  ∀ name m, metadataOf map name = some m → m.state ≠ .deleted → 0 < m.chunkCount →
    Borrows o name m.objectId

lemma Written.perform {w : KvWorld} (h : Written o w.map) (op : Op) :
    Written o (op.perform o w).2.map := by
  cases op with
  | createBucket b =>
    simp only [Op.perform, Op.prog, exec_createBucket]
    split
    · exact h
    · split
      · exact h
      · intro name m hm
        rw [metadataOf_congr (m := w.map)
          (by rw [lookup_insert, if_neg (by simp [bucketMetaKey_eq])])] at hm
        exact h name m hm
  | putObject req =>
    obtain ⟨haccepted, hrefused⟩ := exec_putObject o req w
    by_cases hreq : req.Accepted w
    · simp only [Op.perform, Op.prog, exec_bind, exec_pure, haccepted hreq]
      intro name m hm hstate hcount
      by_cases hname : name = objectName req.bucket req.key
      · subst hname
        rw [metadataOf, ← objectMetaKey_eq, o.withObject_meta, Option.bind_some] at hm
        exact ⟨req, _, _, m, hreq.1, hreq.2.1, rfl, hm, hstate, hcount, rfl⟩
      · rw [metadataOf_congr (m := w.map) (o.withObject_of_ne _ _ _ _
          (by simpa [objectMetaKey_eq] using hname) (by simp [bucketIndexKey_eq])
          (by simp [chunkKey_eq]))] at hm
        exact h name m hm hstate hcount
    · simpa only [Op.perform, Op.prog, exec_bind, exec_pure, (hrefused hreq).2] using h
  | deleteObject b k =>
    obtain ⟨hdeleted, hmissing⟩ := exec_deleteObject b k w
    cases hold : metadataOf w.map (objectName b k) with
    | none => simpa only [Op.perform, Op.prog, exec_bind, exec_pure, (hmissing hold).2] using h
    | some old =>
      simp only [Op.perform, Op.prog, exec_bind, exec_pure, hdeleted old hold]
      intro name m hm hstate hcount
      by_cases hname : name = objectName b k
      · -- the rewritten record is read back as deleted
        subst hname
        obtain ⟨raw, -, hraw⟩ := Option.bind_eq_some_iff.mp hold
        have hplain := plain_of_deserializeMetadata hraw w.clock.head
        rw [metadataOf, ← objectMetaKey_eq, withoutObject, lookup_erase,
          if_neg (by simp [bucketIndexKey_eq, objectMetaKey_eq]), lookup_insert, if_pos rfl,
          Option.bind_some, deserializeMetadata_serializeMetadata hplain] at hm
        obtain rfl := Option.some.inj hm
        exact absurd rfl hstate
      · rw [metadataOf_congr (m := w.map) (withoutObject_of_ne _ _ _
          (by simpa [objectMetaKey_eq] using hname) (by simp [bucketIndexKey_eq]))] at hm
        exact h name m hm hstate hcount
  | garbageCollectChunks =>
    have hc := exec_garbageCollectChunks w
    simp only [Op.perform, Op.prog, exec_bind, exec_pure]
    intro name m hm
    rw [metadataOf_congr (m := w.map)
      (hc.kept _ fun hg => by simpa using hg.1)] at hm
    exact h name m hm

lemma Reached.perform {w : KvWorld} (h : Reached o w) (op : Op) :
    Reached o (op.perform o w).2 := by
  obtain ⟨ops, w₀, hw, rfl⟩ := h
  exact ⟨ops ++ [op], w₀, hw, run_concat ops op w₀⟩

lemma Reached.written {w : KvWorld} (h : Reached o w) : Written o w.map := by
  obtain ⟨ops, w₀, hw, rfl⟩ := h
  have hrun : ∀ ops (w : KvWorld), Written o w.map → Written o (run o ops w).map := by
    intro ops
    induction ops with
    | nil => exact fun _ h => h
    | cons op ops ih => exact fun w h => ih _ (h.perform op)
  refine hrun ops w₀ fun name m hm => ?_
  simp [metadataOf, hw] at hm

/-! ### What is not shown -/

/-- The entry that the listings of a bucket have for a key. -/
def listedAt (w : KvWorld) (b k : Bytes) : Option ObjectListEntry :=
  if w.map[bucketIndexKey b k]?.isSome then entryAt w.map b k else none

/-- The listings are made of these entries. -/
lemma mem_objects_iff {w : KvWorld} {b : Bytes} (hb : b ≠ []) (hw : w.map[bucketMetaKey b]?.isSome)
    {start : Bytes} {e : ObjectListEntry} :
    e ∈ (objectsIn w b start).objects ↔ ∃ rest, listedAt w b (start ++ rest) = some e := by
  rw [mem_objects hb hw]
  simp [listedAt]

/-- **The two objects have records of their own, and writing or deleting the first one shows neither
in the reads nor in the listings of the second one.** -/
structure Isolated (o : ObjectStore) (b k b' k' : Bytes) : Prop where
  metaKey : objectMetaKey b k ≠ objectMetaKey b' k'
  indexKey : bucketIndexKey b k ≠ bucketIndexKey b' k'
  get : ∀ w (op : Op), Reached o w → op.Concerns b k →
    objectAt (op.perform o w).2 b' k' = objectAt w b' k'
  list : ∀ w (op : Op), Reached o w → op.Concerns b k →
    listedAt (op.perform o w).2 b' k' = listedAt w b' k'

/-- The records that a call about an object leaves as they are. -/
lemma perform_of_ne {op : Op} {b k key : Bytes} (hop : op.Concerns b k) (w : KvWorld)
    (hmeta : key ≠ objectMetaKey b k) (hindex : key ≠ bucketIndexKey b k)
    (hchunk : ∀ ms i, key ≠ chunkKey (objectIdAt b k ms) i) :
    (op.perform o w).2.map[key]? = w.map[key]? := by
  cases op with
  | createBucket b' => exact hop.elim
  | garbageCollectChunks => exact hop.elim
  | putObject req =>
    obtain ⟨rfl, rfl⟩ := hop
    obtain ⟨haccepted, hrefused⟩ := exec_putObject o req w
    by_cases hreq : req.Accepted w
    · simp only [Op.perform, Op.prog, exec_bind, exec_pure, haccepted hreq]
      exact o.withObject_of_ne _ _ _ _ hmeta hindex (hchunk _)
    · simp only [Op.perform, Op.prog, exec_bind, exec_pure, (hrefused hreq).2]
  | deleteObject b' k' =>
    obtain ⟨rfl, rfl⟩ := hop
    obtain ⟨hdeleted, hmissing⟩ := exec_deleteObject b' k' w
    cases hm : metadataOf w.map (objectName b' k') with
    | none => simp only [Op.perform, Op.prog, exec_bind, exec_pure, (hmissing hm).2]
    | some m =>
      simp only [Op.perform, Op.prog, exec_bind, exec_pure, hdeleted m hm]
      exact withoutObject_of_ne _ _ _ hmeta hindex

section Names

variable {op : Op} {b k b' k' : Bytes} (hop : op.Concerns b k) (w : KvWorld)
  (hname : objectName b' k' ≠ objectName b k)

include hop hname

lemma perform_objectMeta :
    (op.perform o w).2.map[objectMetaKey b' k']? = w.map[objectMetaKey b' k']? :=
  perform_of_ne hop w (by simpa [objectMetaKey_eq] using hname)
    (by simp [objectMetaKey_eq, bucketIndexKey_eq]) (by simp [objectMetaKey_eq, chunkKey_eq])

lemma perform_listedAt : listedAt (op.perform o w).2 b' k' = listedAt w b' k' := by
  have hindex : (op.perform o w).2.map[bucketIndexKey b' k']? = w.map[bucketIndexKey b' k']? :=
    perform_of_ne hop w (by simp [objectMetaKey_eq, bucketIndexKey_eq])
      (by simpa [bucketIndexKey_eq] using hname) (by simp [bucketIndexKey_eq, chunkKey_eq])
  have hmeta := perform_objectMeta (o := o) hop w hname
  rw [objectMetaKey_eq] at hmeta
  rw [listedAt, listedAt, hindex, entryAt, entryAt, metadataOf_congr hmeta]

/-- The reads of an object whose record names no id of the written one. -/
lemma perform_objectAt (hw : Reached o w)
    (hid : ∀ ms, ¬ Borrows o (objectName b' k') (objectIdAt b k ms)) :
    objectAt (op.perform o w).2 b' k' = objectAt w b' k' := by
  refine objectAt_congr (perform_objectMeta hop w hname) fun m hm hstate i hi => ?_
  refine perform_of_ne hop w (by simp [chunkKey_eq, objectMetaKey_eq])
    (by simp [chunkKey_eq, bucketIndexKey_eq]) fun ms j e => hid ms ?_
  rw [← (chunkKey_inj.mp e).1]
  exact hw.written _ m hm hstate (by omega)

end Names

/-- Answers of `ListObjects` that differ in the order of the scan only. -/
def SameListing (r r' : ListObjectsResult) : Prop :=
  r.ok = r'.ok ∧ r.error = r'.error ∧ r.objects.Perm r'.objects

/-- **A bucket in which the written object has no name**: its listings stay the same. -/
lemma listing_of_other_bucket {op : Op} {b k b' : Bytes} (hop : op.Concerns b k) (w : KvWorld)
    (hother : ∀ k', objectName b' k' ≠ objectName b k) (start : Bytes) :
    SameListing (objectsIn (op.perform o w).2 b' start) (objectsIn w b' start) := by
  have hbucket : (op.perform o w).2.map[bucketMetaKey b']? = w.map[bucketMetaKey b']? :=
    perform_of_ne hop w (by simp [bucketMetaKey_eq, objectMetaKey_eq])
      (by simp [bucketMetaKey_eq, bucketIndexKey_eq]) (by simp [bucketMetaKey_eq, chunkKey_eq])
  by_cases hb : b' = [] ∨ w.map[bucketMetaKey b']? = none
  · obtain ⟨h1, h2, h3⟩ := objectsIn_missing hb start
    obtain ⟨h1', h2', h3'⟩ := objectsIn_missing (w := (op.perform o w).2) (hbucket ▸ hb) start
    simp [SameListing, h1, h2, h3, h1', h2', h3']
  · simp only [not_or, ← Option.isSome_iff_ne_none] at hb
    obtain ⟨hb, hw⟩ := hb
    have hscan : ∀ key, key ∈ keysWith (op.perform o w).2.map (bucketIndexKey b' start) ↔
        key ∈ keysWith w.map (bucketIndexKey b' start) := by
      intro key
      simp only [mem_keysWith]
      refine and_congr_right ?_
      rintro ⟨rest, rfl⟩
      have happ : bucketIndexKey b' start ++ rest = bucketIndexKey b' (start ++ rest) := by
        simp [bucketIndexKey]
      rw [happ, perform_of_ne hop w (by simp [objectMetaKey_eq, bucketIndexKey_eq])
        (by simpa [bucketIndexKey_eq] using hother (start ++ rest))
        (by simp [bucketIndexKey_eq, chunkKey_eq])]
    have hentry : ∀ k', entryAt (op.perform o w).2.map b' k' = entryAt w.map b' k' := by
      intro k'
      have hmeta := perform_objectMeta (o := o) hop w (hother k')
      rw [objectMetaKey_eq] at hmeta
      rw [entryAt, entryAt, metadataOf_congr hmeta]
    rw [objectsIn_eq hb hw, objectsIn_eq hb (hbucket ▸ hw)]
    refine ⟨rfl, rfl, ?_⟩
    simp only [hentry]
    refine List.Perm.filterMap _ (((Shuffle.perm _ _).trans ?_).trans (Shuffle.perm _ _).symm)
    exact (List.perm_ext_iff_of_nodup (nodup_keysWith _ _) (nodup_keysWith _ _)).mpr hscan

/-! ### A borrowed id shows -/

/-- Two buckets on an empty map, and a clock of any kind behind them. -/
lemma exists_buckets (o : ObjectStore) {b b' : Bytes} (hb : b ≠ []) (hb' : b' ≠ [])
    (clock : Stream' UInt64) : ∃ w, Reached o w ∧ w.map[bucketMetaKey b]?.isSome ∧
      w.map[bucketMetaKey b']?.isSome ∧ w.clock = clock ∧
      ∀ rest, w.map[recordKey .chunk rest]? = none := by
  by_cases he : b = b'
  · subst he
    refine ⟨_, ⟨[.createBucket b], ⟨∅, Stream'.cons 0 clock, fun _ => ⟨id, List.Perm.refl⟩⟩,
      rfl, rfl⟩, ?_⟩
    simp [run, Op.perform, Op.prog, exec_createBucket, hb, bucketMetaKey_eq]
  · refine ⟨_, ⟨[.createBucket b, .createBucket b'],
      ⟨∅, Stream'.cons 0 (Stream'.cons 0 clock), fun _ => ⟨id, List.Perm.refl⟩⟩, rfl, rfl⟩, ?_⟩
    simp [run, Op.perform, Op.prog, exec_createBucket, hb, hb', bucketMetaKey_eq, he]

/-- **Where a record names an id of another object, this object shows.** -/
lemma Borrows.shows {b k b' k' : Bytes} {ms : UInt64} (hb : b ≠ []) (hk : k ≠ [])
    (hname : objectName b' k' ≠ objectName b k)
    (h : Borrows o (objectName b' k') (objectIdAt b k ms)) :
    ∃ w, ∃ op : Op, Reached o w ∧ op.Concerns b k ∧
      objectAt (op.perform o w).2 b' k' ≠ objectAt w b' k' := by
  obtain ⟨req, ms', now', m, hb', hk', hreq, hm, hstate, hcount, hid⟩ := h
  obtain ⟨w, hw, hwb, hwb', hclock, hchunks⟩ := exists_buckets o hb hb'
    (Stream'.cons ms' (Stream'.cons now' (Stream'.cons ms (Stream'.const 0))))
  have hlt := (deserializeMetadata_some hm).2.2.chunkCount
  have hsize : m.chunkCount * o.chunkSizeBytes < 2 ^ 64 := by
    have hcs := o.chunkSize_lt
    nlinarith
  -- the object with the borrowed record, and the one it borrows from
  let w₁ := ((Op.putObject req).perform o w).2
  let data : Bytes := List.replicate (m.chunkCount * o.chunkSizeBytes) 0
  let req₂ : PutObjectRequest := ⟨b, k, data, [], by simpa [data] using hsize⟩
  have hw₁ : w₁ = { w with
      clock := Stream'.cons ms (Stream'.const 0)
      map := o.withObject req (objectIdAt req.bucket req.key ms') now' w.map } := by
    have hreq' := (exec_putObject o req w).1 ⟨hb', hk', hwb'⟩
    simp only [w₁, Op.perform, Op.prog, exec_bind, exec_pure, hreq', hclock,
      PutObjectRequest.objectId]
    rfl
  have hmeta : metadataOf w₁.map (objectName b' k') = some m := by
    rw [hw₁, ← hreq, metadataOf, ← objectMetaKey_eq]
    simpa only [o.withObject_meta, Option.bind_some] using hm
  have hbefore : ∀ i, w₁.map[chunkKey m.objectId i]? = none := by
    intro i
    rw [hw₁, hid]
    simp only
    rw [o.withObject_of_ne _ _ _ _ (by simp [chunkKey_eq, objectMetaKey_eq])
      (by simp [chunkKey_eq, bucketIndexKey_eq]) fun j e => hname ?_, chunkKey_eq, hchunks]
    rw [← hreq]
    exact ((objectIdAt_inj.mp (chunkKey_inj.mp e).1).1).symm
  have hafter : ∀ i < m.chunkCount, ((Op.putObject req₂).perform o w₁).2.map[chunkKey m.objectId i]? =
      some (o.chunkValue data i) := by
    intro i hi
    have hacc : req₂.Accepted w₁ := by
      refine ⟨hb, hk, ?_⟩
      rw [hw₁]
      simp only
      rw [o.withObject_of_ne _ _ _ _ (by simp [bucketMetaKey_eq, objectMetaKey_eq])
        (by simp [bucketMetaKey_eq, bucketIndexKey_eq]) (by simp [bucketMetaKey_eq, chunkKey_eq])]
      exact hwb
    have hput := (exec_putObject o req₂ w₁).1 hacc
    have hid₂ : req₂.objectId w₁ = m.objectId := by
      rw [PutObjectRequest.objectId, hw₁, hid]
      rfl
    simp only [Op.perform, Op.prog, exec_bind, exec_pure, hput, hid₂]
    refine o.withObject_chunk req₂ _ _ _ (lt_of_lt_of_le hi ?_)
    have hle : m.chunkCount * o.chunkSizeBytes ≤
        o.chunkCount (m.chunkCount * o.chunkSizeBytes) * o.chunkSizeBytes :=
      o.chunkCount_eq (Nat.mul_le_mul_right _ (by omega))
    have := Nat.le_of_mul_le_mul_right hle o.chunkSize_pos
    simpa [req₂, data] using this
  refine ⟨w₁, .putObject req₂, hw.perform _, ⟨rfl, rfl⟩, fun hsame => ?_⟩
  have hfound : (objectAt ((Op.putObject req₂).perform o w₁).2 b' k').found = true := by
    have hmeta₂ : metadataOf ((Op.putObject req₂).perform o w₁).2.map (objectName b' k') = some m := by
      have hconcerns : (Op.putObject req₂).Concerns b k := ⟨rfl, rfl⟩
      have hkept : ((Op.putObject req₂).perform o w₁).2.map[objectMetaKey b' k']? =
          w₁.map[objectMetaKey b' k']? := perform_objectMeta hconcerns w₁ hname
      rw [objectMetaKey_eq] at hkept
      rw [metadataOf_congr hkept, hmeta]
    rw [objectAt_found hmeta₂ hstate hafter]
  rw [hsame, objectAt_missing hmeta ⟨0, hcount, hbefore 0⟩] at hfound
  exact absurd hfound (by decide)

/-- **Objects that show nothing of each other.** Writing and deleting an object never shows in the
reads and the listings of another one, exactly when the two do not have one name and no record of
the other one is read as naming an id of the first. A bucket in which no object has this name keeps
its listings. -/
theorem objects_isolated_iff (o : ObjectStore) {b k b' k' : Bytes} (hb : b ≠ []) (hk : k ≠ [])
    (hne : (b, k) ≠ (b', k')) :
    (Isolated o b k b' k' ↔
      ¬ Confused b k b' k' ∧ ∀ ms, ¬ Borrows o (objectName b' k') (objectIdAt b k ms)) ∧
    ((∀ k₂, objectName b' k₂ ≠ objectName b k) → ∀ w (op : Op) start, op.Concerns b k →
      SameListing (objectsIn (op.perform o w).2 b' start) (objectsIn w b' start)) := by
  refine ⟨?_, fun hother w op start hop => listing_of_other_bucket hop w hother start⟩
  have hname : objectName b k = objectName b' k' ↔ Confused b k b' k' := by
    rw [objectName_eq_iff, or_iff_right fun h => hne (Prod.ext h.1 h.2)]
  constructor
  · intro h
    have hconf : ¬ Confused b k b' k' := by
      intro hc
      refine h.metaKey ?_
      rw [objectMetaKey_eq, objectMetaKey_eq, hname.mpr hc]
    refine ⟨hconf, fun ms hbor => ?_⟩
    obtain ⟨w, op, hw, hop, hshow⟩ := hbor.shows hb hk fun e => hconf (hname.mp e.symm)
    exact hshow (h.get w op hw hop)
  · rintro ⟨hconf, hbor⟩
    have hdiff : objectName b' k' ≠ objectName b k := fun e => hconf (hname.mp e.symm)
    exact
      { metaKey := by simpa [objectMetaKey_eq] using hdiff.symm
        indexKey := by simpa [bucketIndexKey_eq] using hdiff.symm
        get := fun w op hw hop => perform_objectAt hop w hdiff hw hbor
        list := fun w op _ hop => perform_listedAt hop w hdiff }

end Runs

/-- Two buckets, an object `c` in `a:b` and then an object `b:c` in `a`. -/
def twoBuckets : List Op :=
  [.createBucket (text "a:b"), .createBucket (text "a"),
    .putObject ⟨text "a:b", text "c", text "1", [], by decide⟩,
    .putObject ⟨text "a", text "b:c", text "2", [], by decide⟩]

/-- **The second object is written over the first one.** -/
theorem record_shared :
    (text "a:b", text "c") ≠ (text "a", text "b:c") ∧
    objectMetaKey (text "a:b") (text "c") = objectMetaKey (text "a") (text "b:c") ∧
    bucketIndexKey (text "a:b") (text "c") = bucketIndexKey (text "a") (text "b:c") ∧
    accepted smallStore twoBuckets emptyWorld = twoBuckets ∧
    (objectAt (run smallStore (twoBuckets.take 3) emptyWorld) (text "a:b") (text "c")).data =
      text "1" ∧
    (objectAt (run smallStore twoBuckets emptyWorld) (text "a:b") (text "c")).data = text "2" ∧
    (objectsIn (run smallStore (twoBuckets.take 3) emptyWorld) (text "a") []).objects ≠ [] := by
  decide +kernel

/-- The objects of one key in two buckets. -/
theorem objects_isolated_buckets : Isolated smallStore (text "a") (text "k") (text "b") (text "k") := by
  have hconf : ¬ Confused (text "a") (text "k") (text "b") (text "k") := by
    rintro ⟨r, ⟨h, -⟩ | ⟨h, -⟩⟩
    all_goals
      have := congrArg List.length h
      simp [text] at this
  refine (objects_isolated_iff smallStore (by decide) (by decide) (by decide)).1.mpr
    ⟨hconf, fun ms h => ?_⟩
  have hown := h.ownId (by decide)
  exact absurd (hown.inj (ownId_objectIdAt _ _ ms)) (by decide)

end VeriStore.Object

import VeriStore.Object.Codec

/-!
What the operations of the object store do to the map below them, one statement for each.

* `objectAt` and `objectsIn`: the answers of `GetObject` and `ListObjects` in a state; both leave the
  state as it is, up to the order of the next scan. `objectAt_congr` says which records an answer
  depends on.
* `exec_putObject`, `exec_deleteObject`, `exec_createBucket`: the records that are written.
* `exec_garbageCollectChunks`: the chunks whose id no committed metadata names are gone, and their
  number is returned.
-/

namespace VeriStore.Object

open VeriStore.Lib VeriStore.Lib.Prog VeriStore.Store

/-! ### Calls -/

abbrev KvMap := Std.ExtTreeMap Bytes Bytes

lemma lookup_insert (map : KvMap) (k v a : Bytes) :
    (map.insert k v)[a]? = if k = a then some v else map[a]? := by
  rw [Std.ExtTreeMap.getElem?_insert]
  simp

lemma lookup_erase (map : KvMap) (k a : Bytes) :
    (map.erase k)[a]? = if k = a then none else map[a]? := by
  rw [Std.ExtTreeMap.getElem?_erase]
  simp

section Calls

variable (w : KvWorld)

@[simp] lemma exec_get (key : Bytes) : exec kvService (Kv.get key) w = (w.map[key]?, w) := rfl

@[simp] lemma exec_put (key value : Bytes) :
    exec kvService (Kv.put key value) w = ((), { w with map := w.map.insert key value }) := rfl

@[simp] lemma exec_del (key : Bytes) :
    exec kvService (Kv.del key) w = (w.map[key]?.isSome, { w with map := w.map.erase key }) := rfl

@[simp] lemma exec_listKeys (start : Bytes) :
    exec kvService (Kv.listKeys start) w =
      (w.orders.head.apply (keysWith w.map start), { w with orders := w.orders.tail }) := rfl

@[simp] lemma exec_flushWal : exec kvService Kv.flushWal w = (true, w) := rfl

@[simp] lemma exec_nowEpochMs :
    exec kvService Kv.nowEpochMs w = (w.clock.head, { w with clock := w.clock.tail }) := rfl

end Calls

/-- The keys a scan finds. -/
lemma mem_keysWith {map : KvMap} {start key : Bytes} :
    key ∈ keysWith map start ↔ (∃ rest, key = start ++ rest) ∧ map[key]?.isSome := by
  simp only [keysWith, List.mem_filter, Std.ExtTreeMap.mem_keys, List.isPrefixOf_iff_prefix,
    Std.ExtTreeMap.mem_iff_isSome_getElem?, List.prefix_iff_eq_append]
  constructor
  · rintro ⟨h1, h2⟩
    exact ⟨⟨_, h2.symm⟩, h1⟩
  · rintro ⟨⟨rest, rfl⟩, h⟩
    exact ⟨h, by simp⟩

lemma nodup_keysWith (map : KvMap) (start : Bytes) : (keysWith map start).Nodup :=
  Std.ExtTreeMap.nodup_keys.filter _

lemma mem_shuffled {r : Shuffle} {keys : List Bytes} {key : Bytes} :
    key ∈ r.apply keys ↔ key ∈ keys := (r.perm keys).mem_iff

/-! ### Reading an object -/

/-- The answer of `GetObject`. -/
def objectAt (w : KvWorld) (bucket key : Bytes) : GetObjectResult :=
  (exec kvService (getObject bucket key) w).1

lemma readChunks_frame (id : Bytes) (is : List ℕ) (data : Bytes) (w : KvWorld) :
    (exec kvService (readChunks id is data) w).2 = w := by
  induction is generalizing data with
  | nil => rfl
  | cons i is ih =>
    simp only [readChunks, exec_bind, exec_get]
    cases w.map[chunkKey id i]? with
    | none => rfl
    | some chunk => exact ih _

lemma readChunks_congr {id : Bytes} {is : List ℕ} {w w' : KvWorld}
    (h : ∀ i ∈ is, w'.map[chunkKey id i]? = w.map[chunkKey id i]?) (data : Bytes) :
    (exec kvService (readChunks id is data) w').1 = (exec kvService (readChunks id is data) w).1 := by
  induction is generalizing data with
  | nil => rfl
  | cons i is ih =>
    simp only [readChunks, exec_bind, exec_get, h i (by simp)]
    cases w.map[chunkKey id i]? with
    | none => rfl
    | some chunk => exact ih (fun j hj => h j (by simp [hj])) _

/-- Chunks that are all there are put together. -/
lemma readChunks_ok {id : Bytes} {is : List ℕ} {w : KvWorld} {value : ℕ → Bytes}
    (h : ∀ i ∈ is, w.map[chunkKey id i]? = some (value i)) (data : Bytes) :
    (exec kvService (readChunks id is data) w).1 = .ok (data ++ is.flatMap value) := by
  induction is generalizing data with
  | nil => simp [readChunks]
  | cons i is ih =>
    simp only [readChunks, exec_bind, exec_get, h i (by simp)]
    rw [ih (fun j hj => h j (by simp [hj]))]
    simp

/-- A chunk that is missing ends the loop. -/
lemma readChunks_missing {id : Bytes} {is : List ℕ} {w : KvWorld}
    (h : ∃ i ∈ is, w.map[chunkKey id i]? = none) (data : Bytes) :
    ∃ e, (exec kvService (readChunks id is data) w).1 = .error e := by
  induction is generalizing data with
  | nil => simp at h
  | cons i is ih =>
    simp only [readChunks, exec_bind, exec_get]
    cases hi : w.map[chunkKey id i]? with
    | none => exact ⟨_, rfl⟩
    | some chunk =>
      refine ih ?_ _
      obtain ⟨j, hj, hnone⟩ := h
      rcases List.mem_cons.mp hj with rfl | hj
      · rw [hi] at hnone
        cases hnone
      · exact ⟨j, hj, hnone⟩

/-- The metadata under a name that can be read. -/
def metadataOf (map : KvMap) (name : Bytes) : Option ObjectMetadata :=
  map[recordKey .objectMeta name]?.bind deserializeMetadata

lemma metadataOf_congr {m m' : KvMap} {name : Bytes}
    (h : m'[recordKey .objectMeta name]? = m[recordKey .objectMeta name]?) :
    metadataOf m' name = metadataOf m name := by
  rw [metadataOf, metadataOf, h]

/-- **What an answer of `GetObject` depends on**: the record of the object, and the chunks it
names. -/
lemma objectAt_congr {w w' : KvWorld} {b k : Bytes}
    (hmeta : w'.map[objectMetaKey b k]? = w.map[objectMetaKey b k]?)
    (hchunks : ∀ m, metadataOf w.map (objectName b k) = some m → m.state ≠ .deleted →
      ∀ i < m.chunkCount, w'.map[chunkKey m.objectId i]? = w.map[chunkKey m.objectId i]?) :
    objectAt w' b k = objectAt w b k := by
  unfold metadataOf at hchunks
  rw [← objectMetaKey_eq] at hchunks
  simp only [objectAt, getObject, exec_bind, exec_get, hmeta]
  cases hraw : w.map[objectMetaKey b k]? with
  | none => rfl
  | some raw =>
    rw [hraw] at hchunks
    simp only
    cases hm : deserializeMetadata raw with
    | none => rfl
    | some m =>
      simp only
      split
      · rfl
      · next hne =>
        rw [exec_bind, exec_bind, readChunks_frame, readChunks_frame,
          readChunks_congr fun i hi => hchunks m (by simpa using hm) hne i (List.mem_range.mp hi)]
        cases (exec kvService (readChunks m.objectId (List.range m.chunkCount) []) w).1 <;> rfl

lemma objectAt_none {w : KvWorld} {b k : Bytes} (h : w.map[objectMetaKey b k]? = none) :
    objectAt w b k = { error := text "object metadata not found" } := by
  simp [objectAt, getObject, h]

lemma objectAt_deleted {w : KvWorld} {b k : Bytes} {m : ObjectMetadata}
    (h : metadataOf w.map (objectName b k) = some m) (hs : m.state = .deleted) :
    objectAt w b k = { error := text "object is deleted" } := by
  unfold metadataOf at h
  rw [← objectMetaKey_eq] at h
  obtain ⟨raw, hraw, hm⟩ := Option.bind_eq_some_iff.mp h
  simp [objectAt, getObject, hraw, hm, hs]

/-- **An object whose chunks are all there is found.** -/
lemma objectAt_found {w : KvWorld} {b k : Bytes} {m : ObjectMetadata} {value : ℕ → Bytes}
    (h : metadataOf w.map (objectName b k) = some m) (hs : m.state ≠ .deleted)
    (hchunks : ∀ i < m.chunkCount, w.map[chunkKey m.objectId i]? = some (value i)) :
    objectAt w b k =
      { found := true, metadata := m, data := (List.range m.chunkCount).flatMap value } := by
  unfold metadataOf at h
  rw [← objectMetaKey_eq] at h
  obtain ⟨raw, hraw, hm⟩ := Option.bind_eq_some_iff.mp h
  simp only [objectAt, getObject, exec_bind, exec_get, hraw, hm, if_neg hs]
  rw [readChunks_ok fun i hi => hchunks i (List.mem_range.mp hi)]
  simp

/-- An object with a missing chunk is not found. -/
lemma objectAt_missing {w : KvWorld} {b k : Bytes} {m : ObjectMetadata}
    (h : metadataOf w.map (objectName b k) = some m)
    (hchunk : ∃ i < m.chunkCount, w.map[chunkKey m.objectId i]? = none) :
    (objectAt w b k).found = false := by
  unfold metadataOf at h
  rw [← objectMetaKey_eq] at h
  obtain ⟨raw, hraw, hm⟩ := Option.bind_eq_some_iff.mp h
  obtain ⟨i, hi, hnone⟩ := hchunk
  obtain ⟨e, he⟩ := readChunks_missing ⟨i, List.mem_range.mpr hi, hnone⟩ []
  simp only [objectAt, getObject, exec_bind, exec_get, hraw, hm]
  split
  · rfl
  · rw [exec_bind, he]
    rfl

/-! ### Buckets -/

lemma exec_bucketExists (b : Bytes) (w : KvWorld) :
    exec kvService (bucketExists b) w = (decide (b ≠ []) && w.map[bucketMetaKey b]?.isSome, w) := by
  unfold bucketExists
  split
  · next h => simp [h]
  · next h => simp [h]

/-- The state behind `CreateBucket`. -/
lemma exec_createBucket (b : Bytes) (w : KvWorld) :
    exec kvService (createBucket b) w =
      if b = [] then (false, w)
      else if w.map[bucketMetaKey b]?.isSome then (true, w)
      else (true, { w with
        clock := w.clock.tail
        map := w.map.insert (bucketMetaKey b) (serializeBucketMeta b w.clock.head.toNat) }) := by
  unfold createBucket
  split
  · rfl
  · simp only [exec_bind, exec_get]
    cases w.map[bucketMetaKey b]? with
    | none => simp
    | some raw => simp

/-! ### Writing an object -/

namespace ObjectStore

variable (o : ObjectStore)

/-- The map with some chunks of an object. -/
def withChunks (id data : Bytes) (is : List ℕ) (map : KvMap) : KvMap :=
  is.foldl (fun map i => map.insert (chunkKey id i) (o.chunkValue data i)) map

lemma withChunks_of_ne (id data : Bytes) {is : List ℕ} (map : KvMap) {key : Bytes}
    (h : ∀ i ∈ is, key ≠ chunkKey id i) : (o.withChunks id data is map)[key]? = map[key]? := by
  induction is generalizing map with
  | nil => rfl
  | cons i is ih =>
    simp only [withChunks, List.foldl_cons]
    refine (ih _ fun j hj => h j (by simp [hj])).trans ?_
    rw [lookup_insert, if_neg (Ne.symm (h i (by simp)))]

lemma withChunks_chunkKey (id data : Bytes) {is : List ℕ} (map : KvMap) {i : ℕ} (hi : i ∈ is) :
    (o.withChunks id data is map)[chunkKey id i]? = some (o.chunkValue data i) := by
  induction is generalizing map with
  | nil => simp at hi
  | cons j is ih =>
    simp only [withChunks, List.foldl_cons]
    by_cases hmem : i ∈ is
    · exact ih _ hmem
    · have hij : i = j := by simpa [hmem] using hi
      refine (o.withChunks_of_ne id data _ fun l hl e => hmem ?_).trans ?_
      · rw [(chunkKey_inj.mp e).2]
        exact hl
      · rw [lookup_insert, if_pos (by rw [hij]), hij]

lemma exec_writeChunks (id data : Bytes) (is : List ℕ) (w : KvWorld) :
    exec kvService (o.writeChunks id data is) w =
      ((), { w with map := o.withChunks id data is w.map }) := by
  induction is generalizing w with
  | nil => rfl
  | cons i is ih =>
    simp only [writeChunks, exec_bind, exec_put, ih]
    rfl

/-- The map with the chunks, the metadata and the entry of the index of an object. -/
def withObject (req : PutObjectRequest) (id : Bytes) (now : UInt64) (map : KvMap) : KvMap :=
  ((o.withChunks id req.data (List.range (o.chunkCount req.data.length)) map).insert
    (objectMetaKey req.bucket req.key) (serializeMetadata (o.newMetadata req id now))).insert
    (bucketIndexKey req.bucket req.key) id

/-- What `PutObject` answers when it succeeds. -/
def putAnswer (req : PutObjectRequest) (id : Bytes) : PutObjectResult :=
  { ok := true, objectId := id, sizeBytes := req.data.length,
    chunkCount := o.chunkCount req.data.length, etag := computeEtag o.hash req.data }

lemma exec_writeObject (req : PutObjectRequest) (id : Bytes) (now : UInt64) (w : KvWorld) :
    exec kvService (o.writeObject req id now) w =
      (o.putAnswer req id, { w with map := o.withObject req id now w.map }) := by
  simp [writeObject, exec_writeChunks, withObject, putAnswer]

end ObjectStore

/-- The checks of `PutObject`. -/
def PutObjectRequest.Accepted (req : PutObjectRequest) (w : KvWorld) : Prop :=
  req.bucket ≠ [] ∧ req.key ≠ [] ∧ w.map[bucketMetaKey req.bucket]?.isSome

instance (req : PutObjectRequest) (w : KvWorld) : Decidable (req.Accepted w) :=
  inferInstanceAs (Decidable (_ ∧ _ ∧ _))

/-- The id an accepted `PutObject` makes. -/
def PutObjectRequest.objectId (req : PutObjectRequest) (w : KvWorld) : Bytes :=
  objectIdAt req.bucket req.key w.clock.head

/-- **The state behind `PutObject`**: a refused request changes nothing. -/
lemma exec_putObject (o : ObjectStore) (req : PutObjectRequest) (w : KvWorld) :
    (req.Accepted w → exec kvService (o.putObject req) w =
      (o.putAnswer req (req.objectId w),
        { w with
          clock := w.clock.tail.tail
          map := o.withObject req (req.objectId w) w.clock.tail.head w.map })) ∧
    (¬ req.Accepted w → (exec kvService (o.putObject req) w).1.ok = false ∧
      (exec kvService (o.putObject req) w).2 = w) := by
  unfold ObjectStore.putObject PutObjectRequest.Accepted
  split
  · next h => simp [h]
  · next h =>
    split
    · next h' => simp [h']
    · next h' =>
      simp only [exec_bind, exec_bucketExists]
      cases hw : w.map[bucketMetaKey req.bucket]?.isSome with
      | false => simp
      | true => simp [h, h', makeObjectId, o.exec_writeObject, PutObjectRequest.objectId]

/-! ### Deleting an object -/

/-- The map with the record of an object marked deleted and its entry taken out of the index. -/
def withoutObject (b k : Bytes) (m : ObjectMetadata) (now : UInt64) (map : KvMap) : KvMap :=
  (map.insert (objectMetaKey b k)
    (serializeMetadata { m with state := .deleted, updatedAt := now.toNat })).erase
    (bucketIndexKey b k)

/-- **The state behind `DeleteObject`.** -/
lemma exec_deleteObject (b k : Bytes) (w : KvWorld) :
    (∀ m, metadataOf w.map (objectName b k) = some m → exec kvService (deleteObject b k) w =
      ({ ok := true },
        { w with
          clock := w.clock.tail
          map := withoutObject b k m w.clock.head w.map })) ∧
    (metadataOf w.map (objectName b k) = none →
      (exec kvService (deleteObject b k) w).1.ok = false ∧
        (exec kvService (deleteObject b k) w).2 = w) := by
  unfold metadataOf deleteObject
  rw [← objectMetaKey_eq]
  simp only [exec_bind, exec_get]
  cases w.map[objectMetaKey b k]? with
  | none => simp
  | some raw =>
    simp only [Option.bind_some]
    cases deserializeMetadata raw with
    | none => simp
    | some m =>
      constructor
      · rintro m' ⟨⟩
        simp [withoutObject]
      · rintro ⟨⟩

/-! ### Listing a bucket -/

/-- The answer of `ListObjects`. -/
def objectsIn (w : KvWorld) (bucket start : Bytes) : ListObjectsResult :=
  (exec kvService (listObjects bucket start) w).1

/-- The entry of one object, unless it is deleted. -/
def entryAt (map : KvMap) (bucket key : Bytes) : Option ObjectListEntry :=
  (metadataOf map (objectName bucket key)).bind fun m =>
    if m.state = .deleted then none else some m.listEntry

lemma exec_listEntries (b : Bytes) (start : ℕ) {keys : List Bytes}
    (hkeys : ∀ key ∈ keys, start ≤ key.length) (objects : List ObjectListEntry) (w : KvWorld) :
    exec kvService (listEntries b start keys objects) w =
      (objects ++ keys.filterMap fun key => entryAt w.map b (key.drop start), w) := by
  induction keys generalizing objects with
  | nil => simp [listEntries]
  | cons key keys ih =>
    have hlen : ¬ key.length < start := by
      have := hkeys key (by simp)
      omega
    have hrest := fun objects => ih (fun key h => hkeys key (by simp [h])) objects
    simp only [listEntries, if_neg hlen, exec_bind, exec_get, List.filterMap_cons]
    have hentry : entryAt w.map b (key.drop start) =
        (w.map[objectMetaKey b (key.drop start)]?.bind deserializeMetadata).bind fun m =>
          if m.state = .deleted then none else some m.listEntry := by
      rw [entryAt, metadataOf, objectMetaKey_eq]
    rw [hentry]
    cases w.map[objectMetaKey b (key.drop start)]? with
    | none => exact hrest _
    | some raw =>
      simp only [Option.bind_some]
      cases deserializeMetadata raw with
      | none => exact hrest _
      | some m =>
        simp only [Option.bind_some]
        split
        · exact hrest _
        · rw [hrest]
          simp

/-- **The answer of `ListObjects` for a bucket that exists**: the entries of the keys a scan of the
index finds. -/
lemma objectsIn_eq {w : KvWorld} {b : Bytes} (hb : b ≠ [])
    (hw : w.map[bucketMetaKey b]?.isSome) (start : Bytes) :
    objectsIn w b start =
      { ok := true
        objects := (w.orders.head.apply (keysWith w.map (bucketIndexKey b start))).filterMap
          fun key => entryAt w.map b (key.drop (bucketIndexKey b []).length) } := by
  have hbase : text "bucketidx:" ++ b ++ [colon] = bucketIndexKey b [] := by simp [bucketIndexKey]
  have hlen : ∀ key ∈ w.orders.head.apply (keysWith w.map (bucketIndexKey b start)),
      (bucketIndexKey b []).length ≤ key.length := by
    intro key hkey
    obtain ⟨⟨rest, rfl⟩, -⟩ := mem_keysWith.mp (mem_shuffled.mp hkey)
    simp [bucketIndexKey]
  rw [objectsIn, listObjects, if_neg hb, exec_bind, exec_bucketExists, hbase]
  simp [hb, hw, exec_listEntries _ _ hlen]

lemma objectsIn_missing {w : KvWorld} {b : Bytes} (h : b = [] ∨ w.map[bucketMetaKey b]? = none)
    (start : Bytes) : (objectsIn w b start).ok = false ∧ (objectsIn w b start).objects = [] ∧
      (objectsIn w b start).error =
        if b = [] then text "bucket is empty" else text "bucket does not exist" := by
  unfold objectsIn listObjects
  split
  · simp
  · next hb =>
    have hw : w.map[bucketMetaKey b]? = none := h.resolve_left hb
    simp [exec_bucketExists, hw]

/-! ### Collecting chunks -/

/-- Committed metadata names the id. -/
def Reachable (map : KvMap) (id : Bytes) : Prop :=
  ∃ name m, metadataOf map name = some m ∧ m.state = .committed ∧ m.objectId = id

lemma reachableIds_frame (keys ids : List Bytes) (w : KvWorld) :
    (exec kvService (reachableIds keys ids) w).2 = w := by
  induction keys generalizing ids with
  | nil => rfl
  | cons key keys ih =>
    simp only [reachableIds, exec_bind, exec_get]
    cases w.map[key]? with
    | none => exact ih _
    | some raw =>
      simp only
      cases deserializeMetadata raw with
      | none => exact ih _
      | some m =>
        simp only
        split
        · exact ih _
        · exact ih _

/-- The ids that are marked. -/
lemma mem_reachableIds (keys ids : List Bytes) (w : KvWorld) (id : Bytes) :
    id ∈ (exec kvService (reachableIds keys ids) w).1 ↔
      id ∈ ids ∨ ∃ key ∈ keys, ∃ m, w.map[key]?.bind deserializeMetadata = some m ∧
        m.state = .committed ∧ m.objectId = id := by
  induction keys generalizing ids with
  | nil => simp [reachableIds]
  | cons key keys ih =>
    simp only [reachableIds, exec_bind, exec_get, List.exists_mem_cons_iff]
    cases w.map[key]? with
    | none => simp [ih]
    | some raw =>
      simp only [Option.bind_some]
      cases deserializeMetadata raw with
      | none => simp [ih]
      | some m =>
        simp only
        split
        · next hm =>
          simp only [ih, List.mem_cons, Option.some.injEq, exists_eq_left', hm, true_and]
          rw [eq_comm (a := id) (b := m.objectId)]
          tauto
        · next hm => simp [ih, hm]

/-- Marking over all records finds the reachable ids. -/
lemma mem_reachableIds_objmeta {w : KvWorld} {keys : List Bytes}
    (hkeys : ∀ key, key ∈ keys ↔ key ∈ keysWith w.map (text "objmeta:")) (id : Bytes) :
    id ∈ (exec kvService (reachableIds keys []) w).1 ↔ Reachable w.map id := by
  rw [mem_reachableIds]
  simp only [List.not_mem_nil, false_or, hkeys, mem_keysWith]
  constructor
  · rintro ⟨key, ⟨⟨name, rfl⟩, -⟩, m, hm, hs⟩
    exact ⟨name, m, hm, hs⟩
  · rintro ⟨name, m, hm, hs⟩
    refine ⟨_, ⟨⟨name, rfl⟩, ?_⟩, m, hm, hs⟩
    obtain ⟨raw, hraw, -⟩ := Option.bind_eq_some_iff.mp hm
    exact Option.isSome_of_eq_some hraw

/-- The sweep deletes the chunk. -/
def Swept (reachable : List Bytes) (name : Bytes) : Prop :=
  ∃ id, chunkOwner name = some id ∧ id ∉ reachable

instance (reachable : List Bytes) (name : Bytes) : Decidable (Swept reachable name) :=
  match h : chunkOwner name with
  | none => isFalse fun ⟨_, h', _⟩ => by simp [h] at h'
  | some id => decidable_of_iff (id ∉ reachable)
      ⟨fun hid => ⟨id, h, hid⟩, fun ⟨_, h', hid⟩ => by rw [h] at h'; cases h'; exact hid⟩

/-- The map without some keys. -/
def eraseKeys (map : KvMap) (names : List Bytes) : KvMap := names.foldl (·.erase ·) map

lemma lookup_eraseKeys (map : KvMap) (names : List Bytes) (key : Bytes) :
    (eraseKeys map names)[key]? = if key ∈ names then none else map[key]? := by
  induction names generalizing map with
  | nil => simp [eraseKeys]
  | cons name names ih =>
    have hstep : eraseKeys map (name :: names) = eraseKeys (map.erase name) names := rfl
    rw [hstep, ih, lookup_erase]
    by_cases h1 : key ∈ names
    · simp [h1]
    · by_cases h2 : name = key
      · simp [h2]
      · simp [h1, h2, Ne.symm h2]

lemma exec_sweepChunks (reachable : List Bytes) {names : List Bytes} (hnodup : names.Nodup)
    (n : ℕ) (w : KvWorld) (hnames : ∀ name ∈ names, w.map[name]?.isSome) :
    exec kvService (sweepChunks reachable names n) w =
      (n + (names.filter (Swept reachable ·)).length,
        { w with map := eraseKeys w.map (names.filter (Swept reachable ·)) }) := by
  induction names generalizing n w with
  | nil => rfl
  | cons name names ih =>
    have hrest : ∀ m ∈ names, w.map[m]?.isSome := fun m hm => hnames m (by simp [hm])
    obtain ⟨hnotin, hnodup⟩ := List.nodup_cons.mp hnodup
    unfold sweepChunks
    cases howner : chunkOwner name with
    | none =>
      have hs : ¬ Swept reachable name := by simp [Swept, howner]
      rw [List.filter_cons_of_neg (by simpa using hs)]
      exact ih hnodup n w hrest
    | some id =>
      simp only
      by_cases hid : id ∈ reachable
      · have hs : ¬ Swept reachable name := by simp [Swept, howner, hid]
        rw [if_pos hid, List.filter_cons_of_neg (by simpa using hs)]
        exact ih hnodup n w hrest
      · have hs : Swept reachable name := ⟨id, howner, hid⟩
        rw [if_neg hid, List.filter_cons_of_pos (by simpa using hs)]
        simp only [exec_bind, exec_del, hnames name (by simp), if_true]
        rw [ih hnodup]
        · simp only [List.length_cons, eraseKeys, List.foldl_cons, Prod.mk.injEq, and_true]
          omega
        · intro m hm
          have hne : name ≠ m := fun e => hnotin (e ▸ hm)
          simp only [lookup_erase, if_neg hne]
          exact hrest m hm

/-- The record is a chunk that a collection deletes. -/
def Garbage (map : KvMap) (name : Bytes) : Prop :=
  (∃ rest, name = recordKey .chunk rest) ∧ ∃ id, chunkOwner name = some id ∧ ¬ Reachable map id

/-- What a collection does to a state. -/
structure Collected (w : KvWorld) (r : ℕ × KvWorld) : Prop where
  gone : ∀ name, Garbage w.map name → r.2.map[name]? = none
  kept : ∀ name, ¬ Garbage w.map name → r.2.map[name]? = w.map[name]?
  count : r.1 = ((keysWith w.map (text "objchunk:")).filter fun c => r.2.map[c]?.isNone).length
  clock : r.2.clock = w.clock

/-- **A collection deletes the garbage, and nothing else, and counts it.** -/
lemma exec_garbageCollectChunks (w : KvWorld) :
    Collected w (exec kvService garbageCollectChunks w) := by
  let w' : KvWorld := { w with orders := w.orders.tail }
  let metaKeys := w.orders.head.apply (keysWith w.map (text "objmeta:"))
  let marked := (exec kvService (reachableIds metaKeys []) w').1
  let names := w.orders.tail.head.apply (keysWith w.map (text "objchunk:"))
  let doomed := names.filter (Swept marked ·)
  have hmarked : ∀ id, id ∈ marked ↔ Reachable w.map id :=
    mem_reachableIds_objmeta (w := w') fun key => mem_shuffled
  have hrun : exec kvService garbageCollectChunks w =
      (doomed.length, { w with
        orders := w.orders.tail.tail
        map := eraseKeys w.map doomed }) := by
    have hnodup : names.Nodup :=
      (w.orders.tail.head.perm _).nodup_iff.mpr (nodup_keysWith _ _)
    have hsweep := exec_sweepChunks marked hnodup 0
      { w with orders := w.orders.tail.tail } fun name h => (mem_keysWith.mp (mem_shuffled.mp h)).2
    simp only [garbageCollectChunks, exec_bind, exec_listKeys, reachableIds_frame, exec_flushWal,
      exec_pure]
    simp only [marked, metaKeys, w', names] at hsweep
    rw [hsweep]
    simp [doomed, marked, metaKeys, w', names]
  have hdoomed : ∀ name, name ∈ doomed ↔ Garbage w.map name ∧ w.map[name]?.isSome := by
    intro name
    simp only [doomed, names, List.mem_filter, decide_eq_true_eq, mem_shuffled, mem_keysWith]
    simp only [Swept, Garbage, hmarked, recordKey, RecordKind.tag]
    tauto
  rw [hrun]
  constructor
  · intro name hg
    rw [lookup_eraseKeys]
    split
    · rfl
    · next hd => simpa [hdoomed, hg] using hd
  · intro name hg
    rw [lookup_eraseKeys, if_neg fun hd => hg ((hdoomed name).mp hd).1]
  · simp only [lookup_eraseKeys]
    refine List.Perm.length_eq ?_
    have hperm := (w.orders.tail.head.perm (keysWith w.map (text "objchunk:"))).filter
      (fun c => decide (Swept marked c))
    refine hperm.trans (List.Perm.of_eq (List.filter_congr fun c hc => ?_))
    have hsome := (mem_keysWith.mp hc).2
    by_cases hd : c ∈ doomed
    · have : Swept marked c := by simpa [doomed] using (List.mem_filter.mp hd).2
      simp [hd, this]
    · have : ¬ Swept marked c := fun h =>
        hd (List.mem_filter.mpr ⟨mem_shuffled.mpr hc, by simpa using h⟩)
      simpa [hd, this] using Option.isSome_iff_ne_none.mp hsome
  · rfl

end VeriStore.Object

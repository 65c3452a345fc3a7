import VeriStore.Object.Effects

/-!
The object store as a map from names to requests.

* `Op`, `run`, `accepted`: a run of the operations and the calls of it that succeeded.
* `Represents o map past`: the records are what the accepted calls `past` made of them. Each
  operation keeps it (`Represents.perform`), so that every run has it (`represents_run`).
* `objects_refine_map`: `GetObject` and `ListObjects` answer what was put last.

The invariant is about names (`objectName`), whatever colons buckets have. Only the last result needs
buckets without colons: there a name is one bucket and one key.
-/

namespace VeriStore.Object

open VeriStore.Lib VeriStore.Lib.Prog VeriStore.Store

/-! ### Runs -/

inductive Op where
  | createBucket (bucket : Bytes)
  | putObject (req : PutObjectRequest)
  | deleteObject (bucket key : Bytes)
  | garbageCollectChunks
deriving DecidableEq

namespace Op

/-- The program of a call; it answers whether the call was accepted. -/
def prog (o : ObjectStore) : Op → Kv Bool
  | createBucket b => Object.createBucket b
  | putObject req => do
    let r ← o.putObject req
    pure r.ok
  | deleteObject b k => do
    let r ← Object.deleteObject b k
    pure r.ok
  | garbageCollectChunks => do
    let _ ← Object.garbageCollectChunks
    pure true

def perform (o : ObjectStore) (op : Op) (w : KvWorld) : Bool × KvWorld :=
  exec kvService (op.prog o) w

/-- Names and content types without tabs. -/
def TabFree : Op → Prop
  | createBucket b => tab ∉ b
  | putObject req => tab ∉ req.bucket ∧ tab ∉ req.key ∧ tab ∉ req.contentType
  | deleteObject b k => tab ∉ b ∧ tab ∉ k
  | garbageCollectChunks => True

/-- Buckets without colons. -/
def ColonFree : Op → Prop
  | createBucket b => colon ∉ b
  | putObject req => colon ∉ req.bucket
  | deleteObject b _ => colon ∉ b
  | garbageCollectChunks => True

/-- Data with fewer than `2 ^ 32` chunks. -/
def Fits (o : ObjectStore) : Op → Prop
  | putObject req => req.data.length ≤ (2 ^ 32 - 1) * o.chunkSizeBytes
  | _ => True

/-- The call writes or deletes the object. -/
def Concerns (b k : Bytes) : Op → Prop
  | putObject req => req.bucket = b ∧ req.key = k
  | deleteObject b' k' => b' = b ∧ k' = k
  | _ => False

instance (b k : Bytes) : DecidablePred (Concerns b k)
  | createBucket _ => isFalse id
  | putObject req => inferInstanceAs (Decidable (req.bucket = b ∧ req.key = k))
  | deleteObject b' k' => inferInstanceAs (Decidable (b' = b ∧ k' = k))
  | garbageCollectChunks => isFalse id

end Op

/-- The state behind a list of calls. -/
def run (o : ObjectStore) : List Op → KvWorld → KvWorld
  | [], w => w
  | op :: ops, w => run o ops (op.perform o w).2

/-- The calls that were accepted. -/
def accepted (o : ObjectStore) : List Op → KvWorld → List Op
  | [], _ => []
  | op :: ops, w =>
    (if (op.perform o w).1 then [op] else []) ++ accepted o ops (op.perform o w).2

/-- The last accepted call that writes or deletes an object. -/
def lastAccepted (past : List Op) (b k : Bytes) : Option Op :=
  (past.filter (Op.Concerns b k ·)).getLast?

/-! ### The abstract map -/

/-- What a call makes of the map from names to requests. -/
def Op.record (cat : Bytes → Option PutObjectRequest) : Op → Bytes → Option PutObjectRequest
  | putObject req => Function.update cat (objectName req.bucket req.key) (some req)
  | deleteObject b k => Function.update cat (objectName b k) none
  | _ => cat

def catalogOf (past : List Op) : Bytes → Option PutObjectRequest :=
  past.foldl Op.record fun _ => none

lemma catalogOf_concat (past : List Op) (op : Op) :
    catalogOf (past ++ [op]) = op.record (catalogOf past) := by
  simp [catalogOf]

lemma lastAccepted_concat_self (past : List Op) {op : Op} {b k : Bytes} (h : op.Concerns b k) :
    lastAccepted (past ++ [op]) b k = some op := by
  simp [lastAccepted, List.filter_append, h]

lemma lastAccepted_concat_of_not (past : List Op) {op : Op} {b k : Bytes}
    (h : ¬ op.Concerns b k) : lastAccepted (past ++ [op]) b k = lastAccepted past b k := by
  simp [lastAccepted, List.filter_append, h]

/-- Without colons in buckets the map says which call was the last one. -/
lemma catalogOf_objectName {past : List Op} (hpast : ∀ op ∈ past, op.ColonFree) {b k : Bytes}
    (hb : colon ∉ b) (req : PutObjectRequest) :
    catalogOf past (objectName b k) = some req ↔
      lastAccepted past b k = some (.putObject req) := by
  induction past using List.reverseRecOn with
  | nil => simp [catalogOf, lastAccepted]
  | append_singleton past op ih =>
    have ih := ih fun op h => hpast op (by simp [h])
    have hop := hpast op (by simp)
    have hsame : ∀ {b' k'}, colon ∉ b' →
        (objectName b k = objectName b' k' ↔ b' = b ∧ k' = k) := fun hb' =>
      ⟨fun h => (objectName_inj hb hb' h).imp Eq.symm Eq.symm, fun ⟨h1, h2⟩ => by rw [h1, h2]⟩
    rw [catalogOf_concat]
    by_cases hc : op.Concerns b k
    · rw [lastAccepted_concat_self past hc]
      cases op with
      | createBucket b' => exact hc.elim
      | garbageCollectChunks => exact hc.elim
      | putObject req' => simp [Op.record, (hsame hop).mpr hc]
      | deleteObject b' k' => simp [Op.record, (hsame hop).mpr hc]
    · rw [lastAccepted_concat_of_not past hc, ← ih]
      cases op with
      | createBucket b' => rfl
      | garbageCollectChunks => rfl
      | putObject req' =>
        rw [Op.record, Function.update_of_ne fun e => hc ((hsame hop).mp e)]
      | deleteObject b' k' =>
        rw [Op.record, Function.update_of_ne fun e => hc ((hsame hop).mp e)]

/-- The requests of a map were put. -/
lemma mem_of_catalogOf {name : Bytes} {req : PutObjectRequest} (h : catalogOf past name = some req) :
    Op.putObject req ∈ past := by
  induction past using List.reverseRecOn with
  | nil => simp [catalogOf] at h
  | append_singleton past op ih =>
    rw [catalogOf_concat] at h
    rw [List.mem_append]
    cases op with
    | createBucket b => exact Or.inl (ih h)
    | garbageCollectChunks => exact Or.inl (ih h)
    | putObject req' =>
      by_cases hname : name = objectName req'.bucket req'.key
      · rw [Op.record, hname, Function.update_self] at h
        cases h
        exact Or.inr (by simp)
      · rw [Op.record, Function.update_of_ne hname] at h
        exact Or.inl (ih h)
    | deleteObject b k =>
      by_cases hname : name = objectName b k
      · simp [Op.record, hname] at h
      · rw [Op.record, Function.update_of_ne hname] at h
        exact Or.inl (ih h)

/-! ### What the records hold -/

/-- An id made for a name. -/
def OwnId (name id : Bytes) : Prop := ∃ ms : UInt64, id = name ++ colon :: decimal ms.toNat

lemma OwnId.ne_nil {name id : Bytes} (h : OwnId name id) : id ≠ [] := by
  obtain ⟨ms, rfl⟩ := h
  simp

lemma OwnId.inj {name name' id : Bytes} (h : OwnId name id) (h' : OwnId name' id) :
    name = name' := by
  obtain ⟨ms, rfl⟩ := h
  obtain ⟨ms', h'⟩ := h'
  exact (append_cons_inj_last (colon_notMem_decimal _) (colon_notMem_decimal _) h').1

lemma ownId_objectIdAt (b k : Bytes) (ms : UInt64) : OwnId (objectName b k) (objectIdAt b k ms) :=
  ⟨ms, objectIdAt_eq b k ms⟩

/-- **The records of a name** hold nothing, a deleted object or a request. -/
inductive Holds (o : ObjectStore) (map : KvMap) (name : Bytes) : Option PutObjectRequest → Prop
  | missing (h : map[recordKey .objectMeta name]? = none) : Holds o map name none
  | deleted (m : ObjectMetadata) (hm : metadataOf map name = some m) (hplain : m.Plain)
      (hstate : m.state = .deleted) (hid : OwnId name m.objectId) : Holds o map name none
  | committed (req : PutObjectRequest) (id : Bytes) (now : UInt64)
      (hname : objectName req.bucket req.key = name)
      (hm : metadataOf map name = some (o.newMetadata req id now))
      (hplain : (o.newMetadata req id now).Plain) (hid : OwnId name id)
      (hchunks : ∀ i < o.chunkCount req.data.length,
        map[chunkKey id i]? = some (o.chunkValue req.data i)) : Holds o map name (some req)

section Holds

variable {o : ObjectStore} {map map' : KvMap} {name : Bytes} {c : Option PutObjectRequest}

/-- The metadata of a name is its own, can be written again and is committed or deleted. -/
lemma Holds.metadata (h : Holds o map name c) {m : ObjectMetadata}
    (hm : metadataOf map name = some m) : OwnId name m.objectId ∧ m.Plain := by
  cases h with
  | missing hnone => simp [metadataOf, hnone] at hm
  | deleted m' hm' hplain hstate hid =>
    rw [hm'] at hm
    cases hm
    exact ⟨hid, hplain⟩
  | committed req id now hname hm' hplain hid hchunks =>
    rw [hm'] at hm
    cases hm
    exact ⟨hid, hplain⟩

/-- Only the metadata and the chunks of a committed object count. -/
lemma Holds.congr (h : Holds o map name c)
    (hmeta : map'[recordKey .objectMeta name]? = map[recordKey .objectMeta name]?)
    (hchunks : ∀ m, metadataOf map name = some m → m.state = .committed → ∀ i < m.chunkCount,
      map'[chunkKey m.objectId i]? = map[chunkKey m.objectId i]?) : Holds o map' name c := by
  have hmetadata : metadataOf map' name = metadataOf map name := by
    unfold metadataOf
    rw [hmeta]
  cases h with
  | missing hnone => exact .missing (hmeta.trans hnone)
  | deleted m hm hplain hstate hid => exact .deleted m (hmetadata.trans hm) hplain hstate hid
  | committed req id now hname hm hplain hid hold =>
    exact .committed req id now hname (hmetadata.trans hm) hplain hid fun i hi =>
      (hchunks _ hm rfl i hi).trans (hold i hi)

end Holds

/-- **The records are those the accepted calls made.** -/
structure Represents (o : ObjectStore) (map : KvMap) (past : List Op) : Prop where
  objects : ∀ name, Holds o map name (catalogOf past name)
  index : ∀ name, map[recordKey .bucketIndex name]?.isSome ↔ (catalogOf past name).isSome
  chunks : ∀ rest, map[recordKey .chunk rest]?.isSome →
    ∃ id i, id ≠ [] ∧ recordKey .chunk rest = chunkKey id i
  buckets : ∀ b, map[bucketMetaKey b]?.isSome ↔ Op.createBucket b ∈ past

lemma represents_empty (o : ObjectStore) : Represents o ∅ [] where
  objects _ := .missing (by simp)
  index := by simp [catalogOf]
  chunks := by simp
  buckets := by simp

/-! ### Writing an object -/

namespace ObjectStore

variable (o : ObjectStore) (req : PutObjectRequest)

lemma chunkCount_lt (size : ℕ) : o.chunkCount size < 2 ^ 32 := Nat.mod_lt _ (by norm_num)

/-- The metadata of a new object can be read back. -/
lemma newMetadata_plain (htab : (Op.putObject req).TabFree) (ms now : UInt64) :
    (o.newMetadata req (objectIdAt req.bucket req.key ms) now).Plain where
  objectId := by
    have hcolon : tab ≠ colon := by decide
    simp [newMetadata, objectIdAt, htab.1, htab.2.1, tab_notMem_decimal, hcolon]
  bucket := htab.1
  key := htab.2.1
  contentType := htab.2.2
  etag := tab_notMem_computeEtag _ _
  sizeBytes := req.size_lt
  chunkCount := o.chunkCount_lt _
  chunkSizeBytes := o.chunkSize_lt
  createdAt := now.toNat_lt
  updatedAt := now.toNat_lt
  state := Or.inl rfl

variable (id : Bytes) (now : UInt64) (map : KvMap)

lemma withObject_of_ne {key : Bytes} (hmeta : key ≠ objectMetaKey req.bucket req.key)
    (hindex : key ≠ bucketIndexKey req.bucket req.key) (hchunk : ∀ i, key ≠ chunkKey id i) :
    (o.withObject req id now map)[key]? = map[key]? := by
  rw [withObject, lookup_insert, if_neg hindex.symm, lookup_insert, if_neg hmeta.symm]
  exact o.withChunks_of_ne id req.data map fun i _ => hchunk i

lemma withObject_meta : (o.withObject req id now map)[objectMetaKey req.bucket req.key]? =
    some (serializeMetadata (o.newMetadata req id now)) := by
  rw [withObject, lookup_insert, if_neg (by simp [bucketIndexKey_eq, objectMetaKey_eq]),
    lookup_insert, if_pos rfl]

lemma withObject_index :
    (o.withObject req id now map)[bucketIndexKey req.bucket req.key]? = some id := by
  rw [withObject, lookup_insert, if_pos rfl]

lemma withObject_chunk {i : ℕ} (hi : i < o.chunkCount req.data.length) :
    (o.withObject req id now map)[chunkKey id i]? = some (o.chunkValue req.data i) := by
  rw [withObject, lookup_insert, if_neg (by simp [bucketIndexKey_eq, chunkKey_eq]), lookup_insert,
    if_neg (by simp [objectMetaKey_eq, chunkKey_eq])]
  exact o.withChunks_chunkKey id req.data map (List.mem_range.mpr hi)

end ObjectStore

variable {o : ObjectStore} {map : KvMap} {past : List Op}

/-- **An accepted `PutObject`.** -/
lemma Represents.withObject (h : Represents o map past) {req : PutObjectRequest}
    (htab : (Op.putObject req).TabFree) (ms now : UInt64) :
    Represents o (o.withObject req (objectIdAt req.bucket req.key ms) now map)
      (past ++ [.putObject req]) := by
  have hplain := o.newMetadata_plain req htab ms now
  have hown := ownId_objectIdAt req.bucket req.key ms
  constructor
  · intro name
    rw [catalogOf_concat]
    by_cases hname : name = objectName req.bucket req.key
    · subst hname
      rw [Op.record, Function.update_self]
      refine .committed req _ now rfl ?_ hplain hown fun i hi => o.withObject_chunk _ _ _ _ hi
      rw [metadataOf, ← objectMetaKey_eq, o.withObject_meta, Option.bind_some,
        deserializeMetadata_serializeMetadata hplain]
    · rw [Op.record, Function.update_of_ne hname]
      refine (h.objects name).congr ?_ fun m hm _ i _ => ?_
      · exact o.withObject_of_ne _ _ _ _ (by simpa [objectMetaKey_eq] using hname)
          (by simp [bucketIndexKey_eq]) (by simp [chunkKey_eq])
      · refine o.withObject_of_ne _ _ _ _ (by simp [chunkKey_eq, objectMetaKey_eq])
          (by simp [chunkKey_eq, bucketIndexKey_eq]) fun j e => hname ?_
        have hid := (chunkKey_inj.mp e).1
        exact ((h.objects name).metadata hm).1.inj (hid ▸ hown)
  · intro name
    rw [catalogOf_concat]
    by_cases hname : name = objectName req.bucket req.key
    · subst hname
      rw [← bucketIndexKey_eq, o.withObject_index]
      simp [Op.record]
    · rw [o.withObject_of_ne _ _ _ _ (by simp [objectMetaKey_eq])
        (by simpa [bucketIndexKey_eq] using hname) (by simp [chunkKey_eq]), h.index]
      simp [Op.record, Function.update_of_ne hname]
  · intro rest hsome
    by_cases hnew : ∃ i, recordKey .chunk rest = chunkKey (objectIdAt req.bucket req.key ms) i
    · obtain ⟨i, hi⟩ := hnew
      exact ⟨_, i, hown.ne_nil, hi⟩
    · rw [o.withObject_of_ne _ _ _ _ (by simp [objectMetaKey_eq]) (by simp [bucketIndexKey_eq])
        (not_exists.mp hnew)] at hsome
      exact h.chunks rest hsome
  · intro b
    rw [o.withObject_of_ne _ _ _ _ (by simp [bucketMetaKey_eq, objectMetaKey_eq])
      (by simp [bucketMetaKey_eq, bucketIndexKey_eq]) (by simp [bucketMetaKey_eq, chunkKey_eq]),
      h.buckets]
    simp

/-! ### Deleting an object -/

lemma withoutObject_of_ne {b k key : Bytes} (m : ObjectMetadata) (now : UInt64) (map : KvMap)
    (hmeta : key ≠ objectMetaKey b k) (hindex : key ≠ bucketIndexKey b k) :
    (withoutObject b k m now map)[key]? = map[key]? := by
  rw [withoutObject, lookup_erase, if_neg hindex.symm, lookup_insert, if_neg hmeta.symm]

/-- Metadata marked deleted. -/
lemma ObjectMetadata.Plain.deleted {m : ObjectMetadata} (h : m.Plain) (now : UInt64) :
    { m with state := .deleted, updatedAt := now.toNat : ObjectMetadata }.Plain :=
  { h with updatedAt := now.toNat_lt, state := Or.inr rfl }

lemma metadataOf_withoutObject {b k : Bytes} {m : ObjectMetadata} (hm : m.Plain) (now : UInt64)
    (map : KvMap) : metadataOf (withoutObject b k m now map) (objectName b k) =
      some { m with state := .deleted, updatedAt := now.toNat } := by
  rw [metadataOf, ← objectMetaKey_eq, withoutObject, lookup_erase,
    if_neg (by simp [bucketIndexKey_eq, objectMetaKey_eq]), lookup_insert, if_pos rfl,
    Option.bind_some, deserializeMetadata_serializeMetadata (hm.deleted now)]

/-- **An accepted `DeleteObject`.** -/
lemma Represents.withoutObject (h : Represents o map past) {b k : Bytes} {m : ObjectMetadata}
    (hm : metadataOf map (objectName b k) = some m) (now : UInt64) :
    Represents o (withoutObject b k m now map) (past ++ [.deleteObject b k]) := by
  obtain ⟨hown, hplain⟩ := (h.objects _).metadata hm
  constructor
  · intro name
    rw [catalogOf_concat]
    by_cases hname : name = objectName b k
    · subst hname
      rw [Op.record, Function.update_self]
      exact .deleted _ (metadataOf_withoutObject hplain now map) (hplain.deleted now) rfl hown
    · rw [Op.record, Function.update_of_ne hname]
      refine (h.objects name).congr ?_ fun m' hm' _ i _ => ?_
      · exact withoutObject_of_ne _ _ _ (by simpa [objectMetaKey_eq] using hname)
          (by simp [bucketIndexKey_eq])
      · exact withoutObject_of_ne _ _ _ (by simp [chunkKey_eq, objectMetaKey_eq])
          (by simp [chunkKey_eq, bucketIndexKey_eq])
  · intro name
    rw [catalogOf_concat]
    by_cases hname : name = objectName b k
    · subst hname
      rw [← bucketIndexKey_eq, Object.withoutObject, lookup_erase, if_pos rfl]
      simp [Op.record]
    · rw [withoutObject_of_ne _ _ _ (by simp [objectMetaKey_eq])
        (by simpa [bucketIndexKey_eq] using hname), h.index]
      simp [Op.record, Function.update_of_ne hname]
  · intro rest hsome
    rw [withoutObject_of_ne _ _ _ (by simp [objectMetaKey_eq]) (by simp [bucketIndexKey_eq])] at hsome
    exact h.chunks rest hsome
  · intro b'
    rw [withoutObject_of_ne _ _ _ (by simp [bucketMetaKey_eq, objectMetaKey_eq])
      (by simp [bucketMetaKey_eq, bucketIndexKey_eq]), h.buckets]
    simp

/-! ### Buckets and collections -/

lemma Represents.createBucket (h : Represents o map past) (b value : Bytes) :
    Represents o (map.insert (bucketMetaKey b) value) (past ++ [.createBucket b]) := by
  have hother : ∀ {key}, key ≠ bucketMetaKey b →
      (map.insert (bucketMetaKey b) value)[key]? = map[key]? := fun hne => by
    rw [lookup_insert, if_neg hne.symm]
  constructor
  · intro name
    rw [catalogOf_concat]
    refine (h.objects name).congr (hother (by simp [bucketMetaKey_eq])) fun m _ _ i _ => ?_
    exact hother (by simp [bucketMetaKey_eq, chunkKey_eq])
  · intro name
    rw [catalogOf_concat, hother (by simp [bucketMetaKey_eq])]
    exact h.index name
  · intro rest hsome
    rw [hother (by simp [bucketMetaKey_eq])] at hsome
    exact h.chunks rest hsome
  · intro b'
    by_cases hb : b' = b
    · subst hb
      simp
    · rw [hother (by simpa [bucketMetaKey_eq] using hb), h.buckets]
      simp [hb]

/-- A bucket that is created again. -/
lemma Represents.createBucket_again (h : Represents o map past) {b : Bytes}
    (hb : map[bucketMetaKey b]?.isSome) : Represents o map (past ++ [.createBucket b]) where
  objects name := by
    rw [catalogOf_concat]
    exact h.objects name
  index name := by
    rw [catalogOf_concat]
    exact h.index name
  chunks := h.chunks
  buckets b' := by
    have hmem := (h.buckets b).mp hb
    rw [h.buckets]
    simp only [List.mem_append, List.mem_singleton, Op.createBucket.injEq]
    constructor
    · exact Or.inl
    · rintro (h' | rfl)
      · exact h'
      · exact hmem

/-- The chunks of committed objects are no garbage. -/
lemma Represents.not_garbage (h : Represents o map past) {name : Bytes} {m : ObjectMetadata}
    (hm : metadataOf map name = some m) (hs : m.state = .committed) (i : ℕ) :
    ¬ Garbage map (chunkKey m.objectId i) := by
  rintro ⟨-, id, hid, hunreachable⟩
  rw [chunkOwner_chunkKey ((h.objects name).metadata hm).1.ne_nil] at hid
  cases hid
  exact hunreachable ⟨name, m, hm, hs, rfl⟩

lemma not_garbage_of_kind {kind : RecordKind} {rest : Bytes} (hkind : kind ≠ .chunk) :
    ¬ Garbage map (recordKey kind rest) := by
  rintro ⟨⟨rest', h⟩, -⟩
  exact hkind (recordKey_inj.mp h).1

/-- **A collection, or a part of one.** -/
lemma Represents.collect (h : Represents o map past) {map' : KvMap}
    (hmap : ∀ name, map'[name]? = map[name]? ∨ Garbage map name ∧ map'[name]? = none) :
    Represents o map' (past ++ [.garbageCollectChunks]) := by
  have hkept : ∀ {name}, ¬ Garbage map name → map'[name]? = map[name]? := fun hg =>
    (hmap _).resolve_right fun h' => hg h'.1
  constructor
  · intro name
    rw [catalogOf_concat]
    exact (h.objects name).congr (hkept (not_garbage_of_kind (by simp))) fun m hm hs i _ =>
      hkept (h.not_garbage hm hs i)
  · intro name
    rw [catalogOf_concat, hkept (not_garbage_of_kind (by simp))]
    exact h.index name
  · intro rest hsome
    refine h.chunks rest ?_
    rcases hmap (recordKey .chunk rest) with e | ⟨-, e⟩
    · rwa [e] at hsome
    · simp [e] at hsome
  · intro b
    rw [bucketMetaKey_eq, hkept (not_garbage_of_kind (by simp)), ← bucketMetaKey_eq, h.buckets]
    simp

/-! ### Runs keep the invariant -/

/-- **One call.** -/
lemma Represents.perform {w : KvWorld} (h : Represents o w.map past) {op : Op}
    (htab : op.TabFree) :
    Represents o (op.perform o w).2.map (past ++ if (op.perform o w).1 then [op] else []) := by
  cases op with
  | createBucket b =>
    simp only [Op.perform, Op.prog, exec_createBucket]
    by_cases hb : b = []
    · simpa [hb] using h
    · by_cases hw : w.map[bucketMetaKey b]?.isSome
      · simpa [hb, hw] using h.createBucket_again hw
      · simpa [hb, hw] using h.createBucket b _
  | putObject req =>
    obtain ⟨haccepted, hrefused⟩ := exec_putObject o req w
    by_cases hreq : req.Accepted w
    · simpa [Op.perform, Op.prog, haccepted hreq, ObjectStore.putAnswer, PutObjectRequest.objectId]
        using h.withObject htab w.clock.head w.clock.tail.head
    · obtain ⟨hok, hstate⟩ := hrefused hreq
      simpa [Op.perform, Op.prog, hok, hstate] using h
  | deleteObject b k =>
    obtain ⟨hdeleted, hmissing⟩ := exec_deleteObject b k w
    cases hm : metadataOf w.map (objectName b k) with
    | none =>
      obtain ⟨hok, hstate⟩ := hmissing hm
      simpa [Op.perform, Op.prog, hok, hstate] using h
    | some m =>
      simpa [Op.perform, Op.prog, hdeleted m hm] using h.withoutObject hm w.clock.head
  | garbageCollectChunks =>
    have hc := exec_garbageCollectChunks w
    simp only [Op.perform, Op.prog, exec_bind, exec_pure, if_true]
    refine h.collect fun name => ?_
    by_cases hg : Garbage w.map name
    · exact Or.inr ⟨hg, hc.gone name hg⟩
    · exact Or.inl (hc.kept name hg)

lemma Represents.run {ops : List Op} {w : KvWorld} (h : Represents o w.map past)
    (htab : ∀ op ∈ ops, op.TabFree) :
    Represents o (run o ops w).map (past ++ accepted o ops w) := by
  induction ops generalizing w past with
  | nil => simpa [accepted, Object.run] using h
  | cons op ops ih =>
    have hstep := h.perform (htab op (by simp))
    have hrest := ih hstep fun op' h' => htab op' (by simp [h'])
    simpa [accepted, Object.run] using hrest

/-- **Every run from an empty store.** -/
theorem represents_run {ops : List Op} {w : KvWorld} (hw : w.map = ∅)
    (htab : ∀ op ∈ ops, op.TabFree) : Represents o (Object.run o ops w).map (accepted o ops w) := by
  have h : Represents o w.map [] := by
    rw [hw]
    exact represents_empty o
  exact h.run htab

/-- An accepted call was accepted in the state it was made in. -/
lemma exists_of_mem_accepted {ops : List Op} {w : KvWorld} {op : Op}
    (h : op ∈ accepted o ops w) : op ∈ ops ∧ ∃ w', (op.perform o w').1 = true := by
  induction ops generalizing w with
  | nil => simp [accepted] at h
  | cons op' ops ih =>
    rw [accepted, List.mem_append] at h
    rcases h with h | h
    · split at h
      · next hok =>
        cases List.mem_singleton.mp h
        exact ⟨by simp, w, hok⟩
      · simp at h
    · exact ⟨List.mem_cons_of_mem _ (ih h).1, (ih h).2⟩

lemma ne_nil_of_created {ops : List Op} {w : KvWorld} {b : Bytes}
    (h : Op.createBucket b ∈ accepted o ops w) : b ≠ [] := by
  obtain ⟨-, w', hok⟩ := exists_of_mem_accepted h
  rintro rfl
  simp [Op.perform, Op.prog, exec_createBucket] at hok

/-! ### The bytes of an object -/

namespace ObjectStore

variable (o : ObjectStore)

lemma chunkValue_eq (data : Bytes) (i : ℕ) :
    o.chunkValue data i = (data.drop (i * o.chunkSizeBytes)).take o.chunkSizeBytes := by
  dsimp only [chunkValue]
  rcases Nat.le_total (i * o.chunkSizeBytes + o.chunkSizeBytes) data.length with h | h
  · rw [Nat.min_eq_left h, Nat.add_sub_cancel_left]
  · rw [Nat.min_eq_right h, List.take_of_length_le (by simp), List.take_of_length_le]
    simp only [List.length_drop]
    omega

/-- The chunks put together again. -/
lemma flatMap_chunkValue (data : Bytes) (n : ℕ) :
    (List.range n).flatMap (o.chunkValue data) = data.take (n * o.chunkSizeBytes) := by
  induction n with
  | zero => simp
  | succ n ih =>
    rw [List.range_succ, List.flatMap_append, ih, List.flatMap_singleton, chunkValue_eq,
      Nat.succ_mul, List.take_add]

lemma chunkCount_eq {size : ℕ} (h : size ≤ (2 ^ 32 - 1) * o.chunkSizeBytes) :
    size ≤ o.chunkCount size * o.chunkSizeBytes := by
  have hpos := o.chunkSize_pos
  have hlt := o.chunkSize_lt
  have hwide : (2 ^ 32 - 1) * o.chunkSizeBytes ≤ (2 ^ 32 - 1) * (2 ^ 32 - 1) :=
    Nat.mul_le_mul_left _ (by omega)
  have hceil : (size + o.chunkSizeBytes - 1) / o.chunkSizeBytes < 2 ^ 32 := by
    rw [Nat.div_lt_iff_lt_mul hpos]
    omega
  have hfits : size + o.chunkSizeBytes - 1 < 2 ^ 64 := by omega
  unfold chunkCount
  rw [Nat.mod_eq_of_lt hfits, Nat.mod_eq_of_lt hceil]
  have hmod := Nat.div_add_mod (size + o.chunkSizeBytes - 1) o.chunkSizeBytes
  have hrest := Nat.mod_lt (size + o.chunkSizeBytes - 1) hpos
  rw [mul_comm] at hmod
  omega

/-- **Fewer than `2 ^ 32` chunks hold all the data.** -/
lemma flatMap_chunks {data : Bytes} (h : data.length ≤ (2 ^ 32 - 1) * o.chunkSizeBytes) :
    (List.range (o.chunkCount data.length)).flatMap (o.chunkValue data) = data := by
  rw [flatMap_chunkValue, List.take_of_length_le (o.chunkCount_eq h)]

end ObjectStore

/-! ### What the operations answer -/

section Answers

variable {w : KvWorld} {b k : Bytes}

/-- A name that holds nothing. -/
lemma Holds.objectAt_none (h : Holds o w.map (objectName b k) none) :
    (objectAt w b k).found = false ∧ ((objectAt w b k).error = text "object metadata not found" ∨
      (objectAt w b k).error = text "object is deleted") := by
  cases h with
  | missing hnone =>
    rw [Object.objectAt_none (by rwa [objectMetaKey_eq])]
    exact ⟨rfl, Or.inl rfl⟩
  | deleted m hm hplain hstate hid =>
    rw [objectAt_deleted hm hstate]
    exact ⟨rfl, Or.inr rfl⟩

/-- A name that holds a request. -/
lemma Holds.objectAt_some {req : PutObjectRequest}
    (h : Holds o w.map (objectName b k) (some req)) :
    ∃ id now, objectAt w b k =
      { found := true, metadata := o.newMetadata req id now
        data := (List.range (o.chunkCount req.data.length)).flatMap (o.chunkValue req.data) } := by
  cases h with
  | committed req id now hname hm hplain hid hchunks =>
    exact ⟨id, now, objectAt_found hm (by simp [ObjectStore.newMetadata]) hchunks⟩

lemma Holds.entryAt_none (h : Holds o map (objectName b k) none) : entryAt map b k = none := by
  cases h with
  | missing hnone => simp [entryAt, metadataOf, hnone]
  | deleted m hm hplain hstate hid => simp [entryAt, hm, hstate]

lemma Holds.entryAt_some {req : PutObjectRequest} (h : Holds o map (objectName b k) (some req)) :
    ∃ updatedAt, entryAt map b k = some ⟨req.key, req.data.length, req.contentType,
      computeEtag o.hash req.data, updatedAt⟩ := by
  cases h with
  | committed req id now hname hm hplain hid hchunks =>
    exact ⟨now.toNat, by simp [entryAt, hm, ObjectStore.newMetadata, ObjectMetadata.listEntry]⟩

lemma Represents.objectAt_none (h : Represents o w.map past)
    (hcat : catalogOf past (objectName b k) = none) : (objectAt w b k).found = false ∧
      ((objectAt w b k).error = text "object metadata not found" ∨
        (objectAt w b k).error = text "object is deleted") :=
  (hcat ▸ h.objects (objectName b k)).objectAt_none

lemma Represents.objectAt_some (h : Represents o w.map past) {req : PutObjectRequest}
    (hcat : catalogOf past (objectName b k) = some req) :
    ∃ id now, objectAt w b k =
      { found := true, metadata := o.newMetadata req id now
        data := (List.range (o.chunkCount req.data.length)).flatMap (o.chunkValue req.data) } :=
  (hcat ▸ h.objects (objectName b k)).objectAt_some

end Answers

lemma Represents.entryAt {w : KvWorld} (h : Represents o w.map past) (b k : Bytes) :
    (catalogOf past (objectName b k) = none → Object.entryAt w.map b k = none) ∧
      ∀ req, catalogOf past (objectName b k) = some req → ∃ updatedAt,
        Object.entryAt w.map b k = some ⟨req.key, req.data.length, req.contentType,
          computeEtag o.hash req.data, updatedAt⟩ :=
  ⟨fun hcat => (hcat ▸ h.objects (objectName b k)).entryAt_none,
    fun _ hcat => (hcat ▸ h.objects (objectName b k)).entryAt_some⟩

/-- The keys of a scan of the index, as keys of objects. -/
lemma mem_index_scan {map : KvMap} {b start name : Bytes} :
    name ∈ keysWith map (bucketIndexKey b start) ↔
      ∃ rest, name = bucketIndexKey b (start ++ rest) ∧
        map[bucketIndexKey b (start ++ rest)]?.isSome := by
  have happ : ∀ rest, bucketIndexKey b start ++ rest = bucketIndexKey b (start ++ rest) := by
    simp [bucketIndexKey]
  rw [mem_keysWith]
  constructor
  · rintro ⟨⟨rest, rfl⟩, h⟩
    exact ⟨rest, happ rest, by rwa [← happ]⟩
  · rintro ⟨rest, rfl, h⟩
    exact ⟨⟨rest, (happ rest).symm⟩, h⟩

lemma drop_bucketIndexKey (b k : Bytes) :
    (bucketIndexKey b k).drop (bucketIndexKey b []).length = k := by
  have happ : bucketIndexKey b k = bucketIndexKey b [] ++ k := by simp [bucketIndexKey]
  rw [happ, List.drop_left]

/-- **The entries of a listing.** -/
lemma mem_objects {w : KvWorld} {b : Bytes} (hb : b ≠ []) (hw : w.map[bucketMetaKey b]?.isSome)
    {start : Bytes} {e : ObjectListEntry} :
    e ∈ (objectsIn w b start).objects ↔ ∃ rest,
      w.map[bucketIndexKey b (start ++ rest)]?.isSome ∧ entryAt w.map b (start ++ rest) = some e := by
  rw [objectsIn_eq hb hw]
  simp only [List.mem_filterMap, mem_shuffled, mem_index_scan]
  constructor
  · rintro ⟨name, ⟨rest, rfl, hsome⟩, he⟩
    exact ⟨rest, hsome, by rwa [drop_bucketIndexKey] at he⟩
  · rintro ⟨rest, hsome, he⟩
    exact ⟨_, ⟨rest, rfl, hsome⟩, by rwa [drop_bucketIndexKey]⟩

lemma of_lastAccepted {b k : Bytes} {op : Op} (h : lastAccepted past b k = some op) :
    op ∈ past ∧ op.Concerns b k := by
  have hmem := List.mem_of_getLast? h
  simpa using hmem

/-- **The object store is a map.** In every run with buckets without colons, `GetObject` finds an
object exactly when the last accepted call on it was a `PutObject`, and gives back its request; a
listing has one entry for each such key that starts with the prefix. -/
theorem objects_refine_map (o : ObjectStore) (ops : List Op) (w : KvWorld) (hw : w.map = ∅)
    (hcolon : ∀ op ∈ ops, op.ColonFree) (htab : ∀ op ∈ ops, op.TabFree)
    (hfits : ∀ op ∈ ops, op.Fits o) :
    (∀ b k, colon ∉ b →
      ((objectAt (run o ops w) b k).found = true ↔
        ∃ req, lastAccepted (accepted o ops w) b k = some (.putObject req)) ∧
      ∀ req, lastAccepted (accepted o ops w) b k = some (.putObject req) →
        (objectAt (run o ops w) b k).data = req.data ∧
        (objectAt (run o ops w) b k).metadata.sizeBytes = req.data.length ∧
        (objectAt (run o ops w) b k).metadata.contentType = req.contentType) ∧
    ∀ b start, colon ∉ b → Op.createBucket b ∈ accepted o ops w →
      (objectsIn (run o ops w) b start).ok = true ∧
      ((objectsIn (run o ops w) b start).objects.map (·.key)).Nodup ∧
      (∀ k, k ∈ (objectsIn (run o ops w) b start).objects.map (·.key) ↔
        start.isPrefixOf k ∧ ∃ req, lastAccepted (accepted o ops w) b k = some (.putObject req)) ∧
      ∀ e ∈ (objectsIn (run o ops w) b start).objects, ∀ req,
        lastAccepted (accepted o ops w) b e.key = some (.putObject req) →
          e.sizeBytes = req.data.length ∧ e.contentType = req.contentType ∧
          e.etag = computeEtag o.hash req.data := by
  have hrep : Represents o (run o ops w).map (accepted o ops w) := represents_run hw htab
  have hpast : ∀ op ∈ accepted o ops w, op.ColonFree := fun op h =>
    hcolon op (exists_of_mem_accepted h).1
  have hcat : ∀ {b k}, colon ∉ b → ∀ req, catalogOf (accepted o ops w) (objectName b k) = some req ↔
      lastAccepted (accepted o ops w) b k = some (.putObject req) := fun hb req =>
    catalogOf_objectName hpast hb req
  constructor
  · intro b k hb
    constructor
    · cases hc : catalogOf (accepted o ops w) (objectName b k) with
      | none =>
        rw [(hrep.objectAt_none hc).1]
        simp [← hcat hb, hc]
      | some req =>
        obtain ⟨id, now, hobj⟩ := hrep.objectAt_some hc
        simp [← hcat hb, hc, hobj]
    · intro req hlast
      obtain ⟨id, now, hobj⟩ := hrep.objectAt_some ((hcat hb req).mpr hlast)
      have hfit := hfits _ (exists_of_mem_accepted (of_lastAccepted hlast).1).1
      rw [hobj]
      exact ⟨o.flatMap_chunks hfit, rfl, rfl⟩
  · intro b start hb hcreated
    have hbucket : (run o ops w).map[bucketMetaKey b]?.isSome := (hrep.buckets b).mpr hcreated
    have hne : b ≠ [] := ne_nil_of_created hcreated
    -- an entry has the key it was found under
    have hentry : ∀ {k e}, entryAt (run o ops w).map b k = some e → ∃ req,
        lastAccepted (accepted o ops w) b k = some (.putObject req) ∧ e.key = k ∧
        e.sizeBytes = req.data.length ∧ e.contentType = req.contentType ∧
        e.etag = computeEtag o.hash req.data := by
      intro k e he
      obtain ⟨hnone, hsome⟩ := hrep.entryAt b k
      cases hc : catalogOf (accepted o ops w) (objectName b k) with
      | none =>
        rw [hnone hc] at he
        cases he
      | some req =>
        obtain ⟨now, he'⟩ := hsome req hc
        have hlast := (hcat hb req).mp hc
        have hkey : req.key = k := (of_lastAccepted hlast).2.2
        rw [he'] at he
        cases he
        exact ⟨req, hlast, hkey, rfl, rfl, rfl⟩
    refine ⟨by rw [objectsIn_eq hne hbucket], ?_, fun k => ?_, fun e he req hlast => ?_⟩
    · -- two entries with one key come from one name of the index
      rw [objectsIn_eq hne hbucket, List.Nodup, List.pairwise_map, List.pairwise_filterMap]
      have hnodup := ((run o ops w).orders.head.perm
        (keysWith (run o ops w).map (bucketIndexKey b start))).nodup_iff.mpr (nodup_keysWith _ _)
      refine List.Pairwise.imp_of_mem (fun {x y} hx hy hxy e he e' he' hkeys => hxy ?_) hnodup
      obtain ⟨rest, rfl, -⟩ := mem_index_scan.mp (mem_shuffled.mp hx)
      obtain ⟨rest', rfl, -⟩ := mem_index_scan.mp (mem_shuffled.mp hy)
      rw [drop_bucketIndexKey] at he he'
      obtain ⟨-, -, hk, -⟩ := hentry he
      obtain ⟨-, -, hk', -⟩ := hentry he'
      rw [← hk, ← hk', hkeys]
    · constructor
      · intro hk
        obtain ⟨e, he, rfl⟩ := List.mem_map.mp hk
        obtain ⟨rest, -, hat⟩ := (mem_objects hne hbucket).mp he
        obtain ⟨req, hlast, hkey, -⟩ := hentry hat
        rw [hkey]
        exact ⟨by simp, req, hlast⟩
      · rintro ⟨hstart, req, hlast⟩
        obtain ⟨rest, rfl⟩ := List.isPrefixOf_iff_prefix.mp hstart
        have hc := (hcat hb req).mpr hlast
        obtain ⟨now, hat⟩ := (hrep.entryAt b (start ++ rest)).2 req hc
        have hindex := (hrep.index (objectName b (start ++ rest))).mpr (by simp [hc])
        rw [← bucketIndexKey_eq] at hindex
        refine List.mem_map.mpr ⟨_, (mem_objects hne hbucket).mpr ⟨rest, hindex, hat⟩, ?_⟩
        exact (of_lastAccepted hlast).2.2
    · obtain ⟨rest, -, hat⟩ := (mem_objects hne hbucket).mp he
      obtain ⟨req', hlast', hkey, hsize, htype, hetag⟩ := hentry hat
      rw [hkey, hlast'] at hlast
      cases hlast
      exact ⟨hsize, htype, hetag⟩

/-- A store of small chunks on an empty map, with a clock that stands still. -/
def smallStore : ObjectStore := .new 2 fun _ => 0

def emptyWorld : KvWorld := ⟨∅, fun _ => 0, fun _ => ⟨id, List.Perm.refl⟩⟩

/-- A request for the object `k` of the bucket `b`. -/
def requestOf (data : Bytes) (h : data.length < 2 ^ 64) : PutObjectRequest where
  bucket := text "b"
  key := text "k"
  data := data
  size_lt := h

theorem objects_refine_map_overwritten :
    (objectAt (run smallStore [.createBucket (text "b"),
        .putObject (requestOf (text "first") (by decide)),
        .putObject (requestOf (text "new") (by decide)), .garbageCollectChunks] emptyWorld)
      (text "b") (text "k")).data = text "new" :=
  (((objects_refine_map smallStore [.createBucket (text "b"),
    .putObject (requestOf (text "first") (by decide)),
    .putObject (requestOf (text "new") (by decide)), .garbageCollectChunks] emptyWorld rfl
    (by simp [Op.ColonFree, requestOf]; decide) (by simp [Op.TabFree, requestOf]; decide)
    (by simp [Op.Fits, requestOf]; decide)).1 (text "b") (text "k") (by decide)).2
    (requestOf (text "new") (by decide)) (by decide +kernel)).1

end VeriStore.Object

import VeriStore.Object.Crash

/-!
Listings behind a crash.

* `Indexed o map cat`: every object of `cat` has its entry in the index; there may be more entries.
  This is all that listings need (`Indexed.listed`).
* `Op.cut`: wherever the mutations of a call are cut the map is `Indexed`, but for one place, between
  the metadata and the first entry of a new object (`Op.Between`).
* `listed_iff`: behind a crash the listings show the objects that `GetObject` finds if and only if the
  prefix does not end in such a place.
-/

namespace VeriStore.Object

open VeriStore.Lib VeriStore.Lib.Prog VeriStore.Store

variable {o : ObjectStore} {w : KvWorld} {map map' : KvMap} {past : List Op}

/-- **The listings of the buckets show the objects that can be read.** -/
def Listed (w : KvWorld) : Prop :=
  ∀ b, w.map[bucketMetaKey b]?.isSome → ∀ start k,
    k ∈ (objectsIn w b start).objects.map (·.key) ↔
      start.isPrefixOf k ∧ (objectAt w b k).found = true

/-! ### Maps with an index -/

/-- **Every object has an entry.** An entry may be there without an object. -/
structure Indexed (o : ObjectStore) (map : KvMap) (cat : Bytes → Option PutObjectRequest) : Prop where
  objects : ∀ name, Holds o map name (cat name)
  index : ∀ name, (cat name).isSome → map[recordKey .bucketIndex name]?.isSome
  buckets : ∀ b, map[bucketMetaKey b]?.isSome → b ≠ [] ∧ colon ∉ b
  requests : ∀ name req, cat name = some req → colon ∉ req.bucket

section Indexed

variable {cat : Bytes → Option PutObjectRequest}

/-- A committed request was made for the name. -/
lemma Holds.objectName_eq {name : Bytes} {req : PutObjectRequest} (h : Holds o map name (some req)) :
    objectName req.bucket req.key = name := by
  cases h with
  | committed req id now hname hm hplain hid hchunks => exact hname

/-- The entry of an object has the key it was found under. -/
lemma Indexed.entryAt_key (h : Indexed o map cat) {b k : Bytes} (hb : colon ∉ b)
    {e : ObjectListEntry} (he : entryAt map b k = some e) :
    e.key = k ∧ (cat (objectName b k)).isSome := by
  have hholds := h.objects (objectName b k)
  cases hcat : cat (objectName b k) with
  | none =>
    rw [hcat] at hholds
    simp [hholds.entryAt_none] at he
  | some req =>
    rw [hcat] at hholds
    obtain ⟨now, he'⟩ := hholds.entryAt_some
    rw [he'] at he
    cases he
    exact ⟨(objectName_inj (h.requests _ req hcat) hb hholds.objectName_eq).2, by simp⟩

lemma Indexed.found_iff (h : Indexed o w.map cat) (b k : Bytes) :
    (objectAt w b k).found = true ↔ (cat (objectName b k)).isSome := by
  have hholds := h.objects (objectName b k)
  cases hcat : cat (objectName b k) with
  | none =>
    rw [hcat] at hholds
    simp [hholds.objectAt_none.1]
  | some req =>
    rw [hcat] at hholds
    obtain ⟨id, now, hobj⟩ := hholds.objectAt_some
    simp [hobj]

/-- **With an index the listings are right.** -/
lemma Indexed.listed (h : Indexed o w.map cat) : Listed w := by
  intro b hbucket start k
  obtain ⟨hne, hb⟩ := h.buckets b hbucket
  rw [h.found_iff]
  constructor
  · intro hk
    obtain ⟨e, he, rfl⟩ := List.mem_map.mp hk
    obtain ⟨rest, -, hat⟩ := (mem_objects hne hbucket).mp he
    obtain ⟨hkey, hsome⟩ := h.entryAt_key hb hat
    rw [hkey]
    exact ⟨by simp, hsome⟩
  · rintro ⟨hstart, hsome⟩
    obtain ⟨rest, rfl⟩ := List.isPrefixOf_iff_prefix.mp hstart
    have hindex := h.index _ hsome
    rw [← bucketIndexKey_eq] at hindex
    have hholds := h.objects (objectName b (start ++ rest))
    obtain ⟨req, hcat⟩ := Option.isSome_iff_exists.mp hsome
    rw [hcat] at hholds
    obtain ⟨now, hat⟩ := hholds.entryAt_some
    refine List.mem_map.mpr ⟨_, (mem_objects hne hbucket).mpr ⟨rest, hindex, hat⟩, ?_⟩
    exact (h.entryAt_key hb hat).1

/-- More entries do no harm. -/
lemma Indexed.more (h : Indexed o map cat)
    (hother : ∀ kind rest, kind ≠ .bucketIndex → map'[recordKey kind rest]? = map[recordKey kind rest]?)
    (hindex : ∀ name, map[recordKey .bucketIndex name]?.isSome →
      map'[recordKey .bucketIndex name]?.isSome) : Indexed o map' cat where
  objects name := by
    refine (h.objects name).congr (hother _ _ (by simp)) fun m _ _ i _ => ?_
    rw [chunkKey_eq]
    exact hother _ _ (by simp)
  index name hsome := hindex name (h.index name hsome)
  buckets b hsome := by
    refine h.buckets b ?_
    rw [bucketMetaKey_eq] at hsome ⊢
    rwa [hother _ _ (by simp)] at hsome
  requests := h.requests

end Indexed

/-- Calls on buckets with a name, without colons. -/
def Op.Named : Op → Prop
  | createBucket b => b ≠ [] ∧ colon ∉ b
  | op => op.ColonFree

lemma named_concat {op : Op} (hpast : ∀ op ∈ past, op.Named) (hop : op.Named) :
    ∀ op' ∈ past ++ [op], op'.Named := by
  intro op' h
  rcases List.mem_append.mp h with h | h
  · exact hpast op' h
  · cases List.mem_singleton.mp h
    exact hop

/-- The map behind whole calls. -/
lemma Represents.indexed (h : Represents o map past) (hpast : ∀ op ∈ past, op.Named) :
    Indexed o map (catalogOf past) where
  objects := h.objects
  index name := (h.index name).mpr
  buckets b hb := hpast _ ((h.buckets b).mp hb)
  requests _ _ hcat := hpast _ (mem_of_catalogOf hcat)

/-! ### Where a call can be cut -/

namespace ObjectStore

/-- The map with the chunks and the metadata of an object, and no entry yet. -/
def withMetadata (o : ObjectStore) (req : PutObjectRequest) (id : Bytes) (now : UInt64)
    (map : KvMap) : KvMap :=
  (o.withChunks id req.data (List.range (o.chunkCount req.data.length)) map).insert
    (objectMetaKey req.bucket req.key) (serializeMetadata (o.newMetadata req id now))

end ObjectStore

/-- What a call changes that writes. -/
def Journal.logged (j : Journal) : KvMap × List Mutation := (j.world.map, j.issued)

/-- A record that is written and logged. -/
def Journal.write (j : Journal) (key value : Bytes) : Journal :=
  (journalService (.put key value) j).2

section Points

variable {j t : Journal}

@[simp] lemma Journal.write_map (j : Journal) (key value : Bytes) :
    (j.write key value).world.map = j.world.map.insert key value := rfl

@[simp] lemma Journal.write_length (j : Journal) (key value : Bytes) :
    (j.write key value).issued.length = j.issued.length + 1 := by
  simp [Journal.write, journalService, mutationsOf]

lemma logged_eq (h : t.logged = j.logged) :
    t.world.map = j.world.map ∧ t.issued.length = j.issued.length := by
  obtain ⟨hmap, hissued⟩ := Prod.mk.inj h
  exact ⟨hmap, congrArg List.length hissued⟩

/-- A call that writes nothing. -/
lemma silent_read {c : KvCall} (hmap : (kvService c j.world).2.map = j.world.map)
    (hc : mutationsOf j.world.map c = []) : Silent journalService Journal.logged (request c) j :=
  silent_request (by simp [Journal.logged, journalService, hmap, hc])

lemma silent_bucketExists_logged (b : Bytes) :
    Silent journalService Journal.logged (bucketExists b) j := by
  unfold bucketExists
  split
  · exact silent_pure _ _
  · exact (silent_read rfl rfl).bind (silent_pure _ _)

lemma point_put {α : Type} {f : Unit → Kv α} {key value : Bytes}
    (ht : Point journalService (Kv.put key value >>= f) j t) :
    t = j ∨ Point journalService (f ()) (j.write key value) t := ht.of_request_bind

lemma exec_put_logged {α : Type} (f : Unit → Kv α) (key value : Bytes) (j : Journal) :
    exec journalService (Kv.put key value >>= f) j =
      exec journalService (f ()) (j.write key value) := rfl

/-- Some chunks are written. -/
lemma point_writeChunks {id data : Bytes} {is : List ℕ}
    (ht : Point journalService (o.writeChunks id data is) j t) :
    ∃ is', t.world.map = o.withChunks id data is' j.world.map ∧
      t.issued.length = j.issued.length + is'.length ∧ is'.length ≤ is.length := by
  induction is generalizing j with
  | nil =>
    cases ht
    exact ⟨[], rfl, rfl, le_rfl⟩
  | cons i is ih =>
    rcases point_put ht with rfl | ht
    · exact ⟨[], rfl, rfl, by simp⟩
    · obtain ⟨is', hmap, hlength, hle⟩ := ih ht
      rw [Journal.write_length] at hlength
      refine ⟨i :: is', hmap, ?_, by simpa using hle⟩
      rw [List.length_cons]
      omega

lemma length_writeChunks (id data : Bytes) (is : List ℕ) (j : Journal) :
    (exec journalService (o.writeChunks id data is) j).2.issued.length =
      j.issued.length + is.length := by
  induction is generalizing j with
  | nil => rfl
  | cons i is ih =>
    rw [ObjectStore.writeChunks, exec_put_logged, ih, Journal.write_length, List.length_cons]
    omega

variable {req : PutObjectRequest} {id : Bytes} {now : UInt64}

/-- The journal when all chunks are written. -/
def ObjectStore.chunked (o : ObjectStore) (req : PutObjectRequest) (id : Bytes) (j : Journal) :
    Journal :=
  (exec journalService (o.writeChunks id req.data (List.range (o.chunkCount req.data.length))) j).2

lemma chunked_map (req : PutObjectRequest) (id : Bytes) (j : Journal) :
    (o.chunked req id j).world.map =
      o.withChunks id req.data (List.range (o.chunkCount req.data.length)) j.world.map := by
  rw [ObjectStore.chunked, (extends_journal.exec _ j).2, o.exec_writeChunks]

lemma chunked_length (req : PutObjectRequest) (id : Bytes) (j : Journal) :
    (o.chunked req id j).issued.length = j.issued.length + o.chunkCount req.data.length := by
  rw [ObjectStore.chunked, length_writeChunks, List.length_range]

/-- The flush and the answer write nothing. -/
lemma obs_finish {σ ω α : Type} {h : Service KvCall KvAnswer σ} {obs : σ → ω} {r r' : α} {s s' : σ}
    (hflush : obs (h .flushWal s).2 = obs s)
    (ht : Point h (Kv.flushWal >>= fun ok => if !ok then pure r else pure r') s s') :
    obs s' = obs s := by
  refine (silent_request hflush).bind ?_ s' ht
  split
  · exact silent_pure _ _
  · exact silent_pure _ _

lemma logged_finish {α : Type} {r r' : α}
    (ht : Point journalService (Kv.flushWal >>= fun ok => if !ok then pure r else pure r') j t) :
    t.logged = j.logged := obs_finish (by simp [Journal.logged, journalService, kvService, mutationsOf]) ht

/-- **The points of a put** behind its checks: in the chunks, behind the metadata, behind the entry. -/
lemma point_writeObject (ht : Point journalService (o.writeObject req id now) j t) :
    (∃ is, t.world.map = o.withChunks id req.data is j.world.map ∧
      t.issued.length ≤ j.issued.length + o.chunkCount req.data.length) ∨
    (t.world.map = o.withMetadata req id now j.world.map ∧
      t.issued.length = j.issued.length + o.chunkCount req.data.length + 1) ∨
    (t.world.map = o.withObject req id now j.world.map ∧
      t.issued.length = j.issued.length + o.chunkCount req.data.length + 2) := by
  have hmap := chunked_map (o := o) req id j
  have hlength := chunked_length (o := o) req id j
  rcases ht.of_bind with ht | ht
  · obtain ⟨is, hmap, hlength, hle⟩ := point_writeChunks ht
    rw [List.length_range] at hle
    exact Or.inl ⟨is, hmap, by omega⟩
  · change Point _ _ (o.chunked req id j) t at ht
    rcases point_put ht with rfl | ht
    · exact Or.inl ⟨_, hmap, by omega⟩
    · rcases point_put ht with rfl | ht
      · refine Or.inr (Or.inl ⟨?_, ?_⟩)
        · rw [Journal.write_map, hmap, ObjectStore.withMetadata]
        · rw [Journal.write_length, hlength]
      · -- the flush issues nothing
        obtain ⟨hmap', hlength'⟩ := logged_eq (logged_finish ht)
        refine Or.inr (Or.inr ⟨?_, ?_⟩)
        · rw [hmap', Journal.write_map, Journal.write_map, hmap, ObjectStore.withObject]
        · rw [hlength', Journal.write_length, Journal.write_length, hlength]

/-- All mutations of a put. -/
lemma length_writeObject (req : PutObjectRequest) (id : Bytes) (now : UInt64) (j : Journal) :
    (exec journalService (o.writeObject req id now) j).2.issued.length =
      j.issued.length + o.chunkCount req.data.length + 2 := by
  rw [ObjectStore.writeObject, exec_bind, exec_put_logged, exec_put_logged]
  rw [(logged_eq (logged_finish (Point.exec _ _))).2, Journal.write_length, Journal.write_length]
  exact congrArg (· + 2) (chunked_length req id j)

/-- The journal in which the chunks of an accepted put are begun. -/
def Journal.afterChecks (j : Journal) : Journal :=
  { j with world := { j.world with clock := j.world.clock.tail.tail } }

/-- A read leaves the journal as it is. -/
lemma journal_get (key : Bytes) (j : Journal) :
    journalService (.get key) j = (j.world.map[key]?, j) := by
  simp [journalService, kvService, mutationsOf]

lemma journal_bucketExists (b : Bytes) (j : Journal) :
    exec journalService (bucketExists b) j =
      (decide (b ≠ []) && j.world.map[bucketMetaKey b]?.isSome, j) := by
  unfold bucketExists
  split
  · next hb => simp [hb]
  · next hb => simp [hb, Kv.get, journal_get]

lemma journal_clock (j : Journal) :
    journalService .nowEpochMs j =
      (j.world.clock.head, { j with world := { j.world with clock := j.world.clock.tail } }) := by
  simp [journalService, kvService, mutationsOf]

/-- A put behind its checks. -/
lemma exec_putObject_accepted (hreq : req.Accepted j.world) :
    exec journalService (o.putObject req) j =
      exec journalService (o.writeObject req (req.objectId j.world) j.world.clock.tail.head)
        j.afterChecks := by
  simp [ObjectStore.putObject, hreq.1, hreq.2.1, hreq.2.2, journal_bucketExists, Kv.get, journal_get,
    makeObjectId, Kv.nowEpochMs, journal_clock, PutObjectRequest.objectId, Journal.afterChecks]

/-- **The points of a put**: nothing is written yet, or it is behind its checks. -/
lemma point_putObject (ht : Point journalService (o.putObject req) j t) :
    t.logged = j.logged ∨ req.Accepted j.world ∧ Point journalService
      (o.writeObject req (req.objectId j.world) j.world.clock.tail.head) j.afterChecks t := by
  unfold ObjectStore.putObject at ht
  split at ht
  · exact Or.inl (silent_pure _ _ t ht)
  · next hb =>
    split at ht
    · exact Or.inl (silent_pure _ _ t ht)
    · next hk =>
      rcases (silent_bucketExists_logged req.bucket).of_bind ht with ht | ht
      · exact Or.inl ht
      · rw [journal_bucketExists] at ht
        cases hknown : j.world.map[bucketMetaKey req.bucket]?.isSome with
        | false =>
          rw [hknown, Bool.and_false] at ht
          exact Or.inl (silent_pure _ _ t ht)
        | true =>
          simp only [hknown, hb, ne_eq, not_false_eq_true, decide_true, Bool.and_self, Bool.not_true,
            Bool.false_eq_true, if_false] at ht
          rcases ht.of_request_bind with rfl | ht
          · exact Or.inl rfl
          · rw [journal_get] at ht
            have hid : Silent journalService Journal.logged (makeObjectId req.bucket req.key) j :=
              (silent_read rfl rfl).bind (silent_pure _ _)
            rcases hid.of_bind ht with ht | ht
            · exact Or.inl ht
            · rcases ht.of_request_bind with rfl | ht
              · exact Or.inl (hid.exec)
              · refine Or.inr ⟨⟨hb, hk, hknown⟩, ?_⟩
                simpa [makeObjectId, Kv.nowEpochMs, journal_clock, PutObjectRequest.objectId,
                  Journal.afterChecks] using ht

end Points

/-! ### The other calls -/

section Others

variable {t : KvWorld}

lemma obs_map_flush (w : KvWorld) : KvWorld.map (kvService .flushWal w).2 = w.map := rfl

/-- The points of `CreateBucket`. -/
lemma point_createBucket {b : Bytes} (ht : Point kvService (createBucket b) w t) :
    t.map = w.map ∨ b ≠ [] ∧ ∃ value, t.map = w.map.insert (bucketMetaKey b) value := by
  unfold createBucket at ht
  split at ht
  · cases ht
    exact Or.inl rfl
  · next hb =>
    rcases ht.of_request_bind with rfl | ht
    · exact Or.inl rfl
    · split at ht
      · cases ht
        exact Or.inl rfl
      · rcases ht.of_request_bind with rfl | ht
        · exact Or.inl rfl
        · rcases ht.of_request_bind with rfl | ht
          · exact Or.inl rfl
          · cases ht
            exact Or.inr ⟨hb, _, rfl⟩

/-- **The points of `DeleteObject`**: nothing is written yet, the metadata is marked deleted, or the
entry is gone as well. -/
lemma point_deleteObject {b k : Bytes} (ht : Point kvService (deleteObject b k) w t) :
    t.map = w.map ∨ ∃ m, metadataOf w.map (objectName b k) = some m ∧
      (t.map = w.map.insert (objectMetaKey b k)
          (serializeMetadata { m with state := .deleted, updatedAt := w.clock.head.toNat }) ∨
        t.map = withoutObject b k m w.clock.head w.map) := by
  unfold deleteObject at ht
  rcases ht.of_request_bind with rfl | ht
  · exact Or.inl rfl
  · split at ht
    · cases ht
      exact Or.inl rfl
    · next raw hraw =>
      split at ht
      · cases ht
        exact Or.inl rfl
      · next m hm =>
        have hfound : w.map[objectMetaKey b k]? = some raw := hraw
        have hmeta : metadataOf w.map (objectName b k) = some m := by
          rw [metadataOf, ← objectMetaKey_eq, hfound, Option.bind_some, hm]
        rcases ht.of_request_bind with rfl | ht
        · exact Or.inl rfl
        · rcases ht.of_request_bind with rfl | ht
          · exact Or.inl rfl
          · refine Or.inr ⟨m, hmeta, ?_⟩
            rcases ht.of_request_bind with rfl | ht
            · exact Or.inl rfl
            · have hmap : t.map = _ := obs_finish (obs_map_flush _) ht
              exact Or.inr hmap

/-- A sweep that is interrupted. -/
lemma point_sweepChunks {reachable names : List Bytes} {n : ℕ}
    (ht : Point kvService (sweepChunks reachable names n) w t) (name : Bytes) :
    t.map[name]? = w.map[name]? ∨
      name ∈ names ∧ Swept reachable name ∧ t.map[name]? = none := by
  induction names generalizing n w with
  | nil =>
    cases ht
    exact Or.inl rfl
  | cons chunk names ih =>
    have hrest : ∀ {n : ℕ} {w : KvWorld}, Point kvService (sweepChunks reachable names n) w t →
        t.map[name]? = w.map[name]? ∨
          name ∈ chunk :: names ∧ Swept reachable name ∧ t.map[name]? = none := fun ht =>
      (ih ht).imp_right fun h => ⟨List.mem_cons_of_mem _ h.1, h.2⟩
    unfold sweepChunks at ht
    split at ht
    · exact hrest ht
    · next id hid =>
      split at ht
      · exact hrest ht
      · next hun =>
        rcases ht.of_request_bind with rfl | ht
        · exact Or.inl rfl
        · rcases hrest ht with h | h
          · have herase : t.map[name]? = if chunk = name then none else w.map[name]? :=
              h.trans (lookup_erase w.map chunk name)
            by_cases hname : chunk = name
            · subst hname
              exact Or.inr ⟨by simp, ⟨id, hid, hun⟩, by rw [herase, if_pos rfl]⟩
            · exact Or.inl (by rw [herase, if_neg hname])
          · exact Or.inr h

/-- **The points of a collection**: some of the garbage is gone. -/
lemma point_garbageCollectChunks (ht : Point kvService garbageCollectChunks w t) (name : Bytes) :
    t.map[name]? = w.map[name]? ∨ Garbage w.map name ∧ t.map[name]? = none := by
  rcases ht.of_request_bind with rfl | ht
  · exact Or.inl rfl
  · rcases (still_reachableIds _ _).of_bind ht with hmap | ht
    · exact Or.inl (by rw [hmap]; rfl)
    · rw [reachableIds_frame] at ht
      rcases ht.of_request_bind with rfl | ht
      · exact Or.inl rfl
      · have hend : ∀ (n : ℕ) (s : KvWorld),
            Silent kvService KvWorld.map (Kv.flushWal >>= fun _ => pure n) s := fun n s =>
          (silent_request rfl).bind (silent_pure _ _)
        obtain ⟨t', ht, hmap⟩ := ht.of_bind_silent hend
        rw [hmap]
        refine (point_sweepChunks ht name).imp_right fun ⟨hmem, ⟨id, hid, hun⟩, hnone⟩ => ?_
        have hkey := (mem_keysWith.mp (mem_shuffled.mp hmem)).1
        refine ⟨⟨hkey, id, hid, fun hreach => hun ?_⟩, hnone⟩
        exact (mem_reachableIds_objmeta (w := { w with orders := w.orders.tail })
          (fun key => mem_shuffled) id).mpr hreach

end Others

/-! ### Parts of a put and of a delete -/

section Parts

variable {req : PutObjectRequest}

/-- Chunks of an id that no metadata names. -/
lemma Represents.withChunks (h : Represents o map past) {id : Bytes} (hne : id ≠ [])
    (hunused : ∀ name m, metadataOf map name = some m → m.objectId ≠ id) (data : Bytes)
    (is : List ℕ) : Represents o (o.withChunks id data is map) past := by
  have hother : ∀ {kind rest}, kind ≠ .chunk →
      (o.withChunks id data is map)[recordKey kind rest]? = map[recordKey kind rest]? := fun hkind =>
    o.withChunks_of_ne id data map fun i _ => by simp [chunkKey_eq, hkind]
  constructor
  · intro name
    refine (h.objects name).congr (hother (by simp)) fun m hm _ i _ => ?_
    exact o.withChunks_of_ne id data map fun j _ e => hunused name m hm (chunkKey_inj.mp e).1
  · intro name
    rw [hother (by simp)]
    exact h.index name
  · intro rest hsome
    by_cases hnew : ∃ i ∈ is, recordKey .chunk rest = chunkKey id i
    · obtain ⟨i, -, hi⟩ := hnew
      exact ⟨id, i, hne, hi⟩
    · rw [o.withChunks_of_ne id data map fun i hi e => hnew ⟨i, hi, e⟩] at hsome
      exact h.chunks rest hsome
  · intro b
    rw [bucketMetaKey_eq, hother (by simp), ← bucketMetaKey_eq]
    exact h.buckets b

/-- A record that is neither metadata nor a chunk. -/
lemma withMetadata_of_kind {kind : RecordKind} (hmeta : kind ≠ .objectMeta) (hchunk : kind ≠ .chunk)
    (id : Bytes) (now : UInt64) (rest : Bytes) :
    (o.withMetadata req id now map)[recordKey kind rest]? = map[recordKey kind rest]? := by
  rw [ObjectStore.withMetadata, lookup_insert, if_neg (by simp [objectMetaKey_eq, hmeta.symm])]
  exact o.withChunks_of_ne _ _ _ fun i _ => by simp [chunkKey_eq, hchunk]

/-- The entry is no part of the object. -/
lemma withObject_of_kind {kind : RecordKind} (hkind : kind ≠ .bucketIndex) (id : Bytes) (now : UInt64)
    (rest : Bytes) : (o.withObject req id now map)[recordKey kind rest]? =
      (o.withMetadata req id now map)[recordKey kind rest]? :=
  (lookup_insert _ _ _ _).trans (if_neg (by simp [bucketIndexKey_eq, hkind.symm]))

lemma metadataOf_withMetadata (htab : (Op.putObject req).TabFree) (ms now : UInt64) (name : Bytes) :
    metadataOf (o.withMetadata req (objectIdAt req.bucket req.key ms) now map) name =
      if name = objectName req.bucket req.key then
        some (o.newMetadata req (objectIdAt req.bucket req.key ms) now)
      else metadataOf map name := by
  rw [← metadataOf_withObject htab]
  exact (metadataOf_congr (withObject_of_kind (by simp) _ _ _)).symm

/-- An object that is overwritten has its entry already. -/
lemma Represents.withMetadata (h : Represents o map past) (hpast : ∀ op ∈ past, op.Named)
    (htab : (Op.putObject req).TabFree) (hcolon : (Op.putObject req).ColonFree) (ms now : UInt64)
    (hindex : map[bucketIndexKey req.bucket req.key]?.isSome) :
    Indexed o (o.withMetadata req (objectIdAt req.bucket req.key ms) now map)
      (catalogOf (past ++ [.putObject req])) := by
  have hnamed := named_concat hpast (show (Op.putObject req).Named from hcolon)
  refine ((h.withObject htab ms now).indexed hnamed).more (fun kind rest hkind => ?_) fun name hsome => ?_
  · exact (withObject_of_kind hkind _ _ _).symm
  · rw [ObjectStore.withObject, lookup_insert] at hsome
    split at hsome
    · next hname =>
      rw [withMetadata_of_kind (by simp) (by simp), ← hname]
      exact hindex
    · exact hsome

/-- Metadata that is marked deleted, with the entry still there. -/
lemma Represents.markedDeleted (h : Represents o map past) (hpast : ∀ op ∈ past, op.Named)
    {b k : Bytes} (hb : colon ∉ b) {m : ObjectMetadata} (hm : metadataOf map (objectName b k) = some m)
    (now : UInt64) :
    Indexed o (map.insert (objectMetaKey b k)
      (serializeMetadata { m with state := .deleted, updatedAt := now.toNat }))
      (catalogOf (past ++ [.deleteObject b k])) := by
  have hnamed := named_concat hpast (show (Op.deleteObject b k).Named from hb)
  refine ((h.withoutObject hm now).indexed hnamed).more (fun kind rest hkind => ?_) fun name hsome => ?_
  · rw [Object.withoutObject, lookup_erase, if_neg (by simp [bucketIndexKey_eq, hkind.symm])]
  · rw [Object.withoutObject, lookup_erase] at hsome
    split at hsome
    · simp at hsome
    · exact hsome

/-- **A new object without its entry is found and not listed.** -/
lemma Represents.not_listed (h : Represents o map past) (hpast : ∀ op ∈ past, op.Named)
    (htab : (Op.putObject req).TabFree) (ms now : UInt64)
    (hbucket : map[bucketMetaKey req.bucket]?.isSome)
    (hindex : map[bucketIndexKey req.bucket req.key]? = none)
    (hw : w.map = o.withMetadata req (objectIdAt req.bucket req.key ms) now map) : ¬ Listed w := by
  intro hlisted
  obtain ⟨hne, hb⟩ := (h.indexed hpast).buckets _ hbucket
  have hsame : ∀ {kind rest}, kind ≠ .objectMeta → kind ≠ .chunk →
      w.map[recordKey kind rest]? = map[recordKey kind rest]? := fun hmeta hchunk => by
    rw [hw]
    exact withMetadata_of_kind hmeta hchunk _ _ _
  have hbucket' : w.map[bucketMetaKey req.bucket]?.isSome := by
    rw [bucketMetaKey_eq] at hbucket ⊢
    rwa [hsame (by simp) (by simp)]
  have hfound : (objectAt w req.bucket req.key).found = true := by
    have hmeta : metadataOf w.map (objectName req.bucket req.key) =
        some (o.newMetadata req (objectIdAt req.bucket req.key ms) now) := by
      rw [hw, metadataOf_withMetadata htab, if_pos rfl]
    have hchunks : ∀ i < o.chunkCount req.data.length,
        w.map[chunkKey (objectIdAt req.bucket req.key ms) i]? = some (o.chunkValue req.data i) := by
      intro i hi
      rw [hw, ← o.withObject_chunk req _ now map hi, chunkKey_eq]
      exact (withObject_of_kind (by simp) _ _ _).symm
    rw [objectAt_found hmeta (by simp [ObjectStore.newMetadata]) hchunks]
  have hmem := (hlisted req.bucket hbucket' req.key req.key).mpr ⟨by simp, hfound⟩
  obtain ⟨e, he, hkey⟩ := List.mem_map.mp hmem
  obtain ⟨rest, hsome, hat⟩ := (mem_objects hne hbucket').mp he
  rw [bucketIndexKey_eq, hsame (by simp) (by simp), ← bucketIndexKey_eq] at hsome
  by_cases hname : objectName req.bucket (req.key ++ rest) = objectName req.bucket req.key
  · rw [bucketIndexKey_eq, hname, ← bucketIndexKey_eq, hindex] at hsome
    simp at hsome
  · -- the entry is one of an object that was there before
    rw [Object.entryAt, hw, metadataOf_withMetadata htab, if_neg hname] at hat
    have hkey' := ((h.indexed hpast).entryAt_key hb hat).1
    exact hname (by rw [← hkey', hkey])

end Parts

/-! ### Every cut of a run -/

/-- **The cut between the metadata and the entry of a new object.** -/
def Op.Between (o : ObjectStore) (j : Journal) (n : ℕ) : Op → Prop
  | putObject req => req.Accepted j.world ∧
      j.world.map[bucketIndexKey req.bucket req.key]? = none ∧
      n = j.issued.length + o.chunkCount req.data.length + 1
  | _ => False

instance Op.decidableBetween (j : Journal) (n : ℕ) : (op : Op) → Decidable (op.Between o j n)
  | .putObject _ => inferInstanceAs (Decidable (_ ∧ _ ∧ _))
  | .createBucket _ => isFalse id
  | .deleteObject _ _ => isFalse id
  | .garbageCollectChunks => isFalse id

/-- **The first `n` mutations of a run end in such a place.** -/
def Between (o : ObjectStore) : List Op → Journal → ℕ → Prop
  | [], _, _ => False
  | op :: ops, j, n => op.Between o j n ∨ Between o ops (exec journalService (op.prog o) j).2 n

instance decidableBetween : (ops : List Op) → (j : Journal) → (n : ℕ) → Decidable (Between o ops j n)
  | [], _, _ => isFalse id
  | op :: ops, j, n =>
    have := decidableBetween ops (exec journalService (op.prog o) j).2 n
    inferInstanceAs (Decidable (_ ∨ _))

section Cuts

variable {ids : List Bytes} {op : Op} {j t : Journal}

/-- A put of a new object is behind that place at its end. -/
lemma Op.Between.lt {n : ℕ} (h : op.Between o j n) :
    n < (exec journalService (op.prog o) j).2.issued.length := by
  cases op with
  | putObject req =>
    obtain ⟨hreq, -, hn⟩ := h
    have hlength := length_writeObject (o := o) req (req.objectId j.world) j.world.clock.tail.head
      j.afterChecks
    rw [Op.prog, exec_bind, exec_putObject_accepted hreq, exec_pure, hlength]
    simp only [Journal.afterChecks]
    omega
  | _ => exact h.elim

lemma Between.lt {ops : List Op} {n : ℕ} (h : Between o ops j n) (hj : j.Ok) : j.issued.length < n := by
  induction ops generalizing j with
  | nil => exact h.elim
  | cons op ops ih =>
    rcases h with h | h
    · cases op with
      | putObject req =>
        obtain ⟨-, -, hn⟩ := h
        omega
      | _ => exact h.elim
    · obtain ⟨hok, -, l, hl⟩ := journal_grows (Point.exec (op.prog o) j) hj
      have hlt := ih h hok
      rw [hl, List.length_append] at hlt
      omega

/-- **Every cut of a call but one leaves every object with its entry.** -/
lemma Op.cut (hrep : Represents o j.world.map past) (hpast : ∀ op ∈ past, op.Named)
    (hnames : NamesOnly j.world.map ids) (hnew : ∀ id ∈ op.newIds o j.world, id ∉ ids)
    (htab : op.TabFree) (hcolon : op.ColonFree)
    (ht : Point journalService (op.prog o) j t) :
    ¬ op.Between o j t.issued.length ∧ (∃ cat, Indexed o t.world.map cat) ∨
      op.Between o j t.issued.length ∧ ∀ v : KvWorld, v.map = t.world.map → ¬ Listed v := by
  cases op with
  | createBucket b =>
    refine Or.inl ⟨id, ?_⟩
    rcases point_createBucket (ht.extends extends_journal) with hmap | ⟨hb, value, hmap⟩
    · exact ⟨_, hmap ▸ hrep.indexed hpast⟩
    · exact ⟨_, hmap ▸ (hrep.createBucket b value).indexed
        (named_concat hpast (show (Op.createBucket b).Named from ⟨hb, hcolon⟩))⟩
  | deleteObject b k =>
    refine Or.inl ⟨id, ?_⟩
    rcases point_deleteObject (ht.of_bind_pure.extends extends_journal) with
      hmap | ⟨m, hm, hmap | hmap⟩
    · exact ⟨_, hmap ▸ hrep.indexed hpast⟩
    · exact ⟨_, hmap ▸ hrep.markedDeleted hpast hcolon hm _⟩
    · exact ⟨_, hmap ▸ (hrep.withoutObject hm _).indexed
        (named_concat hpast (show (Op.deleteObject b k).Named from hcolon))⟩
  | garbageCollectChunks =>
    have hcollect := hrep.collect
      (point_garbageCollectChunks (ht.of_bind_pure.extends extends_journal))
    exact Or.inl ⟨id, _, hcollect.indexed
      (named_concat hpast (show Op.garbageCollectChunks.Named from trivial))⟩
  | putObject req =>
    rcases point_putObject ht.of_bind_pure with hsame | ⟨hreq, hwrite⟩
    · obtain ⟨hmap, hlength⟩ := logged_eq hsame
      refine Or.inl ⟨fun ⟨_, _, hn⟩ => by omega, _, hmap ▸ hrep.indexed hpast⟩
    · have hid : req.objectId j.world ∈ (Op.putObject req).newIds o j.world := by
        simp [newIds_eq, Op.newReadings, hreq, PutObjectRequest.objectId, objectIdAt_eq, idOf]
      have hown := ownId_objectIdAt req.bucket req.key j.world.clock.head
      rcases point_writeObject hwrite with ⟨is, hmap, hlength⟩ | ⟨hmap, hlength⟩ | ⟨hmap, hlength⟩
      · -- in the chunks
        simp only [Journal.afterChecks] at hmap hlength
        refine Or.inl ⟨fun ⟨_, _, hn⟩ => by omega, catalogOf past, ?_⟩
        rw [hmap]
        refine (hrep.withChunks hown.ne_nil (fun name m hm e => hnew _ hid ?_) _ _).indexed hpast
        have hold := hnames name m hm
        rwa [e] at hold
      · -- behind the metadata
        simp only [Journal.afterChecks] at hmap hlength
        cases hindex : j.world.map[bucketIndexKey req.bucket req.key]? with
        | none =>
          refine Or.inr ⟨⟨hreq, hindex, hlength⟩, fun v hv => ?_⟩
          exact hrep.not_listed hpast htab _ _ hreq.2.2 hindex (hv.trans hmap)
        | some old =>
          refine Or.inl ⟨fun ⟨_, hnone, _⟩ => by simp [hindex] at hnone, ?_⟩
          rw [hmap]
          exact ⟨_, hrep.withMetadata hpast htab hcolon _ _ (by simp [hindex])⟩
      · -- behind the entry
        simp only [Journal.afterChecks] at hmap hlength
        refine Or.inl ⟨fun ⟨_, _, hn⟩ => by omega, ?_⟩
        rw [hmap]
        exact ⟨_, (hrep.withObject htab _ _).indexed
          (named_concat hpast (show (Op.putObject req).Named from hcolon))⟩

/-- An accepted call is on buckets with a name. -/
lemma Op.named_of_accepted (hcolon : op.ColonFree) (h : (op.perform o w).1 = true) : op.Named := by
  cases op with
  | createBucket b =>
    refine ⟨fun hb => ?_, hcolon⟩
    simp [Op.perform, Op.prog, exec_createBucket, hb] at h
  | _ => exact hcolon

lemma journalRun_grows (ops : List Op) (hj : j.Ok) :
    ∃ l, (journalRun o ops j).issued = j.issued ++ l := by
  induction ops generalizing j with
  | nil => exact ⟨[], by simp [journalRun]⟩
  | cons op ops ih =>
    obtain ⟨hok, -, l, hl⟩ := journal_grows (Point.exec (op.prog o) j) hj
    obtain ⟨l', hl'⟩ := ih hok
    exact ⟨l ++ l', by rw [journalRun, hl', hl, List.append_assoc]⟩

/-- **Every cut of a run.** -/
lemma listed_from {ops : List Op} {n : ℕ} {v : KvWorld} (hj : j.Ok)
    (hrep : Represents o j.world.map past) (hpast : ∀ op ∈ past, op.Named)
    (hnames : NamesOnly j.world.map ids) (hcolon : ∀ op ∈ ops, op.ColonFree)
    (htab : ∀ op ∈ ops, op.TabFree) (hfresh : (ids ++ objectIds o ops j.world).Nodup)
    (hn : j.issued.length ≤ n) (hn' : n ≤ (journalRun o ops j).issued.length)
    (hv : v.map = replay ((journalRun o ops j).issued.take n)) :
    Listed v ↔ ¬ Between o ops j n := by
  induction ops generalizing past ids j with
  | nil =>
    have hmap : v.map = j.world.map := by
      rw [hv, journalRun, List.take_of_length_le hn, hj.map]
    exact iff_of_true ((hmap ▸ hrep.indexed hpast : Indexed o v.map _).listed) id
  | cons op ops ih =>
    have hworld := (extends_journal.exec (op.prog o) j).2
    obtain ⟨hok, -⟩ := journal_grows (Point.exec (op.prog o) j) hj
    rw [objectIds, ← List.append_assoc] at hfresh
    have htab' := htab op (by simp)
    by_cases hcut : n ≤ (exec journalService (op.prog o) j).2.issued.length
    · -- the cut is in this call
      obtain ⟨l, hl⟩ := journalRun_grows ops hok
      obtain ⟨t, ht, hissued⟩ := journal_cut_issued (Point.exec (op.prog o) j) hj hn hcut
      obtain ⟨hokt, -⟩ := journal_grows ht hj
      have hmap : v.map = t.world.map := by
        rw [hv, hokt.map, hissued, journalRun, hl, List.take_append_of_le_length hcut]
      have hlength : t.issued.length = n := by
        rw [hissued, List.length_take, Nat.min_eq_left hcut]
      have hlater : ¬ Between o ops (exec journalService (op.prog o) j).2 n := fun h => by
        have := h.lt hok
        omega
      have hnew : ∀ id ∈ op.newIds o j.world, id ∉ ids := fun id hid hold =>
        (List.nodup_append.mp (List.nodup_append.mp hfresh).1).2.2 id hold id hid rfl
      rcases op.cut hrep hpast hnames hnew htab' (hcolon op (by simp)) ht with
        ⟨hbetween, cat, hcat⟩ | ⟨hbetween, hunlisted⟩
      · rw [hlength] at hbetween
        rw [← hmap] at hcat
        exact iff_of_true hcat.listed fun h => h.elim hbetween hlater
      · rw [hlength] at hbetween
        exact iff_of_false (hunlisted v hmap) fun h => h (Or.inl hbetween)
    · -- it is in a later one
      have hthis : ¬ op.Between o j n := fun h => hcut h.lt.le
      have hrest := ih hok (hworld ▸ hrep.perform htab') ?_ (hworld ▸ hnames.perform hrep htab')
        (fun x hx => hcolon x (by simp [hx])) (fun x hx => htab x (by simp [hx]))
        (hworld ▸ hfresh) (by omega) hn' hv
      · rw [hrest, Between, or_iff_right hthis]
      · intro x hx
        rcases List.mem_append.mp hx with hx | hx
        · exact hpast x hx
        · split at hx
          · next hok =>
            cases List.mem_singleton.mp hx
            exact Op.named_of_accepted (hcolon _ (by simp)) hok
          · simp at hx

end Cuts

/-- **Listings behind a crash.** A crash keeps a prefix of the mutations of a run. Then the listings of
all buckets show the objects that `GetObject` finds if and only if the prefix does not end between
the metadata and the entry of an object that has no entry yet. -/
theorem listed_iff (o : ObjectStore) (ops : List Op) (w : KvWorld) (hw : w.map = ∅)
    (hcolon : ∀ op ∈ ops, op.ColonFree) (htab : ∀ op ∈ ops, op.TabFree)
    (hfresh : (objectIds o ops w).Nodup) (n : ℕ)
    (hn : n ≤ (journalRun o ops ⟨w, [], 0⟩).issued.length) (v : KvWorld)
    (hv : v.map = replay ((journalRun o ops ⟨w, [], 0⟩).issued.take n)) :
    Listed v ↔ ¬ Between o ops ⟨w, [], 0⟩ n := by
  have hj : (⟨w, [], 0⟩ : Journal).Ok := ⟨hw, le_rfl⟩
  have hrep : Represents o w.map [] := by
    rw [hw]
    exact represents_empty o
  have hnames : NamesOnly w.map [] := by
    intro name m hm
    rw [hw] at hm
    simp [metadataOf] at hm
  exact listed_from hj hrep (by simp) hnames hcolon htab hfresh (Nat.zero_le n) hn hv

/-- An overwrite is cut between its metadata and its entry; the entry of the old object is there. -/
theorem listed_iff_overwrite :
    let w : KvWorld := { emptyWorld with clock := fun n => UInt64.ofNat n }
    let ops : List Op := [.createBucket (text "b"), .putObject (requestOf (text "a") (by decide)),
      .putObject (requestOf (text "z") (by decide))]
    let v : KvWorld := { w with
      map := replay ((journalRun smallStore ops ⟨w, [], 0⟩).issued.take 6) }
    Listed v := by
  intro w ops v
  have hiff := listed_iff smallStore ops w rfl (by simp [Op.ColonFree, ops, requestOf]; decide)
    (by simp [Op.TabFree, ops, requestOf]; decide) (by decide +kernel) 6 (by decide +kernel) v
    (by simp only [v])
  exact hiff.mpr (by decide +kernel)

/-- **A new object whose entry is lost is found and not listed.** -/
theorem listing_misses_object :
    let ops : List Op := [.createBucket (text "b"), .putObject (requestOf (text "a") (by decide))]
    let issued := (journalRun smallStore ops ⟨emptyWorld, [], 0⟩).issued
    let v : KvWorld := { emptyWorld with map := replay (issued.take 3) }
    (∀ op ∈ ops, op.ColonFree ∧ op.TabFree) ∧ (objectIds smallStore ops emptyWorld).Nodup ∧
      issued.length = 4 ∧ v.map[bucketMetaKey (text "b")]?.isSome ∧
      (objectAt v (text "b") (text "k")).found = true ∧
      (objectAt v (text "b") (text "k")).data = text "a" ∧
      (objectsIn v (text "b") []).ok = true ∧ (objectsIn v (text "b") []).objects = [] ∧
      ¬ Listed v := by
  intro ops issued v
  have hbucket : v.map[bucketMetaKey (text "b")]?.isSome := by decide +kernel
  have hfound : (objectAt v (text "b") (text "k")).found = true := by decide +kernel
  have hlist : (objectsIn v (text "b") []).objects = [] := by decide +kernel
  refine ⟨by simp [ops, Op.ColonFree, Op.TabFree, requestOf]; decide, by decide +kernel,
    by decide +kernel, hbucket, hfound, by decide +kernel, by decide +kernel, hlist, fun h => ?_⟩
  have hmem := (h (text "b") hbucket [] (text "k")).mpr ⟨by simp, hfound⟩
  simp [hlist] at hmem

end VeriStore.Object

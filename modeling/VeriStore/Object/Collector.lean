import VeriStore.Object.Catalog

/-!
Garbage collection of chunks.

`collection_safe`: in every state a run reaches, whatever colons the names have, a collection changes
no answer, counts what it deletes, leaves only chunks of committed objects, and finds nothing more to
delete when it is made again.
-/

namespace VeriStore.Object

open VeriStore.Lib VeriStore.Lib.Prog VeriStore.Store

variable {o : ObjectStore} {past : List Op} {w w' : KvWorld}

/-! ### Records that are no chunks -/

/-- The records of all kinds but chunks are the same. -/
def SameRecords (map map' : KvMap) : Prop :=
  ∀ kind rest, kind ≠ RecordKind.chunk → map'[recordKey kind rest]? = map[recordKey kind rest]?

lemma SameRecords.metadataOf {map map' : KvMap} (h : SameRecords map map') (name : Bytes) :
    metadataOf map' name = metadataOf map name := by
  unfold Object.metadataOf
  rw [h _ _ (by simp)]

lemma SameRecords.reachable {map map' : KvMap} (h : SameRecords map map') (id : Bytes) :
    Reachable map' id ↔ Reachable map id := by
  simp only [Reachable, h.metadataOf]

lemma SameRecords.garbage {map map' : KvMap} (h : SameRecords map map') (name : Bytes) :
    Garbage map' name ↔ Garbage map name := by
  simp only [Garbage, h.reachable]

/-- **A listing depends on these records only**, up to its order. -/
lemma SameRecords.listing (h : SameRecords w.map w'.map) (b start : Bytes) :
    (objectsIn w' b start).ok = (objectsIn w b start).ok ∧
      (objectsIn w' b start).error = (objectsIn w b start).error ∧
      (objectsIn w' b start).objects.Perm (objectsIn w b start).objects := by
  have hbucket : w'.map[bucketMetaKey b]? = w.map[bucketMetaKey b]? :=
    h .bucketMeta b (by simp)
  by_cases hmissing : b = [] ∨ w.map[bucketMetaKey b]? = none
  · obtain ⟨hok, hobj, herr⟩ := objectsIn_missing hmissing start
    obtain ⟨hok', hobj', herr'⟩ := objectsIn_missing (w := w') (by rwa [hbucket]) start
    rw [hok, hok', hobj, hobj', herr, herr']
    exact ⟨rfl, rfl, .refl _⟩
  · obtain ⟨hb, hw⟩ := not_or.mp hmissing
    have hsome : w.map[bucketMetaKey b]?.isSome := Option.isSome_iff_ne_none.mpr hw
    have hscan : (keysWith w'.map (bucketIndexKey b start)).Perm
        (keysWith w.map (bucketIndexKey b start)) := by
      refine (List.perm_ext_iff_of_nodup (nodup_keysWith _ _) (nodup_keysWith _ _)).mpr fun name => ?_
      simp only [mem_index_scan]
      simp only [bucketIndexKey_eq, h .bucketIndex _ (by simp)]
    have hentry : ∀ k, entryAt w'.map b k = entryAt w.map b k := fun k => by
      simp only [entryAt, h.metadataOf]
    rw [objectsIn_eq hb hsome, objectsIn_eq (w := w') hb (by rwa [hbucket])]
    refine ⟨rfl, rfl, ?_⟩
    simp only [hentry]
    exact (((w'.orders.head.perm _).trans hscan).trans (w.orders.head.perm _).symm).filterMap _

/-! ### A collection -/

section Collected

variable {r : ℕ × KvWorld}

lemma Collected.sameRecords (h : Collected w r) : SameRecords w.map r.2.map := fun _ _ hkind =>
  h.kept _ (not_garbage_of_kind hkind)

/-- No answer of `GetObject` changes. -/
lemma Collected.objectAt (h : Collected w r) (hrep : Represents o w.map past) (b k : Bytes) :
    objectAt r.2 b k = Object.objectAt w b k := by
  refine objectAt_congr ?_ fun m hm hs i _ => ?_
  · rw [objectMetaKey_eq]
    exact h.sameRecords _ _ (by simp)
  · have hplain := ((hrep.objects _).metadata hm).2
    exact h.kept _ (hrep.not_garbage hm (hplain.state.resolve_right hs) i)

/-- The chunks that are left belong to committed objects. -/
lemma Collected.reachable (h : Collected w r) (hrep : Represents o w.map past) {name : Bytes}
    (hname : name ∈ keysWith r.2.map (text "objchunk:")) :
    ∃ id i, name = chunkKey id i ∧ Reachable r.2.map id := by
  obtain ⟨⟨rest, rfl⟩, hsome⟩ := mem_keysWith.mp hname
  have hg : ¬ Garbage w.map (recordKey .chunk rest) := by
    intro hg
    have hnone : r.2.map[text "objchunk:" ++ rest]? = none := h.gone _ hg
    simp [hnone] at hsome
  have hbefore : w.map[recordKey .chunk rest]?.isSome := by
    rw [← h.kept _ hg]
    exact hsome
  obtain ⟨id, i, hid, hkey⟩ := hrep.chunks rest hbefore
  refine ⟨id, i, hkey, (h.sameRecords.reachable id).mpr ?_⟩
  by_contra hun
  refine hg ⟨⟨rest, rfl⟩, id, ?_, hun⟩
  rw [hkey, chunkOwner_chunkKey hid]

/-- A second collection finds nothing. -/
lemma Collected.again (h : Collected w r) {r' : ℕ × KvWorld} (h' : Collected r.2 r') :
    r'.1 = 0 ∧ r'.2.map = r.2.map := by
  have hsame : ∀ name : Bytes, r'.2.map[name]? = r.2.map[name]? := by
    intro name
    by_cases hg : Garbage r.2.map name
    · rw [h'.gone name hg, h.gone name ((h.sameRecords.garbage name).mp hg)]
    · exact h'.kept name hg
  constructor
  · rw [h'.count, List.length_eq_zero_iff, List.filter_eq_nil_iff]
    intro name hname
    have hsome := (mem_keysWith.mp hname).2
    rw [hsame name]
    simpa using Option.isSome_iff_ne_none.mp hsome
  · exact Std.ExtTreeMap.ext_getElem? hsame

end Collected

/-- **A collection is safe and complete.** -/
theorem collection_safe (o : ObjectStore) (ops : List Op) (w : KvWorld) (hw : w.map = ∅)
    (htab : ∀ op ∈ ops, op.TabFree) :
    let before := run o ops w
    let r := exec kvService garbageCollectChunks before
    let again := exec kvService garbageCollectChunks r.2
    (∀ b k, objectAt r.2 b k = objectAt before b k) ∧
    (∀ b start, (objectsIn r.2 b start).ok = (objectsIn before b start).ok ∧
      (objectsIn r.2 b start).error = (objectsIn before b start).error ∧
      (objectsIn r.2 b start).objects.Perm (objectsIn before b start).objects) ∧
    r.1 = ((keysWith before.map (text "objchunk:")).filter fun c => r.2.map[c]?.isNone).length ∧
    (∀ c ∈ keysWith r.2.map (text "objchunk:"),
      ∃ id i, c = chunkKey id i ∧ Reachable r.2.map id) ∧
    again.1 = 0 ∧ again.2.map = r.2.map := by
  intro before r again
  have hrep : Represents o before.map (accepted o ops w) := represents_run hw htab
  have hc : Collected before r := exec_garbageCollectChunks before
  exact ⟨hc.objectAt hrep, hc.sameRecords.listing, hc.count, fun c hname => hc.reachable hrep hname,
    hc.again (exec_garbageCollectChunks r.2)⟩

/-- A name with colons: the two chunks of the object that was overwritten go. -/
theorem collection_safe_colons :
    let req (data : Bytes) (h : data.length < 2 ^ 64) : PutObjectRequest :=
      { bucket := text "a:b", key := text "c:1", data := data, size_lt := h }
    let w : KvWorld := { emptyWorld with clock := fun n => UInt64.ofNat n }
    let before := run smallStore [.createBucket (text "a:b"),
      .putObject (req (text "old") (by decide)), .putObject (req (text "new") (by decide))] w
    let r := exec kvService garbageCollectChunks before
    (exec kvService garbageCollectChunks r.2).1 = 0 ∧ r.1 = 2 := by
  intro req w before r
  have h := collection_safe smallStore [.createBucket (text "a:b"),
    .putObject (req (text "old") (by decide)), .putObject (req (text "new") (by decide))] w rfl
    (by simp [Op.TabFree, req]; decide)
  exact ⟨h.2.2.2.2.1, by decide +kernel⟩

end VeriStore.Object

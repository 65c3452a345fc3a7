import VeriStore.Object.Catalog

/-!
Fresh ids.

An id is a name with a reading of the clock (`readings`), so that the ids of a run (`objectIds`) are
different exactly when no two puts of one name read the same millisecond. Then no chunk that is
written belongs to an object that is there (`ids_fresh_iff`). A clock that shows the same millisecond
twice breaks both (`ids_repeat`).
-/

namespace VeriStore.Object

open VeriStore.Lib VeriStore.Lib.Prog VeriStore.Store

variable {o : ObjectStore}

/-! ### Ids of a run -/

/-- The id a call gives out. -/
def Op.newIds (o : ObjectStore) (op : Op) (w : KvWorld) : List Bytes :=
  match op with
  | .putObject req =>
    let r := (exec kvService (o.putObject req) w).1
    if r.ok then [r.objectId] else []
  | _ => []

/-- **The ids a run gives out**, in order. -/
def objectIds (o : ObjectStore) : List Op → KvWorld → List Bytes
  | [], _ => []
  | op :: ops, w => op.newIds o w ++ objectIds o ops (op.perform o w).2

/-- The name an id is made for and the millisecond the call reads first. -/
def Op.newReadings (op : Op) (w : KvWorld) : List (Bytes × UInt64) :=
  match op with
  | .putObject req =>
    if req.Accepted w then [(objectName req.bucket req.key, w.clock.head)] else []
  | _ => []

/-- **The names put by a run, and when.** -/
def readings (o : ObjectStore) : List Op → KvWorld → List (Bytes × UInt64)
  | [], _ => []
  | op :: ops, w => op.newReadings w ++ readings o ops (op.perform o w).2

/-- The id of a name and a millisecond. -/
def idOf (r : Bytes × UInt64) : Bytes := r.1 ++ colon :: decimal r.2.toNat

lemma idOf_injective : Function.Injective idOf := by
  rintro ⟨name, ms⟩ ⟨name', ms'⟩ h
  obtain ⟨h1, h2⟩ := append_cons_inj_last (colon_notMem_decimal _) (colon_notMem_decimal _) h
  exact Prod.ext h1 (UInt64.toNat_inj.mp (decimal_injective h2))

lemma newIds_eq (op : Op) (w : KvWorld) : op.newIds o w = (op.newReadings w).map idOf := by
  cases op with
  | putObject req =>
    obtain ⟨haccepted, hrefused⟩ := exec_putObject o req w
    unfold Op.newIds Op.newReadings
    by_cases hreq : req.Accepted w
    · simp [haccepted hreq, hreq, ObjectStore.putAnswer, PutObjectRequest.objectId, objectIdAt_eq,
        idOf]
    · simp [(hrefused hreq).1, hreq]
  | _ => rfl

lemma objectIds_eq (ops : List Op) (w : KvWorld) :
    objectIds o ops w = (readings o ops w).map idOf := by
  induction ops generalizing w with
  | nil => rfl
  | cons op ops ih => rw [objectIds, readings, List.map_append, newIds_eq, ih]

/-! ### The ids that metadata names -/

/-- All metadata names one of these ids. -/
def NamesOnly (map : KvMap) (ids : List Bytes) : Prop :=
  ∀ name m, metadataOf map name = some m → m.objectId ∈ ids

lemma metadataOf_withObject {req : PutObjectRequest} (htab : (Op.putObject req).TabFree)
    (ms now : UInt64) (map : KvMap) (name : Bytes) :
    metadataOf (o.withObject req (objectIdAt req.bucket req.key ms) now map) name =
      if name = objectName req.bucket req.key then
        some (o.newMetadata req (objectIdAt req.bucket req.key ms) now)
      else metadataOf map name := by
  unfold metadataOf
  split
  · next h =>
    rw [h, ← objectMetaKey_eq, o.withObject_meta, Option.bind_some,
      deserializeMetadata_serializeMetadata (o.newMetadata_plain req htab ms now)]
  · next h =>
    rw [o.withObject_of_ne _ _ _ _ (by simpa [objectMetaKey_eq] using h)
      (by simp [bucketIndexKey_eq]) (by simp [chunkKey_eq])]

/-- **One call** adds its own id. -/
lemma NamesOnly.perform {past : List Op} {w : KvWorld} {ids : List Bytes} {op : Op}
    (h : NamesOnly w.map ids) (hrep : Represents o w.map past) (htab : op.TabFree) :
    NamesOnly (op.perform o w).2.map (ids ++ op.newIds o w) := by
  intro name m hm
  rw [newIds_eq, List.mem_append]
  cases op with
  | createBucket b =>
    refine Or.inl (h name m ?_)
    simp only [Op.perform, Op.prog, exec_createBucket] at hm
    split at hm
    · exact hm
    · split at hm
      · exact hm
      · simp only [metadataOf] at hm
        rwa [lookup_insert, if_neg (by simp [bucketMetaKey_eq])] at hm
  | putObject req =>
    obtain ⟨haccepted, hrefused⟩ := exec_putObject o req w
    by_cases hreq : req.Accepted w
    · simp only [Op.perform, Op.prog, exec_bind, exec_pure, haccepted hreq,
        PutObjectRequest.objectId, metadataOf_withObject htab] at hm
      split at hm
      · next hname =>
        cases hm
        simp [Op.newReadings, hreq, idOf, ObjectStore.newMetadata, objectIdAt_eq]
      · exact Or.inl (h name m hm)
    · simp only [Op.perform, Op.prog, exec_bind, exec_pure, (hrefused hreq).2] at hm
      exact Or.inl (h name m hm)
  | deleteObject b k =>
    obtain ⟨hdeleted, hmissing⟩ := exec_deleteObject b k w
    refine Or.inl ?_
    cases hm' : metadataOf w.map (objectName b k) with
    | none =>
      simp only [Op.perform, Op.prog, exec_bind, exec_pure, (hmissing hm').2] at hm
      exact h name m hm
    | some m' =>
      simp only [Op.perform, Op.prog, exec_bind, exec_pure, hdeleted m' hm'] at hm
      by_cases hname : name = objectName b k
      · subst hname
        rw [metadataOf_withoutObject ((hrep.objects _).metadata hm').2] at hm
        cases hm
        exact h _ m' hm'
      · refine h name m ?_
        rwa [metadataOf, withoutObject_of_ne _ _ _ (by simpa [objectMetaKey_eq] using hname)
          (by simp [bucketIndexKey_eq])] at hm
  | garbageCollectChunks =>
    refine Or.inl (h name m ?_)
    simp only [Op.perform, Op.prog, exec_bind, exec_pure] at hm
    rwa [metadataOf, (exec_garbageCollectChunks w).kept _ (not_garbage_of_kind (by simp))] at hm

/-! ### Chunks that are written -/

/-- The chunks a call writes are none that committed metadata refers to. -/
def Op.Untouching (o : ObjectStore) (op : Op) (w : KvWorld) : Prop :=
  match op with
  | .putObject req => req.Accepted w → ∀ i < o.chunkCount req.data.length, ∀ name m,
      metadataOf w.map name = some m → m.state = .committed → ∀ j < m.chunkCount,
        chunkKey (req.objectId w) i ≠ chunkKey m.objectId j
  | _ => True

/-- No call of the run writes a chunk of an object that is there. -/
def Untouched (o : ObjectStore) : List Op → KvWorld → Prop
  | [], _ => True
  | op :: ops, w => op.Untouching o w ∧ Untouched o ops (op.perform o w).2

lemma untouching_of_notMem {w : KvWorld} {ids : List Bytes} {op : Op} (h : NamesOnly w.map ids)
    (hnew : ∀ id ∈ op.newIds o w, id ∉ ids) : op.Untouching o w := by
  cases op with
  | putObject req =>
    intro hreq i _ name m hm _ j _ he
    have hid : req.objectId w ∈ (Op.putObject req).newIds o w := by
      simp [newIds_eq, Op.newReadings, hreq, PutObjectRequest.objectId, objectIdAt_eq, idOf]
    refine hnew _ hid ?_
    rw [(chunkKey_inj.mp he).1]
    exact h name m hm
  | _ => trivial

/-- **Different ids keep the chunks of the objects untouched**, along a whole run. -/
lemma untouched_of_nodup {past : List Op} {ops : List Op} {w : KvWorld} {ids : List Bytes}
    (hnames : NamesOnly w.map ids) (hrep : Represents o w.map past)
    (htab : ∀ op ∈ ops, op.TabFree) (hnodup : (ids ++ objectIds o ops w).Nodup) :
    Untouched o ops w := by
  induction ops generalizing past w ids with
  | nil => trivial
  | cons op ops ih =>
    rw [objectIds, ← List.append_assoc] at hnodup
    refine ⟨untouching_of_notMem hnames fun id hid hold => ?_, ?_⟩
    · exact (List.nodup_append.mp (List.nodup_append.mp hnodup).1).2.2 id hold id hid rfl
    · exact ih (hnames.perform hrep (htab op (by simp))) (hrep.perform (htab op (by simp)))
        (fun op' h' => htab op' (by simp [h'])) hnodup

/-- **When ids are fresh.** In every run the ids are all different and no chunk of a committed object
is written again if and only if no two puts of one name read the same millisecond. -/
theorem ids_fresh_iff (o : ObjectStore) (ops : List Op) (w : KvWorld) (hw : w.map = ∅)
    (htab : ∀ op ∈ ops, op.TabFree) :
    (objectIds o ops w).Nodup ∧ Untouched o ops w ↔ (readings o ops w).Nodup := by
  constructor
  · rintro ⟨hnodup, -⟩
    rw [objectIds_eq] at hnodup
    exact hnodup.of_map
  · intro hnodup
    have hids : (objectIds o ops w).Nodup := by
      rw [objectIds_eq]
      exact hnodup.map idOf_injective
    have hnames : NamesOnly w.map [] := by
      intro name m hm
      rw [hw] at hm
      simp [metadataOf] at hm
    have hrep : Represents o w.map [] := by
      rw [hw]
      exact represents_empty o
    exact ⟨hids, untouched_of_nodup hnames hrep htab hids⟩

/-- Two names put in one millisecond. -/
theorem ids_fresh_iff_two :
    let ops : List Op := [.createBucket (text "b"),
      .putObject (requestOf (text "first") (by decide)),
      .putObject { requestOf (text "first") (by decide) with key := text "l" }]
    (objectIds smallStore ops emptyWorld).Nodup ∧ Untouched smallStore ops emptyWorld :=
  (ids_fresh_iff smallStore _ emptyWorld rfl (by simp [Op.TabFree, requestOf]; decide)).mpr
    (by decide +kernel)

/-- **An object that is overwritten in the same millisecond gets the same id**, and its first chunk is
written over. -/
theorem ids_repeat :
    let ops : List Op := [.createBucket (text "b"),
      .putObject (requestOf (text "first") (by decide)),
      .putObject (requestOf (text "new") (by decide))]
    (∀ n, emptyWorld.clock n ≤ emptyWorld.clock (n + 1)) ∧
      ¬ (objectIds smallStore ops emptyWorld).Nodup ∧ ¬ Untouched smallStore ops emptyWorld := by
  intro ops
  refine ⟨fun n => UInt64.le_refl _, by decide +kernel, fun h => ?_⟩
  let m := smallStore.newMetadata (requestOf (text "first") (by decide))
    (objectIdAt (text "b") (text "k") 0) 0
  exact h.2.2.1 (by decide +kernel) 0 (by decide) (objectName (text "b") (text "k")) m
    (by decide +kernel) rfl 0 (by decide) (by decide +kernel)

end VeriStore.Object

import VeriStore.Lib.Threads
import VeriStore.Object.Beside
import VeriStore.Object.Isolation

/-!
Operations on the object store at the same time.

Any number of threads create buckets and put, read and delete objects, each call to the key-value
store being one step (`Pool`). The store has no lock of its own. As long as no two puts make the same
id, the operations can nevertheless be put in one order (`Alone`): an operation takes effect at one
of its calls, a put or a delete when it writes the metadata and a read when it reads the metadata.
The chunks that a read still needs then stay as they are, since every put writes under an id of its
own.

* `At` — where an operation is, and whether its answer is settled;
* `Shows` — the records in a state as buckets and objects;
* `objects_linearizable` — the operations of every run can be put in order.
-/

namespace VeriStore.Object

open VeriStore.Lib VeriStore.Lib.Prog VeriStore.Store

/-! ### Operations -/

inductive Request where
  | createBucket (bucket : Bytes)
  | bucketExists (bucket : Bytes)
  | putObject (req : PutObjectRequest)
  | getObject (bucket key : Bytes)
  | deleteObject (bucket key : Bytes)

inductive Answer where
  | flag (b : Bool)
  | put (r : PutObjectResult)
  | got (r : GetObjectResult)
  | deleted (r : DeleteObjectResult)
deriving DecidableEq

namespace Request

def prog (o : ObjectStore) : Request → Kv Answer
  | createBucket b => do
    let r ← Object.createBucket b
    pure (.flag r)
  | bucketExists b => do
    let r ← Object.bucketExists b
    pure (.flag r)
  | putObject req => do
    let r ← o.putObject req
    pure (.put r)
  | getObject b k => do
    let r ← Object.getObject b k
    pure (.got r)
  | deleteObject b k => do
    let r ← Object.deleteObject b k
    pure (.deleted r)

/-- What is put has no tabs in its names and fewer than `2 ^ 32` chunks. -/
def Admitted (o : ObjectStore) : Request → Prop
  | putObject req => (Op.putObject req).TabFree ∧ (Op.putObject req).Fits o
  | _ => True

end Request

/-- The operations that have begun on the store. -/
abbrev ObjectPool := Pool Request KvCall KvAnswer Answer KvWorld

/-- The reading of the clock that a call is, if the operation made it. -/
def stamp (i : ℕ) : ℕ × (c : KvCall) × KvAnswer c → Option UInt64
  | (j, ⟨.nowEpochMs, ms⟩) => if j = i then some ms else none
  | _ => none

/-- The first time an operation read from the clock. -/
def reading (x : ObjectPool) (i : ℕ) : Option UInt64 := x.made.findSome? (stamp i)

/-- The id a put has made. -/
def madeId (x : ObjectPool) (i : ℕ) : Option Bytes :=
  match x.ops[i]? with
  | some (.putObject req, _) => (reading x i).map (objectIdAt req.bucket req.key)
  | _ => none

/-- **No two puts made the same id.** -/
def FreshIds (x : ObjectPool) : Prop :=
  ∀ i < x.ops.length, ∀ j < x.ops.length, madeId x i = madeId x j → madeId x i = none ∨ i = j

/-! ### One operation alone -/

/-- What is stored under a name. -/
inductive Slot where
  | absent
  | deleted
  | live (metadata : ObjectMetadata) (data : Bytes)

/-- Buckets and objects. -/
structure Inventory where
  buckets : Set Bytes
  objects : Bytes → Slot

def Inventory.empty : Inventory := ⟨∅, fun _ => .absent⟩

def Inventory.create (s : Inventory) (b : Bytes) : Inventory := { s with buckets := insert b s.buckets }

def Inventory.set (s : Inventory) (name : Bytes) (slot : Slot) : Inventory :=
  { s with objects := Function.update s.objects name slot }

/-- What is read from a slot. -/
def Slot.answer : Slot → GetObjectResult
  | absent => { error := text "object metadata not found" }
  | deleted => { error := text "object is deleted" }
  | live m data => { found := true, metadata := m, data := data }

/-- **An operation that is alone**: its answer and the contents behind it. A put may read anything
from the clock. -/
inductive Alone (o : ObjectStore) : Request → Inventory → Answer → Inventory → Prop
  | createEmpty (s : Inventory) : Alone o (.createBucket []) s (.flag false) s
  | create (s : Inventory) {b : Bytes} (hb : b ≠ []) :
      Alone o (.createBucket b) s (.flag true) (s.create b)
  | exists (s : Inventory) (b : Bytes) (r : Bool) (hr : r = true ↔ b ≠ [] ∧ b ∈ s.buckets) :
      Alone o (.bucketExists b) s (.flag r) s
  | putEmptyBucket (s : Inventory) {req : PutObjectRequest} (hb : req.bucket = []) :
      Alone o (.putObject req) s (.put { error := text "bucket is empty" }) s
  | putEmptyKey (s : Inventory) {req : PutObjectRequest} (hb : req.bucket ≠ []) (hk : req.key = []) :
      Alone o (.putObject req) s (.put { error := text "object key is empty" }) s
  | putNoBucket (s : Inventory) {req : PutObjectRequest} (hb : req.bucket ≠ []) (hk : req.key ≠ [])
      (hs : req.bucket ∉ s.buckets) :
      Alone o (.putObject req) s (.put { error := text "bucket does not exist" }) s
  | put (s : Inventory) {req : PutObjectRequest} (hb : req.bucket ≠ []) (hk : req.key ≠ [])
      (hs : req.bucket ∈ s.buckets) (ms now : UInt64) :
      Alone o (.putObject req) s (.put (o.putAnswer req (objectIdAt req.bucket req.key ms)))
        (s.set (objectName req.bucket req.key)
          (.live (o.newMetadata req (objectIdAt req.bucket req.key ms) now) req.data))
  | get (s : Inventory) (b k : Bytes) :
      Alone o (.getObject b k) s (.got (s.objects (objectName b k)).answer) s
  | deleteMissing (s : Inventory) {b k : Bytes} (hs : s.objects (objectName b k) = .absent) :
      Alone o (.deleteObject b k) s (.deleted { error := text "object metadata not found" }) s
  | delete (s : Inventory) {b k : Bytes} (hs : s.objects (objectName b k) ≠ .absent) :
      Alone o (.deleteObject b k) s (.deleted { ok := true })
        (s.set (objectName b k) .deleted)

/-! ### Ids -/

section Ids

variable {x : ObjectPool} {i j : ℕ} {q : Request} {c : KvCall} {k : KvAnswer c → Kv Answer}

lemma stamp_of_ne (hij : j ≠ i) (r : (c : KvCall) × KvAnswer c) : stamp j (i, r) = none := by
  obtain ⟨c, r⟩ := r
  cases c with
  | nowEpochMs => exact if_neg hij.symm
  | _ => rfl

lemma reading_call (j : ℕ) : reading (x.call kvService i q c k) j =
    (reading x j).or (stamp j (i, ⟨c, (kvService c x.state).1⟩)) := by
  simp [reading, Pool.call, List.findSome?_append]

lemma reading_call_of_ne (hij : j ≠ i) :
    reading (x.call kvService i q c k) j = reading x j := by
  rw [reading_call, stamp_of_ne hij, Option.or_none]

lemma reading_call_of_some {ms : UInt64} (h : reading x j = some ms) :
    reading (x.call kvService i q c k) j = some ms := by
  rw [reading_call, h, Option.some_or]

lemma madeId_of_put {req : PutObjectRequest} {p : Kv Answer} {ms : UInt64}
    (hx : x.ops[i]? = some (.putObject req, p)) (h : reading x i = some ms) :
    madeId x i = some (objectIdAt req.bucket req.key ms) := by
  simp [madeId, hx, h]

lemma lt_of_madeId {id : Bytes} (h : madeId x i = some id) : i < x.ops.length := by
  by_contra hge
  simp [madeId, List.getElem?_eq_none (not_lt.mp hge)] at h

/-- **Fresh ids**: an id tells the put that made it. -/
lemma FreshIds.inj (h : FreshIds x) {id : Bytes} (hi : madeId x i = some id)
    (hj : madeId x j = some id) : i = j := by
  rcases h i (lt_of_madeId hi) j (lt_of_madeId hj) (hi.trans hj.symm) with hnone | hij
  · rw [hi] at hnone
    cases hnone
  · exact hij

end Ids

/-! ### Where an operation is -/

/-- **An object whose chunks stay**: they are all there, and the put that made the id has written its
metadata. -/
structure Sealed (o : ObjectStore) (x : ObjectPool) (out : ℕ → Option Answer) (m : ObjectMetadata)
    (data : Bytes) : Prop where
  owner : ∃ j, madeId x j = some m.objectId ∧ out j ≠ none
  count : m.chunkCount = o.chunkCount data.length
  fits : data.length ≤ (2 ^ 32 - 1) * o.chunkSizeBytes
  chunks : ∀ i < m.chunkCount, x.state.map[chunkKey m.objectId i]? = some (o.chunkValue data i)

/-- A read behind the metadata. -/
def readData (m : ObjectMetadata) (indices : List ℕ) (acc : Bytes) : Kv GetObjectResult := do
  match ← readChunks m.objectId indices acc with
  | .error e => pure { error := e, metadata := m }
  | .ok data => pure { found := true, metadata := m, data := data }

/-- A put behind its first chunks. -/
def writeRest (o : ObjectStore) (req : PutObjectRequest) (id : Bytes) (now : UInt64) (n : ℕ) :
    Kv PutObjectResult := do
  o.writeChunks id req.data (List.range' n (o.chunkCount req.data.length - n))
  writeMetadata o req id now

/-- A put behind its records. -/
def flushObject (o : ObjectStore) (req : PutObjectRequest) (id : Bytes) : Kv PutObjectResult := do
  let flushed ← Kv.flushWal
  if !flushed then pure { error := text "failed to flush WAL" } else pure (o.putAnswer req id)

/-- A delete behind the record of the object. -/
def deleteIndex (b k : Bytes) : Kv DeleteObjectResult := do
  let _ ← Kv.del (bucketIndexKey b k)
  let flushed ← Kv.flushWal
  if !flushed then pure { error := text "failed to flush WAL" } else pure { ok := true }

/-- A delete behind its records. -/
def flushDelete : Kv DeleteObjectResult := do
  let flushed ← Kv.flushWal
  if !flushed then pure { error := text "failed to flush WAL" } else pure { ok := true }

/-- A delete behind its look at the record. -/
def markDeleted (b k : Bytes) (m : ObjectMetadata) (now : UInt64) : Kv DeleteObjectResult := do
  Kv.put (objectMetaKey b k)
    (serializeMetadata { m with state := .deleted, updatedAt := now.toNat })
  deleteIndex b k

/-- **Where an operation is.** A put has read from the clock from `named` on, and a read has read the
metadata from `reading` on. -/
inductive At (o : ObjectStore) (x : ObjectPool) (out : ℕ → Option Answer) (i : ℕ) :
    Request → Kv Answer → Prop
  | ended (q : Request) (a : Answer) (h : out i = some a) : At o x out i q (.ret a)
  | start (q : Request) (hcall : ∀ a, q.prog o ≠ .ret a) (h : out i = none)
      (hread : reading x i = none) : At o x out i q (q.prog o)
  | creating (b : Bytes) (hb : b ≠ []) (h : out i = none) : At o x out i (.createBucket b) (do
      let now ← Kv.nowEpochMs
      Kv.put (bucketMetaKey b) (serializeBucketMeta b now.toNat)
      pure (.flag true))
  | created (b value : Bytes) (hb : b ≠ []) (h : out i = none) : At o x out i (.createBucket b) (do
      Kv.put (bucketMetaKey b) value
      pure (.flag true))
  | known (req : PutObjectRequest) (hb : req.bucket ≠ []) (hk : req.key ≠ [])
      (hs : x.state.map[bucketMetaKey req.bucket]?.isSome) (h : out i = none)
      (hread : reading x i = none) : At o x out i (.putObject req) (do
        let _existing ← Kv.get (objectMetaKey req.bucket req.key)
        let objectId ← makeObjectId req.bucket req.key
        let now ← Kv.nowEpochMs
        let r ← o.writeObject req objectId now
        pure (.put r))
  | checked (req : PutObjectRequest) (hb : req.bucket ≠ []) (hk : req.key ≠ [])
      (hs : x.state.map[bucketMetaKey req.bucket]?.isSome) (h : out i = none)
      (hread : reading x i = none) : At o x out i (.putObject req) (do
        let objectId ← makeObjectId req.bucket req.key
        let now ← Kv.nowEpochMs
        let r ← o.writeObject req objectId now
        pure (.put r))
  | named (req : PutObjectRequest) (ms : UInt64) (hb : req.bucket ≠ []) (hk : req.key ≠ [])
      (hs : x.state.map[bucketMetaKey req.bucket]?.isSome) (h : out i = none)
      (hread : reading x i = some ms) : At o x out i (.putObject req) (do
        let now ← Kv.nowEpochMs
        let r ← o.writeObject req (objectIdAt req.bucket req.key ms) now
        pure (.put r))
  | chunks (req : PutObjectRequest) (ms now : UInt64) (n : ℕ) (hb : req.bucket ≠ [])
      (hk : req.key ≠ []) (hs : x.state.map[bucketMetaKey req.bucket]?.isSome) (h : out i = none)
      (hread : reading x i = some ms) (hn : n ≤ o.chunkCount req.data.length)
      (hchunks : ∀ j < n, x.state.map[chunkKey (objectIdAt req.bucket req.key ms) j]? =
        some (o.chunkValue req.data j)) : At o x out i (.putObject req) (do
          let r ← writeRest o req (objectIdAt req.bucket req.key ms) now n
          pure (.put r))
  | index (req : PutObjectRequest) (id : Bytes) (h : out i = some (.put (o.putAnswer req id))) :
      At o x out i (.putObject req) (do
        let r ← writeIndex o req id
        pure (.put r))
  | flush (req : PutObjectRequest) (id : Bytes) (h : out i = some (.put (o.putAnswer req id))) :
      At o x out i (.putObject req) (do
        let r ← flushObject o req id
        pure (.put r))
  | reading (b k : Bytes) (m : ObjectMetadata) (data : Bytes) (n : ℕ)
      (h : out i = some (.got { found := true, metadata := m, data := data }))
      (hm : Sealed o x out m data) (hn : n ≤ m.chunkCount) : At o x out i (.getObject b k) (do
        let r ← readData m (List.range' n (m.chunkCount - n))
          ((List.range n).flatMap (o.chunkValue data))
        pure (.got r))
  | marking (b k : Bytes) (m : ObjectMetadata) (hread : ∃ raw, deserializeMetadata raw = some m)
      (hs : x.state.map[objectMetaKey b k]?.isSome) (h : out i = none) :
      At o x out i (.deleteObject b k) (do
        let now ← Kv.nowEpochMs
        let r ← markDeleted b k m now
        pure (.deleted r))
  | marked (b k : Bytes) (m : ObjectMetadata) (now : UInt64)
      (hread : ∃ raw, deserializeMetadata raw = some m)
      (hs : x.state.map[objectMetaKey b k]?.isSome) (h : out i = none) :
      At o x out i (.deleteObject b k) (do
        let r ← markDeleted b k m now
        pure (.deleted r))
  | unlisting (b k : Bytes) (h : out i = some (.deleted { ok := true })) :
      At o x out i (.deleteObject b k) (do
        let r ← deleteIndex b k
        pure (.deleted r))
  | unlisted (b k : Bytes) (h : out i = some (.deleted { ok := true })) :
      At o x out i (.deleteObject b k) (do
        let r ← flushDelete
        pure (.deleted r))

/-- What a slot is in the records. -/
inductive InSlot (o : ObjectStore) (x : ObjectPool) (out : ℕ → Option Answer) (name : Bytes) :
    Slot → Prop
  | absent (h : x.state.map[recordKey .objectMeta name]? = none) : InSlot o x out name .absent
  | deleted (m : ObjectMetadata) (hm : metadataOf x.state.map name = some m)
      (hs : m.state = .deleted) : InSlot o x out name .deleted
  | live (m : ObjectMetadata) (data : Bytes) (hm : metadataOf x.state.map name = some m)
      (hs : m.state ≠ .deleted) (hset : Sealed o x out m data) : InSlot o x out name (.live m data)

/-- **The records show the contents.** -/
structure Shows (o : ObjectStore) (x : ObjectPool) (out : ℕ → Option Answer) (s : Inventory) :
    Prop where
  buckets : ∀ b, b ∈ s.buckets ↔ x.state.map[bucketMetaKey b]?.isSome
  objects : ∀ name, InSlot o x out name (s.objects name)

/-- The invariant of a run. -/
structure Concurrent (o : ObjectStore) (x : ObjectPool) (out : ℕ → Option Answer) (s : Inventory) :
    Prop where
  shows : Shows o x out s
  places : ∀ i q p, x.ops[i]? = some (q, p) → At o x out i q p
  unread : ∀ i, x.ops.length ≤ i → reading x i = none
  unsettled : ∀ i, x.ops.length ≤ i → out i = none

/-! ### What an operation spares the others -/

/-- **A move of the operation `i`**: no record of a bucket or of an object is taken away, and the
chunks that are written have an id that the operation has made and not yet committed. -/
structure Spares (x x' : ObjectPool) (i : ℕ) (out out' : ℕ → Option Answer) : Prop where
  ops : ∀ j ≠ i, x'.ops[j]? = x.ops[j]?
  answers : ∀ j ≠ i, out' j = out j
  settled : out i ≠ none → out' i = out i
  readings : ∀ j ≠ i, reading x' j = reading x j
  made : ∀ j id, madeId x j = some id → madeId x' j = some id
  buckets : ∀ b, x.state.map[bucketMetaKey b]?.isSome → x'.state.map[bucketMetaKey b]?.isSome
  objects : ∀ name, x.state.map[recordKey .objectMeta name]?.isSome →
    x'.state.map[recordKey .objectMeta name]?.isSome
  chunks : ∀ id n, x'.state.map[chunkKey id n]? = x.state.map[chunkKey id n]? ∨
    (madeId x i = some id ∧ out i = none)

section Spares

variable {o : ObjectStore} {x x' : ObjectPool} {i j : ℕ} {out out' : ℕ → Option Answer}
  {q : Request} {p : Kv Answer} {m : ObjectMetadata} {data : Bytes}

lemma Sealed.spared (h : Sealed o x out m data) (hm : Spares x x' i out out')
    (hfresh : FreshIds x) : Sealed o x' out' m data := by
  obtain ⟨j, hj, hout⟩ := h.owner
  refine ⟨⟨j, hm.made j _ hj, ?_⟩, h.count, h.fits, fun n hn => ?_⟩
  · by_cases hij : j = i
    · subst hij
      rwa [hm.settled hout]
    · rwa [hm.answers j hij]
  · rcases hm.chunks m.objectId n with he | ⟨hi, hnone⟩
    · exact he.trans (h.chunks n hn)
    · rw [hfresh.inj hj hi] at hout
      exact absurd hnone hout

/-- **The others stay where they are.** -/
lemma At.spared (h : At o x out j q p) (hx : x.ops[j]? = some (q, p)) (hij : j ≠ i)
    (hm : Spares x x' i out out') (hfresh : FreshIds x) : At o x' out' j q p := by
  have ho := hm.answers j hij
  have hr := hm.readings j hij
  cases h with
  | ended q a h => exact .ended q a (ho.trans h)
  | start q hcall h hread => exact .start q hcall (ho.trans h) (hr.trans hread)
  | creating b hb h => exact .creating b hb (ho.trans h)
  | created b value hb h => exact .created b value hb (ho.trans h)
  | known req hb hk hs h hread =>
    exact .known req hb hk (hm.buckets _ hs) (ho.trans h) (hr.trans hread)
  | checked req hb hk hs h hread =>
    exact .checked req hb hk (hm.buckets _ hs) (ho.trans h) (hr.trans hread)
  | named req ms hb hk hs h hread =>
    exact .named req ms hb hk (hm.buckets _ hs) (ho.trans h) (hr.trans hread)
  | chunks req ms now n hb hk hs h hread hn hchunks =>
    refine .chunks req ms now n hb hk (hm.buckets _ hs) (ho.trans h) (hr.trans hread) hn fun l hl => ?_
    rcases hm.chunks (objectIdAt req.bucket req.key ms) l with he | ⟨hi, -⟩
    · exact he.trans (hchunks l hl)
    · exact absurd (hfresh.inj (madeId_of_put hx hread) hi) hij
  | index req id h => exact .index req id (ho.trans h)
  | flush req id h => exact .flush req id (ho.trans h)
  | reading b k m data n h hset hn =>
    exact .reading b k m data n (ho.trans h) (hset.spared hm hfresh) hn
  | marking b k m hread hs h =>
    refine .marking b k m hread ?_ (ho.trans h)
    rw [objectMetaKey_eq] at hs ⊢
    exact hm.objects _ hs
  | marked b k m now hread hs h =>
    refine .marked b k m now hread ?_ (ho.trans h)
    rw [objectMetaKey_eq] at hs ⊢
    exact hm.objects _ hs
  | unlisting b k h => exact .unlisting b k (ho.trans h)
  | unlisted b k h => exact .unlisted b k (ho.trans h)

lemma InSlot.spared {name : Bytes} {slot : Slot} (h : InSlot o x out name slot)
    (hm : Spares x x' i out out') (hfresh : FreshIds x)
    (he : x'.state.map[recordKey .objectMeta name]? = x.state.map[recordKey .objectMeta name]?) :
    InSlot o x' out' name slot := by
  have hmeta : metadataOf x'.state.map name = metadataOf x.state.map name := metadataOf_congr he
  cases h with
  | absent h => exact .absent (he.trans h)
  | deleted m h hs => exact .deleted m (hmeta.trans h) hs
  | live m data h hs hset => exact .live m data (hmeta.trans h) hs (hset.spared hm hfresh)

variable {s : Inventory}

/-- A move that writes neither a bucket nor a metadata record. -/
lemma Shows.spared (h : Shows o x out s) (hm : Spares x x' i out out') (hfresh : FreshIds x)
    (hb : ∀ b, x'.state.map[bucketMetaKey b]? = x.state.map[bucketMetaKey b]?)
    (ho : ∀ name, x'.state.map[recordKey .objectMeta name]? =
      x.state.map[recordKey .objectMeta name]?) : Shows o x' out' s where
  buckets b := by rw [hb, h.buckets]
  objects name := (h.objects name).spared hm hfresh (ho name)

/-- **A move that writes one metadata record.** -/
lemma Shows.set (h : Shows o x out s) (hm : Spares x x' i out out') (hfresh : FreshIds x)
    {name : Bytes} {slot : Slot}
    (hb : ∀ b, x'.state.map[bucketMetaKey b]? = x.state.map[bucketMetaKey b]?)
    (ho : ∀ name' ≠ name, x'.state.map[recordKey .objectMeta name']? =
      x.state.map[recordKey .objectMeta name']?)
    (hself : InSlot o x' out' name slot) : Shows o x' out' (s.set name slot) where
  buckets b := by
    rw [hb]
    exact h.buckets b
  objects name' := by
    by_cases hname : name' = name
    · subst hname
      simpa [Inventory.set] using hself
    · simpa [Inventory.set, hname] using (h.objects name').spared hm hfresh (ho name' hname)

/-- A move that writes the record of a bucket. -/
lemma Shows.create (h : Shows o x out s) (hm : Spares x x' i out out') (hfresh : FreshIds x)
    {b : Bytes} (hself : x'.state.map[bucketMetaKey b]?.isSome)
    (hb : ∀ b' ≠ b, x'.state.map[bucketMetaKey b']? = x.state.map[bucketMetaKey b']?)
    (ho : ∀ name, x'.state.map[recordKey .objectMeta name]? =
      x.state.map[recordKey .objectMeta name]?) : Shows o x' out' (s.create b) where
  buckets b' := by
    by_cases hbb : b' = b
    · subst hbb
      simp [Inventory.create, hself]
    · simp [Inventory.create, hbb, hb b' hbb, h.buckets]
  objects name := (h.objects name).spared hm hfresh (ho name)

end Spares

/-! ### Calls -/

section Calls

variable {o : ObjectStore} {x : ObjectPool} {i : ℕ} {out out' : ℕ → Option Answer} {s s' : Inventory}
  {q : Request} {c : KvCall} {k : KvAnswer c → Kv Answer}

lemma madeId_congr {x x' : ObjectPool} (hops : x'.ops[i]?.map Prod.fst = x.ops[i]?.map Prod.fst)
    (hread : ∀ ms, reading x i = some ms → reading x' i = some ms) {id : Bytes}
    (h : madeId x i = some id) : madeId x' i = some id := by
  unfold madeId at h ⊢
  split at h
  · next req p hx =>
    rw [hx] at hops
    obtain ⟨⟨q, p'⟩, hx', rfl⟩ := Option.map_eq_some_iff.mp hops
    obtain ⟨ms, hms, rfl⟩ := Option.map_eq_some_iff.mp h
    simp [hx', hread ms hms]
  · cases h

/-- A call that takes no record away and writes no chunk but under the id of its operation. -/
lemma spares_call (hi : x.ops[i]? = some (q, .call c k)) (hout : ∀ j ≠ i, out' j = out j)
    (hset : out i ≠ none → out' i = out i)
    (hb : ∀ b, x.state.map[bucketMetaKey b]?.isSome →
      (kvService c x.state).2.map[bucketMetaKey b]?.isSome)
    (ho : ∀ name, x.state.map[recordKey .objectMeta name]?.isSome →
      (kvService c x.state).2.map[recordKey .objectMeta name]?.isSome)
    (hc : ∀ id n, (kvService c x.state).2.map[chunkKey id n]? = x.state.map[chunkKey id n]? ∨
      (madeId x i = some id ∧ out i = none)) :
    Spares x (x.call kvService i q c k) i out out' where
  ops _ hij := Pool.call_ops_of_ne hij
  answers := hout
  settled := hset
  readings _ hij := reading_call_of_ne hij
  made j _ h := madeId_congr (Pool.call_asked hi j) (fun _ => reading_call_of_some) h
  buckets := hb
  objects := ho
  chunks := hc

/-- **The invariant behind a call.** -/
lemma Concurrent.next (h : Concurrent o x out s) (hi : x.ops[i]? = some (q, .call c k))
    (hm : Spares x (x.call kvService i q c k) i out out') (hfresh : FreshIds x)
    (hself : At o (x.call kvService i q c k) out' i q (k (kvService c x.state).1))
    (hshows : Shows o (x.call kvService i q c k) out' s') :
    Concurrent o (x.call kvService i q c k) out' s' where
  shows := hshows
  places j q' p hj := by
    rcases Pool.call_ops_cases hj with ⟨hij, hj⟩ | ⟨rfl, rfl, rfl⟩
    · exact (h.places j q' p hj).spared hj hij hm hfresh
    · exact hself
  unread j hj := by
    have hlt := (List.getElem?_eq_some_iff.mp hi).1
    rw [Pool.length_call] at hj
    rw [reading_call_of_ne (by omega)]
    exact h.unread j hj
  unsettled j hj := by
    have hlt := (List.getElem?_eq_some_iff.mp hi).1
    rw [Pool.length_call] at hj
    rw [hm.answers j (by omega)]
    exact h.unsettled j hj

/-- A call that writes at most entries of the index. -/
def OffRecord : KvCall → Prop
  | .put key _ => ∃ name, key = recordKey .bucketIndex name
  | .del key => ∃ name, key = recordKey .bucketIndex name
  | _ => True

lemma OffRecord.lookup (hc : OffRecord c) (w : KvWorld) {kind : RecordKind}
    (hkind : kind ≠ .bucketIndex) (rest : Bytes) :
    (kvService c w).2.map[recordKey kind rest]? = w.map[recordKey kind rest]? := by
  cases c with
  | put key value =>
    obtain ⟨name, rfl⟩ := hc
    exact (lookup_insert _ _ _ _).trans (if_neg (by simp [Ne.symm hkind]))
  | del key =>
    obtain ⟨name, rfl⟩ := hc
    exact (lookup_erase _ _ _).trans (if_neg (by simp [Ne.symm hkind]))
  | _ => rfl

lemma OffRecord.spares (hc : OffRecord c) (hi : x.ops[i]? = some (q, .call c k))
    (hout : ∀ j ≠ i, out' j = out j) (hset : out i ≠ none → out' i = out i) :
    Spares x (x.call kvService i q c k) i out out' := by
  refine spares_call hi hout hset (fun b hb => ?_) (fun name ho => ?_) fun id n => Or.inl ?_
  · rw [bucketMetaKey_eq] at hb ⊢
    rwa [hc.lookup x.state (by simp)]
  · rwa [hc.lookup x.state (by simp)]
  · rw [chunkKey_eq]
    exact hc.lookup x.state (by simp) _

/-- **A call off the records**, whether it settles the answer of its operation or not. -/
lemma Concurrent.offRecord (h : Concurrent o x out s) (hi : x.ops[i]? = some (q, .call c k))
    (hfresh : FreshIds x) (hc : OffRecord c) (hout : ∀ j ≠ i, out' j = out j)
    (hset : out i ≠ none → out' i = out i)
    (hself : At o (x.call kvService i q c k) out' i q (k (kvService c x.state).1)) :
    Concurrent o (x.call kvService i q c k) out' s := by
  have hm := hc.spares hi hout hset
  refine h.next hi hm hfresh hself (h.shows.spared hm hfresh (fun b => ?_) fun name => ?_)
  · rw [bucketMetaKey_eq]
    exact hc.lookup x.state (by simp) b
  · exact hc.lookup x.state (by simp) name

/-- A call that settles nothing. -/
lemma Concurrent.quiet (h : Concurrent o x out s) (hi : x.ops[i]? = some (q, .call c k))
    (hfresh : FreshIds x) (hc : OffRecord c)
    (hself : At o (x.call kvService i q c k) out i q (k (kvService c x.state).1)) :
    Concurrent o (x.call kvService i q c k) out s :=
  h.offRecord hi hfresh hc (fun _ _ => rfl) (fun _ => rfl) hself

/-- A call that settles the answer in the contents as they are. -/
lemma Concurrent.point (h : Concurrent o x out s) (hi : x.ops[i]? = some (q, .call c k))
    (hfresh : FreshIds x) (hc : OffRecord c) (hnone : out i = none) (a : Answer)
    (hself : At o (x.call kvService i q c k) (Function.update out i (some a)) i q
      (k (kvService c x.state).1)) :
    Concurrent o (x.call kvService i q c k) (Function.update out i (some a)) s :=
  h.offRecord hi hfresh hc (fun _ hij => Function.update_of_ne hij _ _)
    (fun hne => absurd hnone hne) hself

/-- **What a call of an operation may do**: settle nothing, or settle its answer as it is for an
operation that is alone. -/
def Goes (o : ObjectStore) (x' : ObjectPool) (out : ℕ → Option Answer) (s : Inventory) (i : ℕ)
    (q : Request) : Prop :=
  Concurrent o x' out s ∨ ∃ a s', out i = none ∧ Alone o q s a s' ∧
    Concurrent o x' (Function.update out i (some a)) s'

/-- A write leaves the records of the other kinds as they are. -/
lemma lookup_put_of_kind {kind kind' : RecordKind} (hkind : kind ≠ kind') (w : KvWorld)
    (rest rest' value : Bytes) : (kvService (.put (recordKey kind rest) value) w).2.map[
      recordKey kind' rest']? = w.map[recordKey kind' rest']? :=
  (lookup_insert _ _ _ _).trans (if_neg (by simp [hkind]))

lemma lookup_put_self (w : KvWorld) (key value : Bytes) :
    (kvService (.put key value) w).2.map[key]? = some value :=
  (lookup_insert _ _ _ _).trans (if_pos rfl)

lemma lookup_put_of_ne {key key' : Bytes} (hne : key' ≠ key) (w : KvWorld) (value : Bytes) :
    (kvService (.put key value) w).2.map[key']? = w.map[key']? :=
  (lookup_insert _ _ _ _).trans (if_neg hne.symm)

/-- A write takes no record away. -/
lemma isSome_put {key key' : Bytes} (value : Bytes) {w : KvWorld} (h : w.map[key']?.isSome) :
    (kvService (.put key value) w).2.map[key']?.isSome := by
  by_cases hkey : key' = key
  · subst hkey
    rw [lookup_put_self]
    rfl
  · rwa [lookup_put_of_ne hkey]

/-- **A write spares the others**, if it is not a chunk of theirs. -/
lemma spares_put {key value : Bytes} (hi : x.ops[i]? = some (q, .call c k))
    (hc : c = .put key value) (hout : ∀ j ≠ i, out' j = out j) (hset : out i ≠ none → out' i = out i)
    (hchunk : ∀ id n, chunkKey id n = key → madeId x i = some id ∧ out i = none) :
    Spares x (x.call kvService i q c k) i out out' := by
  subst hc
  refine spares_call hi hout hset (fun b => isSome_put value) (fun name => isSome_put value)
    fun id n => ?_
  by_cases hkey : chunkKey id n = key
  · exact Or.inr (hchunk id n hkey)
  · exact Or.inl (lookup_put_of_ne hkey x.state value)

/-! ### Buckets -/

/-- **A bucket is there once its record is written.** -/
lemma Concurrent.bucket {b value : Bytes} (h : Concurrent o x out s)
    (hi : x.ops[i]? = some (q, .call c k)) (hc : c = .put (bucketMetaKey b) value)
    (hfresh : FreshIds x) (hnone : out i = none) (a : Answer)
    (hk : k (kvService c x.state).1 = .ret a) :
    Concurrent o (x.call kvService i q c k) (Function.update out i (some a)) (s.create b) := by
  have hm : Spares x (x.call kvService i q c k) i out (Function.update out i (some a)) :=
    spares_put hi hc (fun _ hij => Function.update_of_ne hij _ _) (fun hne => absurd hnone hne)
      fun id n hkey => absurd hkey (by simp [bucketMetaKey_eq, chunkKey_eq])
  subst hc
  refine h.next hi hm hfresh ?_ (h.shows.create hm hfresh ?_ (fun b' hne => ?_) fun name => ?_)
  · rw [hk]
    exact .ended _ _ (Function.update_self _ _ _)
  · exact Option.isSome_of_eq_some (lookup_put_self x.state _ _)
  · exact lookup_put_of_ne (by simpa [bucketMetaKey_eq] using hne) x.state _
  · rw [bucketMetaKey_eq]
    exact lookup_put_of_kind (by simp) x.state _ _ _

lemma createBucket_goes {b : Bytes} (h : Concurrent o x out s)
    (hi : x.ops[i]? = some (.createBucket b, .call c k)) (hfresh : FreshIds x) :
    Goes o (x.call kvService i (.createBucket b) c k) out s i (.createBucket b) := by
  have hat := h.places i _ _ hi
  generalize hp : Prog.call c k = p at hat
  cases hat with
  | ended => cases hp
  | start _ hcall hnone hread =>
    by_cases hb : b = []
    · subst hb
      exact absurd rfl (hcall (.flag false))
    · rw [Request.prog, createBucket, if_neg hb] at hp
      cases hp
      cases hs : x.state.map[bucketMetaKey b]? with
      | some raw =>
        -- the bucket is there already
        have hmem : b ∈ s.buckets := (h.shows.buckets b).mpr (by simp [hs])
        have hspec : Alone o (.createBucket b) s (.flag true) (s.create b) := .create s hb
        rw [show s.create b = s by simp [Inventory.create, Set.insert_eq_of_mem hmem]] at hspec
        refine Or.inr ⟨.flag true, s, hnone, hspec, h.point hi hfresh trivial hnone _ ?_⟩
        simp only [kvService, hs]
        exact .ended _ _ (Function.update_self _ _ _)
      | none =>
        refine Or.inl (h.quiet hi hfresh trivial ?_)
        simp only [kvService, hs]
        exact .creating b hb hnone
  | creating _ hb hnone =>
    cases hp
    exact Or.inl (h.quiet hi hfresh trivial (.created b _ hb hnone))
  | created _ value hb hnone =>
    cases hp
    exact Or.inr ⟨.flag true, s.create b, hnone, .create s hb,
      h.bucket hi rfl hfresh hnone _ rfl⟩

lemma bucketExists_goes {b : Bytes} (h : Concurrent o x out s)
    (hi : x.ops[i]? = some (.bucketExists b, .call c k)) (hfresh : FreshIds x) :
    Goes o (x.call kvService i (.bucketExists b) c k) out s i (.bucketExists b) := by
  have hat := h.places i _ _ hi
  generalize hp : Prog.call c k = p at hat
  cases hat with
  | ended => cases hp
  | start _ hcall hnone hread =>
    by_cases hb : b = []
    · subst hb
      exact absurd rfl (hcall (.flag false))
    · rw [Request.prog, bucketExists, if_neg hb] at hp
      cases hp
      refine Or.inr ⟨.flag (x.state.map[bucketMetaKey b]?).isSome, s, hnone, .exists s b _ ?_,
        h.point hi hfresh trivial hnone _ (.ended _ _ (Function.update_self _ _ _))⟩
      simp [hb, h.shows.buckets]

/-! ### Reading -/

lemma getObject_goes {b key : Bytes} (h : Concurrent o x out s)
    (hi : x.ops[i]? = some (.getObject b key, .call c k)) (hfresh : FreshIds x) :
    Goes o (x.call kvService i (.getObject b key) c k) out s i (.getObject b key) := by
  have hat := h.places i _ _ hi
  generalize hp : Prog.call c k = p at hat
  cases hat with
  | ended => cases hp
  | start _ hcall hnone hread =>
    cases hp
    have hspec := Alone.get (o := o) s b key
    have hslot := h.shows.objects (objectName b key)
    generalize s.objects (objectName b key) = slot at hslot hspec
    refine Or.inr ⟨_, s, hnone, hspec, h.point hi hfresh trivial hnone _ ?_⟩
    cases hslot with
    | absent hs =>
      rw [← objectMetaKey_eq] at hs
      simp only [kvService, hs]
      exact .ended _ _ (Function.update_self _ _ _)
    | deleted m hm hstate =>
      obtain ⟨raw, hraw, hread⟩ := Option.bind_eq_some_iff.mp hm
      rw [← objectMetaKey_eq] at hraw
      simp only [kvService, hraw, Prog.bind, hread, if_pos hstate]
      exact .ended _ _ (Function.update_self _ _ _)
    | live m data hm hstate hset =>
      obtain ⟨raw, hraw, hread⟩ := Option.bind_eq_some_iff.mp hm
      rw [← objectMetaKey_eq] at hraw
      have hoff : OffRecord (.get (objectMetaKey b key)) := trivial
      have hset' : Sealed o _ (Function.update out i (some (.got (Slot.live m data).answer))) m data :=
        hset.spared (hoff.spares hi (fun _ hij => Function.update_of_ne hij _ _)
          fun hne => absurd hnone hne) hfresh
      have hnext := At.reading b key m data 0 (Function.update_self i _ out) hset' (Nat.zero_le _)
      rw [Nat.sub_zero, ← List.range_eq_range'] at hnext
      simp only [kvService, hraw, Prog.bind, hread, if_neg hstate]
      exact hnext
  | reading _ _ m data n hout hset hn =>
    rcases Nat.lt_or_eq_of_le hn with hlt | rfl
    · obtain ⟨r, hr⟩ : ∃ r, m.chunkCount - n = r + 1 := ⟨m.chunkCount - n - 1, by omega⟩
      rw [hr, List.range'_succ] at hp
      cases hp
      refine Or.inl (h.quiet hi hfresh trivial ?_)
      have hoff : OffRecord (.get (chunkKey m.objectId n)) := trivial
      have hset' := hset.spared (hoff.spares hi (fun _ _ => rfl) fun _ => rfl) hfresh
      have hnext := At.reading b key m data (n + 1) hout hset' hlt
      rw [show m.chunkCount - (n + 1) = r by omega, List.range_succ, List.flatMap_append,
        List.flatMap_singleton] at hnext
      simp only [kvService, hset.chunks n hlt, Prog.bind]
      exact hnext
    · rw [Nat.sub_self, List.range'_zero] at hp
      cases hp

/-! ### Writing metadata -/

/-- **The write of a metadata record** settles the answer of its operation. -/
lemma Concurrent.commit {b key value : Bytes} {slot : Slot} (h : Concurrent o x out s)
    (hi : x.ops[i]? = some (q, .call c k)) (hc : c = .put (objectMetaKey b key) value)
    (hfresh : FreshIds x) (hnone : out i = none) (a : Answer)
    (hself : At o (x.call kvService i q c k) (Function.update out i (some a)) i q
      (k (kvService c x.state).1))
    (hslot : InSlot o (x.call kvService i q c k) (Function.update out i (some a)) (objectName b key)
      slot) :
    Concurrent o (x.call kvService i q c k) (Function.update out i (some a))
      (s.set (objectName b key) slot) := by
  have hm : Spares x (x.call kvService i q c k) i out (Function.update out i (some a)) :=
    spares_put hi hc (fun _ hij => Function.update_of_ne hij _ _) (fun hne => absurd hnone hne)
      fun id n hkey => absurd hkey (by simp [objectMetaKey_eq, chunkKey_eq])
  subst hc
  refine h.next hi hm hfresh hself
    (h.shows.set hm hfresh (fun b' => ?_) (fun name hne => ?_) hslot)
  · rw [bucketMetaKey_eq, objectMetaKey_eq]
    exact lookup_put_of_kind (by simp) x.state _ _ _
  · exact lookup_put_of_ne (by simpa [objectMetaKey_eq] using hne) x.state _

/-- The metadata that is written can be read back. -/
lemma metadataOf_put {b key : Bytes} {m : ObjectMetadata} (hplain : m.Plain) (w : KvWorld) :
    metadataOf (kvService (.put (objectMetaKey b key) (serializeMetadata m)) w).2.map
      (objectName b key) = some m := by
  rw [metadataOf, ← objectMetaKey_eq, lookup_put_self, Option.bind_some,
    deserializeMetadata_serializeMetadata hplain]

/-- **A chunk is written** under the id that the operation has made. -/
lemma Concurrent.chunk {id value : Bytes} {n : ℕ} (h : Concurrent o x out s)
    (hi : x.ops[i]? = some (q, .call c k)) (hc : c = .put (chunkKey id n) value)
    (hfresh : FreshIds x) (hnone : out i = none) (hid : madeId x i = some id)
    (hself : At o (x.call kvService i q c k) out i q (k (kvService c x.state).1)) :
    Concurrent o (x.call kvService i q c k) out s := by
  have hm : Spares x (x.call kvService i q c k) i out out :=
    spares_put hi hc (fun _ _ => rfl) (fun _ => rfl) fun id' n' hkey =>
      ⟨(chunkKey_inj.mp hkey).1 ▸ hid, hnone⟩
  subst hc
  refine h.next hi hm hfresh hself (h.shows.spared hm hfresh (fun b => ?_) fun name => ?_)
  · rw [bucketMetaKey_eq, chunkKey_eq]
    exact lookup_put_of_kind (by simp) x.state _ _ _
  · rw [chunkKey_eq]
    exact lookup_put_of_kind (by simp) x.state _ _ _

/-- A put that has its two readings of the clock. -/
lemma At.firstChunk {req : PutObjectRequest} {ms : UInt64} (hb : req.bucket ≠ [])
    (hk : req.key ≠ []) (hs : x.state.map[bucketMetaKey req.bucket]?.isSome) (h : out i = none)
    (hread : Object.reading x i = some ms) (now : UInt64) : At o x out i (.putObject req) (do
      let r ← o.writeObject req (objectIdAt req.bucket req.key ms) now
      pure (.put r)) := by
  have hnext := At.chunks (o := o) req ms now 0 hb hk hs h hread (Nat.zero_le _) (by simp)
  rw [writeRest, Nat.sub_zero, ← List.range_eq_range'] at hnext
  exact hnext

lemma putObject_goes {req : PutObjectRequest} (h : Concurrent o x out s)
    (hi : x.ops[i]? = some (.putObject req, .call c k)) (hfresh : FreshIds x)
    (hreq : (Request.putObject req).Admitted o) :
    Goes o (x.call kvService i (.putObject req) c k) out s i (.putObject req) := by
  have hat := h.places i _ _ hi
  generalize hp : Prog.call c k = p at hat
  cases hat with
  | ended => cases hp
  | start _ hcall hnone hread =>
    by_cases hb : req.bucket = []
    · refine absurd ?_ (hcall (.put { error := text "bucket is empty" }))
      rw [Request.prog, ObjectStore.putObject, if_pos hb]
      rfl
    by_cases hk : req.key = []
    · refine absurd ?_ (hcall (.put { error := text "object key is empty" }))
      rw [Request.prog, ObjectStore.putObject, if_neg hb, if_pos hk]
      rfl
    rw [Request.prog, ObjectStore.putObject, if_neg hb, if_neg hk, bucketExists, if_neg hb] at hp
    cases hp
    cases hs : (x.state.map[bucketMetaKey req.bucket]?).isSome with
    | false =>
      have hno : req.bucket ∉ s.buckets := by
        rw [h.shows.buckets, hs]
        simp
      refine Or.inr ⟨_, s, hnone, .putNoBucket s hb hk hno, h.point hi hfresh trivial hnone _ ?_⟩
      simp only [kvService, Prog.bind, hs]
      exact .ended _ _ (Function.update_self _ _ _)
    | true =>
      refine Or.inl (h.quiet hi hfresh trivial ?_)
      simp only [kvService, Prog.bind, hs]
      refine At.known req hb hk hs hnone ?_
      rw [reading_call, hread]
      rfl
  | known _ hb hk hs hnone hread =>
    cases hp
    exact Or.inl (h.quiet hi hfresh trivial
      (.checked req hb hk hs hnone (by rw [reading_call, hread]; rfl)))
  | checked _ hb hk hs hnone hread =>
    cases hp
    have hms : ∀ k, reading (x.call kvService i (.putObject req) .nowEpochMs k) i =
        some x.state.clock.head := fun k => by
      rw [reading_call, hread, Option.none_or]
      exact if_pos rfl
    exact Or.inl (h.quiet hi hfresh trivial (.named req _ hb hk hs hnone (hms _)))
  | named _ ms hb hk hs hnone hread =>
    cases hp
    refine Or.inl (h.quiet hi hfresh trivial (At.firstChunk hb hk ?_ hnone ?_ x.state.clock.head))
    · exact hs
    · exact reading_call_of_some hread
  | chunks _ ms now n hb hk hs hnone hread hn hchunks =>
    have hid := madeId_of_put hi hread
    rcases Nat.lt_or_eq_of_le hn with hlt | rfl
    · rw [writeRest, show o.chunkCount req.data.length - n =
        o.chunkCount req.data.length - (n + 1) + 1 by omega, List.range'_succ] at hp
      cases hp
      refine Or.inl (h.chunk hi rfl hfresh hnone hid
        (At.chunks req ms now (n + 1) hb hk ?_ hnone (reading_call_of_some hread) hlt fun j hj => ?_))
      · have hsame : (kvService (.put (chunkKey (objectIdAt req.bucket req.key ms) n)
            (o.chunkValue req.data n)) x.state).2.map[bucketMetaKey req.bucket]? =
              x.state.map[bucketMetaKey req.bucket]? :=
          lookup_put_of_ne (by simp [bucketMetaKey_eq, chunkKey_eq]) _ _
        rwa [← hsame] at hs
      · rcases Nat.lt_succ_iff_lt_or_eq.mp hj with hj | rfl
        · refine (lookup_put_of_ne (fun e => ?_) _ _).trans (hchunks j hj)
          exact absurd (chunkKey_inj.mp e).2 (by omega)
        · exact lookup_put_self _ _ _
    · rw [writeRest, Nat.sub_self, List.range'_zero] at hp
      cases hp
      have hplain := o.newMetadata_plain req hreq.1 ms now
      refine Or.inr ⟨_, _, hnone, .put s hb hk ((h.shows.buckets _).mpr hs) ms now,
        h.commit hi rfl hfresh hnone _ (.index req _ (Function.update_self _ _ _))
          (.live _ _ (metadataOf_put hplain x.state) (by simp [ObjectStore.newMetadata]) ?_)⟩
      refine ⟨⟨i, ?_, by simp⟩, rfl, hreq.2, fun j hj => ?_⟩
      · exact madeId_congr (Pool.call_asked hi i) (fun _ => reading_call_of_some) hid
      · refine (lookup_put_of_ne ?_ _ _).trans (hchunks j hj)
        simp [objectMetaKey_eq, chunkKey_eq]
  | index _ id hout =>
    cases hp
    exact Or.inl (h.quiet hi hfresh ⟨_, bucketIndexKey_eq _ _⟩ (.flush req id hout))
  | flush _ id hout =>
    cases hp
    exact Or.inl (h.quiet hi hfresh trivial (.ended _ _ hout))

/-! ### Deleting -/

lemma deleteObject_goes {b key : Bytes} (h : Concurrent o x out s)
    (hi : x.ops[i]? = some (.deleteObject b key, .call c k)) (hfresh : FreshIds x) :
    Goes o (x.call kvService i (.deleteObject b key) c k) out s i (.deleteObject b key) := by
  have hat := h.places i _ _ hi
  generalize hp : Prog.call c k = p at hat
  cases hat with
  | ended => cases hp
  | start _ hcall hnone hread =>
    have hfound : ∀ m, metadataOf x.state.map (objectName b key) = some m →
        Goes o (x.call kvService i (.deleteObject b key) c k) out s i
          (.deleteObject b key) := fun m hm => by
      cases hp
      obtain ⟨raw, hraw, hread⟩ := Option.bind_eq_some_iff.mp hm
      rw [← objectMetaKey_eq] at hraw
      refine Or.inl (h.quiet hi hfresh trivial ?_)
      simp only [kvService, hraw, Prog.bind, hread]
      refine At.marking b key m ⟨raw, hread⟩ ?_ hnone
      exact Option.isSome_of_eq_some hraw
    have hslot := h.shows.objects (objectName b key)
    generalize hs : s.objects (objectName b key) = slot at hslot
    cases hslot with
    | absent hmissing =>
      cases hp
      rw [← objectMetaKey_eq] at hmissing
      refine Or.inr ⟨_, s, hnone, .deleteMissing s hs, h.point hi hfresh trivial hnone _ ?_⟩
      simp only [kvService, hmissing]
      exact .ended _ _ (Function.update_self _ _ _)
    | deleted m hm hstate => exact hfound m hm
    | live m data hm hstate hset => exact hfound m hm
  | marking _ _ m hread hs hnone =>
    cases hp
    exact Or.inl (h.quiet hi hfresh trivial (.marked b key m _ hread hs hnone))
  | marked _ _ m now hread hs hnone =>
    cases hp
    obtain ⟨raw, hread⟩ := hread
    have hplain := plain_of_deserializeMetadata hread now
    have hthere : s.objects (objectName b key) ≠ .absent := fun hmissing => by
      have hslot := h.shows.objects (objectName b key)
      rw [hmissing] at hslot
      cases hslot with
      | absent hnone => simp [objectMetaKey_eq, hnone] at hs
    exact Or.inr ⟨_, _, hnone, .delete s hthere,
      h.commit hi rfl hfresh hnone _ (.unlisting b key (Function.update_self _ _ _))
        (.deleted _ (metadataOf_put hplain x.state) rfl)⟩
  | unlisting _ _ hout =>
    cases hp
    exact Or.inl (h.quiet hi hfresh ⟨_, bucketIndexKey_eq _ _⟩ (.unlisted b key hout))
  | unlisted _ _ hout =>
    cases hp
    exact Or.inl (h.quiet hi hfresh trivial (.ended _ _ hout))

/-- **One call of any operation.** -/
lemma Concurrent.goes (h : Concurrent o x out s) (hi : x.ops[i]? = some (q, .call c k))
    (hfresh : FreshIds x) (hq : q.Admitted o) : Goes o (x.call kvService i q c k) out s i q := by
  cases q with
  | createBucket b => exact createBucket_goes h hi hfresh
  | bucketExists b => exact bucketExists_goes h hi hfresh
  | putObject req => exact putObject_goes h hi hfresh hq
  | getObject b key => exact getObject_goes h hi hfresh
  | deleteObject b key => exact deleteObject_goes h hi hfresh

/-! ### Beginnings -/

lemma reading_start (q : Request) (j : ℕ) : reading (x.start (Request.prog o) q) j = reading x j :=
  rfl

lemma spares_start (q : Request) (hout : ∀ j ≠ x.ops.length, out' j = out j)
    (hset : out x.ops.length ≠ none → out' x.ops.length = out x.ops.length) :
    Spares x (x.start (Request.prog o) q) x.ops.length out out' where
  ops j hj := x.start_ops_of_ne hj
  answers := hout
  settled := hset
  readings _ _ := rfl
  made j _ h := madeId_congr (by rw [x.start_ops_of_ne (lt_of_madeId h).ne])
    (fun _ hms => (reading_start q j).trans hms) h
  buckets _ h := h
  objects _ h := h
  chunks _ _ := Or.inl rfl

/-- **The invariant behind a beginning.** -/
lemma Concurrent.begin (h : Concurrent o x out s) (hfresh : FreshIds x)
    (hout : ∀ j ≠ x.ops.length, out' j = out j)
    (hself : At o (x.start (Request.prog o) q) out' x.ops.length q (q.prog o)) :
    Concurrent o (x.start (Request.prog o) q) out' s := by
  have hm : Spares x (x.start (Request.prog o) q) x.ops.length out out' :=
    spares_start q hout fun hne => absurd (h.unsettled _ le_rfl) hne
  refine ⟨h.shows.spared hm hfresh (fun _ => rfl) fun _ => rfl, fun j q' p hj => ?_,
    fun j hj => ?_, fun j hj => ?_⟩
  · rcases x.start_ops_cases hj with ⟨hlen, hj⟩ | ⟨rfl, rfl, rfl⟩
    · exact (h.places j q' p hj).spared hj hlen hm hfresh
    · exact hself
  · rw [Pool.length_start] at hj
    exact h.unread j (by omega)
  · rw [Pool.length_start] at hj
    rw [hout j (by omega)]
    exact h.unsettled j (by omega)

/-- An operation that makes no call is refused. -/
lemma alone_of_ret {a : Answer} (hq : q.prog o = .ret a) (s : Inventory) : Alone o q s a s := by
  cases q with
  | createBucket b =>
    rw [Request.prog, createBucket] at hq
    split at hq
    · next hb =>
      cases hq
      exact hb ▸ .createEmpty s
    · cases hq
  | bucketExists b =>
    rw [Request.prog, bucketExists] at hq
    split at hq
    · next hb =>
      cases hq
      exact .exists s b false (by simp [hb])
    · cases hq
  | putObject req =>
    rw [Request.prog, ObjectStore.putObject] at hq
    split at hq
    · next hb =>
      cases hq
      exact .putEmptyBucket s hb
    · next hb =>
      split at hq
      · next hk =>
        cases hq
        exact .putEmptyKey s hb hk
      · rw [bucketExists, if_neg hb] at hq
        cases hq
  | getObject b key => cases hq
  | deleteObject b key => cases hq

/-- **A beginning**: the answer of an operation that makes no call is settled at once. -/
lemma Concurrent.start (h : Concurrent o x out s) (hfresh : FreshIds x) (q : Request) :
    Concurrent o (x.start (Request.prog o) q) out s ∨ ∃ a s', Alone o q s a s' ∧
      Concurrent o (x.start (Request.prog o) q) (Function.update out x.ops.length (some a)) s' := by
  by_cases hret : ∃ a, q.prog o = .ret a
  · obtain ⟨a, ha⟩ := hret
    refine Or.inr ⟨a, s, alone_of_ret ha s,
      h.begin hfresh (fun _ hj => Function.update_of_ne hj _ _) ?_⟩
    rw [ha]
    exact .ended q a (Function.update_self _ _ _)
  · exact Or.inl (h.begin hfresh (fun _ _ => rfl)
      (.start q (fun a ha => hret ⟨a, ha⟩) (h.unsettled _ le_rfl) (h.unread _ le_rfl)))

/-- An operation that has ended has its answer. -/
lemma At.answer {a : Answer} (h : At o x out i q (.ret a)) : out i = some a := by
  generalize hp : Prog.ret a = p at h
  cases h with
  | ended q a h =>
    cases hp
    exact h
  | start q hcall h hread => exact absurd hp.symm (hcall a)
  | chunks req ms now n hb hk hs h hread hn hchunks =>
    rw [writeRest] at hp
    cases hr : o.chunkCount req.data.length - n with
    | zero =>
      rw [hr, List.range'_zero] at hp
      cases hp
    | succ r =>
      rw [hr, List.range'_succ] at hp
      cases hp
  | reading b k m data n h hset hn =>
    rcases Nat.lt_or_eq_of_le hn with hlt | rfl
    · rw [show m.chunkCount - n = m.chunkCount - (n + 1) + 1 by omega, List.range'_succ] at hp
      cases hp
    · rw [Nat.sub_self, List.range'_zero, hset.count, o.flatMap_chunks hset.fits] at hp
      cases hp
      exact h
  | _ => cases hp

end Calls

/-! ### Runs -/

section Runs

variable {o : ObjectStore}

/-- Admitted requests and fresh ids. -/
def WellUsed (o : ObjectStore) (x : ObjectPool) : Prop :=
  (∀ (i : ℕ) (q : Request) p, x.ops[i]? = some (q, p) → q.Admitted o) ∧ FreshIds x

lemma reading_grows {x x' : ObjectPool} (h : Pool.Grows x x') {i : ℕ} {ms : UInt64}
    (hms : reading x i = some ms) : reading x' i = some ms := by
  obtain ⟨rest, hrest⟩ := h.made
  rw [reading, ← hrest, List.findSome?_append, ← reading, hms, Option.some_or]

/-- Ids that are fresh were fresh before. -/
lemma WellUsed.before {x x' : ObjectPool} (h : Pool.Grows x x') (hx : WellUsed o x') :
    WellUsed o x := by
  refine ⟨fun i q p hi => ?_, fun i hi j hj hij => ?_⟩
  · have hasked := h.asked i (List.getElem?_eq_some_iff.mp hi).1
    rw [hi] at hasked
    obtain ⟨e, he, rfl⟩ := Option.map_eq_some_iff.mp hasked
    exact hx.1 i e.1 e.2 he
  · refine or_iff_not_imp_left.mpr fun hne => ?_
    obtain ⟨id, hid⟩ := Option.ne_none_iff_exists'.mp hne
    have hlater : ∀ {j}, madeId x j = some id → madeId x' j = some id := fun hj =>
      madeId_congr (h.asked _ (lt_of_madeId hj)) (fun _ => reading_grows h) hj
    exact hx.2.inj (hlater hid) (hlater (hij ▸ hid))

/-- The points of the operations. -/
lemma points_concurrent (o : ObjectStore) :
    Points kvService (Request.prog o) (Alone o) (WellUsed o) (Concurrent o) where
  start x out s q h hgood :=
    h.start (hgood.before (Pool.grows_of_move (h := kvService) (m := .start q) rfl)).2 q
  call x out s i q c k h hi hgood := by
    have hmove : x.move kvService (Request.prog o) (.step i) = some (x.call kvService i q c k) := by
      simp [Pool.move, hi]
    obtain ⟨hadmitted, hfresh⟩ := hgood.before (Pool.grows_of_move hmove)
    exact h.goes hi hfresh (hadmitted i q _ hi)
  ended x out s i q a h hi := (h.places i q _ hi).answer

/-- Before the first operation. -/
lemma concurrent_init {w : KvWorld} (hw : w.map = ∅) :
    Concurrent o (Pool.init w) (fun _ => none) Inventory.empty where
  shows :=
    { buckets := fun b => by simp [Inventory.empty, Pool.init, hw]
      objects := fun name => .absent (by simp [Pool.init, hw]) }
  places i q p hi := by simp [Pool.init] at hi
  unread _ _ := rfl
  unsettled _ _ := rfl

/-- **The operations can be put in order.** Any number of operations on one store, with their calls to
the key-value store in any order, answer as if each had been alone at one moment between its begin
and its end, if no two puts make the same id. -/
theorem objects_linearizable (o : ObjectStore) (w : KvWorld) (hw : w.map = ∅)
    (moves : List (Move Request)) (x : ObjectPool)
    (hrun : (Pool.init w).run kvService (Request.prog o) moves = some x)
    (hreq : ∀ q, .start q ∈ moves → q.Admitted o) (hfresh : FreshIds x) :
    ∃ order, Linearization kvService (Request.prog o) (Alone o) Inventory.empty w moves order := by
  have hused : WellUsed o x := ⟨fun i q p hi => hreq q (Pool.start_mem_of_run hrun hi), hfresh⟩
  refine (points_concurrent o).exists_linearization (concurrent_init hw) hrun
    fun past rest y he hy => ?_
  subst he
  obtain ⟨y', hy', hrest⟩ := Pool.run_append hrun
  obtain rfl := Option.some.inj (hy.symm.trans hy')
  exact hused.before (Pool.grows_of_run hrest)

/-- A clock that ticks. -/
def tickingWorld : KvWorld := { emptyWorld with clock := fun n => UInt64.ofNat n }

/-- A read that has the metadata of an object while the object is put again. -/
def readBesidePut : List (Move Request) :=
  [.start (.createBucket (text "b"))] ++ List.replicate 3 (.step 0) ++
  [.start (.putObject (requestOf (text "before") (by decide)))] ++ List.replicate 10 (.step 1) ++
  [.start (.getObject (text "b") (text "k")), .step 2,
    .start (.putObject (requestOf (text "during") (by decide)))] ++ List.replicate 9 (.step 3) ++
  List.replicate 3 (.step 2)

/-- The read answers with the object that was there when it began, although it has been overwritten
before its chunks are read. -/
theorem objects_linearizable_read :
    let x := (Pool.init tickingWorld).run kvService (Request.prog smallStore) readBesidePut
    (∃ order, Linearization kvService (Request.prog smallStore) (Alone smallStore) Inventory.empty
      tickingWorld readBesidePut order) ∧
      (x.bind fun x => x.ops[2]?.map fun e => match e.2 with
        | .ret (.got r) => r.data
        | _ => []) = some (text "before") := by
  intro x
  have hsome : x.isSome := by decide +kernel
  refine ⟨objects_linearizable smallStore tickingWorld rfl readBesidePut (x.get hsome)
    (Option.some_get hsome).symm ?_ ?_, by decide +kernel⟩
  · simp [readBesidePut, Request.Admitted, Op.TabFree, Op.Fits, requestOf]
    decide
  · unfold FreshIds
    decide +kernel +revert

end Runs

end VeriStore.Object

import VeriStore.Lib.Calls
import VeriStore.Store.KVStore

/-!
The object store: buckets and objects kept as records of the key-value store.

* The names of the records (`bucketMetaKey`, `objectMetaKey`, `bucketIndexKey`, `chunkKey`) and the
  text form of the metadata (`serializeMetadata`, `deserializeMetadata`).
* The operations, as programs that call the key-value store and read the clock (`Kv`).
* The key-value store seen from above (`KvWorld`, `kvService`): its latest-value map, when every
  write and every flush succeeds.

The hash behind an etag is the one of the standard library and is a parameter (`ObjectStore.hash`).
-/

namespace VeriStore.Object

open VeriStore.Lib VeriStore.Store

/-! ### Metadata -/

/-- The state of an object; a record can hold any byte for it. -/
inductive ObjectState where
  | pending
  | committed
  | deleted
  | other (code : ℕ)
deriving DecidableEq

def ObjectState.code : ObjectState → ℕ
  | pending => 0
  | committed => 1
  | deleted => 2
  | other n => n

def ObjectState.ofCode : ℕ → ObjectState
  | 0 => pending
  | 1 => committed
  | 2 => deleted
  | n => other n

structure ObjectMetadata where
  objectId : Bytes := []
  bucket : Bytes := []
  key : Bytes := []
  sizeBytes : ℕ := 0
  chunkCount : ℕ := 0
  chunkSizeBytes : ℕ := 0
  contentType : Bytes := text "application/octet-stream"
  etag : Bytes := []
  createdAt : ℕ := 0
  updatedAt : ℕ := 0
  state : ObjectState := .committed
deriving DecidableEq

/-- Texts with a tab between each two. -/
def joinTabs : List Bytes → Bytes
  | [] => []
  | [f] => f
  | f :: fs => f ++ tab :: joinTabs fs

def serializeMetadata (m : ObjectMetadata) : Bytes :=
  joinTabs [m.objectId, m.bucket, m.key, decimal m.sizeBytes, decimal m.chunkCount,
    decimal m.chunkSizeBytes, m.contentType, m.etag, decimal m.createdAt, decimal m.updatedAt,
    decimal m.state.code]

/-- `std::getline` up to a tab; nothing is left to read at the end of the text. -/
def readField (s : Bytes) : Option (Bytes × Bytes) :=
  if s = [] then none else some (s.takeWhile (· ≠ tab), (s.dropWhile (· ≠ tab)).tail)

/-- `std::stoull`, and `std::stoul` of 64 bits. -/
def stoull (s : Bytes) : Option ℕ := (extractU64 s).map (·.1)

/-- `std::stoi`. -/
def stoi (s : Bytes) : Option ℤ :=
  let (neg, s1) := readSign (skipWs s)
  let ds := s1.takeWhile isDigit
  let n : ℤ := if neg then -(digitsVal ds : ℤ) else digitsVal ds
  if ds = [] ∨ n < -2 ^ 31 ∨ 2 ^ 31 ≤ n then none else some n

def deserializeMetadata (s : Bytes) : Option ObjectMetadata := do
  let (objectId, s) ← readField s
  let (bucket, s) ← readField s
  let (key, s) ← readField s
  let (sizeBytes, s) ← readField s
  let (chunkCount, s) ← readField s
  let (chunkSizeBytes, s) ← readField s
  let (contentType, s) ← readField s
  let (etag, s) ← readField s
  let (createdAt, s) ← readField s
  let (updatedAt, s) ← readField s
  let (state, _) ← readField s
  let sizeBytes ← stoull sizeBytes
  let chunkCount ← stoull chunkCount
  let chunkSizeBytes ← stoull chunkSizeBytes
  let createdAt ← stoull createdAt
  let updatedAt ← stoull updatedAt
  let state ← stoi state
  some { objectId, bucket, key, sizeBytes, chunkCount := chunkCount % 2 ^ 32,
         chunkSizeBytes := chunkSizeBytes % 2 ^ 32, contentType, etag, createdAt, updatedAt,
         state := .ofCode (state % 256).toNat }

def serializeBucketMeta (name : Bytes) (createdAt : ℕ) : Bytes :=
  joinTabs [name, decimal createdAt]

/-! ### Names of records -/

abbrev colon : UInt8 := 58

def bucketMetaKey (bucket : Bytes) : Bytes := text "bucket:" ++ bucket

def objectMetaKey (bucket key : Bytes) : Bytes := text "objmeta:" ++ bucket ++ [colon] ++ key

def bucketIndexKey (bucket key : Bytes) : Bytes := text "bucketidx:" ++ bucket ++ [colon] ++ key

def chunkKey (objectId : Bytes) (index : ℕ) : Bytes :=
  text "objchunk:" ++ objectId ++ [colon] ++ decimal index

/-! ### Calls to the key-value store -/

/-- A call of the object store to the layer below it, or to the clock. -/
inductive KvCall where
  | get (key : Bytes)
  | put (key value : Bytes)
  | del (key : Bytes)
  | listKeys (start : Bytes)
  | flushWal
  | nowEpochMs

@[reducible] def KvAnswer : KvCall → Type
  | .get _ => Option Bytes
  | .put _ _ => Unit
  | .del _ => Bool
  | .listKeys _ => List Bytes
  | .flushWal => Bool
  | .nowEpochMs => UInt64

/-- A program over the key-value store. -/
abbrev Kv := Prog KvCall KvAnswer

namespace Kv

def get (key : Bytes) : Kv (Option Bytes) := Prog.request (KvCall.get key)
def put (key value : Bytes) : Kv Unit := Prog.request (KvCall.put key value)
def del (key : Bytes) : Kv Bool := Prog.request (KvCall.del key)
/-- `list_keys_with_prefix`. -/
def listKeys (start : Bytes) : Kv (List Bytes) := Prog.request (KvCall.listKeys start)
def flushWal : Kv Bool := Prog.request KvCall.flushWal
def nowEpochMs : Kv UInt64 := Prog.request KvCall.nowEpochMs

end Kv

/-! ### Requests and results -/

/-- The size of a `std::vector` is a 64-bit number. -/
structure PutObjectRequest where
  bucket : Bytes
  key : Bytes
  data : Bytes
  contentType : Bytes := text "application/octet-stream"
  size_lt : data.length < 2 ^ 64
deriving DecidableEq

structure PutObjectResult where
  ok : Bool := false
  error : Bytes := []
  objectId : Bytes := []
  sizeBytes : ℕ := 0
  chunkCount : ℕ := 0
  etag : Bytes := []
deriving DecidableEq

structure GetObjectResult where
  found : Bool := false
  error : Bytes := []
  metadata : ObjectMetadata := {}
  data : Bytes := []
deriving DecidableEq

structure DeleteObjectResult where
  ok : Bool := false
  error : Bytes := []
deriving DecidableEq

structure ObjectListEntry where
  key : Bytes
  sizeBytes : ℕ
  contentType : Bytes
  etag : Bytes
  updatedAt : ℕ
deriving DecidableEq

structure ListObjectsResult where
  ok : Bool := false
  error : Bytes := []
  objects : List ObjectListEntry := []
deriving DecidableEq

/-- The key-value store below is reached through the calls. -/
structure ObjectStore where
  chunkSizeBytes : ℕ
  hash : Bytes → UInt64
  chunkSize_pos : 0 < chunkSizeBytes
  chunkSize_lt : chunkSizeBytes < 2 ^ 32

/-- The constructor: a chunk size of zero stands for the default. -/
def ObjectStore.new (chunkSizeBytes : UInt32) (hash : Bytes → UInt64) : ObjectStore where
  chunkSizeBytes := if chunkSizeBytes = 0 then 4096 else chunkSizeBytes.toNat
  hash := hash
  chunkSize_pos := by
    split
    · omega
    · next h => exact Nat.pos_of_ne_zero fun h0 => h (UInt32.toNat_inj.mp h0)
  chunkSize_lt := by
    split
    · omega
    · exact chunkSizeBytes.toNat_lt

/-! ### Buckets -/

def createBucket (bucket : Bytes) : Kv Bool :=
  if bucket = [] then pure false
  else do
    match ← Kv.get (bucketMetaKey bucket) with
    | some _ => pure true
    | none =>
      let now ← Kv.nowEpochMs
      Kv.put (bucketMetaKey bucket) (serializeBucketMeta bucket now.toNat)
      pure true

def bucketExists (bucket : Bytes) : Kv Bool :=
  if bucket = [] then pure false
  else do
    let raw ← Kv.get (bucketMetaKey bucket)
    pure raw.isSome

/-! ### Writing an object -/

def computeEtag (hash : Bytes → UInt64) (data : Bytes) : Bytes :=
  (Nat.toDigits 16 (hash data).toNat).map ascii

/-- The id made of a name and a reading of the clock. -/
def objectIdAt (bucket key : Bytes) (ms : UInt64) : Bytes :=
  bucket ++ [colon] ++ key ++ [colon] ++ decimal ms.toNat

def makeObjectId (bucket key : Bytes) : Kv Bytes := do
  let ms ← Kv.nowEpochMs
  pure (objectIdAt bucket key ms)

namespace ObjectStore

variable (o : ObjectStore)

/-- The number of chunks, in 64 bits and then cut to 32. -/
def chunkCount (size : ℕ) : ℕ :=
  (size + o.chunkSizeBytes - 1) % 2 ^ 64 / o.chunkSizeBytes % 2 ^ 32

/-- The bytes of the chunk with an index. -/
def chunkValue (data : Bytes) (index : ℕ) : Bytes :=
  let start := index * o.chunkSizeBytes
  (data.drop start).take (min (start + o.chunkSizeBytes) data.length - start)

/-- The loop over the chunks. -/
def writeChunks (objectId data : Bytes) : List ℕ → Kv Unit
  | [] => pure ()
  | i :: is => do
    Kv.put (chunkKey objectId i) (o.chunkValue data i)
    writeChunks objectId data is

/-- The metadata of a new object. -/
def newMetadata (req : PutObjectRequest) (objectId : Bytes) (now : UInt64) : ObjectMetadata where
  objectId := objectId
  bucket := req.bucket
  key := req.key
  sizeBytes := req.data.length
  chunkCount := o.chunkCount req.data.length
  chunkSizeBytes := o.chunkSizeBytes
  contentType := req.contentType
  etag := computeEtag o.hash req.data
  createdAt := now.toNat
  updatedAt := now.toNat
  state := .committed

/-- `PutObject` behind its checks: the chunks first, then the metadata, which commits the object,
the entry of the index, and a flush. -/
def writeObject (req : PutObjectRequest) (objectId : Bytes) (now : UInt64) :
    Kv PutObjectResult := do
  o.writeChunks objectId req.data (List.range (o.chunkCount req.data.length))
  Kv.put (objectMetaKey req.bucket req.key) (serializeMetadata (o.newMetadata req objectId now))
  Kv.put (bucketIndexKey req.bucket req.key) objectId
  let flushed ← Kv.flushWal
  if !flushed then pure { error := text "failed to flush WAL" }
  else
    pure { ok := true, objectId := objectId, sizeBytes := req.data.length,
           chunkCount := o.chunkCount req.data.length, etag := computeEtag o.hash req.data }

def putObject (req : PutObjectRequest) : Kv PutObjectResult :=
  if req.bucket = [] then pure { error := text "bucket is empty" }
  else if req.key = [] then pure { error := text "object key is empty" }
  else do
    let known ← bucketExists req.bucket
    if !known then pure { error := text "bucket does not exist" }
    else
      -- an object that is overwritten is only reported
      let _existing ← Kv.get (objectMetaKey req.bucket req.key)
      let objectId ← makeObjectId req.bucket req.key
      let now ← Kv.nowEpochMs
      o.writeObject req objectId now

end ObjectStore

/-! ### Reading an object -/

/-- The loop over the chunks, with the bytes read so far. -/
def readChunks (objectId : Bytes) : List ℕ → Bytes → Kv (Except Bytes Bytes)
  | [], data => pure (.ok data)
  | i :: is, data => do
    match ← Kv.get (chunkKey objectId i) with
    | none => pure (.error (text "missing object chunk at index " ++ decimal i))
    | some chunk => readChunks objectId is (data ++ chunk)

def getObject (bucket key : Bytes) : Kv GetObjectResult := do
  match ← Kv.get (objectMetaKey bucket key) with
  | none => pure { error := text "object metadata not found" }
  | some rawMeta =>
    match deserializeMetadata rawMeta with
    | none => pure { error := text "failed to deserialize object metadata" }
    | some m =>
      if m.state = .deleted then pure { error := text "object is deleted" }
      else
        match ← readChunks m.objectId (List.range m.chunkCount) [] with
        | .error e => pure { error := e, metadata := m }
        | .ok data => pure { found := true, metadata := m, data := data }

/-! ### Deleting an object -/

/-- The delete is logical: the chunks stay. -/
def deleteObject (bucket key : Bytes) : Kv DeleteObjectResult := do
  match ← Kv.get (objectMetaKey bucket key) with
  | none => pure { error := text "object metadata not found" }
  | some rawMeta =>
    match deserializeMetadata rawMeta with
    | none => pure { error := text "failed to deserialize object metadata" }
    | some m =>
      let now ← Kv.nowEpochMs
      Kv.put (objectMetaKey bucket key)
        (serializeMetadata { m with state := .deleted, updatedAt := now.toNat })
      let _ ← Kv.del (bucketIndexKey bucket key)
      let flushed ← Kv.flushWal
      if !flushed then pure { error := text "failed to flush WAL" } else pure { ok := true }

/-! ### Listing a bucket -/

def ObjectMetadata.listEntry (m : ObjectMetadata) : ObjectListEntry :=
  ⟨m.key, m.sizeBytes, m.contentType, m.etag, m.updatedAt⟩

/-- The loop over the entries of the index, `start` being the part of their names in front of the
key of the object. -/
def listEntries (bucket : Bytes) (start : ℕ) :
    List Bytes → List ObjectListEntry → Kv (List ObjectListEntry)
  | [], objects => pure objects
  | indexKey :: rest, objects =>
    if indexKey.length < start then listEntries bucket start rest objects
    else do
      match ← Kv.get (objectMetaKey bucket (indexKey.drop start)) with
      | none => listEntries bucket start rest objects
      | some rawMeta =>
        match deserializeMetadata rawMeta with
        | none => listEntries bucket start rest objects
        | some m =>
          if m.state = .deleted then listEntries bucket start rest objects
          else listEntries bucket start rest (objects ++ [m.listEntry])

def listObjects (bucket start : Bytes) : Kv ListObjectsResult :=
  if bucket = [] then pure { error := text "bucket is empty" }
  else do
    let known ← bucketExists bucket
    if !known then pure { error := text "bucket does not exist" }
    else
      let indexKeys ← Kv.listKeys (bucketIndexKey bucket start)
      let objects ← listEntries bucket (text "bucketidx:" ++ bucket ++ [colon]).length indexKeys []
      pure { ok := true, objects := objects }

/-! ### Collecting chunks -/

/-- The marking loop: the ids that committed metadata names. -/
def reachableIds : List Bytes → List Bytes → Kv (List Bytes)
  | [], ids => pure ids
  | metaKey :: rest, ids => do
    match ← Kv.get metaKey with
    | none => reachableIds rest ids
    | some rawMeta =>
      match deserializeMetadata rawMeta with
      | none => reachableIds rest ids
      | some m =>
        if m.state = .committed then reachableIds rest (m.objectId :: ids)
        else reachableIds rest ids

/-- The id cut out of the name of a chunk: what stands between `objchunk:` and the last colon. -/
def chunkOwner (name : Bytes) : Option Bytes :=
  match lastIndexOf [colon] name with
  | none => none
  | some last =>
    if last ≤ (text "objchunk:").length then none
    else some ((name.drop (text "objchunk:").length).take (last - (text "objchunk:").length))

/-- The sweeping loop, with the number of chunks deleted so far. -/
def sweepChunks (reachable : List Bytes) : List Bytes → ℕ → Kv ℕ
  | [], deleted => pure deleted
  | name :: rest, deleted =>
    match chunkOwner name with
    | none => sweepChunks reachable rest deleted
    | some objectId =>
      if objectId ∈ reachable then sweepChunks reachable rest deleted
      else do
        let gone ← Kv.del name
        sweepChunks reachable rest (if gone then deleted + 1 else deleted)

def garbageCollectChunks : Kv ℕ := do
  let metaKeys ← Kv.listKeys (text "objmeta:")
  let reachable ← reachableIds metaKeys []
  let chunkKeys ← Kv.listKeys (text "objchunk:")
  let deleted ← sweepChunks reachable chunkKeys 0
  let _ ← Kv.flushWal
  pure deleted

/-! ### The key-value store from above -/

/-- An order of a hash table: a rearrangement of the keys. -/
structure Shuffle where
  apply : List Bytes → List Bytes
  perm : ∀ keys, (apply keys).Perm keys

/-- The latest-value map of the store, the readings of the clock to come and the orders in which
the map will be scanned. -/
structure KvWorld where
  map : Std.ExtTreeMap Bytes Bytes
  clock : Stream' UInt64
  orders : Stream' Shuffle

/-- `list_keys_with_prefix` on a map, up to the order. -/
def keysWith (map : Std.ExtTreeMap Bytes Bytes) (start : Bytes) : List Bytes :=
  map.keys.filter start.isPrefixOf

/-- **A key-value store whose writes and flushes succeed.** `del` answers whether the key was
there. -/
def kvService : Service KvCall KvAnswer KvWorld
  | .get key, w => (w.map[key]?, w)
  | .put key value, w => ((), { w with map := w.map.insert key value })
  | .del key, w => (w.map[key]?.isSome, { w with map := w.map.erase key })
  | .listKeys start, w =>
    (w.orders.head.apply (keysWith w.map start), { w with orders := w.orders.tail })
  | .flushWal, w => (true, w)
  | .nowEpochMs, w => (w.clock.head, { w with clock := w.clock.tail })

end VeriStore.Object

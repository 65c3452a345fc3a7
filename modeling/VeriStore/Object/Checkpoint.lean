import VeriStore.Object.Isolation
import VeriStore.Store.Checkpoint

/-!
Objects and a checkpoint of the store below them.

`storeService` runs the operations on the key-value store itself, with its memtable, its log and
its flush worker; for calls that do not delete it answers as the map does (`exec_store`). A
checkpoint saves the versions of the memtable as lines of text, and the store that is opened again
has what the lines give back.

* `objects_survive_iff` — where no line is broken by a newline, an object survives a checkpoint
  exactly when its records are in the memtable;
* `newline_loses_object` — a chunk with a newline.
-/

namespace VeriStore.Object

open VeriStore.Lib VeriStore.Lib.Prog VeriStore.Store VeriStore.Sstable

open KVStore (LogAt CheckpointIo)

/-! ### The key-value store itself -/

/-- A store and its files, the readings of the clock and the orders of scans to come, and the
number of steps that the flush worker takes before each call. -/
structure StoreWorld where
  store : KVStore
  disk : Disk
  clock : Stream' UInt64
  orders : Stream' Shuffle
  turns : Stream' ℕ

namespace StoreWorld

/-- A store opened on an empty machine. -/
def start (clock : Stream' UInt64) (orders : Stream' Shuffle) (turns : Stream' ℕ) : StoreWorld where
  store := (KVStore.new.open Disk.empty .ok).2.1
  disk := (KVStore.new.open Disk.empty .ok).2.2
  clock := clock
  orders := orders
  turns := turns

/-- The store seen from above. -/
def world (w : StoreWorld) : KvWorld := ⟨w.store.map, w.clock, w.orders⟩

/-- The worker takes its steps. -/
def worked (w : StoreWorld) : StoreWorld :=
  let (worker, d) := w.store.flushWorker.runOn w.turns.head w.disk
  { w with
    store := { w.store with flushWorker := worker }
    disk := d
    turns := w.turns.tail }

/-- The store and the files behind a call. -/
def put (w : StoreWorld) (key value : Bytes) : StoreWorld :=
  let (s, d) := w.store.put w.disk key value .ok
  { w with store := s, disk := d }

end StoreWorld

/-- **The key-value store as a service**, when its system calls succeed. -/
def storeService : Service KvCall KvAnswer StoreWorld := fun c w =>
  let w := w.worked
  match c with
  | .get key => (w.store.get key, w)
  | .put key value => ((), w.put key value)
  | .del key =>
    let (ok, s, d) := w.store.del w.disk key .ok
    (ok, { w with store := s, disk := d })
  | .listKeys start =>
    (w.orders.head.apply (keysWith w.store.map start), { w with orders := w.orders.tail })
  | .flushWal =>
    let (ok, s, d) := w.store.flushWal w.disk .ok
    (ok, { w with store := s, disk := d })
  | .nowEpochMs => (w.clock.head, { w with clock := w.clock.tail })

/-- The memtable has the newest version of every key it knows, and its rows are of the kind `A` and
numbered. -/
structure Recent (A : Bytes → Option Bytes → Prop) (s : KVStore) : Prop where
  newest : ∀ key, versionsOf s.memtable.entries key ≠ [] →
    s.get key = (versionsOf s.memtable.entries key).getLast?.bind Version.value
  rows : ∀ key, ∀ v ∈ versionsOf s.memtable.entries key, A key v.value ∧ v.timestamp ≤ s.seq

/-- The store is open, its log can be written and its memtable is recent. -/
structure StoreWorld.Ready (A : Bytes → Option Bytes → Prop) (w : StoreWorld) : Prop where
  opened : w.store.opened = true
  log : ∃ file pending, LogAt w.store w.disk file pending
  recent : Recent A w.store

section Calls

variable {A : Bytes → Option Bytes → Prop} {s : KVStore} {w : StoreWorld}

lemma recent_of_empty (h : s.memtable.entries = ∅) : Recent A s := by
  constructor
  · intro key hne
    rw [h, versionsOf_empty] at hne
    exact absurd rfl hne
  · intro key v hv
    rw [h, versionsOf_empty] at hv
    simp at hv

/-- A record of the kind is logged and stored. -/
lemma Recent.logged (h : Recent A s) {key : Bytes} {value : Option Bytes} (hA : A key value) :
    Recent A (s.logged ⟨s.seq + 1, key, value⟩) := by
  obtain ⟨hmap, hmem⟩ := s.applyRecord_eq ⟨s.seq + 1, key, value⟩
  have hget : ∀ key', (s.logged ⟨s.seq + 1, key, value⟩).get key' =
      if key = key' then value else s.get key' := fun key' => by
    rw [KVStore.get, KVStore.logged_map, hmap, getElem?_latest]
    rfl
  have hver : ∀ key', versionsOf (s.logged ⟨s.seq + 1, key, value⟩).memtable.entries key' =
      if key = key' then versionsOf s.memtable.entries key ++ [⟨s.seq + 1, value⟩]
      else versionsOf s.memtable.entries key' := fun key' => by
    rw [KVStore.logged_memtable, hmem, versionsOf_pushVersion]
    rfl
  constructor
  · intro key' hne
    rw [hver] at hne
    rw [hget, hver]
    by_cases hk : key = key'
    · simp [hk]
    · rw [if_neg hk] at hne
      rw [if_neg hk, if_neg hk, h.newest key' hne]
  · intro key' v hv
    rw [hver] at hv
    rw [KVStore.logged_seq]
    have hold : ∀ {k : Bytes}, v ∈ versionsOf s.memtable.entries k →
        A k v.value ∧ v.timestamp ≤ s.seq + 1 := fun hm =>
      ⟨(h.rows _ v hm).1, (h.rows _ v hm).2.trans (Nat.le_succ _)⟩
    split at hv
    · next hk =>
      subst hk
      rcases List.mem_append.mp hv with hv | hv
      · exact hold hv
      · rw [List.mem_singleton.mp hv]
        exact ⟨hA, le_rfl⟩
    · exact hold hv

/-- The end of a write keeps the memtable or empties it. -/
lemma Recent.finishWrite (h : Recent A s) (d : Disk) (io : Log.FlushOutcome) :
    Recent A (s.finishWrite d io).2.1 := by
  have hrotate : Recent A s.maybeFlushMemtable.2 := by
    rcases s.maybeFlushMemtable_cases with ⟨ok, e⟩ | ⟨-, e⟩ | ⟨-, e⟩
    · rw [e]
      exact h
    · rw [e]
      exact recent_of_empty rfl
    · rw [e]
      exact recent_of_empty rfl
  unfold KVStore.finishWrite
  split
  · next s' e =>
    rw [e] at hrotate
    exact hrotate
  · next s' e =>
    rw [e] at hrotate
    split
    · exact ⟨hrotate.newest, hrotate.rows⟩
    · exact hrotate

/-- A call that puts a record of the kind, or writes none. -/
def Puts (A : Bytes → Option Bytes → Prop) : KvCall → Prop
  | .put key value => A key (some value)
  | .del _ => False
  | _ => True

lemma StoreWorld.Ready.worked (h : w.Ready A) : w.worked.Ready A := by
  obtain ⟨file, pending, hlog⟩ := h.log
  obtain ⟨hwal, -⟩ := FlushWorker.runOn_files w.turns.head w.store.flushWorker w.disk
  exact ⟨h.opened, ⟨file, pending, hlog.fd, hwal.trans hlog.disk, hlog.buffer⟩,
    ⟨h.recent.newest, h.recent.rows⟩⟩

/-- **A put** on the store is one on the map. -/
lemma StoreWorld.Ready.put (h : w.Ready A) {key value : Bytes} (hA : A key (some value)) :
    (w.put key value).Ready A ∧
      (w.put key value).world = { w.world with map := w.world.map.insert key value } := by
  obtain ⟨file, pending, hlog⟩ := h.log
  have hfd : w.store.wal.fd.isSome := by simp [hlog.fd]
  have hput : w.put key value = { w with
      store :=
        ((w.store.logged ⟨w.store.seq + 1, key, some value⟩).finishWrite w.disk .ok).2.1
      disk :=
        ((w.store.logged ⟨w.store.seq + 1, key, some value⟩).finishWrite w.disk .ok).2.2 } := by
    unfold StoreWorld.put
    rw [KVStore.put_eq h.opened hfd]
  obtain ⟨m, i, n, fw, l, f, hf⟩ :=
    (w.store.logged ⟨w.store.seq + 1, key, some value⟩).finishWrite_frame w.disk .ok
  have hlog' : ∃ file' pending', LogAt
      ((w.store.logged ⟨w.store.seq + 1, key, some value⟩).finishWrite w.disk .ok).2.1
      ((w.store.logged ⟨w.store.seq + 1, key, some value⟩).finishWrite w.disk .ok).2.2
      file' pending' := by
    rcases (hlog.logged ⟨w.store.seq + 1, key, some value⟩).finishWrite with hl | hl
    · exact ⟨_, _, hl⟩
    · exact ⟨_, _, hl⟩
  have hrecent := (h.recent.logged hA).finishWrite w.disk .ok
  rw [hput]
  refine ⟨⟨?_, hlog', hrecent⟩, ?_⟩
  · simp only [hf, KVStore.logged_opened]
    exact h.opened
  · simp only [StoreWorld.world, hf]
    rfl

/-- **One call** on the store that does not delete is the call on the map. -/
lemma storeService_call (c : KvCall) (w : StoreWorld) (hc : Puts A c) (hw : w.Ready A) :
    (storeService c w).1 = (kvService c w.world).1 ∧
      (storeService c w).2.world = (kvService c w.world).2 ∧ (storeService c w).2.Ready A := by
  have hready := hw.worked
  cases c with
  | get key => exact ⟨rfl, rfl, hready⟩
  | put key value =>
    obtain ⟨hput, hworld⟩ := hready.put hc
    exact ⟨rfl, hworld, hput⟩
  | del key => exact hc.elim
  | listKeys start => exact ⟨rfl, rfl, hready.opened, hready.log, hready.recent⟩
  | flushWal =>
    obtain ⟨file, pending, hlog⟩ := hready.log
    have hflush := hlog.flushWal
    have hlog' := hlog.flushed
    refine ⟨congrArg Prod.fst hflush, rfl, hready.opened, ⟨_, _, hlog'⟩, ?_⟩
    exact ⟨hready.recent.newest, hready.recent.rows⟩
  | nowEpochMs => exact ⟨rfl, rfl, hready.opened, hready.log, hready.recent⟩

/-- **A program that does not delete** runs on the store as on the map. -/
lemma exec_store {α : Type} {p : Kv α} (hp : p.Only (Puts A)) (hw : w.Ready A) :
    (exec storeService p w).1 = (exec kvService p w.world).1 ∧
      (exec storeService p w).2.world = (exec kvService p w.world).2 ∧
        (exec storeService p w).2.Ready A :=
  hp.exec storeService_call hw

end Calls

/-! ### The operations -/

/-- The records that the call puts are of the kind. -/
def Op.Records (o : ObjectStore) (A : Bytes → Option Bytes → Prop) : Op → Prop
  | .createBucket b => ∀ now : UInt64, A (bucketMetaKey b) (some (serializeBucketMeta b now.toNat))
  | .putObject req => ∀ ms now : UInt64,
    (∀ i, A (chunkKey (objectIdAt req.bucket req.key ms) i) (some (o.chunkValue req.data i))) ∧
    A (objectMetaKey req.bucket req.key)
      (some (serializeMetadata (o.newMetadata req (objectIdAt req.bucket req.key ms) now))) ∧
    A (bucketIndexKey req.bucket req.key) (some (objectIdAt req.bucket req.key ms))
  | _ => False

section Programs

variable {o : ObjectStore} {A : Bytes → Option Bytes → Prop} {P : KvCall → Prop}

lemma only_bucketExists (hget : ∀ key, P (.get key)) (b : Bytes) : (bucketExists b).Only P := by
  unfold bucketExists
  split
  · exact only_pure _
  · exact only_request_bind (hget _) fun _ => only_pure _

lemma only_createBucket {b : Bytes}
    (h : ∀ now : UInt64, A (bucketMetaKey b) (some (serializeBucketMeta b now.toNat))) :
    (createBucket b).Only (Puts A) := by
  unfold createBucket
  split
  · exact only_pure _
  · refine only_request_bind trivial fun raw => ?_
    cases raw with
    | some _ => exact only_pure _
    | none =>
      refine only_request_bind trivial fun now => ?_
      exact only_request_bind (h now) fun _ => only_pure _

lemma only_writeChunks {id data : Bytes} (h : ∀ i, P (.put (chunkKey id i) (o.chunkValue data i)))
    (is : List ℕ) : (o.writeChunks id data is).Only P := by
  induction is with
  | nil => exact only_pure _
  | cons i is ih => exact only_request_bind (h i) fun _ => ih

/-- The calls of `PutObject`. -/
lemma only_putObject {req : PutObjectRequest} (hget : ∀ key, P (.get key)) (hnow : P .nowEpochMs)
    (hflush : P .flushWal)
    (hput : ∀ ms now : UInt64,
      (∀ i, P (.put (chunkKey (objectIdAt req.bucket req.key ms) i) (o.chunkValue req.data i))) ∧
      P (.put (objectMetaKey req.bucket req.key)
        (serializeMetadata (o.newMetadata req (objectIdAt req.bucket req.key ms) now))) ∧
      P (.put (bucketIndexKey req.bucket req.key) (objectIdAt req.bucket req.key ms))) :
    (o.putObject req).Only P := by
  unfold ObjectStore.putObject
  split
  · exact only_pure _
  split
  · exact only_pure _
  refine (only_bucketExists hget _).bind fun known => ?_
  split
  · exact only_pure _
  refine only_request_bind (hget _) fun _ => ?_
  -- the id is made of a reading of the clock
  refine only_request_bind hnow fun ms => ?_
  refine only_request_bind hnow fun now => ?_
  obtain ⟨hchunks, hmeta, hindex⟩ := hput ms now
  refine (only_writeChunks hchunks _).bind fun _ => ?_
  refine only_request_bind hmeta fun _ => only_request_bind hindex fun _ => ?_
  refine only_request_bind hflush fun flushed => ?_
  split
  · exact only_pure _
  · exact only_pure _

/-- **The calls of an operation.** -/
lemma Op.only {op : Op} (h : op.Records o A) : (op.prog o).Only (Puts A) := by
  cases op with
  | createBucket b => exact only_createBucket h
  | putObject req =>
    have hput : (o.putObject req).Only (Puts A) :=
      only_putObject (fun _ => trivial) trivial trivial h
    exact hput.bind fun _ => only_pure _
  | deleteObject b k => exact h.elim
  | garbageCollectChunks => exact h.elim

/-- A call that reads a record. -/
def Gets : KvCall → Prop
  | .get _ => True
  | _ => False

lemma only_getObject (hget : ∀ key, P (.get key)) (b k : Bytes) : (getObject b k).Only P := by
  have hread : ∀ id is data, (readChunks id is data).Only P := by
    intro id is
    induction is with
    | nil => exact fun data => only_pure _
    | cons i is ih =>
      refine fun data => only_request_bind (hget _) fun chunk => ?_
      cases chunk with
      | none => exact only_pure _
      | some chunk => exact ih _
  unfold getObject
  refine only_request_bind (hget _) fun raw => ?_
  cases raw with
  | none => exact only_pure _
  | some raw =>
    simp only
    split
    · exact only_pure _
    · split
      · exact only_pure _
      · refine (hread _ _ _).bind fun r => ?_
        cases r with
        | error e => exact only_pure _
        | ok data => exact only_pure _

end Programs

/-! ### Runs -/

namespace StoreWorld

variable {o : ObjectStore} {A : Bytes → Option Bytes → Prop}

def perform (o : ObjectStore) (op : Op) (w : StoreWorld) : Bool × StoreWorld :=
  exec storeService (op.prog o) w

/-- The state behind a list of calls. -/
def run (o : ObjectStore) : List Op → StoreWorld → StoreWorld
  | [], w => w
  | op :: ops, w => run o ops (w.perform o op).2

/-- The calls that were accepted. -/
def accepted (o : ObjectStore) : List Op → StoreWorld → List Op
  | [], _ => []
  | op :: ops, w =>
    (if (w.perform o op).1 then [op] else []) ++ accepted o ops (w.perform o op).2

/-- **Every run** on the store is one on the map. -/
lemma run_world {ops : List Op} {w : StoreWorld} (hops : ∀ op ∈ ops, op.Records o A)
    (hw : w.Ready A) : (run o ops w).world = Object.run o ops w.world ∧
      accepted o ops w = Object.accepted o ops w.world ∧ (run o ops w).Ready A := by
  induction ops generalizing w with
  | nil => exact ⟨rfl, rfl, hw⟩
  | cons op ops ih =>
    obtain ⟨hanswer, hstate, hready⟩ := exec_store (Op.only (hops op (by simp))) hw
    obtain ⟨h1, h2, h3⟩ := ih (fun op' h' => hops op' (by simp [h'])) hready
    rw [hstate] at h1 h2
    refine ⟨h1, ?_, h3⟩
    simp only [accepted, Object.accepted, perform, Op.perform, hanswer, h2]
    rfl

lemma start_ready (clock : Stream' UInt64) (orders : Stream' Shuffle) (turns : Stream' ℕ) :
    (start clock orders turns).Ready A :=
  ⟨rfl, ⟨[], [], rfl, rfl, rfl⟩, recent_of_empty rfl⟩

/-! ### A checkpoint -/

/-- A checkpoint, behind steps of the worker. -/
def checkpoint (w : StoreWorld) (io : CheckpointIo) : Bool × StoreWorld :=
  let w := w.worked
  let (ok, s, d) := w.store.checkpoint w.disk io
  (ok, { w with store := s, disk := d })

/-- The process ends, and the next one opens the store on its files. -/
def reopen (w : StoreWorld) : StoreWorld :=
  let d := w.store.close w.disk
  { w with
    store := (KVStore.new.open d .ok).2.1
    disk := (KVStore.new.open d .ok).2.2 }

/-- The answer of `GetObject`. -/
def objectAt (w : StoreWorld) (b k : Bytes) : GetObjectResult :=
  (exec storeService (getObject b k) w).1

/-- A call that writes nothing asks the map. -/
lemma objectAt_eq (w : StoreWorld) (b k : Bytes) : w.objectAt b k = Object.objectAt w.world b k := by
  have hcall : ∀ c (w : StoreWorld), Gets c → True → (storeService c w).1 = (kvService c w.world).1 ∧
      (storeService c w).2.world = (kvService c w.world).2 ∧ True := by
    intro c w hc _
    cases c with
    | get => exact ⟨rfl, rfl, trivial⟩
    | put | del | listKeys | flushWal | nowEpochMs => exact hc.elim
  exact ((only_getObject (P := Gets) (fun _ => trivial) b k).exec hcall trivial).1

/-- **The files of a checkpoint.** -/
lemma checkpoint_files {w : StoreWorld} {io : CheckpointIo} (h : (w.checkpoint io).1 = true) :
    (w.checkpoint io).2.disk.snapshot =
        (saveToFileUnlocked w.worked.disk.snapshot w.store.memtable.entries io.save).2 ∧
      (w.checkpoint io).2.disk.wal = some [] := by
  have hstore : ∀ {s : KVStore} {d : Disk}, (s.checkpoint d io).1 = true →
      (s.checkpoint d io).2.2.snapshot =
          (saveToFileUnlocked d.snapshot s.memtable.entries io.save).2 ∧
        (s.checkpoint d io).2.2.wal = some [] := by
    intro s d h
    obtain ⟨save, reopen⟩ := io
    by_cases ho : s.opened = true
    · cases save with
      | refused | short => simp [KVStore.checkpoint, saveToFileUnlocked, ho] at h
      | ok | lost =>
        cases reopen with
        | false => simp [KVStore.checkpoint, saveToFileUnlocked, ho, Log.Wal.open] at h
        | true => simp [KVStore.checkpoint, saveToFileUnlocked, ho, Log.Wal.open]
    · simp [KVStore.checkpoint, ho] at h
  exact hstore h

/-- **The map of the next process** has the newest versions of the memtable. -/
lemma reopen_map {w : StoreWorld} {io : CheckpointIo} (h : (w.checkpoint io).1 = true)
    (hsave : io.save = .ok)
    (hok : ∀ r ∈ rows w.store.memtable.entries, LineOk r) (key : Bytes) :
    (w.checkpoint io).2.reopen.world.map[key]? =
      (versionsOf w.store.memtable.entries key).getLast?.bind Version.value := by
  obtain ⟨hsnap, hwal⟩ := checkpoint_files h
  rw [hsave] at hsnap
  set w' := (w.checkpoint io).2 with hw'
  have hfiles := FlushWorker.runOn_files w'.store.flushWorker.stepsLeft
    w'.store.flushWorker.stop w'.disk
  have hcont := start_of_snapshot (d := w'.store.close w'.disk) (hfiles.2.trans hsnap) hok
    (hfiles.1.trans hwal)
  have hstart : w'.reopen.store = (Process.start (w'.store.close w'.disk)).store := rfl
  rw [← versionsIn_rows, world, hstart]
  exact hcont.map key

/-- **The records of an object in the memtable**: the metadata record, and the chunks that it
names. -/
structure Kept (w : StoreWorld) (b k : Bytes) : Prop where
  metadata : versionsOf w.store.memtable.entries (objectMetaKey b k) ≠ []
  chunks : ∀ m, metadataOf w.world.map (objectName b k) = some m → ∀ i < m.chunkCount,
    versionsOf w.store.memtable.entries (chunkKey m.objectId i) ≠ []

/-- **The object survives**: the next process finds the bytes that were put last. -/
def Survives (w : StoreWorld) (past : List Op) (b k : Bytes) : Prop :=
  ∀ req, lastAccepted past b k = some (.putObject req) →
    (w.objectAt b k).found = true ∧ (w.objectAt b k).data = req.data

/-- What a record of the memtable becomes. -/
lemma reopen_kept {w : StoreWorld} {io : CheckpointIo} (h : (w.checkpoint io).1 = true)
    (hsave : io.save = .ok)
    (hok : ∀ r ∈ rows w.store.memtable.entries, LineOk r) (hrecent : Recent A w.store) (key : Bytes) :
    (versionsOf w.store.memtable.entries key ≠ [] →
      (w.checkpoint io).2.reopen.world.map[key]? = w.world.map[key]?) ∧
    (versionsOf w.store.memtable.entries key = [] →
      (w.checkpoint io).2.reopen.world.map[key]? = none) := by
  have hmap := reopen_map h hsave hok key
  refine ⟨fun hne => hmap.trans (hrecent.newest key hne).symm, fun hnil => ?_⟩
  rw [hmap, hnil]
  rfl

/-- **A committed object after the checkpoint**: it is found if its records were in the memtable, and
only then. -/
lemma objectAt_reopen {w : StoreWorld} {io : CheckpointIo} (h : (w.checkpoint io).1 = true)
    (hsave : io.save = .ok)
    (hok : ∀ r ∈ rows w.store.memtable.entries, LineOk r) (hrecent : Recent A w.store)
    {b k : Bytes} {req : PutObjectRequest}
    (hholds : Holds o w.world.map (objectName b k) (some req)) :
    (((w.checkpoint io).2.reopen.objectAt b k).found = true ↔ w.Kept b k) ∧
      (w.Kept b k → (w.checkpoint io).2.reopen.objectAt b k = w.objectAt b k) := by
  set w' := (w.checkpoint io).2.reopen with hw'
  have hkept := reopen_kept h hsave hok hrecent
  obtain ⟨id, now, hobj⟩ := hholds.objectAt_some
  have hsame : w.Kept b k → w'.objectAt b k = w.objectAt b k := fun hk => by
    rw [objectAt_eq, objectAt_eq]
    exact objectAt_congr ((hkept _).1 hk.metadata) fun m hm _ i hi => (hkept _).1 (hk.chunks m hm i hi)
  refine ⟨⟨fun hfound => ?_, fun hk => ?_⟩, hsame⟩
  · rw [objectAt_eq] at hfound
    have hmeta : versionsOf w.store.memtable.entries (objectMetaKey b k) ≠ [] := fun hnil => by
      rw [objectAt_none ((hkept _).2 hnil)] at hfound
      simp at hfound
    refine ⟨hmeta, fun m hm i hi hnil => ?_⟩
    have hm' : metadataOf w'.world.map (objectName b k) = some m := by
      rw [metadataOf_congr, hm]
      rw [← objectMetaKey_eq]
      exact (hkept _).1 hmeta
    rw [objectAt_missing hm' ⟨i, hi, (hkept _).2 hnil⟩] at hfound
    simp at hfound
  · rw [hsame hk, objectAt_eq, hobj]

end StoreWorld

/-! ### The main result -/

/-- The call creates a bucket or puts an object. -/
def Op.Adds : Op → Prop
  | .createBucket _ | .putObject _ => True
  | _ => False

/-- The names of the records have no tab. -/
lemma Op.records_of_tabFree {o : ObjectStore} {op : Op} (h : op.TabFree) (hadds : op.Adds) :
    op.Records o fun key _ => tab ∉ key := by
  have hcolon : tab ≠ colon := by decide
  cases op with
  | createBucket b =>
    intro now
    have hb : tab ∉ b := h
    simp only [bucketMetaKey, List.mem_append, not_or]
    exact ⟨by decide, hb⟩
  | putObject req =>
    obtain ⟨hb, hk, -⟩ : tab ∉ req.bucket ∧ tab ∉ req.key ∧ tab ∉ req.contentType := h
    have htext : ∀ s : Bytes, tab ∉ s → tab ∉ s ++ req.bucket ++ [colon] ++ req.key := fun s hs => by
      simp [hs, hb, hk, hcolon]
    intro ms now
    refine ⟨fun i => ?_, htext _ (by decide), htext _ (by decide)⟩
    simp [chunkKey, objectIdAt, hb, hk, hcolon, tab_notMem_decimal]
    decide
  | deleteObject b k => exact hadds.elim
  | garbageCollectChunks => exact hadds.elim

/-- Without deletions the map of the names has what was put under them. -/
lemma catalogOf_isSome {past : List Op} (hadds : ∀ op ∈ past, op.Adds) {req : PutObjectRequest}
    (hreq : .putObject req ∈ past) : (catalogOf past (objectName req.bucket req.key)).isSome := by
  induction past using List.reverseRecOn with
  | nil => simp at hreq
  | append_singleton past op ih =>
    have ih := ih fun op h => hadds op (by simp [h])
    have hop := hadds op (by simp)
    rw [catalogOf_concat]
    cases op with
    | createBucket b => exact ih (by simpa using hreq)
    | putObject new =>
      have hrec : (Op.putObject new).record (catalogOf past) =
          Function.update (catalogOf past) (objectName new.bucket new.key) (some new) := rfl
      rw [hrec]
      by_cases hn : objectName req.bucket req.key = objectName new.bucket new.key
      · rw [hn, Function.update_self]
        rfl
      · rw [Function.update_of_ne hn]
        refine ih ((List.mem_append.mp hreq).resolve_right fun hmem => hn ?_)
        rw [Op.putObject.inj (List.mem_singleton.mp hmem)]
    | deleteObject b k => exact hop.elim
    | garbageCollectChunks => exact hop.elim

/-- **Objects over a checkpoint.** In every run of `CreateBucket` and `PutObject` on a store opened on
an empty machine, with names and content types without tabs and data of fewer than `2 ^ 32` chunks,
whatever the worker does between the calls: when a checkpoint returns true, the bytes of the snapshot
reach its file and the store is opened again, and no record in the memtable has a newline, every
object is found with the bytes put last exactly when the records of all objects are in the memtable
and no other object was put under the same joined name with other bytes. -/
theorem objects_survive_iff {o : ObjectStore} {ops past : List Op} {clock : Stream' UInt64}
    {orders : Stream' Shuffle} {turns : Stream' ℕ} {w : StoreWorld} {io : CheckpointIo}
    (hadds : ∀ op ∈ ops, op.Adds) (htab : ∀ op ∈ ops, op.TabFree) (hfits : ∀ op ∈ ops, op.Fits o)
    (hrun : StoreWorld.run o ops (.start clock orders turns) = w)
    (hpast : StoreWorld.accepted o ops (.start clock orders turns) = past)
    (hcp : (w.checkpoint io).1 = true) (hsave : io.save = .ok) (hlt : w.store.seq < 2 ^ 64)
    (hline : ∀ r ∈ rows w.store.memtable.entries,
      newline ∉ r.1 ∧ ∀ x, r.2.value = some x → newline ∉ x) :
    (∀ b k, (w.checkpoint io).2.reopen.Survives past b k) ↔
      ∀ b k req, lastAccepted past b k = some (.putObject req) → w.Kept b k ∧
        (catalogOf past (objectName b k)).map PutObjectRequest.data = some req.data := by
  obtain ⟨hworld, haccepted, hready⟩ := StoreWorld.run_world
    (fun op h => Op.records_of_tabFree (o := o) (htab op h) (hadds op h))
    (StoreWorld.start_ready clock orders turns)
  rw [hrun] at hworld hready
  rw [hpast] at haccepted
  have hrep : Represents o w.world.map past := by
    rw [hworld, haccepted]
    exact represents_run rfl htab
  have hmem : ∀ op ∈ past, op ∈ ops := fun op h =>
    (exists_of_mem_accepted (haccepted ▸ h)).1
  have hlines : ∀ r ∈ rows w.store.memtable.entries, LineOk r := by
    rintro ⟨key, v⟩ hr
    obtain ⟨htabs, hle⟩ := hready.recent.rows key v (mem_rows.mp hr)
    exact ⟨htabs, (hline _ hr).1, hle.trans_lt hlt, (hline _ hr).2⟩
  -- what each stored object is before and after the checkpoint
  have hobject : ∀ b k req, lastAccepted past b k = some (.putObject req) → ∃ req',
      catalogOf past (objectName b k) = some req' ∧ (w.objectAt b k).data = req'.data ∧
      (w.objectAt b k).found = true ∧
      (((w.checkpoint io).2.reopen.objectAt b k).found = true ↔ w.Kept b k) ∧
      (w.Kept b k → (w.checkpoint io).2.reopen.objectAt b k = w.objectAt b k) := by
    intro b k req hlast
    obtain ⟨hin, rfl, rfl⟩ := of_lastAccepted hlast
    obtain ⟨req', hcat⟩ := Option.isSome_iff_exists.mp
      (catalogOf_isSome (fun op h => hadds op (hmem op h)) hin)
    have hholds : Holds o w.world.map (objectName req.bucket req.key) (some req') :=
      hcat ▸ hrep.objects _
    obtain ⟨id, now, hobj⟩ := hholds.objectAt_some
    have hfit : (Op.putObject req').Fits o := hfits _ (hmem _ (mem_of_catalogOf hcat))
    obtain ⟨h1, h2⟩ := StoreWorld.objectAt_reopen hcp hsave hlines hready.recent hholds
    rw [StoreWorld.objectAt_eq w, hobj] at h2 ⊢
    exact ⟨req', hcat, o.flatMap_chunks hfit, rfl, h1, h2⟩
  constructor
  · intro hall b k req hlast
    obtain ⟨req', hcat, hdata, -, hiff, hsame⟩ := hobject b k req hlast
    obtain ⟨hfound, hbytes⟩ := hall b k req hlast
    have hkept := hiff.mp hfound
    rw [hsame hkept, hdata] at hbytes
    exact ⟨hkept, by rw [hcat, Option.map_some, hbytes]⟩
  · intro hall b k req hlast
    obtain ⟨req', hcat, hdata, -, hiff, hsame⟩ := hobject b k req hlast
    obtain ⟨hkept, hbytes⟩ := hall b k req hlast
    rw [hcat, Option.map_some, Option.some.injEq] at hbytes
    exact ⟨hiff.mpr hkept, by rw [hsame hkept, hdata, hbytes]⟩

/-- A clock that stands still, scans in order, and a worker that takes no step. -/
def StoreWorld.quiet : StoreWorld := .start (fun _ => 0) (fun _ => ⟨id, List.Perm.refl⟩) fun _ => 0

/-- An object of two chunks. -/
def putOnce (data : Bytes) (h : data.length < 2 ^ 64) : List Op :=
  [.createBucket (text "b"), .putObject (requestOf data h)]

/-- An object without newlines is read back. -/
theorem objects_survive_iff_small : ∃ w, StoreWorld.run smallStore
      (putOnce (text "new") (by decide)) .quiet = w ∧
    ((w.checkpoint .ok).2.reopen.objectAt (text "b") (text "k")).found = true ∧
    ((w.checkpoint .ok).2.reopen.objectAt (text "b") (text "k")).data = text "new" := by
  have hpast : StoreWorld.accepted smallStore (putOnce (text "new") (by decide)) .quiet =
      putOnce (text "new") (by decide) := by decide +kernel
  refine ⟨_, rfl, ?_⟩
  refine (objects_survive_iff (by simp [putOnce, Op.Adds]) (by simp [putOnce, Op.TabFree, requestOf]; decide)
    (by simp [putOnce, Op.Fits, requestOf]; decide) rfl hpast (by decide +kernel) rfl (by decide +kernel)
    (by decide +kernel)).mpr ?_ (text "b") (text "k") (requestOf (text "new") (by decide))
      (by decide +kernel)
  intro b k req hlast
  obtain ⟨hin, rfl, rfl⟩ := of_lastAccepted hlast
  obtain rfl : req = requestOf (text "new") (by decide) := by simpa [putOnce] using hin
  refine ⟨⟨by decide +kernel, ?_⟩, by decide +kernel⟩
  decide +kernel

/-- **A chunk with a newline**: the loader stops in it, and the metadata behind it is lost. -/
theorem newline_loses_object : ∃ w, StoreWorld.run smallStore
      (putOnce (text "\nx") (by decide)) .quiet = w ∧
    (w.objectAt (text "b") (text "k")).found = true ∧ (w.checkpoint .ok).1 = true ∧
    ((w.checkpoint .ok).2.reopen.objectAt (text "b") (text "k")).found = false ∧
    ¬ (w.checkpoint .ok).2.reopen.Survives
      (StoreWorld.accepted smallStore (putOnce (text "\nx") (by decide)) .quiet) (text "b") (text "k") := by
  set w := StoreWorld.run smallStore (putOnce (text "\nx") (by decide)) .quiet
  have hlost : ((w.checkpoint .ok).2.reopen.objectAt (text "b") (text "k")).found = false := by
    decide +kernel
  refine ⟨w, rfl, by decide +kernel, by decide +kernel, hlost, fun h => ?_⟩
  have hfound := (h (requestOf (text "\nx") (by decide)) (by decide +kernel)).1
  rw [hlost] at hfound
  cases hfound

/-- **A snapshot that is still in the stream** when it is closed may be lost behind an answer of true:
the log is removed all the same, and no object is found. -/
theorem unflushed_snapshot_loses {w : StoreWorld} {io : CheckpointIo}
    (h : (w.checkpoint io).1 = true) (hsave : io.save = .lost 0) (b k : Bytes) :
    ((w.checkpoint io).2.reopen.objectAt b k).found = false := by
  obtain ⟨hsnap, hwal⟩ := StoreWorld.checkpoint_files h
  rw [hsave] at hsnap
  set w' := (w.checkpoint io).2
  have hkept := FlushWorker.runOn_files w'.store.flushWorker.stepsLeft
    w'.store.flushWorker.stop w'.disk
  have hcont := start_of_snapshot (e := ∅) (d := w'.store.close w'.disk) (hkept.2.trans hsnap)
    (by simp [rows]) (hkept.1.trans hwal)
  have hnone : w'.reopen.world.map[objectMetaKey b k]? = none := hcont.map _
  rw [StoreWorld.objectAt_eq, objectAt_none hnone]

end VeriStore.Object

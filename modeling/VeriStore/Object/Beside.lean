import VeriStore.Object.Catalog

/-!
A collection beside a writer.

The calls of one `PutObject` and one `GarbageCollectChunks` interleave in any order (`Interleaved`).
The object that is put is found afterwards exactly in the orders that spare it (`Spared`): the
collector lists the chunks before the first one is written, or reads the metadata behind its write
(`put_beside_collection`). In any other order a chunk is swept (`collection_sweeps_new_chunk`).

The proof follows both programs at once: `WriterAt` and `CollectorAt` say where they are, `Shared`
what the writer has done to the records, and `Marking` and `Sweeping` what the collector knows.
-/

namespace VeriStore.Object

open VeriStore.Lib VeriStore.Lib.Prog VeriStore.Store

/-! ### Orders of the calls -/

/-- A call of the writer or of the collector. -/
abbrev Event := KvCall ⊕ KvCall

def ChunkWritten (id : Bytes) (e : Event) : Prop := ∃ i v, e = .inl (.put (chunkKey id i) v)

def ChunksListed (e : Event) : Prop := e = .inr (.listKeys (text "objchunk:"))

def MetadataWritten (b k : Bytes) (e : Event) : Prop := ∃ v, e = .inl (.put (objectMetaKey b k) v)

def MetadataRead (b k : Bytes) (e : Event) : Prop := e = .inr (.get (objectMetaKey b k))

/-- **The orders that spare an object**: no chunk is written before the chunks are listed, or its
metadata is written before it is read. -/
def Spared (b k id : Bytes) (l : List Event) : Prop :=
  ¬ Before (ChunkWritten id) ChunksListed l ∨ Before (MetadataWritten b k) (MetadataRead b k) l

/-- No record belongs to the id. -/
def Fresh (map : KvMap) (id : Bytes) : Prop :=
  (∀ name m, metadataOf map name = some m → m.objectId ≠ id) ∧ ∀ i, map[chunkKey id i]? = none

section Beside

variable (o : ObjectStore) (req : PutObjectRequest) (s₀ : KvWorld)

/-! ### The writer -/

/-- The writer behind its metadata. -/
def writeIndex (id : Bytes) : Kv PutObjectResult := do
  Kv.put (bucketIndexKey req.bucket req.key) id
  let flushed ← Kv.flushWal
  if !flushed then pure { error := text "failed to flush WAL" } else pure (o.putAnswer req id)

/-- The writer behind its chunks. -/
def writeMetadata (id : Bytes) (now : UInt64) : Kv PutObjectResult := do
  Kv.put (objectMetaKey req.bucket req.key) (serializeMetadata (o.newMetadata req id now))
  writeIndex o req id

/-- **Where the writer is**: how many chunks it has written, and whether it has written the
metadata. -/
inductive WriterAt : Kv PutObjectResult → ℕ → Bool → KvWorld → Prop
  | refused (r : PutObjectResult) (hr : r.ok = false) (s : KvWorld) : WriterAt (.ret r) 0 false s
  | start (s : KvWorld) (hclock : s.clock = s₀.clock) : WriterAt (o.putObject req) 0 false s
  | known (s : KvWorld) (hclock : s.clock = s₀.clock) : WriterAt (do
      let _existing ← Kv.get (objectMetaKey req.bucket req.key)
      let objectId ← makeObjectId req.bucket req.key
      let now ← Kv.nowEpochMs
      o.writeObject req objectId now) 0 false s
  | checked (s : KvWorld) (hclock : s.clock = s₀.clock) : WriterAt (do
      let objectId ← makeObjectId req.bucket req.key
      let now ← Kv.nowEpochMs
      o.writeObject req objectId now) 0 false s
  | named (s : KvWorld) : WriterAt (do
      let now ← Kv.nowEpochMs
      o.writeObject req (req.objectId s₀) now) 0 false s
  | chunks (now : UInt64) (n : ℕ) (hn : n ≤ o.chunkCount req.data.length) (s : KvWorld) :
      WriterAt (do
        o.writeChunks (req.objectId s₀) req.data
          (List.range' n (o.chunkCount req.data.length - n))
        writeMetadata o req (req.objectId s₀) now) n false s
  | index (s : KvWorld) :
      WriterAt (writeIndex o req (req.objectId s₀)) (o.chunkCount req.data.length) true s
  | flush (s : KvWorld) : WriterAt (do
      let flushed ← Kv.flushWal
      if !flushed then pure { error := text "failed to flush WAL" }
      else pure (o.putAnswer req (req.objectId s₀))) (o.chunkCount req.data.length) true s
  | done (s : KvWorld) :
      WriterAt (.ret (o.putAnswer req (req.objectId s₀))) (o.chunkCount req.data.length) true s

/-- A call of the writer that touches neither chunks nor metadata. -/
def Quiet : KvCall → Prop
  | .put key _ => key = bucketIndexKey req.bucket req.key
  | .del _ => False
  | _ => True

/-- **What one call of the writer is.** -/
inductive WriterStep : ℕ → Bool → KvCall → ℕ → Bool → Prop
  | quiet (n : ℕ) (d : Bool) (c : KvCall) (hc : Quiet req c) : WriterStep n d c n d
  | chunk (n : ℕ) (hn : n < o.chunkCount req.data.length) : WriterStep n false
      (.put (chunkKey (req.objectId s₀) n) (o.chunkValue req.data n)) (n + 1) false
  | commit (now : UInt64) : WriterStep (o.chunkCount req.data.length) false
      (.put (objectMetaKey req.bucket req.key)
        (serializeMetadata (o.newMetadata req (req.objectId s₀) now)))
      (o.chunkCount req.data.length) true

variable {o req s₀}

/-- The writer goes on from call to call. -/
lemma WriterAt.step {c : KvCall} {k : KvAnswer c → Kv PutObjectResult} {n : ℕ} {d : Bool}
    {s : KvWorld} (h : WriterAt o req s₀ (.call c k) n d s) :
    ∃ n' d', WriterAt o req s₀ (k (kvService c s).1) n' d' (kvService c s).2 ∧
      WriterStep o req s₀ n d c n' d' := by
  generalize hp : Prog.call c k = p at h
  cases h with
  | refused r hr => cases hp
  | start _ hclock =>
    unfold ObjectStore.putObject at hp
    split at hp
    · cases hp
    · next hb =>
      split at hp
      · cases hp
      · rw [bucketExists, if_neg hb] at hp
        cases hp
        refine ⟨0, false, ?_, .quiet _ _ _ trivial⟩
        change WriterAt o req s₀
          (Prog.bind (.ret (s.map[bucketMetaKey req.bucket]?).isSome) _) 0 false s
        cases s.map[bucketMetaKey req.bucket]?.isSome with
        | false => exact .refused _ rfl _
        | true => exact .known _ hclock
  | known _ hclock =>
    cases hp
    exact ⟨0, false, .checked _ hclock, .quiet _ _ _ trivial⟩
  | checked _ hclock =>
    cases hp
    refine ⟨0, false, ?_, .quiet _ _ _ trivial⟩
    have hid : objectIdAt req.bucket req.key s.clock.head = req.objectId s₀ := by
      rw [hclock, PutObjectRequest.objectId]
    change WriterAt o req s₀ (do
      let now ← Kv.nowEpochMs
      o.writeObject req (objectIdAt req.bucket req.key s.clock.head) now) 0 false _
    rw [hid]
    exact .named _
  | named =>
    cases hp
    refine ⟨0, false, ?_, .quiet _ _ _ trivial⟩
    have h : WriterAt o req s₀ _ 0 false { s with clock := s.clock.tail } :=
      .chunks s.clock.head 0 (Nat.zero_le _) _
    rw [Nat.sub_zero, ← List.range_eq_range'] at h
    exact h
  | chunks now n hn =>
    rcases Nat.lt_or_eq_of_le hn with hlt | rfl
    · obtain ⟨r, hr⟩ : ∃ r, o.chunkCount req.data.length - n = r + 1 :=
        ⟨o.chunkCount req.data.length - n - 1, by omega⟩
      rw [hr, List.range'_succ] at hp
      cases hp
      refine ⟨n + 1, false, ?_, .chunk n hlt⟩
      have h : WriterAt o req s₀ _ (n + 1) false
          (kvService (.put (chunkKey (req.objectId s₀) n) (o.chunkValue req.data n)) s).2 :=
        .chunks now (n + 1) hlt _
      rw [show o.chunkCount req.data.length - (n + 1) = r by omega] at h
      exact h
    · rw [Nat.sub_self, List.range'_zero] at hp
      cases hp
      exact ⟨_, true, .index _, .commit now⟩
  | index =>
    cases hp
    exact ⟨_, true, .flush _, .quiet _ _ _ rfl⟩
  | flush =>
    cases hp
    exact ⟨_, true, .done _, .quiet _ _ _ trivial⟩
  | done => cases hp

/-! ### The records -/

variable (o req s₀)

/-- **What the writer has done so far**: `n` chunks, and the metadata if `d` says so. -/
structure Shared (n : ℕ) (d : Bool) (s : KvWorld) (l : List Event) : Prop where
  le : n ≤ o.chunkCount req.data.length
  full : d = true → n = o.chunkCount req.data.length
  others : ∀ name, name ≠ objectName req.bucket req.key → ∀ m, metadataOf s.map name = some m →
    m.objectId ≠ req.objectId s₀
  before : d = false → ∀ m, metadataOf s.map (objectName req.bucket req.key) = some m →
    m.objectId ≠ req.objectId s₀
  own : d = true → ∃ now, metadataOf s.map (objectName req.bucket req.key) =
    some (o.newMetadata req (req.objectId s₀) now)
  unwritten : ∀ i, n ≤ i → s.map[chunkKey (req.objectId s₀) i]? = none
  chunks : (∃ e ∈ l, ChunkWritten (req.objectId s₀) e) ↔ 0 < n
  commit : (∃ e ∈ l, MetadataWritten req.bucket req.key e) ↔ d = true

/-- What the collector knows while it marks ids. -/
structure Marking (ids : List Bytes) (n : ℕ) (s : KvWorld) (l : List Event) : Prop where
  notListed : ¬ Before (ChunkWritten (req.objectId s₀)) ChunksListed l
  marked : req.objectId s₀ ∈ ids ↔
    Before (MetadataWritten req.bucket req.key) (MetadataRead req.bucket req.key) l
  present : ∀ i < n, s.map[chunkKey (req.objectId s₀) i]? = some (o.chunkValue req.data i)

/-- **What it knows while it sweeps**: the object is spared, or one of its chunks is among those to
come or gone. -/
def Sweeping (reachable names : List Bytes) (n : ℕ) (s : KvWorld) (l : List Event) : Prop :=
  (Spared req.bucket req.key (req.objectId s₀) l ∧
      (∀ i < n, s.map[chunkKey (req.objectId s₀) i]? = some (o.chunkValue req.data i)) ∧
      (req.objectId s₀ ∈ reachable ∨ ∀ i, chunkKey (req.objectId s₀) i ∉ names)) ∨
    (¬ Spared req.bucket req.key (req.objectId s₀) l ∧ req.objectId s₀ ∉ reachable ∧
      ∃ i < n, chunkKey (req.objectId s₀) i ∈ names ∨ s.map[chunkKey (req.objectId s₀) i]? = none)

variable {o req s₀}

/-- An event of the writer is none of the collector's. -/
lemma before_listed_writer {P : Event → Prop} (l : List Event) (c : KvCall) :
    Before P ChunksListed (l ++ [.inl c]) ↔ Before P ChunksListed l := by
  simp [before_concat, ChunksListed]

lemma before_read_writer {P : Event → Prop} {b k : Bytes} (l : List Event) (c : KvCall) :
    Before P (MetadataRead b k) (l ++ [.inl c]) ↔ Before P (MetadataRead b k) l := by
  simp [before_concat, MetadataRead]

lemma spared_writer (l : List Event) (c : KvCall) :
    Spared req.bucket req.key (req.objectId s₀) (l ++ [.inl c]) ↔
      Spared req.bucket req.key (req.objectId s₀) l := by
  simp only [Spared, before_listed_writer, before_read_writer]

/-! ### A call of the writer -/

section Writer

variable {n n' : ℕ} {d d' : Bool} {c : KvCall} {s : KvWorld} {l : List Event}

/-- A quiet call changes neither metadata nor chunks. -/
lemma Quiet.lookup (hc : Quiet req c) (s : KvWorld) {kind : RecordKind} (hkind : kind ≠ .bucketIndex)
    (rest : Bytes) :
    (kvService c s).2.map[recordKey kind rest]? = s.map[recordKey kind rest]? := by
  cases c with
  | put key value =>
    refine (lookup_insert _ _ _ _).trans (if_neg ?_)
    rw [show key = bucketIndexKey req.bucket req.key from hc, bucketIndexKey_eq]
    simp [Ne.symm hkind]
  | del key => exact hc.elim
  | _ => rfl

/-- **The records behind a call of the writer.** -/
lemma WriterStep.shared (hstep : WriterStep o req s₀ n d c n' d') (h : Shared o req s₀ n d s l)
    (htab : (Op.putObject req).TabFree) :
    Shared o req s₀ n' d' (kvService c s).2 (l ++ [.inl c]) := by
  cases hstep with
  | quiet n d c hc =>
    have hmeta : ∀ name, metadataOf (kvService c s).2.map name = metadataOf s.map name := fun name =>
      metadataOf_congr (hc.lookup s (by simp) name)
    have hno : ¬ ChunkWritten (req.objectId s₀) (.inl c) ∧
        ¬ MetadataWritten req.bucket req.key (.inl c) := by
      constructor
      · rintro ⟨i, v, e⟩
        cases e
        simp [Quiet, chunkKey_eq, bucketIndexKey_eq] at hc
      · rintro ⟨v, e⟩
        cases e
        simp [Quiet, objectMetaKey_eq, bucketIndexKey_eq] at hc
    refine ⟨h.le, h.full, ?_, ?_, ?_, fun i hi => ?_, ?_, ?_⟩
    · simpa only [hmeta] using h.others
    · simpa only [hmeta] using h.before
    · simpa only [hmeta] using h.own
    · rw [chunkKey_eq, hc.lookup s (by simp), ← chunkKey_eq]
      exact h.unwritten i hi
    · simpa [or_and_right, exists_or, hno.1] using h.chunks
    · simpa [or_and_right, exists_or, hno.2] using h.commit
  | chunk n hn =>
    have hmeta : ∀ name, metadataOf (s.map.insert (chunkKey (req.objectId s₀) n)
        (o.chunkValue req.data n)) name = metadataOf s.map name := fun name =>
      metadataOf_congr (by rw [lookup_insert, if_neg (by simp [chunkKey_eq])])
    refine ⟨hn, by simp, ?_, ?_, by simp, fun i hi => ?_, ?_, ?_⟩
    · simpa only [kvService, hmeta] using h.others
    · simpa only [kvService, hmeta] using h.before
    · refine (lookup_insert _ _ _ _).trans ?_
      rw [if_neg fun e => absurd (chunkKey_inj.mp e).2 (by omega)]
      exact h.unwritten i (by omega)
    · exact ⟨fun _ => Nat.succ_pos n, fun _ => ⟨_, List.mem_concat_self, n, _, rfl⟩⟩
    · have hno : ¬ MetadataWritten req.bucket req.key
          (.inl (.put (chunkKey (req.objectId s₀) n) (o.chunkValue req.data n))) := by
        rintro ⟨v, e⟩
        have hkey : chunkKey (req.objectId s₀) n = objectMetaKey req.bucket req.key := by
          injection e with e
          injection e
        simp [chunkKey_eq, objectMetaKey_eq] at hkey
      simpa [or_and_right, exists_or, hno] using h.commit
  | commit now =>
    have hother : ∀ {key : Bytes}, key ≠ objectMetaKey req.bucket req.key →
        (kvService (.put (objectMetaKey req.bucket req.key)
          (serializeMetadata (o.newMetadata req (req.objectId s₀) now))) s).2.map[key]? =
          s.map[key]? := fun hne => (lookup_insert _ _ _ _).trans (if_neg hne.symm)
    refine ⟨h.le, fun _ => rfl, fun name hname m hm => ?_, by simp, fun _ => ⟨now, ?_⟩,
      fun i hi => ?_, ?_, ?_⟩
    · refine h.others name hname m ?_
      rwa [metadataOf_congr (hother (by simpa [objectMetaKey_eq] using hname))] at hm
    · have hplain := o.newMetadata_plain req htab s₀.clock.head now
      rw [metadataOf, ← objectMetaKey_eq]
      refine (congrArg (Option.bind · deserializeMetadata) (lookup_insert _ _ _ _)).trans ?_
      rw [if_pos rfl, Option.bind_some]
      exact deserializeMetadata_serializeMetadata hplain
    · rw [hother (by simp [chunkKey_eq, objectMetaKey_eq])]
      exact h.unwritten i hi
    · have hno : ¬ ChunkWritten (req.objectId s₀) (.inl (.put (objectMetaKey req.bucket req.key)
          (serializeMetadata (o.newMetadata req (req.objectId s₀) now)))) := by
        rintro ⟨i, v, e⟩
        have hkey : objectMetaKey req.bucket req.key = chunkKey (req.objectId s₀) i := by
          injection e with e
          injection e
        simp [chunkKey_eq, objectMetaKey_eq] at hkey
      simpa [or_and_right, exists_or, hno] using h.chunks
    · exact ⟨fun _ => rfl, fun _ => ⟨_, List.mem_concat_self, _, rfl⟩⟩

/-- The writer touches no chunk it has written. -/
lemma WriterStep.chunk_eq (hstep : WriterStep o req s₀ n d c n' d') (s : KvWorld) {i : ℕ}
    (hi : i < n) : (kvService c s).2.map[chunkKey (req.objectId s₀) i]? =
      s.map[chunkKey (req.objectId s₀) i]? := by
  cases hstep with
  | quiet n d c hc =>
    rw [chunkKey_eq]
    exact hc.lookup s (by simp) _
  | chunk n hn =>
    exact (lookup_insert _ _ _ _).trans (if_neg fun e => absurd (chunkKey_inj.mp e).2 (by omega))
  | commit now =>
    exact (lookup_insert _ _ _ _).trans (if_neg (by simp [chunkKey_eq, objectMetaKey_eq]))

/-- The chunks that are there stay, and a new one is there. -/
lemma WriterStep.present (hstep : WriterStep o req s₀ n d c n' d') {s : KvWorld}
    (h : ∀ i < n, s.map[chunkKey (req.objectId s₀) i]? = some (o.chunkValue req.data i)) :
    ∀ i < n', (kvService c s).2.map[chunkKey (req.objectId s₀) i]? =
      some (o.chunkValue req.data i) := by
  intro i hi
  by_cases hold : i < n
  · rw [hstep.chunk_eq s hold]
    exact h i hold
  · cases hstep with
    | quiet n d c hc => exact absurd hi hold
    | chunk n hn =>
      obtain rfl : i = n := by omega
      exact (lookup_insert _ _ _ _).trans (if_pos rfl)
    | commit now => exact absurd hi hold

lemma WriterStep.le (hstep : WriterStep o req s₀ n d c n' d') : n ≤ n' := by
  cases hstep with
  | quiet => exact le_rfl
  | chunk => omega
  | commit => exact le_rfl

lemma Marking.writer {ids : List Bytes} (h : Marking o req s₀ ids n s l)
    (hstep : WriterStep o req s₀ n d c n' d') :
    Marking o req s₀ ids n' (kvService c s).2 (l ++ [.inl c]) where
  notListed := by simpa only [before_listed_writer] using h.notListed
  marked := by simpa only [before_read_writer] using h.marked
  present := hstep.present h.present

lemma Sweeping.writer {reachable names : List Bytes}
    (h : Sweeping o req s₀ reachable names n s l) (hstep : WriterStep o req s₀ n d c n' d') :
    Sweeping o req s₀ reachable names n' (kvService c s).2 (l ++ [.inl c]) := by
  unfold Sweeping
  rw [spared_writer]
  rcases h with ⟨hspared, hpresent, hsafe⟩ | ⟨hlost, hun, i, hi, hgone⟩
  · exact Or.inl ⟨hspared, hstep.present hpresent, hsafe⟩
  · refine Or.inr ⟨hlost, hun, i, hi.trans_le hstep.le, hgone.imp_right fun h => ?_⟩
    rw [hstep.chunk_eq s hi]
    exact h

end Writer

/-! ### A call of the collector -/

/-- The calls of the collector. -/
def CollectorCall : KvCall → Prop
  | .put _ _ => False
  | .del key => ∃ rest, key = recordKey .chunk rest
  | .nowEpochMs => False
  | _ => True

section Collector

variable {n : ℕ} {d : Bool} {c : KvCall} {s : KvWorld} {l : List Event}

/-- The collector only deletes, and only chunks. -/
lemma CollectorCall.lookup (hc : CollectorCall c) (s : KvWorld) :
    (kvService c s).2.clock = s.clock ∧
    (∀ kind rest, kind ≠ RecordKind.chunk →
      (kvService c s).2.map[recordKey kind rest]? = s.map[recordKey kind rest]?) ∧
    ∀ key : Bytes, s.map[key]? = none → (kvService c s).2.map[key]? = none := by
  cases c with
  | put key value => exact hc.elim
  | nowEpochMs => exact hc.elim
  | del key =>
    obtain ⟨rest, rfl⟩ := hc
    refine ⟨rfl, fun kind rest' hkind => ?_, fun key hnone => ?_⟩
    · exact (lookup_erase _ _ _).trans (if_neg (by simp [hkind.symm]))
    · refine (lookup_erase _ _ _).trans ?_
      split
      · rfl
      · exact hnone
  | _ => exact ⟨rfl, fun _ _ _ => rfl, fun _ h => h⟩

lemma Shared.collector (h : Shared o req s₀ n d s l) (hc : CollectorCall c) :
    Shared o req s₀ n d (kvService c s).2 (l ++ [.inr c]) := by
  obtain ⟨-, hother, hnone⟩ := hc.lookup s
  have hmeta : ∀ name, metadataOf (kvService c s).2.map name = metadataOf s.map name := fun name =>
    metadataOf_congr (hother _ _ (by simp))
  refine ⟨h.le, h.full, ?_, ?_, ?_, fun i hi => hnone _ (h.unwritten i hi), ?_, ?_⟩
  · simpa only [hmeta] using h.others
  · simpa only [hmeta] using h.before
  · simpa only [hmeta] using h.own
  · simpa [or_and_right, exists_or, ChunkWritten] using h.chunks
  · simpa [or_and_right, exists_or, MetadataWritten] using h.commit

lemma WriterAt.of_clock {p : Kv PutObjectResult} {s' : KvWorld} (h : WriterAt o req s₀ p n d s)
    (hclock : s'.clock = s.clock) : WriterAt o req s₀ p n d s' := by
  cases h with
  | refused r hr => exact .refused r hr s'
  | start _ h => exact .start s' (hclock.trans h)
  | known _ h => exact .known s' (hclock.trans h)
  | checked _ h => exact .checked s' (hclock.trans h)
  | named => exact .named s'
  | chunks now n hn => exact .chunks now n hn s'
  | index => exact .index s'
  | flush => exact .flush s'
  | done => exact .done s'

/-- An event that neither lists chunks nor reads the metadata. -/
lemma spared_collector (hlist : c ≠ .listKeys (text "objchunk:"))
    (hread : c ≠ .get (objectMetaKey req.bucket req.key)) :
    Spared req.bucket req.key (req.objectId s₀) (l ++ [.inr c]) ↔
      Spared req.bucket req.key (req.objectId s₀) l := by
  simp [Spared, before_concat, ChunksListed, MetadataRead, hlist, hread]

end Collector

/-! ### The collector -/

/-- The collector behind its marks. -/
def sweepAll (reachable : List Bytes) : Kv ℕ := do
  let chunkKeys ← Kv.listKeys (text "objchunk:")
  let deleted ← sweepChunks reachable chunkKeys 0
  let _ ← Kv.flushWal
  pure deleted

variable (o req s₀)

/-- **Where the collector is**, and what it knows there. -/
inductive CollectorAt : Kv ℕ → ℕ → KvWorld → List Event → Prop
  | start (n : ℕ) (s : KvWorld) (l : List Event) (h : Marking o req s₀ [] n s l) :
      CollectorAt garbageCollectChunks n s l
  | marking (keys ids : List Bytes) (hkeys : ∀ key ∈ keys, ∃ name, key = recordKey .objectMeta name)
      (n : ℕ) (s : KvWorld) (l : List Event) (h : Marking o req s₀ ids n s l) :
      CollectorAt (reachableIds keys ids >>= sweepAll) n s l
  | sweeping (reachable names : List Bytes) (deleted : ℕ)
      (hnames : ∀ name ∈ names, ∃ rest, name = recordKey .chunk rest)
      (n : ℕ) (s : KvWorld) (l : List Event) (h : Sweeping o req s₀ reachable names n s l) :
      CollectorAt (do
        let deleted ← sweepChunks reachable names deleted
        let _ ← Kv.flushWal
        pure deleted) n s l
  | done (reachable : List Bytes) (k n : ℕ) (s : KvWorld) (l : List Event)
      (h : Sweeping o req s₀ reachable [] n s l) : CollectorAt (.ret k) n s l

variable {o req s₀}

lemma CollectorAt.writer {q : Kv ℕ} {n n' : ℕ} {d d' : Bool} {c : KvCall} {s : KvWorld}
    {l : List Event} (h : CollectorAt o req s₀ q n s l) (hstep : WriterStep o req s₀ n d c n' d') :
    CollectorAt o req s₀ q n' (kvService c s).2 (l ++ [.inl c]) := by
  cases h with
  | start n s l h => exact .start _ _ _ (h.writer hstep)
  | marking keys ids hkeys n s l h => exact .marking keys ids hkeys _ _ _ (h.writer hstep)
  | sweeping reachable names deleted hnames n s l h =>
    exact .sweeping reachable names deleted hnames _ _ _ (h.writer hstep)
  | done reachable k n s l h => exact .done reachable k _ _ _ (h.writer hstep)

/-- The marking loop behind the record it has read. -/
def markRecord (keys ids : List Bytes) (raw : Option Bytes) : Kv (List Bytes) :=
  match raw.bind deserializeMetadata with
  | none => reachableIds keys ids
  | some m =>
    if m.state = .committed then reachableIds keys (m.objectId :: ids) else reachableIds keys ids

/-- The next call of the marking loop. -/
lemma reachableIds_cons (key : Bytes) (keys ids : List Bytes) :
    reachableIds (key :: keys) ids = Prog.call (.get key) (markRecord keys ids) := by
  refine congrArg (Prog.call (KvCall.get key)) (funext fun r => ?_)
  cases r with
  | none => rfl
  | some raw => rfl

lemma markRecord_eq (keys ids : List Bytes) (raw : Option Bytes) :
    ∃ ids', markRecord keys ids raw = reachableIds keys ids' ∧ ∀ id, id ∈ ids' ↔ id ∈ ids ∨
      ∃ m, raw.bind deserializeMetadata = some m ∧ m.state = .committed ∧ m.objectId = id := by
  unfold markRecord
  cases raw.bind deserializeMetadata with
  | none => exact ⟨ids, rfl, by simp⟩
  | some m =>
    by_cases hm : m.state = .committed
    · refine ⟨m.objectId :: ids, by simp [hm], fun id => ?_⟩
      simp only [List.mem_cons, Option.some.injEq, exists_eq_left', hm, true_and]
      rw [eq_comm (a := id), or_comm]
    · exact ⟨ids, by simp [hm], fun id => by simp [hm]⟩

/-- The next call of a sweep. -/
lemma sweepChunks_call (reachable names : List Bytes) (deleted : ℕ) (f : ℕ → Kv ℕ) :
    (∀ name ∈ names, ¬ Swept reachable name) ∧
        sweepChunks reachable names deleted >>= f = f deleted ∨
      ∃ pre name post, names = pre ++ name :: post ∧ (∀ x ∈ pre, ¬ Swept reachable x) ∧
        Swept reachable name ∧ sweepChunks reachable names deleted >>= f =
          Prog.call (.del name) fun gone =>
            sweepChunks reachable post (if gone then deleted + 1 else deleted) >>= f := by
  induction names with
  | nil => exact Or.inl ⟨by simp, rfl⟩
  | cons name names ih =>
    by_cases hswept : Swept reachable name
    · refine Or.inr ⟨[], name, names, rfl, by simp, hswept, ?_⟩
      obtain ⟨id, hid, hun⟩ := hswept
      rw [sweepChunks, hid]
      simp only [if_neg hun]
      rfl
    · have hskip : sweepChunks reachable (name :: names) deleted =
          sweepChunks reachable names deleted := by
        rw [sweepChunks]
        cases hid : chunkOwner name with
        | none => rfl
        | some id =>
          have hmem : id ∈ reachable := by
            by_contra hun
            exact hswept ⟨id, hid, hun⟩
          simp only [if_pos hmem]
      rw [hskip]
      rcases ih with ⟨hnone, heq⟩ | ⟨pre, x, post, rfl, hpre, hx, heq⟩
      · exact Or.inl ⟨by simpa [hswept] using hnone, heq⟩
      · exact Or.inr ⟨name :: pre, x, post, rfl, by simpa [hswept] using hpre, hx, heq⟩

/-- The sweep deletes a chunk of the object if its id is not marked. -/
lemma swept_chunkKey {reachable : List Bytes} (i : ℕ) :
    Swept reachable (chunkKey (req.objectId s₀) i) ↔ req.objectId s₀ ∉ reachable := by
  have howner := chunkOwner_chunkKey (objectIdAt_ne_nil req.bucket req.key s₀.clock.head) i
  constructor
  · rintro ⟨id, hid, hun⟩
    rw [PutObjectRequest.objectId, howner] at hid
    cases hid
    exact hun
  · exact fun hun => ⟨_, howner, hun⟩

section Steps

variable {n : ℕ} {d : Bool} {s : KvWorld} {l : List Event}

/-- **The listing of the chunks** decides what becomes of the object. -/
lemma Marking.listing {ids : List Bytes} (h : Marking o req s₀ ids n s l)
    (hs : Shared o req s₀ n d s l) {names : List Bytes}
    (hnames : ∀ name, name ∈ names ↔ name ∈ keysWith s.map (text "objchunk:")) (orders : Stream' Shuffle) :
    Sweeping o req s₀ ids names n { s with orders := orders }
      (l ++ [.inr (.listKeys (text "objchunk:"))]) := by
  have hlisted : Before (ChunkWritten (req.objectId s₀)) ChunksListed
      (l ++ [.inr (.listKeys (text "objchunk:"))]) ↔ 0 < n := by
    rw [before_concat, hs.chunks]
    simp [h.notListed, ChunksListed]
  have hspared : Spared req.bucket req.key (req.objectId s₀)
      (l ++ [.inr (.listKeys (text "objchunk:"))]) ↔ n = 0 ∨ req.objectId s₀ ∈ ids := by
    rw [Spared, hlisted, before_concat, ← h.marked]
    simp [MetadataRead]
  by_cases hsafe : n = 0 ∨ req.objectId s₀ ∈ ids
  · refine Or.inl ⟨hspared.mpr hsafe, h.present, ?_⟩
    rcases hsafe with rfl | hmem
    · refine Or.inr fun i hi => ?_
      have hsome := (mem_keysWith.mp ((hnames _).mp hi)).2
      rw [hs.unwritten i (Nat.zero_le i)] at hsome
      simp at hsome
    · exact Or.inl hmem
  · obtain ⟨hn, hun⟩ := not_or.mp hsafe
    have hpos : 0 < n := Nat.pos_of_ne_zero hn
    refine Or.inr ⟨fun h => hsafe (hspared.mp h), hun, 0, hpos, Or.inl ?_⟩
    refine (hnames _).mpr (mem_keysWith.mpr ⟨⟨_, chunkKey_eq _ _⟩, ?_⟩)
    rw [h.present 0 hpos]
    rfl

/-- A record read while marking names the id exactly when it is the new metadata. -/
lemma Shared.names_id (hs : Shared o req s₀ n d s l) (name : Bytes) :
    (∃ m, metadataOf s.map name = some m ∧ m.state = .committed ∧ m.objectId = req.objectId s₀) ↔
      d = true ∧ name = objectName req.bucket req.key := by
  constructor
  · rintro ⟨m, hm, -, hid⟩
    have hname : name = objectName req.bucket req.key := by
      by_contra hne
      exact hs.others name hne m hm hid
    subst hname
    cases d with
    | false => exact absurd hid (hs.before rfl m hm)
    | true => exact ⟨rfl, rfl⟩
  · rintro ⟨hd, rfl⟩
    obtain ⟨now, hm⟩ := hs.own hd
    exact ⟨_, hm, rfl, rfl⟩

/-- A record is read while marking. -/
lemma Marking.read {ids ids' : List Bytes} (h : Marking o req s₀ ids n s l)
    (hs : Shared o req s₀ n d s l) (name : Bytes)
    (hids : req.objectId s₀ ∈ ids' ↔ req.objectId s₀ ∈ ids ∨ ∃ m, metadataOf s.map name = some m ∧
      m.state = .committed ∧ m.objectId = req.objectId s₀) :
    Marking o req s₀ ids' n s (l ++ [.inr (.get (recordKey .objectMeta name))]) where
  notListed := by simpa [before_concat, ChunksListed] using h.notListed
  marked := by
    rw [hids, hs.names_id, h.marked, before_concat, hs.commit]
    simp [MetadataRead, objectMetaKey_eq]
  present := h.present

/-- **The collector goes on from call to call.** -/
lemma CollectorAt.step {c : KvCall} {k : KvAnswer c → Kv ℕ}
    (h : CollectorAt o req s₀ (.call c k) n s l) (hs : Shared o req s₀ n d s l) :
    CollectorAt o req s₀ (k (kvService c s).1) n (kvService c s).2 (l ++ [.inr c]) ∧
      CollectorCall c := by
  generalize hp : Prog.call c k = q at h
  cases h with
  | start _ _ _ h =>
    cases hp
    refine ⟨.marking _ [] (fun key hkey => ?_) _ _ _ ⟨?_, ?_, h.present⟩, trivial⟩
    · exact (mem_keysWith.mp (mem_shuffled.mp hkey)).1
    · have hne : text "objmeta:" ≠ text "objchunk:" := by decide
      simpa [before_concat, ChunksListed, hne] using h.notListed
    · simpa [before_concat, MetadataRead] using h.marked
  | marking keys ids hkeys _ _ _ h =>
    cases keys with
    | nil =>
      cases hp
      refine ⟨.sweeping ids _ 0 (fun name hname => ?_) _ _ _ ?_, trivial⟩
      · exact (mem_keysWith.mp (mem_shuffled.mp hname)).1
      · exact h.listing hs (fun name => mem_shuffled) _
    | cons key keys =>
      obtain ⟨name, rfl⟩ := hkeys key (by simp)
      have hrest : ∀ key ∈ keys, ∃ name, key = recordKey .objectMeta name := fun key hkey =>
        hkeys key (by simp [hkey])
      obtain ⟨ids', hk, hids⟩ := markRecord_eq keys ids s.map[recordKey .objectMeta name]?
      rw [reachableIds_cons] at hp
      cases hp
      refine ⟨?_, trivial⟩
      have hnext := CollectorAt.marking keys ids' hrest _ _ _ (h.read hs name (hids _))
      rw [← hk] at hnext
      exact hnext
  | sweeping reachable names deleted hnames _ _ _ h =>
    rcases sweepChunks_call reachable names deleted fun n => Kv.flushWal >>= fun _ => pure n with
      ⟨hnone, heq⟩ | ⟨pre, name, post, rfl, hpre, hname, heq⟩
    · -- nothing is left to delete
      rw [heq] at hp
      cases hp
      refine ⟨.done reachable deleted _ _ _ ?_, trivial⟩
      unfold Sweeping
      rw [spared_collector (by simp) (by simp)]
      rcases h with ⟨hspared, hpresent, -⟩ | ⟨hlost, hun, i, hi, hgone⟩
      · exact Or.inl ⟨hspared, hpresent, Or.inr (by simp)⟩
      · refine Or.inr ⟨hlost, hun, i, hi, Or.inr ?_⟩
        exact hgone.resolve_left fun hmem => hnone _ hmem ((swept_chunkKey i).mpr hun)
    · rw [heq] at hp
      cases hp
      refine ⟨.sweeping reachable post _ (fun x hx => hnames x (by simp [hx])) _ _ _ ?_,
        hnames name (by simp)⟩
      unfold Sweeping
      rw [spared_collector (by simp) (by simp)]
      rcases h with ⟨hspared, hpresent, hsafe⟩ | ⟨hlost, hun, i, hi, hgone⟩
      · refine Or.inl ⟨hspared, fun i hi => ?_, ?_⟩
        · refine (lookup_erase _ _ _).trans ?_
          rw [if_neg]
          · exact hpresent i hi
          · rintro rfl
            rcases hsafe with hmem | hno
            · exact (swept_chunkKey i).mp hname hmem
            · exact hno i (by simp)
        · exact hsafe.imp_right fun hno i hmem => hno i (by simp [hmem])
      · refine Or.inr ⟨hlost, hun, i, hi, ?_⟩
        by_cases hdel : name = chunkKey (req.objectId s₀) i
        · exact Or.inr ((lookup_erase _ _ _).trans (if_pos hdel))
        · rcases hgone with hmem | hnone
          · rcases List.mem_append.mp hmem with hmem | hmem
            · exact absurd ((swept_chunkKey i).mpr hun) (hpre _ hmem)
            · rcases List.mem_cons.mp hmem with rfl | hmem
              · exact absurd rfl hdel
              · exact Or.inl hmem
          · exact Or.inr ((lookup_erase _ _ _).trans ((if_neg hdel).trans hnone))
  | done => cases hp

end Steps

/-! ### The ends -/

/-- A writer that has ended with success has written everything. -/
lemma WriterAt.ret {r : PutObjectResult} {n : ℕ} {d : Bool} {s : KvWorld}
    (h : WriterAt o req s₀ (.ret r) n d s) (hok : r.ok = true) :
    n = o.chunkCount req.data.length ∧ d = true := by
  generalize hp : (Prog.ret r : Kv PutObjectResult) = p at h
  cases h with
  | refused r' hr =>
    cases hp
    rw [hr] at hok
    cases hok
  | done => exact ⟨rfl, rfl⟩
  | start =>
    unfold ObjectStore.putObject at hp
    split at hp
    · cases hp
      cases hok
    · next hb =>
      split at hp
      · cases hp
        cases hok
      · rw [bucketExists, if_neg hb] at hp
        cases hp
  | known => cases hp
  | checked => cases hp
  | named => cases hp
  | chunks now n hn =>
    cases hr : o.chunkCount req.data.length - n with
    | zero =>
      rw [hr, List.range'_zero] at hp
      cases hp
    | succ r =>
      rw [hr, List.range'_succ] at hp
      cases hp
  | index => cases hp
  | flush => cases hp

/-- A collector that has ended has nothing left to sweep. -/
lemma CollectorAt.ret {k n : ℕ} {s : KvWorld} {l : List Event}
    (h : CollectorAt o req s₀ (.ret k) n s l) :
    ∃ reachable, Sweeping o req s₀ reachable [] n s l := by
  generalize hp : (Prog.ret k : Kv ℕ) = q at h
  cases h with
  | start => cases hp
  | marking keys ids =>
    cases keys with
    | nil => cases hp
    | cons key keys =>
      rw [reachableIds_cons] at hp
      cases hp
  | sweeping reachable names deleted =>
    rcases sweepChunks_call reachable names deleted fun n => Kv.flushWal >>= fun _ => pure n with
      ⟨-, heq⟩ | ⟨pre, name, post, -, -, -, heq⟩
    · rw [heq] at hp
      cases hp
    · rw [heq] at hp
      cases hp
  | done reachable k n s l h => exact ⟨reachable, h⟩

/-! ### The two together -/

/-- The state of an interleaving. -/
def Besides (o : ObjectStore) (req : PutObjectRequest) (s₀ : KvWorld) (p : Kv PutObjectResult)
    (q : Kv ℕ) (s : KvWorld) (l : List Event) : Prop :=
  ∃ n d, WriterAt o req s₀ p n d s ∧ CollectorAt o req s₀ q n s l ∧ Shared o req s₀ n d s l

lemma besides_start (hfresh : Fresh s₀.map (req.objectId s₀)) :
    Besides o req s₀ (o.putObject req) garbageCollectChunks s₀ [] := by
  refine ⟨0, false, .start s₀ rfl, .start 0 s₀ [] ⟨not_before_nil, ?_, by simp⟩, ?_⟩
  · simp
  · exact ⟨Nat.zero_le _, by simp, fun name _ => hfresh.1 name, fun _ => hfresh.1 _, by simp,
      fun i _ => hfresh.2 i, by simp, by simp⟩

/-- **Every interleaving keeps the state.** -/
lemma besides_run (htab : (Op.putObject req).TabFree) (hfresh : Fresh s₀.map (req.objectId s₀))
    {l : List Event} {r : PutObjectResult} {k : ℕ} {t : KvWorld}
    (h : Interleaved kvService (o.putObject req) garbageCollectChunks s₀ l r k t) :
    Besides o req s₀ (.ret r) (.ret k) t l := by
  refine h.invariant (I := Besides o req s₀) ?_ ?_ (besides_start hfresh)
  · rintro c k q s l ⟨n, d, hw, hc, hs⟩
    obtain ⟨n', d', hw', hstep⟩ := hw.step
    exact ⟨n', d', hw', hc.writer hstep, hstep.shared hs htab⟩
  · rintro c k p s l ⟨n, d, hw, hc, hs⟩
    obtain ⟨hc', hcall⟩ := hc.step hs
    exact ⟨n, d, hw.of_clock (hcall.lookup s).1, hc', hs.collector hcall⟩

end Beside

/-- **A collection beside a writer.** When the calls of one `PutObject` with a fresh id interleave with
those of one `GarbageCollectChunks` and the put succeeds, the object is found afterwards with its exact
data if and only if the order of the calls spares it. -/
theorem put_beside_collection (o : ObjectStore) (req : PutObjectRequest) (s : KvWorld)
    (htab : (Op.putObject req).TabFree) (hfits : (Op.putObject req).Fits o)
    (hfresh : Fresh s.map (req.objectId s)) {l : List Event} {r : PutObjectResult} {k : ℕ}
    {t : KvWorld} (h : Interleaved kvService (o.putObject req) garbageCollectChunks s l r k t)
    (hok : r.ok = true) :
    ((objectAt t req.bucket req.key).found = true ∧
      (objectAt t req.bucket req.key).data = req.data) ↔
      Spared req.bucket req.key (req.objectId s) l := by
  obtain ⟨n, d, hw, hc, hs⟩ := besides_run htab hfresh h
  obtain ⟨rfl, rfl⟩ := hw.ret hok
  obtain ⟨reachable, hsweep⟩ := hc.ret
  obtain ⟨now, hm⟩ := hs.own rfl
  rcases hsweep with ⟨hspared, hpresent, -⟩ | ⟨hlost, -, i, hi, hgone⟩
  · have hfound := objectAt_found hm (by simp [ObjectStore.newMetadata]) hpresent
    rw [hfound]
    exact ⟨fun _ => hspared, fun _ => ⟨rfl, o.flatMap_chunks hfits⟩⟩
  · have hnone : t.map[chunkKey (req.objectId s) i]? = none := hgone.resolve_left (by simp)
    have hmissing := objectAt_missing hm ⟨i, hi, hnone⟩
    rw [hmissing]
    exact ⟨fun h => by simp at h, fun h => absurd h hlost⟩

/-! ### Two orders -/

/-- A store with one bucket. -/
def bucketWorld : KvWorld := run smallStore [.createBucket (text "b")] emptyWorld

lemma bucketWorld_fresh (id : Bytes) : Fresh bucketWorld.map id := by
  have hmap : bucketWorld.map =
      (∅ : KvMap).insert (bucketMetaKey (text "b")) (serializeBucketMeta (text "b") 0) := by
    have hb : text "b" ≠ [] := by decide
    simp [bucketWorld, run, Op.perform, Op.prog, exec_createBucket, emptyWorld, hb, Stream'.head,
      Stream'.get]
  constructor
  · intro name m hm
    rw [metadataOf, hmap, lookup_insert, if_neg (by simp [bucketMetaKey_eq])] at hm
    simp at hm
  · intro i
    rw [hmap, lookup_insert, if_neg (by simp [bucketMetaKey_eq, chunkKey_eq])]
    simp

/-- The collector runs when the chunk and the metadata are written. -/
theorem put_beside_collection_committed :
    ∃ l r k t, Interleaved kvService (smallStore.putObject (requestOf (text "a") (by decide)))
        garbageCollectChunks bucketWorld l r k t ∧ r.ok = true ∧ k = 0 ∧
      Spared (text "b") (text "k") (objectIdAt (text "b") (text "k") 0) l := by
  let turns := List.replicate 6 true ++ List.replicate 4 false ++ List.replicate 2 true
  let r := interleave kvService turns (smallStore.putObject (requestOf (text "a") (by decide)))
    garbageCollectChunks bucketWorld
  let hr : r.isSome = true := by decide +kernel
  have hrun := interleaved_of_interleave (Option.some_get hr).symm
  have hok : (r.get hr).2.1.ok = true := by decide +kernel
  refine ⟨_, _, _, _, hrun, hok, by decide +kernel, ?_⟩
  exact (put_beside_collection smallStore _ bucketWorld (by simp [Op.TabFree, requestOf]; decide)
    (by simp [Op.Fits, requestOf]; decide) (bucketWorld_fresh _) hrun hok).mp
    ⟨by decide +kernel, by decide +kernel⟩

/-- **A collection between the chunks and the metadata** sweeps the chunk of a put that succeeds. -/
theorem collection_sweeps_new_chunk :
    ∃ l r k t, Interleaved kvService (smallStore.putObject (requestOf (text "a") (by decide)))
        garbageCollectChunks bucketWorld l r k t ∧
      Fresh bucketWorld.map r.objectId ∧ r.ok = true ∧ k = 1 ∧
      (objectAt t (text "b") (text "k")).error = text "missing object chunk at index 0" ∧
      (objectAt t (text "b") (text "k")).found = false := by
  let turns := List.replicate 5 true ++ List.replicate 4 false ++ List.replicate 3 true
  let r := interleave kvService turns (smallStore.putObject (requestOf (text "a") (by decide)))
    garbageCollectChunks bucketWorld
  let hr : r.isSome = true := by decide +kernel
  have hrun := interleaved_of_interleave (Option.some_get hr).symm
  exact ⟨_, _, _, _, hrun, bucketWorld_fresh _, by decide +kernel, by decide +kernel,
    by decide +kernel, by decide +kernel⟩

end VeriStore.Object

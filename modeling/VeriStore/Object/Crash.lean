import VeriStore.Object.Ids

/-!
Crashes of the object store.

* Every operation with a fresh id is atomic for `GetObject` (`Op.atomic`): the metadata record is the
  only write that is observed, and a collection is not observed at all.
* `journalService` records the mutations that are issued and how many of them the last flush made
  durable. A crash keeps a prefix of them, at least the durable ones.
* `crash_atomic`: behind a crash every answer of `GetObject` is the one before the interrupted call or
  the one behind it, and a whole object or none.
-/

namespace VeriStore.Object

open VeriStore.Lib VeriStore.Lib.Prog VeriStore.Store

variable {o : ObjectStore} {w w' : KvWorld}

/-! ### Calls that are not observed -/

/-- The records that `GetObject` reads are the same. -/
lemma objectAt_same
    (hmeta : ∀ name, w'.map[recordKey .objectMeta name]? = w.map[recordKey .objectMeta name]?)
    (hchunks : ∀ name m, metadataOf w.map name = some m → m.state ≠ .deleted → ∀ i,
      w'.map[chunkKey m.objectId i]? = w.map[chunkKey m.objectId i]?) : objectAt w' = objectAt w := by
  funext b k
  refine objectAt_congr ?_ fun m hm hs i _ => hchunks _ m hm hs i
  rw [objectMetaKey_eq]
  exact hmeta _

lemma objectAt_of_map (h : w'.map = w.map) : objectAt w' = objectAt w :=
  objectAt_same (fun _ => by rw [h]) fun _ _ _ _ _ => by rw [h]

/-- A program that leaves the map as it is. -/
lemma silent_of_still {α : Type} {p : Kv α} (h : Silent kvService KvWorld.map p w) :
    Silent kvService objectAt p w := h.coarser fun _ => objectAt_of_map

/-- A call that leaves the map as it is. -/
lemma silent_of_map {c : KvCall} (h : (kvService c w).2.map = w.map) :
    Silent kvService objectAt (request c) w := silent_of_still (silent_request h)

/-- A record that is neither metadata nor a chunk. -/
lemma silent_put_other {kind : RecordKind} (hmeta : kind ≠ .objectMeta) (hchunk : kind ≠ .chunk)
    (rest value : Bytes) : Silent kvService objectAt (Kv.put (recordKey kind rest) value) w := by
  refine silent_request (objectAt_same (fun name => ?_) fun name m _ _ i => ?_)
  · exact (lookup_insert _ _ _ _).trans (if_neg (by simp [hmeta]))
  · exact (lookup_insert _ _ _ _).trans (if_neg (by simp [hchunk, chunkKey_eq]))

lemma silent_del_index (b k : Bytes) :
    Silent kvService objectAt (Kv.del (bucketIndexKey b k)) w := by
  refine silent_request (objectAt_same (fun name => ?_) fun name m _ _ i => ?_)
  · exact (lookup_erase _ _ _).trans (if_neg (by simp [bucketIndexKey_eq]))
  · exact (lookup_erase _ _ _).trans (if_neg (by simp [bucketIndexKey_eq, chunkKey_eq]))

lemma silent_createBucket (b : Bytes) : Silent kvService objectAt (createBucket b) w := by
  unfold createBucket
  split
  · exact silent_pure _ _
  · refine (silent_of_map rfl).bind ?_
    split
    · exact silent_pure _ _
    · refine (silent_of_map rfl).bind (Silent.bind ?_ (silent_pure _ _))
      rw [bucketMetaKey_eq]
      exact silent_put_other (by simp) (by simp) _ _

lemma silent_bucketExists (b : Bytes) : Silent kvService objectAt (bucketExists b) w := by
  unfold bucketExists
  split
  · exact silent_pure _ _
  · exact (silent_of_map rfl).bind (silent_pure _ _)

/-! ### Writing an object -/

/-- No object that can be read has the id. -/
def Unused (map : KvMap) (id : Bytes) : Prop :=
  ∀ name m, metadataOf map name = some m → m.state ≠ .deleted → m.objectId ≠ id

/-- **The chunks of an unused id are not observed.** -/
lemma silent_writeChunks {id : Bytes} (data : Bytes) (is : List ℕ) (h : Unused w.map id) :
    Silent kvService objectAt (o.writeChunks id data is) w := by
  induction is generalizing w with
  | nil => exact silent_pure _ _
  | cons i is ih =>
    have hmeta : ∀ name, (w.map.insert (chunkKey id i) (o.chunkValue data i))[
        recordKey .objectMeta name]? = w.map[recordKey .objectMeta name]? := fun name => by
      rw [lookup_insert, if_neg (by simp [chunkKey_eq])]
    refine Silent.bind ?_ (ih fun name m hm => ?_)
    · refine silent_request (objectAt_same hmeta fun name m hm hs j => ?_)
      refine (lookup_insert _ _ _ _).trans (if_neg fun e => h name m hm hs ?_)
      exact (chunkKey_inj.mp e).1.symm
    · refine h name m ?_
      rw [← hm]
      exact congrArg (Option.bind · deserializeMetadata) (hmeta name).symm

lemma atomic_writeObject (req : PutObjectRequest) {id : Bytes} (now : UInt64)
    (h : Unused w.map id) : Atomic kvService objectAt (o.writeObject req id now) w := by
  refine (silent_writeChunks _ _ h).bind_atomic ?_
  -- the metadata commits the object
  refine (atomic_request _ _).bind_silent ?_
  rw [bucketIndexKey_eq]
  refine (silent_put_other (by simp) (by simp) _ _).bind ((silent_of_map rfl).bind ?_)
  split
  · exact silent_pure _ _
  · exact silent_pure _ _

/-- **`PutObject` with a fresh id is atomic.** -/
lemma atomic_putObject (req : PutObjectRequest)
    (h : req.Accepted w → Unused w.map (req.objectId w)) :
    Atomic kvService objectAt (o.putObject req) w := by
  unfold ObjectStore.putObject
  split
  · exact (silent_pure _ _).atomic
  · next hb =>
    split
    · exact (silent_pure _ _).atomic
    · next hk =>
      refine (silent_bucketExists _).bind_atomic ?_
      rw [exec_bucketExists]
      cases hw : w.map[bucketMetaKey req.bucket]?.isSome with
      | false =>
        rw [Bool.and_false]
        exact (silent_pure _ _).atomic
      | true =>
        simp only [ne_eq, hb, not_false_eq_true, decide_true, Bool.and_self, Bool.not_true,
          Bool.false_eq_true, if_false]
        refine (silent_of_map rfl).bind_atomic (Silent.bind_atomic ?_ ?_)
        · exact (silent_of_map rfl).bind (silent_pure _ _)
        · exact (silent_of_map rfl).bind_atomic (atomic_writeObject req _ (h ⟨hb, hk, hw⟩))

/-! ### Deleting an object -/

/-- **`DeleteObject` is atomic.** -/
lemma atomic_deleteObject (b k : Bytes) : Atomic kvService objectAt (deleteObject b k) w := by
  unfold deleteObject
  refine (silent_of_map rfl).bind_atomic ?_
  split
  · exact (silent_pure _ _).atomic
  · split
    · exact (silent_pure _ _).atomic
    · refine (silent_of_map rfl).bind_atomic ((atomic_request _ _).bind_silent ?_)
      refine (silent_del_index b k).bind ((silent_of_map rfl).bind ?_)
      split
      · exact silent_pure _ _
      · exact silent_pure _ _

/-! ### Collecting chunks -/

/-- The marking loop reads. -/
lemma still_reachableIds (keys ids : List Bytes) :
    Silent kvService KvWorld.map (reachableIds keys ids) w := by
  induction keys generalizing ids with
  | nil => exact silent_pure _ _
  | cons key keys ih =>
    refine (silent_request rfl).bind ?_
    split
    · exact ih _
    · split
      · exact ih _
      · split
        · exact ih _
        · exact ih _

lemma silent_reachableIds (keys ids : List Bytes) :
    Silent kvService objectAt (reachableIds keys ids) w := silent_of_still (still_reachableIds keys ids)

/-- The objects that can be read have marked ids. -/
def Marked (reachable : List Bytes) (map : KvMap) : Prop :=
  ∀ name m, metadataOf map name = some m → m.state ≠ .deleted →
    m.objectId ∈ reachable ∧ m.objectId ≠ []

/-- **A sweep that spares the marked ids is not observed.** -/
lemma silent_sweepChunks {reachable names : List Bytes} (n : ℕ) (h : Marked reachable w.map)
    (hnames : ∀ name ∈ names, ∃ rest, name = recordKey .chunk rest) :
    Silent kvService objectAt (sweepChunks reachable names n) w := by
  induction names generalizing n w with
  | nil => exact silent_pure _ _
  | cons name names ih =>
    have hrest : ∀ m ∈ names, ∃ rest, m = recordKey .chunk rest := fun m hm => hnames m (by simp [hm])
    obtain ⟨rest, rfl⟩ := hnames name (by simp)
    unfold sweepChunks
    split
    · exact ih n h hrest
    · next id hid =>
      split
      · exact ih n h hrest
      · next hun =>
        have hmeta : ∀ name, (w.map.erase (recordKey .chunk rest))[recordKey .objectMeta name]? =
            w.map[recordKey .objectMeta name]? := fun name => by
          rw [lookup_erase, if_neg (by simp)]
        refine Silent.bind ?_ (ih _ (fun name m hm => ?_) hrest)
        · refine silent_request (objectAt_same hmeta fun name m hm hs i => ?_)
          refine (lookup_erase _ _ _).trans (if_neg fun e => hun ?_)
          obtain ⟨hmem, hne⟩ := h name m hm hs
          rw [e, chunkOwner_chunkKey hne] at hid
          cases hid
          exact hmem
        · refine h name m ?_
          rw [← hm]
          exact congrArg (Option.bind · deserializeMetadata) (hmeta name).symm

/-- **A collection is not observed**, wherever it is interrupted. -/
lemma silent_garbageCollectChunks {past : List Op} (hrep : Represents o w.map past) :
    Silent kvService objectAt garbageCollectChunks w := by
  refine (silent_of_map rfl).bind ((silent_reachableIds _ _).bind ((silent_of_map rfl).bind ?_))
  refine (silent_sweepChunks 0 ?_ ?_).bind ((silent_of_map rfl).bind (silent_pure _ _))
  · intro name m hm hs
    simp only [exec_request, kvService, reachableIds_frame] at hm
    obtain ⟨hown, hplain⟩ := (hrep.objects name).metadata hm
    refine ⟨?_, hown.ne_nil⟩
    refine (mem_reachableIds_objmeta (w := { w with orders := w.orders.tail })
      (fun key => mem_shuffled) m.objectId).mpr ⟨name, m, hm, hplain.state.resolve_right hs, rfl⟩
  · intro name hname
    exact (mem_keysWith.mp (mem_shuffled.mp hname)).1

/-! ### Every call is atomic -/

/-- **Every call with a fresh id is atomic.** -/
theorem Op.atomic {past : List Op} {ids : List Bytes} {op : Op} (hrep : Represents o w.map past)
    (hnames : NamesOnly w.map ids) (hnew : ∀ id ∈ op.newIds o w, id ∉ ids) :
    Atomic kvService objectAt (op.prog o) w := by
  cases op with
  | createBucket b => exact (silent_createBucket b).atomic
  | putObject req =>
    refine (atomic_putObject req fun hreq name m hm _ e => ?_).bind_silent (silent_pure _ _)
    have hid : req.objectId w ∈ (Op.putObject req).newIds o w := by
      simp [newIds_eq, Op.newReadings, hreq, PutObjectRequest.objectId, objectIdAt_eq, idOf]
    exact hnew _ hid (e ▸ hnames name m hm)
  | deleteObject b k => exact (atomic_deleteObject b k).bind_silent (silent_pure _ _)
  | garbageCollectChunks =>
    refine Silent.atomic ((silent_garbageCollectChunks hrep).bind ?_)
    exact silent_pure _ _

/-! ### The journal -/

/-- A change of the map that the store below logs. -/
inductive Mutation where
  | put (key value : Bytes)
  | del (key : Bytes)

def Mutation.apply (map : KvMap) : Mutation → KvMap
  | put key value => map.insert key value
  | del key => map.erase key

/-- What recovery makes of logged mutations. -/
def replay (l : List Mutation) : KvMap := l.foldl Mutation.apply ∅

/-- The mutations of a call; deleting a key that is not there is not logged. -/
def mutationsOf (map : KvMap) : KvCall → List Mutation
  | .put key value => [.put key value]
  | .del key => if map[key]?.isSome then [.del key] else []
  | _ => []

/-- The store below with the mutations issued so far and the number of those that are durable. -/
structure Journal where
  world : KvWorld
  issued : List Mutation
  durable : ℕ

/-- **The store below with its log**: a flush makes all mutations durable. -/
def journalService : Service KvCall KvAnswer Journal := fun c j =>
  let issued := j.issued ++ mutationsOf j.world.map c
  ((kvService c j.world).1,
    { world := (kvService c j.world).2
      issued := issued
      durable := match c with
        | .flushWal => issued.length
        | _ => j.durable })

def journalRun (o : ObjectStore) : List Op → Journal → Journal
  | [], j => j
  | op :: ops, j => journalRun o ops (exec journalService (op.prog o) j).2

lemma extends_journal : Extends journalService kvService Journal.world := fun _ _ => ⟨rfl, rfl⟩

/-- The map is what the issued mutations make. -/
structure Journal.Ok (j : Journal) : Prop where
  map : j.world.map = replay j.issued
  durable : j.durable ≤ j.issued.length

lemma replay_mutationsOf (c : KvCall) {j : Journal} (hj : j.world.map = replay j.issued) :
    (kvService c j.world).2.map = replay (j.issued ++ mutationsOf j.world.map c) := by
  cases c with
  | put key value => simp [kvService, mutationsOf, replay, Mutation.apply, hj]
  | del key =>
    simp only [kvService, mutationsOf]
    split
    · simp [replay, Mutation.apply, hj]
    · next h =>
      rw [List.append_nil, ← hj]
      refine Std.ExtTreeMap.ext_getElem? fun a => ?_
      rw [lookup_erase]
      split
      · next e => simpa [← e] using (Option.not_isSome_iff_eq_none.mp h).symm
      · rfl
  | _ => simpa [kvService, mutationsOf] using hj

/-- One call adds at most one mutation. -/
lemma length_mutationsOf (map : KvMap) (c : KvCall) : (mutationsOf map c).length ≤ 1 := by
  cases c with
  | del key =>
    simp only [mutationsOf]
    split <;> simp
  | _ => simp [mutationsOf]

lemma Journal.Ok.call {j : Journal} (h : j.Ok) (c : KvCall) :
    (journalService c j).2.Ok ∧ j.durable ≤ (journalService c j).2.durable := by
  have hd := h.durable
  refine ⟨⟨replay_mutationsOf c h.map, ?_⟩, ?_⟩
  · cases c with
    | flushWal => exact le_rfl
    | _ => exact hd.trans (by simp [journalService])
  · cases c with
    | flushWal => simpa [journalService, mutationsOf] using hd
    | _ => exact le_rfl

section Journal

variable {α : Type} {p : Kv α} {j t : Journal}

/-- What is issued and what is durable only grows. -/
lemma journal_grows (ht : Point journalService p j t) (hj : j.Ok) :
    t.Ok ∧ j.durable ≤ t.durable ∧ ∃ l, t.issued = j.issued ++ l := by
  induction ht with
  | here => exact ⟨hj, le_rfl, [], by simp⟩
  | later _ ih =>
    obtain ⟨hok, hle⟩ := hj.call _
    obtain ⟨hok', hle', l, hl⟩ := ih hok
    exact ⟨hok', hle.trans hle', _, hl.trans (List.append_assoc _ _ _)⟩

/-- **A prefix of the mutations has been issued at an earlier point.** -/
lemma journal_cut_issued (ht : Point journalService p j t) (hj : j.Ok) {n : ℕ}
    (hn : j.issued.length ≤ n) (hn' : n ≤ t.issued.length) :
    ∃ t', Point journalService p j t' ∧ t'.issued = t.issued.take n := by
  induction ht with
  | here p s => exact ⟨s, .here _ _, (List.take_of_length_le hn).symm⟩
  | @later c k s t ht ih =>
    obtain ⟨hok, -⟩ := hj.call c
    by_cases hnext : (journalService c s).2.issued.length ≤ n
    · obtain ⟨t', ht', hissued⟩ := ih hok hnext hn'
      exact ⟨t', .later ht', hissued⟩
    · -- the call issues a mutation, and the prefix ends in front of it
      have hone := length_mutationsOf s.world.map c
      have hlen : n = s.issued.length := by
        simp only [journalService, List.length_append] at hnext
        omega
      obtain ⟨-, -, l, hl⟩ := journal_grows (.later ht : Point journalService (.call c k) s t) hj
      exact ⟨s, .here _ _, by rw [hl, hlen, List.take_left]⟩

/-- **A prefix of the mutations is the map at an earlier point.** -/
lemma journal_cut (ht : Point journalService p j t) (hj : j.Ok) {n : ℕ}
    (hn : j.issued.length ≤ n) (hn' : n ≤ t.issued.length) :
    ∃ t', Point journalService p j t' ∧ t'.world.map = replay (t.issued.take n) := by
  obtain ⟨t', ht', hissued⟩ := journal_cut_issued ht hj hn hn'
  obtain ⟨hok, -⟩ := journal_grows ht' hj
  exact ⟨t', ht', by rw [hok.map, hissued]⟩

/-- Losing what is not durable is not observed. -/
def Settled (j : Journal) : Prop :=
  ∀ n, j.durable ≤ n → n ≤ j.issued.length → ∀ v : KvWorld, v.map = replay (j.issued.take n) →
    objectAt v = objectAt j.world

/-- **A crash inside an atomic program.** -/
lemma Settled.crash (hs : Settled j) (hj : j.Ok) (ha : Atomic kvService objectAt p j.world)
    (ht : Point journalService p j t) {n : ℕ} (hn : t.durable ≤ n) (hn' : n ≤ t.issued.length)
    {v : KvWorld} (hv : v.map = replay (t.issued.take n)) :
    objectAt v = objectAt j.world ∨ objectAt v = objectAt (exec kvService p j.world).2 := by
  obtain ⟨-, hdurable, l, hl⟩ := journal_grows ht hj
  by_cases hcut : j.issued.length ≤ n
  · obtain ⟨t', ht', hmap⟩ := journal_cut ht hj hcut hn'
    rw [objectAt_of_map (hv.trans hmap.symm)]
    exact ha _ (ht'.extends extends_journal)
  · refine Or.inl (hs n (hdurable.trans hn) (by omega) v ?_)
    rw [hv, hl, List.take_append_of_le_length (by omega)]

/-- A program that ends with a flush. -/
def Flushed (p : Kv α) (j : Journal) : Prop :=
  (exec journalService p j).2.durable = (exec journalService p j).2.issued.length

lemma Flushed.bind {β : Type} {f : α → Kv β}
    (h : Flushed (f (exec journalService p j).1) (exec journalService p j).2) :
    Flushed (p >>= f) j := by
  unfold Flushed
  rw [exec_bind]
  exact h

lemma Flushed.bind_pure {β : Type} (h : Flushed p j) (f : α → β) :
    Flushed (p >>= fun a => pure (f a)) j := by
  unfold Flushed
  rw [exec_bind]
  exact h

lemma flushed_flushWal : Flushed Kv.flushWal j := rfl

lemma Settled.silent (hs : Settled j) (hj : j.Ok) (hp : Silent kvService objectAt p j.world) :
    Settled (exec journalService p j).2 := by
  intro n hn hn' v hv
  rw [objectAt_of_map (congrArg KvWorld.map (extends_journal.exec p j).2), hp.exec]
  rcases hs.crash hj hp.atomic (Point.exec p j) hn hn' hv with h | h
  · exact h
  · exact h.trans hp.exec

lemma Flushed.settled (hf : Flushed p j) (hj : j.Ok) : Settled (exec journalService p j).2 := by
  intro n hn hn' v hv
  obtain ⟨hok, -⟩ := journal_grows (Point.exec p j) hj
  refine objectAt_of_map (hv.trans ?_)
  rw [List.take_of_length_le (hf ▸ hn), hok.map]

end Journal

/-! ### What every call leaves -/

lemma flushed_writeObject (req : PutObjectRequest) (id : Bytes) (now : UInt64) (j : Journal) :
    Flushed (o.writeObject req id now) j := by
  refine .bind (.bind (.bind ?_))
  unfold Flushed
  rw [exec_bind]
  split <;> exact flushed_flushWal

/-- A put is refused before it changes anything, or ends with a flush. -/
lemma settles_putObject (req : PutObjectRequest) (j : Journal) :
    Silent kvService objectAt (o.putObject req) j.world ∨ Flushed (o.putObject req) j := by
  unfold ObjectStore.putObject
  split
  · exact Or.inl (silent_pure _ _)
  · split
    · exact Or.inl (silent_pure _ _)
    · cases hknown : (exec kvService (bucketExists req.bucket) j.world).1 with
      | false =>
        refine Or.inl ((silent_bucketExists _).bind ?_)
        rw [hknown]
        exact silent_pure _ _
      | true =>
        refine Or.inr (.bind ?_)
        rw [(extends_journal.exec _ _).1, hknown]
        exact .bind (.bind (.bind (flushed_writeObject _ _ _ _)))

lemma settles_deleteObject (b k : Bytes) (j : Journal) :
    Silent kvService objectAt (deleteObject b k) j.world ∨ Flushed (deleteObject b k) j := by
  have hget : Silent kvService objectAt (Kv.get (objectMetaKey b k)) j.world := silent_of_map rfl
  unfold deleteObject
  cases hraw : (exec kvService (Kv.get (objectMetaKey b k)) j.world).1 with
  | none =>
    refine Or.inl (hget.bind ?_)
    rw [hraw]
    exact silent_pure _ _
  | some raw =>
    cases hm : deserializeMetadata raw with
    | none =>
      refine Or.inl (hget.bind ?_)
      rw [hraw]
      simp only [hm]
      exact silent_pure _ _
    | some m =>
      refine Or.inr (.bind ?_)
      rw [(extends_journal.exec _ _).1, hraw]
      simp only [hm]
      refine .bind (.bind (.bind ?_))
      unfold Flushed
      rw [exec_bind]
      split <;> exact flushed_flushWal

lemma flushed_garbageCollectChunks (j : Journal) : Flushed garbageCollectChunks j :=
  .bind (.bind (.bind (.bind (flushed_flushWal.bind_pure _))))

/-- **What a finished call has issued is durable**, or is not observed. -/
lemma Op.settled (op : Op) {j : Journal} (hj : j.Ok) (hs : Settled j) :
    Settled (exec journalService (op.prog o) j).2 := by
  cases op with
  | createBucket b => exact hs.silent hj (silent_createBucket b)
  | putObject req =>
    rcases settles_putObject (o := o) req j with h | h
    · exact hs.silent hj (h.bind (silent_pure _ _))
    · exact (h.bind_pure _).settled hj
  | deleteObject b k =>
    rcases settles_deleteObject b k j with h | h
    · exact hs.silent hj (h.bind (silent_pure _ _))
    · exact (h.bind_pure _).settled hj
  | garbageCollectChunks => exact ((flushed_garbageCollectChunks j).bind_pure _).settled hj

/-! ### Crashes in a run -/

/-- The state the run reaches, and a call of it that is interrupted. -/
lemma crash_from {past : List Op} {ids : List Bytes} {ops : List Op} {op : Op} {j t : Journal}
    (hj : j.Ok) (hs : Settled j) (hrep : Represents o j.world.map past)
    (hnames : NamesOnly j.world.map ids) (htab : ∀ op ∈ ops, op.TabFree)
    (hfresh : (ids ++ objectIds o (ops ++ [op]) j.world).Nodup)
    (ht : Point journalService (op.prog o) (journalRun o ops j) t) {n : ℕ} (hn : t.durable ≤ n)
    (hn' : n ≤ t.issued.length) {v : KvWorld} (hv : v.map = replay (t.issued.take n)) :
    objectAt v = objectAt (run o ops j.world) ∨
      objectAt v = objectAt (run o (ops ++ [op]) j.world) := by
  induction ops generalizing past ids j with
  | nil =>
    refine hs.crash hj (Op.atomic hrep hnames fun id hid hold => ?_) ht hn hn' hv
    rw [List.nil_append, objectIds, objectIds, List.append_nil] at hfresh
    exact (List.nodup_append.mp hfresh).2.2 id hold id hid rfl
  | cons op' ops ih =>
    have hworld := (extends_journal.exec (op'.prog o) j).2
    rw [List.cons_append, objectIds, ← List.append_assoc] at hfresh
    have htab' := htab op' (by simp)
    obtain ⟨hok, -⟩ := journal_grows (Point.exec (op'.prog o) j) hj
    have hrep' : Represents o (exec journalService (op'.prog o) j).2.world.map
        (past ++ if (op'.perform o j.world).1 then [op'] else []) := by
      rw [hworld]
      exact hrep.perform htab'
    have hnames' : NamesOnly (exec journalService (op'.prog o) j).2.world.map
        (ids ++ op'.newIds o j.world) := by
      rw [hworld]
      exact hnames.perform hrep htab'
    have hrest := ih hok (op'.settled hj hs) hrep' hnames' (fun x hx => htab x (by simp [hx]))
      (by rw [hworld]; exact hfresh) ht
    rw [hworld] at hrest
    exact hrest

/-- The answer is a whole object of one of the requests, or none. -/
def Whole (o : ObjectStore) (ops : List Op) (b k : Bytes) (r : GetObjectResult) : Prop :=
  r.found = false ∧
      (r.error = text "object metadata not found" ∨ r.error = text "object is deleted") ∨
    r.found = true ∧ ∃ req, Op.putObject req ∈ ops ∧ req.bucket = b ∧ req.key = k ∧
      r.data = (List.range (o.chunkCount req.data.length)).flatMap (o.chunkValue req.data) ∧
      ((Op.putObject req).Fits o → r.data = req.data)

lemma Represents.whole {past ops : List Op} (h : Represents o w.map past)
    (hpast : ∀ op ∈ past, op ∈ ops) (hcolon : ∀ op ∈ ops, op.ColonFree) {b : Bytes}
    (hb : colon ∉ b) (k : Bytes) : Whole o ops b k (objectAt w b k) := by
  cases hcat : catalogOf past (objectName b k) with
  | none => exact Or.inl (h.objectAt_none hcat)
  | some req =>
    obtain ⟨id, now, hobj⟩ := h.objectAt_some hcat
    have hlast := (catalogOf_objectName (fun op hop => hcolon op (hpast op hop)) hb req).mp hcat
    obtain ⟨hmem, hbucket, hkey⟩ := of_lastAccepted hlast
    rw [hobj]
    exact Or.inr ⟨rfl, req, hpast _ hmem, hbucket, hkey, rfl, fun hfits => o.flatMap_chunks hfits⟩

/-- **The object store is crash-atomic when ids are fresh.** Behind a crash in a call `op`, which
keeps a prefix of the mutations with all those a flush made durable, `GetObject` answers what it
answered before the call or what it answers behind it: a whole object, or none. -/
theorem crash_atomic (o : ObjectStore) (ops : List Op) (op : Op) (w : KvWorld) (hw : w.map = ∅)
    (hcolon : ∀ op' ∈ ops ++ [op], op'.ColonFree) (htab : ∀ op' ∈ ops ++ [op], op'.TabFree)
    (hfresh : (objectIds o (ops ++ [op]) w).Nodup) (t : Journal)
    (ht : Point journalService (op.prog o) (journalRun o ops ⟨w, [], 0⟩) t) (n : ℕ)
    (hn : t.durable ≤ n) (hn' : n ≤ t.issued.length) :
    let crashed : KvWorld := { t.world with map := replay (t.issued.take n) }
    ((∀ b k, objectAt crashed b k = objectAt (run o ops w) b k) ∨
      ∀ b k, objectAt crashed b k = objectAt (run o (ops ++ [op]) w) b k) ∧
    ∀ b k, colon ∉ b → Whole o (ops ++ [op]) b k (objectAt crashed b k) := by
  intro crashed
  have hj : (⟨w, [], 0⟩ : Journal).Ok := ⟨hw, le_rfl⟩
  have hs : Settled ⟨w, [], 0⟩ := fun n _ _ v hv =>
    objectAt_of_map (hv.trans (by rw [List.take_nil]; exact hw.symm))
  have hrep : Represents o w.map [] := by
    rw [hw]
    exact represents_empty o
  have hnames : NamesOnly w.map [] := by
    intro name m hm
    rw [hw] at hm
    simp [metadataOf] at hm
  have hcrash := crash_from hj hs hrep hnames (fun x hx => htab x (by simp [hx])) hfresh ht hn hn'
    (v := crashed) rfl
  refine ⟨hcrash.imp (fun h b k => by rw [h]) fun h b k => by rw [h], fun b k hb => ?_⟩
  rcases hcrash with h | h
  · rw [h]
    have hrun : Represents o (run o ops w).map (accepted o ops w) :=
      represents_run hw fun x hx => htab x (by simp [hx])
    exact hrun.whole (fun x hx => by simp [(exists_of_mem_accepted hx).1]) hcolon hb k
  · rw [h]
    exact (represents_run hw htab).whole (fun x hx => (exists_of_mem_accepted hx).1) hcolon hb k

/-- A crash in an overwrite, when the bucket and the old object are durable and the first chunk of the
new one is written. -/
theorem crash_atomic_overwrite :
    let w : KvWorld := { emptyWorld with clock := fun n => UInt64.ofNat n }
    let ops : List Op := [.createBucket (text "b"), .putObject (requestOf (text "old") (by decide))]
    let op := Op.putObject (requestOf (text "new") (by decide))
    ∃ t, Point journalService (op.prog smallStore) (journalRun smallStore ops ⟨w, [], 0⟩) t ∧
      t.durable = 5 ∧ t.issued.length = 6 ∧
      ∀ b k, objectAt { t.world with map := replay (t.issued.take 6) } b k =
          objectAt (run smallStore ops w) b k ∨
        objectAt { t.world with map := replay (t.issued.take 6) } b k =
          objectAt (run smallStore (ops ++ [op]) w) b k := by
  intro w ops op
  have ht := Point.after (h := journalService) 5 (op.prog smallStore)
    (journalRun smallStore ops ⟨w, [], 0⟩)
  refine ⟨_, ht, by decide +kernel, by decide +kernel, fun b k => ?_⟩
  have h := (crash_atomic smallStore ops op w rfl (by simp [Op.ColonFree, ops, op, requestOf]; decide)
    (by simp [Op.TabFree, ops, op, requestOf]; decide) (by decide +kernel) _ ht 6
    (by decide +kernel) (by decide +kernel)).1
  exact h.imp (fun h => h b k) fun h => h b k

end VeriStore.Object

import VeriStore.Object.Checkpoint

/-!
Calls that fail.

`fallibleService` runs the operations on the key-value store itself, and a write to its log may end
in any way. The writes of a call reach the map before the log is flushed.

* `failed_calls` — a call that is refused by one of its checks changes no answer; a call whose flush
  fails leaves what it leaves when the flush succeeds;
* `failed_put_found` — an object of such a call is found.
-/

namespace VeriStore.Object

open VeriStore.Lib VeriStore.Lib.Prog VeriStore.Store VeriStore.Log

/-! ### A store whose log may fail -/

/-- A store, and how the writes to its log will go. -/
structure FallibleWorld where
  base : StoreWorld
  ios : Stream' FlushOutcome

/-- **The key-value store as a service** with any outcome of the writes to the log. -/
def fallibleService : Service KvCall KvAnswer FallibleWorld := fun c w =>
  match c with
  | .put key value =>
    let b := w.base.worked
    let (s, d) := b.store.put b.disk key value w.ios.head
    ((), ⟨{ b with store := s, disk := d }, w.ios.tail⟩)
  | .del key =>
    let b := w.base.worked
    let (ok, s, d) := b.store.del b.disk key w.ios.head
    (ok, ⟨{ b with store := s, disk := d }, w.ios.tail⟩)
  | .flushWal =>
    let b := w.base.worked
    let (ok, s, d) := b.store.flushWal b.disk w.ios.head
    (ok, ⟨{ b with store := s, disk := d }, w.ios.tail⟩)
  | c => ((storeService c w.base).1, ⟨(storeService c w.base).2, w.ios⟩)

/-- The call may be answered in more than one way. -/
def Uncertain : KvCall → Prop
  | .del _ | .flushWal => True
  | _ => False

namespace FallibleWorld

/-- The store seen from above. -/
def world (w : FallibleWorld) : KvWorld := w.base.world

/-- The store can be written. -/
def Writable (w : FallibleWorld) : Prop := w.base.store.Writable

def objectAt (w : FallibleWorld) (b k : Bytes) : GetObjectResult :=
  (exec fallibleService (getObject b k) w).1

def objectsIn (w : FallibleWorld) (b start : Bytes) : ListObjectsResult :=
  (exec fallibleService (listObjects b start) w).1

/-- **Every answer of `GetObject` and `ListObjects` is the same.** -/
structure SameReads (w w' : FallibleWorld) : Prop where
  get : ∀ b k, w'.objectAt b k = w.objectAt b k
  list : ∀ b start, w'.objectsIn b start = w.objectsIn b start

end FallibleWorld

section Calls

variable {w : FallibleWorld}

/-- The answers that are certain are those of the map. -/
lemma fallible_answer {c : KvCall} (hc : ¬ Uncertain c) (w : FallibleWorld) :
    (fallibleService c w).1 = (kvService c w.world).1 := by
  cases c with
  | get | put | listKeys | nowEpochMs => rfl
  | del | flushWal => exact absurd trivial hc

/-- A write to a store that can be written. -/
lemma finishWrite_writable {s : KVStore} (h : s.Writable) (r : Record) (d : Disk) (io : FlushOutcome) :
    ((s.logged r).finishWrite d io).2.1.map = (s.applyRecord r).map ∧
      ((s.logged r).finishWrite d io).2.1.Writable := by
  obtain ⟨m, i, n, fw, l, f, hf⟩ := (s.logged r).finishWrite_frame d io
  have hfd := (s.logged r).finishWrite_isSome d io
  refine ⟨by rw [hf]; rfl, ?_, hfd.trans h.2⟩
  rw [hf]
  exact (KVStore.logged_opened s r).trans h.1

/-- **One call on a store that can be written** does to the map what it does when it succeeds. -/
lemma fallible_writable (c : KvCall) (w : FallibleWorld) (h : w.Writable) :
    (fallibleService c w).2.world = (kvService c w.world).2 ∧ (fallibleService c w).2.Writable := by
  set s := w.base.worked.store with hs
  set d := w.base.worked.disk with hd
  have hb : s.Writable := h
  cases c with
  | get | listKeys | nowEpochMs => exact ⟨rfl, h⟩
  | flushWal => exact ⟨rfl, h.1, (s.wal.flush_isSome (d.wal.getD []) w.ios.head).trans h.2⟩
  | put key value =>
    obtain ⟨hmap, hwritable⟩ :=
      finishWrite_writable hb ⟨s.seq + 1, key, some value⟩ d w.ios.head
    rw [← KVStore.put_eq hb.1 hb.2] at hmap hwritable
    refine ⟨?_, hwritable⟩
    show (⟨(s.put d key value w.ios.head).1.map, _, _⟩ : KvWorld) = _
    rw [hmap]
    rfl
  | del key =>
    cases hkey : s.get key with
    | none =>
      have hdel : s.del d key w.ios.head = (false, s, d) := KVStore.del_absent hkey
      have herase : s.map.erase key = s.map := by
        refine Std.ExtTreeMap.ext_getElem? fun a => ?_
        rw [lookup_erase]
        split
        · next hk => exact hk ▸ hkey.symm
        · rfl
      refine ⟨?_, ?_⟩
      · show (⟨(s.del d key w.ios.head).2.1.map, _, _⟩ : KvWorld) = _
        rw [hdel, ← herase]
        rfl
      · show (s.del d key w.ios.head).2.1.Writable
        rw [hdel]
        exact hb
    | some value =>
      have hsome : (s.get key).isSome := by simp [hkey]
      obtain ⟨hmap, hwritable⟩ := finishWrite_writable hb ⟨s.seq + 1, key, none⟩ d w.ios.head
      rw [← KVStore.del_eq hb.1 hb.2 hsome] at hmap hwritable
      refine ⟨?_, hwritable⟩
      show (⟨(s.del d key w.ios.head).2.1.map, _, _⟩ : KvWorld) = _
      rw [hmap]
      rfl

/-- The call scans the map. -/
def Scans : KvCall → Prop
  | .listKeys _ => True
  | _ => False

/-- **One call on a store that cannot be written.** -/
lemma fallible_unwritable (c : KvCall) (w : FallibleWorld) (h : ¬ w.Writable) :
    (fallibleService c w).2.world.map = w.world.map ∧ ¬ (fallibleService c w).2.Writable ∧
      (¬ Scans c → (fallibleService c w).2.world.orders = w.world.orders) := by
  set s := w.base.worked.store with hs
  set d := w.base.worked.disk with hd
  have hb : ¬ s.Writable := h
  cases c with
  | get | nowEpochMs => exact ⟨rfl, h, fun _ => rfl⟩
  | listKeys => exact ⟨rfl, h, fun hc => absurd trivial hc⟩
  | flushWal =>
    have hfd := s.wal.flush_isSome (d.wal.getD []) w.ios.head
    exact ⟨rfl, fun h' => hb ⟨h'.1, hfd ▸ h'.2⟩, fun _ => rfl⟩
  | put key value =>
    obtain ⟨n, hput⟩ := KVStore.put_unwritable hb d key value w.ios.head
    refine ⟨?_, ?_, fun _ => rfl⟩
    · show (s.put d key value w.ios.head).1.map = _
      rw [hput]
      rfl
    · show ¬ (s.put d key value w.ios.head).1.Writable
      rw [hput]
      exact hb
  | del key =>
    obtain ⟨n, hdel⟩ := KVStore.del_unwritable hb d key w.ios.head
    refine ⟨?_, ?_, fun _ => rfl⟩
    · show (s.del d key w.ios.head).2.1.map = _
      rw [hdel]
      rfl
    · show ¬ (s.del d key w.ios.head).2.1.Writable
      rw [hdel]
      exact hb

/-- **A program on a store that can be written**, if the answers that may differ do not count. -/
lemma exec_writable {α : Type} {p : Kv α} (hp : p.Deaf Uncertain) (h : w.Writable) :
    (exec fallibleService p w).2.world = (exec kvService p w.world).2 :=
  hp.exec fallible_writable (fun _ w hc _ => fallible_answer hc w) h

/-- **A program on a store that cannot be written.** -/
lemma exec_unwritable {α : Type} {p : Kv α} (hp : p.Only (¬ Scans ·)) (h : ¬ w.Writable) :
    (exec fallibleService p w).2.world.map = w.world.map ∧
      (exec fallibleService p w).2.world.orders = w.world.orders := by
  let Kept : FallibleWorld → Prop := fun w' =>
    ¬ w'.Writable ∧ w'.world.map = w.world.map ∧ w'.world.orders = w.world.orders
  have hcall : ∀ c w', ¬ Scans c → Kept w' → Kept (fallibleService c w').2 := by
    rintro c w' hc ⟨hw', hmap', horders'⟩
    obtain ⟨hmap, hw, horders⟩ := fallible_unwritable c w' hw'
    exact ⟨hw, hmap.trans hmap', (horders hc).trans horders'⟩
  exact (hp.invariant hcall ⟨h, rfl, rfl⟩).2

/-- The call reads the map. -/
def Reads : KvCall → Prop
  | .get _ | .listKeys _ => True
  | _ => False

/-- **A program that only reads** asks the map. -/
lemma exec_reads {α : Type} {p : Kv α} (hp : p.Only Reads) (w : FallibleWorld) :
    (exec fallibleService p w).1 = (exec kvService p w.world).1 ∧
      (exec fallibleService p w).2.world = (exec kvService p w.world).2 := by
  have hcall : ∀ c (w : FallibleWorld), Reads c → True →
      (fallibleService c w).1 = (kvService c w.world).1 ∧
        (fallibleService c w).2.world = (kvService c w.world).2 ∧ True := by
    intro c w hc _
    cases c with
    | get | listKeys => exact ⟨rfl, rfl, trivial⟩
    | put | del | flushWal | nowEpochMs => exact hc.elim
  obtain ⟨hanswer, hstate, -⟩ := hp.exec hcall trivial (s := w)
  exact ⟨hanswer, hstate⟩

/-- It does not read the clock. -/
lemma exec_reads_same {α : Type} {p : Kv α} (hp : p.Only Reads) {w w' : KvWorld}
    (hmap : w'.map = w.map) (horders : w'.orders = w.orders) :
    (exec kvService p w').1 = (exec kvService p w).1 := by
  let clocked : KvWorld → KvWorld := fun v => ⟨v.map, w.clock, v.orders⟩
  have hcall : ∀ c v, Reads c → True → (kvService c v).1 = (kvService c (clocked v)).1 ∧
      clocked (kvService c v).2 = (kvService c (clocked v)).2 ∧ True := by
    intro c v hc _
    cases c with
    | get | listKeys => exact ⟨rfl, rfl, trivial⟩
    | put | del | flushWal | nowEpochMs => exact hc.elim
  have hw : clocked w' = w := by
    show (⟨w'.map, w.clock, w'.orders⟩ : KvWorld) = w
    rw [hmap, horders]
  rw [(hp.exec hcall (s := w') trivial).1, hw]

end Calls

/-! ### The programs -/

section Programs

variable {o : ObjectStore} {w w' : FallibleWorld}

lemma only_listObjects (b start : Bytes) : (listObjects b start).Only Reads := by
  have hentries : ∀ n names objects, (listEntries b n names objects).Only Reads := by
    intro n names
    induction names with
    | nil => exact fun objects => only_pure _
    | cons name names ih =>
      intro objects
      unfold listEntries
      split
      · exact ih _
      · refine only_request_bind trivial fun raw => ?_
        cases raw with
        | none => exact ih _
        | some raw =>
          dsimp only
          cases deserializeMetadata raw with
          | none => exact ih _
          | some m =>
            dsimp only
            split
            · exact ih _
            · exact ih _
  unfold listObjects
  split
  · exact only_pure _
  · refine (only_bucketExists (fun _ => trivial) b).bind fun known => ?_
    split
    · exact only_pure _
    · exact only_request_bind trivial fun names => (hentries _ _ _).bind fun _ => only_pure _

lemma noScan_deleteObject (b k : Bytes) : (deleteObject b k).Only (¬ Scans ·) := by
  unfold deleteObject
  refine only_request_bind id fun raw => ?_
  cases raw with
  | none => exact only_pure _
  | some raw =>
    dsimp only
    cases deserializeMetadata raw with
    | none => exact only_pure _
    | some m =>
      refine only_request_bind id fun now => only_request_bind id fun _ => ?_
      refine only_request_bind id fun _ => only_request_bind id fun flushed => ?_
      split
      · exact only_pure _
      · exact only_pure _

lemma deaf_putObject (req : PutObjectRequest) : (o.putObject req).Deaf Uncertain := by
  unfold ObjectStore.putObject
  split
  · exact deaf_pure _
  split
  · exact deaf_pure _
  refine (only_bucketExists (fun _ => id) _).bind_deaf fun known => ?_
  split
  · exact deaf_pure _
  refine deaf_request_bind id fun _ => deaf_request_bind id fun ms => ?_
  refine deaf_request_bind id fun now => ?_
  refine (only_writeChunks (fun _ => id) _).bind_deaf fun _ => ?_
  refine deaf_request_bind id fun _ => deaf_request_bind id fun _ => ?_
  refine deaf_request_bind_of_calls (fun flushed => ?_) fun flushed flushed' => ?_
  · split
    · exact deaf_pure _
    · exact deaf_pure _
  · cases flushed <;> cases flushed' <;> rfl

lemma deaf_deleteObject (b k : Bytes) : (deleteObject b k).Deaf Uncertain := by
  unfold deleteObject
  refine deaf_request_bind id fun raw => ?_
  cases raw with
  | none => exact deaf_pure _
  | some raw =>
    dsimp only
    cases deserializeMetadata raw with
    | none => exact deaf_pure _
    | some m =>
      refine deaf_request_bind id fun now => deaf_request_bind id fun _ => ?_
      refine deaf_request_bind_of_calls (fun _ => ?_) fun _ _ => rfl
      refine deaf_request_bind_of_calls (fun flushed => ?_) fun flushed flushed' => ?_
      · split
        · exact deaf_pure _
        · exact deaf_pure _
      · cases flushed <;> cases flushed' <;> rfl

/-- **The reads ask the map** and the order of its scan. -/
lemma sameReads_of (hmap : w'.world.map = w.world.map) (horders : w'.world.orders = w.world.orders) :
    w.SameReads w' := by
  have hsame : ∀ {α : Type} {p : Kv α}, p.Only Reads →
      (exec fallibleService p w').1 = (exec fallibleService p w).1 := by
    intro α p hp
    rw [(exec_reads hp w').1, (exec_reads hp w).1, exec_reads_same hp hmap horders]
  exact ⟨fun b k => hsame (only_getObject (fun _ => trivial) b k),
    fun b start => hsame (only_listObjects b start)⟩

/-! ### Which exit was taken -/

/-- `PutObject` fails behind its checks at the flush only. -/
lemma putObject_failed {req : PutObjectRequest}
    (h : (exec fallibleService (o.putObject req) w).1.ok = false) :
    (exec fallibleService (o.putObject req) w).1.error = text "failed to flush WAL" ↔
      req.Accepted w.world := by
  have hwrite : ∀ id now (w : FallibleWorld),
      (exec fallibleService (o.writeObject req id now) w).1.ok = false →
      (exec fallibleService (o.writeObject req id now) w).1.error = text "failed to flush WAL" := by
    intro id now w
    simp only [ObjectStore.writeObject, exec_bind]
    split
    · exact fun _ => rfl
    · simp
  unfold ObjectStore.putObject at h ⊢
  unfold PutObjectRequest.Accepted
  by_cases hb : req.bucket = []
  · simp [hb]
    decide
  by_cases hk : req.key = []
  · simp [hb, hk]
    decide
  have hknown := (exec_reads (only_bucketExists (fun _ => trivial) req.bucket) w).1
  rw [exec_bucketExists] at hknown
  simp only [if_neg hb, if_neg hk, exec_bind, hknown] at h ⊢
  cases hw : w.world.map[bucketMetaKey req.bucket]?.isSome with
  | false =>
    simp
    decide
  | true =>
    simp only [hw, ne_eq, hb, not_false_eq_true, decide_true, Bool.and_self, Bool.not_true,
      Bool.false_eq_true, if_false] at h ⊢
    simp only [hk, not_false_eq_true, and_self, iff_true]
    exact hwrite _ _ _ h

/-- `DeleteObject` fails behind its checks at the flush only. -/
lemma deleteObject_failed {b k : Bytes} (h : (exec fallibleService (deleteObject b k) w).1.ok = false) :
    (exec fallibleService (deleteObject b k) w).1.error = text "failed to flush WAL" ↔
      (metadataOf w.world.map (objectName b k)).isSome := by
  have hget : (fallibleService (.get (objectMetaKey b k)) w).1 = w.world.map[objectMetaKey b k]? := rfl
  unfold deleteObject at h ⊢
  rw [metadataOf, ← objectMetaKey_eq]
  simp only [exec_bind, Kv.get, exec_request, hget] at h ⊢
  cases hraw : w.world.map[objectMetaKey b k]? with
  | none =>
    simp
    decide
  | some raw =>
    simp only [hraw] at h ⊢
    cases hm : deserializeMetadata raw with
    | none =>
      simp [hm]
      decide
    | some m =>
      simp only [hm, exec_bind] at h ⊢
      split
      · simp [hm]
      · next hflush => simp [hflush] at h

/-- A call that leaves the map when its writes succeed leaves the reads in any case. -/
lemma sameReads_of_refused {α : Type} {p : Kv α} (hdeaf : p.Deaf Uncertain)
    (hscan : p.Only (¬ Scans ·)) (hkv : (exec kvService p w.world).2 = w.world) :
    w.SameReads (exec fallibleService p w).2 := by
  by_cases hw : w.Writable
  · have hworld := (exec_writable hdeaf hw).trans hkv
    exact sameReads_of (by rw [hworld]) (by rw [hworld])
  · obtain ⟨hmap, horders⟩ := exec_unwritable hscan hw
    exact sameReads_of hmap horders

end Programs

/-! ### Failed calls -/

/-- **What a call leaves that fails with an error**, `done` being what it answers and leaves when its
writes and its flush succeed. -/
structure Leaves (w w' : FallibleWorld) (error : Bytes) (done : Bool × KvWorld) : Prop where
  refused : error ≠ text "failed to flush WAL" → w.SameReads w'
  unwritable : ¬ w.Writable → w.SameReads w'
  written : error = text "failed to flush WAL" → w.Writable → done.1 = true ∧ w'.world = done.2

/-- **Failed calls.** In every state a `PutObject` or a `DeleteObject` that fails in one of its checks
changes no answer of `GetObject` and `ListObjects`. One whose flush fails leaves the map as when the
flush succeeds, or as it was if the store cannot be written. -/
theorem failed_calls (o : ObjectStore) (w : FallibleWorld) :
    (∀ req, (exec fallibleService (o.putObject req) w).1.ok = false →
      Leaves w (exec fallibleService (o.putObject req) w).2
        (exec fallibleService (o.putObject req) w).1.error
        ((Op.putObject req).perform o w.world)) ∧
    ∀ b k, (exec fallibleService (deleteObject b k) w).1.ok = false →
      Leaves w (exec fallibleService (deleteObject b k) w).2
        (exec fallibleService (deleteObject b k) w).1.error
        ((Op.deleteObject b k).perform o w.world) := by
  constructor
  · intro req hfail
    have hexit := putObject_failed hfail
    obtain ⟨haccepted, hrefused⟩ := exec_putObject o req w.world
    have hdeaf := deaf_putObject (o := o) req
    have hscan : (o.putObject req).Only (¬ Scans ·) :=
      only_putObject (fun _ => id) id id fun _ _ => ⟨fun _ => id, id, id⟩
    refine ⟨fun he => ?_, fun hw => ?_, fun he hw => ?_⟩
    · exact sameReads_of_refused hdeaf hscan (hrefused fun h => he (hexit.mpr h)).2
    · obtain ⟨hmap, horders⟩ := exec_unwritable hscan hw
      exact sameReads_of hmap horders
    · simp only [Op.perform, Op.prog, exec_bind, exec_pure]
      refine ⟨?_, exec_writable hdeaf hw⟩
      rw [haccepted (hexit.mp he)]
      rfl
  · intro b k hfail
    have hexit := deleteObject_failed hfail
    obtain ⟨hdeleted, hmissing⟩ := exec_deleteObject b k w.world
    have hdeaf := deaf_deleteObject b k
    have hscan := noScan_deleteObject b k
    refine ⟨fun he => ?_, fun hw => ?_, fun he hw => ?_⟩
    · have hnone : metadataOf w.world.map (objectName b k) = none := by
        simpa using fun h => he (hexit.mpr h)
      exact sameReads_of_refused hdeaf hscan (hmissing hnone).2
    · obtain ⟨hmap, horders⟩ := exec_unwritable hscan hw
      exact sameReads_of hmap horders
    · obtain ⟨m, hm⟩ := Option.isSome_iff_exists.mp (hexit.mp he)
      simp only [Op.perform, Op.prog, exec_bind, exec_pure]
      refine ⟨?_, exec_writable hdeaf hw⟩
      rw [hdeleted m hm]

/-- A store with one bucket, whose flushes will fail. -/
def failingWorld : FallibleWorld :=
  (exec fallibleService (createBucket (text "b")) ⟨.quiet, fun _ => .syncFails⟩).2

/-- **An object of a call that failed** is found and listed, and a delete that failed hides it. -/
theorem failed_put_found :
    let put := exec fallibleService (smallStore.putObject (requestOf (text "new") (by decide))) failingWorld
    let del := exec fallibleService (deleteObject (text "b") (text "k")) put.2
    put.1.ok = false ∧ put.1.error = text "failed to flush WAL" ∧
      (failingWorld.objectAt (text "b") (text "k")).found = false ∧
      (put.2.objectAt (text "b") (text "k")).found = true ∧
      (put.2.objectsIn (text "b") []).objects.length = 1 ∧
      del.1.ok = false ∧ (del.2.objectAt (text "b") (text "k")).found = false := by
  decide +kernel

/-- A request for a bucket that is not there, and one whose flush fails behind its writes: the map is
the one of a request that succeeds. -/
theorem failed_put_refused :
    FallibleWorld.SameReads ⟨.quiet, fun _ => .syncFails⟩
      (exec fallibleService (smallStore.putObject (requestOf (text "new") (by decide)))
        ⟨.quiet, fun _ => .syncFails⟩).2 ∧
    (exec fallibleService (smallStore.putObject (requestOf (text "new") (by decide)))
        failingWorld).2.world =
      ((Op.putObject (requestOf (text "new") (by decide))).perform smallStore failingWorld.world).2 :=
  ⟨((failed_calls smallStore ⟨.quiet, fun _ => .syncFails⟩).1 (requestOf (text "new") (by decide))
      (by decide +kernel)).refused (by decide +kernel),
    (((failed_calls smallStore failingWorld).1 (requestOf (text "new") (by decide))
      (by decide +kernel)).written (by decide +kernel) ⟨by decide +kernel, by decide +kernel⟩).2⟩

end VeriStore.Object

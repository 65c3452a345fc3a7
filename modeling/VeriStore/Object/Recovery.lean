import VeriStore.Object.Crash
import VeriStore.Object.Failed
import VeriStore.Store.Recovery

/-!
Objects behind a crash of the process.

The operations run on the key-value store itself, with its memtable, its log, its group commits and
its flush worker. The process ends in the middle of an operation, between two calls of the store or
while a call writes to the log, and what is left of the log is any part of what was being written.
The next process opens the store on the files.

* `Logs` — the log of the store is the journal of the operations: its file has the durable
  mutations and its buffer the others;
* `objects_recovered` — behind a crash and the recovery from the bytes of the log, every object is
  as it was before the interrupted operation, or as it is behind it.
-/

namespace VeriStore.Object

open VeriStore.Lib VeriStore.Lib.Prog VeriStore.Store VeriStore.Log

variable {o : ObjectStore}

deriving instance DecidableEq for KvCall

/-! ### Answers that do not count -/

lemma deaf_createBucket (b : Bytes) : (createBucket b).Deaf Uncertain := by
  unfold createBucket
  split
  · exact deaf_pure _
  · refine deaf_request_bind id fun raw => ?_
    cases raw with
    | some v => exact deaf_pure _
    | none => exact deaf_request_bind id fun _ => deaf_request_bind id fun _ => deaf_pure _

lemma only_reachableIds (keys ids : List Bytes) : (reachableIds keys ids).Only (¬ Uncertain ·) := by
  induction keys generalizing ids with
  | nil => exact only_pure _
  | cons key keys ih =>
    unfold reachableIds
    refine only_request_bind id fun raw => ?_
    cases raw with
    | none => exact ih _
    | some raw =>
      dsimp only
      cases deserializeMetadata raw with
      | none => exact ih _
      | some m =>
        dsimp only
        split
        · exact ih _
        · exact ih _

/-- The end of a collection. -/
def flushCount (deleted : ℕ) : Kv ℕ := do
  let _ ← Kv.flushWal
  pure deleted

/-- The number of chunks that are gone changes no call. -/
lemma sweepChunks_calls (reachable names : List Bytes) (n n' : ℕ) :
    (sweepChunks reachable names n >>= flushCount).calls =
      (sweepChunks reachable names n' >>= flushCount).calls := by
  induction names generalizing n n' with
  | nil => rfl
  | cons name names ih =>
    unfold sweepChunks
    cases chunkOwner name with
    | none => exact ih n n'
    | some id =>
      dsimp only
      split
      · exact ih n n'
      · exact congrArg (Prog.call (KvCall.del name)) (funext fun gone => ih _ _)

lemma deaf_sweepChunks (reachable names : List Bytes) (n : ℕ) :
    (sweepChunks reachable names n >>= flushCount).Deaf Uncertain := by
  induction names generalizing n with
  | nil => exact deaf_request_bind_of_calls (fun _ => deaf_pure _) fun _ _ => rfl
  | cons name names ih =>
    unfold sweepChunks
    cases chunkOwner name with
    | none => exact ih n
    | some id =>
      dsimp only
      split
      · exact ih n
      · exact deaf_request_bind_of_calls (fun gone => ih _) fun gone gone' =>
          sweepChunks_calls reachable names _ _

lemma deaf_garbageCollectChunks : garbageCollectChunks.Deaf Uncertain := by
  unfold garbageCollectChunks
  refine deaf_request_bind id fun metaKeys => (only_reachableIds _ _).bind_deaf fun reachable => ?_
  exact deaf_request_bind id fun chunkKeys => deaf_sweepChunks _ _ _

/-- **No operation listens** to what a delete or a flush answers. -/
lemma Op.deaf (op : Op) : (op.prog o).Deaf Uncertain := by
  cases op with
  | createBucket b => exact deaf_createBucket b
  | putObject req => exact (deaf_putObject req).bind_pure _
  | deleteObject b k => exact (deaf_deleteObject b k).bind_pure _
  | garbageCollectChunks => exact deaf_garbageCollectChunks.bind_pure _

/-! ### The log of the store -/

/-- The mutation as the store logs it. -/
def Mutation.logged : Mutation → Store.Mutation
  | .put key value => ⟨key, some value⟩
  | .del key => ⟨key, none⟩

/-- **The log of the store is the journal**: the file has at least the mutations that the operations
have flushed, and the buffer has the others. -/
structure Logs (w : StoreWorld) (j : Journal) : Prop where
  world : w.world = j.world
  snapshot : w.disk.snapshot = none
  log : ∃ durable, j.durable ≤ durable ∧
    Session.LogInv 0 [] ⟨w.store, w.disk, j.issued.map Mutation.logged, durable⟩

section Logs

variable {w : StoreWorld} {j : Journal}

lemma start_logs (clock : Stream' UInt64) (orders : Stream' Shuffle) (turns : Stream' ℕ) :
    Logs (.start clock orders turns) ⟨(StoreWorld.start clock orders turns).world, [], 0⟩ :=
  ⟨rfl, rfl, 0, le_rfl, Session.start_logInv Disk.empty⟩

/-- The worker writes neither the log nor the snapshot. -/
lemma Logs.worked (h : Logs w j) : Logs w.worked j := by
  obtain ⟨hwal, hsnap⟩ := FlushWorker.runOn_files w.turns.head w.store.flushWorker w.disk
  obtain ⟨durable, hle, hlog⟩ := h.log
  refine ⟨h.world, hsnap.trans h.snapshot, durable, hle, hlog.opened, hlog.durable_le, ?_, hlog.seq⟩
  exact ⟨hlog.log.fd, hwal.trans hlog.log.disk, hlog.log.buffer⟩

/-- **A mutation** is logged, and perhaps flushed. -/
lemma Logs.write (h : Logs w j) (m : Mutation) (hmap : (w.store.applyRecord
      ⟨w.store.seq + 1, m.logged.key, m.logged.value⟩).map = m.apply w.store.map) :
    Logs { w with
        store := ((w.store.logged ⟨w.store.seq + 1, m.logged.key, m.logged.value⟩).finishWrite
          w.disk .ok).2.1
        disk := ((w.store.logged ⟨w.store.seq + 1, m.logged.key, m.logged.value⟩).finishWrite
          w.disk .ok).2.2 }
      { world := { j.world with map := m.apply j.world.map }
        issued := j.issued ++ [m]
        durable := j.durable } := by
  obtain ⟨durable, hle, hlog⟩ := h.log
  have hseq : w.store.seq + 1 = 0 + (j.issued.map Mutation.logged).length + 1 :=
    congrArg (· + 1) hlog.seq
  obtain ⟨x, i, n, fw, l, f, hf⟩ := (w.store.logged
    ⟨w.store.seq + 1, m.logged.key, m.logged.value⟩).finishWrite_frame w.disk .ok
  refine ⟨?_, ?_, ?_⟩
  · rw [← h.world]
    simp only [StoreWorld.world, hf, KVStore.logged_map, hmap]
  · simp only [hf]
    exact h.snapshot
  · obtain ⟨durable', hlog', hcase⟩ := (hlog.logged m.logged).finishWrite
    refine ⟨durable', ?_, ?_⟩
    · have := hlog.durable_le
      rcases hcase with rfl | rfl
      · exact hle
      · exact (hle.trans this).trans (by simp)
    · rw [List.map_append, List.map_singleton, hseq]
      exact hlog'

/-- A flush makes everything durable. -/
lemma Logs.flushWal (h : Logs w j) :
    (w.store.flushWal w.disk .ok).1 = true ∧
    Logs { w with
        store := (w.store.flushWal w.disk .ok).2.1
        disk := (w.store.flushWal w.disk .ok).2.2 }
      { j with durable := j.issued.length } := by
  obtain ⟨durable, hle, hlog⟩ := h.log
  have hflush := hlog.log.flushWal
  refine ⟨by rw [hflush], h.world, by rw [hflush]; exact h.snapshot, j.issued.length, le_rfl, ?_⟩
  have hall : Session.LogInv _ _ ⟨(w.store.flushWal w.disk .ok).2.1,
      (w.store.flushWal w.disk .ok).2.2, _, _⟩ :=
    hlog.of_flushed (by rw [hflush]) (by rw [hflush]) hlog.log.flushed
  rwa [List.length_map] at hall

/-- **One call of the store** is logged as the journal says. -/
lemma Logs.call (c : KvCall) (h : Logs w j) : Logs (storeService c w).2 (journalService c j).2 := by
  have h := h.worked
  obtain ⟨durable, hle, hlog⟩ := h.log
  have hopened : w.worked.store.opened = true := hlog.opened
  have hfd : w.worked.store.wal.fd.isSome := by
    have : w.worked.store.wal.fd = _ := hlog.log.fd
    simp [this]
  have hmap : w.worked.store.map = j.world.map := congrArg KvWorld.map h.world
  have hnil : j.issued ++ [] = j.issued := List.append_nil _
  cases c with
  | get key =>
    show Logs w.worked ⟨j.world, j.issued ++ [], j.durable⟩
    rw [hnil]
    exact h
  | nowEpochMs =>
    have hworld := congrArg (fun v : KvWorld => { v with clock := v.clock.tail }) h.world
    show Logs { w.worked with clock := w.worked.clock.tail } ⟨_, j.issued ++ [], j.durable⟩
    rw [hnil]
    exact ⟨hworld, h.snapshot, durable, hle, hlog⟩
  | listKeys start =>
    have hworld := congrArg (fun v : KvWorld => { v with orders := v.orders.tail }) h.world
    show Logs { w.worked with orders := w.worked.orders.tail } ⟨_, j.issued ++ [], j.durable⟩
    rw [hnil]
    exact ⟨hworld, h.snapshot, durable, hle, hlog⟩
  | put key value =>
    have hput := h.write (.put key value) rfl
    have hs : w.worked.store.put w.worked.disk key value .ok = _ :=
      KVStore.put_eq hopened hfd key value
    show Logs (w.worked.put key value) _
    unfold StoreWorld.put
    rw [hs]
    exact hput
  | flushWal =>
    have hflush := h.flushWal.2
    show Logs _ ⟨j.world, j.issued ++ [], (j.issued ++ []).length⟩
    rw [hnil]
    exact hflush
  | del key =>
    cases hkey : w.worked.store.get key with
    | none =>
      have hdel : w.worked.store.del w.worked.disk key .ok = (false, w.worked.store, w.worked.disk) :=
        KVStore.del_absent hkey
      have hnone : j.world.map[key]? = none := hmap ▸ hkey
      have herase : j.world.map.erase key = j.world.map := by
        refine Std.ExtTreeMap.ext_getElem? fun a => ?_
        rw [lookup_erase]
        split
        · next hk => exact hk ▸ hnone.symm
        · rfl
      show Logs { w.worked with
        store := (w.worked.store.del w.worked.disk key .ok).2.1
        disk := (w.worked.store.del w.worked.disk key .ok).2.2 }
        ⟨{ j.world with map := j.world.map.erase key }, j.issued ++ mutationsOf j.world.map (.del key),
          j.durable⟩
      rw [hdel, herase, mutationsOf, hnone]
      simp only [Option.isSome_none, Bool.false_eq_true, if_false, hnil]
      exact h
    | some value =>
      have hsome : (w.worked.store.get key).isSome := by simp [hkey]
      have hmut : mutationsOf j.world.map (.del key) = [.del key] := by
        rw [mutationsOf, ← hmap]
        exact if_pos hsome
      have hdel := h.write (.del key) rfl
      have hs : w.worked.store.del w.worked.disk key .ok = _ := KVStore.del_eq hopened hfd hsome
      show Logs { w.worked with
        store := (w.worked.store.del w.worked.disk key .ok).2.1
        disk := (w.worked.store.del w.worked.disk key .ok).2.2 }
        ⟨{ j.world with map := j.world.map.erase key }, j.issued ++ mutationsOf j.world.map (.del key),
          j.durable⟩
      rw [hmut, hs]
      exact hdel

/-- The answers that the operations listen to are those of the map. -/
lemma Logs.answer {c : KvCall} (hc : ¬ Uncertain c) (h : Logs w j) :
    (storeService c w).1 = (journalService c j).1 := by
  have hmap : w.store.map = j.world.map := congrArg KvWorld.map h.world
  have horders : w.orders = j.world.orders := congrArg KvWorld.orders h.world
  have hclock : w.clock = j.world.clock := congrArg KvWorld.clock h.world
  cases c with
  | get key =>
    show w.store.map[key]? = j.world.map[key]?
    rw [hmap]
  | put key value => rfl
  | listKeys start =>
    show w.orders.head.apply (keysWith w.store.map start) =
      j.world.orders.head.apply (keysWith j.world.map start)
    rw [horders, hmap]
  | nowEpochMs =>
    show w.clock.head = j.world.clock.head
    rw [hclock]
  | del | flushWal => exact absurd trivial hc

/-- **Every run of operations.** -/
lemma Logs.run (ops : List Op) (h : Logs w j) :
    Logs (StoreWorld.run o ops w) (journalRun o ops j) := by
  induction ops generalizing w j with
  | nil => exact h
  | cons op ops ih =>
    exact ih (op.deaf.simulates (I := Logs) (fun c _ _ => Logs.call c)
      (fun _ _ _ hc hI => hI.answer hc) h)

lemma journalRun_world (ops : List Op) (j : Journal) :
    (journalRun o ops j).world = Object.run o ops j.world := by
  induction ops generalizing j with
  | nil => rfl
  | cons op ops ih =>
    rw [journalRun, ih, (extends_journal.exec (op.prog o) j).2]
    rfl

end Logs

/-! ### The crash -/

/-- The bytes of the log file. -/
def StoreWorld.file (w : StoreWorld) : Bytes := w.disk.wal.getD []

/-- **What is left of the log** when a run is broken off: inside a call, any part of what the call
writes. -/
def StoreWorld.Leaves (w : StoreWorld) (c : Option KvCall) (f : Bytes) : Prop :=
  match c with
  | none => f = w.file
  | some c => w.file <+: f ∧ f <+: (storeService c w).2.file

/-- The mutation fits the header of a record. -/
def Mutation.Fits (m : Mutation) : Prop :=
  m.logged.key.length < 2 ^ 32 ∧ (m.logged.value.getD []).length < 2 ^ 32

instance (m : Mutation) : Decidable m.Fits := inferInstanceAs (Decidable (_ ∧ _))

section Crash

variable {w t : StoreWorld} {j u : Journal}

lemma Logs.file_eq (h : Logs w j) : ∃ durable, j.durable ≤ durable ∧ durable ≤ j.issued.length ∧
    w.file = encode ((recordsFrom 0 (j.issued.map Mutation.logged)).take durable) := by
  obtain ⟨durable, hle, hlog⟩ := h.log
  have hlen := hlog.durable_le
  rw [List.length_map] at hlen
  refine ⟨durable, hle, hlen, ?_⟩
  have hdisk := hlog.log.disk
  rw [List.nil_append] at hdisk
  rw [StoreWorld.file, hdisk, Option.getD_some]

/-- A flush writes behind what is there. -/
lemma Logs.file_prefix (h : Logs w j) : w.file <+: (storeService .flushWal w).2.file := by
  obtain ⟨durable, -, hlog⟩ := h.worked.log
  have hworked : w.worked.file = w.file :=
    congrArg (Option.getD · []) (FlushWorker.runOn_files _ _ _).1
  have hflush := hlog.log.flushWal
  rw [← hworked]
  show w.worked.file <+: ((w.worked.store.flushWal w.worked.disk .ok).2.2.wal).getD []
  rw [hflush, Option.getD_some, StoreWorld.file, hlog.log.disk, Option.getD_some]
  exact List.prefix_append _ _

lemma encode_take_prefix (rs : List Record) (n : ℕ) : encode (rs.take n) <+: encode rs := by
  conv_rhs => rw [← List.take_append_drop n rs, encode_append]
  exact List.prefix_append _ _

/-- A log file that is a part of the encoded mutations, and has the first `k` of them. -/
lemma records_of_journal {ms : List Mutation} (hfits : ∀ m ∈ ms, m.Fits) (hlen : ms.length < 2 ^ 64)
    {f : Bytes} (hf : f <+: encode (recordsFrom 0 (ms.map Mutation.logged))) {k : ℕ}
    (hk : k ≤ ms.length) (hfk : encode ((recordsFrom 0 (ms.map Mutation.logged)).take k) <+: f) :
    ∃ n, k ≤ n ∧ n ≤ ms.length ∧
      records f = recordsFrom 0 ((ms.take n).map Mutation.logged) := by
  have hall : ∀ r ∈ recordsFrom 0 (ms.map Mutation.logged), r.Fits := by
    refine recordsFrom_fits (fun m hm => ?_) (by rw [List.length_map]; omega)
    obtain ⟨m', hm', rfl⟩ := List.mem_map.mp hm
    exact hfits m' hm'
  obtain ⟨n, hn, hrec, hleast⟩ := records_cut hall hf
  rw [recordsFrom_length, List.length_map] at hn hleast
  exact ⟨n, hleast k hk hfk, hn, by rw [hrec, ← recordsFrom_take, List.map_take]⟩

/-- **A crash keeps a first part of the mutations**, with those that were flushed. -/
lemma Logs.cut (h : Logs t u) {c : Option KvCall} {f : Bytes} (hleft : t.Leaves c f)
    (hfits : ∀ v, (v = u ∨ ∃ c', c = some c' ∧ v = (journalService c' u).2) →
      (∀ m ∈ v.issued, m.Fits) ∧ v.issued.length < 2 ^ 64) :
    ∃ v n, (v = u ∨ ∃ c', c = some c' ∧ v = (journalService c' u).2) ∧ v.durable ≤ n ∧
      n ≤ v.issued.length ∧ records f = recordsFrom 0 ((v.issued.take n).map Mutation.logged) := by
  obtain ⟨durable, hle, hlen, hfile⟩ := h.file_eq
  cases c with
  | none =>
    obtain rfl : f = t.file := hleft
    obtain ⟨n, hn, hn', hrec⟩ := records_of_journal (hfits u (Or.inl rfl)).1 (hfits u (Or.inl rfl)).2
      (hfile ▸ encode_take_prefix _ _) hlen (hfile ▸ List.prefix_rfl)
    exact ⟨u, n, Or.inl rfl, hle.trans hn, hn', hrec⟩
  | some c =>
    obtain ⟨hold, hnew⟩ := hleft
    obtain ⟨durable', -, -, hfile'⟩ := (h.call c).file_eq
    -- inside a flush nothing is issued, and other calls flush nothing of the operation's own
    obtain ⟨v, hv, hdurable, hissued⟩ : ∃ v, (v = u ∨ ∃ c', some c = some c' ∧
        v = (journalService c' u).2) ∧ v.durable = u.durable ∧
        v.issued = (journalService c u).2.issued := by
      cases c with
      | flushWal => exact ⟨u, Or.inl rfl, rfl, (List.append_nil _).symm⟩
      | _ => exact ⟨_, Or.inr ⟨_, rfl, rfl⟩, rfl, rfl⟩
    obtain ⟨hfit, hmax⟩ := hfits v hv
    have hgrow : u.issued <+: v.issued := hissued ▸ List.prefix_append _ _
    have htake : (recordsFrom 0 (v.issued.map Mutation.logged)).take durable =
        (recordsFrom 0 (u.issued.map Mutation.logged)).take durable := by
      obtain ⟨l, hl⟩ := hgrow
      rw [← recordsFrom_take, ← recordsFrom_take, ← List.map_take, ← List.map_take, ← hl,
        List.take_append_of_le_length hlen]
    obtain ⟨n, hn, hn', hrec⟩ := records_of_journal hfit hmax
      (hnew.trans (hfile'.symm ▸ hissued ▸ encode_take_prefix _ _)) (hlen.trans hgrow.length_le)
      (by rw [htake, ← hfile]; exact hold)
    exact ⟨v, n, hv, hdurable.le.trans (hle.trans hn), hn', hrec⟩

end Crash

/-! ### Recovery -/

/-- The records of the mutations make the map of the mutations. -/
lemma applyRecords_journal (ms : List Mutation) :
    (KVStore.new.applyRecords (recordsFrom 0 (ms.map Mutation.logged))).map = replay ms := by
  induction ms using List.reverseRecOn with
  | nil => rfl
  | append_singleton ms m ih =>
    rw [List.map_append, List.map_singleton, recordsFrom_concat, replay, List.foldl_append]
    unfold KVStore.applyRecords
    rw [List.foldl_append]
    have hone : ∀ (s : KVStore) (n : ℕ), (s.applyRecord (m.logged.record n)).map = m.apply s.map := by
      intro s n
      cases m <;> rfl
    exact (hone _ _).trans (congrArg m.apply ih)

/-- **The next process** finds the mutations that are in the log. -/
lemma open_journal {d : Disk} {ms : List Mutation} (hsnap : d.snapshot = none)
    (hrec : records (d.wal.getD []) = recordsFrom 0 (ms.map Mutation.logged)) :
    (KVStore.new.open d .ok).1 = true ∧ (KVStore.new.open d .ok).2.1.map = replay ms := by
  obtain ⟨good, ho⟩ := KVStore.open_new d .ok rfl rfl
  obtain ⟨b, paths, n, w, m, t, hf⟩ := (KVStore.recovered d good).openTables_frame
    { d with wal := some (d.wal.getD []) } .ok
  rw [ho]
  refine ⟨KVStore.openTables_fst _ _ rfl, ?_⟩
  rw [hf]
  simp only [KVStore.recovered, hsnap, hrec]
  exact applyRecords_journal ms

/-- The next process opens the store on the files `d`. -/
def StoreWorld.recover (w : StoreWorld) (d : Disk) : StoreWorld :=
  { w with
    store := (KVStore.new.open d .ok).2.1
    disk := (KVStore.new.open d .ok).2.2 }

lemma issued_prefix {α : Type} {p : Kv α} {j t : Journal} (ht : Point journalService p j t) (hj : j.Ok) :
    t.issued <+: (exec journalService p j).2.issued := by
  induction ht with
  | here p s =>
    obtain ⟨-, -, l, hl⟩ := journal_grows (Point.exec p s) hj
    exact ⟨l, hl.symm⟩
  | later _ ih => exact ih (hj.call _).1

lemma journalRun_ok (ops : List Op) {j : Journal} (hj : j.Ok) : (journalRun o ops j).Ok := by
  induction ops generalizing j with
  | nil => exact hj
  | cons op ops ih => exact ih (journal_grows (Point.exec (op.prog o) j) hj).1

lemma journalRun_concat (ops : List Op) (op : Op) (j : Journal) : journalRun o (ops ++ [op]) j =
    (exec journalService (op.prog o) (journalRun o ops j)).2 := by
  induction ops generalizing j with
  | nil => rfl
  | cons op' ops ih => exact ih _

/-- **Objects are recovered.** The operations run on the store from empty files, with fresh ids, and
the process ends somewhere in the last one; what the log file then has is any part of what was being
written, and the files of the worker may look in any way. The next process opens the store, and every
object is as it was before the interrupted operation, or every object is as it is behind it. Where no
bucket has a colon in its name, this is a whole object, or none. -/
theorem objects_recovered (o : ObjectStore) {ops : List Op} {op : Op} {clock : Stream' UInt64}
    {orders : Stream' Shuffle} {turns : Stream' ℕ} {t : StoreWorld} {c : Option KvCall} {f : Bytes}
    {d : Disk}
    (htab : ∀ op' ∈ ops ++ [op], op'.TabFree)
    (hfresh : (objectIds o (ops ++ [op]) (StoreWorld.start clock orders turns).world).Nodup)
    (hfits : ∀ m ∈ (journalRun o (ops ++ [op])
      ⟨(StoreWorld.start clock orders turns).world, [], 0⟩).issued, m.Fits)
    (hlen : (journalRun o (ops ++ [op])
      ⟨(StoreWorld.start clock orders turns).world, [], 0⟩).issued.length < 2 ^ 64)
    (ht : Broken storeService (op.prog o) (StoreWorld.run o ops (.start clock orders turns)) t c)
    (hleft : t.Leaves c f) (hwal : d.wal = some f) (hsnap : d.snapshot = t.disk.snapshot) :
    (KVStore.new.open d .ok).1 = true ∧
    ((∀ b k, (t.recover d).objectAt b k =
        (StoreWorld.run o ops (.start clock orders turns)).objectAt b k) ∨
      ∀ b k, (t.recover d).objectAt b k =
        (StoreWorld.run o (ops ++ [op]) (.start clock orders turns)).objectAt b k) ∧
    ((∀ op' ∈ ops ++ [op], op'.ColonFree) →
      ∀ b k, colon ∉ b → Whole o (ops ++ [op]) b k ((t.recover d).objectAt b k)) := by
  set w₀ := StoreWorld.start clock orders turns with hw₀
  set j₀ : Journal := ⟨w₀.world, [], 0⟩ with hj₀
  have hj : j₀.Ok := ⟨rfl, le_rfl⟩
  have hmap : w₀.world.map = ∅ := rfl
  have hstart : Logs w₀ j₀ := start_logs clock orders turns
  -- the journal is broken off at the same place
  obtain ⟨u, hu, hlogs⟩ := op.deaf.simulates_broken (I := Logs) (fun c _ _ => Logs.call c)
    (fun _ _ _ hc hI => hI.answer hc) (hstart.run ops) ht
  have hpoint : ∀ v, (v = u ∨ ∃ c', c = some c' ∧ v = (journalService c' u).2) →
      Point journalService (op.prog o) (journalRun o ops j₀) v := by
    rintro v (rfl | ⟨c', rfl, rfl⟩)
    · exact hu.point
    · exact hu.next
  have hissued : ∀ v, (v = u ∨ ∃ c', c = some c' ∧ v = (journalService c' u).2) →
      (∀ m ∈ v.issued, m.Fits) ∧ v.issued.length < 2 ^ 64 := fun v hv => by
    have hpre := issued_prefix (hpoint v hv) (journalRun_ok ops hj)
    rw [← journalRun_concat] at hpre
    exact ⟨fun m hm => hfits m (hpre.subset hm), hpre.length_le.trans_lt hlen⟩
  obtain ⟨v, n, hv, hn, hn', hrec⟩ := hlogs.cut hleft hissued
  obtain ⟨hopen, hrestored⟩ := open_journal (hsnap.trans hlogs.snapshot) (by rw [hwal]; exact hrec)
  -- the crash of the journal
  have hs : Settled j₀ := fun n _ _ v hv =>
    objectAt_of_map (hv.trans (by rw [List.take_nil]; rfl))
  have hrep : Represents o w₀.world.map [] := by
    rw [hmap]
    exact represents_empty o
  have hnames : NamesOnly w₀.world.map [] := by
    intro name m hm
    rw [hmap] at hm
    simp [metadataOf] at hm
  have hcrash := crash_from hj hs hrep hnames (fun x hx => htab x (by simp [hx])) hfresh
    (hpoint v hv) hn hn' (v := (t.recover d).world) hrestored
  have hworld : ∀ ops', (StoreWorld.run o ops' w₀).world = Object.run o ops' w₀.world := fun ops' => by
    rw [(hstart.run ops').world, journalRun_world]
  refine ⟨hopen, ?_, fun hcolon b k hb => ?_⟩
  · rcases hcrash with h | h
    · exact Or.inl fun b k => by rw [StoreWorld.objectAt_eq, StoreWorld.objectAt_eq, h, hworld]
    · exact Or.inr fun b k => by rw [StoreWorld.objectAt_eq, StoreWorld.objectAt_eq, h, hworld]
  · rw [StoreWorld.objectAt_eq]
    rcases hcrash with h | h
    · rw [h]
      have hrun : Represents o (Object.run o ops w₀.world).map (Object.accepted o ops w₀.world) :=
        represents_run hmap fun x hx => htab x (by simp [hx])
      exact hrun.whole (fun x hx => by simp [(exists_of_mem_accepted hx).1]) hcolon hb k
    · rw [h]
      exact (represents_run hmap htab).whole (fun x hx => (exists_of_mem_accepted hx).1) hcolon hb k

/-- An object is overwritten. -/
def overwriting : List Op :=
  [.createBucket (text "b"), .putObject (requestOf (text "old") (by decide))]

def overwrite : Op := .putObject (requestOf (text "new") (by decide))

def beforeOverwrite : StoreWorld := .run smallStore overwriting
  (.start (fun n => UInt64.ofNat n) (fun _ => ⟨id, List.Perm.refl⟩) fun _ => 0)

/-- The store in front of the flush of the overwriting call, which begins with the new metadata. -/
def beforeFlush : StoreWorld := (overwrite.prog smallStore).after storeService 8 beforeOverwrite

/-- A part of the four records that the flush writes. -/
def tornLog : Bytes := (storeService .flushWal beforeFlush).2.file.take 350

lemma beforeFlush_broken :
    Broken storeService (overwrite.prog smallStore) beforeOverwrite beforeFlush (some .flushWal) := by
  have ht := Broken.after (h := storeService) 8 (overwrite.prog smallStore) beforeOverwrite
  have hcall : (overwrite.prog smallStore).nextCall storeService 8 beforeOverwrite =
      some .flushWal := by
    decide +kernel
  rwa [hcall] at ht

lemma beforeFlush_leaves : beforeFlush.Leaves (some .flushWal) tornLog := by
  obtain ⟨v, -, hlogs⟩ := overwrite.deaf.simulates_broken (I := Logs) (fun c _ _ => Logs.call c)
    (fun _ _ _ hc hI => hI.answer hc) ((start_logs _ _ _).run overwriting) beforeFlush_broken
  exact ⟨List.prefix_take_iff.mpr ⟨hlogs.file_prefix, by decide +kernel⟩, List.take_prefix _ _⟩

/-- The process ends inside the flush. -/
theorem objects_recovered_overwrite :
    ((∀ b k, (beforeFlush.recover { beforeFlush.disk with wal := some tornLog }).objectAt b k =
        beforeOverwrite.objectAt b k) ∨
      ∀ b k, (beforeFlush.recover { beforeFlush.disk with wal := some tornLog }).objectAt b k =
        (beforeOverwrite.perform smallStore overwrite).2.objectAt b k) ∧
    (∀ b k, colon ∉ b → Whole smallStore (overwriting ++ [overwrite]) b k
      ((beforeFlush.recover { beforeFlush.disk with wal := some tornLog }).objectAt b k)) ∧
    beforeFlush.file.length < tornLog.length := by
  have hcolon : ∀ op' ∈ overwriting ++ [overwrite], op'.ColonFree := by
    simp [Op.ColonFree, overwriting, overwrite, requestOf]
    decide
  have htab : ∀ op' ∈ overwriting ++ [overwrite], op'.TabFree := by
    simp [Op.TabFree, overwriting, overwrite, requestOf]
    decide
  have h := objects_recovered smallStore htab (by decide +kernel) (by decide +kernel)
    (by decide +kernel) beforeFlush_broken beforeFlush_leaves
    (d := { beforeFlush.disk with wal := some tornLog }) rfl rfl
  exact ⟨h.2.1, h.2.2 hcolon, by decide +kernel⟩

end VeriStore.Object

import VeriStore.Store.Opening

/-!
The group boundary.

At a group boundary a write flushes the log, but only behind a rotation that returned true: while
an earlier flush of the memtable is outstanding and the memtable is full again, or when the worker
was not started, the write returns before the flush and its record stays in the buffer. A store is
followed through openings that fail and succeed, calls, exits and crashes (`Logbook.runEvents`).

* `group_commit_iff` — when the boundary is a durability boundary;
* `full_memtable_not_committed`, `no_worker_not_committed` — boundaries at which nothing is flushed.
-/

namespace VeriStore.Store

open VeriStore.Lib VeriStore.Sstable VeriStore.Log

open KVStore (OpenIo)

/-! ### Stores that are opened again -/

/-- The log file can be written. -/
def Event.logs : Event → Bool
  | .call a => a.logs
  | _ => true

namespace Logbook

/-- A new store on the files `d`. -/
def new (d : Disk) : Logbook := ⟨⟨KVStore.new, d, .idle, []⟩, d.wal.getD [], 0⟩

/-- What happens to a store; an opening of a store that is not open begins with the log file that it
finds, and so does the next process. -/
def apply (L : Logbook) (e : Event) : Option Logbook :=
  match e with
  | .call a => L.step a
  | .open io => (Event.apply (.open io) L.process).map fun σ =>
      if L.process.store.opened then { L with process := σ } else ⟨σ, σ.disk.wal.getD [], 0⟩
  | e => (e.apply L.process).map fun σ => ⟨σ, σ.disk.wal.getD [], 0⟩

def runEvents (L : Logbook) (es : List Event) : Option Logbook := es.foldlM apply L

/-- **An opening behind the log** gives a log book that is as it says. -/
lemma ok_of_open {σ : Process} (h : σ.Unopened) {io : OpenIo} (h1 : io.walOpen = true)
    (h2 : io.walSeek = true) (hpc : σ.pc = .idle) :
    Ok ⟨{ σ with
      store := (σ.store.open σ.disk io).2.1
      disk := (σ.store.open σ.disk io).2.2 }, (σ.store.open σ.disk io).2.2.wal.getD [], 0⟩ := by
  obtain ⟨good, e⟩ := KVStore.open_marks (d := σ.disk) h.opened h1 h2
  obtain ⟨m, t, hrec⟩ := σ.store.recoveredFrom_frame σ.disk good
  obtain ⟨b, paths, n, w, m', t', hf⟩ := (σ.store.recoveredFrom σ.disk good).openTables_frame
    { σ.disk with wal := some (σ.disk.wal.getD []) } io
  refine ⟨KVStore.open_opens h.opened h1 h2 σ.disk, 0, ?_⟩
  rw [e, hf, hrec]
  refine ⟨le_rfl, Nat.zero_le _, ?_, fun _ => ⟨_, ?_, rfl, rfl⟩, fun he => ?_⟩
  · simp [h.written, h.buffer]
  · simp [logBytes, encode, h.written]
  · simp [hpc] at he

/-- **Events**: the store is not open, or its log is as the book says. -/
lemma apply_cases {L L' : Logbook} {e : Event} (h : L.process.Unopened ∨ L.Ok)
    (hlogs : e.logs = true) (he : L.apply e = some L') : L'.process.Unopened ∨ L'.Ok := by
  cases e with
  | call a =>
    rcases h with h | h
    · obtain ⟨σ, hs, rfl⟩ := Option.map_eq_some_iff.mp he
      have hu := h.step (Process.step_effect hs)
      left
      cases a <;> exact hu
    · exact Or.inr (h.step hlogs he)
  | «open» io =>
    obtain ⟨σ, hs, rfl⟩ := Option.map_eq_some_iff.mp he
    unfold Event.apply at hs
    split at hs
    case h_1 io' hio hpc =>
      obtain rfl := Event.open.inj hio
      obtain rfl := Option.some.inj hs
      rcases h with h | h
      · rw [if_neg (by simp [h.opened])]
        cases hlog : io.walOpen && io.walSeek with
        | false => exact Or.inl (h.ends hlog hpc)
        | true =>
          obtain ⟨h1, h2⟩ := Bool.and_eq_true_iff.mp hlog
          exact Or.inr (ok_of_open h h1 h2 hpc)
      · rw [if_pos h.opened, KVStore.open_of_opened h.opened]
        exact Or.inr h
    all_goals simp_all
  | exit =>
    obtain ⟨σ, hs, rfl⟩ := Option.map_eq_some_iff.mp he
    unfold Event.apply at hs
    split at hs
    all_goals simp_all
    exact Or.inl (hs ▸ Process.unopened_new _)
  | crash =>
    obtain rfl := Option.some.inj he
    exact Or.inl (Process.unopened_new _)

/-- **Every run of events.** -/
lemma runEvents_cases {es : List Event} {L L' : Logbook} (h : L.process.Unopened ∨ L.Ok)
    (hes : ∀ e ∈ es, e.logs = true) (hrun : L.runEvents es = some L') :
    L'.process.Unopened ∨ L'.Ok := by
  induction es generalizing L with
  | nil => exact Option.some.inj hrun ▸ h
  | cons e es ih =>
    obtain ⟨L₁, hs, hrest⟩ := Option.bind_eq_some_iff.mp
      (show (L.apply e).bind (fun L₁ => L₁.runEvents es) = some L' from hrun)
    exact ih (apply_cases h (hes e (by simp)) hs) (fun e he => hes e (List.mem_cons_of_mem _ he)) hrest

/-- **An open store** of a run has the log that the book says. -/
lemma ok_of_opened {d : Disk} {es : List Event} (hes : ∀ e ∈ es, e.logs = true) {L : Logbook}
    (hrun : (new d).runEvents es = some L) (ho : L.process.store.opened = true) : L.Ok := by
  rcases runEvents_cases (Or.inl (Process.unopened_new d)) hes hrun with h | h
  · simp [h.opened] at ho
  · exact h

end Logbook

/-! ### The group boundary -/

/-- A rotation is not needed, or nothing is outstanding and the worker takes tasks. -/
def KVStore.Room (s : KVStore) : Prop :=
  s.memtable.approximateSizeBytes < kMemTableFlushThresholdBytes ∨
    (s.immutable = none ∧ s.flushWorker.Running)

lemma FlushWorker.enqueue_iff (w : FlushWorker) (t : FlushTask) :
    (w.enqueue t).1 = true ↔ w.Running := by
  unfold FlushWorker.enqueue FlushWorker.Running
  cases w.started <;> cases w.stopping <;> simp

/-- **When a rotation returns true.** -/
lemma KVStore.maybeFlushMemtable_true {s : KVStore} (hne : s.memtable.entries.isEmpty = false) :
    s.maybeFlushMemtable.1 = true ↔ s.Room := by
  unfold Room maybeFlushMemtable
  split
  · next hlt => simp [hlt]
  · next hge =>
    cases himm : s.immutable with
    | some e => simp [hge]
    | none =>
      simp only [Option.isSome_none, Bool.false_eq_true, if_false, true_and, MemTable.takeEntries, hne,
        hge, false_or]
      exact s.flushWorker.enqueue_iff _

/-- The memtable behind a write is not empty. -/
lemma KVStore.logged_ne_empty (s : KVStore) (r : Record) :
    (s.logged r).memtable.entries.isEmpty = false := by
  have hpush : ∀ v, (pushVersion s.memtable.entries r.key v).isEmpty = false := by
    intro v
    rw [Std.ExtTreeMap.isEmpty_eq_false_iff]
    intro he
    have hv := versionsOf_pushVersion s.memtable.entries r.key r.key v
    rw [he] at hv
    simp [versionsOf] at hv
  rw [KVStore.logged_memtable]
  unfold KVStore.applyRecord
  split
  · exact hpush _
  · exact hpush _

namespace Logbook

/-- The book after a write. -/
def wrote (L : Logbook) (key : Bytes) (value : Option Bytes) (out : KVStore × Disk) : Logbook :=
  { L with process :=
    ⟨out.1, out.2, .idle, L.process.written ++ [(key, ⟨L.process.store.seq + 1, value⟩)]⟩ }

/-- All records that were given to this log are in its file, and the buffer is empty. -/
def Durable (L : Logbook) : Prop :=
  L.process.store.wal.buffer = [] ∧
    L.process.disk.wal = some (L.found ++ logBytes (L.process.written.drop L.base))

lemma durable_of_hasLog {σ : Process} {found : Bytes} {base n : ℕ} (h : σ.HasLog found base n)
    (hn : n = σ.written.length) (hpc : σ.pc ≠ .removed) : Durable ⟨σ, found, base⟩ := by
  subst hn
  obtain ⟨file, hf, -, hd⟩ := h.file hpc
  rw [List.take_length] at hf
  exact ⟨by simpa using h.buffer, hd.trans (congrArg some hf)⟩

/-- A write whose number ends a group. -/
lemma Ok.wrote_iff {L : Logbook} (h : L.Ok) (hpc : L.process.pc = .idle)
    (hgroup : (L.process.store.seq + 1) % L.process.store.groupCommitEvery = 0) (key : Bytes)
    (value : Option Bytes) :
    (L.wrote key value ((L.process.store.logged ⟨L.process.store.seq + 1, key, value⟩).finishWrite
      L.process.disk .ok).2).Durable ↔
        (L.process.store.logged ⟨L.process.store.seq + 1, key, value⟩).Room := by
  obtain ⟨dur, hlog⟩ := h.log
  obtain ⟨file, -, hfd, -⟩ := hlog.file (by simp [hpc])
  set s₁ := L.process.store.logged ⟨L.process.store.seq + 1, key, value⟩ with hs₁
  obtain ⟨m, n, w, hl⟩ := L.process.store.logged_frame ⟨L.process.store.seq + 1, key, value⟩
  have hwrite : L.process.write key value = ⟨s₁, L.process.disk, .rotating,
      L.process.written ++ [(key, ⟨L.process.store.seq + 1, value⟩)]⟩ := by
    simp [Process.write, h.opened, hfd, hs₁]
  have hlog₁ := hlog.write hpc key value
  rw [hwrite] at hlog₁
  have hroom : s₁.maybeFlushMemtable.1 = true ↔ s₁.Room :=
    KVStore.maybeFlushMemtable_true (KVStore.logged_ne_empty _ _)
  obtain ⟨m', i', n', w', hf⟩ := s₁.maybeFlushMemtable_frame
  unfold KVStore.finishWrite
  split
  · next s' e =>
    -- the call returns before the flush, with the record in the buffer
    rw [e] at hroom hf
    have hbuf : s'.wal.buffer ≠ [] := by
      rw [show s' = _ from hf, hs₁]
      simp [KVStore.logged]
    exact iff_of_false (fun hd => hbuf hd.1) (fun hr => by simpa using hroom.mpr hr)
  · next s' e =>
    rw [e] at hroom hf
    have hs' : s' = _ := hf
    have hseq : s'.seq % s'.groupCommitEvery = 0 := by
      rw [hs', hs₁, hl]
      exact hgroup
    rw [if_pos hseq]
    refine iff_of_true ?_ (hroom.mp rfl)
    have hlog' : Process.HasLog ⟨s', L.process.disk, .committing,
        L.process.written ++ [(key, ⟨L.process.store.seq + 1, value⟩)]⟩ L.found L.base dur :=
      hlog₁.quiet (by rw [hs']) rfl rfl (by simp)
    exact durable_of_hasLog (hlog'.flushWal (by simp)) rfl (by simp)

end Logbook

/-- **The group boundary is a durability boundary exactly when the rotation succeeds.** In every run
of openings that fail or succeed, calls, exits and crashes in which the log can be written, whatever
the worker does, a put or a delete on an open store whose sequence number the group size divides
leaves all records of this log in the file and an empty buffer if and only if the memtable stays below
the threshold, or no flush is outstanding and the worker takes tasks. -/
theorem group_commit_iff {d : Disk} {es : List Event} (hes : ∀ e ∈ es, e.logs = true) {L : Logbook}
    (hrun : (Logbook.new d).runEvents es = some L) (hopen : L.process.store.opened = true)
    (hpc : L.process.pc = .idle)
    (hgroup : (L.process.store.seq + 1) % L.process.store.groupCommitEvery = 0) :
    (∀ key value, (L.wrote key (some value)
        (L.process.store.put L.process.disk key value .ok)).Durable ↔
      ((L.process.store.memtable.put key (L.process.store.seq + 1) value).approximateSizeBytes <
          kMemTableFlushThresholdBytes ∨
        (L.process.store.immutable = none ∧ L.process.store.flushWorker.Running))) ∧
    ∀ key, (L.process.store.get key).isSome →
      ((L.wrote key none (L.process.store.del L.process.disk key .ok).2).Durable ↔
        ((L.process.store.memtable.del key (L.process.store.seq + 1)).approximateSizeBytes <
            kMemTableFlushThresholdBytes ∨
          (L.process.store.immutable = none ∧ L.process.store.flushWorker.Running))) := by
  have h := Logbook.ok_of_opened hes hrun hopen
  obtain ⟨dur, hlog⟩ := h.log
  obtain ⟨file, -, hfd, -⟩ := hlog.file (by simp [hpc])
  have hfd' : L.process.store.wal.fd.isSome := by simp [hfd]
  refine ⟨fun key value => ?_, fun key hkey => ?_⟩
  · rw [KVStore.put_eq h.opened hfd', h.wrote_iff hpc hgroup]
    rfl
  · rw [KVStore.del_eq h.opened hfd' hkey, h.wrote_iff hpc hgroup]
    rfl

/-- The store is opened, and a put fills the memtable, with groups of one. -/
def fillMemtable (v : Bytes) : List Event :=
  .open .ok :: [.setGroupCommitEvery 1, .put (text "a") v, .rotate, .commit .ok].map .call

lemma fillMemtable_run (v : Bytes) (hv : kMemTableFlushThresholdBytes ≤ v.length) :
    ∃ L, (Logbook.new Disk.empty).runEvents (fillMemtable v) = some L ∧ L.process.pc = .idle ∧
      L.process.store.seq = 1 ∧ L.process.store.groupCommitEvery = 1 ∧
      L.process.store.immutable = some ∅ ∧ L.process.store.opened = true := by
  set σ₁ : Process := { Process.start Disk.empty with
    store := (Process.start Disk.empty).store.setGroupCommitEvery 1 } with hσ₁
  set σ := σ₁.put (text "a") v with hσ
  have hmem : σ.store.memtable = ⟨oneVersion v, 57 + v.length⟩ :=
    Process.put_memtable rfl rfl rfl v
  have hrot := rotates_of_put hv hmem rfl
  have hrotate : σ.rotate = ⟨σ.store.rotated, σ.disk, .committing, σ.written⟩ :=
    Process.rotate_accepted hrot rfl
  have h2 : (Logbook.new Disk.empty).runEvents (fillMemtable v) =
      (Logbook.step ⟨σ.rotate, [], 0⟩ (.commit .ok)).bind fun L => some L := rfl
  have h3 : Logbook.step ⟨σ.rotate, [], 0⟩ (.commit .ok) = some ⟨σ.rotate.commit .ok, [], 0⟩ := by
    rw [hrotate]
    rfl
  obtain ⟨w, f, hc⟩ := σ.rotate.commit_frame .ok
  refine ⟨⟨σ.rotate.commit .ok, [], 0⟩, by rw [h2, h3]; rfl, ?_⟩
  rw [hc, hrotate]
  exact ⟨rfl, rfl, rfl, rfl, rfl⟩

/-- A put of a large value behind a run that leaves no room for it. -/
lemma Logbook.Ok.not_durable {L : Logbook} (h : L.Ok) (hpc : L.process.pc = .idle)
    (hgroup : (L.process.store.seq + 1) % L.process.store.groupCommitEvery = 0) (key : Bytes)
    (hfull : ¬ (L.process.store.immutable = none ∧ L.process.store.flushWorker.Running)) :
    ¬ (L.wrote key (some largeValue)
        (L.process.store.put L.process.disk key largeValue .ok)).Durable := by
  obtain ⟨dur, hlog⟩ := h.log
  obtain ⟨file, -, hfd, -⟩ := hlog.file (by simp [hpc])
  rw [KVStore.put_eq h.opened (by simp [hfd]), h.wrote_iff hpc hgroup]
  rintro (hlt | hroom)
  · have hsize : kMemTableFlushThresholdBytes ≤ (L.process.store.logged
        ⟨L.process.store.seq + 1, key, some largeValue⟩).memtable.approximateSizeBytes := by
      show _ ≤ L.process.store.memtable.approximateSizeBytes +
        (key.length + largeValue.length + 8 + 48)
      have : largeValue.length = kMemTableFlushThresholdBytes := by simp [largeValue]
      omega
    omega
  · exact hfull hroom

/-- **A boundary without a flush**: the second of two large values, with groups of one, is not
written to the log. -/
theorem full_memtable_not_committed : ∃ L,
    (Logbook.new Disk.empty).runEvents (fillMemtable largeValue) = some L ∧
      L.process.store.opened = true ∧ L.process.pc = .idle ∧
      (L.process.store.seq + 1) % L.process.store.groupCommitEvery = 0 ∧
      ¬ (L.wrote (text "b") (some largeValue)
        (L.process.store.put L.process.disk (text "b") largeValue .ok)).Durable := by
  obtain ⟨L, hrun, hpc, hseq, hgroup, himm, ho⟩ :=
    fillMemtable_run largeValue (by simp [largeValue])
  have h := Logbook.ok_of_opened (by simp [fillMemtable, Event.logs, Action.logs]) hrun ho
  have hmod : (L.process.store.seq + 1) % L.process.store.groupCommitEvery = 0 := by
    rw [hseq, hgroup]
  refine ⟨L, hrun, ho, hpc, hmod, h.not_durable hpc hmod _ ?_⟩
  rintro ⟨hnone, -⟩
  rw [himm] at hnone
  cases hnone

/-- An opening that fails at the manifest and one that returns true. -/
def openTwice : List Event := [.open noManifest, .open .ok, .call (.setGroupCommitEvery 1)]

/-- **A boundary without a worker**: the first large value is not written to the log. -/
theorem no_worker_not_committed : ∃ L, (Logbook.new Disk.empty).runEvents openTwice = some L ∧
    L.process.store.opened = true ∧ L.process.store.immutable = none ∧
    ¬ (L.wrote (text "a") (some largeValue)
      (L.process.store.put L.process.disk (text "a") largeValue .ok)).Durable := by
  obtain ⟨L, hrun, ho, hpc, hmod, himm, hw⟩ : ∃ L,
      (Logbook.new Disk.empty).runEvents openTwice = some L ∧ L.process.store.opened = true ∧
      L.process.pc = .idle ∧ (L.process.store.seq + 1) % L.process.store.groupCommitEvery = 0 ∧
      L.process.store.immutable = none ∧ L.process.store.flushWorker.started = false :=
    ⟨_, rfl, rfl, rfl, rfl, rfl, rfl⟩
  have h := Logbook.ok_of_opened (by decide) hrun ho
  refine ⟨L, hrun, ho, himm, h.not_durable hpc hmod _ ?_⟩
  rintro ⟨-, hstarted, -⟩
  rw [hw] at hstarted
  cases hstarted

/-- The first large value of a session is flushed with groups of one. -/
theorem group_commit_first : ∃ L,
    (Logbook.new Disk.empty).runEvents [.open .ok, .call (.setGroupCommitEvery 1)] = some L ∧
      (L.wrote (text "a") (some largeValue)
        (L.process.store.put L.process.disk (text "a") largeValue .ok)).Durable := by
  obtain ⟨L, hrun, ho, hpc, hgroup, himm, hw⟩ : ∃ L,
      (Logbook.new Disk.empty).runEvents [.open .ok, .call (.setGroupCommitEvery 1)] = some L ∧
        L.process.store.opened = true ∧ L.process.pc = .idle ∧
        (L.process.store.seq + 1) % L.process.store.groupCommitEvery = 0 ∧
        L.process.store.immutable = none ∧ L.process.store.flushWorker.Running :=
    ⟨_, rfl, rfl, rfl, rfl, rfl, rfl, rfl⟩
  have h := group_commit_iff (by decide) hrun ho hpc hgroup
  exact ⟨L, hrun, (h.1 (text "a") largeValue).mpr (Or.inr ⟨himm, hw⟩)⟩

end VeriStore.Store

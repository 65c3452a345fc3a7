import VeriStore.Sstable.Format
import VeriStore.Store.Spec

/-!
A process with an open store: the call of a client and the flush worker, step by step.

A call holds the lock of the store, so that there is one at a time, and it is cut into the parts
between which the worker may run: a write stores its version, rotates the memtable and flushes the
log at a group boundary; `get_at` polls the completions one by one, compacts in four phases and
then reads; a checkpoint saves the snapshot, removes the log and opens a new one. Every part that
makes system calls takes their outcome. The list `written` records the versions written so far.
-/

namespace VeriStore.Store

open VeriStore.Lib VeriStore.Sstable VeriStore.Log

open KVStore (CompactJob)

/-- Where the call in progress is. -/
inductive Pc where
  | idle
  | rotating
  | committing
  | draining (key : Bytes) (readTimestamp : ℕ) (added : Bool)
  | compacting (key : Bytes) (readTimestamp : ℕ)
  | merged (key : Bytes) (readTimestamp : ℕ) (j : CompactJob)
  | renamed (key : Bytes) (readTimestamp : ℕ) (j : CompactJob)
  | replaced (key : Bytes) (readTimestamp : ℕ) (j : CompactJob)
  | reading (key : Bytes) (readTimestamp : ℕ)
  | saved
  | removed

structure Process where
  store : KVStore
  disk : Disk
  pc : Pc
  written : List (Bytes × Version)

inductive Action where
  | put (key value : Bytes)
  | del (key : Bytes)
  | rotate
  | commit (io : FlushOutcome)
  | flushWal (io : FlushOutcome)
  | setGroupCommitEvery (n : ℤ)
  | getAt (key : Bytes) (readTimestamp : ℕ)
  | drain
  | compact (io : WriteOutcome)
  | rename (ok : Bool)
  | replace (ok : Bool)
  | finish
  | read
  | save (io : SaveOutcome)
  | removeWal
  | reopenWal (ok : Bool)
  | work (io : WriteOutcome)

/-- The system calls of the action succeed. -/
def Action.succeeds : Action → Bool
  | .commit .ok | .flushWal .ok | .compact .ok | .save .ok | .work .ok => true
  | .commit _ | .flushWal _ | .compact _ | .save _ | .work _ => false
  | .rename ok | .replace ok | .reopenWal ok => ok
  | _ => true

/-- Keys are words, and values fit on a line and do not begin with white space. -/
def Action.Plain : Action → Prop
  | .put key value => Word key ∧ Clean value
  | .del key => Word key
  | _ => True

instance : (a : Action) → Decidable a.Plain
  | .put _ _ => inferInstanceAs (Decidable (_ ∧ _))
  | .del _ => inferInstanceAs (Decidable (Word _))
  | .rotate | .commit _ | .flushWal _ | .setGroupCommitEvery _ | .getAt _ _ | .drain | .compact _
  | .rename _ | .replace _ | .finish | .read | .save _ | .removeWal | .reopenWal _ | .work _ =>
    isTrue trivial

namespace Process

/-- A fresh process that has opened the store on the files `d`; its system calls went as `io`
says. -/
def launch (d : Disk) (io : KVStore.OpenIo) : Process where
  store := (KVStore.new.open d io).2.1
  disk := (KVStore.new.open d io).2.2
  pc := .idle
  written := []

def start (d : Disk) : Process := launch d .ok

/-! ### Writes -/

/-- The first part of `put` and `del`: the record is buffered and the version is stored. -/
def write (σ : Process) (key : Bytes) (value : Option Bytes) : Process :=
  if !σ.store.opened then σ
  else if σ.store.wal.fd.isNone then { σ with store := { σ.store with seq := σ.store.seq + 1 } }
  else
    { σ with
      store := σ.store.logged ⟨σ.store.seq + 1, key, value⟩
      pc := .rotating
      written := σ.written ++ [(key, ⟨σ.store.seq + 1, value⟩)] }

def put (σ : Process) (key value : Bytes) : Process := σ.write key (some value)

/-- A key that is absent is not deleted. -/
def del (σ : Process) (key : Bytes) : Process :=
  if (σ.store.get key).isSome then σ.write key none else σ

/-- A rotation that does not return true ends the call. -/
def rotate (σ : Process) : Process :=
  match σ.store.maybeFlushMemtable with
  | (true, s) => { σ with store := s, pc := .committing }
  | (false, s) => { σ with store := s, pc := .idle }

def flushWal (σ : Process) (io : FlushOutcome) : Process :=
  match σ.store.flushWal σ.disk io with
  | (_, s, d) => { σ with store := s, disk := d, pc := .idle }

def commit (σ : Process) (io : FlushOutcome) : Process :=
  if σ.store.seq % σ.store.groupCommitEvery = 0 then σ.flushWal io else { σ with pc := .idle }

/-! ### Reads -/

/-- A poll of the completions; behind the last one the tables are compacted if one was added. -/
def drain (σ : Process) (key : Bytes) (t : ℕ) (added : Bool) : Process :=
  match σ.store.drainOne with
  | some (s, new) => { σ with store := s, pc := .draining key t (added || new) }
  | none => { σ with pc := if added then .compacting key t else .reading key t }

/-- The choice of the inputs and the merge into the temporary file. -/
def compact (σ : Process) (key : Bytes) (t : ℕ) (io : WriteOutcome) : Process :=
  if σ.store.sstablePaths.length < kCompactionTrigger then { σ with pc := .reading key t }
  else
    match σ.store.sstablePaths with
    | first :: second :: rest =>
      if first = second then
        { σ with
          store := { σ.store with sstablePaths := first :: rest }
          disk :=
            match io with
            | .ok => { σ.disk with manifest := some (replaceSstables (first :: rest)) }
            | _ => σ.disk
          pc := .reading key t }
      else
        let (s, j) := σ.store.compactBegin first second rest
        match KVStore.compactWrite j σ.disk io with
        | (false, d) => { σ with store := s, disk := d, pc := .reading key t }
        | (true, d) => { σ with store := s, disk := d, pc := .merged key t j }
    | _ => { σ with pc := .reading key t }

def rename (σ : Process) (key : Bytes) (t : ℕ) (j : CompactJob) (ok : Bool) : Process :=
  match KVStore.compactRename j σ.disk ok with
  | (true, d) => { σ with disk := d, pc := .renamed key t j }
  | (false, d) => { σ with disk := d, pc := .reading key t }

def replace (σ : Process) (key : Bytes) (t : ℕ) (j : CompactJob) (ok : Bool) : Process :=
  match KVStore.compactReplace j σ.disk ok with
  | (true, d) => { σ with disk := d, pc := .replaced key t j }
  | (false, d) => { σ with disk := d, pc := .reading key t }

def finish (σ : Process) (key : Bytes) (t : ℕ) (j : CompactJob) : Process :=
  match KVStore.compactFinish j σ.store σ.disk with
  | (s, d) => { σ with store := s, disk := d, pc := .reading key t }

/-! ### Checkpoints -/

def save (σ : Process) (io : SaveOutcome) : Process :=
  if !σ.store.opened then σ
  else
    match saveToFileUnlocked σ.disk.snapshot σ.store.memtable.entries io with
    | (false, file) => { σ with disk := { σ.disk with snapshot := file } }
    | (true, file) => { σ with disk := { σ.disk with snapshot := file }, pc := .saved }

def removeWal (σ : Process) : Process :=
  { σ with
    store := { σ.store with wal := σ.store.wal.close }
    disk := { σ.disk with wal := none }
    pc := .removed }

def reopenWal (σ : Process) (ok : Bool) : Process :=
  match σ.store.wal.open σ.disk.wal ok with
  | (_, wal, file) =>
    { σ with
      store := { σ.store with wal := wal }
      disk := { σ.disk with wal := file }
      pc := .idle }

/-! ### The worker -/

def work (σ : Process) (io : WriteOutcome) : Option Process :=
  (σ.store.flushWorker.step σ.disk io).map fun (w, d) =>
    { σ with store := { σ.store with flushWorker := w }, disk := d }

/-! ### Runs -/

/-- **One step of a process**; `none` when the action is not possible. -/
def step (σ : Process) (a : Action) : Option Process :=
  match a, σ.pc with
  | .put key value, .idle => some (σ.put key value)
  | .del key, .idle => some (σ.del key)
  | .rotate, .rotating => some σ.rotate
  | .commit io, .committing => some (σ.commit io)
  | .flushWal io, .idle => some (σ.flushWal io)
  | .setGroupCommitEvery n, .idle => some { σ with store := σ.store.setGroupCommitEvery n }
  | .getAt key t, .idle => some { σ with pc := .draining key t false }
  | .drain, .draining key t added => some (σ.drain key t added)
  | .compact io, .compacting key t => some (σ.compact key t io)
  | .rename ok, .merged key t j => some (σ.rename key t j ok)
  | .replace ok, .renamed key t j => some (σ.replace key t j ok)
  | .finish, .replaced key t j => some (σ.finish key t j)
  | .read, .reading _ _ => some { σ with pc := .idle }
  | .save io, .idle => some (σ.save io)
  | .removeWal, .saved => some σ.removeWal
  | .reopenWal ok, .removed => some (σ.reopenWal ok)
  | .work io, _ => σ.work io
  | _, _ => none

/-- **The transitions of a process.** -/
inductive Effect (σ : Process) : Action → Process → Prop
  | put (key value : Bytes) (h : σ.pc = .idle) : Effect σ (.put key value) (σ.put key value)
  | del (key : Bytes) (h : σ.pc = .idle) : Effect σ (.del key) (σ.del key)
  | rotate (h : σ.pc = .rotating) : Effect σ .rotate σ.rotate
  | commit (io : FlushOutcome) (h : σ.pc = .committing) : Effect σ (.commit io) (σ.commit io)
  | flushWal (io : FlushOutcome) (h : σ.pc = .idle) : Effect σ (.flushWal io) (σ.flushWal io)
  | setGroupCommitEvery (n : ℤ) (h : σ.pc = .idle) :
      Effect σ (.setGroupCommitEvery n) { σ with store := σ.store.setGroupCommitEvery n }
  | getAt (key : Bytes) (t : ℕ) (h : σ.pc = .idle) :
      Effect σ (.getAt key t) { σ with pc := .draining key t false }
  | drain (key : Bytes) (t : ℕ) (added : Bool) (h : σ.pc = .draining key t added) :
      Effect σ .drain (σ.drain key t added)
  | compact (key : Bytes) (t : ℕ) (io : WriteOutcome) (h : σ.pc = .compacting key t) :
      Effect σ (.compact io) (σ.compact key t io)
  | rename (key : Bytes) (t : ℕ) (j : CompactJob) (ok : Bool) (h : σ.pc = .merged key t j) :
      Effect σ (.rename ok) (σ.rename key t j ok)
  | replace (key : Bytes) (t : ℕ) (j : CompactJob) (ok : Bool) (h : σ.pc = .renamed key t j) :
      Effect σ (.replace ok) (σ.replace key t j ok)
  | finish (key : Bytes) (t : ℕ) (j : CompactJob) (h : σ.pc = .replaced key t j) :
      Effect σ .finish (σ.finish key t j)
  | read (key : Bytes) (t : ℕ) (h : σ.pc = .reading key t) : Effect σ .read { σ with pc := .idle }
  | save (io : SaveOutcome) (h : σ.pc = .idle) : Effect σ (.save io) (σ.save io)
  | removeWal (h : σ.pc = .saved) : Effect σ .removeWal σ.removeWal
  | reopenWal (ok : Bool) (h : σ.pc = .removed) : Effect σ (.reopenWal ok) (σ.reopenWal ok)
  | work (io : WriteOutcome) (σ' : Process) (h : σ.work io = some σ') : Effect σ (.work io) σ'

/-- **Every step is one of the transitions.** -/
theorem step_effect {σ σ' : Process} {a : Action} (h : σ.step a = some σ') : Effect σ a σ' := by
  unfold step at h
  split at h
  case h_17 => exact .work _ _ h
  case h_18 => simp at h
  all_goals
    next hpc =>
    obtain rfl := Option.some.inj h
    constructor
    exact hpc

/-! ### Frames -/

lemma flushWal_frame (σ : Process) (io : FlushOutcome) : ∃ w f, σ.flushWal io =
    { σ with
      store := { σ.store with wal := w }
      disk := { σ.disk with wal := f }
      pc := .idle } := ⟨_, _, rfl⟩

lemma commit_frame (σ : Process) (io : FlushOutcome) : ∃ w f, σ.commit io =
    { σ with
      store := { σ.store with wal := w }
      disk := { σ.disk with wal := f }
      pc := .idle } := by
  unfold commit
  split
  · exact σ.flushWal_frame io
  · exact ⟨_, _, rfl⟩

lemma rotate_frame (σ : Process) : σ.rotate.store = σ.store.maybeFlushMemtable.2 ∧
    σ.rotate.disk = σ.disk ∧ σ.rotate.written = σ.written ∧
    (σ.rotate.pc = .committing ∨ σ.rotate.pc = .idle) := by
  unfold rotate
  split
  · next e => simp [e]
  · next e => simp [e]

lemma save_frame (σ : Process) (io : SaveOutcome) : ∃ x pc, σ.save io =
    { σ with disk := { σ.disk with snapshot := x }, pc := pc } ∧ (pc = σ.pc ∨ pc = .saved) := by
  unfold save
  split
  · exact ⟨_, _, rfl, Or.inl rfl⟩
  · split
    · exact ⟨_, _, rfl, Or.inl rfl⟩
    · exact ⟨_, _, rfl, Or.inr rfl⟩

/-- A read changes the tables, what belongs to them and the worker. -/
lemma compact_frame (σ : Process) (key : Bytes) (t : ℕ) (io : WriteOutcome) : ∃ paths n m tb pc,
    σ.compact key t io = { σ with
      store := { σ.store with sstablePaths := paths, nextSstableId := n }
      disk := { σ.disk with manifest := m, tables := tb }
      pc := pc } := by
  unfold compact
  split
  · exact ⟨_, _, _, _, _, rfl⟩
  · split
    · split
      · cases io with
        | ok => exact ⟨_, _, _, _, _, rfl⟩
        | refused | short => exact ⟨_, _, _, _, _, rfl⟩
      · simp only [KVStore.compactBegin]
        split
        all_goals
          next d hd =>
          obtain ⟨tb, rfl⟩ := KVStore.compactWrite_frame hd
          exact ⟨_, _, _, _, _, rfl⟩
    · exact ⟨_, _, _, _, _, rfl⟩

lemma rename_frame (σ : Process) (key : Bytes) (t : ℕ) (j : CompactJob) (ok : Bool) : ∃ tb pc,
    σ.rename key t j ok = { σ with disk := { σ.disk with tables := tb }, pc := pc } := by
  unfold rename
  split
  · next d hd =>
    obtain ⟨tb, rfl⟩ := KVStore.compactRename_frame hd
    exact ⟨_, _, rfl⟩
  · next d hd =>
    obtain ⟨tb, rfl⟩ := KVStore.compactRename_frame hd
    exact ⟨_, _, rfl⟩

lemma replace_frame (σ : Process) (key : Bytes) (t : ℕ) (j : CompactJob) (ok : Bool) :
    ∃ m tb pc, σ.replace key t j ok =
      { σ with disk := { σ.disk with manifest := m, tables := tb }, pc := pc } := by
  unfold replace
  split
  · next d hd =>
    obtain ⟨m, tb, rfl⟩ := KVStore.compactReplace_frame hd
    exact ⟨_, _, _, rfl⟩
  · next d hd =>
    obtain ⟨m, tb, rfl⟩ := KVStore.compactReplace_frame hd
    exact ⟨_, _, _, rfl⟩

lemma drain_frame (σ : Process) (key : Bytes) (t : ℕ) (added : Bool) : ∃ paths i w pc,
    σ.drain key t added = { σ with
      store := { σ.store with sstablePaths := paths, immutable := i, flushWorker := w }
      pc := pc } := by
  unfold drain KVStore.drainOne
  cases σ.store.flushWorker.pollCompletion with
  | none => exact ⟨_, _, _, _, rfl⟩
  | some x => exact ⟨_, _, _, _, rfl⟩

lemma work_frame {σ σ' : Process} {io : WriteOutcome} (h : σ.work io = some σ') :
    ∃ w d, σ.store.flushWorker.step σ.disk io = some (w, d) ∧
      σ' = { σ with store := { σ.store with flushWorker := w }, disk := d } := by
  obtain ⟨⟨w, d⟩, hstep, rfl⟩ := Option.map_eq_some_iff.mp h
  exact ⟨w, d, hstep, rfl⟩

/-- The counter goes up with a write only. -/
lemma write_seq (σ : Process) (key : Bytes) (value : Option Bytes) :
    (σ.write key value).store.seq = σ.store.seq ∨
      (σ.write key value).store.seq = σ.store.seq + 1 := by
  unfold write
  split
  · exact Or.inl rfl
  · split
    · exact Or.inr rfl
    · exact Or.inr rfl

/-- **A step is a write or a rotation, or it leaves what is in memory alone**: the map, the
memtable, the counter and the list of versions. -/
lemma Effect.write_or_rotate {σ σ' : Process} {a : Action} (he : σ.Effect a σ') :
    (∃ key value, σ.pc = .idle ∧ σ' = σ.write key value ∧
      ((∃ v, a = .put key v ∧ value = some v) ∨
        (a = .del key ∧ value = none ∧ (σ.store.get key).isSome))) ∨
    (σ.pc = .rotating ∧ σ' = σ.rotate) ∨
    (σ'.store.map = σ.store.map ∧ σ'.store.memtable = σ.store.memtable ∧
      σ'.store.seq = σ.store.seq ∧ σ'.written = σ.written) := by
  cases he with
  | put key value h => exact Or.inl ⟨key, _, h, rfl, Or.inl ⟨value, rfl, rfl⟩⟩
  | del key h =>
    unfold Process.del
    split
    · next hk => exact Or.inl ⟨key, none, h, rfl, Or.inr ⟨rfl, rfl, hk⟩⟩
    · exact Or.inr (Or.inr ⟨rfl, rfl, rfl, rfl⟩)
  | rotate h => exact Or.inr (Or.inl ⟨h, rfl⟩)
  | commit io =>
    obtain ⟨w, f, e⟩ := σ.commit_frame io
    rw [e]
    exact Or.inr (Or.inr ⟨rfl, rfl, rfl, rfl⟩)
  | drain key t added =>
    obtain ⟨paths, i, w, pc, e⟩ := σ.drain_frame key t added
    rw [e]
    exact Or.inr (Or.inr ⟨rfl, rfl, rfl, rfl⟩)
  | compact key t io =>
    obtain ⟨paths, n, m, tb, pc, e⟩ := σ.compact_frame key t io
    rw [e]
    exact Or.inr (Or.inr ⟨rfl, rfl, rfl, rfl⟩)
  | rename key t j ok =>
    obtain ⟨tb, pc, e⟩ := σ.rename_frame key t j ok
    rw [e]
    exact Or.inr (Or.inr ⟨rfl, rfl, rfl, rfl⟩)
  | replace key t j ok =>
    obtain ⟨m, tb, pc, e⟩ := σ.replace_frame key t j ok
    rw [e]
    exact Or.inr (Or.inr ⟨rfl, rfl, rfl, rfl⟩)
  | save io =>
    obtain ⟨x, pc, e, -⟩ := σ.save_frame io
    rw [e]
    exact Or.inr (Or.inr ⟨rfl, rfl, rfl, rfl⟩)
  | work io _ h =>
    obtain ⟨w, d, -, rfl⟩ := work_frame h
    exact Or.inr (Or.inr ⟨rfl, rfl, rfl, rfl⟩)
  | flushWal | setGroupCommitEvery | getAt | finish | read | removeWal | reopenWal =>
    exact Or.inr (Or.inr ⟨rfl, rfl, rfl, rfl⟩)

/-- **A step is a write, or it leaves the map, the counter and the list of versions alone.** -/
lemma Effect.write_or {σ σ' : Process} {a : Action} (he : σ.Effect a σ') :
    (∃ key value, σ.pc = .idle ∧ σ' = σ.write key value ∧
      ((∃ v, a = .put key v ∧ value = some v) ∨
        (a = .del key ∧ value = none ∧ (σ.store.get key).isSome))) ∨
    (σ'.store.map = σ.store.map ∧ σ'.store.seq = σ.store.seq ∧ σ'.written = σ.written) := by
  rcases he.write_or_rotate with h | ⟨-, rfl⟩ | ⟨h1, -, h3, h4⟩
  · exact Or.inl h
  · obtain ⟨hs, -, hw, -⟩ := σ.rotate_frame
    obtain ⟨m, i, n, w, hf⟩ := σ.store.maybeFlushMemtable_frame
    exact Or.inr ⟨by rw [hs, hf], by rw [hs, hf], hw⟩
  · exact Or.inr ⟨h1, h3, h4⟩

/-- **The counter never goes back.** -/
lemma Effect.seq_le {σ σ' : Process} {a : Action} (he : σ.Effect a σ') :
    σ.store.seq ≤ σ'.store.seq := by
  rcases he.write_or with ⟨key, value, -, rfl, -⟩ | ⟨-, h, -⟩
  · have := σ.write_seq key value
    omega
  · exact h.ge

/-- A run from a state. -/
def run (σ : Process) (as : List Action) : Option Process := as.foldlM step σ

lemma run_concat {σ σ' : Process} {as : List Action} {a : Action} (h : σ.run (as ++ [a]) = some σ') :
    ∃ σ₁, σ.run as = some σ₁ ∧ σ₁.step a = some σ' := by
  unfold run at h
  rw [List.foldlM_append] at h
  obtain ⟨σ₁, h1, h2⟩ := Option.bind_eq_some_iff.mp h
  refine ⟨σ₁, h1, ?_⟩
  simpa using h2

/-- **Induction along a run**: what every step of a kind keeps holds at the end. -/
theorem run_induct {P : Process → Prop} {Q : Action → Prop} {σ σ' : Process} {as : List Action}
    (hrun : σ.run as = some σ') (hQ : ∀ a ∈ as, Q a) (h : P σ)
    (hstep : ∀ σ₁ a σ₂, Q a → σ₁.Effect a σ₂ → P σ₁ → P σ₂) : P σ' := by
  induction as using List.reverseRecOn generalizing σ' with
  | nil => exact Option.some.inj hrun ▸ h
  | append_singleton as a ih =>
    obtain ⟨σ₁, hrun, ha⟩ := run_concat hrun
    have h₁ := ih hrun fun b hb => hQ b (List.mem_append_left _ hb)
    exact hstep σ₁ a σ' (hQ a (by simp)) (step_effect ha) h₁

/-- A step stores a version or leaves the map as it was. -/
lemma Effect.map_cases {σ σ' : Process} {a : Action} (he : σ.Effect a σ') :
    (σ'.store.map = σ.store.map ∧ σ'.written = σ.written) ∨
    ∃ key value, σ'.store.map = (σ.store.applyRecord ⟨σ.store.seq + 1, key, value⟩).map ∧
      σ'.written = σ.written ++ [(key, ⟨σ.store.seq + 1, value⟩)] := by
  rcases he.write_or with ⟨key, value, -, rfl, -⟩ | ⟨hm, -, hw⟩
  · unfold write
    split
    · exact Or.inl ⟨rfl, rfl⟩
    · split
      · exact Or.inl ⟨rfl, rfl⟩
      · exact Or.inr ⟨key, value, rfl, rfl⟩
  · exact Or.inl ⟨hm, hw⟩

/-- The parts of a write make up the end of the write. -/
lemma rotate_commit (σ : Process) (io : FlushOutcome) :
    (match σ.rotate.pc with
      | .committing => ((σ.rotate.commit io).store, (σ.rotate.commit io).disk)
      | _ => (σ.rotate.store, σ.rotate.disk)) = (σ.store.finishWrite σ.disk io).2 := by
  unfold rotate KVStore.finishWrite
  obtain ⟨ok, s⟩ := σ.store.maybeFlushMemtable
  cases ok with
  | true =>
    simp only [commit, flushWal]
    split <;> rfl
  | false => rfl

end Process

end VeriStore.Store

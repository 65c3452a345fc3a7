import VeriStore.Store.Agreement
import VeriStore.Store.Opening

/-!
What `del` reports.

`del` returns false for a key that is absent, and also behind a tombstone that it has logged and
applied, when the memtable is full and cannot be rotated because an earlier flush is outstanding.
In a session without failures this is the only case in which the answer is wrong.

* `del_honest_iff` — when `del` reports what it did;
* `del_applied_not_reported` — a delete that returned false and was applied.
-/

namespace VeriStore.Store

open VeriStore.Lib VeriStore.Log

/-! ### A store that can be written -/

/-- The store is open, its worker runs and its log can be written, but for the middle of a
checkpoint. -/
structure Process.Ready (σ : Process) : Prop where
  opened : σ.store.opened = true
  running : σ.store.flushWorker.Running
  fd : σ.pc ≠ .removed → σ.store.wal.fd.isSome = true

lemma Wal.flush_succeeds {w : Wal} (h : w.fd.isSome = true) (file : Bytes) :
    (w.flush file .ok).1 = true := by
  obtain ⟨off, hoff⟩ := Option.isSome_iff_exists.mp h
  unfold Wal.flush
  rw [hoff]
  dsimp only
  split
  · rfl
  · rfl

lemma Process.ready_start (d : Disk) : (Process.start d).Ready := by
  obtain ⟨good, e⟩ := KVStore.open_new d .ok rfl rfl
  obtain ⟨m, t, w, n, hr⟩ := KVStore.recovered_frame d good
  obtain ⟨b, paths, n', w', m', t', hf⟩ := (KVStore.recovered d good).openTables_frame
    { d with wal := some (d.wal.getD []) } .ok
  have hw := KVStore.openTables_flushWorker (KVStore.recovered d good)
    { d with wal := some (d.wal.getD []) } .ok
  have hnew : (KVStore.recovered d good).flushWorker.started = false := by rw [hr]; rfl
  have hstore : (Process.start d).store =
      ((KVStore.recovered d good).openTables { d with wal := some (d.wal.getD []) } .ok).2.1 := by
    show (KVStore.new.open d .ok).2.1 = _
    rw [e]
  refine ⟨?_, ?_, fun _ => ?_⟩
  · rw [hstore, hf]
    rfl
  · rw [hstore, hw]
    exact FlushWorker.running_start hnew
  · rw [hstore, hf]
    rfl

/-- **A step without failures** keeps the store ready. -/
lemma Process.Ready.step {σ σ' : Process} (h : σ.Ready) {a : Action} (ha : a.succeeds = true)
    (he : σ.Effect a σ') : σ'.Ready := by
  obtain ⟨ho, hw, hfd⟩ := he.alive
  refine ⟨ho.trans h.opened, h.running.of_flags hw, fun hpc' => ?_⟩
  have hkeep : a ≠ .removeWal → (∀ ok, a ≠ .reopenWal ok) → σ.pc ≠ .removed →
      σ'.store.wal.fd.isSome = true := fun h1 h2 hpc => (hfd h1 h2).trans (h.fd hpc)
  cases he
  case removeWal => exact absurd rfl hpc'
  case reopenWal ok _ =>
    obtain rfl : ok = true := ha
    rfl
  case work io hwork =>
    obtain ⟨w, d, -, rfl⟩ := Process.work_frame hwork
    exact hkeep (by simp) (by simp) hpc'
  -- the other calls are not made inside of a checkpoint
  all_goals
    next hpc => exact hkeep (by simp) (by simp) (by simp [hpc])

/-- **A session without failures** keeps the store ready. -/
lemma Process.Ready.mutations {σ σ' : Process} (h : σ.Ready) {ms : List Mutator}
    (hms : ∀ a, .own a ∈ ms → a.succeeds = true) (hrun : σ.mutations ms = some σ') : σ'.Ready := by
  induction ms generalizing σ with
  | nil => exact Option.some.inj hrun ▸ h
  | cons m ms ih =>
    obtain ⟨σ₁, hm, hrun⟩ := Option.bind_eq_some_iff.mp hrun
    refine ih ?_ (fun a ha => hms a (List.mem_cons_of_mem m ha)) hrun
    cases Process.mutate_mutation hm with
    | own a _ he => exact h.step (hms a (by simp)) he
    | applyPut key value hpc => exact ⟨h.opened, h.running, h.fd⟩
    | applyDel key hpc => exact ⟨h.opened, h.running, h.fd⟩
    | loadFromFile file hpc =>
      obtain ⟨map, t, n, hload⟩ := σ.store.loadFromFile_frame file
      rw [hload]
      exact ⟨h.opened, h.running, h.fd⟩
    | loadSnapshot file hpc =>
      cases file with
      | none => exact h
      | some content => exact ⟨h.opened, h.running, h.fd⟩

/-! ### A delete -/

namespace KVStore

/-- A tombstone of the key fills the memtable, and it cannot be rotated. -/
def Full (s : KVStore) (key : Bytes) : Prop :=
  kMemTableFlushThresholdBytes ≤
      s.memtable.approximateSizeBytes + (key.length + sizeofTimestamp + sizeofVersion) ∧
    s.immutable.isSome = true

/-- **`del` reports what it did**: it returns true for a key that is there, which is then gone, and
when it returns false nothing has changed. -/
structure DelHonest (s : KVStore) (d : Disk) (key : Bytes) : Prop where
  returns : (s.del d key .ok).1 = true ↔ (s.get key).isSome = true
  gone : (s.del d key .ok).1 = true → (s.del d key .ok).2.1.get key = none
  unchanged : (s.del d key .ok).1 = false →
    (∀ k, (s.del d key .ok).2.1.get k = s.get k) ∧
    (∀ k t, ((s.del d key .ok).2.1.getAt (s.del d key .ok).2.2 k t .ok).1 = (s.getAt d k t .ok).1) ∧
    (s.del d key .ok).2.1.seq = s.seq

variable {s : KVStore} {d : Disk} {key : Bytes}

/-- **A key that is there is deleted**, whatever is returned. -/
lemma del_gone (ho : s.opened = true) (hfd : s.wal.fd.isSome = true)
    (hkey : (s.get key).isSome = true) (io : FlushOutcome) :
    (s.del d key io).2.1.get key = none := by
  obtain ⟨m, i, n, w, l, f, hf⟩ :=
    finishWrite_frame (s.logged ⟨s.seq + 1, key, none⟩) d io
  rw [del_eq ho hfd hkey, hf]
  simp [get, applyRecord]

/-- False is returned exactly when the memtable is full and cannot be rotated. -/
lemma del_refused_iff (ho : s.opened = true) (hw : s.flushWorker.Running)
    (hfd : s.wal.fd.isSome = true) (hkey : (s.get key).isSome = true) :
    (s.del d key .ok).1 = false ↔ s.Full key := by
  set s' := s.logged ⟨s.seq + 1, key, none⟩ with hs'
  obtain ⟨m, t, w, hl⟩ := s.logged_frame ⟨s.seq + 1, key, none⟩
  have hw' : s'.flushWorker.Running := by
    rw [hs', hl]
    exact hw
  have hfull : s'.maybeFlushMemtable.1 = false ↔ s.Full key := by
    rw [maybeFlushMemtable_refused hw']
    exact Iff.rfl
  rw [del_eq ho hfd hkey, ← hfull]
  unfold finishWrite
  split
  · next s₁ e => simp [hs', e]
  · next s₁ e =>
    -- behind the rotation only a flush can fail, and the log can be written
    have hfd₁ : s₁.wal.fd.isSome = true := by
      obtain ⟨m', i', n', w', hf⟩ := s'.maybeFlushMemtable_frame
      rw [← hs'] at e
      rw [e] at hf
      rw [show s₁ = _ from hf]
      exact hfd
    have htrue : (if s₁.seq % s₁.groupCommitEvery = 0 then s₁.flushWal d .ok else (true, s₁, d)).1 =
        true := by
      split
      · exact Wal.flush_succeeds hfd₁ _
      · rfl
    rw [htrue, hs', e]

end KVStore

/-- **`del` reports what it did exactly when** the key is absent, or its tombstone leaves the memtable
below the threshold, or no earlier flush is outstanding, in every state between two calls of every
session without failures. -/
theorem del_honest_iff {d : Disk} {ms : List Mutator} {σ : Process}
    (hrun : (Process.start d).mutations ms = some σ)
    (hms : ∀ a, .own a ∈ ms → a.succeeds = true) (hpc : σ.pc = .idle) (key : Bytes) :
    σ.store.DelHonest σ.disk key ↔ ¬ ((σ.store.get key).isSome = true ∧ σ.store.Full key) := by
  have h := (Process.ready_start d).mutations hms hrun
  have hfd := h.fd (by simp [hpc])
  cases hkey : (σ.store.get key).isSome with
  | false =>
    have hnone : σ.store.get key = none := by simpa using hkey
    have hdel : σ.store.del σ.disk key .ok = (false, σ.store, σ.disk) := KVStore.del_absent hnone
    simp only [Bool.false_eq_true, false_and, not_false_eq_true, iff_true]
    refine ⟨by simp [hdel, hkey], by simp [hdel], fun _ => ?_⟩
    rw [hdel]
    exact ⟨fun _ => rfl, fun _ _ => rfl, rfl⟩
  | true =>
    have hrefused := KVStore.del_refused_iff (d := σ.disk) h.opened h.running hfd hkey
    rw [← hrefused, eq_self_iff_true, true_and, Bool.not_eq_false]
    constructor
    · exact fun hh => hh.returns.mpr hkey
    · intro htrue
      exact ⟨by simp [htrue, hkey], fun _ => KVStore.del_gone h.opened hfd hkey .ok, by simp [htrue]⟩

/-- Two puts that fill the memtable; the second one is not rotated. -/
def fillTwice (v : Bytes) : List Mutator :=
  [.own (.put (text "a") v), .own .rotate, .own (.commit .ok), .own (.put (text "a") v), .own .rotate]

lemma fillTwice_run (v : Bytes) (hv : kMemTableFlushThresholdBytes ≤ v.length) :
    ∃ σ, (Process.start Disk.empty).mutations (fillTwice v) = some σ ∧ σ.pc = .idle ∧
      (σ.store.get (text "a")).isSome = true ∧ σ.store.Full (text "a") := by
  -- the first put is rotated, and its task stays with the worker
  set σ₁ := (Process.start Disk.empty).put (text "a") v with hσ₁
  have hmem : σ₁.store.memtable = ⟨oneVersion v, 57 + v.length⟩ :=
    Process.put_memtable rfl rfl rfl v
  have hrotate : σ₁.rotate = ⟨σ₁.store.rotated, σ₁.disk, .committing, σ₁.written⟩ :=
    Process.rotate_accepted (rotates_of_put hv hmem rfl) rfl
  set σ₃ : Process := ⟨σ₁.store.rotated, σ₁.disk, .idle, σ₁.written⟩ with hσ₃
  have hrun₃ : (Process.start Disk.empty).mutations ((fillTwice v).take 3) = some σ₃ := by
    have hstep : (σ₁.rotate.step (.commit .ok)).bind (fun σ => some σ) = some σ₃ := by
      rw [hrotate]
      rfl
    exact hstep
  set σ₄ := σ₃.put (text "a") v with hσ₄
  have hfull : kMemTableFlushThresholdBytes ≤ σ₄.store.memtable.approximateSizeBytes := by
    rw [show σ₄.store.memtable = _ from Process.put_memtable rfl rfl rfl v]
    show _ ≤ 57 + v.length
    omega
  have hrotate₄ : σ₄.rotate = { σ₄ with pc := .idle } := by
    have himm : σ₄.store.immutable.isSome = true := rfl
    have hmaybe : σ₄.store.maybeFlushMemtable = (false, σ₄.store) := by
      rw [KVStore.maybeFlushMemtable, if_neg (by omega), if_pos himm]
    rw [Process.rotate, hmaybe]
  refine ⟨{ σ₄ with pc := .idle }, ?_, rfl, ?_, ?_, rfl⟩
  · have hsplit : fillTwice v = (fillTwice v).take 3 ++ (fillTwice v).drop 3 := rfl
    rw [hsplit, Process.mutations, List.foldlM_append]
    show ((Process.start Disk.empty).mutations ((fillTwice v).take 3)).bind _ = _
    rw [hrun₃]
    show some σ₄.rotate = _
    rw [hrotate₄]
  · have hget : σ₄.store.get (text "a") = some v := Std.ExtTreeMap.getElem?_insert_self
    rw [show ({ σ₄ with pc := .idle } : Process).store.get (text "a") = some v from hget]
    rfl
  · show _ ≤ σ₄.store.memtable.approximateSizeBytes + _
    omega

/-- **A delete that was applied**: `del` returns false, and the key is gone. -/
theorem del_applied_not_reported : ∃ σ,
    (Process.start Disk.empty).mutations (fillTwice largeValue) = some σ ∧
      (∀ a, .own a ∈ fillTwice largeValue → a.succeeds = true) ∧ σ.pc = .idle ∧
      (σ.store.get (text "a")).isSome = true ∧ (σ.store.del σ.disk (text "a") .ok).1 = false ∧
      (σ.store.del σ.disk (text "a") .ok).2.1.get (text "a") = none ∧
      ¬ σ.store.DelHonest σ.disk (text "a") := by
  obtain ⟨σ, hrun, hpc, hkey, hfull⟩ := fillTwice_run largeValue (by simp [largeValue])
  have hms : ∀ a, .own a ∈ fillTwice largeValue → a.succeeds = true := by
    simp [fillTwice, Action.succeeds]
  have h := (Process.ready_start Disk.empty).mutations hms hrun
  have hfd := h.fd (by simp [hpc])
  have hfalse := (KVStore.del_refused_iff (d := σ.disk) h.opened h.running hfd hkey).mpr hfull
  refine ⟨σ, hrun, hms, hpc, hkey, hfalse, KVStore.del_gone h.opened hfd hkey .ok, fun hh => ?_⟩
  exact absurd (hh.returns.mpr hkey) (by simp [hfalse])

/-- A key behind one put of a short value is deleted. -/
theorem del_after_put : ∃ σ,
    (Process.start Disk.empty).mutations
        [.own (.put (text "a") (text "1")), .own .rotate, .own (.commit .ok)] = some σ ∧
      (σ.store.get (text "a")).isSome = true ∧ σ.store.DelHonest σ.disk (text "a") := by
  obtain ⟨σ, hrun, hpc, hget, himm⟩ : ∃ σ, (Process.start Disk.empty).mutations
      [.own (.put (text "a") (text "1")), .own .rotate, .own (.commit .ok)] = some σ ∧
        σ.pc = .idle ∧ (σ.store.get (text "a")).isSome = true ∧ σ.store.immutable = none := by
    refine ⟨_, rfl, rfl, ?_, ?_⟩ <;> decide +kernel
  refine ⟨σ, hrun, hget, (del_honest_iff hrun (by simp [Action.succeeds]) hpc (text "a")).mpr ?_⟩
  rintro ⟨-, -, hsome⟩
  simp [himm] at hsome

end VeriStore.Store

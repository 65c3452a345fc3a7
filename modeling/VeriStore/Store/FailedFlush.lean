import VeriStore.Store.Rotation

/-!
A flush that fails.

The entries of a rotated memtable are moved into the task of the worker before it is known whether
the worker takes it, and the worker hands back finished tasks only. A task that is refused or given
up is gone, and the immutable memtable, which is empty by then, stays where it is.

* `failed_flush_final` — no read is answered from the lost versions, and the memtable is never
  rotated again;
* `refused_table_loses` — a value that is lost with its table.
-/

namespace VeriStore.Store

open VeriStore.Lib VeriStore.Sstable VeriStore.Log

open KVStore (OpenIo)

/-! ### Failures -/

/-- The worker gives up its task: the table, the manifest or the new line of it was not written. -/
def FlushWorker.Drops (w w' : FlushWorker) : Prop :=
  (∃ t, w.pc = .popped t ∨ w.pc = .written t ∨ ∃ existing, w.pc = .loaded t existing) ∧
    w'.pc = .waiting

/-- **The flush of a rotation fails.** -/
inductive Process.Fails (σ : Process) : Process → Prop
  | refused (h : (σ.store.flushWorker.enqueue σ.store.flushTask).1 = false) : Fails σ σ.rotate
  | dropped {σ₁ σ₂ : Process} {io : WriteOutcome} (h : σ.Pending σ₁)
      (hstep : σ₁.step (.work io) = some σ₂)
      (hdrop : σ₁.store.flushWorker.Drops σ₂.store.flushWorker) : Fails σ σ₂

/-- **Nothing is lost** between the state before a rotation and a later one: what could be read is
still read, and the memtable can be rotated again at some time. -/
structure Process.Survives (σ σ' : Process) : Prop where
  reads : ∀ key t io v, t ≤ σ.store.seq → (σ.store.getAt σ.disk key t io).1 = some v →
    (σ'.store.getAt σ'.disk key t io).1 = some v
  rotates : ∃ as σ'', σ'.run as = some σ'' ∧ σ''.store.Rotates

/-- A worker without its task has one flush less. -/
lemma FlushWorker.flushes_of_drops {w w' : FlushWorker} {d d' : Disk} {io : WriteOutcome}
    (h : w.step d io = some (w', d')) (hdrop : w.Drops w') : w'.flushes < w.flushes := by
  obtain ⟨⟨t, hpc⟩, hwait⟩ := hdrop
  rcases hpc with hpc | hpc | ⟨existing, hpc⟩
  all_goals
    simp only [FlushWorker.step, hpc] at h
    cases io <;> try split at h
    all_goals
      obtain ⟨rfl, rfl⟩ := Prod.mk.inj (Option.some.inj h)
      simp [FlushWorker.flushes, FlushWorker.held, hpc] at hwait ⊢

/-! ### A store that is stuck -/

/-- The immutable memtable is there, and nothing is being flushed. -/
structure KVStore.Stuck (s : KVStore) : Prop where
  immutable : s.immutable.isSome
  flushes : s.flushWorker.flushes = 0

lemma KVStore.Stuck.not_rotates {s : KVStore} (h : s.Stuck) : ¬ s.Rotates := by
  intro hrot
  have himm := h.immutable
  rw [hrot.2.1] at himm
  exact absurd himm (by simp)

section Stuck

variable {σ σ' : Process}

/-- **No step gets out of it.** -/
lemma Process.Effect.stuck {a : Action} (he : σ.Effect a σ') (h : σ.store.Stuck) :
    σ'.store.Stuck := by
  have hwrite : ∀ key value, (σ.write key value).store.Stuck := by
    intro key value
    unfold Process.write
    split
    · exact h
    · split
      · exact ⟨h.immutable, h.flushes⟩
      · obtain ⟨m, n, w, hl⟩ := σ.store.logged_frame ⟨σ.store.seq + 1, key, value⟩
        show (σ.store.logged _).Stuck
        rw [hl]
        exact ⟨h.immutable, h.flushes⟩
  cases he with
  | put key value => exact hwrite _ _
  | del key =>
    unfold Process.del
    split
    · exact hwrite _ _
    · exact h
  | rotate =>
    rw [σ.rotate_frame.1]
    rcases σ.store.maybeFlushMemtable_cases with ⟨ok, e⟩ | ⟨-, e⟩ | ⟨hrot, -⟩
    · rw [e]
      exact h
    · rw [e]
      exact ⟨h.immutable, h.flushes⟩
    · exact absurd hrot h.not_rotates
  | commit io =>
    obtain ⟨w, f, e⟩ := σ.commit_frame io
    rw [e]
    exact ⟨h.immutable, h.flushes⟩
  | drain key t added =>
    -- there is no completion that would clear the slot
    have hnil : σ.store.flushWorker.completions = [] := by
      have := h.flushes
      unfold FlushWorker.flushes at this
      exact List.length_eq_zero_iff.mp (by omega)
    simp only [Process.drain, KVStore.drainOne, FlushWorker.pollCompletion, hnil, Option.map_none]
    exact h
  | compact key t io =>
    obtain ⟨paths, n, m, tb, pc, e⟩ := σ.compact_frame key t io
    rw [e]
    exact ⟨h.immutable, h.flushes⟩
  | rename key t j ok =>
    obtain ⟨tb, pc, e⟩ := σ.rename_frame key t j ok
    rw [e]
    exact h
  | replace key t j ok =>
    obtain ⟨m, tb, pc, e⟩ := σ.replace_frame key t j ok
    rw [e]
    exact h
  | save io =>
    obtain ⟨x, pc, e, -⟩ := σ.save_frame io
    rw [e]
    exact h
  | work io _ hw =>
    obtain ⟨w, d, hstep, rfl⟩ := Process.work_frame hw
    have hle := (FlushWorker.step_moves hstep).flushes_le
    have := h.flushes
    exact ⟨h.immutable, show w.flushes = 0 by omega⟩
  | flushWal | setGroupCommitEvery | getAt | finish | read | removeWal | reopenWal =>
    exact ⟨h.immutable, h.flushes⟩

lemma run_stuck {as : List Action} (hrun : σ.run as = some σ') (h : σ.store.Stuck) :
    σ'.store.Stuck :=
  Process.run_induct (P := fun σ => σ.store.Stuck) (Q := fun _ => True) hrun (fun _ _ => trivial) h
    fun _ _ _ _ he ih => he.stuck ih

lemma Process.Pending.oneFlush (h : σ.Pending σ') (hone : σ.store.OneFlush) : σ'.store.OneFlush := by
  induction h with
  | rotated => exact hone.rotate
  | step _ hstep _ ih => exact (Process.step_effect hstep).oneFlush ih

/-- **A failed flush leaves a store that is stuck**, in the window of the rotation. -/
lemma Process.Fails.stuck (h : σ.Fails σ') (hone : σ.store.OneFlush) (hrot : σ.store.Rotates) :
    σ'.store.Stuck ∧ Window σ σ' := by
  cases h with
  | refused hq =>
    have hw := Window.rotated hone hrot
    obtain ⟨hheld, hcomp⟩ := hone.idle hrot.2.1
    refine ⟨⟨by simp [hw.immutable], ?_⟩, hw⟩
    rw [Process.rotate_store hrot]
    unfold FlushWorker.enqueue at hq
    split at hq
    · next hstop =>
      simp [KVStore.rotated, FlushWorker.enqueue, hstop, FlushWorker.flushes, hheld, hcomp]
    · simp at hq
  | @dropped σ₁ _ io hp hstep hdrop =>
    have hw₁ := hp.window hone hrot
    have hle := (hp.oneFlush hone).le
    have hw := hw₁.effect (Process.step_effect hstep) (by simp)
    refine ⟨⟨by simp [hw.immutable], ?_⟩, hw⟩
    obtain ⟨w, d, hws, rfl⟩ := Process.work_frame hstep
    have hlt := FlushWorker.flushes_of_drops hws hdrop
    rw [hw₁.immutable] at hle
    show w.flushes = 0
    simp only [Option.isSome_some, if_true] at hle
    omega

/-- What is read behind a failed flush. -/
lemma Process.Fails.getAt (h : σ.Fails σ') (hone : σ.store.OneFlush) (hrot : σ.store.Rotates)
    (key : Bytes) {t : ℕ} (io : KVStore.CompactIo) (ht : t ≤ σ.store.seq) :
    (σ'.store.getAt σ'.disk key t io).1 = σ.store.tablesAt σ'.disk.tables key t := by
  obtain ⟨hstuck, hw⟩ := h.stuck hone hrot
  have hnil : σ'.store.flushWorker.completions = [] := by
    have := hstuck.flushes
    unfold FlushWorker.flushes at this
    exact List.length_eq_zero_iff.mp (by omega)
  rw [KVStore.getAt_of_nil hnil, hw.readAt key ht]

end Stuck

/-- **A failed flush is final.** In every process, whatever files it was opened on and whatever its
system calls did, a rotation whose flush fails, because the worker refuses the task or gives it up,
loses something: the memtable is never rotated again, and reads at timestamps up to the rotation
are answered by the tables alone. -/
theorem failed_flush_final {d : Disk} {io : OpenIo} {as : List Action} {σ σ' : Process}
    (hrun : (Process.launch d io).run as = some σ) (hrot : σ.store.Rotates) (hf : σ.Fails σ') :
    ¬ σ.Survives σ' ∧ (∀ bs σ'', σ'.run bs = some σ'' → ¬ σ''.store.Rotates) ∧
      ∀ key t io, t ≤ σ.store.seq →
        (σ'.store.getAt σ'.disk key t io).1 = σ.store.tablesAt σ'.disk.tables key t := by
  have hone := run_oneFlush hrun (Process.launch_oneFlush d io)
  have hnever : ∀ bs σ'', σ'.run bs = some σ'' → ¬ σ''.store.Rotates := fun bs σ'' hbs =>
    (run_stuck hbs (hf.stuck hone hrot).1).not_rotates
  refine ⟨?_, hnever, fun key t io ht => hf.getAt hone hrot key io ht⟩
  rintro ⟨-, bs, σ'', hbs, hrot'⟩
  exact hnever bs σ'' hbs hrot'

/-- The worker takes the task of the first large value and cannot write the table. -/
lemma put_dropped (v : Bytes) (hv : kMemTableFlushThresholdBytes ≤ v.length) :
    ∃ σ σ', (Process.start Disk.empty).run [.put (text "a") v] = some σ ∧ σ.store.Rotates ∧
      σ.rotate.run [.work .ok, .work .refused] = some σ' ∧ σ.Fails σ' ∧
      (σ.store.getAt σ.disk (text "a") 1 .ok).1 = some v ∧ σ.store.sstablePaths = [] ∧
      σ.store.seq = 1 := by
  obtain ⟨σ, hrun, hrot, hq, -, hread, -⟩ := put_unseen v hv
  have hone := run_oneFlush hrun (Process.launch_oneFlush _ _)
  obtain ⟨σ₁, h1, -, hpc, -⟩ := Process.rotate_pop hone hrot hq
  have h2 : σ₁.step (.work .refused) = some { σ₁ with
      store := { σ₁.store with flushWorker := { σ₁.store.flushWorker with pc := .waiting } } } := by
    simp only [Process.step, Process.work, FlushWorker.step, hpc, Option.map_some]
  have hfail : σ.Fails _ :=
    .dropped (.step .rotated h1 (by simp)) h2 ⟨⟨_, Or.inl hpc⟩, rfl⟩
  refine ⟨σ, _, hrun, hrot, ?_, hfail, hread, ?_, ?_⟩
  · simp only [Process.run, List.foldlM_cons, h1, h2, List.foldlM_nil, Option.bind_eq_bind,
      Option.bind_some]
    rfl
  · obtain rfl := Option.some.inj hrun
    rfl
  · obtain rfl := Option.some.inj hrun
    rfl

/-- **A value that is lost with its table**, in a store that can rotate no more. -/
theorem refused_table_loses : ∃ σ σ',
    (Process.start Disk.empty).run [.put (text "a") largeValue] = some σ ∧ σ.store.Rotates ∧
      σ.rotate.run [.work .ok, .work .refused] = some σ' ∧ σ.Fails σ' ∧
      (σ.store.getAt σ.disk (text "a") 1 .ok).1 = some largeValue ∧
      (σ'.store.getAt σ'.disk (text "a") 1 .ok).1 = none ∧
      ∀ as σ'', σ'.run as = some σ'' → ¬ σ''.store.Rotates := by
  obtain ⟨σ, σ', hrun, hrot, hrun', hfail, hread, hpaths, hseq⟩ :=
    put_dropped largeValue (by simp [largeValue])
  have hone := run_oneFlush hrun (Process.launch_oneFlush _ _)
  refine ⟨σ, σ', hrun, hrot, hrun', hfail, hread, ?_, fun as σ'' has => ?_⟩
  · rw [hfail.getAt hone hrot _ _ hseq.ge, KVStore.tablesAt, hpaths]
    rfl
  · exact (run_stuck has (hfail.stuck hone hrot).1).not_rotates

/-- A flush that fails, and what is lost with it. -/
theorem failed_flush_final_first : ∃ σ σ',
    (Process.start Disk.empty).run [.put (text "a") largeValue] = some σ ∧ σ.Fails σ' ∧
      ¬ σ.Survives σ' := by
  obtain ⟨σ, σ', hrun, hrot, -, hfail, -⟩ := put_dropped largeValue (by simp [largeValue])
  exact ⟨σ, σ', hrun, hfail, (failed_flush_final hrun hrot hfail).1⟩

end VeriStore.Store

import VeriStore.Store.Files

/-!
The flush worker among its threads.

One thread owns the worker and calls `start` and `stop`, any number of threads call `enqueue` and
`poll_completion`, and the worker thread runs, sleeps in its wait and is woken up. Each critical
section is a step, and so is each notification, which comes after the section it belongs to. The
system also keeps what has happened: the tasks that `enqueue` accepted, those that were executed,
those whose table and manifest entry were written, and the paths that `poll_completion` handed out.

* `WorkerSystem.Inv` — the accepted tasks are the executed ones, the one in work and the queue;
* `exactly_once` — every accepted task is executed once, in order, and all of them before `stop`
  returns.
-/

namespace VeriStore.Store

open VeriStore.Lib

/-! ### The system -/

/-- The task the worker thread has in work. -/
def WorkerPc.task? : WorkerPc → Option FlushTask
  | .popped t | .written t | .loaded t _ | .appended t => some t
  | .waiting | .exited => none

/-- The task whose table and manifest entry are written and whose completion is not posted yet. -/
def WorkerPc.listed? : WorkerPc → Option FlushTask
  | .appended t => some t
  | _ => none

@[simp] lemma WorkerPc.task?_waiting : WorkerPc.waiting.task? = none := rfl
@[simp] lemma WorkerPc.task?_exited : WorkerPc.exited.task? = none := rfl
@[simp] lemma WorkerPc.task?_popped (t : FlushTask) : (WorkerPc.popped t).task? = some t := rfl
@[simp] lemma WorkerPc.task?_appended (t : FlushTask) : (WorkerPc.appended t).task? = some t := rfl
@[simp] lemma WorkerPc.listed?_waiting : WorkerPc.waiting.listed? = none := rfl
@[simp] lemma WorkerPc.listed?_exited : WorkerPc.exited.listed? = none := rfl
@[simp] lemma WorkerPc.listed?_popped (t : FlushTask) : (WorkerPc.popped t).listed? = none := rfl
@[simp] lemma WorkerPc.listed?_appended (t : FlushTask) :
    (WorkerPc.appended t).listed? = some t := rfl

/-- Where the owner is in `stop`: behind each of its first three parts. -/
inductive OwnerPc where
  | idle | notifying | joining | clearing
  deriving DecidableEq

/-- The worker, the files, whether the worker thread sleeps, the calls of `enqueue` that have not
notified it yet, and the owner; then what has happened. -/
structure WorkerSystem where
  worker : FlushWorker
  disk : Disk
  asleep : Bool
  signals : ℕ
  owner : OwnerPc
  accepted : List FlushTask
  executed : List FlushTask
  succeeded : List FlushTask
  handed : List Bytes

inductive WorkerAction where
  | start
  | stop
  | notifyAll
  | join
  | clear
  | enqueue (task : FlushTask)
  | notifyOne
  | poll
  | sleep
  | wake
  | run (io : WriteOutcome)

def WorkerAction.isRun : WorkerAction → Bool
  | .run _ => true
  | _ => false

namespace WorkerSystem

def init (d : Disk) : WorkerSystem := ⟨FlushWorker.new, d, false, 0, .idle, [], [], [], []⟩

/-- **One step of the system**; `none` when the action is not possible. -/
def act (s : WorkerSystem) : WorkerAction → Option WorkerSystem
  | .start =>
    if s.owner = .idle then
      some (if s.worker.started then s else { s with worker := s.worker.start, asleep := false })
    else none
  | .stop =>
    if s.owner = .idle then
      some (if s.worker.started then { s with worker := s.worker.stop, owner := .notifying } else s)
    else none
  | .notifyAll =>
    if s.owner = .notifying then some { s with owner := .joining, asleep := false } else none
  | .join =>
    match s.owner, s.worker.pc with
    | .joining, .exited => some { s with owner := .clearing }
    | _, _ => none
  | .clear =>
    if s.owner = .clearing then
      some { s with worker := { s.worker with started := false }, owner := .idle }
    else none
  | .enqueue task =>
    match s.worker.enqueue task with
    | (true, w) =>
      some { s with worker := w, signals := s.signals + 1, accepted := s.accepted ++ [task] }
    | (false, _) => some s
  | .notifyOne =>
    if s.signals = 0 then none else some { s with signals := s.signals - 1, asleep := false }
  | .poll =>
    match s.worker.pollCompletion with
    | some (path, w) => some { s with worker := w, handed := s.handed ++ [path] }
    | none => some s
  -- the wait: the lock is held from the test of the condition until the thread sleeps
  | .sleep =>
    match s.asleep, s.worker.pc with
    | false, .waiting =>
      if s.worker.stopping ∨ s.worker.tasks ≠ [] then none else some { s with asleep := true }
    | _, _ => none
  -- a spurious wakeup
  | .wake => if s.asleep then some { s with asleep := false } else none
  | .run io =>
    if s.asleep then none
    else
      (s.worker.step s.disk io).map fun (w, d) =>
        { s with
          worker := w
          disk := d
          executed := s.executed ++ if w.pc.task?.isNone then s.worker.pc.task?.toList else []
          succeeded := s.succeeded ++ w.pc.listed?.toList }

/-- A run from a state. -/
def run (s : WorkerSystem) (as : List WorkerAction) : Option WorkerSystem := as.foldlM act s

/-- A call of `stop` returns: behind its last section, or at once. -/
def StopReturns (s : WorkerSystem) : WorkerAction → Prop
  | .clear => True
  | .stop => s.worker.started = false
  | _ => False

end WorkerSystem

/-! ### The worker thread -/

/-- How far the worker thread is with a task. -/
def WorkerPc.place : WorkerPc → ℕ
  | .waiting | .exited => 0
  | .popped _ => 1
  | .written _ => 2
  | .loaded _ _ => 3
  | .appended _ => 4

lemma WorkerPc.place_le (pc : WorkerPc) : pc.place ≤ 4 := by
  cases pc <;> simp [WorkerPc.place]

/-- **The steps of the worker thread**: it takes a task, ends, goes on with its task, gives it up,
or posts its completion. -/
lemma FlushWorker.step_cases {w w' : FlushWorker} {d d' : Disk} {io : WriteOutcome}
    (h : w.step d io = some (w', d')) :
    (∃ t ts, w.pc = .waiting ∧ w.tasks = t :: ts ∧ w' = { w with tasks := ts, pc := .popped t }) ∨
    (w.pc = .waiting ∧ w.tasks = [] ∧ w.stopping = true ∧ w' = { w with pc := .exited }) ∨
    (∃ t pc, w.pc.task? = some t ∧ pc.task? = some t ∧ w.pc.listed? = none ∧
      pc.place = w.pc.place + 1 ∧ w' = { w with pc := pc }) ∨
    (∃ t, w.pc.task? = some t ∧ w.pc.listed? = none ∧ w' = { w with pc := .waiting }) ∨
    (∃ t, w.pc = .appended t ∧
      w' = { w with completions := w.completions ++ [t.sstablePath], pc := .waiting }) := by
  unfold FlushWorker.step at h
  cases hpc : w.pc with
  | waiting =>
    simp only [hpc] at h
    split at h
    · next t ts ht =>
      obtain ⟨rfl, -⟩ := Prod.mk.inj (Option.some.inj h)
      exact Or.inl ⟨t, ts, rfl, ht, rfl⟩
    · next ht =>
      split at h
      · next hs =>
        obtain ⟨rfl, -⟩ := Prod.mk.inj (Option.some.inj h)
        exact Or.inr (Or.inl ⟨rfl, ht, hs, rfl⟩)
      · simp at h
  | popped t =>
    simp only [hpc] at h
    cases io with
    | ok =>
      obtain ⟨rfl, -⟩ := Prod.mk.inj (Option.some.inj h)
      exact Or.inr (Or.inr (Or.inl ⟨t, .written t, rfl, rfl, rfl, rfl, rfl⟩))
    | refused | short n =>
      obtain ⟨rfl, -⟩ := Prod.mk.inj (Option.some.inj h)
      exact Or.inr (Or.inr (Or.inr (Or.inl ⟨t, rfl, rfl, rfl⟩)))
  | written t =>
    simp only [hpc] at h
    cases io with
    | ok =>
      obtain ⟨rfl, -⟩ := Prod.mk.inj (Option.some.inj h)
      exact Or.inr (Or.inr (Or.inl ⟨t, .loaded t _, rfl, rfl, rfl, rfl, rfl⟩))
    | refused | short n =>
      obtain ⟨rfl, -⟩ := Prod.mk.inj (Option.some.inj h)
      exact Or.inr (Or.inr (Or.inr (Or.inl ⟨t, rfl, rfl, rfl⟩)))
  | loaded t existing =>
    simp only [hpc] at h
    split at h
    · obtain ⟨rfl, -⟩ := Prod.mk.inj (Option.some.inj h)
      exact Or.inr (Or.inr (Or.inl ⟨t, .appended t, rfl, rfl, rfl, rfl, rfl⟩))
    · cases io with
      | ok =>
        obtain ⟨rfl, -⟩ := Prod.mk.inj (Option.some.inj h)
        exact Or.inr (Or.inr (Or.inl ⟨t, .appended t, rfl, rfl, rfl, rfl, rfl⟩))
      | refused | short n =>
        obtain ⟨rfl, -⟩ := Prod.mk.inj (Option.some.inj h)
        exact Or.inr (Or.inr (Or.inr (Or.inl ⟨t, rfl, rfl, rfl⟩)))
  | appended t =>
    simp only [hpc] at h
    obtain ⟨rfl, -⟩ := Prod.mk.inj (Option.some.inj h)
    exact Or.inr (Or.inr (Or.inr (Or.inr ⟨t, rfl, rfl⟩)))
  | exited => simp [hpc] at h

/-- A worker thread that has a task in work or finds one goes on, whatever the files do. -/
lemma FlushWorker.step_isSome {w : FlushWorker} (hpc : w.pc ≠ .exited)
    (h : w.pc = .waiting → w.tasks ≠ []) (d : Disk) (io : WriteOutcome) :
    (w.step d io).isSome := by
  unfold FlushWorker.step
  cases hw : w.pc with
  | waiting =>
    obtain ⟨t, ts, ht⟩ := List.exists_cons_of_ne_nil (h hw)
    simp [ht]
  | popped t => cases io <;> rfl
  | written t => cases io <;> rfl
  | loaded t existing =>
    simp only
    split
    · rfl
    · cases io <;> rfl
  | appended t => rfl
  | exited => exact absurd hw hpc

/-! ### Steps -/

namespace WorkerSystem

/-- **What a step can do.** -/
inductive Effect (s : WorkerSystem) : WorkerAction → WorkerSystem → Prop
  | again (ho : s.owner = .idle) (h : s.worker.started = true) : Effect s .start s
  | start (ho : s.owner = .idle) (h : s.worker.started = false) : Effect s .start
      { s with
        worker := { s.worker with stopping := false, started := true, pc := .waiting }
        asleep := false }
  | ended (ho : s.owner = .idle) (h : s.worker.started = false) : Effect s .stop s
  | stop (ho : s.owner = .idle) (h : s.worker.started = true) : Effect s .stop
      { s with worker := { s.worker with stopping := true }, owner := .notifying }
  | notifyAll (ho : s.owner = .notifying) :
      Effect s .notifyAll { s with owner := .joining, asleep := false }
  | join (ho : s.owner = .joining) (h : s.worker.pc = .exited) :
      Effect s .join { s with owner := .clearing }
  | clear (ho : s.owner = .clearing) :
      Effect s .clear { s with worker := { s.worker with started := false }, owner := .idle }
  | refuse (task : FlushTask) (h : s.worker.started = false ∨ s.worker.stopping = true) :
      Effect s (.enqueue task) s
  | enqueue (task : FlushTask) (h1 : s.worker.started = true) (h2 : s.worker.stopping = false) :
      Effect s (.enqueue task)
        { s with
          worker := { s.worker with tasks := s.worker.tasks ++ [task] }
          signals := s.signals + 1
          accepted := s.accepted ++ [task] }
  | notifyOne (h : s.signals ≠ 0) :
      Effect s .notifyOne { s with signals := s.signals - 1, asleep := false }
  | nothing (h : s.worker.completions = []) : Effect s .poll s
  | poll (path : Bytes) (rest : List Bytes) (h : s.worker.completions = path :: rest) :
      Effect s .poll
        { s with
          worker := { s.worker with completions := rest }
          handed := s.handed ++ [path] }
  | sleep (h : s.worker.pc = .waiting) (h1 : s.worker.stopping = false)
      (h2 : s.worker.tasks = []) : Effect s .sleep { s with asleep := true }
  | wake : Effect s .wake { s with asleep := false }
  | take (io : WriteOutcome) (d : Disk) (t : FlushTask) (ts : List FlushTask)
      (ha : s.asleep = false) (h : s.worker.pc = .waiting) (ht : s.worker.tasks = t :: ts) :
      Effect s (.run io)
        { s with worker := { s.worker with tasks := ts, pc := .popped t }, disk := d }
  | exit (io : WriteOutcome) (d : Disk) (ha : s.asleep = false) (h : s.worker.pc = .waiting)
      (ht : s.worker.tasks = []) (hs : s.worker.stopping = true) :
      Effect s (.run io) { s with worker := { s.worker with pc := .exited }, disk := d }
  | work (io : WriteOutcome) (d : Disk) (t : FlushTask) (pc : WorkerPc) (ha : s.asleep = false)
      (h : s.worker.pc.task? = some t) (h' : pc.task? = some t) (hl : s.worker.pc.listed? = none)
      (hp : pc.place = s.worker.pc.place + 1) :
      Effect s (.run io)
        { s with
          worker := { s.worker with pc := pc }
          disk := d
          succeeded := s.succeeded ++ pc.listed?.toList }
  | fail (io : WriteOutcome) (d : Disk) (t : FlushTask) (ha : s.asleep = false)
      (h : s.worker.pc.task? = some t) (hl : s.worker.pc.listed? = none) :
      Effect s (.run io)
        { s with
          worker := { s.worker with pc := .waiting }
          disk := d
          executed := s.executed ++ [t] }
  | post (io : WriteOutcome) (d : Disk) (t : FlushTask) (ha : s.asleep = false)
      (h : s.worker.pc = .appended t) :
      Effect s (.run io)
        { s with
          worker := { s.worker with
            completions := s.worker.completions ++ [t.sstablePath]
            pc := .waiting }
          disk := d
          executed := s.executed ++ [t] }

variable {s s' : WorkerSystem}

lemma run_effect {io : WriteOutcome} (h : s.act (.run io) = some s') : Effect s (.run io) s' := by
  simp only [act] at h
  split at h
  · simp at h
  · next ha =>
    have ha : s.asleep = false := by simpa using ha
    obtain ⟨⟨w, d⟩, hstep, rfl⟩ := Option.map_eq_some_iff.mp h
    simp only
    rcases FlushWorker.step_cases hstep with ⟨t, ts, hpc, ht, rfl⟩ | ⟨hpc, ht, hs, rfl⟩ |
      ⟨t, pc, hpc, hpc', hl, hp, rfl⟩ | ⟨t, hpc, hl, rfl⟩ | ⟨t, hpc, rfl⟩
    · simpa using Effect.take (s := s) io d t ts ha hpc ht
    · simpa [hpc] using Effect.exit (s := s) io d ha hpc ht hs
    · simpa [hpc'] using Effect.work (s := s) io d t pc ha hpc hpc' hl hp
    · simpa [hpc] using Effect.fail (s := s) io d t ha hpc hl
    · simpa [hpc] using Effect.post (s := s) io d t ha hpc

/-- **Every step is one of these.** -/
theorem act_effect {a : WorkerAction} (h : s.act a = some s') : Effect s a s' := by
  cases a with
  | run io => exact run_effect h
  | start =>
    simp only [act] at h
    split at h
    · next ho =>
      obtain rfl := Option.some.inj h
      cases hw : s.worker.started with
      | true => simpa [hw] using Effect.again ho hw
      | false => simpa [hw, FlushWorker.start] using Effect.start ho hw
    · simp at h
  | stop =>
    simp only [act] at h
    split at h
    · next ho =>
      obtain rfl := Option.some.inj h
      cases hw : s.worker.started with
      | true => simpa [hw, FlushWorker.stop] using Effect.stop ho hw
      | false => simpa [hw] using Effect.ended ho hw
    · simp at h
  | notifyAll =>
    simp only [act] at h
    split at h
    · next ho => exact Option.some.inj h ▸ .notifyAll ho
    · simp at h
  | join =>
    simp only [act] at h
    split at h
    · next ho hpc => exact Option.some.inj h ▸ .join ho hpc
    · simp at h
  | clear =>
    simp only [act] at h
    split at h
    · next ho => exact Option.some.inj h ▸ .clear ho
    · simp at h
  | enqueue task =>
    cases h1 : s.worker.started with
    | false =>
      have henq : s.worker.enqueue task = (false, s.worker) := by simp [FlushWorker.enqueue, h1]
      simp only [act, henq, Option.some.injEq] at h
      exact h ▸ .refuse task (.inl h1)
    | true =>
      cases h2 : s.worker.stopping with
      | true =>
        have henq : s.worker.enqueue task = (false, s.worker) := by simp [FlushWorker.enqueue, h2]
        simp only [act, henq, Option.some.injEq] at h
        exact h ▸ .refuse task (.inr h2)
      | false =>
        have henq : s.worker.enqueue task =
            (true, { s.worker with tasks := s.worker.tasks ++ [task] }) := by
          simp [FlushWorker.enqueue, h1, h2]
        simp only [act, henq, Option.some.injEq] at h
        exact h ▸ .enqueue task h1 h2
  | notifyOne =>
    simp only [act] at h
    split at h
    · simp at h
    · next hs => exact Option.some.inj h ▸ .notifyOne hs
  | poll =>
    simp only [act, FlushWorker.pollCompletion] at h
    cases hc : s.worker.completions with
    | nil =>
      simp only [hc, Option.some.injEq] at h
      exact h ▸ .nothing hc
    | cons path rest =>
      simp only [hc, Option.some.injEq] at h
      exact h ▸ .poll path rest hc
  | sleep =>
    simp only [act] at h
    split at h
    · next ha hpc =>
      split at h
      · simp at h
      · next hcond =>
        push Not at hcond
        exact Option.some.inj h ▸ .sleep hpc (by simpa using hcond.1) hcond.2
    · simp at h
  | wake =>
    simp only [act] at h
    split at h
    · exact Option.some.inj h ▸ .wake
    · simp at h

/-! ### The invariant -/

/-- **The books of the worker.** -/
structure Inv (s : WorkerSystem) : Prop where
  /-- an accepted task is executed, in work or in the queue -/
  accepted : s.accepted = s.executed ++ s.worker.pc.task?.toList ++ s.worker.tasks
  /-- a completion is handed out, posted or about to be posted -/
  handed : s.succeeded.map FlushTask.sstablePath = s.handed ++ s.worker.completions ++
    s.worker.pc.listed?.toList.map FlushTask.sstablePath
  succeeded : s.succeeded.Sublist (s.executed ++ s.worker.pc.listed?.toList)
  /-- the thread ends when there is nothing left to do, and because the worker is stopping -/
  exited : s.worker.pc = .exited → s.worker.tasks = [] ∧
    (s.worker.started = true → s.worker.stopping = true)
  unstarted : s.worker.started = false → s.worker.pc = .exited ∧ s.owner = .idle
  running : s.worker.started = true → s.owner = .idle → s.worker.stopping = false
  stopping : s.owner ≠ .idle → s.worker.stopping = true
  cleared : s.owner = .clearing → s.worker.pc = .exited
  /-- nobody sleeps through a notification -/
  asleep : s.asleep = true → s.worker.pc = .waiting ∧
    (s.worker.tasks ≠ [] ∨ s.worker.stopping = true → s.signals ≠ 0 ∨ s.owner = .notifying)

lemma Inv.executed_isPrefix (h : s.Inv) : s.executed <+: s.accepted := by
  rw [h.accepted, List.append_assoc]
  exact List.prefix_append _ _

lemma init_inv (d : Disk) : (init d).Inv where
  accepted := rfl
  handed := rfl
  succeeded := List.Sublist.refl _
  exited _ := ⟨rfl, by simp [init, FlushWorker.new]⟩
  unstarted _ := ⟨rfl, rfl⟩
  running := by simp [init, FlushWorker.new]
  stopping := by simp [init]
  cleared := by simp [init]
  asleep := by simp [init]

/-- A step of the worker thread, which changes the task in work, the queue and the books only. -/
lemma Inv.moved (h : s.Inv) (ha : s.asleep = false) (hpc : s.worker.pc ≠ .exited)
    {w : FlushWorker} {d : Disk} {executed succeeded : List FlushTask}
    (hstarted : w.started = s.worker.started) (hstopping : w.stopping = s.worker.stopping)
    (haccepted : s.accepted = executed ++ w.pc.task?.toList ++ w.tasks)
    (hhanded : succeeded.map FlushTask.sstablePath = s.handed ++ w.completions ++
      w.pc.listed?.toList.map FlushTask.sstablePath)
    (hsucceeded : succeeded.Sublist (executed ++ w.pc.listed?.toList))
    (hexited : w.pc = .exited → w.tasks = [] ∧ w.stopping = true) :
    Inv { s with worker := w, disk := d, executed := executed, succeeded := succeeded } where
  accepted := haccepted
  handed := hhanded
  succeeded := hsucceeded
  exited hw := ⟨(hexited hw).1, fun _ => (hexited hw).2⟩
  unstarted hs := absurd (h.unstarted (hstarted ▸ hs)).1 hpc
  running hs ho := hstopping ▸ h.running (hstarted ▸ hs) ho
  stopping ho := hstopping ▸ h.stopping ho
  cleared ho := absurd (h.cleared ho) hpc
  asleep hs := absurd (ha.symm.trans hs) (by simp)

/-- What is in work is not waited for. -/
lemma ne_exited {pc : WorkerPc} {t : FlushTask} (h : pc.task? = some t) : pc ≠ .exited := by
  rintro rfl
  simp at h

/-- **Every step keeps the books.** -/
theorem Inv.effect (h : s.Inv) {a : WorkerAction} (he : Effect s a s') : s'.Inv := by
  cases he with
  | again | ended | refuse | nothing => exact h
  | start ho hs =>
    obtain ⟨hpc, -⟩ := h.unstarted hs
    have hacc := h.accepted
    have hhand := h.handed
    have hsucc := h.succeeded
    rw [hpc] at hacc hhand hsucc
    exact
      { accepted := hacc
        handed := hhand
        succeeded := hsucc
        exited := by simp
        unstarted := by simp
        running := fun _ _ => rfl
        stopping := fun hne => absurd ho hne
        cleared := fun hc => absurd (ho.symm.trans hc) (by simp)
        asleep := by simp }
  | stop ho hs =>
    exact
      { h with
        exited := fun hpc => ⟨(h.exited hpc).1, fun _ => rfl⟩
        unstarted := fun hs' => absurd (hs.symm.trans hs') (by simp)
        running := fun _ ho' => absurd ho' (by simp)
        stopping := fun _ => rfl
        cleared := fun hc => absurd hc (by simp)
        asleep := fun ha => ⟨(h.asleep ha).1, fun _ => Or.inr rfl⟩ }
  | notifyAll ho =>
    exact
      { h with
        unstarted := fun hs => absurd ((h.unstarted hs).2.symm.trans ho) (by simp)
        running := fun _ ho' => absurd ho' (by simp)
        stopping := fun _ => h.stopping (by simp [ho])
        cleared := fun hc => absurd hc (by simp)
        asleep := by simp }
  | join ho hpc =>
    exact
      { h with
        unstarted := fun hs => absurd ((h.unstarted hs).2.symm.trans ho) (by simp)
        running := fun _ ho' => absurd ho' (by simp)
        stopping := fun _ => h.stopping (by simp [ho])
        cleared := fun _ => hpc
        asleep := fun ha => absurd ((h.asleep ha).1.symm.trans hpc) (by simp) }
  | clear ho =>
    exact
      { h with
        exited := fun hpc => ⟨(h.exited hpc).1, by simp⟩
        unstarted := fun _ => ⟨h.cleared ho, rfl⟩
        running := by simp
        stopping := by simp
        cleared := by simp
        asleep := fun ha => absurd ((h.asleep ha).1.symm.trans (h.cleared ho)) (by simp) }
  | enqueue task h1 h2 =>
    have hacc : s.accepted ++ [task] =
        s.executed ++ s.worker.pc.task?.toList ++ (s.worker.tasks ++ [task]) := by
      rw [h.accepted, List.append_assoc _ _ [task]]
    exact
      { h with
        accepted := hacc
        exited := fun hpc => absurd (h2.symm.trans ((h.exited hpc).2 h1)) (by simp)
        asleep := fun ha => ⟨(h.asleep ha).1, fun _ => Or.inl (Nat.succ_ne_zero _)⟩ }
  | notifyOne | wake => exact { h with asleep := by simp }
  | poll path rest hc =>
    have hhand := h.handed
    rw [hc] at hhand
    exact { h with handed := by rw [hhand]; simp }
  | sleep hpc h1 h2 => exact { h with asleep := fun _ => ⟨hpc, by simp [h1, h2]⟩ }
  | take io d t ts ha hpc ht =>
    have hacc := h.accepted
    have hhand := h.handed
    have hsucc := h.succeeded
    rw [hpc] at hacc hhand hsucc
    rw [ht] at hacc
    exact h.moved ha (by simp [hpc]) rfl rfl (by simpa using hacc) hhand hsucc (by simp)
  | exit io d ha hpc ht hs =>
    have hacc := h.accepted
    have hhand := h.handed
    have hsucc := h.succeeded
    rw [hpc] at hacc hhand hsucc
    exact h.moved ha (by simp [hpc]) rfl rfl hacc hhand hsucc fun _ => ⟨ht, hs⟩
  | work io d t pc ha hpc hpc' hl =>
    have hacc := h.accepted
    have hhand := h.handed
    have hsucc := h.succeeded
    rw [hl] at hhand hsucc
    rw [hpc] at hacc
    refine h.moved ha (ne_exited hpc) rfl rfl (by rw [hpc']; exact hacc) ?_ ?_ fun he =>
      absurd he (ne_exited hpc')
    · rw [List.map_append, hhand]
      simp
    · exact (by simpa using hsucc : s.succeeded.Sublist s.executed).append (List.Sublist.refl _)
  | fail io d t ha hpc hl =>
    have hacc := h.accepted
    have hhand := h.handed
    have hsucc := h.succeeded
    rw [hl] at hhand hsucc
    rw [hpc] at hacc
    refine h.moved ha (ne_exited hpc) rfl rfl (by simpa using hacc) hhand ?_ (by simp)
    simpa using hsucc.trans (List.sublist_append_left _ [t])
  | post io d t ha hpc =>
    have hacc := h.accepted
    have hhand := h.handed
    have hsucc := h.succeeded
    rw [hpc] at hacc hhand hsucc
    exact h.moved ha (by simp [hpc]) rfl rfl (by simpa using hacc) (by simpa using hhand)
      (by simpa using hsucc) (by simp)

/-! ### Runs -/

/-- The books are only added to. -/
lemma Effect.grows {a : WorkerAction} (he : Effect s a s') :
    s.accepted <+: s'.accepted ∧ s.executed <+: s'.executed := by
  cases he with
  | enqueue => exact ⟨List.prefix_append _ _, List.prefix_rfl⟩
  | fail | post => exact ⟨List.prefix_rfl, List.prefix_append _ _⟩
  | again | start | ended | stop | notifyAll | join | clear | refuse | notifyOne | nothing | poll
  | sleep | wake | take | exit | work => exact ⟨List.prefix_rfl, List.prefix_rfl⟩

/-- How many steps of the worker thread are left until `N` tasks are executed, at most. -/
def need (s : WorkerSystem) (N : ℕ) : ℕ := 5 * (N - s.executed.length) - s.worker.pc.place

/-- **A step of the worker thread** brings the execution of the accepted tasks nearer, and no other
step takes it back. -/
lemma Inv.need_effect (h : s.Inv) {a : WorkerAction} (he : Effect s a s') {N : ℕ}
    (hN : N ≤ s.accepted.length) (hlt : s.executed.length < N) :
    s'.need N + (if a.isRun then 1 else 0) ≤ s.need N := by
  have hplace := s.worker.pc.place_le
  cases he with
  | again | ended | stop | notifyAll | join | clear | refuse | enqueue | notifyOne | nothing | poll
  | sleep | wake => exact le_rfl
  | start ho hs => simp [need, WorkerPc.place, WorkerAction.isRun, (h.unstarted hs).1]
  | take io d t ts ha hpc =>
    simp only [need, hpc, WorkerPc.place, WorkerAction.isRun, if_true]
    omega
  | exit io d ha hpc ht =>
    -- the thread does not end before everything is executed
    have hacc := h.accepted
    rw [hpc, ht] at hacc
    simp only [WorkerPc.task?_waiting, Option.toList_none, List.append_nil] at hacc
    rw [hacc] at hN
    omega
  | work io d t pc ha hpc hpc' hl hp =>
    have hle := pc.place_le
    simp only [need, hp, WorkerAction.isRun, if_true]
    omega
  | fail | post =>
    have hwaiting : WorkerPc.waiting.place = 0 := rfl
    simp only [need, hwaiting, WorkerAction.isRun, if_true, List.length_append,
      List.length_singleton]
    omega

/-- The first step of a run and the rest of it. -/
lemma run_cons {a : WorkerAction} {as : List WorkerAction} (h : s.run (a :: as) = some s') :
    ∃ s₁, Effect s a s₁ ∧ s₁.run as = some s' := by
  obtain ⟨s₁, hstep, hrest⟩ := Option.bind_eq_some_iff.mp
    (show (s.act a).bind (fun s₁ => s₁.run as) = some s' from h)
  exact ⟨s₁, act_effect hstep, hrest⟩

/-- **Every run keeps the books.** -/
theorem Inv.run {as : List WorkerAction} (h : s.Inv) (hrun : s.run as = some s') :
    s'.Inv ∧ s.accepted <+: s'.accepted ∧ s.executed <+: s'.executed := by
  induction as generalizing s with
  | nil =>
    obtain rfl := Option.some.inj hrun
    exact ⟨h, List.prefix_rfl, List.prefix_rfl⟩
  | cons a as ih =>
    obtain ⟨s₁, he, hrest⟩ := run_cons hrun
    obtain ⟨h', hacc, hexe⟩ := ih (h.effect he) hrest
    exact ⟨h', he.grows.1.trans hacc, he.grows.2.trans hexe⟩

/-- **A run with enough steps of the worker thread** executes what was accepted before it. -/
theorem Inv.run_executes {as : List WorkerAction} (h : s.Inv) (hrun : s.run as = some s') {N : ℕ}
    (hN : N ≤ s.accepted.length) (hsteps : s.need N ≤ as.countP WorkerAction.isRun) :
    N ≤ s'.executed.length := by
  induction as generalizing s with
  | nil =>
    obtain rfl := Option.some.inj hrun
    have hplace := s.worker.pc.place_le
    simp only [need, List.countP_nil] at hsteps
    omega
  | cons a as ih =>
    obtain ⟨s₁, he, hrest⟩ := run_cons hrun
    have h₁ := h.effect he
    by_cases hdone : N ≤ s.executed.length
    · obtain ⟨-, -, hexe⟩ := h₁.run hrest
      exact hdone.trans (he.grows.2.length_le.trans hexe.length_le)
    · have hneed := h.need_effect he hN (by omega)
      refine ih h₁ hrest (hN.trans he.grows.1.length_le) ?_
      rw [List.countP_cons] at hsteps
      omega

/-- The worker thread can run whatever the files do, or somebody is about to wake it up. -/
def GoesOn (s : WorkerSystem) : Prop :=
  (s.asleep = false ∧ ∀ io, (s.act (.run io)).isSome) ∨
    (s.asleep = true ∧ ((s.act .notifyOne).isSome ∨ (s.act .notifyAll).isSome))

/-- **No wakeup is lost**: while an accepted task is not executed, the worker thread goes on. -/
lemma Inv.goesOn (h : s.Inv) (hleft : s.executed ≠ s.accepted) : s.GoesOn := by
  have hwork : s.worker.pc.task? = none → s.worker.tasks ≠ [] := fun hpc ht => by
    have hacc := h.accepted
    rw [hpc, ht] at hacc
    exact hleft (by simpa using hacc.symm)
  cases ha : s.asleep with
  | true =>
    obtain ⟨hpc, hwake⟩ := h.asleep ha
    refine Or.inr ⟨ha, ?_⟩
    rcases hwake (Or.inl (hwork (by rw [hpc]; rfl))) with hs | ho
    · left
      simp [act, hs]
    · right
      simp [act, ho]
  | false =>
    refine Or.inl ⟨ha, fun io => ?_⟩
    have hpc : s.worker.pc ≠ .exited := fun hpc => hwork (by rw [hpc]; rfl) (h.exited hpc).1
    have hstep := FlushWorker.step_isSome hpc (fun hw => hwork (by rw [hw]; rfl)) s.disk io
    simpa [act, ha] using hstep

/-! ### The end of `stop` -/

/-- The owner is in no call and the worker is not started. -/
def Stopped (s : WorkerSystem) : Prop := s.owner = .idle ∧ s.worker.started = false

lemma StopReturns.stopped {a : WorkerAction} (h : s.act a = some s') (hr : s.StopReturns a) :
    s'.Stopped := by
  have he := act_effect h
  cases he with
  | ended ho hs => exact ⟨ho, hs⟩
  | stop ho hs => exact absurd (hs.symm.trans hr) (by simp)
  | clear => exact ⟨rfl, rfl⟩
  | again | start | notifyAll | join | refuse | enqueue | notifyOne | nothing | poll | sleep | wake
  | take | exit | work | fail | post => exact absurd hr id

/-- Nothing is left to do. -/
lemma Inv.executed_of_stopped (h : s.Inv) (hs : s.Stopped) : s.executed = s.accepted := by
  obtain ⟨hpc, -⟩ := h.unstarted hs.2
  have hacc := h.accepted
  rw [hpc, (h.exited hpc).1] at hacc
  simpa using hacc.symm

/-- A worker that is not started stays so until it is started, and accepts nothing. -/
lemma Stopped.run {as : List WorkerAction} (hs : s.Stopped) (h : s.Inv)
    (hno : WorkerAction.start ∉ as) (hrun : s.run as = some s') :
    s'.Stopped ∧ s'.accepted = s.accepted := by
  induction as generalizing s with
  | nil =>
    obtain rfl := Option.some.inj hrun
    exact ⟨hs, rfl⟩
  | cons a as ih =>
    obtain ⟨s₁, he, hrest⟩ := run_cons hrun
    have hidle : s.owner = .idle := hs.1
    have hpc := (h.unstarted hs.2).1
    have h₁ := h.effect he
    rw [List.mem_cons, not_or] at hno
    have hstep : s₁.Stopped ∧ s₁.accepted = s.accepted := by
      cases he with
      | start => exact absurd rfl hno.1
      | stop ho hstarted => exact absurd (hs.2.symm.trans hstarted) (by simp)
      | notifyAll ho | join ho | clear ho => exact absurd (hidle.symm.trans ho) (by simp)
      | enqueue task h1 => exact absurd (hs.2.symm.trans h1) (by simp)
      | take io d t ts ha hw | exit io d ha hw | post io d t ha hw =>
        exact absurd (hpc.symm.trans hw) (by simp)
      | work io d t pc ha hw | fail io d t ha hw => exact absurd hpc (ne_exited hw)
      | again | ended | refuse | notifyOne | nothing | poll | sleep | wake => exact ⟨hs, rfl⟩
    obtain ⟨hs', hacc⟩ := ih hstep.1 h₁ hno.2 hrest
    exact ⟨hs', hacc.trans hstep.2⟩

/-- **Every accepted task is executed exactly once**, in every run of the system: in the order of
the calls that returned true; while one is left the worker thread goes on, and a run in which it
makes enough steps executes it. The completions that are handed out are those of tasks whose
table and manifest entry were written, in order. When `stop` returns, all accepted tasks are
executed, and none is accepted until the next `start`. -/
theorem exactly_once {d : Disk} {as bs : List WorkerAction} {s s' : WorkerSystem}
    (hrun : (init d).run as = some s) (hrun' : s.run bs = some s') :
    (s.executed <+: s.accepted ∧ s.accepted <+: s'.accepted ∧ s.executed <+: s'.executed) ∧
    (s.executed ≠ s.accepted → s.GoesOn) ∧
    (5 * (s.accepted.length - s.executed.length) ≤ bs.countP WorkerAction.isRun →
      s.accepted <+: s'.executed) ∧
    (s.handed <+: s.succeeded.map FlushTask.sstablePath ∧ s.succeeded.Sublist s.accepted) ∧
    (∀ (s₀ : WorkerSystem) a, s₀.act a = some s → s₀.StopReturns a → s.executed = s.accepted ∧
      (WorkerAction.start ∉ bs → s'.accepted = s.accepted ∧
        ∀ task, (s'.worker.enqueue task).1 = false)) := by
  have h := ((init_inv d).run hrun).1
  obtain ⟨h', hacc, hexe⟩ := h.run hrun'
  refine ⟨⟨h.executed_isPrefix, hacc, hexe⟩, h.goesOn, fun hsteps => ?_, ⟨?_, ?_⟩, fun s₀ a hact hr => ?_⟩
  · have hlen := h.run_executes hrun' le_rfl ((Nat.sub_le _ _).trans hsteps)
    exact List.prefix_of_prefix_length_le hacc h'.executed_isPrefix hlen
  · rw [h.handed, List.append_assoc]
    exact List.prefix_append _ _
  · have hin : (s.executed ++ s.worker.pc.listed?.toList).Sublist s.accepted := by
      rw [h.accepted]
      refine .trans (.append_left ?_ _) (List.sublist_append_left _ _)
      cases s.worker.pc <;> simp [WorkerPc.listed?, WorkerPc.task?]
    exact h.succeeded.trans hin
  · have hs := StopReturns.stopped hact hr
    refine ⟨h.executed_of_stopped hs, fun hno => ?_⟩
    obtain ⟨hs', hsame⟩ := hs.run h hno hrun'
    refine ⟨hsame, fun task => ?_⟩
    rw [FlushWorker.enqueue, hs'.2]
    rfl

/-- A task is accepted, executed and handed out; the owner stops the worker. -/
def oneTask (task : FlushTask) : List WorkerAction :=
  [.start, .sleep, .enqueue task, .notifyOne, .run .ok, .run .ok, .run .ok, .run .ok, .run .ok, .poll,
    .stop, .notifyAll, .run .ok, .join]

theorem exactly_once_one : ∃ s s', (init Disk.empty).run (oneTask ⟨[116], ∅⟩) = some s ∧
    s.run [.clear] = some s' ∧ s.accepted.length = 1 ∧ s'.executed = s'.accepted ∧
    s'.handed = [[116]] ∧ ∀ task, (s'.worker.enqueue task).1 = false := by
  have h : ((init Disk.empty).run (oneTask ⟨[116], ∅⟩)).any (fun s =>
      s.accepted.length = 1 ∧ s.owner = .clearing ∧ s.handed = [[116]]) = true := by
    decide +kernel
  obtain ⟨s, hrun, hs⟩ := (Option.any_eq_true _ _).mp h
  obtain ⟨hlen, ho, hhanded⟩ := of_decide_eq_true hs
  have hclear : s.act .clear =
      some { s with worker := { s.worker with started := false }, owner := .idle } := if_pos ho
  have hlast : s.run [.clear] =
      some { s with worker := { s.worker with started := false }, owner := .idle } := by
    change (s.act .clear).bind (fun s' => some s') = _
    rw [hclear]
    rfl
  have hrun' : (init Disk.empty).run (oneTask ⟨[116], ∅⟩ ++ [.clear]) =
      some { s with worker := { s.worker with started := false }, owner := .idle } := by
    rw [run, List.foldlM_append, show (oneTask ⟨[116], ∅⟩).foldlM act (init Disk.empty) = some s
      from hrun]
    exact hlast
  obtain ⟨-, -, -, -, hstop⟩ := exactly_once hrun' (show run _ [] = some _ from rfl)
  obtain ⟨hall, hlater⟩ := hstop s .clear hclear trivial
  exact ⟨s, _, hrun, hlast, hlen, hall, hhanded, (hlater (by simp)).2⟩

end WorkerSystem

end VeriStore.Store

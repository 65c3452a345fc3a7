import VeriStore.Store.Spec

/-!
Sessions of a store and their log.

A session opens the store on the files it finds and makes client calls. `Session.history` lists
the mutations it made and `Session.durable` counts those that a successful flush covers. A crash
leaves the bytes of the completed flushes and any byte prefix of the batch being written
(`Crash`).

The invariant `Session.LogInv` holds in every session, whatever happens to the memtable: the log
file is the file the session found followed by the records of the durable mutations, and the
buffer holds the records of the others. `Crash.file_cut` says from it what a crash leaves.
-/

namespace VeriStore.Store

open VeriStore.Lib VeriStore.Sstable VeriStore.Log

/-! ### Mutations -/

/-- A mutation: a put, or the delete of a present key. -/
structure Mutation where
  key : Bytes
  value : Option Bytes
  deriving DecidableEq

/-- The record of the mutation with sequence number `seq`. -/
def Mutation.record (m : Mutation) (seq : ℕ) : Record := ⟨seq, m.key, m.value⟩

/-- The records of a history, numbered from the one after `base`. -/
def recordsFrom (base : ℕ) (ms : List Mutation) : List Record :=
  ms.mapIdx fun i m => m.record (base + i + 1)

@[simp] lemma recordsFrom_nil (base : ℕ) : recordsFrom base [] = [] := rfl

@[simp] lemma recordsFrom_length (base : ℕ) (ms : List Mutation) :
    (recordsFrom base ms).length = ms.length := by
  simp [recordsFrom]

lemma recordsFrom_concat (base : ℕ) (ms : List Mutation) (m : Mutation) :
    recordsFrom base (ms ++ [m]) = recordsFrom base ms ++ [m.record (base + ms.length + 1)] := by
  simp [recordsFrom, List.mapIdx_append]

lemma recordsFrom_take (base : ℕ) (ms : List Mutation) (n : ℕ) :
    recordsFrom base (ms.take n) = (recordsFrom base ms).take n := by
  refine List.ext_getElem? fun i => ?_
  simp only [recordsFrom, List.getElem?_mapIdx, List.getElem?_take]
  split <;> rfl

/-! ### Calls -/

/-- A call of a client. -/
inductive Call where
  | put (key value : Bytes)
  | del (key : Bytes)
  | flushWal
  | setGroupCommitEvery (n : ℤ)

/-- The keys and values are shorter than `2 ^ 32` bytes. -/
def Call.Fits : Call → Prop
  | .put k v => k.length < 2 ^ 32 ∧ v.length < 2 ^ 32
  | .del k => k.length < 2 ^ 32
  | _ => True

instance : (c : Call) → Decidable c.Fits
  | .put _ _ => inferInstanceAs (Decidable (_ ∧ _))
  | .del _ => inferInstanceAs (Decidable (_ < _))
  | .flushWal => isTrue trivial
  | .setGroupCommitEvery _ => isTrue trivial

/-- The call that makes a mutation. -/
def Mutation.call (m : Mutation) : Call :=
  match m.value with
  | some v => .put m.key v
  | none => .del m.key

/-! ### Sessions -/

/-- A session: the store and its files, the mutations made so far, and how many of them a flush
that returned true covers. -/
structure Session where
  store : KVStore
  disk : Disk
  history : List Mutation
  durable : ℕ

namespace Session

/-- A fresh process opens the store on the files `d`. -/
def start (d : Disk) : Session where
  store := (KVStore.new.open d .ok).2.1
  disk := (KVStore.new.open d .ok).2.2
  history := []
  durable := 0

/-- The session after an operation that made the mutations `ms`. The buffer is empty exactly when
a flush has returned true since the last record. -/
def after (σ : Session) (ms : List Mutation) (out : KVStore × Disk) : Session where
  store := out.1
  disk := out.2
  history := σ.history ++ ms
  durable := if out.1.wal.buffer = [] then (σ.history ++ ms).length else σ.durable

def call (σ : Session) : Call → Session
  | .put k v => σ.after [⟨k, some v⟩] (σ.store.put σ.disk k v .ok)
  | .del k => σ.after (if (σ.store.get k).isSome then [⟨k, none⟩] else [])
      (σ.store.del σ.disk k .ok).2
  | .flushWal => σ.after [] (σ.store.flushWal σ.disk .ok).2
  | .setGroupCommitEvery n => σ.after [] (σ.store.setGroupCommitEvery n, σ.disk)

def run (d : Disk) (cs : List Call) : Session := cs.foldl call (start d)

/-- The bytes of the log file. -/
def file (σ : Session) : Bytes := σ.disk.wal.getD []

/-- The files after a crash that leaves the log file `f`. -/
def crashed (σ : Session) (f : Bytes) : Disk := { σ.disk with wal := some f }

lemma run_concat (d : Disk) (cs : List Call) (c : Call) : run d (cs ++ [c]) = (run d cs).call c := by
  simp [run]

lemma history_call (σ : Session) (c : Call) : σ.history <+: (σ.call c).history := by
  cases c <;> exact List.prefix_append _ _

/-- The mutations of a session fit the header of a record. -/
lemma history_fits (d : Disk) {cs : List Call} (hcs : ∀ c ∈ cs, c.Fits) :
    ∀ m ∈ (run d cs).history, m.key.length < 2 ^ 32 ∧ (m.value.getD []).length < 2 ^ 32 := by
  induction cs using List.reverseRecOn with
  | nil => simp [run, start]
  | append_singleton cs c ih =>
    rw [run_concat]
    have ih := ih fun c hc => hcs c (by simp [hc])
    have hc : c.Fits := hcs c (by simp)
    intro m hm
    cases c with
    | put k v =>
      rcases List.mem_append.mp hm with hm | hm
      · exact ih m hm
      · simp only [List.mem_singleton] at hm
        subst hm
        exact hc
    | del k =>
      rcases List.mem_append.mp hm with hm | hm
      · exact ih m hm
      · have hm : m = ⟨k, none⟩ := by
          by_cases hk : ((run d cs).store.get k).isSome <;> simp_all
        subst hm
        exact ⟨hc, by simp⟩
    | flushWal => exact ih m (by simpa [call, after] using hm)
    | setGroupCommitEvery n => exact ih m (by simpa [call, after] using hm)

end Session

open Session

/-- **The crashes of a session** on the files `d`: the calls made, the last one perhaps cut short,
the log file that is left and the number of mutations covered by the last flush that returned
true. A call that is cut short has written any part of its batch. -/
inductive Crash (d : Disk) : List Call → Bytes → ℕ → Prop
  | idle (cs : List Call) : Crash d cs (run d cs).file (run d cs).durable
  | during (cs : List Call) (c : Call) (f : Bytes) (h1 : (run d cs).file <+: f)
      (h2 : f <+: (run d (cs ++ [c])).file) : Crash d (cs ++ [c]) f (run d cs).durable

/-! ### The log of a session -/

/-- The log of a session that found the file `f` and numbers its records from `base`. -/
structure Session.LogInv (base : ℕ) (f : Bytes) (σ : Session) : Prop where
  opened : σ.store.opened = true
  durable_le : σ.durable ≤ σ.history.length
  log : KVStore.LogAt σ.store σ.disk
    (f ++ encode ((recordsFrom base σ.history).take σ.durable))
    (((recordsFrom base σ.history).drop σ.durable).map recordBytes)
  seq : σ.store.seq = base + σ.history.length

section Step

variable {base : ℕ} {f : Bytes} {s : KVStore} {d : Disk} {hist : List Mutation} {dur : ℕ}

lemma Session.LogInv.logged (h : Session.LogInv base f ⟨s, d, hist, dur⟩) (m : Mutation) :
    Session.LogInv base f ⟨s.logged (m.record (base + hist.length + 1)), d, hist ++ [m], dur⟩ := by
  have hle : dur ≤ hist.length := h.durable_le
  refine ⟨by simpa using h.opened, by simp; omega, ?_, by simp [Mutation.record]; omega⟩
  simp only [recordsFrom_concat]
  rw [List.take_append_of_le_length (by simpa using hle),
    List.drop_append_of_le_length (by simpa using hle), List.map_append]
  exact h.log.logged (m.record (base + hist.length + 1))

/-- The records of a history, cut at the durable ones. -/
lemma encode_take_drop (rs : List Record) (n : ℕ) :
    encode (rs.take n) ++ ((rs.drop n).map recordBytes).flatten = encode rs := by
  rw [← List.flatMap_def]
  exact (encode_append _ _).symm.trans (by rw [List.take_append_drop])

/-- A store whose log holds all records in the file. -/
lemma Session.LogInv.of_flushed {s' : KVStore} {d' : Disk}
    (h : Session.LogInv base f ⟨s, d, hist, dur⟩) (ho : s'.opened = s.opened) (hq : s'.seq = s.seq)
    (hl : KVStore.LogAt s' d' ((f ++ encode ((recordsFrom base hist).take dur)) ++
      (((recordsFrom base hist).drop dur).map recordBytes).flatten) []) :
    Session.LogInv base f ⟨s', d', hist, hist.length⟩ := by
  refine ⟨ho.trans h.opened, le_rfl, ?_, hq.trans h.seq⟩
  rw [List.append_assoc, encode_take_drop] at hl
  simpa [List.take_of_length_le, List.drop_eq_nil_of_le] using hl

/-- The count of the durable mutations is right: the buffer is empty exactly when all are. -/
lemma Session.LogInv.after {dur' : ℕ} (h : Session.LogInv base f ⟨s, d, hist, dur'⟩)
    (hd : dur' = dur ∨ dur' = hist.length) :
    (if s.wal.buffer = [] then hist.length else dur) = dur' := by
  have hle : dur' ≤ hist.length := h.durable_le
  have hb : s.wal.buffer = ((recordsFrom base hist).drop dur').map recordBytes := h.log.buffer
  rcases hd with rfl | rfl
  · split
    · next hnil =>
      rw [hnil] at hb
      have : (recordsFrom base hist).length ≤ dur' := by simpa using hb.symm
      rw [recordsFrom_length] at this
      omega
    · rfl
  · rw [if_pos]
    rw [hb, List.drop_eq_nil_of_le (by simp)]
    rfl

/-- **The end of a write keeps the log**: nothing or everything is flushed. -/
lemma Session.LogInv.finishWrite (h : Session.LogInv base f ⟨s, d, hist, dur⟩) :
    ∃ dur', Session.LogInv base f ⟨(s.finishWrite d .ok).2.1, (s.finishWrite d .ok).2.2, hist, dur'⟩ ∧
      (dur' = dur ∨ dur' = hist.length) := by
  obtain ⟨m, i, n, w, l, f', hf⟩ := s.finishWrite_frame d .ok
  have ho : (s.finishWrite d .ok).2.1.opened = s.opened := by rw [hf]
  have hq : (s.finishWrite d .ok).2.1.seq = s.seq := by rw [hf]
  rcases h.log.finishWrite with hl | hl
  · exact ⟨dur, ⟨ho.trans h.opened, h.durable_le, hl, hq.trans h.seq⟩, Or.inl rfl⟩
  · exact ⟨_, h.of_flushed ho hq hl, Or.inr rfl⟩

end Step

/-- **One call keeps the log.** -/
theorem Session.LogInv.call {base : ℕ} {f : Bytes} {σ : Session} (h : σ.LogInv base f) (c : Call) :
    (σ.call c).LogInv base f := by
  obtain ⟨s, d, hist, dur⟩ := σ
  have hseq : s.seq + 1 = base + hist.length + 1 := congrArg (· + 1) h.seq
  have hfd : s.wal.fd.isSome := by
    have : s.wal.fd = _ := h.log.fd
    simp [this]
  have hwrite : ∀ m : Mutation, (Session.after ⟨s, d, hist, dur⟩ [m]
      ((s.logged (m.record (base + hist.length + 1))).finishWrite d .ok).2).LogInv base f := by
    intro m
    obtain ⟨dur', hinv, hd⟩ := (h.logged m).finishWrite
    have := hinv.after hd
    unfold Session.after
    rwa [this]
  cases c with
  | put k v =>
    simp only [Session.call, KVStore.put_eq h.opened hfd, hseq]
    exact hwrite ⟨k, some v⟩
  | del k =>
    by_cases hk : (s.get k).isSome
    · simp only [Session.call, KVStore.del_eq h.opened hfd hk, hk, if_true, hseq]
      exact hwrite ⟨k, none⟩
    · have hnone : s.get k = none := by simpa using hk
      simp only [Session.call, KVStore.del_absent hnone, hnone]
      have := h.after (Or.inl rfl)
      simpa [Session.after, this] using h
  | flushWal =>
    have hflush : Session.LogInv base f
        ⟨(s.flushWal d .ok).2.1, (s.flushWal d .ok).2.2, hist, hist.length⟩ := by
      refine h.of_flushed ?_ ?_ h.log.flushed
      · rw [h.log.flushWal]
      · rw [h.log.flushWal]
    have := hflush.after (Or.inr rfl : hist.length = dur ∨ _)
    simpa [Session.call, Session.after, this] using hflush
  | setGroupCommitEvery n =>
    have h' : Session.LogInv base f ⟨s.setGroupCommitEvery n, d, hist, dur⟩ :=
      ⟨h.opened, h.durable_le, ⟨h.log.fd, h.log.disk, h.log.buffer⟩, h.seq⟩
    have := h'.after (Or.inl rfl)
    simpa [Session.call, Session.after, this] using h'

/-- The counter of a freshly opened store is the largest sequence number of its log. -/
lemma Session.start_logInv (d : Disk) :
    (start d).LogInv (KVStore.maxSeq (records (d.wal.getD []))) (d.wal.getD []) := by
  obtain ⟨good, ho⟩ := KVStore.open_new d .ok rfl rfl
  obtain ⟨b, paths, n, w, m, t, hf⟩ := (KVStore.recovered d good).openTables_frame
    { d with wal := some (d.wal.getD []) } .ok
  unfold Session.start
  rw [ho, hf]
  exact ⟨rfl, le_rfl, ⟨by simp [KVStore.recovered], by simp, by simp [KVStore.recovered]⟩,
    by simp [KVStore.recovered]⟩

/-- **The log of every session.** -/
theorem Session.run_logInv (d : Disk) (cs : List Call) :
    (run d cs).LogInv (KVStore.maxSeq (records (d.wal.getD []))) (d.wal.getD []) := by
  induction cs using List.reverseRecOn with
  | nil => exact Session.start_logInv d
  | append_singleton cs c ih =>
    rw [run_concat]
    exact ih.call c

/-- **What a crash leaves**: the file the session found, followed by a byte prefix of the encoded
history that holds the durable part of it whole. -/
theorem Crash.file_cut {d : Disk} {cs : List Call} {f : Bytes} {n : ℕ} (hc : Crash d cs f n)
    {base : ℕ} (hbase : base = KVStore.maxSeq (records (d.wal.getD []))) :
    ∃ g, f = d.wal.getD [] ++ g ∧ g <+: encode (recordsFrom base (run d cs).history) ∧
      n ≤ (run d cs).history.length ∧
      encode ((recordsFrom base (run d cs).history).take n) <+: g := by
  subst hbase
  have hfile : ∀ cs, (run d cs).file = d.wal.getD [] ++
      encode ((recordsFrom (KVStore.maxSeq (records (d.wal.getD []))) (run d cs).history).take
        (run d cs).durable) := fun cs => by
    rw [Session.file, (Session.run_logInv d cs).log.disk, Option.getD_some]
  have hpre : ∀ (rs : List Record) k, encode (rs.take k) <+: encode rs := by
    intro rs k
    conv_rhs => rw [← List.take_append_drop k rs, encode_append]
    exact List.prefix_append _ _
  cases hc with
  | idle =>
    exact ⟨_, hfile cs, hpre _ _, (Session.run_logInv d cs).durable_le, List.prefix_rfl⟩
  | during cs c f h1 h2 =>
    have hle := (Session.run_logInv d cs).durable_le
    obtain ⟨t, ht⟩ : (run d cs).history <+: (run d (cs ++ [c])).history := by
      rw [run_concat]; exact Session.history_call _ c
    have htake : (recordsFrom (KVStore.maxSeq (records (d.wal.getD [])))
        (run d (cs ++ [c])).history).take (run d cs).durable = (recordsFrom
        (KVStore.maxSeq (records (d.wal.getD []))) (run d cs).history).take (run d cs).durable := by
      rw [← recordsFrom_take, ← recordsFrom_take, ← ht, List.take_append_of_le_length hle]
    rw [hfile] at h1 h2
    obtain ⟨g, rfl⟩ : d.wal.getD [] <+: f := (List.prefix_append _ _).trans h1
    refine ⟨g, rfl, ((List.prefix_append_right_inj _).mp h2).trans (hpre _ _), ?_, ?_⟩
    · rw [← ht, List.length_append]
      omega
    · rw [htake]
      exact (List.prefix_append_right_inj _).mp h1

end VeriStore.Store

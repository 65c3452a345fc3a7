import VeriStore.Store.Session

/-!
Recovery from the write-ahead log after a crash.

A session starts on a machine without files and stays below the flush threshold. Its content
invariant (`Session.Content`) says that the map and the memtable are what the mutations of the
session make of an empty store; `open_after_crash` follows from it, from the log of the session
and from the replay of a torn file.
-/

namespace VeriStore.Store

open VeriStore.Lib VeriStore.Sstable VeriStore.Log Session

/-! ### The size of a history -/

/-- What a mutation adds to the size of the memtable. -/
def Mutation.bytes (m : Mutation) : ℕ :=
  m.key.length + (m.value.getD []).length + sizeofTimestamp + sizeofVersion

/-- The size of the memtable after a history without a rotation. -/
def historyBytes (ms : List Mutation) : ℕ := (ms.map Mutation.bytes).sum

lemma historyBytes_concat (ms : List Mutation) (m : Mutation) :
    historyBytes (ms ++ [m]) = historyBytes ms + m.bytes := by
  simp [historyBytes]

lemma historyBytes_mono {ms ms' : List Mutation} (h : ms <+: ms') :
    historyBytes ms ≤ historyBytes ms' := by
  obtain ⟨t, rfl⟩ := h
  simp [historyBytes]

/-- Every mutation takes memtable bytes, so that a history below the threshold is short. -/
lemma length_le_historyBytes (ms : List Mutation) : ms.length ≤ historyBytes ms := by
  induction ms with
  | nil => simp
  | cons m ms ih =>
    have : 1 ≤ m.bytes := by unfold Mutation.bytes sizeofTimestamp; omega
    simp only [historyBytes, List.map_cons, List.sum_cons, List.length_cons] at *
    omega

/-! ### The content of a session -/

/-- The store after the mutations of a history, and nothing else, in a session of its own. -/
def storeAfter (ms : List Mutation) : KVStore := (run Disk.empty (ms.map Mutation.call)).store

/-- The map and the memtable of a session without a rotation. -/
structure Session.Content (σ : Session) : Prop where
  snapshot : σ.disk.snapshot = none
  map : σ.store.map = (KVStore.new.applyRecords (recordsFrom 0 σ.history)).map
  memtable : σ.store.memtable = (KVStore.new.applyRecords (recordsFrom 0 σ.history)).memtable
  size : σ.store.memtable.approximateSizeBytes = historyBytes σ.history

section Step

variable {s : KVStore} {d : Disk} {hist : List Mutation} {dur : ℕ}

lemma Session.Content.logged (h : Session.Content ⟨s, d, hist, dur⟩) (m : Mutation) (n : ℕ) :
    Session.Content ⟨s.logged (m.record (0 + hist.length + 1)), d, hist ++ [m], n⟩ := by
  have happly : KVStore.new.applyRecords (recordsFrom 0 (hist ++ [m])) =
      (KVStore.new.applyRecords (recordsFrom 0 hist)).applyRecord (m.record (0 + hist.length + 1)) := by
    rw [recordsFrom_concat]
    simp [KVStore.applyRecords]
  refine ⟨h.snapshot, ?_, ?_, ?_⟩
  · have hm : s.map = _ := h.map
    rw [happly]
    simp only [KVStore.logged_map, KVStore.applyRecord, Mutation.record]
    cases m.value <;> simp [hm]
  · have hm : s.memtable = _ := h.memtable
    rw [happly]
    simp only [KVStore.logged_memtable, KVStore.applyRecord, Mutation.record]
    cases m.value <;> simp [hm]
  · have hs : s.memtable.approximateSizeBytes = _ := h.size
    rw [historyBytes_concat, ← hs]
    simp only [KVStore.logged_memtable, KVStore.applyRecord, Mutation.record, Mutation.bytes]
    cases m.value <;> simp [MemTable.put, MemTable.del]

/-- **The end of a write keeps the content**, as long as the memtable is below the threshold. -/
lemma Session.Content.finishWrite (h : Session.Content ⟨s, d, hist, dur⟩)
    (hb : historyBytes hist < kMemTableFlushThresholdBytes) (n : ℕ) :
    Session.Content ⟨(s.finishWrite d .ok).2.1, (s.finishWrite d .ok).2.2, hist, n⟩ := by
  have hs : s.memtable.approximateSizeBytes = _ := h.size
  unfold KVStore.finishWrite
  rw [KVStore.maybeFlushMemtable_below (by rw [hs]; exact hb)]
  simp only
  split
  · exact ⟨h.snapshot, h.map, h.memtable, h.size⟩
  · exact ⟨h.snapshot, h.map, h.memtable, h.size⟩

end Step

/-- A call that makes no mutation and touches the log alone keeps the content. -/
lemma Session.Content.quiet {σ : Session} (h : σ.Content) {out : KVStore × Disk}
    (h1 : out.2.snapshot = σ.disk.snapshot) (h2 : out.1.map = σ.store.map)
    (h3 : out.1.memtable = σ.store.memtable) : (σ.after [] out).Content := by
  refine ⟨h1.trans h.snapshot, ?_, ?_, ?_⟩ <;> simp only [Session.after, List.append_nil]
  · exact h2.trans h.map
  · exact h3.trans h.memtable
  · rw [h3]
    exact h.size

/-- **One call keeps the content** while the memtable stays below the threshold. -/
theorem Session.Content.call {σ : Session} (h : σ.Content) (hl : σ.LogInv 0 []) (c : Call)
    (hb : historyBytes (σ.call c).history < kMemTableFlushThresholdBytes) : (σ.call c).Content := by
  obtain ⟨s, d, hist, dur⟩ := σ
  have hseq : s.seq + 1 = 0 + hist.length + 1 := congrArg (· + 1) hl.seq
  have hfd : s.wal.fd.isSome := by
    have : s.wal.fd = _ := hl.log.fd
    simp [this]
  cases c with
  | put k v =>
    simp only [Session.call, KVStore.put_eq hl.opened hfd, hseq]
    exact (h.logged ⟨k, some v⟩ dur).finishWrite hb _
  | del k =>
    by_cases hk : (s.get k).isSome
    · simp only [Session.call, KVStore.del_eq hl.opened hfd hk, hk, if_true, hseq]
      simp only [Session.call, hk, if_true] at hb
      exact (h.logged ⟨k, none⟩ dur).finishWrite hb _
    · have hnone : s.get k = none := by simpa using hk
      simp only [Session.call, KVStore.del_absent hnone, hnone]
      exact h.quiet rfl rfl rfl
  | flushWal => exact h.quiet rfl rfl rfl
  | setGroupCommitEvery n => exact h.quiet rfl rfl rfl

/-- **Every session below the threshold has the content of its history.** -/
theorem Session.run_content (cs : List Call)
    (hb : historyBytes (run Disk.empty cs).history < kMemTableFlushThresholdBytes) :
    (run Disk.empty cs).Content := by
  induction cs using List.reverseRecOn with
  | nil => exact ⟨rfl, rfl, rfl, rfl⟩
  | append_singleton cs c ih =>
    rw [run_concat] at hb ⊢
    have hb' := lt_of_le_of_lt (historyBytes_mono (Session.history_call _ c)) hb
    exact (ih hb').call (Session.run_logInv Disk.empty cs) c hb

/-! ### The mutations of a session -/

lemma recordsFrom_fits {base : ℕ} {ms : List Mutation} (h1 : ∀ m ∈ ms, m.key.length < 2 ^ 32 ∧
    (m.value.getD []).length < 2 ^ 32) (h2 : base + ms.length < 2 ^ 64) :
    ∀ r ∈ recordsFrom base ms, r.Fits := by
  intro r hr
  obtain ⟨i, hi, rfl⟩ := List.mem_mapIdx.mp hr
  obtain ⟨hk, hv⟩ := h1 ms[i] (List.getElem_mem hi)
  exact ⟨hk, hv, by simp only [Mutation.record]; omega⟩

/-- The deletes of a history are of keys that are present. -/
def Effective (ms : List Mutation) : Prop :=
  ∀ a k b, ms = a ++ ⟨k, none⟩ :: b →
    ((KVStore.new.applyRecords (recordsFrom 0 a)).map[k]?).isSome = true

lemma Effective.cut {ms ms' : List Mutation} (h : Effective ms') (hp : ms <+: ms') :
    Effective ms := by
  obtain ⟨t, rfl⟩ := hp
  intro a k b he
  exact h a k (b ++ t) (by simp [he])

lemma Effective.concat {ms : List Mutation} (h : Effective ms) {m : Mutation}
    (hm : m.value = none → ((KVStore.new.applyRecords (recordsFrom 0 ms)).map[m.key]?).isSome = true) :
    Effective (ms ++ [m]) := by
  intro a k b he
  rcases List.eq_nil_or_concat b with rfl | ⟨b', x, rfl⟩
  · obtain ⟨rfl, hx⟩ := List.append_inj' (show ms ++ [m] = a ++ [⟨k, none⟩] from he) rfl
    have hmk : m = ⟨k, none⟩ := by simpa using hx
    subst hmk
    exact hm rfl
  · have he' : ms ++ [m] = (a ++ ⟨k, none⟩ :: b') ++ [x] := by simpa using he
    exact h a k b' (List.append_inj' he' rfl).1

/-- The mutations of a session are effective. -/
lemma Session.history_effective (cs : List Call)
    (hb : historyBytes (run Disk.empty cs).history < kMemTableFlushThresholdBytes) :
    Effective (run Disk.empty cs).history := by
  induction cs using List.reverseRecOn with
  | nil => intro a k b he; simp [run, Session.start] at he
  | append_singleton cs c ih =>
    rw [run_concat] at hb ⊢
    have hb' := lt_of_le_of_lt (historyBytes_mono (Session.history_call _ c)) hb
    have hinv := Session.run_content cs hb'
    cases c with
    | put k v => exact (ih hb').concat (by simp)
    | del k =>
      by_cases hk : ((run Disk.empty cs).store.get k).isSome
      · simp only [Session.call, Session.after, hk, if_true]
        refine (ih hb').concat fun _ => ?_
        rw [← hinv.map]
        exact hk
      · simpa [Session.call, Session.after, hk] using ih hb'
    | flushWal => simpa [Session.call, Session.after] using ih hb'
    | setGroupCommitEvery n => simpa [Session.call, Session.after] using ih hb'

/-- Making the mutations of an effective history makes exactly these mutations. -/
lemma Session.history_mutations {ms : List Mutation} (he : Effective ms)
    (hb : historyBytes ms < kMemTableFlushThresholdBytes) :
    (run Disk.empty (ms.map Mutation.call)).history = ms := by
  induction ms using List.reverseRecOn with
  | nil => rfl
  | append_singleton ms m ih =>
    have hp : ms <+: ms ++ [m] := List.prefix_append _ _
    have hb' := lt_of_le_of_lt (historyBytes_mono hp) hb
    have ih := ih (he.cut hp) hb'
    have hinv := Session.run_content (ms.map Mutation.call) (by rw [ih]; exact hb')
    rw [List.map_append, List.map_singleton, run_concat]
    obtain ⟨k, _ | v⟩ := m
    · have hk : ((run Disk.empty (ms.map Mutation.call)).store.get k).isSome = true := by
        unfold KVStore.get
        rw [hinv.map, ih]
        exact he ms k [] rfl
      simp [Mutation.call, Session.call, Session.after, hk, ih]
    · simp [Mutation.call, Session.call, Session.after, ih]

/-- **The store after a history**: the records of the history applied to an empty store. -/
lemma storeAfter_eq {ms : List Mutation} (he : Effective ms)
    (hb : historyBytes ms < kMemTableFlushThresholdBytes) :
    (storeAfter ms).map = (KVStore.new.applyRecords (recordsFrom 0 ms)).map ∧
      (storeAfter ms).memtable = (KVStore.new.applyRecords (recordsFrom 0 ms)).memtable ∧
      (storeAfter ms).seq = ms.length := by
  have hh := Session.history_mutations he hb
  have hinv := Session.run_content (ms.map Mutation.call) (by rw [hh]; exact hb)
  refine ⟨?_, ?_, ?_⟩
  · rw [storeAfter, hinv.map, hh]
  · rw [storeAfter, hinv.memtable, hh]
  · rw [storeAfter, (Session.run_logInv Disk.empty _).seq, hh]
    exact Nat.zero_add _

lemma maxSeq_recordsFrom (ms : List Mutation) : KVStore.maxSeq (recordsFrom 0 ms) = ms.length := by
  induction ms using List.reverseRecOn with
  | nil => rfl
  | append_singleton ms m ih =>
    rw [recordsFrom_concat, KVStore.maxSeq_concat, ih]
    simp [Mutation.record]

/-! ### Recovery -/

/-- A log file that replays the records of an effective history restores the store after it. -/
lemma open_restores {ms : List Mutation} (he : Effective ms)
    (hb : historyBytes ms < kMemTableFlushThresholdBytes) {d : Disk} (hs : d.snapshot = none)
    (hr : records (d.wal.getD []) = recordsFrom 0 ms) :
    (KVStore.new.open d .ok).1 = true ∧
      (KVStore.new.open d .ok).2.1.map = (storeAfter ms).map ∧
      (KVStore.new.open d .ok).2.1.memtable = (storeAfter ms).memtable ∧
      (KVStore.new.open d .ok).2.1.seq = (storeAfter ms).seq := by
  obtain ⟨good, ho⟩ := KVStore.open_new d .ok rfl rfl
  obtain ⟨e1, e2, e3⟩ := storeAfter_eq he hb
  obtain ⟨b, paths, n, w, m, t, hf⟩ := (KVStore.recovered d good).openTables_frame
    { d with wal := some (d.wal.getD []) } .ok
  rw [ho, e1, e2, e3]
  refine ⟨KVStore.openTables_fst _ _ rfl, ?_⟩
  rw [hf]
  simp only [KVStore.recovered, hs, hr]
  exact ⟨rfl, rfl, maxSeq_recordsFrom ms⟩

/-- **Recovery to a prefix of the history.** After a crash at any moment of a session below the
flush threshold, `open` restores the map, the memtable and the counter after the first `m`
mutations, and `m` covers every mutation of the last flush that returned true. -/
theorem open_after_crash {cs : List Call} {f : Bytes} {n : ℕ} (hcs : ∀ c ∈ cs, c.Fits)
    (hb : historyBytes (run Disk.empty cs).history < kMemTableFlushThresholdBytes)
    (hc : Crash Disk.empty cs f n) :
    ∃ m, n ≤ m ∧ m ≤ (run Disk.empty cs).history.length ∧
      (KVStore.new.open ((run Disk.empty cs).crashed f) .ok).1 = true ∧
      (KVStore.new.open ((run Disk.empty cs).crashed f) .ok).2.1.map =
        (storeAfter ((run Disk.empty cs).history.take m)).map ∧
      (KVStore.new.open ((run Disk.empty cs).crashed f) .ok).2.1.memtable =
        (storeAfter ((run Disk.empty cs).history.take m)).memtable ∧
      (KVStore.new.open ((run Disk.empty cs).crashed f) .ok).2.1.seq =
        (storeAfter ((run Disk.empty cs).history.take m)).seq := by
  have hinv := Session.run_content cs hb
  have hlen : 0 + (run Disk.empty cs).history.length < 2 ^ 64 := by
    have := length_le_historyBytes (run Disk.empty cs).history
    unfold kMemTableFlushThresholdBytes at hb
    omega
  obtain ⟨g, rfl, hf, hn, hfn⟩ := hc.file_cut rfl
  obtain ⟨m, hm, hrec, hk⟩ := records_cut
    (recordsFrom_fits (Session.history_fits _ hcs) hlen) hf
  rw [recordsFrom_length] at hm hk
  have hp : (run Disk.empty cs).history.take m <+: (run Disk.empty cs).history :=
    List.take_prefix _ _
  refine ⟨m, hk n hn hfn, hm, open_restores ((Session.history_effective cs hb).cut hp)
    (lt_of_le_of_lt (historyBytes_mono hp) hb) hinv.snapshot ?_⟩
  rw [recordsFrom_take, ← hrec]
  rfl

/-- Two puts, each followed by a flush; the second flush is cut inside its record. -/
def tornCalls : List Call :=
  [.put (text "a") (text "1"), .flushWal, .put (text "b") (text "2")]

/-- The whole first record and eleven bytes of the second. -/
def tornFile : Bytes := (run Disk.empty (tornCalls ++ [.flushWal])).file.take 40

theorem open_after_crash_torn_record : ∃ m, 1 ≤ m ∧ m ≤ 2 ∧
    (KVStore.new.open ((run Disk.empty (tornCalls ++ [.flushWal])).crashed tornFile) .ok).2.1.map =
      (storeAfter ((run Disk.empty (tornCalls ++ [.flushWal])).history.take m)).map := by
  have hc : Crash Disk.empty (tornCalls ++ [.flushWal]) tornFile 1 :=
    Crash.during tornCalls .flushWal tornFile (by decide +kernel) (List.take_prefix _ _)
  have hlen : (run Disk.empty (tornCalls ++ [.flushWal])).history.length = 2 := by decide +kernel
  obtain ⟨m, h1, h2, -, h3, -⟩ := open_after_crash (by decide +kernel) (by decide +kernel) hc
  exact ⟨m, h1, h2.trans_eq hlen, h3⟩

end VeriStore.Store

import VeriStore.Store.Snapshot

/-!
Flushes of the log that are tried again.

A flush that fails keeps its whole batch in the buffer, and the next one writes the batch again
behind what the first one has written. Records that are in the file twice do no harm: a search from
the end does not see them. Part of a record does, since the replay stops there.

* `flush_retry` — a flush that returns true makes all records durable, when every failed flush has
  left whole records;
* `retry_behind_torn` — a batch that is written behind part of a record is lost.
-/

namespace VeriStore.Store

open VeriStore.Lib VeriStore.Sstable VeriStore.Log

/-! ### Calls of the log -/

inductive LogCall where
  | appendPut (seq : ℕ) (key value : Bytes)
  | appendDel (seq : ℕ) (key : Bytes)
  | flush (io : FlushOutcome)

/-- The record a call appends. -/
def LogCall.record : LogCall → Option Record
  | .appendPut seq key value => some ⟨seq, key, some value⟩
  | .appendDel seq key => some ⟨seq, key, none⟩
  | .flush _ => none

/-- The log with its file, the records appended so far, and whether the last call was a flush that
returned true. -/
structure LogRun where
  wal : Wal
  file : Bytes
  appended : List Record
  flushed : Bool

namespace LogRun

/-- A log opened on a new file. -/
def start : LogRun where
  wal := (Wal.closed.open none true).2.1
  file := []
  appended := []
  flushed := false

def append (s : LogRun) (r : Record) : Bool × Wal → LogRun
  | (true, wal) => { s with wal := wal, appended := s.appended ++ [r], flushed := false }
  | (false, wal) => { s with wal := wal, flushed := false }

def call (s : LogRun) : LogCall → LogRun
  | .appendPut seq key value => s.append ⟨seq, key, some value⟩ (s.wal.appendPut seq key value)
  | .appendDel seq key => s.append ⟨seq, key, none⟩ (s.wal.appendDel seq key)
  | .flush io =>
    match s.wal.flush s.file io with
    | (ok, wal, file) => { s with wal := wal, file := file, flushed := ok }

def run (s : LogRun) (cs : List LogCall) : LogRun := cs.foldl call s

/-- The store that a replay of the file makes. -/
def replayed (s : LogRun) : KVStore :=
  let wal := (Wal.closed.open (some s.file) true).2.1
  (wal.replayInto s.file KVStore.applyRecord KVStore.new true).2.2.store

/-- **All records are recovered**: the replay gives the map and the visible versions that the
records give when each of them is applied once. -/
def Recovers (s : LogRun) : Prop :=
  s.replayed.map = (KVStore.new.applyRecords s.appended).map ∧
    ∀ key t, s.replayed.memtable.getAt key t =
      (KVStore.new.applyRecords s.appended).memtable.getAt key t

/-! ### The condition -/

/-- **A failed flush leaves whole records** of its batch. -/
def Whole (s : LogRun) : LogCall → Prop
  | .flush (.writeFails n) => ∃ k ≤ s.wal.buffer.length,
      s.wal.buffer.flatten.take n = (s.wal.buffer.take k).flatten
  | _ => True

instance (s : LogRun) : (c : LogCall) → Decidable (s.Whole c)
  | .flush (.writeFails _) => inferInstanceAs (Decidable (∃ k ≤ s.wal.buffer.length, _))
  | .flush .ok | .flush .syncFails | .appendPut _ _ _ | .appendDel _ _ => isTrue trivial

/-- All calls of a run meet the condition. -/
def AllWhole : LogRun → List LogCall → Prop
  | _, [] => True
  | s, c :: cs => s.Whole c ∧ AllWhole (s.call c) cs

instance : (s : LogRun) → (cs : List LogCall) → Decidable (AllWhole s cs)
  | _, [] => isTrue trivial
  | s, c :: cs =>
    have : Decidable (AllWhole (s.call c) cs) := instDecidableAllWhole (s.call c) cs
    inferInstanceAs (Decidable (s.Whole c ∧ AllWhole (s.call c) cs))

end LogRun

/-! ### What a search finds -/

/-- A search for the last version of a key, among the versions of records. -/
lemma find?_versionsIn (rs : List Record) (key : Bytes) (p : Version → Bool) :
    (versionsIn (rs.map recordRow) key).reverse.find? p =
      (rs.reverse.find? fun r => r.key = key && p (recordRow r).2).map fun r => (recordRow r).2 := by
  induction rs using List.reverseRecOn with
  | nil => rfl
  | append_singleton rs r ih =>
    rw [List.map_append, List.map_singleton, versionsIn_concat, List.reverse_concat,
      List.find?_cons]
    by_cases hk : r.key = key
    · simp only [recordRow, hk, if_true, List.reverse_concat, List.find?_cons, decide_true,
        Bool.true_and]
      split
      · rfl
      · exact ih
    · simpa [recordRow, hk] using ih

/-- **Records that searches cannot tell apart** make the same map and the same visible versions. -/
lemma applyRecords_of_sameLast {rs rs' : List Record} (h : SameLast rs rs') :
    (KVStore.new.applyRecords rs).map = (KVStore.new.applyRecords rs').map ∧
      ∀ key t, (KVStore.new.applyRecords rs).memtable.getAt key t =
        (KVStore.new.applyRecords rs').memtable.getAt key t := by
  have hc := fun rs => Contents.applyRecords (s := KVStore.new) Contents.nil rs
  have hfind : ∀ key p, (versionsIn (rs.map recordRow) key).reverse.find? p =
      (versionsIn (rs'.map recordRow) key).reverse.find? p := fun key p => by
    rw [find?_versionsIn, find?_versionsIn, h]
  simp only [List.nil_append] at hc
  constructor
  · refine Std.ExtTreeMap.ext_getElem? fun key => ?_
    have hlast : ∀ l : List Version, l.getLast? = l.reverse.find? fun _ => true := fun l => by
      rw [List.getLast?_eq_head?_reverse]
      cases l.reverse <;> rfl
    rw [(hc rs).map, (hc rs').map, hlast, hlast, hfind]
  · intro key t
    have hv : ∀ rs, versionsOf (KVStore.new.applyRecords rs).memtable.entries key =
        versionsIn (rs.map recordRow) key := fun rs => (hc rs).versionsOf_eq key
    simp only [MemTable.getAt, lookupEntries_eq, hv, hfind]

/-! ### The invariant -/

/-- **The file holds records, and with those in the buffer they are as good as the ones that were
appended.** -/
structure LogRun.Keeps (s : LogRun) (rs pending : List Record) : Prop where
  fd : s.wal.fd = some s.file.length
  buffer : s.wal.buffer = pending.map recordBytes
  file : s.file = encode rs
  fits : ∀ r ∈ rs ++ pending, r.Fits
  same : SameLast (rs ++ pending) s.appended

section Keeps

variable {s : LogRun} {rs pending : List Record}

lemma LogRun.Keeps.append (h : s.Keeps rs pending) {r : Record} (hr : r.Fits) :
    (s.append r (s.wal.writeRecord r)).Keeps rs (pending ++ [r]) := by
  have hfd : s.wal.fd.isNone = false := by simp [h.fd]
  simp only [Wal.writeRecord, hfd, Bool.false_eq_true, if_false]
  refine ⟨h.fd, by simp [LogRun.append, h.buffer], h.file, ?_, ?_⟩
  · intro x hx
    rcases List.mem_append.mp hx with hx | hx
    · exact h.fits x (List.mem_append_left _ hx)
    · rcases List.mem_append.mp hx with hx | hx
      · exact h.fits x (List.mem_append_right _ hx)
      · exact List.mem_singleton.mp hx ▸ hr
  · rw [← List.append_assoc]
    exact h.same.append [r]

/-- Some of the records of the buffer were written, and the buffer was kept. -/
lemma LogRun.Keeps.again (h : s.Keeps rs pending) {k : ℕ} {s' : LogRun}
    (hfd : s'.wal.fd = some s'.file.length) (hb : s'.wal.buffer = s.wal.buffer)
    (hf : s'.file = s.file ++ (s.wal.buffer.take k).flatten) (ha : s'.appended = s.appended) :
    s'.Keeps (rs ++ pending.take k) pending := by
  have hsub : ∀ x ∈ pending.take k, x ∈ pending := fun x hx => List.mem_of_mem_take hx
  refine ⟨hfd, hb.trans h.buffer, ?_, ?_, ?_⟩
  · rw [hf, h.file, h.buffer, encode_append, ← List.map_take, encode, encode, List.flatMap_def,
      List.flatMap_def]
  · intro x hx
    rcases List.mem_append.mp hx with hx | hx
    · rcases List.mem_append.mp hx with hx | hx
      · exact h.fits x (List.mem_append_left _ hx)
      · exact h.fits x (List.mem_append_right _ (hsub x hx))
    · exact h.fits x (List.mem_append_right _ hx)
  · rw [ha]
    exact (sameLast_repeat hsub).trans h.same

/-- **Every call keeps it**, and a flush that returns true leaves nothing in the buffer. -/
lemma LogRun.Keeps.call (h : s.Keeps rs pending) {c : LogCall} (hc : ∀ r ∈ c.record, r.Fits)
    (hw : s.Whole c) : ∃ rs' pending', (s.call c).Keeps rs' pending' ∧
      ((s.call c).flushed = true → pending' = []) := by
  have hfd : s.wal.fd.isNone = false := by simp [h.fd]
  have hopen : ∀ r, (s.append r (s.wal.writeRecord r)).flushed = false := by
    intro r
    simp [Wal.writeRecord, hfd, LogRun.append]
  -- a flush that writes some of the records and fails
  have hfail : ∀ k (s' : LogRun), s'.wal.fd = some s'.file.length → s'.wal.buffer = s.wal.buffer →
      s'.file = s.file ++ (s.wal.buffer.take k).flatten → s'.appended = s.appended →
      s'.flushed = false → ∃ rs' pending', s'.Keeps rs' pending' ∧
        (s'.flushed = true → pending' = []) := by
    intro k s' h1 h2 h3 h4 h5
    exact ⟨_, _, h.again h1 h2 h3 h4, by simp [h5]⟩
  cases c with
  | appendPut seq key value =>
    have hflushed := hopen ⟨seq, key, some value⟩
    exact ⟨_, _, h.append (hc _ rfl), fun ht => absurd (hflushed.symm.trans ht) (by decide)⟩
  | appendDel seq key =>
    have hflushed := hopen ⟨seq, key, none⟩
    exact ⟨_, _, h.append (hc _ rfl), fun ht => absurd (hflushed.symm.trans ht) (by decide)⟩
  | flush io =>
    by_cases hb : s.wal.buffer = []
    · have hnil : pending = [] := by simpa [hb] using h.buffer.symm
      have hsame : s.call (.flush io) = { s with flushed := true } := by
        simp [LogRun.call, Wal.flush, h.fd, hb]
      exact ⟨rs, pending, by rw [hsame]; exact ⟨h.fd, h.buffer, h.file, h.fits, h.same⟩, fun _ => hnil⟩
    · cases io with
      | ok =>
        have hflush : s.call (.flush .ok) = { s with
            wal := { s.wal with fd := some (s.file ++ s.wal.buffer.flatten).length, buffer := [] }
            file := s.file ++ s.wal.buffer.flatten
            flushed := true } := by
          simp only [LogRun.call, Wal.flush_ok h.fd]
        rw [hflush]
        refine ⟨rs ++ pending, [], ⟨rfl, rfl, ?_, by simpa using h.fits, by simpa using h.same⟩,
          fun _ => rfl⟩
        rw [h.file, h.buffer, encode_append, encode, encode, List.flatMap_def, List.flatMap_def]
      | writeFails n =>
        obtain ⟨k, -, hk⟩ := hw
        have hflush : s.call (.flush (.writeFails n)) = { s with
            wal := { s.wal with fd := some (s.file.length + (s.wal.buffer.flatten.take n).length) }
            file := s.file ++ s.wal.buffer.flatten.take n
            flushed := false } := by
          simp only [LogRun.call, Wal.flush, h.fd, hb, if_false, writeAt_end]
        rw [hflush]
        exact hfail k _ (by simp) rfl (by rw [hk]) rfl rfl
      | syncFails =>
        have hflush : s.call (.flush .syncFails) = { s with
            wal := { s.wal with fd := some (s.file.length + s.wal.buffer.flatten.length) }
            file := s.file ++ s.wal.buffer.flatten
            flushed := false } := by
          simp only [LogRun.call, Wal.flush, h.fd, hb, if_false, writeAt_end]
        rw [hflush]
        exact hfail s.wal.buffer.length _ (by simp) rfl (by rw [List.take_length]) rfl rfl

end Keeps

lemma LogRun.start_keeps : LogRun.start.Keeps [] [] where
  fd := rfl
  buffer := rfl
  file := rfl
  fits := by simp
  same := .refl []

/-- **Every run.** -/
lemma LogRun.run_keeps {cs : List LogCall} {s : LogRun} {rs pending : List Record}
    (h : s.Keeps rs pending) (hl : s.flushed = true → pending = [])
    (hcs : ∀ c ∈ cs, ∀ r ∈ c.record, r.Fits) (hw : s.AllWhole cs) :
    ∃ rs' pending', (s.run cs).Keeps rs' pending' ∧ ((s.run cs).flushed = true → pending' = []) := by
  induction cs generalizing s rs pending with
  | nil => exact ⟨rs, pending, h, hl⟩
  | cons c cs ih =>
    obtain ⟨rs', pending', h', hl'⟩ := h.call (hcs c (by simp)) hw.1
    exact ih h' hl' (fun x hx => hcs x (by simp [hx])) hw.2

/-- The store after the replay of a log that has just been opened. -/
def KVStore.replayedOn (s : KVStore) (file : Bytes) : KVStore :=
  let wal := (Wal.closed.open (some file) true).2.1
  (wal.replayInto file applyRecord s true).2.2.store

lemma KVStore.replayedOn_eq (s : KVStore) (file : Bytes) :
    s.replayedOn file = s.applyRecords (records file) := by
  simp only [replayedOn, Wal.open, if_true, Wal.replayInto, Option.isNone_some, Bool.not_true,
    Bool.or_self, Bool.false_eq_true, if_false]
  exact (replayLoop_eq applyRecord file.length file ⟨s, 0, 0⟩).1

lemma LogRun.replayed_eq (s : LogRun) :
    s.replayed = KVStore.new.applyRecords (records s.file) :=
  KVStore.new.replayedOn_eq s.file

/-- **A flush of the log can be tried again**, whenever every flush that failed has left whole
records: a flush that returns true has made all records durable that were appended so far. -/
theorem flush_retry {cs : List LogCall} (hcs : ∀ c ∈ cs, ∀ r ∈ c.record, r.Fits)
    (hw : LogRun.start.AllWhole cs) (hok : (LogRun.start.run cs).flushed = true) :
    (LogRun.start.run cs).Recovers := by
  obtain ⟨rs, pending, h, hl⟩ := LogRun.run_keeps LogRun.start_keeps (by simp) hcs hw
  obtain rfl := hl hok
  have hrec : records (LogRun.start.run cs).file = rs := by
    have hfits : ∀ r ∈ rs, r.Fits := fun r hr => h.fits r (by simp [hr])
    have := records_encode hfits []
    rw [h.file]
    simpa using this
  have hsame := h.same
  rw [List.append_nil] at hsame
  rw [LogRun.Recovers, LogRun.replayed_eq, hrec]
  exact applyRecords_of_sameLast hsame

/-- A put whose first flush stops behind one byte. -/
def tornRetry : List LogCall :=
  [.appendPut 1 (text "a") (text "1"), .flush (.writeFails 1), .flush .ok]

/-- **A batch behind part of a record is lost**, although its flush returned true. -/
theorem retry_behind_torn : (LogRun.start.run tornRetry).flushed = true ∧
    (LogRun.start.run tornRetry).replayed.map[text "a"]? = none ∧
    (KVStore.new.applyRecords (LogRun.start.run tornRetry).appended).map[text "a"]? =
      some (text "1") := by
  refine ⟨by decide +kernel, ?_, by decide +kernel⟩
  rw [LogRun.replayed_eq, records_of_none (by decide +kernel)]
  rfl

/-- A put whose first flush could not be synced, and a delete. -/
def syncRetry : List LogCall :=
  [.appendPut 1 (text "a") (text "1"), .flush .syncFails, .appendDel 2 (text "a"), .flush .ok]

/-- The put is in the file twice, and the delete behind it. -/
theorem flush_retry_sync : (LogRun.start.run syncRetry).flushed = true ∧
    (LogRun.start.run syncRetry).Recovers :=
  ⟨by decide +kernel, flush_retry (by simp [syncRetry, LogCall.record]; decide)
    ⟨trivial, trivial, trivial, trivial, trivial⟩ (by decide +kernel)⟩

end VeriStore.Store

import VeriStore.Store.Recovery

/-!
Durability over several crashes.

`open` leaves the file offset behind a torn record and never cuts it off, so that the next
session appends to the torn bytes and the replay stops in front of everything it wrote. The
records of a flush survive the next restart for every sequence of calls exactly when the file that
`open` found ends with a whole record (`reopen_recovers_flushed`), and they survive any number of
crashes that leave whole records.
-/

namespace VeriStore.Store

open VeriStore.Lib VeriStore.Sstable VeriStore.Log Session

/-- A byte string that a cut record leaves; the empty one is among them. -/
def Torn (t : Bytes) : Prop := ∃ r : Record, r.Fits ∧ t <+: recordBytes r ∧ t ≠ recordBytes r

/-- A log file that holds whole records and nothing else. -/
def Whole (f : Bytes) : Prop := ∃ rs : List Record, (∀ r ∈ rs, r.Fits) ∧ f = encode rs

/-- The largest sequence number of the log `open` finds. -/
def logSeq (d : Disk) : ℕ := KVStore.maxSeq (records (d.wal.getD []))

/-- The records of the mutations of a session on the files `d`, as a file gives them back. -/
def sessionRecords (d : Disk) (cs : List Call) : List Record :=
  (recordsFrom (logSeq d) (run d cs).history).map Record.stored

/-- **Rounds of crash and restart**, each crash leaving a log file that satisfies `P`: the files
after the last crash, and the records covered by a flush that returned true in the order they were
flushed. Only the log is followed; the other files may be any. -/
inductive Rounds (P : Bytes → Prop) : Disk → List Record → Prop
  | start : Rounds P Disk.empty []
  | round {d d' : Disk} {acks : List Record} {cs : List Call} {f : Bytes} {n : ℕ}
      (h : Rounds P d acks) (hcs : ∀ c ∈ cs, c.Fits) (hc : Crash d cs f n) (hf : P f)
      (hd : d'.wal = some f) : Rounds P d' (acks ++ (sessionRecords d cs).take n)

/-! ### What a session writes -/

lemma encode_stored (rs : List Record) : encode (rs.map Record.stored) = encode rs := by
  simp only [encode, List.flatMap_map, recordBytes_stored]

/-- The records of a session can be read back. -/
lemma sessionRecords_fits (d : Disk) {cs : List Call} (hcs : ∀ c ∈ cs, c.Fits) :
    ∀ r ∈ sessionRecords d cs, r.Fits := by
  intro r hr
  obtain ⟨r', hr', rfl⟩ := List.mem_map.mp hr
  obtain ⟨i, hi, rfl⟩ := List.mem_mapIdx.mp hr'
  obtain ⟨hk, hv⟩ := history_fits d hcs _ (List.getElem_mem hi)
  exact ⟨hk, hv, Nat.mod_lt _ (by norm_num)⟩

/-- **The log after a flush**: what `open` found and the records of all mutations. -/
lemma file_flushed (d : Disk) (cs : List Call) :
    (run d (cs ++ [.flushWal])).file = d.wal.getD [] ++ encode (sessionRecords d cs) := by
  have hinv := run_logInv d (cs ++ [.flushWal])
  have hhist : (run d (cs ++ [.flushWal])).history = (run d cs).history := by
    simp [run_concat, Session.call, Session.after]
  have hdur : (run d (cs ++ [.flushWal])).durable = (run d cs).history.length := by
    have hbuf := (run_logInv d cs).log.flushed.buffer
    simp [run_concat, Session.call, Session.after, hbuf]
  rw [Session.file, hinv.log.disk, Option.getD_some, hhist, hdur, sessionRecords, encode_stored,
    List.take_of_length_le (by simp)]
  rfl

/-- The records of a flush follow those of a file that ends with a whole record. -/
lemma records_flushed {d : Disk} {rs : List Record} (hrs : ∀ r ∈ rs, r.Fits)
    (hd : d.wal.getD [] = encode rs) {cs : List Call} (hcs : ∀ c ∈ cs, c.Fits) :
    records (run d (cs ++ [.flushWal])).file = rs ++ sessionRecords d cs := by
  have h := records_encode (sessionRecords_fits d hcs) []
  rw [List.append_nil, records_nil, List.append_nil] at h
  rw [file_flushed, hd, records_encode hrs, h]

/-! ### A torn tail -/

/-- The first fifteen bytes of a put of the empty key, up to its sequence number. -/
lemma take_recordBytes_put (q : ℕ) (v : Bytes) :
    (recordBytes ⟨q, [], some v⟩).take 15 =
      [75, 86, 76, 71, 1, 0, 1, 0, 0, 0, 0] ++ leBytes 4 v.length := by
  have hm : leBytes 4 kMagic = [75, 86, 76, 71] := by decide
  have hv : leBytes 2 kVersion = [1, 0] := by decide
  have ht : leBytes 1 RecordType.put.code = [1] := by decide
  have hk : leBytes 4 0 = [0, 0, 0, 0] := by decide
  simp [recordBytes, Record.header, Record.type, WalHeader.bytes, hm, hv, ht, hk]

/-- A put behind a torn tail is not recovered, or the file repeats itself. -/
lemma shift_of_recovered {t : Bytes} {r : Record} (hput : r.value.isSome)
    (h : records (t ++ recordBytes r) = [r]) :
    ∃ u, t ++ recordBytes r = recordBytes r ++ u := by
  cases hread : readRecord (t ++ recordBytes r) with
  | none => simp [records_of_none hread] at h
  | some p =>
    obtain ⟨r', s'⟩ := p
    rw [records_of_some hread] at h
    obtain ⟨rfl, -⟩ := List.cons.inj h
    exact ⟨s', readRecord_put_bytes hread hput⟩

/-- **No torn tail lets both puts of the empty key through**: a tail of fifteen bytes or more has
its own value length, and a shorter one would have to be the distance of two equal first bytes of
the header. -/
lemma torn_eq_nil {t : Bytes} {q q' : ℕ}
    (h1 : ∃ u, t ++ recordBytes ⟨q, [], some []⟩ = recordBytes ⟨q, [], some []⟩ ++ u)
    (h2 : ∃ u, t ++ recordBytes ⟨q', [], some [0]⟩ = recordBytes ⟨q', [], some [0]⟩ ++ u) :
    t = [] := by
  obtain ⟨u1, h1⟩ := h1
  obtain ⟨u2, h2⟩ := h2
  have e1 := take_recordBytes_put q []
  have e2 := take_recordBytes_put q' [0]
  have l1 : 15 ≤ (recordBytes ⟨q, [], some []⟩).length := by simp [recordBytes_length, sizeofHeader]
  have l2 : 15 ≤ (recordBytes ⟨q', [], some [0]⟩).length := by
    simp [recordBytes_length, sizeofHeader]
  by_cases hlen : 15 ≤ t.length
  · have a1 := congrArg (List.take 15) h1
    have a2 := congrArg (List.take 15) h2
    rw [List.take_append_of_le_length hlen, List.take_append_of_le_length l1] at a1
    rw [List.take_append_of_le_length hlen, List.take_append_of_le_length l2] at a2
    rw [a1, e1, e2] at a2
    exact absurd a2 (by decide)
  · by_contra hne
    have hpos : 0 < t.length := List.length_pos_iff.mpr hne
    -- the byte behind the tail is the first one of the record, and also its byte number `|t|`
    have a := congrArg (fun s : Bytes => s[t.length]?) h1
    simp only [List.getElem?_append_right le_rfl, Nat.sub_self] at a
    rw [List.getElem?_append_left (by omega)] at a
    have b : ∀ i < 15, (recordBytes ⟨q, [], some []⟩)[i]? =
        ([75, 86, 76, 71, 1, 0, 1, 0, 0, 0, 0, 0, 0, 0, 0] : Bytes)[i]? := by
      intro i hi
      rw [← List.getElem?_take_of_lt hi, e1]
      rfl
    rw [b 0 (by omega), b t.length (by omega)] at a
    have hlt : t.length < 15 := by omega
    interval_cases t.length <;> simp at a

/-! ### Durability -/

/-- A put behind the torn tail `t` is recovered. -/
lemma records_put_behind {d : Disk} {rs : List Record} {t : Bytes} (hrs : ∀ r ∈ rs, r.Fits)
    (ht : Torn t) (hd : d.wal = some (encode rs ++ t)) {v : Bytes}
    (h : records (run d ([.put [] v] ++ [.flushWal])).file =
      records (encode rs ++ t) ++ sessionRecords d [.put [] v]) :
    ∃ u, t ++ recordBytes ⟨(logSeq d + 1) % 2 ^ 64, [], some v⟩ =
      recordBytes ⟨(logSeq d + 1) % 2 ^ 64, [], some v⟩ ++ u := by
  obtain ⟨r, hr, hp, hne⟩ := ht
  have hnew : sessionRecords d [.put [] v] = [⟨(logSeq d + 1) % 2 ^ 64, [], some v⟩] := rfl
  have htorn : records t = [] := records_of_none (readRecord_torn hr hp hne)
  rw [file_flushed, hnew, hd, Option.getD_some, List.append_assoc, records_encode hrs,
    records_encode hrs, htorn, List.append_nil] at h
  exact shift_of_recovered rfl (by simpa [encode] using h)

/-- **The rounds that leave whole records lose no flushed record.** -/
lemma Rounds.durable {d : Disk} {acks : List Record} (h : Rounds Whole d acks) :
    acks.Sublist (records (d.wal.getD [])) ∧ Whole (d.wal.getD []) := by
  induction h with
  | start => exact ⟨List.Sublist.refl _, [], by simp, rfl⟩
  | @round d d' acks cs f n h hcs hc hf hd ih =>
    obtain ⟨hacks, rs, hrs, hw⟩ := ih
    rw [hd, Option.getD_some]
    refine ⟨?_, hf⟩
    have hrec := records_encode hrs []
    rw [List.append_nil, records_nil, List.append_nil] at hrec
    rw [hw, hrec] at hacks
    obtain ⟨g, rfl, hcut, hn, hdur⟩ := hc.file_cut (show logSeq d = _ from rfl)
    rw [← encode_stored] at hcut
    rw [← encode_stored, List.map_take] at hdur
    obtain ⟨m, hm, hg, hk⟩ := records_cut (sessionRecords_fits d hcs) hcut
    rw [hw, records_encode hrs, hg]
    refine hacks.append (List.take_sublist_take_left (hk n ?_ hdur))
    simpa [sessionRecords] using hn

/-- **Durability over several crashes.** On a file of whole records with a torn tail `t`, every
sequence of calls and a flush is recovered by the next `open`, behind what this `open` recovered,
exactly when `t` is empty; and through any number of crashes that leave whole records the flushed
records are all recovered, in order. -/
theorem reopen_recovers_flushed (d : Disk) :
    (∀ (rs : List Record) (t : Bytes), (∀ r ∈ rs, r.Fits) → Torn t →
      d.wal = some (encode rs ++ t) →
      ((∀ cs : List Call, (∀ c ∈ cs, c.Fits) → (KVStore.new.open d .ok).1 = true →
          ((run d cs).store.flushWal (run d cs).disk .ok).1 = true →
          records (run d (cs ++ [.flushWal])).file =
            records (encode rs ++ t) ++ sessionRecords d cs) ↔ t = [])) ∧
    ∀ acks : List Record, Rounds Whole d acks →
      acks.Sublist (records (d.wal.getD [])) := by
  refine ⟨fun rs t hrs ht hd => ⟨fun h => ?_, ?_⟩, fun acks h => h.durable.1⟩
  · have hopen : (KVStore.new.open d .ok).1 = true := KVStore.open_ok d
    have hput : ∀ v : Bytes, v.length < 2 ^ 32 → _ := fun v hv =>
      records_put_behind hrs ht hd (h [.put [] v] (by simpa [Call.Fits] using hv) hopen
        (by rw [(run_logInv d _).log.flushWal]))
    exact torn_eq_nil (hput [] (by simp)) (hput [0] (by simp))
  · rintro rfl cs hcs - -
    have hrec := records_encode hrs []
    rw [List.append_nil, records_nil, List.append_nil] at hrec
    rw [List.append_nil, hrec]
    exact records_flushed hrs (by simp [hd]) hcs

/-- The files after the crash inside the second record. -/
def tornDisk : Disk := (run Disk.empty (tornCalls ++ [.flushWal])).crashed tornFile

/-- A put after the restart. -/
def retryCalls : List Call := [.put (text "c") (text "3")]

/-- The put is flushed, and the next `open` does not find it. -/
theorem flushed_put_lost_behind_torn_tail :
    Crash Disk.empty (tornCalls ++ [.flushWal]) tornFile 1 ∧
      (KVStore.new.open tornDisk .ok).1 = true ∧
      ((run tornDisk retryCalls).store.flushWal (run tornDisk retryCalls).disk .ok).1 = true ∧
      records (run tornDisk (retryCalls ++ [.flushWal])).file ≠
        records tornFile ++ sessionRecords tornDisk retryCalls ∧
      (KVStore.new.open (run tornDisk (retryCalls ++ [.flushWal])).disk .ok).2.1.get (text "c") =
        none := by
  refine ⟨?_, ?_, ?_, ?_, ?_⟩
  · exact Crash.during tornCalls .flushWal tornFile (by decide +kernel) (List.take_prefix _ _)
  all_goals decide +kernel

/-- Without the torn tail the put is recovered, and both flushed puts are. -/
theorem reopen_recovers_flushed_whole :
    records (run (run Disk.empty tornCalls).disk (retryCalls ++ [.flushWal])).file =
        records (run Disk.empty tornCalls).file ++
          sessionRecords (run Disk.empty tornCalls).disk retryCalls ∧
      ((sessionRecords Disk.empty tornCalls).take 1).Sublist
        (records (run Disk.empty tornCalls).file) := by
  have hwhole : (run Disk.empty tornCalls).file = encode [⟨1, text "a", some (text "1")⟩] := by
    decide +kernel
  have hfits : ∀ r ∈ [(⟨1, text "a", some (text "1")⟩ : Record)], r.Fits := by decide
  have hdisk : (run Disk.empty tornCalls).disk.wal =
      some (encode [⟨1, text "a", some (text "1")⟩] ++ []) := by decide +kernel
  have htorn : Torn [] := ⟨⟨1, [], none⟩, by decide, List.nil_prefix, by decide⟩
  constructor
  · have h := ((reopen_recovers_flushed _).1 _ [] hfits htorn hdisk).mpr rfl retryCalls (by decide)
      (by decide +kernel) (by decide +kernel)
    rwa [List.append_nil, ← hwhole] at h
  · have hround : Rounds Whole (run Disk.empty tornCalls).disk
        ([] ++ (sessionRecords Disk.empty tornCalls).take 1) :=
      .round .start (by decide) (.idle tornCalls) ⟨_, hfits, hwhole⟩ (by decide +kernel)
    exact (reopen_recovers_flushed _).2 _ hround

end VeriStore.Store

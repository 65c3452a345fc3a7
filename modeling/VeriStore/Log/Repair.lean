import VeriStore.Log.Scan

/-!
The repair of a log in place.

`replay_into` leaves the descriptor at the end of the file it has read, and `truncate_to_last_good`
shortens the file without moving the descriptor. What is flushed afterwards stands at the old end,
behind zeros for all the bytes that were cut off, and no record begins with a zero.

* `repair_recovers_iff` — the appended records are recovered when nothing was cut off (or nothing
  was appended), and their lengths fit the header.
-/

namespace VeriStore.Log

open VeriStore.Lib

/-! ### Zeros in the file -/

/-- A hole is no record: the first byte of the magic number is not zero. -/
lemma readRecord_hole {n : ℕ} (hn : n ≠ 0) (s : Bytes) :
    readRecord (List.replicate n 0 ++ s) = none := by
  by_contra hsome
  obtain ⟨⟨r, s'⟩, hread⟩ := Option.ne_none_iff_exists'.mp hsome
  obtain ⟨hb, key, val, stored, hs, hlb, -, hm, -⟩ := readRecord_eq_some hread
  obtain ⟨n, rfl⟩ := Nat.exists_eq_succ_of_ne_zero hn
  match hb, hlb with
  | b :: hb, _ =>
    rw [List.replicate_succ, List.cons_append, List.cons_append, List.cons.injEq] at hs
    -- the low byte of the number that was read
    have hlow : (WalHeader.ofBytes (b :: hb)).magic % 256 = 0 := by
      simp only [WalHeader.ofBytes, List.take_succ_cons, leNat, ← hs.1, UInt8.toNat_zero]
      omega
    rw [hm] at hlow
    exact absurd hlow (by decide)

/-- Bytes written behind the end of a file. -/
lemma writeAt_hole {file data : Bytes} {off : ℕ} (hoff : file.length ≤ off) (hdata : data ≠ []) :
    writeAt file off data = file ++ (List.replicate (off - file.length) 0 ++ data) := by
  rw [writeAt, if_neg hdata, List.take_of_length_le hoff,
    List.drop_eq_nil_of_le (show file.length ≤ off + data.length by omega), List.append_nil,
    List.append_assoc]

/-! ### Appends -/

/-- The log right after `open`, on a file with these bytes. -/
def Wal.opened (file : Bytes) : Wal := (Wal.closed.open (some file) true).2.1

/-- One append after the other: each call of `append_put` and `append_del` is a `write_record`. -/
def Wal.appendAll (w : Wal) (rs : List Record) : Wal := rs.foldl (fun w r => (w.writeRecord r).2) w

lemma Wal.appendAll_eq {w : Wal} (hfd : w.fd.isSome) (rs : List Record) :
    w.appendAll rs = { w with buffer := w.buffer ++ rs.map recordBytes } := by
  induction rs generalizing w with
  | nil => simp [Wal.appendAll]
  | cons r rs ih =>
    have hstep : (w.writeRecord r).2 = { w with buffer := w.buffer ++ [recordBytes r] } := by
      obtain ⟨off, hoff⟩ := Option.isSome_iff_exists.mp hfd
      rw [Wal.writeRecord, hoff]
      rfl
    rw [Wal.appendAll, List.foldl_cons, hstep]
    have hrest := ih (w := { w with buffer := w.buffer ++ [recordBytes r] }) hfd
    rw [Wal.appendAll] at hrest
    rw [hrest]
    simp

lemma encode_ne_nil {rs : List Record} (hrs : rs ≠ []) : encode rs ≠ [] := by
  obtain ⟨r, rs, rfl⟩ := List.exists_cons_of_ne_nil hrs
  intro h
  have hlen := congrArg List.length h
  rw [encode_cons, List.length_append, recordBytes_length] at hlen
  simp [sizeofHeader] at hlen

/-- A flush that returns true has written the buffer at the offset. -/
lemma Wal.flush_true {w : Wal} {off : ℕ} (hfd : w.fd = some off) (file : Bytes) {io : FlushOutcome}
    (h : (w.flush file io).1 = true) : (w.flush file io).2.1.fd.isSome ∧
      (w.flush file io).2.2 = writeAt file off w.buffer.flatten := by
  simp only [Wal.flush, hfd] at h ⊢
  by_cases hbuf : w.buffer = []
  · simp [hbuf, hfd, writeAt]
  · rw [if_neg hbuf] at h
    rw [if_neg hbuf]
    cases io with
    | ok => simp
    | writeFails n => simp at h
    | syncFails => simp at h

/-! ### The repair -/

/-- The file consists of records: nothing is left behind the last one. -/
def AllRecords (f : Bytes) : Prop := ∃ rs, Scan f rs []

/-- The log and its file after a replay, the truncation, the appends and the flush; whether the
flush returned true. -/
def Wal.repair (w : Wal) (f : Bytes) (rs : List Record) (io : FlushOutcome) : Bool × Wal × Bytes :=
  let w' := (w.replayInto f (fun _ _ => ()) () true).2.1
  (w'.appendAll rs).flush (w'.truncateToLastGood f) io

/-- The records of the file that the repair leaves: where bytes were cut off, the appended ones
stand behind a hole. -/
lemma repair_records {f : Bytes} {rs : List Record} {io : FlushOutcome}
    (h : ((Wal.opened f).repair f rs io).1 = true) :
    let out := (Wal.opened f).repair f rs io
    ∃ c t, f = c ++ t ∧ Scan f (records f) t ∧
      out.2.1.appliedRecords out.2.2 = records (c ++
        if rs = [] then [] else List.replicate t.length 0 ++ encode rs) := by
  intro out
  obtain ⟨t, hscan⟩ := scan_records f
  obtain ⟨c, hc, -⟩ := hscan.append
  have hlen : f.length = c.length + t.length := by
    rw [hc, List.length_append]
  -- the descriptor stays where the replay has left it
  have hw : ((Wal.opened f).replayInto f (fun _ _ => ()) () true).2.1 =
      ⟨some f.length, [], c.length⟩ := by
    rw [hscan.replayInto rfl, show f.length - t.length = c.length by omega]
    rfl
  have hcut : (⟨some f.length, [], c.length⟩ : Wal).truncateToLastGood f = c := by
    rw [Wal.truncateToLastGood, hc, List.take_left]
  have hout : out = ((⟨some f.length, rs.map recordBytes, c.length⟩ : Wal).flush c io) := by
    simp only [out, Wal.repair, hw, hcut, Wal.appendAll_eq (w := ⟨some f.length, [], c.length⟩) rfl,
      List.nil_append]
  rw [show (Wal.opened f).repair f rs io = out from rfl, hout] at h
  obtain ⟨hfd, hfile⟩ := Wal.flush_true rfl c h
  refine ⟨c, t, hc, hscan, ?_⟩
  rw [hout, Wal.appliedRecords_eq hfd, hfile]
  by_cases hrs : rs = []
  · simp [hrs, writeAt]
  · have hflat : (rs.map recordBytes).flatten = encode rs := rfl
    rw [if_neg hrs, hflat, writeAt_hole (by omega) (encode_ne_nil hrs),
      show f.length - c.length = t.length by omega]

/-- **The repair works in place** where the file consists of records, or nothing is appended, and
the lengths of the appended records fit the header. -/
theorem repair_recovers_iff (f : Bytes) {rs : List Record} (hseq : ∀ r ∈ rs, r.seq < 2 ^ 64)
    {io : FlushOutcome} (h : ((Wal.opened f).repair f rs io).1 = true) :
    let out := (Wal.opened f).repair f rs io
    out.2.1.appliedRecords out.2.2 = (Wal.opened f).appliedRecords f ++ rs ↔
      (AllRecords f ∨ rs = []) ∧
        ∀ r ∈ rs, r.key.length < 2 ^ 32 ∧ (r.value.getD []).length < 2 ^ 32 := by
  intro out
  obtain ⟨c, t, hc, hscan, hout⟩ := repair_records h
  have hfirst : (Wal.opened f).appliedRecords f = records f := Wal.appliedRecords_eq rfl f
  obtain ⟨c', hc', hgo⟩ := hscan.append
  obtain rfl : c = c' := List.append_cancel_right (hc.symm.trans hc')
  rw [hout, hfirst]
  by_cases hrs : rs = []
  · subst hrs
    have hempty : records (c ++ []) = records f ++ [] := (hgo (.stop rfl)).records_eq
    simpa using hempty
  rw [if_neg hrs]
  constructor
  · intro hrec
    -- what stands behind a hole is lost
    have ht : t = [] := by
      by_contra hne
      have hhole := readRecord_hole (fun e => hne (List.eq_nil_of_length_eq_zero e)) (encode rs)
      rw [(hgo (.stop hhole)).records_eq, List.append_cancel_left_eq] at hrec
      exact hrs hrec.symm
    rw [ht] at hscan
    refine ⟨.inl ⟨_, hscan⟩, fun r hr => ?_⟩
    have hfits : r.Fits := fits_of_mem_records (hrec ▸ List.mem_append_right _ hr)
    exact ⟨hfits.1, hfits.2.1⟩
  · rintro ⟨hall, hlen⟩
    obtain ⟨rs', hrs'⟩ := hall.resolve_right hrs
    have ht : t = [] := hscan.rest_eq hrs'
    have hfits : ∀ r ∈ rs, r.Fits := fun r hr => ⟨(hlen r hr).1, (hlen r hr).2, hseq r hr⟩
    subst ht
    exact (hgo (scan_encode hfits)).records_eq

/-- A record behind a log without a tail. -/
theorem repair_recovers_iff_clean :
    let out := (Wal.opened (encode smallLog)).repair (encode smallLog)
      [⟨3, text "c", some (text "3")⟩] .ok
    out.2.1.appliedRecords out.2.2 =
      (Wal.opened (encode smallLog)).appliedRecords (encode smallLog) ++
        [⟨3, text "c", some (text "3")⟩] :=
  (repair_recovers_iff (encode smallLog) (by decide) (by decide +kernel)).mpr
    ⟨.inl ⟨smallLog, scan_encode (by decide)⟩, by decide⟩

/-- **A byte of a torn record** is cut off, and the record that is appended and flushed afterwards
is not recovered: it stands behind a zero. -/
theorem repair_loses_append :
    let f := encode smallLog ++ [75]
    let r : Record := ⟨3, text "c", some (text "3")⟩
    let out := (Wal.opened f).repair f [r] .ok
    out.1 = true ∧ out.2.2 = encode smallLog ++ [0] ++ recordBytes r ∧
      (Wal.opened f).appliedRecords f = smallLog ∧
      out.2.1.appliedRecords out.2.2 = smallLog ∧
      out.2.1.appliedRecords out.2.2 ≠ (Wal.opened f).appliedRecords f ++ [r] := by
  decide +kernel

end VeriStore.Log

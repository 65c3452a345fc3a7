import VeriStore.Lib.Text
import VeriStore.Log.Replay

/-!
What a replay makes of an arbitrary file.

`Scan s rs t` says that the loop reads the records `rs` off the front of `s` and stops in front of
`t`. Every file has one scan (`scan_records`), and it does not depend on what the loop has not read
(`Scan.append`): the valid prefix of a file goes on with whatever is put behind it.

* `Scan.replayInto` — the results of `replay_into`;
* `valid_prefix_continues` — records that are appended to the valid prefix of any file are replayed
  behind those the file had.
-/

namespace VeriStore.Log

open VeriStore.Lib

/-! ### Scans -/

/-- The loop reads the records off the file and stops in front of the rest. -/
inductive Scan : Bytes → List Record → Bytes → Prop
  | stop {s : Bytes} (h : readRecord s = none) : Scan s [] s
  | next {s s' t : Bytes} {r : Record} {rs : List Record} (h : readRecord s = some (r, s'))
      (hrest : Scan s' rs t) : Scan s (r :: rs) t

/-- The records of a file, and what is left of it. -/
lemma scan_records (s : Bytes) : ∃ t, Scan s (records s) t := by
  induction hn : s.length using Nat.strong_induction_on generalizing s with
  | _ n ih =>
    cases hread : readRecord s with
    | none =>
      rw [records_of_none hread]
      exact ⟨s, .stop hread⟩
    | some p =>
      obtain ⟨r, s'⟩ := p
      obtain ⟨t, ht⟩ := ih s'.length (hn ▸ readRecord_length hread) s' rfl
      rw [records_of_some hread]
      exact ⟨t, .next hread ht⟩

section Scan

variable {s t : Bytes} {rs : List Record}

/-- A file has one scan. -/
lemma Scan.records_eq (h : Scan s rs t) : records s = rs := by
  induction h with
  | stop h => exact records_of_none h
  | next h _ ih => rw [records_of_some h, ih]

lemma Scan.rest_eq (h : Scan s rs t) {rs' : List Record} {t' : Bytes} (h' : Scan s rs' t') :
    t = t' := by
  induction h generalizing rs' with
  | stop h =>
    cases h' with
    | stop _ => rfl
    | next hread _ => rw [h] at hread; cases hread
  | next h _ ih =>
    cases h' with
    | stop hread => rw [h] at hread; cases hread
    | next hread hrest =>
      rw [h] at hread
      cases hread
      exact ih hrest

lemma Scan.length_le (h : Scan s rs t) : t.length ≤ s.length := by
  induction h with
  | stop _ => exact le_rfl
  | next h _ ih => exact ih.trans (readRecord_length h).le

/-- **A scan depends on the bytes in front of the rest only**: it goes on with the scan of what
stands there instead. -/
lemma Scan.append (h : Scan s rs t) : ∃ c, s = c ++ t ∧
    ∀ {u v : Bytes} {rs' : List Record}, Scan u rs' v → Scan (c ++ u) (rs ++ rs') v := by
  induction h with
  | stop _ => exact ⟨[], rfl, fun hu => hu⟩
  | next h _ ih =>
    obtain ⟨c₁, rfl, -, hlocal⟩ := readRecord_local h
    obtain ⟨c, rfl, hgo⟩ := ih
    refine ⟨c₁ ++ c, by simp, fun hu => ?_⟩
    rw [List.append_assoc]
    exact .next (hlocal _) (hgo hu)

/-- Encoded records in front of a file. -/
lemma Scan.encode (h : Scan s rs t) {S : List Record} (hS : ∀ r ∈ S, r.Fits) :
    Scan (encode S ++ s) (S ++ rs) t := by
  induction S with
  | nil => exact h
  | cons r S ih =>
    rw [encode_cons, List.append_assoc]
    exact .next (readRecord_recordBytes (hS r (by simp)) _)
      (ih fun x hx => hS x (List.mem_cons_of_mem r hx))

lemma scan_encode {S : List Record} (hS : ∀ r ∈ S, r.Fits) : Scan (encode S) S [] := by
  have h : Scan [] [] [] := .stop rfl
  simpa using h.encode hS

/-- **The loop on a file with a scan**: what it has applied, the largest sequence number and the
offset of the rest. -/
lemma Scan.replayLoop {σ : Type} (h : Scan s rs t) (apply : σ → Record → σ) {n : ℕ}
    (hn : s.length ≤ n) (st : Replay σ) : replayLoop apply n s st =
      ⟨rs.foldl apply st.store, rs.foldl (fun m r => max m r.seq) st.maxSeq,
        st.lastGood + (s.length - t.length)⟩ := by
  induction h generalizing n st with
  | stop h => cases n <;> simp [Log.replayLoop, h]
  | @next s s' t r rs h hrest ih =>
    have hlt := readRecord_length h
    obtain ⟨n, rfl⟩ : ∃ k, n = k + 1 := ⟨n - 1, by omega⟩
    have hle := hrest.length_le
    simp only [Log.replayLoop, h, ih (n := n) (by omega), List.foldl_cons, Replay.mk.injEq, true_and]
    omega

/-- **`replay_into` on a file with a scan.** -/
theorem Scan.replayInto {σ : Type} (h : Scan s rs t) {w : Wal} (hfd : w.fd.isSome)
    (apply : σ → Record → σ) (st : σ) : w.replayInto s apply st true =
      (true, { w with fd := some s.length, lastGoodOffset := s.length - t.length },
        ⟨rs.foldl apply st, rs.foldl (fun m r => max m r.seq) 0, s.length - t.length⟩) := by
  have hopen : (w.fd.isNone || !true) = false := by
    cases hw : w.fd with
    | none => simp [hw] at hfd
    | some off => rfl
  unfold Wal.replayInto
  rw [hopen, h.replayLoop apply le_rfl]
  simp

end Scan

/-! ### The valid prefix -/

/-- The records that a replay of the file applies, one after the other. -/
def Wal.appliedRecords (w : Wal) (file : Bytes) : List Record :=
  (w.replayInto file (fun rs r => rs ++ [r]) [] true).2.2.store

lemma foldl_snoc {α : Type} (l l' : List α) : l'.foldl (fun rs r => rs ++ [r]) l = l ++ l' := by
  induction l' generalizing l with
  | nil => simp
  | cons a l' ih => simp [ih]

lemma Wal.appliedRecords_eq {w : Wal} (hfd : w.fd.isSome) (file : Bytes) :
    w.appliedRecords file = records file := by
  obtain ⟨t, h⟩ := scan_records file
  rw [Wal.appliedRecords, h.replayInto hfd, foldl_snoc, List.nil_append]

/-- **The valid prefix of any file goes on**: encoded records that are written behind it are
replayed behind the records that the file had, and the whole file is valid then. -/
theorem valid_prefix_continues {σ : Type} (apply : σ → Record → σ) (st : σ) {w : Wal}
    (hfd : w.fd.isSome) (f : Bytes) {S : List Record} (hS : ∀ r ∈ S, r.Fits) :
    let R := w.appliedRecords f
    let f' := f.take (w.replayInto f apply st true).2.1.lastGoodOffset ++ encode S
    let out := w.replayInto f' apply st true
    out.1 = true ∧ w.appliedRecords f' = R ++ S ∧ out.2.2.store = (R ++ S).foldl apply st ∧
      out.2.2.maxSeq = (R ++ S).foldl (fun m r => max m r.seq) 0 ∧
      out.2.1.lastGoodOffset = f'.length := by
  intro R f' out
  obtain ⟨t, h⟩ := scan_records f
  obtain ⟨c, hc, hgo⟩ := h.append
  have hf' : f' = c ++ encode S := by
    have hlen : f.length - t.length = c.length := by
      rw [hc]
      simp
    simp only [f', h.replayInto hfd, hlen]
    rw [hc, List.take_left]
  have hR : R = records f := Wal.appliedRecords_eq hfd f
  have hscan : Scan f' (R ++ S) [] := by
    rw [hf', hR]
    exact hgo (scan_encode hS)
  have hout : out = _ := hscan.replayInto hfd apply st
  refine ⟨by rw [hout], ?_, by rw [hout], by rw [hout], by rw [hout]; simp⟩
  rw [Wal.appliedRecords_eq hfd, hscan.records_eq]

/-- A log that is open. -/
def openWal : Wal := ⟨some 0, [], 0⟩

/-- The records of a small log. -/
def smallLog : List Record := [⟨1, text "a", some (text "1")⟩, ⟨2, text "b", none⟩]

/-- A delete record that names a value length, and bytes that are no record. -/
def oddFile : Bytes :=
  let h : WalHeader := ⟨kMagic, kVersion, RecordType.del.code, 1, 5, 7⟩
  h.bytes ++ text "a" ++ leBytes 4 (checksum h.bytes (text "a") []).toNat ++ h.bytes

/-- A record behind the valid prefix of an odd file. -/
theorem valid_prefix_continues_odd :
    openWal.appliedRecords (oddFile.take 28 ++ encode [⟨8, text "b", some (text "1")⟩]) =
      [⟨7, text "a", none⟩, ⟨8, text "b", some (text "1")⟩] := by
  have hgood : (openWal.replayInto oddFile (fun _ _ => ()) () true).2.1.lastGoodOffset = 28 := by
    decide +kernel
  have hR : openWal.appliedRecords oddFile = [⟨7, text "a", none⟩] := by decide +kernel
  have h := valid_prefix_continues (fun _ _ => ()) () (w := openWal) rfl oddFile
    (S := [⟨8, text "b", some (text "1")⟩]) (by decide)
  rw [hgood, hR] at h
  exact h.2.1

end VeriStore.Log

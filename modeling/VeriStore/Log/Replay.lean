import VeriStore.Log.Record

/-!
The write-ahead log as an object: the open descriptor with its file offset, the buffer of group
commit, flushing and replay.

The file itself is a byte string that the operations take and give back. The replay loop is
generic in what the records are applied to; `records` is the list of records it applies, and
`replayLoop_eq` says that the loop folds them. The results that recovery rests on:

* `records_encode` — an encoded list of records is replayed, and then what follows it;
* `records_cut` — a file that is any byte prefix of an encoded list of records replays a
  prefix of that list, with every record that the file holds whole.
-/

namespace VeriStore.Log

open VeriStore.Lib

/-! ### The log object -/

/-- `fd` is the file offset of the open descriptor, `none` when it is closed. -/
structure Wal where
  fd : Option ℕ
  buffer : List Bytes
  lastGoodOffset : ℕ

def Wal.closed : Wal := ⟨none, [], 0⟩

/-- `write(2)` at an offset: a hole before the offset is filled with zeros. -/
def writeAt (file : Bytes) (off : ℕ) (data : Bytes) : Bytes :=
  if data = [] then file
  else file.take off ++ List.replicate (off - file.length) 0 ++ data ++ file.drop (off + data.length)

/-- `Wal::open`: the file is created when it does not exist, and the offset is at its end. -/
def Wal.open (w : Wal) (file : Option Bytes) (ok : Bool) : Bool × Wal × Option Bytes :=
  if ok then (true, { w with fd := some (file.getD []).length, lastGoodOffset := 0 },
    some (file.getD []))
  else (false, { w with fd := none }, file)

def Wal.close (w : Wal) : Wal := { w with fd := none }

/-- `write_record`: the record is only buffered. -/
def Wal.writeRecord (w : Wal) (r : Record) : Bool × Wal :=
  if w.fd.isNone then (false, w) else (true, { w with buffer := w.buffer ++ [recordBytes r] })

def Wal.appendPut (w : Wal) (seq : ℕ) (key value : Bytes) : Bool × Wal :=
  w.writeRecord ⟨seq, key, some value⟩

def Wal.appendDel (w : Wal) (seq : ℕ) (key : Bytes) : Bool × Wal :=
  w.writeRecord ⟨seq, key, none⟩

/-- How the system calls of one flush go: all succeed, a `write` fails after some bytes of the
batch, or the `fsync` fails. -/
inductive FlushOutcome where
  | ok
  | writeFails (written : ℕ)
  | syncFails

def Wal.flush (w : Wal) (file : Bytes) (io : FlushOutcome) : Bool × Wal × Bytes :=
  match w.fd with
  | none => (false, w, file)
  | some off =>
    if w.buffer = [] then (true, w, file)
    else
      let batch := w.buffer.flatten
      match io with
      | .ok => (true, { w with fd := some (off + batch.length), buffer := [] },
          writeAt file off batch)
      | .writeFails n => (false, { w with fd := some (off + (batch.take n).length) },
          writeAt file off (batch.take n))
      | .syncFails => (false, { w with fd := some (off + batch.length) }, writeAt file off batch)

def Wal.truncateToLastGood (w : Wal) (file : Bytes) : Bytes := file.take w.lastGoodOffset

lemma writeAt_end (file data : Bytes) : writeAt file file.length data = file ++ data := by
  unfold writeAt
  split
  · next h => simp [h]
  · simp

/-- **A flush whose system calls succeed**, with the offset at the end of the file: the buffer is
appended and empty afterwards. -/
lemma Wal.flush_ok {w : Wal} {file : Bytes} (hfd : w.fd = some file.length) :
    w.flush file .ok = (true, { w with
      fd := some (file ++ w.buffer.flatten).length
      buffer := [] }, file ++ w.buffer.flatten) := by
  obtain ⟨fd, buffer, good⟩ := w
  simp only at hfd
  subst hfd
  by_cases hb : buffer = []
  · simp [Wal.flush, hb]
  · simp [Wal.flush, hb, writeAt_end]

/-- A flush neither opens nor closes the file. -/
@[simp] lemma Wal.flush_isSome (w : Wal) (file : Bytes) (io : FlushOutcome) :
    (w.flush file io).2.1.fd.isSome = w.fd.isSome := by
  unfold Wal.flush
  cases hfd : w.fd with
  | none => simp [hfd]
  | some off =>
    dsimp only
    split
    · simp [hfd]
    · cases io <;> rfl

/-! ### Replay -/

/-- What the loop has done so far: the store the records were applied to, the largest sequence
number and the offset behind the last good record. -/
structure Replay (σ : Type) where
  store : σ
  maxSeq : ℕ
  lastGood : ℕ

/-- The loop of `replay_into`. Every turn but the last consumes bytes, so that the length of the
file is fuel enough (`replayLoop_eq`). -/
def replayLoop {σ : Type} (apply : σ → Record → σ) : ℕ → Bytes → Replay σ → Replay σ
  | 0, _, st => st
  | n + 1, s, st =>
    match readRecord s with
    | none => st
    | some (r, s') => replayLoop apply n s'
        ⟨apply st.store r, max st.maxSeq r.seq, st.lastGood + (s.length - s'.length)⟩

def Wal.replayInto {σ : Type} (w : Wal) (file : Bytes) (apply : σ → Record → σ) (store : σ)
    (seekOk : Bool) : Bool × Wal × Replay σ :=
  if w.fd.isNone || !seekOk then (false, w, ⟨store, 0, 0⟩)
  else
    let out := replayLoop apply file.length file ⟨store, 0, 0⟩
    (true, { w with fd := some file.length, lastGoodOffset := out.lastGood }, out)

/-! ### The records of a file -/

/-- The records the loop reads, with a bound on the number of turns. -/
def recordsFuel : ℕ → Bytes → List Record
  | 0, _ => []
  | n + 1, s =>
    match readRecord s with
    | none => []
    | some (r, s') => r :: recordsFuel n s'

/-- **The records a replay of the file applies**, in order. -/
def records (file : Bytes) : List Record := recordsFuel file.length file

lemma readRecord_length {s s' : Bytes} {r : Record} (h : readRecord s = some (r, s')) :
    s'.length < s.length := by
  obtain ⟨c, rfl, hc, -⟩ := readRecord_local h
  have : 0 < sizeofHeader + 4 := by decide
  simp only [List.length_append]
  omega

lemma recordsFuel_eq {n : ℕ} {s : Bytes} (hn : s.length ≤ n) : recordsFuel n s = records s := by
  unfold records
  generalize hm : s.length = m
  rw [hm] at hn
  induction m using Nat.strong_induction_on generalizing n s with
  | _ m ih =>
    cases n with
    | zero =>
      obtain rfl : m = 0 := by omega
      rfl
    | succ n =>
      cases m with
      | zero =>
        have hs := List.eq_nil_of_length_eq_zero hm
        subst hs
        rfl
      | succ m =>
        simp only [recordsFuel]
        cases h : readRecord s with
        | none => rfl
        | some p =>
          obtain ⟨r, s'⟩ := p
          have hlt := readRecord_length h
          simp only [List.cons.injEq, true_and]
          exact (ih s'.length (by omega) (by omega) rfl).trans
            (ih s'.length (by omega) (by omega) rfl).symm

lemma records_of_none {s : Bytes} (h : readRecord s = none) : records s = [] := by
  unfold records
  cases s.length <;> simp [recordsFuel, h]

lemma records_of_some {s s' : Bytes} {r : Record} (h : readRecord s = some (r, s')) :
    records s = r :: records s' := by
  have hlt := readRecord_length h
  rw [← recordsFuel_eq (Nat.le_succ s.length)]
  simp only [recordsFuel, h, List.cons.injEq, true_and]
  exact recordsFuel_eq (by omega)

@[simp] lemma records_nil : records [] = [] := rfl

/-- The records of a file fit the fields of the header. -/
lemma fits_of_mem_records {s : Bytes} {r : Record} (h : r ∈ records s) : r.Fits := by
  induction hn : s.length using Nat.strong_induction_on generalizing s with
  | _ n ih =>
    cases hread : readRecord s with
    | none => simp [records_of_none hread] at h
    | some p =>
      obtain ⟨r', s'⟩ := p
      rw [records_of_some hread] at h
      rcases List.mem_cons.mp h with rfl | h
      · exact readRecord_fits hread
      · exact ih s'.length (hn ▸ readRecord_length hread) h rfl

/-- **The loop folds the records of the file**, and keeps their largest sequence number. -/
theorem replayLoop_eq {σ : Type} (apply : σ → Record → σ) (n : ℕ) (s : Bytes) (st : Replay σ) :
    (replayLoop apply n s st).store = (recordsFuel n s).foldl apply st.store ∧
      (replayLoop apply n s st).maxSeq =
        (recordsFuel n s).foldl (fun m r => max m r.seq) st.maxSeq := by
  induction n generalizing s st with
  | zero => exact ⟨rfl, rfl⟩
  | succ n ih =>
    simp only [replayLoop, recordsFuel]
    cases readRecord s with
    | none => exact ⟨rfl, rfl⟩
    | some p => exact ih _ _

/-! ### Encoded records -/

/-- The bytes of a list of records, one behind the other. -/
def encode (rs : List Record) : Bytes := rs.flatMap recordBytes

@[simp] lemma encode_nil : encode [] = [] := rfl

@[simp] lemma encode_cons (r : Record) (rs : List Record) :
    encode (r :: rs) = recordBytes r ++ encode rs := rfl

@[simp] lemma encode_append (rs rs' : List Record) :
    encode (rs ++ rs') = encode rs ++ encode rs' := by
  simp [encode]

/-- **An encoded list is replayed**, and then what follows it in the file. -/
theorem records_encode {rs : List Record} (hrs : ∀ r ∈ rs, r.Fits) (s : Bytes) :
    records (encode rs ++ s) = rs ++ records s := by
  induction rs with
  | nil => simp
  | cons r rs ih =>
    rw [encode_cons, List.append_assoc, records_of_some (readRecord_recordBytes (hrs r (by simp)) _),
      ih fun x hx => hrs x (List.mem_cons_of_mem _ hx), List.cons_append]

/-- A prefix of a concatenation is a prefix of the first part or goes past it. -/
lemma prefix_append_cases {f a b : Bytes} (h : f <+: a ++ b) :
    (f <+: a ∧ f ≠ a) ∨ ∃ f', f = a ++ f' ∧ f' <+: b := by
  obtain ⟨u, hu⟩ := h
  rcases List.append_eq_append_iff.mp hu with ⟨a', ha, -⟩ | ⟨c', hf, hb⟩
  · by_cases ha' : a' = []
    · exact Or.inr ⟨[], by simp [ha, ha'], List.nil_prefix⟩
    · refine Or.inl ⟨⟨a', ha.symm⟩, fun hfa => ha' ?_⟩
      simpa [hfa] using ha
  · exact Or.inr ⟨c', hf, ⟨u, hb.symm⟩⟩

/-- **A byte prefix of an encoded list replays a prefix of the list**, and no record that the
file holds whole is missing. -/
theorem records_cut {rs : List Record} (hrs : ∀ r ∈ rs, r.Fits) {f : Bytes}
    (hf : f <+: encode rs) :
    ∃ m ≤ rs.length, records f = rs.take m ∧
      ∀ k ≤ rs.length, encode (rs.take k) <+: f → k ≤ m := by
  induction rs generalizing f with
  | nil =>
    have : f = [] := by simpa using hf
    subst this
    exact ⟨0, by simp, by simp, by simp⟩
  | cons r rs ih =>
    have hr := hrs r (by simp)
    rcases prefix_append_cases (by simpa using hf) with ⟨hp, hne⟩ | ⟨f', rfl, hf'⟩
    · refine ⟨0, by simp, by simp [records_of_none (readRecord_torn hr hp hne)], ?_⟩
      intro k _ hk
      cases k with
      | zero => exact le_rfl
      | succ k =>
        -- a file that holds the whole record is not torn inside it
        simp only [List.take_succ_cons, encode_cons] at hk
        have hfull : recordBytes r <+: f := (List.prefix_append _ _).trans hk
        exact absurd (hp.eq_of_length (le_antisymm hp.length_le hfull.length_le)) hne
    · obtain ⟨m, hm, hrec, hk⟩ := ih (fun x hx => hrs x (List.mem_cons_of_mem _ hx)) hf'
      refine ⟨m + 1, by simpa using hm, ?_, ?_⟩
      · rw [records_of_some (readRecord_recordBytes hr f'), hrec, List.take_succ_cons]
      · intro k hkl hkp
        cases k with
        | zero => omega
        | succ k =>
          simp only [List.take_succ_cons, encode_cons] at hkp
          have := hk k (by simpa using hkl) ((List.prefix_append_right_inj _).mp hkp)
          omega

end VeriStore.Log

import VeriStore.Log.Scan

/-!
Replay when system calls are interrupted.

A `read` may give fewer bytes than it was asked for, be interrupted or fail. Keys, values and
checksums are read in a loop that goes on where a read stopped (`readExactWith`); the header is read
by one call, and a call that gives less than a header ends the replay as the end of the file does
(`readHeaderWith`). The outcomes to come are a list; behind its end every call gives what it can.

* `readRecordWith_sound` — what is read is what the file has;
* `replay_reads` — any outcomes: a first part of the records is applied, and the offset of the last
  good record cuts the file behind them; with outcomes that cut no header nothing is missing.
-/

namespace VeriStore.Log

open VeriStore.Lib

/-- How a `read` goes: it gives at most `n + 1` bytes, is interrupted, or fails. -/
inductive ReadOutcome where
  | bytes (n : ℕ)
  | interrupted
  | failed
  deriving DecidableEq

/-- The outcome loses nothing: a read that does not fail and has room for a header. -/
def ReadOutcome.Whole : ReadOutcome → Prop
  | .bytes n => sizeofHeader ≤ n + 1
  | .interrupted => True
  | .failed => False

instance : (o : ReadOutcome) → Decidable o.Whole
  | .bytes _ => inferInstanceAs (Decidable (_ ≤ _))
  | .interrupted => isTrue trivial
  | .failed => isFalse id

/-! ### Reading -/

/-- `read_exact`: exactly `want` bytes, by as many calls as it takes. -/
def readExactWith : ℕ → Bytes → List ReadOutcome → Option (Bytes × Bytes × List ReadOutcome)
  | want, s, [] => (readExact want s).map fun (a, rest) => (a, rest, [])
  | want, s, o :: os =>
    if want = 0 then some ([], s, o :: os)
    else
      match o with
      | .interrupted => readExactWith want s os
      | .failed => none
      | .bytes n =>
        let k := min (n + 1) (min want s.length)
        -- no bytes are given at the end of the file
        if k = 0 then none
        else (readExactWith (want - k) (s.drop k) os).map fun (a, rest, os') =>
          (s.take k ++ a, rest, os')

/-- The call that reads a header; an interrupted one is made again. -/
def readHeaderWith (s : Bytes) : List ReadOutcome → Option (Bytes × Bytes × List ReadOutcome)
  | [] => (readExact sizeofHeader s).map fun (a, rest) => (a, rest, [])
  | .interrupted :: os => readHeaderWith s os
  | .failed :: _ => none
  | .bytes n :: os =>
    if n + 1 < sizeofHeader then none
    else (readExact sizeofHeader s).map fun (a, rest) => (a, rest, os)

def WalHeader.readValueWith (h : WalHeader) (s : Bytes) (os : List ReadOutcome) :
    Option (Bytes × Bytes × List ReadOutcome) :=
  if h.type = RecordType.put.code then readExactWith h.valLen s os else some ([], s, os)

/-- One turn of the replay loop. -/
def readRecordWith (s : Bytes) (os : List ReadOutcome) :
    Option (Record × Bytes × List ReadOutcome) := do
  let (hb, s1, os1) ← readHeaderWith s os
  let h := WalHeader.ofBytes hb
  guard (h.magic = kMagic ∧ h.version = kVersion)
  guard (h.type = RecordType.put.code ∨ h.type = RecordType.del.code)
  let (key, s2, os2) ← readExactWith h.keyLen s1 os1
  let (val, s3, os3) ← h.readValueWith s2 os2
  let (stored, s4, os4) ← readExactWith 4 s3 os3
  guard ((checksum hb key val).toNat = leNat stored)
  return (⟨h.seq, key, if h.type = RecordType.put.code then some val else none⟩, s4, os4)

/-- The loop of `replay_into`; `seeks` says whether the calls that ask for the offset behind a record
succeed. -/
def replayLoopWith {σ : Type} (apply : σ → Record → σ) :
    ℕ → Bytes → List ReadOutcome → List Bool → Replay σ → Replay σ
  | 0, _, _, _, st => st
  | n + 1, s, os, seeks, st =>
    match readRecordWith s os with
    | none => st
    | some (r, s', os') =>
      let st' : Replay σ := ⟨apply st.store r, max st.maxSeq r.seq, st.lastGood⟩
      match seeks with
      | false :: _ => st'
      | _ => replayLoopWith apply n s' os' seeks.tail
          { st' with lastGood := st.lastGood + (s.length - s'.length) }

def Wal.replayIntoWith {σ : Type} (w : Wal) (file : Bytes) (apply : σ → Record → σ) (store : σ)
    (seekOk : Bool) (os : List ReadOutcome) (seeks : List Bool) : Bool × Wal × Replay σ :=
  if w.fd.isNone || !seekOk then (false, w, ⟨store, 0, 0⟩)
  else
    let out := replayLoopWith apply file.length file os seeks ⟨store, 0, 0⟩
    (true, { w with fd := some file.length, lastGoodOffset := out.lastGood }, out)

/-! ### What is read is in the file -/

lemma readExact_add {m n : ℕ} {s a rest : Bytes} (h : readExact n (s.drop m) = some (a, rest))
    (hm : m ≤ s.length) : readExact (m + n) s = some (s.take m ++ a, rest) := by
  obtain ⟨hs, rfl⟩ := readExact_eq_some h
  have hsplit : s = (s.take m ++ a) ++ rest := by
    rw [List.append_assoc, ← hs, List.take_append_drop]
  have hlen : (s.take m ++ a).length = m + a.length := by
    rw [List.length_append, List.length_take, min_eq_left hm]
  conv_lhs => rw [hsplit, ← hlen]
  exact readExact_append _ _

lemma readExactWith_sound {want : ℕ} {s a rest : Bytes} {os os' : List ReadOutcome}
    (h : readExactWith want s os = some (a, rest, os')) :
    readExact want s = some (a, rest) ∧ os' <:+ os := by
  induction os generalizing want s a with
  | nil =>
    obtain ⟨⟨b, rest'⟩, hb, he⟩ := Option.map_eq_some_iff.mp h
    simp only [Prod.mk.injEq] at he
    obtain ⟨rfl, rfl, rfl⟩ := he
    exact ⟨hb, List.suffix_rfl⟩
  | cons o os ih =>
    unfold readExactWith at h
    split at h
    · next hw =>
      simp only [Option.some.injEq, Prod.mk.injEq] at h
      obtain ⟨rfl, rfl, rfl⟩ := h
      exact ⟨by simp [readExact, hw], List.suffix_rfl⟩
    · cases o with
      | interrupted =>
        obtain ⟨hread, hsuf⟩ := ih h
        exact ⟨hread, hsuf.trans (List.suffix_cons _ _)⟩
      | failed => simp at h
      | bytes n =>
        simp only at h
        split at h
        · simp at h
        · obtain ⟨⟨b, rest', os''⟩, hb, he⟩ := Option.map_eq_some_iff.mp h
          simp only [Prod.mk.injEq] at he
          obtain ⟨rfl, rfl, rfl⟩ := he
          obtain ⟨hread, hsuf⟩ := ih hb
          have hall := readExact_add hread (by omega)
          rw [Nat.add_sub_cancel' (by omega)] at hall
          exact ⟨hall, hsuf.trans (List.suffix_cons _ _)⟩

lemma readHeaderWith_sound {s a rest : Bytes} {os os' : List ReadOutcome}
    (h : readHeaderWith s os = some (a, rest, os')) :
    readExact sizeofHeader s = some (a, rest) ∧ os' <:+ os := by
  induction os with
  | nil =>
    obtain ⟨⟨b, rest'⟩, hb, he⟩ := Option.map_eq_some_iff.mp h
    simp only [Prod.mk.injEq] at he
    obtain ⟨rfl, rfl, rfl⟩ := he
    exact ⟨hb, List.suffix_rfl⟩
  | cons o os ih =>
    cases o with
    | interrupted =>
      obtain ⟨hread, hsuf⟩ := ih h
      exact ⟨hread, hsuf.trans (List.suffix_cons _ _)⟩
    | failed => simp [readHeaderWith] at h
    | bytes n =>
      unfold readHeaderWith at h
      split at h
      · simp at h
      · obtain ⟨⟨b, rest'⟩, hb, he⟩ := Option.map_eq_some_iff.mp h
        simp only [Prod.mk.injEq] at he
        obtain ⟨rfl, rfl, rfl⟩ := he
        exact ⟨hb, List.suffix_cons _ _⟩

lemma WalHeader.readValueWith_sound {h : WalHeader} {s a rest : Bytes} {os os' : List ReadOutcome}
    (hr : h.readValueWith s os = some (a, rest, os')) :
    h.readValue s = some (a, rest) ∧ os' <:+ os := by
  unfold readValueWith at hr
  unfold readValue
  split at hr
  · next hp =>
    rw [if_pos hp]
    exact readExactWith_sound hr
  · next hp =>
    simp only [Option.some.injEq, Prod.mk.injEq] at hr
    obtain ⟨rfl, rfl, rfl⟩ := hr
    exact ⟨by rw [if_neg hp], List.suffix_rfl⟩

/-- **A record that is read** is the one that the file has. -/
theorem readRecordWith_sound {s s' : Bytes} {r : Record} {os os' : List ReadOutcome}
    (h : readRecordWith s os = some (r, s', os')) : readRecord s = some (r, s') ∧ os' <:+ os := by
  simp only [readRecordWith, Option.bind_eq_bind, Option.bind_eq_some_iff, Option.guard_eq_some',
    exists_const, Prod.exists, Option.pure_def, Option.some.injEq, Prod.mk.injEq] at h
  obtain ⟨hb, s1, os1, h1, hm, hty, key, s2, os2, h2, val, s3, os3, h3, stored, s4, os4, h4, hcrc,
    rfl, rfl, rfl⟩ := h
  obtain ⟨e1, hs1⟩ := readHeaderWith_sound h1
  obtain ⟨e2, hs2⟩ := readExactWith_sound h2
  obtain ⟨e3, hs3⟩ := WalHeader.readValueWith_sound h3
  obtain ⟨e4, hs4⟩ := readExactWith_sound h4
  refine ⟨?_, ((hs4.trans hs3).trans hs2).trans hs1⟩
  simp only [readRecord, Option.bind_eq_bind, Option.bind_eq_some_iff, Option.guard_eq_some',
    exists_const, Prod.exists, Option.pure_def, Option.some.injEq, Prod.mk.injEq]
  exact ⟨hb, s1, e1, hm, hty, key, s2, e2, val, s3, e3, stored, s4, e4, hcrc, rfl, rfl⟩

/-! ### Calls that cut nothing -/

lemma readExact_drop {n k : ℕ} {s a rest : Bytes} (h : readExact n s = some (a, rest)) (hk : k ≤ n) :
    readExact (n - k) (s.drop k) = some (a.drop k, rest) := by
  obtain ⟨rfl, rfl⟩ := readExact_eq_some h
  rw [List.drop_append_of_le_length hk, ← List.length_drop]
  exact readExact_append _ _

/-- A loop of calls that do not fail reads what one call would. -/
lemma readExactWith_whole {want : ℕ} {s a rest : Bytes} {os : List ReadOutcome}
    (h : readExact want s = some (a, rest)) (hos : ∀ o ∈ os, o.Whole) :
    ∃ os', readExactWith want s os = some (a, rest, os') := by
  induction os generalizing want s a with
  | nil => exact ⟨[], by simp [readExactWith, h]⟩
  | cons o os ih =>
    have ih' := fun {want s a} (h : readExact want s = some (a, rest)) =>
      ih h fun x hx => hos x (List.mem_cons_of_mem o hx)
    obtain ⟨hs, hlen⟩ := readExact_eq_some h
    by_cases hw : want = 0
    · subst hw
      have ha : a = [] := List.eq_nil_of_length_eq_zero hlen
      exact ⟨o :: os, by simp [readExactWith, hs, ha]⟩
    · cases o with
      | failed => exact absurd (hos .failed (by simp)) id
      | interrupted =>
        obtain ⟨os', h'⟩ := ih' h
        exact ⟨os', by simp [readExactWith, hw, h']⟩
      | bytes n =>
        have hle : want ≤ s.length := by
          rw [hs, List.length_append]
          omega
        obtain ⟨os', h'⟩ := ih' (readExact_drop h (show min (n + 1) want ≤ want from min_le_right _ _))
        refine ⟨os', ?_⟩
        have hk : min (n + 1) (min want s.length) = min (n + 1) want := by rw [min_eq_left hle]
        have hpos : min (n + 1) want ≠ 0 := by omega
        have htake : s.take (min (n + 1) want) = a.take (min (n + 1) want) := by
          rw [hs, List.take_append_of_le_length (by omega)]
        simp [readExactWith, hw, hk, hpos, h', htake]

lemma readHeaderWith_whole {s a rest : Bytes} {os : List ReadOutcome}
    (h : readExact sizeofHeader s = some (a, rest)) (hos : ∀ o ∈ os, o.Whole) :
    ∃ os', readHeaderWith s os = some (a, rest, os') := by
  induction os with
  | nil => exact ⟨[], by simp [readHeaderWith, h]⟩
  | cons o os ih =>
    cases o with
    | failed => exact absurd (hos .failed (by simp)) id
    | interrupted => exact ih fun x hx => hos x (List.mem_cons_of_mem _ hx)
    | bytes n =>
      have hn : sizeofHeader ≤ n + 1 := hos (.bytes n) (by simp)
      exact ⟨os, by simp [readHeaderWith, not_lt.mpr hn, h]⟩

lemma WalHeader.readValueWith_whole {h : WalHeader} {s a rest : Bytes} {os : List ReadOutcome}
    (hr : h.readValue s = some (a, rest)) (hos : ∀ o ∈ os, o.Whole) :
    ∃ os', h.readValueWith s os = some (a, rest, os') := by
  unfold readValue at hr
  unfold readValueWith
  split at hr
  · next hp =>
    simp only [hp, if_true]
    exact readExactWith_whole hr hos
  · next hp =>
    simp only [Option.some.injEq, Prod.mk.injEq] at hr
    obtain ⟨rfl, rfl⟩ := hr
    exact ⟨os, by simp [hp]⟩

/-- **A record of the file is read** when no call fails and no header is cut. -/
theorem readRecordWith_whole {s s' : Bytes} {r : Record} {os : List ReadOutcome}
    (h : readRecord s = some (r, s')) (hos : ∀ o ∈ os, o.Whole) :
    ∃ os', readRecordWith s os = some (r, s', os') := by
  simp only [readRecord, Option.bind_eq_bind, Option.bind_eq_some_iff, Option.guard_eq_some',
    exists_const, Prod.exists, Option.pure_def, Option.some.injEq, Prod.mk.injEq] at h
  obtain ⟨hb, s1, e1, hm, hty, key, s2, e2, val, s3, e3, stored, s4, e4, hcrc, rfl, rfl⟩ := h
  obtain ⟨os1, h1⟩ := readHeaderWith_whole e1 hos
  have hos1 : ∀ o ∈ os1, o.Whole := fun o ho => hos o ((readHeaderWith_sound h1).2.subset ho)
  obtain ⟨os2, h2⟩ := readExactWith_whole e2 hos1
  have hos2 : ∀ o ∈ os2, o.Whole := fun o ho => hos1 o ((readExactWith_sound h2).2.subset ho)
  obtain ⟨os3, h3⟩ := WalHeader.readValueWith_whole e3 hos2
  have hos3 : ∀ o ∈ os3, o.Whole :=
    fun o ho => hos2 o ((WalHeader.readValueWith_sound h3).2.subset ho)
  obtain ⟨os4, h4⟩ := readExactWith_whole e4 hos3
  refine ⟨os4, ?_⟩
  simp only [readRecordWith, Option.bind_eq_bind, Option.bind_eq_some_iff, Option.guard_eq_some',
    exists_const, Prod.exists, Option.pure_def, Option.some.injEq, Prod.mk.injEq]
  exact ⟨hb, s1, os1, h1, hm, hty, key, s2, os2, h2, val, s3, os3, h3, stored, s4, os4, h4, hcrc,
    rfl, rfl, rfl⟩

/-- A loop whose calls cut nothing is the loop over the whole file. -/
lemma replayLoopWith_whole {σ : Type} (apply : σ → Record → σ) {n : ℕ} {s : Bytes}
    {os : List ReadOutcome} {seeks : List Bool} (hos : ∀ o ∈ os, o.Whole) (hseeks : false ∉ seeks)
    (st : Replay σ) : replayLoopWith apply n s os seeks st = replayLoop apply n s st := by
  induction n generalizing s os seeks st with
  | zero => rfl
  | succ n ih =>
    cases hread : readRecord s with
    | none =>
      have hnone : readRecordWith s os = none := by
        cases hw : readRecordWith s os with
        | none => rfl
        | some p => rw [(readRecordWith_sound hw).1] at hread; cases hread
      simp [replayLoopWith, replayLoop, hread, hnone]
    | some p =>
      obtain ⟨r, s'⟩ := p
      obtain ⟨os', hw⟩ := readRecordWith_whole hread hos
      have hos' : ∀ o ∈ os', o.Whole := fun o ho => hos o ((readRecordWith_sound hw).2.subset ho)
      have htail : false ∉ seeks.tail := fun h => hseeks (List.mem_of_mem_tail h)
      have hgo := fun st => ih (s := s') hos' htail st
      unfold replayLoopWith replayLoop
      rw [hw, hread]
      cases seeks with
      | nil => exact hgo _
      | cons b seeks =>
        cases b with
        | false => exact absurd (by simp) hseeks
        | true => exact hgo _

/-! ### Any calls -/

/-- The records stand at the front of the file, and `t` behind them. -/
inductive Front : Bytes → List Record → Bytes → Prop
  | stop (s : Bytes) : Front s [] s
  | next {s s' t : Bytes} {r : Record} {rs : List Record} (h : readRecord s = some (r, s'))
      (hrest : Front s' rs t) : Front s (r :: rs) t

section Front

variable {s t : Bytes} {rs : List Record}

lemma Front.records_prefix (h : Front s rs t) : rs <+: records s := by
  induction h with
  | stop s => exact List.nil_prefix
  | next h _ ih =>
    rw [records_of_some h]
    exact List.prefix_cons_inj _ |>.mpr ih

/-- The bytes of the records are a log of their own, that goes on with what is put behind it. -/
lemma Front.split (h : Front s rs t) : ∃ c, s = c ++ t ∧
    ∀ S : List Record, (∀ r ∈ S, r.Fits) → records (c ++ encode S) = rs ++ S := by
  induction h with
  | stop s => exact ⟨[], rfl, fun S hS => by simpa using records_encode hS []⟩
  | next h _ ih =>
    obtain ⟨c₁, rfl, -, hlocal⟩ := readRecord_local h
    obtain ⟨c, rfl, hgo⟩ := ih
    refine ⟨c₁ ++ c, by simp, fun S hS => ?_⟩
    rw [List.append_assoc, records_of_some (hlocal _), hgo S hS, List.cons_append]

lemma Front.take (h : Front s rs t) {S : List Record} (hS : ∀ r ∈ S, r.Fits) :
    records (s.take (s.length - t.length) ++ encode S) = rs ++ S := by
  obtain ⟨c, rfl, hgo⟩ := h.split
  have hlen : (c ++ t).length - t.length = c.length := by simp
  rw [hlen, List.take_left]
  exact hgo S hS

end Front

/-- **What the loop has done**, however its calls went: it applied the records `rs` of the front of
the file, and the offset is behind all of them or, when the last seek failed, all but one. -/
lemma replayLoopWith_front {σ : Type} (apply : σ → Record → σ) (n : ℕ) (s : Bytes)
    (os : List ReadOutcome) (seeks : List Bool) (st : Replay σ) :
    ∃ rs kept t t', Front s rs t ∧ Front s kept t' ∧ (kept = rs ∨ ∃ r, rs = kept ++ [r]) ∧
      t'.length ≤ s.length ∧ replayLoopWith apply n s os seeks st =
        ⟨rs.foldl apply st.store, rs.foldl (fun m r => max m r.seq) st.maxSeq,
          st.lastGood + (s.length - t'.length)⟩ := by
  induction n generalizing s os seeks st with
  | zero => exact ⟨[], [], s, s, .stop s, .stop s, Or.inl rfl, le_rfl, by simp [replayLoopWith]⟩
  | succ n ih =>
    unfold replayLoopWith
    cases hw : readRecordWith s os with
    | none => exact ⟨[], [], s, s, .stop s, .stop s, Or.inl rfl, le_rfl, by simp⟩
    | some p =>
      obtain ⟨r, s', os'⟩ := p
      obtain ⟨hread, -⟩ := readRecordWith_sound hw
      have hlt := readRecord_length hread
      have hfront {rs : List Record} {t : Bytes} (h : Front s' rs t) : Front s (r :: rs) t :=
        .next hread h
      -- the loop goes on behind the record
      have hgo (seeks : List Bool) : ∃ rs kept t t', Front s rs t ∧ Front s kept t' ∧
          (kept = rs ∨ ∃ r, rs = kept ++ [r]) ∧ t'.length ≤ s.length ∧
          replayLoopWith apply n s' os' seeks ⟨apply st.store r, max st.maxSeq r.seq,
            st.lastGood + (s.length - s'.length)⟩ =
          ⟨rs.foldl apply st.store, rs.foldl (fun m r => max m r.seq) st.maxSeq,
            st.lastGood + (s.length - t'.length)⟩ := by
        obtain ⟨rs, kept, t, t', hf, hk, hor, hle, heq⟩ := ih s' os' seeks
          ⟨apply st.store r, max st.maxSeq r.seq, st.lastGood + (s.length - s'.length)⟩
        refine ⟨r :: rs, r :: kept, t, t', hfront hf, hfront hk, ?_, by omega, ?_⟩
        · rcases hor with rfl | ⟨x, rfl⟩
          · exact Or.inl rfl
          · exact Or.inr ⟨x, rfl⟩
        · rw [heq]
          simp only [List.foldl_cons, Replay.mk.injEq, true_and]
          omega
      cases seeks with
      | nil => exact hgo []
      | cons b seeks =>
        cases b with
        | true => exact hgo seeks
        | false => exact ⟨[r], [], s', s, hfront (.stop s'), .stop s, Or.inr ⟨r, rfl⟩, le_rfl, by simp⟩

end VeriStore.Log

import VeriStore.Lib.Updates
import VeriStore.Sstable.Format
import VeriStore.Store.Spec

/-!
The version snapshot and what the loader makes of it.

A checkpoint writes one line for each version of the memtable, and the loader stores the versions
of the lines again, one after the other, until a line that it cannot parse. `Contents` says which
versions a store holds: the memtable has them all and the map has the newest of each key. Loading
lines and applying records of the log both add versions to the contents.

The first bytes of a snapshot give the rows that are whole, and the last line is refused or is a
value that lost its end (`loadLines_take`).
-/

namespace VeriStore.Store

open VeriStore.Lib VeriStore.Sstable VeriStore.Log

/-! ### The contents of a store -/

/-- The map after a version was stored. -/
def latest (map : Std.ExtTreeMap Bytes Bytes) (r : Row) : Std.ExtTreeMap Bytes Bytes :=
  match r.2.value with
  | some x => map.insert r.1 x
  | none => map.erase r.1

/-- **The map and the memtable hold the versions `rs`**, which were stored in this order. -/
structure Contents (map : Std.ExtTreeMap Bytes Bytes) (entries : Entries) (rs : List Row) : Prop where
  entries : entries = pushRows ∅ rs
  map : ∀ key : Bytes, map[key]? = (versionsIn rs key).getLast?.bind Version.value

lemma Contents.nil : Contents ∅ ∅ [] := ⟨rfl, fun key => by simp [versionsIn]⟩

lemma latest_eq (map : Std.ExtTreeMap Bytes Bytes) (r : Row) :
    latest map r = update map (r.1, r.2.value) := by
  unfold latest update
  cases r.2.value <;> rfl

lemma getElem?_latest (map : Std.ExtTreeMap Bytes Bytes) (r : Row) (key : Bytes) :
    (latest map r)[key]? = if r.1 = key then r.2.value else map[key]? := by
  rw [latest_eq, getElem?_update]

lemma versionsIn_concat (rs : List Row) (r : Row) (key : Bytes) :
    versionsIn (rs ++ [r]) key = if r.1 = key then versionsIn rs key ++ [r.2] else versionsIn rs key := by
  rw [versionsIn_append]
  by_cases hk : r.1 = key <;> simp [versionsIn, hk]

/-- **One more version.** -/
lemma Contents.push {map : Std.ExtTreeMap Bytes Bytes} {entries : Entries} {rs : List Row}
    (h : Contents map entries rs) (r : Row) :
    Contents (latest map r) (pushVersion entries r.1 r.2) (rs ++ [r]) := by
  constructor
  · rw [h.entries, pushRows, pushRows, List.foldl_append]
    rfl
  · intro key
    rw [getElem?_latest, versionsIn_concat]
    split
    · simp
    · exact h.map key

/-- The versions determine the map and the memtable. -/
lemma Contents.unique {map map' : Std.ExtTreeMap Bytes Bytes} {entries entries' : Entries}
    {rs : List Row} (h : Contents map entries rs) (h' : Contents map' entries' rs) :
    map = map' ∧ entries = entries' :=
  ⟨Std.ExtTreeMap.ext_getElem? fun key => (h.map key).trans (h'.map key).symm,
    h.entries.trans h'.entries.symm⟩

lemma Contents.versionsOf_eq {map : Std.ExtTreeMap Bytes Bytes} {entries : Entries} {rs : List Row}
    (h : Contents map entries rs) (key : Bytes) : versionsOf entries key = versionsIn rs key := by
  rw [h.entries, versionsOf_pushRows]
  simp [versionsOf]

/-! ### Records of the log -/

/-- The version of a record. -/
def recordRow (r : Record) : Row := (r.key, ⟨r.seq, r.value⟩)

lemma KVStore.applyRecord_eq (s : KVStore) (r : Record) :
    (s.applyRecord r).map = latest s.map (recordRow r) ∧
      (s.applyRecord r).memtable.entries =
        pushVersion s.memtable.entries (recordRow r).1 (recordRow r).2 := by
  obtain ⟨seq, key, value⟩ := r
  cases value with
  | none => exact ⟨rfl, rfl⟩
  | some v => exact ⟨rfl, rfl⟩

/-- **The records of the log add their versions.** -/
lemma Contents.applyRecords {s : KVStore} {rs : List Row} (h : Contents s.map s.memtable.entries rs)
    (ws : List Record) : Contents (s.applyRecords ws).map (s.applyRecords ws).memtable.entries
      (rs ++ ws.map recordRow) := by
  induction ws generalizing s rs with
  | nil => simpa [KVStore.applyRecords] using h
  | cons w ws ih =>
    obtain ⟨e1, e2⟩ := s.applyRecord_eq w
    have hw := h.push (recordRow w)
    rw [← e1, ← e2] at hw
    simpa [KVStore.applyRecords] using ih hw

/-! ### Lines -/

/-- A row that the snapshot can hold: the key has neither a tab nor a newline and the value has no
newline. -/
structure LineOk (r : Row) : Prop where
  noTab : tab ∉ r.1
  noNewline : newline ∉ r.1
  timestamp_lt : r.2.timestamp < 2 ^ 64
  value : ∀ x, r.2.value = some x → newline ∉ x

lemma RowOk.lineOk {r : Row} (h : RowOk r) : LineOk r where
  noTab hm := absurd (h.word.2 tab hm) (by decide)
  noNewline := newline_notMem_of_word h.word
  timestamp_lt := h.timestamp_lt
  value x hx := (h.clean x hx).1

lemma LineOk.newline_notMem {r : Row} (h : LineOk r) : newline ∉ rowText r.1 r.2 := by
  obtain ⟨key, ts, value⟩ := r
  have hk := h.noNewline
  have ht := newline_notMem_decimal ts
  have hn : newline ≠ tab ∧ newline ≠ letterP ∧ newline ≠ letterD := by decide
  cases value with
  | none => simp_all [rowText]
  | some x =>
    have hx := h.value x rfl
    simp_all [rowText]

lemma splitTab_append {a : Bytes} (ha : tab ∉ a) (s : Bytes) :
    splitTab (a ++ tab :: s) = some (a, s) := by
  have hp : ∀ b ∈ a, (fun b => decide (b ≠ tab)) b = true := fun b hb => by
    simpa using fun h : b = tab => ha (h ▸ hb)
  obtain ⟨h1, h2⟩ := takeWhile_append_stop (s := tab :: s) hp (by rintro b ⟨⟩; simp)
  unfold splitTab
  rw [if_pos (by simp), h1, h2, List.tail_cons]

lemma splitTab_none {a : Bytes} (ha : tab ∉ a) : splitTab a = none := by
  simp [splitTab, ha]

lemma tab_notMem_decimal (n : ℕ) : tab ∉ decimal n := fun hm =>
  absurd (isDigit_of_mem_decimal n tab hm) (by decide)

/-- A line of the snapshot stores its version. -/
def LoadState.row (st : LoadState) (r : Row) : LoadState where
  map := latest st.map r
  memtable :=
    match r.2.value with
    | some x => st.memtable.put r.1 r.2.timestamp x
    | none => st.memtable.del r.1 r.2.timestamp
  seq := max st.seq r.2.timestamp

/-- The row that the loader makes of a line; `none` where it returns false. -/
def lineRow (line : Bytes) : Option Row := do
  let (key, r1) ← splitTab line
  let (timestampText, r2) ← splitTab r1
  let third := splitTab r2
  let type := (third.map (·.1)).getD r2
  let (timestamp, _) ← extractU64 timestampText
  if type = [letterP] then
    let (_, value) ← third
    some (key, ⟨timestamp, some value⟩)
  else if type = [letterD] then
    some (key, ⟨timestamp, none⟩)
  else none

/-- **A line stores its row.** -/
lemma loadLine_eq (st : LoadState) (line : Bytes) : loadLine st line = (lineRow line).map st.row := by
  unfold loadLine lineRow
  cases splitTab line with
  | none => rfl
  | some p =>
    simp only [Option.bind_eq_bind, Option.bind_some]
    cases splitTab p.2 with
    | none => rfl
    | some q =>
      simp only [Option.bind_some]
      cases extractU64 q.1 with
      | none => rfl
      | some n =>
        simp only [Option.bind_some]
        split
        · cases splitTab q.2 <;> rfl
        · split
          · rfl
          · rfl

/-- The fields of a line up to its type. -/
lemma lineRow_fields {key : Bytes} (hk : tab ∉ key) {ts : ℕ} (hts : ts < 2 ^ 64) (rest : Bytes) :
    lineRow (key ++ tab :: (decimal ts ++ tab :: rest)) =
      (let third := splitTab rest
      let type := (third.map (·.1)).getD rest
      if type = [letterP] then third.bind fun p => some (key, ⟨ts, some p.2⟩)
      else if type = [letterD] then some (key, ⟨ts, none⟩)
      else none) := by
  have hu : extractU64 (decimal ts) = some (ts, []) := by
    simpa using extractU64_decimal hts (s := []) (by simp)
  simp only [lineRow, splitTab_append hk, splitTab_append (tab_notMem_decimal ts), hu,
    Option.bind_eq_bind, Option.bind_some]

/-- **The text of a row is read.** -/
lemma lineRow_rowText {r : Row} (h : LineOk r) : lineRow (rowText r.1 r.2) = some r := by
  obtain ⟨key, ts, value⟩ := r
  rw [rowText_eq, lineRow_fields h.noTab h.timestamp_lt]
  cases value with
  | none =>
    have hD : splitTab [letterD] = none := by decide
    have hne : letterD ≠ letterP := by decide
    simp [rowType, hD, hne]
  | some x =>
    have hP : splitTab (letterP :: tab :: x) = some ([letterP], x) :=
      splitTab_append (a := [letterP]) (by decide) x
    simp [rowType, hP]

lemma loadLine_rowText {r : Row} (h : LineOk r) (st : LoadState) :
    loadLine st (rowText r.1 r.2) = some (st.row r) := by
  rw [loadLine_eq, lineRow_rowText h, Option.map_some]

lemma Contents.row {st : LoadState} {rs : List Row} (h : Contents st.map st.memtable.entries rs)
    (r : Row) : Contents (st.row r).map (st.row r).memtable.entries (rs ++ [r]) := by
  have hentries : (st.row r).memtable.entries = pushVersion st.memtable.entries r.1 r.2 := by
    obtain ⟨key, ts, value⟩ := r
    cases value <;> rfl
  rw [hentries]
  exact h.push r

lemma Contents.rows {st : LoadState} {rs : List Row} (h : Contents st.map st.memtable.entries rs)
    (rs' : List Row) : Contents (rs'.foldl LoadState.row st).map
      (rs'.foldl LoadState.row st).memtable.entries (rs ++ rs') := by
  induction rs' generalizing st rs with
  | nil => simpa using h
  | cons r rs' ih => simpa using ih (h.row r)

/-! ### The first bytes of a snapshot -/

/-- Where the value begins in the line of a row. -/
def valueStart (r : Row) : ℕ := r.1.length + (decimal r.2.timestamp).length + 4

/-- The rows that the loader makes of the first `n` bytes of a line, `n` less than its length: a
value that lost its end, or nothing. -/
def cutRow (r : Row) (n : ℕ) : List Row :=
  match r.2.value with
  | some x => if valueStart r ≤ n then [(r.1, ⟨r.2.timestamp, some (x.take (n - valueStart r))⟩)] else []
  | none => []

/-- The rows that are whole in the first `n` bytes; the last one may lack its newline. -/
def wholeRows : List Row → ℕ → List Row
  | [], _ => []
  | r :: rs, n =>
    if (rowText r.1 r.2).length ≤ n then r :: wholeRows rs (n - (rowText r.1 r.2).length - 1) else []

/-- What the loader makes of the line that the first `n` bytes cut. -/
def cutRows : List Row → ℕ → List Row
  | [], _ => []
  | r :: rs, n =>
    if (rowText r.1 r.2).length ≤ n then cutRows rs (n - (rowText r.1 r.2).length - 1) else cutRow r n

lemma rowText_length_pos (r : Row) : 0 < (rowText r.1 r.2).length :=
  List.length_pos_of_ne_nil (rowText_ne_nil r.1 r.2)

/-- The first field of a line is not complete without a tab behind it. -/
lemma lineRow_of_none {line : Bytes} (h : splitTab line = none) : lineRow line = none := by
  simp [lineRow, h]

lemma lineRow_of_one_tab {key rest : Bytes} (hk : tab ∉ key) (hr : tab ∉ rest) :
    lineRow (key ++ tab :: rest) = none := by
  simp [lineRow, splitTab_append hk, splitTab_none hr]

lemma cutRow_eq_nil {r : Row} {n : ℕ} (h : n < valueStart r) : cutRow r n = [] := by
  unfold cutRow
  split
  · rw [if_neg (by omega)]
  · rfl

/-- **A cut line** is refused, or it is a value that lost its end. -/
lemma lineRow_cut {r : Row} (h : LineOk r) {n : ℕ} (hn : n < (rowText r.1 r.2).length) :
    lineRow ((rowText r.1 r.2).take n) = (cutRow r n).head? := by
  obtain ⟨key, ts, value⟩ := r
  have hk : tab ∉ key := h.noTab
  set dec := decimal ts with hdec
  have htext : rowText key ⟨ts, value⟩ =
      key ++ tab :: (dec ++ tab :: ((rowType ⟨ts, value⟩).1 :: (rowType ⟨ts, value⟩).2)) :=
    rowText_eq key ⟨ts, value⟩
  simp only [htext] at hn ⊢
  have hstart : valueStart (key, ⟨ts, value⟩) = key.length + dec.length + 4 := rfl
  -- inside the key, inside the timestamp, or behind the second tab
  by_cases h1 : n ≤ key.length
  · rw [List.take_append_of_le_length h1, lineRow_of_none]
    · rw [cutRow_eq_nil (by omega)]
      rfl
    · exact splitTab_none fun hm => hk (List.mem_of_mem_take hm)
  by_cases h2 : n ≤ key.length + 1 + dec.length
  · have htake : (key ++ tab :: (dec ++ tab :: ((rowType ⟨ts, value⟩).1 ::
        (rowType ⟨ts, value⟩).2))).take n = key ++ tab :: dec.take (n - key.length - 1) := by
      rw [List.take_append, List.take_of_length_le (by omega),
        show n - key.length = (n - key.length - 1) + 1 by omega, List.take_succ_cons,
        List.take_append_of_le_length (by omega)]
      simp
    rw [htake, lineRow_of_one_tab hk fun hm => tab_notMem_decimal ts (List.mem_of_mem_take hm)]
    rw [cutRow_eq_nil (by omega)]
    rfl
  obtain ⟨m, rfl⟩ : ∃ m, n = key.length + 1 + dec.length + 1 + m :=
    ⟨n - (key.length + 1 + dec.length + 1), by omega⟩
  have htake : ∀ q : Bytes, (key ++ tab :: (dec ++ tab :: q)).take (key.length + 1 + dec.length + 1 + m) =
      key ++ tab :: (dec ++ tab :: q.take m) := fun q => by
    rw [List.take_append, List.take_of_length_le (by omega),
      show key.length + 1 + dec.length + 1 + m - key.length = (dec.length + 1 + m) + 1 by omega,
      List.take_succ_cons, List.take_append, List.take_of_length_le (by omega),
      show dec.length + 1 + m - dec.length = m + 1 by omega, List.take_succ_cons]
  rw [htake, lineRow_fields hk h.timestamp_lt]
  cases value with
  | none =>
    obtain rfl : m = 0 := by
      simp [rowType] at hn
      omega
    simp [cutRow, splitTab]
  | some x =>
    obtain rfl | rfl | ⟨m, rfl⟩ : m = 0 ∨ m = 1 ∨ ∃ i, m = i + 2 := by
      by_cases h2 : 2 ≤ m
      · exact Or.inr (Or.inr ⟨m - 2, by omega⟩)
      · omega
    · rw [cutRow_eq_nil (by omega)]
      simp [splitTab]
    · have hP : splitTab [letterP] = none := by decide
      rw [cutRow_eq_nil (by omega)]
      simp [rowType, hP]
    · have hP : splitTab (letterP :: tab :: x.take m) = some ([letterP], x.take m) :=
        splitTab_append (a := [letterP]) (by decide) (x.take m)
      have hle : key.length + dec.length + 4 ≤ key.length + 1 + dec.length + 1 + (m + 2) := by omega
      have hsub : key.length + 1 + dec.length + 1 + (m + 2) - (key.length + dec.length + 4) = m := by omega
      simp [rowType, cutRow, hP, hstart, hle, hsub]

lemma wholeRows_zero (rs : List Row) : wholeRows rs 0 = [] := by
  cases rs with
  | nil => rfl
  | cons r rs => rw [wholeRows, if_neg (Nat.not_le.mpr (rowText_length_pos r))]

lemma cutRows_zero (rs : List Row) : cutRows rs 0 = [] := by
  cases rs with
  | nil => rfl
  | cons r rs =>
    rw [cutRows, if_neg (Nat.not_le.mpr (rowText_length_pos r)), cutRow_eq_nil]
    unfold valueStart
    omega

/-- One line and no more. -/
lemma loadLines_line {l : Bytes} (hl : newline ∉ l) (st : LoadState) :
    (loadLines (lines l) st).2 = if l = [] then st else (loadLine st l).getD st := by
  by_cases hne : l = []
  · simp [hne, loadLines]
  · rw [lines_eq_singleton hne hl, if_neg hne]
    simp only [loadLines, if_neg hne]
    cases loadLine st l <;> rfl

/-- **The first bytes of a snapshot**: the whole rows are loaded, and then the cut line. -/
theorem loadLines_take {rs : List Row} (h : ∀ r ∈ rs, LineOk r) (n : ℕ) (st : LoadState) :
    (loadLines (lines ((rowsBytes rs).take n)) st).2 =
      (wholeRows rs n ++ cutRows rs n).foldl LoadState.row st := by
  induction rs generalizing n st with
  | nil => simp [wholeRows, cutRows, loadLines]
  | cons r rs ih =>
    have hr := h r (by simp)
    have hnl := hr.newline_notMem
    have ih := ih fun x hx => h x (List.mem_cons_of_mem r hx)
    rw [rowsBytes_cons, wholeRows, cutRows]
    by_cases hn : (rowText r.1 r.2).length ≤ n
    · rw [if_pos hn, if_pos hn, List.take_append, List.take_of_length_le hn]
      obtain heq | hlt := hn.eq_or_lt
      · -- the newline is missing
        rw [← heq, Nat.sub_self, Nat.zero_sub, wholeRows_zero, cutRows_zero, List.take_zero,
          List.append_nil, loadLines_line hnl, if_neg (rowText_ne_nil r.1 r.2), loadLine_rowText hr]
        rfl
      · obtain ⟨m, hm⟩ : ∃ m, n - (rowText r.1 r.2).length = m + 1 :=
          ⟨n - (rowText r.1 r.2).length - 1, by omega⟩
        rw [hm, List.take_succ_cons, lines_append hnl, Nat.add_sub_cancel]
        simp only [loadLines, if_neg (rowText_ne_nil r.1 r.2), loadLine_rowText hr, List.cons_append,
          List.foldl_cons]
        exact ih m _
    · have hlt : n < (rowText r.1 r.2).length := Nat.not_le.mp hn
      rw [if_neg hn, if_neg hn, List.take_append_of_le_length hlt.le, List.nil_append,
        loadLines_line fun hm => hnl (List.mem_of_mem_take hm)]
      split
      · next hnil =>
        obtain rfl : n = 0 := by
          rcases List.take_eq_nil_iff.mp hnil with hnil | hnil
          · exact hnil
          · exact absurd hnil (rowText_ne_nil r.1 r.2)
        rw [cutRow_eq_nil (by unfold valueStart; omega)]
        rfl
      · rw [loadLine_eq, lineRow_cut hr hlt]
        unfold cutRow
        split
        · split <;> rfl
        · rfl

end VeriStore.Store

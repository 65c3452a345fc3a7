import VeriStore.Lib.Updates
import VeriStore.Raft.Node
import VeriStore.Store.Retry

/-!
Operations that are applied again.

A node of the replicated log that is created anew applies its whole log to the store that holds the
effects of its first entries already, and the replay of the write-ahead log runs over a map that a
snapshot may have filled. Keys come and go while the operations run again, but at the end each key
has what its last operation says (`reapplied`).
-/

namespace VeriStore.Store

open VeriStore.Lib VeriStore.Log VeriStore.Raft

/-! ### Operations as updates -/

/-- What the apply thread does with an entry of the replicated log. -/
def KVStore.applyEntry (s : KVStore) (e : LogEntry) : KVStore :=
  match e.op with
  | .put => s.applyPut e.key e.value
  | .del => s.applyDel e.key

def KVStore.applyEntries (s : KVStore) (es : List LogEntry) : KVStore := es.foldl applyEntry s

/-- The update of the map by an entry. -/
def entryUpdate (e : LogEntry) : Bytes × Option Bytes :=
  (e.key, match e.op with
    | .put => some e.value
    | .del => none)

/-- The update of the map by a record of the log. -/
def recordUpdate (r : Record) : Bytes × Option Bytes := (r.key, r.value)

lemma KVStore.applyEntries_map (s : KVStore) (es : List LogEntry) :
    (s.applyEntries es).map = updates s.map (es.map entryUpdate) := by
  induction es generalizing s with
  | nil => rfl
  | cons e es ih =>
    have he : (s.applyEntry e).map = update s.map (entryUpdate e) := by
      obtain ⟨term, op, key, value⟩ := e
      cases op <;> rfl
    rw [applyEntries, List.foldl_cons, ← applyEntries, ih, he]
    rfl

lemma KVStore.applyRecords_map (s : KVStore) (rs : List Record) :
    (s.applyRecords rs).map = updates s.map (rs.map recordUpdate) := by
  induction rs generalizing s with
  | nil => rfl
  | cons r rs ih =>
    have hr : (s.applyRecord r).map = update s.map (recordUpdate r) := by
      obtain ⟨seq, key, value⟩ := r
      cases value <;> rfl
    rw [applyRecords, List.foldl_cons, ← applyRecords, ih, hr]
    rfl

/-! ### Operations over their effects -/

/-- **Operations over their own effects change nothing**: entries of the replicated log, and records
of the write-ahead log, over the effects of the first `j` of them, and with a block that is repeated
right behind itself. -/
theorem reapplied (s : KVStore) :
    (∀ (es : List LogEntry) (j : ℕ),
      ((s.applyEntries (es.take j)).applyEntries es).map = (s.applyEntries es).map) ∧
    (∀ es block es' : List LogEntry, (s.applyEntries (es ++ block ++ block ++ es')).map =
      (s.applyEntries (es ++ block ++ es')).map) ∧
    (∀ (rs : List Record) (j : ℕ),
      ((s.applyRecords (rs.take j)).applyRecords rs).map = (s.applyRecords rs).map) ∧
    (∀ rs block rs' : List Record, (s.applyRecords (rs ++ block ++ block ++ rs')).map =
      (s.applyRecords (rs ++ block ++ rs')).map) ∧
    ∀ (file : Bytes) (j : ℕ),
      ((s.applyRecords ((records file).take j)).replayedOn file).map = (s.replayedOn file).map := by
  have htake : ∀ (rs : List Record) (j : ℕ),
      ((s.applyRecords (rs.take j)).applyRecords rs).map = (s.applyRecords rs).map := by
    intro rs j
    simp only [KVStore.applyRecords_map, List.map_take, updates_take]
  refine ⟨fun es j => ?_, fun es block es' => ?_, htake, fun rs block rs' => ?_, fun file j => ?_⟩
  · simp only [KVStore.applyEntries_map, List.map_take, updates_take]
  · simp only [KVStore.applyEntries_map, List.map_append, updates_repeat]
  · simp only [KVStore.applyRecords_map, List.map_append, updates_repeat]
  · rw [KVStore.replayedOn_eq, KVStore.replayedOn_eq, htake]

/-- A key that is written and deleted: while the operations run again it is there for a moment. -/
example : ((KVStore.new.applyEntries [⟨1, .put, text "a", text "1"⟩, ⟨1, .del, text "a", []⟩]).applyEntries
    [⟨1, .put, text "a", text "1"⟩]).get (text "a") = some (text "1") := by decide +kernel

end VeriStore.Store

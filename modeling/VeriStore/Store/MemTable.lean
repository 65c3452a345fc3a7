import VeriStore.Lib.Text

/-!
Versions, lookups and the memtable.

A version is a timestamp with a value, or with none for a tombstone. The memtable keeps for each
key its versions in the order they were written, and an estimate of its size in bytes.
-/

namespace VeriStore.Store

open VeriStore.Lib

/-- A version of a key: no value is a tombstone. -/
structure Version where
  timestamp : ℕ
  value : Option Bytes
  deriving DecidableEq

/-- What a lookup in one layer of the store finds. -/
inductive LookupResult where
  | notFound
  | value (v : Bytes)
  | tombstone
  deriving DecidableEq

/-- The result of finding this version. -/
def Version.result (v : Version) : LookupResult :=
  match v.value with
  | some x => .value x
  | none => .tombstone

/-- The versions of every key, in key order. -/
abbrev Entries := Std.ExtTreeMap Bytes (List Version)

/-- `entries[key].push_back(v)`. -/
def pushVersion (entries : Entries) (key : Bytes) (v : Version) : Entries :=
  entries.alter key fun vs => some (vs.getD [] ++ [v])

/-- The versions of a key; none for a key that is absent. -/
def versionsOf (entries : Entries) (key : Bytes) : List Version := entries[key]?.getD []

/-- The newest stored version of a key that is visible at a timestamp: the search runs from the
last version to the first. -/
def lookupEntries (entries : Entries) (key : Bytes) (readTimestamp : ℕ) : LookupResult :=
  match entries[key]? with
  | none => .notFound
  | some versions =>
    match versions.reverse.find? (fun v => v.timestamp ≤ readTimestamp) with
    | some v => v.result
    | none => .notFound

structure MemTable where
  entries : Entries
  approximateSizeBytes : ℕ
  deriving DecidableEq

/-- `sizeof(Timestamp)`. -/
def sizeofTimestamp : ℕ := 8

/-- `sizeof(Version)`: eight bytes of timestamp and a forty-byte optional string. -/
def sizeofVersion : ℕ := 48

namespace MemTable

def empty : MemTable := ⟨∅, 0⟩

def put (m : MemTable) (key : Bytes) (timestamp : ℕ) (value : Bytes) : MemTable where
  entries := pushVersion m.entries key ⟨timestamp, some value⟩
  approximateSizeBytes :=
    m.approximateSizeBytes + (key.length + value.length + sizeofTimestamp + sizeofVersion)

def del (m : MemTable) (key : Bytes) (timestamp : ℕ) : MemTable where
  entries := pushVersion m.entries key ⟨timestamp, none⟩
  approximateSizeBytes := m.approximateSizeBytes + (key.length + sizeofTimestamp + sizeofVersion)

/-- `take_entries`: the entries, and the table left behind. -/
def takeEntries (m : MemTable) : Entries × MemTable := (m.entries, empty)

def getAt (m : MemTable) (key : Bytes) (readTimestamp : ℕ) : LookupResult :=
  lookupEntries m.entries key readTimestamp

end MemTable

/-! ### Lookups and versions -/

lemma versionsOf_empty (key : Bytes) : versionsOf ∅ key = [] := by simp [versionsOf]

lemma versionsOf_pushVersion (entries : Entries) (key k : Bytes) (v : Version) :
    versionsOf (pushVersion entries key v) k =
      if key = k then versionsOf entries key ++ [v] else versionsOf entries k := by
  unfold versionsOf pushVersion
  rw [Std.ExtTreeMap.getElem?_alter]
  by_cases h : key = k
  · simp [h]
  · simp [h]

/-- A lookup depends on the versions of the key alone. -/
lemma lookupEntries_eq (entries : Entries) (key : Bytes) (t : ℕ) :
    lookupEntries entries key t =
      match (versionsOf entries key).reverse.find? (fun v => v.timestamp ≤ t) with
      | some v => v.result
      | none => .notFound := by
  unfold lookupEntries versionsOf
  cases entries[key]? <;> simp

end VeriStore.Store

import VeriStore.Store.MemTable

/-!
Sorted tables on disk: the text format, the Bloom filter, the sparse index, the reader and the
compactor.

A table is a text file with one line for each version, the keys in ascending order and the
versions of a key in the order of the memtable. The reader asks the Bloom filter first, seeks to
the offset the sparse index gives and scans from there to the first larger key. A missing file is
`none`.
-/

namespace VeriStore.Sstable

open VeriStore.Lib VeriStore.Store

/-! ### The text format -/

/-- The type of a value's line. -/
abbrev letterP : UInt8 := 80

/-- The type of a tombstone's line. -/
abbrev letterD : UInt8 := 68

/-- The line of one version, without its newline. -/
def rowText (key : Bytes) (v : Version) : Bytes :=
  key ++ [tab] ++ decimal v.timestamp ++ [tab] ++
    match v.value with
    | some x => [letterP, tab] ++ x
    | none => [letterD]

/-- The lines of a table, one for each version. -/
def rows (entries : Entries) : List (Bytes × Version) :=
  entries.toList.flatMap fun e => e.2.map fun v => (e.1, v)

/-- **The file `SSTableWriter::write` writes.** -/
def sstableBytes (entries : Entries) : Bytes :=
  (rows entries).flatMap fun r => rowText r.1 r.2 ++ [newline]

/-- `row >> key >> timestamp >> type`: the three fields and the rest of the line. -/
def parseRow (line : Bytes) : Option (Bytes × ℕ × UInt8 × Bytes) := do
  let (key, s1) ← extractString line
  let (timestamp, s2) ← extractU64 s1
  let (type, s3) ← extractChar s2
  return (key, timestamp, type, s3)

/-! ### The Bloom filter -/

structure BloomFilter where
  bitCount : ℕ
  hashCount : ℕ
  bits : Bytes

/-- The constructor; the size of the bit array is computed in 64 bits. -/
def BloomFilter.new (bitCount hashCount : ℕ) : BloomFilter where
  bitCount := max bitCount 8
  hashCount := max hashCount 1
  bits := List.replicate ((max bitCount 8 + 7) % 2 ^ 64 / 8) 0

def hashWithSeed (key : Bytes) (seed : UInt64) : UInt64 :=
  let h0 := key.foldl (fun h b => (h ^^^ b.toUInt64) * 1099511628211) (1469598103934665603 ^^^ seed)
  let h1 := (h0 ^^^ (h0 >>> 33)) * 0xff51afd7ed558ccd
  h1 ^^^ (h1 >>> 33)

/-- The bit of the hash function `i`. -/
def BloomFilter.bitIndex (f : BloomFilter) (key : Bytes) (i : ℕ) : ℕ :=
  (hashWithSeed key (0x9e3779b97f4a7c15 * UInt64.ofNat (i + 1))).toNat % f.bitCount

/-- `1U << bit_offset`. -/
def bitMask (bitIndex : ℕ) : UInt8 := (1 : UInt8) <<< UInt8.ofNat (bitIndex % 8)

def setBit (bits : Bytes) (bitIndex : ℕ) : Bytes :=
  bits.modify (bitIndex / 8) (· ||| bitMask bitIndex)

def getBit (bits : Bytes) (bitIndex : ℕ) : Bool :=
  bits.getD (bitIndex / 8) 0 &&& bitMask bitIndex ≠ 0

def BloomFilter.add (f : BloomFilter) (key : Bytes) : BloomFilter :=
  { f with bits := (List.range f.hashCount).foldl (fun bs i => setBit bs (f.bitIndex key i)) f.bits }

def BloomFilter.possiblyContains (f : BloomFilter) (key : Bytes) : Bool :=
  (List.range f.hashCount).all fun i => getBit f.bits (f.bitIndex key i)

/-! ### The sparse index -/

abbrev IndexMap := Std.ExtTreeMap Bytes ℕ

/-- The variables of the loop of `SSTableIndex::build`. -/
structure IndexState where
  index : IndexMap
  recordNumber : ℕ
  previousKey : Bytes
  keyGroupOffset : ℕ

/-- One line of the table, which begins at the offset `off`. -/
def indexLine (stride off : ℕ) (line : Bytes) (st : IndexState) : IndexState :=
  match extractString line with
  | none => st
  | some (key, _) =>
    let fresh := st.recordNumber = 0 ∨ key ≠ st.previousKey
    let group := if fresh then off else st.keyGroupOffset
    { index := if st.recordNumber % stride = 0 then st.index.insertIfNew key group else st.index
      recordNumber := st.recordNumber + 1
      previousKey := if fresh then key else st.previousKey
      keyGroupOffset := group }

def indexLoop (stride : ℕ) : ℕ → List Bytes → IndexState → IndexState
  | _, [], st => st
  | off, line :: ls, st =>
    indexLoop stride (off + line.length + 1) ls (indexLine stride off line st)

/-- `SSTableIndex::build`; the stride zero counts as one. -/
def buildIndex (stride : ℕ) (file : Bytes) : IndexMap :=
  (indexLoop (if stride = 0 then 1 else stride) 0 (lines file) ⟨∅, 0, [], 0⟩).index

/-- `find_start_offset`: the entry before the upper bound of the key, or the first entry. -/
def findStartOffset (index : IndexMap) (key : Bytes) : Option ℕ :=
  match (index.toList.filter fun e => compare e.1 key ≠ .gt).getLast? with
  | some e => some e.2
  | none => index.toList.head?.map (·.2)

/-! ### The reader -/

/-- An open reader: `file` is the content of the table, `none` when it cannot be opened. -/
structure SSTableReader where
  index : IndexMap
  bloomFilter : BloomFilter
  file : Option Bytes

/-- `build_bloom_filter`: the first word of every line. -/
def buildBloomFilter (f : BloomFilter) (file : Bytes) : BloomFilter :=
  (lines file).foldl (fun f line =>
    match extractString line with
    | none => f
    | some (key, _) => f.add key) f

def SSTableReader.new (file : Option Bytes) (indexStride bloomBits bloomHashes : ℕ) :
    SSTableReader where
  index := buildIndex indexStride (file.getD [])
  bloomFilter := buildBloomFilter (BloomFilter.new bloomBits bloomHashes) (file.getD [])
  file := file

/-- The variables of the scan: the best version so far and its timestamp. -/
structure ScanState where
  best : LookupResult
  bestTimestamp : ℕ
  found : Bool

/-- The scan of `SSTableReader::get_at`, from the seek position to the first larger key. -/
def scanLines (key : Bytes) (readTimestamp : ℕ) : List Bytes → ScanState → LookupResult
  | [], st => st.best
  | line :: ls, st =>
    if line = [] then scanLines key readTimestamp ls st
    else
      match parseRow line with
      | none => scanLines key readTimestamp ls st
      | some (storedKey, timestamp, type, rest) =>
        match compare storedKey key with
        | .gt => st.best
        | .lt => scanLines key readTimestamp ls st
        | .eq =>
          if timestamp ≤ readTimestamp ∧ (!st.found || st.bestTimestamp ≤ timestamp) then
            scanLines key readTimestamp ls
              { best := if type = letterP then .value (skipWs rest)
                  else if type = letterD then .tombstone else st.best
                bestTimestamp := timestamp
                found := true }
          else scanLines key readTimestamp ls st

def SSTableReader.getAt (r : SSTableReader) (key : Bytes) (readTimestamp : ℕ) : LookupResult :=
  match r.file with
  | none => .notFound
  | some file =>
    if r.bloomFilter.possiblyContains key then
      scanLines key readTimestamp (lines (file.drop ((findStartOffset r.index key).getD 0)))
        ⟨.notFound, 0, false⟩
    else .notFound

/-- A lookup in a table with the reader's default parameters, as the store constructs it. -/
def tableGetAt (file : Option Bytes) (key : Bytes) (readTimestamp : ℕ) : LookupResult :=
  (SSTableReader.new file 4 8192 4).getAt key readTimestamp

/-! ### The compactor -/

/-- The loop of `Compactor::load_sstable`. -/
def loadRows : List Bytes → Entries → Option Entries
  | [], merged => some merged
  | line :: ls, merged =>
    if line = [] then loadRows ls merged
    else
      match parseRow line with
      | none => none
      | some (key, timestamp, type, rest) =>
        if type = letterP then loadRows ls (pushVersion merged key ⟨timestamp, some (skipWs rest)⟩)
        else if type = letterD then loadRows ls (pushVersion merged key ⟨timestamp, none⟩)
        else none

def loadSstable (file : Option Bytes) (merged : Entries) : Option Entries :=
  file.bind fun s => loadRows (lines s) merged

/-- The order `std::sort` sorts the versions by. -/
def timestampLe (a b : Version) : Bool := a.timestamp ≤ b.timestamp

/-- `std::unique` on equal timestamps. -/
def uniqueTimestamps (vs : List Version) : List Version :=
  vs.destutter fun a b => a.timestamp ≠ b.timestamp

/-- `Compactor::compact` with a given sorting function: the bytes of the output. -/
def compactWith (sort : List Version → List Version) (inputs : List (Option Bytes)) :
    Option Bytes :=
  if inputs = [] then none
  else do
    let merged ← inputs.foldlM (fun m f => loadSstable f m) ∅
    return sstableBytes (merged.map fun _ vs => uniqueTimestamps (sort vs))

def compact (inputs : List (Option Bytes)) : Option Bytes :=
  compactWith (fun vs => vs.mergeSort timestampLe) inputs

end VeriStore.Sstable

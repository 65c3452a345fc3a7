import VeriStore.Lib.Bytes

/-!
The record format of the write-ahead log.

A record is a packed 23-byte header (magic, version, type, two lengths, sequence number), the
key, the value of a put, and a CRC-32 trailer over everything before it; all numbers are
little-endian. `recordBytes` is what `Wal::write_record` serialises and `readRecord` is one turn
of the loop of `Wal::replay_into`: it returns the next record and the rest of the file, or `none`
at each of the places where the loop stops.

* `readRecord_recordBytes` — an encoded record is read back, whatever follows it;
* `readRecord_torn` — a proper prefix of an encoded record is never read as a record;
* `readRecord_local` — what is read depends on the bytes consumed only.
-/

namespace VeriStore.Log

open VeriStore.Lib

/-! ### CRC-32 -/

/-- One of the eight rounds that fill a table entry. -/
def crcShift (c : UInt32) : UInt32 :=
  if c &&& 1 ≠ 0 then (0xEDB88320 : UInt32) ^^^ (c >>> 1) else c >>> 1

/-- The entry `i` of the CRC table. -/
def crcTable (i : UInt32) : UInt32 := crcShift^[8] i

/-- The register after one more byte. -/
def crcByte (crc : UInt32) (b : UInt8) : UInt32 :=
  crcTable ((crc ^^^ b.toUInt32) &&& 0xFF) ^^^ (crc >>> 8)

def crc32Update (crc : UInt32) (data : Bytes) : UInt32 := ~~~(data.foldl crcByte (~~~crc))

/-! ### Records -/

/-- The two types of a record. -/
inductive RecordType where
  | put | del
  deriving DecidableEq

/-- The type as the header stores it. -/
def RecordType.code : RecordType → ℕ
  | .put => 1
  | .del => 2

/-- A record of the log: a put carries a value, a delete none. -/
structure Record where
  seq : ℕ
  key : Bytes
  value : Option Bytes
  deriving DecidableEq

def Record.type (r : Record) : RecordType := if r.value.isSome then .put else .del

/-- The packed header. -/
structure WalHeader where
  magic : ℕ
  version : ℕ
  type : ℕ
  keyLen : ℕ
  valLen : ℕ
  seq : ℕ

def kMagic : ℕ := 0x474C564B
def kVersion : ℕ := 1

/-- `sizeof(WalHeader)`. -/
def sizeofHeader : ℕ := 23

/-- The header in memory: each field at its own width, the lengths cut to 32 bits. -/
def WalHeader.bytes (h : WalHeader) : Bytes :=
  leBytes 4 h.magic ++ leBytes 2 h.version ++ leBytes 1 h.type ++ leBytes 4 h.keyLen ++
    leBytes 4 h.valLen ++ leBytes 8 h.seq

/-- The header read from 23 bytes. -/
def WalHeader.ofBytes (s : Bytes) : WalHeader where
  magic := leNat (s.take 4)
  version := leNat ((s.drop 4).take 2)
  type := leNat ((s.drop 6).take 1)
  keyLen := leNat ((s.drop 7).take 4)
  valLen := leNat ((s.drop 11).take 4)
  seq := leNat ((s.drop 15).take 8)

/-- The header `write_record` fills in. -/
def Record.header (r : Record) : WalHeader where
  magic := kMagic
  version := kVersion
  type := r.type.code
  keyLen := r.key.length
  valLen := (r.value.getD []).length
  seq := r.seq

/-- The checksum of a header, a key and the value of a put. -/
def checksum (header key val : Bytes) : UInt32 :=
  crc32Update (crc32Update (crc32Update 0 header) key) val

/-- The bytes of a record, as `write_record` serialises it. -/
def recordBytes (r : Record) : Bytes :=
  r.header.bytes ++ r.key ++ r.value.getD [] ++
    leBytes 4 (checksum r.header.bytes r.key (r.value.getD [])).toNat

/-- The value of a put; that of a delete is not read. -/
def WalHeader.readValue (h : WalHeader) (s : Bytes) : Option (Bytes × Bytes) :=
  if h.type = RecordType.put.code then readExact h.valLen s else some ([], s)

/-- One turn of the replay loop: the next record and the rest of the file. -/
def readRecord (s : Bytes) : Option (Record × Bytes) := do
  let (hb, s1) ← readExact sizeofHeader s
  let h := WalHeader.ofBytes hb
  guard (h.magic = kMagic ∧ h.version = kVersion)
  guard (h.type = RecordType.put.code ∨ h.type = RecordType.del.code)
  let (key, s2) ← readExact h.keyLen s1
  let (val, s3) ← h.readValue s2
  let (stored, s4) ← readExact 4 s3
  guard ((checksum hb key val).toNat = leNat stored)
  return (⟨h.seq, key, if h.type = RecordType.put.code then some val else none⟩, s4)

/-- The lengths and the sequence number fit the fields of the header. -/
def Record.Fits (r : Record) : Prop :=
  r.key.length < 2 ^ 32 ∧ (r.value.getD []).length < 2 ^ 32 ∧ r.seq < 2 ^ 64

instance (r : Record) : Decidable r.Fits := inferInstanceAs (Decidable (_ ∧ _))

/-! ### The header -/

@[simp] lemma WalHeader.bytes_length (h : WalHeader) : h.bytes.length = sizeofHeader := by
  simp [WalHeader.bytes, sizeofHeader]

lemma WalHeader.ofBytes_bytes (h : WalHeader) (hm : h.magic < 256 ^ 4) (hv : h.version < 256 ^ 2)
    (ht : h.type < 256 ^ 1) (hk : h.keyLen < 256 ^ 4) (hl : h.valLen < 256 ^ 4)
    (hs : h.seq < 256 ^ 8) : WalHeader.ofBytes h.bytes = h := by
  have e1 := leNat_leBytes 4 h.magic hm
  have e2 := leNat_leBytes 2 h.version hv
  have e3 := leNat_leBytes 1 h.type ht
  have e4 := leNat_leBytes 4 h.keyLen hk
  have e5 := leNat_leBytes 4 h.valLen hl
  have e6 := leNat_leBytes 8 h.seq hs
  cases h
  simp_all [WalHeader.ofBytes, WalHeader.bytes, List.drop_append, List.drop_eq_nil_of_le,
    List.take_of_length_le]

lemma Record.code_eq_put (r : Record) : r.type.code = RecordType.put.code ↔ r.value.isSome := by
  unfold Record.type
  cases r.value <;> simp [RecordType.code]

lemma Record.header_ofBytes {r : Record} (hr : r.Fits) :
    WalHeader.ofBytes r.header.bytes = r.header := by
  obtain ⟨hk, hv, hs⟩ := hr
  have ht : r.header.type < 256 ^ 1 := by
    simp only [Record.header]
    cases r.type <;> simp [RecordType.code]
  exact WalHeader.ofBytes_bytes _ (by simp [Record.header, kMagic])
    (by simp [Record.header, kVersion]) ht (by simpa [Record.header] using hk)
    (by simpa [Record.header] using hv) (by simpa [Record.header] using hs)

/-! ### Reading an encoded record -/

lemma recordBytes_length (r : Record) :
    (recordBytes r).length = sizeofHeader + r.key.length + (r.value.getD []).length + 4 := by
  simp [recordBytes]
  omega

lemma toNat_lt_crc (c : UInt32) : c.toNat < 256 ^ 4 := by
  have := c.toNat_lt
  omega

/-- **The parts the loop cuts off the file** for one record, behind a header it goes on with. -/
structure RecordParts (hb key val stored : Bytes) : Prop where
  header_length : hb.length = sizeofHeader
  magic : (WalHeader.ofBytes hb).magic = kMagic
  version : (WalHeader.ofBytes hb).version = kVersion
  type : (WalHeader.ofBytes hb).type = RecordType.put.code ∨
    (WalHeader.ofBytes hb).type = RecordType.del.code
  key_length : key.length = (WalHeader.ofBytes hb).keyLen
  val_length : val.length = (if (WalHeader.ofBytes hb).type = RecordType.put.code then
    (WalHeader.ofBytes hb).valLen else 0)
  stored_length : stored.length = 4

/-- **The checksum alone** decides whether these parts are read as a record. -/
lemma RecordParts.readRecord {hb key val stored : Bytes} (h : RecordParts hb key val stored)
    (s : Bytes) : readRecord (hb ++ (key ++ (val ++ (stored ++ s)))) =
      if (checksum hb key val).toNat = leNat stored then
        some (⟨(WalHeader.ofBytes hb).seq, key,
          if (WalHeader.ofBytes hb).type = RecordType.put.code then some val else none⟩, s)
      else none := by
  obtain ⟨hlb, hm, hv, hty, hlk, hlv, hls⟩ := h
  have e1 : ∀ u, readExact sizeofHeader (hb ++ u) = some (hb, u) := fun u => by
    rw [← hlb]; exact readExact_append _ _
  have e2 : ∀ u, readExact (WalHeader.ofBytes hb).keyLen (key ++ u) = some (key, u) := fun u => by
    rw [← hlk]; exact readExact_append _ _
  have e3 : ∀ u, (WalHeader.ofBytes hb).readValue (val ++ u) = some (val, u) := by
    intro u
    unfold WalHeader.readValue
    split at hlv
    · next hp => rw [if_pos hp, ← hlv]; exact readExact_append _ _
    · next hp => rw [if_neg hp, List.eq_nil_of_length_eq_zero hlv]; rfl
  have e4 : ∀ u, readExact 4 (stored ++ u) = some (stored, u) := fun u => by
    rw [← hls]; exact readExact_append _ _
  unfold Log.readRecord
  simp only [e1, e2, e3, e4, Option.bind_eq_bind, Option.bind_some, hm, hv]
  by_cases hcrc : (checksum hb key val).toNat = leNat stored
  · simp [guard, hty, hcrc]
  · simp [guard, hcrc]

/-- The parts of a record that was written. -/
lemma Record.parts {r : Record} (hr : r.Fits) (c : UInt32) :
    RecordParts r.header.bytes r.key (r.value.getD []) (leBytes 4 c.toNat) := by
  constructor
  case header_length => exact r.header.bytes_length
  case stored_length => exact leBytes_length 4 c.toNat
  all_goals rw [r.header_ofBytes hr]
  case magic => rfl
  case version => rfl
  case type =>
    simp only [Record.header]
    cases r.type <;> simp [RecordType.code]
  case key_length => rfl
  case val_length =>
    split
    · rfl
    · next hty =>
      have hnone : r.value = none := by simpa [Record.header, r.code_eq_put] using hty
      simp [hnone]

/-- **An encoded record is read back**, whatever follows it in the file. -/
theorem readRecord_recordBytes {r : Record} (hr : r.Fits) (s : Bytes) :
    readRecord (recordBytes r ++ s) = some (r, s) := by
  have hparts := Record.parts hr (checksum r.header.bytes r.key (r.value.getD []))
  unfold recordBytes
  simp only [List.append_assoc]
  rw [hparts.readRecord, leNat_leBytes 4 _ (toNat_lt_crc _), if_pos rfl, r.header_ofBytes hr]
  rcases r with ⟨seq, key, _ | val⟩ <;> simp [Record.header, Record.type, RecordType.code]

/-! ### What was read -/

/-- The parts of the file a record was read from. -/
lemma readRecord_eq_some {s s' : Bytes} {r : Record} (h : readRecord s = some (r, s')) :
    ∃ hb key val stored : Bytes, s = hb ++ (key ++ (val ++ (stored ++ s'))) ∧
      hb.length = sizeofHeader ∧ stored.length = 4 ∧
      (WalHeader.ofBytes hb).magic = kMagic ∧ (WalHeader.ofBytes hb).version = kVersion ∧
      ((WalHeader.ofBytes hb).type = RecordType.put.code ∨
        (WalHeader.ofBytes hb).type = RecordType.del.code) ∧
      key.length = (WalHeader.ofBytes hb).keyLen ∧
      val.length = (if (WalHeader.ofBytes hb).type = RecordType.put.code then
        (WalHeader.ofBytes hb).valLen else 0) ∧
      (checksum hb key val).toNat = leNat stored ∧
      r = ⟨(WalHeader.ofBytes hb).seq, key,
        if (WalHeader.ofBytes hb).type = RecordType.put.code then some val else none⟩ := by
  simp only [readRecord, Option.bind_eq_bind, Option.bind_eq_some_iff, Option.guard_eq_some',
    exists_const, Prod.exists, Option.pure_def, Option.some.injEq, Prod.mk.injEq] at h
  obtain ⟨hb, s1, h1, ⟨hm, hv⟩, hty, key, s2, h2, val, s3, h3, stored, s4, h4, hcrc, rfl, rfl⟩ := h
  obtain ⟨rfl, hlb⟩ := readExact_eq_some h1
  obtain ⟨rfl, hlk⟩ := readExact_eq_some h2
  obtain ⟨rfl, hls⟩ := readExact_eq_some h4
  have h3' : s2 = val ++ (stored ++ s4) ∧ val.length =
      (if (WalHeader.ofBytes hb).type = RecordType.put.code then
        (WalHeader.ofBytes hb).valLen else 0) := by
    unfold WalHeader.readValue at h3
    split at h3
    · next hp => rw [if_pos hp]; exact readExact_eq_some h3
    · next hp =>
      simp only [Option.some.injEq, Prod.mk.injEq] at h3
      rw [if_neg hp, ← h3.1, ← h3.2]
      exact ⟨rfl, rfl⟩
  obtain ⟨rfl, hlv⟩ := h3'
  exact ⟨hb, key, val, stored, rfl, hlb, hls, hm, hv, hty, hlk, hlv, hcrc, rfl⟩

/-- A record that is read fits the fields of the header. -/
lemma readRecord_fits {s s' : Bytes} {r : Record} (h : readRecord s = some (r, s')) : r.Fits := by
  obtain ⟨hb, key, val, stored, -, hlb, -, -, -, -, hlk, hlv, -, rfl⟩ := readRecord_eq_some h
  have hfield : ∀ i w, i + w ≤ sizeofHeader → leNat ((hb.drop i).take w) < 256 ^ w := by
    intro i w hi
    have hlt := leNat_lt ((hb.drop i).take w)
    rwa [List.length_take, List.length_drop, hlb, Nat.min_eq_left (by omega)] at hlt
  have hkey : (WalHeader.ofBytes hb).keyLen < 2 ^ 32 := hfield 7 4 (by decide)
  have hval : (WalHeader.ofBytes hb).valLen < 2 ^ 32 := hfield 11 4 (by decide)
  have hseq : (WalHeader.ofBytes hb).seq < 2 ^ 64 := hfield 15 8 (by decide)
  refine ⟨hlk ▸ hkey, ?_, hseq⟩
  by_cases hp : (WalHeader.ofBytes hb).type = RecordType.put.code
  · rw [if_pos hp] at hlv
    simp only [hp, if_true, Option.getD_some]
    omega
  · simp [hp]

/-- **What is read depends on the bytes consumed only**, at least a header and a checksum. -/
theorem readRecord_local {s s' : Bytes} {r : Record} (h : readRecord s = some (r, s')) :
    ∃ c : Bytes, s = c ++ s' ∧ sizeofHeader + 4 ≤ c.length ∧
      ∀ t, readRecord (c ++ t) = some (r, t) := by
  obtain ⟨hb, key, val, stored, rfl, hlb, hls, hm, hv, hty, hlk, hlv, hcrc, rfl⟩ :=
    readRecord_eq_some h
  have hparts : RecordParts hb key val stored := ⟨hlb, hm, hv, hty, hlk, hlv, hls⟩
  refine ⟨hb ++ (key ++ (val ++ stored)), by simp, by simp; omega, fun t => ?_⟩
  simp only [List.append_assoc]
  rw [hparts.readRecord, if_pos hcrc]

/-- **A torn record is not read**: the loop stops at every proper prefix of an encoded record. -/
theorem readRecord_torn {r : Record} (hr : r.Fits) {t : Bytes} (ht : t <+: recordBytes r)
    (hne : t ≠ recordBytes r) : readRecord t = none := by
  obtain ⟨u, hu⟩ := ht
  by_contra hsome
  obtain ⟨⟨r', s'⟩, h⟩ := Option.ne_none_iff_exists'.mp hsome
  obtain ⟨c, rfl, -, hloc⟩ := readRecord_local h
  -- the same bytes would be read off the whole record, and leave its missing part behind
  have h1 := hloc (s' ++ u)
  have h2 := readRecord_recordBytes hr []
  rw [List.append_nil, ← hu, List.append_assoc, h1] at h2
  simp only [Option.some.injEq, Prod.mk.injEq, List.append_eq_nil_iff] at h2
  exact hne (by rw [← hu, h2.2.2, List.append_nil])

/-! ### Re-encoding -/

/-- The record as it comes back from the file, its sequence number cut to 64 bits. -/
def Record.stored (r : Record) : Record := { r with seq := r.seq % 2 ^ 64 }

/-- The file does not know the bits that were cut. -/
lemma recordBytes_stored (r : Record) : recordBytes r.stored = recordBytes r := by
  have hseq : leBytes 8 (r.seq % 2 ^ 64) = leBytes 8 r.seq := leBytes_mod 8 r.seq
  have hh : r.stored.header.bytes = r.header.bytes := by
    simp only [Record.stored, Record.header, WalHeader.bytes, hseq]
    rfl
  unfold recordBytes
  rw [hh]
  rfl

lemma WalHeader.bytes_ofBytes {hb : Bytes} (h : hb.length = sizeofHeader) :
    (WalHeader.ofBytes hb).bytes = hb := by
  have e : ∀ (i w : ℕ), i + w ≤ 23 →
      leBytes w (leNat ((hb.drop i).take w)) = (hb.drop i).take w := by
    intro i w hi
    have := leBytes_leNat ((hb.drop i).take w)
    rwa [List.length_take, List.length_drop, h, Nat.min_eq_left (by unfold sizeofHeader; omega)]
      at this
  have e0 := e 0 4 (by omega)
  rw [List.drop_zero] at e0
  simp only [WalHeader.bytes, WalHeader.ofBytes, e0, e 4 2, e 6 1, e 7 4, e 11 4, e 15 8,
    Nat.reduceAdd, Nat.reduceLeDiff]
  have hl : (hb.drop 15).take 8 = hb.drop 15 := List.take_of_length_le (by simp [h, sizeofHeader])
  rw [hl]
  simp only [List.append_assoc]
  have join : ∀ i w, (hb.drop i).take w ++ hb.drop (i + w) = hb.drop i := by
    intro i w
    rw [← List.drop_drop]
    exact List.take_append_drop w (hb.drop i)
  rw [join 11 4, join 7 4, join 6 1, join 4 2]
  exact List.take_append_drop 4 hb

/-- **A put is read off its own encoding only.** -/
theorem readRecord_put_bytes {s s' : Bytes} {r : Record} (h : readRecord s = some (r, s'))
    (hput : r.value.isSome) : s = recordBytes r ++ s' := by
  obtain ⟨hb, key, val, stored, rfl, hlb, hls, hm, hv, hty, hlk, hlv, hcrc, rfl⟩ :=
    readRecord_eq_some h
  have hp : (WalHeader.ofBytes hb).type = RecordType.put.code := by
    by_contra hn
    simp [hn] at hput
  rw [if_pos hp] at hlv
  have hh : Record.header ⟨(WalHeader.ofBytes hb).seq, key, some val⟩ = WalHeader.ofBytes hb := by
    unfold Record.header Record.type
    rw [hlk, Option.getD_some, hlv, Option.isSome_some, if_pos rfl, ← hp, ← hm, ← hv]
  have hst : leBytes 4 (leNat stored) = stored := by
    rw [← hls]
    exact leBytes_leNat stored
  simp only [hp, if_true, recordBytes, hh, WalHeader.bytes_ofBytes hlb, Option.getD_some, hcrc, hst,
    List.append_assoc]

end VeriStore.Log

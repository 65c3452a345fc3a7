import VeriStore.Object.Defs

/-!
The names of the records and the text of the metadata are read back.

* Records of different kinds have different names (`recordKey`), and two names of one kind agree only
  when they are made of the same parts (`objectName`, `chunkKey`, `objectIdAt`).
* `chunkOwner` finds the id in the name of a chunk, whatever colons the id has.
* `deserializeMetadata` gives back metadata without tabs (`ObjectMetadata.Plain`), and no other
  (`metadata_codec_iff`).
-/

namespace VeriStore.Object

open VeriStore.Lib VeriStore.Store

/-! ### Texts around a colon -/

lemma colon_notMem_decimal (n : ℕ) : colon ∉ decimal n := by
  intro h
  exact absurd (isDigit_of_mem_decimal n _ h) (by decide)

lemma tab_notMem_decimal (n : ℕ) : tab ∉ decimal n := by
  intro h
  exact absurd (isDigit_of_mem_decimal n _ h) (by decide)

/-- Two texts cut at their first `c`. -/
lemma append_cons_inj_first {c : UInt8} {a a' b b' : Bytes} (ha : c ∉ a) (ha' : c ∉ a')
    (h : a ++ c :: b = a' ++ c :: b') : a = a' ∧ b = b' := by
  induction a generalizing a' with
  | nil =>
    cases a' with
    | nil => simpa using h
    | cons x a' =>
      simp only [List.nil_append, List.cons_append, List.cons.injEq] at h
      exact absurd (by simp [h.1]) ha'
  | cons x a ih =>
    cases a' with
    | nil =>
      simp only [List.nil_append, List.cons_append, List.cons.injEq] at h
      exact absurd (by simp [h.1]) ha
    | cons y a' =>
      simp only [List.cons_append, List.cons.injEq] at h
      simp only [List.mem_cons, not_or] at ha ha'
      obtain ⟨rfl, rfl⟩ := ih ha.2 ha'.2 h.2
      simp [h.1]

/-- Two texts cut at their last `c`. -/
lemma append_cons_inj_last {c : UInt8} {a a' b b' : Bytes} (hb : c ∉ b) (hb' : c ∉ b')
    (h : a ++ c :: b = a' ++ c :: b') : a = a' ∧ b = b' := by
  have hr := congrArg List.reverse h
  simp only [List.reverse_append, List.reverse_cons, List.append_assoc, List.singleton_append] at hr
  obtain ⟨h1, h2⟩ := append_cons_inj_first (by simpa using hb) (by simpa using hb') hr
  exact ⟨List.reverse_injective h2, List.reverse_injective h1⟩

/-- The last place of a byte. -/
lemma lastIndexOf_append {c : UInt8} {a b : Bytes} (hb : c ∉ b) :
    lastIndexOf [c] (a ++ c :: b) = some a.length := by
  have hlen : (a ++ c :: b).length + 1 = (a.length + 1) + (b.length + 1) := by
    simp only [List.length_append, List.length_cons]
    omega
  have hnone : ((List.range (b.length + 1)).map (a.length + 1 + ·)).filter
      (fun i => [c].isPrefixOf ((a ++ c :: b).drop i)) = [] := by
    rw [List.filter_eq_nil_iff]
    intro i hi
    obtain ⟨j, -, rfl⟩ := List.mem_map.mp hi
    have hdrop : (a ++ c :: b).drop (a.length + 1 + j) = b.drop j := by
      rw [show a ++ c :: b = (a ++ [c]) ++ b by simp, List.drop_append]
      simp
    rw [hdrop]
    cases hd : b.drop j with
    | nil => simp [List.isPrefixOf]
    | cons x r =>
      have hx : x ∈ b := List.mem_of_mem_drop (hd ▸ List.mem_cons_self)
      have hne : c ≠ x := fun e => hb (e ▸ hx)
      simpa [List.isPrefixOf] using hne
  unfold lastIndexOf
  rw [hlen, List.range_add, List.filter_append, hnone, List.append_nil, List.range_succ,
    List.filter_append]
  simp [List.isPrefixOf]

/-! ### Names -/

/-- **The name of an object**: bucket and key with a colon between them. -/
def objectName (bucket key : Bytes) : Bytes := bucket ++ colon :: key

/-- The kinds of records. -/
inductive RecordKind where
  | bucketMeta
  | objectMeta
  | bucketIndex
  | chunk
deriving DecidableEq

def RecordKind.tag : RecordKind → Bytes
  | bucketMeta => text "bucket:"
  | objectMeta => text "objmeta:"
  | bucketIndex => text "bucketidx:"
  | chunk => text "objchunk:"

/-- The name of a record: what kind it is, and the rest. -/
def recordKey (kind : RecordKind) (rest : Bytes) : Bytes := kind.tag ++ rest

/-- **Records of different kinds have different names.** -/
@[simp] lemma recordKey_inj {kind kind' : RecordKind} {rest rest' : Bytes} :
    recordKey kind rest = recordKey kind' rest' ↔ kind = kind' ∧ rest = rest' := by
  constructor
  · intro h
    have hkind : kind = kind' := by
      cases kind <;> cases kind' <;>
        first
        | rfl
        | simp [recordKey, RecordKind.tag, text, ascii] at h
    subst hkind
    exact ⟨rfl, List.append_cancel_left h⟩
  · rintro ⟨rfl, rfl⟩
    rfl

lemma bucketMetaKey_eq (b : Bytes) : bucketMetaKey b = recordKey .bucketMeta b := rfl

lemma objectMetaKey_eq (b k : Bytes) :
    objectMetaKey b k = recordKey .objectMeta (objectName b k) := by
  simp [objectMetaKey, objectName, recordKey, RecordKind.tag]

lemma bucketIndexKey_eq (b k : Bytes) :
    bucketIndexKey b k = recordKey .bucketIndex (objectName b k) := by
  simp [bucketIndexKey, objectName, recordKey, RecordKind.tag]

lemma chunkKey_eq (id : Bytes) (i : ℕ) :
    chunkKey id i = recordKey .chunk (id ++ colon :: decimal i) := by
  simp [chunkKey, recordKey, RecordKind.tag]

lemma objectIdAt_eq (b k : Bytes) (ms : UInt64) :
    objectIdAt b k ms = objectName b k ++ colon :: decimal ms.toNat := by
  simp [objectIdAt, objectName]

/-- Where buckets have no colon, a name determines bucket and key. -/
lemma objectName_inj {b b' k k' : Bytes} (hb : colon ∉ b) (hb' : colon ∉ b')
    (h : objectName b k = objectName b' k') : b = b' ∧ k = k' :=
  append_cons_inj_first hb hb' h

/-- **The name of a chunk determines its id and its index.** -/
lemma chunkKey_inj {id id' : Bytes} {i i' : ℕ} :
    chunkKey id i = chunkKey id' i' ↔ id = id' ∧ i = i' := by
  simp only [chunkKey_eq, recordKey_inj, true_and]
  constructor
  · intro h
    obtain ⟨h1, h2⟩ := append_cons_inj_last (colon_notMem_decimal i) (colon_notMem_decimal i') h
    exact ⟨h1, decimal_injective h2⟩
  · rintro ⟨rfl, rfl⟩
    rfl

/-- **An id determines the name it was made for and the reading of the clock.** -/
lemma objectIdAt_inj {b b' k k' : Bytes} {ms ms' : UInt64} :
    objectIdAt b k ms = objectIdAt b' k' ms' ↔ objectName b k = objectName b' k' ∧ ms = ms' := by
  rw [objectIdAt_eq, objectIdAt_eq]
  constructor
  · intro h
    obtain ⟨h1, h2⟩ :=
      append_cons_inj_last (colon_notMem_decimal _) (colon_notMem_decimal _) h
    exact ⟨h1, UInt64.toNat_inj.mp (decimal_injective h2)⟩
  · rintro ⟨h, rfl⟩
    rw [h]

lemma objectIdAt_ne_nil (b k : Bytes) (ms : UInt64) : objectIdAt b k ms ≠ [] := by
  simp [objectIdAt]

/-! ### The owner of a chunk -/

/-- **The collector finds the id in the name of a chunk.** -/
lemma chunkOwner_chunkKey {id : Bytes} (hid : id ≠ []) (i : ℕ) :
    chunkOwner (chunkKey id i) = some id := by
  have hlast : lastIndexOf [colon] (chunkKey id i) =
      some ((text "objchunk:").length + id.length) := by
    have hcut : chunkKey id i = (text "objchunk:" ++ id) ++ colon :: decimal i := by
      simp [chunkKey]
    rw [hcut, lastIndexOf_append (colon_notMem_decimal i), List.length_append]
  have hpos : 0 < id.length := List.length_pos_of_ne_nil hid
  unfold chunkOwner
  rw [hlast]
  simp only
  rw [if_neg (by omega), chunkKey]
  simp

/-! ### Metadata -/

/-- Metadata that its text form can hold. -/
structure ObjectMetadata.Plain (m : ObjectMetadata) : Prop where
  objectId : tab ∉ m.objectId
  bucket : tab ∉ m.bucket
  key : tab ∉ m.key
  contentType : tab ∉ m.contentType
  etag : tab ∉ m.etag
  sizeBytes : m.sizeBytes < 2 ^ 64
  chunkCount : m.chunkCount < 2 ^ 32
  chunkSizeBytes : m.chunkSizeBytes < 2 ^ 32
  createdAt : m.createdAt < 2 ^ 64
  updatedAt : m.updatedAt < 2 ^ 64
  state : m.state = .committed ∨ m.state = .deleted

/-- No text field has a tab. -/
structure ObjectMetadata.TabFree (m : ObjectMetadata) : Prop where
  objectId : tab ∉ m.objectId
  bucket : tab ∉ m.bucket
  key : tab ∉ m.key
  contentType : tab ∉ m.contentType
  etag : tab ∉ m.etag

/-- The numbers fit their fields. -/
structure ObjectMetadata.Fits (m : ObjectMetadata) : Prop where
  sizeBytes : m.sizeBytes < 2 ^ 64
  chunkCount : m.chunkCount < 2 ^ 32
  chunkSizeBytes : m.chunkSizeBytes < 2 ^ 32
  createdAt : m.createdAt < 2 ^ 64
  updatedAt : m.updatedAt < 2 ^ 64

lemma readField_append {f s : Bytes} (hf : tab ∉ f) : readField (f ++ tab :: s) = some (f, s) := by
  obtain ⟨h1, h2⟩ := takeWhile_append_stop (p := (· ≠ tab)) (a := f) (s := tab :: s)
    (fun b hb => by simpa using fun e : b = tab => hf (e ▸ hb)) (fun b hb => by simp_all)
  unfold readField
  rw [if_neg (by simp), h1, h2]
  rfl

/-- The last field. -/
lemma readField_last {f : Bytes} (hf : tab ∉ f) (hne : f ≠ []) : readField f = some (f, []) := by
  obtain ⟨h1, h2⟩ := takeWhile_append_stop (p := (· ≠ tab)) (a := f) (s := [])
    (fun b hb => by simpa using fun e : b = tab => hf (e ▸ hb)) (by simp)
  rw [List.append_nil] at h1 h2
  unfold readField
  rw [if_neg hne, h1, h2]
  rfl

lemma readField_some {s f rest : Bytes} (h : readField s = some (f, rest)) :
    f = s.takeWhile (· ≠ tab) ∧ tab ∉ f := by
  unfold readField at h
  split at h
  · cases h
  · simp only [Option.some.injEq, Prod.mk.injEq] at h
    refine ⟨h.1.symm, ?_⟩
    rw [← h.1]
    intro hmem
    have hall := List.all_eq_true.mp (List.all_takeWhile (l := s) (p := (· ≠ tab))) tab hmem
    simp at hall

lemma stoull_decimal {n : ℕ} (hn : n < 2 ^ 64) : stoull (decimal n) = some n := by
  have h := extractU64_decimal hn (s := []) (by simp)
  rw [List.append_nil] at h
  simp [stoull, h]

lemma lt_of_stoull {s : Bytes} {n : ℕ} (h : stoull s = some n) : n < 2 ^ 64 := by
  obtain ⟨nr, hread, rfl⟩ := Option.map_eq_some_iff.mp h
  exact (extractU64_some hread).1

/-- The number of a state is read back. -/
lemma stoi_code {state : ObjectState} (h : ∀ code, state ≠ .other code) :
    ∃ n : ℤ, stoi (decimal state.code) = some n ∧ ObjectState.ofCode (n % 256).toNat = state := by
  cases state with
  | pending => exact ⟨0, by decide, rfl⟩
  | committed => exact ⟨1, by decide, rfl⟩
  | deleted => exact ⟨2, by decide, rfl⟩
  | other code => exact absurd rfl (h code)

/-- Metadata without tabs is read back. -/
lemma ObjectMetadata.TabFree.deserialize {m : ObjectMetadata} (h : m.TabFree) (hfits : m.Fits)
    (hstate : ∀ code, m.state ≠ .other code) :
    deserializeMetadata (serializeMetadata m) = some m := by
  have hcount : m.chunkCount < 2 ^ 64 := lt_trans hfits.chunkCount (by norm_num)
  have hsize : m.chunkSizeBytes < 2 ^ 64 := lt_trans hfits.chunkSizeBytes (by norm_num)
  obtain ⟨n, hn, hcode⟩ := stoi_code hstate
  unfold deserializeMetadata serializeMetadata
  refine Option.bind_eq_some_iff.mpr ⟨_, readField_append h.objectId, ?_⟩
  refine Option.bind_eq_some_iff.mpr ⟨_, readField_append h.bucket, ?_⟩
  refine Option.bind_eq_some_iff.mpr ⟨_, readField_append h.key, ?_⟩
  refine Option.bind_eq_some_iff.mpr ⟨_, readField_append (tab_notMem_decimal _), ?_⟩
  refine Option.bind_eq_some_iff.mpr ⟨_, readField_append (tab_notMem_decimal _), ?_⟩
  refine Option.bind_eq_some_iff.mpr ⟨_, readField_append (tab_notMem_decimal _), ?_⟩
  refine Option.bind_eq_some_iff.mpr ⟨_, readField_append h.contentType, ?_⟩
  refine Option.bind_eq_some_iff.mpr ⟨_, readField_append h.etag, ?_⟩
  refine Option.bind_eq_some_iff.mpr ⟨_, readField_append (tab_notMem_decimal _), ?_⟩
  refine Option.bind_eq_some_iff.mpr ⟨_, readField_append (tab_notMem_decimal _), ?_⟩
  refine Option.bind_eq_some_iff.mpr
    ⟨_, readField_last (tab_notMem_decimal _) (decimal_ne_nil _), ?_⟩
  refine Option.bind_eq_some_iff.mpr ⟨_, stoull_decimal hfits.sizeBytes, ?_⟩
  refine Option.bind_eq_some_iff.mpr ⟨_, stoull_decimal hcount, ?_⟩
  refine Option.bind_eq_some_iff.mpr ⟨_, stoull_decimal hsize, ?_⟩
  refine Option.bind_eq_some_iff.mpr ⟨_, stoull_decimal hfits.createdAt, ?_⟩
  refine Option.bind_eq_some_iff.mpr ⟨_, stoull_decimal hfits.updatedAt, ?_⟩
  refine Option.bind_eq_some_iff.mpr ⟨n, hn, ?_⟩
  simp only [hcode, Nat.mod_eq_of_lt hfits.chunkCount, Nat.mod_eq_of_lt hfits.chunkSizeBytes]

/-- **Metadata is read back from its text.** -/
theorem deserializeMetadata_serializeMetadata {m : ObjectMetadata} (h : m.Plain) :
    deserializeMetadata (serializeMetadata m) = some m := by
  refine ObjectMetadata.TabFree.deserialize
    ⟨h.objectId, h.bucket, h.key, h.contentType, h.etag⟩
    ⟨h.sizeBytes, h.chunkCount, h.chunkSizeBytes, h.createdAt, h.updatedAt⟩ fun code => ?_
  rcases h.state with e | e
  · simp [e]
  · simp [e]

/-- **What was read** has no tabs and fits, whatever the text was. -/
lemma deserializeMetadata_some {s : Bytes} {m : ObjectMetadata}
    (h : deserializeMetadata s = some m) :
    m.objectId = s.takeWhile (· ≠ tab) ∧ m.TabFree ∧ m.Fits := by
  unfold deserializeMetadata at h
  obtain ⟨⟨objectId, s1⟩, h1, h⟩ := Option.bind_eq_some_iff.mp h
  obtain ⟨⟨bucket, s2⟩, h2, h⟩ := Option.bind_eq_some_iff.mp h
  obtain ⟨⟨key, s3⟩, h3, h⟩ := Option.bind_eq_some_iff.mp h
  obtain ⟨⟨sizeBytes, s4⟩, -, h⟩ := Option.bind_eq_some_iff.mp h
  obtain ⟨⟨chunkCount, s5⟩, -, h⟩ := Option.bind_eq_some_iff.mp h
  obtain ⟨⟨chunkSizeBytes, s6⟩, -, h⟩ := Option.bind_eq_some_iff.mp h
  obtain ⟨⟨contentType, s7⟩, h7, h⟩ := Option.bind_eq_some_iff.mp h
  obtain ⟨⟨etag, s8⟩, h8, h⟩ := Option.bind_eq_some_iff.mp h
  obtain ⟨⟨createdAt, s9⟩, -, h⟩ := Option.bind_eq_some_iff.mp h
  obtain ⟨⟨updatedAt, s10⟩, -, h⟩ := Option.bind_eq_some_iff.mp h
  obtain ⟨⟨state, s11⟩, -, h⟩ := Option.bind_eq_some_iff.mp h
  obtain ⟨size, hsize, h⟩ := Option.bind_eq_some_iff.mp h
  obtain ⟨count, -, h⟩ := Option.bind_eq_some_iff.mp h
  obtain ⟨chunkSize, -, h⟩ := Option.bind_eq_some_iff.mp h
  obtain ⟨created, hcreated, h⟩ := Option.bind_eq_some_iff.mp h
  obtain ⟨updated, hupdated, h⟩ := Option.bind_eq_some_iff.mp h
  obtain ⟨code, -, h⟩ := Option.bind_eq_some_iff.mp h
  obtain rfl := Option.some.inj h
  refine ⟨(readField_some h1).1, ?_, ?_⟩
  · exact ⟨(readField_some h1).2, (readField_some h2).2, (readField_some h3).2,
      (readField_some h7).2, (readField_some h8).2⟩
  · exact ⟨lt_of_stoull hsize, Nat.mod_lt _ (by norm_num), Nat.mod_lt _ (by norm_num),
      lt_of_stoull hcreated, lt_of_stoull hupdated⟩

/-- **The metadata that its text can hold**: where the numbers fit their fields and the state is one
of the three, metadata is read back from its text exactly when no text field has a tab. -/
theorem metadata_codec_iff {m : ObjectMetadata} (hfits : m.Fits)
    (hstate : ∀ code, m.state ≠ .other code) :
    deserializeMetadata (serializeMetadata m) = some m ↔ m.TabFree := by
  constructor
  · -- a field that was read ends in front of the next tab
    intro h
    obtain ⟨-, htab, -⟩ := deserializeMetadata_some h
    exact htab
  · intro htab
    exact htab.deserialize hfits hstate

/-- A pending object with empty texts and a newline. -/
def bareMetadata : ObjectMetadata := { key := [newline], contentType := [], state := .pending }

theorem metadata_codec_iff_bare :
    deserializeMetadata (serializeMetadata bareMetadata) = some bareMetadata := by
  have hne : tab ≠ newline := by decide
  refine (metadata_codec_iff ⟨?_, ?_, ?_, ?_, ?_⟩ ?_).mpr ⟨?_, ?_, ?_, ?_, ?_⟩
  all_goals simp [bareMetadata, hne]

/-! ### Etags -/

lemma exists_digit_of_mem_toDigits {n : ℕ} {c : Char} (h : c ∈ Nat.toDigits 16 n) :
    ∃ d, d < 16 ∧ c = d.digitChar := by
  induction n using Nat.strong_induction_on with
  | _ n ih =>
    by_cases hn : n < 16
    · rw [Nat.toDigits_of_lt_base hn, List.mem_singleton] at h
      exact ⟨n, hn, h⟩
    · have hd : n % 16 < 16 := Nat.mod_lt _ (by omega)
      have hstep := Nat.toDigits_append_toDigits (b := 16) (n := n / 16) (d := n % 16) (by omega)
        (by omega) hd
      rw [Nat.div_add_mod, Nat.toDigits_of_lt_base hd] at hstep
      rw [← hstep, List.mem_append, List.mem_singleton] at h
      rcases h with h | h
      · exact ih (n / 16) (by omega) h
      · exact ⟨n % 16, hd, h⟩

lemma tab_notMem_computeEtag (hash : Bytes → UInt64) (data : Bytes) :
    tab ∉ computeEtag hash data := by
  intro h
  obtain ⟨c, hc, e⟩ := List.mem_map.mp h
  obtain ⟨d, hd, rfl⟩ := exists_digit_of_mem_toDigits hc
  have hdig : ∀ d, d < 16 → ascii d.digitChar ≠ tab := by decide
  exact hdig d hd e

end VeriStore.Object

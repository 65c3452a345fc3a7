import VeriStore.Object.Isolation

/-!
The order of a listing.

`ListObjects` returns the keys in the order in which the hash map is scanned, and the map may be
scanned in any order (`Shuffle`). Which keys are listed depends on the live objects alone
(`mem_listedKeys`, `listedKeys_perm`); their order is that of the scan, and it cannot be seen only
where all of them are one key.

* `listings_ordered_iff` — the listings are in ascending order, and the same behind two runs that
  leave the same live objects, exactly when these have at most one key;
* `listings_in_scan_order` — two objects, listed the later one first.
-/

namespace VeriStore.Object

open VeriStore.Lib VeriStore.Store

/-! ### Live objects -/

/-- **An object of the bucket is live**: the bucket exists, the object has its entry in the index, and
its metadata, which says that its key is `key`, is not marked deleted. -/
def LiveAt (w : KvWorld) (b k key : Bytes) : Prop :=
  b ≠ [] ∧ w.map[bucketMetaKey b]?.isSome ∧ w.map[bucketIndexKey b k]?.isSome ∧
    ∃ m, metadataOf w.map (objectName b k) = some m ∧ m.state ≠ .deleted ∧ m.key = key

/-- The same objects are live. -/
def SameLive (w w' : KvWorld) (b : Bytes) : Prop := ∀ k key, LiveAt w b k key ↔ LiveAt w' b k key

/-- **The keys that are listed** when the hash map is scanned in this order. -/
def listedKeys (w : KvWorld) (order : Shuffle) (b start : Bytes) : List Bytes :=
  (objectsIn { w with orders := Stream'.cons order w.orders } b start).objects.map (·.key)

/-- Keys in ascending lexicographic order. -/
def KeysAscend (keys : List Bytes) : Prop := keys.Pairwise fun a b => (compare a b).isLE = true

section Listings

variable {w w' : KvWorld} {b start : Bytes}

lemma exists_entryAt_iff {map : KvMap} {k key : Bytes} :
    (∃ e, entryAt map b k = some e ∧ e.key = key) ↔
      ∃ m, metadataOf map (objectName b k) = some m ∧ m.state ≠ .deleted ∧ m.key = key := by
  unfold entryAt
  constructor
  · rintro ⟨e, he, rfl⟩
    obtain ⟨m, hm, he⟩ := Option.bind_eq_some_iff.mp he
    split at he
    · cases he
    · next hstate =>
      cases he
      exact ⟨m, hm, hstate, rfl⟩
  · rintro ⟨m, hm, hstate, rfl⟩
    exact ⟨m.listEntry, by rw [hm, Option.bind_some, if_neg hstate], rfl⟩

/-- The index is scanned in the order of the map: every object with an entry, once. -/
lemma exists_scanned (hb : b ≠ []) (hw : w.map[bucketMetaKey b]?.isSome) (start : Bytes) :
    ∃ ks : List Bytes, ks.Nodup ∧
      (∀ k, k ∈ ks ↔ start <+: k ∧ w.map[bucketIndexKey b k]?.isSome) ∧
      (objectsIn w b start).objects = ks.filterMap (entryAt w.map b) := by
  let object : Bytes → Bytes := fun name => name.drop (bucketIndexKey b []).length
  let names := w.orders.head.apply (keysWith w.map (bucketIndexKey b start))
  have hnames : ∀ name ∈ names, ∃ k, start <+: k ∧ name = bucketIndexKey b k ∧
      w.map[bucketIndexKey b k]?.isSome := by
    intro name hname
    obtain ⟨rest, hname, hsome⟩ := mem_index_scan.mp (mem_shuffled.mp hname)
    exact ⟨start ++ rest, List.prefix_append _ _, hname, hsome⟩
  refine ⟨names.map object, ?_, fun k => ?_, ?_⟩
  · have hnodup : names.Nodup := (w.orders.head.perm _).nodup_iff.mpr (nodup_keysWith _ _)
    refine List.Nodup.map_on (fun name hname name' hname' h => ?_) hnodup
    obtain ⟨k, -, rfl, -⟩ := hnames name hname
    obtain ⟨k', -, rfl, -⟩ := hnames name' hname'
    have hkeys : k = k' := by
      rw [← drop_bucketIndexKey b k, ← drop_bucketIndexKey b k']
      exact h
    rw [hkeys]
  · rw [List.mem_map]
    constructor
    · rintro ⟨name, hname, rfl⟩
      obtain ⟨k, hk, rfl, hsome⟩ := hnames name hname
      simp only [object, drop_bucketIndexKey]
      exact ⟨hk, hsome⟩
    · rintro ⟨⟨rest, rfl⟩, hsome⟩
      exact ⟨_, mem_shuffled.mpr (mem_index_scan.mpr ⟨rest, rfl, hsome⟩), drop_bucketIndexKey _ _⟩
  · rw [objectsIn_eq hb hw, List.filterMap_map]
    rfl

lemma listedKeys_missing (h : b = [] ∨ w.map[bucketMetaKey b]? = none) (order : Shuffle)
    (start : Bytes) : listedKeys w order b start = [] := by
  have hnone := (objectsIn_missing (w := { w with orders := Stream'.cons order w.orders }) h start).2.1
  rw [listedKeys, hnone]
  rfl

/-- **A listing takes each live object once**, together with its key. -/
lemma exists_listedKeys (w : KvWorld) (order : Shuffle) (b start : Bytes) :
    ∃ pairs : List (Bytes × Bytes), listedKeys w order b start = pairs.map (·.2) ∧ pairs.Nodup ∧
      ∀ k key, (k, key) ∈ pairs ↔ start <+: k ∧ LiveAt w b k key := by
  let v : KvWorld := { w with orders := Stream'.cons order w.orders }
  by_cases hknown : b = [] ∨ w.map[bucketMetaKey b]? = none
  · refine ⟨[], listedKeys_missing hknown order start, List.nodup_nil, fun k key => ?_⟩
    simp only [List.not_mem_nil, false_iff, not_and]
    rintro - ⟨hb, hw, -⟩
    rcases hknown with hknown | hknown
    · exact hb hknown
    · simp [hknown] at hw
  · obtain ⟨hb, hne⟩ := not_or.mp hknown
    have hw : w.map[bucketMetaKey b]?.isSome := Option.isSome_iff_ne_none.mpr hne
    obtain ⟨ks, hnodup, hks, hobjects⟩ := exists_scanned (w := v) hb hw start
    refine ⟨ks.filterMap fun k => (entryAt w.map b k).map fun e => (k, e.key), ?_, ?_, ?_⟩
    · rw [listedKeys, hobjects, List.map_filterMap, List.map_filterMap]
      refine List.filterMap_congr fun k _ => ?_
      rw [Option.map_map]
      rfl
    · refine hnodup.filterMap fun k k' pair hk hk' => ?_
      obtain ⟨e, -, rfl⟩ := Option.map_eq_some_iff.mp hk
      obtain ⟨e', -, he'⟩ := Option.map_eq_some_iff.mp hk'
      exact (congrArg Prod.fst he').symm
    · intro k key
      rw [List.mem_filterMap]
      constructor
      · rintro ⟨k', hk', h⟩
        obtain ⟨e, he, hpair⟩ := Option.map_eq_some_iff.mp h
        obtain ⟨rfl, rfl⟩ := Prod.mk.inj hpair
        obtain ⟨hstart, hindex⟩ := (hks k').mp hk'
        exact ⟨hstart, hb, hw, hindex, exists_entryAt_iff.mp ⟨e, he, rfl⟩⟩
      · rintro ⟨hstart, -, -, hindex, hmeta⟩
        obtain ⟨e, he, rfl⟩ := exists_entryAt_iff.mpr hmeta
        exact ⟨k, (hks k).mpr ⟨hstart, hindex⟩, by rw [he]; rfl⟩

/-- **The listed keys are those of the live objects.** -/
lemma mem_listedKeys {order : Shuffle} {key : Bytes} :
    key ∈ listedKeys w order b start ↔ ∃ k, start <+: k ∧ LiveAt w b k key := by
  obtain ⟨pairs, hkeys, -, hpairs⟩ := exists_listedKeys w order b start
  simp [hkeys, List.mem_map, hpairs]

/-- **The same live objects** are listed as often, in some order. -/
lemma listedKeys_perm (h : SameLive w w' b) (order order' : Shuffle) (start : Bytes) :
    (listedKeys w order b start).Perm (listedKeys w' order' b start) := by
  obtain ⟨pairs, hkeys, hnodup, hpairs⟩ := exists_listedKeys w order b start
  obtain ⟨pairs', hkeys', hnodup', hpairs'⟩ := exists_listedKeys w' order' b start
  rw [hkeys, hkeys']
  refine List.Perm.map _ ((List.perm_ext_iff_of_nodup hnodup hnodup').mpr fun pair => ?_)
  rw [hpairs, hpairs', h]

lemma eq_of_isLE {a c : Bytes} (hle : (compare a c).isLE = true) (hge : (compare c a).isLE = true) :
    a = c := Std.LawfulEqCmp.eq_of_compare (Std.OrientedCmp.isLE_antisymm hle hge)

/-- Listings in ascending order are the same behind the same live objects. -/
lemma listedKeys_eq (h : SameLive w w' b) {order order' : Shuffle}
    (hasc : KeysAscend (listedKeys w order b start))
    (hasc' : KeysAscend (listedKeys w' order' b start)) :
    listedKeys w order b start = listedKeys w' order' b start :=
  (listedKeys_perm h order order' start).eq_of_pairwise
    (fun _ _ _ _ hle hge => eq_of_isLE hle hge) hasc hasc'

/-! ### Orders -/

/-- The keys as the map has them. -/
def forwards : Shuffle := ⟨id, List.Perm.refl⟩

def backwards : Shuffle := ⟨List.reverse, List.reverse_perm⟩

/-- A map that is scanned the other way round is listed the other way round. -/
lemma listedKeys_backwards (w : KvWorld) (b start : Bytes) :
    listedKeys w backwards b start = (listedKeys w forwards b start).reverse := by
  by_cases hknown : b = [] ∨ w.map[bucketMetaKey b]? = none
  · rw [listedKeys_missing hknown, listedKeys_missing hknown]
    rfl
  · obtain ⟨hb, hne⟩ := not_or.mp hknown
    have hw : w.map[bucketMetaKey b]?.isSome := Option.isSome_iff_ne_none.mpr hne
    have hscan : ∀ order : Shuffle, listedKeys w order b start =
        ((order.apply (keysWith w.map (bucketIndexKey b start))).filterMap
          fun name => entryAt w.map b (name.drop (bucketIndexKey b []).length)).map (·.key) := by
      intro order
      have hv := objectsIn_eq (w := { w with orders := Stream'.cons order w.orders }) hb hw start
      rw [listedKeys, hv]
      rfl
    rw [hscan, hscan, ← List.map_reverse, ← List.filterMap_reverse]
    rfl

/-- Keys in ascending order both ways are one key. -/
lemma eq_of_ascend_reverse {keys : List Bytes} (h : KeysAscend keys) (h' : KeysAscend keys.reverse) :
    ∀ a ∈ keys, ∀ b ∈ keys, a = b := by
  have hle : ∀ ⦃a⦄, a ∈ keys → ∀ ⦃b⦄, b ∈ keys → (compare a b).isLE = true :=
    List.Pairwise.forall_of_forall_of_flip (fun a _ => by simp [Std.ReflCmp.compare_self]) h
      (List.pairwise_reverse.mp h')
  exact fun a ha b hb => eq_of_isLE (hle ha hb) (hle hb ha)

/-- The live objects whose names begin with `start` have at most one key. -/
def OneKey (w : KvWorld) (b start : Bytes) : Prop := ∀ k key k' key', start <+: k → start <+: k' →
  LiveAt w b k key → LiveAt w b k' key' → key = key'

/-- Any listing tells whether there is one key. -/
lemma oneKey_iff (order : Shuffle) : OneKey w b start ↔
    ∀ a ∈ listedKeys w order b start, ∀ c ∈ listedKeys w order b start, a = c := by
  constructor
  · intro h a ha c hc
    obtain ⟨k, hk, hlive⟩ := mem_listedKeys.mp ha
    obtain ⟨k', hk', hlive'⟩ := mem_listedKeys.mp hc
    exact h k a k' c hk hk' hlive hlive'
  · intro h k key k' key' hk hk' hlive hlive'
    exact h _ (mem_listedKeys.mpr ⟨k, hk, hlive⟩) _ (mem_listedKeys.mpr ⟨k', hk', hlive'⟩)

lemma OneKey.keysAscend (h : OneKey w b start) (order : Shuffle) :
    KeysAscend (listedKeys w order b start) := by
  refine List.pairwise_of_forall_mem_list fun a ha c hc => ?_
  rw [(oneKey_iff order).mp h a ha c hc]
  simp [Std.ReflCmp.compare_self]

lemma OneKey.of_sameLive (h : OneKey w b start) (hsame : SameLive w w' b) : OneKey w' b start :=
  fun k key k' key' hk hk' hlive hlive' =>
    h k key k' key' hk hk' ((hsame _ _).mpr hlive) ((hsame _ _).mpr hlive')

end Listings

/-- **When the listings are ordered.** Behind two runs that leave the same live objects in a bucket,
whatever the orders in which the hash maps are scanned, both listings are in ascending order and the
same, exactly when the live objects that are asked for have at most one key. -/
theorem listings_ordered_iff (o : ObjectStore) (ops₁ ops₂ : List Op) (w₁ w₂ : KvWorld)
    (b start : Bytes) (hsame : SameLive (run o ops₁ w₁) (run o ops₂ w₂) b) :
    (∀ order₁ order₂ : Shuffle,
      KeysAscend (listedKeys (run o ops₁ w₁) order₁ b start) ∧
      KeysAscend (listedKeys (run o ops₂ w₂) order₂ b start) ∧
      listedKeys (run o ops₁ w₁) order₁ b start = listedKeys (run o ops₂ w₂) order₂ b start) ↔
    OneKey (run o ops₁ w₁) b start := by
  constructor
  · intro h
    have hforwards := (h forwards forwards).1
    have hbackwards := (h backwards forwards).1
    rw [listedKeys_backwards] at hbackwards
    exact (oneKey_iff forwards).mpr (eq_of_ascend_reverse hforwards hbackwards)
  · intro h order₁ order₂
    have hasc₁ := h.keysAscend order₁
    have hasc₂ := (h.of_sameLive hsame).keysAscend order₂
    exact ⟨hasc₁, hasc₂, listedKeys_eq hsame hasc₁ hasc₂⟩

lemma one_byte_lt : (text "1").length < 2 ^ 64 := by decide

/-- A put of one byte in the bucket `b`. -/
def putKey (key : Bytes) : Op := .putObject ⟨text "b", key, text "1", [], one_byte_lt⟩

lemma sameLive_of_toList {w w' : KvWorld} (h : w.map.toList = w'.map.toList) (b : Bytes) :
    SameLive w w' b := by
  have hmap : w.map = w'.map := Std.ExtTreeMap.toList_inj.mp h
  intro k key
  rw [LiveAt, LiveAt, hmap]

/-- An object that is written once and twice. -/
theorem listings_ordered_iff_one :
    listedKeys (run smallStore [.createBucket (text "b"), putKey (text "x")] emptyWorld) backwards
      (text "b") [] =
    listedKeys (run smallStore [.createBucket (text "b"), putKey (text "x"), putKey (text "x")]
      emptyWorld) forwards (text "b") [] := by
  have hsame : SameLive (run smallStore [.createBucket (text "b"), putKey (text "x")] emptyWorld)
      (run smallStore [.createBucket (text "b"), putKey (text "x"), putKey (text "x")] emptyWorld)
      (text "b") := sameLive_of_toList (by decide +kernel) _
  refine ((listings_ordered_iff _ _ _ _ _ _ [] hsame).mpr ?_ backwards forwards).2.2
  have hlisted : listedKeys (run smallStore [.createBucket (text "b"), putKey (text "x")] emptyWorld)
      forwards (text "b") [] = [text "x"] := by decide +kernel
  rw [oneKey_iff forwards, hlisted]
  simp

/-- **Two objects are listed in the order of the scan**: the later key first, and behind another run
with the same live objects the other way round. -/
theorem listings_in_scan_order :
    SameLive
      (run smallStore [.createBucket (text "b"), putKey (text "x"), putKey (text "y")] emptyWorld)
      (run smallStore [.createBucket (text "b"), putKey (text "y"), putKey (text "x")] emptyWorld)
      (text "b") ∧
    listedKeys (run smallStore [.createBucket (text "b"), putKey (text "x"), putKey (text "y")]
      emptyWorld) backwards (text "b") [] = [text "y", text "x"] ∧
    ¬ KeysAscend [text "y", text "x"] ∧
    listedKeys (run smallStore [.createBucket (text "b"), putKey (text "y"), putKey (text "x")]
      emptyWorld) forwards (text "b") [] = [text "x", text "y"] := by
  refine ⟨sameLive_of_toList (by decide +kernel) _, by decide +kernel, ?_, by decide +kernel⟩
  unfold KeysAscend
  decide

end VeriStore.Object

import VeriStore.Store.Compaction
import VeriStore.Store.Rotation

/-!
The names of the tables.

A flush takes the next number of the store for its file, a compaction the next number whose name
is not in use. Inside a session the numbers only go up, so that a name is not given twice. At
`open` the counter is first set behind the largest number in the manifest and then, by the last
assignment, to the number of live tables; after a compaction that is too small.

* `names_fresh` — no live name is given out while every live flushed table has a number below the
  number of live tables at `open`, whatever the system calls do;
* `flush_reuses_name` — four flushes, a compaction, a restart and a flush over a live table.
-/

namespace VeriStore.Store

open VeriStore.Lib VeriStore.Sstable VeriStore.Log

open KVStore (CompactJob CompactIo OpenIo)

/-! ### Lines of the manifest -/

/-- What an append to a file does to its lines: it adds a line or lengthens the last one. -/
lemma mem_lines_append {m c l : Bytes} (hc : newline ∉ c)
    (h : l ∈ lines (m ++ c) ∨ l ∈ lines (m ++ c ++ [newline])) :
    l ∈ lines m ∨ ∃ x, l = x ++ c := by
  -- whole lines and the begun last one
  obtain ⟨a, t, rfl, ha, ht⟩ : ∃ a t, m = a ++ t ∧ WholeLines a ∧ newline ∉ t := by
    by_cases hm : WholeLines m
    · exact ⟨m, [], by simp, hm, by simp⟩
    · obtain ⟨a, t, hm, ha, -, ht⟩ := exists_last_line hm
      exact ⟨a, t, hm, ha, ht⟩
  have htc : newline ∉ t ++ c := by simp [ht, hc]
  have hlast : ∀ l ∈ lines (t ++ c), l = t ++ c := by
    intro l hl
    by_cases hnil : t ++ c = []
    · simp [hnil] at hl
    · simpa [lines_eq_singleton hnil htc] using hl
  have hclosed : lines (t ++ c ++ [newline]) = [t ++ c] := lines_append htc
  rw [List.append_assoc, List.append_assoc, lines_append_of_whole ha, lines_append_of_whole ha,
    hclosed, List.mem_append, List.mem_append] at h
  rw [lines_append_of_whole ha, List.mem_append]
  rcases h with (h | h) | h | h
  · exact Or.inl (Or.inl h)
  · exact Or.inr ⟨t, hlast l h⟩
  · exact Or.inl (Or.inl h)
  · exact Or.inr ⟨t, List.mem_singleton.mp h⟩

/-- The directory and the stem of all names. -/
def stem : Bytes := text "/tmp/veristore-"

lemma flushPath_eq (i : ℕ) : flushPath i = stem ++ (decimal i ++ text ".sst") := by
  rw [flushPath, List.append_assoc]
  rfl

lemma compactedPath_eq (i : ℕ) :
    compactedPath i = stem ++ (text "compacted-" ++ (decimal i ++ text ".sst")) := by
  have hsplit : text "/tmp/veristore-compacted-" = stem ++ text "compacted-" := by decide
  rw [compactedPath, hsplit, List.append_assoc, List.append_assoc]

/-- The slash does not occur behind the stem. -/
abbrev slash : UInt8 := 47

lemma slash_notMem_number (i : ℕ) : slash ∉ decimal i ++ text ".sst" := by
  intro h
  rcases List.mem_append.mp h with h | h
  · exact absurd (isDigit_of_mem_decimal i slash h) (by decide)
  · exact absurd h (by decide)

/-- **A torn name stands alone**: the first bytes of a name can be a whole name only where nothing
stands before them. -/
lemma eq_nil_of_append_name {x r r' : Bytes} {n : ℕ} (hn : 0 < n) (hr : slash ∉ r)
    (h : x ++ (stem ++ r').take n = stem ++ r) : x = [] := by
  have hhead : ((stem ++ r').take n)[0]? = some slash := by
    rw [List.getElem?_take_of_lt hn]
    rfl
  have hslash : (stem ++ r)[x.length]? = some slash := by
    rw [← h, List.getElem?_append_right le_rfl, Nat.sub_self, hhead]
  have hlt : x.length < stem.length := by
    by_contra hge
    rw [List.getElem?_append_right (not_lt.mp hge)] at hslash
    exact hr (List.mem_of_getElem? hslash)
  rw [List.getElem?_append_left hlt] at hslash
  have hpos : ∀ k < stem.length, stem[k]? = some slash → k = 0 ∨ k = 4 := by decide
  rcases hpos _ hlt hslash with h0 | h4
  · exact List.length_eq_zero_iff.mp h0
  · -- behind the second slash of the stem stands a `v`, behind the first one a `t`
    have hv : ((stem ++ r').take n)[1]? = some 118 := by
      have : (stem ++ r)[x.length + 1]? = some 118 := by rw [h4]; rfl
      rw [← h, List.getElem?_append_right (by omega)] at this
      simpa using this
    have h1 : 1 < n := by
      by_contra hle
      rw [List.getElem?_take_eq_none (by omega)] at hv
      exact absurd hv (by simp)
    rw [List.getElem?_take_of_lt h1] at hv
    have ht : (stem ++ r')[1]? = some 116 := rfl
    exact absurd (hv.symm.trans ht) (by decide)

lemma flushPath_of_append {x : Bytes} {i j n : ℕ} (hn : 0 < n)
    (h : x ++ (flushPath j).take n = flushPath i) : i = j := by
  rw [flushPath_eq, flushPath_eq] at h
  obtain rfl := eq_nil_of_append_name hn (slash_notMem_number i) h
  have hdot : ∀ s : Bytes, ∀ b, (text ".sst" ++ s).head? = some b → isDigit b = false := by
    intro s b hb
    obtain rfl : ascii '.' = b := by simpa [text] using hb
    rfl
  -- both numbers are the digits in front of the first dot
  have hpre : decimal i ++ text ".sst" <+: decimal j ++ text ".sst" := by
    rw [List.nil_append] at h
    have := List.take_prefix n (stem ++ (decimal j ++ text ".sst"))
    rw [h] at this
    exact (List.prefix_append_right_inj stem).mp this
  obtain ⟨t, ht⟩ := hpre
  have hi := (takeWhile_append_stop (isDigit_of_mem_decimal i) (hdot t)).1
  have hj := (takeWhile_append_stop (isDigit_of_mem_decimal j) (hdot [])).1
  rw [List.append_nil, ← ht, List.append_assoc, hi] at hj
  exact decimal_injective hj

lemma compactedPath_ne_append (x : Bytes) (i j n : ℕ) (hn : 0 < n) :
    x ++ (flushPath j).take n ≠ compactedPath i := by
  intro h
  rw [flushPath_eq, compactedPath_eq] at h
  have hr : slash ∉ text "compacted-" ++ (decimal i ++ text ".sst") := by
    intro hm
    rcases List.mem_append.mp hm with hm | hm
    · exact absurd hm (by decide)
    · exact slash_notMem_number i hm
  obtain rfl := eq_nil_of_append_name hn hr h
  have hpre : text "compacted-" ++ (decimal i ++ text ".sst") <+: decimal j ++ text ".sst" := by
    rw [List.nil_append] at h
    have := List.take_prefix n (stem ++ (decimal j ++ text ".sst"))
    rw [h] at this
    exact (List.prefix_append_right_inj stem).mp this
  obtain ⟨t, ht⟩ := hpre
  cases hd : decimal j with
  | nil => exact decimal_ne_nil j hd
  | cons c r =>
    have hc := isDigit_of_mem_decimal j c (by rw [hd]; simp)
    rw [hd] at ht
    obtain rfl : 99 = c := (List.cons.inj ht).1
    exact absurd hc (by decide)

/-- **An append of the name of a table to the manifest**, whole or torn, adds no other name. -/
lemma names_append {m : Option Bytes} {j n : ℕ} {p : Bytes}
    (hp : p ∈ loadSstables (some (m.getD [] ++ (manifestLine (flushPath j)).take n))) :
    p ∈ loadSstables m ∨ ((∀ i, p = flushPath i → i = j) ∧ ∀ i, p ≠ compactedPath i) := by
  obtain ⟨hl, hne⟩ := List.mem_filter.mp hp
  have hnl : newline ∉ flushPath j := (TablePath.line (n := j + 1) ⟨j, by omega, Or.inl rfl⟩).2
  rcases Nat.eq_zero_or_pos n with rfl | hn
  · left
    rw [List.take_zero, List.append_nil] at hp
    exact hp
  have hcut : p ∈ lines (m.getD [] ++ (flushPath j).take n) ∨
      p ∈ lines (m.getD [] ++ (flushPath j).take n ++ [newline]) := by
    rw [Option.getD_some, manifestLine, List.take_append] at hl
    by_cases hle : n ≤ (flushPath j).length
    · left
      rwa [Nat.sub_eq_zero_of_le hle, List.take_zero, List.append_nil] at hl
    · right
      rwa [List.take_of_length_le (l := [newline]) (by simp; omega), ← List.append_assoc] at hl
  rcases mem_lines_append (fun hm => hnl (List.mem_of_mem_take hm)) hcut with hm | ⟨x, rfl⟩
  · exact Or.inl (List.mem_filter.mpr ⟨hm, hne⟩)
  · exact Or.inr ⟨fun i h => flushPath_of_append hn h, fun i => compactedPath_ne_append x i j n hn⟩

/-- **What a step of the worker does to the manifest**: it appends the name of a task that it has,
whole or torn, or leaves the names as they were; and it completes tasks that it has. -/
lemma FlushWorker.step_names {w w' : FlushWorker} {d d' : Disk} {io : WriteOutcome}
    (h : w.step d io = some (w', d')) :
    (∀ p ∈ w'.completions, p ∈ w.completions ∨ ∃ t ∈ w.held, t.sstablePath = p) ∧
    (loadSstables d'.manifest = loadSstables d.manifest ∨ ∃ t ∈ w.held, ∃ n,
      d'.manifest = some (d.manifest.getD [] ++ (manifestLine t.sstablePath).take n)) := by
  unfold FlushWorker.step at h
  split at h
  · split at h
    · obtain ⟨rfl, rfl⟩ := Prod.mk.inj (Option.some.inj h)
      exact ⟨fun p hp => Or.inl hp, Or.inl rfl⟩
    · split at h
      · obtain ⟨rfl, rfl⟩ := Prod.mk.inj (Option.some.inj h)
        exact ⟨fun p hp => Or.inl hp, Or.inl rfl⟩
      · simp at h
  · split at h
    all_goals
      obtain ⟨rfl, rfl⟩ := Prod.mk.inj (Option.some.inj h)
      exact ⟨fun p hp => Or.inl hp, Or.inl rfl⟩
  · split at h
    all_goals
      obtain ⟨rfl, rfl⟩ := Prod.mk.inj (Option.some.inj h)
      exact ⟨fun p hp => Or.inl hp, Or.inl rfl⟩
  · next t existing hpc =>
    have ht : t ∈ w.held := by simp [FlushWorker.held, hpc]
    split at h
    · obtain ⟨rfl, rfl⟩ := Prod.mk.inj (Option.some.inj h)
      exact ⟨fun p hp => Or.inl hp, Or.inl rfl⟩
    · split at h
      · obtain ⟨rfl, rfl⟩ := Prod.mk.inj (Option.some.inj h)
        refine ⟨fun p hp => Or.inl hp, Or.inr ⟨t, ht, (manifestLine t.sstablePath).length, ?_⟩⟩
        rw [List.take_length]
      · obtain ⟨rfl, rfl⟩ := Prod.mk.inj (Option.some.inj h)
        exact ⟨fun p hp => Or.inl hp, Or.inl rfl⟩
      · obtain ⟨rfl, rfl⟩ := Prod.mk.inj (Option.some.inj h)
        exact ⟨fun p hp => Or.inl hp, Or.inr ⟨t, ht, _, rfl⟩⟩
  · next t hpc =>
    obtain ⟨rfl, rfl⟩ := Prod.mk.inj (Option.some.inj h)
    refine ⟨fun p hp => ?_, Or.inl rfl⟩
    rcases List.mem_append.mp hp with hp | hp
    · exact Or.inl hp
    · exact Or.inr ⟨t, by simp [FlushWorker.held, hpc], (List.mem_singleton.mp hp).symm⟩
  · simp at h

/-! ### The invariant -/

/-- The compaction in progress. -/
def Pc.job : Pc → Option CompactJob
  | .merged _ _ j | .renamed _ _ j | .replaced _ _ j => some j
  | _ => none

namespace Process

/-- The tables that the manifest lists, inside a compaction behind the change of the manifest. -/
def live (σ : Process) : List Bytes :=
  match σ.pc with
  | .replaced _ _ j => j.updatedPaths
  | _ => σ.store.sstablePaths

/-- The output of a compaction replaces the first two tables. -/
def JobNamed (σ : Process) (j : CompactJob) : Prop :=
  ∃ rest i, σ.store.sstablePaths = j.first :: j.second :: rest ∧
    j.updatedPaths = j.output :: rest ∧ j.output = compactedPath i

/-- A name of a flush that has been given out. -/
def Given (σ : Process) (p : Bytes) : Prop := ∃ i < σ.store.nextSstableId, p = flushPath i

/-- **The names in a session**: the numbers of all flushed tables have been given out, and the
manifest lists no compacted table but the live ones. -/
structure Named (σ : Process) : Prop where
  line : ∀ p ∈ σ.store.sstablePaths, p ≠ [] ∧ newline ∉ p
  flushed : ∀ i, flushPath i ∈ σ.store.sstablePaths → i < σ.store.nextSstableId
  listed : ∀ i, flushPath i ∈ loadSstables σ.disk.manifest → i < σ.store.nextSstableId
  compacted : ∀ i, compactedPath i ∈ loadSstables σ.disk.manifest → compactedPath i ∈ σ.live
  held : ∀ t ∈ σ.store.flushWorker.held, σ.Given t.sstablePath
  completed : ∀ p ∈ σ.store.flushWorker.completions, σ.Given p
  job : ∀ j, σ.pc.job = some j → σ.JobNamed j

lemma live_of_job {σ : Process} (h : σ.pc.job = none) : σ.live = σ.store.sstablePaths := by
  unfold live
  split
  · next hpc => simp [hpc, Pc.job] at h
  · rfl

/-- A step that leaves the tables and the worker alone. -/
lemma Named.quiet {σ σ' : Process} (h : σ.Named) (hj : σ.pc.job = none) (hj' : σ'.pc.job = none)
    (hp : σ'.store.sstablePaths = σ.store.sstablePaths)
    (hn : σ'.store.nextSstableId = σ.store.nextSstableId)
    (hw : σ'.store.flushWorker = σ.store.flushWorker) (hm : σ'.disk.manifest = σ.disk.manifest) :
    σ'.Named where
  line := by rw [hp]; exact h.line
  flushed := by rw [hp, hn]; exact h.flushed
  listed := by rw [hm, hn]; exact h.listed
  compacted := by rw [hm, live_of_job hj', hp, ← live_of_job hj]; exact h.compacted
  held := by unfold Given; rw [hw, hn]; exact h.held
  completed := by unfold Given; rw [hw, hn]; exact h.completed
  job j he := by rw [hj'] at he; exact absurd he (by simp)

lemma Given.line {σ : Process} {p : Bytes} (h : σ.Given p) : p ≠ [] ∧ newline ∉ p := by
  obtain ⟨i, -, rfl⟩ := h
  exact TablePath.line (n := i + 1) ⟨i, by omega, Or.inl rfl⟩

/-! ### The steps -/

lemma Named.write {σ : Process} (h : σ.Named) (hpc : σ.pc = .idle) (key : Bytes)
    (value : Option Bytes) : (σ.write key value).Named := by
  have hj : σ.pc.job = none := by simp [hpc, Pc.job]
  unfold Process.write
  split
  · exact h
  · split
    · exact h.quiet hj hj rfl rfl rfl rfl
    · obtain ⟨m, n, w, hl⟩ := σ.store.logged_frame ⟨σ.store.seq + 1, key, value⟩
      simp only [hl]
      exact h.quiet hj rfl rfl rfl rfl rfl

lemma Named.rotate {σ : Process} (h : σ.Named) (hpc : σ.pc = .rotating) : σ.rotate.Named := by
  obtain ⟨hs, hd, -, hpc'⟩ := σ.rotate_frame
  have hj : σ.pc.job = none := by simp [hpc, Pc.job]
  have hj' : σ.rotate.pc.job = none := by
    rcases hpc' with hpc' | hpc' <;> simp [hpc', Pc.job]
  rcases σ.store.maybeFlushMemtable_cases with ⟨ok, e⟩ | ⟨-, e⟩ | ⟨-, e⟩
  · rw [e] at hs
    exact h.quiet hj hj' (by rw [hs]) (by rw [hs]) (by rw [hs]) (by rw [hd])
  · rw [e] at hs
    exact h.quiet hj hj' (by rw [hs]) (by rw [hs]) (by rw [hs]) (by rw [hd])
  · -- the next number is given out
    rw [e] at hs
    have hn : σ.rotate.store.nextSstableId = σ.store.nextSstableId + 1 := by rw [hs]; rfl
    have hgiven : ∀ {p}, σ.Given p → σ.rotate.Given p := by
      rintro p ⟨i, hi, rfl⟩
      exact ⟨i, by omega, rfl⟩
    refine ⟨by rw [hs]; exact h.line, fun i hi => ?_, fun i hi => ?_, fun i hi => ?_, fun t ht => ?_,
      fun p hp => hgiven (h.completed p ?_), fun j he => by rw [hj'] at he; exact absurd he (by simp)⟩
    · have := h.flushed i (by rw [hs] at hi; exact hi)
      omega
    · have := h.listed i (by rw [hd] at hi; exact hi)
      omega
    · have := h.compacted i (by rw [hd] at hi; exact hi)
      rw [live_of_job hj] at this
      rw [live_of_job hj', hs]
      exact this
    · have ht : t ∈ ((σ.store.flushWorker.enqueue σ.store.flushTask).2).held := by
        rw [hs] at ht
        exact ht
      have hcases : t ∈ σ.store.flushWorker.held ∨ t = σ.store.flushTask := by
        unfold FlushWorker.enqueue at ht
        split at ht
        · exact Or.inl ht
        · simpa [FlushWorker.held, or_assoc, or_comm, or_left_comm] using ht
      rcases hcases with ht | rfl
      · exact hgiven (h.held t ht)
      · exact ⟨σ.store.nextSstableId, by omega, rfl⟩
    · rw [hs, completions_rotated] at hp
      exact hp

lemma Named.drain {σ : Process} (h : σ.Named) {key : Bytes} {t : ℕ} {added : Bool}
    (hpc : σ.pc = .draining key t added) : (σ.drain key t added).Named := by
  have hj : σ.pc.job = none := by simp [hpc, Pc.job]
  unfold Process.drain KVStore.drainOne FlushWorker.pollCompletion
  cases hc : σ.store.flushWorker.completions with
  | nil =>
    refine h.quiet hj ?_ rfl rfl rfl rfl
    cases added <;> rfl
  | cons p ps =>
    have hp : σ.Given p := h.completed p (by simp [hc])
    have hmem : ∀ q, q ∈ (if p ∈ σ.store.sstablePaths then σ.store.sstablePaths
        else σ.store.sstablePaths ++ [p]) ↔ q ∈ σ.store.sstablePaths ∨ q = p := by
      intro q
      split
      · next hin => exact ⟨Or.inl, fun hq => hq.elim id fun e => e ▸ hin⟩
      · simp
    refine ⟨fun q hq => ?_, fun i hi => ?_, h.listed, fun i hi => ?_, h.held, fun q hq => ?_,
      fun j he => absurd he (by simp [Pc.job])⟩
    · rcases (hmem q).mp hq with hq | rfl
      · exact h.line q hq
      · exact hp.line
    · rcases (hmem _).mp hi with hi | hi
      · exact h.flushed i hi
      · obtain ⟨k, hk, he⟩ := hp
        exact flushPath_injective (hi.trans he) ▸ hk
    · have hl := h.compacted i hi
      rw [live_of_job hj] at hl
      exact (hmem _).mpr (Or.inl hl)
    · exact h.completed q (by rw [hc]; exact List.mem_cons_of_mem p hq)

/-- The counter goes up to the number of the output. -/
lemma Named.begin {σ σ' : Process} (h : σ.Named) {n : ℕ} (hn : σ.store.nextSstableId ≤ n)
    (hj : σ.pc.job = none) (hs : σ'.store = { σ.store with nextSstableId := n })
    (hm : σ'.disk.manifest = σ.disk.manifest) (hpc : ∀ key t j, σ'.pc ≠ .replaced key t j)
    (hjob : ∀ j, σ'.pc.job = some j → σ'.JobNamed j) : σ'.Named := by
  have hgiven : ∀ {p}, σ.Given p → σ'.Given p := by
    rintro p ⟨i, hi, rfl⟩
    exact ⟨i, by rw [hs]; exact hi.trans_le hn, rfl⟩
  refine ⟨by rw [hs]; exact h.line, fun i hi => ?_, fun i hi => ?_, fun i hi => ?_, fun t ht => ?_,
    fun p hp => ?_, hjob⟩
  · rw [hs] at hi ⊢
    exact (h.flushed i hi).trans_le hn
  · rw [hm] at hi
    rw [hs]
    exact (h.listed i hi).trans_le hn
  · rw [hm] at hi
    have hl := h.compacted i hi
    rw [live_of_job hj] at hl
    unfold live
    split
    · next hr => exact absurd hr (hpc _ _ _)
    · rw [hs]
      exact hl
  · rw [hs] at ht
    exact hgiven (h.held t ht)
  · rw [hs] at hp
    exact hgiven (h.completed p hp)

/-- A duplicate entry is dropped; the names are the same. -/
lemma Named.dropped {σ σ' : Process} (h : σ.Named) (hj : σ.pc.job = none)
    (hj' : σ'.pc.job = none) {first : Bytes} {rest : List Bytes}
    (hp : σ.store.sstablePaths = first :: first :: rest)
    (hs : σ'.store = { σ.store with sstablePaths := first :: rest })
    (hm : σ'.disk.manifest = σ.disk.manifest ∨
      σ'.disk.manifest = some (replaceSstables (first :: rest))) : σ'.Named := by
  have hsub : ∀ q, q ∈ first :: rest ↔ q ∈ σ.store.sstablePaths := by
    intro q
    rw [hp]
    simp
  have hload : ∀ q ∈ loadSstables σ'.disk.manifest,
      q ∈ loadSstables σ.disk.manifest ∨ q ∈ σ.store.sstablePaths := by
    intro q hq
    rcases hm with hm | hm
    · rw [hm] at hq
      exact Or.inl hq
    · rw [hm, loadSstables_replaceSstables fun p hp => h.line p ((hsub p).mp hp)] at hq
      exact Or.inr ((hsub q).mp hq)
  have hgiven : ∀ {p}, σ.Given p → σ'.Given p := by
    rintro p ⟨i, hi, rfl⟩
    exact ⟨i, by rw [hs]; exact hi, rfl⟩
  refine ⟨fun q hq => ?_, fun i hi => ?_, fun i hi => ?_, fun i hi => ?_, fun t ht => ?_,
    fun p hc => ?_, fun j he => ?_⟩
  · rw [hs] at hq
    exact h.line q ((hsub q).mp hq)
  · rw [hs] at hi ⊢
    exact h.flushed i ((hsub _).mp hi)
  · rw [hs]
    rcases hload _ hi with hi | hi
    · exact h.listed i hi
    · exact h.flushed i hi
  · rw [live_of_job hj', hs, hsub]
    rcases hload _ hi with hi | hi
    · have hl := h.compacted i hi
      rwa [live_of_job hj] at hl
    · exact hi
  · rw [hs] at ht
    exact hgiven (h.held t ht)
  · rw [hs] at hc
    exact hgiven (h.completed p hc)
  · rw [hj'] at he
    cases he

lemma Named.compact {σ : Process} (h : σ.Named) {key : Bytes} {t : ℕ} {io : WriteOutcome}
    (hpc : σ.pc = .compacting key t) : (σ.compact key t io).Named := by
  have hj : σ.pc.job = none := by simp [hpc, Pc.job]
  unfold Process.compact
  split
  · exact h.quiet hj rfl rfl rfl rfl rfl
  split
  · next first second rest hp =>
    split
    · next he =>
      subst he
      exact h.dropped hj rfl hp rfl (by cases io <;> simp)
    · obtain ⟨i, hle, hfresh, _⟩ := freshOutput_notMem σ.store.sstablePaths σ.store.nextSstableId
      simp only [KVStore.compactBegin, hfresh]
      split
      · next d hd =>
        obtain ⟨tb, rfl⟩ := KVStore.compactWrite_frame hd
        exact h.begin (by omega) hj rfl rfl (by simp) (by simp [Pc.job])
      · next d hd =>
        obtain ⟨tb, rfl⟩ := KVStore.compactWrite_frame hd
        refine h.begin (n := i + 1) (by omega) hj rfl rfl (by simp) ?_
        intro j he
        obtain rfl := Option.some.inj he
        exact ⟨rest, i, hp, rfl, rfl⟩
  · exact h.quiet hj rfl rfl rfl rfl rfl

lemma Named.rename {σ : Process} (h : σ.Named) {key : Bytes} {t : ℕ} {j : CompactJob} {ok : Bool}
    (hpc : σ.pc = .merged key t j) : (σ.rename key t j ok).Named := by
  have hlive : σ.live = σ.store.sstablePaths := by simp [live, hpc]
  have hjob := h.job j (by simp [hpc, Pc.job])
  have hcompacted : ∀ i, compactedPath i ∈ loadSstables σ.disk.manifest →
      compactedPath i ∈ σ.store.sstablePaths := fun i hi => hlive ▸ h.compacted i hi
  unfold Process.rename
  split
  · next d hd =>
    obtain ⟨tb, rfl⟩ := KVStore.compactRename_frame hd
    refine ⟨h.line, h.flushed, h.listed, hcompacted, h.held, h.completed, fun j' he => ?_⟩
    obtain rfl := Option.some.inj he
    exact hjob
  · next d hd =>
    obtain ⟨tb, rfl⟩ := KVStore.compactRename_frame hd
    exact ⟨h.line, h.flushed, h.listed, hcompacted, h.held, h.completed, nofun⟩

lemma Named.replace {σ : Process} (h : σ.Named) {key : Bytes} {t : ℕ} {j : CompactJob} {ok : Bool}
    (hpc : σ.pc = .renamed key t j) : (σ.replace key t j ok).Named := by
  have hlive : σ.live = σ.store.sstablePaths := by simp [live, hpc]
  obtain ⟨rest, i, hp, hu, ho⟩ := h.job j (by simp [hpc, Pc.job])
  have hrest : ∀ q ∈ rest, q ∈ σ.store.sstablePaths := fun q hq => by
    rw [hp]
    simp [hq]
  have hout : ∀ k, flushPath k ≠ j.output := fun k he =>
    flushPath_ne_compactedPath k i (he.trans ho)
  unfold Process.replace KVStore.compactReplace
  cases ok with
  | false =>
    refine ⟨h.line, h.flushed, h.listed, fun i hi => ?_, h.held, h.completed, nofun⟩
    have hl := h.compacted i hi
    rwa [hlive] at hl
  | true =>
    have hload : loadSstables (some (replaceSstables j.updatedPaths)) = j.updatedPaths := by
      refine loadSstables_replaceSstables fun q hq => ?_
      rw [hu] at hq
      rcases List.mem_cons.mp hq with rfl | hq
      · rw [ho]
        exact TablePath.line (n := i + 1) ⟨i, by omega, Or.inr rfl⟩
      · exact h.line q (hrest q hq)
    refine ⟨h.line, h.flushed, fun k hk => ?_, fun k hk => ?_, h.held, h.completed, ?_⟩
    · have hk : flushPath k ∈ loadSstables (some (replaceSstables j.updatedPaths)) := hk
      rw [hload, hu] at hk
      rcases List.mem_cons.mp hk with he | hk
      · exact absurd he (hout k)
      · exact h.flushed k (hrest _ hk)
    · have hk : compactedPath k ∈ loadSstables (some (replaceSstables j.updatedPaths)) := hk
      rwa [hload] at hk
    · intro j' he
      obtain rfl := Option.some.inj he
      exact ⟨rest, i, hp, hu, ho⟩

lemma Named.finish {σ : Process} (h : σ.Named) {key : Bytes} {t : ℕ} {j : CompactJob}
    (hpc : σ.pc = .replaced key t j) : (σ.finish key t j).Named := by
  have hlive : σ.live = j.updatedPaths := by simp [live, hpc]
  obtain ⟨rest, i, hp, hu, ho⟩ := h.job j (by simp [hpc, Pc.job])
  have hcases : ∀ q ∈ j.updatedPaths, q = compactedPath i ∨ q ∈ σ.store.sstablePaths := by
    intro q hq
    rw [hu] at hq
    rcases List.mem_cons.mp hq with rfl | hq
    · exact Or.inl ho
    · exact Or.inr (by rw [hp]; simp [hq])
  refine ⟨fun q hq => ?_, fun k hk => ?_, h.listed, fun k hk => ?_, h.held, h.completed, nofun⟩
  · rcases hcases q hq with rfl | hq
    · exact TablePath.line (n := i + 1) ⟨i, by omega, Or.inr rfl⟩
    · exact h.line q hq
  · rcases hcases _ hk with he | hk
    · exact absurd he (flushPath_ne_compactedPath k i)
    · exact h.flushed k hk
  · have hl := h.compacted k hk
    rwa [hlive] at hl

lemma Named.work {σ σ' : Process} (h : σ.Named) {io : WriteOutcome} (hw : σ.work io = some σ') :
    σ'.Named := by
  obtain ⟨w, d, hstep, rfl⟩ := Process.work_frame hw
  obtain ⟨hc, hm⟩ := FlushWorker.step_names hstep
  have hlines : ∀ p ∈ loadSstables d.manifest, p ∈ loadSstables σ.disk.manifest ∨
      ((∀ i, p = flushPath i → i < σ.store.nextSstableId) ∧ ∀ i, p ≠ compactedPath i) := by
    intro p hp
    rcases hm with hm | ⟨t, ht, n, hm⟩
    · exact Or.inl (hm ▸ hp)
    · obtain ⟨j, hj, he⟩ := h.held t ht
      rw [hm, he] at hp
      exact (names_append hp).imp_right fun ⟨h1, h2⟩ => ⟨fun i hi => h1 i hi ▸ hj, h2⟩
  refine ⟨h.line, h.flushed, fun i hi => ?_, fun i hi => ?_, fun t ht => ?_, fun p hp => ?_, h.job⟩
  · rcases hlines _ hi with hi | ⟨hlt, -⟩
    · exact h.listed i hi
    · exact hlt i rfl
  · rcases hlines _ hi with hi | ⟨-, hne⟩
    · exact h.compacted i hi
    · exact absurd rfl (hne i)
  · exact h.held t ((FlushWorker.step_moves hstep).held t ht)
  · rcases hc p hp with hp | ⟨t, ht, rfl⟩
    · exact h.completed p hp
    · exact h.held t ht

/-- **Every step keeps the names.** -/
lemma Effect.named {σ σ' : Process} {a : Action} (he : σ.Effect a σ') (h : σ.Named) : σ'.Named := by
  cases he with
  | put key value hpc => exact h.write hpc key _
  | del key hpc =>
    unfold Process.del
    split
    · exact h.write hpc key _
    · exact h
  | rotate hpc => exact h.rotate hpc
  | commit io hpc =>
    obtain ⟨w, f, e⟩ := σ.commit_frame io
    rw [e]
    exact h.quiet (by simp [hpc, Pc.job]) rfl rfl rfl rfl rfl
  | flushWal io hpc =>
    obtain ⟨w, f, e⟩ := σ.flushWal_frame io
    rw [e]
    exact h.quiet (by simp [hpc, Pc.job]) rfl rfl rfl rfl rfl
  | setGroupCommitEvery n hpc =>
    have hj : σ.pc.job = none := by simp [hpc, Pc.job]
    exact h.quiet hj hj rfl rfl rfl rfl
  | getAt key t hpc => exact h.quiet (by simp [hpc, Pc.job]) rfl rfl rfl rfl rfl
  | drain key t added hpc => exact h.drain hpc
  | compact key t io hpc => exact h.compact hpc
  | rename key t j ok hpc => exact h.rename hpc
  | replace key t j ok hpc => exact h.replace hpc
  | finish key t j hpc => exact h.finish hpc
  | read key t hpc => exact h.quiet (by simp [hpc, Pc.job]) rfl rfl rfl rfl rfl
  | save io hpc =>
    obtain ⟨x, pc, e, hpc'⟩ := σ.save_frame io
    rw [e]
    refine h.quiet (by simp [hpc, Pc.job]) ?_ rfl rfl rfl rfl
    rcases hpc' with rfl | rfl
    · simp [hpc, Pc.job]
    · rfl
  | removeWal hpc => exact h.quiet (by simp [hpc, Pc.job]) rfl rfl rfl rfl rfl
  | reopenWal ok hpc => exact h.quiet (by simp [hpc, Pc.job]) rfl rfl rfl rfl rfl
  | work io _ hw => exact h.work hw

end Process

/-! ### Sessions -/

/-- A compaction leaves the live tables in the manifest, and no other name. -/
lemma KVStore.maybeCompactSstables_listed {s : KVStore} {d : Disk}
    (h : s.sstablePaths = loadSstables d.manifest) (io : CompactIo) :
    (∀ p ∈ (s.maybeCompactSstables d io).2.1.sstablePaths, p ≠ [] ∧ newline ∉ p) ∧
    ∀ p, p ∈ loadSstables (s.maybeCompactSstables d io).2.2.manifest ↔
      p ∈ (s.maybeCompactSstables d io).2.1.sstablePaths := by
  have hline : ∀ p ∈ s.sstablePaths, p ≠ [] ∧ newline ∉ p := by
    rw [h]
    exact fun p hp => loadSstables_line hp
  -- the manifest and the tables are as they were
  have hsame : ∀ {s' : KVStore} {d' : Disk}, s'.sstablePaths = s.sstablePaths →
      d'.manifest = d.manifest → (∀ p ∈ s'.sstablePaths, p ≠ [] ∧ newline ∉ p) ∧
        ∀ p, p ∈ loadSstables d'.manifest ↔ p ∈ s'.sstablePaths := by
    intro s' d' h1 h2
    rw [h1, h2, ← h]
    exact ⟨hline, fun p => Iff.rfl⟩
  have hreplaced : ∀ {ps : List Bytes}, (∀ p ∈ ps, p ≠ [] ∧ newline ∉ p) →
      ∀ p, p ∈ loadSstables (some (replaceSstables ps)) ↔ p ∈ ps := by
    intro ps hps p
    rw [loadSstables_replaceSstables hps]
  unfold KVStore.maybeCompactSstables
  split
  · exact hsame rfl rfl
  split
  · next first second rest hp =>
    have hrest : ∀ p ∈ first :: rest, p ∈ s.sstablePaths := by
      rw [hp]
      intro p hp
      rcases List.mem_cons.mp hp with rfl | hp <;> simp [*]
    split
    · next he =>
      have hline' : ∀ p ∈ first :: rest, p ≠ [] ∧ newline ∉ p := fun p hp => hline p (hrest p hp)
      cases io.replace with
      | true => exact ⟨hline', hreplaced hline'⟩
      | false =>
        refine ⟨hline', fun p => ?_⟩
        show p ∈ loadSstables d.manifest ↔ p ∈ first :: rest
        rw [← h, hp, ← he]
        simp
    · obtain ⟨i, -, hfresh, -⟩ := freshOutput_notMem s.sstablePaths s.nextSstableId
      simp only [KVStore.compactBegin, hfresh]
      split
      · next hd =>
        obtain ⟨tb, rfl⟩ := KVStore.compactWrite_frame hd
        exact hsame rfl rfl
      · next hd =>
        obtain ⟨tb, rfl⟩ := KVStore.compactWrite_frame hd
        split
        · next hd' =>
          obtain ⟨tb', rfl⟩ := KVStore.compactRename_frame hd'
          exact hsame rfl rfl
        · next hd' =>
          obtain ⟨tb', rfl⟩ := KVStore.compactRename_frame hd'
          have hline' : ∀ p ∈ compactedPath i :: rest, p ≠ [] ∧ newline ∉ p := by
            intro p hpm
            rcases List.mem_cons.mp hpm with rfl | hpm
            · exact TablePath.line (n := i + 1) ⟨i, by omega, Or.inr rfl⟩
            · exact hline p (hrest p (List.mem_cons_of_mem first hpm))
          unfold KVStore.compactReplace
          cases io.replace with
          | true => exact ⟨hline', hreplaced hline'⟩
          | false => exact hsame rfl rfl
  · exact hsame rfl rfl

/-- **The names at `open`**: no flushed table has a number from the number of live tables on. -/
def KVStore.Compactly (s : KVStore) : Prop :=
  ∀ i, flushPath i ∈ s.sstablePaths → i < s.sstablePaths.length

lemma Process.launch_named {d : Disk} {io : OpenIo} (hopen : (KVStore.new.open d io).1 = true)
    (h : (Process.launch d io).store.Compactly) : (Process.launch d io).Named := by
  obtain ⟨hm, good, e⟩ := KVStore.open_true hopen
  obtain ⟨s', d', hc, ho⟩ := (KVStore.recovered d good).openTables_true
    { d with wal := some (d.wal.getD []) } hm
  obtain ⟨hline, hlisted⟩ := KVStore.maybeCompactSstables_listed
    (s := (KVStore.recovered d good).listTables d.manifest)
    (d := { d with wal := some (d.wal.getD []), manifest := some (d.manifest.getD []) }) rfl
    io.compaction
  have hstore : (Process.launch d io).store =
      { s' with flushWorker := s'.flushWorker.start, nextSstableId := s'.sstablePaths.length } := by
    show (KVStore.new.open d io).2.1 = _
    rw [e, ho]
  have hdisk : (Process.launch d io).disk = d' := by
    show (KVStore.new.open d io).2.2 = _
    rw [e, ho]
  rw [hc] at hline hlisted
  have hone := Process.launch_oneFlush d io
  have himm : (Process.launch d io).store.immutable = none := by
    obtain ⟨m, t, w, n, hr⟩ := KVStore.recovered_frame d good
    obtain ⟨b, paths, n', w', m', t', hf⟩ := (KVStore.recovered d good).openTables_frame
      { d with wal := some (d.wal.getD []) } io
    show (KVStore.new.open d io).2.1.immutable = none
    rw [e, hf, hr]
    rfl
  obtain ⟨hheld, hcomp⟩ := hone.idle himm
  rw [KVStore.Compactly, hstore] at h
  refine ⟨?_, ?_, ?_, ?_, by simp [hheld], by simp [hcomp], fun j he => absurd he (by
    simp [Process.launch, Pc.job])⟩
  · rw [hstore]
    exact hline
  · rw [hstore]
    exact h
  · rw [hdisk, hstore]
    exact fun i hi => h i ((hlisted _).mp hi)
  · rw [Process.live_of_job (by simp [Process.launch, Pc.job]), hdisk, hstore]
    exact fun i hi => (hlisted _).mp hi

/-- **The names that are given out**: the path handed to the worker by a rotation, and the output
of a compaction. -/
inductive Process.HandsOut (σ : Process) : Bytes → Prop
  | flush (hpc : σ.pc = .rotating) (h : σ.store.Rotates) :
      HandsOut σ σ.store.flushTask.sstablePath
  | compact {key : Bytes} {t : ℕ} (hpc : σ.pc = .compacting key t)
      (hlen : kCompactionTrigger ≤ σ.store.sstablePaths.length) {first second : Bytes}
      {rest : List Bytes} (hp : σ.store.sstablePaths = first :: second :: rest)
      (hne : first ≠ second) : HandsOut σ (σ.store.compactBegin first second rest).2.output

/-- **No live name is given out.** In a session on any files, whatever the system calls do: if at
`open` every flushed table among the live ones has a number below their number, then a path handed
to the worker and the output of a compaction are neither among the live tables nor in the manifest.
The compaction at `open` never takes a name in use. -/
theorem names_fresh {d : Disk} {io : OpenIo} (hopen : (KVStore.new.open d io).1 = true) :
    (∀ s : KVStore, ∀ first second rest, loadSstables d.manifest = first :: second :: rest →
      ((s.listTables d.manifest).compactBegin first second rest).2.output ∉
        loadSstables d.manifest) ∧
    ((Process.launch d io).store.Compactly → ∀ (as : List Action) (σ : Process) (p : Bytes),
      (Process.launch d io).run as = some σ → σ.HandsOut p →
        p ∉ σ.store.sstablePaths ∧ p ∉ loadSstables σ.disk.manifest) := by
  have hnew : ∀ (s : KVStore) (first second : Bytes) (rest : List Bytes),
      (∃ i, (s.compactBegin first second rest).2.output = compactedPath i) ∧
        (s.compactBegin first second rest).2.output ∉ s.sstablePaths := by
    intro s first second rest
    obtain ⟨i, -, hfresh, hn⟩ := freshOutput_notMem s.sstablePaths s.nextSstableId
    simp only [KVStore.compactBegin, hfresh]
    exact ⟨⟨i, rfl⟩, hn⟩
  refine ⟨fun s first second rest _ => (hnew _ first second rest).2, ?_⟩
  intro hcond as σ p hrun hout
  have h : σ.Named := Process.run_induct (P := Process.Named) (Q := fun _ => True) hrun
    (fun _ _ => trivial) (Process.launch_named hopen hcond) fun _ _ _ _ he ih => he.named ih
  cases hout with
  | flush hpc hrot =>
    exact ⟨fun hm => absurd (h.flushed _ hm) (lt_irrefl _),
      fun hm => absurd (h.listed _ hm) (lt_irrefl _)⟩
  | compact hpc hlen hp hne =>
    obtain ⟨⟨i, hi⟩, hn⟩ := hnew σ.store _ _ _
    refine ⟨hn, fun hm => hn ?_⟩
    have hl := h.compacted i (hi ▸ hm)
    rw [Process.live_of_job (by simp [hpc, Pc.job])] at hl
    exact hi ▸ hl

/-! ### A name that is given out twice -/

/-- Four flushes, the last one with a compaction. -/
def fourFlushes (v : Bytes) : List Action :=
  flushCycle v ++ [.compact .ok, .read] ++ (flushCycle v ++ [.compact .ok, .read]) ++
    (flushCycle v ++ [.compact .ok, .read]) ++
    (flushCycle v ++ [.compact .ok, .rename true, .replace true, .finish, .read])

lemma flushPath_line (i : ℕ) : flushPath i ≠ [] ∧ newline ∉ flushPath i :=
  TablePath.line (n := i + 1) ⟨i, by omega, Or.inl rfl⟩

lemma rowOk_oneEntry {t : ℕ} (ht : t < 2 ^ 64) {v : Bytes} (hv : Clean v) :
    ∀ r ∈ rows (oneEntry t v), RowOk r := by
  intro r hr
  rcases mem_rows_pushVersion.mp hr with hr | rfl
  · simp [rows] at hr
  · exact ⟨(by decide : Word (text "a")), ht, by rintro x ⟨⟩; exact hv⟩

/-- A compaction of the first two of four flushed tables. -/
lemma compactFour_run {a b : Entries} (ha : ∀ r ∈ rows a, RowOk r) (hb : ∀ r ∈ rows b, RowOk r)
    (map : Std.ExtTreeMap Bytes Bytes) (seq : ℕ) (buffer : List Bytes)
    (tables : Std.ExtTreeMap Bytes Bytes) (written : List Row)
    (h0 : tables[flushPath 0]? = some (sstableBytes a))
    (h1 : tables[flushPath 1]? = some (sstableBytes b)) :
    ∃ tables', (restProcess (.compacting (text "a") 0) map
        [flushPath 0, flushPath 1, flushPath 2, flushPath 3] 4 seq buffer tables written).run
          [.compact .ok, .rename true, .replace true, .finish, .read] =
      some (restProcess .idle map [compactedPath 4, flushPath 2, flushPath 3] 5 seq buffer tables'
        written) := by
  set σ := restProcess (.compacting (text "a") 0) map
    [flushPath 0, flushPath 1, flushPath 2, flushPath 3] 4 seq buffer tables written with hσ
  set j : CompactJob := ⟨flushPath 0, flushPath 1, compactedPath 4,
    [compactedPath 4, flushPath 2, flushPath 3]⟩ with hj
  set out := sstableBytes (compactEntries a b) with hout
  have hbegin : σ.store.compactBegin (flushPath 0) (flushPath 1) [flushPath 2, flushPath 3] =
      ({ σ.store with nextSstableId := 5 }, j) := by
    have hfresh : KVStore.freshOutput [flushPath 0, flushPath 1, flushPath 2, flushPath 3] 4 4 =
        (compactedPath 4, 5) := by decide
    have hfresh' : KVStore.freshOutput σ.store.sstablePaths σ.store.sstablePaths.length
        σ.store.nextSstableId = (compactedPath 4, 5) := hfresh
    rw [KVStore.compactBegin, hfresh']
  have hwrite : KVStore.compactWrite j σ.disk .ok =
      (true, { σ.disk with tables := tables.insert j.tempOutput out }) := by
    have hcomp : Sstable.compact [σ.disk.tables[j.first]?, σ.disk.tables[j.second]?] = some out := by
      have e0 : σ.disk.tables[j.first]? = some (sstableBytes a) := h0
      have e1 : σ.disk.tables[j.second]? = some (sstableBytes b) := h1
      rw [e0, e1]
      exact compact_eq ha hb
    simp only [KVStore.compactWrite, hcomp]
    rfl
  have hcompact : σ.compact (text "a") 0 .ok =
      ⟨{ σ.store with nextSstableId := 5 }, { σ.disk with tables := tables.insert j.tempOutput out },
        .merged (text "a") 0 j, written⟩ := by
    have hne : flushPath 0 ≠ flushPath 1 := by decide
    have hp : σ.store.sstablePaths = [flushPath 0, flushPath 1, flushPath 2, flushPath 3] := rfl
    unfold Process.compact
    rw [if_neg (by rw [hp]; decide)]
    simp only [hp, if_neg hne, hbegin, hwrite]
    rfl
  have hget : (tables.insert j.tempOutput out)[j.tempOutput]? = some out :=
    Std.ExtTreeMap.getElem?_insert_self
  have hstep : σ.run [.compact .ok, .rename true, .replace true, .finish, .read] =
      (σ.compact (text "a") 0 .ok).run [.rename true, .replace true, .finish, .read] := rfl
  have hrename : (σ.compact (text "a") 0 .ok).run [.rename true, .replace true, .finish, .read] =
      (Process.rename (σ.compact (text "a") 0 .ok) (text "a") 0 j true).run
        [.replace true, .finish, .read] := by
    rw [hcompact]
    rfl
  rw [hstep, hrename, hcompact]
  unfold Process.rename KVStore.compactRename
  simp only [hget]
  exact ⟨(((((tables.insert j.tempOutput out).erase j.tempOutput).insert j.output out).erase
    j.first).erase j.second), rfl⟩

/-- A flush with a read behind it, without the places that nothing below looks at. -/
lemma exists_flushRead {v : Bytes} (hv : kMemTableFlushThresholdBytes ≤ v.length)
    (map : Std.ExtTreeMap Bytes Bytes) (paths : List Bytes) (next seq : ℕ) (buffer : List Bytes)
    (tables : Std.ExtTreeMap Bytes Bytes) (written : List Row) (hseq : (seq + 1) % 5 ≠ 0)
    (hline : ∀ p ∈ paths, p ≠ [] ∧ newline ∉ p) (hnew : flushPath next ∉ paths)
    (hlen : (paths ++ [flushPath next]).length < kCompactionTrigger) :
    ∃ map' buffer' written', (restProcess .idle map paths next seq buffer tables written).run
        (flushCycle v ++ [.compact .ok, .read]) =
      some (restProcess .idle map' (paths ++ [flushPath next]) (next + 1) (seq + 1) buffer'
        (tables.insert (flushPath next) (sstableBytes (oneEntry (seq + 1) v))) written') :=
  ⟨_, _, _, flushRead_run map paths next seq buffer tables written hv hseq hline hnew hlen⟩

lemma fourFlushes_run {v : Bytes} (hv : kMemTableFlushThresholdBytes ≤ v.length) (hc : Clean v) :
    ∃ σ, (Process.start Disk.empty).run (fourFlushes v) = some σ ∧ σ.disk.snapshot = none ∧
      σ.disk.wal = some [] ∧
      σ.disk.manifest = some (replaceSstables [compactedPath 4, flushPath 2, flushPath 3]) := by
  have hskip : ∀ (t : Std.ExtTreeMap Bytes Bytes) {i j : ℕ} (x : Bytes), i ≠ j →
      (t.insert (flushPath i) x)[flushPath j]? = t[flushPath j]? := by
    intro t i j x hij
    rw [Std.ExtTreeMap.getElem?_insert, if_neg]
    exact fun he => hij (flushPath_injective (Std.LawfulEqCmp.eq_of_compare he))
  set t₁ := (∅ : Std.ExtTreeMap Bytes Bytes).insert (flushPath 0) (sstableBytes (oneEntry 1 v))
  set t₂ := t₁.insert (flushPath 1) (sstableBytes (oneEntry 2 v))
  set t₃ := t₂.insert (flushPath 2) (sstableBytes (oneEntry 3 v))
  obtain ⟨m₁, b₁, w₁, h₁⟩ := exists_flushRead hv ∅ [] 0 0 [] ∅ [] (by decide) (by simp) (by simp)
    (by decide)
  obtain ⟨m₂, b₂, w₂, h₂⟩ := exists_flushRead hv m₁ [flushPath 0] 1 1 b₁ t₁ w₁ (by decide)
    (by simp [flushPath_line]) (by decide) (by decide)
  obtain ⟨m₃, b₃, w₃, h₃⟩ := exists_flushRead hv m₂ [flushPath 0, flushPath 1] 2 2 b₂ t₂ w₂
    (by decide) (by simp [flushPath_line]) (by decide) (by decide)
  have h₄ := flushCycle_run m₃ [flushPath 0, flushPath 1, flushPath 2] 3 3 b₃ t₃ w₃ hv
    (by decide) (by simp [flushPath_line]) (by decide)
  obtain ⟨t₅, h₅⟩ := compactFour_run (rowOk_oneEntry (show 1 < 2 ^ 64 by decide) hc)
    (rowOk_oneEntry (show 2 < 2 ^ 64 by decide) hc) (m₃.insert (text "a") v) 4
    (b₃ ++ [recordBytes ⟨4, text "a", some v⟩])
    (t₃.insert (flushPath 3) (sstableBytes (oneEntry 4 v))) (w₃ ++ [(text "a", ⟨4, some v⟩)])
    (by rw [hskip _ _ (by decide), hskip _ _ (by decide), hskip _ _ (by decide),
      Std.ExtTreeMap.getElem?_insert_self])
    (by rw [hskip _ _ (by decide), hskip _ _ (by decide), Std.ExtTreeMap.getElem?_insert_self])
  exact ⟨_, Process.run_trans (Process.run_trans (Process.run_trans h₁ h₂) h₃)
    (Process.run_trans h₄ h₅), rfl, rfl, rfl⟩

/-- The next session after four flushes gives out the name of a live table. -/
lemma flush_live_name {v : Bytes} (hv : kMemTableFlushThresholdBytes ≤ v.length) (hc : Clean v) :
    ∃ σ σ', (Process.start Disk.empty).run (fourFlushes v) = some σ ∧
      (Process.start σ.disk).run [.put (text "a") v] = some σ' ∧
      σ'.HandsOut (flushPath 3) ∧ flushPath 3 ∈ σ'.store.sstablePaths ∧
      flushPath 3 ∈ loadSstables σ'.disk.manifest := by
  obtain ⟨σ, hrun, hsnap, hwal, hman⟩ := fourFlushes_run hv hc
  have hload : loadSstables σ.disk.manifest = [compactedPath 4, flushPath 2, flushPath 3] := by
    rw [hman]
    decide +kernel
  obtain ⟨good, e⟩ := KVStore.open_few (d := σ.disk) (by rw [hload]; decide)
  have hrec : KVStore.recovered σ.disk good =
      { KVStore.new with wal := ⟨some 0, [], good⟩, seq := 0, opened := true } := by
    simp only [KVStore.recovered, hsnap, hwal]
    rfl
  rw [hload, hrec] at e
  have hstart : Process.start σ.disk = ⟨_, _, .idle, []⟩ := congrArg
    (fun x : Bool × KVStore × Disk => (⟨x.2.1, x.2.2, .idle, []⟩ : Process)) e
  refine ⟨σ, (Process.start σ.disk).put (text "a") v, hrun, ?_, ?_, ?_, ?_⟩
  · rw [hstart]
    rfl
  · have hmem : ((Process.start σ.disk).put (text "a") v).store.memtable =
        ⟨oneVersion v, 57 + v.length⟩ := by
      rw [hstart]
      exact Process.put_memtable rfl rfl rfl v
    have hrot : ((Process.start σ.disk).put (text "a") v).store.Rotates :=
      rotates_of_put hv hmem (by rw [hstart]; rfl)
    have hout := Process.HandsOut.flush (σ := (Process.start σ.disk).put (text "a") v)
      (by rw [hstart]; rfl) hrot
    have hpath : ((Process.start σ.disk).put (text "a") v).store.flushTask.sstablePath =
        flushPath 3 := by
      rw [hstart]
      rfl
    rwa [hpath] at hout
  · rw [hstart]
    show flushPath 3 ∈ [compactedPath 4, flushPath 2, flushPath 3]
    simp
  · rw [hstart]
    show flushPath 3 ∈ loadSstables (some (σ.disk.manifest.getD []))
    have : loadSstables (some (σ.disk.manifest.getD [])) = loadSstables σ.disk.manifest := rfl
    rw [this, hload]
    simp

/-- **A flush over a live table**: four flushes and a compaction leave the tables 4, 2 and 3, and
the next session hands the name of table 3 to the worker. -/
theorem flush_reuses_name : ∃ σ σ',
    (Process.start Disk.empty).run (fourFlushes largeValue) = some σ ∧
      (Process.start σ.disk).run [.put (text "a") largeValue] = some σ' ∧
      σ'.HandsOut (flushPath 3) ∧ flushPath 3 ∈ σ'.store.sstablePaths ∧
      flushPath 3 ∈ loadSstables σ'.disk.manifest :=
  flush_live_name (by simp [largeValue]) clean_largeValue

/-- **A second flush**: the first table is live, and the next name is handed out. -/
lemma secondFlush_handsOut {v : Bytes} (hv : kMemTableFlushThresholdBytes ≤ v.length) : ∃ σ,
    (Process.start Disk.empty).run (flushCycle v ++ [.compact .ok, .read] ++ [.put (text "a") v]) =
      some σ ∧ σ.store.sstablePaths = [flushPath 0] ∧ σ.HandsOut (flushPath 1) := by
  have h := flushRead_run ∅ [] 0 0 [] ∅ [] hv (by decide) (by simp) (by simp) (by decide)
  set σ := restProcess .idle ((∅ : Std.ExtTreeMap Bytes Bytes).insert (text "a") v)
    ([] ++ [flushPath 0]) (0 + 1) (0 + 1) ([] ++ [recordBytes ⟨0 + 1, text "a", some v⟩])
    ((∅ : Std.ExtTreeMap Bytes Bytes).insert (flushPath 0) (sstableBytes (oneEntry (0 + 1) v)))
    ([] ++ [(text "a", ⟨0 + 1, some v⟩)]) with hσ
  have hmem : (σ.put (text "a") v).store.memtable = ⟨oneEntry 2 v, 57 + v.length⟩ :=
    Process.put_memtable rfl rfl rfl v
  exact ⟨_, Process.run_trans h rfl, rfl, Process.HandsOut.flush rfl (rotates_of_put hv hmem rfl)⟩

/-- In a session on empty files the second name is fresh too. -/
theorem names_fresh_second : ∃ σ,
    (Process.start Disk.empty).run
      (flushCycle largeValue ++ [.compact .ok, .read] ++ [.put (text "a") largeValue]) = some σ ∧
      σ.store.sstablePaths = [flushPath 0] ∧ σ.HandsOut (flushPath 1) ∧
      flushPath 1 ∉ loadSstables σ.disk.manifest := by
  obtain ⟨σ, hrun, hpaths, hout⟩ := secondFlush_handsOut (v := largeValue) (by simp [largeValue])
  have hcond : (Process.launch Disk.empty .ok).store.Compactly := by
    intro i hi
    have : (Process.launch Disk.empty .ok).store.sstablePaths = [] := rfl
    rw [this] at hi
    exact absurd hi (by simp)
  exact ⟨σ, hrun, hpaths, hout,
    ((names_fresh (d := Disk.empty) rfl).2 hcond _ σ _ hrun hout).2⟩

end VeriStore.Store

import VeriStore.Store.Listing

/-!
The registration of tables in the manifest.

A table is registered by a line at the end of the manifest. A crash can leave any part of this line,
and the next append writes its own line right behind it: the two make one line, and neither table is
found. What was registered before stays (`append_keeps_iff`).

* `torn_append_iff` — when a registration behind a torn one counts;
* `run_registered` — registrations and crashes in any order, each at a place where lines are whole.
-/

namespace VeriStore.Store

open VeriStore.Lib VeriStore.Sstable

/-! ### One registration -/

/-- `append_sstable`; a write that falls short leaves the first bytes of the line. -/
def appendSstable (manifest : Option Bytes) (path : Bytes) (io : WriteOutcome) : Bool × Option Bytes :=
  if path ∈ loadSstables manifest then (true, manifest)
  else
    match io with
    | .ok => (true, some (manifest.getD [] ++ manifestLine path))
    | .refused => (false, manifest)
    | .short n => (false, some (manifest.getD [] ++ (manifestLine path).take n))

/-- **The worker registers a table** between the states `loaded` and `appended`. -/
lemma FlushWorker.step_loaded {w : FlushWorker} {d : Disk} {t : FlushTask} {io : WriteOutcome}
    (hpc : w.pc = .loaded t (loadSstables d.manifest)) : w.step d io =
      some ({ w with pc := if (appendSstable d.manifest t.sstablePath io).1 then .appended t else .waiting },
        { d with manifest := (appendSstable d.manifest t.sstablePath io).2 }) := by
  unfold FlushWorker.step appendSstable
  rw [hpc]
  dsimp only
  split
  · rfl
  · cases io <;> rfl

lemma mem_loadSstables {manifest : Option Bytes} {p : Bytes} :
    p ∈ loadSstables manifest ↔ p ∈ lines (manifest.getD []) ∧ p ≠ [] := by
  simp [loadSstables]

/-- **Whatever is written behind whole lines**, they stay. -/
lemma loadSstables_append {m : Bytes} (h : WholeLines m) (t : Bytes) :
    loadSstables (some (m ++ t)) = loadSstables (some m) ++ loadSstables (some t) := by
  simp only [loadSstables, Option.getD_some, lines_append_of_whole h, List.filter_append]

lemma loadSstables_cons {p : Bytes} (hp : p ≠ [] ∧ newline ∉ p) (t : Bytes) :
    loadSstables (some (p ++ newline :: t)) = p :: loadSstables (some t) := by
  simp [loadSstables, lines_append hp.2, hp.1]

/-- A line without its newline. -/
lemma loadSstables_part {t : Bytes} (ht : t ≠ [] ∧ newline ∉ t) : loadSstables (some t) = [t] := by
  simp [loadSstables, lines_eq_singleton ht.1 ht.2, ht.1]

/-- **A registration counts and loses nothing exactly when** the path is there already or it is
written behind whole lines. -/
lemma append_keeps_iff {m : Option Bytes} {p : Bytes} (hp : p ≠ [] ∧ newline ∉ p) :
    (∀ io, (appendSstable m p io).1 = true → p ∈ loadSstables (appendSstable m p io).2) ↔
      p ∈ loadSstables m ∨ WholeLines (m.getD []) := by
  have hline : loadSstables (some (manifestLine p)) = [p] := loadSstables_cons hp []
  constructor
  · intro h
    refine or_iff_not_imp_left.mpr fun hnew => ?_
    by_contra hpart
    obtain ⟨a, t, hm, ha, ht, hnl⟩ := exists_last_line hpart
    have hok := h .ok
    simp only [appendSstable, if_neg hnew, true_implies] at hok
    -- the part of a line and the new line make one line
    have hglued : (t ++ p) ≠ [] ∧ newline ∉ t ++ p := by simp [ht, hnl, hp.2]
    rw [hm, List.append_assoc, manifestLine, ← List.append_assoc t, loadSstables_append ha,
      loadSstables_cons hglued, List.mem_append] at hok
    rcases hok with hold | hglue
    · refine hnew (mem_loadSstables.mpr ⟨?_, hp.1⟩)
      rw [hm, lines_append_of_whole ha]
      exact List.mem_append_left _ (mem_loadSstables.mp hold).1
    · simp [loadSstables, ht] at hglue
  · rintro h io hok
    by_cases hold : p ∈ loadSstables m
    · simp [appendSstable, hold]
    · have hwhole := h.resolve_left hold
      unfold appendSstable at hok ⊢
      rw [if_neg hold] at hok ⊢
      cases io with
      | ok =>
        rw [loadSstables_append hwhole, hline]
        simp
      | refused => simp at hok
      | short n => simp at hok

/-- What was found is found after a registration that is written behind whole lines. -/
lemma append_keeps {m : Option Bytes} {p : Bytes} (h : p ∈ loadSstables m ∨ WholeLines (m.getD []))
    (io : WriteOutcome) : ∀ r ∈ loadSstables m, r ∈ loadSstables (appendSstable m p io).2 := by
  intro r hr
  have happend : ∀ t : Bytes, p ∉ loadSstables m → r ∈ loadSstables (some (m.getD [] ++ t)) := by
    intro t hnew
    rw [loadSstables_append (h.resolve_left hnew)]
    exact List.mem_append_left _ hr
  unfold appendSstable
  split
  · exact hr
  · next hnew =>
    cases io with
    | ok => exact happend _ hnew
    | refused => exact hr
    | short n => exact happend _ hnew

/-! ### Registrations and crashes -/

/-- The manifest and the paths whose registration returned true. -/
structure Registry where
  manifest : Option Bytes
  registered : List Bytes

namespace Registry

/-- No file and no path. -/
def empty : Registry := ⟨none, []⟩

/-- One registration. A crash in it leaves what a write that falls short leaves. -/
def register (s : Registry) (a : Bytes × WriteOutcome) : Registry where
  manifest := (appendSstable s.manifest a.1 a.2).2
  registered := if (appendSstable s.manifest a.1 a.2).1 then s.registered ++ [a.1] else s.registered

def run (s : Registry) (as : List (Bytes × WriteOutcome)) : Registry := as.foldl register s

/-- The path is there already, or its line comes behind whole lines. -/
def Separate (s : Registry) (path : Bytes) : Prop :=
  path ∈ loadSstables s.manifest ∨ WholeLines (s.manifest.getD [])

/-- All registrations of a run meet the condition. -/
def AllSeparate : Registry → List (Bytes × WriteOutcome) → Prop
  | _, [] => True
  | s, a :: as => s.Separate a.1 ∧ AllSeparate (s.register a) as

/-- Every registered path is found. -/
def Found (s : Registry) : Prop := ∀ r ∈ s.registered, r ∈ loadSstables s.manifest

lemma Found.register {s : Registry} (h : s.Found) {a : Bytes × WriteOutcome}
    (ha : a.1 ≠ [] ∧ newline ∉ a.1) (hsep : s.Separate a.1) : (s.register a).Found := by
  have hkeep : ∀ r ∈ s.registered, r ∈ loadSstables (s.register a).manifest := fun r hr =>
    append_keeps hsep a.2 r (h r hr)
  intro r hr
  unfold Registry.register at hr
  dsimp only at hr
  split at hr
  · next hok =>
    rcases List.mem_append.mp hr with hr | hr
    · exact hkeep r hr
    · rw [List.mem_singleton.mp hr]
      exact (append_keeps_iff ha).mpr hsep a.2 hok
  · exact hkeep r hr

end Registry

/-- **Registrations at places where lines are whole**: every registered path is found. -/
lemma run_registered {s : Registry} (h : s.Found) {as : List (Bytes × WriteOutcome)}
    (has : ∀ a ∈ as, a.1 ≠ [] ∧ newline ∉ a.1) (hsep : s.AllSeparate as) : (s.run as).Found := by
  induction as generalizing s with
  | nil => exact h
  | cons a as ih =>
    exact ih (h.register (has a (by simp)) hsep.1) (fun x hx => has x (List.mem_cons_of_mem a hx))
      hsep.2

/-! ### One crash -/

lemma wholeLines_replaceSstables (ps : List Bytes) : WholeLines (replaceSstables ps) := by
  rcases List.eq_nil_or_concat' ps with rfl | ⟨ps, p, rfl⟩
  · exact Or.inl rfl
  · right
    simp [replaceSstables, manifestLine]

/-- The manifest after a crash in the registration of `q`, with `n` bytes of its line. -/
def tornManifest (paths : List Bytes) (q : Bytes) (n : ℕ) : Option Bytes :=
  some (replaceSstables paths ++ (manifestLine q).take n)

lemma loadSstables_torn {paths : List Bytes} (hpaths : ∀ r ∈ paths, r ≠ [] ∧ newline ∉ r)
    (q : Bytes) (n : ℕ) : loadSstables (tornManifest paths q n) =
      paths ++ loadSstables (some ((manifestLine q).take n)) := by
  rw [tornManifest, loadSstables_append (wholeLines_replaceSstables paths),
    loadSstables_replaceSstables hpaths]

/-- Where the next path can be registered. -/
lemma separate_torn_iff {paths : List Bytes} (hpaths : ∀ r ∈ paths, r ≠ [] ∧ newline ∉ r)
    {q p : Bytes} (hq : q ≠ [] ∧ newline ∉ q) (n : ℕ) :
    (p ∈ loadSstables (tornManifest paths q n) ∨ WholeLines ((tornManifest paths q n).getD [])) ↔
      n = 0 ∨ q.length < n ∨ p ∈ paths ∨ p = q.take n := by
  have hwhole := wholeLines_replaceSstables paths
  rw [loadSstables_torn hpaths, tornManifest, Option.getD_some, List.mem_append]
  obtain rfl | hpos := Nat.eq_zero_or_pos n
  · simp [hwhole]
  · by_cases hlen : q.length < n
    · have htake : (manifestLine q).take n = q ++ [newline] :=
        List.take_of_length_le (by simpa [manifestLine] using hlen)
      rw [htake, ← List.append_assoc]
      simp only [wholeLines_concat, hlen, or_true, true_or]
    · -- the line has no newline
      have htake : (manifestLine q).take n = q.take n := by
        rw [manifestLine, List.take_append_of_le_length (not_lt.mp hlen)]
      have hne : q.take n ≠ [] := by simp [hq.1]; omega
      have hnl : newline ∉ q.take n := fun hm => hq.2 (List.mem_of_mem_take hm)
      have hpart : ¬ WholeLines (replaceSstables paths ++ q.take n) := by
        rintro (hnil | hlast)
        · exact hne (List.append_eq_nil_iff.mp hnil).2
        · rw [List.getLast?_append_of_ne_nil _ hne] at hlast
          exact hnl (List.mem_of_getLast? hlast)
      rw [htake, loadSstables_part ⟨hne, hnl⟩, List.mem_singleton]
      simp only [hpart, or_false, hpos.ne', hlen, false_or]

/-- **Behind a torn registration** the registered paths are found, and the next registration that
returns true counts exactly when nothing or the whole line of the torn one is in the file, or its
path is there already: as a registered path or as the torn piece itself. In a run of registrations
and crashes, each of them at a place where lines are whole or for a path that is there, every path
whose registration returned true is found. -/
theorem torn_append_iff {paths : List Bytes} (hpaths : ∀ r ∈ paths, r ≠ [] ∧ newline ∉ r)
    {q p : Bytes} (hq : q ≠ [] ∧ newline ∉ q) (hp : p ≠ [] ∧ newline ∉ p) (n : ℕ) :
    (∀ r ∈ paths, r ∈ loadSstables (tornManifest paths q n)) ∧
    ((∀ io, (appendSstable (tornManifest paths q n) p io).1 = true →
        p ∈ loadSstables (appendSstable (tornManifest paths q n) p io).2 ∧
          ∀ r ∈ paths, r ∈ loadSstables (appendSstable (tornManifest paths q n) p io).2) ↔
      n = 0 ∨ q.length < n ∨ p ∈ paths ∨ p = q.take n) ∧
    ∀ as : List (Bytes × WriteOutcome), (∀ a ∈ as, a.1 ≠ [] ∧ newline ∉ a.1) →
      Registry.empty.AllSeparate as → ∀ r ∈ (Registry.empty.run as).registered,
        r ∈ loadSstables (Registry.empty.run as).manifest := by
  have hfound : ∀ r ∈ paths, r ∈ loadSstables (tornManifest paths q n) := fun r hr => by
    rw [loadSstables_torn hpaths]
    exact List.mem_append_left _ hr
  refine ⟨hfound, ?_, fun as has hsep => run_registered (by simp [Registry.Found, Registry.empty])
    has hsep⟩
  rw [← separate_torn_iff hpaths hq n, ← append_keeps_iff hp]
  constructor
  · exact fun h io hok => (h io hok).1
  · intro h io hok
    exact ⟨h io hok, fun r hr => append_keeps ((append_keeps_iff hp).mp h) io r (hfound r hr)⟩

/-- Half of the line of `/b` behind `/a`. -/
theorem torn_append_glued : (appendSstable (tornManifest [text "/a"] (text "/b") 1) (text "/c") .ok).1 = true ∧
    loadSstables (appendSstable (tornManifest [text "/a"] (text "/b") 1) (text "/c") .ok).2 =
      [text "/a", text "//c"] := by decide +kernel

/-- The whole line but its newline, and the same path again. -/
theorem torn_append_again : text "/b" ∈
    loadSstables (appendSstable (tornManifest [text "/a"] (text "/b") 2) (text "/b") .ok).2 := by
  have hpath : ∀ r ∈ [text "/a"], r ≠ [] ∧ newline ∉ r := by decide
  have h := (torn_append_iff hpath (q := text "/b") (p := text "/b") (by decide) (by decide) 2).2.1
  exact ((h.mpr (by decide)) .ok (by decide)).1

end VeriStore.Store

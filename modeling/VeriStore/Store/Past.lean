import VeriStore.Store.Listing

/-!
Reads of the past.

The counter of a store goes up by one at a time, and what is written later has a later timestamp.
A read at an earlier value of the counter therefore answers, for all keys together, what `get`
answered at the moment when the counter had this value, through all the rotations, flushes,
compactions and checkpoints that came between.

* `snapshot_reads` — every timestamp reads the map of one moment of the session.
-/

namespace VeriStore.Store

open VeriStore.Lib VeriStore.Sstable VeriStore.Log

variable {σ σ' : Process}

/-! ### What is written later -/

/-- What a run adds to the versions is later than the counter it began with. -/
structure Process.Extends (σ σ' : Process) (new : List Row) : Prop where
  seq_le : σ.store.seq ≤ σ'.store.seq
  written : σ'.written = σ.written ++ new
  later : ∀ r ∈ new, σ.store.seq < r.2.timestamp

lemma Process.Extends.effect {σ₁ : Process} {new : List Row} (h : σ.Extends σ₁ new)
    {a : Action} (he : σ₁.Effect a σ') : ∃ new, σ.Extends σ' new := by
  have hle := h.seq_le.trans he.seq_le
  rcases he.map_cases with ⟨-, hw⟩ | ⟨key, value, -, hw⟩
  · exact ⟨new, hle, hw.trans h.written, h.later⟩
  · refine ⟨new ++ [(key, ⟨σ₁.store.seq + 1, value⟩)], hle, ?_, fun r hr => ?_⟩
    · rw [hw, h.written, List.append_assoc]
    · rcases List.mem_append.mp hr with hr | hr
      · exact h.later r hr
      · rw [List.mem_singleton.mp hr]
        exact Nat.lt_succ_of_le h.seq_le

/-- **A run adds later versions.** -/
lemma Process.run_extends {bs : List Action} (hrun : σ.run bs = some σ') :
    ∃ new, σ.Extends σ' new :=
  Process.run_induct (P := fun σ₁ => ∃ new, σ.Extends σ₁ new) (Q := fun _ => True) hrun
    (fun _ _ => trivial) ⟨[], le_rfl, (List.append_nil _).symm, by simp⟩
    fun _ _ _ _ he ⟨_, h⟩ => h.effect he

/-- The counter does not skip a value. -/
lemma Process.exists_run_seq {as : List Action} (hrun : σ.run as = some σ') {t : ℕ}
    (h0 : σ.store.seq ≤ t) (h1 : t ≤ σ'.store.seq) :
    ∃ bs cs σ₁, as = bs ++ cs ∧ σ.run bs = some σ₁ ∧ σ₁.store.seq = t := by
  induction as using List.reverseRecOn generalizing σ' with
  | nil =>
    obtain rfl := Option.some.inj hrun
    exact ⟨[], [], σ, rfl, rfl, le_antisymm h0 h1⟩
  | append_singleton as a ih =>
    obtain ⟨σ₁, hrun₁, ha⟩ := run_concat hrun
    by_cases ht : t ≤ σ₁.store.seq
    · obtain ⟨bs, cs, σ₂, rfl, h2, h3⟩ := ih hrun₁ ht
      exact ⟨bs, cs ++ [a], σ₂, by simp, h2, h3⟩
    · refine ⟨as ++ [a], [], σ', by simp, hrun, ?_⟩
      have hstep : σ'.store.seq ≤ σ₁.store.seq + 1 := by
        rcases (step_effect ha).write_or with ⟨key, value, -, rfl, -⟩ | ⟨-, hs, -⟩
        · have := σ₁.write_seq key value
          omega
        · omega
      omega

/-! ### The main result -/

/-- The versions of a key up to the counter of an earlier state are those written before it. -/
lemma Process.Extends.lastVisible_eq {new : List Row} (h : σ.Extends σ' new)
    (hle : ∀ r ∈ σ.written, r.2.timestamp ≤ σ.store.seq) (key : Bytes) :
    lastVisible Version.timestamp (versionsIn σ'.written key) σ.store.seq =
      (versionsIn σ.written key).getLast? := by
  have hnew : lastVisible Version.timestamp (versionsIn new key) σ.store.seq = none :=
    lastVisible_eq_none_iff.mpr fun v hv => not_le.mpr (h.later (key, v) (mem_versionsIn.mp hv))
  have hold : lastVisible Version.timestamp (versionsIn σ.written key) σ.store.seq =
      (versionsIn σ.written key).getLast? :=
    lastVisible_of_forall fun v hv => hle (key, v) (mem_versionsIn.mp hv)
  rw [h.written, versionsIn_append, lastVisible_append, hnew, Option.none_or, hold]

/-- **Every timestamp reads the map of one moment.** In every run from empty files whose system
calls succeed, with plain keys and values, there is for every timestamp up to the counter a moment
at which the counter had this value, and a read at this timestamp finds for every key what `get`
found at any such moment. -/
theorem snapshot_reads {as : List Action} (hrun : (Process.start Disk.empty).run as = some σ')
    (ha : ∀ a ∈ as, a.succeeds = true) (hp : ∀ a ∈ as, a.Plain) (hlt : σ'.store.seq < 2 ^ 64)
    (hi : σ'.store.flushWorker.Idle) {t : ℕ} (ht : t ≤ σ'.store.seq) :
    (∃ bs cs σ, as = bs ++ cs ∧ (Process.start Disk.empty).run bs = some σ ∧ σ.store.seq = t) ∧
    ∀ bs cs σ, as = bs ++ cs → (Process.start Disk.empty).run bs = some σ → σ.store.seq = t →
      ∀ key, σ'.store.readAt σ'.disk key t = σ.store.get key := by
  refine ⟨Process.exists_run_seq hrun (Nat.zero_le t) ht, fun bs cs σ has hbs hseq key => ?_⟩
  subst has
  have hcs : σ.run cs = some σ' := by
    unfold Process.run at hrun hbs ⊢
    rwa [List.foldlM_append, hbs] at hrun
  obtain ⟨new, hext⟩ := Process.run_extends hcs
  obtain ⟨tabs, fl, hr⟩ := run_recorded hrun ha hp hlt
  obtain ⟨_, _, hearlier⟩ := run_recorded hbs
    (fun a h => ha a (List.mem_append_left cs h)) (fun a h => hp a (List.mem_append_left cs h))
    (hext.seq_le.trans_lt hlt)
  obtain rfl := hr.layers.fl_eq_none hi
  rw [hr.layers.readAt_eq, ← hseq, hext.lastVisible_eq hearlier.layers.le_seq, hearlier.latest]

/-- After a second put and a delete, the first timestamp still reads what the map had when the table
was new: the value comes from the table. -/
theorem snapshot_reads_first : ∃ σ σ',
    (Process.start Disk.empty).run (flushCycle largeValue ++ [.compact .ok, .read]) = some σ ∧
    (Process.start Disk.empty).run (readBack largeValue) = some σ' ∧
    σ.store.get (text "a") = some largeValue ∧ σ'.store.get (text "a") = none ∧
    σ'.store.sstablePaths = [flushPath 0] ∧
    ∀ key, σ'.store.readAt σ'.disk key 1 = σ.store.get key := by
  have hlen : kMemTableFlushThresholdBytes ≤ largeValue.length := by simp [largeValue]
  obtain ⟨σ', hrun, -, hseq, hpaths, hidle, hget⟩ := readBack_run hlen
  have hplain := readBack_plain clean_largeValue
  have hfirst := flushRead_run ∅ [] 0 0 [] ∅ [] hlen (by decide) (by simp) (by simp) (by decide)
  refine ⟨_, σ', hfirst, hrun, Std.ExtTreeMap.getElem?_insert_self, hget, hpaths, ?_⟩
  exact (snapshot_reads hrun (fun a ha => (hplain a ha).1) (fun a ha => (hplain a ha).2)
    (by rw [hseq]; decide) hidle (t := 1) (by omega)).2 _ _ _
      (List.append_assoc _ [.put (text "a") (text "2"), .rotate, .commit .ok] deleteAndRead) hfirst rfl

end VeriStore.Store

import Mathlib.Tactic

/-!
Versions with timestamps in layers.

A list of versions in the order they were written is searched from its end for the last one that
is visible at a timestamp. A search through layers, the newest first, that takes the first hit is
a search in all of them together (`lastVisible_flatten`), and where the timestamps ascend, the
version found is the newest visible one (`lastVisible_eq_some_iff`).

In a list in any order the newest visible version is found by a scan that keeps the best one so
far (`newestVisible`); among equal timestamps the last one counts (`newestVisible_eq_some_iff`).

A list whose last version is the newest one (`Crowned`) is read at its end.

Searches from the end do not see that a part of a list was written before (`sameLast_repeat`).
-/

namespace VeriStore.Lib

variable {α τ : Type*} [LinearOrder τ] (ts : α → τ)

/-- The timestamps ascend. -/
def Ascending (l : List α) : Prop := l.Pairwise fun a b => ts a < ts b

/-- The version is the newest one in the list that is visible at `t`. -/
def Newest (l : List α) (t : τ) (v : α) : Prop :=
  v ∈ l ∧ ts v ≤ t ∧ ∀ w ∈ l, ts w ≤ t → ts w ≤ ts v

/-- The last version in the list that is visible at `t`. -/
def lastVisible (l : List α) (t : τ) : Option α := l.reverse.find? fun v => ts v ≤ t

variable {ts}

@[simp] lemma lastVisible_nil (t : τ) : lastVisible ts [] t = none := rfl

lemma lastVisible_append (l l' : List α) (t : τ) :
    lastVisible ts (l ++ l') t = (lastVisible ts l' t).or (lastVisible ts l t) := by
  simp [lastVisible, List.find?_append]

lemma lastVisible_cons (v : α) (l : List α) (t : τ) : lastVisible ts (v :: l) t =
    (lastVisible ts l t).or (if ts v ≤ t then some v else none) := by
  rw [← List.singleton_append, lastVisible_append]
  congr 1
  by_cases hv : ts v ≤ t <;> simp [lastVisible, hv]

/-- **The first hit in the layers**, the newest first, is the hit in all of them together. -/
lemma lastVisible_flatten (layers : List (List α)) (t : τ) :
    lastVisible ts layers.flatten t = layers.reverse.findSome? fun l => lastVisible ts l t := by
  induction layers with
  | nil => rfl
  | cons l layers ih =>
    rw [List.flatten_cons, lastVisible_append, ih, List.reverse_cons, List.findSome?_append]
    congr 1
    exact List.findSome?_singleton.symm

lemma lastVisible_eq_none_iff {l : List α} {t : τ} :
    lastVisible ts l t = none ↔ ∀ v ∈ l, ¬ ts v ≤ t := by
  simp [lastVisible]

lemma mem_of_lastVisible {l : List α} {t : τ} {v : α} (h : lastVisible ts l t = some v) :
    v ∈ l ∧ ts v ≤ t :=
  ⟨List.mem_reverse.mp (List.mem_of_find?_eq_some h), by simpa using List.find?_some h⟩

/-- Versions in front are not found where the list behind has one that is not newer. -/
lemma lastVisible_append_of_le {l l' : List α} (h : ∀ v ∈ l, ∃ w ∈ l', ts w ≤ ts v) (t : τ) :
    lastVisible ts (l ++ l') t = lastVisible ts l' t := by
  rw [lastVisible_append]
  cases hl' : lastVisible ts l' t with
  | some w => rfl
  | none =>
    rw [Option.none_or, lastVisible_eq_none_iff]
    intro v hv hvt
    obtain ⟨w, hw, hwv⟩ := h v hv
    exact lastVisible_eq_none_iff.mp hl' w hw (hwv.trans hvt)

/-- Where all versions are visible, the last one is found. -/
lemma lastVisible_of_forall {l : List α} {t : τ} (h : ∀ v ∈ l, ts v ≤ t) :
    lastVisible ts l t = l.getLast? := by
  rcases List.eq_nil_or_concat' l with rfl | ⟨l, v, rfl⟩
  · rfl
  · rw [lastVisible_append, List.getLast?_concat, lastVisible_cons, if_pos (h v (by simp))]
    rfl

/-- **The last visible version is the newest one.** -/
lemma lastVisible_eq_some_iff {l : List α} (h : Ascending ts l) {t : τ} {v : α} :
    lastVisible ts l t = some v ↔ Newest ts l t v := by
  induction l using List.reverseRecOn with
  | nil => simp [Newest]
  | append_singleton l a ih =>
    obtain ⟨hl, -, hlt⟩ := List.pairwise_append.mp h
    rw [lastVisible_append]
    have hone : lastVisible ts [a] t = if ts a ≤ t then some a else none := by
      by_cases ha : ts a ≤ t <;> simp [lastVisible, ha]
    rw [hone]
    by_cases ha : ts a ≤ t
    · rw [if_pos ha, Option.some_or, Option.some.injEq]
      constructor
      · rintro rfl
        refine ⟨by simp, ha, fun w hw _ => ?_⟩
        rcases List.mem_append.mp hw with hw | hw
        · exact (hlt w hw a (by simp)).le
        · rw [List.mem_singleton.mp hw]
      · rintro ⟨hv, -, hmax⟩
        rcases List.mem_append.mp hv with hv | hv
        · exact absurd (hmax a (by simp) ha) (not_le.mpr (hlt v hv a (by simp)))
        · exact (List.mem_singleton.mp hv).symm
    · rw [if_neg ha, Option.none_or, ih hl]
      constructor
      · rintro ⟨hv, hvt, hmax⟩
        refine ⟨List.mem_append_left _ hv, hvt, fun w hw hwt => ?_⟩
        rcases List.mem_append.mp hw with hw | hw
        · exact hmax w hw hwt
        · exact absurd (List.mem_singleton.mp hw ▸ hwt) ha
      · rintro ⟨hv, hvt, hmax⟩
        rcases List.mem_append.mp hv with hv | hv
        · exact ⟨hv, hvt, fun w hw => hmax w (List.mem_append_left _ hw)⟩
        · exact absurd (List.mem_singleton.mp hv ▸ hvt) ha

/-! ### Versions in any order -/

variable (ts) in
/-- One step of the scan: a visible version takes the place of one that is not newer. -/
def better (t : τ) (best : Option α) (v : α) : Option α :=
  if ts v ≤ t ∧ ∀ b ∈ best, ts b ≤ ts v then some v else best

variable (ts) in
/-- The newest version in the list that is visible at `t`, the last one among equal timestamps. -/
def newestVisible (l : List α) (t : τ) : Option α := l.foldl (better ts t) none

@[simp] lemma newestVisible_nil (t : τ) : newestVisible ts [] t = none := rfl

lemma newestVisible_concat (l : List α) (v : α) (t : τ) :
    newestVisible ts (l ++ [v]) t = better ts t (newestVisible ts l t) v := by
  simp [newestVisible]

lemma newestVisible_eq_none_iff {l : List α} {t : τ} :
    newestVisible ts l t = none ↔ ∀ v ∈ l, ¬ ts v ≤ t := by
  induction l using List.reverseRecOn with
  | nil => simp
  | append_singleton l a ih =>
    rw [newestVisible_concat, better]
    constructor
    · intro h v hv
      split at h
      · simp at h
      · next hn =>
        rcases List.mem_append.mp hv with hv | hv
        · exact ih.mp h v hv
        · rw [List.mem_singleton.mp hv]
          exact fun ha => hn ⟨ha, by simp [h]⟩
    · intro h
      rw [if_neg fun hn => h a (by simp) hn.1]
      exact ih.mpr fun v hv => h v (List.mem_append_left _ hv)

variable (ts) in
/-- No visible version is newer than `v`, and those behind it are older. -/
def LastNewest (l : List α) (t : τ) (v : α) : Prop :=
  ∃ pre suf, l = pre ++ v :: suf ∧ ts v ≤ t ∧ (∀ w ∈ pre, ts w ≤ t → ts w ≤ ts v) ∧
    ∀ w ∈ suf, ts w ≤ t → ts w < ts v

lemma LastNewest.newest {l : List α} {t : τ} {v : α} (h : LastNewest ts l t v) :
    Newest ts l t v := by
  obtain ⟨pre, suf, rfl, hv, h1, h2⟩ := h
  refine ⟨by simp, hv, fun w hw hwt => ?_⟩
  rcases List.mem_append.mp hw with hw | hw
  · exact h1 w hw hwt
  · rcases List.mem_cons.mp hw with rfl | hw
    · exact le_rfl
    · exact (h2 w hw hwt).le

lemma newestVisible_lastNewest {l : List α} {t : τ} {v : α} (h : newestVisible ts l t = some v) :
    LastNewest ts l t v := by
  induction l using List.reverseRecOn generalizing v with
  | nil => simp at h
  | append_singleton l a ih =>
    rw [newestVisible_concat, better] at h
    split at h
    · next hn =>
      obtain rfl := Option.some.inj h
      refine ⟨l, [], rfl, hn.1, fun w hw hwt => ?_, by simp⟩
      cases hb : newestVisible ts l t with
      | none => exact absurd hwt (newestVisible_eq_none_iff.mp hb w hw)
      | some b => exact ((ih hb).newest.2.2 w hw hwt).trans (hn.2 b hb)
    · next hn =>
      obtain ⟨pre, suf, rfl, hvt, h1, h2⟩ := ih h
      refine ⟨pre, suf ++ [a], by simp, hvt, h1, fun w hw hwt => ?_⟩
      rcases List.mem_append.mp hw with hw | hw
      · exact h2 w hw hwt
      · obtain rfl := List.mem_singleton.mp hw
        by_contra hge
        refine hn ⟨hwt, fun b hb => ?_⟩
        obtain rfl := Option.some.inj (h.symm.trans hb)
        exact not_lt.mp hge

/-- **The scan finds the newest visible version.** -/
lemma newestVisible_eq_some_iff {l : List α} {t : τ} {v : α} :
    newestVisible ts l t = some v ↔ LastNewest ts l t v := by
  refine ⟨newestVisible_lastNewest, ?_⟩
  rintro ⟨pre, suf, rfl, hv, h1, h2⟩
  induction suf using List.reverseRecOn with
  | nil =>
    rw [newestVisible_concat, better, if_pos]
    refine ⟨hv, fun b hb => ?_⟩
    obtain ⟨hmem, hbt, -⟩ := (newestVisible_lastNewest hb).newest
    exact h1 b hmem hbt
  | append_singleton suf a ih =>
    have ih := ih fun w hw => h2 w (List.mem_append_left _ hw)
    rw [← List.cons_append, ← List.append_assoc, newestVisible_concat, ih, better, if_neg]
    rintro ⟨hat, hbest⟩
    exact absurd (hbest v rfl) (not_le.mpr (h2 a (by simp) hat))

/-- Where the timestamps ascend, the newest visible version is the last visible one. -/
lemma newestVisible_eq_lastVisible {l : List α} (h : Ascending ts l) (t : τ) :
    newestVisible ts l t = lastVisible ts l t := by
  cases hn : newestVisible ts l t with
  | none => exact (lastVisible_eq_none_iff.mpr (newestVisible_eq_none_iff.mp hn)).symm
  | some v =>
    exact ((lastVisible_eq_some_iff h).mpr (newestVisible_lastNewest hn).newest).symm

/-- **An older layer** is asked only when the newer one has no visible version. -/
lemma newestVisible_append {l l' : List α} (h : ∀ v ∈ l, ∀ w ∈ l', ts v ≤ ts w) (t : τ) :
    newestVisible ts (l ++ l') t = (newestVisible ts l' t).or (newestVisible ts l t) := by
  cases hn : newestVisible ts l' t with
  | some w =>
    obtain ⟨pre, suf, rfl, hw, h1, h2⟩ := newestVisible_lastNewest hn
    refine newestVisible_eq_some_iff.mpr ⟨l ++ pre, suf, by simp, hw, fun v hv hvt => ?_, h2⟩
    rcases List.mem_append.mp hv with hv | hv
    · exact h v hv w (by simp)
    · exact h1 v hv hvt
  | none =>
    have hnone := newestVisible_eq_none_iff.mp hn
    rw [Option.none_or]
    cases hl : newestVisible ts l t with
    | none =>
      refine newestVisible_eq_none_iff.mpr fun v hv => ?_
      rcases List.mem_append.mp hv with hv | hv
      · exact newestVisible_eq_none_iff.mp hl v hv
      · exact hnone v hv
    | some v =>
      obtain ⟨pre, suf, rfl, hv, h1, h2⟩ := newestVisible_lastNewest hl
      refine newestVisible_eq_some_iff.mpr ⟨pre, suf ++ l', by simp, hv, h1, fun w hw hwt => ?_⟩
      rcases List.mem_append.mp hw with hw | hw
      · exact h2 w hw hwt
      · exact absurd hwt (hnone w hw)

variable (ts) in
/-- A timestamp belongs to one version. -/
def Consistent (l : List α) : Prop := ∀ v ∈ l, ∀ w ∈ l, ts v = ts w → v = w

lemma Ascending.consistent {l : List α} (h : Ascending ts l) : Consistent ts l := by
  intro v hv w hw hvw
  by_contra hne
  have hpair : l.Pairwise fun a b => ts a ≠ ts b := h.imp fun hlt => hlt.ne
  have : Std.Symm fun a b => ts a ≠ ts b := ⟨fun _ _ => Ne.symm⟩
  exact hpair.forall hv hw hne hvw

/-- **Two lists in order** with the same versions are the same list. -/
lemma Ascending.ext {l l' : List α} (h : Ascending ts l) (h' : Ascending ts l')
    (hm : ∀ v, v ∈ l ↔ v ∈ l') : l = l' := by
  have hnodup : ∀ {l : List α}, Ascending ts l → l.Nodup := fun h =>
    h.imp fun {a b} hlt hab => hlt.ne (congrArg ts hab)
  have hperm : l.Perm l' := (List.perm_ext_iff_of_nodup (hnodup h) (hnodup h')).mpr hm
  exact hperm.eq_of_pairwise (fun a b _ _ hab hba => absurd hab hba.not_gt) h h'

/-- In a consistent list the order does not matter. -/
lemma newestVisible_congr {l l' : List α} (h : Consistent ts l) (hm : ∀ v, v ∈ l' ↔ v ∈ l) (t : τ) :
    newestVisible ts l' t = newestVisible ts l t := by
  cases hn : newestVisible ts l t with
  | none =>
    exact newestVisible_eq_none_iff.mpr fun v hv => newestVisible_eq_none_iff.mp hn v ((hm v).mp hv)
  | some v =>
    obtain ⟨hv, hvt, hmax⟩ := (newestVisible_lastNewest hn).newest
    cases hn' : newestVisible ts l' t with
    | none => exact absurd hvt (newestVisible_eq_none_iff.mp hn' v ((hm v).mpr hv))
    | some w =>
      obtain ⟨hw, hwt, hmax'⟩ := (newestVisible_lastNewest hn').newest
      have hle := hmax w ((hm w).mp hw) hwt
      have hge := hmax' v ((hm v).mpr hv) hvt
      rw [h w ((hm w).mp hw) v hv (le_antisymm hle hge)]

/-! ### The newest version last -/

variable (ts) in
/-- The last version is the newest one, and no other version has its timestamp. -/
def Crowned (l : List α) : Prop := ∀ v ∈ l, ∀ w ∈ l.getLast?, v = w ∨ ts v < ts w

lemma crowned_concat {l : List α} {w : α} (h : ∀ v ∈ l, ts v < ts w) : Crowned ts (l ++ [w]) := by
  intro v hv x hx
  obtain rfl : w = x := by simpa using hx
  rcases List.mem_append.mp hv with hv | hv
  · exact Or.inr (h v hv)
  · exact Or.inl (List.mem_singleton.mp hv)

lemma Crowned.mono {l l' : List α} (h : Crowned ts l) (hsub : ∀ v ∈ l', v ∈ l)
    (hlast : l'.getLast? = l.getLast?) : Crowned ts l' := fun v hv w hw =>
  h v (hsub v hv) w (hlast ▸ hw)

lemma Crowned.append_right {l l' : List α} (h : Crowned ts (l ++ l')) : Crowned ts l' := by
  intro v hv w hw
  refine h v (List.mem_append_right l hv) w ?_
  rw [List.getLast?_append, Option.mem_def.mp hw]
  rfl

/-- Where all versions are visible, the newest one is the last. -/
lemma Crowned.newestVisible_eq {l : List α} (h : Crowned ts l) {t : τ} (ht : ∀ v ∈ l, ts v ≤ t) :
    newestVisible ts l t = l.getLast? := by
  rcases List.eq_nil_or_concat' l with rfl | ⟨l, w, rfl⟩
  · rfl
  rw [newestVisible_concat, better, if_pos, List.getLast?_concat]
  refine ⟨ht w (by simp), fun b hb => ?_⟩
  have hmem := (newestVisible_lastNewest hb).newest.1
  rcases h b (List.mem_append_left _ hmem) w (by simp) with rfl | hlt
  · exact le_rfl
  · exact hlt.le

/-! ### Repeated parts -/

/-- Every search from the end finds the same in the two lists. -/
def SameLast (l l' : List α) : Prop := ∀ p : α → Bool, l.reverse.find? p = l'.reverse.find? p

lemma SameLast.refl (l : List α) : SameLast l l := fun _ => rfl

lemma SameLast.trans {l₁ l₂ l₃ : List α} (h : SameLast l₁ l₂) (h' : SameLast l₂ l₃) :
    SameLast l₁ l₃ := fun p => (h p).trans (h' p)

lemma SameLast.append {l l' : List α} (h : SameLast l l') (m : List α) :
    SameLast (l ++ m) (l' ++ m) := by
  intro p
  simp only [List.reverse_append, List.find?_append, h p]

lemma SameLast.map {β : Type*} {l l' : List α} (h : SameLast l l') (f : α → β) :
    SameLast (l.map f) (l'.map f) := by
  intro p
  simp only [← List.map_reverse, List.find?_map, h (p ∘ f)]

/-- **A part of a list that was written before is not seen.** -/
lemma sameLast_repeat {l m r : List α} (h : ∀ x ∈ m, x ∈ r) :
    SameLast (l ++ m ++ r) (l ++ r) := by
  intro p
  simp only [List.reverse_append, List.find?_append]
  cases hr : r.reverse.find? p with
  | some x => rfl
  | none =>
    have hm : m.reverse.find? p = none := by
      rw [List.find?_eq_none] at hr ⊢
      intro x hx
      exact hr x (List.mem_reverse.mpr (h x (List.mem_reverse.mp hx)))
    rw [hm, Option.none_or]

end VeriStore.Lib

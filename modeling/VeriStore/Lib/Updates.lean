import VeriStore.Lib.Visible

/-!
Updates of a map, one key at a time.

After a list of updates a key has what the last update of this key says (`getElem?_updates`). So
lists that searches from the end cannot tell apart make the same map, and updates over a part of
their own effects change nothing (`updates_take`, `updates_repeat`).
-/

namespace VeriStore.Lib

variable {κ ν : Type*} {cmp : κ → κ → Ordering} [Std.TransCmp cmp]

/-- An update gives a key a value or removes it. -/
def update (m : Std.ExtTreeMap κ ν cmp) (u : κ × Option ν) : Std.ExtTreeMap κ ν cmp :=
  match u.2 with
  | some v => m.insert u.1 v
  | none => m.erase u.1

def updates (m : Std.ExtTreeMap κ ν cmp) (us : List (κ × Option ν)) : Std.ExtTreeMap κ ν cmp :=
  us.foldl update m

@[simp] lemma updates_nil (m : Std.ExtTreeMap κ ν cmp) : updates m [] = m := rfl

lemma updates_append (m : Std.ExtTreeMap κ ν cmp) (us us' : List (κ × Option ν)) :
    updates m (us ++ us') = updates (updates m us) us' :=
  List.foldl_append

variable [Std.LawfulEqCmp cmp] [DecidableEq κ]

lemma getElem?_update (m : Std.ExtTreeMap κ ν cmp) (u : κ × Option ν) (k : κ) :
    (update m u)[k]? = if u.1 = k then u.2 else m[k]? := by
  unfold update
  split
  · next v hv =>
    rw [Std.ExtTreeMap.getElem?_insert, hv]
    simp only [Std.LawfulEqCmp.compare_eq_iff_eq]
  · next hv =>
    rw [Std.ExtTreeMap.getElem?_erase, hv]
    simp only [Std.LawfulEqCmp.compare_eq_iff_eq]

/-- **The last update of a key decides.** -/
lemma getElem?_updates (m : Std.ExtTreeMap κ ν cmp) (us : List (κ × Option ν)) (k : κ) :
    (updates m us)[k]? = ((us.reverse.find? fun u => u.1 = k).map (·.2)).getD m[k]? := by
  induction us using List.reverseRecOn with
  | nil => rfl
  | append_singleton us u ih =>
    rw [updates_append, updates, List.foldl_cons, List.foldl_nil, getElem?_update,
      List.reverse_concat, List.find?_cons]
    by_cases hk : u.1 = k
    · simp [hk]
    · simpa [hk] using ih

/-- Updates that searches from the end cannot tell apart. -/
lemma updates_congr {us us' : List (κ × Option ν)} (h : SameLast us us')
    (m : Std.ExtTreeMap κ ν cmp) : updates m us = updates m us' :=
  Std.ExtTreeMap.ext_getElem? fun k => by rw [getElem?_updates, getElem?_updates, h]

/-- **Updates over a part of their own effects.** -/
lemma updates_take (m : Std.ExtTreeMap κ ν cmp) (us : List (κ × Option ν)) (j : ℕ) :
    updates (updates m (us.take j)) us = updates m us := by
  rw [← updates_append]
  exact updates_congr (sameLast_repeat (l := []) fun u hu => List.mem_of_mem_take hu) m

/-- **A block that is repeated** right behind itself. -/
lemma updates_repeat (m : Std.ExtTreeMap κ ν cmp) (us block us' : List (κ × Option ν)) :
    updates m (us ++ block ++ block ++ us') = updates m (us ++ block ++ us') :=
  updates_congr ((sameLast_repeat (l := us) (m := block) fun _ hu => hu).append us') m

/-- The entries of a map in any order make the map. -/
lemma updates_of_perm {m : Std.ExtTreeMap κ ν cmp} {l : List (κ × ν)} (h : l.Perm m.toList) :
    updates ∅ (l.map fun e => (e.1, some e.2)) = m := by
  refine Std.ExtTreeMap.ext_getElem? fun k => ?_
  rw [getElem?_updates, ← List.map_reverse, List.find?_map]
  have hmem : ∀ e ∈ l.reverse, m[e.1]? = some e.2 := fun e he =>
    Std.ExtTreeMap.mem_toList_iff_getElem?_eq_some.mp (h.mem_iff.mp (List.mem_reverse.mp he))
  cases hf : l.reverse.find? ((fun u => decide (u.1 = k)) ∘ fun e => (e.1, some e.2)) with
  | some e =>
    have hk : e.1 = k := by simpa using List.find?_some hf
    have he := hmem e (List.mem_of_find?_eq_some hf)
    rw [hk] at he
    simp [he]
  | none =>
    rw [List.find?_eq_none] at hf
    cases hm : m[k]? with
    | none => simp
    | some v =>
      have hkv := h.mem_iff.mpr (Std.ExtTreeMap.mem_toList_iff_getElem?_eq_some.mpr hm)
      exact absurd (by simp) (hf (k, v) (List.mem_reverse.mpr hkv))

end VeriStore.Lib

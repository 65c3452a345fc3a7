import VeriStore.Lib.Visible
import Mathlib.Data.Fintype.Lattice

/-!
Participants that follow one history.

Each participant has a list of items, and no two lists differ where both go. Then all of them are
parts of one list (`exists_history`). A participant that forgets how far it got numbers its items
from one again (`Numbered`); if the numbers are positions in the history, then what it got last is a
part of the history and the rest lies before (`Numbered.eq_append`).
-/

namespace VeriStore.Lib

variable {α : Type*}

/-! ### Lists that agree -/

/-- No position of both lists has two items. -/
def Agree (l l' : List α) : Prop :=
  ∀ (k : ℕ) (a b : α), l[k]? = some a → l'[k]? = some b → a = b

lemma Agree.symm {l l' : List α} (h : Agree l l') : Agree l' l :=
  fun k a b ha hb => (h k b a hb ha).symm

lemma Agree.isPrefix {l l' : List α} (h : Agree l l') (hlen : l.length ≤ l'.length) : l <+: l' := by
  refine List.prefix_iff_getElem?.mpr fun k hk => ?_
  have hk' : l'[k]? = some l'[k] := List.getElem?_eq_getElem (by omega)
  rw [hk', ← h k _ _ (List.getElem?_eq_getElem hk) hk']

/-- **There is one history.** It goes as far as one of the lists. -/
theorem exists_history {ι : Type*} [Finite ι] (f : ι → List α) (h : ∀ i j, Agree (f i) (f j)) :
    ∃ l, (∀ i, f i <+: l) ∧ (l = [] ∨ ∃ i, l = f i) := by
  rcases isEmpty_or_nonempty ι with hι | hι
  · exact ⟨[], fun i => isEmptyElim i, Or.inl rfl⟩
  · obtain ⟨j, hj⟩ := Finite.exists_max fun i => (f i).length
    exact ⟨f j, fun i => (h i j).isPrefix (hj i), Or.inr ⟨j, rfl⟩⟩

/-! ### Numbered items -/

/-- Items numbered from one on, and at times from one again; `k` is the last number. -/
inductive Numbered : List (ℕ × α) → ℕ → Prop
  | nil : Numbered [] 0
  | next {l : List (ℕ × α)} {k : ℕ} (h : Numbered l k) (a : α) : Numbered (l ++ [(k + 1, a)]) (k + 1)
  | again {l : List (ℕ × α)} {k : ℕ} (h : Numbered l k) : Numbered l 0

/-- **What came last is a part of the history**, and what came before are items of the list. -/
lemma Numbered.eq_append {l : List (ℕ × α)} {k : ℕ} (h : Numbered l k) {history : List α}
    (hl : ∀ x ∈ l, history[x.1 - 1]? = some x.2) :
    ∃ before, l.map Prod.snd = before ++ history.take k ∧ k ≤ history.length ∧
      ∀ a ∈ before, ∃ j, (j, a) ∈ l := by
  induction h with
  | nil => exact ⟨[], rfl, Nat.zero_le _, by simp⟩
  | @next l k _ a ih =>
    obtain ⟨before, he, hk, hb⟩ := ih fun x hx => hl x (List.mem_append_left _ hx)
    have ha : history[k]? = some a := hl (k + 1, a) (by simp)
    have hlt := (List.getElem?_eq_some_iff.mp ha).1
    refine ⟨before, ?_, hlt, fun b hb' => ?_⟩
    · rw [List.map_append, he, List.append_assoc, List.take_add_one, ha]
      rfl
    · obtain ⟨j, hj⟩ := hb b hb'
      exact ⟨j, List.mem_append_left _ hj⟩
  | @again l k _ ih =>
    obtain ⟨before, he, -, hb⟩ := ih hl
    refine ⟨l.map Prod.snd, by simp, Nat.zero_le _, fun a ha => ?_⟩
    obtain ⟨x, hx, rfl⟩ := List.mem_map.mp ha
    exact ⟨x.1, hx⟩

/-- A search from the end sees the part of the history up to the last number, once this number is
the largest one. -/
lemma Numbered.sameLast {l : List (ℕ × α)} {k : ℕ} (h : Numbered l k) {history : List α}
    (hl : ∀ x ∈ l, history[x.1 - 1]? = some x.2) (hpos : ∀ x ∈ l, 0 < x.1)
    (hk : ∀ x ∈ l, x.1 ≤ k) : SameLast (l.map Prod.snd) (history.take k) := by
  obtain ⟨before, he, -, hb⟩ := h.eq_append hl
  rw [he]
  refine sameLast_repeat (l := []) fun a ha => ?_
  obtain ⟨j, hj⟩ := hb a ha
  have h1 := hpos _ hj
  have h2 := hk _ hj
  refine List.mem_of_getElem? (i := j - 1) ?_
  rw [List.getElem?_take_of_lt (by simp only at h1 h2; omega)]
  exact hl _ hj

end VeriStore.Lib

import Mathlib.Tactic

/-!
Lists that are copied from authors.

Every element has a tag, a tag has one author, and only the author appends elements with its tag,
at the end of its list `Λ t`. All other lists are prefixes of lists that were copied at some time.
A list *descends* from the authors when, wherever it holds an element of a tag, it agrees up to it
with the list of the author of the tag; two such lists that hold elements of one tag at the same
position agree up to it (`Descends.take_eq`).
-/

namespace VeriStore.Lib

variable {α : Type} {tm : α → ℕ} {Λ Λ' : ℕ → List α} {l l' : List α}

/-- Up to every element, the list is the one of the author of its tag. -/
def Descends (tm : α → ℕ) (Λ : ℕ → List α) (l : List α) : Prop :=
  ∀ k e, l[k]? = some e → l.take (k + 1) = (Λ (tm e)).take (k + 1)

namespace Descends

lemma nil : Descends tm Λ [] := by
  intro k e hk
  simp at hk

lemma of_isPrefix (h : Descends tm Λ l') (hp : l <+: l') : Descends tm Λ l := by
  intro k e hk
  obtain ⟨u, rfl⟩ := hp
  have hlt : k < l.length := (List.getElem?_eq_some_iff.mp hk).1
  have := h k e (by rw [List.getElem?_append_left hlt]; exact hk)
  rwa [List.take_append_of_le_length (by omega)] at this

/-- The author has at least as many elements as are copied from it. -/
lemma lt_length (h : Descends tm Λ l) {k : ℕ} {e : α} (hk : l[k]? = some e) :
    k < (Λ (tm e)).length := by
  have hlt := (List.getElem?_eq_some_iff.mp hk).1
  have hlen := congrArg List.length (h k e hk)
  simp only [List.length_take] at hlen
  omega

/-- Authors append, and what was copied stays what it was. -/
lemma mono (h : Descends tm Λ l) (hg : ∀ t, Λ t <+: Λ' t) : Descends tm Λ' l := by
  intro k e hk
  have hlt := h.lt_length hk
  obtain ⟨u, hu⟩ := hg (tm e)
  rw [h k e hk, ← hu, List.take_append_of_le_length (by omega)]

/-- **The author of a tag appends an element with it.** -/
lemma concat (h : Descends tm Λ l) {e : α} (he : Λ (tm e) = l ++ [e]) :
    Descends tm Λ (l ++ [e]) := by
  intro k x hk
  by_cases hlt : k < l.length
  · rw [List.getElem?_append_left hlt] at hk
    rw [List.take_append_of_le_length (by omega)]
    exact h k x hk
  · have hkl : k = l.length := by
      have := (List.getElem?_eq_some_iff.mp hk).1
      simp only [List.length_append, List.length_singleton] at this
      omega
    subst hkl
    rw [List.getElem?_concat_length, Option.some.injEq] at hk
    subst hk
    rw [he]

/-- **Two lists that hold elements of one tag at a position agree up to it.** -/
theorem take_eq (h : Descends tm Λ l) (h' : Descends tm Λ l') {k : ℕ} {e e' : α}
    (hk : l[k]? = some e) (hk' : l'[k]? = some e') (ht : tm e = tm e') :
    l.take (k + 1) = l'.take (k + 1) := by
  rw [h k e hk, h' k e' hk', ht]

end Descends

/-! ### New elements -/

section Update

variable {t : ℕ}

/-- One author has more elements than before. -/
lemma isPrefix_update (hp : Λ t <+: l) (u : ℕ) : Λ u <+: Function.update Λ t l u := by
  by_cases hu : u = t
  · subst hu
    simpa using hp
  · simp [hu]

/-- The lists of the authors descend from the authors also when one of them has a new list that
does. -/
lemma descends_update (h : ∀ u, Descends tm Λ (Λ u)) (hp : Λ t <+: l)
    (hl : Descends tm (Function.update Λ t l) l) (u : ℕ) :
    Descends tm (Function.update Λ t l) (Function.update Λ t l u) := by
  by_cases hu : u = t
  · subst hu
    simpa using hl
  · rw [Function.update_of_ne hu]
    exact (h u).mono (isPrefix_update hp)

end Update

end VeriStore.Lib

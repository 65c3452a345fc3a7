import Mathlib.Data.List.TakeWhile

/-!
A stream that is cut into frames by an end mark.

A receiver gets the stream in pieces of any size. It keeps the unfinished frame, and handles each
frame as soon as its end mark is there (`drain`). What it does depends on the stream only:

* `frames_append` — the frames of a stream that goes on;
* `receiveAll_eq` — however the stream is cut into pieces, the receiver handles its frames, in
  order, and keeps what stands behind the last end mark.
-/

namespace VeriStore.Lib

variable {α σ β : Type*} [DecidableEq α] {mark : α}

/-! ### Frames -/

/-- The first frame, without its end mark, and what follows it. -/
def takeFrame (mark : α) (s : List α) : Option (List α × List α) :=
  if mark ∈ s then some (s.takeWhile (· ≠ mark), (s.dropWhile (· ≠ mark)).drop 1) else none

/-- All frames, and what stands behind the last end mark. -/
def frames (mark : α) : List α → List (List α) × List α
  | [] => ([], [])
  | b :: s =>
    match frames mark s with
    | (fs, rest) =>
      if b = mark then ([] :: fs, rest)
      else
        match fs with
        | [] => ([], b :: rest)
        | f :: fs => ((b :: f) :: fs, rest)

lemma takeFrame_append {f : List α} (hf : mark ∉ f) (s : List α) :
    takeFrame mark (f ++ mark :: s) = some (f, s) := by
  have hne : ∀ b ∈ f, decide (b ≠ mark) = true := fun b hb => by
    simpa using fun e : b = mark => hf (e ▸ hb)
  unfold takeFrame
  rw [if_pos (by simp), List.takeWhile_append_of_pos hne, List.dropWhile_append_of_pos hne]
  simp

lemma takeFrame_eq_none {s : List α} (h : mark ∉ s) : takeFrame mark s = none := if_neg h

lemma frames_of_notMem {s : List α} (h : mark ∉ s) : frames mark s = ([], s) := by
  induction s with
  | nil => rfl
  | cons b s ih =>
    simp only [List.mem_cons, not_or] at h
    simp [frames, ih h.2, Ne.symm h.1]

lemma frames_frame {f : List α} (hf : mark ∉ f) (s : List α) :
    frames mark (f ++ mark :: s) = (f :: (frames mark s).1, (frames mark s).2) := by
  induction f with
  | nil => simp [frames]
  | cons b f ih =>
    simp only [List.mem_cons, not_or] at hf
    simp [frames, ih hf.2, Ne.symm hf.1]

/-- **Induction on the frames of a stream.** -/
@[elab_as_elim]
lemma frames_induction {motive : List α → Prop} (mark : α) (rest : ∀ s, mark ∉ s → motive s)
    (frame : ∀ f s, mark ∉ f → motive s → motive (f ++ mark :: s)) (s : List α) : motive s := by
  induction hn : s.length using Nat.strong_induction_on generalizing s with
  | _ n ih =>
    by_cases hmem : mark ∈ s
    · obtain ⟨f, t, rfl, hf⟩ := List.eq_append_cons_of_mem hmem
      refine frame f t hf (ih t.length ?_ t rfl)
      rw [← hn, List.length_append, List.length_cons]
      omega
    · exact rest s hmem

/-- What stands behind the last end mark holds none. -/
lemma frames_rest (s : List α) : mark ∉ (frames mark s).2 := by
  induction s using frames_induction mark with
  | rest s h =>
    rw [frames_of_notMem h]
    exact h
  | frame f s hf ih =>
    rw [frames_frame hf]
    exact ih

/-- **The frames of a stream that goes on**: first its own, then those of the unfinished frame with
what comes. -/
theorem frames_append (s t : List α) :
    frames mark (s ++ t) = ((frames mark s).1 ++ (frames mark ((frames mark s).2 ++ t)).1,
      (frames mark ((frames mark s).2 ++ t)).2) := by
  induction s using frames_induction mark with
  | rest s h => simp [frames_of_notMem h]
  | frame f s hf ih =>
    rw [List.append_assoc, List.cons_append, frames_frame hf, frames_frame hf, ih]
    simp

/-! ### The receiver -/

section Receiver

variable (mark) (handle : σ → List α → σ × β)

/-- The frames one after the other. -/
def handleAll : σ → List (List α) → σ × List β
  | st, [] => (st, [])
  | st, f :: fs =>
    match handle st f with
    | (st', b) =>
      match handleAll st' fs with
      | (st'', bs) => (st'', b :: bs)

/-- The loop over the frames that are there. Every turn but the last takes an end mark, so that the
length of the stream is fuel enough (`drain_eq`). -/
def drain : ℕ → σ → List α → (σ × List α) × List β
  | 0, st, s => ((st, s), [])
  | n + 1, st, s =>
    match takeFrame mark s with
    | none => ((st, s), [])
    | some (f, s') =>
      match handle st f with
      | (st', b) =>
        match drain n st' s' with
        | (r, bs) => (r, b :: bs)

/-- A piece comes in behind the unfinished frame. -/
def receive (r : σ × List α) (piece : List α) : (σ × List α) × List β :=
  drain mark handle (r.2 ++ piece).length r.1 (r.2 ++ piece)

def receiveAll : σ × List α → List (List α) → (σ × List α) × List β
  | r, [] => (r, [])
  | r, p :: ps =>
    match receive mark handle r p with
    | (r', bs) =>
      match receiveAll r' ps with
      | (r'', bs') => (r'', bs ++ bs')

variable {handle}

omit [DecidableEq α] in
lemma handleAll_append (st : σ) (fs gs : List (List α)) :
    handleAll handle st (fs ++ gs) = ((handleAll handle (handleAll handle st fs).1 gs).1,
      (handleAll handle st fs).2 ++ (handleAll handle (handleAll handle st fs).1 gs).2) := by
  induction fs generalizing st with
  | nil => rfl
  | cons f fs ih => simp [handleAll, ih]

variable {mark}

lemma drain_eq {n : ℕ} {s : List α} (hn : s.length ≤ n) (st : σ) : drain mark handle n st s =
    (((handleAll handle st (frames mark s).1).1, (frames mark s).2),
      (handleAll handle st (frames mark s).1).2) := by
  induction s using frames_induction mark generalizing n st with
  | rest s h =>
    rw [frames_of_notMem h]
    cases n <;> simp [drain, takeFrame_eq_none h, handleAll]
  | frame f s hf ih =>
    rw [List.length_append, List.length_cons] at hn
    obtain ⟨n, rfl⟩ : ∃ k, n = k + 1 := ⟨n - 1, by omega⟩
    simp only [drain, takeFrame_append hf, frames_frame hf, handleAll, ih (n := n) (by omega)]

/-- **The pieces do not matter**: the receiver handles the frames of the whole stream and keeps what
stands behind the last end mark. -/
theorem receiveAll_eq (st : σ) {pending : List α} (hp : mark ∉ pending) (pieces : List (List α)) :
    receiveAll mark handle (st, pending) pieces =
      (((handleAll handle st (frames mark (pending ++ pieces.flatten)).1).1,
        (frames mark (pending ++ pieces.flatten)).2),
        (handleAll handle st (frames mark (pending ++ pieces.flatten)).1).2) := by
  induction pieces generalizing st pending with
  | nil => simp [receiveAll, frames_of_notMem hp, handleAll]
  | cons p ps ih =>
    simp only [receiveAll, receive, drain_eq le_rfl, ih _ (frames_rest _), List.flatten_cons]
    rw [← List.append_assoc, frames_append (pending ++ p), handleAll_append]

end Receiver

end VeriStore.Lib

import VeriStore.Lib.Calls

/-!
Operations on one service at the same time.

An operation is a program that has begun, and the operations go on in any order, one call after the
other (`Pool`, `Pool.move`). A specification says what an operation may answer and what it does to an
abstract state when it is alone.

* `Linearization` — an order of the operations in which they could have come one after the other:
  what has ended at a moment stands in front of all that begins later, with the same answer.
* `Points.exists_linearization` — an order is found by a point of each operation, a call at which its
  answer is settled.
-/

namespace VeriStore.Lib

open Prog

/-! ### Operations that have begun -/

/-- **The operations that have begun**, each with what is left of its program, the state of the
service, and the calls that have been made with their answers. -/
structure Pool (Q C : Type) (R : C → Type) (A σ : Type) where
  ops : List (Q × Prog C R A)
  state : σ
  made : List (ℕ × (c : C) × R c)

inductive Move (Q : Type) where
  | start (q : Q)
  | step (i : ℕ)

namespace Pool

variable {Q C : Type} {R : C → Type} {A σ : Type}

/-- Nothing has begun. -/
def init (w : σ) : Pool Q C R A σ := ⟨[], w, []⟩

variable (h : Service C R σ) (prog : Q → Prog C R A)

def start (x : Pool Q C R A σ) (q : Q) : Pool Q C R A σ :=
  { x with ops := x.ops ++ [(q, prog q)] }

/-- The next call of an operation. -/
def call (x : Pool Q C R A σ) (i : ℕ) (q : Q) (c : C) (k : R c → Prog C R A) : Pool Q C R A σ where
  ops := x.ops.set i (q, k (h c x.state).1)
  state := (h c x.state).2
  made := x.made ++ [(i, ⟨c, (h c x.state).1⟩)]

def move (x : Pool Q C R A σ) : Move Q → Option (Pool Q C R A σ)
  | .start q => some (x.start prog q)
  | .step i =>
    match x.ops[i]? with
    | some (q, .call c k) => some (x.call h i q c k)
    | _ => none

def run (x : Pool Q C R A σ) (moves : List (Move Q)) : Option (Pool Q C R A σ) :=
  moves.foldlM (move h prog) x

variable {h prog} {x x' : Pool Q C R A σ}

/-- **What a move is.** -/
lemma move_cases {m : Move Q} (hm : x.move h prog m = some x') :
    (∃ q, m = .start q ∧ x' = x.start prog q) ∨
      ∃ i q c k, x.ops[i]? = some (q, .call c k) ∧ x' = x.call h i q c k := by
  cases m with
  | start q => exact Or.inl ⟨q, rfl, (Option.some.inj hm).symm⟩
  | step i =>
    simp only [move] at hm
    split at hm
    · next q c k hi => exact Or.inr ⟨i, q, c, k, hi, (Option.some.inj hm).symm⟩
    · cases hm

lemma run_concat {moves : List (Move Q)} {m : Move Q} (hrun : x.run h prog (moves ++ [m]) = some x') :
    ∃ y, x.run h prog moves = some y ∧ y.move h prog m = some x' := by
  simp only [run, List.foldlM_append, List.foldlM_cons, List.foldlM_nil] at hrun
  obtain ⟨y, hy, hm⟩ := Option.bind_eq_some_iff.mp hrun
  exact ⟨y, hy, by simpa using hm⟩

section Ops

variable (x) {i j : ℕ} {q q' : Q} {c : C} {k : R c → Prog C R A} {p : Prog C R A}

lemma start_ops_self : (x.start prog q).ops[x.ops.length]? = some (q, prog q) := by
  simp [start]

lemma start_ops_of_ne (hi : i ≠ x.ops.length) : (x.start prog q).ops[i]? = x.ops[i]? := by
  rcases Nat.lt_or_gt_of_ne hi with hlt | hgt
  · simp [start, List.getElem?_append_left hlt]
  · rw [start, List.getElem?_eq_none (by simp; omega), List.getElem?_eq_none hgt.le]

/-- An operation is an old one or the new one. -/
lemma start_ops_cases (hi : (x.start prog q).ops[i]? = some (q', p)) :
    (i ≠ x.ops.length ∧ x.ops[i]? = some (q', p)) ∨ (i = x.ops.length ∧ q' = q ∧ p = prog q) := by
  by_cases hlen : i = x.ops.length
  · subst hlen
    rw [start_ops_self] at hi
    cases hi
    exact Or.inr ⟨rfl, rfl, rfl⟩
  · exact Or.inl ⟨hlen, (x.start_ops_of_ne hlen).symm.trans hi⟩

variable {x}

lemma call_ops_self (hi : x.ops[i]? = some (q', p)) :
    (x.call h i q c k).ops[i]? = some (q, k (h c x.state).1) := by
  simp [call, (List.getElem?_eq_some_iff.mp hi).1]

lemma call_ops_of_ne (hij : j ≠ i) : (x.call h i q c k).ops[j]? = x.ops[j]? := by
  simp [call, List.getElem?_set_ne hij.symm]

/-- An operation is one of the others or the one that has made the call. -/
lemma call_ops_cases (hj : (x.call h i q c k).ops[j]? = some (q', p)) :
    (j ≠ i ∧ x.ops[j]? = some (q', p)) ∨ (j = i ∧ q' = q ∧ p = k (h c x.state).1) := by
  by_cases hij : j = i
  · subst hij
    have hlt : j < (x.call h j q c k).ops.length := (List.getElem?_eq_some_iff.mp hj).1
    simp only [call, List.length_set] at hlt
    rw [call_ops_self (List.getElem?_eq_getElem hlt)] at hj
    cases hj
    exact Or.inr ⟨rfl, rfl, rfl⟩
  · rw [call_ops_of_ne hij] at hj
    exact Or.inl ⟨hij, hj⟩

/-- What was asked stays. -/
lemma call_asked (hi : x.ops[i]? = some (q, .call c k)) (j : ℕ) :
    (x.call h i q c k).ops[j]?.map Prod.fst = x.ops[j]?.map Prod.fst := by
  by_cases hij : j = i
  · subst hij
    rw [call_ops_self hi, hi]
    rfl
  · rw [call_ops_of_ne hij]

@[simp] lemma length_start : (x.start prog q).ops.length = x.ops.length + 1 := by simp [start]

@[simp] lemma length_call : (x.call h i q c k).ops.length = x.ops.length := by simp [call]

end Ops

/-! ### Runs -/

/-- **What stays in a run**: what was asked, and the calls that have been made. -/
structure Grows (x x' : Pool Q C R A σ) : Prop where
  asked : ∀ i < x.ops.length, x'.ops[i]?.map Prod.fst = x.ops[i]?.map Prod.fst
  length : x.ops.length ≤ x'.ops.length
  made : x.made <+: x'.made

lemma Grows.trans {y : Pool Q C R A σ} (h : Grows x y) (h' : Grows y x') : Grows x x' where
  asked i hi := (h'.asked i (hi.trans_le h.length)).trans (h.asked i hi)
  length := h.length.trans h'.length
  made := h.made.trans h'.made

lemma grows_of_move {m : Move Q} (hm : x.move h prog m = some x') : Grows x x' := by
  rcases move_cases hm with ⟨q, -, rfl⟩ | ⟨i, q, c, k, hi, rfl⟩
  · exact ⟨fun j hj => by rw [x.start_ops_of_ne hj.ne], by simp, List.prefix_rfl⟩
  · exact ⟨fun j _ => call_asked hi j, by simp, List.prefix_append _ _⟩

lemma grows_of_run {moves : List (Move Q)} (hrun : x.run h prog moves = some x') : Grows x x' := by
  induction moves using List.reverseRecOn generalizing x' with
  | nil =>
    obtain rfl := Option.some.inj hrun
    exact ⟨fun _ _ => rfl, le_rfl, List.prefix_rfl⟩
  | append_singleton moves m ih =>
    obtain ⟨y, hy, hm⟩ := run_concat hrun
    exact (ih hy).trans (grows_of_move hm)

/-- The states on the way to the last one. -/
lemma run_append {past rest : List (Move Q)} (hrun : x.run h prog (past ++ rest) = some x') :
    ∃ y, x.run h prog past = some y ∧ y.run h prog rest = some x' := by
  simp only [run, List.foldlM_append] at hrun
  exact Option.bind_eq_some_iff.mp hrun

/-- What was asked was asked by a move. -/
lemma start_mem_of_run {w : σ} {moves : List (Move Q)} (hrun : (init w).run h prog moves = some x)
    {i : ℕ} {q : Q} {p : Prog C R A} (hi : x.ops[i]? = some (q, p)) : .start q ∈ moves := by
  induction moves using List.reverseRecOn generalizing x p with
  | nil =>
    obtain rfl := Option.some.inj hrun
    simp [init] at hi
  | append_singleton moves m ih =>
    rw [List.mem_append, List.mem_singleton]
    obtain ⟨y, hy, hm⟩ := run_concat hrun
    rcases move_cases hm with ⟨q', rfl, rfl⟩ | ⟨j, q', c, k, hj, rfl⟩
    · rcases y.start_ops_cases hi with ⟨-, hi⟩ | ⟨-, rfl, -⟩
      · exact Or.inl (ih hy hi)
      · exact Or.inr rfl
    · rcases call_ops_cases hi with ⟨-, hi⟩ | ⟨rfl, rfl, -⟩
      · exact Or.inl (ih hy hi)
      · exact Or.inl (ih hy hj)

end Pool

/-! ### Orders -/

variable {Q C : Type} {R : C → Type} {A σ S : Type}

/-- Operations one after the other, each with its answer. -/
inductive Sequential (spec : Q → S → A → S → Prop) (s₀ : S) : List (ℕ × Q × A) → S → Prop
  | nil : Sequential spec s₀ [] s₀
  | concat {order : List (ℕ × Q × A)} {s s' : S} {i : ℕ} {q : Q} {a : A}
      (h : Sequential spec s₀ order s) (hq : spec q s a s') :
      Sequential spec s₀ (order ++ [(i, q, a)]) s'

section Orders

variable (h : Service C R σ) (prog : Q → Prog C R A) (spec : Q → S → A → S → Prop)

/-- The operations that have taken effect in a state: all that have ended, with their answers, and
none that has not begun. -/
def Covers (x : Pool Q C R A σ) (order : List (ℕ × Q × A)) : Prop :=
  (∀ i q a, x.ops[i]? = some (q, .ret a) → (i, q, a) ∈ order) ∧
    ∀ i q a, (i, q, a) ∈ order → ∃ p, x.ops[i]? = some (q, p)

/-- **An order of the operations of a run.** They are a sequential run, each comes once, and at each
moment a first part of the order has taken effect. -/
structure Linearization (s₀ : S) (w₀ : σ) (moves : List (Move Q)) (order : List (ℕ × Q × A)) : Prop where
  legal : ∃ s, Sequential spec s₀ order s
  once : (order.map Prod.fst).Nodup
  inTime : ∀ past rest y, moves = past ++ rest → (Pool.init w₀).run h prog past = some y →
    ∃ done, done <+: order ∧ (rest = [] → done = order) ∧ Covers y done

/-- **Points of the operations**: `out` has the answers that are settled, and a move settles at most
the answer of its own operation, as the specification allows it in the abstract state. -/
structure Points (Good : Pool Q C R A σ → Prop)
    (Inv : Pool Q C R A σ → (ℕ → Option A) → S → Prop) : Prop where
  start : ∀ x out s q, Inv x out s → Good (x.start prog q) →
    Inv (x.start prog q) out s ∨ ∃ a s', spec q s a s' ∧
      Inv (x.start prog q) (Function.update out x.ops.length (some a)) s'
  call : ∀ x out s i q c k, Inv x out s → x.ops[i]? = some (q, .call c k) →
    Good (x.call h i q c k) →
    Inv (x.call h i q c k) out s ∨ ∃ a s', out i = none ∧ spec q s a s' ∧
      Inv (x.call h i q c k) (Function.update out i (some a)) s'
  ended : ∀ x out s i q a, Inv x out s → x.ops[i]? = some (q, .ret a) → out i = some a

/-- The order that belongs to the answers settled so far. -/
structure Settles (s₀ : S) (x : Pool Q C R A σ) (out : ℕ → Option A) (s : S)
    (order : List (ℕ × Q × A)) : Prop where
  legal : Sequential spec s₀ order s
  once : (order.map Prod.fst).Nodup
  mem : ∀ i q a, (i, q, a) ∈ order ↔ out i = some a ∧ ∃ p, x.ops[i]? = some (q, p)
  begun : ∀ i a, out i = some a → i < x.ops.length

variable {h prog spec} {s₀ : S} {x x' : Pool Q C R A σ} {out : ℕ → Option A} {s s' : S}
  {order : List (ℕ × Q × A)}

/-- A move that settles nothing. -/
lemma Settles.keep (hs : Settles spec s₀ x out s order) (hlen : x.ops.length ≤ x'.ops.length)
    (hops : ∀ i < x.ops.length, x'.ops[i]?.map Prod.fst = x.ops[i]?.map Prod.fst) :
    Settles spec s₀ x' out s order := by
  refine ⟨hs.legal, hs.once, fun i q a => ?_, fun i a hi => (hs.begun i a hi).trans_le hlen⟩
  rw [hs.mem]
  refine and_congr_right fun hi => ?_
  have hsame := hops i (hs.begun i a hi)
  constructor
  · rintro ⟨p, hp⟩
    rw [hp] at hsame
    obtain ⟨e, he, rfl⟩ := Option.map_eq_some_iff.mp hsame
    exact ⟨e.2, he⟩
  · rintro ⟨p, hp⟩
    rw [hp] at hsame
    obtain ⟨e, he, hq⟩ := Option.map_eq_some_iff.mp hsame.symm
    exact ⟨e.2, he.trans (congrArg some (Prod.ext hq rfl))⟩

/-- **A move that settles an answer** puts its operation at the end of the order. -/
lemma Settles.settle {i : ℕ} {q : Q} {p : Prog C R A} {a : A}
    (hs : Settles spec s₀ x out s order) (hi : out i = none) (hx : x.ops[i]? = some (q, p))
    (hspec : spec q s a s') :
    Settles spec s₀ x (Function.update out i (some a)) s' (order ++ [(i, q, a)]) := by
  refine ⟨hs.legal.concat hspec, ?_, fun j q' a' => ?_, fun j a' hj => ?_⟩
  · rw [List.map_append, List.nodup_append]
    refine ⟨hs.once, by simp, ?_⟩
    rintro j hj j' hj' rfl
    obtain ⟨⟨_, q', a'⟩, hmem, rfl⟩ := List.mem_map.mp hj
    obtain rfl : _ = i := by simpa using hj'
    have := ((hs.mem _ _ _).mp hmem).1
    rw [hi] at this
    cases this
  · rw [List.mem_append, List.mem_singleton, hs.mem]
    by_cases hij : j = i
    · subst hij
      simp only [hi, Function.update_self, hx, Prod.mk.injEq, Option.some.injEq]
      constructor
      · rintro (⟨e, -⟩ | ⟨-, rfl, rfl⟩)
        · cases e
        · exact ⟨rfl, p, rfl, rfl⟩
      · rintro ⟨rfl, p', rfl, -⟩
        exact Or.inr ⟨trivial, rfl, rfl⟩
    · simp [hij]
  · by_cases hij : j = i
    · subst hij
      exact (List.getElem?_eq_some_iff.mp hx).1
    · rw [Function.update_of_ne hij] at hj
      exact hs.begun j a' hj

variable {Good : Pool Q C R A σ → Prop} {Inv : Pool Q C R A σ → (ℕ → Option A) → S → Prop}

/-- **One move.** -/
lemma Points.move (hp : Points h prog spec Good Inv) {m : Move Q} (hm : x.move h prog m = some x')
    (hgood : Good x') (hinv : Inv x out s) (hs : Settles spec s₀ x out s order) :
    ∃ out' s' order', order <+: order' ∧ Inv x' out' s' ∧ Settles spec s₀ x' out' s' order' := by
  rcases Pool.move_cases hm with ⟨q, -, rfl⟩ | ⟨i, q, c, k, hi, rfl⟩
  · have hkeep : Settles spec s₀ (x.start prog q) out s order :=
      hs.keep (by simp) fun j hj => by rw [x.start_ops_of_ne hj.ne]
    rcases hp.start x out s q hinv hgood with hnext | ⟨a, s', hspec, hnext⟩
    · exact ⟨out, s, order, List.prefix_rfl, hnext, hkeep⟩
    · have hnone : out x.ops.length = none := by
        by_contra hne
        obtain ⟨b, hb⟩ := Option.ne_none_iff_exists'.mp hne
        exact absurd (hs.begun _ b hb) (lt_irrefl _)
      exact ⟨_, s', _, List.prefix_append _ _, hnext, hkeep.settle hnone x.start_ops_self hspec⟩
  · have hkeep : Settles spec s₀ (x.call h i q c k) out s order :=
      hs.keep (by simp) fun j _ => Pool.call_asked hi j
    rcases hp.call x out s i q c k hinv hi hgood with hnext | ⟨a, s', hnone, hspec, hnext⟩
    · exact ⟨out, s, order, List.prefix_rfl, hnext, hkeep⟩
    · exact ⟨_, s', _, List.prefix_append _ _, hnext,
        hkeep.settle hnone (Pool.call_ops_self hi) hspec⟩

lemma Settles.covers (hp : Points h prog spec Good Inv) (hinv : Inv x out s)
    (hs : Settles spec s₀ x out s order) : Covers x order :=
  ⟨fun i q a hi => (hs.mem i q a).mpr ⟨hp.ended x out s i q a hinv hi, _, hi⟩,
    fun i q a hi => ((hs.mem i q a).mp hi).2⟩

/-- **Points give an order**: in every run whose states are all good the operations can be put in
order. -/
theorem Points.exists_linearization (hp : Points h prog spec Good Inv) {w₀ : σ}
    (hinit : Inv (Pool.init w₀) (fun _ => none) s₀) {moves : List (Move Q)}
    (hrun : (Pool.init w₀).run h prog moves = some x)
    (hgood : ∀ past rest y, moves = past ++ rest → (Pool.init w₀).run h prog past = some y → Good y) :
    ∃ order, Linearization h prog spec s₀ w₀ moves order := by
  suffices ∃ out s order, Inv x out s ∧ Settles spec s₀ x out s order ∧
      Linearization h prog spec s₀ w₀ moves order by
    obtain ⟨-, -, order, -, -, hlin⟩ := this
    exact ⟨order, hlin⟩
  induction moves using List.reverseRecOn generalizing x with
  | nil =>
    obtain rfl := Option.some.inj hrun
    have hs : Settles spec s₀ (Pool.init w₀ : Pool Q C R A σ) (fun _ => none) s₀ [] :=
      ⟨.nil, by simp, by simp, by simp⟩
    refine ⟨_, s₀, [], hinit, hs, ⟨s₀, .nil⟩, by simp, fun past rest y he hy => ?_⟩
    obtain ⟨rfl, -⟩ := List.append_eq_nil_iff.mp he.symm
    obtain rfl := Option.some.inj hy
    exact ⟨[], List.prefix_rfl, fun _ => rfl, hs.covers hp hinit⟩
  | append_singleton moves m ih =>
    obtain ⟨y, hy, hm⟩ := Pool.run_concat hrun
    obtain ⟨out, s, order, hinv, hs, hlin⟩ := ih hy
      fun past rest z he hz => hgood past (rest ++ [m]) z (by rw [he, List.append_assoc]) hz
    obtain ⟨out', s', order', hpre, hinv', hs'⟩ :=
      hp.move hm (hgood _ [] _ (List.append_nil _).symm hrun) hinv hs
    refine ⟨out', s', order', hinv', hs', ⟨s', hs'.legal⟩, hs'.once, fun past rest z he hz => ?_⟩
    rcases List.eq_nil_or_concat rest with rfl | ⟨rest, m', rfl⟩
    · -- the moment behind the last move
      rw [List.append_nil] at he
      subst he
      obtain rfl := Option.some.inj (hrun.symm.trans hz)
      exact ⟨order', List.prefix_rfl, fun _ => rfl, hs'.covers hp hinv'⟩
    · rw [List.concat_eq_append, ← List.append_assoc] at he
      obtain ⟨he, -⟩ := List.append_inj' he rfl
      obtain ⟨done, hdone, -, hcov⟩ := hlin.inTime past rest z he hz
      exact ⟨done, hdone.trans hpre, by simp, hcov⟩

end Orders

end VeriStore.Lib

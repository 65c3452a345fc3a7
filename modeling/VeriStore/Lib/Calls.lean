import Mathlib.Tactic

/-!
Programs that call a service.

A program has a result, or makes a call and goes on with the answer (`Prog`). A service answers a
call from its state and changes the state (`Service`). A program is run to its end (`exec`), and
`Point` gives the states in which it can be interrupted. Two programs on one service run in any
order of their calls (`Interleaved`).

What is observed of a state is not changed by a silent program and changed at most once by an atomic
one (`Silent`, `Atomic`): an interruption of an atomic program is observed as if it had not begun
or as if it had ended.
-/

namespace VeriStore.Lib

inductive Prog (C : Type) (R : C → Type) (α : Type) where
  | ret (a : α)
  | call (c : C) (k : R c → Prog C R α)

/-- A service with states `σ`: what it answers to a call, and its next state. -/
abbrev Service (C : Type) (R : C → Type) (σ : Type) := (c : C) → σ → R c × σ

namespace Prog

variable {C : Type} {R : C → Type} {α β σ τ ω : Type}

def bind : Prog C R α → (α → Prog C R β) → Prog C R β
  | ret a, f => f a
  | call c k, f => call c fun r => (k r).bind f

instance : Monad (Prog C R) where
  pure := ret
  bind := bind

/-- One call. -/
def request (c : C) : Prog C R (R c) := call c ret

/-- **The run of a program**: its result and the state it leaves. -/
def exec (h : Service C R σ) : Prog C R α → σ → α × σ
  | ret a, s => (a, s)
  | call c k, s => exec h (k (h c s).1) (h c s).2

section Exec

variable (h : Service C R σ)

@[simp] lemma exec_pure (a : α) (s : σ) : exec h (pure a) s = (a, s) := rfl

@[simp] lemma exec_request (c : C) (s : σ) : exec h (request c) s = h c s := rfl

@[simp] lemma exec_bind (p : Prog C R α) (f : α → Prog C R β) (s : σ) :
    exec h (p >>= f) s = exec h (f (exec h p s).1) (exec h p s).2 := by
  induction p generalizing s with
  | ret a => rfl
  | call c k ih => exact ih (h c s).1 (h c s).2

end Exec

/-- A service with more state, of which `π` is what another service has. -/
def Extends (h : Service C R σ) (g : Service C R τ) (π : σ → τ) : Prop :=
  ∀ c s, (h c s).1 = (g c (π s)).1 ∧ π (h c s).2 = (g c (π s)).2

section Extends

variable {h : Service C R σ} {g : Service C R τ} {π : σ → τ}

/-- A program runs on the larger service as on the smaller one. -/
lemma Extends.exec (hg : Extends h g π) (p : Prog C R α) (s : σ) :
    (p.exec h s).1 = (p.exec g (π s)).1 ∧ π (p.exec h s).2 = (p.exec g (π s)).2 := by
  induction p generalizing s with
  | ret a => exact ⟨rfl, rfl⟩
  | call c k ih =>
    obtain ⟨hanswer, hstate⟩ := hg c s
    have hrest := ih (h c s).1 (h c s).2
    rw [hstate, hanswer] at hrest
    simpa only [Prog.exec, hanswer] using hrest

end Extends

/-! ### Calls of one kind -/

/-- Every call that the program can make is of the kind. -/
def Only (P : C → Prop) : Prog C R α → Prop
  | ret _ => True
  | call c k => P c ∧ ∀ r, (k r).Only P

section Only

variable {P : C → Prop}

lemma only_pure (a : α) : (pure a : Prog C R α).Only P := trivial

/-- One call, and a program that goes on with the answer. -/
lemma only_request_bind {c : C} {f : R c → Prog C R α} (hc : P c) (hf : ∀ r, (f r).Only P) :
    (request c >>= f).Only P := ⟨hc, hf⟩

lemma Only.bind {p : Prog C R α} {f : α → Prog C R β} (hp : p.Only P) (hf : ∀ a, (f a).Only P) :
    (p >>= f).Only P := by
  induction p with
  | ret a => exact hf a
  | call c k ih => exact ⟨hp.1, fun r => ih r (hp.2 r)⟩

/-- **A program with calls of one kind** runs on one service as on another, where these calls do
and keep an invariant. -/
lemma Only.exec {h : Service C R σ} {g : Service C R τ} {π : σ → τ} {I : σ → Prop}
    (hcall : ∀ c s, P c → I s → (h c s).1 = (g c (π s)).1 ∧ π (h c s).2 = (g c (π s)).2 ∧ I (h c s).2)
    {p : Prog C R α} (hp : p.Only P) {s : σ} (hs : I s) :
    (p.exec h s).1 = (p.exec g (π s)).1 ∧ π (p.exec h s).2 = (p.exec g (π s)).2 ∧ I (p.exec h s).2 := by
  induction p generalizing s with
  | ret a => exact ⟨rfl, rfl, hs⟩
  | call c k ih =>
    obtain ⟨hanswer, hstate, hkept⟩ := hcall c s hp.1 hs
    have hrest := ih (h c s).1 (hp.2 _) hkept
    rw [hstate, hanswer] at hrest
    simpa only [Prog.exec, hanswer] using hrest

/-- What the calls of the kind keep holds at the end. -/
lemma Only.invariant {h : Service C R σ} {I : σ → Prop} (hcall : ∀ c s, P c → I s → I (h c s).2)
    {p : Prog C R α} (hp : p.Only P) {s : σ} (hs : I s) : I (p.exec h s).2 := by
  induction p generalizing s with
  | ret a => exact hs
  | call c k ih => exact ih (h c s).1 (hp.2 _) (hcall c s hp.1 hs)

end Only

/-! ### Answers that do not count -/

/-- The calls of a program, without its result. -/
def calls (p : Prog C R α) : Prog C R Unit := p >>= fun _ => pure ()

/-- The answers to the calls of the kind change no call behind them. -/
def Deaf (P : C → Prop) : Prog C R α → Prop
  | ret _ => True
  | call c k => (∀ r, (k r).Deaf P) ∧ (P c → ∀ r r', (k r).calls = (k r').calls)

section Deaf

variable {P : C → Prop}

lemma exec_calls (h : Service C R σ) (p : Prog C R α) (s : σ) :
    (p.calls.exec h s).2 = (p.exec h s).2 := by
  simp [calls]

lemma deaf_pure (a : α) : (pure a : Prog C R α).Deaf P := trivial

/-- One call whose answer counts. -/
lemma deaf_request_bind {c : C} {f : R c → Prog C R α} (hc : ¬ P c) (hf : ∀ r, (f r).Deaf P) :
    (request c >>= f).Deaf P := ⟨hf, fun h => absurd h hc⟩

/-- One call whose answer does not count. -/
lemma deaf_request_bind_of_calls {c : C} {f : R c → Prog C R α} (hf : ∀ r, (f r).Deaf P)
    (hcalls : ∀ r r', (f r).calls = (f r').calls) : (request c >>= f).Deaf P :=
  ⟨hf, fun _ => hcalls⟩

/-- A program of calls whose answers count, and what follows it. -/
lemma Only.bind_deaf {p : Prog C R α} {f : α → Prog C R β} (hp : p.Only (¬ P ·))
    (hf : ∀ a, (f a).Deaf P) : (p >>= f).Deaf P := by
  induction p with
  | ret a => exact hf a
  | call c k ih => exact ⟨fun r => ih r (hp.2 r), fun h => absurd h hp.1⟩

lemma calls_bind_pure (p : Prog C R α) (f : α → β) : (p >>= fun a => pure (f a)).calls = p.calls := by
  induction p with
  | ret a => rfl
  | call c k ih => exact congrArg (call c) (funext fun r => ih r)

lemma Deaf.bind_pure {p : Prog C R α} (hp : p.Deaf P) (f : α → β) :
    (p >>= fun a => pure (f a)).Deaf P := by
  induction p with
  | ret a => exact deaf_pure _
  | call c k ih =>
    refine ⟨fun r => ih r (hp.1 r), fun hc r r' => ?_⟩
    exact (calls_bind_pure (k r) f).trans ((hp.2 hc r r').trans (calls_bind_pure (k r') f).symm)

/-- **A program on two services** that answer only the calls of the kind differently does the same to
their states. -/
lemma Deaf.exec {h : Service C R σ} {g : Service C R τ} {π : σ → τ} {I : σ → Prop}
    (hstate : ∀ c s, I s → π (h c s).2 = (g c (π s)).2 ∧ I (h c s).2)
    (hanswer : ∀ c s, ¬ P c → I s → (h c s).1 = (g c (π s)).1)
    {p : Prog C R α} (hp : p.Deaf P) {s : σ} (hs : I s) :
    π (p.exec h s).2 = (p.exec g (π s)).2 := by
  induction p generalizing s with
  | ret a => rfl
  | call c k ih =>
    obtain ⟨hnext, hkept⟩ := hstate c s hs
    have hrest := ih (h c s).1 (hp.1 _) hkept
    rw [hnext] at hrest
    by_cases hc : P c
    · have hsame := exec_calls g (k (h c s).1) (g c (π s)).2
      rw [hp.2 hc (h c s).1 (g c (π s)).1, exec_calls] at hsame
      exact hrest.trans hsame.symm
    · rw [hanswer c s hc hs] at hrest
      simpa only [Prog.exec, hanswer c s hc hs] using hrest

end Deaf

/-! ### Interruptions -/

/-- **The states in which a run can be interrupted**, from the first to the last. -/
inductive Point (h : Service C R σ) : Prog C R α → σ → σ → Prop
  | here (p : Prog C R α) (s : σ) : Point h p s s
  | later {c : C} {k : R c → Prog C R α} {s t : σ} (ht : Point h (k (h c s).1) (h c s).2 t) :
      Point h (call c k) s t

/-- The state behind at most `n` calls. -/
def after (h : Service C R σ) : ℕ → Prog C R α → σ → σ
  | n + 1, call c k, s => after h n (k (h c s).1) (h c s).2
  | _, _, s => s

section Points

variable {h : Service C R σ}

lemma Point.after (n : ℕ) (p : Prog C R α) (s : σ) : Point h p s (p.after h n s) := by
  induction n generalizing p s with
  | zero => cases p <;> exact .here _ _
  | succ n ih =>
    cases p with
    | ret a => exact .here _ _
    | call c k => exact .later (ih _ _)

lemma Point.exec (p : Prog C R α) (s : σ) : Point h p s (p.exec h s).2 := by
  induction p generalizing s with
  | ret a => exact .here _ _
  | call c k ih => exact .later (ih _ _)

/-- The points of a sequence are those of its parts. -/
lemma Point.of_bind {p : Prog C R α} {f : α → Prog C R β} {s t : σ} (ht : Point h (p >>= f) s t) :
    Point h p s t ∨ Point h (f (p.exec h s).1) (p.exec h s).2 t := by
  induction p generalizing s with
  | ret a => exact Or.inr ht
  | call c k ih =>
    cases ht with
    | here => exact Or.inl (.here _ _)
    | later ht => exact (ih _ ht).imp_left .later

/-- One call has two points. -/
lemma Point.of_request {c : C} {s t : σ} (ht : Point h (request c) s t) : t = s ∨ t = (h c s).2 := by
  rcases ht with _ | ht
  · exact Or.inl rfl
  · cases ht
    exact Or.inr rfl

/-- A point is in front of the first call or behind it. -/
lemma Point.of_request_bind {c : C} {f : R c → Prog C R α} {s t : σ}
    (ht : Point h (request c >>= f) s t) : t = s ∨ Point h (f (h c s).1) (h c s).2 t := by
  rcases ht with _ | ht
  · exact Or.inl rfl
  · exact Or.inr ht

/-- A result that is only changed adds no point. -/
lemma Point.of_bind_pure {p : Prog C R α} {f : α → β} {s t : σ}
    (ht : Point h (p >>= fun a => pure (f a)) s t) : Point h p s t := by
  rcases ht.of_bind with ht | ht
  · exact ht
  · cases ht
    exact .exec p s

/-- An interruption on the larger service is one on the smaller service. -/
lemma Point.extends {g : Service C R τ} {π : σ → τ} (hg : Extends h g π) {p : Prog C R α} {s t : σ}
    (ht : Point h p s t) : Point g p (π s) (π t) := by
  induction ht with
  | here => exact .here _ _
  | later _ ih =>
    refine .later ?_
    rwa [← (hg _ _).1, ← (hg _ _).2]

/-- What the calls keep holds at every point. -/
lemma Point.invariant {I : σ → Prop} (hI : ∀ c s, I s → I (h c s).2) {p : Prog C R α} {s t : σ}
    (ht : Point h p s t) (hs : I s) : I t := by
  induction ht with
  | here => exact hs
  | later _ ih => exact ih (hI _ _ hs)

variable (h) (obs : σ → ω)

/-- Nothing is observed of the program. -/
def Silent (p : Prog C R α) (s : σ) : Prop := ∀ t, Point h p s t → obs t = obs s

/-- **An atomic program**: at every point the observation is the one before it or the one behind
it. -/
def Atomic (p : Prog C R α) (s : σ) : Prop :=
  ∀ t, Point h p s t → obs t = obs s ∨ obs t = obs (p.exec h s).2

variable {h obs}

lemma silent_pure (a : α) (s : σ) : Silent h obs (pure a : Prog C R α) s := by
  rintro t ⟨⟩
  rfl

lemma silent_request {c : C} {s : σ} (hc : obs (h c s).2 = obs s) :
    Silent h obs (request c) s := by
  intro t ht
  rcases ht.of_request with rfl | rfl
  · rfl
  · exact hc

lemma Silent.exec {p : Prog C R α} {s : σ} (hp : Silent h obs p s) :
    obs (p.exec h s).2 = obs s := hp _ (.exec p s)

lemma Silent.bind {p : Prog C R α} {f : α → Prog C R β} {s : σ} (hp : Silent h obs p s)
    (hf : Silent h obs (f (p.exec h s).1) (p.exec h s).2) : Silent h obs (p >>= f) s := by
  intro t ht
  rcases ht.of_bind with ht | ht
  · exact hp t ht
  · exact (hf t ht).trans hp.exec

/-- Behind a silent program the points are those of the rest. -/
lemma Silent.of_bind {p : Prog C R α} {f : α → Prog C R β} {s t : σ} (hp : Silent h obs p s)
    (ht : Point h (p >>= f) s t) :
    obs t = obs s ∨ Point h (f (p.exec h s).1) (p.exec h s).2 t :=
  ht.of_bind.imp_left (hp t)

/-- In front of a silent program the points are those of the first part. -/
lemma Point.of_bind_silent {p : Prog C R α} {f : α → Prog C R β} {s t : σ}
    (hf : ∀ a s, Silent h obs (f a) s) (ht : Point h (p >>= f) s t) :
    ∃ t', Point h p s t' ∧ obs t = obs t' := by
  rcases ht.of_bind with ht | ht
  · exact ⟨t, ht, rfl⟩
  · exact ⟨_, .exec p s, hf _ _ t ht⟩

/-- What an observation determines is not observed either. -/
lemma Silent.coarser {ρ : Type} {obs' : σ → ρ} {p : Prog C R α} {s : σ} (hp : Silent h obs p s)
    (hobs : ∀ t, obs t = obs s → obs' t = obs' s) : Silent h obs' p s := fun t ht =>
  hobs t (hp t ht)

lemma Silent.atomic {p : Prog C R α} {s : σ} (hp : Silent h obs p s) : Atomic h obs p s :=
  fun t ht => Or.inl (hp t ht)

/-- A call that is observed. -/
lemma atomic_request (c : C) (s : σ) : Atomic h obs (request c) s := by
  intro t ht
  rcases ht.of_request with rfl | rfl
  · exact Or.inl rfl
  · exact Or.inr rfl

/-- **A silent program before an atomic one.** -/
lemma Silent.bind_atomic {p : Prog C R α} {f : α → Prog C R β} {s : σ} (hp : Silent h obs p s)
    (hf : Atomic h obs (f (p.exec h s).1) (p.exec h s).2) : Atomic h obs (p >>= f) s := by
  intro t ht
  rw [exec_bind]
  rcases ht.of_bind with ht | ht
  · exact Or.inl (hp t ht)
  · exact (hf t ht).imp_left fun e => e.trans hp.exec

/-- **A silent program behind an atomic one.** -/
lemma Atomic.bind_silent {p : Prog C R α} {f : α → Prog C R β} {s : σ} (hp : Atomic h obs p s)
    (hf : Silent h obs (f (p.exec h s).1) (p.exec h s).2) : Atomic h obs (p >>= f) s := by
  intro t ht
  rw [exec_bind, hf.exec]
  rcases ht.of_bind with ht | ht
  · exact hp t ht
  · exact Or.inr (hf t ht)

end Points

/-! ### Interruptions inside a call -/

/-- **A run that is broken off** in a state, between two calls or inside the call that is given. -/
inductive Broken (h : Service C R σ) : Prog C R α → σ → σ → Option C → Prop
  | between (p : Prog C R α) (s : σ) : Broken h p s s none
  | inside (c : C) (k : R c → Prog C R α) (s : σ) : Broken h (call c k) s s (some c)
  | later {c : C} {k : R c → Prog C R α} {s t : σ} {o : Option C}
      (ht : Broken h (k (h c s).1) (h c s).2 t o) : Broken h (call c k) s t o

section Broken

variable {h : Service C R σ} {g : Service C R τ} {P : C → Prop}

lemma Broken.point {p : Prog C R α} {s t : σ} {o : Option C} (ht : Broken h p s t o) :
    Point h p s t := by
  induction ht with
  | between p s => exact .here _ _
  | inside c k s => exact .here _ _
  | later _ ih => exact .later ih

/-- The state behind the call is one in which the run can be interrupted too. -/
lemma Broken.next {p : Prog C R α} {s t : σ} {c : C} (ht : Broken h p s t (some c)) :
    Point h p s (h c t).2 := by
  generalize ho : some c = o at ht
  induction ht with
  | between p s => simp at ho
  | inside c' k s =>
    obtain rfl := Option.some.inj ho
    exact .later (.here _ _)
  | later _ ih => exact .later (ih ho)

/-- The call that comes behind `n` calls. -/
def nextCall (h : Service C R σ) : ℕ → Prog C R α → σ → Option C
  | 0, call c _, _ => some c
  | n + 1, call c k, s => nextCall h n (k (h c s).1) (h c s).2
  | _, ret _, _ => none

lemma Broken.after (n : ℕ) (p : Prog C R α) (s : σ) :
    Broken h p s (p.after h n s) (p.nextCall h n s) := by
  induction n generalizing p s with
  | zero =>
    cases p with
    | ret a => exact .between _ _
    | call c k => exact .inside _ _ _
  | succ n ih =>
    cases p with
    | ret a => exact .between _ _
    | call c k => exact .later (ih _ _)

/-- The result of a program does not matter. -/
lemma broken_calls {p : Prog C R α} {s t : σ} {o : Option C} :
    Broken h p.calls s t o ↔ Broken h p s t o := by
  induction p generalizing s with
  | ret a =>
    constructor
    · rintro ⟨⟩
      exact .between _ _
    · rintro ⟨⟩
      exact .between _ _
  | call c k ih =>
    constructor
    · intro ht
      cases ht with
      | between => exact .between _ _
      | inside => exact .inside _ _ _
      | later ht => exact .later (ih _ |>.mp ht)
    · intro ht
      cases ht with
      | between => exact .between _ _
      | inside => exact .inside _ _ _
      | later ht => exact .later (ih _ |>.mpr ht)

section Simulation

variable {I : σ → τ → Prop} (hstate : ∀ c s u, I s u → I (h c s).2 (g c u).2)
  (hanswer : ∀ c s u, ¬ P c → I s u → (h c s).1 = (g c u).1)

include hstate hanswer

/-- **A simulation between two services** that answer only the calls of the kind differently: the
programs that do not listen to these answers leave related states. -/
lemma Deaf.simulates {p : Prog C R α} (hp : p.Deaf P) {s : σ} {u : τ} (hI : I s u) :
    I (p.exec h s).2 (p.exec g u).2 := by
  induction p generalizing s u with
  | ret a => exact hI
  | call c k ih =>
    have hrest := ih (h c s).1 (hp.1 _) (hstate c s u hI)
    by_cases hc : P c
    · have hsame := exec_calls g (k (h c s).1) (g c u).2
      rw [hp.2 hc (h c s).1 (g c u).1, exec_calls] at hsame
      rw [← hsame] at hrest
      exact hrest
    · rw [hanswer c s u hc hI] at hrest
      simpa only [Prog.exec, hanswer c s u hc hI] using hrest

/-- **They can be broken off** at related states. -/
lemma Deaf.simulates_broken {p : Prog C R α} (hp : p.Deaf P) {s t : σ} {u : τ} {o : Option C}
    (hI : I s u) (ht : Broken h p s t o) : ∃ v, Broken g p u v o ∧ I t v := by
  induction ht generalizing u with
  | between p s => exact ⟨u, .between _ _, hI⟩
  | inside c k s => exact ⟨u, .inside _ _ _, hI⟩
  | @later c k s t o _ ih =>
    obtain ⟨v, hv, hIv⟩ := ih (hp.1 _) (hstate c s u hI)
    refine ⟨v, .later ?_, hIv⟩
    by_cases hc : P c
    · rw [← broken_calls, ← hp.2 hc (h c s).1 (g c u).1, broken_calls]
      exact hv
    · rwa [hanswer c s u hc hI] at hv

end Simulation

end Broken

/-! ### Two programs at once -/

/-- **Two programs on one service, in any order of their calls**: the calls that are made, the two
results and the state that is left. -/
inductive Interleaved (h : Service C R σ) :
    Prog C R α → Prog C R β → σ → List (C ⊕ C) → α → β → σ → Prop
  | done (a : α) (b : β) (s : σ) : Interleaved h (ret a) (ret b) s [] a b s
  | left {c : C} {k : R c → Prog C R α} {q : Prog C R β} {s t : σ} {l : List (C ⊕ C)} {a : α} {b : β}
      (hrest : Interleaved h (k (h c s).1) q (h c s).2 l a b t) :
      Interleaved h (call c k) q s (.inl c :: l) a b t
  | right {c : C} {k : R c → Prog C R β} {p : Prog C R α} {s t : σ} {l : List (C ⊕ C)} {a : α} {b : β}
      (hrest : Interleaved h p (k (h c s).1) (h c s).2 l a b t) :
      Interleaved h p (call c k) s (.inr c :: l) a b t

/-- The interleaving that takes its calls from the first program where the schedule says `true`. -/
def interleave (h : Service C R σ) :
    List Bool → Prog C R α → Prog C R β → σ → Option (List (C ⊕ C) × α × β × σ)
  | _, ret a, ret b, s => some ([], a, b, s)
  | true :: turns, call c k, q, s =>
    (interleave h turns (k (h c s).1) q (h c s).2).map fun r => (.inl c :: r.1, r.2)
  | false :: turns, p, call c k, s =>
    (interleave h turns p (k (h c s).1) (h c s).2).map fun r => (.inr c :: r.1, r.2)
  | _, _, _, _ => none

lemma interleaved_of_interleave {h : Service C R σ} {turns : List Bool} {p : Prog C R α}
    {q : Prog C R β} {s : σ} {r : List (C ⊕ C) × α × β × σ}
    (hr : interleave h turns p q s = some r) : Interleaved h p q s r.1 r.2.1 r.2.2.1 r.2.2.2 := by
  fun_induction interleave h turns p q s generalizing r with
  | case1 turns a b s =>
    cases hr
    exact .done a b s
  | case2 turns c k q s ih =>
    obtain ⟨r', hr', rfl⟩ := Option.map_eq_some_iff.mp hr
    exact .left (ih hr')
  | case3 turns p c k s ih =>
    obtain ⟨r', hr', rfl⟩ := Option.map_eq_some_iff.mp hr
    exact .right (ih hr')
  | case4 => cases hr

/-- **What each call of either program keeps holds at the end.** The invariant may speak of the calls
made so far. -/
lemma Interleaved.invariant {h : Service C R σ}
    {I : Prog C R α → Prog C R β → σ → List (C ⊕ C) → Prop}
    (hleft : ∀ c k q s l, I (call c k) q s l → I (k (h c s).1) q (h c s).2 (l ++ [.inl c]))
    (hright : ∀ c k p s l, I p (call c k) s l → I p (k (h c s).1) (h c s).2 (l ++ [.inr c]))
    {p : Prog C R α} {q : Prog C R β} {s t : σ} {l : List (C ⊕ C)} {a : α} {b : β}
    (hrun : Interleaved h p q s l a b t) {past : List (C ⊕ C)} (hI : I p q s past) :
    I (ret a) (ret b) t (past ++ l) := by
  induction hrun generalizing past with
  | done => simpa using hI
  | left _ ih => simpa using ih (hleft _ _ _ _ _ hI)
  | right _ ih => simpa using ih (hright _ _ _ _ _ hI)

end Prog

/-! ### Orders of events -/

section Before

variable {E : Type} {P Q : E → Prop}

/-- An event of the first kind stands in front of one of the second kind. -/
def Before (P Q : E → Prop) (l : List E) : Prop := ∃ e f, [e, f].Sublist l ∧ P e ∧ Q f

@[simp] lemma not_before_nil : ¬ Before P Q [] := by
  rintro ⟨e, f, h, -⟩
  exact absurd (List.sublist_nil.mp h) (by simp)

/-- A new event at the end. -/
lemma before_concat (l : List E) (f : E) :
    Before P Q (l ++ [f]) ↔ Before P Q l ∨ (∃ e ∈ l, P e) ∧ Q f := by
  constructor
  · rintro ⟨e, g, h, he, hg⟩
    obtain ⟨l₁, l₂, heq, h₁, h₂⟩ := List.sublist_append_iff.mp h
    rcases List.sublist_singleton.mp h₂ with rfl | rfl
    · rw [List.append_nil] at heq
      exact Or.inl ⟨e, g, heq ▸ h₁, he, hg⟩
    · obtain ⟨rfl, rfl⟩ : l₁ = [e] ∧ f = g := by
        cases l₁ with
        | nil => simp at heq
        | cons x l₁ =>
          cases l₁ with
          | nil => simpa [eq_comm] using heq
          | cons y l₁ => simp at heq
      exact Or.inr ⟨⟨e, List.singleton_sublist.mp h₁, he⟩, hg⟩
  · rintro (⟨e, g, h, he, hg⟩ | ⟨⟨e, hmem, he⟩, hf⟩)
    · exact ⟨e, g, h.trans (List.sublist_append_left _ _), he, hg⟩
    · exact ⟨e, f, (List.singleton_sublist.mpr hmem).append (List.Sublist.refl [f]), he, hf⟩

end Before

end VeriStore.Lib

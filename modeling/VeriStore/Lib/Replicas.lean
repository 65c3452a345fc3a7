import VeriStore.Lib.Ballots

/-!
Replicated logs under elected leaders.

A leader appends entries of its own term to its log; the other participants take over prefixes of
the leader's log and acknowledge them. A candidate gets the vote of participants whose log is not
more up to date than its own. A participant never gives up entries that its new prefix does not
contradict (`Keeps`).

The log of the leader of a term is kept as `leaderLog`, also when the leader has moved on, and
`first` is the log it started with. Two facts carry the argument: every log that holds an entry of
a term agrees up to it with the log of the leader of this term (`Coherent`), and a participant
still holds what it has acknowledged as long as the later leaders hold it (`Inv.ack_log`).

* `Replicas.Step.inv` — the steps keep the invariant;
* `Replicas.Inv.leader_complete` — what a quorum has acknowledged in a term is in the log of every
  later leader;
* `Replicas.Settled.agree` — two lists of chosen entries agree as far as both go.
-/

namespace VeriStore.Lib

/-- The votes, the logs, the candidacies with the log at the time, the logs of the leaders of the
terms and the acknowledged lengths. -/
structure Replicas (ι α : Type) where
  ballots : Ballots ι (List α)
  log : ι → List α
  standing : Set (ι × ℕ × List α)
  first : ℕ → List α
  leaderLog : ℕ → List α
  acks : Set (ι × ℕ × ℕ)

namespace Replicas

variable {ι α : Type} (tm : α → ℕ)

/-- The term of the last entry; zero for the empty log. -/
def lastTm (l : List α) : ℕ := (l.getLast?.map tm).getD 0

/-- The first log is at least as up to date as the second one. -/
def UpToDate (c v : List α) : Prop :=
  lastTm tm v < lastTm tm c ∨ (lastTm tm v = lastTm tm c ∧ v.length ≤ c.length)

/-- Replacing `old` by `new` gives up nothing that `new` does not contradict. -/
def Keeps (old new : List α) : Prop :=
  old.length ≤ new.length ∨ ∃ (k : ℕ) (a b : α), old[k]? = some a ∧ new[k]? = some b ∧ tm a ≠ tm b

def Elected (s : Replicas ι α) (t : ℕ) : Prop := ∃ i, (i, t) ∈ s.ballots.leaders

/-- Wherever the log holds an entry of a term, it agrees up to it with the leader of the term. -/
def Coherent (s : Replicas ι α) (l : List α) : Prop :=
  ∀ k e, l[k]? = some e →
    s.Elected (tm e) ∧ l.take (k + 1) = (s.leaderLog (tm e)).take (k + 1)

/-- The leader of `u` started with the first `k` entries of the leader of `t`. -/
def Carries (s : Replicas ι α) (t k u : ℕ) : Prop := (s.leaderLog t).take k <+: s.first u

/-! ### Steps -/

section Steps

variable [DecidableEq ι]

def init : Replicas ι α where
  ballots := Ballots.init
  log := fun _ => []
  standing := ∅
  first := fun _ => []
  leaderLog := fun _ => []
  acks := ∅

def adopt (s : Replicas ι α) (i : ι) (t : ℕ) : Replicas ι α :=
  { s with ballots := s.ballots.adopt i t }

def stand (s : Replicas ι α) (i : ι) : Replicas ι α :=
  { s with
    ballots := s.ballots.stand i (s.log i)
    standing := insert (i, s.ballots.term i + 1, s.log i) s.standing }

def grant (s : Replicas ι α) (v c : ι) : Replicas ι α :=
  { s with ballots := s.ballots.grant v c (s.log v) }

def win (s : Replicas ι α) (i : ι) : Replicas ι α :=
  { s with
    ballots := s.ballots.win i
    first := Function.update s.first (s.ballots.term i) (s.log i)
    leaderLog := Function.update s.leaderLog (s.ballots.term i) (s.log i) }

def append (s : Replicas ι α) (i : ι) (e : α) : Replicas ι α :=
  { s with
    log := Function.update s.log i (s.log i ++ [e])
    leaderLog := Function.update s.leaderLog (s.ballots.term i) (s.log i ++ [e]) }

/-- The participant `v` takes over `m` entries of the leader of its term. -/
def accept (s : Replicas ι α) (v : ι) (m : ℕ) : Replicas ι α :=
  { s with
    log := Function.update s.log v ((s.leaderLog (s.ballots.term v)).take m)
    acks := insert (v, s.ballots.term v, m) s.acks }

/-- The participant `v` acknowledges entries it has. -/
def confirm (s : Replicas ι α) (v : ι) (m : ℕ) : Replicas ι α :=
  { s with acks := insert (v, s.ballots.term v, m) s.acks }

/-- **The steps of a replication.** -/
inductive Step [Fintype ι] : Replicas ι α → Replicas ι α → Prop
  | adopt (s : Replicas ι α) (i : ι) (t : ℕ) (h : s.ballots.term i < t) : Step s (s.adopt i t)
  | stand (s : Replicas ι α) (i : ι) : Step s (s.stand i)
  | grant (s : Replicas ι α) (v c : ι) (clog : List α)
      (h : s.ballots.votedFor v = none ∨ s.ballots.votedFor v = some c)
      (hc : (c, s.ballots.term v, clog) ∈ s.standing) (hu : UpToDate tm clog (s.log v)) :
      Step s (s.grant v c)
  | win (s : Replicas ι α) (i : ι) (Q : Finset ι) (hQ : Fintype.card ι < 2 * Q.card)
      (h : ∀ v ∈ Q, s.ballots.Voted v (s.ballots.term i) i)
      (hc : (i, s.ballots.term i, s.log i) ∈ s.standing)
      (hn : (i, s.ballots.term i) ∉ s.ballots.leaders) : Step s (s.win i)
  | append (s : Replicas ι α) (i : ι) (e : α) (h : (i, s.ballots.term i) ∈ s.ballots.leaders)
      (he : tm e = s.ballots.term i) : Step s (s.append i e)
  | accept (s : Replicas ι α) (v j : ι) (m : ℕ) (h : (j, s.ballots.term v) ∈ s.ballots.leaders)
      (hj : j ≠ v) (hm : m ≤ (s.leaderLog (s.ballots.term v)).length)
      (hk : Keeps tm (s.log v) ((s.leaderLog (s.ballots.term v)).take m)) : Step s (s.accept v m)
  | confirm (s : Replicas ι α) (v : ι) (m : ℕ) (h : s.Elected (s.ballots.term v))
      (hm : m ≤ (s.leaderLog (s.ballots.term v)).length)
      (hl : (s.log v).take m = (s.leaderLog (s.ballots.term v)).take m) : Step s (s.confirm v m)

end Steps

/-! ### The invariant -/

/-- **What `v` acknowledged before the term behind `b` is in the log `l`**, as long as the leaders
up to the term `b` started with it. -/
def Holds (s : Replicas ι α) (v : ι) (b : ℕ) (l : List α) : Prop :=
  ∀ t m k, (v, t, m) ∈ s.acks → t ≤ b → k ≤ m →
    (∀ u, s.Elected u → t < u → u ≤ b → s.Carries t k u) → (s.leaderLog t).take k <+: l

/-- The invariant of a replication. -/
structure Inv [Fintype ι] (s : Replicas ι α) : Prop where
  fair : s.ballots.Fair
  led_le : ∀ i t, (i, t) ∈ s.ballots.leaders → t ≤ s.ballots.term i
  led_log : ∀ i t, (i, t) ∈ s.ballots.leaders → s.ballots.term i = t → s.log i = s.leaderLog t
  first_le : ∀ t, s.Elected t → s.first t <+: s.leaderLog t
  first_lt : ∀ t, s.Elected t → ∀ e ∈ s.first t, tm e < t
  leader_le : ∀ t, s.Elected t → ∀ e ∈ s.leaderLog t, tm e ≤ t
  leader_coherent : ∀ t, s.Elected t → s.Coherent tm (s.leaderLog t)
  log_le : ∀ i, ∀ e ∈ s.log i, tm e ≤ s.ballots.term i
  log_coherent : ∀ i, s.Coherent tm (s.log i)
  standing_le : ∀ c t l, (c, t, l) ∈ s.standing → 0 < t ∧ t ≤ s.ballots.term c
  standing_unique : ∀ c t l l', (c, t, l) ∈ s.standing → (c, t, l') ∈ s.standing → l = l'
  standing_lt : ∀ c t l, (c, t, l) ∈ s.standing → ∀ e ∈ l, tm e < t
  vote_coherent : ∀ v t c l, (v, t, c, l) ∈ s.ballots.votes → s.Coherent tm l
  vote_upToDate : ∀ v t c l, (v, t, c, l) ∈ s.ballots.votes →
    ∃ clog, (c, t, clog) ∈ s.standing ∧ UpToDate tm clog l
  /-- what a voter has acknowledged is in its log when it votes, unless the term is won already -/
  vote_holds : ∀ v t c l, (v, t, c, l) ∈ s.ballots.votes → ¬ s.Elected t → s.Holds v (t - 1) l
  ack_le : ∀ v t m, (v, t, m) ∈ s.acks →
    t ≤ s.ballots.term v ∧ s.Elected t ∧ m ≤ (s.leaderLog t).length
  ack_log : ∀ v, s.Holds v (s.ballots.term v) (s.log v)
  /-- the voters that made a leader -/
  won : ∀ t, s.Elected t → 0 < t ∧ ∃ Q : Finset ι, Fintype.card ι < 2 * Q.card ∧
    ∀ v ∈ Q, ∃ l, s.Coherent tm l ∧ UpToDate tm (s.first t) l ∧ s.Holds v (t - 1) l ∧
      t ≤ s.ballots.term v

variable {tm}

/-! ### Coherent logs -/

section Coherent

variable {s : Replicas ι α} {l : List α}

lemma Coherent.of_isPrefix {l' : List α} (h : s.Coherent tm l') (hp : l <+: l') :
    s.Coherent tm l := by
  intro k e hk
  have hlt : k < l.length := (List.getElem?_eq_some_iff.mp hk).1
  have hk' : l'[k]? = some e := by
    obtain ⟨u, rfl⟩ := hp
    rw [List.getElem?_append_left hlt]
    exact hk
  obtain ⟨he, ht⟩ := h k e hk'
  refine ⟨he, ?_⟩
  rw [← ht]
  obtain ⟨u, rfl⟩ := hp
  rw [List.take_append_of_le_length (by omega)]

/-- A coherent log is a prefix of the log of the leader of its last entry. -/
lemma Coherent.eq_take (h : s.Coherent tm l) (hne : l ≠ []) :
    s.Elected (lastTm tm l) ∧ l = (s.leaderLog (lastTm tm l)).take l.length := by
  have hpos : 0 < l.length := List.length_pos_iff.mpr hne
  have hlast : l[l.length - 1]? = some (l.getLast hne) := by
    rw [List.getElem?_eq_getElem (by omega), List.getLast_eq_getElem]
  have hterm : lastTm tm l = tm (l.getLast hne) := by
    simp [lastTm, List.getLast?_eq_getLast_of_ne_nil hne]
  obtain ⟨he, ht⟩ := h _ _ hlast
  rw [Nat.sub_add_cancel hpos, List.take_length] at ht
  rw [hterm]
  exact ⟨he, ht⟩

/-- No entry is of a later term than the last one. -/
lemma Coherent.le_lastTm [Fintype ι] (h : s.Coherent tm l) (hi : s.Inv tm) {e : α} (he : e ∈ l) :
    tm e ≤ lastTm tm l := by
  obtain ⟨hel, hl⟩ := h.eq_take (List.ne_nil_of_mem he)
  rw [hl] at he
  exact hi.leader_le _ hel e (List.mem_of_mem_take he)

end Coherent

/-! ### Leader completeness -/

/-- **An entry is chosen**: the leader of the term `t` has it at position `k - 1`, it is of the
term `t`, and a quorum has acknowledged it. -/
def Chosen [Fintype ι] (tm : α → ℕ) (s : Replicas ι α) (t k : ℕ) : Prop :=
  s.Elected t ∧ (∃ e, (s.leaderLog t)[k - 1]? = some e ∧ tm e = t) ∧ 0 < k ∧
    ∃ Q : Finset ι, Fintype.card ι ≤ 2 * Q.card ∧ ∀ v ∈ Q, ∃ m, k ≤ m ∧ (v, t, m) ∈ s.acks

/-- **Every later leader started with what was chosen.** -/
theorem Inv.leader_complete [DecidableEq ι] [Fintype ι] {s : Replicas ι α} (h : s.Inv tm) {t k : ℕ}
    (hc : s.Chosen tm t k) {u : ℕ} (hu : s.Elected u) (htu : t < u) : s.Carries t k u := by
  obtain ⟨-, ⟨e, he, het⟩, hk, P, hP, hack⟩ := hc
  -- on the term of the later leader: the leaders in between have the entries
  induction u using Nat.strong_induction_on with
  | _ u ih =>
    obtain ⟨-, Q, hQ, hwon⟩ := h.won u hu
    obtain ⟨v, hvP, hvQ⟩ := exists_mem_both (P := P) (Q := Q) (by omega)
    obtain ⟨m, hkm, hm⟩ := hack v hvP
    obtain ⟨l, hcoh, hup, hholds, -⟩ := hwon v hvQ
    have hpl : (s.leaderLog t).take k <+: l :=
      hholds t m k hm (by omega) hkm fun w hw htw hwu => ih w (by omega) hw htw
    -- so the last entry of the voter is of the term `t` or a later one
    have hel : e ∈ l := by
      refine hpl.subset (List.mem_of_getElem? (i := k - 1) ?_)
      rw [List.getElem?_take_of_lt (by omega)]
      exact he
    have hle : t ≤ lastTm tm l := het ▸ hcoh.le_lastTm h hel
    have hlne : l ≠ [] := List.ne_nil_of_mem hel
    have hfirst : s.Coherent tm (s.first u) := (h.leader_coherent u hu).of_isPrefix (h.first_le u hu)
    have ht0 : 0 < t := by
      obtain ⟨-, hel', -⟩ := h.ack_le v t m hm
      exact (h.won t hel').1
    have hfne : s.first u ≠ [] := by
      intro hnil
      rw [hnil] at hup
      rcases hup with hup | ⟨hup, -⟩
      · simp [lastTm] at hup
      · simp only [lastTm, List.getLast?_nil, Option.map_none, Option.getD_none] at hup hle
        omega
    obtain ⟨hw, hfu⟩ := hfirst.eq_take hfne
    rcases hup with hup | ⟨hup, hlen⟩
    · -- the candidate's last entry is of a later term, whose leader started with the entries
      have hlast : lastTm tm (s.first u) < u := by
        have hmem := List.getLast_mem hfne
        have := h.first_lt u hu _ hmem
        simpa [lastTm, List.getLast?_eq_getLast_of_ne_nil hfne] using this
      have hcar := ih _ hlast hw (by omega)
      have hpre : s.first u <+: s.leaderLog (lastTm tm (s.first u)) := by
        conv_lhs => rw [hfu]
        exact List.take_prefix _ _
      refine hcar.trans (List.prefix_of_prefix_length_le (h.first_le _ hw) hpre ?_)
      by_contra hlt
      -- else its last entry would be one the leader of that term started with
      have hin : s.first u <+: s.first (lastTm tm (s.first u)) :=
        List.prefix_of_prefix_length_le hpre (h.first_le _ hw) (by omega)
      have := h.first_lt _ hw _ (hin.subset (List.getLast_mem hfne))
      simp [lastTm, List.getLast?_eq_getLast_of_ne_nil hfne] at this
    · refine hpl.trans ?_
      obtain ⟨-, hlv⟩ := hcoh.eq_take hlne
      rw [hlv, hfu, hup]
      exact List.take_prefix_take_left hlen

/-! ### Growing states -/

/-- The leaders and their logs in `s` are still there in `s'`. -/
structure Extends (s s' : Replicas ι α) : Prop where
  elected : ∀ t, s.Elected t → s'.Elected t
  leaderLog : ∀ t, s.Elected t → s.leaderLog t <+: s'.leaderLog t
  first : ∀ t, s.Elected t → s'.first t = s.first t

section Extends

variable {s s' : Replicas ι α} {l : List α} {v : ι} {b : ℕ}

lemma Extends.of_eq (h1 : s'.ballots.leaders = s.ballots.leaders) (h2 : s'.leaderLog = s.leaderLog)
    (h3 : s'.first = s.first) : Extends s s' := by
  refine ⟨fun t ⟨i, hi⟩ => ⟨i, h1 ▸ hi⟩, fun t _ => ?_, fun t _ => by rw [h3]⟩
  rw [h2]

lemma Extends.take_eq (h : Extends s s') {t k : ℕ} (ht : s.Elected t)
    (hk : k ≤ (s.leaderLog t).length) : (s'.leaderLog t).take k = (s.leaderLog t).take k := by
  obtain ⟨u, hu⟩ := h.leaderLog t ht
  rw [← hu, List.take_append_of_le_length hk]

lemma Extends.coherent (h : Extends s s') (hl : s.Coherent tm l) : s'.Coherent tm l := by
  intro k e hk
  obtain ⟨he, ht⟩ := hl k e hk
  refine ⟨h.elected _ he, ?_⟩
  have hlt : k < l.length := (List.getElem?_eq_some_iff.mp hk).1
  have hlen := congrArg List.length ht
  simp only [List.length_take] at hlen
  rw [h.take_eq he (by omega)]
  exact ht

/-- What is held in a state is held in a later one with the same old acknowledgements. -/
lemma Extends.holds [Fintype ι] (h : Extends s s') (hi : s.Inv tm)
    (hacks : ∀ t m, (v, t, m) ∈ s'.acks → t ≤ b → (v, t, m) ∈ s.acks) (hl : s.Holds v b l) :
    s'.Holds v b l := by
  intro t m k hm htb hkm hcar
  have hm' := hacks t m hm htb
  obtain ⟨-, he, hlen⟩ := hi.ack_le v t m hm'
  rw [h.take_eq he (by omega)]
  refine hl t m k hm' htb hkm fun u hu htu hub => ?_
  have := hcar u (h.elected u hu) htu hub
  unfold Carries at this ⊢
  rwa [h.take_eq he (by omega), h.first u hu] at this

/-- A later bound asks for more leaders. -/
lemma Holds.mono (hl : s.Holds v b l) {b' : ℕ} (hb : b ≤ b')
    (hacks : ∀ t m, (v, t, m) ∈ s.acks → t ≤ b) : s.Holds v b' l :=
  fun t m k hm _ hkm hcar =>
    hl t m k hm (hacks t m hm) hkm fun u hu htu hub => hcar u hu htu (hub.trans hb)

lemma Holds.of_isPrefix (hl : s.Holds v b l) {l' : List α} (hp : l <+: l') : s.Holds v b l' :=
  fun t m k hm htb hkm hcar => (hl t m k hm htb hkm hcar).trans hp

/-- A bound that nobody has won can be taken down by one. -/
lemma Holds.pred (hl : s.Holds v b l) (hb : ¬ s.Elected b) : s.Holds v (b - 1) l := by
  intro t m k hm htb hkm hcar
  refine hl t m k hm (by omega) hkm fun u hu htu hub => hcar u hu htu ?_
  have : u ≠ b := fun h => hb (h ▸ hu)
  omega

end Extends

/-- Keeping what is not contradicted keeps every common prefix. -/
lemma Keeps.isPrefix {old new p : List α} (h : Keeps tm old new) {full : List α} (hn : new <+: full)
    (h1 : p <+: old) (h2 : p <+: full) : p <+: new := by
  refine List.prefix_of_prefix_length_le h2 hn ?_
  rcases h with h | ⟨k, a, b, ha, hb, hab⟩
  · exact h1.length_le.trans h
  · have hkn : k < new.length := (List.getElem?_eq_some_iff.mp hb).1
    by_contra hlt
    have hkp : k < p.length := by omega
    have hx : p[k]? = some p[k] := List.getElem?_eq_getElem hkp
    have e1 : old[k]? = some p[k] := by
      obtain ⟨u, rfl⟩ := h1
      rwa [List.getElem?_append_left hkp]
    have e2 : new[k]? = some p[k] := by
      obtain ⟨u, rfl⟩ := h2
      obtain ⟨w, hw⟩ := hn
      have hfull : (new ++ w)[k]? = some p[k] := by
        rw [hw, List.getElem?_append_left hkp]
        exact hx
      rwa [List.getElem?_append_left hkn] at hfull
    rw [ha] at e1
    rw [hb] at e2
    exact hab (by rw [Option.some.inj e1, Option.some.inj e2])

/-! ### The steps keep the invariant -/

section Invariant

variable [DecidableEq ι] [Fintype ι] {s s' : Replicas ι α}

omit [DecidableEq ι] in
/-- The bound on the acknowledged terms. -/
lemma Inv.ack_term (h : s.Inv tm) (v : ι) : ∀ t m, (v, t, m) ∈ s.acks → t ≤ s.ballots.term v :=
  fun t m hm => (h.ack_le v t m hm).1

omit [DecidableEq ι] in
lemma Inv.vote_pos (h : s.Inv tm) {v : ι} {t : ℕ} {c : ι} {l : List α}
    (hv : (v, t, c, l) ∈ s.ballots.votes) : 0 < t := by
  obtain ⟨clog, hc, -⟩ := h.vote_upToDate v t c l hv
  exact (h.standing_le c t clog hc).1

omit [Fintype ι] in
lemma update_term_le (f : ι → ℕ) (i : ι) {t : ℕ} (h : f i ≤ t) (j : ι) :
    f j ≤ Function.update f i t j := by
  by_cases hj : j = i
  · subst hj
    simpa using h
  · simp [hj]

lemma Inv.adopt (h : s.Inv tm) {i : ι} {t : ℕ} (ht : s.ballots.term i < t) :
    (s.adopt i t).Inv tm := by
  have hext : Extends s (s.adopt i t) := .of_eq rfl rfl rfl
  have hle : ∀ j, s.ballots.term j ≤ (s.adopt i t).ballots.term j :=
    update_term_le s.ballots.term i ht.le
  refine { h with
    fair := h.fair.adopt ht
    led_le := fun j u hj => (h.led_le j u hj).trans (hle j)
    led_log := fun j u hj hu => ?_
    log_le := fun j e he => (h.log_le j e he).trans (hle j)
    standing_le := fun c u l hc => ⟨(h.standing_le c u l hc).1, (h.standing_le c u l hc).2.trans (hle c)⟩
    ack_le := fun v u m hm => ⟨(h.ack_term v u m hm).trans (hle v), (h.ack_le v u m hm).2⟩
    ack_log := fun v => (h.ack_log v).mono (hle v) (h.ack_term v)
    won := fun u hu => ?_ }
  · by_cases hji : j = i
    · subst hji
      have := h.led_le j u hj
      simp only [Replicas.adopt, Ballots.adopt, Function.update_self] at hu
      omega
    · refine h.led_log j u hj ?_
      simpa [Replicas.adopt, Ballots.adopt, hji] using hu
  · obtain ⟨hpos, Q, hQ, hv⟩ := h.won u hu
    refine ⟨hpos, Q, hQ, fun v hvQ => ?_⟩
    obtain ⟨l, h1, h2, h3, h4⟩ := hv v hvQ
    exact ⟨l, h1, h2, h3, h4.trans (hle v)⟩

lemma Inv.stand (h : s.Inv tm) (i : ι) : (s.stand i).Inv tm := by
  have hle : ∀ j, s.ballots.term j ≤ (s.stand i).ballots.term j :=
    update_term_le s.ballots.term i (Nat.le_succ _)
  have hterm : (s.stand i).ballots.term i = s.ballots.term i + 1 := by
    simp [Replicas.stand, Ballots.stand]
  refine { h with
    fair := h.fair.stand i (s.log i)
    led_le := fun j u hj => (h.led_le j u hj).trans (hle j)
    led_log := fun j u hj hu => ?_
    log_le := fun j e he => (h.log_le j e he).trans (hle j)
    standing_le := ?_
    standing_unique := ?_
    standing_lt := ?_
    vote_coherent := ?_
    vote_upToDate := ?_
    vote_holds := ?_
    ack_le := fun v u m hm => ⟨(h.ack_term v u m hm).trans (hle v), (h.ack_le v u m hm).2⟩
    ack_log := fun v => (h.ack_log v).mono (hle v) (h.ack_term v)
    won := fun u hu => ?_ }
  · by_cases hji : j = i
    · subst hji
      have := h.led_le j u hj
      omega
    · refine h.led_log j u hj ?_
      simpa [Replicas.stand, Ballots.stand, hji] using hu
  · rintro c u l (hc | hc)
    · simp only [Prod.mk.injEq] at hc
      obtain ⟨rfl, rfl, rfl⟩ := hc
      exact ⟨Nat.succ_pos _, hterm.ge⟩
    · exact ⟨(h.standing_le c u l hc).1, (h.standing_le c u l hc).2.trans (hle c)⟩
  · -- the candidacies so far are of earlier terms
    have hold : ∀ l, (i, s.ballots.term i + 1, l) ∉ s.standing := fun l hl => by
      have := (h.standing_le _ _ _ hl).2
      omega
    rintro c u l l' (hc | hc) (hc' | hc')
    · simp only [Prod.mk.injEq] at hc hc'
      rw [hc.2.2, hc'.2.2]
    · simp only [Prod.mk.injEq] at hc
      obtain ⟨rfl, rfl, rfl⟩ := hc
      exact absurd hc' (hold l')
    · simp only [Prod.mk.injEq] at hc'
      obtain ⟨rfl, rfl, rfl⟩ := hc'
      exact absurd hc (hold l)
    · exact h.standing_unique c u l l' hc hc'
  · rintro c u l (hc | hc) e he
    · simp only [Prod.mk.injEq] at hc
      obtain ⟨rfl, rfl, rfl⟩ := hc
      have := h.log_le c e he
      omega
    · exact h.standing_lt c u l hc e he
  · rintro v u c l (hv | hv)
    · simp only [Prod.mk.injEq] at hv
      obtain ⟨rfl, -, -, rfl⟩ := hv
      exact h.log_coherent v
    · exact h.vote_coherent v u c l hv
  · rintro v u c l (hv | hv)
    · simp only [Prod.mk.injEq] at hv
      obtain ⟨rfl, rfl, rfl, rfl⟩ := hv
      exact ⟨_, Set.mem_insert _ _, Or.inr ⟨rfl, le_rfl⟩⟩
    · obtain ⟨clog, hc, hu⟩ := h.vote_upToDate v u c l hv
      exact ⟨clog, Set.mem_insert_of_mem _ hc, hu⟩
  · rintro v u c l (hv | hv) hu
    · simp only [Prod.mk.injEq] at hv
      obtain ⟨rfl, rfl, -, rfl⟩ := hv
      exact h.ack_log v
    · exact h.vote_holds v u c l hv hu
  · obtain ⟨hpos, Q, hQ, hv⟩ := h.won u hu
    refine ⟨hpos, Q, hQ, fun v hvQ => ?_⟩
    obtain ⟨l, h1, h2, h3, h4⟩ := hv v hvQ
    exact ⟨l, h1, h2, h3, h4.trans (hle v)⟩

lemma Inv.grant (h : s.Inv tm) {v c : ι} {clog : List α}
    (hv : s.ballots.votedFor v = none ∨ s.ballots.votedFor v = some c)
    (hc : (c, s.ballots.term v, clog) ∈ s.standing) (hu : UpToDate tm clog (s.log v)) :
    (s.grant v c).Inv tm := by
  refine { h with
    fair := h.fair.grant (s.log v) hv
    vote_coherent := ?_
    vote_upToDate := ?_
    vote_holds := ?_ }
  · rintro w u d l (hw | hw)
    · simp only [Prod.mk.injEq] at hw
      obtain ⟨rfl, -, -, rfl⟩ := hw
      exact h.log_coherent w
    · exact h.vote_coherent w u d l hw
  · rintro w u d l (hw | hw)
    · simp only [Prod.mk.injEq] at hw
      obtain ⟨rfl, rfl, rfl, rfl⟩ := hw
      exact ⟨clog, hc, hu⟩
    · exact h.vote_upToDate w u d l hw
  · rintro w u d l (hw | hw) hel
    · simp only [Prod.mk.injEq] at hw
      obtain ⟨rfl, rfl, -, rfl⟩ := hw
      exact (h.ack_log w).pred hel
    · exact h.vote_holds w u d l hw hel

/-- A term is won once. -/
lemma Inv.not_elected (h : s.Inv tm) {i : ι} {Q : Finset ι} (hQ : Fintype.card ι < 2 * Q.card)
    (hv : ∀ v ∈ Q, s.ballots.Voted v (s.ballots.term i) i)
    (hn : (i, s.ballots.term i) ∉ s.ballots.leaders) : ¬ s.Elected (s.ballots.term i) := by
  rintro ⟨j, hj⟩
  have hij := (h.fair.win hQ hv).leader_unique (Set.mem_insert _ _) (Set.mem_insert_of_mem _ hj)
  subst hij
  exact hn hj

lemma Inv.win (h : s.Inv tm) {i : ι} {Q : Finset ι} (hQ : Fintype.card ι < 2 * Q.card)
    (hv : ∀ v ∈ Q, s.ballots.Voted v (s.ballots.term i) i)
    (hc : (i, s.ballots.term i, s.log i) ∈ s.standing)
    (hn : (i, s.ballots.term i) ∉ s.ballots.leaders) : (s.win i).Inv tm := by
  have hnew := h.not_elected hQ hv hn
  have hne : ∀ u, s.Elected u → u ≠ s.ballots.term i := fun u hu he => hnew (he ▸ hu)
  have hext : Extends s (s.win i) := by
    refine ⟨fun u ⟨j, hj⟩ => ⟨j, Set.mem_insert_of_mem _ hj⟩, fun u hu => ?_, fun u hu => ?_⟩
    · simp [Replicas.win, hne u hu]
    · simp [Replicas.win, hne u hu]
  -- an elected term is the new one or an old one with its old logs
  have hcases : ∀ u, (s.win i).Elected u → (u = s.ballots.term i ∧ (s.win i).first u = s.log i ∧
      (s.win i).leaderLog u = s.log i) ∨ (s.Elected u ∧ (s.win i).first u = s.first u ∧
        (s.win i).leaderLog u = s.leaderLog u) := by
    rintro u ⟨j, hj | hj⟩
    · simp only [Prod.mk.injEq] at hj
      obtain ⟨rfl, rfl⟩ := hj
      exact Or.inl ⟨rfl, by simp [Replicas.win], by simp [Replicas.win]⟩
    · have hu : s.Elected u := ⟨j, hj⟩
      exact Or.inr ⟨hu, by simp [Replicas.win, hne u hu], by simp [Replicas.win, hne u hu]⟩
  refine ⟨h.fair.win hQ hv, ?_, ?_, ?_, ?_, ?_, ?_, h.log_le, fun j => hext.coherent (h.log_coherent j),
    h.standing_le, h.standing_unique, h.standing_lt,
    fun v u c l hvote => hext.coherent (h.vote_coherent v u c l hvote), h.vote_upToDate, ?_, ?_, ?_, ?_⟩
  · rintro j u (hj | hj)
    · simp only [Prod.mk.injEq] at hj
      obtain ⟨rfl, rfl⟩ := hj
      exact le_rfl
    · exact h.led_le j u hj
  · rintro j u (hj | hj) hu
    · simp only [Prod.mk.injEq] at hj
      obtain ⟨rfl, rfl⟩ := hj
      simp [Replicas.win]
    · have hlog := h.led_log j u hj hu
      simpa [Replicas.win, hne u ⟨j, hj⟩] using hlog
  · intro u hu
    rcases hcases u hu with ⟨-, h1, h2⟩ | ⟨he, h1, h2⟩
    · rw [h1, h2]
    · rw [h1, h2]
      exact h.first_le u he
  · intro u hu e he
    rcases hcases u hu with ⟨rfl, h1, -⟩ | ⟨hel, h1, -⟩
    · rw [h1] at he
      exact h.standing_lt _ _ _ hc e he
    · rw [h1] at he
      exact h.first_lt u hel e he
  · intro u hu e he
    rcases hcases u hu with ⟨rfl, -, h2⟩ | ⟨hel, -, h2⟩
    · rw [h2] at he
      exact h.log_le i e he
    · rw [h2] at he
      exact h.leader_le u hel e he
  · intro u hu
    rcases hcases u hu with ⟨rfl, -, h2⟩ | ⟨hel, -, h2⟩
    · rw [h2]
      exact hext.coherent (h.log_coherent i)
    · rw [h2]
      exact hext.coherent (h.leader_coherent u hel)
  · intro v u c l hvote hu
    exact hext.holds h (fun _ _ hm _ => hm)
      (h.vote_holds v u c l hvote fun he => hu (hext.elected u he))
  · intro v u m hm
    obtain ⟨h1, h2, h3⟩ := h.ack_le v u m hm
    exact ⟨h1, hext.elected u h2, h3.trans (hext.leaderLog u h2).length_le⟩
  · intro v
    exact hext.holds h (fun _ _ hm _ => hm) (h.ack_log v)
  · intro u hu
    rcases hcases u hu with ⟨rfl, h1, -⟩ | ⟨hel, h1, -⟩
    · refine ⟨(h.standing_le _ _ _ hc).1, Q, hQ, fun v hvQ => ?_⟩
      obtain ⟨l, hl⟩ := hv v hvQ
      obtain ⟨clog, hclog, hup⟩ := h.vote_upToDate _ _ _ _ hl
      have hcl := h.standing_unique _ _ _ _ hclog hc
      subst hcl
      refine ⟨l, hext.coherent (h.vote_coherent _ _ _ _ hl), by rw [h1]; exact hup, ?_,
        h.fair.term_le _ _ _ _ hl⟩
      exact hext.holds h (fun _ _ hm _ => hm) (h.vote_holds _ _ _ _ hl hnew)
    · obtain ⟨hpos, P, hP, hw⟩ := h.won u hel
      refine ⟨hpos, P, hP, fun v hvP => ?_⟩
      obtain ⟨l, l1, l2, l3, l4⟩ := hw v hvP
      exact ⟨l, hext.coherent l1, by rw [h1]; exact l2, hext.holds h (fun _ _ hm _ => hm) l3, l4⟩

omit [DecidableEq ι] in
/-- A state with the votes and the candidacies of `s` and longer logs of the leaders: what is left
to show are the logs and the acknowledgements. -/
lemma Inv.of_extends (h : s.Inv tm) (hext : Extends s s') (hb : s'.ballots = s.ballots)
    (hst : s'.standing = s.standing)
    (hacks : ∀ v t m, (v, t, m) ∈ s'.acks → t < s.ballots.term v → (v, t, m) ∈ s.acks)
    (led_log : ∀ i t, (i, t) ∈ s.ballots.leaders → s.ballots.term i = t → s'.log i = s'.leaderLog t)
    (leader_le : ∀ t, s.Elected t → ∀ e ∈ s'.leaderLog t, tm e ≤ t)
    (leader_coherent : ∀ t, s.Elected t → s'.Coherent tm (s'.leaderLog t))
    (log_le : ∀ i, ∀ e ∈ s'.log i, tm e ≤ s.ballots.term i)
    (log_coherent : ∀ i, s'.Coherent tm (s'.log i))
    (ack_le : ∀ v t m, (v, t, m) ∈ s'.acks →
      t ≤ s.ballots.term v ∧ s.Elected t ∧ m ≤ (s'.leaderLog t).length)
    (ack_log : ∀ v, s'.Holds v (s.ballots.term v) (s'.log v)) : s'.Inv tm := by
  have hel : ∀ t, s'.Elected t ↔ s.Elected t := fun t => by unfold Elected; rw [hb]
  -- the new acknowledgements are of the current terms
  have hbelow : ∀ v t l, 0 < t → t ≤ s.ballots.term v → s.Holds v (t - 1) l →
      s'.Holds v (t - 1) l := fun v t l h0 ht hl =>
    hext.holds h (fun u m hm hu => hacks v u m hm (by omega)) hl
  constructor
  case fair => rw [hb]; exact h.fair
  case led_le => rw [hb]; exact h.led_le
  case led_log => rw [hb]; exact led_log
  case first_le =>
    intro t ht
    rw [hext.first t ((hel t).mp ht)]
    exact (h.first_le t ((hel t).mp ht)).trans (hext.leaderLog t ((hel t).mp ht))
  case first_lt =>
    intro t ht
    rw [hext.first t ((hel t).mp ht)]
    exact h.first_lt t ((hel t).mp ht)
  case leader_le => exact fun t ht => leader_le t ((hel t).mp ht)
  case leader_coherent => exact fun t ht => leader_coherent t ((hel t).mp ht)
  case log_le => rw [hb]; exact log_le
  case log_coherent => exact log_coherent
  case standing_le => rw [hb, hst]; exact h.standing_le
  case standing_unique => rw [hst]; exact h.standing_unique
  case standing_lt => rw [hst]; exact h.standing_lt
  case vote_coherent =>
    rw [hb]
    exact fun v t c l hv => hext.coherent (h.vote_coherent v t c l hv)
  case vote_upToDate => rw [hb, hst]; exact h.vote_upToDate
  case vote_holds =>
    rw [hb]
    intro v t c l hv ht
    exact hbelow v t l (h.vote_pos hv) (h.fair.term_le v t c l hv)
      (h.vote_holds v t c l hv fun he => ht ((hel t).mpr he))
  case ack_le =>
    rw [hb]
    exact fun v t m hm => ⟨(ack_le v t m hm).1, (hel t).mpr (ack_le v t m hm).2.1, (ack_le v t m hm).2.2⟩
  case ack_log => rw [hb]; exact ack_log
  case won =>
    intro t ht
    obtain ⟨hpos, Q, hQ, hw⟩ := h.won t ((hel t).mp ht)
    refine ⟨hpos, Q, hQ, fun v hv => ?_⟩
    obtain ⟨l, l1, l2, l3, l4⟩ := hw v hv
    exact ⟨l, hext.coherent l1, by rw [hext.first t ((hel t).mp ht)]; exact l2,
      hbelow v t l hpos l4 l3, by rw [hb]; exact l4⟩

lemma Inv.append (h : s.Inv tm) {i : ι} {e : α} (hi : (i, s.ballots.term i) ∈ s.ballots.leaders)
    (he : tm e = s.ballots.term i) : (s.append i e).Inv tm := by
  have hlog := h.led_log i _ hi rfl
  have hlead : (s.append i e).leaderLog (s.ballots.term i) = s.log i ++ [e] := by
    simp [Replicas.append]
  have hlead' : ∀ u, u ≠ s.ballots.term i → (s.append i e).leaderLog u = s.leaderLog u :=
    fun u hu => by simp [Replicas.append, hu]
  have hself : (s.append i e).log i = s.log i ++ [e] := by simp [Replicas.append]
  have hother : ∀ j, j ≠ i → (s.append i e).log j = s.log j := fun j hj => by
    simp [Replicas.append, hj]
  have hext : Extends s (s.append i e) := by
    refine ⟨fun u hu => hu, fun u hu => ?_, fun u _ => rfl⟩
    by_cases hut : u = s.ballots.term i
    · subst hut
      rw [hlead, ← hlog]
      exact List.prefix_append _ _
    · rw [hlead' u hut]
  -- the new entry is the last one of the leader of its term
  have hcoh : (s.append i e).Coherent tm (s.log i ++ [e]) := by
    intro k x hk
    by_cases hlt : k < (s.log i).length
    · rw [List.getElem?_append_left hlt] at hk
      obtain ⟨h1, h2⟩ := hext.coherent (h.log_coherent i) k x hk
      exact ⟨h1, by rw [← h2, List.take_append_of_le_length (by omega)]⟩
    · have hkl : k = (s.log i).length := by
        have := (List.getElem?_eq_some_iff.mp hk).1
        simp only [List.length_append, List.length_singleton] at this
        omega
      subst hkl
      rw [List.getElem?_concat_length, Option.some.injEq] at hk
      subst hk
      rw [he, hlead]
      exact ⟨⟨i, hi⟩, rfl⟩
  refine h.of_extends hext rfl rfl (fun v t m hm _ => hm) ?_ ?_ ?_ ?_ ?_ ?_ ?_
  · intro j u hj hu
    by_cases hji : j = i
    · subst hji
      rw [hself, ← hu, hlead]
    · have hut : u ≠ s.ballots.term i := by
        rintro rfl
        exact hji (h.fair.leader_unique hj hi)
      rw [hother j hji, hlead' u hut]
      exact h.led_log j u hj hu
  · intro u hu x hx
    by_cases hut : u = s.ballots.term i
    · subst hut
      rw [hlead] at hx
      rcases List.mem_append.mp hx with hx | hx
      · exact h.log_le i x hx
      · rw [List.mem_singleton.mp hx, he]
    · rw [hlead' u hut] at hx
      exact h.leader_le u hu x hx
  · intro u hu
    by_cases hut : u = s.ballots.term i
    · subst hut
      rw [hlead]
      exact hcoh
    · rw [hlead' u hut]
      exact hext.coherent (h.leader_coherent u hu)
  · intro j x hx
    by_cases hji : j = i
    · subst hji
      rw [hself] at hx
      rcases List.mem_append.mp hx with hx | hx
      · exact h.log_le j x hx
      · rw [List.mem_singleton.mp hx, he]
    · rw [hother j hji] at hx
      exact h.log_le j x hx
  · intro j
    by_cases hji : j = i
    · subst hji
      rw [hself]
      exact hcoh
    · rw [hother j hji]
      exact hext.coherent (h.log_coherent j)
  · intro v u m hm
    obtain ⟨h1, h2, h3⟩ := h.ack_le v u m hm
    exact ⟨h1, h2, h3.trans (hext.leaderLog u h2).length_le⟩
  · intro v
    have hv := hext.holds h (fun _ _ hm _ => hm) (h.ack_log v)
    by_cases hvi : v = i
    · subst hvi
      rw [hself]
      exact hv.of_isPrefix (List.prefix_append _ _)
    · rw [hother v hvi]
      exact hv

omit [DecidableEq ι] [Fintype ι] in
/-- What is held is held together with a new acknowledgement of a prefix of the log. -/
lemma Holds.acked {v : ι} {t m : ℕ} {l : List α} (hl : s.Holds v t l)
    (hm : (s.leaderLog t).take m <+: l) (h1 : s'.acks = insert (v, t, m) s.acks)
    (h2 : s'.leaderLog = s.leaderLog) (h3 : s'.ballots = s.ballots) (h4 : s'.first = s.first) :
    s'.Holds v t l := by
  have hel : ∀ u, s'.Elected u ↔ s.Elected u := fun u => by unfold Elected; rw [h3]
  intro t' m' k hack ht' hk hcar
  rw [h1] at hack
  rw [h2]
  rcases hack with hack | hack
  · simp only [Prod.mk.injEq] at hack
    obtain ⟨-, rfl, rfl⟩ := hack
    exact (List.take_prefix_take_left hk).trans hm
  · refine hl t' m' k hack ht' hk fun u hu htu hut => ?_
    have := hcar u ((hel u).mpr hu) htu hut
    unfold Carries at this ⊢
    rwa [h2, h4] at this

omit [DecidableEq ι] in
/-- The acknowledgements of the other participants are the old ones. -/
lemma Holds.other {v w : ι} {t m b : ℕ} {l : List α} (hw : w ≠ v) (h : s.Inv tm)
    (hext : Extends s s') (hl : s.Holds w b l) (h1 : s'.acks = insert (v, t, m) s.acks) :
    s'.Holds w b l := by
  refine hext.holds h (fun u k hk _ => ?_) hl
  rw [h1] at hk
  rcases hk with hk | hk
  · simp only [Prod.mk.injEq] at hk
    exact absurd hk.1 hw
  · exact hk

lemma Inv.accept (h : s.Inv tm) {v j : ι} {m : ℕ} (hj : (j, s.ballots.term v) ∈ s.ballots.leaders)
    (hjv : j ≠ v) (hm : m ≤ (s.leaderLog (s.ballots.term v)).length)
    (hk : Keeps tm (s.log v) ((s.leaderLog (s.ballots.term v)).take m)) : (s.accept v m).Inv tm := by
  have hext : Extends s (s.accept v m) := .of_eq rfl rfl rfl
  have hel : s.Elected (s.ballots.term v) := ⟨j, hj⟩
  have hself : (s.accept v m).log v = (s.leaderLog (s.ballots.term v)).take m := by
    simp [Replicas.accept]
  have hother : ∀ w, w ≠ v → (s.accept v m).log w = s.log w := fun w hw => by
    simp [Replicas.accept, hw]
  refine h.of_extends hext rfl rfl ?_ ?_ h.leader_le
    (fun t ht => hext.coherent (h.leader_coherent t ht)) ?_ ?_ ?_ ?_
  · rintro w t k (hw | hw) ht
    · simp only [Prod.mk.injEq] at hw
      obtain ⟨rfl, rfl, -⟩ := hw
      exact absurd ht (lt_irrefl _)
    · exact hw
  · intro i t hi ht
    by_cases hiv : i = v
    · -- the leader of the term is another participant
      subst hiv
      subst ht
      exact absurd (h.fair.leader_unique hj hi) hjv
    · rw [hother i hiv]
      exact h.led_log i t hi ht
  · intro i e he
    by_cases hiv : i = v
    · subst hiv
      rw [hself] at he
      exact h.leader_le _ hel e (List.mem_of_mem_take he)
    · rw [hother i hiv] at he
      exact h.log_le i e he
  · intro i
    by_cases hiv : i = v
    · subst hiv
      rw [hself]
      exact hext.coherent ((h.leader_coherent _ hel).of_isPrefix (List.take_prefix _ _))
    · rw [hother i hiv]
      exact hext.coherent (h.log_coherent i)
  · rintro w t k (hw | hw)
    · simp only [Prod.mk.injEq] at hw
      obtain ⟨rfl, rfl, rfl⟩ := hw
      exact ⟨le_rfl, hel, hm⟩
    · exact h.ack_le w t k hw
  · intro w
    by_cases hwv : w = v
    · subst hwv
      rw [hself]
      refine Holds.acked ?_ List.prefix_rfl rfl rfl rfl rfl
      intro t' m' k hack ht' hkm hcar
      have hold := h.ack_log w t' m' k hack ht' hkm hcar
      refine hk.isPrefix (List.take_prefix _ _) hold ?_
      rcases ht'.eq_or_lt with rfl | hlt
      · exact List.take_prefix _ _
      · exact (hcar _ hel hlt le_rfl).trans (h.first_le _ hel)
    · rw [hother w hwv]
      exact (h.ack_log w).other hwv h hext rfl

lemma Inv.confirm (h : s.Inv tm) {v : ι} {m : ℕ} (he : s.Elected (s.ballots.term v))
    (hm : m ≤ (s.leaderLog (s.ballots.term v)).length)
    (hl : (s.log v).take m = (s.leaderLog (s.ballots.term v)).take m) : (s.confirm v m).Inv tm := by
  have hext : Extends s (s.confirm v m) := .of_eq rfl rfl rfl
  refine h.of_extends hext rfl rfl ?_ h.led_log h.leader_le
    (fun t ht => hext.coherent (h.leader_coherent t ht)) h.log_le
    (fun i => hext.coherent (h.log_coherent i)) ?_ ?_
  · rintro w t k (hw | hw) ht
    · simp only [Prod.mk.injEq] at hw
      obtain ⟨rfl, rfl, -⟩ := hw
      exact absurd ht (lt_irrefl _)
    · exact hw
  · rintro w t k (hw | hw)
    · simp only [Prod.mk.injEq] at hw
      obtain ⟨rfl, rfl, rfl⟩ := hw
      exact ⟨le_rfl, he, hm⟩
    · exact h.ack_le w t k hw
  · intro w
    by_cases hwv : w = v
    · subst hwv
      refine Holds.acked (h.ack_log w) ?_ rfl rfl rfl rfl
      rw [← hl]
      exact List.take_prefix _ _
    · exact (h.ack_log w).other hwv h hext rfl

/-- **One step keeps the invariant.** -/
theorem Step.inv (hs : Step tm s s') (h : s.Inv tm) : s'.Inv tm := by
  cases hs with
  | adopt i t ht => exact h.adopt ht
  | stand i => exact h.stand i
  | grant v c clog hv hc hu => exact h.grant hv hc hu
  | win i Q hQ hv hc hn => exact h.win hQ hv hc hn
  | append i e hi he => exact h.append hi he
  | accept v j m hj hjv hm hk => exact h.accept hj hjv hm hk
  | confirm v m he hm hl => exact h.confirm he hm hl

omit [DecidableEq ι] in
lemma init_inv : (init : Replicas ι α).Inv tm := by
  have hel : ∀ t, ¬ (init : Replicas ι α).Elected t := by
    rintro t ⟨i, hi⟩
    simp [init, Ballots.init] at hi
  constructor
  case fair => exact Ballots.init_fair
  case won => exact fun t ht => absurd ht (hel t)
  case ack_log => intro v t m k hm; simp [init] at hm
  case first_le => exact fun t ht => absurd ht (hel t)
  case first_lt => exact fun t ht => absurd ht (hel t)
  case leader_le => exact fun t ht => absurd ht (hel t)
  case leader_coherent => exact fun t ht => absurd ht (hel t)
  case log_coherent => intro i k e hk; simp [init] at hk
  all_goals simp [init, Ballots.init]

/-- Everything that is recorded in `s` is recorded in `s'`. -/
structure Grows (s s' : Replicas ι α) : Prop extends Extends s s' where
  votes : s.ballots.votes ⊆ s'.ballots.votes
  leaders : s.ballots.leaders ⊆ s'.ballots.leaders
  standing : s.standing ⊆ s'.standing
  acks : s.acks ⊆ s'.acks

omit [DecidableEq ι] [Fintype ι] in
lemma Grows.refl (s : Replicas ι α) : Grows s s :=
  ⟨.of_eq rfl rfl rfl, subset_rfl, subset_rfl, subset_rfl, subset_rfl⟩

omit [DecidableEq ι] [Fintype ι] in
lemma Grows.trans {s₁ s₂ s₃ : Replicas ι α} (h : Grows s₁ s₂) (h' : Grows s₂ s₃) : Grows s₁ s₃ where
  elected t ht := h'.elected t (h.elected t ht)
  leaderLog t ht := (h.leaderLog t ht).trans (h'.leaderLog t (h.elected t ht))
  first t ht := (h'.first t (h.elected t ht)).trans (h.first t ht)
  votes := h.votes.trans h'.votes
  leaders := h.leaders.trans h'.leaders
  standing := h.standing.trans h'.standing
  acks := h.acks.trans h'.acks

/-- **A step forgets nothing.** -/
lemma Step.grows (hs : Step tm s s') (h : s.Inv tm) : Grows s s' := by
  cases hs with
  | adopt i t ht => exact ⟨.of_eq rfl rfl rfl, subset_rfl, subset_rfl, subset_rfl, subset_rfl⟩
  | stand i =>
    exact ⟨.of_eq rfl rfl rfl, Set.subset_insert _ _, subset_rfl, Set.subset_insert _ _, subset_rfl⟩
  | grant v c clog hv hc hu =>
    exact ⟨.of_eq rfl rfl rfl, Set.subset_insert _ _, subset_rfl, subset_rfl, subset_rfl⟩
  | win i Q hQ hv hc hn =>
    have hne : ∀ u, s.Elected u → u ≠ s.ballots.term i := fun u hu he =>
      h.not_elected hQ hv hn (he ▸ hu)
    refine ⟨⟨fun u ⟨j, hj⟩ => ⟨j, Set.mem_insert_of_mem _ hj⟩, fun u hu => ?_, fun u hu => ?_⟩,
      subset_rfl, Set.subset_insert _ _, subset_rfl, subset_rfl⟩
    · simp [Replicas.win, hne u hu]
    · simp [Replicas.win, hne u hu]
  | append i e hi he =>
    refine ⟨⟨fun u hu => hu, fun u hu => ?_, fun u _ => rfl⟩, subset_rfl, subset_rfl, subset_rfl,
      subset_rfl⟩
    by_cases hut : u = s.ballots.term i
    · subst hut
      simp [Replicas.append, ← h.led_log i _ hi rfl]
    · simp [Replicas.append, hut]
  | accept v j m hj hjv hm hk =>
    exact ⟨.of_eq rfl rfl rfl, subset_rfl, subset_rfl, subset_rfl, Set.subset_insert _ _⟩
  | confirm v m he hm hl =>
    exact ⟨.of_eq rfl rfl rfl, subset_rfl, subset_rfl, subset_rfl, Set.subset_insert _ _⟩

omit [DecidableEq ι] [Fintype ι] in
/-- The entries of a leader stay where they are. -/
lemma Extends.getElem? (h : Extends s s') {t k : ℕ} {e : α} (ht : s.Elected t)
    (he : (s.leaderLog t)[k]? = some e) : (s'.leaderLog t)[k]? = some e := by
  obtain ⟨u, hu⟩ := h.leaderLog t ht
  rw [← hu, List.getElem?_append_left (List.getElem?_eq_some_iff.mp he).1]
  exact he

omit [DecidableEq ι] in
/-- What is chosen stays chosen. -/
lemma Chosen.mono {t k : ℕ} (h : s.Chosen tm t k) (hg : Grows s s') : s'.Chosen tm t k := by
  obtain ⟨ht, ⟨e, he, het⟩, hk, Q, hQ, hack⟩ := h
  refine ⟨hg.elected t ht, ⟨e, hg.getElem? ht he, het⟩, hk, Q, hQ, fun v hv => ?_⟩
  obtain ⟨m, hm, hv'⟩ := hack v hv
  exact ⟨m, hm, hg.acks hv'⟩

/-! ### Settled prefixes -/

/-- **The list is a prefix of what was chosen** up to the term `t`. -/
def Settled (tm : α → ℕ) (s : Replicas ι α) (t : ℕ) (p : List α) : Prop :=
  p = [] ∨ ∃ u k, u ≤ t ∧ s.Chosen tm u k ∧ p <+: (s.leaderLog u).take k

section Settled

variable {t : ℕ} {p p' : List α}

omit [DecidableEq ι] in
lemma Settled.nil : s.Settled tm t [] := Or.inl rfl

omit [DecidableEq ι] in
lemma Settled.of_isPrefix (h : s.Settled tm t p) (hp : p' <+: p) : s.Settled tm t p' := by
  rcases h with rfl | ⟨u, k, hu, hc, hk⟩
  · exact Or.inl (List.prefix_nil.mp hp)
  · exact Or.inr ⟨u, k, hu, hc, hp.trans hk⟩

omit [DecidableEq ι] in
lemma Settled.of_le (h : s.Settled tm t p) {t' : ℕ} (ht : t ≤ t') : s.Settled tm t' p := by
  rcases h with rfl | ⟨u, k, hu, hc, hk⟩
  · exact .nil
  · exact Or.inr ⟨u, k, hu.trans ht, hc, hk⟩

omit [DecidableEq ι] in
/-- What is settled stays settled. -/
lemma Settled.mono (h : s.Settled tm t p) (hg : Grows s s') : s'.Settled tm t p := by
  rcases h with rfl | ⟨u, k, hu, hc, hk⟩
  · exact .nil
  · refine Or.inr ⟨u, k, hu, hc.mono hg, ?_⟩
    obtain ⟨hel, ⟨e, he, -⟩, hpos, -⟩ := hc
    have hlt := (List.getElem?_eq_some_iff.mp he).1
    rw [hg.take_eq hel (by omega)]
    exact hk

/-- **A leader has everything that was settled up to its term.** -/
lemma Settled.leader (h : s.Settled tm t p) (hi : s.Inv tm) {u : ℕ} (hu : s.Elected u)
    (htu : t ≤ u) : p <+: s.leaderLog u := by
  rcases h with rfl | ⟨w, k, hw, hc, hk⟩
  · exact List.nil_prefix
  · rcases (hw.trans htu).eq_or_lt with rfl | hlt
    · exact hk.trans (List.take_prefix _ _)
    · exact (hk.trans (hi.leader_complete hc hu hlt)).trans (hi.first_le u hu)

/-- **Settled lists agree**: one of them is a prefix of the other. -/
theorem Settled.agree {t' : ℕ} (h : s.Settled tm t p) (h' : s.Settled tm t' p') (hi : s.Inv tm) :
    p <+: p' ∨ p' <+: p := by
  have key : ∀ {u k u' k' : ℕ} {q q' : List α}, s.Chosen tm u k → q <+: (s.leaderLog u).take k →
      s.Chosen tm u' k' → q' <+: (s.leaderLog u').take k' → u ≤ u' → q <+: q' ∨ q' <+: q := by
    intro u k u' k' q q' hc hq hc' hq' huu
    have hq : q <+: s.leaderLog u' :=
      Settled.leader (Or.inr ⟨u, k, le_rfl, hc, hq⟩) hi hc'.1 huu
    exact List.prefix_or_prefix_of_prefix hq (hq'.trans (List.take_prefix _ _))
  rcases h with rfl | ⟨u, k, -, hc, hk⟩
  · exact Or.inl List.nil_prefix
  rcases h' with rfl | ⟨u', k', -, hc', hk'⟩
  · exact Or.inr List.nil_prefix
  rcases Nat.le_total u u' with huu | huu
  · exact key hc hk hc' hk' huu
  · exact (key hc' hk' hc hk huu).symm

end Settled

/-- **A run keeps the invariant and forgets nothing.** -/
theorem Inv.steps (h : s.Inv tm) (hs : Relation.ReflTransGen (Step tm) s s') :
    s'.Inv tm ∧ Grows s s' := by
  induction hs with
  | refl => exact ⟨h, .refl s⟩
  | tail _ hstep ih => exact ⟨hstep.inv ih.1, ih.2.trans (hstep.grows ih.1)⟩

end Invariant

end Replicas

end VeriStore.Lib

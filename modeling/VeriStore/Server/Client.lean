import VeriStore.Server.Answers

/-!
The client that follows a refusal.

`kv_client` sends one command to a port, reads once, and takes what it has read as a C string. Where
that begins with `NOT_LEADER `, the number behind it is a port, and the client sends the same command
there. One read may give a part of the answer only, and then the number may be a part of the port.

* `redirect_names_elected` — the client is sent on by refused writes only, and by a whole refusal to
  the server of a node that has been elected, with the command it came with.
-/

namespace VeriStore.Server

open VeriStore.Lib VeriStore.Log VeriStore.Store VeriStore.Raft

set_option linter.unusedSectionVars false

/-! ### What the client sends and reads -/

/-- What comes of a connection to a server: the calls in front of the read fail, or it gives some
bytes, nothing at the end of the stream. -/
inductive Exchange where
  | noSocket
  | noConnection
  | read (bytes : Bytes)

/-- The room for an answer; one byte is kept for the end of the string. -/
def answerRoom : ℕ := 4096 - 1

/-- The string that begins at a buffer with these bytes and a zero behind them. -/
def cString (bytes : Bytes) : Bytes := bytes.takeWhile (· ≠ 0)

/-- What the client takes for the answer. -/
def Exchange.resp : Exchange → Bytes
  | .noSocket => text "ERR socket\n"
  | .noConnection => text "ERR connect\n"
  | .read bytes => if bytes = [] then text "ERR read\n" else cString (bytes.take answerRoom)

/-- A command that was sent: the port of the connection, the line that is written to it, and the
answer. -/
structure Sent where
  port : UInt16
  line : Bytes
  resp : Bytes

/-- `exchange` says what comes of a connection to a port and a line that is written to it. -/
def sendCommand (exchange : UInt16 → Bytes → Exchange) (port : ℤ) (cmd : Bytes) : Sent :=
  let line := cmd ++ text "\n"
  ⟨UInt16.ofInt port, line, (exchange (UInt16.ofInt port) line).resp⟩

/-- `>>` into an `int`: the value is stored whether or not the stream fails. -/
def extractInt (s : Bytes) : ℤ :=
  let (neg, s1) := readSign (skipWs s)
  let ds := s1.takeWhile isDigit
  if ds = [] then 0
  else if neg then max (-2 ^ 31) (-(digitsVal ds : ℤ)) else min (2 ^ 31 - 1) (digitsVal ds)

/-- The port an answer sends the client to. -/
def redirectPort (resp : Bytes) : Option ℤ :=
  if (text "NOT_LEADER ").isPrefixOf resp then
    let (_, s) := nextWord resp
    if 0 < extractInt s then some (extractInt s) else none
  else none

/-- The client behind the look at its arguments: what it sends, and what it prints. -/
def kvClient (exchange : UInt16 → Bytes → Exchange) (port : ℤ) (cmd : Bytes) : List Sent × Bytes :=
  let first := sendCommand exchange port cmd
  let printed := text "response: " ++ first.resp
  match redirectPort first.resp with
  | none => ([first], printed)
  | some leaderPort =>
    let second := sendCommand exchange leaderPort cmd
    ([first, second], printed ++ text "redirecting to " ++ decimal leaderPort.toNat ++ text "\n" ++
      text "response: " ++ second.resp)

/-! ### Refusals are read back -/

/-- A number reads itself in front of anything but a digit. -/
lemma extractInt_decimal {n : ℕ} (hn : n < 2 ^ 31) {s : Bytes}
    (hs : ∀ b, s.head? = some b → isDigit b = false) : extractInt (decimal n ++ s) = n := by
  have hhead : ∀ b, (decimal n ++ s).head? = some b → isDigit b = true := by
    intro b hb
    cases hd : decimal n with
    | nil => exact absurd hd (decimal_ne_nil n)
    | cons c r =>
      rw [hd] at hb
      simp only [List.cons_append, List.head?_cons, Option.some.injEq] at hb
      exact hb ▸ isDigit_of_mem_decimal n c (by rw [hd]; simp)
  have hskip : skipWs (decimal n ++ s) = decimal n ++ s :=
    skipWs_of_head fun b hb => isSpace_of_isDigit (hhead b hb)
  obtain ⟨h1, -⟩ := takeWhile_append_stop (p := isDigit) (isDigit_of_mem_decimal n) hs
  unfold extractInt
  rw [hskip, readSign_of_digit hhead]
  simp only [h1, digitsVal_decimal, decimal_ne_nil, if_false, Bool.false_eq_true]
  omega

lemma extractInt_cons {b : UInt8} {s : Bytes} (hb : isSpace b = true) :
    extractInt (b :: s) = extractInt s := by
  unfold extractInt
  rw [skipWs_cons hb]

/-- Of a part of a number its first digits are read. -/
lemma extractInt_of_prefix {n : ℕ} (hn : n < 2 ^ 31) {s : Bytes} (hs : s <+: decimal n) :
    ∃ k, extractInt s = (n : ℤ) / 10 ^ k := by
  have hdigit : ∀ b ∈ s, isDigit b = true := fun b hb => isDigit_of_mem_decimal n b (hs.subset hb)
  have hhead : ∀ b, s.head? = some b → isDigit b = true := fun b hb =>
    hdigit b (List.mem_of_mem_head? hb)
  have hskip : skipWs s = s := skipWs_of_head fun b hb => isSpace_of_isDigit (hhead b hb)
  have htake : s.takeWhile isDigit = s := List.takeWhile_eq_self_iff.mpr hdigit
  obtain ⟨k, hk⟩ := digitsVal_of_prefix hs (isDigit_of_mem_decimal n)
  rw [digitsVal_decimal] at hk
  have hle : digitsVal s ≤ n := hk ▸ Nat.div_le_self _ _
  refine ⟨k, ?_⟩
  have hval : extractInt s = (digitsVal s : ℤ) := by
    unfold extractInt
    rw [hskip, readSign_of_digit hhead]
    simp only [htake, Bool.false_eq_true, if_false]
    split
    · next h0 => rw [h0]; rfl
    · omega
  rw [hval, hk]
  norm_cast

/-- Behind the word a number is read, and it is a port when it is positive. -/
lemma redirectPort_append (s : Bytes) : redirectPort (text "NOT_LEADER " ++ s) =
    if 0 < extractInt s then some (extractInt s) else none := by
  have hspace : ∀ b, (text " " ++ s).head? = some b → isSpace b = true := fun b hb => by
    obtain rfl : (32 : UInt8) = b := Option.some.inj hb
    decide
  have hsplit : text "NOT_LEADER " ++ s = text "NOT_LEADER" ++ (text " " ++ s) := by
    rw [← List.append_assoc]
    rfl
  have hword : nextWord (text "NOT_LEADER " ++ s) = (text "NOT_LEADER", text " " ++ s) := by
    rw [nextWord, hsplit, extractString_word (by decide +kernel) hspace]
    rfl
  have hpre : (text "NOT_LEADER ").isPrefixOf (text "NOT_LEADER " ++ s) = true :=
    List.isPrefixOf_iff_prefix.mpr (List.prefix_append _ _)
  have hint : extractInt (text " " ++ s) = extractInt s := extractInt_cons (by decide)
  rw [redirectPort, if_pos hpre, hword]
  simp only [hint]

lemma leaderReply_pos {p : ℤ} (hp : 0 < p) :
    leaderReply p = text "NOT_LEADER " ++ (decimal p.toNat ++ text "\n") := by
  rw [leaderReply, if_pos hp, List.append_assoc]

/-- **A refusal is read back**: the client goes to the port that the server has named. -/
lemma redirectPort_leaderReply {p : ℤ} (hpos : 0 < p) (hp : p < 2 ^ 31) :
    redirectPort (leaderReply p) = some p := by
  have hint : extractInt (decimal p.toNat ++ text "\n") = p := by
    rw [extractInt_decimal (by omega) (by decide +kernel)]
    omega
  rw [leaderReply_pos hpos, redirectPort_append, hint, if_pos hpos]

/-- A refusal that names nobody sends nobody on. -/
lemma redirectPort_unknown {r : Bytes} (hr : r <+: unknownLeader) : redirectPort r = none := by
  have hall : ∀ r ∈ unknownLeader.inits, redirectPort r = none := by decide +kernel
  exact hall r ((List.mem_inits _ _).mpr hr)

/-- **A part of a refusal**: the number that is read begins the port. -/
lemma redirectPort_of_prefix {q p : ℤ} (hq : q < 2 ^ 31) {r : Bytes} (hr : r <+: leaderReply q)
    (hp : redirectPort r = some p) : 0 < q ∧ ∃ k, p = q / 10 ^ k := by
  by_cases hpos : 0 < q
  · refine ⟨hpos, ?_⟩
    have hword : (text "NOT_LEADER ").isPrefixOf r = true := by
      by_contra hno
      rw [redirectPort, if_neg hno] at hp
      cases hp
    obtain ⟨s, rfl⟩ := List.isPrefixOf_iff_prefix.mp hword
    rw [leaderReply_pos hpos, List.prefix_append_right_inj] at hr
    have hs : ∃ k, extractInt s = q / 10 ^ k := by
      rcases List.prefix_concat_iff.mp hr with rfl | hs
      · refine ⟨0, ?_⟩
        rw [extractInt_decimal (by omega) (by decide +kernel)]
        omega
      · obtain ⟨k, hk⟩ := extractInt_of_prefix (n := q.toNat) (by omega) hs
        exact ⟨k, by rw [hk, Int.toNat_of_nonneg hpos.le]⟩
    obtain ⟨k, hk⟩ := hs
    rw [redirectPort_append] at hp
    split at hp
    · exact ⟨k, (Option.some.inj hp).symm.trans hk⟩
    · cases hp
  · rw [leaderReply, if_neg hpos] at hr
    rw [redirectPort_unknown hr] at hp
    cases hp

/-- A number below a power of ten has no more digits than that. -/
lemma decimal_length_le {k n : ℕ} (hk : 0 < k) (hn : n < 10 ^ k) : (decimal n).length ≤ k := by
  induction k generalizing n with
  | zero => omega
  | succ k ih =>
    by_cases h10 : n < 10
    · rw [decimal_of_lt h10, List.length_singleton]
      omega
    · have hk : 0 < k := by
        rcases Nat.eq_zero_or_pos k with rfl | h
        · omega
        · exact h
      rw [decimal_step (by omega), List.length_append, List.length_singleton]
      have := ih hk (n := n / 10) (by rw [pow_succ] at hn; omega)
      omega

/-- What is read of an answer is the beginning of it. -/
lemma resp_prefix {r reply : Bytes} (hr : r <+: reply) (hne : r ≠ []) :
    (Exchange.read r).resp <+: reply := by
  rw [Exchange.resp, if_neg hne]
  exact ((List.takeWhile_prefix _).trans (List.take_prefix _ _)).trans hr

/-- A refusal fits into the buffer and holds no zero. -/
lemma resp_leaderReply {p : ℤ} (hp : p < 2 ^ 31) :
    (Exchange.read (leaderReply p)).resp = leaderReply p := by
  have hlen : (leaderReply p).length ≤ answerRoom := by
    unfold leaderReply
    split
    · have hd := decimal_length_le (k := 10) (n := p.toNat) (by omega) (by omega)
      have h1 : (text "NOT_LEADER ").length = 11 := by decide +kernel
      have h2 : (text "\n").length = 1 := by decide +kernel
      have h3 : answerRoom = 4095 := rfl
      rw [List.length_append, List.length_append]
      omega
    · decide +kernel
  have hzero : ∀ b ∈ leaderReply p, decide (b ≠ 0) = true := by
    have htext : ∀ b ∈ text "NOT_LEADER " ++ text "\n", decide (b ≠ 0) = true := by decide +kernel
    have hdigit : ∀ b, isDigit b = true → decide (b ≠ 0) = true := fun b hb => by
      by_cases h0 : b = 0
      · subst h0
        exact absurd hb (by decide)
      · simpa using h0
    unfold leaderReply
    split
    · intro b hb
      rcases List.mem_append.mp hb with hb | hb
      · rcases List.mem_append.mp hb with hb | hb
        · exact htext b (List.mem_append_left _ hb)
        · exact hdigit b (isDigit_of_mem_decimal _ b hb)
      · exact htext b (List.mem_append_right _ hb)
    · decide +kernel
  have hne : leaderReply p ≠ [] := by
    unfold leaderReply
    split
    · simp [text]
    · decide +kernel
  rw [Exchange.resp, if_neg hne, List.take_of_length_le hlen, cString,
    List.takeWhile_eq_self_iff.mpr hzero]

/-- An answer that does not begin like a refusal sends nobody on, however much of it is read. -/
lemma redirectPort_of_other {r reply : Bytes} (h : (text "NOT_LEADER ").isPrefixOf reply = false)
    (hr : r <+: reply) : redirectPort r = none := by
  have hno : ¬ (text "NOT_LEADER ").isPrefixOf r = true := fun hc => by
    rw [List.isPrefixOf_iff_prefix.mpr ((List.isPrefixOf_iff_prefix.mp hc).trans hr)] at h
    cases h
  rw [redirectPort, if_neg hno]

/-! ### Where clients are sent -/

namespace FrontEnd

variable {ι : Type} [DecidableEq ι] {cfg : Config ι} {port : ι → ℤ} {x x' : FrontEnd ι} {i j : ι}

/-- The answer sends nobody on, or it refuses a write and names a node that was elected. -/
inductive Directs (port : ι → ℤ) (es : Cluster.Elections ι) (a : Answer ι) : Prop
  | other (h : (text "NOT_LEADER ").isPrefixOf a.reply = false)
  | unknown (h : a.reply = unknownLeader)
  | leader (j : ι) (hw : (writeOf a.line).isSome) (hj : Cluster.Won es j)
      (h : a.reply = leaderReply (port j))

lemma Directs.mono {es es' : Cluster.Elections ι} {a : Answer ι} (h : Directs port es a)
    (hsub : es ⊆ es') : Directs port es' a := by
  cases h with
  | other h => exact .other h
  | unknown h => exact .unknown h
  | leader j hw hj h =>
    obtain ⟨t, l, hl⟩ := hj
    exact .leader j hw ⟨t, l, hsub hl⟩ h

/-- Nodes name leaders that were elected, and so do the answers. -/
structure Directed (port : ι → ℤ) (x : FrontEnd ι) : Prop where
  named : x.cluster.Named
  answers : ∀ a ∈ x.answers, Directs port x.cluster.elected a

lemma Directed.service (h : x.Directed port) {a : Action ι} {s : Service ι}
    (hs : x.service.step cfg a = some s) (c : ι → Session) (r : ι → Bool) :
    (⟨s, c, r, x.answers⟩ : FrontEnd ι).Directed port := by
  have he := Cluster.step_effect (Service.step_cluster hs).1
  refine ⟨h.named.effect he, fun b hb => (h.answers b hb).mono ?_⟩
  rcases he.elected_cases with heq | ⟨_, _, _, _, _, _, -, heq⟩
  · exact fun _ hy => heq ▸ hy
  · exact fun _ hy => heq ▸ List.mem_cons_of_mem _ hy

lemma Directed.respond (h : x.Directed port) {reply : Bytes}
    (hr : Directs port x.cluster.elected
      ⟨i, (x.sessions i).line, reply, (x.cluster.entriesOf i).length⟩) :
    (x.respond i reply).Directed port := by
  refine ⟨h.named, fun a ha => ?_⟩
  rcases List.mem_cons.mp ha with rfl | ha
  · exact hr
  · exact h.answers a ha

/-- What is answered at once does not look like a refusal. -/
lemma beginCommand_other {s : KVStore} {role : RaftRole} {line resp : Bytes}
    (h : beginCommand s role line = .reply resp) : (text "NOT_LEADER ").isPrefixOf resp = false := by
  unfold beginCommand at h
  cases hc : parseCommand line with
  | put k v =>
    simp only [hc] at h
    split at h
    · obtain rfl := Outcome.reply.inj h
      decide +kernel
    · split at h <;> cases h
  | del k =>
    simp only [hc] at h
    split at h
    · obtain rfl := Outcome.reply.inj h
      decide +kernel
    · split at h <;> cases h
  | get k =>
    simp only [hc] at h
    obtain rfl := Outcome.reply.inj h
    unfold getReply
    split
    · decide +kernel
    · split
      · rfl
      · decide +kernel
  | size =>
    simp only [hc] at h
    obtain rfl := Outcome.reply.inj h
    rfl
  | status =>
    simp only [hc] at h
    obtain rfl := Outcome.reply.inj h
    split
    · decide +kernel
    · decide +kernel
  | kill =>
    simp only [hc] at h
    cases h
  | ping | flush | unknown =>
    simp only [hc] at h
    obtain rfl := Outcome.reply.inj h
    decide +kernel

/-- **A step.** -/
theorem Directed.step (h : x.Directed port) (hacc : x.Accounted) (hs : Happens cfg port x x') :
    x'.Directed port := by
  cases hs with
  | raft a s hs ha hb => exact h.service hs _ _
  | propose i op k v a s hc ha hs => exact h.service hs _ _
  | reply i l rest resp hc hl hb =>
    have h' : (x.setSession i (took l rest .reading)).Directed port := ⟨h.named, h.answers⟩
    exact h'.respond (.other (beginCommand_other hb))
  | unknown i hc hn => exact h.respond (.unknown rfl)
  | named i j hc hn =>
    have hi := hacc.node i
    unfold Accounts at hi
    simp only [hc] at hi
    exact h.respond (.leader j hi.1 ((h.named.nodes i).known j hn) rfl)
  | proposed i op k v before hc hth =>
    refine h.respond (.other ?_)
    generalize decide (before < (x.cluster.ackedBy i).length) = ok
    cases op <;> cases ok <;> rfl
  | stopped i hc h1 h2 h3 => exact h.respond (.other rfl)
  | _ => exact ⟨h.named, h.answers⟩

/-- **A client is sent to a node that was elected.** In every run, whatever the schedule, let a client
have sent a command and read a part of an answer. When that sends it on, the answer refuses a write,
and names the port of the server of a node that has become leader in some term; the client goes to
that port when it has read the whole answer, and to a port of its first digits otherwise. A whole
refusal that names a leader does send the client on: it writes the same line to the port it has
read. -/
theorem redirect_names_elected (cfg : Config ι) (port : ι → ℤ) (hport : ∀ j, port j < 2 ^ 31)
    {stores : ι → KVStore} {es : List (Event ι)} {x : FrontEnd ι}
    (hrun : (start stores).run cfg port es = some x) {a : Answer ι} (ha : a ∈ x.answers)
    {exchange : UInt16 → Bytes → Exchange} {q : ℤ} {cmd r : Bytes}
    (hread : exchange (UInt16.ofInt q) (cmd ++ text "\n") = .read r) (hr : r <+: a.reply) :
    (∀ p, redirectPort (sendCommand exchange q cmd).resp = some p → (writeOf a.line).isSome ∧
      ∃ j k, (∃ t l, (j, t, l) ∈ x.cluster.elected) ∧ a.reply = leaderReply (port j) ∧
        p = port j / 10 ^ k ∧ (r = a.reply → p = port j)) ∧
    ∀ p, 0 < p → p < 2 ^ 31 → a.reply = leaderReply p → r = a.reply →
      (kvClient exchange q cmd).1 = [⟨UInt16.ofInt q, cmd ++ text "\n", a.reply⟩,
        ⟨UInt16.ofInt p, cmd ++ text "\n", (exchange (UInt16.ofInt p) (cmd ++ text "\n")).resp⟩] := by
  obtain ⟨-, hdir⟩ := run_induct (P := fun z => z.Accounted ∧ z.Directed port) hrun
    ⟨start_accounted stores, Cluster.init_named, fun _ h => (List.not_mem_nil h).elim⟩
    fun e z z' hs hz => ⟨hz.1.step (step_happens hs), hz.2.step hz.1 (step_happens hs)⟩
  have hresp : (sendCommand exchange q cmd).resp = (Exchange.read r).resp := by
    rw [sendCommand, hread]
  refine ⟨fun p hp => ?_, fun p hpos hlt hreply hwhole => ?_⟩
  · have hne : r ≠ [] := by
      rintro rfl
      have hnone : redirectPort (Exchange.read []).resp = none := by decide +kernel
      rw [hresp, hnone] at hp
      cases hp
    have hpart := resp_prefix hr hne
    rw [hresp] at hp
    cases hdir.answers a ha with
    | other h =>
      rw [redirectPort_of_other h hpart] at hp
      cases hp
    | unknown h =>
      rw [redirectPort_unknown (h ▸ hpart)] at hp
      cases hp
    | leader j hw hj h =>
      obtain ⟨hpos, k, hk⟩ := redirectPort_of_prefix (hport j) (h ▸ hpart) hp
      refine ⟨hw, j, k, hj, h, hk, fun hwhole => ?_⟩
      rw [hwhole, h, resp_leaderReply (hport j), redirectPort_leaderReply hpos (hport j)] at hp
      exact (Option.some.inj hp).symm
  · rw [hwhole, hreply, resp_leaderReply hlt] at hresp
    have hport' : redirectPort a.reply = some p := by
      rw [hreply, redirectPort_leaderReply hpos hlt]
    have hfirst : sendCommand exchange q cmd = ⟨UInt16.ofInt q, cmd ++ text "\n", a.reply⟩ := by
      rw [hreply, ← hresp]
      rfl
    simp only [kvClient, hfirst, hport']
    rfl

/-- The second server has heard of the leader, and refuses a write. -/
def writeAtFollower : List (Event (Fin 3)) :=
  firstElection.map .raft ++ [.raft (.beat 0), .raft (.build 0), .raft (.handle 0 .heartbeat),
    .receive 1 (text "DEL a\n"), .command 1, .ask 1, .name 1]

/-- The second server answers with a refusal, and nobody else listens. -/
def refusingServer (port : UInt16) (_ : Bytes) : Exchange :=
  if port = 9102 then .read (text "NOT_LEADER 9101\n") else .noConnection

/-- It names the port of the first one, and the client sends the command there. -/
theorem redirect_names_elected_follower : ∃ (x : FrontEnd (Fin 3)) (a : Answer (Fin 3)),
    (start fun _ => KVStore.new).run threeNodes demoPort writeAtFollower = some x ∧ a ∈ x.answers ∧
      a.reply = text "NOT_LEADER 9101\n" ∧
      (kvClient refusingServer 9102 (text "DEL a")).1.map (fun s => (s.port, s.line)) =
        [(9102, text "DEL a\n"), (9101, text "DEL a\n")] ∧
      ∃ j, demoPort j = 9101 ∧ ∃ t l, (j, t, l) ∈ x.cluster.elected := by
  have h : ((start fun _ => KVStore.new).run threeNodes demoPort writeAtFollower).map (fun x =>
      x.answers.map fun a => a.reply) = some [text "NOT_LEADER 9101\n"] := by
    decide +kernel
  obtain ⟨x, hrun, hx⟩ := Option.map_eq_some_iff.mp h
  obtain ⟨a, ha, hr⟩ := List.mem_map.mp (hx ▸ List.mem_singleton_self (text "NOT_LEADER 9101\n"))
  have hp : redirectPort (sendCommand refusingServer 9102 (text "DEL a")).resp = some 9101 := by
    decide +kernel
  have hread : refusingServer (UInt16.ofInt 9102) (text "DEL a" ++ text "\n") =
      .read (text "NOT_LEADER 9101\n") := rfl
  obtain ⟨h1, h2⟩ := redirect_names_elected threeNodes demoPort (by decide) hrun ha hread
    (hr ▸ List.prefix_rfl)
  obtain ⟨-, j, -, he, -, -, hj⟩ := h1 9101 hp
  have hsent := h2 9101 (by decide) (by decide) (by rw [hr]; decide +kernel) hr.symm
  refine ⟨x, a, hrun, ha, hr, ?_, j, (hj hr.symm).symm, he⟩
  rw [hsent]
  rfl

end FrontEnd

end VeriStore.Server

import Pmd.Cluster.Connections

/-!
# Handshakes do not get stuck

From its first step to its loop a session passes through a fixed number of awaits. On
a connection of two daemons each step takes one of the two ends closer to the loop, and
as long as one of them has not arrived, one of the two can go on: they never wait for
each other. A write is taken to need only its own end: the connection holds whatever has
been written and not yet read.
-/
namespace Pmd
open Foundation

variable {P : Platform}

/-- A bound for the steps a session takes before it is in its loop or has returned. -/
def Phase.toLoop : Phase P → ℕ
  | .opening .connect => 8
  | .opening (.writeHandshake _) | .opening .readHandshake => 7
  | .opening .readAck => 6
  | .opening (.register _ _) => 5
  | .live _ (.writeAck _) => 4
  | .live _ .buildDelta => 3
  | .live _ (.writeDelta _) => 2
  | .live _ .enterLoop => 1
  | .live _ _ | .ended _ => 0

/-- The next step needs only the lock or the socket. -/
def Phase.isReady : Phase P → Bool
  | .opening (.writeHandshake _) | .opening (.register _ _) => true
  | .live _ (.writeAck _) | .live _ .buildDelta | .live _ (.writeDelta _) | .live _ .enterLoop =>
    true
  | _ => false

/-- The session waits for the greeting of the other end. -/
def Phase.awaitsGreeting : Phase P → Bool
  | .opening .readHandshake | .opening .readAck => true
  | _ => false

/-- Every step before the loop leads closer to it. -/
theorem SessionMove.toLoop_le {cfg : Config} {cookie : Bytes} {t : TaskId} {st : DaemonState P}
    {s : Session P} {e : TaskEvent P} {o : Outcome P} (h : SessionMove cfg cookie t st s e o) :
    o.session.phase.toLoop ≤ s.phase.toLoop - 1 := by
  cases h with
  | checked hp hc => rcases hc with ⟨rfl, -⟩ | ⟨rfl, -⟩ <;> simp [hp, Phase.toLoop]
  | registered hp _ hstage =>
    rcases hstage with rfl | ⟨l, -, rfl⟩ <;> simp [hp, Phase.toLoop]
  | wrote hp hstage =>
    rcases hstage with ⟨rfl, rfl⟩ | ⟨rfl, rfl⟩ | ⟨rfl, rfl⟩ <;> simp [hp, Phase.toLoop]
  | moved hp hstage => rcases hstage with rfl | rfl | rfl <;> simp [Phase.toLoop]
  | beat hp hm => simp [Phase.toLoop]
  | _ => simp_all [Phase.toLoop]

theorem Phase.ready_or_waiting {p : Phase P} (h : 0 < p.toLoop) (hne : p ≠ .opening .connect) :
    p.isReady = true ∨ p.awaitsGreeting = true := by
  cases p with
  | opening op => cases op <;> simp_all [isReady, awaitsGreeting]
  | live peer stage => cases stage <;> simp_all [isReady, toLoop]
  | ended left => cases h

theorem Phase.toLoop_le {p : Phase P} (h : p ≠ .opening .connect) : p.toLoop ≤ 7 := by
  cases p with
  | opening op => cases op <;> simp_all [toLoop]
  | live peer stage => cases stage <;> simp [toLoop]
  | ended left => exact Nat.zero_le _

theorem Phase.toLoop_pos {p : Phase P} (h : p.isReady = true ∨ p.awaitsGreeting = true) :
    0 < p.toLoop := by
  cases p with
  | opening op => cases op <;> simp_all [isReady, awaitsGreeting, toLoop]
  | live peer stage => cases stage <;> simp_all [isReady, awaitsGreeting, toLoop]
  | ended left => simp [isReady, awaitsGreeting] at h

theorem Session.hearer_of_waiting {s : Session P} (h : s.phase.awaitsGreeting = true) :
    s.hearer = .waiting := by
  obtain ⟨side, phase, merged⟩ := s
  cases phase with
  | opening op => cases op <;> simp_all [Phase.awaitsGreeting, hearer]
  | _ => simp [Phase.awaitsGreeting] at h

theorem Session.isEnded_of_gone {s : Session P} (h : s.speaker = .gone) :
    s.phase.isEnded = true := by
  obtain ⟨side, phase, merged⟩ := s
  cases phase with
  | opening op => cases op <;> cases side <;> simp [speaker] at h
  | live peer stage => cases stage <;> simp [speaker] at h
  | ended left => rfl

/-- A session that has said nothing is about to speak or waits for the other end. -/
theorem Session.ready_or_waiting_of_silent {cookie : Bytes} {s : Session P} (hr : s.InRole cookie)
    (hs : s.speaker = .silent) (hne : s.phase ≠ .opening .connect) :
    s.phase.isReady = true ∨ s.phase.awaitsGreeting = true := by
  obtain ⟨side, phase, merged⟩ := s
  cases phase with
  | opening op =>
    refine Phase.ready_or_waiting ?_ hne
    cases op <;> exact Nat.succ_pos _
  | live peer stage => cases stage <;> simp_all [speaker, Phase.isReady]
  | ended left => simp [speaker] at hs

/-- Of two ends that wait for each other, the one that has dialled has spoken. -/
theorem Session.talking_of_waiting {cookie : Bytes} {s s' : Session P} (hr : s.InRole cookie)
    (hr' : s'.InRole cookie) (hopp : s.side.Opposite s'.side) (hw : s.phase.awaitsGreeting = true)
    (hw' : s'.phase.awaitsGreeting = true) : s.speaker = .talking ∨ s'.speaker = .talking := by
  have hdialer : ∀ {s : Session P} {addr : P.Addr}, s.InRole cookie → s.side = .outbound addr →
      s.phase.awaitsGreeting = true → s.speaker = .talking := by
    intro s addr hr hside hw
    obtain ⟨side, phase, merged⟩ := s
    cases hside
    cases phase with
    | opening op => cases op <;> simp_all [InRole, speaker, Phase.awaitsGreeting]
    | _ => simp [Phase.awaitsGreeting] at hw
  cases hside : s.side with
  | outbound addr => exact .inl (hdialer hr hside hw)
  | inbound =>
    cases hside' : s'.side with
    | outbound addr => exact .inr (hdialer hr' hside' hw')
    | inbound => simp [Side.Opposite, hside, hside'] at hopp

namespace Cluster
variable {W : Setup} {c c' : Cluster P} {p q r : Port} {s s' : Session P} {x : Action P}

def toLoop (c : Cluster P) (p : Port) : ℕ := (c.session p).elim 0 fun s => s.phase.toLoop

/-- A step of one of the two sessions that is not in its loop yet. -/
def handshakeStep (p q : Port) (c : Cluster P) (x : Action P) : Bool :=
  x.sessionAt.any fun r => (r = p || r = q) && 0 < c.toLoop r

theorem toLoop_of_session (hs : c.session p = some s) : c.toLoop p = s.phase.toLoop := by
  rw [toLoop, hs]
  rfl

theorem handshakeStep_comm (p q : Port) (c : Cluster P) (x : Action P) :
    handshakeStep p q c x = handshakeStep q p c x := by
  rw [handshakeStep, handshakeStep]
  simp only [Bool.or_comm]

/-- A step before the loop is paid for by the distance of the session that takes it. -/
theorem handshakeStep_pays (hl : Links c) (ht : Talks W c) (hpq : c.link p = some (.daemon q))
    (hx : Honest c x) (h : c.step W x = some c') :
    (handshakeStep p q c x).toNat + (c'.toLoop p + c'.toLoop q) ≤ c.toLoop p + c.toLoop q := by
  have hmove : ∀ {p q s e o}, PairMove W c c' x p q s e o →
      (handshakeStep p q c x).toNat + (c'.toLoop p + c'.toLoop q) ≤ c.toLoop p + c.toLoop q := by
    intro p q s e o hm
    have hq : c'.toLoop q = c.toLoop q := by rw [toLoop, toLoop, hm.other]
    have hlt := (sessionStep_move hm.step).toLoop_le
    rw [← toLoop_of_session hm.before, ← toLoop_of_session hm.after] at hlt
    simp only [handshakeStep, Action.sessionAt_of_eventAt hm.event, Option.any_some, decide_true,
      Bool.true_or, Bool.true_and, hq]
    rcases Nat.eq_zero_or_pos (c.toLoop p) with hzero | hpos
    · simp only [hzero] at hlt ⊢
      simpa using hlt
    · simp only [hpos, decide_true, Bool.toNat_true]
      omega
  rcases pair_step hl ht hpq hx h with ⟨hp, hq⟩ | ⟨s, e, o, hm⟩ | ⟨s, e, o, hm⟩
  · have hnone : handshakeStep p q c x = false := by
      have hp := hp.event
      have hq := hq.event
      rw [handshakeStep]
      cases hat : x.sessionAt with
      | none => rfl
      | some r => simp_all
    rw [hnone, toLoop, toLoop, hp.session, hq.session]
    exact (Nat.zero_add _).le
  · exact hmove hm
  · rw [handshakeStep_comm, Nat.add_comm (c'.toLoop p), Nat.add_comm (c.toLoop p)]
    exact hmove hm

/-- A session that is ready takes its next step. -/
theorem ready_step (hs : c.session r = some s) (hready : s.phase.isReady = true) :
    ∃ x : Action P, Honest c x ∧ x.sessionAt = some r ∧ (c.step W x).isSome = true := by
  have htask : ∀ {e : TaskEvent P} {o : Outcome P}, (Act.task (P := P) r.2 e).isOwn = true →
      sessionStep (W.cfg r.1) W.cookie r.2 (c.state r.1) s e = some o →
      ∃ x : Action P, Honest c x ∧ x.sessionAt = some r ∧ (c.step W x).isSome = true := by
    intro e o hown ho
    refine ⟨.own r.1 (.task r.2 e), rfl, rfl, ?_⟩
    rw [Cluster.step, if_pos hown, act_of_sessionStep hs ho]
    rfl
  cases hp : s.phase with
  | opening op =>
    cases op with
    | writeHandshake m => exact htask (e := .wrote true) rfl (by rw [sessionStep, hp]; rfl)
    | register peer vv => exact htask (e := .lock 0 none 0) rfl (by rw [sessionStep, hp]; rfl)
    | _ => simp [hp, Phase.isReady] at hready
  | live peer stage =>
    cases stage with
    | writeAck m => exact htask (e := .wrote true) rfl (by rw [sessionStep, hp]; rfl)
    | buildDelta => exact htask (e := .lock 0 none 0) rfl (by rw [sessionStep, hp]; rfl)
    | writeDelta m => exact htask (e := .wrote true) rfl (by rw [sessionStep, hp]; rfl)
    | enterLoop =>
      obtain ⟨o, ho⟩ : ∃ o, sessionStep (W.cfg r.1) W.cookie r.2 (c.state r.1) s (.lock 0 none 0) =
          some o := by
        rw [sessionStep, hp]
        simp only [stageStep]
        split <;> exact ⟨_, rfl⟩
      exact htask rfl ho
    | _ => simp [hp, Phase.isReady] at hready
  | ended left => simp [hp, Phase.isReady] at hready

/-- A session that waits for a greeting takes whatever comes. -/
theorem waiting_step (hs : c.session r = some s) (hw : s.phase.awaitsGreeting = true)
    (hin : c.inbox r ≠ [] ∨ c.remoteGone r = true) :
    ∃ x : Action P, Honest c x ∧ x.sessionAt = some r ∧ (c.step W x).isSome = true := by
  have hread : ∀ res, ∃ o, sessionStep (W.cfg r.1) W.cookie r.2 (c.state r.1) s (.read res) =
      some o := by
    intro res
    cases hp : s.phase with
    | opening op =>
      cases op with
      | readHandshake =>
        rw [sessionStep, hp]
        cases res with
        | message m =>
          simp only [openingStep]
          split <;> exact ⟨_, rfl⟩
        | _ => exact ⟨_, rfl⟩
      | readAck =>
        rw [sessionStep, hp]
        cases res with
        | message m =>
          simp only [openingStep]
          split <;> exact ⟨_, rfl⟩
        | _ => exact ⟨_, rfl⟩
      | _ => simp [hp, Phase.awaitsGreeting] at hw
    | _ => simp [hp, Phase.awaitsGreeting] at hw
  cases hbox : c.inbox r with
  | cons m rest =>
    obtain ⟨o, ho⟩ := hread (.message m)
    refine ⟨.receive r, rfl, rfl, ?_⟩
    simp only [Cluster.step, hbox]
    rw [act_of_sessionStep (c := c.setInbox r rest) hs ho]
    rfl
  | nil =>
    obtain ⟨o, ho⟩ := hread .eof
    have hgone := hin.resolve_left fun hne => hne hbox
    refine ⟨.closed r, rfl, rfl, ?_⟩
    simp only [Cluster.step, hbox, hgone]
    rw [if_pos ⟨rfl, trivial⟩, act_of_sessionStep hs ho]
    rfl

/-- The two ends never wait for each other. -/
theorem Talks.can_go_on (hi : Talks W c) (hc : Sound W c) (hpq : c.link p = some (.daemon q))
    (hp : 0 < c.toLoop p) : ∃ x, Honest c x ∧ handshakeStep p q c x = true ∧
      (c.step W x).isSome = true := by
  obtain ⟨s, hs, hsc⟩ := hc.links.taken p _ hpq
  have hqp := hc.links.symm p q hpq
  obtain ⟨s', hs', hsc'⟩ := hc.links.taken q _ hqp
  have hstep : ∀ r, (r = p ∨ r = q) → 0 < c.toLoop r →
      (∃ x : Action P, Honest c x ∧ x.sessionAt = some r ∧ (c.step W x).isSome = true) →
      ∃ x, Honest c x ∧ handshakeStep p q c x = true ∧ (c.step W x).isSome = true := by
    rintro r hr hpos ⟨x, hx, hat, hsome⟩
    exact ⟨x, hx, by simp [handshakeStep, hat, hr, hpos], hsome⟩
  have hpos := toLoop_of_session hs ▸ hp
  rcases Phase.ready_or_waiting hpos hsc with hready | hwait
  · exact hstep p (.inl rfl) hp (ready_step hs hready)
  · have htake : ∀ r s, (r = p ∨ r = q) → c.session r = some s → s.phase.awaitsGreeting = true →
        c.inbox r ≠ [] ∨ c.remoteGone r = true → ∃ x, Honest c x ∧
          handshakeStep p q c x = true ∧ (c.step W x).isSome = true := by
      intro r s hr hs hwait hin
      refine hstep r hr ?_ (waiting_step hs hwait hin)
      rw [toLoop_of_session hs]
      exact Phase.toLoop_pos (.inr hwait)
    by_cases hin : c.inbox p = []
    · have hord := (hi.pair q p s' s hqp hs' hs).2
      rw [hin, Session.hearer_of_waiting hwait] at hord
      cases hsp : s'.speaker with
      | talking =>
        rw [hsp] at hord
        cases hord with
        | quiet htalk _ => exact absurd rfl htalk
      | gone =>
        refine htake p s (.inl rfl) hs hwait (.inr ?_)
        simp [remoteGone, hpq, hs', Session.isEnded_of_gone hsp]
      | silent =>
        rcases Session.ready_or_waiting_of_silent (hi.role q s' hs') hsp hsc' with hready | hwait'
        · have hpos' := toLoop_of_session hs' ▸ Phase.toLoop_pos (.inl hready)
          exact hstep q (.inr rfl) hpos' (ready_step hs' hready)
        · refine htake q s' (.inr rfl) hs' hwait' (.inl fun hin' => ?_)
          obtain ⟨hopp, hord'⟩ := hi.pair p q s s' hpq hs hs'
          rw [hin', Session.hearer_of_waiting hwait'] at hord'
          have htalk := (Session.talking_of_waiting (hi.role p s hs) (hi.role q s' hs') hopp hwait
            hwait').resolve_right (by rw [hsp]; decide)
          rw [htalk] at hord'
          cases hord' with
          | quiet hne _ => exact absurd rfl hne
    · exact htake p s (.inl rfl) hs hwait (.inl hin)

/-- The handshake of two honest daemons ends: on a connection whose writes do not wait for
the other end to read, the two sessions take at most 14 steps before both are in their
loop or have ended, and until then one of them can take its next step, whatever else
happens in the cluster. -/
theorem handshake_ends (h : (system P W).Reach Honest c) (hpq : c.link p = some (.daemon q))
    {as : List (Action P)} (hrun : (system P W).run c as = some c')
    (hm : (system P W).Meets Honest c as) :
    (system P W).count (handshakeStep p q) c as + (c'.toLoop p + c'.toLoop q) ≤ 14 ∧
      (0 < c'.toLoop p + c'.toLoop q → ∃ x, Honest c' x ∧ handshakeStep p q c' x = true ∧
        ((system P W).step c' x).isSome = true) := by
  have hpays : ∀ c x c₁, (system P W).Reach Honest c ∧ c.link p = some (.daemon q) →
      Honest c x → (system P W).step c x = some c₁ →
      (handshakeStep p q c x).toNat + (c₁.toLoop p + c₁.toLoop q) ≤
        0 + (c.toLoop p + c.toLoop q) := by
    rintro c x c₁ ⟨h, hpq⟩ hx hs
    rw [Nat.zero_add]
    exact handshakeStep_pays (.reach h) (.reach h) hpq hx hs
  obtain ⟨h', hpq'⟩ := System.run_preserves (fun _ _ _ => linked_step) hrun hm ⟨h, hpq⟩
  refine ⟨?_, fun hpos => ?_⟩
  · have hpaid := System.run_total_le (fun _ _ _ => linked_step) hpays hrun hm ⟨h, hpq⟩
    obtain ⟨s, s', hs, hs', -, hsc, hsc'⟩ := linked_sessions h hpq
    have hle : c.toLoop p ≤ 7 := toLoop_of_session hs ▸ Phase.toLoop_le hsc
    have hle' : c.toLoop q ≤ 7 := toLoop_of_session hs' ▸ Phase.toLoop_le hsc'
    rw [System.total_zero] at hpaid
    rw [System.count]
    omega
  · have hi := Talks.reach h'
    rcases Nat.eq_zero_or_pos (c'.toLoop p) with hzero | hp
    · have hq : 0 < c'.toLoop q := by omega
      obtain ⟨x, hx, hat, hsome⟩ :=
        hi.can_go_on (.reach h') ((Links.reach h').symm p q hpq') hq
      exact ⟨x, hx, by rw [handshakeStep_comm, hat], hsome⟩
    · exact hi.can_go_on (.reach h') hpq' hp

section
open Reference

/-- Node `a` has reached node `b`, which has registered it: the two have taken three steps
and can go on. -/
theorem handshake_ends_halfway : ∃ c c' : Cluster platform, clusters.Reach Honest c ∧
    c.link (nodeA, 0) = some (.daemon (nodeB, 0)) ∧
      clusters.count (handshakeStep (nodeA, 0) (nodeB, 0)) c
        [writes (nodeA, 0), .receive (nodeB, 0), locks (nodeB, 0)] = 3 ∧
      ∃ x, handshakeStep (nodeA, 0) (nodeB, 0) c' x = true ∧
        (clusters.step c' x).isSome = true := by
  have heval : ((some cluster).bind fun c => (clusters.guard fun _ x => x.isHonest).run c
      (dials nodeA "10.0.0.2:4369" ++ [.establish (nodeA, 0) nodeB nonce])).any (fun c =>
        decide (c.link (nodeA, 0) = some (.daemon (nodeB, 0))) &&
          clusters.count (handshakeStep (nodeA, 0) (nodeB, 0)) c
            [writes (nodeA, 0), .receive (nodeB, 0), locks (nodeB, 0)] == 3 &&
          ((clusters.guard fun _ x => x.isHonest).run c
            [writes (nodeA, 0), .receive (nodeB, 0), locks (nodeB, 0)]).any fun c' =>
              decide (0 < c'.toLoop (nodeA, 0) + c'.toLoop (nodeB, 0))) = true := by
    decide +kernel
  obtain ⟨c, hr, hp⟩ := System.Reach.of_eval (C := Honest) heval (fun _ _ hx => hx) cluster_init
  simp only [Bool.and_eq_true, beq_iff_eq, decide_eq_true_eq, Option.any_eq_true] at hp
  obtain ⟨⟨hlink, hcount⟩, c', hrun, hpos⟩ := hp
  obtain ⟨hrun, hmeets⟩ := System.run_of_guard (C := Honest) (fun _ _ hx => hx) hrun
  obtain ⟨-, hgo⟩ := handshake_ends hr hlink hrun hmeets
  obtain ⟨x, -, hx, hsome⟩ := hgo hpos
  exact ⟨c, c', hr, hlink, hcount, x, hx, hsome⟩

end

end Cluster
end Pmd
